import TransEncrypt.OpenProofs

/-! # The table of descriptors over whole runs

    A run is a sequence of `open`, `dup` and `close`, each under conditions of its own,
    with a host that may fail any call and hands out any free descriptor.

    * `Consistent`: no descriptor has two entries, and every entry's descriptor is open
      on the file its path denoted when it was opened;
    * `table_consistent`: every run keeps that, as long as no tracked descriptor is closed
      while encryption is switched off and no file that has been converted fails to open
      again;
    * `stale_entry`: without the first condition an entry survives its descriptor. -/

namespace TeTable

open Posix Overlay TeHeader Hoare TeProgram TeDetector TeWorker TeRebuild TeOpen

/-! ## Calls and runs -/

inductive Call where
  | openFile (env : Env) (path : Path) (flags : Flags)
  | dup (env : Env) (oldfd : Int)
  | close (env : Env) (fd : Int)

def Call.run (dev : Device) : Call → Sys Int
  | .openFile env path flags => open_file dev env path flags
  | .dup env oldfd => TeOpen.dup env oldfd
  | .close env fd => TeOpen.close env fd

/-- The hook hands the call on because encryption is switched off. -/
def Bypassed (env : Env) : Prop := env.linker_running_state = true ∧ ¬ env.Active

/-- The states that calls lead to, each allowed in the state it is made in. -/
inductive Reachable (dev : Device) (ok : World → Call → Prop) (w₀ : World) : World → Prop where
  | start : Reachable dev ok w₀ w₀
  | step {w w' : World} {c : Call} {r : Int} : Reachable dev ok w₀ w → ok w c →
      c.run dev w = .ok (r, w') → Reachable dev ok w₀ w'

/-- A tracked descriptor is not closed behind the library's back, and the second `open`
    of a file that has just been converted does not fail. -/
def Careful (dev : Device) (w : World) : Call → Prop
  | .openFile env path flags => Reopens dev env path flags w
  | .dup _ _ => True
  | .close env fd => Bypassed env → ¬ w.Tracked fd

/-! ## The invariant -/

/-- The descriptor of the entry is open on the file that its path denoted. -/
def Current (k : Kernel) (e : FileInfo) : Prop :=
  ∃ id, k.find e.file_descriptor = some id ∧ e.origin = some (k.desc id).inode

structure Consistent (w : World) : Prop where
  distinct : (w.file_info_list.map FileInfo.file_descriptor).Nodup
  current : ∀ e ∈ w.file_info_list, Current w.kern e

/-- What keeps the descriptors keeps an entry current. -/
theorem Current.kept {k k' : Kernel} {e : FileInfo} (h : Current k e) (hk : Kernel.Kept k k') :
    Current k' e := by
  obtain ⟨id, hfind, horigin⟩ := h
  exact ⟨id, hk.find hfind, horigin.trans (congrArg some (hk.inode hfind).symm)⟩

namespace Consistent

variable {w w' : World} (h : Consistent w)
include h

theorem inUse : ∀ e ∈ w.file_info_list, w.kern.InUse e.file_descriptor := by
  intro e he
  obtain ⟨id, hfind, -⟩ := h.current e he
  exact w.kern.find_inUse hfind

theorem kept (hk : Kernel.Kept w.kern w'.kern) (hl : w'.file_info_list = w.file_info_list) :
    Consistent w' := by
  refine ⟨by rw [hl]; exact h.distinct, fun e he => ?_⟩
  exact (h.current e (hl ▸ he)).kept hk

/-- An entry for a descriptor that was not in use. -/
theorem add {fd : Int} {path : Path} {o : Option Nat} (hk : Kernel.Kept w.kern w'.kern)
    (hfresh : ¬ w.kern.InUse fd) (hcur : Current w'.kern ⟨fd, path, o⟩)
    (hl : w'.file_info_list = w.file_info_list ++ [⟨fd, path, o⟩]) : Consistent w' := by
  refine ⟨?_, fun e he => ?_⟩
  · rw [hl, List.map_append, List.nodup_append]
    refine ⟨h.distinct, List.nodup_singleton _, fun a ha b hb => ?_⟩
    obtain ⟨e, he, rfl⟩ := List.mem_map.mp ha
    obtain rfl : b = fd := List.mem_singleton.mp hb
    exact fun heq => hfresh (heq ▸ h.inUse e he)
  · rw [hl] at he
    rcases List.mem_append.mp he with he | he
    · exact (h.current e he).kept hk
    · obtain rfl := List.mem_singleton.mp he
      exact hcur

/-- A query gives an entry of the file that the descriptor is open on now. -/
theorem query {fd : Int} {e : FileInfo}
    (hq : w.file_info_list.find? (fun e => e.file_descriptor = fd) = some e) :
    ∃ id, w.kern.find fd = some id ∧ e.origin = some (w.kern.desc id).inode := by
  have hfd : e.file_descriptor = fd := by simpa using List.find?_some hq
  exact hfd ▸ h.current e (List.mem_of_find?_eq_some hq)

end Consistent

/-! ## One call -/

/-- Removing the first entry of a descriptor removes all of them when they are distinct. -/
theorem ne_of_mem_eraseP {fd : Int} : ∀ {l : List FileInfo},
    (l.map FileInfo.file_descriptor).Nodup →
    ∀ e ∈ l.eraseP (fun e => e.file_descriptor = fd), e.file_descriptor ≠ fd := by
  intro l
  induction l with
  | nil => intro _ e he; cases he
  | cons a l ih =>
      intro hnodup e he
      obtain ⟨hnot, hnodup'⟩ := List.nodup_cons.mp hnodup
      by_cases ha : a.file_descriptor = fd
      · rw [List.eraseP_cons_of_pos (by simpa using ha)] at he
        exact fun heq => hnot (List.mem_map.mpr ⟨e, he, heq.trans ha.symm⟩)
      · rw [List.eraseP_cons_of_neg (by simpa using ha)] at he
        rcases List.mem_cons.mp he with rfl | he
        · exact ha
        · exact ih hnodup' e he

/-- Releasing a descriptor that no entry has. -/
theorem consistent_close {w w' : World} {fd r : Int} (h : Consistent w)
    (hfd : ∀ e ∈ w.file_info_list, e.file_descriptor ≠ fd)
    (hr : linker_close fd w = .ok (r, w')) : Consistent w' := by
  obtain ⟨-, rfl⟩ := kernelCall_inv hr
  refine ⟨h.distinct, fun e he => ?_⟩
  obtain ⟨id, hfind, horigin⟩ := h.current e he
  have hsame : (w.kern.sysClose fd).2.find e.file_descriptor = w.kern.find e.file_descriptor ∧
      (w.kern.sysClose fd).2.desc = w.kern.desc := by
    unfold Kernel.sysClose
    split
    · exact ⟨rfl, rfl⟩
    · exact ⟨Kernel.dropFd_find_ne _ (hfd e he), rfl⟩
  exact ⟨id, hsame.1.trans hfind, by rw [hsame.2]; exact horigin⟩

/-- The probe of a descriptor duplicates it and closes the duplicate. -/
theorem kept_is_encrypted_by_fd (fd : Int) : Frames (is_encrypted_by_fd fd) := by
  refine .bind (Frames.getfl fd) fun fl => ?_
  cases fl with
  | none => exact .pure _
  | some fl =>
      refine .ite (.pure _) ?_
      intro w a w' h
      obtain ⟨nfd, w₁, h1, h2⟩ := bind_inv h
      rcases linker_dup_inv h1 with ⟨rfl, rfl⟩ | ⟨id, k₁, rfl, -, hdup⟩
      · obtain ⟨-, rfl⟩ := Prod.mk.inj (Except.ok.inj h2)
        exact ⟨.tock _ 1, rfl⟩
      · by_cases hpos : nfd > 0
        · rw [if_pos hpos] at h2
          obtain ⟨r, w₂, h3, h4⟩ := bind_inv h2
          obtain ⟨hk, hl⟩ := Frames.pread _ _ _ h3
          obtain ⟨c, w₃, h5, h6⟩ := bind_inv h4
          obtain ⟨-, rfl⟩ := kernelCall_inv h5
          obtain ⟨-, rfl⟩ := Prod.mk.inj (Except.ok.inj h6)
          exact ⟨hdup.close hk, hl⟩
        · rw [if_neg hpos] at h2
          obtain ⟨-, rfl⟩ := Prod.mk.inj (Except.ok.inj h2)
          exact ⟨hdup.kept, rfl⟩

theorem kept_passes_through (fd : Int) : Frames (passes_through fd) := by
  refine .bind (Frames.query fd) fun e => ?_
  cases e with
  | some e => exact .pure _
  | none => exact .bind (kept_is_encrypted_by_fd fd) fun _ => .pure _

/-- A duplicate made by the real call has no entry. -/
theorem consistent_raw_dup {w w' : World} {oldfd r : Int} (h : Consistent w)
    (hr : linker_dup oldfd w = .ok (r, w')) : Consistent w' := by
  rcases linker_dup_inv hr with ⟨rfl, rfl⟩ | ⟨id, k', rfl, -, hdup⟩
  · exact h.kept (.tock _ 1) rfl
  · exact h.kept hdup.kept rfl

theorem consistent_dup {w w' : World} {env : Env} {oldfd r : Int} (h : Consistent w)
    (hr : TeOpen.dup env oldfd w = .ok (r, w')) : Consistent w' := by
  rw [TeOpen.dup] at hr
  rcases hooked_inv hr with ⟨-, rfl⟩ | ⟨-, -, hr⟩ | ⟨-, hr⟩
  · exact h
  · exact consistent_raw_dup h hr
  obtain ⟨pass, w₁, h1, h2⟩ := bind_inv hr
  obtain ⟨hk₁, hl₁⟩ := kept_passes_through oldfd h1
  have hcon := h.kept hk₁ hl₁
  by_cases hpass : pass = true
  · rw [if_pos hpass] at h2
    exact consistent_raw_dup hcon h2
  rw [if_neg hpass] at h2
  obtain ⟨fd, w₂, h3, h4⟩ := bind_inv h2
  rcases linker_dup_inv h3 with ⟨rfl, rfl⟩ | ⟨id, k₂, rfl, hfind, hdup⟩
  · rw [if_neg (by decide)] at h4
    obtain ⟨-, rfl⟩ := Prod.mk.inj (Except.ok.inj h4)
    exact hcon.kept (.tock _ 1) rfl
  by_cases hpos : fd > 0
  · rw [if_pos hpos] at h4
    obtain ⟨e, w₃, h5, h6⟩ := bind_inv h4
    obtain ⟨rfl, rfl⟩ := Prod.mk.inj (Except.ok.inj h5)
    cases he : w₁.file_info_list.find? (fun e => e.file_descriptor = oldfd) with
    | none =>
        rw [show ({ w₁ with kern := k₂ } : World).file_info_list.find? _ = none from he] at h6
        obtain ⟨-, rfl⟩ := Prod.mk.inj (Except.ok.inj h6)
        exact hcon.kept hdup.kept rfl
    | some info =>
        rw [show ({ w₁ with kern := k₂ } : World).file_info_list.find? _ = some info from he]
          at h6
        obtain ⟨b, w₄, h7, h8⟩ := bind_inv h6
        obtain ⟨-, rfl⟩ := Prod.mk.inj (Except.ok.inj h8)
        obtain ⟨-, hkern, hlist⟩ := add_inv h7
        have hk₄ : Kernel.Kept w₁.kern w₄.kern := by
          rw [hkern]
          exact hdup.kept.trans (.tock _ 1)
        cases b with
        | false => exact hcon.kept hk₄ hlist
        | true =>
            -- the duplicate is open on the file of the descriptor it was made from
            obtain ⟨id', hfind', horigin⟩ := hcon.query he
            obtain rfl : id = id' := Option.some.inj (hfind.symm.trans hfind')
            refine hcon.add hk₄ hdup.fresh ⟨id, ?_, ?_⟩ hlist
            · rw [hkern]
              exact hdup.find_self
            · rw [horigin, hk₄.inode hfind]
  · rw [if_neg hpos] at h4
    obtain ⟨-, rfl⟩ := Prod.mk.inj (Except.ok.inj h4)
    exact hcon.kept hdup.kept rfl

theorem consistent_hooked_close {w w' : World} {env : Env} {fd r : Int} (h : Consistent w)
    (hcare : Bypassed env → ¬ w.Tracked fd) (hr : TeOpen.close env fd w = .ok (r, w')) :
    Consistent w' := by
  have huntracked : ¬ w.Tracked fd → ∀ e ∈ w.file_info_list, e.file_descriptor ≠ fd :=
    fun hno e he heq => hno ⟨e, he, heq⟩
  rw [TeOpen.close] at hr
  rcases hooked_inv hr with ⟨-, rfl⟩ | ⟨hload, hoff, hr⟩ | ⟨-, hr⟩
  · exact h
  · exact consistent_close h (huntracked (hcare ⟨hload, hoff⟩)) hr
  obtain ⟨e, w₁, h1, h2⟩ := bind_inv hr
  obtain ⟨rfl, rfl⟩ := Prod.mk.inj (Except.ok.inj h1)
  cases he : w.file_info_list.find? (fun e => e.file_descriptor = fd) with
  | none =>
      rw [he] at h2
      have hno : ¬ w.Tracked fd := fun ht => by
        have := query_isSome_iff.mpr ht
        rw [he] at this
        cases this
      exact consistent_close h (huntracked hno) h2
  | some info =>
      rw [he] at h2
      obtain ⟨p, w₂, h3, h4⟩ := bind_inv h2
      obtain ⟨hk₂, hl₂, -⟩ := lseek_inv h3
      have hcon := h.kept hk₂ hl₂
      obtain ⟨u, w₃, h5, h6⟩ := bind_inv h4
      obtain ⟨-, rfl⟩ := Prod.mk.inj (Except.ok.inj h5)
      refine consistent_close ⟨?_, fun e he => ?_⟩ (ne_of_mem_eraseP hcon.distinct) h6
      · exact hcon.distinct.sublist (List.eraseP_sublist.map _)
      · exact hcon.current e (List.mem_of_mem_eraseP he)

/-- An open whose second call, if any, does not fail. -/
theorem consistent_open {dev : Device} {w w' : World} {env : Env} {path : Path}
    {flags : Flags} {r : Int} (h : Consistent w) (hcare : Reopens dev env path flags w)
    (hr : open_file dev env path flags w = .ok (r, w')) : Consistent w' := by
  have hopen := open_inv hr
  cases hopen.entered h.inUse with
  | same hl => exact h.kept hopen.kept hl
  | added i id pos p hnew _ hl =>
      exact h.add hopen.kept hnew.fresh ⟨id, hnew.find, by rw [hnew.desc]⟩ hl
  | lost hlost => exact absurd hcare hlost

/-! ## Every run -/

/-- A careful call keeps the table consistent. -/
theorem consistent_step {dev : Device} {w w' : World} {c : Call} {r : Int}
    (h : Consistent w) (hcare : Careful dev w c) (hr : c.run dev w = .ok (r, w')) :
    Consistent w' := by
  cases c with
  | openFile env path flags => exact consistent_open h hcare hr
  | dup env oldfd => exact consistent_dup h hr
  | close env fd => exact consistent_hooked_close h hcare hr

/-- **The table over every run** of careful calls that starts with no entry: no descriptor
    has two entries, every entry is of the file its descriptor is open on, and so is the
    answer of every query. -/
theorem table_consistent {dev : Device} {w₀ w : World} (h₀ : w₀.file_info_list = [])
    (hrun : Reachable dev (Careful dev) w₀ w) :
    Consistent w ∧ ∀ fd e,
      w.file_info_list.find? (fun e => e.file_descriptor = fd) = some e →
      ∃ id, w.kern.find fd = some id ∧ e.origin = some (w.kern.desc id).inode := by
  have hcon : Consistent w := by
    induction hrun with
    | start => exact ⟨by rw [h₀]; exact List.nodup_nil, fun e he => by rw [h₀] at he; cases he⟩
    | step _ hcare hr ih => exact consistent_step ih hcare hr
  exact ⟨hcon, fun fd e hq => hcon.query hq⟩

/-- The file is opened, the descriptor is copied and the first one closed: the entry that
    stays is that of the copy. -/
theorem table_consistent_copied : ∃ fd nfd id w, fd ≠ nfd ∧
    Reachable aDevice (Careful aDevice) encryptedFile w ∧
    w.file_info_list = [⟨nfd, Kernel.aName, some 1⟩] ∧ Consistent w ∧
    w.kern.find nfd = some id ∧ some 1 = some (w.kern.desc id).inode := by
  have henv : activeEnv.Active := ⟨rfl, rfl, rfl⟩
  obtain ⟨fd, id, w₁, hopen, -, hnew, hc, -, hlist⟩ :=
    @encryptedFile_open { acc := .rdonly } rfl rfl
  have h0 : w₁.kern.InUse 0 := (open_inv hopen).kept.inUse (by decide)
  let nfd := w₁.kern.freeFd w₁.kern.answer.hint
  let k₂ := (w₁.kern.tock 1).bindFd w₁.kern.answer.hint id (w₁.kern.find_lt hnew.find)
  let w₂ : World := ⟨k₂.tock 1, w₁.file_info_list ++ [⟨nfd, Kernel.aName, some 1⟩]⟩
  have hquery : w₁.file_info_list.find? (fun e => e.file_descriptor = fd)
      = some ⟨fd, Kernel.aName, some 1⟩ := by
    rw [hlist]
    exact List.find?_cons_of_pos (by simp)
  have hdup : TeOpen.dup activeEnv fd w₁ = .ok (nfd, w₂) :=
    dup_calm henv hc hnew.find hquery h0
  have hne : fd ≠ nfd := fun heq =>
    w₁.kern.freeFd_not_inUse w₁.kern.answer.hint (by
      rw [show w₁.kern.freeFd w₁.kern.answer.hint = fd from heq.symm]
      exact w₁.kern.find_inUse hnew.find)
  have hquery₂ : w₂.file_info_list.find? (fun e => e.file_descriptor = fd)
      = some ⟨fd, Kernel.aName, some 1⟩ := by
    rw [List.find?_append, hquery]
    rfl
  have hfd : k₂.find fd = some id := Kernel.bindFd_find_some (k := w₁.kern.tock 1) hnew.find
  have hreg : (w₁.kern.desc id).regular = true := by
    rw [hnew.desc]
  have hclose := close_calm (w := w₂) henv hc hfd hquery₂ hreg
  have hlist₂ : w₂.file_info_list.eraseP (fun e => e.file_descriptor = fd)
      = [⟨nfd, Kernel.aName, some 1⟩] := by
    show (w₁.file_info_list ++ _).eraseP _ = _
    rw [hlist]
    exact List.eraseP_cons_of_pos (by simp)
  rw [hlist₂] at hclose
  have hreach : Reachable aDevice (Careful aDevice) encryptedFile
      ⟨((w₂.kern.setPos id 0).tock 2).dropFd fd, [⟨nfd, Kernel.aName, some 1⟩]⟩ :=
    .step (c := .close activeEnv fd)
      (.step (c := .dup activeEnv fd)
        (.step (c := .openFile activeEnv Kernel.aName { acc := .rdonly }) .start
          (reopens_encrypted (fun _ => ⟨rfl, rfl, rfl⟩) (by decide) rfl encryptedFile_hasHeader)
          hopen)
        trivial hdup)
      (fun hby => absurd henv hby.2) hclose
  obtain ⟨hcon, hentry⟩ := table_consistent rfl hreach
  obtain ⟨id', hfind, horigin⟩ := hentry nfd ⟨nfd, Kernel.aName, some 1⟩
    (List.find?_cons_of_pos (by simp))
  exact ⟨fd, nfd, id', _, hne, hreach, rfl, hcon, hfind, horigin⟩

/-- Opened while encryption is on, closed while it is off: the entry stays behind. -/
theorem stale_entry : ∃ w, Reachable aDevice (fun _ _ => True) encryptedFile w ∧
    ¬ Consistent w := by
  obtain ⟨fd, id, w₁, hrun, -, hnew, hc, -, hlist⟩ :=
    @encryptedFile_open { acc := .rdonly } rfl rfl
  have hclose : TeOpen.close ⟨true, true, false⟩ fd w₁ =
      .ok (0, { w₁ with kern := (w₁.kern.tock 1).dropFd fd }) :=
    linker_close_ok (Kernel.sysClose_calm hc hnew.find)
  refine ⟨_, .step (c := .close ⟨true, true, false⟩ fd)
    (.step (c := .openFile activeEnv Kernel.aName { acc := .rdonly }) .start trivial hrun)
    trivial hclose, fun hcon => ?_⟩
  obtain ⟨id', hfind', -⟩ := hcon.current ⟨fd, Kernel.aName, some 1⟩ (by
    show _ ∈ w₁.file_info_list
    rw [hlist]
    exact List.mem_singleton_self _)
  rw [show ((w₁.kern.tock 1).dropFd fd).find fd = none from
    Kernel.dropFd_find_self _ fd] at hfind'
  cases hfind'

end TeTable
