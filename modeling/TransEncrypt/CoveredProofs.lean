import TransEncrypt.OnceProofs
import TransEncrypt.StuckProofs

/-! # Is every supported file under encryption

    `open` looks for a header before it opens the file, and after that it goes by what it has
    seen, not by what the real call has done: a file that is emptied or was empty gets no
    header, nor does a new one that is opened as descriptor 0.

    * `rebuild_workers_headed`: on a calm host a conversion by workers that returns leaves a
      header, whatever the size;
    * `open_covers`, `open_uncovered`: the prior states and flags for which the descriptor is
      under encryption, and the others;
    * `covered_iff`: both, in one statement. -/

namespace TeCovered

open Posix Overlay Interleave TeHeader Hoare TeProgram TeDetector TeWorker TeRebuild TeOpen TeStuck

/-! ## Conversions of any size -/

section Workers

variable {dev : Device} {path : Path} {old : Nat} {fs fs' : FileStore} {t t' : Worker}

/-- The answers of a calm host that does not give descriptor 0. -/
def Granting (a : Answer) : Prop := Answer.Calm a ∧ a.hint ≠ 0

/-- Under such an answer a worker makes the step it makes when nothing fails. -/
theorem step_calm {a : Answer} (ha : Granting a) (fs : FileStore) (t : Worker) :
    Worker.step dev path a fs t =
      Worker.step dev path ((allCreated false).answer t.pc) fs t := by
  obtain ⟨fails, denies, limit, hint, who, arrives⟩ := a
  obtain ⟨⟨rfl, rfl, rfl⟩, hhint⟩ := ha
  have hhint : ¬ hint = 0 := hhint
  have hthree : ¬ (3 : Nat) = 0 := by decide
  obtain ⟨number, offset, bsize, tsize, pc⟩ := t
  cases pc with
  | create =>
      simp only [Worker.step, Pattern.answer, allCreated, Bool.false_eq_true, if_false,
        if_neg hhint, if_neg hthree]
  | probe =>
      simp only [Worker.step, Pattern.answer, Bool.false_eq_true, false_or, if_neg hhint,
        if_neg hthree]
  | _ => rfl

/-- The last worker returns the name of the new file. -/
def Names (t : Worker) : Prop :=
  t.number + 1 = THREADS_COUNT → ∀ q, t.pc = .returned q → q = true

/-- A worker that has not returned. -/
theorem names_running {t : Worker} (h : t.finished = false) : Names t := by
  intro _ q hq
  rw [Worker.finished, hq] at h
  cases h

theorem names_loop (t : Worker) (o s : Nat) : Names (t.loop o s) := by
  intro hlast q hq
  rw [Worker.loop_number] at hlast
  rw [Worker.loop] at hq
  split at hq
  · cases hq
  · cases hq

/-- **One step** of a calm host. -/
theorem names_step (hs : Sites dev path old fs) (hf : Fruitful dev path old fs t) (ht : Names t)
    (h : Worker.step dev path ((allCreated false).answer t.pc) fs t = some (fs', t')) :
    Names t' := by
  obtain ⟨number, offset, bsize, tsize, pc⟩ := t
  obtain ⟨-, hat⟩ := hf
  have hto : ∀ {f : FileStore} {t₁ : Worker}, some (f, t₁) = some (fs', t') → Names t₁ →
      Names t' := by
    intro f t₁ heq hn
    obtain ⟨-, rfl⟩ := Prod.mk.inj (Option.some.inj heq)
    exact hn
  cases pc with
  | openOld =>
      simp only [Worker.step, hs.name, Pattern.answer, Bool.false_eq_true, if_false] at h
      exact hto h (names_running rfl)
  | openNew o =>
      obtain ⟨-, s, hheaded⟩ := hat
      simp only [Worker.step, hheaded.1, Pattern.answer, Bool.false_eq_true, if_false] at h
      exact hto h (names_loop _ o s)
  | writeChunk o s buff => exact hto h (names_loop _ o s)
  | returned q => exact hto h ht
  | start =>
      simp only [Worker.step, Pattern.answer, Bool.false_eq_true, if_false] at h
      split at h
      · cases h
      · split at h
        · exact hto h (names_running rfl)
        · exact hto h (names_running rfl)
  | clear =>
      simp only [Worker.step] at h
      split at h
      · exact hto h (names_running rfl)
      · exact hto h (names_running rfl)
  | remove => exact hat.elim
  | create =>
      simp only [Worker.step] at h
      split at h
      · exact hto h (names_running rfl)
      · exact hto h (names_running rfl)
  | truncate s => exact hto h (names_running rfl)
  | header s => exact hto h (names_running rfl)
  | waiting =>
      simp only [Worker.step] at h
      split at h
      · exact hto h (names_running rfl)
      · exact hto h (names_running rfl)
  | probe =>
      simp only [Worker.step] at h
      split at h
      · exact hto h (names_running rfl)
      · split at h
        · exact hto h (names_running rfl)
        · exact hto h (names_running rfl)
  | probeRead s =>
      simp only [Worker.step] at h
      generalize is_encrypted_by_file_header _ = type at h
      split at h
      · exact hto h (names_running rfl)
      · exact hto h (names_running rfl)
  | entered =>
      simp only [Worker.step] at h
      split at h
      · exact hto h (names_running rfl)
      · exact hto h fun _ q hq => (Pc.returned.inj hq).symm
  | readChunk o s =>
      simp only [Worker.step] at h
      split at h
      · exact hto h (names_running rfl)
      · exact hto h (names_running rfl)
  | readTail o s =>
      simp only [Worker.step] at h
      split at h
      · exact hto h fun _ q hq => (Pc.returned.inj hq).symm
      · split at h
        · exact hto h (names_running rfl)
        · exact hto h fun _ q hq => (Pc.returned.inj hq).symm
  | writeTail o s buff => exact hto h fun _ q hq => (Pc.returned.inj hq).symm

theorem names_sound : (workers dev path).Sound Granting (Sites dev path old)
    (fun i fs t => t.number = i ∧ Fruitful dev path old fs t ∧ Names t) where
  own := by
    rintro a i fs t fs' t' ha - hs ⟨hn, hf, ht⟩ h
    have h' := (step_calm ha fs t).symm.trans h
    obtain ⟨hmove, hf', hn'⟩ := fruitful_step rfl rfl rfl hs hf h'
    exact ⟨hmove.sites hs, hn'.trans hn, hf', names_step hs hf ht h'⟩
  other := by
    rintro a i k fs t fs' t' u ha - hik hs ⟨hn, hf, -⟩ ⟨hk, hu, hu'⟩ h
    have h' := (step_calm ha fs t).symm.trans h
    obtain ⟨hmove, -, -⟩ := fruitful_step rfl rfl rfl hs hf h'
    exact ⟨hk, hmove.fruitful (by rw [hn, hk]; exact hik) hu, hu'⟩

/-- The state in which the workers start. -/
theorem names_init {size : Nat} (hname : fs.names path = some old)
    (hlong : 4096 ≤ (fs.data old).length)
    (hnone : fs.names (get_security_path_by_path path) = none) :
    System.PoolInv (Sites dev path old)
      (fun i fs t => t.number = i ∧ Fruitful dev path old fs t ∧ Names t)
      (fs, allWorkers size) := by
  refine ⟨⟨hname, hlong, fun s hs => by cases hnone.symm.trans hs⟩, fun i t ht => ?_⟩
  obtain ⟨k, hk, rfl⟩ := Option.map_eq_some_iff.mp ((List.getElem?_map ..).symm.trans ht)
  obtain ⟨hlt, rfl⟩ := List.getElem?_eq_some_iff.mp hk
  exact ⟨List.getElem_range .., fruitful_workerArgs hnone _ _, fun _ q hq => by cases hq⟩

/-- **The large branch** of a calm host, whatever the size: when it returns, the name denotes
    a file with a header. -/
theorem rebuild_workers_headed {w w' : World} {r : Int} {size : Nat} (hc : w.kern.host.Calm)
    (h0 : w.kern.InUse 0) (hname : w.kern.files.names path = some old)
    (hlong : 4096 ≤ (w.kern.files.data old).length)
    (hnone : w.kern.files.names (get_security_path_by_path path) = none)
    (h : rebuild_workers dev path size w = .ok (r, w')) :
    r = 1 ∧ ∃ s, w'.kern.files.names path = some s ∧ HasHeader (w'.kern.files.data s) := by
  rw [rebuild_workers_calm hc] at h
  obtain ⟨ts, w₁, h1, h2⟩ := bind_inv h
  obtain ⟨m, num, hnum, hrun, -, hfin, hhost, -, -⟩ := run_workers_trace _ h1
  have hgrant : ∀ a ∈ answersFrom (numbered w.kern.host num) (w.kern.tick + 6) m, Granting a := by
    intro a ha
    obtain ⟨l, -, rfl⟩ := List.mem_map.mp ha
    exact ⟨numbered_calm hc num _, hnum h0 _⟩
  obtain ⟨-, hJ⟩ := names_sound.run _ hgrant (names_init hname hlong hnone) hrun
  have hlen : ts.length = THREADS_COUNT := System.poolRun_length _ _ hrun
  -- the last worker has returned the name of a file with a header
  have hlast : 3 < ts.length := by
    rw [hlen]
    decide
  obtain ⟨hn, ⟨-, hat⟩, hnames⟩ := hJ 3 ts[3] (List.getElem?_eq_getElem hlast)
  have hdone := hfin _ (List.getElem_mem hlast)
  obtain ⟨q, hq⟩ : ∃ q, ts[3].pc = .returned q := by
    rw [Worker.finished] at hdone
    split at hdone
    · exact ⟨_, ‹_›⟩
    · cases hdone
  rw [hq] at hat
  obtain ⟨s, hs⟩ : ∃ s, Headed dev path w₁.kern.files s := hat
  have htrue : q = true := hnames (by rw [hn]; rfl) q hq
  have hany : ts.any (fun t => t.pc = .returned true) = true := by
    rw [List.any_eq_true]
    exact ⟨ts[3], List.getElem_mem hlast, by rw [hq, htrue]; rfl⟩
  have hc₁ : w₁.kern.host.Calm := by
    rw [hhost]
    exact hc
  rw [if_pos hany, bind_ok (rename_calm hc₁ _ _)] at h2
  obtain ⟨rfl, rfl⟩ := Prod.mk.inj (Except.ok.inj h2)
  refine ⟨rfl, s, FileStore.rename_names_to _ hs.1, ?_⟩
  have htake : (w₁.kern.files.data s).take 4096 = newHeader dev.get_process_name := hs.2
  have hsplit : w₁.kern.files.data s =
      newHeader dev.get_process_name ++ (w₁.kern.files.data s).drop 4096 := by
    rw [← htake, List.take_append_drop]
  show HasHeader (w₁.kern.files.data s)
  rw [hsplit]
  exact hasHeader_append (newHeader_length _) (newHeader_rights _) _

/-- **A conversion** of a file that is not empty. -/
theorem rebuild_headed {w w' : World} {r : Int} {C : List UInt8} (hpath : path ≠ [])
    (hc : w.kern.host.Calm) (h0 : w.kern.InUse 0) (hname : w.kern.files.names path = some old)
    (hdata : w.kern.files.data old = C)
    (hnone : w.kern.files.names (get_security_path_by_path path) = none) (hne : C ≠ [])
    (h : rebuild_file_struct dev path C.length w = .ok (r, w')) :
    r = 1 ∧ ∃ s, w'.kern.files.names path = some s ∧ HasHeader (w'.kern.files.data s) := by
  by_cases hsmall : C.length ≤ 4096 * THREADS_COUNT
  · have hsmall' : C.length ≤ 4096 * 4 := hsmall
    rcases rebuild_inv hpath (by omega) hname hdata hnone hc h with
      ⟨rfl, -, s, hdone⟩ | ⟨-, -, hempty⟩
    · exact ⟨rfl, s, hdone.name, hdone.header⟩
    · exact absurd (hempty h0) hne
  · have hlarge : ¬ C.length ≤ 4096 * 4 := hsmall
    rw [rebuild_large hpath hsmall] at h
    exact rebuild_workers_headed hc h0 hname (by rw [hdata]; omega) hnone h

end Workers

/-! ## Opening -/

/-- The descriptor has an entry, and the file of the path starts with a header. -/
structure Covered (path : Path) (fd : Int) (w : World) : Prop where
  tracked : w.Tracked fd
  headed : ∃ s, w.kern.files.names path = some s ∧ HasHeader (w.kern.files.data s)

/-- An empty file has no header. -/
theorem not_covered_of_empty {path : Path} {fd : Int} {i : Nat} {w : World}
    (hname : w.kern.files.names path = some i) (hempty : w.kern.files.data i = []) :
    ¬ Covered path fd w := by
  rintro ⟨-, s, hs, hH⟩
  obtain rfl := Option.some.inj (hname.symm.trans hs)
  rw [hempty] at hH
  exact absurd hH.1 (by decide)

section Calm

variable {dev : Device} {w w' : World} {path : Path} {flags : Flags} {fd : Int} {i : Nat}
  (hc : w.kern.host.Calm)
include hc

/-- The entry of a descriptor that has just been opened. -/
theorem tracked_track {n : Int} {c : Prop} [Decidable c] (p : Path) (h : (do
      let origin ← denotes path
      if (← file_info_list_add fd p origin) then do
        if c then do
          let _ ← linker_lseek fd FILE_HEADER_POLL_SIZE .set
          pure fd
        else pure fd
      else pure fd : Sys Int) w = .ok (n, w')) : n = fd ∧ w'.Tracked fd := by
  obtain ⟨o, w₁, h1, h2⟩ := bind_inv h
  obtain ⟨-, rfl⟩ := denotes_inv h1
  rw [bind_ok (add_calm hc fd p o), if_pos rfl] at h2
  have hlast : (⟨fd, p, o⟩ : FileInfo) ∈ w₁.file_info_list ++ [⟨fd, p, o⟩] :=
    List.mem_append_right _ (List.mem_singleton.mpr rfl)
  by_cases hcond : c
  · rw [if_pos hcond] at h2
    obtain ⟨r, w₂, h3, h4⟩ := bind_inv h2
    obtain ⟨hn, rfl⟩ := pure_inv h4
    refine ⟨hn, ⟨fd, p, o⟩, ?_, rfl⟩
    rw [(lseek_inv h3).2.1]
    exact hlast
  · rw [if_neg hcond] at h2
    obtain ⟨hn, rfl⟩ := pure_inv h2
    exact ⟨hn, _, hlast, rfl⟩

/-- After the probe of a file that is there descriptor 0 is in use, and a header has been found
    where there is one and descriptor 0 was in use before. -/
theorem probe_finds (hlow : w.kern.host.LowestFree) (hname : w.kern.files.names path = some i) :
    ∃ header k₁, probe_header path w = .ok (header, { w with kern := k₁ }) ∧
      k₁.files = w.kern.files ∧ Kernel.Kept w.kern k₁ ∧ k₁.InUse 0 ∧
      (header ≠ none ↔ HasHeader (w.kern.files.data i) ∧ w.kern.InUse 0) := by
  by_cases h0 : w.kern.InUse 0
  · obtain ⟨k₁, hprobe, hq⟩ := probe_calm hc hname (w.kern.freeFd_pos h0 _)
    refine ⟨_, k₁, hprobe, hq.files, (kept_probe path hprobe).1, hq.inUse.mpr h0, ?_⟩
    by_cases hH : HasHeader (w.kern.files.data i)
    · rw [if_pos hH]
      exact ⟨fun _ => ⟨hH, h0⟩, fun _ => Option.some_ne_none _⟩
    · rw [if_neg hH]
      exact ⟨fun hne => absurd rfl hne, fun h => absurd h.1 hH⟩
  · have hzero : ¬ w.kern.freeFd w.kern.answer.hint > 0 := by
      have hhint : w.kern.answer.hint = 0 := hlow w.kern.tick
      rw [hhint, Kernel.freeFd_zero w.kern h0]
      decide
    obtain ⟨k₁, hprobe, hfiles, h0'⟩ := probe_zero hc hname hzero
    exact ⟨none, k₁, hprobe, hfiles, (kept_probe path hprobe).1, h0', fun hne => absurd rfl hne,
      fun h => absurd h.2 h0⟩

end Calm

/-! ## The branch of a file without a header -/

section Plain

variable {dev : Device} {w w' : World} {path : Path} {flags : Flags} {fd : Int} {i : Nat}
  {k₁ k₂ : Kernel} (hc₁ : k₁.host.Calm) (hname : k₁.files.names path = some i)
  (hnone : k₁.files.names (get_security_path_by_path path) = none)

include hc₁ hname hnone in
/-- A file without a header that is not empty is converted, and opened with an entry. -/
theorem open_plain_covers {n : Int} (hpath : path ≠ []) (h0 : k₁.InUse 0)
    (hne : k₁.files.data i ≠ []) (hx : (flags.creat && flags.excl) = false)
    (ht : flags.trunc = false) (ho : Kernel.Opened k₁ path flags fd i k₂)
    (h : open_plain dev path flags fd { w with kern := k₂ } = .ok (n, w')) :
    Covered path n w' := by
  have hfiles : k₂.files = k₁.files := ho.files.same hname ht
  obtain ⟨stage, w₃, h1, h2⟩ := bind_inv h
  rcases @TeOnce.convert_plain_reaches dev { w with kern := k₁ } w₃ path fd i _ k₂ stage hc₁
    ho.gained (by rw [hfiles]; exact hname) h1 with
    ⟨-, -, hs⟩ | ⟨-, w₀, r, rfl, hc₀, hfiles₀, hk₀, hrun⟩
  · rw [hfiles] at hs
    exact absurd hnone hs
  · rw [hfiles] at hrun hfiles₀
    obtain ⟨rfl, s, hs, hH⟩ := rebuild_headed hpath hc₀ (hk₀.inUse h0)
      (by rw [hfiles₀]; exact hname) (by rw [hfiles₀]) (by rw [hfiles₀]; exact hnone) hne hrun
    have hc₃ : w₃.kern.host.Calm := by
      rw [(kept_rebuild dev path _ hrun).1.host]
      exact hc₀
    -- the second open finds the converted file
    obtain ⟨fd', k₄, hopen, ho', -⟩ := linker_open_calm hc₃ hs hx
    have h2' : reopen path flags w₃ = .ok (n, w') := h2
    rw [reopen, bind_ok hopen] at h2'
    have hc₄ : k₄.host.Calm := by
      rw [ho'.gained.host]
      exact hc₃
    have htrack : (do
        let origin ← denotes path
        if (← file_info_list_add fd' path origin) then do
          if True then do
            let _ ← linker_lseek fd' FILE_HEADER_POLL_SIZE .set
            pure fd'
          else pure fd'
        else pure fd' : Sys Int) { w₃ with kern := k₄ } = .ok (n, w') := by
      simp only [if_true]
      exact h2'
    obtain ⟨rfl, htracked⟩ := tracked_track (w := { w₃ with kern := k₄ }) hc₄ path htrack
    have hstill : w'.kern.files = k₄.files := (TeOnce.still_track path path n htrack).1
    have hfiles' : w'.kern.files = w₃.kern.files := hstill.trans (ho'.files.same hs ht)
    exact ⟨htracked, s, by rw [hfiles']; exact hs, by rw [hfiles']; exact hH⟩

/-- A file that is opened to be emptied, or was empty, is empty then. -/
theorem opened_empty (hname : k₁.files.names path = some i)
    (hempty : flags.trunc = true ∨ k₁.files.data i = [])
    (ho : Kernel.Opened k₁ path flags fd i k₂) :
    k₂.files.names = k₁.files.names ∧ k₂.files.data i = [] := by
  have hfiles := ho.files
  generalize k₂.files = fs' at hfiles ⊢
  cases hfiles with
  | existing _ _ ht => exact ⟨rfl, hempty.resolve_left (by rw [ht]; decide)⟩
  | emptied => exact ⟨rfl, FileStore.store_data_self ..⟩
  | created hn => cases hname.symm.trans hn

include hc₁ hname hnone

/-- There is nothing to convert. -/
theorem convert_plain_empty (hfit : Fits path) (ho : Kernel.Opened k₁ path flags fd i k₂)
    (hempty : flags.trunc = true ∨ k₁.files.data i = []) :
    ∃ w₃, convert_plain dev path fd { w with kern := k₂ } = .ok (some false, w₃) ∧
      w₃.kern.files = k₂.files ∧ w₃.kern.host.Calm := by
  obtain ⟨hnames, hdata⟩ := opened_empty hname hempty ho
  have hc₂ : k₂.host.Calm := by
    rw [ho.gained.host]
    exact hc₁
  have haccess : access (get_security_path_by_path path) { w with kern := k₂.tock 1 } =
      .ok (-1, { w with kern := k₂.tock 1 }) :=
    access_ok (Kernel.sysAccess_none (k := k₂.tock 1) (by
      show k₂.files.names _ = none
      rw [hnames]
      exact hnone))
  have hclose : linker_close fd { w with kern := k₂.tock 1 } = .ok (((k₂.tock 1).sysClose fd).1,
      { w with kern := ((k₂.tock 1).sysClose fd).2 }) := rfl
  let k₄ := ((k₂.tock 1).sysClose fd).2
  have hfiles₄ : k₄.files = k₂.files := (Still.close fd hclose).1
  have hc₄ : k₄.host.Calm := by
    rw [(ho.gained.close (.tock k₂ 1)).host]
    exact hc₁
  have hname₄ : k₄.files.names path = some i := by
    rw [hfiles₄, hnames]
    exact hname
  have hsize := TeOnce.file_size_calm (w := { w with kern := k₄ }) hc₄ hname₄
  have hzero : k₄.files.data i = [] := by
    rw [hfiles₄]
    exact hdata
  rw [show (World.mk k₄ w.file_info_list).kern.files.data i = [] from hzero] at hsize
  refine ⟨{ w with kern := k₄.tock 1 }, ?_, hfiles₄, hc₄⟩
  have hrebuild : rebuild_file_struct dev path (([] : List UInt8).length : Int) = pure 0 := by
    rw [rebuild_file_struct]
    split
    · rfl
    · rfl
  rw [convert_plain, bind_ok (calloc_calm (w := { w with kern := k₂ }) hc₂), if_pos rfl,
    if_neg (not_not_intro hfit), bind_ok haccess, if_pos (by decide), bind_ok hclose,
    bind_ok hsize, hrebuild]
  rfl

/-- Such a file is opened again as it is. -/
theorem open_plain_empty (hfit : Fits path) (hx : (flags.creat && flags.excl) = false)
    (ho : Kernel.Opened k₁ path flags fd i k₂)
    (hempty : flags.trunc = true ∨ k₁.files.data i = []) :
    ∃ n w', open_plain dev path flags fd { w with kern := k₂ } = .ok (n, w') ∧ 0 ≤ n ∧
      w'.kern.files.names path = some i ∧ w'.kern.files.data i = [] := by
  obtain ⟨hnames, hdata⟩ := opened_empty hname hempty ho
  obtain ⟨w₃, hconv, hfiles₃, hc₃⟩ :=
    @convert_plain_empty dev w path flags fd i k₁ k₂ hc₁ hname hnone
    hfit ho hempty
  have hname₃ : w₃.kern.files.names path = some i := by
    rw [hfiles₃, hnames]
    exact hname
  obtain ⟨n, k₄, hopen, ho', -⟩ := linker_open_calm hc₃ hname₃ hx
  obtain ⟨-, hdata'⟩ := opened_empty hname₃ (.inr (by rw [hfiles₃]; exact hdata)) ho'
  exact ⟨n, _, (bind_ok hconv).trans hopen, ho'.gained.nonneg, ho'.name, hdata'⟩

end Plain

section Open

variable {dev : Device} {env : Env} {w w' : World} {path : Path} {flags : Flags} {fd : Int}
  {i : Nat} (henv : env.Active) (hsup : dev.is_support_file_type_by_path path ≠ 0)
  (hc : w.kern.host.Calm) (hlow : w.kern.host.LowestFree) (hpath : path ≠ [])
  (hnone : w.kern.files.names (get_security_path_by_path path) = none)
include henv hsup hc hlow

/-- An existing file up to the branches. -/
theorem open_reaches (hname : w.kern.files.names path = some i)
    (hx : (flags.creat && flags.excl) = false) :
    ∃ (header : Option (List UInt8)) (k₁ : Kernel) (fd₂ : Int) (k₂ : Kernel),
      k₁.host.Calm ∧ k₁.InUse 0 ∧ k₁.files = w.kern.files ∧ 0 < fd₂ ∧
      Kernel.Opened k₁ path flags fd₂ i k₂ ∧
      (header ≠ none ↔ HasHeader (w.kern.files.data i) ∧ w.kern.InUse 0) ∧
      open_file dev env path flags w = (match header with
        | none => open_plain dev path flags fd₂
        | some header => open_encrypted path flags header fd₂) { w with kern := k₂ } := by
  obtain ⟨header, k₁, hprobe, hfiles, hk, h0, hH⟩ := probe_finds hc hlow hname
  have hc₁ : k₁.host.Calm := by
    rw [hk.host]
    exact hc
  obtain ⟨fd₂, k₂, hopen, ho, hpos⟩ := linker_open_calm (w := { w with kern := k₁ }) hc₁
    (by rw [hfiles]; exact hname) hx
  refine ⟨header, k₁, fd₂, k₂, hc₁, h0, hfiles, hpos h0, ho, hH, ?_⟩
  rw [open_active henv hsup]
  refine (bind_ok (access_ok (w.kern.sysAccess_some (Kernel.answer_denies hc) hname))).trans
    ((bind_ok hprobe).trans ((bind_ok hopen).trans ?_))
  exact congrFun ((if_pos (hpos h0)).trans (if_neg fun hne => hne rfl)) _

/-- Where the header of the file is not seen, the name `<path>.s` is made. -/
theorem open_unfit (hname : w.kern.files.names path = some i)
    (hx : (flags.creat && flags.excl) = false) (hfit : ¬ Fits path)
    (hH : ¬ (HasHeader (w.kern.files.data i) ∧ w.kern.InUse 0)) :
    open_file dev env path flags w = .error .undefined := by
  obtain ⟨header, k₁, fd₂, k₂, hc₁, -, -, -, ho, hiff, hrun⟩ :=
    open_reaches henv hsup hc hlow hname hx
  obtain rfl : header = none := by
    by_contra hne
    exact hH (hiff.mp hne)
  have hc₂ : k₂.host.Calm := by
    rw [ho.gained.host]
    exact hc₁
  rw [hrun]
  refine bind_error ?_
  rw [convert_plain, bind_ok (calloc_calm (w := { w with kern := k₂ }) hc₂), if_pos rfl,
    if_pos hfit]
  rfl

include hpath in
/-- And where it is made and fits its buffer, the open is defined. -/
theorem open_defined (hname : w.kern.files.names path = some i)
    (hx : (flags.creat && flags.excl) = false)
    (hfit : Fits path ∨ HasHeader (w.kern.files.data i) ∧ w.kern.InUse 0) :
    open_file dev env path flags w ≠ .error .undefined := by
  obtain ⟨header, k₁, fd₂, k₂, hc₁, -, -, -, ho, hiff, hrun⟩ :=
    open_reaches henv hsup hc hlow hname hx
  rw [hrun]
  intro hstop
  cases header with
  | some header => exact absurd hstop (TeOnce.total_track path _ fd₂).not_error
  | none =>
      have hfit : Fits path := hfit.resolve_right fun h => hiff.mpr h rfl
      rcases bind_error_inv hstop with hconv | ⟨stage, w₃, -, hrest⟩
      · rcases TeOnce.convert_plain_stops (u := { w with kern := k₁ }) hpath hc₁ ho.gained
          ho.name hconv with ⟨-, hunfit⟩ | ⟨hwait, -⟩
        · exact hunfit hfit
        · cases hwait
      · match stage with
        | none => cases hrest
        | some true => exact absurd hrest (TeOnce.total_reopen path flags).not_error
        | some false => exact absurd hrest (TeOnce.total_call _).not_error

include hnone

/-- **Not under encryption**: a file that is emptied, or was empty. -/
theorem open_uncovered (hname : w.kern.files.names path = some i)
    (hx : (flags.creat && flags.excl) = false)
    (hfit : Fits path ∨ HasHeader (w.kern.files.data i) ∧ w.kern.InUse 0)
    (hempty : flags.trunc = true ∨ w.kern.files.data i = []) :
    ∃ fd w', open_file dev env path flags w = .ok (fd, w') ∧ 0 ≤ fd ∧ ¬ Covered path fd w' := by
  obtain ⟨header, k₁, fd₂, k₂, hc₁, h0, hfiles, hpos, ho, hiff, hrun⟩ :=
    open_reaches henv hsup hc hlow hname hx
  have hname₁ : k₁.files.names path = some i := by
    rw [hfiles]
    exact hname
  have hempty₁ : flags.trunc = true ∨ k₁.files.data i = [] := by
    rw [hfiles]
    exact hempty
  cases header with
  | none =>
      have hfit : Fits path := hfit.resolve_right fun h => hiff.mpr h rfl
      obtain ⟨n, w', hn, hnn, hs, hd⟩ := @open_plain_empty dev w path flags fd₂ i k₁ k₂ hc₁ hname₁
        (by rw [hfiles]; exact hnone) hfit hx ho hempty₁
      exact ⟨n, w', hrun.trans hn, hnn, not_covered_of_empty hs hd⟩
  | some header =>
      -- the header that was found has gone
      obtain ⟨-, hdata⟩ := opened_empty hname₁ hempty₁ ho
      have hc₂ : k₂.host.Calm := by
        rw [ho.gained.host]
        exact hc₁
      obtain ⟨k₃, htrack, hfiles₃, -⟩ := track_calm (w := { w with kern := k₂ }) hc₂ header
        ho.gained.find_self ho.desc ho.name
      refine ⟨fd₂, _, hrun.trans htrack, ho.gained.nonneg, not_covered_of_empty (i := i) ?_ ?_⟩
      · show k₃.files.names path = some i
        rw [hfiles₃]
        exact ho.name
      · show k₃.files.data i = []
        rw [hfiles₃]
        exact hdata

include hpath

/-- **Under encryption**: a file that is there, is not empty and is not to be emptied. -/
theorem open_covers (hname : w.kern.files.names path = some i)
    (hne : w.kern.files.data i ≠ []) (hx : (flags.creat && flags.excl) = false)
    (ht : flags.trunc = false) (h : open_file dev env path flags w = .ok (fd, w')) :
    Covered path fd w' := by
  obtain ⟨header, k₁, fd₂, k₂, hc₁, h0, hfiles, -, ho, hiff, hrun⟩ :=
    open_reaches henv hsup hc hlow hname hx
  rw [hrun] at h
  have hname₁ : k₁.files.names path = some i := by
    rw [hfiles]
    exact hname
  cases header with
  | none =>
      exact open_plain_covers hc₁ hname₁ (by rw [hfiles]; exact hnone) hpath h0
        (by rw [hfiles]; exact hne) hx ht ho h
  | some header =>
      -- the header that was found is still there
      have hc₂ : k₂.host.Calm := by
        rw [ho.gained.host]
        exact hc₁
      obtain ⟨rfl, htracked⟩ :=
        tracked_track (w := { w with kern := k₂ }) hc₂ (spilled path header) h
      have hstill : w'.kern.files = k₂.files := (TeOnce.still_track path _ fd h).1
      have hfiles' : w'.kern.files = w.kern.files :=
        (hstill.trans (ho.files.same hname₁ ht)).trans hfiles
      exact ⟨htracked, i, by rw [hfiles']; exact hname,
        by rw [hfiles']; exact (hiff.mp (Option.some_ne_none header)).1⟩

omit hpath hnone

/-- The real call refuses: there is nothing to open, or what is there is in the way. -/
theorem open_refused (hno : (w.kern.files.names path = none ∧ flags.creat = false) ∨
      (w.kern.files.names path ≠ none ∧ (flags.creat && flags.excl) = true)) :
    ∃ w', open_file dev env path flags w = .ok (-1, w') := by
  rw [open_active henv hsup, open_supported]
  rcases hno with ⟨hname, hcr⟩ | ⟨hthere, hx⟩
  · have hopen := linker_open_ok (w := w) (Kernel.sysOpen_absent hc hname hcr)
    rw [bind_ok (access_ok (w.kern.sysAccess_none hname)), if_neg (by decide),
      bind_ok (pure_ok _ _), bind_ok hopen, if_neg (by decide)]
    exact ⟨_, rfl⟩
  · obtain ⟨i, hname⟩ := Option.ne_none_iff_exists'.mp hthere
    obtain ⟨header, k₁, hprobe, hfiles, hk, -⟩ := probe_finds hc hlow hname
    have hc₁ : k₁.host.Calm := by
      rw [hk.host]
      exact hc
    have hopen := linker_open_ok (w := { w with kern := k₁ })
      (Kernel.sysOpen_excl hc₁ (by rw [hfiles]; exact hname) hx)
    rw [bind_ok (access_ok (w.kern.sysAccess_some (Kernel.answer_denies hc) hname)), if_pos rfl,
      bind_ok hprobe, bind_ok hopen, if_neg (by decide)]
    exact ⟨_, rfl⟩

/-- A new file that is opened as descriptor 0 stays empty. -/
theorem open_new_zero (hname : w.kern.files.names path = none) (hcr : flags.creat = true)
    (h0 : ¬ w.kern.InUse 0) :
    ∃ w', open_file dev env path flags w = .ok (0, w') ∧ ¬ Covered path 0 w' := by
  let k₁ := (w.kern.tock 1).setFiles (w.kern.files.create path) (Nat.le_succ _)
  have hhint : w.kern.answer.hint = 0 := hlow w.kern.tick
  have hzero : k₁.freeFd w.kern.answer.hint = 0 := by
    rw [hhint]
    exact Kernel.freeFd_zero k₁ h0
  let k₂ := (k₁.install w.kern.answer.hint w.kern.files.next flags (Nat.lt_succ_self _)).2
  have hopen : linker_open path flags w = .ok (0, { w with kern := k₂ }) := by
    apply linker_open_ok
    rw [Kernel.sysOpen_creat hc hname hcr]
    exact Prod.ext hzero rfl
  refine ⟨{ w with kern := k₂ }, ?_, not_covered_of_empty (i := w.kern.files.next)
    (FileStore.create_names_self ..) (FileStore.create_data_self ..)⟩
  rw [open_active henv hsup, open_supported, bind_ok (access_ok (w.kern.sysAccess_none hname)),
    if_neg (by decide), bind_ok (pure_ok _ _), bind_ok hopen, if_neg (by decide), pure_ok]

end Open

/-- What is to hold of an open: it is defined, and whatever descriptor it returns, it has an
    entry and the file starts with a header. -/
structure CoveredOpen (dev : Device) (env : Env) (path : Path) (flags : Flags) (w : World) :
    Prop where
  defined : open_file dev env path flags w ≠ .error .undefined
  covered : ∀ fd w', open_file dev env path flags w = .ok (fd, w') → 0 ≤ fd → Covered path fd w'

/-- A run that returns is to be judged by what it returns. -/
theorem coveredOpen_of_ok {dev : Device} {env : Env} {path : Path} {flags : Flags} {w w' : World}
    {fd : Int} (h : open_file dev env path flags w = .ok (fd, w'))
    (hcov : 0 ≤ fd → Covered path fd w') : CoveredOpen dev env path flags w where
  defined := by
    rw [h]
    exact fun herr => by cases herr
  covered := by
    intro fd' w'' h' hfd
    obtain ⟨rfl, rfl⟩ := Prod.mk.inj (Except.ok.inj (h.symm.trans h'))
    exact hcov hfd

/-- The prior states and flags for which an open is under encryption.  A new file needs
    descriptor 0 to be in use.  One that is there is not empty and not to be emptied, unless
    the real call refuses to open it; and if its header is not seen, its name fits the buffer
    for `<path>.s`. -/
def Encrypts (w : World) (path : Path) (flags : Flags) : Prop :=
  match w.kern.files.names path with
  | none => flags.creat = true → w.kern.InUse 0
  | some i => (flags.creat && flags.excl) = true ∨
      flags.trunc = false ∧ w.kern.files.data i ≠ [] ∧
        (Fits path ∨ HasHeader (w.kern.files.data i) ∧ w.kern.InUse 0)

/-- **Under encryption.**  On a calm host a supported file that is not special and has no
    sibling `<path>.s` is opened with write access.  The open is defined, and whatever
    descriptor is returned, it has an entry and the file starts with a header: exactly for the
    states and flags that are `Encrypts`. -/
theorem covered_iff {dev : Device} {env : Env} {w : World} {path : Path} {flags : Flags}
    (henv : env.Active) (hsup : dev.is_support_file_type_by_path path ≠ 0)
    (hspecial : dev.is_support_special_file_type_by_path path ≠ 1) (hc : w.kern.host.Calm)
    (hlow : w.kern.host.LowestFree) (hpath : path ≠ [])
    (hnone : w.kern.files.names (get_security_path_by_path path) = none)
    (hacc : flags.acc.writable = true) :
    CoveredOpen dev env path flags w ↔ Encrypts w path flags := by
  unfold Encrypts
  cases hname : w.kern.files.names path with
  | none =>
      constructor
      · intro hall hcr
        by_contra h0
        obtain ⟨w', hrun, hnot⟩ := open_new_zero henv hsup hc hlow hname hcr h0
        exact hnot (hall.covered 0 w' hrun (Int.le_refl 0))
      · intro hzero
        cases hcr : flags.creat with
        | false =>
            -- there is nothing to open
            obtain ⟨w', hrun⟩ := open_refused henv hsup hc hlow (.inl ⟨hname, hcr⟩)
            exact coveredOpen_of_ok hrun fun hfd => absurd hfd (by decide)
        | true =>
            obtain ⟨fd, id, w', hrun, -, hnew, -, hfiles, hlist⟩ :=
              open_new_calm hc henv hsup (hzero hcr) hname hcr hspecial hacc
            refine coveredOpen_of_ok hrun fun _ => ⟨⟨⟨fd,
              spilled path (entryHeader dev.get_process_name path), some w.kern.files.next⟩, ?_,
              rfl⟩, _, hnew.name, ?_⟩
            · rw [hlist]
              exact List.mem_append_right _ (List.mem_singleton.mpr rfl)
            · rw [hfiles, FileStore.store_data_self]
              exact TeOnce.entryHeader_hasHeader _ _
  | some i =>
      cases hx : (flags.creat && flags.excl) with
      | true =>
          -- the real call refuses
          have hthere : w.kern.files.names path ≠ none := by
            rw [hname]
            exact Option.some_ne_none i
          obtain ⟨w', hrun⟩ := open_refused henv hsup hc hlow (.inr ⟨hthere, hx⟩)
          exact iff_of_true (coveredOpen_of_ok hrun fun hfd => absurd hfd (by decide)) (.inl rfl)
      | false =>
          constructor
          · intro hall
            have hfit : Fits path ∨ HasHeader (w.kern.files.data i) ∧ w.kern.InUse 0 := by
              by_contra hno
              obtain ⟨hunfit, hH⟩ := not_or.mp hno
              exact hall.defined (open_unfit henv hsup hc hlow hname hx hunfit hH)
            refine .inr (by_contra fun hno => ?_)
            have hempty : flags.trunc = true ∨ w.kern.files.data i = [] := by
              cases ht : flags.trunc with
              | true => exact .inl rfl
              | false => exact .inr (by_contra fun hne => hno ⟨ht, hne, hfit⟩)
            obtain ⟨fd, w', hrun, hfd, hnot⟩ :=
              open_uncovered henv hsup hc hlow hnone hname hx hfit hempty
            exact hnot (hall.covered fd w' hrun hfd)
          · rintro (h | ⟨ht, hne, hfit⟩)
            · cases h
            · exact ⟨open_defined henv hsup hc hlow hpath hname hx hfit, fun fd w' hrun _ =>
                open_covers henv hsup hc hlow hpath hnone hname hne hx ht hrun⟩

/-- An encrypted file, opened for reading and writing. -/
theorem covered_header : ∃ fd w',
    open_file aDevice activeEnv Kernel.aName { acc := .rdwr } encryptedFile = .ok (fd, w') ∧
      Covered Kernel.aName fd w' := by
  obtain ⟨fd, id, w', hrun, hfd, -⟩ := @encryptedFile_open { acc := .rdwr } rfl rfl
  have hne : encryptedFile.kern.files.data 1 ≠ [] := by
    intro h
    have hlen := congrArg List.length h
    rw [encryptedFile_data, newHeader_length] at hlen
    exact absurd hlen (by decide)
  have hcond : Encrypts encryptedFile Kernel.aName { acc := .rdwr } := by
    unfold Encrypts
    exact .inr ⟨rfl, hne, .inl (by decide)⟩
  exact ⟨fd, w', hrun, ((covered_iff ⟨rfl, rfl, rfl⟩ (by decide) (by decide)
    (fun _ => ⟨rfl, rfl, rfl⟩) (fun _ => rfl) (by decide) rfl rfl).mpr hcond).covered fd w' hrun
    (Int.le_of_lt hfd)⟩

/-- An empty file, an encrypted file that is emptied, and a new file in a process without
    descriptor 0: none of them is under encryption. -/
theorem covered_misses :
    (∃ fd w', open_file aDevice activeEnv Kernel.aName { acc := .rdwr } emptyReader = .ok (fd, w') ∧
      0 ≤ fd ∧ ¬ Covered Kernel.aName fd w') ∧
    (∃ fd w', open_file aDevice activeEnv Kernel.aName { acc := .rdwr, trunc := true }
        encryptedFile =
      .ok (fd, w') ∧ 0 ≤ fd ∧ ¬ Covered Kernel.aName fd w') ∧
    (∃ w', open_file aDevice activeEnv [0x67] { acc := .rdwr, creat := true } inputClosed =
      .ok (0, w') ∧ ¬ Covered [0x67] 0 w') := by
  have henv : activeEnv.Active := ⟨rfl, rfl, rfl⟩
  refine ⟨?_, ?_, ?_⟩
  · exact open_uncovered henv (by decide) (fun _ => ⟨rfl, rfl, rfl⟩)
      (fun _ => rfl) rfl (i := 1) rfl rfl
      (.inl (by decide)) (.inr rfl)
  · exact open_uncovered henv (by decide) (fun _ => ⟨rfl, rfl, rfl⟩)
      (fun _ => rfl) rfl (i := 1) rfl rfl
      (.inl (by decide)) (.inl rfl)
  · exact open_new_zero henv (by decide) (fun _ => ⟨rfl, rfl, rfl⟩) (fun _ => rfl) rfl rfl
      fun h => ((Kernel.dropFd_inUse _).mp h).2 rfl

end TeCovered
