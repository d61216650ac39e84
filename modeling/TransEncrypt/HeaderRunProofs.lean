import TransEncrypt.OnceProofs
import TransEncrypt.SizeProofs
import TransEncrypt.WriteProofs

/-! # The header over whole runs

    A run is a sequence of `open` of one path, `read`, `write`, `lseek`, `dup` and
    `close` of any descriptors, with encryption on throughout.

    * what reads, seeks, duplicates and closes changes no file;
    * `write_guarded`: a write whose cursor is behind the header leaves the header alone;
    * `header_preserved`: so the header stays in every run whose opens do not empty the
      file and whose writes start behind the header;
    * `trunc_loses_header`: an open with `O_TRUNC` leaves an empty file. -/

namespace TeHeaderRun

open Posix Overlay TeHeader Hoare TeProgram TeDetector TeWorker TeRead TeWrite TeOpen TeOnce

/-! ## Hooks that change no file -/

theorem still_is_encrypted_by_fd (fd : Int) : Stays Still (is_encrypted_by_fd fd) := by
  refine .bind (Still.getfl fd) fun fl => ?_
  cases fl with
  | none => exact .pure _
  | some fl =>
      refine .ite (.pure _) (.bind (Still.dup fd) fun nfd => .ite ?_ (.pure _))
      exact .bind (Still.pread nfd _ _) fun _ => .bind (Still.close nfd) fun _ => .pure _

theorem still_passes_through (fd : Int) : Stays Still (passes_through fd) := by
  refine .bind (Still.query fd) fun e => ?_
  cases e with
  | some e => exact .pure _
  | none => exact .bind (still_is_encrypted_by_fd fd) fun _ => .pure _

theorem still_read_pieces (dev : Device) (fd : Int) (count : Nat) (offset : Int) :
    Stays Still (read_pieces dev fd count offset) := by
  refine .ite (.stop _) (.bind Still.alloc fun _ => .ite ?_ (.stop _))
  refine .bind (Still.pread fd _ _) fun _ => .bind (Still.read fd _) fun _ =>
    .bind (Still.pread fd _ _) fun _ => ?_
  exact .ite (.ite (.stop _) (.pure _)) (.pure _)

theorem still_read (dev : Device) (env : Env) (fd : Int) (count : Nat) :
    Stays Still (TeRead.read dev env fd count) := by
  have hraw := Still.read fd count
  refine hooked_stays hraw (.bind Still.alloc fun _ => .ite (.bind (Still.fstat fd) ?_) hraw)
  intro state
  cases state with
  | none => exact hraw
  | some state =>
      refine .ite hraw (.bind (still_passes_through fd) fun _ => .ite hraw ?_)
      refine .bind (Still.lseek fd _ _) fun _ => .ite ?_ (still_read_pieces dev fd count _)
      exact .bind (Still.lseek fd _ _) fun _ => still_read_pieces dev fd count _

theorem still_lseek (env : Env) (fd : Int) (offset : Int) (whence : Whence) :
    Stays Still (TeSize.lseek env fd offset whence) := by
  refine hooked_stays (Still.lseek fd offset whence)
    (.bind (still_passes_through fd) fun _ => .ite (Still.lseek fd offset whence) ?_)
  exact .bind (Still.lseek fd _ _) fun _ => .pure _

theorem still_dup (env : Env) (oldfd : Int) : Stays Still (TeOpen.dup env oldfd) := by
  refine hooked_stays (Still.dup oldfd)
    (.bind (still_passes_through oldfd) fun _ => .ite (Still.dup oldfd) ?_)
  refine .bind (Still.dup oldfd) fun fd => .ite (.bind (Still.query oldfd) fun info => ?_)
    (.pure _)
  cases info with
  | none => exact .pure _
  | some info => exact .bind (Still.add fd _ _) fun _ => .pure _

/-! ## Writing behind the header -/

/-- The names and the header of inode `i` are the same, and it has not become shorter than
    a header. -/
def Guarded (i : Nat) (fs fs' : FileStore) : Prop :=
  fs'.names = fs.names ∧ (FILE_HEADER_POLL_SIZE ≤ (fs.data i).length →
    FILE_HEADER_POLL_SIZE ≤ (fs'.data i).length ∧
      (fs'.data i).take FILE_HEADER_POLL_SIZE = (fs.data i).take FILE_HEADER_POLL_SIZE)

namespace Guarded

variable {i : Nat}

theorem refl (fs : FileStore) : Guarded i fs fs := ⟨rfl, fun h => ⟨h, rfl⟩⟩

theorem trans {fs₁ fs₂ fs₃ : FileStore} (h : Guarded i fs₁ fs₂) (h' : Guarded i fs₂ fs₃) :
    Guarded i fs₁ fs₃ := by
  refine ⟨h'.1.trans h.1, fun hlen => ?_⟩
  obtain ⟨hlen₂, htake₂⟩ := h.2 hlen
  obtain ⟨hlen₃, htake₃⟩ := h'.2 hlen₂
  exact ⟨hlen₃, htake₃.trans htake₂⟩

/-- Bytes laid over the file behind its header. -/
theorem store {fs : FileStore} {j off : Nat} {d : List UInt8}
    (h : j = i → FILE_HEADER_POLL_SIZE ≤ (fs.data i).length → FILE_HEADER_POLL_SIZE ≤ off) :
    Guarded i fs (fs.store j (overlay 0 (fs.data j) off d)) := by
  refine ⟨rfl, fun hlen => ?_⟩
  by_cases hj : j = i
  · subst hj
    rw [FileStore.store_data_self]
    exact ⟨Nat.le_trans hlen (le_overlay_length ..), overlay_take (h rfl hlen) hlen⟩
  · rw [FileStore.store_data_ne _ (fun heq => hj heq.symm)]
    exact ⟨hlen, rfl⟩

theorem hasHeader {fs fs' : FileStore} (h : Guarded i fs fs') (hH : HasHeader (fs.data i)) :
    HasHeader (fs'.data i) := by
  obtain ⟨hlen, htake⟩ := h.2 hH.1
  exact ⟨hlen, by rw [htake]; exact hH.2⟩

end Guarded

/-- What is written through the description `d` at `off` lands behind the header of inode
    `i`: `d` is of another file, appends, or cannot write, or `off` is behind it. -/
def Clear (i : Nat) (d : Desc) (off : Nat) : Prop :=
  d.regular = true → d.flags.acc.writable = true → d.inode = i →
    d.flags.append = true ∨ FILE_HEADER_POLL_SIZE ≤ off

/-- Where such bytes land. -/
theorem Clear.target {k : Kernel} {d : Desc} {i off : Nat} (h : Clear i d off)
    (hreg : d.regular = true) (hacc : d.flags.acc.writable = true) (hi : d.inode = i)
    (hlen : FILE_HEADER_POLL_SIZE ≤ (k.files.data i).length) :
    FILE_HEADER_POLL_SIZE ≤ k.target d off := by
  rw [Kernel.target]
  by_cases happ : d.flags.append = true
  · rw [if_pos happ, hi]
    exact hlen
  · rw [if_neg happ]
    exact (h hreg hacc hi).resolve_left happ

/-- The descriptor `fd` has the description `id`, which is `d`. -/
def Holding (fd : Int) (id : Nat) (d : Desc) (w : World) : Prop :=
  w.kern.find fd = some id ∧ w.kern.desc id = d

section Calls

variable {w w' : World} {fd fd' r off : Int} {i id : Nat} {d : Desc} {bs : List UInt8}
  (hold : Holding fd id d w)
include hold

theorem pwrite_guarded (h : Clear i d off.toNat)
    (hrun : linker_pwrite fd bs off w = .ok (r, w')) :
    Guarded i w.kern.files w'.kern.files := by
  obtain ⟨-, rfl⟩ := kernelCall_inv hrun
  obtain ⟨hfind, rfl⟩ := hold
  simp only [Kernel.sysPwrite, hfind]
  split
  · exact .refl _
  · rename_i hcond
    simp only [Bool.or_eq_true, Bool.not_eq_true', not_or, Bool.not_eq_false] at hcond
    obtain ⟨⟨⟨-, hacc⟩, hreg⟩, -⟩ := hcond
    exact .store fun hi hlen => h.target hreg hacc hi hlen

theorem linker_write_guarded (h : Clear i d d.pos)
    (hrun : linker_write fd bs w = .ok (r, w')) : Guarded i w.kern.files w'.kern.files := by
  obtain ⟨-, rfl⟩ := kernelCall_inv hrun
  obtain ⟨hfind, rfl⟩ := hold
  simp only [Kernel.sysWrite, hfind]
  split
  · exact .refl _
  · rename_i hcond
    split
    · exact .refl _
    · split
      · rename_i hreg
        simp only [Bool.or_eq_true, Bool.not_eq_true', not_or, Bool.not_eq_false] at hcond
        exact .store fun hi hlen => h.target hreg hcond.2 hi hlen
      · exact .refl _

theorem holding_pread {n : Nat} {p : Int × List UInt8}
    (hrun : linker_pread fd' n off w = .ok (p, w')) : Holding fd id d w' := by
  obtain ⟨-, rfl⟩ := kernelCall_inv hrun
  show _ ∧ _
  unfold Kernel.sysPread
  dsimp only
  repeat' split
  all_goals exact hold

theorem holding_pwrite (hrun : linker_pwrite fd' bs off w = .ok (r, w')) :
    Holding fd id d w' := by
  obtain ⟨-, rfl⟩ := kernelCall_inv hrun
  show _ ∧ _
  unfold Kernel.sysPwrite
  dsimp only
  repeat' split
  all_goals exact hold

theorem holding_close (hne : fd ≠ fd') (hrun : linker_close fd' w = .ok (r, w')) :
    Holding fd id d w' := by
  obtain ⟨-, rfl⟩ := kernelCall_inv hrun
  show _ ∧ _
  unfold Kernel.sysClose
  split
  · exact hold
  · exact ⟨(Kernel.dropFd_find_ne _ hne).trans hold.1, hold.2⟩

/-- A descriptor that is opened is another one. -/
theorem holding_open {p : Path} {f : Flags} (hrun : linker_open p f w = .ok (r, w')) :
    Holding fd id d w' ∧ fd ≠ r := by
  rcases linker_open_inv hrun with ⟨rfl, rfl⟩ | ⟨j, k', rfl, hopen⟩
  · refine ⟨hold, fun heq => ?_⟩
    obtain ⟨e, he, hfd⟩ := List.mem_map.mp (w.kern.find_inUse hold.1)
    have := w.kern.fds_nonneg e he
    omega
  · have hne : fd ≠ r := fun heq => hopen.gained.fresh (heq ▸ w.kern.find_inUse hold.1)
    exact ⟨⟨(hopen.gained.find_ne hne).trans hold.1,
      (hopen.gained.desc id (w.kern.find_lt hold.1)).trans hold.2⟩, hne⟩

end Calls

/-- Asking for the cursor fails, or gives it; nothing moves. -/
theorem sysLseek_cursor (k : Kernel) (fd : Int) : k.sysLseek fd 0 .cur = (-1, k.tock 1) ∨
    ∃ id, k.find fd = some id ∧ k.sysLseek fd 0 .cur = (((k.desc id).pos : Int), k.tock 1) := by
  cases hfind : k.find fd with
  | none => exact .inl (by simp only [Kernel.sysLseek, hfind])
  | some id =>
      simp only [Kernel.sysLseek, hfind]
      split
      · exact .inl rfl
      · refine .inr ⟨id, rfl, ?_⟩
        show (((k.desc id).pos : Int) + 0, (k.tock 1).setPos id ((k.desc id).pos + 0 : Int).toNat)
          = _
        rw [Int.add_zero, Int.toNat_natCast]
        exact congrArg (fun j => (((k.desc id).pos : Int), j)) ((k.tock 1).setPos_same id)

/-- From the table lookup on. -/
theorem write_encrypted_guarded {dev : Device} {w w' : World} {fd : Int} {b : List UInt8}
    {offset r : Int} {i : Nat}
    (hoff : 0 ≤ offset → ∃ id d, Holding fd id d w ∧ (d.pos : Int) = offset ∧
      Clear i d d.pos)
    (h : write_encrypted dev fd b offset w = .ok (r, w')) :
    Guarded i w.kern.files w'.kern.files ∧ w'.kern.host = w.kern.host := by
  obtain ⟨e, w₁, h1, h2⟩ := bind_inv h
  obtain ⟨rfl, rfl⟩ := Prod.mk.inj (Except.ok.inj h1)
  cases he : w.file_info_list.find? (fun e => e.file_descriptor = fd) with
  | none =>
      rw [he] at h2
      cases h2
  | some fi =>
      rw [he] at h2
      obtain ⟨rfd, w₂, h3, h4⟩ := bind_inv h2
      obtain ⟨hfiles₂, hhost₂⟩ := Still.opens fi.file_path rfl rfl h3
      by_cases hneg : offset < 0
      · rw [if_pos hneg] at h4
        cases h4
      rw [if_neg hneg] at h4
      obtain ⟨id, d, hold, hpos, hclear⟩ := hoff (by omega)
      obtain ⟨hold₂, hne⟩ := holding_open hold h3
      obtain ⟨rc1, w₃, h5, h6⟩ := bind_inv h4
      obtain ⟨hfiles₃, hhost₃⟩ := Still.pread _ _ _ h5
      have hold₃ := holding_pread hold₂ h5
      obtain ⟨n, w₄, h7, h8⟩ := bind_inv h6
      -- the front part goes to the block boundary, which is behind the header too
      have hback : Clear i d (((offset.toNat - offset.toNat % 16 : Nat) : Int)).toNat := by
        intro hreg hacc hi
        refine (hclear hreg hacc hi).imp_right fun hle => ?_
        have hle' : 4096 ≤ d.pos := hle
        show 4096 ≤ _
        omega
      have hg₄ := pwrite_guarded hold₃ hback h7
      have hhost₄ := (Frames.pwrite _ _ _ h7).1.host
      obtain ⟨c, w₅, h9, h10⟩ := bind_inv h8
      obtain ⟨hfiles₅, hhost₅⟩ := Still.close _ h9
      have hold₅ := holding_close (holding_pwrite hold₃ h7) hne h9
      have hg₆ := linker_write_guarded hold₅ hclear h10
      have hhost₆ := (Frames.write _ _ h10).1.host
      rw [hfiles₅] at hg₆
      rw [hfiles₃, hfiles₂] at hg₄
      exact ⟨hg₄.trans hg₆,
        hhost₆.trans (hhost₅.trans (hhost₄.trans (hhost₃.trans hhost₂)))⟩

/-- **A write behind the header** leaves the header alone, whatever the host does. -/
theorem write_guarded {dev : Device} {env : Env} {w w' : World} {fd : Int} {b : List UInt8}
    {r : Int} {i : Nat} (henv : env.Active)
    (hclear : b ≠ [] → ∀ id, w.kern.find fd = some id →
      Clear i (w.kern.desc id) (w.kern.desc id).pos)
    (h : write dev env fd b w = .ok (r, w')) :
    Guarded i w.kern.files w'.kern.files ∧ w'.kern.host = w.kern.host := by
  rw [write, hooked_active henv] at h
  by_cases hb : b = []
  · subst hb
    rw [if_neg (by decide)] at h
    obtain ⟨-, rfl⟩ := kernelCall_inv h
    refine ⟨?_, (w.kern.kept_write fd []).host⟩
    show Guarded i _ (w.kern.sysWrite fd []).2.files
    rw [Kernel.sysWrite_nil_files]
    exact .refl _
  · rw [if_pos (List.length_pos_iff.mpr hb)] at h
    obtain ⟨offset, w₁, h1, h2⟩ := bind_inv h
    obtain ⟨got, w₂, h3, h4⟩ := bind_inv h2
    obtain ⟨hfiles, hhost⟩ := trans_of Still (Still.lseek _ _ _ h1) (Still.alloc h3)
    obtain ⟨-, rfl⟩ := kernelCall_inv h3
    cases got with
    | false =>
        rw [if_neg (by decide)] at h4
        obtain ⟨-, rfl⟩ := pure_inv h4
        rw [hfiles]
        exact ⟨.refl _, hhost⟩
    | true =>
        rw [if_pos rfl] at h4
        have hoff : 0 ≤ offset → ∃ id d, Holding fd id d { w₁ with kern := w₁.kern.tock 1 } ∧
            (d.pos : Int) = offset ∧ Clear i d d.pos := by
          intro hpos
          obtain ⟨rfl, rfl⟩ := kernelCall_inv h1
          rcases sysLseek_cursor w.kern fd with hfail | ⟨id, hfind, hcur⟩
          · rw [hfail] at hpos
            exact absurd (show (0 : Int) ≤ -1 from hpos) (by decide)
          · rw [hcur]
            exact ⟨id, w.kern.desc id, ⟨hfind, rfl⟩, rfl, hclear hb id hfind⟩
        obtain ⟨hg, hhost'⟩ := write_encrypted_guarded hoff h4
        rw [hfiles] at hg
        exact ⟨hg, hhost'.trans hhost⟩

/-! ## Runs -/

/-- The calls of a run on one path, and on any descriptors. -/
inductive Call where
  | openFile (flags : Flags)
  | read (fd : Int) (count : Nat)
  | write (fd : Int) (buf : List UInt8)
  | lseek (fd : Int) (offset : Int) (whence : Whence)
  | dup (oldfd : Int)
  | close (fd : Int)

/-- A call has led from the first state to the second. -/
def Call.Runs (dev : Device) (env : Env) (path : Path) (w w' : World) : Call → Prop
  | .openFile flags => ∃ r, open_file dev env path flags w = .ok (r, w')
  | .read fd count => ∃ r, TeRead.read dev env fd count w = .ok (r, w')
  | .write fd buf => ∃ r, TeWrite.write dev env fd buf w = .ok (r, w')
  | .lseek fd offset whence => ∃ r, TeSize.lseek env fd offset whence w = .ok (r, w')
  | .dup oldfd => ∃ r, TeOpen.dup env oldfd w = .ok (r, w')
  | .close fd => ∃ r, TeOpen.close env fd w = .ok (r, w')

/-- The condition on a call: an open does not empty the file (and does not convert one
    that is too large when descriptor 0 is free and the probe fails); a write through a
    descriptor of this file that does not append starts behind the header. -/
def Mild (dev : Device) (path : Path) (w : World) : Call → Prop
  | .openFile flags => (flags.creat && flags.excl) = true ∨ flags.trunc = false ∧
      (dev.is_support_file_type_by_path path ≠ 0 → ¬ w.kern.InUse 0 →
        w.kern.files.content (get_security_path_by_path path) = none →
        ∀ C, w.kern.files.content path = some C → C.length + 4096 ≤ 2147483647)
  | .write fd buf => buf ≠ [] → ∀ id i, w.kern.find fd = some id →
      w.kern.files.names path = some i → Clear i (w.kern.desc id) (w.kern.desc id).pos
  | _ => True

/-- The states that such calls lead to. -/
inductive Reachable (dev : Device) (env : Env) (path : Path) (ok : World → Call → Prop)
    (w₀ : World) : World → Prop where
  | start : Reachable dev env path ok w₀ w₀
  | step {w w' : World} {c : Call} : Reachable dev env path ok w₀ w → ok w c →
      c.Runs dev env path w w' → Reachable dev env path ok w₀ w'

/-- The file is there and starts with a header. -/
def Headed (path : Path) (fs : FileStore) : Prop :=
  ∃ C, fs.content path = some C ∧ HasHeader C

section Runs

variable {dev : Device} {env : Env} {path : Path} (henv : env.Active) (hpath : path ≠ [])
include henv hpath

/-- **One open** that is not to empty the file leaves a header in front of it. -/
theorem headed_open {w w' : World} {flags : Flags} {r : Int} (hc : w.kern.host.Calm)
    (h : Headed path w.kern.files) (hmild : Mild dev path w (.openFile flags))
    (hrun : open_file dev env path flags w = .ok (r, w')) : Headed path w'.kern.files := by
  obtain ⟨C, hC, hH⟩ := h
  obtain ⟨i, hname, hdata⟩ := (FileStore.content_eq_some _).mp hC
  have hflags : flags.trunc = false ∨ (flags.creat && flags.excl) = true :=
    hmild.symm.imp_left And.left
  by_cases hsup : dev.is_support_file_type_by_path path = 0
  · -- the call is passed on
    rw [open_file, hooked_active henv, if_pos hsup] at hrun
    rcases linker_open_inv hrun with ⟨-, rfl⟩ | ⟨j, k', rfl, ho⟩
    · exact ⟨C, hC, hH⟩
    · have hfiles := ho.files
      rcases hflags with ht | hx
      · rw [show k'.files = w.kern.files from hfiles.same hname ht]
        exact ⟨C, hC, hH⟩
      · generalize k'.files = fs' at hfiles ⊢
        cases hfiles with
        | existing _ hx' => cases hx.symm.trans hx'
        | emptied _ hx' => cases hx.symm.trans hx'
        | created hn => cases hname.symm.trans hn
  · have hout := open_existing henv hsup hc hpath hname hdata hflags (fun hx hno hs => by
      rcases hmild with hx' | ⟨-, hsize⟩
      · cases hx.symm.trans hx'
      · exact hsize hsup (fun h0 => hno ⟨hH, h0⟩) ((FileStore.content_eq_none _).mpr hs) C hC)
      hrun
    cases hout with
    | same hfiles =>
        rw [hfiles]
        exact ⟨C, hC, hH⟩
    | converted X _ _ _ _ hX _ honce => exact ⟨X, hX, honce.header⟩

/-- **One call** of a run. -/
theorem headed_step {w w' : World} {c : Call} (hc : w.kern.host.Calm)
    (h : Headed path w.kern.files) (hmild : Mild dev path w c)
    (hrun : c.Runs dev env path w w') :
    w'.kern.host.Calm ∧ Headed path w'.kern.files := by
  have hstill : Still w w' → w'.kern.host.Calm ∧ Headed path w'.kern.files := by
    rintro ⟨hfiles, hhost⟩
    rw [hfiles, hhost]
    exact ⟨hc, h⟩
  cases c with
  | openFile flags =>
      obtain ⟨r, hr⟩ := hrun
      refine ⟨?_, headed_open henv hpath hc h hmild hr⟩
      rw [(open_inv hr).kept.host]
      exact hc
  | read fd count =>
      obtain ⟨r, hr⟩ := hrun
      exact hstill (still_read dev env fd count hr)
  | write fd buf =>
      obtain ⟨r, hr⟩ := hrun
      obtain ⟨C, hC, hH⟩ := h
      obtain ⟨i, hname, hdata⟩ := (FileStore.content_eq_some _).mp hC
      obtain ⟨hg, hhost⟩ := write_guarded (i := i) henv
        (fun hb id hfind => hmild hb id i hfind hname) hr
      refine ⟨by rw [hhost]; exact hc, _, FileStore.content_of_names _ ?_, hg.hasHeader ?_⟩
      · rw [hg.1]
        exact hname
      · rw [hdata]
        exact hH
  | lseek fd offset whence =>
      obtain ⟨r, hr⟩ := hrun
      exact hstill (still_lseek env fd offset whence hr)
  | dup oldfd =>
      obtain ⟨r, hr⟩ := hrun
      exact hstill (still_dup env oldfd hr)
  | close fd =>
      obtain ⟨r, hr⟩ := hrun
      exact hstill (still_close env fd hr)

end Runs

/-- **The header over every run** of such calls: it stays, and what a write puts into the
    file lies behind it. -/
theorem header_preserved {dev : Device} {env : Env} {path : Path} {w₀ w : World}
    (henv : env.Active) (hpath : path ≠ []) (hc : w₀.kern.host.Calm)
    (h : Headed path w₀.kern.files) (hrun : Reachable dev env path (Mild dev path) w₀ w) :
    Headed path w.kern.files ∧
    ∀ fd buf w', Mild dev path w (.write fd buf) →
      (Call.write fd buf).Runs dev env path w w' →
      (w'.kern.files.content path).map (List.take FILE_HEADER_POLL_SIZE) =
        (w.kern.files.content path).map (List.take FILE_HEADER_POLL_SIZE) := by
  have hinv : w.kern.host.Calm ∧ Headed path w.kern.files := by
    induction hrun with
    | start => exact ⟨hc, h⟩
    | step _ hmild hr ih => exact headed_step henv hpath ih.1 ih.2 hmild hr
  refine ⟨hinv.2, fun fd buf w' hmild hr => ?_⟩
  obtain ⟨r, hr⟩ := hr
  obtain ⟨C, hC, hH⟩ := hinv.2
  obtain ⟨i, hname, hdata⟩ := (FileStore.content_eq_some _).mp hC
  obtain ⟨hg, -⟩ := write_guarded (i := i) henv
    (fun hb id hfind => hmild hb id i hfind hname) hr
  rw [FileStore.content_of_names _ hname,
    FileStore.content_of_names _ (show w'.kern.files.names path = some i by
      rw [hg.1]; exact hname)]
  exact congrArg some (hg.2 (by rw [hdata]; exact hH.1)).2

theorem encryptedFile_headed : Headed Kernel.aName encryptedFile.kern.files :=
  ⟨_, FileStore.content_of_names _ (i := 1) rfl, encryptedFile_hasHeader⟩

/-- An open without `O_TRUNC`, and a write of a block and a bit. -/
theorem header_preserved_twenty : ∃ fd w w',
    Reachable aDevice activeEnv Kernel.aName (Mild aDevice Kernel.aName) encryptedFile w' ∧
    write aDevice activeEnv fd (List.replicate 20 7) w = .ok (20, w') ∧
    w'.kern.files.content Kernel.aName
      = some (newHeader none ++ stored aDevice.aes (List.replicate 20 7)) ∧
    Headed Kernel.aName w'.kern.files ∧
    (w'.kern.files.content Kernel.aName).map (List.take FILE_HEADER_POLL_SIZE)
      = (w.kern.files.content Kernel.aName).map (List.take FILE_HEADER_POLL_SIZE) := by
  have henv : activeEnv.Active := ⟨rfl, rfl, rfl⟩
  have hc₀ : encryptedFile.kern.host.Calm := fun _ => ⟨rfl, rfl, rfl⟩
  obtain ⟨fd, id, w, hopen, -, hnew, hc, hfiles, hlist⟩ :=
    @encryptedFile_open { acc := .rdwr } rfl rfl
  have hquery : w.file_info_list.find? (fun e => e.file_descriptor = fd)
      = some ⟨fd, Kernel.aName, some 1⟩ := by
    rw [hlist]
    exact List.find?_cons_of_pos (by simp)
  have hw : Writes w fd id ⟨fd, Kernel.aName, some 1⟩ :=
    ⟨hnew.find, by rw [hnew.desc], by rw [hnew.desc]; rfl, by rw [hnew.desc], hquery,
      by rw [hnew.desc]; exact hnew.name⟩
  have hdata : w.kern.files.data (w.kern.desc id).inode
      = newHeader none ++ stored aDevice.aes [] := by
    rw [hnew.desc, hfiles, encryptedFile_data, stored_short _ (by decide), List.append_nil]
  obtain ⟨w', hwrite, hiff⟩ := write_random henv hc hw (newHeader_length none) hdata
    (p := 0) (by rw [hnew.desc]; rfl) (b := List.replicate 20 7) (by decide)
  have hreach : Reachable aDevice activeEnv Kernel.aName (Mild aDevice Kernel.aName)
      encryptedFile w :=
    .step (c := .openFile { acc := .rdwr }) .start
      (.inr ⟨rfl, fun _ h0 => absurd (by decide) h0⟩) ⟨fd, hopen⟩
  have hmild : Mild aDevice Kernel.aName w (.write fd (List.replicate 20 7)) := by
    intro _ id' i hfind _ _ _ _
    obtain rfl : id = id' := Option.some.inj (hnew.find.symm.trans hfind)
    rw [hnew.desc]
    exact .inr (Nat.le_refl _)
  have hreach' := Reachable.step (c := .write fd (List.replicate 20 7)) hreach hmild ⟨_, hwrite⟩
  have hpath : Kernel.aName ≠ [] := by decide
  refine ⟨fd, w, w', hreach', hwrite, ?_,
    (header_preserved henv hpath hc₀ encryptedFile_headed hreach').1,
    (header_preserved henv hpath hc₀ encryptedFile_headed hreach).2 fd _ w' hmild ⟨_, hwrite⟩⟩
  have hbytes := hiff.mpr (TeStored.writeFits_of_clean (by decide))
  rw [hnew.desc] at hbytes
  have hname : w'.kern.files.names Kernel.aName = some 1 := by
    rw [(write_guarded (i := 1) henv
      (fun hb id' hfind => hmild hb id' 1 hfind hnew.name) hwrite).1.1]
    exact hnew.name
  rw [FileStore.content_of_names _ hname, hbytes]
  rfl

/-- An open with `O_TRUNC` empties the file, and its header is not written back. -/
theorem trunc_loses_header : Headed Kernel.aName encryptedFile.kern.files ∧
    ∃ w, Reachable aDevice activeEnv Kernel.aName (fun _ _ => True) encryptedFile w ∧
      w.kern.files.content Kernel.aName = some [] ∧ ¬ Headed Kernel.aName w.kern.files := by
  have hc : encryptedFile.kern.host.Calm := fun _ => ⟨rfl, rfl, rfl⟩
  obtain ⟨fd, id, w, hrun, -, hnew, -, hfiles, -⟩ :=
    @open_encrypted_calm encryptedFile hc Kernel.aName 1 aDevice activeEnv
      { acc := .rdwr, trunc := true } ⟨rfl, rfl, rfl⟩ (by decide) (by decide) rfl
      encryptedFile_hasHeader rfl
  have hempty : w.kern.files.content Kernel.aName = some [] := by
    rw [FileStore.content_of_names _ hnew.name]
    generalize w.kern.files = fs' at hfiles ⊢
    cases hfiles with
    | existing _ _ ht => cases ht
    | emptied => exact congrArg some (FileStore.store_data_self ..)
    | created hn => cases hn
  refine ⟨encryptedFile_headed, w, .step (c := .openFile { acc := .rdwr, trunc := true }) .start
    trivial ⟨fd, hrun⟩, hempty, ?_⟩
  rintro ⟨C, hC, hlen, -⟩
  rw [hempty] at hC
  rw [← Option.some.inj hC] at hlen
  exact absurd hlen (by decide)

end TeHeaderRun
