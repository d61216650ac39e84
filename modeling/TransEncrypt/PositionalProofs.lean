import TransEncrypt.ShortReadProofs
import TransEncrypt.WriteProofs

/-! # Positional access

    `pread` and `pwrite` hand every call on to the real one, with the offset as it is: they
    count from the start of the header and move stored bytes, where `lseek` and then `read`
    or `write` count from behind it and decrypt or encrypt.

    * `pread`, `pwrite`: the program;
    * `pread_agrees_iff`: when the bytes that are read are those of a seek and a read;
    * `pwrite_agrees_iff`: when the file that is left is that of a seek and a write;
    * `positional_agrees_iff`: both, in one statement. -/

namespace TePositional

open Posix Overlay TeHeader TeStored Hoare TeProgram TeDetector TeSize TeRead TeWrite TeTorn Plain

/-! ## The hooks -/

def pread (env : Env) (fd : Int) (count : Nat) (offset : Int) : Sys (Int × List UInt8) :=
  hooked env (-1, []) (linker_pread fd count offset) (linker_pread fd count offset)

def pwrite (env : Env) (fd : Int) (buf : List UInt8) (offset : Int) : Sys Int :=
  hooked env (-1) (linker_pwrite fd buf offset) (linker_pwrite fd buf offset)

/-- A positional read returns what a seek and a read return, and moves no cursor. -/
def PreadAgrees (dev : Device) (env : Env) (fd : Int) (n o : Nat) (w : World) : Prop :=
  ∃ r w₁ s w₂ w₃, pread env fd n o w = .ok (r, w₁) ∧ w₁.kern.desc = w.kern.desc ∧
    lseek env fd o .set w = .ok (s, w₂) ∧ TeRead.read dev env fd n w₂ = .ok (r, w₃)

/-- A positional write leaves in the file `i` what a seek and a write leave there, and moves
    no cursor. -/
def PwriteAgrees (dev : Device) (env : Env) (fd : Int) (b : List UInt8) (o : Nat) (i : Nat)
    (w : World) : Prop :=
  ∃ r w₁ s w₂ r' w₃, pwrite env fd b o w = .ok (r, w₁) ∧ w₁.kern.desc = w.kern.desc ∧
    lseek env fd o .set w = .ok (s, w₂) ∧ write dev env fd b w₂ = .ok (r', w₃) ∧
    w₁.kern.files.data i = w₃.kern.files.data i

/-! ## When they agree -/

/-- Nothing is read, or all of it lies in the text and the raw bytes 4096 before it happen to
    be the text. -/
def SameSlice (D P : List UInt8) (o n : Nat) : Prop :=
  n = 0 ∨ D.length ≤ o ∨ o + n ≤ P.length ∧ slice D o n = slice P o n

theorem slices_agree_iff {D P : List UInt8} (hlt : P.length < D.length) (o n : Nat) :
    slice D o n = slice P o n ↔ SameSlice D P o n := by
  constructor
  · intro h
    have hlen := congrArg List.length h
    rw [slice_length, slice_length] at hlen
    by_cases hn : n = 0
    · exact .inl hn
    · by_cases ho : D.length ≤ o
      · exact .inr (.inl ho)
      · exact .inr (.inr ⟨by omega, h⟩)
  · rintro (rfl | ho | ⟨-, h⟩)
    · rw [slice_zero, slice_zero]
    · rw [slice_past ho, slice_past (by omega)]
    · exact h

/-- The bytes that a write of `b` at the plain offset `o` encrypts and stores, and where. -/
structure Stores where
  bytes : List UInt8
  start : Nat
  deriving DecidableEq, Repr

def storesOf (aes : AES) (files : FileStore) (path : Path) (o : Nat) (b : List UInt8) : Stores where
  bytes := buffer aes
    (recorded files path (FILE_HEADER_POLL_SIZE + o)) (FILE_HEADER_POLL_SIZE + o) b
  start := FILE_HEADER_POLL_SIZE + o / 16 * 16

theorem storesOf_length (aes : AES) (files : FileStore) (path : Path) (o : Nat) (b : List UInt8) :
    (storesOf aes files path o b).bytes.length = o % 16 + b.length := by
  have h := buffer_length aes (recorded_length files path (FILE_HEADER_POLL_SIZE + o)) b
  rw [header_mod] at h
  exact h

/-- A write of `b` at the raw offset `o` of `D` leaves what the encrypted bytes leave: at the
    end of the file they are `b` itself; elsewhere the write lies in the text, and each of the
    two puts what the other leaves. -/
def SameOverlay (aes : AES) (append : Bool) (D P b : List UInt8) (o : Nat) (x : Stores) : Prop :=
  if append then o % 16 = 0 ∧ stored aes b = b
  else o + b.length ≤ P.length ∧ Meets D o b x.start x.bytes ∧ Meets D x.start x.bytes o b

section Overlays

variable (aes : AES) (files : FileStore) (path : Path) {H P b : List UInt8}

private theorem overlays_append_iff (D : List UInt8) (o : Nat) :
    overlay 0 D D.length b = torn aes true D (recorded files path (FILE_HEADER_POLL_SIZE + o))
        (FILE_HEADER_POLL_SIZE + o) b (o % 16) b.length ↔
      o % 16 = 0 ∧ stored aes b = b := by
  let off := FILE_HEADER_POLL_SIZE + o
  have hmod : off % 16 = o % 16 := header_mod o
  have hr : (recorded files path off).length ≤ off % 16 := recorded_length files path off
  -- at a block boundary nothing is fetched
  have hbuf : off % 16 = 0 → buffer aes (recorded files path off) off b = stored aes b := by
    intro hzero
    have hnil : recorded files path off = [] := List.eq_nil_of_length_eq_zero (by omega)
    rw [buffer, front, hnil, hzero]
    rfl
  rw [overlay_end, torn_append, List.append_cancel_left_eq, ← hmod, buffer_split aes hr b]
  constructor
  · intro h
    have hcount : b.length = o % 16 + b.length :=
      (congrArg List.length h).trans (storesOf_length aes files path o b)
    have hzero : off % 16 = 0 := by omega
    exact ⟨hzero, (hbuf hzero).symm.trans h.symm⟩
  · rintro ⟨hzero, h⟩
    exact h.symm.trans (hbuf hzero).symm

variable (hH : H.length = FILE_HEADER_POLL_SIZE) (hb : b ≠ [])
include hH hb

private theorem overlays_place_iff (o : Nat) :
    let D := H ++ stored aes P
    let x := storesOf aes files path o b
    overlay 0 D o b = torn aes false D (recorded files path (FILE_HEADER_POLL_SIZE + o))
        (FILE_HEADER_POLL_SIZE + o) b (o % 16) b.length ↔
      o + b.length ≤ P.length ∧ Meets D o b x.start x.bytes ∧ Meets D x.start x.bytes o b := by
  intro D x
  let off := FILE_HEADER_POLL_SIZE + o
  have hH' : H.length = 4096 := hH
  have hD : D.length = 4096 + P.length := by
    rw [show D.length = _ from List.length_append, stored_length, hH']
  have hmod : off % 16 = o % 16 := header_mod o
  have hx : x.bytes.length = o % 16 + b.length := storesOf_length aes files path o b
  have hstart : x.start = 4096 + o / 16 * 16 := rfl
  have hpos : 0 < b.length := List.length_pos_iff.mpr hb
  have hxne : x.bytes ≠ [] := List.ne_nil_of_length_pos (by omega)
  have hplace := torn_in_place aes D (recorded_length files path off) b
  rw [hmod, show off / 16 * 16 = x.start from by
    show (4096 + o) / 16 * 16 = 4096 + o / 16 * 16
    omega] at hplace
  rw [show torn aes false D (recorded files path (FILE_HEADER_POLL_SIZE + o))
    (FILE_HEADER_POLL_SIZE + o) b (o % 16) b.length = overlay 0 D x.start x.bytes from hplace]
  constructor
  · intro h
    have hinside : o + b.length ≤ P.length := by
      -- the encrypted bytes end 4096 behind the others
      have hlen := congrArg List.length h
      rw [overlay_length hb, overlay_length hxne] at hlen
      omega
    exact ⟨hinside, (overlay_eq_overlay_iff 0 (by omega) (by omega)).mp h⟩
  · rintro ⟨hinside, h⟩
    exact (overlay_eq_overlay_iff 0 (by omega) (by omega)).mpr h

/-- The two ways of writing, compared on the bytes. -/
theorem overlays_agree_iff (append : Bool) (o : Nat) :
    let D := H ++ stored aes P
    overlay 0 D (if append then D.length else o) b =
        torn aes append D (recorded files path (FILE_HEADER_POLL_SIZE + o))
          (FILE_HEADER_POLL_SIZE + o) b (o % 16) b.length ↔
      SameOverlay aes append D P b o (storesOf aes files path o b) := by
  intro D
  cases append with
  | true => exact overlays_append_iff aes files path D o
  | false => exact overlays_place_iff aes files path hH hb o

end Overlays

/-! ## The two ways of reading -/

/-- A refused transfer carries out nothing. -/
theorem given_refused (a : Answer) (n : Nat) : given (allowed false a) n = 0 :=
  if_pos (Bool.or_true a.fails)

section Access

variable {dev : Device} {env : Env} {w : World} {fd : Int} {id : Nat} {H P : List UInt8}
  (henv : env.Active) (hc : w.kern.host.Calm) (hlow : w.kern.host.LowestFree)
  (hfind : w.kern.find fd = some id) (hreg : (w.kern.desc id).regular = true)
  (hH : RightsHeader H) (hdata : w.kern.files.data (w.kern.desc id).inode = H ++ stored dev.aes P)
  (hcounts : CountsEncrypted w fd)

/-- The state from which the second call of the pair starts, after `t` real calls. -/
def sought (w : World) (id o t : Nat) : World :=
  { w with kern := (w.kern.tock t).setPos id (FILE_HEADER_POLL_SIZE + o) }

theorem sought_desc (w : World) (id o t : Nat) :
    (sought w id o t).kern.desc id = { w.kern.desc id with pos := FILE_HEADER_POLL_SIZE + o } :=
  Kernel.setPos_desc_self ..

section Seek

include henv hc hlow hfind hreg hcounts

/-- The seek goes behind the header, wherever the cursor was. -/
theorem lseek_set (o : Nat) : ∃ t, lseek env fd o .set w = .ok ((o : Int), sought w id o t) := by
  obtain ⟨n, hpass⟩ := passes_through_counts hc hlow hcounts
  refine ⟨n + 1, ?_⟩
  have hseek : linker_lseek fd ((o : Int) + (FILE_HEADER_POLL_SIZE : Nat)) .set
      { w with kern := w.kern.tock n } =
      .ok ((o : Int) + (FILE_HEADER_POLL_SIZE : Nat), sought w id o (n + 1)) := by
    apply linker_lseek_ok
    have hneg : ¬ (w.kern.tock n).seekBase ((w.kern.tock n).desc id) .set
        + ((o : Int) + (FILE_HEADER_POLL_SIZE : Nat)) < 0 := by
      show ¬ (0 : Int) + ((o : Int) + ((4096 : Nat) : Int)) < 0
      omega
    rw [Kernel.sysLseek_calm (k := w.kern.tock n) hc hfind hreg, if_neg hneg]
    have hto : (0 : Int) + ((o : Int) + ((4096 : Nat) : Int)) = ((4096 + o : Nat) : Int) := by omega
    show ((0 : Int) + ((o : Int) + ((4096 : Nat) : Int)),
      ((w.kern.tock n).tock 1).setPos id ((0 : Int) + ((o : Int) + ((4096 : Nat) : Int))).toNat) = _
    rw [hto, Int.toNat_natCast]
    refine Prod.ext ?_ rfl
    show ((4096 + o : Nat) : Int) = (o : Int) + ((4096 : Nat) : Int)
    omega
  rw [lseek, seek_by, hooked_active henv, bind_ok hpass, if_neg (by decide), if_pos rfl,
    bind_ok hseek, pure_ok, Int.add_sub_cancel]

end Seek

/-- What the positional read returns: raw bytes from the start of the header on. -/
theorem pread_raw (henv : env.Active) (hc : w.kern.host.Calm) (hfind : w.kern.find fd = some id)
    (hreg : (w.kern.desc id).regular = true) (n o : Nat) :
    let D := w.kern.files.data (w.kern.desc id).inode
    pread env fd n o w = .ok (if (w.kern.desc id).flags.acc.readable then
        (((slice D o n).length : Int), slice D o n) else (-1, []),
        { w with kern := w.kern.tock 1 }) := by
  intro D
  rw [pread, hooked_active henv]
  by_cases hacc : (w.kern.desc id).flags.acc.readable = true
  · rw [if_pos hacc]
    apply linker_pread_ok
    exact Kernel.sysPread_calm hc hfind hreg hacc n (Int.natCast_nonneg o)
  · rw [if_neg hacc]
    apply linker_pread_ok
    have h := TeShortRead.sysPread_outcome hfind hreg rfl n o
    rw [Bool.eq_false_iff.mpr hacc] at h
    refine h.trans ?_
    rw [TeShortRead.outcome,
      if_pos (show (allowed false w.kern.answer).fails = true from Bool.or_true _)]
    rfl

/-- A descriptor that may not be read counts as encrypted by its entry. -/
theorem tracked_of_unreadable (hfind : w.kern.find fd = some id) (hcounts : CountsEncrypted w fd)
    (hacc : (w.kern.desc id).flags.acc.readable = false) : w.Tracked fd := by
  refine hcounts.resolve_right (not_not.mpr ?_)
  have hbit : (w.kern.desc id).flags.acc.wronlyBit = true := by
    cases hm : (w.kern.desc id).flags.acc with
    | rdonly => rw [hm] at hacc; cases hacc
    | wronly => rfl
    | rdwr => rw [hm] at hacc; cases hacc
    | accmode => rfl
  rw [seenByFd, hfind]
  refine if_neg ?_
  rw [hbit]
  rintro ⟨h, -⟩
  cases h

include henv hc hfind hreg hH hdata hcounts

/-- What the read after the seek returns. -/
theorem sought_read (n o t : Nat) :
    ∃ w₃, TeRead.read dev env fd n (sought w id o t) =
      .ok (if (w.kern.desc id).flags.acc.readable then
        (((slice P o n).length : Int), slice P o n) else (-1, []), w₃) := by
  have hd := sought_desc w id o t
  by_cases hacc : (w.kern.desc id).flags.acc.readable = true
  · rw [if_pos hacc]
    have hs : Shows dev H (sought w id o t) fd id ⟨P, o⟩ :=
      ⟨hfind, by rw [hd]; exact hreg, by rw [hd]; exact hacc, by rw [hd]; exact hdata,
        .inl (by rw [hd])⟩
    obtain ⟨m, hread⟩ := read_probed (w := sought w id o t) henv hH hc hcounts.probed hs n
    exact ⟨_, hread⟩
  · rw [if_neg hacc]
    have hacc' : (w.kern.desc id).flags.acc.readable = false := Bool.eq_false_iff.mpr hacc
    have htracked : w.Tracked fd := tracked_of_unreadable hfind hcounts hacc'
    obtain ⟨-, -, -, hrun⟩ := @TeShortRead.read_reaches dev env (sought w id o t) _ fd id o
      henv hfind (by rw [hd]; exact hreg) (.inl (by rw [hd])) (hc _).1 (hc _).1
      (passes_through_tracked htracked) (fun j _ => (hc _).1) n
    -- all three calls are refused
    let k₂ := (((sought w id o t).kern.tock 2).tock
      (TeShortRead.seeks ((sought w id o t).kern.desc id).pos)).setPos id
      (FILE_HEADER_POLL_SIZE + o)
    have hk₂ : k₂.desc id = { w.kern.desc id with pos := FILE_HEADER_POLL_SIZE + o } := by
      rw [Kernel.setPos_desc_self]
      show { (sought w id o t).kern.desc id with pos := FILE_HEADER_POLL_SIZE + o } = _
      rw [hd]
    obtain ⟨w₃, hpieces⟩ := @TeShortRead.read_pieces_any dev
      { sought w id o t with kern := k₂ } fd id H P o hfind (by rw [hk₂]; exact hreg)
      (by rw [hk₂]; exact hdata) hH.length (by rw [hk₂]) (hc _).1 n
    have hrefused : ∀ a m rest, TeShortRead.outcome (allowed false a) m rest = -1 :=
      fun a _ _ => if_pos (Bool.or_true a.fails)
    rw [hk₂, hacc'] at hpieces
    simp only [TeShortRead.countsOf, hrefused] at hpieces
    exact ⟨w₃, hrun.trans hpieces⟩

include hlow

/-- **Positional reads** agree exactly on a descriptor that may not be read, and where the raw
    bytes are the same. -/
theorem pread_agrees_iff (n o : Nat) :
    PreadAgrees dev env fd n o w ↔
      (w.kern.desc id).flags.acc.readable = false ∨ SameSlice (H ++ stored dev.aes P) P o n := by
  have hH' : H.length = 4096 := hH.length
  have hlt : P.length < (H ++ stored dev.aes P).length := by
    rw [List.length_append, stored_length, hH']
    omega
  obtain ⟨t, hseek⟩ := lseek_set henv hc hlow hfind hreg hcounts o
  obtain ⟨w₃, hread⟩ := sought_read henv hc hfind hreg hH hdata hcounts n o t
  have hpread := pread_raw henv hc hfind hreg n o
  rw [hdata] at hpread
  constructor
  · rintro ⟨r, w₁, s, w₂, w₃', hrun, -, hseek', hread'⟩
    obtain ⟨-, rfl⟩ := Prod.mk.inj (Except.ok.inj (hseek.symm.trans hseek'))
    have hr := (Prod.mk.inj (Except.ok.inj (hpread.symm.trans hrun))).1
    have hr' := (Prod.mk.inj (Except.ok.inj (hread.symm.trans hread'))).1
    by_cases hacc : (w.kern.desc id).flags.acc.readable = true
    · rw [if_pos hacc] at hr hr'
      exact .inr ((slices_agree_iff hlt o n).mp (Prod.mk.inj (hr.trans hr'.symm)).2)
    · exact .inl (Bool.eq_false_iff.mpr hacc)
  · intro h
    refine ⟨_, _, _, _, w₃, hpread, rfl, hseek, hread.trans ?_⟩
    by_cases hacc : (w.kern.desc id).flags.acc.readable = true
    · have hsame := h.resolve_left (by rw [hacc]; decide)
      rw [(slices_agree_iff hlt o n).mpr hsame]
    · rw [if_neg hacc, if_neg hacc]

/-! ## The two ways of writing -/

omit henv hc hfind hreg hH hdata hcounts hlow

/-- What the positional write leaves. -/
theorem pwrite_raw (henv : env.Active) (hc : w.kern.host.Calm) (hfind : w.kern.find fd = some id)
    (hreg : (w.kern.desc id).regular = true) (b : List UInt8) (o : Nat) :
    let D := w.kern.files.data (w.kern.desc id).inode
    ∃ r w₁, pwrite env fd b o w = .ok (r, w₁) ∧ w₁.kern.desc = w.kern.desc ∧
      w₁.kern.files.data (w.kern.desc id).inode =
        if (w.kern.desc id).flags.acc.writable then
          overlay 0 D (if (w.kern.desc id).flags.append then D.length else o) b
        else D := by
  intro D
  have hrun := (congrFun (hooked_active henv (-1) (linker_pwrite fd b o) (linker_pwrite fd b o))
    w).trans (linker_pwrite_ok (sysPwrite_any hfind hreg b o))
  refine ⟨_, _, hrun, rfl, (FileStore.store_data_self ..).trans ?_⟩
  by_cases hacc : (w.kern.desc id).flags.acc.writable = true
  · rw [hacc, if_pos rfl, allowed_true, Kernel.answer, given_calm hc, List.take_length]
    rfl
  · rw [Bool.eq_false_iff.mpr hacc, if_neg (by decide), given_refused, List.take_zero, overlay_nil]

/-- What the write after the seek leaves, on a descriptor with an entry. -/
theorem sought_write (dev : Device) (henv : env.Active) (hc : w.kern.host.Calm)
    (hfind : w.kern.find fd = some id) (hreg : (w.kern.desc id).regular = true) {fi : FileInfo}
    (hq : w.file_info_list.find? (fun e => e.file_descriptor = fd) = some fi)
    {b : List UInt8} (hb : b ≠ []) (o t : Nat) :
    let D := w.kern.files.data (w.kern.desc id).inode
    ∃ r w₃, write dev env fd b (sought w id o t) = .ok (r, w₃) ∧
      w₃.kern.files.data (w.kern.desc id).inode =
        if (w.kern.desc id).flags.acc.writable then
          torn dev.aes (w.kern.desc id).flags.append D
            (recorded w.kern.files fi.file_path (FILE_HEADER_POLL_SIZE + o))
            (FILE_HEADER_POLL_SIZE + o) b (o % 16) b.length
        else D := by
  intro D
  have hd := sought_desc w id o t
  obtain ⟨k', hrun, hwrote, -⟩ := write_any dev (w := sought w id o t) henv hfind
    (by rw [hd]; exact hreg) hq (hc _).1 (hc _).1 hb
  refine ⟨_, _, hrun, ?_⟩
  have hfiles := hwrote.files
  have hfetch : fetched ((sought w id o t).kern.tock 2) fi.file_path (FILE_HEADER_POLL_SIZE + o) =
      recorded w.kern.files fi.file_path (FILE_HEADER_POLL_SIZE + o) :=
    fetched_calm (k := (sought w id o t).kern.tock 2) hc fi.file_path (FILE_HEADER_POLL_SIZE + o)
  simp only [hd, hfetch] at hfiles
  show k'.files.data _ = _
  rw [hfiles, FileStore.store_data_self, header_mod]
  by_cases hacc : (w.kern.desc id).flags.acc.writable = true
  · have hfront : given ((sought w id o t).kern.tock 4).answer (o % 16) = o % 16 :=
      given_calm hc _ _
    have hrest : given ((sought w id o t).kern.tock 6).answer b.length = b.length :=
      given_calm hc _ _
    rw [hacc, if_pos rfl, allowed_true, allowed_true, hfront, hrest]
    rfl
  · rw [Bool.eq_false_iff.mpr hacc, if_neg (by decide), given_refused, given_refused, torn_none]
    rfl

/-- What a positional write has to meet: there is nothing to write, or the descriptor has an
    entry and may not be written, or the raw bytes are what the encrypted ones are. -/
def SameWrite (dev : Device) (w : World) (fd : Int) (id : Nat) (P b : List UInt8)
    (o : Nat) : Prop :=
  b = [] ∨ ∃ fi, w.file_info_list.find? (fun e => e.file_descriptor = fd) = some fi ∧
    ((w.kern.desc id).flags.acc.writable = false ∨
      SameOverlay dev.aes (w.kern.desc id).flags.append
        (w.kern.files.data (w.kern.desc id).inode) P b o
        (storesOf dev.aes w.kern.files fi.file_path o b))

include henv hc hlow hfind hreg hH hdata hcounts

/-- **Positional writes** agree exactly when nothing is written, or nothing can be, or the bytes
    happen to be the same. -/
theorem pwrite_agrees_iff (b : List UInt8) (o : Nat) :
    PwriteAgrees dev env fd b o (w.kern.desc id).inode w ↔ SameWrite dev w fd id P b o := by
  obtain ⟨t, hseek⟩ := lseek_set henv hc hlow hfind hreg hcounts o
  obtain ⟨r, w₁, hpwrite, hdesc, hraw⟩ := pwrite_raw henv hc hfind hreg b o
  by_cases hb : b = []
  · -- neither call writes
    subst hb
    refine iff_of_true ?_ (.inl rfl)
    have hnil : write dev env fd [] (sought w id o t) =
        .ok (((sought w id o t).kern.sysWrite fd []).1, { sought w id o t with
          kern := ((sought w id o t).kern.sysWrite fd []).2 }) := by
      rw [write, hooked_active henv, if_neg (by decide)]
      rfl
    refine ⟨r, w₁, o, _, _, _, hpwrite, hdesc, hseek, hnil, ?_⟩
    rw [hraw]
    show _ = ((sought w id o t).kern.sysWrite fd []).2.files.data (w.kern.desc id).inode
    rw [Kernel.sysWrite_nil_files, overlay_nil]
    exact ite_self _
  cases hq : w.file_info_list.find? (fun e => e.file_descriptor = fd) with
  | none =>
      -- the hooked write has no path to read from
      refine iff_of_false ?_ ?_
      · rintro ⟨r', w₁', s, w₂, r₂, w₃, -, -, hseek', hwrite, -⟩
        obtain ⟨-, rfl⟩ := Prod.mk.inj (Except.ok.inj (hseek.symm.trans hseek'))
        cases hwrite.symm.trans
          (@write_untracked dev env (sought w id o t) fd henv hq (hc _).1 b hb)
      · rintro (h | ⟨fi, h, -⟩)
        · exact hb h
        · rw [hq] at h
          cases h
  | some fi =>
      obtain ⟨r₂, w₃, hwrite, hleft⟩ := sought_write dev henv hc hfind hreg hq hb o t
      have hiff : PwriteAgrees dev env fd b o (w.kern.desc id).inode w ↔
          w₁.kern.files.data (w.kern.desc id).inode =
            w₃.kern.files.data (w.kern.desc id).inode := by
        constructor
        · rintro ⟨r', w₁', s, w₂, r₂', w₃', hpwrite', -, hseek', hwrite', heq⟩
          obtain ⟨-, rfl⟩ := Prod.mk.inj (Except.ok.inj (hpwrite.symm.trans hpwrite'))
          obtain ⟨-, rfl⟩ := Prod.mk.inj (Except.ok.inj (hseek.symm.trans hseek'))
          obtain ⟨-, rfl⟩ := Prod.mk.inj (Except.ok.inj (hwrite.symm.trans hwrite'))
          exact heq
        · exact fun heq => ⟨r, w₁, _, _, r₂, w₃, hpwrite, hdesc, hseek, hwrite, heq⟩
      have hsame : SameWrite dev w fd id P b o ↔ (w.kern.desc id).flags.acc.writable = false ∨
          SameOverlay dev.aes (w.kern.desc id).flags.append
            (w.kern.files.data (w.kern.desc id).inode) P b o
            (storesOf dev.aes w.kern.files fi.file_path o b) := by
        constructor
        · rintro (h | ⟨fi', h, hsame⟩)
          · exact absurd h hb
          · obtain rfl := Option.some.inj (hq.symm.trans h)
            exact hsame
        · exact fun h => .inr ⟨fi, hq, h⟩
      rw [hiff, hsame, hraw, hleft]
      by_cases hacc : (w.kern.desc id).flags.acc.writable = true
      · have hbytes := @overlays_agree_iff dev.aes w.kern.files fi.file_path H P b hH.length hb
          (w.kern.desc id).flags.append o
        rw [← hdata] at hbytes
        rw [if_pos hacc, if_pos hacc, hacc]
        exact hbytes.trans ⟨.inr, fun h => h.resolve_left (by decide)⟩
      · rw [if_neg hacc, if_neg hacc]
        exact iff_of_true rfl (.inl (Bool.eq_false_iff.mpr hacc))

end Access

/-- **Positional access.**  A descriptor that the hooks take for encrypted is open on a header
    and the stored form of `P`, with its cursor anywhere.  `pread` agrees with a seek and a
    read exactly on a descriptor that may not be read or where the raw bytes are `SameSlice`,
    `pwrite` with a seek and a write exactly when the write is a `SameWrite`. -/
theorem positional_agrees_iff {dev : Device} {env : Env} {w : World} {fd : Int} {id : Nat}
    {H P : List UInt8} (henv : env.Active) (hc : w.kern.host.Calm) (hlow : w.kern.host.LowestFree)
    (hfind : w.kern.find fd = some id) (hreg : (w.kern.desc id).regular = true)
    (hH : RightsHeader H)
    (hdata : w.kern.files.data (w.kern.desc id).inode = H ++ stored dev.aes P)
    (hcounts : CountsEncrypted w fd) (n : Nat) (b : List UInt8) (o : Nat) :
    (PreadAgrees dev env fd n o w ↔ (w.kern.desc id).flags.acc.readable = false ∨
      SameSlice (H ++ stored dev.aes P) P o n) ∧
    (PwriteAgrees dev env fd b o (w.kern.desc id).inode w ↔ SameWrite dev w fd id P b o) :=
  ⟨pread_agrees_iff henv hc hlow hfind hreg hH hdata hcounts n o,
    pwrite_agrees_iff henv hc hlow hfind hreg hH hdata hcounts b o⟩

/-- A text of a block and four bytes that starts like the header does: where the two agree,
    it is by chance. -/
theorem positional_agrees_mirrored :
    let P := (newHeader none).take 20
    let w := openForWriting (newHeader none ++ stored aDevice.aes P) 4096
    PreadAgrees aDevice activeEnv 3 20 0 w ∧ PwriteAgrees aDevice activeEnv 3 P 0 1 w := by
  intro P w
  let D := newHeader none ++ stored aDevice.aes P
  have hP : P.length = 20 := by
    rw [List.length_take, newHeader_length]
    rfl
  have hcounts : CountsEncrypted w 3 := .inl ⟨_, List.mem_singleton.mpr rfl, rfl⟩
  have hdata : w.kern.files.data (w.kern.desc 1).inode = D := Kernel.oneDescriptor_data _ _ _
  have h := @positional_agrees_iff aDevice activeEnv w 3 1 (newHeader none) P ⟨rfl, rfl, rfl⟩
    (fun _ => ⟨rfl, rfl, rfl⟩) (fun _ => rfl) rfl rfl
    ⟨newHeader_length none, newHeader_rights none⟩ hdata hcounts 20 P 0
  -- the text is what stands at the same offsets of the header
  have hfront : ∀ i, i < 20 → D[i]? = P[i]? := fun i hi => by
    rw [List.getElem?_append_left (by rw [newHeader_length]; show i < 4096; omega),
      List.getElem?_take_of_lt hi]
  have hback : ∀ i, D[4096 + i]? = (stored aDevice.aes P)[i]? := fun i => by
    rw [List.getElem?_append_right (by rw [newHeader_length]; exact Nat.le_add_right 4096 i),
      newHeader_length]
    exact congrArg _ (Nat.add_sub_cancel_left 4096 i)
  have hbytes : (storesOf aDevice.aes w.kern.files Kernel.aName 0 P).bytes
      = stored aDevice.aes P := by
    have hnone : recorded w.kern.files Kernel.aName 4096 = [] :=
      List.length_eq_zero_iff.mp (Nat.le_zero.mp (recorded_length _ _ 4096))
    have hfront : front [] 4096 = [] := by decide
    show stored aDevice.aes (front (recorded w.kern.files Kernel.aName 4096) 4096 ++ P) = _
    rw [hnone, hfront, List.nil_append]
  refine ⟨h.1.mpr (.inr (.inr (.inr ⟨Nat.le_of_eq hP.symm, ?_⟩))),
    h.2.mpr (.inr ⟨_, rfl, .inr ⟨Nat.le_of_eq (Nat.zero_add _), ?_, ?_⟩⟩)⟩
  · apply List.ext_getElem?
    intro i
    rw [slice_get, slice_get, Nat.zero_add]
    split
    · exact hfront i (by omega)
    · rfl
  · intro i hi
    rw [hdata, if_neg (fun hle => by
      have : 4096 ≤ 0 + i := hle.1
      omega), Nat.zero_add]
    exact (hfront i (by omega)).symm
  · intro i _
    rw [hdata, hbytes, if_neg (fun hlt => by
      have : 4096 + i < 0 + P.length := hlt.2
      omega)]
    exact (hback i).symm

/-- One byte behind the header: `pread` of four from offset 0 gives four bytes of the header,
    where a seek and a read give that byte; and `pwrite` at its end writes into the header. -/
theorem positional_hits_header :
    let w := openForWriting (newHeader none ++ stored aDevice.aes [7]) 4096
    (∃ b w', pread activeEnv 3 4 0 w = .ok ((4, b), w')) ∧
      (∃ w₂ w₃, lseek activeEnv 3 0 .set w = .ok (0, w₂) ∧
        TeRead.read aDevice activeEnv 3 4 w₂ = .ok ((1, [7]), w₃)) ∧
      ¬ PreadAgrees aDevice activeEnv 3 4 0 w ∧ ¬ PwriteAgrees aDevice activeEnv 3 [1] 1 1 w := by
  intro w
  have hc : w.kern.host.Calm := fun _ => ⟨rfl, rfl, rfl⟩
  have hlow : w.kern.host.LowestFree := fun _ => rfl
  have henv : activeEnv.Active := ⟨rfl, rfl, rfl⟩
  have hfind : w.kern.find 3 = some 1 := rfl
  have hreg : (w.kern.desc 1).regular = true := rfl
  have hH : RightsHeader (newHeader none) := ⟨newHeader_length none, newHeader_rights none⟩
  have hdata : w.kern.files.data (w.kern.desc 1).inode = newHeader none ++ stored aDevice.aes [7] :=
    Kernel.oneDescriptor_data _ _ _
  have hcounts : CountsEncrypted w 3 := .inl ⟨_, List.mem_singleton.mpr rfl, rfl⟩
  have hlen : (newHeader none ++ stored aDevice.aes [7]).length = 4097 := by
    rw [List.length_append, newHeader_length, stored_length]
    rfl
  obtain ⟨t, hseek⟩ := lseek_set henv hc hlow hfind hreg hcounts 0
  obtain ⟨w₃, hread⟩ := sought_read henv hc hfind hreg hH hdata hcounts 4 0 t
  have hfour : (slice (w.kern.files.data (w.kern.desc 1).inode) 0 4).length = 4 := by
    rw [slice_length, hdata, hlen]
    rfl
  have hraw := @pread_raw activeEnv w 3 1 henv hc hfind hreg 4 0
  dsimp only at hraw
  rw [if_pos (show (w.kern.desc 1).flags.acc.readable = true from rfl), hfour] at hraw
  refine ⟨⟨_, _, hraw⟩, ⟨_, w₃, hseek, hread⟩, ?_, ?_⟩
  · intro hagrees
    rcases (pread_agrees_iff henv hc hlow hfind hreg hH hdata hcounts 4 0).mp hagrees with
      h | h | h | ⟨h, -⟩
    · cases h
    · exact absurd h (by decide)
    · rw [hlen] at h
      exact absurd h (by decide)
    · exact absurd h (by decide)
  · intro h
    rcases (pwrite_agrees_iff henv hc hlow hfind hreg hH hdata hcounts [1] 1).mp h with
      h | ⟨fi, -, h | ⟨h, -⟩⟩
    · cases h
    · cases h
    · exact absurd h (by decide)

end TePositional
