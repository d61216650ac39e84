import TransEncrypt.FailureProofs
import TransEncrypt.OpenProofs

/-! # What an open that fails leaves behind

    `open` fails on four ways: the real call fails at once, the header of a file that counts
    as new is not written in full, or a second real call fails, after a conversion or without
    one.  Only the first leaves everything as it was.  A file counts as new also when the
    `access` that looks for it is refused.

    * `second_inv`: what is known of the state in which a conversion begins, and of the second
      real call, whatever the host does;
    * `lost_inv`: the ways to the result -1;
    * `no_trace_iff`: when a failed open leaves no trace, and when a calm host lets an open
      succeed that the real call would have let succeed. -/

namespace TeTrace

open Posix Overlay TeHeader Hoare TeProgram TeTorn TeWorker TeRebuild TeFailure TeOpen

/-- The files that exist, the bytes of the file at `path` and the table are as before. -/
structure NoTrace (path : Path) (w w' : World) : Prop where
  exist : ∀ p, w'.kern.files.names p = none ↔ w.kern.files.names p = none
  content : w'.kern.files.content path = w.kern.files.content path
  table : w'.file_info_list = w.file_info_list

theorem NoTrace.of_same {path : Path} {w w' : World} (hfiles : w'.kern.files = w.kern.files)
    (htable : w'.file_info_list = w.file_info_list) : NoTrace path w w' where
  exist := fun p => by rw [hfiles]
  content := by rw [hfiles]
  table := htable

/-! ## Names that a conversion leaves alone -/

/-- No name has been given or taken. -/
def Named (w w' : World) : Prop := w'.kern.files.names = w.kern.files.names

instance : IsPreorder World Named where
  refl _ := rfl
  trans _ _ _ h h' := h'.trans h

theorem Named.of_still {α : Type} {m : Sys α} (h : Stays Still m) : Stays Named m :=
  fun _ _ _ hm => congrArg FileStore.names (h hm).1

theorem named_pwrite (fd : Int) (b : List UInt8) (off : Int) :
    Stays Named (linker_pwrite fd b off) := by
  intro w n w' h
  obtain ⟨-, rfl⟩ := kernelCall_inv h
  exact w.kern.sysPwrite_names fd b off

theorem named_convert_in_place (dev : Device) (fd : Int) (size : Nat) :
    Stays Named (convert_in_place dev fd size) :=
  .bind (.of_still .alloc) fun _ => .ite (.bind (.of_still (.pread fd size 0)) fun _ =>
    .ite (.bind (named_pwrite fd _ 0) fun _ => .pure _) (.pure 0)) (.pure 0)

theorem named_rebuild_buffer (dev : Device) (path : Path) (size : Nat) :
    Stays Named (rebuild_buffer dev path size) :=
  .bind (.of_still (.opens path rfl rfl)) fun fd =>
    .ite (.bind (named_convert_in_place dev fd size) fun _ =>
      .bind (.of_still (.close fd)) fun _ => .pure _) (.pure 0)

theorem still_file_size (path : Path) : Stays Still (get_file_size_by_path path) :=
  .bind (.stat path) fun
    | some _ => .pure _
    | none => .pure _

/-- The size that is found is that of the file, or 0 when the call fails. -/
theorem file_size_any {path : Path} {w : World} {bs : List UInt8}
    (hbs : w.kern.files.content path = some bs) : get_file_size_by_path path w =
      .ok (if w.kern.answer.fails then 0 else (bs.length : Int),
        { w with kern := w.kern.tock 1 }) := by
  cases hfails : w.kern.answer.fails with
  | true =>
      have hstat : linker_stat path w = .ok (none, { w with kern := w.kern.tock 1 }) :=
        linker_stat_ok (by simp [Kernel.sysStat, hfails])
      rw [get_file_size_by_path, bind_ok hstat]
      rfl
  | false =>
      have hstat : linker_stat path w =
          .ok (some ⟨true, bs.length⟩, { w with kern := w.kern.tock 1 }) :=
        linker_stat_ok (by simp [Kernel.sysStat, hfails, hbs])
      rw [get_file_size_by_path, bind_ok hstat]
      rfl

/-- The probe changes no file, whatever the host does. -/
theorem still_probe (path : Path) : Stays Still (probe_header path) :=
  .bind (.opens path rfl rfl) fun fd => .ite (.bind
    (.bind .alloc fun _ => .ite (.bind (.read fd _) fun _ =>
      .ite (.pure none) (.ite (.pure none) (.pure _))) (.pure none))
    fun _ => .bind (.close fd) fun _ => .pure _) (.pure none)

/-- **Only `<path>.s` comes or goes** in a conversion, whatever the host does. -/
theorem rebuild_absent {dev : Device} {path : Path} {w w' : World} {r size : Int}
    (hname : w.kern.files.names path ≠ none)
    (h : rebuild_file_struct dev path size w = .ok (r, w')) {p : Path}
    (hp : p ≠ get_security_path_by_path path) :
    w'.kern.files.names p = none ↔ w.kern.files.names p = none := by
  rw [rebuild_file_struct] at h
  split at h
  · obtain ⟨-, rfl⟩ := pure_inv h
    exact .rfl
  split at h
  swap
  · obtain ⟨-, rfl⟩ := pure_inv h
    exact .rfl
  split at h
  · have hnames : Named w w' := named_rebuild_buffer dev path _ h
    rw [show w'.kern.files.names = w.kern.files.names from hnames]
  · rcases rebuild_workers_inv h with ⟨-, -, hfiles⟩ | ⟨-, num, n, fs, ts, -, hrun, -, hend⟩
    · rw [hfiles]
    · have hnames : ∀ q, q ≠ get_security_path_by_path path →
          fs.names q = w.kern.files.names q := fun q hq => reaches_names hq n hrun.1
      have hnames' := hnames path (security_path_ne path).symm
      rcases hend with ⟨-, -, hfiles⟩ | ⟨-, -, hfiles⟩
      · rw [hfiles, hnames p hp]
      · rw [hfiles]
        split
        · rw [hnames p hp]
        · rw [fs.rename_absent (by rw [hnames']; exact hname) hp, hnames p hp]

/-! ## The calls of the probe -/

/-- How many calls the probe of a file that is there makes. -/
def probeCalls (k : Kernel) : Nat :=
  if k.answer.fails = true ∨ ¬ k.freeFd k.answer.hint > 0 then 1
  else if (k.tock 1).answer.fails = true then 3
  else 4

/-- Descriptor 0 is in use once the probe has been made: where it was free and is given to the
    probe, it is not closed. -/
def ZeroUsed (k : Kernel) : Prop :=
  k.InUse 0 ∨ k.answer.fails = false ∧ k.answer.hint = 0

section Probe

variable {w w' : World} {path : Path} {header : Option (List UInt8)}

theorem open_fails {flags : Flags} (hfails : w.kern.answer.fails = true) :
    linker_open path flags w = .ok (-1, { w with kern := w.kern.tock 1 }) :=
  linker_open_ok (by rw [Kernel.sysOpen, if_pos hfails])

theorem read_header_clock {fd : Int} (h : read_header fd w = .ok (header, w')) :
    w'.kern.fds = w.kern.fds ∧
      w'.kern.tick = w.kern.tick + if w.kern.answer.fails = true then 1 else 2 := by
  rw [read_header] at h
  by_cases hfails : w.kern.answer.fails = true
  · rw [bind_ok (calloc_fails hfails), if_neg (by decide)] at h
    obtain ⟨-, rfl⟩ := pure_inv h
    rw [if_pos hfails]
    exact ⟨rfl, rfl⟩
  · rw [bind_ok (calloc_ok (by simpa using hfails)), if_pos rfl] at h
    obtain ⟨r, w₁, h1, h2⟩ := bind_inv h
    obtain ⟨-, rfl⟩ := kernelCall_inv h1
    obtain ⟨hfds, htick⟩ := (w.kern.tock 1).sysRead_clock fd FILE_HEADER_POLL_SIZE
    have hw' : w' = { w with kern := ((w.kern.tock 1).sysRead fd FILE_HEADER_POLL_SIZE).2 } := by
      dsimp only at h2
      split at h2
      · exact (pure_inv h2).2
      · split at h2
        · exact (pure_inv h2).2
        · exact (pure_inv h2).2
    rw [hw', if_neg hfails]
    exact ⟨hfds, htick⟩

/-- **The probe** of a file that is there: its calls, and what becomes of descriptor 0. -/
theorem probe_inv {i : Nat} (hname : w.kern.files.names path = some i)
    (h : probe_header path w = .ok (header, w')) :
    w'.kern.tick = w.kern.tick + probeCalls w.kern ∧ (w'.kern.InUse 0 ↔ ZeroUsed w.kern) := by
  let k := w.kern
  rw [probe_header] at h
  by_cases hfails : k.answer.fails = true
  · rw [bind_ok (open_fails hfails), if_neg (by decide)] at h
    obtain ⟨-, rfl⟩ := pure_inv h
    rw [probeCalls, if_pos (.inl hfails)]
    refine ⟨rfl, .inl, fun hz => hz.resolve_right fun hno => ?_⟩
    have hok : k.answer.fails = false := hno.1
    rw [hfails] at hok
    cases hok
  let fd := k.freeFd k.answer.hint
  let k₁ := ((k.tock 1).install k.answer.hint i { acc := .rdonly }
    (k.files.names_lt _ _ hname)).2
  have hok : k.answer.fails = false := by simpa using hfails
  have hopen : linker_open path { acc := .rdonly } w = .ok (fd, { w with kern := k₁ }) :=
    linker_open_ok (Kernel.sysOpen_found hok hname rfl rfl)
  have hused : k₁.InUse 0 ↔ fd = 0 ∨ k.InUse 0 := by
    show 0 ∈ (fd :: k.fds.map Prod.fst) ↔ _
    rw [List.mem_cons, eq_comm]
    exact .rfl
  have hzero : fd = 0 ↔ k.answer.hint = 0 ∧ ¬ k.InUse 0 := k.freeFd_eq_zero
  rw [bind_ok hopen] at h
  by_cases hpos : fd > 0
  · rw [if_pos hpos] at h
    obtain ⟨header', w₂, h1, h2⟩ := bind_inv h
    obtain ⟨r, w₃, h3, h4⟩ := bind_inv h2
    obtain ⟨-, rfl⟩ := kernelCall_inv h3
    obtain ⟨-, rfl⟩ := pure_inv h4
    obtain ⟨hfds, htick⟩ := read_header_clock h1
    have htick₁ : w₂.kern.tick = k.tick + 1 + if (k.tock 1).answer.fails = true then 1 else 2 :=
      htick
    clear htick
    have hused₂ : w₂.kern.InUse 0 ↔ k₁.InUse 0 := by
      rw [Kernel.InUse, hfds]
      exact .rfl
    constructor
    · show (w₂.kern.sysClose fd).2.tick = _
      rw [Kernel.sysClose_tick, htick₁, show probeCalls w.kern =
        if (k.tock 1).answer.fails = true then 3 else 4 from if_neg (by
          rintro (hf | hf)
          · exact hfails hf
          · exact hf hpos)]
      show k.tick + 1 + _ + 1 = k.tick + _
      split
      · omega
      · omega
    · show (w₂.kern.sysClose fd).2.InUse 0 ↔ _
      rw [Kernel.sysClose_inUse w₂.kern (by omega : (0 : Int) ≠ fd), hused₂, hused]
      constructor
      · rintro (h0 | h0)
        · omega
        · exact .inl h0
      · rintro (h0 | ⟨-, hhint⟩)
        · exact .inr h0
        · by_contra hno
          have := hzero.mpr ⟨hhint, fun h0 => hno (.inr h0)⟩
          omega
  · -- descriptor 0 is taken for a failure
    rw [if_neg hpos] at h
    obtain ⟨-, rfl⟩ := pure_inv h
    have hnonneg : 0 ≤ fd := k.freeFd_nonneg _
    have h0 : fd = 0 := by omega
    rw [probeCalls, if_pos (.inr hpos)]
    exact ⟨rfl, fun _ => .inr ⟨hok, (hzero.mp h0).1⟩, fun _ => hused.mpr (.inl h0)⟩

end Probe

/-! ## The second real call -/

/-- An open up to the second call of the real one: whether the file has just been converted;
    none when there is no second call. -/
def at_second (dev : Device) (path : Path) (flags : Flags) : Sys (Option Bool) := do
  let fs ← access path
  let header ← (if fs = 0 then probe_header path else pure none)
  let fd ← linker_open path flags
  if fd > 0 ∧ fs = 0 ∧ header = none then convert_plain dev path fd
  else pure none

/-- What is known of the state `w₀` in which a conversion of the file `i` begins, and of the
    state `w₁` in which the second call is made. -/
structure Second (dev : Device) (path : Path) (flags : Flags) (w w₀ w₁ : World) (b : Bool)
    (i : Nat) : Prop where
  name : w.kern.files.names path = some i
  excl : (flags.creat && flags.excl) = false
  files : w₀.kern.files = if flags.trunc then w.kern.files.store i [] else w.kern.files
  host : w₀.kern.host = w.kern.host
  tick : w₀.kern.tick = w.kern.tick + probeCalls w.kern + 4
  zero : w₀.kern.InUse 0 ↔ ZeroUsed w.kern
  kept : w₁.kern.host = w.kern.host
  table : w₁.file_info_list = w.file_info_list
  rebuilt : ∃ r, b = (r == 1) ∧ rebuild_file_struct dev path
    (if (w.kern.tock (probeCalls w.kern + 3)).answer.fails then 0
      else ((w₀.kern.files.data i).length : Int)) w₀ = .ok (r, w₁)

section Second

variable {dev : Device} {path : Path} {flags : Flags} {w w₀ w₁ w' : World}

/-- The probe, or nothing when there is no file. -/
theorem header_inv {fs : Int} {header : Option (List UInt8)}
    (h : (if fs = 0 then probe_header path else pure none : Sys (Option (List UInt8))) w =
      .ok (header, w₁)) : Still w w₁ ∧ w₁.file_info_list = w.file_info_list := by
  by_cases hfs : fs = 0
  · rw [if_pos hfs] at h
    exact ⟨still_probe path h, (kept_probe path h).2⟩
  · rw [if_neg hfs] at h
    obtain ⟨-, rfl⟩ := pure_inv h
    exact ⟨⟨rfl, rfl⟩, rfl⟩

theorem access_inv {fs : Int} (h : access path w = .ok (fs, w')) :
    w' = w ∧ fs = w.kern.sysAccess path := by
  obtain ⟨rfl, hw⟩ := kernelCall_inv h
  exact ⟨hw, rfl⟩

/-- A file that is there has been opened, and closed again for the conversion. -/
theorem at_second_inv {b : Bool} (h : at_second dev path flags w = .ok (some b, w₁)) :
    ∃ i header w₂ fd k₃, w.kern.files.names path = some i ∧
      probe_header path w = .ok (header, w₂) ∧ Still w w₂ ∧
      w₂.file_info_list = w.file_info_list ∧ fd > 0 ∧
      Kernel.Opened w₂.kern path flags fd i k₃ ∧ k₃.tick = w₂.kern.tick + 1 ∧
      convert_plain dev path fd { w₂ with kern := k₃ } = .ok (some b, w₁) ∧
      open_supported dev path flags w = open_plain dev path flags fd { w₂ with kern := k₃ } := by
  obtain ⟨fs, w₀, h1, h2⟩ := bind_inv h
  obtain ⟨rfl, hfs⟩ := access_inv h1
  obtain ⟨header, w₂, h3, h4⟩ := bind_inv h2
  obtain ⟨hstill, hl⟩ := header_inv h3
  obtain ⟨fd, w₃, h5, h6⟩ := bind_inv h4
  by_cases hcond : fd > 0 ∧ fs = 0 ∧ header = none
  swap
  · rw [if_neg hcond] at h6
    cases (pure_inv h6).1
  rw [if_pos hcond] at h6
  obtain ⟨hpos, hzero, rfl⟩ := hcond
  obtain ⟨i, hname⟩ :=
    Option.ne_none_iff_exists'.mp (w₀.kern.sysAccess_zero.mp (hfs.symm.trans hzero)).2
  obtain ⟨-, hw₃⟩ := kernelCall_inv h5
  rcases linker_open_inv h5 with ⟨rfl, -⟩ | ⟨j, k₃, rfl, ho⟩
  · exact absurd hpos (by decide)
  have hk₃ : k₃ = (w₂.kern.sysOpen path flags).2 := congrArg World.kern hw₃
  obtain rfl : j = i := by
    have hfiles := ho.files
    generalize k₃.files = fs' at hfiles
    rw [← hstill.1] at hname
    cases hfiles with
    | existing hn => exact Option.some.inj (hn.symm.trans hname)
    | emptied hn => exact Option.some.inj (hn.symm.trans hname)
    | created hn => cases hn.symm.trans hname
  rw [if_pos hzero] at h3
  refine ⟨j, none, w₂, fd, k₃, hname, h3, hstill, hl, hpos, ho, ?_, h6, ?_⟩
  · rw [hk₃]
    exact w₂.kern.sysOpen_tick path flags
  · refine (bind_ok h1).trans ((bind_ok (show (if fs = 0 then probe_header path else pure none :
      Sys (Option (List UInt8))) w₀ = _ by rw [if_pos hzero]; exact h3)).trans
      ((bind_ok h5).trans ?_))
    rw [if_pos hpos, if_neg (fun hne => hne hzero)]

/-- **Before the second call**, whatever the host does. -/
theorem second_inv {b : Bool} (h : at_second dev path flags w = .ok (some b, w₁)) :
    ∃ w₀ i, Second dev path flags w w₀ w₁ b i := by
  obtain ⟨i, header, w₂, fd, k₃, hname, hprobe, ⟨hfiles₂, hhost₂⟩,
    hl₂, hpos, ho, htick₃, hconv, -⟩ :=
    at_second_inv h
  obtain ⟨htick₂, hzero₂⟩ := probe_inv hname hprobe
  rcases convert_plain_inv hconv with ⟨hnone, -⟩ | ⟨size, w₀, r, -, -, h1, h2, hb⟩
  · cases hnone
  let k₄ := ((k₃.tock 1).sysClose fd).2
  have hfiles₃ : k₃.files = (if flags.trunc then w.kern.files.store i [] else w.kern.files) ∧
      (flags.creat && flags.excl) = false := by
    have hfiles := ho.files
    rw [hfiles₂] at hfiles
    generalize k₃.files = fs' at hfiles ⊢
    cases hfiles with
    | existing _ hx ht => exact ⟨by rw [ht]; rfl, hx⟩
    | emptied _ hx ht => exact ⟨by rw [ht]; rfl, hx⟩
    | created hn => cases hn.symm.trans hname
  have hfiles₄ : k₄.files = k₃.files := ((k₃.tock 1).unwritten_close fd).1
  have hhost₄ : k₄.host = w.kern.host := by
    rw [(ho.gained.close (.tock k₃ 1)).host, hhost₂]
  have htick₄ : k₄.tick = w.kern.tick + (probeCalls w.kern + 3) := by
    show ((k₃.tock 1).sysClose fd).2.tick = _
    rw [(k₃.tock 1).sysClose_tick]
    show k₃.tick + 1 + 1 = _
    omega
  have hcontent : k₄.files.content path = some (k₄.files.data i) := by
    refine FileStore.content_of_names _ ?_
    rw [hfiles₄]
    exact ho.name
  have hsize := file_size_any (w := { w₂ with kern := k₄ }) hcontent
  obtain ⟨rfl, rfl⟩ := Prod.mk.inj (Except.ok.inj (h1.symm.trans hsize))
  have hanswer : k₄.answer = (w.kern.tock (probeCalls w.kern + 3)).answer := by
    show k₄.host.answer k₄.tick = w.kern.host.answer (w.kern.tick + (probeCalls w.kern + 3))
    rw [hhost₄, htick₄]
  obtain ⟨hk₅, hl₅⟩ := kept_rebuild dev path _ h2
  refine ⟨{ w₂ with kern := k₄.tock 1 }, i, hname, hfiles₃.2, hfiles₄.trans hfiles₃.1, hhost₄, ?_,
    ?_, hk₅.host.trans hhost₄, hl₅.trans hl₂, r, Option.some.inj hb, ?_⟩
  · show k₄.tick + 1 = _
    rw [htick₄]
    omega
  · refine Iff.trans ?_ hzero₂
    show k₄.InUse 0 ↔ _
    rw [Kernel.sysClose_inUse _ (by omega : (0 : Int) ≠ fd)]
    show 0 ∈ k₃.fds.map Prod.fst ↔ 0 ∈ w₂.kern.fds.map Prod.fst
    rw [ho.gained.fds, List.map_cons, List.mem_cons, or_iff_right (by
      show ¬ (0 : Int) = fd
      omega)]
  · rw [← hanswer]
    exact h2

/-- From the second call on. -/
theorem open_from_second {b : Bool} (h : at_second dev path flags w = .ok (some b, w₁)) :
    open_supported dev path flags w =
      (if b then reopen path flags else linker_open path flags) w₁ := by
  obtain ⟨i, header, w₂, fd, k₃, -, -, -, -, -, -, -, hconv, hrun⟩ := at_second_inv h
  refine hrun.trans ((bind_ok hconv).trans ?_)
  cases b with
  | true => rfl
  | false => rfl

namespace Second

variable {b : Bool} {i : Nat} (hs : Second dev path flags w w₀ w₁ b i)
include hs

/-- The conversion begins with the file under its name, emptied or not. -/
theorem named : w₀.kern.files.names = w.kern.files.names ∧
    w₀.kern.files.data i = if flags.trunc then [] else w.kern.files.data i := by
  rw [hs.files]
  cases flags.trunc with
  | true => exact ⟨rfl, FileStore.store_data_self ..⟩
  | false => exact ⟨rfl, rfl⟩

/-- The file is there at the second call. -/
theorem there : w₁.kern.files.names path ≠ none := by
  obtain ⟨r, -, hrun⟩ := hs.rebuilt
  have hname : w₀.kern.files.names path ≠ none := by
    rw [hs.named.1, hs.name]
    exact Option.some_ne_none i
  rwa [ne_eq, rebuild_absent hname hrun (security_path_ne path).symm]

/-- The host answers the conversion as it would have at the start, so many calls later. -/
theorem answer (n : Nat) : (w₀.kern.tock n).answer =
    ((w.kern.tock (probeCalls w.kern + 4)).tock n).answer := by
  show w₀.kern.host.answer (w₀.kern.tick + n) = w.kern.host.answer (w.kern.tick + _ + n)
  rw [hs.host, hs.tick, Nat.add_assoc w.kern.tick]

end Second

end Second

/-! ## What leaves a trace -/

/-- The header of a file that counts as new is not written in full, be it that the file was not
    opened for writing, that the call fails, or that it is cut short. -/
structure HeaderFails (dev : Device) (w : World) (path : Path) (flags : Flags) : Prop where
  common : dev.is_support_special_file_type_by_path path ≠ 1
  opens : w.kern.answer.fails = false
  positive : 0 < w.kern.freeFd w.kern.answer.hint
  memory : (w.kern.tock 1).answer.fails = false
  cut : given (allowed flags.acc.writable (w.kern.tock 2).answer) FILE_HEADER_POLL_SIZE ≠
    FILE_HEADER_POLL_SIZE

/-- A new file stays without its header. -/
structure HeaderCut (dev : Device) (w : World) (path : Path) (flags : Flags) : Prop where
  absent : w.kern.files.names path = none
  creat : flags.creat = true
  fails : HeaderFails dev w path flags

/-- What a header that is not written in full makes of a file with these bytes. -/
def headed (dev : Device) (w : World) (path : Path) (flags : Flags) (C : List UInt8) :
    List UInt8 :=
  let D := if flags.trunc then [] else C
  overlay 0 D (if flags.append then D.length else 0) ((entryHeader dev.get_process_name path).take
    (given (allowed flags.acc.writable (w.kern.tock 2).answer) FILE_HEADER_POLL_SIZE))

/-- The table after the entry for a descriptor has been put in and taken out again. -/
def withdrawn (w : World) (p : Path) (i : Nat) : List FileInfo :=
  let fd := w.kern.freeFd w.kern.answer.hint
  (w.file_info_list ++ [(⟨fd, p, some i⟩ : FileInfo)]).eraseP (fun e => e.file_descriptor = fd)

/-- The `access` to a file that is there is refused, and the header that is written over it is
    cut, after some of its bytes; or the table held another entry for the new descriptor. -/
structure HeaderOver (dev : Device) (w : World) (path : Path) (flags : Flags) (i : Nat) :
    Prop where
  name : w.kern.files.names path = some i
  denied : w.kern.answer.denies = true
  excl : (flags.creat && flags.excl) = false
  fails : HeaderFails dev w path flags
  differs : headed dev w path flags (w.kern.files.data i) ≠ w.kern.files.data i ∨
    withdrawn w (spilled path (entryHeader dev.get_process_name path)) i ≠ w.file_info_list

/-- The host refuses the second real call. -/
def SecondRefused (dev : Device) (w : World) (path : Path) (flags : Flags) : Prop :=
  ∃ b w₁, at_second dev path flags w = .ok (some b, w₁) ∧ w₁.kern.answer.fails = true

/-- The conversion in one buffer of a file with these bytes, from the state `k` of the host on:
    the file is opened, not as descriptor 0, there is memory, it is read in full, and the bytes
    that are then written over it change it. -/
structure Spoils (dev : Device) (zero : Prop) (k : Kernel) (C : List UInt8) : Prop where
  opens : k.answer.fails = false
  positive : k.answer.hint = 0 → zero
  fills : Fills (k.tock 1) C.length
  differs : overlay 0 C 0 ((converted dev C).take (putBack k C.length)) ≠ C

/-- What is done between the two real calls changes something.  The file is not empty, and it
    is emptied, or its size is found and its conversion gets so far. -/
structure Changes (dev : Device) (w : World) (path : Path) (flags : Flags) (i : Nat) :
    Prop where
  name : w.kern.files.names path = some i
  content : w.kern.files.data i ≠ []
  done : flags.trunc = true ∨ path ≠ [] ∧
    (w.kern.tock (probeCalls w.kern + 3)).answer.fails = false ∧
      ((w.kern.files.data i).length ≤ 4096 * THREADS_COUNT ∧ Spoils dev (ZeroUsed w.kern)
          (w.kern.tock (probeCalls w.kern + 4)) (w.kern.files.data i) ∨
        4096 * THREADS_COUNT < (w.kern.files.data i).length ∧
          GetsName w.kern.host (w.kern.tick + probeCalls w.kern + 4))

/-- The open fails and leaves a trace. -/
def Leaves (dev : Device) (w : World) (path : Path) (flags : Flags) : Prop :=
  HeaderCut dev w path flags ∨ (∃ i, HeaderOver dev w path flags i) ∨
    SecondRefused dev w path flags ∧ ∃ i, Changes dev w path flags i

/-- For a conversion by workers: `<path>.s` was not there, and when the second call is refused
    there is memory for an entry. -/
def Decided (dev : Device) (w : World) (path : Path) (flags : Flags) : Prop :=
  flags.trunc = false → ∀ C, w.kern.files.content path = some C →
    4096 * THREADS_COUNT < C.length →
      w.kern.files.names (get_security_path_by_path path) = none ∧
      ∀ b w₁, at_second dev path flags w = .ok (some b, w₁) → w₁.kern.answer.fails = true →
        (w₁.kern.tock 1).answer.fails = false

/-! ## What the second call finds -/

namespace Second

variable {dev : Device} {path : Path} {flags : Flags} {w w₀ w₁ : World} {b : Bool} {i : Nat}
  (hs : Second dev path flags w w₀ w₁ b i)
include hs

/-- An empty file is not converted. -/
theorem of_empty (hempty : w₀.kern.files.data i = []) : w₁ = w₀ ∧ b = false := by
  obtain ⟨r, hb, hrun⟩ := hs.rebuilt
  rw [hempty, List.length_nil] at hrun
  have hnone : rebuild_file_struct dev path
      (if (w.kern.tock (probeCalls w.kern + 3)).answer.fails then 0 else ((0 : Nat) : Int))
        = pure 0 := by
    rw [show (if (w.kern.tock (probeCalls w.kern + 3)).answer.fails then 0
      else ((0 : Nat) : Int)) = 0 from ite_self 0, rebuild_file_struct]
    split
    · rfl
    · rfl
  rw [hnone] at hrun
  obtain ⟨rfl, rfl⟩ := pure_inv hrun
  exact ⟨rfl, hb⟩

/-- Whether a small file is written over, and with what. -/
theorem small (ht : flags.trunc = false) (hpath : path ≠ [])
    (hok : (w.kern.tock (probeCalls w.kern + 3)).answer.fails = false) {C : List UInt8}
    (hC : w.kern.files.data i = C) (hne : C ≠ []) (hsmall : C.length ≤ 4096 * THREADS_COUNT) :
    w₁.kern.files.names = w.kern.files.names ∧
    (w₁.kern.files.data i = C ∧ b = false ∨ Spoils dev (ZeroUsed w.kern)
      (w.kern.tock (probeCalls w.kern + 4)) C ∧ w₁.kern.files.data i ≠ C) := by
  obtain ⟨r, hb, hrun⟩ := hs.rebuilt
  have hfiles : w₀.kern.files = w.kern.files := by
    rw [hs.files, ht]
    rfl
  have hdata : w₀.kern.files.data i = C := by rw [hfiles, hC]
  have hpos : 0 < C.length := List.length_pos_iff.mpr hne
  rw [hok, hdata] at hrun
  have hbuffer : rebuild_buffer dev path C.length w₀ = .ok (r, w₁) :=
    (congrFun (rebuild_small hpath hpos hsmall) w₀).symm.trans hrun
  have hname : w₀.kern.files.names path = some i := by rw [hfiles, hs.name]
  obtain ⟨hover, hnot⟩ := @rebuild_buffer_any dev path w₀ i C hname hdata
  by_cases ho : Overwrites w₀.kern C.length
  swap
  · obtain ⟨k', hk', hfiles'⟩ := hnot ho
    obtain ⟨rfl, rfl⟩ := Prod.mk.inj (Except.ok.inj (hbuffer.symm.trans hk'))
    exact ⟨by rw [show (World.mk k' w₀.file_info_list).kern.files = _ from hfiles', hfiles],
      .inl ⟨by rw [show (World.mk k' w₀.file_info_list).kern.files = _ from hfiles', hdata], hb⟩⟩
  obtain ⟨k', hk', hq⟩ := hover ho
  obtain ⟨hr, rfl⟩ := Prod.mk.inj (Except.ok.inj (hbuffer.symm.trans hk'))
  have hnames : k'.files.names = w.kern.files.names := by
    rw [hq.files, ← hfiles]
    rfl
  have hbytes : k'.files.data i =
      overlay 0 C 0 ((converted dev C).take (putBack w₀.kern C.length)) := by
    rw [hq.files]
    exact Function.update_self ..
  refine ⟨hnames, ?_⟩
  have hput : putBack w₀.kern C.length =
      putBack (w.kern.tock (probeCalls w.kern + 4)) C.length := by
    rw [putBack, putBack, hs.answer]
  rw [hput] at hbytes hr
  by_cases hsame : overlay 0 C 0 ((converted dev C).take
      (putBack (w.kern.tock (probeCalls w.kern + 4)) C.length)) = C
  · -- what is written is what was there, so it was not written in full
    refine .inl ⟨hbytes.trans hsame, ?_⟩
    have hcut : putBack (w.kern.tock (probeCalls w.kern + 4)) C.length ≠ C.length + 4096 := by
      intro hfull
      have hlen := converted_length dev C
      rw [hfull, List.take_of_length_le (Nat.le_of_eq hlen),
        overlay_all 0 (by rw [hlen]; omega)] at hsame
      rw [hsame] at hlen
      omega
    rw [hb, hr, if_neg hcut]
    rfl
  · refine .inr ⟨⟨?_, ?_, ?_, hsame⟩, fun h => hsame (hbytes.symm.trans h)⟩
    · have := hs.answer 0
      exact this ▸ ho.1
    · intro hhint
      by_contra hno
      have hzero : w₀.kern.freeFd w₀.kern.answer.hint = 0 :=
        w₀.kern.freeFd_eq_zero.mpr ⟨by rw [show w₀.kern.answer = _ from hs.answer 0]; exact hhint,
          fun h0 => hno (hs.zero.mp h0)⟩
      have := ho.2.1
      omega
    · obtain ⟨hmemory, hfull⟩ := ho.2.2
      exact ⟨by rw [← hs.answer 1]; exact hmemory, by
        show reported ((w.kern.tock (probeCalls w.kern + 4)).tock 2).answer C.length = _
        rw [← hs.answer 2]
        exact hfull⟩

/-- Under these answers it is. -/
theorem overwrites {C : List UInt8} (h : Spoils dev (ZeroUsed w.kern)
    (w.kern.tock (probeCalls w.kern + 4)) C) : Overwrites w₀.kern C.length := by
  refine ⟨?_, ?_, ?_, ?_⟩
  · rw [show w₀.kern.answer = _ from hs.answer 0]
    exact h.opens
  · have hnonneg := w₀.kern.freeFd_nonneg w₀.kern.answer.hint
    by_contra hno
    obtain ⟨hhint, h0⟩ := w₀.kern.freeFd_eq_zero.mp (by omega :
      w₀.kern.freeFd w₀.kern.answer.hint = 0)
    rw [show w₀.kern.answer = _ from hs.answer 0] at hhint
    exact h0 (hs.zero.mpr (h.positive hhint))
  · rw [hs.answer 1]
    exact h.fills.1
  · show reported (w₀.kern.tock 2).answer C.length = _
    rw [hs.answer 2]
    exact h.fills.2

/-- A conversion by workers. -/
theorem large (ht : flags.trunc = false) (hpath : path ≠ [])
    (hok : (w.kern.tock (probeCalls w.kern + 3)).answer.fails = false) {C : List UInt8}
    (hC : w.kern.files.data i = C) (hlarge : 4096 * THREADS_COUNT < C.length) :
    w₀.kern.files = w.kern.files ∧
      ∃ r, b = (r == 1) ∧ rebuild_workers dev path C.length w₀ = .ok (r, w₁) := by
  obtain ⟨r, hb, hrun⟩ := hs.rebuilt
  have hfiles : w₀.kern.files = w.kern.files := by
    rw [hs.files, ht]
    rfl
  rw [hok, show w₀.kern.files.data i = C by rw [hfiles, hC]] at hrun
  refine ⟨hfiles, r, hb, ?_⟩
  exact (congrFun (rebuild_large hpath (Nat.not_le.mpr hlarge)) w₀).symm.trans hrun

/-- **Nothing is changed** between the two calls, and there is no success to report. -/
theorem unchanged (hno : ¬ ∃ i, Changes dev w path flags i) :
    (∀ p, w₁.kern.files.names p = none ↔ w.kern.files.names p = none) ∧
      w₁.kern.files.content path = w.kern.files.content path ∧ b = false := by
  have hno := fun hdone hne => hno ⟨i, hs.name, hne, hdone⟩
  obtain ⟨hnames₀, hdata₀⟩ := hs.named
  obtain ⟨C, hC⟩ : ∃ C, w.kern.files.data i = C := ⟨_, rfl⟩
  rw [hC] at hno hdata₀
  have hcontent : w.kern.files.content path = some C := by
    rw [FileStore.content_of_names _ hs.name, hC]
  -- the files of `w₀`, when the conversion does nothing
  have hstays : w₀.kern.files.data i = C → w₁.kern.files = w₀.kern.files → b = false →
      (∀ p, w₁.kern.files.names p = none ↔ w.kern.files.names p = none) ∧
        w₁.kern.files.content path = w.kern.files.content path ∧ b = false := by
    intro hdata hfiles hb
    refine ⟨fun p => by rw [hfiles, hnames₀], ?_, hb⟩
    rw [hcontent, hfiles, FileStore.content_of_names _ (by rw [hnames₀]; exact hs.name), hdata]
  by_cases hne : C = []
  · have hempty : w₀.kern.files.data i = [] := by
      rw [hdata₀, hne]
      exact ite_self []
    obtain ⟨rfl, hb⟩ := hs.of_empty hempty
    exact hstays (by rw [hempty, hne]) rfl hb
  have ht : flags.trunc = false := by
    cases ht : flags.trunc with
    | false => rfl
    | true => exact absurd hne (not_not.mpr (by_contra fun h => hno (.inl ht) h))
  rw [ht] at hdata₀
  have hdata₀ : w₀.kern.files.data i = C := hdata₀
  -- a conversion that is not given a size, or is given no name
  have hnothing : ∀ size : Int, rebuild_file_struct dev path size = pure 0 →
      (if (w.kern.tock (probeCalls w.kern + 3)).answer.fails then 0
        else ((w₀.kern.files.data i).length : Int)) = size → w₁ = w₀ ∧ b = false := by
    intro size hpure hsize
    obtain ⟨r, hb, hrun⟩ := hs.rebuilt
    rw [hsize, hpure] at hrun
    obtain ⟨rfl, rfl⟩ := pure_inv hrun
    exact ⟨rfl, hb⟩
  by_cases hpath : path = []
  · obtain ⟨rfl, hb⟩ := hnothing _ (if_pos hpath) rfl
    exact hstays hdata₀ rfl hb
  cases hok : (w.kern.tock (probeCalls w.kern + 3)).answer.fails with
  | true =>
      obtain ⟨rfl, hb⟩ := hnothing 0
        ((if_neg hpath).trans (if_neg (by decide))) (by rw [hok]; rfl)
      exact hstays hdata₀ rfl hb
  | false =>
      have hquiet := fun hdone => hno (.inr ⟨hpath, hok, hdone⟩) hne
      by_cases hsmall : C.length ≤ 4096 * THREADS_COUNT
      · obtain ⟨hnames, ⟨hdata, hb⟩ | ⟨hspoils, -⟩⟩ := hs.small ht hpath hok hC hne hsmall
        · refine ⟨fun p => by rw [hnames], ?_, hb⟩
          rw [hcontent, FileStore.content_of_names _ (by rw [hnames]; exact hs.name), hdata]
        · exact absurd (.inl ⟨hsmall, hspoils⟩) hquiet
      · have hlarge := Nat.lt_of_not_le hsmall
        obtain ⟨-, r, hb, hrun⟩ := hs.large ht hpath hok hC hlarge
        have hunnamed : ¬ GetsName w₀.kern.host w₀.kern.tick := by
          rw [hs.host, hs.tick]
          exact fun h => hquiet (.inr ⟨hlarge, h⟩)
        obtain ⟨rfl, hfiles⟩ := unnamed_inv hunnamed hrun
        exact hstays hdata₀ hfiles hb

/-- **Something is changed**, when it is decided. -/
theorem changed {j : Nat} (hch : Changes dev w path flags j) (hd : flags.trunc = false →
      4096 * THREADS_COUNT < (w.kern.files.data j).length →
        w.kern.files.names (get_security_path_by_path path) = none ∧
          (w₁.kern.tock 1).answer.fails = false) :
    ¬ ((∀ p, w₁.kern.files.names p = none ↔ w.kern.files.names p = none) ∧
      w₁.kern.files.content path = w.kern.files.content path ∧
        ¬ (b = true ∧ (w₁.kern.tock 1).answer.fails = false)) := by
  rintro ⟨hexist, hsame, hentry⟩
  obtain rfl : i = j := Option.some.inj (hs.name.symm.trans hch.name)
  obtain ⟨hnames₀, hdata₀⟩ := hs.named
  obtain ⟨C, hC⟩ : ∃ C, w.kern.files.data i = C := ⟨_, rfl⟩
  have hne : C ≠ [] := hC ▸ hch.content
  have hcontent : w.kern.files.content path = some C := by
    rw [FileStore.content_of_names _ hs.name, hC]
  rw [hcontent] at hsame
  cases ht : flags.trunc with
  | true =>
      rw [ht] at hdata₀
      obtain ⟨rfl, -⟩ := hs.of_empty hdata₀
      rw [FileStore.content_of_names _ (by rw [hnames₀]; exact hs.name), hdata₀] at hsame
      exact hne (Option.some.inj hsame).symm
  | false =>
      obtain ⟨hpath, hok, hdone⟩ := hch.done.resolve_left (by rw [ht]; decide)
      rw [hC] at hdone hd
      rcases hdone with ⟨hsmall, hspoils⟩ | ⟨hlarge, hnamed⟩
      · obtain ⟨r, -, hrun⟩ := hs.rebuilt
        obtain ⟨hnames, ⟨hdata, -⟩ | ⟨-, hdata⟩⟩ := hs.small ht hpath hok hC hne hsmall
        · -- it would have been written over
          have hfiles : w₀.kern.files = w.kern.files := by
            rw [hs.files, ht]
            rfl
          have hdata' : w₀.kern.files.data i = C := by rw [hfiles, hC]
          rw [hok, hdata'] at hrun
          have hbuffer : rebuild_buffer dev path C.length w₀ = .ok (r, w₁) :=
            (congrFun (rebuild_small hpath (List.length_pos_iff.mpr hne) hsmall) w₀).symm.trans hrun
          obtain ⟨k', hk', hq⟩ := (@rebuild_buffer_any dev path w₀ i C (by rw [hfiles, hs.name])
            hdata').1 (hs.overwrites hspoils)
          obtain ⟨-, rfl⟩ := Prod.mk.inj (Except.ok.inj (hbuffer.symm.trans hk'))
          have hput : putBack w₀.kern C.length =
              putBack (w.kern.tock (probeCalls w.kern + 4)) C.length := by
            rw [putBack, putBack, hs.answer]
          have hbytes : k'.files.data i = overlay 0 C 0
              ((converted dev C).take (putBack w₀.kern C.length)) := by
            rw [hq.files]
            exact Function.update_self ..
          rw [hput] at hbytes
          exact hspoils.differs (hbytes.symm.trans hdata)
        · rw [FileStore.content_of_names _ (by rw [hnames]; exact hs.name)] at hsame
          exact hdata (Option.some.inj hsame)
      · obtain ⟨hnone, hmemory⟩ := hd ht hlarge
        obtain ⟨hfiles, r, hb, hrun⟩ := hs.large ht hpath hok hC hlarge
        have hyes : GetsName w₀.kern.host w₀.kern.tick := by
          rw [hs.host, hs.tick]
          exact hnamed
        rcases named_inv hyes (by rw [hfiles]; exact hnone) hrun with ⟨-, hthere⟩ | rfl
        · exact hthere ((hexist _).mpr hnone)
        · exact hentry ⟨hb, hmemory⟩

end Second

/-! ## The ways to fail -/

section Lost

variable {dev : Device} {path : Path} {flags : Flags} {w w₁ w' : World}

/-- The second call after a conversion: its failure is entered as a descriptor. -/
theorem reopen_fails (hfails : w.kern.answer.fails = true) :
    ∃ w', reopen path flags w = .ok (-1, w') ∧ w'.kern.files = w.kern.files ∧
      w'.file_info_list = if (w.kern.tock 1).answer.fails then w.file_info_list
        else w.file_info_list ++ [⟨-1, path, w.kern.files.names path⟩] := by
  let w₂ : World := { w with kern := w.kern.tock 1 }
  rw [reopen, bind_ok (open_fails hfails), bind_ok (denotes_ok rfl)]
  cases hmem : (w.kern.tock 1).answer.fails with
  | true =>
      rw [bind_ok (add_fails (w := w₂) hmem _ _ _)]
      exact ⟨_, rfl, rfl, rfl⟩
  | false =>
      rw [bind_ok (add_ok (w := w₂) hmem _ _ _)]
      exact ⟨_, rfl, ((w₂.kern.tock 1).unwritten_lseek (-1) _ _).1, rfl⟩

/-- **After a second call that fails** the open has left a trace as far as something had
    changed, or there is an entry for -1. -/
theorem second_fails {b : Bool} (h : at_second dev path flags w = .ok (some b, w₁))
    (hfails : w₁.kern.answer.fails = true) :
    ∃ w', open_supported dev path flags w = .ok (-1, w') ∧ (NoTrace path w w' ↔
      (∀ p, w₁.kern.files.names p = none ↔ w.kern.files.names p = none) ∧
        w₁.kern.files.content path = w.kern.files.content path ∧
          ¬ (b = true ∧ (w₁.kern.tock 1).answer.fails = false)) := by
  obtain ⟨w₀, i, hs⟩ := second_inv h
  obtain ⟨w', hrun, hfiles, htable⟩ : ∃ w',
      (if b then reopen path flags else linker_open path flags) w₁ = .ok (-1, w') ∧
      w'.kern.files = w₁.kern.files ∧ (w'.file_info_list = w.file_info_list ↔
        ¬ (b = true ∧ (w₁.kern.tock 1).answer.fails = false)) := by
    cases b with
    | false =>
        exact ⟨_, open_fails hfails, rfl, iff_of_true hs.table fun h => by cases h.1⟩
    | true =>
        obtain ⟨w', hrun, hfiles, htable⟩ := @reopen_fails path flags w₁ hfails
        refine ⟨w', hrun, hfiles, ?_⟩
        rw [htable, hs.table]
        cases (w₁.kern.tock 1).answer.fails with
        | true => exact iff_of_true rfl fun h => by cases h.2
        | false => exact iff_of_false (by simp) fun hno => hno ⟨rfl, rfl⟩
  refine ⟨w', (open_from_second h).trans hrun, ?_, ?_⟩
  · rintro ⟨hexist, hcontent, htab⟩
    rw [hfiles] at hexist hcontent
    exact ⟨hexist, hcontent, htable.mp htab⟩
  · rintro ⟨hexist, hcontent, hentry⟩
    exact ⟨fun p => by rw [hfiles]; exact hexist p, by rw [hfiles]; exact hcontent,
      htable.mpr hentry⟩

/-- The branch of a new file: the result -1 says that the header was not written in full; then
    the names stay, what was written stays, and entry and descriptor go. -/
theorem open_new_any {k : Kernel} {fd : Int} {id i : Nat} (hfd : 0 ≤ fd)
    (hfind : k.find fd = some id) (hdesc : k.desc id = { inode := i, pos := 0, flags := flags }) :
    ∃ n w', open_new dev path fd { w with kern := k } = .ok (n, w') ∧
      (n = -1 ↔ dev.is_support_special_file_type_by_path path ≠ 1 ∧ k.answer.fails = false ∧
        given (allowed flags.acc.writable (k.tock 1).answer) FILE_HEADER_POLL_SIZE ≠
          FILE_HEADER_POLL_SIZE) ∧
      w'.kern.files.names = k.files.names ∧ (n = -1 →
        w'.kern.files.data i = overlay 0 (k.files.data i)
          (if flags.append then (k.files.data i).length else 0)
          ((entryHeader dev.get_process_name path).take
            (given (allowed flags.acc.writable (k.tock 1).answer) FILE_HEADER_POLL_SIZE)) ∧
        w'.file_info_list = (w.file_info_list ++ [(⟨fd,
          spilled path (entryHeader dev.get_process_name path), k.files.names path⟩ :
            FileInfo)]).eraseP (fun e => e.file_descriptor = fd)) := by
  have hne : fd ≠ -1 := by omega
  rw [open_new]
  by_cases hspecial : dev.is_support_special_file_type_by_path path = 1
  · rw [if_pos hspecial]
    exact ⟨fd, _, rfl, iff_of_false hne fun h => h.1 hspecial, rfl, fun h => absurd h hne⟩
  rw [if_neg hspecial, bind_ok (denotes_ok rfl)]
  let w₂ : World := { w with kern := k }
  cases hmem : k.answer.fails with
  | true =>
      rw [bind_ok (add_fails (w := w₂) hmem _ _ _)]
      exact ⟨fd, _, rfl, iff_of_false hne (fun h => by cases h.2.1), rfl, fun h => absurd h hne⟩
  | false =>
      let H := entryHeader dev.get_process_name path
      have hlen : H.length = FILE_HEADER_POLL_SIZE := entryHeader_length _ _
      let a := allowed flags.acc.writable (k.tock 1).answer
      have hwrite := @sysWrite_any (k.tock 1) fd id hfind (by rw [Kernel.tock_desc, hdesc]) H
      have hcount : ((k.tock 1).sysWrite fd H).1 = reported a FILE_HEADER_POLL_SIZE := by
        rw [hwrite, Kernel.tock_desc, hdesc, hlen]
      have hdata : ((k.tock 1).sysWrite fd H).2.files.data i = overlay 0 (k.files.data i)
          (if flags.append then (k.files.data i).length else 0)
          (H.take (given a FILE_HEADER_POLL_SIZE)) := by
        rw [hwrite, Kernel.tock_desc, hdesc, hlen]
        exact Function.update_self ..
      have hfull := @reported_full a FILE_HEADER_POLL_SIZE (by decide)
      have hnames := (k.tock 1).sysWrite_names fd H
      let w₃ : World := ⟨k.tock 1, w.file_info_list ++ [⟨fd, spilled path H, k.files.names path⟩]⟩
      have hrun : linker_write fd H w₃ = .ok (reported a FILE_HEADER_POLL_SIZE,
          { w₃ with kern := ((k.tock 1).sysWrite fd H).2 }) :=
        linker_write_ok (w := w₃) (Prod.ext hcount rfl)
      rw [bind_ok (add_ok (w := w₂) hmem _ _ _), if_pos rfl, bind_ok hrun]
      by_cases hcut : reported a FILE_HEADER_POLL_SIZE ≠ FILE_HEADER_POLL_SIZE
      · -- the entry and the descriptor go, the file stays
        rw [if_pos hcut, bind_ok (remove_ok fd _)]
        have hclose := ((k.tock 1).sysWrite fd H).2.unwritten_close fd
        refine ⟨-1, _, rfl, iff_of_true rfl ⟨hspecial, rfl, fun h => hcut (hfull.mpr h)⟩,
          (congrArg FileStore.names hclose.1).trans hnames, fun _ => ⟨?_, rfl⟩⟩
        exact (congrFun (congrArg FileStore.data hclose.1) i).trans hdata
      · rw [if_neg hcut]
        exact ⟨fd, _, rfl, iff_of_false hne fun h => hcut fun heq => h.2.2 (hfull.mp heq), hnames,
          fun h => absurd h hne⟩

/-- **The branch of a new file**, when the real call has opened it: what is there after the
    result -1. -/
theorem open_fresh (haccess : w.kern.sysAccess path ≠ 0)
    (hopens : (w.kern.sysOpen path flags).1 ≠ -1) :
    ∃ n w', open_supported dev path flags w = .ok (n, w') ∧
      (n = -1 ↔ HeaderFails dev w path flags) ∧ w'.kern.files.names path ≠ none ∧
      (∀ i, n = -1 → w.kern.files.names path = some i →
        w'.kern.files.names = w.kern.files.names ∧
        w'.kern.files.data i = headed dev w path flags (w.kern.files.data i) ∧
        w'.file_info_list =
          withdrawn w (spilled path (entryHeader dev.get_process_name path)) i) := by
  obtain ⟨hok, -⟩ := not_or.mp ((not_congr (w.kern.sysOpen_failed path flags)).mp hopens)
  have hok : w.kern.answer.fails = false := by simpa using hok
  have hfd := w.kern.sysOpen_fd hopens
  obtain ⟨i, ho⟩ := (w.kern.sysOpen_cases path flags).resolve_left fun h => hopens (by rw [h])
  let fd := (w.kern.sysOpen path flags).1
  let k := (w.kern.sysOpen path flags).2
  have hopen : linker_open path flags w = .ok (fd, { w with kern := k }) := rfl
  have ho : Kernel.Opened w.kern path flags fd i k := ho
  have hthere : k.files.names path ≠ none := by
    rw [ho.name]
    exact Option.some_ne_none i
  have hfirst : access path w = .ok (w.kern.sysAccess path, w) := rfl
  rw [open_supported, bind_ok hfirst, if_neg haccess, bind_ok (pure_ok _ _), bind_ok hopen]
  by_cases hpos : fd > 0
  swap
  · rw [if_neg hpos]
    have hne : fd ≠ -1 := hopens
    refine ⟨fd, _, rfl, iff_of_false hne fun h => hpos ?_, hthere, fun _ h => absurd h hne⟩
    have := h.positive
    rwa [← hfd] at this
  rw [if_pos hpos, if_pos haccess]
  -- the kernel has answered one call
  have hanswer : ∀ n, (k.tock n).answer = (w.kern.tock (n + 1)).answer := by
    intro n
    show k.host.answer (k.tick + n) = w.kern.host.answer (w.kern.tick + (n + 1))
    rw [ho.gained.host, w.kern.sysOpen_tick path flags, Nat.add_assoc, Nat.add_comm 1 n]
  obtain ⟨n, w', hrun, hn, hnames, hend⟩ := @open_new_any dev path flags w k fd
    w.kern.nextDesc i (Int.le_of_lt hpos) ho.gained.find_self ho.desc
  refine ⟨n, w', hrun, hn.trans ?_, by rw [hnames]; exact hthere, fun j hneg hname => ?_⟩
  · rw [show k.answer = _ from hanswer 0, hanswer 1]
    refine ⟨fun h => ⟨h.1, hok, by rw [← hfd]; exact hpos, h.2.1, h.2.2⟩,
      fun h => ⟨h.common, h.memory, h.cut⟩⟩
  · obtain ⟨hdata, hlist⟩ := hend hneg
    rw [hanswer 1] at hdata
    -- the file that was opened, emptied or not
    obtain ⟨rfl, hnames₁, hbefore⟩ : i = j ∧ k.files.names = w.kern.files.names ∧
        k.files.data i = if flags.trunc then [] else w.kern.files.data i := by
      have hfiles := ho.files
      generalize k.files = fs' at hfiles ⊢
      cases hfiles with
      | existing hi _ ht => exact ⟨Option.some.inj (hi.symm.trans hname), rfl, by rw [ht]; rfl⟩
      | emptied hi _ ht =>
          exact ⟨Option.some.inj (hi.symm.trans hname), rfl,
            by rw [ht]; exact FileStore.store_data_self ..⟩
      | created hi => cases hi.symm.trans hname
    rw [hbefore] at hdata
    refine ⟨hnames.trans hnames₁, hdata, ?_⟩
    rw [hlist, hnames₁, hname, withdrawn, ← hfd]

/-- A second call that returns -1 has been refused by the host. -/
theorem second_refused {b : Bool} (h : at_second dev path flags w = .ok (some b, w₁))
    (hrun : (if b then reopen path flags else linker_open path flags) w₁ = .ok (-1, w')) :
    w₁.kern.answer.fails = true := by
  obtain ⟨w₀, i, hs⟩ := second_inv h
  have hopen : (w₁.kern.sysOpen path flags).1 = -1 := by
    cases b with
    | false =>
        have hrun' : linker_open path flags w₁ = .ok (-1, w') := hrun
        exact (kernelCall_inv hrun').1.symm
    | true =>
        have hrun' : reopen path flags w₁ = .ok (-1, w') := hrun
        obtain ⟨fd, w₂, h1, h2⟩ := bind_inv hrun'
        rcases linker_open_inv h1 with ⟨rfl, rfl⟩ | ⟨i, k₂, rfl, ho⟩
        · exact (kernelCall_inv h1).1.symm
        · obtain ⟨hfd, -⟩ : -1 = fd ∧ Opening dev ⟨true, true, true⟩ w₁ w' path flags fd :=
            track_inv (c := True) (.inl rfl) (.refl _) rfl ho (by
              simp only [if_true]
              exact h2)
          have := ho.gained.nonneg
          omega
  rcases (w₁.kern.sysOpen_failed path flags).mp hopen with hfails | ⟨hn, -⟩ | ⟨-, hx⟩
  · exact hfails
  · exact absurd hn hs.there
  · cases hx.symm.trans hs.excl

/-- **The ways to the result -1**: the first real call fails, the header of a file that counts
    as new is not written in full, or the second real call is refused. -/
theorem lost_inv (h : open_supported dev path flags w = .ok (-1, w')) :
    (∃ w₀, Still w w₀ ∧ w₀.file_info_list = w.file_info_list ∧
      (w₀.kern.sysOpen path flags).1 = -1 ∧ w' = { w₀ with kern := w₀.kern.tock 1 }) ∨
    (w.kern.sysAccess path ≠ 0 ∧ (w.kern.sysOpen path flags).1 ≠ -1) ∨
    SecondRefused dev w path flags := by
  obtain ⟨fs, w₀, h1, h2⟩ := bind_inv h
  obtain ⟨rfl, hfs⟩ := access_inv h1
  obtain ⟨header, w₂, h3, h4⟩ := bind_inv h2
  obtain ⟨hstill, hl⟩ := header_inv h3
  obtain ⟨fd, w₃, h5, h6⟩ := bind_inv h4
  obtain ⟨hreturned, -⟩ := kernelCall_inv h5
  rcases linker_open_inv h5 with ⟨rfl, rfl⟩ | ⟨i, k₃, rfl, ho⟩
  · -- the first call
    rw [if_neg (by decide)] at h6
    obtain ⟨-, rfl⟩ := pure_inv h6
    exact .inl ⟨w₂, hstill, hl, hreturned.symm, rfl⟩
  right
  have hnonneg := ho.gained.nonneg
  by_cases hpos : fd > 0
  swap
  · rw [if_neg hpos] at h6
    obtain ⟨rfl, -⟩ := pure_inv h6
    omega
  rw [if_pos hpos] at h6
  by_cases hzero : fs = 0
  · right
    rw [if_neg (fun hne => hne hzero)] at h6
    cases header with
    | some header =>
        obtain ⟨hfd, -⟩ : -1 = fd ∧ Opening dev ⟨true, true, true⟩ w₂ w' path flags fd :=
          track_inv (.inr ⟨_, rfl⟩) (.refl _) rfl ho h6
        omega
    | none =>
        obtain ⟨stage, w₁, h7, h8⟩ := bind_inv h6
        have hat : at_second dev path flags w₀ = .ok (stage, w₁) :=
          (bind_ok h1).trans ((bind_ok h3).trans ((bind_ok h5).trans
            ((congrFun (if_pos ⟨hpos, hzero, rfl⟩) _).trans h7)))
        cases stage with
        | none =>
            obtain ⟨rfl, -⟩ := pure_inv h8
            omega
        | some b => exact ⟨b, w₁, hat, second_refused hat ((open_from_second hat).symm.trans h)⟩
  · -- there was no file, or it was not seen
    left
    rw [if_neg hzero] at h3
    obtain ⟨-, rfl⟩ := pure_inv h3
    refine ⟨fun h0 => hzero (hfs.trans h0), ?_⟩
    rw [← hreturned]
    omega

end Lost

/-! ## Both directions -/

/-- A new file that is opened without write access, so that no header can be written. -/
structure Refused (dev : Device) (w : World) (path : Path) (flags : Flags) : Prop where
  absent : w.kern.files.names path = none
  creat : flags.creat = true
  common : dev.is_support_special_file_type_by_path path ≠ 1
  positive : 0 < w.kern.freeFd w.kern.answer.hint
  unwritable : flags.acc.writable = false

/-- On a calm host only a missing access right keeps the header from being written. -/
theorem headerCut_calm {dev : Device} {w : World} {path : Path} {flags : Flags}
    (hc : w.kern.host.Calm) : HeaderCut dev w path flags ↔ Refused dev w path flags := by
  have hgiven : given (allowed flags.acc.writable (w.kern.tock 2).answer) FILE_HEADER_POLL_SIZE ≠
      FILE_HEADER_POLL_SIZE ↔ flags.acc.writable = false := by
    cases flags.acc.writable with
    | true =>
        rw [allowed_true]
        exact iff_of_false (fun hne => hne (given_calm hc _ _)) (by decide)
    | false =>
        refine iff_of_true ?_ rfl
        rw [given, if_pos (by simp [allowed])]
        decide
  constructor
  · intro h
    exact ⟨h.absent, h.creat, h.fails.common, h.fails.positive, hgiven.mp h.fails.cut⟩
  · intro h
    exact ⟨h.absent, h.creat, h.common, (hc _).fails, h.positive, (hc _).fails,
      hgiven.mpr h.unwritable⟩

section Trace

variable {dev : Device} {w w' : World} {path : Path} {flags : Flags}

/-- An open that creates or overwrites and does not write its header. -/
theorem header_leaves (h : HeaderCut dev w path flags ∨ ∃ i, HeaderOver dev w path flags i) :
    ∃ w', open_supported dev path flags w = .ok (-1, w') ∧ ¬ NoTrace path w w' := by
  rcases h with h | ⟨i, h⟩
  · have hopens : (w.kern.sysOpen path flags).1 ≠ -1 := by
      rw [ne_eq, w.kern.sysOpen_failed]
      rintro (hf | ⟨-, hf⟩ | ⟨hf, -⟩)
      · cases hf.symm.trans h.fails.opens
      · cases hf.symm.trans h.creat
      · exact hf h.absent
    have haccess : w.kern.sysAccess path ≠ 0 := by
      rw [w.kern.sysAccess_none h.absent]
      decide
    obtain ⟨n, w', hrun, hn, hthere, -⟩ := @open_fresh dev path flags w haccess hopens
    rw [hn.mpr h.fails] at hrun
    exact ⟨w', hrun, fun hno => hthere ((hno.exist path).mpr h.absent)⟩
  · have hopens : (w.kern.sysOpen path flags).1 ≠ -1 := by
      rw [ne_eq, w.kern.sysOpen_failed]
      rintro (hf | ⟨hf, -⟩ | ⟨-, hf⟩)
      · cases hf.symm.trans h.fails.opens
      · cases hf.symm.trans h.name
      · cases hf.symm.trans h.excl
    have haccess : w.kern.sysAccess path ≠ 0 := by
      rw [w.kern.sysAccess_denied h.denied]
      decide
    obtain ⟨n, w', hrun, hn, hthere, hend⟩ := @open_fresh dev path flags w haccess hopens
    obtain rfl := hn.mpr h.fails
    obtain ⟨hnames, hdata, hlist⟩ := hend i rfl h.name
    refine ⟨w', hrun, fun hno => ?_⟩
    rcases h.differs with hbytes | htable
    · have hcontent := hno.content
      rw [FileStore.content_of_names _ (by rw [hnames]; exact h.name),
        FileStore.content_of_names _ h.name, hdata] at hcontent
      exact hbytes (Option.some.inj hcontent)
    · exact htable (hlist.symm.trans hno.table)

/-- On the branch of a new file nothing is left otherwise. -/
theorem fresh_unchanged (hno : ¬ (HeaderCut dev w path flags ∨ ∃ i, HeaderOver dev w path flags i))
    (haccess : w.kern.sysAccess path ≠ 0) (hopens : (w.kern.sysOpen path flags).1 ≠ -1)
    (h : open_supported dev path flags w = .ok (-1, w')) : NoTrace path w w' := by
  obtain ⟨n, w₁, hrun, hn, -, hend⟩ := @open_fresh dev path flags w haccess hopens
  obtain ⟨rfl, rfl⟩ := Prod.mk.inj (Except.ok.inj (hrun.symm.trans h))
  have hfails := hn.mp rfl
  obtain ⟨hcut, hover⟩ := not_or.mp hno
  obtain ⟨-, hwhy⟩ := not_or.mp ((not_congr (w.kern.sysOpen_failed path flags)).mp hopens)
  obtain ⟨hcreat, hexcl⟩ := not_or.mp hwhy
  cases hname : w.kern.files.names path with
  | none =>
      refine absurd ⟨hname, ?_, hfails⟩ hcut
      by_contra hcr
      exact hcreat ⟨hname, by simpa using hcr⟩
  | some i =>
      obtain ⟨hnames, hdata, hlist⟩ := hend i rfl hname
      have hdenied : w.kern.answer.denies = true := by
        by_contra hd
        exact haccess (w.kern.sysAccess_some (by simpa using hd) hname)
      have hx : (flags.creat && flags.excl) = false := by
        by_contra hx
        exact hexcl ⟨by rw [hname]; exact Option.some_ne_none i, by simpa using hx⟩
      have hsame : ¬ (headed dev w path flags (w.kern.files.data i) ≠ w.kern.files.data i ∨
          withdrawn w (spilled path (entryHeader dev.get_process_name path)) i ≠
            w.file_info_list) := fun hd => hover ⟨i, hname, hdenied, hx, hfails, hd⟩
      obtain ⟨hbytes, htable⟩ := not_or.mp hsame
      refine ⟨fun p => by rw [hnames], ?_, hlist.trans (not_not.mp htable)⟩
      rw [FileStore.content_of_names _ (by rw [hnames]; exact hname),
        FileStore.content_of_names _ hname, hdata, not_not.mp hbytes]

end Trace

/-- **A failing open and its traces.**  Whatever calls fail, an open that returns -1 leaves no
    trace unless it is said to; and where that is decided, it then does.  On a calm host no open
    returns -1 that the real call would have let succeed, exactly if it does not create a file
    without write access. -/
theorem no_trace_iff {dev : Device} {env : Env} {w : World} {path : Path} {flags : Flags}
    (henv : env.Active) (hsup : dev.is_support_file_type_by_path path ≠ 0) :
    (¬ Leaves dev w path flags →
      ∀ w', open_file dev env path flags w = .ok (-1, w') → NoTrace path w w') ∧
    (Decided dev w path flags →
      (∀ w', open_file dev env path flags w = .ok (-1, w') → NoTrace path w w') →
        ¬ Leaves dev w path flags) ∧
    (w.kern.host.Calm →
      (((w.kern.sysOpen path flags).1 ≠ -1 →
        ∀ fd w', open_file dev env path flags w = .ok (fd, w') → fd ≠ -1) ↔
      ¬ Refused dev w path flags)) := by
  rw [open_active henv hsup]
  refine ⟨fun hno w' hrun => ?_, fun hdecided hall => ?_, fun hc => ⟨fun hall hrefused => ?_, ?_⟩⟩
  · obtain ⟨hcut, hno⟩ := not_or.mp hno
    obtain ⟨hover, hsecond⟩ := not_or.mp hno
    rcases lost_inv hrun with ⟨w₀, hstill, hl, -, rfl⟩ | ⟨haccess, hopens⟩ | hrefused
    · exact .of_same hstill.1 hl
    · exact fresh_unchanged (not_or.mpr ⟨hcut, hover⟩) haccess hopens hrun
    · obtain ⟨b, w₁, hat, hfails⟩ := hrefused
      obtain ⟨w₀, i, hs⟩ := second_inv hat
      obtain ⟨w₂, hrun₂, htrace⟩ := second_fails hat hfails
      obtain ⟨-, rfl⟩ := Prod.mk.inj (Except.ok.inj (hrun₂.symm.trans hrun))
      obtain ⟨hexist, hcontent, hb⟩ := hs.unchanged fun hch => hsecond ⟨⟨b, w₁, hat, hfails⟩, hch⟩
      exact htrace.mpr ⟨hexist, hcontent, fun h => by rw [hb] at h; cases h.1⟩
  · rintro (hcut | hover | ⟨⟨b, w₁, hat, hfails⟩, i, hch⟩)
    · obtain ⟨w', hrun, htrace⟩ := header_leaves (.inl hcut)
      exact htrace (hall w' hrun)
    · obtain ⟨w', hrun, htrace⟩ := header_leaves (.inr hover)
      exact htrace (hall w' hrun)
    · obtain ⟨w₀, j, hs⟩ := second_inv hat
      obtain ⟨w', hrun, htrace⟩ := second_fails hat hfails
      refine hs.changed hch (fun ht hlarge => ?_) (htrace.mp (hall w' hrun))
      obtain ⟨hnone, hmemory⟩ := hdecided ht _ (FileStore.content_of_names _ hch.name) hlarge
      exact ⟨hnone, hmemory b w₁ hat hfails⟩
  · have hcut := (headerCut_calm hc).mpr hrefused
    obtain ⟨w', hrun, -⟩ := header_leaves (.inl hcut)
    refine hall ?_ (-1) w' hrun rfl
    rw [ne_eq, w.kern.sysOpen_failed]
    rintro (h | ⟨-, h⟩ | ⟨h, -⟩)
    · cases h.symm.trans hcut.fails.opens
    · cases h.symm.trans hcut.creat
    · exact h hcut.absent
  · rintro hrefused hsucceeds fd w' hrun rfl
    rcases lost_inv hrun with ⟨w₀, ⟨hfiles, hhost⟩, -, hopen, -⟩ | ⟨haccess, hopens⟩ |
      ⟨b, w₁, hat, hfails⟩
    · -- the real call fails for its arguments, also before the probe
      have hfails : w₀.kern.answer.fails = false := Kernel.answer_fails (by rw [hhost]; exact hc)
      have hwhy := ((w₀.kern.sysOpen_failed path flags).mp hopen).resolve_left
        (by rw [hfails]; decide)
      rw [hfiles] at hwhy
      exact hsucceeds ((w.kern.sysOpen_failed path flags).mpr (.inr hwhy))
    · obtain ⟨n, w₁, hrun₁, hn, -⟩ := @open_fresh dev path flags w haccess hopens
      obtain ⟨rfl, -⟩ := Prod.mk.inj (Except.ok.inj (hrun₁.symm.trans hrun))
      have habsent : w.kern.files.names path = none := by
        by_contra hne
        exact haccess (w.kern.sysAccess_zero.mpr ⟨Kernel.answer_denies hc, hne⟩)
      obtain ⟨-, hwhy⟩ := not_or.mp ((not_congr (w.kern.sysOpen_failed path flags)).mp hopens)
      have hcreat : flags.creat = true := by
        by_contra hcr
        exact hwhy (.inl ⟨habsent, by simpa using hcr⟩)
      exact hrefused ((headerCut_calm hc).mp ⟨habsent, hcreat, hn.mp rfl⟩)
    · obtain ⟨w₀, i, hs⟩ := second_inv hat
      have hcalm : w₁.kern.answer.fails = false :=
        Kernel.answer_fails (by rw [hs.kept]; exact hc)
      cases hfails.symm.trans hcalm

/-- A file of one byte; the host lets these calls fail. -/
def failsAt (ns : List Nat) : World :=
  (sevens 1).under { answer := fun t => { fails := decide (t ∈ ns) } }

/-- The conversion fails to read the file, in the eleventh call, and the second real call fails,
    in the thirteenth: nothing has happened.  On a calm host the file opens. -/
theorem no_trace_second_call :
    (∃ w', open_file aDevice activeEnv Kernel.aName { acc := .rdwr } (failsAt [10, 12]) =
        .ok (-1, w') ∧ NoTrace Kernel.aName (failsAt [10, 12]) w') ∧
    ∀ fd w', open_file aDevice activeEnv Kernel.aName { acc := .rdonly } (sevens 1) =
      .ok (fd, w') → fd ≠ -1 := by
  have henv : activeEnv.Active := ⟨rfl, rfl, rfl⟩
  constructor
  · obtain ⟨w', hrun⟩ : ∃ w', open_file aDevice activeEnv Kernel.aName { acc := .rdwr }
        (failsAt [10, 12]) = .ok (-1, w') := ⟨_, rfl⟩
    refine ⟨w', hrun, (no_trace_iff henv (by decide)).1 ?_ w' hrun⟩
    rintro (hcut | ⟨i, hover⟩ | ⟨-, i, hch⟩)
    · cases hcut.creat
    · cases hover.denied
    · obtain rfl : 1 = i := Option.some.inj hch.name
      rcases hch.done with ht | ⟨-, -, ⟨-, hspoils⟩ | ⟨hlarge, -⟩⟩
      · cases ht
      · -- the call after the allocation is the one that fails
        exact absurd hspoils.fills.2 (by decide)
      · exact absurd hlarge (by decide)
  · exact ((no_trace_iff henv (by decide)).2.2 (fun _ => ⟨rfl, rfl, rfl⟩)).mpr
      (fun hrefused => by cases hrefused.creat) (by decide)

/-- Creating a file for reading fails on a calm host, and the file stays.  Emptying a file fails
    at the second real call, the ninth in all, and the bytes are gone. -/
theorem open_leaves_traces :
    ((sevens 1).kern.host.Calm ∧
      ((sevens 1).kern.sysOpen [0x67] { acc := .rdonly, creat := true }).1 ≠ -1 ∧
      ∃ w', open_file aDevice activeEnv [0x67] { acc := .rdonly, creat := true } (sevens 1) =
        .ok (-1, w') ∧ ¬ NoTrace [0x67] (sevens 1) w') ∧
    ∃ w', open_file aDevice activeEnv Kernel.aName { acc := .rdwr, trunc := true } (failsAt [8]) =
      .ok (-1, w') ∧ ¬ NoTrace Kernel.aName (failsAt [8]) w' := by
  have henv : activeEnv.Active := ⟨rfl, rfl, rfl⟩
  refine ⟨⟨fun _ => ⟨rfl, rfl, rfl⟩, by decide, ?_⟩, ?_⟩
  · have hcut : HeaderCut aDevice (sevens 1) [0x67] { acc := .rdonly, creat := true } :=
      ⟨rfl, rfl, by decide, rfl, by decide, rfl, by decide⟩
    obtain ⟨w', hrun, htrace⟩ := header_leaves (.inl hcut)
    exact ⟨w', by rw [open_active henv (by decide)]; exact hrun, htrace⟩
  · obtain ⟨w₁, hat, hfails⟩ : ∃ w₁,
        at_second aDevice Kernel.aName { acc := .rdwr, trunc := true } (failsAt [8]) =
          .ok (some false, w₁) ∧ w₁.kern.answer.fails = true := ⟨_, rfl, rfl⟩
    obtain ⟨w', hrun, htrace⟩ := second_fails hat hfails
    obtain ⟨w₀, i, hs⟩ := second_inv hat
    have hch : Changes aDevice (failsAt [8]) Kernel.aName { acc := .rdwr, trunc := true } 1 :=
      ⟨rfl, by decide, .inl rfl⟩
    refine ⟨w', ?_, fun hno => hs.changed hch (fun ht => by cases ht) (htrace.mp hno)⟩
    rw [open_active henv (by decide)]
    exact hrun

end TeTrace
