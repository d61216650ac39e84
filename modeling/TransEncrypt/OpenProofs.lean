import TransEncrypt.RebuildProofs

/-! # The hooked open, dup and close

    `open` looks for a header before it opens the file.  A new file gets a header, an
    encrypted one is remembered in the table, and a plain one without `<path>.s` is
    converted and opened again.

    * `probe_calm`, `open_encrypted_calm`, `open_new_calm`: what a calm host makes of an
      existing encrypted file and of a new one;
    * `open_inv`: what an open leaves of descriptors and table, whatever the host does. -/

namespace TeOpen

open Posix Overlay TeHeader Hoare TeProgram TeDetector TeWorker TeRebuild

/-! ## The programs -/

/-- The header of an open file, when it is a full one of an encrypted file. -/
def read_header (fd : Int) : Sys (Option (List UInt8)) := do
  if (← calloc) then do
    let r ← linker_read fd FILE_HEADER_POLL_SIZE
    let header := memcpy (zeroed FILE_HEADER_POLL_SIZE) 0 r.2
    if r.1 ≠ FILE_HEADER_POLL_SIZE then pure none
    else if is_encrypted_by_file_header header ≠ FILE_TYPE_RIGHTS then pure none
    else pure (some header)
  else pure none

/-- The part of `open` before the real one: the header of the file that is there. -/
def probe_header (path : Path) : Sys (Option (List UInt8)) := do
  let fd ← linker_open path { acc := .rdonly }
  if fd > 0 then do
    let header ← read_header fd
    let _ ← linker_close fd
    pure (id header)
  else pure none

/-- The file did not exist before. -/
def open_new (dev : Device) (path : Path) (fd : Int) : Sys Int := do
  if dev.is_support_special_file_type_by_path path = 1 then pure fd
  else do
    let origin ← denotes path
    let header := entryHeader dev.get_process_name path
    if (← file_info_list_add fd (spilled path header) origin) then do
      let n ← linker_write fd header
      if n ≠ FILE_HEADER_POLL_SIZE then do
        file_info_list_remove_by_fd fd
        let _ ← linker_close fd
        pure (-1)
      else pure fd
    else pure fd

/-- The second `open` of a file that has just been converted.  The header of the entry is not
    filled in. -/
def reopen (path : Path) (flags : Flags) : Sys Int := do
  let fd ← linker_open path flags
  let origin ← denotes path
  if (← file_info_list_add fd path origin) then do
    let _ ← linker_lseek fd FILE_HEADER_POLL_SIZE .set
    pure fd
  else pure fd

/-- The file has no header: unless `<path>.s` exists, the descriptor is closed and the
    file converted.  None when nothing was closed, else whether there was a conversion. -/
def convert_plain (dev : Device) (path : Path) (fd : Int) : Sys (Option Bool) := do
  if (← calloc) then
    if ¬ Fits path then undefinedBehaviour     -- the name is printed past its buffer
    else do
      let r ← access (get_security_path_by_path path)
      if r ≠ 0 then do
        let _ ← linker_close fd
        let size ← get_file_size_by_path path
        let result ← rebuild_file_struct dev path size
        pure (some (result == 1))
      else pure none
  else pure none

def open_plain (dev : Device) (path : Path) (flags : Flags) (fd : Int) : Sys Int := do
  match (← convert_plain dev path fd) with
  | none => pure fd
  | some true => reopen path flags
  | some false => linker_open path flags

/-- The file has a header, which is copied to its entry. -/
def open_encrypted (path : Path) (flags : Flags) (header : List UInt8) (fd : Int) : Sys Int := do
  let origin ← denotes path
  if (← file_info_list_add fd (spilled path header) origin) then do
    if flags.append = false then do
      let _ ← linker_lseek fd FILE_HEADER_POLL_SIZE .set
      pure fd
    else pure fd
  else pure fd

/-- `open` of a file of a supported type. -/
def open_supported (dev : Device) (path : Path) (flags : Flags) : Sys Int := do
  let fs ← access path
  let header ← (if fs = 0 then probe_header path else pure none)
  let fd ← linker_open path flags
  if fd > 0 then
    if fs ≠ 0 then open_new dev path fd
    else match header with
      | none => open_plain dev path flags fd
      | some header => open_encrypted path flags header fd
  else pure fd

/-- `open`. -/
def open_file (dev : Device) (env : Env) (path : Path) (flags : Flags) : Sys Int :=
  hooked env (-1) (linker_open path flags) do
    if dev.is_support_file_type_by_path path = 0 then linker_open path flags
    else open_supported dev path flags

def close (env : Env) (fd : Int) : Sys Int :=
  hooked env (-1) (linker_close fd) do
    match (← file_info_list_query_by_fd fd) with
    | some _ => do
        let _ ← linker_lseek fd 0 .set
        file_info_list_remove_by_fd fd
        linker_close fd
    | none => linker_close fd

def dup (env : Env) (oldfd : Int) : Sys Int :=
  hooked env (-1) (linker_dup oldfd) do
    if (← passes_through oldfd) then linker_dup oldfd
    else do
      let fd ← linker_dup oldfd
      if fd > 0 then do
        match (← file_info_list_query_by_fd oldfd) with
        | some info => do
            let _ ← file_info_list_add fd info.file_path info.origin
            pure fd
        | none => pure fd
      else pure fd

theorem open_active {dev : Device} {env : Env} {path : Path} {flags : Flags}
    (henv : env.Active) (hsup : dev.is_support_file_type_by_path path ≠ 0) :
    open_file dev env path flags = open_supported dev path flags := by
  rw [open_file, hooked_active henv, if_neg hsup]

/-! ## Copies and closes of tracked descriptors on a calm host -/

section Tracked

variable {env : Env} {w : World} {fd : Int} {id : Nat} {info : FileInfo} (henv : env.Active)
  (hc : w.kern.host.Calm) (hfind : w.kern.find fd = some id)
  (hquery : w.file_info_list.find? (fun e => e.file_descriptor = fd) = some info)
include henv hc hquery

/-- The copy has an entry of its own. -/
theorem dup_calm (h0 : w.kern.InUse 0) :
    let nfd := w.kern.freeFd w.kern.answer.hint
    let k := (w.kern.tock 1).bindFd w.kern.answer.hint id (w.kern.find_lt hfind)
    dup env fd w =
      .ok (nfd, ⟨k.tock 1, w.file_info_list ++ [⟨nfd, info.file_path, info.origin⟩]⟩) := by
  intro nfd k
  have hadd := add_calm (w := { w with kern := k }) hc nfd info.file_path info.origin
  rw [dup, hooked_active henv,
    bind_ok (passes_through_tracked (query_isSome_iff.mp (by rw [hquery]; rfl))),
    if_neg (by decide), bind_ok (linker_dup_ok (Kernel.sysDup_calm hc hfind)),
    if_pos (w.kern.freeFd_pos h0 _), bind_ok (query_ok fd _)]
  simp only [hquery]
  rw [bind_ok hadd]
  rfl

include hfind

/-- The cursor is rewound, entry and descriptor go. -/
theorem close_calm (hreg : (w.kern.desc id).regular = true) :
    close env fd w = .ok (0,
      { kern := ((w.kern.setPos id 0).tock 2).dropFd fd,
        file_info_list := w.file_info_list.eraseP (fun e => e.file_descriptor = fd) }) := by
  let k₁ := (w.kern.tock 1).setPos id 0
  have hseek : linker_lseek fd 0 .set w = .ok (0, { w with kern := k₁ }) := by
    apply linker_lseek_ok
    rw [Kernel.sysLseek_calm hc hfind hreg]
    rfl
  have hclose : ∀ l, linker_close fd ⟨k₁, l⟩ = .ok (0, ⟨(k₁.tock 1).dropFd fd, l⟩) := fun l =>
    linker_close_ok (w := ⟨k₁, l⟩) (Kernel.sysClose_calm (k := k₁) hc hfind)
  rw [close, hooked_active henv, bind_ok (query_ok fd w), hquery]
  show (linker_lseek fd 0 .set >>= fun _ => file_info_list_remove_by_fd fd >>= fun _ =>
    linker_close fd) w = _
  rw [bind_ok hseek, bind_ok (remove_ok fd _)]
  exact hclose _

end Tracked

/-! ## What an open leaves, whatever the host does -/

/-- `fd` is a new descriptor, for the description `id`, on the file `i` of `path`. -/
structure NewFd (w w' : World) (path : Path) (flags : Flags) (fd : Int) (i id pos : Nat) :
    Prop where
  fresh : ¬ w.kern.InUse fd
  nonneg : 0 ≤ fd
  find : w'.kern.find fd = some id
  desc : w'.kern.desc id = { inode := i, pos := pos, flags := flags }
  name : w'.kern.files.names path = some i

/-- An open up to the second call of the real one: whether it is about to open a file
    that it has just converted. -/
def at_reopen (dev : Device) (path : Path) (flags : Flags) : Sys Bool := do
  let fs ← access path
  let header ← (if fs = 0 then probe_header path else pure none)
  let fd ← linker_open path flags
  if fd > 0 ∧ fs = 0 ∧ header = none then do
    let stage ← convert_plain dev path fd
    pure (stage == some true)
  else pure false

/-- The second call of the real `open`, if it comes to it, does not fail; or it does, and
    there is no memory for an entry either. -/
def Reopens (dev : Device) (env : Env) (path : Path) (flags : Flags) (w : World) : Prop :=
  env.Active → dev.is_support_file_type_by_path path ≠ 0 →
    ∀ w₁, at_reopen dev path flags w = .ok (true, w₁) → (w₁.kern.sysOpen path flags).1 = -1 →
      (w₁.kern.tock 1).answer.fails = true

/-- What an open does to the table: nothing, one entry for the new descriptor, or an
    entry for the descriptor -1 of a second open that failed. -/
inductive Entered (dev : Device) (env : Env) (w w' : World) (path : Path) (flags : Flags)
    (fd : Int) : Prop where
  | same : w'.file_info_list = w.file_info_list → Entered dev env w w' path flags fd
  | added (i id pos : Nat) (p : Path) : NewFd w w' path flags fd i id pos → Recorded path p →
      w'.file_info_list = w.file_info_list ++ [⟨fd, p, some i⟩] →
      Entered dev env w w' path flags fd
  | lost : ¬ Reopens dev env path flags w → Entered dev env w w' path flags fd

/-- All that is said about a call of `open` that returned. -/
structure Opening (dev : Device) (env : Env) (w w' : World) (path : Path) (flags : Flags)
    (fd : Int) : Prop where
  kept : Kernel.Kept w.kern w'.kern
  newFd : 0 ≤ fd → ∃ i id pos, NewFd w w' path flags fd i id pos
  entered : (∀ e ∈ w.file_info_list, w.kern.InUse e.file_descriptor) →
    Entered dev env w w' path flags fd

section Inversion

variable {dev : Device} {env : Env} {w w₁ w' : World} {path : Path} {flags : Flags} {fd : Int}
  {i : Nat}

/-- A descriptor that was opened on the way and kept. -/
theorem newFd_of {k₂ : Kernel} (hk : Kernel.Kept w.kern w₁.kern)
    (ho : Kernel.Opened w₁.kern path flags fd i k₂) (hk' : Kernel.Kept k₂ w'.kern)
    (hnames : w'.kern.files.names = k₂.files.names) :
    ∃ id pos, NewFd w w' path flags fd i id pos := by
  have hf := ho.gained.find_self
  obtain ⟨pos, hpos⟩ := hk'.desc hf
  refine ⟨w₁.kern.nextDesc, pos, fun hu => ho.gained.fresh (hk.inUse hu), ho.gained.nonneg,
    hk'.find hf, ?_, ?_⟩
  · rw [hpos, ho.desc]
  · rw [hnames]
    exact ho.name

/-- Right after the call. -/
theorem newFd_opened {k₂ : Kernel} (hk : Kernel.Kept w.kern w₁.kern)
    (ho : Kernel.Opened w₁.kern path flags fd i k₂) :
    ∃ id pos, NewFd w { w₁ with kern := k₂ } path flags fd i id pos :=
  newFd_of hk ho (.refl k₂) rfl

/-- An open that only calls the real one, after steps that leave the table alone. -/
theorem opening_raw (hk : Kernel.Kept w.kern w₁.kern)
    (hl : w₁.file_info_list = w.file_info_list)
    (h : linker_open path flags w₁ = .ok (fd, w')) : Opening dev env w w' path flags fd := by
  rcases linker_open_inv h with ⟨rfl, rfl⟩ | ⟨i, k₂, rfl, ho⟩
  · exact ⟨hk.trans (.tock _ 1), fun hpos => absurd hpos (by decide), fun _ => .same hl⟩
  · obtain ⟨id, pos, hnew⟩ := newFd_opened hk ho
    exact ⟨hk.trans ho.gained.kept, fun _ => ⟨i, id, pos, hnew⟩, fun _ => .same hl⟩

/-- A new descriptor that gets an entry, and whose cursor is perhaps moved. -/
theorem opening_tracked {k₂ : Kernel} {w₂ : World} {b : Bool} {p : Path} (hp : Recorded path p)
    (hk : Kernel.Kept w.kern w₁.kern) (hl : w₁.file_info_list = w.file_info_list)
    (ho : Kernel.Opened w₁.kern path flags fd i k₂)
    (hadd : file_info_list_add fd p (some i) { w₁ with kern := k₂ } = .ok (b, w₂))
    (hk' : Kernel.Kept w₂.kern w'.kern) (hl' : w'.file_info_list = w₂.file_info_list)
    (hnames : w'.kern.files.names = w₂.kern.files.names) :
    Opening dev env w w' path flags fd := by
  obtain ⟨-, hkern, hlist⟩ := add_inv hadd
  have hk₂ : Kernel.Kept k₂ w'.kern := by
    rw [hkern] at hk'
    exact (Kernel.Kept.tock k₂ 1).trans hk'
  have hnames' : w'.kern.files.names = k₂.files.names := by
    rw [hnames, hkern]
    rfl
  obtain ⟨id, pos, hnew⟩ := newFd_of hk ho hk₂ hnames'
  refine ⟨(hk.trans ho.gained.kept).trans hk₂, fun _ => ⟨i, id, pos, hnew⟩, fun _ => ?_⟩
  cases b with
  | true => exact .added i id pos p hnew hp (by rw [hl', hlist, ← hl]; rfl)
  | false => exact .same (by rw [hl', hlist, ← hl]; rfl)

theorem denotes_inv {o : Option Nat} (h : denotes path w = .ok (o, w')) :
    o = w.kern.files.names path ∧ w' = w := kernelCall_inv h

/-- The cursor moves; names, descriptors and table stay. -/
theorem lseek_inv {off : Int} {whence : Whence} {r : Int}
    (h : linker_lseek fd off whence w = .ok (r, w')) :
    Kernel.Kept w.kern w'.kern ∧ w'.file_info_list = w.file_info_list ∧
      w'.kern.files.names = w.kern.files.names := by
  obtain ⟨hk, hl⟩ := Frames.lseek fd off whence h
  obtain ⟨-, rfl⟩ := kernelCall_inv h
  exact ⟨hk, hl, congrArg FileStore.names (w.kern.unwritten_lseek fd off whence).1⟩

/-- The entry and the cursor of a descriptor that has just been opened. -/
theorem track_inv {k₂ : Kernel} {c : Prop} [Decidable c] {n : Int} {p : Path}
    (hp : Recorded path p) (hk : Kernel.Kept w.kern w₁.kern)
    (hl : w₁.file_info_list = w.file_info_list)
    (ho : Kernel.Opened w₁.kern path flags fd i k₂)
    (h : (do
      let origin ← denotes path
      if (← file_info_list_add fd p origin) then do
        if c then do
          let _ ← linker_lseek fd FILE_HEADER_POLL_SIZE .set
          pure fd
        else pure fd
      else pure fd : Sys Int) { w₁ with kern := k₂ } = .ok (n, w')) :
    n = fd ∧ Opening dev env w w' path flags fd := by
  obtain ⟨o, w₂, h1, h2⟩ := bind_inv h
  obtain ⟨rfl, rfl⟩ := denotes_inv h1
  obtain ⟨b, w₃, h3, h4⟩ := bind_inv h2
  rw [show (k₂.files.names path) = some i from ho.name] at h3
  have hstay : (pure fd : Sys Int) w₃ = .ok (n, w') →
      n = fd ∧ Opening dev env w w' path flags fd := by
    intro hpure
    obtain ⟨rfl, rfl⟩ := Prod.mk.inj (Except.ok.inj hpure)
    exact ⟨rfl, opening_tracked hp hk hl ho h3 (.refl _) rfl rfl⟩
  cases b with
  | false =>
      rw [if_neg (by decide)] at h4
      exact hstay h4
  | true =>
      rw [if_pos rfl] at h4
      by_cases hcond : c
      · rw [if_pos hcond] at h4
        obtain ⟨r, w₄, h5, h6⟩ := bind_inv h4
        obtain ⟨rfl, rfl⟩ := pure_inv h6
        obtain ⟨hk₄, hl₄, hn₄⟩ := lseek_inv h5
        exact ⟨rfl, opening_tracked hp hk hl ho h3 hk₄ hl₄ hn₄⟩
      · rw [if_neg hcond] at h4
        exact hstay h4

/-- The table is searched from its front: an entry at the end is found only if there is
    none before it. -/
theorem eraseP_fresh {l : List FileInfo} {e : FileInfo}
    (h : ∀ e' ∈ l, e'.file_descriptor ≠ e.file_descriptor) :
    (l ++ [e]).eraseP (fun e' => e'.file_descriptor = e.file_descriptor) = l := by
  rw [List.eraseP_append_right]
  · rw [List.eraseP_cons_of_pos (by simp), List.append_nil]
  · intro e' he'
    simpa using h e' he'

/-- A file that was created: it gets an entry and a header, or goes away again. -/
theorem open_new_inv {k₂ : Kernel} {n : Int} (hk : Kernel.Kept w.kern w₁.kern)
    (hl : w₁.file_info_list = w.file_info_list)
    (ho : Kernel.Opened w₁.kern path flags fd i k₂)
    (h : open_new dev path fd { w₁ with kern := k₂ } = .ok (n, w')) :
    Opening dev env w w' path flags n := by
  rw [open_new] at h
  by_cases hspecial : dev.is_support_special_file_type_by_path path = 1
  · rw [if_pos hspecial] at h
    obtain ⟨rfl, rfl⟩ := pure_inv h
    exact ⟨hk.trans ho.gained.kept, fun _ => ⟨i, newFd_opened hk ho⟩, fun _ => .same hl⟩
  · rw [if_neg hspecial] at h
    obtain ⟨o, w₂, h1, h2⟩ := bind_inv h
    obtain ⟨rfl, rfl⟩ := denotes_inv h1
    obtain ⟨b, w₃, h3, h4⟩ := bind_inv h2
    rw [show (k₂.files.names path) = some i from ho.name] at h3
    have hp : Recorded path (spilled path (entryHeader dev.get_process_name path)) := .inr ⟨_, rfl⟩
    cases b with
    | false =>
        rw [if_neg (by decide)] at h4
        obtain ⟨rfl, rfl⟩ := pure_inv h4
        exact opening_tracked hp hk hl ho h3 (.refl _) rfl rfl
    | true =>
        rw [if_pos rfl] at h4
        obtain ⟨c, w₄, h5, h6⟩ := bind_inv h4
        obtain ⟨hk₄, hl₄⟩ := Frames.write _ _ h5
        obtain ⟨-, rfl⟩ := kernelCall_inv h5
        by_cases hfull : c ≠ FILE_HEADER_POLL_SIZE
        · -- the header was not written: entry and descriptor go
          rw [if_pos hfull] at h6
          obtain ⟨u, w₅, h7, h8⟩ := bind_inv h6
          obtain ⟨r, w₆, h9, h10⟩ := bind_inv h8
          obtain ⟨-, rfl⟩ := pure_inv h7
          obtain ⟨-, rfl⟩ := kernelCall_inv h9
          obtain ⟨rfl, rfl⟩ := pure_inv h10
          obtain ⟨-, hkern, hlist⟩ := add_inv h3
          have hk₃ : Kernel.Kept k₂ w₃.kern := by
            rw [hkern]
            exact .tock k₂ 1
          refine ⟨hk.trans (ho.gained.close (hk₃.trans hk₄)), fun hpos => absurd hpos (by decide),
            fun hused => .same ?_⟩
          show w₃.file_info_list.eraseP _ = _
          rw [hlist, if_pos rfl, ← hl]
          refine @eraseP_fresh w₁.file_info_list ⟨fd, _, some i⟩ (fun e he heq => ?_)
          have hused' := hk.inUse (hused e (hl ▸ he))
          have heq' : e.file_descriptor = fd := heq
          exact ho.gained.fresh (heq' ▸ hused')
        · rw [if_neg hfull] at h6
          obtain ⟨rfl, rfl⟩ := pure_inv h6
          exact opening_tracked hp hk hl ho h3 hk₄ hl₄ (w₃.kern.sysWrite_names _ _)

/-- What happens to a file without a header: nothing, or the descriptor is closed and the
    conversion is tried with the size that is found. -/
theorem convert_plain_inv {stage : Option Bool}
    (h : convert_plain dev path fd w = .ok (stage, w')) :
    (stage = none ∧ w' = { w with kern := w.kern.tock 1 } ∧ (w.kern.answer.fails = true ∨
      (w.kern.tock 1).sysAccess (get_security_path_by_path path) = 0)) ∨
    ∃ size w₂ r, (w.kern.tock 1).sysAccess (get_security_path_by_path path) ≠ 0 ∧ Fits path ∧
      get_file_size_by_path path { w with kern := ((w.kern.tock 1).sysClose fd).2 } =
        .ok (size, w₂) ∧
      rebuild_file_struct dev path size w₂ = .ok (r, w') ∧ stage = some (r == 1) := by
  obtain ⟨b, w₁, h1, h2⟩ := bind_inv h
  obtain ⟨hb, rfl⟩ := kernelCall_inv h1
  cases b with
  | false =>
      rw [if_neg (by decide)] at h2
      obtain ⟨rfl, rfl⟩ := pure_inv h2
      exact .inl ⟨rfl, rfl, .inl (by simpa using hb.symm)⟩
  | true =>
      rw [if_pos rfl] at h2
      split at h2
      · cases h2
      rename_i hfit
      obtain ⟨r, w₂, h3, h4⟩ := bind_inv h2
      obtain ⟨hr, rfl⟩ := kernelCall_inv h3
      by_cases hzero : r = 0
      · rw [if_neg (not_not_intro hzero)] at h4
        obtain ⟨rfl, rfl⟩ := pure_inv h4
        exact .inl ⟨rfl, rfl, .inr (hr.symm.trans hzero)⟩
      · rw [if_pos hzero] at h4
        obtain ⟨c, w₃, h5, h6⟩ := bind_inv h4
        obtain ⟨-, rfl⟩ := kernelCall_inv h5
        obtain ⟨size, w₄, h7, h8⟩ := bind_inv h6
        obtain ⟨result, w₅, h9, h10⟩ := bind_inv h8
        obtain ⟨rfl, rfl⟩ := pure_inv h10
        exact .inr ⟨size, w₄, result, fun h0 => hzero (hr.trans h0), not_not.mp hfit, h7, h9, rfl⟩

/-- Closing the descriptor, converting the file and opening it again. -/
theorem open_plain_inv {k₂ : Kernel} {n : Int} (henv : env.Active)
    (hsup : dev.is_support_file_type_by_path path ≠ 0) (hk : Kernel.Kept w.kern w₁.kern)
    (hl : w₁.file_info_list = w.file_info_list)
    (ho : Kernel.Opened w₁.kern path flags fd i k₂)
    (hat : ∀ stage w₃, convert_plain dev path fd { w₁ with kern := k₂ } = .ok (stage, w₃) →
      at_reopen dev path flags w = .ok (stage == some true, w₃))
    (h : open_plain dev path flags fd { w₁ with kern := k₂ } = .ok (n, w')) :
    Opening dev env w w' path flags n := by
  obtain ⟨stage, w₃, h1, h2⟩ := bind_inv h
  have hat' := hat stage w₃ h1
  -- either nothing was closed, or everything before is as if it had not been opened
  have hstage : (stage = none ∧ Kernel.Kept k₂ w₃.kern ∧ w₃.kern.files = k₂.files ∨
      stage ≠ none ∧ Kernel.Kept w.kern w₃.kern) ∧
      w₃.file_info_list = w₁.file_info_list := by
    rcases convert_plain_inv h1 with ⟨rfl, rfl, -⟩ | ⟨size, w₄, r, -, -, h3, h4, rfl⟩
    · exact ⟨.inl ⟨rfl, .tock k₂ 1, rfl⟩, rfl⟩
    · obtain ⟨hk₄, hl₄⟩ := kept_file_size path h3
      obtain ⟨hk₅, hl₅⟩ := kept_rebuild dev path size h4
      have hclosed := ho.gained.close (.tock k₂ 1)
      exact ⟨.inr ⟨Option.some_ne_none _, ((hk.trans hclosed).trans hk₄).trans hk₅⟩,
        hl₅.trans hl₄⟩
  obtain ⟨hcase, hl₃⟩ := hstage
  rcases hcase with ⟨rfl, hk₃, hfiles⟩ | ⟨hne, hk₃⟩
  · obtain ⟨rfl, rfl⟩ := pure_inv h2
    obtain ⟨id, pos, hnew⟩ := newFd_of hk ho hk₃ (congrArg FileStore.names hfiles)
    exact ⟨(hk.trans ho.gained.kept).trans hk₃, fun _ => ⟨i, id, pos, hnew⟩,
      fun _ => .same (hl₃.trans hl)⟩
  · match stage, hne with
    | some false, _ => exact opening_raw hk₃ (hl₃.trans hl) h2
    | some true, _ =>
        have h2' : reopen path flags w₃ = .ok (n, w') := h2
        obtain ⟨fd', w₄, h3, h4⟩ := bind_inv h2'
        rcases linker_open_inv h3 with ⟨rfl, rfl⟩ | ⟨j, k₄, rfl, ho'⟩
        · -- the second open failed
          have hfail : (w₃.kern.sysOpen path flags).1 = -1 := (kernelCall_inv h3).1.symm
          obtain ⟨o, w₅, h5, h6⟩ := bind_inv h4
          obtain ⟨-, rfl⟩ := denotes_inv h5
          obtain ⟨b, w₆, h7, h8⟩ := bind_inv h6
          obtain ⟨hb, hkern, hlist⟩ := add_inv h7
          have hk₆ : Kernel.Kept w.kern w₆.kern := by
            rw [hkern]
            exact hk₃.trans (.tock _ 2)
          cases b with
          | false =>
              rw [if_neg (by decide)] at h8
              obtain ⟨rfl, rfl⟩ := pure_inv h8
              exact ⟨hk₆, fun hpos => absurd hpos (by decide),
                fun _ => .same (hlist.trans (hl₃.trans hl))⟩
          | true =>
              rw [if_pos rfl] at h8
              obtain ⟨r, w₇, h9, h10⟩ := bind_inv h8
              obtain ⟨rfl, rfl⟩ := pure_inv h10
              refine ⟨hk₆.trans (lseek_inv h9).1, fun hpos => absurd hpos (by decide),
                fun _ => .lost fun hre => ?_⟩
              have hmem : (w₃.kern.tock 1).answer.fails = true := hre henv hsup w₃ hat' hfail
              rw [show ({ w₃ with kern := w₃.kern.tock 1 } : World).kern.answer.fails = true
                from hmem] at hb
              cases hb
        · obtain ⟨rfl, hopening⟩ := track_inv (c := True) (.inl rfl) hk₃ (hl₃.trans hl) ho' (by
            simp only [if_true]
            exact h4)
          exact hopening

theorem kept_probe (path : Path) : Frames (probe_header path) := by
  refine Frames.opening (fun fd => ?_) (.pure none)
  refine .bind Frames.alloc fun _ => .ite (.bind (Frames.read fd _) fun r => ?_) (.pure none)
  exact .ite (.pure none) (.ite (.pure none) (.pure _))

/-- **What an open leaves**, whatever the host does. -/
theorem open_inv {n : Int} (h : open_file dev env path flags w = .ok (n, w')) :
    Opening dev env w w' path flags n := by
  rw [open_file] at h
  rcases hooked_inv h with ⟨rfl, rfl⟩ | ⟨-, -, h⟩ | ⟨henv, h⟩
  · exact ⟨.refl _, fun hpos => absurd hpos (by decide), fun _ => .same rfl⟩
  · exact opening_raw (.refl _) rfl h
  by_cases hsup : dev.is_support_file_type_by_path path = 0
  · rw [if_pos hsup] at h
    exact opening_raw (.refl _) rfl h
  rw [if_neg hsup] at h
  obtain ⟨fs, w₀, h3, h4⟩ := bind_inv h
  obtain ⟨-, hw₀⟩ := kernelCall_inv h3
  have hw₀' : w₀ = w := hw₀
  subst hw₀'
  obtain ⟨header, w₁, h5, h6⟩ := bind_inv h4
  have hprobe : Kernel.Kept w₀.kern w₁.kern ∧ w₁.file_info_list = w₀.file_info_list := by
    by_cases hfs : fs = 0
    · rw [if_pos hfs] at h5
      exact kept_probe path h5
    · rw [if_neg hfs] at h5
      obtain ⟨-, rfl⟩ := pure_inv h5
      exact ⟨.refl _, rfl⟩
  obtain ⟨hk, hl⟩ := hprobe
  obtain ⟨fd, w₂, h7, h8⟩ := bind_inv h6
  rcases linker_open_inv h7 with ⟨rfl, rfl⟩ | ⟨i, k₂, rfl, ho⟩
  · rw [if_neg (by decide)] at h8
    obtain ⟨rfl, rfl⟩ := pure_inv h8
    exact ⟨hk.trans (.tock _ 1), fun hpos => absurd hpos (by decide), fun _ => .same hl⟩
  · by_cases hpos : fd > 0
    · rw [if_pos hpos] at h8
      by_cases hfs : fs = 0
      · rw [if_neg (fun hne => hne hfs)] at h8
        cases header with
        | some header =>
            -- an encrypted file
            obtain ⟨rfl, hopening⟩ := track_inv (.inr ⟨header, rfl⟩) hk hl ho h8
            exact hopening
        | none =>
            refine open_plain_inv henv hsup hk hl ho (fun stage w₃ hconv => ?_) h8
            rw [at_reopen, bind_ok h3, bind_ok h5, bind_ok h7, if_pos ⟨hpos, hfs, rfl⟩,
              bind_ok hconv]
            rfl
      · rw [if_pos hfs] at h8
        exact open_new_inv hk hl ho h8
    · rw [if_neg hpos] at h8
      obtain ⟨rfl, rfl⟩ := pure_inv h8
      obtain ⟨id, pos, hnew⟩ := newFd_opened hk ho
      exact ⟨hk.trans ho.gained.kept, fun _ => ⟨i, id, pos, hnew⟩, fun _ => .same hl⟩

end Inversion

/-! ## The pieces on a calm host -/

section Calm

variable {w : World} (hc : w.kern.host.Calm) {path : Path} {i : Nat}
include hc

/-- The probe of an existing file, when it gets a positive descriptor: four calls. -/
theorem probe_timed (hname : w.kern.files.names path = some i)
    (hfd : w.kern.freeFd w.kern.answer.hint > 0) :
    ∃ k', probe_header path w =
      .ok (if HasHeader (w.kern.files.data i) then
          some ((w.kern.files.data i).take FILE_HEADER_POLL_SIZE) else none,
        { w with kern := k' }) ∧ Kernel.Quiet w.kern k' ∧ k'.tick = w.kern.tick + 4 := by
  let D := w.kern.files.data i
  obtain ⟨k₁, k₂, k₃, hopen, hread, hclose, hq, htick⟩ :=
    Kernel.open_read_close hc hname (f := { acc := .rdonly }) rfl rfl rfl 1
      FILE_HEADER_POLL_SIZE
  have hhost : k₁.host = w.kern.host := by
    rcases w.kern.sysOpen_cases path { acc := .rdonly } with hfail | ⟨j, ho⟩
    · rw [hopen] at hfail
      have := w.kern.freeFd_nonneg w.kern.answer.hint
      have := (Prod.mk.inj hfail).1
      omega
    · rw [hopen] at ho
      exact ho.gained.host
  have hcalloc : calloc { w with kern := k₁ } = .ok (true, { w with kern := k₁.tock 1 }) :=
    calloc_calm (w := { w with kern := k₁ }) (by rw [hhost]; exact hc)
  have hheader : read_header (w.kern.freeFd w.kern.answer.hint) { w with kern := k₁ } =
      .ok (if HasHeader D then some (D.take FILE_HEADER_POLL_SIZE) else none,
        { w with kern := k₂ }) := by
    rw [read_header, bind_ok hcalloc, if_pos rfl,
      bind_ok (linker_read_ok (w := { w with kern := k₁.tock 1 }) hread)]
    show (if ((slice D 0 FILE_HEADER_POLL_SIZE).length : Int) ≠ (FILE_HEADER_POLL_SIZE : Int)
      then _ else _ : Sys (Option (List UInt8))) _ = _
    have hslice : (slice D 0 FILE_HEADER_POLL_SIZE).length
        = min FILE_HEADER_POLL_SIZE D.length := by
      rw [slice_length, Nat.sub_zero]
    by_cases hfull : FILE_HEADER_POLL_SIZE ≤ D.length
    · rw [if_neg (fun hne => hne (by rw [hslice]; omega))]
      have hhead : memcpy (zeroed FILE_HEADER_POLL_SIZE) 0
          (slice (w.kern.files.data i) 0 FILE_HEADER_POLL_SIZE)
          = D.take FILE_HEADER_POLL_SIZE := headOf_full hfull
      rw [hhead]
      by_cases hr : is_encrypted_by_file_header (D.take FILE_HEADER_POLL_SIZE)
          = FILE_TYPE_RIGHTS
      · rw [if_neg (fun hne => hne hr), if_pos ⟨hfull, hr⟩]
        rfl
      · rw [if_pos hr, if_neg (fun h => hr h.2)]
        rfl
    · rw [if_pos (by rw [hslice]; omega), if_neg (fun h => hfull h.1)]
      rfl
  refine ⟨k₃, ?_, hq, htick⟩
  rw [probe_header, bind_ok (linker_open_ok hopen), if_pos hfd, bind_ok hheader,
    bind_ok (linker_close_ok (w := { w with kern := k₂ }) hclose)]
  rfl

theorem probe_calm (hname : w.kern.files.names path = some i)
    (hfd : w.kern.freeFd w.kern.answer.hint > 0) :
    ∃ k', probe_header path w =
      .ok (if HasHeader (w.kern.files.data i) then
          some ((w.kern.files.data i).take FILE_HEADER_POLL_SIZE) else none,
        { w with kern := k' }) ∧ Kernel.Quiet w.kern k' := by
  obtain ⟨k', hprobe, hq, -⟩ := probe_timed hc hname hfd
  exact ⟨k', hprobe, hq⟩

/-- The real `open` of an existing file. -/
theorem linker_open_calm {flags : Flags} (hname : w.kern.files.names path = some i)
    (hx : (flags.creat && flags.excl) = false) :
    ∃ fd k', linker_open path flags w = .ok (fd, { w with kern := k' }) ∧
      Kernel.Opened w.kern path flags fd i k' ∧ (w.kern.InUse 0 → 0 < fd) := by
  have hopen : ∃ fd k', w.kern.sysOpen path flags = (fd, k') ∧
      fd = w.kern.freeFd w.kern.answer.hint := by
    by_cases ht : flags.trunc = true
    · exact ⟨_, _, Kernel.sysOpen_trunc hc hname hx ht, rfl⟩
    · exact ⟨_, _, Kernel.sysOpen_calm hc hname hx (by simpa using ht), rfl⟩
  obtain ⟨fd, k', hrun, hfd⟩ := hopen
  refine ⟨fd, k', linker_open_ok hrun, ?_, fun h0 => hfd ▸ w.kern.freeFd_pos h0 _⟩
  rcases w.kern.sysOpen_cases path flags with hfail | ⟨j, ho⟩
  · have := w.kern.freeFd_nonneg w.kern.answer.hint
    have := (Prod.mk.inj (hrun.symm.trans hfail)).1
    omega
  · rw [hrun] at ho
    have hij : i = j := by
      have hfiles := ho.files
      generalize k'.files = fs' at hfiles
      cases hfiles with
      | existing h => exact Option.some.inj (hname.symm.trans h)
      | emptied h => exact Option.some.inj (hname.symm.trans h)
      | created h => cases hname.symm.trans h
    exact hij ▸ ho

/-- The probe takes descriptor 0 for a failure, and keeps it open. -/
theorem probe_zero (hname : w.kern.files.names path = some i)
    (hfd : ¬ w.kern.freeFd w.kern.answer.hint > 0) :
    ∃ k', probe_header path w = .ok (none, { w with kern := k' }) ∧
      k'.files = w.kern.files ∧ k'.InUse 0 := by
  let k₁ := ((w.kern.tock 1).install w.kern.answer.hint i { acc := .rdonly }
    (w.kern.files.names_lt _ _ hname)).2
  have hopen : linker_open path { acc := .rdonly } w =
      .ok (w.kern.freeFd w.kern.answer.hint, { w with kern := k₁ }) :=
    linker_open_ok (Kernel.sysOpen_calm hc hname rfl rfl)
  have hzero : w.kern.freeFd w.kern.answer.hint = 0 := by
    have := w.kern.freeFd_nonneg w.kern.answer.hint
    omega
  refine ⟨k₁, ?_, rfl, ?_⟩
  · rw [probe_header, bind_ok hopen, if_neg hfd]
    rfl
  · have : k₁.find (w.kern.freeFd w.kern.answer.hint) = some w.kern.nextDesc :=
      Kernel.install_find_self
    exact k₁.find_inUse (hzero ▸ this)

/-- Adding an entry for a descriptor and moving its cursor behind the header. -/
theorem track_calm {flags : Flags} (header : List UInt8) {fd : Int} {id : Nat}
    (hfind : w.kern.find fd = some id)
    (hdesc : w.kern.desc id = { inode := i, pos := 0, flags := flags })
    (hname : w.kern.files.names path = some i) :
    ∃ k', open_encrypted path flags header fd w =
        .ok (fd, ⟨k', w.file_info_list ++ [⟨fd, spilled path header, some i⟩]⟩) ∧
      k'.files = w.kern.files ∧ Kernel.Kept w.kern k' ∧
      k'.desc id = { inode := i, flags := flags,
                     pos := if flags.append then 0 else FILE_HEADER_POLL_SIZE } := by
  let k := w.kern
  let p := spilled path header
  let l := w.file_info_list ++ [⟨fd, p, some i⟩]
  by_cases happ : flags.append = true
  · refine ⟨k.tock 1, ?_, rfl, .tock k 1, ?_⟩
    · rw [open_encrypted, bind_ok (denotes_ok hname), bind_ok (add_calm hc fd p (some i)),
        if_pos rfl, if_neg (by rw [happ]; decide)]
      rfl
    · rw [if_pos happ]
      exact hdesc
  · let k' := ((k.tock 1).tock 1).setPos id FILE_HEADER_POLL_SIZE
    have hseek : linker_lseek fd FILE_HEADER_POLL_SIZE .set ⟨k.tock 1, l⟩ =
        .ok (((FILE_HEADER_POLL_SIZE : Nat) : Int), ⟨k', l⟩) := by
      apply linker_lseek_ok
      rw [Kernel.sysLseek_calm (k := k.tock 1) hc hfind (by rw [Kernel.tock_desc, hdesc])]
      rfl
    refine ⟨k', ?_, rfl, (Kernel.Kept.tock k 2).trans (.setPos _ id _), ?_⟩
    · rw [open_encrypted, bind_ok (denotes_ok hname), bind_ok (add_calm hc fd p (some i)),
        if_pos rfl, if_pos (by simpa using happ), bind_ok hseek]
      rfl
    · rw [if_neg happ, Kernel.setPos_desc_self]
      show { k.desc id with pos := FILE_HEADER_POLL_SIZE } = _
      rw [show k.desc id = _ from hdesc]

/-- A file with a header is not converted. -/
theorem reopens_encrypted {dev : Device} {env : Env} {flags : Flags} (h0 : w.kern.InUse 0)
    (hname : w.kern.files.names path = some i) (hH : HasHeader (w.kern.files.data i)) :
    Reopens dev env path flags w := by
  intro _ _ w₁ hat
  obtain ⟨k₁, hprobe, -⟩ := probe_calm hc hname (w.kern.freeFd_pos h0 _)
  rw [if_pos hH] at hprobe
  rw [at_reopen, bind_ok (access_ok (w.kern.sysAccess_some (Kernel.answer_denies hc) hname)),
    if_pos rfl,
    bind_ok hprobe] at hat
  obtain ⟨fd, w₂, -, h2⟩ := bind_inv hat
  rw [if_neg (fun hcond => by cases hcond.2.2)] at h2
  cases (Prod.mk.inj (Except.ok.inj h2)).1

section Open

variable {dev : Device} {env : Env} {flags : Flags} (henv : env.Active)
  (hsup : dev.is_support_file_type_by_path path ≠ 0) (h0 : w.kern.InUse 0)
include henv hsup h0

/-- **Opening an encrypted file**: a tracked descriptor, behind the header unless it
    appends. -/
theorem open_encrypted_calm (hname : w.kern.files.names path = some i)
    (hH : HasHeader (w.kern.files.data i)) (hx : (flags.creat && flags.excl) = false) :
    ∃ fd id w', open_file dev env path flags w = .ok (fd, w') ∧ 0 < fd ∧
      NewFd w w' path flags fd i id (if flags.append then 0 else FILE_HEADER_POLL_SIZE) ∧
      Kernel.Kept w.kern w'.kern ∧
      Kernel.OpenedFiles w.kern.files path flags i w'.kern.files ∧
      w'.file_info_list = w.file_info_list ++
        [⟨fd, spilled path ((w.kern.files.data i).take FILE_HEADER_POLL_SIZE), some i⟩] := by
  obtain ⟨k₁, hprobe, hq⟩ := probe_calm hc hname (w.kern.freeFd_pos h0 _)
  rw [if_pos hH] at hprobe
  have hc₁ : k₁.host.Calm := by
    rw [hq.host]
    exact hc
  have hname₁ : k₁.files.names path = some i := by
    rw [hq.files]
    exact hname
  obtain ⟨fd, k₂, hopen, ho, hpos⟩ :=
    linker_open_calm (w := { w with kern := k₁ }) hc₁ hname₁ hx
  have hfd : 0 < fd := hpos (hq.inUse.mpr h0)
  have hc₂ : k₂.host.Calm := by
    rw [ho.gained.host]
    exact hc₁
  obtain ⟨k₃, htrack, hfiles, hkept, hdesc⟩ :=
    track_calm (w := { w with kern := k₂ }) hc₂
      ((w.kern.files.data i).take FILE_HEADER_POLL_SIZE) ho.gained.find_self ho.desc ho.name
  refine ⟨fd, k₁.nextDesc, ⟨k₃, _⟩, ?_, hfd,
    ⟨?_, ho.gained.nonneg, ?_, hdesc, ?_⟩, ?_, ?_, rfl⟩
  · rw [open_active henv hsup, open_supported,
      bind_ok (access_ok (w.kern.sysAccess_some (Kernel.answer_denies hc) hname)), if_pos rfl,
      bind_ok hprobe,
      bind_ok hopen, if_pos hfd, if_neg (fun hne => hne rfl)]
    exact htrack
  · exact fun hu => ho.gained.fresh (hq.inUse.mpr hu)
  · exact hkept.find ho.gained.find_self
  · show k₃.files.names path = some i
    rw [hfiles]
    exact ho.name
  · exact ((Kernel.Kept.of_quiet hq).trans ho.gained.kept).trans hkept
  · show Kernel.OpenedFiles w.kern.files path flags i k₃.files
    rw [hfiles, ← hq.files]
    exact ho.files

/-- **Creating a file** of a type that is not special: it gets a header, and the
    descriptor is tracked and stands behind it. -/
theorem open_new_calm (hname : w.kern.files.names path = none) (hcr : flags.creat = true)
    (hspecial : dev.is_support_special_file_type_by_path path ≠ 1)
    (hacc : flags.acc.writable = true) :
    ∃ fd id w', open_file dev env path flags w = .ok (fd, w') ∧ 0 < fd ∧
      NewFd w w' path flags fd w.kern.files.next id FILE_HEADER_POLL_SIZE ∧
      Kernel.Kept w.kern w'.kern ∧
      w'.kern.files = (w.kern.files.create path).store w.kern.files.next
        (entryHeader dev.get_process_name path) ∧
      w'.file_info_list = w.file_info_list ++
        [⟨fd, spilled path (entryHeader dev.get_process_name path),
          some w.kern.files.next⟩] := by
  let i := w.kern.files.next
  let H := entryHeader dev.get_process_name path
  let fd := w.kern.freeFd w.kern.answer.hint
  have hfd : 0 < fd := w.kern.freeFd_pos h0 _
  obtain ⟨k₁, hopen, hfiles₁⟩ : ∃ k₁, w.kern.sysOpen path flags = (fd, k₁) ∧
      k₁.files = w.kern.files.create path := ⟨_, Kernel.sysOpen_creat hc hname hcr, rfl⟩
  have ho : Kernel.Opened w.kern path flags fd i k₁ := by
    rcases w.kern.sysOpen_cases path flags with hfail | ⟨j, ho⟩
    · have := (Prod.mk.inj (hopen.symm.trans hfail)).1
      omega
    · rw [hopen] at ho
      have hij : i = j := by
        have hfiles := ho.files
        generalize k₁.files = fs' at hfiles
        cases hfiles with
        | existing h => cases hname.symm.trans h
        | emptied h => cases hname.symm.trans h
        | created _ _ h => exact h.symm
      exact hij ▸ ho
  have hc₁ : k₁.host.Calm := by
    rw [ho.gained.host]
    exact hc
  have hdata₁ : k₁.files.data i = [] := by
    rw [hfiles₁]
    exact FileStore.create_data_self ..
  have hname₁ : k₁.files.names path = some i := ho.name
  let l := w.file_info_list ++ [⟨fd, spilled path H, some i⟩]
  have hH : H.length = FILE_HEADER_POLL_SIZE := entryHeader_length _ _
  let k₂ := ((k₁.tock 2).setData i H).setPos w.kern.nextDesc FILE_HEADER_POLL_SIZE
  have hwrite : linker_write fd H ⟨k₁.tock 1, l⟩ =
      .ok (((FILE_HEADER_POLL_SIZE : Nat) : Int), ⟨k₂, l⟩) := by
    apply linker_write_ok
    have htarget : (k₁.tock 1).target { inode := i, pos := 0, flags := flags } 0 = 0 := by
      rw [Kernel.target]
      split
      · show (k₁.files.data i).length = 0
        rw [hdata₁]
        rfl
      · rfl
    rw [Kernel.sysWrite_calm (k := k₁.tock 1) hc₁ ho.gained.find_self
      (by rw [Kernel.tock_desc, ho.desc]) (by rw [Kernel.tock_desc, ho.desc]; exact hacc)
      (List.length_pos_iff.mp (by rw [hH]; decide)), Kernel.tock_desc, ho.desc, htarget, hH,
      Nat.zero_add]
    show (_, ((k₁.tock 2).setData i (overlay 0 (k₁.files.data i) 0 H)).setPos _ _) = _
    rw [overlay_all 0 (by rw [hdata₁]; exact Nat.zero_le _)]
  have hkept : Kernel.Kept k₁ k₂ :=
    ((Kernel.Kept.tock k₁ 2).trans (.setData _ i H)).trans (.setPos _ _ _)
  refine ⟨fd, w.kern.nextDesc, ⟨k₂, l⟩, ?_, hfd,
    ⟨ho.gained.fresh, ho.gained.nonneg, hkept.find ho.gained.find_self, ?_, hname₁⟩,
    ho.gained.kept.trans hkept, congrArg (fun fs : FileStore => fs.store i H) hfiles₁, rfl⟩
  · rw [open_active henv hsup, open_supported,
      bind_ok (access_ok (w.kern.sysAccess_none hname)), if_neg (by decide), bind_ok (pure_ok _ _),
      bind_ok (linker_open_ok hopen), if_pos hfd, if_pos (by decide), open_new, if_neg hspecial,
      bind_ok (denotes_ok (w := { w with kern := k₁ }) hname₁),
      bind_ok (add_calm (w := { w with kern := k₁ }) hc₁ fd (spilled path H) (some i)), if_pos rfl,
      bind_ok hwrite, if_neg (fun hne => hne rfl)]
    rfl
  · rw [Kernel.setPos_desc_self]
    show { k₁.desc w.kern.nextDesc with pos := FILE_HEADER_POLL_SIZE } = _
    rw [ho.desc]

end Open

end Calm

/-! ## A small process -/

/-- An encrypted file `"f"` with an empty plain text, and no entry. -/
def encryptedFile : World where
  kern := Kernel.oneDescriptor (newHeader none) { acc := .rdonly } 0
  file_info_list := []

theorem encryptedFile_data : encryptedFile.kern.files.data 1 = newHeader none :=
  Kernel.oneDescriptor_data _ _ _

theorem encryptedFile_hasHeader : HasHeader (encryptedFile.kern.files.data 1) := by
  have h := hasHeader_append (newHeader_length none) (newHeader_rights none) []
  rw [List.append_nil] at h
  rw [encryptedFile_data]
  exact h

/-- Opening it while encryption is on. -/
theorem encryptedFile_open {flags : Flags} (hx : (flags.creat && flags.excl) = false)
    (ht : flags.trunc = false) : ∃ fd id w₁,
    open_file aDevice activeEnv Kernel.aName flags encryptedFile = .ok (fd, w₁) ∧ 0 < fd ∧
      NewFd encryptedFile w₁ Kernel.aName flags fd 1 id
        (if flags.append then 0 else FILE_HEADER_POLL_SIZE) ∧
      w₁.kern.host.Calm ∧ w₁.kern.files = encryptedFile.kern.files ∧
      w₁.file_info_list = [⟨fd, Kernel.aName, some 1⟩] := by
  have hc : encryptedFile.kern.host.Calm := fun _ => ⟨rfl, rfl, rfl⟩
  obtain ⟨fd, id, w₁, hrun, hfd, hnew, hk, hfiles, hlist⟩ :=
    @open_encrypted_calm encryptedFile hc Kernel.aName 1 aDevice activeEnv flags
      ⟨rfl, rfl, rfl⟩ (by decide) (by decide) rfl encryptedFile_hasHeader hx
  exact ⟨fd, id, w₁, hrun, hfd, hnew, by rw [hk.host]; exact hc, hfiles.same rfl ht, hlist⟩

end TeOpen
