import TransEncrypt.OpenProofs

/-! # The hooked open, one system call at a time

    Several callers open the same path, and the kernel interleaves their system calls.
    A caller is a program counter with its local variables, and one step is one call; it
    looks for a header, opens the file, looks for `<path>.s`, asks for the size, converts
    and opens again, each time on the files as they are by then.

    As for the workers, a descriptor is represented by the file it is open on, with
    descriptor 0 in use; closing it and the table of the caller's own process are no
    steps.  Memory and threads can be had.

    * `Opener.step`: the calls of a caller, and `openers`, several of them;
    * `step_start` to `step_reopen`: what each call does when it does not fail.

    That a caller which is alone does what the hooked `open` does is `TeAlone.open_alone`. -/

namespace TeOpener

open Posix Overlay TeHeader TeProgram TeDetector TeWorker TeRebuild Interleave

/-! ## The program -/

/-- Where a caller of `open` is; `existed` and `header` are what the first part found. -/
inductive Stage where
  | start
  | probeOpen
  | probeRead (fd : Nat)
  | realOpen (existed header : Bool)
  | writeHeader (fd : Nat)
  | check
  | size
  | bufferOpen (size : Nat)
  | bufferRead (size fd : Nat)
  | bufferWrite (fd : Nat) (buffer : List UInt8)
  | joining (ts : List Worker)
  | rename
  | reopen
  | returned (given : Bool)
  deriving DecidableEq

/-- A caller of `open` with these flags. -/
structure Opener where
  flags : Flags
  stage : Stage
  deriving DecidableEq

/-- Which caller makes the next step, and what the host answers. -/
structure Choice where
  caller : Nat
  answer : Answer

namespace Opener

def start (flags : Flags) : Opener := ⟨flags, .start⟩

def goto (o : Opener) (stage : Stage) : Opener := { o with stage := stage }

def finished (o : Opener) : Bool :=
  match o.stage with
  | .returned _ => true
  | _ => false

/-- The caller's workers are running, or their file waits to be renamed. -/
def converting (o : Opener) : Bool :=
  match o.stage with
  | .joining _ | .rename => true
  | _ => false

/-- `linker_open`: the files after it and the file that was opened, none if it fails. -/
def linker_open (a : Answer) (path : Path) (flags : Flags) (fs : FileStore) :
    Option (FileStore × Nat) :=
  if a.fails then none
  else match fs.names path with
    | some i =>
        if flags.creat && flags.excl then none
        else some (if flags.trunc then fs.store i [] else fs, i)
    | none => if flags.creat then some (fs.create path, fs.next) else none

/-- `linker_write` through a new descriptor: the files after it and whether all was
    written. -/
def linker_write (a : Answer) (flags : Flags) (fs : FileStore) (fd : Nat)
    (buff : List UInt8) : FileStore × Bool :=
  if a.fails = true ∨ flags.acc.writable = false then (fs, false)
  else (fs.writeAt fd (if flags.append then (fs.data fd).length else 0)
    (buff.take (a.cut buff.length)), a.cut buff.length == buff.length)

/-- What the probe makes of the bytes it read. -/
def header_found (r : List UInt8) : Bool :=
  r.length = FILE_HEADER_POLL_SIZE ∧
    is_encrypted_by_file_header (memcpy (zeroed FILE_HEADER_POLL_SIZE) 0 r) = FILE_TYPE_RIGHTS

/-- The branches of `rebuild_file_struct`. -/
def rebuild (path : Path) (size : Nat) : Stage :=
  if path = [] then .reopen
  else if size > 0 then
    if size ≤ 4096 * THREADS_COUNT then .bufferOpen size else .joining (allWorkers size)
  else .reopen

/-- One system call of `open`, for a path of a supported type.  `none` is undefined
    behaviour: the name of `<path>.s` does not fit its buffer. -/
def step (dev : Device) (path : Path) (a : Answer) (fs : FileStore) (o : Opener) :
    Option (FileStore × Opener) :=
  let npath := get_security_path_by_path path
  match o.stage with
  | .start =>
      if Worker.there a fs path then some (fs, o.goto .probeOpen)
      else some (fs, o.goto (.realOpen false false))
  | .probeOpen =>
      match linker_open a path { acc := .rdonly } fs with
      | none => some (fs, o.goto (.realOpen true false))
      | some (fs, fd) => some (fs, o.goto (.probeRead fd))
  | .probeRead fd =>
      let r := if a.fails then [] else slice (fs.data fd) 0 (a.cut FILE_HEADER_POLL_SIZE)
      some (fs, o.goto (.realOpen true (header_found r)))
  | .realOpen existed header =>
      match linker_open a path o.flags fs with
      | none => some (fs, o.goto (.returned false))
      | some (fs, fd) =>
          if existed = false then
            if dev.is_support_special_file_type_by_path path = 1 then
              some (fs, o.goto (.returned true))
            else some (fs, o.goto (.writeHeader fd))
          else if header then some (fs, o.goto (.returned true))
          else some (fs, o.goto .check)
  | .writeHeader fd =>
      let r := linker_write a o.flags fs fd (entryHeader dev.get_process_name path)
      some (r.1, o.goto (.returned r.2))
  | .check =>
      if ¬ Fits path then none
      else if Worker.there a fs npath then some (fs, o.goto (.returned true))
      else some (fs, o.goto .size)
  | .size =>     -- `get_file_size_by_path`
      let size := if a.fails then 0 else ((fs.content path).map List.length).getD 0
      some (fs, o.goto (rebuild path size))
  | .bufferOpen size =>
      match linker_open a path { acc := .rdwr } fs with
      | none => some (fs, o.goto .reopen)
      | some (fs, fd) => some (fs, o.goto (.bufferRead size fd))
  | .bufferRead size fd =>
      let r := if a.fails then [] else slice (fs.data fd) 0 (a.cut size)
      if r.length = size then
        let buffer := memcpy (file_header_init dev.get_process_name (zeroed (size + 4096))).1
          4096 r
        some (fs, o.goto (.bufferWrite fd
          (buffer.take 4096 ++ encryptBlocks dev.aes (size / 16) (buffer.drop 4096))))
      else some (fs, o.goto .reopen)
  | .bufferWrite fd buffer => some (Worker.pwrite a fs fd buffer 0, o.goto .reopen)
  | .joining ts =>
      if ts.all Worker.finished then
        if ts.any (fun t => t.pc = .returned true) then some (fs, o.goto .rename)
        else some (fs, o.goto .reopen)
      -- with descriptor 0 in use no `open` gives it
      else match (workers dev path).poolStep { a with hint := a.hint + 1 } (fs, ts) with
        | none => none
        | some (fs, ts) => some (fs, o.goto (.joining ts))
  | .rename => some (if a.fails then fs else fs.rename npath path, o.goto .reopen)
  | .reopen =>
      match linker_open a path o.flags fs with
      | none => some (fs, o.goto (.returned false))
      | some (fs, _) => some (fs, o.goto (.returned true))
  | .returned _ => some (fs, o)

end Opener

/-- Callers of `open` on one path; the kernel picks who makes the next call. -/
def openers (dev : Device) (path : Path) : System FileStore Opener Choice where
  step := fun c => Opener.step dev path c.answer
  pick := Choice.caller

/-! ## The steps when no call fails -/

namespace Opener

variable {dev : Device} {path : Path} {a : Answer} {fs : FileStore} {flags : Flags} {i : Nat}
  {D : List UInt8}

@[simp] theorem goto_mk (stage stage' : Stage) :
    (Opener.mk flags stage).goto stage' = ⟨flags, stage'⟩ := rfl

theorem step_check_none (hfit : Fits path)
    (hnone : fs.names (get_security_path_by_path path) = none) :
    step dev path a fs ⟨flags, .check⟩ = some (fs, ⟨flags, .size⟩) := by
  simp only [step, hfit, Worker.there_none hnone, not_true_eq_false, Bool.false_eq_true,
    if_false, goto_mk]

/-- The header of a file is found by its first 4096 bytes. -/
theorem header_found_eq : header_found (slice D 0 FILE_HEADER_POLL_SIZE) =
    decide (HasHeader D) := by
  have hlen : (slice D 0 FILE_HEADER_POLL_SIZE).length = min FILE_HEADER_POLL_SIZE D.length := by
    rw [slice_length, Nat.sub_zero]
  rw [header_found, decide_eq_decide]
  constructor
  · rintro ⟨h1, h2⟩
    have hfull : FILE_HEADER_POLL_SIZE ≤ D.length := by omega
    exact ⟨hfull, by rw [← headOf_full hfull]; exact h2⟩
  · rintro ⟨h1, h2⟩
    refine ⟨by omega, ?_⟩
    rw [← headOf_full h1] at h2
    exact h2

section Calm

variable (ha : Answer.Calm a)
include ha

theorem cut_calm (n : Nat) : a.cut n = n := by
  rw [Answer.cut, ha.limit]

theorem step_start (hname : fs.names path = some i) :
    step dev path a fs (start flags) = some (fs, ⟨flags, .probeOpen⟩) := by
  simp only [step, start, Worker.there_some ha.denies hname, if_true, goto_mk]

theorem step_check_some (hfit : Fits path)
    (hs : fs.names (get_security_path_by_path path) = some i) :
    step dev path a fs ⟨flags, .check⟩ = some (fs, ⟨flags, .returned true⟩) := by
  simp only [step, hfit, Worker.there_some ha.denies hs, not_true_eq_false, if_false, if_true,
    goto_mk]

theorem linker_open_calm (hname : fs.names path = some i)
    (hx : (flags.creat && flags.excl) = false) (ht : flags.trunc = false) :
    linker_open a path flags fs = some (fs, i) := by
  simp only [linker_open, ha.fails, hname, hx, ht, Bool.false_eq_true, if_false]

theorem linker_open_excl (hname : fs.names path = some i)
    (hx : (flags.creat && flags.excl) = true) : linker_open a path flags fs = none := by
  simp only [linker_open, ha.fails, hname, hx, Bool.false_eq_true, if_false, if_true]

theorem step_probeOpen (hname : fs.names path = some i) :
    step dev path a fs ⟨flags, .probeOpen⟩ = some (fs, ⟨flags, .probeRead i⟩) := by
  have hopen : linker_open a path { acc := .rdonly } fs = some (fs, i) :=
    linker_open_calm ha hname rfl rfl
  simp only [step, hopen, goto_mk]

theorem step_probeRead (hdata : fs.data i = D) :
    step dev path a fs ⟨flags, .probeRead i⟩ =
      some (fs, ⟨flags, .realOpen true (decide (HasHeader D))⟩) := by
  simp only [step, ha.fails, Bool.false_eq_true, if_false, cut_calm ha, hdata, goto_mk,
    header_found_eq]

/-- The real `open` of a file that was there before. -/
theorem step_realOpen (hname : fs.names path = some i)
    (hx : (flags.creat && flags.excl) = false) (ht : flags.trunc = false) (header : Bool) :
    step dev path a fs ⟨flags, .realOpen true header⟩ =
      some (fs, ⟨flags, if header then .returned true else .check⟩) := by
  simp only [step, linker_open_calm ha hname hx ht]
  rw [if_neg (by decide)]
  cases header <;> rfl

theorem step_realOpen_excl (hname : fs.names path = some i)
    (hx : (flags.creat && flags.excl) = true) (existed header : Bool) :
    step dev path a fs ⟨flags, .realOpen existed header⟩ =
      some (fs, ⟨flags, .returned false⟩) := by
  simp only [step, linker_open_excl ha hname hx, goto_mk]

theorem step_size (hcontent : fs.content path = some D) :
    step dev path a fs ⟨flags, .size⟩ = some (fs, ⟨flags, rebuild path D.length⟩) := by
  simp only [step, ha.fails, hcontent, Bool.false_eq_true, if_false, Option.map_some,
    Option.getD_some, goto_mk]

theorem step_bufferOpen (hname : fs.names path = some i) (size : Nat) :
    step dev path a fs ⟨flags, .bufferOpen size⟩ =
      some (fs, ⟨flags, .bufferRead size i⟩) := by
  have hopen : linker_open a path { acc := .rdwr } fs = some (fs, i) :=
    linker_open_calm ha hname rfl rfl
  simp only [step, hopen, goto_mk]

/-- The whole file is read, and what is about to be written is its conversion. -/
theorem step_bufferRead (hdata : fs.data i = D) :
    step dev path a fs ⟨flags, .bufferRead D.length i⟩ =
      some (fs, ⟨flags, .bufferWrite i (converted dev D)⟩) := by
  simp only [step, ha.fails, Bool.false_eq_true, if_false, cut_calm ha, hdata,
    slice_all (Nat.le_refl _), if_true, goto_mk]
  rw [buffer_eq dev D]

theorem step_bufferWrite (buffer : List UInt8) :
    step dev path a fs ⟨flags, .bufferWrite i buffer⟩ =
      some (fs.writeAt i 0 buffer, ⟨flags, .reopen⟩) := by
  simp only [step, Worker.pwrite, ha.fails, cut_calm ha, List.take_length, goto_mk]
  rw [if_neg (by decide)]
  rfl

theorem step_rename : step dev path a fs ⟨flags, .rename⟩ =
    some (fs.rename (get_security_path_by_path path) path, ⟨flags, .reopen⟩) := by
  simp only [step, ha.fails, Bool.false_eq_true, if_false, goto_mk]

theorem step_reopen (hname : fs.names path = some i)
    (hx : (flags.creat && flags.excl) = false) (ht : flags.trunc = false) :
    step dev path a fs ⟨flags, .reopen⟩ = some (fs, ⟨flags, .returned true⟩) := by
  simp only [step, linker_open_calm ha hname hx ht, goto_mk]

theorem step_reopen_excl (hname : fs.names path = some i)
    (hx : (flags.creat && flags.excl) = true) :
    step dev path a fs ⟨flags, .reopen⟩ = some (fs, ⟨flags, .returned false⟩) := by
  simp only [step, linker_open_excl ha hname hx, goto_mk]

end Calm

end Opener

end TeOpener
