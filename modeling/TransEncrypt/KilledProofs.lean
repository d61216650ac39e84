import TransEncrypt.ThreadProofs

/-! # Hooked processes that are killed — the other hooks as sequences of real calls

    A process can be killed between any two of its real calls, also between those of one hook.
    `ThreadProofs` has `read`, `write` and `lseek` as scripts of real calls; here are the hooks
    that work with paths, and `fstat` and `close`.

    * `script`: every call of a process as a script;
    * `run_script`: run to its end, it is the hook. -/

namespace TeKilled

open Posix Overlay TeHeader Hoare TeProgram TeWorker TeThread Rely Rely.Script Plain

/-! ## The hooks -/

def file_info_list_add (fd : Int) (path : Path) (origin : Option Nat) : Thread Bool := do
  if (← TeThread.calloc) then do
    let _ ← real (.append ⟨fd, path, origin⟩)
    pure true
  else pure false

def read_header (fd : Int) : Thread (Option (List UInt8)) := do
  if (← TeThread.calloc) then do
    let r ← TeThread.linker_read fd FILE_HEADER_POLL_SIZE
    let header := memcpy (zeroed FILE_HEADER_POLL_SIZE) 0 r.2
    if r.1 ≠ FILE_HEADER_POLL_SIZE then pure none
    else if is_encrypted_by_file_header header ≠ FILE_TYPE_RIGHTS then pure none
    else pure (some header)
  else pure none

def probe_header (path : Path) : Thread (Option (List UInt8)) := do
  let fd ← TeThread.linker_open path { acc := .rdonly }
  if fd > 0 then do
    let header ← read_header fd
    let _ ← TeThread.linker_close fd
    pure (id header)
  else pure none

def open_new (dev : Device) (path : Path) (fd : Int) : Thread Int := do
  if dev.is_support_special_file_type_by_path path = 1 then pure fd
  else do
    let origin ← TeThread.denotes path
    let header := entryHeader dev.get_process_name path
    if (← file_info_list_add fd (spilled path header) origin) then do
      let n ← TeThread.linker_write fd header
      if n ≠ FILE_HEADER_POLL_SIZE then do
        TeThread.file_info_list_remove_by_fd fd
        let _ ← TeThread.linker_close fd
        pure (-1)
      else pure fd
    else pure fd

def reopen (path : Path) (flags : Flags) : Thread Int := do
  let fd ← TeThread.linker_open path flags
  let origin ← TeThread.denotes path
  if (← file_info_list_add fd path origin) then do
    let _ ← TeThread.linker_lseek fd FILE_HEADER_POLL_SIZE .set
    pure fd
  else pure fd

def get_file_size_by_path (path : Path) : Thread Int := do
  match (← TeThread.linker_stat path) with
  | some state => pure state.st_size
  | none => pure 0

def convert_in_place (dev : Device) (fd : Int) (size : Nat) : Thread Int := do
  if (← TeThread.calloc) then do
    let buffer := (file_header_init dev.get_process_name (zeroed (size + 4096))).1
    let r ← TeThread.linker_pread fd size 0
    if r.1 = size then do
      let buffer := memcpy buffer 4096 r.2
      let buffer := buffer.take 4096 ++ encryptBlocks dev.aes (size / 16) (buffer.drop 4096)
      let count ← TeThread.linker_pwrite fd buffer 0
      pure (if count ≠ ((size + 4096 : Nat) : Int) then 0 else 1)
    else pure 0
  else pure 0

def rebuild_buffer (dev : Device) (path : Path) (size : Nat) : Thread Int := do
  let fd ← TeThread.linker_open path { acc := .rdwr }
  if fd > 0 then do
    let result ← convert_in_place dev fd size
    let _ ← TeThread.linker_close fd
    pure (id result)
  else pure 0

def rebuild_file_struct (dev : Device) (path : Path) (size : Int) : Thread Int :=
  if path = [] then pure 0
  else if size > 0 then
    if size ≤ ((4096 * THREADS_COUNT : Nat) : Int) then rebuild_buffer dev path size.toNat
    else TeThread.rebuild_workers dev path size.toNat
  else pure 0

def convert_plain (dev : Device) (path : Path) (fd : Int) : Thread (Option Bool) := do
  if (← TeThread.calloc) then
    if ¬ Fits path then TeThread.undefinedBehaviour     -- the name is printed past its buffer
    else do
      let r ← TeThread.access (get_security_path_by_path path)
      if r ≠ 0 then do
        let _ ← TeThread.linker_close fd
        let size ← get_file_size_by_path path
        let result ← rebuild_file_struct dev path size
        pure (some (result == 1))
      else pure none
  else pure none

def open_plain (dev : Device) (path : Path) (flags : Flags) (fd : Int) : Thread Int := do
  match (← convert_plain dev path fd) with
  | none => pure fd
  | some true => reopen path flags
  | some false => TeThread.linker_open path flags

def open_encrypted (path : Path) (flags : Flags) (header : List UInt8) (fd : Int) : Thread Int := do
  let origin ← TeThread.denotes path
  if (← file_info_list_add fd (spilled path header) origin) then do
    if flags.append = false then do
      let _ ← TeThread.linker_lseek fd FILE_HEADER_POLL_SIZE .set
      pure fd
    else pure fd
  else pure fd

def open_supported (dev : Device) (path : Path) (flags : Flags) : Thread Int := do
  let fs ← TeThread.access path
  let header ← (if fs = 0 then probe_header path else pure none)
  let fd ← TeThread.linker_open path flags
  if fd > 0 then
    if fs ≠ 0 then open_new dev path fd
    else match header with
      | none => open_plain dev path flags fd
      | some header => open_encrypted path flags header fd
  else pure fd

def open_file (dev : Device) (env : Env) (path : Path) (flags : Flags) : Thread Int :=
  TeThread.hooked env (-1) (TeThread.linker_open path flags) do
    if dev.is_support_file_type_by_path path = 0 then TeThread.linker_open path flags
    else open_supported dev path flags

def close (env : Env) (fd : Int) : Thread Int :=
  TeThread.hooked env (-1) (TeThread.linker_close fd) do
    match (← TeThread.file_info_list_query_by_fd fd) with
    | some _ => do
        let _ ← TeThread.linker_lseek fd 0 .set
        TeThread.file_info_list_remove_by_fd fd
        TeThread.linker_close fd
    | none => TeThread.linker_close fd

def is_encrypted_by_path (path : Path) : Thread Nat := do
  let fd ← TeThread.linker_open path { acc := .rdonly }
  if fd > 0 then do
    let r ← TeThread.linker_read fd FILE_HEADER_POLL_SIZE
    let _ ← TeThread.linker_close fd
    pure (is_encrypted_by_file_header (memcpy (zeroed FILE_HEADER_POLL_SIZE) 0 r.2))
  else pure FILE_TYPE_NORMAL

def stat (env : Env) (path : Path) : Thread (Option Stat) :=
  TeThread.hooked env none (TeThread.linker_stat path) do
    match (← TeThread.linker_stat path) with
    | none => pure none
    | some state => do
        let type ← is_encrypted_by_path path
        pure (some (if type = FILE_TYPE_RIGHTS then TeSize.lessHeader state else state))

def fstat (env : Env) (fd : Int) : Thread (Option Stat) :=
  TeThread.hooked env none (TeThread.linker_fstat fd) do
    match (← TeThread.linker_fstat fd) with
    | none => pure none
    | some state => do
        let type ← TeThread.is_encrypted_by_fd fd
        pure (some (if type = FILE_TYPE_RIGHTS then TeSize.lessHeader state else state))

/-- A call of a process. -/
def script (dev : Device) (env : Env) : Call → Thread Reply
  | .openFile path flags => do
      let fd ← open_file dev env path flags
      pure (.result fd)
  | .read fd count => do
      let r ← TeThread.read dev env fd count
      pure (.data r.1 r.2)
  | .write fd buf => do
      let r ← TeThread.write dev env fd buf
      pure (.result r)
  | .lseek fd offset whence => do
      let r ← TeThread.lseek env fd offset whence
      pure (.result r)
  | .stat path => do
      let st ← stat env path
      pure (.state st)
  | .fstat fd => do
      let st ← fstat env fd
      pure (.state st)
  | .close fd => do
      let r ← close env fd
      pure (.result r)

/-! ## Run to the end -/

section Runs

variable {dev : Device} {env : Env} {fd : Int} {path : Path} {flags : Flags}

theorem run_add (origin : Option Nat) : run perform (file_info_list_add fd path origin) =
    TeProgram.file_info_list_add fd path origin := by
  rw [file_info_list_add, TeProgram.file_info_list_add, TeThread.calloc, run_real_bind]
  congr 1
  funext mem
  rw [run_ite]
  rfl

theorem run_read_header : run perform (read_header fd) = TeOpen.read_header fd := by
  rw [read_header, TeOpen.read_header, TeThread.calloc, run_real_bind]
  congr 1
  funext mem
  rw [run_ite, TeThread.linker_read, run_real_bind]
  congr 2
  funext r
  dsimp only
  rw [run_ite, run_ite]
  rfl

theorem run_probe_header : run perform (probe_header path) = TeOpen.probe_header path := by
  rw [probe_header, TeOpen.probe_header, TeThread.linker_open, run_real_bind]
  congr 1
  funext fd
  rw [run_ite, run_bind, run_read_header]
  rfl

theorem run_open_new : run perform (open_new dev path fd) = TeOpen.open_new dev path fd := by
  rw [open_new, TeOpen.open_new, run_ite, TeThread.denotes, run_real_bind]
  congr 2
  funext origin
  rw [run_bind, run_add]
  congr 1
  funext added
  rw [run_ite, TeThread.linker_write, run_real_bind]
  congr 2
  funext n
  rw [run_ite]
  rfl

theorem run_reopen : run perform (reopen path flags) = TeOpen.reopen path flags := by
  rw [reopen, TeOpen.reopen, TeThread.linker_open, run_real_bind]
  congr 1
  funext fd
  rw [TeThread.denotes, run_real_bind]
  congr 1
  funext origin
  rw [run_bind, run_add]
  congr 1
  funext added
  rw [run_ite]
  rfl

theorem run_get_file_size_by_path :
    run perform (get_file_size_by_path path) = TeRebuild.get_file_size_by_path path := by
  rw [get_file_size_by_path, TeRebuild.get_file_size_by_path, TeThread.linker_stat, run_real_bind]
  congr 1
  funext st
  cases st with
  | none => rfl
  | some st => rfl

theorem run_convert_in_place (size : Nat) :
    run perform (convert_in_place dev fd size) = TeRebuild.convert_in_place dev fd size := by
  rw [convert_in_place, TeRebuild.convert_in_place, TeThread.calloc, run_real_bind]
  congr 1
  funext mem
  rw [run_ite, TeThread.linker_pread]
  dsimp only
  rw [run_real_bind]
  congr 2
  funext r
  rw [run_ite]
  rfl

theorem run_rebuild_buffer (size : Nat) :
    run perform (rebuild_buffer dev path size) = TeRebuild.rebuild_buffer dev path size := by
  rw [rebuild_buffer, TeRebuild.rebuild_buffer, TeThread.linker_open, run_real_bind]
  congr 1
  funext fd
  rw [run_ite, run_bind, run_convert_in_place]
  rfl

theorem run_rebuild_file_struct (size : Int) : run perform (rebuild_file_struct dev path size) =
    TeRebuild.rebuild_file_struct dev path size := by
  rw [rebuild_file_struct, TeRebuild.rebuild_file_struct, run_ite, run_ite, run_ite,
    run_rebuild_buffer, TeThread.rebuild_workers, real, run_ask]
  rfl

theorem run_convert_plain :
    run perform (convert_plain dev path fd) = TeOpen.convert_plain dev path fd := by
  rw [convert_plain, TeOpen.convert_plain, TeThread.calloc, run_real_bind]
  congr 1
  funext mem
  rw [run_ite, run_ite, TeThread.access, run_real_bind]
  congr 3
  funext r
  rw [run_ite, TeThread.linker_close, run_real_bind]
  congr 2
  funext c
  rw [run_bind, run_get_file_size_by_path]
  congr 1
  funext size
  rw [run_bind, run_rebuild_file_struct]
  rfl

theorem run_open_plain :
    run perform (open_plain dev path flags fd) = TeOpen.open_plain dev path flags fd := by
  rw [open_plain, TeOpen.open_plain, run_bind, run_convert_plain]
  congr 1
  funext done
  cases done with
  | none => rfl
  | some converted =>
      cases converted with
      | true => exact run_reopen
      | false => rfl

theorem run_open_encrypted (header : List UInt8) :
    run perform (open_encrypted path flags header fd) =
    TeOpen.open_encrypted path flags header fd := by
  rw [open_encrypted, TeOpen.open_encrypted, TeThread.denotes, run_real_bind]
  congr 1
  funext origin
  rw [run_bind, run_add]
  congr 1
  funext added
  rw [run_ite, run_ite]
  rfl

theorem run_open_supported :
    run perform (open_supported dev path flags) = TeOpen.open_supported dev path flags := by
  rw [open_supported, TeOpen.open_supported, TeThread.access, run_real_bind]
  congr 1
  funext fs
  rw [run_bind, run_ite, run_probe_header]
  congr 1
  funext header
  rw [TeThread.linker_open, run_real_bind]
  congr 1
  funext fd
  rw [run_ite, run_ite, run_open_new]
  congr 2
  cases header with
  | none => exact run_open_plain
  | some header => exact run_open_encrypted header

theorem run_open_file :
    run perform (open_file dev env path flags) = TeOpen.open_file dev env path flags := by
  rw [open_file, TeOpen.open_file, run_hooked, run_ite, run_open_supported]
  rfl

theorem run_close : run perform (close env fd) = TeOpen.close env fd := by
  rw [close, TeOpen.close, run_hooked, TeThread.file_info_list_query_by_fd, run_real_bind]
  congr 2
  funext fi
  cases fi with
  | none => rfl
  | some fi => rfl

theorem run_is_encrypted_by_path :
    run perform (is_encrypted_by_path path) = TeDetector.is_encrypted_by_path path := by
  rw [is_encrypted_by_path, TeDetector.is_encrypted_by_path, TeThread.linker_open, run_real_bind]
  congr 1
  funext fd
  rw [run_ite]
  rfl

theorem run_stat : run perform (stat env path) = TeSize.stat env path := by
  rw [stat, TeSize.stat, TeSize.stat_by_path, run_hooked, TeThread.linker_stat, run_real_bind]
  congr 2
  funext st
  cases st with
  | none => rfl
  | some st =>
      dsimp only
      rw [run_bind, run_is_encrypted_by_path]
      rfl

theorem run_fstat : run perform (fstat env fd) = TeSize.fstat env fd := by
  rw [fstat, TeSize.fstat, run_hooked, TeThread.linker_fstat, run_real_bind]
  congr 2
  funext st
  cases st with
  | none => rfl
  | some st =>
      dsimp only
      rw [run_bind, run_is_encrypted_by_fd]
      rfl

/-- **The script of a call** is the call. -/
theorem run_script (q : Call) : run perform (script dev env q) = TeTransparent.run dev env q := by
  cases q with
  | openFile path flags =>
      rw [script, TeTransparent.run, run_bind, run_open_file]
      rfl
  | read fd count =>
      rw [script, TeTransparent.run, run_bind, run_read]
      rfl
  | write fd buf =>
      rw [script, TeTransparent.run, run_bind, run_write]
      rfl
  | lseek fd offset whence =>
      rw [script, TeTransparent.run, run_bind, run_lseek]
      rfl
  | stat path =>
      rw [script, TeTransparent.run, run_bind, run_stat]
      rfl
  | fstat fd =>
      rw [script, TeTransparent.run, run_bind, run_fstat]
      rfl
  | close fd =>
      rw [script, TeTransparent.run, run_bind, run_close]
      rfl

end Runs

end TeKilled
