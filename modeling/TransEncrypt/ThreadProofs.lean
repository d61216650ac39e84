import TransEncrypt.RelyProofs
import TransEncrypt.TransparentProofs

/-! # Hooked threads — the hooks as sequences of real calls

    The threads of a process share its descriptors, its files and the table, and nothing in the
    library excludes that one thread makes its real calls between those of another one.  Here
    the hooked `read`, `write` and `lseek` are scripts of real calls, each of them one step.

    * `Thread`, `perform`: scripts over the real calls and the table lookup;
    * `run_read`, `run_write`, `run_lseek`: run without interruption, the scripts are the hooks. -/

namespace TeThread

open Posix Overlay TeHeader Hoare TeProgram Rely Rely.Script

/-! ## The real calls -/

/-- A real call, an allocation, or a look at the table or a change of it.  The four workers that
    convert a large file are one call here. -/
inductive RealCall where
  | calloc
  | openFile (path : Path) (flags : Flags)
  | read (fd : Int) (count : Nat)
  | pread (fd : Int) (count : Nat) (offset : Int)
  | write (fd : Int) (buf : List UInt8)
  | pwrite (fd : Int) (buf : List UInt8) (offset : Int)
  | lseek (fd : Int) (offset : Int) (whence : Whence)
  | dup (oldfd : Int)
  | close (fd : Int)
  | fstat (fd : Int)
  | getfl (fd : Int)
  | query (fd : Int)
  | access (path : Path)
  | stat (path : Path)
  | denotes (path : Path)
  | append (e : FileInfo)
  | remove (fd : Int)
  | workers (dev : Device) (path : Path) (size : Nat)

abbrev Answer : RealCall → Type
  | .calloc => Bool
  | .openFile .. => Int
  | .read .. => Int × List UInt8
  | .pread .. => Int × List UInt8
  | .write .. => Int
  | .pwrite .. => Int
  | .lseek .. => Int
  | .dup .. => Int
  | .close .. => Int
  | .fstat .. => Option Stat
  | .getfl .. => Option Flags
  | .query .. => Option FileInfo
  | .access .. => Int
  | .stat .. => Option Stat
  | .denotes .. => Option Nat
  | .append .. => Unit
  | .remove .. => Unit
  | .workers .. => Int

/-- What they do. -/
def perform : Handler RealCall Answer World Stop
  | .calloc => TeProgram.calloc
  | .openFile path flags => TeProgram.linker_open path flags
  | .read fd count => TeProgram.linker_read fd count
  | .pread fd count offset => TeProgram.linker_pread fd count offset
  | .write fd buf => TeProgram.linker_write fd buf
  | .pwrite fd buf offset => TeProgram.linker_pwrite fd buf offset
  | .lseek fd offset whence => TeProgram.linker_lseek fd offset whence
  | .dup oldfd => TeProgram.linker_dup oldfd
  | .close fd => TeProgram.linker_close fd
  | .fstat fd => TeProgram.linker_fstat fd
  | .getfl fd => TeProgram.fcntl_getfl fd
  | .query fd => TeProgram.file_info_list_query_by_fd fd
  | .access path => TeProgram.access path
  | .stat path => TeProgram.linker_stat path
  | .denotes path => TeProgram.denotes path
  | .append e => fun w => .ok ((), { w with file_info_list := w.file_info_list ++ [e] })
  | .remove fd => TeProgram.file_info_list_remove_by_fd fd
  | .workers dev path size => TeRebuild.rebuild_workers dev path size

abbrev Thread (α : Type) := Script RealCall Answer Stop α

/-- One of them. -/
def real (q : RealCall) : Thread (Answer q) := ask q

def calloc : Thread Bool := real .calloc
def linker_open (path : Path) (flags : Flags) : Thread Int := real (.openFile path flags)
def linker_read (fd : Int) (count : Nat) : Thread (Int × List UInt8) := real (.read fd count)
def linker_pread (fd : Int) (count : Nat) (offset : Int) : Thread (Int × List UInt8) :=
  real (.pread fd count offset)
def linker_write (fd : Int) (buf : List UInt8) : Thread Int := real (.write fd buf)
def linker_pwrite (fd : Int) (buf : List UInt8) (offset : Int) : Thread Int :=
  real (.pwrite fd buf offset)
def linker_lseek (fd : Int) (offset : Int) (whence : Whence) : Thread Int :=
  real (.lseek fd offset whence)
def linker_dup (oldfd : Int) : Thread Int := real (.dup oldfd)
def linker_close (fd : Int) : Thread Int := real (.close fd)
def linker_fstat (fd : Int) : Thread (Option Stat) := real (.fstat fd)
def fcntl_getfl (fd : Int) : Thread (Option Flags) := real (.getfl fd)
def linker_stat (path : Path) : Thread (Option Stat) := real (.stat path)
def access (path : Path) : Thread Int := real (.access path)
def denotes (path : Path) : Thread (Option Nat) := real (.denotes path)
def file_info_list_query_by_fd (fd : Int) : Thread (Option FileInfo) := real (.query fd)
def file_info_list_remove_by_fd (fd : Int) : Thread Unit := real (.remove fd)
def rebuild_workers (dev : Device) (path : Path) (size : Nat) : Thread Int :=
  real (.workers dev path size)
def undefinedBehaviour {α : Type} : Thread α := .stop .undefined

/-! ## The hooks -/

def is_encrypted_by_fd (fd : Int) : Thread Nat := do
  match (← fcntl_getfl fd) with
  | none => pure FILE_TYPE_NORMAL
  | some fl =>
    if fl.acc.wronlyBit = true then pure FILE_TYPE_NORMAL
    else do
      let nfd ← linker_dup fd
      if nfd > 0 then do
        let r ← linker_pread nfd FILE_HEADER_POLL_SIZE 0
        let _ ← linker_close nfd
        pure (is_encrypted_by_file_header (memcpy (zeroed FILE_HEADER_POLL_SIZE) 0 r.2))
      else pure FILE_TYPE_NORMAL

def passes_through (fd : Int) : Thread Bool := do
  match (← file_info_list_query_by_fd fd) with
  | some _ => pure false
  | none => do
    let type ← is_encrypted_by_fd fd
    pure (type == FILE_TYPE_NORMAL)

def hooked {α : Type} (env : Env) (dead : α) (raw body : Thread α) : Thread α :=
  if env.linker_running_state = false then pure dead
  else if env.is_trust_process = false ∨ env.get_domain_state = false then raw
  else body

def read_pieces (dev : Device) (fd : Int) (count : Nat) (offset : Int) :
    Thread (Int × List UInt8) :=
  if offset < 0 then undefinedBehaviour
  else do
    let off := offset.toNat
    let tmpcount := count + off % 16 + 16 - (count + off) % 16
    if (← calloc) then do
      let r1 ← linker_pread fd (off % 16) (off - off % 16 : Nat)
      let r2 ← linker_read fd count
      let r3 ← linker_pread fd (16 - (count + off) % 16) (off + count : Nat)
      let tmpbuf := memcpy (memcpy (memcpy (zeroed tmpcount) 0 r1.2) (off % 16) r2.2)
        (off % 16 + count) r3.2
      let size := if r3.1 > 0 then r1.1 + r2.1 + r3.1 else r1.1 + r2.1
      if size > 0 then
        if r2.1 < 0 then undefinedBehaviour
        else pure (r2.1,
          slice (decryptBlocks dev.aes (size.toNat / 16) tmpbuf) (off % 16) r2.1.toNat)
      else pure (r2.1, [])
    else undefinedBehaviour

def read_decrypted (dev : Device) (fd : Int) (count : Nat) : Thread (Int × List UInt8) := do
  let offset ← linker_lseek fd 0 .cur
  if 0 ≤ offset ∧ offset < FILE_HEADER_POLL_SIZE then do
    let _ ← linker_lseek fd FILE_HEADER_POLL_SIZE .set
    read_pieces dev fd count (offset + FILE_HEADER_POLL_SIZE)
  else read_pieces dev fd count offset

def read (dev : Device) (env : Env) (fd : Int) (count : Nat) : Thread (Int × List UInt8) :=
  hooked env (-1, []) (linker_read fd count) do
    if (← calloc) then do
      match (← linker_fstat fd) with
      | none => linker_read fd count
      | some state =>
        if state.regular = false then linker_read fd count
        else if (← passes_through fd) then linker_read fd count
        else read_decrypted dev fd count
    else linker_read fd count

def write_encrypted (dev : Device) (fd : Int) (buf : List UInt8) (offset : Int) :
    Thread Int := do
  match (← file_info_list_query_by_fd fd) with
  | none => undefinedBehaviour
  | some fi => do
    let rfd ← linker_open fi.file_path { acc := .rdwr }
    if offset < 0 then undefinedBehaviour
    else do
      let off := offset.toNat
      let rc1 ← linker_pread rfd (off % 16) (off - off % 16 : Nat)
      let temp := memcpy (memcpy (zeroed (buf.length + off % 16)) 0 rc1.2) (off % 16) buf
      let temp := encryptBlocks dev.aes ((buf.length + off % 16) / 16) temp
      let _ ← linker_pwrite fd (temp.take (off % 16)) (off - off % 16 : Nat)
      let _ ← linker_close rfd
      linker_write fd (temp.drop (off % 16))

def write (dev : Device) (env : Env) (fd : Int) (buf : List UInt8) : Thread Int :=
  hooked env (-1) (linker_write fd buf) do
    if buf.length > 0 then do
      let offset ← linker_lseek fd 0 .cur
      if (← calloc) then write_encrypted dev fd buf offset
      else pure (-1)
    else linker_write fd buf

def lseek (env : Env) (fd : Int) (offset : Int) (whence : Whence) : Thread Int :=
  hooked env (-1) (linker_lseek fd offset whence) do
    if (← passes_through fd) then linker_lseek fd offset whence
    else do
      let position ← linker_lseek fd
        (if whence = .set then offset + (FILE_HEADER_POLL_SIZE : Nat) else offset) whence
      pure (position - (FILE_HEADER_POLL_SIZE : Nat))

/-- Where the library is active a hook does its own work. -/
theorem hooked_body {env : Env} (henv : env.Active) {α : Type} (dead : α)
    (raw body : Thread α) : hooked env dead raw body = body := by
  obtain ⟨h1, h2, h3⟩ := henv
  rw [hooked, if_neg (by rw [h1]; decide), if_neg (by rw [h2, h3]; decide)]

/-! ## Run without interruption -/

section Runs

variable {dev : Device} {env : Env} {fd : Int}

theorem run_hooked {α : Type} (dead : α) (raw body : Thread α) :
    run perform (hooked env dead raw body) =
      TeProgram.hooked env dead (run perform raw) (run perform body) := by
  rw [hooked, TeProgram.hooked, run_ite, run_ite, run_pure]

/-- A call, and what follows it. -/
theorem run_real_bind {α : Type} (q : RealCall) (f : Answer q → Thread α) :
    run perform (real q >>= f) = perform q >>= fun b => run perform (f b) := rfl

theorem run_is_encrypted_by_fd :
    run perform (is_encrypted_by_fd fd) = TeDetector.is_encrypted_by_fd fd := by
  rw [is_encrypted_by_fd, TeDetector.is_encrypted_by_fd, fcntl_getfl, run_real_bind]
  congr 1
  funext fl
  cases fl with
  | none => rfl
  | some fl =>
      dsimp only
      rw [run_ite, linker_dup, run_real_bind]
      congr 2
      funext nfd
      exact run_ite ..

theorem run_passes_through :
    run perform (passes_through fd) = TeDetector.passes_through fd := by
  rw [passes_through, TeDetector.passes_through, file_info_list_query_by_fd, run_real_bind]
  congr 1
  funext fi
  cases fi with
  | none =>
      dsimp only
      rw [run_bind, run_is_encrypted_by_fd]
      rfl
  | some fi => rfl

theorem run_read_pieces (count : Nat) (offset : Int) :
    run perform (read_pieces dev fd count offset) = TeRead.read_pieces dev fd count offset := by
  rw [read_pieces, TeRead.read_pieces, run_ite]
  congr 1
  rw [calloc, run_real_bind]
  congr 1
  funext mem
  rw [run_ite]
  congr 1
  rw [linker_pread, run_real_bind]
  congr 1
  funext r1
  rw [linker_read, run_real_bind]
  congr 1
  funext r2
  rw [linker_pread, run_real_bind]
  congr 1
  funext r3
  dsimp only
  rw [run_ite, run_ite]
  rfl

theorem run_read_decrypted (count : Nat) :
    run perform (read_decrypted dev fd count) = TeRead.read_decrypted dev fd count := by
  rw [read_decrypted, TeRead.read_decrypted, linker_lseek, run_real_bind]
  congr 1
  funext offset
  rw [run_ite, linker_lseek, run_real_bind]
  simp only [run_read_pieces]
  rfl

/-- The script of `read` is the hooked `read`. -/
theorem run_read (count : Nat) :
    run perform (read dev env fd count) = TeRead.read dev env fd count := by
  rw [read, TeRead.read, run_hooked]
  congr 1
  rw [calloc, run_real_bind]
  congr 1
  funext mem
  rw [run_ite]
  congr 1
  rw [linker_fstat, run_real_bind]
  congr 1
  funext st
  cases st with
  | none => rfl
  | some st =>
      dsimp only
      rw [run_ite, run_bind, run_passes_through]
      congr 2
      funext pass
      rw [run_ite, run_read_decrypted]
      rfl

theorem run_write_encrypted (b : List UInt8) (offset : Int) :
    run perform (write_encrypted dev fd b offset) = TeWrite.write_encrypted dev fd b offset := by
  rw [write_encrypted, TeWrite.write_encrypted, file_info_list_query_by_fd, run_real_bind]
  congr 1
  funext fi
  cases fi with
  | none => rfl
  | some fi =>
      dsimp only
      rw [linker_open, run_real_bind]
      congr 1
      funext rfd
      rw [run_ite]
      rfl

/-- The script of `write` is the hooked `write`. -/
theorem run_write (b : List UInt8) :
    run perform (write dev env fd b) = TeWrite.write dev env fd b := by
  rw [write, TeWrite.write, run_hooked, run_ite]
  congr 2
  rw [linker_lseek, run_real_bind]
  congr 1
  funext offset
  rw [calloc, run_real_bind]
  congr 1
  funext mem
  rw [run_ite, run_write_encrypted]
  rfl

/-- The script of `lseek` is the hooked `lseek`. -/
theorem run_lseek (offset : Int) (whence : Whence) :
    run perform (lseek env fd offset whence) = TeSize.lseek env fd offset whence := by
  rw [lseek, TeSize.lseek, TeSize.seek_by, run_hooked, run_bind, run_passes_through]
  congr 1
  congr 1
  funext pass
  rw [run_ite]
  rfl

end Runs

end TeThread
