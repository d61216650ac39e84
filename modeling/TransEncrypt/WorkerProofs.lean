import TransEncrypt.DetectorProofs
import TransEncrypt.StoredProofs
import TransEncrypt.InterleaveProofs

/-! # One worker of the conversion — `pthread_rfs_run`

    A large plain file is converted by four threads.  Worker 0 creates `<path>.s`,
    gives it its length and its header; every worker waits until that header can be
    seen, then copies its range of the plain file, chunk by chunk, encrypted, to the
    place behind the header.

    A worker is a program counter with the variables of its loop; one step is one
    system call.  A descriptor of its own is represented by the file it is open on:
    nobody else uses it, and closing it changes nothing that others see and is not a step.
    Whether it is descriptor 0 matters where a worker takes that for a failure; the `hint`
    of an answer says here which number an `open` gives.

    * `calm_step`: what a step of a calm host can be;
    * `base_sound`: in every interleaving the new file, once its header is visible,
      keeps that header and its length, and every worker stays inside its range. -/

namespace TeWorker

open Posix Overlay Blockwise TeHeader TeProgram TeDetector TeStored Interleave

/-- `get_security_path_by_path`: the name `<path>.s`. -/
def get_security_path_by_path (path : Path) : Path := path ++ [0x2e, 0x73]

theorem security_path_ne (path : Path) : get_security_path_by_path path ≠ path := by
  intro h
  have := congrArg List.length h
  rw [get_security_path_by_path, List.length_append] at this
  simp at this

/-- The name fits the buffer it is printed to, with its NUL. -/
def Fits (path : Path) : Prop := path.length + 3 ≤ PATH_MAX

instance (path : Path) : Decidable (Fits path) := inferInstanceAs (Decidable (_ ≤ _))

theorem Fits.short {path : Path} (h : Fits path) : path.length < PATH_MAX := by
  rw [Fits] at h
  omega

def THREADS_COUNT : Nat := 4

/-! ## The program -/

/-- Where a worker is.  `fd`, `ofd` and `nfd` are its descriptors, `buff` is what it is
    about to write. -/
inductive Pc where
  | start
  | clear
  | remove
  | create
  | truncate (fd : Nat)
  | header (fd : Nat)
  | waiting
  | probe
  | probeRead (fd : Nat)
  | entered
  | openOld
  | openNew (ofd : Nat)
  | readChunk (ofd nfd : Nat)
  | writeChunk (ofd nfd : Nat) (buff : List UInt8)
  | readTail (ofd nfd : Nat)
  | writeTail (ofd nfd : Nat) (buff : List UInt8)
  | returned (path : Bool)
  deriving DecidableEq

/-- The local variables of `pthread_rfs_run`, all of them `int`. -/
structure Worker where
  number : Nat
  offset : Int
  bsize : Int
  tsize : Int
  pc : Pc
  deriving DecidableEq

namespace Worker

def goto (t : Worker) (pc : Pc) : Worker := { t with pc := pc }

/-- Has the thread returned? -/
def finished (t : Worker) : Bool :=
  match t.pc with
  | .returned _ => true
  | _ => false

/-- Is the thread before or in the part that only worker 0 goes through? -/
def staging (t : Worker) : Bool :=
  match t.pc with
  | .start | .clear | .remove | .create | .truncate _ | .header _ => true
  | _ => false

/-- Is the thread in the loop that waits for the header? -/
def inLoop (t : Worker) : Bool :=
  match t.pc with
  | .waiting | .probe | .probeRead _ => true
  | _ => false

/-- The head of the copying loop, and what follows it: only the last worker looks
    for a tail, and only it returns the path. -/
def loop (t : Worker) (ofd nfd : Nat) : Worker :=
  if 0 ≤ t.bsize - 4096 then t.goto (.readChunk ofd nfd)
  else if t.number + 1 = THREADS_COUNT then t.goto (.readTail ofd nfd)
  else t.goto (.returned false)

theorem loop_number (t : Worker) (ofd nfd : Nat) : (t.loop ofd nfd).number = t.number := by
  rw [loop]
  split
  · rfl
  · split
    · rfl
    · rfl

/-- `linker_pread` of up to 4096 bytes of a file: none when the call fails. -/
def pread (a : Answer) (data : List UInt8) (offset : Int) : Option (List UInt8) :=
  if a.fails = true ∨ offset < 0 then none
  else some (slice data offset.toNat (a.cut 4096))

/-- `linker_pwrite` to a file: a call that fails writes nothing. -/
def pwrite (a : Answer) (fs : FileStore) (fd : Nat) (buff : List UInt8) (offset : Int) :
    FileStore :=
  if a.fails = true ∨ offset < 0 then fs
  else fs.writeAt fd offset.toNat (buff.take (a.cut buff.length))

/-- The chunk up to which a worker has copied its range. -/
def reached (t : Worker) : Nat :=
  match t.pc with
  | .writeChunk _ _ buff =>
      if buff.length = 4096 then t.offset.toNat / 4096 - 1 else t.offset.toNat / 4096
  | .writeTail _ _ _ => t.offset.toNat / 4096 - 1
  | _ => t.offset.toNat / 4096

/-- A bound on the steps a worker still has to make once it need not wait. -/
def remaining (t : Worker) : Nat :=
  let rounds := t.bsize.toNat / 4096
  match t.pc with
  | .start => 16 + 2 * rounds
  | .clear => 15 + 2 * rounds
  | .remove => 14 + 2 * rounds
  | .create => 13 + 2 * rounds
  | .truncate _ => 12 + 2 * rounds
  | .header _ => 11 + 2 * rounds
  | .waiting => 10 + 2 * rounds
  | .probe => 9 + 2 * rounds
  | .probeRead _ => 8 + 2 * rounds
  | .entered => 7 + 2 * rounds
  | .openOld => 6 + 2 * rounds
  | .openNew _ => 5 + 2 * rounds
  | .readChunk _ _ => 4 + 2 * rounds
  | .writeChunk _ _ _ => 3 + 2 * rounds
  | .readTail _ _ => 2
  | .writeTail _ _ _ => 1
  | .returned _ => 0

/-- `access(path, F_OK) == 0`. -/
def there (a : Answer) (fs : FileStore) (path : Path) : Bool :=
  !a.denies && (fs.names path).isSome

/-- One system call of `pthread_rfs_run`, started with the path `path`.  `none` is
    undefined behaviour: the name does not fit its buffer. -/
def step (dev : Device) (path : Path) (a : Answer) (fs : FileStore) (t : Worker) :
    Option (FileStore × Worker) :=
  let npath := get_security_path_by_path path
  match t.pc with
  | .start =>     -- the allocation of the name
      if a.fails then some (fs, t.goto (.returned false))
      else if ¬ Fits path then none
      else if t.number = 0 ∧ t.offset = 0 then some (fs, t.goto .clear)
      else some (fs, t.goto .waiting)
  | .clear =>
      if there a fs npath then some (fs, t.goto .remove) else some (fs, t.goto .create)
  | .remove => some (if a.fails then fs else fs.unlink npath, t.goto .create)
  | .create =>
      if a.fails then some (fs, t.goto .waiting)
      else some ((fs.createTrunc npath).1,
        t.goto (if a.hint = 0 then .waiting else .truncate (fs.createTrunc npath).2))
  | .truncate fd =>
      some (if a.fails = true ∨ t.tsize + 4096 < 0 then fs
        else fs.truncate fd (t.tsize + 4096).toNat, t.goto (.header fd))
  | .header fd =>
      some (pwrite a fs fd (newHeader dev.get_process_name) t.offset, t.goto .waiting)
  | .waiting => if there a fs npath then some (fs, t.goto .probe) else some (fs, t)
  | .probe =>     -- `is_encrypted_by_path`, its `open`
      match fs.names npath with
      | none => some (fs, t.goto .waiting)
      | some fd => if a.fails = true ∨ a.hint = 0 then some (fs, t.goto .waiting)
        else some (fs, t.goto (.probeRead fd))
  | .probeRead fd =>     -- and its `read`, with the test of the loop
      let r := if a.fails then [] else slice (fs.data fd) 0 (a.cut FILE_HEADER_POLL_SIZE)
      if is_encrypted_by_file_header (memcpy (zeroed FILE_HEADER_POLL_SIZE) 0 r)
          = FILE_TYPE_RIGHTS then some (fs, t.goto .entered)
      else some (fs, t.goto .waiting)
  | .entered =>
      if there a fs npath then some (fs, t.goto .openOld)
      else some (fs, t.goto (.returned true))
  | .openOld =>
      match fs.names path with
      | none => some (fs, t.goto (.returned false))
      | some ofd => if a.fails then some (fs, t.goto (.returned false))
        else some (fs, t.goto (.openNew ofd))
  | .openNew ofd =>
      match fs.names npath with
      | none => some (fs, t.goto (.returned false))
      | some nfd => if a.fails then some (fs, t.goto (.returned false))
        else some (fs, t.loop ofd nfd)
  | .readChunk ofd nfd =>
      match pread a (fs.data ofd) t.offset with
      | none => some (fs, t.goto (.writeChunk ofd nfd []))     -- a write of -1 bytes fails
      | some buff => some (fs,
          { t with
            offset := if buff.length = 4096 then t.offset + buff.length else t.offset
            pc := .writeChunk ofd nfd (encryptBlocks dev.aes (buff.length / 16) buff) })
  | .writeChunk ofd nfd buff =>
      some (pwrite a fs nfd buff t.offset, { t with bsize := t.bsize - 4096 }.loop ofd nfd)
  | .readTail ofd nfd =>
      match pread a (fs.data ofd) t.offset with
      | none => some (fs, t.goto (.returned true))
      | some buff => if buff.length > 0 then some (fs,
            { t with
              offset := t.offset + 4096
              pc := .writeTail ofd nfd (encryptBlocks dev.aes (buff.length / 16) buff) })
          else some (fs, t.goto (.returned true))
  | .writeTail _ nfd buff => some (pwrite a fs nfd buff t.offset, t.goto (.returned true))
  | .returned _ => some (fs, t)

theorem there_none {a : Answer} {fs : FileStore} {path : Path} (h : fs.names path = none) :
    there a fs path = false := by
  rw [there, h]
  exact Bool.and_false _

theorem there_some {a : Answer} {fs : FileStore} {path : Path} {s : Nat}
    (hd : a.denies = false) (h : fs.names path = some s) : there a fs path = true := by
  rw [there, hd, h]
  rfl

/-- Whatever the host does, a step is undefined only where the name is made. -/
theorem step_defined {dev : Device} {path : Path} (hfit : Fits path) (a : Answer)
    (fs : FileStore) (t : Worker) : step dev path a fs t ≠ none := by
  obtain ⟨number, offset, bsize, tsize, pc⟩ := t
  intro h
  cases pc with
  | start =>
      simp only [step, hfit, not_true_eq_false, if_false] at h
      split at h
      · cases h
      · split at h
        · cases h
        · cases h
  | _ =>
      simp only [step] at h
      repeat' split at h
      all_goals cases h

end Worker

/-! ## The ranges -/

/-- `average`: a quarter of the size, counted up to a multiple of 4096. -/
def average (size : Nat) : Nat := (size / THREADS_COUNT + 4095) / 4096 * 4096

/-- Conversion of an `off_t` to `unsigned int` and from there to `int`. -/
def toInt (x : Int) : Int := x.bmod 4294967296

/-- The arguments of worker `i` for a file of `size` bytes, as it reads them. -/
def workerArgs (size : Nat) (i : Nat) : Worker where
  number := i
  offset := toInt (average size * i : Nat)
  bsize := if i < THREADS_COUNT - 1 then toInt (average size)
    else toInt ((size : Int) - (average size * i : Nat))
  tsize := toInt size
  pc := .start

/-- The sizes that are converted by workers, and whose offsets fit an `int`. -/
def InRange (n : Nat) : Prop := 4096 * THREADS_COUNT < n ∧ n + 4096 ≤ 2147483647

/-- The number of chunks of 4096 bytes in the range of a worker but the last. -/
def share (n : Nat) : Nat := average n / 4096

/-- The bytes in the range of worker `i`; of the last one also less than none. -/
def rangeOf (n i : Nat) : Int :=
  if i < THREADS_COUNT - 1 then ((4096 * share n : Nat) : Int)
  else (n : Int) - (4096 * (share n * i) : Nat)

/-- The chunk worker `i` is at after `r` rounds: it stops moving on at the end of the
    file. -/
def chunkAt (n i r : Nat) : Nat := share n * i + min r (n / 4096 - share n * i)

/-- Before the end of the file each round is one chunk. -/
theorem chunkAt_next {n i r : Nat} (h : chunkAt n i r < n / 4096) :
    chunkAt n i (r + 1) = chunkAt n i r + 1 := by
  rw [chunkAt] at h ⊢
  rw [chunkAt]
  omega

/-- And there is none behind it. -/
theorem chunkAt_stays {n i r : Nat} (h : n / 4096 ≤ chunkAt n i r) :
    chunkAt n i (r + 1) = chunkAt n i r := by
  rw [chunkAt] at h ⊢
  rw [chunkAt]
  omega

theorem average_eq (n : Nat) : average n = 4096 * share n := by
  rw [share, average]
  omega

theorem share_bounds {n : Nat} (h : InRange n) :
    0 < share n ∧ 4096 * share n ≤ n / 4 + 4095 ∧ n ≤ 4 * (4096 * share n) + 3 := by
  obtain ⟨h1, -⟩ := h
  have h1 : 4096 * 4 < n := h1
  have h2 : average n = (n / 4 + 4095) / 4096 * 4096 := rfl
  have h3 := average_eq n
  omega

/-- Only the last worker can start behind the end of the file. -/
theorem share_two {n : Nat} (h : InRange n) : share n * 2 ≤ n / 4096 := by
  obtain ⟨h1, -⟩ := h
  have h1 : 4096 * 4 < n := h1
  have h2 : average n = (n / 4 + 4095) / 4096 * 4096 := rfl
  have h3 := average_eq n
  omega

/-- For these sizes the arguments are read as they were meant. -/
theorem workerArgs_eq {n i : Nat} (h : InRange n) (hi : i < THREADS_COUNT) :
    workerArgs n i = ⟨i, ((4096 * (share n * i) : Nat) : Int), rangeOf n i, n, .start⟩ := by
  obtain ⟨hpos, hle, -⟩ := share_bounds h
  have hn : n + 4096 ≤ 2147483647 := h.2
  have hint : ∀ x : Int, -2147483648 ≤ x → x ≤ 2147483647 → toInt x = x := by
    intro x h1 h2
    rw [toInt, Int.bmod_def]
    omega
  have hi4 : i < 4 := hi
  have hmul : average n * i = 4096 * (share n * i) := by rw [average_eq, Nat.mul_assoc]
  have hle3 : share n * i ≤ share n * 3 := Nat.mul_le_mul_left _ (by omega)
  have hsize : (if i < THREADS_COUNT - 1 then toInt (average n)
      else toInt ((n : Int) - (4096 * (share n * i) : Nat))) = rangeOf n i := by
    rw [rangeOf, average_eq]
    by_cases hlast : i < THREADS_COUNT - 1
    · rw [if_pos hlast, if_pos hlast, hint _ (by omega) (by omega)]
    · rw [if_neg hlast, if_neg hlast, hint _ (by omega) (by omega)]
  rw [workerArgs, hmul, hsize, hint _ (by omega) (by omega), hint n (by omega) (by omega)]

/-- The pool of workers that were created; the host picks who makes a step. -/
def workers (dev : Device) (path : Path) : System FileStore Worker Answer where
  step := Worker.step dev path
  pick := Answer.who

/-! ## What every interleaving keeps -/

/-- A conversion: of the plain file `plain`, whose inode is `old`. -/
structure Job where
  dev : Device
  path : Path
  plain : List UInt8
  old : Nat

namespace Job

variable (j : Job)

def size : Nat := j.plain.length

def newPath : Path := get_security_path_by_path j.path

def header : List UInt8 := newHeader j.dev.get_process_name

/-- What has to stand behind the header. -/
def image : List UInt8 := stored j.dev.aes j.plain

/-- A chunk of the image. -/
def chunk (c : Nat) : List UInt8 := slice j.image (4096 * c) 4096

/-- The new file `s` has its header and its length. -/
structure Ready (fs : FileStore) (s : Nat) : Prop where
  name : fs.names j.newPath = some s
  ne : s ≠ j.old
  length : (fs.data s).length = j.size + 4096
  head : (fs.data s).take 4096 = j.header

/-- The shared invariant: the plain file is untouched, and the new one, once it
    exists, is empty, then all zeros, then ready. -/
structure Shared (fs : FileStore) : Prop where
  name : fs.names j.path = some j.old
  data : fs.data j.old = j.plain
  stage : ∀ s, fs.names j.newPath = some s → s ≠ j.old ∧
    (fs.data s = [] ∨ fs.data s = zeroed (j.size + 4096) ∨ j.Ready fs s)

/-- The loop variables of worker `i` after `r` rounds. -/
structure Round (i r : Nat) (offset bsize : Int) : Prop where
  offset : offset = ((4096 * chunkAt j.size i r : Nat) : Int)
  bsize : bsize = rangeOf j.size i - ((4096 * r : Nat) : Int)

/-- The next round, once the offset has moved. -/
theorem Round.succ {j : Job} {i r : Nat} {offset offset' bsize : Int}
    (h : j.Round i r offset bsize)
    (hoff : offset' = ((4096 * chunkAt j.size i (r + 1) : Nat) : Int)) :
    j.Round i (r + 1) offset' (bsize - 4096) where
  offset := hoff
  bsize := by
    rw [h.bsize]
    omega

/-- Where worker `i` stands, by its own variables. -/
def Local (i : Nat) (t : Worker) : Prop :=
  i < THREADS_COUNT ∧ t.number = i ∧ t.tsize = j.size ∧
  match t.pc with
  | .readChunk _ _ => ∃ r, j.Round i r t.offset t.bsize ∧ 4096 ≤ t.bsize
  | .writeChunk _ _ buff => ∃ r, 4096 ≤ t.bsize ∧
      buff = j.chunk (chunkAt j.size i r) ∧
      (chunkAt j.size i r < j.size / 4096 ∧ j.Round i r (t.offset - 4096) t.bsize ∨
        j.size / 4096 ≤ chunkAt j.size i r ∧ j.Round i r t.offset t.bsize)
  | .readTail _ _ => i = 3 ∧ ∃ r, j.Round i r t.offset t.bsize ∧ t.bsize < 4096 ∧
      (r = 0 ∨ 0 ≤ t.bsize)
  | .writeTail _ _ buff => i = 3 ∧ ∃ r, j.Round i r (t.offset - 4096) t.bsize ∧
      t.bsize < 4096 ∧ (r = 0 ∨ 0 ≤ t.bsize) ∧ buff = j.chunk (chunkAt j.size i r) ∧
      buff ≠ []
  | .returned p => (i = 3 → p = true) ∧ (i < 3 → t.bsize < 4096) ∧
      ∃ c, t.offset = ((4096 * c : Nat) : Int) ∧
      (i < 3 → c = chunkAt j.size i (share j.size)) ∧
      (i = 3 → share j.size * 3 ≤ j.size / 4096 → j.size ≤ 4096 * c)
  | _ => j.Round i 0 t.offset t.bsize

/-- And by the files. -/
def At (i : Nat) (fs : FileStore) : Pc → Prop
  | .start => i = 0 → fs.names j.newPath = none
  | .clear | .create => i = 0 ∧ fs.names j.newPath = none
  | .remove => False
  | .truncate s => i = 0 ∧ fs.names j.newPath = some s ∧ s ≠ j.old ∧ fs.data s = []
  | .header s => i = 0 ∧ fs.names j.newPath = some s ∧ s ≠ j.old ∧
      fs.data s = zeroed (j.size + 4096)
  | .waiting => True
  | .probe => ∃ s, fs.names j.newPath = some s
  | .probeRead s => fs.names j.newPath = some s
  | .entered | .openOld | .returned _ => ∃ s, j.Ready fs s
  | .openNew o => o = j.old ∧ ∃ s, j.Ready fs s
  | .readChunk o s | .writeChunk o s _ | .readTail o s | .writeTail o s _ =>
      o = j.old ∧ j.Ready fs s

/-- The assertion of worker `i`. -/
def Assert (i : Nat) (fs : FileStore) (t : Worker) : Prop := j.Local i t ∧ j.At i fs t.pc

/-- What a step does to the files. -/
inductive Change (i : Nat) (fs : FileStore) : FileStore → Prop where
  | silent : Change i fs fs
  | created : i = 0 → fs.names j.newPath = none → Change i fs (fs.create j.newPath)
  | sized (s : Nat) : i = 0 → fs.names j.newPath = some s → s ≠ j.old → fs.data s = [] →
      Change i fs (fs.store s (zeroed (j.size + 4096)))
  | headed (s : Nat) : i = 0 → fs.names j.newPath = some s → s ≠ j.old →
      fs.data s = zeroed (j.size + 4096) →
      Change i fs (fs.store s (j.header ++ zeroed j.size))
  | copied (s off : Nat) (buff : List UInt8) : j.Ready fs s → 4096 ≤ off →
      off + buff.length ≤ j.size + 4096 → Change i fs (fs.writeAt s off buff)

variable {j}

theorem newPath_ne : j.newPath ≠ j.path := security_path_ne j.path

theorem header_length : j.header.length = 4096 := newHeader_length _

theorem image_length : j.image.length = j.size := stored_length _ _

theorem chunk_length (c : Nat) : (j.chunk c).length = min 4096 (j.size - 4096 * c) := by
  rw [chunk, slice_length, image_length]

/-- Encrypting a chunk of the plain file gives that chunk of the image. -/
theorem encrypt_chunk (c : Nat) :
    encryptBlocks j.dev.aes ((slice j.plain (4096 * c) 4096).length / 16)
      (slice j.plain (4096 * c) 4096) = j.chunk c := by
  have hslice := stored_slice j.dev.aes j.plain (256 * c) 256
  rw [show 256 * c * 16 = 4096 * c from by omega] at hslice
  rw [chunk, image, hslice, stored_eq]

theorem plain_chunk_length (c : Nat) :
    (slice j.plain (4096 * c) 4096).length = (j.chunk c).length := by
  rw [chunk_length, slice_length, size]

/-- A file that starts with the header is classified by it. -/
theorem typeOf_head {data : List UInt8} (h : data.take 4096 = j.header) :
    typeOf data = FILE_TYPE_RIGHTS := by
  have hsplit : data = j.header ++ data.drop 4096 := by
    rw [← h, List.take_append_drop]
  rw [hsplit, typeOf_header header_length]
  exact newHeader_rights _

namespace Ready

variable {fs : FileStore} {s : Nat}

/-- The header before the zeros finishes the new file. -/
theorem headed (hname : fs.names j.newPath = some s) (hne : s ≠ j.old) :
    j.Ready (fs.store s (j.header ++ zeroed j.size)) s where
  name := hname
  ne := hne
  length := by
    rw [FileStore.store_data_self, List.length_append, header_length, zeroed_length]
    omega
  head := by
    rw [FileStore.store_data_self]
    exact List.take_left' header_length

theorem unique {s' : Nat} (h : j.Ready fs s) (h' : fs.names j.newPath = some s') : s' = s :=
  Option.some.inj (h'.symm.trans h.name)

/-- A write behind the header that does not extend the file. -/
theorem copied (h : j.Ready fs s) (off : Nat) (buff : List UInt8) (h1 : 4096 ≤ off)
    (h2 : off + buff.length ≤ j.size + 4096) : j.Ready (fs.writeAt s off buff) s where
  name := h.name
  ne := h.ne
  length := by
    rw [FileStore.writeAt_data_self, overlay_length_of_le (by rw [h.length]; exact h2)]
    exact h.length
  head := by
    rw [FileStore.writeAt_data_self, overlay_take h1 (by rw [h.length]; omega)]
    exact h.head

end Ready

/-- A finished header is not all zeros. -/
theorem header_ne_zeroed {fs : FileStore} {s s' n : Nat} (hr : j.Ready fs s')
    (hs : fs.names j.newPath = some s) (hzero : fs.data s = zeroed n) : False := by
  obtain rfl := hr.unique hs
  have htype := typeOf_head hr.head
  rw [hzero] at htype
  exact typeOf_zeroed _ htype

section Steps

variable {i : Nat} {fs fs' : FileStore}

/-- Every change keeps the shared invariant. -/
theorem Change.shared (hc : j.Change i fs fs') (h : j.Shared fs) : j.Shared fs' := by
  have hlt : j.old < fs.next := fs.names_lt _ _ h.name
  cases hc with
  | silent => exact h
  | created _ hnone =>
      refine ⟨?_, ?_, ?_⟩
      · rw [FileStore.create_names_ne _ newPath_ne.symm]
        exact h.name
      · rw [FileStore.create_data_ne _ (by omega)]
        exact h.data
      · intro s hs
        rw [FileStore.create_names_self] at hs
        obtain rfl := Option.some.inj hs
        exact ⟨by omega, .inl (FileStore.create_data_self ..)⟩
  | sized s _ hs hne _ =>
      refine ⟨h.name, ?_, ?_⟩
      · rw [FileStore.store_data_ne _ hne.symm]
        exact h.data
      · intro s' hs'
        obtain rfl : s = s' := Option.some.inj (hs.symm.trans hs')
        exact ⟨hne, .inr (.inl (FileStore.store_data_self ..))⟩
  | headed s _ hs hne _ =>
      refine ⟨h.name, ?_, ?_⟩
      · rw [FileStore.store_data_ne _ hne.symm]
        exact h.data
      · intro s' hs'
        obtain rfl : s = s' := Option.some.inj (hs.symm.trans hs')
        exact ⟨hne, .inr (.inr (.headed hs' hne))⟩
  | copied s off buff hready h1 h2 =>
      refine ⟨h.name, ?_, ?_⟩
      · rw [FileStore.writeAt_data_ne _ hready.ne.symm]
        exact h.data
      · intro s' hs'
        obtain rfl : s' = s := hready.unique hs'
        exact ⟨hready.ne, .inr (.inr (hready.copied _ _ h1 h2))⟩

/-- A change by another worker keeps a finished new file finished. -/
theorem Change.ready (hc : j.Change i fs fs') {s : Nat} (h : j.Ready fs s) :
    j.Ready fs' s := by
  cases hc with
  | silent => exact h
  | created _ hnone => cases hnone.symm.trans h.name
  | sized s' _ hs' _ hnil =>
      obtain rfl := h.unique hs'
      have := h.length
      rw [hnil, List.length_nil] at this
      omega
  | headed s' _ hs' hne _ =>
      obtain rfl := h.unique hs'
      exact .headed h.name hne
  | copied s' off buff hready h1 h2 =>
      obtain rfl := h.unique hready.name
      exact hready.copied _ _ h1 h2

/-- A name that denotes the new file goes on denoting it. -/
theorem Change.name (hc : j.Change i fs fs') {s : Nat} (h : fs.names j.newPath = some s) :
    fs'.names j.newPath = some s := by
  cases hc with
  | silent => exact h
  | created _ hnone => cases hnone.symm.trans h
  | sized => exact h
  | headed => exact h
  | copied => exact h

/-- A change by one worker does not disturb where another one stands. -/
theorem Change.at (hc : j.Change i fs fs') {k : Nat} (hk : i ≠ k) {pc : Pc}
    (h : j.At k fs pc) : j.At k fs' pc := by
  -- worker 0 is disturbed by no change of the stage, as only itself makes one
  have hstage : k = 0 → ∀ {x : Option Nat}, fs.names j.newPath = x →
      fs'.names j.newPath = x ∧ ∀ s, x = some s → (¬ ∃ s, j.Ready fs s) →
        fs'.data s = fs.data s := by
    intro hk0 x hx
    cases hc with
    | silent => exact ⟨hx, fun _ _ _ => rfl⟩
    | created hi => omega
    | sized _ hi => omega
    | headed _ hi => omega
    | copied s off buff hready _ _ =>
        exact ⟨hx, fun s' _ hno => absurd ⟨s, hready⟩ hno⟩
  cases pc with
  | start => exact fun hk0 => (hstage hk0 (h hk0)).1
  | clear => exact ⟨h.1, (hstage h.1 h.2).1⟩
  | remove => exact h
  | create => exact ⟨h.1, (hstage h.1 h.2).1⟩
  | truncate s =>
      obtain ⟨hk0, hs, hne, hnil⟩ := h
      have hno : ¬ ∃ s, j.Ready fs s := by
        rintro ⟨s', hr⟩
        obtain rfl := hr.unique hs
        have := hr.length
        rw [hnil, List.length_nil] at this
        omega
      obtain ⟨hs', hd⟩ := hstage hk0 hs
      exact ⟨hk0, hs', hne, by rw [hd s rfl hno, hnil]⟩
  | header s =>
      obtain ⟨hk0, hs, hne, hzero⟩ := h
      have hno : ¬ ∃ s, j.Ready fs s := by
        rintro ⟨s', hr⟩
        exact header_ne_zeroed hr hs hzero
      obtain ⟨hs', hd⟩ := hstage hk0 hs
      exact ⟨hk0, hs', hne, by rw [hd s rfl hno, hzero]⟩
  | waiting => trivial
  | probe => exact h.imp fun _ => hc.name
  | probeRead s => exact hc.name h
  | entered => exact h.imp fun _ => hc.ready
  | openOld => exact h.imp fun _ => hc.ready
  | returned _ => exact h.imp fun _ => hc.ready
  | openNew o => exact ⟨h.1, h.2.imp fun _ => hc.ready⟩
  | readChunk o s => exact ⟨h.1, hc.ready h.2⟩
  | writeChunk o s _ => exact ⟨h.1, hc.ready h.2⟩
  | readTail o s => exact ⟨h.1, hc.ready h.2⟩
  | writeTail o s _ => exact ⟨h.1, hc.ready h.2⟩

end Steps

/-! ## One step of a calm host -/

/-- What a step of worker `i` does: nothing to the new file, a step of the stage
    before it is ready, a chunk copied to its place, or, behind the end of the plain
    file, what was read written where it was read. -/
inductive Effect (j : Job) (i : Nat) (fs : FileStore) (t : Worker) :
    FileStore → Worker → Prop where
  | silent {t'} : t'.reached = t.reached → t'.bsize = t.bsize → Effect j i fs t fs t'
  | stage {fs' t'} : (¬ ∃ s, j.Ready fs s) → j.Change i fs fs' →
      t'.reached = share j.size * i → t'.bsize = t.bsize → Effect j i fs t fs' t'
  | copy {s c t'} : j.Ready fs s → t.reached = c → 4096 * c < j.size →
      (c < j.size / 4096 ∨ share j.size * 3 ≤ j.size / 4096) → t'.reached = c + 1 →
      (i < 3 → t'.bsize = t.bsize - 4096) →
      Effect j i fs t (fs.writeAt s (4096 * (c + 1)) (j.chunk c)) t'
  | stray {s t'} : j.Ready fs s → i < 3 → j.size / 4096 < share j.size * i + share j.size →
      t.reached = j.size / 4096 → t'.reached = j.size / 4096 → t'.bsize = t.bsize - 4096 →
      Effect j i fs t (fs.writeAt s (4096 * (j.size / 4096)) (j.chunk (j.size / 4096))) t'

variable (hj : InRange j.size)
include hj

theorem Effect.change {i : Nat} {fs fs' : FileStore} {t t' : Worker}
    (h : j.Effect i fs t fs' t') : j.Change i fs fs' := by
  have hbig : 4096 * 4 < j.size := hj.1
  cases h with
  | silent => exact .silent
  | stage _ hc _ _ => exact hc
  | copy hr _ hc _ _ _ =>
      refine .copied _ _ _ hr (by omega) ?_
      rw [chunk_length]
      omega
  | stray hr _ _ _ _ _ =>
      refine .copied _ _ _ hr (by omega) ?_
      rw [chunk_length]
      omega

omit hj in
/-- At the head of the loop, after `r` rounds. -/
theorem loop_assert {i r : Nat} {fs : FileStore} {s : Nat} {t : Worker}
    (hi : i < THREADS_COUNT) (hn : t.number = i) (ht : t.tsize = j.size)
    (hr : j.Round i r t.offset t.bsize) (hb : r = 0 ∨ 0 ≤ t.bsize) (hready : j.Ready fs s) :
    j.Assert i fs (t.loop j.old s) ∧ (t.loop j.old s).reached = chunkAt j.size i r ∧
      (t.loop j.old s).bsize = t.bsize ∧
      (t.loop j.old s).remaining ≤ 4 + 2 * (t.bsize.toNat / 4096) := by
  have hreach : t.offset.toNat / 4096 = chunkAt j.size i r := by
    rw [hr.offset, Int.toNat_natCast]
    omega
  have hi4 : i < 4 := hi
  rw [Worker.loop]
  by_cases hmore : 0 ≤ t.bsize - 4096
  · rw [if_pos hmore]
    exact ⟨⟨⟨hi, hn, ht, r, hr, by show 4096 ≤ t.bsize; omega⟩, rfl, hready⟩, hreach,
      rfl, Nat.le_refl _⟩
  · rw [if_neg hmore]
    by_cases hlast : t.number + 1 = THREADS_COUNT
    · have hi3 : i = 3 := by
        have h : t.number + 1 = 4 := hlast
        omega
      rw [if_pos hlast]
      refine ⟨⟨⟨hi, hn, ht, hi3, r, hr, by show t.bsize < 4096; omega, hb⟩, rfl, hready⟩,
        hreach, rfl, ?_⟩
      show 2 ≤ _
      omega
    · -- one of the first three workers has made as many rounds as its range has chunks
      have hi3 : i < 3 := by
        have h : ¬ t.number + 1 = 4 := hlast
        omega
      have hrange : rangeOf j.size i = ((4096 * share j.size : Nat) : Int) := if_pos hi3
      have hshare : r = share j.size := by
        have := hr.bsize
        rw [hrange] at this
        omega
      rw [if_neg hlast]
      refine ⟨⟨⟨hi, hn, ht, fun h => by omega, fun _ => by show t.bsize < 4096; omega,
        chunkAt j.size i r, hr.offset, fun _ => by rw [hshare], fun h => by omega⟩,
        s, hready⟩, hreach, rfl, Nat.zero_le _⟩

omit hj in
private theorem pread_calm {a : Answer} (ha : a.Calm)
    (data : List UInt8) (c : Nat) :
    Worker.pread a data ((4096 * c : Nat) : Int) = some (slice data (4096 * c) 4096) := by
  have hok : ¬ (a.fails = true ∨ ((4096 * c : Nat) : Int) < 0) := by
    rintro (h | h)
    · cases ha.fails.symm.trans h
    · omega
  rw [Worker.pread, if_neg hok, Int.toNat_natCast, Answer.cut, ha.limit]

omit hj in
/-- What a worker reads, and what it makes of it. -/
private theorem plain_read {a : Answer} (ha : a.Calm)
    {fs : FileStore} (hs : j.Shared fs) {o : Nat} (ho : o = j.old) (c : Nat) :
    ∃ buff, Worker.pread a (fs.data o) ((4096 * c : Nat) : Int) = some buff ∧
      buff.length = (j.chunk c).length ∧
      encryptBlocks j.dev.aes ((j.chunk c).length / 16) buff = j.chunk c := by
  refine ⟨slice j.plain (4096 * c) 4096, ?_, plain_chunk_length c, ?_⟩
  · rw [ho, hs.data, pread_calm ha]
  · rw [← plain_chunk_length]
    exact encrypt_chunk c

omit hj in
private theorem pwrite_calm {a : Answer} (ha : a.Calm)
    (fs : FileStore) (s : Nat) (buff : List UInt8) (off : Nat) :
    Worker.pwrite a fs s buff (off : Int) = fs.writeAt s off buff := by
  rw [Worker.pwrite, if_neg (by rw [ha.fails]; simp), Int.toNat_natCast, Answer.cut, ha.limit,
    List.take_length]

omit hj in
/-- Before the loop nothing has been copied. -/
private theorem hfirst {i : Nat} (t : Worker) (h : t.reached = t.offset.toNat / 4096)
    (hr : j.Round i 0 t.offset t.bsize) : t.reached = share j.size * i := by
  rw [h, hr.offset, Int.toNat_natCast, chunkAt, Nat.zero_min]
  omega

/-- A worker that has to go on at the end of the plain file is none of the last: its
    range reaches behind the end, and the end is where it stands. -/
theorem round_short {i r : Nat} {offset bsize : Int}
    (hr : j.Round i r offset bsize) (hb : 4096 ≤ bsize)
    (hpast : j.size / 4096 ≤ chunkAt j.size i r) :
    i < 3 ∧ j.size / 4096 < share j.size * i + share j.size ∧
      chunkAt j.size i r = j.size / 4096 := by
  have hc : chunkAt j.size i r
    = share j.size * i + min r (j.size / 4096 - share j.size * i) := rfl
  have hbs := hr.bsize
  by_cases hi3 : i < 3
  · have hrange : rangeOf j.size i = ((4096 * share j.size : Nat) : Int) := if_pos hi3
    have hstart : share j.size * i ≤ j.size / 4096 :=
      Nat.le_trans (Nat.mul_le_mul_left _ (by omega)) (share_two hj)
    rw [hrange] at hbs
    exact ⟨hi3, by omega, by omega⟩
  · -- the last range is as long as the file
    have hrange : rangeOf j.size i
        = (j.size : Int) - ((4096 * (share j.size * i) : Nat) : Int) := if_neg hi3
    rw [hrange] at hbs
    omega

omit hj in
/-- When the last range is not empty its loop goes up to the last complete chunk. -/
theorem round_last {r : Nat} {offset bsize : Int} (hr : j.Round 3 r offset bsize)
    (hb : bsize < 4096) (h3 : share j.size * 3 ≤ j.size / 4096) :
    chunkAt j.size 3 r = j.size / 4096 := by
  have hc : chunkAt j.size 3 r
    = share j.size * 3 + min r (j.size / 4096 - share j.size * 3) := rfl
  have hrange : rangeOf j.size 3
      = (j.size : Int) - ((4096 * (share j.size * 3) : Nat) : Int) := if_neg (by decide)
  have hbs := hr.bsize
  rw [hrange] at hbs
  omega

/-- The worker has nothing to wait for: it has not come to its loop yet, or the new file is
    ready. -/
def Led (j : Job) (fs : FileStore) (t : Worker) : Prop := t.inLoop = true → ∃ s, j.Ready fs s

/-- A step of worker `i` that a calm host lets happen: one of the effects, keeping the
    assertion.  When its open does not give descriptor 0, worker 0 comes to its loop behind
    the header only, and every worker comes closer to its end unless it has to wait for it. -/
def Steps (j : Job) (a : Answer) (i : Nat) (fs : FileStore) (t : Worker) : Prop :=
  ∃ fs' t', Worker.step j.dev j.path a fs t = some (fs', t') ∧ j.Effect i fs t fs' t' ∧
    j.Assert i fs' t' ∧ (a.hint ≠ 0 → j.Led fs t →
      (i = 0 → j.Led fs' t') ∧ (t.finished = false → t'.remaining < t.remaining))

omit hj in
/-- Outside its loop a worker has nothing to wait for. -/
theorem led_outside {fs : FileStore} {t : Worker} (h : t.inLoop = false) :
    j.Led fs t := fun hw => by rw [h] at hw; cases hw

section Cases

variable {a : Answer} {number : Nat} {fs : FileStore} {offset bsize tsize : Int}

omit hj in
private theorem start_step
    (ht : j.Assert number fs ⟨number, offset, bsize, tsize, .start⟩)
    (ha : a.Calm) (hfit : Fits j.path) :
    j.Steps a number fs ⟨number, offset, bsize, tsize, .start⟩ := by
  obtain ⟨⟨hi, -, htsize, hloc⟩, hat⟩ := ht
  by_cases h0 : number = 0 ∧ offset = 0
  · refine ⟨fs, ⟨number, offset, bsize, tsize, .clear⟩, ?_, .silent rfl rfl,
      ⟨⟨hi, rfl, htsize, hloc⟩, h0.1, hat h0.1⟩,
      fun _ _ => ⟨fun _ => led_outside rfl,
        fun _ => Nat.add_lt_add_right (show 15 < 16 by decide) _⟩⟩
    simp only [Worker.step, ha.fails, if_neg (not_not.mpr hfit), if_pos h0]
    rfl
  · have hne : number ≠ 0 := by
      intro hz
      apply h0
      refine ⟨hz, ?_⟩
      have := hloc.offset
      rw [hz] at this
      simpa [chunkAt] using this
    refine ⟨fs, ⟨number, offset, bsize, tsize, .waiting⟩, ?_, .silent rfl rfl,
      ⟨⟨hi, rfl, htsize, hloc⟩, trivial⟩,
      fun _ _ => ⟨fun hz => absurd hz hne,
        fun _ => Nat.add_lt_add_right (show 10 < 16 by decide) _⟩⟩
    simp only [Worker.step, ha.fails, if_neg (not_not.mpr hfit), if_neg h0]
    rfl

omit hj in
private theorem clear_step
    (ht : j.Assert number fs ⟨number, offset, bsize, tsize, .clear⟩) :
    j.Steps a number fs ⟨number, offset, bsize, tsize, .clear⟩ := by
  obtain ⟨⟨hi, -, htsize, hloc⟩, hat⟩ := ht
  refine ⟨fs, ⟨number, offset, bsize, tsize, .create⟩, ?_, .silent rfl rfl,
    ⟨⟨hi, rfl, htsize, hloc⟩, hat⟩,
    fun _ _ => ⟨fun _ => led_outside rfl,
      fun _ => Nat.add_lt_add_right (show 13 < 15 by decide) _⟩⟩
  have hnone : fs.names (get_security_path_by_path j.path) = none := hat.2
  simp only [Worker.step, Worker.there_none hnone]
  rfl

omit hj in
private theorem create_step
    (ht : j.Assert number fs ⟨number, offset, bsize, tsize, .create⟩)
    (ha : a.Calm) (hs : j.Shared fs) :
    j.Steps a number fs ⟨number, offset, bsize, tsize, .create⟩ := by
  obtain ⟨⟨hi, -, htsize, hloc⟩, hat⟩ := ht
  obtain ⟨h0, hnone⟩ := hat
  have hlt : j.old < fs.next := fs.names_lt _ _ hs.name
  have hno : ¬ ∃ s, j.Ready fs s := by
    rintro ⟨s, hr⟩
    cases hnone.symm.trans hr.name
  have htrunc : fs.createTrunc (get_security_path_by_path j.path)
      = (fs.create j.newPath, fs.next) := fs.createTrunc_none hnone
  by_cases hzero : a.hint = 0
  · -- descriptor 0 is taken for a failure
    refine ⟨fs.create j.newPath, ⟨number, offset, bsize, tsize, .waiting⟩, ?_,
      .stage hno (.created h0 hnone) (hfirst _ rfl hloc) rfl,
      ⟨⟨hi, rfl, htsize, hloc⟩, trivial⟩, fun hne => absurd hzero hne⟩
    simp only [Worker.step, ha.fails, htrunc, if_pos hzero]
    rfl
  · refine ⟨fs.create j.newPath, ⟨number, offset, bsize, tsize, .truncate fs.next⟩, ?_,
      .stage hno (.created h0 hnone) (hfirst _ rfl hloc) rfl, ⟨⟨hi, rfl, htsize, hloc⟩, h0,
        FileStore.create_names_self .., by omega, FileStore.create_data_self ..⟩,
      fun _ _ => ⟨fun _ => led_outside rfl,
        fun _ => Nat.add_lt_add_right (show 12 < 13 by decide) _⟩⟩
    simp only [Worker.step, ha.fails, htrunc, if_neg hzero]
    rfl

omit hj in
private theorem truncate_step {s : Nat}
    (ht : j.Assert number fs ⟨number, offset, bsize, tsize, .truncate s⟩)
    (ha : a.Calm) :
    j.Steps a number fs ⟨number, offset, bsize, tsize, .truncate s⟩ := by
  obtain ⟨⟨hi, -, htsize, hloc⟩, hat⟩ := ht
  obtain ⟨h0, hname, hne, hnil⟩ := hat
  refine ⟨fs.store s (zeroed (j.size + 4096)),
    ⟨number, offset, bsize, tsize, .header s⟩, ?_, .stage ?_ (.sized s h0 hname hne hnil)
      (hfirst _ rfl hloc) rfl, ⟨⟨hi, rfl, htsize, hloc⟩, h0, hname, hne,
      FileStore.store_data_self ..⟩,
    fun _ _ => ⟨fun _ => led_outside rfl,
      fun _ => Nat.add_lt_add_right (show 11 < 12 by decide) _⟩⟩
  · have htsize' : tsize = j.size := htsize
    have hneg : ¬ (a.fails = true ∨ tsize + 4096 < 0) := by
      rw [ha.fails, htsize']
      rintro (h | h)
      · cases h
      · omega
    have hcut : fs.truncate s (tsize + 4096).toNat
        = fs.store s (zeroed (j.size + 4096)) := by
      rw [FileStore.truncate, hnil, List.take_nil, List.nil_append, List.length_nil,
        htsize', Nat.sub_zero]
      rfl
    simp only [Worker.step, if_neg hneg, hcut]
    rfl
  · rintro ⟨s', hr⟩
    obtain rfl := hr.unique hname
    have := hr.length
    rw [hnil, List.length_nil] at this
    omega

omit hj in
private theorem header_step {s : Nat}
    (ht : j.Assert number fs ⟨number, offset, bsize, tsize, .header s⟩)
    (ha : a.Calm) :
    j.Steps a number fs ⟨number, offset, bsize, tsize, .header s⟩ := by
  obtain ⟨⟨hi, -, htsize, hloc⟩, hat⟩ := ht
  obtain ⟨h0, hname, hne, hzero⟩ := hat
  have hch := Change.headed (j := j) (i := number) s h0 hname hne hzero
  refine ⟨_, ⟨number, offset, bsize, tsize, .waiting⟩, ?_, .stage ?_ hch
      (hfirst _ rfl hloc) rfl, ⟨⟨hi, rfl, htsize, hloc⟩, trivial⟩,
    fun _ _ => ⟨fun _ _ => ⟨s, .headed hname hne⟩,
      fun _ => Nat.add_lt_add_right (show 10 < 11 by decide) _⟩⟩
  · have hoff : offset = ((0 : Nat) : Int) := by
      have h := hloc.offset
      rw [h0] at h
      simpa [chunkAt] using h
    have hwrite : fs.writeAt s 0 (newHeader j.dev.get_process_name)
        = fs.store s (j.header ++ zeroed j.size) := by
      have hlen : (newHeader j.dev.get_process_name).length = 4096 := newHeader_length _
      rw [FileStore.writeAt, hzero,
        ← memcpy_eq (by rw [zeroed_length, hlen]; omega), memcpy_zeroed (by omega), hlen,
        Nat.add_sub_cancel]
      rfl
    simp only [Worker.step, hoff, pwrite_calm ha, hwrite]
    rfl
  · rintro ⟨s', hr⟩
    exact header_ne_zeroed hr hname hzero

omit hj in
private theorem waiting_step
    (ht : j.Assert number fs ⟨number, offset, bsize, tsize, .waiting⟩) (ha : a.Calm) :
    j.Steps a number fs ⟨number, offset, bsize, tsize, .waiting⟩ := by
  obtain ⟨⟨hi, -, htsize, hloc⟩, -⟩ := ht
  cases hname : fs.names j.newPath with
  | none =>
      have hname' : fs.names (get_security_path_by_path j.path) = none := hname
      refine ⟨fs, ⟨number, offset, bsize, tsize, .waiting⟩, ?_, .silent rfl rfl,
        ⟨⟨hi, rfl, htsize, hloc⟩, trivial⟩, fun _ hled => ?_⟩
      · simp only [Worker.step, Worker.there_none hname']
        rfl
      · -- there is nothing to wait for any more
        obtain ⟨s, hready⟩ := hled rfl
        cases hname.symm.trans hready.name
  | some s =>
      have hname' : fs.names (get_security_path_by_path j.path) = some s := hname
      refine ⟨fs, ⟨number, offset, bsize, tsize, .probe⟩, ?_, .silent rfl rfl,
        ⟨⟨hi, rfl, htsize, hloc⟩, s, hname⟩,
        fun _ hled => ⟨fun _ _ => hled rfl,
          fun _ => Nat.add_lt_add_right (show 9 < 10 by decide) _⟩⟩
      simp only [Worker.step, Worker.there_some ha.denies hname']
      rfl

omit hj in
private theorem probe_step
    (ht : j.Assert number fs ⟨number, offset, bsize, tsize, .probe⟩)
    (ha : a.Calm) :
    j.Steps a number fs ⟨number, offset, bsize, tsize, .probe⟩ := by
  obtain ⟨⟨hi, -, htsize, hloc⟩, s, hname⟩ := ht
  have hname' : fs.names (get_security_path_by_path j.path) = some s := hname
  by_cases hzero : a.hint = 0
  · refine ⟨fs, ⟨number, offset, bsize, tsize, .waiting⟩, ?_, .silent rfl rfl,
      ⟨⟨hi, rfl, htsize, hloc⟩, trivial⟩, fun hne => absurd hzero hne⟩
    simp only [Worker.step, hname', if_pos (.inr hzero : a.fails = true ∨ a.hint = 0)]
    rfl
  · refine ⟨fs, ⟨number, offset, bsize, tsize, .probeRead s⟩, ?_, .silent rfl rfl,
      ⟨⟨hi, rfl, htsize, hloc⟩, hname⟩,
      fun _ hled => ⟨fun _ _ => hled rfl,
        fun _ => Nat.add_lt_add_right (show 8 < 9 by decide) _⟩⟩
    have hok : ¬ (a.fails = true ∨ a.hint = 0) := by
      rintro (h | h)
      · cases ha.fails.symm.trans h
      · exact hzero h
    simp only [Worker.step, hname', if_neg hok]
    rfl

omit hj in
private theorem probeRead_step {s : Nat}
    (ht : j.Assert number fs ⟨number, offset, bsize, tsize, .probeRead s⟩)
    (ha : a.Calm) (hs : j.Shared fs) :
    j.Steps a number fs ⟨number, offset, bsize, tsize, .probeRead s⟩ := by
  obtain ⟨⟨hi, -, htsize, hloc⟩, hat⟩ := ht
  have hname : fs.names j.newPath = some s := hat
  have hverdict : is_encrypted_by_file_header (memcpy (zeroed FILE_HEADER_POLL_SIZE) 0
      (slice (fs.data s) 0 FILE_HEADER_POLL_SIZE)) = typeOf (fs.data s) := rfl
  by_cases htype : typeOf (fs.data s) = FILE_TYPE_RIGHTS
  · -- only the finished file is taken for an encrypted one
    have hready : j.Ready fs s := by
      rcases (hs.stage s hname).2 with h | h | h
      · exact absurd ((congrArg typeOf h).symm.trans htype) (typeOf_zeroed 0)
      · exact absurd ((congrArg typeOf h).symm.trans htype) (typeOf_zeroed _)
      · exact h
    refine ⟨fs, ⟨number, offset, bsize, tsize, .entered⟩, ?_, .silent rfl rfl,
      ⟨⟨hi, rfl, htsize, hloc⟩, s, hready⟩,
      fun _ _ => ⟨fun _ => led_outside rfl,
        fun _ => Nat.add_lt_add_right (show 7 < 8 by decide) _⟩⟩
    simp only [Worker.step, ha.fails, Answer.cut, ha.limit, Bool.false_eq_true, if_false,
      hverdict, if_pos htype]
    rfl
  · refine ⟨fs, ⟨number, offset, bsize, tsize, .waiting⟩, ?_, .silent rfl rfl,
      ⟨⟨hi, rfl, htsize, hloc⟩, trivial⟩, fun _ hled => ?_⟩
    · simp only [Worker.step, ha.fails, Answer.cut, ha.limit, Bool.false_eq_true, if_false,
        hverdict, if_neg htype]
      rfl
    · obtain ⟨s', hready⟩ := hled rfl
      obtain rfl := hready.unique hname
      exact absurd (typeOf_head hready.head) htype

omit hj in
private theorem entered_step
    (ht : j.Assert number fs ⟨number, offset, bsize, tsize, .entered⟩) (ha : a.Calm) :
    j.Steps a number fs ⟨number, offset, bsize, tsize, .entered⟩ := by
  obtain ⟨⟨hi, -, htsize, hloc⟩, hat⟩ := ht
  obtain ⟨s, hready⟩ := hat
  have hname' : fs.names (get_security_path_by_path j.path) = some s := hready.name
  refine ⟨fs, ⟨number, offset, bsize, tsize, .openOld⟩, ?_, .silent rfl rfl,
    ⟨⟨hi, rfl, htsize, hloc⟩, s, hready⟩,
    fun _ _ => ⟨fun _ => led_outside rfl,
      fun _ => Nat.add_lt_add_right (show 6 < 7 by decide) _⟩⟩
  simp only [Worker.step, Worker.there_some ha.denies hname']
  rfl

omit hj in
private theorem openOld_step
    (ht : j.Assert number fs ⟨number, offset, bsize, tsize, .openOld⟩)
    (ha : a.Calm) (hs : j.Shared fs) :
    j.Steps a number fs ⟨number, offset, bsize, tsize, .openOld⟩ := by
  obtain ⟨⟨hi, -, htsize, hloc⟩, hat⟩ := ht
  refine ⟨fs, ⟨number, offset, bsize, tsize, .openNew j.old⟩, ?_, .silent rfl rfl,
    ⟨⟨hi, rfl, htsize, hloc⟩, rfl, hat⟩,
    fun _ _ => ⟨fun _ => led_outside rfl,
      fun _ => Nat.add_lt_add_right (show 5 < 6 by decide) _⟩⟩
  simp only [Worker.step, hs.name, ha.fails]
  rfl

omit hj in
private theorem openNew_step {o : Nat}
    (ht : j.Assert number fs ⟨number, offset, bsize, tsize, .openNew o⟩)
    (ha : a.Calm) :
    j.Steps a number fs ⟨number, offset, bsize, tsize, .openNew o⟩ := by
  obtain ⟨⟨hi, -, htsize, hloc⟩, hat⟩ := ht
  obtain ⟨ho, s, hready⟩ := hat
  have hname' : fs.names (get_security_path_by_path j.path) = some s := hready.name
  obtain ⟨hassert, hreach, hbs, hrem⟩ := loop_assert
    (t := ⟨number, offset, bsize, tsize, .openNew o⟩) hi rfl htsize hloc (.inl rfl) hready
  refine ⟨fs, _, ?_, .silent (hreach.trans ?_) hbs, hassert,
    fun _ _ => ⟨fun _ _ => ⟨s, hready⟩,
      fun _ => Nat.lt_of_le_of_lt hrem (Nat.add_lt_add_right (show 4 < 5 by decide) _)⟩⟩
  · simp only [Worker.step, hname', ha.fails, ho]
    rfl
  · show _ = offset.toNat / 4096
    rw [show offset = _ from hloc.offset, Int.toNat_natCast]
    omega

omit hj in
private theorem readChunk_step {o s : Nat}
    (ht : j.Assert number fs ⟨number, offset, bsize, tsize, .readChunk o s⟩)
    (ha : a.Calm) (hs : j.Shared fs) :
    j.Steps a number fs ⟨number, offset, bsize, tsize, .readChunk o s⟩ := by
  obtain ⟨⟨hi, -, htsize, hloc⟩, hat⟩ := ht
  obtain ⟨ho, hready⟩ := hat
  obtain ⟨r, hr, hb⟩ := hloc
  let c := chunkAt j.size number r
  have hoff : offset = ((4096 * c : Nat) : Int) := hr.offset
  have hlen : (j.chunk c).length = min 4096 (j.size - 4096 * c) := chunk_length c
  obtain ⟨plain, hread, hplain, henc⟩ := plain_read ha hs ho c
  rw [← hoff] at hread
  have hstep : Worker.step j.dev j.path a fs ⟨number, offset, bsize, tsize, .readChunk o s⟩
      = some (fs, ⟨number, if (j.chunk c).length = 4096 then offset + 4096 else offset,
        bsize, tsize, .writeChunk o s (j.chunk c)⟩) := by
    simp only [Worker.step, hread, hplain, henc]
    by_cases hfull : (j.chunk c).length = 4096
    · rw [if_pos hfull, if_pos hfull, hfull]
      rfl
    · rw [if_neg hfull, if_neg hfull]
  have hrem : ∀ off, (⟨number, off, bsize, tsize, .writeChunk o s (j.chunk c)⟩ :
      Worker).remaining < (⟨number, offset, bsize, tsize, .readChunk o s⟩ :
      Worker).remaining := fun _ => Nat.add_lt_add_right (show 3 < 4 by decide) _
  refine ⟨fs, _, hstep, .silent ?_ rfl, ⟨⟨hi, rfl, htsize, r, hb, rfl, ?_⟩, ho, hready⟩,
    fun _ _ => ⟨fun _ => led_outside rfl, fun _ => hrem _⟩⟩
  · show (if (j.chunk c).length = 4096 then _ else _) = offset.toNat / 4096
    by_cases hfull : (j.chunk c).length = 4096
    · simp only [if_pos hfull]
      omega
    · simp only [if_neg hfull]
  · by_cases hfull : (j.chunk c).length = 4096
    · refine .inl ⟨by omega, ?_, hr.bsize⟩
      show (if _ then _ else _ : Int) - 4096 = _
      rw [if_pos hfull]
      omega
    · refine .inr ⟨by omega, ?_, hr.bsize⟩
      show (if _ then _ else _ : Int) = _
      rw [if_neg hfull, hoff]

private theorem writeChunk_step {o s : Nat} {buff : List UInt8}
    (ht : j.Assert number fs ⟨number, offset, bsize, tsize, .writeChunk o s buff⟩)
    (ha : a.Calm) :
    j.Steps a number fs ⟨number, offset, bsize, tsize, .writeChunk o s buff⟩ := by
  obtain ⟨⟨hi, -, htsize, hloc⟩, hat⟩ := ht
  obtain ⟨ho, hready⟩ := hat
  obtain ⟨r, hb, hbuff, hcase⟩ := hloc
  let c := chunkAt j.size number r
  have hlen : (j.chunk c).length = min 4096 (j.size - 4096 * c) := chunk_length c
  have hbuff : buff = j.chunk c := hbuff
  have hstep : ∀ off : Nat, offset = (off : Int) →
      Worker.step j.dev j.path a fs ⟨number, offset, bsize, tsize, .writeChunk o s buff⟩
        = some (fs.writeAt s off (j.chunk c),
          Worker.loop ⟨number, offset, bsize - 4096, tsize, .writeChunk o s buff⟩
            j.old s) := by
    intro off hoff
    simp only [Worker.step, hoff, pwrite_calm ha, hbuff, ho]
  have hlow : 0 ≤ bsize - 4096 := by
    have : 4096 ≤ bsize := hb
    omega
  have hrem : ∀ t' : Worker, t'.remaining ≤ 4 + 2 * ((bsize - 4096).toNat / 4096) →
      t'.remaining < (⟨number, offset, bsize, tsize, .writeChunk o s buff⟩ :
        Worker).remaining := by
    intro t' h
    refine Nat.lt_of_le_of_lt h ?_
    show 4 + 2 * ((bsize - 4096).toNat / 4096) < 3 + 2 * (bsize.toNat / 4096)
    omega
  rcases hcase with ⟨hin, hround⟩ | ⟨hpast, hround⟩
  · -- a full chunk goes behind the header
    have hoff : offset = ((4096 * (c + 1) : Nat) : Int) := by
      have : offset - 4096 = ((4096 * c : Nat) : Int) := hround.offset
      omega
    have hin : c < j.size / 4096 := hin
    have hnext : chunkAt j.size number (r + 1) = c + 1 := chunkAt_next hin
    have hready' := hready.copied (4096 * (c + 1)) (j.chunk c) (by omega)
      (by omega)
    obtain ⟨hassert, hreach, hbs, hle⟩ := loop_assert (r := r + 1)
      (t := ⟨number, offset, bsize - 4096, tsize, .writeChunk o s buff⟩) hi rfl htsize
      (hround.succ (by rw [hnext]; exact hoff)) (.inr hlow) hready'
    refine ⟨_, _, hstep _ hoff, .copy hready ?_ (by omega) (.inl hin) (by rw [hreach, hnext])
      (fun _ => hbs), hassert, fun _ _ => ⟨fun _ _ => ⟨s, hready'⟩, fun _ => hrem _ hle⟩⟩
    show (if buff.length = 4096 then offset.toNat / 4096 - 1 else offset.toNat / 4096) = c
    rw [if_pos (by rw [hbuff]; omega)]
    omega
  · -- behind the end of the plain file the offset has not moved
    have hoff : offset = ((4096 * c : Nat) : Int) := hround.offset
    have hpast : j.size / 4096 ≤ c := hpast
    obtain ⟨hi3, hspan, hcN⟩ := round_short hj hround hb hpast
    have hcN : c = j.size / 4096 := hcN
    have hnext : chunkAt j.size number (r + 1) = c := chunkAt_stays hpast
    have hbig : 4096 * 4 < j.size := hj.1
    have hready' := hready.copied (4096 * c) (j.chunk c) (by omega)
      (by omega)
    obtain ⟨hassert, hreach, hbs, hle⟩ := loop_assert (r := r + 1)
      (t := ⟨number, offset, bsize - 4096, tsize, .writeChunk o s buff⟩) hi rfl htsize
      (hround.succ (by rw [hnext]; exact hoff)) (.inr hlow) hready'
    have hreached : (⟨number, offset, bsize, tsize, .writeChunk o s buff⟩ :
        Worker).reached = c := by
      show (if buff.length = 4096 then offset.toNat / 4096 - 1 else offset.toNat / 4096) = c
      rw [if_neg (by rw [hbuff]; omega)]
      omega
    have hstray := Effect.stray (j := j) (i := number) hready hi3 hspan (hreached.trans hcN)
      ((hreach.trans hnext).trans hcN) hbs
    rw [← hcN] at hstray
    exact ⟨_, _, hstep _ hoff, hstray, hassert,
      fun _ _ => ⟨fun _ _ => ⟨s, hready'⟩, fun _ => hrem _ hle⟩⟩

omit hj in
private theorem readTail_step {o s : Nat}
    (ht : j.Assert number fs ⟨number, offset, bsize, tsize, .readTail o s⟩)
    (ha : a.Calm) (hs : j.Shared fs) :
    j.Steps a number fs ⟨number, offset, bsize, tsize, .readTail o s⟩ := by
  obtain ⟨⟨hi, -, htsize, hloc⟩, hat⟩ := ht
  obtain ⟨ho, hready⟩ := hat
  obtain ⟨hi3, r, hr, hb, hpos⟩ := hloc
  let c := chunkAt j.size number r
  have hoff : offset = ((4096 * c : Nat) : Int) := hr.offset
  have hlen : (j.chunk c).length = min 4096 (j.size - 4096 * c) := chunk_length c
  obtain ⟨plain, hread, hplain, henc⟩ := plain_read ha hs ho c
  rw [← hoff] at hread
  by_cases hnil : (j.chunk c).length > 0
  · refine ⟨fs, ⟨number, offset + 4096, bsize, tsize, .writeTail o s (j.chunk c)⟩, ?_,
      .silent ?_ rfl, ⟨⟨hi, rfl, htsize, hi3, r, ⟨?_, hr.bsize⟩, hb, hpos, rfl,
        List.length_pos_iff.mp hnil⟩, ho, hready⟩,
      fun _ _ => ⟨fun _ => led_outside rfl, fun _ => Nat.lt_succ_self 1⟩⟩
    · simp only [Worker.step, hread, hplain, henc, if_pos hnil]
    · show (offset + 4096).toNat / 4096 - 1 = offset.toNat / 4096
      omega
    · show offset + 4096 - 4096 = _
      rw [Int.add_sub_cancel]
      exact hoff
  · refine ⟨fs, ⟨number, offset, bsize, tsize, .returned true⟩, ?_, .silent rfl rfl,
      ⟨⟨hi, rfl, htsize, fun _ => rfl, fun _ => hb, c, hoff, fun h => by omega,
        fun _ _ => by omega⟩, s, hready⟩,
      fun _ _ => ⟨fun _ => led_outside rfl, fun _ => Nat.zero_lt_two⟩⟩
    simp only [Worker.step, hread, hplain, if_neg hnil]
    rfl

omit hj in
private theorem writeTail_step {o s : Nat} {buff : List UInt8}
    (ht : j.Assert number fs ⟨number, offset, bsize, tsize, .writeTail o s buff⟩)
    (ha : a.Calm) :
    j.Steps a number fs ⟨number, offset, bsize, tsize, .writeTail o s buff⟩ := by
  obtain ⟨⟨hi, -, htsize, hloc⟩, hat⟩ := ht
  obtain ⟨ho, hready⟩ := hat
  obtain ⟨hi3, r, hr, hb, hpos, hbuff, hne⟩ := hloc
  let c := chunkAt j.size number r
  have hoff : offset = ((4096 * (c + 1) : Nat) : Int) := by
    have : offset - 4096 = ((4096 * c : Nat) : Int) := hr.offset
    omega
  have hbuff : buff = j.chunk c := hbuff
  have hlen : (j.chunk c).length = min 4096 (j.size - 4096 * c) := chunk_length c
  have hnil : 0 < (j.chunk c).length := hbuff ▸ List.length_pos_iff.mpr hne
  have hready' := hready.copied (4096 * (c + 1)) (j.chunk c) (by omega)
    (by omega)
  refine ⟨fs.writeAt s (4096 * (c + 1)) (j.chunk c),
    ⟨number, offset, bsize, tsize, .returned true⟩, ?_,
    .copy hready ?_ (by omega) (.inr ?_) ?_ (fun h => absurd hi3 (Nat.ne_of_lt h)),
    ⟨⟨hi, rfl, htsize, fun _ => rfl, fun _ => hb, c + 1, hoff, fun h => by omega,
      fun _ h3 => ?_⟩, s, hready'⟩,
    fun _ _ => ⟨fun _ => led_outside rfl, fun _ => Nat.zero_lt_one⟩⟩
  · simp only [Worker.step, hoff, pwrite_calm ha, hbuff]
    rfl
  · show offset.toNat / 4096 - 1 = c
    omega
  · have hstart : share j.size * 3 ≤ c := by
      rw [← hi3]
      exact Nat.le_add_right _ _
    omega
  · show offset.toNat / 4096 = c + 1
    omega
  · subst hi3
    have hc : c = j.size / 4096 := round_last hr hb h3
    omega

end Cases

/-- **One step of a calm host**, wherever the worker stands. -/
theorem calm_step {a : Answer} (ha : a.Calm) {i : Nat} {fs : FileStore} {t : Worker}
    (hs : j.Shared fs) (ht : j.Assert i fs t) (hfit : t.pc = .start → Fits j.path) :
    j.Steps a i fs t := by
  obtain ⟨number, offset, bsize, tsize, pc⟩ := t
  obtain rfl : number = i := ht.1.2.1
  cases pc with
  | start => exact start_step ht ha (hfit rfl)
  | clear => exact clear_step ht
  | remove => exact ht.2.elim
  | create => exact create_step ht ha hs
  | truncate _ => exact truncate_step ht ha
  | header _ => exact header_step ht ha
  | waiting => exact waiting_step ht ha
  | probe => exact probe_step ht ha
  | probeRead _ => exact probeRead_step ht ha hs
  | entered => exact entered_step ht ha
  | openOld => exact openOld_step ht ha hs
  | openNew _ => exact openNew_step ht ha
  | readChunk _ _ => exact readChunk_step ht ha hs
  | writeChunk _ _ _ => exact writeChunk_step hj ht ha
  | readTail _ _ => exact readTail_step ht ha hs
  | writeTail _ _ _ => exact writeTail_step ht ha
  | returned p =>
      exact ⟨fs, _, rfl, .silent rfl rfl, ht, fun _ _ => ⟨fun _ => led_outside rfl,
        fun hf => by cases hf⟩⟩

end Job

end TeWorker
