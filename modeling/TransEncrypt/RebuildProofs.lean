import TransEncrypt.BarrenProofs
import TransEncrypt.TransferProofs

/-! # Converting a plain file — `rebuild_file_struct`

    A file of up to four chunks is converted in place with one buffer.  A larger one is
    converted by four workers into `<path>.s`, which is then renamed to `<path>`.  The
    threads are started, run in the order the host decides, and are joined; a host gives
    them its `patience` of steps and is given up as not returning after that.

    * `rebuild_buffer_any`, `rebuild_buffer_calm`: the small branch puts the header in front
      and encrypts, as far as the host lets it;
    * `rebuild_workers_ready`: whatever the schedule, the large branch leaves a header and
      the right length;
    * `rebuild_converts`: and the same bytes as the small branch exactly when the
      conversion is harmless. -/

namespace TeRebuild

open Posix Overlay TeHeader Hoare TeProgram TeDetector TeStored TeTorn TeWorker TeBarren Interleave

/-! ## The program -/

/-- The calls of the thread library that only succeed or fail. -/
def pthread_attr_init : Sys Bool := kernelCall (fun k => (!k.answer.fails, k.tock 1))

def pthread_create : Sys Bool := kernelCall (fun k => (!k.answer.fails, k.tock 1))

def get_file_size_by_path (path : Path) : Sys Int := do
  match (← linker_stat path) with
  | some state => pure state.st_size
  | none => pure 0

def rename (old new : Path) : Sys Unit :=
  kernelCall (fun k => ((), if k.answer.fails then k.tock 1
    else (k.tock 1).setFiles (k.files.rename old new) (Nat.le_refl _)))

/-- The branch for small files, once the file is open. -/
def convert_in_place (dev : Device) (fd : Int) (size : Nat) : Sys Int := do
  if (← calloc) then do
    let buffer := (file_header_init dev.get_process_name (zeroed (size + 4096))).1
    let r ← linker_pread fd size 0
    if r.1 = size then do
      let buffer := memcpy buffer 4096 r.2
      let buffer := buffer.take 4096 ++ encryptBlocks dev.aes (size / 16) (buffer.drop 4096)
      let count ← linker_pwrite fd buffer 0
      pure (if count ≠ ((size + 4096 : Nat) : Int) then 0 else 1)
    else pure 0
  else pure 0

def rebuild_buffer (dev : Device) (path : Path) (size : Nat) : Sys Int := do
  let fd ← linker_open path { acc := .rdwr }
  if fd > 0 then do
    let result ← convert_in_place dev fd size
    let _ ← linker_close fd
    pure (id result)
  else pure 0

/-- Start the workers with these numbers; one that cannot be created is left out. -/
def create_workers (size : Nat) : List Nat → Sys (List Worker)
  | [] => pure []
  | i :: is => do
      let created ← pthread_create
      let ts ← create_workers size is
      pure (if created then workerArgs size i :: ts else ts)

/-- No step of a worker takes an inode away. -/
theorem step_next {dev : Device} {path : Path} {a : Answer} {fs fs' : FileStore}
    {t t' : Worker} (h : Worker.step dev path a fs t = some (fs', t')) :
    fs.next ≤ fs'.next := by
  have hpwrite : ∀ fd buff off, (Worker.pwrite a fs fd buff off).next = fs.next := by
    intro fd buff off
    rw [Worker.pwrite]
    split
    · rfl
    · rfl
  have hcreate : ∀ p, fs.next ≤ (fs.createTrunc p).1.next := by
    intro p
    rw [FileStore.createTrunc]
    split
    · exact Nat.le_succ _
    · exact Nat.le_refl _
  unfold Worker.step at h
  dsimp only at h
  split at h
  all_goals
    repeat' split at h
    all_goals first
      | (obtain ⟨rfl, -⟩ := Prod.mk.inj (Option.some.inj h)
         first
          | exact Nat.le_refl _
          | exact hcreate _
          | exact Nat.le_of_eq (hpwrite _ _ _).symm)
      | cases h

theorem poolStep_next {dev : Device} {path : Path} {a : Answer}
    {c c' : FileStore × List Worker} (h : (workers dev path).poolStep a c = some c') :
    c.1.next ≤ c'.1.next := by
  rcases System.poolStep_cases _ h with ⟨hs, -⟩ | ⟨i, t, t', -, -, hstep, -⟩
  · exact Nat.le_of_eq (by rw [hs])
  · exact step_next hstep

/-- An answer of the host as a worker sees it: the number that an `open` gives. -/
def grantedAt (k : Kernel) (a : Answer) : Answer := { a with hint := (k.freeFd a.hint).toNat }

def granted (k : Kernel) : Answer := grantedAt k k.answer

/-- The file that a step leaves open as descriptor 0, which the code takes for a failure. -/
def leaves (path : Path) (a : Answer) (fs : FileStore) (t : Worker) : Option (Nat × Flags) :=
  if a.fails = true ∨ a.hint ≠ 0 then none
  else match t.pc with
    | .create => some ((fs.createTrunc (get_security_path_by_path path)).2,
        { acc := .wronly, creat := true, trunc := true })
    | .probe => (fs.names (get_security_path_by_path path)).map fun i => (i, { acc := .rdonly })
    | _ => none

/-- It stays open. -/
def keepOpen (k : Kernel) : Option (Nat × Flags) → Kernel
  | none => k
  | some (i, flags) => if h : i < k.files.next then (k.install 0 i flags h).2 else k

/-- What the worker that steps leaves open. -/
def leftOpen (path : Path) (a : Answer) (c : FileStore × List Worker) : Option (Nat × Flags) :=
  c.2[a.who]?.bind (leaves path a c.1)

/-- One step of one of the started workers. -/
def run_worker (dev : Device) (path : Path) (ts : List Worker) : Sys (List Worker) := fun w =>
  match h : (workers dev path).poolStep (granted w.kern) (w.kern.files, ts) with
  | none => .error .undefined
  | some c => .ok (c.2, { w with
      kern := keepOpen ((w.kern.tock 1).setFiles c.1 (poolStep_next h))
        (leftOpen path (granted w.kern) (w.kern.files, ts)) })

/-- Up to `n` steps, until every worker has returned. -/
def run_workers (dev : Device) (path : Path) : Nat → List Worker → Sys (List Worker)
  | 0, ts => if ts.all Worker.finished then pure ts else fun _ => .error .waiting
  | n + 1, ts =>
      if ts.all Worker.finished then pure ts
      else do
        let ts ← run_worker dev path ts
        run_workers dev path n ts

def join_workers (dev : Device) (path : Path) (ts : List Worker) : Sys (List Worker) :=
  fun w => run_workers dev path w.kern.host.patience ts w

/-- The branch for large files.  The workers that return a path all return the same. -/
def rebuild_workers (dev : Device) (path : Path) (size : Nat) : Sys Int := do
  if (← pthread_attr_init) then do
    let ts ← create_workers size (List.range THREADS_COUNT)
    let buffer ← calloc
    let ts ← join_workers dev path ts
    if ts.any (fun t => t.pc = .returned true) then do
      if buffer then do
        let _ ← rename (get_security_path_by_path path) path
        pure 1
      else undefinedBehaviour     -- a copy to a null pointer
    else pure 0
  else pure 0

def rebuild_file_struct (dev : Device) (path : Path) (size : Int) : Sys Int :=
  if path = [] then pure 0
  else if size > 0 then
    if size ≤ ((4096 * THREADS_COUNT : Nat) : Int) then rebuild_buffer dev path size.toNat
    else rebuild_workers dev path size.toNat
  else pure 0

/-! ## What it leaves alone, whatever the host does -/

theorem kept_keepOpen (k : Kernel) (o : Option (Nat × Flags)) :
    Kernel.Kept k (keepOpen k o) ∧ (keepOpen k o).files = k.files ∧
      (keepOpen k o).tick = k.tick := by
  cases o with
  | none => exact ⟨.refl k, rfl, rfl⟩
  | some o =>
      rw [keepOpen]
      split
      · exact ⟨Kernel.Gained.kept ⟨k.freeFd_not_inUse 0, k.freeFd_nonneg 0, rfl,
          fun _ hj => Kernel.install_desc_lt hj, rfl⟩, rfl, rfl⟩
      · exact ⟨.refl k, rfl, rfl⟩

theorem kept_run_worker (dev : Device) (path : Path) (ts : List Worker) :
    Frames (run_worker dev path ts) := by
  intro w ts' w' h
  unfold run_worker at h
  split at h
  · cases h
  · obtain ⟨-, rfl⟩ := Prod.mk.inj (Except.ok.inj h)
    exact ⟨((Kernel.Kept.tock _ 1).trans (.setFiles _ _ (poolStep_next ‹_›))).trans
      (kept_keepOpen _ _).1, rfl⟩

theorem kept_run_workers (dev : Device) (path : Path) :
    ∀ n ts, Frames (run_workers dev path n ts) := by
  intro n
  induction n with
  | zero =>
      intro ts
      refine .ite (.pure ts) ?_
      intro w ts' w' h
      cases h
  | succ n ih =>
      intro ts
      exact .ite (.pure ts) (.bind (kept_run_worker dev path ts) ih)

theorem kept_join_workers (dev : Device) (path : Path) (ts : List Worker) :
    Frames (join_workers dev path ts) := fun _ _ _ h => kept_run_workers dev path _ ts h

theorem kept_create_workers (size : Nat) : ∀ is, Frames (create_workers size is) := by
  intro is
  induction is with
  | nil => exact .pure []
  | cons i is ih =>
      exact .bind (Frames.call fun k => .tock k 1) fun _ => .bind ih fun _ => .pure _

theorem kept_rename (old new : Path) : Frames (rename old new) := by
  refine Frames.call fun k => ?_
  dsimp only
  split
  · exact .tock k 1
  · exact (Kernel.Kept.tock k 1).trans (.setFiles (k.tock 1) _ _)

theorem kept_file_size (path : Path) : Frames (get_file_size_by_path path) := by
  refine .bind (Frames.stat path) fun state => ?_
  cases state with
  | none => exact .pure 0
  | some state => exact .pure _

theorem kept_rebuild (dev : Device) (path : Path) (size : Int) :
    Frames (rebuild_file_struct dev path size) := by
  refine .ite (.pure 0) (.ite (.ite ?_ ?_) (.pure 0))
  · refine Frames.opening (fun fd => ?_) (.pure 0)
    refine .bind Frames.alloc fun _ => .ite (.bind (Frames.pread fd _ 0) fun r => ?_) (.pure 0)
    exact .ite (.bind (Frames.pwrite fd _ 0) fun _ => .pure _) (.pure 0)
  · refine .bind (Frames.call fun k => .tock k 1) fun _ => .ite ?_ (.pure 0)
    refine .bind (kept_create_workers _ _) fun _ => .bind Frames.alloc fun _ => ?_
    refine .bind (kept_join_workers dev path _) fun _ => .ite (.ite ?_ (.stop _)) (.pure 0)
    exact .bind (kept_rename _ _) fun _ => .pure 1

/-! ## Small files -/

/-- What a plain file is converted to. -/
def converted (dev : Device) (C : List UInt8) : List UInt8 :=
  newHeader dev.get_process_name ++ stored dev.aes C

theorem converted_hasHeader (dev : Device) (C : List UInt8) : HasHeader (converted dev C) :=
  hasHeader_append (newHeader_length _) (newHeader_rights _) _

theorem converted_length (dev : Device) (C : List UInt8) :
    (converted dev C).length = C.length + 4096 := by
  rw [converted, List.length_append, newHeader_length, stored_length, Nat.add_comm]
  rfl

/-- The buffer that is written back. -/
theorem buffer_eq (dev : Device) (C : List UInt8) :
    let buffer := memcpy (file_header_init dev.get_process_name (zeroed (C.length + 4096))).1
      4096 C
    buffer.take 4096 ++ encryptBlocks dev.aes (C.length / 16) (buffer.drop 4096)
      = converted dev C := by
  have hfront : (file_header_init dev.get_process_name (zeroed (C.length + 4096))).1.take 4096
      = newHeader dev.get_process_name := by
    rw [file_header_init_take _ (by rw [zeroed_length]; omega), zeroed, List.take_replicate,
      Nat.min_eq_left (by omega)]
    rfl
  intro buffer
  have hbuffer : buffer = newHeader dev.get_process_name ++ C := by
    rw [← hfront]
    exact memcpy_rest (by rw [file_header_init_length, zeroed_length]; omega)
  have hlen : (newHeader dev.get_process_name).length = 4096 := newHeader_length _
  rw [hbuffer, List.take_left' hlen, List.drop_left' hlen, converted, stored_eq]

/-- There is memory, and all of the file is read: the next call is the write. -/
def Fills (k : Kernel) (n : Nat) : Prop :=
  k.answer.fails = false ∧ reported (k.tock 1).answer n = n

/-- The file is opened, as a descriptor other than 0, and the write is reached. -/
def Overwrites (k : Kernel) (n : Nat) : Prop :=
  k.answer.fails = false ∧ k.freeFd k.answer.hint > 0 ∧ Fills (k.tock 1) n

/-- How much of the header and the content is written. -/
def putBack (k : Kernel) (n : Nat) : Nat := given (k.tock 3).answer (n + 4096)

section Small

variable {dev : Device} {path : Path} {w : World} {i : Nat} {C : List UInt8}

/-- The branch once the file is open, whatever the host answers. -/
theorem convert_in_place_any {k : Kernel} {fd : Int} {id : Nat} (hf : k.find fd = some id)
    (hd : k.desc id = { inode := i, pos := 0, flags := { acc := .rdwr } })
    (hdata : k.files.data i = C) :
    (Fills k C.length → convert_in_place dev fd C.length { w with kern := k } =
      .ok (if given (k.tock 2).answer (C.length + 4096) = C.length + 4096 then 1 else 0,
        { w with kern := (k.tock 3).setData i (overlay 0 C 0
          ((converted dev C).take (given (k.tock 2).answer (C.length + 4096)))) })) ∧
    (¬ Fills k C.length → ∃ n, convert_in_place dev fd C.length { w with kern := k } =
      .ok (0, { w with kern := k.tock n })) := by
  have hcalloc : calloc { w with kern := k } =
      .ok (!k.answer.fails, { w with kern := k.tock 1 }) := rfl
  by_cases hmemory : k.answer.fails = false
  swap
  · refine ⟨fun h => absurd h.1 hmemory, fun _ => ⟨1, ?_⟩⟩
    rw [convert_in_place, bind_ok hcalloc, if_neg (by simpa using hmemory)]
    rfl
  have hd' : ∀ n, (k.tock n).desc id = { inode := i, pos := 0, flags := { acc := .rdwr } } :=
    fun _ => hd
  have hpread : linker_pread fd C.length 0 { w with kern := k.tock 1 } =
      .ok ((reported (k.tock 1).answer C.length, C.take (given (k.tock 1).answer C.length)),
        { w with kern := k.tock 2 }) := by
    apply linker_pread_ok
    refine sysPread_any (k := k.tock 1) hf (by rw [hd']) (by rw [hd']; rfl) ?_
    rw [hd']
    exact hdata
  by_cases hfull : reported (k.tock 1).answer C.length = C.length
  swap
  · refine ⟨fun h => absurd h.2 hfull, fun _ => ⟨2, ?_⟩⟩
    rw [convert_in_place, bind_ok hcalloc, if_pos (by rw [hmemory]; rfl), bind_ok hpread,
      if_neg hfull]
    rfl
  -- the write
  refine ⟨fun _ => ?_, fun h => absurd ⟨hmemory, hfull⟩ h⟩
  have hlen := converted_length dev C
  have hpwrite : linker_pwrite fd (converted dev C) 0 { w with kern := k.tock 2 } =
      .ok (reported (k.tock 2).answer (C.length + 4096),
        { w with kern := (k.tock 3).setData i (overlay 0 C 0
          ((converted dev C).take (given (k.tock 2).answer (C.length + 4096)))) }) := by
    have hwrite := @sysPwrite_any (k.tock 2) fd id hf (by rw [hd']) (converted dev C) 0
    have hallowed : allowed ((k.tock 2).desc id).flags.acc.writable (k.tock 2).answer
        = (k.tock 2).answer := by
      rw [hd']
      exact allowed_true _
    simp only [hallowed, hlen] at hwrite
    refine linker_pwrite_ok (hwrite.trans ?_)
    rw [hd']
    show (_, (k.tock 3).setData i (overlay 0 (k.files.data i) 0 _)) = _
    rw [hdata]
  have hread : C.take (given (k.tock 1).answer C.length) = C := by
    rw [← reported_toNat, hfull, Int.toNat_natCast, List.take_length]
  have hresult : (if reported (k.tock 2).answer (C.length + 4096) ≠ ((C.length + 4096 : Nat) : Int)
      then (0 : Int) else 1)
      = if given (k.tock 2).answer (C.length + 4096) = C.length + 4096 then 1 else 0 := by
    have hiff := reported_full (k.tock 2).answer (Nat.succ_pos (C.length + 4095))
    by_cases hall : given (k.tock 2).answer (C.length + 4096) = C.length + 4096
    · rw [if_pos hall, if_neg (not_not.mpr (hiff.mpr hall))]
    · rw [if_neg hall, if_pos (fun h => hall (hiff.mp h))]
  rw [convert_in_place, bind_ok hcalloc, if_pos (by rw [hmemory]; rfl), bind_ok hpread,
    if_pos hfull]
  simp only
  rw [hread, buffer_eq dev C, bind_ok hpwrite, ← hresult]
  rfl

variable (hname : w.kern.files.names path = some i) (hdata : w.kern.files.data i = C)
include hname hdata

/-- **The single-buffer branch**, whatever the host answers. -/
theorem rebuild_buffer_any :
    (Overwrites w.kern C.length → ∃ k', rebuild_buffer dev path C.length w =
        .ok (if putBack w.kern C.length = C.length + 4096 then 1 else 0,
          { w with kern := k' }) ∧
      Kernel.Quiet (w.kern.setData i
        (overlay 0 C 0 ((converted dev C).take (putBack w.kern C.length)))) k') ∧
    (¬ Overwrites w.kern C.length → ∃ k', rebuild_buffer dev path C.length w =
        .ok (0, { w with kern := k' }) ∧ k'.files = w.kern.files) := by
  let k := w.kern
  let fd := k.freeFd k.answer.hint
  by_cases hopens : k.answer.fails = false
  swap
  · -- the open fails
    refine ⟨fun h => absurd h.1 hopens, fun _ => ⟨k.tock 1, ?_, rfl⟩⟩
    have hopen : linker_open path { acc := .rdwr } w = .ok (-1, { w with kern := k.tock 1 }) := by
      apply linker_open_ok
      rw [Kernel.sysOpen, if_pos (by simpa using hopens)]
    rw [rebuild_buffer, bind_ok hopen, if_neg (by decide)]
    rfl
  let k₁ := ((k.tock 1).install k.answer.hint i { acc := .rdwr }
    (k.files.names_lt _ _ hname)).2
  have hopen : linker_open path { acc := .rdwr } w = .ok (fd, { w with kern := k₁ }) :=
    linker_open_ok (Kernel.sysOpen_found hopens hname rfl rfl)
  by_cases hfd : fd > 0
  swap
  · -- descriptor 0 is taken for a failure
    refine ⟨fun h => absurd h.2.1 hfd, fun _ => ⟨k₁, ?_, rfl⟩⟩
    rw [rebuild_buffer, bind_ok hopen, if_neg hfd]
    rfl
  have hf : k₁.find fd = some k.nextDesc := Kernel.install_find_self
  have hd : k₁.desc k.nextDesc = { inode := i, pos := 0, flags := { acc := .rdwr } } :=
    Kernel.install_desc_self
  have hold : ∀ id, id < k.nextDesc → k₁.desc id = k.desc id := fun id h =>
    Kernel.install_desc_lt (k := k.tock 1) h
  -- the descriptor is closed, whatever the result
  have hrest : ∀ {r : Int} (k₂ : Kernel), k₂.find fd = some k.nextDesc →
      convert_in_place dev fd C.length { w with kern := k₁ } = .ok (r, { w with kern := k₂ }) →
      rebuild_buffer dev path C.length w =
        .ok (r, { w with kern := (k₂.tock 1).dropFd fd }) := by
    intro r k₂ hf₂ hin
    have hclose : k₂.sysClose fd = ((k₂.sysClose fd).1, (k₂.tock 1).dropFd fd) := by
      simp only [Kernel.sysClose, hf₂]
    rw [rebuild_buffer, bind_ok hopen, if_pos hfd, bind_ok hin,
      bind_ok (linker_close_ok (w := { w with kern := k₂ }) hclose)]
    rfl
  obtain ⟨hwrites, hnothing⟩ := @convert_in_place_any dev w i C k₁ fd k.nextDesc hf hd hdata
  constructor
  · rintro ⟨-, -, hfills⟩
    let k₂ := (k₁.tock 3).setData i
      (overlay 0 C 0 ((converted dev C).take (putBack k C.length)))
    refine ⟨_, hrest k₂ hf (hwrites hfills), rfl, ?_, rfl, fun id hid => ?_, Nat.le_succ _⟩
    · exact k.filter_bound k.answer.hint k.nextDesc
    · exact hold id hid
  · intro hno
    obtain ⟨n, hrun⟩ := hnothing fun h => hno ⟨hopens, hfd, h⟩
    exact ⟨_, hrest (k₁.tock n) hf hrun, rfl⟩

/-- The buffered conversion of a whole file. -/
theorem rebuild_buffer_calm (hc : w.kern.host.Calm)
    (hfd : w.kern.freeFd w.kern.answer.hint > 0) :
    ∃ k', rebuild_buffer dev path C.length w = .ok (1, { w with kern := k' }) ∧
      Kernel.Quiet (w.kern.setData i (converted dev C)) k' := by
  have hover : Overwrites w.kern C.length :=
    ⟨(hc _).1, hfd, (hc _).1, reported_calm hc (w.kern.tick + 2) _⟩
  have hput : putBack w.kern C.length = C.length + 4096 := given_calm hc (w.kern.tick + 3) _
  have hlen := converted_length dev C
  obtain ⟨k', hrun, hq⟩ := (@rebuild_buffer_any dev path w i C hname hdata).1 hover
  rw [if_pos hput] at hrun
  rw [hput, ← hlen, List.take_length, overlay_all 0 (by omega)] at hq
  exact ⟨k', hrun, hq⟩

end Small

/-! ## Large files -/

/-- The files may have changed, and the clock has moved on; nothing else. -/
structure FilesOnly (w w' : World) : Prop where
  fds : w'.kern.fds = w.kern.fds
  desc : w'.kern.desc = w.kern.desc
  nextDesc : w'.kern.nextDesc = w.kern.nextDesc
  host : w'.kern.host = w.kern.host
  list : w'.file_info_list = w.file_info_list

theorem FilesOnly.refl (w : World) : FilesOnly w w := ⟨rfl, rfl, rfl, rfl, rfl⟩

theorem FilesOnly.trans {w w' w'' : World} (h : FilesOnly w w') (h' : FilesOnly w' w'') :
    FilesOnly w w'' :=
  ⟨h'.fds.trans h.fds, h'.desc.trans h.desc, h'.nextDesc.trans h.nextDesc,
    h'.host.trans h.host, h'.list.trans h.list⟩

section Workers

variable {dev : Device} {path : Path}

/-- With descriptor 0 in use no worker is given it, and none is left open. -/
theorem granted_hint {k : Kernel} (h0 : k.InUse 0) (a : Answer) : (grantedAt k a).hint ≠ 0 := by
  show (k.freeFd a.hint).toNat ≠ 0
  have := k.freeFd_pos h0 a.hint
  omega

theorem leftOpen_none {a : Answer} (ha : a.hint ≠ 0) (c : FileStore × List Worker) :
    leftOpen path a c = none := by
  rw [leftOpen]
  cases c.2[a.who]? with
  | none => rfl
  | some t => exact if_pos (.inr ha)

theorem run_worker_inv {ts ts' : List Worker} {w w' : World}
    (h : run_worker dev path ts w = .ok (ts', w')) :
    (workers dev path).poolStep (granted w.kern) (w.kern.files, ts) =
        some (w'.kern.files, ts') ∧
      w'.kern.host = w.kern.host ∧ w'.kern.tick = w.kern.tick + 1 ∧
      (leftOpen path (granted w.kern) (w.kern.files, ts) = none → FilesOnly w w') := by
  unfold run_worker at h
  split at h
  · cases h
  · rename_i c hstep
    obtain ⟨rfl, rfl⟩ := Prod.mk.inj (Except.ok.inj h)
    obtain ⟨hkept, hfiles, htick⟩ := kept_keepOpen
      ((w.kern.tock 1).setFiles c.1 (poolStep_next hstep))
      (leftOpen path (granted w.kern) (w.kern.files, ts))
    refine ⟨?_, hkept.host, htick, fun hnone => ?_⟩
    · rw [hfiles]
      exact hstep
    · rw [hnone]
      exact ⟨rfl, rfl, rfl, rfl, rfl⟩

theorem run_worker_ok {ts ts' : List Worker} {fs' : FileStore} {w : World}
    (h0 : w.kern.InUse 0)
    (h : (workers dev path).poolStep (granted w.kern) (w.kern.files, ts) = some (fs', ts')) :
    ∃ hn, run_worker dev path ts w =
      .ok (ts', { w with kern := (w.kern.tock 1).setFiles fs' hn }) := by
  refine ⟨poolStep_next h, ?_⟩
  unfold run_worker
  split
  · rename_i hnone
    cases h.symm.trans hnone
  · rename_i c hstep
    obtain rfl := Option.some.inj (h.symm.trans hstep)
    have hnone : leftOpen path (granted w.kern) (w.kern.files, ts) = none :=
      leftOpen_none (granted_hint h0 _) _
    simp only [hnone]
    rfl

/-- The answers of a host to `n` calls from the `t`-th on. -/
def answersFrom (host : Host) (t n : Nat) : List Answer :=
  (List.range n).map fun m => host.answer (t + m)

theorem answersFrom_succ (host : Host) (t n : Nat) :
    answersFrom host t (n + 1) = host.answer t :: answersFrom host (t + 1) n := by
  rw [answersFrom, List.range_succ_eq_map, List.map_cons, List.map_map, answersFrom]
  congr 1
  apply List.map_congr_left
  intro m _
  show host.answer (t + (m + 1)) = _
  congr 1
  omega

theorem answersFrom_add (host : Host) (n : Nat) : ∀ (m t : Nat),
    answersFrom host t (m + n) = answersFrom host t m ++ answersFrom host (t + m) n := by
  intro m
  induction m with
  | zero => intro t; rw [Nat.zero_add]; rfl
  | succ m ih =>
      intro t
      rw [Nat.succ_add, answersFrom_succ, answersFrom_succ, ih, List.cons_append,
        show t + 1 + m = t + (m + 1) from by omega]

/-- The answers of a calm host. -/
theorem answersFrom_calm {host : Host} (hc : host.Calm) (t n : Nat) :
    ∀ a ∈ answersFrom host t n, Answer.Calm a := by
  intro a ha
  obtain ⟨m, -, rfl⟩ := List.mem_map.mp ha
  exact hc (t + m)

/-- The host with these numbers for the descriptors it gives. -/
def numbered (host : Host) (num : Nat → Nat) : Host :=
  { host with answer := fun t => { host.answer t with hint := num t } }

theorem numbered_calm {host : Host} (hc : host.Calm) (num : Nat → Nat) :
    (numbered host num).Calm := fun t => ⟨(hc t).fails, (hc t).limit, (hc t).denies⟩

/-- Numbers that the host can give from this state on: with descriptor 0 in use, not 0. -/
def Numbers (w : World) (num : Nat → Nat) : Prop := w.kern.InUse 0 → ∀ t, num t ≠ 0

/-- What is known of a run of the workers that ended after `m` steps: it is an interleaving
    that the host decides, under some numbers for the descriptors, and no shorter one ends. -/
structure Trace (dev : Device) (path : Path) (ts ts' : List Worker) (w w' : World) (m : Nat)
    (num : Nat → Nat) : Prop where
  numbers : Numbers w num
  run : (workers dev path).poolRun (answersFrom (numbered w.kern.host num) w.kern.tick m)
    (w.kern.files, ts) = some (w'.kern.files, ts')
  first : ∀ l, l < m → ∀ c, (workers dev path).poolRun
    (answersFrom (numbered w.kern.host num) w.kern.tick l) (w.kern.files, ts) = some c →
      ¬ ∀ t ∈ c.2, t.finished = true
  finished : ∀ t ∈ ts', t.finished = true
  host : w'.kern.host = w.kern.host
  tick : w'.kern.tick = w.kern.tick + m
  only : w.kern.InUse 0 → FilesOnly w w'

/-- Running the workers to their end is such an interleaving. -/
theorem run_workers_trace : ∀ n {ts ts' : List Worker} {w w' : World},
    run_workers dev path n ts w = .ok (ts', w') → ∃ m num, Trace dev path ts ts' w w' m num := by
  intro n
  have hstop : ∀ {ts ts' : List Worker} {w w' : World}, ts.all Worker.finished = true →
      (pure ts : Sys (List Worker)) w = .ok (ts', w') →
      ∃ m num, Trace dev path ts ts' w w' m num := by
    intro ts ts' w w' hall h
    obtain ⟨rfl, rfl⟩ := pure_inv h
    exact ⟨0, fun _ => 1, fun _ _ => Nat.one_ne_zero, rfl,
      (fun l hl => absurd hl (Nat.not_lt_zero l)), List.all_eq_true.mp hall, rfl, rfl,
      fun _ => .refl _⟩
  induction n with
  | zero =>
      intro ts ts' w w' h
      by_cases hall : ts.all Worker.finished = true
      · rw [run_workers, if_pos hall] at h
        exact hstop hall h
      · rw [run_workers, if_neg hall] at h
        cases h
  | succ n ih =>
      intro ts ts' w w' h
      by_cases hall : ts.all Worker.finished = true
      · rw [run_workers, if_pos hall] at h
        exact hstop hall h
      · rw [run_workers, if_neg hall] at h
        obtain ⟨ts₁, w₁, h1, h2⟩ := bind_inv h
        obtain ⟨hstep, hhost₁, htick₁, honly₁⟩ := run_worker_inv h1
        have honly₁ : w.kern.InUse 0 → FilesOnly w w₁ := fun h0 =>
          honly₁ (leftOpen_none (granted_hint h0 _) _)
        obtain ⟨m, num, hnum, hrun, hmin, hfin, hhost, htick, honly⟩ := ih h2
        rw [hhost₁, htick₁] at hrun hmin
        -- the number that this step is given, and the later ones
        let num' : Nat → Nat := fun t =>
          if t = w.kern.tick then (granted w.kern).hint else num t
        have hzero : w.kern.InUse 0 → w₁.kern.InUse 0 := by
          intro h0
          rw [Kernel.InUse, (honly₁ h0).fds]
          exact h0
        have hlater : ∀ l, answersFrom (numbered w.kern.host num') (w.kern.tick + 1) l
            = answersFrom (numbered w.kern.host num) (w.kern.tick + 1) l := by
          intro l
          refine List.map_congr_left fun k _ => ?_
          show ({ w.kern.host.answer (w.kern.tick + 1 + k) with hint := num' _ } : Answer) = _
          rw [show num' (w.kern.tick + 1 + k) = num (w.kern.tick + 1 + k) from
            if_neg (by omega)]
          rfl
        have hnow : (numbered w.kern.host num').answer w.kern.tick = granted w.kern := by
          show ({ w.kern.host.answer w.kern.tick with hint := num' _ } : Answer) = _
          rw [show num' w.kern.tick = (granted w.kern).hint from if_pos rfl]
          rfl
        have hnext : ∀ l, (workers dev path).poolRun
            (answersFrom (numbered w.kern.host num') w.kern.tick (l + 1)) (w.kern.files, ts) =
              (workers dev path).poolRun
                (answersFrom (numbered w.kern.host num) (w.kern.tick + 1) l)
                (w₁.kern.files, ts₁) := by
          intro l
          rw [answersFrom_succ, hlater, hnow]
          show ((workers dev path).poolStep _ _).bind _ = _
          rw [hstep]
          rfl
        refine ⟨m + 1, num', fun h0 t => ?_, (hnext m).trans hrun, ?_, hfin,
          hhost.trans hhost₁, by omega, fun h0 => (honly₁ h0).trans (honly (hzero h0))⟩
        · show (if t = w.kern.tick then (granted w.kern).hint else num t) ≠ 0
          split
          · exact granted_hint h0 _
          · exact hnum (hzero h0) t
        · intro l hl c hc
          cases l with
          | zero =>
              obtain rfl := Option.some.inj hc
              exact fun h => hall (List.all_eq_true.mpr h)
          | succ l => exact hmin l (Nat.lt_of_succ_lt_succ hl) c ((hnext l).symm.trans hc)

/-- When all have returned no choice changes anything. -/
theorem poolRun_finished {ts : List Worker} (hfin : ∀ t ∈ ts, t.finished = true)
    (fs : FileStore) : ∀ as, (workers dev path).poolRun as (fs, ts) = some (fs, ts) := by
  intro as
  induction as with
  | nil => rfl
  | cons a as ih =>
      have hstep : (workers dev path).poolStep a (fs, ts) = some (fs, ts) := by
        cases ht : ts[(workers dev path).pick a]? with
        | none => exact System.poolStep_none _ ht
        | some t =>
            have hdone := hfin t (List.mem_of_getElem? ht)
            have hone : (workers dev path).step a fs t = some (fs, t) := by
              obtain ⟨number, offset, bsize, tsize, pc⟩ := t
              cases pc with
              | returned p => rfl
              | _ => cases hdone
            rw [System.poolStep_some _ ht, hone, Option.map_some]
            obtain ⟨hlt, hget⟩ := List.getElem?_eq_some_iff.mp ht
            rw [← hget, List.set_getElem_self]
      show ((workers dev path).poolStep a (fs, ts)).bind _ = _
      rw [hstep]
      exact ih

/-- A host whose answers are those of an interleaving lets the workers run along it. -/
theorem run_workers_ok : ∀ (as : List Answer) {n : Nat} {ts ts' : List Worker}
    {fs' : FileStore} {w : World}, as.length ≤ n → w.kern.InUse 0 →
    (∀ m (hm : m < as.length),
      grantedAt w.kern (w.kern.host.answer (w.kern.tick + m)) = as[m]) →
    (workers dev path).poolRun as (w.kern.files, ts) = some (fs', ts') →
    (∀ t ∈ ts', t.finished = true) →
    ∃ w', run_workers dev path n ts w = .ok (ts', w') ∧ w'.kern.files = fs' ∧
      FilesOnly w w' := by
  intro as
  have hdone : ∀ n {ts : List Worker} {w : World}, ts.all Worker.finished = true →
      run_workers dev path n ts w = .ok (ts, w) := by
    intro n ts w hall
    cases n with
    | zero =>
        rw [run_workers, if_pos hall]
        rfl
    | succ n =>
        rw [run_workers, if_pos hall]
        rfl
  induction as with
  | nil =>
      intro n ts ts' fs' w _ _ _ hrun hfin
      obtain ⟨rfl, rfl⟩ := Prod.mk.inj (Option.some.inj hrun)
      exact ⟨w, hdone n (List.all_eq_true.mpr hfin), rfl, .refl w⟩
  | cons a as ih =>
      intro n ts ts' fs' w hn h0 has hrun hfin
      by_cases hall : ts.all Worker.finished = true
      · -- the rest of the interleaving changes nothing
        rw [poolRun_finished (List.all_eq_true.mp hall)] at hrun
        obtain ⟨rfl, rfl⟩ := Prod.mk.inj (Option.some.inj hrun)
        exact ⟨w, hdone n hall, rfl, .refl w⟩
      · obtain ⟨m, rfl⟩ : ∃ m, n = m + 1 := ⟨n - 1, by rw [List.length_cons] at hn; omega⟩
        obtain ⟨⟨fs₁, ts₁⟩, h1, h2⟩ := Option.bind_eq_some_iff.mp hrun
        have ha : granted w.kern = a := has 0 (Nat.zero_lt_succ _)
        rw [← ha] at h1
        obtain ⟨hle, hstep⟩ := run_worker_ok h0 h1
        obtain ⟨w', hw', hfs, honly⟩ := ih (n := m)
          (w := { w with kern := (w.kern.tock 1).setFiles fs₁ hle })
          (by rw [List.length_cons] at hn; omega) h0
          (fun l hl => by
            have := has (l + 1) (Nat.succ_lt_succ hl)
            rw [List.getElem_cons_succ] at this
            rw [← this]
            show grantedAt w.kern (w.kern.host.answer (w.kern.tick + 1 + l)) = _
            rw [show w.kern.tick + 1 + l = w.kern.tick + (l + 1) from by omega]) h2 hfin
        refine ⟨w', ?_, hfs, honly.fds, honly.desc, honly.nextDesc, honly.host, honly.list⟩
        rw [run_workers, if_neg hall, bind_ok hstep]
        exact hw'

/-- The workers whose creation the host grants, from its `t`-th call on. -/
def createdBy (host : Host) : Nat → List Nat → List Nat
  | _, [] => []
  | t, i :: is =>
      if (host.answer t).fails then createdBy host (t + 1) is
      else i :: createdBy host (t + 1) is

theorem createdBy_sublist (host : Host) : ∀ (is : List Nat) (t : Nat),
    (createdBy host t is).Sublist is := by
  intro is
  induction is with
  | nil => intro t; exact .slnil
  | cons i is ih =>
      intro t
      rw [createdBy]
      split
      · exact (ih (t + 1)).cons i
      · exact (ih (t + 1)).cons_cons i

theorem createdBy_calm {host : Host} (hc : host.Calm) : ∀ (is : List Nat) (t : Nat),
    createdBy host t is = is := by
  intro is
  induction is with
  | nil => intro t; rfl
  | cons i is ih =>
      intro t
      rw [createdBy, (hc t).1, if_neg (by decide), ih]

theorem create_workers_eq (size : Nat) : ∀ (is : List Nat) (w : World),
    create_workers size is w = .ok ((createdBy w.kern.host w.kern.tick is).map (workerArgs size),
      { w with kern := w.kern.tock is.length }) := by
  intro is
  induction is with
  | nil => intro w; rfl
  | cons i is ih =>
      intro w
      have hone : pthread_create w =
          .ok (!(w.kern.host.answer w.kern.tick).fails, { w with kern := w.kern.tock 1 }) := rfl
      have hend : (w.kern.tock 1).tock is.length = w.kern.tock (i :: is).length := by
        rw [Kernel.tock_tock, Nat.add_comm 1]
        rfl
      rw [create_workers, bind_ok hone, bind_ok (ih { w with kern := w.kern.tock 1 }), pure_ok,
        ← hend, createdBy]
      cases (w.kern.host.answer w.kern.tick).fails with
      | true => rfl
      | false => rfl

/-- What has happened before the workers run. -/
theorem rebuild_workers_calm {w : World} (hc : w.kern.host.Calm) (size : Nat) :
    rebuild_workers dev path size w =
      (do
        let ts ← join_workers dev path (allWorkers size)
        if ts.any (fun t => t.pc = .returned true) then do
          let _ ← rename (get_security_path_by_path path) path
          pure 1
        else pure 0 : Sys Int) { w with kern := w.kern.tock 6 } := by
  have hattr : pthread_attr_init w = .ok (true, { w with kern := w.kern.tock 1 }) := by
    apply kernelCall_ok
    rw [Kernel.answer_fails hc]
    rfl
  have hcreate : create_workers size (List.range THREADS_COUNT) { w with kern := w.kern.tock 1 }
      = .ok (allWorkers size, { w with kern := w.kern.tock 5 }) := by
    have hall : createdBy w.kern.host (w.kern.tick + 1) (List.range THREADS_COUNT)
        = List.range THREADS_COUNT := createdBy_calm hc _ _
    refine (create_workers_eq size _ _).trans ?_
    show Except.ok ((createdBy w.kern.host (w.kern.tick + 1) _).map _, _) = _
    rw [hall]
    rfl
  rw [rebuild_workers, bind_ok hattr, if_pos rfl, bind_ok hcreate,
    bind_ok (calloc_calm (w := { w with kern := w.kern.tock 5 }) hc)]
  rfl

theorem rename_calm {w : World} (hc : w.kern.host.Calm) (old new : Path) :
    rename old new w = .ok ((), { w with
      kern := (w.kern.tock 1).setFiles (w.kern.files.rename old new) (Nat.le_refl _) }) := by
  apply kernelCall_ok
  rw [if_neg (by rw [Kernel.answer_fails hc]; decide)]

end Workers

section Job

variable {j : Job} (hj : InRange j.size) {w w' : World} (hc : w.kern.host.Calm)
  (hname : w.kern.files.names j.path = some j.old)
  (hdata : w.kern.files.data j.old = j.plain)
  (hnone : w.kern.files.names j.newPath = none)
include hj hc hname hdata hnone

/-- **The large branch**, when it returns: some interleaving of the workers has run to its
    end, and the new file, with its header and its length, has the old one's name. -/
theorem rebuild_workers_ready {r : Int}
    (h : rebuild_workers j.dev j.path j.size w = .ok (r, w')) :
    r = 1 ∧ (w.kern.InUse 0 → FilesOnly w w') ∧
      ∃ as fs' ts' s, (∀ a ∈ as, Answer.Calm a) ∧
      j.pool.poolRun as (w.kern.files, allWorkers j.size) = some (fs', ts') ∧
      (∀ t ∈ ts', t.finished = true) ∧ j.Ready fs' s ∧
      w'.kern.files = fs'.rename j.newPath j.path := by
  rw [rebuild_workers_calm hc] at h
  obtain ⟨ts', w₁, h1, h2⟩ := bind_inv h
  obtain ⟨m, num, -, hrun, -, hfin, hhost, -, hw₁⟩ := run_workers_trace _ h1
  have hcalm := answersFrom_calm (numbered_calm hc num) (w.kern.tick + 6) m
  obtain ⟨-, hJ⟩ := (Job.base_sound hj).run _ hcalm (Job.base_init hj hname hdata hnone) hrun
  have hlen : ts'.length = THREADS_COUNT := System.poolRun_length _ _ hrun
  -- the last worker returns the path
  obtain ⟨t, ht, c, p, hpc, -, ⟨s, hready⟩, -, hlast⟩ :=
    Job.finished_worker hJ hlen hfin (i := 3) (by decide)
  have hany : ts'.any (fun t => t.pc = .returned true) = true := by
    rw [List.any_eq_true]
    exact ⟨t, List.mem_of_getElem? ht, by rw [hpc, (hlast rfl).1]; rfl⟩
  have hc₁ : w₁.kern.host.Calm := by
    rw [hhost]
    exact hc
  rw [if_pos hany, bind_ok (rename_calm hc₁ _ _)] at h2
  obtain ⟨rfl, rfl⟩ := Prod.mk.inj (Except.ok.inj h2)
  refine ⟨rfl, fun h0 => ?_, _, w₁.kern.files, ts', s, hcalm, hrun, hfin, hready, rfl⟩
  obtain ⟨hfds, hdesc, hnext, hhost, hlist⟩ := hw₁ h0
  exact ⟨hfds, hdesc, hnext, hhost, hlist⟩

end Job

/-! ## Some schedule -/

/-- A host that lets the threads step from its `n`-th call on as in `as`. -/
def scriptHost (n : Nat) (as : List Answer) : Host where
  answer := fun t => { who := ((as[t - n]?).getD {}).who }
  patience := as.length

theorem scriptHost_calm (n : Nat) (as : List Answer) : (scriptHost n as).Calm :=
  fun _ => ⟨rfl, rfl, rfl⟩

theorem scriptHost_low (n : Nat) (as : List Answer) : (scriptHost n as).LowestFree := fun _ => rfl

/-- Along every interleaving that ends there is a host under which the large branch
    returns, when descriptor 0 is in use. -/
theorem rebuild_workers_run {dev : Device} {path : Path} {size : Nat} (w : World)
    (h0 : w.kern.InUse 0) {as : List Answer} {fs' : FileStore} {ts' : List Worker}
    (has : ∀ a ∈ as, Job.Played (w.kern.freeFd 0).toNat a)
    (hrun : (workers dev path).poolRun as (w.kern.files, allWorkers size) = some (fs', ts'))
    (hfin : ∀ t ∈ ts', t.finished = true)
    (hany : ts'.any (fun t => t.pc = .returned true) = true) :
    ∃ w', rebuild_workers dev path size (w.under (scriptHost (w.kern.tick + 6) as)) =
        .ok (1, w') ∧
      w'.kern.files = fs'.rename (get_security_path_by_path path) path := by
  let host := scriptHost (w.kern.tick + 6) as
  have hc : host.Calm := scriptHost_calm _ as
  let w₁ : World := { w.under host with kern := (w.under host).kern.tock 6 }
  have hanswers : ∀ m (hm : m < as.length),
      grantedAt w₁.kern (w₁.kern.host.answer (w₁.kern.tick + m)) = as[m] := by
    intro m hm
    have hwho : ((as[w.kern.tick + 6 + m - (w.kern.tick + 6)]?).getD {}).who = as[m].who := by
      rw [Nat.add_sub_cancel_left, List.getElem?_eq_getElem hm, Option.getD_some]
    show ({ who := ((as[w.kern.tick + 6 + m - (w.kern.tick + 6)]?).getD {}).who,
            hint := (w.kern.freeFd 0).toNat } : Answer) = _
    rw [hwho]
    exact (has _ (List.getElem_mem hm)).symm
  obtain ⟨w₂, hjoin, hfs, honly⟩ := run_workers_ok as (n := as.length) (w := w₁)
    (Nat.le_refl _) h0 hanswers hrun hfin
  have hjoin' : join_workers dev path (allWorkers size) w₁ = .ok (ts', w₂) := hjoin
  have hc₂ : w₂.kern.host.Calm := by
    rw [honly.host]
    exact hc
  let k₃ := (w₂.kern.tock 1).setFiles
    (w₂.kern.files.rename (get_security_path_by_path path) path) (Nat.le_refl _)
  refine ⟨{ w₂ with kern := k₃ }, ?_, ?_⟩
  · rw [rebuild_workers_calm (w := w.under host) hc, bind_ok hjoin', if_pos hany,
      bind_ok (rename_calm hc₂ _ _)]
    rfl
  · show w₂.kern.files.rename _ _ = _
    rw [hfs]

/-! ## No schedule -/

/-- With descriptor 0 free it is given for the new file, whose header is then not written: a
    worker that is created waits for ever or gives up at once. -/
structure Stalled (path : Path) (nums : List Nat) (w : World) (ts : List Worker) : Prop where
  inv : System.PoolInv (fun _ => True)
    (fun i fs t => nums[i]? = some t.number ∧ Placed path fs t) (w.kern.files, ts)
  bare : Bare path w.kern.files
  barren : ∀ t ∈ ts, Barren False w.kern.files t ∨ t.pc = .returned false
  free : w.kern.files.names (get_security_path_by_path path) = none → ¬ w.kern.InUse 0

section Stalled

variable {dev : Device} {path : Path} {nums : List Nat} {w w' : World} {ts ts' : List Worker}

/-- Under a host that gives descriptor 0 to worker 0, whatever fails. -/
theorem stalled_one {a : Answer} {fs fs' : FileStore} {t t' : Worker}
    (hopen : t.pc = .create → a.fails = true ∨ a.hint = 0) (hb : Bare path fs)
    (ht : Barren False fs t ∨ t.pc = .returned false)
    (h : Worker.step dev path a fs t = some (fs', t')) :
    Bare path fs' ∧ (Barren False fs' t' ∨ t'.pc = .returned false) ∧
      ∀ s, Zeros fs s → Zeros fs' s := by
  have hquiet : some (fs, t.goto (.returned false)) = some (fs', t') →
      Bare path fs' ∧ (Barren False fs' t' ∨ t'.pc = .returned false) ∧
        ∀ s, Zeros fs s → Zeros fs' s := by
    intro heq
    obtain ⟨rfl, rfl⟩ := Prod.mk.inj (Option.some.inj heq)
    exact ⟨hb, .inr rfl, fun _ hs => hs⟩
  rcases ht with ht | hpc
  · by_cases hstart : t.pc = .start ∧ a.fails = true
    · -- no memory
      rw [Worker.step, hstart.1] at h
      simp only [hstart.2, if_true] at h
      exact hquiet h
    · have hblocks : Blocks False a t := by
        refine ⟨fun hpc => ?_, fun hpc _ => .inr (hopen hpc), fun _ _ hno => hno.elim⟩
        exact Bool.eq_false_iff.mpr fun hfails => hstart ⟨hpc, hfails⟩
      obtain ⟨hbare, hbarren, hkept⟩ := barren_step hblocks hb ht h
      exact ⟨hbare, .inl hbarren, hkept⟩
  · rw [Worker.step, hpc] at h
    obtain ⟨rfl, rfl⟩ := Prod.mk.inj (Option.some.inj h)
    exact ⟨hb, .inr hpc, fun _ hs => hs⟩

variable (hnodup : nums.Nodup) (hlow : w.kern.host.LowestFree)
include hnodup hlow

theorem stalled_step (h : Stalled path nums w ts)
    (hrun : run_worker dev path ts w = .ok (ts', w')) : Stalled path nums w' ts' := by
  obtain ⟨hstep, -, -, honly⟩ := run_worker_inv hrun
  have hfree : FilesOnly w w' → ¬ w.kern.InUse 0 → ¬ w'.kern.InUse 0 := by
    intro h h0
    rw [Kernel.InUse, h.fds]
    exact h0
  have hsound : (workers dev path).Sound (fun _ => True) (fun _ => True) _ :=
    placed_sound hnodup fun _ _ => trivial
  have hinv' := hsound.step trivial h.inv hstep
  cases ht : ts[(granted w.kern).who]? with
  | none =>
      -- nobody steps
      have hsame := (System.poolStep_none (workers dev path) (a := granted w.kern)
        (s := w.kern.files) ht).symm.trans hstep
      obtain ⟨hfiles, rfl⟩ := Prod.mk.inj (Option.some.inj hsame)
      have hleft : leftOpen path (granted w.kern) (w.kern.files, ts) = none := by
        rw [leftOpen, ht]
        rfl
      refine ⟨hinv', hfiles ▸ h.bare, hfiles ▸ h.barren, fun hnone => ?_⟩
      rw [← hfiles] at hnone
      exact hfree (honly hleft) (h.free hnone)
  | some t =>
      obtain ⟨⟨fs', t'⟩, hone, heq⟩ : ∃ r, (workers dev path).step (granted w.kern) w.kern.files t
          = some r ∧ (r.1, ts.set (granted w.kern).who r.2) = (w'.kern.files, ts') := by
        rw [System.poolStep_some _ ht] at hstep
        exact Option.map_eq_some_iff.mp hstep
      obtain ⟨hfs, rfl⟩ := Prod.mk.inj heq
      have hfs : fs' = w'.kern.files := hfs
      rw [hfs] at hone
      have hone : Worker.step dev path (granted w.kern) w.kern.files t
          = some (w'.kern.files, t') := hone
      obtain ⟨-, hplaced⟩ := h.inv.2 _ t ht
      obtain ⟨htouch, -, -⟩ := placed_step hplaced hone
      -- the open of worker 0 is given descriptor 0
      have hopen : t.pc = .create → (granted w.kern).fails = true ∨ (granted w.kern).hint = 0 := by
        intro hpc
        right
        rw [Placed, hpc] at hplaced
        show (w.kern.freeFd w.kern.answer.hint).toNat = 0
        rw [Kernel.answer, hlow, w.kern.freeFd_zero (h.free hplaced.2)]
        rfl
      obtain ⟨hbare, hbarren, hkept⟩ :=
        stalled_one hopen h.bare (h.barren t (List.mem_of_getElem? ht)) hone
      refine ⟨hinv', hbare, fun u hu => ?_, fun hnone => ?_⟩
      · rcases List.mem_or_eq_of_mem_set hu with hu | rfl
        · exact (h.barren u hu).imp_left fun hb => hb.kept hkept
        · exact hbarren
      · -- no file has been created, and none was there to be opened
        have hnone₀ : w.kern.files.names (get_security_path_by_path path) = none := by
          cases hname : w.kern.files.names (get_security_path_by_path path) with
          | none => rfl
          | some s => cases hnone.symm.trans (htouch.name hname)
        refine hfree (honly ?_) (h.free hnone₀)
        rw [leftOpen, ht]
        show leaves path (granted w.kern) w.kern.files t = none
        rw [leaves]
        split
        · rfl
        · rename_i hopens
          cases hpc : t.pc with
          | create =>
              have hfails : ¬ (granted w.kern).fails = true := fun hf => hopens (.inl hf)
              simp only [Worker.step, hpc, if_neg hfails] at hone
              have hfiles := (Prod.mk.inj (Option.some.inj hone)).1
              rw [← hfiles] at hnone
              cases hnone.symm.trans
                (createTrunc_opened w.kern.files (get_security_path_by_path path)).1
          | probe =>
              show (w.kern.files.names (get_security_path_by_path path)).map _ = none
              rw [hnone₀]
              rfl
          | _ => rfl

omit hlow in
/-- Whatever the workers return, it is not the name. -/
theorem stalled_run : ∀ n {w w' : World} {ts ts' : List Worker}, w.kern.host.LowestFree →
    Stalled path nums w ts → run_workers dev path n ts w = .ok (ts', w') →
    ∀ t ∈ ts', t.pc ≠ .returned true := by
  intro n
  have hstop : ∀ {w w' : World} {ts ts' : List Worker}, Stalled path nums w ts →
      (pure ts : Sys (List Worker)) w = .ok (ts', w') → ∀ t ∈ ts', t.pc ≠ .returned true := by
    intro w w' ts ts' h hpure t ht hpc
    obtain ⟨rfl, rfl⟩ := pure_inv hpure
    rcases h.barren t ht with hb | hfalse
    · rw [Barren, hpc] at hb
      exact hb
    · rw [hpc] at hfalse
      cases hfalse
  induction n with
  | zero =>
      intro w w' ts ts' _ h hr
      rw [run_workers] at hr
      split at hr
      · exact hstop h hr
      · cases hr
  | succ n ih =>
      intro w w' ts ts' hlow h hr
      rw [run_workers] at hr
      split at hr
      · exact hstop h hr
      · obtain ⟨ts₁, w₁, h1, h2⟩ := bind_inv hr
        obtain ⟨-, hhost, -, -⟩ := run_worker_inv h1
        exact ih (by rw [hhost]; exact hlow) (stalled_step hnodup hlow h h1) h2

omit hnodup in
/-- **Descriptor 0 is free**: whatever fails, the large branch converts nothing. -/
theorem stalled_workers {size : Nat} {r : Int}
    (hnone : w.kern.files.names (get_security_path_by_path path) = none)
    (h0 : ¬ w.kern.InUse 0) (h : rebuild_workers dev path size w = .ok (r, w')) : r = 0 := by
  have hattr : pthread_attr_init w =
      .ok (!w.kern.answer.fails, { w with kern := w.kern.tock 1 }) := rfl
  rw [rebuild_workers, bind_ok hattr] at h
  split at h
  · rw [bind_ok (create_workers_eq size _ _)] at h
    obtain ⟨b, w₁, h1, h⟩ := bind_inv h
    obtain ⟨-, rfl⟩ := kernelCall_inv h1
    obtain ⟨ts, w₂, h2, h⟩ := bind_inv h
    have hnodup : (createdBy w.kern.host (w.kern.tick + 1) (List.range THREADS_COUNT)).Nodup :=
      (createdBy_sublist _ _ _).nodup List.nodup_range
    have hrun : run_workers dev path w.kern.host.patience
        ((createdBy w.kern.host (w.kern.tick + 1) (List.range THREADS_COUNT)).map
          (workerArgs size)) { w with kern := w.kern.tock 6 } = .ok (ts, w₂) := h2
    have hreturned := stalled_run hnodup _ (w := { w with kern := w.kern.tock 6 }) hlow
      ⟨⟨trivial, fun i t ht => ?_⟩, fun s hs => (by cases hnone.symm.trans hs), fun t ht => ?_,
        fun _ => h0⟩ hrun
    · have hany : ¬ ts.any (fun t => t.pc = .returned true) = true := by
        simpa using hreturned
      rw [if_neg hany] at h
      exact (pure_inv h).1
    · obtain ⟨k, hk, rfl⟩ := Option.map_eq_some_iff.mp ((List.getElem?_map ..).symm.trans ht)
      exact ⟨hk, fun _ => hnone⟩
    · obtain ⟨k, -, rfl⟩ := List.mem_map.mp ht
      exact .inl trivial
  · exact (pure_inv h).1

end Stalled

/-- **A name that does not fit** its buffer: no worker gets beyond its start. -/
theorem unfit_run {dev : Device} {path : Path} (hfit : ¬ Fits path) : ∀ n {w : World}
    {ts : List Worker}, w.kern.host.Calm → (∀ t ∈ ts, t.pc = .start) → ts ≠ [] →
    ∀ r, run_workers dev path n ts w ≠ .ok r := by
  intro n
  have hrunning : ∀ {ts : List Worker}, (∀ t ∈ ts, t.pc = .start) → ts ≠ [] →
      ¬ ts.all Worker.finished = true := by
    intro ts h hne hall
    obtain ⟨t, ht⟩ := List.exists_mem_of_ne_nil ts hne
    have hfin := List.all_eq_true.mp hall t ht
    rw [Worker.finished, h t ht] at hfin
    cases hfin
  induction n with
  | zero =>
      intro w ts _ h hne r hr
      rw [run_workers, if_neg (hrunning h hne)] at hr
      cases hr
  | succ n ih =>
      rintro w ts hc h hne ⟨ts', w'⟩ hr
      rw [run_workers, if_neg (hrunning h hne)] at hr
      obtain ⟨ts₁, w₁, h1, h2⟩ := bind_inv hr
      obtain ⟨hstep, hhost, -, -⟩ := run_worker_inv h1
      rcases System.poolStep_cases _ hstep with ⟨-, rfl⟩ | ⟨i, t, t', ht, -, hone, -⟩
      · exact ih (by rw [hhost]; exact hc) h hne _ h2
      · have hone : Worker.step dev path (granted w.kern) w.kern.files t
            = some (w₁.kern.files, t') := hone
        have hfails : (granted w.kern).fails = false := (hc _).fails
        simp only [Worker.step, h t (List.mem_of_getElem? ht), hfails, Bool.false_eq_true,
          if_false, if_pos hfit] at hone
        cases hone

theorem unfit_workers {dev : Device} {path : Path} {w : World} (hc : w.kern.host.Calm)
    (hfit : ¬ Fits path) (size : Nat) (r : Int × World) :
    rebuild_workers dev path size w ≠ .ok r := by
  obtain ⟨r, w'⟩ := r
  intro h
  rw [rebuild_workers_calm hc] at h
  obtain ⟨ts', w₁, h1, -⟩ := bind_inv h
  refine unfit_run hfit _ (w := { w with kern := w.kern.tock 6 }) hc
    (fun t (ht : t ∈ allWorkers size) => ?_) (List.cons_ne_nil _ _) (ts', w₁) h1
  obtain ⟨i, -, rfl⟩ := List.mem_map.mp ht
  rfl

/-! ## The whole conversion -/

/-- The new file under its new name. -/
theorem content_renamed {j : Job} {fs : FileStore} {s : Nat} (h : j.Ready fs s) :
    (fs.rename j.newPath j.path).content j.path = some (fs.data s) :=
  FileStore.content_of_names _ (FileStore.rename_names_to _ h.name)

/-- A file that is ready has a header. -/
theorem ready_hasHeader {j : Job} {fs : FileStore} {s : Nat} (h : j.Ready fs s) :
    HasHeader (fs.data s) := by
  refine ⟨?_, ?_⟩
  · show 4096 ≤ (fs.data s).length
    rw [h.length]
    omega
  · show is_encrypted_by_file_header ((fs.data s).take 4096) = _
    rw [h.head]
    exact newHeader_rights _

section Whole

variable {dev : Device} {path : Path} {C : List UInt8} {w : World} {i : Nat}

/-- The branch that is taken. -/
theorem rebuild_small (hpath : path ≠ []) (hn : 0 < C.length)
    (h : C.length ≤ 4096 * THREADS_COUNT) :
    rebuild_file_struct dev path C.length = rebuild_buffer dev path C.length := by
  rw [rebuild_file_struct, if_neg hpath, if_pos (by omega), if_pos (Int.ofNat_le.mpr h),
    Int.toNat_natCast]

theorem rebuild_large (hpath : path ≠ []) (h : ¬ C.length ≤ 4096 * THREADS_COUNT) :
    rebuild_file_struct dev path C.length = rebuild_workers dev path C.length := by
  rw [rebuild_file_struct, if_neg hpath, if_pos (by omega),
    if_neg (fun hle => h (Int.ofNat_le.mp hle)), Int.toNat_natCast]

/-- The conversion has happened: the name denotes a file with a header and the right
    length, and `<path>.s` does not exist. -/
structure Done (path : Path) (C : List UInt8) (fs : FileStore) (s : Nat) : Prop where
  name : fs.names path = some s
  header : HasHeader (fs.data s)
  length : (fs.data s).length = C.length + 4096
  gone : fs.names (get_security_path_by_path path) = none

/-- The conversion returns in some schedule, and in every one that returns it leaves the header
    and the stored form of the content. -/
structure Converts (dev : Device) (path : Path) (C : List UInt8) (w : World) : Prop where
  returns : ∃ host w', host.Calm ∧ host.LowestFree ∧
    rebuild_file_struct dev path C.length (w.under host) = .ok (1, w')
  right : ∀ host r w', host.Calm → host.LowestFree →
    rebuild_file_struct dev path C.length (w.under host) = .ok (r, w') →
      r = 1 ∧ w'.kern.files.content path = some (converted dev C)

variable (hpath : path ≠ []) (hmax : C.length + 4096 ≤ 2147483647)
  (hname : w.kern.files.names path = some i) (hdata : w.kern.files.data i = C)
  (hnone : w.kern.files.names (get_security_path_by_path path) = none)
include hpath hmax hname hdata hnone

/-- **What a calm host makes of a conversion** that returned, whatever the size. -/
theorem rebuild_inv (hc : w.kern.host.Calm) {r : Int} {w' : World}
    (h : rebuild_file_struct dev path C.length w = .ok (r, w')) :
    (r = 1 ∧ C ≠ [] ∧ ∃ s, Done path C w'.kern.files s) ∨
      (r = 0 ∧ w'.kern.files = w.kern.files ∧ (w.kern.InUse 0 → C = [])) := by
  by_cases hn : 0 < C.length
  · have hne : C ≠ [] := List.length_pos_iff.mp hn
    by_cases hsmall : C.length ≤ 4096 * THREADS_COUNT
    · rw [rebuild_small hpath hn hsmall] at h
      by_cases hfd : w.kern.freeFd w.kern.answer.hint > 0
      · obtain ⟨k', hk', hq⟩ := @rebuild_buffer_calm dev path w i C hname hdata hc hfd
        obtain ⟨rfl, rfl⟩ := Prod.mk.inj (Except.ok.inj (hk'.symm.trans h))
        have hfiles : k'.files = w.kern.files.store i (converted dev C) := hq.files
        have hself : k'.files.data i = converted dev C := by
          rw [hfiles]
          exact FileStore.store_data_self ..
        refine .inl ⟨rfl, hne, i, ?_, ?_, ?_, ?_⟩
        · show k'.files.names path = _
          rw [hfiles]
          exact hname
        · show HasHeader (k'.files.data i)
          rw [hself]
          exact converted_hasHeader dev C
        · show (k'.files.data i).length = _
          rw [hself, converted_length]
        · show k'.files.names _ = _
          rw [hfiles]
          exact hnone
      · obtain ⟨k', hk', hfiles⟩ := (@rebuild_buffer_any dev path w i C hname hdata).2
          fun h => hfd h.2.1
        obtain ⟨rfl, rfl⟩ := Prod.mk.inj (Except.ok.inj (hk'.symm.trans h))
        exact .inr ⟨rfl, hfiles, fun h0 => absurd (w.kern.freeFd_pos h0 _) hfd⟩
    · let j : Job := ⟨dev, path, C, i⟩
      have hj : InRange j.size := ⟨Nat.lt_of_not_le hsmall, hmax⟩
      rw [rebuild_large hpath hsmall] at h
      obtain ⟨hr1, -, as, fs', ts', s, -, -, -, hready, hfiles⟩ :=
        rebuild_workers_ready (j := j) hj hc hname hdata hnone h
      refine .inl ⟨hr1, hne, s, ?_, ?_, ?_, ?_⟩ <;> rw [hfiles]
      · exact FileStore.rename_names_to _ hready.name
      · exact (ready_hasHeader hready : HasHeader (fs'.data s))
      · exact hready.length
      · exact FileStore.rename_names_from _ hready.name Job.newPath_ne
  · have hnil : C = [] := List.length_eq_zero_iff.mp (by omega)
    rw [rebuild_file_struct, if_neg hpath, if_neg (by omega)] at h
    obtain ⟨rfl, rfl⟩ := Prod.mk.inj (Except.ok.inj h)
    exact .inr ⟨rfl, rfl, fun _ => hnil⟩

omit hpath in
/-- The four workers can take turns so that all of them return. -/
theorem large_schedule (hbig : ¬ C.length ≤ 4096 * THREADS_COUNT) (hfit : Fits path) {n : Nat}
    (hn : n ≠ 0) : ∃ as fs' ts' s, (∀ a ∈ as, Job.Played n a) ∧
      (workers dev path).poolRun as (w.kern.files, allWorkers C.length) = some (fs', ts') ∧
      (∀ t ∈ ts', t.finished = true) ∧ ts'.any (fun t => t.pc = .returned true) = true ∧
      (Job.mk dev path C i).Ready fs' s ∧
      (fs'.data s = converted dev C → (Job.mk dev path C i).Harmless) := by
  let j : Job := ⟨dev, path, C, i⟩
  have hj : InRange j.size := ⟨Nat.lt_of_not_le hbig, hmax⟩
  obtain ⟨as, fs', ts', has, hrun, hfin, hharm⟩ :=
    Job.exists_finish hj hn hfit hname hdata hnone
  obtain ⟨-, hJ⟩ := (Job.base_sound hj).run as (fun a ha => (has a ha).calm)
    (Job.base_init hj hname hdata hnone) hrun
  -- the last worker returns the path
  obtain ⟨t, ht, c, p, hpc, -, ⟨s, hready⟩, -, hlast⟩ :=
    Job.finished_worker hJ (System.poolRun_length _ as hrun) hfin (i := 3) (by decide)
  refine ⟨as, fs', ts', s, has, hrun, hfin, ?_, hready, hharm s hready⟩
  rw [List.any_eq_true]
  exact ⟨t, List.mem_of_getElem? ht, by rw [hpc, (hlast rfl).1]; rfl⟩

/-- The large branch under a host along an interleaving that ends. -/
theorem large_run (hbig : ¬ C.length ≤ 4096 * THREADS_COUNT) (hfit : Fits path)
    (h0 : w.kern.InUse 0) :
    ∃ host w' s fs', host.Calm ∧ host.LowestFree ∧
      rebuild_file_struct dev path C.length (w.under host) = .ok (1, w') ∧
      (Job.mk dev path C i).Ready fs' s ∧ w'.kern.files.content path = some (fs'.data s) ∧
      (fs'.data s = converted dev C → (Job.mk dev path C i).Harmless) := by
  have hpos : (w.kern.freeFd 0).toNat ≠ 0 := by
    have := w.kern.freeFd_pos h0 0
    omega
  obtain ⟨as, fs', ts', s, has, hrun, hfin, hany, hready, hharm⟩ :=
    @large_schedule dev path C w i hmax hname hdata hnone hbig hfit _ hpos
  obtain ⟨w', hw', hfiles⟩ := rebuild_workers_run w h0 has hrun hfin hany
  refine ⟨scriptHost (w.kern.tick + 6) as, w', s, fs', scriptHost_calm _ as, scriptHost_low _ as,
    ?_, hready, ?_, hharm⟩
  · rw [rebuild_large hpath hbig]
    exact hw'
  · rw [hfiles]
    exact content_renamed hready

/-- **The conversion of a plain file**, on calm hosts that give the lowest free descriptor.
    It is right exactly when descriptor 0 is in use, and the file is small, or the name fits
    its buffer and the conversion is harmless. -/
theorem rebuild_converts (hn : 0 < C.length) :
    Converts dev path C w ↔ w.kern.InUse 0 ∧
      (C.length ≤ 4096 * THREADS_COUNT ∨ Fits path ∧ (Job.mk dev path C i).Harmless) := by
  by_cases hsmall : C.length ≤ 4096 * THREADS_COUNT
  · have hbranch := @rebuild_small dev path C hpath hn hsmall
    constructor
    · rintro ⟨⟨host, w', hc, hlow, hrun⟩, -⟩
      refine ⟨?_, .inl hsmall⟩
      by_contra h0
      -- descriptor 0 is taken for a failure
      have hzero : ¬ Overwrites (w.under host).kern C.length := by
        rintro ⟨-, hpos, -⟩
        have hfree : (w.under host).kern.freeFd (w.under host).kern.answer.hint = 0 := by
          rw [Kernel.answer, show ((w.under host).kern.host.answer _).hint = 0 from hlow _]
          exact Kernel.freeFd_zero _ h0
        omega
      obtain ⟨k', hk', -⟩ :=
        (@rebuild_buffer_any dev path (w.under host) i C hname hdata).2 hzero
      rw [hbranch, hk'] at hrun
      exact absurd (Prod.mk.inj (Except.ok.inj hrun)).1 (by decide)
    · rintro ⟨h0, -⟩
      have hrun : ∀ host : Host, host.Calm →
          ∃ k', rebuild_file_struct dev path C.length (w.under host)
            = .ok (1, { w.under host with kern := k' }) ∧
          k'.files.content path = some (converted dev C) := by
        intro host hc
        obtain ⟨k', hk', hq⟩ := @rebuild_buffer_calm dev path (w.under host) i C hname hdata hc
          (Kernel.freeFd_pos _ h0 _)
        refine ⟨k', by rw [hbranch]; exact hk', ?_⟩
        rw [hq.files]
        show ((w.kern.files.store i (converted dev C)).names path).map _ = _
        rw [FileStore.store_names, hname]
        exact congrArg some (FileStore.store_data_self ..)
      refine ⟨?_, fun host r w' hc _ hr => ?_⟩
      · obtain ⟨k', hk', -⟩ := hrun { answer := fun _ => {} } (fun _ => ⟨rfl, rfl, rfl⟩)
        exact ⟨_, _, (fun _ => ⟨rfl, rfl, rfl⟩), fun _ => rfl, hk'⟩
      · obtain ⟨k', hk', hcontent⟩ := hrun host hc
        obtain ⟨rfl, rfl⟩ := Prod.mk.inj (Except.ok.inj (hk'.symm.trans hr))
        exact ⟨rfl, hcontent⟩
  · let j : Job := ⟨dev, path, C, i⟩
    have hj : InRange j.size := ⟨Nat.lt_of_not_le hsmall, hmax⟩
    have hbranch := @rebuild_large dev path C hpath hsmall
    constructor
    · rintro ⟨⟨host, w', hc, hlow, hrun⟩, hall⟩
      rw [hbranch] at hrun
      have h0 : w.kern.InUse 0 := by
        by_contra h0
        exact absurd (stalled_workers (w := w.under host) hlow hnone h0 hrun) (by decide)
      have hfit : Fits path := by
        by_contra hfit
        exact unfit_workers (w := w.under host) hc hfit _ _ hrun
      refine ⟨h0, .inr ⟨hfit, ?_⟩⟩
      -- the schedule in which worker 2 comes last
      obtain ⟨host, w', s, fs', hc, hlow, hrun, hready, hcontent, hharm⟩ :=
        @large_run dev path C w i hpath hmax hname hdata hnone hsmall hfit h0
      have := (hall host 1 w' hc hlow hrun).2
      exact hharm (Option.some.inj (hcontent.symm.trans this))
    · rintro ⟨h0, hor⟩
      obtain ⟨hfit, hharm⟩ := hor.resolve_left hsmall
      obtain ⟨host, w', -, -, hc, hlow, hrun, -⟩ :=
        @large_run dev path C w i hpath hmax hname hdata hnone hsmall hfit h0
      refine ⟨⟨host, w', hc, hlow, hrun⟩, fun host r w' hc _ hr => ?_⟩
      rw [hbranch] at hr
      obtain ⟨hr1, -, as, fs', ts', s, has, hpool, hfin, hready, hfiles⟩ :=
        rebuild_workers_ready (j := j) hj (w := w.under host) hc hname hdata hnone hr
      have hinv := (Job.content_sound hj hharm).run as has
        (Job.content_init hj hname hdata hnone) hpool
      obtain ⟨s', hready', htarget⟩ := Job.finished_target hj hharm hinv
        (System.poolRun_length _ as hpool) hfin
      refine ⟨hr1, ?_⟩
      rw [hfiles, content_renamed hready', htarget]
      rfl

end Whole

/-- A file `"f"` of `n` bytes 7, in a process with descriptor 0 in use. -/
def sevens (n : Nat) : World where
  kern := Kernel.oneDescriptor (List.replicate n 7) { acc := .rdonly } 0
  file_info_list := []

/-- The smallest large file: its last range is not empty. -/
theorem rebuild_converts_16385 :
    Converts aDevice Kernel.aName (List.replicate 16385 7) (sevens 16385) := by
  have hlen : (List.replicate 16385 (7 : UInt8)).length = 16385 := List.length_replicate
  have hmax : (List.replicate 16385 (7 : UInt8)).length + 4096 ≤ 2147483647 := by
    rw [hlen]
    decide
  have hsize : (Job.mk aDevice Kernel.aName (List.replicate 16385 7) 1).size = 16385 := hlen
  refine (@rebuild_converts aDevice Kernel.aName (List.replicate 16385 7) (sevens 16385) 1
    (List.cons_ne_nil _ _) hmax rfl (Kernel.oneDescriptor_data _ _ _) rfl
    (by rw [hlen]; decide)).mpr ⟨by decide, .inr ⟨by decide, .inl ?_⟩⟩
  rw [hsize]
  decide

/-- Three bytes more, and the third worker meets the end of the file: some schedule leaves
    a file in which the last chunk stands where the one before it belongs. -/
theorem rebuild_overwrites_chunk :
    ∃ host w', host.Calm ∧ rebuild_file_struct aDevice Kernel.aName
      (List.replicate 16388 (7 : UInt8)).length ((sevens 16388).under host) = .ok (1, w') ∧
      w'.kern.files.content Kernel.aName
        ≠ some (converted aDevice (List.replicate 16388 7)) := by
  have hlen : (List.replicate 16388 (7 : UInt8)).length = 16388 := List.length_replicate
  let j : Job := ⟨aDevice, Kernel.aName, List.replicate 16388 7, 1⟩
  have hsize : j.size = 16388 := hlen
  obtain ⟨host, w', s, fs', hc, -, hrun, -, hcontent, hharm⟩ :=
    @large_run aDevice Kernel.aName (List.replicate 16388 7) (sevens 16388) 1
      (List.cons_ne_nil _ _) (by rw [hlen]; decide) rfl (Kernel.oneDescriptor_data _ _ _) rfl
      (by rw [hlen]; decide) (by decide) (by decide)
  refine ⟨host, w', hc, hrun, fun h => ?_⟩
  have hjob : j.Harmless := hharm (Option.some.inj (hcontent.symm.trans h))
  rw [Job.Harmless, hsize] at hjob
  rcases hjob with h3 | hdvd | ⟨hzero, -⟩
  · exact absurd h3 (by decide)
  · exact absurd hdvd (by decide)
  · have hslice : slice (List.replicate 16388 (7 : UInt8)) 16384 4096 = [7, 7, 7, 7] := by
      rw [slice, List.drop_replicate, List.take_replicate]
      rfl
    have hchunk := Job.encrypt_chunk (j := j) 4
    rw [show slice j.plain (4096 * 4) 4096 = [7, 7, 7, 7] from hslice] at hchunk
    have hfour : [7, 7, 7, 7] = zeroed (16388 % 4096) := hchunk.trans hzero
    exact absurd hfour (by decide)

end TeRebuild
