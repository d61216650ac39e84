import Mathlib.Data.List.Basic
import Mathlib.Data.List.Nodup
import Mathlib.Data.List.Lattice
import Mathlib.Logic.Function.Basic
import TransEncrypt.OverlayProofs

/-! # A file system with descriptors — the calls underneath

    Names denote inodes, inodes hold bytes, descriptors denote open file
    descriptions (an inode, a cursor and the open flags), and `dup` makes two
    descriptors share one description.  What the host decides by itself is a
    script, `Host`: for the `t`-th call, whether it fails, after how many bytes a
    transfer is cut short, and from which number on a free descriptor is taken.

    * the invariants (`names_lt`, `fds_lt`, `desc_lt`) are fields, so a new inode
      or description is never one that is already in use;
    * each call has one equation for a calm host (`sysRead_calm`, `sysOpen_calm`, …);
    * `Quiet` says that a call left files, descriptors and cursors alone. -/

namespace Posix

open Overlay

abbrev Path := List UInt8

/-! ## Files -/

/-- Names and contents.  An inode that lost its last name keeps its bytes. -/
structure FileStore where
  names : Path → Option Nat
  data : Nat → List UInt8
  next : Nat
  names_lt : ∀ p i, names p = some i → i < next

namespace FileStore

variable (fs : FileStore)

/-- The bytes of the file that a name denotes. -/
def content (p : Path) : Option (List UInt8) := (fs.names p).map fs.data

/-- Replace the bytes of an inode. -/
def store (i : Nat) (bs : List UInt8) : FileStore :=
  { fs with data := Function.update fs.data i bs }

/-- Store bytes at an offset, zeros in a gap. -/
def writeAt (i : Nat) (off : Nat) (bs : List UInt8) : FileStore :=
  fs.store i (overlay 0 (fs.data i) off bs)

/-- Give a name to a new, empty file. -/
def create (p : Path) : FileStore where
  names := Function.update fs.names p (some fs.next)
  data := Function.update fs.data fs.next []
  next := fs.next + 1
  names_lt := by
    intro q i h
    by_cases hq : q = p
    · rw [hq, Function.update_self] at h
      have := Option.some.inj h
      omega
    · rw [Function.update_of_ne hq] at h
      have := fs.names_lt q i h
      omega

/-- Open a name with `O_CREAT | O_TRUNC`: the inode, now empty. -/
def createTrunc (p : Path) : FileStore × Nat :=
  match fs.names p with
  | none => (fs.create p, fs.next)
  | some i => (fs.store i [], i)

/-- Cut a file to `len` bytes, or extend it with zeros. -/
def truncate (i : Nat) (len : Nat) : FileStore :=
  fs.store i ((fs.data i).take len ++ List.replicate (len - (fs.data i).length) 0)

/-- Remove a name. -/
def unlink (p : Path) : FileStore where
  names := Function.update fs.names p none
  data := fs.data
  next := fs.next
  names_lt := by
    intro q i h
    by_cases hq : q = p
    · rw [hq, Function.update_self] at h
      cases h
    · rw [Function.update_of_ne hq] at h
      exact fs.names_lt q i h

/-- Move the file named `p` to the name `q`; without such a file nothing happens. -/
def rename (p q : Path) : FileStore where
  names := match fs.names p with
    | none => fs.names
    | some i => Function.update (Function.update fs.names p none) q (some i)
  data := fs.data
  next := fs.next
  names_lt := by
    intro r j h
    cases hp : fs.names p with
    | none =>
        rw [hp] at h
        exact fs.names_lt r j h
    | some i =>
        rw [hp] at h
        by_cases hq : r = q
        · rw [hq] at h
          have hij : i = j := by simpa using h
          exact hij ▸ fs.names_lt p i hp
        · have h' : Function.update fs.names p none r = some j := by
            rw [← h]
            exact (Function.update_of_ne hq ..).symm
          by_cases hr : r = p
          · rw [hr, Function.update_self] at h'
            cases h'
          · rw [Function.update_of_ne hr] at h'
            exact fs.names_lt r j h'

@[simp] theorem store_names (i : Nat) (bs : List UInt8) :
    (fs.store i bs).names = fs.names := rfl
@[simp] theorem store_next (i : Nat) (bs : List UInt8) :
    (fs.store i bs).next = fs.next := rfl
@[simp] theorem store_data_self (i : Nat) (bs : List UInt8) :
    (fs.store i bs).data i = bs := Function.update_self ..
@[simp] theorem store_store (i : Nat) (bs cs : List UInt8) :
    (fs.store i bs).store i cs = fs.store i cs := by
  simp only [store, Function.update_idem]
theorem store_data_ne {i j : Nat} (h : j ≠ i) (bs : List UInt8) :
    (fs.store i bs).data j = fs.data j := Function.update_of_ne h ..
/-- Storing what is there. -/
theorem store_same (i : Nat) : fs.store i (fs.data i) = fs := by
  show ({ fs with data := Function.update fs.data i (fs.data i) } : FileStore) = fs
  rw [Function.update_eq_self]

theorem createTrunc_none {p : Path} (h : fs.names p = none) :
    fs.createTrunc p = (fs.create p, fs.next) := by
  rw [createTrunc, h]

@[simp] theorem writeAt_names (i : Nat) (off : Nat) (bs : List UInt8) :
    (fs.writeAt i off bs).names = fs.names := rfl
@[simp] theorem writeAt_next (i : Nat) (off : Nat) (bs : List UInt8) :
    (fs.writeAt i off bs).next = fs.next := rfl
@[simp] theorem writeAt_data_self (i : Nat) (off : Nat) (bs : List UInt8) :
    (fs.writeAt i off bs).data i = overlay 0 (fs.data i) off bs :=
  fs.store_data_self i _
theorem writeAt_data_ne {i j : Nat} (h : j ≠ i) (off : Nat) (bs : List UInt8) :
    (fs.writeAt i off bs).data j = fs.data j := fs.store_data_ne h _

@[simp] theorem create_names_self (p : Path) :
    (fs.create p).names p = some fs.next := Function.update_self ..
theorem create_names_ne {p q : Path} (h : q ≠ p) :
    (fs.create p).names q = fs.names q := Function.update_of_ne h ..
@[simp] theorem create_data_self (p : Path) : (fs.create p).data fs.next = [] :=
  Function.update_self ..
theorem create_data_ne {p : Path} {i : Nat} (h : i ≠ fs.next) :
    (fs.create p).data i = fs.data i := Function.update_of_ne h ..
@[simp] theorem create_next (p : Path) : (fs.create p).next = fs.next + 1 := rfl

theorem rename_names_to {p q : Path} {i : Nat} (h : fs.names p = some i) :
    (fs.rename p q).names q = some i := by
  simp [rename, h]
/-- The old name is gone. -/
theorem rename_names_from {p q : Path} {i : Nat} (h : fs.names p = some i) (hne : p ≠ q) :
    (fs.rename p q).names p = none := by
  simp [rename, h, Function.update_of_ne hne]
/-- Moving a file to a name that is taken: only the old name goes. -/
theorem rename_absent {p q r : Path} (hq : fs.names q ≠ none) (hr : r ≠ p) :
    (fs.rename p q).names r = none ↔ fs.names r = none := by
  cases hp : fs.names p with
  | none => simp only [rename, hp]
  | some i =>
      by_cases hrq : r = q
      · rw [hrq, fs.rename_names_to hp]
        exact iff_of_false (Option.some_ne_none i) hq
      · simp only [rename, hp, Function.update_of_ne hrq, Function.update_of_ne hr]
@[simp] theorem rename_data (p q : Path) : (fs.rename p q).data = fs.data := rfl
@[simp] theorem rename_next (p q : Path) : (fs.rename p q).next = fs.next := rfl
@[simp] theorem unlink_data (p : Path) : (fs.unlink p).data = fs.data := rfl
@[simp] theorem unlink_next (p : Path) : (fs.unlink p).next = fs.next := rfl

theorem content_of_names {p : Path} {i : Nat} (h : fs.names p = some i) :
    fs.content p = some (fs.data i) := by
  rw [content, h]
  rfl

theorem content_eq_some {p : Path} {bs : List UInt8} :
    fs.content p = some bs ↔ ∃ i, fs.names p = some i ∧ fs.data i = bs := by
  rw [content, Option.map_eq_some_iff]

theorem content_eq_none {p : Path} : fs.content p = none ↔ fs.names p = none := by
  rw [content, Option.map_eq_none_iff]

end FileStore

/-! ## Open flags and the host -/

/-- The access mode in the open flags: `O_RDONLY`, `O_WRONLY`, `O_RDWR`, and the
    fourth value, which grants neither reading nor writing. -/
inductive AccMode where
  | rdonly
  | wronly
  | rdwr
  | accmode
  deriving DecidableEq, Repr

namespace AccMode

def readable : AccMode → Bool
  | .rdonly | .rdwr => true
  | .wronly | .accmode => false

def writable : AccMode → Bool
  | .wronly | .rdwr => true
  | .rdonly | .accmode => false

/-- The bit of `O_WRONLY` is set. -/
def wronlyBit : AccMode → Bool
  | .wronly | .accmode => true
  | .rdonly | .rdwr => false

end AccMode

structure Flags where
  acc : AccMode
  creat : Bool := false
  excl : Bool := false
  trunc : Bool := false
  append : Bool := false
  deriving DecidableEq, Repr

/-- What the host decides about one call: whether it fails, whether an `access` made
    before it is refused, a bound on the bytes it transfers, the number from which a free
    descriptor is searched, which of several threads makes the next step, and what arrives
    from a pipe, socket or terminal. -/
structure Answer where
  fails : Bool := false
  denies : Bool := false
  limit : Option Nat := none
  hint : Nat := 0
  who : Nat := 0
  arrives : List UInt8 := []

/-- The length that a transfer of `n` bytes is cut to. -/
def Answer.cut (a : Answer) (n : Nat) : Nat :=
  match a.limit with
  | none => n
  | some m => min m n

theorem Answer.cut_le (a : Answer) (n : Nat) : a.cut n ≤ n := by
  unfold Answer.cut
  split
  · exact Nat.le_refl n
  · exact Nat.min_le_right _ _

/-- The host's script: an answer for every call, and the number of steps that
    threads started by one call get before it is given up as not returning. -/
structure Host where
  answer : Nat → Answer
  patience : Nat := 0

/-- Nothing fails, nothing is refused and no transfer is cut. -/
structure Answer.Calm (a : Answer) : Prop where
  fails : a.fails = false
  limit : a.limit = none
  denies : a.denies = false

/-- No call fails and no transfer is cut. -/
def Host.Calm (h : Host) : Prop := ∀ t, (h.answer t).Calm

/-- Free descriptors are handed out from the lowest number on. -/
def Host.LowestFree (h : Host) : Prop := ∀ t, (h.answer t).hint = 0

/-! ## The kernel -/

/-- An open file description.  One that is not a regular file (a pipe, a socket, a
    terminal) has no cursor, and its bytes are not those of a file. -/
structure Desc where
  inode : Nat
  pos : Nat
  flags : Flags
  regular : Bool := true

@[ext] structure Kernel where
  files : FileStore
  desc : Nat → Desc
  nextDesc : Nat
  fds : List (Int × Nat)
  host : Host
  tick : Nat
  fds_nonneg : ∀ e ∈ fds, 0 ≤ e.1
  fds_lt : ∀ e ∈ fds, e.2 < nextDesc
  desc_lt : ∀ id, id < nextDesc → (desc id).inode < files.next

namespace Kernel

variable (k : Kernel)

/-- The description that a descriptor denotes. -/
def find (fd : Int) : Option Nat := k.fds.lookup fd

/-- The descriptor number is in use. -/
def InUse (fd : Int) : Prop := fd ∈ k.fds.map Prod.fst

instance (fd : Int) : Decidable (k.InUse fd) := inferInstanceAs (Decidable (_ ∈ _))

/-- The host's answer to the call that is made now. -/
def answer : Answer := k.host.answer k.tick

/-- `n` calls later. -/
def tock (n : Nat) : Kernel := { k with tick := k.tick + n }

/-- Move the cursor of a description. -/
def setPos (id pos : Nat) : Kernel :=
  { k with
    desc := Function.update k.desc id { k.desc id with pos := pos }
    desc_lt := by
      intro id' h
      by_cases hid : id' = id
      · rw [hid, Function.update_self]
        exact k.desc_lt id (hid ▸ h)
      · rw [Function.update_of_ne hid]
        exact k.desc_lt id' h }

/-- Replace the files by a later state of them. -/
def setFiles (fs : FileStore) (h : k.files.next ≤ fs.next) : Kernel :=
  { k with
    files := fs
    desc_lt := fun id hid => Nat.lt_of_lt_of_le (k.desc_lt id hid) h }

/-- Replace the bytes of an inode. -/
def setData (i : Nat) (bs : List UInt8) : Kernel :=
  k.setFiles (k.files.store i bs) (Nat.le_refl _)

/-- The first free descriptor number from `hint` on. -/
def freeFd (hint : Nat) : Int :=
  let free := (List.range' hint (k.fds.length + 1)).find?
    (fun n : Nat => decide ((n : Int) ∉ k.fds.map Prod.fst))
  ((free.getD 0 : Nat) : Int)

/-- Bind a free descriptor to a description. -/
def bindFd (hint id : Nat) (hid : id < k.nextDesc) : Kernel :=
  { k with
    fds := (k.freeFd hint, id) :: k.fds
    fds_nonneg := by
      intro e he
      rcases List.mem_cons.mp he with h | h
      · rw [h]
        exact Int.natCast_nonneg _
      · exact k.fds_nonneg e h
    fds_lt := by
      intro e he
      rcases List.mem_cons.mp he with h | h
      · rw [h]
        exact hid
      · exact k.fds_lt e h }

/-- A new description of an inode, at the start of the file. -/
def newDesc (i : Nat) (fl : Flags) (hi : i < k.files.next) : Kernel :=
  { k with
    desc := Function.update k.desc k.nextDesc { inode := i, pos := 0, flags := fl }
    nextDesc := k.nextDesc + 1
    fds_lt := fun e he => Nat.lt_succ_of_lt (k.fds_lt e he)
    desc_lt := by
      intro id h
      by_cases hid : id = k.nextDesc
      · rw [hid, Function.update_self]
        exact hi
      · rw [Function.update_of_ne hid]
        exact k.desc_lt id (by omega) }

/-- Release a descriptor. -/
def dropFd (fd : Int) : Kernel :=
  { k with
    fds := k.fds.filter (fun e => e.1 ≠ fd)
    fds_nonneg := fun e he => k.fds_nonneg e (List.mem_of_mem_filter he)
    fds_lt := fun e he => k.fds_lt e (List.mem_of_mem_filter he) }

/-- Open an inode: a new description and a free descriptor for it. -/
def install (hint : Nat) (i : Nat) (fl : Flags) (hi : i < k.files.next) :
    Int × Kernel :=
  (k.freeFd hint, (k.newDesc i fl hi).bindFd hint k.nextDesc (Nat.lt_succ_self _))

/-! ### Reading a state back -/

@[simp] theorem tock_files (n : Nat) : (k.tock n).files = k.files := rfl
@[simp] theorem tock_desc (n : Nat) : (k.tock n).desc = k.desc := rfl
@[simp] theorem tock_nextDesc (n : Nat) : (k.tock n).nextDesc = k.nextDesc := rfl
@[simp] theorem tock_fds (n : Nat) : (k.tock n).fds = k.fds := rfl
@[simp] theorem tock_host (n : Nat) : (k.tock n).host = k.host := rfl
@[simp] theorem tock_find (n : Nat) (fd : Int) : (k.tock n).find fd = k.find fd := rfl
@[simp] theorem tock_tock (m n : Nat) : (k.tock m).tock n = k.tock (m + n) := by
  simp [tock, Nat.add_assoc]

@[simp] theorem setPos_files (id pos : Nat) : (k.setPos id pos).files = k.files := rfl
@[simp] theorem setPos_nextDesc (id pos : Nat) :
    (k.setPos id pos).nextDesc = k.nextDesc := rfl
@[simp] theorem setPos_fds (id pos : Nat) : (k.setPos id pos).fds = k.fds := rfl
@[simp] theorem setPos_host (id pos : Nat) : (k.setPos id pos).host = k.host := rfl
@[simp] theorem setPos_find (id pos : Nat) (fd : Int) :
    (k.setPos id pos).find fd = k.find fd := rfl
@[simp] theorem setPos_desc_self (id pos : Nat) :
    (k.setPos id pos).desc id = { k.desc id with pos := pos } :=
  Function.update_self ..
theorem setPos_desc_ne {id id' : Nat} (h : id' ≠ id) (pos : Nat) :
    (k.setPos id pos).desc id' = k.desc id' := Function.update_of_ne h ..

@[simp] theorem setPos_setPos (id p q : Nat) :
    (k.setPos id p).setPos id q = k.setPos id q := by
  apply Kernel.ext
  all_goals try rfl
  funext id'
  by_cases h : id' = id
  · rw [h, setPos_desc_self, setPos_desc_self, setPos_desc_self]
  · rw [setPos_desc_ne _ h, setPos_desc_ne _ h, setPos_desc_ne _ h]

theorem setPos_tock (n id p : Nat) : (k.tock n).setPos id p = (k.setPos id p).tock n :=
  rfl

/-- Moving a cursor to where it is. -/
theorem setPos_same (id : Nat) : k.setPos id (k.desc id).pos = k := by
  apply Kernel.ext
  all_goals try rfl
  exact Function.update_eq_self id k.desc

@[simp] theorem setFiles_files (fs : FileStore) (h : k.files.next ≤ fs.next) :
    (k.setFiles fs h).files = fs := rfl
@[simp] theorem setFiles_desc (fs : FileStore) (h : k.files.next ≤ fs.next) :
    (k.setFiles fs h).desc = k.desc := rfl
@[simp] theorem setFiles_fds (fs : FileStore) (h : k.files.next ≤ fs.next) :
    (k.setFiles fs h).fds = k.fds := rfl
@[simp] theorem setFiles_nextDesc (fs : FileStore) (h : k.files.next ≤ fs.next) :
    (k.setFiles fs h).nextDesc = k.nextDesc := rfl
@[simp] theorem setFiles_host (fs : FileStore) (h : k.files.next ≤ fs.next) :
    (k.setFiles fs h).host = k.host := rfl
@[simp] theorem setFiles_find (fs : FileStore) (h : k.files.next ≤ fs.next) (fd : Int) :
    (k.setFiles fs h).find fd = k.find fd := rfl

@[simp] theorem setData_files (i : Nat) (bs : List UInt8) :
    (k.setData i bs).files = k.files.store i bs := rfl
@[simp] theorem setData_desc (i : Nat) (bs : List UInt8) :
    (k.setData i bs).desc = k.desc := rfl
@[simp] theorem setData_fds (i : Nat) (bs : List UInt8) :
    (k.setData i bs).fds = k.fds := rfl
@[simp] theorem setData_nextDesc (i : Nat) (bs : List UInt8) :
    (k.setData i bs).nextDesc = k.nextDesc := rfl
@[simp] theorem setData_host (i : Nat) (bs : List UInt8) :
    (k.setData i bs).host = k.host := rfl
@[simp] theorem setData_find (i : Nat) (bs : List UInt8) (fd : Int) :
    (k.setData i bs).find fd = k.find fd := rfl

theorem find_inUse {fd : Int} {id : Nat} (h : k.find fd = some id) : k.InUse fd := by
  obtain ⟨l₁, l₂, hl, -⟩ := List.lookup_eq_some_iff.mp h
  rw [InUse, hl]
  simp

theorem inUse_find {fd : Int} (h : k.InUse fd) : ∃ id, k.find fd = some id := by
  obtain ⟨e, he, rfl⟩ := List.mem_map.mp h
  cases hf : k.find e.1 with
  | some id => exact ⟨id, rfl⟩
  | none =>
      have := List.lookup_eq_none_iff.mp hf e he
      simp at this

theorem find_none_iff {fd : Int} : k.find fd = none ↔ ¬ k.InUse fd := by
  rw [find, List.lookup_eq_none_iff, InUse, List.mem_map]
  constructor
  · rintro h ⟨e, he, rfl⟩
    have := h e he
    simp at this
  · intro h e he
    have hne : fd ≠ e.1 := fun heq => h ⟨e, he, heq.symm⟩
    simpa using hne

theorem find_mem {fd : Int} {id : Nat} (h : k.find fd = some id) :
    (fd, id) ∈ k.fds := by
  obtain ⟨l₁, l₂, hl, -⟩ := List.lookup_eq_some_iff.mp h
  rw [hl]
  simp

theorem find_lt {fd : Int} {id : Nat} (h : k.find fd = some id) : id < k.nextDesc :=
  k.fds_lt _ (k.find_mem h)

theorem find_nonneg {fd : Int} {id : Nat} (h : k.find fd = some id) : 0 ≤ fd :=
  k.fds_nonneg _ (k.find_mem h)

/-- The result of a failed call denotes nothing. -/
theorem find_failed : k.find (-1) = none := by
  cases hf : k.find (-1) with
  | none => rfl
  | some id => exact absurd (k.find_nonneg hf) (by decide)

/-! ### Free descriptors -/

private theorem exists_free (hint : Nat) :
    ∃ n ∈ List.range' hint (k.fds.length + 1), (n : Int) ∉ k.fds.map Prod.fst := by
  by_contra hno
  have hall : ∀ n ∈ List.range' hint (k.fds.length + 1),
      (n : Int) ∈ k.fds.map Prod.fst := by
    intro n hn
    by_contra h
    exact hno ⟨n, hn, h⟩
  -- more candidates than descriptors in use
  have hnodup : ((List.range' hint (k.fds.length + 1)).map Int.ofNat).Nodup :=
    List.Nodup.map (fun _ _ h => Int.ofNat.inj h) List.nodup_range'
  have hsub : (List.range' hint (k.fds.length + 1)).map Int.ofNat
      ⊆ k.fds.map Prod.fst := by
    intro z hz
    obtain ⟨n, hn, rfl⟩ := List.mem_map.mp hz
    exact hall n hn
  have hlen := hnodup.length_le_of_subset hsub
  rw [List.length_map, List.length_map, List.length_range'] at hlen
  omega

private theorem freeFd_spec (hint : Nat) :
    ∃ n : Nat, k.freeFd hint = n ∧ hint ≤ n ∧ ¬ k.InUse n ∧
      ∀ m : Nat, hint ≤ m → m < n → k.InUse m := by
  obtain ⟨n₀, hn₀, hfree⟩ := k.exists_free hint
  cases hfind : (List.range' hint (k.fds.length + 1)).find?
      (fun n : Nat => decide ((n : Int) ∉ k.fds.map Prod.fst)) with
  | none =>
      have := List.find?_eq_none.mp hfind n₀ hn₀
      exact absurd hfree (by simpa using this)
  | some n =>
      obtain ⟨hp, hmem, hlow⟩ := List.find?_range'_eq_some.mp hfind
      refine ⟨n, ?_, (List.mem_range'_1.mp hmem).1, by simpa [InUse] using hp, ?_⟩
      · show (((List.range' hint (k.fds.length + 1)).find?
          (fun n : Nat => decide ((n : Int) ∉ k.fds.map Prod.fst))).getD 0 : Nat)
          = (n : Int)
        rw [hfind]
        rfl
      · intro m hm hlt
        have := hlow m hm hlt
        simpa [InUse] using this

theorem freeFd_not_inUse (hint : Nat) : ¬ k.InUse (k.freeFd hint) := by
  obtain ⟨n, hn, -, hfree, -⟩ := k.freeFd_spec hint
  rw [hn]
  exact hfree

theorem freeFd_nonneg (hint : Nat) : 0 ≤ k.freeFd hint := by
  obtain ⟨n, hn, -, -, -⟩ := k.freeFd_spec hint
  rw [hn]
  exact Int.natCast_nonneg n

/-- With descriptor 0 in use every new descriptor is positive. -/
theorem freeFd_pos (h : k.InUse 0) (hint : Nat) : 0 < k.freeFd hint := by
  have hne : k.freeFd hint ≠ 0 := fun heq => k.freeFd_not_inUse hint (heq ▸ h)
  have := k.freeFd_nonneg hint
  omega

/-- A kernel that searches from 0 hands out 0 when it is free. -/
theorem freeFd_zero (h : ¬ k.InUse 0) : k.freeFd 0 = 0 := by
  obtain ⟨n, hn, -, -, hlow⟩ := k.freeFd_spec 0
  rw [hn]
  rcases Nat.eq_zero_or_pos n with h0 | hpos
  · rw [h0]
    rfl
  · exact absurd (hlow 0 (Nat.le_refl 0) hpos) h

/-- A free descriptor is 0 only when the search starts there and finds it free. -/
theorem freeFd_eq_zero {hint : Nat} : k.freeFd hint = 0 ↔ hint = 0 ∧ ¬ k.InUse 0 := by
  constructor
  · intro h
    obtain ⟨n, hn, hle, hfree, -⟩ := k.freeFd_spec hint
    have h0 : n = 0 := by omega
    subst h0
    exact ⟨by omega, hfree⟩
  · rintro ⟨rfl, hfree⟩
    exact k.freeFd_zero hfree

/-! ### Binding and releasing descriptors -/

section Binding

variable {k} {hint id : Nat} {hid : id < k.nextDesc}

@[simp] theorem bindFd_files : (k.bindFd hint id hid).files = k.files := rfl
@[simp] theorem bindFd_desc : (k.bindFd hint id hid).desc = k.desc := rfl
@[simp] theorem bindFd_nextDesc : (k.bindFd hint id hid).nextDesc = k.nextDesc := rfl
@[simp] theorem bindFd_host : (k.bindFd hint id hid).host = k.host := rfl

@[simp] theorem bindFd_find_self :
    (k.bindFd hint id hid).find (k.freeFd hint) = some id :=
  List.lookup_cons_self

theorem bindFd_find_ne {fd : Int} (h : fd ≠ k.freeFd hint) :
    (k.bindFd hint id hid).find fd = k.find fd := by
  show ((k.freeFd hint, id) :: k.fds).lookup fd = k.fds.lookup fd
  rw [List.lookup_cons]
  have hbeq : (fd == k.freeFd hint) = false := by simpa using h
  rw [hbeq]

/-- A new descriptor does not hide one that is in use. -/
theorem bindFd_find_some {fd : Int} {id' : Nat} (h : k.find fd = some id') :
    (k.bindFd hint id hid).find fd = some id' := by
  rw [bindFd_find_ne, h]
  exact fun heq => k.freeFd_not_inUse hint (heq ▸ k.find_inUse h)

end Binding

@[simp] theorem dropFd_files (fd : Int) : (k.dropFd fd).files = k.files := rfl
@[simp] theorem dropFd_desc (fd : Int) : (k.dropFd fd).desc = k.desc := rfl
@[simp] theorem dropFd_nextDesc (fd : Int) : (k.dropFd fd).nextDesc = k.nextDesc := rfl
@[simp] theorem dropFd_host (fd : Int) : (k.dropFd fd).host = k.host := rfl

@[simp] theorem dropFd_find_self (fd : Int) : (k.dropFd fd).find fd = none := by
  rw [find_none_iff, InUse, List.mem_map]
  rintro ⟨e, he, heq⟩
  have := (List.mem_filter.mp he).2
  simp [heq] at this

theorem dropFd_find_ne {fd fd' : Int} (h : fd' ≠ fd) :
    (k.dropFd fd).find fd' = k.find fd' := by
  show (k.fds.filter (fun e => e.1 ≠ fd)).lookup fd' = k.fds.lookup fd'
  induction k.fds with
  | nil => rfl
  | cons e l ih =>
      obtain ⟨a, b⟩ := e
      by_cases ha : a = fd
      · have hne : (fd' == a) = false := by
          rw [ha]
          simpa using h
        rw [List.filter_cons_of_neg (by simpa using ha), List.lookup_cons, hne, ih]
      · rw [List.filter_cons_of_pos (by simpa using ha), List.lookup_cons,
          List.lookup_cons, ih]

theorem dropFd_inUse {fd fd' : Int} : (k.dropFd fd).InUse fd' ↔ k.InUse fd' ∧ fd' ≠ fd := by
  show fd' ∈ (k.fds.filter (fun e => e.1 ≠ fd)).map Prod.fst ↔ fd' ∈ k.fds.map Prod.fst ∧ _
  rw [List.mem_map, List.mem_map]
  constructor
  · rintro ⟨e, he, rfl⟩
    obtain ⟨hmem, hne⟩ := List.mem_filter.mp he
    exact ⟨⟨e, hmem, rfl⟩, by simpa using hne⟩
  · rintro ⟨⟨e, he, rfl⟩, hne⟩
    exact ⟨e, List.mem_filter.mpr ⟨he, by simpa using hne⟩, rfl⟩

/-- Releasing a descriptor that was just bound restores the table. -/
theorem filter_bound (hint id : Nat) :
    ((k.freeFd hint, id) :: k.fds).filter (fun e => e.1 ≠ k.freeFd hint) = k.fds := by
  rw [List.filter_cons_of_neg (by simp)]
  apply List.filter_eq_self.mpr
  intro e he
  have hne : e.1 ≠ k.freeFd hint := fun heq =>
    k.freeFd_not_inUse hint (heq ▸ List.mem_map.mpr ⟨e, he, rfl⟩)
  simpa using hne

theorem dropFd_bindFd (hint id : Nat) (hid : id < k.nextDesc) :
    (k.bindFd hint id hid).dropFd (k.freeFd hint) = k := by
  apply Kernel.ext
  all_goals try rfl
  exact k.filter_bound hint id

@[simp] theorem newDesc_files (i : Nat) (fl : Flags) (hi : i < k.files.next) :
    (k.newDesc i fl hi).files = k.files := rfl
@[simp] theorem newDesc_fds (i : Nat) (fl : Flags) (hi : i < k.files.next) :
    (k.newDesc i fl hi).fds = k.fds := rfl
@[simp] theorem newDesc_host (i : Nat) (fl : Flags) (hi : i < k.files.next) :
    (k.newDesc i fl hi).host = k.host := rfl
@[simp] theorem newDesc_find (i : Nat) (fl : Flags) (hi : i < k.files.next) (fd : Int) :
    (k.newDesc i fl hi).find fd = k.find fd := rfl
@[simp] theorem newDesc_nextDesc (i : Nat) (fl : Flags) (hi : i < k.files.next) :
    (k.newDesc i fl hi).nextDesc = k.nextDesc + 1 := rfl
@[simp] theorem newDesc_desc_self (i : Nat) (fl : Flags) (hi : i < k.files.next) :
    (k.newDesc i fl hi).desc k.nextDesc = { inode := i, pos := 0, flags := fl } :=
  Function.update_self ..
theorem newDesc_desc_lt (i : Nat) (fl : Flags) (hi : i < k.files.next) {id : Nat}
    (h : id < k.nextDesc) : (k.newDesc i fl hi).desc id = k.desc id :=
  Function.update_of_ne (Nat.ne_of_lt h) ..

section Install

variable {k} {hint i : Nat} {fl : Flags} {hi : i < k.files.next}

@[simp] theorem install_fst : (k.install hint i fl hi).1 = k.freeFd hint := rfl
@[simp] theorem install_files : (k.install hint i fl hi).2.files = k.files := rfl
@[simp] theorem install_host : (k.install hint i fl hi).2.host = k.host := rfl
@[simp] theorem install_nextDesc :
    (k.install hint i fl hi).2.nextDesc = k.nextDesc + 1 := rfl
@[simp] theorem install_fds :
    (k.install hint i fl hi).2.fds = (k.freeFd hint, k.nextDesc) :: k.fds := rfl

@[simp] theorem install_find_self :
    (k.install hint i fl hi).2.find (k.freeFd hint) = some k.nextDesc :=
  List.lookup_cons_self

@[simp] theorem install_desc_self : (k.install hint i fl hi).2.desc k.nextDesc =
    { inode := i, pos := 0, flags := fl } :=
  k.newDesc_desc_self i fl hi

/-- The descriptors and descriptions in use are not disturbed. -/
theorem install_find_some {fd : Int} {id : Nat} (h : k.find fd = some id) :
    (k.install hint i fl hi).2.find fd = some id :=
  @bindFd_find_some (k.newDesc i fl hi) hint k.nextDesc (Nat.lt_succ_self _) fd id h

theorem install_desc_lt {id : Nat} (h : id < k.nextDesc) :
    (k.install hint i fl hi).2.desc id = k.desc id :=
  k.newDesc_desc_lt i fl hi h

end Install

/-! ### Calls that leave nothing behind -/

/-- `k'` is `k` after calls that changed no file, no descriptor and no cursor; a
    description that is no longer in use may have been left over. -/
structure Quiet (k k' : Kernel) : Prop where
  files : k'.files = k.files
  fds : k'.fds = k.fds
  host : k'.host = k.host
  desc : ∀ id, id < k.nextDesc → k'.desc id = k.desc id
  nextDesc : k.nextDesc ≤ k'.nextDesc

namespace Quiet

variable {k k' k'' : Kernel}

theorem refl (k : Kernel) : Quiet k k :=
  ⟨rfl, rfl, rfl, fun _ _ => rfl, Nat.le_refl _⟩

theorem tock (k : Kernel) (n : Nat) : Quiet k (k.tock n) :=
  ⟨rfl, rfl, rfl, fun _ _ => rfl, Nat.le_refl _⟩

theorem trans (h : Quiet k k') (h' : Quiet k' k'') : Quiet k k'' where
  files := h'.files.trans h.files
  fds := h'.fds.trans h.fds
  host := h'.host.trans h.host
  desc := fun id hid =>
    (h'.desc id (Nat.lt_of_lt_of_le hid h.nextDesc)).trans (h.desc id hid)
  nextDesc := Nat.le_trans h.nextDesc h'.nextDesc

theorem find (h : Quiet k k') (fd : Int) : k'.find fd = k.find fd := by
  rw [Kernel.find, Kernel.find, h.fds]

theorem inUse (h : Quiet k k') {fd : Int} : k'.InUse fd ↔ k.InUse fd := by
  rw [InUse, InUse, h.fds]

theorem desc_find (h : Quiet k k') {fd : Int} {id : Nat} (hf : k.find fd = some id) :
    k'.desc id = k.desc id :=
  h.desc id (k.find_lt hf)

end Quiet

/-! ### A small process -/

/-- The name `"f"`. -/
def aName : Path := [0x66]

/-- One file `"f"` with the bytes `D`. -/
def oneFile (D : List UInt8) : FileStore where
  names := fun p => if p = aName then some 1 else none
  data := fun i => if i = 1 then D else []
  next := 2
  names_lt := by
    intro p i h
    by_cases hp : p = aName
    · rw [if_pos hp] at h
      have := Option.some.inj h
      omega
    · rw [if_neg hp] at h
      cases h

/-- Descriptor 0 is a terminal, descriptor 3 is open on the only file; no call fails
    and free descriptors are handed out from the lowest number on. -/
def oneDescriptor (D : List UInt8) (flags : Flags) (pos : Nat) : Kernel where
  files := oneFile D
  desc := fun id =>
    if id = 1 then { inode := 1, pos := pos, flags := flags }
    else { inode := 0, pos := 0, flags := { acc := .rdwr }, regular := false }
  nextDesc := 2
  fds := [(0, 0), (3, 1)]
  host := { answer := fun _ => {} }
  tick := 0
  fds_nonneg := by decide
  fds_lt := by decide
  desc_lt := by
    intro id _
    show (if id = 1 then _ else _ : Desc).inode < 2
    by_cases hid : id = 1
    · rw [if_pos hid]
      exact Nat.lt_succ_self 1
    · rw [if_neg hid]
      exact Nat.zero_lt_two

theorem oneDescriptor_data (D : List UInt8) (flags : Flags) (pos : Nat) :
    (oneDescriptor D flags pos).files.data 1 = D := rfl

/-- The same, the file being named `p`. -/
def namedFile (p : Path) (D : List UInt8) : Kernel :=
  (oneDescriptor D { acc := .rdonly } 0).setFiles ((oneFile D).rename aName p) (Nat.le_refl _)

theorem namedFile_names (p : Path) (D : List UInt8) : (namedFile p D).files.names p = some 1 := by
  have hname : (oneFile D).names aName = some 1 := rfl
  exact (oneFile D).rename_names_to (q := p) hname

theorem namedFile_content (p : Path) (D : List UInt8) :
    (namedFile p D).files.content p = some D :=
  FileStore.content_of_names _ (namedFile_names p D)

end Kernel

end Posix
