import TransEncrypt.RefinementProofs
import TransEncrypt.SeekProofs

/-! # Plain files under several descriptors — what a process is meant to work with

    `PlainFile` is one file and one cursor.  Here are all the files a process knows by
    name, and any number of descriptors on them, each with a cursor of its own.  Nothing
    here is translated from the source; the hooked process is compared with it.

    * `Call`, `Reply`: what a process asks for, and what it is answered;
    * `Step`: the calls as POSIX has them; which free number a new descriptor gets, and
      which free inode a new file, is left open;
    * `plain`: the machine of these steps. -/

namespace Plain

open Posix Overlay Refinement

/-- An open descriptor: the file, the cursor, and how it was opened. -/
structure Handle where
  inode : Nat
  pos : Nat
  acc : AccMode
  deriving DecidableEq

/-- Names, contents and open descriptors. -/
@[ext] structure PlainSystem where
  names : Path → Option Nat
  bytes : Nat → List UInt8
  opened : Int → Option Handle

inductive Call where
  | openFile (path : Path) (flags : Flags)
  | read (fd : Int) (count : Nat)
  | write (fd : Int) (buf : List UInt8)
  | lseek (fd : Int) (offset : Int) (whence : Whence)
  | stat (path : Path)
  | fstat (fd : Int)
  | close (fd : Int)

/-- A number; a number and the bytes that were delivered; what is known of a file. -/
inductive Reply where
  | result (r : Int)
  | data (r : Int) (b : List UInt8)
  | state (st : Option Stat)
  deriving DecidableEq

namespace PlainSystem

variable (s : PlainSystem)

/-- The file of a descriptor, at its cursor. -/
def file (h : Handle) : PlainFile := ⟨s.bytes h.inode, h.pos⟩

/-- A descriptor is opened, or its cursor moved. -/
def hold (fd : Int) (h : Handle) : PlainSystem :=
  { s with opened := Function.update s.opened fd (some h) }

def release (fd : Int) : PlainSystem :=
  { s with opened := Function.update s.opened fd none }

/-- The content of a file is replaced. -/
def store (i : Nat) (bs : List UInt8) : PlainSystem :=
  { s with bytes := Function.update s.bytes i bs }

/-- A new, empty file. -/
def create (path : Path) (i : Nat) : PlainSystem :=
  { s.store i [] with names := Function.update s.names path (some i) }

/-- Neither a name nor a descriptor leads to the inode. -/
def Unused (i : Nat) : Prop :=
  (∀ path, s.names path ≠ some i) ∧ ∀ fd h, s.opened fd = some h → h.inode ≠ i

@[simp] theorem hold_names (fd : Int) (h : Handle) : (s.hold fd h).names = s.names := rfl
@[simp] theorem hold_bytes (fd : Int) (h : Handle) : (s.hold fd h).bytes = s.bytes := rfl
@[simp] theorem hold_self (fd : Int) (h : Handle) : (s.hold fd h).opened fd = some h :=
  Function.update_self ..
theorem hold_ne {fd fd' : Int} (hne : fd' ≠ fd) (h : Handle) :
    (s.hold fd h).opened fd' = s.opened fd' := Function.update_of_ne hne ..

@[simp] theorem release_names (fd : Int) : (s.release fd).names = s.names := rfl
@[simp] theorem release_bytes (fd : Int) : (s.release fd).bytes = s.bytes := rfl
@[simp] theorem release_self (fd : Int) : (s.release fd).opened fd = none :=
  Function.update_self ..
theorem release_ne {fd fd' : Int} (hne : fd' ≠ fd) :
    (s.release fd).opened fd' = s.opened fd' := Function.update_of_ne hne ..

@[simp] theorem store_names (i : Nat) (bs : List UInt8) : (s.store i bs).names = s.names := rfl
@[simp] theorem store_opened (i : Nat) (bs : List UInt8) :
    (s.store i bs).opened = s.opened := rfl
@[simp] theorem store_bytes_self (i : Nat) (bs : List UInt8) : (s.store i bs).bytes i = bs :=
  Function.update_self ..
theorem store_bytes_ne {i j : Nat} (hne : j ≠ i) (bs : List UInt8) :
    (s.store i bs).bytes j = s.bytes j := Function.update_of_ne hne ..

@[simp] theorem create_opened (path : Path) (i : Nat) : (s.create path i).opened = s.opened :=
  rfl
@[simp] theorem create_names_self (path : Path) (i : Nat) :
    (s.create path i).names path = some i := Function.update_self ..
theorem create_names_ne {path q : Path} (hne : q ≠ path) (i : Nat) :
    (s.create path i).names q = s.names q := Function.update_of_ne hne ..
@[simp] theorem create_bytes_self (path : Path) (i : Nat) : (s.create path i).bytes i = [] :=
  Function.update_self ..
theorem create_bytes_ne {i j : Nat} (hne : j ≠ i) (path : Path) :
    (s.create path i).bytes j = s.bytes j := Function.update_of_ne hne ..

/-- Storing what is there. -/
theorem store_same (i : Nat) : s.store i (s.bytes i) = s :=
  PlainSystem.ext rfl (Function.update_eq_self i s.bytes) rfl

/-- What is held afterwards: the descriptor itself, or one that was held before. -/
theorem hold_cases {fd fd' : Int} {h h' : Handle} (hf : (s.hold fd h).opened fd' = some h') :
    (fd' = fd ∧ h' = h) ∨ (fd' ≠ fd ∧ s.opened fd' = some h') := by
  by_cases hne : fd' = fd
  · subst hne
    rw [hold_self] at hf
    exact .inl ⟨rfl, (Option.some.inj hf).symm⟩
  · rw [hold_ne s hne] at hf
    exact .inr ⟨hne, hf⟩

theorem create_cases {path q : Path} {i j : Nat} (hj : (s.create path i).names q = some j) :
    (q = path ∧ j = i) ∨ (q ≠ path ∧ s.names q = some j) := by
  by_cases hq : q = path
  · subst hq
    rw [create_names_self] at hj
    exact .inl ⟨rfl, (Option.some.inj hj).symm⟩
  · rw [create_names_ne s hq] at hj
    exact .inr ⟨hq, hj⟩

theorem release_cases {fd fd' : Int} {h' : Handle} (hf : (s.release fd).opened fd' = some h') :
    fd' ≠ fd ∧ s.opened fd' = some h' := by
  by_cases hne : fd' = fd
  · subst hne
    rw [release_self] at hf
    cases hf
  · rw [release_ne s hne] at hf
    exact ⟨hne, hf⟩

theorem used_of_name {s : PlainSystem} {path : Path} {i : Nat} (hi : s.names path = some i) :
    ¬ s.Unused i := fun hu => hu.1 path hi

theorem used_of_opened {fd : Int} {h : Handle} (hf : s.opened fd = some h) :
    ¬ s.Unused h.inode := fun hu => hu.2 fd h hf rfl

/-- An unused inode stays unused when another one is opened, or created. -/
theorem unused_hold {i : Nat} (hu : s.Unused i) {h : Handle} (hne : i ≠ h.inode) (fd : Int) :
    (s.hold fd h).Unused i := by
  refine ⟨hu.1, fun fd' h' hf' => ?_⟩
  rcases s.hold_cases hf' with ⟨-, rfl⟩ | ⟨-, hf'⟩
  · exact Ne.symm hne
  · exact hu.2 fd' h' hf'

theorem unused_create {i j : Nat} (hu : s.Unused i) (hne : i ≠ j) {path : Path} :
    (s.create path j).Unused i := by
  refine ⟨fun q hq => ?_, hu.2⟩
  rcases s.create_cases hq with ⟨-, rfl⟩ | ⟨-, hq⟩
  · exact hne rfl
  · exact hu.1 q hq

/-- A write of nothing leaves the system as it is. -/
theorem write_nil {fd : Int} {h : Handle} (hf : s.opened fd = some h) :
    (s.store h.inode ((s.file h).write []).bytes).hold fd
      { h with pos := ((s.file h).write []).pos } = s := by
  have hbytes : ((s.file h).write []).bytes = s.bytes h.inode :=
    overlay_nil 0 (s.bytes h.inode) h.pos
  apply PlainSystem.ext
  · rfl
  · show Function.update s.bytes h.inode ((s.file h).write []).bytes = s.bytes
    rw [hbytes, Function.update_eq_self]
  · show Function.update s.opened fd (some h) = s.opened
    rw [← hf, Function.update_eq_self]

/-- The calls, with what they may be answered and what they leave. -/
inductive Step (s : PlainSystem) : Call → Reply → PlainSystem → Prop where
  | opened {path : Path} {flags : Flags} {i : Nat} {fd : Int} : s.names path = some i →
      0 < fd → s.opened fd = none →
      Step s (.openFile path flags) (.result fd) (s.hold fd ⟨i, 0, flags.acc⟩)
  | created {path : Path} {flags : Flags} {i : Nat} {fd : Int} : s.names path = none →
      flags.creat = true → s.Unused i → 0 < fd → s.opened fd = none →
      Step s (.openFile path flags) (.result fd) ((s.create path i).hold fd ⟨i, 0, flags.acc⟩)
  | absent {path : Path} {flags : Flags} : s.names path = none → flags.creat = false →
      Step s (.openFile path flags) (.result (-1)) s
  | read {fd : Int} {h : Handle} (n : Nat) : s.opened fd = some h →
      Step s (.read fd n) (.data ((s.file h).read n).length ((s.file h).read n))
        (s.hold fd { h with pos := ((s.file h).afterRead n).pos })
  | write {fd : Int} {h : Handle} (b : List UInt8) : s.opened fd = some h →
      Step s (.write fd b) (.result b.length)
        ((s.store h.inode ((s.file h).write b).bytes).hold fd
          { h with pos := ((s.file h).write b).pos })
  | lseek {fd : Int} {h : Handle} {o : Int} {whence : Whence} : s.opened fd = some h →
      0 ≤ TeSeek.target (s.file h) o whence →
      Step s (.lseek fd o whence) (.result (TeSeek.target (s.file h) o whence))
        (s.hold fd { h with pos := (TeSeek.target (s.file h) o whence).toNat })
  | stat {path : Path} {i : Nat} : s.names path = some i →
      Step s (.stat path) (.state (some ⟨true, (s.bytes i).length⟩)) s
  | missing {path : Path} : s.names path = none → Step s (.stat path) (.state none) s
  | fstat {fd : Int} {h : Handle} : s.opened fd = some h →
      Step s (.fstat fd) (.state (some ⟨true, (s.bytes h.inode).length⟩)) s
  | close {fd : Int} {h : Handle} : s.opened fd = some h →
      Step s (.close fd) (.result 0) (s.release fd)

end PlainSystem

/-- The plain file system as a machine. -/
def plain : Machine PlainSystem Call Reply := ⟨fun s q a s' => s.Step q a s'⟩

/-- All but an `open` has one answer at most. -/
theorem plain_single {q : Call} (hq : ∀ path flags, q ≠ .openFile path flags) :
    plain.Single q := by
  intro s a a' s₁ s₂ h h'
  cases h with
  | opened => exact absurd rfl (hq _ _)
  | created => exact absurd rfl (hq _ _)
  | absent => exact absurd rfl (hq _ _)
  | read n hf =>
      cases h' with
      | read _ hf' =>
          obtain rfl := Option.some.inj (hf.symm.trans hf')
          exact ⟨rfl, rfl⟩
  | write b hf =>
      cases h' with
      | write _ hf' =>
          obtain rfl := Option.some.inj (hf.symm.trans hf')
          exact ⟨rfl, rfl⟩
  | lseek hf ht =>
      cases h' with
      | lseek hf' ht' =>
          obtain rfl := Option.some.inj (hf.symm.trans hf')
          exact ⟨rfl, rfl⟩
  | stat hname =>
      cases h' with
      | stat hname' =>
          obtain rfl := Option.some.inj (hname.symm.trans hname')
          exact ⟨rfl, rfl⟩
      | missing hnone => cases hname.symm.trans hnone
  | missing hnone =>
      cases h' with
      | stat hname => cases hname.symm.trans hnone
      | missing => exact ⟨rfl, rfl⟩
  | fstat hf =>
      cases h' with
      | fstat hf' =>
          obtain rfl := Option.some.inj (hf.symm.trans hf')
          exact ⟨rfl, rfl⟩
  | close hf =>
      cases h' with
      | close => exact ⟨rfl, rfl⟩

end Plain
