import TransEncrypt.HookProofs

/-! # Plain files under descriptors that share a cursor

    In `PlainSystem` every descriptor has a cursor of its own.  After a `dup` two of them have
    one in common: a descriptor denotes an open file description, and the cursor is there.
    Nothing here is translated from the source; the hooked process is compared with it.

    * `OpenFiles`: names, contents, descriptors and descriptions;
    * `OpenFiles.view`: the same, each descriptor with the handle it denotes;
    * `OpenFiles.Step`: the calls as POSIX has them.

    POSIX knows nothing of `settled`.  It records which cursors a process may rely on: not one
    that had a descriptor closed, until a seek from the start or the end sets it anew. -/

namespace Plain

open Posix TeSeek TeMmap Refinement

/-- Descriptors denote descriptions, and these have the cursors. -/
structure OpenFiles where
  names : Path → Option Nat
  bytes : Nat → List UInt8
  opened : Int → Option Nat
  desc : Nat → Handle
  settled : Nat → Bool

/-- The calls of `PlainSystem`, their variants, a copy of a descriptor, and a private mapping
    from the start of a file. -/
inductive Request where
  | call (q : Call)
  | lseek64 (fd : Int) (offset : Int) (whence : Whence)
  | lstat (path : Path)
  | dup (fd : Int)
  | mmap (fd : Int) (length : Nat) (prot : Prot)

/-- A reply, or the bytes of a mapping that can be touched. -/
inductive Response where
  | reply (r : Reply)
  | mapping (bytes : Option (List UInt8))
  deriving DecidableEq

namespace OpenFiles

variable (s : OpenFiles)

/-- Every descriptor with its handle. -/
def view : PlainSystem := ⟨s.names, s.bytes, fun fd => (s.opened fd).map s.desc⟩

/-- The file of a description, at its cursor. -/
def file (o : Nat) : PlainFile := ⟨s.bytes (s.desc o).inode, (s.desc o).pos⟩

/-- No descriptor denotes the description. -/
def Free (o : Nat) : Prop := ∀ fd, s.opened fd ≠ some o

/-- A descriptor denotes a new description. -/
def bind (fd : Int) (o : Nat) (h : Handle) : OpenFiles :=
  { s with
    opened := Function.update s.opened fd (some o)
    desc := Function.update s.desc o h
    settled := Function.update s.settled o true }

/-- A descriptor denotes a description that is there. -/
def share (fd : Int) (o : Nat) : OpenFiles :=
  { s with opened := Function.update s.opened fd (some o) }

/-- The cursor of a description is moved, and may be relied on then or not. -/
def moveTo (o pos : Nat) (settled : Bool) : OpenFiles :=
  { s with
    desc := Function.update s.desc o { s.desc o with pos := pos }
    settled := Function.update s.settled o settled }

/-- A descriptor is closed; whoever shares the description cannot rely on its cursor. -/
def release (fd : Int) (o : Nat) : OpenFiles :=
  { s with
    opened := Function.update s.opened fd none
    settled := Function.update s.settled o false }

def store (i : Nat) (bs : List UInt8) : OpenFiles :=
  { s with bytes := Function.update s.bytes i bs }

def create (path : Path) (i : Nat) : OpenFiles :=
  { s.store i [] with names := Function.update s.names path (some i) }

/-- A seek settles the cursor unless it starts from where the cursor is. -/
def settles (o : Nat) (whence : Whence) : Bool :=
  if whence = .cur then s.settled o else true

/-! ### What a state looks like after them -/

@[simp] theorem store_view (i : Nat) (bs : List UInt8) :
    (s.store i bs).view = s.view.store i bs := rfl

@[simp] theorem create_view (path : Path) (i : Nat) :
    (s.create path i).view = s.view.create path i := rfl

@[simp] theorem moveTo_desc_self (o pos : Nat) (b : Bool) :
    (s.moveTo o pos b).desc o = { s.desc o with pos := pos } := Function.update_self ..
theorem moveTo_desc_ne {o o' : Nat} (hne : o' ≠ o) (pos : Nat) (b : Bool) :
    (s.moveTo o pos b).desc o' = s.desc o' := Function.update_of_ne hne ..
@[simp] theorem moveTo_settled_self (o pos : Nat) (b : Bool) :
    (s.moveTo o pos b).settled o = b := Function.update_self ..
theorem moveTo_settled_ne {o o' : Nat} (hne : o' ≠ o) (pos : Nat) (b : Bool) :
    (s.moveTo o pos b).settled o' = s.settled o' := Function.update_of_ne hne ..

@[simp] theorem bind_desc_self (fd : Int) (o : Nat) (h : Handle) :
    (s.bind fd o h).desc o = h := Function.update_self ..
theorem bind_desc_ne {o o' : Nat} (hne : o' ≠ o) (fd : Int) (h : Handle) :
    (s.bind fd o h).desc o' = s.desc o' := Function.update_of_ne hne ..
theorem bind_settled_ne {o o' : Nat} (hne : o' ≠ o) (fd : Int) (h : Handle) :
    (s.bind fd o h).settled o' = s.settled o' := Function.update_of_ne hne ..

theorem release_settled_ne {o o' : Nat} (hne : o' ≠ o) (fd : Int) :
    (s.release fd o).settled o' = s.settled o' := Function.update_of_ne hne ..

/-- What is denoted afterwards: the description itself, or one that was denoted before. -/
theorem share_cases {fd fd' : Int} {o o' : Nat} (hf : (s.share fd o).opened fd' = some o') :
    (fd' = fd ∧ o' = o) ∨ (fd' ≠ fd ∧ s.opened fd' = some o') := by
  by_cases hne : fd' = fd
  · subst hne
    have hself : (s.share fd' o).opened fd' = some o := Function.update_self ..
    exact .inl ⟨rfl, Option.some.inj (hf.symm.trans hself)⟩
  · exact .inr ⟨hne, (Function.update_of_ne hne ..).symm.trans hf⟩

theorem release_cases {fd fd' : Int} {o o' : Nat} (hf : (s.release fd o).opened fd' = some o') :
    fd' ≠ fd ∧ s.opened fd' = some o' := by
  have hne : fd' ≠ fd := by
    rintro rfl
    have hself : (s.release fd' o).opened fd' = none := Function.update_self ..
    cases hf.symm.trans hself
  exact ⟨hne, (Function.update_of_ne hne ..).symm.trans hf⟩

/-- A descriptor that denotes something has a handle. -/
theorem view_opened {fd : Int} {o : Nat} (hf : s.opened fd = some o) :
    s.view.opened fd = some (s.desc o) := by
  show (s.opened fd).map s.desc = _
  rw [hf]
  rfl

theorem view_cases {fd : Int} {h : Handle} (hf : s.view.opened fd = some h) :
    ∃ o, s.opened fd = some o ∧ s.desc o = h := Option.map_eq_some_iff.mp hf

/-- Binding a free description opens a handle, and nothing else. -/
theorem bind_view {o : Nat} (hfree : s.Free o) (fd : Int) (h : Handle) :
    (s.bind fd o h).view = s.view.hold fd h := by
  apply PlainSystem.ext
  · rfl
  · rfl
  · funext fd'
    show (Function.update s.opened fd (some o) fd').map (Function.update s.desc o h) =
      Function.update (fun fd' => (s.opened fd').map s.desc) fd (some h) fd'
    by_cases hne : fd' = fd
    · subst hne
      rw [Function.update_self, Function.update_self, Option.map_some, Function.update_self]
    · rw [Function.update_of_ne hne, Function.update_of_ne hne]
      cases hf : s.opened fd' with
      | none => rfl
      | some o' =>
          have ho : o' ≠ o := fun heq => hfree fd' (heq ▸ hf)
          rw [Option.map_some, Option.map_some, Function.update_of_ne ho]

/-- A write of nothing leaves the system as it is. -/
theorem write_nil (o : Nat) : (s.store (s.desc o).inode ((s.file o).write []).bytes).moveTo o
    ((s.file o).write []).pos (s.settled o) = s := by
  have hbytes : Function.update s.bytes (s.desc o).inode ((s.file o).write []).bytes = s.bytes := by
    rw [show ((s.file o).write []).bytes = s.bytes (s.desc o).inode from
      Overlay.overlay_nil 0 (s.bytes (s.desc o).inode) (s.desc o).pos, Function.update_eq_self]
  show (⟨s.names, Function.update s.bytes _ ((s.file o).write []).bytes, s.opened,
    Function.update s.desc o (s.desc o), Function.update s.settled o (s.settled o)⟩ : OpenFiles) = s
  rw [hbytes, Function.update_eq_self, Function.update_eq_self]

/-- The calls, with what they may be answered and what they leave. -/
inductive Step (s : OpenFiles) : Request → Response → OpenFiles → Prop where
  | opened {path : Path} {flags : Flags} {i : Nat} {fd : Int} {o : Nat} :
      s.names path = some i → 0 < fd → s.opened fd = none → s.Free o →
      Step s (.call (.openFile path flags)) (.reply (.result fd)) (s.bind fd o ⟨i, 0, flags.acc⟩)
  | created {path : Path} {flags : Flags} {i : Nat} {fd : Int} {o : Nat} :
      s.names path = none → flags.creat = true → s.view.Unused i → 0 < fd →
      s.opened fd = none → s.Free o →
      Step s (.call (.openFile path flags)) (.reply (.result fd))
        ((s.create path i).bind fd o ⟨i, 0, flags.acc⟩)
  | absent {path : Path} {flags : Flags} : s.names path = none → flags.creat = false →
      Step s (.call (.openFile path flags)) (.reply (.result (-1))) s
  | read {fd : Int} {o : Nat} (n : Nat) : s.opened fd = some o →
      Step s (.call (.read fd n)) (.reply (.data ((s.file o).read n).length ((s.file o).read n)))
        (s.moveTo o ((s.file o).afterRead n).pos (s.settled o))
  | write {fd : Int} {o : Nat} (b : List UInt8) : s.opened fd = some o →
      Step s (.call (.write fd b)) (.reply (.result b.length))
        ((s.store (s.desc o).inode ((s.file o).write b).bytes).moveTo o ((s.file o).write b).pos
          (s.settled o))
  | lseek {fd : Int} {o : Nat} {offset : Int} {whence : Whence} : s.opened fd = some o →
      0 ≤ target (s.file o) offset whence →
      Step s (.call (.lseek fd offset whence)) (.reply (.result (target (s.file o) offset whence)))
        (s.moveTo o (target (s.file o) offset whence).toNat (s.settles o whence))
  | stat {path : Path} {i : Nat} : s.names path = some i →
      Step s (.call (.stat path)) (.reply (.state (some ⟨true, (s.bytes i).length⟩))) s
  | missing {path : Path} : s.names path = none →
      Step s (.call (.stat path)) (.reply (.state none)) s
  | fstat {fd : Int} {o : Nat} : s.opened fd = some o →
      Step s (.call (.fstat fd)) (.reply (.state (some ⟨true, (s.file o).bytes.length⟩))) s
  | close {fd : Int} {o : Nat} : s.opened fd = some o →
      Step s (.call (.close fd)) (.reply (.result 0)) (s.release fd o)
  | lseek64 {fd offset : Int} {whence : Whence} {r : Response} {s' : OpenFiles} :
      Step s (.call (.lseek fd offset whence)) r s' → Step s (.lseek64 fd offset whence) r s'
  | lstat {path : Path} {r : Response} {s' : OpenFiles} :
      Step s (.call (.stat path)) r s' → Step s (.lstat path) r s'
  | dup {fd nfd : Int} {o : Nat} : s.opened fd = some o → 0 < nfd → s.opened nfd = none →
      Step s (.dup fd) (.reply (.result nfd)) (s.share nfd o)
  | mmap {fd : Int} {o length : Nat} {prot : Prot} {bytes : List UInt8} :
      s.opened fd = some o → Mapped (s.bytes (s.desc o).inode) 0 length bytes →
      Step s (.mmap fd length prot) (.mapping (some bytes)) s

end OpenFiles

/-- The machine of these steps. -/
def openFiles : Machine OpenFiles Request Response := ⟨OpenFiles.Step⟩

/-- The calls of `PlainSystem` but `open` have one answer at most. -/
theorem openFiles_single {q : Call} (hq : ∀ path flags, q ≠ .openFile path flags) :
    openFiles.Single (.call q) := by
  intro s a a' s₁ s₂ h h'
  cases h with
  | opened => exact absurd rfl (hq _ _)
  | created => exact absurd rfl (hq _ _)
  | absent => exact absurd rfl (hq _ _)
  | read n hf =>
      cases h' with
      | read _ hf' =>
          obtain rfl := Option.some.inj (hf.symm.trans hf')
          exact ⟨rfl, rfl⟩
  | write b hf =>
      cases h' with
      | write _ hf' =>
          obtain rfl := Option.some.inj (hf.symm.trans hf')
          exact ⟨rfl, rfl⟩
  | lseek hf ht =>
      cases h' with
      | lseek hf' ht' =>
          obtain rfl := Option.some.inj (hf.symm.trans hf')
          exact ⟨rfl, rfl⟩
  | stat hname =>
      cases h' with
      | stat hname' =>
          obtain rfl := Option.some.inj (hname.symm.trans hname')
          exact ⟨rfl, rfl⟩
      | missing hnone => cases hname.symm.trans hnone
  | missing hnone =>
      cases h' with
      | stat hname => cases hname.symm.trans hnone
      | missing => exact ⟨rfl, rfl⟩
  | fstat hf =>
      cases h' with
      | fstat hf' =>
          obtain rfl := Option.some.inj (hf.symm.trans hf')
          exact ⟨rfl, rfl⟩
  | close hf =>
      cases h' with
      | close hf' =>
          obtain rfl := Option.some.inj (hf.symm.trans hf')
          exact ⟨rfl, rfl⟩

end Plain
