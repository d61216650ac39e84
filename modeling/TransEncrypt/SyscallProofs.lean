import TransEncrypt.PosixProofs

/-! # System calls — one equation for each call of a calm host

    The calls on names and descriptors, each a function from a kernel state to its
    result and the next state.  A call that fails returns -1 and changes nothing
    but the position in the host's script.

    On Linux a positional write through a descriptor opened with `O_APPEND` goes
    to the end of the file, as a plain write does; `sysPwrite` models that. -/

namespace Posix

open Overlay

namespace FileStore

variable (fs : FileStore)

/-- The inode that a name denotes, with its bound. -/
def handle (p : Path) : Option { i : Nat // i < fs.next } :=
  match h : fs.names p with
  | none => none
  | some i => some ⟨i, fs.names_lt p i h⟩

theorem handle_some {p : Path} {i : Nat} (h : fs.names p = some i) :
    fs.handle p = some ⟨i, fs.names_lt p i h⟩ := by
  unfold handle
  split
  · rename_i h'
    rw [h'] at h
    cases h
  · rename_i j h'
    have hij : j = i := Option.some.inj (h'.symm.trans h)
    subst hij
    rfl

theorem handle_none {p : Path} (h : fs.names p = none) : fs.handle p = none := by
  unfold handle
  split
  · rfl
  · rename_i j h'
    rw [h] at h'
    cases h'

end FileStore

inductive Whence where
  | set
  | cur
  | fin
  deriving DecidableEq, Repr

/-- What `fstat` reports of a file: whether it is regular, and its size. -/
structure Stat where
  regular : Bool
  st_size : Int
  deriving DecidableEq, Repr

namespace Kernel

variable (k : Kernel)

/-- `open`: with `O_CREAT | O_EXCL` an existing name is refused; `O_TRUNC` empties
    the file whatever the access mode. -/
def sysOpen (p : Path) (fl : Flags) : Int × Kernel :=
  if k.answer.fails then (-1, k.tock 1)
  else match k.files.handle p with
    | some i =>
        if fl.creat && fl.excl then (-1, k.tock 1)
        else if fl.trunc then
          ((k.tock 1).setData i []).install k.answer.hint i fl i.2
        else (k.tock 1).install k.answer.hint i fl i.2
    | none =>
        if fl.creat then
          ((k.tock 1).setFiles (k.files.create p) (Nat.le_succ _)).install
            k.answer.hint k.files.next fl (Nat.lt_succ_self _)
        else (-1, k.tock 1)

/-- `access(path, F_OK)`. -/
def sysAccess (p : Path) : Int :=
  if k.answer.denies then -1 else if (k.files.names p).isSome then 0 else -1

/-- `fcntl(fd, F_GETFL)`. -/
def sysGetfl (fd : Int) : Option Flags := (k.find fd).map fun id => (k.desc id).flags

def sysRead (fd : Int) (n : Nat) : (Int × List UInt8) × Kernel :=
  match k.find fd with
  | none => ((-1, []), k.tock 1)
  | some id =>
      let d := k.desc id
      if k.answer.fails || !d.flags.acc.readable then ((-1, []), k.tock 1)
      else if d.regular then
        let bs := slice (k.files.data d.inode) d.pos (k.answer.cut n)
        ((bs.length, bs), (k.tock 1).setPos id (d.pos + bs.length))
      else
        let bs := k.answer.arrives.take (k.answer.cut n)
        ((bs.length, bs), k.tock 1)

def sysPread (fd : Int) (n : Nat) (off : Int) : (Int × List UInt8) × Kernel :=
  match k.find fd with
  | none => ((-1, []), k.tock 1)
  | some id =>
      let d := k.desc id
      if k.answer.fails || !d.flags.acc.readable || !d.regular || off < 0 then
        ((-1, []), k.tock 1)
      else
        let bs := slice (k.files.data d.inode) off.toNat (k.answer.cut n)
        ((bs.length, bs), k.tock 1)

/-- Where the bytes of a write land: `O_APPEND` sends them to the end. -/
def target (d : Desc) (off : Nat) : Nat :=
  if d.flags.append then (k.files.data d.inode).length else off

def sysWrite (fd : Int) (bs : List UInt8) : Int × Kernel :=
  match k.find fd with
  | none => (-1, k.tock 1)
  | some id =>
      let d := k.desc id
      let cs := bs.take (k.answer.cut bs.length)
      if k.answer.fails || !d.flags.acc.writable then (-1, k.tock 1)
      else if cs = [] then (0, k.tock 1)
      else if d.regular then
        (cs.length, ((k.tock 1).setData d.inode
            (overlay 0 (k.files.data d.inode) (k.target d d.pos) cs)).setPos id
          (k.target d d.pos + cs.length))
      else (cs.length, k.tock 1)

def sysPwrite (fd : Int) (bs : List UInt8) (off : Int) : Int × Kernel :=
  match k.find fd with
  | none => (-1, k.tock 1)
  | some id =>
      let d := k.desc id
      let cs := bs.take (k.answer.cut bs.length)
      if k.answer.fails || !d.flags.acc.writable || !d.regular || off < 0 then
        (-1, k.tock 1)
      else (cs.length, (k.tock 1).setData d.inode
        (overlay 0 (k.files.data d.inode) (k.target d off.toNat) cs))

/-- The position an offset is counted from. -/
def seekBase (d : Desc) : Whence → Int
  | .set => 0
  | .cur => d.pos
  | .fin => (k.files.data d.inode).length

def sysLseek (fd : Int) (off : Int) (whence : Whence) : Int × Kernel :=
  match k.find fd with
  | none => (-1, k.tock 1)
  | some id =>
      let d := k.desc id
      if k.answer.fails || !d.regular || k.seekBase d whence + off < 0 then
        (-1, k.tock 1)
      else (k.seekBase d whence + off,
        (k.tock 1).setPos id (k.seekBase d whence + off).toNat)

def sysDup (fd : Int) : Int × Kernel :=
  match h : k.find fd with
  | none => (-1, k.tock 1)
  | some id =>
      if k.answer.fails then (-1, k.tock 1)
      else (k.freeFd k.answer.hint,
        (k.tock 1).bindFd k.answer.hint id (k.find_lt h))

/-- `close` releases the descriptor also when it reports a failure. -/
def sysClose (fd : Int) : Int × Kernel :=
  match k.find fd with
  | none => (-1, k.tock 1)
  | some _ => (if k.answer.fails then -1 else 0, (k.tock 1).dropFd fd)

def sysFstat (fd : Int) : Option Stat × Kernel :=
  match k.find fd with
  | none => (none, k.tock 1)
  | some id =>
      let d := k.desc id
      if k.answer.fails then (none, k.tock 1)
      else (some ⟨d.regular, (k.files.data d.inode).length⟩, k.tock 1)

def sysStat (p : Path) : Option Stat × Kernel :=
  if k.answer.fails then (none, k.tock 1)
  else ((k.files.content p).map fun bs => ⟨true, bs.length⟩, k.tock 1)

/-! ## Calls that do not fail -/

section Granted

variable {k} (hfails : k.answer.fails = false) {fd : Int} {id : Nat} (hf : k.find fd = some id)
include hfails hf

theorem sysLseek_granted (hreg : (k.desc id).regular = true) (off : Int) (whence : Whence) :
    k.sysLseek fd off whence =
      if k.seekBase (k.desc id) whence + off < 0 then (-1, k.tock 1)
      else (k.seekBase (k.desc id) whence + off,
        (k.tock 1).setPos id (k.seekBase (k.desc id) whence + off).toNat) := by
  simp only [sysLseek, hf, hfails, hreg, Bool.not_true, Bool.or_self, Bool.false_or,
    decide_eq_true_eq]

/-- Asking for the cursor moves nothing. -/
theorem sysLseek_told (hreg : (k.desc id).regular = true) :
    k.sysLseek fd 0 .cur = (((k.desc id).pos : Int), k.tock 1) := by
  rw [sysLseek_granted hfails hf hreg, if_neg (by
    show ¬ ((k.desc id).pos : Int) + 0 < 0
    omega)]
  show (((k.desc id).pos : Int) + 0, (k.tock 1).setPos id ((k.desc id).pos + 0 : Int).toNat) = _
  rw [Int.add_zero, Int.toNat_natCast]
  exact congrArg (fun j => (((k.desc id).pos : Int), j)) ((k.tock 1).setPos_same id)

theorem sysFstat_granted : k.sysFstat fd =
    (some ⟨(k.desc id).regular, (k.files.data (k.desc id).inode).length⟩, k.tock 1) := by
  simp only [sysFstat, hf, hfails, Bool.false_eq_true, if_false]

end Granted

/-! ## A calm host -/

section Calm

variable {k} (hc : k.host.Calm)
include hc

theorem answer_fails : k.answer.fails = false := (hc _).fails

theorem answer_denies : k.answer.denies = false := (hc _).denies

theorem answer_cut (n : Nat) : k.answer.cut n = n := by
  have h : k.answer.limit = none := (hc k.tick).limit
  rw [Answer.cut, h]

variable {fd : Int} {id : Nat} (hf : k.find fd = some id)
include hf

theorem sysRead_calm (hreg : (k.desc id).regular = true)
    (hacc : (k.desc id).flags.acc.readable = true) (n : Nat) :
    k.sysRead fd n =
      let bs := slice (k.files.data (k.desc id).inode) (k.desc id).pos n
      (((bs.length : Int), bs), (k.tock 1).setPos id ((k.desc id).pos + bs.length)) := by
  simp only [sysRead, hf, answer_fails hc, answer_cut hc, hacc, hreg, Bool.not_true,
    Bool.or_self, Bool.false_eq_true, if_false, if_true]

theorem sysPread_calm (hreg : (k.desc id).regular = true)
    (hacc : (k.desc id).flags.acc.readable = true) (n : Nat) {off : Int}
    (hoff : 0 ≤ off) :
    k.sysPread fd n off =
      let bs := slice (k.files.data (k.desc id).inode) off.toNat n
      (((bs.length : Int), bs), k.tock 1) := by
  have hneg : ¬ off < 0 := by omega
  simp only [sysPread, hf, answer_fails hc, answer_cut hc, hacc, hreg, Bool.not_true,
    Bool.or_self, hneg, decide_false, Bool.false_eq_true, if_false]

theorem sysWrite_calm (hreg : (k.desc id).regular = true)
    (hacc : (k.desc id).flags.acc.writable = true) {bs : List UInt8} (hbs : bs ≠ []) :
    k.sysWrite fd bs =
      ((bs.length : Int), ((k.tock 1).setData (k.desc id).inode
          (overlay 0 (k.files.data (k.desc id).inode)
            (k.target (k.desc id) (k.desc id).pos) bs)).setPos id
        (k.target (k.desc id) (k.desc id).pos + bs.length)) := by
  simp only [sysWrite, hf, answer_fails hc, answer_cut hc, hacc, hreg, Bool.not_true,
    Bool.or_self, List.take_length, hbs, Bool.false_eq_true, if_false, if_true]

theorem sysWrite_nil : k.sysWrite fd [] =
    (if (k.desc id).flags.acc.writable then 0 else -1, k.tock 1) := by
  simp only [sysWrite, hf, answer_fails hc, List.take_nil, if_true, Bool.false_or]
  cases (k.desc id).flags.acc.writable <;> rfl

theorem sysLseek_calm (hreg : (k.desc id).regular = true) (off : Int)
    (whence : Whence) :
    k.sysLseek fd off whence =
      if k.seekBase (k.desc id) whence + off < 0 then (-1, k.tock 1)
      else (k.seekBase (k.desc id) whence + off,
        (k.tock 1).setPos id (k.seekBase (k.desc id) whence + off).toNat) :=
  sysLseek_granted (answer_fails hc) hf hreg off whence

theorem sysLseek_here (hreg : (k.desc id).regular = true) :
    k.sysLseek fd 0 .cur = (((k.desc id).pos : Int), k.tock 1) :=
  sysLseek_told (answer_fails hc) hf hreg

theorem sysDup_calm : k.sysDup fd = (k.freeFd k.answer.hint,
    (k.tock 1).bindFd k.answer.hint id (k.find_lt hf)) := by
  unfold sysDup
  split
  · rename_i h
    rw [hf] at h
    cases h
  · rename_i id' h
    have hid : id = id' := Option.some.inj (hf.symm.trans h)
    subst hid
    rw [answer_fails hc]
    rfl

theorem sysClose_calm : k.sysClose fd = (0, (k.tock 1).dropFd fd) := by
  simp only [sysClose, hf, answer_fails hc, Bool.false_eq_true, if_false]

theorem sysFstat_calm : k.sysFstat fd =
    (some ⟨(k.desc id).regular, (k.files.data (k.desc id).inode).length⟩,
      k.tock 1) :=
  sysFstat_granted (answer_fails hc) hf

end Calm

/-- Closing releases the descriptor, also when it fails. -/
theorem sysClose_released (k : Kernel) (fd : Int) : ¬ (k.sysClose fd).2.InUse fd := by
  rw [sysClose]
  cases hf : k.find fd with
  | none => exact k.find_none_iff.mp hf
  | some id => exact fun h => ((k.tock 1).dropFd_inUse.mp h).2 rfl

/-- An `open` of a file that exists, when it does not fail. -/
theorem sysOpen_found {k : Kernel} (hfails : k.answer.fails = false) {p : Path} {i : Nat}
    {f : Flags} (hp : k.files.names p = some i) (hx : (f.creat && f.excl) = false)
    (ht : f.trunc = false) :
    k.sysOpen p f = (k.tock 1).install k.answer.hint i f (k.files.names_lt p i hp) := by
  simp only [sysOpen, hfails, k.files.handle_some hp, hx, ht, Bool.false_eq_true, if_false]

/-- An `open` that creates the file, when it does not fail. -/
theorem sysOpen_created {k : Kernel} (hfails : k.answer.fails = false) {p : Path} {f : Flags}
    (hp : k.files.names p = none) (hcr : f.creat = true) :
    k.sysOpen p f = ((k.tock 1).setFiles (k.files.create p) (Nat.le_succ _)).install
      k.answer.hint k.files.next f (Nat.lt_succ_self _) := by
  simp only [sysOpen, hfails, k.files.handle_none hp, hcr, Bool.false_eq_true, if_false, if_true]

section CalmPath

variable {k} (hc : k.host.Calm)
include hc

theorem sysOpen_calm {p : Path} {i : Nat} {f : Flags} (hp : k.files.names p = some i)
    (hx : (f.creat && f.excl) = false) (ht : f.trunc = false) :
    k.sysOpen p f = (k.tock 1).install k.answer.hint i f (k.files.names_lt p i hp) :=
  sysOpen_found (answer_fails hc) hp hx ht

theorem sysOpen_trunc {p : Path} {i : Nat} {f : Flags} (hp : k.files.names p = some i)
    (hx : (f.creat && f.excl) = false) (ht : f.trunc = true) :
    k.sysOpen p f = ((k.tock 1).setData i []).install k.answer.hint i f
      (k.files.names_lt p i hp) := by
  simp only [sysOpen, answer_fails hc, k.files.handle_some hp, hx, ht,
    Bool.false_eq_true, if_false, if_true]

theorem sysOpen_excl {p : Path} {i : Nat} {f : Flags} (hp : k.files.names p = some i)
    (hx : (f.creat && f.excl) = true) : k.sysOpen p f = (-1, k.tock 1) := by
  simp only [sysOpen, answer_fails hc, k.files.handle_some hp, hx, Bool.false_eq_true,
    if_false, if_true]

theorem sysOpen_creat {p : Path} {f : Flags} (hp : k.files.names p = none)
    (hcr : f.creat = true) :
    k.sysOpen p f = ((k.tock 1).setFiles (k.files.create p) (Nat.le_succ _)).install
      k.answer.hint k.files.next f (Nat.lt_succ_self _) :=
  sysOpen_created (answer_fails hc) hp hcr

theorem sysOpen_absent {p : Path} {f : Flags} (hp : k.files.names p = none)
    (hcr : f.creat = false) : k.sysOpen p f = (-1, k.tock 1) := by
  simp only [sysOpen, answer_fails hc, k.files.handle_none hp, hcr, Bool.false_eq_true,
    if_false]

theorem sysStat_calm (p : Path) :
    k.sysStat p = ((k.files.content p).map fun bs => ⟨true, bs.length⟩, k.tock 1) := by
  simp only [sysStat, answer_fails hc, Bool.false_eq_true, if_false]

end CalmPath

theorem sysAccess_some (hd : k.answer.denies = false) {p : Path} {i : Nat}
    (h : k.files.names p = some i) : k.sysAccess p = 0 := by
  rw [sysAccess, hd, h]
  rfl

theorem sysAccess_none {p : Path} (h : k.files.names p = none) : k.sysAccess p = -1 := by
  rw [sysAccess, h]
  exact ite_self _

theorem sysAccess_denied (hd : k.answer.denies = true) (p : Path) : k.sysAccess p = -1 := by
  rw [sysAccess, hd]
  rfl

/-- What an `access` that succeeds says. -/
theorem sysAccess_zero {p : Path} :
    k.sysAccess p = 0 ↔ k.answer.denies = false ∧ k.files.names p ≠ none := by
  rw [sysAccess]
  cases k.answer.denies <;> cases k.files.names p <;> simp

theorem sysGetfl_some {fd : Int} {id : Nat} (h : k.find fd = some id) :
    k.sysGetfl fd = some (k.desc id).flags := by
  rw [sysGetfl, h]
  rfl

/-- Opening a file, reading its first bytes `m` calls later and closing it again leaves
    nothing behind. -/
theorem open_read_close {k : Kernel} (hc : k.host.Calm) {p : Path} {i : Nat}
    (hp : k.files.names p = some i) {f : Flags} (hx : (f.creat && f.excl) = false)
    (ht : f.trunc = false) (hr : f.acc.readable = true) (m n : Nat) :
    ∃ k₁ k₂ k₃ : Kernel, k.sysOpen p f = (k.freeFd k.answer.hint, k₁) ∧
      (k₁.tock m).sysRead (k.freeFd k.answer.hint) n =
        ((((slice (k.files.data i) 0 n).length : Int), slice (k.files.data i) 0 n), k₂) ∧
      k₂.sysClose (k.freeFd k.answer.hint) = (0, k₃) ∧ Quiet k k₃ ∧ k₃.tick = k.tick + m + 3 := by
  let k₁ := ((k.tock 1).install k.answer.hint i f (k.files.names_lt p i hp)).2
  have hf₁ : k₁.find (k.freeFd k.answer.hint) = some k.nextDesc := install_find_self
  have hd₁ : k₁.desc k.nextDesc = { inode := i, pos := 0, flags := f } :=
    install_desc_self
  let bs := slice (k.files.data i) 0 n
  let k₂ := (k₁.tock (m + 1)).setPos k.nextDesc bs.length
  have hread : (k₁.tock m).sysRead (k.freeFd k.answer.hint) n = (((bs.length : Int), bs), k₂) := by
    rw [sysRead_calm (k := k₁.tock m) hc hf₁ (by rw [tock_desc, hd₁])
      (by rw [tock_desc, hd₁]; exact hr), tock_desc, hd₁]
    show (((bs.length : Int), bs), (k₁.tock (m + 1)).setPos k.nextDesc (0 + bs.length)) = _
    rw [Nat.zero_add]
  refine ⟨k₁, k₂, (k₂.tock 1).dropFd (k.freeFd k.answer.hint), sysOpen_calm hc hp hx ht,
    hread, sysClose_calm (k := k₂) hc hf₁, ⟨rfl, ?_, rfl, ?_, Nat.le_succ _⟩, ?_⟩
  · exact k.filter_bound k.answer.hint k.nextDesc
  · intro id hid
    show k₂.desc id = k.desc id
    rw [show k₂.desc id = k₁.desc id from
      setPos_desc_ne _ (Nat.ne_of_lt hid) _]
    exact install_desc_lt hid
  · show k.tick + 1 + (m + 1) + 1 = _
    omega

/-! ## Reading the start of a file -/

/-- Open a file for reading, read at most `n` bytes, and close it again; a descriptor that is
    not positive is taken for a failure. -/
def fetch (k : Kernel) (p : Path) (n : Nat) : List UInt8 × Kernel :=
  let o := k.sysOpen p { acc := .rdonly }
  if o.1 > 0 then
    let r := o.2.sysRead o.1 n
    (r.1.2, (r.2.sysClose o.1).2)
  else ([], o.2)

/-- What a reader that asks with `access` first gets of a file: nothing when it is refused. -/
def asked (k : Kernel) (p : Path) (n : Nat) : Option (List UInt8) :=
  if k.sysAccess p = 0 then some (k.fetch p n).1 else none

/-- A read counts the bytes it delivers. -/
theorem sysRead_pos (k : Kernel) (fd : Int) (n : Nat) :
    (k.sysRead fd n).1.1 > 0 ↔ (k.sysRead fd n).1.2 ≠ [] := by
  unfold sysRead
  split
  · simp
  · dsimp only
    split_ifs
    · simp
    · exact Int.natCast_pos.trans List.length_pos_iff
    · exact Int.natCast_pos.trans List.length_pos_iff

/-- What is read of a file is the start of it, whatever the host does. -/
theorem fetch_prefix {k : Kernel} {p : Path} {i : Nat} (hp : k.files.names p = some i) (n : Nat) :
    (k.fetch p n).1 <+: k.files.data i := by
  rw [fetch]
  by_cases hfails : k.answer.fails = true
  · rw [sysOpen, if_pos hfails]
    exact List.nil_prefix
  · rw [sysOpen_found (by simpa using hfails) hp rfl rfl]
    let k₁ := ((k.tock 1).install k.answer.hint i { acc := .rdonly } (k.files.names_lt p i hp)).2
    have hf₁ : k₁.find (k.freeFd k.answer.hint) = some k.nextDesc := install_find_self
    have hd₁ : k₁.desc k.nextDesc = { inode := i, pos := 0, flags := { acc := .rdonly } } :=
      install_desc_self
    show (if k.freeFd k.answer.hint > 0 then
        ((k₁.sysRead (k.freeFd k.answer.hint) n).1.2, _) else ([], k₁)).1 <+: _
    split
    · simp only [sysRead, hf₁, hd₁]
      split_ifs
      · exact List.nil_prefix
      · rw [slice, List.drop_zero]
        exact List.take_prefix ..
    · exact List.nil_prefix

/-- On a calm host with descriptor 0 in use all of it is read. -/
theorem fetch_calm {k : Kernel} (hc : k.host.Calm) {p : Path} {i : Nat}
    (hp : k.files.names p = some i) (h0 : k.InUse 0) (n : Nat) :
    (k.fetch p n).1 = slice (k.files.data i) 0 n ∧ Quiet k (k.fetch p n).2 := by
  obtain ⟨k₁, k₂, k₃, hopen, hread, hclose, hquiet, -⟩ :=
    open_read_close hc hp (f := { acc := .rdonly }) rfl rfl rfl 0 n
  rw [fetch, hopen]
  simp only [if_pos (k.freeFd_pos h0 _)]
  rw [show k₁.sysRead _ n = _ from hread, hclose]
  exact ⟨rfl, hquiet⟩

/-- So a short file is read as a whole. -/
theorem fetch_whole {k : Kernel} (hc : k.host.Calm) {p : Path} (h0 : k.InUse 0)
    {D : List UInt8} (hp : k.files.content p = some D) {n : Nat} (hn : D.length ≤ n) :
    (k.fetch p n).1 = D := by
  obtain ⟨i, hi, rfl⟩ := (k.files.content_eq_some).mp hp
  rw [(fetch_calm hc hi h0 n).1]
  exact List.take_of_length_le hn

/-- It is there to be asked for, too. -/
theorem asked_whole {k : Kernel} (hc : k.host.Calm) {p : Path} (h0 : k.InUse 0)
    {D : List UInt8} (hp : k.files.content p = some D) {n : Nat} (hn : D.length ≤ n) :
    k.asked p n = some D := by
  obtain ⟨i, hi, -⟩ := (k.files.content_eq_some).mp hp
  rw [asked, if_pos (k.sysAccess_some (answer_denies hc) hi), fetch_whole hc h0 hp hn]

theorem namedFile_fetch {p : Path} {D : List UInt8} {n : Nat} (hn : D.length ≤ n) :
    ((namedFile p D).fetch p n).1 = D := by
  have h0 : (namedFile p D).InUse 0 := List.mem_cons_self ..
  exact fetch_whole (fun _ => ⟨rfl, rfl, rfl⟩) h0 (namedFile_content p D) hn

/-! ## Calls that leave the descriptors alone -/

/-- Every descriptor of `k` is one of `k'`, on the same file and with the same flags.
    Files and cursors may have changed, and descriptors may have come to it. -/
structure Kept (k k' : Kernel) : Prop where
  find : ∀ {fd id}, k.find fd = some id → k'.find fd = some id
  desc : ∀ {fd id}, k.find fd = some id → ∃ p, k'.desc id = { k.desc id with pos := p }
  host : k'.host = k.host

namespace Kept

variable {k k' k'' : Kernel}

theorem refl (k : Kernel) : Kept k k := ⟨id, fun {_ j} _ => ⟨(k.desc j).pos, rfl⟩, rfl⟩

theorem trans (h : Kept k k') (h' : Kept k' k'') : Kept k k'' := by
  refine ⟨fun hf => h'.find (h.find hf), fun hf => ?_, h'.host.trans h.host⟩
  obtain ⟨p, hp⟩ := h.desc hf
  obtain ⟨q, hq⟩ := h'.desc (h.find hf)
  exact ⟨q, by rw [hq, hp]⟩

theorem of_quiet (h : Quiet k k') : Kept k k' :=
  ⟨fun hf => (h.find _).trans hf, fun {_ j} hf => ⟨(k.desc j).pos, h.desc_find hf⟩, h.host⟩

theorem inUse (h : Kept k k') {fd : Int} (hu : k.InUse fd) : k'.InUse fd := by
  cases hf : k.find fd with
  | none => exact absurd hu (k.find_none_iff.mp hf)
  | some id => exact k'.find_inUse (h.find hf)

theorem inode (h : Kept k k') {fd : Int} {id : Nat} (hf : k.find fd = some id) :
    (k'.desc id).inode = (k.desc id).inode := by
  obtain ⟨p, hp⟩ := h.desc hf
  rw [hp]

theorem tock (k : Kernel) (n : Nat) : Kept k (k.tock n) :=
  ⟨id, fun {_ j} _ => ⟨(k.desc j).pos, rfl⟩, rfl⟩

theorem setPos (k : Kernel) (id p : Nat) : Kept k (k.setPos id p) := by
  refine ⟨fun hf => hf, fun {fd j} _ => ?_, rfl⟩
  by_cases h : j = id
  · exact ⟨p, by rw [h, setPos_desc_self]⟩
  · exact ⟨(k.desc j).pos, by rw [setPos_desc_ne _ h]⟩

theorem setFiles (k : Kernel) (fs : FileStore) (h : k.files.next ≤ fs.next) :
    Kept k (k.setFiles fs h) :=
  ⟨id, fun {_ j} _ => ⟨(k.desc j).pos, rfl⟩, rfl⟩

theorem setData (k : Kernel) (i : Nat) (bs : List UInt8) : Kept k (k.setData i bs) :=
  .setFiles k _ _

end Kept

theorem kept_read (fd : Int) (n : Nat) : Kept k (k.sysRead fd n).2 := by
  unfold sysRead
  split
  · exact .tock k 1
  · rename_i id _
    dsimp only
    split
    · exact .tock k 1
    · split
      · exact (Kept.tock k 1).trans (.setPos _ id _)
      · exact .tock k 1

theorem kept_pread (fd : Int) (n : Nat) (off : Int) : Kept k (k.sysPread fd n off).2 := by
  unfold sysPread
  split
  · exact .tock k 1
  · dsimp only
    split
    · exact .tock k 1
    · exact .tock k 1

theorem kept_write (fd : Int) (bs : List UInt8) : Kept k (k.sysWrite fd bs).2 := by
  unfold sysWrite
  split
  · exact .tock k 1
  · rename_i id _
    dsimp only
    split
    · exact .tock k 1
    · split
      · exact .tock k 1
      · split
        · exact ((Kept.tock k 1).trans (.setData _ _ _)).trans (.setPos _ id _)
        · exact .tock k 1

theorem kept_pwrite (fd : Int) (bs : List UInt8) (off : Int) :
    Kept k (k.sysPwrite fd bs off).2 := by
  unfold sysPwrite
  split
  · exact .tock k 1
  · dsimp only
    split
    · exact .tock k 1
    · exact (Kept.tock k 1).trans (.setData _ _ _)

theorem kept_lseek (fd : Int) (off : Int) (whence : Whence) :
    Kept k (k.sysLseek fd off whence).2 := by
  unfold sysLseek
  split
  · exact .tock k 1
  · rename_i id _
    dsimp only
    split
    · exact .tock k 1
    · exact (Kept.tock k 1).trans (.setPos _ id _)

theorem kept_stat (p : Path) : Kept k (k.sysStat p).2 := by
  unfold sysStat
  split
  · exact .tock k 1
  · exact .tock k 1

theorem kept_fstat (fd : Int) : Kept k (k.sysFstat fd).2 := by
  unfold sysFstat
  split
  · exact .tock k 1
  · dsimp only
    split
    · exact .tock k 1
    · exact .tock k 1

/-- Asking for the cursor moves nothing, whatever the answer is. -/
theorem sysLseek_tell (fd : Int) : (k.sysLseek fd 0 .cur).2 = k.tock 1 := by
  unfold sysLseek
  split
  · rfl
  · rename_i id _
    dsimp only
    split
    · rfl
    · show (k.tock 1).setPos id (((k.desc id).pos : Int) + 0).toNat = k.tock 1
      rw [Int.add_zero, Int.toNat_natCast]
      exact (k.tock 1).setPos_same id

/-- The result of a write tells whether it was refused. -/
theorem sysWrite_failed {fd : Int} {id : Nat} (hf : k.find fd = some id) (bs : List UInt8) :
    (k.sysWrite fd bs).1 = -1 ↔
      k.answer.fails = true ∨ (k.desc id).flags.acc.writable = false := by
  rw [← Bool.not_eq_true' ((k.desc id).flags.acc.writable), ← Bool.or_eq_true]
  simp only [sysWrite, hf]
  split
  · rename_i h
    exact ⟨fun _ => h, fun _ => rfl⟩
  · rename_i h
    constructor
    · intro hr
      exfalso
      split at hr
      · cases hr
      · split at hr
        · have : ((List.take (k.answer.cut bs.length) bs).length : Int) = -1 := hr
          omega
        · have : ((List.take (k.answer.cut bs.length) bs).length : Int) = -1 := hr
          omega
    · exact fun h' => absurd h' h

/-- A refused write does nothing. -/
theorem sysWrite_refused {fd : Int} {bs : List UInt8} (h : (k.sysWrite fd bs).1 = -1) :
    (k.sysWrite fd bs).2 = k.tock 1 := by
  cases hf : k.find fd with
  | none => rw [sysWrite, hf]
  | some id =>
      have hno := (k.sysWrite_failed hf bs).mp h
      rw [← Bool.not_eq_true' ((k.desc id).flags.acc.writable), ← Bool.or_eq_true] at hno
      simp only [sysWrite, hf]
      rw [if_pos hno]

/-- A descriptor that is not open for writing writes nothing. -/
theorem sysWrite_unwritable {fd : Int} {id : Nat} (hf : k.find fd = some id)
    (hacc : (k.desc id).flags.acc.writable = false) (bs : List UInt8) :
    (k.sysWrite fd bs).2.files = k.files := by
  simp only [sysWrite, hf, hacc, Bool.not_false, Bool.or_true, if_true]
  rfl

theorem sysWrite_nil_files (fd : Int) : (k.sysWrite fd []).2.files = k.files := by
  unfold sysWrite
  split
  · rfl
  · simp only [List.take_nil, if_true]
    split
    · rfl
    · rfl

theorem sysWrite_names (fd : Int) (bs : List UInt8) :
    (k.sysWrite fd bs).2.files.names = k.files.names := by
  unfold sysWrite
  split
  · rfl
  · dsimp only
    split
    · rfl
    · split
      · rfl
      · split
        · rfl
        · rfl

theorem sysPwrite_names (fd : Int) (bs : List UInt8) (off : Int) :
    (k.sysPwrite fd bs off).2.files.names = k.files.names := by
  unfold sysPwrite
  split
  · rfl
  · dsimp only
    split
    · rfl
    · rfl

/-! ## Calls that change no file -/

/-- No file has changed, no name has been given or taken, and the host is the same. -/
def Unwritten (k k' : Kernel) : Prop := k'.files = k.files ∧ k'.host = k.host

theorem unwritten_read (fd : Int) (n : Nat) : Unwritten k (k.sysRead fd n).2 := by
  unfold sysRead
  dsimp only
  repeat' split
  all_goals exact ⟨rfl, rfl⟩

theorem unwritten_pread (fd : Int) (n : Nat) (off : Int) :
    Unwritten k (k.sysPread fd n off).2 := by
  unfold sysPread
  dsimp only
  repeat' split
  all_goals exact ⟨rfl, rfl⟩

theorem unwritten_lseek (fd : Int) (off : Int) (whence : Whence) :
    Unwritten k (k.sysLseek fd off whence).2 := by
  unfold sysLseek
  dsimp only
  repeat' split
  all_goals exact ⟨rfl, rfl⟩

theorem unwritten_dup (fd : Int) : Unwritten k (k.sysDup fd).2 := by
  unfold sysDup
  repeat' split
  all_goals exact ⟨rfl, rfl⟩

theorem unwritten_close (fd : Int) : Unwritten k (k.sysClose fd).2 := by
  unfold sysClose
  repeat' split
  all_goals exact ⟨rfl, rfl⟩

theorem unwritten_stat (p : Path) : Unwritten k (k.sysStat p).2 := by
  unfold sysStat
  split
  all_goals exact ⟨rfl, rfl⟩

theorem unwritten_fstat (fd : Int) : Unwritten k (k.sysFstat fd).2 := by
  unfold sysFstat
  dsimp only
  repeat' split
  all_goals exact ⟨rfl, rfl⟩

/-! ## What `open` and `dup` can do -/

/-- `k'` is `k` with a new descriptor `fd` for the description `id`. -/
structure Gained (k : Kernel) (fd : Int) (id : Nat) (k' : Kernel) : Prop where
  fresh : ¬ k.InUse fd
  nonneg : 0 ≤ fd
  fds : k'.fds = (fd, id) :: k.fds
  desc : ∀ j, j < k.nextDesc → k'.desc j = k.desc j
  host : k'.host = k.host

namespace Gained

variable {k k' k'' : Kernel} {fd : Int} {id : Nat} (h : Gained k fd id k')
include h

theorem find_self : k'.find fd = some id := by
  rw [find, h.fds]
  exact List.lookup_cons_self

/-- Releasing it again leaves the descriptors there were. -/
theorem dropFd_fds : (k'.dropFd fd).fds = k.fds := by
  show k'.fds.filter _ = k.fds
  rw [h.fds, List.filter_cons_of_neg (by simp)]
  refine List.filter_eq_self.mpr fun e he => ?_
  have hne : e.1 ≠ fd := fun heq => h.fresh (heq ▸ List.mem_map.mpr ⟨e, he, rfl⟩)
  simpa using hne

theorem find_ne {fd' : Int} (hne : fd' ≠ fd) : k'.find fd' = k.find fd' := by
  have hbeq : (fd' == fd) = false := by simpa using hne
  rw [find, h.fds, List.lookup_cons, hbeq]
  rfl

/-- The old descriptors are left alone. -/
theorem kept : Kept k k' := by
  refine ⟨fun {fd' j} hf => ?_, fun {_ j} hf => ⟨(k.desc j).pos, h.desc j (k.find_lt hf)⟩,
    h.host⟩
  rw [h.find_ne (fun heq => h.fresh (heq ▸ k.find_inUse hf)), hf]

/-- Also when the new one is closed again. -/
theorem close (hk : Kept k' k'') : Kept k (k''.sysClose fd).2 := by
  have hfind : k''.find fd = some id := hk.find h.find_self
  have hclose : (k''.sysClose fd).2 = (k''.tock 1).dropFd fd := by
    unfold sysClose
    rw [hfind]
  have hall := h.kept.trans hk
  rw [hclose]
  refine ⟨fun {fd' j} hf => ?_, fun hf => hall.desc hf, hall.host⟩
  have hne : fd' ≠ fd := fun heq => h.fresh (heq ▸ k.find_inUse hf)
  rw [dropFd_find_ne _ hne]
  exact hall.find hf

end Gained

/-- A `dup` fails and leaves nothing, or gives a descriptor for the same description. -/
theorem sysDup_cases (fd : Int) : k.sysDup fd = (-1, k.tock 1) ∨
    ∃ id, k.find fd = some id ∧ Gained k (k.sysDup fd).1 id (k.sysDup fd).2 := by
  unfold sysDup
  split
  · exact .inl rfl
  · rename_i id hf
    by_cases hfails : k.answer.fails = true
    · exact .inl (by rw [if_pos hfails])
    · rw [if_neg hfails]
      exact .inr ⟨id, hf, k.freeFd_not_inUse _, k.freeFd_nonneg _, rfl, fun _ _ => rfl, rfl⟩

/-- The files after an `open` of `p` that gave the inode `i`. -/
inductive OpenedFiles (fs : FileStore) (p : Path) (f : Flags) (i : Nat) : FileStore → Prop where
  | existing : fs.names p = some i → (f.creat && f.excl) = false → f.trunc = false →
      OpenedFiles fs p f i fs
  | emptied : fs.names p = some i → (f.creat && f.excl) = false → f.trunc = true →
      OpenedFiles fs p f i (fs.store i [])
  | created : fs.names p = none → f.creat = true → i = fs.next →
      OpenedFiles fs p f i (fs.create p)

/-- Opening an existing file without `O_TRUNC` changes no file. -/
theorem OpenedFiles.same {fs fs' : FileStore} {p : Path} {f : Flags} {i j : Nat}
    (h : OpenedFiles fs p f i fs') (hp : fs.names p = some j) (ht : f.trunc = false) :
    fs' = fs := by
  cases h with
  | existing => rfl
  | emptied _ _ ht' => cases ht.symm.trans ht'
  | created hnone => cases hp.symm.trans hnone

/-- `k'` is `k` after an `open` of `p` that gave the descriptor `fd` on inode `i`. -/
structure Opened (k : Kernel) (p : Path) (f : Flags) (fd : Int) (i : Nat) (k' : Kernel) :
    Prop where
  gained : Gained k fd k.nextDesc k'
  files : OpenedFiles k.files p f i k'.files
  desc : k'.desc k.nextDesc = { inode := i, pos := 0, flags := f }

theorem Opened.name {k k' : Kernel} {p : Path} {f : Flags} {fd : Int} {i : Nat}
    (h : Opened k p f fd i k') : k'.files.names p = some i := by
  have hfiles := h.files
  generalize k'.files = fs' at hfiles ⊢
  cases hfiles with
  | existing hname => exact hname
  | emptied hname => exact hname
  | created _ _ hi =>
      rw [hi]
      exact FileStore.create_names_self ..

private theorem opened_install (k₁ : Kernel) {p : Path} {f : Flags} {i : Nat}
    (hi : i < k₁.files.next) (hfds : k₁.fds = k.fds) (hnext : k₁.nextDesc = k.nextDesc)
    (hdesc : k₁.desc = k.desc) (hhost : k₁.host = k.host)
    (hfiles : OpenedFiles k.files p f i k₁.files) (hint : Nat) :
    Opened k p f (k₁.install hint i f hi).1 i (k₁.install hint i f hi).2 where
  gained := by
    refine ⟨?_, k₁.freeFd_nonneg hint, ?_, fun j hj => ?_, hhost⟩
    · have := k₁.freeFd_not_inUse hint
      rwa [InUse, hfds] at this
    · rw [install_fds, hnext, hfds]
      rfl
    · rw [install_desc_lt (by rw [hnext]; exact hj), hdesc]
  files := hfiles
  desc := by
    rw [← hnext]
    exact install_desc_self

/-- An `open` fails and leaves nothing, or gives a descriptor. -/
theorem sysOpen_cases (p : Path) (f : Flags) : k.sysOpen p f = (-1, k.tock 1) ∨
    ∃ i, Opened k p f (k.sysOpen p f).1 i (k.sysOpen p f).2 := by
  by_cases hfails : k.answer.fails = true
  · exact .inl (by rw [sysOpen, if_pos hfails])
  · rw [sysOpen, if_neg hfails]
    cases hname : k.files.names p with
    | none =>
        rw [k.files.handle_none hname]
        by_cases hcr : f.creat = true
        · simp only [if_pos hcr]
          exact .inr ⟨_, k.opened_install ((k.tock 1).setFiles (k.files.create p)
            (Nat.le_succ _)) _ rfl rfl rfl rfl (.created hname hcr rfl) _⟩
        · simp only [if_neg hcr]
          exact .inl trivial
    | some i =>
        rw [k.files.handle_some hname]
        by_cases hx : (f.creat && f.excl) = true
        · simp only [if_pos hx]
          exact .inl trivial
        · simp only [if_neg hx]
          have hx' : (f.creat && f.excl) = false := by simpa using hx
          by_cases ht : f.trunc = true
          · simp only [if_pos ht]
            exact .inr ⟨_, k.opened_install ((k.tock 1).setData i []) _ rfl rfl rfl rfl
              (.emptied hname hx' ht) _⟩
          · simp only [if_neg ht]
            exact .inr ⟨_, k.opened_install (k.tock 1) _ rfl rfl rfl rfl
              (.existing hname hx' (by simpa using ht)) _⟩

/-- When the real `open` fails: the host refuses, there is nothing to open, or what is there is
    in the way. -/
theorem sysOpen_failed (p : Path) (f : Flags) : (k.sysOpen p f).1 = -1 ↔
    k.answer.fails = true ∨ (k.files.names p = none ∧ f.creat = false) ∨
      (k.files.names p ≠ none ∧ (f.creat && f.excl) = true) := by
  have hfree : ∀ (k' : Kernel) (hint : Nat), k'.freeFd hint ≠ -1 := by
    intro k' hint h
    have := k'.freeFd_nonneg hint
    omega
  by_cases hfails : k.answer.fails = true
  · rw [sysOpen, if_pos hfails]
    exact iff_of_true rfl (.inl hfails)
  · rw [sysOpen, if_neg hfails]
    cases hname : k.files.names p with
    | none =>
        rw [k.files.handle_none hname]
        dsimp only
        by_cases hcr : f.creat = true
        · rw [if_pos hcr]
          refine iff_of_false (hfree _ _) ?_
          rintro (h | ⟨-, h⟩ | ⟨h, -⟩)
          · exact hfails h
          · cases hcr.symm.trans h
          · exact h rfl
        · rw [if_neg hcr]
          exact iff_of_true rfl (.inr (.inl ⟨rfl, by simpa using hcr⟩))
    | some i =>
        rw [k.files.handle_some hname]
        dsimp only
        by_cases hx : (f.creat && f.excl) = true
        · rw [if_pos hx]
          exact iff_of_true rfl (.inr (.inr ⟨Option.some_ne_none i, hx⟩))
        · have hno : ¬ (k.answer.fails = true ∨ (some i = none ∧ f.creat = false) ∨
              (some i ≠ none ∧ (f.creat && f.excl) = true)) := by
            rintro (h | ⟨h, -⟩ | ⟨-, h⟩)
            · exact hfails h
            · cases h
            · exact hx h
          rw [if_neg hx]
          split
          · exact iff_of_false (hfree _ _) hno
          · exact iff_of_false (hfree _ _) hno

/-- An `open` that does not fail gives the number that the host picks. -/
theorem sysOpen_fd {p : Path} {f : Flags} (h : (k.sysOpen p f).1 ≠ -1) :
    (k.sysOpen p f).1 = k.freeFd k.answer.hint := by
  have hcases : ∀ r, r = k.sysOpen p f → r.1 = -1 ∨ r.1 = k.freeFd k.answer.hint := by
    intro r hr
    unfold sysOpen at hr
    split at hr
    · exact .inl (congrArg Prod.fst hr)
    · split at hr
      · split at hr
        · exact .inl (congrArg Prod.fst hr)
        · split at hr
          · exact .inr (congrArg Prod.fst hr)
          · exact .inr (congrArg Prod.fst hr)
      · split at hr
        · exact .inr (congrArg Prod.fst hr)
        · exact .inl (congrArg Prod.fst hr)
  exact (hcases _ rfl).resolve_left h

/-- It is one call, whatever comes of it. -/
theorem sysOpen_tick (p : Path) (f : Flags) : (k.sysOpen p f).2.tick = k.tick + 1 := by
  unfold sysOpen
  split
  · rfl
  · split
    · split
      · rfl
      · split
        · rfl
        · rfl
    · split
      · rfl
      · rfl

theorem sysRead_clock (fd : Int) (n : Nat) :
    (k.sysRead fd n).2.fds = k.fds ∧ (k.sysRead fd n).2.tick = k.tick + 1 := by
  unfold sysRead
  split
  · exact ⟨rfl, rfl⟩
  · dsimp only
    split
    · exact ⟨rfl, rfl⟩
    · split
      · exact ⟨rfl, rfl⟩
      · exact ⟨rfl, rfl⟩

theorem sysClose_tick (fd : Int) : (k.sysClose fd).2.tick = k.tick + 1 := by
  unfold sysClose
  split
  · rfl
  · rfl

/-- A descriptor other than the one that is closed. -/
theorem sysClose_inUse {fd g : Int} (hne : g ≠ fd) :
    (k.sysClose fd).2.InUse g ↔ k.InUse g := by
  unfold sysClose
  split
  · exact .rfl
  · exact ((k.tock 1).dropFd_inUse).trans ⟨fun h => h.1, fun h => ⟨h, hne⟩⟩

/-- Opening without `O_CREAT` and `O_TRUNC` changes no file. -/
theorem unwritten_open (p : Path) {f : Flags} (hcr : f.creat = false) (ht : f.trunc = false) :
    Unwritten k (k.sysOpen p f).2 := by
  rcases k.sysOpen_cases p f with hfail | ⟨i, hopen⟩
  · rw [hfail]
    exact ⟨rfl, rfl⟩
  · refine ⟨?_, hopen.gained.host⟩
    have hfiles := hopen.files
    generalize (k.sysOpen p f).2.files = fs' at hfiles ⊢
    cases hfiles with
    | existing => rfl
    | emptied _ _ ht' => cases ht.symm.trans ht'
    | created _ hcr' => cases hcr.symm.trans hcr'

end Kernel

end Posix
