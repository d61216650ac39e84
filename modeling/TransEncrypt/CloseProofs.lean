import TransEncrypt.SeekProofs
import TransEncrypt.TwinProofs

/-! # Closing one descriptor and going on with another

    The hooked `close` moves the cursor of a tracked descriptor to 0 before it releases
    it.  The cursor belongs to the description, which a duplicate shares, so a descriptor
    that stays open can be thrown back into the header.

    * `close_run`: what a `close` leaves;
    * `close_frames`: it disturbs no other descriptor exactly when it does not rewind it
      and, if it is number 0 that is released, no probe has to find a header through the
      other one;
    * `closing_a_copy_rewinds`: the run that opens, duplicates and closes the copy. -/

namespace TeClose

open Posix Overlay TeHeader Hoare TeProgram TeDetector TeRead TeWrite TeOpen TeSize TeSeek
open TeTwin

/-! ## What is seen through a descriptor -/

/-- A read or a write on a descriptor. -/
inductive Use where
  | read (n : Nat)
  | write (b : List UInt8)

def Use.run (dev : Device) (env : Env) (fd : Int) : Use → Sys (Int × List UInt8)
  | .read n => TeRead.read dev env fd n
  | .write b => do
      let r ← TeWrite.write dev env fd b
      pure (r, [])

def use_all (dev : Device) (env : Env) (fd : Int) : List Use → Sys (List (Int × List UInt8))
  | [] => pure []
  | u :: us => do
      let r ← u.run dev env fd
      let rs ← use_all dev env fd us
      pure (r :: rs)

/-- What a call shows: its result and the files it leaves, or why it does not return. -/
def seen {α : Type} (r : Except Stop (α × World)) : Except Stop (α × FileStore) :=
  r.map fun p => (p.1, p.2.kern.files)

/-- The same process at the start of a script. -/
def anew (w : World) (host : Host) : World :=
  { w with kern := { w.kern with host := host, tick := 0 } }

/-- Whoever uses `e` cannot tell the process `v` from `u`: the position it reports is the
    same, and every sequence of reads and writes returns the same and leaves the same
    files. -/
structure Indistinct (dev : Device) (env : Env) (e : Int) (u v : World) : Prop where
  position : seen (lseek env e 0 .cur v) = seen (lseek env e 0 .cur u)
  uses : ∀ us, seen (use_all dev env e us v) = seen (use_all dev env e us u)

/-- After `d` has been closed, `e` is as if it were still open: cursor, entry and file
    content are the same, and so is everything that is done with it later.  The later host
    may do what it likes; when it is number 0 that was released, no call fails. -/
structure Undisturbed (dev : Device) (env : Env) (d e : Int) (w w' : World) : Prop where
  offset : ∃ id, w.kern.find e = some id ∧ w'.kern.find e = some id ∧
    w'.kern.desc id = w.kern.desc id
  content : w'.kern.files = w.kern.files
  entry : w'.file_info_list.find? (fun i => i.file_descriptor = e)
    = w.file_info_list.find? (fun i => i.file_descriptor = e)
  later : ∀ host : Host, (d = 0 → host.Calm) →
    Indistinct dev env e (anew w host) (anew w' host)

/-- Closing `d` is about to move a cursor that `e` shares: `d` is tracked and open on the
    description of `e`, whose cursor is not at 0, and the seek does not fail. -/
def Rewinds (w : World) (d e : Int) : Prop :=
  w.Tracked d ∧ w.kern.answer.fails = false ∧ ∃ id, w.kern.find d = some id ∧
    w.kern.find e = some id ∧ (w.kern.desc id).regular = true ∧ (w.kern.desc id).pos ≠ 0

/-- Only a probe finds out that the file of `e` has a header. -/
def Probed (w : World) (e : Int) : Prop :=
  ¬ w.Tracked e ∧ ∃ id, w.kern.find e = some id ∧ (w.kern.desc id).regular = true ∧
    (w.kern.desc id).flags.acc.readable = true ∧
    typeOf (w.kern.files.data (w.kern.desc id).inode) ≠ FILE_TYPE_NORMAL

/-! ## The call -/

/-- The cursor of `d` is moved: it is tracked and the seek succeeds. -/
def Moved (w : World) (d : Int) (id : Nat) : Prop :=
  w.Tracked d ∧ w.kern.answer.fails = false ∧ (w.kern.desc id).regular = true

/-- What a `close` leaves: one cursor, one descriptor and one entry have changed. -/
theorem close_run {env : Env} {w : World} {d : Int} {id : Nat} (henv : env.Active)
    (hfind : w.kern.find d = some id) : ∃ r n p,
    TeOpen.close env d w = .ok (r,
      { kern := ((w.kern.setPos id p).tock n).dropFd d,
        file_info_list := w.file_info_list.eraseP (fun e => e.file_descriptor = d) }) ∧
      (Moved w d id → p = 0) ∧ (¬ Moved w d id → p = (w.kern.desc id).pos) := by
  have hclose : ∀ (p n : Nat) (l : List FileInfo),
      ∃ r, linker_close d ⟨(w.kern.setPos id p).tock n, l⟩ =
        .ok (r, ⟨((w.kern.setPos id p).tock (n + 1)).dropFd d, l⟩) := by
    intro p n l
    have hf : ((w.kern.setPos id p).tock n).find d = some id := hfind
    refine ⟨(((w.kern.setPos id p).tock n).sysClose d).1, linker_close_ok ?_⟩
    simp only [Kernel.sysClose, hf]
    rfl
  rw [TeOpen.close, hooked_active henv, bind_ok (query_ok d w)]
  cases hq : w.file_info_list.find? (fun e => e.file_descriptor = d) with
  | none =>
      -- no entry: only the real call
      have hno : ¬ w.Tracked d := fun h => by
        have := query_isSome_iff.mpr h
        rw [hq] at this
        cases this
      obtain ⟨r, hrun⟩ := hclose (w.kern.desc id).pos 0 w.file_info_list
      refine ⟨r, 1, (w.kern.desc id).pos, ?_, fun h => absurd h.1 hno, fun _ => rfl⟩
      rw [List.eraseP_of_forall_not (fun e he h => hno ⟨e, he, by simpa using h⟩)]
      rw [w.kern.setPos_same] at hrun ⊢
      exact hrun
  | some info =>
      have htr : w.Tracked d := query_isSome_iff.mp (by rw [hq]; rfl)
      have hseek : ∃ r p, linker_lseek d 0 .set w =
          .ok (r, { w with kern := (w.kern.setPos id p).tock 1 }) ∧
          (Moved w d id → p = 0) ∧ (¬ Moved w d id → p = (w.kern.desc id).pos) := by
        by_cases hbad : w.kern.answer.fails = true ∨ (w.kern.desc id).regular = false
        · refine ⟨-1, (w.kern.desc id).pos, ?_, fun h => ?_, fun _ => rfl⟩
          · rw [w.kern.setPos_same]
            apply linker_lseek_ok
            simp only [Kernel.sysLseek, hfind]
            rw [if_pos]
            rcases hbad with h | h
            · rw [h]
              rfl
            · rw [h, Bool.not_false, Bool.or_true]
              rfl
          · rcases hbad with hb | hb
            · cases h.2.1.symm.trans hb
            · cases h.2.2.symm.trans hb
        · have hgood : w.kern.answer.fails = false ∧ (w.kern.desc id).regular = true := by
            simpa using hbad
          refine ⟨0, 0, ?_, fun _ => rfl, fun h => absurd ⟨htr, hgood.1, hgood.2⟩ h⟩
          apply linker_lseek_ok
          simp only [Kernel.sysLseek, hfind, hgood.1, hgood.2]
          rfl
      obtain ⟨r, p, hrun, hmoved⟩ := hseek
      obtain ⟨r', hrun'⟩ := hclose p 1
        (w.file_info_list.eraseP (fun e => e.file_descriptor = d))
      refine ⟨r', 2, p, ?_, hmoved⟩
      show (linker_lseek d 0 .set >>= fun _ => file_info_list_remove_by_fd d >>= fun _ =>
        linker_close d) w = _
      rw [bind_ok hrun, bind_ok (remove_ok d _)]
      exact hrun'

/-- Removing an entry of `d` leaves the answers for other descriptors. -/
theorem find_erase {d e : Int} (hne : d ≠ e) (l : List FileInfo) :
    (l.eraseP (fun i => i.file_descriptor = d)).find? (fun i => i.file_descriptor = e)
      = l.find? (fun i => i.file_descriptor = e) := by
  induction l with
  | nil => rfl
  | cons a l ih =>
      by_cases ha : a.file_descriptor = d
      · have hae : ¬ a.file_descriptor = e := fun h => hne (ha.symm.trans h)
        rw [List.eraseP_cons_of_pos (by simpa using ha),
          List.find?_cons_of_neg (by simpa using hae)]
      · rw [List.eraseP_cons_of_neg (by simpa using ha), List.find?_cons, List.find?_cons, ih]

/-! ## Going on -/

section Later

variable {dev : Device} {env : Env} (henv : env.Active) {e : Int}
include henv

/-- Uses of twins. -/
theorem agree_use_all {z : Prop} {info : Option FileInfo} {T : List (Int × Int)}
    (hm : (e, e) ∈ T) (hpass : Agree (Alike z e info T) (passes_through e) (passes_through e)
      (Same z e info T)) : ∀ us : List Use,
    Agree (Alike z e info T) (use_all dev env e us) (use_all dev env e us) (Same z e info T) := by
  intro us
  induction us with
  | nil => exact agree_pure _
  | cons u us ih =>
      refine agree_bind ?_ fun r => agree_bind ih fun rs => agree_pure _
      cases u with
      | read n => exact agree_read hm henv hpass n
      | write b => exact agree_bind (agree_write hm henv b) fun r => agree_pure _

omit henv in
/-- Runs that agree and end with the same files cannot be told apart. -/
theorem seen_same {α : Type} {R S : World → World → Prop} {x : Sys α} {u v : World}
    (hx : Agree R x x (fun a b u v => b = a ∧ S u v))
    (hfiles : ∀ {u v}, S u v → v.kern.files = u.kern.files) (h : R u v) :
    seen (x v) = seen (x u) := by
  rcases hx h with ⟨a, b, u', v', hu, hv, hab, hS⟩ | ⟨err, hu, hv⟩
  · rw [hu, hv]
    show Except.ok (b, v'.kern.files) = Except.ok (a, u'.kern.files)
    rw [hab, hfiles hS]
  · rw [hu, hv]

theorem twins_indistinct {z : Prop} {info : Option FileInfo} {T : List (Int × Int)}
    {u v : World} (hm : (e, e) ∈ T) (hpass : Agree (Alike z e info T) (passes_through e)
      (passes_through e) (Same z e info T)) (h : Alike z e info T u v) :
    Indistinct dev env e u v where
  position := seen_same (agree_lseek hm henv hpass 0 .cur) (fun h => h.twin.files) h
  uses := fun us => seen_same (agree_use_all henv hm hpass us) (fun h => h.twin.files) h

end Later

/-! ### A descriptor that is passed through on a calm host -/

/-- No failing call and no header to be found. -/
structure Unprobed (w : World) (e : Int) (id : Nat) : Prop where
  calm : w.kern.host.Calm
  find : w.kern.find e = some id
  untracked : ¬ w.Tracked e
  normal : (w.kern.desc id).regular = true → (w.kern.desc id).flags.acc.readable = true →
    typeOf (w.kern.files.data (w.kern.desc id).inode) = FILE_TYPE_NORMAL

/-- The test gives up or finds no header, also when it is handed descriptor 0. -/
theorem unprobed_passes {w : World} {e : Int} {id : Nat} (h : Unprobed w e id) :
    ∃ w', passes_through e w = .ok (true, w') ∧ Unprobed w' e id ∧
      w'.kern.files = w.kern.files ∧ w'.kern.desc = w.kern.desc ∧
      w'.kern.host = w.kern.host := by
  have hprobe : ∃ w', is_encrypted_by_fd e w = .ok (FILE_TYPE_NORMAL, w') := by
    by_cases hbit : (w.kern.desc id).flags.acc.wronlyBit = true
    · exact ⟨w, is_encrypted_by_fd_wronly h.find hbit⟩
    by_cases hpos : 0 < w.kern.freeFd w.kern.answer.hint
    · refine ⟨{ w with kern := w.kern.tock 3 }, ?_⟩
      rw [is_encrypted_by_fd_positive h.find h.calm hbit hpos]
      by_cases hreg : (w.kern.desc id).regular = true
      · have hacc : (w.kern.desc id).flags.acc.readable = true := by
          cases hm : (w.kern.desc id).flags.acc <;> rw [hm] at hbit
          · rfl
          · exact absurd rfl hbit
          · rfl
          · exact absurd rfl hbit
        rw [if_pos hreg, h.normal hreg hacc]
      · rw [if_neg hreg]
    · -- the duplicate is 0
      have hdup := linker_dup_ok (w := w) (Kernel.sysDup_calm h.calm h.find)
      rw [is_encrypted_by_fd, bind_ok (fcntl_getfl_ok (w.kern.sysGetfl_some h.find))]
      simp only [if_neg hbit]
      rw [bind_ok hdup, if_neg hpos]
      exact ⟨_, rfl⟩
  obtain ⟨w', hrun⟩ := hprobe
  have hpass : passes_through e w = .ok (true, w') := passes_through_untracked h.untracked hrun
  obtain ⟨hfiles, hdesc⟩ := resting_passes_through e hpass
  obtain ⟨hkept, hlist⟩ := TeTable.kept_passes_through e hpass
  refine ⟨w', hpass, ⟨?_, hkept.find h.find, ?_, ?_⟩, hfiles, hdesc, hkept.host⟩
  · rw [hkept.host]
    exact h.calm
  · rw [World.Tracked, hlist]
    exact h.untracked
  · rw [hdesc, hfiles]
    exact h.normal

/-- Two such processes.  They may have made a different number of calls, which shows only
    where bytes arrive from somewhere else, and there no probe is made. -/
structure Loose (e : Int) (id : Nat) (u v : World) : Prop where
  left : Unprobed u e id
  right : Unprobed v e id
  files : v.kern.files = u.kern.files
  desc : v.kern.desc id = u.kern.desc id
  host : v.kern.host = u.kern.host
  tick : (u.kern.desc id).regular = false → v.kern.tick = u.kern.tick

namespace Loose

variable {e : Int} {id : Nat} {u v : World} (h : Loose e id u v)
include h

theorem tock (m : Nat) : Loose e id { u with kern := u.kern.tock m }
    { v with kern := v.kern.tock m } where
  left := ⟨h.left.calm, h.left.find, h.left.untracked, h.left.normal⟩
  right := ⟨h.right.calm, h.right.find, h.right.untracked, h.right.normal⟩
  files := h.files
  desc := h.desc
  host := h.host
  tick := fun hreg => congrArg (· + m) (h.tick hreg)

/-- A cursor of a regular file. -/
theorem setPos (hreg : (u.kern.desc id).regular = true) (m p : Nat) :
    Loose e id { u with kern := (u.kern.tock m).setPos id p }
      { v with kern := (v.kern.tock m).setPos id p } := by
  have hu : ((u.kern.tock m).setPos id p).desc id = { u.kern.desc id with pos := p } :=
    Kernel.setPos_desc_self ..
  have hv : ((v.kern.tock m).setPos id p).desc id = { v.kern.desc id with pos := p } :=
    Kernel.setPos_desc_self ..
  refine ⟨⟨h.left.calm, h.left.find, h.left.untracked, ?_⟩,
    ⟨h.right.calm, h.right.find, h.right.untracked, ?_⟩, h.files, ?_, h.host, ?_⟩
  · rw [hu]
    exact h.left.normal
  · rw [hv]
    exact h.right.normal
  · rw [hu, hv, h.desc]
  · rw [hu]
    exact fun hno => by cases hreg.symm.trans hno

end Loose

section Passed

variable {dev : Device} {env : Env} (henv : env.Active) {e : Int} {id : Nat}

/-- The same value, and two such processes again. -/
abbrev SameLoose {α : Type} (e : Int) (id : Nat) : α → α → World → World → Prop :=
  fun a b u v => b = a ∧ Loose e id u v

theorem loose_bind {α β : Type} {x y : Sys α} {f g : α → Sys β} {Q : β → β → World → World → Prop}
    (hx : Agree (Loose e id) x y (SameLoose e id))
    (hf : ∀ a, Agree (Loose e id) (f a) (g a) Q) : Agree (Loose e id) (x >>= f) (y >>= g) Q :=
  hx.bind fun a _ => .under fun hab => hab ▸ hf a

theorem loose_pure {α : Type} (a : α) :
    Agree (Loose e id) (pure a : Sys α) (pure a) (SameLoose e id) := .pure fun _ _ h => ⟨rfl, h⟩

theorem loose_calloc : Agree (Loose e id) calloc calloc (SameLoose e id) := by
  intro u v h
  exact .inl ⟨true, true, _, _, calloc_calm h.left.calm, calloc_calm h.right.calm, rfl, h.tock 1⟩

theorem loose_read_raw (n : Nat) :
    Agree (Loose e id) (linker_read e n) (linker_read e n) (SameLoose e id) := by
  intro u v h
  have hu := h.left.find
  have hv := h.right.find
  by_cases hacc : (u.kern.desc id).flags.acc.readable = true
  · by_cases hreg : (u.kern.desc id).regular = true
    · have hru := linker_read_ok (w := u) (Kernel.sysRead_calm h.left.calm hu hreg hacc n)
      have hrv := linker_read_ok (w := v) (Kernel.sysRead_calm h.right.calm hv
        (by rw [h.desc]; exact hreg) (by rw [h.desc]; exact hacc) n)
      rw [h.desc, h.files] at hrv
      exact .inl ⟨_, _, _, _, hru, hrv, rfl, h.setPos hreg 1 _⟩
    · -- the same call of the script
      have hreg' : (u.kern.desc id).regular = false := by simpa using hreg
      have hans : v.kern.answer = u.kern.answer := by
        rw [Kernel.answer, Kernel.answer, h.host, h.tick hreg']
      refine .inl ⟨_, _, _, _, rfl, rfl, ?_⟩
      simp only [Kernel.sysRead, hu, hv, h.desc, hans, hreg', hacc,
        Kernel.answer_fails h.left.calm, Bool.not_true, Bool.or_self, Bool.false_eq_true, if_false]
      exact ⟨rfl, h.tock 1⟩
  · have hacc' : (u.kern.desc id).flags.acc.readable = false := by simpa using hacc
    refine .inl ⟨_, _, _, _, rfl, rfl, ?_⟩
    simp only [Kernel.sysRead, hu, hv, h.desc, hacc', Bool.not_false, Bool.or_true, if_true]
    exact ⟨rfl, h.tock 1⟩

include henv in
theorem loose_read (n : Nat) : Agree (Loose e id) (TeRead.read dev env e n)
    (TeRead.read dev env e n) (SameLoose e id) := by
  rw [TeRead.read, hooked_active henv]
  refine loose_bind loose_calloc fun b => .ite .rfl ?_ (loose_read_raw n)
  intro u v h
  have hu := linker_fstat_ok (w := u) (Kernel.sysFstat_calm h.left.calm h.left.find)
  have hv := linker_fstat_ok (w := v) (Kernel.sysFstat_calm h.right.calm h.right.find)
  rw [h.desc, h.files] at hv
  rw [bind_ok hu, bind_ok hv]
  have h1 := h.tock 1
  by_cases hreg : (u.kern.desc id).regular = true
  · -- a regular file is probed, and passed through
    simp only [hreg, Bool.true_eq_false, if_false]
    obtain ⟨u', hpu, hlu, hfu, hdu, hhu⟩ := unprobed_passes h1.left
    obtain ⟨v', hpv, hlv, hfv, hdv, hhv⟩ := unprobed_passes h1.right
    rw [bind_ok hpu, bind_ok hpv, if_pos rfl]
    refine loose_read_raw n ⟨hlu, hlv, ?_, ?_, ?_, fun hno => ?_⟩
    · rw [hfu, hfv, h1.files]
    · rw [hdu, hdv, h1.desc]
    · rw [hhu, hhv, h1.host]
    · rw [hdu] at hno
      cases hreg.symm.trans hno
  · have hreg' : (u.kern.desc id).regular = false := by simpa using hreg
    simp only [hreg', if_true]
    exact loose_read_raw n h1

include henv in
/-- A write finds no entry, and reads the path of a null pointer. -/
theorem loose_write (b : List UInt8) : Agree (Loose e id) (TeWrite.write dev env e b)
    (TeWrite.write dev env e b) (SameLoose e id) := by
  intro u v h
  have hrun : ∀ {w : World}, Unprobed w e id →
      (b = [] → TeWrite.write dev env e b w =
        .ok (if (w.kern.desc id).flags.acc.writable then 0 else -1,
          { w with kern := w.kern.tock 1 })) ∧
      (b ≠ [] → TeWrite.write dev env e b w = .error .undefined) := by
    intro w hw
    constructor
    · rintro rfl
      rw [TeWrite.write, hooked_active henv, if_neg (by decide)]
      exact linker_write_ok (Kernel.sysWrite_nil hw.calm hw.find)
    · intro hb
      have hnone : w.file_info_list.find? (fun i => i.file_descriptor = e) = none := by
        rw [← Option.not_isSome_iff_eq_none]
        exact fun hs => hw.untracked (query_isSome_iff.mp hs)
      exact write_untracked henv hnone (hw.calm _).1 hb
  by_cases hb : b = []
  · have hv := (hrun h.right).1 hb
    rw [h.desc] at hv
    exact .inl ⟨_, _, _, _, (hrun h.left).1 hb, hv, rfl, h.tock 1⟩
  · exact .inr ⟨_, (hrun h.left).2 hb, (hrun h.right).2 hb⟩

include henv in
theorem loose_use_all : ∀ us : List Use, Agree (Loose e id) (use_all dev env e us)
    (use_all dev env e us) (SameLoose e id) := by
  intro us
  induction us with
  | nil => exact loose_pure _
  | cons u us ih =>
      refine loose_bind ?_ fun r => loose_bind ih fun rs => loose_pure _
      cases u with
      | read n => exact loose_read henv n
      | write b => exact loose_bind (loose_write henv b) fun r => loose_pure _

include henv in
/-- The position of such a descriptor is its cursor. -/
theorem unprobed_position {w : World} (h : Unprobed w e id) :
    seen (lseek env e 0 .cur w) = .ok (if (w.kern.desc id).regular = true
      then ((w.kern.desc id).pos : Int) else -1, w.kern.files) := by
  obtain ⟨w', hpass, h', hfiles, hdesc, -⟩ := unprobed_passes h
  rw [lseek, seek_by, hooked_active henv, bind_ok hpass, if_pos rfl]
  by_cases hreg : (w.kern.desc id).regular = true
  · have hreg' : (w'.kern.desc id).regular = true := by
      rw [hdesc]
      exact hreg
    rw [linker_lseek_ok (Kernel.sysLseek_here h'.calm h'.find hreg'), if_pos hreg, hdesc]
    exact congrArg (fun fs => Except.ok (((w.kern.desc id).pos : Int), fs)) hfiles
  · have hfail : w'.kern.sysLseek e 0 .cur = (-1, w'.kern.tock 1) := by
      have hreg' : (w'.kern.desc id).regular = false := by
        rw [hdesc]
        simpa using hreg
      simp only [Kernel.sysLseek, h'.find, hreg', Bool.not_false, Bool.or_true, Bool.true_or,
        if_true]
    rw [linker_lseek_ok hfail, if_neg hreg]
    exact congrArg (fun fs => Except.ok ((-1 : Int), fs)) hfiles

include henv in
theorem loose_indistinct {u v : World} (h : Loose e id u v) : Indistinct dev env e u v where
  position := by
    rw [unprobed_position henv h.left, unprobed_position henv h.right, h.desc, h.files]
  uses := fun us => seen_same (loose_use_all henv us) (fun h => h.files) h

end Passed

/-! ## Which closes disturb -/

section Close

variable {dev : Device} {env : Env} {w : World} {d e : Int} {i id p n : Nat}

/-- The state that `close_run` describes. -/
def closed (w : World) (d : Int) (i p n : Nat) : World where
  kern := ((w.kern.setPos i p).tock n).dropFd d
  file_info_list := w.file_info_list.eraseP (fun e => e.file_descriptor = d)

variable (hne : d ≠ e) (hfe : w.kern.find e = some id)
include hne hfe

private theorem closed_find (host : Host) :
    (anew (closed w d i p n) host).kern.find e = some id := by
  show (((w.kern.setPos i p).tock n).dropFd d).find e = some id
  rw [Kernel.dropFd_find_ne _ (Ne.symm hne)]
  exact hfe

variable (hdesc : (w.kern.setPos i p).desc id = w.kern.desc id)
include hdesc

/-- Without a moved cursor the two processes are twins; number 0 is in use in both unless
    it was the one released. -/
theorem closed_alike {z : Prop} (hz : z → d ≠ 0) (host : Host) :
    Alike z e (w.file_info_list.find? (fun i => i.file_descriptor = e)) [(e, e)]
      (anew w host) (anew (closed w d i p n) host) := by
  refine ⟨⟨rfl, rfl, rfl, rfl, ?_, List.pairwise_singleton _ _, fun h0 => ⟨?_, ?_⟩⟩, rfl,
    find_erase hne _⟩
  · intro q hq
    obtain rfl := List.mem_singleton.mp hq
    exact ⟨id, hfe, closed_find hne hfe host, hdesc⟩
  · show (((w.kern.setPos i p).tock n).dropFd d).InUse 0 ↔ w.kern.InUse 0
    rw [Kernel.dropFd_inUse]
    exact and_iff_left (Ne.symm (hz h0))
  · intro q hq
    obtain rfl := List.mem_singleton.mp hq
    exact .rfl

/-- Also when 0 was released, as long as no probe can find a header. -/
theorem closed_undisturbed (henv : env.Active) (hprobe : ¬ (d = 0 ∧ Probed w e)) :
    Undisturbed dev env d e w (closed w d i p n) := by
  refine ⟨⟨id, hfe, closed_find hne hfe w.kern.host, hdesc⟩, rfl, find_erase hne _, ?_⟩
  intro host hcalm
  have hself : (e, e) ∈ [(e, e)] := List.mem_singleton_self _
  by_cases hd0 : d = 0
  · have halike := closed_alike (z := False) (n := n) hne hfe hdesc (fun h => h.elim) host
    cases hq : w.file_info_list.find? (fun i => i.file_descriptor = e) with
    | some fi =>
        rw [hq] at halike
        exact twins_indistinct henv hself (agree_tracked fi) halike
    | none =>
        rw [hq] at halike
        have huntracked : ∀ v : World,
            v.file_info_list.find? (fun i => i.file_descriptor = e) = none → ¬ v.Tracked e := by
          intro v hv ht
          have := query_isSome_iff.mpr ht
          rw [hv] at this
          cases this
        have hnormal : (w.kern.desc id).regular = true →
            (w.kern.desc id).flags.acc.readable = true →
            typeOf (w.kern.files.data (w.kern.desc id).inode) = FILE_TYPE_NORMAL := by
          intro hreg hacc
          by_contra htype
          exact hprobe ⟨hd0, huntracked w hq, id, hfe, hreg, hacc, htype⟩
        have hu : Unprobed (anew w host) e id :=
          ⟨hcalm hd0, hfe, huntracked _ halike.entry, hnormal⟩
        refine loose_indistinct henv ⟨hu, ⟨hcalm hd0, closed_find hne hfe host,
          huntracked _ halike.entry', ?_⟩, rfl, hdesc, rfl, fun _ => rfl⟩
        show ((w.kern.setPos i p).desc id).regular = true →
          ((w.kern.setPos i p).desc id).flags.acc.readable = true →
          typeOf (w.kern.files.data ((w.kern.setPos i p).desc id).inode) = FILE_TYPE_NORMAL
        rw [hdesc]
        exact hnormal
  · exact twins_indistinct henv hself (agree_passes_through hself)
      (closed_alike (z := True) hne hfe hdesc (fun _ => hd0) host)

end Close

/-- **Closing one of two descriptors.**  The call returns, and it leaves the other one
    undisturbed exactly when it does not rewind it and, if it is number 0 that is
    released, the other one does not need a probe to find the header of its file. -/
theorem close_frames {dev : Device} {env : Env} {w : World} {d e : Int} (henv : env.Active)
    (hne : d ≠ e) (hd : w.kern.InUse d) (he : w.kern.InUse e) :
    ∃ r w', TeOpen.close env d w = .ok (r, w') ∧
      (Undisturbed dev env d e w w' ↔ ¬ Rewinds w d e ∧ ¬ (d = 0 ∧ Probed w e)) := by
  obtain ⟨i, hfd⟩ := w.kern.inUse_find hd
  obtain ⟨id, hfe⟩ := w.kern.inUse_find he
  obtain ⟨r, n, p, hrun, hmoved, hstill⟩ := close_run henv hfd
  refine ⟨r, closed w d i p n, hrun, ?_, ?_⟩
  · intro hund
    refine ⟨?_, ?_⟩
    · -- a shared cursor at another place than 0
      rintro ⟨htr, hfails, j, hj, hj', hreg, hpos⟩
      obtain rfl : i = j := Option.some.inj (hfd.symm.trans hj)
      obtain rfl := hmoved ⟨htr, hfails, hreg⟩
      obtain ⟨j, hf, -, hsame⟩ := hund.offset
      obtain rfl : i = j := Option.some.inj (hj'.symm.trans hf)
      rw [show (closed w d i 0 n).kern.desc i = { w.kern.desc i with pos := 0 } from
        Kernel.setPos_desc_self ..] at hsame
      exact hpos (congrArg Desc.pos hsame).symm
    · -- the probe of the other descriptor is handed number 0
      rintro ⟨rfl, hno, j, hj, hreg, hacc, htype⟩
      obtain rfl : id = j := Option.some.inj (hfe.symm.trans hj)
      let u := anew w ⟨fun _ => {}, 0⟩
      let v := anew (closed w 0 i p n) ⟨fun _ => {}, 0⟩
      have hcalm : (⟨fun _ => {}, 0⟩ : Host).Calm := fun _ => ⟨rfl, rfl, rfl⟩
      have hsame := (hund.later ⟨fun _ => {}, 0⟩ (fun _ => hcalm)).position
      obtain ⟨j, hf, hf', hdesc⟩ := hund.offset
      obtain rfl : id = j := Option.some.inj (hfe.symm.trans hf)
      -- before: the header is found
      have hu : passes_through e u = .ok (false, { u with kern := u.kern.tock 3 }) := by
        have hbyfd := is_encrypted_by_fd_calm (w := u) hfe hcalm hreg hacc hd
        have hno' : (typeOf (u.kern.files.data (u.kern.desc id).inode) == FILE_TYPE_NORMAL)
            = false := beq_false_of_ne htype
        rw [passes_through_untracked (w := u) hno hbyfd, hno']
      -- after: number 0 is free, and taken for a failure
      have hno' : ¬ v.Tracked e := by
        intro ht
        have := query_isSome_iff.mpr ht
        rw [show v.file_info_list.find? _ = _ from hund.entry] at this
        exact hno (query_isSome_iff.mp this)
      obtain ⟨v', hfree⟩ := is_encrypted_by_fd_free (w := v) hf' hcalm (fun _ => rfl) (by
        show ¬ (((w.kern.setPos i p).tock n).dropFd 0).InUse 0
        rw [Kernel.dropFd_inUse]
        exact fun h => h.2 rfl)
      have hv : passes_through e v = .ok (true, v') := passes_through_untracked hno' hfree
      obtain ⟨-, hdescv⟩ := resting_passes_through e hv
      obtain ⟨hkeptv, -⟩ := TeTable.kept_passes_through e hv
      have hposv : (v'.kern.desc id).pos = (w.kern.desc id).pos := by
        rw [hdescv]
        exact congrArg Desc.pos hdesc
      rw [lseek, seek_by, hooked_active henv, bind_ok hu, bind_ok hv, if_pos rfl,
        if_neg (by decide), if_neg (by decide),
        linker_lseek_ok (Kernel.sysLseek_here (by rw [hkeptv.host]; exact hcalm)
          (hkeptv.find hf') (by rw [hdescv]; exact (congrArg Desc.regular hdesc).trans hreg)),
        bind_ok (linker_lseek_ok (w := { u with kern := u.kern.tock 3 })
          (Kernel.sysLseek_here (k := u.kern.tock 3) hcalm hfe hreg))] at hsame
      have hval : ((v'.kern.desc id).pos : Int) =
          ((w.kern.desc id).pos : Int) - ((4096 : Nat) : Int) :=
        (Prod.mk.inj (Except.ok.inj hsame)).1
      omega
  · rintro ⟨hrew, hprobe⟩
    refine closed_undisturbed hne hfe ?_ henv hprobe
    by_cases hid : id = i
    · subst hid
      have hpos : p = (w.kern.desc id).pos := by
        by_cases hm : Moved w d id
        · rw [hmoved hm]
          by_contra hpos
          exact hrew ⟨hm.1, hm.2.1, id, hfd, hfe, hm.2.2, fun h => hpos h.symm⟩
        · exact hstill hm
      rw [hpos, w.kern.setPos_same]
    · exact Kernel.setPos_desc_ne _ hid p

/-- Closing the file leaves the terminal alone. -/
theorem close_frames_terminal : ∃ r w',
    TeOpen.close activeEnv 3 (openForWriting (newHeader none) 4098) = .ok (r, w') ∧
      Undisturbed aDevice activeEnv 3 0 (openForWriting (newHeader none) 4098) w' := by
  obtain ⟨r, w', hrun, hiff⟩ := @close_frames aDevice activeEnv
    (openForWriting (newHeader none) 4098) 3 0 ⟨rfl, rfl, rfl⟩ (by decide) (by decide) (by decide)
  refine ⟨r, w', hrun, hiff.mpr ⟨?_, fun h => absurd h.1 (by decide)⟩⟩
  rintro ⟨-, -, id, hd, he, -, -⟩
  have hd' : some 1 = some id := hd
  have he' : some 0 = some id := he
  exact absurd (hd'.trans he'.symm) (by decide)

/-- A file is opened for reading, the descriptor is duplicated and the copy closed: the
    first descriptor stands at the start of the header. -/
theorem closing_a_copy_rewinds : ∃ fd nfd w₁ w₂ r w₃,
    open_file aDevice activeEnv Kernel.aName { acc := .rdonly } encryptedFile = .ok (fd, w₁) ∧
    TeOpen.dup activeEnv fd w₁ = .ok (nfd, w₂) ∧
    TeOpen.close activeEnv nfd w₂ = .ok (r, w₃) ∧ nfd ≠ fd ∧
    ¬ Undisturbed aDevice activeEnv nfd fd w₂ w₃ := by
  have henv : activeEnv.Active := ⟨rfl, rfl, rfl⟩
  obtain ⟨fd, id, w₁, hopen, -, hnew, hc, -, hlist⟩ :=
    @encryptedFile_open { acc := .rdonly } rfl rfl
  have h0 : w₁.kern.InUse 0 := (open_inv hopen).kept.inUse (by decide)
  let nfd := w₁.kern.freeFd w₁.kern.answer.hint
  let k₂ := (w₁.kern.tock 1).bindFd w₁.kern.answer.hint id (w₁.kern.find_lt hnew.find)
  let info : FileInfo := ⟨fd, Kernel.aName, some 1⟩
  let w₂ : World := ⟨k₂.tock 1, w₁.file_info_list ++ [⟨nfd, Kernel.aName, some 1⟩]⟩
  have hquery : w₁.file_info_list.find? (fun e => e.file_descriptor = fd) = some info := by
    rw [hlist]
    exact List.find?_cons_of_pos (by simp)
  have hdup : TeOpen.dup activeEnv fd w₁ = .ok (nfd, w₂) :=
    dup_calm henv hc hnew.find hquery h0
  have hfd : k₂.find fd = some id := Kernel.bindFd_find_some (k := w₁.kern.tock 1) hnew.find
  have hnfd : k₂.find nfd = some id := Kernel.bindFd_find_self (k := w₁.kern.tock 1)
  have hne : nfd ≠ fd := fun heq =>
    w₁.kern.freeFd_not_inUse w₁.kern.answer.hint (by
      rw [show w₁.kern.freeFd _ = fd from heq]
      exact w₁.kern.find_inUse hnew.find)
  have hdesc : k₂.desc id = { inode := 1, pos := 4096, flags := { acc := .rdonly } } :=
    hnew.desc
  obtain ⟨r, n, p, hclose, hmoved, -⟩ := close_run (w := w₂) henv hnfd
  obtain rfl := hmoved ⟨⟨⟨nfd, Kernel.aName, some 1⟩,
    List.mem_append_right _ (List.mem_singleton_self _), rfl⟩, (hc _).1, by
      show (k₂.desc id).regular = true
      rw [hdesc]⟩
  refine ⟨fd, nfd, w₁, w₂, r, _, hopen, hdup, hclose, hne, fun hund => ?_⟩
  obtain ⟨j, hf, -, hsame⟩ := hund.offset
  obtain rfl : id = j := Option.some.inj (hfd.symm.trans hf)
  rw [show (((w₂.kern.setPos id 0).tock n).dropFd nfd).desc id = { k₂.desc id with pos := 0 } from
    Kernel.setPos_desc_self .., show w₂.kern.desc id = k₂.desc id from rfl, hdesc] at hsame
  exact absurd (congrArg Desc.pos hsame) (by decide)

end TeClose
