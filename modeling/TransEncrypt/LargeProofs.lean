import TransEncrypt.RelabelProofs
import TransEncrypt.ReplacedProofs
import TransEncrypt.TransparentProofs

/-! # Large files in whole runs

    A plain file that one buffer does not hold is converted when it is opened first: four
    workers write a second file, which gets its name.  So the name leads to another inode, of
    which a process takes no notice.

    * `Spans`: a process whose large files wait to be opened; those that do not wait have other
      numbers than in the plain system;
    * `span_seen`, `span_stat`, `span_open`: the calls that have nothing to do with files that
      wait, the size of such a file, and the open that converts it;
    * `large_transparent`: processes that come one after the other, whose files may be of any
      size that the workers convert without harm, work with one plain file system. -/

namespace TeLarge

open Posix Overlay TeHeader Hoare TeProgram TeDetector TeWorker TeRebuild TeOpen TeSize TeAcquire
open TeStored TeWrite TeSession TeTransparent Plain Refinement

variable {dev : Device}

/-! ## Files that wait -/

/-- The four workers convert the plain content of this file without harm. -/
structure Convertible (dev : Device) (path : Path) (C : List UInt8) : Prop where
  range : InRange C.length
  harmless : (Job.mk dev path C 0).Harmless
  normal : typeOf C ≠ FILE_TYPE_RIGHTS

/-- The scope without the files that `D` knows, which are beside it. -/
def without (S : Scope dev) (D : Path → Option (List UInt8)) : Scope dev where
  In path := S.In path ∧ D path = none
  beside path := (D path).or (S.beside path)
  supported h := S.supported h.1
  common h := S.common h.1
  named h := S.named h.1
  fits h := S.fits h.1
  apart h h' := S.apart h.1 h'.1
  other h := by
    rw [h.2, S.other h.1]
    rfl

theorem without_beside {S : Scope dev} {D : Path → Option (List UInt8)} {path : Path}
    {C : List UInt8} (hD : D path = some C) : (without S D).beside path = some C := by
  show (D path).or (S.beside path) = _
  rw [hD]
  rfl

theorem sibling_ne {S : Scope dev} {p q : Path} (hp : S.In p) (hq : S.In q) :
    get_security_path_by_path p ≠ q := by
  rintro rfl
  exact S.apart hp hq

/-- The file `path` is plain and large, and holds `C`. -/
structure Waits (S : Scope dev) (π : Equiv.Perm Nat) (fs : FileStore) (s : PlainSystem)
    (path : Path) (C : List UInt8) : Prop where
  inside : S.In path
  convertible : Convertible dev path C
  sibling : fs.names (get_security_path_by_path path) = none
  found : ∃ i, s.names path = some i ∧ s.bytes i = C ∧ fs.names path = some (π i)

/-- The process `w` stands for the plain system `s`: the files that `D` knows wait, and the
    others, under the numbers that `π` gives them, it stands for without these. -/
structure Spans (S : Scope dev) (D : Path → Option (List UInt8)) (π : Equiv.Perm Nat) (w : World)
    (s : PlainSystem) : Prop where
  shadows : Shadows (without S D) w ((s.relabel π).hide D)
  waits : ∀ {path C}, D path = some C → Waits S π w.kern.files s path C
  apart : ∀ {p q C C' i}, D p = some C → D q = some C' → s.names p = some i →
    s.names q = some i → p = q

namespace Spans

variable {S : Scope dev} {D : Path → Option (List UInt8)} {π : Equiv.Perm Nat} {w : World}
  {s : PlainSystem} (hs : Spans S D π w s)
include hs

/-- The names are those of the files. -/
theorem names {path : Path} {i : Nat} (hname : (s.relabel π).names path = some i) :
    w.kern.files.names path = some i := by
  cases hD : D path with
  | none =>
      rw [← PlainSystem.hide_names hD] at hname
      exact (hs.shadows.files.known hname).2
  | some C =>
      obtain ⟨j, hj, -, hfile⟩ := (hs.waits hD).found
      rw [Option.some.inj (hname.symm.trans (PlainSystem.relabel_names.mpr hj))]
      exact hfile

/-- Nothing that is in sight leads to a file that waits. -/
theorem unused {path : Path} {C : List UInt8} {i : Nat} (hD : D path = some C)
    (hi : s.names path = some i) : ((s.relabel π).hide D).Unused (π i) := by
  obtain ⟨j, hname, -, hunused⟩ := hs.shadows.files.beside (without_beside hD)
  rw [← Option.some.inj (hname.symm.trans (hs.names (PlainSystem.relabel_names.mpr hi)))]
  exact hunused

/-- No descriptor is open on it. -/
theorem closed {path : Path} {C : List UInt8} {i : Nat} (hD : D path = some C)
    (hi : s.names path = some i) {fd : Int} {h : Handle} (hf : s.opened fd = some h) :
    h.inode ≠ i := fun heq =>
  (hs.unused hD hi).2 fd _ (PlainSystem.relabel_opened hf) (congrArg π heq)

/-- The content of a file that waits. -/
theorem data {path : Path} {C : List UInt8} {i : Nat} (hD : D path = some C)
    (hi : s.names path = some i) : s.bytes i = C ∧ w.kern.files.data (π i) = C := by
  obtain ⟨j, hj, hbytes, hfile⟩ := (hs.waits hD).found
  obtain rfl : j = i := Option.some.inj (hj.symm.trans hi)
  obtain ⟨k, hname, hdata, -⟩ := hs.shadows.files.beside (without_beside hD)
  rw [Option.some.inj (hfile.symm.trans hname)]
  exact ⟨hbytes, hdata⟩

/-- Calls that leave everything alone. -/
theorem quiet {k : Kernel} (hq : Kernel.Quiet w.kern k) : Spans S D π { w with kern := k } s := by
  refine ⟨hs.shadows.quiet hq, fun {path C} hD => ?_, hs.apart⟩
  show Waits S π k.files s path C
  rw [hq.files]
  exact hs.waits hD

end Spans

/-! ## Calls that have nothing to do with files that wait -/

section Seen

variable {S : Scope dev} {D : Path → Option (List UInt8)} {π : Equiv.Perm Nat} {w : World}
  {s : PlainSystem} {q : Call}

/-- What is granted of the whole is granted of what is in sight. -/
theorem granted_hidden (hq : Granted S s q) (hseen : q.Seen D) :
    Granted (without S D) ((s.relabel π).hide D) q := by
  cases q with
  | openFile path flags =>
      obtain ⟨hpath, ht, happ, hx, hacc⟩ := hq
      have hD : D path = none := hseen
      have hnames : ((s.relabel π).hide D).names path = none ↔ s.names path = none := by
        rw [PlainSystem.hide_names hD, PlainSystem.relabel_absent]
      exact ⟨⟨hpath, hD⟩, ht, happ, fun hne => hx fun hnone => hne (hnames.mpr hnone),
        fun hnone => hacc (hnames.mp hnone)⟩
  | read fd n =>
      obtain ⟨h, hf, hacc⟩ := hq
      exact ⟨_, PlainSystem.relabel_opened hf, hacc⟩
  | write fd b =>
      obtain ⟨h, hf, hacc, hfits⟩ := hq
      refine ⟨_, PlainSystem.relabel_opened hf, hacc, fun hb => ?_⟩
      show WriteFits dev.aes ((s.relabel π).bytes (π h.inode)) h.pos b
      rw [PlainSystem.relabel_bytes]
      exact hfits hb
  | lseek fd o whence =>
      obtain ⟨h, hf, htarget⟩ := hq
      refine ⟨_, PlainSystem.relabel_opened hf, ?_⟩
      show 0 ≤ TeSeek.target ((s.relabel π).file (h.relabel π)) o whence
      rw [PlainSystem.relabel_file]
      exact htarget
  | stat path => exact ⟨hq, hseen⟩
  | fstat fd =>
      obtain ⟨h, hf, hacc⟩ := hq
      exact ⟨_, PlainSystem.relabel_opened hf, hacc⟩
  | close fd =>
      obtain ⟨h, hf⟩ := hq
      exact ⟨_, PlainSystem.relabel_opened hf⟩

/-- **A call that has nothing to do with files that wait.** -/
theorem span_seen {env : Env} (henv : env.Active) (hs : Spans S D π w s) (hq : Granted S s q)
    (hseen : q.Seen D) : ∃ r w' s', TeTransparent.run dev env q w = .ok (r, w') ∧
      s.Step q r s' ∧ Spans S D π w' s' := by
  obtain ⟨r, w', t, hrun, hstep, hs', hcarries⟩ :=
    call_shadows henv hs.shadows (granted_hidden hq hseen)
  -- a new file is none of the old ones
  have hfresh : ∀ {path i}, ((s.relabel π).hide D).names path = none → t.names path = some i →
      ∀ p, (s.relabel π).names p ≠ some i := by
    intro path i hnone hi p hp
    exact Nat.not_lt.mpr (hcarries.fresh hnone hi) (w.kern.files.names_lt _ _ (hs.names hp))
  obtain ⟨u, hstep₁, rfl⟩ := hstep.unhide hseen hfresh
  obtain ⟨s', hstep₂, rfl⟩ := hstep₁.unlabel
  -- the files that wait keep their names, and no name is added to them
  have hnames : ∀ {path C i}, D path = some C → s'.names path = some i → s.names path = some i := by
    intro path C i hD hi
    obtain ⟨j, hj, -⟩ := (hs.waits hD).found
    rw [Option.some.inj (hi.symm.trans (hstep₂.names_kept hj))]
    exact hj
  refine ⟨r, w', s', hrun, hstep₂, hs', fun {path C} hD => ?_, fun hp hq hi hj =>
    hs.apart hp hq (hnames hp hi) (hnames hq hj)⟩
  have hw := hs.waits hD
  obtain ⟨i, hi, hbytes, hfile⟩ := hw.found
  refine ⟨hw.inside, hw.convertible, hcarries.absent hw.sibling ?_, i, hstep₂.names_kept hi, ?_,
    hcarries.names hfile⟩
  · -- the sibling of a name is out of the scope
    cases hsibling : ((s'.relabel π).hide D).names (get_security_path_by_path path) with
    | none => rfl
    | some j => exact absurd (hs'.files.known hsibling).1.1 (S.apart hw.inside)
  · -- no descriptor is open on a file that waits
    rw [hstep₂.bytes_kept hi fun fd h hf => hs.closed hD hi hf]
    exact hbytes

end Seen

/-! ## The calls on a file that waits -/

section Waiting

variable {S : Scope dev} {D : Path → Option (List UInt8)} {π : Equiv.Perm Nat} {w w' : World}
  {s : PlainSystem} {env : Env} {path : Path} {C : List UInt8} (henv : env.Active)
  (hs : Spans S D π w s) (hD : D path = some C)
include henv hs hD

/-- **The size** is that of the plain file. -/
theorem span_stat : ∃ r w', TeTransparent.run dev env (.stat path) w = .ok (r, w') ∧
    s.Step (.stat path) r s ∧ Spans S D π w' s := by
  obtain ⟨i, hi, hbytes, hfile⟩ := (hs.waits hD).found
  obtain ⟨k, hstat, hquiet⟩ := stat_calm henv hs.shadows.calm hfile hs.shadows.input
  rw [(hs.data hD hi).2, if_neg (hs.waits hD).convertible.normal] at hstat
  refine ⟨.state (some ⟨true, C.length⟩), _, ?_, ?_, hs.quiet hquiet⟩
  · rw [TeTransparent.run, bind_ok hstat]
    rfl
  · have hstep := PlainSystem.Step.stat hi
    rw [hbytes] at hstep
    exact hstep

end Waiting

/-! ## What the new file and the old ones hold -/

section Replaced

variable {fs fs' : FileStore} {path : Path} {j : Nat} {C P : List UInt8} {k : Nat}

theorem Replaced.sealed_new (hr : Replaced fs fs' path j (converted dev C)) :
    Sealed dev fs' j C :=
  ⟨_, newHeader_rightsHeader dev, hr.data⟩

theorem Replaced.sealed (hr : Replaced fs fs' path j P) (hlt : k < fs.next) {Q : List UInt8}
    (h : Sealed dev fs k Q) : Sealed dev fs' k Q := by
  obtain ⟨H, hH, hdata⟩ := h
  exact ⟨H, hH, (hr.others hlt).trans hdata⟩

theorem Replaced.unsealed (hr : Replaced fs fs' path j P) (hlt : k < fs.next) {Q : List UInt8}
    (h : Unsealed fs k Q) : Unsealed fs' k Q :=
  ⟨(hr.others hlt).trans h.data, h.nonempty, h.small, h.normal⟩

end Replaced

/-! ## The open that converts -/

/-- The file `path` waits no longer. -/
def woken (D : Path → Option (List UInt8)) (path : Path) : Path → Option (List UInt8) :=
  Function.update D path none

/-- The file `i` has the number `j`. -/
def renumbered (π : Equiv.Perm Nat) (i j : Nat) : Equiv.Perm Nat :=
  π.trans (Equiv.swap (π i) j)

theorem renumbered_self (π : Equiv.Perm Nat) (i j : Nat) : renumbered π i j i = j :=
  Equiv.swap_apply_left (π i) j

theorem woken_self (D : Path → Option (List UInt8)) (path : Path) : woken D path path = none :=
  Function.update_self ..

theorem woken_ne {D : Path → Option (List UInt8)} {path p : Path} (hp : p ≠ path) :
    woken D path p = D p := Function.update_of_ne hp ..

theorem woken_some {D : Path → Option (List UInt8)} {path p : Path} {C : List UInt8}
    (h : woken D path p = some C) : p ≠ path ∧ D p = some C := by
  have hp : p ≠ path := by
    rintro rfl
    rw [woken_self] at h
    cases h
  rw [woken_ne hp] at h
  exact ⟨hp, h⟩

section Woken

variable {S : Scope dev} {D : Path → Option (List UInt8)} {π : Equiv.Perm Nat} {w : World}
  {s : PlainSystem} {path : Path} {C : List UInt8} {i j : Nat} (hs : Spans S D π w s)
  (hD : D path = some C) (hi : s.names path = some i) (hj : w.kern.files.next ≤ j)
include hs hD hi hj

/-- A number below the next one is neither the old one nor the new one, if it is in sight. -/
theorem renumbered_ne {k : Nat} (hk : ¬ ((s.relabel π).hide D).Unused k)
    (hlt : k < w.kern.files.next) : k ≠ π i ∧ k ≠ j := by
  refine ⟨?_, Nat.ne_of_lt (Nat.lt_of_lt_of_le hlt hj)⟩
  rintro rfl
  exact hk (hs.unused hD hi)

omit hs hD hj in
theorem woken_names_self :
    ((s.relabel (renumbered π i j)).hide (woken D path)).names path = some j := by
  have hname := PlainSystem.relabel_names (π := renumbered π i j).mpr hi
  rw [renumbered_self] at hname
  rw [PlainSystem.hide_names (woken_self D path)]
  exact hname

/-- The other names in sight lead where they led. -/
theorem woken_names {p : Path} (hp : p ≠ path) {k : Nat}
    (hk : ((s.relabel (renumbered π i j)).hide (woken D path)).names p = some k) :
    ((s.relabel π).hide D).names p = some k ∧ k ≠ π i ∧ k ≠ j ∧ k < w.kern.files.next := by
  obtain ⟨hDp, hk⟩ := PlainSystem.hide_seen hk
  rw [woken_ne hp] at hDp
  rw [renumbered, ← PlainSystem.relabel_trans] at hk
  cases hname : (s.relabel π).names p with
  | none =>
      rw [PlainSystem.relabel_absent.mpr hname] at hk
      cases hk
  | some l =>
      have hseen : ((s.relabel π).hide D).names p = some l :=
        (PlainSystem.hide_names hDp).trans hname
      have hlt := w.kern.files.names_lt _ _ (hs.names hname)
      obtain ⟨ha, hb⟩ :=
        renumbered_ne hs hD hi hj (PlainSystem.used_of_name hseen) hlt
      rw [PlainSystem.relabel_swap_names _ hname ha hb] at hk
      obtain rfl := Option.some.inj hk
      exact ⟨hseen, ha, hb, hlt⟩

omit hs hD hi hj in
theorem woken_absent {p : Path} (hDp : D p = none) (hp : p ≠ path)
    (hnone : ((s.relabel (renumbered π i j)).hide (woken D path)).names p = none) :
    ((s.relabel π).hide D).names p = none := by
  rw [PlainSystem.hide_names ((woken_ne hp).trans hDp), PlainSystem.relabel_absent] at hnone
  rw [PlainSystem.hide_names hDp]
  exact PlainSystem.relabel_absent.mpr hnone

/-- The file of a descriptor is one of the old ones. -/
theorem held_ne {fd : Int} {h : Handle} (hf : ((s.relabel π).hide D).opened fd = some h) :
    h.inode ≠ π i ∧ h.inode ≠ j ∧ h.inode < w.kern.files.next := by
  obtain ⟨id, hh⟩ := hs.shadows.held hf
  obtain ⟨fi, -, hname⟩ := hh.entry
  have hlt := w.kern.files.names_lt _ _ hname
  obtain ⟨ha, hb⟩ := renumbered_ne hs hD hi hj (PlainSystem.used_of_opened _ hf) hlt
  exact ⟨ha, hb, hlt⟩

theorem woken_opened : ((s.relabel (renumbered π i j)).hide (woken D path)).opened =
    ((s.relabel π).hide D).opened := by
  show (s.relabel (renumbered π i j)).opened = (s.relabel π).opened
  rw [renumbered, ← PlainSystem.relabel_trans]
  refine PlainSystem.relabel_swap_opened _ fun fd h hf => ?_
  have hf' : ((s.relabel π).hide D).opened fd = some h := hf
  obtain ⟨ha, hb, -⟩ := held_ne hs hD hi hj hf'
  exact ⟨ha, hb⟩

omit hs hD hi hj in
theorem woken_bytes {k : Nat} (ha : k ≠ π i) (hb : k ≠ j) :
    ((s.relabel (renumbered π i j)).hide (woken D path)).bytes k =
      ((s.relabel π).hide D).bytes k := by
  show (s.relabel (renumbered π i j)).bytes k = (s.relabel π).bytes k
  rw [renumbered, ← PlainSystem.relabel_trans]
  exact PlainSystem.relabel_swap_bytes _ ha hb

omit hj in
theorem woken_bytes_self :
    ((s.relabel (renumbered π i j)).hide (woken D path)).bytes j = C := by
  have hbytes := @PlainSystem.relabel_bytes s (renumbered π i j) i
  rw [renumbered_self] at hbytes
  exact hbytes.trans (hs.data hD hi).1

omit hi in
/-- The other files that wait wait still: they keep their numbers. -/
theorem woken_waits {fs' : FileStore} {P : List UInt8} {p : Path} {C' : List UInt8}
    {s' : PlainSystem} (hr : Replaced w.kern.files fs' path j P)
    (hp : woken D path p = some C') (hi : s.names path = some i) (hn : s'.names = s.names)
    (hb : s'.bytes = s.bytes) : Waits S (renumbered π i j) fs' s' p C' := by
  obtain ⟨hne, hDp⟩ := woken_some hp
  have hw := hs.waits hDp
  obtain ⟨k, hk, hbytes, hfile⟩ := hw.found
  have hki : k ≠ i := by
    rintro rfl
    exact hne (hs.apart hDp hD hk hi)
  have hkj : π k ≠ j :=
    Nat.ne_of_lt (Nat.lt_of_lt_of_le (w.kern.files.names_lt _ _ hfile) hj)
  have hnumber : renumbered π i j k = π k :=
    Equiv.swap_apply_of_ne_of_ne (fun heq => hki (π.injective heq)) hkj
  refine ⟨hw.inside, hw.convertible, ?_, k, by rw [hn]; exact hk, by rw [hb]; exact hbytes, ?_⟩
  · rw [hr.names (sibling_ne hw.inside (hs.waits hD).inside)]
    exact hw.sibling
  · rw [hr.names hne, hnumber]
    exact hfile

/-- **The files afterwards** are those of the system in which the file no longer waits. -/
theorem woken_mirrors {fs' : FileStore}
    (hr : Replaced w.kern.files fs' path j (converted dev C)) :
    Mirrors (without S (woken D path)) fs'
      ((s.relabel (renumbered π i j)).hide (woken D path)) := by
  have hm := hs.shadows.files
  have hw := hs.waits hD
  refine { known := fun {p k} hk => ?_, unknown := fun {p} hp hnone => ?_,
           siblings := fun {p} hp => ?_, content := fun {p k} hk => ?_,
           inUse := fun {fd h} hf => ?_, beside := fun {p C'} hb => ?_ }
  -- each name is `path`, which leads to the new file, or leads where it led
  · by_cases hp : p = path
    · subst hp
      rw [woken_names_self hi] at hk
      obtain rfl := Option.some.inj hk
      exact ⟨⟨hw.inside, woken_self D p⟩, hr.name⟩
    · obtain ⟨hk, -⟩ := woken_names hs hD hi hj hp hk
      obtain ⟨hin, hname⟩ := hm.known hk
      exact ⟨⟨hin.1, (woken_ne hp).trans hin.2⟩, (hr.names hp).trans hname⟩
  · -- `path` is there
    have hp' : p ≠ path := by
      rintro rfl
      rw [woken_names_self hi] at hnone
      cases hnone
    have hDp : D p = none := (woken_ne hp').symm.trans hp.2
    rw [hr.names hp']
    exact hm.unknown ⟨hp.1, hDp⟩ (woken_absent hDp hp' hnone)
  · rw [hr.names (sibling_ne hp.1 hw.inside)]
    by_cases hp' : p = path
    · rw [hp']
      exact hw.sibling
    · exact hm.siblings ⟨hp.1, (woken_ne hp').symm.trans hp.2⟩
  · by_cases hp : p = path
    · subst hp
      rw [woken_names_self hi] at hk
      obtain rfl := Option.some.inj hk
      rw [woken_bytes_self hs hD hi]
      exact .inl hr.sealed_new
    · obtain ⟨hk, ha, hb, hlt⟩ := woken_names hs hD hi hj hp hk
      rw [woken_bytes ha hb]
      exact (hm.content hk).imp (hr.sealed hlt) (hr.unsealed hlt)
  · rw [woken_opened hs hD hi hj] at hf
    obtain ⟨ha, hb, hlt⟩ := held_ne hs hD hi hj hf
    rw [woken_bytes ha hb]
    exact hr.sealed hlt (hm.inUse hf)
  · have hp : p ≠ path := by
      rintro rfl
      have hnone : (without S (woken D p)).beside p = none :=
        (without S (woken D p)).other ⟨hw.inside, woken_self D p⟩
      cases hnone.symm.trans hb
    have hold : (without S D).beside p = some C' := by
      rw [← hb]
      show (D p).or _ = (woken D path p).or _
      rw [woken_ne hp]
    obtain ⟨k, hname, hdata, hunused⟩ := hm.beside hold
    -- what is beside the scope has an old number, which the new file has not
    have hlt := w.kern.files.names_lt _ _ hname
    refine ⟨k, (hr.names hp).trans hname, (hr.others hlt).trans hdata, fun q hq => ?_,
      fun fd h hf => ?_⟩
    · by_cases hq' : q = path
      · subst hq'
        rw [woken_names_self hi] at hq
        exact absurd (Option.some.inj hq) (Nat.ne_of_gt (Nat.lt_of_lt_of_le hlt hj))
      · exact hunused.1 q (woken_names hs hD hi hj hq' hq).1
    · rw [woken_opened hs hD hi hj] at hf
      exact hunused.2 fd h hf

end Woken

/-- **The open of a file that waits**, when it returns. -/
theorem span_open {S : Scope dev} {D : Path → Option (List UInt8)} {π : Equiv.Perm Nat}
    {w w' : World} {s : PlainSystem} {env : Env} {path : Path} {C : List UInt8} {flags : Flags}
    {r : Reply} (henv : env.Active) (hs : Spans S D π w s) (hD : D path = some C)
    (hq : Granted S s (.openFile path flags))
    (hrun : TeTransparent.run dev env (.openFile path flags) w = .ok (r, w')) :
    ∃ π' s', s.Step (.openFile path flags) r s' ∧ Spans S (woken D path) π' w' s' := by
  obtain ⟨fd, w₁, h1, h2⟩ := bind_inv hrun
  obtain ⟨rfl, rfl⟩ := pure_inv h2
  obtain ⟨-, ht, happ, hx, -⟩ := hq
  have hw := hs.waits hD
  obtain ⟨i, hi, -, hfile⟩ := hw.found
  have hdata := (hs.data hD hi).2
  have hconv := hw.convertible
  rw [← hdata] at hconv
  have hexcl : (flags.creat && flags.excl) = false := hx (by
    rw [hi]
    exact Option.some_ne_none i)
  obtain ⟨j, hacq, hr⟩ := acquire_large henv hs.shadows.calm hs.shadows.input
    (S.supported hw.inside) (S.named hw.inside) (S.fits hw.inside) hfile hw.sibling
    (fun hH => hconv.normal (typeOf_hasHeader hH)) hconv.range hconv.harmless hexcl ht h1
  rw [hdata] at hr
  have hj := hr.fresh
  -- the descriptor is new for the kernel, so it is for the plain system
  have hfree : s.opened fd = none := by
    cases hf : s.opened fd with
    | none => rfl
    | some h =>
        obtain ⟨id, hh⟩ := hs.shadows.held (PlainSystem.relabel_opened (π := π) hf)
        exact absurd (w.kern.find_inUse hh.find) hacq.fresh
  let t := (s.relabel (renumbered π i j)).hide (woken D path)
  have hname : t.names path = some j := woken_names_self hi
  have hsealed : Sealed dev w'.kern.files j (t.bytes j) := by
    rw [show t.bytes j = C from woken_bytes_self hs hD hi]
    exact hr.sealed_new
  -- the plain system opens the file under its number there, the process under the new one
  have hheld : ((s.hold fd ⟨i, 0, flags.acc⟩).relabel (renumbered π i j)).hide (woken D path) =
      t.hold fd ⟨j, 0, flags.acc⟩ := by
    rw [PlainSystem.relabel_hold, Handle.relabel, renumbered_self]
    rfl
  refine ⟨renumbered π i j, s.hold fd ⟨i, 0, flags.acc⟩, .opened hi hacq.positive hfree, ?_,
    fun {p C'} hp => ?_, fun hp hq hip hiq => hs.apart (woken_some hp).2 (woken_some hq).2 hip hiq⟩
  · rw [hheld]
    refine hs.shadows.acquired hacq happ (woken_opened hs hD hi hj) (fun {p k} hk hn => ?_)
      ((woken_mirrors hs hD hi hj hr).hold hsealed (PlainSystem.used_of_name hname) fd 0 flags.acc)
    -- a name that is in use is not that of the file that waits
    have hp : p ≠ path := by
      rintro rfl
      rw [← Option.some.inj (hfile.symm.trans hn)] at hk
      exact hk (hs.unused hD hi)
    exact (hr.names hp).trans hn
  · exact woken_waits hs hD hj hr hp hi rfl rfl

/-! ## Every run -/

/-- The process stands for the plain system, whatever files wait. -/
def Spanned (S : Scope dev) (w : World) (s : PlainSystem) : Prop := ∃ D π, Spans S D π w s

section Runs

variable {S : Scope dev} {env : Env} {w w' : World} {s : PlainSystem} {q : Call}

/-- An open of a file that one buffer does not hold, which may have to be converted. -/
def OpensLarge (s : PlainSystem) : Call → Prop
  | .openFile path _ => ∃ i, s.names path = some i ∧ 4096 * THREADS_COUNT < (s.bytes i).length
  | _ => False

/-- What a call is about: files that do not wait, or one that does, whose size is asked for, or
    that is opened. -/
theorem seen_or_waits {D : Path → Option (List UInt8)} {π : Equiv.Perm Nat} (hs : Spans S D π w s)
    (q : Call) : q.Seen D ∨ (∃ path C, D path = some C ∧ q = .stat path) ∨
      (OpensLarge s q ∧ ∃ path flags C, D path = some C ∧ q = .openFile path flags) := by
  cases q with
  | openFile path flags =>
      cases hD : D path with
      | none => exact .inl hD
      | some C =>
          obtain ⟨i, hi, hbytes, -⟩ := (hs.waits hD).found
          refine .inr (.inr ⟨⟨i, hi, ?_⟩, path, flags, C, hD, rfl⟩)
          rw [hbytes]
          exact (hs.waits hD).convertible.range.1
  | stat path =>
      cases hD : D path with
      | none => exact .inl hD
      | some C => exact .inr (.inl ⟨path, C, hD, rfl⟩)
  | read fd n => exact .inl trivial
  | write fd b => exact .inl trivial
  | lseek fd o whence => exact .inl trivial
  | fstat fd => exact .inl trivial
  | close fd => exact .inl trivial

/-- **One granted call** that returns. -/
theorem spanned_step (henv : env.Active) (hs : Spanned S w s) (hq : Granted S s q) {r : Reply}
    (hrun : TeTransparent.run dev env q w = .ok (r, w')) :
    ∃ s', s.Step q r s' ∧ Spanned S w' s' := by
  obtain ⟨D, π, hs⟩ := hs
  rcases seen_or_waits hs q with hseen | ⟨path, C, hD, rfl⟩ | ⟨-, path, flags, C, hD, rfl⟩
  · obtain ⟨r', w'', s', hrun', hstep, hs'⟩ := span_seen henv hs hq hseen
    obtain ⟨rfl, rfl⟩ := Prod.mk.inj (Except.ok.inj (hrun'.symm.trans hrun))
    exact ⟨s', hstep, D, π, hs'⟩
  · obtain ⟨r', w'', hrun', hstep, hs'⟩ := span_stat henv hs hD
    obtain ⟨rfl, rfl⟩ := Prod.mk.inj (Except.ok.inj (hrun'.symm.trans hrun))
    exact ⟨s, hstep, D, π, hs'⟩
  · obtain ⟨π', s', hstep, hs'⟩ := span_open henv hs hD hq hrun
    exact ⟨s', hstep, _, π', hs'⟩

/-- It returns, unless it opens a file that one buffer does not hold. -/
theorem spanned_answers (henv : env.Active) (hs : Spanned S w s) (hq : Granted S s q)
    (hsmall : ¬ OpensLarge s q) : ∃ r w', TeTransparent.run dev env q w = .ok (r, w') := by
  obtain ⟨D, π, hs⟩ := hs
  rcases seen_or_waits hs q with hseen | ⟨path, C, hD, rfl⟩ | ⟨hlarge, -⟩
  · obtain ⟨r, w', -, hrun, -⟩ := span_seen henv hs hq hseen
    exact ⟨r, w', hrun⟩
  · obtain ⟨r, w', hrun, -⟩ := span_stat henv hs hD
    exact ⟨r, w', hrun⟩
  · exact absurd hlarge hsmall

theorem spanned_refines (henv : env.Active) : Refines (hooked_process dev env) plain
    (fun s q => Granted S s q ∧ ¬ OpensLarge s q) (Spanned S) where
  step := fun hs hq hcall => spanned_step henv hs hq.1 hcall
  answers := fun hs hq => spanned_answers henv hs hq.1 hq.2

/-- A new process on the files of the last one. -/
theorem spanned_respawned (hs : Spanned S w s) (hre : Respawned w w') :
    ∃ s', Closed s s' ∧ Spanned S w' s' := by
  obtain ⟨D, π, hs⟩ := hs
  obtain ⟨t, rfl, ht⟩ := shadows_respawned hs.shadows.files hre
  refine ⟨{ s with opened := fun _ => none }, rfl, D, π, ht, fun {path C} hD => ?_, hs.apart⟩
  rw [hre.files]
  have hw := hs.waits hD
  exact ⟨hw.inside, hw.convertible, hw.sibling, hw.found⟩

end Runs

/-! ## The files that are found -/

/-- The files `fs` are those of the plain system `s`: each of the scope is sealed, still plain
    and held by one buffer, or plain and large, and then it has no other name and is not open. -/
structure Found (S : Scope dev) (fs : FileStore) (s : PlainSystem) : Prop where
  known : ∀ {path i}, s.names path = some i → S.In path ∧ fs.names path = some i
  unknown : ∀ {path}, S.In path → s.names path = none → fs.names path = none
  siblings : ∀ {path}, S.In path → fs.names (get_security_path_by_path path) = none
  content : ∀ {path i}, s.names path = some i →
    Sealed dev fs i (s.bytes i) ∨ Unsealed fs i (s.bytes i) ∨
      Convertible dev path (s.bytes i) ∧ fs.data i = s.bytes i ∧
        (∀ {p}, s.names p = some i → p = path) ∧ ∀ {fd h}, s.opened fd = some h → h.inode ≠ i
  inUse : ∀ {fd h}, s.opened fd = some h → Sealed dev fs h.inode (s.bytes h.inode)
  beside : ∀ {path C}, S.beside path = some C →
    ∃ i, fs.names path = some i ∧ fs.data i = C ∧ s.Unused i

open Classical in
/-- The large plain files, with what they hold. -/
noncomputable def waiting (dev : Device) (fs : FileStore) (s : PlainSystem) (path : Path) :
    Option (List UInt8) :=
  (s.names path).bind fun i =>
    if Convertible dev path (s.bytes i) ∧ fs.data i = s.bytes i then some (s.bytes i) else none

section Found

variable {S : Scope dev} {fs : FileStore} {s : PlainSystem} (hf : Found S fs s)
include hf

/-- A file that waits is none of the other two kinds. -/
theorem Found.waits {path : Path} {C : List UInt8} (h : waiting dev fs s path = some C) :
    ∃ i, s.names path = some i ∧ s.bytes i = C ∧ Convertible dev path C ∧ fs.data i = C ∧
      (∀ {p}, s.names p = some i → p = path) ∧ ∀ {fd a}, s.opened fd = some a → a.inode ≠ i := by
  obtain ⟨i, hi, h⟩ := Option.bind_eq_some_iff.mp h
  by_cases hlarge : Convertible dev path (s.bytes i) ∧ fs.data i = s.bytes i
  swap
  · rw [if_neg hlarge] at h
    cases h
  rw [if_pos hlarge] at h
  obtain rfl := Option.some.inj h
  obtain ⟨hconv, hdata⟩ := hlarge
  rcases hf.content hi with hseal | hplain | ⟨-, -, halone, hclosed⟩
  · have htype := typeOf_hasHeader hseal.header
    rw [hdata] at htype
    exact absurd htype hconv.normal
  · exact absurd hplain.small (Nat.not_le_of_lt hconv.range.1)
  · exact ⟨i, hi, rfl, hconv, hdata, halone, hclosed⟩

/-- Without them the files are sealed, or plain and held by one buffer. -/
theorem Found.mirrors : Mirrors (without S (waiting dev fs s)) fs (s.hide (waiting dev fs s)) where
  known := by
    intro path i hname
    obtain ⟨hD, hname⟩ := PlainSystem.hide_seen hname
    exact ⟨⟨(hf.known hname).1, hD⟩, (hf.known hname).2⟩
  unknown := by
    intro path hpath hnone
    rw [PlainSystem.hide_names hpath.2] at hnone
    exact hf.unknown hpath.1 hnone
  siblings := fun hpath => hf.siblings hpath.1
  content := by
    intro path i hname
    obtain ⟨hD, hname⟩ := PlainSystem.hide_seen hname
    rcases hf.content hname with hseal | hplain | ⟨hconv, hdata, -⟩
    · exact .inl hseal
    · exact .inr hplain
    · rw [waiting, hname, Option.bind_some, if_pos ⟨hconv, hdata⟩] at hD
      cases hD
  inUse := hf.inUse
  beside := by
    intro path C hb
    have hor : (waiting dev fs s path).or (S.beside path) = some C := hb
    cases hD : waiting dev fs s path with
    | none =>
        rw [hD, Option.none_or] at hor
        obtain ⟨i, hname, hdata, hunused⟩ := hf.beside hor
        exact ⟨i, hname, hdata, fun p hp => hunused.1 p (PlainSystem.hide_seen hp).2, hunused.2⟩
    | some C' =>
        rw [hD, Option.some_or] at hor
        obtain rfl := Option.some.inj hor
        obtain ⟨i, hi, -, -, hdata, halone, hclosed⟩ := hf.waits hD
        refine ⟨i, (hf.known hi).2, hdata, fun p hp => ?_, fun fd a ha => hclosed ha⟩
        -- it has no other name
        obtain ⟨hDp, hp⟩ := PlainSystem.hide_seen hp
        rw [halone hp, hD] at hDp
        cases hDp

/-- A process that has opened nothing stands for the files it finds. -/
theorem Found.spanned {w : World} (hc : w.kern.host.Calm) (h0 : w.kern.InUse 0)
    (hl : w.file_info_list = []) (hfiles : w.kern.files = fs) (hnone : ∀ fd, s.opened fd = none) :
    Spanned S w s := by
  subst hfiles
  refine ⟨waiting dev w.kern.files s, Equiv.refl Nat, ?_, fun {path C} hD => ?_,
    fun {p q C C' i} hp hq hi hj => ?_⟩
  · rw [PlainSystem.relabel_refl]
    exact shadows_start hc h0 hl hf.mirrors hnone
  · obtain ⟨i, hi, hbytes, hconv, -⟩ := hf.waits hD
    obtain ⟨hin, hname⟩ := hf.known hi
    exact ⟨hin, hconv, hf.siblings hin, i, hi, hbytes, hname⟩
  · obtain ⟨k, hk, -, -, -, halone, -⟩ := hf.waits hp
    obtain rfl := Option.some.inj (hk.symm.trans hi)
    exact (halone hj).symm

end Found

/-- Every file of the scope is there under its name, sealed or as it is, and no other one. -/
structure Preserved (S : Scope dev) (fs : FileStore) (s : PlainSystem) : Prop where
  there : ∀ {path i}, s.names path = some i → ∃ j, fs.names path = some j ∧
    (Sealed dev fs j (s.bytes i) ∨ fs.data j = s.bytes i)
  absent : ∀ {path}, S.In path → s.names path = none → fs.names path = none

theorem Spanned.preserved {S : Scope dev} {w : World} {s : PlainSystem} (hs : Spanned S w s) :
    Preserved S w.kern.files s := by
  obtain ⟨D, π, hs⟩ := hs
  refine ⟨fun {path i} hi => ?_, fun {path} hpath hnone => ?_⟩
  · have hname := PlainSystem.relabel_names (π := π).mpr hi
    refine ⟨π i, hs.names hname, ?_⟩
    cases hD : D path with
    | none =>
        rw [← PlainSystem.hide_names hD] at hname
        have hcontent := hs.shadows.files.content hname
        rw [show ((s.relabel π).hide D).bytes (π i) = s.bytes i from PlainSystem.relabel_bytes i]
          at hcontent
        exact hcontent.imp_right fun hplain => hplain.data
    | some C =>
        obtain ⟨hbytes, hdata⟩ := hs.data hD hi
        exact .inr (hdata.trans hbytes.symm)
  · cases hD : D path with
    | none =>
        refine hs.shadows.files.unknown ⟨hpath, hD⟩ ?_
        rw [PlainSystem.hide_names hD]
        exact PlainSystem.relabel_absent.mpr hnone
    | some C =>
        obtain ⟨i, hi, -⟩ := (hs.waits hD).found
        cases hi.symm.trans hnone

/-- **Large files.**  Processes come one after the other, each on the files that the one before
    left; the plain files may be large, if four workers convert them without harm.  Every such
    run of hooked calls that return, and that the plain files grant, has the replies of a run of
    the plain files; every file is there in the end, and the next granted call is answered,
    unless it has a large file to open. -/
theorem large_transparent {S : Scope dev} {env : Env} {w w' : World} {s : PlainSystem}
    {ls : List (List (Call × Reply))} (henv : env.Active) (hc : w.kern.host.Calm)
    (h0 : w.kern.InUse 0) (hl : w.file_info_list = []) (hf : Found S w.kern.files s)
    (hnone : ∀ fd, s.opened fd = none)
    (hrun : (hooked_process dev env).Epochs Respawned w ls w')
    (hgranted : plain.WithinEpochs Closed (Granted S) s ls) :
    ∃ s', plain.Epochs Closed s ls s' ∧ Preserved S w'.kern.files s' ∧
      ∀ q, Granted S s' q → ¬ OpensLarge s' q →
        ∃ r w'', TeTransparent.run dev env q w' = .ok (r, w'') := by
  have hsim : Simulates (hooked_process dev env) plain (Granted S) (Spanned S) :=
    ⟨fun hs hq hcall => spanned_step henv hs hq hcall⟩
  obtain ⟨s', hruns, hs'⟩ := hsim.epochs (fun hs hre => spanned_respawned hs hre) hrun
    (hf.spanned hc h0 hl rfl hnone) hgranted
  exact ⟨s', hruns, hs'.preserved, fun q hq hsmall => spanned_answers henv hs' hq hsmall⟩

/-! ## A large file -/

/-- The file `"f"` holds 16385 zeros. -/
def largeFile : PlainSystem where
  names path := if path = Kernel.aName then some 1 else none
  bytes _ := zeroed 16385
  opened _ := none

/-- A process with descriptor 0 in use finds it. -/
def largeWorld : World where
  kern := Kernel.oneDescriptor (zeroed 16385) { acc := .rdonly } 0
  file_info_list := []

theorem largeFile_names {path : Path} {i : Nat} (h : largeFile.names path = some i) :
    path = Kernel.aName ∧ i = 1 := by
  by_cases hp : path = Kernel.aName
  · have h' : some 1 = some i := (if_pos hp).symm.trans h
    exact ⟨hp, (Option.some.inj h').symm⟩
  · cases (if_neg hp).symm.trans h

theorem largeFile_convertible : Convertible aDevice Kernel.aName (zeroed 16385) where
  range := by
    rw [zeroed_length]
    exact ⟨by decide, by decide⟩
  harmless := by
    left
    rw [show (Job.mk aDevice Kernel.aName (zeroed 16385) 0).size = 16385 from zeroed_length _]
    decide
  normal := typeOf_zeroed 16385

theorem largeFile_found : Found aScope largeWorld.kern.files largeFile where
  known := by
    intro path i h
    obtain ⟨rfl, rfl⟩ := largeFile_names h
    exact ⟨rfl, rfl⟩
  unknown := by
    intro path hp h
    cases (if_pos hp).symm.trans h
  siblings := by
    intro path hp
    obtain rfl : path = Kernel.aName := hp
    rfl
  content := by
    intro path i h
    obtain ⟨rfl, rfl⟩ := largeFile_names h
    exact .inr (.inr ⟨largeFile_convertible, Kernel.oneDescriptor_data _ _ _,
      fun hp => (largeFile_names hp).1, fun hf => by cases hf⟩)
  inUse hf := by cases hf
  beside hb := by cases hb

/-- Through a new descriptor a block is written, and the start is read. -/
def overwritten (fd : Int) : List (Call × Reply) :=
  [(.write fd (List.replicate 16 7), .result 16), (.lseek fd 0 .set, .result 0),
    (.read fd 20, .data 20 (List.replicate 16 7 ++ zeroed 4))]

/-- So it is on the plain file. -/
theorem overwritten_walk {fd : Int} {s : PlainSystem} (hf : s.opened fd = some ⟨1, 0, .rdwr⟩)
    (hb : s.bytes 1 = zeroed 16385) :
    ∃ s', plain.Walk (fun s q => Granted aScope s q ∧ ¬ OpensLarge s q) s (overwritten fd) s' ∧
      (s'.bytes 1).length = 16385 ∧ s'.names = s.names := by
  let h : Handle := ⟨1, 0, .rdwr⟩
  let b : List UInt8 := List.replicate 16 7
  have hlen : b.length = 16 := rfl
  let P : List UInt8 := b ++ zeroed 16369
  have hfits : WriteFits aDevice.aes (s.bytes 1) 0 b := by
    exact writeFits_of_clean ⟨.inl (Nat.zero_le _), .inl rfl, .inl (by decide)⟩
  have hover : overlay 0 (zeroed 16385) 0 b = P := by
    rw [overlay_start, zeroed, List.drop_replicate]
    exact congrArg (fun n => b ++ List.replicate n 0) (show 16385 - b.length = 16369 by omega)
  have hwrite : (s.file h).write b = ⟨P, 16⟩ := by
    rw [PlainSystem.file, hb, PlainFile.write, hover]
    rfl
  let s₁ := (s.store 1 P).hold fd { h with pos := 16 }
  have hstep₁ : s.Step (.write fd b) (.result 16) _ := .write b hf
  rw [hwrite] at hstep₁
  have hf₁ : s₁.opened fd = some { h with pos := 16 } := (s.store 1 P).hold_self fd _
  have hb₁ : s₁.bytes 1 = P := s.store_bytes_self 1 P
  -- back to the start
  have hstep₂ : s₁.Step (.lseek fd 0 .set) (.result 0) (s₁.hold fd h) := .lseek hf₁ (Int.le_refl 0)
  have hf₂ : (s₁.hold fd h).opened fd = some h := s₁.hold_self fd h
  have hread : ((s₁.hold fd h).file h).read 20 = b ++ zeroed 4 := by
    rw [PlainSystem.file, show (s₁.hold fd h).bytes 1 = P from hb₁]
    show (P.drop 0).take (16 + 4) = _
    rw [List.drop_zero, show 16 = b.length from rfl, List.take_length_add_append, zeroed,
      List.take_replicate]
    rfl
  have hstep₃ : (s₁.hold fd h).Step (.read fd 20) _ _ := .read 20 hf₂
  rw [hread, PlainFile.afterRead, hread] at hstep₃
  refine ⟨_, .cons ⟨⟨h, hf, rfl, fun _ => hfits⟩, fun h => h⟩ (plain_single (by simp)) hstep₁
    (.cons ⟨⟨_, hf₁, Int.le_refl 0⟩, fun h => h⟩ (plain_single (by simp)) hstep₂
      (.cons ⟨⟨_, hf₂, rfl⟩, fun h => h⟩ (plain_single (by simp)) hstep₃ (.nil _))), ?_, rfl⟩
  show (s₁.bytes 1).length = _
  rw [hb₁, List.length_append, zeroed_length, hlen]

/-- A process opens the file, which four workers convert, and works with it; the next one asks
    for its size. -/
theorem large_transparent_overwritten : ∃ host fd w s', host.Calm ∧
    (hooked_process aDevice activeEnv).Epochs Respawned (largeWorld.under host)
      [(.openFile Kernel.aName { acc := .rdwr }, .result fd) :: overwritten fd,
        [(.stat Kernel.aName, .state (some ⟨true, 16385⟩))]] w ∧
    plain.Epochs Closed largeFile
      [(.openFile Kernel.aName { acc := .rdwr }, .result fd) :: overwritten fd,
        [(.stat Kernel.aName, .state (some ⟨true, 16385⟩))]] s' ∧
    Preserved aScope w.kern.files s' := by
  have henv : activeEnv.Active := ⟨rfl, rfl, rfl⟩
  have h0 : largeWorld.kern.InUse 0 := by decide
  have hname : largeFile.names Kernel.aName = some 1 := rfl
  have hdata : largeWorld.kern.files.data 1 = zeroed 16385 := Kernel.oneDescriptor_data _ _ _
  have hconv := largeFile_convertible
  rw [← hdata] at hconv
  have hharm : ∀ {C i j}, (Job.mk aDevice Kernel.aName C i).Harmless →
      (Job.mk aDevice Kernel.aName C j).Harmless := fun h => h
  -- the workers take turns in this order
  obtain ⟨host, fd, w₁, hc, hopen⟩ := @open_large_returns aDevice activeEnv largeWorld Kernel.aName
    { acc := .rdwr } 1 henv h0 (aScope.supported rfl) (aScope.named rfl) (aScope.fits rfl) rfl rfl
    (fun hH => hconv.normal (typeOf_hasHeader hH)) hconv.range (hharm hconv.harmless)
    rfl rfl
  let w := largeWorld.under host
  have hfound : Found aScope w.kern.files largeFile := largeFile_found
  have hcw : w.kern.host.Calm := hc
  have h0w : w.kern.InUse 0 := h0
  have hspanned : Spanned aScope w largeFile := hfound.spanned hcw h0w rfl rfl fun _ => rfl
  have hrun : TeTransparent.run aDevice activeEnv (.openFile Kernel.aName { acc := .rdwr }) w =
      .ok (.result fd, w₁) := by
    rw [TeTransparent.run, bind_ok hopen]
    rfl
  have hq : Granted aScope largeFile (.openFile Kernel.aName { acc := .rdwr }) :=
    ⟨rfl, rfl, rfl, fun _ => rfl, fun h => by cases hname.symm.trans h⟩
  obtain ⟨s₁, hstep, hs₁⟩ := spanned_step henv hspanned hq hrun
  have hsame : ∀ {t}, largeFile.Step (.openFile Kernel.aName { acc := .rdwr }) (.result fd) t →
      t = largeFile.hold fd ⟨1, 0, .rdwr⟩ := by
    intro t ht
    obtain ⟨fd', heq, rfl⟩ := open_named hname ht
    obtain rfl : fd = fd' := Reply.result.inj heq
    rfl
  obtain rfl := hsame hstep
  obtain ⟨s₂, hwalk, hsize, hnames⟩ := overwritten_walk (largeFile.hold_self fd ⟨1, 0, .rdwr⟩) rfl
  obtain ⟨w₂, htrace, hs₂⟩ := (spanned_refines henv).follow hwalk hs₁
  -- the next process
  have hnext : 0 < w₂.kern.files.next := by
    obtain ⟨j, hj, -⟩ := hs₂.preserved.there (show s₂.names Kernel.aName = some 1 by
      rw [hnames]
      exact hname)
    exact Nat.lt_of_le_of_lt (Nat.zero_le _) (w₂.kern.files.names_lt _ _ hj)
  have hre := newProcess_respawned w₂ hnext
  obtain ⟨s₃, rfl, hs₃⟩ := spanned_respawned hs₂ hre
  have hname₃ : s₂.names Kernel.aName = some 1 := by
    rw [hnames]
    exact hname
  have hstat : plain.Walk (fun s q => Granted aScope s q ∧ ¬ OpensLarge s q)
      { s₂ with opened := fun _ => none }
      [(.stat Kernel.aName, .state (some ⟨true, 16385⟩))] { s₂ with opened := fun _ => none } := by
    have hstep : PlainSystem.Step { s₂ with opened := fun _ => none } (.stat Kernel.aName) _ _ :=
      .stat hname₃
    rw [show ({ s₂ with opened := fun _ => none } : PlainSystem).bytes 1 = s₂.bytes 1 from rfl,
      hsize] at hstep
    exact .cons ⟨rfl, fun h => h⟩ (plain_single (by simp)) hstep (.nil _)
  obtain ⟨w₃, htrace₃, -⟩ := (spanned_refines henv).follow hstat hs₃
  have hepochs : (hooked_process aDevice activeEnv).Epochs Respawned w
      [(.openFile Kernel.aName { acc := .rdwr }, .result fd) :: overwritten fd,
        [(.stat Kernel.aName, .state (some ⟨true, 16385⟩))]] w₃ :=
    .cons ⟨rfl, rfl, hc, h0⟩ (.cons hrun htrace) (.cons hre htrace₃ (.nil w₃))
  obtain ⟨s', hruns, hfiles, -⟩ := large_transparent henv hcw h0w rfl hfound (fun _ => rfl)
    hepochs (by
    rintro t₁ rfl
    refine ⟨⟨hq, fun t ht => ?_⟩, fun t ht u hu => ?_⟩
    · rw [hsame ht]
      exact (hwalk.imp And.left).within
    · cases ht with
      | cons hfirst hthen =>
          rw [hsame hfirst] at hthen
          obtain rfl := hwalk.unique hthen
          obtain rfl : u = _ := hu
          exact ⟨(hstat.imp And.left).within, fun _ _ => trivial⟩)
  exact ⟨host, fd, w₃, s', hc, hepochs, hruns, hfiles⟩

end TeLarge
