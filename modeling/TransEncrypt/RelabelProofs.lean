import TransEncrypt.PlainSystemProofs
import Mathlib.Logic.Equiv.Basic

/-! # Plain files under other numbers

    The number of an inode is of no account: a process sees names, descriptors and bytes.
    Nothing here is translated from the source.

    * `relabel`: the same system with its inodes renumbered;
    * `Step.relabel`, `Step.unlabel`: it takes the same steps;
    * `hide`: the system without some of its names;
    * `Step.unhide`: a step that has nothing to do with these names is one of the whole
      system. -/

namespace Plain

open Posix Overlay

/-- The call has nothing to do with the names that `D` knows. -/
def Call.Seen (D : Path → Option (List UInt8)) : Call → Prop
  | .openFile path _ => D path = none
  | .stat path => D path = none
  | _ => True

def Handle.relabel (π : Equiv.Perm Nat) (h : Handle) : Handle := { h with inode := π h.inode }

namespace PlainSystem

variable (s : PlainSystem)

/-- The file `i` has the number `π i`. -/
def relabel (π : Equiv.Perm Nat) : PlainSystem where
  names path := (s.names path).map π
  bytes i := s.bytes (π.symm i)
  opened fd := (s.opened fd).map (Handle.relabel π)

/-- The names that `D` knows are taken away. -/
def hide (D : Path → Option (List UInt8)) : PlainSystem :=
  { s with names := fun path => if (D path).isSome then none else s.names path }

/-! ## Numbers -/

section Relabel

variable {s} {π : Equiv.Perm Nat}

theorem relabel_names {path : Path} {i : Nat} :
    (s.relabel π).names path = some (π i) ↔ s.names path = some i := by
  show (s.names path).map π = some (π i) ↔ _
  cases s.names path with
  | none => simp
  | some j => simp

theorem relabel_absent {path : Path} :
    (s.relabel π).names path = none ↔ s.names path = none := by
  show (s.names path).map π = none ↔ _
  rw [Option.map_eq_none_iff]

@[simp] theorem relabel_bytes (i : Nat) : (s.relabel π).bytes (π i) = s.bytes i :=
  congrArg s.bytes (π.symm_apply_apply i)

theorem relabel_opened {fd : Int} {h : Handle} (hf : s.opened fd = some h) :
    (s.relabel π).opened fd = some (h.relabel π) := by
  show (s.opened fd).map _ = _
  rw [hf]
  rfl

theorem relabel_free {fd : Int} (hf : s.opened fd = none) :
    (s.relabel π).opened fd = none := by
  show (s.opened fd).map _ = _
  rw [hf]
  rfl

theorem relabel_file (h : Handle) : (s.relabel π).file (h.relabel π) = s.file h :=
  congrArg (PlainFile.mk · h.pos) (relabel_bytes h.inode)

theorem relabel_hold (fd : Int) (h : Handle) :
    (s.hold fd h).relabel π = (s.relabel π).hold fd (h.relabel π) := by
  apply PlainSystem.ext
  · rfl
  · rfl
  · funext fd'
    show ((s.hold fd h).opened fd').map (Handle.relabel π) = _
    by_cases hne : fd' = fd
    · rw [hne, hold_self, hold_self]
      rfl
    · rw [hold_ne s hne, hold_ne _ hne]
      rfl

theorem relabel_release (fd : Int) : (s.release fd).relabel π = (s.relabel π).release fd := by
  apply PlainSystem.ext
  · rfl
  · rfl
  · funext fd'
    show ((s.release fd).opened fd').map (Handle.relabel π) = _
    by_cases hne : fd' = fd
    · rw [hne, release_self, release_self]
      rfl
    · rw [release_ne s hne, release_ne _ hne]
      rfl

theorem relabel_store (i : Nat) (bs : List UInt8) :
    (s.store i bs).relabel π = (s.relabel π).store (π i) bs := by
  apply PlainSystem.ext
  · rfl
  · funext j
    show (s.store i bs).bytes (π.symm j) = _
    by_cases hne : j = π i
    · rw [hne, π.symm_apply_apply, store_bytes_self, store_bytes_self]
    · have hne' : π.symm j ≠ i := fun heq => hne (π.symm_apply_eq.mp heq)
      rw [store_bytes_ne _ hne, store_bytes_ne s hne']
      rfl
  · rfl

theorem relabel_create (path : Path) (i : Nat) :
    (s.create path i).relabel π = (s.relabel π).create path (π i) := by
  apply PlainSystem.ext
  · funext q
    show ((s.create path i).names q).map π = _
    by_cases hne : q = path
    · rw [hne, create_names_self, create_names_self]
      rfl
    · rw [create_names_ne s hne, create_names_ne _ hne]
      rfl
  · show ((s.store i []).relabel π).bytes = _
    rw [relabel_store]
    rfl
  · rfl

theorem relabel_unused {i : Nat} (hu : s.Unused i) : (s.relabel π).Unused (π i) := by
  refine ⟨fun path hname => hu.1 path (relabel_names.mp hname), fun fd h' hf' heq => ?_⟩
  have hmap : (s.opened fd).map (Handle.relabel π) = some h' := hf'
  obtain ⟨h, hf, rfl⟩ := Option.map_eq_some_iff.mp hmap
  exact hu.2 fd h hf (π.injective heq)

variable (s π)

theorem relabel_refl : s.relabel (Equiv.refl Nat) = s := by
  apply PlainSystem.ext
  · exact funext fun path => Option.map_id_apply ..
  · rfl
  · exact funext fun fd => Option.map_id_apply ..

theorem relabel_trans (ρ : Equiv.Perm Nat) :
    (s.relabel π).relabel ρ = s.relabel (π.trans ρ) := by
  apply PlainSystem.ext
  · exact funext fun path => Option.map_map ..
  · rfl
  · exact funext fun fd => Option.map_map ..

theorem relabel_symm : (s.relabel π.symm).relabel π = s := by
  rw [relabel_trans, Equiv.symm_trans_self, relabel_refl]

/-- Two numbers are exchanged: the other files keep theirs. -/
theorem relabel_swap_names {a b i : Nat} {path : Path} (hname : s.names path = some i)
    (ha : i ≠ a) (hb : i ≠ b) : (s.relabel (Equiv.swap a b)).names path = some i := by
  have hto := relabel_names (π := Equiv.swap a b).mpr hname
  rw [Equiv.swap_apply_of_ne_of_ne ha hb] at hto
  exact hto

theorem relabel_swap_bytes {a b i : Nat} (ha : i ≠ a) (hb : i ≠ b) :
    (s.relabel (Equiv.swap a b)).bytes i = s.bytes i := by
  show s.bytes ((Equiv.swap a b).symm i) = _
  rw [Equiv.symm_swap, Equiv.swap_apply_of_ne_of_ne ha hb]

theorem relabel_swap_opened {a b : Nat}
    (h : ∀ fd c, s.opened fd = some c → c.inode ≠ a ∧ c.inode ≠ b) :
    (s.relabel (Equiv.swap a b)).opened = s.opened := by
  funext fd
  cases hf : s.opened fd with
  | none => exact relabel_free hf
  | some c =>
      obtain ⟨ha, hb⟩ := h fd c hf
      have hto := relabel_opened (π := Equiv.swap a b) hf
      rw [Handle.relabel, Equiv.swap_apply_of_ne_of_ne ha hb] at hto
      exact hto

end Relabel

namespace Step

variable {s} {s' : PlainSystem} {q : Call} {r : Reply}

/-- **The same steps** under other numbers. -/
theorem relabel (h : s.Step q r s') (π : Equiv.Perm Nat) :
    (s.relabel π).Step q r (s'.relabel π) := by
  cases h with
  | opened hname hpos hfree =>
      rw [relabel_hold]
      exact .opened (relabel_names.mpr hname) hpos (relabel_free hfree)
  | created hname hcr hu hpos hfree =>
      rw [relabel_hold, relabel_create]
      exact .created (relabel_absent.mpr hname) hcr (relabel_unused hu) hpos (relabel_free hfree)
  | absent hname hcr => exact .absent (relabel_absent.mpr hname) hcr
  | read n hf =>
      have hstep := Step.read n (relabel_opened (π := π) hf)
      rw [relabel_file] at hstep
      rw [relabel_hold]
      exact hstep
  | write b hf =>
      have hstep := Step.write b (relabel_opened (π := π) hf)
      rw [relabel_file] at hstep
      rw [relabel_hold, relabel_store]
      exact hstep
  | @lseek fd h o whence hf htarget =>
      have hstep := @Step.lseek (s.relabel π) fd (h.relabel π) o whence (relabel_opened hf)
        (by rw [relabel_file]; exact htarget)
      rw [relabel_file] at hstep
      rw [relabel_hold]
      exact hstep
  | @stat path i hname =>
      have hstep := Step.stat (relabel_names (π := π).mpr hname)
      rw [relabel_bytes] at hstep
      exact hstep
  | missing hname => exact .missing (relabel_absent.mpr hname)
  | @fstat fd h hf =>
      have hstep := Step.fstat (relabel_opened (π := π) hf)
      rw [show (h.relabel π).inode = π h.inode from rfl, relabel_bytes] at hstep
      exact hstep
  | close hf =>
      rw [relabel_release]
      exact .close (relabel_opened hf)

theorem unlabel {t : PlainSystem} {π : Equiv.Perm Nat} (h : (s.relabel π).Step q r t) :
    ∃ s', s.Step q r s' ∧ t = s'.relabel π := by
  -- the numbers are changed back
  have hback := h.relabel π.symm
  rw [relabel_trans, Equiv.self_trans_symm, relabel_refl] at hback
  exact ⟨_, hback, (t.relabel_symm π).symm⟩

/-- Names stay. -/
theorem names_kept (h : s.Step q r s') {path : Path} {i : Nat} (hname : s.names path = some i) :
    s'.names path = some i := by
  cases h with
  | @created path' _ _ _ hnone =>
      have hne : path ≠ path' := by
        rintro rfl
        cases hname.symm.trans hnone
      exact (s.create_names_ne hne _).trans hname
  | _ => exact hname

/-- So do the bytes of a file that no descriptor is open on. -/
theorem bytes_kept (h : s.Step q r s') {path : Path} {i : Nat} (hname : s.names path = some i)
    (hclosed : ∀ fd a, s.opened fd = some a → a.inode ≠ i) : s'.bytes i = s.bytes i := by
  cases h with
  | @created path' _ j _ _ _ hu =>
      have hne : i ≠ j := by
        rintro rfl
        exact hu.1 path hname
      exact s.create_bytes_ne hne path'
  -- what is written to is open
  | write b hf => exact s.store_bytes_ne (hclosed _ _ hf).symm _
  | _ => rfl

end Step

/-! ## Names out of sight -/

section Hide

variable {s} {D : Path → Option (List UInt8)}

theorem hide_names {path : Path} (hD : D path = none) : (s.hide D).names path = s.names path := by
  show (if (D path).isSome then none else s.names path) = _
  rw [hD]
  rfl

theorem hide_names_some {path : Path} {C : List UInt8} (hD : D path = some C) :
    (s.hide D).names path = none := by
  show (if (D path).isSome then none else s.names path) = _
  rw [hD]
  rfl

/-- What is in sight. -/
theorem hide_seen {path : Path} {i : Nat} (hname : (s.hide D).names path = some i) :
    D path = none ∧ s.names path = some i := by
  cases hD : D path with
  | none =>
      rw [hide_names hD] at hname
      exact ⟨rfl, hname⟩
  | some C =>
      rw [hide_names_some hD] at hname
      cases hname

theorem hide_create {path : Path} (hD : D path = none) (i : Nat) :
    (s.create path i).hide D = (s.hide D).create path i := by
  apply PlainSystem.ext
  · funext q
    show (if (D q).isSome then none else Function.update s.names path (some i) q) =
      Function.update (s.hide D).names path (some i) q
    by_cases hne : q = path
    · rw [hne, hD, Function.update_self, Function.update_self]
      rfl
    · rw [Function.update_of_ne hne, Function.update_of_ne hne]
      rfl
  · rfl
  · rfl

/-- **A step of what is in sight** is one of the whole system, if the path it is given is in
    sight, and a new file is not one that is out of sight. -/
theorem Step.unhide {t : PlainSystem} {q : Call} {r : Reply} (h : (s.hide D).Step q r t)
    (hseen : q.Seen D)
    (hfresh : ∀ {path i}, (s.hide D).names path = none → t.names path = some i →
      ∀ p, s.names p ≠ some i) : ∃ s', s.Step q r s' ∧ t = s'.hide D := by
  cases h with
  | @opened path flags i fd hname hpos hfree =>
      exact ⟨_, .opened (hide_seen hname).2 hpos hfree, rfl⟩
  | @created path flags i fd hname hcr hu hpos hfree =>
      have hD : D path = none := hseen
      -- not even a name out of sight leads to the new file
      have hnew : ∀ p, s.names p ≠ some i := hfresh hname (create_names_self ..)
      rw [hide_names hD] at hname
      refine ⟨_, .created hname hcr ⟨hnew, hu.2⟩ hpos hfree, ?_⟩
      exact congrArg (PlainSystem.hold · fd ⟨i, 0, flags.acc⟩) (hide_create hD i).symm
  | @absent path flags hname hcr =>
      have hD : D path = none := hseen
      rw [hide_names hD] at hname
      exact ⟨_, .absent hname hcr, rfl⟩
  | read n hf => exact ⟨_, .read n hf, rfl⟩
  | write b hf => exact ⟨_, .write b hf, rfl⟩
  | lseek hf htarget => exact ⟨_, .lseek hf htarget, rfl⟩
  | stat hname => exact ⟨_, .stat (hide_seen hname).2, rfl⟩
  | @missing path hname =>
      have hD : D path = none := hseen
      rw [hide_names hD] at hname
      exact ⟨_, .missing hname, rfl⟩
  | fstat hf => exact ⟨_, .fstat hf, rfl⟩
  | close hf => exact ⟨_, .close hf, rfl⟩

end Hide

end PlainSystem

end Plain
