import Mathlib.Order.Defs.Unbundled
import Mathlib.Tactic.Common

/-! # Programs that may stop — running them and reasoning about their runs

    A program reads and changes a state and either returns a value or stops with
    an error.  `bind_ok` runs a sequence forward, `bind_inv` takes a returned run
    apart.

    `Stays R` is a frame condition: whenever the program returns, `R` holds between the
    state before and the state after.  For a preorder `R` it goes through sequences, so
    what the calls leave alone, the programs made of them leave alone.

    `Agree R x y Q` runs two programs side by side: from states that `R` relates they stop
    for the same reason, or both return and `Q` relates what they return. -/

namespace Hoare

variable {σ ε α β : Type}

/-- Programs over the state `σ` that may stop with an `ε`. -/
abbrev Prog (σ ε α : Type) := StateT σ (Except ε) α

/-- Run a sequence whose first part returns. -/
theorem bind_ok {x : Prog σ ε α} {f : α → Prog σ ε β} {s s' : σ} {a : α}
    (h : x s = .ok (a, s')) : (x >>= f) s = f a s' := by
  show (x s >>= fun p => f p.1 p.2) = f a s'
  rw [h]
  rfl

theorem bind_error {x : Prog σ ε α} {f : α → Prog σ ε β} {s : σ} {e : ε}
    (h : x s = .error e) : (x >>= f) s = .error e := by
  show (x s >>= fun p => f p.1 p.2) = .error e
  rw [h]
  rfl

theorem pure_ok (a : α) (s : σ) : (pure a : Prog σ ε α) s = .ok (a, s) := rfl

/-- A sequence that returned: its first part returned, and so did the rest. -/
theorem bind_inv {x : Prog σ ε α} {f : α → Prog σ ε β} {s s'' : σ} {b : β}
    (h : (x >>= f) s = .ok (b, s'')) :
    ∃ a s', x s = .ok (a, s') ∧ f a s' = .ok (b, s'') := by
  have h' : (x s >>= fun p => f p.1 p.2) = .ok (b, s'') := h
  cases hx : x s with
  | error e =>
      rw [hx] at h'
      cases h'
  | ok p =>
      obtain ⟨a, s'⟩ := p
      rw [hx] at h'
      exact ⟨a, s', rfl, h'⟩

/-- A program that only returns a value. -/
theorem pure_inv {a b : α} {s s' : σ} (h : (pure a : Prog σ ε α) s = .ok (b, s')) :
    b = a ∧ s' = s := by
  obtain ⟨rfl, rfl⟩ := Prod.mk.inj (Except.ok.inj h)
  exact ⟨rfl, rfl⟩

/-- A sequence that stopped: its first part stopped, or returned and the rest stopped. -/
theorem bind_error_inv {x : Prog σ ε α} {f : α → Prog σ ε β} {s : σ} {e : ε}
    (h : (x >>= f) s = .error e) :
    x s = .error e ∨ ∃ a s', x s = .ok (a, s') ∧ f a s' = .error e := by
  cases hx : x s with
  | error e' =>
      rw [bind_error hx] at h
      exact .inl (congrArg Except.error (Except.error.inj h))
  | ok p =>
      obtain ⟨a, s'⟩ := p
      rw [bind_ok hx] at h
      exact .inr ⟨a, s', rfl, h⟩

/-- Every run of `m` returns. -/
def Total (m : Prog σ ε α) : Prop := ∀ s, ∃ a s', m s = .ok (a, s')

namespace Total

theorem pure (a : α) : Total (pure a : Prog σ ε α) := fun s => ⟨a, s, rfl⟩

theorem bind {x : Prog σ ε α} {f : α → Prog σ ε β} (hx : Total x) (hf : ∀ a, Total (f a)) :
    Total (x >>= f) := by
  intro s
  obtain ⟨a, s', h⟩ := hx s
  rw [bind_ok h]
  exact hf a s'

theorem ite {c : Prop} [Decidable c] {m n : Prog σ ε α} (hm : Total m) (hn : Total n) :
    Total (if c then m else n) := by
  by_cases h : c
  · rw [if_pos h]
    exact hm
  · rw [if_neg h]
    exact hn

theorem not_error {m : Prog σ ε α} (hm : Total m) {s : σ} {e : ε} : m s ≠ .error e := by
  intro h
  obtain ⟨a, s', h'⟩ := hm s
  cases h.symm.trans h'

/-- When the first part always returns, the rest has stopped. -/
theorem bind_error {x : Prog σ ε α} {f : α → Prog σ ε β} (hx : Total x) {s : σ} {e : ε}
    (h : (x >>= f) s = .error e) : ∃ a s', x s = .ok (a, s') ∧ f a s' = .error e :=
  (bind_error_inv h).resolve_left hx.not_error

end Total

/-- Every run of `m` that returns relates the state before it to the state after it. -/
def Stays (R : σ → σ → Prop) (m : Prog σ ε α) : Prop :=
  ∀ ⦃s a s'⦄, m s = .ok (a, s') → R s s'

namespace Stays

variable {R : σ → σ → Prop}

theorem ite {c : Prop} [Decidable c] {m n : Prog σ ε α} (hm : Stays R m) (hn : Stays R n) :
    Stays R (if c then m else n) := by
  by_cases h : c
  · rw [if_pos h]
    exact hm
  · rw [if_neg h]
    exact hn

/-- A program that always stops leaves everything alone. -/
theorem stop (e : ε) : Stays R (fun _ => .error e : Prog σ ε α) := fun _ _ _ h => by cases h

variable [IsPreorder σ R]

theorem pure (a : α) : Stays R (pure a : Prog σ ε α) := by
  intro s a' s' h
  obtain ⟨-, rfl⟩ := pure_inv h
  exact refl_of R s'

theorem bind {x : Prog σ ε α} {f : α → Prog σ ε β} (hx : Stays R x)
    (hf : ∀ a, Stays R (f a)) : Stays R (x >>= f) := by
  intro s b s'' h
  obtain ⟨a, s', h1, h2⟩ := bind_inv h
  exact trans_of R (hx h1) (hf a h2)

end Stays

/-! ## Two runs side by side -/

/-- From states related by `R` both programs stop with the same error, or both return,
    with values and states related by `Q`. -/
def Agree (R : σ → σ → Prop) (x : Prog σ ε α) (y : Prog σ ε β) (Q : α → β → σ → σ → Prop) :
    Prop :=
  ∀ ⦃s t⦄, R s t →
    (∃ a b s' t', x s = .ok (a, s') ∧ y t = .ok (b, t') ∧ Q a b s' t') ∨
      ∃ e, x s = .error e ∧ y t = .error e

namespace Agree

variable {R : σ → σ → Prop} {α' β' : Type} {x : Prog σ ε α} {y : Prog σ ε β}
  {Q Q' : α → β → σ → σ → Prop} {S : α' → β' → σ → σ → Prop}

theorem pure {a : α} {b : β} (h : ∀ s t, R s t → Q a b s t) :
    Agree R (pure a : Prog σ ε α) (pure b : Prog σ ε β) Q :=
  fun s t hR => .inl ⟨a, b, s, t, rfl, rfl, h s t hR⟩

theorem stop (e : ε) :
    Agree R (fun _ => .error e : Prog σ ε α) (fun _ => .error e : Prog σ ε β) Q :=
  fun _ _ _ => .inr ⟨e, rfl, rfl⟩

theorem bind {f : α → Prog σ ε α'} {g : β → Prog σ ε β'} (hx : Agree R x y Q)
    (hf : ∀ a b, Agree (Q a b) (f a) (g b) S) : Agree R (x >>= f) (y >>= g) S := by
  intro s t hR
  rcases hx hR with ⟨a, b, s', t', hxs, hyt, hQ⟩ | ⟨e, hxs, hyt⟩
  · rw [bind_ok hxs, bind_ok hyt]
    exact hf a b hQ
  · refine .inr ⟨e, ?_, ?_⟩
    · show (x s >>= fun p => f p.1 p.2) = .error e
      rw [hxs]
      rfl
    · show (y t >>= fun p => g p.1 p.2) = .error e
      rw [hyt]
      rfl

theorem weaken (h : Agree R x y Q) (hQ : ∀ a b s t, Q a b s t → Q' a b s t) :
    Agree R x y Q' := by
  intro s t hR
  rcases h hR with ⟨a, b, s', t', hxs, hyt, hq⟩ | hstop
  · exact .inl ⟨a, b, s', t', hxs, hyt, hQ _ _ _ _ hq⟩
  · exact .inr hstop

/-- The two sides take the same branch. -/
theorem ite {c d : Prop} [Decidable c] [Decidable d] {x' : Prog σ ε α} {y' : Prog σ ε β}
    (hcd : c ↔ d) (hx : Agree R x y Q) (hx' : Agree R x' y' Q) :
    Agree R (if c then x else x') (if d then y else y') Q := by
  by_cases hc : c
  · rw [if_pos hc, if_pos (hcd.mp hc)]
    exact hx
  · rw [if_neg hc, if_neg (fun hd => hc (hcd.mpr hd))]
    exact hx'

/-- What is related only in part decides nothing: a fact about the states, moved into the
    proof. -/
theorem under {P : Prop} (h : P → Agree R x y Q) :
    Agree (fun s t => P ∧ R s t) x y Q := fun _ _ hR => h hR.1 hR.2

end Agree

end Hoare
