import TransEncrypt.RelyProofs

/-! # Programs that are cut off between two calls

    A script that is cut off leaves the state in which it has come.  What outlives it is a part
    of that state, and most calls leave this part alone.

    * `Visits`: the states in which a script may be cut off; `visits_change`: a script that
      changes something may be cut off right before it does and right behind it;
    * `Few`: at most so many of the calls that it makes change what outlives it;
    * `Few.atomic`: a script that makes at most one such call is atomic: wherever it is cut
      off, the part is what it was before or what it is after the whole script;
    * `Few.within`, `Few.bind`: the rules for a script whose calls are all harmless, and for a
      sequence. -/

namespace Rely

open Hoare Script

variable {Q : Type} {ans : Q → Type} {σ ε α β γ : Type} (h : Handler Q ans σ ε)

/-- The states that the script comes to, the first and the last one included. -/
inductive Visits : Script Q ans ε α → σ → σ → Prop where
  | here (t : Script Q ans ε α) (s : σ) : Visits t s s
  | later {q : Q} {k : ans q → Script Q ans ε α} {s s' s'' : σ} {b : ans q} :
      h q s = .ok (b, s') → Visits (k b) s' s'' → Visits (.call q k) s s''

/-- Of the calls that the script makes from this state, at most `n` change what `f` shows. -/
def Few (f : σ → γ) : Script Q ans ε α → Nat → σ → Prop
  | .done _, _, _ => True
  | .stop _, _, _ => True
  | .call q k, n, s => ∀ b s', h q s = .ok (b, s') →
      (f s' = f s ∧ Few f (k b) n s') ∨ ∃ m, n = m + 1 ∧ Few f (k b) m s'

variable {h} {f : σ → γ}

/-- A run makes its calls one after the other. -/
theorem run_call_inv {q : Q} {k : ans q → Script Q ans ε α} {s s'' : σ} {a : α}
    (hrun : run h (.call q k) s = .ok (a, s'')) :
    ∃ b s', h q s = .ok (b, s') ∧ run h (k b) s' = .ok (a, s'') := bind_inv hrun

/-- The last state is one of them. -/
theorem visits_run {t : Script Q ans ε α} : ∀ {s s' : σ} {a : α},
    run h t s = .ok (a, s') → Visits h t s s' := by
  induction t with
  | done a =>
      intro s s' b hrun
      obtain ⟨-, rfl⟩ := pure_inv hrun
      exact .here _ _
  | stop e =>
      intro s s' a hrun
      cases hrun
  | call q k ih =>
      intro s s' a hrun
      obtain ⟨b, s₁, hcall, hrest⟩ := run_call_inv hrun
      exact .later hcall (ih b hrest)

/-- A script that changes what outlives it does so by one of its calls; it may be cut off right
    before this call and right behind it. -/
theorem visits_change {t : Script Q ans ε α} : ∀ {s s'' : σ} {a : α},
    run h t s = .ok (a, s'') → f s'' ≠ f s → ∃ (q : Q) (b : ans q) (s₁ s₂ : σ),
      Visits h t s s₁ ∧ h q s₁ = .ok (b, s₂) ∧ Visits h t s s₂ ∧ f s₁ = f s ∧ f s₂ ≠ f s := by
  induction t with
  | done a =>
      intro s s'' b hrun hne
      obtain ⟨-, rfl⟩ := pure_inv hrun
      exact absurd rfl hne
  | stop e =>
      intro s s'' a hrun
      cases hrun
  | call q k ih =>
      intro s s'' a hrun hne
      obtain ⟨b, s', hcall, hrest⟩ := run_call_inv hrun
      by_cases hsame : f s' = f s
      · -- it is a later call
        obtain ⟨q', b', s₁, s₂, hv₁, hcall', hv₂, h₁, h₂⟩ := ih b hrest (by rwa [hsame])
        exact ⟨q', b', s₁, s₂, .later hcall hv₁, hcall', .later hcall hv₂, h₁.trans hsame,
          by rwa [← hsame]⟩
      · exact ⟨q, b, s, s', .here _ _, hcall, .later hcall (.here _ _), rfl, hsame⟩

namespace Few

/-- Nothing is changed at all. -/
theorem unchanged {t : Script Q ans ε α} {s s' : σ} (hv : Visits h t s s') :
    Few h f t 0 s → f s' = f s := by
  induction hv with
  | here t s => exact fun _ => rfl
  | later hcall _ ih =>
      intro hfew
      rcases hfew _ _ hcall with ⟨hsame, hrest⟩ | ⟨m, hm, -⟩
      · exact (ih hrest).trans hsame
      · cases hm

/-- **Atomicity.**  Where at most one call matters, what outlives the script is what was there
    before, or what is there after the whole script. -/
theorem atomic {t : Script Q ans ε α} {s s' : σ} (hv : Visits h t s s') :
    ∀ {a : α} {s'' : σ}, Few h f t 1 s → run h t s = .ok (a, s'') → f s' = f s ∨ f s' = f s'' := by
  induction hv with
  | here t s =>
      intro a s'' _ _
      exact .inl rfl
  | later hcall hv ih =>
      intro a s'' hfew hrun
      obtain ⟨b, s₁, hcall', hrest⟩ := run_call_inv hrun
      obtain ⟨rfl, rfl⟩ := Prod.mk.inj (Except.ok.inj (hcall'.symm.trans hcall))
      rcases hfew _ _ hcall with ⟨hsame, hfew⟩ | ⟨m, hm, hfew⟩
      · rcases ih hfew hrest with heq | heq
        · exact .inl (heq.trans hsame)
        · exact .inr heq
      · -- that was the one: no other follows before the cut, and none behind it
        obtain rfl : m = 0 := (Nat.succ.inj hm).symm
        exact .inr ((unchanged hv hfew).trans (unchanged (visits_run hrest) hfew).symm)

theorem pure (a : α) (n : Nat) (s : σ) : Few h f (pure a : Script Q ans ε α) n s := trivial

/-- Any single call. -/
theorem ask (q : Q) (n : Nat) (s : σ) : Few h f (ask q) (n + 1) s :=
  fun _ _ _ => .inr ⟨n, rfl, trivial⟩

theorem more {t : Script Q ans ε α} {n m : Nat} {s : σ} (hfew : Few h f t n s) (hle : n ≤ m) :
    Few h f t m s := by
  induction t generalizing n m s with
  | done a => trivial
  | stop e => trivial
  | call q k ih =>
      intro b s' hcall
      rcases hfew b s' hcall with ⟨hsame, hrest⟩ | ⟨n', rfl, hrest⟩
      · exact .inl ⟨hsame, ih b hrest hle⟩
      · obtain ⟨m', rfl⟩ : ∃ m', m = m' + 1 := ⟨m - 1, by omega⟩
        exact .inr ⟨m', rfl, ih b hrest (Nat.le_of_succ_le_succ hle)⟩

/-- A sequence. -/
theorem bind {t : Script Q ans ε β} {g : β → Script Q ans ε α} {n m : Nat} {s : σ}
    (ht : Few h f t n s)
    (hg : ∀ b s', run h t s = .ok (b, s') → Few h f (g b) m s') : Few h f (t >>= g) (n + m) s := by
  induction t generalizing n s with
  -- what is left of `n` is not used
  | done b => exact (hg b s rfl).more (Nat.le_add_left m n)
  | stop e => trivial
  | call q k ih =>
      intro b s' hcall
      have hrest : ∀ a s'', run h (k b) s' = .ok (a, s'') → Few h f (g a) m s'' :=
        fun a s'' hrun => hg a s'' ((bind_ok hcall).trans hrun)
      rcases ht b s' hcall with ⟨hsame, hfew⟩ | ⟨n', rfl, hfew⟩
      · exact .inl ⟨hsame, ih b hfew hrest⟩
      · exact .inr ⟨n' + m, Nat.succ_add n' m, ih b hfew hrest⟩

/-- The calls that matter come after the first part. -/
theorem after {t : Script Q ans ε β} {g : β → Script Q ans ε α} {n : Nat} {s : σ}
    (ht : Few h f t 0 s)
    (hg : ∀ b s', run h t s = .ok (b, s') → Few h f (g b) n s') : Few h f (t >>= g) n s := by
  have hfew := ht.bind hg
  rw [Nat.zero_add] at hfew
  exact hfew

/-- The calls that matter are those of the first part. -/
theorem before {t : Script Q ans ε β} {g : β → Script Q ans ε α} {n : Nat} {s : σ}
    (ht : Few h f t n s)
    (hg : ∀ b s', run h t s = .ok (b, s') → Few h f (g b) 0 s') : Few h f (t >>= g) n s :=
  ht.bind (m := 0) hg

theorem ite {c : Prop} [Decidable c] {t u : Script Q ans ε α} {n : Nat} {s : σ}
    (ht : c → Few h f t n s) (hu : ¬ c → Few h f u n s) : Few h f (if c then t else u) n s := by
  by_cases hc : c
  · rw [if_pos hc]
    exact ht hc
  · rw [if_neg hc]
    exact hu hc

end Few

/-! ## Scripts of harmless calls -/

/-- Whatever is answered, the script makes such calls only. -/
def Within (P : Q → Prop) : Script Q ans ε α → Prop
  | .done _ => True
  | .stop _ => True
  | .call q k => P q ∧ ∀ b, Within P (k b)

namespace Within

variable {P : Q → Prop}

theorem pure (a : α) : Within P (pure a : Script Q ans ε α) := trivial

theorem ask {q : Q} (hq : P q) : Within P (ask q : Script Q ans ε (ans q)) := ⟨hq, fun _ => trivial⟩

theorem bind {t : Script Q ans ε β} {g : β → Script Q ans ε α} (ht : Within P t)
    (hg : ∀ b, Within P (g b)) : Within P (t >>= g) := by
  induction t with
  | done b => exact hg b
  | stop e => trivial
  | call q k ih => exact ⟨ht.1, fun b => ih b (ht.2 b)⟩

theorem ite {c : Prop} [Decidable c] {t u : Script Q ans ε α} (ht : Within P t)
    (hu : Within P u) : Within P (if c then t else u) := by
  by_cases hc : c
  · rw [if_pos hc]
    exact ht
  · rw [if_neg hc]
    exact hu

/-- If these calls leave alone what `f` shows, as long as `I` holds of it, so does the script. -/
theorem few {I : γ → Prop}
    (hP : ∀ q, P q → ∀ s b s', I (f s) → h q s = .ok (b, s') → f s' = f s)
    {t : Script Q ans ε α} (ht : Within P t) {s : σ} (hI : I (f s)) : Few h f t 0 s := by
  induction t generalizing s with
  | done a => trivial
  | stop e => trivial
  | call q k ih =>
      intro b s' hcall
      have hsame := hP q ht.1 s b s' hI hcall
      exact .inl ⟨hsame, ih b (ht.2 b) (by rw [hsame]; exact hI)⟩

end Within

end Rely
