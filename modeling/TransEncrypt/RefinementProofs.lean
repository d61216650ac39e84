import Mathlib.Tactic.Common

/-! # Refinement — machines that answer requests, and their traces

    A machine receives requests and answers them; the answer and the next state may be
    one of several.  What can be observed of a run is its trace, the requests with their
    answers.

    * `Simulates`: every step of the concrete machine, on a request that may be made, is a
      step of the abstract one;
    * `Simulates.trace`: so every trace whose requests may be made is a trace of the
      abstract machine, and the states stay related;
    * `Simulates.epochs`: traces may be interrupted by resets that the two machines share;
    * `Refines`, `Refines.live`: after such a trace every request that may be made is answered;
    * `Refines.follow`: a trace of requests with one answer each is one of the concrete machine;
    * `Machine.comap`: a machine that is asked more than it looks at. -/

namespace Refinement

variable {S T Q A : Type}

/-- `step s q a s'`: in the state `s` the request `q` may be answered by `a`, and the
    machine is in `s'` then. -/
structure Machine (S Q A : Type) where
  step : S → Q → A → S → Prop

namespace Machine

variable (m : Machine S Q A)

/-- The requests and answers of a run, in their order. -/
inductive Trace : S → List (Q × A) → S → Prop where
  | nil (s : S) : Trace s [] s
  | cons {s s' s'' : S} {q : Q} {a : A} {l : List (Q × A)} :
      m.step s q a s' → Trace s' l s'' → Trace s ((q, a) :: l) s''

/-- Every request of the trace may be made, in whatever state the answers before it have
    left the machine. -/
def Within (may : S → Q → Prop) : S → List (Q × A) → Prop
  | _, [] => True
  | s, (q, a) :: l => may s q ∧ ∀ s', m.step s q a s' → Within may s' l

/-- Traces one after the other, a reset before each. -/
inductive Epochs (reset : S → S → Prop) : S → List (List (Q × A)) → S → Prop where
  | nil (s : S) : Epochs reset s [] s
  | cons {s s₁ s₂ s' : S} {l : List (Q × A)} {ls : List (List (Q × A))} : reset s s₁ →
      m.Trace s₁ l s₂ → Epochs reset s₂ ls s' → Epochs reset s (l :: ls) s'

/-- The machine that is asked for `f q` when `q` is asked. -/
def comap {Q' : Type} (f : Q' → Q) : Machine S Q' A := ⟨fun s q a s' => m.step s (f q) a s'⟩

/-- Its traces are traces of the machine. -/
theorem Trace.of_comap {m : Machine S Q A} {Q' : Type} {f : Q' → Q} {s s' : S}
    {l : List (Q' × A)} (h : (m.comap f).Trace s l s') :
    m.Trace s (l.map fun x => (f x.1, x.2)) s' := by
  induction h with
  | nil s => exact .nil s
  | cons hstep _ ih => exact .cons hstep ih

/-- The request has at most one answer, which leads to one state. -/
def Single (q : Q) : Prop :=
  ∀ {s a a' s₁ s₂}, m.step s q a s₁ → m.step s q a' s₂ → a = a' ∧ s₁ = s₂

/-- A trace of requests that may be made and have one answer each. -/
inductive Walk (may : S → Q → Prop) : S → List (Q × A) → S → Prop where
  | nil (s : S) : Walk may s [] s
  | cons {s s' s'' : S} {q : Q} {a : A} {l : List (Q × A)} : may s q → m.Single q →
      m.step s q a s' → Walk may s' l s'' → Walk may s ((q, a) :: l) s''

theorem Walk.within {m : Machine S Q A} {may : S → Q → Prop} {s s' : S} {l : List (Q × A)}
    (h : m.Walk may s l s') : m.Within may s l := by
  induction h with
  | nil s => trivial
  | cons hmay hsingle hstep _ ih =>
      refine ⟨hmay, fun s₁ h₁ => ?_⟩
      obtain ⟨-, rfl⟩ := hsingle hstep h₁
      exact ih

theorem Walk.imp {m : Machine S Q A} {may may' : S → Q → Prop} (hmay : ∀ {s q}, may s q → may' s q)
    {s s' : S} {l : List (Q × A)} (h : m.Walk may s l s') : m.Walk may' s l s' := by
  induction h with
  | nil s => exact .nil s
  | cons hq hsingle hstep _ ih => exact .cons (hmay hq) hsingle hstep ih

/-- What may be asked for behind it. -/
theorem Walk.within_append {m : Machine S Q A} {may : S → Q → Prop} {s s' : S} {l l' : List (Q × A)}
    (h : m.Walk may s l s') (hl : m.Within may s' l') : m.Within may s (l ++ l') := by
  induction h with
  | nil s => exact hl
  | cons hmay hsingle hstep _ ih =>
      refine ⟨hmay, fun s₁ h₁ => ?_⟩
      obtain ⟨-, rfl⟩ := hsingle hstep h₁
      exact ih hl

theorem Trace.append {m : Machine S Q A} {s s' s'' : S} {l l' : List (Q × A)}
    (h : m.Trace s l s') (h' : m.Trace s' l' s'') : m.Trace s (l ++ l') s'' := by
  induction h with
  | nil s => exact h'
  | cons hstep _ ih => exact .cons hstep (ih h')

/-- It is the only one with these answers. -/
theorem Walk.unique {m : Machine S Q A} {may : S → Q → Prop} {s s' t : S} {l : List (Q × A)}
    (h : m.Walk may s l s') (ht : m.Trace s l t) : t = s' := by
  induction h with
  | nil s =>
      cases ht
      rfl
  | cons _ hsingle hstep _ ih =>
      cases ht with
      | cons hstep' hrest =>
          obtain ⟨-, rfl⟩ := hsingle hstep hstep'
          exact ih hrest

/-- The requests are asked for by the machine that is asked more. -/
theorem Walk.tagged {m : Machine S Q A} {Q' : Type} {f : Q' → Q} {g : Q → Q'}
    (hg : ∀ q, f (g q) = q) {may : S → Q → Prop} {may' : S → Q' → Prop}
    (hmay : ∀ {s q}, may s q → may' s (g q)) {s s' : S} {l : List (Q × A)} (h : m.Walk may s l s') :
    (m.comap f).Walk may' s (l.map fun x => (g x.1, x.2)) s' := by
  induction h with
  | nil s => exact .nil s
  | cons hq hsingle hstep _ ih =>
      refine .cons (hmay hq) ?_ ?_ ih
      · intro s a a' s₁ s₂ h₁ h₂
        simp only [comap, hg] at h₁ h₂
        exact hsingle h₁ h₂
      · simp only [comap, hg]
        exact hstep

/-- Every request of every epoch may be made. -/
def WithinEpochs (reset : S → S → Prop) (may : S → Q → Prop) :
    S → List (List (Q × A)) → Prop
  | _, [] => True
  | s, l :: ls => ∀ s₁, reset s s₁ → m.Within may s₁ l ∧
      ∀ s₂, m.Trace s₁ l s₂ → WithinEpochs reset may s₂ ls

end Machine

/-- What the concrete machine `c` does is what the abstract one may do, on the requests that
    `may` be made. -/
structure Simulates (c : Machine S Q A) (a : Machine T Q A) (may : T → Q → Prop)
    (rel : S → T → Prop) : Prop where
  step : ∀ {s t q r s'}, rel s t → may t q → c.step s q r s' →
    ∃ t', a.step t q r t' ∧ rel s' t'

/-- It refines the abstract one if it also answers these requests. -/
structure Refines (c : Machine S Q A) (a : Machine T Q A) (may : T → Q → Prop)
    (rel : S → T → Prop) : Prop extends Simulates c a may rel where
  answers : ∀ {s t q}, rel s t → may t q → ∃ r s', c.step s q r s'

variable {c : Machine S Q A} {a : Machine T Q A} {may : T → Q → Prop} {rel : S → T → Prop}

namespace Simulates

variable (h : Simulates c a may rel)
include h

/-- **Traces.**  A trace of the concrete machine is one of the abstract machine. -/
theorem trace {s s' : S} {l : List (Q × A)} (hrun : c.Trace s l s') :
    ∀ {t}, rel s t → a.Within may t l → ∃ t', a.Trace t l t' ∧ rel s' t' := by
  induction hrun with
  | nil s =>
      intro t hrel _
      exact ⟨t, .nil t, hrel⟩
  | cons hstep _ ih =>
      intro t hrel hmay
      obtain ⟨t₁, hstep₁, hrel₁⟩ := h.step hrel hmay.1 hstep
      obtain ⟨t', hrest, hrel'⟩ := ih hrel₁ (hmay.2 t₁ hstep₁)
      exact ⟨t', .cons hstep₁ hrest, hrel'⟩

/-- **Epochs.**  If a reset of the concrete machine is one of the abstract machine, the
    epochs of the concrete machine are epochs of the abstract one. -/
theorem epochs {creset : S → S → Prop} {areset : T → T → Prop}
    (hreset : ∀ {s s' t}, rel s t → creset s s' → ∃ t', areset t t' ∧ rel s' t')
    {s s' : S} {ls : List (List (Q × A))} (hrun : c.Epochs creset s ls s') :
    ∀ {t}, rel s t → a.WithinEpochs areset may t ls →
      ∃ t', a.Epochs areset t ls t' ∧ rel s' t' := by
  induction hrun with
  | nil s =>
      intro t hrel _
      exact ⟨t, .nil t, hrel⟩
  | cons hcreset htrace _ ih =>
      intro t hrel hmay
      obtain ⟨t₁, hareset, hrel₁⟩ := hreset hrel hcreset
      obtain ⟨hmay₁, hmay₂⟩ := hmay t₁ hareset
      obtain ⟨t₂, htrace₁, hrel₂⟩ := h.trace htrace hrel₁ hmay₁
      obtain ⟨t', hrest, hrel'⟩ := ih hrel₂ (hmay₂ t₂ htrace₁)
      exact ⟨t', .cons hareset htrace₁ hrest, hrel'⟩

end Simulates

/-- **Progress.**  After such a trace the concrete machine is related to a state of the
    abstract one that the trace leads to, and answers every request that may be made in
    it. -/
theorem Refines.live (h : Refines c a may rel) {s s' : S} {t : T} {l : List (Q × A)}
    (hrel : rel s t) (hrun : c.Trace s l s') (hmay : a.Within may t l) :
    ∃ t', a.Trace t l t' ∧ rel s' t' ∧ ∀ q, may t' q → ∃ r s'', c.step s' q r s'' := by
  obtain ⟨t', htrace, hrel'⟩ := h.trace hrun hrel hmay
  exact ⟨t', htrace, hrel', fun q hq => h.answers hrel' hq⟩

/-- **Following.**  Requests with one answer each are answered as the abstract machine answers
    them. -/
theorem Refines.follow (h : Refines c a may rel) {t t' : T} {l : List (Q × A)}
    (hpath : a.Walk may t l t') : ∀ {s}, rel s t → ∃ s', c.Trace s l s' ∧ rel s' t' := by
  induction hpath with
  | nil t =>
      intro s hrel
      exact ⟨s, .nil s, hrel⟩
  | cons hmay hsingle hstep _ ih =>
      intro s hrel
      obtain ⟨r, s₁, hc⟩ := h.answers hrel hmay
      obtain ⟨t₁, ha, hrel₁⟩ := h.step hrel hmay hc
      obtain ⟨rfl, rfl⟩ := hsingle hstep ha
      obtain ⟨s', hrest, hrel'⟩ := ih hrel₁
      exact ⟨s', .cons hc hrest, hrel'⟩

end Refinement
