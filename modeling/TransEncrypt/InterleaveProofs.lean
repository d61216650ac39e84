import Mathlib.Algebra.Order.Ring.Int
import Mathlib.Data.List.Basic
import Mathlib.Tactic.Common

/-! # Threads over a shared state — interleavings, invariants, draining

    A thread step reads and changes the shared state and its own; the order in which
    threads step is a list of choices.  A step may also end the whole run (`none`).

    * `Owicki–Gries`: an invariant of the shared state together with one assertion
      for each thread is kept by every interleaving when every step keeps its own
      assertion and disturbs no other (`Sound`, `Sound.run`);
    * draining: when every thread that has not stopped can step and gets closer to
      its end, some interleaving stops them all (`exists_drain`);
    * `Run`: the runs whose steps meet a condition on the state before them, and the
      invariants of these (`Run.keeps`). -/

namespace Interleave

variable {S T A : Type}

/-- The steps of a thread under the answers of an environment, which also picks the
    thread that makes the next step. -/
structure System (S T A : Type) where
  step : A → S → T → Option (S × T)
  pick : A → Nat

namespace System

variable (sys : System S T A)

/-- One step of the picked thread; picking a thread that does not exist does nothing. -/
def poolStep (a : A) (c : S × List T) : Option (S × List T) :=
  match c.2[sys.pick a]? with
  | none => some c
  | some t => (sys.step a c.1 t).map fun r => (r.1, c.2.set (sys.pick a) r.2)

/-- The steps of a list of answers, one after the other. -/
def poolRun : List A → S × List T → Option (S × List T)
  | [], c => some c
  | a :: as, c => (sys.poolStep a c).bind (poolRun as)

theorem poolStep_none {a : A} {s : S} {ts : List T} (h : ts[sys.pick a]? = none) :
    sys.poolStep a (s, ts) = some (s, ts) := by
  unfold poolStep
  rw [h]

theorem poolStep_some {a : A} {s : S} {ts : List T} {t : T}
    (h : ts[sys.pick a]? = some t) : sys.poolStep a (s, ts) =
      (sys.step a s t).map fun r => (r.1, ts.set (sys.pick a) r.2) := by
  unfold poolStep
  rw [h]

/-- What a step of the pool can be: nothing, or a step of one of its threads. -/
theorem poolStep_cases {a : A} {s s' : S} {ts ts' : List T}
    (h : sys.poolStep a (s, ts) = some (s', ts')) :
    (s' = s ∧ ts' = ts) ∨ ∃ i t t', ts[i]? = some t ∧ sys.pick a = i ∧
      sys.step a s t = some (s', t') ∧ ts' = ts.set i t' := by
  cases ht : ts[sys.pick a]? with
  | none =>
      unfold poolStep at h
      rw [ht] at h
      obtain ⟨rfl, rfl⟩ := Prod.mk.inj (Option.some.inj h)
      exact .inl ⟨rfl, rfl⟩
  | some t =>
      rw [sys.poolStep_some ht] at h
      obtain ⟨⟨s₁, t₁⟩, hstep, heq⟩ := Option.map_eq_some_iff.mp h
      obtain ⟨rfl, rfl⟩ := Prod.mk.inj heq
      exact .inr ⟨_, t, t₁, ht, rfl, hstep, rfl⟩

theorem poolStep_length {a : A} {c c' : S × List T} (h : sys.poolStep a c = some c') :
    c'.2.length = c.2.length := by
  obtain ⟨s, ts⟩ := c
  obtain ⟨s', ts'⟩ := c'
  rcases sys.poolStep_cases h with ⟨-, rfl⟩ | ⟨i, t, t', -, -, -, rfl⟩
  · rfl
  · exact List.length_set

/-- No step creates a thread or removes one. -/
theorem poolRun_length : ∀ (as : List A) {c c' : S × List T},
    sys.poolRun as c = some c' → c'.2.length = c.2.length := by
  intro as
  induction as with
  | nil =>
      intro c c' h
      obtain rfl := Option.some.inj h
      rfl
  | cons a as ih =>
      intro c c' h
      obtain ⟨c₁, h1, h2⟩ := Option.bind_eq_some_iff.mp h
      exact (ih h2).trans (sys.poolStep_length h1)

theorem poolRun_append (as bs : List A) (c : S × List T) :
    sys.poolRun (as ++ bs) c = (sys.poolRun as c).bind (sys.poolRun bs) := by
  induction as generalizing c with
  | nil => rfl
  | cons a as ih =>
      show (sys.poolStep a c).bind (sys.poolRun (as ++ bs)) = _
      show _ = ((sys.poolStep a c).bind (sys.poolRun as)).bind (sys.poolRun bs)
      cases sys.poolStep a c with
      | none => rfl
      | some c' => exact ih c'

/-! ## Invariants of all interleavings -/

/-- The shared invariant `I` and the assertions `J i` of the threads. -/
def PoolInv (I : S → Prop) (J : Nat → S → T → Prop) (c : S × List T) : Prop :=
  I c.1 ∧ ∀ i t, c.2[i]? = some t → J i c.1 t

/-- Under the answers `ok`, every step of a thread keeps the invariant and its own
    assertion, and disturbs the assertion of no other thread. -/
structure Sound (ok : A → Prop) (I : S → Prop) (J : Nat → S → T → Prop) : Prop where
  own : ∀ {a i s t s' t'}, ok a → sys.pick a = i → I s → J i s t →
    sys.step a s t = some (s', t') → I s' ∧ J i s' t'
  other : ∀ {a i j s t s' t' u}, ok a → sys.pick a = i → i ≠ j → I s → J i s t → J j s u →
    sys.step a s t = some (s', t') → J j s' u

variable {sys} {ok : A → Prop} {I : S → Prop} {J : Nat → S → T → Prop}

/-- One thread has moved, to a state that meets its assertion, and no other assertion is
    disturbed. -/
theorem PoolInv.set {s s' : S} {ts : List T} {i : Nat} {t t' : T} (h : PoolInv I J (s, ts))
    (ht : ts[i]? = some t) (hI : I s') (hJ : J i s' t')
    (hother : ∀ k u, i ≠ k → J k s u → J k s' u) : PoolInv I J (s', ts.set i t') := by
  refine ⟨hI, fun k u hu => ?_⟩
  have hu' : (ts.set i t')[k]? = some u := hu
  rw [List.getElem?_set] at hu'
  by_cases hik : i = k
  · -- the thread that moved
    rw [if_pos hik, if_pos (List.getElem?_eq_some_iff.mp ht).1] at hu'
    obtain rfl := Option.some.inj hu'
    exact hik ▸ hJ
  · rw [if_neg hik] at hu'
    exact hother k u hik (h.2 k u hu')

theorem Sound.step (h : sys.Sound ok I J) {a : A} (ha : ok a) {c c' : S × List T}
    (hc : PoolInv I J c) (hs : sys.poolStep a c = some c') : PoolInv I J c' := by
  obtain ⟨s, ts⟩ := c
  obtain ⟨s', ts'⟩ := c'
  rcases sys.poolStep_cases hs with ⟨rfl, rfl⟩ | ⟨i, t, t', ht, hpick, hstep, rfl⟩
  · exact hc
  · have hi := hc.2 i t ht
    obtain ⟨hI', hJ'⟩ := h.own ha hpick hc.1 hi hstep
    exact hc.set ht hI' hJ' fun k u hik hu => h.other ha hpick hik hc.1 hi hu hstep

/-- **Every interleaving keeps the invariant.** -/
theorem Sound.run (h : sys.Sound ok I J) :
    ∀ (as : List A) {c c' : S × List T}, (∀ a ∈ as, ok a) → PoolInv I J c →
      sys.poolRun as c = some c' → PoolInv I J c' := by
  intro as
  induction as with
  | nil =>
      intro c c' _ hc hr
      obtain rfl := Option.some.inj hr
      exact hc
  | cons a as ih =>
      intro c c' hok hc hr
      obtain ⟨c₁, h1, h2⟩ := Option.bind_eq_some_iff.mp hr
      exact ih (fun b hb => hok b (List.mem_cons_of_mem a hb))
        (h.step (hok a List.mem_cons_self) hc h1) h2

/-! ## Draining -/

private theorem sum_set_lt (μ : T → Nat) {t' : T} :
    ∀ {ts : List T} {i : Nat} {t : T}, ts[i]? = some t → μ t' < μ t →
      ((ts.set i t').map μ).sum < (ts.map μ).sum := by
  intro ts
  induction ts with
  | nil => intro i t h _; cases h
  | cons u ts ih =>
      intro i t h hlt
      cases i with
      | zero =>
          obtain rfl : u = t := Option.some.inj h
          rw [List.set_cons_zero, List.map_cons, List.map_cons, List.sum_cons,
            List.sum_cons]
          omega
      | succ i =>
          have := ih (i := i) (t := t) h hlt
          rw [List.set_cons_succ, List.map_cons, List.map_cons, List.sum_cons,
            List.sum_cons]
          omega

/-- **Draining.**  If every thread that has not stopped can make a step that lowers its
    measure, some interleaving stops every thread. -/
theorem exists_drain (h : sys.Sound ok I J) (stopped : T → Prop) (μ : T → Nat)
    (hstep : ∀ i s t, I s → J i s t → ¬ stopped t →
      ∃ a s' t', ok a ∧ sys.pick a = i ∧ sys.step a s t = some (s', t') ∧ μ t' < μ t) :
    ∀ (n : Nat) (c : S × List T), (c.2.map μ).sum ≤ n → PoolInv I J c →
      ∃ as c', (∀ a ∈ as, ok a) ∧ sys.poolRun as c = some c' ∧ PoolInv I J c' ∧
        ∀ t ∈ c'.2, stopped t := by
  intro n
  induction n with
  | zero =>
      intro c hn hc
      refine ⟨[], c, (fun a ha => by cases ha), rfl, hc, fun t ht => ?_⟩
      by_contra hrun
      obtain ⟨i, hi⟩ := List.getElem?_of_mem ht
      obtain ⟨a, s', t', -, -, -, hlt⟩ := hstep i c.1 t hc.1 (hc.2 i t hi) hrun
      have := sum_set_lt μ hi hlt
      omega
  | succ n ih =>
      intro c hn hc
      by_cases hall : ∀ t ∈ c.2, stopped t
      · exact ⟨[], c, (fun a ha => by cases ha), rfl, hc, hall⟩
      · obtain ⟨t, hrest⟩ := not_forall.mp hall
        obtain ⟨ht, hrun⟩ := Classical.not_imp.mp hrest
        obtain ⟨i, hi⟩ := List.getElem?_of_mem ht
        obtain ⟨a, s', t', ha, hpick, hs, hlt⟩ := hstep i c.1 t hc.1 (hc.2 i t hi) hrun
        have hpool : sys.poolStep a c = some (s', c.2.set i t') := by
          rw [← hpick] at hi ⊢
          have := sys.poolStep_some (s := c.1) hi
          rw [hs] at this
          exact this
        have hsum := sum_set_lt μ hi hlt
        obtain ⟨as, c', hok, hr, hinv, hstop⟩ :=
          ih (s', c.2.set i t') (by show ((c.2.set i t').map μ).sum ≤ n; omega)
            (h.step ha hc hpool)
        refine ⟨a :: as, c', fun b hb => ?_, ?_, hinv, hstop⟩
        · rcases List.mem_cons.mp hb with rfl | hb
          · exact ha
          · exact hok b hb
        · show (sys.poolStep a c).bind (sys.poolRun as) = _
          rw [hpool]
          exact hr

/-! ## Runs under a condition on the state -/

/-- Runs in which every step meets a condition on its answer and the state before it. -/
inductive Run (sys : System S T A) (may : A → S × List T → Prop) (c : S × List T) :
    S × List T → Prop where
  | refl : Run sys may c c
  | step {a : A} {c₁ c₂ : S × List T} : Run sys may c c₁ → may a c₁ →
      sys.poolStep a c₁ = some c₂ → Run sys may c c₂

namespace Run

variable {may' may : A → S × List T → Prop} {c c' c'' : S × List T}

/-- What such a step preserves holds in every state reached. -/
theorem keeps {P : S × List T → Prop}
    (hstep : ∀ {a c c'}, may a c → P c → sys.poolStep a c = some c' → P c')
    (h : sys.Run may c c') (hc : P c) : P c' := by
  induction h with
  | refl => exact hc
  | step _ hok hs ih => exact hstep hok ih hs

theorem mono (himp : ∀ {a c}, may a c → may' a c) (h : sys.Run may c c') :
    sys.Run may' c c' := by
  induction h with
  | refl => exact .refl
  | step _ hok hs ih => exact .step ih (himp hok) hs

theorem trans (h : sys.Run may c c') (h' : sys.Run may c' c'') : sys.Run may c c'' := by
  induction h' with
  | refl => exact h
  | step _ hok hs ih => exact .step ih hok hs

/-- One more step of the thread `i`, whose state is known. -/
theorem next {i : Nat} {a : A} {s s' : S} {ts : List T} {t t' : T}
    (h : sys.Run may c (s, ts.set i t)) (hi : i < ts.length) (hok : may a (s, ts.set i t))
    (hpick : sys.pick a = i) (hstep : sys.step a s t = some (s', t')) :
    sys.Run may c (s', ts.set i t') := by
  refine .step h hok ?_
  have hget : (ts.set i t)[sys.pick a]? = some t := by
    rw [hpick, List.getElem?_set_self hi]
  rw [sys.poolStep_some hget, hstep, hpick]
  show some (s', (ts.set i t).set i t') = _
  rw [List.set_set]

end Run

end System

end Interleave
