import TransEncrypt.HoareProofs
import TransEncrypt.InterleaveProofs

/-! # Rely and guarantee — programs cut into atomic calls

    A script is a program as a sequence of calls, each of them one step; between two of them
    other threads may step.  Run alone it is an ordinary program (`Script.run`), run with
    others it is a thread of a pool (`threads`).

    * `Meets`: from this state the script never stops, whatever the other threads do within
      `R`; every call of its own stays within `G`; and what it returns satisfies `post`;
    * `Meets.step`, `Meets.bind`: the rules for one call and for a sequence;
    * `parallel`: when the guarantee of each thread is within the rely of every other, all
      threads meet their own specifications in every interleaving;
    * `parallel_finishes`: and every interleaving can be continued to the end of all. -/

namespace Rely

open Hoare Interleave

variable {Q : Type} {ans : Q → Type} {σ ε α β : Type}

/-- A program over the calls `Q`, where `q` is answered by an `ans q`. -/
inductive Script (Q : Type) (ans : Q → Type) (ε α : Type) : Type
  | done (a : α)
  | stop (e : ε)
  | call (q : Q) (k : ans q → Script Q ans ε α)

namespace Script

def bind : Script Q ans ε α → (α → Script Q ans ε β) → Script Q ans ε β
  | done a, f => f a
  | stop e, _ => stop e
  | call q k, f => call q fun b => (k b).bind f

instance : Monad (Script Q ans ε) where
  pure := done
  bind := bind

/-- A single call. -/
def ask (q : Q) : Script Q ans ε (ans q) := call q done

/-- What the calls do. -/
abbrev Handler (Q : Type) (ans : Q → Type) (σ ε : Type) := ∀ q : Q, Prog σ ε (ans q)

variable (h : Handler Q ans σ ε)

/-- The script run without interruption. -/
def run : Script Q ans ε α → Prog σ ε α
  | done a => pure a
  | stop e => fun _ => .error e
  | call q k => h q >>= fun b => (k b).run

@[simp] theorem run_pure (a : α) : run h (pure a : Script Q ans ε α) = pure a := rfl

@[simp] theorem run_stop (e : ε) : run h (stop e : Script Q ans ε α) = fun _ => .error e := rfl

@[simp] theorem run_ask (q : Q) : run h (ask q) = h q := bind_pure (h q)

@[simp] theorem run_bind (t : Script Q ans ε α) (f : α → Script Q ans ε β) :
    run h (t >>= f) = run h t >>= fun a => run h (f a) := by
  induction t with
  | done a => exact (pure_bind a fun a => run h (f a)).symm
  | stop e =>
      funext s
      exact (bind_error (f := fun a => run h (f a)) (s := s) (e := e) rfl).symm
  | call q k ih =>
      show (h q >>= fun b => run h (k b >>= f)) = (h q >>= fun b => run h (k b)) >>= _
      rw [bind_assoc]
      congr 1
      funext b
      exact ih b

@[simp] theorem run_ite {c : Prop} [Decidable c] (t u : Script Q ans ε α) :
    run h (if c then t else u) = if c then run h t else run h u := by
  by_cases hc : c
  · rw [if_pos hc, if_pos hc]
  · rw [if_neg hc, if_neg hc]

/-- One step as a thread: the next call. -/
def step (s : σ) : Script Q ans ε α → Option (σ × Script Q ans ε α)
  | done a => some (s, done a)
  | stop _ => none
  | call q k =>
    match h q s with
    | .ok (b, s') => some (s', k b)
    | .error _ => none

/-- The script has come to its end. -/
def Finished : Script Q ans ε α → Prop
  | done _ => True
  | _ => False

end Script

open Script

/-- Scripts as threads over a common state; the schedule names the thread that steps. -/
def threads (h : Handler Q ans σ ε) : System σ (Script Q ans ε α) Nat where
  step _ s t := t.step h s
  pick i := i

/-! ## The specification of one thread -/

variable (h : Handler Q ans σ ε) (R G : σ → σ → Prop)

def Meets (post : α → σ → Prop) : Script Q ans ε α → σ → Prop
  | .done a, s => ∀ s', R s s' → post a s'
  | .stop _, _ => False
  | .call q k, s => ∀ s', R s s' → ∃ b s'', h q s' = .ok (b, s'') ∧ G s' s'' ∧
      Meets post (k b) s''

/-- A property that the other threads cannot destroy. -/
def Stable (P : σ → Prop) : Prop := ∀ s s', P s → R s s' → P s'

variable {h R G} {post : α → σ → Prop}

namespace Meets

/-- Steps of other threads are within the specification. -/
theorem stable [IsPreorder σ R] {t : Script Q ans ε α} {s s' : σ} (ht : Meets h R G post t s)
    (hs : R s s') : Meets h R G post t s' := by
  cases t with
  | done a => exact fun s'' hs' => ht s'' (trans_of R hs hs')
  | stop e => exact ht
  | call q k => exact fun s'' hs' => ht s'' (trans_of R hs hs')

/-- A weaker rely, a stronger guarantee, a stronger end. -/
theorem mono {R' G' : σ → σ → Prop} {post' : α → σ → Prop} {t : Script Q ans ε α} {s : σ}
    (ht : Meets h R G post t s) (hR : ∀ s s', R' s s' → R s s') (hG : ∀ s s', G s s' → G' s s')
    (hpost : ∀ a s, post a s → post' a s) : Meets h R' G' post' t s := by
  induction t generalizing s with
  | done a => exact fun s' hs => hpost a s' (ht s' (hR s s' hs))
  | stop e => exact ht.elim
  | call q k ih =>
      intro s' hs
      obtain ⟨b, s'', hrun, hguar, hrest⟩ := ht s' (hR s s' hs)
      exact ⟨b, s'', hrun, hG s' s'' hguar, ih b hrest⟩

/-- The end of a script. -/
theorem done {P : σ → Prop} (hP : Stable R P) {a : α} {s : σ} (hs : P s)
    (hpost : ∀ s', P s' → post a s') : Meets h R G post (pure a) s :=
  fun s' hss => hpost s' (hP s s' hs hss)

/-- One call: from every state that `P` describes it is answered, within `G`, and leads to a
    state that `P'` describes; and from there the rest is met. -/
theorem step {P : σ → Prop} {q : Q} {P' : ans q → σ → Prop} (hP : Stable R P)
    {k : ans q → Script Q ans ε α} {s : σ} (hs : P s)
    (hcall : ∀ s', P s' → ∃ b s'', h q s' = .ok (b, s'') ∧ G s' s'' ∧ P' b s'')
    (hrest : ∀ b s', P' b s' → Meets h R G post (k b) s') :
    Meets h R G post (.call q k) s := by
  intro s' hss
  obtain ⟨b, s'', hrun, hG, hP'⟩ := hcall s' (hP s s' hs hss)
  exact ⟨b, s'', hrun, hG, hrest b s'' hP'⟩

/-- A sequence. -/
theorem bind [IsPreorder σ R] {post' : β → σ → Prop} {t : Script Q ans ε β} {s : σ}
    {f : β → Script Q ans ε α} (ht : Meets h R G post' t s)
    (hf : ∀ b s', post' b s' → Meets h R G post (f b) s') : Meets h R G post (t >>= f) s := by
  induction t generalizing s with
  | done b => exact hf b s (ht s (refl_of R s))
  | stop e => exact ht.elim
  | call q k ih =>
      intro s' hss
      obtain ⟨b, s'', hrun, hG, hrest⟩ := ht s' hss
      exact ⟨b, s'', hrun, hG, ih b hrest⟩

end Meets

/-! ## All threads -/

section Parallel

variable {R G : Nat → σ → σ → Prop} [∀ i, IsPreorder σ (R i)] {post : Nat → α → σ → Prop}

/-- Every thread meets its specification from the state reached. -/
def AllMeet (h : Handler Q ans σ ε) (R G : Nat → σ → σ → Prop) (post : Nat → α → σ → Prop)
    (c : σ × List (Script Q ans ε α)) : Prop :=
  System.PoolInv (fun _ => True) (fun i s t => Meets h (R i) (G i) (post i) t s) c

variable (hG : ∀ i j, i ≠ j → ∀ s s', G i s s' → R j s s')
include hG

/-- A step of a thread is its next call, and keeps all specifications. -/
theorem step_meets {s : σ} {ts : List (Script Q ans ε α)} (hc : AllMeet h R G post (s, ts))
    {i : Nat} {t : Script Q ans ε α} (hi : ts[i]? = some t) :
    ∃ s' t', t.step h s = some (s', t') ∧ AllMeet h R G post (s', ts.set i t') := by
  have hset : ∀ {s' t'}, (∀ j, i ≠ j → R j s s') → Meets h (R i) (G i) (post i) t' s' →
      AllMeet h R G post (s', ts.set i t') := fun hother hown =>
    System.PoolInv.set hc hi trivial hown fun j u hij hu => hu.stable (hother j hij)
  have ht := hc.2 i t hi
  cases t with
  | done a => exact ⟨s, .done a, rfl, hset (fun j _ => refl_of (R j) s) ht⟩
  | stop e => exact ht.elim
  | call q k =>
      obtain ⟨b, s', hrun, hguar, hrest⟩ := ht s (refl_of (R i) s)
      refine ⟨s', k b, ?_, hset (fun j hj => hG i j hj s s' hguar) hrest⟩
      show (match h q s with
        | .ok (b, s') => some (s', k b)
        | .error _ => none) = _
      rw [hrun]

/-- **Parallel composition.**  Every interleaving goes on without a stop, and every thread
    meets its specification from the state reached. -/
theorem parallel (as : List Nat) : ∀ {c : σ × List (Script Q ans ε α)}, AllMeet h R G post c →
    ∃ c', (threads h).poolRun as c = some c' ∧ AllMeet h R G post c' := by
  induction as with
  | nil =>
      intro c hc
      exact ⟨c, rfl, hc⟩
  | cons i as ih =>
      rintro ⟨s, ts⟩ hc
      have hone : ∃ c₁, (threads h).poolStep i (s, ts) = some c₁ ∧ AllMeet h R G post c₁ := by
        cases hi : ts[i]? with
        | none =>
            refine ⟨(s, ts), ?_, hc⟩
            rw [System.poolStep, show (s, ts).2[(threads h).pick i]? = none from hi]
        | some t =>
            obtain ⟨s', t', hstep, hc'⟩ := step_meets hG hc hi
            refine ⟨_, ?_, hc'⟩
            rw [(threads h).poolStep_some hi, show (threads h).step i s t = _ from hstep]
            rfl
      obtain ⟨c₁, hstep, hc₁⟩ := hone
      obtain ⟨c', hrun, hc'⟩ := ih hc₁
      exact ⟨c', by rw [System.poolRun, hstep]; exact hrun, hc'⟩

/-- A thread can be run to its end, and the others wait. -/
theorem finish_one {i : Nat} (t : Script Q ans ε α) : ∀ {s : σ} {ts : List (Script Q ans ε α)},
    AllMeet h R G post (s, ts) → ts[i]? = some t →
    ∃ as s' t', (threads h).poolRun as (s, ts) = some (s', ts.set i t') ∧ t'.Finished ∧
      AllMeet h R G post (s', ts.set i t') := by
  induction t with
  | done a =>
      intro s ts hc hi
      have hsame : ts.set i (.done a) = ts := by
        obtain ⟨hlt, hget⟩ := List.getElem?_eq_some_iff.mp hi
        rw [← hget]
        exact List.set_getElem_self hlt
      exact ⟨[], s, .done a, by rw [hsame]; rfl, trivial, by rw [hsame]; exact hc⟩
  | stop e =>
      intro s ts hc hi
      exact (hc.2 i _ hi).elim
  | call q k ih =>
      intro s ts hc hi
      obtain ⟨s₁, t₁, hstep, hc₁⟩ := step_meets hG hc hi
      obtain ⟨b, s', hrun, -, -⟩ := hc.2 i _ hi s (refl_of (R i) s)
      have hnext : (Script.call q k).step h s = some (s', k b) := by
        show (match h q s with
          | .ok (b, s') => some (s', k b)
          | .error _ => none) = _
        rw [hrun]
      obtain ⟨rfl, rfl⟩ := Prod.mk.inj (Option.some.inj (hnext.symm.trans hstep))
      have hi₁ : (ts.set i (k b))[i]? = some (k b) :=
        List.getElem?_set_self (List.getElem?_eq_some_iff.mp hi).1
      obtain ⟨as, s₂, t₂, hpool, hfin, hc₂⟩ := ih b hc₁ hi₁
      rw [List.set_set] at hpool hc₂
      refine ⟨i :: as, s₂, t₂, ?_, hfin, hc₂⟩
      have hfirst : (threads h).poolStep i (s, ts) = some (s', ts.set i (k b)) := by
        rw [(threads h).poolStep_some hi, show (threads h).step i s (.call q k) = _ from hnext]
        rfl
      rw [System.poolRun, hfirst]
      exact hpool

/-- **No deadlock.**  Every interleaving can be continued to one in which all threads have
    come to their end. -/
theorem parallel_finishes {c : σ × List (Script Q ans ε α)} (hc : AllMeet h R G post c) :
    ∃ as c', (threads h).poolRun as c = some c' ∧ AllMeet h R G post c' ∧
      c'.2.length = c.2.length ∧ ∀ t ∈ c'.2, t.Finished := by
  -- one thread after the other, in their order
  have hupto : ∀ n, n ≤ c.2.length → ∃ as c', (threads h).poolRun as c = some c' ∧
      AllMeet h R G post c' ∧ c'.2.length = c.2.length ∧
      ∀ i t, i < n → c'.2[i]? = some t → t.Finished := by
    intro n
    induction n with
    | zero =>
        intro _
        exact ⟨[], c, rfl, hc, rfl, fun i t hi => absurd hi (Nat.not_lt_zero i)⟩
    | succ n ih =>
        intro hn
        obtain ⟨as, ⟨s, ts⟩, hrun, hall, hlen, hdone⟩ := ih (Nat.le_of_succ_le hn)
        have hlt : n < ts.length := by
          rw [show ts.length = _ from hlen]
          exact hn
        obtain ⟨bs, s', t', hrun', hfin, hall'⟩ := finish_one hG ts[n] hall
          (List.getElem?_eq_getElem hlt)
        refine ⟨as ++ bs, (s', ts.set n t'), ?_, hall', ?_, fun i t hi ht => ?_⟩
        · rw [(threads h).poolRun_append, hrun]
          exact hrun'
        · rw [List.length_set]
          exact hlen
        · have ht' : (ts.set n t')[i]? = some t := ht
          rw [List.getElem?_set] at ht'
          by_cases hin : n = i
          · rw [if_pos hin, if_pos hlt] at ht'
            exact Option.some.inj ht' ▸ hfin
          · rw [if_neg hin] at ht'
            exact hdone i t (by omega) ht'
  obtain ⟨as, c', hrun, hall, hlen, hdone⟩ := hupto c.2.length (Nat.le_refl _)
  refine ⟨as, c', hrun, hall, hlen, fun t ht => ?_⟩
  obtain ⟨i, hi⟩ := List.getElem?_of_mem ht
  exact hdone i t (by rw [← hlen]; exact (List.getElem?_eq_some_iff.mp hi).1) hi

end Parallel

end Rely
