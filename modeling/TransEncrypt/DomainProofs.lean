import TransEncrypt.NumeralProofs

/-! # Which domains have encryption switched on — `get_personal_state`

    A system property lists the domains and their switches as `user:state` pairs.  The
    lookup prints the number of the domain, looks for its digits anywhere in the value,
    and scans a number, a colon and a number from there; the first of them is compared
    with nothing.

    * `firstHit` is the pair in which the digits are found first, and
      `get_personal_state_hit` what the lookup makes of it;
    * `personal_state_iff`: when it returns the state of the pair of the domain. -/

namespace TeDomain

open CString Numeral

/-! ## System properties -/

def PROP_VALUE_MAX : Nat := 92

/-- The value of a system property, a string that fits a buffer of `PROP_VALUE_MAX` bytes
    with its terminator. -/
structure PropValue where
  bytes : List UInt8
  short : bytes.length < PROP_VALUE_MAX
  noNul : 0 ∉ bytes

/-- The properties of the system; one that is not set has the empty value. -/
abbrev Properties := String → PropValue

/-! ## The lookup -/

/-- `sscanf` with `"%d:%d"`, the variable for the second number being `state`. -/
def scanState (s : List UInt8) (state : Int) : Int :=
  match scanInt s with
  | some (_, c :: rest) => if c = 0x3a then scanned rest state else state
  | _ => state

/-- `get_personal_state`.  The decimal of an `int` fits `needle`. -/
def get_personal_state (props : Properties) (domain : Int) : Int :=
  let value := (props "persist.encryption.enable").bytes
  if value.length = 0 then 0
  else
    match strstr value (printInt domain) with
    | none => 0
    | some found => scanState found 0

/-! ## Lists of pairs -/

/-- A domain and its switch. -/
structure Pair where
  user : Digits
  state : Digits

/-- A separator: something between two pairs that no digit is part of. -/
structure Separator where
  bytes : List UInt8
  nonempty : bytes ≠ []
  none_digit : bytes.any isdigit = false

theorem Separator.noDigit (sep : Separator) : ∀ c ∈ sep.bytes, isdigit c = false := by
  intro c hc
  simpa using List.any_eq_false.mp sep.none_digit c hc

/-- The pairs, joined by a separator. -/
def joined (sep : Separator) : List Pair → List UInt8
  | [] => []
  | [p] => p.user.bytes ++ 0x3a :: p.state.bytes
  | p :: q :: ps => p.user.bytes ++ 0x3a :: (p.state.bytes ++ (sep.bytes ++ joined sep (q :: ps)))

/-- What follows the first pair. -/
def following (sep : Separator) : List Pair → List UInt8
  | [] => []
  | q :: ps => sep.bytes ++ joined sep (q :: ps)

/-- The state that the list gives a domain: the one of its pair, or 0. -/
def stateOf (pairs : List Pair) (d : Int) : Int :=
  match pairs.find? (fun p => (value p.user.bytes : Int) = d) with
  | some p => value p.state.bytes
  | none => 0

/-- The first pair in which digits stand, in the user or in the state, and the pairs after it. -/
def firstHit (n : List UInt8) : List Pair → Option (Pair × List Pair)
  | [] => none
  | p :: ps => if n <:+: p.user.bytes ∨ n <:+: p.state.bytes then some (p, ps) else firstHit n ps

/-- The number scanned behind a pair, when the separator starts with a colon: the sign that
    the separator may end with, and the next user. -/
def nextNumber (sep : Separator) : List Pair → Int
  | [] => 0
  | q :: _ =>
    match sep.bytes with
    | c :: sep' => if c = 0x3a then scanned (sep' ++ q.user.bytes) 0 else 0
    | [] => 0

section Lookup

variable {sep : Separator} {p : Pair} {ps : List Pair} {n : List UInt8}

theorem joined_cons : joined sep (p :: ps) =
    p.user.bytes ++ 0x3a :: (p.state.bytes ++ following sep ps) := by
  cases ps with
  | nil => rw [joined, following, List.append_nil]
  | cons q ps => rw [joined, following]

theorem following_head : ∀ c ∈ (following sep ps).head?, isdigit c = false := by
  intro c hc
  cases ps with
  | nil => cases hc
  | cons q ps =>
      rw [following, List.head?_append_of_ne_nil _ sep.nonempty] at hc
      exact sep.noDigit c (List.mem_of_mem_head? hc)

/-- A scan that starts in the user of a pair reads its state. -/
theorem scanState_user {v : List UInt8} (hv : v ≠ []) (hd : ∀ c ∈ v, isdigit c = true) :
    scanState (v ++ 0x3a :: (p.state.bytes ++ following sep ps)) 0 =
      stored (value p.state.bytes) := by
  rw [scanState, scanInt_digits hv hd (by rintro c ⟨⟩; rfl)]
  simp only [if_true]
  rw [scanned, scanInt_digits p.state.nonempty p.state.digits following_head]
  rfl

/-- A scan that starts in the state of a pair reads nothing, or the next user. -/
theorem scanState_state {v : List UInt8} (hv : v ≠ []) (hd : ∀ c ∈ v, isdigit c = true) :
    scanState (v ++ following sep ps) 0 = nextNumber sep ps := by
  rw [scanState, scanInt_digits hv hd following_head]
  cases ps with
  | nil => rfl
  | cons q ps =>
      rw [following, nextNumber, joined_cons]
      cases hsep : sep.bytes with
      | nil => exact absurd hsep sep.nonempty
      | cons c sep' =>
          rw [List.cons_append]
          by_cases hc : c = 0x3a
          · simp only [if_pos hc]
            rw [scanned, scanned, ← List.append_assoc,
              scanInt_stop _ _ (by decide) (by decide) (by decide)]
          · simp only [if_neg hc]

/-- What the lookup makes of the first pair with the digits: from its user it reads its state,
    from its state at most the next user. -/
def answer (sep : Separator) (n : List UInt8) (p : Pair) (ps : List Pair) : Int :=
  if n <:+: p.user.bytes then stored (value p.state.bytes) else nextNumber sep ps

theorem strstr_digits {ds : Digits} {v : List UInt8} (h : strstr ds.bytes n = some v)
    (hne : n ≠ []) : v ≠ [] ∧ ∀ c ∈ v, isdigit c = true := by
  obtain ⟨hsuf, hpre⟩ := strstr_some h
  refine ⟨?_, fun c hc => ds.digits c (hsuf.subset hc)⟩
  rintro rfl
  exact hne (List.prefix_nil.mp hpre)

/-- **The search**, pair by pair. -/
theorem strstr_joined (hne : n ≠ []) (hn : ∀ c ∈ n, isdigit c = true) :
    ∀ pairs : List Pair,
      (match strstr (joined sep pairs) n with
        | none => 0
        | some found => scanState found 0) =
      match firstHit n pairs with
      | none => 0
      | some (p, ps) => answer sep n p ps := by
  intro pairs
  induction pairs with
  | nil =>
      have : strstr [] n = none := strstr_eq_none.mpr fun h => hne (List.infix_nil.mp h)
      rw [joined, this]
      rfl
  | cons p ps ih =>
      have hcolon : ∀ c ∈ (0x3a :: (p.state.bytes ++ following sep ps)).head?,
          isdigit c = false := by
        rintro c ⟨⟩
        rfl
      have hsingle : ∀ c ∈ [(0x3a : UInt8)], isdigit c = false := by
        intro c hc
        rw [List.mem_singleton.mp hc]
        rfl
      rw [joined_cons, firstHit, strstr_stretch hne hn hcolon]
      cases huser : strstr p.user.bytes n with
      | some v =>
          obtain ⟨hv, hd⟩ := strstr_digits huser hne
          have hin : n <:+: p.user.bytes := by
            by_contra hno
            cases (strstr_eq_none.mpr hno).symm.trans huser
          rw [if_pos (.inl hin)]
          show scanState (v ++ _) 0 = answer sep n p ps
          rw [scanState_user hv hd, answer, if_pos hin]
      | none =>
          have hout : ¬ n <:+: p.user.bytes := strstr_eq_none.mp huser
          rw [Option.map_none, Option.none_or,
            show ∀ r, (0x3a : UInt8) :: r = [0x3a] ++ r from fun _ => rfl,
            strstr_skip hne hn hsingle, strstr_stretch hne hn following_head]
          cases hstate : strstr p.state.bytes n with
          | some v =>
              obtain ⟨hv, hd⟩ := strstr_digits hstate hne
              have hin : n <:+: p.state.bytes := by
                by_contra hno
                cases (strstr_eq_none.mpr hno).symm.trans hstate
              rw [if_pos (.inr hin)]
              show scanState (v ++ _) 0 = answer sep n p ps
              rw [scanState_state hv hd, answer, if_neg hout]
          | none =>
              rw [if_neg (not_or.mpr ⟨hout, strstr_eq_none.mp hstate⟩), ← ih, Option.map_none,
                Option.none_or]
              cases ps with
              | nil => rw [following, joined]
              | cons q ps => rw [following, strstr_skip hne hn sep.noDigit]

end Lookup

/-! ## The result -/

section Result

variable {props : Properties} {sep : Separator} {pairs : List Pair} {d : Int}

theorem printInt_pos (hd : 0 < d) : printInt d = decimal d.natAbs := by
  rw [printInt, if_neg (by omega)]

/-- **The lookup in a list of pairs** goes by the first pair in which the digits of the domain
    stand. -/
theorem get_personal_state_hit (hd : 0 < d)
    (hvalue : (props "persist.encryption.enable").bytes = joined sep pairs) :
    get_personal_state props d =
      match firstHit (decimal d.natAbs) pairs with
      | none => 0
      | some (p, ps) => answer sep (decimal d.natAbs) p ps := by
  rw [← strstr_joined (decimal_ne_nil _) (decimal_digits _), get_personal_state, hvalue,
    printInt_pos hd]
  split
  · next h =>
      have hnil : strstr [] (decimal d.natAbs) = none :=
        strstr_eq_none.mpr fun h => decimal_ne_nil _ (List.infix_nil.mp h)
      rw [List.length_eq_zero_iff.mp h, hnil]
  · rfl

/-- The digits of a domain stand in its own pair. -/
theorem own_hit (hd : 0 < d) {p : Pair} (h : (value p.user.bytes : Int) = d) :
    decimal d.natAbs <:+: p.user.bytes := by
  have hval : value p.user.bytes = d.natAbs := by omega
  have hsuf := decimal_suffix p.user.digits (by omega)
  rw [hval] at hsuf
  exact hsuf.isInfix

/-- Without a hit the list has no pair of the domain. -/
theorem stateOf_none (hd : 0 < d) (h : firstHit (decimal d.natAbs) pairs = none) :
    stateOf pairs d = 0 := by
  induction pairs with
  | nil => rfl
  | cons q ps ih =>
      rw [firstHit] at h
      by_cases hq : decimal d.natAbs <:+: q.user.bytes ∨ decimal d.natAbs <:+: q.state.bytes
      · rw [if_pos hq] at h
        cases h
      · rw [if_neg hq] at h
        have hne : ¬ (value q.user.bytes : Int) = d := fun heq => hq (.inl (own_hit hd heq))
        rw [stateOf, List.find?_cons_of_neg (by simpa using hne), ← stateOf, ih h]

/-- The first hit, when it is in the pair of the domain. -/
theorem stateOf_own (hd : 0 < d) {p : Pair} {ps : List Pair}
    (h : firstHit (decimal d.natAbs) pairs = some (p, ps))
    (hown : (value p.user.bytes : Int) = d) : stateOf pairs d = value p.state.bytes := by
  induction pairs with
  | nil => cases h
  | cons q qs ih =>
      rw [firstHit] at h
      by_cases hq : decimal d.natAbs <:+: q.user.bytes ∨ decimal d.natAbs <:+: q.state.bytes
      · rw [if_pos hq] at h
        obtain ⟨rfl, rfl⟩ := Prod.mk.inj (Option.some.inj h)
        rw [stateOf, List.find?_cons_of_pos (by simpa using hown)]
      · rw [if_neg hq] at h
        have hne : ¬ (value q.user.bytes : Int) = d := fun heq => hq (.inl (own_hit hd heq))
        rw [stateOf, List.find?_cons_of_neg (by simpa using hne), ← stateOf, ih h]

/-- What the first pair in which the digits of `d` stand has to be like.  It is the pair of `d`
    and its state fits an `int`; or they stand in the user of another pair, whose state is the
    one of `d`; or only in its state, and the number behind the pair is the state of `d`. -/
def HitsRight (sep : Separator) (pairs : List Pair) (d : Int) : Prop :=
  ∀ p ps, firstHit (decimal d.natAbs) pairs = some (p, ps) →
    if (value p.user.bytes : Int) = d then value p.state.bytes < 2 ^ 31
    else if decimal d.natAbs <:+: p.user.bytes then
      stored (value p.state.bytes) = stateOf pairs d
    else nextNumber sep ps = stateOf pairs d

/-- The answer for the first hit, case by case. -/
theorem answer_right_iff (hd : 0 < d) {p : Pair} {ps : List Pair}
    (hhit : firstHit (decimal d.natAbs) pairs = some (p, ps)) :
    answer sep (decimal d.natAbs) p ps = stateOf pairs d ↔ HitsRight sep pairs d := by
  have hcond : answer sep (decimal d.natAbs) p ps = stateOf pairs d ↔
      if (value p.user.bytes : Int) = d then value p.state.bytes < 2 ^ 31
      else if decimal d.natAbs <:+: p.user.bytes then
        stored (value p.state.bytes) = stateOf pairs d
      else nextNumber sep ps = stateOf pairs d := by
    rw [answer]
    by_cases hown : (value p.user.bytes : Int) = d
    · rw [if_pos hown, if_pos (own_hit hd hown), stateOf_own hd hhit hown]
      exact stored_nat
    · rw [if_neg hown]
      by_cases hin : decimal d.natAbs <:+: p.user.bytes
      · rw [if_pos hin, if_pos hin]
      · rw [if_neg hin, if_neg hin]
  rw [hcond, HitsRight]
  constructor
  · intro h p' ps' h'
    obtain ⟨rfl, rfl⟩ := Prod.mk.inj (Option.some.inj (hhit.symm.trans h'))
    exact h
  · intro h
    exact h p ps hhit

/-- A lookup that hits right. -/
theorem get_personal_state_right (hd : 0 < d)
    (hvalue : (props "persist.encryption.enable").bytes = joined sep pairs)
    (h : HitsRight sep pairs d) : get_personal_state props d = stateOf pairs d := by
  rw [get_personal_state_hit hd hvalue]
  cases hhit : firstHit (decimal d.natAbs) pairs with
  | none => exact (stateOf_none hd hhit).symm
  | some e => exact (answer_right_iff hd hhit).mpr h

/-- **When the switch of a domain is the one of its pair**: for every list of pairs, separator
    and positive domain. -/
theorem personal_state_iff (props : Properties) (sep : Separator) (pairs : List Pair) (d : Int)
    (hd : 0 < d) (hvalue : (props "persist.encryption.enable").bytes = joined sep pairs) :
    get_personal_state props d = stateOf pairs d ↔ HitsRight sep pairs d := by
  refine ⟨fun h => ?_, get_personal_state_right hd hvalue⟩
  rw [get_personal_state_hit hd hvalue] at h
  cases hhit : firstHit (decimal d.natAbs) pairs with
  | none =>
      intro p ps h'
      cases hhit.symm.trans h'
  | some e =>
      rw [hhit] at h
      exact (answer_right_iff hd hhit).mp h

/-- Domains 10 and 1, separated by a comma: the first one is switched on. -/
def twoDomains : List Pair :=
  [⟨⟨text "10", by decide, by decide⟩, ⟨text "1", by decide, by decide⟩⟩,
   ⟨⟨text "1", by decide, by decide⟩, ⟨text "0", by decide, by decide⟩⟩]

def comma : Separator := ⟨text ",", by decide, by decide⟩

def twoDomainsValue : PropValue := ⟨text "10:1,1:0", by decide, by decide⟩

/-- Domain 10 is looked up in its own pair. -/
theorem personal_state_ten : HitsRight comma twoDomains 10 :=
  (personal_state_iff (fun _ => twoDomainsValue) comma twoDomains 10 (by decide) (by decide)).mp
    (by decide)

/-- Domain 1 is switched on by the pair of domain 10. -/
theorem personal_state_other :
    (twoDomainsValue.bytes = joined comma twoDomains) ∧ stateOf twoDomains 1 = 0 ∧
      get_personal_state (fun _ => twoDomainsValue) 1 = 1 := by
  decide

end Result

end TeDomain
