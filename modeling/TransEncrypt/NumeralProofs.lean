import Mathlib.Data.Nat.Digits.Defs
import TransEncrypt.CStringProofs

/-! # Decimal numerals — printing and scanning numbers

    `sprintf` with `%d` prints a number, `sscanf` with `%d` and `atoi` read one.  A scanned
    number is as large as its digits say; storing it in an `int` cuts it.

    * `decimal_suffix`: a numeral ends in the decimal of its value, so only zeros stand
      before it;
    * `scanInt_digits`, `scanInt_stop`: what `%d` reads, and that it reads no further than
      the digits go. -/

namespace Numeral

open CString

def isdigit (c : UInt8) : Bool := 0x30 ≤ c && c ≤ 0x39

def digit (c : UInt8) : Nat := c.toNat - 0x30

/-- The character of a digit. -/
def char (n : Nat) : UInt8 := UInt8.ofNat (0x30 + n)

theorem isdigit_iff {c : UInt8} : isdigit c = true ↔ 0x30 ≤ c.toNat ∧ c.toNat ≤ 0x39 := by
  rw [isdigit, Bool.and_eq_true, decide_eq_true_eq, decide_eq_true_eq, UInt8.le_iff_toNat_le,
    UInt8.le_iff_toNat_le]
  rfl

theorem digit_lt {c : UInt8} (h : isdigit c = true) : digit c < 10 := by
  have := isdigit_iff.mp h
  rw [digit]
  omega

theorem isdigit_char {n : Nat} (h : n < 10) : isdigit (char n) = true := by
  rw [isdigit_iff, char, UInt8.toNat_ofNat']
  omega

theorem char_digit {c : UInt8} (h : isdigit c = true) : char (digit c) = c := by
  have := isdigit_iff.mp h
  rw [char, digit, Nat.add_sub_cancel' this.1]
  exact UInt8.ofNat_toNat

theorem digit_not_space {c : UInt8} (h : isdigit c = true) : isspace c = false := by
  have := isdigit_iff.mp h
  rw [isspace, Bool.or_eq_false_iff, Bool.and_eq_false_iff, decide_eq_false_iff_not,
    decide_eq_false_iff_not, decide_eq_false_iff_not, UInt8.le_iff_toNat_le, UInt8.le_iff_toNat_le,
    ← UInt8.toNat_inj]
  simp only [UInt8.reduceToNat]
  omega

/-- A nonempty string of digits. -/
structure Digits where
  bytes : List UInt8
  nonempty : bytes ≠ []
  all_digits : bytes.all isdigit = true

theorem Digits.digits (ds : Digits) : ∀ c ∈ ds.bytes, isdigit c = true :=
  List.all_eq_true.mp ds.all_digits

/-! ## Value and decimal -/

/-- The number that digits denote. -/
def value (ds : List UInt8) : Nat := ds.foldl (fun n c => 10 * n + digit c) 0

/-- The decimal of a number, without leading zeros. -/
def decimal (n : Nat) : List UInt8 :=
  if n = 0 then [0x30] else (Nat.digits 10 n).reverse.map char

/-- The conversion `%d` of `sprintf`. -/
def printInt (n : Int) : List UInt8 :=
  if n < 0 then 0x2d :: decimal n.natAbs else decimal n.natAbs

theorem value_eq (ds : List UInt8) : value ds = Nat.ofDigits 10 (ds.map digit).reverse := by
  induction ds using List.reverseRecOn with
  | nil => rfl
  | append_singleton ds c ih =>
      rw [List.map_append, List.reverse_append]
      show value (ds ++ [c]) = Nat.ofDigits 10 (digit c :: (ds.map digit).reverse)
      rw [Nat.ofDigits_cons, ← ih, Nat.add_comm, value, List.foldl_append, ← value]
      simp

/-- A zero in front. -/
theorem value_zero_cons (ds : List UInt8) : value (0x30 :: ds) = value ds := rfl

theorem decimal_ne_nil (n : Nat) : decimal n ≠ [] := by
  rw [decimal]
  by_cases h : n = 0
  · rw [if_pos h]
    exact List.cons_ne_nil _ _
  · rw [if_neg h]
    simpa [Nat.digits_ne_nil_iff_ne_zero] using h

theorem decimal_digits (n : Nat) : ∀ c ∈ decimal n, isdigit c = true := by
  rw [decimal]
  by_cases h : n = 0
  · rw [if_pos h]
    intro c hc
    rw [List.mem_singleton.mp hc]
    rfl
  · rw [if_neg h]
    intro c hc
    obtain ⟨d, hd, rfl⟩ := List.mem_map.mp hc
    exact isdigit_char (Nat.digits_lt_base (by decide) (List.mem_reverse.mp hd))

/-- Digits that do not start with a zero are the decimal of their value. -/
theorem decimal_value {c : UInt8} {ds : List UInt8} (hd : ∀ x ∈ c :: ds, isdigit x = true)
    (hc : c ≠ 0x30) : decimal (value (c :: ds)) = c :: ds := by
  have hdigit : digit c ≠ 0 := by
    have hrange := isdigit_iff.mp (hd c (List.mem_cons_self ..))
    have hne : c.toNat ≠ 0x30 := fun h => hc (UInt8.toNat_inj.mp h)
    rw [digit]
    omega
  have hlast : ∀ h : ((c :: ds).map digit).reverse ≠ [],
      ((c :: ds).map digit).reverse.getLast h ≠ 0 := by
    intro h
    rw [List.getLast_reverse]
    exact hdigit
  have hdigits : Nat.digits 10 (value (c :: ds)) = ((c :: ds).map digit).reverse := by
    rw [value_eq]
    refine Nat.digits_ofDigits 10 (by decide) _ (fun x hx => ?_) hlast
    obtain ⟨y, hy, rfl⟩ := List.mem_map.mp (List.mem_reverse.mp hx)
    exact digit_lt (hd y hy)
  have hne : value (c :: ds) ≠ 0 := by
    rw [← Nat.digits_ne_nil_iff_ne_zero (b := 10), hdigits]
    simp
  rw [decimal, if_neg hne, hdigits, List.reverse_reverse, List.map_map]
  exact List.map_congr_left (fun x hx => char_digit (hd x hx)) |>.trans (List.map_id _)

/-- **A numeral ends in the decimal of its value.** -/
theorem decimal_suffix {ds : List UInt8} (hd : ∀ c ∈ ds, isdigit c = true)
    (hpos : 0 < value ds) : decimal (value ds) <:+ ds := by
  induction ds with
  | nil => exact absurd hpos (Nat.lt_irrefl 0)
  | cons c ds ih =>
      by_cases hc : c = 0x30
      · subst hc
        rw [value_zero_cons] at hpos ⊢
        exact (ih (fun x hx => hd x (List.mem_cons_of_mem _ hx)) hpos).trans
          (List.suffix_cons ..)
      · rw [decimal_value hd hc]

/-! ## Scanning -/

/-- An optional sign. -/
def sign : List UInt8 → Int × List UInt8
  | [] => (1, [])
  | c :: s => if c = 0x2d then (-1, s) else if c = 0x2b then (1, s) else (1, c :: s)

/-- The conversion `%d`: white space, a sign, and at least one digit; the number and what
    follows it. -/
def scanInt (s : List UInt8) : Option (Int × List UInt8) :=
  let t := sign (s.dropWhile isspace)
  match t.2.takeWhile isdigit with
  | [] => none
  | ds => some (t.1 * value ds, t.2.dropWhile isdigit)

/-- A number that is too large or too small becomes the nearest one of `w` bits. -/
def saturate (w : Nat) (n : Int) : Int := max (-2 ^ (w - 1)) (min n (2 ^ (w - 1) - 1))

/-- Storing a number in an `int`. -/
def toInt32 (n : Int) : Int := n.bmod (2 ^ 32)

/-- What `sscanf` stores for `%d`: it converts to the widest type first. -/
def stored (n : Int) : Int := toInt32 (saturate 64 n)

theorem stored_nat {n : Nat} : stored n = n ↔ n < 2 ^ 31 := by
  rw [stored, saturate, toInt32, Int.bmod_def]
  split_ifs
  all_goals omega

/-- The variable of a `%d`: the number that is scanned, or what it held before. -/
def scanned (s : List UInt8) (old : Int) : Int :=
  ((scanInt s).map Prod.fst).elim old stored

/-- `atoi`, where a `long` has `w` bits. -/
def atoi (w : Nat) (s : List UInt8) : Int :=
  match scanInt s with
  | none => 0
  | some (n, _) => toInt32 (saturate w n)

/-- `%d` on digits reads them all, and nothing else. -/
theorem scanInt_digits {ds rest : List UInt8} (hne : ds ≠ []) (hd : ∀ c ∈ ds, isdigit c = true)
    (hrest : ∀ c ∈ rest.head?, isdigit c = false) :
    scanInt (ds ++ rest) = some ((value ds : Int), rest) := by
  obtain ⟨htake, hdrop⟩ := span_run hd hrest
  cases ds with
  | nil => exact absurd rfl hne
  | cons c ds =>
      have hc := hd c (List.mem_cons_self ..)
      have hsign : c ≠ 0x2d ∧ c ≠ 0x2b := by
        constructor
        all_goals
          rintro rfl
          exact absurd hc (by decide)
      have hskip : (c :: ds ++ rest).dropWhile isspace = c :: (ds ++ rest) :=
        List.dropWhile_cons_of_neg (by rw [digit_not_space hc]; decide)
      rw [scanInt, hskip, sign, if_neg hsign.1, if_neg hsign.2]
      rw [List.cons_append] at htake hdrop
      simp only [htake, hdrop, Int.one_mul]

/-- What follows a character that cannot be part of a number is not looked at. -/
theorem scanInt_stop (s rest : List UInt8) {c : UInt8} (hc : isdigit c = false)
    (hsp : isspace c = false) (hsign : c ≠ 0x2d ∧ c ≠ 0x2b) :
    (scanInt (s ++ c :: rest)).map Prod.fst = (scanInt s).map Prod.fst := by
  have hskip : (s ++ c :: rest).dropWhile isspace = s.dropWhile isspace ++ c :: rest := by
    rw [List.dropWhile_append]
    cases hs : s.dropWhile isspace with
    | nil => exact List.dropWhile_cons_of_neg (by simp [hsp])
    | cons x t => rfl
  have hparts : (sign (s.dropWhile isspace ++ c :: rest)).1 = (sign (s.dropWhile isspace)).1 ∧
      (sign (s.dropWhile isspace ++ c :: rest)).2 =
        (sign (s.dropWhile isspace)).2 ++ c :: rest := by
    cases s.dropWhile isspace with
    | nil => simp [sign, hsign.1, hsign.2]
    | cons x t =>
        rw [List.cons_append, sign, sign]
        split_ifs <;> exact ⟨rfl, rfl⟩
  rw [scanInt, scanInt, hskip, hparts.1, hparts.2]
  rw [takeWhile_stop _ _ hc]
  cases (sign (s.dropWhile isspace)).2.takeWhile isdigit <;> rfl

end Numeral
