import Mathlib.Algebra.Order.Ring.Int
import Mathlib.Data.List.Basic
import Mathlib.Tactic.Common

/-! # Overlays — what a positional write makes of a byte string

    A regular file is a list.  Writing `d` at offset `off` replaces the elements
    `off .. off + d.length`, fills a gap before `off` with a filler element, and
    leaves the rest alone; writing nothing changes nothing, not even the length.

    * `overlay_get` says element by element what a write leaves;
    * `overlay_append_left` moves a write past a prefix it does not touch;
    * `overlay_overlay` joins two adjacent writes into one;
    * `overlay_eq_overlay_iff` compares two writes. -/

namespace Overlay

variable {α : Type}

/-- `l` after the elements `d` have been stored at offset `off`; a gap between
    the end of `l` and `off` is filled with `z`. -/
def overlay (z : α) (l : List α) (off : Nat) : List α → List α
  | [] => l
  | a :: d =>
      (l ++ List.replicate (off - l.length) z).take off ++ (a :: d)
        ++ l.drop (off + (a :: d).length)

/-- The elements `off .. off + n`, cut at the end of the list. -/
def slice (l : List α) (off n : Nat) : List α := (l.drop off).take n

@[simp] theorem overlay_nil (z : α) (l : List α) (off : Nat) :
    overlay z l off [] = l := rfl

theorem overlay_eq {z : α} {l : List α} {off : Nat} {d : List α} (hd : d ≠ []) :
    overlay z l off d = (l ++ List.replicate (off - l.length) z).take off ++ d
      ++ l.drop (off + d.length) := by
  cases d with
  | nil => exact absurd rfl hd
  | cons a d => rfl

private theorem pad_length (z : α) (l : List α) (off : Nat) :
    ((l ++ List.replicate (off - l.length) z).take off).length = off := by
  simp only [List.length_take, List.length_append, List.length_replicate]
  omega

/-- Element by element: the new data, then the filler in a gap, else the old
    element. -/
theorem overlay_get {z : α} {l : List α} {off : Nat} {d : List α} (hd : d ≠ [])
    (i : Nat) :
    (overlay z l off d)[i]? =
      if i < off then (if i < l.length then l[i]? else some z)
      else if i < off + d.length then d[i - off]? else l[i]? := by
  rw [overlay_eq hd, List.append_assoc, List.getElem?_append, pad_length]
  by_cases h1 : i < off
  · rw [if_pos h1, if_pos h1, List.getElem?_take, if_pos h1, List.getElem?_append]
    by_cases h2 : i < l.length
    · rw [if_pos h2, if_pos h2]
    · rw [if_neg h2, if_neg h2, List.getElem?_replicate, if_pos (by omega)]
  · rw [if_neg h1, if_neg h1, List.getElem?_append]
    by_cases h2 : i < off + d.length
    · rw [if_pos h2, if_pos (by omega)]
    · rw [if_neg h2, if_neg (by omega), List.getElem?_drop]
      congr 1
      omega

theorem overlay_length {z : α} {l : List α} {off : Nat} {d : List α} (hd : d ≠ []) :
    (overlay z l off d).length = max l.length (off + d.length) := by
  have hpos : 0 < d.length := List.length_pos_iff.mpr hd
  rw [overlay_eq hd, List.length_append, List.length_append, pad_length,
    List.length_drop]
  omega

theorem le_overlay_length (z : α) (l : List α) (off : Nat) (d : List α) :
    l.length ≤ (overlay z l off d).length := by
  by_cases hd : d = []
  · exact Nat.le_of_eq (by rw [hd, overlay_nil])
  · rw [overlay_length hd]
    exact Nat.le_max_left _ _

theorem overlay_length_of_le {z : α} {l : List α} {off : Nat} {d : List α}
    (h : off + d.length ≤ l.length) : (overlay z l off d).length = l.length := by
  by_cases hd : d = []
  · rw [hd, overlay_nil]
  · rw [overlay_length hd]
    omega

/-- A write at the end is an append. -/
theorem overlay_end (z : α) (l d : List α) : overlay z l l.length d = l ++ d := by
  by_cases hd : d = []
  · rw [hd, overlay_nil, List.append_nil]
  · rw [overlay_eq hd, Nat.sub_self, List.replicate_zero, List.append_nil,
      List.take_length, List.drop_eq_nil_of_le (by omega), List.append_nil]

/-- A write from the start. -/
theorem overlay_start (z : α) (l d : List α) : overlay z l 0 d = d ++ l.drop d.length := by
  by_cases hd : d = []
  · rw [hd, overlay_nil]
    rfl
  · rw [overlay_eq hd, List.take_zero, List.nil_append, Nat.zero_add]

/-- A write from the start that reaches the end replaces everything. -/
theorem overlay_all (z : α) {l d : List α} (h : l.length ≤ d.length) :
    overlay z l 0 d = d := by
  rw [overlay_start, List.drop_eq_nil_of_le h, List.append_nil]

/-- Writing what is there already. -/
theorem overlay_same_iff (z : α) (l d : List α) : overlay z l 0 d = l ↔ d <+: l := by
  rw [overlay_start]
  constructor
  · intro h
    exact ⟨l.drop d.length, h⟩
  · rintro ⟨t, rfl⟩
    rw [List.drop_left]

/-- Filler behind the end is written over, or stays. -/
theorem overlay_fill (z : α) (l : List α) (k off : Nat) (d : List α) :
    ∃ k', overlay z (l ++ List.replicate k z) off d
      = overlay z l off d ++ List.replicate k' z ∧ k' ≤ k := by
  by_cases hd : d = []
  · exact ⟨k, by rw [hd, overlay_nil, overlay_nil], Nat.le_refl k⟩
  · refine ⟨max (l.length + k) (off + d.length) - max l.length (off + d.length), ?_, by omega⟩
    apply List.ext_getElem?
    intro i
    have hleft := @overlay_get α z (l ++ List.replicate k z) off d hd i
    rw [List.length_append, List.length_replicate, List.getElem?_append,
      List.getElem?_replicate] at hleft
    rw [hleft, List.getElem?_append, overlay_length hd, overlay_get hd, List.getElem?_replicate]
    split_ifs
    all_goals first
      | rfl
      | omega

/-- A write behind a prefix leaves the prefix and writes into the rest. -/
theorem overlay_append_left (z : α) (h l : List α) (off : Nat) (d : List α) :
    overlay z (h ++ l) (h.length + off) d = h ++ overlay z l off d := by
  by_cases hd : d = []
  · rw [hd, overlay_nil, overlay_nil]
  · apply List.ext_getElem?
    intro i
    rw [overlay_get hd, List.getElem?_append, List.length_append,
      List.getElem?_append]
    by_cases h1 : i < h.length
    · rw [if_pos h1, if_pos h1, if_pos (by omega), if_pos (by omega)]
    · rw [if_neg h1, if_neg h1, overlay_get hd]
      by_cases h2 : i < h.length + off
      · rw [if_pos h2, if_pos (by omega : i - h.length < off)]
        by_cases h3 : i < h.length + l.length
        · rw [if_pos h3, if_pos (by omega)]
        · rw [if_neg h3, if_neg (by omega)]
      · rw [if_neg h2, if_neg (by omega : ¬ i - h.length < off)]
        by_cases h3 : i < h.length + off + d.length
        · rw [if_pos h3, if_pos (by omega)]
          congr 1
          omega
        · rw [if_neg h3, if_neg (by omega)]

/-- Two adjacent writes are one write. -/
theorem overlay_overlay (z : α) (l : List α) (off : Nat) (a b : List α) :
    overlay z (overlay z l off a) (off + a.length) b = overlay z l off (a ++ b) := by
  by_cases ha : a = []
  · rw [ha, overlay_nil, List.nil_append, List.length_nil, Nat.add_zero]
  · by_cases hb : b = []
    · rw [hb, overlay_nil, List.append_nil]
    · have hab : a ++ b ≠ [] := by simp [ha]
      have hpos : 0 < a.length := List.length_pos_iff.mpr ha
      apply List.ext_getElem?
      intro i
      rw [overlay_get hb, overlay_length ha, overlay_get ha, overlay_get hab,
        List.length_append, List.getElem?_append]
      by_cases h1 : i < off
      · rw [if_pos h1, if_pos (by omega), if_pos (by omega), if_pos h1]
      · rw [if_neg h1, if_neg h1]
        by_cases h2 : i < off + a.length
        · rw [if_pos h2, if_pos (by omega), if_pos h2, if_pos (by omega),
            if_pos (by omega)]
        · rw [if_neg h2, if_neg h2]
          by_cases h3 : i < off + a.length + b.length
          · rw [if_pos h3, if_pos (by omega), if_neg (by omega)]
            congr 1
            omega
          · rw [if_neg h3, if_neg (by omega)]

/-- A write does not touch what lies before it. -/
theorem overlay_take {z : α} {l : List α} {off m : Nat} {d : List α}
    (hm : m ≤ off) (hl : m ≤ l.length) :
    (overlay z l off d).take m = l.take m := by
  by_cases hd : d = []
  · rw [hd, overlay_nil]
  · apply List.ext_getElem?
    intro i
    rw [List.getElem?_take, List.getElem?_take]
    by_cases h : i < m
    · rw [if_pos h, if_pos h, overlay_get hd, if_pos (by omega), if_pos (by omega)]
    · rw [if_neg h, if_neg h]

/-! ## Slices -/

@[simp] theorem slice_zero (l : List α) (off : Nat) : slice l off 0 = [] :=
  List.take_zero

theorem slice_length (l : List α) (off n : Nat) :
    (slice l off n).length = min n (l.length - off) := by
  rw [slice, List.length_take, List.length_drop]

/-- Two adjacent slices are one slice. -/
theorem slice_append (l : List α) (off m n : Nat) :
    slice l off m ++ slice l (off + m) n = slice l off (m + n) := by
  rw [slice, slice, slice, List.take_add, List.drop_drop]

theorem slice_past {l : List α} {off : Nat} (h : l.length ≤ off) (n : Nat) :
    slice l off n = [] := by
  rw [slice, List.drop_eq_nil_of_le h, List.take_nil]

/-- A slice behind a prefix is a slice of the rest. -/
theorem slice_append_left (h l : List α) (off n : Nat) :
    slice (h ++ l) (h.length + off) n = slice l off n := by
  rw [slice, slice, ← List.drop_drop, List.drop_left]

theorem slice_all {l : List α} {n : Nat} (h : l.length ≤ n) : slice l 0 n = l := by
  rw [slice, List.drop_zero, List.take_of_length_le h]

theorem slice_get (l : List α) (off n i : Nat) :
    (slice l off n)[i]? = if i < n then l[off + i]? else none := by
  rw [slice, List.getElem?_take, List.getElem?_drop]

/-- Lists that agree block by block are equal. -/
theorem ext_blocks {b : Nat} (hb : 0 < b) {l l' : List α}
    (h : ∀ k, slice l (k * b) b = slice l' (k * b) b) : l = l' := by
  apply List.ext_getElem?
  intro i
  have hi := congrArg (fun x : List α => x[i % b]?) (h (i / b))
  have hlt := Nat.mod_lt i hb
  have hdm := Nat.div_add_mod' i b
  simp only [slice_get, if_pos hlt, hdm] at hi
  exact hi

/-- In front of a write the list is as it was, followed by the filler. -/
theorem slice_overlay_before (z : α) (l : List α) {off a n : Nat} {d : List α}
    (hd : d ≠ []) (h : a + n ≤ off) :
    slice (overlay z l off d) a n = slice (l ++ List.replicate (off - l.length) z) a n := by
  apply List.ext_getElem?
  intro i
  rw [slice_get, slice_get]
  by_cases hi : i < n
  · rw [if_pos hi, if_pos hi, overlay_get hd, if_pos (by omega), List.getElem?_append]
    by_cases hl : a + i < l.length
    · rw [if_pos hl, if_pos hl]
    · rw [if_neg hl, if_neg hl, List.getElem?_replicate, if_pos (by omega)]
  · rw [if_neg hi, if_neg hi]

/-- A window that starts at or behind the place of a write sees the overlay of the
    two windows. -/
theorem slice_overlay (z : α) (l : List α) {off a : Nat} (n : Nat) (d : List α)
    (h : off ≤ a) :
    slice (overlay z l off d) a n = overlay z (slice l a n) 0 (slice d (a - off) n) := by
  by_cases hd : d = []
  · rw [hd, overlay_nil]
    have hnil : slice ([] : List α) (a - off) n = [] := slice_past (Nat.zero_le _) n
    rw [hnil, overlay_nil]
  · by_cases hs : slice d (a - off) n = []
    · -- the window is empty or behind the written data
      rw [hs, overlay_nil]
      apply List.ext_getElem?
      intro i
      have hlen := congrArg List.length hs
      rw [slice_length, List.length_nil] at hlen
      rw [slice_get, slice_get]
      by_cases hi : i < n
      · rw [if_pos hi, if_pos hi, overlay_get hd, if_neg (by omega), if_neg (by omega)]
      · rw [if_neg hi, if_neg hi]
    · apply List.ext_getElem?
      intro i
      rw [slice_get, overlay_get hs, if_neg (Nat.not_lt_zero i), slice_length,
        Nat.sub_zero, slice_get, slice_get]
      by_cases hi : i < n
      · rw [if_pos hi, if_pos hi, if_pos hi, overlay_get hd, if_neg (by omega)]
        by_cases hin : a + i < off + d.length
        · rw [if_pos hin, if_pos (by omega)]
          congr 1
          omega
        · rw [if_neg hin, if_neg (by omega)]
      · rw [if_neg hi, if_neg (by omega), if_neg hi]

/-- A write may be started earlier when it begins with what is there, a gap filled
    up. -/
theorem overlay_back (z : α) (l : List α) (q t : Nat) {d : List α} (hd : d ≠ []) :
    overlay z l (q + t) d =
      overlay z l q (slice l q t ++ List.replicate (t - (slice l q t).length) z ++ d) := by
  have hne : slice l q t ++ List.replicate (t - (slice l q t).length) z ++ d ≠ [] := by
    simp [hd]
  have hlen : (slice l q t ++ List.replicate (t - (slice l q t).length) z).length = t := by
    rw [List.length_append, List.length_replicate, slice_length]
    omega
  apply List.ext_getElem?
  intro i
  rw [overlay_get hd, overlay_get hne, List.length_append, hlen, List.getElem?_append,
    hlen, List.getElem?_append, slice_length, slice_get, List.getElem?_replicate]
  by_cases h1 : i < q
  · rw [if_pos h1, if_pos (by omega)]
  · rw [if_neg h1]
    by_cases h2 : i < q + t
    · -- the old bytes, and the filler behind the end
      have hi : i - q < t := by omega
      rw [if_pos h2, if_pos (by omega : i < q + (t + d.length)), if_pos hi]
      by_cases h3 : i < l.length
      · rw [if_pos h3, if_pos (by omega), if_pos hi]
        congr 1
        omega
      · rw [if_neg h3, if_neg (by omega), if_pos (by omega)]
    · rw [if_neg h2, if_neg (by omega : ¬ i - q < t)]
      by_cases h3 : i < q + t + d.length
      · rw [if_pos h3, if_pos (by omega)]
        congr 1
        omega
      · rw [if_neg h3, if_neg (by omega)]

/-- Reading back what was written. -/
theorem slice_overlay_self (z : α) (l : List α) (off : Nat) (d : List α) :
    slice (overlay z l off d) off d.length = d := by
  by_cases hd : d = []
  · rw [hd, List.length_nil, slice_zero]
  · apply List.ext_getElem?
    intro i
    rw [slice, List.getElem?_take, List.getElem?_drop, overlay_get hd]
    by_cases h : i < d.length
    · rw [if_pos h, if_neg (by omega), if_pos (by omega)]
      congr 1
      omega
    · rw [if_neg h, List.getElem?_eq_none (by omega)]

/-! ## Two writes that leave the same -/

/-- An overlay inside the list, element by element. -/
theorem overlay_get_inside (z : α) {l : List α} {off : Nat} {d : List α}
    (h : off + d.length ≤ l.length) (i : Nat) :
    (overlay z l off d)[i]? = if off ≤ i ∧ i < off + d.length then d[i - off]? else l[i]? := by
  by_cases hd : d = []
  · rw [hd, overlay_nil, if_neg (by rw [List.length_nil]; omega)]
  · rw [overlay_get hd]
    by_cases h1 : i < off
    · rw [if_pos h1, if_pos (by omega), if_neg (by omega)]
    · rw [if_neg h1]
      by_cases h2 : i < off + d.length
      · rw [if_pos h2, if_pos ⟨by omega, h2⟩]
      · rw [if_neg h2, if_neg (by omega)]

/-- Where `d` comes to lie at `a`, it is what the list has after `e` has been stored at `b`. -/
def Meets (l : List α) (a : Nat) (d : List α) (b : Nat) (e : List α) : Prop :=
  ∀ i, i < d.length →
    d[i]? = if b ≤ a + i ∧ a + i < b + e.length then e[a + i - b]? else l[a + i]?

/-- Two writes inside the list leave the same when each meets the other. -/
theorem overlay_eq_overlay_iff (z : α) {l d e : List α} {a b : Nat}
    (ha : a + d.length ≤ l.length) (hb : b + e.length ≤ l.length) :
    overlay z l a d = overlay z l b e ↔ Meets l a d b e ∧ Meets l b e a d := by
  constructor
  · intro heq
    have hget := fun i : Nat => congrArg (fun x : List α => x[i]?) heq
    simp only [overlay_get_inside z ha, overlay_get_inside z hb] at hget
    constructor
    · intro i hi
      have h := hget (a + i)
      rw [if_pos (by omega), Nat.add_sub_cancel_left] at h
      exact h
    · intro i hi
      have h := hget (b + i)
      rw [if_pos (show b ≤ b + i ∧ b + i < b + e.length from by omega),
        Nat.add_sub_cancel_left] at h
      exact h.symm
  · rintro ⟨hde, hed⟩
    apply List.ext_getElem?
    intro i
    rw [overlay_get_inside z ha, overlay_get_inside z hb]
    by_cases h1 : a ≤ i ∧ i < a + d.length
    · have h := hde (i - a) (by omega)
      rw [Nat.add_sub_cancel' h1.1] at h
      rw [if_pos h1]
      exact h
    · rw [if_neg h1]
      by_cases h2 : b ≤ i ∧ i < b + e.length
      · have h := hed (i - b) (by omega)
        rw [Nat.add_sub_cancel' h2.1, if_neg h1] at h
        rw [if_pos h2]
        exact h.symm
      · rw [if_neg h2]

end Overlay
