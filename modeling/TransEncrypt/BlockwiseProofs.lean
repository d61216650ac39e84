import Mathlib.Data.List.Basic
import Mathlib.Logic.Function.Iterate
import Mathlib.Tactic.Common

/-! # Blockwise maps — a block permutation applied to every complete block

    A block cipher without chaining acts on a byte string block by block and
    leaves an incomplete last block alone.  `mapBlocks` is the loop over the
    first `n` blocks, `mapAll` the loop over all complete ones.

    * `mapTurns` is a loop whose turns come to places of any kind, `mapTurns_block`
      what it leaves of a block that no other place meets;
    * `mapAll_append` splits at a block boundary, so `mapAll_take` and
      `mapAll_drop` commute with cuts there;
    * `BlockPerm` carries a permutation of the blocks with its inverse, and
      `dec_window` decrypts what was read out of an encrypted string from a block
      boundary on, wherever the read ended. -/

namespace Blockwise

variable {α : Type}

/-- `f` applied to each of the first `n` blocks of `b` elements, in place. -/
def mapBlocks (b : Nat) (f : List α → List α) : Nat → List α → List α
  | 0, l => l
  | n + 1, l => f (l.take b) ++ mapBlocks b f n (l.drop b)

/-- `f` applied to every complete block; an incomplete last block stays. -/
def mapAll (b : Nat) (f : List α → List α) (l : List α) : List α :=
  mapBlocks b f (l.length / b) l

/-- `f` keeps the length of a block. -/
def KeepsBlock (b : Nat) (f : List α → List α) : Prop :=
  ∀ x, x.length = b → (f x).length = b

@[simp] theorem mapBlocks_zero (b : Nat) (f : List α → List α) (l : List α) :
    mapBlocks b f 0 l = l := rfl

theorem mapBlocks_succ (b : Nat) (f : List α → List α) (n : Nat) (l : List α) :
    mapBlocks b f (n + 1) l = f (l.take b) ++ mapBlocks b f n (l.drop b) := rfl

section Lengths

variable {b : Nat} {f : List α → List α}

theorem mapBlocks_length (hf : KeepsBlock b f) :
    ∀ (n : Nat) (l : List α), n * b ≤ l.length →
      (mapBlocks b f n l).length = l.length := by
  intro n
  induction n with
  | zero => intro l _; rfl
  | succ n ih =>
      intro l h
      rw [Nat.succ_mul] at h
      have hhead : (f (l.take b)).length = b := by
        apply hf
        rw [List.length_take]
        omega
      rw [mapBlocks_succ, List.length_append, hhead, ih, List.length_drop]
      · omega
      · rw [List.length_drop]
        omega

theorem mapAll_length (hf : KeepsBlock b f) (l : List α) :
    (mapAll b f l).length = l.length :=
  mapBlocks_length hf _ l (Nat.div_mul_le_self _ _)

/-- The loop does not look past its last block. -/
theorem mapBlocks_append (f : List α → List α) :
    ∀ (n : Nat) (l r : List α), n * b ≤ l.length →
      mapBlocks b f n (l ++ r) = mapBlocks b f n l ++ r := by
  intro n
  induction n with
  | zero => intro l r _; rfl
  | succ n ih =>
      intro l r h
      rw [Nat.succ_mul] at h
      have htake : (l ++ r).take b = l.take b :=
        List.take_append_of_le_length (by omega)
      have hdrop : (l ++ r).drop b = l.drop b ++ r :=
        List.drop_append_of_le_length (by omega)
      rw [mapBlocks_succ, mapBlocks_succ, htake, hdrop, ih _ r, List.append_assoc]
      rw [List.length_drop]
      omega

/-- The first `m` blocks and the next `n` are handled independently. -/
theorem mapBlocks_add (f : List α → List α) :
    ∀ (m n : Nat) (l : List α), m * b ≤ l.length →
      mapBlocks b f (m + n) l
        = mapBlocks b f m (l.take (m * b)) ++ mapBlocks b f n (l.drop (m * b)) := by
  intro m
  induction m with
  | zero => intro n l _; rw [Nat.zero_add, Nat.zero_mul]; rfl
  | succ m ih =>
      intro n l h
      rw [Nat.succ_mul] at h
      have htake : (l.take ((m + 1) * b)).take b = l.take b := by
        rw [List.take_take, Nat.succ_mul]
        congr 1
        omega
      have hdrop : (l.take ((m + 1) * b)).drop b = (l.drop b).take (m * b) := by
        rw [List.drop_take, Nat.succ_mul]
        congr 1
        omega
      rw [Nat.succ_add, mapBlocks_succ, mapBlocks_succ, htake, hdrop, ih n (l.drop b),
        List.drop_drop, List.append_assoc]
      · congr 4
        rw [Nat.succ_mul]
        omega
      · rw [List.length_drop]
        omega

/-- What lies behind the loop is left. -/
theorem mapBlocks_drop (hf : KeepsBlock b f) (n : Nat) (l : List α) (h : n * b ≤ l.length) :
    (mapBlocks b f n l).drop (n * b) = l.drop (n * b) := by
  have hlen : (l.take (n * b)).length = n * b := by
    rw [List.length_take]
    omega
  have hsplit := mapBlocks_add f n 0 l h
  rw [Nat.add_zero, mapBlocks_zero] at hsplit
  rw [hsplit]
  exact List.drop_left' (by rw [mapBlocks_length hf _ _ (Nat.le_of_eq hlen.symm), hlen])

/-- The loop maps each of its blocks by itself. -/
theorem mapBlocks_block (hf : KeepsBlock b f) {n k : Nat} (hk : k < n) (l : List α)
    (h : n * b ≤ l.length) :
    ((mapBlocks b f n l).drop (k * b)).take b = f ((l.drop (k * b)).take b) := by
  obtain ⟨r, rfl⟩ : ∃ r, n = k + (r + 1) := ⟨n - k - 1, by omega⟩
  rw [Nat.add_mul, Nat.succ_mul] at h
  have hlen : (l.take (k * b)).length = k * b := by
    rw [List.length_take]
    omega
  have hfirst : (mapBlocks b f k (l.take (k * b))).length = k * b := by
    rw [mapBlocks_length hf _ _ (Nat.le_of_eq hlen.symm), hlen]
  have hblock : (f ((l.drop (k * b)).take b)).length = b := by
    apply hf
    rw [List.length_take, List.length_drop]
    omega
  rw [mapBlocks_add f k (r + 1) l (by omega), List.drop_left' hfirst, mapBlocks_succ,
    List.take_left' hblock]

theorem mapAll_short {l : List α} (h : l.length < b) : mapAll b f l = l := by
  rw [mapAll, Nat.div_eq_of_lt h, mapBlocks_zero]

variable (hb : 0 < b)
include hb

/-- A string of whole blocks: all of them are mapped. -/
theorem mapAll_blocks {m : Nat} {l : List α} (h : l.length = m * b) :
    mapAll b f l = mapBlocks b f m l := by
  rw [mapAll, h, Nat.mul_div_cancel _ hb]

/-- Splitting at a block boundary. -/
theorem mapAll_append {m : Nat} {l : List α} (h : l.length = m * b) (r : List α) :
    mapAll b f (l ++ r) = mapAll b f l ++ mapAll b f r := by
  have hcount : (l ++ r).length / b = m + r.length / b := by
    rw [List.length_append, h, Nat.add_comm, Nat.add_mul_div_right _ _ hb]
    omega
  rw [mapAll, hcount, mapBlocks_add f m _ _ (by rw [List.length_append]; omega), ← h,
    List.take_left, List.drop_left, mapAll_blocks hb h]
  rfl

/-- Splitting in front of a block that is there. -/
theorem mapAll_split (f : List α → List α) {l : List α} {m : Nat} (h : m * b ≤ l.length) :
    mapAll b f l = mapAll b f (l.take (m * b)) ++ mapAll b f (l.drop (m * b)) := by
  have hlen : (l.take (m * b)).length = m * b := by
    rw [List.length_take]
    omega
  rw [← mapAll_append (f := f) hb hlen, List.take_append_drop]

theorem mapAll_take (hf : KeepsBlock b f) (l : List α) (m : Nat) :
    (mapAll b f l).take (m * b) = mapAll b f (l.take (m * b)) := by
  by_cases h : m * b ≤ l.length
  · rw [mapAll_split hb f h]
    exact List.take_left' (by rw [mapAll_length hf, List.length_take]; omega)
  · rw [List.take_of_length_le (by rw [mapAll_length hf]; omega),
      List.take_of_length_le (by omega)]

theorem mapAll_drop (hf : KeepsBlock b f) (l : List α) (m : Nat) :
    (mapAll b f l).drop (m * b) = mapAll b f (l.drop (m * b)) := by
  by_cases h : m * b ≤ l.length
  · rw [mapAll_split hb f h]
    exact List.drop_left' (by rw [mapAll_length hf, List.length_take]; omega)
  · rw [List.drop_eq_nil_of_le (by rw [mapAll_length hf]; omega),
      List.drop_eq_nil_of_le (by omega)]
    rw [mapAll_short (by rw [List.length_nil]; exact hb)]

end Lengths

/-! ## Places given by an index -/

/-- `f` applied to the `b` elements from `o` on, in place. -/
def mapAt (b : Nat) (f : List α → List α) (o : Nat) (l : List α) : List α :=
  l.take o ++ f ((l.drop o).take b) ++ l.drop (o + b)

/-- `f` applied in `n` turns, the `i`-th of them at `place i`. -/
def mapTurns (b : Nat) (f : List α → List α) (place : Nat → Nat) : Nat → List α → List α
  | 0, l => l
  | n + 1, l => mapAt b f (place n) (mapTurns b f place n l)

/-- How many of `n` turns come to the place `o`. -/
def turnsAt (place : Nat → Nat) (o : Nat) : Nat → Nat
  | 0 => 0
  | n + 1 => turnsAt place o n + if place n = o then 1 else 0

section Turns

variable {b : Nat} {f : List α → List α} {place : Nat → Nat}

theorem mapAt_length (hf : KeepsBlock b f) {o : Nat} {l : List α} (h : o + b ≤ l.length) :
    (mapAt b f o l).length = l.length := by
  have hblock : (f ((l.drop o).take b)).length = b := by
    apply hf
    rw [List.length_take, List.length_drop]
    omega
  rw [mapAt, List.length_append, List.length_append, hblock, List.length_take, List.length_drop]
  omega

theorem mapTurns_length (hf : KeepsBlock b f) {n : Nat} {l : List α}
    (h : ∀ i < n, place i + b ≤ l.length) : (mapTurns b f place n l).length = l.length := by
  induction n with
  | zero => rfl
  | succ n ih =>
      have hlen := ih fun i hi => h i (by omega)
      rw [mapTurns, mapAt_length hf (by rw [hlen]; exact h n (by omega)), hlen]

/-- A turn at a block maps that block. -/
theorem mapAt_same (hf : KeepsBlock b f) {o : Nat} {l : List α} (h : o + b ≤ l.length) :
    ((mapAt b f o l).drop o).take b = f ((l.drop o).take b) := by
  have hfirst : (l.take o).length = o := by
    rw [List.length_take]
    omega
  have hblock : (f ((l.drop o).take b)).length = b := by
    apply hf
    rw [List.length_take, List.length_drop]
    omega
  rw [mapAt, List.append_assoc, List.drop_left' hfirst, List.take_left' hblock]

/-- A turn at another block leaves this one. -/
theorem mapAt_other (hf : KeepsBlock b f) {o k : Nat} {l : List α} (h : o + b ≤ l.length)
    (hne : k + b ≤ o ∨ o + b ≤ k) :
    ((mapAt b f o l).drop k).take b = (l.drop k).take b := by
  have hfirst : (l.take o).length = o := by
    rw [List.length_take]
    omega
  have hblock : (f ((l.drop o).take b)).length = b := by
    apply hf
    rw [List.length_take, List.length_drop]
    omega
  rw [mapAt]
  rcases hne with hbefore | hbehind
  · rw [List.append_assoc, List.drop_append_of_le_length (by omega),
      List.take_append_of_le_length (by rw [List.length_drop]; omega), List.drop_take,
      List.take_take, Nat.min_eq_left (by omega)]
  · have htwo : (l.take o ++ f ((l.drop o).take b)).length = o + b := by
      rw [List.length_append, hfirst, hblock]
    rw [List.drop_append, List.drop_eq_nil_of_le (by omega), List.nil_append, htwo,
      List.drop_drop]
    congr 2
    omega

/-- **What the turns leave of a block**: the map, as often as they came to it. -/
theorem mapTurns_block (hf : KeepsBlock b f) {k n : Nat} {l : List α}
    (h : ∀ i < n, place i + b ≤ l.length)
    (hplace : ∀ i < n, place i = k ∨ k + b ≤ place i ∨ place i + b ≤ k) :
    ((mapTurns b f place n l).drop k).take b = f^[turnsAt place k n] ((l.drop k).take b) := by
  induction n with
  | zero => rfl
  | succ n ih =>
      have hrest := ih (fun i hi => h i (by omega)) (fun i hi => hplace i (by omega))
      have hlen : place n + b ≤ (mapTurns b f place n l).length := by
        rw [mapTurns_length hf fun i hi => h i (by omega)]
        exact h n (by omega)
      rw [mapTurns, turnsAt]
      by_cases hk : place n = k
      · rw [if_pos hk, Function.iterate_succ_apply', ← hrest, ← hk]
        exact mapAt_same hf hlen
      · rw [if_neg hk, Nat.add_zero, ← hrest]
        exact mapAt_other hf hlen ((hplace n (by omega)).resolve_left hk)

end Turns
/-! ## Block permutations -/

/-- A permutation of the blocks of `b` elements, with its inverse. -/
structure BlockPerm (α : Type) (b : Nat) where
  enc : List α → List α
  dec : List α → List α
  enc_length : KeepsBlock b enc
  dec_length : KeepsBlock b dec
  dec_enc : ∀ x, x.length = b → dec (enc x) = x
  enc_dec : ∀ x, x.length = b → enc (dec x) = x

namespace BlockPerm

variable {b : Nat} (c : BlockPerm α b)

/-- `z`, with the blocks `x` and `y` exchanged. -/
def exchange [DecidableEq α] (x y z : List α) : List α :=
  if z = x then y else if z = y then x else z

private theorem exchange_length [DecidableEq α] {x y : List α} (hx : x.length = b)
    (hy : y.length = b) : KeepsBlock b (exchange x y) := by
  intro z hz
  unfold exchange
  split
  · exact hy
  · split
    · exact hx
    · exact hz

private theorem exchange_exchange [DecidableEq α] (x y z : List α) :
    exchange x y (exchange x y z) = z := by
  unfold exchange
  by_cases h1 : z = x
  · by_cases h2 : y = x
    · rw [if_pos h1, if_pos h2, h1, h2]
    · rw [if_pos h1, if_neg h2, if_pos rfl, h1]
  · by_cases h2 : z = y
    · rw [if_neg h1, if_pos h2, if_pos rfl, h2]
    · rw [if_neg h1, if_neg h2, if_neg h1, if_neg h2]

/-- The permutation that exchanges two blocks. -/
def swap [DecidableEq α] (x y : List α) (hx : x.length = b) (hy : y.length = b) :
    BlockPerm α b where
  enc := exchange x y
  dec := exchange x y
  enc_length := exchange_length hx hy
  dec_length := exchange_length hx hy
  dec_enc := fun z _ => exchange_exchange x y z
  enc_dec := fun z _ => exchange_exchange x y z

/-- Every complete block encrypted, the incomplete last block as it is. -/
def encAll (l : List α) : List α := mapAll b c.enc l

@[simp] theorem encAll_length (l : List α) : (c.encAll l).length = l.length :=
  mapAll_length c.enc_length l

/-- Decrypting the blocks of an encrypted string of whole blocks. -/
theorem dec_enc_blocks :
    ∀ (n : Nat) (l : List α), n * b ≤ l.length →
      mapBlocks b c.dec n (mapBlocks b c.enc n l) = l := by
  intro n
  induction n with
  | zero => intro l _; rfl
  | succ n ih =>
      intro l h
      rw [Nat.succ_mul] at h
      have hblock : (l.take b).length = b := by
        rw [List.length_take]
        omega
      have henc := c.enc_length _ hblock
      rw [mapBlocks_succ b c.enc, mapBlocks_succ b c.dec, List.take_left' henc,
        List.drop_left' henc, c.dec_enc _ hblock, ih, List.take_append_drop]
      rw [List.length_drop]
      omega

/-- The same blocks the other way round. -/
def inverse : BlockPerm α b where
  enc := c.dec
  dec := c.enc
  enc_length := c.dec_length
  dec_length := c.enc_length
  dec_enc := c.enc_dec
  enc_dec := c.dec_enc

/-- Every string is what some string is encrypted to. -/
theorem encAll_surjective (l : List α) : ∃ l', c.encAll l' = l := by
  refine ⟨c.inverse.encAll l, ?_⟩
  have h := c.inverse.dec_enc_blocks (l.length / b) l (Nat.div_mul_le_self _ _)
  rw [encAll, mapAll, c.inverse.encAll_length]
  exact h

variable (hb : 0 < b)
include hb

/-- What is read from a block boundary of an encrypted string on, `m` blocks or up
    to the end, decrypts to the plain string: the number of complete blocks in the
    bytes that arrived is the number of blocks to decrypt. -/
theorem dec_window (l : List α) (m : Nat) :
    mapBlocks b c.dec (((c.encAll l).take (m * b)).length / b)
        ((c.encAll l).take (m * b)) = l.take (m * b) := by
  rw [encAll, mapAll_take hb c.enc_length, mapAll_length c.enc_length, mapAll]
  exact c.dec_enc_blocks _ _ (Nat.div_mul_le_self _ _)

theorem encAll_injective {l l' : List α} (h : c.encAll l = c.encAll l') : l = l' := by
  have hlen : l.length = l'.length := by
    rw [← c.encAll_length l, h, c.encAll_length]
  have hm : l.length ≤ l.length * b := Nat.le_mul_of_pos_right _ hb
  have h1 := c.dec_window hb l l.length
  have h2 := c.dec_window hb l' l.length
  rw [h, h2, List.take_of_length_le (by omega), List.take_of_length_le hm] at h1
  exact h1.symm

end BlockPerm

end Blockwise
