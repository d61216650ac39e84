import Mathlib.Algebra.Order.Ring.Int
import Mathlib.Data.List.Pairwise
import Mathlib.Tactic.Common

/-! # The buffer arithmetic of `read` and `fread`

    Both hooks read whole blocks around the bytes they are asked for, in three pieces, into
    a buffer whose length is computed with signed and unsigned operands of one width; the
    sum inside the modulus may wrap.

    * `bufferLength_eq`: because 16 divides the word size, the length is the one that
      unbounded arithmetic gives, the one of `read_pieces` and `fread_pieces`;
    * `layout`: the pieces fill the buffer, one behind the other;
    * `sound_iff`: with the pieces the calls return, the copy and the decryption stay in
      place exactly while the index of the decryption loop is wide enough. -/

namespace TeBuffer

/-! ## Machine words -/

/-- `size_t`, `ssize_t`, `off_t` and `long` have 32 or 64 bits. -/
inductive Abi where
  | ilp32
  | lp64
  deriving DecidableEq, Repr

/-- The number of values of `size_t`. -/
def Abi.modulus : Abi → Nat
  | .ilp32 => 2 ^ 32
  | .lp64 => 2 ^ 64

def Abi.SSIZE_MAX (abi : Abi) : Nat := abi.modulus / 2 - 1

/-- A value stored in a `size_t`. -/
def Abi.size_t (abi : Abi) (n : Int) : Int := n % abi.modulus

/-- A value stored in an `ssize_t`. -/
def Abi.ssize_t (abi : Abi) (n : Int) : Int := n.bmod abi.modulus

/-- The two functions. -/
inductive Hook where
  | read
  | fread
  deriving DecidableEq, Repr

/-- The type of lengths and counts: signed in `read`, unsigned in `fread`. -/
def Hook.word : Hook → Abi → Int → Int
  | .read => Abi.ssize_t
  | .fread => Abi.size_t

section Arithmetic

variable (abi : Abi) (hook : Hook) (offset count : Nat)

/-- `count + offset%16 + 16 - (count+offset)%16`, every operation in `size_t`. -/
def bufferLength : Int :=
  abi.size_t (abi.size_t (abi.size_t (count + (offset % 16 : Nat)) + 16) -
    abi.size_t (count + offset) % 16)

/-- `tmpcount` of `read`, `temp_count` of `fread`. -/
def tmpcount : Int := hook.word abi (bufferLength abi offset count)

/-- The length asked for behind the bytes that are wanted, `16 - (count + offset)%16`. -/
def suffix : Int := abi.size_t (16 - abi.size_t (count + offset) % 16)

/-- A piece of the buffer: where it starts, and how long it is. -/
structure Piece where
  start : Int
  length : Int

/-- A place in the buffer belongs to a piece. -/
def Piece.Holds (p : Piece) (x : Int) : Prop := p.start ≤ x ∧ x < p.start + p.length

/-- The three pieces. -/
def pieces : List Piece :=
  [⟨0, (offset % 16 : Nat)⟩, ⟨(offset % 16 : Nat), count⟩,
   ⟨(offset % 16 : Nat) + count, suffix abi offset count⟩]

/-- The sum of the counts the three calls return; the last one counts when it is positive. -/
def total (r₁ r₂ r₃ : Nat) : Int :=
  if r₃ > 0 then hook.word abi (hook.word abi (r₁ + r₂) + r₃) else hook.word abi (r₁ + r₂)

/-- Where the `i`-th turn of the decryption loop works, `i*16`: in `read` the index is an
    `int`, whose product must not overflow, in `fread` it is an `unsigned int`, whose product
    wraps. -/
def blockAt (i : Nat) : Option Int :=
  match hook with
  | .read => if i * 16 < 2 ^ 31 then some (i * 16 : Nat) else none
  | .fread => some (i * 16 % 2 ^ 32 : Nat)

/-- How many blocks the index can reach. -/
def Hook.limit : Hook → Nat
  | .read => 2 ^ 27
  | .fread => 2 ^ 28

end Arithmetic

/-! ## The layout -/

section Layout

variable {abi : Abi} {hook : Hook} {offset count : Nat}

/-- **The sum may wrap**: the remainder by 16 is that of the unbounded sum. -/
theorem size_t_mod (n : Nat) : abi.size_t n % 16 = (n % 16 : Nat) := by
  cases abi with
  | ilp32 => rw [Abi.size_t, Abi.modulus]; omega
  | lp64 => rw [Abi.size_t, Abi.modulus]; omega

/-- What fits is not changed by being stored. -/
theorem size_t_small {n : Int} (h0 : 0 ≤ n) (h : n ≤ abi.SSIZE_MAX) : abi.size_t n = n := by
  cases abi with
  | ilp32 => rw [Abi.SSIZE_MAX, Abi.modulus] at h; rw [Abi.size_t, Abi.modulus]; omega
  | lp64 => rw [Abi.SSIZE_MAX, Abi.modulus] at h; rw [Abi.size_t, Abi.modulus]; omega

theorem word_small {n : Int} (h0 : 0 ≤ n) (h : n ≤ abi.SSIZE_MAX) : hook.word abi n = n := by
  cases hook with
  | fread => exact size_t_small h0 h
  | read =>
      show n.bmod abi.modulus = n
      rw [Int.bmod_def]
      cases abi with
      | ilp32 => rw [Abi.SSIZE_MAX, Abi.modulus] at h; rw [Abi.modulus]; omega
      | lp64 => rw [Abi.SSIZE_MAX, Abi.modulus] at h; rw [Abi.modulus]; omega

theorem ssize_max_large (abi : Abi) : 32 < abi.SSIZE_MAX := by
  cases abi <;> decide

theorem suffix_eq : suffix abi offset count = (16 - (count + offset) % 16 : Nat) := by
  have hlarge := ssize_max_large abi
  rw [suffix, show ((count : Int) + offset) = ((count + offset : Nat) : Int) from rfl, size_t_mod,
    size_t_small (by omega) (by omega)]
  omega

/-- **The length of the buffer** is the one of unbounded arithmetic. -/
theorem bufferLength_eq (hcount : count + 32 ≤ abi.SSIZE_MAX) :
    bufferLength abi offset count =
      (count + offset % 16 + 16 - (count + offset) % 16 : Nat) := by
  have hfirst : abi.size_t (count + (offset % 16 : Nat)) = count + (offset % 16 : Nat) :=
    size_t_small (by omega) (by omega)
  have hsecond : abi.size_t (count + (offset % 16 : Nat) + 16) = count + (offset % 16 : Nat) + 16 :=
    size_t_small (by omega) (by omega)
  rw [bufferLength, hfirst, hsecond,
    show ((count : Int) + offset) = ((count + offset : Nat) : Int) from rfl, size_t_mod,
    size_t_small (by omega) (by omega)]
  omega

theorem tmpcount_eq (hcount : count + 32 ≤ abi.SSIZE_MAX) :
    tmpcount abi hook offset count =
      (count + offset % 16 + 16 - (count + offset) % 16 : Nat) := by
  rw [tmpcount, bufferLength_eq hcount, word_small (by omega) (by omega)]

/-- The buffer and its pieces. -/
structure Layout (abi : Abi) (hook : Hook) (offset count : Nat) : Prop where
  positive : 0 < tmpcount abi hook offset count
  whole_blocks : 16 ∣ tmpcount abi hook offset count
  sum : tmpcount abi hook offset count = ((pieces abi offset count).map Piece.length).sum
  disjoint : (pieces abi offset count).Pairwise fun p q => ∀ x, ¬ (p.Holds x ∧ q.Holds x)
  inside : ∀ p ∈ pieces abi offset count, ∀ x, p.Holds x →
    0 ≤ x ∧ x < tmpcount abi hook offset count

theorem layout (hcount : count + 32 ≤ abi.SSIZE_MAX) : Layout abi hook offset count := by
  have hlen : tmpcount abi hook offset count = _ := tmpcount_eq hcount
  have hsuf : suffix abi offset count = _ := suffix_eq
  refine ⟨by omega, by omega, ?_, ?_, ?_⟩
  · simp only [pieces, List.map_cons, List.map_nil, List.sum_cons, List.sum_nil]
    omega
  · simp only [pieces, List.pairwise_cons, List.mem_cons, List.not_mem_nil, or_false,
      forall_eq_or_imp, forall_eq, false_implies, implies_true, and_true,
      List.Pairwise.nil, Piece.Holds]
    refine ⟨⟨?_, ?_⟩, ?_⟩
    all_goals
      intro x h
      omega
  · intro p hp x hx
    simp only [pieces, List.mem_cons, List.not_mem_nil, or_false] at hp
    rw [Piece.Holds] at hx
    rcases hp with rfl | rfl | rfl
    all_goals
      dsimp only at hx
      omega

end Layout

/-! ## What the calls return -/

section Sound

variable {abi : Abi} {hook : Hook} {offset count r₁ r₂ r₃ : Nat}

/-- The loop over the blocks decrypts the front of the buffer: its `i`-th turn works on the
    `i`-th block, and that is inside. -/
def Decrypts (hook : Hook) (blocks length : Int) : Prop :=
  ∀ i : Nat, (i : Int) < blocks →
    blockAt hook i = some ((16 * i : Nat) : Int) ∧ ((16 * i + 16 : Nat) : Int) ≤ length

/-- The arithmetic of one call is right, for the counts that were returned. -/
structure Sound (abi : Abi) (hook : Hook) (offset count r₁ r₂ r₃ : Nat) : Prop where
  layout : Layout abi hook offset count
  total : total abi hook r₁ r₂ r₃ = r₁ + r₂ + r₃
  decrypts : Decrypts hook (TeBuffer.total abi hook r₁ r₂ r₃ / 16) (tmpcount abi hook offset count)
  copied : ((offset % 16 + r₂ : Nat) : Int) ≤ tmpcount abi hook offset count

theorem total_eq (h : r₁ + r₂ + r₃ ≤ abi.SSIZE_MAX) :
    total abi hook r₁ r₂ r₃ = r₁ + r₂ + r₃ := by
  have hfirst : hook.word abi (r₁ + r₂) = r₁ + r₂ := word_small (by omega) (by omega)
  rw [total, hfirst]
  by_cases h3 : r₃ > 0
  · rw [if_pos h3]
    exact word_small (by omega) (by omega)
  · rw [if_neg h3]
    omega

/-- The index reaches a block exactly below its limit. -/
theorem blockAt_iff {i : Nat} :
    blockAt hook i = some ((16 * i : Nat) : Int) ↔ i < hook.limit := by
  cases hook with
  | read =>
      rw [blockAt, Hook.limit]
      split_ifs with h
      · refine iff_of_true ?_ (by omega)
        rw [Nat.mul_comm]
      · exact iff_of_false (fun h' => by cases h') (by omega)
  | fread =>
      rw [blockAt, Hook.limit, Option.some_inj]
      omega

/-- An unsigned index never leaves the blocks below the last one. -/
theorem blockAt_fread_le {i : Nat} {o : Int} (h : blockAt .fread i = some o) :
    0 ≤ o ∧ o ≤ (16 * i : Nat) := by
  rw [blockAt, Option.some_inj] at h
  omega

theorem decrypts_iff {length : Int} {n : Nat} (h : ((16 * n : Nat) : Int) ≤ length) :
    Decrypts hook n length ↔ n ≤ hook.limit := by
  constructor
  · intro hdec
    by_contra hlt
    have := (hdec hook.limit (by omega)).1
    exact absurd (blockAt_iff.mp this) (Nat.lt_irrefl _)
  · intro hle i hi
    exact ⟨blockAt_iff.mpr (by omega), by omega⟩

/-- **When the buffer arithmetic is right**: in either data model, for every offset and every
    count up to `SSIZE_MAX - 32`, and for all counts the calls can return.  The buffer and its
    pieces always are, so are the copy and the number of the blocks; the loop decrypts them
    exactly while their number is within the reach of its index.  Even beyond that the index
    of `fread` stays inside the buffer. -/
theorem sound_iff (abi : Abi) (hook : Hook) (offset count r₁ r₂ r₃ : Nat)
    (hcount : count + 32 ≤ abi.SSIZE_MAX) (h₁ : r₁ ≤ offset % 16) (h₂ : r₂ ≤ count)
    (h₃ : (r₃ : Int) ≤ suffix abi offset count) :
    (Sound abi hook offset count r₁ r₂ r₃ ↔ (r₁ + r₂ + r₃) / 16 ≤ hook.limit) ∧
    Layout abi hook offset count ∧
    ((offset % 16 + r₂ : Nat) : Int) ≤ tmpcount abi hook offset count ∧
    ((16 * ((r₁ + r₂ + r₃) / 16) : Nat) : Int) ≤ tmpcount abi hook offset count ∧
    (∀ i o, i < (r₁ + r₂ + r₃) / 16 → blockAt .fread i = some o →
      0 ≤ o ∧ o + 16 ≤ tmpcount abi hook offset count) := by
  have hlen : tmpcount abi hook offset count = _ := tmpcount_eq hcount
  rw [suffix_eq] at h₃
  have htotal : total abi hook r₁ r₂ r₃ = r₁ + r₂ + r₃ := total_eq (by omega)
  have hblocks : total abi hook r₁ r₂ r₃ / 16 = ((r₁ + r₂ + r₃) / 16 : Nat) := by omega
  have hfit : ((16 * ((r₁ + r₂ + r₃) / 16) : Nat) : Int) ≤ tmpcount abi hook offset count := by
    omega
  have hcopy : ((offset % 16 + r₂ : Nat) : Int) ≤ tmpcount abi hook offset count := by omega
  refine ⟨⟨fun h => ?_, fun h => ⟨layout hcount, htotal, ?_, hcopy⟩⟩, layout hcount, hcopy, hfit,
    fun i o hi ho => ?_⟩
  · have hdec := h.decrypts
    rw [hblocks] at hdec
    exact (decrypts_iff hfit).mp hdec
  · rw [hblocks]
    exact (decrypts_iff hfit).mpr h
  · have := blockAt_fread_le ho
    omega

/-- A read of ten bytes. -/
theorem sound_ten : Sound .lp64 .read 4099 10 3 10 3 :=
  (sound_iff .lp64 .read 4099 10 3 10 3 (by decide) (by decide) (by decide) (by decide)).1.mpr
    (by decide)

/-- A `read` of 2 GiB and 16 bytes that is granted: the product of the last index overflows.
    And an `fread` of 4 GiB and 16 bytes: the last index is back at the first block. -/
theorem sound_fails :
    2 ^ 32 + 16 + 32 ≤ Abi.SSIZE_MAX .lp64 ∧
      blockAt .read (2 ^ 27) = none ∧
      ¬ Sound .lp64 .read 4096 (2 ^ 31 + 16) 0 (2 ^ 31 + 16) 0 ∧
      blockAt .fread (2 ^ 28) = some 0 ∧
      ¬ Sound .lp64 .fread 4096 (2 ^ 32 + 16) 0 (2 ^ 32 + 16) 0 := by
  have hnone : blockAt .read (2 ^ 27) = none := by decide
  have hfirst : blockAt .fread (2 ^ 28) = some 0 := by decide
  refine ⟨by decide, hnone, fun h => ?_, hfirst, fun h => ?_⟩
  · have := (h.decrypts (2 ^ 27) (by rw [h.total]; decide)).1
    cases hnone.symm.trans this
  · have := (h.decrypts (2 ^ 28) (by rw [h.total]; decide)).1
    exact absurd (Option.some.inj (hfirst.symm.trans this)) (by decide)

end Sound

end TeBuffer
