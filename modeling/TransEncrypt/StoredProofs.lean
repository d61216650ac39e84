import TransEncrypt.HeaderProofs

/-! # Writing into a stored file — when encrypt-and-overlay is right

    A write at the plain position `p` goes back to the block boundary before `p`,
    puts the `p % 16` stored bytes from there in front of the new data, encrypts the
    complete blocks of that, and lays the result over the stored file
    (`rewritten`).  Nothing is decrypted.

    * `rewritten_eq_iff`: the result is the stored form of the new plain file exactly
      when `WriteFits`: no complete stored block is entered or left in the middle and
      no block comes to lie inside a gap, up to coincidences of the cipher;
    * `writeFits_of_clean`: the condition on the numbers alone that is enough;
    * `rewritten_end`: writing at the end of the plain file always fits. -/

namespace TeStored

open Overlay Blockwise TeHeader

/-- The `k`-th block of a byte string, cut at its end. -/
def block (l : List UInt8) (k : Nat) : List UInt8 := slice l (k * 16) 16

theorem block_length (l : List UInt8) (k : Nat) :
    (block l k).length = min 16 (l.length - k * 16) := slice_length _ _ _

/-- Blocks are stored one by one. -/
theorem stored_block (aes : AES) (P : List UInt8) (k : Nat) :
    block (stored aes P) k = stored aes (block P k) := by
  rw [block, slice, stored_drop]
  exact stored_take aes _ 1

/-- A stretch of whole blocks, or up to the end, is stored by itself. -/
theorem stored_slice (aes : AES) (P : List UInt8) (a b : Nat) :
    slice (stored aes P) (a * 16) (b * 16) = stored aes (slice P (a * 16) (b * 16)) := by
  rw [slice, stored_drop, stored_take]
  rfl

theorem stored_full (aes : AES) {B : List UInt8} (h : B.length = 16) :
    stored aes B = aes_encrypt_128bit aes B := by
  rw [stored_eq, h]
  show aes_encrypt_128bit aes (B.take 16) ++ B.drop 16 = _
  rw [List.take_of_length_le (by omega), List.drop_eq_nil_of_le (by omega), List.append_nil]

theorem aes_encrypt_length (aes : AES) {B : List UInt8} (h : B.length = 16) :
    (aes_encrypt_128bit aes B).length = 16 := (aes userKey).enc_length B h

theorem aes_decrypt_length (aes : AES) {B : List UInt8} (h : B.length = 16) :
    (aes_decrypt_128bit aes B).length = 16 := (aes userKey).dec_length B h

/-- Cutting the stored form gives the stored form of the cut, up to the block that is cut
    through: there the cipher has to leave the bytes alone. -/
theorem stored_take_iff (aes : AES) (B : List UInt8) (x : Nat) :
    (stored aes B).take x = stored aes (B.take x) ↔
      (x % 16 ≠ 0 → x / 16 * 16 + 16 ≤ B.length →
        (aes_encrypt_128bit aes (block B (x / 16))).take (x % 16)
          = (block B (x / 16)).take (x % 16)) := by
  have hx : x / 16 * 16 + x % 16 = x := Nat.div_add_mod' x 16
  have hpiece : ∀ l : List UInt8, (l.drop (x / 16 * 16)).take (x % 16)
      = (block l (x / 16)).take (x % 16) := by
    intro l
    rw [block, slice, List.take_take, Nat.min_eq_left (by omega)]
  by_cases hin : x / 16 * 16 ≤ B.length
  · have hleft : (stored aes B).take x
        = stored aes (B.take (x / 16 * 16)) ++ (stored aes (block B (x / 16))).take (x % 16) := by
      conv => lhs; rw [← hx]
      rw [List.take_add, stored_take, hpiece, stored_block]
    have hright : stored aes (B.take x)
        = stored aes (B.take (x / 16 * 16)) ++ (block B (x / 16)).take (x % 16) := by
      conv => lhs; rw [← hx]
      have hlen : (B.take (x / 16 * 16)).length = x / 16 * 16 := by
        rw [List.length_take]
        omega
      have hrest : ((block B (x / 16)).take (x % 16)).length < 16 := by
        rw [List.length_take]
        omega
      rw [List.take_add, hpiece, stored_append aes hlen, stored_short aes hrest]
    rw [hleft, hright, List.append_right_inj]
    by_cases hfull : x / 16 * 16 + 16 ≤ B.length
    · rw [stored_full aes (by rw [block_length]; omega)]
      refine ⟨fun h _ _ => h, fun h => ?_⟩
      by_cases h0 : x % 16 = 0
      · rw [h0, List.take_zero, List.take_zero]
      · exact h h0 hfull
    · rw [stored_short aes (by rw [block_length]; omega)]
      exact ⟨fun _ _ h => absurd h hfull, fun _ => rfl⟩
  · -- nothing is cut off
    rw [List.take_of_length_le (by rw [stored_length]; omega), List.take_of_length_le (by omega)]
    exact ⟨fun _ _ h => by omega, fun _ => rfl⟩

/-! ## The pending bytes -/

/-- The bytes behind the last complete block, which are stored plain. -/
def pending (P : List UInt8) : List UInt8 := P.drop (P.length / 16 * 16)

/-- The complete blocks. -/
def whole (P : List UInt8) : List UInt8 := P.take (P.length / 16 * 16)

theorem pending_length (P : List UInt8) : (pending P).length = P.length % 16 := by
  rw [pending, List.length_drop]
  omega

theorem whole_length (P : List UInt8) : (whole P).length = P.length / 16 * 16 := by
  rw [whole, List.length_take]
  omega

theorem whole_append_pending (P : List UInt8) : whole P ++ pending P = P :=
  List.take_append_drop _ _

theorem stored_pending (aes : AES) (P : List UInt8) :
    stored aes P = stored aes (whole P) ++ pending P := by
  have h := stored_append aes (whole_length P) (pending P)
  rw [whole_append_pending, stored_short aes (P := pending P) (by
    rw [pending_length]
    omega)] at h
  exact h

/-- What is added is encrypted behind the pending bytes. -/
theorem stored_added (aes : AES) (P b : List UInt8) :
    stored aes (P ++ b) = stored aes (whole P) ++ stored aes (pending P ++ b) := by
  have h := stored_append aes (whole_length P) (pending P ++ b)
  rw [← List.append_assoc, whole_append_pending] at h
  exact h

/-- The header is a number of blocks. -/
theorem header_mod (p : Nat) : (FILE_HEADER_POLL_SIZE + p) % 16 = p % 16 := by
  show (4096 + p) % 16 = _
  omega

/-- Behind it and the complete blocks the pending bytes begin. -/
theorem header_back (aes : AES) {H : List UInt8} (hH : H.length = FILE_HEADER_POLL_SIZE)
    (P : List UInt8) :
    (FILE_HEADER_POLL_SIZE + P.length) / 16 * 16
      = (H ++ stored aes (whole P)).length + 0 := by
  have hH' : H.length = 4096 := hH
  rw [List.length_append, stored_length, whole_length, hH']
  show (4096 + P.length) / 16 * 16 = _
  omega

/-! ## Writing in the middle -/

/-- The bytes from the block boundary up to position `p`, zeros behind the end. -/
def prefixOf (l : List UInt8) (p : Nat) : List UInt8 :=
  slice l (p / 16 * 16) (p % 16) ++ zeroed (p % 16 - (slice l (p / 16 * 16) (p % 16)).length)

@[simp] theorem prefixOf_length (l : List UInt8) (p : Nat) :
    (prefixOf l p).length = p % 16 := by
  rw [prefixOf, List.length_append, zeroed_length, slice_length]
  omega

/-- What the hooked `write` of `b` at the plain position `p` makes of the stored bytes
    of `P`. -/
def rewritten (aes : AES) (P : List UInt8) (p : Nat) (b : List UInt8) : List UInt8 :=
  overlay 0 (stored aes P) (p / 16 * 16) (stored aes (prefixOf (stored aes P) p ++ b))

section Write

variable {aes : AES} {P b : List UInt8} {p : Nat}

/-- A write started at the block boundary. -/
theorem overlay_prefixOf (l : List UInt8) (p : Nat) (hb : b ≠ []) :
    overlay 0 l p b = overlay 0 l (p / 16 * 16) (prefixOf l p ++ b) := by
  have hp : p / 16 * 16 + p % 16 = p := Nat.div_add_mod' p 16
  have := overlay_back 0 l (p / 16 * 16) (p % 16) hb
  rw [hp] at this
  exact this

/-- The prefix of the stored bytes is plain when its block is not complete. -/
theorem prefixOf_stored (h : P.length < p / 16 * 16 + 16) :
    prefixOf (stored aes P) p = prefixOf P p := by
  have hcut : ∀ l : List UInt8, slice l (p / 16 * 16) (p % 16)
      = (block l (p / 16)).take (p % 16) := by
    intro l
    rw [block, slice, slice, List.take_take, Nat.min_eq_left (by omega)]
  have hblock : block (stored aes P) (p / 16) = block P (p / 16) := by
    rw [stored_block, stored_short]
    rw [block_length]
    omega
  rw [prefixOf, prefixOf, hcut, hcut, hblock]

/-! ## Block by block -/

/-- The block of the new data that lands in block `k`, with the prefix `pre`. -/
private def piece (pre b : List UInt8) (p k : Nat) : List UInt8 :=
  block (pre ++ b) (k - p / 16)

private theorem block_overlay {l d : List UInt8} {k : Nat} (h : p / 16 ≤ k) :
    block (overlay 0 l (p / 16 * 16) d) k
      = overlay 0 (block l k) 0 (block d (k - p / 16)) := by
  have hle : p / 16 * 16 ≤ k * 16 := Nat.mul_le_mul_right 16 h
  rw [block, slice_overlay 0 l 16 d hle, block, block, Nat.sub_mul]

/-- Block `k` after the write, from the block of the write on. -/
private theorem rewritten_block (h : p / 16 ≤ k) :
    block (rewritten aes P p b) k = overlay 0 (stored aes (block P k)) 0
      (stored aes (piece (prefixOf (stored aes P) p) b p k)) := by
  rw [rewritten, block_overlay h, stored_block, stored_block]
  rfl

private theorem plain_block (hb : b ≠ []) (h : p / 16 ≤ k) :
    block (overlay 0 P p b) k = overlay 0 (block P k) 0 (piece (prefixOf P p) b p k) := by
  rw [overlay_prefixOf P p hb, block_overlay h]
  rfl

/-- Behind its first block a piece is new data only. -/
private theorem piece_later {pre : List UInt8} (hpre : pre.length = p % 16)
    (h : p / 16 < k) : piece pre b p k = slice b (k * 16 - p) 16 := by
  have hmul : (k - p / 16) * 16 = p % 16 + (k * 16 - p) := by
    rw [Nat.sub_mul]
    omega
  rw [piece, block, hmul, ← hpre, slice_append_left]

private theorem piece_first (pre : List UInt8) :
    piece pre b p (p / 16) = (pre ++ b).take 16 := by
  rw [piece, Nat.sub_self, block, Nat.zero_mul, slice, List.drop_zero]

/-- The condition under which a write of `b` at `p` leaves the stored form of the
    new plain file. -/
structure WriteFits (aes : AES) (P : List UInt8) (p : Nat) (b : List UInt8) : Prop where
  /-- A block inside a gap stays plain zeros, so the cipher has to leave it alone. -/
  gap : ∀ k, P.length / 16 ≤ k → k < p / 16 →
    aes_encrypt_128bit aes (block (overlay 0 P p b) k) = block (overlay 0 P p b) k
  /-- A complete block entered in the middle: its first bytes are encrypted again as
      they are stored. -/
  head : p % 16 ≠ 0 → p / 16 * 16 + 16 ≤ P.length → p / 16 * 16 + 16 ≤ p + b.length →
    (aes_encrypt_128bit aes (block P (p / 16))).take (p % 16)
      = (block P (p / 16)).take (p % 16)
  /-- A complete block left in the middle: the new bytes lie in it plain. -/
  tail : (p + b.length) % 16 ≠ 0 → (p + b.length) / 16 * 16 + 16 ≤ P.length →
    let s := (p + b.length) / 16
    overlay 0 (aes_encrypt_128bit aes (block P s)) (p - s * 16) (b.drop (s * 16 - p))
      = aes_encrypt_128bit aes (overlay 0 (block P s) (p - s * 16) (b.drop (s * 16 - p)))

/-- The write starts inside the plain file or in its last block, and neither starts
    nor ends in the middle of a complete block. -/
def Clean (P : List UInt8) (p n : Nat) : Prop :=
  (p ≤ P.length ∨ p / 16 = P.length / 16) ∧
  (p % 16 = 0 ∨ P.length < p / 16 * 16 + 16) ∧
  ((p + n) % 16 = 0 ∨ P.length < (p + n) / 16 * 16 + 16)

instance (P : List UInt8) (p n : Nat) : Decidable (Clean P p n) :=
  inferInstanceAs (Decidable (_ ∧ _ ∧ _))

theorem writeFits_of_clean (h : Clean P p b.length) : WriteFits aes P p b := by
  obtain ⟨h1, h2, h3⟩ := h
  refine ⟨fun k hk hk' => ?_, fun hm hc _ => ?_, fun hm hc => ?_⟩ <;> omega

/-- In front of the block of the write. -/
private theorem before_iff (hb : b ≠ []) {k : Nat} (hk : k < p / 16) :
    block (rewritten aes P p b) k = block (stored aes (overlay 0 P p b)) k ↔
      (P.length / 16 ≤ k → aes_encrypt_128bit aes (block (overlay 0 P p b) k)
        = block (overlay 0 P p b) k) := by
  have hle : k * 16 + 16 ≤ p / 16 * 16 := by omega
  have hne : stored aes (prefixOf (stored aes P) p ++ b) ≠ [] := by
    rw [← List.length_pos_iff, stored_length, List.length_append]
    have := List.length_pos_iff.mpr hb
    omega
  have hne' : prefixOf P p ++ b ≠ [] := by simp [hb]
  have hraw : block (rewritten aes P p b) k = slice (stored aes P
      ++ List.replicate (p / 16 * 16 - (stored aes P).length) 0) (k * 16) 16 :=
    slice_overlay_before 0 _ hne hle
  have hnew : block (overlay 0 P p b) k
      = slice (P ++ List.replicate (p / 16 * 16 - P.length) 0) (k * 16) 16 := by
    rw [overlay_prefixOf P p hb]
    exact slice_overlay_before 0 _ hne' hle
  rw [stored_block]
  by_cases hin : k * 16 + 16 ≤ P.length
  · -- a block of the old file
    have hcut : ∀ l r : List UInt8, l.length = P.length →
        slice (l ++ r) (k * 16) 16 = block l k := by
      intro l r hl
      rw [slice, List.drop_append_of_le_length (by omega), List.take_append_of_le_length
        (by rw [List.length_drop]; omega)]
      rfl
    rw [hraw, hnew, hcut _ _ (stored_length aes P), hcut _ _ rfl, stored_block]
    constructor
    · intro _ hlen
      omega
    · intro _
      rfl
  · -- the plain tail, and the gap behind it
    have hlen : (block (overlay 0 P p b) k).length = 16 := by
      rw [hnew, slice_length, List.length_append, List.length_replicate]
      omega
    have heq : block (rewritten aes P p b) k = block (overlay 0 P p b) k := by
      rw [hraw, hnew, stored_length]
      apply List.ext_getElem?
      intro i
      rw [slice_get, slice_get]
      by_cases hi : i < 16
      · rw [if_pos hi, if_pos hi, List.getElem?_append, List.getElem?_append, stored_length]
        by_cases hpos : k * 16 + i < P.length
        · -- inside the incomplete last block
          rw [if_pos hpos, if_pos hpos]
          have hb2 : block (stored aes P) k = block P k := by
            rw [stored_block, stored_short]
            rw [block_length]
            omega
          have := congrArg (fun x : List UInt8 => x[i]?) hb2
          simpa only [block, slice_get, if_pos hi] using this
        · rw [if_neg hpos, if_neg hpos]
      · rw [if_neg hi, if_neg hi]
    rw [heq, stored_full aes hlen]
    constructor
    · intro h _
      exact h.symm
    · intro h
      exact (h (by omega)).symm

/-- One block: the stored pieces laid over each other against the stored result. -/
private theorem merge_iff {B M M' : List UInt8} (hB : B.length ≤ 16)
    (hM : M.length ≤ 16) (hlen : M.length = M'.length) (hshort : B.length < 16 → M = M') :
    overlay 0 (stored aes B) 0 (stored aes M) = stored aes (overlay 0 B 0 M') ↔
      (B.length = 16 → M.length = 16 → M = M') ∧
      (B.length = 16 → 0 < M.length → M.length < 16 →
        overlay 0 (aes_encrypt_128bit aes B) 0 M
          = aes_encrypt_128bit aes (overlay 0 B 0 M')) := by
  by_cases hfull : M.length = 16
  · -- the block is replaced as a whole
    rw [overlay_all 0 (by rw [stored_length, stored_length]; omega),
      overlay_all 0 (by omega)]
    constructor
    · intro h
      exact ⟨fun _ _ => stored_injective aes h, fun _ _ hlt => by omega⟩
    · rintro ⟨h, -⟩
      by_cases hb : B.length < 16
      · rw [hshort hb]
      · rw [h (by omega) hfull]
  · by_cases hnil : M = []
    · -- nothing is written into it
      have hnil' : M' = [] := by
        rw [hnil, List.length_nil] at hlen
        exact List.length_eq_zero_iff.mp hlen.symm
      rw [hnil, hnil', stored_short aes (P := []) (by decide), overlay_nil, overlay_nil]
      constructor
      · intro _
        exact ⟨fun _ h => absurd h (by decide), fun _ h => absurd h (by decide)⟩
      · intro _
        rfl
    · have hpos : 0 < M.length := List.length_pos_iff.mpr hnil
      have hpos' : M' ≠ [] := by
        intro h
        rw [h, List.length_nil] at hlen
        omega
      rw [stored_short aes (by omega : M.length < 16)]
      by_cases hb : B.length < 16
      · -- an incomplete block stays plain
        rw [stored_short aes hb, hshort hb, stored_short aes
          (by rw [overlay_length hpos']; omega)]
        constructor
        · intro _
          exact ⟨fun h => by omega, fun h => by omega⟩
        · intro _
          rfl
      · have hB16 : B.length = 16 := by omega
        rw [stored_full aes hB16, stored_full aes (by rw [overlay_length hpos']; omega)]
        constructor
        · intro h
          exact ⟨fun _ h16 => absurd h16 hfull, fun _ _ _ => h⟩
        · rintro ⟨-, h⟩
          exact h hB16 hpos (by omega)

/-- Behind the block of the write. -/
private theorem later_iff (hb : b ≠ []) {k : Nat} (hk : p / 16 < k) :
    block (rewritten aes P p b) k = block (stored aes (overlay 0 P p b)) k ↔
      ((p + b.length) % 16 ≠ 0 → k * 16 + 16 ≤ P.length → k = (p + b.length) / 16 →
        overlay 0 (aes_encrypt_128bit aes (block P k)) 0 (b.drop (k * 16 - p))
          = aes_encrypt_128bit aes (overlay 0 (block P k) 0 (b.drop (k * 16 - p)))) := by
  have hlen : (slice b (k * 16 - p) 16).length = min 16 (b.length - (k * 16 - p)) :=
    slice_length _ _ _
  have hBlen := block_length P k
  have hlast : (slice b (k * 16 - p) 16).length < 16 →
      slice b (k * 16 - p) 16 = b.drop (k * 16 - p) := by
    intro h
    rw [slice, List.take_of_length_le (by rw [List.length_drop]; omega)]
  rw [stored_block, rewritten_block (Nat.le_of_lt hk), plain_block hb (Nat.le_of_lt hk),
    piece_later (prefixOf_length _ _) hk, piece_later (prefixOf_length _ _) hk,
    merge_iff (by omega) (by omega) rfl (fun _ => rfl)]
  constructor
  · rintro ⟨-, h⟩ hm hc hs
    have := h (by omega) (by omega) (by omega)
    rwa [hlast (by omega)] at this
  · intro h
    refine ⟨fun _ _ => rfl, fun hc hpos hlt => ?_⟩
    rw [hlast hlt]
    exact h (by omega) (by omega) (by omega)

/-- The block in which the write starts. -/
private theorem first_iff (hb : b ≠ []) :
    block (rewritten aes P p b) (p / 16) = block (stored aes (overlay 0 P p b)) (p / 16) ↔
      (p % 16 ≠ 0 → p / 16 * 16 + 16 ≤ P.length → p / 16 * 16 + 16 ≤ p + b.length →
        (aes_encrypt_128bit aes (block P (p / 16))).take (p % 16)
          = (block P (p / 16)).take (p % 16)) ∧
      ((p + b.length) % 16 ≠ 0 → p / 16 * 16 + 16 ≤ P.length →
        p / 16 = (p + b.length) / 16 →
        overlay 0 (aes_encrypt_128bit aes (block P (p / 16))) (p % 16) b
          = aes_encrypt_128bit aes (overlay 0 (block P (p / 16)) (p % 16) b)) := by
  have hbpos := List.length_pos_iff.mpr hb
  have hBlen := block_length P (p / 16)
  have hpre := prefixOf_length (stored aes P) p
  have hpre' := prefixOf_length P p
  -- the prefix of a complete block, and the write started behind it
  have hcut : ∀ l : List UInt8, (block l (p / 16)).length = 16 →
      prefixOf l p = (block l (p / 16)).take (p % 16) := by
    intro l hl
    rw [block_length] at hl
    have hs : slice l (p / 16 * 16) (p % 16) = (block l (p / 16)).take (p % 16) := by
      rw [block, slice, slice, List.take_take, Nat.min_eq_left (by omega)]
    rw [prefixOf, hs, List.length_take, block_length,
      show p % 16 - min (p % 16) (min 16 (l.length - p / 16 * 16)) = 0 from by omega]
    exact List.append_nil _
  have hback : ∀ B : List UInt8, B.length = 16 →
      overlay 0 B 0 (B.take (p % 16) ++ b) = overlay 0 B (p % 16) b := by
    intro B hB
    have h := overlay_back 0 B 0 (p % 16) hb
    have hs : slice B 0 (p % 16) = B.take (p % 16) := rfl
    rw [Nat.zero_add, hs, List.length_take, hB,
      show p % 16 - min (p % 16) 16 = 0 from by omega] at h
    rw [h, List.replicate_zero, List.append_nil]
  rw [stored_block, rewritten_block (Nat.le_refl _), plain_block hb (Nat.le_refl _),
    piece_first, piece_first,
    merge_iff (by omega) (by rw [List.length_take]; omega)
      (by rw [List.length_take, List.length_take, List.length_append, List.length_append,
        hpre, hpre'])
      (fun h => by rw [prefixOf_stored (by omega)])]
  have hcutS : (block P (p / 16)).length = 16 → prefixOf (stored aes P) p
      = (aes_encrypt_128bit aes (block P (p / 16))).take (p % 16) := by
    intro h
    rw [hcut _ (by rw [stored_block, stored_length]; exact h), stored_block,
      stored_full aes h]
  constructor
  · rintro ⟨hhead, htail⟩
    refine ⟨fun hm hc he => ?_, fun hm hc hs => ?_⟩
    · have h16 : (block P (p / 16)).length = 16 := by omega
      have h := hhead h16 (by rw [List.length_take, List.length_append, hpre]; omega)
      have h' := congrArg (fun x : List UInt8 => x.take (p % 16)) h
      simp only [List.take_take, Nat.min_eq_left (show p % 16 ≤ 16 from by omega)] at h'
      rw [List.take_left' hpre, List.take_left' hpre', hcutS h16, hcut P h16] at h'
      exact h'
    · have h16 : (block P (p / 16)).length = 16 := by omega
      have hshort : ∀ pre : List UInt8, pre.length = p % 16 → (pre ++ b).take 16 = pre ++ b :=
        fun pre hl => List.take_of_length_le (by rw [List.length_append, hl]; omega)
      have h := htail h16 (by rw [List.length_take, List.length_append, hpre]; omega)
        (by rw [List.length_take, List.length_append, hpre]; omega)
      rw [hshort _ hpre, hshort _ hpre', hcutS h16, hcut P h16,
        hback _ (aes_encrypt_length aes h16), hback _ h16] at h
      exact h
  · rintro ⟨hhead, htail⟩
    refine ⟨fun h16 hfull => ?_, fun h16 hpos hlt => ?_⟩
    · rw [List.length_take, List.length_append, hpre] at hfull
      rw [hcutS h16, hcut P h16]
      by_cases hm : p % 16 = 0
      · rw [hm, List.take_zero, List.take_zero]
      · rw [hhead hm (by omega) (by omega)]
    · rw [List.length_take, List.length_append, hpre] at hlt
      have hshort : ∀ pre : List UInt8, pre.length = p % 16 → (pre ++ b).take 16 = pre ++ b :=
        fun pre hl => List.take_of_length_le (by rw [List.length_append, hl]; omega)
      rw [hshort _ hpre, hshort _ hpre', hcutS h16, hcut P h16,
        hback _ (aes_encrypt_length aes h16), hback _ h16]
      exact htail (by omega) (by omega) (by omega)

/-- **When a write fits.**  The bytes left behind are the stored form of the new plain
    file exactly under `WriteFits`. -/
theorem rewritten_eq_iff (hb : b ≠ []) :
    rewritten aes P p b = stored aes (overlay 0 P p b) ↔ WriteFits aes P p b := by
  constructor
  · intro h
    have hblock : ∀ k, block (rewritten aes P p b) k
        = block (stored aes (overlay 0 P p b)) k := fun k => by rw [h]
    obtain ⟨hhead, hin⟩ := (first_iff hb).mp (hblock (p / 16))
    refine ⟨fun k hk hk' => (before_iff hb hk').mp (hblock k) hk, hhead, fun hm hc => ?_⟩
    by_cases hs : p / 16 = (p + b.length) / 16
    · -- the write ends in the block it starts in
      have h1 : p - (p + b.length) / 16 * 16 = p % 16 := by omega
      have h2 : (p + b.length) / 16 * 16 - p = 0 := by omega
      show overlay 0 _ _ _ = aes_encrypt_128bit aes (overlay 0 _ _ _)
      rw [h1, h2, List.drop_zero, ← hs]
      exact hin hm (hs ▸ hc) hs
    · have h1 : p - (p + b.length) / 16 * 16 = 0 := by omega
      show overlay 0 _ _ _ = aes_encrypt_128bit aes (overlay 0 _ _ _)
      rw [h1]
      exact (later_iff hb (by omega)).mp (hblock _) hm hc rfl
  · rintro ⟨hgap, hhead, htail⟩
    apply ext_blocks (b := 16) (by decide)
    intro k
    show block (rewritten aes P p b) k = block (stored aes (overlay 0 P p b)) k
    rcases Nat.lt_trichotomy k (p / 16) with hk | hk | hk
    · exact (before_iff hb hk).mpr (fun h => hgap k h hk)
    · subst hk
      refine (first_iff hb).mpr ⟨hhead, fun hm hc hs => ?_⟩
      have h := htail hm (hs ▸ hc)
      have h1 : p - p / 16 * 16 = p % 16 := by omega
      have h2 : p / 16 * 16 - p = 0 := by omega
      simp only [← hs, h1, h2, List.drop_zero] at h
      exact h
    · refine (later_iff hb hk).mpr (fun hm hc hs => ?_)
      have h := htail hm (hs ▸ hc)
      simp only [← hs, show p - k * 16 = 0 from by omega] at h
      exact h

/-- A write at the end of the plain file always fits. -/
theorem rewritten_end (aes : AES) (P : List UInt8) (hb : b ≠ []) :
    rewritten aes P P.length b = stored aes (P ++ b) := by
  rw [(rewritten_eq_iff hb).mpr (writeFits_of_clean ⟨.inl (Nat.le_refl _),
    .inr (by omega), .inr (by omega)⟩), overlay_end]

end Write

/-! ## Byte by byte -/

theorem block_get (l : List UInt8) (i : Nat) : (block l (i / 16))[i % 16]? = l[i]? := by
  rw [block, slice, List.getElem?_take, if_pos (by omega), List.getElem?_drop,
    Nat.div_add_mod' i 16]

/-- A byte of decrypted blocks comes out of its own block, and a byte behind them is left. -/
theorem decryptBlocks_get (aes : AES) {n i : Nat} {l : List UInt8} (h : n * 16 ≤ l.length) :
    (decryptBlocks aes n l)[i]? =
      if i < n * 16 then (aes_decrypt_128bit aes (block l (i / 16)))[i % 16]? else l[i]? := by
  split
  · rename_i hi
    have hblock :
      block (decryptBlocks aes n l) (i / 16) = aes_decrypt_128bit aes (block l (i / 16)) :=
      mapBlocks_block (aes userKey).dec_length (by omega) l h
    rw [← block_get (decryptBlocks aes n l), hblock]
  · have hdrop := mapBlocks_drop (aes userKey).dec_length n l h
    have hget : ∀ x : List UInt8, x[i]? = (x.drop (n * 16))[i - n * 16]? := by
      intro x
      rw [List.getElem?_drop]
      congr 1
      omega
    rw [hget, hget l]
    exact congrArg (fun x : List UInt8 => x[i - n * 16]?) hdrop

/-- The bytes behind the last complete block are stored as they are. -/
theorem stored_tail_get (aes : AES) {P : List UInt8} {x : Nat} (h : P.length / 16 * 16 ≤ x) :
    (stored aes P)[x]? = P[x]? := by
  have hwhole : (stored aes (whole P)).length = P.length / 16 * 16 := by
    rw [stored_length, whole_length]
  rw [stored_pending, List.getElem?_append_right (by omega), hwhole]
  conv => rhs; rw [← whole_append_pending P, List.getElem?_append_right (by
    rw [whole_length]; exact h), whole_length]

/-- A complete stored block decrypts to the block of the text. -/
theorem decrypt_stored_block (aes : AES) {P : List UInt8} {k : Nat}
    (h : k * 16 + 16 ≤ P.length) :
    aes_decrypt_128bit aes (block (stored aes P) k) = block P k := by
  have hlen : (block P k).length = 16 := by
    rw [block_length]
    omega
  rw [stored_block, stored_full aes hlen]
  exact (aes userKey).dec_enc _ hlen

end TeStored
