import TransEncrypt.SeekProofs
import TransEncrypt.TransferProofs

/-! # The hooked read when its calls fail or are cut short

    The three calls of `read` return three numbers, which the hook adds up: the sum decides
    how many blocks of the buffer are decrypted, and the second is the length of what is
    handed out and the result.

    * `outcome`: what one call returns, under any answer;
    * `read_pieces_any`: the hook as a function of the three numbers;
    * `Keeps`: the numbers for which each delivered block is decrypted when it has to be;
    * `read_sound_iff`: exactly then the result is -1 with nothing copied, or the number of
      bytes copied, which are those of the text. -/

namespace TeShortRead

open Posix Overlay Blockwise TeHeader TeStored Hoare TeProgram TeDetector TeRead TeTorn Plain

/-! ## Calls under any answer -/

/-- What a read of `n` bytes returns where `rest` bytes are left. -/
def outcome (a : Answer) (n rest : Nat) : Int :=
  if a.fails then -1 else (min (a.cut n) rest : Nat)

theorem outcome_bounds (a : Answer) (n rest : Nat) :
    -1 ≤ outcome a n rest ∧ outcome a n rest ≤ n ∧ (outcome a n rest).toNat ≤ rest := by
  have hcut := a.cut_le n
  unfold outcome
  split
  · omega
  · omega

theorem slice_min (D : List UInt8) (off c : Nat) :
    slice D off (min c (D.length - off)) = slice D off c := by
  have hall : (D.drop off).take (D.length - off) = D.drop off :=
    List.take_of_length_le (Nat.le_of_eq List.length_drop)
  rw [slice, slice, ← List.take_take, hall]

section Calls

variable {k : Kernel} {fd : Int} {id : Nat} (hf : k.find fd = some id)
  (hreg : (k.desc id).regular = true) {D : List UInt8}
  (hD : k.files.data (k.desc id).inode = D)
include hf hreg hD

theorem sysPread_outcome (n off : Nat) :
    let r := outcome (allowed (k.desc id).flags.acc.readable k.answer) n (D.length - off)
    k.sysPread fd n off = ((r, slice D off r.toNat), k.tock 1) := by
  intro r
  have hneg : ¬ ((off : Nat) : Int) < 0 := by omega
  let a := allowed (k.desc id).flags.acc.readable k.answer
  simp only [Kernel.sysPread, hf, hreg, hD, Bool.not_true, Bool.or_false, hneg, decide_false,
    Int.toNat_natCast]
  show (if a.fails = true then _ else _) = _
  by_cases hfails : a.fails = true
  · have hr : r = -1 := if_pos hfails
    rw [if_pos hfails, hr]
    rfl
  · have hr : r = (min (a.cut n) (D.length - off) : Nat) := if_neg hfails
    rw [if_neg hfails, hr, Int.toNat_natCast, slice_min]
    rw [show k.answer.cut n = a.cut n from rfl, slice_length]

theorem sysRead_outcome (n : Nat) :
    let pos := (k.desc id).pos
    let r := outcome (allowed (k.desc id).flags.acc.readable k.answer) n (D.length - pos)
    k.sysRead fd n = ((r, slice D pos r.toNat), (k.tock 1).setPos id (pos + r.toNat)) := by
  intro pos r
  let a := allowed (k.desc id).flags.acc.readable k.answer
  simp only [Kernel.sysRead, hf, hreg, hD, if_true]
  show (if a.fails = true then _ else _) = _
  by_cases hfails : a.fails = true
  · have hr : r = -1 := if_pos hfails
    rw [if_pos hfails, hr]
    exact congrArg (fun j => (((-1 : Int), ([] : List UInt8)), j)) ((k.tock 1).setPos_same id).symm
  · have hr : r = (min (a.cut n) (D.length - pos) : Nat) := if_neg hfails
    rw [if_neg hfails, hr, Int.toNat_natCast, slice_min]
    rw [show k.answer.cut n = a.cut n from rfl, slice_length]

end Calls

/-! ## The buffer -/

/-- The results of the three calls: of the prefix, of the body and of the suffix. -/
structure Counts where
  size_1 : Int
  size_2 : Int
  size_3 : Int
  deriving DecidableEq, Repr

namespace Counts

variable (c : Counts)

/-- The sum that the hook goes by. -/
def size : Int := if c.size_3 > 0 then c.size_1 + c.size_2 + c.size_3 else c.size_1 + c.size_2

/-- What the calls can return: `t`, `n` and `m` bytes are asked for, one behind the other,
    from the start of `E`. -/
structure Possible (E : List UInt8) (t n m : Nat) : Prop where
  low_1 : -1 ≤ c.size_1
  low_2 : -1 ≤ c.size_2
  asked_1 : c.size_1 ≤ t
  asked_2 : c.size_2 ≤ n
  asked_3 : c.size_3 ≤ m
  left_1 : c.size_1.toNat ≤ E.length
  left_2 : c.size_2.toNat ≤ E.length - t
  left_3 : c.size_3.toNat ≤ E.length - (t + n)

/-- The byte `i` of the window has arrived. -/
def Arrived (t n i : Nat) : Prop :=
  (i : Int) < c.size_1 ∨ (t ≤ i ∧ (i : Int) < t + c.size_2) ∨
    (t + n ≤ i ∧ (i : Int) < t + n + c.size_3)

instance (t n i : Nat) : Decidable (c.Arrived t n i) := inferInstanceAs (Decidable (_ ∨ _))

/-- `tmpbuf` after the three calls. -/
def tmpbuf (E : List UInt8) (t n m : Nat) : List UInt8 :=
  memcpy (memcpy (memcpy (zeroed (t + n + m)) 0 (slice E 0 c.size_1.toNat)) t
    (slice E t c.size_2.toNat)) (t + n) (slice E (t + n) c.size_3.toNat)

end Counts

section Buffer

variable {c : Counts} {E : List UInt8} {t n m : Nat}

@[simp] theorem tmpbuf_length : (c.tmpbuf E t n m).length = t + n + m := by
  rw [Counts.tmpbuf, memcpy_length, memcpy_length, memcpy_length, zeroed_length]

variable (h : c.Possible E t n m)
include h

/-- What has arrived is in the buffer. -/
theorem tmpbuf_arrived {i : Nat} (hi : c.Arrived t n i) : (c.tmpbuf E t n m)[i]? = E[i]? := by
  obtain ⟨-, -, hask1, hask2, hask3, hleft1, hleft2, hleft3⟩ := h
  have hlen1 : (slice E 0 c.size_1.toNat).length = c.size_1.toNat := by
    rw [slice_length]
    omega
  have hlen2 : (slice E t c.size_2.toNat).length = c.size_2.toNat := by
    rw [slice_length]
    omega
  have hlen3 : (slice E (t + n) c.size_3.toNat).length = c.size_3.toNat := by
    rw [slice_length]
    omega
  rw [Counts.tmpbuf, memcpy_get (by rw [memcpy_length, memcpy_length, zeroed_length]; omega),
    memcpy_get (by rw [memcpy_length, zeroed_length]; omega),
    memcpy_get (by rw [zeroed_length]; omega), hlen1, hlen2, hlen3]
  rcases hi with h1 | ⟨h2, h2'⟩ | ⟨h3, h3'⟩
  · rw [if_neg (by omega), if_neg (by omega), if_pos (by omega), slice_get, if_pos (by omega)]
    congr 1
    omega
  · rw [if_neg (by omega), if_pos (by omega), slice_get, if_pos (by omega)]
    congr 1
    omega
  · rw [if_pos (by omega), slice_get, if_pos (by omega)]
    congr 1
    omega

theorem size_le : c.size.toNat ≤ t + n + m := by
  obtain ⟨-, -, hask1, hask2, hask3, -⟩ := h
  unfold Counts.size
  split
  · omega
  · omega

end Buffer

/-! ## When the delivered bytes are those of the text -/

/-- Block `b` of the window, of the text `X`, is delivered as it should: it is decrypted,
    complete and all there, or it is not decrypted and was not encrypted.  Else each of its
    delivered bytes has to come out right by chance. -/
def BlockRight (aes : AES) (X : List UInt8) (t n m : Nat) (c : Counts) (b : Nat) : Prop :=
  if b < c.size.toNat / 16 then
    (b * 16 + 16 ≤ X.length ∧ ∀ i, b * 16 ≤ i → i < b * 16 + 16 → c.Arrived t n i) ∨
      ∀ i, i / 16 = b → t ≤ i → (i : Int) < t + c.size_2 →
        (aes_decrypt_128bit aes (block (c.tmpbuf (stored aes X) t n m) b))[i % 16]? = X[i]?
  else
    X.length < b * 16 + 16 ∨
      ∀ i, i / 16 = b → t ≤ i → (i : Int) < t + c.size_2 → (stored aes X)[i]? = X[i]?

/-- The three numbers do no harm: a body that failed does not meet a positive sum, and one
    that delivered something meets one, with every block right. -/
structure Keeps (aes : AES) (X : List UInt8) (t n m : Nat) (c : Counts) : Prop where
  failed : c.size_2 < 0 → c.size ≤ 0
  counted : 0 < c.size_2 → 0 < c.size
  right : 0 < c.size_2 → ∀ b, BlockRight aes X t n m c b

section Delivered

variable (aes : AES) {X : List UInt8} {t n m : Nat} {c : Counts}
  (h : c.Possible (stored aes X) t n m)
include h

/-- A block that is all there is the stored block. -/
theorem tmpbuf_block {b : Nat} (hb : ∀ i, b * 16 ≤ i → i < b * 16 + 16 → c.Arrived t n i) :
    block (c.tmpbuf (stored aes X) t n m) b = block (stored aes X) b := by
  apply List.ext_getElem?
  intro j
  rw [block, block, slice_get, slice_get]
  split
  · exact tmpbuf_arrived h (hb _ (by omega) (by omega))
  · rfl

/-- One delivered byte. -/
theorem delivered_get {i : Nat} (hlow : t ≤ i) (hhigh : (i : Int) < t + c.size_2) :
    (decryptBlocks aes (c.size.toNat / 16) (c.tmpbuf (stored aes X) t n m))[i]? =
      if i / 16 < c.size.toNat / 16 then
        (aes_decrypt_128bit aes (block (c.tmpbuf (stored aes X) t n m) (i / 16)))[i % 16]?
      else (stored aes X)[i]? := by
  have hle := size_le h
  rw [decryptBlocks_get aes (by rw [tmpbuf_length]; omega)]
  by_cases hi : i / 16 < c.size.toNat / 16
  · rw [if_pos (by omega), if_pos hi]
  · rw [if_neg (by omega), if_neg hi]
    exact tmpbuf_arrived h (.inr (.inl ⟨hlow, hhigh⟩))

/-- **The delivered bytes** are those of the text exactly when every block is right. -/
theorem delivered_iff :
    slice (decryptBlocks aes (c.size.toNat / 16) (c.tmpbuf (stored aes X) t n m)) t c.size_2.toNat =
        slice X t c.size_2.toNat ↔
      ∀ b, BlockRight aes X t n m c b := by
  have hbytes : slice (decryptBlocks aes (c.size.toNat / 16) (c.tmpbuf (stored aes X) t n m)) t
        c.size_2.toNat = slice X t c.size_2.toNat ↔
      ∀ i, t ≤ i → (i : Int) < t + c.size_2 →
        (decryptBlocks aes (c.size.toNat / 16) (c.tmpbuf (stored aes X) t n m))[i]? = X[i]? := by
    constructor
    · intro heq i hlow hhigh
      have hget := congrArg (fun l : List UInt8 => l[i - t]?) heq
      simp only [slice_get, if_pos (show i - t < c.size_2.toNat from by omega),
        Nat.add_sub_cancel' hlow] at hget
      exact hget
    · intro hall
      apply List.ext_getElem?
      intro j
      rw [slice_get, slice_get]
      split
      · exact hall (t + j) (by omega) (by omega)
      · rfl
  rw [hbytes]
  constructor
  · intro hall b
    unfold BlockRight
    split
    · rename_i hb
      refine .inr fun i hi hlow hhigh => ?_
      have hget := hall i hlow hhigh
      rw [delivered_get aes h hlow hhigh, hi, if_pos hb] at hget
      exact hget
    · rename_i hb
      refine .inr fun i hi hlow hhigh => ?_
      have hget := hall i hlow hhigh
      rw [delivered_get aes h hlow hhigh, hi, if_neg hb] at hget
      exact hget
  · intro hright i hlow hhigh
    have hb := hright (i / 16)
    rw [delivered_get aes h hlow hhigh]
    unfold BlockRight at hb
    split
    · rename_i hdec
      rw [if_pos hdec] at hb
      rcases hb with ⟨hfull, hthere⟩ | hchance
      · rw [tmpbuf_block aes h hthere, decrypt_stored_block aes hfull, block_get]
      · exact hchance i rfl hlow hhigh
    · rename_i hdec
      rw [if_neg hdec] at hb
      rcases hb with htail | hchance
      · exact stored_tail_get aes (by omega)
      · exact hchance i rfl hlow hhigh

end Delivered

/-! ## The hook -/

/-- The numbers that the three calls return to a read of `n` bytes at position `p` of the
    text `P`, given their answers. -/
def countsOf (aes : AES) (P : List UInt8) (p n : Nat) (a₁ a₂ a₃ : Answer) : Counts :=
  let rest := (stored aes (P.drop (p / 16 * 16))).length
  { size_1 := outcome a₁ (p % 16) rest
    size_2 := outcome a₂ n (rest - p % 16)
    size_3 := outcome a₃ (16 - (n + (4096 + p)) % 16) (rest - (p % 16 + n)) }

theorem countsOf_possible (aes : AES) (P : List UInt8) (p n : Nat) (a₁ a₂ a₃ : Answer) :
    (countsOf aes P p n a₁ a₂ a₃).Possible (stored aes (P.drop (p / 16 * 16))) (p % 16) n
      (16 - (n + (4096 + p)) % 16) where
  low_1 := (outcome_bounds _ _ _).1
  low_2 := (outcome_bounds _ _ _).1
  asked_1 := (outcome_bounds _ _ _).2.1
  asked_2 := (outcome_bounds _ _ _).2.1
  asked_3 := (outcome_bounds _ _ _).2.1
  left_1 := (outcome_bounds _ _ _).2.2
  left_2 := (outcome_bounds _ _ _).2.2
  left_3 := (outcome_bounds _ _ _).2.2

/-- The read failed and copied nothing, or copied as many bytes as it says, which are those
    of the text. -/
def ReadSound (P : List UInt8) (p : Nat) (run : Except Stop ((Int × List UInt8) × World)) : Prop :=
  ∃ r bytes w', run = .ok ((r, bytes), w') ∧
    (r = -1 ∧ bytes = [] ∨ 0 ≤ r ∧ bytes.length = r ∧ bytes = slice P p r.toNat)

section Pieces

variable {dev : Device} {w : World} {fd : Int} {id : Nat} {H P : List UInt8} {p : Nat}
  (hf : w.kern.find fd = some id) (hreg : (w.kern.desc id).regular = true)
  (hdata : w.kern.files.data (w.kern.desc id).inode = H ++ stored dev.aes P)
  (hH : H.length = FILE_HEADER_POLL_SIZE)
  (hpos : (w.kern.desc id).pos = FILE_HEADER_POLL_SIZE + p)
  (hmem : w.kern.answer.fails = false)
include hf hreg hdata hH hpos hmem

/-- The block arithmetic, as a function of the three numbers. -/
theorem read_pieces_any (n : Nat) :
    let readable := (w.kern.desc id).flags.acc.readable
    let c := countsOf dev.aes P p n (allowed readable (w.kern.tock 1).answer)
      (allowed readable (w.kern.tock 2).answer) (allowed readable (w.kern.tock 3).answer)
    let buf := c.tmpbuf (stored dev.aes (P.drop (p / 16 * 16))) (p % 16) n
      (16 - (n + (4096 + p)) % 16)
    ∃ w', read_pieces dev fd n ((FILE_HEADER_POLL_SIZE + p : Nat) : Int) w =
      if c.size > 0 then
        if c.size_2 < 0 then .error .undefined
        else .ok ((c.size_2, slice (decryptBlocks dev.aes (c.size.toNat / 16) buf) (p % 16)
          c.size_2.toNat), w')
      else .ok ((c.size_2, []), w') := by
  intro readable c buf
  let k := w.kern
  let D := H ++ stored dev.aes P
  let E := stored dev.aes (P.drop (p / 16 * 16))
  let m := 16 - (n + (4096 + p)) % 16
  have hH' : H.length = 4096 := hH
  have hE : E.length = P.length - p / 16 * 16 := by
    rw [show E.length = _ from stored_length dev.aes _, List.length_drop]
  have hD : D.length = 4096 + P.length := by
    rw [show D = H ++ stored dev.aes P from rfl, List.length_append, stored_length, hH']
  have hraw : ∀ off a l, off = 4096 + (p / 16 * 16 + a) → slice D off l = slice E a l := by
    intro off a l hoff
    rw [hoff]
    exact raw_slice hH P p a l
  -- the calls, each with the state it is made in
  have hcalloc : calloc w = .ok (true, { w with kern := k.tock 1 }) := calloc_ok hmem
  have hr1 : linker_pread fd ((4096 + p) % 16) ((4096 + p - (4096 + p) % 16 : Nat) : Int)
      { w with kern := k.tock 1 } =
      .ok ((c.size_1, slice E 0 c.size_1.toNat), { w with kern := k.tock 2 }) := by
    apply linker_pread_ok
    have h := sysPread_outcome (k := k.tock 1) hf hreg hdata ((4096 + p) % 16)
      (4096 + p - (4096 + p) % 16)
    have hrest : D.length - (4096 + p - (4096 + p) % 16) = E.length := by omega
    rw [show (H ++ stored dev.aes P).length - (4096 + p - (4096 + p) % 16) = E.length from hrest,
      show (4096 + p) % 16 = p % 16 from by omega] at h
    rw [show (4096 + p) % 16 = p % 16 from by omega]
    refine h.trans ?_
    rw [show H ++ stored dev.aes P = D from rfl, hraw _ 0 _ (by omega)]
    rfl
  let k₃ := ((k.tock 2).tock 1).setPos id (4096 + p + c.size_2.toNat)
  have hr2 : linker_read fd n { w with kern := k.tock 2 } =
      .ok ((c.size_2, slice E (p % 16) c.size_2.toNat), { w with kern := k₃ }) := by
    apply linker_read_ok
    have h := sysRead_outcome (k := k.tock 2) hf hreg hdata n
    have hrest : D.length - (4096 + p) = E.length - p % 16 := by omega
    rw [Kernel.tock_desc, show (k.desc id).pos = 4096 + p from hpos] at h
    dsimp only at h
    rw [show (H ++ stored dev.aes P).length - (4096 + p) = E.length - p % 16 from hrest] at h
    refine h.trans ?_
    rw [show H ++ stored dev.aes P = D from rfl, hraw _ (p % 16) _ (by omega)]
    rfl
  have hd₃ : k₃.desc id = { k.desc id with pos := 4096 + p + c.size_2.toNat } :=
    Kernel.setPos_desc_self ..
  have hr3 : linker_pread fd m ((4096 + p + n : Nat) : Int) { w with kern := k₃ } =
      .ok ((c.size_3, slice E (p % 16 + n) c.size_3.toNat), { w with kern := k₃.tock 1 }) := by
    apply linker_pread_ok
    have h := sysPread_outcome (k := k₃) (D := D) hf (by rw [hd₃]; exact hreg)
      (by rw [hd₃]; exact hdata) m (4096 + p + n)
    have hrest : D.length - (4096 + p + n) = E.length - (p % 16 + n) := by omega
    rw [hd₃, hrest] at h
    refine h.trans ?_
    rw [hraw _ (p % 16 + n) _ (by omega)]
    rfl
  have hcount : n + p % 16 + 16 - (n + (4096 + p)) % 16 = p % 16 + n + m := by omega
  refine ⟨{ w with kern := k₃.tock 1 }, ?_⟩
  rw [read_pieces, if_neg (by omega)]
  simp only [Int.toNat_natCast, show FILE_HEADER_POLL_SIZE = 4096 from rfl]
  rw [bind_ok hcalloc, if_pos rfl, bind_ok hr1, bind_ok hr2, bind_ok hr3]
  simp only [show (4096 + p) % 16 = p % 16 from by omega, hcount]
  show (if c.size > 0 then _ else _ : Sys (Int × List UInt8)) _ = _
  split
  · split
    · rfl
    · rfl
  · rfl

/-- **One hooked read** from the arithmetic on. -/
theorem pieces_sound_iff (n : Nat) :
    let readable := (w.kern.desc id).flags.acc.readable
    ReadSound P p (read_pieces dev fd n ((FILE_HEADER_POLL_SIZE + p : Nat) : Int) w) ↔
      Keeps dev.aes (P.drop (p / 16 * 16)) (p % 16) n (16 - (n + (4096 + p)) % 16)
        (countsOf dev.aes P p n (allowed readable (w.kern.tock 1).answer)
          (allowed readable (w.kern.tock 2).answer) (allowed readable (w.kern.tock 3).answer)) := by
  intro readable
  obtain ⟨w', hrun⟩ := read_pieces_any hf hreg hdata hH hpos hmem n
  have hposs := countsOf_possible dev.aes P p n (allowed readable (w.kern.tock 1).answer)
    (allowed readable (w.kern.tock 2).answer) (allowed readable (w.kern.tock 3).answer)
  rw [hrun]
  generalize countsOf dev.aes P p n (allowed readable (w.kern.tock 1).answer)
    (allowed readable (w.kern.tock 2).answer)
      (allowed readable (w.kern.tock 3).answer) = c at hposs ⊢
  have hlow := hposs.low_2
  have hleft := hposs.left_2
  have htext : slice (P.drop (p / 16 * 16)) (p % 16) c.size_2.toNat = slice P p c.size_2.toNat := by
    rw [slice, slice, List.drop_drop, Nat.div_add_mod']
  have hlen : (slice P p c.size_2.toNat).length = c.size_2.toNat := by
    rw [stored_length, List.length_drop] at hleft
    rw [slice_length]
    omega
  have hbytes := delivered_iff dev.aes hposs
  rw [htext] at hbytes
  by_cases hsize : c.size > 0
  · by_cases hneg : c.size_2 < 0
    · -- a negative copy length
      rw [if_pos hsize, if_pos hneg]
      constructor
      · rintro ⟨r, bytes, w'', hbad, -⟩
        cases hbad
      · intro h
        have := h.failed hneg
        omega
    · rw [if_pos hsize, if_neg hneg]
      constructor
      · rintro ⟨r, bytes, w'', hok, hsound⟩
        obtain ⟨hres, -⟩ := Prod.mk.inj (Except.ok.inj hok)
        obtain ⟨rfl, rfl⟩ := Prod.mk.inj hres
        refine ⟨fun h => absurd h hneg, fun _ => hsize, fun _ => ?_⟩
        rcases hsound with ⟨hr, -⟩ | ⟨-, -, hb⟩
        · omega
        · exact hbytes.mp hb
      · intro h
        have hout : slice (decryptBlocks dev.aes (c.size.toNat / 16) (c.tmpbuf (stored dev.aes
            (P.drop (p / 16 * 16))) (p % 16) n (16 - (n + (4096 + p)) % 16))) (p % 16)
            c.size_2.toNat = slice P p c.size_2.toNat := by
          by_cases hpos2 : 0 < c.size_2
          · exact hbytes.mpr (h.right hpos2)
          · rw [show c.size_2.toNat = 0 from by omega, slice_zero, slice_zero]
        refine ⟨_, _, w', rfl, .inr ⟨by omega, ?_, hout⟩⟩
        rw [hout, hlen]
        omega
  · rw [if_neg hsize]
    constructor
    · rintro ⟨r, bytes, w'', hok, hsound⟩
      obtain ⟨hres, -⟩ := Prod.mk.inj (Except.ok.inj hok)
      obtain ⟨rfl, rfl⟩ := Prod.mk.inj hres
      have hnone : ¬ 0 < c.size_2 := by
        rcases hsound with ⟨hr, -⟩ | ⟨-, hcount, -⟩
        · omega
        · rw [List.length_nil] at hcount
          omega
      exact ⟨fun _ => by omega, fun h => absurd h hnone, fun h => absurd h hnone⟩
    · intro h
      -- nothing is counted, so the body delivered nothing
      have hnone : ¬ 0 < c.size_2 := fun hpos2 => hsize (h.counted hpos2)
      refine ⟨_, _, w', rfl, ?_⟩
      by_cases hzero : c.size_2 = 0
      · rw [hzero]
        exact .inr ⟨by omega, rfl, (slice_zero _ _).symm⟩
      · exact .inl ⟨by omega, rfl⟩

end Pieces

/-- How many seeks the hook makes from a cursor: a second one where it lies in the header. -/
def seeks (pos : Nat) : Nat := if pos < FILE_HEADER_POLL_SIZE then 2 else 1

/-- The hook up to the arithmetic, when the calls in front of that do not fail. -/
theorem read_reaches {dev : Device} {env : Env} {w w₁ : World} {fd : Int} {id : Nat}
    {p : Nat} (henv : env.Active) (hf : w.kern.find fd = some id)
    (hreg : (w.kern.desc id).regular = true)
    (hcur : (w.kern.desc id).pos = FILE_HEADER_POLL_SIZE + p ∨ (w.kern.desc id).pos = 0 ∧ p = 0)
    (hmem : w.kern.answer.fails = false) (hstat : (w.kern.tock 1).answer.fails = false)
    (hpass : passes_through fd { w with kern := w.kern.tock 2 } = .ok (false, w₁))
    (hseek : ∀ j, j < seeks (w.kern.desc id).pos → (w₁.kern.tock j).answer.fails = false)
    (n : Nat) :
    let w₂ : World := { w₁ with kern :=
      (w₁.kern.tock (seeks (w.kern.desc id).pos)).setPos id (FILE_HEADER_POLL_SIZE + p) }
    w₁.kern.find fd = some id ∧ w₁.kern.files = w.kern.files ∧ w₁.kern.desc = w.kern.desc ∧
      TeRead.read dev env fd n w =
        read_pieces dev fd n ((FILE_HEADER_POLL_SIZE + p : Nat) : Int) w₂ := by
  intro w₂
  have hrest := TeSeek.resting_passes_through fd hpass
  have hfiles : w₁.kern.files = w.kern.files := hrest.1
  have hdesc : w₁.kern.desc = w.kern.desc := hrest.2
  have hf₁ : w₁.kern.find fd = some id := (TeTable.kept_passes_through fd hpass).1.find hf
  refine ⟨hf₁, hfiles, hdesc, ?_⟩
  have hreg₁ : (w₁.kern.desc id).regular = true := by
    rw [hdesc]
    exact hreg
  have hfstat : linker_fstat fd { w with kern := w.kern.tock 1 } =
      .ok (some ⟨true, (w.kern.files.data (w.kern.desc id).inode).length⟩,
        { w with kern := w.kern.tock 2 }) := by
    apply linker_fstat_ok
    rw [Kernel.sysFstat_granted (k := w.kern.tock 1) hstat hf, Kernel.tock_desc, hreg]
    rfl
  have hpos₁ : (w₁.kern.desc id).pos = (w.kern.desc id).pos := by rw [hdesc]
  have htell : linker_lseek fd 0 .cur w₁ =
      .ok (((w.kern.desc id).pos : Int), { w₁ with kern := w₁.kern.tock 1 }) := by
    apply linker_lseek_ok
    rw [← hpos₁]
    refine Kernel.sysLseek_told (hseek 0 ?_) hf₁ hreg₁
    unfold seeks
    split
    · omega
    · omega
  rw [TeRead.read, hooked_active henv, bind_ok (calloc_ok hmem), if_pos rfl, bind_ok hfstat]
  show (if true = false then _ else _ : Sys (Int × List UInt8)) _ = _
  rw [if_neg (by decide), bind_ok hpass, if_neg (by decide), read_decrypted, bind_ok htell]
  rcases hcur with hpos | ⟨hpos, rfl⟩
  · have hone : seeks (w.kern.desc id).pos = 1 := by
      rw [seeks, hpos, if_neg (by omega)]
    have hsame : w₂ = { w₁ with kern := w₁.kern.tock 1 } := by
      have hk : (w₁.kern.tock 1).setPos id (w₁.kern.desc id).pos = w₁.kern.tock 1 :=
        (w₁.kern.tock 1).setPos_same id
      have hkern : w₂.kern = w₁.kern.tock 1 := by
        show (w₁.kern.tock (seeks (w.kern.desc id).pos)).setPos id (FILE_HEADER_POLL_SIZE + p) = _
        rw [hone, ← hpos, ← hpos₁, hk]
      exact congrArg (fun k => World.mk k w₁.file_info_list) hkern
    rw [hsame, hpos, if_neg (by show ¬ (_ ∧ ((4096 + p : Nat) : Int) < (4096 : Nat)); omega)]
  · have htwo : seeks (w.kern.desc id).pos = 2 := by
      rw [seeks, hpos]
      rfl
    have hmove : linker_lseek fd FILE_HEADER_POLL_SIZE .set
        { w₁ with kern := w₁.kern.tock 1 } = .ok ((4096 : Int), w₂) := by
      apply linker_lseek_ok
      rw [Kernel.sysLseek_granted (k := w₁.kern.tock 1) (hseek 1 (by omega)) hf₁ hreg₁, if_neg (by
        show ¬ (0 : Int) + ((4096 : Nat) : Int) < 0
        omega)]
      show _ = ((4096 : Int), ((w₁.kern.tock (seeks (w.kern.desc id).pos)).setPos id
        (FILE_HEADER_POLL_SIZE + 0)))
      rw [htwo]
      rfl
    rw [hpos, if_pos (by decide), bind_ok hmove]
    rfl

/-- **Short and failed reads.**  A descriptor counts as one of an encrypted file and stands at
    position `p` of the text `P`; the calls around the three reads do not fail.  Whatever the
    three reads return, the hook fails and copies nothing, or copies as many bytes of the
    text as it says: exactly when the three numbers are `Keeps`. -/
theorem read_sound_iff {dev : Device} {env : Env} {w w₁ : World} {fd : Int} {id : Nat}
    {H P : List UInt8} {p : Nat} (henv : env.Active) (hf : w.kern.find fd = some id)
    (hreg : (w.kern.desc id).regular = true)
    (hdata : w.kern.files.data (w.kern.desc id).inode = H ++ stored dev.aes P)
    (hH : H.length = FILE_HEADER_POLL_SIZE)
    (hcur : (w.kern.desc id).pos = FILE_HEADER_POLL_SIZE + p ∨ (w.kern.desc id).pos = 0 ∧ p = 0)
    (hmem : w.kern.answer.fails = false) (hstat : (w.kern.tock 1).answer.fails = false)
    (hpass : passes_through fd { w with kern := w.kern.tock 2 } = .ok (false, w₁))
    (hseek : ∀ j, j ≤ seeks (w.kern.desc id).pos → (w₁.kern.tock j).answer.fails = false)
    (n : Nat) :
    let readable := (w.kern.desc id).flags.acc.readable
    let t := seeks (w.kern.desc id).pos
    ReadSound P p (TeRead.read dev env fd n w) ↔
      Keeps dev.aes (P.drop (p / 16 * 16)) (p % 16) n (16 - (n + (4096 + p)) % 16)
        (countsOf dev.aes P p n (allowed readable (w₁.kern.tock (t + 1)).answer)
          (allowed readable (w₁.kern.tock (t + 2)).answer)
          (allowed readable (w₁.kern.tock (t + 3)).answer)) := by
  intro readable t
  obtain ⟨hf₁, hfiles, hdesc, hrun⟩ := @read_reaches dev env w w₁ fd id p henv hf hreg hcur hmem
    hstat hpass (fun j hj => hseek j (Nat.le_of_lt hj)) n
  rw [hrun]
  let k₂ := (w₁.kern.tock t).setPos id (FILE_HEADER_POLL_SIZE + p)
  have hd₂ : k₂.desc id = { w.kern.desc id with pos := FILE_HEADER_POLL_SIZE + p } := by
    rw [Kernel.setPos_desc_self, Kernel.tock_desc, hdesc]
  have h := @pieces_sound_iff dev { w₁ with kern := k₂ } fd id H P p hf₁
    (by rw [hd₂]; exact hreg) (by rw [hd₂]; show w₁.kern.files.data _ = _; rw [hfiles]; exact hdata)
    hH (by rw [hd₂]) (hseek t (Nat.le_refl _)) n
  rw [hd₂] at h
  exact h

/-- A tracked reader of the stored form of `P`, at its start, on a host with the given
    answers. -/
def readerOn (P : List UInt8) (answer : Nat → Answer) : World where
  kern := { Kernel.oneDescriptor (newHeader none ++ stored aDevice.aes P)
      { acc := .rdonly } 4096 with
    host := { answer := answer } }
  file_info_list := [⟨3, Kernel.aName, none⟩]

private theorem readerOn_passes (P : List UInt8) (answer : Nat → Answer) :
    passes_through 3 { readerOn P answer with kern := (readerOn P answer).kern.tock 2 } =
      .ok (false, { readerOn P answer with kern := (readerOn P answer).kern.tock 2 }) :=
  passes_through_tracked ⟨_, List.mem_singleton.mpr rfl, rfl⟩

/-- The body of the read is the sixth call. -/
def atBody (a : Answer) (t : Nat) : Answer := if t = 5 then a else {}

private theorem readerOn_run (P : List UInt8) (a : Answer) (n : Nat) :
    let c := countsOf aDevice.aes P 0 n {} (allowed true a) {}
    let buf := c.tmpbuf (stored aDevice.aes P) 0 n (16 - (n + 4096) % 16)
    ∃ w', TeRead.read aDevice activeEnv 3 n (readerOn P (atBody a)) =
      if c.size > 0 then
        if c.size_2 < 0 then .error .undefined
        else .ok ((c.size_2, slice (decryptBlocks aDevice.aes (c.size.toNat / 16) buf) 0
          c.size_2.toNat), w')
      else .ok ((c.size_2, []), w') := by
  intro c buf
  have hcalm : ∀ t, t ≠ 5 → atBody a t = {} := fun t h => if_neg h
  obtain ⟨-, -, -, hrun⟩ := @read_reaches aDevice activeEnv (readerOn P (atBody a)) _ 3 1 0
    ⟨rfl, rfl, rfl⟩ rfl rfl (.inl rfl) rfl rfl (readerOn_passes P (atBody a)) (by
      intro j hj
      have hone : seeks ((readerOn P (atBody a)).kern.desc 1).pos = 1 := rfl
      have h0 : j = 0 := by omega
      rw [h0]
      rfl) n
  obtain ⟨w', hpieces⟩ := @read_pieces_any aDevice { readerOn P (atBody a) with
      kern := ((readerOn P (atBody a)).kern.tock 3).setPos 1 (FILE_HEADER_POLL_SIZE + 0) } 3 1
    (newHeader none) P 0 rfl rfl rfl (newHeader_length none) rfl rfl n
  exact ⟨w', hrun.trans hpieces⟩

/-- Twenty bytes are asked for and the body brings a block of them: that block is delivered. -/
theorem read_sound_sixteen :
    ReadSound (zeroed 20) 0
      (TeRead.read aDevice activeEnv 3 20 (readerOn (zeroed 20) (atBody { limit := some 16 }))) ∧
    ∃ w', TeRead.read aDevice activeEnv 3 20 (readerOn (zeroed 20) (atBody { limit := some 16 })) =
      .ok ((16, zeroed 16), w') := by
  have hcounts : countsOf aDevice.aes (zeroed 20) 0 20 {} (allowed true { limit := some 16 }) {} =
      ⟨0, 16, 0⟩ := by decide
  constructor
  · refine (read_sound_iff (P := zeroed 20) (p := 0) ⟨rfl, rfl, rfl⟩ rfl rfl rfl
      (newHeader_length none) (.inl rfl) rfl rfl (readerOn_passes _ _) (fun j hj => ?_) 20).mpr ?_
    · have hone : seeks ((readerOn (zeroed 20) (atBody { limit := some 16 })).kern.desc 1).pos
          = 1 := rfl
      rcases (show j = 0 ∨ j = 1 by omega) with rfl | rfl
      · rfl
      · rfl
    · show Keeps aDevice.aes (zeroed 20) 0 20 12
        (countsOf aDevice.aes (zeroed 20) 0 20 {} (allowed true { limit := some 16 }) {})
      rw [hcounts]
      refine ⟨by decide, fun _ => by decide, fun _ b => ?_⟩
      by_cases hb : b < (Counts.size ⟨0, 16, 0⟩).toNat / 16
      · -- the complete block is all there
        have h0 : b = 0 := Nat.lt_one_iff.mp hb
        subst h0
        exact (if_pos hb).mpr (.inl ⟨by decide, fun i _ hi => .inr (.inl ⟨Nat.zero_le _, by
          show (i : Int) < 0 + 16
          omega⟩)⟩)
      · have h1 : 1 ≤ b := Nat.not_lt.mp hb
        exact (if_neg hb).mpr (.inl (by rw [zeroed_length]; omega))
  · obtain ⟨w', hrun⟩ := readerOn_run (zeroed 20) { limit := some 16 } 20
    have hbytes : slice (decryptBlocks aDevice.aes ((Counts.size ⟨0, 16, 0⟩).toNat / 16)
        (Counts.tmpbuf ⟨0, 16, 0⟩ (stored aDevice.aes (zeroed 20)) 0 20 (16 - (20 + 4096) % 16))) 0
        (16 : Int).toNat = zeroed 16 := by decide
    rw [hcounts] at hrun
    dsimp only at hrun
    rw [if_pos (by decide), if_neg (by decide), hbytes] at hrun
    exact ⟨w', hrun⟩

/-- A body that fails while the suffix arrives is copied with length -1; a body cut after
    eight bytes is filled up with zeros, and its stored bytes are delivered as the text. -/
theorem short_reads_leak :
    TeRead.read aDevice activeEnv 3 4 (readerOn (zeroed 20) (atBody { fails := true })) =
      .error .undefined ∧
    (∃ w', TeRead.read aDevice activeEnv 3 16 (readerOn (zeroed 32) (atBody { limit := some 8 })) =
      .ok ((8, [0xdb, 0xf1, 0x84, 0x11, 0x2e, 0xb9, 0x11, 0x16]), w')) ∧
    ¬ ReadSound (zeroed 32) 0
      (TeRead.read aDevice activeEnv 3 16 (readerOn (zeroed 32) (atBody { limit := some 8 }))) := by
  obtain ⟨w₁, hfail⟩ := readerOn_run (zeroed 20) { fails := true } 4
  obtain ⟨w₂, hcut⟩ := readerOn_run (zeroed 32) { limit := some 8 } 16
  have hcounts₁ : countsOf aDevice.aes (zeroed 20) 0 4 {} (allowed true { fails := true }) {} =
      ⟨0, -1, 12⟩ := by decide
  have hcounts₂ : countsOf aDevice.aes (zeroed 32) 0 16 {} (allowed true { limit := some 8 }) {} =
      ⟨0, 8, 16⟩ := by decide
  have hbytes : slice (decryptBlocks aDevice.aes ((Counts.size ⟨0, 8, 16⟩).toNat / 16)
      (Counts.tmpbuf ⟨0, 8, 16⟩ (stored aDevice.aes (zeroed 32)) 0 16 (16 - (16 + 4096) % 16))) 0
      (8 : Int).toNat = [0xdb, 0xf1, 0x84, 0x11, 0x2e, 0xb9, 0x11, 0x16] := by decide
  rw [hcounts₁] at hfail
  rw [hcounts₂] at hcut
  dsimp only at hfail hcut
  rw [if_pos (by decide), if_pos (by decide)] at hfail
  rw [if_pos (by decide), if_neg (by decide), hbytes] at hcut
  refine ⟨hfail, ⟨w₂, hcut⟩, ?_⟩
  rintro ⟨r, bytes, w', hrun, hsound⟩
  obtain ⟨hres, -⟩ := Prod.mk.inj (Except.ok.inj (hcut.symm.trans hrun))
  obtain ⟨rfl, rfl⟩ := Prod.mk.inj hres
  rcases hsound with ⟨hr, -⟩ | ⟨-, -, hb⟩
  · exact absurd hr (by decide)
  · exact absurd hb (by decide)

end TeShortRead
