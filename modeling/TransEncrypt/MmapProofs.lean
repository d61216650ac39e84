import TransEncrypt.SeekProofs
import TransEncrypt.WorkerProofs

/-! # The hooked mmap — a view of the plain text

    `mmap` maps the raw file from behind the header on and decrypts the mapping in
    place.  It takes the length of the mapping and the number of blocks from the size
    of the whole file, whatever offset and length it was asked for.

    * `View`: a mapping, as the bytes that can be touched; the rest of its pages lies
      behind the end of the file;
    * `decrypt_view_private`: the loop over a private mapping;
    * `mmap_mapped`: the mapping shows the plain text exactly when `MmapFits`;
    * `fits_start`, `mmap_killed`: at offset 0 it fits, and at almost every other offset
      the loop runs off the mapping. -/

namespace TeMmap

open Posix Overlay Blockwise TeHeader TeStored Hoare TeProgram TeDetector TeWorker TeSeek

/-! ## Mappings -/

/-- The protection of a mapping. -/
structure Prot where
  read : Bool
  write : Bool
  exec : Bool
  deriving DecidableEq, Repr

inductive MapType where
  | map_shared
  | map_private
  deriving DecidableEq, Repr

/-- A mapping: the bytes that can be touched, and for a shared one the file behind them
    and the offset in it. -/
structure View where
  bytes : List UInt8
  back : Option (Nat × Nat)
  deriving DecidableEq, Repr

/-- Rounded up to whole pages. -/
def pageUp (n : Nat) : Nat := (n + 4095) / 4096 * 4096

/-- The first `n` bytes from `off` on, zeros behind the end. -/
def filled (D : List UInt8) (off n : Nat) : List UInt8 :=
  slice D off n ++ zeroed (n - (slice D off n).length)

/-- How many bytes of a mapping of `len` bytes can be touched when the file holds `rest`
    bytes from its offset on: pages wholly behind the end of the file cannot. -/
def room (len rest : Nat) : Nat := min (pageUp len) (pageUp rest)

/-- The room for user mappings. -/
def addressSpace : Nat := 2 ^ 47

/-- The conversion of an `int` to `size_t`. -/
def toSize (len : Int) : Nat := (len % 2 ^ 64).toNat

/-- The real `mmap` without a fixed address.  The descriptor has to be readable, and a
    shared mapping for writing needs it writable too. -/
def sysMmap (k : Kernel) (length : Nat) (prot : Prot) (flags : MapType) (fd offset : Int) :
    Option View × Kernel :=
  match k.find fd with
  | none => (none, k.tock 1)
  | some id =>
      let d := k.desc id
      if k.answer.fails || !d.regular || !d.flags.acc.readable
          || (flags == .map_shared && prot.write && !d.flags.acc.writable)
          || length == 0 || addressSpace < length || offset < 0 || offset % 4096 != 0 then
        (none, k.tock 1)
      else
        let D := k.files.data d.inode
        (some {
          bytes := filled D offset.toNat (room length (D.length - offset.toNat))
          back := if flags = .map_shared then some (d.inode, offset.toNat) else none },
          k.tock 1)

def linker_mmap (length : Nat) (prot : Prot) (flags : MapType) (fd offset : Int) :
    Sys (Option View) :=
  kernelCall (fun k => sysMmap k length prot flags fd offset)

/-- Storing into a mapping.  What a shared one holds of the file goes to the file. -/
def View.store (v : View) (off : Nat) (bs : List UInt8) : Sys View := fun w =>
  .ok ({ v with bytes := overlay 0 v.bytes off bs },
    match v.back with
    | none => w
    | some (i, at₀) =>
        let D := w.kern.files.data i
        { w with kern := w.kern.setData i ((overlay 0 D (at₀ + off) bs).take D.length) })

/-! ## The hook -/

/-- One turn of the loop; touching what cannot be touched ends the process. -/
def decrypt_block (aes : AES) (i : Nat) (result : View) : Sys View :=
  if i * 16 + 16 ≤ result.bytes.length then
    result.store (i * 16) (aes_decrypt_128bit aes (slice result.bytes (i * 16) 16))
  else undefinedBehaviour

/-- `n` turns of the loop, from turn `i` on. -/
def decrypt_view (aes : AES) : Nat → Nat → View → Sys View
  | _, 0, result => pure result
  | i, n + 1, result => do
      let result ← decrypt_block aes i result
      decrypt_view aes (i + 1) n result

/-- `mmap`.  A failed `linker_fstat` is not noticed and leaves the size 0. -/
def mmap (dev : Device) (env : Env) (length : Nat) (prot : Prot) (flags : MapType)
    (fd offset : Int) : Sys (Option View) :=
  hooked env none (linker_mmap length prot flags fd offset) do
    if (← passes_through fd) then linker_mmap length prot flags fd offset
    else if prot.read then do
      let state ← linker_fstat fd
      let st_size := (state.map Stat.st_size).getD 0
      let len := toInt (st_size - (FILE_HEADER_POLL_SIZE : Nat))
      match (← linker_mmap (toSize len) { prot with exec := true, write := true } flags fd
        (offset + (FILE_HEADER_POLL_SIZE : Nat))) with
      | some result => do
          let result ← decrypt_view dev.aes 0 (len / 16).toNat result
          pure (some result)
      | none => linker_mmap length prot flags fd offset
    else linker_mmap length prot flags fd offset

/-! ## The loop over a private mapping -/

@[simp] theorem filled_length (D : List UInt8) (off n : Nat) : (filled D off n).length = n := by
  rw [filled, List.length_append, zeroed_length, slice_length]
  omega

/-- Byte by byte: the file, and zeros behind its end. -/
theorem filled_get (D : List UInt8) (off : Nat) {n i : Nat} (h : i < n) :
    (filled D off n)[i]? = some (D[off + i]?.getD 0) := by
  rw [filled, List.getElem?_append, slice_length]
  by_cases hin : off + i < D.length
  · rw [if_pos (by omega), slice, List.getElem?_take, if_pos h, List.getElem?_drop,
      List.getElem?_eq_getElem hin]
    rfl
  · rw [if_neg (by omega), zeroed, List.getElem?_replicate, if_pos (by omega),
      List.getElem?_eq_none (by omega)]
    rfl

section Loop

variable (aes : AES) {w : World}

/-- A turn of the loop behind the bytes `A` stores the next block. -/
theorem decrypt_block_next {A B : List UInt8} {i : Nat} (back : Option (Nat × Nat))
    (hA : A.length = i * 16) (hB : 16 ≤ B.length) :
    decrypt_block aes i ⟨A ++ B, back⟩ =
        View.store ⟨A ++ B, back⟩ (i * 16) (aes_decrypt_128bit aes (B.take 16)) ∧
      overlay 0 (A ++ B) (i * 16) (aes_decrypt_128bit aes (B.take 16)) =
        (A ++ aes_decrypt_128bit aes (B.take 16)) ++ B.drop 16 := by
  have hlen : (aes_decrypt_128bit aes (B.take 16)).length = 16 :=
    aes_decrypt_length aes (by rw [List.length_take]; omega)
  have hslice : slice (A ++ B) (i * 16) 16 = B.take 16 := by
    rw [← hA]
    exact slice_append_left A B 0 16
  constructor
  · rw [decrypt_block, if_pos (by rw [List.length_append]; omega), hslice]
  · have h := overlay_append_left (0 : UInt8) A B 0 (aes_decrypt_128bit aes (B.take 16))
    rw [Nat.add_zero, hA, overlay_start, hlen] at h
    rw [h, List.append_assoc]

/-- In memory of its own that is all. -/
theorem decrypt_block_private {A B : List UInt8} {i : Nat} (hA : A.length = i * 16)
    (hB : 16 ≤ B.length) :
    decrypt_block aes i ⟨A ++ B, none⟩ w =
      .ok (⟨(A ++ aes_decrypt_128bit aes (B.take 16)) ++ B.drop 16, none⟩, w) := by
  obtain ⟨hstore, hover⟩ := decrypt_block_next aes none hA hB
  rw [hstore, View.store, hover]

/-- **The loop.**  `n` blocks that can be touched are decrypted, and nothing else
    happens. -/
theorem decrypt_view_private : ∀ (n i : Nat) (A B : List UInt8), A.length = i * 16 →
    n * 16 ≤ B.length →
    decrypt_view aes i n ⟨A ++ B, none⟩ w = .ok (⟨A ++ decryptBlocks aes n B, none⟩, w) := by
  intro n
  induction n with
  | zero => intro i A B _ _; rfl
  | succ n ih =>
      intro i A B hA hB
      have hlen : (aes_decrypt_128bit aes (B.take 16)).length = 16 :=
        aes_decrypt_length aes (by rw [List.length_take]; omega)
      rw [decrypt_view, bind_ok (decrypt_block_private aes hA (by omega)),
        ih (i + 1) _ _ (by rw [List.length_append]; omega) (by rw [List.length_drop]; omega),
        List.append_assoc]
      rfl

/-- The loop runs into a page that cannot be touched. -/
theorem decrypt_view_killed : ∀ (n i : Nat) (A B : List UInt8), A.length = i * 16 →
    B.length < n * 16 → decrypt_view aes i n ⟨A ++ B, none⟩ w = .error .undefined := by
  intro n
  induction n with
  | zero => intro i A B _ hB; omega
  | succ n ih =>
      intro i A B hA hB
      by_cases hfull : 16 ≤ B.length
      · have hlen : (aes_decrypt_128bit aes (B.take 16)).length = 16 :=
          aes_decrypt_length aes (by rw [List.length_take]; omega)
        rw [decrypt_view, bind_ok (decrypt_block_private aes hA hfull)]
        exact ih (i + 1) _ _ (by rw [List.length_append]; omega)
          (by rw [List.length_drop]; omega)
      · rw [decrypt_view]
        refine bind_error ?_
        rw [decrypt_block, if_neg (by rw [List.length_append]; omega)]
        rfl

end Loop

/-! ## What a mapping is to show -/

/-- The mapping of `l` bytes of the plain text from `o` on shows the text, as far as it
    goes, and zeros behind it up to the end of its last page. -/
structure Mapped (P : List UInt8) (o l : Nat) (bytes : List UInt8) : Prop where
  text : ∀ i, i < min l (P.length - o) → bytes[i]? = P[o + i]?
  fill : ∀ i, P.length - o ≤ i → i < pageUp (P.length - o) → i < pageUp l → bytes[i]? = some 0

/-- The places that this is about. -/
def Asked (P : List UInt8) (o l i : Nat) : Prop :=
  i < min l (P.length - o) ∨
    (P.length - o ≤ i ∧ i < pageUp (P.length - o) ∧ i < pageUp l)

theorem mapped_iff {P : List UInt8} {o l : Nat} {bytes : List UInt8} :
    Mapped P o l bytes ↔ ∀ i, Asked P o l i → bytes[i]? = some (P[o + i]?.getD 0) := by
  have htext : ∀ i, i < P.length - o → P[o + i]? = some (P[o + i]?.getD 0) := by
    intro i hi
    rw [List.getElem?_eq_getElem (by omega)]
    rfl
  have hfill : ∀ i, P.length - o ≤ i → P[o + i]?.getD 0 = 0 := by
    intro i hi
    rw [List.getElem?_eq_none (by omega)]
    rfl
  constructor
  · rintro h i (hi | ⟨hi, hpage, hl⟩)
    · rw [h.text i hi, ← htext i (by omega)]
    · rw [h.fill i hi hpage hl, hfill i hi]
  · intro h
    constructor
    · intro i hi
      rw [h i (.inl hi), ← htext i (by omega)]
    · intro i hi hpage hl
      rw [h i (.inr ⟨hi, hpage, hl⟩), hfill i hi]

/-- A mapping of `m` bytes of the stored text from `o` on, `n` blocks of which are
    decrypted, shows the plain text: it reaches far enough, nothing but complete blocks of
    the text is decrypted, and all of these are, up to places at which the cipher leaves
    the byte alone. -/
structure Fits (aes : AES) (P : List UInt8) (o l n m : Nat) : Prop where
  reach : ∀ i, Asked P o l i → i < m
  whole : ∀ i, Asked P o l i → i < n * 16 → P.length / 16 * 16 ≤ o + i →
    (aes_decrypt_128bit aes (block (filled P o m) (i / 16)))[i % 16]? = (filled P o m)[i]?
  all : ∀ i, Asked P o l i → n * 16 ≤ i → o + i < P.length →
    (stored aes P)[o + i]? = P[o + i]?

/-! ## Decrypting the stored text -/

section Text

variable (aes : AES) {P : List UInt8} {o m i : Nat} (ho : o % 16 = 0)
include ho

/-- A complete block of the text decrypts to what it was. -/
theorem decrypt_block_text (hm : i / 16 * 16 + 16 ≤ m) (hi : o + i < P.length / 16 * 16) :
    (aes_decrypt_128bit aes (block (filled (stored aes P) o m) (i / 16)))[i % 16]? = P[o + i]? := by
  have hblock :
      block (filled (stored aes P) o m) (i / 16) = stored aes (block P ((o + i) / 16)) := by
    rw [← stored_block]
    apply List.ext_getElem?
    intro j
    rw [block, block, slice, slice, List.getElem?_take, List.getElem?_take]
    split
    · rename_i hj
      rw [List.getElem?_drop, List.getElem?_drop, filled_get _ _ (by omega),
        show o + (i / 16 * 16 + j) = (o + i) / 16 * 16 + j from by omega,
        List.getElem?_eq_getElem (by rw [stored_length]; omega)]
      rfl
    · rfl
  have hlen : (block P ((o + i) / 16)).length = 16 := by
    rw [block_length]
    omega
  rw [hblock, stored_full aes hlen, show i % 16 = (o + i) % 16 from by omega]
  show ((aes userKey).dec ((aes userKey).enc _))[_]? = _
  rw [(aes userKey).dec_enc _ hlen, block_get]

/-- Behind the last complete block of the text there is nothing stored to decrypt. -/
theorem block_behind (hi : P.length / 16 * 16 ≤ o + i) :
    block (filled (stored aes P) o m) (i / 16) = block (filled P o m) (i / 16) := by
  apply List.ext_getElem?
  intro j
  rw [block, block, slice, slice, List.getElem?_take, List.getElem?_take, List.getElem?_drop,
    List.getElem?_drop]
  split
  · by_cases hm : i / 16 * 16 + j < m
    · rw [filled_get _ _ hm, filled_get _ _ hm, stored_tail_get aes (by omega)]
    · rw [List.getElem?_eq_none (by rw [filled_length]; omega),
        List.getElem?_eq_none (by rw [filled_length]; omega)]
  · rfl

/-- **Decrypting `n` blocks** of a mapping of the stored text gives a mapping of the text
    exactly when it fits. -/
theorem mapped_decrypted {l n : Nat} (hn : n * 16 ≤ m) :
    Mapped P o l (decryptBlocks aes n (filled (stored aes P) o m)) ↔ Fits aes P o l n m := by
  have hn' : n * 16 ≤ (filled (stored aes P) o m).length := by
    rw [filled_length]
    exact hn
  rw [mapped_iff]
  constructor
  · intro h
    have hreach : ∀ i, Asked P o l i → i < m := by
      intro i hi
      have hlt := (List.getElem?_eq_some_iff.mp (h i hi)).1
      rw [decryptBlocks_length aes hn', filled_length] at hlt
      exact hlt
    constructor
    · exact hreach
    · intro i hi hlt htail
      have hget := h i hi
      rw [decryptBlocks_get aes hn', if_pos hlt, block_behind aes ho htail] at hget
      rw [hget, filled_get _ _ (hreach i hi)]
    · intro i hi hge hin
      have hget := h i hi
      rw [decryptBlocks_get aes hn', if_neg (by omega), filled_get _ _ (hreach i hi)] at hget
      rw [List.getElem?_eq_getElem (by rw [stored_length]; omega),
        List.getElem?_eq_getElem hin] at hget ⊢
      exact hget
  · intro h i hi
    have hm := h.reach i hi
    rw [decryptBlocks_get aes hn']
    split
    · rename_i hlt
      by_cases htail : P.length / 16 * 16 ≤ o + i
      · rw [block_behind aes ho htail, h.whole i hi hlt htail, filled_get _ _ hm]
      · rw [decrypt_block_text aes ho (by omega) (by omega), List.getElem?_eq_getElem (by omega)]
        rfl
    · rename_i hge
      rw [filled_get _ _ hm]
      by_cases hin : o + i < P.length
      · rw [h.all i hi (by omega) hin]
      · rw [List.getElem?_eq_none (by rw [stored_length]; omega),
          List.getElem?_eq_none (by omega)]

end Text

/-! ## The hooked call -/

/-- The first mapping is made: the host grants it, and the length does not come out as
    nothing or negative. -/
def First (k : Kernel) (P : List UInt8) : Prop :=
  k.answer.fails = false ∧ (k.tock 1).answer.fails = false ∧ 0 < toInt P.length

instance (k : Kernel) (P : List UInt8) : Decidable (First k P) :=
  inferInstanceAs (Decidable (_ ∧ _))

/-- Else the raw file is mapped, if the host grants that. -/
def Second (k : Kernel) (l : Nat) : Prop :=
  (k.tock 2).answer.fails = false ∧ l ≤ addressSpace

/-- The blocks that are decrypted, and the bytes of the first mapping. -/
def blocksOf (P : List UInt8) : Nat := (toInt P.length / 16).toNat

def roomOf (P : List UInt8) (o : Nat) : Nat := room (toInt P.length).toNat (P.length - o)

/-- When a returned mapping shows the text: the decrypted one fits it, or the process did
    not live to return it, and a raw one agrees with it by chance. -/
def MmapFits (aes : AES) (k : Kernel) (H P : List UInt8) (o l : Nat) : Prop :=
  if First k P then
    blocksOf P * 16 ≤ roomOf P o → Fits aes P o l (blocksOf P) (roomOf P o)
  else Second k l → ∀ i, Asked P o l i → (H ++ stored aes P)[o + i]? = some (P[o + i]?.getD 0)

theorem toInt_bounds (x : Int) : -2147483648 ≤ toInt x ∧ toInt x < 2147483648 := by
  rw [toInt, Int.bmod_def]
  split
  · omega
  · omega

theorem toInt_small {x : Int} (h0 : 0 ≤ x) (h : x < 2147483648) : toInt x = x := by
  rw [toInt, Int.bmod_def]
  split
  · omega
  · omega

/-- A private mapping of a readable file. -/
theorem sysMmap_private {k : Kernel} {fd : Int} {id : Nat} (hf : k.find fd = some id)
    (hreg : (k.desc id).regular = true) (hacc : (k.desc id).flags.acc.readable = true)
    (length : Nat) (prot : Prot) {off : Nat} (hoff : off % 4096 = 0) :
    sysMmap k length prot .map_private fd off =
      if k.answer.fails = true ∨ length = 0 ∨ addressSpace < length then (none, k.tock 1)
      else (some ⟨filled (k.files.data (k.desc id).inode) off
        (room length ((k.files.data (k.desc id).inode).length - off)), none⟩, k.tock 1) := by
  have hmod : (off : Int) % 4096 = 0 := by omega
  have hneg : ¬ (off : Int) < 0 := by omega
  rw [sysMmap, hf]
  simp only [hreg, hacc, hmod, hneg, Int.toNat_natCast]
  by_cases hfails : k.answer.fails = true
  · simp [hfails]
  · by_cases hzero : length = 0
    · simp [hzero]
    · by_cases hbig : addressSpace < length
      · simp [hbig]
      · simp [hfails, hzero, hbig]

/-- A length that came out negative is too long for any address space. -/
theorem toSize_refused {len : Int} (h : len ≤ 0) (hlow : -2147483648 ≤ len) :
    toSize len = 0 ∨ addressSpace < toSize len := by
  rw [toSize, addressSpace]
  omega

theorem toSize_granted {len : Int} (h : 0 < len) (hhigh : len < 2147483648) :
    toSize len = len.toNat ∧ ¬ (toSize len = 0 ∨ addressSpace < toSize len) := by
  rw [toSize, addressSpace]
  omega

/-- The length of the first mapping; a size that is not known counts as 0. -/
def lengthOf (k : Kernel) (P : List UInt8) : Int :=
  if k.answer.fails = true then -4096 else toInt P.length

theorem lengthOf_eq {H P : List UInt8} (hH : H.length = FILE_HEADER_POLL_SIZE) (aes : AES)
    (k : Kernel) :
    toInt ((if k.answer.fails = true then 0 else ((H ++ stored aes P).length : Int))
      - (FILE_HEADER_POLL_SIZE : Nat)) = lengthOf k P := by
  rw [lengthOf]
  split
  · decide
  · have hsub : ((H ++ stored aes P).length : Int) - (FILE_HEADER_POLL_SIZE : Nat)
        = P.length := by
      rw [List.length_append, stored_length, hH]
      omega
    rw [hsub]

section Offsets

variable {P : List UInt8} {o l : Nat} (hsmall : P.length < 2147483648)
include hsmall

theorem blocksOf_small : blocksOf P = P.length / 16 := by
  rw [blocksOf, toInt_small (by omega) (by omega)]
  omega

theorem roomOf_small : roomOf P o = room P.length (P.length - o) := by
  rw [roomOf, toInt_small (by omega) (by omega), Int.toNat_natCast]

/-- At the start of the text everything fits. -/
theorem fits_start (aes : AES) : Fits aes P 0 l (blocksOf P) (roomOf P 0) := by
  rw [blocksOf_small hsmall, roomOf_small hsmall]
  constructor
  · intro i hi
    rw [Nat.sub_zero, room, Nat.min_self, pageUp]
    rcases hi with hi | ⟨-, hpage, -⟩
    · omega
    · rw [pageUp] at hpage
      omega
  · intro i _ hlt htail
    omega
  · intro i _ hge _
    rw [stored_tail_get aes (by omega)]

/-- Anywhere else the loop runs off the mapping, unless it is the second page and the text
    ends less than a block behind a page. -/
theorem runs_off (hpos : 0 < o) (ho : o % 4096 = 0)
    (hnot : ¬ (o = 4096 ∧ 0 < P.length % 4096 ∧ P.length % 4096 < 16)) (hlt : o < P.length) :
    ¬ blocksOf P * 16 ≤ roomOf P o := by
  rw [blocksOf_small hsmall, roomOf_small hsmall, room, pageUp, pageUp]
  omega

end Offsets

theorem behind_header {o : Nat} (ho : o % 4096 = 0) : (o + FILE_HEADER_POLL_SIZE) % 4096 = 0 := by
  rw [show FILE_HEADER_POLL_SIZE = 4096 from rfl]
  omega

/-- What holds of every returned mapping holds of the one that is returned. -/
theorem returned_iff {v₀ : View} {w' : World} {Q : View → Prop} :
    (∀ v w₂, (.ok (some v₀, w') : Except Stop (Option View × World)) = .ok (some v, w₂) → Q v) ↔
      Q v₀ := by
  constructor
  · intro h
    exact h v₀ w' rfl
  · intro h v w₂ heq
    obtain ⟨hv, -⟩ := Prod.mk.inj (Except.ok.inj heq)
    rw [← Option.some.inj hv]
    exact h

section Mmap

variable {dev : Device} {env : Env} {w w₁ : World} {fd : Int} {id : Nat} {H P : List UInt8}
  {o l : Nat} {prot : Prot} (henv : env.Active) (hfind : w.kern.find fd = some id)
  (hreg : (w.kern.desc id).regular = true)
  (hacc : (w.kern.desc id).flags.acc.readable = true) (hH : H.length = FILE_HEADER_POLL_SIZE)
  (hdata : w.kern.files.data (w.kern.desc id).inode = H ++ stored dev.aes P)
  (hpass : passes_through fd w = .ok (false, w₁)) (hread : prot.read = true)
  (ho : o % 4096 = 0) (hlt : o < P.length)
include hfind hreg hdata hpass

/-- The size that the call goes by. -/
theorem linker_fstat_at : linker_fstat fd w₁ =
    .ok (if w₁.kern.answer.fails = true then none
      else some ⟨true, (H ++ stored dev.aes P).length⟩, { w₁ with kern := w₁.kern.tock 1 }) := by
  obtain ⟨hfiles, hdesc⟩ := resting_passes_through fd hpass
  have hfind₁ : w₁.kern.find fd = some id := (TeTable.kept_passes_through fd hpass).1.find hfind
  have hdata₁ : w₁.kern.files.data (w₁.kern.desc id).inode = H ++ stored dev.aes P := by
    rw [hdesc, hfiles, hdata]
  have hreg₁ : (w₁.kern.desc id).regular = true := by
    rw [hdesc]
    exact hreg
  rw [linker_fstat, kernelCall, Kernel.sysFstat, hfind₁]
  simp only [hdata₁, hreg₁]
  split
  · rfl
  · rfl

include hacc

/-- A mapping of the file after the test. -/
theorem linker_mmap_at (n len : Nat) (pr : Prot) {off : Nat} (hoff : off % 4096 = 0) :
    linker_mmap len pr .map_private fd off { w₁ with kern := w₁.kern.tock n } =
      .ok (if (w₁.kern.tock n).answer.fails = true ∨ len = 0 ∨ addressSpace < len then none
        else some ⟨filled (H ++ stored dev.aes P) off
          (room len ((H ++ stored dev.aes P).length - off)), none⟩,
        { w₁ with kern := w₁.kern.tock (n + 1) }) := by
  obtain ⟨hfiles, hdesc⟩ := resting_passes_through fd hpass
  have hfind₁ : (w₁.kern.tock n).find fd = some id :=
    (TeTable.kept_passes_through fd hpass).1.find hfind
  have hdesc₁ : (w₁.kern.tock n).desc id = w.kern.desc id := congrFun hdesc id
  have hdata₁ : (w₁.kern.tock n).files.data ((w₁.kern.tock n).desc id).inode
      = H ++ stored dev.aes P := by
    rw [hdesc₁, Kernel.tock_files, hfiles, hdata]
  have h := sysMmap_private hfind₁ (by rw [hdesc₁]; exact hreg) (by rw [hdesc₁]; exact hacc)
    len pr hoff
  rw [hdata₁] at h
  rw [linker_mmap, kernelCall, h]
  split
  · rfl
  · rfl

include henv hH hread

omit hacc in
/-- The call up to the first mapping. -/
theorem mmap_run :
    mmap dev env l prot .map_private fd o w = (do
      match (← linker_mmap (toSize (lengthOf w₁.kern P)) { prot with exec := true, write := true }
        .map_private fd (o + (FILE_HEADER_POLL_SIZE : Nat))) with
      | some result => do
          let result ← decrypt_view dev.aes 0 (lengthOf w₁.kern P / 16).toNat result
          pure (some result)
      | none => linker_mmap l prot .map_private fd o : Sys (Option View))
      { w₁ with kern := w₁.kern.tock 1 } := by
  have hsize : ((if w₁.kern.answer.fails = true then none
        else some (⟨true, (H ++ stored dev.aes P).length⟩ : Stat)).map Stat.st_size).getD 0
      = if w₁.kern.answer.fails = true then 0 else ((H ++ stored dev.aes P).length : Int) := by
    split
    · rfl
    · rfl
  rw [mmap, hooked_active henv, bind_ok hpass, if_neg (by decide), if_pos hread,
    bind_ok (linker_fstat_at hfind hreg hdata hpass)]
  simp only [hsize, lengthOf_eq hH]

include ho

/-- The first mapping is made: its blocks are decrypted, or the process ends. -/
theorem mmap_first (hfirst : First w₁.kern P) :
    mmap dev env l prot .map_private fd o w =
      if blocksOf P * 16 ≤ roomOf P o then
        .ok (some ⟨decryptBlocks dev.aes (blocksOf P) (filled (stored dev.aes P) o (roomOf P o)),
          none⟩, { w₁ with kern := w₁.kern.tock 2 })
      else .error .undefined := by
  obtain ⟨hstat, hgrant, hpos⟩ := hfirst
  have hlen : lengthOf w₁.kern P = toInt P.length := by
    rw [lengthOf, hstat, if_neg (by decide)]
  have hrun := mmap_run (o := o) (l := l) henv hfind hreg hH hdata hpass hread
  rw [hlen] at hrun
  have hhigh := (toInt_bounds P.length).2
  rw [blocksOf, roomOf]
  generalize toInt P.length = len at hrun hpos hhigh
  obtain ⟨hsize, hok⟩ := toSize_granted hpos hhigh
  have hmap := linker_mmap_at hfind hreg hacc hdata hpass 1
    (toSize len) { prot with exec := true, write := true } (behind_header ho)
  have hroom : room (toSize len) ((H ++ stored dev.aes P).length - (o + FILE_HEADER_POLL_SIZE))
      = room len.toNat (P.length - o) := by
    have hrest : FILE_HEADER_POLL_SIZE + P.length - (o + FILE_HEADER_POLL_SIZE) = P.length - o := by
      omega
    rw [hsize, List.length_append, stored_length, hH, hrest]
  have hfill : ∀ m, filled (H ++ stored dev.aes P) (o + FILE_HEADER_POLL_SIZE) m
      = filled (stored dev.aes P) o m := by
    intro m
    have hslice := slice_append_left H (stored dev.aes P) o m
    rw [hH, Nat.add_comm] at hslice
    rw [filled, filled, hslice]
  rw [if_neg (by rw [hgrant]; simpa using hok), hroom, hfill, Int.natCast_add] at hmap
  rw [hrun, bind_ok hmap]
  have hend : (w₁.kern.tock (1 + 1)) = w₁.kern.tock 2 := rfl
  rw [hend]
  split
  · rename_i hin
    have hview := decrypt_view_private dev.aes (w := { w₁ with kern := w₁.kern.tock 2 })
      (len / 16).toNat 0 [] (filled (stored dev.aes P) o (room len.toNat (P.length - o)))
      (Nat.zero_mul 16).symm (by rw [filled_length]; exact hin)
    rw [List.nil_append, List.nil_append] at hview
    simp only [bind_ok hview]
    rfl
  · rename_i hout
    have hview := decrypt_view_killed dev.aes (w := { w₁ with kern := w₁.kern.tock 2 })
      (len / 16).toNat 0 [] (filled (stored dev.aes P) o (room len.toNat (P.length - o)))
      (Nat.zero_mul 16).symm (by rw [filled_length]; omega)
    rw [List.nil_append] at hview
    simp only [bind_error hview]

/-- It is not made: the raw file is mapped. -/
theorem mmap_second (hfirst : ¬ First w₁.kern P) :
    mmap dev env l prot .map_private fd o w =
      linker_mmap l prot .map_private fd o { w₁ with kern := w₁.kern.tock 2 } := by
  have hrun := mmap_run (o := o) (l := l) henv hfind hreg hH hdata hpass hread
  have hmap := linker_mmap_at hfind hreg hacc hdata hpass 1
    (toSize (lengthOf w₁.kern P)) { prot with exec := true, write := true } (behind_header ho)
  have hrefused : (w₁.kern.tock 1).answer.fails = true ∨ toSize (lengthOf w₁.kern P) = 0 ∨
      addressSpace < toSize (lengthOf w₁.kern P) := by
    by_cases hstat : w₁.kern.answer.fails = true
    · rw [lengthOf, if_pos hstat]
      exact .inr (toSize_refused (by omega) (by omega))
    · by_cases hgrant : (w₁.kern.tock 1).answer.fails = true
      · exact .inl hgrant
      · have hpos : ¬ 0 < toInt P.length :=
          fun h => hfirst ⟨by simpa using hstat, by simpa using hgrant, h⟩
        rw [lengthOf, if_neg hstat]
        exact .inr (toSize_refused (by omega) (toInt_bounds _).1)
  rw [if_pos hrefused, Int.natCast_add] at hmap
  rw [hrun, bind_ok hmap]

include hlt

/-- Mapped from a later page on, the text ends the process. -/
theorem mmap_killed (hfirst : First w₁.kern P) (hsmall : P.length < 2147483648) (hpos : 0 < o)
    (hnot : ¬ (o = 4096 ∧ 0 < P.length % 4096 ∧ P.length % 4096 < 16)) :
    mmap dev env l prot .map_private fd o w = .error .undefined := by
  rw [mmap_first henv hfind hreg hacc hH hdata hpass hread ho hfirst,
    if_neg (runs_off hsmall hpos ho hnot hlt)]

omit henv hfind hreg hacc hdata hpass hread ho in
/-- A raw mapping shows the text when the raw bytes are those of the text. -/
theorem mapped_raw : Mapped P o l (filled (H ++ stored dev.aes P) o
      (room l ((H ++ stored dev.aes P).length - o))) ↔
    ∀ i, Asked P o l i → (H ++ stored dev.aes P)[o + i]? = some (P[o + i]?.getD 0) := by
  have hlen : (H ++ stored dev.aes P).length = 4096 + P.length := by
    rw [List.length_append, stored_length, hH]
    rfl
  have hin : ∀ i, Asked P o l i → i < room l ((H ++ stored dev.aes P).length - o) ∧
      o + i < (H ++ stored dev.aes P).length := by
    intro i hi
    rw [hlen, room, pageUp, pageUp]
    rcases hi with hi | ⟨hi, hpage, hl⟩
    · omega
    · rw [pageUp] at hpage hl
      omega
  have hget : ∀ i, Asked P o l i → (filled (H ++ stored dev.aes P) o
      (room l ((H ++ stored dev.aes P).length - o)))[i]? = (H ++ stored dev.aes P)[o + i]? := by
    intro i hi
    rw [filled_get _ _ (hin i hi).1, List.getElem?_eq_getElem (hin i hi).2]
    rfl
  rw [mapped_iff]
  constructor
  · intro h i hi
    rw [← hget i hi, h i hi]
  · intro h i hi
    rw [hget i hi, h i hi]

/-- **The view.**  Whenever the call returns a mapping, it shows the plain text: exactly
    under `MmapFits`. -/
theorem mmap_mapped (hl : 0 < l) :
    (∀ v w₂, mmap dev env l prot .map_private fd o w = .ok (some v, w₂) → Mapped P o l v.bytes) ↔
      MmapFits dev.aes w₁.kern H P o l := by
  rw [MmapFits]
  split
  · rename_i hfirst
    rw [mmap_first henv hfind hreg hacc hH hdata hpass hread ho hfirst]
    split
    · rename_i hroom
      have hfits := mapped_decrypted dev.aes (l := l) (P := P) (o := o) (by omega) hroom
      rw [← hfits, returned_iff (Q := fun v => Mapped P o l v.bytes)]
      dsimp only
      constructor
      · intro h _
        exact h
      · intro h
        exact h hroom
    · rename_i hroom
      constructor
      · intro _ hin
        exact absurd hin hroom
      · intro _ v w₂ hrun
        cases hrun
  · rename_i hfirst
    rw [mmap_second henv hfind hreg hacc hH hdata hpass hread ho hfirst,
      linker_mmap_at hfind hreg hacc hdata hpass 2 l prot ho, ← mapped_raw hH hlt]
    split
    · rename_i hrefused
      constructor
      · rintro - ⟨hgrant, hspace⟩
        rcases hrefused with hf | hz | hbig
        · cases hf.symm.trans hgrant
        · omega
        · omega
      · intro _ v w₂ hrun
        cases (Prod.mk.inj (Except.ok.inj hrun)).1
    · rename_i hgranted
      have hsecond : Second w₁.kern l := by
        refine ⟨?_, ?_⟩
        · by_contra hf
          exact hgranted (.inl (by simpa using hf))
        · by_contra hbig
          exact hgranted (.inr (.inr (by omega)))
      rw [returned_iff (Q := fun v => Mapped P o l v.bytes)]
      constructor
      · intro h _
        exact h
      · intro h
        exact h hsecond

end Mmap

/-! ## A second page -/

/-- The reader of the stored form of `P`, with its entry in the list. -/
def mapping (P : List UInt8) : World where
  kern := Kernel.oneDescriptor (newHeader none ++ stored aDevice.aes P) { acc := .rdonly } 4096
  file_info_list := [⟨3, Kernel.aName, none⟩]

def onlyRead : Prot := ⟨true, false, false⟩

private theorem mapping_passes (P : List UInt8) :
    passes_through 3 (mapping P) = .ok (false, mapping P) :=
  passes_through_tracked ⟨_, List.mem_singleton.mpr rfl, rfl⟩

private theorem mapping_env : activeEnv.Active := ⟨rfl, rfl, rfl⟩

private theorem mapping_find (P : List UInt8) : (mapping P).kern.find 3 = some 1 := rfl

private theorem mapping_data (P : List UInt8) :
    (mapping P).kern.files.data ((mapping P).kern.desc 1).inode
      = newHeader none ++ stored aDevice.aes P :=
  Kernel.oneDescriptor_data _ _ _

private theorem mapping_run {P : List UInt8} {o : Nat} (l : Nat) (ho : o % 4096 = 0)
    (hfirst : First (mapping P).kern P) (hroom : blocksOf P * 16 ≤ roomOf P o) :
    ∃ w₂, mmap aDevice activeEnv l onlyRead .map_private 3 o (mapping P) =
      .ok (some ⟨decryptBlocks aDevice.aes (blocksOf P)
        (filled (stored aDevice.aes P) o (roomOf P o)), none⟩, w₂) := by
  have hrun := @mmap_first aDevice activeEnv (mapping P) (mapping P) 3 1 (newHeader none) P o l
    onlyRead mapping_env (mapping_find P) rfl rfl (newHeader_length none) (mapping_data P)
    (mapping_passes P) rfl ho hfirst
  rw [if_pos hroom] at hrun
  exact ⟨_, hrun⟩

/-- A block and four bytes, mapped from the start. -/
theorem mmap_mapped_twenty :
    ∃ v w₂, mmap aDevice activeEnv 20 onlyRead .map_private 3 (0 : Nat) (mapping (zeroed 20)) =
      .ok (some v, w₂) ∧ Mapped (zeroed 20) 0 20 v.bytes := by
  have hfirst : First (mapping (zeroed 20)).kern (zeroed 20) := by decide
  obtain ⟨w₂, hrun⟩ := mapping_run 20 (Nat.zero_mod _) hfirst (by decide)
  refine ⟨_, w₂, hrun, ?_⟩
  refine (mmap_mapped mapping_env (mapping_find (zeroed 20)) rfl rfl (newHeader_length none)
    (mapping_data (zeroed 20)) (mapping_passes (zeroed 20)) rfl (Nat.zero_mod _) (by decide)
    (by decide)).mpr ?_ _ _ hrun
  rw [MmapFits, if_pos hfirst]
  intro _
  exact fits_start (by decide) _

/-- The second page of 4097 zeros: the one byte there is decrypted, with the zeros behind
    it, as if it were a block. -/
theorem second_page_decrypted :
    ∃ v w₂, mmap aDevice activeEnv 1 onlyRead .map_private 3 (4096 : Nat)
      (mapping (List.replicate 4097 0)) = .ok (some v, w₂) ∧
      ¬ Mapped (List.replicate 4097 0) 4096 1 v.bytes := by
  have hlen : (List.replicate 4097 (0 : UInt8)).length = 4097 := List.length_replicate
  have hsmall : (List.replicate 4097 (0 : UInt8)).length < 2147483648 := by omega
  have hblocks : blocksOf (List.replicate 4097 0) = 256 := by
    rw [blocksOf_small hsmall, hlen]
  have hroom : roomOf (List.replicate 4097 0) 4096 = 4096 := by
    rw [roomOf_small hsmall, hlen]
    rfl
  have hfirst : First (mapping (List.replicate 4097 0)).kern (List.replicate 4097 0) := by
    refine ⟨rfl, rfl, ?_⟩
    rw [hlen]
    decide
  have hfull : blocksOf (List.replicate 4097 0) * 16 ≤ roomOf (List.replicate 4097 0) 4096 := by
    omega
  obtain ⟨w₂, hrun⟩ := mapping_run 1 (Nat.mod_self _) hfirst hfull
  refine ⟨_, w₂, hrun, ?_⟩
  rw [hblocks, hroom, mapped_decrypted aDevice.aes (by decide) (by decide)]
  intro hfits
  have hbad := hfits.whole 0 (.inl (by rw [hlen]; decide)) (by decide) (by omega)
  have hblock : block (filled (List.replicate 4097 0) 4096 4096) 0 = zeroed 16 := by
    apply List.ext_getElem?
    intro j
    rw [block, slice, List.getElem?_take, zeroed, List.getElem?_replicate]
    split
    · rw [List.getElem?_drop, filled_get _ _ (by omega), List.getElem?_replicate]
      split
      · rfl
      · rfl
    · rfl
  rw [Nat.zero_div, hblock, filled_get _ _ (by decide), List.getElem?_replicate] at hbad
  exact absurd hbad (by decide)

end TeMmap
