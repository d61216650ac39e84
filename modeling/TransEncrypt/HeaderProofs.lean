import TransEncrypt.OverlayProofs
import TransEncrypt.BlockwiseProofs

/-! # The file header and the cipher — `ports/crypto.c`

    An encrypted file starts with a packed `struct file_header` of 4096 bytes.  The
    header is a byte list here and its fields are offsets into it.

    * `file_header_init_rights`: what the builder leaves is classified
      `FILE_TYPE_RIGHTS`, for every process name;
    * `stored` is the stored form of a plain text: every complete block encrypted
      under the fixed key, the last partial block plain. -/

namespace TeHeader

open Overlay Blockwise

/-! ## Buffers -/

/-- `memcpy(dst + off, src, n)`.  Bytes that would fall behind the buffer do not
    change the buffer. -/
def memcpy (dst : List UInt8) (off : Nat) (src : List UInt8) : List UInt8 :=
  (overlay 0 dst off src).take dst.length

/-- A zeroed buffer, as `calloc` and an initialiser `{0}` give it. -/
def zeroed (n : Nat) : List UInt8 := List.replicate n 0

@[simp] theorem zeroed_length (n : Nat) : (zeroed n).length = n :=
  List.length_replicate

@[simp] theorem memcpy_length (dst : List UInt8) (off : Nat) (src : List UInt8) :
    (memcpy dst off src).length = dst.length := by
  rw [memcpy, List.length_take]
  exact Nat.min_eq_left (le_overlay_length 0 dst off src)

/-- Inside the buffer a copy is a plain overlay. -/
theorem memcpy_eq {dst src : List UInt8} {off : Nat}
    (h : off + src.length ≤ dst.length) : memcpy dst off src = overlay 0 dst off src :=
  List.take_of_length_le (Nat.le_of_eq (overlay_length_of_le h))

/-- A copy leaves what lies before it. -/
theorem memcpy_slice_before {dst src : List UInt8} {off a n : Nat} (h : a + n ≤ off)
    (hd : off ≤ dst.length) : slice (memcpy dst off src) a n = slice dst a n := by
  have htake : (memcpy dst off src).take off = dst.take off := by
    rw [memcpy, List.take_take, Nat.min_eq_left hd, overlay_take (Nat.le_refl _) hd]
  have hcut : ∀ l : List UInt8, slice l a n = slice (l.take off) a n := by
    intro l
    rw [slice, slice, List.drop_take, List.take_take, Nat.min_eq_left (by omega)]
  rw [hcut, htake, ← hcut]

/-- A copy into the buffer can be read back. -/
theorem memcpy_slice_self {dst src : List UInt8} {off : Nat}
    (h : off + src.length ≤ dst.length) :
    slice (memcpy dst off src) off src.length = src := by
  rw [memcpy_eq h, slice_overlay_self]

/-- A copy to the start of a buffer. -/
theorem memcpy_front {dst src : List UInt8} (h : src.length ≤ dst.length) :
    memcpy dst 0 src = src ++ dst.drop src.length := by
  rw [memcpy_eq (by omega)]
  by_cases hs : src = []
  · rw [hs]
    exact overlay_nil ..
  · rw [overlay_eq hs, List.take_zero, List.nil_append, Nat.zero_add]

/-- The buffer being zeroed. -/
theorem memcpy_zeroed {n : Nat} {src : List UInt8} (h : src.length ≤ n) :
    memcpy (zeroed n) 0 src = src ++ zeroed (n - src.length) := by
  rw [memcpy_front (by rw [zeroed_length]; exact h), zeroed, List.drop_replicate]
  rfl

/-- A copy behind what has been copied so far. -/
theorem memcpy_next {a b : List UInt8} {n : Nat} (h : b.length ≤ n) :
    memcpy (a ++ zeroed n) a.length b = a ++ b ++ zeroed (n - b.length) := by
  rw [memcpy_eq (by rw [List.length_append, zeroed_length]; omega),
    ← Nat.add_zero a.length, overlay_append_left, ← memcpy_eq (by rw [zeroed_length]; omega),
    memcpy_zeroed h, List.append_assoc]

/-- The front of a buffer after a copy is what the copy makes of that front. -/
theorem memcpy_take {dst : List UInt8} {n : Nat} (h : n ≤ dst.length) (off : Nat)
    (src : List UInt8) : (memcpy dst off src).take n = memcpy (dst.take n) off src := by
  have hlen : (dst.take n).length = n := by
    rw [List.length_take]
    exact Nat.min_eq_left h
  rw [memcpy, memcpy, hlen, List.take_take, Nat.min_eq_left h]
  by_cases hs : src = []
  · rw [hs, overlay_nil, overlay_nil, List.take_take, Nat.min_self]
  · apply List.ext_getElem?
    intro i
    rw [List.getElem?_take, List.getElem?_take, overlay_get hs, overlay_get hs, hlen,
      List.getElem?_take]
    by_cases hi : i < n
    · rw [if_pos hi, if_pos hi, if_pos hi, if_pos hi, if_pos (Nat.lt_of_lt_of_le hi h)]
    · rw [if_neg hi, if_neg hi]

/-- A copy byte by byte. -/
theorem memcpy_get {dst src : List UInt8} {off i : Nat} (h : off + src.length ≤ dst.length) :
    (memcpy dst off src)[i]? =
      if off ≤ i ∧ i < off + src.length then src[i - off]? else dst[i]? := by
  rw [memcpy_eq h]
  by_cases hs : src = []
  · rw [hs, overlay_nil, if_neg (by rintro ⟨h1, h2⟩; rw [List.length_nil] at h2; omega)]
  · rw [overlay_get hs]
    grind

/-- Filling the rest of a buffer. -/
theorem memcpy_rest {dst src : List UInt8} {off : Nat} (h : dst.length = off + src.length) :
    memcpy dst off src = dst.take off ++ src := by
  rw [memcpy_eq (by omega)]
  by_cases hs : src = []
  · rw [hs] at h ⊢
    rw [overlay_nil, List.append_nil]
    exact (List.take_of_length_le (Nat.le_of_eq h)).symm
  · rw [overlay_eq hs, List.drop_eq_nil_of_le (by omega), List.append_nil,
      List.take_append_of_le_length (by omega)]

/-! ## The header -/

def SIGNATURE : List UInt8 :=
  [0x08, 0x88, 0x41, 0xF3, 0xCD, 0x83, 0xE8, 0xC0,
   0x8F, 0x29, 0x03, 0xDC, 0x31, 0xE5, 0xF5, 0xA8]

def SIGNATURE_LENGTH : Nat := 16

def MAJOR_VERSION : Nat := 1

def MINOR_VERSION : Nat := 1

def FILE_TYPE_NORMAL : Nat := 0x00a0

def FILE_TYPE_RIGHTS : Nat := 0x00a1

/-- `sizeof(struct file_header)`: 384 bytes of `common_info`, `28 * 128` reserved,
    128 of `kernel_info`. -/
def FILE_HEADER_POLL_SIZE : Nat := 4096

/-- `"china mobile research institute"` in a `char[64]`. -/
def messages : List UInt8 :=
  memcpy (zeroed 64) 0
    [0x63, 0x68, 0x69, 0x6e, 0x61, 0x20, 0x6d, 0x6f, 0x62, 0x69, 0x6c, 0x65, 0x20,
     0x72, 0x65, 0x73, 0x65, 0x61, 0x72, 0x63, 0x68, 0x20, 0x69, 0x6e, 0x73, 0x74,
     0x69, 0x74, 0x75, 0x74, 0x65]

/-- `"unknown"`, the name written when the process name cannot be fetched. -/
def unknown : List UInt8 := [0x75, 0x6e, 0x6b, 0x6e, 0x6f, 0x77, 0x6e]

/-- Offsets of the fields of `struct file_header`. -/
def signatureAt : Nat := 64
def majorAt : Nat := 80
def minorAt : Nat := 82
def nameAt : Nat := 84
def reserveAt : Nat := 384
def fileTypeAt : Nat := 3968

/-- An `unsigned short`, little-endian. -/
def ushort (n : Nat) : List UInt8 := [UInt8.ofNat (n % 256), UInt8.ofNat (n / 256 % 256)]

/-- The `unsigned short` stored at an offset. -/
def readUshort (l : List UInt8) (off : Nat) : Nat :=
  (l.getD off 0).toNat + 256 * (l.getD (off + 1) 0).toNat

/-- `file_header_init`: the header written over `header`, and the value returned.
    `process_name` is what `get_process_name` gave, the bytes before the first NUL,
    or none for a null pointer. -/
def file_header_init (process_name : Option (List UInt8)) (header : List UInt8) :
    List UInt8 × Nat :=
  let header := memcpy header 0 messages
  let header := memcpy header signatureAt SIGNATURE
  let header := memcpy header majorAt (ushort MAJOR_VERSION)
  let header := memcpy header minorAt (ushort MINOR_VERSION)
  let header := memcpy header nameAt (process_name.getD unknown)
  let header := memcpy header reserveAt (List.replicate (28 * 128) 0x2a)
  let header := memcpy header fileTypeAt (ushort FILE_TYPE_RIGHTS)
  (header, FILE_TYPE_RIGHTS)

def is_encrypted_by_file_header (header : List UInt8) : Nat :=
  if slice header signatureAt SIGNATURE_LENGTH ≠ SIGNATURE then FILE_TYPE_NORMAL
  else readUshort header fileTypeAt

/-- The header that is put in front of a file of the process `name`. -/
def newHeader (name : Option (List UInt8)) : List UInt8 :=
  (file_header_init name (zeroed FILE_HEADER_POLL_SIZE)).1

@[simp] theorem file_header_init_length (name : Option (List UInt8))
    (h : List UInt8) : (file_header_init name h).1.length = h.length := by
  simp only [file_header_init, memcpy_length]

@[simp] theorem newHeader_length (name : Option (List UInt8)) :
    (newHeader name).length = FILE_HEADER_POLL_SIZE := by
  rw [newHeader, file_header_init_length, zeroed_length]

/-- Of a longer buffer only the front becomes the header. -/
theorem file_header_init_take (name : Option (List UInt8)) {h : List UInt8} {n : Nat}
    (hn : n ≤ h.length) :
    (file_header_init name h).1.take n = (file_header_init name (h.take n)).1 := by
  simp only [file_header_init]
  rw [memcpy_take (by simp only [memcpy_length]; exact hn),
    memcpy_take (by simp only [memcpy_length]; exact hn),
    memcpy_take (by simp only [memcpy_length]; exact hn),
    memcpy_take (by simp only [memcpy_length]; exact hn),
    memcpy_take (by simp only [memcpy_length]; exact hn),
    memcpy_take (by simp only [memcpy_length]; exact hn), memcpy_take hn]

theorem readUshort_of_slice {l : List UInt8} {off n : Nat} (hn : n < 65536)
    (h : slice l off 2 = ushort n) : readUshort l off = n := by
  have h0 : l[off]? = some (UInt8.ofNat (n % 256)) := by
    have := congrArg (fun x => x[0]?) h
    simpa [slice, ushort, List.getElem?_take, List.getElem?_drop] using this
  have h1 : l[off + 1]? = some (UInt8.ofNat (n / 256 % 256)) := by
    have := congrArg (fun x => x[1]?) h
    simpa [slice, ushort, List.getElem?_take, List.getElem?_drop] using this
  rw [readUshort, List.getD_eq_getElem?_getD, List.getD_eq_getElem?_getD, h0, h1]
  simp only [Option.getD_some, UInt8.toNat_ofNat']
  omega

/-- The classifier looks at the signature and the type only. -/
theorem is_encrypted_by_file_header_eq {h : List UInt8} {n : Nat} (hn : n < 65536)
    (hs : slice h signatureAt SIGNATURE_LENGTH = SIGNATURE)
    (ht : slice h fileTypeAt 2 = ushort n) : is_encrypted_by_file_header h = n := by
  rw [is_encrypted_by_file_header, if_neg (fun hne => hne hs), readUshort_of_slice hn ht]

/-- A header that has been built is classified as one, whatever the name. -/
theorem file_header_init_rights (name : Option (List UInt8)) {h : List UInt8}
    (hlen : h.length = FILE_HEADER_POLL_SIZE) :
    is_encrypted_by_file_header (file_header_init name h).1 = FILE_TYPE_RIGHTS := by
  apply is_encrypted_by_file_header_eq (by decide)
  · -- every later field lies behind the signature
    simp only [file_header_init]
    rw [memcpy_slice_before, memcpy_slice_before, memcpy_slice_before,
      memcpy_slice_before, memcpy_slice_before]
    · exact memcpy_slice_self (by rw [memcpy_length, hlen]; decide)
    all_goals first | decide | (simp only [memcpy_length, hlen]; decide)
  · have hself := @memcpy_slice_self
      (memcpy (memcpy (memcpy (memcpy (memcpy (memcpy h 0 messages) signatureAt SIGNATURE)
        majorAt (ushort MAJOR_VERSION)) minorAt (ushort MINOR_VERSION)) nameAt
        (name.getD unknown)) reserveAt (List.replicate (28 * 128) 0x2a))
      (ushort FILE_TYPE_RIGHTS) fileTypeAt
      (by simp only [memcpy_length, hlen]; decide)
    exact hself

theorem newHeader_rights (name : Option (List UInt8)) :
    is_encrypted_by_file_header (newHeader name) = FILE_TYPE_RIGHTS :=
  file_header_init_rights name (zeroed_length _)

/-- Bytes behind the type field do not change the classification. -/
theorem is_encrypted_by_file_header_prefix {h : List UInt8} (hlen : fileTypeAt + 2 ≤ h.length)
    (r : List UInt8) : is_encrypted_by_file_header (h ++ r) = is_encrypted_by_file_header h := by
  have hlen' : 3970 ≤ h.length := hlen
  have hslice : slice (h ++ r) signatureAt SIGNATURE_LENGTH
      = slice h signatureAt SIGNATURE_LENGTH := by
    have hsig : signatureAt + SIGNATURE_LENGTH = 80 := rfl
    rw [slice, slice, List.drop_append_of_le_length (by omega), List.take_append_of_le_length]
    rw [List.length_drop]
    omega
  have hget : ∀ i, i < 3970 → (h ++ r).getD i 0 = h.getD i 0 := by
    intro i hi
    rw [List.getD_eq_getElem?_getD, List.getD_eq_getElem?_getD,
      List.getElem?_append_left (by omega)]
  rw [is_encrypted_by_file_header, is_encrypted_by_file_header, hslice, readUshort,
    readUshort, hget _ (by decide), hget _ (by decide)]

/-! ## The cipher -/

def AES_BLOCK_SIZE : Nat := 16

/-- The block cipher of the crypto library: for every key a permutation of the
    blocks of 16 bytes with its inverse (`AES_encrypt`, `AES_decrypt`). -/
abbrev AES := List UInt8 → BlockPerm UInt8 AES_BLOCK_SIZE

def userKey : List UInt8 :=
  [0x01, 0x02, 0x03, 0x04, 0x05, 0x06, 0x07, 0x08,
   0x09, 0x0A, 0x0B, 0x0C, 0x0D, 0x0E, 0x0F, 0x10]

variable (aes : AES)

/-- One block under the fixed key.  Setting a key of 128 bits does not fail. -/
def aes_encrypt_128bit (block : List UInt8) : List UInt8 := (aes userKey).enc block

def aes_decrypt_128bit (block : List UInt8) : List UInt8 := (aes userKey).dec block

/-- The loop `for (i = 0; i < n; i++) aes_encrypt_128bit(buf + i*16, buf + i*16)`. -/
def encryptBlocks (n : Nat) (buf : List UInt8) : List UInt8 :=
  mapBlocks AES_BLOCK_SIZE (aes_encrypt_128bit aes) n buf

def decryptBlocks (n : Nat) (buf : List UInt8) : List UInt8 :=
  mapBlocks AES_BLOCK_SIZE (aes_decrypt_128bit aes) n buf

/-- The stored form of a plain text: every complete block of 16 bytes encrypted,
    the last `|P| mod 16` bytes as they are. -/
def stored (P : List UInt8) : List UInt8 := (aes userKey).encAll P

@[simp] theorem stored_length (P : List UInt8) : (stored aes P).length = P.length :=
  (aes userKey).encAll_length P

theorem stored_eq (P : List UInt8) : stored aes P = encryptBlocks aes (P.length / 16) P :=
  rfl

theorem encryptBlocks_length {n : Nat} {l : List UInt8} (h : n * 16 ≤ l.length) :
    (encryptBlocks aes n l).length = l.length :=
  mapBlocks_length (aes userKey).enc_length n l h

theorem decryptBlocks_length {n : Nat} {l : List UInt8} (h : n * 16 ≤ l.length) :
    (decryptBlocks aes n l).length = l.length :=
  mapBlocks_length (aes userKey).dec_length n l h

/-- Splitting at a block boundary. -/
theorem stored_append {A : List UInt8} {m : Nat} (h : A.length = m * 16)
    (B : List UInt8) : stored aes (A ++ B) = stored aes A ++ stored aes B :=
  mapAll_append (b := AES_BLOCK_SIZE) (by decide) h B

theorem stored_take (P : List UInt8) (m : Nat) :
    (stored aes P).take (m * 16) = stored aes (P.take (m * 16)) :=
  mapAll_take (b := AES_BLOCK_SIZE) (by decide) (aes userKey).enc_length P m

theorem stored_drop (P : List UInt8) (m : Nat) :
    (stored aes P).drop (m * 16) = stored aes (P.drop (m * 16)) :=
  mapAll_drop (b := AES_BLOCK_SIZE) (by decide) (aes userKey).enc_length P m

/-- Less than a block is stored plain. -/
theorem stored_short {P : List UInt8} (h : P.length < 16) : stored aes P = P :=
  mapAll_short (b := AES_BLOCK_SIZE) h

/-- Decrypting what was read from a block boundary on. -/
theorem decrypt_window (P : List UInt8) (m : Nat) :
    decryptBlocks aes (((stored aes P).take (m * 16)).length / 16)
      ((stored aes P).take (m * 16)) = P.take (m * 16) :=
  (aes userKey).dec_window (by decide) P m

theorem decryptBlocks_append {n : Nat} {l : List UInt8} (h : n * 16 ≤ l.length)
    (r : List UInt8) : decryptBlocks aes n (l ++ r) = decryptBlocks aes n l ++ r :=
  mapBlocks_append _ n l r h

/-- A cipher that agrees with AES under the fixed key on the block of zeros. -/
def zeroBlockAes : AES := fun _ =>
  BlockPerm.swap (zeroed 16)
    [0xdb, 0xf1, 0x84, 0x11, 0x2e, 0xb9, 0x11, 0x16,
     0x59, 0x71, 0x2b, 0xaf, 0xcf, 0xf2, 0xab, 0x24] rfl rfl

theorem stored_injective {P Q : List UInt8} (h : stored aes P = stored aes Q) : P = Q :=
  (aes userKey).encAll_injective (by decide) h

theorem stored_surjective (X : List UInt8) : ∃ P, stored aes P = X :=
  (aes userKey).encAll_surjective X

end TeHeader
