import TransEncrypt.ReadProofs
import TransEncrypt.StoredProofs

/-! # The hooked fread — the reader of streams

    `fread` has the same three pieces as `read`, each fetched with a seek of its own, and a
    last seek that leaves the stream behind the requested bytes, delivered or not.  The index
    of its decryption loop is an `unsigned int`: behind 2^28 blocks the product with 16 is
    back at the first of them.

    * `fread_shows`: what one hooked call delivers, at every count;
    * `inReach_iff`: when that is one read of the plain file; `inReach_of_small`: always,
      as long as the pieces have no more than 2^28 complete blocks;
    * `fread_transparent`: so for every sequence of calls, although a stream and a
      descriptor end up at different positions behind the end of the file;
    * `fread_contract_iff`: when the result and the position are those of the C library. -/

namespace TeFread

open Posix Overlay Blockwise TeHeader Hoare TeProgram TeDetector TeRead TeStored Plain

/-! ## The hook -/

/-- The largest value of an `unsigned int`. -/
def UINT_MAX : Nat := 2 ^ 32 - 1

/-- The loop `for (unsigned int i = 0; i < n; i++) aes_decrypt_128bit(temp + i*16, temp + i*16)`:
    the product is one of `unsigned int`. -/
def decryptTurns (aes : AES) (n : Nat) (temp : List UInt8) : List UInt8 :=
  mapTurns AES_BLOCK_SIZE (aes_decrypt_128bit aes) (fun i => i * 16 % 2 ^ 32) n temp

/-- The real `fread`: the bytes that arrive, and how many complete items they are. -/
def linker_fread_items (size nmemb : Nat) (stream : Int) : Sys (Nat × List UInt8) := do
  let r ← linker_fread (size * nmemb) stream
  pure (r.2.length / size, r.2)

/-- The part of `fread` from the allocation on. -/
def fread_pieces (dev : Device) (count : Nat) (stream : Int) (offset : Nat) :
    Sys (Nat × List UInt8) := do
  let temp_count := count + offset % 16 + 16 - (count + offset) % 16
  if (← calloc) then do
    let _ ← fseek stream (offset - offset % 16 : Nat)
    let r1 ← linker_fread (offset % 16) stream
    let _ ← fseek stream offset
    let r2 ← linker_fread count stream
    let _ ← fseek stream (offset + count : Nat)
    let r3 ← linker_fread (16 - (count + offset) % 16) stream
    let _ ← fseek stream (offset + count : Nat)
    let temp := memcpy (memcpy (memcpy (zeroed temp_count) 0 r1.2) (offset % 16) r2.2)
      (offset % 16 + count) r3.2
    let result1 := r1.2.length
    let result2 := r2.2.length
    let result3 := r3.2.length
    let result := if result3 > 0 then result1 + result2 + result3 else result1 + result2
    if result > 0 then
      -- no `unsigned int` gets to a greater number of blocks, and the loop goes on for ever
      if UINT_MAX < result / 16 then fun _ => .error .waiting
      else pure (result2, slice (decryptTurns dev.aes (result / 16) temp) (offset % 16) result2)
    else pure (result2, [])
  else pure (0, [])

/-- `fread`: the result and the bytes stored in the caller's buffer.  That buffer has
    `size * nmemb` bytes, so the product is the one that `size_t` arithmetic gives. -/
def fread (dev : Device) (env : Env) (size nmemb : Nat) (stream : Int) :
    Sys (Nat × List UInt8) :=
  hooked env (0, []) (linker_fread_items size nmemb stream) do
    let type ← is_encrypted_by_stream stream
    if type = FILE_TYPE_NORMAL then linker_fread_items size nmemb stream
    else do
      let offset ← ftell stream
      if offset < (FILE_HEADER_POLL_SIZE : Nat) then do
        let _ ← fseek stream (FILE_HEADER_POLL_SIZE : Nat)
        fread_pieces dev (size * nmemb) stream (offset + (FILE_HEADER_POLL_SIZE : Nat)).toNat
      else fread_pieces dev (size * nmemb) stream offset.toNat

/-- Calls with the given sizes and numbers of items, one after the other. -/
def fread_all (dev : Device) (env : Env) (stream : Int) :
    List (Nat × Nat) → Sys (List (Nat × List UInt8))
  | [] => pure []
  | (size, nmemb) :: rest => do
      let r ← fread dev env size nmemb stream
      let rs ← fread_all dev env stream rest
      pure (r :: rs)

/-! ## The calls on a stream -/

section Stream

variable {w : World} {stream : Int} {id : Nat} (hc : w.kern.host.Calm)
  (hf : w.kern.find stream = some id) (hreg : (w.kern.desc id).regular = true)
include hc hf hreg

/-- From any position `q` of the stream, `t` calls later. -/
theorem fseek_from (q t off : Nat) :
    fseek stream off { w with kern := (w.kern.setPos id q).tock t } =
      .ok ((off : Int), { w with kern := (w.kern.setPos id off).tock (t + 1) }) := by
  have hd : ((w.kern.setPos id q).tock t).desc id = { w.kern.desc id with pos := q } :=
    Kernel.setPos_desc_self ..
  apply linker_lseek_ok
  rw [Kernel.sysLseek_calm (k := (w.kern.setPos id q).tock t) hc hf (by rw [hd]; exact hreg),
    if_neg]
  · show ((0 : Int) + off, (((w.kern.setPos id q).tock t).tock 1).setPos id
      ((0 : Int) + off).toNat) = _
    rw [Int.zero_add, Int.toNat_natCast, Kernel.tock_tock, Kernel.setPos_tock, Kernel.setPos_setPos]
  · show ¬ ((0 : Int) + off < 0)
    omega

theorem ftell_from (q t : Nat) :
    ftell stream { w with kern := (w.kern.setPos id q).tock t } =
      .ok ((q : Int), { w with kern := (w.kern.setPos id q).tock (t + 1) }) := by
  have hd : ((w.kern.setPos id q).tock t).desc id = { w.kern.desc id with pos := q } :=
    Kernel.setPos_desc_self ..
  have h := linker_lseek_ok (w := { w with kern := (w.kern.setPos id q).tock t })
    (Kernel.sysLseek_here (k := (w.kern.setPos id q).tock t) hc hf (by rw [hd]; exact hreg))
  rw [hd, Kernel.tock_tock] at h
  exact h

theorem linker_fread_from (hacc : (w.kern.desc id).flags.acc.readable = true) (q t n : Nat) :
    let bs := slice (w.kern.files.data (w.kern.desc id).inode) q n
    linker_fread n stream { w with kern := (w.kern.setPos id q).tock t } =
      .ok (((bs.length : Int), bs),
        { w with kern := (w.kern.setPos id (q + bs.length)).tock (t + 1) }) := by
  have hd : ((w.kern.setPos id q).tock t).desc id = { w.kern.desc id with pos := q } :=
    Kernel.setPos_desc_self ..
  apply linker_read_ok
  rw [Kernel.sysRead_calm (k := (w.kern.setPos id q).tock t) hc hf (by rw [hd]; exact hreg)
    (by rw [hd]; exact hacc), hd]
  dsimp only
  rw [Kernel.tock_tock, Kernel.setPos_tock, Kernel.setPos_setPos]
  rfl

end Stream

/-! ## What the loop brings back -/

section Turns

variable {aes : AES} {P : List UInt8} {p n : Nat}

/-- How many of `n` turns come to the `k`-th block. -/
def turns (k n : Nat) : Nat := turnsAt (fun i => i * 16 % 2 ^ 32) (k * 16) n

/-- As long as the product does not wrap, one turn comes to each block. -/
theorem turns_small {k : Nat} (h : n ≤ 2 ^ 28) : turns k n = if k < n then 1 else 0 := by
  induction n with
  | zero => rfl
  | succ n ih =>
      have hmod : n * 16 % 2 ^ 32 = n * 16 := by omega
      rw [turns, turnsAt, show turnsAt _ (k * 16) n = _ from ih (by omega), hmod]
      split_ifs
      all_goals omega

/-- No turn comes to a block that the product does not reach. -/
theorem turns_far {k : Nat} (h : n ≤ k ∨ 2 ^ 28 ≤ k) : turns k n = 0 := by
  induction n with
  | zero => rfl
  | succ n ih =>
      rw [turns, turnsAt, show turnsAt _ (k * 16) n = _ from ih (by omega), if_neg (by omega)]

theorem decryptTurns_get {temp : List UInt8} (h : n * 16 ≤ temp.length) (i : Nat) :
    (decryptTurns aes n temp)[i]? =
      ((aes_decrypt_128bit aes)^[turns (i / 16) n] (block temp (i / 16)))[i % 16]? := by
  have hblock : block (decryptTurns aes n temp) (i / 16) =
      (aes_decrypt_128bit aes)^[turns (i / 16) n] (block temp (i / 16)) :=
    mapTurns_block (aes userKey).dec_length (fun j hj => by show j * 16 % 2 ^ 32 + 16 ≤ _; omega)
      (fun j _ => by
        show j * 16 % 2 ^ 32 = i / 16 * 16 ∨ i / 16 * 16 + 16 ≤ j * 16 % 2 ^ 32 ∨
          j * 16 % 2 ^ 32 + 16 ≤ i / 16 * 16
        omega)
  rw [← block_get (decryptTurns aes n temp), hblock]

/-- The complete blocks among the bytes that the pieces of a call for `n` bytes at `p` bring. -/
def blocksRead (P : List UInt8) (p n : Nat) : Nat :=
  min (p % 16 + n + (16 - (n + p) % 16)) (P.length - p / 16 * 16) / 16

/-- The buffer of that call, in front of the loop. -/
def fetched (aes : AES) (P : List UInt8) (p n : Nat) : List UInt8 :=
  let D := stored aes (P.drop (p / 16 * 16))
  let m := 16 - (n + p) % 16
  memcpy (memcpy (memcpy (zeroed (p % 16 + n + m)) 0 (slice D 0 (p % 16)))
    (p % 16) (slice D (p % 16) n)) (p % 16 + n) (slice D (p % 16 + n) m)

/-- What that call stores in the buffer of the caller. -/
def handed (aes : AES) (P : List UInt8) (p n : Nat) : List UInt8 :=
  slice (decryptTurns aes (blocksRead P p n) (fetched aes P p n)) (p % 16) (slice P p n).length

/-- **The loop brings the text back**: it ends, and each byte that is handed out is the one
    of the text after as many turns as come to its block. -/
structure InReach (aes : AES) (P : List UInt8) (p n : Nat) : Prop where
  ends : blocksRead P p n ≤ UINT_MAX
  bytes : ∀ i, p ≤ i → i < p + n → i < P.length →
    ((aes_decrypt_128bit aes)^[turns (i / 16 - p / 16) (blocksRead P p n)]
      (block (stored aes P) (i / 16)))[i % 16]? = P[i]?

/-- The three pieces in the buffer are what the file holds from the block boundary on. -/
theorem fetched_eq (hp : p ≤ P.length) :
    let W := (stored aes (P.drop (p / 16 * 16))).take (p % 16 + n + (16 - (n + p) % 16))
    fetched aes P p n = W ++ zeroed (p % 16 + n + (16 - (n + p) % 16) - W.length) := by
  refine (window (stored aes (P.drop (p / 16 * 16))) ?_).1
  rw [stored_length, List.length_drop]
  omega

/-- The counts of the three pieces add up to the bytes that are there. -/
theorem pieces_sum (P : List UInt8) (p n : Nat) :
    let D := stored aes (P.drop (p / 16 * 16))
    let m := 16 - (n + p) % 16
    ((slice D 0 (p % 16)).length + (slice D (p % 16) n).length
      + (slice D (p % 16 + n) m).length) / 16 = blocksRead P p n := by
  intro D m
  have hD : D.length = P.length - p / 16 * 16 := by
    rw [show D.length = _ from stored_length aes _, List.length_drop]
  rw [slice_length, slice_length, slice_length, hD, blocksRead]
  congr 1
  omega

theorem handed_length (aes : AES) (P : List UInt8) (p n : Nat) :
    (handed aes P p n).length = (slice P p n).length := by
  have hlen : (slice P p n).length = min n (P.length - p) := slice_length _ _ _
  by_cases hp : p ≤ P.length
  · have hbuf : (fetched aes P p n).length = p % 16 + n + (16 - (n + p) % 16) := by
      rw [fetched, memcpy_length, memcpy_length, memcpy_length, zeroed, List.length_replicate]
    have hturns : (decryptTurns aes (blocksRead P p n) (fetched aes P p n)).length
        = (fetched aes P p n).length := by
      refine mapTurns_length (aes userKey).dec_length fun i hi => ?_
      rw [hbuf]
      rw [blocksRead] at hi
      show i * 16 % 2 ^ 32 + 16 ≤ _
      omega
    rw [handed, slice_length, hturns, hbuf]
    omega
  · rw [handed, slice_length]
    omega

/-- A byte that is handed out. -/
theorem handed_get {j : Nat} (hj : j < (slice P p n).length) :
    (handed aes P p n)[j]? = ((aes_decrypt_128bit aes)^[turns ((p + j) / 16 - p / 16)
      (blocksRead P p n)] (block (stored aes P) ((p + j) / 16)))[(p + j) % 16]? := by
  rw [slice_length] at hj
  let W := (stored aes (P.drop (p / 16 * 16))).take (p % 16 + n + (16 - (n + p) % 16))
  have hbuf : fetched aes P p n = W ++ zeroed (p % 16 + n + (16 - (n + p) % 16) - W.length) :=
    fetched_eq (by omega)
  have hW : W.length = min (p % 16 + n + (16 - (n + p) % 16)) (P.length - p / 16 * 16) := by
    rw [List.length_take, stored_length, List.length_drop]
  have hblocks : blocksRead P p n = W.length / 16 := by rw [hW, blocksRead]
  have hget : ∀ x, x < W.length →
      (fetched aes P p n)[x]? = (stored aes P)[p / 16 * 16 + x]? := by
    intro x hx
    rw [hbuf, List.getElem?_append_left hx, List.getElem?_take, if_pos (by omega), ← stored_drop,
      List.getElem?_drop]
  have hx : p % 16 + j < W.length := by omega
  have hdiv : (p % 16 + j) / 16 = (p + j) / 16 - p / 16 := by omega
  have hmod : (p % 16 + j) % 16 = (p + j) % 16 := by omega
  rw [handed, slice_get, if_pos (by rw [slice_length]; exact hj),
    decryptTurns_get (by rw [hbuf, hblocks, List.length_append]; omega), hdiv, hmod]
  by_cases hk : (p + j) / 16 - p / 16 < blocksRead P p n
  · -- a complete block of what was fetched
    have hblock : block (fetched aes P p n) ((p + j) / 16 - p / 16)
        = block (stored aes P) ((p + j) / 16) := by
      apply List.ext_getElem?
      intro y
      rw [block, block, slice_get, slice_get]
      by_cases hy : y < 16
      · rw [if_pos hy, if_pos hy, hget _ (by omega)]
        congr 1
        omega
      · rw [if_neg hy, if_neg hy]
    rw [hblock]
  · -- no turn comes to the bytes behind
    rw [turns_far (.inl (by omega)), Function.iterate_zero_apply, Function.iterate_zero_apply,
      ← hdiv, ← hmod, block_get, hget _ hx, hmod, block_get]
    congr 1
    omega

/-- **Within reach** is: the loop ends with the slice of the text in the caller's buffer. -/
theorem inReach_iff : InReach aes P p n ↔
    blocksRead P p n ≤ UINT_MAX ∧ handed aes P p n = slice P p n := by
  constructor
  · intro h
    refine ⟨h.ends, List.ext_getElem? fun j => ?_⟩
    by_cases hj : j < (slice P p n).length
    · rw [handed_get hj, slice_get, if_pos (by rw [slice_length] at hj; omega)]
      rw [slice_length] at hj
      exact h.bytes (p + j) (by omega) (by omega) (by omega)
    · rw [List.getElem?_eq_none (by rw [handed_length]; omega), List.getElem?_eq_none (by omega)]
  · rintro ⟨hends, heq⟩
    refine ⟨hends, fun i h1 h2 h3 => ?_⟩
    obtain ⟨j, rfl⟩ : ∃ j, i = p + j := ⟨i - p, by omega⟩
    rw [← handed_get (n := n) (by rw [slice_length]; omega), heq, slice_get, if_pos (by omega)]

/-- Up to 2^28 blocks nothing wraps. -/
theorem inReach_of_small (aes : AES) (h : blocksRead P p n ≤ 2 ^ 28) : InReach aes P p n := by
  refine ⟨Nat.le_trans h (by decide), fun i h1 h2 h3 => ?_⟩
  rw [turns_small h]
  split
  · rename_i hk
    rw [blocksRead] at hk
    rw [Function.iterate_one, decrypt_stored_block aes (by omega), block_get]
  · rename_i hk
    rw [blocksRead] at hk
    rw [Function.iterate_zero_apply, block_get]
    exact stored_tail_get aes (by omega)

/-- Every one of the calls is within reach, each at the position where it starts. -/
def AllInReach (aes : AES) (P : List UInt8) : Nat → List Nat → Prop
  | _, [] => True
  | p, n :: ns => InReach aes P p n ∧ AllInReach aes P (p + n) ns

end Turns

/-! ## One hooked call -/

section Fread

variable {dev : Device} {w : World} {stream : Int} {id : Nat} {H P : List UInt8}

/-- The sum of the counts, whether or not the last one is positive. -/
theorem result_eq (a b c : Nat) : (if c > 0 then a + b + c else a + b) = a + b + c := by
  split
  · rfl
  · omega

/-- From a position behind the header on, the call delivers what the loop brings back of a
    read of the plain file, and the stream is left behind the requested bytes; or the loop
    does not end. -/
theorem fread_pieces_at (hc : w.kern.host.Calm) (hf : w.kern.find stream = some id)
    (hreg : (w.kern.desc id).regular = true)
    (hacc : (w.kern.desc id).flags.acc.readable = true)
    (hdata : w.kern.files.data (w.kern.desc id).inode = H ++ stored dev.aes P)
    (hH : H.length = FILE_HEADER_POLL_SIZE) (q t p n : Nat) :
    fread_pieces dev n stream (FILE_HEADER_POLL_SIZE + p)
        { w with kern := (w.kern.setPos id q).tock t } =
      if blocksRead P p n ≤ UINT_MAX then
        .ok (((slice P p n).length, handed dev.aes P p n), { w with
          kern := (w.kern.setPos id (FILE_HEADER_POLL_SIZE + (p + n))).tock (t + 8) })
      else .error .waiting := by
  let D := stored dev.aes (P.drop (p / 16 * 16))
  let m := 16 - (n + p) % 16
  have hraw : ∀ off a l, off = 4096 + (p / 16 * 16 + a) →
      slice (w.kern.files.data (w.kern.desc id).inode) off l = slice D a l := by
    intro off a l hoff
    rw [hoff, hdata]
    exact raw_slice hH P p a l
  have hcalloc : calloc { w with kern := (w.kern.setPos id q).tock t } =
      .ok (true, { w with kern := (w.kern.setPos id q).tock (t + 1) }) :=
    calloc_calm (w := { w with kern := (w.kern.setPos id q).tock t }) hc
  -- the seeks and the pieces, in the order of the source
  have hs1 := fseek_from hc hf hreg q (t + 1) (4096 + p - (4096 + p) % 16)
  have hr1 := linker_fread_from hc hf hreg hacc (4096 + p - (4096 + p) % 16) (t + 2)
    ((4096 + p) % 16)
  have hs2 := fseek_from hc hf hreg
    (4096 + p - (4096 + p) % 16 + (slice (w.kern.files.data (w.kern.desc id).inode)
      (4096 + p - (4096 + p) % 16) ((4096 + p) % 16)).length) (t + 3) (4096 + p)
  have hr2 := linker_fread_from hc hf hreg hacc (4096 + p) (t + 4) n
  have hs3 := fseek_from hc hf hreg (4096 + p + (slice (w.kern.files.data
    (w.kern.desc id).inode) (4096 + p) n).length) (t + 5) (4096 + p + n)
  have hr3 := linker_fread_from hc hf hreg hacc (4096 + p + n) (t + 6) m
  have hs4 := fseek_from hc hf hreg (4096 + p + n + (slice (w.kern.files.data
    (w.kern.desc id).inode) (4096 + p + n) m).length) (t + 7) (4096 + p + n)
  rw [hraw _ 0 _ (by omega), show (4096 + p) % 16 = p % 16 from by omega] at hr1 hs2
  rw [hraw _ (p % 16) _ (by omega)] at hr2 hs3
  rw [hraw _ (p % 16 + n) _ (by omega)] at hr3 hs4
  rw [show (4096 + p) % 16 = p % 16 from by omega] at hs1
  have hm : 16 - (n + (4096 + p)) % 16 = m := by
    show _ = 16 - (n + p) % 16
    omega
  have hcount : n + p % 16 + 16 - (n + (4096 + p)) % 16 = p % 16 + n + m := by omega
  have hD : D.length = P.length - p / 16 * 16 := by
    rw [show D.length = _ from stored_length dev.aes _, List.length_drop]
  have hlen : (slice D (p % 16) n).length = (slice P p n).length := by
    rw [slice_length, slice_length, hD]
    omega
  rw [fread_pieces]
  simp only [show FILE_HEADER_POLL_SIZE = 4096 from rfl,
    show (4096 + p) % 16 = p % 16 from by omega, hcount, hm]
  rw [bind_ok hcalloc, if_pos rfl, bind_ok hs1, bind_ok hr1, bind_ok hs2, bind_ok hr2, bind_ok hs3,
    bind_ok hr3, bind_ok hs4]
  simp only [result_eq]
  rw [← Nat.add_assoc]
  have hsum : ((slice D 0 (p % 16)).length + (slice D (p % 16) n).length
      + (slice D (p % 16 + n) m).length) / 16 = blocksRead P p n := pieces_sum P p n
  split
  · rw [hsum, hlen]
    by_cases hends : blocksRead P p n ≤ UINT_MAX
    · rw [if_neg (Nat.not_lt.mpr hends), if_pos hends]
      rfl
    · rw [if_pos (Nat.lt_of_not_le hends), if_neg hends]
  · -- nothing arrived, and nothing was to be read
    rename_i hzero
    have hnil : (slice P p n).length = 0 := by omega
    have hnone : blocksRead P p n = 0 := by omega
    rw [if_pos (by rw [hnone]; exact Nat.zero_le _), hlen, handed, hnil, slice_zero]
    rfl

variable {env : Env} (henv : env.Active) (hH : RightsHeader H)
include henv hH

/-- **One hooked fread** delivers what the loop brings back of a read of the plain file and
    goes on by what was asked for; or it does not come back. -/
theorem fread_shows (hc : w.kern.host.Calm) {p : Nat} (hs : Shows dev H w stream id ⟨P, p⟩)
    (size nmemb : Nat) :
    ∃ k', fread dev env size nmemb stream w =
        (if blocksRead P p (size * nmemb) ≤ UINT_MAX then
          .ok (((slice P p (size * nmemb)).length, handed dev.aes P p (size * nmemb)),
            { w with kern := k' })
        else .error .waiting) ∧
      Shows dev H { w with kern := k' } stream id ⟨P, p + size * nmemb⟩ ∧
      (k'.desc id).pos = FILE_HEADER_POLL_SIZE + (p + size * nmemb) ∧
      k'.files = w.kern.files ∧ k'.fds = w.kern.fds ∧ k'.host = w.kern.host := by
  obtain ⟨k₁, hprobe, hq⟩ := is_encrypted_by_stream_calm hs.find hc hs.regular hs.readable
  have htype : typeOf (w.kern.files.data (w.kern.desc id).inode) = FILE_TYPE_RIGHTS := by
    rw [hs.data, typeOf_header hH.length, hH.rights]
  rw [htype] at hprobe
  -- the probe has moved nothing
  have hc₁ : k₁.host.Calm := by
    rw [hq.host]
    exact hc
  have hf₁ : k₁.find stream = some id := (hq.find stream).trans hs.find
  have hd₁ : k₁.desc id = w.kern.desc id := hq.desc_find hs.find
  have hreg₁ : (k₁.desc id).regular = true := by
    rw [hd₁]
    exact hs.regular
  have hacc₁ : (k₁.desc id).flags.acc.readable = true := by
    rw [hd₁]
    exact hs.readable
  have hdata₁ : k₁.files.data (k₁.desc id).inode = H ++ stored dev.aes P := by
    rw [hd₁, hq.files]
    exact hs.data
  have hstart : k₁ = (k₁.setPos id (w.kern.desc id).pos).tock 0 := by
    rw [← hd₁, k₁.setPos_same id]
    rfl
  have htell : ftell stream { w with kern := k₁ } = .ok (((w.kern.desc id).pos : Int),
      { w with kern := (k₁.setPos id (w.kern.desc id).pos).tock 1 }) := by
    have h := ftell_from (w := { w with kern := k₁ }) hc₁ hf₁ hreg₁ (w.kern.desc id).pos 0
    exact (congrArg (fun k => ftell stream { w with kern := k }) hstart).trans h
  -- either cursor stands for position `p`
  obtain ⟨t, hrun⟩ : ∃ t, fread dev env size nmemb stream w =
      if blocksRead P p (size * nmemb) ≤ UINT_MAX then
        .ok (((slice P p (size * nmemb)).length, handed dev.aes P p (size * nmemb)), { w with
          kern := (k₁.setPos id (FILE_HEADER_POLL_SIZE + (p + size * nmemb))).tock t })
      else .error .waiting := by
    rw [fread, hooked_active henv, bind_ok hprobe, if_neg (by decide), bind_ok htell]
    rcases hs.cursor with hpos | ⟨hpos, hp⟩
    · rw [hpos, if_neg (by show ¬ (((4096 + p : Nat) : Int) < (4096 : Nat)); omega),
        Int.toNat_natCast]
      exact ⟨1 + 8, fread_pieces_at (w := { w with kern := k₁ }) hc₁ hf₁ hreg₁ hacc₁ hdata₁
        hH.length _ 1 p _⟩
    · have hp' : p = 0 := hp
      have hseek := fseek_from (w := { w with kern := k₁ }) hc₁ hf₁ hreg₁ 0 1 FILE_HEADER_POLL_SIZE
      have hpieces := fread_pieces_at (w := { w with kern := k₁ }) hc₁ hf₁ hreg₁ hacc₁ hdata₁
        hH.length FILE_HEADER_POLL_SIZE 2 p (size * nmemb)
      rw [hp'] at hpieces ⊢
      rw [hpos, if_pos (by decide), bind_ok hseek]
      exact ⟨2 + 8, hpieces⟩
  have hd' : ((k₁.setPos id (FILE_HEADER_POLL_SIZE + (p + size * nmemb))).tock t).desc id =
      { k₁.desc id with pos := FILE_HEADER_POLL_SIZE + (p + size * nmemb) } :=
    Kernel.setPos_desc_self ..
  refine ⟨_, hrun, ?_, by rw [hd'], hq.files, hq.fds, hq.host⟩
  exact ⟨hf₁, by rw [hd']; exact hreg₁, by rw [hd']; exact hacc₁, by rw [hd']; exact hdata₁,
    .inl (by rw [hd'])⟩

/-! ## Sequences of calls -/

/-- Positions that a read cannot tell apart: equal, or both at the end or behind it. -/
def SameRest (P : List UInt8) (p q : Nat) : Prop := p = q ∨ (P.length ≤ p ∧ P.length ≤ q)

omit henv hH in
theorem SameRest.slice {p q : Nat} (h : SameRest P p q) (n : Nat) :
    Overlay.slice P p n = Overlay.slice P q n := by
  rcases h with rfl | ⟨hp, hq⟩
  · rfl
  · rw [slice_past hp, slice_past hq]

omit henv hH in
/-- A stream goes on by what was asked for, a descriptor by what was delivered. -/
theorem SameRest.next {p q : Nat} (h : SameRest P p q) (n : Nat) :
    SameRest P (p + n) (q + (Overlay.slice P q n).length) := by
  have hlen := slice_length P q n
  rcases h with rfl | ⟨hp, hq⟩
  · by_cases hn : n ≤ P.length - p
    · exact .inl (by omega)
    · exact .inr ⟨by omega, by omega⟩
  · exact .inr ⟨by omega, by omega⟩

/-- A call within reach delivers a read of the plain file. -/
theorem fread_reads (hc : w.kern.host.Calm) {p : Nat} (hs : Shows dev H w stream id ⟨P, p⟩)
    {size nmemb : Nat} (hreach : InReach dev.aes P p (size * nmemb)) :
    ∃ k', fread dev env size nmemb stream w =
        .ok (((slice P p (size * nmemb)).length, slice P p (size * nmemb)),
          { w with kern := k' }) ∧
      Shows dev H { w with kern := k' } stream id ⟨P, p + size * nmemb⟩ ∧
      (k'.desc id).pos = FILE_HEADER_POLL_SIZE + (p + size * nmemb) ∧
      k'.files = w.kern.files ∧ k'.host = w.kern.host := by
  obtain ⟨k', hrun, hs', hend, hfiles, -, hhost⟩ := fread_shows henv hH hc hs size nmemb
  obtain ⟨hends, hbytes⟩ := inReach_iff.mp hreach
  rw [if_pos hends, hbytes] at hrun
  exact ⟨k', hrun, hs', hend, hfiles, hhost⟩

/-- A call that delivers a read of the plain file is within reach. -/
theorem fread_reads_inv (hc : w.kern.host.Calm) {p : Nat} (hs : Shows dev H w stream id ⟨P, p⟩)
    {size nmemb r : Nat} {w' : World}
    (hrun : fread dev env size nmemb stream w = .ok ((r, slice P p (size * nmemb)), w')) :
    InReach dev.aes P p (size * nmemb) := by
  obtain ⟨k', hrun', -⟩ := fread_shows henv hH hc hs size nmemb
  rw [hrun'] at hrun
  by_cases hends : blocksRead P p (size * nmemb) ≤ UINT_MAX
  · rw [if_pos hends] at hrun
    exact inReach_iff.mpr ⟨hends, (Prod.mk.inj (Prod.mk.inj (Except.ok.inj hrun)).1).2⟩
  · rw [if_neg hends] at hrun
    cases hrun

/-- Calls within reach, one after the other, deliver the reads of the plain file. -/
theorem fread_all_shows : ∀ (reqs : List (Nat × Nat)) {w : World} {p q : Nat},
    w.kern.host.Calm → Shows dev H w stream id ⟨P, p⟩ → SameRest P p q →
    AllInReach dev.aes P p (reqs.map fun r => r.1 * r.2) →
    ∃ w' p', fread_all dev env stream reqs w =
        .ok ((PlainFile.reads ⟨P, q⟩ (reqs.map fun r => r.1 * r.2)).map
          (fun b => (b.length, b)), w') ∧
      Shows dev H w' stream id ⟨P, p'⟩ ∧ w'.kern.files = w.kern.files ∧
      w'.kern.host = w.kern.host := by
  intro reqs
  induction reqs with
  | nil =>
      intro w p q _ hs _ _
      exact ⟨w, p, rfl, hs, rfl, rfl⟩
  | cons r rest ih =>
      intro w p q hc hs hpq hreach
      obtain ⟨k₁, hrun, hs₁, -, hfiles₁, hhost₁⟩ := fread_reads henv hH hc hs hreach.1
      rw [hpq.slice] at hrun
      obtain ⟨w', p', hrest, hs', hfiles, hhost⟩ := ih (w := { w with kern := k₁ })
        (by rw [hhost₁]; exact hc) hs₁ (hpq.next (r.1 * r.2)) hreach.2
      refine ⟨w', p', ?_, hs', hfiles.trans hfiles₁, hhost.trans hhost₁⟩
      rw [fread_all, bind_ok hrun, bind_ok hrest]
      rfl

/-- Calls that deliver the reads of the plain file, one after the other, are within reach. -/
theorem fread_all_inv : ∀ (reqs : List (Nat × Nat)) {w w' : World} {p q : Nat},
    w.kern.host.Calm → Shows dev H w stream id ⟨P, p⟩ → SameRest P p q →
    fread_all dev env stream reqs w =
        .ok ((PlainFile.reads ⟨P, q⟩ (reqs.map fun r => r.1 * r.2)).map
          (fun b => (b.length, b)), w') →
    AllInReach dev.aes P p (reqs.map fun r => r.1 * r.2) := by
  intro reqs
  induction reqs with
  | nil =>
      intro w w' p q _ _ _ _
      trivial
  | cons r rest ih =>
      intro w w' p q hc hs hpq hrun
      rw [fread_all] at hrun
      obtain ⟨a, w₁, hfirst, hrun⟩ := bind_inv hrun
      obtain ⟨as, w₂, hrest, hrun⟩ := bind_inv hrun
      obtain ⟨hlist, rfl⟩ := pure_inv hrun
      obtain ⟨rfl, rfl⟩ := List.cons.inj hlist
      have hread : fread dev env r.1 r.2 stream w =
          .ok (((slice P q (r.1 * r.2)).length, slice P q (r.1 * r.2)), w₁) := hfirst
      rw [← hpq.slice] at hread
      have hreach := fread_reads_inv henv hH hc hs hread
      obtain ⟨k₁, hrun₁, hs₁, -, -, hhost₁⟩ := fread_reads henv hH hc hs hreach
      obtain ⟨-, rfl⟩ := Prod.mk.inj (Except.ok.inj (hrun₁.symm.trans hread))
      exact ⟨hreach, ih (by rw [hhost₁]; exact hc) hs₁ (hpq.next (r.1 * r.2)) hrest⟩

end Fread

/-- **Transparent streams.**  A file holds a header and the stored form of `P`.  A sequence
    of hooked calls from a stream at position 0 delivers the consecutive slices of `P`, which
    are what hooked reads of the same counts deliver on a descriptor of that file that counts
    as encrypted, and the probe in front of the next call moves nothing: exactly when every
    one of the calls is within reach of the index. -/
theorem fread_transparent {dev : Device} {env : Env} {w : World} {stream fd : Int}
    {id id' : Nat} {H P : List UInt8} (henv : env.Active) (hc : w.kern.host.Calm)
    (hlen : H.length = FILE_HEADER_POLL_SIZE)
    (hrights : is_encrypted_by_file_header H = FILE_TYPE_RIGHTS)
    (hfind : w.kern.find stream = some id) (hreg : (w.kern.desc id).regular = true)
    (hacc : (w.kern.desc id).flags.acc.readable = true)
    (hdata : w.kern.files.data (w.kern.desc id).inode = H ++ stored dev.aes P)
    (hpos : (w.kern.desc id).pos = 0)
    (hfind' : w.kern.find fd = some id') (hreg' : (w.kern.desc id').regular = true)
    (hacc' : (w.kern.desc id').flags.acc.readable = true)
    (hsame : (w.kern.desc id').inode = (w.kern.desc id).inode)
    (hpos' : (w.kern.desc id').pos = 0) (hcounts : CountsEncrypted w fd)
    (reqs : List (Nat × Nat)) :
    let ns := reqs.map fun r => r.1 * r.2
    let slices := PlainFile.reads ⟨P, 0⟩ ns
    ((∃ w', fread_all dev env stream reqs w =
          .ok (slices.map (fun b => (b.length, b)), w') ∧
        w'.kern.files = w.kern.files ∧
        ∃ k, is_encrypted_by_stream stream w' = .ok (FILE_TYPE_RIGHTS, { w' with kern := k }) ∧
          Kernel.Quiet w'.kern k) ↔ AllInReach dev.aes P 0 ns) ∧
      slices.flatten = slice P 0 ns.sum ∧
      ∃ w', read_all dev env fd ns w = .ok (slices.map (fun b => ((b.length : Int), b)), w') := by
  intro ns slices
  have hH : RightsHeader H := ⟨hlen, hrights⟩
  have hs : Shows dev H w stream id ⟨P, 0⟩ := ⟨hfind, hreg, hacc, hdata, .inr ⟨hpos, rfl⟩⟩
  have hs' : Shows dev H w fd id' ⟨P, 0⟩ :=
    ⟨hfind', hreg', hacc', by rw [hsame]; exact hdata, .inr ⟨hpos', rfl⟩⟩
  refine ⟨⟨?_, fun hreach => ?_⟩, PlainFile.reads_flatten ns _, ?_⟩
  · rintro ⟨w', hrun, -⟩
    exact fread_all_inv henv hH reqs hc hs (.inl rfl : SameRest P 0 0) hrun
  · obtain ⟨w', p', hrun, hs₁, hfiles, hhost⟩ :=
      fread_all_shows henv hH reqs hc hs (.inl rfl : SameRest P 0 0) hreach
    have hc' : w'.kern.host.Calm := by
      rw [hhost]
      exact hc
    obtain ⟨k, hprobe, hq⟩ := is_encrypted_by_stream_calm hs₁.find hc' hs₁.regular hs₁.readable
    rw [hs₁.data, typeOf_header hlen, hrights] at hprobe
    exact ⟨w', hrun, hfiles, k, hprobe, hq⟩
  · obtain ⟨w', hrun, -⟩ := read_all_probed henv hH ns hc hcounts.probed hs'
    exact ⟨w', hrun⟩

/-- A stream and a descriptor, both 3, at the cursor `pos` of the stored form of `P`. -/
def onStored (P : List UInt8) (pos : Nat) : World :=
  ⟨Kernel.oneDescriptor (newHeader none ++ stored zeroBlockAes P) { acc := .rdonly } pos,
    [⟨3, Kernel.aName, none⟩]⟩

private theorem onStored_shows (P : List UInt8) {pos p : Nat}
    (hpos : pos = FILE_HEADER_POLL_SIZE + p ∨ (pos = 0 ∧ p = 0)) :
    Shows aDevice (newHeader none) (onStored P pos) 3 1 ⟨P, p⟩ :=
  ⟨rfl, rfl, rfl, rfl, hpos⟩

/-- Twenty zero bytes, in one item of five bytes, four items of three and three of seven. -/
theorem fread_transparent_twenty :
    ∃ w', fread_all aDevice activeEnv 3 [(5, 1), (3, 4), (7, 3)]
        (onStored (zeroed 20) 0) =
        .ok ([(5, zeroed 5), (12, zeroed 12), (3, zeroed 3)], w') := by
  obtain ⟨w', hrun, -⟩ := (@fread_transparent aDevice activeEnv
    (onStored (zeroed 20) 0) 3 3 1 1 (newHeader none) (zeroed 20)
    ⟨rfl, rfl, rfl⟩ (fun _ => ⟨rfl, rfl, rfl⟩) (newHeader_length none) (newHeader_rights none)
    rfl rfl rfl rfl rfl rfl rfl rfl rfl rfl (.inl ⟨_, List.mem_singleton.mpr rfl, rfl⟩)
    [(5, 1), (3, 4), (7, 3)]).1.mpr
    ⟨inReach_of_small _ (by decide), inReach_of_small _ (by decide),
      inReach_of_small _ (by decide), trivial⟩
  exact ⟨w', hrun⟩

/-- More than four gigabytes: no turn comes to the block at 2^32, which is stored encrypted. -/
private theorem out_of_reach {n : Nat} (h : 2 ^ 32 + 16 ≤ n) :
    ¬ InReach zeroBlockAes (zeroed n) 0 n := by
  intro hreach
  have hget := hreach.bytes (2 ^ 32) (Nat.zero_le _) (by omega) (by
    rw [zeroed, List.length_replicate]
    omega)
  have hblock : block (zeroed n) (2 ^ 32 / 16) = zeroed 16 := by
    have hlen : min 16 (n - 2 ^ 32 / 16 * 16) = 16 := by omega
    rw [block, slice, zeroed, List.drop_replicate, List.take_replicate, zeroed, hlen]
  have hzero : (zeroed n)[2 ^ 32]? = some 0 := by
    rw [zeroed, List.getElem?_replicate, if_pos (by omega)]
  rw [turns_far (.inr (by omega)), Function.iterate_zero_apply, stored_block, hblock, hzero,
    show 2 ^ 32 % 16 = 0 from by omega] at hget
  exact absurd hget (by decide)

/-- A text of 2^32 + 16 zero bytes, asked for in one call. -/
theorem fread_wraps :
    let P := zeroed (2 ^ 32 + 16)
    ¬ ∃ w', fread_all aDevice activeEnv 3 [(1, 2 ^ 32 + 16)] (onStored P 0) =
      .ok ((PlainFile.reads ⟨P, 0⟩ [1 * (2 ^ 32 + 16)]).map (fun b => (b.length, b)), w') := by
  rintro P ⟨w', hrun⟩
  have hreach : InReach zeroBlockAes P 0 (1 * (2 ^ 32 + 16)) :=
    (fread_all_inv ⟨rfl, rfl, rfl⟩ ⟨newHeader_length none, newHeader_rights none⟩ _
      (fun _ => ⟨rfl, rfl, rfl⟩) (onStored_shows P (.inr ⟨rfl, rfl⟩)) (.inl rfl : SameRest P 0 0)
      hrun).1
  rw [Nat.one_mul] at hreach
  exact out_of_reach (Nat.le_refl _) hreach

/-! ## The contract of the C library -/

/-- The call returns the number of complete items and leaves the stream behind the bytes
    that were delivered. -/
def FreadContract (dev : Device) (env : Env) (size nmemb : Nat) (stream : Int) (w : World)
    (id : Nat) (P : List UInt8) (p : Nat) : Prop :=
  let d := min (size * nmemb) (P.length - p)
  ∃ bytes w', fread dev env size nmemb stream w = .ok ((d / size, bytes), w') ∧
    bytes = slice P p (size * nmemb) ∧ (w'.kern.desc id).pos = FILE_HEADER_POLL_SIZE + p + d

/-- **The contract.**  It is kept exactly when the text has all the bytes that are asked
    for, an item is a single byte or none is asked for, and the call is within reach of the
    index. -/
theorem fread_contract_iff {dev : Device} {env : Env} {w : World} {stream : Int} {id : Nat}
    {H P : List UInt8} {p size nmemb : Nat} (henv : env.Active) (hc : w.kern.host.Calm)
    (hlen : H.length = FILE_HEADER_POLL_SIZE)
    (hrights : is_encrypted_by_file_header H = FILE_TYPE_RIGHTS)
    (hfind : w.kern.find stream = some id) (hreg : (w.kern.desc id).regular = true)
    (hacc : (w.kern.desc id).flags.acc.readable = true)
    (hdata : w.kern.files.data (w.kern.desc id).inode = H ++ stored dev.aes P)
    (hpos : (w.kern.desc id).pos = FILE_HEADER_POLL_SIZE + p) (hp : p ≤ P.length)
    (hsize : 1 ≤ size) :
    FreadContract dev env size nmemb stream w id P p ↔
      size * nmemb ≤ P.length - p ∧ (size = 1 ∨ nmemb = 0) ∧
        InReach dev.aes P p (size * nmemb) := by
  have hs : Shows dev H w stream id ⟨P, p⟩ := ⟨hfind, hreg, hacc, hdata, .inl hpos⟩
  have hd : (slice P p (size * nmemb)).length = min (size * nmemb) (P.length - p) :=
    slice_length _ _ _
  constructor
  · rintro ⟨bytes, w', hrun', rfl, hpos'⟩
    have hreach := fread_reads_inv henv ⟨hlen, hrights⟩ hc hs hrun'
    obtain ⟨k', hrun, -, hend, -⟩ := fread_reads henv ⟨hlen, hrights⟩ hc hs hreach
    obtain ⟨hres, rfl⟩ := Prod.mk.inj (Except.ok.inj (hrun.symm.trans hrun'))
    have hitems := (Prod.mk.inj hres).1
    have hmove : FILE_HEADER_POLL_SIZE + (p + size * nmemb)
        = FILE_HEADER_POLL_SIZE + p + min (size * nmemb) (P.length - p) := hend.symm.trans hpos'
    have hall : size * nmemb ≤ P.length - p := by omega
    refine ⟨hall, ?_, hreach⟩
    rw [hd, Nat.min_eq_left hall, Nat.mul_div_cancel_left _ hsize] at hitems
    rcases Nat.eq_zero_or_pos nmemb with h0 | hn
    · exact .inr h0
    · exact .inl (Nat.eq_of_mul_eq_mul_right hn (hitems.trans (Nat.one_mul _).symm))
  · rintro ⟨hall, hone, hreach⟩
    obtain ⟨k', hrun, -, hend, -⟩ := fread_reads henv ⟨hlen, hrights⟩ hc hs hreach
    have hitems : size * nmemb = size * nmemb / size := by
      rw [Nat.mul_div_cancel_left _ hsize]
      rcases hone with rfl | rfl
      · exact Nat.one_mul _
      · exact Nat.mul_zero _
    refine ⟨slice P p (size * nmemb), { w with kern := k' }, ?_, rfl, ?_⟩
    · rw [hrun, hd, Nat.min_eq_left hall, ← hitems]
    · rw [Nat.min_eq_left hall, Nat.add_assoc]
      exact hend

/-- A stream on the stored form of twenty zero bytes, at position 3 of these. -/
def atThree : World :=
  ⟨Kernel.oneDescriptor (newHeader none ++ stored zeroBlockAes (zeroed 20)) { acc := .rdonly }
    (FILE_HEADER_POLL_SIZE + 3), []⟩

/-- Five bytes. -/
theorem fread_contract_bytes :
    FreadContract aDevice activeEnv 1 5 3 atThree 1 (zeroed 20) 3 :=
  (@fread_contract_iff aDevice activeEnv atThree 3 1 (newHeader none) (zeroed 20) 3 1 5
    ⟨rfl, rfl, rfl⟩ (fun _ => ⟨rfl, rfl, rfl⟩) (newHeader_length none) (newHeader_rights none)
    rfl rfl rfl rfl rfl (by decide) (by decide)).mpr
    ⟨by decide, .inl rfl, inReach_of_small _ (by decide)⟩

private theorem atThree_run (size nmemb : Nat) :
    ∃ k', fread aDevice activeEnv size nmemb 3 atThree =
      .ok (((slice (zeroed 20) 3 (size * nmemb)).length, slice (zeroed 20) 3 (size * nmemb)),
        { atThree with kern := k' }) ∧
    (k'.desc 1).pos = FILE_HEADER_POLL_SIZE + (3 + size * nmemb) := by
  have hs : Shows aDevice (newHeader none) atThree 3 1 ⟨zeroed 20, 3⟩ :=
    ⟨rfl, rfl, rfl, rfl, .inl rfl⟩
  obtain ⟨k', hrun, -, hend, -⟩ := fread_reads (⟨rfl, rfl, rfl⟩ : activeEnv.Active)
    ⟨newHeader_length none, newHeader_rights none⟩ (fun _ => ⟨rfl, rfl, rfl⟩) hs
    (inReach_of_small _ (Nat.le_trans (Nat.div_le_self _ _) (Nat.le_trans (Nat.min_le_right _ _)
      (by decide))) : InReach aDevice.aes (zeroed 20) 3 (size * nmemb))
  exact ⟨k', hrun, hend⟩

/-- Two items of four bytes come back as eight; after a call for thirty bytes, of which there
    are seventeen, the stream is thirteen bytes behind the end; and a call for 2^32 + 16
    bytes, all of which are there, does not deliver them. -/
theorem fread_counts_bytes :
    (∃ w', fread aDevice activeEnv 4 2 3 atThree = .ok ((8, zeroed 8), w')) ∧
    (∃ k', fread aDevice activeEnv 1 30 3 atThree =
        .ok ((17, zeroed 17), { atThree with kern := k' }) ∧
      (k'.desc 1).pos = FILE_HEADER_POLL_SIZE + 33) ∧
    ¬ FreadContract aDevice activeEnv 4 2 3 atThree 1 (zeroed 20) 3 ∧
    ¬ FreadContract aDevice activeEnv 1 (2 ^ 32 + 16) 3
      (onStored (zeroed (2 ^ 32 + 16)) FILE_HEADER_POLL_SIZE) 1 (zeroed (2 ^ 32 + 16)) 0 := by
  obtain ⟨k₁, hrun₁, -⟩ := atThree_run 4 2
  obtain ⟨k₂, hrun₂, hend₂⟩ := atThree_run 1 30
  refine ⟨⟨_, hrun₁⟩, ⟨k₂, hrun₂, hend₂⟩, ?_, ?_⟩
  · rintro ⟨bytes, w', hrun, -⟩
    have hres := (Prod.mk.inj (Except.ok.inj (hrun₁.symm.trans hrun))).1
    exact absurd (Prod.mk.inj hres).1 (by decide)
  · rintro ⟨bytes, w', hrun, hbytes, -⟩
    rw [hbytes] at hrun
    have hs := onStored_shows (zeroed (2 ^ 32 + 16)) (p := 0)
      (.inl (Nat.add_zero FILE_HEADER_POLL_SIZE).symm)
    have hreach := fread_reads_inv (⟨rfl, rfl, rfl⟩ : activeEnv.Active)
      ⟨newHeader_length none, newHeader_rights none⟩ (fun _ => ⟨rfl, rfl, rfl⟩) hs hrun
    rw [Nat.one_mul] at hreach
    exact out_of_reach (Nat.le_refl _) hreach

end TeFread
