import TransEncrypt.DetectorProofs
import TransEncrypt.PlainProofs

/-! # The hooked read — decrypting on the way in

    `read` fetches the block prefix before the cursor, the requested bytes, and the
    rest of the last block, decrypts the complete blocks among what arrived, and
    hands out the middle part.

    * `stitched`: the three pieces form one window of the file that starts at a
      block boundary, so the decrypted middle is the requested piece of the plain
      text, at every alignment and also where the file ends;
    * `read_probed`: one hooked read is one read of the plain file;
    * `read_transparent`: so is every sequence of them. -/

namespace TeRead

open Posix Overlay Blockwise TeHeader Hoare TeProgram TeDetector Plain

/-! ## The hook -/

/-- The part of `read` from the block arithmetic on.  The index of the decryption loop is an
    `int`: a call moves less than 2^31 bytes, so there are less than 2^27 blocks and the
    product with 16 is the one of unbounded arithmetic. -/
def read_pieces (dev : Device) (fd : Int) (count : Nat) (offset : Int) :
    Sys (Int × List UInt8) :=
  if offset < 0 then undefinedBehaviour     -- the buffer is written before its start
  else do
    let off := offset.toNat
    let tmpcount := count + off % 16 + 16 - (count + off) % 16
    if (← calloc) then do
      let r1 ← linker_pread fd (off % 16) (off - off % 16 : Nat)
      let r2 ← linker_read fd count
      let r3 ← linker_pread fd (16 - (count + off) % 16) (off + count : Nat)
      let tmpbuf := memcpy (memcpy (memcpy (zeroed tmpcount) 0 r1.2) (off % 16) r2.2)
        (off % 16 + count) r3.2
      let size := if r3.1 > 0 then r1.1 + r2.1 + r3.1 else r1.1 + r2.1
      if size > 0 then
        if r2.1 < 0 then undefinedBehaviour     -- memcpy of a negative length
        else pure (r2.1,
          slice (decryptBlocks dev.aes (size.toNat / 16) tmpbuf) (off % 16) r2.1.toNat)
      else pure (r2.1, [])
    else undefinedBehaviour     -- the buffer is not checked

/-- The part of `read` that decrypts, from the first `linker_lseek` on.  The offset
    is compared with an unsigned 4096, so a failed seek does not count as less. -/
def read_decrypted (dev : Device) (fd : Int) (count : Nat) : Sys (Int × List UInt8) := do
  let offset ← linker_lseek fd 0 .cur
  if 0 ≤ offset ∧ offset < FILE_HEADER_POLL_SIZE then do
    let _ ← linker_lseek fd FILE_HEADER_POLL_SIZE .set
    read_pieces dev fd count (offset + FILE_HEADER_POLL_SIZE)
  else read_pieces dev fd count offset

/-- `read`: the result and the bytes stored in the caller's buffer. -/
def read (dev : Device) (env : Env) (fd : Int) (count : Nat) : Sys (Int × List UInt8) :=
  hooked env (-1, []) (linker_read fd count) do
    if (← calloc) then do
      match (← linker_fstat fd) with
      | none => linker_read fd count
      | some state =>
        if state.regular = false then linker_read fd count
        else if (← passes_through fd) then linker_read fd count
        else read_decrypted dev fd count
    else linker_read fd count

/-- Reads of the given counts, one after the other. -/
def read_all (dev : Device) (env : Env) (fd : Int) : List Nat → Sys (List (Int × List UInt8))
  | [] => pure []
  | n :: ns => do
      let r ← read dev env fd n
      let rs ← read_all dev env fd ns
      pure (r :: rs)

/-! ## The pieces and the window -/

theorem memcpy_nil (a : List UInt8) (off : Nat) : memcpy a off [] = a := by
  rw [memcpy, overlay_nil, List.take_length]

/-- **The window.**  The three pieces fill the buffer, one behind the other, with
    what the raw file holds from the block boundary on; their total length is the
    length of that window. -/
theorem window (D : List UInt8) {t n m : Nat} (ht : t ≤ D.length) :
    memcpy (memcpy (memcpy (zeroed (t + n + m)) 0 (slice D 0 t)) t (slice D t n)) (t + n)
        (slice D (t + n) m) =
      D.take (t + n + m) ++ zeroed (t + n + m - (D.take (t + n + m)).length) ∧
    (slice D 0 t).length + (slice D t n).length + (slice D (t + n) m).length =
      (D.take (t + n + m)).length := by
  have h1 : (slice D 0 t).length = t := by
    rw [slice_length]
    omega
  have h2 : (slice D t n).length = min n (D.length - t) := slice_length _ _ _
  have h3 : (slice D (t + n) m).length = min m (D.length - (t + n)) := slice_length _ _ _
  have hwin : D.take (t + n + m) = slice D 0 t ++ slice D t n ++ slice D (t + n) m := by
    have ha := slice_append D 0 t n
    rw [Nat.zero_add] at ha
    have hb := slice_append D 0 (t + n) m
    rw [Nat.zero_add] at hb
    rw [ha, hb]
    rfl
  refine ⟨?_, by rw [hwin, List.length_append, List.length_append]⟩
  have hfirst : memcpy (zeroed (t + n + m)) 0 (slice D 0 t)
      = slice D 0 t ++ zeroed (n + m) := by
    rw [memcpy_zeroed (by omega), h1]
    congr 2
    omega
  have hsecond : memcpy (slice D 0 t ++ zeroed (n + m)) t (slice D t n)
      = slice D 0 t ++ slice D t n ++ zeroed (n + m - (slice D t n).length) := by
    have := memcpy_next (a := slice D 0 t) (b := slice D t n) (n := n + m) (by omega)
    rwa [h1] at this
  rw [hfirst, hsecond]
  by_cases hfull : t + n ≤ D.length
  · -- the middle piece is complete, the last one may be cut by the end
    have hlen : (slice D 0 t ++ slice D t n).length = t + n := by
      rw [List.length_append]
      omega
    have := memcpy_next (a := slice D 0 t ++ slice D t n) (b := slice D (t + n) m)
      (n := n + m - (slice D t n).length) (by omega)
    rw [hlen] at this
    rw [this, hwin]
    congr 2
    rw [List.length_append, hlen]
    omega
  · -- the middle piece ends with the file, nothing follows it
    have hnil : slice D (t + n) m = [] := slice_past (by omega) m
    rw [hnil, memcpy_nil, hwin, hnil, List.append_nil]
    congr 2
    rw [List.length_append]
    omega

/-- **Stitching.**  For a plain text `X` that starts at a block boundary: decrypt the
    complete blocks of the buffer and cut out the middle piece; that is the piece of
    the plain text, wherever it starts (`t`) and wherever the text ends. -/
theorem stitched (aes : AES) (X : List UInt8) {t n m : Nat} (ht : t ≤ X.length)
    (hm : 16 ∣ t + n + m) :
    let D := stored aes X
    let buf := memcpy (memcpy (memcpy (zeroed (t + n + m)) 0 (slice D 0 t)) t (slice D t n))
      (t + n) (slice D (t + n) m)
    let size := (slice D 0 t).length + (slice D t n).length + (slice D (t + n) m).length
    slice (decryptBlocks aes (size / 16) buf) t (slice D t n).length = slice X t n := by
  obtain ⟨c, hc⟩ := hm
  have hlenD : (stored aes X).length = X.length := stored_length aes X
  obtain ⟨hbuf, hsize⟩ := window (stored aes X) (t := t) (n := n) (m := m)
    (hlenD ▸ ht)
  intro D buf size
  have hmul : t + n + m = c * 16 := by omega
  have hdec : decryptBlocks aes (size / 16) buf
      = X.take (t + n + m) ++ zeroed (t + n + m - (D.take (t + n + m)).length) := by
    show decryptBlocks aes (size / 16) buf = _
    rw [show buf = _ from hbuf, show size = _ from hsize,
      decryptBlocks_append aes (Nat.div_mul_le_self _ _), hmul, decrypt_window]
  have hlen : (slice D t n).length = (slice X t n).length := by
    rw [slice_length, slice_length, hlenD]
  rw [hdec, hlen, slice_length, slice, List.drop_append_of_le_length (by
    rw [List.length_take]; omega), List.take_append_of_le_length (by
    rw [List.length_drop, List.length_take]; omega), List.drop_take, List.take_take, slice]
  by_cases hn : n ≤ X.length - t
  · congr 1
    omega
  · rw [List.take_of_length_le (by rw [List.length_drop]; omega),
      List.take_of_length_le (by rw [List.length_drop]; omega)]

/-! ## One hooked read -/

/-- `H` is a complete header of an encrypted file. -/
structure RightsHeader (H : List UInt8) : Prop where
  length : H.length = FILE_HEADER_POLL_SIZE
  rights : is_encrypted_by_file_header H = FILE_TYPE_RIGHTS

/-- The cursor of the plain file `f`, as the raw file has it: counted from the
    header on.  Physical offset 0, where a new descriptor starts, stands for the
    start of the plain file too. -/
def Cursor (pos : Nat) (f : PlainFile) : Prop :=
  pos = FILE_HEADER_POLL_SIZE + f.pos ∨ pos = 0 ∧ f.pos = 0

/-- Descriptor `fd`, with description `id`, is open for reading on the stored form of
    the plain file `f`, at the cursor of `f`. -/
structure Shows (dev : Device) (H : List UInt8) (w : World) (fd : Int) (id : Nat)
    (f : PlainFile) : Prop where
  find : w.kern.find fd = some id
  regular : (w.kern.desc id).regular = true
  readable : (w.kern.desc id).flags.acc.readable = true
  data : w.kern.files.data (w.kern.desc id).inode = H ++ stored dev.aes f.bytes
  cursor : Cursor (w.kern.desc id).pos f

section Read

variable {dev : Device} {w : World} {fd : Int} {id : Nat} {H : List UInt8}
  {f : PlainFile}

/-- A piece of the raw file behind the header, counted from a block boundary. -/
theorem raw_slice (hH : H.length = FILE_HEADER_POLL_SIZE) (P : List UInt8) (p a n : Nat) :
    slice (H ++ stored dev.aes P) (FILE_HEADER_POLL_SIZE + (p / 16 * 16 + a)) n =
      slice (stored dev.aes (P.drop (p / 16 * 16))) a n := by
  rw [← hH, slice_append_left, ← stored_drop, slice, slice, List.drop_drop]

/-- The lengths a read asks for add up to whole blocks, and they are the buffer. -/
theorem tmpcount_eq (p n : Nat) :
    n + (4096 + p) % 16 + 16 - (n + (4096 + p)) % 16 =
        p % 16 + n + (16 - (n + (4096 + p)) % 16) ∧
      16 ∣ p % 16 + n + (16 - (n + (4096 + p)) % 16) := by
  omega

/-- The sum of the counts, whether or not the last one is positive. -/
theorem size_eq (a b c : Nat) :
    (if (c : Int) > 0 then (a : Int) + b + c else (a : Int) + b) = ((a + b + c : Nat) : Int) := by
  by_cases h : (c : Int) > 0
  · rw [if_pos h]
    omega
  · rw [if_neg h]
    omega

/-- What is handed out of the decrypted buffer is the piece of the plain file. -/
theorem stitched_read (aes : AES) (P : List UInt8) (p n : Nat) :
    let D := stored aes (P.drop (p / 16 * 16))
    let m := 16 - (n + (4096 + p)) % 16
    let buf := memcpy (memcpy (memcpy (zeroed (p % 16 + n + m)) 0 (slice D 0 (p % 16)))
      (p % 16) (slice D (p % 16) n)) (p % 16 + n) (slice D (p % 16 + n) m)
    let size := (slice D 0 (p % 16)).length + (slice D (p % 16) n).length
      + (slice D (p % 16 + n) m).length
    (slice D (p % 16) n).length = (slice P p n).length ∧
    slice (decryptBlocks aes (size / 16) buf) (p % 16) (slice D (p % 16) n).length
      = slice P p n := by
  intro D m buf size
  have hD : D.length = P.length - p / 16 * 16 := by
    rw [show D.length = _ from stored_length aes _, List.length_drop]
  have hlen : (slice D (p % 16) n).length = (slice P p n).length := by
    rw [slice_length, slice_length, hD]
    omega
  refine ⟨hlen, ?_⟩
  by_cases hp : p ≤ P.length
  · have hst := stitched aes (P.drop (p / 16 * 16)) (t := p % 16) (n := n) (m := m)
      (by rw [List.length_drop]; omega) (tmpcount_eq p n).2
    rw [show slice (decryptBlocks aes (size / 16) buf) (p % 16) _ = _ from hst, slice,
      slice, List.drop_drop]
    congr 2
    omega
  · -- past the end there is nothing to hand out
    have h0 : slice P p n = [] := slice_past (by omega) n
    rw [hlen, h0, List.length_nil, slice_zero]

/-- From the cursor of a plain file on, the three pieces give a read of that file. -/
theorem read_pieces_at (hc : w.kern.host.Calm) (hH : H.length = FILE_HEADER_POLL_SIZE)
    (hs : Shows dev H w fd id f) (hpos : (w.kern.desc id).pos = FILE_HEADER_POLL_SIZE + f.pos)
    (n : Nat) :
    read_pieces dev fd n ((FILE_HEADER_POLL_SIZE + f.pos : Nat) : Int) w =
      .ok ((((f.read n).length : Int), f.read n), { w with
        kern := (w.kern.setPos id (FILE_HEADER_POLL_SIZE + (f.afterRead n).pos)).tock 4 }) := by
  obtain ⟨P, p⟩ := f
  let k := w.kern
  let D := stored dev.aes (P.drop (p / 16 * 16))
  let m := 16 - (n + (4096 + p)) % 16
  have hraw : ∀ off a l, off = 4096 + (p / 16 * 16 + a) →
      slice (k.files.data (k.desc id).inode) off l = slice D a l := by
    intro off a l hoff
    rw [hoff, show k.files.data (k.desc id).inode = _ from hs.data]
    exact raw_slice hH P p a l
  -- the calls, each with the state it is made in
  have hcalloc : calloc w = .ok (true, { w with kern := k.tock 1 }) := calloc_calm hc
  have hr1 : linker_pread fd ((4096 + p) % 16) ((4096 + p - (4096 + p) % 16 : Nat) : Int)
      { w with kern := k.tock 1 } = .ok ((((slice D 0 (p % 16)).length : Int),
        slice D 0 (p % 16)), { w with kern := k.tock 2 }) := by
    apply linker_pread_ok
    rw [Kernel.sysPread_calm (k := k.tock 1) hc hs.find hs.regular hs.readable _
      (Int.natCast_nonneg _), Int.toNat_natCast, Kernel.tock_files, Kernel.tock_desc,
      hraw _ 0 _ (by omega), show (4096 + p) % 16 = p % 16 from by omega]
    rfl
  let k₃ := ((k.tock 2).setPos id (4096 + p + (slice D (p % 16) n).length)).tock 1
  have hr2 : linker_read fd n { w with kern := k.tock 2 } =
      .ok ((((slice D (p % 16) n).length : Int), slice D (p % 16) n),
        { w with kern := k₃ }) := by
    apply linker_read_ok
    rw [Kernel.sysRead_calm (k := k.tock 2) hc hs.find hs.regular hs.readable,
      Kernel.tock_files, Kernel.tock_desc, show (k.desc id).pos = 4096 + p from hpos,
      hraw _ (p % 16) _ (by omega)]
    rfl
  have hd₃ : k₃.desc id =
      { k.desc id with pos := 4096 + p + (slice D (p % 16) n).length } :=
    Kernel.setPos_desc_self ..
  have hr3 : linker_pread fd m ((4096 + p + n : Nat) : Int) { w with kern := k₃ } =
      .ok ((((slice D (p % 16 + n) m).length : Int), slice D (p % 16 + n) m),
        { w with kern := k₃.tock 1 }) := by
    apply linker_pread_ok
    rw [Kernel.sysPread_calm (k := k₃) hc hs.find (by rw [hd₃]; exact hs.regular)
      (by rw [hd₃]; exact hs.readable) _ (Int.natCast_nonneg _), Int.toNat_natCast, hd₃]
    show _ = ((((slice D (p % 16 + n) m).length : Int), slice D (p % 16 + n) m), k₃.tock 1)
    rw [← hraw (4096 + p + n) (p % 16 + n) m (by omega)]
    rfl
  let buf := memcpy (memcpy (memcpy (zeroed (p % 16 + n + m)) 0 (slice D 0 (p % 16)))
    (p % 16) (slice D (p % 16) n)) (p % 16 + n) (slice D (p % 16 + n) m)
  let size := (slice D 0 (p % 16)).length + (slice D (p % 16) n).length
    + (slice D (p % 16 + n) m).length
  obtain ⟨hlen, hst⟩ : (slice D (p % 16) n).length = (slice P p n).length ∧
      slice (decryptBlocks dev.aes (size / 16) buf) (p % 16) (slice D (p % 16) n).length
        = slice P p n := stitched_read dev.aes P p n
  have hcount : n + p % 16 + 16 - (n + (4096 + p)) % 16 = p % 16 + n + m := by omega
  let k' := (k.setPos id (FILE_HEADER_POLL_SIZE + (p + (slice P p n).length))).tock 4
  have hend : k₃.tock 1 = k' := by
    show _ = (k.setPos id (FILE_HEADER_POLL_SIZE + (p + (slice P p n).length))).tock 4
    rw [← hlen, ← Nat.add_assoc]
    rfl
  rw [read_pieces, if_neg (by omega)]
  simp only [Int.toNat_natCast, show FILE_HEADER_POLL_SIZE = 4096 from rfl]
  rw [bind_ok hcalloc, if_pos rfl, bind_ok hr1, bind_ok hr2, bind_ok hr3]
  simp only [size_eq, Int.toNat_natCast, show (4096 + p) % 16 = p % 16 from by omega,
    hcount]
  rw [hend]
  show (if ((size : Nat) : Int) > 0 then _ else _ : Sys (Int × List UInt8)) _ =
    .ok ((((slice P p n).length : Int), slice P p n), { w with kern := k' })
  by_cases hsize : ((size : Nat) : Int) > 0
  · rw [if_pos hsize, if_neg (by omega), hst, hlen]
    rfl
  · -- nothing arrived, and nothing was to be read
    have hnil : slice P p n = [] := List.eq_nil_of_length_eq_zero (by omega)
    rw [if_neg hsize, hlen, hnil]
    rfl

/-- The same from either cursor: physical offset 0 is moved behind the header
    first. -/
theorem read_decrypted_at (hc : w.kern.host.Calm) (hH : H.length = FILE_HEADER_POLL_SIZE)
    (hs : Shows dev H w fd id f) (n : Nat) :
    ∃ t, read_decrypted dev fd n w =
      .ok ((((f.read n).length : Int), f.read n), { w with
        kern := (w.kern.setPos id (FILE_HEADER_POLL_SIZE + (f.afterRead n).pos)).tock t }) := by
  let k := w.kern
  have hlseek : linker_lseek fd 0 .cur w =
      .ok (((k.desc id).pos : Int), { w with kern := k.tock 1 }) :=
    linker_lseek_ok (Kernel.sysLseek_here hc hs.find hs.regular)
  rw [read_decrypted, bind_ok hlseek]
  rcases hs.cursor with hpos | ⟨hpos, hf⟩
  · rw [if_neg (by rw [hpos]; show ¬ (_ ∧ ((4096 + f.pos : Nat) : Int) < (4096 : Nat)); omega),
      hpos]
    have hat := read_pieces_at (w := { w with kern := k.tock 1 }) hc hH
      ⟨hs.find, hs.regular, hs.readable, hs.data, hs.cursor⟩ hpos n
    exact ⟨5, by rw [hat]; rfl⟩
  · have hseek : linker_lseek fd FILE_HEADER_POLL_SIZE .set { w with kern := k.tock 1 } =
        .ok ((4096 : Int), { w with kern := (k.setPos id 4096).tock 2 }) := by
      apply linker_lseek_ok
      rw [Kernel.sysLseek_calm (k := k.tock 1) hc hs.find hs.regular]
      rfl
    let k' := (k.setPos id 4096).tock 2
    have hd : k'.desc id = { k.desc id with pos := 4096 } := Kernel.setPos_desc_self ..
    rw [hpos, if_pos (by decide), bind_ok hseek]
    have hat := read_pieces_at (w := { w with kern := k' }) (f := f) hc hH
      ⟨hs.find, by rw [hd]; exact hs.regular, by rw [hd]; exact hs.readable,
        by rw [hd]; exact hs.data, .inl (by rw [hd, hf]; rfl)⟩ (by rw [hd, hf]; rfl) n
    rw [hf] at hat
    refine ⟨6, ?_⟩
    show read_pieces dev fd n ((FILE_HEADER_POLL_SIZE + 0 : Nat) : Int) _ = _
    rw [hat]
    show Except.ok (_, World.mk (Kernel.tock (Kernel.setPos k' id _) 4) _) = _
    rw [show k'.setPos id _ = ((k.setPos id 4096).setPos id _).tock 2 from
      Kernel.setPos_tock _ 2 id _, Kernel.setPos_setPos]
    rfl

/-- The state after a hooked read of `n` bytes. -/
theorem shows_afterRead (hs : Shows dev H w fd id f) (n t : Nat) :
    Shows dev H { w with
      kern := (w.kern.setPos id (FILE_HEADER_POLL_SIZE + (f.afterRead n).pos)).tock t }
      fd id (f.afterRead n) := by
  have hd : ((w.kern.setPos id (FILE_HEADER_POLL_SIZE + (f.afterRead n).pos)).tock t).desc id =
      { w.kern.desc id with pos := FILE_HEADER_POLL_SIZE + (f.afterRead n).pos } :=
    Kernel.setPos_desc_self ..
  exact ⟨hs.find, by rw [hd]; exact hs.regular, by rw [hd]; exact hs.readable,
    by rw [hd]; exact hs.data, .inl (by rw [hd])⟩

variable {env : Env} (henv : env.Active) (hH : RightsHeader H)
include henv hH

/-- **One hooked read** is one read of the plain file, when the descriptor has an entry or
    can be probed. -/
theorem read_probed (hc : w.kern.host.Calm) (hd : w.Tracked fd ∨ w.kern.InUse 0)
    (hs : Shows dev H w fd id f) (n : Nat) :
    ∃ t, read dev env fd n w =
      .ok ((((f.read n).length : Int), f.read n), { w with
        kern := (w.kern.setPos id (FILE_HEADER_POLL_SIZE + (f.afterRead n).pos)).tock t }) := by
  let k := w.kern
  have hfstat : linker_fstat fd { w with kern := k.tock 1 } =
      .ok (some ⟨true, (k.files.data (k.desc id).inode).length⟩, { w with kern := k.tock 2 }) := by
    apply linker_fstat_ok
    rw [Kernel.sysFstat_calm (k := k.tock 1) hc hs.find]
    show (some (Stat.mk (k.desc id).regular _), _) = _
    rw [hs.regular]
    rfl
  have hhead : HasHeader (k.files.data (k.desc id).inode) := by
    rw [hs.data]
    exact hasHeader_append hH.length hH.rights _
  obtain ⟨m, hpass⟩ := passes_through_header (w := { w with kern := k.tock 2 }) hc
    hs.find hs.regular hs.readable hd hhead
  obtain ⟨t, hdec⟩ := read_decrypted_at (w := { w with kern := (k.tock 2).tock m }) hc
    hH.length ⟨hs.find, hs.regular, hs.readable, hs.data, hs.cursor⟩ n
  refine ⟨2 + m + t, ?_⟩
  rw [read, hooked_active henv, bind_ok (calloc_calm hc), if_pos rfl, bind_ok hfstat]
  show (if true = false then _ else _ : Sys (Int × List UInt8)) _ = _
  rw [if_neg (by decide), bind_ok hpass, if_neg (by decide), hdec]
  show Except.ok (_, World.mk (Kernel.tock _ t) _) = _
  rw [Kernel.tock_tock, Kernel.setPos_tock, Kernel.tock_tock]

/-- Hooked reads one after the other are the reads of the plain file, and the cursor
    follows it. -/
theorem read_all_probed : ∀ (ns : List Nat) {w : World} {f : PlainFile},
    w.kern.host.Calm → w.Tracked fd ∨ w.kern.InUse 0 → Shows dev H w fd id f →
    ∃ w', read_all dev env fd ns w =
        .ok ((f.reads ns).map (fun b => ((b.length : Int), b)), w') ∧
      Shows dev H w' fd id (f.afterReads ns) ∧ w'.kern.files = w.kern.files ∧
      w'.kern.fds = w.kern.fds ∧ w'.file_info_list = w.file_info_list ∧
      (ns ≠ [] → (w'.kern.desc id).pos = FILE_HEADER_POLL_SIZE + (f.afterReads ns).pos) := by
  intro ns
  induction ns with
  | nil =>
      intro w f _ _ hs
      exact ⟨w, rfl, hs, rfl, rfl, rfl, fun h => absurd rfl h⟩
  | cons n ns ih =>
      intro w f hc hd hs
      obtain ⟨t, hread⟩ := read_probed henv hH hc hd hs n
      let k₁ := (w.kern.setPos id (FILE_HEADER_POLL_SIZE + (f.afterRead n).pos)).tock t
      obtain ⟨w', hrest, hs', hfiles, hfds, hlist, hpos⟩ :=
        ih (w := { w with kern := k₁ }) hc hd (shows_afterRead hs n t)
      refine ⟨w', ?_, hs', hfiles, hfds, hlist, fun _ => ?_⟩
      · rw [read_all, bind_ok hread, bind_ok hrest]
        rfl
      · by_cases hns : ns = []
        · -- the last read
          subst hns
          have hw' : ({ w with kern := k₁ } : World) = w' :=
            (Prod.mk.inj (Except.ok.inj hrest)).2
          rw [← hw']
          show (k₁.desc id).pos = _
          rw [show k₁.desc id = { w.kern.desc id with
            pos := FILE_HEADER_POLL_SIZE + (f.afterRead n).pos } from
            Kernel.setPos_desc_self ..]
          rfl
        · exact hpos hns

/-- The same with descriptor 0 in use. -/
theorem read_all_shows (ns : List Nat) {w : World} {f : PlainFile} (hc : w.kern.host.Calm)
    (h0 : w.kern.InUse 0) (hs : Shows dev H w fd id f) :
    ∃ w', read_all dev env fd ns w =
        .ok ((f.reads ns).map (fun b => ((b.length : Int), b)), w') ∧
      Shows dev H w' fd id (f.afterReads ns) ∧ w'.kern.files = w.kern.files ∧
      w'.kern.fds = w.kern.fds ∧ w'.file_info_list = w.file_info_list ∧
      (ns ≠ [] → (w'.kern.desc id).pos = FILE_HEADER_POLL_SIZE + (f.afterReads ns).pos) :=
  read_all_probed henv hH ns hc (.inr h0) hs

end Read

/-- **Transparent reads.**  A file holds a header and the stored form of `P`.  Through
    a readable descriptor on it, at physical offset `4096 + p` or 0, every sequence of
    hooked reads delivers the consecutive slices of `P`, with the lengths POSIX
    gives, and the cursor stays at 4096 plus the position reached in `P`. -/
theorem read_transparent {dev : Device} {env : Env} {w : World} {fd : Int} {id : Nat}
    {H P : List UInt8} {p : Nat} (henv : env.Active) (hc : w.kern.host.Calm)
    (h0 : w.kern.InUse 0) (hlen : H.length = FILE_HEADER_POLL_SIZE)
    (hrights : is_encrypted_by_file_header H = FILE_TYPE_RIGHTS)
    (hfind : w.kern.find fd = some id) (hreg : (w.kern.desc id).regular = true)
    (hacc : (w.kern.desc id).flags.acc.readable = true)
    (hdata : w.kern.files.data (w.kern.desc id).inode = H ++ stored dev.aes P)
    (hpos : (w.kern.desc id).pos = FILE_HEADER_POLL_SIZE + p ∨
      (w.kern.desc id).pos = 0 ∧ p = 0) (ns : List Nat) :
    ∃ w', read_all dev env fd ns w =
        .ok ((PlainFile.reads ⟨P, p⟩ ns).map (fun b => ((b.length : Int), b)), w') ∧
      (PlainFile.reads ⟨P, p⟩ ns).flatten = slice P p ns.sum ∧
      w'.kern.files = w.kern.files ∧
      (ns ≠ [] → (w'.kern.desc id).pos =
        FILE_HEADER_POLL_SIZE + (PlainFile.afterReads ⟨P, p⟩ ns).pos) := by
  have hs : Shows dev H w fd id ⟨P, p⟩ := ⟨hfind, hreg, hacc, hdata, hpos⟩
  obtain ⟨w', hread, -, hfiles, -, -, hcur⟩ :=
    read_all_shows henv ⟨hlen, hrights⟩ ns hc h0 hs
  exact ⟨w', hread, PlainFile.reads_flatten ns _, hfiles, hcur⟩

/-- Twenty zero bytes, read from byte 3 on in two pieces. -/
theorem read_transparent_twenty :
    ∃ w', read_all aDevice activeEnv 3 [5, 20]
        ⟨Kernel.oneDescriptor (newHeader none ++ stored zeroBlockAes (zeroed 20))
          { acc := .rdonly } (FILE_HEADER_POLL_SIZE + 3), []⟩ =
        .ok ([(5, zeroed 5), (12, zeroed 12)], w') ∧
      (w'.kern.desc 1).pos = FILE_HEADER_POLL_SIZE + 20 := by
  obtain ⟨w', hread, -, -, hpos⟩ := @read_transparent aDevice activeEnv
    ⟨Kernel.oneDescriptor (newHeader none ++ stored zeroBlockAes (zeroed 20))
      { acc := .rdonly } (FILE_HEADER_POLL_SIZE + 3), []⟩ 3 1
    (newHeader none) (zeroed 20) 3 ⟨rfl, rfl, rfl⟩
    (fun _ => ⟨rfl, rfl, rfl⟩) (by decide) (newHeader_length none) (newHeader_rights none)
    rfl rfl rfl rfl (.inl rfl) [5, 20]
  exact ⟨w', hread, hpos (by decide)⟩

end TeRead
