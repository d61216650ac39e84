import TransEncrypt.ProgramProofs

/-! # The three detectors — is this file encrypted?

    `is_encrypted_by_fd` duplicates a descriptor, `is_encrypted_by_path` opens the
    path, `is_encrypted_by_stream` rewinds a stream; each looks at the first 4096
    bytes of the file, padded with zeros.

    With descriptor 0 in use and a readable descriptor all three give the
    classification of those bytes and leave nothing behind.  With descriptor 0 free
    the first two are handed that number and take it for a failure.

    * `is_encrypted_by_fd_calm` and its siblings: each detector on a calm host;
    * `detectors_agree_iff`: when all three say the same of a file. -/

namespace TeDetector

open Posix Overlay TeHeader Hoare TeProgram

/-- The header buffer after reading from the start of a file. -/
def headOf (data : List UInt8) : List UInt8 :=
  memcpy (zeroed FILE_HEADER_POLL_SIZE) 0 (slice data 0 FILE_HEADER_POLL_SIZE)

/-- What the first 4096 bytes of a file say about it. -/
def typeOf (data : List UInt8) : Nat := is_encrypted_by_file_header (headOf data)

/-- The file starts with a full header of an encrypted file. -/
def HasHeader (data : List UInt8) : Prop :=
  FILE_HEADER_POLL_SIZE ≤ data.length ∧
    is_encrypted_by_file_header (data.take FILE_HEADER_POLL_SIZE) = FILE_TYPE_RIGHTS

instance (data : List UInt8) : Decidable (HasHeader data) :=
  inferInstanceAs (Decidable (_ ∧ _))

theorem headOf_full {data : List UInt8} (h : FILE_HEADER_POLL_SIZE ≤ data.length) :
    headOf data = data.take FILE_HEADER_POLL_SIZE := by
  have hlen : (data.take FILE_HEADER_POLL_SIZE).length = FILE_HEADER_POLL_SIZE := by
    rw [List.length_take]
    exact Nat.min_eq_left h
  rw [headOf, slice, List.drop_zero, memcpy_zeroed (Nat.le_of_eq hlen), hlen, Nat.sub_self]
  exact List.append_nil _

theorem typeOf_header {H : List UInt8} (hlen : H.length = FILE_HEADER_POLL_SIZE)
    (D : List UInt8) : typeOf (H ++ D) = is_encrypted_by_file_header H := by
  rw [typeOf, headOf_full (by rw [List.length_append]; omega), ← hlen, List.take_left]

theorem typeOf_hasHeader {data : List UInt8} (h : HasHeader data) :
    typeOf data = FILE_TYPE_RIGHTS := by
  rw [typeOf, headOf_full h.1]
  exact h.2

/-- A file that ends behind the type field says what the longer one says. -/
theorem typeOf_cut {D : List UInt8} {n : Nat} (h : fileTypeAt + 2 ≤ n)
    (hn : n ≤ FILE_HEADER_POLL_SIZE) : typeOf (D.take n) = typeOf D := by
  by_cases hD : D.length ≤ n
  · rw [List.take_of_length_le hD]
  · have hlen : (D.take n).length = n := by
      rw [List.length_take]
      omega
    have hhead : ∀ E : List UInt8, headOf E = E.take FILE_HEADER_POLL_SIZE ++
        zeroed (FILE_HEADER_POLL_SIZE - (E.take FILE_HEADER_POLL_SIZE).length) := by
      intro E
      rw [headOf, slice, List.drop_zero, memcpy_zeroed (List.length_take_le _ _)]
    have hsplit : D.take FILE_HEADER_POLL_SIZE =
        D.take n ++ (D.drop n).take (FILE_HEADER_POLL_SIZE - n) := by
      rw [← List.take_add, Nat.add_sub_cancel' hn]
    rw [typeOf, typeOf, hhead (D.take n), List.take_of_length_le (by omega), hhead D, hsplit,
      List.append_assoc, is_encrypted_by_file_header_prefix (by omega),
      is_encrypted_by_file_header_prefix (by omega)]

/-- Zeros are no header. -/
theorem zeroed_normal :
    is_encrypted_by_file_header (zeroed FILE_HEADER_POLL_SIZE) = FILE_TYPE_NORMAL := by
  have hsig : slice (zeroed FILE_HEADER_POLL_SIZE) signatureAt SIGNATURE_LENGTH
      ≠ SIGNATURE := by
    rw [slice, zeroed, List.drop_replicate, List.take_replicate]
    decide
  rw [is_encrypted_by_file_header, if_pos hsig]

theorem typeOf_zeroed (n : Nat) : typeOf (zeroed n) ≠ FILE_TYPE_RIGHTS := by
  have hhead : headOf (zeroed n) = zeroed FILE_HEADER_POLL_SIZE := by
    have hslice : slice (zeroed n) 0 FILE_HEADER_POLL_SIZE
        = zeroed (min FILE_HEADER_POLL_SIZE n) := List.take_replicate
    rw [headOf, hslice, memcpy_zeroed (by rw [zeroed_length]; exact Nat.min_le_left _ _),
      zeroed_length, zeroed, zeroed, List.replicate_append_replicate, zeroed]
    congr 1
    omega
  rw [typeOf, hhead, zeroed_normal]
  decide

theorem hasHeader_append {H : List UInt8} (hlen : H.length = FILE_HEADER_POLL_SIZE)
    (hH : is_encrypted_by_file_header H = FILE_TYPE_RIGHTS) (D : List UInt8) :
    HasHeader (H ++ D) := by
  refine ⟨by rw [List.length_append]; omega, ?_⟩
  rw [← hlen, List.take_left]
  exact hH

/-! ## The detectors -/

/-- `is_encrypted_by_fd`: gives up on a descriptor with the bit of `O_WRONLY`, and on
    a duplicate that is not positive. -/
def is_encrypted_by_fd (fd : Int) : Sys Nat := do
  match (← fcntl_getfl fd) with
  | none => pure FILE_TYPE_NORMAL     -- -1 has the bit of O_WRONLY set
  | some fl =>
    if fl.acc.wronlyBit = true then pure FILE_TYPE_NORMAL
    else do
      let nfd ← linker_dup fd
      if nfd > 0 then do
        let r ← linker_pread nfd FILE_HEADER_POLL_SIZE 0
        let _ ← linker_close nfd
        pure (is_encrypted_by_file_header (memcpy (zeroed FILE_HEADER_POLL_SIZE) 0 r.2))
      else pure FILE_TYPE_NORMAL

def is_encrypted_by_path (path : Path) : Sys Nat := do
  let fd ← linker_open path { acc := .rdonly }
  if fd > 0 then do
    let r ← linker_read fd FILE_HEADER_POLL_SIZE
    let _ ← linker_close fd
    pure (is_encrypted_by_file_header (memcpy (zeroed FILE_HEADER_POLL_SIZE) 0 r.2))
  else pure FILE_TYPE_NORMAL

/-- The position of a stream.  A stream is named by its descriptor and acts on the
    raw file, so its position is the cursor. -/
def ftell (stream : Int) : Sys Int := linker_lseek stream 0 .cur

def fseek (stream : Int) (offset : Int) : Sys Int := linker_lseek stream offset .set

def linker_fread (count : Nat) (stream : Int) : Sys (Int × List UInt8) :=
  linker_read stream count

def is_encrypted_by_stream (stream : Int) : Sys Nat := do
  let offset ← ftell stream
  if offset < 0 then pure FILE_TYPE_NORMAL
  else do
    let _ ← fseek stream 0
    let r ← linker_fread FILE_HEADER_POLL_SIZE stream
    let _ ← fseek stream offset
    pure (is_encrypted_by_file_header (memcpy (zeroed FILE_HEADER_POLL_SIZE) 0 r.2))

/-- The test `file_info_list_query_by_fd(fd) == NULL && is_encrypted_by_fd(fd) ==
    FILE_TYPE_NORMAL` with which `dup`, `read`, `lseek`, `lseek64` and `mmap` decide to
    pass a call through. -/
def passes_through (fd : Int) : Sys Bool := do
  match (← file_info_list_query_by_fd fd) with
  | some _ => pure false
  | none => do
    let type ← is_encrypted_by_fd fd
    pure (type == FILE_TYPE_NORMAL)

/-! ## What they answer on a calm host -/

section Calm

variable {w : World} {fd : Int} {id : Nat} (hf : w.kern.find fd = some id)
include hf

theorem is_encrypted_by_fd_wronly (h : (w.kern.desc id).flags.acc.wronlyBit = true) :
    is_encrypted_by_fd fd w = .ok (FILE_TYPE_NORMAL, w) := by
  rw [is_encrypted_by_fd, bind_ok (fcntl_getfl_ok (w.kern.sysGetfl_some hf))]
  simp only [h, if_true]
  rfl

variable (hc : w.kern.host.Calm)
include hc

/-- A descriptor that is not open for writing only, and whose duplicate is positive: the
    head of a regular file is classified, and only the host's script has moved on. -/
theorem is_encrypted_by_fd_positive (hbit : (w.kern.desc id).flags.acc.wronlyBit ≠ true)
    (hpos : 0 < w.kern.freeFd w.kern.answer.hint) :
    is_encrypted_by_fd fd w =
      .ok (if (w.kern.desc id).regular = true
        then typeOf (w.kern.files.data (w.kern.desc id).inode) else FILE_TYPE_NORMAL,
        { w with kern := w.kern.tock 3 }) := by
  have hacc : (w.kern.desc id).flags.acc.readable = true := by
    cases hm : (w.kern.desc id).flags.acc <;> rw [hm] at hbit
    · rfl
    · exact absurd rfl hbit
    · rfl
    · exact absurd rfl hbit
  let hint := w.kern.answer.hint
  let k₁ := (w.kern.tock 1).bindFd hint id (w.kern.find_lt hf)
  have hf₁ : k₁.find (w.kern.freeFd hint) = some id :=
    Kernel.bindFd_find_self (k := w.kern.tock 1)
  have hdup : linker_dup fd w = .ok (w.kern.freeFd hint, { w with kern := k₁ }) :=
    linker_dup_ok (Kernel.sysDup_calm hc hf)
  have hclose := linker_close_ok (w := { w with kern := k₁.tock 1 })
    (Kernel.sysClose_calm (k := k₁.tock 1) hc hf₁)
  have hback : ((k₁.tock 1).tock 1).dropFd (w.kern.freeFd hint) = w.kern.tock 3 := by
    have := (w.kern.tock 1).dropFd_bindFd hint id (w.kern.find_lt hf)
    exact congrArg (fun k => Kernel.tock k 2) this
  -- whatever arrives is classified
  have hrun : ∀ {n : Int} {bs : List UInt8}, k₁.sysPread (w.kern.freeFd hint)
      FILE_HEADER_POLL_SIZE 0 = ((n, bs), k₁.tock 1) → is_encrypted_by_fd fd w =
      .ok (is_encrypted_by_file_header (memcpy (zeroed FILE_HEADER_POLL_SIZE) 0 bs),
        { w with kern := w.kern.tock 3 }) := by
    intro n bs hpread
    rw [is_encrypted_by_fd, bind_ok (fcntl_getfl_ok (w.kern.sysGetfl_some hf))]
    simp only [if_neg hbit]
    rw [bind_ok hdup, if_pos hpos, bind_ok (linker_pread_ok (w := { w with kern := k₁ }) hpread),
      bind_ok hclose, pure_ok]
    show Except.ok (_, World.mk
      (((k₁.tock 1).tock 1).dropFd (w.kern.freeFd hint)) w.file_info_list) = _
    rw [hback]
  by_cases hreg : (w.kern.desc id).regular = true
  · rw [if_pos hreg]
    exact hrun (Kernel.sysPread_calm (k := k₁) hc hf₁ hreg hacc FILE_HEADER_POLL_SIZE
      (Int.le_refl 0))
  · have hfail : k₁.sysPread (w.kern.freeFd hint) FILE_HEADER_POLL_SIZE 0
        = ((-1, []), k₁.tock 1) := by
      have hreg' : (w.kern.desc id).regular = false := by simpa using hreg
      simp only [Kernel.sysPread, hf₁, show (k₁.desc id).regular = false from hreg',
        Bool.not_false, Bool.or_true, Bool.true_or, if_true]
    rw [if_neg hreg, hrun hfail, memcpy, overlay_nil, List.take_length, zeroed_normal]

/-- The descriptor is readable and its duplicate positive: the head of the file is
    classified, and only the host's script has moved on. -/
theorem is_encrypted_by_fd_calm (hreg : (w.kern.desc id).regular = true)
    (hacc : (w.kern.desc id).flags.acc.readable = true) (h0 : w.kern.InUse 0) :
    is_encrypted_by_fd fd w =
      .ok (typeOf (w.kern.files.data (w.kern.desc id).inode),
        { w with kern := w.kern.tock 3 }) := by
  have hbit : (w.kern.desc id).flags.acc.wronlyBit ≠ true := by
    intro h
    cases hm : (w.kern.desc id).flags.acc <;> rw [hm] at h hacc
    · exact Bool.noConfusion h
    · exact Bool.noConfusion hacc
    · exact Bool.noConfusion h
    · exact Bool.noConfusion hacc
  rw [is_encrypted_by_fd_positive hf hc hbit (w.kern.freeFd_pos h0 _), if_pos hreg]

/-- Descriptor 0 is free and the kernel hands it out: the duplicate is taken for a
    failure and stays open. -/
theorem is_encrypted_by_fd_leaks (hlow : w.kern.host.LowestFree) (h0 : ¬ w.kern.InUse 0)
    (hbit : (w.kern.desc id).flags.acc.wronlyBit ≠ true) :
    ∃ k', is_encrypted_by_fd fd w = .ok (FILE_TYPE_NORMAL, { w with kern := k' }) ∧
      k'.fds = (0, id) :: w.kern.fds := by
  have hhint : w.kern.answer.hint = 0 := hlow w.kern.tick
  have hzero : w.kern.freeFd w.kern.answer.hint = 0 := by
    rw [hhint]
    exact w.kern.freeFd_zero h0
  have hdup := linker_dup_ok (w := w) (Kernel.sysDup_calm hc hf)
  rw [hzero] at hdup
  refine ⟨(w.kern.tock 1).bindFd w.kern.answer.hint id (w.kern.find_lt hf), ?_, ?_⟩
  · rw [is_encrypted_by_fd, bind_ok (fcntl_getfl_ok (w.kern.sysGetfl_some hf))]
    simp only [if_neg hbit]
    rw [bind_ok hdup, if_neg (by decide)]
    rfl
  · show (w.kern.freeFd w.kern.answer.hint, id) :: w.kern.fds = _
    rw [hzero]

/-- With descriptor 0 free the answer is normal, whatever the file holds. -/
theorem is_encrypted_by_fd_free (hlow : w.kern.host.LowestFree)
    (h0 : ¬ w.kern.InUse 0) :
    ∃ w', is_encrypted_by_fd fd w = .ok (FILE_TYPE_NORMAL, w') := by
  by_cases hbit : (w.kern.desc id).flags.acc.wronlyBit = true
  · exact ⟨w, is_encrypted_by_fd_wronly hf hbit⟩
  · obtain ⟨k', hrun, -⟩ := is_encrypted_by_fd_leaks hf hc hlow h0 hbit
    exact ⟨_, hrun⟩

theorem is_encrypted_by_stream_calm (hreg : (w.kern.desc id).regular = true)
    (hacc : (w.kern.desc id).flags.acc.readable = true) :
    ∃ k', is_encrypted_by_stream fd w =
      .ok (typeOf (w.kern.files.data (w.kern.desc id).inode), { w with kern := k' }) ∧
      Kernel.Quiet w.kern k' := by
  let d := w.kern.desc id
  let bs := slice (w.kern.files.data d.inode) 0 FILE_HEADER_POLL_SIZE
  -- the four states: told, rewound, read, put back
  let k₁ := (w.kern.tock 1).setPos id d.pos
  let k₂ := (k₁.tock 1).setPos id 0
  let k₃ := (k₂.tock 1).setPos id bs.length
  let k₄ := (k₃.tock 1).setPos id d.pos
  have hd₁ : k₁.desc id = d := Kernel.setPos_desc_self ..
  have hd₂ : k₂.desc id = { d with pos := 0 } := by
    rw [Kernel.setPos_desc_self, Kernel.tock_desc, hd₁]
  have hd₃ : k₃.desc id = { d with pos := bs.length } := by
    rw [Kernel.setPos_desc_self, Kernel.tock_desc, hd₂]
  have htell : ftell fd w = .ok ((d.pos : Int), { w with kern := k₁ }) := by
    apply linker_lseek_ok
    rw [Kernel.sysLseek_calm hc hf hreg, if_neg]
    · show ((d.pos : Int) + 0, (w.kern.tock 1).setPos id ((d.pos : Int) + 0).toNat) = _
      rw [Int.add_zero, Int.toNat_natCast]
    · show ¬ ((d.pos : Int) + 0 < 0)
      omega
  have hseek : fseek fd 0 { w with kern := k₁ } = .ok (0, { w with kern := k₂ }) := by
    apply linker_lseek_ok
    show k₁.sysLseek fd 0 .set = _
    rw [Kernel.sysLseek_calm (k := k₁) hc hf (by rw [hd₁]; exact hreg)]
    rfl
  have hread : linker_fread FILE_HEADER_POLL_SIZE fd { w with kern := k₂ } =
      .ok (((bs.length : Int), bs), { w with kern := k₃ }) := by
    apply linker_read_ok
    show k₂.sysRead fd FILE_HEADER_POLL_SIZE = _
    rw [Kernel.sysRead_calm (k := k₂) hc hf (by rw [hd₂]; exact hreg)
      (by rw [hd₂]; exact hacc), hd₂]
    show (((bs.length : Int), bs), (k₂.tock 1).setPos id (0 + bs.length)) = _
    rw [Nat.zero_add]
  have hback : fseek fd d.pos { w with kern := k₃ } =
      .ok ((d.pos : Int), { w with kern := k₄ }) := by
    apply linker_lseek_ok
    show k₃.sysLseek fd d.pos .set = _
    rw [Kernel.sysLseek_calm (k := k₃) hc hf (by rw [hd₃]; exact hreg), if_neg]
    · show ((0 : Int) + d.pos, (k₃.tock 1).setPos id ((0 : Int) + d.pos).toNat) = _
      rw [Int.zero_add, Int.toNat_natCast]
    · show ¬ ((0 : Int) + d.pos < 0)
      omega
  refine ⟨k₄, ?_, ⟨rfl, rfl, rfl, ?_, Nat.le_refl _⟩⟩
  · rw [is_encrypted_by_stream, bind_ok htell, if_neg (by omega), bind_ok hseek,
      bind_ok hread, bind_ok hback, pure_ok]
    rfl
  · intro id' _
    by_cases h : id' = id
    · rw [h, Kernel.setPos_desc_self, Kernel.tock_desc, hd₃]
    · rw [Kernel.setPos_desc_ne _ h, Kernel.tock_desc, Kernel.setPos_desc_ne _ h,
        Kernel.tock_desc, Kernel.setPos_desc_ne _ h, Kernel.tock_desc,
        Kernel.setPos_desc_ne _ h, Kernel.tock_desc]

end Calm

section CalmPath

variable {w : World} (hc : w.kern.host.Calm) {path : Path} {i : Nat}
  (hp : w.kern.files.names path = some i)
include hc hp

theorem is_encrypted_by_path_calm (h0 : w.kern.InUse 0) :
    ∃ k', is_encrypted_by_path path w =
      .ok (typeOf (w.kern.files.data i), { w with kern := k' }) ∧
      Kernel.Quiet w.kern k' := by
  obtain ⟨k₁, k₂, k₃, hopen, hread, hclose, hq, -⟩ :=
    Kernel.open_read_close hc hp (f := { acc := .rdonly }) rfl rfl rfl 0
      FILE_HEADER_POLL_SIZE
  refine ⟨k₃, ?_, hq⟩
  rw [is_encrypted_by_path, bind_ok (linker_open_ok hopen),
    if_pos (w.kern.freeFd_pos h0 _),
    bind_ok (linker_read_ok (w := { w with kern := k₁ }) hread),
    bind_ok (linker_close_ok (w := { w with kern := k₂ }) hclose), pure_ok]
  rfl

/-- The same for the path: the new descriptor 0 stays open. -/
theorem is_encrypted_by_path_leaks (hlow : w.kern.host.LowestFree) (h0 : ¬ w.kern.InUse 0) :
    ∃ k', is_encrypted_by_path path w = .ok (FILE_TYPE_NORMAL, { w with kern := k' }) ∧
      k'.fds = (0, w.kern.nextDesc) :: w.kern.fds := by
  have hhint : w.kern.answer.hint = 0 := hlow w.kern.tick
  have hzero : (w.kern.tock 1).freeFd w.kern.answer.hint = 0 := by
    rw [hhint]
    exact Kernel.freeFd_zero (w.kern.tock 1) h0
  have hopen := linker_open_ok (w := w)
    (Kernel.sysOpen_calm hc hp (f := { acc := .rdonly }) rfl rfl)
  refine ⟨_, by rw [is_encrypted_by_path, bind_ok hopen, if_neg (by rw [hzero]; decide)]; rfl, ?_⟩
  show ((w.kern.tock 1).freeFd w.kern.answer.hint, w.kern.nextDesc) :: w.kern.fds = _
  rw [hzero]

theorem is_encrypted_by_path_free (hlow : w.kern.host.LowestFree)
    (h0 : ¬ w.kern.InUse 0) :
    ∃ w', is_encrypted_by_path path w = .ok (FILE_TYPE_NORMAL, w') := by
  obtain ⟨k', hrun, -⟩ := is_encrypted_by_path_leaks hc hp hlow h0
  exact ⟨_, hrun⟩

end CalmPath

/-! ## One answer and no trace -/

/-- The descriptor `fd` may read the regular file `i`. -/
def ReadsFile (k : Kernel) (fd : Int) (i : Nat) : Prop :=
  ∃ id, k.find fd = some id ∧ (k.desc id).inode = i ∧ (k.desc id).regular = true ∧
    (k.desc id).flags.acc.readable = true

/-- The detector says what the first 4096 bytes of `data` say, and has changed no file, no
    descriptor and no cursor. -/
def Detects (detector : Sys Nat) (w : World) (data : List UInt8) : Prop :=
  ∃ k', detector w = .ok (typeOf data, { w with kern := k' }) ∧ Kernel.Quiet w.kern k'

/-- What leaves one more descriptor open leaves a trace. -/
theorem not_detects_of_leaks {detector : Sys Nat} {w : World} {data : List UInt8} {t : Nat}
    {k' : Kernel} {e : Int × Nat} (hrun : detector w = .ok (t, { w with kern := k' }))
    (hleak : k'.fds = e :: w.kern.fds) : ¬ Detects detector w data := by
  rintro ⟨k'', hrun', hq⟩
  have hw := (Prod.mk.inj (Except.ok.inj (hrun.symm.trans hrun'))).2
  have hk : k' = k'' := congrArg World.kern hw
  have hfds := hq.fds
  rw [← hk, hleak] at hfds
  exact List.cons_ne_self e _ hfds

section Detectors

variable {w : World} (hc : w.kern.host.Calm)
include hc

theorem is_encrypted_by_path_detects {path : Path} {i : Nat}
    (hlow : w.kern.host.LowestFree) (hp : w.kern.files.names path = some i) :
    Detects (is_encrypted_by_path path) w (w.kern.files.data i) ↔ w.kern.InUse 0 := by
  constructor
  · intro h
    by_contra h0
    obtain ⟨k', hrun, hleak⟩ := is_encrypted_by_path_leaks hc hp hlow h0
    exact not_detects_of_leaks hrun hleak h
  · intro h0
    exact is_encrypted_by_path_calm hc hp h0

theorem is_encrypted_by_fd_detects {fd : Int} {i : Nat} (hlow : w.kern.host.LowestFree)
    (hfd : ReadsFile w.kern fd i) :
    Detects (is_encrypted_by_fd fd) w (w.kern.files.data i) ↔ w.kern.InUse 0 := by
  obtain ⟨id, hfind, rfl, hreg, hacc⟩ := hfd
  constructor
  · intro h
    by_contra h0
    have hbit : (w.kern.desc id).flags.acc.wronlyBit ≠ true := by
      intro hbit
      cases hm : (w.kern.desc id).flags.acc <;> rw [hm] at hbit hacc
      · cases hbit
      · cases hacc
      · cases hbit
      · cases hacc
    obtain ⟨k', hrun, hleak⟩ := is_encrypted_by_fd_leaks hfind hc hlow h0 hbit
    exact not_detects_of_leaks hrun hleak h
  · intro h0
    exact ⟨_, is_encrypted_by_fd_calm hfind hc hreg hacc h0, .tock _ _⟩

theorem is_encrypted_by_stream_detects {stream : Int} {i : Nat}
    (hstream : ReadsFile w.kern stream i) :
    Detects (is_encrypted_by_stream stream) w (w.kern.files.data i) := by
  obtain ⟨id, hfind, rfl, hreg, hacc⟩ := hstream
  exact is_encrypted_by_stream_calm hfind hc hreg hacc

end Detectors

/-- **The three detectors.**  By path, by descriptor and by stream they say the same of a
    file and leave no trace, exactly when descriptor 0 is in use. -/
theorem detectors_agree_iff {w : World} {path : Path} {fd stream : Int} {i : Nat}
    (hc : w.kern.host.Calm) (hlow : w.kern.host.LowestFree)
    (hp : w.kern.files.names path = some i) (hfd : ReadsFile w.kern fd i)
    (hstream : ReadsFile w.kern stream i) :
    Detects (is_encrypted_by_path path) w (w.kern.files.data i) ∧
      Detects (is_encrypted_by_fd fd) w (w.kern.files.data i) ∧
      Detects (is_encrypted_by_stream stream) w (w.kern.files.data i) ↔ w.kern.InUse 0 := by
  rw [is_encrypted_by_path_detects hc hlow hp, is_encrypted_by_fd_detects hc hlow hfd]
  constructor
  · rintro ⟨h0, -, -⟩
    exact h0
  · intro h0
    exact ⟨h0, h0, is_encrypted_by_stream_detects hc hstream⟩

/-- An empty file, open for reading as descriptor 3; descriptor 0 is a terminal. -/
def emptyReader : World := ⟨Kernel.oneDescriptor [] { acc := .rdonly } 0, []⟩

/-- A header and five bytes, open in the same way. -/
def headerReader : World :=
  ⟨Kernel.oneDescriptor (newHeader none ++ zeroed 5) { acc := .rdonly } 0, []⟩

/-- All three see the header. -/
theorem detectors_agree_rights : typeOf (newHeader none ++ zeroed 5) = FILE_TYPE_RIGHTS ∧
    Detects (is_encrypted_by_path Kernel.aName) headerReader (newHeader none ++ zeroed 5) ∧
    Detects (is_encrypted_by_fd 3) headerReader (newHeader none ++ zeroed 5) ∧
    Detects (is_encrypted_by_stream 3) headerReader (newHeader none ++ zeroed 5) := by
  have hreads : ReadsFile headerReader.kern 3 1 := ⟨1, rfl, rfl, rfl, rfl⟩
  refine ⟨?_, (detectors_agree_iff (fun _ => ⟨rfl, rfl, rfl⟩) (fun _ => rfl) rfl hreads
    hreads).mpr (by decide)⟩
  rw [typeOf_header (newHeader_length none), newHeader_rights]

/-- A process with standard input closed, and a file with a header open as descriptor 3. -/
def inputClosed : World :=
  ⟨(Kernel.oneDescriptor (newHeader none) { acc := .rdonly } 0).dropFd 0, []⟩

/-- There the detectors that need a new descriptor do not see the header, and leave that
    descriptor open. -/
theorem header_unseen : inputClosed.kern.host.Calm ∧ inputClosed.kern.host.LowestFree ∧
    inputClosed.kern.files.names Kernel.aName = some 1 ∧ ReadsFile inputClosed.kern 3 1 ∧
    typeOf (inputClosed.kern.files.data 1) = FILE_TYPE_RIGHTS ∧
    (∃ w', is_encrypted_by_path Kernel.aName inputClosed = .ok (FILE_TYPE_NORMAL, w')) ∧
    (∃ w', is_encrypted_by_fd 3 inputClosed = .ok (FILE_TYPE_NORMAL, w')) ∧
    ¬ Detects (is_encrypted_by_path Kernel.aName) inputClosed (inputClosed.kern.files.data 1) ∧
    ¬ Detects (is_encrypted_by_fd 3) inputClosed (inputClosed.kern.files.data 1) := by
  have hc : inputClosed.kern.host.Calm := fun _ => ⟨rfl, rfl, rfl⟩
  have hlow : inputClosed.kern.host.LowestFree := fun _ => rfl
  have h0 : ¬ inputClosed.kern.InUse 0 := fun h => ((Kernel.dropFd_inUse _).mp h).2 rfl
  have hp : inputClosed.kern.files.names Kernel.aName = some 1 := rfl
  have hfind : inputClosed.kern.find 3 = some 1 := rfl
  have hfd : ReadsFile inputClosed.kern 3 1 := ⟨1, hfind, rfl, rfl, rfl⟩
  have hdata : inputClosed.kern.files.data 1 = newHeader none :=
    Kernel.oneDescriptor_data (newHeader none) { acc := .rdonly } 0
  have htype : typeOf (inputClosed.kern.files.data 1) = FILE_TYPE_RIGHTS := by
    rw [hdata, ← List.append_nil (newHeader none), typeOf_header (newHeader_length none),
      newHeader_rights]
  refine ⟨hc, hlow, hp, hfd, htype, is_encrypted_by_path_free hc hp hlow h0,
    is_encrypted_by_fd_free hfind hc hlow h0, ?_, ?_⟩
  · exact fun h => h0 ((is_encrypted_by_path_detects hc hlow hp).mp h)
  · exact fun h => h0 ((is_encrypted_by_fd_detects hc hlow hfd).mp h)

/-! ## What the probes see -/

/-- What the probe of a path says on a calm host. -/
def seenByPath (k : Kernel) (path : Path) : Nat :=
  match k.files.names path with
  | none => FILE_TYPE_NORMAL
  | some i => if k.InUse 0 then typeOf (k.files.data i) else FILE_TYPE_NORMAL

/-- What the probe of a descriptor says on a calm host. -/
def seenByFd (k : Kernel) (fd : Int) : Nat :=
  match k.find fd with
  | none => FILE_TYPE_NORMAL
  | some id =>
      if (k.desc id).flags.acc.wronlyBit = false ∧ (k.desc id).regular = true ∧ k.InUse 0 then
        typeOf (k.files.data (k.desc id).inode)
      else FILE_TYPE_NORMAL

section Seen

variable {w : World} (hc : w.kern.host.Calm) (hlow : w.kern.host.LowestFree)
include hc hlow

theorem is_encrypted_by_path_sees (path : Path) :
    ∃ w', is_encrypted_by_path path w = .ok (seenByPath w.kern path, w') := by
  unfold seenByPath
  cases hp : w.kern.files.names path with
  | none =>
      have hopen := linker_open_ok (w := w)
        (Kernel.sysOpen_absent hc hp (f := { acc := .rdonly }) rfl)
      exact ⟨_, by rw [is_encrypted_by_path, bind_ok hopen, if_neg (by decide)]; rfl⟩
  | some i =>
      by_cases h0 : w.kern.InUse 0
      · obtain ⟨k', hrun, -⟩ := is_encrypted_by_path_calm hc hp h0
        exact ⟨_, by simp only [if_pos h0]; exact hrun⟩
      · simp only [if_neg h0]
        exact is_encrypted_by_path_free hc hp hlow h0

theorem is_encrypted_by_fd_sees (fd : Int) :
    ∃ w', is_encrypted_by_fd fd w = .ok (seenByFd w.kern fd, w') ∧
      (seenByFd w.kern fd ≠ FILE_TYPE_NORMAL → w' = { w with kern := w.kern.tock 3 }) := by
  unfold seenByFd
  cases hf : w.kern.find fd with
  | none =>
      refine ⟨w, ?_, fun h => absurd rfl h⟩
      have hflags : w.kern.sysGetfl fd = none := by
        rw [Kernel.sysGetfl, hf]
        rfl
      rw [is_encrypted_by_fd, bind_ok (fcntl_getfl_ok hflags)]
      rfl
  | some id =>
      dsimp only
      by_cases hbit : (w.kern.desc id).flags.acc.wronlyBit = true
      · rw [if_neg (by rw [hbit]; rintro ⟨h, -⟩; cases h)]
        exact ⟨w, is_encrypted_by_fd_wronly hf hbit, fun h => absurd rfl h⟩
      by_cases h0 : w.kern.InUse 0
      · have hrun := is_encrypted_by_fd_positive hf hc hbit (w.kern.freeFd_pos h0 _)
        refine ⟨_, ?_, fun _ => rfl⟩
        by_cases hreg : (w.kern.desc id).regular = true
        · rw [if_pos ⟨by simpa using hbit, hreg, h0⟩, hrun, if_pos hreg]
        · rw [if_neg (fun h => hreg h.2.1), hrun, if_neg hreg]
      · rw [if_neg (fun h => h0 h.2.2)]
        obtain ⟨w', hrun⟩ := is_encrypted_by_fd_free hf hc hlow h0
        exact ⟨w', hrun, fun h => absurd rfl h⟩

end Seen

/-! ## Passing through -/

/-- A tracked descriptor is never passed through. -/
theorem passes_through_tracked {w : World} {fd : Int} (h : w.Tracked fd) :
    passes_through fd w = .ok (false, w) := by
  obtain ⟨e, he⟩ := Option.isSome_iff_exists.mp (query_isSome_iff.mpr h)
  rw [passes_through, bind_ok (query_ok fd w), he]
  rfl

/-- A descriptor without an entry is passed through when the probe says normal. -/
theorem passes_through_untracked {w w' : World} {fd : Int} {type : Nat}
    (h : ¬ w.Tracked fd) (ht : is_encrypted_by_fd fd w = .ok (type, w')) :
    passes_through fd w = .ok (type == FILE_TYPE_NORMAL, w') := by
  have hnone : w.file_info_list.find? (fun e => e.file_descriptor = fd) = none := by
    rw [← Option.not_isSome_iff_eq_none]
    exact fun hs => h (query_isSome_iff.mp hs)
  rw [passes_through, bind_ok (query_ok fd w), hnone]
  show (is_encrypted_by_fd fd >>= fun type => pure (type == FILE_TYPE_NORMAL)) w = _
  rw [bind_ok ht, pure_ok]

/-- The hooks take the descriptor for one of an encrypted file: it has an entry, or the
    probe sees a type that is not the normal one. -/
def CountsEncrypted (w : World) (fd : Int) : Prop :=
  w.Tracked fd ∨ seenByFd w.kern fd ≠ FILE_TYPE_NORMAL

theorem passes_through_counts {w : World} (hc : w.kern.host.Calm)
    (hlow : w.kern.host.LowestFree) {fd : Int} (h : CountsEncrypted w fd) :
    ∃ n, passes_through fd w = .ok (false, { w with kern := w.kern.tock n }) := by
  by_cases ht : w.Tracked fd
  · exact ⟨0, passes_through_tracked ht⟩
  · have hseen := h.resolve_left ht
    obtain ⟨w', hrun, hw'⟩ := is_encrypted_by_fd_sees hc hlow fd
    refine ⟨3, ?_⟩
    rw [passes_through_untracked ht hrun, hw' hseen, beq_eq_false_iff_ne.mpr hseen]

theorem passes_through_plain {w : World} (hc : w.kern.host.Calm)
    (hlow : w.kern.host.LowestFree) {fd : Int} (h : ¬ CountsEncrypted w fd) :
    ∃ w', passes_through fd w = .ok (true, w') := by
  obtain ⟨ht, hseen⟩ := not_or.mp h
  obtain ⟨w', hrun, -⟩ := is_encrypted_by_fd_sees hc hlow fd
  exact ⟨w', by rw [passes_through_untracked ht hrun, not_not.mp hseen]; rfl⟩

/-- Without an entry it takes a probe, and that a positive descriptor. -/
theorem CountsEncrypted.probed {w : World} {fd : Int} (h : CountsEncrypted w fd) :
    w.Tracked fd ∨ w.kern.InUse 0 := by
  rcases h with ht | hseen
  · exact .inl ht
  · refine .inr ?_
    by_contra h0
    refine hseen ?_
    unfold seenByFd
    cases w.kern.find fd with
    | none => rfl
    | some id => exact if_neg (fun h => h0 h.2.2)

/-- A readable descriptor on a file with a header is not passed through, when it has an
    entry or descriptor 0 is in use. -/
theorem passes_through_header {w : World} (hc : w.kern.host.Calm) {fd : Int} {id : Nat}
    (hf : w.kern.find fd = some id) (hreg : (w.kern.desc id).regular = true)
    (hacc : (w.kern.desc id).flags.acc.readable = true)
    (hd : w.Tracked fd ∨ w.kern.InUse 0)
    (hh : HasHeader (w.kern.files.data (w.kern.desc id).inode)) :
    ∃ n, passes_through fd w = .ok (false, { w with kern := w.kern.tock n }) := by
  by_cases ht : w.Tracked fd
  · exact ⟨0, passes_through_tracked ht⟩
  · refine ⟨3, ?_⟩
    rw [passes_through_untracked ht
      (is_encrypted_by_fd_calm hf hc hreg hacc (hd.resolve_left ht)), typeOf_hasHeader hh]
    rfl

theorem passes_through_encrypted {w : World} (hc : w.kern.host.Calm) {fd : Int}
    {id : Nat} (hf : w.kern.find fd = some id) (hreg : (w.kern.desc id).regular = true)
    (hacc : (w.kern.desc id).flags.acc.readable = true) (h0 : w.kern.InUse 0)
    (hh : HasHeader (w.kern.files.data (w.kern.desc id).inode)) :
    ∃ n, passes_through fd w = .ok (false, { w with kern := w.kern.tock n }) :=
  passes_through_header hc hf hreg hacc (.inr h0) hh

end TeDetector
