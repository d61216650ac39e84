import TransEncrypt.TransferProofs
import TransEncrypt.WriteHookProofs

/-! # One hooked write, whatever happens inside it

    A write makes seven calls: it asks for the cursor, gets memory, opens the recorded
    path, reads the stored bytes before the cursor from there, puts them back encrypted
    together with the new data, closes the second descriptor, and writes the rest through
    the first one.  Of these only the memory and the last result are looked at.

    * `fetched`: what is read from the recorded path, which may be gone or another file;
    * `write_any`: the bytes that are left, the cursor and the result, for every host;
    * `torn_end`, `torn_append`: the bytes at the end of a stored file, and with `O_APPEND`. -/

namespace TeTorn

open Posix Overlay Blockwise TeHeader Hoare TeProgram TeStored TeWrite

/-! ## The second descriptor -/

/-- What is read from the file that `path` denotes, before the offset `off` and from the
    block boundary on: the first call opens it, the second reads. -/
def fetched (k : Kernel) (path : Path) (off : Nat) : List UInt8 :=
  if k.answer.fails then []
  else match k.files.names path with
    | none => []
    | some j =>
        slice (k.files.data j) (off / 16 * 16) (given (k.tock 1).answer (off % 16))

theorem fetched_length (k : Kernel) (path : Path) (off : Nat) :
    (fetched k path off).length ≤ off % 16 := by
  unfold fetched
  split
  · exact Nat.zero_le _
  · split
    · exact Nat.zero_le _
    · rw [slice_length]
      have := given_le (k.tock 1).answer (off % 16)
      omega

theorem fetched_named {k : Kernel} (hc : k.host.Calm) {path : Path} {j : Nat}
    (hname : k.files.names path = some j) (off : Nat) :
    fetched k path off = slice (k.files.data j) (off / 16 * 16) (off % 16) := by
  have hgiven : given (k.tock 1).answer (off % 16) = off % 16 := given_calm hc _ _
  rw [fetched, if_neg (by rw [Kernel.answer_fails hc]; decide), hname]
  simp only [hgiven]

/-- What is fetched when no call fails. -/
def recorded (files : FileStore) (path : Path) (off : Nat) : List UInt8 :=
  match files.names path with
  | none => []
  | some j => slice (files.data j) (off / 16 * 16) (off % 16)

theorem fetched_calm {k : Kernel} (hc : k.host.Calm) (path : Path) (off : Nat) :
    fetched k path off = recorded k.files path off := by
  unfold recorded
  cases hname : k.files.names path with
  | none => rw [fetched, if_neg (by rw [Kernel.answer_fails hc]; decide), hname]
  | some j => exact fetched_named hc hname off

theorem recorded_length (files : FileStore) (path : Path) (off : Nat) :
    (recorded files path off).length ≤ off % 16 := by
  unfold recorded
  split
  · exact Nat.zero_le _
  · rw [slice_length]
    omega

/-- The second descriptor is opened, read from and closed again around other calls that
    leave the descriptors alone; the open may also have failed. -/
structure Second (k : Kernel) (rfd : Int) (k₁ : Kernel) : Prop where
  files : k₁.files = k.files
  host : k₁.host = k.host
  tick : k₁.tick = k.tick + 1
  nextDesc : k.nextDesc ≤ k₁.nextDesc
  find : ∀ {fd id}, k.find fd = some id → k₁.find fd = some id
  desc : ∀ id, id < k.nextDesc → k₁.desc id = k.desc id
  close : ∀ k₂ : Kernel, k₂.fds = k₁.fds → ∃ r k₃, k₂.sysClose rfd = (r, k₃) ∧
    k₃.fds = k.fds ∧ k₃.files = k₂.files ∧ k₃.desc = k₂.desc ∧ k₃.host = k₂.host ∧
    k₃.tick = k₂.tick + 1 ∧ k₃.nextDesc = k₂.nextDesc

private theorem second_failed (k : Kernel) : Second k (-1) (k.tock 1) where
  files := rfl
  host := rfl
  tick := rfl
  nextDesc := Nat.le_refl _
  find := fun h => h
  desc := fun _ _ => rfl
  close := by
    intro k₂ hfds
    have hnone : k₂.find (-1) = none := k₂.find_failed
    refine ⟨-1, k₂.tock 1, ?_, hfds, rfl, rfl, rfl, rfl, rfl⟩
    simp only [Kernel.sysClose, hnone]

private theorem second_installed (k : Kernel) {j : Nat} (hj : j < k.files.next) (fl : Flags) :
    Second k (k.freeFd k.answer.hint) ((k.tock 1).install k.answer.hint j fl hj).2 where
  files := rfl
  host := rfl
  tick := rfl
  nextDesc := Nat.le_succ _
  find := fun h => Kernel.install_find_some (k := k.tock 1) h
  desc := fun id h => Kernel.install_desc_lt (k := k.tock 1) h
  close := by
    intro k₂ hfds
    have hf : k₂.find (k.freeFd k.answer.hint) = some k.nextDesc := by
      rw [Kernel.find, hfds]
      exact List.lookup_cons_self
    refine ⟨if k₂.answer.fails then -1 else 0, (k₂.tock 1).dropFd (k.freeFd k.answer.hint), ?_, ?_,
      rfl, rfl, rfl, rfl, rfl⟩
    · simp only [Kernel.sysClose, hf]
    · show k₂.fds.filter _ = k.fds
      rw [hfds]
      exact k.filter_bound k.answer.hint k.nextDesc

/-- Opening the recorded path and reading the stored bytes. -/
theorem second_run (w : World) (path : Path) (off : Nat) : ∃ rfd k₁ n,
    linker_open path { acc := .rdwr } w = .ok (rfd, { w with kern := k₁ }) ∧
    linker_pread rfd (off % 16) ((off - off % 16 : Nat) : Int) { w with kern := k₁ } =
      .ok ((n, fetched w.kern path off), { w with kern := k₁.tock 1 }) ∧
    Second w.kern rfd k₁ := by
  let k := w.kern
  have hback : off - off % 16 = off / 16 * 16 := by omega
  -- reading through a descriptor that was not given
  have hfail : (k.tock 1).sysPread (-1) (off % 16) ((off - off % 16 : Nat) : Int)
      = ((-1, []), (k.tock 1).tock 1) := by
    have hnone : (k.tock 1).find (-1) = none := (k.tock 1).find_failed
    simp only [Kernel.sysPread, hnone]
  by_cases hfails : k.answer.fails = true
  · refine ⟨-1, k.tock 1, -1, linker_open_ok (by rw [Kernel.sysOpen, if_pos hfails]), ?_,
      second_failed k⟩
    rw [linker_pread_ok (w := { w with kern := k.tock 1 }) hfail, fetched, if_pos hfails]
  cases hname : k.files.names path with
  | none =>
      have hopen : k.sysOpen path { acc := .rdwr } = (-1, k.tock 1) := by
        simp only [Kernel.sysOpen, hfails, k.files.handle_none hname, Bool.false_eq_true, if_false]
      refine ⟨-1, k.tock 1, -1, linker_open_ok hopen, ?_, second_failed k⟩
      rw [linker_pread_ok (w := { w with kern := k.tock 1 }) hfail, fetched, if_neg hfails]
      simp only [show w.kern.files.names path = none from hname]
  | some j =>
      let k₁ := ((k.tock 1).install k.answer.hint j { acc := .rdwr } (k.files.names_lt _ _ hname)).2
      have hopen : k.sysOpen path { acc := .rdwr } = (k.freeFd k.answer.hint, k₁) := by
        simp only [Kernel.sysOpen, hfails, k.files.handle_some hname, Bool.and_self,
          Bool.false_eq_true, if_false]
        rfl
      have hf : k₁.find (k.freeFd k.answer.hint) = some k.nextDesc := Kernel.install_find_self
      have hd : k₁.desc k.nextDesc = { inode := j, pos := 0, flags := { acc := .rdwr } } :=
        Kernel.install_desc_self
      have hread : ∃ n, k₁.sysPread (k.freeFd k.answer.hint) (off % 16)
          ((off - off % 16 : Nat) : Int) = ((n, fetched k path off), k₁.tock 1) := by
        have hneg : ¬ ((off - off % 16 : Nat) : Int) < 0 := by omega
        have hreadable : AccMode.readable .rdwr = true := rfl
        rw [fetched, if_neg hfails]
        simp only [Kernel.sysPread, hf, hd, hname, hneg, hreadable, Bool.not_true, Bool.or_false,
          decide_false, Int.toNat_natCast]
        by_cases hbad : k₁.answer.fails = true
        · have hgiven : given (k.tock 1).answer (off % 16) = 0 := if_pos hbad
          rw [if_pos hbad, hgiven, slice_zero]
          exact ⟨-1, rfl⟩
        · have hgiven : given (k.tock 1).answer (off % 16) = k₁.answer.cut (off % 16) := if_neg hbad
          rw [if_neg hbad, hgiven, hback]
          exact ⟨_, rfl⟩
      obtain ⟨n, hread⟩ := hread
      exact ⟨_, k₁, n, linker_open_ok hopen, linker_pread_ok (w := { w with kern := k₁ }) hread,
        second_installed k _ _⟩

/-! ## The whole write -/

/-- The buffer that is encrypted starts with what was fetched, and zeros. -/
def front (r : List UInt8) (off : Nat) : List UInt8 := r ++ zeroed (off % 16 - r.length)

theorem front_length {r : List UInt8} {off : Nat} (h : r.length ≤ off % 16) :
    (front r off).length = off % 16 := by
  rw [front, List.length_append, zeroed_length]
  omega

/-- The buffer as it is written: the encrypted blocks of prefix and data. -/
def buffer (aes : AES) (r : List UInt8) (off : Nat) (b : List UInt8) : List UInt8 :=
  stored aes (front r off ++ b)

theorem buffer_length (aes : AES) {r : List UInt8} {off : Nat} (h : r.length ≤ off % 16)
    (b : List UInt8) : (buffer aes r off b).length = off % 16 + b.length := by
  rw [buffer, stored_length, List.length_append, front_length h]

/-- The bytes after the prefix has gone back, `q` of it. -/
def tornFront (aes : AES) (append : Bool) (D r : List UInt8) (off : Nat) (b : List UInt8)
    (q : Nat) : List UInt8 :=
  overlay 0 D (if append then D.length else off / 16 * 16) ((buffer aes r off b).take q)

/-- And after `c` bytes of the rest have followed. -/
def torn (aes : AES) (append : Bool) (D r : List UInt8) (off : Nat) (b : List UInt8)
    (q c : Nat) : List UInt8 :=
  let D₁ := tornFront aes append D r off b q
  overlay 0 D₁ (if append then D₁.length else off)
    (((buffer aes r off b).drop (off % 16)).take c)

/-- Where the cursor is then. -/
def tornPos (aes : AES) (append : Bool) (D r : List UInt8) (off : Nat) (b : List UInt8)
    (q c : Nat) : Nat :=
  if c = 0 then off
  else (if append then (tornFront aes append D r off b q).length else off) + c

/-- The two parts of the buffer. -/
theorem buffer_split (aes : AES) {r : List UInt8} {off : Nat} (h : r.length ≤ off % 16)
    (b : List UInt8) : (buffer aes r off b).take (off % 16)
      ++ ((buffer aes r off b).drop (off % 16)).take b.length = buffer aes r off b := by
  have hX : (buffer aes r off b).length = off % 16 + b.length := buffer_length aes h b
  rw [List.take_of_length_le (l := List.drop _ _) (by rw [List.length_drop, hX]; omega),
    List.take_append_drop]

/-- In place, prefix and rest are one overlay from the block boundary on. -/
theorem torn_in_place (aes : AES) (D : List UInt8) {r : List UInt8} {off : Nat}
    (hr : r.length ≤ off % 16) (b : List UInt8) :
    torn aes false D r off b (off % 16) b.length =
      overlay 0 D (off / 16 * 16) (buffer aes r off b) := by
  have hlen : ((buffer aes r off b).take (off % 16)).length = off % 16 := by
    rw [List.length_take, buffer_length aes hr b]
    omega
  have hjoin := overlay_overlay 0 D (off / 16 * 16) ((buffer aes r off b).take (off % 16))
    (((buffer aes r off b).drop (off % 16)).take b.length)
  rw [buffer_split aes hr b, hlen, Nat.div_add_mod' off 16] at hjoin
  exact hjoin

/-- When neither part is carried out, nothing changes. -/
theorem torn_none (aes : AES) (append : Bool) (D r : List UInt8) (off : Nat) (b : List UInt8) :
    torn aes append D r off b 0 0 = D := by
  rw [torn, tornFront, List.take_zero, List.take_zero, overlay_nil]
  exact overlay_nil 0 D _

/-- With `O_APPEND` prefix and rest land behind each other at the end of the file. -/
theorem torn_append (aes : AES) (D r : List UInt8) (off : Nat) (b : List UInt8) (q c : Nat) :
    torn aes true D r off b q c = D ++ ((buffer aes r off b).take q
      ++ ((buffer aes r off b).drop (off % 16)).take c) := by
  have hfront : tornFront aes true D r off b q = D ++ (buffer aes r off b).take q :=
    overlay_end 0 D _
  show overlay 0 (tornFront aes true D r off b q) (tornFront aes true D r off b q).length
    (((buffer aes r off b).drop (off % 16)).take c) = _
  rw [overlay_end, hfront, List.append_assoc]

theorem tornPos_append (aes : AES) (D : List UInt8) {r : List UInt8} {off : Nat}
    (hr : r.length ≤ off % 16) {b : List UInt8} (hb : b ≠ []) :
    tornPos aes true D r off b (off % 16) b.length = (D ++ buffer aes r off b).length := by
  have hX : (buffer aes r off b).length = off % 16 + b.length := buffer_length aes hr b
  have hne : b.length ≠ 0 := fun h => hb (List.length_eq_zero_iff.mp h)
  have hfront : tornFront aes true D r off b (off % 16)
      = D ++ (buffer aes r off b).take (off % 16) := overlay_end 0 D _
  rw [tornPos, if_neg hne, if_pos rfl, hfront, List.length_append, List.length_append,
    List.length_take, hX]
  omega

/-- At the end of a stored file: the prefix comes back over the pending bytes, and the rest
    behind them. -/
theorem torn_end (aes : AES) {H P r : List UInt8} {q : Nat}
    (hH : H.length = FILE_HEADER_POLL_SIZE) (hr : r.length ≤ P.length % 16)
    (hq : q ≤ P.length % 16) (b : List UInt8) (c : Nat) :
    let off := FILE_HEADER_POLL_SIZE + P.length
    let X := buffer aes r off b
    torn aes false (H ++ stored aes P) r off b q c = H ++ (stored aes (whole P) ++
      (X.take q ++ (pending P).drop q ++ (X.drop (P.length % 16)).take c)) := by
  intro off X
  have hH' : H.length = 4096 := hH
  have hmod : off % 16 = P.length % 16 := header_mod P.length
  have hback : off / 16 * 16 = (H ++ stored aes (whole P)).length + 0 := header_back aes hH P
  have hX : X.length = P.length % 16 + b.length := by
    rw [← hmod] at hr ⊢
    exact buffer_length aes hr b
  have hq' : (X.take q).length = q := by
    rw [List.length_take, hX]
    omega
  have hfront : tornFront aes false (H ++ stored aes P) r off b q
      = H ++ stored aes (whole P) ++ (X.take q ++ (pending P).drop q) := by
    show overlay 0 (H ++ stored aes P) (off / 16 * 16) (X.take q) = _
    rw [stored_pending, ← List.append_assoc, hback, overlay_append_left, overlay_start, hq']
  have hend : off = (tornFront aes false (H ++ stored aes P) r off b q).length := by
    rw [hfront, List.length_append, List.length_append, List.length_append, hq', List.length_drop,
      stored_length, whole_length, pending_length, hH']
    show 4096 + P.length = _
    omega
  show overlay 0 (tornFront aes false (H ++ stored aes P) r off b q) off
    ((X.drop (off % 16)).take c) = _
  conv => lhs; arg 3; rw [hend]
  rw [overlay_end, hfront, hmod, List.append_assoc, List.append_assoc, List.append_assoc]

section Parts

variable {w : World} {fd : Int} {id : Nat} (hf : w.kern.find fd = some id)
  (hreg : (w.kern.desc id).regular = true) (aes : AES) {r : List UInt8} {off : Nat}
  (hr : r.length ≤ off % 16) (b : List UInt8)
include hf hreg hr

/-- The prefix goes back. -/
private theorem pwrite_front :
    let i := (w.kern.desc id).inode
    let a := allowed (w.kern.desc id).flags.acc.writable w.kern.answer
    let D₁ := tornFront aes (w.kern.desc id).flags.append (w.kern.files.data i) r off b
      (given a (off % 16))
    linker_pwrite fd ((buffer aes r off b).take (off % 16)) ((off - off % 16 : Nat) : Int) w =
      .ok (reported a (off % 16), { w with kern := (w.kern.tock 1).setData i D₁ }) := by
  intro i a D₁
  have hback : off - off % 16 = off / 16 * 16 := by omega
  have hlen : ((buffer aes r off b).take (off % 16)).length = off % 16 := by
    rw [List.length_take, buffer_length aes hr]
    omega
  have hcut : ((buffer aes r off b).take (off % 16)).take (given a (off % 16))
      = (buffer aes r off b).take (given a (off % 16)) := by
    rw [List.take_take, Nat.min_eq_left (given_le _ _)]
  apply linker_pwrite_ok
  rw [sysPwrite_any hf hreg, hlen, hcut, Kernel.target, hback]
  rfl

/-- And the rest follows through the cursor. -/
private theorem write_rest (hpos : (w.kern.desc id).pos = off) {D₁ : List UInt8}
    (hdata : w.kern.files.data (w.kern.desc id).inode = D₁) :
    let a := allowed (w.kern.desc id).flags.acc.writable w.kern.answer
    let c := given a b.length
    let start := if (w.kern.desc id).flags.append then D₁.length else off
    let D₂ := overlay 0 D₁ start (((buffer aes r off b).drop (off % 16)).take c)
    let k' := (w.kern.tock 1).setData (w.kern.desc id).inode D₂
    linker_write fd ((buffer aes r off b).drop (off % 16)) w =
      .ok (reported a b.length,
        { w with kern := k'.setPos id (if c = 0 then off else start + c) }) := by
  intro a c start D₂ k'
  have hlen : ((buffer aes r off b).drop (off % 16)).length = b.length := by
    rw [List.length_drop, buffer_length aes hr]
    omega
  have htarget : w.kern.target (w.kern.desc id) off = start := by
    rw [Kernel.target, hdata]
  apply linker_write_ok
  rw [sysWrite_any hf hreg, hlen, hpos, htarget, hdata]

end Parts

section Write

variable (dev : Device) {env : Env} {w : World} {fd : Int} {id : Nat} {fi : FileInfo}
  (henv : env.Active) (hf : w.kern.find fd = some id) (hreg : (w.kern.desc id).regular = true)
include hf hreg

/-- From the table lookup on. -/
private theorem write_encrypted_torn
    (hq : w.file_info_list.find? (fun e => e.file_descriptor = fd) = some fi) (b : List UInt8) :
    let k := w.kern
    let off := (k.desc id).pos
    let r := fetched k fi.file_path off
    let a := allowed (k.desc id).flags.acc.writable
    let q := given (a (k.tock 2).answer) (off % 16)
    let c := given (a (k.tock 4).answer) b.length
    ∃ k', write_encrypted dev fd b off w =
        .ok (reported (a (k.tock 4).answer) b.length, { w with kern := k' }) ∧
      Wrote k k' id (torn dev.aes (k.desc id).flags.append
          (k.files.data (k.desc id).inode) r off b q c)
        (tornPos dev.aes (k.desc id).flags.append
          (k.files.data (k.desc id).inode) r off b q c) ∧ k'.tick = k.tick + 5 := by
  intro k off r a q c
  let i := (k.desc id).inode
  let D := k.files.data i
  let app := (k.desc id).flags.append
  let X := buffer dev.aes r off b
  have hidlt : id < k.nextDesc := k.find_lt hf
  have hr : r.length ≤ off % 16 := fetched_length _ _ _
  have htemp : encryptBlocks dev.aes ((b.length + off % 16) / 16)
      (memcpy (memcpy (zeroed (b.length + off % 16)) 0 r) (off % 16) b) = X := by
    rw [temp_eq hr]
    exact encrypt_temp _ (front_length hr)
  obtain ⟨rfd, k₁, n, hopen, hread, h2⟩ := second_run w fi.file_path off
  have hd₁ : k₁.desc id = k.desc id := h2.desc id hidlt
  have hans₁ : (k₁.tock 1).answer = (k.tock 2).answer := by
    rw [Kernel.answer, Kernel.answer]
    show k₁.host.answer (k₁.tick + 1) = k.host.answer (k.tick + 2)
    rw [h2.host, h2.tick]
  -- the prefix goes back
  let D₁ := tornFront dev.aes app D r off b q
  let k₂ := (k₁.tock 2).setData i D₁
  have hpwrite : linker_pwrite fd (X.take (off % 16)) ((off - off % 16 : Nat) : Int)
      { w with kern := k₁.tock 1 } = .ok (reported (a (k.tock 2).answer) (off % 16),
        { w with kern := k₂ }) := by
    have hd : (k₁.tock 1).desc id = k.desc id := hd₁
    have hfiles₁ : (k₁.tock 1).files = k.files := h2.files
    have h := pwrite_front (w := { w with kern := k₁.tock 1 }) (h2.find hf)
      (by rw [hd]; exact hreg) dev.aes hr b
    simp only [hd, hans₁, hfiles₁] at h
    exact h
  obtain ⟨rc, k₃, hclose, hfds₃, hfiles₃, hdesc₃, hhost₃, htick₃, hnext₃⟩ := h2.close k₂ rfl
  have hfiles : k₃.files = k.files.store i D₁ := by
    rw [hfiles₃]
    show k₁.files.store i D₁ = _
    rw [h2.files]
  have hd₃ : k₃.desc id = k.desc id := by
    rw [hdesc₃]
    exact hd₁
  have hans₃ : k₃.answer = (k.tock 4).answer := by
    rw [Kernel.answer, Kernel.answer, hhost₃, htick₃]
    show k₁.host.answer (k₁.tick + 2 + 1) = k.host.answer (k.tick + 4)
    rw [h2.host, h2.tick]
  -- and the rest through the cursor
  let D₂ := torn dev.aes app D r off b q c
  let pos := tornPos dev.aes app D r off b q c
  let k₄ := ((k₃.tock 1).setData i D₂).setPos id pos
  have hwrite : linker_write fd (X.drop (off % 16)) { w with kern := k₃ } =
      .ok (reported (a (k.tock 4).answer) b.length, { w with kern := k₄ }) := by
    have hf₃ : k₃.find fd = some id := by
      rw [Kernel.find, hfds₃]
      exact hf
    have hdata : k₃.files.data (k₃.desc id).inode = D₁ := by
      rw [hfiles, hd₃]
      exact FileStore.store_data_self ..
    have h := write_rest (w := { w with kern := k₃ }) hf₃ (by rw [hd₃]; exact hreg) dev.aes hr b
      (congrArg Desc.pos hd₃) hdata
    simp only [hd₃, hans₃] at h
    exact h
  refine ⟨k₄, ?_, ⟨?_, ?_, ?_, ?_, ?_⟩, ?_⟩
  · rw [write_encrypted, bind_ok (query_ok fd w), hq]
    simp only
    rw [bind_ok hopen, if_neg (by omega)]
    simp only [Int.toNat_natCast]
    rw [bind_ok hread]
    simp only
    rw [htemp, bind_ok hpwrite, bind_ok (linker_close_ok (w := { w with kern := k₂ }) hclose),
      hwrite]
  · show (k₃.files.store i D₂) = k.files.store i D₂
    rw [hfiles, FileStore.store_store]
  · exact hfds₃
  · show k₃.host = k.host
    rw [hhost₃]
    exact h2.host
  · intro id' hid'
    have hk₃ : k₃.desc id' = k.desc id' := by
      rw [hdesc₃]
      exact h2.desc id' hid'
    by_cases h : id' = id
    · rw [h, Kernel.setPos_desc_self, Kernel.setPos_desc_self]
      exact congrArg (fun d : Desc => { d with pos := pos }) hd₃
    · rw [Kernel.setPos_desc_ne _ h, Kernel.setPos_desc_ne _ h]
      exact hk₃
  · show k.nextDesc ≤ k₃.nextDesc
    rw [hnext₃]
    exact h2.nextDesc
  · show k₃.tick + 1 = k.tick + 5
    rw [htick₃]
    show k₁.tick + 2 + 1 + 1 = _
    rw [h2.tick]

include henv

/-- **One write under any host.**  What was fetched comes before the data, `q` bytes of the
    encrypted prefix go back and `c` of the rest follow; the result is that of the last
    call alone. -/
theorem write_any (hq : w.file_info_list.find? (fun e => e.file_descriptor = fd) = some fi)
    (hseek : w.kern.answer.fails = false) (hmem : (w.kern.tock 1).answer.fails = false)
    {b : List UInt8} (hb : b ≠ []) :
    let k := w.kern
    let off := (k.desc id).pos
    let r := fetched (k.tock 2) fi.file_path off
    let a := allowed (k.desc id).flags.acc.writable
    let q := given (a (k.tock 4).answer) (off % 16)
    let c := given (a (k.tock 6).answer) b.length
    ∃ k', write dev env fd b w =
        .ok (reported (a (k.tock 6).answer) b.length, { w with kern := k' }) ∧
      Wrote k k' id (torn dev.aes (k.desc id).flags.append
          (k.files.data (k.desc id).inode) r off b q c)
        (tornPos dev.aes (k.desc id).flags.append
          (k.files.data (k.desc id).inode) r off b q c) ∧ k'.tick = k.tick + 7 := by
  intro k off r a q c
  have hlseek : linker_lseek fd 0 .cur w = .ok ((off : Int), { w with kern := k.tock 1 }) :=
    linker_lseek_ok (Kernel.sysLseek_told hseek hf hreg)
  have hcalloc : calloc { w with kern := k.tock 1 } = .ok (true, { w with kern := k.tock 2 }) :=
    calloc_ok hmem
  obtain ⟨k', hrun, hwrote, htick⟩ := write_encrypted_torn dev
    (w := { w with kern := k.tock 2 }) hf hreg hq b
  refine ⟨k', ?_, ⟨?_⟩, htick⟩
  · rw [write, hooked_active henv, if_pos (List.length_pos_iff.mpr hb), bind_ok hlseek,
      bind_ok hcalloc, if_pos rfl]
    exact hrun
  · -- the clock is not part of what `Quiet` compares
    obtain ⟨h1, h2, h3, h4, h5⟩ := hwrote.quiet
    exact ⟨h1, h2, h3, h4, h5⟩

/-- Without a failing or short call. -/
theorem write_whole (hc : w.kern.host.Calm) (hacc : (w.kern.desc id).flags.acc.writable = true)
    (hq : w.file_info_list.find? (fun e => e.file_descriptor = fd) = some fi)
    {b : List UInt8} (hb : b ≠ []) :
    let k := w.kern
    let off := (k.desc id).pos
    let r := fetched (k.tock 2) fi.file_path off
    ∃ k', write dev env fd b w = .ok ((b.length : Int), { w with kern := k' }) ∧
      Wrote k k' id (torn dev.aes (k.desc id).flags.append
          (k.files.data (k.desc id).inode) r off b (off % 16) b.length)
        (tornPos dev.aes (k.desc id).flags.append
          (k.files.data (k.desc id).inode) r off b (off % 16) b.length) := by
  intro k off r
  obtain ⟨k', hrun, hwrote, -⟩ := write_any dev henv hf hreg hq (hc _).1 (hc _).1 hb
  have hlast : (k.tock 6).answer = k.host.answer (k.tick + 6) := rfl
  have hback : (k.tock 4).answer = k.host.answer (k.tick + 4) := rfl
  rw [hacc, allowed_true, hlast, reported_calm hc] at hrun
  rw [hacc, allowed_true, allowed_true, hlast, hback, given_calm hc, given_calm hc] at hwrote
  exact ⟨k', hrun, hwrote⟩

end Write

end TeTorn
