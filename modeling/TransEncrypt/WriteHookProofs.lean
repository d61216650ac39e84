import TransEncrypt.DetectorProofs
import TransEncrypt.StoredProofs

/-! # The hooked write — encrypting on the way out

    `write` finds the path of the descriptor in the table, reads the stored bytes
    before the cursor through a second descriptor, encrypts them together with the
    new data, writes the front part back with `pwrite` and the rest through the
    cursor.

    * `write_encrypted`, `write`: the program;
    * `temp_eq`, `encrypt_temp`: the buffer that it encrypts and writes;
    * `Wrote`: what a write that returned has done to the kernel. -/

namespace TeWrite

open Posix Overlay Blockwise TeHeader Hoare TeProgram TeStored

/-! ## The hook -/

/-- The part of `write` from the table lookup on: `offset` is the cursor.  The index of the
    encryption loop is an `int`: a call moves less than 2^31 bytes, so there are at most 2^27
    blocks and the product with 16 is the one of unbounded arithmetic. -/
def write_encrypted (dev : Device) (fd : Int) (buf : List UInt8) (offset : Int) :
    Sys Int := do
  match (← file_info_list_query_by_fd fd) with
  | none => undefinedBehaviour     -- the path of a null pointer
  | some fi => do
    let rfd ← linker_open fi.file_path { acc := .rdwr }
    if offset < 0 then undefinedBehaviour     -- the buffer is written before its start
    else do
      let off := offset.toNat
      let rc1 ← linker_pread rfd (off % 16) (off - off % 16 : Nat)
      let temp := memcpy (memcpy (zeroed (buf.length + off % 16)) 0 rc1.2) (off % 16) buf
      let temp := encryptBlocks dev.aes ((buf.length + off % 16) / 16) temp
      let _ ← linker_pwrite fd (temp.take (off % 16)) (off - off % 16 : Nat)
      let _ ← linker_close rfd
      linker_write fd (temp.drop (off % 16))

/-- `write`, with the bytes to write for the buffer and its count. -/
def write (dev : Device) (env : Env) (fd : Int) (buf : List UInt8) : Sys Int :=
  hooked env (-1) (linker_write fd buf) do
    if buf.length > 0 then do
      let offset ← linker_lseek fd 0 .cur
      if (← calloc) then write_encrypted dev fd buf offset
      else pure (-1)
    else linker_write fd buf

/-- Writes of the given buffers, one after the other. -/
def write_all (dev : Device) (env : Env) (fd : Int) : List (List UInt8) → Sys (List Int)
  | [] => pure []
  | b :: bs => do
      let r ← write dev env fd b
      let rs ← write_all dev env fd bs
      pure (r :: rs)

/-! ## What it leaves -/

/-- The buffer that is encrypted: the bytes read before the cursor, zeros where
    fewer arrived, and the new data. -/
theorem temp_eq {r b : List UInt8} {t : Nat} (h : r.length ≤ t) :
    memcpy (memcpy (zeroed (b.length + t)) 0 r) t b = r ++ zeroed (t - r.length) ++ b := by
  have hpre : (r ++ zeroed (t - r.length)).length = t := by
    rw [List.length_append, zeroed_length]
    omega
  have hzero : zeroed (b.length + t - r.length)
      = zeroed (t - r.length) ++ zeroed b.length := by
    rw [zeroed, zeroed, zeroed, List.replicate_append_replicate]
    congr 1
    omega
  rw [memcpy_zeroed (by omega), hzero, ← List.append_assoc]
  have hnext := memcpy_next (a := r ++ zeroed (t - r.length)) (b := b) (n := b.length)
    (Nat.le_refl _)
  rw [hpre, Nat.sub_self] at hnext
  rw [hnext]
  exact List.append_nil _

/-- Encrypting the blocks of prefix and data is storing them. -/
theorem encrypt_temp (aes : AES) {pre b : List UInt8} {t : Nat} (h : pre.length = t) :
    encryptBlocks aes ((b.length + t) / 16) (pre ++ b) = stored aes (pre ++ b) := by
  rw [stored_eq, List.length_append, h, Nat.add_comm]

/-- `k'` is `k` after bytes `D` have been stored in the file of description `id` and
    its cursor moved to `pos`; nothing else has happened to it. -/
structure Wrote (k k' : Kernel) (id : Nat) (D : List UInt8) (pos : Nat) : Prop where
  quiet : Kernel.Quiet ((k.setData (k.desc id).inode D).setPos id pos) k'

namespace Wrote

variable {k k' : Kernel} {id : Nat} {D : List UInt8} {pos : Nat}
  (h : Wrote k k' id D pos)
include h

theorem files : k'.files = k.files.store (k.desc id).inode D := h.quiet.files

theorem host : k'.host = k.host := h.quiet.host

theorem find (fd : Int) : k'.find fd = k.find fd := h.quiet.find fd

theorem inUse {fd : Int} : k'.InUse fd ↔ k.InUse fd := h.quiet.inUse

theorem desc_self (hid : id < k.nextDesc) :
    k'.desc id = { k.desc id with pos := pos } := by
  rw [h.quiet.desc id hid]
  exact Kernel.setPos_desc_self _ id pos

end Wrote

/-! ## Descriptors without an entry -/

section Untracked

variable {dev : Device} {env : Env} {w : World} {fd : Int} (henv : env.Active)
include henv

omit henv in
/-- Asking for the position changes nothing. -/
theorem linker_lseek_tell (w : World) (fd : Int) : linker_lseek fd 0 .cur w =
    .ok ((w.kern.sysLseek fd 0 .cur).1, { w with kern := w.kern.tock 1 }) :=
  kernelCall_ok (Prod.ext rfl (w.kern.sysLseek_tell fd))

/-- Without memory for the buffer nothing is written. -/
theorem write_no_buffer (hmem : (w.kern.tock 1).answer.fails = true) {b : List UInt8}
    (hb : b ≠ []) : write dev env fd b w = .ok (-1, { w with kern := w.kern.tock 2 }) := by
  have hcalloc : calloc { w with kern := w.kern.tock 1 } =
      .ok (false, { w with kern := w.kern.tock 2 }) := calloc_fails hmem
  rw [write, hooked_active henv, if_pos (List.length_pos_iff.mpr hb),
    bind_ok (linker_lseek_tell w fd), bind_ok hcalloc,
    if_neg (by decide)]
  rfl

/-- A hooked write on a descriptor without an entry reads the path of a null pointer. -/
theorem write_untracked
    (hq : w.file_info_list.find? (fun e => e.file_descriptor = fd) = none)
    (hmem : (w.kern.tock 1).answer.fails = false) {b : List UInt8} (hb : b ≠ []) :
    write dev env fd b w = .error .undefined := by
  have hcalloc : calloc { w with kern := w.kern.tock 1 } =
      .ok (true, { w with kern := w.kern.tock 2 }) := calloc_ok hmem
  rw [write, hooked_active henv, if_pos (List.length_pos_iff.mpr hb),
    bind_ok (linker_lseek_tell w fd), bind_ok hcalloc,
    if_pos rfl, write_encrypted, bind_ok (query_ok fd _)]
  simp only [hq]
  rfl

end Untracked

/-- The hooked write returns what the real one returns, and leaves the state that it
    leaves; only the number of calls that the host has answered may differ. -/
def PassesWrite (dev : Device) (env : Env) (fd : Int) (b : List UInt8) (w : World) : Prop :=
  ∃ t, write dev env fd b w = .ok ((w.kern.sysWrite fd b).1,
    { w with kern := { (w.kern.sysWrite fd b).2 with tick := t } })

/-- **Writes without an entry.**  On an open descriptor without an entry the hooked write
    is the real one exactly when there is nothing to write, or when there is no memory for
    the buffer and the real write would have failed as well. -/
theorem write_passes_iff {dev : Device} {env : Env} {w : World} {fd : Int} {id : Nat}
    (henv : env.Active) (hf : w.kern.find fd = some id) (hnew : ¬ w.Tracked fd)
    (b : List UInt8) :
    PassesWrite dev env fd b w ↔ b = [] ∨
      (w.kern.tock 1).answer.fails = true ∧
        (w.kern.answer.fails = true ∨ (w.kern.desc id).flags.acc.writable = false) := by
  have hq : w.file_info_list.find? (fun e => e.file_descriptor = fd) = none := by
    rw [← Option.not_isSome_iff_eq_none]
    exact fun hs => hnew (query_isSome_iff.mp hs)
  by_cases hb : b = []
  · -- the call is passed on
    refine ⟨fun _ => .inl hb, fun _ => ⟨(w.kern.sysWrite fd b).2.tick, ?_⟩⟩
    rw [write, hooked_active henv, hb, if_neg (by decide)]
    rfl
  by_cases hmem : (w.kern.tock 1).answer.fails = true
  · -- no buffer: the hook fails
    have hrun := @write_no_buffer dev env w fd henv hmem b hb
    rw [← w.kern.sysWrite_failed hf b]
    constructor
    · rintro ⟨t, hsame⟩
      have hr := (Prod.mk.inj (Except.ok.inj (hrun.symm.trans hsame))).1
      exact .inr ⟨hmem, hr.symm⟩
    · intro h
      obtain ⟨-, hfail⟩ := h.resolve_left hb
      refine ⟨w.kern.tick + 2, ?_⟩
      rw [hrun, hfail, w.kern.sysWrite_refused hfail]
      rfl
  · -- the null pointer
    have hrun := @write_untracked dev env w fd henv hq (by simpa using hmem) b hb
    constructor
    · rintro ⟨t, hsame⟩
      cases hrun.symm.trans hsame
    · intro h
      exact absurd (h.resolve_left hb).1 hmem

/-- A process with a terminal as descriptor 0, and an empty table. -/
def withTerminal : World := ⟨Kernel.oneDescriptor [] { acc := .rdonly } 0, []⟩

theorem withTerminal_untracked : ¬ withTerminal.Tracked 0 := by
  rintro ⟨_, he, -⟩
  cases he

theorem write_passes_nothing : PassesWrite aDevice activeEnv 0 [] withTerminal :=
  (@write_passes_iff aDevice activeEnv withTerminal 0 0 ⟨rfl, rfl, rfl⟩ rfl withTerminal_untracked
    []).mpr (.inl rfl)

/-- One byte for the terminal. -/
theorem write_terminal_undefined : withTerminal.kern.host.Calm ∧
    (withTerminal.kern.sysWrite 0 [7]).1 = 1 ∧
    write aDevice activeEnv 0 [7] withTerminal = .error .undefined ∧
    ¬ PassesWrite aDevice activeEnv 0 [7] withTerminal := by
  have hrun : write aDevice activeEnv 0 [7] withTerminal = .error .undefined :=
    write_untracked ⟨rfl, rfl, rfl⟩ rfl rfl (List.cons_ne_nil _ _)
  refine ⟨fun _ => ⟨rfl, rfl, rfl⟩, by decide, hrun, ?_⟩
  rintro ⟨t, hsame⟩
  cases hrun.symm.trans hsame

end TeWrite
