import TransEncrypt.MmapProofs
import TransEncrypt.HeaderRunProofs

/-! # Mapping a file — what the call stores in it

    The hook decrypts inside the mapping that it got.  A private mapping is a copy; what is
    stored in a shared one goes to the file.

    * `mmap_upto`: the call with its loop cut after some turns, for a process that does not
      live to the end of it;
    * `Harmless`: nothing that the loop stores changes the file behind the mapping;
    * `mmap_leaves_files`: exactly then the call leaves the files alone, and so do all the
      calls of a sequence. -/

namespace TeShared

open Posix Overlay Blockwise TeHeader TeStored Hoare TeProgram TeDetector TeWorker TeMmap

/-! ## The call, turn by turn -/

structure Call where
  length : Nat
  prot : Prot
  flags : MapType
  fd : Int
  offset : Int
  deriving DecidableEq, Repr

/-- The arguments of one call, handed to the hook. -/
def Call.mmap (dev : Device) (env : Env) (c : Call) : Sys (Option View) :=
  TeMmap.mmap dev env c.length c.prot c.flags c.fd c.offset

/-- The hook, with at most `turns` turns of its loop. -/
def mmap_upto (dev : Device) (env : Env) (turns : Nat) (c : Call) : Sys (Option View) :=
  hooked env none (linker_mmap c.length c.prot c.flags c.fd c.offset) do
    if (← passes_through c.fd) then linker_mmap c.length c.prot c.flags c.fd c.offset
    else if c.prot.read then do
      let state ← linker_fstat c.fd
      let st_size := (state.map Stat.st_size).getD 0
      let len := toInt (st_size - (FILE_HEADER_POLL_SIZE : Nat))
      match (← linker_mmap (toSize len) { c.prot with exec := true, write := true } c.flags c.fd
        (c.offset + (FILE_HEADER_POLL_SIZE : Nat))) with
      | some result => do
          let result ← decrypt_view dev.aes 0 (min turns (len / 16).toNat) result
          pure (some result)
      | none => linker_mmap c.length c.prot c.flags c.fd c.offset
    else linker_mmap c.length c.prot c.flags c.fd c.offset

theorem min_blocks {turns : Nat} (h : 2 ^ 31 ≤ turns) (x : Int) :
    min turns (toInt x / 16).toNat = (toInt x / 16).toNat := by
  have hhigh := (toInt_bounds x).2
  generalize toInt x = len at hhigh ⊢
  omega

/-- With enough turns it is the whole call. -/
theorem mmap_upto_all (dev : Device) (env : Env) {turns : Nat} (h : 2 ^ 31 ≤ turns) (c : Call) :
    mmap_upto dev env turns c = c.mmap dev env := by
  conv_lhs => simp only [mmap_upto, min_blocks h]
  rfl

/-- Calls one after the other. -/
def mmap_all (dev : Device) (env : Env) : List Call → Sys (List (Option View))
  | [] => pure []
  | c :: cs => do
      let v ← c.mmap dev env
      let vs ← mmap_all dev env cs
      pure (v :: vs)

/-! ## One store -/

/-- What a store into a mapping does to the file behind it. -/
def putBack (back : Option (Nat × Nat)) (off : Nat) (bs : List UInt8) (w : World) : World :=
  match back with
  | none => w
  | some (i, at₀) =>
      let D := w.kern.files.data i
      { w with kern := w.kern.setData i ((overlay 0 D (at₀ + off) bs).take D.length) }

/-- Storing these bytes in a mapping leaves the file behind it as it is. -/
def KeepsFile (fs : FileStore) (back : Option (Nat × Nat)) (off : Nat) (bs : List UInt8) : Prop :=
  match back with
  | none => True
  | some (i, at₀) =>
      (overlay 0 (fs.data i) (at₀ + off) bs).take (fs.data i).length = fs.data i

/-- Byte by byte: what lies in the file is what is there. -/
theorem keepsFile_iff {fs : FileStore} {i at₀ off : Nat} {bs : List UInt8} (hbs : bs ≠ []) :
    KeepsFile fs (some (i, at₀)) off bs ↔ ∀ k, k < bs.length → at₀ + off + k < (fs.data i).length →
      bs[k]? = (fs.data i)[at₀ + off + k]? := by
  have hget : ∀ j, ((overlay 0 (fs.data i) (at₀ + off) bs).take (fs.data i).length)[j]? =
      if j < (fs.data i).length then
        if at₀ + off ≤ j ∧ j < at₀ + off + bs.length then bs[j - (at₀ + off)]?
        else (fs.data i)[j]?
      else none := by
    intro j
    rw [List.getElem?_take]
    split
    · rename_i hj
      rw [overlay_get hbs]
      grind
    · rfl
  show _ = fs.data i ↔ _
  constructor
  · intro h k hk hin
    have hj := hget (at₀ + off + k)
    rw [h, if_pos hin, if_pos ⟨by omega, by omega⟩, Nat.add_sub_cancel_left] at hj
    exact hj.symm
  · intro h
    apply List.ext_getElem?
    intro j
    rw [hget j]
    split
    · rename_i hj
      split
      · rename_i hin
        have hk := h (j - (at₀ + off)) (by omega) (by omega)
        rw [hk]
        congr 1
        omega
      · rfl
    · rename_i hj
      rw [List.getElem?_eq_none (by omega)]

theorem putBack_keeps {back : Option (Nat × Nat)} {off : Nat} {bs : List UInt8} {w : World}
    (h : KeepsFile w.kern.files back off bs) : putBack back off bs w = w := by
  cases back with
  | none => rfl
  | some b =>
      obtain ⟨i, at₀⟩ := b
      have h' : (overlay 0 (w.kern.files.data i) (at₀ + off) bs).take
        (w.kern.files.data i).length = w.kern.files.data i := h
      show ({ w with kern := w.kern.setData i _ } : World) = w
      rw [h', TeTorn.setData_same]

theorem putBack_data (i at₀ off : Nat) (bs : List UInt8) (w : World) :
    (putBack (some (i, at₀)) off bs w).kern.files.data i =
      (overlay 0 (w.kern.files.data i) (at₀ + off) bs).take (w.kern.files.data i).length :=
  FileStore.store_data_self ..

theorem putBack_changes {back : Option (Nat × Nat)} {off : Nat} {bs : List UInt8} {w : World}
    (h : ¬ KeepsFile w.kern.files back off bs) :
    (putBack back off bs w).kern.files ≠ w.kern.files := by
  cases back with
  | none => exact absurd trivial h
  | some b =>
      obtain ⟨i, at₀⟩ := b
      intro heq
      have hdata := congrArg (fun fs : FileStore => fs.data i) heq
      exact h ((putBack_data i at₀ off bs w).symm.trans hdata)

/-! ## The loop -/

section Loop

variable (aes : AES) {w : World}

/-- A turn of the loop behind the bytes `A`, over any mapping. -/
theorem decrypt_block_at {A B : List UInt8} {i : Nat} (back : Option (Nat × Nat))
    (hA : A.length = i * 16) (hB : 16 ≤ B.length) :
    decrypt_block aes i ⟨A ++ B, back⟩ w =
      .ok (⟨(A ++ aes_decrypt_128bit aes (B.take 16)) ++ B.drop 16, back⟩,
        putBack back (i * 16) (aes_decrypt_128bit aes (B.take 16)) w) := by
  obtain ⟨hstore, hover⟩ := decrypt_block_next aes back hA hB
  rw [hstore, View.store, hover]
  cases back with
  | none => rfl
  | some b => rfl

theorem block_drop (B : List UInt8) (j : Nat) : block (B.drop 16) j = block B (j + 1) := by
  rw [block, block, slice, slice, List.drop_drop]
  congr 2
  omega

theorem block_zero (B : List UInt8) : block B 0 = B.take 16 := by
  rw [block, slice, Nat.zero_mul, List.drop_zero]

/-- **The loop over blocks that keep the file** leaves everything alone. -/
theorem decrypt_view_keeps : ∀ (n i : Nat) (A B : List UInt8) (back : Option (Nat × Nat))
    {v : View} {w' : World}, A.length = i * 16 →
    (∀ j, j < n → j * 16 + 16 ≤ B.length →
      KeepsFile w.kern.files back ((i + j) * 16) (aes_decrypt_128bit aes (block B j))) →
    decrypt_view aes i n ⟨A ++ B, back⟩ w = .ok (v, w') → w' = w := by
  intro n
  induction n with
  | zero =>
      intro i A B back v w' _ _ hrun
      exact (pure_inv hrun).2
  | succ n ih =>
      intro i A B back v w' hA hkeep hrun
      by_cases hB : 16 ≤ B.length
      · have hlen : (aes_decrypt_128bit aes (B.take 16)).length = 16 :=
          aes_decrypt_length aes (by rw [List.length_take]; omega)
        have hfirst := hkeep 0 (Nat.succ_pos n) (by omega)
        rw [block_zero, Nat.add_zero] at hfirst
        rw [decrypt_view, bind_ok (decrypt_block_at aes back hA hB), putBack_keeps hfirst] at hrun
        refine ih (i + 1) _ _ back (by rw [List.length_append]; omega) ?_ hrun
        intro j hj hin
        rw [List.length_drop] at hin
        rw [block_drop, Nat.add_assoc, Nat.add_comm 1 j]
        exact hkeep (j + 1) (by omega) (by omega)
      · -- the process is killed here
        rw [decrypt_view] at hrun
        have hstop : decrypt_block aes i ⟨A ++ B, back⟩ w = .error .undefined := by
          rw [decrypt_block, if_neg (by rw [List.length_append]; omega)]
          rfl
        rw [bind_error hstop] at hrun
        cases hrun

/-- The first block that does not keep the file changes it. -/
theorem decrypt_view_changes : ∀ (j i : Nat) (A B : List UInt8) (back : Option (Nat × Nat)),
    A.length = i * 16 → j * 16 + 16 ≤ B.length →
    (∀ j', j' < j →
      KeepsFile w.kern.files back ((i + j') * 16) (aes_decrypt_128bit aes (block B j'))) →
    ¬ KeepsFile w.kern.files back ((i + j) * 16) (aes_decrypt_128bit aes (block B j)) →
    ∃ v w', decrypt_view aes i (j + 1) ⟨A ++ B, back⟩ w = .ok (v, w') ∧
      w'.kern.files ≠ w.kern.files := by
  intro j
  induction j with
  | zero =>
      intro i A B back hA hB _ hbad
      rw [block_zero, Nat.add_zero] at hbad
      refine ⟨⟨A ++ aes_decrypt_128bit aes (B.take 16) ++ B.drop 16, back⟩,
        putBack back (i * 16) (aes_decrypt_128bit aes (B.take 16)) w, ?_, putBack_changes hbad⟩
      rw [decrypt_view, bind_ok (decrypt_block_at aes back hA (by omega))]
      rfl
  | succ j ih =>
      intro i A B back hA hB hkeep hbad
      have hlen : (aes_decrypt_128bit aes (B.take 16)).length = 16 :=
        aes_decrypt_length aes (by rw [List.length_take]; omega)
      have hfirst := hkeep 0 (Nat.succ_pos j)
      rw [block_zero, Nat.add_zero] at hfirst
      have hshift : ∀ j', i + 1 + j' = i + (j' + 1) := by
        intro j'
        omega
      obtain ⟨v, w', hrun, hfiles⟩ := ih (i + 1) (A ++ aes_decrypt_128bit aes (B.take 16))
        (B.drop 16) back (by rw [List.length_append]; omega) (by rw [List.length_drop]; omega)
        (fun j' hj' => by rw [block_drop, hshift]; exact hkeep (j' + 1) (by omega))
        (by rw [block_drop, hshift]; exact hbad)
      refine ⟨v, w', ?_, hfiles⟩
      rw [decrypt_view, bind_ok (decrypt_block_at aes back hA (by omega)), putBack_keeps hfirst]
      exact hrun

end Loop

/-! ## The whole call -/

theorem sysMmap_snd (k : Kernel) (length : Nat) (prot : Prot) (flags : MapType)
    (fd offset : Int) : (sysMmap k length prot flags fd offset).2 = k.tock 1 := by
  unfold sysMmap
  split
  · rfl
  · dsimp only
    split
    · rfl
    · rfl

theorem sysFstat_snd (k : Kernel) (fd : Int) : (k.sysFstat fd).2 = k.tock 1 := by
  unfold Kernel.sysFstat
  split
  · rfl
  · dsimp only
    split
    · rfl
    · rfl

/-- The length that the hook maps, from the size that it is told after its test. -/
def lengthTold (c : Call) (w₁ : World) : Int :=
  toInt (((w₁.kern.sysFstat c.fd).1.map Stat.st_size).getD 0 - (FILE_HEADER_POLL_SIZE : Nat))

/-- The mapping that it makes to decrypt it. -/
def firstMapping (c : Call) (w₁ : World) : Option View :=
  (sysMmap (w₁.kern.tock 1) (toSize (lengthTold c w₁)) { c.prot with exec := true, write := true }
    c.flags c.fd (c.offset + (FILE_HEADER_POLL_SIZE : Nat))).1

/-- A call is harmless when every block that it decrypts and can touch keeps the file. -/
def Harmless (dev : Device) (c : Call) (w : World) : Prop :=
  c.prot.read = true → ∀ w₁ v, passes_through c.fd w = .ok (false, w₁) →
    firstMapping c w₁ = some v → ∀ j, j < (lengthTold c w₁ / 16).toNat →
    j * 16 + 16 ≤ v.bytes.length →
    KeepsFile w.kern.files v.back (j * 16) (aes_decrypt_128bit dev.aes (block v.bytes j))

/-- However far the call gets, the files are as they were. -/
def Leaves (dev : Device) (env : Env) (c : Call) (w : World) : Prop :=
  ∀ turns v w', mmap_upto dev env turns c w = .ok (v, w') → w'.kern.files = w.kern.files

theorem still_mmap (length : Nat) (prot : Prot) (flags : MapType) (fd offset : Int) :
    Stays Still (linker_mmap length prot flags fd offset) := by
  refine Still.call fun k => ?_
  rw [sysMmap_snd]
  exact ⟨rfl, rfl⟩

section Call

variable {dev : Device} {env : Env} {c : Call} {w w₁ : World} (henv : env.Active)
include henv

/-- A call that decrypts, up to its loop. -/
theorem mmap_upto_run (turns : Nat) (hpass : passes_through c.fd w = .ok (false, w₁))
    (hread : c.prot.read = true) :
    mmap_upto dev env turns c w =
      (match firstMapping c w₁ with
        | some v => do
            let r ← decrypt_view dev.aes 0 (min turns (lengthTold c w₁ / 16).toNat) v
            pure (some r)
        | none => linker_mmap c.length c.prot c.flags c.fd c.offset : Sys (Option View))
      { w₁ with kern := w₁.kern.tock 2 } := by
  have hstat : linker_fstat c.fd w₁ =
      .ok ((w₁.kern.sysFstat c.fd).1, { w₁ with kern := w₁.kern.tock 1 }) :=
    kernelCall_ok (Prod.ext rfl (sysFstat_snd _ _))
  have hmap : linker_mmap (toSize (lengthTold c w₁)) { c.prot with exec := true, write := true }
      c.flags c.fd (c.offset + (FILE_HEADER_POLL_SIZE : Nat)) { w₁ with kern := w₁.kern.tock 1 } =
      .ok (firstMapping c w₁, { w₁ with kern := w₁.kern.tock 2 }) :=
    kernelCall_ok (Prod.ext rfl (sysMmap_snd _ _ _ _ _ _))
  rw [mmap_upto, hooked_active henv, bind_ok hpass, if_neg (by decide), if_pos hread, bind_ok hstat]
  dsimp only
  exact bind_ok hmap

/-- A harmless call leaves the files, however far it gets. -/
theorem leaves_of_harmless (h : Harmless dev c w) : Leaves dev env c w := by
  intro turns v w' hrun
  have hraw := still_mmap c.length c.prot c.flags c.fd c.offset
  obtain ⟨b, w₁, hpass, -⟩ : ∃ b w₁, passes_through c.fd w = .ok (b, w₁) ∧ True := by
    rw [mmap_upto, hooked_active henv] at hrun
    obtain ⟨b, w₁, h1, -⟩ := bind_inv hrun
    exact ⟨b, w₁, h1, trivial⟩
  have hsame : w₁.kern.files = w.kern.files := (TeHeaderRun.still_passes_through c.fd hpass).1
  by_cases hdec : b = false ∧ c.prot.read = true
  · obtain ⟨rfl, hread⟩ := hdec
    rw [mmap_upto_run henv turns hpass hread] at hrun
    cases hfirst : firstMapping c w₁ with
    | none =>
        rw [hfirst] at hrun
        exact (hraw hrun).1.trans hsame
    | some view =>
        rw [hfirst] at hrun
        obtain ⟨r, w₂, hloop, hret⟩ := bind_inv hrun
        obtain ⟨-, rfl⟩ := pure_inv hret
        have hkeep := decrypt_view_keeps dev.aes (w := { w₁ with kern := w₁.kern.tock 2 })
          (min turns (lengthTold c w₁ / 16).toNat) 0 [] view.bytes view.back
          (Nat.zero_mul 16).symm (by
            intro j hj hin
            rw [Nat.zero_add]
            show KeepsFile w₁.kern.files _ _ _
            rw [hsame]
            exact h hread w₁ view hpass hfirst j (by omega) hin) hloop
        rw [hkeep]
        exact hsame
  · -- the call is handed on
    rw [mmap_upto, hooked_active henv, bind_ok hpass] at hrun
    cases b with
    | true =>
        rw [if_pos rfl] at hrun
        exact (hraw hrun).1.trans hsame
    | false =>
        rw [if_neg (by decide), if_neg (fun hread => hdec ⟨rfl, hread⟩)] at hrun
        exact (hraw hrun).1.trans hsame

/-- One that is not changes a file, if it gets as far as the block that does. -/
theorem harmless_of_leaves (h : Leaves dev env c w) : Harmless dev c w := by
  intro hread w₁ v hpass hfirst
  have hsame : w₁.kern.files = w.kern.files := (TeHeaderRun.still_passes_through c.fd hpass).1
  -- the blocks in front keep the file
  intro j
  induction j using Nat.strongRecOn with
  | ind j ih =>
      intro hj hin
      by_contra hbad
      obtain ⟨r, w', hloop, hfiles⟩ := decrypt_view_changes dev.aes
        (w := { w₁ with kern := w₁.kern.tock 2 }) j 0 [] v.bytes v.back (Nat.zero_mul 16).symm hin
        (by
          intro j' hj'
          rw [Nat.zero_add]
          show KeepsFile w₁.kern.files _ _ _
          rw [hsame]
          exact ih j' hj' (by omega) (by omega))
        (by
          rw [Nat.zero_add]
          show ¬ KeepsFile w₁.kern.files _ _ _
          rw [hsame]
          exact hbad)
      have hrun := @mmap_upto_run dev env c w w₁ henv (j + 1) hpass hread
      rw [hfirst, Nat.min_eq_left hj] at hrun
      dsimp only at hrun
      have hloop' : decrypt_view dev.aes 0 (j + 1) v { w₁ with kern := w₁.kern.tock 2 } =
        .ok (r, w') := hloop
      rw [bind_ok hloop'] at hrun
      exact hfiles ((h (j + 1) (some r) w' hrun).trans hsame.symm)

end Call

/-- A shared mapping of a file that is open for reading and writing. -/
theorem sysMmap_shared {k : Kernel} {fd : Int} {id : Nat} (hf : k.find fd = some id)
    (hreg : (k.desc id).regular = true) (hacc : (k.desc id).flags.acc = .rdwr)
    (hgrant : k.answer.fails = false) {length : Nat} (hpos : 0 < length)
    (hlen : length ≤ addressSpace) (prot : Prot) {off : Nat} (hoff : off % 4096 = 0) :
    sysMmap k length prot .map_shared fd off =
      (some ⟨filled (k.files.data (k.desc id).inode) off
        (room length ((k.files.data (k.desc id).inode).length - off)),
        some ((k.desc id).inode, off)⟩, k.tock 1) := by
  have hmod : (off : Int) % 4096 = 0 := by omega
  have hneg : ¬ (off : Int) < 0 := by omega
  have hzero : ¬ length = 0 := by omega
  have hbig : ¬ addressSpace < length := by omega
  rw [sysMmap, hf]
  simp [hgrant, hreg, hacc, hmod, hneg, hzero, hbig, AccMode.readable, AccMode.writable]

/-- Private mappings are harmless. -/
theorem harmless_private {dev : Device} {c : Call} {w : World} (h : c.flags = .map_private) :
    Harmless dev c w := by
  intro _ w₁ v _ hfirst j _ _
  have hback : v.back = none := by
    rw [firstMapping, h, sysMmap] at hfirst
    split at hfirst
    · cases hfirst
    · dsimp only at hfirst
      split at hfirst
      · cases hfirst
      · rw [← Option.some.inj hfirst]
        rfl
  rw [hback]
  trivial

/-- So are mappings through a descriptor that is not open for writing. -/
theorem harmless_readonly {dev : Device} {c : Call} {w : World} {id : Nat}
    (hf : w.kern.find c.fd = some id) (hacc : (w.kern.desc id).flags.acc.writable = false) :
    Harmless dev c w := by
  cases hflags : c.flags with
  | map_private => exact harmless_private hflags
  | map_shared =>
      intro _ w₁ v hpass hfirst
      have hkept := (TeTable.kept_passes_through c.fd hpass).1
      obtain ⟨p, hd⟩ := hkept.desc hf
      have hacc₁ : (w₁.kern.desc id).flags.acc.writable = false := by
        rw [hd]
        exact hacc
      have hf₁ : (w₁.kern.tock 1).find c.fd = some id := hkept.find hf
      rw [firstMapping, hflags, sysMmap, hf₁] at hfirst
      simp [hacc₁] at hfirst

/-- Every call of the sequence is harmless in the state in which it is made. -/
def HarmlessRun (dev : Device) (env : Env) : List Call → World → Prop
  | [], _ => True
  | c :: cs, w => Harmless dev c w ∧
      ∀ v w', c.mmap dev env w = .ok (v, w') → HarmlessRun dev env cs w'

/-- **Mapping a file.**  A call leaves the files alone, however far it gets, exactly when it
    is harmless; and a sequence of harmless calls leaves them alone. -/
theorem mmap_leaves_files {dev : Device} {env : Env} (henv : env.Active) (w : World) :
    (∀ c : Call, Leaves dev env c w ↔ Harmless dev c w) ∧
    ∀ (cs : List Call) (vs : List (Option View)) (w' : World), HarmlessRun dev env cs w →
      mmap_all dev env cs w = .ok (vs, w') → w'.kern.files = w.kern.files := by
  refine ⟨fun c => ⟨harmless_of_leaves henv, leaves_of_harmless henv⟩, ?_⟩
  intro cs
  induction cs generalizing w with
  | nil =>
      intro vs w' _ hrun
      rw [(pure_inv hrun).2]
  | cons c cs ih =>
      intro vs w' hharm hrun
      obtain ⟨v, w₁, h1, h2⟩ := bind_inv hrun
      obtain ⟨vs', w₂, h3, h4⟩ := bind_inv h2
      obtain ⟨-, rfl⟩ := pure_inv h4
      have hone : w₁.kern.files = w.kern.files := by
        refine leaves_of_harmless henv hharm.1 (2 ^ 31) v w₁ ?_
        rw [mmap_upto_all dev env (Nat.le_refl _)]
        exact h1
      exact (ih w₁ vs' w' (hharm.2 v w₁ h1) h3).trans hone

/-- Twenty bytes mapped privately, at any time. -/
private theorem mapping_maps (t : Nat) : ∃ v,
    (⟨20, onlyRead, .map_private, 3, 0⟩ : Call).mmap aDevice activeEnv
        { mapping (zeroed 20) with kern := (mapping (zeroed 20)).kern.tock t } =
      .ok (some v,
        { mapping (zeroed 20) with kern := (mapping (zeroed 20)).kern.tock (t + 2) }) := by
  have hfirst : First ((mapping (zeroed 20)).kern.tock t) (zeroed 20) :=
    ⟨rfl, rfl, by decide⟩
  have hdata : (mapping (zeroed 20)).kern.files.data 1
      = newHeader none ++ stored aDevice.aes (zeroed 20) :=
    Kernel.oneDescriptor_data _ { acc := .rdonly } 4096
  have hrun := @mmap_first aDevice activeEnv
    { mapping (zeroed 20) with kern := (mapping (zeroed 20)).kern.tock t } _ 3 1 (newHeader none)
    (zeroed 20) 0 20 onlyRead ⟨rfl, rfl, rfl⟩ rfl rfl rfl (newHeader_length none)
    hdata (passes_through_tracked ⟨_, List.mem_singleton.mpr rfl, rfl⟩) rfl (Nat.zero_mod _) hfirst
  rw [if_pos (by decide)] at hrun
  exact ⟨_, hrun⟩

/-- A block and a bit is mapped twice, each time privately. -/
theorem mmap_leaves_twice :
    let c : Call := ⟨20, onlyRead, .map_private, 3, 0⟩
    Leaves aDevice activeEnv c (mapping (zeroed 20)) ∧
    ∃ v v' w', mmap_all aDevice activeEnv [c, c] (mapping (zeroed 20)) =
      .ok ([some v, some v'], w') ∧ w'.kern.files = (mapping (zeroed 20)).kern.files := by
  intro c
  have hleaves := @mmap_leaves_files aDevice activeEnv ⟨rfl, rfl, rfl⟩ (mapping (zeroed 20))
  obtain ⟨v, hfirst⟩ := mapping_maps 0
  obtain ⟨v', hsecond⟩ := mapping_maps 2
  have h1 : c.mmap aDevice activeEnv (mapping (zeroed 20)) = .ok (some v,
    { mapping (zeroed 20) with kern := (mapping (zeroed 20)).kern.tock 2 }) := hfirst
  have hrun : mmap_all aDevice activeEnv [c, c] (mapping (zeroed 20)) =
      .ok ([some v, some v'],
        { mapping (zeroed 20) with kern := (mapping (zeroed 20)).kern.tock 4 }) := by
    rw [mmap_all, bind_ok h1, mmap_all, bind_ok (bind_ok hsecond)]
    rfl
  exact ⟨(hleaves.1 c).mpr (harmless_private rfl), v, v', _, hrun,
    hleaves.2 [c, c] _ _ ⟨harmless_private rfl, fun _ _ _ => ⟨harmless_private rfl,
      fun _ _ _ => trivial⟩⟩ hrun⟩

/-- The stored form of one block of zeros, open for reading and writing. -/
def sharing : World where
  kern := Kernel.oneDescriptor (newHeader none ++ stored aDevice.aes (zeroed 16))
    { acc := .rdwr } 4096
  file_info_list := [⟨3, Kernel.aName, none⟩]

/-- Mapped shared and for reading only, the file is plain afterwards. -/
theorem mmap_shared_decrypts :
    sharing.kern.files.data 1 = newHeader none ++ stored aDevice.aes (zeroed 16) ∧
    stored aDevice.aes (zeroed 16) ≠ zeroed 16 ∧
    ∃ v w', (⟨16, onlyRead, .map_shared, 3, 0⟩ : Call).mmap aDevice activeEnv sharing =
      .ok (some v, w') ∧ w'.kern.files.data 1 = newHeader none ++ zeroed 16 := by
  let D := newHeader none ++ stored aDevice.aes (zeroed 16)
  let c : Call := ⟨16, onlyRead, .map_shared, 3, 0⟩
  have hdata : sharing.kern.files.data 1 = D :=
    Kernel.oneDescriptor_data D { acc := .rdwr } 4096
  have hlen : D.length = 4112 := by
    rw [List.length_append, stored_length, newHeader_length, zeroed_length]
    rfl
  have hpass : passes_through 3 sharing = .ok (false, sharing) :=
    passes_through_tracked ⟨_, List.mem_singleton.mpr rfl, rfl⟩
  have htold : lengthTold c sharing = 16 := by
    have hstat : (sharing.kern.sysFstat 3).1 = some ⟨true, (4112 : Nat)⟩ := by
      rw [← hlen]
      rfl
    rw [lengthTold, hstat]
    decide
  have hfirst : firstMapping c sharing = some ⟨filled D 4096 4096, some (1, 4096)⟩ := by
    have hmap := @sysMmap_shared (sharing.kern.tock 1) 3 1 rfl rfl rfl rfl 16 (by decide)
      (by decide) ⟨true, true, true⟩ 4096 (by decide)
    rw [firstMapping, htold]
    refine (congrArg Prod.fst hmap).trans ?_
    show some (View.mk (filled D 4096 (room 16 (D.length - 4096))) (some (1, 4096))) = _
    rw [hlen]
    rfl
  have hblock : block (filled D 4096 4096) 0 = stored aDevice.aes (zeroed 16) := by
    rw [block_zero, filled, List.take_append_of_le_length (by rw [slice_length, hlen]; decide)]
    have hslice := slice_append_left (newHeader none) (stored aDevice.aes (zeroed 16)) 0 4096
    rw [newHeader_length] at hslice
    rw [show slice D 4096 4096 = _ from hslice,
      slice_all (by rw [stored_length, zeroed_length]; decide)]
    exact List.take_of_length_le (Nat.le_of_eq ((stored_length _ _).trans (zeroed_length 16)))
  have hplain : aes_decrypt_128bit aDevice.aes ((filled D 4096 4096).take 16) = zeroed 16 := by
    rw [← block_zero, hblock, stored_full _ (zeroed_length 16)]
    exact (aDevice.aes userKey).dec_enc _ (zeroed_length 16)
  have hover : (overlay 0 D (4096 + 0 * 16) (zeroed 16)).take D.length
      = newHeader none ++ zeroed 16 := by
    have h := overlay_append_left (0 : UInt8) (newHeader none) (stored aDevice.aes (zeroed 16)) 0
      (zeroed 16)
    rw [newHeader_length, overlay_all 0 (Nat.le_of_eq (stored_length _ _))] at h
    rw [hlen]
    refine (congrArg (List.take 4112) h).trans (List.take_of_length_le ?_)
    rw [List.length_append, newHeader_length, zeroed_length]
    decide
  have hturns : min (2 ^ 31) ((16 : Int) / 16).toNat = 1 := by decide
  have hloop := decrypt_block_at aDevice.aes (w := { sharing with kern := sharing.kern.tock 2 })
    (A := []) (B := filled D 4096 4096) (i := 0) (some (1, 4096)) rfl
    (by rw [filled_length]; decide)
  rw [hplain, List.nil_append, List.nil_append] at hloop
  have hview : decrypt_view aDevice.aes 0 1 ⟨filled D 4096 4096, some (1, 4096)⟩
      { sharing with kern := sharing.kern.tock 2 } =
        .ok (⟨zeroed 16 ++ (filled D 4096 4096).drop 16,
        some (1, 4096)⟩, putBack (some (1, 4096)) (0 * 16) (zeroed 16)
          { sharing with kern := sharing.kern.tock 2 }) := by
    rw [decrypt_view, bind_ok hloop]
    rfl
  have hdata' : ({ sharing with kern := sharing.kern.tock 2 } : World).kern.files.data 1 = D :=
    hdata
  refine ⟨hdata, by decide, ⟨zeroed 16 ++ (filled D 4096 4096).drop 16, some (1, 4096)⟩,
    putBack (some (1, 4096)) (0 * 16) (zeroed 16) { sharing with kern := sharing.kern.tock 2 },
    ?_, ?_⟩
  · rw [← mmap_upto_all aDevice activeEnv (Nat.le_refl _),
      @mmap_upto_run aDevice activeEnv c sharing sharing ⟨rfl, rfl, rfl⟩ _ hpass rfl, hfirst, htold,
      hturns]
    dsimp only
    rw [bind_ok hview]
    rfl
  · rw [putBack_data, hdata']
    exact hover

end TeShared
