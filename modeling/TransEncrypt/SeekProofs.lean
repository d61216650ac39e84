import TransEncrypt.SizeProofs
import TransEncrypt.TableProofs

/-! # Seeking in the plain file

    `lseek` and `lseek64` add the header to an offset from the start of the file and
    subtract it from whatever the real call returns.  A target behind the start of the
    plain file is hit; one before it is not refused, and the error value -1 becomes -4097.

    * `resting_passes_through`: the test for an encrypted file moves no cursor;
    * `seek_refines`: the two calls are those of the plain file exactly when the target is
      not negative and the real call does not fail. -/

namespace TeSeek

open Posix Overlay TeHeader Hoare TeProgram TeDetector Plain TeOpen TeSize

/-! ## The test moves nothing -/

/-- The files and all cursors are the same. -/
def Resting (w w' : World) : Prop :=
  w'.kern.files = w.kern.files ∧ w'.kern.desc = w.kern.desc

instance : IsPreorder World Resting where
  refl _ := ⟨rfl, rfl⟩
  trans _ _ _ h h' := ⟨h'.1.trans h.1, h'.2.trans h.2⟩

namespace Resting

theorem call {α : Type} {f : Kernel → α × Kernel}
    (hf : ∀ k, (f k).2.files = k.files ∧ (f k).2.desc = k.desc) :
    Stays Resting (kernelCall f) := by
  intro w a w' h
  obtain ⟨-, rfl⟩ := kernelCall_inv h
  exact hf w.kern

theorem getfl (fd : Int) : Stays Resting (fcntl_getfl fd) := call fun _ => ⟨rfl, rfl⟩

theorem query (fd : Int) : Stays Resting (file_info_list_query_by_fd fd) := by
  intro w a w' h
  obtain ⟨-, rfl⟩ := Prod.mk.inj (Except.ok.inj h)
  exact ⟨rfl, rfl⟩

theorem dup (fd : Int) : Stays Resting (linker_dup fd) := by
  refine call fun k => ?_
  unfold Kernel.sysDup
  repeat' split
  all_goals exact ⟨rfl, rfl⟩

theorem pread (fd : Int) (n : Nat) (off : Int) : Stays Resting (linker_pread fd n off) := by
  refine call fun k => ?_
  unfold Kernel.sysPread
  dsimp only
  repeat' split
  all_goals exact ⟨rfl, rfl⟩

theorem close (fd : Int) : Stays Resting (linker_close fd) := by
  refine call fun k => ?_
  unfold Kernel.sysClose
  repeat' split
  all_goals exact ⟨rfl, rfl⟩

end Resting

theorem resting_is_encrypted_by_fd (fd : Int) : Stays Resting (is_encrypted_by_fd fd) := by
  refine .bind (Resting.getfl fd) fun fl => ?_
  cases fl with
  | none => exact .pure _
  | some fl =>
      refine .ite (.pure _) (.bind (Resting.dup fd) fun nfd => .ite ?_ (.pure _))
      exact .bind (Resting.pread nfd _ 0) fun _ => .bind (Resting.close nfd) fun _ => .pure _

theorem resting_passes_through (fd : Int) : Stays Resting (passes_through fd) := by
  refine .bind (Resting.query fd) fun e => ?_
  cases e with
  | some e => exact .pure _
  | none => exact .bind (resting_is_encrypted_by_fd fd) fun _ => .pure _

/-! ## The two calls -/

/-- Where a seek in the plain file is meant to go. -/
def target (f : PlainFile) (offset : Int) : Whence → Int
  | .set => offset
  | .cur => f.pos + offset
  | .fin => f.size + offset

/-- The call moves the description `id` to the target `t` of the plain file, or, when
    there is no such place or the real call fails, is refused and moves nothing. -/
def Seeks (hook : Sys Int) (w : World) (id : Nat) (t : Int) (fails : Prop) : Prop :=
  ∃ r w', hook w = .ok (r, w') ∧
    (0 ≤ t ∧ ¬ fails → r = t ∧ ((w'.kern.desc id).pos : Int) = FILE_HEADER_POLL_SIZE + t) ∧
    (t < 0 ∨ fails → r = -1 ∧ (w'.kern.desc id).pos = (w.kern.desc id).pos)

section Seek

variable {dev : Device} {env : Env} {w w₁ : World} {fd : Int} {id : Nat} {H P : List UInt8}
  {p : Nat} (henv : env.Active) (hfind : w.kern.find fd = some id)
  (hreg : (w.kern.desc id).regular = true) (hH : H.length = FILE_HEADER_POLL_SIZE)
  (hdata : w.kern.files.data (w.kern.desc id).inode = H ++ stored dev.aes P)
  (hpos : (w.kern.desc id).pos = FILE_HEADER_POLL_SIZE + p)
  (hpass : passes_through fd w = .ok (false, w₁))
include henv hfind hreg hH hdata hpos hpass

/-- What the call does: the header is subtracted from every result. -/
theorem lseek_eq (o : Int) (whence : Whence) :
    let t := target ⟨P, p⟩ o whence
    lseek env fd o whence w =
      if w₁.kern.answer.fails = true ∨ 4096 + t < 0 then
        .ok (-4097, { w₁ with kern := w₁.kern.tock 1 })
      else .ok (t, { w₁ with kern := (w₁.kern.tock 1).setPos id (4096 + t).toNat }) := by
  intro t
  obtain ⟨hfiles, hdesc⟩ := resting_passes_through fd hpass
  have hfind₁ : w₁.kern.find fd = some id := (TeTable.kept_passes_through fd hpass).1.find hfind
  have hH' : H.length = 4096 := hH
  let off := if whence = .set then o + (FILE_HEADER_POLL_SIZE : Nat) else o
  have hbase : w₁.kern.seekBase (w₁.kern.desc id) whence + off = 4096 + t := by
    rw [hdesc]
    have hsize : (w₁.kern.files.data (w.kern.desc id).inode).length = 4096 + P.length := by
      rw [hfiles, hdata, List.length_append, hH', stored_length]
    cases whence with
    | set =>
        show (0 : Int) + (o + ((4096 : Nat) : Int)) = 4096 + o
        omega
    | cur =>
        show ((w.kern.desc id).pos : Int) + o = 4096 + (p + o)
        rw [hpos]
        show ((4096 + p : Nat) : Int) + o = 4096 + (p + o)
        omega
    | fin =>
        show ((w₁.kern.files.data (w.kern.desc id).inode).length : Int) + o
          = 4096 + ((P.length : Nat) + o)
        omega
  have hseek : linker_lseek fd off whence w₁ =
      if w₁.kern.answer.fails = true ∨ 4096 + t < 0 then
        .ok (-1, { w₁ with kern := w₁.kern.tock 1 })
      else .ok (4096 + t, { w₁ with kern := (w₁.kern.tock 1).setPos id (4096 + t).toNat }) := by
    have hreg₁ : (w₁.kern.desc id).regular = true := by
      rw [hdesc]
      exact hreg
    by_cases hbad : w₁.kern.answer.fails = true ∨ 4096 + t < 0
    · rw [if_pos hbad]
      apply linker_lseek_ok
      simp only [Kernel.sysLseek, hfind₁, hreg₁, hbase]
      rw [if_pos (by simpa using hbad)]
    · rw [if_neg hbad]
      apply linker_lseek_ok
      simp only [Kernel.sysLseek, hfind₁, hreg₁, hbase]
      rw [if_neg (by simpa using hbad)]
  rw [lseek, seek_by, hooked_active henv, bind_ok hpass, if_neg (by decide)]
  by_cases hbad : w₁.kern.answer.fails = true ∨ 4096 + t < 0
  · rw [if_pos hbad] at hseek ⊢
    rw [bind_ok hseek]
    rfl
  · rw [if_neg hbad] at hseek ⊢
    rw [bind_ok hseek]
    show Except.ok (4096 + t - ((4096 : Nat) : Int), _) = _
    rw [show 4096 + t - ((4096 : Nat) : Int) = t from by omega]

/-- **Seeking.**  On a file holding a header and the stored form of `P`, with the cursor at
    the plain position `p` and the descriptor taken for encrypted, `lseek` and `lseek64` are
    the seek of the plain file exactly when the target is not negative and the real call
    does not fail. -/
theorem seek_refines (o : Int) (whence : Whence) :
    let t := target ⟨P, p⟩ o whence
    let fails := w₁.kern.answer.fails = true
    Seeks (lseek env fd o whence) w id t fails ∧ Seeks (lseek64 env fd o whence) w id t fails ↔
      0 ≤ t ∧ ¬ fails := by
  intro t fails
  have heq := @lseek_eq dev env w w₁ fd id H P p henv hfind hreg hH hdata hpos hpass o whence
  have hiff : Seeks (lseek env fd o whence) w id t fails ↔ 0 ≤ t ∧ ¬ fails := by
    constructor
    · rintro ⟨r, w', hrun, -, hrefused⟩
      by_contra hno
      have hbad : t < 0 ∨ fails := by
        by_cases hf : fails
        · exact .inr hf
        · exact .inl (by_contra fun ht => hno ⟨by omega, hf⟩)
      obtain ⟨hr, hcursor⟩ := hrefused hbad
      rw [heq] at hrun
      by_cases hcase : fails ∨ 4096 + t < 0
      · -- the error value has the header subtracted
        rw [if_pos hcase] at hrun
        obtain ⟨hval, -⟩ := Prod.mk.inj (Except.ok.inj hrun)
        omega
      · -- a target inside the header: -1 is the place in front of the plain file
        rw [if_neg hcase] at hrun
        obtain ⟨hval, rfl⟩ := Prod.mk.inj (Except.ok.inj hrun)
        rw [Kernel.setPos_desc_self, hpos] at hcursor
        have hcur : (4096 + t).toNat = 4096 + p := hcursor
        have hval' : t = r := hval
        omega
    · rintro ⟨ht, hf⟩
      have hcase : ¬ (fails ∨ 4096 + t < 0) := by
        rintro (h | h)
        · exact hf h
        · omega
      refine ⟨t, _, heq.trans (if_neg hcase), fun _ => ⟨rfl, ?_⟩, ?_⟩
      · rw [Kernel.setPos_desc_self]
        show (((4096 + t).toNat : Nat) : Int) = ((4096 : Nat) : Int) + t
        omega
      · rintro (h | h)
        · omega
        · exact absurd h hf
  constructor
  · rintro ⟨h, -⟩
    exact hiff.mp h
  · intro h
    exact ⟨hiff.mpr h, hiff.mpr h⟩

end Seek

/-! ## A file of one byte -/

/-- The reader at the start of the one byte behind the header. -/
def atFirst : World where
  kern := Kernel.oneDescriptor (newHeader none ++ [7]) { acc := .rdonly } 4096
  file_info_list := []

private theorem atFirst_data :
    atFirst.kern.files.data 1 = newHeader none ++ stored aDevice.aes [7] := by
  rw [stored_short _ (by decide)]
  exact Kernel.oneDescriptor_data (newHeader none ++ [7]) { acc := .rdonly } 4096

private theorem atFirst_find : atFirst.kern.find 3 = some 1 := rfl

private theorem atFirst_passes : ∃ n, passes_through 3 atFirst =
    .ok (false, { atFirst with kern := atFirst.kern.tock n }) := by
  refine passes_through_encrypted (w := atFirst) (fun _ => ⟨rfl, rfl, rfl⟩)
    rfl rfl rfl (by decide) ?_
  show HasHeader (atFirst.kern.files.data 1)
  rw [atFirst_data]
  exact hasHeader_append (newHeader_length none) (newHeader_rights none) _

/-- One byte on from the start: the end. -/
theorem seek_refines_end : Seeks (lseek activeEnv 3 1 .set) atFirst 1 1 False := by
  obtain ⟨n, hpass⟩ := atFirst_passes
  have henv : activeEnv.Active := ⟨rfl, rfl, rfl⟩
  have h := ((seek_refines (p := 0) henv atFirst_find rfl (newHeader_length none)
    atFirst_data rfl hpass 1 .set).mpr ⟨by decide, fun h => by cases h⟩).1
  obtain ⟨r, w', hrun, hgood, -⟩ := h
  exact ⟨r, w', hrun, fun _ => hgood ⟨by decide, fun h => by cases h⟩,
    fun hbad => absurd hbad (by simp)⟩

/-- Five bytes before the start: the cursor is moved into the header. -/
theorem lseek_enters_header :
    (∃ w', lseek activeEnv 3 (-5) .set atFirst = .ok (-5, w') ∧
      (w'.kern.desc 1).pos = 4091) ∧
    ¬ Seeks (lseek activeEnv 3 (-5) .set) atFirst 1 (-5) False := by
  obtain ⟨n, hpass⟩ := atFirst_passes
  have henv : activeEnv.Active := ⟨rfl, rfl, rfl⟩
  have hseek := lseek_eq (p := 0) henv atFirst_find rfl (newHeader_length none)
    atFirst_data rfl hpass (-5) .set
  have hcase : ¬ ((atFirst.kern.tock n).answer.fails = true ∨
      4096 + target ⟨[7], 0⟩ (-5) .set < 0) := by
    rintro (h | h)
    · cases h
    · exact absurd h (by decide)
  have heq := hseek.trans (if_neg hcase)
  refine ⟨⟨_, heq, ?_⟩, ?_⟩
  · rw [Kernel.setPos_desc_self]
    rfl
  · rintro ⟨r, w', hrun, -, hrefused⟩
    obtain ⟨hr, -⟩ := hrefused (.inl (by decide))
    have hval : (-5 : Int) = r := (Prod.mk.inj (Except.ok.inj (heq.symm.trans hrun))).1
    omega

end TeSeek
