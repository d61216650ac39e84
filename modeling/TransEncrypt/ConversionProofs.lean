import TransEncrypt.WorkerProofs

/-! # The conversion as a whole — four workers, every interleaving

    Each worker keeps its own assertion and disturbs no other one, so what they
    assert holds along every interleaving.

    * `base_sound`: for every size the new file keeps its header and its length;
    * `content_sound`: when the sizes or the content are `Harmless`, everything that has
      been copied stays what it should be;
    * `finished_target`: so at the end the new file is the header and the image;
    * `exists_finish`: some interleaving lets every worker return, and leaves the target
      only when the conversion is harmless. -/

namespace TeWorker

open Posix Overlay Blockwise TeHeader TeProgram TeDetector TeStored Interleave

/-- The workers that are started for a file of `size` bytes. -/
def allWorkers (size : Nat) : List Worker := (List.range THREADS_COUNT).map (workerArgs size)

namespace Job

variable {j : Job} (hj : InRange j.size)

/-- The pool of this conversion. -/
def pool (j : Job) : System FileStore Worker Answer := workers j.dev j.path

section Base

/-- A worker that has started has a name that fits. -/
theorem fits_of_step {a : Answer} (ha : Answer.Calm a) {fs fs' : FileStore} {t t' : Worker}
    (h : j.pool.step a fs t = some (fs', t')) (hpc : t.pc = .start) : Fits j.path := by
  by_contra hno
  have hnone : Worker.step j.dev j.path a fs t = none := by
    simp only [Worker.step, hpc, ha.fails, Bool.false_eq_true, if_false, if_pos hno]
  cases hnone.symm.trans h

include hj

/-- A step that was made is the step described. -/
theorem step_effect {a : Answer} (ha : Answer.Calm a) {i : Nat} {fs fs' : FileStore}
    {t t' : Worker} (hs : j.Shared fs) (ht : j.Assert i fs t)
    (h : j.pool.step a fs t = some (fs', t')) :
    j.Effect i fs t fs' t' ∧ j.Assert i fs' t' := by
  obtain ⟨fs₁, t₁, hstep, heff, hassert, -⟩ := calm_step hj ha hs ht (fits_of_step ha h)
  obtain ⟨rfl, rfl⟩ := Prod.mk.inj (Option.some.inj (hstep.symm.trans h))
  exact ⟨heff, hassert⟩

/-- Nor does worker 0 come to its loop before the header. -/
theorem step_led {a : Answer} (ha : Answer.Calm a) (hne : a.hint ≠ 0) {fs fs' : FileStore}
    {t t' : Worker} (hs : j.Shared fs) (ht : j.Assert 0 fs t) (hled : j.Led fs t)
    (h : j.pool.step a fs t = some (fs', t')) : j.Led fs' t' := by
  obtain ⟨fs₁, t₁, hstep, -, -, hgo⟩ := calm_step hj ha hs ht (fits_of_step ha h)
  obtain ⟨rfl, rfl⟩ := Prod.mk.inj (Option.some.inj (hstep.symm.trans h))
  exact (hgo hne hled).1 rfl

/-- **The base invariant** holds along every interleaving, for every size. -/
theorem base_sound : j.pool.Sound Answer.Calm j.Shared j.Assert where
  own := by
    intro a i fs t fs' t' ha _ hs ht h
    obtain ⟨heff, hassert⟩ := step_effect hj ha hs ht h
    exact ⟨(heff.change hj).shared hs, hassert⟩
  other := by
    intro a i k fs t fs' t' u ha _ hik hs ht hu h
    obtain ⟨heff, -⟩ := step_effect hj ha hs ht h
    exact ⟨hu.1, (heff.change hj).at hik hu.2⟩

/-- Before the first step. -/
theorem base_init {fs : FileStore} (hname : fs.names j.path = some j.old)
    (hdata : fs.data j.old = j.plain) (hnone : fs.names j.newPath = none) :
    System.PoolInv j.Shared j.Assert (fs, allWorkers j.size) := by
  refine ⟨⟨hname, hdata, fun s hs => by cases hnone.symm.trans hs⟩, ?_⟩
  intro i t ht
  have ht' : ((List.range THREADS_COUNT).map (workerArgs j.size))[i]? = some t := ht
  rw [List.getElem?_map] at ht'
  obtain ⟨k, hk, rfl⟩ := Option.map_eq_some_iff.mp ht'
  obtain ⟨hlt, rfl⟩ := List.getElem?_eq_some_iff.mp hk
  rw [List.length_range] at hlt
  rw [List.getElem_range, workerArgs_eq hj hlt]
  refine ⟨⟨hlt, rfl, rfl, ?_, ?_⟩, fun _ => hnone⟩
  · show ((4096 * (share j.size * i) : Nat) : Int) = ((4096 * chunkAt j.size i 0 : Nat) : Int)
    rw [chunkAt, Nat.zero_min, Nat.add_zero]
  · show rangeOf j.size i = rangeOf j.size i - ((4096 * 0 : Nat) : Int)
    rw [Nat.mul_zero]
    exact (Int.sub_zero _).symm

end Base

/-! ## The content -/

/-- What the new file has to be. -/
def target (j : Job) : List UInt8 := j.header ++ j.image

/-- The last worker's range is not empty, or the size is a multiple of the chunk, or
    the last chunk of the image and the start of the chunk before it are all zeros. -/
def Harmless (j : Job) : Prop :=
  share j.size * 3 ≤ j.size / 4096 ∨ 4096 ∣ j.size ∨
    (j.chunk (j.size / 4096) = zeroed (j.size % 4096) ∧
      (j.chunk (j.size / 4096 - 1)).take (j.size % 4096) = zeroed (j.size % 4096))

/-- The new file agrees with the target at a place. -/
def Agrees (j : Job) (fs : FileStore) (x : Nat) : Prop :=
  ∀ s, j.Ready fs s → (fs.data s)[x]? = j.target[x]?

/-- What worker `i` has copied is what it should be. -/
def Copied (j : Job) (i : Nat) (fs : FileStore) (t : Worker) : Prop :=
  ∀ x, 4096 * (share j.size * i + 1) ≤ x → x < 4096 * (t.reached + 1) → j.Agrees fs x

/-- When the last chunk is all zeros its place is right from the start. -/
def TailZero (j : Job) (fs : FileStore) : Prop :=
  j.chunk (j.size / 4096) = zeroed (j.size % 4096) →
    ∀ x, 4096 * (j.size / 4096 + 1) ≤ x → j.Agrees fs x

/-- A change that disturbs no place that agrees with the target. -/
def Keeps (j : Job) (fs fs' : FileStore) : Prop := ∀ x, j.Agrees fs x → j.Agrees fs' x

theorem target_length : j.target.length = j.size + 4096 := by
  rw [target, List.length_append, header_length, image_length, Nat.add_comm]

/-- A stretch of the target behind the header. -/
theorem target_slice (c n : Nat) :
    slice j.target (4096 * (c + 1)) n = slice j.image (4096 * c) n := by
  rw [show 4096 * (c + 1) = j.header.length + 4096 * c from by rw [header_length]; omega,
    target, slice_append_left]

/-- Writing bytes of the target to their place. -/
theorem keeps_write {fs : FileStore} {s off n : Nat} (hr : j.Ready fs s) (h1 : 4096 ≤ off)
    (h2 : off ≤ j.size + 4096) :
    j.Keeps fs (fs.writeAt s off (slice j.target off n)) ∧
      ∀ x, off ≤ x → x < off + n → j.Agrees (fs.writeAt s off (slice j.target off n)) x := by
  have hlen : (slice j.target off n).length = min n (j.size + 4096 - off) := by
    rw [slice_length, target_length]
  have hready := hr.copied off (slice j.target off n) h1 (by omega)
  have hget : ∀ x, slice j.target off n ≠ [] →
      (overlay 0 (fs.data s) off (slice j.target off n))[x]? =
        if off ≤ x ∧ x < off + n then j.target[x]? else (fs.data s)[x]? := by
    intro x hne
    rw [overlay_get hne, hr.length]
    by_cases hx1 : x < off
    · rw [if_pos hx1, if_pos (by omega), if_neg (by omega)]
    · rw [if_neg hx1]
      by_cases hx2 : x < off + (slice j.target off n).length
      · rw [if_pos hx2, if_pos (by omega), slice_get, if_pos (by omega)]
        congr 1
        omega
      · rw [if_neg hx2]
        by_cases hx3 : x < off + n
        · -- behind the end of both
          rw [if_pos ⟨by omega, hx3⟩, List.getElem?_eq_none (by rw [hr.length]; omega),
            List.getElem?_eq_none (by rw [target_length]; omega)]
        · rw [if_neg (by omega)]
  constructor
  · intro x hx s' hr'
    obtain rfl := hready.unique hr'.name
    rw [FileStore.writeAt_data_self]
    by_cases hne : slice j.target off n = []
    · rw [hne, overlay_nil]
      exact hx s' hr
    · rw [hget x hne]
      by_cases hin : off ≤ x ∧ x < off + n
      · rw [if_pos hin]
      · rw [if_neg hin]
        exact hx s' hr
  · intro x hx1 hx2 s' hr'
    obtain rfl := hready.unique hr'.name
    rw [FileStore.writeAt_data_self]
    by_cases hne : slice j.target off n = []
    · -- the place is behind the end
      have hl : (slice j.target off n).length = 0 := by rw [hne]; rfl
      rw [hne, overlay_nil, List.getElem?_eq_none (by rw [hr.length]; omega),
        List.getElem?_eq_none (by rw [target_length]; omega)]
    · rw [hget x hne, if_pos ⟨hx1, hx2⟩]

/-- Before the new file is ready no worker has copied anything. -/
theorem reached_early {i : Nat} {fs : FileStore} {t : Worker} (h : j.Assert i fs t)
    (hno : ¬ ∃ s, j.Ready fs s) : t.reached = share j.size * i := by
  obtain ⟨number, offset, bsize, tsize, pc⟩ := t
  obtain ⟨⟨-, -, -, hloc⟩, hat⟩ := h
  have hfirst : j.Round i 0 offset bsize → offset.toNat / 4096 = share j.size * i := by
    intro hr
    rw [hr.offset, Int.toNat_natCast, chunkAt, Nat.zero_min]
    omega
  cases pc with
  | start => exact hfirst hloc
  | clear => exact hfirst hloc
  | remove => exact hat.elim
  | create => exact hfirst hloc
  | truncate _ => exact hfirst hloc
  | header _ => exact hfirst hloc
  | waiting => exact hfirst hloc
  | probe => exact hfirst hloc
  | probeRead _ => exact hfirst hloc
  | entered => exact absurd hat hno
  | openOld => exact absurd hat hno
  | openNew _ => exact absurd hat.2 hno
  | readChunk _ s => exact absurd ⟨s, hat.2⟩ hno
  | writeChunk _ s _ => exact absurd ⟨s, hat.2⟩ hno
  | readTail _ s => exact absurd ⟨s, hat.2⟩ hno
  | writeTail _ s _ => exact absurd ⟨s, hat.2⟩ hno
  | returned _ => exact absurd hat hno

theorem agrees_of_not_ready {fs : FileStore} (hno : ¬ ∃ s, j.Ready fs s) (x : Nat) :
    j.Agrees fs x := fun s hr => absurd ⟨s, hr⟩ hno

/-- What is known of a worker when all four have returned. -/
theorem finished_worker {fs : FileStore} {ts : List Worker}
    (hJ : ∀ i t, ts[i]? = some t → j.Assert i fs t) (hlen : ts.length = THREADS_COUNT)
    (hfin : ∀ t ∈ ts, t.finished = true) {i : Nat} (hi : i < THREADS_COUNT) :
    ∃ t, ts[i]? = some t ∧ ∃ c p, t.pc = .returned p ∧ t.reached = c ∧
      (∃ s, j.Ready fs s) ∧
      (i < 3 → t.bsize < 4096 ∧ c = chunkAt j.size i (share j.size)) ∧
      (i = 3 → p = true ∧ (share j.size * 3 ≤ j.size / 4096 → j.size ≤ 4096 * c)) := by
  have hi' : i < ts.length := by
    rw [hlen]
    exact hi
  have ht := List.getElem?_eq_getElem hi'
  obtain ⟨⟨-, -, -, hloc⟩, hat⟩ := hJ i ts[i] ht
  have hdone := hfin ts[i] (List.getElem_mem hi')
  cases hpc : ts[i].pc with
  | returned p =>
      rw [hpc] at hloc hat
      obtain ⟨hp, hb, c, hoff, hc1, hc2⟩ := hloc
      have hreach : ts[i].reached = c := by
        rw [Worker.reached, hpc, hoff]
        show Int.toNat ((4096 * c : Nat) : Int) / 4096 = c
        rw [Int.toNat_natCast]
        omega
      exact ⟨ts[i], ht, c, p, hpc, hreach, hat, fun h => ⟨hb h, hc1 h⟩,
        fun h => ⟨hp h, hc2 h⟩⟩
  | _ =>
      rw [Worker.finished, hpc] at hdone
      cases hdone

section Content

include hj

/-- Before the first step nothing has been copied. -/
theorem content_init {fs : FileStore} (hname : fs.names j.path = some j.old)
    (hdata : fs.data j.old = j.plain) (hnone : fs.names j.newPath = none) :
    System.PoolInv (fun fs => j.Shared fs ∧ j.TailZero fs)
      (fun i fs t => j.Assert i fs t ∧ j.Copied i fs t) (fs, allWorkers j.size) := by
  obtain ⟨hs, hJ⟩ := base_init hj hname hdata hnone
  have hno : ¬ ∃ s, j.Ready fs s := by
    rintro ⟨s, hr⟩
    cases hnone.symm.trans hr.name
  exact ⟨⟨hs, fun _ x _ => agrees_of_not_ready hno x⟩,
    fun i t ht => ⟨hJ i t ht, fun x _ _ => agrees_of_not_ready hno x⟩⟩

/-- From the time the new file is ready a harmless step writes bytes of the target to
    their place. -/
theorem effect_keeps (hh : j.Harmless) {i : Nat} {fs fs' : FileStore} {t t' : Worker} {s : Nat}
    (hr : j.Ready fs s) (h : j.Effect i fs t fs' t') :
    j.Keeps fs fs' ∧ (j.Copied i fs t → j.Copied i fs' t') := by
  have hbig : 4096 * 4 < j.size := hj.1
  cases h with
  | silent hreach _ => exact ⟨fun _ hx => hx, fun hc x h1 h2 => hc x h1 (by omega)⟩
  | stage hno => exact absurd ⟨s, hr⟩ hno
  | copy hr' hreach hc hcase hnext hbs =>
      rename_i s' c
      have hplace : 4096 ≤ 4096 * (c + 1) ∧ 4096 * (c + 1) ≤ j.size + 4096 := by omega
      have hw := keeps_write (n := 4096) hr' hplace.1 hplace.2
      rw [target_slice] at hw
      refine ⟨hw.1, fun hcop x h1 h2 => ?_⟩
      by_cases hx : x < 4096 * (c + 1)
      · exact hw.1 x (hcop x h1 (by omega))
      · exact hw.2 x (by omega) (by omega)
  | stray hr' hi hspan hreach hnext hbs =>
      rename_i s'
      -- what is written in the wrong place is what belongs there
      have hsame : j.chunk (j.size / 4096)
          = slice j.target (4096 * (j.size / 4096)) (j.chunk (j.size / 4096)).length := by
        rcases hh with h3 | hdvd | ⟨hzero, hzero'⟩
        · have : share j.size * i ≤ share j.size * 2 := Nat.mul_le_mul_left _ (by omega)
          omega
        · have hlen := chunk_length (j := j) (j.size / 4096)
          have hnil : j.chunk (j.size / 4096) = [] :=
            List.eq_nil_of_length_eq_zero (by omega)
          rw [hnil, List.length_nil, slice_zero]
        · have htake : slice j.target (4096 * (j.size / 4096)) (j.size % 4096)
              = (j.chunk (j.size / 4096 - 1)).take (j.size % 4096) := by
            have h := target_slice (j := j) (j.size / 4096 - 1) (j.size % 4096)
            rw [show j.size / 4096 - 1 + 1 = j.size / 4096 from by omega] at h
            rw [h, chunk, slice, slice, List.take_take, Nat.min_eq_left (by omega)]
          rw [hzero, zeroed_length, htake, hzero']
      have hplace : 4096 ≤ 4096 * (j.size / 4096)
          ∧ 4096 * (j.size / 4096) ≤ j.size + 4096 := by omega
      have hw := keeps_write (n := (j.chunk (j.size / 4096)).length) hr' hplace.1 hplace.2
      rw [← hsame] at hw
      exact ⟨hw.1, fun hcop x h1 h2 => hw.1 x (hcop x h1 (by omega))⟩

omit hj in
/-- When a step of the stage before makes the new file ready, it is the header and
    zeros. -/
theorem stage_zeros {i : Nat} {fs fs' : FileStore} (hno : ¬ ∃ s, j.Ready fs s)
    (hc : j.Change i fs fs') {s : Nat} (hr : j.Ready fs' s) :
    fs'.data s = j.header ++ zeroed j.size := by
  cases hc with
  | silent => exact absurd ⟨s, hr⟩ hno
  | created _ _ =>
      have hs := hr.unique (FileStore.create_names_self fs j.newPath)
      have hlen := hr.length
      rw [← hs, FileStore.create_data_self, List.length_nil] at hlen
      omega
  | sized s' _ hs' _ _ =>
      exact (header_ne_zeroed hr hs' (FileStore.store_data_self ..)).elim
  | headed s' _ hs' _ _ =>
      obtain rfl : s' = s := hr.unique hs'
      exact FileStore.store_data_self ..
  | copied s' off buff hready _ _ => exact absurd ⟨s', hready⟩ hno

omit hj in
/-- So it agrees with the target where the image ends in zeros. -/
theorem stage_tail {i : Nat} {fs fs' : FileStore} (hno : ¬ ∃ s, j.Ready fs s)
    (hc : j.Change i fs fs') : j.TailZero fs' := by
  intro hzero x hx s hr
  have himage : ∀ y, 4096 * (j.size / 4096) ≤ y → y < j.size → j.image[y]? = some 0 := by
    intro y h1 h2
    have h := congrArg (fun l : List UInt8 => l[y - 4096 * (j.size / 4096)]?) hzero
    simp only [chunk, slice_get] at h
    rw [if_pos (by omega), zeroed, List.getElem?_replicate, if_pos (by omega),
      show 4096 * (j.size / 4096) + (y - 4096 * (j.size / 4096)) = y from by omega] at h
    exact h
  rw [stage_zeros hno hc hr, target, List.getElem?_append_right (by
    rw [header_length]; omega), List.getElem?_append_right (by
    rw [header_length]; omega), header_length, zeroed, List.getElem?_replicate]
  by_cases hin : x - 4096 < j.size
  · rw [if_pos hin, himage _ (by omega) hin]
  · rw [if_neg hin, List.getElem?_eq_none (by rw [image_length]; omega)]

/-- The step of a worker keeps what has been copied. -/
theorem effect_content (hh : j.Harmless) {i : Nat} {fs fs' : FileStore} {t t' : Worker}
    (hs : j.Shared fs ∧ j.TailZero fs) (ht : j.Assert i fs t ∧ j.Copied i fs t)
    (heff : j.Effect i fs t fs' t') :
    (j.Shared fs' ∧ j.TailZero fs') ∧ j.Copied i fs' t' := by
  refine ⟨⟨(heff.change hj).shared hs.1, ?_⟩, ?_⟩
  · by_cases hready : ∃ s, j.Ready fs s
    · obtain ⟨s, hr⟩ := hready
      intro hz x hx
      exact (effect_keeps hj hh hr heff).1 x (hs.2 hz x hx)
    · exact stage_tail hready (heff.change hj)
  · by_cases hready : ∃ s, j.Ready fs s
    · obtain ⟨s, hr⟩ := hready
      exact (effect_keeps hj hh hr heff).2 ht.2
    · -- nothing has been copied yet
      intro x h1 h2
      have hreach : t'.reached = share j.size * i := by
        cases heff with
        | silent h _ => rw [h, reached_early ht.1 hready]
        | stage _ _ h _ => exact h
        | copy hr => exact absurd ⟨_, hr⟩ hready
        | stray hr => exact absurd ⟨_, hr⟩ hready
      omega

/-- And what another one has copied. -/
theorem effect_content_other (hh : j.Harmless) {i k : Nat} {fs fs' : FileStore}
    {t t' u : Worker} (hik : i ≠ k) (hu : j.Assert k fs u ∧ j.Copied k fs u)
    (heff : j.Effect i fs t fs' t') : j.Assert k fs' u ∧ j.Copied k fs' u := by
  refine ⟨⟨hu.1.1, (heff.change hj).at hik hu.1.2⟩, fun x h1 h2 => ?_⟩
  by_cases hready : ∃ s, j.Ready fs s
  · obtain ⟨s, hr⟩ := hready
    exact (effect_keeps hj hh hr heff).1 x (hu.2 x h1 h2)
  · have := reached_early hu.1 hready
    omega

/-- **What has been copied stays right**, along every interleaving, when the conversion
    is harmless. -/
theorem content_sound (hh : j.Harmless) : j.pool.Sound Answer.Calm
    (fun fs => j.Shared fs ∧ j.TailZero fs) (fun i fs t => j.Assert i fs t ∧ j.Copied i fs t)
    where
  own := by
    rintro a i fs t fs' t' ha - hs ht h
    obtain ⟨heff, hassert⟩ := step_effect hj ha hs.1 ht.1 h
    obtain ⟨hs', hcop⟩ := effect_content hj hh hs ht heff
    exact ⟨hs', hassert, hcop⟩
  other := by
    rintro a i k fs t fs' t' u ha - hik hs ht hu h
    obtain ⟨heff, -⟩ := step_effect hj ha hs.1 ht.1 h
    exact effect_content_other hj hh hik hu heff

/-- When every worker has returned, the ranges cover the file. -/
theorem finished_target (hh : j.Harmless) {fs : FileStore} {ts : List Worker}
    (hinv : System.PoolInv (fun fs => j.Shared fs ∧ j.TailZero fs)
      (fun i fs t => j.Assert i fs t ∧ j.Copied i fs t) (fs, ts))
    (hlen : ts.length = THREADS_COUNT) (hfin : ∀ t ∈ ts, t.finished = true) :
    ∃ s, j.Ready fs s ∧ fs.data s = j.target := by
  obtain ⟨⟨-, htail⟩, hJ⟩ := hinv
  have hbig : 4096 * 4 < j.size := hj.1
  have hworker := fun i (hi : i < 4) =>
    finished_worker (fun i t ht => (hJ i t ht).1) hlen hfin (i := i) hi
  obtain ⟨-, -, -, -, -, -, ⟨s, hr⟩, -, -⟩ := hworker 0 (by decide)
  have hall : ∀ x, x < j.size + 4096 → j.Agrees fs x := by
    intro x hx
    by_cases hhead : x < 4096
    · -- the header
      intro s' hr'
      have h := congrArg (fun l : List UInt8 => l[x]?) hr'.head
      simp only [List.getElem?_take, if_pos hhead] at h
      rw [h, target, List.getElem?_append_left (by rw [header_length]; exact hhead)]
    · let q := x / 4096 - 1
      have hq : 4096 * (q + 1) ≤ x ∧ x < 4096 * (q + 2) := by omega
      have hcovered : ∀ i, i < 4 → share j.size * i ≤ q →
          (∀ c, (i < 3 → c = chunkAt j.size i (share j.size)) →
            (i = 3 → share j.size * 3 ≤ j.size / 4096 → j.size ≤ 4096 * c) → q < c) →
          j.Agrees fs x := by
        intro i hi hlow hup
        obtain ⟨t, ht, c, p, -, hreach, -, hc1, hc2⟩ := hworker i hi
        have := hup c (fun hi3 => (hc1 hi3).2) (fun hi3 => (hc2 hi3).2)
        exact (hJ i t ht).2 x (by omega) (by omega)
      have hchunk : ∀ i, chunkAt j.size i (share j.size) = share j.size * i
          + min (share j.size) (j.size / 4096 - share j.size * i) := fun _ => rfl
      have hpos := (share_bounds hj).1
      by_cases hlast : share j.size * 3 ≤ q
      · exact hcovered 3 (by decide) hlast (fun c _ hc => by
          have := hc rfl (by omega)
          omega)
      · by_cases hqN : q < j.size / 4096
        · -- a complete chunk in one of the first three ranges
          by_cases h1 : q < share j.size
          · exact hcovered 0 (by decide) (by omega) (fun c hc _ => by
              have := hc (by decide)
              have := hchunk 0
              omega)
          · by_cases h2 : q < share j.size * 2
            · exact hcovered 1 (by decide) (by omega) (fun c hc _ => by
                have := hc (by decide)
                have := hchunk 1
                omega)
            · exact hcovered 2 (by decide) (by omega) (fun c hc _ => by
                have := hc (by decide)
                have := hchunk 2
                omega)
        · -- the last chunk, of which no worker takes care
          rcases hh with h3 | ⟨m, hm⟩ | ⟨hz, -⟩
          · omega
          · omega
          · exact htail hz x (by omega)
  refine ⟨s, hr, ?_⟩
  apply List.ext_getElem?
  intro x
  by_cases hx : x < j.size + 4096
  · exact hall x hx s hr
  · rw [List.getElem?_eq_none (by rw [hr.length]; omega),
      List.getElem?_eq_none (by rw [target_length]; omega)]

end Content

/-! ## A run to the end, and what is missing then -/

/-- The place of the last chunk has not been written to. -/
def Untouched (j : Job) (fs : FileStore) : Prop :=
  ¬ share j.size * 3 ≤ j.size / 4096 → ∀ s, j.Ready fs s →
    ∀ x, 4096 * (j.size / 4096 + 1) ≤ x → x < j.size + 4096 → (fs.data s)[x]? = some 0

/-- The last chunk stands where the chunk before it belongs. -/
def Strayed (j : Job) (fs : FileStore) : Prop :=
  ∀ s, j.Ready fs s → ∀ y, y < j.size % 4096 →
    (fs.data s)[4096 * (j.size / 4096) + y]? = (j.chunk (j.size / 4096))[y]?

/-- Worker 2 has written the last chunk to the wrong place unless all its rounds so far
    have moved it on. -/
def Late (j : Job) (fs : FileStore) (t : Worker) : Prop :=
  ¬ share j.size * 3 ≤ j.size / 4096 →
    t.bsize + ((4096 * t.reached : Nat) : Int) = ((4096 * (share j.size * 3) : Nat) : Int) ∨
      t.reached = j.size / 4096 ∧ j.Strayed fs

/-- When worker 0 is past that part the new file is ready. -/
theorem ready_of_past {fs : FileStore} {t : Worker} (h : j.Assert 0 fs t)
    (hled : j.Led fs t) (hs : t.staging = false) : ∃ s, j.Ready fs s := by
  obtain ⟨number, offset, bsize, tsize, pc⟩ := t
  obtain ⟨-, hat⟩ := h
  cases pc with
  | start => cases hs
  | clear => cases hs
  | remove => cases hs
  | create => cases hs
  | truncate _ => cases hs
  | header _ => cases hs
  | waiting => exact hled rfl
  | probe => exact hled rfl
  | probeRead s => exact hled rfl
  | entered => exact hat
  | openOld => exact hat
  | openNew _ => exact hat.2
  | readChunk _ s => exact ⟨s, hat.2⟩
  | writeChunk _ s _ => exact ⟨s, hat.2⟩
  | readTail _ s => exact ⟨s, hat.2⟩
  | writeTail _ s _ => exact ⟨s, hat.2⟩
  | returned _ => exact hat

section Finish

include hj

theorem effect_untouched {i : Nat} {fs fs' : FileStore} {t t' : Worker}
    (hu : j.Untouched fs) (h : j.Effect i fs t fs' t') : j.Untouched fs' := by
  intro h3 s hr x h1 h2
  have hbig : 4096 * 4 < j.size := hj.1
  -- a write below the place
  have hwrite : ∀ {s' off : Nat} {buff : List UInt8}, j.Ready fs s' →
      j.Ready (fs.writeAt s' off buff) s → 4096 ≤ off →
      off + buff.length ≤ 4096 * (j.size / 4096 + 1) →
      ((fs.writeAt s' off buff).data s)[x]? = some 0 := by
    intro s' off buff hr' hrw hlow hup
    obtain rfl : s = s' := by
      have := (hr'.copied off buff hlow (by omega)).unique hrw.name
      exact this
    rw [FileStore.writeAt_data_self]
    by_cases hne : buff = []
    · rw [hne, overlay_nil]
      exact hu h3 s hr' x h1 h2
    · rw [overlay_get hne, if_neg (by omega), if_neg (by omega)]
      exact hu h3 s hr' x h1 h2
  cases h with
  | silent => exact hu h3 s hr x h1 h2
  | stage hno hc _ _ =>
      rw [stage_zeros hno hc hr, List.getElem?_append_right (by rw [header_length]; omega),
        header_length, zeroed, List.getElem?_replicate, if_pos (by omega)]
  | copy hr' _ hc hcase _ _ =>
      refine hwrite hr' hr (by omega) ?_
      rw [chunk_length]
      omega
  | stray hr' _ _ _ _ _ =>
      refine hwrite hr' hr (by omega) ?_
      rw [chunk_length]
      omega

/-- A step of worker 2 keeps the account of its rounds. -/
theorem effect_late {fs fs' : FileStore} {t t' : Worker} (hready : ∃ s, j.Ready fs s)
    (hl : j.Late fs t) (h : j.Effect 2 fs t fs' t') : j.Late fs' t' := by
  intro h3
  have hbig : 4096 * 4 < j.size := hj.1
  cases h with
  | silent hreach hbs =>
      rw [hreach, hbs]
      exact hl h3
  | stage hno => exact absurd hready hno
  | copy hr' hreach hc hcase hnext hbs =>
      have hbs := hbs (by decide)
      rcases hl h3 with hsum | ⟨hN, -⟩
      · left
        rw [hnext, hbs]
        rw [hreach] at hsum
        omega
      · omega
  | stray hr' hi hspan hreach hnext hbs =>
      rename_i s'
      right
      refine ⟨hnext, fun s hr y hy => ?_⟩
      obtain rfl : s = s' := by
        have hlen := chunk_length (j := j) (j.size / 4096)
        have := (hr'.copied (4096 * (j.size / 4096)) (j.chunk (j.size / 4096))
          (by omega) (by omega)).unique hr.name
        exact this
      have hlen := chunk_length (j := j) (j.size / 4096)
      have hne : j.chunk (j.size / 4096) ≠ [] := by
        intro hnil
        rw [hnil, List.length_nil] at hlen
        omega
      rw [FileStore.writeAt_data_self, overlay_get hne, if_neg (by omega), if_pos (by omega)]
      congr 1
      omega

/-! ### Draining the pool -/

omit hj in
/-- A thread in the part of worker 0 has not returned, nor come to its loop. -/
private theorem running_of_staging {t : Worker} (h : t.staging = true) :
    t.finished = false ∧ t.inLoop = false := by
  obtain ⟨number, offset, bsize, tsize, pc⟩ := t
  cases pc with
  | returned _ => cases h
  | waiting => cases h
  | probe => cases h
  | probeRead _ => cases h
  | _ => exact ⟨rfl, rfl⟩

omit hj in
/-- A thread that has returned does nothing. -/
theorem step_finished {a : Answer} {fs fs' : FileStore} {t t' : Worker}
    (h : t.finished = true) (hstep : j.pool.step a fs t = some (fs', t')) :
    fs' = fs ∧ t' = t := by
  obtain ⟨number, offset, bsize, tsize, pc⟩ := t
  cases pc with
  | returned p =>
      obtain ⟨rfl, rfl⟩ := Prod.mk.inj (Option.some.inj hstep)
      exact ⟨rfl, rfl⟩
  | _ => cases h

/-- The answer of a schedule: nothing fails, and every open gives descriptor `n`. -/
def Played (n : Nat) (a : Answer) : Prop := a = { who := a.who, hint := n }

omit hj in
theorem Played.calm {n : Nat} {a : Answer} (h : Played n a) : Answer.Calm a := by
  rw [h]
  exact ⟨rfl, rfl, rfl⟩

omit hj in
theorem Played.hint {n : Nat} {a : Answer} (h : Played n a) : a.hint = n := by
  rw [h]

/-- As long as worker 2 does not step it stays where it was started, and worker 0 does not
    come to its loop before the header. -/
private theorem held_sound {n : Nat} (hn : n ≠ 0) :
    j.pool.Sound (fun a => Played n a ∧ a.who ≠ 2)
    (fun fs => j.Shared fs ∧ j.Untouched fs)
    (fun i fs t => j.Assert i fs t ∧ (i = 0 → j.Led fs t) ∧
      (i = 2 → t = workerArgs j.size 2)) where
  own := by
    rintro a i fs t fs' t' ⟨ha, hwho⟩ hpick ⟨hs, hu⟩ ⟨ht, hled, -⟩ h
    obtain ⟨heff, hassert⟩ := step_effect hj ha.calm hs ht h
    refine ⟨⟨(heff.change hj).shared hs, effect_untouched hj hu heff⟩, hassert, ?_,
      fun hi => absurd (hpick.trans hi) hwho⟩
    rintro rfl
    exact step_led hj ha.calm (by rw [ha.hint]; exact hn) hs ht (hled rfl) h
  other := by
    rintro a i k fs t fs' t' u ⟨ha, -⟩ hpick hik ⟨hs, -⟩ ⟨ht, -⟩ ⟨hu, hled, hkeep⟩ h
    obtain ⟨heff, -⟩ := step_effect hj ha.calm hs ht h
    exact ⟨(base_sound hj).other ha.calm hpick hik hs ht hu h,
      fun hk hin => (hled hk hin).imp fun _ => (heff.change hj).ready, hkeep⟩

/-- The same once the new file is ready. -/
private theorem ready_sound {n : Nat} (hn : n ≠ 0) :
    j.pool.Sound (fun a => Played n a ∧ a.who ≠ 2)
    (fun fs => (j.Shared fs ∧ j.Untouched fs) ∧ ∃ s, j.Ready fs s)
    (fun i fs t => j.Assert i fs t ∧ (i = 0 → j.Led fs t) ∧
      (i = 2 → t = workerArgs j.size 2)) where
  own := by
    rintro a i fs t fs' t' ha hpick ⟨hs, s, hr⟩ ht h
    obtain ⟨hs', ht'⟩ := (held_sound hj hn).own ha hpick hs ht h
    obtain ⟨heff, -⟩ := step_effect hj ha.1.calm hs.1 ht.1 h
    exact ⟨⟨hs', s, (heff.change hj).ready hr⟩, ht'⟩
  other := by
    rintro a i k fs t fs' t' u ha hpick hik ⟨hs, -⟩ ht hu h
    exact (held_sound hj hn).other ha hpick hik hs ht hu h

/-- When the others have returned, worker 2 alone keeps its account. -/
private theorem alone_sound (n : Nat) : j.pool.Sound (Played n)
    (fun fs => (j.Shared fs ∧ j.Untouched fs) ∧ ∃ s, j.Ready fs s)
    (fun i fs t => j.Assert i fs t ∧ (i ≠ 2 → t.finished = true) ∧ (i = 2 → j.Late fs t))
    where
  own := by
    rintro a i fs t fs' t' ha hpick ⟨⟨hs, hu⟩, s, hr⟩ ⟨ht, hfin, hlate⟩ h
    obtain ⟨heff, hassert⟩ := step_effect hj ha.calm hs ht h
    refine ⟨⟨⟨(heff.change hj).shared hs, effect_untouched hj hu heff⟩, s,
      (heff.change hj).ready hr⟩, hassert, fun hi => ?_, ?_⟩
    · rw [(step_finished (hfin hi) h).2]
      exact hfin hi
    · rintro rfl
      exact effect_late hj ⟨s, hr⟩ (hlate rfl) heff
  other := by
    rintro a i k fs t fs' t' u ha hpick hik ⟨⟨hs, -⟩, -⟩ ⟨ht, hfin, -⟩ ⟨hu, hufin, hulate⟩ h
    refine ⟨(base_sound hj).other ha.calm hpick hik hs ht hu h, hufin, fun hk => ?_⟩
    -- the one that stepped had returned
    rw [(step_finished (hfin (fun hi => hik (hi.trans hk.symm))) h).1]
    exact hulate hk

/-- A calm step of worker `i` that brings it closer to its end. -/
private theorem drain_step {n : Nat} (hn : n ≠ 0) (hfit : Fits j.path) {i : Nat}
    {fs : FileStore} {t : Worker} (hs : j.Shared fs) (ht : j.Assert i fs t)
    (hled : j.Led fs t) (hrun : t.finished = false) :
    ∃ a fs' t', Played n a ∧ a.who = i ∧ j.pool.step a fs t = some (fs', t') ∧
      t'.remaining < t.remaining := by
  obtain ⟨fs', t', hstep, -, -, hgo⟩ := calm_step hj (a := { who := i, hint := n })
    ⟨rfl, rfl, rfl⟩ hs ht fun _ => hfit
  exact ⟨{ who := i, hint := n }, fs', t', rfl, rfl, hstep, (hgo hn hled).2 hrun⟩

/-- When the last range is empty, the order in which worker 2 comes last leaves a file
    that is the target only for a harmless content. -/
private theorem harmless_of_target {fs : FileStore} {ts : List Worker}
    (hinv : System.PoolInv (fun fs => (j.Shared fs ∧ j.Untouched fs) ∧ ∃ s, j.Ready fs s)
      (fun i fs t => j.Assert i fs t ∧ (i ≠ 2 → t.finished = true) ∧ (i = 2 → j.Late fs t))
      (fs, ts)) (hlen : ts.length = THREADS_COUNT) (hfin : ∀ t ∈ ts, t.finished = true)
    {s : Nat} (hr : j.Ready fs s) (htarget : fs.data s = j.target) : j.Harmless := by
  obtain ⟨⟨⟨-, hu⟩, -⟩, hJ⟩ := hinv
  have hbig : 4096 * 4 < j.size := hj.1
  by_cases h3 : share j.size * 3 ≤ j.size / 4096
  · exact .inl h3
  · have hassert : ∀ i t, ts[i]? = some t → j.Assert i fs t := fun i t ht => (hJ i t ht).1
    obtain ⟨t, ht, c, -, -, hreach, -, hc, -⟩ :=
      finished_worker hassert hlen hfin (i := 2) (by decide)
    obtain ⟨hb, hc⟩ := hc (by decide)
    have hN : c = j.size / 4096 := by
      have htwo := share_two hj
      rw [hc, chunkAt]
      omega
    have hstray : j.Strayed fs := by
      rcases (hJ 2 t ht).2.2 rfl h3 with hsum | ⟨-, hstray⟩
      · -- its rounds have used up its range
        omega
      · exact hstray
    have himage : ∀ x, (fs.data s)[4096 + x]? = j.image[x]? := by
      intro x
      rw [htarget, target, List.getElem?_append_right (by rw [header_length]; omega),
        header_length, Nat.add_sub_cancel_left]
    have hlen := chunk_length (j := j) (j.size / 4096)
    have hlast : ∀ y, y < j.size % 4096 →
        (j.chunk (j.size / 4096))[y]? = some 0 ∧
          (j.chunk (j.size / 4096 - 1))[y]? = some 0 := by
      intro y hy
      have hzero : (j.chunk (j.size / 4096))[y]? = some 0 := by
        rw [chunk, slice_get, if_pos (by omega), ← himage]
        exact hu h3 s hr _ (by omega) (by omega)
      refine ⟨hzero, ?_⟩
      rw [chunk, slice_get, if_pos (by omega), ← himage, ← hzero, ← hstray s hr y hy]
      congr 1
      omega
    refine .inr (.inr ⟨?_, ?_⟩)
    all_goals
      apply List.ext_getElem?
      intro y
      rw [zeroed, List.getElem?_replicate]
    · by_cases hy : y < j.size % 4096
      · rw [if_pos hy, (hlast y hy).1]
      · rw [if_neg hy, List.getElem?_eq_none (by omega)]
    · rw [List.getElem?_take]
      by_cases hy : y < j.size % 4096
      · rw [if_pos hy, if_pos hy, (hlast y hy).2]
      · rw [if_neg hy, if_neg hy]

/-- **A run to the end** that leaves the target only when the conversion is harmless:
    worker 0 prepares the new file, the others finish, worker 2 comes last. -/
theorem exists_finish {n : Nat} (hn : n ≠ 0) (hfit : Fits j.path) {fs : FileStore}
    (hname : fs.names j.path = some j.old)
    (hdata : fs.data j.old = j.plain) (hnone : fs.names j.newPath = none) :
    ∃ as fs' ts, (∀ a ∈ as, Played n a) ∧
      j.pool.poolRun as (fs, allWorkers j.size) = some (fs', ts) ∧
      (∀ t ∈ ts, t.finished = true) ∧
      ∀ s, j.Ready fs' s → fs'.data s = j.target → j.Harmless := by
  obtain ⟨hs, hJ⟩ := base_init hj hname hdata hnone
  have hstart : System.PoolInv (fun fs => j.Shared fs ∧ j.Untouched fs)
      (fun i fs t => j.Assert i fs t ∧ (i = 0 → j.Led fs t) ∧
        (i = 2 → t = workerArgs j.size 2))
      (fs, allWorkers j.size) := by
    refine ⟨⟨hs, fun _ s hr => by cases hnone.symm.trans hr.name⟩,
      fun i t ht => ⟨hJ i t ht, ?_, ?_⟩⟩
    · rintro rfl
      obtain rfl := Option.some.inj ht
      exact led_outside rfl
    · rintro rfl
      exact (Option.some.inj ht).symm
  -- worker 0 up to the header
  obtain ⟨as₁, ⟨fs₁, ts₁⟩, hok₁, hrun₁, ⟨hs₁, hJ₁⟩, hstop₁⟩ := System.exists_drain
    (held_sound hj hn) (fun t => t.number ≠ 0 ∨ t.staging = false) Worker.remaining
    (by
      rintro i fs t ⟨hs, -⟩ ⟨ht, -⟩ hgo
      have hnum : t.number = i := ht.1.2.1
      have hi : i = 0 := by
        by_contra hne
        exact hgo (.inl (fun h => hne (hnum.symm.trans h)))
      have hstage : t.staging = true := by
        by_contra hne
        exact hgo (.inr (by simpa using hne))
      obtain ⟨hrunning, hout⟩ := running_of_staging hstage
      obtain ⟨a, fs', t', ha, hwho, hstep, hlt⟩ :=
        drain_step hj hn hfit hs ht (led_outside hout) hrunning
      exact ⟨a, fs', t', ⟨ha, by omega⟩, hwho, hstep, hlt⟩) _ _ (Nat.le_refl _) hstart
  have hlen₁ : ts₁.length = THREADS_COUNT := System.poolRun_length _ as₁ hrun₁
  have hready₁ : ∃ s, j.Ready fs₁ s := by
    have h0 : 0 < ts₁.length := by
      rw [hlen₁]
      decide
    obtain ⟨hassert, hled, -⟩ := hJ₁ 0 ts₁[0] (List.getElem?_eq_getElem h0)
    rcases hstop₁ ts₁[0] (List.getElem_mem h0) with hne | hpast
    · exact absurd hassert.1.2.1 hne
    · exact ready_of_past hassert (hled rfl) hpast
  -- the others but worker 2
  obtain ⟨as₂, ⟨fs₂, ts₂⟩, hok₂, hrun₂, ⟨hs₂, hJ₂⟩, hstop₂⟩ := System.exists_drain
    (ready_sound hj hn) (fun t => t.finished = true ∨ t.number = 2) Worker.remaining
    (by
      rintro i fs t ⟨⟨hs, -⟩, hready⟩ ⟨ht, -⟩ hgo
      have hnum : t.number = i := ht.1.2.1
      have hi : i ≠ 2 := fun h => hgo (.inr (hnum.trans h))
      have hrunning : t.finished = false := by
        by_contra hne
        exact hgo (.inl (by simpa using hne))
      obtain ⟨a, fs', t', ha, hwho, hstep, hlt⟩ :=
        drain_step hj hn hfit hs ht (fun _ => hready) hrunning
      exact ⟨a, fs', t', ⟨ha, by omega⟩, hwho, hstep, hlt⟩) _ (fs₁, ts₁) (Nat.le_refl _)
    ⟨⟨hs₁, hready₁⟩, hJ₁⟩
  have hlen₂ : ts₂.length = THREADS_COUNT :=
    (System.poolRun_length _ as₂ hrun₂).trans hlen₁
  have hlate : System.PoolInv
      (fun fs => (j.Shared fs ∧ j.Untouched fs) ∧ ∃ s, j.Ready fs s)
      (fun i fs t => j.Assert i fs t ∧ (i ≠ 2 → t.finished = true) ∧ (i = 2 → j.Late fs t))
      (fs₂, ts₂) := by
    refine ⟨hs₂, fun i t ht => ⟨(hJ₂ i t ht).1, fun hi => ?_, fun hi _ => .inl ?_⟩⟩
    · rcases hstop₂ t (List.mem_of_getElem? ht) with hdone | hnum
      · exact hdone
      · exact absurd ((hJ₂ i t ht).1.1.2.1.symm.trans hnum) hi
    · rw [(hJ₂ i t ht).2.2 hi, workerArgs_eq hj (by decide)]
      show rangeOf j.size 2 + ((4096 * (Int.toNat ((4096 * (share j.size * 2) : Nat) : Int)
        / 4096) : Nat) : Int) = _
      rw [rangeOf, if_pos (by decide), Int.toNat_natCast]
      omega
  -- worker 2
  obtain ⟨as₃, ⟨fs₃, ts₃⟩, hok₃, hrun₃, hinv₃, hstop₃⟩ := System.exists_drain
    (alone_sound hj n) (fun t => t.finished = true) Worker.remaining
    (by
      rintro i fs t ⟨⟨hs, -⟩, hready⟩ ⟨ht, -⟩ hgo
      exact drain_step hj hn hfit hs ht (fun _ => hready) (by simpa using hgo)) _ (fs₂, ts₂)
    (Nat.le_refl _) hlate
  refine ⟨as₁ ++ (as₂ ++ as₃), fs₃, ts₃, ?_, ?_, hstop₃, fun s hr htarget => ?_⟩
  · intro a ha
    rcases List.mem_append.mp ha with ha | ha
    · exact (hok₁ a ha).1
    · rcases List.mem_append.mp ha with ha | ha
      · exact (hok₂ a ha).1
      · exact hok₃ a ha
  · rw [System.poolRun_append, hrun₁, Option.bind_some, System.poolRun_append, hrun₂,
      Option.bind_some]
    exact hrun₃
  · exact harmless_of_target hj hinv₃ ((System.poolRun_length _ as₃ hrun₃).trans hlen₂)
      hstop₃ hr htarget

end Finish

end Job

end TeWorker
