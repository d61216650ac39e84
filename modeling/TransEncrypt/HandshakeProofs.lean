import TransEncrypt.ConversionProofs

/-! # The start-up handshake of the workers

    The workers agree on the new file only by polling: each waits until a file with a
    header can be seen under `<path>.s`, and worker 0 is the one that puts it there.

    * `prepares`, `opensTarget`, `target`: the steps that prepare the new file, open it
      for the data, and write data into it; `step_files` says that there are no others;
    * `past_of_ready`: once the new file is ready no preparing step is left;
    * `handshake`: in every interleaving no data comes before the finished header, and
      nothing that comes after takes the file or its header away. -/

namespace TeHandshake

open Posix Overlay Interleave TeHeader TeProgram TeDetector TeWorker

/-! ## The kinds of steps -/

/-- The next step removes the old `<path>.s`, creates the new one, gives it its length, or
    writes its header. -/
def prepares (t : Worker) : Bool :=
  match t.pc with
  | .remove | .create | .truncate _ | .header _ => true
  | _ => false

/-- The next step opens the new file for the data. -/
def opensTarget (t : Worker) : Bool :=
  match t.pc with
  | .openNew _ => true
  | _ => false

/-- The file into which the next step writes encrypted data. -/
def target (t : Worker) : Option Nat :=
  match t.pc with
  | .writeChunk _ nfd _ | .writeTail _ nfd _ => some nfd
  | _ => none

/-- No other step changes a file. -/
theorem step_files {dev : Device} {path : Path} {a : Answer} {fs fs' : FileStore}
    {t t' : Worker} (hprep : prepares t = false) (htarget : target t = none)
    (h : Worker.step dev path a fs t = some (fs', t')) : fs' = fs := by
  obtain ⟨number, offset, bsize, tsize, pc⟩ := t
  cases pc with
  | remove => cases hprep
  | create => cases hprep
  | truncate _ => cases hprep
  | header _ => cases hprep
  | writeChunk _ _ _ => cases htarget
  | writeTail _ _ _ => cases htarget
  | _ =>
      simp only [Worker.step] at h
      repeat' split at h
      all_goals first
        | exact (Prod.mk.inj (Option.some.inj h)).1.symm
        | cases h

section Handshake

variable {j : Job}

/-! ## What the assertions say of them -/

/-- A thread that opens the new file has seen it ready. -/
theorem ready_of_opens {i : Nat} {fs : FileStore} {t : Worker} (h : j.Assert i fs t)
    (ho : opensTarget t = true) : ∃ s, j.Ready fs s := by
  obtain ⟨number, offset, bsize, tsize, pc⟩ := t
  cases pc with
  | openNew o => exact h.2.2
  | _ => cases ho

/-- A thread that writes data writes it behind the header of the file that is ready. -/
theorem ready_of_target (hj : InRange j.size) {i s : Nat} {fs : FileStore} {t : Worker}
    (h : j.Assert i fs t) (ht : target t = some s) : j.Ready fs s ∧ 4096 ≤ t.offset := by
  have hbig : 4096 * 4 < j.size := hj.1
  obtain ⟨number, offset, bsize, tsize, pc⟩ := t
  obtain ⟨⟨-, -, -, hloc⟩, hat⟩ := h
  cases pc with
  | writeChunk o n buff =>
      obtain rfl : n = s := Option.some.inj ht
      obtain ⟨r, -, -, hcase⟩ := hloc
      refine ⟨hat.2, ?_⟩
      show 4096 ≤ offset
      rcases hcase with ⟨-, hr⟩ | ⟨hpast, hr⟩
      · have : offset - 4096 = ((4096 * chunkAt j.size i r : Nat) : Int) := hr.offset
        omega
      · -- behind the end of the plain file the offset is not moved
        have : offset = ((4096 * chunkAt j.size i r : Nat) : Int) := hr.offset
        omega
  | writeTail o n buff =>
      obtain rfl : n = s := Option.some.inj ht
      obtain ⟨-, r, hr, -⟩ := hloc
      refine ⟨hat.2, ?_⟩
      show 4096 ≤ offset
      have : offset - 4096 = ((4096 * chunkAt j.size i r : Nat) : Int) := hr.offset
      omega
  | _ => cases ht

/-- Once the new file is ready, nobody is left who would prepare it. -/
theorem past_of_ready {i s : Nat} {fs : FileStore} {t : Worker} (hr : j.Ready fs s)
    (h : j.Assert i fs t) : prepares t = false := by
  obtain ⟨number, offset, bsize, tsize, pc⟩ := t
  obtain ⟨-, hat⟩ := h
  cases pc with
  | remove => exact hat.elim
  | create => cases hat.2.symm.trans hr.name
  | truncate s' =>
      obtain ⟨-, hname, -, hnil⟩ := hat
      obtain rfl := hr.unique hname
      have := hr.length
      rw [hnil, List.length_nil] at this
      omega
  | header s' =>
      obtain ⟨-, hname, -, hzero⟩ := hat
      exact (Job.header_ne_zeroed hr hname hzero).elim
  | _ => rfl

/-- And it stays ready, in every interleaving. -/
theorem ready_sound (hj : InRange j.size) (s : Nat) :
    j.pool.Sound Answer.Calm (fun fs => j.Shared fs ∧ j.Ready fs s) j.Assert where
  own := by
    rintro a i fs t fs' t' ha - ⟨hs, hr⟩ ht h
    obtain ⟨heff, hassert⟩ := Job.step_effect hj ha hs ht h
    exact ⟨⟨(heff.change hj).shared hs, (heff.change hj).ready hr⟩, hassert⟩
  other := by
    rintro a i k fs t fs' t' u ha hpick hik ⟨hs, -⟩ ht hu h
    exact (Job.base_sound hj).other ha hpick hik hs ht hu h

/-! ## Every interleaving -/

variable {fs : FileStore} (hj : InRange j.size) (hname : fs.names j.path = some j.old)
  (hdata : fs.data j.old = j.plain) (hnone : fs.names j.newPath = none)
include hj hname hdata hnone

/-- **The handshake.**  Four workers are started without a file `<path>.s`, and the first
    part `as₁` of any interleaving, without failing or short calls, leads to `c₁`.
    * A worker that opens the new file there for its data finds it ready: created, sized,
      and with its header.
    * A worker that writes data there writes it behind the header of that file.  In every
      later state the file has its name, its length and its header, no preparing step is
      left, and the rename will give it the plain file's name.
    * When all have returned there is such a file. -/
theorem handshake {as₁ as₂ : List Answer} {c₁ c₂ : FileStore × List Worker}
    (hok₁ : ∀ a ∈ as₁, Answer.Calm a) (hok₂ : ∀ a ∈ as₂, Answer.Calm a)
    (hrun₁ : j.pool.poolRun as₁ (fs, allWorkers j.size) = some c₁)
    (hrun₂ : j.pool.poolRun as₂ c₁ = some c₂) :
    (∀ t ∈ c₁.2, opensTarget t = true →
      ∃ s, j.Ready c₁.1 s ∧ typeOf (c₁.1.data s) = FILE_TYPE_RIGHTS) ∧
    (∀ t ∈ c₁.2, ∀ s, target t = some s → j.Ready c₁.1 s ∧ 4096 ≤ t.offset ∧
      j.Ready c₂.1 s ∧ (∀ u ∈ c₂.2, prepares u = false) ∧
      (c₂.1.rename j.newPath j.path).names j.path = some s) ∧
    ((∀ t ∈ c₁.2, t.finished = true) → ∃ s, j.Ready c₁.1 s) := by
  obtain ⟨hs₁, hJ₁⟩ := (Job.base_sound hj).run as₁ hok₁ (Job.base_init hj hname hdata hnone) hrun₁
  refine ⟨fun t ht ho => ?_, fun t ht s htarget => ?_, fun hfin => ?_⟩
  · obtain ⟨i, hi⟩ := List.getElem?_of_mem ht
    obtain ⟨s, hr⟩ := ready_of_opens (hJ₁ i t hi) ho
    exact ⟨s, hr, Job.typeOf_head hr.head⟩
  · obtain ⟨i, hi⟩ := List.getElem?_of_mem ht
    obtain ⟨hr, hoff⟩ := ready_of_target hj (hJ₁ i t hi) htarget
    -- from here on the file is ready
    obtain ⟨⟨-, hr₂⟩, hJ₂⟩ := (ready_sound hj s).run as₂ hok₂ ⟨⟨hs₁, hr⟩, hJ₁⟩ hrun₂
    refine ⟨hr, hoff, hr₂, fun u hu => ?_, FileStore.rename_names_to _ hr₂.name⟩
    obtain ⟨k, hk⟩ := List.getElem?_of_mem hu
    exact past_of_ready hr₂ (hJ₂ k u hk)
  · have hlen : c₁.2.length = THREADS_COUNT := System.poolRun_length _ as₁ hrun₁
    obtain ⟨-, -, -, -, -, -, hready, -⟩ := Job.finished_worker hJ₁ hlen hfin (i := 0) (by decide)
    exact hready

end Handshake

/-- A file of 16385 bytes 7. -/
def sevensJob : Job := ⟨aDevice, Kernel.aName, List.replicate 16385 7, 1⟩

/-- An interleaving in which all its workers return. -/
theorem handshake_16385 : ∃ as c, (∀ a ∈ as, Answer.Calm a) ∧
    sevensJob.pool.poolRun as (Kernel.oneFile sevensJob.plain, allWorkers sevensJob.size) = some c ∧
    ∃ s, sevensJob.Ready c.1 s := by
  have hsize : sevensJob.size = 16385 := List.length_replicate
  have hj : InRange sevensJob.size := by
    rw [hsize]
    exact ⟨by decide, by decide⟩
  have hname : (Kernel.oneFile sevensJob.plain).names sevensJob.path = some sevensJob.old := rfl
  have hdata : (Kernel.oneFile sevensJob.plain).data sevensJob.old = sevensJob.plain := rfl
  have hnone : (Kernel.oneFile sevensJob.plain).names sevensJob.newPath = none := rfl
  obtain ⟨as, fs', ts, hplayed, hrun, hfin, -⟩ :=
    Job.exists_finish hj (n := 3) (by decide) (by decide) hname hdata hnone
  have hok : ∀ a ∈ as, Answer.Calm a := fun a ha => (hplayed a ha).calm
  have hnil : ∀ a ∈ ([] : List Answer), Answer.Calm a := fun _ ha => by cases ha
  have hstay : sevensJob.pool.poolRun [] (fs', ts) = some (fs', ts) := rfl
  exact ⟨as, (fs', ts), hok, hrun, (handshake hj hname hdata hnone hok hnil hrun hstay).2.2 hfin⟩

end TeHandshake
