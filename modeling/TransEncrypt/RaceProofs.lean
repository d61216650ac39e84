import TransEncrypt.OpenerProofs

/-! # Concurrent opens of a plain file — is it encrypted twice?

    A caller decides from a header and from `<path>.s` that a file is plain, and converts
    it some calls later.  When the decision is stale by then, the conversion is applied
    to what another caller has made of the file.

    * `Timely`: whoever asks for the size, or reads the file for its conversion, finds it
      as it was at first, and a large file is not being converted by another caller;
    * `open_race`: along every interleaving whose steps are timely the file is encrypted
      once;
    * `encrypted_twice`: an interleaving that encrypts it twice. -/

namespace TeRace

open Posix Overlay TeHeader TeProgram TeDetector TeStored TeWorker TeRebuild TeOpener Interleave

/-- The caller is about to ask for the size or to read the file for its conversion. -/
def acting (o : Opener) : Bool :=
  match o.stage with
  | .size | .bufferRead _ _ => true
  | _ => false

/-- The next step succeeds, and is not taken on a decision that has become stale: the file
    `path` still holds `C`, and at the start of a conversion by workers no other is under
    way. -/
def Timely (path : Path) (C : List UInt8) (c : Choice) (s : FileStore × List Opener) : Prop :=
  Answer.Calm c.answer ∧ ∀ o, s.2[c.caller]? = some o →
    (acting o = true → s.1.content path = some C) ∧
    (o.stage = .size → 4096 * THREADS_COUNT < C.length → ∀ o' ∈ s.2, o'.converting = false)

/-! ## What one caller does while the others pause -/

section Alone

variable {dev : Device} {path : Path} {C : List UInt8} {fs : FileStore} {os : List Opener}
  {k : Nat} {c : FileStore × List Opener} (hk : k < os.length)
include hk

/-- A step of one caller that is not acting. -/
theorem next_idle {o o' : Opener} {fs' : FileStore}
    (h : (openers dev path).Run (Timely path C) c (fs, os.set k o)) (ho : acting o = false)
    (hstep : Opener.step dev path {} fs o = some (fs', o')) :
    (openers dev path).Run (Timely path C) c (fs', os.set k o') := by
  refine h.next hk (a := Choice.mk k {}) ⟨⟨rfl, rfl, rfl⟩, fun u hu => ?_⟩ rfl hstep
  obtain rfl : o = u := Option.some.inj ((List.getElem?_set_self hk).symm.trans hu)
  refine ⟨fun hact => absurd (ho.symm.trans hact) (by decide), fun hsize => ?_⟩
  rw [acting, hsize] at ho
  cases ho

/-- And of one that acts on a small file. -/
theorem next_acting {o o' : Opener} {fs' : FileStore}
    (h : (openers dev path).Run (Timely path C) c (fs, os.set k o))
    (hsmall : C.length ≤ 4096 * THREADS_COUNT) (hC : fs.content path = some C)
    (hstep : Opener.step dev path {} fs o = some (fs', o')) :
    (openers dev path).Run (Timely path C) c (fs', os.set k o') :=
  h.next hk (a := Choice.mk k {}) ⟨⟨rfl, rfl, rfl⟩, fun _ _ => ⟨fun _ => hC,
    fun _ hbig => absurd hsmall (Nat.not_le.mpr hbig)⟩⟩ rfl hstep

variable {i : Nat} {D : List UInt8} {flags : Flags} (hname : fs.names path = some i)
  (hdata : fs.data i = D) (hx : (flags.creat && flags.excl) = false)
  (ht : flags.trunc = false)
include hname hdata hx ht

variable (dev C os k)

private theorem probes :
    (openers dev path).Run (Timely path C) (fs, os.set k (.start flags))
      (fs, os.set k ⟨flags, if decide (HasHeader D) then .returned true else .check⟩) := by
  have h₁ : (openers dev path).Run (Timely path C) (fs, os.set k (.start flags))
      (fs, os.set k ⟨flags, .probeOpen⟩) :=
    next_idle hk .refl rfl (Opener.step_start ⟨rfl, rfl, rfl⟩ hname)
  have h₂ := next_idle hk h₁ rfl (Opener.step_probeOpen ⟨rfl, rfl, rfl⟩ hname)
  have h₃ := next_idle hk h₂ rfl (Opener.step_probeRead ⟨rfl, rfl, rfl⟩ hdata)
  exact next_idle hk h₃ rfl (Opener.step_realOpen ⟨rfl, rfl, rfl⟩ hname hx ht _)

/-- An encrypted file is found to be one. -/
theorem finds (hH : HasHeader D) :
    (openers dev path).Run (Timely path C) (fs, os.set k (.start flags))
      (fs, os.set k ⟨flags, .returned true⟩) := by
  have h := probes dev C os k hk hname hdata hx ht
  rw [decide_eq_true hH] at h
  exact h

/-- The decision to convert a file. -/
theorem decides (hfit : Fits path) (hplain : ¬ HasHeader D)
    (hnone : fs.names (get_security_path_by_path path) = none) :
    (openers dev path).Run (Timely path C) (fs, os.set k (.start flags))
      (fs, os.set k ⟨flags, .size⟩) := by
  have h := probes dev C os k hk hname hdata hx ht
  rw [decide_eq_false hplain] at h
  exact next_idle hk h rfl (Opener.step_check_none hfit hnone)

/-- And its conversion, whatever it holds by then. -/
theorem converts (hpath : path ≠ []) (hne : D ≠ []) (hsmall : D.length ≤ 4096 * THREADS_COUNT) :
    (openers dev path).Run (Timely path D) (fs, os.set k ⟨flags, .size⟩)
      (fs.store i (converted dev D), os.set k ⟨flags, .returned true⟩) := by
  have hC : fs.content path = some D := by
    rw [fs.content_of_names hname, hdata]
  have hbranch : Opener.rebuild path D.length = .bufferOpen D.length := by
    rw [Opener.rebuild, if_neg hpath, if_pos (List.length_pos_iff.mpr hne), if_pos hsmall]
  have hwrite : fs.writeAt i 0 (converted dev D) = fs.store i (converted dev D) := by
    rw [FileStore.writeAt, hdata, overlay_all 0 (by rw [converted_length]; omega)]
  have h₁ : (openers dev path).Run (Timely path D) (fs, os.set k ⟨flags, .size⟩)
      (fs, os.set k ⟨flags, Opener.rebuild path D.length⟩) :=
    next_acting hk .refl hsmall hC (Opener.step_size ⟨rfl, rfl, rfl⟩ hC)
  rw [hbranch] at h₁
  have h₂ := next_idle hk h₁ rfl (Opener.step_bufferOpen ⟨rfl, rfl, rfl⟩ hname _)
  have h₃ := next_acting hk h₂ hsmall hC (Opener.step_bufferRead ⟨rfl, rfl, rfl⟩ hdata)
  have h₄ := next_idle hk h₃ rfl (Opener.step_bufferWrite ⟨rfl, rfl, rfl⟩ _)
  rw [hwrite] at h₄
  exact next_idle hk h₄ rfl (Opener.step_reopen ⟨rfl, rfl, rfl⟩ hname hx ht)

end Alone

/-! ## The invariant -/

/-- How far the conversion has come, by any caller: not begun, under way by the workers of
    the caller `k`, done. -/
inductive Phase where
  | before
  | during (k : Nat)
  | after

/-- The files in each phase.  A small file is converted in place. -/
def Files (j : Job) (fs : FileStore) : Phase → Prop
  | .before => fs.names j.path = some j.old ∧ fs.data j.old = j.plain ∧
      fs.names j.newPath = none
  | .during _ => j.Shared fs ∧ InRange j.size
  | .after => ∃ s, fs.names j.path = some s ∧ fs.data s = j.target ∧
      fs.names j.newPath = none ∧ (j.size ≤ 4096 * THREADS_COUNT → s = j.old)

/-- What is known of the running workers. -/
def Working (j : Job) (fs : FileStore) (ts : List Worker) : Prop :=
  ts.length = THREADS_COUNT ∧ System.PoolInv (fun fs => j.Shared fs ∧ j.TailZero fs)
    (fun i fs t => j.Assert i fs t ∧ j.Copied i fs t) (fs, ts)

/-- What is known of the caller `k`, by its stage. -/
def Stands (j : Job) (p : Phase) (k : Nat) (fs : FileStore) (o : Opener) : Prop :=
  match o.stage with
  | .start | .probeOpen | .check | .size => True
  | .probeRead fd => p ≠ .after → fd = j.old
  | .realOpen existed header => existed = true ∧ (header = true → p = .after)
  | .writeHeader _ => False
  | .bufferOpen size => size = j.size ∧ j.size ≤ 4096 * THREADS_COUNT
  | .bufferRead size fd => size = j.size ∧ j.size ≤ 4096 * THREADS_COUNT ∧ fd = j.old
  | .bufferWrite fd buffer => j.size ≤ 4096 * THREADS_COUNT ∧ fd = j.old ∧ buffer = j.target
  | .joining ts => p = .during k ∧ Working j fs ts
  | .rename => p = .during k ∧ ∃ s, j.Ready fs s ∧ fs.data s = j.target
  | .reopen => p = .after
  | .returned _ => (o.flags.creat && o.flags.excl) = false → p ≠ .before

/-- What a step of the caller `k` does to phase and files. -/
inductive Move (k : Nat) : Phase → FileStore → Phase → FileStore → Prop where
  | stay {p : Phase} {fs : FileStore} : Move k p fs p fs
  | begin {fs : FileStore} : Move k .before fs (.during k) fs
  | work {fs fs' : FileStore} : Move k (.during k) fs (.during k) fs'
  | finish {p : Phase} {fs fs' : FileStore} : (∀ i, i ≠ k → p ≠ .during i) →
      Move k p fs .after fs'

namespace Move

variable {j : Job} {k i : Nat} {p p' : Phase} {fs fs' : FileStore}

theorem done (hm : Move k p fs p' fs') (h : p = .after) : p' = .after := by
  cases hm with
  | stay => exact h
  | begin => cases h
  | work => cases h
  | finish => rfl

theorem begun (hm : Move k p fs p' fs') (h : p ≠ .before) : p' ≠ .before := by
  cases hm with
  | stay => exact h
  | begin => exact absurd rfl h
  | work => exact h
  | finish => exact fun hp => by cases hp

/-- The workers of another caller are left alone. -/
theorem other (hm : Move k p fs p' fs') (hi : i ≠ k) (h : p = .during i) :
    p' = .during i ∧ fs' = fs := by
  cases hm with
  | stay => exact ⟨h, rfl⟩
  | begin => cases h
  | work => exact absurd (Phase.during.inj h).symm hi
  | finish hfree => exact absurd h (hfree i hi)

/-- And no other caller's are started. -/
theorem mine (hm : Move k p fs p' fs') (hi : i ≠ k) (h : p' = .during i) : p = .during i := by
  cases hm with
  | stay => exact h
  | begin => exact absurd (Phase.during.inj h).symm hi
  | work => exact absurd (Phase.during.inj h).symm hi
  | finish => cases h

/-- A step of one caller disturbs no other one. -/
theorem stands (hm : Move k p fs p' fs') (hi : i ≠ k) {o : Opener} (h : Stands j p i fs o) :
    Stands j p' i fs' o := by
  obtain ⟨flags, stage⟩ := o
  cases stage with
  | start => trivial
  | probeOpen => trivial
  | probeRead fd => exact fun hp => h fun hdone => hp (hm.done hdone)
  | realOpen existed header => exact ⟨h.1, fun hh => hm.done (h.2 hh)⟩
  | writeHeader fd => exact h
  | check => trivial
  | size => trivial
  | bufferOpen size => exact h
  | bufferRead size fd => exact h
  | bufferWrite fd buffer => exact h
  | joining ts =>
      obtain ⟨hp', rfl⟩ := hm.other hi h.1
      exact ⟨hp', h.2⟩
  | rename =>
      obtain ⟨hp', rfl⟩ := hm.other hi h.1
      exact ⟨hp', h.2⟩
  | reopen => exact hm.done h
  | returned given => exact fun hx => hm.begun (h hx)

end Move

/-! ## One step -/

section Step

variable {j : Job} {a : Answer} {k : Nat} {p : Phase} {fs fs' : FileStore} {o o' : Opener}

/-- In every phase the path names a file, and it is the plain one until the end. -/
theorem Files.named (hf : Files j fs p) : ∃ s, fs.names j.path = some s ∧
    (p ≠ .after → s = j.old ∧ fs.data s = j.plain) ∧
    (j.size ≤ 4096 * THREADS_COUNT → s = j.old) := by
  cases p with
  | before => exact ⟨j.old, hf.1, fun _ => ⟨rfl, hf.2.1⟩, fun _ => rfl⟩
  | during i => exact ⟨j.old, hf.1.name, fun _ => ⟨rfl, hf.1.data⟩, fun _ => rfl⟩
  | after =>
      obtain ⟨s, hs, -, -, hold⟩ := hf
      exact ⟨s, hs, fun hp => absurd rfl hp, hold⟩

/-- Where it still holds what it did, the conversion is not done. -/
theorem Files.unfinished (hf : Files j fs p) (hC : fs.content j.path = some j.plain) :
    p ≠ .after := by
  rintro rfl
  obtain ⟨s, hs, hdata, -⟩ := hf
  rw [fs.content_of_names hs, hdata] at hC
  have hlen := congrArg List.length (Option.some.inj hC)
  rw [Job.target_length, Job.size] at hlen
  omega

/-- `<path>.s` is there only during a conversion by workers. -/
theorem Files.gone (hf : Files j fs p) (hp : ∀ i, p ≠ .during i) :
    fs.names j.newPath = none := by
  cases p with
  | before => exact hf.2.2
  | during i => exact absurd rfl (hp i)
  | after =>
      obtain ⟨s, -, -, hnone, -⟩ := hf
      exact hnone

/-- After a step of the caller `k`: the phase, the files and the caller. -/
def Stepped (j : Job) (p : Phase) (k : Nat) (fs fs' : FileStore) (o o' : Opener) : Prop :=
  o'.flags = o.flags ∧ ∃ p', Move k p fs p' fs' ∧ Files j fs' p' ∧ Stands j p' k fs' o' ∧
    (p' = .during k → o'.converting = true)

/-- A plain file that is small, or whose conversion by workers is harmless. -/
structure Plain (j : Job) : Prop where
  path : j.path ≠ []
  content : j.plain ≠ []
  header : ¬ HasHeader j.plain
  size : j.size ≤ 4096 * THREADS_COUNT ∨ InRange j.size ∧ j.Harmless

variable (hj : Plain j) (ha : Answer.Calm a) {flags : Flags}

/-- A step after which phase and files are what they were. -/
theorem Stepped.stay (hf : Files j fs p) {stage stage' : Stage}
    (hown : p = .during k → (Opener.mk flags stage).converting = true)
    (hidle : (Opener.mk flags stage).converting = false)
    (hs : Stands j p k fs ⟨flags, stage'⟩) :
    Stepped j p k fs fs ⟨flags, stage⟩ ⟨flags, stage'⟩ :=
  ⟨rfl, p, .stay, hf, hs, fun hp => absurd ((hown hp).symm.trans hidle) (by decide)⟩

include ha

/-- The buffer is written over the file, by whichever caller. -/
theorem write_stepped (hf : Files j fs p) (hsmall : j.size ≤ 4096 * THREADS_COUNT)
    (hstep : Opener.step j.dev j.path a fs ⟨flags, .bufferWrite j.old j.target⟩ =
      some (fs', o')) :
    Stepped j p k fs fs' ⟨flags, .bufferWrite j.old j.target⟩ o' := by
  obtain ⟨rfl, rfl⟩ :=
    Prod.mk.inj (Option.some.inj ((Opener.step_bufferWrite ha _).symm.trans hstep))
  have hfree : ∀ i, p ≠ .during i := by
    rintro i rfl
    exact absurd hf.2.1 (Nat.not_lt.mpr hsmall)
  have hlen : (fs.data j.old).length ≤ j.target.length := by
    rw [Job.target_length]
    cases p with
    | before => rw [hf.2.1]; exact Nat.le_add_right _ _
    | during i => exact absurd rfl (hfree i)
    | after =>
        obtain ⟨s, -, hdata, -, hold⟩ := hf
        exact Nat.le_of_eq (by rw [← hold hsmall, hdata, Job.target_length])
  obtain ⟨s, hs, -, hold⟩ := hf.named
  refine ⟨rfl, .after, .finish fun i _ => hfree i, ⟨s, hs, ?_, hf.gone hfree, hold⟩, rfl,
    fun hp => by cases hp⟩
  rw [hold hsmall, FileStore.writeAt_data_self, overlay_all 0 hlen]

/-- The new file takes the place of the old one. -/
theorem rename_stepped (hf : Files j fs (.during k))
    (hs : ∃ s, j.Ready fs s ∧ fs.data s = j.target)
    (hstep : Opener.step j.dev j.path a fs ⟨flags, .rename⟩ = some (fs', o')) :
    Stepped j (.during k) k fs fs' ⟨flags, .rename⟩ o' := by
  obtain ⟨rfl, rfl⟩ := Prod.mk.inj (Option.some.inj ((Opener.step_rename ha).symm.trans hstep))
  obtain ⟨s, hready, htarget⟩ := hs
  refine ⟨rfl, .after, .finish fun i hi hp => hi (Phase.during.inj hp).symm,
    ⟨s, ?_, htarget, ?_, fun hsmall => absurd hf.2.1 (Nat.not_lt.mpr hsmall)⟩, rfl,
    fun hp => by cases hp⟩
  · exact FileStore.rename_names_to _ hready.name
  · exact FileStore.rename_names_from _ hready.name Job.newPath_ne

include hj

/-- The size is asked for while the file is plain: the conversion begins. -/
theorem size_stepped (hf : Files j fs p)
    (hown : p = .during k → (Opener.mk flags .size).converting = true)
    (hC : fs.content j.path = some j.plain)
    (hfree : 4096 * THREADS_COUNT < j.size → ∀ i, p ≠ .during i)
    (hstep : Opener.step j.dev j.path a fs ⟨flags, .size⟩ = some (fs', o')) :
    Stepped j p k fs fs' ⟨flags, .size⟩ o' := by
  obtain ⟨rfl, rfl⟩ := Prod.mk.inj (Option.some.inj ((Opener.step_size ha hC).symm.trans hstep))
  have hpos : 0 < j.plain.length := List.length_pos_iff.mpr hj.content
  rw [Opener.rebuild, if_neg hj.path, if_pos hpos]
  by_cases hsmall : j.plain.length ≤ 4096 * THREADS_COUNT
  · rw [if_pos hsmall]
    exact .stay hf hown rfl ⟨rfl, hsmall⟩
  · rw [if_neg hsmall]
    have hr : InRange j.size := (hj.size.resolve_left hsmall).1
    have hp : p = .before := by
      cases p with
      | before => rfl
      | during i => exact absurd rfl (hfree (Nat.lt_of_not_le hsmall) i)
      | after => exact absurd rfl (hf.unfinished hC)
    subst hp
    have hinit := Job.content_init hr hf.1 hf.2.1 hf.2.2
    exact ⟨rfl, .during k, .begin, ⟨hinit.1.1, hr⟩, ⟨rfl, rfl, hinit⟩, fun _ => rfl⟩

/-- A step of a worker, or the end of the last one. -/
theorem join_stepped {ts : List Worker} (hf : Files j fs (.during k)) (hw : Working j fs ts)
    (hstep : Opener.step j.dev j.path a fs ⟨flags, .joining ts⟩ = some (fs', o')) :
    Stepped j (.during k) k fs fs' ⟨flags, .joining ts⟩ o' := by
  obtain ⟨hlen, hinv⟩ := hw
  obtain ⟨hshared, hr⟩ := hf
  have hharm : j.Harmless :=
    (hj.size.resolve_left (Nat.not_le.mpr hr.1)).2
  unfold Opener.step at hstep
  dsimp only at hstep
  by_cases hall : ts.all Worker.finished = true
  · have hfin : ∀ t ∈ ts, t.finished = true := List.all_eq_true.mp hall
    have hany : ts.any (fun t => t.pc = .returned true) = true := by
      obtain ⟨t, ht, c, b, hpc, -, -, -, hlast⟩ := Job.finished_worker
        (fun i t ht => (hinv.2 i t ht).1) hlen hfin (i := 3) (by decide)
      rw [List.any_eq_true]
      exact ⟨t, List.mem_of_getElem? ht, by rw [hpc, (hlast rfl).1]; rfl⟩
    rw [if_pos hall, if_pos hany] at hstep
    obtain ⟨rfl, rfl⟩ := Prod.mk.inj (Option.some.inj hstep)
    exact ⟨rfl, .during k, .work, ⟨hshared, hr⟩,
      ⟨rfl, Job.finished_target hr hharm hinv hlen hfin⟩, fun _ => rfl⟩
  · rw [if_neg hall] at hstep
    cases hpool : (workers j.dev j.path).poolStep { a with hint := a.hint + 1 } (fs, ts) with
    | none =>
        rw [hpool] at hstep
        cases hstep
    | some r =>
        obtain ⟨fs₁, ts₁⟩ := r
        rw [hpool] at hstep
        obtain ⟨rfl, rfl⟩ := Prod.mk.inj (Option.some.inj hstep)
        have hcalm : Answer.Calm { a with hint := a.hint + 1 } := ⟨ha.fails, ha.limit, ha.denies⟩
        have hinv' := (Job.content_sound hr hharm).step hcalm hinv hpool
        have hlen' : ts₁.length = ts.length := System.poolStep_length _ hpool
        exact ⟨rfl, .during k, .work, ⟨hinv'.1.1, hr⟩, ⟨rfl, hlen'.trans hlen, hinv'⟩,
          fun _ => rfl⟩

/-- **One step** of a caller, timely and not failing, from any stage. -/
theorem step_stepped (hf : Files j fs p) (hs : Stands j p k fs o)
    (hown : p = .during k → o.converting = true) (ht : o.flags.trunc = false)
    (hC : acting o = true → fs.content j.path = some j.plain)
    (hfree : o.stage = .size → 4096 * THREADS_COUNT < j.size → ∀ i, p ≠ .during i)
    (hstep : Opener.step j.dev j.path a fs o = some (fs', o')) :
    Stepped j p k fs fs' o o' := by
  obtain ⟨flags, stage⟩ := o
  obtain ⟨s, hname, hplain, hold⟩ := hf.named
  -- the step is the one that the equation `h` of its stage gives
  have made : ∀ {o₁}, Opener.step j.dev j.path a fs ⟨flags, stage⟩ = some (fs, o₁) →
      Stepped j p k fs fs ⟨flags, stage⟩ o₁ → Stepped j p k fs fs' ⟨flags, stage⟩ o' := by
    intro o₁ h hstepped
    obtain ⟨rfl, rfl⟩ := Prod.mk.inj (Option.some.inj (h.symm.trans hstep))
    exact hstepped
  cases stage with
  | start => exact made (Opener.step_start ha hname) (.stay hf hown rfl trivial)
  | probeOpen =>
      exact made (Opener.step_probeOpen ha hname)
        (.stay hf hown rfl fun hp => (hplain hp).1)
  | probeRead fd =>
      refine made (Opener.step_probeRead ha rfl) (.stay hf hown rfl ⟨rfl, fun hheader => ?_⟩)
      by_contra hp
      obtain ⟨rfl, hdata⟩ := hplain hp
      rw [hs hp, hdata] at hheader
      exact hj.header (of_decide_eq_true hheader)
  | realOpen existed header =>
      obtain ⟨rfl, hheader⟩ := hs
      by_cases hx : (flags.creat && flags.excl) = true
      · exact made (Opener.step_realOpen_excl ha hname hx _ _)
          (.stay hf hown rfl fun hx' => absurd (hx.symm.trans hx') (by decide))
      · have hopen : Opener.step j.dev j.path a fs ⟨flags, .realOpen true header⟩ =
            some (fs, ⟨flags, if header then .returned true else .check⟩) :=
          Opener.step_realOpen ha hname (by simpa using hx) ht header
        cases header with
        | false => exact made hopen (.stay hf hown rfl trivial)
        | true =>
            refine made hopen (.stay hf hown rfl fun _ => ?_)
            rw [hheader rfl]
            exact fun hp => by cases hp
  | writeHeader fd => exact hs.elim
  | check =>
      have hfit : Fits j.path := by
        by_contra hlong
        have hnone : Opener.step j.dev j.path a fs ⟨flags, .check⟩ = none := by
          simp only [Opener.step, hlong, not_false_eq_true, if_true]
        cases hnone.symm.trans hstep
      cases hsib : fs.names j.newPath with
      | none => exact made (Opener.step_check_none hfit hsib) (.stay hf hown rfl trivial)
      | some s' =>
          refine made (Opener.step_check_some ha hfit hsib) (.stay hf hown rfl fun _ hp => ?_)
          subst hp
          cases hsib.symm.trans hf.2.2
  | size => exact size_stepped hj ha hf hown (hC rfl) (hfree rfl) hstep
  | bufferOpen size =>
      obtain ⟨rfl, hsmall⟩ := hs
      exact made (Opener.step_bufferOpen ha hname _)
        (.stay hf hown rfl ⟨rfl, hsmall, hold hsmall⟩)
  | bufferRead size fd =>
      obtain ⟨rfl, hsmall, rfl⟩ := hs
      obtain ⟨rfl, hdata⟩ := hplain (hf.unfinished (hC rfl))
      exact made (Opener.step_bufferRead ha hdata) (.stay hf hown rfl ⟨hsmall, rfl, rfl⟩)
  | bufferWrite fd buffer =>
      obtain ⟨hsmall, hfd, hbuffer⟩ := hs
      rw [hfd, hbuffer] at hstep ⊢
      exact write_stepped ha hf hsmall hstep
  | joining ts =>
      obtain ⟨rfl, hw⟩ := hs
      exact join_stepped hj ha hf hw hstep
  | rename =>
      obtain ⟨rfl, hready⟩ := hs
      exact rename_stepped ha hf hready hstep
  | reopen =>
      have hp : p = .after := hs
      have hdone : ∀ b, Stands j p k fs ⟨flags, .returned b⟩ := by
        rintro b - rfl
        cases hp
      by_cases hx : (flags.creat && flags.excl) = true
      · exact made (Opener.step_reopen_excl ha hname hx) (.stay hf hown rfl (hdone _))
      · exact made (Opener.step_reopen ha hname (by simpa using hx) ht)
          (.stay hf hown rfl (hdone _))
  | returned given =>
      have hsame : Opener.step j.dev j.path a fs ⟨flags, .returned given⟩ =
          some (fs, ⟨flags, .returned given⟩) := rfl
      exact made hsame (.stay hf hown rfl hs)

end Step

/-! ## Every interleaving -/

/-- The files and the callers in a phase. -/
structure Inv (j : Job) (flags : List Flags) (c : FileStore × List Opener) (p : Phase) :
    Prop where
  files : Files j c.1 p
  stands : ∀ k o, c.2[k]? = some o → Stands j p k c.1 o
  owner : ∀ k, p = .during k → ∃ o, c.2[k]? = some o ∧ o.converting = true
  flags : c.2.map Opener.flags = flags

variable {j : Job} {flags : List Flags}

theorem Inv.step (hj : Plain j) (ht : ∀ f ∈ flags, f.trunc = false) {c : Choice}
    {s s' : FileStore × List Opener} {p : Phase} (hi : Inv j flags s p)
    (hc : Timely j.path j.plain c s) (h : (openers j.dev j.path).poolStep c s = some s') :
    ∃ p', Inv j flags s' p' := by
  obtain ⟨fs, os⟩ := s
  obtain ⟨fs', os'⟩ := s'
  rcases (openers j.dev j.path).poolStep_cases h with
    ⟨rfl, rfl⟩ | ⟨k, o, o', hk, hpick, hstep, rfl⟩
  · exact ⟨p, hi⟩
  · have hklt : k < os.length := (List.getElem?_eq_some_iff.mp hk).1
    have hkc : os[c.caller]? = some o := by
      rw [show c.caller = k from hpick]
      exact hk
    obtain ⟨hC, hfree⟩ := hc.2 o hkc
    have hown : p = .during k → o.converting = true := by
      intro hp
      obtain ⟨u, hu, hconv⟩ := hi.owner k hp
      rwa [Option.some.inj (hk.symm.trans hu)]
    have hflag : o.flags ∈ flags := by
      rw [← hi.flags]
      exact List.mem_map_of_mem (List.mem_of_getElem? hk)
    obtain ⟨hflags, p', hm, hf', hs', hown'⟩ := step_stepped hj hc.1 hi.files (hi.stands k o hk)
      hown (ht _ hflag) hC (fun hsize hbig i hp => by
        obtain ⟨u, hu, hconv⟩ := hi.owner i hp
        have := hfree hsize hbig u (List.mem_of_getElem? hu)
        cases hconv.symm.trans this) hstep
    refine ⟨p', hf', fun i u hu => ?_, fun i hp => ?_, ?_⟩
    · have hu' : (os.set k o')[i]? = some u := hu
      by_cases hik : i = k
      · subst hik
        rw [List.getElem?_set_self hklt] at hu'
        obtain rfl := Option.some.inj hu'
        exact hs'
      · rw [List.getElem?_set_ne (Ne.symm hik)] at hu'
        exact hm.stands hik (hi.stands i u hu')
    · show ∃ u, (os.set k o')[i]? = some u ∧ u.converting = true
      by_cases hik : i = k
      · subst hik
        exact ⟨o', List.getElem?_set_self hklt, hown' hp⟩
      · rw [List.getElem?_set_ne (Ne.symm hik)]
        exact hi.owner i (hm.mine hik hp)
    · show (os.set k o').map Opener.flags = flags
      have hlt : k < (os.map Opener.flags).length := by
        rw [List.length_map]
        exact hklt
      have hget : o.flags = (os.map Opener.flags)[k] := by
        rw [List.getElem_map, (List.getElem?_eq_some_iff.mp hk).2]
      rw [List.map_set, hflags, hget, List.set_getElem_self]
      exact hi.flags

/-- Before the first step. -/
theorem Inv.init {fs : FileStore} (hname : fs.names j.path = some j.old)
    (hdata : fs.data j.old = j.plain) (hnone : fs.names j.newPath = none) :
    Inv j flags (fs, flags.map Opener.start) .before where
  files := ⟨hname, hdata, hnone⟩
  stands := by
    intro k o hk
    obtain ⟨f, -, rfl⟩ := List.mem_map.mp (List.mem_of_getElem? hk)
    trivial
  owner := fun k hp => by cases hp
  flags := by
    show (flags.map Opener.start).map Opener.flags = flags
    rw [List.map_map]
    exact List.map_id flags

/-- When every caller has returned the file has been converted, unless each of them asked
    for a file that does not exist yet. -/
theorem Inv.done {s : FileStore × List Opener} {p : Phase} (hi : Inv j flags s p)
    (hfin : ∀ o ∈ s.2, o.finished = true)
    (hx : ∃ f ∈ flags, (f.creat && f.excl) = false) : p = .after := by
  cases p with
  | after => rfl
  | during k =>
      obtain ⟨o, ho, hconv⟩ := hi.owner k rfl
      have hdone := hfin o (List.mem_of_getElem? ho)
      obtain ⟨f, stage⟩ := o
      cases stage with
      | returned _ => cases hconv
      | _ => cases hdone
  | before =>
      obtain ⟨f, hf, hx⟩ := hx
      rw [← hi.flags] at hf
      obtain ⟨o, ho, rfl⟩ := List.mem_map.mp hf
      obtain ⟨k, hk⟩ := List.getElem?_of_mem ho
      have hs := hi.stands k o hk
      have hdone := hfin o ho
      obtain ⟨f, stage⟩ := o
      cases stage with
      | returned _ => exact absurd rfl (hs hx)
      | _ => cases hdone

/-- **Concurrent opens encrypt a plain file once**, along every interleaving whose steps
    are timely: it is plain or converted all the time, and converted when all have
    returned. -/
theorem open_race {dev : Device} {path : Path} {C : List UInt8} {fs : FileStore} {i : Nat}
    {flags : List Flags} (hj : Plain ⟨dev, path, C, i⟩) (hname : fs.names path = some i)
    (hdata : fs.data i = C) (hnone : fs.names (get_security_path_by_path path) = none)
    (ht : ∀ f ∈ flags, f.trunc = false) {fs' : FileStore} {os' : List Opener}
    (hrun : (openers dev path).Run (Timely path C) (fs, flags.map Opener.start) (fs', os')) :
    (fs'.content path = some C ∨ fs'.content path = some (converted dev C)) ∧
      ((∃ f ∈ flags, (f.creat && f.excl) = false) → (∀ o ∈ os', o.finished = true) →
        fs'.content path = some (converted dev C)) := by
  let j : Job := ⟨dev, path, C, i⟩
  obtain ⟨p, hi⟩ := hrun.keeps (P := fun s => ∃ p, Inv j flags s p)
    (fun hok ⟨p, hp⟩ hs => hp.step hj ht hok hs) ⟨.before, Inv.init hname hdata hnone⟩
  have hafter : p = .after → fs'.content path = some (converted dev C) := by
    rintro rfl
    obtain ⟨s, hs, htarget, -⟩ := hi.files
    rw [FileStore.content_of_names _ hs, htarget]
    rfl
  refine ⟨?_, fun hx hfin => hafter (hi.done hfin hx)⟩
  obtain ⟨s, hs, hplain, -⟩ := hi.files.named
  by_cases hp : p = .after
  · exact .inr (hafter hp)
  · exact .inl (by rw [FileStore.content_of_names _ hs, (hplain hp).2])

/-! ## Two callers -/

/-- They open the file for reading, and for reading and writing. -/
def twoFlags : List Flags := [{ acc := .rdonly }, { acc := .rdwr }]

/-- The file holds one byte. -/
def oneByte : FileStore × List Opener := (Kernel.oneFile [7], twoFlags.map Opener.start)

private theorem byte_no_header : ¬ HasHeader [7] := fun h => absurd h.1 (by decide)

/-- The first caller from `size` on. -/
private theorem first_converts (os : List Opener) (hlen : 0 < os.length) :
    (openers aDevice Kernel.aName).Run (Timely Kernel.aName [7])
      (oneByte.1, os.set 0 ⟨{ acc := .rdonly }, .size⟩)
      (oneByte.1.store 1 (converted aDevice [7]),
        os.set 0 ⟨{ acc := .rdonly }, .returned true⟩) :=
  converts _ os 0 hlen rfl (Kernel.oneDescriptor_data [7] { acc := .rdonly } 0) rfl rfl
    (List.cons_ne_nil _ _) (List.cons_ne_nil _ _) (by decide)

/-- One caller after the other: the second one finds a header. -/
theorem open_race_two :
    ∃ s, (openers aDevice Kernel.aName).Run (Timely Kernel.aName [7]) oneByte s ∧
      (∀ o ∈ s.2, o.finished = true) ∧
      s.1.content Kernel.aName = some (converted aDevice [7]) := by
  have hdata : oneByte.1.data 1 = [7] := Kernel.oneDescriptor_data [7] { acc := .rdonly } 0
  let os := oneByte.2
  let os₁ := os.set 0 ⟨{ acc := .rdonly }, .returned true⟩
  let os₂ := os₁.set 1 ⟨{ acc := .rdwr }, .returned true⟩
  let fs₁ := oneByte.1.store 1 (converted aDevice [7])
  have h₁ : (openers aDevice Kernel.aName).Run (Timely Kernel.aName [7]) oneByte
      (oneByte.1, os.set 0 ⟨{ acc := .rdonly }, .size⟩) :=
    decides _ _ os 0 (by decide) rfl hdata rfl rfl (by decide) byte_no_header rfl
  have h₂ := first_converts os (by decide)
  have h₃ : (openers aDevice Kernel.aName).Run (Timely Kernel.aName [7]) (fs₁, os₁) (fs₁, os₂) :=
    finds _ _ os₁ 1 (by decide) rfl (FileStore.store_data_self ..) rfl rfl
      (converted_hasHeader _ _)
  have hrun := h₁.trans (h₂.trans h₃)
  have hfin : ∀ o ∈ os₂, o.finished = true := by decide
  refine ⟨(fs₁, os₂), hrun, hfin, (open_race (i := 1) ⟨List.cons_ne_nil _ _,
    List.cons_ne_nil _ _, byte_no_header, .inl (by decide)⟩ rfl hdata rfl (by decide) hrun).2
    ⟨_, List.mem_cons_self, rfl⟩ hfin⟩

/-- Both have decided before either converts: what the first one has made is encrypted
    again. -/
theorem encrypted_twice :
    ∃ s, (openers aDevice Kernel.aName).Run (fun c _ => Answer.Calm c.answer) oneByte s ∧
      (∀ o ∈ s.2, o.finished = true) ∧
      s.1.content Kernel.aName = some (converted aDevice (converted aDevice [7])) ∧
      s.1.content Kernel.aName ≠ some (converted aDevice [7]) := by
  have hdata : oneByte.1.data 1 = [7] := Kernel.oneDescriptor_data [7] { acc := .rdonly } 0
  let os := oneByte.2
  let os₁ := os.set 0 ⟨{ acc := .rdonly }, .size⟩
  let os₂ := os₁.set 1 ⟨{ acc := .rdwr }, .size⟩
  let os₃ := os₂.set 0 ⟨{ acc := .rdonly }, .returned true⟩
  let os₄ := os₃.set 1 ⟨{ acc := .rdwr }, .returned true⟩
  let fs₁ := oneByte.1.store 1 (converted aDevice [7])
  let fs₂ := fs₁.store 1 (converted aDevice (converted aDevice [7]))
  have hlen := converted_length aDevice [7]
  have h₁ : (openers aDevice Kernel.aName).Run (Timely Kernel.aName [7]) oneByte
      (oneByte.1, os₁) :=
    decides _ _ os 0 (by decide) rfl hdata rfl rfl (by decide) byte_no_header rfl
  have h₂ : (openers aDevice Kernel.aName).Run (Timely Kernel.aName [7]) (oneByte.1, os₁)
      (oneByte.1, os₂) :=
    decides _ _ os₁ 1 (by decide) rfl hdata rfl rfl (by decide) byte_no_header rfl
  have h₃ := first_converts os₂ (by decide)
  have h₄ : (openers aDevice Kernel.aName).Run (Timely Kernel.aName (converted aDevice [7]))
      (fs₁, os₃) (fs₂, os₄) :=
    converts _ os₃ 1 (by decide) rfl (FileStore.store_data_self ..) rfl rfl
      (List.cons_ne_nil _ _)
      (List.length_pos_iff.mp (by rw [hlen]; exact Nat.succ_pos _)) (by rw [hlen]; decide)
  have calm : ∀ {C c c'}, (openers aDevice Kernel.aName).Run (Timely Kernel.aName C) c c' →
      (openers aDevice Kernel.aName).Run (fun c _ => Answer.Calm c.answer) c c' :=
    fun h => h.mono fun hok => hok.1
  have hcontent : fs₂.content Kernel.aName =
      some (converted aDevice (converted aDevice [7])) :=
    (FileStore.content_of_names fs₂ rfl).trans (congrArg some (FileStore.store_data_self ..))
  refine ⟨(fs₂, os₄), calm h₁ |>.trans (calm h₂) |>.trans (calm h₃) |>.trans (calm h₄),
    by decide, hcontent, fun h => ?_⟩
  -- the second header is in the way
  have hlens := congrArg List.length (Option.some.inj (hcontent.symm.trans h))
  rw [converted_length, hlen] at hlens
  exact absurd hlens (by decide)

end TeRace
