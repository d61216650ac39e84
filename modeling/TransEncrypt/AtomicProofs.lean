import TransEncrypt.GhostProofs

/-! # All or nothing — what a conversion leaves when calls fail

    The single-buffer branch writes over the only copy: once it writes, nothing brings the
    old bytes back.  The branch with workers keeps the old file until the `rename`, and
    returns 1 whenever the last worker has returned a name, whatever the others did.

    * `small_iff`: the single-buffer branch, for every host;
    * `workers_nothing`, `workers_target`: what the other branch leaves when it returns 0, and
      when every step was fine;
    * `all_or_nothing`: the exact condition for a small file, and for a large one the runs
      whose steps are all fine. -/

namespace TeAtomic

open Posix Overlay TeHeader Hoare TeProgram TeStored TeWorker TeRebuild TeTorn TeFailure TeGhost
open Interleave

/-- The file is converted when 1 is returned, and as it was when 0 is. -/
def AllOrNothing (dev : Device) (path : Path) (C : List UInt8) (r : Int) (fs : FileStore) :
    Prop :=
  (r = 1 → fs.content path = some (converted dev C)) ∧ (r = 0 → fs.content path = some C)

/-! ## The single buffer -/

/-- Nothing is written, or everything, or what was there before. -/
def SmallOk (dev : Device) (C : List UInt8) (k : Kernel) : Prop :=
  Overwrites k C.length → putBack k C.length = C.length + 4096 ∨
    (converted dev C).take (putBack k C.length) <+: C

section Small

variable {dev : Device} {path : Path} {w : World} {i : Nat} {C : List UInt8}
  (hname : w.kern.files.names path = some i) (hdata : w.kern.files.data i = C)
include hname hdata

/-- **A small file.** -/
theorem small_iff {r : Int} {w' : World}
    (h : rebuild_buffer dev path C.length w = .ok (r, w')) :
    AllOrNothing dev path C r w'.kern.files ↔ SmallOk dev C w.kern := by
  have hone : (1 : Int) ≠ 0 := by decide
  obtain ⟨hwrites, hnothing⟩ := @rebuild_buffer_any dev path w i C hname hdata
  by_cases hover : Overwrites w.kern C.length
  swap
  · -- the file is as it was
    obtain ⟨k', hk', hfiles⟩ := hnothing hover
    obtain ⟨rfl, rfl⟩ := Prod.mk.inj (Except.ok.inj (hk'.symm.trans h))
    constructor
    · intro _ h
      exact absurd h hover
    · intro _
      refine ⟨fun h => absurd h.symm hone, fun _ => ?_⟩
      show k'.files.content path = some C
      rw [hfiles, FileStore.content_of_names _ hname, hdata]
  obtain ⟨k', hk', hquiet⟩ := hwrites hover
  have hfiles : k'.files = w.kern.files.store i
      (overlay 0 C 0 ((converted dev C).take (putBack w.kern C.length))) := hquiet.files
  obtain ⟨rfl, rfl⟩ := Prod.mk.inj (Except.ok.inj (hk'.symm.trans h))
  have hcontent : k'.files.content path = some
      (overlay 0 C 0 ((converted dev C).take (putBack w.kern C.length))) := by
    have hname' : k'.files.names path = some i := by
      rw [hfiles]
      exact hname
    rw [FileStore.content_of_names _ hname', hfiles, FileStore.store_data_self]
  have hlen := converted_length dev C
  by_cases hall : putBack w.kern C.length = C.length + 4096
  · -- all of it is written
    rw [if_pos hall]
    constructor
    · intro _ _
      exact .inl hall
    · intro _
      refine ⟨fun _ => ?_, fun h => absurd h hone⟩
      show k'.files.content path = some (converted dev C)
      rw [hcontent, hall, ← hlen, List.take_length, overlay_all 0 (by omega)]
  · rw [if_neg hall]
    constructor
    · intro h _
      right
      have hsame : k'.files.content path = some C := h.2 rfl
      exact (overlay_same_iff 0 _ _).mp (Option.some.inj (hcontent.symm.trans hsame))
    · intro h
      refine ⟨fun h => absurd h.symm hone, fun _ => ?_⟩
      show k'.files.content path = some C
      rw [hcontent, (overlay_same_iff 0 _ _).mpr ((h hover).resolve_left hall)]

end Small

/-! ## The workers -/

/-- The threads cannot be set up, or descriptor 0 is given for the new file, or, whatever
    numbers the descriptors get, the last worker gives up and no `access` is refused, or all
    workers are created, the sizes and the content let the conversion do no harm, and every
    step is fine. -/
def LargeOk (j : Job) (w : World) : Prop :=
  w.kern.files.names j.newPath = none ∧
    (w.kern.answer.fails = true ∨ (¬ w.kern.InUse 0 ∧ w.kern.host.LowestFree) ∨
      ∀ num, Numbers w num →
        (Lost j.dev j.path (withNumbers w num) j.size ∧
          Admitted j.dev j.path (withNumbers w num) j.size) ∨
        (InRange j.size ∧ j.Harmless ∧
          createdBy w.kern.host (w.kern.tick + 1) (List.range THREADS_COUNT)
            = List.range THREADS_COUNT ∧
          ∀ n c, Running j.dev j.path (withNumbers w num) j.size n c →
            FineStep j ((withNumbers w num).kern.host.answer (w.kern.tick + 6 + n)) c))

section Large

variable {j : Job} {w w' : World} {r : Int} (hname : w.kern.files.names j.path = some j.old)
  (hdata : w.kern.files.data j.old = j.plain) (hnone : w.kern.files.names j.newPath = none)
  (h : rebuild_workers j.dev j.path j.size w = .ok (r, w'))
include hname hdata hnone h

/-- The old file is kept whenever 0 is returned. -/
theorem workers_nothing (hzero : r = 0) : w'.kern.files.content j.path = some j.plain := by
  rcases rebuild_workers_inv h with ⟨-, -, hfiles⟩ | ⟨-, num, n, fs, ts, -, hrun, -, hcase⟩
  · rw [hfiles, FileStore.content_of_names _ hname, hdata]
  · rcases hcase with ⟨-, -, hfiles⟩ | ⟨hone, -⟩
    · have hsited := (reaches_placed (w := withNumbers w num) hname hdata hnone hrun.1).1
      rw [hfiles, FileStore.content_of_names _ hsited.name, hsited.data]
    · exact absurd (hone.symm.trans hzero) (by decide)

/-- **The last worker is lost, or every step is fine**: what is renamed, if anything, is the
    header and the image. -/
theorem workers_target (hok : ∀ num, Numbers w num →
    (Lost j.dev j.path (withNumbers w num) j.size ∧
      Admitted j.dev j.path (withNumbers w num) j.size) ∨
    (InRange j.size ∧ j.Harmless ∧
      createdBy w.kern.host (w.kern.tick + 1) (List.range THREADS_COUNT)
        = List.range THREADS_COUNT ∧
      ∀ n c, Running j.dev j.path (withNumbers w num) j.size n c →
        FineStep j ((withNumbers w num).kern.host.answer (w.kern.tick + 6 + n)) c))
    (hone : r = 1) : w'.kern.files.content j.path = some j.target := by
  rcases rebuild_workers_inv h with ⟨-, hzero, -⟩ | ⟨-, num, n, fs, ts, hnum, hrun, hfin, hcase⟩
  · exact absurd (hzero.symm.trans hone) (by decide)
  rcases hcase with ⟨hzero, -⟩ | ⟨-, ⟨t, ht, hpc⟩, hfiles⟩
  · exact absurd (hzero.symm.trans hone) (by decide)
  rcases hok num hnum with ⟨hlost, hin⟩ | ⟨hj, hh, hall, hfine⟩
  · -- nobody returns the name
    exact absurd hpc (lost_inv (w := withNumbers w num) hname hdata hnone hlost hin hrun.1 hfin
      t ht)
  · have hstarted : started (withNumbers w num) j.size = (w.kern.files, allWorkers j.size) := by
      show (w.kern.files, List.map _ (createdBy (numbered w.kern.host num) _ _)) = _
      rw [createdBy_numbered]
      show (w.kern.files, List.map _ (createdBy w.kern.host (w.kern.tick + 1) _)) = _
      rw [hall, allWorkers]
    have hseen : Seen j (fs, ts) := by
      refine running_seen hj hh ?_ hfine n _ hrun
      rw [hstarted]
      exact seen_init hj hname hdata hnone
    have hlen : ts.length = THREADS_COUNT := by
      have hkept := System.poolRun_length _ _ hrun.1
      rw [hstarted] at hkept
      exact hkept
    obtain ⟨s, hs, htarget⟩ := fine_target hj hh hseen hlen hfin
    have hrename : (w.kern.host.answer (w.kern.tick + 6 + n)).fails = false :=
      (hfine n _ hrun).1 hfin
    rw [hfiles, hrename, if_neg (by decide)]
    exact (FileStore.content_of_names _ (FileStore.rename_names_to _ hs)).trans
      (congrArg some htarget)

end Large

/-! ## Both branches -/

/-- **All or nothing.**  A small file is converted or left alone exactly when `SmallOk`
    holds of the answers; a large one in every run that is `LargeOk`. -/
theorem all_or_nothing {dev : Device} {path : Path} {C : List UInt8} {w w' : World} {i : Nat}
    {r : Int} (hpath : path ≠ []) (hn : 0 < C.length)
    (hname : w.kern.files.names path = some i) (hdata : w.kern.files.data i = C)
    (h : rebuild_file_struct dev path C.length w = .ok (r, w')) :
    (C.length ≤ 4096 * THREADS_COUNT →
      (AllOrNothing dev path C r w'.kern.files ↔ SmallOk dev C w.kern)) ∧
    (4096 * THREADS_COUNT < C.length → LargeOk ⟨dev, path, C, i⟩ w →
      AllOrNothing dev path C r w'.kern.files) := by
  constructor
  · intro hsmall
    rw [rebuild_small hpath hn hsmall] at h
    exact small_iff hname hdata h
  · rintro hlarge ⟨hnone, hok⟩
    rw [rebuild_large hpath (Nat.not_le_of_lt hlarge)] at h
    let j : Job := ⟨dev, path, C, i⟩
    refine ⟨fun hone => ?_, fun hzero => workers_nothing (j := j) hname hdata hnone h hzero⟩
    rcases hok with hattr | ⟨h0, hlow⟩ | hok
    · -- the threads are not set up
      have hzero : r = 0 := by
        have hcall : pthread_attr_init w =
            .ok (!w.kern.answer.fails, { w with kern := w.kern.tock 1 }) := rfl
        rw [rebuild_workers, bind_ok hcall, hattr] at h
        exact (pure_inv h).1
      exact absurd (hzero.symm.trans hone) (by decide)
    · exact absurd (hone.symm.trans (stalled_workers hlow hnone h0 h)) (by decide)
    · exact workers_target (j := j) hname hdata hnone h hok hone

/-- A calm host does no harm that the sizes do not do. -/
theorem largeOk_calm {j : Job} {w : World} (hc : w.kern.host.Calm) (h0 : w.kern.InUse 0)
    (hnone : w.kern.files.names j.newPath = none) (hj : InRange j.size) (hh : j.Harmless) :
    LargeOk j w :=
  ⟨hnone, .inr (.inr fun num hnum => .inr ⟨hj, hh, createdBy_calm hc _ _,
    fun _ c _ => fineStep_calm j (numbered_calm hc num _) (hnum h0 _) c⟩)⟩

/-- There is no memory for the names in the workers. -/
def thinHost : Host where
  answer := fun t => if t < 6 then {} else { who := t - 6, fails := true }
  patience := 4

theorem thinHost_answer (m : Nat) :
    (thinHost.answer (6 + m)).who = m ∧ (thinHost.answer (6 + m)).fails = true := by
  rw [thinHost]
  simp only [show ¬ 6 + m < 6 from by omega, if_false]
  exact ⟨by omega, trivial⟩

theorem thinHost_rest (t : Nat) :
    (thinHost.answer t).hint = 0 ∧ (thinHost.answer t).denies = false := by
  rw [thinHost]
  dsimp only
  split
  · exact ⟨rfl, rfl⟩
  · exact ⟨rfl, rfl⟩

theorem allWorkers_start (size : Nat) : ∀ t ∈ allWorkers size, t.pc = .start := by
  intro t ht
  obtain ⟨k, -, rfl⟩ := List.mem_map.mp ht
  rfl

/-- One worker after the other finds no memory. -/
theorem give_up_run (dev : Device) (path : Path) (fs : FileStore) {host : Host} {k : Nat}
    (hhost : ∀ m, (host.answer (k + m)).who = m ∧ (host.answer (k + m)).fails = true)
    {ts : List Worker} (hstart : ∀ t ∈ ts, t.pc = .start) :
    ∀ m, m ≤ ts.length →
      ∃ ts', (workers dev path).poolRun (answersFrom host k m) (fs, ts) = some (fs, ts') ∧
        ∀ i, ts'[i]? = (ts[i]?).map fun t => if i < m then t.goto (.returned false) else t := by
  intro m
  induction m with
  | zero =>
      intro _
      refine ⟨ts, rfl, fun i => ?_⟩
      cases ts[i]? with
      | none => rfl
      | some t => rfl
  | succ m ih =>
      intro hm
      obtain ⟨ts', hrun, hget⟩ := ih (by omega)
      obtain ⟨hwho, hfails⟩ := hhost m
      have hone : (workers dev path).poolRun (answersFrom host k (m + 1)) (fs, ts)
          = (workers dev path).poolStep (host.answer (k + m)) (fs, ts') := by
        rw [answersFrom_add, System.poolRun_append, hrun]
        show ((workers dev path).poolStep (host.answer (k + m)) (fs, ts')).bind some = _
        exact Option.bind_fun_some _
      have ht : ts[m]? = some ts[m] := List.getElem?_eq_getElem hm
      have hm' : ts'[m]? = some ts[m] := by
        rw [hget, ht, Option.map_some, if_neg (Nat.lt_irrefl m)]
      have hpick : ts'[(workers dev path).pick (host.answer (k + m))]? = some ts[m] := by
        show ts'[(host.answer (k + m)).who]? = _
        rw [hwho]
        exact hm'
      refine ⟨ts'.set m (ts[m].goto (.returned false)), ?_, fun i => ?_⟩
      · rw [hone, System.poolStep_some _ hpick,
          gives_up hfails (.inl (hstart _ (List.getElem_mem hm))), Option.map_some]
        show some (fs, ts'.set (host.answer (k + m)).who _) = _
        rw [hwho]
      · by_cases him : m = i
        · obtain rfl := him
          rw [List.getElem?_set_self (List.getElem?_eq_some_iff.mp hm').1, ht, Option.map_some,
            if_pos (Nat.lt_succ_self m)]
        · have hlt : i < m + 1 ↔ i < m := by omega
          simp only [List.getElem?_set_ne him, hget, hlt]

/-- A large file on that host: 0 is returned. -/
theorem thin_returns {j : Job} {w : World} (h0 : w.kern.InUse 0) (htick : w.kern.tick = 0) :
    ∃ w', rebuild_workers j.dev j.path j.size (w.under thinHost) = .ok (0, w') := by
  let num : Nat → Nat := fun _ => (w.kern.freeFd 0).toNat
  have hanswer : ∀ m, ((numbered thinHost num).answer (6 + m)).who = m ∧
      ((numbered thinHost num).answer (6 + m)).fails = true := thinHost_answer
  obtain ⟨ts', hrun, hget⟩ := give_up_run j.dev j.path w.kern.files hanswer
    (allWorkers_start j.size) 4 (Nat.le_refl 4)
  have hfin : ∀ t ∈ ts', t.pc = .returned false := by
    intro t ht
    obtain ⟨i, hi⟩ := List.getElem?_of_mem ht
    rw [hget] at hi
    obtain ⟨u, hu, rfl⟩ := Option.map_eq_some_iff.mp hi
    have hlt : i < 4 := (List.getElem?_eq_some_iff.mp hu).1
    rw [if_pos hlt]
    rfl
  let w₁ : World := { w.under thinHost with kern := (w.under thinHost).kern.tock 6 }
  have hlen : (answersFrom (numbered thinHost num) 6 4).length = 4 := rfl
  obtain ⟨w₂, hjoin, -, -⟩ := run_workers_ok (answersFrom (numbered thinHost num) 6 4) (n := 4)
    (w := w₁) (Nat.le_of_eq hlen) h0
    (fun m hm => by
      rw [show w₁.kern.tick = 6 from congrArg (· + 6) htick]
      simp only [answersFrom, List.getElem_map, List.getElem_range]
      show ({ thinHost.answer (6 + m) with
        hint := (w.kern.freeFd (thinHost.answer (6 + m)).hint).toNat } : Answer) = _
      rw [(thinHost_rest _).1]
      rfl)
    hrun (fun t ht => by rw [Worker.finished, hfin t ht])
  have hjoin' : join_workers j.dev j.path (allWorkers j.size) w₁ = .ok (ts', w₂) := hjoin
  have hany : ¬ ts'.any (fun t => t.pc = .returned true) = true := by
    intro hany
    obtain ⟨t, ht, hpc⟩ := List.any_eq_true.mp hany
    rw [hfin t ht] at hpc
    cases hpc
  have hattr : pthread_attr_init (w.under thinHost) =
      .ok (true, { w.under thinHost with kern := (w.under thinHost).kern.tock 1 }) := by
    apply kernelCall_ok
    rw [Kernel.answer, show (w.under thinHost).kern.tick = 0 from htick]
    rfl
  have hall : createdBy thinHost (w.kern.tick + 1) (List.range THREADS_COUNT)
      = List.range THREADS_COUNT := by
    rw [htick]
    rfl
  have hcalloc : calloc { w.under thinHost with kern := (w.under thinHost).kern.tock 5 }
      = .ok (true, w₁) := by
    apply kernelCall_ok
    rw [Kernel.answer, show ((w.under thinHost).kern.tock 5).tick = 5 from
      congrArg (· + 5) htick]
    rfl
  have hcreate : create_workers j.size (List.range THREADS_COUNT)
        { w.under thinHost with kern := (w.under thinHost).kern.tock 1 }
      = .ok (allWorkers j.size,
        { w.under thinHost with kern := (w.under thinHost).kern.tock 5 }) := by
    refine (create_workers_eq j.size _ _).trans ?_
    show Except.ok ((createdBy thinHost (w.kern.tick + 1) _).map _, _) = _
    rw [hall]
    rfl
  refine ⟨w₂, ?_⟩
  rw [rebuild_workers, bind_ok hattr, if_pos rfl, bind_ok hcreate, bind_ok hcalloc,
    bind_ok hjoin', if_neg hany]
  rfl

/-- And the last worker is lost. -/
theorem thin_lost {j : Job} {w : World} (htick : w.kern.tick = 0) (num : Nat → Nat) :
    Lost j.dev j.path (withNumbers (w.under thinHost) num) j.size ∧
      Admitted j.dev j.path (withNumbers (w.under thinHost) num) j.size := by
  have hstarted : started (withNumbers (w.under thinHost) num) j.size
      = (w.kern.files, allWorkers j.size) := by
    show (w.kern.files, List.map _ (createdBy (numbered thinHost num) (w.kern.tick + 1) _)) = _
    rw [createdBy_numbered, htick]
    rfl
  have hticks : ∀ m, (withNumbers (w.under thinHost) num).kern.tick + m = m := by
    intro m
    show w.kern.tick + m = m
    rw [htick, Nat.zero_add]
  constructor
  · have hanswer : ∀ m, ((numbered thinHost num).answer (6 + m)).who = m ∧
        ((numbered thinHost num).answer (6 + m)).fails = true := thinHost_answer
    obtain ⟨ts', hrun, hget⟩ := give_up_run j.dev j.path w.kern.files hanswer
      (allWorkers_start j.size) 3 (show 3 ≤ 4 by decide)
    refine .inr ⟨3, (w.kern.files, ts'), ?_, ?_, workerArgs j.size 3, ?_, rfl, .inl rfl⟩
    · rw [Reaches, hstarted, hticks]
      exact hrun
    · rw [hticks]
      rfl
    · rw [hticks]
      exact (hget 3).trans rfl
  · intro n c _ t _ _
    exact (thinHost_rest _).2

/-- The smallest large file: a calm host converts it along some interleaving, and a host
    without memory for the workers leaves it as it was. -/
theorem all_or_nothing_16385 :
    (∃ host w', host.Calm ∧
      rebuild_file_struct aDevice Kernel.aName (List.replicate 16385 (7 : UInt8)).length
        ((sevens 16385).under host) = .ok (1, w') ∧
      AllOrNothing aDevice Kernel.aName (List.replicate 16385 7) 1 w'.kern.files) ∧
    ∃ w', rebuild_file_struct aDevice Kernel.aName (List.replicate 16385 (7 : UInt8)).length
        ((sevens 16385).under thinHost) = .ok (0, w') ∧
      AllOrNothing aDevice Kernel.aName (List.replicate 16385 7) 0 w'.kern.files := by
  have hlen : (List.replicate 16385 (7 : UInt8)).length = 16385 := List.length_replicate
  have hmax : (List.replicate 16385 (7 : UInt8)).length + 4096 ≤ 2147483647 := by
    rw [hlen]
    decide
  have hbig : ¬ (List.replicate 16385 (7 : UInt8)).length ≤ 4096 * THREADS_COUNT := by
    rw [hlen]
    decide
  have hpos : 0 < (List.replicate 16385 (7 : UInt8)).length := by
    rw [hlen]
    decide
  have hdata : ∀ host, ((sevens 16385).under host).kern.files.data 1 = List.replicate 16385 7 :=
    fun _ => Kernel.oneDescriptor_data _ { acc := .rdonly } 0
  let j : Job := ⟨aDevice, Kernel.aName, List.replicate 16385 7, 1⟩
  have hharm : j.Harmless := by
    left
    rw [show j.size = 16385 from hlen]
    decide
  constructor
  · obtain ⟨host, w', s, fs', hc, -, hrun, -⟩ :=
      @large_run aDevice Kernel.aName (List.replicate 16385 7) (sevens 16385) 1
        (List.cons_ne_nil _ _) hmax rfl (Kernel.oneDescriptor_data _ _ _) rfl hbig (by decide)
        (by decide)
    have h0 : ((sevens 16385).under host).kern.InUse 0 := by
      show (sevens 16385).kern.InUse 0
      decide
    refine ⟨host, w', hc, hrun, ?_⟩
    exact (all_or_nothing (i := 1) (List.cons_ne_nil _ _) hpos rfl (hdata host) hrun).2
      (Nat.lt_of_not_le hbig)
      (largeOk_calm (j := j) hc h0 rfl ⟨Nat.lt_of_not_le hbig, hmax⟩ hharm)
  · let w : World := (sevens 16385).under thinHost
    obtain ⟨w', hrun⟩ := thin_returns (j := j) (w := sevens 16385) (by decide) rfl
    have hrun' : rebuild_file_struct aDevice Kernel.aName
        (List.replicate 16385 (7 : UInt8)).length w = .ok (0, w') := by
      rw [rebuild_large (by decide) hbig]
      exact hrun
    exact ⟨w', hrun', (all_or_nothing (i := 1) (List.cons_ne_nil _ _) hpos rfl (hdata thinHost)
      hrun').2 (Nat.lt_of_not_le hbig)
        ⟨rfl, .inr (.inr fun num _ => .inl (thin_lost (j := j) (w := sevens 16385) rfl num))⟩⟩

/-- The write of a conversion stops after two bytes. -/
def shortHost : Host where
  answer := fun t => if t = 3 then { limit := some 2 } else {}

/-- Then 0 is returned, and the file holds two bytes of a header. -/
theorem short_write_tears : ∃ w', rebuild_file_struct aDevice Kernel.aName
      ([7] : List UInt8).length ((sevens 1).under shortHost) = .ok (0, w') ∧
    ¬ AllOrNothing aDevice Kernel.aName [7] 0 w'.kern.files := by
  have hover : Overwrites ((sevens 1).under shortHost).kern 1 := ⟨rfl, by decide, rfl, rfl⟩
  have hput : putBack ((sevens 1).under shortHost).kern 1 = 2 := rfl
  have hdata : ((sevens 1).under shortHost).kern.files.data 1 = [7] :=
    Kernel.oneDescriptor_data _ { acc := .rdonly } 0
  obtain ⟨k', hk', hquiet⟩ := (@rebuild_buffer_any aDevice Kernel.aName
    ((sevens 1).under shortHost) 1 [7] rfl hdata).1 hover
  have hfiles : k'.files = ((sevens 1).under shortHost).kern.files.store 1
      (overlay 0 [7] 0 ((converted aDevice [7]).take 2)) := by
    rw [← hput]
    exact hquiet.files
  rw [show ([7] : List UInt8).length = 1 from rfl, hput, if_neg (by decide)] at hk'
  refine ⟨{ (sevens 1).under shortHost with kern := k' }, ?_, fun h => ?_⟩
  · rw [rebuild_small (by decide) (by decide) (by decide)]
    exact hk'
  · have hname : k'.files.names Kernel.aName = some 1 := by
      rw [hfiles]
      rfl
    have hsame : k'.files.content Kernel.aName = some [7] := h.2 rfl
    rw [FileStore.content_of_names _ hname, hfiles, FileStore.store_data_self] at hsame
    -- two bytes are no part of one
    have hprefix := ((overlay_same_iff 0 _ _).mp (Option.some.inj hsame)).length_le
    rw [List.length_take, converted_length] at hprefix
    exact absurd hprefix (by decide)

end TeAtomic
