import TransEncrypt.RebuildProofs

/-! # Converting by workers when calls fail

    Any call may fail or be short.  The workers report nothing: whether there is a new
    file to rename is all that `rebuild_file_struct` learns.  The last worker returns its
    name, and so does one whose `access` is refused after it has seen the header.

    * `reaches_keeps`, `reaches_placed`: whatever fails, no worker touches the plain file;
    * `rebuild_workers_inv`: what a conversion that returned has done;
    * `unnamed_inv`, `named_inv`: a conversion does nothing exactly when no worker gets its
      name;
    * `lost_inv`: when the last worker was not created or gave up, and no `access` is
      refused, nobody returns the name. -/

namespace TeFailure

open Posix Overlay TeHeader Hoare TeProgram TeDetector TeStored TeWorker TeBarren TeRebuild
open Interleave

/-! ## What a conversion that returned has done -/

/-- The pool at its start, and after `n` steps. -/
def started (w : World) (size : Nat) : FileStore × List Worker :=
  (w.kern.files,
    (createdBy w.kern.host (w.kern.tick + 1) (List.range THREADS_COUNT)).map (workerArgs size))

def Reaches (dev : Device) (path : Path) (w : World) (size n : Nat)
    (c : FileStore × List Worker) : Prop :=
  (workers dev path).poolRun (answersFrom w.kern.host (w.kern.tick + 6) n) (started w size) = some c

/-- Every worker has returned. -/
def Returned (c : FileStore × List Worker) : Prop := ∀ t ∈ c.2, t.finished = true

/-- The pool after `n` steps, when it has not stopped before. -/
def Running (dev : Device) (path : Path) (w : World) (size n : Nat)
    (c : FileStore × List Worker) : Prop :=
  Reaches dev path w size n c ∧ ∀ m, m < n → ∀ c', Reaches dev path w size m c' → ¬ Returned c'

/-- The state with these numbers for the descriptors that the host gives. -/
def withNumbers (w : World) (num : Nat → Nat) : World := w.under (numbered w.kern.host num)

theorem createdBy_numbered (host : Host) (num : Nat → Nat) : ∀ (is : List Nat) (t : Nat),
    createdBy (numbered host num) t is = createdBy host t is := by
  intro is
  induction is with
  | nil => intro t; rfl
  | cons i is ih =>
      intro t
      rw [createdBy, createdBy, ih]
      rfl

/-- **What a conversion by workers has done** when it returns: nothing, or the workers have
    run to their end, and the new file has been renamed if one of them returned its name. -/
theorem rebuild_workers_inv {dev : Device} {path : Path} {size : Nat} {w w' : World} {r : Int}
    (h : rebuild_workers dev path size w = .ok (r, w')) :
    (w.kern.answer.fails = true ∧ r = 0 ∧ w'.kern.files = w.kern.files) ∨
    w.kern.answer.fails = false ∧ ∃ num n fs ts, Numbers w num ∧
      Running dev path (withNumbers w num) size n (fs, ts) ∧
      Returned (fs, ts) ∧
      ((r = 0 ∧ (∀ t ∈ ts, t.pc ≠ .returned true) ∧ w'.kern.files = fs) ∨
        (r = 1 ∧ (∃ t ∈ ts, t.pc = .returned true) ∧ w'.kern.files =
          if (w.kern.host.answer (w.kern.tick + 6 + n)).fails then fs
          else fs.rename (get_security_path_by_path path) path)) := by
  have hattr : pthread_attr_init w =
      .ok (!w.kern.answer.fails, { w with kern := w.kern.tock 1 }) := rfl
  rw [rebuild_workers, bind_ok hattr] at h
  cases hfails : w.kern.answer.fails with
  | true =>
      rw [hfails] at h
      obtain ⟨rfl, rfl⟩ := pure_inv h
      exact .inl ⟨rfl, rfl, rfl⟩
  | false =>
      refine .inr ⟨rfl, ?_⟩
      rw [hfails, if_pos (by rfl), bind_ok (create_workers_eq size _ _)] at h
      obtain ⟨b, w₁, h1, h⟩ := bind_inv h
      obtain ⟨-, rfl⟩ := kernelCall_inv h1
      obtain ⟨ts, w₂, h2, h⟩ := bind_inv h
      obtain ⟨n, num, hnum, hrun, hmin, hfin, hhost, htick, -⟩ := run_workers_trace _ h2
      have hstarted : started (withNumbers w num) size = started w size := by
        show (w.kern.files, List.map _ (createdBy (numbered w.kern.host num) _ _)) = _
        rw [createdBy_numbered]
        rfl
      have hrunning : Running dev path (withNumbers w num) size n (w₂.kern.files, ts) := by
        refine ⟨?_, fun m hm c' hc' => hmin m hm c' ?_⟩
        · rw [Reaches, hstarted]
          exact hrun
        · rw [Reaches, hstarted] at hc'
          exact hc'
      refine ⟨num, n, w₂.kern.files, ts, hnum, hrunning, hfin, ?_⟩
      by_cases hany : ts.any (fun t => t.pc = .returned true) = true
      · right
        rw [if_pos hany] at h
        cases b with
        | false => cases h
        | true =>
            obtain ⟨u, w₃, h3, h⟩ := bind_inv h
            obtain ⟨rfl, rfl⟩ := pure_inv h
            obtain ⟨-, rfl⟩ := kernelCall_inv h3
            refine ⟨rfl, by simpa using hany, ?_⟩
            have hanswer : w₂.kern.answer = w.kern.host.answer (w.kern.tick + 6 + n) := by
              show w₂.kern.host.answer w₂.kern.tick = _
              rw [hhost, htick]
              rfl
            rw [← hanswer]
            split
            · rfl
            · rfl
      · left
        rw [if_neg hany] at h
        obtain ⟨rfl, rfl⟩ := pure_inv h
        exact ⟨rfl, by simpa using hany, rfl⟩

/-! ## The last worker gives up -/

/-- The last worker makes a step that ends it without a result. -/
def GivesUp (a : Answer) (c : FileStore × List Worker) : Prop :=
  a.fails = true ∧ ∃ t, c.2[a.who]? = some t ∧ t.number + 1 = THREADS_COUNT ∧
    (t.pc = .start ∨ t.pc = .openOld ∨ ∃ o, t.pc = .openNew o)

/-- The last worker is not created, or gives up. -/
def Lost (dev : Device) (path : Path) (w : World) (size : Nat) : Prop :=
  THREADS_COUNT - 1 ∉ createdBy w.kern.host (w.kern.tick + 1) (List.range THREADS_COUNT) ∨
    ∃ n c, Reaches dev path w size n c ∧
      GivesUp (w.kern.host.answer (w.kern.tick + 6 + n)) c

/-- No `access` of a worker that has seen the header is refused. -/
def Admitted (dev : Device) (path : Path) (w : World) (size : Nat) : Prop :=
  ∀ n c, Reaches dev path w size n c →
    ∀ t, c.2[(w.kern.host.answer (w.kern.tick + 6 + n)).who]? = some t → t.pc = .entered →
      (w.kern.host.answer (w.kern.tick + 6 + n)).denies = false

section Reaches

variable {dev : Device} {path : Path} {w : World} {size old : Nat} {C : List UInt8}
  {n : Nat} {c : FileStore × List Worker}

/-- What is reached later is reached from what is reached first. -/
theorem Reaches.split {m : Nat} {c' : FileStore × List Worker}
    (h : Reaches dev path w size n c) (h' : Reaches dev path w size (n + m) c') :
    (workers dev path).poolRun (answersFrom w.kern.host (w.kern.tick + 6 + n) m) c = some c' := by
  rw [Reaches, answersFrom_add, System.poolRun_append, h] at h'
  exact h'

/-- A step more. -/
theorem Reaches.succ {c' : FileStore × List Worker} (h : Reaches dev path w size (n + 1) c') :
    ∃ c, Reaches dev path w size n c ∧
      (workers dev path).poolStep (w.kern.host.answer (w.kern.tick + 6 + n)) c = some c' := by
  rw [Reaches, answersFrom_add, System.poolRun_append] at h
  obtain ⟨c, hc, hrest⟩ := Option.bind_eq_some_iff.mp h
  refine ⟨c, hc, ?_⟩
  rw [answersFrom_succ] at hrest
  obtain ⟨c₁, hstep, hnil⟩ := Option.bind_eq_some_iff.mp hrest
  obtain rfl := Option.some.inj hnil
  exact hstep

/-- A worker that has returned stays as it is. -/
theorem poolRun_stays {i : Nat} {t : Worker} (hfin : t.finished = true) :
    ∀ (as : List Answer) {c c' : FileStore × List Worker}, c.2[i]? = some t →
      (workers dev path).poolRun as c = some c' → c'.2[i]? = some t := by
  intro as
  induction as with
  | nil =>
      intro c c' ht h
      obtain rfl := Option.some.inj h
      exact ht
  | cons a as ih =>
      intro c c' ht h
      obtain ⟨⟨fs₁, ts₁⟩, hstep, hrest⟩ := Option.bind_eq_some_iff.mp h
      refine ih ?_ hrest
      rcases System.poolStep_cases _ hstep with ⟨-, rfl⟩ | ⟨k, u, u', hu, -, hone, rfl⟩
      · exact ht
      · by_cases hik : k = i
        · obtain rfl := hik
          obtain rfl : u = t := Option.some.inj (hu.symm.trans ht)
          obtain ⟨-, rfl⟩ := Job.step_finished (j := ⟨dev, path, [], 0⟩) hfin hone
          show (c.2.set k u')[k]? = some u'
          rw [List.getElem?_set_self (List.getElem?_eq_some_iff.mp hu).1]
        · show (c.2.set k u')[i]? = some t
          rw [List.getElem?_set_ne hik]
          exact ht

/-- The step that ends the last worker. -/
theorem gives_up {a : Answer} {fs : FileStore} {u : Worker} (hfails : a.fails = true)
    (hpc : u.pc = .start ∨ u.pc = .openOld ∨ ∃ o, u.pc = .openNew o) :
    (workers dev path).step a fs u = some (fs, u.goto (.returned false)) := by
  show Worker.step dev path a fs u = _
  rcases hpc with hp | hp | ⟨o, hp⟩
  · simp only [Worker.step, hp, hfails, if_true]
  · simp only [Worker.step, hp, hfails, if_true]
    split
    · rfl
    · rfl
  · simp only [Worker.step, hp, hfails, if_true]
    split
    · rfl
    · rfl

/-- **Whatever fails**, in every state reached every worker stands where it can, and the files
    are as any property says that the steps of the workers keep. -/
theorem reaches_keeps {J : FileStore → Prop}
    (hkeep : ∀ {number : Nat} {fs fs' : FileStore}, Touch path number fs fs' → J fs → J fs')
    (hfiles : J w.kern.files)
    (hnone : w.kern.files.names (get_security_path_by_path path) = none)
    (h : Reaches dev path w size n c) :
    J c.1 ∧ ∀ (i : Nat) (t : Worker), c.2[i]? = some t →
      (createdBy w.kern.host (w.kern.tick + 1) (List.range THREADS_COUNT))[i]? = some t.number ∧
        Placed path c.1 t := by
  have hnodup : (createdBy w.kern.host (w.kern.tick + 1) (List.range THREADS_COUNT)).Nodup :=
    (createdBy_sublist _ _ _).nodup List.nodup_range
  have hinit : System.PoolInv J (fun i fs t => (createdBy w.kern.host
      (w.kern.tick + 1) (List.range THREADS_COUNT))[i]? = some t.number ∧ Placed path fs t)
      (started w size) := by
    constructor
    · exact hfiles
    · intro i t ht
      obtain ⟨k, hk, rfl⟩ := Option.map_eq_some_iff.mp ((List.getElem?_map ..).symm.trans ht)
      exact ⟨hk, fun _ => hnone⟩
  exact (placed_sound hnodup hkeep).run _ (fun _ _ => trivial) hinit h

variable (hname : w.kern.files.names path = some old) (hdata : w.kern.files.data old = C)
  (hnone : w.kern.files.names (get_security_path_by_path path) = none)
include hname hdata hnone

/-- The plain file is untouched. -/
theorem reaches_placed (h : Reaches dev path w size n c) :
    Sited path old C c.1 ∧ ∀ (i : Nat) (t : Worker), c.2[i]? = some t →
      (createdBy w.kern.host (w.kern.tick + 1) (List.range THREADS_COUNT))[i]? = some t.number ∧
        Placed path c.1 t :=
  reaches_keeps (fun htouch hs => htouch.sited hs)
    ⟨hname, hdata, fun _ hs => by cases hnone.symm.trans hs⟩ hnone h

/-- Only the last worker returns the name, where no `access` is refused. -/
theorem reaches_named (hin : Admitted dev path w size) :
    ∀ n {c : FileStore × List Worker}, Reaches dev path w size n c → ∀ t ∈ c.2, Named t := by
  intro n
  induction n with
  | zero =>
      intro c h t ht hpc
      obtain rfl := Option.some.inj h
      obtain ⟨k, -, rfl⟩ := List.mem_map.mp ht
      cases hpc
  | succ n ih =>
      intro c' h t ht
      obtain ⟨c, hc, hstep⟩ := h.succ
      rcases System.poolStep_cases _ hstep with ⟨-, hsame⟩ | ⟨i, u, u', hu, hpick, hone, hset⟩
      · exact ih hc t (hsame ▸ ht)
      · rw [hset] at ht
        rcases List.mem_or_eq_of_mem_set ht with ht | rfl
        · exact ih hc t ht
        · have hpick : (w.kern.host.answer (w.kern.tick + 6 + n)).who = i := hpick
          exact named_step (hin n c hc u (by rw [hpick]; exact hu))
            ((reaches_placed hname hdata hnone hc).2 i u hu).2
            (ih hc u (List.mem_of_getElem? hu)) hone

/-- **A lost conversion**: no worker returns the name of the new file. -/
theorem lost_inv (hlost : Lost dev path w size) (hin : Admitted dev path w size)
    (h : Reaches dev path w size n c) (hfin : Returned c) : ∀ t ∈ c.2, t.pc ≠ .returned true := by
  intro t ht hpc
  obtain ⟨i, hi⟩ := List.getElem?_of_mem ht
  obtain ⟨hn, -⟩ := (reaches_placed hname hdata hnone h).2 i t hi
  have hlast : t.number + 1 = THREADS_COUNT :=
    reaches_named hname hdata hnone hin n h t ht hpc
  rcases hlost with hnot | ⟨m, c₁, h₁, hfails, u, hu, hulast, hupc⟩
  · refine hnot ?_
    rw [show THREADS_COUNT - 1 = t.number from by omega]
    exact List.mem_of_getElem? hn
  · have hrunning : u.finished = false := by
      rw [Worker.finished]
      rcases hupc with hp | hp | ⟨o, hp⟩ <;> rw [hp]
    by_cases hmn : m < n
    · -- it has returned nothing, and stays so
      obtain ⟨k, rfl⟩ : ∃ k, n = m + (k + 1) := ⟨n - m - 1, by omega⟩
      have hrest := h₁.split h
      rw [answersFrom_succ] at hrest
      obtain ⟨c₂, hstep, hrest⟩ := Option.bind_eq_some_iff.mp hrest
      obtain ⟨fs₁, ts₁⟩ := c₁
      rw [System.poolStep_some _ hu, gives_up hfails hupc, Option.map_some] at hstep
      obtain rfl := Option.some.inj hstep
      have hset := @poolRun_stays dev path _ (u.goto (.returned false)) rfl _ _ _
        (List.getElem?_set_self (List.getElem?_eq_some_iff.mp hu).1) hrest
      have hun := ((reaches_placed hname hdata hnone h₁).2 _ u hu).1
      have hpos : i = (w.kern.host.answer (w.kern.tick + 6 + m)).who := by
        refine (List.getElem?_inj (List.getElem?_eq_some_iff.mp hn).1
          ((createdBy_sublist _ _ _).nodup List.nodup_range)).mp ?_
        rw [hn, hun, show t.number = u.number from by omega]
      rw [hpos] at hi
      obtain rfl := Option.some.inj (hi.symm.trans hset)
      cases hpc
    · -- all had returned before
      obtain ⟨k, rfl⟩ : ∃ k, m = n + k := ⟨m - n, by omega⟩
      obtain ⟨fs, ts⟩ := c
      have hrest := h.split h₁
      rw [poolRun_finished hfin] at hrest
      obtain rfl := Option.some.inj hrest
      exact absurd (hfin u (List.mem_of_getElem? hu)) (by rw [hrunning]; decide)

/-! ## Whether a worker gets its name -/

omit hname hdata hnone

/-- No step gives or takes another name than `<path>.s`. -/
theorem step_names {a : Answer} {fs fs' : FileStore} {t t' : Worker} {p : Path}
    (hp : p ≠ get_security_path_by_path path) (h : Worker.step dev path a fs t = some (fs', t')) :
    fs'.names p = fs.names p := by
  have hpwrite : ∀ fd buff off, (Worker.pwrite a fs fd buff off).names p = fs.names p := by
    intro fd buff off
    rw [Worker.pwrite]
    split
    · rfl
    · rfl
  have hcreate : (fs.createTrunc (get_security_path_by_path path)).1.names p = fs.names p := by
    rw [FileStore.createTrunc]
    split
    · exact FileStore.create_names_ne _ hp
    · rfl
  have hremove : (fs.unlink (get_security_path_by_path path)).names p = fs.names p :=
    Function.update_of_ne hp ..
  unfold Worker.step at h
  dsimp only at h
  split at h
  all_goals
    repeat' split at h
    all_goals first
      | cases h
        first
        | rfl
        | exact hpwrite ..
        | exact hcreate
        | exact hremove
      | cases h

/-- Nor does a run of the workers. -/
theorem reaches_names {p : Path} (hp : p ≠ get_security_path_by_path path) :
    ∀ n {c : FileStore × List Worker}, Reaches dev path w size n c →
      c.1.names p = w.kern.files.names p := by
  intro n
  induction n with
  | zero =>
      intro c h
      obtain rfl := Option.some.inj h
      rfl
  | succ n ih =>
      intro c' h
      obtain ⟨⟨fs, ts⟩, hc, hstep⟩ := h.succ
      obtain ⟨fs', ts'⟩ := c'
      have hbefore := ih hc
      rcases System.poolStep_cases _ hstep with ⟨rfl, -⟩ | ⟨i, u, u', -, -, hone, -⟩
      · exact hbefore
      · exact (step_names hp hone).trans hbefore

/-- The first step of the worker in place `i` is the one after `m` steps of the pool. -/
def First (host : Host) (t i m : Nat) : Prop :=
  (host.answer (t + m)).who = i ∧ ∀ l, l < m → (host.answer (t + l)).who ≠ i

/-- From this tick on: the attributes are made, and the first step of some worker that was
    created, the allocation of its name, does not fail. -/
def GetsName (host : Host) (t : Nat) : Prop :=
  (host.answer t).fails = false ∧
    ∃ i m, i < (createdBy host (t + 1) (List.range THREADS_COUNT)).length ∧
      First host (t + 6) i m ∧ (host.answer (t + 6 + m)).fails = false

theorem reaches_length (h : Reaches dev path w size n c) :
    c.2.length = (createdBy w.kern.host (w.kern.tick + 1) (List.range THREADS_COUNT)).length := by
  rw [System.poolRun_length _ _ h]
  exact List.length_map ..

/-- While nobody gets a name, a worker has not begun or has given up, and the files stay. -/
theorem unnamed_run
    (hno : ∀ i m, i < (createdBy w.kern.host (w.kern.tick + 1) (List.range THREADS_COUNT)).length →
      First w.kern.host (w.kern.tick + 6) i m →
        (w.kern.host.answer (w.kern.tick + 6 + m)).fails = true) :
    ∀ n {c : FileStore × List Worker}, Reaches dev path w size n c →
      c.1 = w.kern.files ∧ ∀ (i : Nat) (t : Worker), c.2[i]? = some t →
        (t.pc = .start ∧ ∀ l, l < n → (w.kern.host.answer (w.kern.tick + 6 + l)).who ≠ i) ∨
          t.pc = .returned false := by
  intro n
  induction n with
  | zero =>
      intro c h
      obtain rfl := Option.some.inj h
      refine ⟨rfl, fun i t ht => .inl ⟨?_, fun l hl => absurd hl (Nat.not_lt_zero l)⟩⟩
      obtain ⟨k, -, rfl⟩ := List.mem_map.mp (List.mem_of_getElem? ht)
      rfl
  | succ n ih =>
      intro c' h
      obtain ⟨⟨fs, ts⟩, hc, hstep⟩ := h.succ
      obtain ⟨hfs, hts⟩ := ih hc
      obtain rfl : fs = w.kern.files := hfs
      let a := w.kern.host.answer (w.kern.tick + 6 + n)
      -- who does not move stands where it stood
      have hrest : ∀ i t, ts[i]? = some t → a.who ≠ i →
          (t.pc = .start ∧ ∀ l, l < n + 1 → (w.kern.host.answer (w.kern.tick + 6 + l)).who ≠ i) ∨
            t.pc = .returned false := by
        intro i t ht hne
        refine (hts i t ht).imp_left fun h => ⟨h.1, fun l hl => ?_⟩
        by_cases hln : l = n
        · rw [hln]
          exact hne
        · exact h.2 l (by omega)
      cases hu : ts[a.who]? with
      | none =>
          rw [System.poolStep_none _ hu] at hstep
          obtain rfl := Option.some.inj hstep
          refine ⟨rfl, fun i t ht => hrest i t ht fun heq => ?_⟩
          rw [heq] at hu
          cases hu.symm.trans ht
      | some u =>
          have hlt : a.who < ts.length := (List.getElem?_eq_some_iff.mp hu).1
          obtain ⟨u', hone, hend⟩ : ∃ u', (workers dev path).step a w.kern.files u =
              some (w.kern.files, u') ∧ u'.pc = .returned false := by
            rcases hts a.who u hu with ⟨hpc, hfirst⟩ | hpc
            · have hfails := hno a.who n (by rw [← reaches_length hc]; exact hlt) ⟨rfl, hfirst⟩
              exact ⟨_, gives_up hfails (.inl hpc), rfl⟩
            · refine ⟨u, ?_, hpc⟩
              show Worker.step dev path a w.kern.files u = _
              simp only [Worker.step, hpc]
          rw [System.poolStep_some _ hu, hone] at hstep
          obtain rfl := Option.some.inj hstep
          refine ⟨rfl, fun i t ht => ?_⟩
          have ht : (ts.set a.who u')[i]? = some t := ht
          by_cases hi : a.who = i
          · rw [hi, List.getElem?_set_self (hi ▸ hlt)] at ht
            obtain rfl := Option.some.inj ht
            exact .inr hend
          · rw [List.getElem?_set_ne hi] at ht
            exact hrest i t ht hi

/-- In front of the header, with a name. -/
def Unready (t : Worker) : Prop :=
  t.pc = .clear ∨ t.pc = .create ∨ t.pc = .waiting ∨ t.pc = .probe

/-- As long as `<path>.s` does not exist, a worker gets no further. -/
theorem unready_step {a : Answer} {fs fs' : FileStore} {t t' : Worker}
    (hnone' : fs'.names (get_security_path_by_path path) = none)
    (hnone : fs.names (get_security_path_by_path path) = none) (ht : Unready t)
    (h : Worker.step dev path a fs t = some (fs', t')) : Unready t' := by
  rcases ht with hpc | hpc | hpc | hpc
  · simp only [Worker.step, hpc, Worker.there_none hnone, Bool.false_eq_true, if_false] at h
    obtain ⟨-, rfl⟩ := Prod.mk.inj (Option.some.inj h)
    exact .inr (.inl rfl)
  · simp only [Worker.step, hpc] at h
    split at h
    · obtain ⟨-, rfl⟩ := Prod.mk.inj (Option.some.inj h)
      exact .inr (.inr (.inl rfl))
    · obtain ⟨rfl, -⟩ := Prod.mk.inj (Option.some.inj h)
      cases hnone'.symm.trans (createTrunc_opened fs (get_security_path_by_path path)).1
  · simp only [Worker.step, hpc, Worker.there_none hnone, Bool.false_eq_true, if_false] at h
    obtain ⟨-, rfl⟩ := Prod.mk.inj (Option.some.inj h)
    exact .inr (.inr (.inl hpc))
  · simp only [Worker.step, hpc, hnone] at h
    obtain ⟨-, rfl⟩ := Prod.mk.inj (Option.some.inj h)
    exact .inr (.inr (.inl rfl))

/-- A worker with a name stays in front of the header until `<path>.s` exists. -/
theorem named_run {i m : Nat} (hfirst : First w.kern.host (w.kern.tick + 6) i m)
    (hok : (w.kern.host.answer (w.kern.tick + 6 + m)).fails = false)
    (hlt : i < (createdBy w.kern.host (w.kern.tick + 1) (List.range THREADS_COUNT)).length)
    (hnone : w.kern.files.names (get_security_path_by_path path) = none) :
    ∀ n {c : FileStore × List Worker}, Reaches dev path w size n c →
      c.1.names (get_security_path_by_path path) ≠ none ∨
      ∃ t, c.2[i]? = some t ∧ (t.pc = .start ∧ n ≤ m ∨ Unready t) := by
  intro n
  induction n with
  | zero =>
      intro c h
      obtain rfl := Option.some.inj h
      let is := createdBy w.kern.host (w.kern.tick + 1) (List.range THREADS_COUNT)
      have hlt : i < is.length := hlt
      refine .inr ⟨workerArgs size is[i], ?_, .inl ⟨rfl, Nat.zero_le m⟩⟩
      show (List.map _ _)[i]? = _
      rw [List.getElem?_map, List.getElem?_eq_getElem hlt]
      rfl
  | succ n ih =>
      intro c' h
      obtain ⟨⟨fs, ts⟩, hc, hstep⟩ := h.succ
      obtain ⟨fs', ts'⟩ := c'
      let a := w.kern.host.answer (w.kern.tick + 6 + n)
      by_cases hthere' : fs'.names (get_security_path_by_path path) = none
      swap
      · exact .inl hthere'
      right
      -- it was not there before either
      have hthere : fs.names (get_security_path_by_path path) = none := by
        by_contra hs
        obtain ⟨s, hs⟩ := Option.ne_none_iff_exists'.mp hs
        rcases System.poolStep_cases _ hstep with ⟨rfl, -⟩ | ⟨k, u, u', hu, -, hone, -⟩
        · cases hthere'.symm.trans hs
        · have hplaced := ((reaches_keeps (J := fun _ => True) (fun _ h => h) trivial hnone hc).2
            k u hu).2
          cases hthere'.symm.trans ((placed_step hplaced hone).1.name hs)
      obtain ⟨t, ht, hpc⟩ := (ih hc).resolve_left fun h => h hthere
      have ht : ts[i]? = some t := ht
      have hts : i < ts.length := (List.getElem?_eq_some_iff.mp ht).1
      by_cases hi : a.who = i
      · rw [System.poolStep_some _ (show ts[(workers dev path).pick a]? = some t by
          show ts[a.who]? = some t
          rw [hi]
          exact ht)] at hstep
        obtain ⟨⟨fs₁, t'⟩, hone, heq⟩ := Option.map_eq_some_iff.mp hstep
        obtain ⟨rfl, rfl⟩ := Prod.mk.inj heq
        refine ⟨t', ?_, .inr ?_⟩
        · show (ts.set a.who t')[i]? = some t'
          rw [hi]
          exact List.getElem?_set_self hts
        · rcases hpc with ⟨hpc, hnm⟩ | hpc
          · -- its first step, which does not fail
            have hnm : n = m := by
              by_contra hne
              exact hfirst.2 n (by omega) hi
            have hone : Worker.step dev path a fs t = some (fs₁, t') := hone
            rw [show a = w.kern.host.answer (w.kern.tick + 6 + m) from by rw [← hnm]] at hone
            simp only [Worker.step, hpc, hok, Bool.false_eq_true, if_false] at hone
            split at hone
            · cases hone
            · split at hone
              · obtain ⟨-, rfl⟩ := Prod.mk.inj (Option.some.inj hone)
                exact .inl rfl
              · obtain ⟨-, rfl⟩ := Prod.mk.inj (Option.some.inj hone)
                exact .inr (.inr (.inl rfl))
          · exact unready_step hthere' hthere hpc hone
      · -- another worker moves
        have hsame : ts'[i]? = some t := by
          rcases System.poolStep_cases _ hstep with ⟨-, rfl⟩ | ⟨k, u, u', -, hpick, -, rfl⟩
          · exact ht
          · rw [List.getElem?_set_ne fun heq => hi (by
              show (workers dev path).pick a = i
              rw [hpick, heq])]
            exact ht
        refine ⟨t, hsame, hpc.imp_left fun h => ⟨h.1, ?_⟩⟩
        by_contra hlt
        have hnm : n = m := by omega
        exact hi (by rw [← hfirst.1, ← hnm])

end Reaches

section Named

variable {dev : Device} {path : Path} {size : Nat} {w w' : World} {r : Int}

/-- **Without a name** a conversion by workers does nothing. -/
theorem unnamed_inv (hno : ¬ GetsName w.kern.host w.kern.tick)
    (h : rebuild_workers dev path size w = .ok (r, w')) :
    r = 0 ∧ w'.kern.files = w.kern.files := by
  rcases rebuild_workers_inv h with ⟨-, hr, hfiles⟩ | ⟨hattr, num, n, fs, ts, -, hrun, hfin, hend⟩
  · exact ⟨hr, hfiles⟩
  have hfails : ∀ i m, i < (createdBy (numbered w.kern.host num) (w.kern.tick + 1)
      (List.range THREADS_COUNT)).length →
      First (numbered w.kern.host num) (w.kern.tick + 6) i m →
        ((numbered w.kern.host num).answer (w.kern.tick + 6 + m)).fails = true := by
    intro i m hi hfirst
    rw [createdBy_numbered] at hi
    show (w.kern.host.answer (w.kern.tick + 6 + m)).fails = true
    by_contra hok
    exact hno ⟨hattr, i, m, hi, hfirst, by simpa using hok⟩
  obtain ⟨hfs, hts⟩ := unnamed_run (w := withNumbers w num) hfails n hrun.1
  have hnobody : ∀ t ∈ ts, t.pc = .returned false := by
    intro t ht
    obtain ⟨i, hi⟩ := List.getElem?_of_mem ht
    rcases hts i t hi with ⟨hpc, -⟩ | hpc
    · have hdone := hfin t ht
      rw [Worker.finished, hpc] at hdone
      cases hdone
    · exact hpc
  rcases hend with ⟨hr, -, hfiles⟩ | ⟨-, ⟨t, ht, hpc⟩, -⟩
  · exact ⟨hr, hfiles.trans hfs⟩
  · cases (hnobody t ht).symm.trans hpc

/-- **With a name** it leaves `<path>.s`, if it does not report success. -/
theorem named_inv (hyes : GetsName w.kern.host w.kern.tick)
    (hnone : w.kern.files.names (get_security_path_by_path path) = none)
    (h : rebuild_workers dev path size w = .ok (r, w')) :
    (r = 0 ∧ w'.kern.files.names (get_security_path_by_path path) ≠ none) ∨ r = 1 := by
  obtain ⟨hattr, i, m, hi, hfirst, hok⟩ := hyes
  rcases rebuild_workers_inv h with ⟨hno, -⟩ | ⟨-, num, n, fs, ts, -, hrun, hfin, hend⟩
  · cases hno.symm.trans hattr
  rcases hend with ⟨hr, -, hfiles⟩ | ⟨hr, -⟩
  swap
  · exact .inr hr
  refine .inl ⟨hr, ?_⟩
  rw [hfiles]
  rcases named_run (w := withNumbers w num) hfirst hok (by
      show i < (createdBy (numbered w.kern.host num) _ _).length
      rw [createdBy_numbered]
      exact hi) hnone n hrun.1 with hthere | ⟨t, ht, hpc⟩
  · exact hthere
  · -- nobody is in front of the header any more
    have hdone := hfin t (List.mem_of_getElem? ht)
    rw [Worker.finished] at hdone
    rcases hpc with ⟨hpc, -⟩ | hpc | hpc | hpc | hpc <;> · rw [hpc] at hdone; cases hdone

end Named

end TeFailure
