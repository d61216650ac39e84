import TransEncrypt.TransparentProofs

/-! # Several hooked processes on one file system

    Every process has descriptors, a table and a host of its own; the files are common to all.
    The processes make their calls in any order, and any of them may end at any time, whatever
    it has open, and be replaced by a new one.

    * `Processes`: the plain file system that they are meant to share;
    * `shadows_onward`: a call of one process keeps what the others stand for;
    * `processes_transparent`: every run of granted calls of all processes is a run of the
      plain file system. -/

namespace TeProcesses

open Posix Overlay TeHeader Hoare TeProgram TeOpen TeAcquire TeSession TeTransparent
open Plain Refinement

/-! ## The plain side -/

/-- Names and contents are common, descriptors belong to a process. -/
structure Processes where
  names : Path → Option Nat
  bytes : Nat → List UInt8
  opened : Nat → Int → Option Handle

/-- What a process does, or that it ends and another one takes its place. -/
inductive Event where
  | call (q : Call)
  | restart

namespace Processes

variable (s : Processes)

/-- The system as one process has it. -/
def view (p : Nat) : PlainSystem := ⟨s.names, s.bytes, s.opened p⟩

/-- The process `p` has come to `t`. -/
def after (p : Nat) (t : PlainSystem) : Processes :=
  ⟨t.names, t.bytes, Function.update s.opened p t.opened⟩

@[simp] theorem after_view_self (p : Nat) (t : PlainSystem) : (s.after p t).view p = t :=
  PlainSystem.ext rfl rfl (Function.update_self ..)

theorem after_view_ne {p p' : Nat} (hne : p' ≠ p) (t : PlainSystem) :
    (s.after p t).view p' = { t with opened := s.opened p' } :=
  PlainSystem.ext rfl rfl (Function.update_of_ne hne ..)

/-- A process makes a call; what it creates is not in use by any process. -/
inductive Step (s : Processes) : Nat × Event → Option Reply → Processes → Prop where
  | call {p : Nat} {q : Call} {r : Reply} {t : PlainSystem} : (s.view p).Step q r t →
      (∀ path i, s.names path = none → t.names path = some i → ∀ p', (s.view p').Unused i) →
      Step s (p, .call q) (some r) (s.after p t)
  | restart {p : Nat} :
      Step s (p, .restart) none (s.after p { s.view p with opened := fun _ => none })

/-- What a process may ask for now. -/
def May {dev : Device} (S : Scope dev) (s : Processes) : Nat × Event → Prop
  | (p, .call q) => Granted S (s.view p) q
  | (_, .restart) => True

end Processes

/-- The plain file system of all processes. -/
def plainProcesses : Machine Processes (Nat × Event) (Option Reply) := ⟨Processes.Step⟩

/-! ## The hooked side -/

/-- The process finds the files as another one has left them. -/
def onto (w : World) (fs : FileStore) : World :=
  if h : w.kern.files.next ≤ fs.next then { w with kern := w.kern.setFiles fs h } else w

/-- The process `p` has come to `w'`, and the others find its files. -/
def advance (ws : Nat → World) (p : Nat) (w' : World) (p' : Nat) : World :=
  if p' = p then w' else onto (ws p') w'.kern.files

inductive HookedStep (dev : Device) (env : Nat → Env) (ws : Nat → World) :
    Nat × Event → Option Reply → (Nat → World) → Prop where
  | call {p : Nat} {q : Call} {r : Reply} {w' : World} : run dev (env p) q (ws p) = .ok (r, w') →
      HookedStep dev env ws (p, .call q) (some r) (advance ws p w')
  | restart {p : Nat} {w' : World} : Respawned (ws p) w' →
      HookedStep dev env ws (p, .restart) none (advance ws p w')

/-- Hooked processes, each under conditions of its own. -/
def hookedProcesses (dev : Device) (env : Nat → Env) :
    Machine (Nat → World) (Nat × Event) (Option Reply) := ⟨HookedStep dev env⟩

theorem advance_self (ws : Nat → World) (p : Nat) (w' : World) : advance ws p w' p = w' :=
  if_pos rfl

theorem onto_of_le {w : World} {fs : FileStore} (h : w.kern.files.next ≤ fs.next) :
    onto w fs = { w with kern := w.kern.setFiles fs h } := dif_pos h

/-! ## What the others stand for -/

/-- Every process stands for its view of the plain system, on the same files. -/
structure Together {dev : Device} (S : Scope dev) (ws : Nat → World) (s : Processes) : Prop where
  one : ∀ p p', (ws p).kern.files = (ws p').kern.files
  each : ∀ p, Shadows S (ws p) (s.view p)

section Onward

variable {dev : Device} {S : Scope dev} {w w' : World} {s t : PlainSystem}

/-- **A call of another process.**  It has led from the names and contents of `s` to those of
    `t`; what is open here stays open, on the same plain files. -/
theorem shadows_onward (hs : Shadows S w s) (ht : Shadows S w' t)
    (hc : Carries dev w.kern.files s w'.kern.files t) :
    Shadows S { w with kern := w.kern.setFiles w'.kern.files hc.next }
      { t with opened := s.opened } where
  calm := hs.calm
  input := hs.input
  consistent := hs.consistent.kept (.setFiles _ _ hc.next) rfl
  files := by
    refine ⟨ht.files.known, ht.files.unknown, ht.files.siblings, ht.files.content,
      fun {fd h} hf => ?_, fun {path C} hb => ?_⟩
    · obtain ⟨id, hh⟩ := hs.held hf
      obtain ⟨fi, -, hname⟩ := hh.entry
      exact hc.keepsSeal (w.kern.files.names_lt _ _ hname) (hs.files.inUse hf)
    · -- the file beside the scope is the same one
      obtain ⟨i, hname, hdata, hi⟩ := ht.files.beside hb
      obtain ⟨j, hname', -, hj⟩ := hs.files.beside hb
      obtain rfl : j = i := Option.some.inj ((hc.names hname').symm.trans hname)
      exact ⟨j, hname, hdata, hi.1, hj.2⟩
  held := by
    intro fd h hf
    obtain ⟨id, hh⟩ := hs.held hf
    exact ⟨id, hh.same rfl rfl rfl hc.names⟩
  apart := fun hf hf' => hs.apart hf hf'

end Onward

/-- One process has moved, and the files with it. -/
theorem Together.advance {dev : Device} {S : Scope dev} {ws : Nat → World} {s : Processes}
    (h : Together S ws s) {p : Nat} {w' : World} {t : PlainSystem} (ht : Shadows S w' t)
    (hc : Carries dev (ws p).kern.files (s.view p) w'.kern.files t) :
    Together S (advance ws p w') (s.after p t) := by
  have hcarries : ∀ p', Carries dev (ws p').kern.files (s.view p') w'.kern.files t := by
    intro p'
    rw [h.one p' p]
    exact ⟨hc.next, hc.names, hc.keepsSeal, hc.fresh, hc.absent⟩
  have hmoved : ∀ p', p' ≠ p → TeProcesses.advance ws p w' p' =
      { ws p' with kern := (ws p').kern.setFiles w'.kern.files (hcarries p').next } := by
    intro p' hne
    rw [TeProcesses.advance, if_neg hne, onto_of_le]
  have hfiles : ∀ p', (TeProcesses.advance ws p w' p').kern.files = w'.kern.files := by
    intro p'
    by_cases hp : p' = p
    · rw [hp, advance_self]
    · rw [hmoved p' hp]
      rfl
  refine ⟨fun p₁ p₂ => (hfiles p₁).trans (hfiles p₂).symm, fun p' => ?_⟩
  by_cases hp : p' = p
  · rw [hp, advance_self, s.after_view_self]
    exact ht
  · rw [hmoved p' hp, s.after_view_ne hp]
    exact shadows_onward (h.each p') ht (hcarries p')

/-! ## Every run -/

section Runs

variable {dev : Device} {S : Scope dev} {env : Nat → Env} (henv : ∀ p, (env p).Active)
  {ws : Nat → World} {s : Processes} (h : Together S ws s)
include h

/-- No process has a file open that is not there yet. -/
theorem unused_of_fresh {fs' : FileStore} {p : Nat} {t : PlainSystem}
    (hc : Carries dev (ws p).kern.files (s.view p) fs' t) {path : Path} {i : Nat}
    (hnone : s.names path = none) (hi : t.names path = some i) (p' : Nat) :
    (s.view p').Unused i := by
  have hnext : (ws p').kern.files.next ≤ i := by
    rw [h.one p' p]
    exact hc.fresh hnone hi
  have hlt : ∀ {q j}, (ws p').kern.files.names q = some j → j ≠ i := by
    rintro q j hq rfl
    exact absurd ((ws p').kern.files.names_lt _ _ hq) (Nat.not_lt.mpr hnext)
  refine ⟨fun q hq => hlt ((h.each p').files.known hq).2 rfl, fun fd a hf => ?_⟩
  obtain ⟨id, hh⟩ := (h.each p').held hf
  obtain ⟨fi, -, hname⟩ := hh.entry
  exact hlt hname

/-- A restart of one process. -/
theorem respawned_step {p : Nat} {w' : World} (hre : Respawned (ws p) w') :
    Together S (advance ws p w')
      (s.after p { s.view p with opened := fun _ => none }) := by
  have hp := h.each p
  have hmirrors : Mirrors S w'.kern.files { s.view p with opened := fun _ => none } := by
    rw [hre.files]
    refine ⟨hp.files.known, hp.files.unknown, hp.files.siblings, hp.files.content,
      fun hf => (by cases hf), fun {path C} hb => ?_⟩
    obtain ⟨j, hname, hdata, hj⟩ := hp.files.beside hb
    exact ⟨j, hname, hdata, hj.1, fun fd a hf => by cases hf⟩
  exact h.advance (shadows_start hre.calm hre.input hre.table hmirrors fun _ => rfl)
    (.same hre.files rfl rfl)

include henv

/-- One step of one process. -/
theorem process_step {p : Nat} {q : Call} (hq : Granted S (s.view p) q) : ∃ r w' t,
    run dev (env p) q (ws p) = .ok (r, w') ∧ s.Step (p, .call q) (some r) (s.after p t) ∧
      Together S (advance ws p w') (s.after p t) := by
  obtain ⟨r, w', t, hrun, hstep, ht, hc⟩ := call_shadows (henv p) (h.each p) hq
  exact ⟨r, w', t, hrun, .call hstep fun path i hnone hi => unused_of_fresh h hc hnone hi,
    h.advance ht hc⟩

omit h in
/-- The processes refine the plain file system. -/
theorem processes_refine :
    Refines (hookedProcesses dev env) plainProcesses (Processes.May S) (Together S) where
  step := by
    intro ws s q r ws' h hq hrun
    cases hrun with
    | call hrun =>
        obtain ⟨r', w', t, hrun', hstep, h'⟩ := process_step henv h hq
        obtain ⟨rfl, rfl⟩ := Prod.mk.inj (Except.ok.inj (hrun'.symm.trans hrun))
        exact ⟨_, hstep, h'⟩
    | restart hre => exact ⟨_, .restart, respawned_step h hre⟩
  answers := by
    rintro ws s ⟨p, q⟩ h hq
    cases q with
    | call q =>
        obtain ⟨r, w', t, hrun, -⟩ := process_step henv h hq
        exact ⟨_, _, .call hrun⟩
    | restart =>
        have hre : Respawned (ws p) { ws p with file_info_list := [] } :=
          ⟨rfl, rfl, (h.each p).calm, (h.each p).input⟩
        exact ⟨_, _, .restart hre⟩

end Runs

/-- **Transparent processes.**  Any number of served processes work on one file system, every
    one of them standing for its view of the same plain files.  Every run of their granted
    calls, in any order and with processes ending and starting at any point, has the replies
    of a run of one plain file system with all their descriptors; afterwards each process
    stands for its view of the state reached, and answers the next granted call. -/
theorem processes_transparent {dev : Device} {S : Scope dev} {env : Nat → Env}
    {ws ws' : Nat → World} {s : Processes} {l : List ((Nat × Event) × Option Reply)}
    (henv : ∀ p, (env p).Active) (h : Together S ws s)
    (hrun : (hookedProcesses dev env).Trace ws l ws')
    (hmay : plainProcesses.Within (Processes.May S) s l) :
    ∃ s', plainProcesses.Trace s l s' ∧ Together S ws' s' ∧
      ∀ q, Processes.May S s' q → ∃ r ws'', HookedStep dev env ws' q r ws'' :=
  (processes_refine henv).live h hrun hmay

/-! ## Two processes and one file -/

/-- What is not an open has one answer at most. -/
theorem processes_single {p : Nat} {e : Event}
    (he : ∀ path flags, e ≠ .call (.openFile path flags)) : plainProcesses.Single (p, e) := by
  intro s a a' s₁ s₂ h h'
  cases h with
  | restart =>
      cases h'
      exact ⟨rfl, rfl⟩
  | call hstep =>
      cases h' with
      | call hstep' =>
          obtain ⟨rfl, rfl⟩ :=
            plain_single (fun path flags heq => he path flags (by rw [heq])) hstep hstep'
          exact ⟨rfl, rfl⟩

/-- What one process does alone, when it opens nothing. -/
theorem walk_alone {dev : Device} {S : Scope dev} {p : Nat} {l : List (Call × Reply)}
    {v t : PlainSystem} (h : plain.Walk (Granted S) v l t)
    (hl : ∀ x ∈ l, ∀ path flags, x.1 ≠ .openFile path flags) : ∀ {s : Processes}, s.view p = v →
    plainProcesses.Walk (Processes.May S) s (l.map fun x => ((p, .call x.1), some x.2))
      (s.after p t) := by
  induction h with
  | nil v =>
      rintro s rfl
      have hsame : s.after p (s.view p) = s :=
        congrArg (Processes.mk s.names s.bytes) (Function.update_eq_self p s.opened)
      rw [hsame]
      exact .nil s
  | @cons v v' t q r l hq hsingle hstep _ ih =>
      rintro s rfl
      have hno := hl _ List.mem_cons_self
      have hnames : v'.names = s.names := by
        have hstep : PlainSystem.Step (s.view p) q r v' := hstep
        cases hstep with
        | opened => exact absurd rfl (hno _ _)
        | created => exact absurd rfl (hno _ _)
        | absent => exact absurd rfl (hno _ _)
        | _ => rfl
      have hcall : plainProcesses.step s (p, .call q) (some r) (s.after p v') := by
        refine .call hstep fun path i hnone hi => ?_
        rw [hnames, hnone] at hi
        cases hi
      have hrest := ih (fun x hx => hl x (List.mem_cons_of_mem _ hx)) (s.after_view_self p v')
      rw [show (s.after p v').after p t = s.after p t from
        congrArg (Processes.mk t.names t.bytes) (Function.update_idem ..)] at hrest
      exact .cons hq (processes_single fun path flags heq => hno path flags (Event.call.inj heq))
        hcall hrest

/-- An open of a name that is there. -/
theorem process_opens {dev : Device} {S : Scope dev} {env : Nat → Env} (henv : ∀ p, (env p).Active)
    {ws : Nat → World} {s : Processes} (h : Together S ws s) {p i : Nat} {path : Path}
    {flags : Flags} (hname : s.names path = some i) (ht : flags.trunc = false)
    (happ : flags.append = false) (hx : (flags.creat && flags.excl) = false) : ∃ fd ws',
    (hookedProcesses dev env).step ws (p, .call (.openFile path flags)) (some (.result fd)) ws' ∧
    Together S ws' (s.after p ((s.view p).hold fd ⟨i, 0, flags.acc⟩)) ∧
    Processes.May S s (p, .call (.openFile path flags)) ∧
    ∀ t, plainProcesses.step s (p, .call (.openFile path flags)) (some (.result fd)) t →
      t = s.after p ((s.view p).hold fd ⟨i, 0, flags.acc⟩) := by
  have hname' : (s.view p).names path = some i := hname
  have hq : Granted S (s.view p) (.openFile path flags) :=
    ⟨((h.each p).files.known hname').1, ht, happ, fun _ => hx,
      fun hnone => by cases hname'.symm.trans hnone⟩
  obtain ⟨r, w', t, hrun, hstep, htogether⟩ := process_step henv h hq
  have hopened : ∃ fd, r = .result fd ∧ t = (s.view p).hold fd ⟨i, 0, flags.acc⟩ := by
    generalize hu : s.after p t = u at hstep
    cases hstep with
    | @call _ _ _ t' hcall _ =>
        obtain ⟨fd, rfl, rfl⟩ := open_named hname' hcall
        have ht' := congrArg (Processes.view · p) hu
        simp only [Processes.after_view_self] at ht'
        exact ⟨fd, rfl, ht'⟩
  obtain ⟨fd, rfl, rfl⟩ := hopened
  refine ⟨fd, _, .call hrun, htogether, hq, fun u hu => ?_⟩
  cases hu with
  | call hcall =>
      obtain ⟨fd', heq, rfl⟩ := open_named hname' hcall
      obtain rfl : fd = fd' := Reply.result.inj heq
      rfl

/-- All processes find the file `"f"` with its 20 zeros. -/
def textProcesses : Processes := ⟨textFile.names, textFile.bytes, fun _ => textFile.opened⟩

theorem textProcesses_together : Together aScope (fun _ => sealedFile) textProcesses :=
  ⟨fun _ _ => rfl, fun _ => textFile_shadows⟩

/-- Process 1 opens the file and appends to its text; process 2 opens it; process 1 ends with
    its descriptor open, and another one takes its place; process 2 reads what was appended,
    and the new process 1 asks for the size. -/
def sharedRun (fd fd' : Int) : List ((Nat × Event) × Option Reply) :=
  ((1, .call (.openFile Kernel.aName { acc := .rdwr })), some (.result fd)) ::
    ((appended fd).map fun x => ((1, .call x.1), some x.2)) ++
    [((2, .call (.openFile Kernel.aName { acc := .rdonly })), some (.result fd')),
      ((1, .restart), none),
      ((2, .call (.read fd' 40)), some (.data 34 (zeroed 20 ++ List.replicate 14 7))),
      ((1, .call (.stat Kernel.aName)), some (.state (some ⟨true, 34⟩)))]

theorem processes_transparent_shared : ∃ fd fd' ws s' r ws',
    (hookedProcesses aDevice fun _ => activeEnv).Trace (fun _ => sealedFile) (sharedRun fd fd') ws ∧
    plainProcesses.Trace textProcesses (sharedRun fd fd') s' ∧
    HookedStep aDevice (fun _ => activeEnv) ws (1, .call (.stat Kernel.aName)) r ws' := by
  have henv : ∀ _ : Nat, activeEnv.Active := fun _ => ⟨rfl, rfl, rfl⟩
  have hname : textProcesses.names Kernel.aName = some 1 := rfl
  let P : List UInt8 := zeroed 20 ++ List.replicate 14 7
  -- process 1
  obtain ⟨fd, ws₁, hopen₁, h₁, hmay₁, hsame₁⟩ := @process_opens _ _ _ henv _ _
    textProcesses_together 1 1 Kernel.aName { acc := .rdwr } hname rfl rfl rfl
  let s₁ := textProcesses.after 1 ((textProcesses.view 1).hold fd ⟨1, 0, .rdwr⟩)
  obtain ⟨t, hwalk, hbytes, -, hnames⟩ := @appended_walk aScope fd (s₁.view 1) (by
    rw [textProcesses.after_view_self]
    exact PlainSystem.hold_self ..) rfl
  have hwalk₁ := walk_alone (s := s₁) hwalk (by simp [appended]) rfl
  let s₂ := s₁.after 1 t
  obtain ⟨ws₂, htrace₁, h₂⟩ := (processes_refine henv).follow hwalk₁ h₁
  -- process 2
  have hname₂ : s₂.names Kernel.aName = some 1 := by
    show t.names _ = _
    rw [hnames]
    rfl
  obtain ⟨fd', ws₃, hopen₂, h₃, hmay₂, hsame₂⟩ := @process_opens _ _ _ henv _ _
    h₂ 2 1 Kernel.aName { acc := .rdonly } hname₂ rfl rfl rfl
  let h : Handle := ⟨1, 0, .rdonly⟩
  let s₃ := s₂.after 2 ((s₂.view 2).hold fd' h)
  -- process 1 ends
  let s₄ := s₃.after 1 { s₃.view 1 with opened := fun _ => none }
  have hrestart : plainProcesses.step s₃ (1, .restart) none s₄ := .restart
  have hf₄ : (s₄.view 2).opened fd' = some h := by
    rw [s₃.after_view_ne (by decide)]
    show (s₃.view 2).opened fd' = some h
    rw [s₂.after_view_self]
    exact PlainSystem.hold_self ..
  have hread : ((s₄.view 2).file h).read 40 = P := by
    rw [PlainSystem.file, show (s₄.view 2).bytes 1 = P from hbytes]
    rfl
  have hstep₁ : (s₄.view 2).Step (.read fd' 40) _ _ := .read 40 hf₄
  rw [hread, PlainFile.afterRead, hread] at hstep₁
  let s₅ := s₄.after 2 ((s₄.view 2).hold fd' { h with pos := 34 })
  have hread₂ : plainProcesses.step s₄ (2, .call (.read fd' 40)) (some (.data 34 P)) s₅ :=
    .call hstep₁ fun path i hnone hi => by cases hnone.symm.trans hi
  have hname₅ : (s₅.view 1).names Kernel.aName = some 1 := hname₂
  have hstep₂ : (s₅.view 1).Step (.stat Kernel.aName) _ _ := .stat hname₅
  rw [show (s₅.view 1).bytes 1 = P from hbytes] at hstep₂
  let s₆ := s₅.after 1 (s₅.view 1)
  have hstat : plainProcesses.step s₅ (1, .call (.stat Kernel.aName))
      (some (.state (some ⟨true, 34⟩))) s₆ :=
    .call hstep₂ fun path i hnone hi => by cases hnone.symm.trans hi
  have hwalk₂ : plainProcesses.Walk (Processes.May aScope) s₃
      [((1, .restart), none), ((2, .call (.read fd' 40)), some (.data 34 P)),
        ((1, .call (.stat Kernel.aName)), some (.state (some ⟨true, 34⟩)))] s₆ :=
    .cons trivial (processes_single (by simp)) hrestart
      (.cons ⟨h, hf₄, rfl⟩ (processes_single (by simp)) hread₂
        (.cons rfl (processes_single (by simp)) hstat (.nil _)))
  obtain ⟨ws₄, htrace₂, -⟩ := (processes_refine henv).follow hwalk₂ h₃
  have hrun : (hookedProcesses aDevice fun _ => activeEnv).Trace (fun _ => sealedFile)
      (sharedRun fd fd') ws₄ :=
    .cons hopen₁ (htrace₁.append (.cons hopen₂ htrace₂))
  obtain ⟨s', htrace, -, hnext⟩ := processes_transparent henv textProcesses_together hrun (by
    refine ⟨hmay₁, fun t₁ ht₁ => ?_⟩
    obtain rfl := hsame₁ t₁ ht₁
    refine hwalk₁.within_append ⟨hmay₂, fun t₃ ht₃ => ?_⟩
    obtain rfl := hsame₂ t₃ ht₃
    exact hwalk₂.within)
  obtain ⟨r, ws', hnext⟩ := hnext (1, .call (.stat Kernel.aName)) rfl
  exact ⟨fd, fd', ws₄, s', r, ws', hrun, htrace, hnext⟩

end TeProcesses
