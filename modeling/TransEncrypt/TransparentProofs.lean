import TransEncrypt.HookProofs

/-! # Transparent encryption over whole runs

    The hooked process, as a machine that answers calls, against the plain file system: any
    number of files, sealed, still plain or not yet there, and of descriptors on them, in
    every run of calls that the plain side grants.

    * `Granted`: the calls for which the library keeps its promise; each restriction leaves
      out one of the defects that the single hooks have;
    * `call_shadows`: one granted call is answered as the plain system answers it;
    * `session_transparent`: so is every run, and the process goes on answering;
    * `lives_transparent`: so are the lives of several processes, one after the other. -/

namespace TeTransparent

open Posix Overlay TeHeader Hoare TeProgram TeDetector TeWorker TeRead TeStored TeWrite TeRebuild
open TeOpen TeSize TeSeek TeAcquire TeSession Plain Refinement

/-- A call made through the hooks. -/
def run (dev : Device) (env : Env) : Call → Sys Reply
  | .openFile path flags => do
      let fd ← open_file dev env path flags
      pure (.result fd)
  | .read fd count => do
      let r ← TeRead.read dev env fd count
      pure (.data r.1 r.2)
  | .write fd buf => do
      let r ← TeWrite.write dev env fd buf
      pure (.result r)
  | .lseek fd offset whence => do
      let r ← TeSize.lseek env fd offset whence
      pure (.result r)
  | .stat path => do
      let st ← TeSize.stat env path
      pure (.state st)
  | .fstat fd => do
      let st ← TeSize.fstat env fd
      pure (.state st)
  | .close fd => do
      let r ← TeOpen.close env fd
      pure (.result r)

/-- The hooked process as a machine. -/
def hooked_process (dev : Device) (env : Env) : Machine World Call Reply :=
  ⟨fun w q a w' => run dev env q w = .ok (a, w')⟩

/-- The calls that are promised to be transparent: files of the scope are opened without
    `O_TRUNC` and `O_APPEND`, and created for writing; what is read, and asked for its size,
    was not opened for writing only; a write fits; a seek goes to a place that exists. -/
def Granted {dev : Device} (S : Scope dev) (s : PlainSystem) : Call → Prop
  | .openFile path flags => S.In path ∧ flags.trunc = false ∧ flags.append = false ∧
      (s.names path ≠ none → (flags.creat && flags.excl) = false) ∧
      (s.names path = none → flags.creat = true → flags.acc.writable = true)
  | .read fd _ => ∃ h, s.opened fd = some h ∧ h.acc.readable = true
  | .write fd buf => ∃ h, s.opened fd = some h ∧ h.acc.writable = true ∧
      (buf ≠ [] → WriteFits dev.aes (s.bytes h.inode) h.pos buf)
  | .lseek fd offset whence => ∃ h, s.opened fd = some h ∧ 0 ≤ target (s.file h) offset whence
  | .stat path => S.In path
  | .fstat fd => ∃ h, s.opened fd = some h ∧ h.acc.readable = true
  | .close fd => ∃ h, s.opened fd = some h

/-- The call is answered, as the plain system may answer it, and the process stands for the
    plain system afterwards.  Of the files it changes no more than other processes can bear. -/
def Answers {dev : Device} (S : Scope dev) (env : Env) (w : World) (s : PlainSystem) (q : Call) :
    Prop :=
  ∃ r w' s', run dev env q w = .ok (r, w') ∧ s.Step q r s' ∧ Shadows S w' s' ∧
    Carries dev w.kern.files s w'.kern.files s'

/-! ## One call -/

section Calls

variable {dev : Device} {S : Scope dev} {env : Env} {w : World} {s : PlainSystem}
  (henv : env.Active) (hs : Shadows S w s)

include henv hs

theorem answers_read {fd : Int} {n : Nat} (hq : Granted S s (.read fd n)) :
    Answers S env w s (.read fd n) := by
  obtain ⟨h, hf, hacc⟩ := hq
  obtain ⟨id, hh⟩ := hs.held hf
  obtain ⟨t, hread⟩ := read_held henv hs.calm hh.tracks (hs.files.inUse hf) hh.pos hacc n
  refine ⟨_, _, _, ?_, .read n hf, (hs.moved hf hh ((s.file h).afterRead n).pos).quiet (.tock _ t),
    .same rfl rfl rfl⟩
  rw [run, bind_ok hread]
  rfl

theorem answers_write {fd : Int} {b : List UInt8} (hq : Granted S s (.write fd b)) :
    Answers S env w s (.write fd b) := by
  obtain ⟨h, hf, hacc, hfits⟩ := hq
  obtain ⟨id, hh⟩ := hs.held hf
  by_cases hb : b = []
  · subst hb
    refine ⟨_, { w with kern := w.kern.tock 1 }, _, ?_, .write [] hf, ?_, ?_⟩
    · rw [run, bind_ok (write_empty henv hs.calm hh.tracks hacc)]
      rfl
    · rw [s.write_nil hf]
      exact hs.quiet (.tock _ 1)
    · rw [s.write_nil hf]
      exact .same rfl rfl rfl
  · obtain ⟨H, k', hH, hrun, hquiet⟩ :=
      write_held henv hs.calm hh.tracks (hs.files.inUse hf) hh.pos hacc hb (hfits hb)
    have hstored := hs.stored (i := h.inode) (P := ((s.file h).write b).bytes) hH
      (s.used_of_opened hf)
    have hmoved := hstored.moved (h := h) hf (hh.same rfl rfl rfl fun hn => hn)
      ((s.file h).write b).pos
    refine ⟨_, _, _, ?_, .write b hf, hmoved.quiet (k := k') hquiet,
      .stored hH hquiet.files rfl rfl⟩
    rw [run, bind_ok hrun]
    rfl

theorem answers_lseek {fd : Int} {o : Int} {whence : Whence}
    (hq : Granted S s (.lseek fd o whence)) : Answers S env w s (.lseek fd o whence) := by
  obtain ⟨h, hf, ht⟩ := hq
  obtain ⟨id, hh⟩ := hs.held hf
  have hseek := lseek_held henv hs.calm hh.tracks (hs.files.inUse hf) (fun _ => hh.pos) ht
  refine ⟨_, _, _, ?_, .lseek hf ht,
    (hs.moved hf hh (target (s.file h) o whence).toNat).quiet (.tock _ 1), .same rfl rfl rfl⟩
  rw [run, bind_ok hseek]
  rfl

theorem answers_stat {path : Path} (hq : Granted S s (.stat path)) :
    Answers S env w s (.stat path) := by
  cases hname : s.names path with
  | none =>
      refine ⟨_, _, _, ?_, .missing hname, hs.quiet (.tock _ 1), .same rfl rfl rfl⟩
      rw [run, bind_ok (stat_missing henv hs.calm hs.files hq hname)]
      rfl
  | some i =>
      obtain ⟨k', hstat, hquiet⟩ := stat_known henv hs.calm hs.files hs.input hname
      refine ⟨_, _, _, ?_, .stat hname, hs.quiet hquiet, .same hquiet.files rfl rfl⟩
      rw [run, bind_ok hstat]
      rfl

theorem answers_fstat {fd : Int} (hq : Granted S s (.fstat fd)) :
    Answers S env w s (.fstat fd) := by
  obtain ⟨h, hf, hacc⟩ := hq
  obtain ⟨id, hh⟩ := hs.held hf
  refine ⟨_, _, _, ?_, .fstat hf, hs.quiet (.tock _ 4), .same rfl rfl rfl⟩
  rw [run, bind_ok (fstat_held henv hs.calm hh.tracks (hs.files.inUse hf) hs.input hacc)]
  rfl

theorem answers_close {fd : Int} (hq : Granted S s (.close fd)) :
    Answers S env w s (.close fd) := by
  obtain ⟨h, hf⟩ := hq
  obtain ⟨id, hh⟩ := hs.held hf
  refine ⟨_, _, _, ?_, .close hf, hs.released henv hf hh, .same rfl rfl rfl⟩
  rw [run, bind_ok (hh.tracks.close_run henv hs.calm)]
  rfl

theorem answers_open {path : Path} {flags : Flags} (hq : Granted S s (.openFile path flags)) :
    Answers S env w s (.openFile path flags) := by
  obtain ⟨hpath, ht, happ, hx, hacc⟩ := hq
  obtain ⟨fd, w', hrun, hopens⟩ :=
    open_runs henv hs.calm hs.files hs.input hpath ht happ hx hacc
  have hanswers : ∀ {s' : PlainSystem}, s.Step (.openFile path flags) (.result fd) s' →
      Shadows S w' s' → Carries dev w.kern.files s w'.kern.files s' →
      Answers S env w s (.openFile path flags) := by
    intro s' hstep hs' hcarries
    refine ⟨_, _, _, ?_, hstep, hs', hcarries⟩
    rw [run, bind_ok hrun]
    rfl
  have hfree : ¬ w.kern.InUse fd → s.opened fd = none := by
    intro hfresh
    cases hf : s.opened fd with
    | none => rfl
    | some h =>
        obtain ⟨id, hh⟩ := hs.held hf
        exact absurd (w.kern.find_inUse hh.find) hfresh
  cases hopens with
  | found hname hacq hnames hm hseal hcarries =>
      exact hanswers (.opened hname hacq.positive (hfree hacq.fresh))
        (hs.acquired hacq happ rfl (fun _ hn => hnames hn)
          (hm.hold hseal (PlainSystem.used_of_name hname) fd 0 flags.acc))
        (.same_plain hcarries rfl rfl)
  | created hname hnone hcr hacq hfiles =>
      exact hanswers (.created hname hcr hs.unused hacq.positive (hfree hacq.fresh))
        (hs.created (newHeader_rightsHeader dev) hacq happ hpath hname hfiles)
        (.created hnone hfiles rfl rfl)
  | absent hname hcr hfd hw =>
      subst hfd hw
      exact hanswers (.absent hname hcr) (hs.quiet (.tock _ 1)) (.same rfl rfl rfl)

/-- **One granted call.** -/
theorem call_shadows {q : Call} (hq : Granted S s q) : Answers S env w s q := by
  cases q with
  | openFile path flags => exact answers_open henv hs hq
  | read fd n => exact answers_read henv hs hq
  | write fd b => exact answers_write henv hs hq
  | lseek fd o whence => exact answers_lseek henv hs hq
  | stat path => exact answers_stat henv hs hq
  | fstat fd => exact answers_fstat henv hs hq
  | close fd => exact answers_close henv hs hq

end Calls

/-! ## Every run -/

/-- The hooked process refines the plain file system. -/
theorem hooked_refines {dev : Device} (S : Scope dev) {env : Env} (henv : env.Active) :
    Refines (hooked_process dev env) plain (Granted S) (Shadows S) where
  step := by
    intro w s q r w' hs hq hrun
    obtain ⟨r', w'', s', hrun', hstep, hs', -⟩ := call_shadows henv hs hq
    obtain ⟨rfl, rfl⟩ := Prod.mk.inj (Except.ok.inj (hrun'.symm.trans hrun))
    exact ⟨s', hstep, hs'⟩
  answers := by
    intro w s q hs hq
    obtain ⟨r, w', -, hrun, -⟩ := call_shadows henv hs hq
    exact ⟨r, w', hrun⟩

/-- **Transparent encryption.**  A process stands for a plain file system.  Every run of
    hooked calls that the plain system grants has the replies of a run of the plain system,
    the process stands for the state that one leads to, and it answers the next granted
    call. -/
theorem session_transparent {dev : Device} {S : Scope dev} {env : Env} {w w' : World}
    {s : PlainSystem} {l : List (Call × Reply)} (henv : env.Active) (hs : Shadows S w s)
    (hrun : (hooked_process dev env).Trace w l w') (hgranted : plain.Within (Granted S) s l) :
    ∃ s', plain.Trace s l s' ∧ Shadows S w' s' ∧
      ∀ q, Granted S s' q → ∃ r w'', run dev env q w' = .ok (r, w'') :=
  (hooked_refines S henv).live hs hrun hgranted

/-! ## From process to process -/

/-- A new process on the files of the last one: nothing is open but descriptor 0 and
    perhaps others that lead to none of them, and the table is empty. -/
structure Respawned (w w' : World) : Prop where
  files : w'.kern.files = w.kern.files
  table : w'.file_info_list = []
  calm : w'.kern.host.Calm
  input : w'.kern.InUse 0

/-- The plain files without descriptors. -/
def Closed (s s' : PlainSystem) : Prop := s' = { s with opened := fun _ => none }

theorem mirrors_closed {dev : Device} {S : Scope dev} {fs : FileStore} {s s' : PlainSystem}
    (hm : Mirrors S fs s) (hclosed : Closed s s') : Mirrors S fs s' := by
  subst hclosed
  refine ⟨hm.known, hm.unknown, hm.siblings, hm.content, fun hf => (by cases hf),
    fun {path C} hb => ?_⟩
  obtain ⟨j, hname, hdata, hj⟩ := hm.beside hb
  exact ⟨j, hname, hdata, hj.1, fun fd h hf => by cases hf⟩

/-- A process that has opened nothing stands for the files it finds. -/
theorem shadows_start {dev : Device} {S : Scope dev} {w : World} {s : PlainSystem}
    (hc : w.kern.host.Calm) (h0 : w.kern.InUse 0) (hl : w.file_info_list = [])
    (hm : Mirrors S w.kern.files s) (hnone : ∀ fd, s.opened fd = none) : Shadows S w s where
  calm := hc
  input := h0
  consistent := by
    refine ⟨by rw [hl]; exact List.nodup_nil, fun e he => ?_⟩
    rw [hl] at he
    cases he
  files := hm
  held := by
    intro fd h hf
    cases (hnone fd).symm.trans hf
  apart := by
    intro fd fd' h h' id hf
    cases (hnone fd).symm.trans hf

/-- So does a new process, for the files of the last one. -/
theorem shadows_respawned {dev : Device} {S : Scope dev} {w w' : World} {s : PlainSystem}
    (hm : Mirrors S w.kern.files s) (hre : Respawned w w') :
    ∃ s', Closed s s' ∧ Shadows S w' s' := by
  refine ⟨{ s with opened := fun _ => none }, rfl,
    shadows_start hre.calm hre.input hre.table ?_ fun _ => rfl⟩
  rw [hre.files]
  exact mirrors_closed hm rfl

/-- **Lives.**  Processes that come one after the other, each on the files that the one
    before left, however it ended, work with one plain file system. -/
theorem lives_transparent {dev : Device} {S : Scope dev} {env : Env} {w w' : World}
    {s : PlainSystem} {ls : List (List (Call × Reply))} (henv : env.Active) (hs : Shadows S w s)
    (hrun : (hooked_process dev env).Epochs Respawned w ls w')
    (hgranted : plain.WithinEpochs Closed (Granted S) s ls) :
    ∃ s', plain.Epochs Closed s ls s' ∧ Mirrors S w'.kern.files s' := by
  have hreset : ∀ {u u' : World} {t : PlainSystem}, Shadows S u t → Respawned u u' →
      ∃ t', Closed t t' ∧ Shadows S u' t' := fun ht hre => shadows_respawned ht.files hre
  obtain ⟨s', hrun', hs'⟩ := (hooked_refines S henv).epochs hreset hrun hs hgranted
  exact ⟨s', hrun', hs'.files⟩

/-! ## A small session -/

/-- The file `"f"`. -/
def aScope : Scope aDevice where
  In path := path = Kernel.aName
  beside _ := none
  supported _ := by
    show (1 : Int) ≠ 0
    decide
  common _ := by
    show (0 : Int) ≠ 1
    decide
  named h := by
    rw [h]
    exact List.cons_ne_nil _ _
  fits h := by
    rw [h]
    decide
  apart h := by
    rw [h]
    decide
  other _ := rfl

/-- It holds 20 zeros. -/
def textFile : PlainSystem where
  names path := if path = Kernel.aName then some 1 else none
  bytes _ := zeroed 20
  opened _ := none

/-- They are behind a header, a block of them encrypted. -/
def sealedFile : World where
  kern := Kernel.oneDescriptor (newHeader none ++ stored aDevice.aes (zeroed 20))
    { acc := .rdonly } 0
  file_info_list := []

theorem textFile_shadows : Shadows aScope sealedFile textFile := by
  refine shadows_start (fun _ => ⟨rfl, rfl, rfl⟩) (by decide) rfl ?_ fun _ => rfl
  have hname : ∀ {path i}, textFile.names path = some i → path = Kernel.aName ∧ i = 1 := by
    intro path i h
    by_cases hp : path = Kernel.aName
    · have h' : some 1 = some i := (if_pos hp).symm.trans h
      exact ⟨hp, (Option.some.inj h').symm⟩
    · cases (if_neg hp).symm.trans h
  refine ⟨fun {path i} h => ?_, fun {path} hp h => ?_, fun {path} hp => ?_, fun {path i} h => ?_,
    fun hf => (by cases hf), fun hb => (by cases hb)⟩
  · obtain ⟨rfl, rfl⟩ := hname h
    exact ⟨rfl, rfl⟩
  · cases (if_pos hp).symm.trans h
  · obtain rfl : path = Kernel.aName := hp
    rfl
  · obtain ⟨-, rfl⟩ := hname h
    exact .inl ⟨newHeader none, newHeader_rightsHeader aDevice, Kernel.oneDescriptor_data _ _ _⟩

/-- Through a new descriptor 14 bytes are written behind the text, and everything is read. -/
def appended (fd : Int) : List (Call × Reply) :=
  [(.lseek fd 0 .fin, .result 20), (.write fd (List.replicate 14 7), .result 14),
    (.lseek fd 0 .set, .result 0),
    (.read fd 40, .data 34 (zeroed 20 ++ List.replicate 14 7))]

/-- So it is on the plain file. -/
theorem appended_walk {S : Scope aDevice} {fd : Int} {s : PlainSystem}
    (hf : s.opened fd = some ⟨1, 0, .rdwr⟩) (hb : s.bytes 1 = zeroed 20) :
    ∃ s', plain.Walk (Granted S) s (appended fd) s' ∧
      s'.bytes 1 = zeroed 20 ++ List.replicate 14 7 ∧
      s'.opened fd = some ⟨1, 34, .rdwr⟩ ∧ s'.names = s.names := by
  let h : Handle := ⟨1, 0, .rdwr⟩
  let P : List UInt8 := zeroed 20 ++ List.replicate 14 7
  have hno : ∀ {q : Call}, (∀ path flags, q ≠ .openFile path flags) → plain.Single q := plain_single
  -- to the end of the text
  let s₁ := s.hold fd { h with pos := 20 }
  have htarget₁ : target (s.file h) 0 .fin = 20 := by
    rw [PlainSystem.file, hb]
    rfl
  have hstep₁ : s.Step (.lseek fd 0 .fin) (.result (target (s.file h) 0 .fin))
      (s.hold fd { h with pos := (target (s.file h) 0 .fin).toNat }) :=
    .lseek hf (by rw [htarget₁]; decide)
  rw [htarget₁] at hstep₁
  have hf₁ : s₁.opened fd = some { h with pos := 20 } := s.hold_self fd _
  have hb₁ : s₁.bytes 1 = zeroed 20 := hb
  -- behind it
  have hfits : WriteFits aDevice.aes (s₁.bytes 1) 20 (List.replicate 14 7) := by
    rw [hb₁]
    exact writeFits_of_clean (by decide)
  have hwrite : (s₁.file { h with pos := 20 }).write (List.replicate 14 7) = ⟨P, 34⟩ := by
    rw [PlainSystem.file, hb₁]
    rfl
  let s₂ := (s₁.store 1 P).hold fd { h with pos := 34 }
  have hstep₂ : s₁.Step (.write fd (List.replicate 14 7)) (.result 14) _ := .write _ hf₁
  rw [hwrite] at hstep₂
  have hf₂ : s₂.opened fd = some { h with pos := 34 } := (s₁.store 1 P).hold_self fd _
  have hb₂ : s₂.bytes 1 = P := s₁.store_bytes_self 1 P
  -- back to the start
  have hstep₃ : s₂.Step (.lseek fd 0 .set) (.result 0) (s₂.hold fd h) :=
    .lseek hf₂ (Int.le_refl 0)
  have hf₃ : (s₂.hold fd h).opened fd = some h := s₂.hold_self fd h
  have hread : ((s₂.hold fd h).file h).read 40 = P := by
    rw [PlainSystem.file, show (s₂.hold fd h).bytes 1 = P from hb₂]
    rfl
  have hstep₄ : (s₂.hold fd h).Step (.read fd 40) _ _ := .read 40 hf₃
  rw [hread, PlainFile.afterRead, hread] at hstep₄
  refine ⟨_, .cons ⟨h, hf, by rw [htarget₁]; decide⟩ (hno (by simp)) hstep₁
    (.cons ⟨_, hf₁, rfl, fun _ => hfits⟩ (hno (by simp)) hstep₂
      (.cons ⟨_, hf₂, Int.le_refl 0⟩ (hno (by simp)) hstep₃
        (.cons ⟨_, hf₃, rfl⟩ (hno (by simp)) hstep₄ (.nil _)))), hb₂, ?_, rfl⟩
  exact (s₂.hold fd h).hold_self fd _

/-- A name that is there is opened in one way. -/
theorem open_named {s s₁ : PlainSystem} {path : Path} {flags : Flags} {r : Reply} {i : Nat}
    (hname : s.names path = some i) (h : s.Step (.openFile path flags) r s₁) :
    ∃ fd, r = .result fd ∧ s₁ = s.hold fd ⟨i, 0, flags.acc⟩ := by
  cases h with
  | opened hname' =>
      obtain rfl := Option.some.inj (hname.symm.trans hname')
      exact ⟨_, rfl, rfl⟩
  | created hnone => cases hname.symm.trans hnone
  | absent hnone => cases hname.symm.trans hnone

/-- Opening a file of the scope and going on with the descriptor. -/
theorem open_follow {S : Scope aDevice} {w : World} {s : PlainSystem} {flags : Flags} {i : Nat}
    {path : Path} {rest : Int → List (Call × Reply)} {P : PlainSystem → Int → Prop}
    (hs : Shadows S w s) (hname : s.names path = some i) (ht : flags.trunc = false)
    (happ : flags.append = false) (hx : (flags.creat && flags.excl) = false)
    (hrest : ∀ fd, ∃ s', plain.Walk (Granted S) (s.hold fd ⟨i, 0, flags.acc⟩) (rest fd) s' ∧
      P s' fd) :
    ∃ fd w' s', (hooked_process aDevice activeEnv).Trace w
        ((.openFile path flags, .result fd) :: rest fd) w' ∧
      plain.Within (Granted S) s ((.openFile path flags, .result fd) :: rest fd) ∧
      (∀ t, plain.Trace s ((.openFile path flags, .result fd) :: rest fd) t → t = s') ∧
      Shadows S w' s' ∧ P s' fd := by
  have henv : activeEnv.Active := ⟨rfl, rfl, rfl⟩
  have hq : Granted S s (.openFile path flags) :=
    ⟨(hs.files.known hname).1, ht, happ, fun _ => hx, fun h => by cases hname.symm.trans h⟩
  obtain ⟨r, w₁, s₁, hrun, hstep, hs₁, -⟩ := call_shadows henv hs hq
  obtain ⟨fd, rfl, rfl⟩ := open_named hname hstep
  obtain ⟨s', hwalk, hP⟩ := hrest fd
  obtain ⟨w', htrace, hs'⟩ := (hooked_refines S henv).follow hwalk hs₁
  have hsame : ∀ {t}, s.Step (.openFile path flags) (.result fd) t →
      t = s.hold fd ⟨i, 0, flags.acc⟩ := by
    intro t ht
    obtain ⟨fd', heq, rfl⟩ := open_named hname ht
    obtain rfl : fd = fd' := Reply.result.inj heq
    rfl
  refine ⟨fd, w', s', .cons hrun htrace, ⟨hq, fun t ht => ?_⟩, fun t ht => ?_, hs', hP⟩
  · rw [hsame ht]
    exact hwalk.within
  · cases ht with
    | cons hfirst hthen =>
        rw [hsame hfirst] at hthen
        exact hwalk.unique hthen

/-- **The session.** -/
theorem session_transparent_append : ∃ fd w s' r w',
    (hooked_process aDevice activeEnv).Trace sealedFile
      ((.openFile Kernel.aName { acc := .rdwr }, .result fd) :: appended fd) w ∧
    plain.Trace textFile
      ((.openFile Kernel.aName { acc := .rdwr }, .result fd) :: appended fd) s' ∧
    run aDevice activeEnv (.stat Kernel.aName) w = .ok (r, w') := by
  obtain ⟨fd, w, -, hrun, hgranted, -⟩ := @open_follow aScope _ _ { acc := .rdwr } _ _ _ _
    textFile_shadows (show textFile.names Kernel.aName = some 1 from rfl) rfl rfl rfl fun fd =>
      appended_walk (textFile.hold_self fd ⟨1, 0, .rdwr⟩) rfl
  obtain ⟨s', htrace, -, hnext⟩ :=
    session_transparent ⟨rfl, rfl, rfl⟩ textFile_shadows hrun hgranted
  obtain ⟨r, w', hstat⟩ := hnext (.stat Kernel.aName) rfl
  exact ⟨fd, w, s', r, w', hrun, htrace, hstat⟩

/-- A new process. -/
def newProcess (fs : FileStore) (h : 0 < fs.next) : World where
  kern := {
    files := fs
    desc := fun _ => { inode := 0, pos := 0, flags := { acc := .rdwr }, regular := false }
    nextDesc := 1
    fds := [(0, 0)]
    host := { answer := fun _ => {} }
    tick := 0
    fds_nonneg := by decide
    fds_lt := by decide
    desc_lt := fun _ _ => h }
  file_info_list := []

theorem newProcess_respawned (w : World) (h : 0 < w.kern.files.next) :
    Respawned w (newProcess w.kern.files h) :=
  ⟨rfl, rfl, fun _ => ⟨rfl, rfl, rfl⟩, List.mem_singleton.mpr rfl⟩

/-- What a process appends, the next one reads. -/
theorem lives_transparent_append : ∃ fd fd' w s',
    (hooked_process aDevice activeEnv).Epochs Respawned sealedFile
      [(.openFile Kernel.aName { acc := .rdwr }, .result fd) :: appended fd,
        [(.openFile Kernel.aName { acc := .rdonly }, .result fd'),
          (.read fd' 40, .data 34 (zeroed 20 ++ List.replicate 14 7))]] w ∧
    Mirrors aScope w.kern.files s' := by
  obtain ⟨fd, w₁, s₁, hrun₁, hgranted₁, hsame₁, hs₁, hbytes, -, hnames⟩ :=
    @open_follow aScope _ _ { acc := .rdwr } _ _ _ _ textFile_shadows
      (show textFile.names Kernel.aName = some 1 from rfl) rfl rfl rfl fun fd =>
        appended_walk (textFile.hold_self fd ⟨1, 0, .rdwr⟩) rfl
  have hnext : 0 < w₁.kern.files.next :=
    Nat.lt_of_le_of_lt (Nat.zero_le _) (w₁.kern.files.names_lt _ _
      (hs₁.files.known (show s₁.names Kernel.aName = some 1 by rw [hnames]; rfl)).2)
  -- the next process
  let s₂ : PlainSystem := { s₁ with opened := fun _ => none }
  obtain ⟨t, rfl, hs₂⟩ := shadows_respawned hs₁.files (newProcess_respawned w₁ hnext)
  have hname₂ : s₂.names Kernel.aName = some 1 := by
    show s₁.names Kernel.aName = _
    rw [hnames]
    rfl
  obtain ⟨fd', w₂, -, hrun₂, hgranted₂, -⟩ :=
    @open_follow aScope _ s₂ { acc := .rdonly } _ _
      (fun fd => [(.read fd 40, .data 34 (zeroed 20 ++ List.replicate 14 7))])
      (fun _ _ => True) hs₂ hname₂ rfl rfl rfl fun fd => by
        let h : Handle := ⟨1, 0, .rdonly⟩
        have hf : (s₂.hold fd h).opened fd = some h := s₂.hold_self fd h
        have hread : ((s₂.hold fd h).file h).read 40 = zeroed 20 ++ List.replicate 14 7 := by
          rw [PlainSystem.file, show (s₂.hold fd h).bytes 1 = _ from hbytes]
          rfl
        have hstep : (s₂.hold fd h).Step (.read fd 40) _ _ := .read 40 hf
        rw [hread, PlainFile.afterRead, hread] at hstep
        exact ⟨_, .cons ⟨h, hf, rfl⟩ (plain_single (by simp)) hstep (.nil _), trivial⟩
  have hrun : (hooked_process aDevice activeEnv).Epochs Respawned sealedFile
      [(.openFile Kernel.aName { acc := .rdwr }, .result fd) :: appended fd,
        [(.openFile Kernel.aName { acc := .rdonly }, .result fd'),
          (.read fd' 40, .data 34 (zeroed 20 ++ List.replicate 14 7))]] w₂ :=
    .cons ⟨rfl, rfl, fun _ => ⟨rfl, rfl, rfl⟩, by decide⟩ hrun₁
      (.cons (newProcess_respawned w₁ hnext) hrun₂ (.nil w₂))
  obtain ⟨s', -, hfiles⟩ := lives_transparent ⟨rfl, rfl, rfl⟩ textFile_shadows hrun (by
    rintro t₁ rfl
    refine ⟨hgranted₁, fun t₂ ht₂ t₃ ht₃ => ?_⟩
    obtain rfl := hsame₁ t₂ ht₂
    obtain rfl : t₃ = s₂ := ht₃
    exact ⟨hgranted₂, fun _ _ => trivial⟩)
  exact ⟨fd, fd', w₂, s', hrun, hfiles⟩

end TeTransparent
