import TransEncrypt.BearingProofs
import TransEncrypt.TransparentProofs

/-! # Copies of descriptors, over whole runs

    The hooked process against files under descriptions: the calls of `TransparentProofs`,
    `dup`, and private mappings from the start of a file.  The hooked `close` rewinds the cursor
    that a copy shares, so after it the copy may be asked for sizes, mapped, copied and closed,
    but it is only read and written again after a seek from the start or the end.

    * `Granted`: the calls for which the library keeps its promise;
    * `request_stands`: one granted call is answered as the plain system answers it;
    * `copies_transparent`: so is every run, and the process goes on answering. -/

namespace TeCopies

open Posix Overlay TeHeader Hoare TeProgram TeDetector TeRead TeStored TeWrite TeRebuild TeOpen
open TeSize TeSeek TeMmap TeAcquire TeSession Plain Refinement

/-- A request made through the hooks. -/
def run (dev : Device) (env : Env) : Request → Sys Response
  | .call q => do
      let r ← TeTransparent.run dev env q
      pure (.reply r)
  | .lseek64 fd offset whence => do
      let r ← TeSize.lseek64 env fd offset whence
      pure (.reply (.result r))
  | .lstat path => do
      let st ← TeSize.lstat env path
      pure (.reply (.state st))
  | .dup fd => do
      let r ← TeOpen.dup env fd
      pure (.reply (.result r))
  | .mmap fd length prot => do
      let v ← TeMmap.mmap dev env length prot .map_private fd ((0 : Nat) : Int)
      pure (.mapping (v.map View.bytes))

/-- The hooked process as a machine. -/
def hooked_process (dev : Device) (env : Env) : Machine World Request Response :=
  ⟨fun w q a w' => run dev env q w = .ok (a, w')⟩

/-- The requests that are promised to be transparent: those of `TeTransparent.Granted`, where
    what is read, written or moved from where it is has a cursor that may be relied on; and
    mappings of a file that can be read, is not empty and not longer than an `int` says. -/
def Granted {dev : Device} (S : Scope dev) (s : OpenFiles) : Request → Prop
  | .call (.openFile path flags) => TeTransparent.Granted S s.view (.openFile path flags)
  | .call (.read fd _) => ∃ o, s.opened fd = some o ∧ s.settled o = true ∧
      (s.desc o).acc.readable = true
  | .call (.write fd buf) => ∃ o, s.opened fd = some o ∧ s.settled o = true ∧
      (s.desc o).acc.writable = true ∧
      (buf ≠ [] → WriteFits dev.aes (s.bytes (s.desc o).inode) (s.desc o).pos buf)
  | .call (.lseek fd offset whence) | .lseek64 fd offset whence => ∃ o, s.opened fd = some o ∧
      (whence = .cur → s.settled o = true) ∧ 0 ≤ target (s.file o) offset whence
  | .call (.stat path) | .lstat path => S.In path
  | .call (.fstat fd) => ∃ o, s.opened fd = some o ∧ (s.desc o).acc.readable = true
  | .call (.close fd) | .dup fd => ∃ o, s.opened fd = some o
  | .mmap fd length prot => ∃ o, s.opened fd = some o ∧ (s.desc o).acc.readable = true ∧
      prot.read = true ∧ 0 < length ∧ s.bytes (s.desc o).inode ≠ [] ∧
      (s.bytes (s.desc o).inode).length < 2147483648

/-- The request is answered, as the plain system may answer it, and the process stands for the
    plain system afterwards. -/
def Answers {dev : Device} (S : Scope dev) (env : Env) (w : World) (s : OpenFiles)
    (q : Request) : Prop :=
  ∃ r w' s', run dev env q w = .ok (r, w') ∧ s.Step q r s' ∧ Stands S w' s'

/-! ## One request -/

section Requests

variable {dev : Device} {S : Scope dev} {env : Env} {w : World} {s : OpenFiles}
  (henv : env.Active) (hs : Stands S w s)

/-- A call is the hook and its result. -/
theorem run_call {α : Type} {q : Call} {hook : Sys α} {f : α → Reply} {a : α} {w' : World}
    (hq : TeTransparent.run dev env q = hook >>= fun a => pure (f a))
    (hrun : hook w = .ok (a, w')) : run dev env (.call q) w = .ok (.reply (f a), w') := by
  have hcall : TeTransparent.run dev env q w = .ok (f a, w') := by
    rw [hq, bind_ok hrun]
    rfl
  rw [run, bind_ok hcall]
  rfl

include henv hs

theorem answers_read {fd : Int} {n : Nat} (hq : Granted S s (.call (.read fd n))) :
    Answers S env w s (.call (.read fd n)) := by
  obtain ⟨o, hf, hset, hacc⟩ := hq
  have hb := hs.held hf
  obtain ⟨t, hread⟩ := read_held henv hs.calm hb.tracks (hs.sealed hf) (hb.pos hset) hacc n
  refine ⟨_, _, _, run_call rfl hread, .read n hf, ?_⟩
  exact (hs.moved hf (p := ((s.file o).afterRead n).pos) fun _ => rfl).quiet (.tock _ t)

theorem answers_write {fd : Int} {b : List UInt8} (hq : Granted S s (.call (.write fd b))) :
    Answers S env w s (.call (.write fd b)) := by
  obtain ⟨o, hf, hset, hacc, hfits⟩ := hq
  have hb := hs.held hf
  by_cases hnil : b = []
  · subst hnil
    refine ⟨_, _, _, run_call rfl (write_empty henv hs.calm hb.tracks hacc), .write [] hf, ?_⟩
    rw [s.write_nil]
    exact hs.quiet (.tock _ 1)
  · obtain ⟨H, k', hH, hrun, hquiet⟩ :=
      write_held henv hs.calm hb.tracks (hs.sealed hf) (hb.pos hset) hacc hnil (hfits hnil)
    have hstored := hs.stored (i := (s.desc o).inode) (P := ((s.file o).write b).bytes) hH
      (s.view.used_of_opened (s.view_opened hf))
    have hmoved := hstored.moved (b := s.settled o) (p := ((s.file o).write b).pos) hf
      fun _ => rfl
    exact ⟨_, _, _, run_call rfl hrun, .write b hf, hmoved.quiet (k := k') hquiet⟩

/-- Both seeks. -/
theorem seek_stands {fd : Int} {offset : Int} {whence : Whence} {o : Nat}
    (hf : s.opened fd = some o) (hset : whence = .cur → s.settled o = true)
    (ht : 0 ≤ target (s.file o) offset whence) :
    ∃ w', TeSize.lseek env fd offset whence w = .ok (target (s.file o) offset whence, w') ∧
      Stands S w'
        (s.moveTo o (target (s.file o) offset whence).toNat (s.settles o whence)) := by
  have hb := hs.held hf
  refine ⟨_, lseek_held henv hs.calm hb.tracks (hs.sealed hf) (fun hcur => hb.pos (hset hcur)) ht,
    ?_⟩
  exact (hs.moved hf (p := (target (s.file o) offset whence).toNat) fun _ => rfl).quiet (.tock _ 1)

theorem answers_lseek {fd : Int} {offset : Int} {whence : Whence}
    (hq : Granted S s (.call (.lseek fd offset whence))) :
    Answers S env w s (.call (.lseek fd offset whence)) := by
  obtain ⟨o, hf, hset, ht⟩ := hq
  obtain ⟨w', hrun, hs'⟩ := seek_stands henv hs hf hset ht
  exact ⟨_, _, _, run_call rfl hrun, .lseek hf ht, hs'⟩

theorem answers_lseek64 {fd : Int} {offset : Int} {whence : Whence}
    (hq : Granted S s (.lseek64 fd offset whence)) :
    Answers S env w s (.lseek64 fd offset whence) := by
  obtain ⟨o, hf, hset, ht⟩ := hq
  obtain ⟨w', hrun, hs'⟩ := seek_stands henv hs hf hset ht
  have hrun : TeSize.lseek64 env fd offset whence w = .ok (_, w') := hrun
  refine ⟨_, _, _, ?_, .lseek64 (.lseek hf ht), hs'⟩
  rw [run, bind_ok hrun]
  rfl

/-- Both sizes by path. -/
theorem stat_stands {path : Path} (hpath : S.In path) : ∃ st w',
    TeSize.stat env path w = .ok (st, w') ∧
    s.Step (.call (.stat path)) (.reply (.state st)) s ∧ Stands S w' s := by
  cases hname : s.names path with
  | none =>
      exact ⟨_, _, stat_missing henv hs.calm hs.files hpath hname, .missing hname,
        hs.quiet (.tock _ 1)⟩
  | some i =>
      obtain ⟨k', hstat, hquiet⟩ := stat_known henv hs.calm hs.files hs.input hname
      exact ⟨_, _, hstat, .stat hname, hs.quiet hquiet⟩

theorem answers_stat {path : Path} (hq : Granted S s (.call (.stat path))) :
    Answers S env w s (.call (.stat path)) := by
  obtain ⟨st, w', hrun, hstep, hs'⟩ := stat_stands henv hs hq
  exact ⟨_, _, _, run_call rfl hrun, hstep, hs'⟩

theorem answers_lstat {path : Path} (hq : Granted S s (.lstat path)) :
    Answers S env w s (.lstat path) := by
  obtain ⟨st, w', hrun, hstep, hs'⟩ := stat_stands henv hs hq
  have hrun : TeSize.lstat env path w = .ok (st, w') := hrun
  refine ⟨_, _, _, ?_, .lstat hstep, hs'⟩
  rw [run, bind_ok hrun]
  rfl

theorem answers_fstat {fd : Int} (hq : Granted S s (.call (.fstat fd))) :
    Answers S env w s (.call (.fstat fd)) := by
  obtain ⟨o, hf, hacc⟩ := hq
  have hb := hs.held hf
  exact ⟨_, _, _, run_call rfl (fstat_held henv hs.calm hb.tracks (hs.sealed hf) hs.input hacc),
    .fstat hf, hs.quiet (.tock _ 4)⟩

theorem answers_close {fd : Int} (hq : Granted S s (.call (.close fd))) :
    Answers S env w s (.call (.close fd)) := by
  obtain ⟨o, hf⟩ := hq
  exact ⟨_, _, _, run_call rfl ((hs.held hf).tracks.close_run henv hs.calm), .close hf,
    hs.released henv hf⟩

theorem answers_dup {fd : Int} (hq : Granted S s (.dup fd)) : Answers S env w s (.dup fd) := by
  obtain ⟨o, hf⟩ := hq
  obtain ⟨nfd, fi, k', hrun, hpos, hg, hfiles, hdesc, hnext, hfi⟩ :=
    dup_held henv hs.calm (hs.held hf).tracks hs.input
  have hs' : Stands S ⟨k', w.file_info_list ++ [⟨nfd, fi.file_path, fi.origin⟩]⟩ (s.share nfd o) :=
    hs.copied hf hpos hg hfiles hdesc (Nat.le_of_eq hnext.symm) hfi rfl
  refine ⟨_, _, _, ?_, .dup hf hpos (hs.unopened hg.fresh), hs'⟩
  rw [run, bind_ok hrun]
  rfl

theorem answers_mmap {fd : Int} {length : Nat} {prot : Prot}
    (hq : Granted S s (.mmap fd length prot)) : Answers S env w s (.mmap fd length prot) := by
  obtain ⟨o, hf, hacc, hread, -, hne, hsmall⟩ := hq
  obtain ⟨bytes, hrun, hmapped⟩ :=
    mmap_held henv hs.calm (hs.held hf).tracks (hs.sealed hf) (l := length) hacc hread hne hsmall
  refine ⟨_, _, _, ?_, .mmap hf hmapped, hs.quiet (.tock _ 2)⟩
  rw [run, bind_ok hrun]
  rfl

theorem answers_open {path : Path} {flags : Flags}
    (hq : Granted S s (.call (.openFile path flags))) :
    Answers S env w s (.call (.openFile path flags)) := by
  obtain ⟨hpath, ht, happ, hx, hacc⟩ := hq
  obtain ⟨fd, w', hrun, hopens⟩ :=
    open_runs henv hs.calm hs.files hs.input hpath ht happ hx hacc
  cases hopens with
  | @found i hname hacq hnames hm hseal _ =>
      obtain ⟨o, hfree, hs'⟩ := hs.acquired (t := s) hacq happ ⟨rfl, rfl, rfl⟩ hnames hm
        (PlainSystem.used_of_name hname) hseal
      exact ⟨_, _, _, run_call rfl hrun,
        .opened hname hacq.positive (hs.unopened hacq.fresh) hfree, hs'⟩
  | created hname hnone hcr hacq hfiles =>
      obtain ⟨o, hfree, hs'⟩ :=
        hs.created (newHeader_rightsHeader dev) hacq happ hpath hname hnone hfiles
      exact ⟨_, _, _, run_call rfl hrun, .created hname hcr hs.unused hacq.positive
        (hs.unopened hacq.fresh) hfree, hs'⟩
  | absent hname hcr hfd hw =>
      subst hfd hw
      exact ⟨_, _, _, run_call rfl hrun, .absent hname hcr, hs.quiet (.tock _ 1)⟩

/-- **One granted request.** -/
theorem request_stands {q : Request} (hq : Granted S s q) : Answers S env w s q := by
  cases q with
  | call q =>
      cases q with
      | openFile path flags => exact answers_open henv hs hq
      | read fd n => exact answers_read henv hs hq
      | write fd b => exact answers_write henv hs hq
      | lseek fd offset whence => exact answers_lseek henv hs hq
      | stat path => exact answers_stat henv hs hq
      | fstat fd => exact answers_fstat henv hs hq
      | close fd => exact answers_close henv hs hq
  | lseek64 fd offset whence => exact answers_lseek64 henv hs hq
  | lstat path => exact answers_lstat henv hs hq
  | dup fd => exact answers_dup henv hs hq
  | mmap fd length prot => exact answers_mmap henv hs hq

end Requests

/-! ## Every run -/

/-- The hooked process refines the files under descriptions. -/
theorem hooked_refines {dev : Device} (S : Scope dev) {env : Env} (henv : env.Active) :
    Refines (hooked_process dev env) openFiles (Granted S) (Stands S) where
  step := by
    intro w s q r w' hs hq hrun
    obtain ⟨r', w'', s', hrun', hstep, hs'⟩ := request_stands henv hs hq
    obtain ⟨rfl, rfl⟩ := Prod.mk.inj (Except.ok.inj (hrun'.symm.trans hrun))
    exact ⟨s', hstep, hs'⟩
  answers := by
    intro w s q hs hq
    obtain ⟨r, w', -, hrun, -⟩ := request_stands henv hs hq
    exact ⟨r, w', hrun⟩

/-- **Copies.**  Every run of granted requests, in which descriptors are copied, share their
    cursor and are closed one by one, has the answers of a run of POSIX files under
    descriptions; the process stands for the state that one leads to, and it answers the next
    granted request. -/
theorem copies_transparent {dev : Device} {S : Scope dev} {env : Env} {w w' : World}
    {s : OpenFiles} {l : List (Request × Response)} (henv : env.Active) (hs : Stands S w s)
    (hrun : (hooked_process dev env).Trace w l w') (hgranted : openFiles.Within (Granted S) s l) :
    ∃ s', openFiles.Trace s l s' ∧ Stands S w' s' ∧
      ∀ q, Granted S s' q → ∃ r w'', run dev env q w' = .ok (r, w'') :=
  (hooked_refines S henv).live hs hrun hgranted

/-- A process that has opened nothing stands for the files it finds. -/
theorem stands_start {dev : Device} {S : Scope dev} {w : World} {s : OpenFiles}
    (hc : w.kern.host.Calm) (h0 : w.kern.InUse 0) (hl : w.file_info_list = [])
    (hm : Mirrors S w.kern.files s.view) (hnone : ∀ fd, s.opened fd = none) : Stands S w s where
  calm := hc
  input := h0
  consistent := by
    refine ⟨by rw [hl]; exact List.nodup_nil, fun e he => ?_⟩
    rw [hl] at he
    cases he
  files := hm
  held := by
    intro fd o hf
    cases (hnone fd).symm.trans hf

/-! ## A small run -/

/-- The text of `"f"`, not yet opened. -/
def textFiles : OpenFiles where
  names := TeTransparent.textFile.names
  bytes := TeTransparent.textFile.bytes
  opened _ := none
  desc _ := ⟨0, 0, .rdonly⟩
  settled _ := true

theorem textFiles_stands : Stands TeTransparent.aScope TeTransparent.sealedFile textFiles :=
  stands_start (fun _ => ⟨rfl, rfl, rfl⟩) (by decide) rfl TeTransparent.textFile_shadows.files
    fun _ => rfl

/-- A descriptor is moved to the end, its copy writes there and is closed, and the descriptor
    reads everything. -/
def shared (fd nfd : Int) : List (Request × Response) :=
  [(.call (.lseek fd 0 .fin), .reply (.result 20)),
    (.call (.write nfd (List.replicate 14 7)), .reply (.result 14)),
    (.call (.close nfd), .reply (.result 0)),
    (.call (.lseek fd 0 .set), .reply (.result 0)),
    (.call (.read fd 40), .reply (.data 34 (zeroed 20 ++ List.replicate 14 7)))]

/-- So it is on the plain file. -/
theorem shared_walk {S : Scope aDevice} {s : OpenFiles} {fd nfd : Int} {o : Nat}
    (hf : s.opened fd = some o) (hn : s.opened nfd = some o) (hne : fd ≠ nfd)
    (hd : s.desc o = ⟨1, 0, .rdwr⟩) (hset : s.settled o = true) (hb : s.bytes 1 = zeroed 20) :
    ∃ s', openFiles.Walk (Granted S) s (shared fd nfd) s' ∧
      s'.bytes 1 = zeroed 20 ++ List.replicate 14 7 ∧ s'.opened fd = some o ∧
      s'.desc o = ⟨1, 34, .rdwr⟩ := by
  let P : List UInt8 := zeroed 20 ++ List.replicate 14 7
  have hno : ∀ {q : Call}, (∀ path flags, q ≠ .openFile path flags) →
      openFiles.Single (.call q) := openFiles_single
  -- to the end of the text
  let s₁ := s.moveTo o 20 true
  have hfile : s.file o = ⟨zeroed 20, 0⟩ := by
    rw [OpenFiles.file, hd, hb]
  have htarget : target (s.file o) 0 .fin = 20 := by
    rw [hfile]
    rfl
  have hstep₁ : s.Step (.call (.lseek fd 0 .fin)) _ _ := .lseek hf (by rw [htarget]; decide)
  rw [htarget] at hstep₁
  have hstep₁ : s.Step (.call (.lseek fd 0 .fin)) (.reply (.result 20)) s₁ := hstep₁
  have hd₁ : s₁.desc o = ⟨1, 20, .rdwr⟩ := by
    rw [s.moveTo_desc_self, hd]
  -- the copy writes behind it
  have hfile₁ : s₁.file o = ⟨zeroed 20, 20⟩ := by
    rw [OpenFiles.file, hd₁, show s₁.bytes 1 = _ from hb]
  let s₂ := (s₁.store 1 P).moveTo o 34 true
  have hstep₂ : s₁.Step (.call (.write nfd (List.replicate 14 7))) _ _ := .write _ hn
  rw [hfile₁, hd₁, show s₁.settled o = true from s.moveTo_settled_self ..] at hstep₂
  have hstep₂ : s₁.Step (.call (.write nfd (List.replicate 14 7))) (.reply (.result 14)) s₂ :=
    hstep₂
  have hd₂ : s₂.desc o = ⟨1, 34, .rdwr⟩ := by
    rw [OpenFiles.moveTo_desc_self, show (s₁.store 1 P).desc o = _ from hd₁]
  have hb₂ : s₂.bytes 1 = P := by
    show Function.update s₁.bytes 1 P 1 = P
    exact Function.update_self ..
  -- it is closed
  let s₃ := s₂.release nfd o
  have hstep₃ : s₂.Step (.call (.close nfd)) (.reply (.result 0)) s₃ := .close hn
  have hf₃ : s₃.opened fd = some o := (Function.update_of_ne hne ..).trans hf
  -- back to the start
  let s₄ := s₃.moveTo o 0 true
  have hstep₄ : s₃.Step (.call (.lseek fd 0 .set)) (.reply (.result 0)) s₄ :=
    .lseek hf₃ (Int.le_refl 0)
  have hd₄ : s₄.desc o = ⟨1, 0, .rdwr⟩ := by
    rw [OpenFiles.moveTo_desc_self, show s₃.desc o = _ from hd₂]
  have hfile₄ : s₄.file o = ⟨P, 0⟩ := by
    rw [OpenFiles.file, hd₄, show s₄.bytes 1 = _ from hb₂]
  have hset₄ : s₄.settled o = true := s₃.moveTo_settled_self ..
  have hstep₅ : s₄.Step (.call (.read fd 40)) _ _ := .read 40 hf₃
  rw [hfile₄, hset₄] at hstep₅
  have hstep₅ : s₄.Step (.call (.read fd 40)) (.reply (.data 34 P)) (s₄.moveTo o 34 true) := hstep₅
  refine ⟨s₄.moveTo o 34 true, .cons ⟨o, hf, fun _ => hset, by rw [htarget]; decide⟩ (hno (by simp))
    hstep₁ (.cons ⟨o, hn, s.moveTo_settled_self .., by rw [hd₁]; rfl, fun _ => ?_⟩ (hno (by simp))
    hstep₂ (.cons ⟨o, hn⟩ (hno (by simp)) hstep₃ (.cons ⟨o, hf₃, nofun, Int.le_refl 0⟩
    (hno (by simp)) hstep₄ (.cons ⟨o, hf₃, hset₄, by rw [hd₄]; rfl⟩ (hno (by simp)) hstep₅
    (.nil _))))), hb₂, hf₃, ?_⟩
  · rw [hd₁]
    refine writeFits_of_clean ?_
    rw [show s₁.bytes 1 = _ from hb]
    decide
  · rw [OpenFiles.moveTo_desc_self, hd₄]

/-- The file is opened, the descriptor copied, and both are used; then the file is mapped. -/
theorem copies_transparent_shared : ∃ fd nfd w s' r w',
    (hooked_process aDevice activeEnv).Trace TeTransparent.sealedFile
      ((.call (.openFile Kernel.aName { acc := .rdwr }), .reply (.result fd)) ::
        (.dup fd, .reply (.result nfd)) :: shared fd nfd) w ∧
    openFiles.Trace textFiles
      ((.call (.openFile Kernel.aName { acc := .rdwr }), .reply (.result fd)) ::
        (.dup fd, .reply (.result nfd)) :: shared fd nfd) s' ∧
    run aDevice activeEnv (.mmap fd 34 ⟨true, false, false⟩) w = .ok (r, w') := by
  have henv : activeEnv.Active := ⟨rfl, rfl, rfl⟩
  let S := TeTransparent.aScope
  have hq : Granted S textFiles (.call (.openFile Kernel.aName { acc := .rdwr })) :=
    ⟨rfl, rfl, rfl, fun _ => rfl, fun h => by cases h⟩
  have hafter : ∀ {r t}, textFiles.Step (.call (.openFile Kernel.aName { acc := .rdwr })) r t →
      ∃ fd o, r = .reply (.result fd) ∧ t = textFiles.bind fd o ⟨1, 0, .rdwr⟩ := by
    intro r t hstep
    cases hstep with
    | opened hname =>
        obtain rfl := Option.some.inj hname
        exact ⟨_, _, rfl, rfl⟩
    | created hname => cases hname
    | absent hname => cases hname
  have hcopy : ∀ {fd o r t}, (textFiles.bind fd o ⟨1, 0, .rdwr⟩).Step (.dup fd) r t →
      ∃ nfd, r = .reply (.result nfd) ∧ fd ≠ nfd ∧
        t = (textFiles.bind fd o ⟨1, 0, .rdwr⟩).share nfd o := by
    intro fd o r t hstep
    have hself : (textFiles.bind fd o ⟨1, 0, .rdwr⟩).opened fd = some o := Function.update_self ..
    cases hstep with
    | dup hf _ hnone =>
        obtain rfl := Option.some.inj (hself.symm.trans hf)
        refine ⟨_, rfl, ?_, rfl⟩
        rintro rfl
        cases hself.symm.trans hnone
  have hwalk : ∀ {fd nfd o}, fd ≠ nfd → ∃ s',
      openFiles.Walk (Granted S) ((textFiles.bind fd o ⟨1, 0, .rdwr⟩).share nfd o)
        (shared fd nfd) s' ∧
        s'.bytes 1 = zeroed 20 ++ List.replicate 14 7 ∧ s'.opened fd = some o ∧
        s'.desc o = ⟨1, 34, .rdwr⟩ := fun {fd nfd o} hne =>
    shared_walk ((Function.update_of_ne hne ..).trans (Function.update_self ..))
      (Function.update_self ..) hne (Function.update_self ..) (Function.update_self ..) rfl
  have hdup : ∀ {fd o}, Granted S (textFiles.bind fd o ⟨1, 0, .rdwr⟩) (.dup fd) := fun {_ o} =>
    ⟨o, Function.update_self ..⟩
  -- the two calls whose answers are the host's, and the others
  obtain ⟨r₁, w₁, s₁, hrun₁, hstep₁, hs₁⟩ := request_stands henv textFiles_stands hq
  obtain ⟨fd, o, rfl, rfl⟩ := hafter hstep₁
  obtain ⟨r₂, w₂, s₂, hrun₂, hstep₂, hs₂⟩ := request_stands henv hs₁ hdup
  obtain ⟨nfd, rfl, hne, rfl⟩ := hcopy hstep₂
  obtain ⟨s₃, hsteps, -⟩ := hwalk (o := o) hne
  obtain ⟨w, htrace, -⟩ := (hooked_refines S henv).follow hsteps hs₂
  obtain ⟨s', hplain, hs', hnext⟩ := copies_transparent henv textFiles_stands
    (.cons hrun₁ (.cons hrun₂ htrace)) ⟨hq, fun t ht => by
      obtain ⟨fd', o', heq, rfl⟩ := hafter ht
      obtain rfl : fd = fd' := Reply.result.inj (Response.reply.inj heq)
      refine ⟨hdup, fun t' ht' => ?_⟩
      obtain ⟨nfd', heq, hne, rfl⟩ := hcopy ht'
      obtain rfl : nfd = nfd' := Reply.result.inj (Response.reply.inj heq)
      obtain ⟨_, hsteps', -⟩ := hwalk (o := o') hne
      exact hsteps'.within⟩
  -- the state reached is that of one of these walks
  have hmap : Granted S s' (.mmap fd 34 ⟨true, false, false⟩) := by
    cases hplain with
    | cons ht hrest =>
        obtain ⟨fd', o', heq, rfl⟩ := hafter ht
        obtain rfl : fd = fd' := Reply.result.inj (Response.reply.inj heq)
        cases hrest with
        | cons ht' hrest =>
            obtain ⟨nfd', heq, hne, rfl⟩ := hcopy ht'
            obtain rfl : nfd = nfd' := Reply.result.inj (Response.reply.inj heq)
            obtain ⟨t, hsteps', hbytes, hopened, hdesc⟩ := hwalk (o := o') hne
            obtain rfl := hsteps'.unique hrest
            refine ⟨o', hopened, ?_, rfl, by decide, ?_, ?_⟩
            all_goals rw [hdesc]
            · rfl
            · rw [hbytes]
              decide
            · rw [hbytes]
              decide
  obtain ⟨r, w', hcall⟩ := hnext _ hmap
  exact ⟨fd, nfd, w, s', r, w', .cons hrun₁ (.cons hrun₂ htrace), hplain, hcall⟩

end TeCopies
