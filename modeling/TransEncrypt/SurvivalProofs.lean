import TransEncrypt.CrashProofs
import TransEncrypt.KilledProofs
import TransEncrypt.TraceProofs

/-! # What a process that is killed leaves behind

    Processes come one after the other, and each of them may be killed at any point, also
    between two real calls of one hook.  What outlives it are the files.

    * `Harmless`: the real calls that change no file;
    * `few_open`, `few_write`: opening a file that is there, which may convert it, and a write
      that starts a block make one real call that does; the other hooks make none;
    * `Atomic`: so these calls leave the files as they were before or as they are after;
    * `killed_transparent`: every run of processes, killed anywhere within such calls, is a
      run of the plain file system in which the last call of each was made or was not. -/

namespace TeKilled

open Posix Overlay TeHeader Hoare TeProgram TeRead TeStored TeWorker TeRebuild TeSession
open TeThread Rely Rely.Script Plain Refinement

/-! ## Harmless calls -/

/-- What outlives a process. -/
def left (w : World) : FileStore := w.kern.files

/-- The calls that change no file, when the paths `there` exist. -/
def Harmless (there : Path → Prop) : RealCall → Prop
  | .openFile path flags => (flags.creat = false ∨ there path) ∧ flags.trunc = false
  | .write _ _ => False
  | .pwrite _ buf _ => buf = []
  | .workers _ _ _ => False
  | _ => True

/-- These paths exist. -/
def Exist (there : Path → Prop) (fs : FileStore) : Prop := ∀ path, there path → fs.names path ≠ none

theorem harmless_keeps {there : Path → Prop} (q : RealCall) (hq : Harmless there q) (w : World)
    (b : Answer q) (w' : World) (hthere : Exist there (left w))
    (h : perform q w = .ok (b, w')) : left w' = left w := by
  cases q with
  | calloc => exact (Still.alloc h).1
  | openFile path flags =>
      obtain ⟨hcr, ht⟩ := hq
      rcases hcr with hcr | hex
      · exact (Still.opens path hcr ht h).1
      · obtain ⟨i, hname⟩ := Option.ne_none_iff_exists'.mp (hthere path hex)
        rcases linker_open_inv h with ⟨-, rfl⟩ | ⟨j, k, rfl, ho⟩
        · rfl
        · exact ho.files.same hname ht
  | read fd n => exact (Still.read fd n h).1
  | pread fd n off => exact (Still.pread fd n off h).1
  | write fd buf => exact hq.elim
  | pwrite fd buf off =>
      obtain rfl : buf = [] := hq
      have hcall : TeProgram.linker_pwrite fd [] off w = .ok (b, w') := h
      obtain ⟨-, rfl⟩ := kernelCall_inv hcall
      show (w.kern.sysPwrite fd [] off).2.files = w.kern.files
      unfold Kernel.sysPwrite
      split
      · rfl
      · dsimp only
        split
        · rfl
        · -- nothing is laid over the bytes
          rw [List.take_nil, overlay_nil]
          exact w.kern.files.store_same _
  | lseek fd off whence => exact (Still.lseek fd off whence h).1
  | dup fd => exact (Still.dup fd h).1
  | close fd => exact (Still.close fd h).1
  | fstat fd => exact (Still.fstat fd h).1
  | getfl fd => exact (Still.getfl fd h).1
  | query fd => exact (Still.query fd h).1
  | access path =>
      have hcall : TeProgram.access path w = .ok (b, w') := h
      obtain ⟨-, rfl⟩ := kernelCall_inv hcall
      rfl
  | stat path => exact (Still.stat path h).1
  | denotes path => exact (Still.denotes path h).1
  | append e =>
      obtain ⟨-, rfl⟩ := Prod.mk.inj (Except.ok.inj h)
      rfl
  | remove fd => exact (Still.remove fd h).1
  | workers dev path size => exact hq.elim

/-- A script of harmless calls. -/
abbrev Gentle {α : Type} (there : Path → Prop) (t : Thread α) : Prop := Within (Harmless there) t

theorem Gentle.few {α : Type} {there : Path → Prop} {t : Thread α} (ht : Gentle there t)
    {w : World} (hthere : Exist there (left w)) : Few perform left t 0 w :=
  Within.few (I := Exist there) (fun q hq s b s' hI h => harmless_keeps q hq s b s' hI h) ht hthere

/-- It leaves the files as they were. -/
theorem Gentle.left_eq {α : Type} {there : Path → Prop} {t : Thread α} (ht : Gentle there t)
    {w w' : World} {a : α} (hthere : Exist there (left w)) (hrun : run perform t w = .ok (a, w')) :
    left w' = left w := Few.unchanged (visits_run hrun) (ht.few hthere)

/-! ## Hooks that change no file -/

section Gentle

variable {there : Path → Prop} {dev : Device} {env : Env}

theorem gentle_hooked {α : Type} {dead : α} {raw body : Thread α} (hraw : Gentle there raw)
    (hbody : Gentle there body) : Gentle there (TeThread.hooked env dead raw body) :=
  .ite (.pure dead) (.ite hraw hbody)

theorem gentle_is_encrypted_by_fd (fd : Int) : Gentle there (TeThread.is_encrypted_by_fd fd) := by
  refine .bind (.ask trivial) fun fl => ?_
  cases fl with
  | none => exact .pure _
  | some fl =>
      exact .ite (.pure _) (.bind (.ask trivial) fun nfd => .ite (.bind (.ask trivial) fun r =>
        .bind (.ask trivial) fun _ => .pure _) (.pure _))

theorem gentle_passes_through (fd : Int) : Gentle there (TeThread.passes_through fd) := by
  refine .bind (.ask trivial) fun fi => ?_
  cases fi with
  | none => exact .bind (gentle_is_encrypted_by_fd fd) fun _ => .pure _
  | some fi => exact .pure _

theorem gentle_read_pieces (fd : Int) (n : Nat) (offset : Int) :
    Gentle there (TeThread.read_pieces dev fd n offset) :=
  .ite trivial (.bind (.ask trivial) fun _ => .ite (.bind (.ask trivial) fun _ =>
    .bind (.ask trivial) fun _ => .bind (.ask trivial) fun _ =>
      .ite (.ite trivial (.pure _)) (.pure _)) trivial)

theorem gentle_read (fd : Int) (n : Nat) : Gentle there (TeThread.read dev env fd n) := by
  have hraw : Gentle there (TeThread.linker_read fd n) := .ask trivial
  refine gentle_hooked hraw (.bind (.ask trivial) fun _ => .ite (.bind (.ask trivial) fun st => ?_)
    hraw)
  cases st with
  | none => exact hraw
  | some st =>
      refine .ite hraw (.bind (gentle_passes_through fd) fun _ => .ite hraw ?_)
      exact .bind (.ask trivial) fun _ => .ite (.bind (.ask trivial) fun _ =>
        gentle_read_pieces fd n _) (gentle_read_pieces fd n _)

theorem gentle_lseek (fd : Int) (offset : Int) (whence : Whence) :
    Gentle there (TeThread.lseek env fd offset whence) :=
  gentle_hooked (.ask trivial) (.bind (gentle_passes_through fd) fun _ =>
    .ite (.ask trivial) (.bind (.ask trivial) fun _ => .pure _))

theorem gentle_stat (path : Path) : Gentle there (stat env path) := by
  refine gentle_hooked (.ask trivial) (.bind (.ask trivial) fun st => ?_)
  cases st with
  | none => exact .pure _
  | some st =>
      exact .bind (.bind (.ask ⟨.inl rfl, rfl⟩) fun fd => .ite (.bind (.ask trivial) fun _ =>
        .bind (.ask trivial) fun _ => .pure _) (.pure _)) fun _ => .pure _

theorem gentle_fstat (fd : Int) : Gentle there (fstat env fd) := by
  refine gentle_hooked (.ask trivial) (.bind (.ask trivial) fun st => ?_)
  cases st with
  | none => exact .pure _
  | some st => exact .bind (gentle_is_encrypted_by_fd fd) fun _ => .pure _

theorem gentle_close (fd : Int) : Gentle there (close env fd) := by
  refine gentle_hooked (.ask trivial) (.bind (.ask trivial) fun fi => ?_)
  cases fi with
  | none => exact .ask trivial
  | some fi =>
      exact .bind (.ask trivial) fun _ => .bind (.ask trivial) fun _ => .ask trivial

theorem gentle_read_header (fd : Int) : Gentle there (read_header fd) := by
  rw [read_header]
  refine .bind (.ask trivial) fun _ => .ite (.bind (.ask trivial) fun r => ?_) (.pure _)
  generalize memcpy (zeroed FILE_HEADER_POLL_SIZE) 0 r.2 = header
  exact .ite (.pure none) (.ite (.pure none) (.pure _))

theorem gentle_probe_header (path : Path) : Gentle there (probe_header path) :=
  .bind (.ask ⟨.inl rfl, rfl⟩) fun fd => .ite (.bind (gentle_read_header fd) fun _ =>
    .bind (.ask trivial) fun _ => .pure _) (.pure _)

theorem gentle_get_file_size (path : Path) : Gentle there (get_file_size_by_path path) := by
  refine .bind (.ask trivial) fun st => ?_
  cases st with
  | none => exact .pure _
  | some st => exact .pure _

theorem gentle_add (fd : Int) (path : Path) (origin : Option Nat) :
    Gentle there (file_info_list_add fd path origin) :=
  .bind (.ask trivial) fun _ => .ite (.bind (.ask trivial) fun _ => .pure _) (.pure _)

/-- The real `open` of a file that is there. -/
theorem gentle_open {path : Path} {flags : Flags} (hpath : there path) (ht : flags.trunc = false) :
    Gentle there (TeThread.linker_open path flags) := .ask ⟨.inr hpath, ht⟩

theorem gentle_reopen {path : Path} {flags : Flags} (hpath : there path)
    (ht : flags.trunc = false) : Gentle there (reopen path flags) :=
  .bind (gentle_open hpath ht) fun fd => .bind (.ask trivial) fun _ =>
    .bind (gentle_add fd path _) fun _ => .ite (.bind (.ask trivial) fun _ => .pure _) (.pure _)

theorem gentle_open_encrypted (path : Path) (flags : Flags) (header : List UInt8) (fd : Int) :
    Gentle there (open_encrypted path flags header fd) :=
  .bind (.ask trivial) fun _ => .bind (gentle_add fd _ _) fun _ =>
    .ite (.ite (.bind (.ask trivial) fun _ => .pure _) (.pure _)) (.pure _)

end Gentle

/-! ## One call that matters -/

section Few

variable {dev : Device} {env : Env} {w : World}

/-- No path need be there. -/
theorem exist_none (fs : FileStore) : Exist (fun _ => False) fs := fun _ h => h.elim

/-- A single harmless call that needs no path. -/
theorem harmless_few {q : RealCall} (hq : Harmless (fun _ => False) q) :
    Few perform left (real q) 0 w := Gentle.few (.ask hq) (exist_none _)

/-- A write that starts a block has nothing to complete in front of it. -/
theorem few_write_encrypted {fd : Int} {offset : Int} (hoff : offset.toNat % 16 = 0)
    (buf : List UInt8) : Few perform left (TeThread.write_encrypted dev fd buf offset) 1 w := by
  refine .after (harmless_few trivial) fun fi w₁ _ => ?_
  cases fi with
  | none => trivial
  | some fi =>
      refine .after (harmless_few ⟨.inl rfl, rfl⟩) fun rfd w₂ _ => .ite (fun _ => trivial)
        fun _ => ?_
      refine .after (harmless_few trivial) fun rc1 w₃ _ => ?_
      -- the first of the two writes, which completes a block that was begun, is empty here
      refine .after (harmless_few ?_) fun _ w₄ _ => .after (harmless_few trivial)
        fun _ w₅ _ => .ask _ 0 w₅
      rw [hoff]
      exact List.take_zero

theorem few_write {fd : Int} {i p id : Nat} {acc : AccMode} (henv : env.Active)
    (hc : w.kern.host.Calm) (ht : Tracks w fd i acc id)
    (hpos : (w.kern.desc id).pos = FILE_HEADER_POLL_SIZE + p) (hp : p % 16 = 0)
    (buf : List UInt8) : Few perform left (TeThread.write dev env fd buf) 1 w := by
  rw [TeThread.write, hooked_body henv]
  refine .ite (fun _ => ?_) fun _ => .ask _ 0 w
  refine .after (harmless_few trivial) fun offset w₁ hrun => ?_
  -- the hook asks for the cursor, which is behind the header
  have hseek : run perform (TeThread.linker_lseek fd 0 .cur) w =
      .ok (((w.kern.desc id).pos : Int), { w with kern := w.kern.tock 1 }) := by
    rw [TeThread.linker_lseek, real, run_ask]
    exact linker_lseek_ok (Kernel.sysLseek_here hc ht.find ht.regular)
  obtain ⟨rfl, -⟩ := Prod.mk.inj (Except.ok.inj (hseek.symm.trans hrun))
  have hoff : ((w.kern.desc id).pos : Int).toNat % 16 = 0 := by
    rw [hpos, Int.toNat_natCast, FILE_HEADER_POLL_SIZE]
    omega
  exact .after (harmless_few trivial) fun _ w₂ _ =>
    .ite (fun _ => few_write_encrypted hoff buf) fun _ => .pure _ _ _

/-- A file that one buffer holds is converted by one call. -/
theorem few_convert_in_place (fd : Int) (size : Nat) :
    Few perform left (convert_in_place dev fd size) 1 w := by
  refine .after (harmless_few trivial) fun _ w₁ _ => .ite (fun _ => ?_) fun _ => .pure _ _ _
  refine .after (harmless_few trivial) fun r w₂ _ => .ite (fun _ => ?_) fun _ => .pure _ _ _
  exact .before (.ask _ 0 w₂) fun _ _ _ => .pure _ _ _

theorem few_rebuild {path : Path} {size : Int}
    (hsize : size ≤ ((4096 * THREADS_COUNT : Nat) : Int)) :
    Few perform left (rebuild_file_struct dev path size) 1 w := by
  refine .ite (fun _ => .pure _ _ _) fun _ => .ite (fun _ => .ite (fun _ => ?_)
    fun hbig => absurd hsize hbig) fun _ => .pure _ _ _
  refine .after (harmless_few ⟨.inl rfl, rfl⟩) fun fd w₁ _ =>
    .ite (fun _ => ?_) fun _ => .pure _ _ _
  exact .before (few_convert_in_place fd _) fun _ w₂ _ =>
    .after (harmless_few trivial) fun _ _ _ => .pure _ _ _

variable {path : Path} {i : Nat}

theorem few_convert (hname : w.kern.files.names path = some i)
    (hsmall : (w.kern.files.data i).length ≤ 4096 * THREADS_COUNT) (fd : Int) :
    Few perform left (convert_plain dev path fd) 1 w := by
  refine .after (harmless_few trivial) fun _ w₁ h₁ => .ite (fun _ => .ite (fun _ => trivial)
    fun _ => ?_) fun _ => .pure _ _ _
  refine .after (harmless_few trivial) fun _ w₂ h₂ => .ite (fun _ => ?_) fun _ => .pure _ _ _
  refine .after (harmless_few trivial) fun _ w₃ h₃ => ?_
  refine .after (Gentle.few (gentle_get_file_size path) (exist_none _)) fun size w₄ h₄ => ?_
  refine .before (few_rebuild ?_) fun _ _ _ => .pure _ _ _
  -- the size is that of the file, which nothing has changed
  have hleft : left w₃ = left w := by
    have hsame : ∀ (q : RealCall) {b : Answer q} {u u' : World},
        Harmless (fun _ => False) q → run perform (real q) u = .ok (b, u') → left u' = left u :=
      fun _ _ _ _ hq hrun => Gentle.left_eq (.ask hq) (exist_none _) hrun
    exact ((hsame (.close fd) trivial h₃).trans (hsame (.access _) trivial h₂)).trans
      (hsame .calloc trivial h₁)
  have hbs : w₃.kern.files.content path = some (w.kern.files.data i) := by
    rw [show w₃.kern.files = w.kern.files from hleft]
    exact FileStore.content_of_names _ hname
  rw [run_get_file_size_by_path, TeTrace.file_size_any hbs] at h₄
  rw [← (Prod.mk.inj (Except.ok.inj h₄)).1]
  split
  · exact Int.natCast_nonneg _
  · exact Int.ofNat_le.mpr hsmall

/-- The name stays, also when a file is converted. -/
theorem convert_named (hname : w.kern.files.names path ≠ none) {fd : Int} {done : Option Bool}
    {w' : World} (hrun : run perform (convert_plain dev path fd) w = .ok (done, w')) :
    w'.kern.files.names path ≠ none := by
  rw [run_convert_plain] at hrun
  rcases TeOpen.convert_plain_inv hrun with ⟨-, rfl, -⟩ | ⟨size, w₂, r, -, -, h1, h2, -⟩
  · exact hname
  have hnames : w₂.kern.files.names = w.kern.files.names := by
    rw [(TeTrace.still_file_size path h1).1]
    exact congrArg FileStore.names ((w.kern.tock 1).unwritten_close fd).1
  rw [← hnames] at hname
  exact fun habsent => hname ((TeTrace.rebuild_absent hname h2
    (security_path_ne path).symm).mp habsent)

/-- Where no header is found the file is plain, and one buffer holds it. -/
theorem small_of_probe {S : Scope dev} {s : PlainSystem} {w' : World} (hc : w.kern.host.Calm)
    (h0 : w.kern.InUse 0) (hm : Mirrors S w.kern.files s) (hname : s.names path = some i)
    (hrun : run perform (probe_header path) w = .ok (none, w')) :
    (w.kern.files.data i).length ≤ 4096 * THREADS_COUNT := by
  rcases hm.content hname with hseal | hplain
  · obtain ⟨k, hprobe, -⟩ := TeOpen.probe_calm hc (hm.known hname).2 (w.kern.freeFd_pos h0 _)
    rw [if_pos hseal.header, ← run_probe_header] at hprobe
    cases (Prod.mk.inj (Except.ok.inj (hprobe.symm.trans hrun))).1
  · rw [hplain.data]
    exact hplain.small

/-- A file that is there is opened by at most one call that matters, the one that converts it. -/
theorem few_open {S : Scope dev} {s : PlainSystem} {flags : Flags} (henv : env.Active)
    (hc : w.kern.host.Calm) (h0 : w.kern.InUse 0) (hm : Mirrors S w.kern.files s)
    (hname : s.names path = some i) (ht : flags.trunc = false) :
    Few perform left (open_file dev env path flags) 1 w := by
  obtain ⟨-, hname'⟩ := hm.known hname
  let there := fun q => q = path
  have hpath : there path := rfl
  have hexist : ∀ {u : World}, u.kern.files.names path ≠ none → Exist there (left u) := by
    intro u hne q hq
    rw [show q = path from hq]
    exact hne
  -- the path is there, so no open of it creates anything
  have hw : Exist there (left w) := hexist (by rw [hname']; exact Option.some_ne_none i)
  rw [open_file, hooked_body henv]
  refine .ite (fun _ => ((gentle_open hpath ht).few hw).more (Nat.zero_le 1)) fun _ => ?_
  refine .after (harmless_few trivial) fun fs w₁ h₁ => ?_
  have haccess : run perform (TeThread.access path) w = .ok (0, w) := by
    rw [TeThread.access, real, run_ask]
    exact access_ok (w.kern.sysAccess_some (Kernel.answer_denies hc) hname')
  obtain ⟨rfl, rfl⟩ := Prod.mk.inj (Except.ok.inj (haccess.symm.trans h₁))
  rw [if_pos rfl]
  have hprobe : Gentle there (probe_header path) := gentle_probe_header path
  refine .after (hprobe.few hw) fun header w₂ h₂ => ?_
  have hleft₂ := hprobe.left_eq hw h₂
  have hw₂ : Exist there (left w₂) := by
    rw [hleft₂]
    exact hw
  refine .after ((gentle_open hpath ht).few hw₂) fun fd w₃ h₃ => ?_
  have hleft₃ := ((gentle_open hpath ht).left_eq hw₂ h₃).trans hleft₂
  have hw₃ : Exist there (left w₃) := by
    rw [hleft₃]
    exact hw
  refine .ite (fun _ => ?_) fun _ => .pure _ _ _
  rw [if_neg (fun hne => hne rfl)]
  cases header with
  | some header => exact ((gentle_open_encrypted path flags header fd).few hw₃).more (Nat.zero_le 1)
  | none =>
      have hsmall := small_of_probe hc h0 hm hname h₂
      have hfiles₃ : w₃.kern.files = w.kern.files := hleft₃
      -- the conversion is the one call; opening the file once more is none
      refine .before (few_convert (i := i) ?_ ?_ fd) fun done w₄ h₄ => ?_
      · rw [hfiles₃]
        exact hname'
      · rw [hfiles₃]
        exact hsmall
      · have hw₄ := hexist (convert_named (hw₃ path rfl) h₄)
        cases done with
        | none => exact .pure _ _ _
        | some converted =>
            cases converted with
            | true => exact (gentle_reopen hpath ht).few hw₄
            | false => exact (gentle_open hpath ht).few hw₄

end Few

/-! ## Calls that a process is killed in -/

/-- The calls that are atomic: a file that is opened is there, and a write starts a block. -/
def Atomic (s : PlainSystem) : Call → Prop
  | .openFile path _ => s.names path ≠ none
  | .write fd _ => ∀ h, s.opened fd = some h → h.pos % 16 = 0
  | _ => True

section Killed

variable {dev : Device} {S : Scope dev} {env : Env} {w w₁ : World} {s : PlainSystem} {q : Call}

theorem few_call (henv : env.Active) (hs : Shadows S w s) (hq : TeTransparent.Granted S s q)
    (hatomic : Atomic s q) : Few perform left (script dev env q) 1 w := by
  have hgentle : ∀ {t : Thread Reply}, Gentle (fun _ => False) t → Few perform left t 1 w :=
    fun ht => (ht.few (exist_none _)).more (Nat.zero_le 1)
  cases q with
  | openFile path flags =>
      obtain ⟨i, hname⟩ := Option.ne_none_iff_exists'.mp hatomic
      obtain ⟨-, ht, -⟩ := hq
      exact .before (few_open henv hs.calm hs.input hs.files hname ht) fun _ _ _ => .pure _ _ _
  | read fd n => exact hgentle (.bind (gentle_read fd n) fun _ => .pure _)
  | write fd b =>
      obtain ⟨h, hf, -⟩ := hq
      obtain ⟨id, hh⟩ := hs.held hf
      exact .before (few_write henv hs.calm hh.tracks hh.pos (hatomic h hf) b)
        fun _ _ _ => .pure _ _ _
  | lseek fd o whence => exact hgentle (.bind (gentle_lseek fd o whence) fun _ => .pure _)
  | stat path => exact hgentle (.bind (gentle_stat path) fun _ => .pure _)
  | fstat fd => exact hgentle (.bind (gentle_fstat fd) fun _ => .pure _)
  | close fd => exact hgentle (.bind (gentle_close fd) fun _ => .pure _)

/-- **Killed within a call.**  The files are those before it, or those after it. -/
theorem killed_call (henv : env.Active) (hs : Shadows S w s) (hq : TeTransparent.Granted S s q)
    (hatomic : Atomic s q) (hv : Visits perform (script dev env q) w w₁) :
    Mirrors S w₁.kern.files s ∨ ∃ r s₁, s.Step q r s₁ ∧ Mirrors S w₁.kern.files s₁ := by
  obtain ⟨r, w', s', hrun, hstep, hs', -⟩ := TeTransparent.call_shadows henv hs hq
  rw [← run_script] at hrun
  rcases Few.atomic hv (few_call henv hs hq hatomic) hrun with hleft | hleft
  · refine .inl ?_
    rw [show w₁.kern.files = w.kern.files from hleft]
    exact hs.files
  · refine .inr ⟨r, s', hstep, ?_⟩
    rw [show w₁.kern.files = w'.kern.files from hleft]
    exact hs'.files

end Killed

/-! ## Processes that come one after the other -/

/-- A call that is finished; one that the process is killed in; and the end of a process between
    two calls.  After the last two there is a new process. -/
inductive Event where
  | call (q : Call)
  | killed (q : Call)
  | ended

/-- What the hooked processes do. -/
inductive Hooked (dev : Device) (env : Env) (w : World) : Event → Option Reply → World → Prop where
  | call {q : Call} {r : Reply} {w' : World} : TeTransparent.run dev env q w = .ok (r, w') →
      Hooked dev env w (.call q) (some r) w'
  | killed {q : Call} {w₁ w' : World} : Visits perform (script dev env q) w w₁ →
      TeTransparent.Respawned w₁ w' → Hooked dev env w (.killed q) none w'
  | ended {w' : World} : TeTransparent.Respawned w w' → Hooked dev env w .ended none w'

/-- What happens to the plain files: a call in which a process is killed was made, or it was
    not. -/
inductive Outcome (s : PlainSystem) : Event → Option Reply → PlainSystem → Prop where
  | call {q : Call} {r : Reply} {s' : PlainSystem} : s.Step q r s' → Outcome s (.call q) (some r) s'
  | made {q : Call} {r : Reply} {s₁ s' : PlainSystem} : s.Step q r s₁ →
      TeTransparent.Closed s₁ s' → Outcome s (.killed q) none s'
  | lost {q : Call} {s' : PlainSystem} : TeTransparent.Closed s s' → Outcome s (.killed q) none s'
  | ended {s' : PlainSystem} : TeTransparent.Closed s s' → Outcome s .ended none s'

def hooked_processes (dev : Device) (env : Env) : Machine World Event (Option Reply) :=
  ⟨Hooked dev env⟩

def plain_files : Machine PlainSystem Event (Option Reply) := ⟨Outcome⟩

/-- A process may be killed in a call that is atomic. -/
def May {dev : Device} (S : Scope dev) (s : PlainSystem) : Event → Prop
  | .call q => TeTransparent.Granted S s q
  | .killed q => TeTransparent.Granted S s q ∧ Atomic s q
  | .ended => True

variable {dev : Device} {S : Scope dev} {env : Env}

theorem processes_refine (S : Scope dev) (henv : env.Active) :
    Refines (hooked_processes dev env) plain_files (May S) (Shadows S) where
  step := by
    intro w s e r w' hs hmay hstep
    cases hstep with
    | call hrun =>
        obtain ⟨s', hplain, hs'⟩ := (TeTransparent.hooked_refines S henv).step hs hmay hrun
        exact ⟨s', .call hplain, hs'⟩
    | killed hv hre =>
        rcases killed_call henv hs hmay.1 hmay.2 hv with hm | ⟨r, s₁, hplain, hm⟩
        · obtain ⟨s', hclosed, hs'⟩ := TeTransparent.shadows_respawned hm hre
          exact ⟨s', .lost hclosed, hs'⟩
        · obtain ⟨s', hclosed, hs'⟩ := TeTransparent.shadows_respawned hm hre
          exact ⟨s', .made hplain hclosed, hs'⟩
    | ended hre =>
        obtain ⟨s', hclosed, hs'⟩ := TeTransparent.shadows_respawned hs.files hre
        exact ⟨s', .ended hclosed, hs'⟩
  answers := by
    intro w s e hs hmay
    have hnew : TeTransparent.Respawned w { w with file_info_list := [] } :=
      ⟨rfl, rfl, hs.calm, hs.input⟩
    cases e with
    | call q =>
        obtain ⟨r, w', hrun⟩ := (TeTransparent.hooked_refines S henv).answers hs hmay
        exact ⟨some r, w', .call hrun⟩
    | killed q => exact ⟨none, _, .killed (.here _ _) hnew⟩
    | ended => exact ⟨none, _, .ended hnew⟩

/-- **What survives.**  Processes come one after the other, on the files that the one before
    left; each of them makes calls that are granted, and may be killed between any two real
    calls of one that is atomic.  Every run has the replies of a run of the plain files in which
    the calls that a process was killed in were made or were not, and goes on. -/
theorem killed_transparent {w w' : World} {s : PlainSystem} {l : List (Event × Option Reply)}
    (henv : env.Active) (hs : Shadows S w s) (hrun : (hooked_processes dev env).Trace w l w')
    (hmay : plain_files.Within (May S) s l) :
    ∃ s', plain_files.Trace s l s' ∧ Shadows S w' s' ∧
      ∀ e, May S s' e → ∃ r w'', Hooked dev env w' e r w'' :=
  (processes_refine S henv).live hs hrun hmay

/-! ## A conversion that is cut off -/

/-- What one process does from call to call. -/
theorem walk_calls {l : List (Call × Reply)} {s t : PlainSystem}
    (h : plain.Walk (TeTransparent.Granted S) s l t)
    (hl : ∀ x ∈ l, ∀ path flags, x.1 ≠ .openFile path flags) :
    plain_files.Walk (May S) s (l.map fun x => (.call x.1, some x.2)) t := by
  induction h with
  | nil s => exact .nil s
  | cons hq hsingle hstep _ ih =>
      refine .cons hq ?_ (.call hstep) (ih fun x hx => hl x (List.mem_cons_of_mem _ hx))
      intro s a a' s₁ s₂ h₁ h₂
      cases h₁ with
      | call h₁ =>
          cases h₂ with
          | call h₂ =>
              obtain ⟨rfl, rfl⟩ := hsingle h₁ h₂
              exact ⟨rfl, rfl⟩

/-- The file `"f"` is plain, and holds 20 zeros. -/
def plainFile : World where
  kern := Kernel.oneDescriptor (zeroed 20) { acc := .rdonly } 0
  file_info_list := []

theorem plainFile_shadows : Shadows TeTransparent.aScope plainFile TeTransparent.textFile := by
  obtain ⟨hknown, hunknown, hsiblings, -⟩ := TeTransparent.textFile_shadows.files
  refine TeTransparent.shadows_start (fun _ => ⟨rfl, rfl, rfl⟩) (by decide) rfl ?_ fun _ => rfl
  refine ⟨hknown, hunknown, hsiblings, fun {path i} h => .inr ?_, fun hf => (by cases hf),
    fun hb => (by cases hb)⟩
  obtain rfl : 1 = i := Option.some.inj ((hknown h).2.symm.trans (by
    rw [show path = Kernel.aName from (hknown h).1]
    rfl)).symm
  exact ⟨Kernel.oneDescriptor_data _ _ _, by decide, by decide, TeDetector.typeOf_zeroed 20⟩

/-- The open of this file changes it. -/
theorem plainFile_converts : ∃ r w', run perform (script aDevice activeEnv
      (.openFile Kernel.aName { acc := .rdwr })) plainFile = .ok (r, w') ∧
    left w' ≠ left plainFile := by
  have hdata : plainFile.kern.files.data 1 = zeroed 20 := Kernel.oneDescriptor_data _ _ _
  obtain ⟨fd, w', hopen, -, hfiles⟩ := @TeAcquire.acquire_plain aDevice activeEnv plainFile
    Kernel.aName { acc := .rdwr } 1 ⟨rfl, rfl, rfl⟩ (fun _ => ⟨rfl, rfl, rfl⟩) (by decide)
    (TeTransparent.aScope.supported rfl) (TeTransparent.aScope.fits rfl) (by decide) rfl rfl
    (by
      rw [hdata]
      exact fun hH => TeDetector.typeOf_zeroed 20 (TeDetector.typeOf_hasHeader hH))
    (by rw [hdata]; decide) (by rw [hdata]; decide) rfl rfl
  refine ⟨.result fd, w', ?_, fun hsame => ?_⟩
  · rw [run_script, TeTransparent.run, bind_ok hopen]
    rfl
  · have hlen := congrArg (fun fs : FileStore => (fs.data 1).length) (hfiles.symm.trans hsame)
    simp only [FileStore.store_data_self, converted_length] at hlen
    rw [show (left plainFile).data 1 = zeroed 20 from hdata, zeroed_length] at hlen
    omega

/-- A new process opens the file, and appends to its text. -/
theorem appends {w : World} (hs : Shadows TeTransparent.aScope w TeTransparent.textFile) :
    ∃ fd w', (hooked_processes aDevice activeEnv).Trace w
      ((.call (.openFile Kernel.aName { acc := .rdwr }), some (.result fd)) ::
        (TeTransparent.appended fd).map fun x => (.call x.1, some x.2)) w' ∧
    plain_files.Within (May TeTransparent.aScope) TeTransparent.textFile
      ((.call (.openFile Kernel.aName { acc := .rdwr }), some (.result fd)) ::
        (TeTransparent.appended fd).map fun x => (.call x.1, some x.2)) := by
  have henv : activeEnv.Active := ⟨rfl, rfl, rfl⟩
  have hname : TeTransparent.textFile.names Kernel.aName = some 1 := rfl
  have hq : TeTransparent.Granted TeTransparent.aScope TeTransparent.textFile
      (.openFile Kernel.aName { acc := .rdwr }) :=
    ⟨rfl, rfl, rfl, fun _ => rfl, fun h => by cases h⟩
  obtain ⟨r, w₁, s₁, hcall, hstep, hs₁, -⟩ := TeTransparent.call_shadows henv hs hq
  obtain ⟨fd, rfl, rfl⟩ := TeTransparent.open_named hname hstep
  obtain ⟨t, hwalk, -⟩ :=
    TeTransparent.appended_walk (TeTransparent.textFile.hold_self fd ⟨1, 0, .rdwr⟩) rfl
  have hwalk := walk_calls hwalk (by simp [TeTransparent.appended])
  obtain ⟨w', htrace, -⟩ := (processes_refine TeTransparent.aScope henv).follow hwalk hs₁
  refine ⟨fd, w', .cons (.call hcall) htrace, hq, fun u hu => ?_⟩
  cases hu with
  | call hstep' =>
      obtain ⟨fd', heq, rfl⟩ := TeTransparent.open_named hname hstep'
      obtain rfl : fd = fd' := Reply.result.inj heq
      exact hwalk.within

/-- A process is killed in the open that converts the file, right before the call that does so
    or right behind it; the next one opens the file and appends to its text. -/
theorem killed_transparent_converting : ∃ (q : RealCall) (b : TeThread.Answer q) (w₁ w₂ : World),
    Visits perform (script aDevice activeEnv (.openFile Kernel.aName { acc := .rdwr }))
      plainFile w₁ ∧ perform q w₁ = .ok (b, w₂) ∧ left w₁ = left plainFile ∧
      left w₂ ≠ left plainFile ∧
    ∀ w, w = w₁ ∨ w = w₂ → ∃ fd w' s',
      (hooked_processes aDevice activeEnv).Trace plainFile
        ((.killed (.openFile Kernel.aName { acc := .rdwr }), none) ::
          (.call (.openFile Kernel.aName { acc := .rdwr }), some (.result fd)) ::
            (TeTransparent.appended fd).map fun x => (.call x.1, some x.2)) w' ∧
      plain_files.Trace TeTransparent.textFile
        ((.killed (.openFile Kernel.aName { acc := .rdwr }), none) ::
          (.call (.openFile Kernel.aName { acc := .rdwr }), some (.result fd)) ::
            (TeTransparent.appended fd).map fun x => (.call x.1, some x.2)) s' ∧
      Shadows TeTransparent.aScope w' s' := by
  have henv : activeEnv.Active := ⟨rfl, rfl, rfl⟩
  have hname : TeTransparent.textFile.names Kernel.aName = some 1 := rfl
  obtain ⟨r, w', hrun, hne⟩ := plainFile_converts
  obtain ⟨q, b, w₁, w₂, hv₁, hcall, hv₂, hsame, hchanged⟩ := visits_change hrun hne
  refine ⟨q, b, w₁, w₂, hv₁, hcall, hsame, hchanged, fun w hw => ?_⟩
  have hv : Visits perform (script aDevice activeEnv
      (.openFile Kernel.aName { acc := .rdwr })) plainFile w := by
    rcases hw with rfl | rfl
    · exact hv₁
    · exact hv₂
  have hmay : May TeTransparent.aScope TeTransparent.textFile
      (.killed (.openFile Kernel.aName { acc := .rdwr })) :=
    ⟨⟨rfl, rfl, rfl, fun _ => rfl, fun h => by cases h⟩, fun h => by cases h⟩
  -- the plain files are the same, whether the open was made or not
  have hclosed : ∀ {t}, Outcome TeTransparent.textFile
      (.killed (.openFile Kernel.aName { acc := .rdwr })) none t → t = TeTransparent.textFile := by
    intro t ht
    cases ht with
    | made hstep hclosed =>
        obtain ⟨fd, -, rfl⟩ := TeTransparent.open_named hname hstep
        exact hclosed
    | lost hclosed => exact hclosed
  have hnext : 0 < w.kern.files.next := by
    rcases killed_call henv plainFile_shadows hmay.1 hmay.2 hv with hm | ⟨r, s₁, hstep, hm⟩
    · exact Nat.lt_of_le_of_lt (Nat.zero_le _) (w.kern.files.names_lt _ _ (hm.known hname).2)
    · obtain ⟨fd, -, rfl⟩ := TeTransparent.open_named hname hstep
      have hheld :
        (TeTransparent.textFile.hold fd ⟨1, 0, .rdwr⟩).names Kernel.aName = some 1 := hname
      exact Nat.lt_of_le_of_lt (Nat.zero_le _) (w.kern.files.names_lt _ _ (hm.known hheld).2)
  have hkilled : (hooked_processes aDevice activeEnv).step plainFile
      (.killed (.openFile Kernel.aName { acc := .rdwr })) none
      (TeTransparent.newProcess w.kern.files hnext) :=
    .killed hv (TeTransparent.newProcess_respawned w hnext)
  obtain ⟨t, ht, hs⟩ := (processes_refine TeTransparent.aScope henv).step plainFile_shadows hmay
    hkilled
  obtain rfl := hclosed ht
  obtain ⟨fd, w'', htrace, hwithin⟩ := appends hs
  obtain ⟨s', hplain, hs', -⟩ := killed_transparent henv plainFile_shadows (.cons hkilled htrace)
    ⟨hmay, fun u hu => by rw [hclosed hu]; exact hwithin⟩
  exact ⟨fd, w'', s', .cons hkilled htrace, hplain, hs'⟩

end TeKilled
