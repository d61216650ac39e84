import TransEncrypt.SecurityProofs
import TransEncrypt.TransparentProofs

/-! # The head of a hook — who is served, and when

    Every hook first asks whether the library is loaded, whether the process is trusted and
    whether encryption is switched on for its domain.  It asks anew at every call, from the
    system properties, the user number and the configuration file, so the answers may change
    from call to call, and the last question opens and reads a file itself.

    * `hook` is the head as the source writes it; `run_hook` takes it from the conditions
      that the single hooks are stated with;
    * `conditions_on`: what is asked leaves files, cursors and table alone;
    * `gated_transparent`: so the runs of `session_transparent` are those of a process that
      asks at every call. -/

namespace TeGate

open Posix Overlay TeHeader Hoare TeProgram CString Numeral TeDomain TeSecurity TeSession
open TeOpen TeTransparent Plain Refinement

/-! ## The code -/

/-- What the platform fixes: how far apart the numbers of two users are, the number of the
    media server, and the bits of a `long`.  A user number is an `int`. -/
structure Platform where
  AID_USER : Nat
  AID_MEDIA : Nat
  long : Nat
  wide : 2 ≤ AID_USER

/-- What a process finds out about itself: the properties of the system, and `getuid`. -/
structure Process where
  props : Properties
  getuid : UInt32

/-- The state of the library: its running state, and the world of the hooked process. -/
structure Image where
  linker_running_state : Int
  world : World

abbrev Lib (α : Type) := Prog Image Stop α

def inWorld {α : Type} (f : Sys α) : Lib α := fun m =>
  match f m.world with
  | .ok (a, w) => .ok (a, { m with world := w })
  | .error e => .error e

/-- What is not in the source: `linker_reload`, and which of the pointers it has set. -/
structure Linkage where
  linker_reload : Lib Int
  linked : Call → Bool

def running_state : Lib Int := fun m => .ok (m.linker_running_state, m)

def update_linker_running_state (lib : Linkage) : Lib Int := do
  if (← running_state) = 0 then do
    let _ ← lib.linker_reload
    running_state
  else running_state

def get_process_uid (pf : Platform) (p : Process) : Int := (p.getuid.toNat % pf.AID_USER : Nat)

def get_process_user (pf : Platform) (p : Process) : Int := (p.getuid.toNat / pf.AID_USER : Nat)

def is_trust_process (pf : Platform) (p : Process) : Int :=
  let domain := get_process_domain pf.long p.props
  if domain = 0 then 0
  else
    let user := get_process_user pf p
    if user = 0 then
      let uid := get_process_uid pf p
      if uid = pf.AID_MEDIA then 1 else 0
    else if domain = user then 1 else 0

/-- The head of a hook: `dead` when the library is not loaded, `raw` for a process that is not
    served, else `body`. -/
def hook {α : Type} (pf : Platform) (lib : Linkage) (p : Process) (linked : Bool) (dead : α)
    (raw body : Sys α) : Lib α := do
  let running ← update_linker_running_state lib
  if running = 0 ∨ linked = false then pure dead
  else if is_trust_process pf p = 0 then inWorld raw
  else do
    let state ← inWorld (get_domain_state pf.long p.props)
    if state = 0 then inWorld raw else inWorld body

/-- The conditions that a hook finds. -/
def conditions (pf : Platform) (lib : Linkage) (p : Process) (linked : Bool) : Lib Env := do
  let running ← update_linker_running_state lib
  if running = 0 ∨ linked = false then pure ⟨false, false, false⟩
  else if is_trust_process pf p = 0 then pure ⟨true, false, false⟩
  else do
    let state ← inWorld (get_domain_state pf.long p.props)
    pure ⟨true, true, decide (state ≠ 0)⟩

/-- A call through a hook that asks for its conditions first. -/
def gated (dev : Device) (pf : Platform) (lib : Linkage) (p : Process) (q : Call) : Lib Reply := do
  let env ← conditions pf lib p (lib.linked q)
  inWorld (run dev env q)

/-! ## The head is the one of the source -/

section Head

variable {α β : Type} {m : Image}

theorem inWorld_ok {f : Sys α} {a : α} {w : World} (h : f m.world = .ok (a, w)) :
    inWorld f m = .ok (a, { m with world := w }) := by
  rw [inWorld, h]

theorem inWorld_inv {f : Sys α} {a : α} {m' : Image} (h : inWorld f m = .ok (a, m')) :
    ∃ w, f m.world = .ok (a, w) ∧ m' = { m with world := w } := by
  rw [inWorld] at h
  cases hf : f m.world with
  | error e =>
      rw [hf] at h
      cases h
  | ok r =>
      rw [hf] at h
      obtain ⟨rfl, rfl⟩ := Prod.mk.inj (Except.ok.inj h)
      exact ⟨r.2, rfl, rfl⟩

/-- What is done with the result of a hook may be done on each of its three ways. -/
theorem hooked_bind (env : Env) (dead : α) (raw body : Sys α) (f : α → β) :
    (hooked env dead raw body >>= fun a => pure (f a)) =
      hooked env (f dead) (raw >>= fun a => pure (f a)) (body >>= fun a => pure (f a)) := by
  rw [hooked, hooked]
  split_ifs with h1 h2
  · rfl
  · rfl
  · rfl

/-- Every call is hooked. -/
theorem run_hooked (dev : Device) (q : Call) :
    ∃ dead raw body, ∀ env, run dev env q = hooked env dead raw body := by
  cases q with
  | openFile path flags => exact ⟨_, _, _, fun env => hooked_bind env ..⟩
  | read fd n => exact ⟨_, _, _, fun env => hooked_bind env ..⟩
  | write fd b => exact ⟨_, _, _, fun env => hooked_bind env ..⟩
  | lseek fd o whence => exact ⟨_, _, _, fun env => hooked_bind env ..⟩
  | stat path => exact ⟨_, _, _, fun env => hooked_bind env ..⟩
  | fstat fd => exact ⟨_, _, _, fun env => hooked_bind env ..⟩
  | close fd => exact ⟨_, _, _, fun env => hooked_bind env ..⟩

/-- Asking for the conditions and then choosing the way is the head of the source. -/
theorem conditions_hooked (pf : Platform) (lib : Linkage) (p : Process) (linked : Bool) (dead : α)
    (raw body : Sys α) :
    (conditions pf lib p linked >>= fun env => inWorld (hooked env dead raw body)) =
      hook pf lib p linked dead raw body := by
  rw [conditions, hook, bind_assoc]
  congr 1
  funext running
  by_cases hrun : running = 0 ∨ linked = false
  · rw [if_pos hrun, if_pos hrun, pure_bind]
    rfl
  · rw [if_neg hrun, if_neg hrun]
    by_cases htrust : is_trust_process pf p = 0
    · rw [if_pos htrust, if_pos htrust, pure_bind]
      rfl
    · rw [if_neg htrust, if_neg htrust, bind_assoc]
      congr 1
      funext state
      rw [pure_bind]
      by_cases hstate : state = 0
      · rw [if_pos hstate, hstate]
        rfl
      · rw [if_neg hstate, hooked, if_neg (by simp), if_neg (by simp [hstate])]

/-- So a gated call is a hook. -/
theorem run_hook (dev : Device) (pf : Platform) (lib : Linkage) (p : Process) (q : Call) :
    ∃ dead raw body, (∀ env, run dev env q = hooked env dead raw body) ∧
      gated dev pf lib p q = hook pf lib p (lib.linked q) dead raw body := by
  obtain ⟨dead, raw, body, hrun⟩ := run_hooked dev q
  refine ⟨dead, raw, body, hrun, ?_⟩
  rw [gated, ← conditions_hooked]
  simp only [hrun]

end Head

/-! ## The switch of a domain -/

/-- The domain of a process is switched on: by its own state, or else by a configuration
    `cfg`, read into the buffer that holds its number, that parses. -/
def SwitchedOn (long : Nat) (cfg : List UInt8) (props : Properties) : Prop :=
  let domain := get_process_domain long props
  let property := (props "persist.mdm.domain_id").bytes
  get_personal_state props domain ≠ 0 ∨
    (property ≠ [] ∧ atoi long property = domain ∧ Parses (loaded property cfg) ∧
      configured long (loaded property cfg) ≠ 0)

/-- A process that is served: trusted, with its domain switched on. -/
structure Served (pf : Platform) (cfg : List UInt8) (p : Process) : Prop where
  trusted : is_trust_process pf p ≠ 0
  switched : SwitchedOn pf.long cfg p.props

/-- A trusted process has a domain. -/
theorem domain_ne_zero {pf : Platform} {p : Process} (h : is_trust_process pf p ≠ 0) :
    get_process_domain pf.long p.props ≠ 0 := by
  intro hzero
  rw [is_trust_process, if_pos hzero] at h
  exact h rfl

/-- Who is trusted: the processes of the user whose number is the current domain, and the media
    server of user 0. -/
theorem is_trust_process_iff {pf : Platform} {p : Process} :
    is_trust_process pf p ≠ 0 ↔ get_process_domain pf.long p.props ≠ 0 ∧
      (get_process_user pf p = 0 ∧ get_process_uid pf p = pf.AID_MEDIA ∨
        get_process_user pf p ≠ 0 ∧
          get_process_domain pf.long p.props = get_process_user pf p) := by
  rw [is_trust_process]
  dsimp only
  by_cases hdomain : get_process_domain pf.long p.props = 0
  · simp [hdomain]
  · rw [if_neg hdomain]
    by_cases huser : get_process_user pf p = 0
    · rw [if_pos huser]
      simp [hdomain, huser]
    · rw [if_neg huser]
      simp [hdomain, huser]

section Switch

variable {long : Nat} {props : Properties} {cfg : List UInt8} {w : World} {i : Nat}

/-- With descriptor 0 in use the configuration is seen, and nothing else happens. -/
theorem get_domain_state_on (hc : w.kern.host.Calm) (h0 : w.kern.InUse 0)
    (hname : w.kern.files.names CONFIG_PATH = some i) (hdata : w.kern.files.data i = cfg)
    (hshort : cfg.length < PROP_VALUE_MAX) (hdomain : get_process_domain long props ≠ 0)
    (hon : SwitchedOn long cfg props) :
    ∃ r k, get_domain_state long props w = .ok (r, { w with kern := k }) ∧ r ≠ 0 ∧
      Kernel.Quiet w.kern k := by
  rw [get_domain_state_eq rfl hdomain]
  by_cases hpersonal : get_personal_state props (get_process_domain long props) ≠ 0
  · rw [if_pos hpersonal]
    exact ⟨_, w.kern, rfl, hpersonal, .refl _⟩
  · rw [if_neg hpersonal]
    obtain ⟨hset, hnumber, hparses, hconf⟩ := hon.resolve_left hpersonal
    obtain ⟨hgot, hquiet⟩ := Kernel.fetch_calm hc hname h0 PROP_VALUE_MAX
    have hall : slice (w.kern.files.data i) 0 PROP_VALUE_MAX = cfg := by
      rw [hdata]
      exact List.take_of_length_le (Nat.le_of_lt hshort)
    rw [hall] at hgot
    obtain ⟨hnul, hstr⟩ := loaded_eq (props "persist.mdm.domain_id").short hshort
    rw [get_security_state_run hset hnumber (Kernel.answer_denies hc) hname, hgot]
    refine ⟨_, _, (config_state_ok hnul _ _).mpr ⟨?_, rfl, rfl⟩, ?_, hquiet⟩
    · rw [hstr]
      exact hparses
    · rw [hstr]
      exact hconf

end Switch

/-! ## The conditions that a hook finds -/

/-- The files are served: the scope leaves the configuration alone. -/
structure Configured {dev : Device} (S : Scope dev) (cfg : List UInt8) : Prop where
  beside : S.beside CONFIG_PATH = some cfg
  short : cfg.length < PROP_VALUE_MAX

/-- `linker_reload` starts the table and sets the running state, and the pointers are found. -/
structure Loads (lib : Linkage) : Prop where
  reload : ∀ m, m.linker_running_state = 0 → ∃ r, lib.linker_reload m =
    .ok (r, { linker_running_state := 1, world := { m.world with file_info_list := [] } })
  linked : ∀ q, lib.linked q = true

/-- The library stands for a plain system: its process does, and nothing is in the table before
    it is loaded. -/
structure Stands {dev : Device} (S : Scope dev) (m : Image) (s : PlainSystem) : Prop where
  shadows : Shadows S m.world s
  unloaded : m.linker_running_state = 0 → m.world.file_info_list = []

section Conditions

variable {dev : Device} {S : Scope dev} {pf : Platform} {lib : Linkage} {p : Process}
  {cfg : List UInt8} {m : Image} {s : PlainSystem}

/-- The library is loaded when it was not, and the world stays as it was. -/
theorem update_runs (hlib : Loads lib)
    (hempty : m.linker_running_state = 0 → m.world.file_info_list = []) :
    ∃ r, r ≠ 0 ∧ update_linker_running_state lib m =
      .ok (r, { m with linker_running_state := r }) := by
  rw [update_linker_running_state, bind_ok (show running_state m = .ok (_, m) from rfl)]
  by_cases hrun : m.linker_running_state = 0
  · rw [if_pos hrun]
    obtain ⟨r, hreload⟩ := hlib.reload m hrun
    rw [bind_ok hreload, ← hempty hrun]
    exact ⟨1, by decide, rfl⟩
  · rw [if_neg hrun]
    exact ⟨_, hrun, rfl⟩

/-- **The conditions** of a served process: all three hold, and asking leaves everything
    alone. -/
theorem conditions_on (hlib : Loads lib) (hcfg : Configured S cfg) (hp : Served pf cfg p)
    (hm : Stands S m s) (q : Call) :
    ∃ env m', conditions pf lib p (lib.linked q) m = .ok (env, m') ∧ env.Active ∧
      m'.linker_running_state ≠ 0 ∧ Shadows S m'.world s := by
  obtain ⟨r, hr, hrun⟩ := update_runs hlib hm.unloaded
  obtain ⟨i, hname, hdata, -⟩ := hm.shadows.files.beside hcfg.beside
  obtain ⟨state, k, hstate, hne, hquiet⟩ := get_domain_state_on hm.shadows.calm hm.shadows.input
    hname hdata hcfg.short (domain_ne_zero hp.trusted) hp.switched
  have hloaded : ¬ (r = 0 ∨ lib.linked q = false) := by
    rintro (hzero | hunlinked)
    · exact hr hzero
    · cases (hlib.linked q).symm.trans hunlinked
  refine ⟨⟨true, true, decide (state ≠ 0)⟩,
    { linker_running_state := r, world := { m.world with kern := k } }, ?_,
    ⟨rfl, rfl, decide_eq_true hne⟩, hr, hm.shadows.quiet hquiet⟩
  rw [conditions, bind_ok hrun, if_neg hloaded, if_neg hp.trusted,
    bind_ok (inWorld_ok (m := { m with linker_running_state := r }) hstate)]
  rfl

end Conditions

/-! ## Every run -/

/-- The hooked process that asks at every call; what it finds out comes with the call. -/
def gated_process (dev : Device) (pf : Platform) (lib : Linkage) :
    Machine Image (Process × Call) Reply :=
  ⟨fun m q a m' => gated dev pf lib q.1 q.2 m = .ok (a, m')⟩

/-- The gated process refines the plain file system. -/
theorem gated_refines {dev : Device} {S : Scope dev} {pf : Platform} {lib : Linkage}
    {cfg : List UInt8} (hlib : Loads lib) (hcfg : Configured S cfg) :
    Refines (gated_process dev pf lib) (plain.comap Prod.snd)
      (fun s q => Served pf cfg q.1 ∧ Granted S s q.2) (Stands S) where
  step := by
    rintro m s ⟨p, q⟩ r m' hm ⟨hp, hq⟩ hstep
    obtain ⟨env, m₁, hcond, henv, hloaded, hs⟩ := conditions_on hlib hcfg hp hm q
    have hrun : inWorld (run dev env q) m₁ = .ok (r, m') := by
      have h : gated dev pf lib p q m = .ok (r, m') := hstep
      rw [gated, bind_ok hcond] at h
      exact h
    obtain ⟨w', hcall, rfl⟩ := inWorld_inv hrun
    obtain ⟨s', hplain, hs'⟩ := (hooked_refines S henv).step hs hq hcall
    exact ⟨s', hplain, hs', fun hzero => absurd hzero hloaded⟩
  answers := by
    rintro m s ⟨p, q⟩ hm ⟨hp, hq⟩
    obtain ⟨env, m₁, hcond, henv, -, hs⟩ := conditions_on hlib hcfg hp hm q
    obtain ⟨r, w', hcall⟩ := (hooked_refines S henv).answers hs hq
    refine ⟨r, { m₁ with world := w' }, ?_⟩
    show gated dev pf lib p q m = _
    rw [gated, bind_ok hcond, inWorld_ok hcall]

/-- **Served at every call.**  The library is loaded when it is first needed, and each hook asks
    the properties, the user number and the configuration file again.  As long as the process
    is served at every call, whatever changes in between, the granted calls are those of a run
    of the plain file system, and the configuration stays as it is. -/
theorem gated_transparent {dev : Device} {S : Scope dev} {pf : Platform} {lib : Linkage}
    {cfg : List UInt8} {m m' : Image} {s : PlainSystem} {l : List ((Process × Call) × Reply)}
    (hlib : Loads lib) (hcfg : Configured S cfg) (hm : Stands S m s)
    (hrun : (gated_process dev pf lib).Trace m l m')
    (hmay : (plain.comap Prod.snd).Within
      (fun s q => Served pf cfg q.1 ∧ Granted S s q.2) s l) :
    ∃ s', plain.Trace s (l.map fun x => (x.1.2, x.2)) s' ∧ Stands S m' s' ∧
      ∀ p q, Served pf cfg p → Granted S s' q →
        ∃ r m'', gated dev pf lib p q m' = .ok (r, m'') := by
  obtain ⟨s', htrace, hm', hnext⟩ := (gated_refines hlib hcfg).live hm hrun hmay
  exact ⟨s', htrace.of_comap, hm', fun p q hp hq => hnext (p, q) ⟨hp, hq⟩⟩

/-! ## A small session -/

def setting : List UInt8 := text "encrypt:1"

/-- The encrypted file `"f"` and a configuration. -/
def configuredFiles : FileStore :=
  (sealedFile.kern.files.create CONFIG_PATH).store sealedFile.kern.files.next setting

/-- A process that has not called a hook. -/
def startedImage : Image where
  linker_running_state := 0
  world := { sealedFile with
    kern := sealedFile.kern.setFiles configuredFiles (Nat.le_succ _) }

def servedScope : Scope aDevice where
  In := aScope.In
  beside path := if path = CONFIG_PATH then some setting else none
  supported := aScope.supported
  common := aScope.common
  named := aScope.named
  fits := aScope.fits
  apart := aScope.apart
  other h := by
    rw [show _ = Kernel.aName from h]
    rfl

def aPlatform : Platform := ⟨100000, 1013, 32, by decide⟩

/-- A process of user 5, while 5 is the current domain. -/
def servedProcess : Process := ⟨fun _ => five, 510042⟩

def aLinkage : Linkage where
  linker_reload m :=
    .ok (0, { linker_running_state := 1, world := { m.world with file_info_list := [] } })
  linked _ := true

theorem aLinkage_loads : Loads aLinkage := ⟨fun _ _ => ⟨0, rfl⟩, fun _ => rfl⟩

theorem servedScope_configured : Configured servedScope setting where
  beside := by
    show (if CONFIG_PATH = CONFIG_PATH then some setting else none) = some setting
    rw [if_pos rfl]
  short := by decide

theorem servedProcess_served : Served aPlatform setting servedProcess :=
  ⟨by decide, .inr ⟨by decide, by decide,
    .inr ⟨text "encrypt", [text "1"], by decide, fun _ => by decide⟩, by decide⟩⟩

theorem startedImage_stands : Stands servedScope startedImage textFile := by
  have hold := textFile_shadows.files
  have hconfig : ∀ {path}, servedScope.In path → path ≠ CONFIG_PATH := by
    rintro path hpath rfl
    cases (servedScope.other hpath).symm.trans servedScope_configured.beside
  have hnames : ∀ {path}, path ≠ CONFIG_PATH →
      configuredFiles.names path = sealedFile.kern.files.names path := fun hne =>
    FileStore.create_names_ne _ hne
  have hdata : ∀ {i}, i ≠ sealedFile.kern.files.next →
      configuredFiles.data i = sealedFile.kern.files.data i := fun hne =>
    (FileStore.store_data_ne _ hne _).trans (FileStore.create_data_ne _ hne)
  refine ⟨shadows_start (fun _ => ⟨rfl, rfl, rfl⟩) (by decide) rfl ?_ fun _ => rfl, fun _ => rfl⟩
  refine ⟨fun {path i} h => ?_, fun {path} hp h => ?_, fun {path} hp => ?_, fun {path i} h => ?_,
    fun hf => (by cases hf), fun {path C} hb => ?_⟩
  · obtain ⟨hp, hn⟩ := hold.known h
    exact ⟨hp, (hnames (hconfig hp)).trans hn⟩
  · exact (hnames (hconfig hp)).trans (hold.unknown hp h)
  · have hne : TeWorker.get_security_path_by_path path ≠ CONFIG_PATH := by
      rw [show path = Kernel.aName from hp]
      decide
    exact (hnames hne).trans (hold.siblings hp)
  · have hne : i ≠ sealedFile.kern.files.next :=
      Nat.ne_of_lt (sealedFile.kern.files.names_lt _ _ (hold.known h).2)
    rcases hold.content h with ⟨H, hH, hd⟩ | hplain
    · exact .inl ⟨H, hH, (hdata hne).trans hd⟩
    · exact .inr ⟨(hdata hne).trans hplain.data, hplain.nonempty, hplain.small, hplain.normal⟩
  · by_cases hp : path = CONFIG_PATH
    · have hC : some setting = some C := (if_pos hp).symm.trans hb
      refine ⟨sealedFile.kern.files.next, ?_, ?_, fun q hq => ?_, fun fd h hf => by cases hf⟩
      · rw [hp]
        exact sealedFile.kern.files.create_names_self CONFIG_PATH
      · rw [← Option.some.inj hC]
        exact FileStore.store_data_self ..
      · exact absurd (sealedFile.kern.files.names_lt _ _ (hold.known hq).2) (Nat.lt_irrefl _)
    · cases (if_neg hp).symm.trans hb

/-- The same user later on, when a property switches the domain on. -/
def switchedProcess : Process where
  props name := if name = "persist.encryption.enable" then ⟨text "5:1", by decide, by decide⟩
    else five
  getuid := 500007

theorem switchedProcess_served (cfg : List UInt8) : Served aPlatform cfg switchedProcess :=
  ⟨by decide, .inl (by decide)⟩

/-- A served process opens the file, and appends to its text when what it finds out may have
    changed. -/
theorem gated_append {p p' : Process} {m : Image} (hp : Served aPlatform setting p)
    (hp' : Served aPlatform setting p') (hm : Stands servedScope m textFile) : ∃ fd m',
    (gated_process aDevice aPlatform aLinkage).Trace m
      (((p, .openFile Kernel.aName { acc := .rdwr }), .result fd) ::
        (appended fd).map fun x => ((p', x.1), x.2)) m' ∧
    (plain.comap Prod.snd).Within
      (fun s q => Served aPlatform setting q.1 ∧ Granted servedScope s q.2) textFile
      (((p, .openFile Kernel.aName { acc := .rdwr }), .result fd) ::
        (appended fd).map fun x => ((p', x.1), x.2)) ∧
    (∃ s', Stands servedScope m' s' ∧ s'.bytes 1 = zeroed 20 ++ List.replicate 14 7 ∧
      s'.opened fd = some ⟨1, 34, .rdwr⟩ ∧ s'.names = textFile.names) := by
  have hq : Granted servedScope textFile (.openFile Kernel.aName { acc := .rdwr }) :=
    ⟨rfl, rfl, rfl, fun _ => rfl, fun h => by cases h⟩
  have href : Refines (gated_process aDevice aPlatform aLinkage) (plain.comap Prod.snd)
      (fun s q => Served aPlatform setting q.1 ∧ Granted servedScope s q.2) (Stands servedScope) :=
    gated_refines aLinkage_loads servedScope_configured
  obtain ⟨r, m₁, hstep⟩ := href.answers hm
    (q := (p, .openFile Kernel.aName { acc := .rdwr })) ⟨hp, hq⟩
  obtain ⟨s₁, hplain, hm₁⟩ := href.step hm ⟨hp, hq⟩ hstep
  have hname : textFile.names Kernel.aName = some 1 := rfl
  obtain ⟨fd, rfl, rfl⟩ := open_named hname hplain
  obtain ⟨s₂, hwalk, hbytes, hopened, hnames⟩ :=
    @appended_walk servedScope fd _ (textFile.hold_self fd ⟨1, 0, .rdwr⟩) rfl
  have hwalk' : (plain.comap Prod.snd).Walk
      (fun s q => Served aPlatform setting q.1 ∧ Granted servedScope s q.2)
      (textFile.hold fd ⟨1, 0, .rdwr⟩) ((appended fd).map fun x => ((p', x.1), x.2)) s₂ :=
    hwalk.tagged (g := fun q => (p', q)) (fun _ => rfl) fun h => ⟨hp', h⟩
  obtain ⟨m', htrace, hm'⟩ := href.follow hwalk' hm₁
  refine ⟨fd, m', .cons hstep htrace, ⟨⟨hp, hq⟩, fun t ht => ?_⟩,
    ⟨s₂, hm', hbytes, hopened, hnames⟩⟩
  obtain ⟨fd', heq, rfl⟩ := open_named hname ht
  obtain rfl : fd = fd' := Reply.result.inj heq
  exact hwalk'.within

/-- The file is opened when the configuration has switched the domain on, which loads the
    library; its text is appended to when a property has. -/
theorem gated_transparent_append : ∃ fd m s' r m',
    (gated_process aDevice aPlatform aLinkage).Trace startedImage
      (((servedProcess, .openFile Kernel.aName { acc := .rdwr }), .result fd) ::
        (appended fd).map fun x => ((switchedProcess, x.1), x.2)) m ∧
    plain.Trace textFile
      ((.openFile Kernel.aName { acc := .rdwr }, .result fd) :: appended fd) s' ∧
    Stands servedScope m s' ∧
    gated aDevice aPlatform aLinkage servedProcess (.stat Kernel.aName) m = .ok (r, m') := by
  obtain ⟨fd, m, htrace, hmay, -⟩ := gated_append servedProcess_served
    (switchedProcess_served setting) startedImage_stands
  obtain ⟨s', hrun, hm, hnext⟩ := gated_transparent aLinkage_loads servedScope_configured
    startedImage_stands htrace hmay
  obtain ⟨r, m', hstat⟩ := hnext servedProcess (.stat Kernel.aName) servedProcess_served rfl
  refine ⟨fd, m, s', r, m', htrace, ?_, hm, hstat⟩
  rw [List.map_cons, List.map_map, List.map_id''] at hrun
  · exact hrun
  · intro x
    rfl

end TeGate
