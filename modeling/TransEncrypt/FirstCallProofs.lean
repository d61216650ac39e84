import TransEncrypt.GateProofs

/-! # The first call of a process whose descriptor 0 is free

    The head of a hook opens the configuration and takes descriptor 0 for a failure.  In a
    process whose descriptor 0 is free the switch in the configuration is therefore not seen,
    the call goes through to the stored file, and descriptor 0 stays open on the
    configuration.  The next call finds 0 in use.

    * `number_no_switch`: what is left in the buffer is the number of the domain, and a number
      is no switch;
    * `first_call_unseen`: the first call is lost, and every later one is transparent. -/

namespace TeFirstCall

open Posix Overlay TeHeader Hoare TeProgram CString Numeral TeTrim TeDomain TeSecurity TeOpen
open TeSession TeTransparent TeGate Plain Refinement

/-! ## A number is no switch -/

/-- The first token of a string that does not start with a delimiter starts with its first
    character. -/
theorem tokens_head {delim s : List UInt8} {c : UInt8} (hc : c ∉ delim) :
    ∃ t rest, tokens delim (c :: s) = (c :: t) :: rest := by
  let t := s.takeWhile (· ∉ delim)
  have htoken : ∀ x ∈ c :: t, x ∉ delim := by
    intro x hx
    rcases List.mem_cons.mp hx with rfl | hx
    · exact hc
    · simpa using List.mem_takeWhile_imp hx
  have hsplit : c :: s = c :: t ++ s.dropWhile (· ∉ delim) := by
    rw [List.cons_append, List.takeWhile_append_dropWhile]
  cases hrest : s.dropWhile (· ∉ delim) with
  | nil =>
      rw [hrest, List.append_nil] at hsplit
      rw [hsplit]
      exact ⟨t, [], tokens_last (List.cons_ne_nil _ _) htoken⟩
  | cons d r =>
      have hd : d ∈ delim := by
        have hne : s.dropWhile (· ∉ delim) ≠ [] := by
          rw [hrest]
          exact List.cons_ne_nil _ _
        have hhead := List.head_dropWhile_not _ hne
        simp only [hrest, List.head_cons] at hhead
        simpa using hhead
      rw [hrest] at hsplit
      rw [hsplit]
      exact ⟨t, _, tokens_append (List.cons_ne_nil _ _) htoken hd⟩

/-- A string that `atoi` takes for a number other than 0 starts, behind white space, with a
    sign or a digit. -/
theorem atoi_head {long : Nat} {s : List UInt8} (h : atoi long s ≠ 0) :
    ∃ c t, s.dropWhile isspace = c :: t ∧ (c = 0x2d ∨ c = 0x2b ∨ isdigit c = true) := by
  rw [atoi, scanInt] at h
  cases hs : s.dropWhile isspace with
  | nil =>
      rw [hs] at h
      exact absurd rfl h
  | cons c t =>
      refine ⟨c, t, rfl, ?_⟩
      by_contra hno
      obtain ⟨h1, h2, h3⟩ : c ≠ 0x2d ∧ c ≠ 0x2b ∧ isdigit c = false := by simpa using hno
      rw [hs, sign, if_neg h1, if_neg h2] at h
      dsimp only at h
      rw [List.takeWhile_cons_of_neg (by simp [h3])] at h
      exact h rfl

theorem keep_dropWhile (s : List UInt8) : keep (s.dropWhile isspace) = keep s := by
  induction s with
  | nil => rfl
  | cons c s ih =>
      by_cases hc : isspace c = true
      · rw [List.dropWhile_cons_of_pos hc, ih, keep, keep, List.filter_cons_of_neg (by simp [hc])]
      · rw [List.dropWhile_cons_of_neg hc]

/-- **A number is no switch**: it parses, and asks for nothing. -/
theorem number_no_switch {long : Nat} {s : List UInt8} (h : atoi long s ≠ 0) :
    Parses s ∧ configured long s = 0 := by
  obtain ⟨c, t, hs, hc⟩ := atoi_head h
  have hkind : isspace c = false ∧ c ∉ text ":" ∧ c ≠ 0x65 := by
    rcases hc with rfl | rfl | hc
    · decide
    · decide
    · refine ⟨digit_not_space hc, ?_, ?_⟩
      · intro hmem
        rw [show c = 0x3a from List.mem_singleton.mp hmem] at hc
        cases hc
      · rintro rfl
        cases hc
  have hkeep : keep s = c :: keep t := by
    rw [← keep_dropWhile, hs, keep, List.filter_cons_of_pos (by simp [hkind.1]), keep]
  obtain ⟨first, rest, hwords⟩ : ∃ u rest, words s = (c :: u) :: rest := by
    rw [words, hkeep]
    exact tokens_head hkind.2.1
  have hbegin : ¬ text "encrypt" <+: c :: first := by
    intro hpre
    have hhead : text "encrypt" = 0x65 :: text "ncrypt" := by decide
    rw [hhead] at hpre
    exact hkind.2.2 (List.cons_prefix_cons.mp hpre).1.symm
  exact ⟨.inr ⟨_, rest, hwords, fun hb => absurd hb hbegin⟩, configured_other hwords hbegin⟩

/-! ## The configuration that is not read -/

/-- What a free descriptor 0 leads to: the files are the same, and 0 is in use. -/
structure Taken (k k' : Kernel) : Prop where
  files : k'.files = k.files
  host : k'.host = k.host
  zero : k'.InUse 0

section Unread

variable {long : Nat} {props : Properties} {w : World} {i : Nat}

/-- Descriptor 0 is taken for a failure. -/
theorem fetch_zero (hc : w.kern.host.Calm) (hlow : w.kern.host.LowestFree)
    (h0 : ¬ w.kern.InUse 0) {path : Path} (hname : w.kern.files.names path = some i) (n : Nat) :
    (w.kern.fetch path n).1 = [] ∧ Taken w.kern (w.kern.fetch path n).2 := by
  have hfd : w.kern.freeFd w.kern.answer.hint = 0 := by
    rw [Kernel.answer, hlow]
    exact w.kern.freeFd_zero h0
  have hneg : ¬ w.kern.freeFd w.kern.answer.hint > 0 := by
    rw [hfd]
    decide
  let k₁ := ((w.kern.tock 1).install w.kern.answer.hint i { acc := .rdonly }
    (w.kern.files.names_lt _ _ hname)).2
  have hfetch : w.kern.fetch path n = ([], k₁) := by
    rw [Kernel.fetch, Kernel.sysOpen_calm hc hname rfl rfl]
    exact if_neg hneg
  have hfind : k₁.find (w.kern.freeFd w.kern.answer.hint) = some w.kern.nextDesc :=
    Kernel.install_find_self
  rw [hfd] at hfind
  rw [hfetch]
  exact ⟨rfl, rfl, rfl, k₁.find_inUse hfind⟩

/-- **The switch is not seen.** -/
theorem get_domain_state_unread (hc : w.kern.host.Calm) (hlow : w.kern.host.LowestFree)
    (h0 : ¬ w.kern.InUse 0) (hname : w.kern.files.names CONFIG_PATH = some i)
    (hdomain : get_process_domain long props ≠ 0)
    (hown : get_personal_state props (get_process_domain long props) = 0)
    (hset : (props "persist.mdm.domain_id").bytes ≠ [])
    (hnumber : atoi long (props "persist.mdm.domain_id").bytes = get_process_domain long props) :
    ∃ k, get_domain_state long props w = .ok (0, { w with kern := k }) ∧ Taken w.kern k := by
  obtain ⟨hgot, htaken⟩ := fetch_zero hc hlow h0 hname PROP_VALUE_MAX
  let property := (props "persist.mdm.domain_id").bytes
  have hload : loaded property [] = property := by
    rw [loaded, List.length_nil, List.drop_zero, List.nil_append]
    exact cstr_of_not_mem (props "persist.mdm.domain_id").noNul
  obtain ⟨hparses, hconf⟩ := number_no_switch (hnumber.symm ▸ hdomain : atoi long property ≠ 0)
  obtain ⟨hnul, hstr⟩ := @loaded_eq property [] (props "persist.mdm.domain_id").short (by decide)
  rw [hload] at hstr
  refine ⟨_, ?_, htaken⟩
  rw [get_domain_state_eq rfl hdomain, if_neg (not_not.mpr hown),
    get_security_state_run hset hnumber (Kernel.answer_denies hc) hname, hgot]
  exact (config_state_ok hnul _ _).mpr ⟨hstr.symm ▸ hparses, by rw [hstr, hconf], rfl⟩

end Unread

/-! ## The first call -/

/-- A trusted process whose domain has no switch of its own, but one in the configuration. -/
structure ByConfiguration (pf : Platform) (p : Process) : Prop where
  trusted : is_trust_process pf p ≠ 0
  own : get_personal_state p.props (get_process_domain pf.long p.props) = 0
  set : (p.props "persist.mdm.domain_id").bytes ≠ []
  number : atoi pf.long (p.props "persist.mdm.domain_id").bytes =
    get_process_domain pf.long p.props

/-- A process that has opened nothing, with descriptor 0 free, on the files of `s`. -/
structure Unheard {dev : Device} (S : Scope dev) (m : Image) (s : PlainSystem) : Prop where
  calm : m.world.kern.host.Calm
  lowest : m.world.kern.host.LowestFree
  free : ¬ m.world.kern.InUse 0
  table : m.world.file_info_list = []
  files : Mirrors S m.world.kern.files s
  nothing : ∀ fd, s.opened fd = none

/-- What such a process may do first: ask for a size, or open a file without creating it. -/
def Early {dev : Device} (S : Scope dev) (s : PlainSystem) : Call → Prop
  | .stat path => S.In path
  | .openFile path flags => S.In path ∧ flags.trunc = false ∧
      (s.names path ≠ none → (flags.creat && flags.excl) = false) ∧
      (s.names path = none → flags.creat = false)
  | _ => False

/-- The conditions that a hook finds when the switch is not seen. -/
def switchedOff : Env := ⟨true, true, false⟩

section FirstCall

variable {dev : Device} {S : Scope dev} {pf : Platform} {lib : Linkage} {p : Process}
  {cfg : List UInt8} {m : Image} {s : PlainSystem}

theorem conditions_unread (hlib : Loads lib) (hcfg : Configured S cfg)
    (hp : ByConfiguration pf p) (hm : Unheard S m s) (q : Call) :
    ∃ r k, conditions pf lib p (lib.linked q) m = .ok (switchedOff,
        { linker_running_state := r, world := { m.world with kern := k } }) ∧
      r ≠ 0 ∧ Taken m.world.kern k := by
  obtain ⟨r, hr, hrun⟩ := update_runs hlib fun _ => hm.table
  obtain ⟨i, hname, -, -⟩ := hm.files.beside hcfg.beside
  obtain ⟨k, hstate, htaken⟩ := get_domain_state_unread hm.calm hm.lowest hm.free hname
    (domain_ne_zero hp.trusted) hp.own hp.set hp.number
  have hloaded : ¬ (r = 0 ∨ lib.linked q = false) := by
    rintro (hzero | hunlinked)
    · exact hr hzero
    · cases (hlib.linked q).symm.trans hunlinked
  refine ⟨r, k, ?_, hr, htaken⟩
  rw [conditions, bind_ok hrun, if_neg hloaded, if_neg hp.trusted,
    bind_ok (inWorld_ok (m := { m with linker_running_state := r }) hstate)]
  rfl

/-- The process stands for the files afterwards, as long as these and the table are the same. -/
theorem stands_after (hm : Unheard S m s) {r : Int} (hr : r ≠ 0) {w : World}
    (hfiles : w.kern.files = m.world.kern.files) (hhost : w.kern.host = m.world.kern.host)
    (hzero : w.kern.InUse 0) (htable : w.file_info_list = []) :
    Stands S { linker_running_state := r, world := w } s := by
  refine ⟨shadows_start ?_ hzero htable ?_ hm.nothing, fun hz => absurd hz hr⟩
  · rw [hhost]
    exact hm.calm
  · rw [hfiles]
    exact hm.files

/-- The call that goes through: it is answered from the stored files, and leaves no entry. -/
theorem early_passes (hm : Unheard S m s) {k : Kernel} (hk : Taken m.world.kern k) {q : Call}
    (hq : Early S s q) :
    ∃ r w, run dev switchedOff q { m.world with kern := k } = .ok (r, w) ∧
      w.kern.files = m.world.kern.files ∧ w.kern.host = m.world.kern.host ∧ w.kern.InUse 0 ∧
      w.file_info_list = [] ∧ ∀ path, q = .stat path →
        r = .state ((m.world.kern.files.content path).map fun b => ⟨true, b.length⟩) := by
  have hc : k.host.Calm := by
    rw [hk.host]
    exact hm.calm
  cases q with
  | stat path =>
      have hstat : linker_stat path { m.world with kern := k } =
          .ok ((k.files.content path).map fun b => ⟨true, b.length⟩,
            { m.world with kern := k.tock 1 }) :=
        linker_stat_ok (Kernel.sysStat_calm hc path)
      refine ⟨_, _, bind_ok hstat, hk.files, hk.host, hk.zero, hm.table, ?_⟩
      rintro _ ⟨⟩
      rw [hk.files]
  | openFile path flags =>
      obtain ⟨hpath, ht, hx, hcr⟩ := hq
      have hother : ∀ path', Call.openFile path flags = .stat path' → ∀ {r : Reply},
          r = .state ((m.world.kern.files.content path').map fun b => ⟨true, b.length⟩) := by
        rintro _ ⟨⟩
      cases hname : s.names path with
      | none =>
          have hnone : k.files.names path = none := by
            rw [hk.files]
            exact hm.files.unknown hpath hname
          have hopen : linker_open path flags { m.world with kern := k } =
              .ok (-1, { m.world with kern := k.tock 1 }) :=
            linker_open_ok (Kernel.sysOpen_absent hc hnone (hcr hname))
          exact ⟨_, _, bind_ok hopen, hk.files, hk.host, hk.zero, hm.table,
            fun path' heq => hother path' heq⟩
      | some i =>
          have hname' : k.files.names path = some i := by
            rw [hk.files]
            exact (hm.files.known hname).2
          have hx := hx (by rw [hname]; exact Option.some_ne_none i)
          obtain ⟨fd, k', hopen, ho, -⟩ := linker_open_calm
            (w := { m.world with kern := k }) hc hname' hx
          exact ⟨_, _, bind_ok hopen, (ho.files.same hname' ht).trans hk.files,
            ho.gained.host.trans hk.host, ho.gained.kept.inUse hk.zero, hm.table,
            fun path' heq => hother path' heq⟩
  | read fd n => exact hq.elim
  | write fd b => exact hq.elim
  | lseek fd o whence => exact hq.elim
  | fstat fd => exact hq.elim
  | close fd => exact hq.elim

/-- **The first call is lost.**  A trusted process with descriptor 0 free, whose domain is
    switched on in the configuration: its first call goes through to the stored file, so a
    size is that of the stored form and an opened descriptor has no entry; the files are as
    they were.  From then on, as long as it is served, the process is transparent. -/
theorem first_call_unseen (hlib : Loads lib) (hcfg : Configured S cfg)
    (hp : ByConfiguration pf p) (hm : Unheard S m s) {q : Call} (hq : Early S s q) {r : Reply}
    {m' : Image} {l : List ((Process × Call) × Reply)}
    (hrun : (gated_process dev pf lib).Trace m (((p, q), r) :: l) m')
    (hmay : (plain.comap Prod.snd).Within
      (fun s q => Served pf cfg q.1 ∧ Granted S s q.2) s l) :
    ∃ m₁ s', gated dev pf lib p q m = .ok (r, m₁) ∧ m₁.world.kern.files = m.world.kern.files ∧
      m₁.world.file_info_list = [] ∧
      (∀ path i, q = .stat path → s.names path = some i →
        Sealed dev m.world.kern.files i (s.bytes i) →
        r = .state (some ⟨true, FILE_HEADER_POLL_SIZE + (s.bytes i).length⟩)) ∧
      plain.Trace s (l.map fun x => (x.1.2, x.2)) s' ∧ Stands S m' s' := by
  cases hrun with
  | cons hstep hrest =>
      have hcall : gated dev pf lib p q m = .ok (r, _) := hstep
      obtain ⟨st, k, hcond, hst, hk⟩ := conditions_unread hlib hcfg hp hm q
      obtain ⟨r', w, hpass, hfiles, hhost, hzero, htable, hsize⟩ := early_passes hm hk hq
      have hgated : gated dev pf lib p q m =
          .ok (r', { linker_running_state := st, world := w }) := by
        rw [gated, bind_ok hcond]
        exact inWorld_ok (m := ⟨st, { m.world with kern := k }⟩) hpass
      obtain ⟨rfl, rfl⟩ := Prod.mk.inj (Except.ok.inj (hgated.symm.trans hcall))
      obtain ⟨s', htrace, hm', -⟩ := gated_transparent hlib hcfg
        (stands_after hm hst hfiles hhost hzero htable) hrest hmay
      refine ⟨_, s', hcall, hfiles, htable, ?_, htrace, hm'⟩
      rintro path i rfl hname ⟨H, hH, hdata⟩
      rw [hsize path rfl, FileStore.content_of_names _ (hm.files.known hname).2, hdata,
        Option.map_some, List.length_append, hH.length, stored_length, Nat.cast_add]

end FirstCall

/-! ## A small process -/

/-- The process of `startedImage` without descriptor 0. -/
def closedImage : Image :=
  { startedImage with
    world := { startedImage.world with kern := startedImage.world.kern.dropFd 0 } }

theorem closedImage_unheard : Unheard servedScope closedImage textFile where
  calm := startedImage_stands.shadows.calm
  lowest _ := rfl
  free h := (Kernel.dropFd_inUse _ |>.mp h).2 rfl
  table := rfl
  files := startedImage_stands.shadows.files
  nothing _ := rfl

theorem servedProcess_byConfiguration : ByConfiguration aPlatform servedProcess :=
  ⟨by decide, by decide, by decide, by decide⟩

/-- The size of the text is 4116 at first; then the file is opened, and its 20 bytes are
    appended to and read. -/
theorem first_call_unseen_stat : ∃ m₁ fd m' s',
    gated aDevice aPlatform aLinkage servedProcess (.stat Kernel.aName) closedImage =
      .ok (.state (some ⟨true, 4116⟩), m₁) ∧
    (gated_process aDevice aPlatform aLinkage).Trace m₁
      (((servedProcess, .openFile Kernel.aName { acc := .rdwr }), .result fd) ::
        (appended fd).map fun x => ((servedProcess, x.1), x.2)) m' ∧
    Stands servedScope m' s' := by
  have hm := closedImage_unheard
  have hin : servedScope.In Kernel.aName := rfl
  obtain ⟨st, k, hcond, hst, hk⟩ := conditions_unread aLinkage_loads servedScope_configured
    servedProcess_byConfiguration hm (.stat Kernel.aName)
  obtain ⟨r, w, hpass, hfiles, hhost, hzero, htable, -⟩ := @early_passes aDevice servedScope
    closedImage textFile hm k hk (.stat Kernel.aName) hin
  let m₁ : Image := { linker_running_state := st, world := w }
  have hfirst : gated aDevice aPlatform aLinkage servedProcess (.stat Kernel.aName) closedImage =
      .ok (r, m₁) := by
    rw [gated, bind_ok hcond]
    exact inWorld_ok (m := ⟨st, { closedImage.world with kern := k }⟩) hpass
  obtain ⟨fd, m', hrest, hmay, -⟩ := gated_append servedProcess_served servedProcess_served
    (stands_after hm hst hfiles hhost hzero htable)
  obtain ⟨m₂, s', hcall, -, -, hsize, -, hm'⟩ := first_call_unseen aLinkage_loads
    servedScope_configured servedProcess_byConfiguration hm (q := .stat Kernel.aName) hin
    (.cons hfirst hrest) hmay
  have hsealed : Sealed aDevice closedImage.world.kern.files 1 (textFile.bytes 1) :=
    ⟨newHeader none, newHeader_rightsHeader aDevice, rfl⟩
  have hr : r = .state (some ⟨true, 4116⟩) := hsize Kernel.aName 1 rfl rfl hsealed
  rw [hr] at hfirst
  exact ⟨m₁, fd, m', s', hfirst, hrest, hm'⟩

end TeFirstCall
