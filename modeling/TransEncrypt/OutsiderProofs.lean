import TransEncrypt.GateProofs

/-! # A process that is not trusted — what it sees of the files

    For a process that is not trusted the hooks are the real calls.  It works with the files
    as they are stored, so of an encrypted file it sees the header, the complete blocks in
    cipher text, and the last incomplete one as it is.

    * `Bare`: a process and the plain system of the stored bytes;
    * `raw_obeys`: an ordinary real call is that of a plain file system;
    * `outsider_sees_stored`: after a run of granted calls of a process that is served, every
      run of ordinary calls of one that is not trusted is a run on the stored forms of what the
      first one has written. -/

namespace TeOutsider

open Posix Overlay TeHeader Hoare TeProgram TeSeek TeOpen TeAcquire TeSession TeTransparent
open TeGate Plain Refinement

/-- The descriptor `fd` is the handle `h`, on the description `id`. -/
structure Opens (k : Kernel) (fd : Int) (h : Handle) (id : Nat) : Prop where
  positive : 0 < fd
  find : k.find fd = some id
  desc : ∃ flags : Flags, flags.acc = h.acc ∧ flags.append = false ∧
    k.desc id = { inode := h.inode, pos := h.pos, flags := flags }

/-- The kernel `k` and the plain system `s` of the bytes it stores. -/
structure Bare (k : Kernel) (s : PlainSystem) : Prop where
  calm : k.host.Calm
  input : k.InUse 0
  names : s.names = k.files.names
  bytes : s.bytes = k.files.data
  held : ∀ {fd h}, s.opened fd = some h → ∃ id, Opens k fd h id
  apart : ∀ {fd fd' h h' id}, s.opened fd = some h → s.opened fd' = some h' →
    k.find fd = some id → k.find fd' = some id → fd = fd'

namespace Opens

variable {k k' : Kernel} {fd : Int} {h : Handle} {id : Nat} (ho : Opens k fd h id)
include ho

theorem inode : (k.desc id).inode = h.inode := by
  obtain ⟨flags, -, -, hdesc⟩ := ho.desc
  rw [hdesc]

theorem regular : (k.desc id).regular = true := by
  obtain ⟨flags, -, -, hdesc⟩ := ho.desc
  rw [hdesc]

theorem pos : (k.desc id).pos = h.pos := by
  obtain ⟨flags, -, -, hdesc⟩ := ho.desc
  rw [hdesc]

theorem acc : (k.desc id).flags.acc = h.acc := by
  obtain ⟨flags, hacc, -, hdesc⟩ := ho.desc
  rw [hdesc]
  exact hacc

/-- A write goes to the cursor. -/
theorem target (n : Nat) : k.target (k.desc id) n = n := by
  obtain ⟨flags, -, happ, hdesc⟩ := ho.desc
  rw [Kernel.target, hdesc]
  exact if_neg (by rw [happ]; decide)

/-- A kernel in which the descriptor and its description are the same. -/
theorem same (hf : k'.find fd = k.find fd) (hd : k'.desc id = k.desc id) : Opens k' fd h id :=
  ⟨ho.positive, hf.trans ho.find, by rw [hd]; exact ho.desc⟩

end Opens

namespace Bare

variable {k : Kernel} {s : PlainSystem} (hb : Bare k s)
include hb

/-- Other files and names under the same descriptors. -/
theorem recast {k' : Kernel} {s' : PlainSystem} (hhost : k'.host = k.host) (hfds : k'.fds = k.fds)
    (hdesc : k'.desc = k.desc) (hopened : s'.opened = s.opened)
    (hnames : s'.names = k'.files.names) (hbytes : s'.bytes = k'.files.data) : Bare k' s' where
  calm := by
    rw [hhost]
    exact hb.calm
  input := by
    rw [Kernel.InUse, hfds]
    exact hb.input
  names := hnames
  bytes := hbytes
  held := by
    intro fd h hf
    rw [hopened] at hf
    obtain ⟨id, ho⟩ := hb.held hf
    exact ⟨id, ho.same (by rw [Kernel.find, hfds, ← Kernel.find]) (by rw [hdesc])⟩
  apart := by
    intro fd fd' h h' id hf hf' hid hid'
    rw [hopened] at hf hf'
    rw [Kernel.find, hfds] at hid hid'
    exact hb.apart hf hf' hid hid'

/-- A call that only takes time. -/
theorem tock (n : Nat) : Bare (k.tock n) s := hb.recast rfl rfl rfl rfl hb.names hb.bytes

/-- One file gets another content. -/
theorem stored (i : Nat) (bs : List UInt8) : Bare (k.setData i bs) (s.store i bs) := by
  refine hb.recast rfl rfl rfl rfl hb.names ?_
  show Function.update s.bytes i bs = Function.update k.files.data i bs
  rw [hb.bytes]

/-- A new name, for a new and empty file. -/
theorem created (path : Path) :
    Bare (k.setFiles (k.files.create path) (Nat.le_succ _)) (s.create path k.files.next) := by
  refine hb.recast rfl rfl rfl rfl ?_ ?_
  · show Function.update s.names path _ = Function.update k.files.names path _
    rw [hb.names]
  · show Function.update s.bytes _ [] = Function.update k.files.data _ []
    rw [hb.bytes]

/-- One cursor is moved. -/
theorem moved {fd : Int} {h : Handle} {id : Nat} (hf : s.opened fd = some h)
    (ho : Opens k fd h id) (p : Nat) : Bare (k.setPos id p) (s.hold fd { h with pos := p }) where
  calm := hb.calm
  input := hb.input
  names := hb.names
  bytes := hb.bytes
  held := by
    intro fd' h' hf'
    rcases s.hold_cases hf' with ⟨rfl, rfl⟩ | ⟨hne, hf'⟩
    · obtain ⟨flags, hacc, happ, hdesc⟩ := ho.desc
      refine ⟨id, ho.positive, ho.find, flags, hacc, happ, ?_⟩
      rw [Kernel.setPos_desc_self, hdesc]
    · obtain ⟨id', ho'⟩ := hb.held hf'
      have hid : id' ≠ id := fun heq => hne (hb.apart hf' hf ho'.find (heq ▸ ho.find))
      exact ⟨id', ho'.same rfl (Kernel.setPos_desc_ne _ hid p)⟩
  apart := by
    have hopen : ∀ {fd' h'}, (s.hold fd { h with pos := p }).opened fd' = some h' →
        ∃ h'', s.opened fd' = some h'' := by
      intro fd' h' hf'
      rcases s.hold_cases hf' with ⟨rfl, -⟩ | ⟨-, hf'⟩
      · exact ⟨h, hf⟩
      · exact ⟨h', hf'⟩
    intro fd₁ fd₂ h₁ h₂ id' hf₁ hf₂ hid₁ hid₂
    obtain ⟨h₁', hf₁⟩ := hopen hf₁
    obtain ⟨h₂', hf₂⟩ := hopen hf₂
    exact hb.apart hf₁ hf₂ hid₁ hid₂

/-- The next inode is not in use. -/
theorem unused : s.Unused k.files.next := by
  refine ⟨fun path hname => ?_, fun fd h hf heq => ?_⟩
  · rw [hb.names] at hname
    exact absurd (k.files.names_lt _ _ hname) (Nat.lt_irrefl _)
  · obtain ⟨id, ho⟩ := hb.held hf
    have hlt := k.desc_lt id (k.find_lt ho.find)
    rw [ho.inode, heq] at hlt
    exact absurd hlt (Nat.lt_irrefl _)

/-- A descriptor that is free is none of the handles. -/
theorem fresh {fd : Int} (hfree : ¬ k.InUse fd) : s.opened fd = none := by
  cases hf : s.opened fd with
  | none => rfl
  | some h =>
      obtain ⟨id, ho⟩ := hb.held hf
      exact absurd (k.find_inUse ho.find) hfree

/-- A new descriptor on an inode. -/
theorem installed {i : Nat} {flags : Flags} (happ : flags.append = false)
    (hi : i < k.files.next) (hint : Nat) :
    Bare (k.install hint i flags hi).2 (s.hold (k.freeFd hint) ⟨i, 0, flags.acc⟩) := by
  let k' := (k.install hint i flags hi).2
  have hfind : k'.find (k.freeFd hint) = some k.nextDesc := Kernel.install_find_self
  have hold : ∀ {fd' h'}, s.opened fd' = some h' →
      ∃ id', id' < k.nextDesc ∧ k.find fd' = some id' ∧ k'.find fd' = some id' ∧
        Opens k' fd' h' id' := by
    intro fd' h' hf'
    obtain ⟨id', ho'⟩ := hb.held hf'
    have hlt := k.find_lt ho'.find
    have hkept := @Kernel.install_find_some k hint i flags hi fd' id' ho'.find
    exact ⟨id', hlt, ho'.find, hkept,
      ho'.same (hkept.trans ho'.find.symm) (Kernel.install_desc_lt hlt)⟩
  refine ⟨hb.calm, ?_, hb.names, hb.bytes, fun {fd' h'} hf' => ?_, ?_⟩
  · exact List.mem_cons_of_mem _ hb.input
  · rcases s.hold_cases hf' with ⟨rfl, rfl⟩ | ⟨-, hf'⟩
    · exact ⟨_, k.freeFd_pos hb.input hint, hfind, flags, rfl, happ, Kernel.install_desc_self⟩
    · obtain ⟨id', -, -, -, ho'⟩ := hold hf'
      exact ⟨id', ho'⟩
  · intro fd₁ fd₂ h₁ h₂ id' hf₁ hf₂ hid₁ hid₂
    rcases s.hold_cases hf₁ with ⟨rfl, -⟩ | ⟨-, hf₁⟩
    · rcases s.hold_cases hf₂ with ⟨rfl, -⟩ | ⟨-, hf₂⟩
      · rfl
      · obtain ⟨id₂, hlt, -, hf, -⟩ := hold hf₂
        have := Option.some.inj (hid₁.symm.trans hfind)
        have := Option.some.inj (hid₂.symm.trans hf)
        omega
    · obtain ⟨id₁, hlt, hf, hf', -⟩ := hold hf₁
      have h1 := Option.some.inj (hid₁.symm.trans hf')
      rcases s.hold_cases hf₂ with ⟨rfl, -⟩ | ⟨-, hf₂⟩
      · have := Option.some.inj (hid₂.symm.trans hfind)
        omega
      · obtain ⟨id₂, -, hg, hg', -⟩ := hold hf₂
        have h2 := Option.some.inj (hid₂.symm.trans hg')
        exact hb.apart hf₁ hf₂ (h1 ▸ hf) (h2 ▸ hg)

/-- A descriptor that goes. -/
theorem released {fd : Int} (hpos : 0 < fd) : Bare (k.dropFd fd) (s.release fd) where
  calm := hb.calm
  input := Kernel.dropFd_inUse _ |>.mpr ⟨hb.input, by omega⟩
  names := hb.names
  bytes := hb.bytes
  held := by
    intro fd' h' hf'
    obtain ⟨hne, hf'⟩ := s.release_cases hf'
    obtain ⟨id', ho'⟩ := hb.held hf'
    exact ⟨id', ho'.same (Kernel.dropFd_find_ne _ hne) rfl⟩
  apart := by
    intro fd₁ fd₂ h₁ h₂ id' hf₁ hf₂ hid₁ hid₂
    obtain ⟨hne₁, hf₁⟩ := s.release_cases hf₁
    obtain ⟨hne₂, hf₂⟩ := s.release_cases hf₂
    exact hb.apart hf₁ hf₂ ((Kernel.dropFd_find_ne _ hne₁).symm.trans hid₁)
      ((Kernel.dropFd_find_ne _ hne₂).symm.trans hid₂)

end Bare

/-! ## The real calls -/

/-- The real call behind a hook. -/
def raw : Call → Sys Reply
  | .openFile path flags => do
      let fd ← linker_open path flags
      pure (.result fd)
  | .read fd count => do
      let r ← linker_read fd count
      pure (.data r.1 r.2)
  | .write fd buf => do
      let r ← linker_write fd buf
      pure (.result r)
  | .lseek fd offset whence => do
      let r ← linker_lseek fd offset whence
      pure (.result r)
  | .stat path => do
      let st ← linker_stat path
      pure (.state st)
  | .fstat fd => do
      let st ← linker_fstat fd
      pure (.state st)
  | .close fd => do
      let r ← linker_close fd
      pure (.result r)

/-- A process that is not trusted passes through. -/
theorem run_untrusted (dev : Device) (q : Call) : run dev ⟨true, false, false⟩ q = raw q := by
  cases q with
  | openFile path flags => rfl
  | read fd n => rfl
  | write fd b => rfl
  | lseek fd o whence => rfl
  | stat path => rfl
  | fstat fd => rfl
  | close fd => rfl

/-- The calls that a plain file system is asked for: none truncates or appends, descriptors are
    used for what they were opened for, and a seek goes to a place that exists. -/
def Ordinary (s : PlainSystem) : Call → Prop
  | .openFile path flags => flags.trunc = false ∧ flags.append = false ∧
      (s.names path ≠ none → (flags.creat && flags.excl) = false)
  | .read fd _ => ∃ h, s.opened fd = some h ∧ h.acc.readable = true
  | .write fd _ => ∃ h, s.opened fd = some h ∧ h.acc.writable = true
  | .lseek fd offset whence => ∃ h, s.opened fd = some h ∧ 0 ≤ target (s.file h) offset whence
  | .stat _ => True
  | .fstat fd => ∃ h, s.opened fd = some h
  | .close fd => ∃ h, s.opened fd = some h

section Raw

variable {w : World} {s : PlainSystem} (hb : Bare w.kern s)

/-- The call is answered as the plain system may answer it, and the table is left alone. -/
def Obeys (w : World) (s : PlainSystem) (q : Call) : Prop :=
  ∃ r k s', raw q w = .ok (r, { w with kern := k }) ∧ s.Step q r s' ∧ Bare k s'

include hb

theorem obeys_open {path : Path} {flags : Flags} (hq : Ordinary s (.openFile path flags)) :
    Obeys w s (.openFile path flags) := by
  obtain ⟨ht, happ, hx⟩ := hq
  have hfree := hb.fresh (w.kern.freeFd_not_inUse w.kern.answer.hint)
  have hpos := w.kern.freeFd_pos hb.input w.kern.answer.hint
  cases hname : s.names path with
  | some i =>
      have hname' : w.kern.files.names path = some i := by
        rw [← hb.names]
        exact hname
      have hopen := Kernel.sysOpen_calm hb.calm hname' (hx (by rw [hname]; simp)) ht
      exact ⟨_, _, _, bind_ok (linker_open_ok hopen), .opened hname hpos hfree,
        (hb.tock 1).installed happ _ _⟩
  | none =>
      have hnone : w.kern.files.names path = none := by
        rw [← hb.names]
        exact hname
      by_cases hcr : flags.creat = true
      · have hopen := Kernel.sysOpen_creat hb.calm hnone hcr
        exact ⟨_, _, _, bind_ok (linker_open_ok hopen),
          .created hname hcr hb.unused hpos hfree,
          ((hb.tock 1).created path).installed happ _ _⟩
      · have hcr : flags.creat = false := by simpa using hcr
        have hopen := Kernel.sysOpen_absent hb.calm hnone hcr
        exact ⟨_, _, _, bind_ok (linker_open_ok hopen), .absent hname hcr, hb.tock 1⟩

theorem obeys_read {fd : Int} {n : Nat} (hq : Ordinary s (.read fd n)) :
    Obeys w s (.read fd n) := by
  obtain ⟨h, hf, hacc⟩ := hq
  obtain ⟨id, ho⟩ := hb.held hf
  have hread := Kernel.sysRead_calm hb.calm ho.find ho.regular (by rw [ho.acc]; exact hacc) n
  rw [ho.inode, ho.pos, ← hb.bytes] at hread
  exact ⟨_, _, _, bind_ok (linker_read_ok hread), .read n hf,
    (hb.tock 1).moved hf (ho.same rfl rfl) _⟩

theorem obeys_write {fd : Int} {b : List UInt8} (hq : Ordinary s (.write fd b)) :
    Obeys w s (.write fd b) := by
  obtain ⟨h, hf, hacc⟩ := hq
  obtain ⟨id, ho⟩ := hb.held hf
  have hwritable : (w.kern.desc id).flags.acc.writable = true := by
    rw [ho.acc]
    exact hacc
  by_cases hnil : b = []
  · subst hnil
    have hwrite := Kernel.sysWrite_nil hb.calm ho.find
    rw [if_pos hwritable] at hwrite
    refine ⟨_, _, _, bind_ok (linker_write_ok hwrite), .write [] hf, ?_⟩
    rw [s.write_nil hf]
    exact hb.tock 1
  · have hwrite := Kernel.sysWrite_calm hb.calm ho.find ho.regular hwritable hnil
    rw [ho.target, ho.inode, ho.pos, ← hb.bytes] at hwrite
    exact ⟨_, _, _, bind_ok (linker_write_ok hwrite), .write b hf,
      ((hb.tock 1).stored h.inode _).moved hf (ho.same rfl rfl) _⟩

theorem obeys_lseek {fd : Int} {o : Int} {whence : Whence}
    (hq : Ordinary s (.lseek fd o whence)) : Obeys w s (.lseek fd o whence) := by
  obtain ⟨h, hf, ht⟩ := hq
  obtain ⟨id, ho⟩ := hb.held hf
  have htarget : w.kern.seekBase (w.kern.desc id) whence + o = target (s.file h) o whence := by
    cases whence with
    | set => exact Int.zero_add o
    | cur =>
        show ((w.kern.desc id).pos : Int) + o = (h.pos : Int) + o
        rw [ho.pos]
    | fin =>
        show ((w.kern.files.data (w.kern.desc id).inode).length : Int) + o =
          ((s.bytes h.inode).length : Int) + o
        rw [ho.inode, hb.bytes]
  have hseek := Kernel.sysLseek_calm hb.calm ho.find ho.regular o whence
  rw [htarget, if_neg (by omega)] at hseek
  exact ⟨_, _, _, bind_ok (linker_lseek_ok hseek), .lseek hf ht,
    (hb.tock 1).moved hf (ho.same rfl rfl) _⟩

theorem obeys_stat (path : Path) : Obeys w s (.stat path) := by
  have hstat := Kernel.sysStat_calm hb.calm path
  refine ⟨_, _, s, bind_ok (linker_stat_ok hstat), ?_, hb.tock 1⟩
  cases hname : s.names path with
  | some i =>
      have hname' : w.kern.files.names path = some i := by
        rw [← hb.names]
        exact hname
      rw [FileStore.content_of_names _ hname', ← hb.bytes]
      exact .stat hname
  | none =>
      have hnone : w.kern.files.names path = none := by
        rw [← hb.names]
        exact hname
      rw [(FileStore.content_eq_none _).mpr hnone]
      exact .missing hname

theorem obeys_fstat {fd : Int} (hq : Ordinary s (.fstat fd)) : Obeys w s (.fstat fd) := by
  obtain ⟨h, hf⟩ := hq
  obtain ⟨id, ho⟩ := hb.held hf
  have hstat := Kernel.sysFstat_calm hb.calm ho.find
  rw [ho.regular, ho.inode, ← hb.bytes] at hstat
  exact ⟨_, _, s, bind_ok (linker_fstat_ok hstat), .fstat hf, hb.tock 1⟩

theorem obeys_close {fd : Int} (hq : Ordinary s (.close fd)) : Obeys w s (.close fd) := by
  obtain ⟨h, hf⟩ := hq
  obtain ⟨id, ho⟩ := hb.held hf
  exact ⟨_, _, _, bind_ok (linker_close_ok (Kernel.sysClose_calm hb.calm ho.find)), .close hf,
    (hb.tock 1).released ho.positive⟩

/-- **One real call.** -/
theorem raw_obeys {q : Call} (hq : Ordinary s q) : Obeys w s q := by
  cases q with
  | openFile path flags => exact obeys_open hb hq
  | read fd n => exact obeys_read hb hq
  | write fd b => exact obeys_write hb hq
  | lseek fd o whence => exact obeys_lseek hb hq
  | stat path => exact obeys_stat hb path
  | fstat fd => exact obeys_fstat hb hq
  | close fd => exact obeys_close hb hq

end Raw

/-! ## Every run -/

/-- The files as they are stored, without descriptors. -/
def storedFiles (fs : FileStore) : PlainSystem := ⟨fs.names, fs.data, fun _ => none⟩

/-- The library of a process that is not trusted. -/
structure Outside (m : Image) (s : PlainSystem) : Prop where
  bare : Bare m.world.kern s
  unloaded : m.linker_running_state = 0 → m.world.file_info_list = []

/-- A call of a process that is not trusted. -/
theorem gated_untrusted {dev : Device} {pf : Platform} {lib : Linkage} {p : Process} {m : Image}
    {s : PlainSystem} (hlib : Loads lib) (hp : is_trust_process pf p = 0) (hm : Outside m s)
    (q : Call) :
    ∃ r, r ≠ 0 ∧ gated dev pf lib p q m =
      inWorld (raw q) { m with linker_running_state := r } := by
  obtain ⟨r, hr, hrun⟩ := update_runs hlib hm.unloaded
  have hloaded : ¬ (r = 0 ∨ lib.linked q = false) := by
    rintro (hzero | hunlinked)
    · exact hr hzero
    · cases (hlib.linked q).symm.trans hunlinked
  have hcond : conditions pf lib p (lib.linked q) m =
      .ok (⟨true, false, false⟩, { m with linker_running_state := r }) := by
    rw [conditions, bind_ok hrun, if_neg hloaded, if_pos hp]
    rfl
  exact ⟨r, hr, by rw [gated, bind_ok hcond, run_untrusted]⟩

/-- A process that is not trusted refines the plain file system of the stored bytes. -/
theorem untrusted_refines {dev : Device} {pf : Platform} {lib : Linkage} (hlib : Loads lib) :
    Refines (gated_process dev pf lib) (plain.comap Prod.snd)
      (fun s q => is_trust_process pf q.1 = 0 ∧ Ordinary s q.2) Outside where
  step := by
    rintro m s ⟨p, q⟩ r m' hm ⟨hp, hq⟩ hstep
    obtain ⟨st, hst, hgated⟩ := @gated_untrusted dev pf lib p m s hlib hp hm q
    obtain ⟨r', k, s', hraw, hplain, hb⟩ := raw_obeys hm.bare (q := q) hq
    have hrun : gated dev pf lib p q m = .ok (r, m') := hstep
    rw [hgated, inWorld_ok (m := { m with linker_running_state := st }) hraw] at hrun
    obtain ⟨rfl, rfl⟩ := Prod.mk.inj (Except.ok.inj hrun)
    exact ⟨s', hplain, hb, fun hzero => absurd hzero hst⟩
  answers := by
    rintro m s ⟨p, q⟩ hm ⟨hp, hq⟩
    obtain ⟨st, -, hgated⟩ := @gated_untrusted dev pf lib p m s hlib hp hm q
    obtain ⟨r, k, s', hraw, -, -⟩ := raw_obeys hm.bare (q := q) hq
    exact ⟨r, _, hgated.trans (inWorld_ok (m := { m with linker_running_state := st }) hraw)⟩

/-- A process that has opened nothing. -/
theorem outside_start {m : Image} (hc : m.world.kern.host.Calm) (h0 : m.world.kern.InUse 0)
    (hl : m.world.file_info_list = []) : Outside m (storedFiles m.world.kern.files) :=
  ⟨⟨hc, h0, rfl, rfl, fun hf => (by cases hf), fun hf => (by cases hf)⟩, fun _ => hl⟩

/-- **What an outsider sees.**  A process that is served works with a plain file system.  A
    process that is not trusted, on the files the first one has left, works with a plain file
    system too, but with that of the stored bytes.  There a file of the first one is a header
    and the stored form of its content, or still waits to be converted; what is open is not
    waiting. -/
theorem outsider_sees_stored {dev : Device} {S : Scope dev} {pf : Platform} {lib : Linkage}
    {cfg : List UInt8} {m m₁ m₂ m₃ : Image} {s : PlainSystem}
    {l l' : List ((Process × Call) × Reply)} (hlib : Loads lib) (hcfg : Configured S cfg)
    (hm : Stands S m s) (hrun : (gated_process dev pf lib).Trace m l m₁)
    (hmay : (plain.comap Prod.snd).Within
      (fun s q => Served pf cfg q.1 ∧ Granted S s q.2) s l)
    (hre : Respawned m₁.world m₂.world) (hrun' : (gated_process dev pf lib).Trace m₂ l' m₃)
    (hmay' : (plain.comap Prod.snd).Within
      (fun s q => is_trust_process pf q.1 = 0 ∧ Ordinary s q.2)
      (storedFiles m₁.world.kern.files) l') :
    ∃ s₁ t, plain.Trace s (l.map fun x => (x.1.2, x.2)) s₁ ∧
      plain.Trace (storedFiles m₁.world.kern.files) (l'.map fun x => (x.1.2, x.2)) t ∧
      (∀ path i, s₁.names path = some i →
        (storedFiles m₁.world.kern.files).names path = some i ∧
        ((∃ H, TeRead.RightsHeader H ∧ (storedFiles m₁.world.kern.files).bytes i =
            H ++ TeHeader.stored dev.aes (s₁.bytes i)) ∨
          (storedFiles m₁.world.kern.files).bytes i = s₁.bytes i)) ∧
      (∀ fd h, s₁.opened fd = some h → ∃ H, TeRead.RightsHeader H ∧
        (storedFiles m₁.world.kern.files).bytes h.inode =
          H ++ TeHeader.stored dev.aes (s₁.bytes h.inode)) := by
  obtain ⟨s₁, htrace, hm₁, -⟩ := gated_transparent hlib hcfg hm hrun hmay
  have hout := outside_start hre.calm hre.input hre.table
  rw [hre.files] at hout
  obtain ⟨t, htrace', -⟩ := (untrusted_refines hlib).trace hrun' hout hmay'
  refine ⟨s₁, t, htrace, htrace'.of_comap, fun path i hn => ⟨(hm₁.shadows.files.known hn).2, ?_⟩,
    fun fd h hf => hm₁.shadows.files.inUse hf⟩
  exact (hm₁.shadows.files.content hn).imp_right fun hplain => hplain.data

/-! ## Two small processes -/

/-- A process of user 6, while 5 is the current domain. -/
def strangeProcess : Process := ⟨fun _ => TeSecurity.five, 610042⟩

/-- It opens a file for reading, and reads behind the header. -/
theorem stranger_reads {m : Image} {H T : List UInt8} (hc : m.world.kern.host.Calm)
    (h0 : m.world.kern.InUse 0) (hl : m.world.file_info_list = [])
    (hname : m.world.kern.files.names Kernel.aName = some 1) (hH : H.length = 4096)
    (hdata : m.world.kern.files.data 1 = H ++ T) : ∃ fd m',
    (gated_process aDevice aPlatform aLinkage).Trace m
      [((strangeProcess, .openFile Kernel.aName { acc := .rdonly }), .result fd),
        ((strangeProcess, .lseek fd 4096 .set), .result 4096),
        ((strangeProcess, .read fd T.length), .data T.length T)] m' ∧
    (plain.comap Prod.snd).Within (fun s q => is_trust_process aPlatform q.1 = 0 ∧ Ordinary s q.2)
      (storedFiles m.world.kern.files)
      [((strangeProcess, .openFile Kernel.aName { acc := .rdonly }), .result fd),
        ((strangeProcess, .lseek fd 4096 .set), .result 4096),
        ((strangeProcess, .read fd T.length), .data T.length T)] := by
  have hstrange : is_trust_process aPlatform strangeProcess = 0 := by decide
  have href := @untrusted_refines aDevice aPlatform aLinkage aLinkage_loads
  let s := storedFiles m.world.kern.files
  have hm : Outside m s := outside_start hc h0 hl
  have hq : Ordinary s (.openFile Kernel.aName { acc := .rdonly }) := ⟨rfl, rfl, fun _ => rfl⟩
  obtain ⟨r, m₁, hstep⟩ := href.answers hm
    (q := (strangeProcess, .openFile Kernel.aName { acc := .rdonly })) ⟨hstrange, hq⟩
  obtain ⟨s₁, hplain, hm₁⟩ := href.step hm ⟨hstrange, hq⟩ hstep
  have hname' : s.names Kernel.aName = some 1 := hname
  obtain ⟨fd, rfl, rfl⟩ := open_named hname' hplain
  let h : Handle := ⟨1, 0, .rdonly⟩
  let s₁ := s.hold fd h
  have hf₁ : s₁.opened fd = some h := s.hold_self fd h
  -- behind the header
  have htarget : 0 ≤ target (s₁.file h) 4096 .set := Int.natCast_nonneg 4096
  have hstep₁ : s₁.Step (.lseek fd 4096 .set) (.result 4096)
      (s₁.hold fd { h with pos := 4096 }) := .lseek hf₁ htarget
  let s₂ := s₁.hold fd { h with pos := 4096 }
  have hf₂ : s₂.opened fd = some { h with pos := 4096 } := s₁.hold_self fd _
  have hread : (s₂.file { h with pos := 4096 }).read T.length = T := by
    show slice (m.world.kern.files.data 1) 4096 T.length = T
    rw [hdata, ← hH, slice, List.drop_left, List.take_length]
  have hstep₂ : s₂.Step (.read fd T.length) _ _ := .read T.length hf₂
  rw [hread, PlainFile.afterRead, hread] at hstep₂
  have hwalk : plain.Walk Ordinary s₁
      [(.lseek fd 4096 .set, .result 4096), (.read fd T.length, .data T.length T)] _ :=
    .cons ⟨h, hf₁, htarget⟩ (plain_single (by simp)) hstep₁
      (.cons ⟨_, hf₂, rfl⟩ (plain_single (by simp)) hstep₂ (.nil _))
  have hwalk' : (plain.comap Prod.snd).Walk
      (fun s q => is_trust_process aPlatform q.1 = 0 ∧ Ordinary s q.2) s₁ _ _ :=
    hwalk.tagged (g := fun q => (strangeProcess, q)) (fun _ => rfl) fun h => ⟨hstrange, h⟩
  obtain ⟨m', htrace, -⟩ := href.follow hwalk' hm₁
  refine ⟨fd, m', .cons hstep htrace, ⟨hstrange, hq⟩, fun t ht => ?_⟩
  obtain ⟨fd', heq, rfl⟩ := open_named hname' ht
  obtain rfl : fd = fd' := Reply.result.inj heq
  exact hwalk'.within

/-- User 5 appends to its text; user 6 reads two blocks of cipher text and the two bytes behind
    them. -/
theorem outsider_sees_stored_append : ∃ fd fd' m₁ m₂ m₃ t,
    (gated_process aDevice aPlatform aLinkage).Trace startedImage
      (((servedProcess, .openFile Kernel.aName { acc := .rdwr }), .result fd) ::
        (appended fd).map fun x => ((switchedProcess, x.1), x.2)) m₁ ∧
    Respawned m₁.world m₂.world ∧
    (gated_process aDevice aPlatform aLinkage).Trace m₂
      [((strangeProcess, .openFile Kernel.aName { acc := .rdonly }), .result fd'),
        ((strangeProcess, .lseek fd' 4096 .set), .result 4096),
        ((strangeProcess, .read fd' 34), .data 34
          (TeHeader.stored aDevice.aes (zeroed 20 ++ List.replicate 14 7)))] m₃ ∧
    plain.Trace (storedFiles m₁.world.kern.files)
      [(.openFile Kernel.aName { acc := .rdonly }, .result fd'),
        (.lseek fd' 4096 .set, .result 4096),
        (.read fd' 34, .data 34
          (TeHeader.stored aDevice.aes (zeroed 20 ++ List.replicate 14 7)))] t := by
  let P : List UInt8 := zeroed 20 ++ List.replicate 14 7
  obtain ⟨fd, m₁, hrun, hmay, s₁, hm₁, hbytes, hopened, hnames⟩ := gated_append
    servedProcess_served (switchedProcess_served setting) startedImage_stands
  -- the files are handed on
  let m₂ : Image := ⟨0, { m₁.world with file_info_list := [] }⟩
  have hre : Respawned m₁.world m₂.world := ⟨rfl, rfl, hm₁.shadows.calm, hm₁.shadows.input⟩
  have hname : m₁.world.kern.files.names Kernel.aName = some 1 :=
    (hm₁.shadows.files.known (show s₁.names Kernel.aName = some 1 by rw [hnames]; rfl)).2
  obtain ⟨H, hH, hdata⟩ := hm₁.shadows.files.inUse hopened
  rw [show s₁.bytes 1 = P from hbytes] at hdata
  obtain ⟨fd', m₃, hrun', hmay'⟩ := @stranger_reads m₂ H (TeHeader.stored aDevice.aes P) hre.calm
    hre.input hre.table hname hH.length hdata
  rw [show (TeHeader.stored aDevice.aes P).length = 34 from stored_length _ P] at hrun' hmay'
  obtain ⟨-, t, -, htrace, -⟩ := outsider_sees_stored aLinkage_loads servedScope_configured
    startedImage_stands hrun hmay hre hrun' hmay'
  exact ⟨fd, fd', m₁, m₂, m₃, t, hrun, hre, hrun', htrace⟩

end TeOutsider
