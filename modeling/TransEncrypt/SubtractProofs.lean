import TransEncrypt.MmapProofs

/-! # Taking the header off a size

    `stat`, `lstat`, `fstat` and `mmap` subtract 4096 from a size that the system reports.
    The probe that they go by fills a short file up with zeros, follows symbolic links, and
    is not made at all for a descriptor with an entry.

    * `Links`: symbolic links, which `open` and `stat` follow and the real `lstat` does not;
    * `Fair`: a reported size is the real one, or the real one less a header that is there,
      of the object in which the header was found;
    * `MmapPlan`, `mmap_eq`: the decision of `mmap`, with the size that the header is taken
      off, and what it does then;
    * `subtraction_fair_iff`: when the four calls are fair. -/

namespace TeSubtract

open Posix Overlay TeHeader Hoare TeProgram TeDetector TeSize TeWorker TeMmap

/-! ## Symbolic links -/

/-- The symbolic links beside the files; a name is not both. -/
structure Links (fs : FileStore) where
  link : Path → Option Path
  apart : ∀ p q, link p = some q → fs.names p = none

/-- Follow at most `n` links. -/
def followUpTo (link : Path → Option Path) : Nat → Path → Path
  | 0, p => p
  | n + 1, p =>
      match link p with
      | none => p
      | some q => followUpTo link n q

namespace Links

variable {fs : FileStore} (links : Links fs)

/-- Where a path leads; after forty links the kernel gives up, and what is still a link
    then denotes no file. -/
def follow (path : Path) : Path := followUpTo links.link 40 path

theorem follow_none {path : Path} (h : links.link path = none) : links.follow path = path := by
  rw [follow, followUpTo]
  simp only [h]

/-- The real `lstat`: of a link, the length of its target. -/
def linker_lstat (path : Path) : Sys (Option Stat) :=
  match links.link path with
  | none => linker_stat path
  | some target => kernelCall fun k =>
      (if k.answer.fails then none else some ⟨false, target.length⟩, k.tock 1)

/-- `stat` and `lstat` where there are links. -/
def stat (env : Env) (path : Path) : Sys (Option Stat) := TeSize.stat env (links.follow path)

def lstat (env : Env) (path : Path) : Sys (Option Stat) :=
  stat_by_path (fun _ => links.linker_lstat path) env (links.follow path)

end Links

/-! ## What a size belongs to -/

inductive Object where
  | inode (i : Nat) (regular : Bool)
  | link (path target : Path)
  deriving DecidableEq, Repr

/-- What the system says of it. -/
def Object.stat (fs : FileStore) : Object → Stat
  | .inode i regular => ⟨regular, (fs.data i).length⟩
  | .link _ target => ⟨false, target.length⟩

/-- The file that a path leads to, which is what the probe opens. -/
def Links.file {fs : FileStore} (links : Links fs) (path : Path) : Option Object :=
  (fs.names (links.follow path)).map fun i => .inode i true

/-- What `lstat` is about. -/
def Links.object {fs : FileStore} (links : Links fs) (path : Path) : Option Object :=
  match links.link path with
  | none => links.file path
  | some target => some (.link path target)

/-- What is behind a descriptor. -/
def opened (k : Kernel) (fd : Int) : Option Object :=
  (k.find fd).map fun id => .inode (k.desc id).inode (k.desc id).regular

/-- Whatever the call reports is what the system says of the object that was sized, or it
    is less by a header that fits in that size, found in the same object. -/
def Fair (call : Sys (Option Stat)) (sized classified : Option Object) (w : World) : Prop :=
  ∀ st w', call w = .ok (some st, w') → ∃ o, sized = some o ∧
    (st = o.stat w.kern.files ∨ st = lessHeader (o.stat w.kern.files) ∧
      (FILE_HEADER_POLL_SIZE : Nat) ≤ (o.stat w.kern.files).st_size ∧ classified = some o)

/-- What is reported of an object, given what the probe saw. -/
def shown (fs : FileStore) (type : Nat) (o : Object) : Stat :=
  if type = FILE_TYPE_RIGHTS then lessHeader (o.stat fs) else o.stat fs

theorem lessHeader_ne (st : Stat) : lessHeader st ≠ st := by
  intro h
  have hsize : st.st_size - ((4096 : Nat) : Int) = st.st_size := congrArg Stat.st_size h
  omega

/-- A fair size has not become negative. -/
theorem Fair.nonneg {call : Sys (Option Stat)} {sized classified : Option Object} {w w' : World}
    {st : Stat} (h : Fair call sized classified w) (hrun : call w = .ok (some st, w')) :
    0 ≤ st.st_size := by
  have hreal : ∀ o : Object, 0 ≤ (o.stat w.kern.files).st_size := by
    intro o
    cases o with
    | inode i regular => exact Int.natCast_nonneg _
    | link path target => exact Int.natCast_nonneg _
  obtain ⟨o, -, rfl | ⟨rfl, hsize, -⟩⟩ := h st w' hrun
  · exact hreal o
  · exact Int.sub_nonneg_of_le hsize

/-- When a call that reports `shown` is fair. -/
theorem fair_iff {call : Sys (Option Stat)} {sized classified : Option Object} {w : World}
    {type : Nat} (hrun : ∃ w', call w = .ok (sized.map (shown w.kern.files type), w')) :
    Fair call sized classified w ↔ ∀ o, sized = some o → type = FILE_TYPE_RIGHTS →
      (FILE_HEADER_POLL_SIZE : Nat) ≤ (o.stat w.kern.files).st_size ∧ classified = some o := by
  obtain ⟨w', hrun⟩ := hrun
  constructor
  · rintro h o rfl hrights
    rw [Option.map_some, shown, if_pos hrights] at hrun
    obtain ⟨o', ho', hsame | ⟨-, hsize, hclass⟩⟩ := h _ w' hrun
    · rw [← Option.some.inj ho'] at hsame
      exact absurd hsame (lessHeader_ne _)
    · rw [← Option.some.inj ho'] at hsize hclass
      exact ⟨hsize, hclass⟩
  · intro h st w'' hrun'
    rw [hrun] at hrun'
    have hst := (Prod.mk.inj (Except.ok.inj hrun')).1
    obtain ⟨o, ho, rfl⟩ := Option.map_eq_some_iff.mp hst
    refine ⟨o, ho, ?_⟩
    rw [shown]
    split
    · rename_i hrights
      exact .inr ⟨rfl, h o ho hrights⟩
    · exact .inl rfl

/-! ## The three calls -/

/-- The shape that they share. -/
theorem sized_run {real : Sys (Option Stat)} {probe : Sys Nat} {w w₁ : World} {type : Nat}
    {fs : FileStore} {sized : Option Object} (hreal : real w = .ok (sized.map (Object.stat fs), w₁))
    (hprobe : ∃ w', probe w₁ = .ok (type, w')) :
    ∃ w', (do
      match (← real) with
      | none => pure none
      | some state => do
          let t ← probe
          pure (some (if t = FILE_TYPE_RIGHTS then lessHeader state else state)) :
        Sys (Option Stat)) w = .ok (sized.map (shown fs type), w') := by
  rw [bind_ok hreal]
  cases sized with
  | none => exact ⟨w₁, rfl⟩
  | some o =>
      obtain ⟨w', hprobe⟩ := hprobe
      refine ⟨w', ?_⟩
      rw [Option.map_some]
      dsimp only
      rw [bind_ok hprobe]
      rfl

section Calls

variable {env : Env} {w : World} (henv : env.Active) (hc : w.kern.host.Calm)
  (hlow : w.kern.host.LowestFree)
include hc

/-- The real `stat` of a path that has been followed. -/
theorem linker_stat_file (links : Links w.kern.files) (path : Path) :
    linker_stat (links.follow path) w =
      .ok ((links.file path).map (Object.stat w.kern.files),
        { w with kern := w.kern.tock 1 }) := by
  apply linker_stat_ok
  rw [Kernel.sysStat_calm hc, Links.file, FileStore.content]
  cases w.kern.files.names (links.follow path) with
  | none => rfl
  | some i => rfl

/-- The real `lstat`. -/
theorem linker_lstat_object (links : Links w.kern.files) (path : Path) :
    links.linker_lstat path w =
      .ok ((links.object path).map (Object.stat w.kern.files),
        { w with kern := w.kern.tock 1 }) := by
  rw [Links.linker_lstat, Links.object]
  cases hlink : links.link path with
  | none =>
      have h := linker_stat_file hc links path
      rw [links.follow_none hlink] at h
      exact h
  | some target =>
      apply kernelCall_ok
      rw [Kernel.answer_fails hc]
      rfl

theorem linker_fstat_opened (fd : Int) :
    linker_fstat fd w = .ok ((opened w.kern fd).map (Object.stat w.kern.files),
      { w with kern := w.kern.tock 1 }) := by
  apply linker_fstat_ok
  rw [opened]
  cases hf : w.kern.find fd with
  | none => rw [Kernel.sysFstat, hf]; rfl
  | some id => rw [Kernel.sysFstat_calm hc hf]; rfl

include henv hlow

/-- What the hooked calls report. -/
theorem stat_run (links : Links w.kern.files) (path : Path) :
    ∃ w', links.stat env path w = .ok ((links.file path).map
      (shown w.kern.files (seenByPath w.kern (links.follow path))), w') := by
  rw [Links.stat, stat, stat_by_path, hooked_active henv]
  exact sized_run (linker_stat_file hc links path)
    (is_encrypted_by_path_sees (w := { w with kern := w.kern.tock 1 }) hc hlow _)

theorem lstat_run (links : Links w.kern.files) (path : Path) :
    ∃ w', links.lstat env path w = .ok ((links.object path).map
      (shown w.kern.files (seenByPath w.kern (links.follow path))), w') := by
  rw [Links.lstat, stat_by_path, hooked_active henv]
  exact sized_run (linker_lstat_object hc links path)
    (is_encrypted_by_path_sees (w := { w with kern := w.kern.tock 1 }) hc hlow _)

theorem fstat_run (fd : Int) :
    ∃ w', fstat env fd w = .ok ((opened w.kern fd).map
      (shown w.kern.files (seenByFd w.kern fd)), w') := by
  obtain ⟨w', hprobe, -⟩ :=
    is_encrypted_by_fd_sees (w := { w with kern := w.kern.tock 1 }) hc hlow fd
  rw [fstat, hooked_active henv]
  exact sized_run (linker_fstat_opened hc fd) ⟨w', hprobe⟩

theorem stat_fair_iff (links : Links w.kern.files) (path : Path) :
    Fair (links.stat env path) (links.file path) (links.file path) w ↔
      (seenByPath w.kern (links.follow path) = FILE_TYPE_RIGHTS → ∀ i,
        w.kern.files.names (links.follow path) = some i →
        FILE_HEADER_POLL_SIZE ≤ (w.kern.files.data i).length) := by
  rw [fair_iff (stat_run henv hc hlow links path)]
  constructor
  · intro h hseen i hi
    have hsize := (h (.inode i true) (by rw [Links.file, hi]; rfl) hseen).1
    exact Int.ofNat_le.mp hsize
  · intro h o ho hseen
    obtain ⟨i, hi, rfl⟩ := Option.map_eq_some_iff.mp ho
    exact ⟨Int.ofNat_le.mpr (h hseen i hi), ho⟩

theorem lstat_fair_iff (links : Links w.kern.files) (path : Path) :
    Fair (links.lstat env path) (links.object path) (links.file path) w ↔
      (seenByPath w.kern (links.follow path) = FILE_TYPE_RIGHTS → links.link path = none ∧ ∀ i,
        w.kern.files.names path = some i →
        FILE_HEADER_POLL_SIZE ≤ (w.kern.files.data i).length) := by
  rw [fair_iff (lstat_run henv hc hlow links path)]
  cases hlink : links.link path with
  | none =>
      have hobject : links.object path = links.file path := by rw [Links.object, hlink]
      constructor
      · intro h hseen
        refine ⟨rfl, fun i hi => ?_⟩
        have hfile : links.file path = some (.inode i true) := by
          rw [Links.file, links.follow_none hlink, hi]
          rfl
        exact Int.ofNat_le.mp (h _ (hobject.trans hfile) hseen).1
      · intro h o ho hseen
        rw [hobject] at ho
        obtain ⟨i, hi, rfl⟩ := Option.map_eq_some_iff.mp ho
        rw [links.follow_none hlink] at hi
        exact ⟨Int.ofNat_le.mpr ((h hseen).2 i hi), ho⟩
  | some target =>
      -- the size is that of the link, the header that of the file
      have hobject : links.object path = some (.link path target) := by rw [Links.object, hlink]
      constructor
      · intro h hseen
        have hclass := (h _ hobject hseen).2
        obtain ⟨i, -, hi⟩ := Option.map_eq_some_iff.mp hclass
        cases hi
      · intro h o _ hseen
        cases (h hseen).1

theorem fstat_fair_iff (fd : Int) :
    Fair (fstat env fd) (opened w.kern fd) (opened w.kern fd) w ↔
      (seenByFd w.kern fd = FILE_TYPE_RIGHTS → ∀ id, w.kern.find fd = some id →
        FILE_HEADER_POLL_SIZE ≤ (w.kern.files.data (w.kern.desc id).inode).length) := by
  rw [fair_iff (fstat_run henv hc hlow fd)]
  constructor
  · intro h hseen id hid
    have hsize := (h _ (by rw [opened, hid]; rfl) hseen).1
    exact Int.ofNat_le.mp hsize
  · intro h o ho hseen
    obtain ⟨id, hid, rfl⟩ := Option.map_eq_some_iff.mp ho
    exact ⟨Int.ofNat_le.mpr (h hseen id hid), ho⟩

end Calls

/-! ## The length of a mapping -/

/-- The size that `mmap` goes by; 0 when it is not told one. -/
def mmap_size (fd : Int) : Sys Int := do
  let state ← linker_fstat fd
  pure ((state.map Stat.st_size).getD 0)

/-- What `mmap` has decided when it comes to map: to do what it was asked for, or to take the
    header off a size. -/
inductive MmapPlan where
  | raw
  | less (st_size : Int)
  deriving DecidableEq, Repr

/-- The part of `mmap` in front of the subtraction. -/
def mmap_plan (prot : Prot) (fd : Int) : Sys MmapPlan := do
  if (← passes_through fd) then pure .raw
  else if prot.read then do
    let st_size ← mmap_size fd
    pure (.less st_size)
  else pure .raw

/-- The part of `mmap` from the subtraction on. -/
def MmapPlan.run (dev : Device) (length : Nat) (prot : Prot) (flags : MapType)
    (fd offset : Int) : MmapPlan → Sys (Option View)
  | .raw => linker_mmap length prot flags fd offset
  | .less st_size => do
      let len := toInt (st_size - (FILE_HEADER_POLL_SIZE : Nat))
      match (← linker_mmap (toSize len) { prot with exec := true, write := true } flags fd
        (offset + (FILE_HEADER_POLL_SIZE : Nat))) with
      | some result => do
          let result ← decrypt_view dev.aes 0 (len / 16).toNat result
          pure (some result)
      | none => linker_mmap length prot flags fd offset

/-- `mmap` is the one part after the other. -/
theorem mmap_eq (dev : Device) (env : Env) (length : Nat) (prot : Prot) (flags : MapType)
    (fd offset : Int) :
    mmap dev env length prot flags fd offset =
      hooked env none (linker_mmap length prot flags fd offset) (do
        let plan ← mmap_plan prot fd
        plan.run dev length prot flags fd offset) := by
  have hbody : (do
      let plan ← mmap_plan prot fd
      plan.run dev length prot flags fd offset : Sys (Option View)) =
      (do
        if (← passes_through fd) then linker_mmap length prot flags fd offset
        else if prot.read then do
          let state ← linker_fstat fd
          MmapPlan.run dev length prot flags fd offset
            (.less ((state.map Stat.st_size).getD 0))
        else linker_mmap length prot flags fd offset) := by
    rw [mmap_plan, bind_assoc]
    congr 1
    funext pass
    cases pass with
    | true => rfl
    | false =>
        cases prot.read with
        | true =>
            simp only [mmap_size, bind_assoc, pure_bind, Bool.false_eq_true, if_false, if_true]
        | false => rfl
  rw [hbody]
  rfl

/-- The object with the header that `mmap` goes by: the one that was opened when the entry of
    the descriptor was made, and without an entry the one that is probed now. -/
def headed (w : World) (fd : Int) : Option Object :=
  match w.file_info_list.find? (fun e => e.file_descriptor = fd) with
  | some e => e.origin.map fun i => .inode i true
  | none => opened w.kern fd

/-- Whatever `mmap` is asked for, it goes by a plan; and where that takes the header off a
    size, this is the size of the object with the header, it has room for one, and the length
    that comes out, an `int`, is not negative. -/
def MmapFair (dev : Device) (env : Env) (prot : Prot) (fd : Int) (w : World) : Prop :=
  ∀ length flags offset, ∃ plan w₁, mmap_plan prot fd w = .ok (plan, w₁) ∧
    mmap dev env length prot flags fd offset w =
      plan.run dev length prot flags fd offset w₁ ∧
    ∀ st_size, plan = .less st_size → ∃ o, opened w.kern fd = some o ∧ headed w fd = some o ∧
      st_size = (o.stat w.kern.files).st_size ∧ (FILE_HEADER_POLL_SIZE : Nat) ≤ st_size ∧
      0 ≤ toInt (st_size - (FILE_HEADER_POLL_SIZE : Nat))

section Plan

variable {w : World} (hc : w.kern.host.Calm) (hlow : w.kern.host.LowestFree)
include hc hlow

/-- What `mmap` decides. -/
theorem mmap_plan_run (prot : Prot) (fd : Int) : ∃ plan w₁, mmap_plan prot fd w = .ok (plan, w₁) ∧
    ∀ st_size, plan = .less st_size ↔ (prot.read = true ∧ CountsEncrypted w fd ∧
      st_size = (((opened w.kern fd).map (Object.stat w.kern.files)).map Stat.st_size).getD 0) := by
  rw [mmap_plan]
  by_cases hcount : CountsEncrypted w fd
  · obtain ⟨n, hpass⟩ := passes_through_counts hc hlow hcount
    have hstat := linker_fstat_opened (w := { w with kern := w.kern.tock n }) hc fd
    have hsize : mmap_size fd { w with kern := w.kern.tock n } =
        .ok ((((opened w.kern fd).map (Object.stat w.kern.files)).map Stat.st_size).getD 0,
          { w with kern := (w.kern.tock n).tock 1 }) := by
      rw [mmap_size, bind_ok hstat]
      rfl
    rw [bind_ok hpass, if_neg (by decide)]
    by_cases hread : prot.read = true
    · rw [if_pos hread, bind_ok hsize]
      refine ⟨_, _, rfl, fun st_size => ⟨fun h => ⟨hread, hcount, ?_⟩, ?_⟩⟩
      · exact (MmapPlan.less.inj h).symm
      · rintro ⟨-, -, rfl⟩
        rfl
    · rw [if_neg hread]
      exact ⟨_, _, rfl, fun st_size => ⟨fun h => (nomatch h), fun h => absurd h.1 hread⟩⟩
  · obtain ⟨w', hpass⟩ := passes_through_plain hc hlow hcount
    rw [bind_ok hpass, if_pos rfl]
    exact ⟨_, _, rfl, fun st_size => ⟨fun h => (nomatch h), fun h => absurd h.2.1 hcount⟩⟩

theorem mmap_fair_iff (dev : Device) {env : Env} (henv : env.Active) (prot : Prot) (fd : Int) :
    MmapFair dev env prot fd w ↔ (prot.read = true → CountsEncrypted w fd →
      ∃ id, w.kern.find fd = some id ∧
        FILE_HEADER_POLL_SIZE ≤ (w.kern.files.data (w.kern.desc id).inode).length ∧
        0 ≤ toInt (((w.kern.files.data (w.kern.desc id).inode).length : Int)
          - (FILE_HEADER_POLL_SIZE : Nat)) ∧
        headed w fd = some (.inode (w.kern.desc id).inode (w.kern.desc id).regular)) := by
  obtain ⟨plan, w₁, hplan, hless⟩ := mmap_plan_run hc hlow prot fd
  have hrun : ∀ length flags offset, mmap dev env length prot flags fd offset w =
      plan.run dev length prot flags fd offset w₁ := by
    intro length flags offset
    rw [mmap_eq, hooked_active henv, bind_ok hplan]
  constructor
  · intro h hread hcount
    obtain ⟨plan', w', hplan', -, hfair⟩ := h 0 .map_private 0
    rw [hplan] at hplan'
    obtain ⟨rfl, -⟩ := Prod.mk.inj (Except.ok.inj hplan')
    obtain ⟨o, hopen, hhead, -, hlong, hneg⟩ := hfair _ ((hless _).mpr ⟨hread, hcount, rfl⟩)
    obtain ⟨id, hf, rfl⟩ := Option.map_eq_some_iff.mp hopen
    rw [hopen] at hlong hneg
    exact ⟨id, hf, Int.ofNat_le.mp hlong, hneg, hhead⟩
  · intro h length flags offset
    refine ⟨plan, w₁, hplan, hrun length flags offset, fun st_size hst => ?_⟩
    obtain ⟨hread, hcount, rfl⟩ := (hless st_size).mp hst
    obtain ⟨id, hf, hlong, hneg, hhead⟩ := h hread hcount
    have hopen : opened w.kern fd
        = some (.inode (w.kern.desc id).inode (w.kern.desc id).regular) := by
      rw [opened, hf]
      rfl
    rw [hopen]
    exact ⟨_, rfl, hhead, rfl, Int.ofNat_le.mpr hlong, hneg⟩

end Plan

/-- **The header and the sizes.**  The four calls take the header only off sizes that have
    one, of the object it was found in, exactly when: a path whose file is seen to be
    encrypted is no symbolic link, and the file is at least as long as a header; so is the
    file of a descriptor that is seen to be encrypted; and the file of a descriptor that
    counts as encrypted and is mapped for reading is at least that long, with a rest that
    is not negative as an `int`, and is the one that its entry, if it has one, was made for. -/
theorem subtraction_fair_iff {dev : Device} {env : Env} {w : World} (henv : env.Active)
    (hc : w.kern.host.Calm) (hlow : w.kern.host.LowestFree) (links : Links w.kern.files)
    (path : Path) (fd : Int) (prot : Prot) :
    Fair (links.stat env path) (links.file path) (links.file path) w ∧
      Fair (links.lstat env path) (links.object path) (links.file path) w ∧
      Fair (fstat env fd) (opened w.kern fd) (opened w.kern fd) w ∧
      MmapFair dev env prot fd w ↔
    (seenByPath w.kern (links.follow path) = FILE_TYPE_RIGHTS → links.link path = none ∧ ∀ i,
        w.kern.files.names path = some i →
        FILE_HEADER_POLL_SIZE ≤ (w.kern.files.data i).length) ∧
      (seenByFd w.kern fd = FILE_TYPE_RIGHTS → ∀ id, w.kern.find fd = some id →
        FILE_HEADER_POLL_SIZE ≤ (w.kern.files.data (w.kern.desc id).inode).length) ∧
      (prot.read = true → CountsEncrypted w fd → ∃ id, w.kern.find fd = some id ∧
        FILE_HEADER_POLL_SIZE ≤ (w.kern.files.data (w.kern.desc id).inode).length ∧
        0 ≤ toInt (((w.kern.files.data (w.kern.desc id).inode).length : Int)
          - (FILE_HEADER_POLL_SIZE : Nat)) ∧
        headed w fd = some (.inode (w.kern.desc id).inode (w.kern.desc id).regular)) := by
  rw [stat_fair_iff henv hc hlow, lstat_fair_iff henv hc hlow, fstat_fair_iff henv hc hlow,
    mmap_fair_iff hc hlow dev henv]
  constructor
  · rintro ⟨-, hl, hf, hm⟩
    exact ⟨hl, hf, hm⟩
  · rintro ⟨hl, hf, hm⟩
    refine ⟨fun hseen => ?_, hl, hf, hm⟩
    obtain ⟨hlink, hlong⟩ := hl hseen
    rw [links.follow_none hlink]
    exact hlong

/-! ## Fair and unfair sizes -/

def noLinks (fs : FileStore) : Links fs := ⟨fun _ => none, fun _ _ h => nomatch h⟩

/-- An encrypted file with one byte behind the header, open for reading and mapped. -/
theorem subtraction_fair_seven :
    let w := aReader (newHeader none ++ [7])
    Fair ((noLinks w.kern.files).stat activeEnv Kernel.aName)
        ((noLinks w.kern.files).file Kernel.aName) ((noLinks w.kern.files).file Kernel.aName) w ∧
      Fair ((noLinks w.kern.files).lstat activeEnv Kernel.aName)
        ((noLinks w.kern.files).object Kernel.aName) ((noLinks w.kern.files).file Kernel.aName) w ∧
      Fair (fstat activeEnv 3) (opened w.kern 3) (opened w.kern 3) w ∧
      MmapFair aDevice activeEnv onlyRead 3 w := by
  intro w
  have hdata : w.kern.files.data 1 = newHeader none ++ [7] :=
    Kernel.oneDescriptor_data (newHeader none ++ [7]) { acc := .rdonly } 0
  have hlen : (w.kern.files.data 1).length = 4097 := by
    rw [hdata, List.length_append, newHeader_length]
    rfl
  have hfind : w.kern.find 3 = some 1 := rfl
  have hlong : FILE_HEADER_POLL_SIZE ≤ (w.kern.files.data 1).length := by
    rw [hlen]
    decide
  refine (subtraction_fair_iff ⟨rfl, rfl, rfl⟩ (fun _ => ⟨rfl, rfl, rfl⟩) (fun _ => rfl)
    (noLinks w.kern.files) Kernel.aName 3 onlyRead).mpr ⟨fun _ => ⟨rfl, ?_⟩, fun _ => ?_,
    fun _ _ => ?_⟩
  · intro i hi
    obtain rfl : 1 = i := Option.some.inj hi
    exact hlong
  · intro id hid
    obtain rfl : 1 = id := Option.some.inj (hfind.symm.trans hid)
    exact hlong
  · refine ⟨1, hfind, hlong, ?_, rfl⟩
    show 0 ≤ toInt (((w.kern.files.data 1).length : Int) - (FILE_HEADER_POLL_SIZE : Nat))
    rw [hlen]
    decide

/-- The name `"g"` is a link to `"f"`. -/
def aLink (data : List UInt8) : Links (aReader data).kern.files where
  link := fun p => if p = [0x67] then some Kernel.aName else none
  apart := by
    intro p q h
    by_cases hp : p = [0x67]
    · rw [hp]
      rfl
    · rw [if_neg hp] at h
      cases h

/-- A tracked file that was cut to nothing by another process. -/
def cutToNothing : World where
  kern := Kernel.oneDescriptor [] { acc := .rdonly } 4096
  file_info_list := [⟨3, Kernel.aName, none⟩]

/-- A plain file of 4112 bytes on descriptor 3, whose entry is left from another file. -/
def staleEntry : World where
  kern := Kernel.oneDescriptor (zeroed 4112) { acc := .rdonly } 0
  file_info_list := [⟨3, Kernel.aName, some 2⟩]

/-- `lstat` of a link to an encrypted file takes the header off the length of the link, `stat`
    takes it off a file that ends in the header, and `mmap` off an empty one, and off a plain
    file whose descriptor has the entry of another. -/
theorem sizes_underflow :
    (∃ w', (aLink (newHeader none)).lstat activeEnv [0x67] (aReader (newHeader none)) =
      .ok (some ⟨false, -4095⟩, w')) ∧
    (∃ w', stat activeEnv Kernel.aName (aReader ((newHeader none).take 3970)) =
      .ok (some ⟨true, -126⟩, w')) ∧
    (∃ w₁, mmap aDevice activeEnv 10 onlyRead .map_private 3 0 cutToNothing =
        (MmapPlan.less 0).run aDevice 10 onlyRead .map_private 3 0 w₁ ∧
      toSize (toInt (0 - (FILE_HEADER_POLL_SIZE : Nat))) = 2 ^ 64 - 4096) ∧
    ∃ w₁, mmap aDevice activeEnv 10 onlyRead .map_private 3 0 staleEntry =
        (MmapPlan.less 4112).run aDevice 10 onlyRead .map_private 3 0 w₁ ∧
      opened staleEntry.kern 3 = some (.inode 1 true) ∧
      headed staleEntry 3 = some (.inode 2 true) := by
  have hc : ∀ data, (aReader data).kern.host.Calm := fun _ _ => ⟨rfl, rfl, rfl⟩
  have hlow : ∀ data, (aReader data).kern.host.LowestFree := fun _ _ => rfl
  have henv : activeEnv.Active := ⟨rfl, rfl, rfl⟩
  have hfull : typeOf (newHeader none) = FILE_TYPE_RIGHTS := by
    have h := typeOf_header (newHeader_length none) []
    rwa [List.append_nil, newHeader_rights] at h
  have hseen : ∀ data, typeOf data = FILE_TYPE_RIGHTS →
      seenByPath (aReader data).kern Kernel.aName = FILE_TYPE_RIGHTS := by
    intro data h
    have h0 : (aReader data).kern.InUse 0 := List.mem_cons_self
    have hname : (aReader data).kern.files.names Kernel.aName = some 1 := rfl
    rw [seenByPath, hname]
    exact (if_pos h0).trans h
  have hplan : ∀ w st_size, w.Tracked 3 → (∃ w₁, mmap_size 3 w = .ok (st_size, w₁)) →
      ∃ w₁, mmap aDevice activeEnv 10 onlyRead .map_private 3 0 w =
        (MmapPlan.less st_size).run aDevice 10 onlyRead .map_private 3 0 w₁ := by
    rintro w st_size htracked ⟨w₁, hsize⟩
    have hread : onlyRead.read = true := rfl
    refine ⟨w₁, ?_⟩
    rw [mmap_eq, hooked_active henv, mmap_plan, bind_assoc,
      bind_ok (passes_through_tracked htracked),
      if_neg (by decide), if_pos hread, bind_assoc, bind_ok hsize]
    rfl
  refine ⟨?_, ?_, ?_, ?_⟩
  · obtain ⟨w', hrun⟩ := lstat_run henv (hc _) (hlow _) (aLink (newHeader none)) [0x67]
    refine ⟨w', hrun.trans ?_⟩
    have hfollow : (aLink (newHeader none)).follow [0x67] = Kernel.aName := rfl
    rw [hfollow, hseen _ hfull]
    rfl
  · obtain ⟨w', hrun⟩ := stat_run henv (hc _) (hlow _)
      (noLinks (aReader ((newHeader none).take 3970)).kern.files) Kernel.aName
    refine ⟨w', hrun.trans ?_⟩
    have hfollow : (noLinks (aReader ((newHeader none).take 3970)).kern.files).follow Kernel.aName
      = Kernel.aName := rfl
    have hcut : typeOf ((newHeader none).take 3970) = FILE_TYPE_RIGHTS := by
      rw [typeOf_cut (by decide) (by decide), hfull]
    have hlen : ((newHeader none).take 3970).length = 3970 := by
      rw [List.length_take, newHeader_length]
      rfl
    have hfile : (noLinks (aReader ((newHeader none).take 3970)).kern.files).file Kernel.aName
        = some (.inode 1 true) := rfl
    have hdata : (aReader ((newHeader none).take 3970)).kern.files.data 1
        = (newHeader none).take 3970 :=
      Kernel.oneDescriptor_data ((newHeader none).take 3970) { acc := .rdonly } 0
    have hsize : ((3970 : Nat) : Int) - (FILE_HEADER_POLL_SIZE : Nat) = -126 := by decide
    rw [hfollow, hseen _ hcut, hfile, Option.map_some, shown, if_pos rfl, lessHeader, Object.stat,
      hdata, hlen, hsize]
  · obtain ⟨w₁, hrun⟩ := hplan cutToNothing 0 ⟨_, List.mem_singleton.mpr rfl, rfl⟩ ⟨_, rfl⟩
    exact ⟨w₁, hrun, by decide⟩
  · have hdata : staleEntry.kern.files.data 1 = zeroed 4112 :=
      Kernel.oneDescriptor_data (zeroed 4112) { acc := .rdonly } 0
    have hsize : mmap_size 3 staleEntry = .ok (4112, { staleEntry with
        kern := staleEntry.kern.tock 1 }) := by
      rw [mmap_size, bind_ok (linker_fstat_opened (w := staleEntry) (fun _ => ⟨rfl, rfl, rfl⟩) 3)]
      show Except.ok ((((staleEntry.kern.files.data 1).length : Nat) : Int), _) = _
      rw [hdata, zeroed_length]
      rfl
    obtain ⟨w₁, hrun⟩ := hplan staleEntry 4112 ⟨_, List.mem_singleton.mpr rfl, rfl⟩ ⟨_, hsize⟩
    exact ⟨w₁, hrun, rfl, rfl⟩

end TeSubtract
