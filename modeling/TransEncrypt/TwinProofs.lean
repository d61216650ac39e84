import TransEncrypt.SizeProofs
import TransEncrypt.WriteProofs

/-! # Twin processes — the numbers of descriptors do not matter

    Two kernels with the same files, the same script and the same clock, in which the
    descriptors of a list of pairs denote the same descriptions, answer every call on a
    pair alike.  The numbers that `open` and `dup` hand out may differ; the hooks only ask
    whether they are positive.

    * `Twin` at the calls, `Alike` at the programs: one rule for each call;
    * `agree_read`, `agree_write`, `agree_lseek`: the hooks return the same and leave
      twins behind. -/

namespace TeTwin

open Posix Posix.Kernel Overlay TeHeader Hoare TeProgram TeDetector TeRead TeStored TeWrite
open TeSize

/-! ## Kernels -/

/-- Files, script and clock are the same, and the two descriptors of every pair in `T`
    denote the same description; no descriptor is in two pairs.  With `z`, number 0 is in
    use in both or in neither, and is paired with itself. -/
structure Twin (z : Prop) (T : List (Int × Int)) (k k' : Kernel) : Prop where
  files : k'.files = k.files
  host : k'.host = k.host
  tick : k'.tick = k.tick
  nextDesc : k'.nextDesc = k.nextDesc
  paired : ∀ p ∈ T, ∃ id, k.find p.1 = some id ∧ k'.find p.2 = some id ∧
    k'.desc id = k.desc id
  apart : T.Pairwise (fun p q => p.1 ≠ q.1 ∧ p.2 ≠ q.2)
  zero : z → ((k'.InUse 0 ↔ k.InUse 0) ∧ ∀ p ∈ T, p.1 = 0 ↔ p.2 = 0)

namespace Twin

variable {z : Prop} {T : List (Int × Int)} {k k' : Kernel} (h : Twin z T k k')
include h

theorem answer : k'.answer = k.answer := by
  rw [Kernel.answer, Kernel.answer, h.host, h.tick]

theorem tock (n : Nat) : Twin z T (k.tock n) (k'.tock n) where
  files := h.files
  host := h.host
  tick := congrArg (· + n) h.tick
  nextDesc := h.nextDesc
  paired := h.paired
  apart := h.apart
  zero := h.zero

theorem setPos (id pos : Nat) : Twin z T (k.setPos id pos) (k'.setPos id pos) where
  files := h.files
  host := h.host
  tick := h.tick
  nextDesc := h.nextDesc
  paired := by
    intro p hp
    obtain ⟨j, hf, hf', hd⟩ := h.paired p hp
    refine ⟨j, hf, hf', ?_⟩
    by_cases hj : j = id
    · rw [← hj, setPos_desc_self, setPos_desc_self, hd]
    · rw [setPos_desc_ne _ hj, setPos_desc_ne _ hj, hd]
  apart := h.apart
  zero := h.zero

theorem setData (i : Nat) (bs : List UInt8) : Twin z T (k.setData i bs) (k'.setData i bs) where
  files := by rw [setData_files, setData_files, h.files]
  host := h.host
  tick := h.tick
  nextDesc := h.nextDesc
  paired := h.paired
  apart := h.apart
  zero := h.zero

theorem target (d : Desc) (off : Nat) : k'.target d off = k.target d off := by
  rw [Kernel.target, Kernel.target, h.files]

theorem seekBase (d : Desc) (whence : Whence) : k'.seekBase d whence = k.seekBase d whence := by
  cases whence with
  | set => rfl
  | cur => rfl
  | fin =>
      show ((k'.files.data d.inode).length : Int) = (k.files.data d.inode).length
      rw [h.files]

omit h in
/-- Fewer pairs. -/
theorem forget {p : Int × Int} (h : Twin z (p :: T) k k') : Twin z T k k' where
  files := h.files
  host := h.host
  tick := h.tick
  nextDesc := h.nextDesc
  paired := fun q hq => h.paired q (List.mem_cons_of_mem _ hq)
  apart := (List.pairwise_cons.mp h.apart).2
  zero := fun hz => ⟨(h.zero hz).1, fun q hq => (h.zero hz).2 q (List.mem_cons_of_mem _ hq)⟩

/-! ### The calls -/

section Calls

variable {fd fd' : Int} (hm : (fd, fd') ∈ T)
include hm

theorem read (n : Nat) : (k'.sysRead fd' n).1 = (k.sysRead fd n).1 ∧
    Twin z T (k.sysRead fd n).2 (k'.sysRead fd' n).2 := by
  obtain ⟨id, hf, hf', hd⟩ := h.paired _ hm
  simp only [sysRead, hf, hf', hd, h.answer, h.files]
  split
  · exact ⟨rfl, h.tock 1⟩
  · split
    · exact ⟨rfl, (h.tock 1).setPos id _⟩
    · exact ⟨rfl, h.tock 1⟩

theorem pread (n : Nat) (off : Int) : (k'.sysPread fd' n off).1 = (k.sysPread fd n off).1 ∧
    Twin z T (k.sysPread fd n off).2 (k'.sysPread fd' n off).2 := by
  obtain ⟨id, hf, hf', hd⟩ := h.paired _ hm
  simp only [sysPread, hf, hf', hd, h.answer, h.files]
  split
  · exact ⟨rfl, h.tock 1⟩
  · exact ⟨rfl, h.tock 1⟩

theorem write (bs : List UInt8) : (k'.sysWrite fd' bs).1 = (k.sysWrite fd bs).1 ∧
    Twin z T (k.sysWrite fd bs).2 (k'.sysWrite fd' bs).2 := by
  obtain ⟨id, hf, hf', hd⟩ := h.paired _ hm
  simp only [sysWrite, hf, hf', hd, h.answer, h.files, h.target]
  split
  · exact ⟨rfl, h.tock 1⟩
  · split
    · exact ⟨rfl, h.tock 1⟩
    · split
      · exact ⟨rfl, ((h.tock 1).setData _ _).setPos id _⟩
      · exact ⟨rfl, h.tock 1⟩

theorem pwrite (bs : List UInt8) (off : Int) :
    (k'.sysPwrite fd' bs off).1 = (k.sysPwrite fd bs off).1 ∧
    Twin z T (k.sysPwrite fd bs off).2 (k'.sysPwrite fd' bs off).2 := by
  obtain ⟨id, hf, hf', hd⟩ := h.paired _ hm
  simp only [sysPwrite, hf, hf', hd, h.answer, h.files, h.target]
  split
  · exact ⟨rfl, h.tock 1⟩
  · exact ⟨rfl, (h.tock 1).setData _ _⟩

theorem lseek (off : Int) (whence : Whence) :
    (k'.sysLseek fd' off whence).1 = (k.sysLseek fd off whence).1 ∧
    Twin z T (k.sysLseek fd off whence).2 (k'.sysLseek fd' off whence).2 := by
  obtain ⟨id, hf, hf', hd⟩ := h.paired _ hm
  simp only [sysLseek, hf, hf', hd, h.answer, h.seekBase]
  split
  · exact ⟨rfl, h.tock 1⟩
  · exact ⟨rfl, (h.tock 1).setPos id _⟩

theorem fstat : (k'.sysFstat fd').1 = (k.sysFstat fd).1 ∧
    Twin z T (k.sysFstat fd).2 (k'.sysFstat fd').2 := by
  obtain ⟨id, hf, hf', hd⟩ := h.paired _ hm
  simp only [sysFstat, hf, hf', hd, h.answer, h.files]
  split
  · exact ⟨rfl, h.tock 1⟩
  · exact ⟨rfl, h.tock 1⟩

theorem getfl : k'.sysGetfl fd' = k.sysGetfl fd := by
  obtain ⟨id, hf, hf', hd⟩ := h.paired _ hm
  rw [sysGetfl_some _ hf, sysGetfl_some _ hf', hd]

end Calls

/-- A new descriptor for a description that both have makes a new pair. -/
theorem bind {hint id : Nat} (hid : id < k.nextDesc) (hid' : id < k'.nextDesc)
    (hd : k'.desc id = k.desc id) :
    Twin z ((k.freeFd hint, k'.freeFd hint) :: T) (k.bindFd hint id hid)
      (k'.bindFd hint id hid') where
  files := h.files
  host := h.host
  tick := h.tick
  nextDesc := h.nextDesc
  paired := by
    intro p hp
    rcases List.mem_cons.mp hp with rfl | hp
    · exact ⟨id, bindFd_find_self, bindFd_find_self, hd⟩
    · obtain ⟨j, hf, hf', hdj⟩ := h.paired p hp
      exact ⟨j, bindFd_find_some hf, bindFd_find_some hf', hdj⟩
  apart := by
    refine List.pairwise_cons.mpr ⟨fun p hp => ?_, h.apart⟩
    obtain ⟨j, hf, hf', -⟩ := h.paired p hp
    refine ⟨fun heq => k.freeFd_not_inUse hint ?_, fun heq => k'.freeFd_not_inUse hint ?_⟩
    · rw [show k.freeFd hint = p.1 from heq]
      exact k.find_inUse hf
    · rw [show k'.freeFd hint = p.2 from heq]
      exact k'.find_inUse hf'
  zero := by
    intro hz
    obtain ⟨hin, hpairs⟩ := h.zero hz
    have hnew : k.freeFd hint = 0 ↔ k'.freeFd hint = 0 := by
      rw [freeFd_eq_zero, freeFd_eq_zero, hin]
    refine ⟨?_, fun p hp => ?_⟩
    · show (0 : Int) ∈ ((k'.freeFd hint, id) :: k'.fds).map Prod.fst ↔
        (0 : Int) ∈ ((k.freeFd hint, id) :: k.fds).map Prod.fst
      rw [List.map_cons, List.map_cons, List.mem_cons, List.mem_cons]
      exact or_congr ⟨fun h0 => (hnew.mpr h0.symm).symm, fun h0 => (hnew.mp h0.symm).symm⟩ hin
    · rcases List.mem_cons.mp hp with rfl | hp
      · exact hnew
      · exact hpairs p hp

theorem install {hint i : Nat} {fl : Flags} (hi : i < k.files.next) (hi' : i < k'.files.next) :
    Twin z (((k.install hint i fl hi).1, (k'.install hint i fl hi').1) :: T)
      (k.install hint i fl hi).2 (k'.install hint i fl hi').2 := by
  have hdescs : Twin z T (k.newDesc i fl hi) (k'.newDesc i fl hi') := by
    refine ⟨h.files, h.host, h.tick, congrArg (· + 1) h.nextDesc, fun p hp => ?_, h.apart, h.zero⟩
    obtain ⟨j, hf, hf', hd⟩ := h.paired p hp
    refine ⟨j, hf, hf', ?_⟩
    rw [newDesc_desc_lt _ _ _ _ (k.find_lt hf), newDesc_desc_lt _ _ _ _ (k'.find_lt hf'), hd]
  have hlt : k.nextDesc < (k'.newDesc i fl hi').nextDesc := by
    rw [newDesc_nextDesc, h.nextDesc]
    exact Nat.lt_succ_self _
  have hnew : (k'.newDesc i fl hi').desc k.nextDesc = (k.newDesc i fl hi).desc k.nextDesc := by
    rw [newDesc_desc_self, ← h.nextDesc, newDesc_desc_self]
  have hsame : (k'.install hint i fl hi').2 = (k'.newDesc i fl hi').bindFd hint k.nextDesc hlt := by
    simp only [Kernel.install, h.nextDesc]
  rw [hsame]
  exact hdescs.bind (Nat.lt_succ_self _) hlt hnew

omit h in
/-- Both calls failed, or both gave a descriptor. -/
def Gives (z : Prop) (T : List (Int × Int)) (r r' : Int × Kernel) : Prop :=
  (r.1 = -1 ∧ r'.1 = -1 ∧ Twin z T r.2 r'.2) ∨ Twin z ((r.1, r'.1) :: T) r.2 r'.2

theorem opens (p : Path) (fl : Flags) : Gives z T (k.sysOpen p fl) (k'.sysOpen p fl) := by
  have hnames : k'.files.names p = k.files.names p := by rw [h.files]
  rw [sysOpen, sysOpen, h.answer]
  by_cases hfails : k.answer.fails = true
  · rw [if_pos hfails, if_pos hfails]
    exact .inl ⟨rfl, rfl, h.tock 1⟩
  rw [if_neg hfails, if_neg hfails]
  cases hname : k.files.names p with
  | none =>
      rw [k.files.handle_none hname, k'.files.handle_none (hnames.trans hname)]
      by_cases hcr : fl.creat = true
      · simp only [if_pos hcr]
        have hnext : k'.files.next = k.files.next := by rw [h.files]
        have hcreate : k'.files.create p = k.files.create p := by rw [h.files]
        have hfiles : Twin z T ((k.tock 1).setFiles (k.files.create p) (Nat.le_succ _))
            ((k'.tock 1).setFiles (k'.files.create p) (Nat.le_succ _)) := by
          refine ⟨hcreate, h.host, congrArg (· + 1) h.tick, h.nextDesc, h.paired, h.apart, h.zero⟩
        simp only [hnext]
        exact .inr (hfiles.install _ _)
      · simp only [if_neg hcr]
        exact .inl ⟨rfl, rfl, h.tock 1⟩
  | some i =>
      rw [k.files.handle_some hname, k'.files.handle_some (hnames.trans hname)]
      by_cases hx : (fl.creat && fl.excl) = true
      · simp only [if_pos hx]
        exact .inl ⟨rfl, rfl, h.tock 1⟩
      · simp only [if_neg hx]
        by_cases ht : fl.trunc = true
        · simp only [if_pos ht]
          exact .inr (((h.tock 1).setData i []).install _ _)
        · simp only [if_neg ht]
          exact .inr ((h.tock 1).install _ _)

theorem dup {fd fd' : Int} (hm : (fd, fd') ∈ T) : Gives z T (k.sysDup fd) (k'.sysDup fd') := by
  obtain ⟨id, hf, hf', hd⟩ := h.paired _ hm
  have hrun : ∀ (j : Kernel) (e : Int) (hj : j.find e = some id), j.sysDup e =
      if j.answer.fails then (-1, j.tock 1)
      else (j.freeFd j.answer.hint, (j.tock 1).bindFd j.answer.hint id (j.find_lt hj)) := by
    intro j e hj
    unfold sysDup
    split
    · rename_i hnone
      cases hj.symm.trans hnone
    · rename_i id' hsome
      obtain rfl : id = id' := Option.some.inj (hj.symm.trans hsome)
      rfl
  rw [hrun k fd hf, hrun k' fd' hf', h.answer]
  by_cases hfails : k.answer.fails = true
  · rw [if_pos hfails, if_pos hfails]
    exact .inl ⟨rfl, rfl, h.tock 1⟩
  · rw [if_neg hfails, if_neg hfails]
    exact .inr ((h.tock 1).bind (k.find_lt hf) (k'.find_lt hf') hd)

omit h in
theorem close {fd fd' : Int} (h : Twin z ((fd, fd') :: T) k k') :
    (k'.sysClose fd').1 = (k.sysClose fd).1 ∧ Twin z T (k.sysClose fd).2 (k'.sysClose fd').2 := by
  obtain ⟨id, hf, hf', -⟩ := h.paired (fd, fd') (List.mem_cons_self ..)
  obtain ⟨hother, hapart⟩ := List.pairwise_cons.mp h.apart
  have hf : k.find fd = some id := hf
  have hf' : k'.find fd' = some id := hf'
  simp only [sysClose, hf, hf', h.answer]
  refine ⟨trivial, h.files, h.host, congrArg (· + 1) h.tick, h.nextDesc, fun p hp => ?_, hapart,
    fun hz => ?_⟩
  · obtain ⟨j, hj, hj', hd⟩ := h.paired p (List.mem_cons_of_mem _ hp)
    obtain ⟨hne, hne'⟩ := hother p hp
    refine ⟨j, ?_, ?_, hd⟩
    · rw [dropFd_find_ne _ (Ne.symm hne)]
      exact hj
    · rw [dropFd_find_ne _ (Ne.symm hne')]
      exact hj'
  · obtain ⟨hin, hpairs⟩ := h.zero hz
    have hclosed : fd = 0 ↔ fd' = 0 := hpairs (fd, fd') (List.mem_cons_self ..)
    refine ⟨?_, fun p hp => hpairs p (List.mem_cons_of_mem _ hp)⟩
    rw [dropFd_inUse, dropFd_inUse]
    exact and_congr hin (not_congr ⟨fun h0 => (hclosed.mpr h0.symm).symm,
      fun h0 => (hclosed.mp h0.symm).symm⟩)

end Twin

/-! ## Programs -/

/-- Twin kernels, and both tables answer `info` for the descriptor `e`. -/
structure Alike (z : Prop) (e : Int) (info : Option FileInfo) (T : List (Int × Int))
    (u v : World) : Prop where
  twin : Twin z T u.kern v.kern
  entry : u.file_info_list.find? (fun i => i.file_descriptor = e) = info
  entry' : v.file_info_list.find? (fun i => i.file_descriptor = e) = info

/-- The same value, and twins again. -/
abbrev Same {α : Type} (z : Prop) (e : Int) (info : Option FileInfo) (T : List (Int × Int)) :
    α → α → World → World → Prop :=
  fun a b u v => b = a ∧ Alike z e info T u v

section Rules

variable {α : Type} {z : Prop} {e fd fd' : Int} {info : Option FileInfo}
  {T : List (Int × Int)}

theorem agree_call {f g : Kernel → α × Kernel}
    (h : ∀ {k k'}, Twin z T k k' → (g k').1 = (f k).1 ∧ Twin z T (f k).2 (g k').2) :
    Agree (Alike z e info T) (kernelCall f) (kernelCall g) (Same z e info T) := by
  intro u v hR
  obtain ⟨hval, htwin⟩ := h hR.twin
  exact .inl ⟨_, _, _, _, rfl, rfl, hval, htwin, hR.entry, hR.entry'⟩

theorem agree_pure (a : α) : Agree (Alike z e info T) (pure a : Sys α) (pure a) (Same z e info T) :=
  .pure fun _ _ h => ⟨rfl, h⟩

/-- Going on after a call with the same result. -/
theorem agree_bind {β : Type} {x y : Sys α} {f g : α → Sys β}
    {Q : β → β → World → World → Prop} (hx : Agree (Alike z e info T) x y (Same z e info T))
    (hf : ∀ a, Agree (Alike z e info T) (f a) (g a) Q) :
    Agree (Alike z e info T) (x >>= f) (y >>= g) Q :=
  hx.bind fun a _ => .under fun hab => hab ▸ hf a

theorem agree_calloc : Agree (Alike z e info T) calloc calloc (Same z e info T) :=
  agree_call fun h => ⟨by rw [h.answer], h.tock 1⟩

theorem agree_query : Agree (Alike z e info T) (file_info_list_query_by_fd e)
    (file_info_list_query_by_fd e) (fun a b u v => a = info ∧ b = info ∧ Alike z e info T u v) :=
  fun _ _ h => .inl ⟨_, _, _, _, rfl, rfl, h.entry, h.entry', h⟩

/-- Going on with what the table says. -/
theorem agree_lookup {β : Type} {f : Option FileInfo → Sys β} {Q : β → β → World → World → Prop}
    (hf : Agree (Alike z e info T) (f info) (f info) Q) :
    Agree (Alike z e info T) (file_info_list_query_by_fd e >>= f)
      (file_info_list_query_by_fd e >>= f) Q := by
  refine agree_query.bind fun a b => .under fun ha => .under fun hb => ?_
  rw [ha, hb]
  exact hf

section Pair

variable (hm : (fd, fd') ∈ T)
include hm

theorem agree_read_raw (n : Nat) :
    Agree (Alike z e info T) (linker_read fd n) (linker_read fd' n) (Same z e info T) :=
  agree_call fun h => h.read hm n

theorem agree_pread (n : Nat) (off : Int) :
    Agree (Alike z e info T) (linker_pread fd n off) (linker_pread fd' n off) (Same z e info T) :=
  agree_call fun h => h.pread hm n off

theorem agree_write_raw (bs : List UInt8) :
    Agree (Alike z e info T) (linker_write fd bs) (linker_write fd' bs) (Same z e info T) :=
  agree_call fun h => h.write hm bs

theorem agree_pwrite (bs : List UInt8) (off : Int) :
    Agree (Alike z e info T) (linker_pwrite fd bs off) (linker_pwrite fd' bs off)
      (Same z e info T) :=
  agree_call fun h => h.pwrite hm bs off

theorem agree_lseek_raw (off : Int) (whence : Whence) :
    Agree (Alike z e info T) (linker_lseek fd off whence) (linker_lseek fd' off whence)
      (Same z e info T) :=
  agree_call fun h => h.lseek hm off whence

theorem agree_fstat :
    Agree (Alike z e info T) (linker_fstat fd) (linker_fstat fd') (Same z e info T) :=
  agree_call fun h => h.fstat hm

theorem agree_getfl :
    Agree (Alike z e info T) (fcntl_getfl fd) (fcntl_getfl fd') (Same z e info T) :=
  agree_call fun h => ⟨h.getfl hm, h⟩

end Pair

/-- The two results of an `open` or `dup`: -1 on both sides, or a new pair. -/
def Paired (z : Prop) (e : Int) (info : Option FileInfo) (T : List (Int × Int)) (r r' : Int)
    (u v : World) : Prop :=
  (r = -1 ∧ r' = -1 ∧ Alike z e info T u v) ∨ Alike z e info ((r, r') :: T) u v

theorem agree_gives {f g : Kernel → Int × Kernel}
    (h : ∀ {k k'}, Twin z T k k' → Twin.Gives z T (f k) (g k')) :
    Agree (Alike z e info T) (kernelCall f) (kernelCall g) (Paired z e info T) := by
  intro u v hR
  refine .inl ⟨_, _, _, _, rfl, rfl, ?_⟩
  rcases h hR.twin with ⟨hr, hr', htwin⟩ | htwin
  · exact .inl ⟨hr, hr', htwin, hR.entry, hR.entry'⟩
  · exact .inr ⟨htwin, hR.entry, hR.entry'⟩

theorem agree_open (path : Path) (fl : Flags) : Agree (Alike z e info T) (linker_open path fl)
    (linker_open path fl) (Paired z e info T) := agree_gives fun h => h.opens path fl

theorem agree_dup (hm : (fd, fd') ∈ T) : Agree (Alike z e info T) (linker_dup fd) (linker_dup fd')
    (Paired z e info T) := agree_gives fun h => h.dup hm

theorem agree_close : Agree (Alike z e info ((fd, fd') :: T)) (linker_close fd) (linker_close fd')
    (Same z e info T) := by
  intro u v hR
  obtain ⟨hval, htwin⟩ := hR.twin.close
  exact .inl ⟨_, _, _, _, rfl, rfl, hval, htwin, hR.entry, hR.entry'⟩

/-- Both numbers are positive, or neither is. -/
theorem Alike.positive {u v : World} (h : Alike True e info ((fd, fd') :: T) u v) :
    fd > 0 ↔ fd' > 0 := by
  obtain ⟨id, hf, hf', -⟩ := h.twin.paired (fd, fd') (List.mem_cons_self ..)
  have h0 : fd = 0 ↔ fd' = 0 := (h.twin.zero trivial).2 (fd, fd') (List.mem_cons_self ..)
  have h1 : 0 ≤ fd := u.kern.find_nonneg hf
  have h2 : 0 ≤ fd' := v.kern.find_nonneg hf'
  omega

end Rules

/-! ## The hooks -/

section Hooks

variable {z : Prop} {e : Int} {info : Option FileInfo} {T : List (Int × Int)} (hm : (e, e) ∈ T)
include hm

/-- The probe of a descriptor, when the numbers are positive on both sides alike. -/
theorem agree_is_encrypted_by_fd :
    Agree (Alike True e info T) (is_encrypted_by_fd e) (is_encrypted_by_fd e)
      (Same True e info T) := by
  refine agree_bind (agree_getfl hm) fun fl => ?_
  cases fl with
  | none => exact agree_pure _
  | some fl =>
      refine .ite .rfl (agree_pure _) ((agree_dup hm).bind fun r r' => ?_)
      intro u v hR
      rcases hR with ⟨rfl, rfl, hR⟩ | hR
      · exact agree_pure _ hR
      · refine Agree.ite (R := Alike True e info ((r, r') :: T)) hR.positive ?_ ?_ hR
        · exact agree_bind (agree_pread (List.mem_cons_self ..) _ _) fun _ =>
            agree_close.bind fun _ _ => .under fun _ => agree_pure _
        · exact .pure fun _ _ h => ⟨rfl, h.twin.forget, h.entry, h.entry'⟩

theorem agree_passes_through :
    Agree (Alike True e info T) (passes_through e) (passes_through e) (Same True e info T) := by
  refine agree_lookup ?_
  cases info with
  | some info => exact agree_pure _
  | none => exact agree_bind (agree_is_encrypted_by_fd hm) fun _ => agree_pure _

omit hm in
/-- A descriptor with an entry is not probed. -/
theorem agree_tracked (fi : FileInfo) : Agree (Alike z e (some fi) T) (passes_through e)
    (passes_through e) (Same z e (some fi) T) := agree_lookup (agree_pure _)

theorem agree_read_pieces (dev : Device) (n : Nat) (offset : Int) :
    Agree (Alike z e info T) (read_pieces dev e n offset) (read_pieces dev e n offset)
      (Same z e info T) := by
  refine .ite .rfl (.stop _) (agree_bind agree_calloc fun b => .ite .rfl ?_ (.stop _))
  refine agree_bind (agree_pread hm _ _) fun r1 => agree_bind (agree_read_raw hm n) fun r2 =>
    agree_bind (agree_pread hm _ _) fun r3 => ?_
  exact .ite .rfl (.ite .rfl (.stop _) (agree_pure _)) (agree_pure _)

theorem agree_read_decrypted (dev : Device) (n : Nat) :
    Agree (Alike z e info T) (read_decrypted dev e n) (read_decrypted dev e n) (Same z e info T) :=
  agree_bind (agree_lseek_raw hm _ _) fun _ => .ite .rfl
    (agree_bind (agree_lseek_raw hm _ _) fun _ => agree_read_pieces hm dev n _)
    (agree_read_pieces hm dev n _)

/-- The hooked read, over a test that agrees. -/
theorem agree_read {dev : Device} {env : Env} (henv : env.Active)
    (hpass : Agree (Alike z e info T) (passes_through e) (passes_through e)
      (Same z e info T)) (n : Nat) :
    Agree (Alike z e info T) (read dev env e n) (read dev env e n) (Same z e info T) := by
  rw [TeRead.read, hooked_active henv]
  refine agree_bind agree_calloc fun b => .ite .rfl ?_ (agree_read_raw hm n)
  refine agree_bind (agree_fstat hm) fun state => ?_
  cases state with
  | none => exact agree_read_raw hm n
  | some state =>
      exact .ite .rfl (agree_read_raw hm n) (agree_bind hpass fun _ => .ite .rfl
        (agree_read_raw hm n) (agree_read_decrypted hm dev n))

theorem agree_lseek {env : Env} (henv : env.Active)
    (hpass : Agree (Alike z e info T) (passes_through e) (passes_through e) (Same z e info T))
    (o : Int) (whence : Whence) :
    Agree (Alike z e info T) (lseek env e o whence) (lseek env e o whence) (Same z e info T) := by
  rw [lseek, seek_by, hooked_active henv]
  exact agree_bind hpass fun _ => .ite .rfl (agree_lseek_raw hm _ _)
    (agree_bind (agree_lseek_raw hm _ _) fun _ => agree_pure _)

omit hm in
/-- Reading through a descriptor that has just been opened, or could not be. -/
private theorem agree_pread_opened {r r' : Int} (n : Nat) (off : Int) :
    Agree (Paired z e info T r r') (linker_pread r n off) (linker_pread r' n off)
      (fun a b u v => b = a ∧ Paired z e info T r r' u v) := by
  intro u v hR
  rcases hR with ⟨rfl, rfl, hR⟩ | hR
  · have hcall : Agree (Alike z e info T) (linker_pread (-1) n off) (linker_pread (-1) n off)
        (Same z e info T) := agree_call fun {k k'} h => by
      simp only [sysPread, Kernel.find_failed]
      exact ⟨trivial, h.tock 1⟩
    exact hcall.weaken (fun a b s t hs => ⟨hs.1, .inl ⟨rfl, rfl, hs.2⟩⟩) hR
  · exact (agree_pread (List.mem_cons_self ..) n off).weaken
      (fun a b s t hs => ⟨hs.1, .inr hs.2⟩) hR

private theorem agree_pwrite_opened {r r' : Int} (bs : List UInt8) (off : Int) :
    Agree (Paired z e info T r r') (linker_pwrite e bs off) (linker_pwrite e bs off)
      (fun a b u v => b = a ∧ Paired z e info T r r' u v) := by
  intro u v hR
  rcases hR with ⟨rfl, rfl, hR⟩ | hR
  · exact (agree_pwrite hm bs off).weaken (fun a b s t hs => ⟨hs.1, .inl ⟨rfl, rfl, hs.2⟩⟩) hR
  · exact (agree_pwrite (List.mem_cons_of_mem _ hm) bs off).weaken
      (fun a b s t hs => ⟨hs.1, .inr hs.2⟩) hR

omit hm in
private theorem agree_close_opened {r r' : Int} :
    Agree (Paired z e info T r r') (linker_close r) (linker_close r') (Same z e info T) := by
  intro u v hR
  rcases hR with ⟨rfl, rfl, hR⟩ | hR
  · have hcall : Agree (Alike z e info T) (linker_close (-1)) (linker_close (-1))
        (Same z e info T) := agree_call fun {k k'} h => by
      simp only [sysClose, Kernel.find_failed]
      exact ⟨trivial, h.tock 1⟩
    exact hcall hR
  · exact agree_close hR

theorem agree_write_encrypted (dev : Device) (b : List UInt8) (offset : Int) :
    Agree (Alike z e info T) (write_encrypted dev e b offset) (write_encrypted dev e b offset)
      (Same z e info T) := by
  refine agree_lookup ?_
  cases info with
  | none => exact .stop _
  | some fi =>
      refine (agree_open fi.file_path { acc := .rdwr }).bind fun r r' => .ite .rfl (.stop _) ?_
      refine (agree_pread_opened _ _).bind fun a _ => .under fun hab => hab ▸ ?_
      refine (agree_pwrite_opened hm _ _).bind fun _ _ => .under fun _ => ?_
      exact agree_close_opened.bind fun _ _ => .under fun _ => agree_write_raw hm _

theorem agree_write {dev : Device} {env : Env} (henv : env.Active) (b : List UInt8) :
    Agree (Alike z e info T) (write dev env e b) (write dev env e b) (Same z e info T) := by
  rw [write, hooked_active henv]
  refine .ite .rfl (agree_bind (agree_lseek_raw hm _ _) fun _ => agree_bind agree_calloc
    fun _ => .ite .rfl (agree_write_encrypted hm dev b _) (agree_pure _)) (agree_write_raw hm b)

end Hooks

end TeTwin
