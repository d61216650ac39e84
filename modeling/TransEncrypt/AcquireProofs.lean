import TransEncrypt.RoundTripProofs
import TransEncrypt.OnceProofs

/-! # What an open acquires

    `open_encrypted_calm` and `open_new_calm` say what a new descriptor is.  A process with
    several descriptors also has to know that the other cursors stay where they are, and
    what became of the files.

    * `Acquired`: a new descriptor behind the header, with an entry; no other cursor moved;
    * `acquire_encrypted`, `acquire_new`, `acquire_plain`: the hooked open of a file with a
      header, of a file that is not there, and of a plain file, which it converts. -/

namespace TeAcquire

open Posix Overlay TeHeader Hoare TeProgram TeDetector TeWorker TeRead TeRebuild TeOpen TeRoundTrip

/-! ## Cursors that stay -/

/-- `k'` is `k` after calls that moved no cursor and released no descriptor; files may have
    changed, and descriptions may have come to it. -/
structure Aside (k k' : Kernel) : Prop where
  kept : Kernel.Kept k k'
  below : ∀ id, id < k.nextDesc → k'.desc id = k.desc id
  nextDesc : k.nextDesc ≤ k'.nextDesc

namespace Aside

variable {k k' k'' : Kernel}

theorem trans (h : Aside k k') (h' : Aside k' k'') : Aside k k'' where
  kept := h.kept.trans h'.kept
  below := fun id hid =>
    (h'.below id (Nat.lt_of_lt_of_le hid h.nextDesc)).trans (h.below id hid)
  nextDesc := Nat.le_trans h.nextDesc h'.nextDesc

theorem of_quiet (h : Kernel.Quiet k k') : Aside k k' := ⟨.of_quiet h, h.desc, h.nextDesc⟩

theorem tock (k : Kernel) (n : Nat) : Aside k (k.tock n) := .of_quiet (.tock k n)

theorem setData (k : Kernel) (i : Nat) (bs : List UInt8) : Aside k (k.setData i bs) :=
  ⟨.setData k i bs, fun _ _ => rfl, Nat.le_refl _⟩

theorem of_opened {path : Path} {flags : Flags} {fd : Int} {i : Nat}
    (h : Kernel.Opened k path flags fd i k') : Aside k k' :=
  ⟨h.gained.kept, h.gained.desc, Nat.le_of_lt (k'.find_lt h.gained.find_self)⟩

/-- A cursor that was not there before is moved. -/
theorem setPos (h : Aside k k') {id : Nat} (hid : k.nextDesc ≤ id) (p : Nat) :
    Aside k (k'.setPos id p) where
  kept := h.kept.trans (.setPos k' id p)
  below := fun j hj => (Kernel.setPos_desc_ne _ (Nat.ne_of_lt (Nat.lt_of_lt_of_le hj hid)) p).trans
    (h.below j hj)
  nextDesc := h.nextDesc

/-- A descriptor that was not there before is released. -/
theorem close (h : Aside k k') {fd : Int} (hfd : ¬ k.InUse fd) : Aside k (k'.dropFd fd) where
  kept := by
    refine ⟨fun {fd' id} hf => ?_, h.kept.desc, h.kept.host⟩
    have hne : fd' ≠ fd := fun heq => hfd (heq ▸ k.find_inUse hf)
    rw [Kernel.dropFd_find_ne _ hne]
    exact h.kept.find hf
  below := h.below
  nextDesc := h.nextDesc

end Aside

/-! ## The new descriptor -/

/-- `fd` is a new descriptor on the file `i` of `path`, behind the header and with an entry;
    no other descriptor is disturbed. -/
structure Acquired (w w' : World) (path : Path) (flags : Flags) (fd : Int) (i : Nat) : Prop where
  fresh : ¬ w.kern.InUse fd
  positive : 0 < fd
  handle : ∃ id, w.kern.nextDesc ≤ id ∧ w'.kern.find fd = some id ∧
    w'.kern.desc id = { inode := i, pos := FILE_HEADER_POLL_SIZE, flags := flags }
  aside : Aside w.kern w'.kern
  entry : w'.file_info_list = w.file_info_list ++ [⟨fd, path, some i⟩]
  name : w'.kern.files.names path = some i

/-- What a kernel has acquired that opened a file after calls that left everything alone,
    and then went on with the new descriptor only. -/
theorem acquired_of_opened {w w' : World} {k₁ k₂ : Kernel} {path : Path} {flags : Flags} {fd : Int}
    {i : Nat} (hpos : 0 < fd) (ha : Aside w.kern k₁) (ho : Kernel.Opened k₁ path flags fd i k₂)
    (ha' : Aside w.kern w'.kern) (hfind : w'.kern.find fd = k₂.find fd)
    (hdesc : w'.kern.desc k₁.nextDesc =
      { k₂.desc k₁.nextDesc with pos := FILE_HEADER_POLL_SIZE })
    (hl : w'.file_info_list = w.file_info_list ++ [⟨fd, path, some i⟩])
    (hnames : w'.kern.files.names = k₂.files.names) : Acquired w w' path flags fd i where
  fresh := fun hu => ho.gained.fresh (ha.kept.inUse hu)
  positive := hpos
  handle := ⟨k₁.nextDesc, ha.nextDesc, hfind.trans ho.gained.find_self, by rw [hdesc, ho.desc]⟩
  aside := ha'
  entry := hl
  name := by
    rw [hnames]
    exact ho.name

/-- The end of an open: an entry for the new descriptor, and its cursor moved behind the
    header. -/
def enter (path : Path) (fd : Int) : Sys Int := do
  let origin ← denotes path
  if (← file_info_list_add fd path origin) then do
    let _ ← linker_lseek fd FILE_HEADER_POLL_SIZE .set
    pure fd
  else pure fd

theorem enter_run {w : World} (hc : w.kern.host.Calm) {path : Path} {flags : Flags} {fd : Int}
    {i id : Nat} (hfind : w.kern.find fd = some id)
    (hdesc : w.kern.desc id = { inode := i, pos := 0, flags := flags })
    (hname : w.kern.files.names path = some i) :
    enter path fd w =
      .ok (fd, ⟨(w.kern.tock 2).setPos id FILE_HEADER_POLL_SIZE,
        w.file_info_list ++ [⟨fd, path, some i⟩]⟩) := by
  let k := w.kern
  let l := w.file_info_list ++ [⟨fd, path, some i⟩]
  have hseek : linker_lseek fd FILE_HEADER_POLL_SIZE .set ⟨k.tock 1, l⟩ =
      .ok (((FILE_HEADER_POLL_SIZE : Nat) : Int),
        ⟨(k.tock 2).setPos id FILE_HEADER_POLL_SIZE, l⟩) := by
    apply linker_lseek_ok
    rw [Kernel.sysLseek_calm (k := k.tock 1) hc hfind (by rw [Kernel.tock_desc, hdesc])]
    rfl
  rw [enter, bind_ok (denotes_ok hname), bind_ok (add_calm hc fd path (some i)), if_pos rfl,
    bind_ok hseek]
  rfl

/-- The same, with what is left behind. -/
theorem enter_acquires {w : World} {k₁ k₂ : Kernel} {path : Path} {flags : Flags} {fd : Int}
    {i : Nat} (hc : k₁.host.Calm) (hpos : 0 < fd) (ha : Aside w.kern k₁)
    (ho : Kernel.Opened k₁ path flags fd i k₂) :
    ∃ w', enter path fd { w with kern := k₂ } = .ok (fd, w') ∧
      Acquired w w' path flags fd i ∧ w'.kern.files = k₂.files := by
  have hc₂ : k₂.host.Calm := by
    rw [ho.gained.host]
    exact hc
  refine ⟨_, enter_run (w := { w with kern := k₂ }) hc₂
    ho.gained.find_self ho.desc ho.name, ?_, rfl⟩
  refine acquired_of_opened hpos ha ho ?_ rfl (Kernel.setPos_desc_self ..) rfl rfl
  exact ((ha.trans (.of_opened ho)).trans (.tock k₂ 2)).setPos ha.nextDesc _

section Acquire

variable {dev : Device} {env : Env} {w : World} {path : Path} {flags : Flags} {i : Nat}
  (henv : env.Active) (hc : w.kern.host.Calm) (h0 : w.kern.InUse 0)
  (hsup : dev.is_support_file_type_by_path path ≠ 0) (hfit : Fits path)
include henv hc h0 hsup hfit

/-- **A file with a header.** -/
theorem acquire_encrypted (hname : w.kern.files.names path = some i)
    (hH : HasHeader (w.kern.files.data i)) (hx : (flags.creat && flags.excl) = false)
    (ht : flags.trunc = false) (happ : flags.append = false) :
    ∃ fd w', open_file dev env path flags w = .ok (fd, w') ∧ Acquired w w' path flags fd i ∧
      w'.kern.files = w.kern.files := by
  obtain ⟨k₁, hprobe, hq⟩ := probe_calm hc hname (w.kern.freeFd_pos h0 _)
  rw [if_pos hH] at hprobe
  have hc₁ : k₁.host.Calm := by
    rw [hq.host]
    exact hc
  have hname₁ : k₁.files.names path = some i := by
    rw [hq.files]
    exact hname
  obtain ⟨fd, k₂, hopen, ho, hpos⟩ :=
    linker_open_calm (w := { w with kern := k₁ }) hc₁ hname₁ hx
  have hfd : 0 < fd := hpos (hq.inUse.mpr h0)
  obtain ⟨w', hrun, hacq, hfiles⟩ := enter_acquires (w := w) hc₁ hfd (.of_quiet hq) ho
  refine ⟨fd, w', ?_, hacq, (hfiles.trans (ho.files.same hname₁ ht)).trans hq.files⟩
  rw [open_active henv hsup, open_supported,
    bind_ok (access_ok (w.kern.sysAccess_some (Kernel.answer_denies hc) hname)), if_pos rfl,
    bind_ok hprobe, bind_ok hopen, if_pos hfd, if_neg (fun hne => hne rfl)]
  show open_encrypted path flags ((w.kern.files.data i).take FILE_HEADER_POLL_SIZE) fd _ = _
  rw [open_encrypted, spilled_short hfit.short]
  simp only [if_pos happ]
  exact hrun

/-- **A file that is not there**: it gets a header. -/
theorem acquire_new (hname : w.kern.files.names path = none) (hcr : flags.creat = true)
    (hspecial : dev.is_support_special_file_type_by_path path ≠ 1)
    (hacc : flags.acc.writable = true) :
    ∃ fd w', open_file dev env path flags w = .ok (fd, w') ∧
      Acquired w w' path flags fd w.kern.files.next ∧
      w'.kern.files = (w.kern.files.create path).store w.kern.files.next
        (newHeader dev.get_process_name) := by
  let i := w.kern.files.next
  let H := entryHeader dev.get_process_name path
  let fd := w.kern.freeFd w.kern.answer.hint
  have hfd : 0 < fd := w.kern.freeFd_pos h0 _
  obtain ⟨k₁, hopen, hfiles₁⟩ : ∃ k₁, w.kern.sysOpen path flags = (fd, k₁) ∧
      k₁.files = w.kern.files.create path := ⟨_, Kernel.sysOpen_creat hc hname hcr, rfl⟩
  have ho : Kernel.Opened w.kern path flags fd i k₁ := by
    rcases w.kern.sysOpen_cases path flags with hfail | ⟨j, ho⟩
    · have := (Prod.mk.inj (hopen.symm.trans hfail)).1
      omega
    · rw [hopen] at ho
      have hij : i = j := by
        have hfiles := ho.files
        generalize k₁.files = fs' at hfiles
        cases hfiles with
        | existing h => cases hname.symm.trans h
        | emptied h => cases hname.symm.trans h
        | created _ _ h => exact h.symm
      exact hij ▸ ho
  have hc₁ : k₁.host.Calm := by
    rw [ho.gained.host]
    exact hc
  have hdata₁ : k₁.files.data i = [] := by
    rw [hfiles₁]
    exact FileStore.create_data_self ..
  let l := w.file_info_list ++ [⟨fd, path, some i⟩]
  have hH : H.length = FILE_HEADER_POLL_SIZE := entryHeader_length _ _
  have hp : spilled path H = path := spilled_short hfit.short H
  let k₂ := ((k₁.tock 2).setData i H).setPos w.kern.nextDesc FILE_HEADER_POLL_SIZE
  have hwrite : linker_write fd H ⟨k₁.tock 1, l⟩ =
      .ok (((FILE_HEADER_POLL_SIZE : Nat) : Int), ⟨k₂, l⟩) := by
    apply linker_write_ok
    have htarget : (k₁.tock 1).target { inode := i, pos := 0, flags := flags } 0 = 0 := by
      rw [Kernel.target]
      split
      · show (k₁.files.data i).length = 0
        rw [hdata₁]
        rfl
      · rfl
    rw [Kernel.sysWrite_calm (k := k₁.tock 1) hc₁ ho.gained.find_self
      (by rw [Kernel.tock_desc, ho.desc]) (by rw [Kernel.tock_desc, ho.desc]; exact hacc)
      (List.length_pos_iff.mp (by rw [hH]; decide)), Kernel.tock_desc, ho.desc, htarget, hH,
      Nat.zero_add]
    show (_, ((k₁.tock 2).setData i (overlay 0 (k₁.files.data i) 0 H)).setPos _ _) = _
    rw [overlay_all 0 (by rw [hdata₁]; exact Nat.zero_le _)]
  have haside : Aside w.kern k₂ := (((Aside.of_opened ho).trans (.tock k₁ 2)).trans
    (.setData _ i H)).setPos (Nat.le_refl _) _
  refine ⟨fd, ⟨k₂, l⟩, ?_, acquired_of_opened hfd (.tock w.kern 0) ho haside rfl
    (Kernel.setPos_desc_self ..) rfl rfl, ?_⟩
  · rw [open_active henv hsup, open_supported,
      bind_ok (access_ok (w.kern.sysAccess_none hname)), if_neg (by decide), bind_ok (pure_ok _ _),
      bind_ok (linker_open_ok hopen), if_pos hfd, if_pos (by decide), open_new, if_neg hspecial,
      bind_ok (denotes_ok (w := { w with kern := k₁ }) ho.name),
      hp, bind_ok (add_calm (w := { w with kern := k₁ }) hc₁ fd path (some i)), if_pos rfl,
      bind_ok hwrite, if_neg (fun hne => hne rfl)]
    rfl
  · show k₁.files.store i H = _
    rw [hfiles₁, ← entryHeader_short hfit.short]

/-- A file without a header is opened, closed again and converted; what follows depends on the
    result of the conversion. -/
theorem open_converts (hname : w.kern.files.names path = some i)
    (hnone : w.kern.files.names (get_security_path_by_path path) = none)
    (hH : ¬ HasHeader (w.kern.files.data i)) (hx : (flags.creat && flags.excl) = false)
    (ht : flags.trunc = false) :
    ∃ k, Aside w.kern k ∧ k.files = w.kern.files ∧ k.fds = w.kern.fds ∧
      k.tick = w.kern.tick + 8 ∧ open_file dev env path flags w =
      (rebuild_file_struct dev path (w.kern.files.data i).length >>= fun r =>
        if r = 1 then reopen path flags else linker_open path flags) { w with kern := k } := by
  let C := w.kern.files.data i
  obtain ⟨k₁, hprobe, hq, htick₁⟩ := probe_timed hc hname (w.kern.freeFd_pos h0 _)
  rw [if_neg hH] at hprobe
  have hc₁ : k₁.host.Calm := by
    rw [hq.host]
    exact hc
  have hname₁ : k₁.files.names path = some i := by
    rw [hq.files]
    exact hname
  obtain ⟨fd, k₂, hopen, ho, hfd⟩ := linker_open_calm (w := { w with kern := k₁ }) hc₁ hname₁ hx
  have hfd : 0 < fd := hfd (hq.inUse.mpr h0)
  have hfiles₂ : k₂.files = w.kern.files := (ho.files.same hname₁ ht).trans hq.files
  have hc₂ : k₂.host.Calm := by
    rw [ho.gained.host]
    exact hc₁
  -- the first descriptor is closed, and the size asked for
  let k₃ := ((k₂.tock 1).tock 1).dropFd fd
  have hclose : linker_close fd { w with kern := k₂.tock 1 } = .ok (0, { w with kern := k₃ }) :=
    linker_close_ok (Kernel.sysClose_calm (k := k₂.tock 1) hc₂ ho.gained.find_self)
  have haside₃ : Aside w.kern k₃ := (((Aside.of_quiet hq).trans (.of_opened ho)).trans
    (.tock k₂ 2)).close fun hu => ho.gained.fresh (hq.inUse.mpr hu)
  have hsize : get_file_size_by_path path { w with kern := k₃ } =
      .ok ((C.length : Int), { w with kern := k₃.tock 1 }) := by
    have hname₃ : k₃.files.names path = some i := by
      show k₂.files.names path = some i
      rw [hfiles₂]
      exact hname
    rw [TeOnce.file_size_calm (w := { w with kern := k₃ }) hc₂ hname₃]
    show Except.ok (((k₂.files.data i).length : Int), _) = _
    rw [hfiles₂]
  have haccess : (k₂.tock 1).sysAccess (get_security_path_by_path path) = -1 := by
    apply Kernel.sysAccess_none
    show k₂.files.names _ = none
    rw [hfiles₂]
    exact hnone
  have htick₂ : k₂.tick = k₁.tick + 1 := by
    have hrun : linker_open path flags { w with kern := k₁ } =
        .ok ((k₁.sysOpen path flags).1, { w with kern := (k₁.sysOpen path flags).2 }) :=
      linker_open_ok rfl
    have heq := congrArg World.kern (Prod.mk.inj (Except.ok.inj (hrun.symm.trans hopen))).2
    rw [← k₁.sysOpen_tick path flags]
    exact congrArg Kernel.tick heq.symm
  refine ⟨k₃.tock 1, haside₃.trans (.tock k₃ 1), hfiles₂, ?_, ?_, ?_⟩
  · show (k₂.dropFd fd).fds = w.kern.fds
    rw [ho.gained.dropFd_fds, hq.fds]
  · show k₂.tick + 1 + 1 + 1 = w.kern.tick + 8
    omega
  rw [open_active henv hsup, open_supported,
    bind_ok (access_ok (w.kern.sysAccess_some (Kernel.answer_denies hc) hname)), if_pos rfl,
    bind_ok hprobe, bind_ok hopen, if_pos hfd, if_neg (fun hne => hne rfl)]
  show open_plain dev path flags fd _ = _
  rw [open_plain, convert_plain, bind_assoc,
    bind_ok (calloc_calm (w := { w with kern := k₂ }) hc₂), if_pos rfl,
    if_neg (not_not_intro hfit), bind_assoc,
    bind_ok (access_ok (w := { w with kern := k₂.tock 1 }) haccess), if_pos (by decide),
    bind_assoc, bind_ok hclose, bind_assoc, bind_ok hsize, bind_assoc]
  refine congrFun (congrArg (rebuild_file_struct dev path C.length >>= ·) (funext fun r => ?_)) _
  by_cases hr : r = 1
  · rw [if_pos hr, hr]
    rfl
  · have hfalse : (r == 1) = false := beq_eq_false_iff_ne.mpr hr
    rw [if_neg hr, hfalse]
    rfl

omit henv h0 hsup hc hfit in
/-- The second open, of a file that has been converted. -/
theorem reopen_acquires {u : World} (ha : Aside w.kern u.kern) (hl : u.file_info_list =
    w.file_info_list) (hc : u.kern.host.Calm) (h0 : u.kern.InUse 0)
    (hname : u.kern.files.names path = some i) (hx : (flags.creat && flags.excl) = false)
    (ht : flags.trunc = false) : ∃ fd w', reopen path flags u = .ok (fd, w') ∧
      Acquired w w' path flags fd i ∧ w'.kern.files = u.kern.files := by
  obtain ⟨fd, k, hopen, ho, hfd⟩ := linker_open_calm (w := u) hc hname hx
  obtain ⟨w', hrun, hacq, hfiles⟩ := enter_acquires (w := w) hc (hfd h0) ha ho
  refine ⟨fd, w', ?_, hacq, hfiles.trans (ho.files.same hname ht)⟩
  rw [reopen, bind_ok hopen]
  rw [← hl] at hrun
  exact hrun

/-- **A plain file** that one buffer holds: it is converted, and opened again. -/
theorem acquire_plain (hpath : path ≠ []) (hname : w.kern.files.names path = some i)
    (hnone : w.kern.files.names (get_security_path_by_path path) = none)
    (hH : ¬ HasHeader (w.kern.files.data i)) (hpos : 0 < (w.kern.files.data i).length)
    (hsmall : (w.kern.files.data i).length ≤ 4096 * THREADS_COUNT)
    (hx : (flags.creat && flags.excl) = false) (ht : flags.trunc = false) :
    ∃ fd w', open_file dev env path flags w = .ok (fd, w') ∧ Acquired w w' path flags fd i ∧
      w'.kern.files = w.kern.files.store i (converted dev (w.kern.files.data i)) := by
  let C := w.kern.files.data i
  obtain ⟨k, haside, hfiles, -, -, hopen⟩ := open_converts henv hc h0 hsup hfit hname hnone hH hx ht
  have hc' : k.host.Calm := by
    rw [haside.kept.host]
    exact hc
  have hname' : k.files.names path = some i := by
    rw [hfiles]
    exact hname
  have hdata' : k.files.data i = C := by rw [hfiles]
  obtain ⟨k', hrebuild, hq⟩ := @rebuild_small_run dev { w with kern := k } path i C hc'
    (haside.kept.inUse h0) hpath hname' hdata' hpos hsmall
  have hfiles' : k'.files = w.kern.files.store i (converted dev C) := by
    rw [hq.files]
    show k.files.store i _ = _
    rw [hfiles]
  have haside' : Aside w.kern k' :=
    (haside.trans (.setData _ i (converted dev C))).trans (.of_quiet hq)
  obtain ⟨fd, w', hrun, hacq, hsame⟩ := reopen_acquires (w := w) (u := { w with kern := k' })
    (i := i) haside' rfl (by
      rw [haside'.kept.host]
      exact hc) (haside'.kept.inUse h0) (by
      rw [hfiles']
      exact hname) hx ht
  refine ⟨fd, w', ?_, hacq, hsame.trans hfiles'⟩
  rw [hopen, bind_ok hrebuild, if_pos rfl]
  exact hrun

end Acquire

end TeAcquire
