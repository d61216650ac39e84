import TransEncrypt.DescriptionProofs

/-! # A hooked process and the descriptions it stands for

    `Shadows` gives every descriptor a cursor of its own.  `Stands` relates a hooked process to
    files under descriptions, which are those of the kernel: descriptors that share a
    description share its cursor, and nothing has to be said about pairs of them.

    * `Stands.quiet`, `Stands.moved`, `Stands.stored`: what leaves everything alone, moves one
      cursor or rewrites one file keeps the relation;
    * `Stands.acquired`, `Stands.copied`, `Stands.released`: so do a new descriptor, a copy, and
      a descriptor that goes, which takes the cursor of its copies with it. -/

namespace TeCopies

open Posix TeHeader Hoare TeProgram TeRead TeRebuild TeOpen TeAcquire TeSession Plain

variable {dev : Device}

/-- The descriptor denotes the description `id`, which is the handle `h`; its cursor is where
    it should be if it may be relied on. -/
structure Bears (w : World) (fd : Int) (h : Handle) (id : Nat) (settled : Bool) : Prop where
  tracks : Tracks w fd h.inode h.acc id
  pos : settled = true → (w.kern.desc id).pos = FILE_HEADER_POLL_SIZE + h.pos

/-- The process `w` stands for the files `s` and their descriptions. -/
structure Stands (S : Scope dev) (w : World) (s : OpenFiles) : Prop where
  calm : w.kern.host.Calm
  input : w.kern.InUse 0
  consistent : TeTable.Consistent w
  files : Mirrors S w.kern.files s.view
  held : ∀ {fd o}, s.opened fd = some o → Bears w fd (s.desc o) o (s.settled o)

/-- Descriptors that lead to the same files as before do not matter to the files. -/
theorem mirrors_reopened {S : Scope dev} {fs : FileStore} {s s' : PlainSystem}
    (hm : Mirrors S fs s) (hnames : s'.names = s.names) (hbytes : s'.bytes = s.bytes)
    (hopened : ∀ {fd h}, s'.opened fd = some h →
      ∃ fd' h', s.opened fd' = some h' ∧ h'.inode = h.inode) : Mirrors S fs s' := by
  refine ⟨?_, ?_, hm.siblings, ?_, fun {fd h} hf => ?_, fun {path C} hb => ?_⟩
  · rw [hnames]
    exact hm.known
  · rw [hnames]
    exact hm.unknown
  · rw [hnames, hbytes]
    exact hm.content
  · obtain ⟨fd', h', hf', hi⟩ := hopened hf
    rw [hbytes, ← hi]
    exact hm.inUse hf'
  · obtain ⟨i, hname, hdata, hunused⟩ := hm.beside hb
    refine ⟨i, hname, hdata, by rw [hnames]; exact hunused.1, fun fd h hf => ?_⟩
    obtain ⟨fd', h', hf', hi⟩ := hopened hf
    rw [← hi]
    exact hunused.2 fd' h' hf'

variable {S : Scope dev}

namespace Stands

variable {w : World} {s : OpenFiles} (hs : Stands S w s)
include hs

theorem sealed {fd : Int} {o : Nat} (hf : s.opened fd = some o) :
    Sealed dev w.kern.files (s.desc o).inode (s.bytes (s.desc o).inode) :=
  hs.files.inUse (s.view_opened hf)

/-- A number that the kernel does not use is not one of ours. -/
theorem unopened {fd : Int} (hfresh : ¬ w.kern.InUse fd) : s.opened fd = none := by
  cases hf : s.opened fd with
  | none => rfl
  | some o => exact absurd (w.kern.find_inUse (hs.held hf).tracks.find) hfresh

/-- Calls that leave everything alone. -/
theorem quiet {k : Kernel} (hq : Kernel.Quiet w.kern k) : Stands S { w with kern := k } s where
  calm := by
    show k.host.Calm
    rw [hq.host]
    exact hs.calm
  input := hq.inUse.mpr hs.input
  consistent := hs.consistent.kept (.of_quiet hq) rfl
  files := by
    show Mirrors S k.files s.view
    rw [hq.files]
    exact hs.files
  held := by
    intro fd o hf
    have hb := hs.held hf
    have hdesc := hq.desc_find hb.tracks.find
    refine ⟨hb.tracks.same (hq.find fd) hdesc rfl fun hn => ?_, fun hset => ?_⟩
    · show k.files.names _ = _
      rw [hq.files]
      exact hn
    · exact (congrArg Desc.pos hdesc).trans (hb.pos hset)

/-- The cursor of a description is moved to `q`; it may be relied on if that is where it
    should be. -/
theorem moved {fd : Int} {o q p : Nat} {b : Bool} (hf : s.opened fd = some o)
    (hq : b = true → q = FILE_HEADER_POLL_SIZE + p) :
    Stands S { w with kern := w.kern.setPos o q } (s.moveTo o p b) where
  calm := hs.calm
  input := hs.input
  consistent := hs.consistent.kept (.setPos _ o _) rfl
  files := by
    refine mirrors_reopened hs.files rfl rfl fun {fd' h'} hf' => ?_
    obtain ⟨o', ho', rfl⟩ := (s.moveTo o p b).view_cases hf'
    refine ⟨fd', _, s.view_opened ho', ?_⟩
    by_cases hne : o' = o
    · subst hne
      rw [s.moveTo_desc_self]
    · rw [s.moveTo_desc_ne hne]
  held := by
    intro fd' o' hf'
    have hb : Bears w fd' (s.desc o') o' (s.settled o') := hs.held hf'
    by_cases hne : o' = o
    · subst hne
      rw [s.moveTo_desc_self, s.moveTo_settled_self]
      refine ⟨hb.tracks.same rfl (w.kern.setPos_desc_self _ _) rfl fun hn => hn, fun hset => ?_⟩
      exact (congrArg Desc.pos (w.kern.setPos_desc_self o' q)).trans (hq hset)
    · rw [s.moveTo_desc_ne hne, s.moveTo_settled_ne hne]
      have hdesc := w.kern.setPos_desc_ne hne q
      exact ⟨hb.tracks.same rfl hdesc rfl fun hn => hn, fun hset =>
        (congrArg Desc.pos hdesc).trans (hb.pos hset)⟩

/-- One file gets another content, under some header. -/
theorem stored {i : Nat} {H P : List UInt8} (hH : RightsHeader H) (hused : ¬ s.view.Unused i) :
    Stands S { w with kern := w.kern.setData i (H ++ TeHeader.stored dev.aes P) } (s.store i P)
    where
  calm := hs.calm
  input := hs.input
  consistent := hs.consistent.kept (.setData _ i _) rfl
  files := hs.files.stored hH hused
  held := by
    intro fd o hf
    have hb : Bears w fd (s.desc o) o (s.settled o) := hs.held hf
    exact ⟨hb.tracks.same rfl rfl rfl fun hn => hn, hb.pos⟩

/-- The entry of a new descriptor is the one that a query finds. -/
theorem entered {w' : World} {a : FileInfo} (hfresh : ¬ w.kern.InUse a.file_descriptor)
    (hlist : w'.file_info_list = w.file_info_list ++ [a]) :
    w'.file_info_list.find? (fun e => e.file_descriptor = a.file_descriptor) = some a := by
  have hnone : w.file_info_list.find? (fun e => e.file_descriptor = a.file_descriptor) = none := by
    rw [List.find?_eq_none]
    intro e he
    have hused := hs.consistent.inUse e he
    simp only [decide_eq_true_eq]
    exact fun heq => hfresh (heq ▸ hused)
  rw [hlist, List.find?_append, hnone, Option.none_or]
  exact List.find?_cons_of_pos (by simp)

/-- A new descriptor with an entry of its own: the others lead where they did. -/
theorem joined {w' : World} {s' : OpenFiles} {a : FileInfo} (haside : Aside w.kern w'.kern)
    (hfresh : ¬ w.kern.InUse a.file_descriptor) (hcurrent : TeTable.Current w'.kern a)
    (hlist : w'.file_info_list = w.file_info_list ++ [a])
    (hnames : ∀ {p j}, w.kern.files.names p = some j → w'.kern.files.names p = some j)
    (hfiles : Mirrors S w'.kern.files s'.view)
    (hold : ∀ {fd o}, fd ≠ a.file_descriptor → s'.opened fd = some o →
      s.opened fd = some o ∧ s'.desc o = s.desc o ∧ s'.settled o = s.settled o)
    (hnew : ∀ {o}, s'.opened a.file_descriptor = some o →
      Bears w' a.file_descriptor (s'.desc o) o (s'.settled o)) : Stands S w' s' := by
  refine ⟨?_, haside.kept.inUse hs.input, hs.consistent.add haside.kept hfresh hcurrent hlist,
    hfiles, ?_⟩
  · rw [haside.kept.host]
    exact hs.calm
  · intro fd o hf'
    by_cases hne : fd = a.file_descriptor
    · subst hne
      exact hnew hf'
    · obtain ⟨hf, hd, hset⟩ := hold hne hf'
      have hb := hs.held hf
      have hfind := haside.kept.find hb.tracks.find
      have hsame : w'.kern.desc o = w.kern.desc o :=
        haside.below o (w.kern.find_lt hb.tracks.find)
      rw [hd, hset]
      refine ⟨hb.tracks.same (hfind.trans hb.tracks.find.symm) hsame ?_ hnames,
        fun hb' => (congrArg Desc.pos hsame).trans (hb.pos hb')⟩
      obtain ⟨e, hq, -⟩ := hb.tracks.entry
      rw [hlist, List.find?_append, hq]
      rfl

/-- A descriptor that `open` has acquired denotes a description of its own. -/
theorem acquired {w' : World} {t : OpenFiles} {path : Path} {flags : Flags} {fd : Int} {i : Nat}
    (ha : Acquired w w' path flags fd i) (happ : flags.append = false)
    (hsame : t.opened = s.opened ∧ t.desc = s.desc ∧ t.settled = s.settled)
    (hnames : ∀ {p j}, w.kern.files.names p = some j → w'.kern.files.names p = some j)
    (hfiles : Mirrors S w'.kern.files t.view) (hused : ¬ t.view.Unused i)
    (hseal : Sealed dev w'.kern.files i (t.bytes i)) :
    ∃ o, t.Free o ∧ Stands S w' (t.bind fd o ⟨i, 0, flags.acc⟩) := by
  obtain ⟨id, hid, hfind, hdesc⟩ := ha.handle
  obtain ⟨hopened, hd, hset⟩ := hsame
  have hfree : t.Free id := by
    intro fd' hf'
    rw [hopened] at hf'
    have := w.kern.find_lt (hs.held hf').tracks.find
    omega
  refine ⟨id, hfree, hs.joined (a := ⟨fd, path, some i⟩) ha.aside ha.fresh
    ⟨id, hfind, by rw [hdesc]⟩ ha.entry hnames ?_ ?_ ?_⟩
  · rw [t.bind_view hfree]
    exact hfiles.hold hseal hused fd 0 flags.acc
  · intro fd' o hne hf'
    rcases t.share_cases hf' with ⟨rfl, -⟩ | ⟨-, hf'⟩
    · exact absurd rfl hne
    · have ho : o ≠ id := fun heq => hfree fd' (heq ▸ hf')
      rw [t.bind_desc_ne ho, t.bind_settled_ne ho, hd, hset, ← hopened]
      exact ⟨hf', rfl, rfl⟩
  · intro o hf'
    rcases t.share_cases hf' with ⟨-, rfl⟩ | ⟨hne, -⟩
    · rw [t.bind_desc_self]
      have hentry := hs.entered (a := ⟨fd, path, some i⟩) ha.fresh ha.entry
      exact ⟨⟨ha.positive, hfind, ⟨flags, _, rfl, happ, hdesc⟩, _, hentry, ha.name⟩,
        fun _ => congrArg Desc.pos hdesc⟩
    · exact absurd rfl hne

/-- The next inode is not in use. -/
theorem unused : s.view.Unused w.kern.files.next := by
  refine ⟨fun path hname => ?_, fun fd h hf heq => ?_⟩
  · exact absurd (w.kern.files.names_lt _ _ (hs.files.known hname).2) (Nat.lt_irrefl _)
  · obtain ⟨o, ho, rfl⟩ := s.view_cases hf
    obtain ⟨fi, -, hname⟩ := (hs.held ho).tracks.entry
    exact absurd (w.kern.files.names_lt _ _ hname) (by rw [heq]; exact Nat.lt_irrefl _)

/-- A descriptor of a new file. -/
theorem created {w' : World} {path : Path} {flags : Flags} {fd : Int} {H : List UInt8}
    (hH : RightsHeader H) (ha : Acquired w w' path flags fd w.kern.files.next)
    (happ : flags.append = false) (hpath : S.In path) (hname : s.names path = none)
    (hnone : w.kern.files.names path = none)
    (hfiles : w'.kern.files = (w.kern.files.create path).store w.kern.files.next H) :
    ∃ o, s.Free o ∧ Stands S w' ((s.create path w.kern.files.next).bind fd o
      ⟨w.kern.files.next, 0, flags.acc⟩) := by
  have hm := hs.files.created hH hpath hname hs.unused
  have hseal : Sealed dev ((w.kern.files.create path).store w.kern.files.next H)
      w.kern.files.next ((s.view.create path w.kern.files.next).bytes w.kern.files.next) := by
    rw [s.view.create_bytes_self]
    exact sealed_empty dev _ _ hH
  rw [← hfiles] at hm hseal
  refine hs.acquired (t := s.create path w.kern.files.next) ha happ ⟨rfl, rfl, rfl⟩
    (fun {p j} hn => ?_) hm (PlainSystem.used_of_name (s.view.create_names_self _ _)) hseal
  have hne : p ≠ path := by
    rintro rfl
    cases hn.symm.trans hnone
  rw [hfiles]
  exact (FileStore.create_names_ne _ hne).trans hn

/-- A copy denotes the description of the descriptor it was made of. -/
theorem copied {w' : World} {fd nfd : Int} {o : Nat} {fi : FileInfo} (hf : s.opened fd = some o)
    (hpos : 0 < nfd) (hg : Kernel.Gained w.kern nfd o w'.kern)
    (hfiles : w'.kern.files = w.kern.files) (hdesc : w'.kern.desc = w.kern.desc)
    (hnext : w.kern.nextDesc ≤ w'.kern.nextDesc)
    (hfi : w.file_info_list.find? (fun e => e.file_descriptor = fd) = some fi)
    (hlist : w'.file_info_list = w.file_info_list ++ [⟨nfd, fi.file_path, fi.origin⟩]) :
    Stands S w' (s.share nfd o) := by
  have hb := hs.held hf
  obtain ⟨id, hfind, horigin⟩ := hs.consistent.query hfi
  obtain rfl : o = id := Option.some.inj (hb.tracks.find.symm.trans hfind)
  have hname : w.kern.files.names fi.file_path = some (s.desc o).inode := by
    obtain ⟨fi', hfi', hname⟩ := hb.tracks.entry
    rw [Option.some.inj (hfi.symm.trans hfi')]
    exact hname
  refine hs.joined (a := ⟨nfd, fi.file_path, fi.origin⟩) ⟨hg.kept, hg.desc, hnext⟩ hg.fresh
    ⟨o, hg.find_self, ?_⟩ hlist (by rw [hfiles]; exact fun hn => hn) ?_ ?_ ?_
  · rw [horigin, hdesc]
  · rw [hfiles]
    refine mirrors_reopened hs.files rfl rfl fun {fd' h'} hf' => ?_
    obtain ⟨o', ho', rfl⟩ := (s.share nfd o).view_cases hf'
    rcases s.share_cases ho' with ⟨-, rfl⟩ | ⟨-, ho'⟩
    · exact ⟨fd, _, s.view_opened hf, rfl⟩
    · exact ⟨fd', _, s.view_opened ho', rfl⟩
  · intro fd' o' hne hf'
    rcases s.share_cases hf' with ⟨rfl, -⟩ | ⟨-, hf'⟩
    · exact absurd rfl hne
    · exact ⟨hf', rfl, rfl⟩
  · intro o' hf'
    rcases s.share_cases hf' with ⟨-, rfl⟩ | ⟨hne, -⟩
    · have hentry := hs.entered (a := ⟨nfd, fi.file_path, fi.origin⟩) hg.fresh hlist
      refine ⟨⟨hpos, hg.find_self, ?_, _, hentry, by rw [hfiles]; exact hname⟩, ?_⟩
      all_goals rw [hdesc]
      · exact hb.tracks.desc
      · exact hb.pos
    · exact absurd rfl hne

/-- A descriptor that goes, and the cursor of its copies with it. -/
theorem released {env : Env} (henv : env.Active) {fd : Int} {o : Nat}
    (hf : s.opened fd = some o) :
    Stands S { kern := ((w.kern.setPos o 0).tock 2).dropFd fd,
               file_info_list := w.file_info_list.eraseP (fun e => e.file_descriptor = fd) }
      (s.release fd o) where
  calm := hs.calm
  input := by
    have h0 := (hs.held hf).tracks.positive
    exact Kernel.dropFd_inUse _ |>.mpr ⟨hs.input, by omega⟩
  consistent := TeTable.consistent_hooked_close hs.consistent
    (fun hoff => absurd henv hoff.2) ((hs.held hf).tracks.close_run henv hs.calm)
  files := by
    refine mirrors_reopened hs.files rfl rfl fun {fd' h'} hf' => ?_
    obtain ⟨o', ho', rfl⟩ := (s.release fd o).view_cases hf'
    exact ⟨fd', _, s.view_opened (s.release_cases ho').2, rfl⟩
  held := by
    intro fd' o' hf'
    obtain ⟨hne, hf'⟩ := s.release_cases hf'
    have hb : Bears w fd' (s.desc o') o' (s.settled o') := hs.held hf'
    have hfind := ((w.kern.setPos o 0).tock 2).dropFd_find_ne hne
    have hentry := TeClose.find_erase (Ne.symm hne) w.file_info_list
    by_cases ho : o' = o
    · subst ho
      have hdesc := w.kern.setPos_desc_self o' 0
      refine ⟨hb.tracks.same hfind hdesc hentry fun hn => hn, fun hset => ?_⟩
      have hoff : (s.release fd o').settled o' = false := Function.update_self ..
      cases hoff.symm.trans hset
    · rw [s.release_settled_ne ho]
      have hdesc := w.kern.setPos_desc_ne ho 0
      exact ⟨hb.tracks.same hfind hdesc hentry fun hn => hn, fun hset =>
        (congrArg Desc.pos hdesc).trans (hb.pos hset)⟩

end Stands

end TeCopies
