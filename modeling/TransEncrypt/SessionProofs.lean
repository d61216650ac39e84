import TransEncrypt.AcquireProofs
import TransEncrypt.CloseProofs
import TransEncrypt.PlainSystemProofs

/-! # A hooked process and the plain files it stands for

    `Shadows` relates a hooked process to a plain file system: every file of the scope is
    sealed (a header and the stored form) or still plain, every descriptor of the plain
    system is one of the process, with an entry and a cursor of its own behind the header.

    * `Shadows.quiet`, `Shadows.moved`, `Shadows.stored`: what leaves everything alone, moves
      one cursor or rewrites one file keeps the relation;
    * `Shadows.acquired`, `Shadows.released`: so do a new descriptor and one that goes. -/

namespace TeSession

open Posix Overlay TeHeader Hoare TeProgram TeDetector TeWorker TeRead TeRebuild TeOpen
open TeAcquire Plain

/-- The paths a process works with: supported, not special, short enough for the buffers of
    1024 bytes with the `.s` of the sibling, and none is the sibling that blocks the
    conversion of another.  And what other files, `beside` these, hold. -/
structure Scope (dev : Device) where
  In : Path → Prop
  beside : Path → Option (List UInt8)
  supported : ∀ {path}, In path → dev.is_support_file_type_by_path path ≠ 0
  common : ∀ {path}, In path → dev.is_support_special_file_type_by_path path ≠ 1
  named : ∀ {path}, In path → path ≠ []
  fits : ∀ {path}, In path → Fits path
  apart : ∀ {path}, In path → ¬ In (get_security_path_by_path path)
  other : ∀ {path}, In path → beside path = none

variable {dev : Device}

/-! ## Files -/

/-- The file `i` holds `P` behind a header, encrypted. -/
def Sealed (dev : Device) (fs : FileStore) (i : Nat) (P : List UInt8) : Prop :=
  ∃ H, RightsHeader H ∧ fs.data i = H ++ stored dev.aes P

/-- The file `i` holds `P` as it is; it is not empty, does not look encrypted, and one
    buffer holds it. -/
structure Unsealed (fs : FileStore) (i : Nat) (P : List UInt8) : Prop where
  data : fs.data i = P
  nonempty : 0 < P.length
  small : P.length ≤ 4096 * THREADS_COUNT
  normal : typeOf P ≠ FILE_TYPE_RIGHTS

theorem Sealed.header {fs : FileStore} {i : Nat} {P : List UInt8} (h : Sealed dev fs i P) :
    HasHeader (fs.data i) := by
  obtain ⟨H, hH, hdata⟩ := h
  rw [hdata]
  exact hasHeader_append hH.length hH.rights _

theorem Unsealed.noHeader {fs : FileStore} {i : Nat} {P : List UInt8} (h : Unsealed fs i P) :
    ¬ HasHeader (fs.data i) := by
  rw [h.data]
  exact fun hH => h.normal (typeOf_hasHeader hH)

theorem sealed_store (dev : Device) (fs : FileStore) (i : Nat) {H : List UInt8}
    (hH : RightsHeader H) (P : List UInt8) :
    Sealed dev (fs.store i (H ++ stored dev.aes P)) i P :=
  ⟨H, hH, FileStore.store_data_self ..⟩

/-- A header is the stored form of nothing behind it. -/
theorem sealed_empty (dev : Device) (fs : FileStore) (i : Nat) {H : List UInt8}
    (hH : RightsHeader H) : Sealed dev (fs.store i H) i [] := by
  refine ⟨H, hH, ?_⟩
  rw [FileStore.store_data_self, stored_short dev.aes (P := []) (by decide), List.append_nil]

theorem newHeader_rightsHeader (dev : Device) : RightsHeader (newHeader dev.get_process_name) :=
  ⟨newHeader_length _, newHeader_rights _⟩

variable (S : Scope dev)

/-- The files `fs` are those of the plain system `s`: the names of the scope are the same,
    nothing blocks a conversion, and every file has its content in one of the two forms.  The
    files beside the scope hold what they should, and the plain system does not know them. -/
structure Mirrors (fs : FileStore) (s : PlainSystem) : Prop where
  known : ∀ {path i}, s.names path = some i → S.In path ∧ fs.names path = some i
  unknown : ∀ {path}, S.In path → s.names path = none → fs.names path = none
  siblings : ∀ {path}, S.In path → fs.names (get_security_path_by_path path) = none
  content : ∀ {path i}, s.names path = some i →
    Sealed dev fs i (s.bytes i) ∨ Unsealed fs i (s.bytes i)
  inUse : ∀ {fd h}, s.opened fd = some h → Sealed dev fs h.inode (s.bytes h.inode)
  beside : ∀ {path C}, S.beside path = some C →
    ∃ i, fs.names path = some i ∧ fs.data i = C ∧ s.Unused i

namespace Mirrors

variable {S} {fs : FileStore} {s : PlainSystem} (hm : Mirrors S fs s)
include hm

/-- A sealed file is opened. -/
theorem hold {i : Nat} (hi : Sealed dev fs i (s.bytes i)) (hused : ¬ s.Unused i) (fd : Int)
    (p : Nat) (acc : AccMode) : Mirrors S fs (s.hold fd ⟨i, p, acc⟩) := by
  refine ⟨hm.known, hm.unknown, hm.siblings, hm.content, fun {fd' h'} hf' => ?_,
    fun {path C} hb => ?_⟩
  · rcases s.hold_cases hf' with ⟨-, rfl⟩ | ⟨-, hf'⟩
    · exact hi
    · exact hm.inUse hf'
  · obtain ⟨j, hname, hdata, hj⟩ := hm.beside hb
    have hne : j ≠ i := fun heq => hused (heq ▸ hj)
    exact ⟨j, hname, hdata, s.unused_hold hj hne fd⟩

/-- A file gets another content, and is sealed then. -/
theorem stored {i : Nat} {H P : List UInt8} (hH : RightsHeader H) (hused : ¬ s.Unused i) :
    Mirrors S (fs.store i (H ++ TeHeader.stored dev.aes P)) (s.store i P) := by
  let D := H ++ TeHeader.stored dev.aes P
  have hself : Sealed dev (fs.store i D) i ((s.store i P).bytes i) := by
    rw [s.store_bytes_self]
    exact sealed_store dev fs i hH P
  have hother : ∀ {j}, j ≠ i →
      (fs.store i D).data j = fs.data j ∧ (s.store i P).bytes j = s.bytes j := fun hne =>
    ⟨FileStore.store_data_ne _ hne _, s.store_bytes_ne hne P⟩
  have hsealed : ∀ {j}, Sealed dev fs j (s.bytes j) →
      Sealed dev (fs.store i D) j ((s.store i P).bytes j) := by
    intro j hj
    by_cases hne : j = i
    · rw [hne]
      exact hself
    · obtain ⟨H', hH', hdata⟩ := hj
      refine ⟨H', hH', ?_⟩
      rw [(hother hne).1, (hother hne).2, hdata]
  refine ⟨hm.known, hm.unknown, hm.siblings, fun {path j} hj => ?_, fun hf => hsealed (hm.inUse hf),
    fun {path C} hb => ?_⟩
  · rcases hm.content hj with hseal | hplain
    · exact .inl (hsealed hseal)
    · by_cases hne : j = i
      · rw [hne]
        exact .inl hself
      · refine .inr ⟨?_, ?_, ?_, ?_⟩
        · rw [(hother hne).1, (hother hne).2]
          exact hplain.data
        all_goals rw [(hother hne).2]
        · exact hplain.nonempty
        · exact hplain.small
        · exact hplain.normal
  · obtain ⟨j, hname, hdata, hj⟩ := hm.beside hb
    have hne : j ≠ i := fun heq => hused (heq ▸ hj)
    exact ⟨j, hname, (hother hne).1.trans hdata, hj⟩

/-- A name of the scope that nothing had: the new file has it, with a header. -/
theorem created {H : List UInt8} (hH : RightsHeader H) {path : Path} (hpath : S.In path)
    (hname : s.names path = none) (hunused : s.Unused fs.next) :
    Mirrors S ((fs.create path).store fs.next H) (s.create path fs.next) := by
  let i := fs.next
  let fs' := (fs.create path).store i H
  have hnames : ∀ {q}, q ≠ path → fs'.names q = fs.names q := fun hne =>
    FileStore.create_names_ne fs hne
  have hdata : ∀ {j}, j ≠ i → fs'.data j = fs.data j := fun hne =>
    (FileStore.store_data_ne _ hne H).trans (FileStore.create_data_ne fs hne)
  have hself : Sealed dev fs' i ((s.create path i).bytes i) := by
    rw [s.create_bytes_self]
    exact sealed_empty dev _ i hH
  refine ⟨fun {q j} hj => ?_, fun {q} hq hj => ?_, fun {q} hq => ?_, fun {q j} hj => ?_,
    fun {fd h} hf => ?_, fun {q C} hb => ?_⟩
  · rcases s.create_cases hj with ⟨rfl, rfl⟩ | ⟨hne, hj⟩
    · exact ⟨hpath, FileStore.create_names_self fs q⟩
    · obtain ⟨hin, hn⟩ := hm.known hj
      exact ⟨hin, (hnames hne).trans hn⟩
  · have hne : q ≠ path := by
      rintro rfl
      rw [s.create_names_self] at hj
      cases hj
    rw [s.create_names_ne hne] at hj
    exact (hnames hne).trans (hm.unknown hq hj)
  · -- the new name is no sibling
    have hne : get_security_path_by_path q ≠ path := fun heq => S.apart hq (heq ▸ hpath)
    exact (hnames hne).trans (hm.siblings hq)
  · rcases s.create_cases hj with ⟨rfl, rfl⟩ | ⟨-, hj⟩
    · exact .inl hself
    · have hne : j ≠ i := by
        rintro rfl
        exact hunused.1 q hj
      rw [s.create_bytes_ne hne]
      rcases hm.content hj with ⟨H', hH', hd⟩ | hplain
      · exact .inl ⟨H', hH', (hdata hne).trans hd⟩
      · exact .inr ⟨(hdata hne).trans hplain.data, hplain.nonempty, hplain.small, hplain.normal⟩
  · have hne := hunused.2 fd h hf
    obtain ⟨H', hH', hd⟩ := hm.inUse hf
    rw [s.create_bytes_ne hne]
    exact ⟨H', hH', (hdata hne).trans hd⟩
  · obtain ⟨j, hn, hd, hj⟩ := hm.beside hb
    have hne : j ≠ i := fun heq => absurd (fs.names_lt _ _ hn) (by rw [heq]; exact Nat.lt_irrefl _)
    have hq : q ≠ path := by
      rintro rfl
      cases (S.other hpath).symm.trans hb
    exact ⟨j, (hnames hq).trans hn, (hdata hne).trans hd, s.unused_create hj hne⟩

end Mirrors

/-- What a call does to the files, told to a process that did not make it: names and sealed
    files stay, and a name that is new belongs to a new file. -/
structure Carries (dev : Device) (fs : FileStore) (s : PlainSystem) (fs' : FileStore)
    (s' : PlainSystem) : Prop where
  next : fs.next ≤ fs'.next
  names : ∀ {path i}, fs.names path = some i → fs'.names path = some i
  keepsSeal : ∀ {i}, i < fs.next → Sealed dev fs i (s.bytes i) → Sealed dev fs' i (s'.bytes i)
  fresh : ∀ {path i}, s.names path = none → s'.names path = some i → fs.next ≤ i
  absent : ∀ {path}, fs.names path = none → s'.names path = none → fs'.names path = none

namespace Carries

variable {fs fs' : FileStore} {s s' : PlainSystem}

/-- Nothing happens to the files. -/
theorem same (hfiles : fs' = fs) (hnames : s'.names = s.names) (hbytes : s'.bytes = s.bytes) :
    Carries dev fs s fs' s' := by
  subst hfiles
  refine ⟨Nat.le_refl _, fun h => h, fun _ h => by rw [hbytes]; exact h, fun hnone h => ?_,
    fun hnone _ => hnone⟩
  rw [hnames, hnone] at h
  cases h

/-- A file gets another content, and is sealed then. -/
theorem stored {i : Nat} {H P : List UInt8} (hH : RightsHeader H)
    (hfiles : fs' = fs.store i (H ++ TeHeader.stored dev.aes P)) (hnames : s'.names = s.names)
    (hbytes : s'.bytes = (s.store i P).bytes) : Carries dev fs s fs' s' := by
  subst hfiles
  refine ⟨Nat.le_refl _, fun h => h, fun {j} _ hj => ?_, fun hnone h => ?_, fun hnone _ => hnone⟩
  · rw [hbytes]
    by_cases hne : j = i
    · rw [hne, s.store_bytes_self]
      exact sealed_store dev fs i hH P
    · obtain ⟨H', hH', hdata⟩ := hj
      refine ⟨H', hH', ?_⟩
      rw [s.store_bytes_ne hne, FileStore.store_data_ne _ hne]
      exact hdata
  · rw [hnames, hnone] at h
    cases h

/-- A new file. -/
theorem created {path : Path} {H : List UInt8} (hnone : fs.names path = none)
    (hfiles : fs' = (fs.create path).store fs.next H)
    (hnames : s'.names = (s.create path fs.next).names)
    (hbytes : s'.bytes = (s.create path fs.next).bytes) : Carries dev fs s fs' s' := by
  subst hfiles
  refine ⟨Nat.le_succ _, fun {q i} hq => ?_, fun {j} hj hseal => ?_, fun {q i} hq hi => ?_,
    fun {q} hq hno => ?_⟩
  · have hne : q ≠ path := by
      rintro rfl
      cases hq.symm.trans hnone
    exact (FileStore.create_names_ne fs hne).trans hq
  · have hne : j ≠ fs.next := Nat.ne_of_lt hj
    obtain ⟨H', hH', hdata⟩ := hseal
    refine ⟨H', hH', ?_⟩
    rw [hbytes, s.create_bytes_ne hne, FileStore.store_data_ne _ hne,
      FileStore.create_data_ne fs hne]
    exact hdata
  · rw [hnames] at hi
    rcases s.create_cases hi with ⟨-, rfl⟩ | ⟨-, hi⟩
    · exact Nat.le_refl _
    · cases hq.symm.trans hi
  · have hne : q ≠ path := by
      rintro rfl
      rw [hnames, s.create_names_self] at hno
      cases hno
    exact (FileStore.create_names_ne fs hne).trans hq

/-- Descriptors do not matter. -/
theorem same_plain {s'' : PlainSystem} (h : Carries dev fs s fs' s') (hnames : s''.names = s'.names)
    (hbytes : s''.bytes = s'.bytes) : Carries dev fs s fs' s'' := by
  refine ⟨h.next, h.names, ?_, ?_, ?_⟩
  · rw [hbytes]
    exact h.keepsSeal
  · rw [hnames]
    exact h.fresh
  · rw [hnames]
    exact h.absent

end Carries

/-! ## Descriptors -/

/-- The descriptor `fd` of the process is open on the file `i`, with an entry, on the
    description `id`, wherever its cursor is. -/
structure Tracks (w : World) (fd : Int) (i : Nat) (acc : AccMode) (id : Nat) : Prop where
  positive : 0 < fd
  find : w.kern.find fd = some id
  desc : ∃ (flags : Flags) (pos : Nat), flags.acc = acc ∧ flags.append = false ∧
    w.kern.desc id = { inode := i, pos := pos, flags := flags }
  entry : ∃ fi, w.file_info_list.find? (fun e => e.file_descriptor = fd) = some fi ∧
    w.kern.files.names fi.file_path = some i

/-- The descriptor `fd` of the process is the handle `h`: tracked, on the description `id`,
    whose cursor is counted from behind the header. -/
structure Holds (w : World) (fd : Int) (h : Handle) (id : Nat) : Prop where
  positive : 0 < fd
  find : w.kern.find fd = some id
  desc : ∃ flags : Flags, flags.acc = h.acc ∧ flags.append = false ∧ w.kern.desc id =
    { inode := h.inode, pos := FILE_HEADER_POLL_SIZE + h.pos, flags := flags }
  entry : ∃ fi, w.file_info_list.find? (fun e => e.file_descriptor = fd) = some fi ∧
    w.kern.files.names fi.file_path = some h.inode

/-- The process `w` stands for the plain system `s`. -/
structure Shadows (w : World) (s : PlainSystem) : Prop where
  calm : w.kern.host.Calm
  input : w.kern.InUse 0
  consistent : TeTable.Consistent w
  files : Mirrors S w.kern.files s
  held : ∀ {fd h}, s.opened fd = some h → ∃ id, Holds w fd h id
  apart : ∀ {fd fd' h h' id}, s.opened fd = some h → s.opened fd' = some h' →
    w.kern.find fd = some id → w.kern.find fd' = some id → fd = fd'

variable {S}

namespace Tracks

variable {w : World} {fd : Int} {i : Nat} {acc : AccMode} {id : Nat} (ht : Tracks w fd i acc id)
include ht

theorem tracked : w.Tracked fd := by
  obtain ⟨fi, hq, -⟩ := ht.entry
  exact query_isSome_iff.mp (by rw [hq]; rfl)

theorem inode : (w.kern.desc id).inode = i := by
  obtain ⟨flags, pos, -, -, hdesc⟩ := ht.desc
  rw [hdesc]

theorem regular : (w.kern.desc id).regular = true := by
  obtain ⟨flags, pos, -, -, hdesc⟩ := ht.desc
  rw [hdesc]

theorem acc_eq : (w.kern.desc id).flags.acc = acc := by
  obtain ⟨flags, pos, hacc, -, hdesc⟩ := ht.desc
  rw [hdesc]
  exact hacc

theorem noAppend : (w.kern.desc id).flags.append = false := by
  obtain ⟨flags, pos, -, happ, hdesc⟩ := ht.desc
  rw [hdesc]
  exact happ

/-- The test for an encrypted file finds the entry. -/
theorem passes : passes_through fd w = .ok (false, w) := passes_through_tracked ht.tracked

/-- A state in which the descriptor and its entry are the same, and the description up to its
    cursor. -/
theorem same {w' : World} {p : Nat} (hf : w'.kern.find fd = w.kern.find fd)
    (hd : w'.kern.desc id = { w.kern.desc id with pos := p })
    (hq : w'.file_info_list.find? (fun e => e.file_descriptor = fd)
      = w.file_info_list.find? (fun e => e.file_descriptor = fd))
    (hn : ∀ {q j}, w.kern.files.names q = some j → w'.kern.files.names q = some j) :
    Tracks w' fd i acc id := by
  obtain ⟨fi, hfi, hname⟩ := ht.entry
  obtain ⟨flags, pos, hacc, happ, hdesc⟩ := ht.desc
  exact ⟨ht.positive, hf.trans ht.find, ⟨flags, p, hacc, happ, by rw [hd, hdesc]⟩, fi,
    hq.trans hfi, hn hname⟩

/-- The hooked `close`: the cursor is rewound, entry and descriptor go. -/
theorem close_run {env : Env} (henv : env.Active) (hc : w.kern.host.Calm) :
    TeOpen.close env fd w = .ok (0,
      { kern := ((w.kern.setPos id 0).tock 2).dropFd fd,
        file_info_list := w.file_info_list.eraseP (fun e => e.file_descriptor = fd) }) := by
  obtain ⟨fi, hq, -⟩ := ht.entry
  exact close_calm henv hc ht.find hq ht.regular

end Tracks

namespace Holds

variable {w : World} {fd : Int} {h : Handle} {id : Nat} (hh : Holds w fd h id)
include hh

theorem tracks : Tracks w fd h.inode h.acc id := by
  obtain ⟨flags, hacc, happ, hdesc⟩ := hh.desc
  exact ⟨hh.positive, hh.find, ⟨flags, _, hacc, happ, hdesc⟩, hh.entry⟩

theorem pos : (w.kern.desc id).pos = FILE_HEADER_POLL_SIZE + h.pos := by
  obtain ⟨flags, -, -, hdesc⟩ := hh.desc
  rw [hdesc]

/-- A state in which the descriptor, its description and its entry are the same. -/
theorem same {w' : World} (hf : w'.kern.find fd = w.kern.find fd)
    (hd : w'.kern.desc id = w.kern.desc id)
    (hq : w'.file_info_list.find? (fun e => e.file_descriptor = fd)
      = w.file_info_list.find? (fun e => e.file_descriptor = fd))
    (hn : ∀ {p i}, w.kern.files.names p = some i → w'.kern.files.names p = some i) :
    Holds w' fd h id := by
  obtain ⟨fi, hfi, hname⟩ := hh.entry
  exact ⟨hh.positive, hf.trans hh.find, by rw [hd]; exact hh.desc, fi, hq.trans hfi, hn hname⟩

end Holds

namespace Shadows

variable {w : World} {s : PlainSystem} (hs : Shadows S w s)
include hs

/-- The description of a handle is not that of another one. -/
theorem ne_of_held {fd fd' : Int} {h h' : Handle} {id id' : Nat} (hf : s.opened fd = some h)
    (hf' : s.opened fd' = some h') (hh : Holds w fd h id) (hh' : Holds w fd' h' id')
    (hne : fd' ≠ fd) : id' ≠ id := fun heq =>
  hne (hs.apart hf' hf hh'.find (heq ▸ hh.find))

/-- Calls that leave everything alone. -/
theorem quiet {k : Kernel} (hq : Kernel.Quiet w.kern k) :
    Shadows S { w with kern := k } s where
  calm := by
    show k.host.Calm
    rw [hq.host]
    exact hs.calm
  input := hq.inUse.mpr hs.input
  consistent := hs.consistent.kept (.of_quiet hq) rfl
  files := by
    show Mirrors S k.files s
    rw [hq.files]
    exact hs.files
  held := by
    intro fd h hf
    obtain ⟨id, hh⟩ := hs.held hf
    refine ⟨id, hh.same (hq.find fd) (hq.desc_find hh.find) rfl fun hn => ?_⟩
    show k.files.names _ = _
    rw [hq.files]
    exact hn
  apart := by
    intro fd fd' h h' id hf hf' hid hid'
    exact hs.apart hf hf' ((hq.find fd).symm.trans hid) ((hq.find fd').symm.trans hid')

/-- One cursor is moved. -/
theorem moved {fd : Int} {h : Handle} {id : Nat} (hf : s.opened fd = some h)
    (hh : Holds w fd h id) (p : Nat) :
    Shadows S { w with kern := w.kern.setPos id (FILE_HEADER_POLL_SIZE + p) }
      (s.hold fd { h with pos := p }) where
  calm := hs.calm
  input := hs.input
  consistent := hs.consistent.kept (.setPos _ id _) rfl
  files := hs.files.hold (hs.files.inUse hf) (s.used_of_opened hf) fd p h.acc
  held := by
    intro fd' h' hf'
    rcases s.hold_cases hf' with ⟨rfl, rfl⟩ | ⟨hne, hf'⟩
    · obtain ⟨flags, hacc, happ, hdesc⟩ := hh.desc
      refine ⟨id, hh.positive, hh.find, ⟨flags, hacc, happ, ?_⟩, hh.entry⟩
      rw [Kernel.setPos_desc_self, hdesc]
    · obtain ⟨id', hh'⟩ := hs.held hf'
      exact ⟨id', hh'.same rfl (Kernel.setPos_desc_ne _ (hs.ne_of_held hf hf' hh hh' hne) _) rfl
        fun hn => hn⟩
  apart := by
    have hopen : ∀ {fd' h'}, (s.hold fd { h with pos := p }).opened fd' = some h' →
        ∃ h'', s.opened fd' = some h'' := by
      intro fd' h' hf'
      rcases s.hold_cases hf' with ⟨rfl, -⟩ | ⟨-, hf'⟩
      · exact ⟨h, hf⟩
      · exact ⟨h', hf'⟩
    intro fd₁ fd₂ h₁ h₂ id' hf₁ hf₂ hid₁ hid₂
    obtain ⟨h₁', hf₁⟩ := hopen hf₁
    obtain ⟨h₂', hf₂⟩ := hopen hf₂
    exact hs.apart hf₁ hf₂ hid₁ hid₂

/-- One file gets another content, under some header. -/
theorem stored {i : Nat} {H P : List UInt8} (hH : RightsHeader H) (hused : ¬ s.Unused i) :
    Shadows S { w with kern := w.kern.setData i (H ++ TeHeader.stored dev.aes P) }
      (s.store i P) where
  calm := hs.calm
  input := hs.input
  consistent := hs.consistent.kept (.setData _ i _) rfl
  files := hs.files.stored hH hused
  held := by
    intro fd h hf
    obtain ⟨id, hh⟩ := hs.held hf
    exact ⟨id, hh.same rfl rfl rfl fun hn => hn⟩
  apart := hs.apart

/-- A new descriptor.  The names of the files that are in use stay. -/
theorem acquired {S' : Scope dev} {w' : World} {s' : PlainSystem} {path : Path} {flags : Flags}
    {fd : Int} {i : Nat} (ha : Acquired w w' path flags fd i) (happ : flags.append = false)
    (hopened : s'.opened = s.opened)
    (hnames : ∀ {p j}, ¬ s.Unused j → w.kern.files.names p = some j →
      w'.kern.files.names p = some j)
    (hfiles : Mirrors S' w'.kern.files (s'.hold fd ⟨i, 0, flags.acc⟩)) :
    Shadows S' w' (s'.hold fd ⟨i, 0, flags.acc⟩) := by
  obtain ⟨id, hid, hfind, hdesc⟩ := ha.handle
  have hnew : w.file_info_list.find? (fun e => e.file_descriptor = fd) = none := by
    rw [List.find?_eq_none]
    intro e he
    have hused := hs.consistent.inUse e he
    simp only [decide_eq_true_eq]
    exact fun heq => ha.fresh (heq ▸ hused)
  have hold : ∀ {fd'} {h'}, s'.opened fd' = some h' → fd' ≠ fd → ∃ id', id' < w.kern.nextDesc ∧
      w'.kern.find fd' = some id' ∧ Holds w' fd' h' id' := by
    intro fd' h' hf' hne
    rw [hopened] at hf'
    obtain ⟨id', hh'⟩ := hs.held hf'
    have hlt := w.kern.find_lt hh'.find
    have hkept := ha.aside.kept.find hh'.find
    obtain ⟨fi, hq, hname⟩ := hh'.entry
    refine ⟨id', hlt, hkept, hh'.positive, hkept, ?_, fi, ?_, hnames (s.used_of_opened hf') hname⟩
    · rw [ha.aside.below id' hlt]
      exact hh'.desc
    · rw [ha.entry, List.find?_append, hq]
      rfl
  refine ⟨?_, ha.aside.kept.inUse hs.input, ?_, hfiles, ?_, ?_⟩
  · rw [ha.aside.kept.host]
    exact hs.calm
  · exact hs.consistent.add ha.aside.kept ha.fresh ⟨id, hfind, by rw [hdesc]⟩ ha.entry
  · intro fd' h' hf'
    rcases s'.hold_cases hf' with ⟨rfl, rfl⟩ | ⟨hne, hf'⟩
    · refine ⟨id, ha.positive, hfind, ⟨flags, rfl, happ, hdesc⟩, ⟨fd', path, some i⟩, ?_, ha.name⟩
      rw [ha.entry, List.find?_append, hnew, Option.none_or]
      exact List.find?_cons_of_pos (by simp)
    · obtain ⟨id', -, -, hh'⟩ := hold hf' hne
      exact ⟨id', hh'⟩
  · -- the new description is none of the old ones
    intro fd₁ fd₂ h₁ h₂ id' hf₁ hf₂ hid₁ hid₂
    rcases s'.hold_cases hf₁ with ⟨rfl, -⟩ | ⟨hne₁, hf₁⟩
    · rcases s'.hold_cases hf₂ with ⟨rfl, -⟩ | ⟨hne₂, hf₂⟩
      · rfl
      · obtain ⟨id₂, hlt, hf, -⟩ := hold hf₂ hne₂
        have := Option.some.inj (hid₁.symm.trans hfind)
        have := Option.some.inj (hid₂.symm.trans hf)
        omega
    · obtain ⟨id₁, hlt, hf, -⟩ := hold hf₁ hne₁
      rcases s'.hold_cases hf₂ with ⟨rfl, -⟩ | ⟨hne₂, hf₂⟩
      · have := Option.some.inj (hid₂.symm.trans hfind)
        have := Option.some.inj (hid₁.symm.trans hf)
        omega
      · obtain ⟨id₂, -, hf', -⟩ := hold hf₂ hne₂
        rw [hopened] at hf₁ hf₂
        obtain ⟨j₁, hj₁⟩ := hs.held hf₁
        obtain ⟨j₂, hj₂⟩ := hs.held hf₂
        have h1 := Option.some.inj (hid₁.symm.trans (ha.aside.kept.find hj₁.find))
        have h2 := Option.some.inj (hid₂.symm.trans (ha.aside.kept.find hj₂.find))
        exact hs.apart hf₁ hf₂ (h1 ▸ hj₁.find) (h2 ▸ hj₂.find)

/-- The next inode is not in use. -/
theorem unused : s.Unused w.kern.files.next := by
  refine ⟨fun path hname => ?_, fun fd h hf heq => ?_⟩
  · exact absurd (w.kern.files.names_lt _ _ (hs.files.known hname).2) (Nat.lt_irrefl _)
  · obtain ⟨id, hh⟩ := hs.held hf
    obtain ⟨fi, -, hname⟩ := hh.entry
    exact absurd (w.kern.files.names_lt _ _ hname) (by rw [heq]; exact Nat.lt_irrefl _)

/-- A descriptor of a new file. -/
theorem created {w' : World} {path : Path} {flags : Flags} {fd : Int} {H : List UInt8}
    (hH : RightsHeader H) (ha : Acquired w w' path flags fd w.kern.files.next)
    (happ : flags.append = false) (hpath : S.In path) (hname : s.names path = none)
    (hfiles : w'.kern.files = (w.kern.files.create path).store w.kern.files.next H) :
    Shadows S w' ((s.create path w.kern.files.next).hold fd
      ⟨w.kern.files.next, 0, flags.acc⟩) := by
  have hmirrors := hs.files.created hH hpath hname hs.unused
  rw [← hfiles] at hmirrors
  refine hs.acquired ha happ rfl (fun {p j} _ hn => ?_) ?_
  · have hne : p ≠ path := by
      rintro rfl
      cases hn.symm.trans (hs.files.unknown hpath hname)
    rw [hfiles]
    exact (FileStore.create_names_ne _ hne).trans hn
  · refine hmirrors.hold ?_ (PlainSystem.used_of_name (s.create_names_self _ _)) fd 0 flags.acc
    rw [hfiles, s.create_bytes_self]
    exact sealed_empty dev _ _ hH

/-- A descriptor that goes. -/
theorem released {env : Env} (henv : env.Active) {fd : Int} {h : Handle} {id : Nat}
    (hf : s.opened fd = some h) (hh : Holds w fd h id) :
    Shadows S { kern := ((w.kern.setPos id 0).tock 2).dropFd fd,
                file_info_list := w.file_info_list.eraseP (fun e => e.file_descriptor = fd) }
      (s.release fd) where
  calm := hs.calm
  input := by
    have h0 := hh.positive
    exact Kernel.dropFd_inUse _ |>.mpr ⟨hs.input, by omega⟩
  consistent := TeTable.consistent_hooked_close hs.consistent
    (fun hoff => absurd henv hoff.2) (hh.tracks.close_run henv hs.calm)
  files := by
    refine ⟨hs.files.known, hs.files.unknown, hs.files.siblings, hs.files.content,
      fun {fd' h'} hf' => hs.files.inUse (s.release_cases hf').2, fun {path C} hb => ?_⟩
    obtain ⟨j, hname, hdata, hj⟩ := hs.files.beside hb
    exact ⟨j, hname, hdata, hj.1, fun fd' h' hf' => hj.2 fd' h' (s.release_cases hf').2⟩
  held := by
    intro fd' h' hf'
    obtain ⟨hne, hf'⟩ := s.release_cases hf'
    obtain ⟨id', hh'⟩ := hs.held hf'
    exact ⟨id', hh'.same (Kernel.dropFd_find_ne _ hne)
      (Kernel.setPos_desc_ne _ (hs.ne_of_held hf hf' hh hh' hne) 0)
      (TeClose.find_erase (Ne.symm hne) _) fun hn => hn⟩
  apart := by
    intro fd₁ fd₂ h₁ h₂ id' hf₁ hf₂ hid₁ hid₂
    obtain ⟨hne₁, hf₁⟩ := s.release_cases hf₁
    obtain ⟨hne₂, hf₂⟩ := s.release_cases hf₂
    exact hs.apart hf₁ hf₂ ((Kernel.dropFd_find_ne _ hne₁).symm.trans hid₁)
      ((Kernel.dropFd_find_ne _ hne₂).symm.trans hid₂)

end Shadows

end TeSession
