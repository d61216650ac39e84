import TransEncrypt.GateProofs
import TransEncrypt.ThreadProofs

/-! # Hooked threads that run at the same time

    Threads that read, write and seek at the same time, each through a tracked descriptor of
    its own on an encrypted file.  A step of one thread is a single real call; nothing is said
    about the order in which the threads step.

    Each call asks anew whether the process is served.  Here it is by its own properties, and
    then the head of a hook makes no real call and comes to no `strtok`, whose place in the
    string all threads share; only the configuration file is taken apart with it.

    * `Same`: what a step leaves alone; each thread relies on its own descriptor and its file
      being left alone, and guarantees to leave those of the others alone;
    * `On`, `Does`: a thread at its file, and the real calls it makes there;
    * `meets_read`, `meets_write`, `meets_lseek`: a hook, with other threads at every point;
    * `Switched`, `conditions_found`: the head of a hook in a process with such properties;
      `hook_alone`: head and body together are the gated call;
    * `threads_transparent`: all threads together are as if each were alone with a plain file,
      when a file that one of them writes is used by that one only. -/

namespace TeParallel

open Posix Overlay Blockwise TeHeader Hoare TeProgram TeRead TeStored TeTorn TeWrite TeSeek
open Plain Rely TeThread Interleave

/-! ## Leaving descriptors and files alone -/

/-- The open descriptors whose descriptions satisfy `P`, and the contents of the files that
    satisfy `I`, are as they were.  And so are the names, the table and the host. -/
structure Same (P : Nat → Desc → Prop) (I : Nat → Prop) (w w' : World) : Prop where
  find : ∀ {fd id}, w.kern.find fd = some id → P id (w.kern.desc id) →
    w'.kern.find fd = some id ∧ w'.kern.desc id = w.kern.desc id
  data : ∀ {i}, I i → w'.kern.files.data i = w.kern.files.data i
  names : w'.kern.files.names = w.kern.files.names
  table : w'.file_info_list = w.file_info_list
  host : w'.kern.host = w.kern.host

namespace Same

variable {P P' : Nat → Desc → Prop} {I I' : Nat → Prop} {w : World}

instance (P : Nat → Desc → Prop) (I : Nat → Prop) : IsPreorder World (Same P I) where
  refl _ := ⟨fun hf _ => ⟨hf, rfl⟩, fun _ => rfl, rfl, rfl, rfl⟩
  trans w w' w'' h h' := by
    refine ⟨fun {fd id} hf hp => ?_, fun hi => (h'.data hi).trans (h.data hi),
      h'.names.trans h.names, h'.table.trans h.table, h'.host.trans h.host⟩
    obtain ⟨hf₁, hd₁⟩ := h.find hf hp
    obtain ⟨hf₂, hd₂⟩ := h'.find hf₁ (by rw [hd₁]; exact hp)
    exact ⟨hf₂, hd₂.trans hd₁⟩

theorem mono {w' : World} (h : Same P I w w') (hp : ∀ id d, P' id d → P id d)
    (hi : ∀ i, I' i → I i) : Same P' I' w w' :=
  ⟨fun hf hd => h.find hf (hp _ _ hd), fun hd => h.data (hi _ hd), h.names, h.table, h.host⟩

theorem tock (w : World) (n : Nat) : Same P I w { w with kern := w.kern.tock n } :=
  ⟨fun hf _ => ⟨hf, rfl⟩, fun _ => rfl, rfl, rfl, rfl⟩

/-- Another cursor is moved. -/
theorem setPos {id : Nat} (hid : ¬ P id (w.kern.desc id)) (p : Nat) :
    Same P I w { w with kern := w.kern.setPos id p } := by
  refine ⟨fun {fd j} hf hp => ⟨hf, ?_⟩, fun _ => rfl, rfl, rfl, rfl⟩
  have hne : j ≠ id := fun heq => hid (heq ▸ hp)
  exact Kernel.setPos_desc_ne _ hne p

/-- Another file gets another content. -/
theorem setData {i : Nat} (hi : ¬ I i) (D : List UInt8) :
    Same P I w { w with kern := w.kern.setData i D } := by
  refine ⟨fun hf _ => ⟨hf, rfl⟩, fun {j} hj => ?_, rfl, rfl, rfl⟩
  have hne : j ≠ i := fun heq => hi (heq ▸ hj)
  exact FileStore.store_data_ne _ hne D

/-- A new descriptor. -/
theorem install {i hint : Nat} {flags : Flags} (hi : i < w.kern.files.next) :
    Same P I w { w with kern := (w.kern.install hint i flags hi).2 } :=
  ⟨fun hf _ => ⟨Kernel.install_find_some hf, Kernel.install_desc_lt (w.kern.find_lt hf)⟩,
    fun _ => rfl, rfl, rfl, rfl⟩

/-- Another descriptor goes. -/
theorem dropFd {fd : Int} {id : Nat} (hf : w.kern.find fd = some id)
    (hid : ¬ P id (w.kern.desc id)) : Same P I w { w with kern := w.kern.dropFd fd } := by
  refine ⟨fun {fd' id'} hf' hp => ⟨?_, rfl⟩, fun _ => rfl, rfl, rfl, rfl⟩
  have hne : fd' ≠ fd := by
    rintro rfl
    exact hid (Option.some.inj (hf'.symm.trans hf) ▸ hp)
  exact (Kernel.dropFd_find_ne _ hne).trans hf'

end Same

/-! ## A thread at its file -/

/-- A descriptor on a file, with its entry; the thread may have the right to write in place. -/
structure Slot where
  fd : Int
  id : Nat
  inode : Nat
  entry : FileInfo
  flags : Flags
  writes : Bool
  readable : flags.acc.readable = true
  writable : writes = true → flags.acc.writable = true
  noAppend : flags.append = false

/-- The slot `t` is in place, its file holds `D`, and its cursor is at `pos`. -/
structure On (t : Slot) (D : List UInt8) (pos : Nat) (w : World) : Prop where
  calm : w.kern.host.Calm
  find : w.kern.find t.fd = some t.id
  desc : w.kern.desc t.id = { inode := t.inode, pos := pos, flags := t.flags }
  entry : w.file_info_list.find? (fun e => e.file_descriptor = t.fd) = some t.entry
  name : w.kern.files.names t.entry.file_path = some t.inode
  data : w.kern.files.data t.inode = D

namespace Slot

variable (t : Slot)

/-- A reader has its own description; a writer, all those on its file. -/
def Owns (id : Nat) (d : Desc) : Prop := d.inode = t.inode ∧ (id = t.id ∨ t.writes = true)

/-- What a thread relies on, and what it guarantees. -/
def rely : World → World → Prop := Same t.Owns fun i => i = t.inode
def guar : World → World → Prop :=
  Same (fun id d => ¬ t.Owns id d) fun i => ¬ (i = t.inode ∧ t.writes = true)

instance : IsPreorder World t.rely := inferInstanceAs (IsPreorder World (Same _ _))
instance : IsPreorder World t.guar := inferInstanceAs (IsPreorder World (Same _ _))

/-- Two threads have different files, or different descriptions and only read. -/
def Beyond (u : Slot) : Prop :=
  t.inode ≠ u.inode ∨ (t.id ≠ u.id ∧ t.writes = false ∧ u.writes = false)

end Slot

/-- What one thread guarantees is what the other relies on. -/
theorem guar_rely {t u : Slot} (h : t.Beyond u) {w w' : World} (hg : t.guar w w') :
    u.rely w w' := by
  refine Same.mono hg ?_ ?_
  · rintro id d ⟨hu, hown⟩ ⟨ht, hown'⟩
    rcases h with hne | ⟨hne, hr, hr'⟩
    · exact hne (ht.symm.trans hu)
    · have hid : id = u.id := hown.resolve_right (by rw [hr']; exact Bool.false_ne_true)
      have hid' : id = t.id := hown'.resolve_right (by rw [hr]; exact Bool.false_ne_true)
      exact hne (hid'.symm.trans hid)
  · rintro i rfl ⟨ht, hw⟩
    rcases h with hne | ⟨-, hr, -⟩
    · exact hne ht.symm
    · exact Bool.false_ne_true (hr.symm.trans hw)

section Slot

variable {t : Slot} {D : List UInt8} {pos : Nat} {w : World}

theorem on_stable (t : Slot) (D : List UInt8) (pos : Nat) : Stable t.rely (On t D pos) := by
  intro w w' ho hs
  obtain ⟨hf, hd⟩ := hs.find ho.find ⟨by rw [ho.desc], .inl rfl⟩
  exact ⟨by rw [hs.host]; exact ho.calm, hf, hd.trans ho.desc, by rw [hs.table]; exact ho.entry,
    by rw [hs.names]; exact ho.name, (hs.data rfl).trans ho.data⟩

namespace On

theorem regular (ho : On t D pos w) : (w.kern.desc t.id).regular = true := by rw [ho.desc]

theorem readable (ho : On t D pos w) : (w.kern.desc t.id).flags.acc.readable = true := by
  rw [ho.desc]
  exact t.readable

theorem writable (ho : On t D pos w) (hw : t.writes = true) :
    (w.kern.desc t.id).flags.acc.writable = true := by
  rw [ho.desc]
  exact t.writable hw

theorem inode (ho : On t D pos w) : (w.kern.desc t.id).inode = t.inode := by rw [ho.desc]

theorem cursor (ho : On t D pos w) : (w.kern.desc t.id).pos = pos := by rw [ho.desc]

/-- A write goes to the place it is meant for. -/
theorem target (ho : On t D pos w) (n : Nat) : w.kern.target (w.kern.desc t.id) n = n := by
  rw [Kernel.target, ho.desc]
  exact if_neg (by rw [t.noAppend]; decide)

theorem tock (ho : On t D pos w) (n : Nat) : On t D pos { w with kern := w.kern.tock n } :=
  ⟨ho.calm, ho.find, ho.desc, ho.entry, ho.name, ho.data⟩

theorem setPos (ho : On t D pos w) (p : Nat) :
    On t D p { w with kern := w.kern.setPos t.id p } := by
  refine ⟨ho.calm, ho.find, ?_, ho.entry, ho.name, ho.data⟩
  show (w.kern.setPos t.id p).desc t.id = _
  rw [Kernel.setPos_desc_self, ho.desc]

theorem setData (ho : On t D pos w) (D' : List UInt8) :
    On t D' pos { w with kern := w.kern.setData t.inode D' } :=
  ⟨ho.calm, ho.find, ho.desc, ho.entry, ho.name, FileStore.store_data_self ..⟩

/-- What a thread does to its own file and its own cursor is within its guarantee. -/
theorem guar_setPos (ho : On t D pos w) (p : Nat) :
    t.guar w { w with kern := w.kern.setPos t.id p } := by
  have hid : ¬ ¬ t.Owns t.id (w.kern.desc t.id) := not_not.mpr ⟨ho.inode, .inl rfl⟩
  exact @Same.setPos (fun id d => ¬ t.Owns id d) _ w t.id hid p

theorem guar_setData (hw : t.writes = true) (D' : List UInt8) (w : World) :
    t.guar w { w with kern := w.kern.setData t.inode D' } := by
  have hi : ¬ ¬ (t.inode = t.inode ∧ t.writes = true) := not_not.mpr ⟨rfl, hw⟩
  exact @Same.setData _ (fun i => ¬ (i = t.inode ∧ t.writes = true)) w t.inode hi D'

theorem guar_tock (w : World) (n : Nat) : t.guar w { w with kern := w.kern.tock n } :=
  Same.tock w n

end On

/-! ## The real calls of a thread -/

/-- From every state that `P` describes the call `q` is answered by `b`, leads to a state that
    `P'` describes, and leaves the other files alone. -/
def Does (t : Slot) (P : World → Prop) (q : RealCall) (b : Answer q) (P' : World → Prop) : Prop :=
  ∀ w, P w → ∃ w', perform q w = .ok (b, w') ∧ t.guar w w' ∧ P' w'

/-- A specification of the thread of a slot. -/
def Slot.Meets (t : Slot) {α : Type} (post : α → World → Prop) (s : Thread α) (w : World) : Prop :=
  Rely.Meets perform t.rely t.guar post s w

/-- A call whose answer is known. -/
theorem Does.meets {α : Type} {post : α → World → Prop} {P P' : World → Prop} {q : RealCall}
    {b : Answer q} {f : Answer q → Thread α} (h : Does t P q b P') (hP : Stable t.rely P)
    (hw : P w) (hrest : ∀ w, P' w → t.Meets post (f b) w) : t.Meets post (real q >>= f) w := by
  have hcall : ∀ w, P w → ∃ b' w', perform q w = .ok (b', w') ∧ t.guar w w' ∧
      (b' = b ∧ P' w') := by
    intro w hw
    obtain ⟨w', hrun, hguar, hP'⟩ := h w hw
    exact ⟨b, w', hrun, hguar, rfl, hP'⟩
  refine Meets.step hP hw hcall ?_
  rintro b' w ⟨rfl, hP'⟩
  exact hrest w hP'

theorem does_calloc : Does t (On t D pos) .calloc true (On t D pos) := fun w ho =>
  ⟨_, calloc_calm ho.calm, .tock w 1, ho.tock 1⟩

theorem does_fstat : Does t (On t D pos) (.fstat t.fd) (some ⟨true, D.length⟩) (On t D pos) := by
  intro w ho
  have hcall := Kernel.sysFstat_calm ho.calm ho.find
  rw [ho.regular, ho.inode, ho.data] at hcall
  exact ⟨_, linker_fstat_ok hcall, .tock w 1, ho.tock 1⟩

theorem does_query : Does t (On t D pos) (.query t.fd) (some t.entry) (On t D pos) := by
  intro w ho
  refine ⟨w, ?_, refl_of t.guar w, ho⟩
  show TeProgram.file_info_list_query_by_fd t.fd w = _
  rw [query_ok, ho.entry]

/-- Asking for the cursor. -/
theorem does_tell : Does t (On t D pos) (.lseek t.fd 0 .cur) pos (On t D pos) := by
  intro w ho
  have hcall := Kernel.sysLseek_here ho.calm ho.find ho.regular
  rw [ho.cursor] at hcall
  exact ⟨_, linker_lseek_ok hcall, .tock w 1, ho.tock 1⟩

/-- What an offset is counted from. -/
def origin (D : List UInt8) (pos : Nat) : Whence → Int
  | .set => 0
  | .cur => pos
  | .fin => D.length

/-- A seek to a place that exists. -/
theorem does_lseek {o : Int} {whence : Whence} {n : Nat} (h : origin D pos whence + o = n) :
    Does t (On t D pos) (.lseek t.fd o whence) n (On t D n) := by
  intro w ho
  have hbase : w.kern.seekBase (w.kern.desc t.id) whence + o = n := by
    rw [← h]
    cases whence with
    | set => rfl
    | cur => rw [Kernel.seekBase, ho.cursor, origin]
    | fin => rw [Kernel.seekBase, ho.inode, ho.data, origin]
  have hcall := Kernel.sysLseek_calm ho.calm ho.find ho.regular o whence
  rw [hbase, if_neg (by omega), Int.toNat_natCast] at hcall
  exact ⟨_, linker_lseek_ok hcall, trans_of t.guar (On.guar_tock w 1) ((ho.tock 1).guar_setPos n),
    (ho.tock 1).setPos n⟩

theorem does_pread (off n : Nat) : Does t (On t D pos) (.pread t.fd n off)
    (((slice D off n).length : Int), slice D off n) (On t D pos) := by
  intro w ho
  have hcall := Kernel.sysPread_calm ho.calm ho.find ho.regular ho.readable n
    (Int.natCast_nonneg off)
  rw [ho.inode, ho.data, Int.toNat_natCast] at hcall
  exact ⟨_, linker_pread_ok hcall, .tock w 1, ho.tock 1⟩

theorem does_read (n : Nat) : Does t (On t D pos) (.read t.fd n)
    (((slice D pos n).length : Int), slice D pos n) (On t D (pos + (slice D pos n).length)) := by
  intro w ho
  have hcall := Kernel.sysRead_calm ho.calm ho.find ho.regular ho.readable n
  rw [ho.inode, ho.data, ho.cursor] at hcall
  exact ⟨_, linker_read_ok hcall, trans_of t.guar (On.guar_tock w 1) ((ho.tock 1).guar_setPos _),
    (ho.tock 1).setPos _⟩

theorem does_write (hw : t.writes = true) {b : List UInt8} (hb : b ≠ []) :
    Does t (On t D pos) (.write t.fd b) b.length
      (On t (overlay 0 D pos b) (pos + b.length)) := by
  intro w ho
  have hcall := Kernel.sysWrite_calm ho.calm ho.find ho.regular (ho.writable hw) hb
  rw [ho.cursor, ho.target, ho.inode, ho.data] at hcall
  have ho' := (ho.tock 1).setData (overlay 0 D pos b)
  exact ⟨_, linker_write_ok hcall, trans_of t.guar (On.guar_tock w 1)
    (trans_of t.guar (On.guar_setData hw _ _) (ho'.guar_setPos _)), ho'.setPos _⟩

theorem does_write_nil (hw : t.writes = true) :
    Does t (On t D pos) (.write t.fd []) 0 (On t D pos) := by
  intro w ho
  have hcall := Kernel.sysWrite_nil ho.calm ho.find
  rw [if_pos (ho.writable hw)] at hcall
  exact ⟨_, linker_write_ok hcall, .tock w 1, ho.tock 1⟩

/-! ## The second descriptor of a write -/

/-- The slot, and another descriptor on its file. -/
structure Beside (t : Slot) (D : List UInt8) (pos : Nat) (rfd : Int) (w : World) : Prop where
  on : On t D pos w
  second : ∃ rid, rid ≠ t.id ∧ w.kern.find rfd = some rid ∧
    w.kern.desc rid = { inode := t.inode, pos := 0, flags := { acc := .rdwr } }

variable {rfd : Int}

theorem beside_stable {t : Slot} (hw : t.writes = true) (D : List UInt8) (pos : Nat) (rfd : Int) :
    Stable t.rely (Beside t D pos rfd) := by
  intro w w' hb hs
  obtain ⟨rid, hne, hfind, hdesc⟩ := hb.second
  obtain ⟨hf, hd⟩ := hs.find hfind ⟨by rw [hdesc], .inr hw⟩
  exact ⟨on_stable t D pos w w' hb.on hs, rid, hne, hf, hd.trans hdesc⟩

/-- The recorded path is opened: which number it gets is the host's choice. -/
theorem opens_second (ho : On t D pos w) : ∃ rfd w',
    perform (.openFile t.entry.file_path { acc := .rdwr }) w = .ok (rfd, w') ∧ t.guar w w' ∧
      Beside t D pos rfd w' := by
  have hcall := Kernel.sysOpen_calm (f := { acc := .rdwr }) ho.calm ho.name rfl rfl
  let k := w.kern.tock 1
  let k' := (k.install w.kern.answer.hint t.inode { acc := .rdwr }
    (w.kern.files.names_lt _ _ ho.name)).2
  have hid : t.id < w.kern.nextDesc := w.kern.find_lt ho.find
  have hguar : t.guar w { w with kern := k' } :=
    trans_of t.guar (On.guar_tock w 1) (Same.install (w := { w with kern := k }) _)
  refine ⟨w.kern.freeFd w.kern.answer.hint, { w with kern := k' }, linker_open_ok hcall, hguar,
    ⟨ho.calm, ?_, ?_, ho.entry, ho.name, ho.data⟩, w.kern.nextDesc, Nat.ne_of_gt hid, ?_, ?_⟩
  · exact Kernel.install_find_some (k := k) ho.find
  · exact (Kernel.install_desc_lt (k := k) hid).trans ho.desc
  · exact Kernel.install_find_self (k := k)
  · exact Kernel.install_desc_self (k := k)

/-- It is read from. -/
theorem does_pread_second (off n : Nat) : Does t (Beside t D pos rfd) (.pread rfd n off)
    (((slice D off n).length : Int), slice D off n) (Beside t D pos rfd) := by
  intro w hb
  obtain ⟨rid, hne, hfind, hdesc⟩ := hb.second
  have hcall := Kernel.sysPread_calm hb.on.calm hfind (by rw [hdesc]) (by rw [hdesc]; rfl) n
    (Int.natCast_nonneg off)
  rw [hdesc, hb.on.data, Int.toNat_natCast] at hcall
  exact ⟨_, linker_pread_ok hcall, .tock w 1, hb.on.tock 1, rid, hne, hfind, hdesc⟩

/-- The prefix goes back through the first descriptor. -/
theorem does_pwrite (hw : t.writes = true) (b : List UInt8) (off : Nat) :
    Does t (Beside t D pos rfd) (.pwrite t.fd b off) b.length
      (Beside t (overlay 0 D off b) pos rfd) := by
  intro w hb
  have ho := hb.on
  have hcall : w.kern.sysPwrite t.fd b off = _ := sysPwrite_any ho.find ho.regular b off
  rw [ho.writable hw, allowed_true, Kernel.answer, reported_calm ho.calm, given_calm ho.calm,
    List.take_length, ho.target, ho.inode, ho.data] at hcall
  exact ⟨_, linker_pwrite_ok hcall, trans_of t.guar (On.guar_tock w 1) (On.guar_setData hw _ _),
    (ho.tock 1).setData _, hb.second⟩

/-- It is closed. -/
theorem does_close_second (hw : t.writes = true) :
    Does t (Beside t D pos rfd) (.close rfd) 0 (On t D pos) := by
  intro w hb
  have ho := hb.on
  obtain ⟨rid, hne, hfind, hdesc⟩ := hb.second
  have hcall := Kernel.sysClose_calm ho.calm hfind
  have hfd : t.fd ≠ rfd := by
    intro heq
    rw [← heq] at hfind
    exact hne (Option.some.inj (hfind.symm.trans ho.find))
  have hid : ¬ ¬ t.Owns rid ((w.kern.tock 1).desc rid) := by
    rw [Kernel.tock_desc, hdesc]
    exact not_not.mpr ⟨rfl, .inr hw⟩
  have hguar : t.guar w { w with kern := (w.kern.tock 1).dropFd rfd } :=
    trans_of t.guar (On.guar_tock w 1)
      (@Same.dropFd (fun id d => ¬ t.Owns id d) _ { w with kern := w.kern.tock 1 } rfd rid hfind
        hid)
  exact ⟨_, linker_close_ok hcall, hguar, ho.calm,
    (Kernel.dropFd_find_ne (k := w.kern.tock 1) hfd).trans ho.find, ho.desc, ho.entry, ho.name,
    ho.data⟩

/-! ## The hooks -/

/-- The thread returns `a`, in a state that `P` describes. -/
def Ends {α : Type} (a : α) (P : World → Prop) : α → World → Prop := fun b w => b = a ∧ P w

/-- A last call. -/
theorem Does.last {P P' : World → Prop} {q : RealCall} {b : Answer q} (h : Does t P q b P')
    (hP : Stable t.rely P) (hP' : Stable t.rely P') (hw : P w) :
    t.Meets (Ends b P') (real q) w :=
  h.meets (f := fun b => (pure b : Thread _)) hP hw fun _ hw =>
    Meets.done hP' hw fun _ hw => ⟨rfl, hw⟩

variable {env : Env} (henv : env.Active)

/-- The test for an encrypted file finds the entry. -/
theorem meets_passes_through (ho : On t D pos w) :
    t.Meets (Ends false (On t D pos)) (passes_through t.fd) w :=
  does_query.meets (on_stable t D pos) ho fun _ ho =>
    Meets.done (on_stable t D pos) ho fun _ ho => ⟨rfl, ho⟩

variable {dev : Device} {H : List UInt8} {f : PlainFile}

/-- The raw file of the plain file `f`, with the cursor where `f` has it. -/
def Sits (dev : Device) (t : Slot) (H : List UInt8) (f : PlainFile) : World → Prop :=
  On t (H ++ stored dev.aes f.bytes) (FILE_HEADER_POLL_SIZE + f.pos)

theorem sits_stable (dev : Device) (t : Slot) (H : List UInt8) (f : PlainFile) :
    Stable t.rely (Sits dev t H f) := on_stable t _ _

theorem meets_read_pieces (hH : H.length = FILE_HEADER_POLL_SIZE) (n : Nat)
    (hs : Sits dev t H f w) :
    t.Meets (Ends (((f.read n).length : Int), f.read n) (Sits dev t H (f.afterRead n)))
      (TeThread.read_pieces dev t.fd n ((FILE_HEADER_POLL_SIZE + f.pos : Nat) : Int)) w := by
  obtain ⟨P, p⟩ := f
  let raw := H ++ stored dev.aes P
  let D := stored dev.aes (P.drop (p / 16 * 16))
  let m := 16 - (n + (4096 + p)) % 16
  have hraw : ∀ off a l, off = 4096 + (p / 16 * 16 + a) → slice raw off l = slice D a l := by
    intro off a l hoff
    rw [hoff]
    exact raw_slice hH P p a l
  -- the calls
  have hr1 : Does t (On t raw (4096 + p))
      (.pread t.fd ((4096 + p) % 16) ((4096 + p - (4096 + p) % 16 : Nat) : Int))
      (((slice D 0 (p % 16)).length : Int), slice D 0 (p % 16)) (On t raw (4096 + p)) := by
    have h : Does t (On t raw (4096 + p)) _ _ (On t raw (4096 + p)) := does_pread
      (4096 + p - (4096 + p) % 16) ((4096 + p) % 16)
    have heq : slice raw (4096 + p - (4096 + p) % 16) ((4096 + p) % 16) = slice D 0 (p % 16) := by
      rw [hraw _ 0 _ (by omega), show (4096 + p) % 16 = p % 16 from by omega]
    rwa [heq] at h
  have hr2 : Does t (On t raw (4096 + p)) (.read t.fd n)
      (((slice D (p % 16) n).length : Int), slice D (p % 16) n)
      (On t raw (4096 + p + (slice D (p % 16) n).length)) := by
    have h : Does t (On t raw (4096 + p)) _ _ _ := does_read n
    rwa [hraw (4096 + p) (p % 16) n (by omega)] at h
  have hr3 : ∀ pos, Does t (On t raw pos) (.pread t.fd m ((4096 + p + n : Nat) : Int))
      (((slice D (p % 16 + n) m).length : Int), slice D (p % 16 + n) m) (On t raw pos) := by
    intro pos
    have h : Does t (On t raw pos) _ _ (On t raw pos) := does_pread (4096 + p + n) m
    rwa [hraw (4096 + p + n) (p % 16 + n) m (by omega)] at h
  let buf := memcpy (memcpy (memcpy (zeroed (p % 16 + n + m)) 0 (slice D 0 (p % 16)))
    (p % 16) (slice D (p % 16) n)) (p % 16 + n) (slice D (p % 16 + n) m)
  let size := (slice D 0 (p % 16)).length + (slice D (p % 16) n).length
    + (slice D (p % 16 + n) m).length
  obtain ⟨hlen, hst⟩ : (slice D (p % 16) n).length = (slice P p n).length ∧
      slice (decryptBlocks dev.aes (size / 16) buf) (p % 16) (slice D (p % 16) n).length
        = slice P p n := stitched_read dev.aes P p n
  have hcount : n + p % 16 + 16 - (n + (4096 + p)) % 16 = p % 16 + n + m := by omega
  have hstay : ∀ pos, Stable t.rely (On t raw pos) := on_stable t raw
  rw [TeThread.read_pieces, if_neg (by omega)]
  simp only [Int.toNat_natCast, show FILE_HEADER_POLL_SIZE = 4096 from rfl]
  refine does_calloc.meets (hstay _) hs fun w hs => ?_
  rw [if_pos rfl]
  refine hr1.meets (hstay _) hs fun w hs => hr2.meets (hstay _) hs fun w hs =>
    (hr3 _).meets (hstay _) hs fun w hs => ?_
  simp only [size_eq, Int.toNat_natCast, show (4096 + p) % 16 = p % 16 from by omega, hcount]
  have hs' : Sits dev t H (PlainFile.afterRead ⟨P, p⟩ n) w := by
    rw [hlen, Nat.add_assoc] at hs
    exact hs
  have hend : ∀ r, r = (((slice P p n).length : Int), slice P p n) →
      t.Meets (Ends (((slice P p n).length : Int), slice P p n)
        (Sits dev t H (PlainFile.afterRead ⟨P, p⟩ n))) (pure r) w := by
    rintro r rfl
    exact Meets.done (sits_stable dev t H _) hs' fun _ hs => ⟨rfl, hs⟩
  show t.Meets _ (if ((size : Nat) : Int) > 0 then _ else _) w
  by_cases hsize : ((size : Nat) : Int) > 0
  · rw [if_pos hsize, if_neg (by omega)]
    refine hend _ ?_
    rw [hst, hlen]
  · -- nothing arrived, and nothing was to be read
    have hnil : slice P p n = [] := List.eq_nil_of_length_eq_zero (by omega)
    rw [if_neg hsize]
    refine hend _ ?_
    rw [hlen, hnil]

include henv

/-- **A hooked read** delivers what the plain file holds. -/
theorem meets_read (hH : H.length = FILE_HEADER_POLL_SIZE) (n : Nat) (hs : Sits dev t H f w) :
    t.Meets (Ends (((f.read n).length : Int), f.read n) (Sits dev t H (f.afterRead n)))
      (TeThread.read dev env t.fd n) w := by
  rw [TeThread.read, hooked_body henv]
  refine does_calloc.meets (on_stable t _ _) hs fun w hs => ?_
  rw [if_pos rfl]
  refine does_fstat.meets (on_stable t _ _) hs fun w hs => ?_
  refine Meets.bind (meets_passes_through hs) ?_
  rintro pass w ⟨rfl, hs⟩
  rw [if_neg (by decide), TeThread.read_decrypted]
  refine does_tell.meets (on_stable t _ _) hs fun w hs => ?_
  have hbehind : ¬ (0 ≤ ((FILE_HEADER_POLL_SIZE + f.pos : Nat) : Int) ∧
      ((FILE_HEADER_POLL_SIZE + f.pos : Nat) : Int) < (FILE_HEADER_POLL_SIZE : Nat)) := by omega
  rw [if_neg hbehind]
  exact meets_read_pieces hH n hs

omit henv in
/-- From the table lookup on, whatever the file holds. -/
theorem meets_write_encrypted (hw : t.writes = true) {off : Nat} {b : List UInt8} (hb : b ≠ [])
    (ho : On t D off w) :
    t.Meets (Ends (b.length : Int) (On t (rawWrite dev.aes D off b) (off + b.length)))
      (TeThread.write_encrypted dev t.fd b off) w := by
  let r := slice D (off / 16 * 16) (off % 16)
  let X := buffer dev.aes r off b
  have hr : r.length ≤ off % 16 := by
    rw [slice_length]
    exact Nat.min_le_left _ _
  have hback : off - off % 16 = off / 16 * 16 := by omega
  have htemp : encryptBlocks dev.aes ((b.length + off % 16) / 16)
      (memcpy (memcpy (zeroed (b.length + off % 16)) 0 r) (off % 16) b) = X := by
    rw [temp_eq hr]
    exact encrypt_temp _ (front_length hr)
  have hX : X.length = off % 16 + b.length := buffer_length dev.aes hr b
  have hfront : (X.take (off % 16)).length = off % 16 := by
    rw [List.length_take, hX]
    omega
  have hrest : (X.drop (off % 16)).length = b.length := by
    rw [List.length_drop, hX]
    omega
  have hne : X.drop (off % 16) ≠ [] := by
    rw [← List.length_pos_iff, hrest]
    exact List.length_pos_iff.mpr hb
  -- the two parts join at the cursor
  have hjoin : overlay 0 (overlay 0 D (off / 16 * 16) (X.take (off % 16))) off
      (X.drop (off % 16)) = rawWrite dev.aes D off b := by
    have h := overlay_overlay 0 D (off / 16 * 16) (X.take (off % 16)) (X.drop (off % 16))
    rw [hfront, Nat.div_add_mod' off 16, List.take_append_drop] at h
    exact h
  have hpos : ¬ ((off : Nat) : Int) < 0 := by omega
  rw [TeThread.write_encrypted]
  simp only [if_neg hpos, Int.toNat_natCast]
  refine does_query.meets (on_stable t _ _) ho fun w ho => ?_
  refine Meets.step (on_stable t _ _) ho (fun w ho => opens_second ho) fun rfd w hb => ?_
  have hstay : ∀ D, Stable t.rely (Beside t D off rfd) := fun D =>
    beside_stable hw D off rfd
  refine (does_pread_second _ _).meets (hstay _) hb fun w hb => ?_
  simp only [hback, show slice D (off / 16 * 16) (off % 16) = r from rfl, htemp]
  refine (does_pwrite hw _ _).meets (hstay _) hb fun w hb => ?_
  refine (does_close_second hw).meets (hstay _) hb fun w ho => ?_
  have hlast := (does_write hw hne).last (on_stable t _ _) (on_stable t _ _) ho
  rw [hjoin, hrest] at hlast
  exact hlast

/-- **A hooked write** that fits does to the plain file what a write does. -/
theorem meets_write (hH : H.length = FILE_HEADER_POLL_SIZE) (hw : t.writes = true) {b : List UInt8}
    (hfits : b ≠ [] → WriteFits dev.aes f.bytes f.pos b) (hs : Sits dev t H f w) :
    t.Meets (Ends (b.length : Int) (Sits dev t H (f.write b))) (TeThread.write dev env t.fd b)
      w := by
  rw [TeThread.write, hooked_body henv]
  by_cases hb : b = []
  · subst hb
    have hsame : f.write [] = f := by
      rw [PlainFile.write, overlay_nil]
      rfl
    rw [if_neg (by decide), hsame]
    exact (does_write_nil hw).last (on_stable t _ _) (sits_stable dev t H f) hs
  · have hplain := (rewritten_eq_iff hb).mpr (hfits hb)
    rw [if_pos (List.length_pos_iff.mpr hb)]
    refine does_tell.meets (on_stable t _ _) hs fun w hs => ?_
    refine does_calloc.meets (on_stable t _ _) hs fun w hs => ?_
    rw [if_pos rfl]
    have hmeets : t.Meets _ (TeThread.write_encrypted dev t.fd b _) w :=
      meets_write_encrypted hw hb hs
    rw [rawWrite_stored dev.aes hH, hplain, Nat.add_assoc] at hmeets
    exact hmeets

/-- **A hooked seek** to a place that exists. -/
theorem meets_lseek (hH : H.length = FILE_HEADER_POLL_SIZE) {o : Int} {whence : Whence}
    (ht : 0 ≤ target f o whence) (hs : Sits dev t H f w) :
    t.Meets (Ends (target f o whence)
      (Sits dev t H { f with pos := (target f o whence).toNat }))
      (TeThread.lseek env t.fd o whence) w := by
  have hH' : H.length = 4096 := hH
  have hgo : origin (H ++ stored dev.aes f.bytes) (FILE_HEADER_POLL_SIZE + f.pos) whence
      + (if whence = .set then o + (FILE_HEADER_POLL_SIZE : Nat) else o)
      = ((FILE_HEADER_POLL_SIZE + (target f o whence).toNat : Nat) : Int) := by
    have hlen : (H ++ stored dev.aes f.bytes).length = 4096 + f.size := by
      rw [List.length_append, hH', stored_length]
      rfl
    have hnat : ((target f o whence).toNat : Int) = target f o whence := Int.toNat_of_nonneg ht
    show _ = ((4096 + (target f o whence).toNat : Nat) : Int)
    cases whence with
    | set =>
        have htarget : target f o .set = o := rfl
        show (0 : Int) + (o + ((4096 : Nat) : Int)) = _
        omega
    | cur =>
        have htarget : target f o .cur = f.pos + o := rfl
        show ((4096 + f.pos : Nat) : Int) + o = _
        omega
    | fin =>
        have htarget : target f o .fin = f.size + o := rfl
        show ((H ++ stored dev.aes f.bytes).length : Int) + o = _
        omega
  rw [TeThread.lseek, hooked_body henv]
  refine Meets.bind (meets_passes_through hs) ?_
  rintro pass w ⟨rfl, hs⟩
  rw [if_neg (by decide)]
  refine (does_lseek hgo).meets (on_stable t _ _) hs fun w hs => ?_
  have hback : ((FILE_HEADER_POLL_SIZE + (target f o whence).toNat : Nat) : Int)
      - (FILE_HEADER_POLL_SIZE : Nat) = target f o whence := by omega
  have hs' : Sits dev t H { f with pos := (target f o whence).toNat } w := hs
  rw [hback]
  exact Meets.done (sits_stable dev t H _) hs' fun _ hs => ⟨rfl, hs⟩

end Slot

/-! ## The head of a hook -/

section Head

open TeGate TeDomain TeSecurity

/-- A process that is served by its own properties: it is trusted, and its own list switches
    its domain on. -/
structure Switched (pf : Platform) extends Process where
  trusted : is_trust_process pf toProcess ≠ 0
  personal : get_personal_state props (get_process_domain pf.long props) ≠ 0

namespace Switched

variable {pf : Platform} (p : Switched pf)

/-- What a hook of the loaded library finds. -/
def env : Env where
  linker_running_state := true
  is_trust_process := decide (TeGate.is_trust_process pf p.toProcess ≠ 0)
  get_domain_state :=
    decide (get_personal_state p.props (get_process_domain pf.long p.props) ≠ 0)

theorem active : p.env.Active := ⟨rfl, decide_eq_true p.trusted, decide_eq_true p.personal⟩

/-- The configuration is not asked for. -/
theorem domain_state (w : World) : get_domain_state pf.long p.props w =
    .ok (get_personal_state p.props (get_process_domain pf.long p.props), w) := by
  rw [get_domain_state_eq rfl (domain_ne_zero p.trusted), if_pos p.personal]

/-- **The head** finds what it should, without a real call. -/
theorem conditions_found (lib : Linkage) {m : Image} (hm : m.linker_running_state ≠ 0) :
    conditions pf lib p.toProcess true m = .ok (p.env, m) := by
  have hrun : update_linker_running_state lib m = .ok (m.linker_running_state, m) := by
    rw [update_linker_running_state, bind_ok (show running_state m = .ok (_, m) from rfl),
      if_neg hm]
    rfl
  have hloaded : ¬ (m.linker_running_state = 0 ∨ true = false) := by
    rintro (hzero | hfalse)
    · exact hm hzero
    · cases hfalse
  rw [conditions, bind_ok hrun, if_neg hloaded, if_neg p.trusted,
    bind_ok (inWorld_ok (p.domain_state m.world)), env, decide_eq_true p.trusted]
  rfl

end Switched

end Head

/-! ## Sessions -/

/-- What a thread asks of its file. -/
inductive Request where
  | read (count : Nat)
  | write (buf : List UInt8)
  | lseek (offset : Int) (whence : Whence)

namespace Request

/-- Through the hooks. -/
def hook (dev : Device) (env : Env) (fd : Int) : Request → Thread Reply
  | .read n => do
      let r ← TeThread.read dev env fd n
      pure (.data r.1 r.2)
  | .write b => do
      let r ← TeThread.write dev env fd b
      pure (.result r)
  | .lseek o whence => do
      let r ← TeThread.lseek env fd o whence
      pure (.result r)

/-- The call that it is. -/
def call (fd : Int) : Request → Call
  | .read n => .read fd n
  | .write b => .write fd b
  | .lseek o whence => .lseek fd o whence

/-- Head and body: run without interruption, a request of a process that is served by its own
    properties is the gated call. -/
theorem hook_alone {pf : TeGate.Platform} {lib : TeGate.Linkage} (dev : Device) (p : Switched pf)
    (q : Request) {fd : Int} {m : TeGate.Image} (hm : m.linker_running_state ≠ 0)
    (hlinked : lib.linked (q.call fd) = true) :
    TeGate.gated dev pf lib p.toProcess (q.call fd) m =
      TeGate.inWorld (Script.run perform (q.hook dev p.env fd)) m := by
  rw [TeGate.gated, hlinked, bind_ok (p.conditions_found lib hm)]
  cases q with
  | read n =>
      rw [call, hook, TeTransparent.run, Script.run_bind, run_read]
      rfl
  | write b =>
      rw [call, hook, TeTransparent.run, Script.run_bind, run_write]
      rfl
  | lseek o whence =>
      rw [call, hook, TeTransparent.run, Script.run_bind, run_lseek]
      rfl

/-- What the plain file answers. -/
def reply (f : PlainFile) : Request → Reply
  | .read n => .data (f.read n).length (f.read n)
  | .write b => .result b.length
  | .lseek o whence => .result (target f o whence)

/-- And what becomes of it. -/
def after (f : PlainFile) : Request → PlainFile
  | .read n => f.afterRead n
  | .write b => f.write b
  | .lseek o whence => { f with pos := (target f o whence).toNat }

/-- The thread has the right to write, a write fits, and a seek goes to a place that exists. -/
def Granted (dev : Device) (t : Slot) (f : PlainFile) : Request → Prop
  | .read _ => True
  | .write b => t.writes = true ∧ (b ≠ [] → WriteFits dev.aes f.bytes f.pos b)
  | .lseek o whence => 0 ≤ target f o whence

end Request

/-- Requests one after the other; what the process finds out about itself comes with each. -/
def session {pf : TeGate.Platform} (dev : Device) (fd : Int) :
    List (Switched pf × Request) → Thread (List Reply)
  | [] => pure []
  | (p, q) :: qs => do
      let r ← q.hook dev p.env fd
      let rs ← session dev fd qs
      pure (r :: rs)

def replies : PlainFile → List Request → List Reply
  | _, [] => []
  | f, q :: qs => q.reply f :: replies (q.after f) qs

def after : PlainFile → List Request → PlainFile
  | f, [] => f
  | f, q :: qs => after (q.after f) qs

def AllGranted (dev : Device) (t : Slot) : PlainFile → List Request → Prop
  | _, [] => True
  | f, q :: qs => q.Granted dev t f ∧ AllGranted dev t (q.after f) qs

section Session

variable {dev : Device} {pf : TeGate.Platform} {t : Slot} {H : List UInt8}
  (hH : H.length = FILE_HEADER_POLL_SIZE)
include hH

theorem meets_request {f : PlainFile} {q : Request} (hq : q.Granted dev t f) (p : Switched pf)
    {w : World} (hs : Sits dev t H f w) :
    t.Meets (Ends (q.reply f) (Sits dev t H (q.after f))) (q.hook dev p.env t.fd) w := by
  have hend : ∀ {r : Reply} {g : PlainFile} {w}, Sits dev t H g w →
      t.Meets (Ends r (Sits dev t H g)) (pure r) w := fun hs =>
    Meets.done (sits_stable dev t H _) hs fun _ hs => ⟨rfl, hs⟩
  cases q with
  | read n =>
      refine Meets.bind (meets_read p.active hH n hs) ?_
      rintro r w ⟨rfl, hs⟩
      exact hend hs
  | write b =>
      refine Meets.bind (meets_write p.active hH hq.1 hq.2 hs) ?_
      rintro r w ⟨rfl, hs⟩
      exact hend hs
  | lseek o whence =>
      refine Meets.bind (meets_lseek p.active hH hq hs) ?_
      rintro r w ⟨rfl, hs⟩
      exact hend hs

/-- A whole session, with other threads at every point. -/
theorem meets_session (qs : List (Switched pf × Request)) : ∀ {f : PlainFile} {w : World},
    AllGranted dev t f (qs.map Prod.snd) → Sits dev t H f w →
    t.Meets (Ends (replies f (qs.map Prod.snd)) (Sits dev t H (after f (qs.map Prod.snd))))
      (session dev t.fd qs) w := by
  induction qs with
  | nil =>
      intro f w _ hs
      exact Meets.done (sits_stable dev t H f) hs fun _ hs => ⟨rfl, hs⟩
  | cons q qs ih =>
      obtain ⟨p, q⟩ := q
      rintro f w ⟨hq, hqs⟩ hs
      refine Meets.bind (meets_request hH hq p hs) ?_
      rintro r w ⟨rfl, hs⟩
      refine Meets.bind (ih hqs hs) ?_
      rintro rs w ⟨rfl, hs⟩
      exact Meets.done (sits_stable dev t H _) hs fun _ hs => ⟨rfl, hs⟩

end Session

/-! ## All threads -/

/-- A thread with its descriptor, the plain file it stands for, what it asks, and what the
    process finds out about itself each time. -/
structure Task (pf : TeGate.Platform) where
  slot : Slot
  header : List UInt8
  file : PlainFile
  calls : List (Switched pf × Request)

section Task

variable {pf : TeGate.Platform} (k : Task pf)

namespace Task

def requests : List Request := k.calls.map Prod.snd

/-- Its hooks, one after the other. -/
def script (dev : Device) : Thread (List Reply) := session dev k.slot.fd k.calls

def replies : List Reply := TeParallel.replies k.file k.requests

/-- The thread can start: its file is stored behind a header, and what it asks is granted. -/
structure Ready (dev : Device) (w : World) : Prop where
  header : k.header.length = FILE_HEADER_POLL_SIZE
  sits : Sits dev k.slot k.header k.file w
  granted : AllGranted dev k.slot k.file k.requests

/-- Its file holds what it should at the end, and the cursor is there. -/
def Served (dev : Device) (w : World) : Prop :=
  Sits dev k.slot k.header (after k.file k.requests) w

end Task

end Task

/-- A file that one task may write is used by that one only. -/
def Apart {pf : TeGate.Platform} (ks : List (Task pf)) : Prop :=
  ∀ {i j : Nat} {k l : Task pf}, ks[i]? = some k → ks[j]? = some l → i ≠ j → k.slot.Beyond l.slot

section All

variable {dev : Device} {pf : TeGate.Platform} {ks : List (Task pf)}

/-- What the thread of a number relies on, guarantees, and comes to. -/
def relies (ks : List (Task pf)) (i : Nat) (w w' : World) : Prop :=
  ∀ k, ks[i]? = some k → k.slot.rely w w'

def guars (ks : List (Task pf)) (i : Nat) (w w' : World) : Prop :=
  ∃ k, ks[i]? = some k ∧ k.slot.guar w w'

def comes (dev : Device) (ks : List (Task pf)) (i : Nat) (rs : List Reply) (w : World) : Prop :=
  ∀ k, ks[i]? = some k → rs = k.replies ∧ k.Served dev w

instance (ks : List (Task pf)) (i : Nat) : IsPreorder World (relies ks i) where
  refl w k _ := refl_of k.slot.rely w
  trans _ _ _ h h' k hk := trans_of k.slot.rely (h k hk) (h' k hk)

theorem guars_relies (hapart : Apart ks) {i j : Nat} (hne : i ≠ j) (w w' : World)
    (h : guars ks i w w') : relies ks j w w' := by
  obtain ⟨k, hk, hguar⟩ := h
  exact fun l hl => guar_rely (hapart hk hl hne) hguar

/-- At the start every thread meets its specification. -/
theorem all_meet {w : World} (hready : ∀ k ∈ ks, k.Ready dev w) :
    AllMeet perform (relies ks) (guars ks) (comes dev ks) (w, ks.map (Task.script · dev)) := by
  refine ⟨trivial, fun i t ht => ?_⟩
  obtain ⟨k, hk, rfl⟩ : ∃ k, ks[i]? = some k ∧ k.script dev = t := by
    rw [List.getElem?_map] at ht
    exact Option.map_eq_some_iff.mp ht
  have hr := hready k (List.mem_of_getElem? hk)
  have hmeets := meets_session hr.header k.calls hr.granted hr.sits
  refine hmeets.mono (fun w w' h => h k hk) (fun w w' h => ⟨k, hk, h⟩) ?_
  rintro rs w ⟨rfl, hs⟩ l hl
  obtain rfl := Option.some.inj (hk.symm.trans hl)
  exact ⟨rfl, hs⟩

/-- A thread that has come to its end. -/
theorem comes_of_done {c : World × List (Thread (List Reply))}
    (hall : AllMeet perform (relies ks) (guars ks) (comes dev ks) c) {i : Nat} {k : Task pf}
    {rs : List Reply} (hk : ks[i]? = some k) (ht : c.2[i]? = some (.done rs)) :
    rs = k.replies ∧ k.Served dev c.1 :=
  hall.2 i _ ht c.1 (refl_of (relies ks i) c.1) k hk

end All

/-- **Threads.**  Any number of threads of a process that is served by its own properties read,
    write and seek through tracked descriptors on encrypted files; a file that one of them may
    write is used by that one only, and threads that only read a file have descriptors of their
    own.  In every order in which their real calls can follow each other nothing undefined
    happens; a thread that has come to its end has the replies that the plain file gives, and
    its file holds what it should; and every such run can be continued until all threads have. -/
theorem threads_transparent {dev : Device} {pf : TeGate.Platform} {w : World}
    {ks : List (Task pf)} (hready : ∀ k ∈ ks, k.Ready dev w) (hapart : Apart ks) (as : List Nat) :
    ∃ w' ts, (threads perform).poolRun as (w, ks.map (Task.script · dev)) = some (w', ts) ∧
      (∀ (i : Nat) (k : Task pf) (rs : List Reply), ks[i]? = some k → ts[i]? = some (.done rs) →
        rs = k.replies ∧ k.Served dev w') ∧
      ∃ bs w'', (threads perform).poolRun bs (w', ts)
          = some (w'', ks.map fun k => .done k.replies) ∧
        ∀ k ∈ ks, k.Served dev w'' := by
  obtain ⟨⟨w', ts⟩, hrun, hall⟩ := parallel (fun i j hne => guars_relies hapart hne) as
    (all_meet hready)
  obtain ⟨bs, ⟨w'', us⟩, hrest, hall', hlen, hfin⟩ :=
    parallel_finishes (fun i j hne => guars_relies hapart hne) hall
  have hlength : us.length = ks.length := by
    rw [show us.length = ts.length from hlen, (threads perform).poolRun_length as hrun,
      List.length_map]
  have hends : ∀ (i : Nat) (k : Task pf), ks[i]? = some k →
      us[i]? = some (.done k.replies) ∧ k.Served dev w'' := by
    intro i k hk
    have hlt : i < us.length := by
      rw [hlength]
      exact (List.getElem?_eq_some_iff.mp hk).1
    have hu := List.getElem?_eq_getElem hlt
    have hdone := hfin us[i] (List.getElem_mem hlt)
    cases hthread : us[i] with
    | done rs =>
        rw [hthread] at hu
        obtain ⟨rfl, hserved⟩ := comes_of_done hall' hk hu
        exact ⟨hu, hserved⟩
    | stop e =>
        rw [hthread] at hdone
        exact hdone.elim
    | call q f =>
        rw [hthread] at hdone
        exact hdone.elim
  refine ⟨w', ts, hrun, fun i k rs hk ht => comes_of_done hall hk ht, bs, w'', ?_, fun k hk => ?_⟩
  · rw [hrest]
    congr 2
    apply List.ext_getElem?
    intro i
    rw [List.getElem?_map]
    cases hk : ks[i]? with
    | some k => exact (hends i k hk).1
    | none =>
        refine List.getElem?_eq_none ?_
        rw [hlength]
        exact List.getElem?_eq_none_iff.mp hk
  · obtain ⟨i, hi⟩ := List.getElem?_of_mem hk
    exact (hends i k hi).2

/-- Twenty bytes behind the header `H`. -/
def twentyStored (H : List UInt8) : List UInt8 := H ++ stored zeroBlockAes (zeroed 20)

def gName : Path := [0x67]

/-- The files `"f"` and `"g"`, each open for reading and writing with an entry. -/
def twoOpen (H : List UInt8) : World where
  kern :=
    let k := Kernel.oneDescriptor (twentyStored H) { acc := .rdwr } FILE_HEADER_POLL_SIZE
    let k := (k.setFiles (k.files.create gName) (Nat.le_succ _)).setData 2 (twentyStored H)
    (k.install 0 2 { acc := .rdwr } (Nat.lt_succ_self 2)).2.setPos 2 FILE_HEADER_POLL_SIZE
  file_info_list := [⟨3, Kernel.aName, some 1⟩, ⟨1, gName, some 2⟩]

/-- A process of user 5 whose list switches domain 5 on. -/
def aSwitched : Switched TeGate.aPlatform :=
  { TeGate.switchedProcess with trusted := by decide, personal := by decide }

/-- The same process with another list. -/
def laterSwitched : Switched TeGate.aPlatform where
  props name :=
    if name = "persist.encryption.enable" then ⟨CString.text "7:0,5:2", by decide, by decide⟩
    else TeSecurity.five
  getuid := aSwitched.getuid
  trusted := by decide
  personal := by decide

/-- A thread at the start of one of the two. -/
def aTask (H : List UInt8) (fd : Int) (i : Nat) (path : Path) (writes : Bool)
    (qs : List (Switched TeGate.aPlatform × Request)) : Task TeGate.aPlatform where
  slot := ⟨fd, i, i, ⟨fd, path, some i⟩, { acc := .rdwr }, writes, rfl, fun _ => rfl, rfl⟩
  header := H
  file := ⟨zeroed 20, 0⟩
  calls := qs

def appending : List (Switched TeGate.aPlatform × Request) :=
  [(aSwitched, .lseek 0 .fin), (aSwitched, .write (List.replicate 14 7)),
    (laterSwitched, .lseek 0 .set), (laterSwitched, .read 40)]

def reading : List (Switched TeGate.aPlatform × Request) :=
  [(aSwitched, .read 17), (laterSwitched, .read 17)]

/-- One thread appends 14 bytes to `"f"` and reads it, the other reads `"g"`. -/
def twoTasks (H : List UInt8) : List (Task TeGate.aPlatform) :=
  [aTask H 3 1 Kernel.aName true appending, aTask H 1 2 gName false reading]

theorem twoTasks_ready {H : List UInt8} (hH : H.length = FILE_HEADER_POLL_SIZE) :
    ∀ k ∈ twoTasks H, k.Ready aDevice (twoOpen H) := by
  intro k hk
  rcases List.mem_cons.mp hk with rfl | hk
  · have hend : (0 : Int) ≤ target ⟨zeroed 20, 0⟩ 0 .fin := by decide
    have hclean : Clean (zeroed 20) 20 14 := by decide
    exact ⟨hH, ⟨fun _ => ⟨rfl, rfl, rfl⟩, rfl, rfl, rfl, rfl, rfl⟩, hend,
      ⟨rfl, fun _ => writeFits_of_clean hclean⟩, Int.le_refl 0, trivial, trivial⟩
  · obtain rfl := List.mem_singleton.mp hk
    exact ⟨hH, ⟨fun _ => ⟨rfl, rfl, rfl⟩, rfl, rfl, rfl, rfl, rfl⟩, trivial, trivial, trivial⟩

theorem twoTasks_apart (H : List UInt8) : Apart (twoTasks H) := by
  have hfiles : (1 : Nat) ≠ 2 := by decide
  intro i j k l hi hj hne
  rcases i with _ | _ | i
  all_goals rcases j with _ | _ | j
  all_goals try cases hi
  all_goals try cases hj
  all_goals first | exact absurd rfl hne | exact .inl hfiles | exact .inl hfiles.symm

theorem threads_transparent_two : ∃ w' ts,
    (threads perform).poolRun [0, 1, 0, 1, 1, 0, 0, 1] (twoOpen (newHeader none),
      [session aDevice 3 appending, session aDevice 1 reading]) = some (w', ts) ∧
    ∃ bs w'', (threads perform).poolRun bs (w', ts) = some (w'',
      [.done [.result 20, .result 14, .result 0,
          .data 34 (zeroed 20 ++ List.replicate 14 7)],
        .done [.data 17 (zeroed 17), .data 3 (zeroed 3)]]) := by
  obtain ⟨w', ts, hrun, -, bs, w'', hrest, -⟩ :=
    @threads_transparent aDevice TeGate.aPlatform (twoOpen (newHeader none))
      (twoTasks (newHeader none)) (twoTasks_ready (newHeader_length none)) (twoTasks_apart _)
      [0, 1, 0, 1, 1, 0, 0, 1]
  exact ⟨w', ts, hrun, bs, w'', hrest⟩

end TeParallel
