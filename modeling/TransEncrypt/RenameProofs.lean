import TransEncrypt.SequentialProofs

/-! # Writing while the names change

    Before it encrypts, a hooked write fetches the pending bytes of the file from the
    recorded path, which by then may denote nothing, or another file (`TeSequential.shown`).

    * `write_standing`: one write at the end is right exactly when the recorded path
      shows the pending bytes of the file itself;
    * `writes_follow`: so is every run of writes with changes of names between them. -/

namespace TeRename

open Posix Overlay TeHeader Hoare TeProgram TeStored TeWrite TeOpen TeTorn TeSequential

/-! ## One write -/

/-- A tracked descriptor that is open for writing at the end of a stored file; the
    recorded path may denote anything. -/
structure Standing (dev : Device) (H : List UInt8) (w : World) (fd : Int) (id i : Nat)
    (fi : FileInfo) (P : List UInt8) : Prop where
  calm : w.kern.host.Calm
  find : w.kern.find fd = some id
  regular : (w.kern.desc id).regular = true
  writable : (w.kern.desc id).flags.acc.writable = true
  query : w.file_info_list.find? (fun e => e.file_descriptor = fd) = some fi
  inode : (w.kern.desc id).inode = i
  data : w.kern.files.data i = H ++ stored dev.aes P
  pos : (w.kern.desc id).pos = FILE_HEADER_POLL_SIZE + P.length

/-- Through the recorded path the next write finds the bytes before its cursor as they
    are in the file that it writes; with `O_APPEND` there are none to be found. -/
def Finds (w : World) (fd : Int) : Prop :=
  ∀ id fi, w.kern.find fd = some id →
    w.file_info_list.find? (fun e => e.file_descriptor = fd) = some fi →
    shown w.kern.files fi.file_path (w.kern.desc id).pos
        = prefixOf (w.kern.files.data (w.kern.desc id).inode) (w.kern.desc id).pos ∧
      ((w.kern.desc id).flags.append = true → (w.kern.desc id).pos % 16 = 0)

/-- A write at the end that is carried out in full leaves the stored form of everything
    exactly when it was given the pending bytes, and none with `O_APPEND`. -/
theorem torn_whole_iff (aes : AES) (app : Bool) {H P r : List UInt8}
    (hH : H.length = FILE_HEADER_POLL_SIZE)
    (hr : r.length ≤ (FILE_HEADER_POLL_SIZE + P.length) % 16) (b : List UInt8) :
    let off := FILE_HEADER_POLL_SIZE + P.length
    torn aes app (H ++ stored aes P) r off b (off % 16) b.length = H ++ stored aes (P ++ b) ↔
      front r off = pending P ∧ (app = true → P.length % 16 = 0) := by
  intro off
  have hr : r.length ≤ off % 16 := hr
  have hmod : off % 16 = P.length % 16 := header_mod P.length
  rw [stored_added]
  have hback : stored aes (front r off ++ b) = stored aes (pending P ++ b) ↔
      front r off = pending P := by
    constructor
    · intro heq
      exact List.append_cancel_right (stored_injective aes heq)
    · intro heq
      rw [heq]
  cases app with
  | false =>
      have hD : torn aes false (H ++ stored aes P) r off b (off % 16) b.length
          = H ++ (stored aes (whole P) ++ stored aes (front r off ++ b)) := by
        rw [hmod, torn_end aes hH (by rw [← hmod]; exact hr) (Nat.le_refl _),
          List.drop_eq_nil_of_le (Nat.le_of_eq (pending_length P)), List.append_nil, ← hmod,
          buffer_split aes hr b]
        rfl
      rw [hD, List.append_right_inj, List.append_right_inj, hback]
      constructor
      · intro heq
        exact ⟨heq, fun h => by cases h⟩
      · rintro ⟨heq, -⟩
        exact heq
  | true =>
      have hD : torn aes true (H ++ stored aes P) r off b (off % 16) b.length
          = H ++ (stored aes P ++ stored aes (front r off ++ b)) := by
        rw [torn_append, buffer_split aes hr b, List.append_assoc]
        rfl
      rw [hD, List.append_right_inj, stored_pending aes P, List.append_assoc,
        List.append_right_inj]
      constructor
      · intro heq
        have hlen := congrArg List.length heq
        simp only [List.length_append, stored_length, pending_length, front_length hr] at hlen
        have h0 : P.length % 16 = 0 := by omega
        have hnil : front r off = pending P := by
          rw [List.length_eq_zero_iff.mp ((pending_length P).trans h0),
            List.length_eq_zero_iff.mp ((front_length hr).trans (hmod.trans h0))]
        exact ⟨hnil, fun _ => h0⟩
      · rintro ⟨heq, h0⟩
        rw [heq, List.length_eq_zero_iff.mp ((pending_length P).trans (h0 rfl))]
        rfl

/-- The cursor is then behind what was written. -/
theorem tornPos_whole (aes : AES) {app : Bool} {H P r b : List UInt8}
    (hH : H.length = FILE_HEADER_POLL_SIZE)
    (hr : r.length ≤ (FILE_HEADER_POLL_SIZE + P.length) % 16) (hb : b ≠ [])
    (h0 : app = true → P.length % 16 = 0) :
    let off := FILE_HEADER_POLL_SIZE + P.length
    tornPos aes app (H ++ stored aes P) r off b (off % 16) b.length = off + b.length := by
  intro off
  have hne : b.length ≠ 0 := fun h => hb (List.length_eq_zero_iff.mp h)
  cases app with
  | false =>
      rw [tornPos, if_neg hne]
      rfl
  | true =>
      have hr : r.length ≤ off % 16 := hr
      have hmod : off % 16 = 0 := (header_mod P.length).trans (h0 rfl)
      rw [tornPos_append aes _ hr hb, List.length_append, List.length_append, stored_length,
        buffer_length aes hr b, hH, hmod, Nat.zero_add]

section Writing

variable {dev : Device} {env : Env} {H P : List UInt8} {w : World} {fd : Int} {id i : Nat}
  {fi : FileInfo} (henv : env.Active) (hH : H.length = FILE_HEADER_POLL_SIZE)

include hH in
/-- What the condition comes to. -/
theorem finds_iff (h : Standing dev H w fd id i fi P) :
    Finds w fd ↔ shown w.kern.files fi.file_path (FILE_HEADER_POLL_SIZE + P.length) = pending P ∧
      ((w.kern.desc id).flags.append = true → P.length % 16 = 0) := by
  have hmod : (FILE_HEADER_POLL_SIZE + P.length) % 16 = P.length % 16 := header_mod P.length
  constructor
  · intro hfinds
    have := hfinds id fi h.find h.query
    rw [h.pos, h.inode, h.data, prefixOf_pending dev.aes hH, hmod] at this
    exact this
  · intro hcond id' fi' hf hq
    obtain rfl : id = id' := Option.some.inj (h.find.symm.trans hf)
    obtain rfl : fi = fi' := Option.some.inj (h.query.symm.trans hq)
    rw [h.pos, h.inode, h.data, prefixOf_pending dev.aes hH, hmod]
    exact hcond

include hH in
/-- At a block boundary there is nothing to find. -/
theorem finds_aligned (h : Standing dev H w fd id i fi P) (h0 : P.length % 16 = 0) :
    Finds w fd := by
  refine (finds_iff hH h).mpr ⟨?_, fun _ => h0⟩
  have hnone : (shown w.kern.files fi.file_path (FILE_HEADER_POLL_SIZE + P.length)).length = 0 :=
    (prefixOf_length _ _).trans ((header_mod _).trans h0)
  rw [List.length_eq_zero_iff.mp ((pending_length P).trans h0), List.length_eq_zero_iff.mp hnone]

include hH in
/-- The recorded path still denotes the file, or one with the same bytes. -/
theorem finds_named (h : Standing dev H w fd id i fi P)
    (hname : w.kern.files.content fi.file_path = some (H ++ stored dev.aes P))
    (happ : (w.kern.desc id).flags.append = false) : Finds w fd := by
  refine (finds_iff hH h).mpr ⟨?_, fun h => by cases happ.symm.trans h⟩
  rw [shown, hname]
  exact prefixOf_pending dev.aes hH P

include henv hH

/-- **One write** at the end returns its count, and leaves the stored form of everything
    exactly when it finds the pending bytes. -/
theorem write_standing (h : Standing dev H w fd id i fi P) {b : List UInt8} (hb : b ≠ []) :
    ∃ w', write dev env fd b w = .ok ((b.length : Int), w') ∧
      (w'.kern.files.data i = H ++ stored dev.aes (P ++ b) ↔ Finds w fd) ∧
      (Finds w fd → Standing dev H w' fd id i fi (P ++ b)) := by
  have hfinds := finds_iff hH h
  obtain ⟨hc, hf, hreg, hacc, hq, hi, hdata, hpos⟩ := h
  obtain ⟨k', hrun, hwrote⟩ := write_whole dev henv hf hreg hc hacc hq hb
  let off := FILE_HEADER_POLL_SIZE + P.length
  let r := fetched (w.kern.tock 2) fi.file_path off
  have hr : r.length ≤ off % 16 := fetched_length _ _ _
  have hfront : front r off = shown w.kern.files fi.file_path off :=
    front_fetched (k := w.kern.tock 2) hc fi.file_path off
  rw [hpos, hi, hdata] at hwrote
  -- the bytes and the cursor afterwards
  let app := (w.kern.desc id).flags.append
  let D := torn dev.aes app (H ++ stored dev.aes P) r off b (off % 16) b.length
  have hdata' : k'.files.data i = D := by
    rw [hwrote.files, hi]
    exact FileStore.store_data_self ..
  have hdesc := hwrote.desc_self (w.kern.find_lt hf)
  have hiff : D = H ++ stored dev.aes (P ++ b) ↔ Finds w fd := by
    rw [hfinds, ← hfront]
    exact torn_whole_iff dev.aes app hH hr b
  refine ⟨{ w with kern := k' }, hrun, ?_, fun hok => ⟨?_, ?_, ?_, ?_, hq, ?_, ?_, ?_⟩⟩
  · show k'.files.data i = _ ↔ _
    rw [hdata']
    exact hiff
  · show k'.host.Calm
    rw [hwrote.host]
    exact hc
  · exact (hwrote.find fd).trans hf
  · show (k'.desc id).regular = true
    rw [hdesc]
    exact hreg
  · show (k'.desc id).flags.acc.writable = true
    rw [hdesc]
    exact hacc
  · show (k'.desc id).inode = i
    rw [hdesc]
    exact hi
  · exact hdata'.trans (hiff.mpr hok)
  · show (k'.desc id).pos = _
    rw [hdesc, List.length_append, ← Nat.add_assoc]
    exact tornPos_whole dev.aes hH hr hb (hfinds.mp hok).2

omit hH in
/-- Writing nothing. -/
theorem write_standing_nil (h : Standing dev H w fd id i fi P) :
    ∃ w', write dev env fd [] w = .ok (0, w') ∧ Standing dev H w' fd id i fi P := by
  obtain ⟨hc, hf, hreg, hacc, hq, hi, hdata, hpos⟩ := h
  refine ⟨{ w with kern := w.kern.tock 1 }, ?_, ⟨hc, hf, hreg, hacc, hq, hi, hdata, hpos⟩⟩
  have hwrite : linker_write fd [] w = .ok (0, { w with kern := w.kern.tock 1 }) := by
    apply linker_write_ok
    rw [Kernel.sysWrite_nil hc hf, hacc]
    rfl
  rw [write, hooked_active henv, if_neg (by decide), hwrite]

end Writing

/-! ## Runs -/

/-- Names come to denote other files, files appear, and other files change: a rename, an
    unlink, a file put in the place of another, a new working directory. -/
def Renamed (i : Nat) (w w' : World) : Prop :=
  ∃ fs, ∃ h : w.kern.files.next ≤ fs.next, fs.data i = w.kern.files.data i ∧
    w' = { w with kern := w.kern.setFiles fs h }

/-- The worlds that writes through `fd` to the file `i`, and changes of names between
    them, lead to, with all the bytes written; `ok` restricts the worlds in which bytes
    are written. -/
inductive Reaches (dev : Device) (env : Env) (fd : Int) (i : Nat) (ok : World → Prop)
    (w₀ : World) : List UInt8 → World → Prop where
  | start : Reaches dev env fd i ok w₀ [] w₀
  | renamed {P w w'} (h : Reaches dev env fd i ok w₀ P w) (hr : Renamed i w w') :
      Reaches dev env fd i ok w₀ P w'
  | write {P w b r w'} (h : Reaches dev env fd i ok w₀ P w) (hok : b ≠ [] → ok w)
      (hrun : write dev env fd b w = .ok (r, w')) : Reaches dev env fd i ok w₀ (P ++ b) w'

section Run

variable {dev : Device} {env : Env} {H P : List UInt8} {w w' : World} {fd : Int} {id i : Nat}
  {fi : FileInfo}

/-- The descriptor is where it was. -/
theorem Standing.renamed (h : Standing dev H w fd id i fi P) (hr : Renamed i w w') :
    Standing dev H w' fd id i fi P := by
  obtain ⟨fs, hnext, hsame, rfl⟩ := hr
  exact ⟨h.calm, h.find, h.regular, h.writable, h.query, h.inode, hsame.trans h.data, h.pos⟩

/-- **Every run** keeps the file the stored form of what was written. -/
theorem standing_run (henv : env.Active) (hH : H.length = FILE_HEADER_POLL_SIZE)
    {w₀ : World} (h₀ : Standing dev H w₀ fd id i fi [])
    (hrun : Reaches dev env fd i (fun w => Finds w fd) w₀ P w) :
    Standing dev H w fd id i fi P := by
  induction hrun with
  | start => exact h₀
  | renamed _ hr ih => exact ih.renamed hr
  | @write P w b r w' _ hok hrun ih =>
      by_cases hb : b = []
      · subst hb
        obtain ⟨w'', hwrite, hstand⟩ := write_standing_nil henv ih
        obtain ⟨-, rfl⟩ := Prod.mk.inj (Except.ok.inj (hrun.symm.trans hwrite))
        rw [List.append_nil]
        exact hstand
      · obtain ⟨w'', hwrite, -, hstand⟩ := write_standing henv hH ih hb
        obtain ⟨-, rfl⟩ := Prod.mk.inj (Except.ok.inj (hrun.symm.trans hwrite))
        exact hstand (hok hb)

end Run

/-! ## From the new file on -/

section Created

variable {dev : Device} {env : Env} {w w₁ : World} {path : Path} {flags : Flags} {fd : Int}
  (henv : env.Active) (hc : w.kern.host.Calm) (h0 : w.kern.InUse 0)
  (hsup : dev.is_support_file_type_by_path path ≠ 0)
  (hspecial : dev.is_support_special_file_type_by_path path ≠ 1)
  (hname : w.kern.files.names path = none) (hcr : flags.creat = true)
  (hacc : flags.acc.writable = true)
  (hopen : open_file dev env path flags w = .ok (fd, w₁))
  (honce : w₁.file_info_list.countP (fun e => e.file_descriptor = fd) = 1)
include henv hc h0 hsup hspecial hname hcr hacc hopen honce

/-- The descriptor of a new file is one of these. -/
theorem standing_new : ∃ id, Standing dev (entryHeader dev.get_process_name path) w₁ fd id
    w.kern.files.next ⟨fd, recordedPath dev path, some w.kern.files.next⟩ [] := by
  obtain ⟨-, -, -, id, hend⟩ := created_atEnd henv hc h0 hsup hspecial hname hcr hacc hopen honce
  refine ⟨id, hend.calm, hend.find, ?_, ?_, hend.query, ?_, ?_, ?_⟩
  · rw [hend.desc]
  · rw [hend.desc]
    exact hacc
  · rw [hend.desc]
  · rw [stored_short dev.aes (P := []) (by decide)]
    exact hend.data
  · rw [hend.desc]

/-- **Writes follow the file and not its name**, in every run in which each write finds
    the pending bytes of the file through the recorded path: the file holds the header
    and the stored form of all that was written, and the next write is right exactly when
    it finds them too. -/
theorem writes_follow {P : List UInt8} {w₂ : World}
    (hrun : Reaches dev env fd w.kern.files.next (fun w => Finds w fd) w₁ P w₂) :
    (∃ id, w₂.kern.find fd = some id ∧ (w₂.kern.desc id).inode = w.kern.files.next) ∧
    w₂.kern.files.data w.kern.files.next
      = entryHeader dev.get_process_name path ++ stored dev.aes P ∧
    ∀ b, b ≠ [] → ∃ w₃, write dev env fd b w₂ = .ok ((b.length : Int), w₃) ∧
      (w₃.kern.files.data w.kern.files.next
          = entryHeader dev.get_process_name path ++ stored dev.aes (P ++ b) ↔ Finds w₂ fd) := by
  obtain ⟨id, h₀⟩ := standing_new henv hc h0 hsup hspecial hname hcr hacc hopen honce
  have hH : (entryHeader dev.get_process_name path).length = FILE_HEADER_POLL_SIZE :=
    entryHeader_length _ _
  have h := standing_run henv hH h₀ hrun
  refine ⟨⟨id, h.find, h.inode⟩, h.data, fun b hb => ?_⟩
  obtain ⟨w₃, hwrite, hiff, -⟩ := write_standing henv hH h hb
  exact ⟨w₃, hwrite, hiff⟩

end Created

/-! ## The new file `"g"` -/

private theorem standing_g : ∃ fd id w₁,
    open_file aDevice activeEnv [0x67] { acc := .rdwr, creat := true } encryptedFile =
      .ok (fd, w₁) ∧ w₁.file_info_list.countP (fun e => e.file_descriptor = fd) = 1 ∧
    Standing aDevice (newHeader none) w₁ fd id 2 ⟨fd, [0x67], some 2⟩ [] := by
  have hc : encryptedFile.kern.host.Calm := fun _ => ⟨rfl, rfl, rfl⟩
  have h0 : encryptedFile.kern.InUse 0 := by decide
  obtain ⟨fd, w₁, hopen, honce⟩ := TeSequential.opened_g
  obtain ⟨id', h⟩ := standing_new ⟨rfl, rfl, rfl⟩ hc h0 (by decide) (by decide) rfl rfl rfl hopen
    honce
  rw [entryHeader_short (by decide), recordedPath, spilled_short (by decide)] at h
  exact ⟨fd, id', w₁, hopen, honce, h⟩

/-- The name goes. -/
private def unlinked (w : World) : World :=
  { w with kern := w.kern.setFiles (w.kern.files.unlink [0x67]) (Nat.le_refl _) }

private theorem renamed_unlinked (w : World) : Renamed 2 w (unlinked w) :=
  ⟨w.kern.files.unlink [0x67], Nat.le_refl _, rfl, rfl⟩

private theorem unlinked_content (w : World) :
    (unlinked w).kern.files.content [0x67] = none := by
  refine (FileStore.content_eq_none _).mpr ?_
  show Function.update w.kern.files.names [0x67] none [0x67] = none
  exact Function.update_self ..

/-- A whole block is written, the name is removed, and one more byte is written. -/
theorem writes_follow_unlinked : ∃ fd w₁ w₂,
    open_file aDevice activeEnv [0x67] { acc := .rdwr, creat := true } encryptedFile =
      .ok (fd, w₁) ∧
    Reaches aDevice activeEnv fd 2 (fun w => Finds w fd) w₁ (List.replicate 16 7 ++ [1]) w₂ ∧
    w₂.kern.files.data 2
      = newHeader none ++ stored aDevice.aes (List.replicate 16 7 ++ [1]) := by
  have henv : activeEnv.Active := ⟨rfl, rfl, rfl⟩
  have hc : encryptedFile.kern.host.Calm := fun _ => ⟨rfl, rfl, rfl⟩
  have h0 : encryptedFile.kern.InUse 0 := by decide
  have hH : (newHeader none).length = FILE_HEADER_POLL_SIZE := newHeader_length _
  obtain ⟨fd, id, w₁, hopen, honce, h₁⟩ := standing_g
  have hok₁ := finds_aligned hH h₁ rfl
  obtain ⟨w₂, hwrite₂, -, h₂⟩ := write_standing henv hH h₁ (b := List.replicate 16 7) (by decide)
  have h₃ := (h₂ hok₁).renamed (renamed_unlinked w₂)
  have hok₃ := finds_aligned hH h₃ rfl
  obtain ⟨w₄, hwrite₄, -, -⟩ := write_standing henv hH h₃ (b := [1]) (by decide)
  have hreach : Reaches aDevice activeEnv fd 2 (fun w => Finds w fd) w₁
      (List.replicate 16 7 ++ [1]) w₄ :=
    .write (.renamed (.write .start (fun _ => hok₁) hwrite₂) (renamed_unlinked w₂))
      (fun _ => hok₃) hwrite₄
  obtain ⟨-, hdata, -⟩ := writes_follow henv hc h0 (by decide) (by decide) rfl rfl rfl hopen honce
    hreach
  rw [entryHeader_short (by decide)] at hdata
  exact ⟨fd, w₁, w₄, hopen, hreach, hdata⟩

/-- One byte is written, the name is removed, and the next write finds no file: it puts a
    zero in the place of the first byte. -/
theorem unlinked_loses_byte : ∃ fd w₁ w₂,
    open_file aDevice activeEnv [0x67] { acc := .rdwr, creat := true } encryptedFile =
      .ok (fd, w₁) ∧
    Reaches aDevice activeEnv fd 2 (fun _ => True) w₁ ([1] ++ [2]) w₂ ∧
    w₂.kern.files.data 2 ≠ newHeader none ++ stored aDevice.aes ([1] ++ [2]) := by
  have henv : activeEnv.Active := ⟨rfl, rfl, rfl⟩
  have hH : (newHeader none).length = FILE_HEADER_POLL_SIZE := newHeader_length _
  obtain ⟨fd, id, w₁, hopen, -, h₁⟩ := standing_g
  have hok₁ := finds_aligned hH h₁ rfl
  obtain ⟨w₂, hwrite₂, -, h₂⟩ := write_standing henv hH h₁ (b := [1]) (by decide)
  have h₃ := (h₂ hok₁).renamed (renamed_unlinked w₂)
  obtain ⟨w₄, hwrite₄, hiff, -⟩ := write_standing henv hH h₃ (b := [2]) (by decide)
  refine ⟨fd, w₁, w₄, hopen, .write (.renamed (.write .start (fun _ => trivial) hwrite₂)
    (renamed_unlinked w₂)) (fun _ => trivial) hwrite₄, fun hdata => ?_⟩
  have hshown := ((finds_iff hH h₃).mp (hiff.mp hdata)).1
  rw [shown, unlinked_content] at hshown
  exact absurd hshown (by decide)

end TeRename
