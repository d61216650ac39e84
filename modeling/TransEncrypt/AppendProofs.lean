import TransEncrypt.OpenProofs
import TransEncrypt.TornProofs

/-! # Writing through a descriptor that appends

    After an `open` with `O_APPEND` the cursor is at 0 or behind the header, and not where
    the data goes.  The first write takes its position for a block boundary and encrypts
    the buffer by itself; a later one starts at the end of the file, and the prefix that
    it puts back lands behind the end.

    * `open_cursor`: where an `open` leaves the cursor, when its `access` is not refused;
    * `write_append`, `write_all_append`: what is put behind the file;
    * `append_writes`: the file is the stored form of everything exactly when the
      descriptor is tracked, the first buffer joins what was pending, and every later one
      starts at a block boundary. -/

namespace TeAppend

open Posix Overlay TeHeader Hoare TeProgram TeStored TeWrite TeOpen TeTorn

/-! ## The cursor after an open -/

/-- Descriptors stay, and a cursor stays or is put behind the header. -/
def Placed (w w' : World) : Prop :=
  w'.kern.fds = w.kern.fds ∧ ∀ id, (w'.kern.desc id).pos = (w.kern.desc id).pos ∨
    (w'.kern.desc id).pos = FILE_HEADER_POLL_SIZE

instance : IsPreorder World Placed where
  refl _ := ⟨rfl, fun _ => .inl rfl⟩
  trans _ _ _ h h' := by
    refine ⟨h'.1.trans h.1, fun id => ?_⟩
    rcases h'.2 id with hsame | hmoved
    · rw [hsame]
      exact h.2 id
    · exact .inr hmoved

namespace Placed

theorem alloc : Stays Placed calloc := by
  intro w a w' h
  obtain ⟨-, rfl⟩ := kernelCall_inv h
  exact ⟨rfl, fun _ => .inl rfl⟩

theorem denotes (path : Path) : Stays Placed (denotes path) := by
  intro w a w' h
  obtain ⟨-, rfl⟩ := kernelCall_inv h
  exact ⟨rfl, fun _ => .inl rfl⟩

theorem access (path : Path) : Stays Placed (access path) := by
  intro w a w' h
  obtain ⟨-, rfl⟩ := kernelCall_inv h
  exact ⟨rfl, fun _ => .inl rfl⟩

theorem add (fd : Int) (path : Path) (origin : Option Nat) :
    Stays Placed (file_info_list_add fd path origin) := by
  intro w b w' h
  obtain ⟨-, hkern, -⟩ := add_inv h
  rw [Placed, hkern]
  exact ⟨rfl, fun _ => .inl rfl⟩

theorem lseek (fd : Int) : Stays Placed (linker_lseek fd FILE_HEADER_POLL_SIZE .set) := by
  intro w a w' h
  obtain ⟨-, rfl⟩ := kernelCall_inv h
  show (w.kern.sysLseek fd FILE_HEADER_POLL_SIZE .set).2.fds = w.kern.fds ∧ ∀ id,
    ((w.kern.sysLseek fd FILE_HEADER_POLL_SIZE .set).2.desc id).pos = _ ∨ _
  unfold Kernel.sysLseek
  split
  · exact ⟨rfl, fun _ => .inl rfl⟩
  · rename_i id _
    dsimp only
    split
    · exact ⟨rfl, fun _ => .inl rfl⟩
    · refine ⟨rfl, fun id' => ?_⟩
      by_cases hid : id' = id
      · rw [hid, Kernel.setPos_desc_self]
        exact .inr rfl
      · rw [Kernel.setPos_desc_ne _ hid]
        exact .inl rfl

/-- The entry and the cursor of a descriptor that has just been opened; the descriptor
    is returned. -/
theorem track {c : Prop} [Decidable c] {w w' : World} {path p : Path} {fd n : Int}
    (h : (do
      let origin ← TeProgram.denotes path
      if (← file_info_list_add fd p origin) then do
        if c then do
          let _ ← linker_lseek fd FILE_HEADER_POLL_SIZE .set
          pure fd
        else pure fd
      else pure fd : Sys Int) w = .ok (n, w')) : n = fd ∧ Placed w w' := by
  obtain ⟨o, w₂, h1, h2⟩ := bind_inv h
  obtain ⟨b, w₃, h3, h4⟩ := bind_inv h2
  have hp : Placed w w₃ := trans_of Placed (denotes path h1) (add fd p o h3)
  cases b with
  | false =>
      rw [if_neg (by decide)] at h4
      obtain ⟨rfl, rfl⟩ := pure_inv h4
      exact ⟨rfl, hp⟩
  | true =>
      rw [if_pos rfl] at h4
      by_cases hc : c
      · rw [if_pos hc] at h4
        obtain ⟨r, w₄, h5, h6⟩ := bind_inv h4
        obtain ⟨rfl, rfl⟩ := pure_inv h6
        exact ⟨rfl, trans_of Placed hp (lseek _ h5)⟩
      · rw [if_neg hc] at h4
        obtain ⟨rfl, rfl⟩ := pure_inv h4
        exact ⟨rfl, hp⟩

end Placed

/-- The descriptor is open with its cursor at 0 or behind the header. -/
def AtStart (w : World) (fd : Int) : Prop :=
  ∀ id, w.kern.find fd = some id →
    (w.kern.desc id).pos = 0 ∨ (w.kern.desc id).pos = FILE_HEADER_POLL_SIZE

theorem AtStart.placed {w w' : World} {fd : Int} (h : AtStart w fd) (hp : Placed w w') :
    AtStart w' fd := by
  intro id hf
  rw [Kernel.find, hp.1] at hf
  rcases hp.2 id with hsame | hmoved
  · rw [hsame]
    exact h id hf
  · exact .inr hmoved

/-- Right after the real `open`. -/
theorem atStart_opened {w : World} {path : Path} {flags : Flags} {fd : Int} {i : Nat}
    {k' : Kernel} (h : Kernel.Opened w.kern path flags fd i k') :
    AtStart { w with kern := k' } fd := by
  intro id hf
  obtain rfl : w.kern.nextDesc = id := Option.some.inj (h.gained.find_self.symm.trans hf)
  show (k'.desc _).pos = 0 ∨ _
  rw [h.desc]
  exact .inl rfl

theorem atStart_raw {w w' : World} {path : Path} {flags : Flags} {fd : Int} (hfd : 0 ≤ fd)
    (h : linker_open path flags w = .ok (fd, w')) : AtStart w' fd := by
  rcases linker_open_inv h with ⟨rfl, -⟩ | ⟨i, k', rfl, hopen⟩
  · exact absurd hfd (by decide)
  · exact atStart_opened hopen

section Cursor

variable {dev : Device} {w w₁ w' : World} {path : Path} {flags : Flags} {fd n : Int} {i : Nat}

/-- A new file: the header, if it is written, moves the cursor behind it. -/
private theorem atStart_new {k₂ : Kernel} (ho : Kernel.Opened w₁.kern path flags fd i k₂)
    (hdata : k₂.files.data i = []) (hn : 0 ≤ n)
    (h : open_new dev path fd { w₁ with kern := k₂ } = .ok (n, w')) : AtStart w' n := by
  have hstart := atStart_opened ho
  rw [open_new] at h
  by_cases hspecial : dev.is_support_special_file_type_by_path path = 1
  · rw [if_pos hspecial] at h
    obtain ⟨rfl, rfl⟩ := pure_inv h
    exact hstart
  rw [if_neg hspecial] at h
  obtain ⟨o, w₂, h1, h2⟩ := bind_inv h
  obtain ⟨-, rfl⟩ := denotes_inv h1
  obtain ⟨b, w₃, h3, h4⟩ := bind_inv h2
  have hstart₃ := hstart.placed (Placed.add fd _ o h3)
  cases b with
  | false =>
      rw [if_neg (by decide)] at h4
      obtain ⟨rfl, rfl⟩ := pure_inv h4
      exact hstart₃
  | true =>
      rw [if_pos rfl] at h4
      obtain ⟨c, w₄, h5, h6⟩ := bind_inv h4
      by_cases hfull : c ≠ FILE_HEADER_POLL_SIZE
      · rw [if_pos hfull] at h6
        obtain ⟨u, w₅, h7, h8⟩ := bind_inv h6
        obtain ⟨r, w₆, h9, h10⟩ := bind_inv h8
        obtain ⟨rfl, -⟩ := pure_inv h10
        exact absurd hn (by decide)
      · rw [if_neg hfull] at h6
        obtain ⟨rfl, rfl⟩ := pure_inv h6
        have hc : c = FILE_HEADER_POLL_SIZE := by simpa using hfull
        obtain ⟨-, hkern, -⟩ := add_inv h3
        obtain ⟨hval, rfl⟩ := kernelCall_inv h5
        have hf : w₃.kern.find n = some w₁.kern.nextDesc := by
          rw [hkern]
          exact ho.gained.find_self
        have hd : w₃.kern.desc w₁.kern.nextDesc = { inode := i, pos := 0, flags := flags } := by
          rw [hkern]
          exact ho.desc
        have hdata₃ : w₃.kern.files.data i = [] := by
          rw [hkern]
          exact hdata
        let ans := allowed flags.acc.writable w₃.kern.answer
        have hrun := sysWrite_any (k := w₃.kern) hf (by rw [hd])
          (entryHeader dev.get_process_name path)
        have htarget : w₃.kern.target { inode := i, pos := 0, flags := flags } 0 = 0 := by
          rw [Kernel.target]
          split
          · rw [hdata₃]
            rfl
          · rfl
        rw [entryHeader_length, hd, htarget] at hrun
        have hrep : reported ans FILE_HEADER_POLL_SIZE = (FILE_HEADER_POLL_SIZE : Int) := by
          rw [hrun] at hval
          exact hval.symm.trans hc
        -- all of the header has been written
        have hgiven : given ans FILE_HEADER_POLL_SIZE = FILE_HEADER_POLL_SIZE := by
          unfold reported at hrep
          unfold given
          split at hrep
          · exact absurd hrep (by decide)
          · rename_i hfails
            rw [if_neg hfails]
            exact Int.ofNat.inj hrep
        intro id hid
        have hid' :
          (w₃.kern.sysWrite n (entryHeader dev.get_process_name path)).2.find n = some id := hid
        show ((w₃.kern.sysWrite n (entryHeader dev.get_process_name path)).2.desc id).pos = 0 ∨ _
        rw [hrun] at hid' ⊢
        obtain rfl : w₁.kern.nextDesc = id := Option.some.inj (hf.symm.trans hid')
        rw [Kernel.setPos_desc_self]
        refine .inr ?_
        show (if given ans FILE_HEADER_POLL_SIZE = 0 then _ else 0 + given ans _) = _
        rw [hgiven]
        rfl

/-- A file without a header: nothing more is done, or it is opened again. -/
private theorem atStart_plain (hstart : AtStart w fd) (hn : 0 ≤ n)
    (h : open_plain dev path flags fd w = .ok (n, w')) : AtStart w' n := by
  obtain ⟨stage, w₁, h1, h2⟩ := bind_inv h
  match stage with
  | some false => exact atStart_raw hn h2
  | some true =>
      have h2' : reopen path flags w₁ = .ok (n, w') := h2
      obtain ⟨fd', w₂, h3, h4⟩ := bind_inv h2'
      obtain ⟨rfl, hp⟩ := Placed.track (c := True) (by
        simp only [if_true]
        exact h4)
      exact (atStart_raw hn h3).placed hp
  | none =>
      obtain ⟨rfl, rfl⟩ := pure_inv h2
      -- no memory for the path, or `<path>.s` is there
      obtain ⟨b, w₃, h3, h4⟩ := bind_inv h1
      have hp₃ := Placed.alloc h3
      cases b with
      | false =>
          rw [if_neg (by decide)] at h4
          obtain ⟨-, rfl⟩ := pure_inv h4
          exact hstart.placed hp₃
      | true =>
          rw [if_pos rfl] at h4
          split at h4
          · cases h4
          obtain ⟨r, w₄, h5, h6⟩ := bind_inv h4
          have hp₄ := trans_of Placed hp₃ (Placed.access _ h5)
          by_cases hr : r ≠ 0
          · rw [if_pos hr] at h6
            obtain ⟨c, w₅, -, h8⟩ := bind_inv h6
            obtain ⟨size, w₆, -, h10⟩ := bind_inv h8
            obtain ⟨result, w₇, -, h12⟩ := bind_inv h10
            cases (pure_inv h12).1
          · rw [if_neg hr] at h6
            obtain ⟨-, rfl⟩ := pure_inv h6
            exact hstart.placed hp₄

/-- **Where an open leaves the cursor**, when its `access` is not refused: at the start of the
    file or behind the header. -/
theorem open_cursor {env : Env} (hgrant : w.kern.answer.denies = false) (hn : 0 ≤ n)
    (h : open_file dev env path flags w = .ok (n, w')) : AtStart w' n := by
  rw [open_file] at h
  rcases hooked_inv h with ⟨rfl, -⟩ | ⟨-, -, h⟩ | ⟨-, h⟩
  · exact absurd hn (by decide)
  · exact atStart_raw hn h
  by_cases hsup : dev.is_support_file_type_by_path path = 0
  · rw [if_pos hsup] at h
    exact atStart_raw hn h
  rw [if_neg hsup] at h
  obtain ⟨fs, w₀, h3, h4⟩ := bind_inv h
  obtain ⟨hfsval, rfl⟩ := kernelCall_inv h3
  obtain ⟨header, w₁, h5, h6⟩ := bind_inv h4
  obtain ⟨fd, w₂, h7, h8⟩ := bind_inv h6
  by_cases hpos : fd > 0
  · rw [if_pos hpos] at h8
    rcases linker_open_inv h7 with ⟨rfl, -⟩ | ⟨i, k₂, rfl, ho⟩
    · exact absurd hpos (by decide)
    have hstart := atStart_opened ho
    by_cases hfs : fs = 0
    · rw [if_neg (fun hne => hne hfs)] at h8
      cases header with
      | some header =>
          obtain ⟨rfl, hp⟩ := Placed.track h8
          exact hstart.placed hp
      | none => exact atStart_plain hstart hn h8
    · rw [if_pos hfs] at h8
      refine atStart_new ho ?_ hn h8
      -- the name was not there
      rw [if_neg hfs] at h5
      obtain ⟨-, rfl⟩ := pure_inv h5
      have hnone : w.kern.files.names path = none := by
        cases hname : w.kern.files.names path with
        | none => rfl
        | some j =>
            rw [show (w.kern.sysAccess path, w.kern).1 = 0 from
              w.kern.sysAccess_some hgrant hname] at hfsval
            exact absurd hfsval hfs
      have hfiles := ho.files
      generalize k₂.files = fs₂ at hfiles ⊢
      cases hfiles with
      | existing hname => cases hnone.symm.trans hname
      | emptied hname => cases hnone.symm.trans hname
      | created _ _ hi =>
          rw [hi]
          exact FileStore.create_data_self ..
  · rw [if_neg hpos] at h8
    obtain ⟨rfl, rfl⟩ := pure_inv h8
    exact atStart_raw hn h7

end Cursor

/-! ## What is put behind the file -/

/-- A tracked descriptor that appends, with its file and its cursor. -/
structure Appends (w : World) (fd : Int) (id : Nat) (D : List UInt8) (pos : Nat) : Prop where
  calm : w.kern.host.Calm
  find : w.kern.find fd = some id
  regular : (w.kern.desc id).regular = true
  writable : (w.kern.desc id).flags.acc.writable = true
  appends : (w.kern.desc id).flags.append = true
  tracked : w.Tracked fd
  data : w.kern.files.data (w.kern.desc id).inode = D
  pos : (w.kern.desc id).pos = pos

/-- The next write of the run is at a block boundary, and so is every one after it. -/
def Aligned : Nat → List (List UInt8) → Prop
  | _, [] => True
  | n, b :: bs => n % 16 = 0 ∧ Aligned (n + b.length) bs

instance : ∀ (n : Nat) (bs : List (List UInt8)), Decidable (Aligned n bs)
  | _, [] => .isTrue trivial
  | n, b :: bs =>
      have := instDecidableAligned (n + b.length) bs
      inferInstanceAs (Decidable (_ ∧ _))

/-- Adding whole blocks changes nothing. -/
theorem aligned_add {m : Nat} (hm : m % 16 = 0) :
    ∀ (bs : List (List UInt8)) (n : Nat), Aligned (m + n) bs ↔ Aligned n bs := by
  intro bs
  induction bs with
  | nil => intro n; exact Iff.rfl
  | cons b bs ih =>
      intro n
      show (m + n) % 16 = 0 ∧ Aligned (m + n + b.length) bs ↔ n % 16 = 0 ∧ Aligned (n + b.length) bs
      rw [Nat.add_assoc, ih, show (m + n) % 16 = n % 16 from by omega]

section Run

variable (dev : Device) {env : Env} (henv : env.Active) {fd : Int} {id : Nat}
include henv

/-- **One write** puts the buffer behind the file, with the prefix in front of it; at a
    block boundary it is the stored form of the buffer alone. -/
theorem write_append {w : World} {D : List UInt8} {pos : Nat} (h : Appends w fd id D pos)
    {b : List UInt8} (hb : b ≠ []) :
    ∃ X w', write dev env fd b w = .ok ((b.length : Int), w') ∧
      Appends w' fd id (D ++ X) (D ++ X).length ∧
      (w'.kern.desc id).inode = (w.kern.desc id).inode ∧
      X.length = pos % 16 + b.length ∧ (pos % 16 = 0 → X = stored dev.aes b) := by
  obtain ⟨hc, hf, hreg, hacc, happ, htr, hdata, hpos⟩ := h
  obtain ⟨fi, hq⟩ := Option.isSome_iff_exists.mp (query_isSome_iff.mpr htr)
  obtain ⟨k', hrun, hwrote⟩ := write_whole dev henv hf hreg hc hacc hq hb
  let r := fetched (w.kern.tock 2) fi.file_path pos
  have hr : r.length ≤ pos % 16 := fetched_length _ _ _
  let X := buffer dev.aes r pos b
  have hX : X.length = pos % 16 + b.length := buffer_length dev.aes hr b
  rw [happ, hdata, hpos, torn_append, buffer_split dev.aes hr b,
    tornPos_append dev.aes D hr hb] at hwrote
  have hdesc := hwrote.desc_self (w.kern.find_lt hf)
  refine ⟨X, { w with kern := k' }, hrun, ⟨?_, ?_, ?_, ?_, ?_, htr, ?_, ?_⟩, ?_, hX, fun h0 => ?_⟩
  · show k'.host.Calm
    rw [hwrote.host]
    exact hc
  · exact (hwrote.find fd).trans hf
  · show (k'.desc id).regular = true
    rw [hdesc]
    exact hreg
  · show (k'.desc id).flags.acc.writable = true
    rw [hdesc]
    exact hacc
  · show (k'.desc id).flags.append = true
    rw [hdesc]
    exact happ
  · show k'.files.data (k'.desc id).inode = _
    rw [hdesc, hwrote.files]
    exact FileStore.store_data_self ..
  · show (k'.desc id).pos = _
    rw [hdesc]
  · show (k'.desc id).inode = _
    rw [hdesc]
  · have hnil : r = [] := List.length_eq_zero_iff.mp (by omega)
    show stored dev.aes (r ++ zeroed (pos % 16 - r.length) ++ b) = stored dev.aes b
    rw [hnil, h0]
    rfl

/-- **Every run** that starts with the cursor at the end: the file grows by at least the
    bytes written, by no more only if all writes are at block boundaries, and then every
    buffer is stored by itself. -/
theorem write_all_append : ∀ (bs : List (List UInt8)) {w : World} {D : List UInt8},
    (∀ b ∈ bs, b ≠ []) → Appends w fd id D D.length →
    ∃ X w', write_all dev env fd bs w = .ok (bs.map (fun b => (b.length : Int)), w') ∧
      w'.kern.files.data (w.kern.desc id).inode = D ++ X ∧ bs.flatten.length ≤ X.length ∧
      (X.length = bs.flatten.length → Aligned D.length bs) ∧
      (Aligned D.length bs → X = (bs.map (stored dev.aes)).flatten) := by
  intro bs
  induction bs with
  | nil =>
      intro w D _ h
      refine ⟨[], w, rfl, ?_, Nat.le_refl _, fun _ => trivial, fun _ => rfl⟩
      rw [List.append_nil]
      exact h.data
  | cons b bs ih =>
      intro w D hbs h
      obtain ⟨X, w₁, hwrite, h₁, hinode, hX, hXb⟩ :=
        write_append dev henv h (hbs b (List.mem_cons_self ..))
      obtain ⟨Y, w₂, hrest, hdata, hlen, halign, hY⟩ :=
        ih (fun c hc => hbs c (List.mem_cons_of_mem _ hc)) h₁
      have htotal : (X ++ Y).length = D.length % 16 + b.length + Y.length := by
        rw [List.length_append, hX]
      have hflat : (b :: bs).flatten.length = b.length + bs.flatten.length := by
        rw [List.flatten_cons, List.length_append]
      have hD : (D ++ X).length = D.length + X.length := List.length_append
      refine ⟨X ++ Y, w₂, ?_, ?_, by omega, fun heq => ?_, ?_⟩
      · rw [write_all, bind_ok hwrite, bind_ok hrest]
        rfl
      · rw [← hinode, hdata, List.append_assoc]
      · have h0 : D.length % 16 = 0 := by omega
        have hrec := halign (by omega)
        rw [hD, hX, h0, Nat.zero_add] at hrec
        exact ⟨h0, hrec⟩
      · rintro ⟨h0, hrec⟩
        rw [hY (by rw [hD, hX, h0, Nat.zero_add]; exact hrec), hXb h0]
        rfl

end Run

/-! ## When that is the stored form -/

/-- Encrypting `b` by itself gives what encrypting it behind `P` gives: there is nothing
    pending, or no block is completed, or the cipher happens to agree. -/
def Joins (aes : AES) (P b : List UInt8) : Prop :=
  P.length % 16 = 0 ∨ P.length % 16 + b.length < 16 ∨
    pending P ++ stored aes b = stored aes (pending P ++ b)

/-- The condition on a run of writes behind `P`. -/
def AppendFits (aes : AES) (P : List UInt8) : List (List UInt8) → Prop
  | [] => True
  | b :: bs => Joins aes P b ∧ Aligned (P.length + b.length) bs

theorem joins_iff {aes : AES} {P b : List UInt8} :
    stored aes P ++ stored aes b = stored aes (P ++ b) ↔ Joins aes P b := by
  have hQ : (pending P).length = P.length % 16 := pending_length P
  rw [stored_pending aes P, stored_added, List.append_assoc, List.append_right_inj]
  constructor
  · intro h
    exact .inr (.inr h)
  · rintro (h0 | hshort | hsame)
    · rw [List.length_eq_zero_iff.mp (hQ.trans h0)]
      rfl
    · rw [stored_short aes (P := b) (by omega),
        stored_short aes (by rw [List.length_append]; omega)]
    · exact hsame

/-- Buffers that end at block boundaries are stored one by one. -/
theorem stored_flatten (aes : AES) : ∀ (bs : List (List UInt8)) (n : Nat), Aligned n bs →
    (bs.map (stored aes)).flatten = stored aes bs.flatten := by
  intro bs
  induction bs with
  | nil => intro n _; exact (stored_short aes (P := []) (by decide)).symm
  | cons b bs ih =>
      rintro n ⟨h0, hrest⟩
      rw [List.map_cons, List.flatten_cons, List.flatten_cons, ih _ hrest]
      cases bs with
      | nil =>
          rw [List.flatten_nil, List.append_nil, stored_short aes (P := []) (by decide),
            List.append_nil]
      | cons c bs =>
          have hb : b.length = b.length / 16 * 16 := by
            have := hrest.1
            omega
          rw [stored_append aes hb]

section Opened

variable {dev : Device} {env : Env} {w w₁ : World} {path : Path} {flags : Flags} {fd : Int}
  {id : Nat} {H P : List UInt8} (henv : env.Active) (hc : w.kern.host.Calm)
  (hopen : open_file dev env path flags w = .ok (fd, w₁)) (hfind : w₁.kern.find fd = some id)
  (happ : flags.append = true) (hacc : flags.acc.writable = true)
  (hH : H.length = FILE_HEADER_POLL_SIZE)
  (hdata : w₁.kern.files.data (w₁.kern.desc id).inode = H ++ stored dev.aes P)
include henv hc hopen hfind happ hacc hH hdata

/-- The writes after an open: the first buffer is stored by itself, whatever is pending,
    and what follows is as long as its buffers only when it is written at block
    boundaries. -/
theorem write_all_opened (htr : w₁.Tracked fd) {b : List UInt8} {bs : List (List UInt8)}
    (hb : b ≠ []) (hbs : ∀ b ∈ bs, b ≠ []) :
    ∃ Y w₂, write_all dev env fd (b :: bs) w₁ =
        .ok ((b :: bs).map (fun b => (b.length : Int)), w₂) ∧
      w₂.kern.files.data (w₁.kern.desc id).inode
        = H ++ (stored dev.aes P ++ stored dev.aes b ++ Y) ∧
      bs.flatten.length ≤ Y.length ∧
      (Y.length = bs.flatten.length → Aligned (P.length + b.length) bs) ∧
      (Aligned (P.length + b.length) bs → Y = (bs.map (stored dev.aes)).flatten) := by
  have hopening := open_inv hopen
  have hfd : 0 ≤ fd := w₁.kern.find_nonneg hfind
  obtain ⟨i, id', pos, hnew⟩ := hopening.newFd hfd
  obtain rfl : id = id' := Option.some.inj (hfind.symm.trans hnew.find)
  have hH' : H.length = 4096 := hH
  have hmod : (w₁.kern.desc id).pos % 16 = 0 := by
    rcases open_cursor (Kernel.answer_denies hc) hfd hopen id hfind with h | h
    · rw [h]
    · rw [h]
      rfl
  have happends : Appends w₁ fd id (H ++ stored dev.aes P) (w₁.kern.desc id).pos := by
    refine ⟨by rw [hopening.kept.host]; exact hc, hfind, ?_, ?_, ?_, htr, hdata, rfl⟩
    all_goals rw [hnew.desc]
    · exact hacc
    · exact happ
  obtain ⟨X, w₂, hwrite, h₂, hinode, hX, hXb⟩ := write_append dev henv happends hb
  obtain ⟨Y, w₃, hrest, hdata₃, hlen, halign, hY⟩ :=
    write_all_append dev henv bs hbs h₂
  rw [hXb hmod] at hdata₃ halign hY
  -- the header counts whole blocks
  have hshift : Aligned (H ++ stored dev.aes P ++ stored dev.aes b).length bs ↔
      Aligned (P.length + b.length) bs := by
    rw [List.length_append, List.length_append, stored_length, stored_length, hH', Nat.add_assoc]
    exact aligned_add rfl bs _
  refine ⟨Y, w₃, ?_, ?_, hlen, fun h => hshift.mp (halign h), fun h => hY (hshift.mpr h)⟩
  · rw [write_all, bind_ok hwrite, bind_ok hrest]
    rfl
  · rw [← hinode, hdata₃, List.append_assoc, List.append_assoc, List.append_assoc]

/-- **Appending.**  A file is opened with `O_APPEND` for writing and holds a header and the
    stored form of `P`; non-empty buffers are written one after the other.  The writes
    return and leave the stored form of everything exactly when the descriptor has an
    entry and the buffers fit. -/
theorem append_writes {bs : List (List UInt8)} (hne : bs ≠ []) (hbs : ∀ b ∈ bs, b ≠ []) :
    (∃ rs w₂, write_all dev env fd bs w₁ = .ok (rs, w₂) ∧
      w₂.kern.files.data (w₁.kern.desc id).inode = H ++ stored dev.aes (P ++ bs.flatten)) ↔
    w₁.Tracked fd ∧ AppendFits dev.aes P bs := by
  obtain ⟨b, bs, rfl⟩ := List.exists_cons_of_ne_nil hne
  have hb : b ≠ [] := hbs b (List.mem_cons_self ..)
  by_cases htr : w₁.Tracked fd
  · obtain ⟨Y, w₂, hrun, hfile₂, -, halign, hY⟩ := write_all_opened henv hc hopen hfind happ hacc hH
      hdata htr hb (fun c hc => hbs c (List.mem_cons_of_mem _ hc))
    -- with the writes at block boundaries the end can be cut off
    have hcut : Aligned (P.length + b.length) bs →
        stored dev.aes (P ++ (b :: bs).flatten)
          = stored dev.aes (P ++ b) ++ stored dev.aes bs.flatten := by
      intro h
      rw [List.flatten_cons, ← List.append_assoc]
      cases bs with
      | nil =>
          rw [List.flatten_nil, List.append_nil, stored_short dev.aes (P := []) (by decide),
            List.append_nil]
      | cons c bs =>
          have hm : (P ++ b).length = (P ++ b).length / 16 * 16 := by
            have := h.1
            rw [List.length_append]
            omega
          rw [stored_append dev.aes hm]
    constructor
    · rintro ⟨rs, w₂', hrun', hfile⟩
      obtain ⟨-, rfl⟩ := Prod.mk.inj (Except.ok.inj (hrun.symm.trans hrun'))
      rw [hfile₂, List.append_right_inj] at hfile
      have hlens := congrArg List.length hfile
      simp only [List.length_append, stored_length, List.flatten_cons] at hlens
      have hal := halign (by omega)
      rw [hY hal, stored_flatten dev.aes bs _ hal, hcut hal] at hfile
      exact ⟨htr, joins_iff.mp (List.append_cancel_right hfile), hal⟩
    · rintro ⟨-, hjoin, hal⟩
      refine ⟨_, w₂, hrun, ?_⟩
      rw [hfile₂, hY hal, stored_flatten dev.aes bs _ hal, hcut hal, joins_iff.mpr hjoin]
  · -- no entry: the first write does not return
    constructor
    · rintro ⟨rs, w₂, hrun, -⟩
      have hnone : w₁.file_info_list.find? (fun e => e.file_descriptor = fd) = none := by
        rw [← Option.not_isSome_iff_eq_none]
        exact fun hs => htr (query_isSome_iff.mp hs)
      have hmem : (w₁.kern.tock 1).answer.fails = false := by
        show (w₁.kern.host.answer (w₁.kern.tick + 1)).fails = false
        rw [(open_inv hopen).kept.host]
        exact (hc _).1
      obtain ⟨r, w₃, h1, -⟩ := bind_inv hrun
      cases h1.symm.trans (write_untracked henv hnone hmem hb)
    · exact fun h => absurd h.1 htr

end Opened

/-! ## The empty encrypted file -/

/-- Opened for appending. -/
private theorem append_open : ∃ fd id w₁,
    open_file aDevice activeEnv Kernel.aName { acc := .rdwr, append := true } encryptedFile =
      .ok (fd, w₁) ∧ w₁.kern.find fd = some id ∧ (w₁.kern.desc id).inode = 1 ∧ w₁.Tracked fd ∧
      w₁.kern.files.data 1 = newHeader none ++ stored aDevice.aes [] := by
  obtain ⟨fd, id, w₁, hopen, -, hnew, -, hfiles, hlist⟩ :=
    @encryptedFile_open { acc := .rdwr, append := true } rfl rfl
  refine ⟨fd, id, w₁, hopen, hnew.find, by rw [hnew.desc],
    ⟨⟨fd, Kernel.aName, some 1⟩, ?_, rfl⟩, ?_⟩
  · rw [hlist]
    exact List.mem_singleton_self _
  · rw [hfiles, encryptedFile_data, stored_short _ (by decide), List.append_nil]

/-- A block, and three bytes behind it. -/
theorem append_writes_nineteen : ∃ fd w₁ rs w₂,
    open_file aDevice activeEnv Kernel.aName { acc := .rdwr, append := true } encryptedFile =
      .ok (fd, w₁) ∧
    write_all aDevice activeEnv fd [List.replicate 16 7, [1, 2, 3]] w₁ = .ok (rs, w₂) ∧
    w₂.kern.files.data 1
      = newHeader none ++ stored aDevice.aes (List.replicate 16 7 ++ [1, 2, 3]) := by
  obtain ⟨fd, id, w₁, hopen, hfind, hinode, htr, hdata⟩ := append_open
  have henv : activeEnv.Active := ⟨rfl, rfl, rfl⟩
  have hc : encryptedFile.kern.host.Calm := fun _ => ⟨rfl, rfl, rfl⟩
  have hfits : AppendFits aDevice.aes [] [List.replicate 16 7, [1, 2, 3]] :=
    ⟨.inl rfl, by decide⟩
  obtain ⟨rs, w₂, hrun, hfile⟩ := (append_writes henv hc hopen hfind rfl rfl
    (newHeader_length none) (by rw [hinode]; exact hdata) (by decide) (by decide)).mpr ⟨htr, hfits⟩
  rw [hinode] at hfile
  exact ⟨fd, w₁, rs, w₂, hopen, hrun, hfile⟩

/-- Two bytes, one after the other: the second write is not at a block boundary, and the
    first byte is put into the file a second time. -/
theorem append_two_bytes : ∃ fd id w₁,
    open_file aDevice activeEnv Kernel.aName { acc := .rdwr, append := true } encryptedFile =
      .ok (fd, w₁) ∧ w₁.kern.find fd = some id ∧
    w₁.kern.files.data (w₁.kern.desc id).inode = newHeader none ++ stored aDevice.aes [] ∧
    ¬ ∃ rs w₂, write_all aDevice activeEnv fd [[1], [2]] w₁ = .ok (rs, w₂) ∧
      w₂.kern.files.data (w₁.kern.desc id).inode
        = newHeader none ++ stored aDevice.aes ([] ++ [[1], [2]].flatten) := by
  obtain ⟨fd, id, w₁, hopen, hfind, hinode, htr, hdata⟩ := append_open
  have henv : activeEnv.Active := ⟨rfl, rfl, rfl⟩
  have hc : encryptedFile.kern.host.Calm := fun _ => ⟨rfl, rfl, rfl⟩
  have hdata' : w₁.kern.files.data (w₁.kern.desc id).inode
      = newHeader none ++ stored aDevice.aes [] := by
    rw [hinode]
    exact hdata
  refine ⟨fd, id, w₁, hopen, hfind, hdata', ?_⟩
  rintro ⟨rs, w₂, hrun, hfile⟩
  have hlater : ∀ b ∈ ([[2]] : List (List UInt8)), b ≠ [] := by decide
  obtain ⟨Y, w₂', hrun', hfile', -, halign, -⟩ := write_all_opened henv hc hopen hfind rfl rfl
    (newHeader_length none) hdata' htr (b := [1]) (by decide) hlater
  obtain ⟨-, rfl⟩ := Prod.mk.inj (Except.ok.inj (hrun.symm.trans hrun'))
  rw [hfile', List.append_right_inj] at hfile
  have hlens := congrArg List.length hfile
  simp only [List.length_append, stored_length] at hlens
  have hal : Aligned (0 + 1) [[2]] := halign (by simp at hlens ⊢; omega)
  exact absurd hal (by decide)

end TeAppend
