import TransEncrypt.OpenProofs

/-! # A file is converted at most once

    Opening a file that is there, without emptying it, either changes no file or converts
    this one.  After that the file has a header, and the next open finds it.

    * `open_existing`: the two outcomes, whatever descriptors are in use;
    * `open_change`: with descriptor 0 in use, which outcome it is, also for a new file;
    * `converts_once`: over every sequence of opens and closes of a path the bytes are
      fixed from the first open on that succeeds. -/

namespace TeOnce

open Posix Overlay TeHeader Hoare TeProgram TeDetector TeWorker TeRebuild TeOpen Interleave

/-! ## A file that is there -/

/-- `X` is what one run of the conversion makes of the content `C` of `path`. -/
structure Once (dev : Device) (path : Path) (C X : List UInt8) : Prop where
  header : HasHeader X
  length : X.length = C.length + 4096
  run : ∃ w w', w.kern.host.Calm ∧ w.kern.files.content path = some C ∧
    rebuild_file_struct dev path C.length w = .ok (1, w') ∧
    w'.kern.files.content path = some X

/-- An open that is not to empty the file leaves `C` alone: it has a header, nothing to
    convert, or a sibling `<path>.s`. -/
def Settled (path : Path) (fs : FileStore) (C : List UInt8) : Prop :=
  HasHeader C ∨ C = [] ∨ fs.content (get_security_path_by_path path) ≠ none

/-- What opening the file `path` with the bytes `C` has made of the files; `z` says that
    descriptor 0 was in use. -/
inductive Existing (dev : Device) (path : Path) (C : List UInt8) (z : Prop)
    (fs fs' : FileStore) (fd : Int) : Prop where
  | same : fs' = fs → (z → 0 ≤ fd → Settled path fs C) → Existing dev path C z fs fs' fd
  | converted (X : List UInt8) : 0 ≤ fd → C ≠ [] →
      fs.content (get_security_path_by_path path) = none → (z → ¬ HasHeader C) →
      fs'.content path = some X → fs'.content (get_security_path_by_path path) = none →
      Once dev path C X → Existing dev path C z fs fs' fd

/-- Tracking a descriptor changes no file. -/
theorem still_track (path p : Path) (fd : Int) {c : Prop} [Decidable c] : Stays Still (do
    let origin ← denotes path
    if (← file_info_list_add fd p origin) then do
      if c then do
        let _ ← linker_lseek fd FILE_HEADER_POLL_SIZE .set
        pure fd
      else pure fd
    else pure fd : Sys Int) :=
  .bind (Still.denotes path) fun origin => .bind (Still.add fd p origin) fun _ =>
    .ite (.ite (.bind (Still.lseek fd _ _) fun _ => .pure fd) (.pure fd)) (.pure fd)

/-- The size that the conversion is given. -/
theorem file_size_calm {w : World} (hc : w.kern.host.Calm) {path : Path} {i : Nat}
    (hname : w.kern.files.names path = some i) :
    get_file_size_by_path path w =
      .ok (((w.kern.files.data i).length : Int), { w with kern := w.kern.tock 1 }) := by
  rw [get_file_size_by_path, bind_ok (linker_stat_calm hc hname)]
  rfl

/-- Closing a descriptor that has just been opened and converting the file: `<path>.s` is in
    the way, or the conversion is reached, with the files as they were opened. -/
theorem convert_plain_reaches {dev : Device} {w₁ w₃ : World} {path : Path} {fd : Int} {i id : Nat}
    {k₂ : Kernel} {stage : Option Bool} (hc : w₁.kern.host.Calm)
    (hg : Kernel.Gained w₁.kern fd id k₂) (hname : k₂.files.names path = some i)
    (h : convert_plain dev path fd { w₁ with kern := k₂ } = .ok (stage, w₃)) :
    (stage = none ∧ w₃.kern.files = k₂.files ∧
      k₂.files.names (get_security_path_by_path path) ≠ none) ∨
    (k₂.files.names (get_security_path_by_path path) = none ∧ ∃ w₀ r, stage = some (r == 1) ∧
      w₀.kern.host.Calm ∧ w₀.kern.files = k₂.files ∧ Kernel.Kept w₁.kern w₀.kern ∧
      rebuild_file_struct dev path (k₂.files.data i).length w₀ = .ok (r, w₃)) := by
  have hc₂ : k₂.host.Calm := by
    rw [hg.host]
    exact hc
  rcases convert_plain_inv h with ⟨rfl, rfl, hno⟩ | ⟨size, w₅, r, hs, -, h1, h2, rfl⟩
  · refine .inl ⟨rfl, rfl, fun hs => ?_⟩
    rcases hno with hfails | hzero
    · cases hfails.symm.trans (Kernel.answer_fails hc₂)
    · rw [Kernel.sysAccess_none (k := k₂.tock 1) hs] at hzero
      cases hzero
  · have hs : k₂.files.names (get_security_path_by_path path) = none := by
      cases hname' : k₂.files.names (get_security_path_by_path path) with
      | none => rfl
      | some s =>
          exact absurd (Kernel.sysAccess_some (k := k₂.tock 1) (Kernel.answer_denies hc₂) hname') hs
    let k₄ := ((k₂.tock 1).sysClose fd).2
    have hk₄ : Kernel.Kept w₁.kern k₄ := hg.close (.tock k₂ 1)
    have hfiles₄ : k₄.files = k₂.files := ((k₂.tock 1).unwritten_close fd).1
    have hc₄ : k₄.host.Calm := by
      rw [hk₄.host]
      exact hc
    have hsize := file_size_calm (w := { w₁ with kern := k₄ }) hc₄ (by
      rw [hfiles₄]
      exact hname)
    rw [show (World.mk k₄ w₁.file_info_list).kern.files.data i = k₂.files.data i from
      congrFun (congrArg FileStore.data hfiles₄) i] at hsize
    obtain ⟨rfl, rfl⟩ := Prod.mk.inj (Except.ok.inj (hsize.symm.trans h1))
    exact .inr ⟨hs, _, r, rfl, hc₄, hfiles₄, hk₄.trans (.tock k₄ 1), h2⟩

section Existing

variable {dev : Device} {w w₁ w' : World} {path : Path} {flags : Flags} {fd : Int} {i : Nat}
  {C : List UInt8} {k₂ : Kernel} (hpath : path ≠ []) (hc : w₁.kern.host.Calm)
  (ho : Kernel.Opened w₁.kern path flags fd i k₂) (hsame : k₂.files = w₁.kern.files)
  (hname : w₁.kern.files.names path = some i) (hdata : w₁.kern.files.data i = C)
include hpath hc ho hsame hname hdata

/-- Closing a file that has been opened and converting it. -/
theorem convert_plain_existing
    (hmax : w₁.kern.files.names (get_security_path_by_path path) = none →
      C.length + 4096 ≤ 2147483647) {stage : Option Bool} {w₃ : World}
    (h : convert_plain dev path fd { w₁ with kern := k₂ } = .ok (stage, w₃)) :
    (stage = none ∧ w₃.kern.files = w₁.kern.files ∧
      w₁.kern.files.names (get_security_path_by_path path) ≠ none) ∨
    (stage = some true ∧ C ≠ [] ∧
      w₁.kern.files.names (get_security_path_by_path path) = none ∧
      (∃ w₀, w₀.kern.host.Calm ∧ w₀.kern.files = w₁.kern.files ∧
        rebuild_file_struct dev path C.length w₀ = .ok (1, w₃)) ∧
      w₃.kern.host.Calm ∧ ∃ s, Done path C w₃.kern.files s) ∨
    (stage = some false ∧ w₃.kern.files = w₁.kern.files ∧ (w₁.kern.InUse 0 → C = [])) := by
  have hname₂ : k₂.files.names path = some i := by
    rw [hsame]
    exact hname
  have hlen : (k₂.files.data i).length = C.length := by rw [hsame, hdata]
  rcases convert_plain_reaches hc ho.gained hname₂ h with
    ⟨rfl, hfiles, hs⟩ | ⟨hs, w₀, r, rfl, hc₀, hfiles₀, hk₀, hrun⟩
  · exact .inl ⟨rfl, hfiles.trans hsame, by rw [← hsame]; exact hs⟩
  · rw [hlen] at hrun
    rw [hsame] at hs hfiles₀
    have hhost := (kept_rebuild dev path C.length hrun).1.host
    rcases rebuild_inv hpath (hmax hs) (by rw [hfiles₀]; exact hname) (by rw [hfiles₀]; exact hdata)
      (by rw [hfiles₀]; exact hs) hc₀ hrun with ⟨rfl, hne, hdone⟩ | ⟨rfl, hsame₃, hempty⟩
    · refine .inr (.inl ⟨rfl, hne, hs, ⟨w₀, hc₀, hfiles₀, hrun⟩, ?_, hdone⟩)
      rw [hhost]
      exact hc₀
    · exact .inr (.inr ⟨rfl, hsame₃.trans hfiles₀, fun h0 => hempty (hk₀.inUse h0)⟩)

/-- Opening a file without a header, once the real `open` has succeeded. -/
theorem open_plain_existing {z : Prop} (hx : (flags.creat && flags.excl) = false)
    (ht : flags.trunc = false) (hz : z → w₁.kern.InUse 0) (hheader : z → ¬ HasHeader C)
    (hmax : w₁.kern.files.names (get_security_path_by_path path) = none →
      C.length + 4096 ≤ 2147483647) {n : Int}
    (h : open_plain dev path flags fd { w₁ with kern := k₂ } = .ok (n, w')) :
    Existing dev path C z w₁.kern.files w'.kern.files n := by
  obtain ⟨stage, w₃, h1, h2⟩ := bind_inv h
  rcases convert_plain_existing hpath hc ho hsame hname hdata hmax h1 with
    ⟨rfl, hfiles, hs⟩ | ⟨rfl, hne, hs, ⟨w₀, hc₀, hfiles₀, hrun⟩, hc₃, s, hdone⟩ |
    ⟨rfl, hfiles, hempty⟩
  · -- `<path>.s` is in the way
    obtain ⟨rfl, rfl⟩ := pure_inv h2
    exact .same hfiles fun _ _ =>
      .inr (.inr fun hnone => hs ((FileStore.content_eq_none _).mp hnone))
  · obtain ⟨fd', k₄, hopen, ho', -⟩ := linker_open_calm hc₃ hdone.name hx
    have h2' : reopen path flags w₃ = .ok (n, w') := h2
    rw [reopen, bind_ok hopen] at h2'
    have hfiles₄ : k₄.files = w₃.kern.files := ho'.files.same hdone.name ht
    have hfiles' : w'.kern.files = w₃.kern.files :=
      (still_track (c := True) path path fd' (by simp only [if_true]; exact h2')).1.trans hfiles₄
    have hn : n = fd' ∧ Opening dev activeEnv w₃ w' path flags fd' :=
      track_inv (c := True) (.inl rfl) (.refl _) rfl ho' (by simp only [if_true]; exact h2')
    have hcontent : w₃.kern.files.content path = some (w₃.kern.files.data s) :=
      FileStore.content_of_names _ hdone.name
    refine .converted (w₃.kern.files.data s) ?_ hne ((FileStore.content_eq_none _).mpr hs) hheader
      (by rw [hfiles']; exact hcontent)
      (by rw [hfiles']; exact (FileStore.content_eq_none _).mpr hdone.gone)
      ⟨hdone.header, hdone.length, w₀, w₃, hc₀, ?_, hrun, hcontent⟩
    · rw [hn.1]
      exact ho'.gained.nonneg
    · rw [hfiles₀, FileStore.content_of_names _ hname, hdata]
  · -- nothing to convert
    have h2' : linker_open path flags w₃ = .ok (n, w') := h2
    have hname₃ : w₃.kern.files.names path = some i := by
      rw [hfiles]
      exact hname
    have hfiles' : w'.kern.files = w₃.kern.files := by
      rcases linker_open_inv h2' with ⟨-, rfl⟩ | ⟨j, k₄, rfl, ho'⟩
      · rfl
      · exact ho'.files.same hname₃ ht
    exact .same (hfiles'.trans hfiles) fun h0 _ => .inr (.inl (hempty (hz h0)))

end Existing

section Open

variable {dev : Device} {env : Env} {w w' : World} {path : Path} {flags : Flags} {fd : Int}
  (henv : env.Active) (hsup : dev.is_support_file_type_by_path path ≠ 0)
  (hc : w.kern.host.Calm)
include henv hsup hc

/-- **Opening a file that is there**, without emptying it.  A bound on the size is needed
    only when a conversion is possible. -/
theorem open_existing {i : Nat} {C : List UInt8} (hpath : path ≠ [])
    (hname : w.kern.files.names path = some i) (hdata : w.kern.files.data i = C)
    (hflags : flags.trunc = false ∨ (flags.creat && flags.excl) = true)
    (hmax : (flags.creat && flags.excl) = false → ¬ (HasHeader C ∧ w.kern.InUse 0) →
      w.kern.files.names (get_security_path_by_path path) = none →
      C.length + 4096 ≤ 2147483647)
    (h : open_file dev env path flags w = .ok (fd, w')) :
    Existing dev path C (w.kern.InUse 0) w.kern.files w'.kern.files fd := by
  rw [open_active henv hsup, open_supported,
    bind_ok (access_ok (w.kern.sysAccess_some (Kernel.answer_denies hc) hname)), if_pos rfl] at h
  obtain ⟨header, w₁, h1, h2⟩ := bind_inv h
  -- the probe changes nothing, and misses the header only when it is handed descriptor 0
  have hkept : Kernel.Kept w.kern w₁.kern := (kept_probe path h1).1
  obtain ⟨hfiles₁, hsome, hnone⟩ : w₁.kern.files = w.kern.files ∧
      (header ≠ none → HasHeader C) ∧ (header = none → w.kern.InUse 0 → ¬ HasHeader C) := by
    by_cases hpos : w.kern.freeFd w.kern.answer.hint > 0
    · obtain ⟨k₁, hprobe, hq⟩ := probe_calm hc hname hpos
      obtain ⟨rfl, rfl⟩ := Prod.mk.inj (Except.ok.inj (hprobe.symm.trans h1))
      rw [hdata]
      by_cases hH : HasHeader C
      · rw [if_pos hH]
        exact ⟨hq.files, fun _ => hH, fun hn => by cases hn⟩
      · rw [if_neg hH]
        exact ⟨hq.files, fun hn => absurd rfl hn, fun _ _ => hH⟩
    · obtain ⟨k₁, hprobe, hfiles, -⟩ := probe_zero hc hname hpos
      obtain ⟨rfl, rfl⟩ := Prod.mk.inj (Except.ok.inj (hprobe.symm.trans h1))
      exact ⟨hfiles, fun hn => absurd rfl hn,
        fun _ h0 => absurd (w.kern.freeFd_pos h0 _) hpos⟩
  have hc₁ : w₁.kern.host.Calm := by
    rw [hkept.host]
    exact hc
  have hname₁ : w₁.kern.files.names path = some i := by
    rw [hfiles₁]
    exact hname
  obtain ⟨fd₂, w₂, h3, h4⟩ := bind_inv h2
  rcases linker_open_inv h3 with ⟨rfl, rfl⟩ | ⟨j, k₂, rfl, ho⟩
  · rw [if_neg (by decide)] at h4
    obtain ⟨rfl, rfl⟩ := pure_inv h4
    exact .same hfiles₁ fun _ hpos => absurd hpos (by decide)
  · obtain ⟨hx, ht, hij, hfiles₂⟩ : (flags.creat && flags.excl) = false ∧
        flags.trunc = false ∧ i = j ∧ k₂.files = w₁.kern.files := by
      have hfiles := ho.files
      generalize k₂.files = fs' at hfiles ⊢
      cases hfiles with
      | existing hn hx ht => exact ⟨hx, ht, Option.some.inj (hname₁.symm.trans hn), rfl⟩
      | emptied hn hx ht =>
          rcases hflags with hflag | hflag
          · cases hflag.symm.trans ht
          · cases hflag.symm.trans hx
      | created hn => cases hname₁.symm.trans hn
    subst hij
    by_cases hpos : fd₂ > 0
    · rw [if_pos hpos, if_neg (fun hne => hne rfl)] at h4
      cases header with
      | some header =>
          have hstill : Still { w₁ with kern := k₂ } w' := still_track path _ fd₂ h4
          exact .same (hstill.1.trans (hfiles₂.trans hfiles₁))
            fun _ _ => .inl (hsome (fun hn => by cases hn))
      | none =>
          rw [← hfiles₁]
          refine open_plain_existing hpath hc₁ ho hfiles₂ hname₁ (by rw [hfiles₁]; exact hdata)
            hx ht hkept.inUse (hnone rfl) (fun hs => hmax hx ?_ (by rw [← hfiles₁]; exact hs)) h4
          exact fun hboth => hnone rfl hboth.2 hboth.1
    · rw [if_neg hpos] at h4
      obtain ⟨rfl, rfl⟩ := pure_inv h4
      refine .same (hfiles₂.trans hfiles₁) fun h0 _ => ?_
      have hzero : fd = 0 := by
        have := ho.gained.nonneg
        omega
      exact absurd (hzero ▸ hkept.inUse h0) ho.gained.fresh

/-- **Opening a file that is not there** either creates it, empty or with a header and
    nothing else, or fails and leaves no trace. -/
theorem open_absent (h0 : w.kern.InUse 0) (hname : w.kern.files.names path = none)
    (h : open_file dev env path flags w = .ok (fd, w')) :
    (w'.kern.files = w.kern.files ∧ fd < 0) ∨
      ∃ X, w'.kern.files.content path = some X ∧
        (X = [] ∨ X = entryHeader dev.get_process_name path) := by
  by_cases hfull : flags.creat = true ∧ dev.is_support_special_file_type_by_path path ≠ 1 ∧
      flags.acc.writable = true
  · obtain ⟨fd', id, w₁, hrun, -, hnew, -, hfiles, -⟩ :=
      open_new_calm hc henv hsup h0 hname hfull.1 hfull.2.1 hfull.2.2
    obtain ⟨rfl, rfl⟩ := Prod.mk.inj (Except.ok.inj (hrun.symm.trans h))
    exact .inr ⟨_, by rw [FileStore.content_of_names _ hnew.name, hfiles,
      FileStore.store_data_self], .inr rfl⟩
  · rw [open_active henv hsup, open_supported,
      bind_ok (access_ok (w.kern.sysAccess_none hname)), if_neg (by decide),
      bind_ok (pure_ok _ _)] at h
    obtain ⟨fd₂, w₂, h3, h4⟩ := bind_inv h
    rcases linker_open_inv h3 with ⟨rfl, rfl⟩ | ⟨i, k₂, rfl, ho⟩
    · rw [if_neg (by decide)] at h4
      obtain ⟨rfl, rfl⟩ := pure_inv h4
      exact .inl ⟨rfl, by decide⟩
    · obtain ⟨hcr, hi, hfiles₂⟩ : flags.creat = true ∧ i = w.kern.files.next ∧
          k₂.files = w.kern.files.create path := by
        have hfiles := ho.files
        generalize k₂.files = fs' at hfiles ⊢
        cases hfiles with
        | existing hn => cases hname.symm.trans hn
        | emptied hn => cases hname.symm.trans hn
        | created _ hcr hi => exact ⟨hcr, hi, rfl⟩
      have hempty : ∀ {w₃ : World}, w₃.kern.files = k₂.files →
          w₃.kern.files.content path = some [] := by
        intro w₃ hfiles₃
        rw [hfiles₃, hfiles₂, FileStore.content_of_names _ (FileStore.create_names_self ..),
          FileStore.create_data_self]
      have hpos : fd₂ > 0 := by
        have := ho.gained.nonneg
        have : fd₂ ≠ 0 := fun hzero => ho.gained.fresh (hzero ▸ h0)
        omega
      rw [if_pos hpos, if_pos (by decide), open_new] at h4
      by_cases hspecial : dev.is_support_special_file_type_by_path path = 1
      · rw [if_pos hspecial] at h4
        obtain ⟨rfl, rfl⟩ := pure_inv h4
        exact .inr ⟨[], hempty rfl, .inl rfl⟩
      · -- the header cannot be written
        have hwr : flags.acc.writable = false := by
          by_contra hw
          exact hfull ⟨hcr, hspecial, by simpa using hw⟩
        refine .inr ⟨[], ?_, .inl rfl⟩
        rw [if_neg hspecial] at h4
        obtain ⟨o, w₃, h5, h6⟩ := bind_inv h4
        obtain ⟨b, w₄, h7, h8⟩ := bind_inv h6
        have hfiles₃ := (Still.denotes path h5).1
        have hfiles₄ := (Still.add fd₂ _ o h7).1
        cases b with
        | false =>
            rw [if_neg (by decide)] at h8
            obtain ⟨rfl, rfl⟩ := pure_inv h8
            exact hempty (hfiles₄.trans hfiles₃)
        | true =>
            rw [if_pos rfl] at h8
            obtain ⟨n, w₅, h9, h10⟩ := bind_inv h8
            have hfiles₅ : w₅.kern.files = w₄.kern.files := by
              obtain ⟨-, rfl⟩ := denotes_inv h5
              obtain ⟨-, hkern, -⟩ := add_inv h7
              obtain ⟨-, rfl⟩ := kernelCall_inv h9
              have hfind : w₄.kern.find fd₂ = some w.kern.nextDesc := by
                rw [hkern]
                exact ho.gained.find_self
              refine w₄.kern.sysWrite_unwritable hfind ?_ _
              · rw [hkern]
                show (k₂.desc w.kern.nextDesc).flags.acc.writable = false
                rw [ho.desc]
                exact hwr
            have hrest : Stays Still (do
                if n ≠ FILE_HEADER_POLL_SIZE then do
                  file_info_list_remove_by_fd fd₂
                  let _ ← linker_close fd₂
                  pure (-1)
                else pure fd₂ : Sys Int) :=
              .ite (.bind (Still.remove fd₂) fun _ => .bind (Still.close fd₂) fun _ =>
                .pure (-1)) (.pure fd₂)
            exact hempty ((hrest h10).1.trans (hfiles₅.trans (hfiles₄.trans hfiles₃)))

end Open

/-! ## One open -/

/-- The file `path` is there, and opening it leaves it alone. -/
def Fixed (path : Path) (fs : FileStore) : Prop :=
  ∃ C, fs.content path = some C ∧ Settled path fs C

/-- A file that could be converted is not too large for that. -/
def Bounded (path : Path) (fs : FileStore) : Prop :=
  ∀ C, fs.content path = some C → fs.content (get_security_path_by_path path) = none →
    ¬ HasHeader C → C.length + 4096 ≤ 2147483647

/-- The file is not there, or it is empty or a header and nothing else. -/
def Fresh (dev : Device) (path : Path) (fs : FileStore) : Prop :=
  fs.content path = none ∨ fs.content path = some [] ∨
    fs.content path = some (entryHeader dev.get_process_name path)

/-- What an open of `path` with the result `fd` can do to the files. -/
inductive Change (dev : Device) (path : Path) (fs fs' : FileStore) (fd : Int) : Prop where
  | same : fs' = fs → (0 ≤ fd → Fixed path fs) → Change dev path fs fs' fd
  | converted (C X : List UInt8) : 0 ≤ fd → fs.content path = some C → C ≠ [] →
      ¬ HasHeader C → fs.content (get_security_path_by_path path) = none →
      fs'.content path = some X → Once dev path C X → Change dev path fs fs' fd
  | created (X : List UInt8) : fs.content path = none → fs'.content path = some X →
      (X = [] ∨ X = entryHeader dev.get_process_name path) → Change dev path fs fs' fd

theorem entryHeader_hasHeader (name : Option (List UInt8)) (path : Path) :
    HasHeader (entryHeader name path) := by
  have h := hasHeader_append (entryHeader_length name path) (entryHeader_rights name path) []
  rwa [List.append_nil] at h

namespace Change

variable {dev : Device} {path : Path} {fs fs' : FileStore} {fd : Int}
  (h : Change dev path fs fs' fd)
include h

/-- Nothing is done to a file that is fixed. -/
theorem fixed (hf : Fixed path fs) : fs' = fs := by
  obtain ⟨C, hC, hs⟩ := hf
  cases h with
  | same h => exact h
  | converted C' X _ hC' hne hH hgone =>
      obtain rfl : C = C' := Option.some.inj (hC.symm.trans hC')
      rcases hs with hs | hs | hs
      · exact absurd hs hH
      · exact absurd hs hne
      · exact absurd hgone hs
  | created X hnone => cases hC.symm.trans hnone

/-- After an open that succeeded the file is fixed. -/
theorem success (hfd : 0 ≤ fd) : Fixed path fs' := by
  cases h with
  | same h hf =>
      rw [h]
      exact hf hfd
  | converted C X _ _ _ _ _ hX honce => exact ⟨X, hX, .inl honce.header⟩
  | created X _ hX hcase =>
      refine ⟨X, hX, ?_⟩
      rcases hcase with heq | heq
      · exact .inr (.inl heq)
      · rw [heq]
        exact .inl (entryHeader_hasHeader dev.get_process_name path)

/-- An open that failed does nothing to a file that is there. -/
theorem failure (hfd : fd < 0) {C : List UInt8} (hC : fs.content path = some C) : fs' = fs := by
  cases h with
  | same h => exact h
  | converted _ _ hpos => omega
  | created X hnone => cases hC.symm.trans hnone

/-- A file that was created stays as it was created. -/
theorem fresh (hf : Fresh dev path fs) : Fresh dev path fs' := by
  cases h with
  | same h =>
      rw [h]
      exact hf
  | converted C X _ hC hne hH =>
      rcases hf with hf | hf | hf
      · cases hf.symm.trans hC
      · exact absurd (Option.some.inj (hC.symm.trans hf)) hne
      · rw [Option.some.inj (hC.symm.trans hf)] at hH
        exact absurd (entryHeader_hasHeader dev.get_process_name path) hH
  | created X _ hX hcase =>
      rw [Fresh, hX]
      rcases hcase with heq | heq
      · exact .inr (.inl (congrArg some heq))
      · exact .inr (.inr (congrArg some heq))

theorem fits (hf : Bounded path fs) : Bounded path fs' := by
  intro D hD hgone hH
  cases h with
  | same h => exact hf D (h ▸ hD) (h ▸ hgone) hH
  | converted C X _ _ _ _ _ hX honce =>
      obtain rfl : X = D := Option.some.inj (hX.symm.trans hD)
      exact absurd honce.header hH
  | created X _ hX hcase =>
      obtain rfl : X = D := Option.some.inj (hX.symm.trans hD)
      rcases hcase with heq | heq
      · rw [heq, List.length_nil]
        omega
      · rw [heq] at hH
        exact absurd (entryHeader_hasHeader dev.get_process_name path) hH

end Change

section Runs

variable {dev : Device} {env : Env} {path : Path} (henv : env.Active)
  (hsup : dev.is_support_file_type_by_path path ≠ 0) (hpath : path ≠ [])
include henv hsup hpath

/-- **One open** with descriptor 0 in use. -/
theorem open_change {w w' : World} {flags : Flags} {fd : Int} (hc : w.kern.host.Calm)
    (h0 : w.kern.InUse 0) (hf : Bounded path w.kern.files) (ht : flags.trunc = false)
    (h : open_file dev env path flags w = .ok (fd, w')) :
    Change dev path w.kern.files w'.kern.files fd := by
  cases hname : w.kern.files.names path with
  | none =>
      have hnone : w.kern.files.content path = none := (FileStore.content_eq_none _).mpr hname
      rcases open_absent henv hsup hc h0 hname h with ⟨hfiles, hneg⟩ | ⟨X, hX, hcase⟩
      · exact .same hfiles fun hpos => by omega
      · exact .created X hnone hX hcase
  | some i =>
      have hC := FileStore.content_of_names _ hname
      have hout := open_existing henv hsup hc hpath hname rfl (.inl ht) (fun _ hno hs =>
        hf _ hC ((FileStore.content_eq_none _).mpr hs) fun hH => hno ⟨hH, h0⟩) h
      cases hout with
      | same hfiles hs => exact .same hfiles fun hpos => ⟨_, hC, hs h0 hpos⟩
      | converted X hpos hne hgone hH hX _ honce =>
          exact .converted _ X hpos hC hne (hH h0) hgone hX honce

end Runs

/-! ## Open and close, again and again -/

/-- An open, and a close of what it gave. -/
def open_close (dev : Device) (env : Env) (path : Path) (flags : Flags) : Sys Int := do
  let fd ← open_file dev env path flags
  if fd ≥ 0 then do
    let _ ← close env fd
    pure fd
  else pure fd

/-- Such pairs one after the other, with the results of the opens. -/
def open_close_all (dev : Device) (env : Env) (path : Path) : List Flags → Sys (List Int)
  | [] => pure []
  | flags :: rest => do
      let fd ← open_close dev env path flags
      let fds ← open_close_all dev env path rest
      pure (fd :: fds)

/-- Every descriptor but `fd` that was in use still is. -/
def Others (fd : Int) (w w' : World) : Prop :=
  ∀ fd', fd' ≠ fd → w.kern.InUse fd' → w'.kern.InUse fd'

instance (fd : Int) : IsPreorder World (Others fd) where
  refl _ _ _ hu := hu
  trans _ _ _ h h' fd' hne hu := h' fd' hne (h fd' hne hu)

theorem others_close (fd : Int) : Stays (Others fd) (linker_close fd) := by
  intro w r w' h fd' hne hu
  obtain ⟨-, rfl⟩ := kernelCall_inv h
  show (w.kern.sysClose fd).2.InUse fd'
  unfold Kernel.sysClose
  split
  · exact hu
  · cases hf : w.kern.find fd' with
    | none => exact absurd hu (w.kern.find_none_iff.mp hf)
    | some id =>
        exact Kernel.find_inUse _ ((Kernel.dropFd_find_ne _ hne).trans hf)

theorem others_hooked_close (env : Env) (fd : Int) : Stays (Others fd) (close env fd) := by
  refine hooked_stays (others_close fd) (.bind ?_ fun e => ?_)
  · intro w e w' h fd' _ hu
    exact (Frames.query fd h).1.inUse hu
  · cases e with
    | none => exact others_close fd
    | some e =>
        refine .bind (fun w r w' h fd' _ hu => (Frames.lseek fd 0 .set h).1.inUse hu) fun _ =>
          .bind ?_ fun _ => others_close fd
        intro w u w' h fd' _ hu
        obtain ⟨-, rfl⟩ := Prod.mk.inj (Except.ok.inj h)
        exact hu

/-- Closing changes no file. -/
theorem still_close (env : Env) (fd : Int) : Stays Still (close env fd) := by
  refine hooked_stays (Still.close fd) (.bind (Still.query fd) fun e => ?_)
  cases e with
  | none => exact Still.close fd
  | some e =>
      exact .bind (Still.lseek fd 0 .set) fun _ => .bind (Still.remove fd) fun _ => Still.close fd

section Pairs

variable {dev : Device} {env : Env} {path : Path} (henv : env.Active)
  (hsup : dev.is_support_file_type_by_path path ≠ 0) (hpath : path ≠ [])

/-- What holds between two pairs. -/
structure Between (path : Path) (w : World) : Prop where
  calm : w.kern.host.Calm
  inUse : w.kern.InUse 0
  bounded : Bounded path w.kern.files

include henv hsup hpath

/-- **One pair.** -/
theorem open_close_change {w w' : World} {flags : Flags} {fd : Int} (hb : Between path w)
    (ht : flags.trunc = false) (h : open_close dev env path flags w = .ok (fd, w')) :
    Between path w' ∧ Change dev path w.kern.files w'.kern.files fd := by
  obtain ⟨fd', w₁, h1, h2⟩ := bind_inv h
  have hchange := open_change henv hsup hpath hb.calm hb.inUse hb.bounded ht h1
  have hopen := open_inv h1
  have hb₁ : Between path w₁ := ⟨by rw [hopen.kept.host]; exact hb.calm,
    hopen.kept.inUse hb.inUse, hchange.fits hb.bounded⟩
  by_cases hpos : fd' ≥ 0
  · rw [if_pos hpos] at h2
    obtain ⟨r, w₂, h3, h4⟩ := bind_inv h2
    obtain ⟨rfl, rfl⟩ := pure_inv h4
    obtain ⟨hfiles, hhost⟩ := still_close env fd h3
    obtain ⟨i, id, pos, hnew⟩ := hopen.newFd hpos
    have hne : 0 ≠ fd := fun hzero => hnew.fresh (hzero ▸ hb.inUse)
    refine ⟨⟨by rw [hhost]; exact hb₁.calm, others_hooked_close env fd h3 0 hne hb₁.inUse,
      by rw [hfiles]; exact hb₁.bounded⟩, ?_⟩
    rw [hfiles]
    exact hchange
  · rw [if_neg hpos] at h2
    obtain ⟨rfl, rfl⟩ := pure_inv h2
    exact ⟨hb₁, hchange⟩

/-- **A run of pairs** keeps what every change with one of its results keeps. -/
theorem open_close_all_keeps {I : FileStore → Prop} : ∀ (fls : List Flags) {w w' : World}
    {fds : List Int}, (∀ fd ∈ fds, ∀ fs fs', Change dev path fs fs' fd → I fs → I fs') →
    Between path w → (∀ f ∈ fls, f.trunc = false) → I w.kern.files →
    open_close_all dev env path fls w = .ok (fds, w') → Between path w' ∧ I w'.kern.files := by
  intro fls
  induction fls with
  | nil =>
      intro w w' fds _ hb _ hi h
      obtain ⟨-, rfl⟩ := pure_inv h
      exact ⟨hb, hi⟩
  | cons f fls ih =>
      intro w w' fds hstep hb ht hi h
      obtain ⟨fd, w₁, h1, h2⟩ := bind_inv h
      obtain ⟨rest, w₂, h3, h4⟩ := bind_inv h2
      obtain ⟨rfl, rfl⟩ := pure_inv h4
      obtain ⟨hb₁, hchange⟩ := open_close_change henv hsup hpath hb
        (ht f (List.mem_cons_self ..)) h1
      exact ih (fun r hr => hstep r (List.mem_cons_of_mem _ hr)) hb₁
        (fun g hg => ht g (List.mem_cons_of_mem _ hg))
        (hstep fd (List.mem_cons_self ..) _ _ hchange hi) h3

end Pairs

/-! ## What does not return -/

section Stops

variable {dev : Device} {env : Env} {path : Path}

theorem total_call {α : Type} (f : Kernel → α × Kernel) : Total (kernelCall f) :=
  fun _ => ⟨_, _, rfl⟩

theorem total_add (fd : Int) (p : Path) (origin : Option Nat) :
    Total (file_info_list_add fd p origin) :=
  .bind (total_call _) fun _ => .ite (fun _ => ⟨_, _, rfl⟩) (.pure false)

theorem total_open_new (dev : Device) (path : Path) (fd : Int) : Total (open_new dev path fd) := by
  refine .ite (.pure fd) (.bind (total_call _) fun _ => .bind (total_add _ _ _) fun _ => ?_)
  refine .ite (.bind (total_call _) fun _ => .ite ?_ (.pure fd)) (.pure fd)
  exact .bind (fun _ => ⟨_, _, rfl⟩) fun _ => .bind (total_call _) fun _ => .pure (-1)

theorem total_track (path p : Path) (fd : Int) {c : Prop} [Decidable c] : Total (do
    let origin ← denotes path
    if (← file_info_list_add fd p origin) then do
      if c then do
        let _ ← linker_lseek fd FILE_HEADER_POLL_SIZE .set
        pure fd
      else pure fd
    else pure fd : Sys Int) := by
  refine .bind (total_call _) fun _ => .bind (total_add _ _ _) fun _ => .ite ?_ (.pure fd)
  exact .ite (.bind (total_call _) fun _ => .pure fd) (.pure fd)

theorem total_reopen (path : Path) (flags : Flags) : Total (reopen path flags) := by
  refine .bind (total_call _) fun _ => .bind (total_call _) fun _ => .bind (total_add _ _ _)
    fun _ => .ite (.bind (total_call _) fun _ => .pure _) (.pure _)

theorem total_close (env : Env) (fd : Int) : Total (close env fd) := by
  rw [close, hooked]
  refine .ite (.pure _) (.ite (total_call _) (.bind (fun _ => ⟨_, _, rfl⟩) fun e => ?_))
  cases e with
  | none => exact total_call _
  | some e =>
      exact .bind (total_call _) fun _ => .bind (fun _ => ⟨_, _, rfl⟩) fun _ => total_call _

/-- When the name fits, the workers take every step. -/
theorem run_workers_stops (hfit : Fits path) : ∀ n {w : World} {ts : List Worker} {e : Stop},
    run_workers dev path n ts w = .error e → e = .waiting := by
  intro n
  induction n with
  | zero =>
      intro w ts e h
      rw [run_workers] at h
      split at h
      · cases h
      · exact (Except.error.inj h).symm
  | succ n ih =>
      intro w ts e h
      rw [run_workers] at h
      split at h
      · cases h
      rcases bind_error_inv h with hone | ⟨ts₁, w₁, -, hrest⟩
      · exfalso
        unfold run_worker at hone
        split at hone
        · rename_i hnone
          cases ht : ts[(granted w.kern).who]? with
          | none =>
              rw [System.poolStep_none (workers dev path) (a := granted w.kern) ht] at hnone
              cases hnone
          | some t =>
              rw [System.poolStep_some (workers dev path) (a := granted w.kern) ht] at hnone
              exact Worker.step_defined hfit _ _ t (Option.map_eq_none_iff.mp hnone)
        · cases hone
      · exact ih hrest

/-- A conversion on a calm host that does not return. -/
theorem rebuild_stops {w : World} {C : List UInt8} {i : Nat} {e : Stop} (hpath : path ≠ [])
    (hc : w.kern.host.Calm) (hfit : Fits path)
    (hname : w.kern.files.names path = some i) (hdata : w.kern.files.data i = C)
    (h : rebuild_file_struct dev path C.length w = .error e) :
    e = .waiting ∧ 4096 * THREADS_COUNT < C.length := by
  by_cases hn : 0 < C.length
  · by_cases hsmall : C.length ≤ 4096 * THREADS_COUNT
    · rw [rebuild_small hpath hn hsmall] at h
      obtain ⟨hover, hnot⟩ := @rebuild_buffer_any dev path w i C hname hdata
      by_cases ho : Overwrites w.kern C.length
      · obtain ⟨k', hk', -⟩ := hover ho
        cases hk'.symm.trans h
      · obtain ⟨k', hk', -⟩ := hnot ho
        cases hk'.symm.trans h
    · rw [rebuild_large hpath hsmall, rebuild_workers_calm hc] at h
      refine ⟨?_, Nat.lt_of_not_le hsmall⟩
      rcases bind_error_inv h with hjoin | ⟨ts, w₁, -, hrest⟩
      · exact run_workers_stops hfit _ hjoin
      · split at hrest
        · exact absurd hrest (Total.not_error (.bind (total_call _) fun _ => .pure 1))
        · cases hrest
  · rw [rebuild_file_struct, if_neg hpath, if_neg (by omega)] at h
    cases h

/-- A plain file that has been opened on a calm host, and whose conversion does not return. -/
theorem convert_plain_stops {u : World} {fd : Int} {i id : Nat} {k₂ : Kernel} {e : Stop}
    (hpath : path ≠ []) (hc : u.kern.host.Calm) (hg : Kernel.Gained u.kern fd id k₂)
    (hname : k₂.files.names path = some i)
    (h : convert_plain dev path fd { u with kern := k₂ } = .error e) :
    (e = .undefined ∧ ¬ Fits path) ∨
      (e = .waiting ∧ 4096 * THREADS_COUNT < (k₂.files.data i).length) := by
  have hc₂ : k₂.host.Calm := by
    rw [hg.host]
    exact hc
  rw [convert_plain, bind_ok (calloc_calm (w := { u with kern := k₂ }) hc₂), if_pos rfl] at h
  by_cases hfit : Fits path
  swap
  · rw [if_pos hfit] at h
    exact .inl ⟨(Except.error.inj h).symm, hfit⟩
  rw [if_neg (not_not_intro hfit)] at h
  obtain ⟨r, w₂, h1, h2⟩ := Total.bind_error (total_call _) h
  obtain ⟨-, rfl⟩ := kernelCall_inv h1
  split at h2
  swap
  · cases h2
  obtain ⟨r', w₃, h3, h4⟩ := Total.bind_error (total_call _) h2
  obtain ⟨-, rfl⟩ := kernelCall_inv h3
  -- the size is that of the file
  let k₄ := ((k₂.tock 1).sysClose fd).2
  have hfiles₄ : k₄.files = k₂.files := ((k₂.tock 1).unwritten_close fd).1
  have hc₄ : k₄.host.Calm := by
    rw [(hg.close (.tock k₂ 1)).host]
    exact hc
  have hsize := file_size_calm (w := { u with kern := k₄ }) hc₄ (by
    rw [hfiles₄]
    exact hname)
  rw [show (World.mk k₄ u.file_info_list).kern.files.data i = k₂.files.data i from
    congrFun (congrArg FileStore.data hfiles₄) i] at hsize
  have h5 := h4
  rw [bind_ok hsize] at h5
  rcases bind_error_inv h5 with hrebuild | ⟨result, w₅, -, hpure⟩
  · have hname₄ : k₄.files.names path = some i := by
      rw [hfiles₄]
      exact hname
    exact .inr (@rebuild_stops dev path { u with kern := k₄.tock 1 } _ i e hpath hc₄ hfit hname₄
      (congrFun (congrArg FileStore.data hfiles₄) i) hrebuild)
  · cases hpure

/-- The name `<path>.s` is not made: the file is to be created and nothing else, is not there,
    or has a header. -/
def Spared (path : Path) (fs : FileStore) (flags : Flags) : Prop :=
  (flags.creat && flags.excl) = true ∨ ∀ C, fs.content path = some C → HasHeader C

variable (henv : env.Active) (hsup : dev.is_support_file_type_by_path path ≠ 0)
  {w : World} {flags : Flags} (hc : w.kern.host.Calm) (h0 : w.kern.InUse 0)
include henv hsup hc h0

/-- **An open that does not return** is converting the file, or has a name that does not fit
    its buffer. -/
theorem open_stops (hpath : path ≠ []) (ht : flags.trunc = false) {e : Stop}
    (h : open_file dev env path flags w = .error e) :
    ¬ Spared path w.kern.files flags ∧ ((e = .undefined ∧ ¬ Fits path) ∨ (e = .waiting ∧
      ∃ C, w.kern.files.content path = some C ∧ 4096 * THREADS_COUNT < C.length)) := by
  rw [open_active henv hsup, open_supported] at h
  cases hname : w.kern.files.names path with
  | none =>
      rw [bind_ok (access_ok (w.kern.sysAccess_none hname)), if_neg (by decide),
        bind_ok (pure_ok _ _)] at h
      obtain ⟨fd, w₂, -, h2⟩ := Total.bind_error (total_call _) h
      split at h2
      · rw [if_pos (by decide)] at h2
        exact absurd h2 (total_open_new dev path fd).not_error
      · cases h2
  | some i =>
      have hC : w.kern.files.content path = some (w.kern.files.data i) :=
        FileStore.content_of_names _ hname
      obtain ⟨k₁, hprobe, hq⟩ := probe_calm hc hname (w.kern.freeFd_pos h0 _)
      rw [bind_ok (access_ok (w.kern.sysAccess_some (Kernel.answer_denies hc) hname)), if_pos rfl,
        bind_ok hprobe] at h
      have hc₁ : k₁.host.Calm := by
        rw [hq.host]
        exact hc
      have hname₁ : k₁.files.names path = some i := by
        rw [hq.files]
        exact hname
      obtain ⟨fd, w₂, h1, h2⟩ := Total.bind_error (total_call _) h
      rcases linker_open_inv h1 with ⟨rfl, rfl⟩ | ⟨j, k₂, rfl, ho⟩
      · rw [if_neg (by decide)] at h2
        cases h2
      obtain ⟨hx, rfl, hfiles₂⟩ : (flags.creat && flags.excl) = false ∧ i = j ∧
          k₂.files = k₁.files := by
        have hfiles := ho.files
        generalize k₂.files = fs' at hfiles ⊢
        cases hfiles with
        | existing hn hx ht => exact ⟨hx, Option.some.inj (hname₁.symm.trans hn), rfl⟩
        | emptied hn hx ht' => cases ht.symm.trans ht'
        | created hn => cases hname₁.symm.trans hn
      have hfiles : k₂.files = w.kern.files := hfiles₂.trans hq.files
      split at h2
      swap
      · cases h2
      rw [if_neg (fun hne => hne rfl)] at h2
      by_cases hH : HasHeader (w.kern.files.data i)
      · rw [if_pos hH] at h2
        exact absurd h2 (total_track path _ fd).not_error
      rw [if_neg hH] at h2
      refine ⟨?_, ?_⟩
      · rintro (hexcl | hhead)
        · cases hx.symm.trans hexcl
        · exact hH (hhead _ hC)
      · rcases bind_error_inv h2 with hconv | ⟨stage, w₃, -, hrest⟩
        · rcases convert_plain_stops (u := { w with kern := k₁ }) hpath hc₁ ho.gained
            (by rw [hfiles]; exact hname) hconv with hunfit | ⟨hwait, hbig⟩
          · exact .inl hunfit
          · exact .inr ⟨hwait, _, hC, by rw [hfiles] at hbig; exact hbig⟩
        · rcases stage with - | (- | -)
          · cases hrest
          · exact absurd hrest (total_call _).not_error
          · exact absurd hrest (total_reopen path flags).not_error

/-- The name of a file that is to be converted does not fit its buffer. -/
theorem open_undefined (hfit : ¬ Fits path) (hs : ¬ Spared path w.kern.files flags) :
    open_file dev env path flags w = .error .undefined := by
  obtain ⟨hexcl, hhead⟩ := not_or.mp hs
  obtain ⟨C, hC, hH⟩ : ∃ C, w.kern.files.content path = some C ∧ ¬ HasHeader C := by
    by_contra hno
    exact hhead fun C hC => by_contra fun hH => hno ⟨C, hC, hH⟩
  have hx : (flags.creat && flags.excl) = false := by simpa using hexcl
  obtain ⟨i, hname, hdata⟩ := Option.map_eq_some_iff.mp hC
  obtain ⟨k₁, hprobe, hq⟩ := probe_calm hc hname (w.kern.freeFd_pos h0 _)
  rw [if_neg (by rw [hdata]; exact hH)] at hprobe
  have hc₁ : k₁.host.Calm := by
    rw [hq.host]
    exact hc
  obtain ⟨fd, k₂, hopen, ho, hpos⟩ := linker_open_calm (w := { w with kern := k₁ }) hc₁
    (by rw [hq.files]; exact hname) hx
  have hc₂ : k₂.host.Calm := by
    rw [ho.gained.host]
    exact hc₁
  have hconv : convert_plain dev path fd { w with kern := k₂ } = .error .undefined := by
    rw [convert_plain, bind_ok (calloc_calm (w := { w with kern := k₂ }) hc₂), if_pos rfl,
      if_pos hfit]
    rfl
  rw [open_active henv hsup, open_supported,
    bind_ok (access_ok (w.kern.sysAccess_some (Kernel.answer_denies hc) hname)), if_pos rfl,
    bind_ok hprobe, bind_ok hopen, if_pos (hpos (hq.inUse.mpr h0)), if_neg (fun hne => hne rfl)]
  exact bind_error hconv

omit henv hsup hc h0 in
/-- In every pair of the run the name is not made. -/
def SparedAll (dev : Device) (env : Env) (path : Path) : List Flags → World → Prop
  | [], _ => True
  | flags :: rest, w => Spared path w.kern.files flags ∧
      ∀ fd w', open_close dev env path flags w = .ok (fd, w') → SparedAll dev env path rest w'

omit hc h0 in
/-- **A run of pairs** is defined exactly when the name fits its buffer, or is not made. -/
theorem pairs_defined_iff (hpath : path ≠ []) : ∀ (fls : List Flags) {w : World},
    Between path w → (∀ f ∈ fls, f.trunc = false) →
    (open_close_all dev env path fls w ≠ .error .undefined ↔
      Fits path ∨ SparedAll dev env path fls w) := by
  intro fls
  induction fls with
  | nil =>
      intro w _ _
      exact ⟨fun _ => .inr trivial, fun _ h => by cases h⟩
  | cons f fls ih =>
      intro w hb ht
      have htf : f.trunc = false := ht f (List.mem_cons_self ..)
      have hrest : ∀ g ∈ fls, g.trunc = false := fun g hg => ht g (List.mem_cons_of_mem _ hg)
      have hnext : ∀ {fd : Int} {w₁ : World}, open_close dev env path f w = .ok (fd, w₁) →
          Between path w₁ := fun h => (open_close_change henv hsup hpath hb htf h).1
      constructor
      · intro hdef
        by_cases hfit : Fits path
        · exact .inl hfit
        right
        refine ⟨?_, fun fd w₁ h1 => ?_⟩
        · by_contra hs
          have hopen := open_undefined henv hsup hb.calm hb.inUse hfit hs
          exact hdef (bind_error (bind_error hopen))
        · refine ((ih (hnext h1) hrest).mp fun herr => hdef ?_).resolve_left hfit
          rw [open_close_all, bind_ok h1]
          exact bind_error herr
      · intro hor herr
        rcases bind_error_inv herr with hpair | ⟨fd, w₁, h1, h2⟩
        · -- the open of the pair
          obtain ⟨hs, hcase⟩ : ¬ Spared path w.kern.files f ∧ (_ ∨ _) := by
            rcases bind_error_inv hpair with hopen | ⟨fd, w₁, -, h2⟩
            · exact open_stops henv hsup hb.calm hb.inUse hpath htf hopen
            · exact absurd h2 (Total.not_error
                (.ite (.bind (total_close env fd) fun _ => .pure fd) (.pure fd)))
          rcases hcase with ⟨-, hfit⟩ | ⟨hwait, -⟩
          · exact hs (hor.resolve_left hfit).1
          · cases hwait
        · rcases bind_error_inv h2 with hlater | ⟨fds, w₂, -, hpure⟩
          · exact (ih (hnext h1) hrest).mpr (hor.imp_right fun h => h.2 fd w₁ h1) hlater
          · cases hpure

/-- A small plain file on a calm host: it is converted and opened. -/
theorem open_plain_small (hpath : path ≠ []) (hfit : Fits path) {i : Nat} {C : List UInt8}
    (hname : w.kern.files.names path = some i) (hdata : w.kern.files.data i = C) (hne : C ≠ [])
    (hH : ¬ HasHeader C) (hsmall : C.length ≤ 4096 * THREADS_COUNT)
    (hnone : w.kern.files.names (get_security_path_by_path path) = none)
    (hx : (flags.creat && flags.excl) = false) (ht : flags.trunc = false) :
    ∃ fd w', open_file dev env path flags w = .ok (fd, w') ∧ 0 ≤ fd := by
  have hmax : C.length + 4096 ≤ 2147483647 := by
    rw [THREADS_COUNT] at hsmall
    omega
  obtain ⟨k₁, hprobe, hq⟩ := probe_calm hc hname (w.kern.freeFd_pos h0 _)
  rw [if_neg (by rw [hdata]; exact hH)] at hprobe
  have hc₁ : k₁.host.Calm := by
    rw [hq.host]
    exact hc
  have hname₁ : k₁.files.names path = some i := by
    rw [hq.files]
    exact hname
  obtain ⟨fd, k₂, hopen, ho, hpos⟩ :=
    linker_open_calm (w := { w with kern := k₁ }) hc₁ hname₁ hx
  have hsame : k₂.files = k₁.files := ho.files.same hname₁ ht
  have hdata₂ : k₂.files.data i = C := by rw [hsame, hq.files, hdata]
  have hstart : open_file dev env path flags w
      = open_plain dev path flags fd { w with kern := k₂ } := by
    rw [open_active henv hsup, open_supported,
      bind_ok (access_ok (w.kern.sysAccess_some (Kernel.answer_denies hc) hname)), if_pos rfl,
      bind_ok hprobe, bind_ok hopen, if_pos (hpos (hq.inUse.mpr h0)), if_neg (fun hne => hne rfl)]
  cases hconv : convert_plain dev path fd { w with kern := k₂ } with
  | error e =>
      rcases convert_plain_stops (u := { w with kern := k₁ }) hpath hc₁ ho.gained ho.name
        hconv with ⟨-, hunfit⟩ | ⟨-, hbig⟩
      · exact absurd hfit hunfit
      · rw [hdata₂] at hbig
        omega
  | ok r =>
      obtain ⟨stage, w₃⟩ := r
      rcases convert_plain_existing hpath
        (show (World.mk k₁ w.file_info_list).kern.host.Calm from hc₁) ho hsame hname₁
        (by show k₁.files.data i = C; rw [hq.files, hdata]) (fun _ => hmax) hconv with
        ⟨-, -, hs⟩ | ⟨rfl, -, -, -, hc₃, s, hdone⟩ | ⟨-, -, hempty⟩
      · refine absurd ?_ hs
        show k₁.files.names _ = none
        rw [hq.files]
        exact hnone
      · obtain ⟨fd', k₄, hopen', ho', -⟩ := linker_open_calm hc₃ hdone.name hx
        have htrack := total_track path path fd' (c := True)
        simp only [if_true] at htrack
        obtain ⟨n, w', hrun⟩ := htrack { w₃ with kern := k₄ }
        obtain ⟨rfl, -⟩ : n = fd' ∧ Opening dev activeEnv w₃ w' path flags fd' :=
          track_inv (c := True) (.inl rfl) (.refl _) rfl ho' (by simp only [if_true]; exact hrun)
        refine ⟨n, w', ?_, ho'.gained.nonneg⟩
        rw [hstart, open_plain, bind_ok hconv]
        show reopen path flags w₃ = _
        rw [reopen, bind_ok hopen']
        exact hrun
      · exact absurd (hempty (hq.inUse.mpr h0)) hne

end Stops

/-- What is to hold of a run of pairs: it is defined, and whatever pairs come before, from an
    open on that succeeds the bytes of the file stay.  A file that has a header, is empty or
    has a sibling `<path>.s` keeps its bytes throughout; every other file keeps them while the
    opens fail and is converted by the first that succeeds; and a file that was not there is
    empty or a header. -/
structure KeptOnce (dev : Device) (env : Env) (path : Path) (fls : List Flags) (w : World) :
    Prop where
  defined : open_close_all dev env path fls w ≠ .error .undefined
  once : ∀ before flags after fds fd fds' w₀ w₁ w₂, fls = before ++ flags :: after →
    open_close_all dev env path before w = .ok (fds, w₀) → (∀ r ∈ fds, r < 0) →
    open_close dev env path flags w₀ = .ok (fd, w₁) → 0 ≤ fd →
    open_close_all dev env path after w₁ = .ok (fds', w₂) →
      w₂.kern.files.content path = w₁.kern.files.content path ∧
      (∀ C, w.kern.files.content path = some C → w₀.kern.files.content path = some C ∧
        (Settled path w.kern.files C → w₁.kern.files.content path = some C) ∧
        (¬ Settled path w.kern.files C →
          ∃ X, w₁.kern.files.content path = some X ∧ Once dev path C X)) ∧
      (w.kern.files.content path = none → w₁.kern.files.content path = some [] ∨
        w₁.kern.files.content path = some (entryHeader dev.get_process_name path))

/-- A plain file of one byte, under this name. -/
def plainByte (p : Path) : World where
  kern := Kernel.namedFile p [7]
  file_info_list := []

/-- A file is not opened that is to be created. -/
theorem open_exclusive {dev : Device} {env : Env} {path : Path} {w : World} {flags : Flags}
    {i : Nat} (henv : env.Active) (hsup : dev.is_support_file_type_by_path path ≠ 0)
    (hc : w.kern.host.Calm) (h0 : w.kern.InUse 0) (hname : w.kern.files.names path = some i)
    (hx : (flags.creat && flags.excl) = true) :
    ∃ w', open_file dev env path flags w = .ok (-1, w') := by
  obtain ⟨k₁, hprobe, hq⟩ := probe_calm hc hname (w.kern.freeFd_pos h0 _)
  have hopen : linker_open path flags { w with kern := k₁ } =
      .ok (-1, { w with kern := k₁.tock 1 }) :=
    linker_open_ok (Kernel.sysOpen_excl (k := k₁) (by rw [hq.host]; exact hc)
      (by rw [hq.files]; exact hname) hx)
  refine ⟨{ w with kern := k₁.tock 1 }, ?_⟩
  rw [open_active henv hsup, open_supported,
    bind_ok (access_ok (w.kern.sysAccess_some (Kernel.answer_denies hc) hname)), if_pos rfl,
    bind_ok hprobe, bind_ok hopen, if_neg (by decide)]
  rfl

/-- Once a file has a header every pair returns. -/
theorem headed_returns {path : Path} (hpath : path ≠ []) : ∀ (fls : List Flags) {w : World},
    Between path w → (∀ f ∈ fls, f.trunc = false) →
    (∃ C, w.kern.files.content path = some C ∧ HasHeader C) →
    ∃ fds w', open_close_all aDevice activeEnv path fls w = .ok (fds, w') := by
  have henv : activeEnv.Active := ⟨rfl, rfl, rfl⟩
  have hsup : aDevice.is_support_file_type_by_path path ≠ 0 := by
    show (1 : Int) ≠ 0
    decide
  intro fls
  induction fls with
  | nil => exact fun {w} _ _ _ => ⟨[], w, rfl⟩
  | cons f fls ih =>
      rintro w hb ht ⟨C, hC, hH⟩
      have htf : f.trunc = false := ht f (List.mem_cons_self ..)
      cases hpair : open_close aDevice activeEnv path f w with
      | error e =>
          exfalso
          rcases bind_error_inv hpair with hopen | ⟨fd, w₁, -, h2⟩
          · refine (open_stops henv hsup hb.calm hb.inUse hpath htf hopen).1
              (.inr fun D hD => ?_)
            rwa [← Option.some.inj (hC.symm.trans hD)]
          · exact absurd h2 (Total.not_error
              (.ite (.bind (total_close activeEnv fd) fun _ => .pure fd) (.pure fd)))
      | ok r =>
          obtain ⟨fd, w₁⟩ := r
          obtain ⟨hb₁, hchange⟩ := open_close_change henv hsup hpath hb htf hpair
          have hsame := hchange.fixed ⟨C, hC, .inl hH⟩
          obtain ⟨fds, w', hrest⟩ := ih hb₁ (fun g hg => ht g (List.mem_cons_of_mem _ hg))
            ⟨C, by rw [hsame]; exact hC, hH⟩
          refine ⟨fd :: fds, w', ?_⟩
          rw [open_close_all, bind_ok hpair, bind_ok hrest]
          rfl

/-- An attempt to create the file, the open that converts it, and two more. -/
def fourPairs : List Flags :=
  [{ acc := .rdwr, creat := true, excl := true }, { acc := .rdonly }, { acc := .rdwr },
    { acc := .wronly, append := true }]

/-- A name of 1022 bytes. -/
def longName : Path := List.replicate 1022 0x61

end TeOnce
