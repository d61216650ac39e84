import TransEncrypt.ConversionProofs

/-! # Workers on any host

    Whatever fails, no worker touches the plain file (`placed_step`).  The wait loop of a
    worker has no other exit than a header under `<path>.s`, and only worker 0 writes one.
    When its open fails or gives descriptor 0, or its write fails, a step leaves what is
    blank blank, and no worker gets out of its loop (`barren_step`). -/

namespace TeBarren

open Posix Overlay Interleave TeHeader TeProgram TeDetector TeStored TeWorker

/-! ## What never happens -/

section Placed

variable {path : Path} {old : Nat} {C : List UInt8} {fs fs' : FileStore}

/-- The plain file is where it was, and the new one, if it exists, is another file. -/
structure Sited (path : Path) (old : Nat) (C : List UInt8) (fs : FileStore) : Prop where
  name : fs.names path = some old
  data : fs.data old = C
  other : ∀ s, fs.names (get_security_path_by_path path) = some s → s ≠ old

/-- Where a worker stands, whatever the host answers. -/
def Placed (path : Path) (fs : FileStore) (t : Worker) : Prop :=
  match t.pc with
  | .start => t.number = 0 → fs.names (get_security_path_by_path path) = none
  | .clear | .create => t.number = 0 ∧ fs.names (get_security_path_by_path path) = none
  | .remove => False
  | .truncate s | .header s | .readChunk _ s | .writeChunk _ s _ =>
      fs.names (get_security_path_by_path path) = some s
  | .waiting | .probe => True
  | .probeRead _ | .entered | .openOld | .openNew _ =>
      ∃ s, fs.names (get_security_path_by_path path) = some s
  | .readTail _ s | .writeTail _ s _ =>
      fs.names (get_security_path_by_path path) = some s ∧ t.number + 1 = THREADS_COUNT
  | .returned _ => True

/-- Only the last worker returns the name. -/
def Named (t : Worker) : Prop := t.pc = .returned true → t.number + 1 = THREADS_COUNT

/-- What a step of the worker with this number does to the files. -/
inductive Touch (path : Path) (number : Nat) (fs : FileStore) : FileStore → Prop where
  | silent : Touch path number fs fs
  | created : number = 0 → fs.names (get_security_path_by_path path) = none →
      Touch path number fs (fs.create (get_security_path_by_path path))
  | written (s : Nat) (D : List UInt8) :
      fs.names (get_security_path_by_path path) = some s → Touch path number fs (fs.store s D)

namespace Touch

variable {number : Nat} (hm : Touch path number fs fs')
include hm

theorem sited (h : Sited path old C fs) : Sited path old C fs' := by
  have hlt : old < fs.next := fs.names_lt _ _ h.name
  cases hm with
  | silent => exact h
  | created _ hnone =>
      refine ⟨?_, ?_, fun s hs => ?_⟩
      · rw [FileStore.create_names_ne _ (security_path_ne path).symm]
        exact h.name
      · rw [FileStore.create_data_ne _ (by omega)]
        exact h.data
      · rw [FileStore.create_names_self] at hs
        obtain rfl := Option.some.inj hs
        omega
  | written s D hs =>
      refine ⟨h.name, ?_, h.other⟩
      rw [FileStore.store_data_ne _ (h.other s hs).symm]
      exact h.data

/-- No other name is given or taken. -/
theorem names {p : Path} (hp : p ≠ get_security_path_by_path path) :
    fs'.names p = fs.names p := by
  cases hm with
  | silent => rfl
  | created => exact FileStore.create_names_ne _ hp
  | written => rfl

theorem name {s : Nat} (hs : fs.names (get_security_path_by_path path) = some s) :
    fs'.names (get_security_path_by_path path) = some s := by
  cases hm with
  | silent => exact hs
  | created _ hnone => cases hnone.symm.trans hs
  | written => exact hs

/-- A worker with another number stands where it stood. -/
theorem placed {u : Worker} (hne : number ≠ u.number) (hu : Placed path fs u) :
    Placed path fs' u := by
  have hnone : u.number = 0 → fs.names (get_security_path_by_path path) = none →
      fs'.names (get_security_path_by_path path) = none := by
    intro h0 h
    cases hm with
    | silent => exact h
    | created hi => exact absurd (hi.trans h0.symm) hne
    | written => exact h
  obtain ⟨number', offset, bsize, tsize, pc⟩ := u
  cases pc with
  | start => exact fun h0 => hnone h0 (hu h0)
  | clear => exact ⟨hu.1, hnone hu.1 hu.2⟩
  | create => exact ⟨hu.1, hnone hu.1 hu.2⟩
  | remove => exact hu
  | waiting => trivial
  | probe => trivial
  | probeRead _ => exact hu.imp fun _ => hm.name
  | entered => exact hu.imp fun _ => hm.name
  | openOld => exact hu.imp fun _ => hm.name
  | openNew _ => exact hu.imp fun _ => hm.name
  | truncate _ => exact hm.name hu
  | header _ => exact hm.name hu
  | readChunk _ _ => exact hm.name hu
  | writeChunk _ _ _ => exact hm.name hu
  | readTail _ _ => exact ⟨hm.name hu.1, hu.2⟩
  | writeTail _ _ _ => exact ⟨hm.name hu.1, hu.2⟩
  | returned _ => trivial

end Touch

theorem touch_pwrite {number s : Nat} (a : Answer) (buff : List UInt8) (offset : Int)
    (hs : fs.names (get_security_path_by_path path) = some s) :
    Touch path number fs (Worker.pwrite a fs s buff offset) := by
  rw [Worker.pwrite]
  split
  · exact .silent
  · exact .written s _ hs

theorem loop_placed {t : Worker} {o s : Nat}
    (hs : fs.names (get_security_path_by_path path) = some s) : Placed path fs (t.loop o s) := by
  rw [Worker.loop]
  split
  · exact hs
  · split
    · rename_i hlast
      exact ⟨hs, hlast⟩
    · trivial

/-- **One step**, whatever the host answers. -/
theorem placed_step {dev : Device} {a : Answer} {t t' : Worker} (ht : Placed path fs t)
    (h : Worker.step dev path a fs t = some (fs', t')) :
    Touch path t.number fs fs' ∧ Placed path fs' t' ∧ t'.number = t.number := by
  obtain ⟨number, offset, bsize, tsize, pc⟩ := t
  -- a step that changes no file
  have hquiet : ∀ {t₁ : Worker}, some (fs, t₁) = some (fs', t') → Placed path fs t₁ →
      t₁.number = number →
      Touch path number fs fs' ∧ Placed path fs' t' ∧ t'.number = number := by
    intro t₁ heq hp hn
    obtain ⟨rfl, rfl⟩ := Prod.mk.inj (Option.some.inj heq)
    exact ⟨.silent, hp, hn⟩
  cases pc with
  | start =>
      simp only [Worker.step] at h
      split at h
      · exact hquiet h trivial rfl
      · split at h
        · cases h
        · split at h
          · rename_i hzero
            exact hquiet h ⟨hzero.1, ht hzero.1⟩ rfl
          · exact hquiet h trivial rfl
  | clear =>
      simp only [Worker.step, Worker.there_none ht.2, Bool.false_eq_true, if_false] at h
      exact hquiet h ht rfl
  | remove => exact ht.elim
  | create =>
      simp only [Worker.step, fs.createTrunc_none ht.2] at h
      split at h
      · exact hquiet h trivial rfl
      · obtain ⟨rfl, rfl⟩ := Prod.mk.inj (Option.some.inj h)
        refine ⟨.created ht.1 ht.2, ?_, rfl⟩
        by_cases hfd : a.hint = 0
        · rw [if_pos hfd]
          trivial
        · rw [if_neg hfd]
          exact FileStore.create_names_self ..
  | truncate s =>
      simp only [Worker.step] at h
      obtain ⟨rfl, rfl⟩ := Prod.mk.inj (Option.some.inj h)
      split
      · exact ⟨.silent, ht, rfl⟩
      · exact ⟨.written s _ ht, ht, rfl⟩
  | header s =>
      simp only [Worker.step] at h
      obtain ⟨rfl, rfl⟩ := Prod.mk.inj (Option.some.inj h)
      exact ⟨touch_pwrite a _ _ ht, trivial, rfl⟩
  | waiting =>
      simp only [Worker.step] at h
      split at h
      · exact hquiet h trivial rfl
      · exact hquiet h trivial rfl
  | probe =>
      simp only [Worker.step] at h
      split at h
      · exact hquiet h trivial rfl
      · rename_i s hs
        split at h
        · exact hquiet h trivial rfl
        · exact hquiet h ⟨s, hs⟩ rfl
  | probeRead s =>
      simp only [Worker.step] at h
      generalize is_encrypted_by_file_header _ = type at h
      split at h
      · exact hquiet h ht rfl
      · exact hquiet h trivial rfl
  | entered =>
      simp only [Worker.step] at h
      split at h
      · exact hquiet h ht rfl
      · exact hquiet h trivial rfl
  | openOld =>
      simp only [Worker.step] at h
      split at h
      · exact hquiet h trivial rfl
      · split at h
        · exact hquiet h trivial rfl
        · exact hquiet h ht rfl
  | openNew o =>
      simp only [Worker.step] at h
      split at h
      · exact hquiet h trivial rfl
      · rename_i s hs
        split at h
        · exact hquiet h trivial rfl
        · exact hquiet h (loop_placed hs) (Worker.loop_number ..)
  | readChunk o s =>
      simp only [Worker.step] at h
      split at h
      · exact hquiet h ht rfl
      · exact hquiet h ht rfl
  | writeChunk o s buff =>
      simp only [Worker.step] at h
      obtain ⟨rfl, rfl⟩ := Prod.mk.inj (Option.some.inj h)
      have htouch : Touch path number fs (Worker.pwrite a fs s buff offset) :=
        touch_pwrite a buff offset ht
      exact ⟨htouch, loop_placed (htouch.name ht), Worker.loop_number ..⟩
  | readTail o s =>
      simp only [Worker.step] at h
      split at h
      · exact hquiet h trivial rfl
      · split at h
        · exact hquiet h ht rfl
        · exact hquiet h trivial rfl
  | writeTail o s buff =>
      simp only [Worker.step] at h
      obtain ⟨rfl, rfl⟩ := Prod.mk.inj (Option.some.inj h)
      exact ⟨touch_pwrite a buff offset ht.1, trivial, rfl⟩
  | returned p => exact hquiet h ht rfl

/-- Workers with different numbers stand where they can, and the files are as any property
    says that their steps keep. -/
theorem placed_sound {dev : Device} {J : FileStore → Prop} {nums : List Nat} (hnodup : nums.Nodup)
    (hkeep : ∀ {number : Nat} {fs fs' : FileStore}, Touch path number fs fs' → J fs → J fs') :
    (workers dev path).Sound (fun _ => True) J
      (fun i fs t => nums[i]? = some t.number ∧ Placed path fs t) where
  own := by
    rintro a i fs t fs' t' - - hs ⟨hn, ht⟩ hstep
    obtain ⟨htouch, ht', hn'⟩ := placed_step ht hstep
    exact ⟨hkeep htouch hs, by rw [hn']; exact hn, ht'⟩
  other := by
    rintro a i k fs t fs' t' u - - hik - ⟨hn, ht⟩ ⟨hk, hu⟩ hstep
    obtain ⟨htouch, -, -⟩ := placed_step ht hstep
    refine ⟨hk, htouch.placed (fun heq => hik ?_) hu⟩
    -- no number is given twice
    rw [← heq, ← hn] at hk
    exact (List.getElem?_inj (List.getElem?_eq_some_iff.mp hn).1 hnodup).mp hk.symm

theorem loop_named (t : Worker) (o s : Nat) : Named (t.loop o s) := by
  rw [Named, Worker.loop]
  split
  · exact fun h => by cases h
  · split
    · exact fun h => by cases h
    · exact fun h => by cases h

/-- Where no `access` is refused after the header was seen, only the last worker returns the
    name. -/
theorem named_step {dev : Device} {a : Answer} {t t' : Worker}
    (ha : t.pc = .entered → a.denies = false) (ht : Placed path fs t) (hn : Named t)
    (h : Worker.step dev path a fs t = some (fs', t')) : Named t' := by
  obtain ⟨number, offset, bsize, tsize, pc⟩ := t
  -- a step to another place than the end, or to an end without a name
  have hother : ∀ {fs₁ : FileStore} {t₁ : Worker}, some (fs₁, t₁) = some (fs', t') →
      t₁.pc ≠ .returned true → Named t' := by
    intro fs₁ t₁ heq hpc
    obtain ⟨-, rfl⟩ := Prod.mk.inj (Option.some.inj heq)
    exact fun h => absurd h hpc
  have hlast : ∀ {fs₁ : FileStore} {t₁ : Worker}, some (fs₁, t₁) = some (fs', t') →
      t₁.number + 1 = THREADS_COUNT → Named t' := by
    intro fs₁ t₁ heq hnum
    obtain ⟨-, rfl⟩ := Prod.mk.inj (Option.some.inj heq)
    exact fun _ => hnum
  cases pc with
  | entered =>
      obtain ⟨s, hs⟩ := ht
      simp only [Worker.step, Worker.there_some (ha rfl) hs, if_true] at h
      exact hother h (fun h => by cases h)
  | create =>
      simp only [Worker.step] at h
      split at h
      · exact hother h (fun h => by cases h)
      · refine hother h ?_
        show (if a.hint = 0 then Pc.waiting else _) ≠ _
        split
        · exact fun h => by cases h
        · exact fun h => by cases h
  | openNew o =>
      simp only [Worker.step] at h
      split at h
      · exact hother h (fun h => by cases h)
      · split at h
        · exact hother h (fun h => by cases h)
        · obtain ⟨-, rfl⟩ := Prod.mk.inj (Option.some.inj h)
          exact loop_named _ _ _
  | writeChunk o s buff =>
      simp only [Worker.step] at h
      obtain ⟨-, rfl⟩ := Prod.mk.inj (Option.some.inj h)
      exact loop_named _ _ _
  | readTail o s =>
      simp only [Worker.step] at h
      split at h
      · exact hlast h ht.2
      · split at h
        · exact hother h (fun h => by cases h)
        · exact hlast h ht.2
  | writeTail o s buff => exact hlast h ht.2
  | returned p =>
      obtain ⟨-, rfl⟩ := Prod.mk.inj (Option.some.inj h)
      exact hn
  | _ =>
      simp only [Worker.step] at h
      repeat' split at h
      all_goals first
        | exact hother h (fun h => by cases h)
        | cases h

end Placed

/-! ## Blank files -/

/-- A file with a header can be seen under `<path>.s`. -/
def Visible (path : Path) (fs : FileStore) : Prop :=
  ∃ s, fs.names (get_security_path_by_path path) = some s ∧ typeOf (fs.data s) = FILE_TYPE_RIGHTS

/-- The file is empty or all zeros. -/
def Zeros (fs : FileStore) (s : Nat) : Prop := ∃ n, fs.data s = zeroed n

theorem zeros_store (fs : FileStore) (i n : Nat) {s : Nat} (h : Zeros fs s) :
    Zeros (fs.store i (zeroed n)) s := by
  by_cases hs : s = i
  · rw [hs]
    exact ⟨n, FileStore.store_data_self ..⟩
  · rw [Zeros, FileStore.store_data_ne _ hs]
    exact h

theorem zeros_createTrunc (fs : FileStore) (q : Path) {s : Nat} (h : Zeros fs s) :
    Zeros (fs.createTrunc q).1 s := by
  rw [FileStore.createTrunc]
  split
  · by_cases hs : s = fs.next
    · rw [hs]
      exact ⟨0, FileStore.create_data_self ..⟩
    · rw [Zeros, FileStore.create_data_ne _ hs]
      exact h
  · exact zeros_store fs _ 0 h

/-- The file that is opened is there, under its name, and empty. -/
theorem createTrunc_opened (fs : FileStore) (q : Path) :
    (fs.createTrunc q).1.names q = some (fs.createTrunc q).2 ∧
      Zeros (fs.createTrunc q).1 (fs.createTrunc q).2 := by
  rw [FileStore.createTrunc]
  cases hq : fs.names q with
  | none => exact ⟨FileStore.create_names_self .., 0, FileStore.create_data_self ..⟩
  | some i => exact ⟨hq, 0, FileStore.store_data_self ..⟩

/-- Cutting or extending zeros. -/
theorem truncate_zeros {fs : FileStore} {i : Nat} (h : Zeros fs i) (len : Nat) :
    ∃ n, fs.truncate i len = fs.store i (zeroed n) := by
  obtain ⟨m, hm⟩ := h
  refine ⟨min len m + (len - m), ?_⟩
  rw [FileStore.truncate, hm, zeroed_length, zeroed, List.take_replicate, zeroed,
    List.replicate_append_replicate]

/-- However little is read of a blank file, it is not taken for a header. -/
theorem blank_read {fs : FileStore} {s : Nat} (h : Zeros fs s) (a : Answer) :
    is_encrypted_by_file_header (memcpy (zeroed FILE_HEADER_POLL_SIZE) 0
      (if a.fails then [] else slice (fs.data s) 0 (a.cut FILE_HEADER_POLL_SIZE)))
        ≠ FILE_TYPE_RIGHTS := by
  obtain ⟨m, hm⟩ := h
  have hread : ∃ m', m' ≤ FILE_HEADER_POLL_SIZE ∧ (if a.fails then []
      else slice (fs.data s) 0 (a.cut FILE_HEADER_POLL_SIZE)) = zeroed m' := by
    split
    · exact ⟨0, Nat.zero_le _, rfl⟩
    · refine ⟨min (a.cut FILE_HEADER_POLL_SIZE) m, ?_, ?_⟩
      · have := a.cut_le FILE_HEADER_POLL_SIZE
        omega
      · rw [hm]
        exact List.take_replicate
  obtain ⟨m', hle, hr⟩ := hread
  have hall : zeroed m' ++ zeroed (FILE_HEADER_POLL_SIZE - m')
      = zeroed FILE_HEADER_POLL_SIZE := by
    rw [zeroed, zeroed, List.replicate_append_replicate, Nat.add_sub_of_le hle, zeroed]
  rw [hr, memcpy_zeroed (by rw [zeroed_length]; exact hle), zeroed_length, hall, zeroed_normal]
  decide

/-- The new file is blank, if it exists. -/
def Bare (path : Path) (fs : FileStore) : Prop :=
  ∀ s, fs.names (get_security_path_by_path path) = some s → Zeros fs s

theorem Bare.not_visible {path : Path} {fs : FileStore} (h : Bare path fs) : ¬ Visible path fs := by
  rintro ⟨s, hs, htype⟩
  obtain ⟨n, hn⟩ := h s hs
  rw [hn] at htype
  exact typeOf_zeroed n htype

/-! ## Steps that leave them blank -/

/-- A worker that has not left its loop; it is about to write a header only if that is in
    vain. -/
def Barren (vain : Prop) (fs : FileStore) (t : Worker) : Prop :=
  match t.pc with
  | .start | .waiting | .probe => True
  | .clear | .remove | .create => t.number = 0
  | .truncate s | .header s => vain ∧ Zeros fs s
  | .probeRead s => Zeros fs s
  | _ => False

/-- The answer lets no header come of this step. -/
structure Blocks (vain : Prop) (a : Answer) (t : Worker) : Prop where
  start : t.pc = .start → a.fails = false
  create : t.pc = .create → t.number = 0 → vain ∨ a.fails = true ∨ a.hint = 0
  header : ∀ s, t.pc = .header s → vain → a.fails = true

section Step

variable {vain : Prop} {dev : Device} {path : Path} {a : Answer} {fs fs' : FileStore}
  {t t' : Worker}

/-- **One step** leaves what is blank blank. -/
theorem barren_step (ha : Blocks vain a t) (hb : Bare path fs) (ht : Barren vain fs t)
    (h : Worker.step dev path a fs t = some (fs', t')) :
    Bare path fs' ∧ Barren vain fs' t' ∧ ∀ s, Zeros fs s → Zeros fs' s := by
  obtain ⟨number, offset, bsize, tsize, pc⟩ := t
  -- a step that changes no file
  have hquiet : ∀ pc', Barren vain fs ⟨number, offset, bsize, tsize, pc'⟩ →
      some (fs, (⟨number, offset, bsize, tsize, pc'⟩ : Worker)) = some (fs', t') →
      Bare path fs' ∧ Barren vain fs' t' ∧ ∀ s, Zeros fs s → Zeros fs' s := by
    intro pc' hpc heq
    obtain ⟨rfl, rfl⟩ := Prod.mk.inj (Option.some.inj heq)
    exact ⟨hb, hpc, fun _ hs => hs⟩
  cases pc with
  | start =>
      simp only [Worker.step, ha.start rfl, Bool.false_eq_true, if_false] at h
      split at h
      · cases h
      · split at h
        · rename_i hzero
          exact hquiet .clear hzero.1 h
        · exact hquiet .waiting trivial h
  | clear =>
      simp only [Worker.step] at h
      split at h
      · exact hquiet .remove ht h
      · exact hquiet .create ht h
  | remove =>
      simp only [Worker.step] at h
      obtain ⟨rfl, rfl⟩ := Prod.mk.inj (Option.some.inj h)
      split
      · exact ⟨hb, ht, fun _ hs => hs⟩
      · refine ⟨fun s hs => ?_, ht, fun _ hs => hs⟩
        rw [show (fs.unlink _).names _ = none from Function.update_self ..] at hs
        cases hs
  | create =>
      simp only [Worker.step] at h
      split at h
      · exact hquiet .waiting trivial h
      · rename_i hopen
        obtain ⟨rfl, rfl⟩ := Prod.mk.inj (Option.some.inj h)
        obtain ⟨hname, hzero⟩ := createTrunc_opened fs (get_security_path_by_path path)
        refine ⟨fun s hs => ?_, ?_, fun s => zeros_createTrunc fs _⟩
        · rw [hname] at hs
          exact Option.some.inj hs ▸ hzero
        · by_cases hfd : a.hint = 0
          · rw [if_pos hfd]
            trivial
          · rw [if_neg hfd]
            exact ⟨((ha.create rfl ht).resolve_right (by rintro (h | h); exacts [hopen h, hfd h])),
              hzero⟩
  | truncate s =>
      obtain ⟨hvain, hzero⟩ : vain ∧ Zeros fs s := ht
      simp only [Worker.step] at h
      obtain ⟨rfl, rfl⟩ := Prod.mk.inj (Option.some.inj h)
      split
      · exact ⟨hb, ⟨hvain, hzero⟩, fun _ hs => hs⟩
      · obtain ⟨n, hn⟩ := truncate_zeros hzero (tsize + 4096).toNat
        rw [hn]
        exact ⟨fun s' hs' => zeros_store fs s n (hb s' hs'), ⟨hvain, zeros_store fs s n hzero⟩,
          fun _ => zeros_store fs s n⟩
  | header s =>
      have hsame : Worker.pwrite a fs s (newHeader dev.get_process_name) offset = fs :=
        if_pos (.inl (ha.header s rfl ht.1))
      simp only [Worker.step, hsame] at h
      exact hquiet .waiting trivial h
  | waiting =>
      simp only [Worker.step] at h
      split at h
      · exact hquiet .probe trivial h
      · exact hquiet .waiting trivial h
  | probe =>
      simp only [Worker.step] at h
      split at h
      · exact hquiet .waiting trivial h
      · rename_i s hs
        split at h
        · exact hquiet .waiting trivial h
        · exact hquiet (.probeRead s) (hb s hs) h
  | probeRead s =>
      -- zeros are not taken for a header
      simp only [Worker.step, if_neg (blank_read (ht : Zeros fs s) a)] at h
      exact hquiet .waiting trivial h
  | _ => exact ht.elim

/-- No step changes the number of a worker. -/
theorem step_number (h : Worker.step dev path a fs t = some (fs', t')) : t'.number = t.number := by
  obtain ⟨number, offset, bsize, tsize, pc⟩ := t
  unfold Worker.step at h
  dsimp only at h
  split at h
  all_goals
    repeat' split at h
    all_goals first
      | (obtain ⟨-, rfl⟩ := Prod.mk.inj (Option.some.inj h)
         first
          | rfl
          | exact Worker.loop_number ..)
      | cases h

/-- What another thread's step leaves of it. -/
theorem Barren.kept (ht : Barren vain fs t) (hkept : ∀ s, Zeros fs s → Zeros fs' s) :
    Barren vain fs' t := by
  obtain ⟨number, offset, bsize, tsize, pc⟩ := t
  cases pc with
  | truncate s => exact ⟨ht.1, hkept s ht.2⟩
  | header s => exact ⟨ht.1, hkept s ht.2⟩
  | probeRead s => exact hkept s ht
  | _ => exact ht

theorem Barren.running (ht : Barren vain fs t) : t.finished = false := by
  obtain ⟨number, offset, bsize, tsize, pc⟩ := t
  cases pc with
  | returned _ => exact ht.elim
  | _ => rfl

end Step

end TeBarren
