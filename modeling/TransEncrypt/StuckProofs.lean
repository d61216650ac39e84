import TransEncrypt.RebuildProofs

/-! # Workers that wait for a header nobody writes

    The wait loop of a worker has no other exit than a header under `<path>.s`, and only
    worker 0 writes one.  It may not have been created, its open, its `ftruncate` and its
    write may fail without notice, and its open may give descriptor 0, which it takes for a
    failure.

    * `Pattern`: which workers were created, which of these calls fail, and whether
      descriptor 0 is given;
    * `barren_sound`: when there is nobody to write the header, the new file, if there is
      one, stays blank, and no worker gets out of its loop;
    * `fruitful_sound`: otherwise worker 0 leaves a header that stays;
    * `never_stuck`: so the workers never get stuck exactly when there are none, or when
      worker 0 is there, its open succeeds with another descriptor than 0, and its write
      succeeds. -/

namespace TeStuck

open Posix Overlay Interleave TeHeader Hoare TeProgram TeDetector TeWorker TeBarren TeRebuild

/-! ## Patterns of failures -/

/-- The numbers of the workers that were created, the calls of worker 0 that fail, and whether
    its open is given descriptor 0, as it is where that is free. -/
structure Pattern where
  created : List Nat
  sublist : created.Sublist (List.range THREADS_COUNT)
  openFails : Bool := false
  openZero : Bool := false
  truncateFails : Bool := false
  headerFails : Bool := false

namespace Pattern

variable (p : Pattern)

/-- The answer to the call that a worker is at. -/
def answer : Pc → Answer
  | .create => { fails := p.openFails, hint := if p.openZero then 0 else 3 }
  | .truncate _ => { fails := p.truncateFails, hint := 3 }
  | .header _ => { fails := p.headerFails, hint := 3 }
  | _ => { hint := 3 }

/-- The workers under this pattern; a schedule is a list of positions. -/
def pool (dev : Device) (path : Path) : System FileStore Worker Nat where
  step _ fs t := Worker.step dev path (p.answer t.pc) fs t
  pick := id

/-- The workers that were created for a file of `size` bytes. -/
def workers (size : Nat) : List Worker := p.created.map (workerArgs size)

end Pattern

/-! ## Being stuck -/

/-- There are workers that have not returned, all of them are in their wait loop, and no
    steps lead to a file with a header. -/
def Stuck (p : Pattern) (dev : Device) (path : Path) (c : FileStore × List Worker) : Prop :=
  (∃ t ∈ c.2, t.finished = false) ∧ (∀ t ∈ c.2, t.finished = false → t.inLoop = true) ∧
    ∀ as c', (p.pool dev path).poolRun as c = some c' → ¬ Visible path c'.1

/-! ## Nobody writes the header -/

/-- Worker 0 leaves no header. -/
def Pattern.Vain (p : Pattern) : Prop :=
  p.openFails = true ∨ p.openZero = true ∨ p.headerFails = true

/-- A worker that has not left its loop, nor written a header. -/
def Waits (p : Pattern) (fs : FileStore) (t : Worker) : Prop :=
  (t.number = 0 → p.Vain) ∧ Barren (p.headerFails = true) fs t

section Step

variable {p : Pattern} {dev : Device} {path : Path} {fs fs' : FileStore} {t t' : Worker}

/-- No header comes of the step of such a worker. -/
theorem Waits.blocks (ht : Waits p fs t) : Blocks (p.headerFails = true) (p.answer t.pc) t where
  start := by
    intro hpc
    rw [hpc]
    rfl
  create := by
    intro hpc h0
    rw [hpc]
    rcases ht.1 h0 with hopen | hzero | hhead
    · exact .inr (.inl hopen)
    · exact .inr (.inr (if_pos hzero))
    · exact .inl hhead
  header := by
    intro s hpc hhead
    rw [hpc]
    exact hhead

/-- Outside the loop such a worker goes on towards it. -/
theorem waits_progress (hfit : Fits path) (ht : Waits p fs t) (hout : t.inLoop = false) :
    ∃ fs' t', Worker.step dev path (p.answer t.pc) fs t = some (fs', t') ∧
      t'.remaining < t.remaining := by
  obtain ⟨number, offset, bsize, tsize, pc⟩ := t
  obtain ⟨-, hat⟩ := ht
  cases pc with
  | start =>
      simp only [Worker.step, Pattern.answer, Bool.false_eq_true, if_false,
        if_neg (not_not_intro hfit)]
      split
      · exact ⟨_, _, rfl, Nat.add_lt_add_right (show 15 < 16 by decide) _⟩
      · exact ⟨_, _, rfl, Nat.add_lt_add_right (show 10 < 16 by decide) _⟩
  | clear =>
      simp only [Worker.step]
      split
      · exact ⟨_, _, rfl, Nat.add_lt_add_right (show 14 < 15 by decide) _⟩
      · exact ⟨_, _, rfl, Nat.add_lt_add_right (show 13 < 15 by decide) _⟩
  | remove => exact ⟨_, _, rfl, Nat.add_lt_add_right (show 13 < 14 by decide) _⟩
  | create =>
      simp only [Worker.step]
      split
      · exact ⟨_, _, rfl, Nat.add_lt_add_right (show 10 < 13 by decide) _⟩
      · refine ⟨_, _, rfl, ?_⟩
        split
        · exact Nat.add_lt_add_right (show 10 < 13 by decide) _
        · exact Nat.add_lt_add_right (show 12 < 13 by decide) _
  | truncate s => exact ⟨_, _, rfl, Nat.add_lt_add_right (show 11 < 12 by decide) _⟩
  | header s => exact ⟨_, _, rfl, Nat.add_lt_add_right (show 10 < 11 by decide) _⟩
  | waiting => cases hout
  | probe => cases hout
  | probeRead s => cases hout
  | _ => exact hat.elim

end Step

theorem barren_sound (p : Pattern) (dev : Device) (path : Path) :
    (p.pool dev path).Sound (fun _ => True) (Bare path) (fun _ => Waits p) where
  own := by
    intro a i fs t fs' t' _ _ hb ht h
    obtain ⟨hb', ht', -⟩ := barren_step ht.blocks hb ht.2 h
    exact ⟨hb', by rw [step_number h]; exact ht.1, ht'⟩
  other := by
    intro a i k fs t fs' t' u _ _ _ hb ht hu h
    exact ⟨hu.1, hu.2.kept (barren_step ht.blocks hb ht.2 h).2.2⟩

/-! ## Worker 0 writes it -/

section Fruitful

variable (dev : Device) (path : Path) (old : Nat)

/-- The new file `s` starts with the header. -/
def Headed (fs : FileStore) (s : Nat) : Prop :=
  fs.names (get_security_path_by_path path) = some s ∧
    (fs.data s).take 4096 = newHeader dev.get_process_name

/-- The plain file is there, and the new one, if it exists, is another file, which is
    blank or has its header. -/
structure Sites (fs : FileStore) : Prop where
  name : fs.names path = some old
  long : 4096 ≤ (fs.data old).length
  stage : ∀ s, fs.names (get_security_path_by_path path) = some s → s ≠ old ∧
    (Zeros fs s ∨ (fs.data s).take 4096 = newHeader dev.get_process_name)

/-- Where a worker stands.  Worker 0 gets into its loop only behind the header, and every
    worker gets out of it only then; what it writes lies behind the header. -/
def Fruitful (fs : FileStore) (t : Worker) : Prop :=
  (4096 : Int) ∣ t.offset ∧
  match t.pc with
  | .start => t.number = 0 → t.offset = 0 ∧ fs.names (get_security_path_by_path path) = none
  | .clear | .create =>
      t.number = 0 ∧ t.offset = 0 ∧ fs.names (get_security_path_by_path path) = none
  | .remove => False
  | .truncate s | .header s => t.number = 0 ∧ t.offset = 0 ∧
      fs.names (get_security_path_by_path path) = some s ∧ Zeros fs s
  | .waiting | .probe => t.number = 0 → ∃ s, Headed dev path fs s
  | .probeRead s => (t.number = 0 → ∃ s, Headed dev path fs s) ∧
      fs.names (get_security_path_by_path path) = some s
  | .entered | .openOld | .returned _ => ∃ s, Headed dev path fs s
  | .openNew o => o = old ∧ ∃ s, Headed dev path fs s
  | .readChunk o s | .readTail o s => o = old ∧ Headed dev path fs s
  | .writeChunk o s buff | .writeTail o s buff =>
      o = old ∧ Headed dev path fs s ∧ (buff = [] ∨ 4096 ≤ t.offset)

/-- What a step of the worker with this number does to the files. -/
inductive Move (number : Nat) (fs : FileStore) : FileStore → Prop where
  | silent : Move number fs fs
  | created : number = 0 → fs.names (get_security_path_by_path path) = none →
      Move number fs (fs.create (get_security_path_by_path path))
  | staged (s : Nat) (D : List UInt8) : number = 0 →
      fs.names (get_security_path_by_path path) = some s → Zeros fs s →
      ((∃ n, D = zeroed n) ∨ D.take 4096 = newHeader dev.get_process_name) →
      Move number fs (fs.store s D)
  | copied (s off : Nat) (d : List UInt8) : Headed dev path fs s → 4096 ≤ off →
      Move number fs (fs.writeAt s off d)

variable {dev path old} {fs fs' : FileStore} {t t' : Worker}

theorem typeOf_headed {s : Nat} (h : Headed dev path fs s) :
    typeOf (fs.data s) = FILE_TYPE_RIGHTS := by
  have hsplit : fs.data s = newHeader dev.get_process_name ++ (fs.data s).drop 4096 := by
    rw [← h.2, List.take_append_drop]
  rw [hsplit, typeOf_header (newHeader_length _)]
  exact newHeader_rights _

/-- A header is not blank. -/
theorem headed_not_zeros {s s' : Nat} (h : Headed dev path fs s)
    (hs : fs.names (get_security_path_by_path path) = some s') (hz : Zeros fs s') : False := by
  obtain rfl := Option.some.inj (h.1.symm.trans hs)
  obtain ⟨n, hn⟩ := hz
  have htype := typeOf_headed h
  rw [hn] at htype
  exact typeOf_zeroed n htype

theorem no_headed {s : Nat} (hs : fs.names (get_security_path_by_path path) = some s)
    (hz : Zeros fs s) : ¬ ∃ s, Headed dev path fs s := by
  rintro ⟨_, h⟩
  exact headed_not_zeros h hs hz

namespace Move

variable {number : Nat} (hm : Move dev path number fs fs')
include hm

theorem headed {s : Nat} (h : Headed dev path fs s) : Headed dev path fs' s := by
  cases hm with
  | silent => exact h
  | created _ hnone => cases hnone.symm.trans h.1
  | staged s' D _ hs hz _ => exact (headed_not_zeros h hs hz).elim
  | copied s' off d h' hoff =>
      obtain rfl := Option.some.inj (h.1.symm.trans h'.1)
      have hlen : 4096 ≤ (fs.data s).length := by
        have hl := congrArg List.length h.2
        rw [newHeader_length, List.length_take] at hl
        have hl' : min 4096 (fs.data s).length = 4096 := hl
        omega
      refine ⟨h.1, ?_⟩
      rw [FileStore.writeAt_data_self, overlay_take hoff hlen]
      exact h.2

theorem sites (h : Sites dev path old fs) : Sites dev path old fs' := by
  have hlt : old < fs.next := fs.names_lt _ _ h.name
  have hheaded := fun s => hm.headed (s := s)
  cases hm with
  | silent => exact h
  | created _ _ =>
      refine ⟨?_, ?_, fun s hs => ?_⟩
      · rw [FileStore.create_names_ne _ (security_path_ne path).symm]
        exact h.name
      · rw [FileStore.create_data_ne _ (by omega)]
        exact h.long
      · rw [FileStore.create_names_self] at hs
        obtain rfl := Option.some.inj hs
        exact ⟨by omega, .inl ⟨0, FileStore.create_data_self ..⟩⟩
  | staged s D _ hs _ hD =>
      have hne := (h.stage s hs).1
      refine ⟨h.name, ?_, fun s' hs' => ?_⟩
      · rw [FileStore.store_data_ne _ hne.symm]
        exact h.long
      · obtain rfl : s = s' := Option.some.inj (hs.symm.trans hs')
        refine ⟨hne, ?_⟩
        rw [Zeros, FileStore.store_data_self]
        exact hD
  | copied s off d h' hoff =>
      have hne := (h.stage s h'.1).1
      have hkept := hheaded s h'
      refine ⟨h.name, ?_, fun s' hs' => ?_⟩
      · rw [FileStore.writeAt_data_ne _ hne.symm]
        exact h.long
      · obtain rfl : s = s' := Option.some.inj (h'.1.symm.trans hs')
        exact ⟨hne, .inr hkept.2⟩

/-- A worker with another number stands where it stood. -/
theorem fruitful {u : Worker} (hne : number ≠ u.number) (hu : Fruitful dev path old fs u) :
    Fruitful dev path old fs' u := by
  have hheaded : (∃ s, Headed dev path fs s) → ∃ s, Headed dev path fs' s :=
    fun h => h.imp fun _ => hm.headed
  have hname : ∀ {s}, fs.names (get_security_path_by_path path) = some s →
      fs'.names (get_security_path_by_path path) = some s := by
    intro s hs
    cases hm with
    | silent => exact hs
    | created _ hnone => cases hnone.symm.trans hs
    | staged => exact hs
    | copied => exact hs
  -- worker 0 is alone in preparing the file
  have hstage : u.number = 0 → (¬ ∃ s, Headed dev path fs s) →
      fs'.names (get_security_path_by_path path) = fs.names (get_security_path_by_path path) ∧
        ∀ s, Zeros fs s → Zeros fs' s := by
    intro h0 hno
    cases hm with
    | silent => exact ⟨rfl, fun _ h => h⟩
    | created hi => exact absurd (hi.trans h0.symm) hne
    | staged _ _ hi => exact absurd (hi.trans h0.symm) hne
    | copied s _ _ h _ => exact absurd ⟨s, h⟩ hno
  have hnone : fs.names (get_security_path_by_path path) = none → ¬ ∃ s, Headed dev path fs s := by
    rintro hn ⟨s, h⟩
    cases hn.symm.trans h.1
  obtain ⟨hoff, hat⟩ := hu
  refine ⟨hoff, ?_⟩
  obtain ⟨number', offset, bsize, tsize, pc⟩ := u
  cases pc with
  | start => exact fun h0 => ⟨(hat h0).1, (hstage h0 (hnone (hat h0).2)).1.trans (hat h0).2⟩
  | clear => exact ⟨hat.1, hat.2.1, (hstage hat.1 (hnone hat.2.2)).1.trans hat.2.2⟩
  | create => exact ⟨hat.1, hat.2.1, (hstage hat.1 (hnone hat.2.2)).1.trans hat.2.2⟩
  | remove => exact hat
  | truncate s =>
      obtain ⟨h0, hoff0, hs, hz⟩ := hat
      have hno : ¬ ∃ s, Headed dev path fs s := no_headed hs hz
      exact ⟨h0, hoff0, (hstage h0 hno).1.trans hs, (hstage h0 hno).2 s hz⟩
  | header s =>
      obtain ⟨h0, hoff0, hs, hz⟩ := hat
      have hno : ¬ ∃ s, Headed dev path fs s := no_headed hs hz
      exact ⟨h0, hoff0, (hstage h0 hno).1.trans hs, (hstage h0 hno).2 s hz⟩
  | waiting => exact fun h0 => hheaded (hat h0)
  | probe => exact fun h0 => hheaded (hat h0)
  | probeRead s => exact ⟨fun h0 => hheaded (hat.1 h0), hname hat.2⟩
  | entered => exact hheaded hat
  | openOld => exact hheaded hat
  | returned _ => exact hheaded hat
  | openNew o => exact ⟨hat.1, hheaded hat.2⟩
  | readChunk o s => exact ⟨hat.1, hm.headed hat.2⟩
  | readTail o s => exact ⟨hat.1, hm.headed hat.2⟩
  | writeChunk o s buff => exact ⟨hat.1, hm.headed hat.2.1, hat.2.2⟩
  | writeTail o s buff => exact ⟨hat.1, hm.headed hat.2.1, hat.2.2⟩

end Move

/-- At the head of the copying loop. -/
theorem loop_fruitful {s : Nat} (hoff : (4096 : Int) ∣ t.offset) (h : Headed dev path fs s) :
    Fruitful dev path old fs (t.loop old s) := by
  rw [Worker.loop]
  split
  · exact ⟨hoff, rfl, h⟩
  · split
    · exact ⟨hoff, rfl, h⟩
    · exact ⟨hoff, s, h⟩

/-- Writing behind the header, or nothing. -/
theorem move_pwrite {a : Answer} {number s : Nat} {buff : List UInt8} {offset : Int}
    (h : Headed dev path fs s) (hbuff : buff = [] ∨ 4096 ≤ offset) :
    Move dev path number fs (Worker.pwrite a fs s buff offset) := by
  rw [Worker.pwrite]
  split
  · exact .silent
  · rcases hbuff with rfl | hoff
    · rw [List.take_nil, FileStore.writeAt, overlay_nil, FileStore.store_same]
      exact .silent
    · exact .copied s _ _ h (by omega)

/-- What a read delivers at the offset of a worker. -/
theorem pread_fruitful {offset : Int} {buff : List UInt8} (hs : Sites dev path old fs)
    (hoff : (4096 : Int) ∣ offset) (h : Worker.pread {} (fs.data old) offset = some buff) :
    0 ≤ offset ∧ (buff.length = 4096 ∨ 4096 ≤ offset) := by
  rw [Worker.pread] at h
  split at h
  · cases h
  · rename_i hok
    have hpos : ¬ offset < 0 := fun hneg => hok (.inr hneg)
    refine ⟨by omega, ?_⟩
    have hbuff : slice (fs.data old) offset.toNat 4096 = buff := Option.some.inj h
    have hlen : buff.length = min 4096 ((fs.data old).length - offset.toNat) := by
      rw [← hbuff, slice_length]
    have := hs.long
    omega

/-- The header that is written at the start of the new file. -/
theorem pwrite_header {p : Pattern} (hhead : p.headerFails = false) (fs : FileStore) (s : Nat)
    (name : Option (List UInt8)) :
    Worker.pwrite (p.answer (.header s)) fs s (newHeader name) 0
      = fs.store s (newHeader name ++ (fs.data s).drop 4096) := by
  have hok : ¬ ((p.answer (.header s)).fails = true ∨ (0 : Int) < 0) := by
    rintro (hf | hneg)
    · exact absurd (hhead.symm.trans hf) (by decide)
    · omega
  have hcut : (p.answer (.header s)).cut (newHeader name).length = (newHeader name).length := rfl
  rw [Worker.pwrite, if_neg hok, hcut, List.take_length, FileStore.writeAt, Int.toNat_zero,
    overlay_start, newHeader_length]
  rfl

/-- **One step** when the open and the header of worker 0 do not fail. -/
theorem fruitful_step {p : Pattern} (hopen : p.openFails = false) (hzero : p.openZero = false)
    (hhead : p.headerFails = false) (hs : Sites dev path old fs)
    (ht : Fruitful dev path old fs t)
    (h : Worker.step dev path (p.answer t.pc) fs t = some (fs', t')) :
    Move dev path t.number fs fs' ∧ Fruitful dev path old fs' t' ∧ t'.number = t.number := by
  obtain ⟨number, offset, bsize, tsize, pc⟩ := t
  obtain ⟨hoff, hat⟩ := ht
  have hoff : (4096 : Int) ∣ offset := hoff
  -- a step that changes no file
  have hquiet : ∀ {t₁ : Worker}, some (fs, t₁) = some (fs', t') →
      Fruitful dev path old fs t₁ → t₁.number = number → Move dev path number fs fs' ∧
        Fruitful dev path old fs' t' ∧ t'.number = number := by
    intro t₁ heq hf hn
    obtain ⟨rfl, rfl⟩ := Prod.mk.inj (Option.some.inj heq)
    exact ⟨.silent, hf, hn⟩
  cases pc with
  | start =>
      simp only [Worker.step, Pattern.answer, Bool.false_eq_true, if_false] at h
      split at h
      · cases h
      · split at h
        · rename_i hfirst
          exact hquiet h ⟨hoff, hfirst.1, hfirst.2, (hat hfirst.1).2⟩ rfl
        · rename_i hfirst
          exact hquiet h ⟨hoff, fun h0 => absurd ⟨h0, (hat h0).1⟩ hfirst⟩ rfl
  | clear =>
      obtain ⟨h0, hoff0, hnone⟩ := hat
      simp only [Worker.step, Worker.there_none hnone, Bool.false_eq_true, if_false] at h
      exact hquiet h ⟨hoff, h0, hoff0, hnone⟩ rfl
  | remove => exact hat.elim
  | create =>
      obtain ⟨h0, hoff0, hnone⟩ := hat
      have hthree : ¬ (3 : Nat) = 0 := by decide
      simp only [Worker.step, Pattern.answer, hopen, hzero, Bool.false_eq_true, if_false,
        if_neg hthree, fs.createTrunc_none hnone] at h
      obtain ⟨rfl, rfl⟩ := Prod.mk.inj (Option.some.inj h)
      exact ⟨.created h0 hnone, ⟨hoff, h0, hoff0, FileStore.create_names_self .., 0,
        FileStore.create_data_self ..⟩, rfl⟩
  | truncate s =>
      obtain ⟨h0, hoff0, hname, hz⟩ := hat
      simp only [Worker.step] at h
      obtain ⟨rfl, rfl⟩ := Prod.mk.inj (Option.some.inj h)
      split
      · exact ⟨.silent, ⟨hoff, h0, hoff0, hname, hz⟩, rfl⟩
      · obtain ⟨n, hn⟩ := truncate_zeros hz (tsize + 4096).toNat
        rw [hn]
        exact ⟨.staged s _ h0 hname hz (.inl ⟨n, rfl⟩), ⟨hoff, h0, hoff0, hname,
          zeros_store fs s n hz⟩, rfl⟩
  | header s =>
      obtain ⟨h0, hoff0, hname, hz⟩ := hat
      have hoff0 : offset = 0 := hoff0
      have hwrite :
        Worker.pwrite (p.answer (.header s)) fs s (newHeader dev.get_process_name) offset
          = fs.store s (newHeader dev.get_process_name ++ (fs.data s).drop 4096) := by
        rw [hoff0]
        exact pwrite_header hhead fs s dev.get_process_name
      simp only [Worker.step, hwrite] at h
      obtain ⟨rfl, rfl⟩ := Prod.mk.inj (Option.some.inj h)
      have htake : (newHeader dev.get_process_name ++ (fs.data s).drop 4096).take 4096
          = newHeader dev.get_process_name := List.take_left' (newHeader_length _)
      refine ⟨.staged s _ h0 hname hz (.inr htake), ⟨hoff, fun _ => ⟨s, hname, ?_⟩⟩, rfl⟩
      rw [FileStore.store_data_self]
      exact htake
  | waiting =>
      simp only [Worker.step] at h
      split at h
      · exact hquiet h ⟨hoff, hat⟩ rfl
      · exact hquiet h ⟨hoff, hat⟩ rfl
  | probe =>
      simp only [Worker.step] at h
      split at h
      · exact hquiet h ⟨hoff, hat⟩ rfl
      · rename_i s hname
        split at h
        · exact hquiet h ⟨hoff, hat⟩ rfl
        · exact hquiet h ⟨hoff, hat, hname⟩ rfl
  | probeRead s =>
      obtain ⟨hat, hname⟩ := hat
      simp only [Worker.step, Pattern.answer, Bool.false_eq_true, if_false, Answer.cut] at h
      split at h
      · rename_i htype
        have htype' : typeOf (fs.data s) = FILE_TYPE_RIGHTS := htype
        refine hquiet h ⟨hoff, s, hname, ?_⟩ rfl
        rcases (hs.stage s hname).2 with ⟨n, hn⟩ | hhead
        · rw [hn] at htype'
          exact (typeOf_zeroed n htype').elim
        · exact hhead
      · exact hquiet h ⟨hoff, hat⟩ rfl
  | entered =>
      simp only [Worker.step] at h
      split at h
      · exact hquiet h ⟨hoff, hat⟩ rfl
      · exact hquiet h ⟨hoff, hat⟩ rfl
  | openOld =>
      simp only [Worker.step, Pattern.answer, hs.name, Bool.false_eq_true, if_false] at h
      exact hquiet h ⟨hoff, rfl, hat⟩ rfl
  | openNew o =>
      obtain ⟨rfl, s, hheaded⟩ := hat
      simp only [Worker.step, Pattern.answer, hheaded.1, Bool.false_eq_true, if_false] at h
      exact hquiet h (loop_fruitful hoff hheaded) (Worker.loop_number ..)
  | readChunk o s =>
      obtain ⟨rfl, hheaded⟩ := hat
      simp only [Worker.step] at h
      split at h
      · exact hquiet h ⟨hoff, rfl, hheaded, .inl rfl⟩ rfl
      · rename_i buff hread
        obtain ⟨hpos, hfull⟩ : 0 ≤ offset ∧ (buff.length = 4096 ∨ 4096 ≤ offset) :=
          pread_fruitful hs hoff hread
        refine hquiet h ⟨?_, rfl, hheaded, .inr ?_⟩ rfl
        · show (4096 : Int) ∣ if buff.length = 4096 then offset + buff.length else offset
          split
          · omega
          · exact hoff
        · show (4096 : Int) ≤ if buff.length = 4096 then offset + buff.length else offset
          split
          · omega
          · exact hfull.resolve_left ‹_›
  | writeChunk o s buff =>
      obtain ⟨rfl, hheaded, hbuff⟩ := hat
      simp only [Worker.step] at h
      obtain ⟨rfl, rfl⟩ := Prod.mk.inj (Option.some.inj h)
      have hmove : Move dev path number fs
          (Worker.pwrite (p.answer (.writeChunk o s buff)) fs s buff offset) :=
        move_pwrite hheaded hbuff
      exact ⟨hmove, loop_fruitful hoff (hmove.headed hheaded), Worker.loop_number ..⟩
  | readTail o s =>
      obtain ⟨rfl, hheaded⟩ := hat
      simp only [Worker.step] at h
      split at h
      · exact hquiet h ⟨hoff, s, hheaded⟩ rfl
      · rename_i buff hread
        have hpos : 0 ≤ offset := (pread_fruitful hs hoff hread).1
        split at h
        · refine hquiet h ⟨?_, rfl, hheaded, .inr ?_⟩ rfl
          · show (4096 : Int) ∣ offset + 4096
            omega
          · show (4096 : Int) ≤ offset + 4096
            omega
        · exact hquiet h ⟨hoff, s, hheaded⟩ rfl
  | writeTail o s buff =>
      obtain ⟨rfl, hheaded, hbuff⟩ := hat
      simp only [Worker.step] at h
      obtain ⟨rfl, rfl⟩ := Prod.mk.inj (Option.some.inj h)
      have hmove : Move dev path number fs
          (Worker.pwrite (p.answer (.writeTail o s buff)) fs s buff offset) :=
        move_pwrite hheaded hbuff
      exact ⟨hmove, ⟨hoff, s, hmove.headed hheaded⟩, rfl⟩
  | returned q => exact hquiet h ⟨hoff, hat⟩ rfl

theorem fruitful_sound {p : Pattern} (hopen : p.openFails = false) (hzero : p.openZero = false)
    (hhead : p.headerFails = false) : (p.pool dev path).Sound (fun _ => True)
      (Sites dev path old)
      (fun i fs t => p.created[i]? = some t.number ∧ Fruitful dev path old fs t) where
  own := by
    rintro a i fs t fs' t' - - hs ⟨hn, ht⟩ h
    obtain ⟨hmove, ht', hn'⟩ := fruitful_step hopen hzero hhead hs ht h
    exact ⟨hmove.sites hs, by rw [hn']; exact hn, ht'⟩
  other := by
    rintro a i k fs t fs' t' u - - hik hs ⟨hn, ht⟩ ⟨hk, hu⟩ h
    obtain ⟨hmove, -, -⟩ := fruitful_step hopen hzero hhead hs ht h
    refine ⟨hk, hmove.fruitful (fun heq => hik ?_) hu⟩
    -- no number is given twice
    have hnodup : p.created.Nodup := p.sublist.nodup List.nodup_range
    rw [← heq, ← hn] at hk
    have hi : i < p.created.length := (List.getElem?_eq_some_iff.mp hn).1
    exact (List.getElem?_inj hi hnodup).mp hk.symm

/-- Out of the preparation, worker 0 has left the header. -/
theorem headed_of_fruitful (ht : Fruitful dev path old fs t) (h0 : t.number = 0)
    (hin : t.finished = true ∨ t.inLoop = true) : ∃ s, Headed dev path fs s := by
  obtain ⟨number, offset, bsize, tsize, pc⟩ := t
  obtain ⟨-, hat⟩ := ht
  cases pc with
  | waiting => exact hat h0
  | probe => exact hat h0
  | probeRead s => exact hat.1 h0
  | returned _ => exact hat
  | _ =>
      rcases hin with h | h
      · cases h
      · cases h

end Fruitful

/-! ## All patterns -/

section Patterns

variable {p : Pattern} {dev : Device} {path : Path} {old size : Nat} {fs : FileStore}
  (hname : fs.names path = some old) (hlong : 4096 * THREADS_COUNT < (fs.data old).length)
  (hnone : fs.names (get_security_path_by_path path) = none)

/-- The workers at the start. -/
theorem workers_get {i : Nat} {t : Worker} (h : (p.workers size)[i]? = some t) :
    ∃ n, p.created[i]? = some n ∧ t = workerArgs size n := by
  obtain ⟨n, hn, rfl⟩ := Option.map_eq_some_iff.mp ((List.getElem?_map ..).symm.trans h)
  exact ⟨n, hn, rfl⟩

theorem dvd_toInt {x : Int} (h : (4096 : Int) ∣ x) : (4096 : Int) ∣ toInt x := by
  rw [toInt, Int.bmod_def]
  split
  · omega
  · omega

theorem workerArgs_offset (size i : Nat) : (4096 : Int) ∣ (workerArgs size i).offset := by
  simp only [workerArgs]
  apply dvd_toInt
  rw [average_eq, Nat.mul_assoc]
  exact ⟨_, Int.natCast_mul ..⟩

include hnone

/-- **Nobody to write the header**: a schedule leads every worker into its loop, and there
    they stay. -/
theorem stuck_of_barren (hfit : Fits path) (hne : p.created ≠ []) (h0 : 0 ∈ p.created → p.Vain) :
    ∃ as c, (p.pool dev path).poolRun as (fs, p.workers size) = some c ∧ Stuck p dev path c := by
  have hinit : System.PoolInv (Bare path) (fun _ => Waits p) (fs, p.workers size) := by
    refine ⟨fun s hs => (by cases hnone.symm.trans hs), fun i t ht => ?_⟩
    obtain ⟨n, hn, rfl⟩ := workers_get ht
    refine ⟨fun hz => h0 ?_, trivial⟩
    have hz : n = 0 := hz
    exact hz ▸ List.mem_of_getElem? hn
  obtain ⟨as, ⟨fs', ts⟩, -, hrun, ⟨hb, hJ⟩, hstop⟩ := System.exists_drain
    (barren_sound p dev path) (fun t => t.inLoop = true) Worker.remaining
    (by
      intro i fs t hb ht hout
      obtain ⟨fs', t', hstep, hlt⟩ := waits_progress hfit ht (by simpa using hout)
      exact ⟨i, fs', t', trivial, rfl, hstep, hlt⟩) _ _ (Nat.le_refl _) hinit
  refine ⟨as, (fs', ts), hrun, ?_, fun t ht _ => hstop t ht, fun bs c' hbs => ?_⟩
  · have hlen : ts.length = p.created.length :=
      (System.poolRun_length _ as hrun).trans (List.length_map ..)
    have hpos : 0 < ts.length := by
      rw [hlen]
      exact List.length_pos_iff.mpr hne
    refine ⟨ts[0], List.getElem_mem hpos, ?_⟩
    have hin := hstop _ (List.getElem_mem hpos)
    generalize ts[0] = t at hin
    obtain ⟨number, offset, bsize, tsize, pc⟩ := t
    cases pc with
    | returned _ => cases hin
    | _ => rfl
  · exact ((barren_sound p dev path).run bs (fun _ _ => trivial) ⟨hb, hJ⟩ hbs).1.not_visible

theorem fruitful_workerArgs (size i : Nat) :
    Fruitful dev path old fs (workerArgs size i) := by
  have hoff := workerArgs_offset size i
  simp only [workerArgs] at hoff
  simp only [Fruitful, workerArgs]
  refine ⟨hoff, fun hz => ⟨?_, hnone⟩⟩
  rw [hz, Nat.mul_zero]
  rfl

include hname hlong

/-- **Worker 0 writes the header**: whenever all that have not returned wait, it is there. -/
theorem visible_of_fruitful (h0 : 0 ∈ p.created) (hopen : p.openFails = false)
    (hzero : p.openZero = false) (hhead : p.headerFails = false) {as : List Nat}
    {c : FileStore × List Worker}
    (hrun : (p.pool dev path).poolRun as (fs, p.workers size) = some c)
    (hloop : ∀ t ∈ c.2, t.finished = false → t.inLoop = true) : Visible path c.1 := by
  have hinit : System.PoolInv (Sites dev path old)
      (fun i fs t => p.created[i]? = some t.number ∧ Fruitful dev path old fs t)
      (fs, p.workers size) := by
    refine ⟨⟨hname, ?_, fun s hs => by cases hnone.symm.trans hs⟩, fun i t ht => ?_⟩
    · rw [THREADS_COUNT] at hlong
      show 4096 ≤ (fs.data old).length
      omega
    · obtain ⟨n, hn, rfl⟩ := workers_get ht
      refine ⟨?_, fruitful_workerArgs hnone _ _⟩
      simp only [workerArgs]
      exact hn
  obtain ⟨-, hJ⟩ := (fruitful_sound hopen hzero hhead).run as (fun _ _ => trivial) hinit hrun
  -- worker 0 is one of them
  obtain ⟨i, hi⟩ := List.getElem?_of_mem h0
  have hlen : c.2.length = p.created.length :=
    (System.poolRun_length _ as hrun).trans (List.length_map ..)
  have hlt : i < c.2.length := by
    rw [hlen]
    exact (List.getElem?_eq_some_iff.mp hi).1
  obtain ⟨hn, ht⟩ := hJ i c.2[i] (List.getElem?_eq_getElem hlt)
  have hnumber : c.2[i].number = 0 := Option.some.inj (hn.symm.trans hi)
  have hin : c.2[i].finished = true ∨ c.2[i].inLoop = true := by
    cases hfin : c.2[i].finished with
    | true => exact .inl rfl
    | false => exact .inr (hloop _ (List.getElem_mem hlt) hfin)
  obtain ⟨s, hs⟩ := headed_of_fruitful ht hnumber hin
  exact ⟨s, hs.1, typeOf_headed hs⟩

/-- **The workers never get stuck**, in any schedule, exactly when none was created, or
    when worker 0 was, its open succeeds and does not give descriptor 0, and its write of the
    header succeeds. -/
theorem never_stuck (hfit : Fits path) :
    (¬ ∃ as c, (p.pool dev path).poolRun as (fs, p.workers (fs.data old).length) = some c ∧
      Stuck p dev path c) ↔
    p.created = [] ∨
      (0 ∈ p.created ∧ p.openFails = false ∧ p.openZero = false ∧ p.headerFails = false) := by
  constructor
  · intro hnever
    by_contra hbad
    refine hnever (stuck_of_barren hnone hfit (fun hnil => hbad (.inl hnil)) (fun h0 => ?_))
    by_contra hok
    refine hbad (.inr ⟨h0, ?_, ?_, ?_⟩)
    · simpa using fun h => hok (.inl h)
    · simpa using fun h => hok (.inr (.inl h))
    · simpa using fun h => hok (.inr (.inr h))
  · rintro hgood ⟨as, c, hrun, ⟨t, ht, hlive⟩, hloop, hno⟩
    rcases hgood with hnil | ⟨h0, hopen, hzero, hhead⟩
    · -- no worker, no live worker
      have hlen : c.2.length = p.created.length :=
        (System.poolRun_length _ as hrun).trans (List.length_map ..)
      rw [hnil] at hlen
      rw [List.length_eq_zero_iff.mp hlen] at ht
      cases ht
    · exact hno [] c rfl
        (visible_of_fruitful hname hlong hnone h0 hopen hzero hhead hrun hloop)

end Patterns

/-! ## A file of 16385 bytes -/

/-- All workers are created, and the open of worker 0 fails or not. -/
def allCreated (fails : Bool) : Pattern where
  created := List.range THREADS_COUNT
  sublist := .refl _
  openFails := fails

private theorem sevens_long :
    4096 * THREADS_COUNT < ((Kernel.oneFile (List.replicate 16385 7)).data 1).length := by
  rw [show (Kernel.oneFile (List.replicate 16385 7)).data 1 = List.replicate 16385 7 from rfl,
    List.length_replicate]
  decide

/-- Without failures. -/
theorem never_stuck_16385 : ¬ ∃ as c,
    ((allCreated false).pool aDevice Kernel.aName).poolRun as
      (Kernel.oneFile (List.replicate 16385 7), (allCreated false).workers
        ((Kernel.oneFile (List.replicate 16385 7)).data 1).length) = some c ∧
      Stuck (allCreated false) aDevice Kernel.aName c :=
  (never_stuck rfl sevens_long rfl (by decide)).mpr (.inr ⟨by decide, rfl, rfl, rfl⟩)

/-- The open of worker 0 fails, and four workers wait for a file that nobody creates. -/
theorem failed_open_sticks : ∃ as c,
    ((allCreated true).pool aDevice Kernel.aName).poolRun as
      (Kernel.oneFile (List.replicate 16385 7), (allCreated true).workers
        ((Kernel.oneFile (List.replicate 16385 7)).data 1).length) = some c ∧
      Stuck (allCreated true) aDevice Kernel.aName c :=
  stuck_of_barren rfl (by decide) (by decide) (fun _ => .inl rfl)

end TeStuck
