import TransEncrypt.FailureProofs

/-! # Failures that a conversion survives — the padded file

    A call of a worker may fail and nothing be missing for it.  Where the `ftruncate`
    failed the new file grows with the copies; `Padded` sets beside it the file that a calm
    host would have, with its zeros from the start.

    * `ghost_step`: a `Fine` step is a step of a calm host on the padded file;
    * `seen_step`: so a run of fine steps keeps on that file what a calm host's run keeps;
    * `fine_target`: when all have returned the copies reach to the end, nothing is padded
      any more, and the new file is the header and the image. -/

namespace TeGhost

open Posix Overlay TeHeader Hoare TeProgram TeDetector TeStored TeWorker TeBarren TeRebuild
open Interleave TeFailure

/-! ## Steps that do what a calm host's would -/

/-- The copies of the workers reach to the end of the file. -/
def Covered (j : Job) : Prop := share j.size * 3 ≤ j.size / 4096 ∨ 4096 ∣ j.size

/-- The call of this step does not fail, or nothing is missing because of it: a write that
    is short leaves out what is there already, a read delivers all there is, and the
    `ftruncate` can be done without when all of the file is written.  The new file is not
    opened as descriptor 0. -/
def Fine (j : Job) (a : Answer) (fs : FileStore) (t : Worker) : Prop :=
  match t.pc with
  | .start | .openOld | .openNew _ => a.fails = false
  | .create => a.fails = false ∧ a.hint ≠ 0
  | .entered => a.denies = false
  | .truncate _ => a.fails = false ∨ Covered j
  | .header s => Worker.pwrite a fs s j.header t.offset = Worker.pwrite {} fs s j.header t.offset
  | .writeChunk _ s buff | .writeTail _ s buff =>
      Worker.pwrite a fs s buff t.offset = Worker.pwrite {} fs s buff t.offset
  | .readChunk o _ | .readTail o _ => (Worker.pread a (fs.data o) t.offset).getD []
      = (Worker.pread {} (fs.data o) t.offset).getD []
  | _ => True

/-- `g` is `fs` with the new file filled up with zeros. -/
structure Padded (j : Job) (fs g : FileStore) : Prop where
  names : g.names = fs.names
  next : g.next = fs.next
  same : ∀ i, fs.names j.newPath ≠ some i → g.data i = fs.data i
  new : ∀ s, fs.names j.newPath = some s →
    ∃ k, g.data s = fs.data s ++ zeroed k ∧ (k ≠ 0 → Covered j)

/-- The new file has grown, and reaches to the end of what the worker has copied. -/
def Grown (j : Job) (fs fs' : FileStore) (t t' : Worker) : Prop :=
  ∀ s, fs.names j.newPath = some s → fs'.names j.newPath = some s ∧
    (fs.data s).length ≤ (fs'.data s).length ∧
    (t'.reached = t.reached ∨
      min (j.size + 4096) (4096 * (t'.reached + 1)) ≤ (fs'.data s).length)

section Padded

variable {j : Job} {fs g : FileStore}

theorem padded_refl (j : Job) (fs : FileStore) : Padded j fs fs :=
  ⟨rfl, rfl, fun _ _ => rfl, fun _ _ => ⟨0, (List.append_nil _).symm, fun h => absurd rfl h⟩⟩

/-- Storing the same contents. -/
theorem Padded.store (h : Padded j fs g) {s : Nat} (hs : fs.names j.newPath = some s)
    {D D' : List UInt8} {k : Nat} (hD : D' = D ++ zeroed k) (hk : k ≠ 0 → Covered j) :
    Padded j (fs.store s D) (g.store s D') where
  names := h.names
  next := h.next
  same := by
    intro i hi
    have hne : i ≠ s := fun heq => hi (heq ▸ hs)
    rw [FileStore.store_data_ne _ hne, FileStore.store_data_ne _ hne]
    exact h.same i hi
  new := by
    intro s' hs'
    obtain rfl : s = s' := Option.some.inj (hs.symm.trans hs')
    rw [FileStore.store_data_self, FileStore.store_data_self]
    exact ⟨k, hD, hk⟩

/-- Filling up the new file. -/
theorem Padded.fill (h : Padded j fs g) {s : Nat} (hs : fs.names j.newPath = some s) {k : Nat}
    (hk : k ≠ 0 → Covered j) : Padded j fs (g.store s (fs.data s ++ zeroed k)) where
  names := h.names
  next := h.next
  same := by
    intro i hi
    have hne : i ≠ s := fun heq => hi (heq ▸ hs)
    rw [FileStore.store_data_ne _ hne]
    exact h.same i hi
  new := by
    intro s' hs'
    obtain rfl : s = s' := Option.some.inj (hs.symm.trans hs')
    exact ⟨k, FileStore.store_data_self .., hk⟩

theorem Padded.create (h : Padded j fs g) (hnone : fs.names j.newPath = none) :
    Padded j (fs.create j.newPath) (g.create j.newPath) where
  names := by
    show Function.update g.names _ _ = Function.update fs.names _ _
    rw [h.names, h.next]
  next := congrArg (· + 1) h.next
  same := by
    intro i hi
    rw [FileStore.create_names_self] at hi
    have hne : i ≠ fs.next := fun heq => hi (congrArg some heq.symm)
    rw [FileStore.create_data_ne _ hne, FileStore.create_data_ne _ (by rw [h.next]; exact hne)]
    exact h.same i (by rw [hnone]; exact fun h => by cases h)
  new := by
    intro s hs
    rw [FileStore.create_names_self] at hs
    obtain rfl := Option.some.inj hs
    refine ⟨0, ?_, fun h => absurd rfl h⟩
    have hself : (g.create j.newPath).data g.next = [] := FileStore.create_data_self ..
    rw [h.next] at hself
    rw [FileStore.create_data_self, hself]
    rfl

theorem Padded.pwrite (h : Padded j fs g) {s : Nat} (hs : fs.names j.newPath = some s)
    (a : Answer) (buff : List UInt8) (offset : Int) :
    Padded j (Worker.pwrite a fs s buff offset) (Worker.pwrite a g s buff offset) := by
  rw [Worker.pwrite, Worker.pwrite]
  split
  · exact h
  · obtain ⟨k, hk, hcov⟩ := h.new s hs
    obtain ⟨k', hk', hle⟩ := overlay_fill 0 (fs.data s) k offset.toNat
      (buff.take (a.cut buff.length))
    refine h.store hs (k := k') ?_ (fun hne => hcov (by omega))
    rw [hk]
    exact hk'

theorem pwrite_names (a : Answer) (s : Nat) (buff : List UInt8) (offset : Int) :
    (Worker.pwrite a fs s buff offset).names = fs.names := by
  rw [Worker.pwrite]
  split
  · rfl
  · rfl

/-- A write makes no file shorter. -/
theorem pwrite_grows (a : Answer) (s s' : Nat) (buff : List UInt8) (offset : Int) :
    (fs.data s').length ≤ ((Worker.pwrite a fs s buff offset).data s').length := by
  rw [Worker.pwrite]
  split
  · exact Nat.le_refl _
  · by_cases hs : s' = s
    · rw [hs, FileStore.writeAt_data_self]
      exact le_overlay_length ..
    · exact Nat.le_of_eq (congrArg List.length (FileStore.writeAt_data_ne _ hs _ _).symm)

/-- A complete write reaches to its end. -/
theorem pwrite_reaches {s : Nat} {buff : List UInt8} (hne : buff ≠ []) {off : Nat} :
    off + buff.length ≤ ((Worker.pwrite {} fs s buff off).data s).length := by
  have hok : ¬ ((({} : Answer).fails = true) ∨ ((off : Nat) : Int) < 0) := by
    rintro (h | h)
    · cases h
    · omega
  have hcut : ({} : Answer).cut buff.length = buff.length := rfl
  rw [Worker.pwrite, if_neg hok, hcut, List.take_length, Int.toNat_natCast,
    FileStore.writeAt_data_self, overlay_length hne]
  exact Nat.le_max_right _ _

/-- A chunk that is not empty and was written is there, up to its end. -/
theorem chunk_reaches {j : Job} {s c : Nat} {buff : List UInt8} {offset : Int}
    (hbuff : buff = j.chunk c) (hne : buff ≠ []) (hoff : offset - 4096 = ((4096 * c : Nat) : Int)) :
    min (j.size + 4096) (4096 * (offset.toNat / 4096 + 1)) ≤
      ((Worker.pwrite {} fs s buff offset).data s).length := by
  have hlen := Job.chunk_length (j := j) c
  rw [← hbuff] at hlen
  have hoff : offset = ((4096 * (c + 1) : Nat) : Int) := by omega
  have hreach := @pwrite_reaches fs s buff hne (4096 * (c + 1))
  rw [← hoff] at hreach
  omega

end Padded

section Ghost

variable {j : Job} (hj : InRange j.size) {a : Answer} {i : Nat} {fs g fs' : FileStore}
  {t t' : Worker} (hpad : Padded j fs g) (hs : j.Shared g) (ht : j.Assert i g t)
  (hfine : Fine j a fs t)

theorem loop_reached (t : Worker) (o s : Nat) : (t.loop o s).reached = t.offset.toNat / 4096 := by
  rw [Worker.loop]
  split
  · rfl
  · split
    · rfl
    · rfl

/-- What a step gives: a step of a calm host on the padded file. -/
def Ghost (j : Job) (i : Nat) (fs g : FileStore) (t : Worker) (fs' : FileStore) (t' : Worker) :
    Prop :=
  ∃ g', Padded j fs' g' ∧ j.Effect i g t g' t' ∧ j.Assert i g' t' ∧ Grown j fs fs' t t'

include hpad

/-- A step that changes no file. -/
theorem ghost_silent (hreach : t'.reached = t.reached) (hb : t'.bsize = t.bsize)
    (hassert : j.Assert i g t') : Ghost j i fs g t fs t' :=
  ⟨g, hpad, .silent hreach hb, hassert, fun _ hn => ⟨hn, Nat.le_refl _, .inl hreach⟩⟩

include hj hs ht

omit hpad in
/-- The calm host makes the same step on the padded file. -/
theorem ghost_calm (n : Nat) {g' : FileStore} (hpad' : Padded j fs' g')
    (hstep : Worker.step j.dev j.path { hint := n } g t = some (g', t'))
    (hgrown : Grown j fs fs' t t') :
    Ghost j i fs g t fs' t' := by
  obtain ⟨heff, hassert⟩ := Job.step_effect hj (a := { hint := n }) ⟨rfl, rfl, rfl⟩ hs ht hstep
  exact ⟨g', hpad', heff, hassert, hgrown⟩

/-- And the step changes no file. -/
theorem ghost_same (n : Nat) (hstep : Worker.step j.dev j.path { hint := n } g t = some (g, t'))
    (hreach : t'.reached = t.reached) : Ghost j i fs g t fs t' :=
  ghost_calm hj hs ht n hpad hstep fun _ hn => ⟨hn, Nat.le_refl _, .inl hreach⟩

include hfine

omit hj hs ht hfine in
/-- The plain file is the same in both. -/
theorem ghost_old {o s : Nat} (ho : o = j.old) (hready : j.Ready g s) :
    g.data o = fs.data o := by
  apply hpad.same
  rw [← hpad.names, hready.name, ho]
  exact fun heq => hready.ne (Option.some.inj heq)

omit hj ht hfine in
/-- Only the finished header is taken for one, however little of it is read. -/
theorem probe_rights {s : Nat} (hname : g.names j.newPath = some s)
    (htype : is_encrypted_by_file_header (memcpy (zeroed FILE_HEADER_POLL_SIZE) 0
      (if a.fails then [] else slice (fs.data s) 0 (a.cut FILE_HEADER_POLL_SIZE)))
        = FILE_TYPE_RIGHTS) : j.Ready g s := by
  have hname' : fs.names j.newPath = some s := by
    rw [← hpad.names]
    exact hname
  obtain ⟨k, hk, -⟩ := hpad.new s hname'
  -- what is read of zeros is no header
  have hblank : ∀ n, g.data s = zeroed n → False := by
    intro n hn
    have hzeros : Zeros fs s :=
      ⟨_, (List.replicate_eq_append_iff.mp (hn.symm.trans hk)).2.1⟩
    exact blank_read hzeros a htype
  rcases (hs.stage s hname).2 with h | h | h
  · exact (hblank 0 h).elim
  · exact (hblank _ h).elim
  · exact h

end Ghost

section Cases

variable {j : Job} (hj : InRange j.size) {a : Answer} {number : Nat} {offset bsize tsize : Int}
  {fs g fs' : FileStore} {t' : Worker} (hpad : Padded j fs g) (hs : j.Shared g)
include hj hpad hs

/-- Worker 0 creates the new file. -/
private theorem ghost_create
    (ht : j.Assert number g ⟨number, offset, bsize, tsize, .create⟩)
    (hfine : Fine j a fs ⟨number, offset, bsize, tsize, .create⟩)
    (h : Worker.step j.dev j.path a fs ⟨number, offset, bsize, tsize, .create⟩
      = some (fs', t')) :
    Ghost j number fs g ⟨number, offset, bsize, tsize, .create⟩ fs' t' := by
  have hnames : ∀ p, g.names p = fs.names p := fun p => congrFun hpad.names p
  obtain ⟨hfails, hfd⟩ : a.fails = false ∧ a.hint ≠ 0 := hfine
  have hnone : fs.names j.newPath = none := (hnames _).symm.trans ht.2.2
  have htrunc : fs.createTrunc (get_security_path_by_path j.path)
      = (fs.create j.newPath, fs.next) := fs.createTrunc_none hnone
  have htrunc' : g.createTrunc (get_security_path_by_path j.path)
      = (g.create j.newPath, fs.next) := by
    rw [← hpad.next]
    exact g.createTrunc_none ((hnames _).trans hnone)
  simp only [Worker.step, hfails, htrunc, Bool.false_eq_true, if_false, if_neg hfd] at h
  obtain ⟨rfl, rfl⟩ := Prod.mk.inj (Option.some.inj h)
  refine ghost_calm hj hs ht 1 (hpad.create hnone) ?_ (fun s hn => by cases hnone.symm.trans hn)
  simp only [Worker.step, htrunc', Bool.false_eq_true, if_false, if_neg Nat.one_ne_zero]

/-- Worker 0 sizes the new file, or its zeros are there on the padded file only. -/
private theorem ghost_truncate {s : Nat}
    (ht : j.Assert number g ⟨number, offset, bsize, tsize, .truncate s⟩)
    (hfine : Fine j a fs ⟨number, offset, bsize, tsize, .truncate s⟩)
    (h : Worker.step j.dev j.path a fs ⟨number, offset, bsize, tsize, .truncate s⟩
      = some (fs', t')) :
    Ghost j number fs g ⟨number, offset, bsize, tsize, .truncate s⟩ fs' t' := by
  have hnames : ∀ p, g.names p = fs.names p := fun p => congrFun hpad.names p
  obtain ⟨-, hname, -, hnil⟩ := ht.2
  have htsize := ht.1.2.2.1
  have hname : fs.names j.newPath = some s := (hnames _).symm.trans hname
  have hnil' : fs.data s = [] := by
    obtain ⟨k, hk, -⟩ := hpad.new s hname
    exact (List.append_eq_nil_iff.mp (hk.symm.trans hnil)).1
  have hsize : ∀ f : FileStore, f.data s = [] → f.truncate s (tsize + 4096).toNat
      = f.store s (zeroed (tsize + 4096).toNat) := by
    intro f hf
    rw [FileStore.truncate, hf, List.take_nil, List.nil_append, List.length_nil, Nat.sub_zero]
    rfl
  have hneg : ¬ tsize + 4096 < 0 := by
    have htsize : tsize = j.size := htsize
    omega
  simp only [Worker.step] at h
  obtain ⟨rfl, rfl⟩ := Prod.mk.inj (Option.some.inj h)
  have hpad' : Padded j (if a.fails = true ∨ tsize + 4096 < 0 then fs
      else fs.truncate s (tsize + 4096).toNat)
      (g.store s (zeroed (tsize + 4096).toNat)) := by
    split
    · rename_i hfails
      have hfill := hpad.fill hname (k := (tsize + 4096).toNat)
        (fun _ => (hfine.resolve_left (by simpa using hfails.resolve_right hneg)))
      rw [hnil', List.nil_append] at hfill
      exact hfill
    · rw [hsize fs hnil']
      exact hpad.store hname (k := 0) (List.append_nil _).symm (fun h => absurd rfl h)
  refine ghost_calm hj hs ht 0 hpad' ?_ (fun s' hn => ?_)
  · have hok : ¬ ((({} : Answer).fails = true) ∨ tsize + 4096 < 0) := by
      rintro (h | h)
      · cases h
      · exact hneg h
    simp only [Worker.step, if_neg hok, hsize g hnil]
  · obtain rfl : s' = s := Option.some.inj (hn.symm.trans hname)
    refine ⟨?_, by rw [hnil']; exact Nat.zero_le _, .inl rfl⟩
    split
    · exact hname
    · exact hname

/-- Worker 0 writes the header. -/
private theorem ghost_header {s : Nat}
    (ht : j.Assert number g ⟨number, offset, bsize, tsize, .header s⟩)
    (hfine : Fine j a fs ⟨number, offset, bsize, tsize, .header s⟩)
    (h : Worker.step j.dev j.path a fs ⟨number, offset, bsize, tsize, .header s⟩
      = some (fs', t')) :
    Ghost j number fs g ⟨number, offset, bsize, tsize, .header s⟩ fs' t' := by
  have hnames : ∀ p, g.names p = fs.names p := fun p => congrFun hpad.names p
  have hname : fs.names j.newPath = some s := (hnames _).symm.trans ht.2.2.1
  have hwrite : Worker.pwrite a fs s (newHeader j.dev.get_process_name) offset
      = Worker.pwrite {} fs s (newHeader j.dev.get_process_name) offset := hfine
  simp only [Worker.step, hwrite] at h
  obtain ⟨rfl, rfl⟩ := Prod.mk.inj (Option.some.inj h)
  refine ghost_calm hj hs ht 0 (hpad.pwrite hname {} _ _) rfl (fun s' hn => ⟨?_, ?_, .inl rfl⟩)
  · rw [pwrite_names]
    exact hn
  · exact pwrite_grows ..

/-- A chunk is read. -/
private theorem ghost_readChunk {o s : Nat}
    (ht : j.Assert number g ⟨number, offset, bsize, tsize, .readChunk o s⟩)
    (hfine : Fine j a fs ⟨number, offset, bsize, tsize, .readChunk o s⟩)
    (h : Worker.step j.dev j.path a fs ⟨number, offset, bsize, tsize, .readChunk o s⟩
      = some (fs', t')) :
    Ghost j number fs g ⟨number, offset, bsize, tsize, .readChunk o s⟩ fs' t' := by
  obtain ⟨r, hr, -⟩ := ht.1.2.2.2
  have hoff : offset = ((4096 * chunkAt j.size number r : Nat) : Int) := hr.offset
  have hread : (Worker.pread a (fs.data o) offset).getD []
      = (Worker.pread {} (fs.data o) offset).getD [] := hfine
  have hdata := ghost_old hpad ht.2.1 ht.2.2
  -- a read from here does not fail on a calm host
  obtain ⟨buff, hcalm⟩ : ∃ buff, Worker.pread {} (fs.data o) offset = some buff := by
    rw [Worker.pread, if_neg]
    · exact ⟨_, rfl⟩
    · rintro (h | h)
      · cases h
      · omega
  have hstep : some (fs, ({ (⟨number, offset, bsize, tsize, .readChunk o s⟩ : Worker) with
      offset := if buff.length = 4096 then offset + buff.length else offset
      pc := .writeChunk o s (encryptBlocks j.dev.aes (buff.length / 16) buff) } : Worker))
        = some (fs', t') := by
    rw [hcalm] at hread
    simp only [Worker.step] at h
    split at h
    · -- a read that fails at the end of the file
      rename_i hx
      rw [hx] at hread
      have hnil : buff = [] := hread.symm
      rw [← h, hnil]
      rfl
    · rename_i b hx
      rw [hx] at hread
      have hsame : b = buff := hread
      rw [← hsame]
      exact h
  obtain ⟨rfl, rfl⟩ := Prod.mk.inj (Option.some.inj hstep)
  refine ghost_same hj hpad hs ht 0 ?_ ?_
  · simp only [Worker.step, hdata, hcalm]
  · simp only [Worker.reached, encryptBlocks_length j.dev.aes (Nat.div_mul_le_self _ _)]
    by_cases hfull : buff.length = 4096
    · rw [if_pos hfull, if_pos hfull, hfull]
      omega
    · rw [if_neg hfull, if_neg hfull]

/-- A chunk is written. -/
private theorem ghost_writeChunk {o s : Nat} {buff : List UInt8}
    (ht : j.Assert number g ⟨number, offset, bsize, tsize, .writeChunk o s buff⟩)
    (hfine : Fine j a fs ⟨number, offset, bsize, tsize, .writeChunk o s buff⟩)
    (h : Worker.step j.dev j.path a fs ⟨number, offset, bsize, tsize, .writeChunk o s buff⟩
      = some (fs', t')) :
    Ghost j number fs g ⟨number, offset, bsize, tsize, .writeChunk o s buff⟩ fs' t' := by
  have hnames : ∀ p, g.names p = fs.names p := fun p => congrFun hpad.names p
  have hname : fs.names j.newPath = some s := (hnames _).symm.trans ht.2.2.name
  have hwrite : Worker.pwrite a fs s buff offset = Worker.pwrite {} fs s buff offset := hfine
  simp only [Worker.step, hwrite] at h
  obtain ⟨rfl, rfl⟩ := Prod.mk.inj (Option.some.inj h)
  refine ghost_calm hj hs ht 0 (hpad.pwrite hname {} buff offset) rfl
    (fun s' hn => ⟨by rw [pwrite_names]; exact hn, pwrite_grows .., ?_⟩)
  obtain rfl : s' = s := Option.some.inj (hn.symm.trans hname)
  obtain ⟨r, hb, hbuff, hcase⟩ := ht.1.2.2.2
  have hbuff : buff = j.chunk (chunkAt j.size number r) := hbuff
  have hlen := Job.chunk_length (j := j) (chunkAt j.size number r)
  rw [← hbuff] at hlen
  rw [loop_reached]
  rcases hcase with ⟨hin, hround⟩ | ⟨hpast, -⟩
  · -- a full chunk
    right
    have hne : buff ≠ [] := fun hnil => by
      rw [hnil, List.length_nil] at hlen
      omega
    exact chunk_reaches hbuff hne hround.offset
  · left
    show offset.toNat / 4096 = if buff.length = 4096 then _ else _
    rw [if_neg (by omega)]

/-- The last worker reads the end of the file. -/
private theorem ghost_readTail {o s : Nat}
    (ht : j.Assert number g ⟨number, offset, bsize, tsize, .readTail o s⟩)
    (hfine : Fine j a fs ⟨number, offset, bsize, tsize, .readTail o s⟩)
    (h : Worker.step j.dev j.path a fs ⟨number, offset, bsize, tsize, .readTail o s⟩
      = some (fs', t')) :
    Ghost j number fs g ⟨number, offset, bsize, tsize, .readTail o s⟩ fs' t' := by
  obtain ⟨-, r, hr, -⟩ := ht.1.2.2.2
  have hoff : offset = ((4096 * chunkAt j.size number r : Nat) : Int) := hr.offset
  have hread : (Worker.pread a (fs.data o) offset).getD []
      = (Worker.pread {} (fs.data o) offset).getD [] := hfine
  have hdata := ghost_old hpad ht.2.1 ht.2.2
  -- when nothing is read the worker returns, and so does the calm one
  have hnothing : (Worker.pread {} (fs.data o) offset).getD [] = [] →
      Worker.step j.dev j.path {} g ⟨number, offset, bsize, tsize, .readTail o s⟩
        = some (g, ⟨number, offset, bsize, tsize, .returned true⟩) := by
    intro hnil
    simp only [Worker.step, hdata]
    cases hy : Worker.pread {} (fs.data o) offset with
    | none => rfl
    | some b =>
        rw [hy] at hnil
        have hb : b = [] := hnil
        subst hb
        rfl
  simp only [Worker.step] at h
  split at h
  · rename_i hx
    obtain ⟨rfl, rfl⟩ := Prod.mk.inj (Option.some.inj h)
    rw [hx] at hread
    exact ghost_same hj hpad hs ht 0 (hnothing hread.symm) rfl
  · rename_i buff hx
    rw [hx] at hread
    split at h
    · rename_i hpos
      obtain ⟨rfl, rfl⟩ := Prod.mk.inj (Option.some.inj h)
      have hy : Worker.pread {} (fs.data o) offset = some buff := by
        cases hy : Worker.pread {} (fs.data o) offset with
        | none =>
            rw [hy] at hread
            have hnil : buff = [] := hread
            rw [hnil] at hpos
            exact absurd hpos (by decide)
        | some b =>
            rw [hy] at hread
            exact congrArg some hread.symm
      refine ghost_same hj hpad hs ht 0 ?_ ?_
      · simp only [Worker.step, hdata, hy, if_pos hpos]
      · show (offset + 4096).toNat / 4096 - 1 = offset.toNat / 4096
        omega
    · rename_i hzero
      obtain ⟨rfl, rfl⟩ := Prod.mk.inj (Option.some.inj h)
      have hnil : buff = [] := List.eq_nil_of_length_eq_zero (by omega)
      rw [hnil] at hread
      exact ghost_same hj hpad hs ht 0 (hnothing hread.symm) rfl

/-- And writes it. -/
private theorem ghost_writeTail {o s : Nat} {buff : List UInt8}
    (ht : j.Assert number g ⟨number, offset, bsize, tsize, .writeTail o s buff⟩)
    (hfine : Fine j a fs ⟨number, offset, bsize, tsize, .writeTail o s buff⟩)
    (h : Worker.step j.dev j.path a fs ⟨number, offset, bsize, tsize, .writeTail o s buff⟩
      = some (fs', t')) :
    Ghost j number fs g ⟨number, offset, bsize, tsize, .writeTail o s buff⟩ fs' t' := by
  have hnames : ∀ p, g.names p = fs.names p := fun p => congrFun hpad.names p
  have hname : fs.names j.newPath = some s := (hnames _).symm.trans ht.2.2.name
  have hwrite : Worker.pwrite a fs s buff offset = Worker.pwrite {} fs s buff offset := hfine
  simp only [Worker.step, hwrite] at h
  obtain ⟨rfl, rfl⟩ := Prod.mk.inj (Option.some.inj h)
  refine ghost_calm hj hs ht 0 (hpad.pwrite hname {} buff offset) rfl
    (fun s' hn => ⟨by rw [pwrite_names]; exact hn, pwrite_grows .., .inr ?_⟩)
  obtain rfl : s' = s := Option.some.inj (hn.symm.trans hname)
  obtain ⟨-, r, hround, -, -, hbuff, hne⟩ := ht.1.2.2.2
  exact chunk_reaches hbuff hne hround.offset

end Cases

section Step

variable {j : Job} (hj : InRange j.size) {a : Answer} {i : Nat} {fs g fs' : FileStore}
  {t t' : Worker} (hpad : Padded j fs g) (hs : j.Shared g) (ht : j.Assert i g t)
  (hfine : Fine j a fs t)
include hj hpad hs ht hfine

/-- **A fine step** is a step of a calm host on the padded file. -/
theorem ghost_step (h : Worker.step j.dev j.path a fs t = some (fs', t')) :
    Ghost j i fs g t fs' t' := by
  obtain ⟨number, offset, bsize, tsize, pc⟩ := t
  obtain rfl : number = i := ht.1.2.1
  have hnames : ∀ p, g.names p = fs.names p := fun p => congrFun hpad.names p
  cases pc with
  | start =>
      have hfails : a.fails = false := hfine
      simp only [Worker.step, hfails, Bool.false_eq_true, if_false] at h
      split at h
      · cases h
      · rename_i hfit
        split at h
        · rename_i hzero
          obtain ⟨rfl, rfl⟩ := Prod.mk.inj (Option.some.inj h)
          refine ghost_same hj hpad hs ht 0 ?_ rfl
          simp only [Worker.step, Bool.false_eq_true, if_false, if_neg hfit, if_pos hzero]
        · rename_i hzero
          obtain ⟨rfl, rfl⟩ := Prod.mk.inj (Option.some.inj h)
          refine ghost_same hj hpad hs ht 0 ?_ rfl
          simp only [Worker.step, Bool.false_eq_true, if_false, if_neg hfit, if_neg hzero]
  | clear =>
      have hnone : fs.names (get_security_path_by_path j.path) = none :=
        (hnames _).symm.trans ht.2.2
      simp only [Worker.step, Worker.there_none hnone, Bool.false_eq_true, if_false] at h
      obtain ⟨rfl, rfl⟩ := Prod.mk.inj (Option.some.inj h)
      refine ghost_same hj hpad hs ht 0 ?_ rfl
      simp only [Worker.step, Worker.there_none ((hnames _).trans hnone), Bool.false_eq_true,
        if_false]
  | remove => exact ht.2.elim
  | create => exact ghost_create hj hpad hs ht hfine h
  | truncate s => exact ghost_truncate hj hpad hs ht hfine h
  | header s => exact ghost_header hj hpad hs ht hfine h
  | waiting =>
      simp only [Worker.step] at h
      split at h
      · rename_i hthere
        obtain ⟨rfl, rfl⟩ := Prod.mk.inj (Option.some.inj h)
        have hname : (fs.names j.newPath).isSome = true := (Bool.and_eq_true_iff.mp hthere).2
        obtain ⟨s, hs'⟩ := Option.isSome_iff_exists.mp hname
        exact ghost_silent hpad rfl rfl ⟨ht.1, s, (hnames _).trans hs'⟩
      · obtain ⟨rfl, rfl⟩ := Prod.mk.inj (Option.some.inj h)
        exact ghost_silent hpad rfl rfl ht
  | probe =>
      obtain ⟨hloc, s, hname⟩ := ht
      have hname' : fs.names (get_security_path_by_path j.path) = some s :=
        (hnames _).symm.trans hname
      simp only [Worker.step, hname'] at h
      split at h
      · obtain ⟨rfl, rfl⟩ := Prod.mk.inj (Option.some.inj h)
        exact ghost_silent hpad rfl rfl ⟨hloc, trivial⟩
      · obtain ⟨rfl, rfl⟩ := Prod.mk.inj (Option.some.inj h)
        exact ghost_silent hpad rfl rfl ⟨hloc, hname⟩
  | probeRead s =>
      obtain ⟨hloc, hname⟩ := ht
      have hrights := probe_rights (a := a) hpad hs hname
      simp only [Worker.step] at h
      generalize is_encrypted_by_file_header _ = type at h hrights
      split at h
      · rename_i htype
        obtain ⟨rfl, rfl⟩ := Prod.mk.inj (Option.some.inj h)
        exact ghost_silent hpad rfl rfl ⟨hloc, s, hrights htype⟩
      · obtain ⟨rfl, rfl⟩ := Prod.mk.inj (Option.some.inj h)
        exact ghost_silent hpad rfl rfl ⟨hloc, trivial⟩
  | entered =>
      have hdenies : a.denies = false := hfine
      obtain ⟨s, hready⟩ := ht.2
      have hname : fs.names (get_security_path_by_path j.path) = some s :=
        (hnames _).symm.trans hready.name
      simp only [Worker.step, Worker.there_some hdenies hname, if_true] at h
      obtain ⟨rfl, rfl⟩ := Prod.mk.inj (Option.some.inj h)
      exact ghost_silent hpad rfl rfl ⟨ht.1, s, hready⟩
  | openOld =>
      have hfails : a.fails = false := hfine
      have hname : fs.names j.path = some j.old := (hnames _).symm.trans hs.name
      simp only [Worker.step, hname, hfails, Bool.false_eq_true, if_false] at h
      obtain ⟨rfl, rfl⟩ := Prod.mk.inj (Option.some.inj h)
      refine ghost_same hj hpad hs ht 0 ?_ rfl
      simp only [Worker.step, hnames, hname, Bool.false_eq_true, if_false]
  | openNew o =>
      have hfails : a.fails = false := hfine
      obtain ⟨-, s, hready⟩ := ht.2
      have hname : fs.names (get_security_path_by_path j.path) = some s :=
        (hnames _).symm.trans hready.name
      simp only [Worker.step, hname, hfails, Bool.false_eq_true, if_false] at h
      obtain ⟨rfl, rfl⟩ := Prod.mk.inj (Option.some.inj h)
      refine ghost_same hj hpad hs ht 0 ?_ (loop_reached _ _ _)
      simp only [Worker.step, hnames, hname, Bool.false_eq_true, if_false]
  | readChunk o s => exact ghost_readChunk hj hpad hs ht hfine h
  | writeChunk o s buff => exact ghost_writeChunk hj hpad hs ht hfine h
  | readTail o s => exact ghost_readTail hj hpad hs ht hfine h
  | writeTail o s buff => exact ghost_writeTail hj hpad hs ht hfine h
  | returned p =>
      obtain ⟨rfl, rfl⟩ := Prod.mk.inj (Option.some.inj h)
      exact ghost_same hj hpad hs ht 0 rfl rfl

end Step

/-! ## A run of such steps -/

/-- The next call is fine: that of the worker that is picked, or the `rename` when all have
    returned. -/
def FineStep (j : Job) (a : Answer) (c : FileStore × List Worker) : Prop :=
  (Returned c → a.fails = false) ∧
    (¬ Returned c → ∀ t, c.2[a.who]? = some t → Fine j a c.1 t)

/-- The steps of a calm host are fine. -/
theorem fineStep_calm (j : Job) {a : Answer} (ha : Answer.Calm a) (hfd : a.hint ≠ 0)
    (c : FileStore × List Worker) : FineStep j a c := by
  have hcut : ∀ n, a.cut n = ({} : Answer).cut n := by
    intro n
    rw [Answer.cut, Answer.cut, ha.limit]
  have hwrite : ∀ fs s buff offset,
      Worker.pwrite a fs s buff offset = Worker.pwrite {} fs s buff offset := by
    intro fs s buff offset
    rw [Worker.pwrite, Worker.pwrite, ha.fails, hcut]
  have hread : ∀ data offset, Worker.pread a data offset = Worker.pread {} data offset := by
    intro data offset
    rw [Worker.pread, Worker.pread, ha.fails, hcut]
  constructor
  · intro _
    exact ha.fails
  · intro _ t _
    obtain ⟨number, offset, bsize, tsize, pc⟩ := t
    cases pc with
    | start => exact ha.fails
    | create => exact ⟨ha.fails, hfd⟩
    | entered => exact ha.denies
    | openOld => exact ha.fails
    | openNew _ => exact ha.fails
    | truncate _ => exact .inl ha.fails
    | header _ => exact hwrite ..
    | writeChunk _ _ _ => exact hwrite ..
    | writeTail _ _ _ => exact hwrite ..
    | readChunk _ _ => exact congrArg (·.getD []) (hread ..)
    | readTail _ _ => exact congrArg (·.getD []) (hread ..)
    | _ => trivial

/-- What a worker has copied is in the new file, which is that long. -/
def Written (j : Job) (c : FileStore × List Worker) : Prop :=
  ∀ i t, c.2[i]? = some t → share j.size * i < t.reached →
    ∀ s, c.1.names j.newPath = some s →
      min (j.size + 4096) (4096 * (t.reached + 1)) ≤ (c.1.data s).length

/-- What holds of the padded file along a run of fine steps. -/
def Seen (j : Job) (c : FileStore × List Worker) : Prop :=
  ∃ g, Padded j c.1 g ∧ Written j c ∧
    System.PoolInv (fun fs => j.Shared fs ∧ j.TailZero fs)
      (fun i fs t => j.Assert i fs t ∧ j.Copied i fs t) (g, c.2)

section Seen

variable {j : Job} (hj : InRange j.size)

/-- Before the new file is ready a step leaves nothing copied. -/
theorem effect_early {i : Nat} {fs fs' : FileStore} {t t' : Worker} (ht : j.Assert i fs t)
    (heff : j.Effect i fs t fs' t') (hno : ¬ ∃ s, j.Ready fs s) :
    t'.reached = share j.size * i := by
  cases heff with
  | silent h _ => rw [h, Job.reached_early ht hno]
  | stage _ _ h _ => exact h
  | copy hr => exact absurd ⟨_, hr⟩ hno
  | stray hr => exact absurd ⟨_, hr⟩ hno

include hj

theorem seen_init {fs : FileStore} (hname : fs.names j.path = some j.old)
    (hdata : fs.data j.old = j.plain) (hnone : fs.names j.newPath = none) :
    Seen j (fs, allWorkers j.size) :=
  ⟨fs, padded_refl j fs, (fun _ _ _ _ _ hs => by cases hnone.symm.trans hs),
    Job.content_init hj hname hdata hnone⟩

/-- **A fine step** of the pool. -/
theorem seen_step (hh : j.Harmless) {a : Answer} {c c' : FileStore × List Worker}
    (h : Seen j c) (hfine : ∀ t, c.2[a.who]? = some t → Fine j a c.1 t)
    (hstep : (workers j.dev j.path).poolStep a c = some c') : Seen j c' := by
  obtain ⟨fs, ts⟩ := c
  obtain ⟨fs', ts'⟩ := c'
  obtain ⟨g, hpad, hwritten, hinv⟩ := h
  rcases System.poolStep_cases _ hstep with ⟨rfl, rfl⟩ | ⟨i, t, t', ht, hpick, hone, rfl⟩
  · exact ⟨g, hpad, hwritten, hinv⟩
  · have hi := hinv.2 i t ht
    have hpick : a.who = i := hpick
    obtain ⟨g', hpad', heff, hassert, hgrown⟩ := ghost_step hj hpad hinv.1.1 hi.1
      (hfine t (by rw [hpick]; exact ht)) hone
    obtain ⟨hshared, hcopied⟩ := Job.effect_content hj hh hinv.1 hi heff
    refine ⟨g', hpad', ?_, hinv.set ht hshared ⟨hassert, hcopied⟩
      fun k u hik hu => Job.effect_content_other hj hh hik hu heff⟩
    intro k u hu hreach s hs
    have hlt : i < ts.length := (List.getElem?_eq_some_iff.mp ht).1
    -- without a new file nothing has been copied
    have hearly : fs.names j.newPath = none → ¬ ∃ s, j.Ready g s := by
      rintro hnone ⟨s', hr⟩
      cases hnone.symm.trans ((congrFun hpad.names _).symm.trans hr.name)
    have hu' : (ts.set i t')[k]? = some u := hu
    by_cases hik : i = k
    · -- the worker that has moved
      obtain rfl := hik
      rw [List.getElem?_set_self hlt] at hu'
      obtain rfl := Option.some.inj hu'
      cases hname : fs.names j.newPath with
      | none =>
          have := effect_early hi.1 heff (hearly hname)
          omega
      | some s₀ =>
          obtain ⟨hname', hlen, hcase⟩ := hgrown s₀ hname
          obtain rfl : s₀ = s := Option.some.inj (hname'.symm.trans hs)
          rcases hcase with hsame | hlong
          · have := hwritten i t ht (by omega) s₀ hname
            rw [hsame]
            exact Nat.le_trans this hlen
          · exact hlong
    · rw [List.getElem?_set_ne hik] at hu'
      cases hname : fs.names j.newPath with
      | none =>
          have := Job.reached_early (hinv.2 k u hu').1 (hearly hname)
          omega
      | some s₀ =>
          obtain ⟨hname', hlen, -⟩ := hgrown s₀ hname
          obtain rfl : s₀ = s := Option.some.inj (hname'.symm.trans hs)
          exact Nat.le_trans (hwritten k u hu' hreach s₀ hname) hlen

/-- **Every run of fine steps.** -/
theorem running_seen (hh : j.Harmless) {w : World} (hinit : Seen j (started w j.size))
    (hfine : ∀ n c, Running j.dev j.path w j.size n c →
      FineStep j (w.kern.host.answer (w.kern.tick + 6 + n)) c) :
    ∀ n c, Running j.dev j.path w j.size n c → Seen j c := by
  intro n
  induction n with
  | zero =>
      intro c h
      obtain rfl := Option.some.inj h.1
      exact hinit
  | succ n ih =>
      intro c' h
      obtain ⟨c, hc, hstep⟩ := h.1.succ
      have hrunning : Running j.dev j.path w j.size n c :=
        ⟨hc, fun m hm => h.2 m (Nat.lt_succ_of_lt hm)⟩
      exact seen_step hj hh (ih c hrunning)
        ((hfine n c hrunning).2 (h.2 n (Nat.lt_succ_self n) c hc)) hstep

/-- **The new file at the end** is the header and the image. -/
theorem fine_target (hh : j.Harmless) {c : FileStore × List Worker} (h : Seen j c)
    (hlen : c.2.length = THREADS_COUNT) (hfin : Returned c) :
    ∃ s, c.1.names j.newPath = some s ∧ c.1.data s = j.target := by
  obtain ⟨fs, ts⟩ := c
  obtain ⟨g, hpad, hwritten, hinv⟩ := h
  obtain ⟨s, hready, htarget⟩ := Job.finished_target hj hh hinv hlen hfin
  have hname : fs.names j.newPath = some s := by
    rw [← hpad.names]
    exact hready.name
  obtain ⟨k, hk, hcovered⟩ := hpad.new s hname
  refine ⟨s, hname, ?_⟩
  have hworker := fun i (hi : i < THREADS_COUNT) =>
    Job.finished_worker (fun i t ht => (hinv.2 i t ht).1) hlen hfin (i := i) hi
  -- a worker that has come to the end of the file
  have hend : ∀ i t, ts[i]? = some t → share j.size * i < t.reached →
      j.size ≤ 4096 * t.reached → j.size + 4096 ≤ (fs.data s).length := by
    intro i t ht hlow hhigh
    have : min (j.size + 4096) (4096 * (t.reached + 1)) ≤ (fs.data s).length :=
      hwritten i t ht hlow s hname
    omega
  have hchunk : ∀ i, chunkAt j.size i (share j.size) = share j.size * i
      + min (share j.size) (j.size / 4096 - share j.size * i) := fun _ => rfl
  have hpos := (share_bounds hj).1
  have htwo := share_two hj
  have hlong : Covered j → j.size + 4096 ≤ (fs.data s).length := by
    intro hcov
    obtain ⟨t₁, ht₁, c₁, _, -, hr₁, -, hc₁, -⟩ := hworker 1 (by decide)
    obtain ⟨t₂, ht₂, c₂, _, -, hr₂, -, hc₂, -⟩ := hworker 2 (by decide)
    obtain ⟨t₃, ht₃, c₃, _, -, hr₃, -, -, hc₃⟩ := hworker 3 (by decide)
    have hc₁ := (hc₁ (by decide)).2
    have hc₂ := (hc₂ (by decide)).2
    rw [hchunk] at hc₁ hc₂
    by_cases hthree : share j.size * 3 ≤ j.size / 4096
    · have hc₃ := (hc₃ rfl).2 hthree
      by_cases hlast : share j.size * 3 < c₃
      · exact hend 3 t₃ ht₃ (by omega) (by omega)
      · -- its range is empty
        exact hend 2 t₂ ht₂ (by omega) (by omega)
    · obtain ⟨m, hm⟩ := hcov.resolve_left hthree
      by_cases hmore : share j.size * 2 < j.size / 4096
      · exact hend 2 t₂ ht₂ (by omega) (by omega)
      · exact hend 1 t₁ ht₁ (by omega) (by omega)
  have htotal : (fs.data s).length + k = j.size + 4096 := by
    rw [← Job.target_length, ← htarget, hk, List.length_append, zeroed_length]
  have hnothing : k = 0 := by
    by_contra hne
    have := hlong (hcovered hne)
    omega
  rw [← htarget, hk, hnothing]
  exact (List.append_nil _).symm

end Seen

end TeGhost
