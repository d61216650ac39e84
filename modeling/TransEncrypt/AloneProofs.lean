import TransEncrypt.OnceProofs
import TransEncrypt.OpenerProofs

/-! # A caller of open that is alone

    The callers that run at once step from call to call, and the hooked `open` runs through:
    two definitions of the same source.  On a host where no call fails they agree.  What the
    hooked `open` does, a caller that is alone does in some run of its steps.

    * `linker_open_alone`, `linker_write_alone`: single calls;
    * `run_workers_alone`, `rebuild_alone`: the conversion, in the order the host decides;
    * `open_new_alone`, `open_plain_alone`: the two ways on behind the real `open`;
    * `open_alone`: the whole call. -/

namespace TeAlone

open Posix Overlay TeHeader Hoare TeProgram TeDetector TeTorn TeWorker TeRebuild TeOpen TeOnce
open TeOpener Interleave

/-- A run of one caller, without a failing call. -/
def Alone (dev : Device) (path : Path) (c c' : FileStore × Opener) : Prop :=
  (openers dev path).Run (fun a _ => Answer.Calm a.answer) (c.1, [c.2]) (c'.1, [c'.2])

namespace Alone

variable {dev : Device} {path : Path} {c c' c'' : FileStore × Opener}

theorem refl : Alone dev path c c := System.Run.refl

theorem trans (h : Alone dev path c c') (h' : Alone dev path c' c'') : Alone dev path c c'' :=
  System.Run.trans h h'

/-- One more call. -/
theorem step {fs : FileStore} {o : Opener} {a : Answer} (h : Alone dev path c (fs, o))
    (ha : Answer.Calm a) (hstep : Opener.step dev path a fs o = some c') :
    Alone dev path c c' := by
  refine System.Run.step (a := ⟨0, a⟩) h ha ?_
  show (Opener.step dev path a fs o).map (fun r => (r.1, [r.2])) = _
  rw [hstep]
  rfl

end Alone

/-! ## Single calls -/

section Calls

variable {w w' : World} {path : Path} {flags : Flags} {fd : Int} {a : Answer}
  (hc : w.kern.host.Calm) (ha : Answer.Calm a)
include hc ha

/-- The real `open` fails in both readings, or opens the same file in both. -/
theorem linker_open_alone (h0 : w.kern.InUse 0) (h : linker_open path flags w = .ok (fd, w')) :
    (fd < 0 ∧ Opener.linker_open a path flags w.kern.files = none ∧
      w'.kern.files = w.kern.files) ∨
    (0 < fd ∧ ∃ i k', w' = { w with kern := k' } ∧ Kernel.Opened w.kern path flags fd i k' ∧
      Opener.linker_open a path flags w.kern.files = some (k'.files, i)) := by
  rcases linker_open_inv h with ⟨rfl, rfl⟩ | ⟨i, k', rfl, ho⟩
  · refine .inl ⟨by decide, ?_, rfl⟩
    have hfd : (-1 : Int) = (w.kern.sysOpen path flags).1 := (kernelCall_inv h).1
    have hfree := w.kern.freeFd_nonneg w.kern.answer.hint
    cases hname : w.kern.files.names path with
    | none =>
        by_cases hcr : flags.creat = true
        · rw [Kernel.sysOpen_creat hc hname hcr] at hfd
          have : (-1 : Int) = w.kern.freeFd w.kern.answer.hint := hfd
          omega
        · simp only [Opener.linker_open, ha.fails, hname, hcr, Bool.false_eq_true, if_false]
    | some i =>
        by_cases hx : (flags.creat && flags.excl) = true
        · exact Opener.linker_open_excl ha hname hx
        · obtain ⟨fd', k', hopen, ho, -⟩ := linker_open_calm hc hname (by simpa using hx)
          have hneg := (Prod.mk.inj (Except.ok.inj (h.symm.trans hopen))).1
          have hpos := ho.gained.nonneg
          omega
  · have hpos : 0 < fd := by
      have hne : fd ≠ 0 := fun hzero => ho.gained.fresh (hzero ▸ h0)
      have hnonneg := ho.gained.nonneg
      omega
    refine .inr ⟨hpos, i, k', rfl, ho, ?_⟩
    have hfiles := ho.files
    generalize k'.files = fs' at hfiles ⊢
    cases hfiles with
    | existing hname hx ht => exact Opener.linker_open_calm ha hname hx ht
    | emptied hname hx ht =>
        simp only [Opener.linker_open, ha.fails, hname, hx, ht, Bool.false_eq_true, if_false,
          if_true]
    | created hname hcr hi =>
        simp only [Opener.linker_open, ha.fails, hname, hcr, hi, Bool.false_eq_true, if_false,
          if_true]

/-- The first write through a new descriptor. -/
theorem linker_write_alone {id i : Nat} {buf : List UInt8} {n : Int}
    (hfind : w.kern.find fd = some id)
    (hdesc : w.kern.desc id = { inode := i, pos := 0, flags := flags }) (hb : buf ≠ [])
    (h : linker_write fd buf w = .ok (n, w')) :
    Opener.linker_write a flags w.kern.files i buf
      = (w'.kern.files, decide (n = buf.length)) := by
  obtain ⟨rfl, rfl⟩ := kernelCall_inv h
  by_cases hw : flags.acc.writable = true
  · have hrun := Kernel.sysWrite_calm hc hfind (by rw [hdesc]) (by rw [hdesc]; exact hw) hb
    rw [hdesc] at hrun
    rw [Opener.linker_write, if_neg (by rw [ha.fails, hw]; decide), Opener.cut_calm ha,
      List.take_length, beq_self_eq_true, hrun]
    exact Prod.ext rfl (decide_eq_true rfl).symm
  · have hno : flags.acc.writable = false := by simpa using hw
    have hfail := (w.kern.sysWrite_failed hfind buf).mpr (.inr (by rw [hdesc]; exact hno))
    rw [Opener.linker_write, if_pos (.inr hno), hfail,
      w.kern.sysWrite_unwritable hfind (by rw [hdesc]; exact hno)]
    have hne : (-1 : Int) ≠ buf.length := by omega
    rw [decide_eq_false hne]

end Calls

/-- Tracking a descriptor gives the descriptor back. -/
theorem track_returns {w w' : World} {path p : Path} {fd n : Int} {c : Prop} [Decidable c]
    (h : (do
      let origin ← denotes path
      if (← file_info_list_add fd p origin) then do
        if c then do
          let _ ← linker_lseek fd FILE_HEADER_POLL_SIZE .set
          pure fd
        else pure fd
      else pure fd : Sys Int) w = .ok (n, w')) : n = fd ∧ w'.kern.files = w.kern.files := by
  refine ⟨?_, (still_track path p fd h).1⟩
  obtain ⟨o, w₁, -, h1⟩ := bind_inv h
  obtain ⟨b, w₂, -, h2⟩ := bind_inv h1
  split at h2
  · split at h2
    · obtain ⟨r, w₃, -, h3⟩ := bind_inv h2
      exact (pure_inv h3).1
    · exact (pure_inv h2).1
  · exact (pure_inv h2).1

/-! ## The conversion -/

section Conversion

variable {dev : Device} {path : Path} {flags : Flags}

/-- The workers step as the host decides. -/
theorem run_workers_alone : ∀ n {ts ts' : List Worker} {w w' : World}, w.kern.host.Calm →
    w.kern.InUse 0 → run_workers dev path n ts w = .ok (ts', w') →
    Alone dev path (w.kern.files, ⟨flags, .joining ts⟩) (w'.kern.files, ⟨flags, .joining ts'⟩) ∧
      ts'.all Worker.finished = true := by
  intro n
  have hstop : ∀ {ts ts' : List Worker} {w w' : World}, ts.all Worker.finished = true →
      (pure ts : Sys (List Worker)) w = .ok (ts', w') →
      Alone dev path (w.kern.files, ⟨flags, .joining ts⟩)
        (w'.kern.files, ⟨flags, .joining ts'⟩) ∧ ts'.all Worker.finished = true := by
    intro ts ts' w w' hall h
    obtain ⟨rfl, rfl⟩ := pure_inv h
    exact ⟨.refl, hall⟩
  induction n with
  | zero =>
      intro ts ts' w w' _ _ h
      by_cases hall : ts.all Worker.finished = true
      · rw [run_workers, if_pos hall] at h
        exact hstop hall h
      · rw [run_workers, if_neg hall] at h
        cases h
  | succ n ih =>
      intro ts ts' w w' hc h0 h
      by_cases hall : ts.all Worker.finished = true
      · rw [run_workers, if_pos hall] at h
        exact hstop hall h
      · rw [run_workers, if_neg hall] at h
        obtain ⟨ts₁, w₁, h1, h2⟩ := bind_inv h
        obtain ⟨hpool, hhost, -, honly⟩ := run_worker_inv h1
        have hkept := (honly (leftOpen_none (granted_hint h0 _) _)).fds
        obtain ⟨hrest, hfin⟩ := ih (by rw [hhost]; exact hc)
          (by rw [Kernel.InUse, hkept]; exact h0) h2
        -- the number that the caller's step is to give the descriptor
        let a : Answer := { granted w.kern with hint := (granted w.kern).hint - 1 }
        have hanswer : ({ a with hint := a.hint + 1 } : Answer) = granted w.kern := by
          have hne : (granted w.kern).hint ≠ 0 := granted_hint h0 _
          show ({ granted w.kern with hint := (granted w.kern).hint - 1 + 1 } : Answer) = _
          rw [Nat.sub_add_cancel (Nat.pos_of_ne_zero hne)]
        have hstep : Opener.step dev path a w.kern.files ⟨flags, .joining ts⟩ =
            some (w₁.kern.files, ⟨flags, .joining ts₁⟩) := by
          simp only [Opener.step, hall, Bool.false_eq_true, if_false, hanswer, hpool,
            Opener.goto_mk]
        have ha : Answer.Calm a := ⟨(hc _).fails, (hc _).limit, (hc _).denies⟩
        exact ⟨(Alone.step .refl ha hstep).trans hrest, hfin⟩

/-- **The conversion** of a file that is there. -/
theorem rebuild_alone {w w' : World} {C : List UInt8} {i : Nat} {r : Int}
    (hc : w.kern.host.Calm) (h0 : w.kern.InUse 0) (hname : w.kern.files.names path = some i)
    (hdata : w.kern.files.data i = C)
    (h : rebuild_file_struct dev path C.length w = .ok (r, w')) :
    Alone dev path (w.kern.files, ⟨flags, Opener.rebuild path C.length⟩)
      (w'.kern.files, ⟨flags, .reopen⟩) := by
  have ha : Answer.Calm {} := ⟨rfl, rfl, rfl⟩
  by_cases hpath : path = []
  · rw [rebuild_file_struct, if_pos hpath] at h
    obtain ⟨-, rfl⟩ := pure_inv h
    rw [Opener.rebuild, if_pos hpath]
    exact .refl
  by_cases hn : 0 < C.length
  swap
  · rw [rebuild_file_struct, if_neg hpath, if_neg (by omega)] at h
    obtain ⟨-, rfl⟩ := pure_inv h
    rw [Opener.rebuild, if_neg hpath, if_neg hn]
    exact .refl
  by_cases hsmall : C.length ≤ 4096 * THREADS_COUNT
  · -- one buffer
    rw [rebuild_small hpath hn hsmall] at h
    obtain ⟨k', hrun, hq⟩ := @rebuild_buffer_calm dev path w i C hname hdata hc
      (w.kern.freeFd_pos h0 _)
    obtain ⟨-, rfl⟩ := Prod.mk.inj (Except.ok.inj (hrun.symm.trans h))
    rw [Opener.rebuild, if_neg hpath, if_pos hn, if_pos hsmall]
    have hwrite : w.kern.files.writeAt i 0 (converted dev C) = k'.files := by
      rw [hq.files, FileStore.writeAt, hdata, overlay_all 0 (by rw [converted_length]; omega)]
      rfl
    have h₁ : Alone dev path (w.kern.files, ⟨flags, .bufferOpen C.length⟩)
        (w.kern.files, ⟨flags, .bufferRead C.length i⟩) :=
      .step .refl ha (Opener.step_bufferOpen ha hname _)
    have h₂ := h₁.step ha (Opener.step_bufferRead ha hdata)
    have h₃ := h₂.step ha (Opener.step_bufferWrite ha (converted dev C))
    rw [hwrite] at h₃
    exact h₃
  · -- four workers
    rw [rebuild_large hpath hsmall, rebuild_workers_calm hc] at h
    rw [Opener.rebuild, if_neg hpath, if_pos hn, if_neg hsmall]
    obtain ⟨ts', w₁, h1, h2⟩ := bind_inv h
    obtain ⟨hjoin, hfin⟩ := @run_workers_alone dev path flags w.kern.host.patience
      (allWorkers C.length) ts' { w with kern := w.kern.tock 6 } w₁ hc h0 h1
    refine hjoin.trans ?_
    by_cases hany : ts'.any (fun t => t.pc = .returned true) = true
    · have hc₁ : w₁.kern.host.Calm := by
        rw [(kept_join_workers dev path (allWorkers C.length) h1).1.host]
        exact hc
      rw [if_pos hany, bind_ok (rename_calm hc₁ _ _)] at h2
      obtain ⟨-, rfl⟩ := pure_inv h2
      have hstep : Opener.step dev path {} w₁.kern.files ⟨flags, .joining ts'⟩ =
          some (w₁.kern.files, ⟨flags, .rename⟩) := by
        simp only [Opener.step, hfin, hany, if_true, Opener.goto_mk]
      exact (Alone.step .refl ha hstep).step ha (Opener.step_rename ha)
    · rw [if_neg hany] at h2
      obtain ⟨-, rfl⟩ := pure_inv h2
      have hstep : Opener.step dev path {} w'.kern.files ⟨flags, .joining ts'⟩ =
          some (w'.kern.files, ⟨flags, .reopen⟩) := by
        simp only [Opener.step, hfin, hany, Bool.false_eq_true, if_true, if_false,
          Opener.goto_mk]
      exact Alone.step .refl ha hstep

end Conversion

/-! ## The ways on behind the real open -/

section Ways

variable {dev : Device} {path : Path} {flags : Flags} {u w' : World} {fd r : Int} {i : Nat}
  {k₂ : Kernel} (hc : u.kern.host.Calm) (ho : Kernel.Opened u.kern path flags fd i k₂)
  (hpos : 0 < fd)
include hc ho hpos

/-- A new file gets its header. -/
theorem open_new_alone (hspecial : dev.is_support_special_file_type_by_path path ≠ 1)
    (h : open_new dev path fd { u with kern := k₂ } = .ok (r, w')) :
    Alone dev path (k₂.files, ⟨flags, .writeHeader i⟩)
      (w'.kern.files, ⟨flags, .returned (decide (0 < r))⟩) := by
  let H := entryHeader dev.get_process_name path
  have ha : Answer.Calm {} := ⟨rfl, rfl, rfl⟩
  have hc₂ : k₂.host.Calm := by
    rw [ho.gained.host]
    exact hc
  have hne : H ≠ [] := fun hnil => by
    have hlen := congrArg List.length hnil
    rw [entryHeader_length] at hlen
    cases hlen
  rw [open_new, if_neg hspecial] at h
  obtain ⟨o, w₃, h1, h2⟩ := bind_inv h
  obtain ⟨-, rfl⟩ := denotes_inv h1
  rw [bind_ok (add_calm (w := { u with kern := k₂ }) hc₂ fd _ _), if_pos rfl] at h2
  obtain ⟨n, w₄, h3, h4⟩ := bind_inv h2
  have hwrite := linker_write_alone hc₂ ha ho.gained.find_self ho.desc hne h3
  have hstep : Opener.step dev path {} k₂.files ⟨flags, .writeHeader i⟩ =
      some (w₄.kern.files, ⟨flags, .returned (decide (n = H.length))⟩) := by
    show some ((Opener.linker_write {} flags k₂.files i H).1, _) = _
    rw [show Opener.linker_write {} flags k₂.files i H = _ from hwrite]
    rfl
  have hrun := Alone.step .refl ha hstep
  rw [entryHeader_length] at hrun
  by_cases hn : n = (FILE_HEADER_POLL_SIZE : Int)
  · rw [if_neg (not_not_intro hn)] at h4
    obtain ⟨rfl, rfl⟩ := pure_inv h4
    rw [decide_eq_true hpos]
    rw [decide_eq_true hn] at hrun
    exact hrun
  · rw [if_pos hn] at h4
    obtain ⟨c, w₅, h5, h6⟩ := bind_inv h4
    obtain ⟨c', w₆, h7, h8⟩ := bind_inv h6
    obtain ⟨rfl, rfl⟩ := pure_inv h8
    rw [(Still.close fd h7).1, (Still.remove fd h5).1, decide_eq_false (by decide)]
    rw [decide_eq_false hn] at hrun
    exact hrun

/-- A file without a header is converted and opened again, if nothing is in the way. -/
theorem open_plain_alone (h0 : u.kern.InUse 0)
    (h : open_plain dev path flags fd { u with kern := k₂ } = .ok (r, w')) :
    Alone dev path (k₂.files, ⟨flags, .check⟩)
      (w'.kern.files, ⟨flags, .returned (decide (0 < r))⟩) := by
  have ha : Answer.Calm {} := ⟨rfl, rfl, rfl⟩
  have hc₂ : k₂.host.Calm := by
    rw [ho.gained.host]
    exact hc
  obtain ⟨stage, w₃, h1, h2⟩ := bind_inv h
  have hfit : Fits path := by
    by_contra hfit
    rw [convert_plain, bind_ok (calloc_calm (w := { u with kern := k₂ }) hc₂), if_pos rfl,
      if_pos hfit] at h1
    cases h1
  rcases convert_plain_reaches hc ho.gained ho.name h1 with
    ⟨rfl, hfiles, hs⟩ | ⟨hs, w₀, r₀, rfl, hc₀, hfiles₀, hk₀, hrun⟩
  · -- `<path>.s` is in the way
    obtain ⟨s, hs⟩ := Option.ne_none_iff_exists'.mp hs
    obtain ⟨rfl, rfl⟩ := pure_inv h2
    rw [hfiles, decide_eq_true hpos]
    exact .step .refl ha (Opener.step_check_some ha hfit hs)
  · have h₀ : w₀.kern.InUse 0 := hk₀.inUse h0
    have hname₀ : w₀.kern.files.names path = some i := by
      rw [hfiles₀]
      exact ho.name
    have hk₃ := (kept_rebuild dev path _ hrun).1
    have hc₃ : w₃.kern.host.Calm := by
      rw [hk₃.host]
      exact hc₀
    -- either way the file is opened again
    obtain ⟨w₄, hopen, hfiles₄⟩ : ∃ w₄, linker_open path flags w₃ = .ok (r, w₄) ∧
        w'.kern.files = w₄.kern.files := by
      cases hr : r₀ == 1 with
      | false =>
          rw [hr] at h2
          exact ⟨w', h2, rfl⟩
      | true =>
          rw [hr] at h2
          obtain ⟨fd', w₄, h3, h4⟩ := bind_inv h2
          obtain ⟨rfl, hfiles⟩ := @track_returns w₄ w' path path fd' r True _
            (by simp only [if_true]; exact h4)
          exact ⟨w₄, h3, hfiles⟩
    have hcheck : Alone dev path (k₂.files, ⟨flags, .check⟩) (k₂.files, ⟨flags, .size⟩) :=
      .step .refl ha (Opener.step_check_none hfit hs)
    have hsize := hcheck.step ha (Opener.step_size ha (FileStore.content_of_names _ ho.name))
    have hrebuild := @rebuild_alone dev path flags w₀ w₃ _ i r₀ hc₀ h₀ hname₀
      (congrFun (congrArg FileStore.data hfiles₀) i) hrun
    rw [hfiles₀] at hrebuild
    refine (hsize.trans hrebuild).step ha ?_
    rcases linker_open_alone hc₃ ha (hk₃.inUse h₀) hopen with
      ⟨hneg, hnone, hsame⟩ | ⟨hpos', j, k', rfl, -, hsome⟩
    · rw [hfiles₄, hsame, decide_eq_false (by omega)]
      simp only [Opener.step, hnone, Opener.goto_mk]
    · rw [hfiles₄, decide_eq_true hpos']
      simp only [Opener.step, hsome, Opener.goto_mk]

end Ways

/-! ## The whole call -/

/-- **A caller that is alone** does, in some run of its steps, what the hooked `open` does:
    the same files and the same success. -/
theorem open_alone {dev : Device} {path : Path} {flags : Flags} {w w' : World} {fd : Int}
    (hc : w.kern.host.Calm) (h0 : w.kern.InUse 0)
    (h : open_supported dev path flags w = .ok (fd, w')) :
    Alone dev path (w.kern.files, Opener.start flags)
      (w'.kern.files, ⟨flags, .returned (decide (0 < fd))⟩) := by
  have ha : Answer.Calm {} := ⟨rfl, rfl, rfl⟩
  rw [open_supported] at h
  cases hname : w.kern.files.names path with
  | none =>
      rw [bind_ok (access_ok (w.kern.sysAccess_none hname)), if_neg (by decide),
        bind_ok (pure_ok _ _)] at h
      obtain ⟨fd₂, w₂, h1, h2⟩ := bind_inv h
      have hstart : Alone dev path (w.kern.files, Opener.start flags)
          (w.kern.files, ⟨flags, .realOpen false false⟩) := by
        refine .step .refl ha ?_
        simp only [Opener.step, Opener.start, Worker.there_none hname, Bool.false_eq_true,
          if_false, Opener.goto_mk]
      rcases linker_open_alone hc ha h0 h1 with
        ⟨hneg, hnone, hsame⟩ | ⟨hpos, i, k₂, rfl, ho, hsome⟩
      · rw [if_neg (by omega)] at h2
        obtain ⟨rfl, rfl⟩ := pure_inv h2
        rw [hsame, decide_eq_false (by omega)]
        refine hstart.step ha ?_
        simp only [Opener.step, hnone, Opener.goto_mk]
      · rw [if_pos hpos, if_pos (by decide)] at h2
        by_cases hspecial : dev.is_support_special_file_type_by_path path = 1
        · rw [open_new, if_pos hspecial] at h2
          obtain ⟨rfl, rfl⟩ := pure_inv h2
          rw [decide_eq_true hpos]
          refine hstart.step ha ?_
          simp only [Opener.step, hsome, hspecial, if_true, Opener.goto_mk]
        · refine (hstart.step ha ?_).trans (open_new_alone hc ho hpos hspecial h2)
          simp only [Opener.step, hsome, hspecial, if_true, if_false, Opener.goto_mk]
  | some i =>
      obtain ⟨k₁, hprobe, hq⟩ := probe_calm hc hname (w.kern.freeFd_pos h0 _)
      rw [bind_ok (access_ok (w.kern.sysAccess_some (Kernel.answer_denies hc) hname)), if_pos rfl,
        bind_ok hprobe] at h
      obtain ⟨fd₂, w₂, h1, h2⟩ := bind_inv h
      have hc₁ : k₁.host.Calm := by
        rw [hq.host]
        exact hc
      have h₁ : Alone dev path (w.kern.files, Opener.start flags)
          (w.kern.files, ⟨flags, .probeOpen⟩) := .step .refl ha (Opener.step_start ha hname)
      have h₂ := h₁.step ha (Opener.step_probeOpen ha hname)
      have h₃ := h₂.step ha (Opener.step_probeRead ha rfl)
      rcases linker_open_alone (w := { w with kern := k₁ }) hc₁ ha (hq.inUse.mpr h0) h1 with
        ⟨hneg, hnone, hsame⟩ | ⟨hpos, j, k₂, rfl, ho, hsome⟩
      · rw [if_neg (by omega)] at h2
        obtain ⟨rfl, rfl⟩ := pure_inv h2
        rw [hsame, decide_eq_false (by omega)]
        refine h₃.step ha ?_
        rw [hq.files] at hnone
        simp only [Opener.step, hnone, Opener.goto_mk]
        rw [hq.files]
      · rw [hq.files] at hsome
        rw [if_pos hpos, if_neg (not_not_intro rfl)] at h2
        by_cases hH : HasHeader (w.kern.files.data i)
        · rw [if_pos hH] at h2
          rw [decide_eq_true hH] at h₃
          obtain ⟨rfl, hfiles⟩ := track_returns h2
          rw [hfiles, decide_eq_true hpos]
          refine h₃.step ha ?_
          simp only [Opener.step, hsome, Opener.goto_mk]
          rfl
        · rw [if_neg hH] at h2
          rw [decide_eq_false hH] at h₃
          refine (h₃.step ha ?_).trans
            (open_plain_alone (u := { w with kern := k₁ }) hc₁ ho hpos (hq.inUse.mpr h0) h2)
          simp only [Opener.step, hsome, Opener.goto_mk]
          rfl

end TeAlone
