import TransEncrypt.AcquireProofs
import TransEncrypt.AtomicProofs

/-! # What the conversion of a large file replaces

    A file that one buffer does not hold is converted by four workers into a second one, which
    gets the name of the first one when it is complete.

    * `Around`: what the workers leave alone, whatever order they make their calls in;
    * `workers_replace`: on a calm host, a conversion that returns has given the name to a new
      file, and nothing else has changed;
    * `acquire_large`: so has an open that returns, with a descriptor on the new file;
    * `open_large_returns`: in some order of the workers' calls it returns. -/

namespace TeLarge

open Posix Overlay TeHeader Hoare TeProgram TeDetector TeWorker TeBarren TeRebuild TeFailure
open TeGhost TeAtomic TeOpen TeAcquire

/-- All but the file `sec` are as they were, and this one is new. -/
structure Around (sec : Path) (fs fs' : FileStore) : Prop where
  next : fs.next ≤ fs'.next
  names : ∀ {p}, p ≠ sec → fs'.names p = fs.names p
  data : ∀ {i}, i < fs.next → fs'.data i = fs.data i
  fresh : ∀ {s}, fs'.names sec = some s → fs.next ≤ s

theorem Around.touch {path : Path} {number : Nat} {fs fs' fs'' : FileStore}
    (htouch : Touch path number fs' fs'') (h : Around (get_security_path_by_path path) fs fs') :
    Around (get_security_path_by_path path) fs fs'' := by
  refine ⟨?_, fun hp => (htouch.names hp).trans (h.names hp), fun {i} hi => ?_, fun {s} hs => ?_⟩
  · cases htouch with
    | silent => exact h.next
    | created => exact Nat.le_succ_of_le h.next
    | written => exact h.next
  · cases htouch with
    | silent => exact h.data hi
    | created =>
        rw [FileStore.create_data_ne _ (Nat.ne_of_lt (Nat.lt_of_lt_of_le hi h.next))]
        exact h.data hi
    | written s D hs =>
        rw [FileStore.store_data_ne _ (Nat.ne_of_lt (Nat.lt_of_lt_of_le hi (h.fresh hs)))]
        exact h.data hi
  · cases htouch with
    | silent => exact h.fresh hs
    | created =>
        rw [FileStore.create_names_self] at hs
        obtain rfl := Option.some.inj hs
        exact h.next
    | written => exact h.fresh hs

/-- The name of `path` leads to a new file, which holds `D`; nothing else has changed. -/
structure Replaced (fs fs' : FileStore) (path : Path) (j : Nat) (D : List UInt8) : Prop where
  next : fs.next ≤ fs'.next
  fresh : fs.next ≤ j
  name : fs'.names path = some j
  names : ∀ {p}, p ≠ path → fs'.names p = fs.names p
  data : fs'.data j = D
  others : ∀ {i}, i < fs.next → fs'.data i = fs.data i

theorem rename_names_ne {fs : FileStore} {p q r : Path} {i : Nat} (h : fs.names p = some i)
    (hp : r ≠ p) (hq : r ≠ q) : (fs.rename p q).names r = fs.names r := by
  simp only [FileStore.rename, h, Function.update_of_ne hq, Function.update_of_ne hp]

/-- The new file gets its name. -/
theorem Around.renamed {path : Path} {fs fs' : FileStore} {s : Nat}
    (h : Around (get_security_path_by_path path) fs fs')
    (hs : fs'.names (get_security_path_by_path path) = some s)
    (hnone : fs.names (get_security_path_by_path path) = none) :
    Replaced fs (fs'.rename (get_security_path_by_path path) path) path s (fs'.data s) where
  next := h.next
  fresh := h.fresh hs
  name := FileStore.rename_names_to _ hs
  names := by
    intro p hp
    by_cases hsec : p = get_security_path_by_path path
    · rw [hsec, FileStore.rename_names_from _ hs (security_path_ne path), hnone]
    · rw [rename_names_ne hs hsec hp]
      exact h.names hsec
  data := rfl
  others := h.data

/-- What leads to another file after it was renamed over has that file's old name. -/
theorem renamed_from {fs : FileStore} {p q : Path} {i s : Nat} (hold : fs.names q = some i)
    (hnew : (fs.rename p q).names q = some s) (hne : s ≠ i) : fs.names p = some s := by
  cases hs : fs.names p with
  | none =>
      -- nothing was renamed
      have hsame : (fs.rename p q).names = fs.names := by
        simp only [FileStore.rename, hs]
      rw [hsame] at hnew
      exact absurd (Option.some.inj (hnew.symm.trans hold)) hne
  | some s' =>
      rw [← hnew]
      exact (FileStore.rename_names_to _ hs).symm

section Workers

variable {j : Job} (hj : InRange j.size) (hh : j.Harmless) {w w' : World}
  (hc : w.kern.host.Calm) (h0 : w.kern.InUse 0)
  (hname : w.kern.files.names j.path = some j.old)
  (hdata : w.kern.files.data j.old = j.plain) (hnone : w.kern.files.names j.newPath = none)
include hj hh hc h0 hname hdata hnone

/-- **The workers replace the file**, in every order of their calls in which they return. -/
theorem workers_replace {r : Int} (h : rebuild_workers j.dev j.path j.size w = .ok (r, w')) :
    r = 1 ∧ FilesOnly w w' ∧
      ∃ s, Replaced w.kern.files w'.kern.files j.path s (converted j.dev j.plain) := by
  obtain ⟨hr, honly, -, fs₀, -, s, -, -, -, hready, hfiles₀⟩ :=
    rebuild_workers_ready hj hc hname hdata hnone h
  refine ⟨hr, honly h0, s, ?_⟩
  have hpath : w'.kern.files.names j.path = some s := by
    rw [hfiles₀]
    exact FileStore.rename_names_to _ hready.name
  have hcontent : w'.kern.files.content j.path = some (converted j.dev j.plain) :=
    workers_target hname hdata hnone h (fun num hnum => .inr ⟨hj, hh, createdBy_calm hc _ _,
      fun _ c _ => fineStep_calm j (numbered_calm hc num _) (hnum h0 _) c⟩) hr
  rw [FileStore.content_of_names _ hpath] at hcontent
  -- the conversion has succeeded, so the last thing it did was the rename
  rcases rebuild_workers_inv h with ⟨-, hzero, -⟩ | ⟨-, num, n, fs, ts, -, hrun, -, hcase⟩
  · exact absurd (hzero.symm.trans hr) (by decide)
  rcases hcase with ⟨hzero, -⟩ | ⟨-, -, hfiles⟩
  · exact absurd (hzero.symm.trans hr) (by decide)
  rw [(hc _).1, if_neg (by decide)] at hfiles
  -- before that, the workers took turns in some order
  obtain ⟨haround, -⟩ := reaches_keeps (w := withNumbers w num) (J := Around j.newPath w.kern.files)
    (fun htouch hJ => hJ.touch htouch)
    ⟨Nat.le_refl _, fun _ => rfl, fun _ => rfl, fun hs => (by cases hnone.symm.trans hs)⟩
    hnone hrun.1
  -- the workers have left the old name alone
  have hold : fs.names j.path = some j.old :=
    (haround.names (security_path_ne j.path).symm).trans hname
  have hnew : fs.names j.newPath = some s := by
    rw [hfiles] at hpath
    exact renamed_from hold hpath hready.ne
  have hreplaced := haround.renamed hnew hnone
  rw [show fs.data s = w'.kern.files.data s from by rw [hfiles]; rfl, Option.some.inj hcontent]
    at hreplaced
  rw [hfiles]
  exact hreplaced

end Workers

/-- No cursor has moved. -/
theorem aside_of_filesOnly {w w' : World} (h : FilesOnly w w') : Aside w.kern w'.kern := by
  have hfind : ∀ fd, w'.kern.find fd = w.kern.find fd := fun fd =>
    congrArg (List.lookup fd) h.fds
  refine ⟨⟨fun {fd id} hf => (hfind fd).trans hf, fun {_ id} _ => ⟨(w.kern.desc id).pos, ?_⟩,
    h.host⟩, fun id _ => congrFun h.desc id, Nat.le_of_eq h.nextDesc.symm⟩
  rw [congrFun h.desc id]

/-- **A large plain file**: an open that returns has converted it. -/
theorem acquire_large {dev : Device} {env : Env} {w w' : World} {path : Path} {flags : Flags}
    {i : Nat} {fd : Int} (henv : env.Active) (hc : w.kern.host.Calm) (h0 : w.kern.InUse 0)
    (hsup : dev.is_support_file_type_by_path path ≠ 0) (hpath : path ≠ []) (hfit : Fits path)
    (hname : w.kern.files.names path = some i)
    (hnone : w.kern.files.names (get_security_path_by_path path) = none)
    (hH : ¬ HasHeader (w.kern.files.data i)) (hrange : InRange (w.kern.files.data i).length)
    (hharm : (Job.mk dev path (w.kern.files.data i) i).Harmless)
    (hx : (flags.creat && flags.excl) = false) (ht : flags.trunc = false)
    (h : open_file dev env path flags w = .ok (fd, w')) :
    ∃ j, Acquired w w' path flags fd j ∧ Replaced w.kern.files w'.kern.files path j
      (converted dev (w.kern.files.data i)) := by
  let C := w.kern.files.data i
  obtain ⟨k, haside, hfiles, -, -, hopen⟩ := open_converts henv hc h0 hsup hfit hname hnone hH hx ht
  rw [hopen] at h
  obtain ⟨r, u, h1, h2⟩ := bind_inv h
  rw [rebuild_large hpath (Nat.not_le_of_lt hrange.1)] at h1
  have hc' : k.host.Calm := by
    rw [haside.kept.host]
    exact hc
  obtain ⟨rfl, honly, j, hrep⟩ := workers_replace (j := ⟨dev, path, C, i⟩) hrange hharm
    (w := { w with kern := k }) hc' (haside.kept.inUse h0) (by rw [hfiles]; exact hname)
    (by rw [hfiles]) (by rw [hfiles]; exact hnone) h1
  -- then the hook opens the path once more, which finds the new file
  have haside' : Aside w.kern u.kern := haside.trans (aside_of_filesOnly honly)
  rw [if_pos rfl] at h2
  obtain ⟨fd', u', hrun, hacq, hsame⟩ := reopen_acquires (w := w) (u := u) (i := j) haside'
    honly.list (by
      rw [haside'.kept.host]
      exact hc) (haside'.kept.inUse h0) hrep.name hx ht
  obtain ⟨rfl, rfl⟩ := Prod.mk.inj (Except.ok.inj (hrun.symm.trans h2))
  have hrep : Replaced k.files u.kern.files path j (converted dev C) := hrep
  rw [hfiles] at hrep
  refine ⟨j, hacq, ?_⟩
  rw [hsame]
  exact hrep

/-- **In some order of the workers' calls** the open of such a file returns. -/
theorem open_large_returns {dev : Device} {env : Env} (w : World) {path : Path} {flags : Flags}
    {i : Nat} (henv : env.Active) (h0 : w.kern.InUse 0)
    (hsup : dev.is_support_file_type_by_path path ≠ 0) (hpath : path ≠ []) (hfit : Fits path)
    (hname : w.kern.files.names path = some i)
    (hnone : w.kern.files.names (get_security_path_by_path path) = none)
    (hH : ¬ HasHeader (w.kern.files.data i)) (hrange : InRange (w.kern.files.data i).length)
    (hharm : (Job.mk dev path (w.kern.files.data i) i).Harmless)
    (hx : (flags.creat && flags.excl) = false) (ht : flags.trunc = false) :
    ∃ host fd w', host.Calm ∧ open_file dev env path flags (w.under host) = .ok (fd, w') := by
  let C := w.kern.files.data i
  have hpos : (w.kern.freeFd 0).toNat ≠ 0 := by
    have := w.kern.freeFd_pos h0 0
    omega
  obtain ⟨as, fs', ts', s, has, hrun, hfin, hany, -⟩ :=
    @large_schedule dev path C w i hrange.2 hname rfl hnone (Nat.not_le_of_lt hrange.1) hfit _ hpos
  -- the workers start behind the 8 calls of the open and 6 of the conversion
  let host := scriptHost (w.kern.tick + 8 + 6) as
  have hc : host.Calm := scriptHost_calm _ as
  obtain ⟨k, haside, hfiles, hfds, htick, hopen⟩ :=
    open_converts (w := w.under host) henv hc h0 hsup hfit hname hnone hH hx ht
  have hfiles : k.files = w.kern.files := hfiles
  let u : World := { w with kern := k }
  have h0' : u.kern.InUse 0 := haside.kept.inUse h0
  have hunder : u.under (scriptHost (u.kern.tick + 6) as) = u := by
    have hhost : scriptHost (u.kern.tick + 6) as = k.host := by
      rw [show u.kern.tick = w.kern.tick + 8 from htick]
      exact haside.kept.host.symm
    rw [hhost]
    rfl
  have hfree : u.kern.freeFd 0 = w.kern.freeFd 0 := by
    rw [Kernel.freeFd, Kernel.freeFd, show u.kern.fds = w.kern.fds from hfds]
  obtain ⟨u', hu, -⟩ := rebuild_workers_run u h0' (by rw [hfree]; exact has)
    (by rw [show u.kern.files = w.kern.files from hfiles]; exact hrun) hfin hany
  rw [hunder] at hu
  have hname' : u.kern.files.names path = some i := by
    rw [show u.kern.files = w.kern.files from hfiles]
    exact hname
  have hc' : u.kern.host.Calm := by
    rw [haside.kept.host]
    exact hc
  obtain ⟨-, honly, j, hrep⟩ := workers_replace (j := ⟨dev, path, C, i⟩) hrange hharm hc' h0'
    hname' (by rw [show u.kern.files = w.kern.files from hfiles])
    (by rw [show u.kern.files = w.kern.files from hfiles]; exact hnone) hu
  have haside' : Aside u.kern u'.kern := aside_of_filesOnly honly
  obtain ⟨fd, w', hreopen, -⟩ := reopen_acquires (w := u) haside' honly.list (by
    rw [haside'.kept.host]
    exact hc') (haside'.kept.inUse h0') hrep.name hx ht
  refine ⟨host, fd, w', hc, ?_⟩
  rw [hopen]
  show (rebuild_file_struct dev path C.length >>= _) u = _
  rw [rebuild_large hpath (Nat.not_le_of_lt hrange.1), bind_ok hu, if_pos rfl]
  exact hreopen

end TeLarge
