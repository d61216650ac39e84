import TransEncrypt.SubtractProofs
import TransEncrypt.FreadProofs

/-! # What counts as encrypted

    The hooks that shift or decrypt compare the type that the probe returns with one
    constant, the hooks that size, probe and convert compare it with another.

    * `Cut`: a hook, cut at its test; `Cut.Treats`: which way a call goes on from there;
    * `Shifting.goes_by`, `Sizing.goes_by`: each of the nine hooks goes by its test;
    * `one_classification`: all of them take the same files for encrypted exactly when the
      stored type is one of the two that the code knows, and where there is a header, `open`
      supports the path and descriptor 0 is in use. -/

namespace TeClassify

open Posix Overlay TeHeader Hoare TeProgram TeDetector TeRead TeFread TeOpen TeSize TeMmap
open TeSubtract

/-! ## Hooks, cut at their tests -/

/-- A hook with the calls in front of its test, the test with what it has found, and how the
    hook goes on when the file is encrypted and when it is plain. -/
structure Cut where
  Mid : Type
  Found : Type
  Result : Type
  hook : Sys Result
  before : Sys Mid
  test : Sys (Bool × Found)
  encrypted : Mid → Found → Sys Result
  plain : Mid → Sys Result

/-- The test answers `b`, and the call is what that answer makes of it. -/
def Cut.Treats (c : Cut) (w : World) (b : Bool) : Prop :=
  ∃ s f w₀ w₁, c.before w = .ok (s, w₀) ∧ c.test w₀ = .ok ((b, f), w₁) ∧
    c.hook w = (if b then c.encrypted s f else c.plain s) w₁

/-- There is one answer. -/
theorem Cut.Treats.unique {c : Cut} {w : World} {x y : Bool} (hx : c.Treats w x)
    (hy : c.Treats w y) : x = y := by
  obtain ⟨s, f, w₀, w₁, hbefore, htest, -⟩ := hx
  obtain ⟨s', f', w₀', w₁', hbefore', htest', -⟩ := hy
  obtain ⟨-, rfl⟩ := Prod.mk.inj (Except.ok.inj (hbefore.symm.trans hbefore'))
  exact (Prod.mk.inj (Prod.mk.inj (Except.ok.inj (htest.symm.trans htest'))).1).1

/-- The hooks that shift or decrypt, with what they are asked for. -/
inductive Shifting where
  | read (count : Nat)
  | lseek (offset : Int) (whence : Whence)
  | lseek64 (offset : Int) (whence : Whence)
  | mmap (length : Nat) (prot : Prot) (flags : MapType) (offset : Int)
  | fread (size nmemb : Nat)

/-- The hooks that size, probe and convert. -/
inductive Sizing where
  | stat
  | lstat
  | fstat
  | openFile (flags : Flags)

/-- The test with which each decides whether the file is encrypted; a stream is named by
    its descriptor. -/
def Shifting.test (fd : Int) : Shifting → Sys Bool
  | .read _ | .lseek _ _ | .lseek64 _ _ | .mmap _ _ _ _ => do
      let pass ← passes_through fd
      pure (!pass)
  | .fread _ _ => do
      let type ← is_encrypted_by_stream fd
      pure (type != FILE_TYPE_NORMAL)

/-- The header that `open` sees in a file of a supported type. -/
def seen_header (dev : Device) (path : Path) : Sys (Option (List UInt8)) :=
  if dev.is_support_file_type_by_path path = 0 then pure none
  else do
    let fs ← access path
    if fs = 0 then probe_header path else pure none

def Sizing.test (dev : Device) (path : Path) (fd : Int) : Sizing → Sys Bool
  | .stat | .lstat => do
      let type ← is_encrypted_by_path path
      pure (type == FILE_TYPE_RIGHTS)
  | .fstat => do
      let type ← is_encrypted_by_fd fd
      pure (type == FILE_TYPE_RIGHTS)
  | .openFile _ => do
      let header ← seen_header dev path
      pure header.isSome

section Cuts

variable (dev : Device) (env : Env) (path : Path) (fd : Int)

/-- `lseek` and `lseek64` on a file that counts as encrypted. -/
def seek_behind (real : Int → Int → Whence → Sys Int) (offset : Int) (whence : Whence) :
    Sys Int := do
  let position ← real fd
    (if whence = .set then offset + (FILE_HEADER_POLL_SIZE : Nat) else offset) whence
  pure (position - (FILE_HEADER_POLL_SIZE : Nat))

/-- A test that finds nothing but its answer. -/
def answer (test : Sys Bool) : Sys (Bool × Unit) := do
  let b ← test
  pure (b, ())

theorem answer_ok {test : Sys Bool} {b : Bool} {w w' : World} (h : test w = .ok (b, w')) :
    answer test w = .ok ((b, ()), w') := bind_ok h

/-- `fread` on a file that counts as encrypted. -/
def fread_decrypted (size nmemb : Nat) : Sys (Nat × List UInt8) := do
  let offset ← ftell fd
  if offset < (FILE_HEADER_POLL_SIZE : Nat) then do
    let _ ← fseek fd (FILE_HEADER_POLL_SIZE : Nat)
    fread_pieces dev (size * nmemb) fd (offset + (FILE_HEADER_POLL_SIZE : Nat)).toNat
  else fread_pieces dev (size * nmemb) fd offset.toNat

/-- The hooks that shift or decrypt; what `read` does before its test is to ask for the state
    of the descriptor. -/
def Shifting.cut (a : Shifting) : Cut :=
  match a with
  | .read count =>
    { Mid := Option Stat, Found := Unit, Result := Int × List UInt8,
      hook := TeRead.read dev env fd count,
      before := do { let _ ← calloc; linker_fstat fd }, test := answer (a.test fd),
      encrypted := fun _ _ => read_decrypted dev fd count,
      plain := fun _ => linker_read fd count }
  | .lseek offset whence =>
    { Mid := Unit, Found := Unit, Result := Int, hook := TeSize.lseek env fd offset whence,
      before := pure (), test := answer (a.test fd),
      encrypted := fun _ _ => seek_behind fd linker_lseek offset whence,
      plain := fun _ => linker_lseek fd offset whence }
  | .lseek64 offset whence =>
    { Mid := Unit, Found := Unit, Result := Int, hook := TeSize.lseek64 env fd offset whence,
      before := pure (), test := answer (a.test fd),
      encrypted := fun _ _ => seek_behind fd linker_lseek64 offset whence,
      plain := fun _ => linker_lseek64 fd offset whence }
  | .mmap length prot flags offset =>
    { Mid := Unit, Found := Unit, Result := Option View,
      hook := TeMmap.mmap dev env length prot flags fd offset,
      before := pure (), test := answer (a.test fd),
      encrypted := fun _ _ =>
        if prot.read then do
          let st_size ← mmap_size fd
          (MmapPlan.less st_size).run dev length prot flags fd offset
        else linker_mmap length prot flags fd offset,
      plain := fun _ => linker_mmap length prot flags fd offset }
  | .fread size nmemb =>
    { Mid := Unit, Found := Unit, Result := Nat × List UInt8,
      hook := TeFread.fread dev env size nmemb fd,
      before := pure (), test := answer (a.test fd),
      encrypted := fun _ _ => fread_decrypted dev fd size nmemb,
      plain := fun _ => linker_fread_items size nmemb fd }

/-- The hooks that size, probe and convert. -/
def Sizing.cut (b : Sizing) : Cut :=
  match b with
  | .stat =>
    { Mid := Option Stat, Found := Unit, Result := Option Stat, hook := TeSize.stat env path,
      before := linker_stat path, test := answer (b.test dev path fd),
      encrypted := fun st _ => pure (st.map lessHeader), plain := pure }
  | .lstat =>
    { Mid := Option Stat, Found := Unit, Result := Option Stat, hook := TeSize.lstat env path,
      before := TeSize.linker_lstat path, test := answer (b.test dev path fd),
      encrypted := fun st _ => pure (st.map lessHeader), plain := pure }
  | .fstat =>
    { Mid := Option Stat, Found := Unit, Result := Option Stat, hook := TeSize.fstat env fd,
      before := linker_fstat fd, test := answer (b.test dev path fd),
      encrypted := fun st _ => pure (st.map lessHeader), plain := pure }
  | .openFile flags =>
    { Mid := Unit, Found := List UInt8, Result := Int, hook := open_file dev env path flags,
      before := pure (),
      test := do
        let header ← seen_header dev path
        pure (header.isSome, header.getD []),
      encrypted := fun _ header => do
        let fd ← linker_open path flags
        if fd > 0 then open_encrypted path flags header fd else pure fd,
      plain := fun _ =>
        if dev.is_support_file_type_by_path path = 0 then linker_open path flags
        else do
          let fd ← linker_open path flags
          if fd > 0 then open_plain dev path flags fd else pure fd }

end Cuts

/-! ## Each hook goes by its test -/

section GoesBy

variable {dev : Device} {env : Env} {w : World} {path : Path} {fd : Int} {i id : Nat} {x : Bool}
  (henv : env.Active) (hc : w.kern.host.Calm) (hname : w.kern.files.names path = some i)
  (hfind : w.kern.find fd = some id) (hreg : (w.kern.desc id).regular = true)

/-- A test of `passes_through` that has been answered. -/
theorem passes_answered {w₀ w₁ : World}
    (h : (do let pass ← passes_through fd; pure (!pass) : Sys Bool) w₀ = .ok (x, w₁)) :
    passes_through fd w₀ = .ok (!x, w₁) := by
  obtain ⟨pass, w₂, hpass, hpure⟩ := bind_inv h
  obtain ⟨rfl, rfl⟩ := pure_inv hpure
  rw [Bool.not_not]
  exact hpass

include henv

theorem seek_goes_by {real : Int → Int → Whence → Sys Int} {w₁ : World}
    (hpass : passes_through fd w = .ok (!x, w₁)) (offset : Int) (whence : Whence) :
    seek_by real env fd offset whence w =
      (if x then seek_behind fd real offset whence else real fd offset whence) w₁ := by
  rw [seek_by, hooked_active henv, bind_ok hpass]
  cases x with
  | true => rfl
  | false => rfl

theorem mmap_goes_by {w₁ : World} (hpass : passes_through fd w = .ok (!x, w₁)) (length : Nat)
    (prot : Prot) (flags : MapType) (offset : Int) :
    TeMmap.mmap dev env length prot flags fd offset w =
      (if x then
        if prot.read then do
          let st_size ← mmap_size fd
          (MmapPlan.less st_size).run dev length prot flags fd offset
        else linker_mmap length prot flags fd offset
      else linker_mmap length prot flags fd offset) w₁ := by
  rw [mmap_eq, hooked_active henv, mmap_plan, bind_assoc, bind_ok hpass]
  cases x with
  | false => rfl
  | true =>
      rw [if_neg (by decide), if_pos rfl]
      by_cases hread : prot.read = true
      · rw [if_pos hread, if_pos hread, bind_assoc]
        rfl
      · rw [if_neg hread, if_neg hread]
        rfl

theorem fread_goes_by {w₁ : World} {type : Nat}
    (htype : is_encrypted_by_stream fd w = .ok (type, w₁)) (size nmemb : Nat) :
    TeFread.fread dev env size nmemb fd w =
      (if type != FILE_TYPE_NORMAL then fread_decrypted dev fd size nmemb
        else linker_fread_items size nmemb fd) w₁ := by
  rw [TeFread.fread, hooked_active henv, bind_ok htype]
  by_cases hn : type = FILE_TYPE_NORMAL
  · rw [if_pos hn, hn]
    rfl
  · rw [if_neg hn, bne_iff_ne.mpr hn]
    rfl

include hc

include hfind hreg in
/-- **Shifting and decrypting** go by the test. -/
theorem Shifting.goes_by (a : Shifting)
    (htest : ∀ n, ∃ w', a.test fd { w with kern := w.kern.tock n } = .ok (x, w')) :
    (a.cut dev env fd).Treats w x := by
  obtain ⟨w₁, h₁⟩ : ∃ w', a.test fd w = .ok (x, w') := htest 0
  cases a with
  | read count =>
      obtain ⟨w₂, h₂⟩ := htest 2
      have hstat : linker_fstat fd { w with kern := w.kern.tock 1 } =
          .ok (some ⟨true, (w.kern.files.data (w.kern.desc id).inode).length⟩,
            { w with kern := w.kern.tock 2 }) := by
        apply linker_fstat_ok
        rw [Kernel.sysFstat_calm (k := w.kern.tock 1) hc hfind]
        show (some (Stat.mk (w.kern.desc id).regular _), _) = _
        rw [hreg]
        rfl
      have hrun : TeRead.read dev env fd count w =
          (if x then read_decrypted dev fd count else linker_read fd count) w₂ := by
        rw [TeRead.read, hooked_active henv, bind_ok (calloc_calm hc), if_pos rfl, bind_ok hstat]
        dsimp only
        rw [if_neg (by decide), bind_ok (passes_answered h₂)]
        cases x with
        | true => rfl
        | false => rfl
      exact ⟨_, (), _, _, (bind_ok (calloc_calm hc)).trans hstat, answer_ok h₂, hrun⟩
  | lseek offset whence =>
      exact ⟨(), (), _, _, rfl, answer_ok h₁, seek_goes_by henv (passes_answered h₁) offset whence⟩
  | lseek64 offset whence =>
      exact ⟨(), (), _, _, rfl, answer_ok h₁, seek_goes_by henv (passes_answered h₁) offset whence⟩
  | mmap length prot flags offset =>
      exact ⟨(), (), _, _, rfl, answer_ok h₁,
        mmap_goes_by henv (passes_answered h₁) length prot flags offset⟩
  | fread size nmemb =>
      obtain ⟨type, w₂, htype, hpure⟩ := bind_inv h₁
      obtain ⟨rfl, rfl⟩ := pure_inv hpure
      exact ⟨(), (), _, _, rfl, answer_ok h₁, fread_goes_by henv htype size nmemb⟩

omit henv hc in
/-- The three sizes: the real call, and then the probe. -/
theorem sized_goes_by {real : Sys (Option Stat)} {probe : Sys Nat} {w₀ w₁ : World} {st : Stat}
    (hreal : real w = .ok (some st, w₀))
    (hprobe : (do let type ← probe; pure (type == FILE_TYPE_RIGHTS) : Sys Bool) w₀
      = .ok (x, w₁)) :
    (do
      match (← real) with
      | none => pure none
      | some state => do
          let type ← probe
          pure (some (if type = FILE_TYPE_RIGHTS then lessHeader state else state)) :
        Sys (Option Stat)) w =
      (if x then pure (Option.map lessHeader (some st)) else pure (some st) :
        Sys (Option Stat)) w₁ := by
  obtain ⟨type, w₂, htype, hpure⟩ := bind_inv hprobe
  obtain ⟨rfl, rfl⟩ := pure_inv hpure
  rw [bind_ok hreal]
  dsimp only
  rw [bind_ok htype]
  by_cases hr : type = FILE_TYPE_RIGHTS
  · rw [if_pos hr, hr]
    rfl
  · rw [if_neg hr, beq_false_of_ne hr]
    rfl

include hname in
theorem open_goes_by {flags : Flags} {header : Option (List UInt8)} {w₁ : World}
    (hseen : seen_header dev path w = .ok (header, w₁)) :
    open_file dev env path flags w =
      (if header.isSome then do
        let fd ← linker_open path flags
        if fd > 0 then open_encrypted path flags (header.getD []) fd else pure fd
      else if dev.is_support_file_type_by_path path = 0 then linker_open path flags
      else do
        let fd ← linker_open path flags
        if fd > 0 then open_plain dev path flags fd else pure fd) w₁ := by
  rw [seen_header] at hseen
  rw [open_file, hooked_active henv]
  by_cases hsup : dev.is_support_file_type_by_path path = 0
  · rw [if_pos hsup] at hseen
    obtain ⟨rfl, rfl⟩ := pure_inv hseen
    rw [if_pos hsup, Option.isSome_none, if_neg (by decide), if_pos hsup]
  · have haccess : access path w = .ok (0, w) :=
      access_ok (w.kern.sysAccess_some (Kernel.answer_denies hc) hname)
    rw [if_neg hsup, bind_ok haccess, if_pos rfl] at hseen
    rw [if_neg hsup, if_neg hsup, open_supported, bind_ok haccess, if_pos rfl, bind_ok hseen]
    cases header with
    | none => rfl
    | some h => rfl

include hname hfind in
/-- **Sizing, probing and converting** go by the test. -/
theorem Sizing.goes_by (b : Sizing)
    (htest : ∀ n, ∃ w', b.test dev path fd { w with kern := w.kern.tock n } = .ok (x, w')) :
    (b.cut dev env path fd).Treats w x := by
  obtain ⟨w₁, h₁⟩ := htest 1
  cases b with
  | stat =>
      have hreal := linker_stat_calm hc hname
      refine ⟨_, (), _, _, hreal, answer_ok h₁, Eq.trans ?_ (sized_goes_by hreal h₁)⟩
      exact congrFun (hooked_active henv none (linker_stat path) _) w
  | lstat =>
      have hreal : TeSize.linker_lstat path w = _ := linker_stat_calm hc hname
      refine ⟨_, (), _, _, hreal, answer_ok h₁, Eq.trans ?_ (sized_goes_by hreal h₁)⟩
      exact congrFun (hooked_active henv none (TeSize.linker_lstat path) _) w
  | fstat =>
      have hreal : linker_fstat fd w = _ := linker_fstat_ok (Kernel.sysFstat_calm hc hfind)
      refine ⟨_, (), _, _, hreal, answer_ok h₁, Eq.trans ?_ (sized_goes_by hreal h₁)⟩
      exact congrFun (hooked_active henv none (linker_fstat fd) _) w
  | openFile flags =>
      obtain ⟨w₀, h₀⟩ : ∃ w', (Sizing.openFile flags).test dev path fd w = .ok (x, w') := htest 0
      obtain ⟨header, w₂, hseen, hpure⟩ := bind_inv h₀
      obtain ⟨rfl, rfl⟩ := pure_inv hpure
      exact ⟨(), header.getD [], _, _, rfl, bind_ok hseen, open_goes_by henv hc hname hseen⟩

end GoesBy

/-! ## The answers of the tests -/

/-- `open` finds a header exactly when the type says encrypted. -/
theorem isSome_header {h : List UInt8} (hlen : h.length = FILE_HEADER_POLL_SIZE)
    (rest : List UInt8) :
    (if HasHeader (h ++ rest) then some ((h ++ rest).take FILE_HEADER_POLL_SIZE)
      else none : Option (List UInt8)).isSome
      = (is_encrypted_by_file_header h == FILE_TYPE_RIGHTS) := by
  by_cases hr : is_encrypted_by_file_header h = FILE_TYPE_RIGHTS
  · rw [if_pos (hasHeader_append hlen hr rest), hr]
    rfl
  · rw [if_neg, beq_false_of_ne hr]
    · rfl
    · rintro ⟨-, hhead⟩
      rw [← hlen, List.take_left] at hhead
      exact hr hhead

/-- A supported file that is there is probed. -/
theorem sees {dev : Device} {w : World} {path : Path} {i : Nat} (hc : w.kern.host.Calm)
    (hname : w.kern.files.names path = some i)
    (hsup : dev.is_support_file_type_by_path path ≠ 0) :
    seen_header dev path w = probe_header path w := by
  rw [seen_header, if_neg hsup,
    bind_ok (access_ok (w.kern.sysAccess_some (Kernel.answer_denies hc) hname)), if_pos rfl]

section Classification

variable (dev : Device) {w : World} {path : Path} {fd : Int} {i id : Nat} {h rest : List UInt8}
  (hc : w.kern.host.Calm) (hname : w.kern.files.names path = some i)
  (hfind : w.kern.find fd = some id) (hinode : (w.kern.desc id).inode = i)
  (hreg : (w.kern.desc id).regular = true)
  (hacc : (w.kern.desc id).flags.acc.readable = true) (hnew : ¬ w.Tracked fd)
  (hdata : w.kern.files.data i = h ++ rest) (hlen : h.length = FILE_HEADER_POLL_SIZE)
include hc hname hfind hinode hreg hacc hnew hdata hlen

/-- With descriptor 0 in use the tests compare the stored type with two constants, and `open`
    does so for the paths that it supports. -/
theorem tests_inUse (h0 : w.kern.InUse 0) :
    (∀ a : Shifting, ∃ w', a.test fd w =
      .ok (is_encrypted_by_file_header h != FILE_TYPE_NORMAL, w')) ∧
    (∀ b : Sizing, ∃ w', b.test dev path fd w =
      .ok (is_encrypted_by_file_header h == FILE_TYPE_RIGHTS &&
        match b with
        | .openFile _ => dev.is_support_file_type_by_path path != 0
        | _ => true, w')) := by
  have htype : typeOf (w.kern.files.data i) = is_encrypted_by_file_header h := by
    rw [hdata]
    exact typeOf_header hlen rest
  have hbyfd := is_encrypted_by_fd_calm hfind hc hreg hacc h0
  rw [hinode, htype] at hbyfd
  obtain ⟨k₁, hbypath, -⟩ := is_encrypted_by_path_calm hc hname h0
  rw [htype] at hbypath
  obtain ⟨k₂, hbystream, -⟩ := is_encrypted_by_stream_calm hfind hc hreg hacc
  rw [hinode, htype] at hbystream
  have hpass := passes_through_untracked hnew hbyfd
  obtain ⟨k₃, hprobe, -⟩ := probe_calm hc hname (w.kern.freeFd_pos h0 _)
  constructor
  · intro a
    cases a with
    | fread size nmemb => exact ⟨_, by rw [Shifting.test, bind_ok hbystream]; rfl⟩
    | _ => exact ⟨_, by rw [Shifting.test, bind_ok hpass]; rfl⟩
  · intro b
    cases b with
    | fstat => exact ⟨_, by rw [Sizing.test, bind_ok hbyfd, Bool.and_true]; rfl⟩
    | openFile flags =>
        by_cases hsup : dev.is_support_file_type_by_path path = 0
        · have hseen : seen_header dev path w = .ok (none, w) := by
            rw [seen_header, if_pos hsup, pure_ok]
          rw [Sizing.test, bind_ok hseen, hsup, show ((0 : Int) != 0) = false from rfl,
            Bool.and_false]
          exact ⟨w, rfl⟩
        · have hseen := hprobe
          rw [hdata, ← sees hc hname hsup] at hseen
          rw [Sizing.test, bind_ok hseen, bne_iff_ne.mpr hsup, Bool.and_true]
          exact ⟨_, congrArg (fun c => Except.ok (c, _)) (isSome_header hlen rest)⟩
    | _ => exact ⟨_, by rw [Sizing.test, bind_ok hbypath, Bool.and_true]; rfl⟩

/-- With descriptor 0 free the tests that go through a new descriptor all say no; `fread`
    uses the descriptor of the stream. -/
theorem tests_free (hlow : w.kern.host.LowestFree) (h0 : ¬ w.kern.InUse 0) :
    (∀ a : Shifting, ∃ w', a.test fd w =
      .ok (match a with
        | .fread _ _ => is_encrypted_by_file_header h != FILE_TYPE_NORMAL
        | _ => false, w')) ∧
    (∀ b : Sizing, ∃ w', b.test dev path fd w = .ok (false, w')) := by
  obtain ⟨w₁, hbyfd⟩ := is_encrypted_by_fd_free hfind hc hlow h0
  obtain ⟨w₂, hbypath⟩ := is_encrypted_by_path_free hc hname hlow h0
  obtain ⟨k₂, hbystream, -⟩ := is_encrypted_by_stream_calm hfind hc hreg hacc
  rw [hinode, hdata, typeOf_header hlen rest] at hbystream
  have hpass := passes_through_untracked hnew hbyfd
  have hzero : ¬ w.kern.freeFd w.kern.answer.hint > 0 := by
    rw [show w.kern.answer.hint = 0 from hlow w.kern.tick, w.kern.freeFd_zero h0]
    decide
  obtain ⟨k₃, hprobe, -⟩ := probe_zero hc hname hzero
  constructor
  · intro a
    cases a with
    | fread size nmemb => exact ⟨_, by rw [Shifting.test, bind_ok hbystream]; rfl⟩
    | _ => exact ⟨_, by rw [Shifting.test, bind_ok hpass]; rfl⟩
  · intro b
    cases b with
    | fstat => exact ⟨_, by rw [Sizing.test, bind_ok hbyfd]; rfl⟩
    | openFile flags =>
        by_cases hsup : dev.is_support_file_type_by_path path = 0
        · have hseen : seen_header dev path w = .ok (none, w) := by
            rw [seen_header, if_pos hsup, pure_ok]
          exact ⟨w, by rw [Sizing.test, bind_ok hseen]; rfl⟩
        · have hseen := hprobe
          rw [← sees hc hname hsup] at hseen
          exact ⟨_, by rw [Sizing.test, bind_ok hseen]; rfl⟩
    | _ => exact ⟨_, by rw [Sizing.test, bind_ok hbypath]; rfl⟩

end Classification

/-! ## One classification -/

/-- **One classification.**  The two kinds of hooks treat a file alike, whatever they are
    called for, exactly when its header says normal (a signature that does not match counts
    as that), or says encrypted, `open` supports the path and descriptor 0 is in use. -/
theorem one_classification {dev : Device} {env : Env} {w : World} {path : Path} {fd : Int}
    {i id : Nat} {h rest : List UInt8} (henv : env.Active) (hc : w.kern.host.Calm)
    (hlow : w.kern.host.LowestFree) (hname : w.kern.files.names path = some i)
    (hfind : w.kern.find fd = some id) (hinode : (w.kern.desc id).inode = i)
    (hreg : (w.kern.desc id).regular = true)
    (hacc : (w.kern.desc id).flags.acc.readable = true) (hnew : ¬ w.Tracked fd)
    (hdata : w.kern.files.data i = h ++ rest) (hlen : h.length = FILE_HEADER_POLL_SIZE) :
    (∀ (a : Shifting) (b : Sizing), ∃ x, (a.cut dev env fd).Treats w x ∧
      (b.cut dev env path fd).Treats w x) ↔
    is_encrypted_by_file_header h = FILE_TYPE_NORMAL ∨
      is_encrypted_by_file_header h = FILE_TYPE_RIGHTS ∧
        dev.is_support_file_type_by_path path ≠ 0 ∧ w.kern.InUse 0 := by
  by_cases h0 : w.kern.InUse 0
  · have htests := fun n => tests_inUse dev (w := { w with kern := w.kern.tock n }) hc hname
      hfind hinode hreg hacc hnew hdata hlen h0
    have hshift : ∀ a : Shifting, (a.cut dev env fd).Treats w _ := fun a =>
      a.goes_by henv hc hfind hreg fun n => (htests n).1 a
    have hsize : ∀ b : Sizing, (b.cut dev env path fd).Treats w _ := fun b =>
      b.goes_by henv hc hname hfind fun n => (htests n).2 b
    constructor
    · intro hall
      by_cases hn : is_encrypted_by_file_header h = FILE_TYPE_NORMAL
      · exact .inl hn
      · obtain ⟨x, hread, hopen⟩ := hall (.read 0) (.openFile { acc := .rdonly })
        have hx := (hread.unique (hshift _)).symm.trans (hopen.unique (hsize _))
        rw [bne_iff_ne.mpr hn] at hx
        obtain ⟨hr, hsup⟩ := Bool.and_eq_true_iff.mp hx.symm
        exact .inr ⟨beq_iff_eq.mp hr, bne_iff_ne.mp hsup, h0⟩
    · intro hknown a b
      refine ⟨_, hshift a, ?_⟩
      have hb := hsize b
      rcases hknown with hn | ⟨hr, hsup, -⟩
      · rw [hn] at hb ⊢
        exact hb
      · rw [hr] at hb ⊢
        cases b with
        | openFile flags =>
            rw [bne_iff_ne.mpr hsup] at hb
            exact hb
        | _ => exact hb
  · have htests := fun n => tests_free dev (w := { w with kern := w.kern.tock n }) hc hname
      hfind hinode hreg hacc hnew hdata hlen hlow h0
    have hshift : ∀ a : Shifting, (a.cut dev env fd).Treats w _ := fun a =>
      a.goes_by henv hc hfind hreg fun n => (htests n).1 a
    have hsize : ∀ b : Sizing, (b.cut dev env path fd).Treats w false := fun b =>
      b.goes_by henv hc hname hfind fun n => (htests n).2 b
    constructor
    · intro hall
      obtain ⟨x, hread, hstat⟩ := hall (.fread 1 0) .stat
      have hx := (hread.unique (hshift _)).symm.trans (hstat.unique (hsize _))
      exact .inl (by simpa using hx)
    · intro hknown a b
      have hn : is_encrypted_by_file_header h = FILE_TYPE_NORMAL := by
        rcases hknown with hn | ⟨-, -, hused⟩
        · exact hn
        · exact absurd hused h0
      have ha := hshift a
      rw [hn] at ha
      refine ⟨false, ?_, hsize b⟩
      cases a with
      | _ => exact ha

theorem one_classification_newHeader :
    is_encrypted_by_file_header (newHeader none) = FILE_TYPE_RIGHTS ∧
    ∀ (a : Shifting) (b : Sizing), ∃ x,
      (a.cut aDevice activeEnv 3).Treats (aReader (newHeader none ++ [7])) x ∧
      (b.cut aDevice activeEnv Kernel.aName 3).Treats (aReader (newHeader none ++ [7])) x := by
  have hfind : (aReader (newHeader none ++ [7])).kern.find 3 = some 1 := rfl
  refine ⟨newHeader_rights none,
    (one_classification (i := 1) ⟨rfl, rfl, rfl⟩ (fun _ => ⟨rfl, rfl, rfl⟩)
    (fun _ => rfl) rfl hfind rfl rfl rfl (aReader_untracked _) (Kernel.oneDescriptor_data _ _ _)
    (newHeader_length none)).mpr (.inr ⟨newHeader_rights none, by decide, by decide⟩)⟩

/-- The header of a file with a type that is neither of the two. -/
def oddHeader : List UInt8 := memcpy (newHeader none) fileTypeAt (ushort 0xa2)

theorem oddHeader_length : oddHeader.length = FILE_HEADER_POLL_SIZE := by
  rw [oddHeader, memcpy_length, newHeader_length]

theorem oddHeader_type : is_encrypted_by_file_header oddHeader = 0xa2 := by
  refine is_encrypted_by_file_header_eq (by decide) ?_ ?_
  · have hslice : slice oddHeader signatureAt SIGNATURE_LENGTH
        = slice (newHeader none) signatureAt SIGNATURE_LENGTH :=
      memcpy_slice_before (by decide) (by rw [newHeader_length]; decide)
    by_contra hne
    rw [hslice] at hne
    have h := newHeader_rights none
    rw [is_encrypted_by_file_header, if_pos hne] at h
    cases h
  · exact memcpy_slice_self (by rw [newHeader_length]; decide)

/-- `read` decrypts the file with that header, `stat` reports its size as it is, and `open`
    takes it for one to convert. -/
theorem odd_type_splits :
    ((Shifting.read 16).cut aDevice activeEnv 3).Treats (aReader oddHeader) true ∧
    (Sizing.stat.cut aDevice activeEnv Kernel.aName 3).Treats (aReader oddHeader) false ∧
    ((Sizing.openFile { acc := .rdonly }).cut aDevice activeEnv Kernel.aName 3).Treats
      (aReader oddHeader) false ∧
    ¬ ∀ (a : Shifting) (b : Sizing), ∃ x, (a.cut aDevice activeEnv 3).Treats (aReader oddHeader) x ∧
      (b.cut aDevice activeEnv Kernel.aName 3).Treats (aReader oddHeader) x := by
  have henv : activeEnv.Active := ⟨rfl, rfl, rfl⟩
  have hc : (aReader oddHeader).kern.host.Calm := fun _ => ⟨rfl, rfl, rfl⟩
  have hname : (aReader oddHeader).kern.files.names Kernel.aName = some 1 := rfl
  have hfind : (aReader oddHeader).kern.find 3 = some 1 := rfl
  have h0 : (aReader oddHeader).kern.InUse 0 := by decide
  have hdata : (aReader oddHeader).kern.files.data 1 = oddHeader ++ [] := by
    rw [List.append_nil]
    exact Kernel.oneDescriptor_data _ _ _
  have htests := fun n => @tests_inUse aDevice { aReader oddHeader with
    kern := (aReader oddHeader).kern.tock n } Kernel.aName 3 1 1 oddHeader [] hc hname hfind rfl rfl
    rfl (aReader_untracked oddHeader) hdata oddHeader_length h0
  rw [oddHeader_type] at htests
  have hread : ((Shifting.read 16).cut aDevice activeEnv 3).Treats (aReader oddHeader) true :=
    Shifting.goes_by henv hc hfind rfl _ fun n => (htests n).1 _
  have hstat := Sizing.stat.goes_by henv hc hname hfind fun n => (htests n).2 _
  have hopen := (Sizing.openFile { acc := .rdonly }).goes_by henv hc hname hfind
    fun n => (htests n).2 _
  refine ⟨hread, hstat, hopen, fun hall => ?_⟩
  obtain ⟨x, hx, hx'⟩ := hall (.read 16) .stat
  have := (hx.unique hread).symm.trans (hx'.unique hstat)
  cases this

end TeClassify
