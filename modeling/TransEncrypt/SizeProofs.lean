import TransEncrypt.OpenProofs
import TransEncrypt.ReadProofs

/-! # Sizes and seeking

    `stat`, `lstat` and `fstat` subtract the header from the size they report, `lseek` and
    `lseek64` count from behind it.  They decide by different tests whether there is a
    header at all.

    * `size_views`: the three sizes of an encrypted file agree exactly for a descriptor
      without the bit of `O_WRONLY`, when descriptor 0 is in use. -/

namespace TeSize

open Posix Overlay TeHeader Hoare TeProgram TeDetector TeRead TeOpen

/-! ## The hooks -/

/-- The size without the header. -/
def lessHeader (state : Stat) : Stat :=
  { state with st_size := state.st_size - (FILE_HEADER_POLL_SIZE : Nat) }

/-- There are no symbolic links here, so the real `lstat` is the real `stat`. -/
def linker_lstat (path : Path) : Sys (Option Stat) := linker_stat path

/-- `stat` and `lstat`: none when the call fails. -/
def stat_by_path (real : Path → Sys (Option Stat)) (env : Env) (path : Path) :
    Sys (Option Stat) :=
  hooked env none (real path) do
    match (← real path) with
    | none => pure none
    | some state => do
        let type ← is_encrypted_by_path path
        pure (some (if type = FILE_TYPE_RIGHTS then lessHeader state else state))

def stat (env : Env) (path : Path) : Sys (Option Stat) := stat_by_path linker_stat env path

def lstat (env : Env) (path : Path) : Sys (Option Stat) := stat_by_path linker_lstat env path

def fstat (env : Env) (fd : Int) : Sys (Option Stat) :=
  hooked env none (linker_fstat fd) do
    match (← linker_fstat fd) with
    | none => pure none
    | some state => do
        let type ← is_encrypted_by_fd fd
        pure (some (if type = FILE_TYPE_RIGHTS then lessHeader state else state))

/-- `lseek` and `lseek64`, over the real call of the same name. -/
def seek_by (real : Int → Int → Whence → Sys Int) (env : Env) (fd : Int) (offset : Int)
    (whence : Whence) : Sys Int :=
  hooked env (-1) (real fd offset whence) do
    if (← passes_through fd) then real fd offset whence
    else do
      let position ← real fd
        (if whence = .set then offset + (FILE_HEADER_POLL_SIZE : Nat) else offset) whence
      pure (position - (FILE_HEADER_POLL_SIZE : Nat))

def lseek (env : Env) (fd : Int) (offset : Int) (whence : Whence) : Sys Int :=
  seek_by linker_lseek env fd offset whence

def linker_lseek64 (fd : Int) (offset : Int) (whence : Whence) : Sys Int :=
  linker_lseek fd offset whence

def lseek64 (env : Env) (fd : Int) (offset : Int) (whence : Whence) : Sys Int :=
  seek_by linker_lseek64 env fd offset whence

/-- The three sizes of a file, one after the other. -/
def views (env : Env) (path : Path) (fd : Int) : Sys (Option Stat × Option Stat × Int) := do
  let a ← stat env path
  let b ← fstat env fd
  let c ← lseek env fd 0 .fin
  pure (a, b, c)

/-! ## Three sizes -/

section Views

variable {dev : Device} {env : Env} {w : World} {path : Path} {fd : Int} {i id : Nat}
  {H P : List UInt8} (henv : env.Active) (hc : w.kern.host.Calm)
include henv hc

/-- The size by path, with descriptor 0 in use. -/
theorem stat_calm (hname : w.kern.files.names path = some i) (h0 : w.kern.InUse 0) :
    ∃ k', stat env path w =
      .ok (some (if typeOf (w.kern.files.data i) = FILE_TYPE_RIGHTS then
          lessHeader ⟨true, (w.kern.files.data i).length⟩
        else ⟨true, (w.kern.files.data i).length⟩), { w with kern := k' }) ∧
      Kernel.Quiet w.kern k' := by
  obtain ⟨k', htype, hq⟩ :=
    is_encrypted_by_path_calm (w := { w with kern := w.kern.tock 1 }) hc hname h0
  refine ⟨k', ?_, (Kernel.Quiet.tock _ 1).trans hq⟩
  rw [stat, stat_by_path, hooked_active henv, bind_ok (linker_stat_calm hc hname)]
  show (is_encrypted_by_path path >>= fun type => _) _ = _
  rw [bind_ok htype]
  rfl

/-- The size by path, when the probe is handed descriptor 0. -/
theorem stat_free (hname : w.kern.files.names path = some i) (hlow : w.kern.host.LowestFree)
    (h0 : ¬ w.kern.InUse 0) :
    ∃ w', stat env path w = .ok (some ⟨true, (w.kern.files.data i).length⟩, w') := by
  obtain ⟨w', htype⟩ :=
    is_encrypted_by_path_free (w := { w with kern := w.kern.tock 1 }) hc hname hlow h0
  refine ⟨w', ?_⟩
  rw [stat, stat_by_path, hooked_active henv, bind_ok (linker_stat_calm hc hname)]
  show (is_encrypted_by_path path >>= fun type => _) _ = _
  rw [bind_ok htype]
  rfl

variable (hfind : w.kern.find fd = some id)
include hfind

/-- The size by descriptor, given what the probe says. -/
theorem fstat_calm {type : Nat} {w' : World}
    (htype : is_encrypted_by_fd fd { w with kern := w.kern.tock 1 } = .ok (type, w')) :
    fstat env fd w =
      .ok (some (if type = FILE_TYPE_RIGHTS then
          lessHeader ⟨(w.kern.desc id).regular,
            (w.kern.files.data (w.kern.desc id).inode).length⟩
        else ⟨(w.kern.desc id).regular,
          (w.kern.files.data (w.kern.desc id).inode).length⟩), w') := by
  rw [fstat, hooked_active henv, bind_ok (linker_fstat_ok (Kernel.sysFstat_calm hc hfind))]
  show (is_encrypted_by_fd fd >>= fun type => _) _ = _
  rw [bind_ok htype]
  rfl

/-- Seeking to the end of a file that counts as encrypted. -/
theorem lseek_end {n : Nat} (hreg : (w.kern.desc id).regular = true)
    (hpass : passes_through fd w = .ok (false, { w with kern := w.kern.tock n })) :
    ∃ w', lseek env fd 0 .fin w =
      .ok (((w.kern.files.data (w.kern.desc id).inode).length : Int)
        - (FILE_HEADER_POLL_SIZE : Nat), w') := by
  let size := (w.kern.files.data (w.kern.desc id).inode).length
  let k₁ := ((w.kern.tock n).tock 1).setPos id size
  have hseek : linker_lseek fd 0 .fin { w with kern := w.kern.tock n } =
      .ok ((size : Int), { w with kern := k₁ }) := by
    apply linker_lseek_ok
    rw [Kernel.sysLseek_calm (k := w.kern.tock n) hc hfind hreg, if_neg (by
      show ¬ ((size : Int) + 0 < 0)
      omega)]
    show ((size : Int) + 0, ((w.kern.tock n).tock 1).setPos id ((size : Int) + 0).toNat) = _
    rw [Int.add_zero, Int.toNat_natCast]
  refine ⟨{ w with kern := k₁ }, ?_⟩
  rw [lseek, seek_by, hooked_active henv, bind_ok hpass, if_neg (by decide), if_neg (by decide),
    bind_ok hseek]
  rfl

end Views

/-- A readable descriptor is not one with the bit of `O_WRONLY`. -/
theorem readable_iff (acc : AccMode) : acc.readable = true ↔ acc.wronlyBit = false := by
  cases acc <;> decide

/-- **The three sizes.**  For a descriptor that `open` gave, on a file that holds a header
    and the stored form of `P`: all three are the length of `P` exactly when the
    descriptor was opened without the bit of `O_WRONLY` and descriptor 0 is in use. -/
theorem size_views {dev : Device} {env : Env} {w₀ w : World} {path : Path} {flags : Flags}
    {fd : Int} {i : Nat} {H P : List UInt8} (henv : env.Active) (hc : w.kern.host.Calm)
    (hlow : w.kern.host.LowestFree)
    (hopen : open_file dev env path flags w₀ = .ok (fd, w)) (hfd : 0 ≤ fd)
    (hname : w.kern.files.names path = some i)
    (hdata : w.kern.files.data i = H ++ stored dev.aes P)
    (hlen : H.length = FILE_HEADER_POLL_SIZE)
    (hrights : is_encrypted_by_file_header H = FILE_TYPE_RIGHTS) :
    (∃ w', views env path fd w =
      .ok ((some ⟨true, P.length⟩, some ⟨true, P.length⟩, (P.length : Int)), w')) ↔
    flags.acc.wronlyBit = false ∧ w.kern.InUse 0 := by
  obtain ⟨i', id, pos, hnew⟩ := (open_inv hopen).newFd hfd
  obtain rfl : i = i' := Option.some.inj (hname.symm.trans hnew.name)
  have hsize : (w.kern.files.data i).length = 4096 + P.length := by
    rw [hdata, List.length_append, hlen, stored_length]
    rfl
  have htype : typeOf (w.kern.files.data i) = FILE_TYPE_RIGHTS := by
    rw [hdata, typeOf_header hlen]
    exact hrights
  have hless : lessHeader ⟨true, ((4096 + P.length : Nat) : Int)⟩ = ⟨true, P.length⟩ := by
    have hsub : ((4096 + P.length : Nat) : Int) - ((4096 : Nat) : Int) = P.length := by omega
    exact congrArg (Stat.mk true) hsub
  by_cases h0 : w.kern.InUse 0
  · obtain ⟨k₁, hstat, hq⟩ := stat_calm (w := w) henv hc hname h0
    rw [htype, if_pos rfl, hsize, hless] at hstat
    have hc₁ : k₁.host.Calm := by
      rw [hq.host]
      exact hc
    have hfind : k₁.find fd = some id := (hq.find fd).trans hnew.find
    have hdesc : k₁.desc id = { inode := i, pos := pos, flags := flags } :=
      (hq.desc_find hnew.find).trans hnew.desc
    have hsize₁ : (k₁.files.data (k₁.desc id).inode).length = 4096 + P.length := by
      rw [hdesc, hq.files]
      exact hsize
    have htype₁ : typeOf (k₁.files.data (k₁.desc id).inode) = FILE_TYPE_RIGHTS := by
      rw [hdesc, hq.files]
      exact htype
    by_cases hacc : flags.acc.wronlyBit = false
    · refine ⟨fun _ => ⟨hacc, h0⟩, fun _ => ?_⟩
      have hread : (k₁.desc id).flags.acc.readable = true := by
        rw [hdesc]
        exact (readable_iff _).mpr hacc
      have hreg : (k₁.desc id).regular = true := by rw [hdesc]
      have h0₁ : k₁.InUse 0 := hq.inUse.mpr h0
      have hfd' := is_encrypted_by_fd_calm (w := { w with kern := k₁.tock 1 }) hfind hc₁
        hreg hread h0₁
      have hfstat := fstat_calm (w := { w with kern := k₁ }) henv hc₁ hfind hfd'
      rw [show typeOf ((k₁.tock 1).files.data ((k₁.tock 1).desc id).inode) = FILE_TYPE_RIGHTS
        from htype₁, if_pos rfl, hreg, hsize₁, hless] at hfstat
      let k₂ := (k₁.tock 1).tock 3
      have hhead : HasHeader (k₁.files.data (k₁.desc id).inode) := by
        rw [hdesc, hq.files, hdata]
        exact hasHeader_append hlen hrights _
      obtain ⟨n, hpass⟩ := passes_through_encrypted (w := { w with kern := k₂ }) hc₁ hfind
        hreg hread h0₁ hhead
      obtain ⟨w', hseek⟩ := lseek_end (w := { w with kern := k₂ }) henv hc₁ hfind hreg hpass
      rw [show (k₂.files.data (k₂.desc id).inode).length = 4096 + P.length from hsize₁,
        show ((4096 + P.length : Nat) : Int) - (FILE_HEADER_POLL_SIZE : Nat) = P.length from by
          show ((4096 + P.length : Nat) : Int) - ((4096 : Nat) : Int) = _
          omega] at hseek
      exact ⟨w', by rw [views, bind_ok hstat, bind_ok hfstat, bind_ok hseek, pure_ok]⟩
    · -- the probe of the descriptor gives up
      refine ⟨?_, fun h => absurd h.1 hacc⟩
      rintro ⟨w', hrun⟩
      have hfd' := is_encrypted_by_fd_wronly (w := { w with kern := k₁.tock 1 }) hfind (by
        show (k₁.desc id).flags.acc.wronlyBit = true
        rw [hdesc]
        simpa using hacc)
      have hfstat := fstat_calm (w := { w with kern := k₁ }) henv hc₁ hfind hfd'
      rw [if_neg (by decide), hsize₁] at hfstat
      rw [views, bind_ok hstat, bind_ok hfstat] at hrun
      obtain ⟨c, w₂, -, h2⟩ := bind_inv hrun
      have heq := (Prod.mk.inj (Except.ok.inj h2)).1
      have hst := Option.some.inj (Prod.mk.inj (Prod.mk.inj heq).2).1
      have := congrArg Stat.st_size hst
      have : ((4096 + P.length : Nat) : Int) = P.length := this
      omega
  · -- the probe of the path is handed descriptor 0
    refine ⟨?_, fun h => absurd h.2 h0⟩
    rintro ⟨w', hrun⟩
    obtain ⟨w₁, hstat⟩ := stat_free (w := w) henv hc hname hlow h0
    rw [views, bind_ok hstat] at hrun
    obtain ⟨b, w₂, -, h2⟩ := bind_inv hrun
    obtain ⟨c, w₃, -, h4⟩ := bind_inv h2
    have heq := (Prod.mk.inj (Except.ok.inj h4)).1
    have hst := Option.some.inj (Prod.mk.inj heq).1
    have := congrArg Stat.st_size hst
    have : ((w.kern.files.data i).length : Int) = P.length := this
    omega

/-- An encrypted file of a block and four bytes, opened for reading. -/
theorem size_views_twenty : ∃ (w₀ : World) (fd : Int) (w w' : World),
    w₀.kern.files.data 1 = newHeader none ++ stored aDevice.aes (zeroed 20) ∧
    open_file aDevice activeEnv Kernel.aName { acc := .rdonly } w₀ = .ok (fd, w) ∧
      views activeEnv Kernel.aName fd w = .ok ((some ⟨true, 20⟩, some ⟨true, 20⟩, 20), w') := by
  let D := newHeader none ++ stored aDevice.aes (zeroed 20)
  let w₀ : World := ⟨Kernel.oneDescriptor D { acc := .rdonly } 0, []⟩
  have hc : w₀.kern.host.Calm := fun _ => ⟨rfl, rfl, rfl⟩
  have hdata₀ : w₀.kern.files.data 1 = D := Kernel.oneDescriptor_data _ _ _
  have hH : HasHeader (w₀.kern.files.data 1) := by
    rw [hdata₀]
    exact hasHeader_append (newHeader_length none) (newHeader_rights none) _
  obtain ⟨fd, id, w, hopen, hfd, hnew, hk, hfiles, -⟩ :=
    @open_encrypted_calm w₀ hc Kernel.aName 1 aDevice activeEnv { acc := .rdonly }
      ⟨rfl, rfl, rfl⟩ (by decide) (by decide) rfl hH rfl
  have hdata : w.kern.files.data 1 = D := by
    rw [hfiles.same rfl rfl, hdata₀]
  obtain ⟨w', hviews⟩ := (size_views (i := 1) (P := zeroed 20) ⟨rfl, rfl, rfl⟩
    (by rw [hk.host]; exact hc) (by rw [hk.host]; exact fun _ => rfl) hopen (Int.le_of_lt hfd)
    hnew.name hdata (newHeader_length none) (newHeader_rights none)).mpr
    ⟨rfl, hk.inUse (by decide)⟩
  exact ⟨w₀, fd, w, w', hdata₀, hopen, hviews⟩

/-- The empty encrypted file opened for writing only: `fstat` counts the header. -/
theorem fstat_counts_header : ∃ fd w w',
    open_file aDevice activeEnv Kernel.aName { acc := .wronly } encryptedFile = .ok (fd, w) ∧
      w.kern.files.data 1 = newHeader none ++ stored aDevice.aes [] ∧
      fstat activeEnv fd w = .ok (some ⟨true, 4096⟩, w') := by
  obtain ⟨fd, id, w, hopen, hfd, hnew, hc, hfiles, -⟩ :=
    @encryptedFile_open { acc := .wronly } rfl rfl
  have hdata : w.kern.files.data 1 = newHeader none := by
    rw [hfiles, encryptedFile_data]
  have hprobe := is_encrypted_by_fd_wronly (w := { w with kern := w.kern.tock 1 }) hnew.find (by
    show (w.kern.desc id).flags.acc.wronlyBit = true
    rw [hnew.desc]
    rfl)
  have henv : activeEnv.Active := ⟨rfl, rfl, rfl⟩
  have hfstat := fstat_calm henv hc hnew.find hprobe
  rw [if_neg (by decide), hnew.desc] at hfstat
  refine ⟨fd, w, { w with kern := w.kern.tock 1 }, hopen, ?_, ?_⟩
  · rw [hdata, stored_short _ (by decide), List.append_nil]
  · rw [hfstat, hdata, newHeader_length]
    rfl

/-- A process with the file `"f"` of the given content open for reading as descriptor 3,
    without an entry. -/
def aReader (data : List UInt8) : World where
  kern := Kernel.oneDescriptor data { acc := .rdonly } 0
  file_info_list := []

theorem aReader_untracked (data : List UInt8) : ¬ (aReader data).Tracked 3 := by
  rintro ⟨_, he, -⟩
  cases he

end TeSize
