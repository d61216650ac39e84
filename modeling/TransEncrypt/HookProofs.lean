import TransEncrypt.SessionProofs
import TransEncrypt.MmapProofs

/-! # One hook on one descriptor that is held

    What a hook returns and leaves when the host is calm and the descriptor is tracked, on a
    sealed file.  Only what uses the cursor asks where it is, and nothing is asked of the other
    descriptors: what the call means for them is left to whoever knows which of them share a
    cursor.

    * `read_held`, `write_held`, `lseek_held`, `fstat_held`, `mmap_held`, `dup_held`: the hooks
      that are given a descriptor;
    * `stat_missing`, `stat_known`, `open_runs`: the hooks that are given a path. -/

namespace TeSession

open Posix Overlay TeHeader TeStored Hoare TeProgram TeDetector TeRead TeWrite TeSize TeSeek
open TeRebuild TeOpen TeAcquire TeMmap Plain

variable {dev : Device} {env : Env} {w : World} {fd : Int} {i : Nat} {acc : AccMode} {id p : Nat}
  {P : List UInt8}

/-- The size without the header. -/
theorem lessHeader_length {H : List UInt8} (hH : RightsHeader H) (P : List UInt8) :
    lessHeader ⟨true, (H ++ TeHeader.stored dev.aes P).length⟩ = ⟨true, P.length⟩ := by
  have hlen : (H ++ TeHeader.stored dev.aes P).length = 4096 + P.length := by
    rw [List.length_append, hH.length, stored_length]
    rfl
  rw [hlen]
  have hsub : ((4096 + P.length : Nat) : Int) - ((4096 : Nat) : Int) = P.length := by omega
  exact congrArg (Stat.mk true) hsub

section Held

variable (henv : env.Active) (hc : w.kern.host.Calm) (ht : Tracks w fd i acc id)
  (hseal : Sealed dev w.kern.files i P)

section Sealed

include henv hc ht hseal

theorem read_held (hpos : (w.kern.desc id).pos = FILE_HEADER_POLL_SIZE + p)
    (hacc : acc.readable = true) (n : Nat) : ∃ t, TeRead.read dev env fd n w =
      .ok ((((PlainFile.mk P p).read n).length, (PlainFile.mk P p).read n), { w with
        kern := (w.kern.setPos id
          (FILE_HEADER_POLL_SIZE + ((PlainFile.mk P p).afterRead n).pos)).tock t }) := by
  obtain ⟨H, hH, hdata⟩ := hseal
  have hshows : Shows dev H w fd id ⟨P, p⟩ := by
    refine ⟨ht.find, ht.regular, ?_, ?_, .inl hpos⟩
    · rw [ht.acc_eq]
      exact hacc
    · rw [ht.inode]
      exact hdata
  exact read_probed henv hH hc (.inl ht.tracked) hshows n

omit henv hc hseal in
/-- The descriptor can be written through. -/
theorem Tracks.writes (hacc : acc.writable = true) : ∃ fi, Writes w fd id fi := by
  obtain ⟨fi, hfi, hname⟩ := ht.entry
  refine ⟨fi, ht.find, ht.regular, ?_, ht.noAppend, hfi, ?_⟩
  · rw [ht.acc_eq]
    exact hacc
  · rw [ht.inode]
    exact hname

omit hseal in
theorem write_empty (hacc : acc.writable = true) :
    TeWrite.write dev env fd [] w = .ok (0, { w with kern := w.kern.tock 1 }) := by
  obtain ⟨fi, hw⟩ := ht.writes hacc
  exact TeWrite.write_nil henv hc hw

theorem write_held (hpos : (w.kern.desc id).pos = FILE_HEADER_POLL_SIZE + p) {b : List UInt8}
    (hacc : acc.writable = true) (hb : b ≠ []) (hfits : WriteFits dev.aes P p b) :
    ∃ H k', RightsHeader H ∧
      TeWrite.write dev env fd b w = .ok ((b.length : Int), { w with kern := k' }) ∧
      Kernel.Quiet ((w.kern.setData i
        (H ++ TeHeader.stored dev.aes ((PlainFile.mk P p).write b).bytes)).setPos id
          (FILE_HEADER_POLL_SIZE + ((PlainFile.mk P p).write b).pos)) k' := by
  obtain ⟨fi, hw⟩ := ht.writes hacc
  obtain ⟨H, hH, hdata⟩ := hseal
  rw [← ht.inode] at hdata
  obtain ⟨k', hrun, hwrote⟩ := write_stored henv hc hw hH.length hdata hpos hb
  rw [(rewritten_eq_iff hb).mpr hfits] at hwrote
  have hquiet := hwrote.quiet
  rw [ht.inode] at hquiet
  exact ⟨H, k', hH, hrun, hquiet⟩

/-- A seek from the start or the end does not ask where the cursor is. -/
theorem lseek_held {o : Int} {whence : Whence}
    (hpos : whence = .cur → (w.kern.desc id).pos = FILE_HEADER_POLL_SIZE + p)
    (htarget : 0 ≤ target ⟨P, p⟩ o whence) :
    TeSize.lseek env fd o whence w = .ok (target ⟨P, p⟩ o whence, { w with
      kern := (w.kern.setPos id
        (FILE_HEADER_POLL_SIZE + (target ⟨P, p⟩ o whence).toNat)).tock 1 }) := by
  obtain ⟨H, hH, hdata⟩ := hseal
  let off := if whence = .set then o + (FILE_HEADER_POLL_SIZE : Nat) else o
  have hbase : w.kern.seekBase (w.kern.desc id) whence + off
      = (FILE_HEADER_POLL_SIZE : Nat) + target ⟨P, p⟩ o whence := by
    cases whence with
    | set =>
        show (0 : Int) + (o + (FILE_HEADER_POLL_SIZE : Nat)) = (FILE_HEADER_POLL_SIZE : Nat) + o
        omega
    | cur =>
        show ((w.kern.desc id).pos : Int) + o = (FILE_HEADER_POLL_SIZE : Nat) + ((p : Int) + o)
        rw [hpos rfl]
        omega
    | fin =>
        show ((w.kern.files.data (w.kern.desc id).inode).length : Int) + o
          = (FILE_HEADER_POLL_SIZE : Nat) + ((P.length : Int) + o)
        rw [ht.inode, hdata, List.length_append, hH.length, stored_length]
        omega
  have hseek : linker_lseek fd off whence w =
      .ok ((FILE_HEADER_POLL_SIZE : Nat) + target ⟨P, p⟩ o whence, { w with
        kern := (w.kern.setPos id
          (FILE_HEADER_POLL_SIZE + (target ⟨P, p⟩ o whence).toNat)).tock 1 }) := by
    apply linker_lseek_ok
    rw [Kernel.sysLseek_calm hc ht.find ht.regular, hbase, if_neg (by omega),
      Int.toNat_add (Int.natCast_nonneg _) htarget, Int.toNat_natCast]
    rfl
  have hback : ((FILE_HEADER_POLL_SIZE : Nat) : Int) + target ⟨P, p⟩ o whence
      - (FILE_HEADER_POLL_SIZE : Nat) = target ⟨P, p⟩ o whence := by omega
  rw [TeSize.lseek, seek_by, hooked_active henv, bind_ok ht.passes, if_neg (by decide),
    bind_ok hseek, hback]
  rfl

theorem fstat_held (h0 : w.kern.InUse 0) (hacc : acc.readable = true) :
    TeSize.fstat env fd w =
      .ok (some ⟨true, P.length⟩, { w with kern := w.kern.tock 4 }) := by
  have hprobe := is_encrypted_by_fd_calm (w := { w with kern := w.kern.tock 1 }) ht.find hc
    ht.regular (by rw [Kernel.tock_desc, ht.acc_eq]; exact hacc) h0
  have hstat := fstat_calm henv hc ht.find hprobe
  rw [show typeOf ((w.kern.tock 1).files.data ((w.kern.tock 1).desc id).inode) = FILE_TYPE_RIGHTS
    from by
      rw [Kernel.tock_desc, ht.inode]
      exact typeOf_hasHeader hseal.header, if_pos rfl, ht.inode, ht.regular] at hstat
  obtain ⟨H, hH, hdata⟩ := hseal
  rw [hdata, lessHeader_length hH] at hstat
  exact hstat

/-- A private mapping from the start of a text that is not empty. -/
theorem mmap_held {l : Nat} {prot : Prot} (hacc : acc.readable = true)
    (hread : prot.read = true) (hne : P ≠ []) (hsmall : P.length < 2147483648) :
    ∃ bytes, TeMmap.mmap dev env l prot .map_private fd ((0 : Nat) : Int) w =
      .ok (some ⟨bytes, none⟩, { w with kern := w.kern.tock 2 }) ∧ Mapped P 0 l bytes := by
  obtain ⟨H, hH, hdata⟩ := hseal
  rw [← ht.inode] at hdata
  have hlen := List.length_pos_iff.mpr hne
  have hfirst : First w.kern P := by
    refine ⟨Kernel.answer_fails hc, Kernel.answer_fails (k := w.kern.tock 1) hc, ?_⟩
    rw [toInt_small (by omega) (by omega)]
    omega
  have hroom : blocksOf P * 16 ≤ roomOf P 0 := by
    rw [blocksOf_small hsmall, roomOf_small hsmall, Nat.sub_zero, room, Nat.min_self, pageUp]
    omega
  have hacc' : (w.kern.desc id).flags.acc.readable = true := by
    rw [ht.acc_eq]
    exact hacc
  have hrun := mmap_first (l := l) henv ht.find ht.regular hacc' hH.length hdata ht.passes hread
    (Nat.zero_mod 4096) hfirst
  rw [if_pos hroom] at hrun
  exact ⟨_, hrun, (mapped_decrypted dev.aes (Nat.zero_mod 16) hroom).mpr
    (fits_start hsmall dev.aes)⟩

end Sealed

include henv hc ht

/-- The copy is a new descriptor on the same description, with an entry of its own. -/
theorem dup_held (h0 : w.kern.InUse 0) : ∃ nfd fi k', TeOpen.dup env fd w =
      .ok (nfd, ⟨k', w.file_info_list ++ [⟨nfd, fi.file_path, fi.origin⟩]⟩) ∧ 0 < nfd ∧
    Kernel.Gained w.kern nfd id k' ∧ k'.files = w.kern.files ∧ k'.desc = w.kern.desc ∧
    k'.nextDesc = w.kern.nextDesc ∧
    w.file_info_list.find? (fun e => e.file_descriptor = fd) = some fi := by
  obtain ⟨fi, hfi, -⟩ := ht.entry
  exact ⟨_, fi, _, dup_calm henv hc ht.find hfi h0, w.kern.freeFd_pos h0 _,
    ⟨w.kern.freeFd_not_inUse _, w.kern.freeFd_nonneg _, rfl, fun _ _ => rfl, rfl⟩,
    rfl, rfl, rfl, hfi⟩

end Held

/-! ## Sizes by path -/

section Paths

variable {S : Scope dev} {s : PlainSystem} {path : Path} (henv : env.Active)
  (hc : w.kern.host.Calm) (hm : Mirrors S w.kern.files s)
include henv hc hm

theorem stat_missing (hpath : S.In path) (hname : s.names path = none) :
    TeSize.stat env path w = .ok (none, { w with kern := w.kern.tock 1 }) := by
  have hstat : linker_stat path w = .ok (none, { w with kern := w.kern.tock 1 }) := by
    apply linker_stat_ok
    rw [Kernel.sysStat_calm hc, (FileStore.content_eq_none _).mpr (hm.unknown hpath hname)]
    rfl
  rw [TeSize.stat, stat_by_path, hooked_active henv, bind_ok hstat]
  rfl

theorem stat_known (h0 : w.kern.InUse 0) {i : Nat} (hname : s.names path = some i) : ∃ k',
    TeSize.stat env path w =
      .ok (some ⟨true, (s.bytes i).length⟩, { w with kern := k' }) ∧
    Kernel.Quiet w.kern k' := by
  obtain ⟨-, hname'⟩ := hm.known hname
  obtain ⟨k', hstat, hquiet⟩ := stat_calm henv hc hname' h0
  have hsize : (if typeOf (w.kern.files.data i) = FILE_TYPE_RIGHTS then
      lessHeader ⟨true, (w.kern.files.data i).length⟩
      else ⟨true, (w.kern.files.data i).length⟩) = (⟨true, (s.bytes i).length⟩ : Stat) := by
    rcases hm.content hname with hseal | hplain
    · rw [if_pos (typeOf_hasHeader hseal.header)]
      obtain ⟨H, hH, hdata⟩ := hseal
      rw [hdata]
      exact lessHeader_length hH _
    · rw [hplain.data, if_neg hplain.normal]
  rw [hsize] at hstat
  exact ⟨k', hstat, hquiet⟩

end Paths

/-! ## Opening a file -/

/-- What the hooked `open` of a path does: a file that is there is opened, and converted if it
    was plain; one that is not there is created; or nothing happens. -/
inductive Opens (S : Scope dev) (w : World) (s : PlainSystem) (path : Path) (flags : Flags)
    (fd : Int) (w' : World) : Prop where
  | found {i : Nat} : s.names path = some i → Acquired w w' path flags fd i →
      (∀ {p j}, w.kern.files.names p = some j → w'.kern.files.names p = some j) →
      Mirrors S w'.kern.files s → Sealed dev w'.kern.files i (s.bytes i) →
      Carries dev w.kern.files s w'.kern.files s → Opens S w s path flags fd w'
  | created : s.names path = none → w.kern.files.names path = none → flags.creat = true →
      Acquired w w' path flags fd w.kern.files.next →
      w'.kern.files = (w.kern.files.create path).store w.kern.files.next
        (newHeader dev.get_process_name) → Opens S w s path flags fd w'
  | absent : s.names path = none → flags.creat = false → fd = -1 →
      w' = { w with kern := w.kern.tock 1 } → Opens S w s path flags fd w'

theorem open_runs {S : Scope dev} {s : PlainSystem} {path : Path} {flags : Flags}
    (henv : env.Active) (hc : w.kern.host.Calm) (hm : Mirrors S w.kern.files s)
    (h0 : w.kern.InUse 0) (hpath : S.In path) (ht : flags.trunc = false)
    (happ : flags.append = false) (hx : s.names path ≠ none → (flags.creat && flags.excl) = false)
    (hacc : s.names path = none → flags.creat = true → flags.acc.writable = true) :
    ∃ fd w', open_file dev env path flags w = .ok (fd, w') ∧ Opens S w s path flags fd w' := by
  have hsup := S.supported hpath
  cases hname : s.names path with
  | some i =>
      obtain ⟨-, hname'⟩ := hm.known hname
      have hx := hx (by rw [hname]; exact Option.some_ne_none i)
      rcases hm.content hname with hseal | hplain
      · -- the file has a header
        obtain ⟨fd, w', hrun, hacq, hfiles⟩ :=
          acquire_encrypted henv hc h0 hsup (S.fits hpath) hname' hseal.header hx ht happ
        refine ⟨fd, w', hrun, .found hname hacq ?_ ?_ ?_ (.same hfiles rfl rfl)⟩
        all_goals rw [hfiles]
        · exact fun hn => hn
        · exact hm
        · exact hseal
      · -- it is converted
        have hlen : (w.kern.files.data i).length = (s.bytes i).length := by rw [hplain.data]
        obtain ⟨fd, w', hrun, hacq, hfiles⟩ :=
          acquire_plain henv hc h0 hsup (S.fits hpath) (S.named hpath) hname'
            (hm.siblings hpath) hplain.noHeader (by rw [hlen]; exact hplain.nonempty)
            (by rw [hlen]; exact hplain.small) hx ht
        rw [hplain.data] at hfiles
        have hmirrors := hm.stored (i := i) (P := s.bytes i) (newHeader_rightsHeader dev)
          (PlainSystem.used_of_name hname)
        rw [s.store_same] at hmirrors
        refine ⟨fd, w', hrun, .found hname hacq ?_ ?_ ?_
          (.stored (newHeader_rightsHeader dev) hfiles rfl (by rw [s.store_same]))⟩
        all_goals rw [hfiles]
        · exact fun hn => hn
        · exact hmirrors
        · exact sealed_store dev _ i (newHeader_rightsHeader dev) _
  | none =>
      have hnone := hm.unknown hpath hname
      by_cases hcr : flags.creat = true
      · -- it is created
        obtain ⟨fd, w', hrun, hacq, hfiles⟩ := acquire_new henv hc h0 hsup (S.fits hpath) hnone
          hcr (S.common hpath) (hacc hname hcr)
        exact ⟨fd, w', hrun, .created hname hnone hcr hacq hfiles⟩
      · have hcr : flags.creat = false := by simpa using hcr
        refine ⟨-1, { w with kern := w.kern.tock 1 }, ?_, .absent hname hcr rfl rfl⟩
        rw [open_active henv hsup, open_supported,
          bind_ok (access_ok (w.kern.sysAccess_none hnone)), if_neg (by decide),
          bind_ok (pure_ok _ _),
          bind_ok (linker_open_ok (Kernel.sysOpen_absent hc hnone hcr)), if_neg (by decide)]
        rfl

end TeSession
