import TransEncrypt.PlainProofs
import TransEncrypt.TornProofs

/-! # The hooked write on a calm host — at any position of a stored file

    Without failures the two parts of a write join into one overlay from the block
    boundary before the cursor on.

    * `write_raw`: the bytes a hooked write leaves, whatever the file holds;
    * `write_stored`: behind a header, on a stored plain file, they are `rewritten`;
    * `write_random`: which is the stored form of the new plain file exactly when the
      write fits. -/

namespace TeWrite

open Posix Overlay Blockwise TeHeader Hoare TeProgram Plain TeStored TeTorn

/-! ## What it leaves -/

/-- Descriptor `fd`, with description `id`, is open for writing in place on a regular
    file, and the table entry found for it is `fi`, whose path denotes that file. -/
structure Writes (w : World) (fd : Int) (id : Nat) (fi : FileInfo) : Prop where
  find : w.kern.find fd = some id
  regular : (w.kern.desc id).regular = true
  writable : (w.kern.desc id).flags.acc.writable = true
  noAppend : (w.kern.desc id).flags.append = false
  query : w.file_info_list.find? (fun e => e.file_descriptor = fd) = some fi
  name : w.kern.files.names fi.file_path = some (w.kern.desc id).inode

section Raw

variable {dev : Device} {env : Env} {w : World} {fd : Int} {id : Nat} {fi : FileInfo}

/-- The raw effect of a write of `b` at the raw offset `off` on the bytes `D`. -/
def rawWrite (aes : AES) (D : List UInt8) (off : Nat) (b : List UInt8) : List UInt8 :=
  overlay 0 D (off / 16 * 16) (stored aes (prefixOf D off ++ b))

/-- When the recorded path denotes the file itself, prefix and rest are one overlay. -/
theorem torn_raw (aes : AES) (D : List UInt8) (off : Nat) (b : List UInt8) :
    torn aes false D (slice D (off / 16 * 16) (off % 16)) off b (off % 16) b.length
      = rawWrite aes D off b := by
  refine torn_in_place aes D ?_ b
  rw [slice_length]
  exact Nat.min_le_left _ _

/-- A hooked write of no bytes is passed on, and nothing happens. -/
theorem write_nil (henv : env.Active) (hc : w.kern.host.Calm)
    (hw : Writes w fd id fi) :
    write dev env fd [] w = .ok (0, { w with kern := w.kern.tock 1 }) := by
  have hwrite : linker_write fd [] w = .ok (0, { w with kern := w.kern.tock 1 }) := by
    apply linker_write_ok
    rw [Kernel.sysWrite_nil hc hw.find, hw.writable]
    rfl
  rw [write, hooked_active henv, if_neg (by decide), hwrite]

/-- **The raw effect.**  Whatever the file holds: the write goes back to a block
    boundary and encrypts what lies before the cursor a second time. -/
theorem write_raw (henv : env.Active) (hc : w.kern.host.Calm) (hw : Writes w fd id fi)
    {b : List UInt8} (hb : b ≠ []) :
    ∃ k', write dev env fd b w = .ok ((b.length : Int), { w with kern := k' }) ∧
      Wrote w.kern k' id
        (rawWrite dev.aes (w.kern.files.data (w.kern.desc id).inode) (w.kern.desc id).pos b)
        ((w.kern.desc id).pos + b.length) := by
  obtain ⟨k', hrun, hwrote⟩ := write_whole dev henv hw.find hw.regular hc hw.writable hw.query hb
  have hne : b.length ≠ 0 := fun h => hb (List.length_eq_zero_iff.mp h)
  have hfetched := fetched_named (k := w.kern.tock 2) hc hw.name (w.kern.desc id).pos
  rw [hw.noAppend, hfetched, tornPos, if_neg hne] at hwrote
  rw [← torn_raw]
  exact ⟨k', hrun, hwrote⟩

/-- Behind a header the raw effect is the effect on the stored bytes. -/
theorem rawWrite_stored (aes : AES) {H : List UInt8} (hH : H.length = FILE_HEADER_POLL_SIZE)
    (P : List UInt8) (p : Nat) (b : List UInt8) :
    rawWrite aes (H ++ stored aes P) (FILE_HEADER_POLL_SIZE + p) b
      = H ++ rewritten aes P p b := by
  have hH' : H.length = 4096 := hH
  have hmod : (FILE_HEADER_POLL_SIZE + p) % 16 = p % 16 := header_mod p
  have hdiv : (FILE_HEADER_POLL_SIZE + p) / 16 * 16 = H.length + p / 16 * 16 := by
    show (4096 + p) / 16 * 16 = _
    omega
  have hpre : prefixOf (H ++ stored aes P) (FILE_HEADER_POLL_SIZE + p)
      = prefixOf (stored aes P) p := by
    rw [prefixOf, prefixOf, hmod, hdiv, slice_append_left]
  rw [rawWrite, hpre, hdiv, overlay_append_left]
  rfl

variable {H P : List UInt8} {p : Nat}

/-- A hooked write into a stored plain file. -/
theorem write_stored (henv : env.Active) (hc : w.kern.host.Calm) (hw : Writes w fd id fi)
    (hH : H.length = FILE_HEADER_POLL_SIZE)
    (hdata : w.kern.files.data (w.kern.desc id).inode = H ++ stored dev.aes P)
    (hpos : (w.kern.desc id).pos = FILE_HEADER_POLL_SIZE + p)
    {b : List UInt8} (hb : b ≠ []) :
    ∃ k', write dev env fd b w = .ok ((b.length : Int), { w with kern := k' }) ∧
      Wrote w.kern k' id (H ++ rewritten dev.aes P p b)
        (FILE_HEADER_POLL_SIZE + (p + b.length)) := by
  obtain ⟨k', hrun, hwrote⟩ := @write_raw dev env w fd id fi henv hc hw b hb
  rw [hdata, hpos, rawWrite_stored dev.aes hH, Nat.add_assoc] at hwrote
  exact ⟨k', hrun, hwrote⟩

end Raw

/-! ## Writing at any position -/

/-- **Random access.**  On a file holding a header and the stored form of `P`, with the
    cursor of a tracked descriptor at the plain position `p`, a hooked write of `b`
    leaves the stored form of what POSIX makes of `P` exactly when it fits. -/
theorem write_random {dev : Device} {env : Env} {w : World} {fd : Int} {id : Nat}
    {fi : FileInfo} {H P b : List UInt8} {p : Nat} (henv : env.Active)
    (hc : w.kern.host.Calm) (hw : Writes w fd id fi)
    (hH : H.length = FILE_HEADER_POLL_SIZE)
    (hdata : w.kern.files.data (w.kern.desc id).inode = H ++ stored dev.aes P)
    (hpos : (w.kern.desc id).pos = FILE_HEADER_POLL_SIZE + p) (hb : b ≠ []) :
    ∃ w', write dev env fd b w = .ok ((b.length : Int), w') ∧
      (w'.kern.files.data (w.kern.desc id).inode
          = H ++ stored dev.aes (PlainFile.write ⟨P, p⟩ b).bytes
        ↔ WriteFits dev.aes P p b) := by
  obtain ⟨k', hrun, hwrote⟩ := write_stored henv hc hw hH hdata hpos hb
  refine ⟨_, hrun, ?_⟩
  show k'.files.data (w.kern.desc id).inode = _ ↔ _
  rw [hwrote.files, FileStore.store_data_self, ← rewritten_eq_iff hb]
  exact List.append_right_inj H

/-- The file `"f"` open for reading and writing as descriptor 3, with its entry. -/
def openForWriting (D : List UInt8) (pos : Nat) : World where
  kern := Kernel.oneDescriptor D { acc := .rdwr } pos
  file_info_list := [⟨3, Kernel.aName, some 1⟩]

theorem openForWriting_writes (D : List UInt8) (pos : Nat) :
    Writes (openForWriting D pos) 3 1 ⟨3, Kernel.aName, some 1⟩ :=
  ⟨rfl, rfl, rfl, rfl, rfl, rfl⟩

/-- Two bytes in the middle of five. -/
theorem write_random_tail :
    ∃ w', write aDevice activeEnv 3 [7, 7]
        (openForWriting (newHeader none ++ stored zeroBlockAes (zeroed 5)) 4098) = .ok (2, w') ∧
      w'.kern.files.data 1 = newHeader none ++ stored zeroBlockAes [0, 0, 7, 7, 0] := by
  obtain ⟨w', hrun, hiff⟩ := @write_random aDevice activeEnv
    (openForWriting (newHeader none ++ stored zeroBlockAes (zeroed 5)) 4098) 3 1
    ⟨3, Kernel.aName, some 1⟩ (newHeader none) (zeroed 5) [7, 7] 2 ⟨rfl, rfl, rfl⟩
    (fun _ => ⟨rfl, rfl, rfl⟩) (openForWriting_writes _ _) (newHeader_length none) rfl rfl
    (List.cons_ne_nil _ _)
  exact ⟨w', hrun, hiff.mpr (writeFits_of_clean (by decide))⟩

/-- One byte behind a gap of one block, in an empty encrypted file: the gap is left as
    zeros and does not decrypt to zeros. -/
theorem write_gap_stays_plain :
    ∃ w', write aDevice activeEnv 3 [1] (openForWriting (newHeader none) 4112) = .ok (1, w') ∧
      w'.kern.files.data 1
        ≠ newHeader none ++ stored zeroBlockAes (PlainFile.write ⟨[], 16⟩ [1]).bytes := by
  have hdata : (openForWriting (newHeader none) 4112).kern.files.data 1
      = newHeader none ++ stored zeroBlockAes [] := by
    rw [stored_short zeroBlockAes (P := []) (by decide), List.append_nil]
    exact Kernel.oneDescriptor_data (newHeader none) { acc := .rdwr } 4112
  obtain ⟨k', hrun, hwrote⟩ := @write_stored aDevice activeEnv
    (openForWriting (newHeader none) 4112) 3 1 ⟨3, Kernel.aName, some 1⟩ (newHeader none) [] 16
    ⟨rfl, rfl, rfl⟩ (fun _ => ⟨rfl, rfl, rfl⟩) (openForWriting_writes _ _)
    (newHeader_length none) hdata rfl [1] (List.cons_ne_nil _ _)
  refine ⟨_, hrun, ?_⟩
  show k'.files.data 1 ≠ _
  rw [hwrote.files]
  intro h
  have hbytes : rewritten zeroBlockAes [] 16 [1]
      = stored zeroBlockAes (PlainFile.write ⟨[], 16⟩ [1]).bytes :=
    List.append_cancel_left ((FileStore.store_data_self _ 1 _).symm.trans h)
  exact absurd hbytes (by decide)

end TeWrite
