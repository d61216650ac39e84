import TransEncrypt.SequentialProofs

/-! # Converting a file and reading it back

    The conversion with one buffer, the size that is shown afterwards, and what a new
    descriptor reads: together they give back the content that was converted. -/

namespace TeRoundTrip

open Posix Overlay TeHeader Hoare TeProgram TeDetector Plain TeRead TeWorker TeRebuild TeOpen
open TeSize TeSequential

/-- The conversion of a small file, run under a calm host. -/
theorem rebuild_small_run {dev : Device} {w : World} {path : Path} {i : Nat} {C : List UInt8}
    (hc : w.kern.host.Calm) (h0 : w.kern.InUse 0) (hpath : path ≠ [])
    (hname : w.kern.files.names path = some i) (hdata : w.kern.files.data i = C)
    (hn : 0 < C.length) (hsmall : C.length ≤ 4096 * THREADS_COUNT) :
    ∃ k', rebuild_file_struct dev path C.length w = .ok (1, { w with kern := k' }) ∧
      Kernel.Quiet (w.kern.setData i (converted dev C)) k' := by
  rw [rebuild_small hpath hn hsmall]
  exact rebuild_buffer_calm hname hdata hc (w.kern.freeFd_pos h0 _)

/-- **The round trip.**  A plain file of 1 to 16384 bytes is converted, and holds a header
    of the type `FILE_TYPE_RIGHTS` and the stored form of its content; the size shown is
    that of the content, and a new descriptor reads it in pieces of any length. -/
theorem round_trip {dev : Device} {env : Env} {w : World} {path : Path} {i : Nat}
    {C : List UInt8} (henv : env.Active) (hc : w.kern.host.Calm) (h0 : w.kern.InUse 0)
    (hsup : dev.is_support_file_type_by_path path ≠ 0) (hpath : path ≠ [])
    (hname : w.kern.files.names path = some i) (hdata : w.kern.files.data i = C)
    (hn : 1 ≤ C.length) (hsmall : C.length ≤ 16384) :
    is_encrypted_by_file_header (newHeader dev.get_process_name) = FILE_TYPE_RIGHTS ∧
    ∃ w₁, rebuild_file_struct dev path C.length w = .ok (1, w₁) ∧
      w₁.kern.files.content path
        = some (newHeader dev.get_process_name ++ stored dev.aes C) ∧
      (∃ w₂, stat env path w₁ = .ok (some ⟨true, C.length⟩, w₂)) ∧
      ∃ fd w₂, open_file dev env path { acc := .rdonly } w₁ = .ok (fd, w₂) ∧ 0 < fd ∧
        ∀ ns, ∃ w₃, read_all dev env fd ns w₂ =
            .ok ((PlainFile.reads ⟨C, 0⟩ ns).map (fun b => ((b.length : Int), b)), w₃) ∧
          (PlainFile.reads ⟨C, 0⟩ ns).flatten = C.take ns.sum := by
  obtain ⟨k', hrun, hq⟩ : ∃ k', rebuild_file_struct dev path C.length w =
      .ok (1, { w with kern := k' }) ∧ Kernel.Quiet (w.kern.setData i (converted dev C)) k' :=
    rebuild_small_run hc h0 hpath hname hdata hn hsmall
  let w₁ : World := { w with kern := k' }
  have hH : RightsHeader (newHeader dev.get_process_name) :=
    ⟨newHeader_length _, newHeader_rights _⟩
  have hc₁ : w₁.kern.host.Calm := by
    show k'.host.Calm
    rw [hq.host]
    exact hc
  have h0₁ : w₁.kern.InUse 0 := hq.inUse.mpr h0
  have hname₁ : w₁.kern.files.names path = some i := by
    show k'.files.names path = some i
    rw [hq.files]
    exact hname
  have hdata₁ : w₁.kern.files.data i = newHeader dev.get_process_name ++ stored dev.aes C := by
    show k'.files.data i = _
    rw [hq.files]
    exact FileStore.store_data_self ..
  obtain ⟨fd, w₂, hopen, hfd, hread⟩ := reread_stored henv hc₁ h0₁ hH hname₁ hdata₁ hsup
  refine ⟨newHeader_rights _, w₁, hrun, ?_, stat_stored henv hc₁ h0₁ hH hname₁ hdata₁, fd, w₂,
    hopen, hfd, fun ns => ?_⟩
  · rw [FileStore.content_of_names _ hname₁, hdata₁]
  · obtain ⟨w₃, hrun₃⟩ := hread ns
    exact ⟨w₃, hrun₃, PlainFile.reads_flatten ns _⟩

/-- Twenty bytes, read back in three pieces. -/
theorem round_trip_twenty : ∃ w₁ fd w₂ w₃,
    rebuild_file_struct aDevice Kernel.aName 20 (sevens 20) = .ok (1, w₁) ∧
      open_file aDevice activeEnv Kernel.aName { acc := .rdonly } w₁ = .ok (fd, w₂) ∧
      read_all aDevice activeEnv fd [3, 15, 9] w₂ =
        .ok ([(3, List.replicate 3 7), (15, List.replicate 15 7), (2, [7, 7])], w₃) := by
  have hc : (sevens 20).kern.host.Calm := fun _ => ⟨rfl, rfl, rfl⟩
  obtain ⟨-, w₁, hrun, -, -, fd, w₂, hopen, -, hread⟩ := @round_trip aDevice
    activeEnv (sevens 20) Kernel.aName 1 (List.replicate 20 7) ⟨rfl, rfl, rfl⟩ hc
    (by decide) (by decide)
    (List.cons_ne_nil _ _) rfl (Kernel.oneDescriptor_data _ _ _) (by decide) (by decide)
  obtain ⟨w₃, hrun₃, -⟩ := hread [3, 15, 9]
  exact ⟨w₁, fd, w₂, w₃, hrun, hopen, hrun₃⟩

end TeRoundTrip
