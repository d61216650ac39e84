import TransEncrypt.OverlayProofs
import TransEncrypt.BlockwiseProofs
import TransEncrypt.PosixProofs
import TransEncrypt.SyscallProofs
import TransEncrypt.HeaderProofs
import TransEncrypt.HoareProofs
import TransEncrypt.ProgramProofs
import TransEncrypt.DetectorProofs
import TransEncrypt.PlainProofs
import TransEncrypt.ReadProofs
import TransEncrypt.FreadProofs
import TransEncrypt.TransferProofs
import TransEncrypt.WriteHookProofs
import TransEncrypt.TornProofs
import TransEncrypt.WriteProofs
import TransEncrypt.ConversionProofs
import TransEncrypt.BarrenProofs
import TransEncrypt.RebuildProofs
import TransEncrypt.OpenProofs
import TransEncrypt.OnceProofs
import TransEncrypt.TableProofs
import TransEncrypt.SizeProofs
import TransEncrypt.SequentialProofs
import TransEncrypt.HeaderRunProofs
import TransEncrypt.OpenerProofs
import TransEncrypt.AloneProofs
import TransEncrypt.RaceProofs
import TransEncrypt.RoundTripProofs
import TransEncrypt.SeekProofs
import TransEncrypt.ShortReadProofs
import TransEncrypt.PositionalProofs
import TransEncrypt.TwinProofs
import TransEncrypt.CloseProofs
import TransEncrypt.AppendProofs
import TransEncrypt.RenameProofs
import TransEncrypt.DamageProofs
import TransEncrypt.HandshakeProofs
import TransEncrypt.StuckProofs
import TransEncrypt.CoveredProofs
import TransEncrypt.MmapProofs
import TransEncrypt.SubtractProofs
import TransEncrypt.ClassificationProofs
import TransEncrypt.SharedProofs
import TransEncrypt.FailureProofs
import TransEncrypt.GhostProofs
import TransEncrypt.AtomicProofs
import TransEncrypt.TraceProofs
import TransEncrypt.FtypeProofs
import TransEncrypt.SecurityProofs
import TransEncrypt.UsbProofs
import TransEncrypt.DaemonProofs
import TransEncrypt.BufferProofs
import TransEncrypt.RefinementProofs
import TransEncrypt.PlainSystemProofs
import TransEncrypt.AcquireProofs
import TransEncrypt.SessionProofs
import TransEncrypt.TransparentProofs
import TransEncrypt.GateProofs
import TransEncrypt.FirstCallProofs
import TransEncrypt.OutsiderProofs
import TransEncrypt.RelyProofs
import TransEncrypt.ThreadProofs
import TransEncrypt.ParallelProofs
import TransEncrypt.ProcessesProofs
import TransEncrypt.CopiesProofs
import TransEncrypt.ServerProofs
import TransEncrypt.CrashProofs
import TransEncrypt.KilledProofs
import TransEncrypt.SurvivalProofs
import TransEncrypt.LargeProofs
