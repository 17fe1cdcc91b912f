import Retrace.Ctl.Proofs.VerifyProofs
import Retrace.Journal.Proofs.CrashProofs
import Retrace.Journal.Proofs.RetentionProofs
import Retrace.Daemon.Proofs.CtlFeedProofs
import Retrace.Supervisor.Proofs.ProducerProofs
import Retrace.Supervisor.Proofs.RingRunsProofs
import Retrace.Daemon.Proofs.LineageProofs
import Retrace.Daemon.Proofs.RebuildProofs
import Retrace.Profiler.Proofs.InsideProofs
import Retrace.Otlp.Proofs.LiveProofs
import Retrace.Campaign.Proofs.CommandProofs
import Retrace.Campaign.Proofs.PoolProofs
import Retrace.Fuzz.Proofs.ClusterProofs
import Retrace.Docker.Proofs.PathSetProofs
import Retrace.Strace.Proofs.ConvertProofs
import Retrace.Enforce.Proofs.AuditContentProofs
import Retrace.Enforce.Proofs.SpecProofs
import Retrace.Profiler.Proofs.TruncationProofs
import Retrace.TraceDiff.Proofs.LcsProofs
import Retrace.Core.Proofs.RedactionProofs
import Retrace.Core.Proofs.FilterGlobProofs
import Retrace.Core.Proofs.SandboxProofs
import Retrace.Core.Proofs.DecodeDnsProofs
import Retrace.Backends.Proofs.DisasmProofs
import Retrace.Core.Proofs.SockaddrProofs
import Retrace.Core.Proofs.FuzzDictProofs
import Retrace.Backends.Proofs.DisasmArm64Proofs
import Retrace.Enforce.Proofs.SeccompProofs
import Retrace.Profiler.Proofs.JailProofs
import Retrace.Profiler.Proofs.DiffProofs
import Retrace.Backends.Proofs.PtraceProofs
import Retrace.Backends.Proofs.ThunkProofs
import Retrace.Profiler.Proofs.DeltaProofs
import Retrace.Pdf.Proofs.ContentProofs
import Retrace.Datatypes.Proofs.StructProofs
import Retrace.Pipe.Proofs.EnvironmentProofs
import Retrace.Android.Proofs.RebindProofs
import Retrace.Daemon.Proofs.TransportProofs
