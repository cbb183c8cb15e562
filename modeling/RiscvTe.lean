import RiscvTe.Lib.EventRun
import RiscvTe.Lib.Nesting
import RiscvTe.Lib.Memory
import RiscvTe.ShadowStack
import RiscvTe.Monitor
import RiscvTe.WellNested
import RiscvTe.Isa
import RiscvTe.BackwardEdge
import RiscvTe.NoFalseAlarm
import RiscvTe.Isolation
import RiscvTe.Transparency
import RiscvTe.Lib.Scan
import RiscvTe.Instrumenter
import RiscvTe.LeafScan
import RiscvTe.Lib.Transducer
import RiscvTe.Decisions
import RiscvTe.Assembly
import RiscvTe.Balance
import RiscvTe.Coverage
import RiscvTe.OrderIndependence
import RiscvTe.Lib.Liveness
import RiscvTe.Meaning
import RiscvTe.Privilege
import RiscvTe.Lib.Observation
import RiscvTe.Lib.BoundedStack
import RiscvTe.Lifo
import RiscvTe.FreshStack
import RiscvTe.Dispatch
import RiscvTe.Regions
import RiscvTe.Resumption
import RiscvTe.LeafVerdict
import RiscvTe.Precision
import RiscvTe.Lib.Paths
import RiscvTe.Mediation
import RiscvTe.Lib.Replace
import RiscvTe.SecureBuild
import RiscvTe.Esputil.Slip
import RiscvTe.Boot
import RiscvTe.BuildPipeline
import RiscvTe.Enforcement
import RiscvTe.Esputil.Command
import RiscvTe.Esputil.Connect
import RiscvTe.Esputil.FlashSession
import RiscvTe.Esputil.Hex
import RiscvTe.Esputil.HexRoundTrip
import RiscvTe.Esputil.Readmem
import RiscvTe.Esputil.Terminal
import RiscvTe.Repeated
