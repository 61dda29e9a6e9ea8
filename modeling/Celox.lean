import Celox.Analysis.DagScheduleOrder
import Celox.Analysis.DependenceExact
import Celox.Cfg.Analysis
import Celox.Cfg.DominanceOrder
import Celox.Events.Delivery
import Celox.Image.Container
import Celox.Layout.Disjoint
import Celox.Layout.StridedRefines
import Celox.Liveness.Backedges
import Celox.Liveness.NextUsePaths
import Celox.Lowering.BitAccessExact
import Celox.Lowering.Constexpr
import Celox.Opt.BlockStores
import Celox.Opt.CoalesceSound
import Celox.Opt.CommitSinkingSound
import Celox.Opt.ConcatFoldingSound
import Celox.Opt.DeadWorkingSound
import Celox.Opt.ForwardSound
import Celox.Opt.PredicateFacts
import Celox.Opt.SchedulingRuns
import Celox.Opt.StateSsaTypes
import Celox.Opt.XorChainsSound
import Celox.Regalloc.LinearScan
import Celox.Regalloc.ParallelCopyExact
import Celox.Regalloc.StackColor
import Celox.Runtime.StepErrors
import Celox.Slt.ConstInlineExact
import Celox.Slt.MapAddr
import Celox.Slt.RangeStore
import Celox.Slt.StoreVersions
import Celox.Ssa.ClobberPrecise
import Celox.Ssa.SparseCorrect
import Celox.Testbench.Holding
import Celox.Vcd.Replay
