import CgsKlee.Core.Rotation
import CgsKlee.Ida.Loading
import CgsKlee.Core.Notification
import CgsKlee.Core.StoreCount
import CgsKlee.Core.StoreCache
import CgsKlee.Core.PathRecording
import CgsKlee.Core.RandomPathRun
import CgsKlee.Core.MergingRun
import CgsKlee.Core.StateMergeSound
import CgsKlee.Ida.CallSites
import CgsKlee.Ida.SourceBound
import CgsKlee.Ida.RuleTwo
import CgsKlee.Core.LatestValue
import CgsKlee.Core.CoveredTarget
import CgsKlee.Core.MissedTarget
import CgsKlee.Core.ResolutionBound
import CgsKlee.Core.ExternalCall
import CgsKlee.Ida.CallGraph
import CgsKlee.Core.ConcreteStore
import CgsKlee.Core.PatchedSeed
import CgsKlee.Core.SeedBindings
import CgsKlee.Core.FrameDistance
import CgsKlee.Core.AllocationModels
import CgsKlee.Solver.CexCachingExp
import CgsKlee.Solver.GetRange
import CgsKlee.Solver.OverShift
import CgsKlee.Solver.FastCexExact
import CgsKlee.Expr.ExprBuilderSound
import CgsKlee.Solver.STPSorts
import CgsKlee.Parser.ParsedTypes
import CgsKlee.Expr.Satisfies
import CgsKlee.Solver.SetIterator
import CgsKlee.Core.NestedUnwinding
import CgsKlee.Core.UncaughtException
import CgsKlee.Expr.ExprOrder
import CgsKlee.Core.AggregateValue
import CgsKlee.Core.GlobalAliases
import CgsKlee.Core.SymbolicCall
import CgsKlee.Core.VarArgs
import CgsKlee.Core.ConstantLayout
import CgsKlee.Solver.DivisionByConstants
import CgsKlee.Module.IntrinsicCleaner
import CgsKlee.Support.DiscretePDFBalance
import CgsKlee.Core.IntegerIntrinsics
import CgsKlee.Core.ObjectMap
import CgsKlee.Core.Arena
import CgsKlee.Module.PhiCleaner
import CgsKlee.Ida.GuidedSearch
