import Lucis.HashSet
import Lucis.MapOwnership
import Lucis.FuzzCoverage
import Lucis.UrlCode
import Lucis.Assignable
import Lucis.LambdaCapture
import Lucis.ConstMeaning
import Lucis.OwnedRegistry
import Lucis.ReturnPath
import Lucis.AggregateEquality
import Lucis.TaggedUnion
import Lucis.GenericTermination
import Lucis.Monomorph
import Lucis.Containment
import Lucis.TestDiscovery
import Lucis.TestJobs
import Lucis.TestCapture
import Lucis.EnumCodegen
import Lucis.ComptimeFlow
import Lucis.ModuleIsolation
import Lucis.DeferLowering
import Lucis.MoveCheck
import Lucis.EvaluationOrder
import Lucis.FrameBalance
import Lucis.LockBalance
import Lucis.ErrorDelivery
import Lucis.ErrorFrames
import Lucis.CompoundAssign
import Lucis.BitFieldWrite
import Lucis.PayloadBinding
import Lucis.ABIInfo
import Lucis.CfgExpression
import Lucis.ProjectContext
import Lucis.SemanticRoundTrip
import Lucis.VecGrowth
import Lucis.Base64Bounds
import Lucis.PathLaws
import Lucis.RegexSplit
import Lucis.RegexReplace
import Lucis.IntegerText
import Lucis.StringBuilders
import Lucis.IncrementalBuild
import Lucis.ObjectNames
import Lucis.Crc32
import Lucis.Digests
import Lucis.ConsumptionFixpoint
import Lucis.ArrayLiteral
import Lucis.CrashMinimization
import Lucis.FuzzBounds
import Lucis.FuzzBudget
import Lucis.BufferCapacity
import Lucis.ScopeRestoration
import Lucis.PendingStructs
import Lucis.ExtendMethods
import Lucis.LinkedList
import Lucis.AllocatorSizes
import Lucis.ComptimeRange
import Lucis.CapturedOutput
import Lucis.ConstTraps
import Lucis.TypeSubstitution
import Lucis.Constraints
