import Cppkg.Lib.EditGraph
import Cppkg.Lib.EditMetric
import Cppkg.Lib.FurthestReaching
import Cppkg.Lib.Interleave
import Cppkg.Lib.Ledger
import Cppkg.Lib.Pool
import Cppkg.Lib.RefCount
import Cppkg.Lib.Renames
import Cppkg.Lib.ShortestPath
import Cppkg.Lib.Terminated
import Cppkg.Lib.Patching
import Cppkg.Lib.Transition
import Cppkg.Lib.While
import Cppkg.Lib.WordPattern
import Cppkg.Machine
import Cppkg.Numbers.Decimal
import Cppkg.Numbers.FractionPow
import Cppkg.Numbers.FractionExpr
import Cppkg.Units.Time
import Cppkg.Diff.MyersDiff
import Cppkg.Diff.MyersTrace
import Cppkg.Diff.MyersBacktrace
import Cppkg.Diff.MyersScript
import Cppkg.Diff.MyersMinEdit
import Cppkg.Diff.EditDistance
import Cppkg.Diff.Msg
import Cppkg.Diff.Whitespace
import Cppkg.Diff.Batches
import Cppkg.Diff.HunkOrder
import Cppkg.Diff.BatchProgress
import Cppkg.Diff.Render
import Cppkg.Diff.LongMessages
import Cppkg.Diff.IndexLimit
import Cppkg.Diff.Texts
import Cppkg.Diff.Patch
import Cppkg.Diff.ApplyPatch
import Cppkg.Flag.FlagSet
import Cppkg.Flag.HelpMessage
import Cppkg.Estd.Strs
import Cppkg.Estd.HashList
import Cppkg.Estd.HashListRefinement
import Cppkg.Estd.HashListCopy
import Cppkg.Estd.Config
import Cppkg.Estd.ConfigMap
import Cppkg.Estd.ConfigMapOwnership
import Cppkg.Jobs.ScopeGuard
import Cppkg.Jobs.ManagedJob
import Cppkg.Jobs.ManagedJobMove
import Cppkg.Jobs.ManagedJobThreads
import Cppkg.Jobs.Sequence
import Cppkg.Jobs.SequenceOrder
import Cppkg.Jobs.SequenceJoin
import Cppkg.Jobs.SequenceStop
import Cppkg.Jobs.SequenceRunning
import Cppkg.Jobs.SequenceProgress
import Cppkg.Egrpc.Grpc
import Cppkg.Egrpc.ClientHandler
import Cppkg.Egrpc.ClientAsync
import Cppkg.Egrpc.ClientAsyncStream
import Cppkg.Egrpc.WaitFor
import Cppkg.Egrpc.ServerCall
import Cppkg.Egrpc.ServerAsync
import Cppkg.Egrpc.UnaryRpc
import Cppkg.Egrpc.ServerAsyncStream
import Cppkg.Egrpc.StreamCallbacks
import Cppkg.Egrpc.StreamRange
import Cppkg.Egrpc.ServerDrain
import Cppkg.Egrpc.StreamReply
import Cppkg.Egrpc.StreamTransfer
import Cppkg.Egrpc.Streams
import Cppkg.Scripts.LabelUniquify
import Cppkg.Scripts.IncludeRewrite
