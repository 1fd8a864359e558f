import Letopis.Accepts.Deduplication
import Letopis.Configs.AutoCreate
import Letopis.Configs.Freshness
import Letopis.Configs.Provisioning
import Letopis.Delivery.Backoff
import Letopis.Delivery.Body
import Letopis.Delivery.Conservation
import Letopis.Delivery.Dispatcher
import Letopis.Delivery.Passes
import Letopis.Delivery.Ssrf
import Letopis.Delivery.Task
import Letopis.Diff.Apply
import Letopis.Diff.Canonical
import Letopis.Diff.Diff
import Letopis.Diff.Drift
import Letopis.Diff.Edits
import Letopis.Diff.Exact
import Letopis.Diff.Handed
import Letopis.Diff.Heap
import Letopis.Diff.InPlace
import Letopis.Diff.Json
import Letopis.Diff.JsonPatch
import Letopis.Diff.LeavesInput
import Letopis.Diff.Numerals
import Letopis.Diff.Orders
import Letopis.Diff.Parts
import Letopis.Diff.PatchAgrees
import Letopis.Diff.Path
import Letopis.Diff.Rearrange
import Letopis.Diff.Rfc6902
import Letopis.Diff.RoundTrip
import Letopis.Diff.Sharing
import Letopis.Diff.Touched
import Letopis.Diff.Walk
import Letopis.Domain.Calendar
import Letopis.Domain.Collection
import Letopis.Domain.Event
import Letopis.Domain.Flow
import Letopis.Domain.FlowPages
import Letopis.Domain.Id
import Letopis.Domain.Reconstruct
import Letopis.Encoding.Sha256
import Letopis.Encoding.Text
import Letopis.ForMathlib.Binary64
import Letopis.ForMathlib.Except
import Letopis.ForMathlib.LastWrite
import Letopis.ForMathlib.Paging
import Letopis.ForMathlib.Radix
import Letopis.ForMathlib.SeparateParts
import Letopis.ForMathlib.SortedAssoc
import Letopis.Interleaving.Eval
import Letopis.Interleaving.Pool
import Letopis.Interleaving.Prog
import Letopis.Interleaving.ReadThrough
import Letopis.Interleaving.Trace
import Letopis.Plugin.FailOpen
import Letopis.Plugin.HashChain
import Letopis.Plugin.Reverify
import Letopis.Plugin.TamperEvidence
import Letopis.Queue.Consumer
import Letopis.Queue.Memory
import Letopis.Queue.Order
import Letopis.Queue.RedisStreams
import Letopis.Rules.Condition
import Letopis.Rules.Freshness
import Letopis.Rules.Meaning
import Letopis.Rules.Numbers
import Letopis.Runs.BatchChain
import Letopis.Runs.BatchLock
import Letopis.Runs.BatchReads
import Letopis.Runs.Drift
import Letopis.Runs.Extend
import Letopis.Runs.FastWrite
import Letopis.Runs.Faults
import Letopis.Runs.OneByOne
import Letopis.Runs.PathFilter
import Letopis.Runs.ReadBack
import Letopis.Runs.Repeats
import Letopis.Runs.Report
import Letopis.Runs.Retention
import Letopis.Runs.Rising
import Letopis.Runs.Snapshots
import Letopis.Runs.Submitted
import Letopis.Server.DLQ
import Letopis.Server.HistoryPages
import Letopis.Server.Ingest
import Letopis.Server.Limits
import Letopis.Server.Mask
import Letopis.Server.Members
import Letopis.Server.Read
import Letopis.Server.Rules
import Letopis.Service.Async
import Letopis.Service.Batch
import Letopis.Service.BatchAlone
import Letopis.Service.BatchOutcomes
import Letopis.Service.Config
import Letopis.Service.DLQ
import Letopis.Service.Evaluate
import Letopis.Service.Ingest
import Letopis.Service.IngestTrace
import Letopis.Service.Planned
import Letopis.Service.Read
import Letopis.Service.RedeliverAll
import Letopis.Service.Replays
import Letopis.Service.Rules
import Letopis.Service.Sequential
import Letopis.Service.Tickets
import Letopis.Service.WriteAlone
import Letopis.Storage.Database
import Letopis.Storage.Db
import Letopis.Storage.Frame
import Letopis.Storage.Histories
import Letopis.Storage.Mapping
import Letopis.Storage.Names
import Letopis.Storage.Rules
import Letopis.Tenant.Isolation
import Letopis.Tenant.Principal
import Letopis.Tenant.Resolver
import Letopis.Tickets.Transitions
import Letopis.Worker.BatchShard
import Letopis.Worker.Flush
import Letopis.Worker.Order
import Letopis.Worker.Settle
import Letopis.Worker.Worker
import Letopis.Writers.Chain
import Letopis.Writers.Current
import Letopis.Writers.Lock
import Letopis.Writers.Owners
import Letopis.Writers.Replay
import Letopis.Writers.Versions
