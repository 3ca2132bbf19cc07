import FoundationsLab.BTree.Insert
import FoundationsLab.BTree.Rebalance
import FoundationsLab.BTree.Remove
import FoundationsLab.BTree.Scan
import FoundationsLab.Foundation.Machine
import FoundationsLab.BTree.Balanced
import FoundationsLab.BTree.Check
import FoundationsLab.BTree.Accepted
import FoundationsLab.Balloc.Allocator
import FoundationsLab.Balloc.Layout
import FoundationsLab.Foundation.DoublyLinked
import FoundationsLab.Balloc.Consistent
import FoundationsLab.Balloc.FreeLists
import FoundationsLab.Balloc.Coalesce
import FoundationsLab.Balloc.Operations
import FoundationsLab.Balloc.Grow
import FoundationsLab.Balloc.Requests
import FoundationsLab.Balloc.Check
import FoundationsLab.Balloc.Program
import FoundationsLab.Balloc.Reset
import FoundationsLab.Balloc.Overruns
import FoundationsLab.Foundation.Bytes
import FoundationsLab.Foundation.JavaString
import FoundationsLab.Foundation.Layers
import FoundationsLab.Foundation.Directory
import FoundationsLab.Lsm.BloomFilter
import FoundationsLab.Foundation.Decimal
import FoundationsLab.Lsm.SSTable
import FoundationsLab.Lsm.TableLookup
import FoundationsLab.Lsm.TableWrite
import FoundationsLab.Lsm.LsmTree
import FoundationsLab.Lsm.FileNames
import FoundationsLab.Lsm.Healthy
import FoundationsLab.Lsm.Calls
import FoundationsLab.Lsm.Refinement
import FoundationsLab.Lsm.Bounds
import FoundationsLab.Balloc.Isolation
import FoundationsLab.Crdt.ORSet
import FoundationsLab.Crdt.ORSetHistory
import FoundationsLab.Crdt.Rga
import FoundationsLab.Crdt.RgaApply
import FoundationsLab.Crdt.RgaConvergence
import FoundationsLab.WorkStealing.Deque
import FoundationsLab.WorkStealing.DequeInvariant
import FoundationsLab.WorkStealing.DequeSteps
import FoundationsLab.Foundation.Tally
import FoundationsLab.Foundation.Lanes
import FoundationsLab.Foundation.Checked
import FoundationsLab.Deflate.BitReader
import FoundationsLab.Deflate.HuffDec
import FoundationsLab.Deflate.HuffTables
import FoundationsLab.Deflate.Inflate
import FoundationsLab.Deflate.Safety
import FoundationsLab.SimdJson.Scan
import FoundationsLab.SimdJson.Parser
import FoundationsLab.SimdJson.Agreement
import FoundationsLab.WorkStealing.Pool
import FoundationsLab.WorkStealing.DequeCalls
import FoundationsLab.WorkStealing.PoolInvariant
import FoundationsLab.WorkStealing.PoolSteps
import FoundationsLab.WorkStealing.WaitIdle
import FoundationsLab.WorkStealing.Shutdown
import FoundationsLab.WorkStealing.SeveralPools
import FoundationsLab.Foundation.DemandGraph
import FoundationsLab.Foundation.InsertionSet
import FoundationsLab.Signals.Reactive
import FoundationsLab.Signals.Consistent
import FoundationsLab.Signals.Pull
import FoundationsLab.Signals.Effects
import FoundationsLab.Signals.GlitchFree
import FoundationsLab.Foundation.ReadTree
import FoundationsLab.Signals.Marking
import FoundationsLab.Lsm.Mended
import FoundationsLab.Lsm.Durability
import FoundationsLab.Lsm.CompactionCrash
import FoundationsLab.Lsm.FlushCrash
import FoundationsLab.Crdt.Counters
import FoundationsLab.Crdt.CounterHistory
import FoundationsLab.ZeroCsv.CsvReader
import FoundationsLab.ZeroCsv.RoundTrip
import FoundationsLab.SimdJson.Grammar
import FoundationsLab.SimdJson.ReadStrings
import FoundationsLab.SimdJson.ReadValues
import FoundationsLab.Foundation.Utf8
import FoundationsLab.SimdJson.Acceptance
import FoundationsLab.SimdJson.ValidStrings
import FoundationsLab.Promises.Promise
import FoundationsLab.Promises.Handlers
import FoundationsLab.Promises.Holders
import FoundationsLab.Promises.FirstCall
import FoundationsLab.Signals.Minimal
import FoundationsLab.Foundation.LiveSet
import FoundationsLab.Reentrant.Machine
import FoundationsLab.Reentrant.Steps
import FoundationsLab.Reentrant.Batches
import FoundationsLab.Reentrant.Disposal
import FoundationsLab.Reentrant.Queue
import FoundationsLab.Lsm.FailedWrites
import FoundationsLab.ZeroCsv.Coverage
import FoundationsLab.Lsm.Invisible
import FoundationsLab.Balloc.Accounts
import FoundationsLab.Balloc.Accounting
import FoundationsLab.Hll.HyperLogLog
import FoundationsLab.Foundation.GeneratorRuns
import FoundationsLab.Hll.Registers
import FoundationsLab.Coroutines.Coroutine
import FoundationsLab.Coroutines.Refinement
import FoundationsLab.Coroutines.Routing
import FoundationsLab.Coroutines.Begun
import FoundationsLab.Coroutines.Switch
import FoundationsLab.Coroutines.Contexts
import FoundationsLab.Coroutines.Preserved
import FoundationsLab.Coroutines.Switching
import FoundationsLab.Deflate.Crc32
import FoundationsLab.Crdt.ORSetObjects
import FoundationsLab.Crdt.RgaOrder
import FoundationsLab.Crdt.RgaStable
import FoundationsLab.Crdt.RgaEdits
import FoundationsLab.Deflate.BitWriter
import FoundationsLab.Deflate.BitDelivery
import FoundationsLab.Foundation.CanonicalCode
import FoundationsLab.Deflate.HuffCodes
import FoundationsLab.Deflate.Lz77
import FoundationsLab.Deflate.Lz77Lossless
import FoundationsLab.Deflate.HuffLengths
import FoundationsLab.Deflate.HuffNodes
import FoundationsLab.Deflate.HuffComplete
import FoundationsLab.Deflate.DynamicHeader
import FoundationsLab.Deflate.HeaderRoundTrip
import FoundationsLab.BTree.Height
import FoundationsLab.Lsm.LogPrefixes
import FoundationsLab.Lsm.Reopening
import FoundationsLab.Crdt.RgaLocal
import FoundationsLab.Crdt.CounterEquality
import FoundationsLab.Balloc.Fitting
import FoundationsLab.Balloc.Oversized
import FoundationsLab.Balloc.Resizing
import FoundationsLab.SimdJson.Spellings
import FoundationsLab.SimdJson.Inside
import FoundationsLab.Deflate.Prefixes
import FoundationsLab.Deflate.Truncation
import FoundationsLab.Deflate.BitFields
import FoundationsLab.Deflate.Compress
import FoundationsLab.Deflate.Costs
import FoundationsLab.Deflate.FixedLengths
import FoundationsLab.Deflate.BlockChoice
import FoundationsLab.Deflate.CompressBound
import FoundationsLab.Deflate.Blocks
import FoundationsLab.Deflate.StreamDecoding
import FoundationsLab.Deflate.StreamEncoding
import FoundationsLab.Deflate.RoundTrip
import FoundationsLab.Deflate.FixedCode
import FoundationsLab.Coroutines.FirstEntry
import FoundationsLab.EnumFast.Collisions
import FoundationsLab.EnumFast.Generator
import FoundationsLab.EnumFast.Meaning
import FoundationsLab.Promises.Happenings
import FoundationsLab.Promises.Resolution
import FoundationsLab.Promises.All
import FoundationsLab.Promises.Inputs
import FoundationsLab.Promises.Counting
import FoundationsLab.Promises.Outstanding
import FoundationsLab.Promises.OrderIndependence
import FoundationsLab.Promises.Race
import FoundationsLab.Promises.FirstSettled
import FoundationsLab.Promises.Finally
import FoundationsLab.Promises.Relay
import FoundationsLab.Promises.PassThrough
