import SendersIo.Accept
import SendersIo.AddressClasses
import SendersIo.AddressHash
import SendersIo.AddressOrder
import SendersIo.Addresses
import SendersIo.ArrayAllocators
import SendersIo.AsyncMutex
import SendersIo.Broadcast
import SendersIo.BufferCursor
import SendersIo.BufferObjects
import SendersIo.BufferedSequence
import SendersIo.Buffers
import SendersIo.ByteOrder
import SendersIo.ByteStream
import SendersIo.Bytes
import SendersIo.CanonicalSubspans
import SendersIo.Channel
import SendersIo.ChannelOutcome
import SendersIo.Comparisons
import SendersIo.CurrentPosition
import SendersIo.DeferredObjects
import SendersIo.Echo
import SendersIo.Endpoints
import SendersIo.FileHandle
import SendersIo.First
import SendersIo.Fork
import SendersIo.ForkOutcome
import SendersIo.Interleaving
import SendersIo.IntrusiveLists
import SendersIo.IntrusiveQueues
import SendersIo.Last
import SendersIo.LinkedLists
import SendersIo.LinkedMachines
import SendersIo.ListOperations
import SendersIo.LockDiscipline
import SendersIo.ManualLifetime
import SendersIo.MemoryPool
import SendersIo.MemoryResource
import SendersIo.MergeCancellation
import SendersIo.MergeEach
import SendersIo.MonotonicPool
import SendersIo.MutexProgress
import SendersIo.OperationRuns
import SendersIo.PoolDiscipline
import SendersIo.PoolWaiters
import SendersIo.ReadBatched
import SendersIo.ReadBatchedBytes
import SendersIo.ReadBatchedForks
import SendersIo.ReadBatchedItems
import SendersIo.ReadBatchedOutcome
import SendersIo.ReadBatchedProgress
import SendersIo.ReadSome
import SendersIo.Reduce
import SendersIo.Repeat
import SendersIo.RequestLengths
import SendersIo.Resolve
import SendersIo.Resubscription
import SendersIo.ResultLifetimes
import SendersIo.Scan
import SendersIo.Schedules
import SendersIo.ScopeIds
import SendersIo.Sequences
import SendersIo.Signals
import SendersIo.SizeClasses
import SendersIo.SubspanCuts
import SendersIo.Subspans
import SendersIo.UseClose
import SendersIo.UseResources
import SendersIo.Zip
import SendersIo.ZipAccess
import SendersIo.ZipItems
import SendersIo.ZipOutcome
import SendersIo.ZipPairing
import SendersIo.ZipProgress
import SendersIo.ZipTrigger
import SendersIo.ZipTuples
