import K23Search.Lib.Run
import K23Search.Lib.Progress
import K23Search.Lib.Linearizable
import K23Search.Lib.DoublyLinked
import K23Search.Lib.EditDistance
import K23Search.Lib.MetricTree
import K23Search.Lib.DepthFirst
import K23Search.Lib.FirstDifference
import K23Search.Text.StringView
import K23Search.Text.Strings
import K23Search.Lib.Buffer
import K23Search.Lib.Delimited
import K23Search.Text.StringObjects
import K23Search.Text.ParseFile
import K23Search.Text.Hash
import K23Search.Text.Distances
import K23Search.Text.EditAccess
import K23Search.Containers.HashTable
import K23Search.Containers.HashTableRuns
import K23Search.Containers.CopyUninitialized
import K23Search.Containers.Vector
import K23Search.Containers.VectorRuns
import K23Search.Containers.SkipList
import K23Search.Containers.SkipListRuns
import K23Search.Containers.BkTree
import K23Search.Containers.BkTreeRuns
import K23Search.Containers.BkTreeMoves
import K23Search.Containers.BkTreeStack
import K23Search.Containers.LinkedList
import K23Search.Containers.LinkedListRuns
import K23Search.Containers.Optional
import K23Search.Lib.SortedWindow
import K23Search.Containers.BinarySearch
import K23Search.Lib.Ring
import K23Search.Lib.Outcome
import K23Search.Lib.BitField
import K23Search.Containers.CyclicBuffer
import K23Search.Containers.Bloom
import K23Search.Containers.BloomRuns
import K23Search.Concurrency.ConcurrentQueue
import K23Search.Concurrency.Worker
import K23Search.Concurrency.Wakeups
import K23Search.Concurrency.Consumer
import K23Search.Concurrency.Fifo
import K23Search.Concurrency.BlockingBuffer
import K23Search.Concurrency.Scheduler
import K23Search.Concurrency.WorkerLoop
import K23Search.Concurrency.Liveness
import K23Search.Concurrency.Shutdown
import K23Search.Concurrency.Lifetime
import K23Search.Concurrency.Jobs
import K23Search.Containers.Table
import K23Search.Containers.HashTableSlots
import K23Search.Containers.HashTableLifetime
import K23Search.Containers.GrowthFailure
import K23Search.Core.Index
import K23Search.Core.IndexOrder
import K23Search.Core.Results
import K23Search.Core.Answers
import K23Search.Core.Engine
import K23Search.Core.Control
import K23Search.Core.History
import K23Search.Core.Nodes
import K23Search.Core.Calls
import K23Search.Core.Delivery
import K23Search.Core.Records
import K23Search.Core.Indexing
import K23Search.Core.Registry
import K23Search.Core.Counters
import K23Search.Core.Process
import K23Search.Core.Matching
import K23Search.Core.Snapshot
import K23Search.Core.MatchDoc
import K23Search.Core.RunSteps
import K23Search.Core.Window
import K23Search.Core.Variant
import K23Search.Containers.SkipListLinks
import K23Search.Containers.SkipListCopy
import K23Search.Containers.SkipListTraversal
import K23Search.Core.Returns
import K23Search.Core.Barriers
import K23Search.Core.Races
import K23Search.Lib.CriticalSection
import K23Search.Core.Locks
import K23Search.Core.Schedules
import K23Search.Core.ProcessRuns
