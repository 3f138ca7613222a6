import BlogSample.Array2
import BlogSample.AvlTree.Bst
import BlogSample.AvlTree.Deletion
import BlogSample.AvlTree.Insertion
import BlogSample.AwaitAsync.Accounting
import BlogSample.AwaitAsync.Continuations
import BlogSample.AwaitAsync.Countdown
import BlogSample.AwaitAsync.Exceptions
import BlogSample.AwaitAsync.Iterate
import BlogSample.AwaitAsync.Loss
import BlogSample.AwaitAsync.MyTask
import BlogSample.AwaitAsync.WaitAll
import BlogSample.AwaitAsync.Waiting
import BlogSample.BigNumberAdd.Program
import BlogSample.BinarySearchTree.Bst
import BlogSample.BinarySearchTree.Delete
import BlogSample.BinarySearchTree.Parents
import BlogSample.BinarySearchTree.SetDeletion
import BlogSample.BinarySearchTree.Termination
import BlogSample.BitConverter
import BlogSample.BlockQueue.Queue
import BlogSample.BlockQueue.WakeUps
import BlogSample.CasLock.Program
import BlogSample.ContextSwitchExample.ExampleWorker
import BlogSample.ContextSwitchExample.Session
import BlogSample.DateTime
import BlogSample.DeadLockSample.Program
import BlogSample.DeadlockDetector.Breaker
import BlogSample.DeadlockDetector.Cycles
import BlogSample.DeadlockDetector.Detection
import BlogSample.DeadlockDetector.EdgeStore
import BlogSample.DeadlockDetector.Graph
import BlogSample.DeadlockDetector.Hooks
import BlogSample.DeadlockDetector.Indices
import BlogSample.DeadlockDetector.Main
import BlogSample.DeadlockDetector.Ownership
import BlogSample.DeadlockDetector.Search
import BlogSample.DeadlockDetector.Threads
import BlogSample.DeadlockDetector.WaitFor
import BlogSample.DeepKnowLock.Program
import BlogSample.DeviceModule.Device
import BlogSample.DijkstraSample.Distances
import BlogSample.DijkstraSample.Program
import BlogSample.DijkstraSample.Scan
import BlogSample.DijkstraSample.Search
import BlogSample.DijkstraSample.Tree
import BlogSample.DisjointSets.Circles
import BlogSample.DisjointSets.Connectivity
import BlogSample.DisjointSets.Forest
import BlogSample.DisjointSets.Ranks
import BlogSample.DotNet
import BlogSample.DynamicORMSample.Clause
import BlogSample.DynamicORMSample.Fidelity
import BlogSample.DynamicORMSample.Filters
import BlogSample.DynamicORMSample.Injection
import BlogSample.DynamicORMSample.QueryContext
import BlogSample.EightQueen.Placements
import BlogSample.EightQueen.Program
import BlogSample.EventWaitHandleSample.Alternate
import BlogSample.EventWaitHandleSample.Alternation
import BlogSample.ExpressionVsReflection.ObjectProvider
import BlogSample.GraphSample.Construction
import BlogSample.GraphSample.Program
import BlogSample.GraphSample.Scans
import BlogSample.HanoiTower.Program
import BlogSample.HashTableSample.Buckets
import BlogSample.HashTableSample.Fifo
import BlogSample.HashTableSample.Table
import BlogSample.HashTableSample.Totality
import BlogSample.Huffman.Archive
import BlogSample.Huffman.Compression
import BlogSample.Huffman.Decoding
import BlogSample.Huffman.Node
import BlogSample.Huffman.Optimality
import BlogSample.Huffman.RoundTrip
import BlogSample.Int32
import BlogSample.KmpSample.Borders
import BlogSample.KmpSample.Exactness
import BlogSample.KmpSample.Program
import BlogSample.LargeFileUploadSample.Chunking
import BlogSample.LargeFileUploadSample.Progress
import BlogSample.LargeFileUploadSample.Upload
import BlogSample.Linq
import BlogSample.ListObjects
import BlogSample.LruAlgorithm.DoubleLinkedList
import BlogSample.LruAlgorithm.Limits
import BlogSample.LruAlgorithm.Pointers
import BlogSample.LruAlgorithm.Reference
import BlogSample.LruAlgorithm.Refinement
import BlogSample.Maze.Program
import BlogSample.MemoryLeak.Checker
import BlogSample.MergeSortSample.Program
import BlogSample.MessagePassing.Delivery
import BlogSample.MessagePassing.Removal
import BlogSample.MessagePassing.TwoWay
import BlogSample.MonotonicStack.Program
import BlogSample.MutiThreadSample.Program
import BlogSample.OwnConsumerPublisher.Program
import BlogSample.OwnConsumerPublisher.Store
import BlogSample.ParameterConvertor.Agreement
import BlogSample.ParameterConvertor.Settlement
import BlogSample.ParseMysqlSlowQuery.Entries
import BlogSample.ParseMysqlSlowQuery.Leakage
import BlogSample.ParseMysqlSlowQuery.Parser
import BlogSample.ParseMysqlSlowQuery.Tracing
import BlogSample.PipeStreamWrapper.Framing
import BlogSample.PipeStreamWrapper.Truncation
import BlogSample.PipeStreamWrapper.Wrapper
import BlogSample.PolandNotation.Calculator
import BlogSample.PolandNotation.Grouping
import BlogSample.PolandNotation.Malformed
import BlogSample.PolandNotation.Reuse
import BlogSample.PolandNotation.Solution
import BlogSample.PolandNotation.Tokens
import BlogSample.PolandNotation.Waiting
import BlogSample.QuickSortSample.Program
import BlogSample.ReadWriteLock.Base
import BlogSample.ReadWriteLock.Invariant
import BlogSample.ReadWriteLock.LeaseSafety
import BlogSample.ReadWriteLock.LeaseTable
import BlogSample.ReadWriteLock.Program
import BlogSample.ReadWriteLock.Refinement
import BlogSample.ReadWriteLock.Runs
import BlogSample.ReadWriteLock.Scripts
import BlogSample.ReadWriteLock.TimeToLive
import BlogSample.ReadWriteLock.WriteOwner
import BlogSample.ShareMem.MultipleProcess
import BlogSample.SpinLock.SpinLock
import BlogSample.Theory.Backtracking
import BlogSample.Theory.BinaryTree
import BlogSample.Theory.BitPacking
import BlogSample.Theory.Borders
import BlogSample.Theory.BreadthFirst
import BlogSample.Theory.CArray
import BlogSample.Theory.Calendar
import BlogSample.Theory.Callers
import BlogSample.Theory.Chain
import BlogSample.Theory.Chunks
import BlogSample.Theory.CodeTree
import BlogSample.Theory.Codec
import BlogSample.Theory.DepthFirst
import BlogSample.Theory.DepthFirstOrder
import BlogSample.Theory.EdgeList
import BlogSample.Theory.Formula
import BlogSample.Theory.Fuel
import BlogSample.Theory.Grounded
import BlogSample.Theory.Hanoi
import BlogSample.Theory.Links
import BlogSample.Theory.LockOrder
import BlogSample.Theory.LostUpdates
import BlogSample.Theory.Matching
import BlogSample.Theory.MessageQueue
import BlogSample.Theory.Monitor
import BlogSample.Theory.NestedLocks
import BlogSample.Theory.NextSmaller
import BlogSample.Theory.OptimalCode
import BlogSample.Theory.PathSearch
import BlogSample.Theory.PriorityQueue
import BlogSample.Theory.Redis
import BlogSample.Theory.Regex
import BlogSample.Theory.Relaxation
import BlogSample.Theory.RelaxationTree
import BlogSample.Theory.Rounds
import BlogSample.Theory.SearchCondition
import BlogSample.Theory.SearchTree
import BlogSample.Theory.ShortestPath
import BlogSample.Theory.SqlLexer
import BlogSample.Theory.SqlLiterals
import BlogSample.Theory.Stdio
import BlogSample.Theory.Tally
import BlogSample.Theory.Threads
import BlogSample.Theory.Transition
import BlogSample.Theory.Updates
import BlogSample.Theory.WeakOrder
import BlogSample.Timer.CTimer
import BlogSample.Timer.Cancellation
import BlogSample.Timer.Ordering
import BlogSample.TimerLab.Driver
import BlogSample.WaitQueueLab.Driver
import BlogSample.YearDiffSample.Program
import BlogSample.YieldSample.Counters
