import YwStorage.RbTree.Basic
import YwStorage.RbTree.Links
import YwStorage.RbTree.Balance
import YwStorage.RbTree.Recover
import YwStorage.RbTree.Recovery
import YwStorage.RbTree.Search
import YwStorage.RbTree.Update
import YwStorage.RbTree.Map
import YwStorage.Lib.MultiTree
import YwStorage.Lib.MultiOrder
import YwStorage.FbTree.Basic
import YwStorage.FbTree.Nodes
import YwStorage.FbTree.Links
import YwStorage.FbTree.Search
import YwStorage.FbTree.Insert
import YwStorage.FbTree.Split
import YwStorage.FbTree.Update
import YwStorage.FbTree.Remove
import YwStorage.FbTree.Map
import YwStorage.Lib.Bytes
import YwStorage.Lib.Slots
import YwStorage.OrderedNode.Basic
import YwStorage.Lib.MergeRuns
import YwStorage.OrderedNode.Sort
import YwStorage.OrderedNode.Spec
import YwStorage.OrderedNode.Directory
import YwStorage.OrderedNode.Records
import YwStorage.OrderedNode.Refines
import YwStorage.OrderedNode.History
import YwStorage.OrderedNode.Writes
import YwStorage.OrderedNode.Searchable
import YwStorage.Lib.Reader
import YwStorage.SeqLock.Basic
import YwStorage.SeqLock.Snapshot
import YwStorage.OrderedNode.Optimistic
import YwStorage.BuffCache.Basic
import YwStorage.BuffCache.Directory
import YwStorage.WorkerPool.Basic
import YwStorage.WorkerPool.Ring
import YwStorage.WorkerPool.Tasks
import YwStorage.WorkerPool.Idle
import YwStorage.Log.Pos
import YwStorage.Log.Append
import YwStorage.Log.Store
import YwStorage.Log.Flush
import YwStorage.Log.Recovery
import YwStorage.Lib.Circular
import YwStorage.Pool.Basic
import YwStorage.Pool.Lists
import YwStorage.Pool.Conserves
import YwStorage.RcuRef.Basic
import YwStorage.RcuRef.Rings
import YwStorage.RcuRef.Reclaim
import YwStorage.RcuPool.Basic
import YwStorage.RcuPool.Waiting
import YwStorage.RcuPool.Units
import YwStorage.RcuPool.Stock
import YwStorage.RcuPool.Conserves
import YwStorage.Format.Barray
import YwStorage.Format.TypedArchive
import YwStorage.Format.ChunkMgr
import YwStorage.Format.MasterChunk
import YwStorage.Ini.Basic
import YwStorage.Ini.Loaded
import YwStorage.Ini.RoundTrip
import YwStorage.FbTree.WellFormed
import YwStorage.FbTree.Guarded
import YwStorage.FbTree.Attempt
import YwStorage.FbTree.Cascade
import YwStorage.FbTree.Calls
import YwStorage.FbTree.Failure
import YwStorage.FbTree.Accounts
import YwStorage.Lib.Chain
import YwStorage.Queue.Basic
import YwStorage.Queue.Linked
import YwStorage.Queue.Conserves
import YwStorage.Lib.MergeSort
import YwStorage.OrderedNode.Placed
import YwStorage.OrderedNode.Oversized
import YwStorage.FsNode.Basic
import YwStorage.FsNode.Sort
import YwStorage.FsNode.Search
import YwStorage.FbTree.Stale
import YwStorage.FbTree.NilKey
import YwStorage.BTree.Basic
import YwStorage.Lib.MultiSplit
import YwStorage.BTree.Links
import YwStorage.BTree.Halves
import YwStorage.BTree.Split
import YwStorage.BTree.Parent
import YwStorage.BTree.Cascade
import YwStorage.BTree.Insert
import YwStorage.Keys.Compare
import YwStorage.Keys.Integers
import YwStorage.Pool.Guard
import YwStorage.SpinLock.Basic
import YwStorage.RbTree.Fixup
import YwStorage.FsNode.Access
import YwStorage.OrderedNode.Compact
import YwStorage.Lib.Fuel
import YwStorage.Queue.Unsync
import YwStorage.Accumulator.Basic
import YwStorage.Accumulator.Independent
import YwStorage.SkipList.Basic
import YwStorage.SkipList.Columns
import YwStorage.SkipList.Insert
import YwStorage.SkipList.Remove
import YwStorage.SkipList.SortedSet
import YwStorage.SkipList.Levels
import YwStorage.BTree.Find
import YwStorage.BTree.Failure
import YwStorage.SkipList.Heights
import YwStorage.Symbol.Basic
import YwStorage.Symbol.Find
import YwStorage.Symbol.Lines
import YwStorage.Symbol.Load
import YwStorage.Ini.Buffers
import YwStorage.GridTable.Basic
import YwStorage.GridTable.Widths
import YwStorage.GridTable.Print
import YwStorage.Queue.Move
import YwStorage.BTree.Stamps
import YwStorage.BTree.Quiet
import YwStorage.BTree.Leaf
import YwStorage.BTree.Map
import YwStorage.BTree.Threads
