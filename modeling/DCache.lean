import DCache.LRU.History
import DCache.LRU.Cache
import DCache.Bytes
import DCache.Lib.HashRing
import DCache.Ring.Refinement
import DCache.Lib.Cyclic
import DCache.Master.Topology
import DCache.Cache.Recovery
import DCache.Cluster.Identity
import DCache.Cluster.Routing
import DCache.Cache.Writes
import DCache.Master.Circle
import DCache.Threads.WorkQueue
import DCache.Cluster.Framing
import DCache.Cache.Pipelining
import DCache.Cache.Presence
import DCache.Cache.Rest
import DCache.Cache.Ownership
import DCache.Cache.Order
import DCache.Cluster.Views
import DCache.Cache.Rebuild
import DCache.Master.Distribute
import DCache.Master.Disconnect
import DCache.Cache.EventLoop
import DCache.Cluster.Lookups
import DCache.Cache.Stale
import DCache.Cache.Refresh
import DCache.Cluster.Expansion
import DCache.Log.Peeks
import DCache.Cluster.AddressList
import DCache.LRU.Pass
import DCache.Cache.Descriptors
import DCache.Master.SelfBackup
import DCache.Master.Registration
import DCache.Cluster.Parsing
import DCache.Cluster.Formats
import DCache.Cluster.Answers
import DCache.Cache.Aborts
import DCache.Cache.Capacity
import DCache.Log.Rotation
import DCache.Log.Async
import DCache.Log.Line
import DCache.Addresses
import DCache.Lib.Blocks
import DCache.Lib.Monitor
import DCache.Lib.RedBlack
import DCache.Lib.Settle
import DCache.Lib.TreeHeap
import DCache.Lib.While
import DCache.Log.QueueThreads
import DCache.Ring.Md5
import DCache.Ring.Md5Stream
import DCache.Ring.RbCheck
import DCache.Ring.RbMap
import DCache.Ring.TreeConHash
