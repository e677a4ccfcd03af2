import OsLab.Lib.Trans
import OsLab.Lib.Int32
import OsLab.Lib.ParentTree
import OsLab.Lib.Precedence
import OsLab.A5.Worker
import OsLab.A7.Mutex
import OsLab.A7.Release
import OsLab.A7.Barrier
import OsLab.A7.Rounds
import OsLab.A7.Exit
import OsLab.A7.ComputeSum
import OsLab.A7.TreeSum
import OsLab.A5.Topo
import OsLab.A8.Mmu
import OsLab.A8.Frames
import OsLab.A6.Event
import OsLab.A8.Paging
import OsLab.A8.Routing
import OsLab.A9.Rsync
import OsLab.A9.Calls
import OsLab.A9.Mirror
import OsLab.A9.Sync
import OsLab.A9.Result
import OsLab.A8.Lru
import OsLab.A8.Isolation
import OsLab.A8.Accounting
import OsLab.A3.Cse
import OsLab.A3.Framing
import OsLab.A2.Mgr
import OsLab.A2.Signals
import OsLab.Lib.Schedule
import OsLab.A6.Session
import OsLab.A6.Schedule
import OsLab.A6.Visitors
import OsLab.A4.Payload
import OsLab.A6.PthreadBarrier
import OsLab.A9.Frame
import OsLab.A2.Count
import OsLab.A2.Truth
import OsLab.A5.Deadlock
import OsLab.A7.AtomicBarrier
import OsLab.A7.ExitCount
import OsLab.A7.TreeRun
import OsLab.A7.TreeDeadlock
import OsLab.A6.Handshake
import OsLab.A6.Wakeup
import OsLab.A3.Processes
import OsLab.A3.Executors
import OsLab.A2.Waiting
import OsLab.A8.Local
import OsLab.A8.Report
import OsLab.A8.Alloc
import OsLab.A8.RefStr
import OsLab.A6.Horizon
import OsLab.A6.Joins
import OsLab.A7.Tokens
import OsLab.A1.Proctree
import OsLab.A1.Treeinfo
import OsLab.Lib.Unfold
import OsLab.A1.Preorder
import OsLab.A6.Refusals
import OsLab.A6.Order
import OsLab.A6.Arrival
import OsLab.A6.Arrays
import OsLab.A9.Live
import OsLab.A9.Nested
import OsLab.A9.Descriptors
import OsLab.A2.Indices
import OsLab.A3.Descriptors
import OsLab.Lib.Loop
import OsLab.Lib.Shuffle
import OsLab.Lib.Cells
import OsLab.A5.Gengraph
import OsLab.A5.Boss
import OsLab.A7.Gentree
import OsLab.A6.Clock
import OsLab.A8.Misses
import OsLab.A8.Completion
import OsLab.A7.TreeEnd
import OsLab.A6.Day
import OsLab.A5.Completion
import OsLab.A5.GraphFile
import OsLab.A7.TreeText
import OsLab.A4.Shutdown
import OsLab.A9.Changes
import OsLab.A6.Follows
import OsLab.A6.Outcome
import OsLab.A2.Table
import OsLab.A6.Handover
import OsLab.A6.Stuck
