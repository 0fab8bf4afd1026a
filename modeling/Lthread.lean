import Lthread.Accept
import Lthread.AgreeMoves
import Lthread.Askers
import Lthread.Asserts
import Lthread.BlockedQueues
import Lthread.Bytes
import Lthread.Closing
import Lthread.Cond
import Lthread.CondQueue
import Lthread.CondSafety
import Lthread.Connect
import Lthread.Deadlines
import Lthread.Expiry
import Lthread.FdEof
import Lthread.HeapOrder
import Lthread.HeapQueue
import Lthread.IdleWait
import Lthread.InvCalls
import Lthread.InvCond
import Lthread.InvPoller
import Lthread.InvSched
import Lthread.IoMoves
import Lthread.IoWaits
import Lthread.IoWakeups
import Lthread.Life
import Lthread.Links
import Lthread.Memory
import Lthread.MinHeap
import Lthread.Mutexes
import Lthread.OrderedTree
import Lthread.Outcomes
import Lthread.Parking
import Lthread.PcMoves
import Lthread.Placement
import Lthread.Places
import Lthread.PointerRuns
import Lthread.Pointers
import Lthread.Poller
import Lthread.PollerAssert
import Lthread.PollerBooks
import Lthread.RbForest
import Lthread.RbInsert
import Lthread.RbLinks
import Lthread.RbRemove
import Lthread.RbRuns
import Lthread.RbTree
import Lthread.Readline
import Lthread.Reclaim
import Lthread.RedBlack
import Lthread.RingExit
import Lthread.Runs
import Lthread.SchedMoves
import Lthread.Scheduler
import Lthread.Shutdown
import Lthread.SiftDown
import Lthread.Sleep
import Lthread.Socket
import Lthread.SocketRefines
import Lthread.State
import Lthread.Stealing
import Lthread.Step
import Lthread.StepCases
import Lthread.StreamMerge
import Lthread.Suspended
import Lthread.TailQueue
import Lthread.TimedWait
import Lthread.Trace
import Lthread.TraceMerge
import Lthread.Turnover
import Lthread.UniquePlacement
import Lthread.Wakeups
import Lthread.Writev
