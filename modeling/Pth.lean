import Pth.Queue.Refine
import Pth.Sync.ReleaseAll
import Pth.Sync.RwlockRuns
import Pth.Sched.Machine
import Pth.Sched.Consistent
import Pth.Sched.Calls
import Pth.Sched.Rounds
import Pth.Sched.Wakeup
import Pth.Sched.Effect
import Pth.Sched.Invariant
import Pth.Sched.Progress
import Pth.Sched.Wait
import Pth.Sched.Exit
import Pth.Sched.Yield
import Pth.Sync.RwlockRelease
import Pth.Sync.Cancel
import Pth.Sync.Barrier
import Pth.Sync.BarrierRuns
import Pth.Sched.CondEvents
import Pth.Sync.CondRuns
import Pth.Sync.NotifyRuns
import Pth.Sched.Join
import Pth.Lib.Along
import Pth.Sched.Signals
import Pth.Sched.SignalPass
import Pth.Queue.RingRefine
import Pth.Event.Ring
import Pth.Event.Refine
import Pth.Event.Calls
import Pth.Lib.Triple
import Pth.Event.Extra
import Pth.Msg.Port
import Pth.Msg.PortRuns
import Pth.High.Positioned
import Pth.Lib.Bytes
import Pth.Mctx.Switch
import Pth.Mctx.FpRuns
import Pth.High.Sigmask
import Pth.Sched.Select
import Pth.Sched.Recheck
import Pth.Sched.Timers
import Pth.Sched.Favournew
import Pth.Lib.PrioLevels
import Pth.Queue.Aging
import Pth.Queue.Overflow
import Pth.Sched.RoundBounds
import Pth.Sched.RoundRuns
import Pth.Sched.Fork
import Pth.Sched.Once
import Pth.Data.Keys
import Pth.Mctx.Uctx
import Pth.High.FdMode
import Pth.Sched.Abort
import Pth.Sched.Timedwait
import Pth.Sched.Times
import Pth.High.FakedRwv
import Pth.High.Poll
import Pth.High.SelectEv
import Pth.Lib.Logged
import Pth.Event.AcceptWaits
import Pth.High.WriteData
import Pth.High.WriteRuns
import Pth.High.WriteFaults
import Pth.Event.Spec
import Pth.Event.Walk
import Pth.Msg.Destroy
import Pth.Data.Destroydata
import Pth.Sync.AwaitDepth
import Pth.Sync.RwlockUndo
import Pth.Lib.Numeral
import Pth.Lib.While
import Pth.String.Fields
import Pth.String.IntField
import Pth.String.Dopr
import Pth.String.Cursor
import Pth.String.Vsnprintf
import Pth.Mctx.Resume
import Pth.String.StrField
import Pth.Sched.Starvation
import Pth.Signal.Process
import Pth.Signal.Exchange
import Pth.Sched.LastWords
import Pth.Sched.Lists
import Pth.Sched.Suspended
import Pth.Sched.Kill
import Pth.Sched.Accounting
import Pth.Sched.ForkRuns
import Pth.Sched.Census
import Pth.Sched.CancelRuns
