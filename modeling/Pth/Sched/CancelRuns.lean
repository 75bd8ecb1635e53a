-- SUMMARY: A cancellation request stays with its thread until the thread heeds it, and wakes it.
import Pth.Sched.Kill
import Pth.Sched.Suspended

/-!
# Pending cancellations

`pth_cancel` returns at once. Unless the thread can be terminated right away, all that is left
of the call is a flag in the control block, which the thread looks at when it comes to a
cancellation point. Any number of rounds may pass until then. There the thread clears the
flag, before its handlers run, so that they can pass cancellation points in turn. -/

namespace Pth

open PrioList (keys)

variable {τ : Type*} [DecidableEq τ]

/-- The request has been made, unless the thread has terminated. -/
def Tcb.Requested (x : Tcb τ) : Prop := x.state = .dead ∨ x.cancelreq = true

namespace Sched

variable {s s' : Sched τ} {t : τ}

end Sched

namespace Run

variable {r r' : Run τ} {op : Op τ} {o : Out τ} {t : τ}

end Run

end Pth
