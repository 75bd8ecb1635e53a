-- SUMMARY: Threads, events and the variables of the library that the scheduler works on.
import Mathlib.Algebra.Order.Ring.Int
import Mathlib.Data.Fintype.Basic
import Pth.Types
import Pth.Queue.Pqueue

/-!
# Scheduler state

The thread control blocks, the five queues, the events threads wait for, and the
synchronisation objects the events look at. A control block is addressed by its
thread `τ`; `live` says which ones are allocated. -/

namespace Pth

/-- `pth_state_t` -/
inductive ThreadState where
  | scheduler
  | new
  | ready
  | waiting
  | dead
  deriving DecidableEq, Repr

/-- The queues `pth_NQ`, `pth_RQ`, `pth_WQ`, `pth_SQ` and `pth_DQ`. -/
inductive QId where
  | NQ
  | RQ
  | WQ
  | SQ
  | DQ
  deriving DecidableEq, Repr

instance : Fintype QId :=
  ⟨{.NQ, .RQ, .WQ, .SQ, .DQ}, fun k => by cases k <;> simp⟩

/-! ## Sets, times and events -/

/-- `fd_set` -/
abbrev FdSet := ℕ → Bool

/-- `sigset_t` -/
abbrev SigSet := ℕ → Bool

/-- `PTH_NSIG` -/
def nsig : ℕ := 32

/-- The signal numbers of the loops from 1 to `PTH_NSIG`. -/
def signals : List ℕ := List.range' 1 (nsig - 1)

/-- `pth_time_t` -/
structure Time where
  tvSec : ℤ
  tvUsec : ℤ
  deriving DecidableEq, Repr

namespace Time

def zero : Time := { tvSec := 0, tvUsec := 0 }

/-- `pth_time_cmp`, whose difference is cut down to an `int`. -/
def cmp (t₁ t₂ : Time) : ℤ :=
  let rc := (t₁.tvSec - t₂.tvSec).bmod (2 ^ 32)
  if rc = 0 then (t₁.tvUsec - t₂.tvUsec).bmod (2 ^ 32) else rc

/-- `pth_time_add` -/
def add (t₁ t₂ : Time) : Time :=
  let s := t₁.tvSec + t₂.tvSec
  let u := t₁.tvUsec + t₂.tvUsec
  if u > 1000000 then { tvSec := s + 1, tvUsec := u - 1000000 } else { tvSec := s, tvUsec := u }

/-- `pth_time_sub` -/
def sub (t₁ t₂ : Time) : Time :=
  let s := t₁.tvSec - t₂.tvSec
  let u := t₁.tvUsec - t₂.tvUsec
  if u < 0 then { tvSec := s - 1, tvUsec := u + 1000000 } else { tvSec := s, tvUsec := u }

end Time

/-- `pth_status_t` -/
inductive Status where
  | pending
  | occurred
  | failed
  deriving DecidableEq, Repr

/-- The goals of a file descriptor event. -/
structure FdGoal where
  readable : Bool
  writeable : Bool
  exception : Bool
  deriving DecidableEq, Repr

/-- The callback of a function event: `pth_exit_cb`, or one of the application. -/
inductive EventFunc where
  | exitCb
  | user (arg : ℕ)
  deriving DecidableEq, Repr

/-- `ev_type`, `ev_goal` and `ev_args`. The cells that `SELECT.n` and `SIGS.sig`
    point to are kept in the event; `none` is a null pointer. Message ports,
    mutexes and condition variables are addressed by numbers. -/
inductive EventArgs (τ : Type*) where
  | fd (goal : FdGoal) (fd : ℕ)
  | select (n : Option ℤ) (nfd : ℤ) (rfds wfds efds : Option FdSet)
  | sigs (sigs : SigSet) (sig : Option ℤ)
  | time (tv : Time)
  | msg (mp : ℕ)
  | mutex (m : ℕ)
  | cond (c : ℕ)
  | tid (tid : Option τ) (goal : ThreadState)
  | func (f : EventFunc) (tv : Time)

/-- `struct pth_event_st`; an event ring is a list that starts at its first
    event. -/
structure Event (τ : Type*) where
  evStatus : Status
  evArgs : EventArgs τ

/-! ## Threads -/

/-- `struct pth_st` without the queue links. `stackguard` says whether there is a
    guard, and `events` is empty for the null pointer. -/
structure Tcb (τ : Type*) where
  prio : ℤ
  state : ThreadState
  events : List (Event τ)
  sigpending : SigSet
  sigpendcnt : ℤ
  stackguard : Bool
  joinable : Bool
  joinArg : ℤ
  cancelreq : Bool
  cancelstate : ℕ

/-- `PTH_CANCEL_ENABLE`, bit 0 -/
def cancelEnable (n : ℕ) : Bool := n.testBit 0

/-- `PTH_CANCEL_ASYNCHRONOUS`, bit 2 -/
def cancelAsynchronous (n : ℕ) : Bool := n.testBit 2

/-- `PTH_CANCEL_DISABLE` -/
def cancelDisable : ℕ := 2

/-- `PTH_CANCEL_DEFAULT`, that is enabled and deferred -/
def cancelDefault : ℕ := 9

/-- `PTH_CANCELED` -/
def canceled : ℤ := -1

/-- The attributes `pth_spawn` takes over. -/
structure Attr where
  prio : ℤ
  joinable : Bool
  cancelstate : ℕ
  stacksize : ℕ

/-! ## The library's variables -/

/-- The bits of `cn_state` that the event manager reads. -/
structure CondState where
  signaled : Bool
  broadcast : Bool
  handled : Bool
  deriving DecidableEq, Repr

/-- What events look at: whether a mutex is locked, how many messages a port has,
    and the state of a condition variable. -/
structure Objects where
  mxLocked : ℕ → Bool
  mpElements : ℕ → ℤ
  cond : ℕ → CondState

/-- The variables of the library. `sigpipe` is the read end of `pth_sigpipe`, and
    `deletes` records every call of `pth_pqueue_delete` and whether the thread was
    in the queue. -/
structure Sched (τ : Type*) where
  queues : Queues QId τ
  tcb : τ → Tcb τ
  live : τ → Bool
  pthMain : τ
  pthSched : τ
  pthCurrent : Option τ
  favournew : Bool
  objects : Objects
  snapshot : Time
  sigpipe : ℕ
  deletes : List (QId × τ × Bool)

namespace Sched

variable {τ : Type*} [DecidableEq τ]

def modify (s : Sched τ) (t : τ) (f : Tcb τ → Tcb τ) : Sched τ :=
  { s with tcb := Function.update s.tcb t (f (s.tcb t)) }

@[simp, grind =] theorem modify_tcb (s : Sched τ) (t u : τ) (f : Tcb τ → Tcb τ) :
    (s.modify t f).tcb u = if u = t then f (s.tcb t) else s.tcb u := by
  simp [modify, Function.update_apply]

@[simp, grind =] theorem modify_live (s : Sched τ) (t : τ) (f : Tcb τ → Tcb τ) :
    (s.modify t f).live = s.live := rfl

@[simp, grind =] theorem modify_queues (s : Sched τ) (t : τ) (f : Tcb τ → Tcb τ) :
    (s.modify t f).queues = s.queues := rfl

@[simp, grind =] theorem modify_pthMain (s : Sched τ) (t : τ) (f : Tcb τ → Tcb τ) :
    (s.modify t f).pthMain = s.pthMain := rfl

@[simp, grind =] theorem modify_pthSched (s : Sched τ) (t : τ) (f : Tcb τ → Tcb τ) :
    (s.modify t f).pthSched = s.pthSched := rfl

@[simp, grind =] theorem modify_pthCurrent (s : Sched τ) (t : τ) (f : Tcb τ → Tcb τ) :
    (s.modify t f).pthCurrent = s.pthCurrent := rfl

theorem modify_modify (s : Sched τ) (t : τ) (f g : Tcb τ → Tcb τ) :
    (s.modify t f).modify t g = s.modify t fun x => g (f x) := by
  simp [modify]

@[simp] theorem modify_id (s : Sched τ) (t : τ) : (s.modify t fun x => x) = s := by
  simp [modify]

abbrev setState (s : Sched τ) (t : τ) (st : ThreadState) : Sched τ :=
  s.modify t fun x => { x with state := st }

def insert (s : Sched τ) (q : QId) (prio : ℤ) (t : τ) : Option (Sched τ) :=
  (s.queues.insert q prio t).map fun qs => { s with queues := qs }

def noteDelete (s : Sched τ) (q : QId) (t : τ) : Sched τ :=
  { s with deletes := (q, t, decide (t ∈ s.queues.threads q)) :: s.deletes }

def delete (s : Sched τ) (q : QId) (t : τ) : Option (Sched τ) :=
  (s.queues.delete q t).map fun qs => { s.noteDelete q t with queues := qs }

/-- `pth_pqueue_favorite` also deletes the thread from its queue. -/
def favorite (s : Sched τ) (q : QId) (t : τ) : Option (Sched τ) :=
  (s.queues.favorite q t).map fun r => { s.noteDelete q t with queues := r.2 }

/-- `pth_tcb_free` -/
def tcbFree (s : Sched τ) (t : τ) : Sched τ :=
  { s with live := Function.update s.live t false }

@[simp, grind =] theorem tcbFree_live (s : Sched τ) (t u : τ) :
    (s.tcbFree t).live u = if u = t then false else s.live u := by
  simp [tcbFree, Function.update_apply]

/-- `pth_exit_cb` -/
def exitCb (s : Sched τ) : Bool :=
  s.queues.elements .NQ + s.queues.elements .RQ + s.queues.elements .WQ
    + s.queues.elements .SQ = 1

/-- `pth_ctrl(PTH_CTRL_GETTHREADS)` -/
def getThreads (s : Sched τ) : ℤ :=
  s.queues.elements .NQ + s.queues.elements .RQ + 1 + s.queues.elements .WQ
    + s.queues.elements .SQ + s.queues.elements .DQ

end Sched

end Pth
