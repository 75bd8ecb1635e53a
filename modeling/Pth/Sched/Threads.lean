-- SUMMARY: The thread functions and the scheduler's loop body, on the library's variables.
import Pth.Sched.EventManager

/-!
# Thread functions

`pth_spawn`, `pth_yield`, `pth_suspend`, `pth_resume`, `pth_cancel` and the parts
of `pth_scheduler` before and after a thread runs. Each takes the library's
variables and returns them changed; `none` stands for a fault. Context switches
and the program counters of the threads are added by the machine of all runs. -/

namespace Pth

/-- The start routine given to `pth_spawn`: a null pointer, the scheduler, the
    special value for the main program, or a function of the application. -/
inductive StartFunc where
  | null
  | scheduler
  | main
  | user
  deriving DecidableEq, Repr

/-- What the scheduler finds at the stack guard of the thread that ran, and for a
    broken guard whether the application catches `SIGSEGV`. -/
inductive Guard where
  | intact
  | killed
  | caught
  deriving DecidableEq, Repr

/-- What `sigaction` says about a signal. -/
inductive SigAction where
  | fails
  | ignored
  | handled
  deriving DecidableEq, Repr

/-- The queue in which a thread of the given state waits, if the thread is not
    suspended. -/
def placeOf : ThreadState → Option QId
  | .new => some .NQ
  | .ready => some .RQ
  | .waiting => some .WQ
  | _ => none

/-- The queue in which `pth_yield` looks for a thread: only new and ready threads can
    be favored. -/
def yieldPlace : ThreadState → Option QId
  | .new => some .NQ
  | .ready => some .RQ
  | _ => none

namespace Sched

variable {τ : Type*} [DecidableEq τ]

/-! ## Threads -/

/-- The attributes of a new thread: the given ones, or some of the parent's. -/
def spawnAttr (s : Sched τ) : Option Attr → Attr
  | some attr => attr
  | none =>
    match s.pthCurrent with
    | some c => { prio := (s.tcb c).prio, joinable := (s.tcb c).joinable,
                  cancelstate := (s.tcb c).cancelstate, stacksize := 64 * 1024 }
    | none => { prio := prioStd, joinable := true, cancelstate := cancelDefault,
                stacksize := 64 * 1024 }

/-- The control block of a new thread. The scheduler's state is not written. -/
def spawnTcb (s : Sched τ) (attr : Option Attr) (func : StartFunc) (t : τ) : Tcb τ :=
  let a := s.spawnAttr attr
  { prio := a.prio
    state := if func = .scheduler then (s.tcb t).state else .new
    events := []
    sigpending := fun _ => false
    sigpendcnt := 0
    stackguard := decide (a.stacksize > 0)
    joinable := a.joinable
    joinArg := 0
    cancelreq := false
    cancelstate := a.cancelstate }

/-- The library's variables with a control block for the new thread `t`. -/
def created (s : Sched τ) (attr : Option Attr) (func : StartFunc) (t : τ) : Sched τ :=
  { s with tcb := Function.update s.tcb t (s.spawnTcb attr func t)
           live := Function.update s.live t true }

/-- `pth_spawn`, where `alloc` is the control block that could be allocated. -/
def spawn (s : Sched τ) (attr : Option Attr) (func : StartFunc) (alloc : Option τ) :
    Option (Except Errno τ × Sched τ) :=
  if func = .null then some (.error .EINVAL, s)
  else match alloc with
    | none => some (.error .ENOMEM, s)
    | some t =>
      let s' := s.created attr func t
      if func = .scheduler then some (.ok t, s')
      else (s'.insert .NQ (s'.tcb t).prio t).map fun s'' => (.ok t, s'')

/-- `pth_yield` up to the context switch, which follows if it returns `TRUE`. -/
def yield (s : Sched τ) : Option τ → Option (Ret × Sched τ)
  | none => some (.ok, s)
  | some t =>
    match yieldPlace (s.tcb t).state with
    | none => some (.error .EINVAL, s)
    | some q =>
      (s.queues.contains q t).bind fun b =>
        -- give a favored thread maximum priority in its queue
        if b then (s.favorite q t).map fun s' => (.ok, s') else some (.error .EINVAL, s)

/-- `pth_suspend` -/
def suspend (s : Sched τ) : Option τ → Option (Ret × Sched τ)
  | none => some (.error .EINVAL, s)
  | some t =>
    if t = s.pthSched ∨ some t = s.pthCurrent then some (.error .EPERM, s)
    else match placeOf (s.tcb t).state with
      | none => some (.error .EPERM, s)
      | some q =>
        (s.queues.contains q t).bind fun b =>
          if b then
            (s.delete q t).bind fun s₁ => (s₁.insert .SQ prioStd t).map fun s₂ => (.ok, s₂)
          else some (.error .ESRCH, s)

/-- `pth_resume`. Inserting into a null queue does nothing. -/
def resume (s : Sched τ) : Option τ → Option (Ret × Sched τ)
  | none => some (.error .EINVAL, s)
  | some t =>
    if t = s.pthSched ∨ some t = s.pthCurrent then some (.error .EPERM, s)
    else
      (s.queues.contains .SQ t).bind fun b =>
        if b then
          (s.delete .SQ t).bind fun s₁ =>
            match placeOf (s₁.tcb t).state with
            | none => some (.ok, s₁)
            | some q => (s₁.insert q prioStd t).map fun s₂ => (.ok, s₂)
        else some (.error .EPERM, s)

/-- `pth_cancel` -/
def cancel (s : Sched τ) : Option τ → Option (Ret × Sched τ)
  | none => some (.error .EINVAL, s)
  | some t =>
    if some t = s.pthCurrent then some (.error .EINVAL, s)
    else if (s.tcb t).state = .dead then some (.error .EPERM, s)
    else
      let s₁ := s.modify t fun tcb => { tcb with cancelreq := true }
      if cancelEnable (s.tcb t).cancelstate && cancelAsynchronous (s.tcb t).cancelstate then
        match placeOf (s.tcb t).state with
        | none => some (.error .ESRCH, s₁)
        | some q =>
          (s₁.queues.contains q t).bind fun b =>
            if b then
              (s₁.delete q t).bind fun s₂ =>
                -- either kick it out or move it to the dead queue
                if (s₂.tcb t).joinable then
                  let s₃ := s₂.modify t fun tcb =>
                    { tcb with joinArg := canceled, state := .dead }
                  (s₃.insert .DQ prioStd t).map fun s₄ => (.ok, s₄)
                else some (.ok, s₂.tcbFree t)
            else some (.error .ESRCH, s₁)
      else some (.ok, s₁)

/-- `pth_cancel_state` for the thread `c` -/
def setCancelState (s : Sched τ) (c : τ) (newstate : ℕ) : Sched τ :=
  if newstate ≠ 0 then s.modify c fun tcb => { tcb with cancelstate := newstate } else s

/-- Whether `pth_cancel_point` terminates the thread `c`. -/
def cancelPending (s : Sched τ) (c : τ) : Bool :=
  (s.tcb c).cancelreq && cancelEnable (s.tcb c).cancelstate

/-- `pth_thread_exists`, which looks into one queue after the other. -/
def threadExists (s : Sched τ) (t : τ) : Option Ret :=
  [QId.NQ, .RQ, .WQ, .SQ, .DQ].foldlM (fun r q =>
    if r = Ret.ok then some r
    else (s.queues.contains q t).map fun b => if b then Ret.ok else r) (.error .ESRCH)

/-- `pth_raise` up to the context switch; the second result says whether it
    follows. -/
def raise (s : Sched τ) (t : Option τ) (sig : ℤ) (act : SigAction) :
    Option (Ret × Bool × Sched τ) :=
  match t with
  | none => some (.error .EINVAL, false, s)
  | some t =>
    if some t = s.pthCurrent ∨ sig < 0 ∨ sig > nsig then some (.error .EINVAL, false, s)
    else if sig = 0 then (s.threadExists t).map fun r => (r, false, s)
    else match act with
      | .fails => some (.error .EINVAL, false, s)
      | .ignored => some (.ok, false, s)
      | .handled =>
        let add (tcb : Tcb τ) : Tcb τ :=
          { tcb with sigpending := Function.update tcb.sigpending sig.toNat true
                     sigpendcnt := tcb.sigpendcnt + 1 }
        let s₁ := if (s.tcb t).sigpending sig.toNat then s else s.modify t add
        (s₁.yield (some t)).map fun (r, s₂) => (.ok, decide (r = .ok), s₂)

/-! ## The scheduler -/

/-- The loop that moves new threads to the ready queue, starting with the last. -/
def drainNew : Nat → Sched τ → Option (Sched τ)
  | n, s =>
    match s.queues.tail .NQ with
    | none => some s
    | some t =>
      match n with
      | 0 => none
      | n + 1 =>
        (s.delete .NQ t).bind fun s₁ =>
          let prio := if s.favournew then s₁.queues.favoritePrio .RQ else prioStd
          ((s₁.setState t .ready).insert .RQ prio t).bind (drainNew n)

/-- The scheduler's loop up to the context switch: `pth_current` is the next thread
    of the ready queue, or null if there is none. -/
def dispatch (s : Sched τ) : Option (Sched τ) :=
  (drainNew (s.queues.elements .NQ).toNat s).bind fun s₁ =>
    (s₁.queues.delmax .RQ).map fun (t, qs) => { s₁ with queues := qs, pthCurrent := t }

/-- Remove the thread signals that have been delivered while the thread ran. -/
def dropDelivered (still : SigSet) (tcb : Tcb τ) : Tcb τ :=
  if tcb.sigpendcnt > 0 then
    signals.foldl (fun x n =>
      if x.sigpending n && !still n then
        { x with sigpending := Function.update x.sigpending n false
                 sigpendcnt := x.sigpendcnt - 1 }
      else x) tcb
  else tcb

/-- The value the scheduler leaves in `join_arg` after a stack overflow. -/
def overflowArg : ℤ := 0xDEAD

/-- Queue the thread `c` that ran last, unless it stays ready. -/
def retire (s : Sched τ) (c : τ) : Option (Sched τ) :=
  match (s.tcb c).state with
  | .dead =>
    if (s.tcb c).joinable then
      (s.insert .DQ prioStd c).map fun s' => { s' with pthCurrent := none }
    else some { s.tcbFree c with pthCurrent := none }
  | .waiting =>
    (s.insert .WQ (s.tcb c).prio c).map fun s' => { s' with pthCurrent := none }
  | _ => some s

/-- Migrate old threads into higher priorities, and insert the last running thread
    again. -/
def requeue (s : Sched τ) : Option (Sched τ) :=
  let s' := { s with queues := s.queues.increase .RQ }
  match s.pthCurrent with
  | none => some s'
  | some c => s'.insert .RQ (s.tcb c).prio c

/-- The scheduler's loop after the context switch from `c`, up to the event
    manager. -/
def comeback (s : Sched τ) (c : τ) (now : Time) (overflow : Bool) (still : SigSet) :
    Option (Sched τ) :=
  let s₁ := { s with snapshot := now }.modify c (dropDelivered still)
  let s₂ := if overflow then
      s₁.modify c fun tcb => { tcb with joinArg := overflowArg, state := .dead }
    else s₁
  (s₂.retire c).bind requeue

/-- Whether the event manager is called to poll. -/
def polls (s : Sched τ) : Bool :=
  !(s.queues.elements .RQ = 0 && s.queues.elements .NQ = 0)

/-! ## Initialisation -/

/-- `pth_scheduler_init` -/
def schedulerInit (s : Sched τ) : Sched τ :=
  { s with
    queues := ((((s.queues.init .NQ).init .RQ).init .WQ).init .SQ).init .DQ
    live := fun _ => false
    pthCurrent := none
    favournew := true
    deletes := [] }

/-- The attributes of the scheduler thread. -/
def schedAttr : Attr :=
  { prio := prioMax, joinable := false, cancelstate := cancelDisable, stacksize := 65536 }

/-- The attributes of the main thread. -/
def mainAttr : Attr :=
  { prio := prioStd, joinable := true, cancelstate := cancelDefault, stacksize := 0 }

/-- `pth_init` with the control blocks `sched` and `main`, and the scheduler's first
    steps until it switches to the main thread. -/
def pthInit (s : Sched τ) (main sched : τ) (now : Time) : Option (Sched τ) :=
  (s.schedulerInit.spawn (some schedAttr) .scheduler (some sched)).bind fun (_, s₁) =>
    ({ s₁ with pthSched := sched }.spawn (some mainAttr) .main (some main)).bind fun (_, s₂) =>
      let s₃ := { s₂ with pthMain := main, pthCurrent := some sched, snapshot := now }
      (s₃.setState sched .scheduler).dispatch

end Sched

end Pth
