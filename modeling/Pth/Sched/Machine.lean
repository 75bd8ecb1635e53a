-- SUMMARY: The machine of all runs: calls of the running thread, scheduler rounds and event manager passes.
import Mathlib.Data.Fintype.Basic
import Pth.Lib.Machine
import Pth.Sched.Threads

/-!
# Runs

The state of a run holds the library's variables, where each thread stands in a
blocking call, and who has control. Only the running thread calls functions; when
it switches, the scheduler puts it back, passes through the event manager, and
takes the next thread. -/

namespace Pth

/-- What a thread does after the `pth_wait` it is in: return to its caller, or go on
    with `pth_join` or `pth_exit`. -/
inductive Cont (τ : Type*) where
  | caller
  | join (tid : Option τ)
  | exit (value : ℤ)
  deriving DecidableEq, Repr

/-- Where a thread stands: outside of blocking calls, in `pth_wait`, or behind the
    wait of `pth_join` or `pth_exit`. -/
inductive Pc (τ : Type*) where
  | user
  | waiting (k : Cont τ)
  | joining (tid : Option τ)
  | exiting (value : ℤ)
  deriving DecidableEq, Repr

/-- Where a thread goes on. -/
def Cont.next {τ : Type*} : Cont τ → Pc τ
  | .caller => .user
  | .join tid => .joining tid
  | .exit value => .exiting value

/-- Who has control: the running thread, the scheduler after a context switch, the
    event manager, the scheduler at the top of its loop, or nobody, because the
    process has exited, aborted or been killed. -/
inductive Phase where
  | running
  | switched
  | manager (dopoll : Bool)
  | top
  | exited (value : ℤ)
  | aborted
  | killed
  deriving DecidableEq, Repr

/-- How the event manager is called next. -/
def Phase.passes : Phase → Option Bool
  | .manager dopoll => some dopoll
  | _ => none

structure Run (τ : Type*) where
  lib : Sched τ
  pc : τ → Pc τ
  phase : Phase

/-- What `pth_attr_set` writes through an attribute object that `pth_attr_of` has bound to a
    thread, as far as the scheduler reads it. -/
inductive AttrSet where
  | prio (val : ℤ)
  | joinable (val : Bool)
  | cancelState (val : ℕ)
  deriving DecidableEq, Repr

/-- `pth_attr_ctrl` with `PTH_ATTR_SET` -/
def AttrSet.write {τ : Type*} (x : AttrSet) (tcb : Tcb τ) : Tcb τ :=
  match x with
  | .prio val => { tcb with prio := val }
  | .joinable val => { tcb with joinable := val }
  | .cancelState val => { tcb with cancelstate := val }

/-- Whether threads can join the thread may change. -/
def AttrSet.isJoinable : AttrSet → Bool
  | .joinable _ => true
  | _ => false

section

variable {τ : Type*} (x : AttrSet) (tcb : Tcb τ)

@[simp] theorem AttrSet.write_state : (x.write tcb).state = tcb.state := by cases x <;> rfl

variable {x}

theorem AttrSet.write_joinable (hx : x.isJoinable = false) :
    (x.write tcb).joinable = tcb.joinable := by
  cases x <;> first | rfl | cases hx

end

/-- The operations. `alloc` is the interval that `pth_exit` finds for its event, if
    the event can be allocated: the call passes no interval. `objects` stands for
    all calls on mutexes, condition variables and message ports, including those of
    `pth_thread_cleanup`.

    Cleanup handlers and destructors of the running thread that call the library are
    operations of their own before its `exit`: `unwind` is a cancellation point at which the
    thread heeds a request and begins to run them, whereas `cancelPoint` and `waitReturn`
    stand for cancellations without such handlers. The handlers that `pth_cancel` runs for
    another thread, and those of the main thread behind the wait of its exit, are taken to
    make no calls that switch. `pth_abort` makes the calls of other operations. -/
inductive Op (τ : Type*) where
  | spawn (attr : Option Attr) (func : StartFunc) (alloc : Option τ)
  | yield (t : Option τ)
  | wait (ring : List (Event τ))
  | waitReturn (alloc : Option Time)
  | suspend (t : Option τ)
  | resume (t : Option τ)
  | cancel (t : Option τ)
  | cancelState (newstate : ℕ)
  | cancelPoint (alloc : Option Time)
  | unwind (c : τ)
  | attr (t : τ) (x : AttrSet)
  | raise (t : Option τ) (sig : ℤ) (act : SigAction)
  | favournew (b : Bool)
  | objects (o : Objects)
  | exit (value : ℤ) (alloc : Option Time)
  | exitFinish
  | join (tid : Option τ) (alloc : Bool)
  | joinFinish
  | comeback (now : Time) (guard : Guard) (still : SigSet)
  | manage (env : Env τ)
  | dispatch

/-- What an operation returns to the caller of the library. -/
inductive Out (τ : Type*) where
  | none
  | ret (r : Ret)
  | spawned (r : Except Errno τ)
  | waited (ring : List (Event τ)) (n : ℕ)
  | joined (value : ℤ)

namespace Run

variable {τ : Type*} [DecidableEq τ]

/-- The number `pth_wait` returns. -/
def nonpending (ring : List (Event τ)) : ℕ := ring.countP fun ev => ev.evStatus ≠ .pending

def setPc (r : Run τ) (c : τ) (pc : Pc τ) : Run τ := { r with pc := Function.update r.pc c pc }

/-- `pth_wait` up to the context switch. -/
def startWait (r : Run τ) (c : τ) (ring : List (Event τ)) (k : Cont τ) : Run τ where
  lib := r.lib.modify c fun tcb =>
    { tcb with events := ring.map fun ev => { ev with evStatus := .pending }, state := .waiting }
  pc := Function.update r.pc c (.waiting k)
  phase := .switched

/-- `pth_exit` of the thread `c`. Without memory for the event, `pth_wait` fails at
    once and the main thread goes on. -/
def doExit (r : Run τ) (c : τ) (value : ℤ) (alloc : Option Time) : Run τ :=
  if c = r.lib.pthMain then
    if r.lib.exitCb then r.setPc c (.exiting value)
    else match alloc with
      | none => r.setPc c (.exiting value)
      | some tv =>
        r.startWait c [{ evStatus := .pending, evArgs := .func .exitCb tv }] (.exit value)
  else
    { lib := r.lib.modify c fun tcb => { tcb with joinArg := value, state := .dead }
      pc := Function.update r.pc c .user
      phase := .switched }

/-- `pth_cancel_point` of the thread `c`, if it terminates the thread. -/
def doCancel (r : Run τ) (c : τ) (alloc : Option Time) : Run τ :=
  { r with lib := r.lib.modify c fun tcb => { tcb with cancelreq := false } }.doExit c canceled
    alloc

/-- `pth_cancel_point` of the thread `c` up to the cleanup handlers. -/
def unwind (r : Run τ) (c : τ) : Run τ :=
  { r with lib := r.lib.modify c fun tcb => { tcb with cancelreq := false } }.setPc c .user

/-- The rest of `pth_wait` of the thread `c`. -/
def waitReturn (r : Run τ) (c : τ) (k : Cont τ) (alloc : Option Time) : Out τ × Run τ :=
  if r.lib.cancelPending c then (.none, r.doCancel c alloc)
  else
    let ring := (r.lib.tcb c).events
    (.waited ring (nonpending ring),
      { r with lib := r.lib.modify c fun tcb => { tcb with events := [] } }.setPc c k.next)

/-- `pth_join` of the thread `c` up to its wait. -/
def join (r : Run τ) (c : τ) (tid : Option τ) (alloc : Bool) : Out τ × Run τ :=
  if tid = some c then (.ret (.error .EDEADLK), r)
  else if tid.any fun u => !(r.lib.tcb u).joinable then (.ret (.error .EINVAL), r)
  else if r.lib.getThreads = 1 then (.ret (.error .EDEADLK), r)
  else
    let tid := tid <|> r.lib.queues.head .DQ
    if tid.all (fun u => (r.lib.tcb u).state ≠ .dead) && alloc then
      (.none, r.startWait c [{ evStatus := .pending, evArgs := .tid tid .dead }] (.join tid))
    else (.none, r.setPc c (.joining tid))

/-- The rest of `pth_join`. -/
def joinFinish (r : Run τ) (c : τ) (tid : Option τ) : Option (Out τ × Run τ) :=
  let r' := r.setPc c .user
  match tid <|> r.lib.queues.head .DQ with
  | none => some (.ret (.error Errno.EIO), r')
  | some u =>
    if (r.lib.tcb u).state ≠ .dead then some (.ret (.error Errno.EIO), r')
    else (r.lib.delete .DQ u).map fun s =>
      (.joined (r.lib.tcb u).joinArg, { r' with lib := s.tcbFree u })

/-- Go on with the library's variables after a call. -/
def returns (r : Run τ) (x : Option (Ret × Sched τ)) : Option (Out τ × Run τ) :=
  x.map fun (ret, s) => (.ret ret, { r with lib := s })

/-- Execute an operation; `c` is the running thread. -/
def exec (r : Run τ) (op : Op τ) : Option (Out τ × Run τ) :=
  match op, r.lib.pthCurrent with
  | .spawn attr func alloc, _ =>
    (r.lib.spawn attr func alloc).map fun (x, s) =>
      (.spawned x, { r with lib := s, pc := match x with
        | .ok t => Function.update r.pc t .user
        | .error _ => r.pc })
  | .yield t, _ =>
    (r.lib.yield t).map fun (x, s) =>
      (.ret x, { r with lib := s, phase := if x = .ok then .switched else r.phase })
  | .wait [], _ => some (.ret (.error .EINVAL), r)
  | .wait (ev :: ring), some c => some (.none, r.startWait c (ev :: ring) .caller)
  | .waitReturn alloc, some c =>
    match r.pc c with
    | .waiting k => some (r.waitReturn c k alloc)
    | _ => none
  | .suspend t, _ => r.returns (r.lib.suspend t)
  | .resume t, _ => r.returns (r.lib.resume t)
  | .cancel t, _ => r.returns (r.lib.cancel t)
  | .cancelState n, some c => some (.none, { r with lib := r.lib.setCancelState c n })
  | .cancelPoint alloc, some c =>
    some (.none, if r.lib.cancelPending c then r.doCancel c alloc else r)
  | .unwind c, _ => some (.none, r.unwind c)
  | .attr t x, _ => some (.ret .ok, { r with lib := r.lib.modify t x.write })
  | .raise t sig act, _ =>
    (r.lib.raise t sig act).map fun (x, switch, s) =>
      (.ret x, { r with lib := s, phase := if switch then .switched else r.phase })
  | .favournew b, _ => some (.none, { r with lib := { r.lib with favournew := b } })
  | .objects o, _ => some (.none, { r with lib := { r.lib with objects := o } })
  | .exit value alloc, some c => some (.none, r.doExit c value alloc)
  | .exitFinish, some c =>
    match r.pc c with
    | .exiting value => some (.none, { r with phase := .exited value })
    | _ => none
  | .join tid alloc, some c => some (r.join c tid alloc)
  | .joinFinish, some c =>
    match r.pc c with
    | .joining tid => r.joinFinish c tid
    | _ => none
  | .comeback now guard still, some c =>
    if guard = .killed then some (.none, { r with phase := .killed })
    else (r.lib.comeback c now (guard = .caught) still).map fun s =>
      (.none, { r with lib := s, phase := .manager s.polls })
  | .manage env, _ =>
    match r.phase with
    | .manager dopoll =>
      (r.lib.eventmanager env dopoll).map fun (repeats, s) =>
        (.none, { r with lib := s, phase := if repeats then .manager false else .top })
    | _ => none
  | .dispatch, _ =>
    r.lib.dispatch.map fun s =>
      (.none, { r with lib := s, phase := if s.pthCurrent = none then .aborted else .running })
  | _, none => none

/-- A pass of the event manager. -/
theorem exec_pass {r : Run τ} {dopoll : Bool} (hph : r.phase = .manager dopoll) (env : Env τ) :
    r.exec (.manage env) = (r.lib.eventmanager env dopoll).map fun (repeats, s) =>
      (.none, { r with lib := s, phase := if repeats then .manager false else .top }) := by
  simp only [exec, hph]

/-! ## When an operation may come -/

/-- The running thread stands outside of blocking calls. -/
def calls (r : Run τ) : Prop := r.phase = .running ∧ r.lib.pthCurrent.any (r.pc · = .user)

/-- The thread `w` is in `pth_join` for the thread `u`. -/
def joins (r : Run τ) (w u : τ) : Prop :=
  r.lib.live w ∧ (r.lib.tcb w).state ≠ .dead ∧
    (r.pc w = .waiting (.join (some u)) ∨ r.pc w = .joining (some u))

/-- No thread joins the thread `u`, if there is one. -/
def unjoined (r : Run τ) (u : Option τ) : Prop := ∀ v, u = some v → ∀ w, ¬ r.joins w v

/-- Who may do what: thread arguments are handles of existing threads, a new thread
    gets a control block that is free, there is at most one joiner for each thread, and
    a thread that is joined or dead stays joinable. A stack overflow needs a guard. -/
def enabled (r : Run τ) : Op τ → Prop
  | .spawn _ func alloc =>
    r.calls ∧ (func = .user ∨ func = .null) ∧ alloc.all fun t => !r.lib.live t
  | .yield t | .suspend t | .resume t | .cancel t | .raise t _ _ => r.calls ∧ t.all r.lib.live
  | .wait _ | .cancelState _ | .cancelPoint _ | .favournew _ | .exit _ _ => r.calls
  | .attr t x =>
    r.calls ∧ r.lib.live t ∧ (x.isJoinable →
      t ≠ r.lib.pthSched ∧ (r.lib.tcb t).state ≠ .dead ∧ r.unjoined (some t))
  | .unwind c =>
    r.phase = .running ∧ r.lib.pthCurrent = some c ∧ r.lib.cancelPending c ∧
      (r.pc c matches .user | .waiting _)
  | .objects _ => r.phase = .running
  | .waitReturn _ => r.phase = .running ∧ r.lib.pthCurrent.any fun c => (r.pc c matches .waiting _)
  | .exitFinish => r.phase = .running ∧ r.lib.pthCurrent.any fun c => (r.pc c matches .exiting _)
  | .join tid _ =>
    r.calls ∧ tid.all r.lib.live ∧ r.unjoined (tid <|> r.lib.queues.head .DQ)
  | .joinFinish =>
    r.phase = .running ∧ (r.lib.pthCurrent.any fun c => (r.pc c matches .joining _)) ∧
      (r.lib.pthCurrent.any (r.pc · = .joining none) → r.unjoined (r.lib.queues.head .DQ))
  | .comeback _ guard _ =>
    r.phase = .switched ∧
      (guard = .intact ∨ r.lib.pthCurrent.any fun c => (r.lib.tcb c).stackguard)
  | .manage env => r.phase.passes.any fun dopoll => Sched.selectReturns env r.lib dopoll
  | .dispatch => r.phase = .top

section

variable [Fintype τ] (r : Run τ)

instance : Decidable r.calls := inferInstanceAs (Decidable (_ ∧ _))

instance (w u : τ) : Decidable (r.joins w u) := inferInstanceAs (Decidable (_ ∧ _))

instance (u : Option τ) : Decidable (r.unjoined u) := inferInstanceAs (Decidable (∀ _, _))

instance : (op : Op τ) → Decidable (r.enabled op)
  | .spawn _ _ _ => inferInstanceAs (Decidable (_ ∧ _))
  | .yield _ | .suspend _ | .resume _ | .cancel _ | .raise _ _ _ =>
    inferInstanceAs (Decidable (_ ∧ _))
  | .wait _ | .cancelState _ | .cancelPoint _ | .favournew _ | .exit _ _ =>
    inferInstanceAs (Decidable r.calls)
  | .attr _ _ | .unwind _ => inferInstanceAs (Decidable (_ ∧ _))
  | .objects _ => inferInstanceAs (Decidable (_ = _))
  | .waitReturn _ | .exitFinish => inferInstanceAs (Decidable (_ ∧ _))
  | .join _ _ | .joinFinish => inferInstanceAs (Decidable (_ ∧ _))
  | .comeback _ _ _ => inferInstanceAs (Decidable (_ ∧ _))
  | .manage _ => inferInstanceAs (Decidable (_ = _))
  | .dispatch => inferInstanceAs (Decidable (_ = _))

end

/-- A state that `pth_init` leaves. -/
def init (r : Run τ) : Prop :=
  ∃ (s : Sched τ) (main sched : τ) (now : Time), main ≠ sched ∧
    s.pthInit main sched now = some r.lib ∧ r.pc = (fun _ => .user) ∧ r.phase = .running

def machine : Machine (Run τ) (Op τ) (Out τ) where
  init := init
  enabled := enabled
  exec := exec

instance [Fintype τ] (r : Run τ) (op : Op τ) : Decidable (machine.enabled r op) :=
  inferInstanceAs (Decidable (r.enabled op))

/-- The state that `pth_init` leaves when it finds the variables `s`. -/
def boot (s : Sched τ) (main sched : τ) (now : Time) : Run τ where
  lib := (s.pthInit main sched now).getD s
  pc _ := .user
  phase := .running

end Run

end Pth
