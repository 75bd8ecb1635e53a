-- SUMMARY: One pass of pth_sched_eventmanager: scan the events, sleep in select(2), and wake threads.
import Pth.Sched.State

/-!
# The event manager

A pass scans the events of all waiting threads, sleeps in `select(2)` for file
descriptors, timers and signals, and then moves every thread with an event that
occurred or failed to the ready queue. What the operating system and the
application's callbacks answer is in `Env`. Signal masks and actions are not
modelled: `select(2)` returns together with the signals that the handler of the
scheduler has caught meanwhile. -/

namespace Pth

/-! ## File descriptor sets -/

/-- The sets `rfds`, `wfds` and `efds`. -/
structure FdSets where
  r : FdSet
  w : FdSet
  e : FdSet

namespace FdSets

/-- `FD_ZERO` of all three sets. -/
def zero : FdSets := { r := fun _ => false, w := fun _ => false, e := fun _ => false }

/-- `FD_SET` in the sets that a file descriptor event asks for. -/
def add (x : FdSets) (goal : FdGoal) (fd : ℕ) : FdSets where
  r := if goal.readable then Function.update x.r fd true else x.r
  w := if goal.writeable then Function.update x.w fd true else x.w
  e := if goal.exception then Function.update x.e fd true else x.e

/-- `FD_ISSET` in one of the sets that a file descriptor event asks for. -/
def test (x : FdSets) (goal : FdGoal) (fd : ℕ) : Bool :=
  goal.readable && x.r fd || goal.writeable && x.w fd || goal.exception && x.e fd

/-- `FD_CLR` in all three sets. -/
def clear (x : FdSets) (fd : ℕ) : FdSets where
  r := Function.update x.r fd false
  w := Function.update x.w fd false
  e := Function.update x.e fd false

/-- The sets of a select event, where a null pointer is the empty set. -/
def ofSelect (rfds wfds efds : Option FdSet) : FdSets where
  r := rfds.getD fun _ => false
  w := wfds.getD fun _ => false
  e := efds.getD fun _ => false

end FdSets

/-- One set of `pth_util_fds_merge`. -/
def fdsMerge (nfd : ℤ) (ifds : Option FdSet) (ofds : FdSet) : FdSet := fun s =>
  ofds s || (decide ((s : ℤ) < nfd) && (ifds.getD fun _ => false) s)

/-- `pth_util_fds_test` -/
def fdsTest (nfd : ℤ) (i o : FdSets) : Bool :=
  (List.range nfd.toNat).any fun s => i.r s && o.r s || i.w s && o.w s || i.e s && o.e s

/-- What `pth_util_fds_select` leaves of one set. -/
def fdsKeep (nfd : ℤ) (ifds : Option FdSet) (ofds : FdSet) : Option FdSet :=
  ifds.map fun i s => if (s : ℤ) < nfd then i s && ofds s else i s

/-- The number `pth_util_fds_select` returns. -/
def fdsCount (nfd : ℤ) (i o : FdSets) : ℤ :=
  ((List.range nfd.toNat).map fun s =>
    (if i.r s && o.r s then 1 else 0) + (if i.w s && o.w s then 1 else 0)
      + if i.e s && o.e s then 1 else 0).sum

/-! ## The environment -/

/-- The arguments of `select(2)`, and the signals whose handler writes to the
    signal pipe meanwhile. -/
structure SelectReq where
  nfds : ℤ
  sets : FdSets
  timeout : Option Time
  catches : SigSet

/-- What `select(2)` returned at last, after restarts because of `EINTR`, and the
    signals caught meanwhile. -/
structure SelectRes where
  rc : ℤ
  sets : FdSets
  raised : SigSet

/-- The calls of `select(2)` in a pass: for all events together, and again for the
    event number `i` of a thread. -/
inductive SelectCall (τ : Type*) where
  | merged
  | recheck (t : τ) (i : ℕ)

/-- What a pass gets from outside: the pending signals of the process, what the
    callback of the event number `i` of a thread returns, the state found in a
    control block that has been freed, the answers of `select(2)`, and the time
    after the pass. -/
structure Env (τ : Type*) where
  sigpending : SigSet
  func : τ → ℕ → Bool
  stale : τ → ThreadState
  select : SelectCall τ → SelectReq → SelectRes
  now : Time

/-! ## Scanning -/

/-- `nexttimer_thread`, `nexttimer_ev` and `nexttimer_value`. -/
structure NextTimer (τ : Type*) where
  thread : τ
  index : ℕ
  value : Time
  isFunc : Bool

/-- The local variables of the first loop. -/
structure Scan (τ : Type*) where
  sets : FdSets
  fdmax : ℤ
  sigpending : SigSet
  sigcatch : SigSet
  nexttimer : Option (NextTimer τ)
  anyOccurred : Bool

/-- The variables of the loop over the signals of an event: the signals pending for
    the thread, the cell for the signal number, and the masks. -/
structure SigScan where
  own : SigSet
  cnt : ℤ
  pending : SigSet
  catches : SigSet
  sig : Option ℤ
  occurred : Bool

/-- Thread signal handling, which stores the signal without looking whether the
    cell exists. -/
def SigScan.ownSignal (x : SigScan) (n : ℕ) : Option SigScan :=
  if x.own n then
    x.sig.map fun _ =>
      { x with sig := some n, own := Function.update x.own n false, cnt := x.cnt - 1,
               occurred := true }
  else some x

/-- Process signal handling. -/
def SigScan.processSignal (x : SigScan) (n : ℕ) : SigScan :=
  if x.pending n then
    { x with sig := x.sig.map fun _ => n, pending := Function.update x.pending n false,
             occurred := true }
  else { x with catches := Function.update x.catches n true }

def SigScan.step (sigs : SigSet) (x : SigScan) (n : ℕ) : Option SigScan :=
  if sigs n then (x.ownSignal n).map fun y => y.processSignal n else some x

namespace Scan

variable {τ : Type*}

def init (env : Env τ) : Scan τ where
  sets := .zero
  fdmax := -1
  sigpending := env.sigpending
  sigcatch _ := false
  nexttimer := none
  anyOccurred := false

/-- Remember the timer which will be elapsed next. -/
def timer (sc : Scan τ) (x : NextTimer τ) : Scan τ :=
  match sc.nexttimer with
  | none => { sc with nexttimer := some x }
  | some y => if x.value.cmp y.value < 0 then { sc with nexttimer := some x } else sc

end Scan

namespace Sched

variable {τ : Type*} [DecidableEq τ]

/-- The state the event manager reads from a control block. -/
def stateOf (s : Sched τ) (env : Env τ) (t : τ) : ThreadState :=
  if s.live t then (s.tcb t).state else env.stale t

/-- Call the function of an event. -/
def call (s : Sched τ) (env : Env τ) (t : τ) (i : ℕ) : EventFunc → Bool
  | .exitCb => s.exitCb
  | .user _ => env.func t i

/-- Whether the event is one of a condition variable that wakes its waiter now. -/
def condOccurs (c : CondState) : Bool := c.signaled && (c.broadcast || !c.handled)

/-- Look at the event number `i` of `t`: whether it occurred, and what changes. -/
def scanArgs (env : Env τ) (t : τ) (i : ℕ) (s : Sched τ) (sc : Scan τ) :
    EventArgs τ → Option (Bool × Sched τ × Scan τ × EventArgs τ)
  | .fd goal fd =>
    some (false, s, { sc with sets := sc.sets.add goal fd, fdmax := max sc.fdmax fd },
      .fd goal fd)
  | .select n nfd rfds wfds efds =>
    let sets := { r := fdsMerge nfd rfds sc.sets.r, w := fdsMerge nfd wfds sc.sets.w,
                  e := fdsMerge nfd efds sc.sets.e }
    some (false, s, { sc with sets := sets, fdmax := max sc.fdmax (nfd - 1) },
      .select n nfd rfds wfds efds)
  | .sigs sigs sig =>
    let x : SigScan :=
      { own := (s.tcb t).sigpending, cnt := (s.tcb t).sigpendcnt, pending := sc.sigpending,
        catches := sc.sigcatch, sig := sig, occurred := false }
    (signals.foldlM (SigScan.step sigs) x).map fun y =>
      (y.occurred, s.modify t fun tcb => { tcb with sigpending := y.own, sigpendcnt := y.cnt },
        { sc with sigpending := y.pending, sigcatch := y.catches }, .sigs sigs y.sig)
  | .time tv =>
    if tv.cmp s.snapshot < 0 then some (true, s, sc, .time tv)
    else some (false, s, sc.timer { thread := t, index := i, value := tv, isFunc := false },
      .time tv)
  | .msg mp => some (s.objects.mpElements mp > 0, s, sc, .msg mp)
  | .mutex m => some (!s.objects.mxLocked m, s, sc, .mutex m)
  | .cond c =>
    let cn := s.objects.cond c
    if cn.signaled && !cn.broadcast && !cn.handled then
      let cond := Function.update s.objects.cond c { cn with handled := true }
      some (true, { s with objects := { s.objects with cond := cond } }, sc, .cond c)
    else some (condOccurs cn, s, sc, .cond c)
  | .tid none goal => some (s.queues.elements .DQ > 0, s, sc, .tid none goal)
  | .tid (some u) goal => some (s.stateOf env u = goal, s, sc, .tid (some u) goal)
  | .func f tv =>
    if s.call env t i f then some (true, s, sc, .func f tv)
    else some (false, s,
      sc.timer { thread := t, index := i, value := s.snapshot.add tv, isFunc := true },
      .func f tv)

/-- Look at an event if it is still pending, and tag it if it has occurred. -/
def scanEvent (env : Env τ) (t : τ) (i : ℕ) (s : Sched τ) (sc : Scan τ) (ev : Event τ) :
    Option (Sched τ × Scan τ × Event τ) :=
  if ev.evStatus = .pending then
    (s.scanArgs env t i sc ev.evArgs).map fun (occurred, s', sc', args) =>
      if occurred then
        (s', { sc' with anyOccurred := true }, { evStatus := .occurred, evArgs := args })
      else (s', sc', { evStatus := .pending, evArgs := args })
  else some (s, sc, ev)

/-- All events of a thread from number `i` on. -/
def scanEvents (env : Env τ) (t : τ) :
    ℕ → Sched τ → Scan τ → List (Event τ) → Option (Sched τ × Scan τ × List (Event τ))
  | _, s, sc, [] => some (s, sc, [])
  | i, s, sc, ev :: evs =>
    (s.scanEvent env t i sc ev).bind fun (s', sc', ev') =>
      (scanEvents env t (i + 1) s' sc' evs).map fun (s'', sc'', evs') =>
        (s'', sc'', ev' :: evs')

/-- Cancellation support of the first loop. -/
def noticeCancel (s : Sched τ) (sc : Scan τ) (t : τ) : Scan τ :=
  if (s.tcb t).cancelreq then { sc with anyOccurred := true } else sc

/-- The body of the first loop. -/
def scanThread (env : Env τ) (s : Sched τ) (sc : Scan τ) (t : τ) : Option (Sched τ × Scan τ) :=
  (scanEvents env t 0 s (s.noticeCancel sc t) (s.tcb t).events).map fun (s', sc'', evs) =>
    (s'.modify t fun tcb => { tcb with events := evs }, sc'')

/-- The first loop over some threads. -/
def scanThreads (env : Env τ) (x : Sched τ × Scan τ) (ts : List τ) :
    Option (Sched τ × Scan τ) :=
  ts.foldlM (fun x t => scanThread env x.1 x.2 t) x

/-- The first loop, over all threads in the waiting queue. -/
def scan (env : Env τ) (s : Sched τ) : Option (Sched τ × Scan τ) :=
  scanThreads env (s, Scan.init env) (s.queues.threads .WQ)

/-! ## Sleeping -/

/-- What the second loop knows about the call of `select(2)`. -/
structure Late where
  rc : ℤ
  sets : FdSets
  raised : SigSet

/-- The request for all events together, with the signal pipe. -/
def mergedReq (s : Sched τ) (sc : Scan τ) (dopoll : Bool) : SelectReq where
  nfds := max sc.fdmax s.sigpipe + 1
  sets := { sc.sets with r := Function.update sc.sets.r s.sigpipe true }
  timeout := if dopoll then some .zero else sc.nexttimer.map fun x => x.value.sub s.snapshot
  catches := sc.sigcatch

/-- Tag an event of a thread as occurred. -/
def tagOccurred (s : Sched τ) (t : τ) (i : ℕ) : Sched τ :=
  s.modify t fun tcb =>
    { tcb with events := tcb.events.modify i fun ev => { ev with evStatus := .occurred } }

/-- Handle the timer if it elapsed. The first result says whether the pass has to be
    repeated, for a timer of a function event. -/
def elapse (s : Sched τ) (sc : Scan τ) (dopoll : Bool) (rc : ℤ) : Bool × Sched τ :=
  match sc.nexttimer with
  | some x =>
    if !dopoll && rc = 0 then
      if x.isFunc then (true, s) else (false, s.tagOccurred x.thread x.index)
    else (false, s)
  | none => (false, s)

/-- Adjust the results if the internal signal pipe was used, and clear the sets if
    there is nothing in them. -/
def adjust (s : Sched τ) (dopoll : Bool) (res : SelectRes) : Late :=
  let piped := !dopoll && res.rc > 0 && res.sets.r s.sigpipe
  let rc := if piped then res.rc - 1 else res.rc
  let sets := if piped then { res.sets with r := Function.update res.sets.r s.sigpipe false }
    else res.sets
  { rc := rc, sets := if rc ≤ 0 then .zero else sets, raised := res.raised }

/-- Poll or sleep. With the signal pipe there is always a file descriptor to poll
    for. -/
def sleep (env : Env τ) (s : Sched τ) (sc : Scan τ) (dopoll : Bool) : Bool × Sched τ × Late :=
  let dopoll := dopoll || sc.anyOccurred
  let res := env.select .merged (s.mergedReq sc dopoll)
  let (repeats, s') := s.elapse sc dopoll res.rc
  (repeats, s', s.adjust dopoll res)

/-- `select(2)` returns in the pass. Without a timeout it does so for a descriptor or because
    of an error, but not with 0. -/
def selectReturns (env : Env τ) (s : Sched τ) (dopoll : Bool) : Bool :=
  (scan env s).all fun (s₁, sc) =>
    let req := s₁.mergedReq sc (dopoll || sc.anyOccurred)
    req.timeout.isSome || (env.select .merged req).rc ≠ 0

/-! ## Waking -/

/-- Late handling of a pending event: its new status and arguments. -/
def lateArgs (env : Env τ) (t : τ) (i : ℕ) (l : Late) :
    EventArgs τ → Late × Status × EventArgs τ
  | .fd goal fd =>
    if l.sets.test goal fd then (l, .occurred, .fd goal fd)
    else if l.rc < 0 then
      -- re-check particular filedescriptor
      let res := env.select (.recheck t i)
        { nfds := fd + 1, sets := l.sets.add goal fd, timeout := some .zero,
          catches := fun _ => false }
      if res.rc > 0 then ({ l with sets := res.sets.clear fd }, .pending, .fd goal fd)
      else if res.rc < 0 then ({ l with sets := .zero }, .failed, .fd goal fd)
      else ({ l with sets := res.sets }, .pending, .fd goal fd)
    else (l, .pending, .fd goal fd)
  | .select n nfd rfds wfds efds =>
    let i' := FdSets.ofSelect rfds wfds efds
    if fdsTest nfd i' l.sets then
      (l, .occurred, .select (n.map fun _ => fdsCount nfd i' l.sets) nfd
        (fdsKeep nfd rfds l.sets.r) (fdsKeep nfd wfds l.sets.w) (fdsKeep nfd efds l.sets.e))
    else if l.rc < 0 then
      -- re-check particular filedescriptor set
      let res := env.select (.recheck t i)
        { nfds := nfd + 1, sets := i', timeout := some .zero, catches := fun _ => false }
      (l, if res.rc < 0 then .failed else .pending, .select n nfd rfds wfds efds)
    else (l, .pending, .select n nfd rfds wfds efds)
  | .sigs sigs sig =>
    let hit := signals.filter fun n => sigs n && l.raised n
    if hit.isEmpty then (l, .pending, .sigs sigs sig)
    else ({ l with raised := fun n => l.raised n && !decide (n ∈ hit) }, .occurred,
      .sigs sigs (sig.map fun _ => (hit.getLast?.getD 0 : ℕ)))
  | args => (l, .pending, args)

/-- Post-processing for an event that has already occurred: clean the signal of a
    condition variable. -/
def afterOccurred (o : Objects) : EventArgs τ → Objects
  | .cond c =>
    let cn := { signaled := false, broadcast := false, handled := false }
    if (o.cond c).signaled then { o with cond := Function.update o.cond c cn } else o
  | _ => o

/-- The second loop's work on one event. -/
def lateEvent (env : Env τ) (t : τ) (i : ℕ) (l : Late) (o : Objects) (ev : Event τ) :
    Late × Objects × Event τ :=
  if ev.evStatus = .pending then
    let (l', st, args) := lateArgs env t i l ev.evArgs
    (l', o, { evStatus := st, evArgs := args })
  else (l, afterOccurred o ev.evArgs, ev)

/-- All events of a thread from number `i` on. -/
def lateEvents (env : Env τ) (t : τ) :
    ℕ → Late → Objects → List (Event τ) → Late × Objects × List (Event τ)
  | _, l, o, [] => (l, o, [])
  | i, l, o, ev :: evs =>
    let (l', o', ev') := lateEvent env t i l o ev
    let (l'', o'', evs') := lateEvents env t (i + 1) l' o' evs
    (l'', o'', ev' :: evs')

/-- Late handling of all events of the thread `t`. -/
def lateThread (env : Env τ) (s : Sched τ) (l : Late) (t : τ) : Late × Sched τ :=
  let (l', o, evs) := lateEvents env t 0 l s.objects (s.tcb t).events
  (l', { s with objects := o }.modify t fun tcb => { tcb with events := evs })

/-- Whether the second loop moves a thread to the ready queue. -/
def wakes (tcb : Tcb τ) : Bool :=
  tcb.events.any (fun ev => ev.evStatus ≠ .pending) || tcb.cancelreq

/-- Move a thread to the ready queue with a slightly increased priority. -/
def wake (s : Sched τ) (t : τ) : Option (Sched τ) :=
  (s.delete .WQ t).bind fun s' =>
    (s'.setState t .ready).insert .RQ ((s'.tcb t).prio + 1) t

/-- The second loop, standing at the thread `t` of the waiting queue. -/
def cleanup (env : Env τ) : Nat → Sched τ → Late → Option τ → Option (Sched τ)
  | _, s, _, none => some s
  | 0, _, _, some _ => none
  | n + 1, s, l, some t =>
    let (l', s₁) := lateThread env s l t
    -- walk to next thread in waiting queue before this one leaves it
    let next := s₁.queues.walk .WQ t .next
    if wakes (s₁.tcb t) then (s₁.wake t).bind fun s₂ => cleanup env n s₂ l' next
    else cleanup env n s₁ l' next

/-- One pass of `pth_sched_eventmanager`; the first result says whether it has to
    be repeated. -/
def eventmanager (env : Env τ) (s : Sched τ) (dopoll : Bool) : Option (Bool × Sched τ) :=
  (scan env s).bind fun (s₁, sc) =>
    let (repeats, s₂, l) := sleep env s₁ sc dopoll
    (cleanup env (s₂.queues.elements .WQ).toNat s₂ l (s₂.queues.head .WQ)).map fun s₃ =>
      (repeats, if repeats then { s₃ with snapshot := env.now } else s₃)

end Sched

end Pth
