-- SUMMARY: The functions of pth_high.c and pth_sync.c that wait for an event of their own together with extra events.
import Pth.Event.Ring
import Pth.Sync.Cond

/-!
# Calls with extra events

Each of these functions has an event structure for every thread, kept under a
key, links the caller's ring of extra events to it while it waits, and takes it out
again. What other threads, the scheduler and the system do is answered by a
`World`: each question gets the answer of its number. A call that faults, or that
has not returned when its loops have used up their fuel, gives `none`. -/

namespace Pth

/-- `UIO_MAXIOV` -/
def uioMaxiov : ℕ := 1024

/-- The size of the vector on the stack of `pth_writev_ev`, which is compared with a number of
    entries but counted in bytes. -/
def tiovStack : ℕ := 512

/-- What `pth_fdmode` returns. -/
inductive FdMode where
  | error
  | poll
  | block
  | nonblock
  deriving DecidableEq, Repr

/-- The answers of the environment. `sc` are results of system calls, `isOpen` the open
    descriptors, `malloc` whether there is memory, `wait` the contents of the events when
    `pth_wait` returns, and `sync` the mutexes and conditions at that time. -/
structure World (ε τ : Type) where
  sc : ℕ → Except Errno ℕ
  isOpen : ℕ → ℕ → Bool
  malloc : ℕ → Bool
  fdmode : ℕ → FdMode
  sigpending : ℕ → SigSet
  now : ℕ → Time
  wait : ℕ → ε → Event τ
  sync : ℕ → SyncState τ ℕ ℕ

/-- A call that is running: how many questions it has asked, and the events. -/
structure Calls (ε τ : Type) where
  asked : ℕ
  evs : Events ε τ

abbrev CallM (ε τ : Type) := StateT (Calls ε τ) Option

namespace CallM

variable {ε τ α : Type} [DecidableEq ε]

omit [DecidableEq ε] in
/-- The number of the next question. -/
def ask : CallM ε τ ℕ := fun c => some (c.asked, { c with asked := c.asked + 1 })

omit [DecidableEq ε] in
/-- A function on the events. -/
def onEvents (f : Events ε τ → Option (α × Events ε τ)) : CallM ε τ α :=
  fun c => (f c.evs).map fun r => (r.1, { c with evs := r.2 })

/-- `pth_event` with `PTH_MODE_STATIC`, where `ev` is the structure under the key. It is
    allocated when it is used for the first time. -/
def staticEvent (w : World ε τ) (ev : ε) (spec : EventSpec τ) : CallM ε τ (Except Errno ε) := do
  let k ← ask
  onEvents fun s =>
    s.event (w.isOpen k) (if s.live ev || w.malloc k then some ev else none) none spec

/-- `pth_wait`. The events are contents that the event manager writes, their links are not
    touched. -/
def wait (w : World ε τ) : Option ε → CallM ε τ Unit
  | none => pure ()
  | some _ => do
    let k ← ask
    onEvents fun s => some ((), { s with body := w.wait k })

/-- `pth_event_status`; the null pointer counts as pending. -/
def status : Option ε → CallM ε τ Status
  | none => pure .pending
  | some ev => onEvents fun s => some ((s.body ev).evStatus, s)

/-- Wait for `ev` and the extra events, which are linked to it only meanwhile. -/
def waitExtra (w : World ε τ) (ev extra : Option ε) : CallM ε τ Status := do
  match extra with
  | some x => do
    let _ ← onEvents fun s => s.concat ev [x]
    wait w ev
    let _ ← onEvents fun s => s.isolate ev
    status ev
  | none => do
    wait w ev
    status ev

/-- A system call. -/
def sc (w : World ε τ) : CallM ε τ (Except Errno ℕ) := do
  let k ← ask
  pure (w.sc k)

/-- A system call that is repeated while it is interrupted. -/
def scRetry (w : World ε τ) : ℕ → CallM ε τ (Except Errno ℕ)
  | 0 => failure
  | n + 1 => do
    let r ← sc w
    if r = .error .EINTR then scRetry w n else pure r

/-! ## The functions of pth_sync.c -/

section

variable [DecidableEq τ]

/-- The waiting loop of `pth_mutex_acquire`. -/
def mutexAcquireLoop (w : World ε τ) (current : τ) (m : ℕ) (ev : ε) (extra : Option ε) :
    ℕ → CallM ε τ Ret
  | 0 => failure
  | n + 1 => do
    let e ← staticEvent w ev (.kind (.mutex m))
    let st ← waitExtra w e.toOption extra
    let k ← ask
    match (w.sync k).mem.acquireWoken current m extra.isSome (st = .pending) with
    | none => failure
    | some (.returned r, _) => pure r
    | some (.waiting _, _) => mutexAcquireLoop w current m ev extra n

/-- `pth_mutex_acquire` -/
def mutexAcquire (w : World ε τ) (n : ℕ) (s : MutexState τ ℕ) (current : τ) (mutex : Option ℕ)
    (tryonly : Bool) (ev : ε) (extra : Option ε) : CallM ε τ Ret :=
  match s.acquire current mutex tryonly with
  | none => failure
  | some (.returned r, _) => pure r
  | some (.waiting m, _) => mutexAcquireLoop w current m ev extra n

/-- The waiting loop of the `pth_mutex_acquire` at the end of `pth_cond_await`. -/
def condReacquireLoop (w : World ε τ) (current : τ) (c m : ℕ) (evMutex : ε) : ℕ → CallM ε τ Ret
  | 0 => failure
  | n + 1 => do
    let e ← staticEvent w evMutex (.kind (.mutex m))
    let _ ← waitExtra w e.toOption none
    let k ← ask
    match (w.sync k).reacquireWoken current c m with
    | none => failure
    | some (.returned r, _) => pure r
    | some _ => condReacquireLoop w current c m evMutex n

/-- `pth_cond_await`, where `evMutex` is the event of `pth_mutex_acquire`. -/
def condAwait (w : World ε τ) (n : ℕ) (s : SyncState τ ℕ ℕ) (current : τ)
    (cond mutex : Option ℕ) (ev evMutex : ε) (extra : Option ε) : CallM ε τ Ret :=
  match s.await current cond mutex, cond, mutex with
  | some (.returned r, _), _, _ => pure r
  | some (.waitCond, _), some c, some m => do
    -- wait until the condition is signaled
    let e ← staticEvent w ev (.kind (.cond c))
    let _ ← waitExtra w e.toOption extra
    -- reacquire mutex
    let k ← ask
    match (w.sync k).awaitWoken current c m with
    | none => failure
    | some (.returned r, _) => pure r
    | some _ => condReacquireLoop w current c m evMutex n
  | _, _, _ => failure

end

/-! ## Signals -/

/-- `pth_sigwait_ev`, where `sigp` says whether the pointer is not null. -/
def sigwaitEv (w : World ε τ) (set : Option SigSet) (sigp : Bool) (ev : ε) (extra : Option ε) :
    CallM ε τ (Except Errno ℤ) :=
  match set, sigp with
  | some set, true => do
    -- check whether signal is already pending
    let k ← ask
    if signals.any fun sig => set sig && w.sigpending k sig then pure (.ok 0)
    else
      match ← staticEvent w ev (.kind (.sigs set (some 0))) with
      | .error e => pure (.error e)
      | .ok e => do
        let st ← waitExtra w (some e) extra
        if extra.isSome && st ≠ .occurred then pure (.error .EINTR) else pure (.ok 0)
  | _, _ => pure (.error .EINVAL)

/-! ## Descriptors -/

/-- The check of a descriptor that most functions begin with; `none` is `EBADF`. -/
def openMode (w : World ε τ) (fd : ℤ) : CallM ε τ (Option FdMode) := do
  let k ← ask
  if !fdValid (w.isOpen k) fd then pure none
  else if w.fdmode k = .error then pure none
  else pure (some (w.fdmode k))

/-- Sleep until the descriptor is ready or an extra event occurs, and whether it was the
    latter. That `pth_event` may have returned the null pointer is not checked. -/
def sleepFd (w : World ε τ) (goal : FdGoal) (fd : ℤ) (ev : ε) (extra : Option ε) :
    CallM ε τ Bool := do
  let e ← staticEvent w ev (.fd goal fd)
  let st ← waitExtra w e.toOption extra
  pure (extra.isSome && st ≠ .occurred)

/-- `PTH_UNTIL_FD_READABLE` -/
def untilReadable : FdGoal := { readable := true, writeable := false, exception := false }

/-- `PTH_UNTIL_FD_WRITEABLE` -/
def untilWriteable : FdGoal := { readable := false, writeable := true, exception := false }

/-- `pth_connect_ev` -/
def connectEv (w : World ε τ) (n : ℕ) (s : ℤ) (ev : ε) (extra : Option ε) :
    CallM ε τ (Except Errno ℕ) := do
  match ← openMode w s with
  | none => pure (.error .EBADF)
  | some mode => do
    -- try to connect
    let rv ← scRetry w n
    -- if it is still on progress wait until socket is really writeable
    if rv = .error .EINPROGRESS ∧ mode ≠ .nonblock then
      match ← staticEvent w ev (.fd untilWriteable s) with
      | .error e => pure (.error e)
      | .ok e => do
        let st ← waitExtra w (some e) extra
        if extra.isSome && st ≠ .occurred then pure (.error .EINTR)
        else
          -- getsockopt
          match ← sc w with
          | .error e => pure (.error e)
          | .ok 0 => pure (.ok 0)
          | .ok err => pure (.error (.other err))
    else pure rv

/-- The loop of `pth_accept_ev`, where `e` is null before the event has been allocated. -/
def acceptLoop (w : World ε τ) (s : ℤ) (mode : FdMode) (ev : ε) (extra : Option ε) :
    ℕ → Option ε → CallM ε τ (Except Errno ℕ)
  | 0, _ => failure
  | n + 1, e => do
    let rv ← sc w
    if rv = .error .EAGAIN ∧ mode ≠ .nonblock then
      -- do lazy event allocation
      match ← (match e with
        | some e => pure (.ok e)
        | none => do
          match ← staticEvent w ev (.fd untilReadable s), extra with
          | .ok e, some x => onEvents fun s => s.concat (some e) [x]
          | r, _ => pure r) with
      | .error e => pure (.error e)
      | .ok e => do
        -- wait until accept has a chance
        wait w (some e)
        -- check for the extra events
        match extra with
        | some _ => do
          let _ ← onEvents fun s => s.isolate (some e)
          if (← status (some e)) ≠ .occurred then pure (.error .EINTR)
          else acceptLoop w s mode ev extra n (some e)
        | none => acceptLoop w s mode ev extra n (some e)
    else pure rv

/-- `pth_accept_ev` -/
def acceptEv (w : World ε τ) (n : ℕ) (s : ℤ) (ev : ε) (extra : Option ε) :
    CallM ε τ (Except Errno ℕ) := do
  match ← openMode w s with
  | none => pure (.error .EBADF)
  | some mode => acceptLoop w s mode ev extra n none

/-- `pth_read_ev` -/
def readEv (w : World ε τ) (n : ℕ) (fd : ℤ) (nbytes : ℕ) (ev : ε) (extra : Option ε) :
    CallM ε τ (Except Errno ℕ) := do
  if nbytes = 0 then pure (.ok 0)
  else
    match ← openMode w fd with
    | none => pure (.error .EBADF)
    | some mode =>
      if mode = .block then
        -- directly poll filedescriptor for readability
        match ← scRetry w n with
        | .error e => if e = .EINVAL ∨ e = .EBADF then pure (.error e) else scRetry w n
        | .ok 0 =>
          if ← sleepFd w untilReadable fd ev extra then pure (.error .EINTR) else scRetry w n
        | .ok _ => scRetry w n
      else scRetry w n

/-- `pth_readv_ev`, with the lengths of the vector. Other than `pth_read_ev` it also sleeps after
    the direct poll has failed. -/
def readvEv (w : World ε τ) (n : ℕ) (fd : ℤ) (iov : List ℕ) (ev : ε) (extra : Option ε) :
    CallM ε τ (Except Errno ℕ) := do
  if iov.length = 0 ∨ iov.length > uioMaxiov then pure (.error .EINVAL)
  else
    match ← openMode w fd with
    | none => pure (.error .EBADF)
    | some mode =>
      if mode = .block then
        match ← scRetry w n with
        | .ok (_ + 1) => scRetry w n
        | _ => if ← sleepFd w untilReadable fd ev extra then pure (.error .EINTR) else scRetry w n
      else scRetry w n

/-- `pth_recvfrom_ev`, which checks the descriptor twice. -/
def recvfromEv (w : World ε τ) (n : ℕ) (fd : ℤ) (nbytes : ℕ) (ev : ε) (extra : Option ε) :
    CallM ε τ (Except Errno ℕ) := do
  if nbytes = 0 then pure (.ok 0)
  else
    match ← openMode w fd with
    | none => pure (.error .EBADF)
    | some mode =>
      if mode = .block then do
        let k ← ask
        if !fdValid (w.isOpen k) fd then pure (.error .EBADF)
        else
          match ← scRetry w n with
          | .error e => if e = .EINVAL ∨ e = .EBADF then pure (.error e) else scRetry w n
          | .ok 0 =>
            if ← sleepFd w untilReadable fd ev extra then pure (.error .EINTR) else scRetry w n
          | .ok _ => scRetry w n
      else scRetry w n

/-- The loop of `pth_write_ev`, `pth_writev_ev` and `pth_sendto_ev`: `idle` says whether the
    descriptor is not known to be writeable, `rv` is what has been written so far. -/
def writeLoop (w : World ε τ) (n : ℕ) (fd : ℤ) (ev : ε) (extra : Option ε) :
    ℕ → Bool → ℕ → ℕ → CallM ε τ (Except Errno ℕ)
  | 0, _, _, _ => failure
  | k + 1, idle, nbytes, rv => do
    if ← (if idle then sleepFd w untilWriteable fd ev extra else pure false) then
      pure (.error .EINTR)
    else
      -- now perform the actual write operation
      match ← scRetry w n with
      | .ok s =>
        if 0 < s ∧ s < nbytes then writeLoop w n fd ev extra k true (nbytes - s) (rv + s)
        else pure (.ok (rv + s))
      -- pass error to caller, but not for partial writes
      | .error e => if rv = 0 then pure (.error e) else pure (.ok rv)

/-- `pth_write_ev` -/
def writeEv (w : World ε τ) (n : ℕ) (fd : ℤ) (nbytes : ℕ) (ev : ε) (extra : Option ε) :
    CallM ε τ (Except Errno ℕ) := do
  if nbytes = 0 then pure (.ok 0)
  else
    match ← openMode w fd with
    | none => pure (.error .EBADF)
    | some mode =>
      if mode ≠ .nonblock then
        match ← scRetry w n with
        | .error e =>
          if e = .EINVAL ∨ e = .EBADF then pure (.error e)
          else writeLoop w n fd ev extra n true nbytes 0
        | .ok r => writeLoop w n fd ev extra n (r = 0) nbytes 0
      else scRetry w n

/-- `pth_writev_ev`. The vector is copied before it is advanced, into memory that may have to be
    allocated. -/
def writevEv (w : World ε τ) (n : ℕ) (fd : ℤ) (iov : List ℕ) (ev : ε) (extra : Option ε) :
    CallM ε τ (Except Errno ℕ) := do
  if iov.length = 0 ∨ iov.length > uioMaxiov then pure (.error .EINVAL)
  else
    match ← openMode w fd with
    | none => pure (.error .EBADF)
    | some mode =>
      if mode ≠ .nonblock then do
        let k ← ask
        if iov.length > tiovStack ∧ !w.malloc k then pure (.error .ENOMEM)
        else
          match ← scRetry w n with
          | .error _ => writeLoop w n fd ev extra n true iov.sum 0
          | .ok r => writeLoop w n fd ev extra n (r = 0) iov.sum 0
      else scRetry w n

/-- `pth_sendto_ev`, which checks the descriptor twice and, other than `pth_write_ev`, does not
    sleep after the direct poll has failed. -/
def sendtoEv (w : World ε τ) (n : ℕ) (fd : ℤ) (nbytes : ℕ) (ev : ε) (extra : Option ε) :
    CallM ε τ (Except Errno ℕ) := do
  if nbytes = 0 then pure (.ok 0)
  else
    match ← openMode w fd with
    | none => pure (.error .EBADF)
    | some mode =>
      if mode ≠ .nonblock then do
        let k ← ask
        if !fdValid (w.isOpen k) fd then pure (.error .EBADF)
        else
          match ← scRetry w n with
          | .error e =>
            if e = .EINVAL ∨ e = .EBADF then pure (.error e)
            else writeLoop w n fd ev extra n false nbytes 0
          | .ok r => writeLoop w n fd ev extra n (r = 0) nbytes 0
      else scRetry w n

/-! ## Select -/

/-- The arguments of `pth_select_ev`. -/
structure SelectArgs where
  nfd : ℤ
  rfds : Option FdSet
  wfds : Option FdSet
  efds : Option FdSet
  timeout : Option Time

/-- The checks at the start of `pth_select_ev`. -/
def SelectArgs.valid (a : SelectArgs) : Prop :=
  a.nfd ≤ fdSetsize ∧ ∀ t ∈ a.timeout, 0 ≤ t.tvSec ∧ 0 ≤ t.tvUsec ∧ t.tvUsec < 1000000

instance (a : SelectArgs) : Decidable a.valid :=
  inferInstanceAs (Decidable (a.nfd ≤ fdSetsize ∧ ∀ t ∈ a.timeout, _))

/-- A timeout is cut down to 31 days. -/
def cutTimeout (t : Time) : Time :=
  if t.tvSec > 31 * 24 * 60 * 60 then { t with tvSec := 31 * 24 * 60 * 60 } else t

/-- The special situation of a plain microsecond delay. -/
def SelectArgs.plainDelay (a : SelectArgs) : Option Time :=
  if a.nfd = 0 ∧ a.rfds.isNone ∧ a.wfds.isNone ∧ a.efds.isNone then a.timeout else none

/-- The plain delay of `pth_select_ev`. Very small delays are performed directly. -/
def selectDelay (w : World ε τ) (n : ℕ) (t : Time) (evTimeout : ε) (extra : Option ε) :
    CallM ε τ (Except Errno ℤ) := do
  if t.tvSec = 0 ∧ t.tvUsec ≤ 10000 then do
    let _ ← scRetry w n
    pure (.ok 0)
  else do
    let k ← ask
    let e ← staticEvent w evTimeout (.kind (.time ((w.now k).add t)))
    let st ← waitExtra w e.toOption extra
    if extra.isSome && st ≠ .occurred then pure (.error .EINTR) else pure (.ok 0)

/-- The event for the timeout of `pth_select_ev`, which is linked to the one for the
    descriptors. -/
def selectTimeout (w : World ε τ) (timeout : Option Time) (evTimeout : ε) (es : Option ε) :
    CallM ε τ (Option ε) :=
  match timeout with
  | none => pure none
  | some t => do
    let k ← ask
    let et ← staticEvent w evTimeout (.kind (.time ((w.now k).add (cutTimeout t))))
    let _ ← onEvents fun s => s.concat es et.toOption.toList
    pure et.toOption

/-- Link the extra events to an event. -/
def concatExtra (ev : Option ε) : Option ε → CallM ε τ Unit
  | none => pure ()
  | some x => do
    let _ ← onEvents fun s => s.concat ev [x]
    pure ()

/-- Isolate an event if there is one. -/
def isolateSome : Option ε → CallM ε τ Unit
  | none => pure ()
  | some ev => do
    let _ ← onEvents fun s => s.isolate (some ev)
    pure ()

omit [DecidableEq ε] in
/-- The cell that the number of ready descriptors is written to; it starts as -1. -/
def selectCount : Option ε → CallM ε τ ℤ
  | none => pure (-1)
  | some ev => onEvents fun s =>
    match (s.body ev).evArgs with
    | .select (some n) _ _ _ _ => some (n, s)
    | _ => some (-1, s)

/-- The part of `pth_select_ev` that goes through the scheduler. -/
def selectWait (w : World ε τ) (a : SelectArgs) (evSelect evTimeout : ε) (extra : Option ε) :
    CallM ε τ (Except Errno ℤ) := do
  let es ← staticEvent w evSelect (.kind (.select (some (-1)) a.nfd a.rfds a.wfds a.efds))
  let et ← selectTimeout w a.timeout evTimeout es.toOption
  concatExtra es.toOption extra
  wait w es.toOption
  -- it is the extra event that is isolated, and not the one for the descriptors
  isolateSome extra
  isolateSome et
  let sts ← status es.toOption
  let stt ← status et
  let rc ← selectCount es.toOption
  if sts = .failed then pure (.error .EBADF)
  else if a.timeout.isSome ∧ stt = .occurred then pure (.ok 0)
  else if extra.isSome ∧ sts ≠ .occurred then pure (.error .EINTR)
  else pure (.ok rc)

/-- `pth_select_ev` -/
def selectEv (w : World ε τ) (n : ℕ) (a : SelectArgs) (evSelect evTimeout : ε)
    (extra : Option ε) : CallM ε τ (Except Errno ℤ) := do
  if ¬ a.valid then pure (.error .EINVAL)
  else
    match a.plainDelay with
    | some t => selectDelay w n (cutTimeout t) evTimeout extra
    | none =>
      -- directly poll filedescriptor sets
      match ← scRetry w n with
      | .error e => pure (.error e)
      | .ok rc =>
        if 0 < rc ∨ ∃ t ∈ a.timeout, (cutTimeout t).cmp .zero = 0 then pure (.ok rc)
        else selectWait w a evSelect evTimeout extra

/-! ## All calls -/

/-- A call of one of the functions with its arguments. -/
inductive ExtraCall (τ : Type) where
  | mutexAcquire (s : MutexState τ ℕ) (current : τ) (mutex : Option ℕ) (tryonly : Bool)
  | condAwait (s : SyncState τ ℕ ℕ) (current : τ) (cond mutex : Option ℕ)
  | sigwait (set : Option SigSet) (sigp : Bool)
  | select (a : SelectArgs)
  | connect (s : ℤ)
  | accept (s : ℤ)
  | read (fd : ℤ) (nbytes : ℕ)
  | write (fd : ℤ) (nbytes : ℕ)
  | readv (fd : ℤ) (iov : List ℕ)
  | writev (fd : ℤ) (iov : List ℕ)
  | recvfrom (fd : ℤ) (nbytes : ℕ)
  | sendto (fd : ℤ) (nbytes : ℕ)

/-- What a call returns. -/
inductive CallRet where
  | bool (r : Ret)
  | bytes (r : Except Errno ℕ)
  | value (r : Except Errno ℤ)

/-- The call with the fuel `n`, and with the events `ev` and `ev'` of its own; the second one is
    for the timeout of `pth_select_ev` and for the mutex of `pth_cond_await`. -/
def ExtraCall.run [DecidableEq τ] (w : World ε τ) (n : ℕ) (ev ev' : ε) (extra : Option ε) :
    ExtraCall τ → CallM ε τ CallRet
  | .mutexAcquire s current mutex tryonly =>
    .bool <$> CallM.mutexAcquire w n s current mutex tryonly ev extra
  | .condAwait s current cond mutex =>
    .bool <$> CallM.condAwait w n s current cond mutex ev ev' extra
  | .sigwait set sigp => .value <$> sigwaitEv w set sigp ev extra
  | .select a => .value <$> selectEv w n a ev ev' extra
  | .connect s => .bytes <$> connectEv w n s ev extra
  | .accept s => .bytes <$> acceptEv w n s ev extra
  | .read fd nbytes => .bytes <$> readEv w n fd nbytes ev extra
  | .write fd nbytes => .bytes <$> writeEv w n fd nbytes ev extra
  | .readv fd iov => .bytes <$> readvEv w n fd iov ev extra
  | .writev fd iov => .bytes <$> writevEv w n fd iov ev extra
  | .recvfrom fd nbytes => .bytes <$> recvfromEv w n fd nbytes ev extra
  | .sendto fd nbytes => .bytes <$> sendtoEv w n fd nbytes ev extra

end CallM

end Pth
