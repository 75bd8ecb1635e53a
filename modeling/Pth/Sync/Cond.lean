-- SUMMARY: The condition variables of pth_sync.c, cut where pth_cond_await waits for the condition or the mutex.
import Pth.Lib.Ensures
import Pth.Sched.State
import Pth.Sync.Mutex

/-!
# Condition variables

`pth_cond_await` counts the caller as a waiter, releases the mutex, waits for the
condition, and takes the mutex again before it stops counting the caller. It is cut
at both waits. While it waits for the condition, a cleanup handler is pushed that
does the second half if the thread is cancelled there. -/

namespace Pth

/-- `struct pth_cond_st`; `cn_waiters` is an `unsigned int`. -/
structure Cond where
  cnInitialized : Bool
  cnState : CondState
  cnWaiters : ℕ
  deriving DecidableEq, Repr

/-- None of the bits that a notification sets. -/
def CondState.clear : CondState := { signaled := false, broadcast := false, handled := false }

/-- The mutexes `μ` and the condition variables `κ`. -/
structure SyncState (τ μ κ : Type*) where
  mem : MutexState τ μ
  cond : κ → Cond

/-- How `pth_cond_await` gets on: it returns, or waits for the condition or for the
    mutex. -/
inductive Await where
  | returned (r : Ret)
  | waitCond
  | waitMutex
  deriving DecidableEq, Repr

namespace Cond

/-- `pth_cond_init` -/
def init : Cond := { cnInitialized := true, cnState := .clear, cnWaiters := 0 }

/-- `cn_waiters++` -/
def enter (x : Cond) : Cond := { x with cnWaiters := (x.cnWaiters + 1) % 2 ^ 32 }

/-- `cn_waiters--` -/
def leave (x : Cond) : Cond := { x with cnWaiters := (x.cnWaiters + (2 ^ 32 - 1)) % 2 ^ 32 }

/-- The bits after `pth_cond_notify` has found a waiter. -/
def signal (x : Cond) (broadcast : Bool) : Cond :=
  { x with cnState := { signaled := true, broadcast := broadcast, handled := false } }

@[simp] theorem enter_cnState (x : Cond) : x.enter.cnState = x.cnState := rfl

@[simp] theorem leave_cnState (x : Cond) : x.leave.cnState = x.cnState := by
  rw [leave]

end Cond

namespace SyncState

variable {τ μ κ : Type*} [DecidableEq τ] [DecidableEq μ] [DecidableEq κ]

def setCond (s : SyncState τ μ κ) (c : κ) (x : Cond) : SyncState τ μ κ :=
  { s with cond := Function.update s.cond c x }

/-- `pth_cond_await` up to its return or its wait for the condition. -/
def await (s : SyncState τ μ κ) (current : τ) (cond : Option κ) (mutex : Option μ) :
    Option (Await × SyncState τ μ κ) :=
  match cond, mutex with
  | some c, some m =>
    let x := s.cond c
    if !x.cnInitialized then some (.returned (.error .EDEADLK), s)
    else if x.cnState.signaled && !x.cnState.broadcast then
      -- short-circuit wait
      some (.returned .ok, s.setCond c { x with cnState := .clear })
    else
      (s.mem.release current (some m)).map fun r =>
        (.waitCond, { (s.setCond c x.enter) with mem := r.2 })
  | _, _ => some (.returned (.error .EINVAL), s)

/-- The `pth_mutex_acquire` of a thread that has waited for the condition `c` has
    come as far as `r`. -/
def afterReacquire (s : SyncState τ μ κ) (c : κ) (r : Acquire μ × MutexState τ μ) :
    Await × SyncState τ μ κ :=
  match r.1 with
  | .returned _ => (.returned .ok, { (s.setCond c (s.cond c).leave) with mem := r.2 })
  | .waiting _ => (.waitMutex, { s with mem := r.2 })

/-- The rest of `pth_cond_await` after its wait for the condition. -/
def awaitWoken (s : SyncState τ μ κ) (current : τ) (c : κ) (m : μ) :
    Option (Await × SyncState τ μ κ) :=
  (s.mem.acquire current (some m) false).map (s.afterReacquire c)

/-- The rest of `pth_cond_await`, or of its cleanup handler, after a wait for the
    mutex. -/
def reacquireWoken (s : SyncState τ μ κ) (current : τ) (c : κ) (m : μ) :
    Option (Await × SyncState τ μ κ) :=
  (s.mem.acquireWoken current m false false).map (s.afterReacquire c)

/-- `pth_cond_cleanup_handler` up to its end or its wait for the mutex. -/
def condCleanupHandler (s : SyncState τ μ κ) (current : τ) (m : μ) (c : κ) :
    Option (Await × SyncState τ μ κ) :=
  (s.mem.acquire current (some m) false).map (s.afterReacquire c)

/-- `pth_cond_notify`, and whether it gives other threads a chance to awake before it
    returns. -/
def notify (s : SyncState τ μ κ) (cond : Option κ) (broadcast : Bool) :
    Ret × Bool × SyncState τ μ κ :=
  match cond with
  | none => (.error .EINVAL, false, s)
  | some c =>
    let x := s.cond c
    if !x.cnInitialized then (.error .EDEADLK, false, s)
    -- do something only if there is at least one waiter
    else if x.cnWaiters > 0 then (.ok, true, s.setCond c (x.signal broadcast))
    else (.ok, false, s)

/-- A thread that has waited for the condition `c` locks its mutex again and is no
    longer counted, or waits for the mutex. -/
def Reacquired (s : SyncState τ μ κ) (current : τ) (m : μ) (c : κ)
    (r : Await × SyncState τ μ κ) : Prop :=
  r.1 = .returned .ok ∧ s.mem.Taken r.2.mem current m ∧
      r.2.cond = Function.update s.cond c (s.cond c).leave ∨
    r.1 = .waitMutex ∧ r.2 = s ∧ (s.mem.mutex m).mxOwner ≠ none

variable {s : SyncState τ μ κ}

/-- What `pth_cond_await` has done when it returns or waits for the condition. -/
theorem await_eq_some {current : τ} {c : κ} {m : μ} {r : Await} {s' : SyncState τ μ κ}
    (h : s.await current (some c) (some m) = some (r, s')) :
    r = .returned (.error .EDEADLK) ∧ s' = s ∨
      (s.cond c).cnState.signaled = true ∧ (s.cond c).cnState.broadcast = false ∧
        r = .returned .ok ∧ s' = s.setCond c { s.cond c with cnState := .clear } ∨
      r = .waitCond ∧ s'.cond = Function.update s.cond c (s.cond c).enter ∧
        ∃ x, s.mem.release current (some m) = some (x, s'.mem) := by
  simp only [await] at h
  split at h
  · cases h
    exact .inl ⟨rfl, rfl⟩
  · split at h
    · next hs =>
      cases h
      simp only [Bool.and_eq_true, Bool.not_eq_true'] at hs
      exact .inr (.inl ⟨hs.1, hs.2, rfl, rfl⟩)
    · obtain ⟨⟨x, mem⟩, hrel, hr⟩ := Option.map_eq_some_iff.mp h
      cases hr
      exact .inr (.inr ⟨rfl, rfl, x, hrel⟩)

omit [DecidableEq τ] [DecidableEq μ] in
/-- `pth_cond_notify` signals the condition if there are waiters, and does nothing
    else. -/
theorem notify_cases (s : SyncState τ μ κ) (c : κ) (b : Bool) :
    (s.cond c).cnWaiters > 0 ∧
        (s.notify (some c) b).2 = (true, s.setCond c ((s.cond c).signal b)) ∨
      (s.notify (some c) b).2 = (false, s) := by
  simp only [notify]
  split
  · exact .inr rfl
  · split
    · next hw => exact .inl ⟨hw, rfl⟩
    · exact .inr rfl

theorem awaitWoken_reacquired (hwf : s.mem.WellFormed) (current : τ) (m : μ) (c : κ) :
    (s.awaitWoken current c m).Ensures (s.Reacquired current m c) := by
  by_cases hnone : (s.mem.mutex m).mxOwner = none
  · obtain ⟨mem, hacq, htaken⟩ := hwf.acquire_free current false hnone
    exact ⟨_, by rw [awaitWoken, hacq]; rfl, .inl ⟨rfl, htaken, rfl⟩⟩
  · by_cases hown : (s.mem.mutex m).mxOwner = some current
    · obtain ⟨mem, hacq, htaken⟩ := hwf.acquire_owned false hown
      exact ⟨_, by rw [awaitWoken, hacq]; rfl, .inl ⟨rfl, htaken, rfl⟩⟩
    · have hacq := hwf.acquire_busy false hnone hown
      exact ⟨_, by rw [awaitWoken, hacq]; rfl, .inr ⟨rfl, rfl, hnone⟩⟩

theorem condCleanupHandler_reacquired (hwf : s.mem.WellFormed) (current : τ) (m : μ) (c : κ) :
    (s.condCleanupHandler current m c).Ensures (s.Reacquired current m c) :=
  awaitWoken_reacquired hwf current m c

theorem reacquireWoken_reacquired (hwf : s.mem.WellFormed) (current : τ) (m : μ) (c : κ) :
    (s.reacquireWoken current c m).Ensures (s.Reacquired current m c) := by
  by_cases hnone : (s.mem.mutex m).mxOwner = none
  · obtain ⟨mem, hlock, htaken⟩ := hwf.acquireWoken_free current (Bool.and_false false) hnone
    exact ⟨_, by rw [reacquireWoken, hlock]; rfl, .inl ⟨rfl, htaken, rfl⟩⟩
  · have hbusy := hwf.acquireWoken_busy current (Bool.and_false false) hnone
    exact ⟨_, by rw [reacquireWoken, hbusy]; rfl, .inr ⟨rfl, rfl, hnone⟩⟩

end SyncState

end Pth
