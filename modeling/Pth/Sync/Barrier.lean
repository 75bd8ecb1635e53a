-- SUMMARY: The barriers of pth_sync.c, cut where pth_barrier_reach waits or yields, and what each of its pieces does.
import Pth.Sync.Cond

/-!
# Barriers

`pth_barrier_reach` counts the caller under the mutex of the barrier. The last thread
flips `br_cycle` and notifies the others, which wait in a loop until the cycle is no
longer the one they have come in. The function is cut where it waits for the mutex,
inside `pth_cond_await`, and at the `pth_yield` of `pth_cond_notify`. -/

namespace Pth

/-- The values of `pth_barrier_reach`: `TRUE`, `PTH_BARRIER_HEADLIGHT`,
    `PTH_BARRIER_TAILLIGHT`, and `FALSE` with an error. -/
inductive BarrierRet where
  | ok
  | headlight
  | taillight
  | error (e : Errno)
  deriving DecidableEq, Repr

/-- `struct pth_barrier_st` with its mutex and its condition variable in `sync`, and the
    `cancelstate` of each thread. -/
structure Barrier (τ : Type*) where
  brInitialized : Bool
  brThreshold : ℤ
  brCount : ℤ
  brCycle : Bool
  sync : SyncState τ Unit Unit
  cancelstate : τ → ℕ

/-- Where a thread stands in `pth_barrier_reach`: outside, waiting for the mutex,
    yielding inside `pth_cond_notify`, or inside `pth_cond_await`, waiting for the
    condition or for the mutex. -/
inductive BarrierPc where
  | idle
  | locking
  | notifying (rv : BarrierRet)
  | awaiting (cycle : Bool) (cancel : ℕ)
  | relocking (cycle : Bool) (cancel : ℕ)
  deriving DecidableEq, Repr

namespace BarrierPc

/-- The thread has not been counted yet. -/
def outside : BarrierPc → Bool
  | .idle | .locking => true
  | _ => false

/-- The thread is inside the loop. -/
def waits : BarrierPc → Bool
  | .awaiting _ _ | .relocking _ _ => true
  | _ => false

/-- The thread is inside the loop, with these copies of the cycle and of its
    cancellation state. -/
def inLoop (pc : BarrierPc) (cycle : Bool) (cancel : ℕ) : Prop :=
  pc = .awaiting cycle cancel ∨ pc = .relocking cycle cancel

end BarrierPc

/-- How `pth_barrier_reach` gets on. -/
inductive BarrierOut where
  | returned (rv : BarrierRet)
  | stopped (pc : BarrierPc)
  deriving DecidableEq, Repr

namespace Barrier

variable {τ : Type*} [DecidableEq τ]

/-- `pth_barrier_init` -/
def init (b : Barrier τ) (threshold : ℤ) : Ret × Barrier τ :=
  if threshold ≤ 0 then (.error .EINVAL, b)
  else
    (.ok, { b with
      brInitialized := true
      brThreshold := threshold
      brCount := threshold
      brCycle := false
      sync := { mem := b.sync.mem.setMutex () .init, cond := fun _ => .init } })

/-- `pth_cancel_state` -/
def cancelState (b : Barrier τ) (current : τ) (newstate : ℕ) : Barrier τ :=
  if newstate ≠ 0 then { b with cancelstate := Function.update b.cancelstate current newstate }
  else b

/-- Release the mutex and return `rv`. -/
def leave (b : Barrier τ) (current : τ) (rv : BarrierRet) : Option (BarrierOut × Barrier τ) :=
  (b.sync.mem.release current (some ())).map fun r =>
    (.returned rv, { b with sync := { b.sync with mem := r.2 } })

/-- Inside the loop, `pth_cond_await` has come as far as `r`; `again` is the next turn. -/
def afterAwait (b : Barrier τ) (current : τ) (cycle : Bool) (cancel : ℕ)
    (again : Barrier τ → Option (BarrierOut × Barrier τ)) (r : Await × SyncState τ Unit Unit) :
    Option (BarrierOut × Barrier τ) :=
  let b' := { b with sync := r.2 }
  match r.1 with
  | .returned .ok => again b'
  | .returned (.error e) => (b'.cancelState current cancel).leave current (.error e)
  | .waitCond => some (.stopped (.awaiting cycle cancel), b')
  | .waitMutex => some (.stopped (.relocking cycle cancel), b')

/-- At most `n` turns of the loop that waits for the remaining threads, and what follows
    it. -/
def waitLoop (current : τ) (cycle : Bool) (cancel : ℕ) :
    ℕ → Barrier τ → BarrierRet → Option (BarrierOut × Barrier τ)
  | 0, _, _ => none
  | n + 1, b, rv =>
    if cycle = b.brCycle then
      (b.sync.await current (some ()) (some ())).bind
        (b.afterAwait current cycle cancel fun b' => waitLoop current cycle cancel n b' .ok)
    else (b.cancelState current cancel).leave current rv

/-- The loop: a `pth_cond_await` that returns without waiting clears the bits that let it
    do so, so the next one waits. -/
def loop (b : Barrier τ) (current : τ) (cycle : Bool) (cancel : ℕ) (rv : BarrierRet) :
    Option (BarrierOut × Barrier τ) :=
  waitLoop current cycle cancel 2 b rv

/-- `pth_barrier_reach` with the mutex locked. -/
def arrive (b : Barrier τ) (current : τ) : Option (BarrierOut × Barrier τ) :=
  let count := b.brCount - 1
  if count = 0 then
    -- last thread reached the barrier
    let b₁ := { b with brCycle := !b.brCycle, brCount := b.brThreshold }
    match b₁.sync.notify (some ()) true with
    | (r, yields, sync) =>
      let rv := match r with | .ok => .taillight | .error e => .error e
      let b₂ := { b₁ with sync := sync }
      if yields then some (.stopped (.notifying rv), b₂) else b₂.leave current rv
  else
    -- wait until remaining threads have reached the barrier, too
    let b₁ := { b with brCount := count }.cancelState current cancelDisable
    let rv := if b₁.brThreshold = b₁.brCount then .headlight else .ok
    b₁.loop current b.brCycle (b.cancelstate current) rv

/-- `pth_barrier_reach` after its `pth_mutex_acquire` has come as far as `r`. -/
def afterLock (b : Barrier τ) (current : τ) (r : Acquire Unit × MutexState τ Unit) :
    Option (BarrierOut × Barrier τ) :=
  let b' := { b with sync := { b.sync with mem := r.2 } }
  match r.1 with
  | .returned .ok => b'.arrive current
  | .returned (.error e) => some (.returned (.error e), b')
  | .waiting _ => some (.stopped .locking, b')

/-- `pth_barrier_reach` up to its return or its first stop. -/
def reach (b : Barrier τ) (current : τ) : Option (BarrierOut × Barrier τ) :=
  if !b.brInitialized then some (.returned (.error .EINVAL), b)
  else (b.sync.mem.acquire current (some ()) false).bind (b.afterLock current)

/-- The rest of `pth_barrier_reach` for a thread that has stopped. -/
def woken (b : Barrier τ) (current : τ) : BarrierPc → Option (BarrierOut × Barrier τ)
  | .idle => none
  | .locking => (b.sync.mem.acquireWoken current () false false).bind (b.afterLock current)
  | .notifying rv => b.leave current rv
  | .awaiting cycle cancel =>
    (b.sync.awaitWoken current () ()).bind
      (b.afterAwait current cycle cancel fun b' => b'.loop current cycle cancel .ok)
  | .relocking cycle cancel =>
    (b.sync.reacquireWoken current () ()).bind
      (b.afterAwait current cycle cancel fun b' => b'.loop current cycle cancel .ok)

/-! ## What the pieces do -/

/-- The barrier is initialised, its mutex is owned by `o`, and its condition variable has
    only been notified by a broadcast. -/
structure Sound (b : Barrier τ) (o : Option τ) : Prop where
  initialized : b.brInitialized = true
  cond : (b.sync.cond ()).cnInitialized = true
  broadcast : (b.sync.cond ()).cnState.signaled = true → (b.sync.cond ()).cnState.broadcast = true
  owned : b.sync.mem.OwnedBy fun _ => o

/-- The threshold, the counter and the cycle. -/
def gate (b : Barrier τ) : ℤ × ℤ × Bool := (b.brThreshold, b.brCount, b.brCycle)

variable {b b' : Barrier τ} {t : τ} {o : Option τ}

omit [DecidableEq τ] in
theorem Sound.setMem (h : b.Sound o) {o' : Unit → Option τ} {mem : MutexState τ Unit}
    (hmem : mem.OwnedBy o') : Sound { b with sync := { b.sync with mem := mem } } (o' ()) :=
  { h with owned := hmem }

theorem Sound.cancelState (h : b.Sound o) (current : τ) (newstate : ℕ) :
    (b.cancelState current newstate).Sound o := by
  unfold Barrier.cancelState
  split
  · exact { h with }
  · exact h

@[simp] theorem cancelState_gate (b : Barrier τ) (current : τ) (newstate : ℕ) :
    (b.cancelState current newstate).gate = b.gate := by
  unfold Barrier.cancelState
  split <;> rfl

@[simp] theorem cancelState_brCycle (b : Barrier τ) (current : τ) (newstate : ℕ) :
    (b.cancelState current newstate).brCycle = b.brCycle := by
  unfold Barrier.cancelState
  split <;> rfl

theorem Sound.leave (h : b.Sound (some t)) (rv : BarrierRet) :
    (b.leave t rv).Ensures fun r =>
      r.1 = .returned rv ∧ r.2.Sound none ∧ r.2.gate = b.gate := by
  obtain ⟨mem, hrel, hmem⟩ := h.owned.release_owned (m := ()) rfl
  refine ⟨_, by rw [Barrier.leave, hrel]; rfl, rfl, ?_, rfl⟩
  simpa using h.setMem hmem

/-- With the mutex locked, `pth_cond_await` releases it and waits. -/
theorem Sound.await (h : b.Sound (some t)) :
    (b.sync.await t (some ()) (some ())).Ensures fun r =>
      r.1 = .waitCond ∧ Sound { b with sync := r.2 } none := by
  obtain ⟨mem, hrel, hmem⟩ := h.owned.release_owned (m := ()) rfl
  have hshort : ((b.sync.cond ()).cnState.signaled && !(b.sync.cond ()).cnState.broadcast) = false := by
    cases hs : (b.sync.cond ()).cnState.signaled with
    | false => rfl
    | true => simp [h.broadcast hs]
  refine ⟨_, by simp only [SyncState.await, h.cond, hshort, hrel]; rfl, rfl, ?_⟩
  exact {
    initialized := h.initialized
    cond := by simpa [SyncState.setCond, Cond.enter] using h.cond
    broadcast := by simpa [SyncState.setCond, Cond.enter] using h.broadcast
    owned := by simpa using (h.setMem hmem).owned }

/-- A thread in the loop that has the mutex waits for the condition again, or leaves the
    barrier. -/
theorem Sound.loop (h : b.Sound (some t)) (cycle : Bool) (cancel : ℕ) (rv : BarrierRet) :
    (b.loop t cycle cancel rv).Ensures fun r => r.2.Sound none ∧ r.2.gate = b.gate ∧
      r.1 = if cycle = b.brCycle then .stopped (.awaiting cycle cancel) else .returned rv := by
  unfold Barrier.loop waitLoop
  split
  · apply h.await.bind
    rintro ⟨out, sync⟩ ⟨rfl, hsync⟩
    exact ⟨_, rfl, hsync, rfl, rfl⟩
  · apply ((h.cancelState t cancel).leave rv).mono
    rintro r ⟨hout, hr, hgate⟩
    exact ⟨hr, by rw [hgate, cancelState_gate], hout⟩

/-- With the mutex locked, the caller is counted. It is the last one and notifies the
    others, or it waits for them. -/
theorem Sound.arrive (h : b.Sound (some t)) :
    (b.arrive t).Ensures fun r =>
      if b.brCount = 1 then
        r.2.gate = (b.brThreshold, b.brThreshold, !b.brCycle) ∧
          (r.1 = .stopped (.notifying .taillight) ∧ r.2.Sound (some t) ∨
            r.1 = .returned .taillight ∧ r.2.Sound none)
      else r.2.gate = (b.brThreshold, b.brCount - 1, b.brCycle) ∧ r.2.Sound none ∧
        r.1 = .stopped (.awaiting b.brCycle (b.cancelstate t)) := by
  by_cases hlast : b.brCount = 1
  · simp only [if_pos hlast]
    have hcount : b.brCount - 1 = 0 := by rw [hlast]; rfl
    simp only [Barrier.arrive, hcount, if_true, SyncState.notify, h.cond, Bool.not_true,
      Bool.false_eq_true, if_false]
    by_cases hwait : (b.sync.cond ()).cnWaiters > 0
    · simp only [if_pos hwait, if_true]
      refine ⟨_, rfl, rfl, .inl ⟨rfl, ?_⟩⟩
      exact { h with
        cond := by simpa [SyncState.setCond, Cond.signal] using h.cond
        broadcast := by simp [SyncState.setCond, Cond.signal] }
    · simp only [if_neg hwait, Bool.false_eq_true, if_false]
      have hb : Sound { b with brCycle := !b.brCycle, brCount := b.brThreshold } (some t) :=
        { h with }
      apply (hb.leave .taillight).mono
      rintro r ⟨hout, hr, hgate⟩
      exact ⟨hgate, .inr ⟨hout, hr⟩⟩
  · simp only [if_neg hlast]
    have hcount : b.brCount - 1 ≠ 0 := fun hcount => hlast (by omega)
    simp only [Barrier.arrive, hcount, if_false]
    have hb : Sound { b with brCount := b.brCount - 1 } (some t) := { h with }
    apply ((hb.cancelState t cancelDisable).loop b.brCycle (b.cancelstate t) _).mono
    rintro r ⟨hr, hgate, hout⟩
    refine ⟨by rw [hgate, cancelState_gate]; rfl, hr, ?_⟩
    rw [hout, cancelState_brCycle, if_pos rfl]

/-! ## What a thread can do -/

/-- What a thread `t` that stands at `pc` can do to a barrier whose mutex `o` owns: the
    barrier it leaves behind, and the owner of the mutex then. -/
inductive Effect (b : Barrier τ) (o : Option τ) (t : τ) :
    BarrierPc → BarrierOut → Barrier τ → Option τ → Prop
  /-- It waits for the mutex. -/
  | block {pc : BarrierPc} (hpc : pc.outside = true) (ho : o ≠ none) :
    Effect b o t pc (.stopped .locking) b o
  /-- It is the last thread of a generation. -/
  | last {pc : BarrierPc} {out : BarrierOut} {b' : Barrier τ} {o' : Option τ}
    (hpc : pc.outside = true) (ho : o = none) (hcount : b.brCount = 1)
    (hgate : b'.gate = (b.brThreshold, b.brThreshold, !b.brCycle))
    (hout : out = .stopped (.notifying .taillight) ∧ o' = some t ∨
      out = .returned .taillight ∧ o' = none) : Effect b o t pc out b' o'
  /-- It is not, and waits for the others. -/
  | arrive {pc : BarrierPc} {b' : Barrier τ} {cancel : ℕ} (hpc : pc.outside = true) (ho : o = none)
    (hcount : b.brCount ≠ 1) (hgate : b'.gate = (b.brThreshold, b.brCount - 1, b.brCycle)) :
    Effect b o t pc (.stopped (.awaiting b.brCycle cancel)) b' none
  /-- It has notified the others and returns. -/
  | notified {rv : BarrierRet} {b' : Barrier τ} (ho : o = some t) (hgate : b'.gate = b.gate) :
    Effect b o t (.notifying rv) (.returned rv) b' none
  /-- It is in the loop and waits for the mutex. -/
  | relock {pc : BarrierPc} {cycle : Bool} {cancel : ℕ} (hpc : pc.inLoop cycle cancel)
    (ho : o ≠ none) : Effect b o t pc (.stopped (.relocking cycle cancel)) b o
  /-- It finds the cycle unchanged and waits for the condition again. -/
  | again {pc : BarrierPc} {cycle : Bool} {cancel : ℕ} {b' : Barrier τ}
    (hpc : pc.inLoop cycle cancel) (ho : o = none) (hcycle : cycle = b.brCycle)
    (hgate : b'.gate = b.gate) : Effect b o t pc (.stopped (.awaiting cycle cancel)) b' none
  /-- It finds the cycle changed and returns. -/
  | pass {pc : BarrierPc} {cycle : Bool} {cancel : ℕ} {b' : Barrier τ}
    (hpc : pc.inLoop cycle cancel) (ho : o = none) (hcycle : cycle ≠ b.brCycle)
    (hgate : b'.gate = b.gate) : Effect b o t pc (.returned .ok) b' none

/-- The mutex was free, and the caller has it now. -/
theorem Sound.afterLock_free {pc : BarrierPc} {mem : MutexState τ Unit} (h : b.Sound none)
    (hpc : pc.outside = true) (hmem : mem.OwnedBy (Function.update (fun _ => none) () (some t))) :
    (b.afterLock t (.returned .ok, mem)).Ensures fun r =>
      ∃ o', Effect b none t pc r.1 r.2 o' ∧ r.2.Sound o' := by
  have hb := h.setMem hmem
  rw [Function.update_self] at hb
  apply hb.arrive.mono
  rintro ⟨out, b'⟩ hr
  split at hr
  · next hcount =>
    obtain ⟨hgate, ⟨hout, hsound⟩ | ⟨hout, hsound⟩⟩ := hr
    · exact ⟨_, .last hpc rfl hcount hgate (.inl ⟨hout, rfl⟩), hsound⟩
    · exact ⟨_, .last hpc rfl hcount hgate (.inr ⟨hout, rfl⟩), hsound⟩
  · next hcount =>
    obtain ⟨hgate, hsound, hout⟩ := hr
    obtain rfl : out = _ := hout
    exact ⟨_, .arrive hpc rfl hcount hgate, hsound⟩

theorem Sound.reach (h : b.Sound o) (ho : o ≠ some t) :
    (b.reach t).Ensures fun r => ∃ o', Effect b o t .idle r.1 r.2 o' ∧ r.2.Sound o' := by
  simp only [Barrier.reach, h.initialized, Bool.not_true, Bool.false_eq_true, if_false]
  cases o with
  | none =>
    obtain ⟨mem, hacq, hmem⟩ := h.owned.acquire_free t false (m := ()) rfl
    rw [hacq]
    exact h.afterLock_free rfl hmem
  | some u =>
    have hne : u ≠ t := fun hut => ho (by rw [hut])
    rw [h.owned.acquire_busy false (m := ()) rfl hne]
    exact ⟨_, rfl, some u, .block rfl (by simp), h⟩

/-- A thread in the loop, when its `pth_cond_await` has the mutex again. -/
theorem Sound.afterAwait_free {pc : BarrierPc} {cycle : Bool} {cancel : ℕ}
    {mem : MutexState τ Unit} (h : b.Sound none) (hpc : pc.inLoop cycle cancel)
    (hmem : mem.OwnedBy (Function.update (fun _ => none) () (some t))) :
    (b.afterAwait t cycle cancel (fun b' => b'.loop t cycle cancel .ok)
      (b.sync.afterReacquire () (.returned .ok, mem))).Ensures fun r =>
      ∃ o', Effect b none t pc r.1 r.2 o' ∧ r.2.Sound o' := by
  have hb : Sound { b with sync :=
      { (b.sync.setCond () (b.sync.cond ()).leave) with mem := mem } } (some t) :=
    { initialized := h.initialized
      cond := by simpa [SyncState.setCond, Cond.leave] using h.cond
      broadcast := by simpa [SyncState.setCond, Cond.leave] using h.broadcast
      owned := by simpa using (h.setMem hmem).owned }
  apply (hb.loop cycle cancel .ok).mono
  rintro ⟨out, b'⟩ ⟨hsound, hgate, hout⟩
  split at hout
  · next hcycle =>
    obtain rfl : out = _ := hout
    exact ⟨_, .again hpc rfl hcycle hgate, hsound⟩
  · next hcycle =>
    obtain rfl : out = _ := hout
    exact ⟨_, .pass hpc rfl hcycle hgate, hsound⟩

theorem Sound.woken {pc : BarrierPc} (h : b.Sound o) (hpc : pc ≠ .idle)
    (ho : o = some t ↔ ∃ rv, pc = .notifying rv) :
    (b.woken t pc).Ensures fun r => ∃ o', Effect b o t pc r.1 r.2 o' ∧ r.2.Sound o' := by
  cases pc with
  | idle => exact absurd rfl hpc
  | notifying rv =>
    obtain rfl : o = some t := ho.mpr ⟨rv, rfl⟩
    apply (h.leave rv).mono
    rintro ⟨out, b'⟩ ⟨hout, hsound, hgate⟩
    obtain rfl : out = _ := hout
    exact ⟨none, .notified rfl hgate, hsound⟩
  | locking =>
    rw [Barrier.woken]
    cases o with
    | none =>
      obtain ⟨mem, hacq, hmem⟩ := h.owned.acquireWoken_free t (Bool.and_false false) (m := ()) rfl
      rw [hacq]
      exact h.afterLock_free rfl hmem
    | some u =>
      have hsome : some u ≠ none := by simp
      rw [h.owned.acquireWoken_busy t (Bool.and_false false) (m := ()) hsome]
      exact ⟨_, rfl, some u, .block rfl hsome, h⟩
  | awaiting cycle cancel =>
    rw [Barrier.woken, SyncState.awaitWoken]
    cases o with
    | none =>
      obtain ⟨mem, hacq, hmem⟩ := h.owned.acquire_free t false (m := ()) rfl
      rw [hacq]
      exact h.afterAwait_free (.inl rfl) hmem
    | some u =>
      have hne : u ≠ t := fun hut => by simp [hut] at ho
      rw [h.owned.acquire_busy false (m := ()) rfl hne]
      exact ⟨_, rfl, some u, .relock (.inl rfl) (by simp), h⟩
  | relocking cycle cancel =>
    rw [Barrier.woken, SyncState.reacquireWoken]
    cases o with
    | none =>
      obtain ⟨mem, hacq, hmem⟩ := h.owned.acquireWoken_free t (Bool.and_false false) (m := ()) rfl
      rw [hacq]
      exact h.afterAwait_free (.inr rfl) hmem
    | some u =>
      have hsome : some u ≠ none := by simp
      rw [h.owned.acquireWoken_busy t (Bool.and_false false) (m := ()) hsome]
      exact ⟨_, rfl, some u, .relock (.inr rfl) hsome, h⟩

/-- The event manager has woken the waiters and clears the bits of the condition
    variable. -/
def clearCond (b : Barrier τ) : Barrier τ :=
  { b with sync := b.sync.setCond () { b.sync.cond () with cnState := .clear } }

omit [DecidableEq τ] in
theorem Sound.clearCond (h : b.Sound o) : b.clearCond.Sound o :=
  { h with
    cond := by simpa [Barrier.clearCond, SyncState.setCond] using h.cond
    broadcast := by simp [Barrier.clearCond, SyncState.setCond, CondState.clear] }

end Barrier

end Pth
