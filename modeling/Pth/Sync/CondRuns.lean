-- SUMMARY: Any interleaving of condition variable calls and cancellations, and when cn_waiters counts the waiters.
import Mathlib.Data.Set.Card
import Pth.Lib.Machine
import Pth.Sync.Cond

/-!
# Interleaved condition variable calls

Threads lock and unlock mutexes, await and notify condition variables, and are
cancelled where they wait. A wait may return at any time here, because of a
notification, an extra event or a cancellation request, and the event manager may
change the bits of a condition variable at any time. -/

namespace Pth

/-- Where a thread is: outside of the calls, in `pth_mutex_acquire`, at the wait of
    `pth_cond_await` for the condition or for the mutex, at the wait of
    `pth_cond_cleanup_handler`, or terminated. -/
inductive CondPc (μ κ : Type*) where
  | idle
  | locking (m : μ)
  | awaiting (c : κ) (m : μ)
  | relocking (c : κ) (m : μ)
  | cleaning (c : κ) (m : μ)
  | dead
  deriving DecidableEq, Repr

structure CondRun (τ μ κ : Type*) where
  sync : SyncState τ μ κ
  pc : τ → CondPc μ κ

/-- The operations. A cancellation is taken where the thread stands; for the main
    thread this is the moment at which `pth_exit` has waited for the others. -/
inductive CondOp (τ μ κ : Type*) where
  | lock (t : τ) (mutex : Option μ)
  | unlock (t : τ) (mutex : Option μ)
  | await (t : τ) (cond : Option κ) (mutex : Option μ)
  | notify (t : τ) (cond : Option κ) (broadcast : Bool)
  | woken (t : τ)
  | cancel (t : τ)
  | manage (bits : κ → CondState)

variable {τ μ κ : Type*} [DecidableEq τ] [DecidableEq μ] [DecidableEq κ]

/-- Between `cn_waiters++` and `cn_waiters--` of the condition variable `c`. -/
def CondPc.inside (c : κ) : CondPc μ κ → Bool
  | .awaiting d _ | .relocking d _ | .cleaning d _ => d = c
  | .idle | .locking _ | .dead => false

/-- Inside, and waiting for the mutex. -/
def CondPc.reacquires : CondPc μ κ → Bool
  | .relocking _ _ | .cleaning _ _ => true
  | .idle | .locking _ | .awaiting _ _ | .dead => false

namespace CondRun

def setPc (s : CondRun τ μ κ) (t : τ) (pc : CondPc μ κ) : CondRun τ μ κ :=
  { s with pc := Function.update s.pc t pc }

/-- `pth_mutex_acquire` of the application has come as far as `r`. -/
def lockStep (s : CondRun τ μ κ) (t : τ) (r : Acquire μ × MutexState τ μ) :
    Option Ret × CondRun τ μ κ :=
  let s' : CondRun τ μ κ := { s with sync := { s.sync with mem := r.2 } }
  match r.1 with
  | .returned x => (some x, s'.setPc t .idle)
  | .waiting m => (none, s'.setPc t (.locking m))

/-- `pth_cond_await` on `c` and `m` has come as far as `r`. -/
def awaitStep (s : CondRun τ μ κ) (t : τ) (c : κ) (m : μ) (r : Await × SyncState τ μ κ) :
    Option Ret × CondRun τ μ κ :=
  let s' : CondRun τ μ κ := { s with sync := r.2 }
  match r.1 with
  | .returned x => (some x, s'.setPc t .idle)
  | .waitCond => (none, s'.setPc t (.awaiting c m))
  | .waitMutex => (none, s'.setPc t (.relocking c m))

/-- The end of `pth_thread_cleanup` and of the thread. -/
def die (s : CondRun τ μ κ) (t : τ) : Option (Option Ret × CondRun τ μ κ) :=
  (s.sync.mem.releaseall t t).map fun mem =>
    (none, { s with sync := { s.sync with mem := mem } }.setPc t .dead)

/-- `pth_cond_cleanup_handler` of a thread that is cancelled has come as far as `r`. -/
def cleanStep (s : CondRun τ μ κ) (t : τ) (c : κ) (m : μ) (r : Await × SyncState τ μ κ) :
    Option (Option Ret × CondRun τ μ κ) :=
  let s' : CondRun τ μ κ := { s with sync := r.2 }
  match r.1 with
  | .waitMutex => some (none, s'.setPc t (.cleaning c m))
  | .returned _ | .waitCond => s'.die t

def exec (s : CondRun τ μ κ) : CondOp τ μ κ → Option (Option Ret × CondRun τ μ κ)
  | .lock t mutex => (s.sync.mem.acquire t mutex false).map (s.lockStep t)
  | .unlock t mutex =>
    (s.sync.mem.release t mutex).map fun r =>
      (some r.1, { s with sync := { s.sync with mem := r.2 } })
  | .await t (some c) (some m) => (s.sync.await t (some c) (some m)).map (s.awaitStep t c m)
  | .await _ _ _ => some (some (.error .EINVAL), s)
  | .notify _ cond broadcast =>
    let r := s.sync.notify cond broadcast
    some (some r.1, { s with sync := r.2.2 })
  | .woken t =>
    match s.pc t with
    | .locking m => (s.sync.mem.acquireWoken t m false false).map (s.lockStep t)
    | .awaiting c m => (s.sync.awaitWoken t c m).map (s.awaitStep t c m)
    | .relocking c m => (s.sync.reacquireWoken t c m).map (s.awaitStep t c m)
    | .cleaning c m => (s.sync.reacquireWoken t c m).bind (s.cleanStep t c m)
    | .idle | .dead => none
  | .cancel t =>
    match s.pc t with
    | .awaiting c m => (s.sync.condCleanupHandler t m c).bind (s.cleanStep t c m)
    | .idle | .locking _ | .relocking _ _ | .cleaning _ _ => s.die t
    | .dead => none
  | .manage bits =>
    let cond := fun c => { s.sync.cond c with cnState := bits c }
    some (none, { s with sync := { s.sync with cond := cond } })

/-- A thread calls when it is outside of the calls, and a thread that waits may be
    woken. -/
def enabled (s : CondRun τ μ κ) : CondOp τ μ κ → Prop
  | .lock t _ | .unlock t _ | .await t _ _ | .notify t _ _ => s.pc t = .idle
  | .woken t => s.pc t ≠ .idle ∧ s.pc t ≠ .dead
  | .cancel t => s.pc t ≠ .dead
  | .manage _ => True

instance (s : CondRun τ μ κ) : (op : CondOp τ μ κ) → Decidable (s.enabled op)
  | .lock t _ | .unlock t _ | .await t _ _ | .notify t _ _ =>
    inferInstanceAs (Decidable (s.pc t = .idle))
  | .woken t => inferInstanceAs (Decidable (s.pc t ≠ .idle ∧ s.pc t ≠ .dead))
  | .cancel t => inferInstanceAs (Decidable (s.pc t ≠ .dead))
  | .manage _ => inferInstanceAs (Decidable True)

/-- All mutexes and condition variables initialised, and nobody in a call. The links
    of the mutexes are arbitrary. -/
def init (s : CondRun τ μ κ) : Prop :=
  (∀ m, s.sync.mem.mutex m = Mutex.init) ∧ (∀ t, s.sync.mem.mutexring t = Ring.init) ∧
    (∀ c, s.sync.cond c = Cond.init) ∧ ∀ t, s.pc t = .idle

def machine : Machine (CondRun τ μ κ) (CondOp τ μ κ) (Option Ret) where
  init := init
  enabled := enabled
  exec := exec

instance (s : CondRun τ μ κ) (op : CondOp τ μ κ) : Decidable (machine.enabled s op) :=
  inferInstanceAs (Decidable (s.enabled op))

/-! ## Calls that leave the bits alone -/

/-- Only the thread `t` moves, and it does not come to await a condition. -/
structure Quiet (s s' : CondRun τ μ κ) (t : τ) : Prop where
  pc : ∀ u, u ≠ t → s'.pc u = s.pc u
  inside : ∀ c, (s'.pc t).inside c = true → (s.pc t).inside c = true
  cnState : ∀ c, (s'.sync.cond c).cnState = (s.sync.cond c).cnState

section

variable {s s' : CondRun τ μ κ} {t : τ} {o : Option Ret}

omit [DecidableEq μ] in
theorem Quiet.setPc {sync : SyncState τ μ κ} {p : CondPc μ κ}
    (hin : ∀ c, p.inside c = true → (s.pc t).inside c = true)
    (hst : ∀ c, (sync.cond c).cnState = (s.sync.cond c).cnState) :
    s.Quiet ({ s with sync := sync }.setPc t p) t where
  pc u hu := by simp [CondRun.setPc, hu]
  inside c hc := hin c (by simpa [CondRun.setPc] using hc)
  cnState := hst

omit [DecidableEq μ] in
theorem lockStep_quiet (r : Acquire μ × MutexState τ μ) : s.Quiet (s.lockStep t r).2 t := by
  unfold lockStep
  dsimp only
  split
  · exact .setPc nofun fun _ => rfl
  · exact .setPc nofun fun _ => rfl

omit [DecidableEq τ] [DecidableEq μ] in
theorem leave_cnState (s : SyncState τ μ κ) (c d : κ) :
    ((s.setCond c (s.cond c).leave).cond d).cnState = (s.cond d).cnState := by
  by_cases hd : d = c
  · subst hd
    simp [SyncState.setCond]
  · simp [SyncState.setCond, hd]

omit [DecidableEq μ] in
theorem awaitStep_quiet {c : κ} {m : μ} (hp : ∀ d, (s.pc t).inside d = decide (c = d))
    (x : Acquire μ × MutexState τ μ) :
    s.Quiet (s.awaitStep t c m (s.sync.afterReacquire c x)).2 t := by
  unfold SyncState.afterReacquire
  split
  · exact .setPc nofun (leave_cnState s.sync c)
  · exact .setPc (fun d hd => (hp d).trans hd) fun _ => rfl

theorem cleanStep_quiet {c : κ} {m : μ} (hp : ∀ d, (s.pc t).inside d = decide (c = d))
    (x : Acquire μ × MutexState τ μ)
    (h : s.cleanStep t c m (s.sync.afterReacquire c x) = some (o, s')) : s.Quiet s' t := by
  unfold SyncState.afterReacquire at h
  split at h
  · obtain ⟨mem, -, hs⟩ := Option.map_eq_some_iff.mp h
    cases hs
    exact .setPc nofun (leave_cnState s.sync c)
  · cases h
    exact .setPc (fun d hd => (hp d).trans hd) fun _ => rfl

theorem lock_quiet {mutex : Option μ} (h : s.exec (.lock t mutex) = some (o, s')) :
    s.Quiet s' t := by
  obtain ⟨r, -, hr⟩ := Option.map_eq_some_iff.mp h
  obtain rfl : (s.lockStep t r).2 = s' := by rw [hr]
  exact lockStep_quiet r

theorem unlock_quiet {mutex : Option μ} (h : s.exec (.unlock t mutex) = some (o, s')) :
    s.Quiet s' t := by
  obtain ⟨r, -, hr⟩ := Option.map_eq_some_iff.mp h
  cases hr
  exact ⟨fun _ _ => rfl, fun _ hc => hc, fun _ => rfl⟩

/-- Without a notification `pth_cond_await` does not return `TRUE` at once. -/
theorem await_blocks {c : κ} {m : μ} (hs : (s.sync.cond c).cnState.signaled = false)
    (h : s.exec (.await t (some c) (some m)) = some (o, s')) :
    o ≠ some .ok ∧ (s'.pc t = .idle ∨ s'.pc t = .awaiting c m) ∧
      (∀ u, u ≠ t → s'.pc u = s.pc u) ∧
      ∀ d, (s'.sync.cond d).cnState = (s.sync.cond d).cnState := by
  obtain ⟨⟨x, sync⟩, hx, hr⟩ := Option.map_eq_some_iff.mp h
  rcases SyncState.await_eq_some hx with ⟨rfl, rfl⟩ | ⟨hsig, -⟩ | ⟨rfl, hcond, -⟩
  · cases hr
    exact ⟨by simp, .inl (by simp [setPc]), fun u hu => by simp [setPc, hu], fun _ => rfl⟩
  · rw [hs] at hsig
    cases hsig
  · cases hr
    refine ⟨by simp, .inr (by simp [setPc]), fun u hu => by simp [setPc, hu], fun d => ?_⟩
    by_cases hd : d = c
    · subst hd
      simp [setPc, hcond]
    · simp [setPc, hcond, hd]

/-- How a thread goes on after a wait. -/
theorem woken_eq_some (h : s.exec (.woken t) = some (o, s')) :
    (∃ r, (∀ d, (s.pc t).inside d = false) ∧ s.lockStep t r = (o, s')) ∨
      ∃ c m x, (∀ d, (s.pc t).inside d = decide (c = d)) ∧
        (s.awaitStep t c m (s.sync.afterReacquire c x) = (o, s') ∨
          s.cleanStep t c m (s.sync.afterReacquire c x) = some (o, s')) := by
  simp only [exec] at h
  cases hp : s.pc t with
  | idle | dead =>
    rw [hp] at h
    cases h
  | locking m =>
    rw [hp] at h
    obtain ⟨r, -, hr⟩ := Option.map_eq_some_iff.mp h
    exact .inl ⟨r, fun d => rfl, hr⟩
  | awaiting c m | relocking c m =>
    rw [hp] at h
    obtain ⟨r, hr, hr'⟩ := Option.map_eq_some_iff.mp h
    obtain ⟨x, -, rfl⟩ := Option.map_eq_some_iff.mp hr
    exact .inr ⟨c, m, x, fun d => rfl, .inl hr'⟩
  | cleaning c m =>
    rw [hp] at h
    obtain ⟨r, hr, hr'⟩ := Option.bind_eq_some_iff.mp h
    obtain ⟨x, -, rfl⟩ := Option.map_eq_some_iff.mp hr
    exact .inr ⟨c, m, x, fun d => rfl, .inr hr'⟩

theorem woken_quiet (h : s.exec (.woken t) = some (o, s')) : s.Quiet s' t := by
  rcases woken_eq_some h with ⟨r, -, hr⟩ | ⟨c, m, x, hp, hr | hr⟩
  · obtain rfl : (s.lockStep t r).2 = s' := by rw [hr]
    exact lockStep_quiet r
  · obtain rfl : (s.awaitStep t c m (s.sync.afterReacquire c x)).2 = s' := by rw [hr]
    exact awaitStep_quiet hp x
  · exact cleanStep_quiet hp x hr

end

/-! ## The number of waiters -/

/-- No cancellation is taken at the wait for the mutex, neither in `pth_cond_await` nor
    in its cleanup handler, and `cn_waiters` does not overflow. -/
def Kept (s : CondRun τ μ κ) : CondOp τ μ κ → Prop
  | .await _ (some c) _ => (s.sync.cond c).cnWaiters + 1 < 2 ^ 32
  | .cancel t => (s.pc t).reacquires = false
  | _ => True

instance (s : CondRun τ μ κ) : (op : CondOp τ μ κ) → Decidable (s.Kept op)
  | .await _ (some c) _ => inferInstanceAs (Decidable ((s.sync.cond c).cnWaiters + 1 < 2 ^ 32))
  | .cancel t => inferInstanceAs (Decidable ((s.pc t).reacquires = false))
  | .lock _ _ | .unlock _ _ | .await _ none _ | .notify _ _ _ | .woken _ | .manage _ =>
    inferInstanceAs (Decidable True)

/-- The threads between `cn_waiters++` and `cn_waiters--`. -/
def waiters (s : CondRun τ μ κ) (c : κ) : Set τ := {t | (s.pc t).inside c}

omit [DecidableEq τ] [DecidableEq μ] in
@[simp] theorem mem_waiters {s : CondRun τ μ κ} {c : κ} {t : τ} :
    t ∈ s.waiters c ↔ (s.pc t).inside c = true := .rfl

/-- `cn_waiters` after a thread that was inside or not is inside or not. -/
def ticked (x : Cond) : Bool → Bool → ℕ
  | false, true => x.enter.cnWaiters
  | true, false => x.leave.cnWaiters
  | true, true | false, false => x.cnWaiters

/-- The thread `t` moves, and is counted as it goes in and out. -/
structure Moved (s s' : CondRun τ μ κ) (t : τ) : Prop where
  pc : ∀ u, u ≠ t → s'.pc u = s.pc u
  waiters : ∀ c, (s'.sync.cond c).cnWaiters =
    ticked (s.sync.cond c) ((s.pc t).inside c) ((s'.pc t).inside c)
  room : ∀ c, (s'.pc t).inside c = true →
    (s.pc t).inside c = true ∨ (s.sync.cond c).cnWaiters + 1 < 2 ^ 32

variable {s s' : CondRun τ μ κ} {t : τ} {c : κ} {m : μ}

omit [DecidableEq μ] in
theorem Moved.setPc {sync : SyncState τ μ κ} {p : CondPc μ κ}
    (h : ∀ c, (sync.cond c).cnWaiters =
      ticked (s.sync.cond c) ((s.pc t).inside c) (p.inside c))
    (hroom : ∀ c, p.inside c = true →
      (s.pc t).inside c = true ∨ (s.sync.cond c).cnWaiters + 1 < 2 ^ 32) :
    s.Moved ({ s with sync := sync }.setPc t p) t where
  pc u hu := by simp [CondRun.setPc, hu]
  waiters c := by simpa [CondRun.setPc] using h c
  room c hc := hroom c (by simpa [CondRun.setPc] using hc)

omit [DecidableEq μ] in
theorem lockStep_moved (hp : ∀ c, (s.pc t).inside c = false) (r : Acquire μ × MutexState τ μ) :
    s.Moved (s.lockStep t r).2 t := by
  unfold lockStep
  dsimp only
  split
  · exact .setPc (fun c => by rw [hp c]; rfl) nofun
  · exact .setPc (fun c => by rw [hp c]; rfl) nofun

/-- A thread dies where it is not counted. -/
theorem die_moved {o : Option Ret} (hp : ∀ c, (s.pc t).inside c = false)
    (h : s.die t = some (o, s')) : s.Moved s' t := by
  obtain ⟨mem, -, hs⟩ := Option.map_eq_some_iff.mp h
  cases hs
  exact .setPc (fun c => by rw [hp c]; rfl) nofun

omit [DecidableEq τ] [DecidableEq μ] in
/-- `cn_waiters` after the mutex has been locked again. -/
theorem leave_ticked (s : SyncState τ μ κ) (c d : κ) :
    ((s.setCond c (s.cond c).leave).cond d).cnWaiters =
      ticked (s.cond d) (decide (c = d)) false := by
  by_cases hd : c = d
  · subst hd
    simp [SyncState.setCond, ticked]
  · simp [SyncState.setCond, Function.update_of_ne (Ne.symm hd), ticked, hd]

omit [DecidableEq μ] in
/-- A thread that is counted moves to another wait. -/
theorem Moved.waits {p : CondPc μ κ} {mem : MutexState τ μ}
    (h : ∀ d, p.inside d = (s.pc t).inside d) :
    s.Moved ({ s with sync := { s.sync with mem := mem } }.setPc t p) t := by
  refine .setPc (fun d => ?_) fun d hd => .inl ((h d).symm.trans hd)
  rw [h d]
  cases (s.pc t).inside d <;> rfl

omit [DecidableEq μ] in
theorem awaitStep_moved (hp : ∀ d, (s.pc t).inside d = decide (c = d))
    (x : Acquire μ × MutexState τ μ) :
    s.Moved (s.awaitStep t c m (s.sync.afterReacquire c x)).2 t := by
  unfold SyncState.afterReacquire
  split
  · exact .setPc (fun d => by rw [hp d]; exact leave_ticked s.sync c d) nofun
  · exact .waits fun d => (hp d).symm

theorem cleanStep_moved {o : Option Ret} (hp : ∀ d, (s.pc t).inside d = decide (c = d))
    (x : Acquire μ × MutexState τ μ)
    (h : s.cleanStep t c m (s.sync.afterReacquire c x) = some (o, s')) : s.Moved s' t := by
  unfold SyncState.afterReacquire at h
  split at h
  · obtain ⟨mem, -, hs⟩ := Option.map_eq_some_iff.mp h
    cases hs
    exact .setPc (fun d => by rw [hp d]; exact leave_ticked s.sync c d) nofun
  · cases h
    exact .waits fun d => (hp d).symm

omit [DecidableEq τ] [DecidableEq μ] in
theorem setCond_cnWaiters {sync : SyncState τ μ κ} {x : Cond}
    (hx : x.cnWaiters = (sync.cond c).cnWaiters) (d : κ) :
    ((sync.setCond c x).cond d).cnWaiters = (sync.cond d).cnWaiters := by
  by_cases hd : d = c
  · subst hd
    simpa [SyncState.setCond] using hx
  · simp [SyncState.setCond, hd]

theorem await_moved {r : Await × SyncState τ μ κ} (hp : s.pc t = .idle)
    (hroom : (s.sync.cond c).cnWaiters + 1 < 2 ^ 32)
    (h : s.sync.await t (some c) (some m) = some r) : s.Moved (s.awaitStep t c m r).2 t := by
  have hawait : s.sync.await t (some c) (some m) = some (r.1, r.2) := h
  rcases SyncState.await_eq_some hawait with ⟨hr, hs⟩ | ⟨-, -, hr, hs⟩ | ⟨hr, hs, -⟩
  · rw [awaitStep, hr]
    exact .setPc (fun d => by rw [hp, hs]; rfl) nofun
  · rw [awaitStep, hr]
    refine .setPc (fun d => ?_) nofun
    rw [hp, hs]
    exact setCond_cnWaiters (by rfl) d
  · rw [awaitStep, hr]
    refine .setPc (fun d => ?_) fun d hd => ?_
    · rw [hp, hs]
      by_cases hd : c = d
      · subst hd
        simp [CondPc.inside, ticked]
      · simp [CondPc.inside, ticked, hd, Function.update_of_ne (Ne.symm hd)]
    · obtain rfl : c = d := of_decide_eq_true hd
      exact .inr hroom

omit [DecidableEq τ] [DecidableEq μ] in
theorem notify_cnWaiters (sync : SyncState τ μ κ) (cond : Option κ) (b : Bool) (d : κ) :
    ((sync.notify cond b).2.2.cond d).cnWaiters = (sync.cond d).cnWaiters := by
  unfold SyncState.notify
  split
  · rfl
  · dsimp only
    split
    · rfl
    · split
      · exact setCond_cnWaiters (by rfl) d
      · rfl

/-- Every step leaves threads and counters alone, or moves one thread. -/
theorem step_moved {op : CondOp τ μ κ} {o : Option Ret} (hP : s.Kept op)
    (hs : machine.Step s op o s') :
    (s'.pc = s.pc ∧ ∀ c, (s'.sync.cond c).cnWaiters = (s.sync.cond c).cnWaiters) ∨
      ∃ t, s.Moved s' t := by
  obtain ⟨hen, hexec⟩ := hs
  cases op with
  | lock t mutex =>
    have hp : s.pc t = .idle := hen
    obtain ⟨r, -, hr⟩ := Option.map_eq_some_iff.mp hexec
    obtain rfl : (s.lockStep t r).2 = s' := by rw [hr]
    exact .inr ⟨t, lockStep_moved (fun c => by rw [hp]; rfl) r⟩
  | unlock t mutex =>
    obtain ⟨r, -, hr⟩ := Option.map_eq_some_iff.mp hexec
    cases hr
    exact .inl ⟨rfl, fun _ => rfl⟩
  | await t cond mutex =>
    have hp : s.pc t = .idle := hen
    cases cond with
    | none =>
      cases hexec
      exact .inl ⟨rfl, fun _ => rfl⟩
    | some c =>
      cases mutex with
      | none =>
        cases hexec
        exact .inl ⟨rfl, fun _ => rfl⟩
      | some m =>
        obtain ⟨r, hr, hr'⟩ := Option.map_eq_some_iff.mp hexec
        obtain rfl : (s.awaitStep t c m r).2 = s' := by rw [hr']
        exact .inr ⟨t, await_moved hp hP hr⟩
  | notify t cond b =>
    cases hexec
    exact .inl ⟨rfl, notify_cnWaiters s.sync cond b⟩
  | woken t =>
    refine .inr ⟨t, ?_⟩
    rcases woken_eq_some hexec with ⟨r, hp, hr⟩ | ⟨c, m, x, hp, hr | hr⟩
    · obtain rfl : (s.lockStep t r).2 = s' := by rw [hr]
      exact lockStep_moved hp r
    · obtain rfl : (s.awaitStep t c m (s.sync.afterReacquire c x)).2 = s' := by rw [hr]
      exact awaitStep_moved hp x
    · exact cleanStep_moved hp x hr
  | cancel t =>
    simp only [machine, exec] at hexec
    refine .inr ⟨t, ?_⟩
    cases hp : s.pc t with
    | dead => exact absurd hp hen
    | idle | locking m =>
      rw [hp] at hexec
      exact die_moved (fun c => by rw [hp]; rfl) hexec
    | awaiting c m =>
      rw [hp] at hexec
      obtain ⟨r, hr, hr'⟩ := Option.bind_eq_some_iff.mp hexec
      obtain ⟨x, -, rfl⟩ := Option.map_eq_some_iff.mp hr
      exact cleanStep_moved (fun d => by rw [hp]; rfl) x hr'
    | relocking c m | cleaning c m =>
      rw [Kept, hp] at hP
      cases hP
  | manage bits =>
    cases hexec
    exact .inl ⟨rfl, fun _ => rfl⟩

/-- The counter of `c` is exact. -/
structure Counted (s : CondRun τ μ κ) (c : κ) : Prop where
  finite : (s.waiters c).Finite
  ncard : (s.waiters c).ncard = (s.sync.cond c).cnWaiters
  lt : (s.sync.cond c).cnWaiters < 2 ^ 32

omit [DecidableEq τ] [DecidableEq μ] in
/-- The other waiters, and the thread `t` if it is one. -/
theorem ncard_waiters (h : (s.waiters c \ {t}).Finite) :
    (s.waiters c).Finite ∧ (s.waiters c).ncard =
      (s.waiters c \ {t}).ncard + ((s.pc t).inside c).toNat := by
  have hfin : (s.waiters c).Finite := Set.Finite.of_sdiff h (Set.finite_singleton t)
  refine ⟨hfin, ?_⟩
  cases hin : (s.pc t).inside c with
  | true =>
    have hmem : t ∈ s.waiters c := hin
    exact (Set.ncard_sdiff_singleton_add_one hmem hfin).symm
  | false =>
    have hmem : t ∉ s.waiters c := by simp [hin]
    rw [Set.sdiff_singleton_eq_self hmem]
    rfl

omit [DecidableEq τ] [DecidableEq μ] in
/-- A thread that moves is counted. -/
theorem Moved.counted (h : s.Moved s' t) (hc : s.Counted c) : s'.Counted c := by
  have hsame : s'.waiters c \ {t} = s.waiters c \ {t} := by
    ext u
    by_cases hu : u = t
    · simp [hu]
    · simp [hu, h.pc u hu]
  have hout := hc.finite.sdiff (t := {t})
  have hold := (ncard_waiters hout).2
  rw [← hsame] at hout hold
  obtain ⟨hfin, hnew⟩ := ncard_waiters hout
  have hw := h.waiters c
  have hroom := h.room c
  have hlt := hc.lt
  rw [hc.ncard] at hold
  cases hwas : (s.pc t).inside c <;> cases his : (s'.pc t).inside c <;>
    simp only [hwas, his, ticked, Cond.enter, Cond.leave, Bool.toNat_true, Bool.toNat_false,
      Bool.false_eq_true, false_or, forall_const] at hold hnew hw hroom <;>
    exact ⟨hfin, by omega, by omega⟩

/-- The number of waiters is exact in every run in which no cancellation is taken
    while `pth_cond_await` or its cleanup handler waits for the mutex. -/
theorem cnWaiters_exact (h : machine.Reach Kept s) (c : κ) :
    (s.waiters c).Finite ∧ (s.sync.cond c).cnWaiters = (s.waiters c).ncard ∧
      ((∀ t, (s.pc t).inside c = false) → (s.sync.cond c).cnWaiters = 0) := by
  have hc : s.Counted c := by
    refine h.invariant (I := fun s => ∀ c, s.Counted c) ?_ ?_ c
    · rintro s ⟨-, -, hcond, hpc⟩ c
      have hempty : s.waiters c = ∅ := by
        ext t
        simp [hpc t, CondPc.inside]
      constructor <;> simp [hempty, hcond c, Cond.init]
    · intro s op o s' hc hP hs c
      rcases step_moved hP hs with ⟨hpc, hw⟩ | ⟨t, ht⟩
      · have hsame : s'.waiters c = s.waiters c := by rw [waiters, hpc, waiters]
        exact ⟨hsame ▸ (hc c).finite, by rw [hsame, hw, (hc c).ncard], by rw [hw]; exact (hc c).lt⟩
      · exact ht.counted (hc c)
  refine ⟨hc.finite, hc.ncard.symm, fun hout => ?_⟩
  have hempty : s.waiters c = ∅ := by
    ext t
    simp [hout t]
  rw [← hc.ncard, hempty, Set.ncard_empty]

/-- A state as the initialisation functions leave it. -/
def start (L : Links μ) : CondRun τ μ κ where
  sync :=
    { mem := { mutex := fun _ => Mutex.init, node := L, mutexring := fun _ => Ring.init }
      cond := fun _ => Cond.init }
  pc _ := .idle

omit [DecidableEq τ] [DecidableEq μ] [DecidableEq κ] in
theorem start_init (L : Links μ) : (start L : CondRun τ μ κ).init :=
  ⟨fun _ => rfl, fun _ => rfl, fun _ => rfl, fun _ => rfl⟩

/-- Thread 0 is cancelled while it awaits the condition, and its cleanup handler waits
    for the mutex, which thread 1 has locked. -/
theorem cnWaiters_exact_cleaning : ∃ s : CondRun (Fin 2) (Fin 1) (Fin 1), machine.Reach Kept s ∧
    s.pc 0 = .cleaning 0 0 ∧ (s.sync.cond 0).cnWaiters = (s.waiters 0).ncard := by
  have h₀ := Machine.Reach.init (M := machine) (P := Kept)
    (start_init (τ := Fin 2) (κ := Fin 1) ⟨fun _ : Fin 1 => none, fun _ => none⟩)
  obtain ⟨s, hs, hpc⟩ := h₀.play
    (l := [.lock 0 (some 0), .await 0 (some 0) (some 0), .lock 1 (some 0), .cancel 0])
    (p := fun s => s.pc 0 = .cleaning 0 0) (by decide)
  exact ⟨s, hs, hpc, (cnWaiters_exact hs 0).2.1⟩

/-- Thread 0 is notified, waits for the mutex, which thread 1 has locked, and is
    cancelled there. -/
theorem cancel_keeps_counted : ∃ s : CondRun (Fin 2) (Fin 1) (Fin 1), machine.Reachable s ∧
    (∀ t, (s.pc t).inside 0 = false) ∧ (s.sync.cond 0).cnWaiters = 1 := by
  have h₀ := Machine.Reach.init (M := machine) (P := fun _ _ => True)
    (start_init (τ := Fin 2) (κ := Fin 1) ⟨fun _ : Fin 1 => none, fun _ => none⟩)
  exact h₀.play
    (l := [.lock 0 (some 0), .await 0 (some 0) (some 0), .lock 1 (some 0),
      .notify 1 (some 0) false, .manage fun _ => .clear, .woken 0, .cancel 0])
    (p := fun s => (∀ t, (s.pc t).inside 0 = false) ∧ (s.sync.cond 0).cnWaiters = 1) (by decide)

end CondRun

end Pth
