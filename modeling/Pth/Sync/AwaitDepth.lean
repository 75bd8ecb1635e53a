-- SUMMARY: Whether `pth_cond_await` gives the mutex up while it waits, and how often the mutex is locked when it returns.
import Pth.Sync.CondRuns

/-!
# The mutex of a waiting thread

`pth_cond_await` releases its mutex once and locks it once again. In between other threads make
any calls. What they cannot do is to take a mutex from its owner, or to make the waiting thread
the owner of one. -/

namespace Pth

variable {τ μ κ : Type*} [DecidableEq τ] [DecidableEq μ] [DecidableEq κ]

/-! ## Calls of other threads -/

namespace MutexState

/-- Mutexes that the thread `t` has locked stay as they are, and it does not become the owner of
    others. -/
structure Foreign (s s' : MutexState τ μ) (t : τ) : Prop where
  kept : ∀ m, (s.mutex m).mxLocked = true → (s.mutex m).mxOwner = some t → s'.mutex m = s.mutex m
  owner : ∀ m, (s.mutex m).mxOwner ≠ some t → (s'.mutex m).mxOwner ≠ some t
  initialized : ∀ m, (s'.mutex m).mxInitialized = (s.mutex m).mxInitialized

variable {s s' s₁ : MutexState τ μ} {t u : τ} {m : μ}

omit [DecidableEq τ] [DecidableEq μ] in
theorem Foreign.refl (s : MutexState τ μ) (t : τ) : s.Foreign s t :=
  ⟨fun _ _ _ => rfl, fun _ h => h, fun _ => rfl⟩

omit [DecidableEq τ] [DecidableEq μ] in
theorem Foreign.trans (h : s.Foreign s₁ t) (h' : s₁.Foreign s' t) : s.Foreign s' t where
  kept m hl ho := by
    have heq := h.kept m hl ho
    rw [h'.kept m (by rw [heq]; exact hl) (by rw [heq]; exact ho), heq]
  owner m ho := h'.owner m (h.owner m ho)
  initialized m := (h'.initialized m).trans (h.initialized m)

omit [DecidableEq τ] in
/-- One mutex changes that `t` has not locked, and `t` is not its new owner. -/
theorem Foreign.update {x : Mutex τ} (hmutex : s'.mutex = Function.update s.mutex m x)
    (hm : (s.mutex m).mxLocked = true → (s.mutex m).mxOwner ≠ some t)
    (hx : x.mxOwner ≠ some t) (hi : x.mxInitialized = (s.mutex m).mxInitialized) :
    s.Foreign s' t where
  kept y hl ho := by
    have hy : y ≠ m := by
      rintro rfl
      exact hm hl ho
    simp [hmutex, hy]
  owner y ho := by
    by_cases hy : y = m
    · subst hy
      simpa [hmutex] using hx
    · simpa [hmutex, hy] using ho
  initialized y := by
    by_cases hy : y = m
    · subst hy
      simpa [hmutex] using hi
    · simp [hmutex, hy]

theorem Foreign.lock (hu : u ≠ t) (hm : (s.mutex m).mxLocked = false)
    (h : s.lock u m = some s') : s.Foreign s' t := by
  obtain ⟨⟨r, L⟩, -, rfl⟩ := Option.map_eq_some_iff.mp h
  exact .update rfl (by simp [hm]) (by simpa using hu) rfl

theorem Foreign.acquired {fails : Prop} {o : Acquire μ} (hu : u ≠ t)
    (h : s.AcquireCase u m fails o s') : s.Foreign s' t := by
  cases h with
  | error | waiting => exact .refl s t
  | locked hfree hlock => exact .lock hu hfree hlock
  | again hown =>
    have hne : (s.mutex m).mxOwner ≠ some t := by
      rw [hown]
      simpa using hu
    exact .update rfl (fun _ => hne) hne rfl

theorem Foreign.acquire {mutex : Option μ} {tryonly : Bool} {o : Acquire μ} (hu : u ≠ t)
    (h : s.acquire u mutex tryonly = some (o, s')) : s.Foreign s' t := by
  cases mutex with
  | none =>
    cases h
    exact .refl s t
  | some m => exact .acquired hu (acquire_cases h)

theorem Foreign.acquireWoken {extra pending : Bool} {o : Acquire μ} (hu : u ≠ t)
    (h : s.acquireWoken u m extra pending = some (o, s')) : s.Foreign s' t :=
  .acquired hu (acquireWoken_cases h)

theorem Foreign.release {mutex : Option μ} {r : Ret} (hu : u ≠ t)
    (h : s.release u mutex = some (r, s')) : s.Foreign s' t := by
  cases mutex with
  | none =>
    cases h
    exact .refl s t
  | some m =>
    have hne (hown : (s.mutex m).mxOwner = some u) : (s.mutex m).mxOwner ≠ some t := by
      rw [hown]
      simpa using hu
    cases release_cases h with
    | error => exact .refl s t
    | freed hown hmutex => exact .update hmutex (fun _ => hne hown) (by simp) rfl
    | lowered hown => exact .update rfl (fun _ => hne hown) (hne hown) rfl

theorem Foreign.releaseallLoop {v : τ} {n : ℕ} {rnf rn : Option μ} (hu : u ≠ t)
    (h : releaseallLoop u v rnf n s rn = some s') : s.Foreign s' t := by
  induction n generalizing s rn with
  | zero =>
    cases rn with
    | none =>
      cases h
      exact .refl _ t
    | some rn => cases h
  | succ n ih =>
    cases rn with
    | none =>
      cases h
      exact .refl _ t
    | some rn =>
      obtain ⟨⟨r, s₁⟩, hrel, h⟩ := Option.bind_eq_some_iff.mp h
      have h₁ := Foreign.release hu hrel
      dsimp only at h
      split_ifs at h
      · cases h
        exact h₁
      · exact h₁.trans (ih h)

/-- A thread that has to wait has changed nothing. -/
theorem AcquireCase.of_waiting {fails : Prop} {y : μ} (h : s.AcquireCase u m fails (.waiting y) s') :
    s' = s := by
  cases h
  rfl

end MutexState

/-! ## During a call -/

namespace CondRun

open MutexState

variable {s s' : CondRun τ μ κ} {t u : τ} {c : κ} {m : μ} {op : CondOp τ μ κ} {o : Option Ret}

/-- The thread `t` waits in `pth_cond_await` for the condition `c` or for the mutex `m`. -/
def InCall (s : CondRun τ μ κ) (t : τ) (c : κ) (m : μ) : Prop :=
  s.pc t = .awaiting c m ∨ s.pc t = .relocking c m

/-- Steps of all threads, and wake-ups of `t`, that leave `t` in its call. -/
inductive During (t : τ) (c : κ) (m : μ) : CondRun τ μ κ → CondRun τ μ κ → Prop
  | refl (s : CondRun τ μ κ) : During t c m s s
  | step {s s₁ s' : CondRun τ μ κ} {op : CondOp τ μ κ} {o : Option Ret} (h : During t c m s s₁)
    (hs : machine.Step s₁ op o s') (hin : s'.InCall t c m) : During t c m s s'

omit [DecidableEq κ] in
theorem die_foreign (hu : u ≠ t) (h : s.die u = some (o, s')) :
    s.sync.mem.Foreign s'.sync.mem t := by
  obtain ⟨mem, hrel, heq⟩ := Option.map_eq_some_iff.mp h
  cases heq
  exact .releaseallLoop hu hrel

omit [DecidableEq μ] [DecidableEq κ] in
theorem lockStep_mem (r : Acquire μ × MutexState τ μ) :
    (s.lockStep u r).2.sync.mem = r.2 := by
  unfold lockStep
  dsimp only
  split <;> rfl

omit [DecidableEq μ] [DecidableEq κ] in
theorem awaitStep_mem (r : Await × SyncState τ μ κ) : (s.awaitStep u c m r).2.sync = r.2 := by
  unfold awaitStep
  dsimp only
  split <;> rfl

omit [DecidableEq τ] [DecidableEq μ] in
theorem afterReacquire_mem (sync : SyncState τ μ κ) (r : Acquire μ × MutexState τ μ) :
    (sync.afterReacquire c r).2.mem = r.2 := by
  unfold SyncState.afterReacquire
  split <;> rfl

theorem cleanStep_foreign {r : Acquire μ × MutexState τ μ} (hu : u ≠ t)
    (hr : s.sync.mem.Foreign r.2 t)
    (h : s.cleanStep u c m (s.sync.afterReacquire c r) = some (o, s')) :
    s.sync.mem.Foreign s'.sync.mem t := by
  unfold SyncState.afterReacquire at h
  split at h
  · exact hr.trans (die_foreign hu h)
  · cases h
    exact hr

omit [DecidableEq μ] in
/-- A wake-up that leaves `t` in its call does nothing to the mutexes. -/
theorem awaitStep_inCall {r : Acquire μ × MutexState τ μ}
    (hr : ∀ m', r.1 = .waiting m' → r.2 = s.sync.mem)
    (h : s.awaitStep t c m (s.sync.afterReacquire c r) = (o, s')) (hin : s'.InCall t c m) :
    s'.sync.mem = s.sync.mem := by
  obtain ⟨x, mem⟩ := r
  cases x with
  | returned x =>
    cases h
    simp [InCall, setPc] at hin
  | waiting m' =>
    cases h
    exact hr m' rfl

/-- A wake-up of `t` that leaves it in its call. -/
theorem woken_self (h : s.exec (.woken t) = some (o, s')) (hin : s.InCall t c m)
    (hin' : s'.InCall t c m) : s'.sync.mem = s.sync.mem := by
  simp only [exec] at h
  rcases hin with hpc | hpc
  · rw [hpc] at h
    obtain ⟨r, hr, heq⟩ := Option.map_eq_some_iff.mp h
    obtain ⟨x, hx, rfl⟩ := Option.map_eq_some_iff.mp hr
    exact awaitStep_inCall (fun y hy => (hy ▸ acquire_cases hx).of_waiting) heq hin'
  · rw [hpc] at h
    obtain ⟨r, hr, heq⟩ := Option.map_eq_some_iff.mp h
    obtain ⟨x, hx, rfl⟩ := Option.map_eq_some_iff.mp hr
    exact awaitStep_inCall (fun y hy => (hy ▸ acquireWoken_cases hx).of_waiting) heq hin'

/-- A wake-up of another thread. -/
theorem woken_foreign (hu : u ≠ t) (h : s.exec (.woken u) = some (o, s')) :
    s.sync.mem.Foreign s'.sync.mem t := by
  simp only [exec] at h
  cases hpc : s.pc u with
  | idle | dead =>
    rw [hpc] at h
    cases h
  | locking m' =>
    rw [hpc] at h
    obtain ⟨r, hr, heq⟩ := Option.map_eq_some_iff.mp h
    obtain rfl : (s.lockStep u r).2 = s' := by rw [heq]
    rw [lockStep_mem]
    exact .acquireWoken hu hr
  | awaiting c' m' =>
    rw [hpc] at h
    obtain ⟨r, hr, heq⟩ := Option.map_eq_some_iff.mp h
    obtain ⟨x, hx, rfl⟩ := Option.map_eq_some_iff.mp hr
    obtain rfl : (s.awaitStep u c' m' (s.sync.afterReacquire c' x)).2 = s' := by rw [heq]
    rw [awaitStep_mem, afterReacquire_mem]
    exact .acquire hu hx
  | relocking c' m' =>
    rw [hpc] at h
    obtain ⟨r, hr, heq⟩ := Option.map_eq_some_iff.mp h
    obtain ⟨x, hx, rfl⟩ := Option.map_eq_some_iff.mp hr
    obtain rfl : (s.awaitStep u c' m' (s.sync.afterReacquire c' x)).2 = s' := by rw [heq]
    rw [awaitStep_mem, afterReacquire_mem]
    exact .acquireWoken hu hx
  | cleaning c' m' =>
    rw [hpc] at h
    obtain ⟨r, hr, hclean⟩ := Option.bind_eq_some_iff.mp h
    obtain ⟨x, hx, rfl⟩ := Option.map_eq_some_iff.mp hr
    exact cleanStep_foreign hu (.acquireWoken hu hx) hclean

omit [DecidableEq κ] in
theorem die_not_inCall (h : s.die t = some (o, s')) : ¬ s'.InCall t c m := by
  obtain ⟨mem, -, heq⟩ := Option.map_eq_some_iff.mp h
  cases heq
  simp [InCall, setPc]

/-- A thread that is cancelled does not stay in its call. -/
theorem cancel_self (h : s.exec (.cancel t) = some (o, s')) (hin : s.InCall t c m) :
    ¬ s'.InCall t c m := by
  simp only [exec] at h
  rcases hin with hpc | hpc
  · rw [hpc] at h
    obtain ⟨⟨x, sync⟩, -, hclean⟩ := Option.bind_eq_some_iff.mp h
    cases x with
    | waitMutex =>
      cases hclean
      simp [InCall, setPc]
    | returned x => exact die_not_inCall hclean
    | waitCond => exact die_not_inCall hclean
  · rw [hpc] at h
    exact die_not_inCall h

theorem cancel_foreign (hu : u ≠ t) (h : s.exec (.cancel u) = some (o, s')) :
    s.sync.mem.Foreign s'.sync.mem t := by
  simp only [exec] at h
  cases hpc : s.pc u with
  | dead =>
    rw [hpc] at h
    cases h
  | idle | locking _ | relocking _ _ | cleaning _ _ =>
    rw [hpc] at h
    exact die_foreign hu h
  | awaiting c' m' =>
    rw [hpc] at h
    obtain ⟨r, hr, hclean⟩ := Option.bind_eq_some_iff.mp h
    obtain ⟨x, hx, rfl⟩ := Option.map_eq_some_iff.mp hr
    exact cleanStep_foreign hu (.acquire hu hx) hclean

omit [DecidableEq τ] [DecidableEq μ] in
theorem notify_mem (sync : SyncState τ μ κ) (cond : Option κ) (b : Bool) :
    (sync.notify cond b).2.2.mem = sync.mem := by
  unfold SyncState.notify
  split
  · rfl
  · dsimp only
    split_ifs <;> rfl

/-- Every step that leaves `t` in its call is one of other threads as far as the mutexes go. -/
theorem step_foreign (hs : machine.Step s op o s') (hin : s.InCall t c m)
    (hin' : s'.InCall t c m) : s.sync.mem.Foreign s'.sync.mem t := by
  obtain ⟨hen, hexec⟩ := hs
  have hne : ∀ u, s.pc u = .idle → u ≠ t := by
    rintro u hidle rfl
    rcases hin with hpc | hpc <;> rw [hidle] at hpc <;> cases hpc
  cases op with
  | lock u mutex =>
    obtain ⟨r, hr, heq⟩ := Option.map_eq_some_iff.mp hexec
    obtain rfl : (s.lockStep u r).2 = s' := by rw [heq]
    rw [lockStep_mem]
    exact .acquire (hne u hen) hr
  | unlock u mutex =>
    obtain ⟨r, hr, heq⟩ := Option.map_eq_some_iff.mp hexec
    cases heq
    exact .release (hne u hen) hr
  | await u cond mutex =>
    rcases cond with _ | c'
    · cases hexec
      exact .refl _ t
    rcases mutex with _ | m'
    · cases hexec
      exact .refl _ t
    obtain ⟨⟨x, sync⟩, hr, heq⟩ := Option.map_eq_some_iff.mp hexec
    obtain rfl : (s.awaitStep u c' m' (x, sync)).2 = s' := by rw [heq]
    rw [awaitStep_mem]
    rcases SyncState.await_eq_some hr with ⟨-, rfl⟩ | ⟨-, -, -, rfl⟩ | ⟨-, -, x, hrel⟩
    · exact .refl _ t
    · exact .refl _ t
    · exact .release (hne u hen) hrel
  | notify u cond b =>
    cases hexec
    rw [notify_mem]
    exact .refl _ t
  | woken u =>
    by_cases hu : u = t
    · subst hu
      rw [woken_self hexec hin hin']
      exact .refl _ u
    · exact woken_foreign hu hexec
  | cancel u =>
    by_cases hu : u = t
    · subst hu
      exact absurd hin' (cancel_self hexec hin)
    · exact cancel_foreign hu hexec
  | manage bits =>
    cases hexec
    exact .refl _ t

/-- Other threads leave the mutexes of `t` alone for as long as `t` is in its call. -/
theorem During.foreign {s₁ s₂ : CondRun τ μ κ} (h : During t c m s₁ s₂)
    (hin : s₁.InCall t c m) : s₁.sync.mem.Foreign s₂.sync.mem t ∧ s₂.InCall t c m := by
  induction h with
  | refl => exact ⟨.refl _ t, hin⟩
  | step _ hs hin' ih => exact ⟨ih.1.trans (step_foreign hs ih.2 hin'), hin'⟩

/-! ## The depth of the lock -/

/-- What the release in `pth_cond_await` leaves of a mutex that is locked `d` times. -/
structure Left (x : Mutex τ) (t : τ) (d : ℤ) : Prop where
  initialized : x.mxInitialized = true
  free : d = 1 → x.mxLocked = false ∧ x.mxOwner = none
  held : d ≠ 1 → x.mxLocked = true ∧ x.mxOwner = some t ∧ x.mxCount = d - 1 ∧ 1 ≤ x.mxCount

theorem await_left {s₀ s₁ : CondRun τ μ κ} (hwf : s₀.sync.mem.WellFormed)
    (hown : (s₀.sync.mem.mutex m).mxOwner = some t)
    (hs : machine.Step s₀ (.await t (some c) (some m)) o s₁) (hpc : s₁.pc t = .awaiting c m) :
    s₁.sync.mem.WellFormed ∧
      Left (s₁.sync.mem.mutex m) t (s₀.sync.mem.mutex m).mxCount := by
  obtain ⟨⟨x, sync⟩, hr, heq⟩ := Option.map_eq_some_iff.mp hs.2
  rcases SyncState.await_eq_some hr with ⟨rfl, rfl⟩ | ⟨-, -, rfl, rfl⟩ | ⟨rfl, -, x, hrel⟩
  · cases heq
    simp [setPc] at hpc
  · cases heq
    simp [setPc] at hpc
  · obtain rfl : (s₀.awaitStep t c m (.waitCond, sync)).2 = s₁ := by rw [heq]
    rw [awaitStep_mem]
    obtain ⟨mem, hrel', hgiven⟩ := hwf.release_owned hown
    obtain ⟨rfl, rfl⟩ : x = .ok ∧ sync.mem = mem := by simpa [hrel] using hrel'
    obtain ⟨held, hinv⟩ := hwf
    have hok := hinv.ok m
    refine ⟨hgiven.wf, ?_, fun hd => ?_, fun hd => ?_⟩
    · by_cases hd : (s₀.sync.mem.mutex m).mxCount = 1 <;>
        simp [hgiven.mutex, hd, hok.initialized]
    · simp [hgiven.mutex, hd]
    · have hpos := hok.count_pos (by simp [hown])
      have hlocked := hok.locked.mpr (by simp [hown])
      rw [hgiven.mutex, Function.update_self, if_neg hd]
      exact ⟨hlocked, hown, rfl, by dsimp only; omega⟩

omit [DecidableEq τ] [DecidableEq μ] in
/-- What other threads may make of it. -/
theorem Left.foreign {mem mem' : MutexState τ μ} {d : ℤ} (h : Left (mem.mutex m) t d)
    (hf : mem.Foreign mem' t) :
    (mem'.mutex m).mxInitialized = true ∧ (d = 1 → (mem'.mutex m).mxOwner ≠ some t) ∧
      (d ≠ 1 → Left (mem'.mutex m) t d) := by
  refine ⟨(hf.initialized m).trans h.initialized, fun hd => ?_, fun hd => ?_⟩
  · exact hf.owner m (by rw [(h.free hd).2]; simp)
  · obtain ⟨hlocked, hown, -⟩ := h.held hd
    rw [hf.kept m hlocked hown]
    exact h

/-- `pth_mutex_acquire` of `t` on what is left locks it `d` times. -/
theorem acquire_depth {mem mem' : MutexState τ μ} {d : ℤ} {r : Ret} {fails : Prop}
    (hfree : d = 1 → (mem.mutex m).mxOwner ≠ some t) (hheld : d ≠ 1 → Left (mem.mutex m) t d)
    (h : mem.AcquireCase t m fails (.returned r) mem') (hno : ¬ fails) :
    (mem'.mutex m).mxOwner = some t ∧ (mem'.mutex m).mxCount = d := by
  cases h with
  | error e hfails => exact absurd hfails hno
  | locked hunlocked hlock =>
    have hd : d = 1 := by
      by_contra hd
      simp [((hheld hd).held hd).1] at hunlocked
    obtain ⟨⟨ring, L⟩, -, rfl⟩ := Option.map_eq_some_iff.mp hlock
    simp [hd]
  | again hown =>
    have hd : d ≠ 1 := fun hd => hfree hd hown
    simp [setMutex, hown, ((hheld hd).held hd).2.2.1]

omit [DecidableEq μ] in
/-- The call returns when the inner `pth_mutex_acquire` does. -/
theorem awaitStep_returned {r : Acquire μ × MutexState τ μ}
    (h : s.awaitStep t c m (s.sync.afterReacquire c r) = (some .ok, s')) :
    ∃ x, r.1 = .returned x ∧ s'.sync.mem = r.2 := by
  obtain ⟨x, mem⟩ := r
  cases x with
  | returned x =>
    cases h
    exact ⟨x, rfl, rfl⟩
  | waiting y => cases h

/-- When `pth_cond_await` returns, the caller has the mutex as often as before, in whatever way
    the other threads have interleaved. -/
theorem await_returns_depth {s₁ s₂ s₃ : CondRun τ μ κ} {d : ℤ}
    (hleft : Left (s₁.sync.mem.mutex m) t d) (hin : s₁.InCall t c m)
    (hduring : During t c m s₁ s₂) (hs : machine.Step s₂ (.woken t) (some .ok) s₃) :
    (s₃.sync.mem.mutex m).mxOwner = some t ∧ (s₃.sync.mem.mutex m).mxCount = d := by
  obtain ⟨hforeign, hin₂⟩ := hduring.foreign hin
  obtain ⟨hi, hfree, hheld⟩ := hleft.foreign hforeign
  have hexec := hs.2
  simp only [machine, exec] at hexec
  rcases hin₂ with hpc | hpc
  · rw [hpc] at hexec
    obtain ⟨r, hr, heq⟩ := Option.map_eq_some_iff.mp hexec
    obtain ⟨x, hx, rfl⟩ := Option.map_eq_some_iff.mp hr
    obtain ⟨x', hret, hmem⟩ := awaitStep_returned heq
    exact acquire_depth hfree hheld (hmem ▸ hret ▸ acquire_cases hx) (by simp [hi])
  · rw [hpc] at hexec
    obtain ⟨r, hr, heq⟩ := Option.map_eq_some_iff.mp hexec
    obtain ⟨x, hx, rfl⟩ := Option.map_eq_some_iff.mp hr
    obtain ⟨x', hret, hmem⟩ := awaitStep_returned heq
    exact acquire_depth hfree hheld (hmem ▸ hret ▸ acquireWoken_cases hx) (by simp)

/-- A caller that has locked the mutex `d` times does not own it while `pth_cond_await` waits, so
    that others can lock it, and has locked it `d` times again when the call returns, if and only
    if `d` is one. -/
theorem await_gives_up_iff (s₀ s₁ : CondRun τ μ κ) (t : τ) (c : κ) (m : μ) (d : ℤ)
    (hwf : s₀.sync.mem.WellFormed) (hown : (s₀.sync.mem.mutex m).mxOwner = some t)
    (hd : (s₀.sync.mem.mutex m).mxCount = d)
    (hs : machine.Step s₀ (.await t (some c) (some m)) none s₁)
    (hpc : s₁.pc t = .awaiting c m) :
    ((∀ u, ∃ mem, s₁.sync.mem.acquire u (some m) true = some (.returned .ok, mem) ∧
        (mem.mutex m).mxOwner = some u) ∧
      ∀ s₂, During t c m s₁ s₂ → (s₂.sync.mem.mutex m).mxOwner ≠ some t ∧
        ∀ s₃, machine.Step s₂ (.woken t) (some .ok) s₃ →
          (s₃.sync.mem.mutex m).mxOwner = some t ∧ (s₃.sync.mem.mutex m).mxCount = d) ↔
      d = 1 := by
  obtain ⟨hwf₁, hleft⟩ := await_left hwf hown hs hpc
  rw [hd] at hleft
  constructor
  · rintro ⟨-, hnot⟩
    by_contra hne
    exact (hnot s₁ (.refl s₁)).1 (hleft.held hne).2.1
  · intro hone
    refine ⟨fun u => ?_, fun s₂ hduring => ⟨?_, fun s₃ hs₃ => ?_⟩⟩
    · obtain ⟨mem, hacq, htaken⟩ := hwf₁.acquire_free u true (hleft.free hone).2
      exact ⟨mem, hacq, by simp [htaken.mutex]⟩
    · exact (hleft.foreign (hduring.foreign (.inl hpc)).1).2.1 hone
    · exact await_returns_depth hleft (.inl hpc) hduring hs₃

/-- A thread locks a mutex once and waits. -/
theorem await_gives_up_once : ∃ s₀ s₁ : CondRun (Fin 2) (Fin 1) (Fin 1),
    (s₀.sync.mem.mutex 0).mxCount = 1 ∧ s₁.pc 0 = .awaiting 0 0 ∧
      machine.Step s₀ (.await 0 (some 0) (some 0)) none s₁ ∧
      ∀ s₂, During 0 0 0 s₁ s₂ → (s₂.sync.mem.mutex 0).mxOwner ≠ some 0 := by
  let s : CondRun (Fin 2) (Fin 1) (Fin 1) := start ⟨fun _ => none, fun _ => none⟩
  have hwf : s.sync.mem.WellFormed := ⟨_, Inv.init (fun _ => rfl) fun _ => rfl⟩
  obtain ⟨mem, -, htaken⟩ := hwf.acquire_free (m := 0) 0 true rfl
  let s₀ : CondRun (Fin 2) (Fin 1) (Fin 1) := { s with sync := { s.sync with mem := mem } }
  have hown : (s₀.sync.mem.mutex 0).mxOwner = some 0 := by simp [s₀, htaken.mutex]
  have hcount : (s₀.sync.mem.mutex 0).mxCount = 1 := by
    simp [s₀, s, htaken.mutex, start, Mutex.init]
  obtain ⟨mem₁, hrel, -⟩ := htaken.wf.release_owned hown
  have hawait : s₀.sync.await 0 (some 0) (some 0) =
      some (.waitCond, { s₀.sync.setCond 0 Cond.init.enter with mem := mem₁ }) := by
    have hrel' : s₀.sync.mem.release 0 (some 0) = some (.ok, mem₁) := hrel
    simp only [SyncState.await, hrel', Option.map_some]
    rfl
  obtain ⟨s₁, hs₁, hpc⟩ : ∃ s₁, machine.Step s₀ (.await 0 (some 0) (some 0)) none s₁ ∧
      s₁.pc 0 = .awaiting 0 0 :=
    ⟨_, ⟨rfl, congrArg (Option.map (s₀.awaitStep 0 0 0)) hawait⟩, rfl⟩
  exact ⟨s₀, s₁, hcount, hpc, hs₁, fun s₂ h₂ =>
    (((await_gives_up_iff s₀ s₁ 0 0 0 1 htaken.wf hown hcount hs₁ hpc).mpr rfl).2 s₂ h₂).1⟩

/-- A thread that has locked the mutex twice keeps it while it waits, and nobody else gets it. -/
theorem await_keeps_mutex : ∃ s₀ o s₁, machine.Reachable s₀ ∧
    machine.Step s₀ (.await 0 (some 0) (some 0)) o s₁ ∧
      (s₀.sync.mem.mutex 0).mxOwner = some 0 ∧ (s₀.sync.mem.mutex 0).mxCount = 2 ∧
      (s₁ : CondRun (Fin 2) (Fin 1) (Fin 1)).pc 0 = .awaiting 0 0 ∧
      (s₁.sync.mem.mutex 0).mxOwner = some 0 ∧
      (s₁.sync.mem.acquire 1 (some 0) true).any
        (fun r => r.1 = .returned (.error .EBUSY)) = true := by
  have h₀ := Machine.Reach.init (M := machine) (P := fun _ _ => True)
    (start_init (τ := Fin 2) (κ := Fin 1) ⟨fun _ : Fin 1 => none, fun _ => none⟩)
  exact h₀.play_step (l := [.lock 0 (some 0), .lock 0 (some 0)])
    (i := .await 0 (some 0) (some 0))
    (p := fun s₀ _ s₁ => (s₀.sync.mem.mutex 0).mxOwner = some 0 ∧
      (s₀.sync.mem.mutex 0).mxCount = 2 ∧ s₁.pc 0 = .awaiting 0 0 ∧
      (s₁.sync.mem.mutex 0).mxOwner = some 0 ∧
      (s₁.sync.mem.acquire 1 (some 0) true).any
        (fun r => r.1 = .returned (.error .EBUSY)) = true) (by decide)

end CondRun

end Pth
