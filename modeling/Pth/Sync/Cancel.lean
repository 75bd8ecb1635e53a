-- SUMMARY: What asynchronous cancellation does to the mutexes of the cancelled thread and of its canceller.
import Pth.Sched.Invariant
import Pth.Sync.Cond
import Pth.Sync.ReleaseAll

/-!
# Cancelling a thread asynchronously

`pth_cancel` runs the cleanup handlers of the cancelled thread and its
`pth_mutex_releaseall` itself, so `pth_current` is the canceller in both. A handler of
`pth_cond_await` may have to wait for its mutex inside `pth_cancel`, which is cut
there. -/

namespace Pth

/-- An entry of the `cleanups` of a thread: the handler that `pth_cond_await` pushes, or
    one of the application, which leaves Pth alone. -/
inductive Cleanup (μ κ : Type*) where
  | cond (m : μ) (c : κ)
  | user
  deriving DecidableEq, Repr

/-- The scheduler with the mutexes, the condition variables and the cleanup handlers of
    each thread. -/
structure Process (τ μ κ : Type*) where
  sched : Sched τ
  sync : SyncState τ μ κ
  cleanups : τ → List (Cleanup μ κ)

/-- How `pth_cancel` gets on: it returns, or the handler of the condition variable `c`
    waits for the mutex `m`. -/
inductive CancelOut (μ κ : Type*) where
  | returned (r : Ret)
  | waiting (m : μ) (c : κ)
  deriving DecidableEq, Repr

/-- The end of `pth_cancel`: kick the thread out or move it to the dead queue. -/
def Sched.reap {τ : Type*} [DecidableEq τ] (s : Sched τ) (t : τ) : Option (Ret × Sched τ) :=
  if (s.tcb t).joinable then
    ((s.modify t fun tcb => { tcb with joinArg := canceled, state := .dead }).insert
      .DQ prioStd t).map fun s' => (.ok, s')
  else some (.ok, s.tcbFree t)

variable {τ μ κ : Type*} [DecidableEq τ] [DecidableEq μ] [DecidableEq κ]

namespace Process

/-- `pth_cleanup_popall` of the thread `t` by `current`, up to its end or to the handler
    that has to wait. -/
def cleanupPopall (current t : τ) :
    List (Cleanup μ κ) → Process τ μ κ → Option (Option (μ × κ) × Process τ μ κ)
  | [], s => some (none, s)
  | x :: l, s =>
    let s₁ := { s with cleanups := Function.update s.cleanups t l }
    match x with
    | .user => cleanupPopall current t l s₁
    | .cond m c =>
      (s₁.sync.condCleanupHandler current m c).bind fun (o, sync) =>
        match o with
        | .returned _ => cleanupPopall current t l { s₁ with sync := sync }
        | _ => some (some (m, c), { s₁ with sync := sync })

/-- The rest of `pth_thread_cleanup` and of `pth_cancel` once the handlers have come as
    far as `r`. -/
def finishCancel (current t : τ) (r : Option (μ × κ) × Process τ μ κ) :
    Option (CancelOut μ κ × Process τ μ κ) :=
  match r with
  | (some (m, c), s) => some (.waiting m c, s)
  | (none, s) =>
    (s.sync.mem.releaseall current t).bind fun mem =>
      (s.sched.reap t).map fun (r, sched) =>
        (.returned r, { s with sched := sched, sync := { s.sync with mem := mem } })

/-- `pth_cancel` up to its return or its first wait. -/
def cancel (s : Process τ μ κ) (thread : Option τ) : Option (CancelOut μ κ × Process τ μ κ) :=
  match thread with
  | none => some (.returned (.error .EINVAL), s)
  | some t =>
    if some t = s.sched.pthCurrent then some (.returned (.error .EINVAL), s)
    else if (s.sched.tcb t).state = .dead then some (.returned (.error .EPERM), s)
    else
      let s₁ := { s with sched := s.sched.modify t fun tcb => { tcb with cancelreq := true } }
      if cancelEnable (s.sched.tcb t).cancelstate &&
          cancelAsynchronous (s.sched.tcb t).cancelstate then
        match placeOf (s.sched.tcb t).state with
        | none => some (.returned (.error .ESRCH), s₁)
        | some q =>
          (s₁.sched.queues.contains q t).bind fun b =>
            if b then
              (s₁.sched.delete q t).bind fun sched =>
                s.sched.pthCurrent.bind fun current =>
                  (cleanupPopall current t (s.cleanups t) { s₁ with sched := sched }).bind
                    (finishCancel current t)
            else some (.returned (.error .ESRCH), s₁)
      else some (.returned .ok, s₁)

/-- The rest of `pth_cancel` after the handler of `c` has waited for the mutex `m`. -/
def cancelWoken (s : Process τ μ κ) (current t : τ) (m : μ) (c : κ) :
    Option (CancelOut μ κ × Process τ μ κ) :=
  (s.sync.reacquireWoken current c m).bind fun (o, sync) =>
    match o with
    | .returned _ =>
      (cleanupPopall current t (s.cleanups t) { s with sync := sync }).bind
        (finishCancel current t)
    | _ => some (.waiting m c, { s with sync := sync })

/-- What the other threads may do while the thread `current` waits inside its
    `pth_cancel` of `t`: the two threads do not run, so neither takes or gives up a
    mutex. -/
structure Spares (current t : τ) (s s' : Process τ μ κ) : Prop where
  wf : s'.sync.mem.WellFormed
  cleanups : s'.cleanups t = s.cleanups t
  mutex : ∀ u ∈ [current, t], ∀ m, (s.sync.mem.mutex m).mxOwner = some u ∨
    (s'.sync.mem.mutex m).mxOwner = some u → s'.sync.mem.mutex m = s.sync.mem.mutex m

/-- A `pth_cancel` of `t` that has come as far as the first component returns true, and
    leaves the second behind. -/
inductive Returns (current t : τ) :
    CancelOut μ κ × Process τ μ κ → Process τ μ κ → Prop
  | now (s : Process τ μ κ) : Returns current t (.returned .ok, s) s
  | later {m : μ} {c : κ} {s s₁ s' : Process τ μ κ} {o : CancelOut μ κ × Process τ μ κ} :
    Spares current t s s₁ → s₁.cancelWoken current t m c = some o → Returns current t o s' →
      Returns current t (.waiting m c, s) s'

/-- From `s` to `s'` the ownership of the mutexes has been kept straight: the cancelled
    thread `t` owns none, and its canceller has the ones it had, locked as often. -/
structure Straight (current t : τ) (s s' : Process τ μ κ) : Prop where
  dead : ∀ m, (s'.sync.mem.mutex m).mxOwner ≠ some t
  owner : ∀ m, (s'.sync.mem.mutex m).mxOwner = some current ↔
    (s.sync.mem.mutex m).mxOwner = some current
  count : ∀ m, (s.sync.mem.mutex m).mxOwner = some current →
    (s'.sync.mem.mutex m).mxCount = (s.sync.mem.mutex m).mxCount

/-! ## The scheduler -/

variable {s s' : Process τ μ κ} {current t : τ}

/-- The handlers do not touch the queues. -/
theorem cleanupPopall_sched {l : List (Cleanup μ κ)} {r : Option (μ × κ) × Process τ μ κ}
    (h : cleanupPopall current t l s = some r) : r.2.sched = s.sched := by
  induction l generalizing s with
  | nil =>
    cases h
    rfl
  | cons y l ih =>
    cases y with
    | user =>
      have hsched := ih h
      exact hsched
    | cond m c =>
      obtain ⟨⟨o, sync⟩, -, h⟩ := Option.bind_eq_some_iff.mp h
      cases o with
      | returned _ =>
        have hsched := ih h
        exact hsched
      | waitCond =>
        cases h
        rfl
      | waitMutex =>
        cases h
        rfl

omit [DecidableEq κ] in
theorem finishCancel_sched {p : Option (μ × κ) × Process τ μ κ} {r : Ret}
    (h : finishCancel current t p = some (.returned r, s')) :
    p.2.sched.reap t = some (r, s'.sched) := by
  obtain ⟨_ | ⟨m, c⟩, s⟩ := p
  · obtain ⟨mem, -, h⟩ := Option.bind_eq_some_iff.mp h
    obtain ⟨⟨r, sched⟩, hreap, h⟩ := Option.map_eq_some_iff.mp h
    cases h
    exact hreap
  · cases h

/-- A `pth_cancel` that does not wait does to the scheduler what it does without mutexes
    and handlers. -/
theorem cancel_sched {thread : Option τ} {r : Ret}
    (h : s.cancel thread = some (.returned r, s')) :
    s.sched.cancel thread = some (r, s'.sched) := by
  unfold cancel at h
  unfold Sched.cancel
  split at h
  · cases h
    rfl
  · next t =>
    simp only
    split at h
    · next hcur =>
      cases h
      rw [if_pos hcur]
    · next hcur =>
      rw [if_neg hcur]
      split at h
      · next hdead =>
        cases h
        rw [if_pos hdead]
      · next hdead =>
        rw [if_neg hdead]
        split at h
        · next hmode =>
          rw [if_pos hmode]
          cases hq : placeOf (s.sched.tcb t).state with
          | none =>
            simp only [hq] at h ⊢
            cases h
            rfl
          | some q =>
            simp only [hq] at h ⊢
            obtain ⟨b, hb, h⟩ := Option.bind_eq_some_iff.mp h
            simp only [hb, Option.bind_some]
            split at h
            · next htrue =>
              obtain ⟨sched, hdel, h⟩ := Option.bind_eq_some_iff.mp h
              obtain ⟨current, -, h⟩ := Option.bind_eq_some_iff.mp h
              obtain ⟨p, hp, h⟩ := Option.bind_eq_some_iff.mp h
              have hreap := finishCancel_sched h
              rw [cleanupPopall_sched hp] at hreap
              rw [if_pos htrue, hdel, Option.bind_some]
              exact hreap
            · next hfalse =>
              cases h
              rw [if_neg hfalse]
        · next hmode =>
          cases h
          rw [if_neg hmode]

/-! ## How often the canceller has locked a mutex -/

/-- How often a thread has locked a mutex. -/
def depth (s : Process τ μ κ) (t : τ) (m : μ) : ℤ :=
  if (s.sync.mem.mutex m).mxOwner = some t then (s.sync.mem.mutex m).mxCount else 0

/-- How often the handlers of a list take a mutex. -/
def handlers (m : μ) : List (Cleanup μ κ) → ℤ
  | [] => 0
  | .user :: l => handlers m l
  | .cond m' _ :: l => (if m' = m then 1 else 0) + handlers m l

/-- How often `pth_cancel` still takes a mutex. -/
def due (t : τ) (m : μ) : CancelOut μ κ × Process τ μ κ → ℤ
  | (.returned _, _) => 0
  | (.waiting m' c, s) => handlers m (.cond m' c :: s.cleanups t)

omit [DecidableEq τ] [DecidableEq κ] in
theorem handlers_nonneg (m : μ) (l : List (Cleanup μ κ)) : 0 ≤ handlers m l := by
  induction l with
  | nil => exact le_rfl
  | cons x l ih =>
    cases x with
    | user => exact ih
    | cond m' c =>
      rw [handlers]
      split <;> omega

omit [DecidableEq τ] [DecidableEq κ] in
/-- A handler of `pth_cond_await` takes its mutex. -/
theorem handlers_pos {m : μ} {c : κ} {l : List (Cleanup μ κ)} (h : .cond m c ∈ l) :
    0 < handlers m l := by
  induction l with
  | nil => simp at h
  | cons x l ih =>
    rcases List.mem_cons.mp h with rfl | h
    · have := handlers_nonneg m l
      simp only [handlers, if_true]
      omega
    · have := ih h
      cases x with
      | user => exact this
      | cond m' c' =>
        rw [handlers]
        split <;> omega

omit [DecidableEq μ] [DecidableEq κ] in
theorem Straight.depth (h : Straight current t s s') (m : μ) :
    s'.depth current m = s.depth current m := by
  unfold Process.depth
  split
  · next hown =>
    have hs := (h.owner m).mp hown
    rw [if_pos hs, h.count m hs]
  · next hown => rw [if_neg fun hs => hown ((h.owner m).mpr hs)]

omit [DecidableEq μ] [DecidableEq κ] in
theorem Spares.depth (h : Spares current t s s') (m : μ) :
    s'.depth current m = s.depth current m := by
  have hkeep := h.mutex current (by simp) m
  unfold Process.depth
  by_cases hs : (s.sync.mem.mutex m).mxOwner = some current
  · rw [hkeep (.inl hs)]
  · have hs' : (s'.sync.mem.mutex m).mxOwner ≠ some current := fun hs' =>
      hs (by rwa [← hkeep (.inr hs')])
    rw [if_neg hs, if_neg hs']

/-! ## The handlers -/

omit [DecidableEq κ] in
/-- Locking a mutex once more. -/
theorem depth_taken {m : μ} (hwf : s.sync.mem.WellFormed)
    (h : s.sync.mem.Taken s'.sync.mem current m) (x : μ) :
    s'.depth current x = s.depth current x + if m = x then 1 else 0 := by
  obtain ⟨held, hinv⟩ := hwf
  unfold depth
  rw [h.mutex]
  by_cases hx : m = x
  · subst hx
    rcases h.owner with hnone | hown
    · simp [hnone, (hinv.ok m).count_zero hnone]
    · simp [hown]
  · simp [Ne.symm hx, hx]

/-- A `pth_cancel` on its way: the mutexes are well formed, and the canceller will have
    locked each of them `n` times once the handlers that are left have run. -/
structure Tally (current t : τ) (n : μ → ℤ) (r : CancelOut μ κ × Process τ μ κ) : Prop where
  wf : r.2.sync.mem.WellFormed
  depth : ∀ x, r.2.depth current x + due t x r = n x

/-- The handlers of a list take their mutexes, until one has to wait. -/
theorem cleanupPopall_ensures (current t : τ) (l : List (Cleanup μ κ))
    (hwf : s.sync.mem.WellFormed) :
    (cleanupPopall current t l s).Ensures fun r =>
      r.2.sync.mem.WellFormed ∧ ∀ x, r.2.depth current x + (match r.1 with
        | none => 0
        | some (m, c) => handlers x (.cond m c :: r.2.cleanups t)) =
        s.depth current x + handlers x l := by
  induction l generalizing s with
  | nil => exact ⟨_, rfl, hwf, fun x => rfl⟩
  | cons y l ih =>
    cases y with
    | user => exact ih (s := { s with cleanups := Function.update s.cleanups t l }) hwf
    | cond m c =>
      apply (SyncState.condCleanupHandler_reacquired hwf current m c).bind
      rintro ⟨o, sync⟩ (⟨rfl, htaken, -⟩ | ⟨rfl, rfl, -⟩)
      · let s₁ : Process τ μ κ :=
          { s with sync := sync, cleanups := Function.update s.cleanups t l }
        apply (ih (s := s₁) htaken.wf).mono
        rintro r ⟨hr, hdepth⟩
        refine ⟨hr, fun x => ?_⟩
        rw [hdepth, depth_taken hwf htaken, handlers, add_assoc]
      · refine ⟨_, rfl, hwf, fun x => ?_⟩
        simp only [Function.update_self]
        rfl

omit [DecidableEq κ] in
theorem finishCancel_tally {n : μ → ℤ} {r : Option (μ × κ) × Process τ μ κ}
    {o : CancelOut μ κ × Process τ μ κ} (hne : current ≠ t) (hwf : r.2.sync.mem.WellFormed)
    (hn : ∀ x, r.2.depth current x + (match r.1 with
        | none => 0
        | some (m, c) => handlers x (.cond m c :: r.2.cleanups t)) = n x)
    (h : finishCancel current t r = some o) : Tally current t n o := by
  obtain ⟨_ | ⟨m, c⟩, s⟩ := r
  · simp only [finishCancel, hwf.releaseall_other hne, Option.bind_some,
      Option.map_eq_some_iff] at h
    obtain ⟨⟨r, sched⟩, -, rfl⟩ := h
    exact ⟨hwf, hn⟩
  · cases h
    exact ⟨hwf, hn⟩

omit [DecidableEq κ] in
/-- Once the handlers are through, `pth_cancel` does not fault. -/
theorem finishCancel_some {r : Option (μ × κ) × Process τ μ κ} {sched : Sched τ}
    (hne : current ≠ t) (hwf : r.2.sync.mem.WellFormed)
    (hreap : r.2.sched.reap t = some (.ok, sched)) : ∃ o, finishCancel current t r = some o := by
  obtain ⟨_ | ⟨m, c⟩, s⟩ := r
  · exact ⟨_, by simp [finishCancel, hwf.releaseall_other hne, hreap]; rfl⟩
  · exact ⟨_, rfl⟩

theorem cancelWoken_tally {m : μ} {c : κ} {o : CancelOut μ κ × Process τ μ κ}
    (hne : current ≠ t) (hwf : s.sync.mem.WellFormed)
    (h : s.cancelWoken current t m c = some o) :
    Tally current t (fun x => s.depth current x + handlers x (.cond m c :: s.cleanups t)) o := by
  obtain ⟨⟨r, sync⟩, hsync, hr⟩ := SyncState.reacquireWoken_reacquired hwf current m c
  simp only [cancelWoken, hsync, Option.bind_some] at h
  rcases hr with ⟨rfl, htaken, -⟩ | ⟨rfl, rfl, -⟩
  · let s₁ : Process τ μ κ := { s with sync := sync }
    obtain ⟨p, hp, hpwf, hdepth⟩ := cleanupPopall_ensures (s := s₁) current t (s.cleanups t)
      htaken.wf
    rw [hp] at h
    refine finishCancel_tally hne hpwf (fun x => ?_) h
    rw [hdepth, depth_taken hwf htaken, handlers, add_assoc]
  · cases h
    exact ⟨hwf, fun x => rfl⟩

/-- However long it waits, `pth_cancel` leaves the canceller with the mutexes that all
    the handlers have taken. -/
theorem Returns.depth {n : μ → ℤ} {o : CancelOut μ κ × Process τ μ κ} (hne : current ≠ t)
    (ho : Tally current t n o) (h : Returns current t o s') (x : μ) :
    s'.depth current x = n x := by
  induction h with
  | now s => simpa [due] using ho.depth x
  | later hspare hwoken _ ih =>
    apply ih
    obtain ⟨hwf, htally⟩ := cancelWoken_tally hne hspare.wf hwoken
    refine ⟨hwf, fun y => ?_⟩
    rw [htally, hspare.depth, hspare.cleanups]
    exact ho.depth y

/-- Handlers of the application leave the mutexes alone. -/
theorem cleanupPopall_user {l : List (Cleanup μ κ)} (current t : τ)
    (hl : ∀ m c, .cond m c ∉ l) :
    ∃ f, cleanupPopall current t l s = some (none, { s with cleanups := f }) := by
  induction l generalizing s with
  | nil => exact ⟨_, rfl⟩
  | cons y l ih =>
    cases y with
    | user =>
      exact ih (s := { s with cleanups := Function.update s.cleanups t l }) fun m c hmem =>
        hl m c (List.mem_cons_of_mem _ hmem)
    | cond m c => exact absurd List.mem_cons_self (hl m c)

/-! ## Cancelling -/

variable {a : QId → List (τ × ℤ)} {q : QId}

/-- `pth_cancel` of a thread in its queue comes to the cleanup handlers, and once they are
    through it puts the thread away. -/
theorem cancel_reaches (h : s.sched.Consistent a {current})
    (hcur : s.sched.pthCurrent = some current) (hq : placeOf (s.sched.tcb t).state = some q)
    (ht : t ∈ s.sched.queues.threads q)
    (hmode : (cancelEnable (s.sched.tcb t).cancelstate &&
      cancelAsynchronous (s.sched.tcb t).cancelstate) = true) :
    current ≠ t ∧ ∃ sched sched', sched.reap t = some (.ok, sched') ∧ s.cancel (some t) =
      (cleanupPopall current t (s.cleanups t) { s with sched := sched }).bind
        (finishCancel current t) := by
  rw [h.repr.threads] at ht
  have hne : current ≠ t := fun hne => h.away ht hne.symm
  have h₁ : (s.sched.modify t fun tcb => { tcb with cancelreq := true }).Consistent a {current} :=
    h.modify (.inr (.inr ⟨rfl, fun _ => rfl⟩))
  obtain ⟨⟨r, sched'⟩, hkill, -⟩ := h₁.kill ht
  obtain ⟨sched, hdel, hreap⟩ := Option.bind_eq_some_iff.mp hkill
  have hok : r = .ok := by
    split at hreap
    · obtain ⟨_, -, hr⟩ := Option.map_eq_some_iff.mp hreap
      exact (Prod.mk.inj hr).1.symm
    · exact (Prod.mk.inj (Option.some.inj hreap)).1.symm
  subst hok
  refine ⟨hne, sched, sched', hreap, ?_⟩
  have hdead : (s.sched.tcb t).state ≠ .dead := fun hdead => by simp [hdead, placeOf] at hq
  simp [cancel, hcur, hne.symm, hdead, hmode, hq, h.repr.contains, ht, hdel]

/-- Without handlers of `pth_cond_await`, cancelling changes no mutex. -/
theorem cancel_user (h : s.sched.Consistent a {current}) (hwf : s.sync.mem.WellFormed)
    (hcur : s.sched.pthCurrent = some current) (hq : placeOf (s.sched.tcb t).state = some q)
    (ht : t ∈ s.sched.queues.threads q)
    (hmode : (cancelEnable (s.sched.tcb t).cancelstate &&
      cancelAsynchronous (s.sched.tcb t).cancelstate) = true)
    (hl : ∀ m c, .cond m c ∉ s.cleanups t) :
    ∃ s', s.cancel (some t) = some (.returned .ok, s') ∧ s'.sync.mem = s.sync.mem := by
  obtain ⟨hne, sched, sched', hreap, hcancel⟩ := cancel_reaches h hcur hq ht hmode
  obtain ⟨f, hpop⟩ := cleanupPopall_user (s := { s with sched := sched }) current t hl
  refine ⟨{ s with sched := sched', cleanups := f }, ?_, rfl⟩
  rw [hcancel, hpop, Option.bind_some]
  simp [finishCancel, hwf.releaseall_other hne, hreap]

/-- Cancelling a thread asynchronously keeps the ownership of the mutexes straight exactly
    if the thread owns no mutex and is not inside the wait of `pth_cond_await`. -/
theorem cancel_straight_iff (h : s.sched.Consistent a {current}) (hwf : s.sync.mem.WellFormed)
    (hcur : s.sched.pthCurrent = some current) (hq : placeOf (s.sched.tcb t).state = some q)
    (ht : t ∈ s.sched.queues.threads q)
    (hmode : (cancelEnable (s.sched.tcb t).cancelstate &&
      cancelAsynchronous (s.sched.tcb t).cancelstate) = true) :
    ∃ o, s.cancel (some t) = some o ∧
      (((∃ s', Returns current t o s') ∧
          ∀ s', Returns current t o s' → Straight current t s s') ↔
        (∀ m, (s.sync.mem.mutex m).mxOwner ≠ some t) ∧ ∀ m c, .cond m c ∉ s.cleanups t) := by
  obtain ⟨hne, sched, sched', hreap, hcancel⟩ := cancel_reaches h hcur hq ht hmode
  obtain ⟨p, hp, hpwf, hdepth⟩ :=
    cleanupPopall_ensures (s := { s with sched := sched }) current t (s.cleanups t) hwf
  obtain ⟨o, ho⟩ := finishCancel_some hne hpwf (by rw [cleanupPopall_sched hp]; exact hreap)
  rw [hp, Option.bind_some, ho] at hcancel
  have htally : Tally current t (fun x => s.depth current x + handlers x (s.cleanups t)) o :=
    finishCancel_tally hne hpwf hdepth ho
  refine ⟨o, hcancel, ?_⟩
  constructor
  · rintro ⟨⟨s', hret⟩, hall⟩
    -- the canceller keeps every mutex that a handler takes
    have hl : ∀ m c, .cond m c ∉ s.cleanups t := by
      intro m c hmem
      have hpos := handlers_pos hmem
      have hdep := hret.depth hne htally m
      rw [(hall s' hret).depth] at hdep
      simp only [left_eq_add] at hdep
      exact absurd hdep hpos.ne'
    obtain ⟨s₁, hcancel₁, hmem⟩ := cancel_user h hwf hcur hq ht hmode hl
    obtain rfl : o = (.returned .ok, s₁) := Option.some.inj (hcancel.symm.trans hcancel₁)
    exact ⟨fun m => hmem ▸ (hall s₁ (.now s₁)).dead m, hl⟩
  · rintro ⟨hown, hl⟩
    obtain ⟨s₁, hcancel₁, hmem⟩ := cancel_user h hwf hcur hq ht hmode hl
    obtain rfl : o = (.returned .ok, s₁) := Option.some.inj (hcancel.symm.trans hcancel₁)
    refine ⟨⟨s₁, .now s₁⟩, fun s' hret => ?_⟩
    cases hret
    exact ⟨hmem ▸ hown, fun m => by rw [hmem], fun m _ => by rw [hmem]⟩

/-- The main thread runs again after a thread that can be cancelled asynchronously. -/
private theorem exists_ready : ∃ (r : Run (Fin 3)) (a : QId → List (Fin 3 × ℤ)),
    r.lib.Consistent a {0} ∧ r.lib.pthCurrent = some 0 ∧ (r.lib.tcb 2).state = .ready ∧
    2 ∈ r.lib.queues.threads .RQ ∧ (cancelEnable (r.lib.tcb 2).cancelstate &&
      cancelAsynchronous (r.lib.tcb 2).cancelstate) = true := by
  have hboot : Run.machine.Reach (fun _ _ => True)
      (Run.boot (Sched.blank (0 : Fin 3)) 0 1 .zero) := Run.boot_reach _ _ _ _ (by decide)
  obtain ⟨r, hr, hrun, hcur, hst, ht, hmode⟩ := hboot.play
    (l := [.spawn (some ⟨0, true, 5, 65536⟩) .user (some 2), .yield none,
      .comeback .zero .intact fun _ => false, .manage Sched.quiet, .dispatch, .yield none,
      .comeback .zero .intact fun _ => false, .manage Sched.quiet, .dispatch])
    (p := fun r => r.phase = .running ∧ r.lib.pthCurrent = some 0 ∧
      (r.lib.tcb 2).state = .ready ∧ 2 ∈ r.lib.queues.threads .RQ ∧
      (cancelEnable (r.lib.tcb 2).cancelstate &&
        cancelAsynchronous (r.lib.tcb 2).cancelstate) = true) (by decide)
  obtain ⟨-, a, ha⟩ := (Run.Inv.reach hr).current hrun hcur
  exact ⟨r, a, ha, hcur, hst, ht, hmode⟩

/-- A ready thread without mutexes is cancelled while its canceller holds a mutex. -/
theorem cancel_straight_iff_ready : ∃ (s : Process (Fin 3) (Fin 1) (Fin 1))
    (o : CancelOut (Fin 1) (Fin 1) × Process (Fin 3) (Fin 1) (Fin 1)),
    (s.sync.mem.mutex 0).mxOwner = some 0 ∧ s.cancel (some 2) = some o ∧
    (∃ s', Returns 0 2 o s') ∧ ∀ s', Returns 0 2 o s' → Straight 0 2 s s' := by
  obtain ⟨r, a, ha, hcur, hst, ht, hmode⟩ := exists_ready
  have h₀ := Machine.Reach.init (M := MutexRun.machine) (P := fun _ _ => True)
    (MutexRun.start_init (τ := Fin 3) ⟨fun _ : Fin 1 => none, fun _ => none⟩)
  obtain ⟨m, hm, hown, hfree⟩ := h₀.play (l := [.acquire 0 (some 0) false false])
    (p := fun s => (s.mem.mutex 0).mxOwner = some 0 ∧
      ∀ m, (s.mem.mutex m).mxOwner ≠ some 2) (by decide)
  let s : Process (Fin 3) (Fin 1) (Fin 1) := ⟨r.lib, ⟨m.mem, fun _ => .init⟩, fun _ => []⟩
  obtain ⟨o, hcancel, hiff⟩ := cancel_straight_iff (s := s) ha (MutexRun.Inv.reachable hm).wf hcur
    (by simp [s, hst, placeOf]) ht hmode
  obtain ⟨hret, hall⟩ := hiff.mpr ⟨hfree, by simp [s]⟩
  exact ⟨s, o, hown, hcancel, hret, hall⟩

/-- A thread that is cancelled while it holds a mutex stays its owner. -/
theorem cancel_keeps_owner : ∃ (s s' : Process (Fin 3) (Fin 1) (Fin 1))
    (a : QId → List (Fin 3 × ℤ)), s.sched.Consistent a {0} ∧ s.sync.mem.WellFormed ∧
    s.sched.pthCurrent = some 0 ∧ 2 ∈ s.sched.queues.threads .RQ ∧
    (s.sync.mem.mutex 0).mxOwner = some 2 ∧ s.cancel (some 2) = some (.returned .ok, s') ∧
    (s'.sync.mem.mutex 0).mxOwner = some 2 ∧ ¬ Straight 0 2 s s' := by
  obtain ⟨r, a, ha, hcur, hst, ht, hmode⟩ := exists_ready
  have h₀ := Machine.Reach.init (M := MutexRun.machine) (P := fun _ _ => True)
    (MutexRun.start_init (τ := Fin 3) ⟨fun _ : Fin 1 => none, fun _ => none⟩)
  obtain ⟨m, hm, hown⟩ := h₀.play (l := [.acquire 2 (some 0) false false])
    (p := fun s => (s.mem.mutex 0).mxOwner = some 2) (by decide)
  have hwf := (MutexRun.Inv.reachable hm).wf
  let s : Process (Fin 3) (Fin 1) (Fin 1) := ⟨r.lib, ⟨m.mem, fun _ => .init⟩, fun _ => []⟩
  obtain ⟨s', hcancel, hmem⟩ := cancel_user (s := s) ha hwf hcur
    (by simp [s, hst, placeOf]) ht hmode (by simp [s])
  have hown' : (s'.sync.mem.mutex 0).mxOwner = some 2 := by rw [hmem]; exact hown
  exact ⟨s, s', a, ha, hwf, hcur, ht, hown, hcancel, hown', fun h => h.dead 0 hown'⟩


end Process

end Pth
