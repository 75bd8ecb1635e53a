-- SUMMARY: One condition variable with one mutex under the scheduler, and which notification a waiter returns for.
import Pth.Sched.CondEvents
import Pth.Sync.CondRuns

/-!
# Notifications and the waits they end

Threads use one condition variable with one mutex: they await it with the mutex
locked, without extra events, and are not cancelled. One thread runs at a time. When
it waits or yields, a pass of the event manager follows before the next thread runs,
which tags waiters as `Sched.eventmanager_cond` says. The machine also counts the
calls of `pth_cond_notify`, and remembers for each thread how many there had been when
it called `pth_cond_await`. -/

namespace Pth

/-- The calls of the running thread, and its return from a wait. -/
inductive NotifyCall where
  | lock
  | unlock
  | await
  | notify (broadcast : Bool)
  | woken
  deriving DecidableEq, Repr

/-- The operations. A pass meets the pending waiters in the order `waiting`, `seen` is
    whether its second loop meets an event of the condition variable that has been
    tagged, and `next` is the thread that runs after it, if there is one. -/
inductive NotifyOp (τ : Type*) where
  | call (x : NotifyCall)
  | yield
  | pass (waiting : List τ) (seen : Bool) (next : Option τ)

/-- The event of a waiter is pending unless it is `tagged`. -/
structure NotifyRun (τ : Type*) where
  run : CondRun τ Unit Unit
  tagged : τ → Bool
  current : Option τ
  notified : ℕ
  began : τ → ℕ

variable {τ : Type*} [DecidableEq τ]

def NotifyCall.op (t : τ) : NotifyCall → CondOp τ Unit Unit
  | .lock => .lock t (some ())
  | .unlock => .unlock t (some ())
  | .await => .await t (some ()) (some ())
  | .notify broadcast => .notify t (some ()) broadcast
  | .woken => .woken t

namespace NotifyRun

/-- The bits of the condition variable. -/
def bits (s : NotifyRun τ) : CondState := (s.run.sync.cond ()).cnState

/-- The thread `t` is blocked until a notification tags its event. -/
def Pending (s : NotifyRun τ) (t : τ) : Prop := s.run.pc t = .awaiting () () ∧ s.tagged t = false

instance (s : NotifyRun τ) (t : τ) : Decidable (s.Pending t) := inferInstanceAs (Decidable (_ ∧ _))

/-- Whether the call `x` switches to the scheduler after it has come as far as `r`. -/
def switches (s : NotifyRun τ) (t : τ) (x : NotifyCall) (r : CondRun τ Unit Unit) : Bool :=
  match x with
  | .notify b => (s.run.sync.notify (some ()) b).2.1
  | .lock | .unlock | .await | .woken => r.pc t ≠ .idle

/-- The call `x` of the thread `t` has come as far as `r`. -/
def callStep (s : NotifyRun τ) (t : τ) (x : NotifyCall) (r : CondRun τ Unit Unit) :
    NotifyRun τ where
  run := r
  tagged := if x = .await then Function.update s.tagged t false else s.tagged
  current := if s.switches t x r then none else some t
  notified := if x matches .notify _ then s.notified + 1 else s.notified
  began := if x = .await then Function.update s.began t s.notified else s.began

def exec (s : NotifyRun τ) : NotifyOp τ → Option (Option Ret × NotifyRun τ)
  | .call x =>
    s.current.bind fun t => (s.run.exec (x.op t)).map fun r => (r.1, s.callStep t x r.2)
  | .yield => some (none, { s with current := none })
  | .pass waiting seen next =>
    (s.run.exec (.manage fun _ => (s.bits.looks waiting).settle seen)).map fun r =>
      (none, { s with run := r.2, tagged := fun t => s.tagged t || t ∈ s.bits.hits waiting,
                      current := next })

/-- When the running thread may make a call: `pth_cond_await` is called with the mutex
    locked, and the wait for the condition returns when its event is tagged. -/
def callable (s : NotifyRun τ) (t : τ) (x : NotifyCall) : Prop :=
  s.run.enabled (x.op t) ∧ (x = .await → (s.run.sync.mem.mutex ()).mxOwner = some t) ∧
    (x = .woken → ¬ s.Pending t)

instance (s : NotifyRun τ) (t : τ) (x : NotifyCall) : Decidable (s.callable t x) :=
  inferInstanceAs (Decidable (_ ∧ _ ∧ _))

def enabled (s : NotifyRun τ) : NotifyOp τ → Prop
  | .call x => s.current.any fun t => s.callable t x
  | .yield => s.current.any fun t => s.run.pc t = .idle
  | .pass waiting seen next =>
    s.current = none ∧ waiting.Nodup ∧ (∀ t, t ∈ waiting ↔ s.Pending t) ∧
      (s.bits.hits waiting ≠ [] → seen = true) ∧
      next.all fun t => ¬ s.Pending t ∨ t ∈ s.bits.hits waiting

instance [Fintype τ] (s : NotifyRun τ) : (op : NotifyOp τ) → Decidable (s.enabled op)
  | .call _ | .yield => inferInstanceAs (Decidable (_ = true))
  | .pass _ _ _ => inferInstanceAs (Decidable (_ ∧ _ ∧ _ ∧ _ ∧ _))

/-- The mutex and the condition variable initialised, and one thread running. -/
def init (s : NotifyRun τ) : Prop :=
  s.run.init ∧ s.current ≠ none ∧ s.notified = 0 ∧ s.began = fun _ => 0

def machine : Machine (NotifyRun τ) (NotifyOp τ) (Option Ret) where
  init := init
  enabled := enabled
  exec := exec

instance [Fintype τ] (s : NotifyRun τ) (op : NotifyOp τ) : Decidable (machine.enabled s op) :=
  inferInstanceAs (Decidable (s.enabled op))

/-- In this step `pth_cond_await` of the thread `t` returns `TRUE`. -/
def Awaited (s : NotifyRun τ) (op : NotifyOp τ) (o : Option Ret) (t : τ) : Prop :=
  s.current = some t ∧ o = some .ok ∧
    (op = .call .await ∨ op = .call .woken ∧ (s.run.pc t).inside () = true)

/-- `pth_cond_notify` finds waiters counted only while one of them is blocked. -/
def Blocked (s : NotifyRun τ) : NotifyOp τ → Prop
  | .call (.notify _) => (s.run.sync.cond ()).cnWaiters > 0 → ∃ t, s.Pending t
  | .call .lock | .call .unlock | .call .await | .call .woken | .yield | .pass _ _ _ => True

instance [Fintype τ] (s : NotifyRun τ) : (op : NotifyOp τ) → Decidable (s.Blocked op)
  | .call (.notify _) => inferInstanceAs (Decidable (_ → _))
  | .call .lock | .call .unlock | .call .await | .call .woken | .yield | .pass _ _ _ =>
    inferInstanceAs (Decidable True)

/-! ## Every notification is used at once -/

/-- A notification is there only between the call and the next pass, which finds a
    waiter for it. A thread that is no longer blocked has been notified since its call
    began. -/
structure Fresh (s : NotifyRun τ) : Prop where
  bits : s.bits = .clear ∨ ∃ b, s.bits = { signaled := true, broadcast := b, handled := false } ∧
    s.current = none ∧ (∃ t, s.Pending t) ∧ ∀ t, (s.run.pc t).inside () = true →
      s.began t < s.notified
  le : ∀ t, s.began t ≤ s.notified
  lt : ∀ t, (s.run.pc t).inside () = true → s.Pending t ∨ s.began t < s.notified

variable {s s' : NotifyRun τ} {t : τ} {o : Option Ret}

omit [DecidableEq τ] in
theorem Fresh.init (h : s.init) : s.Fresh := by
  obtain ⟨⟨-, -, hcond, hpc⟩, -, -, hbegan⟩ := h
  refine ⟨.inl ?_, fun t => by simp [hbegan], fun t ht => ?_⟩
  · rw [NotifyRun.bits, hcond ()]
    rfl
  · rw [hpc t] at ht
    cases ht

omit [DecidableEq τ] in
/-- While a thread runs there is no notification. -/
theorem Fresh.clear (h : s.Fresh) (hcur : s.current = some t) : s.bits = .clear := by
  rcases h.bits with hb | ⟨b, -, hnone, -⟩
  · exact hb
  · rw [hcur] at hnone
    cases hnone

/-- The running thread makes a call that leaves the bits alone. -/
theorem Fresh.quiet {x : NotifyCall} {r : CondRun τ Unit Unit} (h : s.Fresh)
    (hcur : s.current = some t) (hx : x = .lock ∨ x = .unlock ∨ x = .woken)
    (hq : s.run.Quiet r t) (hin : (r.pc t).inside () = true → ¬ s.Pending t) :
    (s.callStep t x r).Fresh := by
  have hkept : (s.callStep t x r).tagged = s.tagged ∧ (s.callStep t x r).began = s.began ∧
      (s.callStep t x r).notified = s.notified := by
    rcases hx with rfl | rfl | rfl <;> exact ⟨rfl, rfl, rfl⟩
  obtain ⟨htag, hbegan, hnum⟩ := hkept
  refine ⟨.inl ((hq.cnState ()).trans (h.clear hcur)), fun u => ?_, fun u hu => ?_⟩
  · rw [hbegan, hnum]
    exact h.le u
  · rw [Pending, hbegan, hnum, htag]
    by_cases hut : u = t
    · subst hut
      exact .inr ((h.lt u (hq.inside () hu)).resolve_left (hin hu))
    · have hpc : (s.callStep t x r).run.pc u = s.run.pc u := hq.pc u hut
      rw [hpc] at hu ⊢
      exact h.lt u hu

/-- The running thread calls `pth_cond_await`. -/
theorem Fresh.await {r : CondRun τ Unit Unit} (h : s.Fresh) (hcur : s.current = some t)
    (hexec : s.run.exec (.await t (some ()) (some ())) = some (o, r)) :
    (s.callStep t .await r).Fresh ∧ o ≠ some .ok := by
  have hclear : (s.run.sync.cond ()).cnState = .clear := h.clear hcur
  obtain ⟨ho, hpc, hother, hst⟩ := CondRun.await_blocks (by rw [hclear]; rfl) hexec
  refine ⟨⟨.inl ((hst ()).trans hclear), fun u => ?_, fun u hu => ?_⟩, ho⟩
  · by_cases hut : u = t
    · subst hut
      simp [callStep]
    · simpa [callStep, hut] using h.le u
  · by_cases hut : u = t
    · subst hut
      rcases hpc with hpc | hpc
      · rw [show (s.callStep u .await r).run.pc u = _ from hpc] at hu
        cases hu
      · exact .inl ⟨hpc, by simp [callStep]⟩
    · have hsame : (s.callStep t .await r).run.pc u = s.run.pc u := hother u hut
      rw [hsame] at hu
      simpa [Pending, callStep, hut, hother u hut] using h.lt u hu

/-- The running thread calls `pth_cond_notify`. -/
theorem Fresh.notify {b : Bool} {r : CondRun τ Unit Unit} (h : s.Fresh)
    (hcur : s.current = some t)
    (hblocked : (s.run.sync.cond ()).cnWaiters > 0 → ∃ u, s.Pending u)
    (hr : r = { s.run with sync := (s.run.sync.notify (some ()) b).2.2 }) :
    (s.callStep t (.notify b) r).Fresh := by
  subst hr
  refine ⟨?_, fun u => Nat.le_succ_of_le (h.le u),
    fun u hu => (h.lt u hu).imp id Nat.lt_succ_of_lt⟩
  rcases s.run.sync.notify_cases () b with ⟨hw, hn⟩ | hn
  · refine .inr ⟨b, ?_, ?_, hblocked hw, fun u _ => Nat.lt_succ_of_le (h.le u)⟩
    · simp [NotifyRun.bits, callStep, hn, SyncState.setCond, Cond.signal]
    · simp [callStep, switches, hn]
  · refine .inl ?_
    rw [NotifyRun.bits, callStep, hn]
    exact h.clear hcur

/-- A pass uses up a notification. -/
theorem Fresh.pass {waiting : List τ} {seen : Bool} {next : Option τ} (h : s.Fresh)
    (hen : s.enabled (.pass waiting seen next))
    (hexec : s.exec (.pass waiting seen next) = some (o, s')) : s'.Fresh := by
  obtain ⟨-, -, hwait, hseen, -⟩ := hen
  cases hexec
  rcases h.bits with hb | ⟨b, hb, -, ⟨u, hu⟩, hlt⟩
  · have hquiet : s.bits.hits waiting = [] := CondState.hits_quiet (by rw [hb]; rfl) waiting
    refine ⟨.inl ?_, h.le, fun u hu => ?_⟩
    · rw [hb]
      exact CondState.settle_looks_clear waiting seen
    · simpa [Pending, hquiet] using h.lt u hu
  · have hne : waiting ≠ [] := List.ne_nil_of_mem ((hwait u).mpr hu)
    have hhit : s.bits.hits waiting ≠ [] := by
      refine CondState.hits_ne_nil ?_ hne
      rw [hb]
      exact Bool.or_true b
    refine ⟨.inl ?_, h.le, fun u hu => .inr (hlt u hu)⟩
    exact CondState.settle_looks_hits (by rw [hb]) hseen hhit

/-- A step of the running thread is a call. -/
theorem call_step {x : NotifyCall} (hs : machine.Step s (.call x) o s') :
    ∃ t r, s.current = some t ∧ s.callable t x ∧ s.run.exec (x.op t) = some (o, r) ∧
      s' = s.callStep t x r := by
  obtain ⟨hen, hexec⟩ := hs
  obtain ⟨t, hcur, hcall⟩ := Option.bind_eq_some_iff.mp hexec
  obtain ⟨⟨o', r⟩, hr, hr'⟩ := Option.map_eq_some_iff.mp hcall
  cases hr'
  simp only [machine, enabled, hcur, Option.any_some, decide_eq_true_eq] at hen
  exact ⟨t, r, hcur, hen, hr, rfl⟩

/-- A step with a notification only while a thread is blocked. -/
theorem Fresh.step {op : NotifyOp τ} (h : s.Fresh) (hP : s.Blocked op)
    (hs : machine.Step s op o s') : s'.Fresh := by
  cases op with
  | yield =>
    obtain ⟨hen, hexec⟩ := hs
    cases hexec
    cases hcur : s.current with
    | none => simp [machine, enabled, hcur] at hen
    | some t => exact ⟨.inl (h.clear hcur), h.le, h.lt⟩
  | pass waiting seen next => exact h.pass hs.1 hs.2
  | call x =>
    obtain ⟨t, r, hcur, ⟨hpc, -, hwoken⟩, hr, rfl⟩ := call_step hs
    cases x with
    | lock =>
      refine h.quiet hcur (.inl rfl) (CondRun.lock_quiet hr) fun _ hpend => ?_
      cases hpend.1.symm.trans hpc
    | unlock =>
      refine h.quiet hcur (.inr (.inl rfl)) (CondRun.unlock_quiet hr) fun _ hpend => ?_
      cases hpend.1.symm.trans hpc
    | await => exact (h.await hcur hr).1
    | notify b =>
      cases hr
      exact h.notify hcur hP rfl
    | woken =>
      exact h.quiet hcur (.inr (.inr rfl)) (CondRun.woken_quiet hr) fun _ => hwoken rfl

/-- A waiter returns `TRUE` after a notification. -/
theorem Fresh.awaited {op : NotifyOp τ} (h : s.Fresh) (hs : machine.Step s op o s')
    (ha : s.Awaited op o t) : s'.began t < s'.notified := by
  obtain ⟨hcur, rfl, rfl | ⟨rfl, hin⟩⟩ := ha
  · obtain ⟨u, r, hu, -, hr, -⟩ := call_step hs
    exact absurd rfl (h.await hu hr).2
  · obtain ⟨u, r, hu, ⟨-, -, hwoken⟩, -, rfl⟩ := call_step hs
    obtain rfl : t = u := Option.some_inj.mp (hcur.symm.trans hu)
    exact (h.lt t hin).resolve_left (hwoken rfl)

/-- No stale notification: in a run in which `pth_cond_notify` finds waiters counted
    only while one is blocked, a call of `pth_cond_await` returns `TRUE` only if there
    has been a notification since it began, and a notification while nobody is blocked
    changes nothing. -/
theorem await_ok_notified {op : NotifyOp τ} (h : machine.Reach Blocked s) (hP : s.Blocked op)
    (hs : machine.Step s op o s') :
    (∀ t, s.Awaited op o t → s'.began t < s'.notified) ∧
      ∀ b, op = .call (.notify b) → (∀ t, ¬ s.Pending t) → s'.run.sync = s.run.sync := by
  have hfresh : s.Fresh := h.invariant (I := Fresh) (fun _ => .init) fun _ _ _ _ hi => hi.step
  refine ⟨fun t ha => hfresh.awaited hs ha, ?_⟩
  rintro b rfl hnone
  obtain ⟨t, r, -, -, hr, rfl⟩ := call_step hs
  cases hr
  rcases s.run.sync.notify_cases () b with ⟨hw, -⟩ | hn
  · obtain ⟨u, hu⟩ := hP hw
    exact absurd hu (hnone u)
  · simp [callStep, hn]

/-- One thread running, and the others ready. -/
def start (t : τ) : NotifyRun τ where
  run := .start ⟨fun _ => none, fun _ => none⟩
  tagged _ := false
  current := some t
  notified := 0
  began _ := 0

omit [DecidableEq τ] in
theorem start_init (t : τ) : (start t).init :=
  ⟨CondRun.start_init _, by simp [start], rfl, rfl⟩

/-- Thread 0 awaits the condition, thread 1 notifies it once. -/
theorem await_ok_notified_two : ∃ (s s' : NotifyRun (Fin 2)),
    machine.Reach Blocked s ∧ machine.Step s (.call .woken) (some .ok) s' ∧
      s.Awaited (.call .woken) (some .ok) 0 ∧ s'.began 0 < s'.notified := by
  have h₀ := Machine.Reach.init (M := machine) (P := Blocked) (start_init (0 : Fin 2))
  obtain ⟨s, o, s', hr, hs, ho, hcur, hin⟩ := h₀.play_step
    (l := [.call .lock, .call .await, .pass [0] false (some 1), .call (.notify false),
      .pass [0] true (some 0)])
    (i := .call .woken)
    (p := fun s o _ => o = some .ok ∧ s.current = some 0 ∧ (s.run.pc 0).inside () = true)
    (by decide)
  subst ho
  have ha : s.Awaited (.call .woken) (some .ok) 0 := ⟨hcur, rfl, .inr ⟨rfl, hin⟩⟩
  have hP : s.Blocked (.call .woken) := trivial
  exact ⟨s, s', hr, hs, ha, (await_ok_notified hr hP hs).1 0 ha⟩

/-- Thread 0 awaits the condition. Thread 1 notifies it twice while it holds the mutex,
    the second time when thread 0 already waits for the mutex. After both have gone on,
    the call of thread 2 returns at once. -/
theorem await_ok_stale : ∃ (s s' : NotifyRun (Fin 3)), machine.Reachable s ∧
    machine.Step s (.call .await) (some .ok) s' ∧ s.Awaited (.call .await) (some .ok) 2 ∧
      ¬ s'.began 2 < s'.notified := by
  have h₀ := Machine.Reach.init (M := machine) (P := fun _ _ => True) (start_init (0 : Fin 3))
  obtain ⟨s, o, s', hr, hs, ho, hcur, hlt⟩ := h₀.play_step
    (l := [.call .lock, .call .await, .pass [0] false (some 1),
      .call .lock, .call (.notify false), .pass [0] true (some 0),
      .call .woken, .pass [] false (some 1),
      .call (.notify false), .pass [] false (some 1), .call .unlock, .yield,
      .pass [] false (some 0), .call .woken, .call .unlock, .yield,
      .pass [] false (some 2), .call .lock])
    (i := .call .await)
    (p := fun s o s' => o = some .ok ∧ s.current = some 2 ∧ ¬ s'.began 2 < s'.notified)
    (by decide)
  subst ho
  exact ⟨s, s', hr, hs, ⟨hcur, rfl, .inl rfl⟩, hlt⟩

end NotifyRun

end Pth
