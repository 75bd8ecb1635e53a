-- SUMMARY: The running times of the threads and of the scheduler add up to the time that has passed.
import Mathlib.Algebra.BigOperators.Group.Finset.Piecewise
import Pth.Sched.Kill
import Pth.Sched.Times

/-!
# Running times

The scheduler reads the clock when it switches to a thread and when the thread comes back.
What has passed since the reading before is added to its own running time in the first case
and to the running time of the thread in the second. A pass of the event manager that has to
be repeated reads the clock, too, and overwrites the earlier reading. -/

namespace Pth

variable {τ : Type*}

/-- The times in the control blocks. The other fields are for the accounting: the microseconds
    of the threads whose blocks have been freed, those of the passes that were repeated, and
    when the scheduler has started. -/
structure Clocks (τ : Type*) where
  lastran : τ → Time
  running : τ → Time
  past : ℤ
  idle : ℤ
  start : Time

namespace Clocks

variable [DecidableEq τ]

/-- Add what has passed between two readings to a running time. -/
def ran (k : Clocks τ) (t : τ) (start stop : Time) : Clocks τ :=
  { k with running := Function.update k.running t ((k.running t).add (stop.sub start)) }

/-- What an operation does to the times; `now` is the reading of the clock for a new thread and
    for one that is switched to. -/
def tick (k : Clocks τ) (r : Run τ) (op : Op τ) (now : Time) (r' : Run τ) : Clocks τ :=
  match op, r.lib.pthCurrent, r'.lib.pthCurrent with
  | .spawn attr func alloc, _, _ =>
    match Run.allocates (.spawn attr func alloc) with
    | some t => { k with lastran := Function.update k.lastran t now
                         running := Function.update k.running t .zero }
    | none => k
  | .dispatch, _, some c =>
    { k with lastran := Function.update k.lastran c now }.ran r'.lib.pthSched r'.lib.snapshot now
  | .comeback stop guard _, some c, _ =>
    if guard = .killed then k else k.ran c (k.lastran c) stop
  | .manage env, _, _ =>
    -- the pass is repeated with a new reading
    if r'.phase = .manager false then
      { k with idle := k.idle + (env.now.micros - r.lib.snapshot.micros) }
    else k
  | _, _, _ => k

/-- Keep what a thread has used when its block is freed. -/
def forget (k : Clocks τ) (freed : Option τ) : Clocks τ :=
  { k with past := k.past + freed.elim 0 fun t => (k.running t).micros }

/-- The times when the main thread has been switched to for the first time. -/
def first (r : Run τ) (now : Time) : Clocks τ where
  lastran _ := now
  running t := if t = r.lib.pthSched then Time.zero.add (now.sub r.lib.snapshot) else .zero
  past := 0
  idle := 0
  start := r.lib.snapshot

theorem tick_quiet {k : Clocks τ} {r r' : Run τ} {op : Op τ} {now : Time}
    (hop : Run.isSched op = false) (hnew : Run.allocates op = none) : k.tick r op now r' = k := by
  cases op with
  | spawn => simp only [tick, hnew]
  | comeback | manage | dispatch => cases hop
  | _ => rfl

end Clocks

/-! ## Readings of the clock -/

namespace Sched

variable [DecidableEq τ] {s s' : Sched τ}

theorem delete_snapshot {k : QId} {t : τ} (hs : s.delete k t = some s') :
    s'.snapshot = s.snapshot := by
  obtain ⟨qs, -, rfl⟩ := Option.map_eq_some_iff.mp hs
  rfl

theorem insert_snapshot {k : QId} {prio : ℤ} {t : τ} (hs : s.insert k prio t = some s') :
    s'.snapshot = s.snapshot := by
  obtain ⟨qs, -, rfl⟩ := Option.map_eq_some_iff.mp hs
  rfl

theorem drainNew_snapshot {n : ℕ} (hs : drainNew n s = some s') : s'.snapshot = s.snapshot := by
  induction n generalizing s with
  | zero =>
    unfold Sched.drainNew at hs
    split at hs
    · cases hs
      rfl
    · cases hs
  | succ n ih =>
    unfold Sched.drainNew at hs
    split at hs
    · cases hs
      rfl
    · obtain ⟨s₁, hdel, hs⟩ := Option.bind_eq_some_iff.mp hs
      obtain ⟨s₂, hins, hs⟩ := Option.bind_eq_some_iff.mp hs
      have hsnap : s₂.snapshot = s₁.snapshot := insert_snapshot (s := s₁.setState _ _) hins
      exact (ih hs).trans (hsnap.trans (delete_snapshot hdel))

/-- The scheduler switches to a thread with the reading it has. -/
theorem dispatch_snapshot (hs : s.dispatch = some s') : s'.snapshot = s.snapshot := by
  obtain ⟨s₁, hdrain, hs⟩ := Option.bind_eq_some_iff.mp hs
  obtain ⟨x, -, rfl⟩ := Option.map_eq_some_iff.mp hs
  have hsnap := drainNew_snapshot hdrain
  exact hsnap

theorem retire_snapshot {c : τ} (hs : s.retire c = some s') : s'.snapshot = s.snapshot := by
  unfold Sched.retire at hs
  split at hs
  · split at hs
    · obtain ⟨s₁, hins, rfl⟩ := Option.map_eq_some_iff.mp hs
      have hsnap := insert_snapshot hins
      exact hsnap
    · cases hs
      rfl
  · obtain ⟨s₁, hins, rfl⟩ := Option.map_eq_some_iff.mp hs
    have hsnap := insert_snapshot hins
    exact hsnap
  · cases hs
    rfl

theorem requeue_snapshot (hs : s.requeue = some s') : s'.snapshot = s.snapshot := by
  simp only [Sched.requeue] at hs
  split at hs
  · cases hs
    rfl
  · have hsnap := insert_snapshot hs
    exact hsnap

/-- The reading when a thread has come back. -/
theorem comeback_snapshot {c : τ} {now : Time} {overflow : Bool} {still : SigSet}
    (hs : s.comeback c now overflow still = some s') : s'.snapshot = now := by
  simp only [Sched.comeback] at hs
  obtain ⟨s₁, hretire, hs⟩ := Option.bind_eq_some_iff.mp hs
  rw [requeue_snapshot hs, retire_snapshot hretire]
  split <;> rfl

theorem cleanup_snapshot {env : Env τ} {n : ℕ} {l : Late} {x : Option τ}
    (hs : cleanup env n s l x = some s') : s'.snapshot = s.snapshot := by
  induction n generalizing s l x with
  | zero =>
    cases x with
    | none =>
      cases hs
      rfl
    | some t => cases hs
  | succ n ih =>
    cases x with
    | none =>
      cases hs
      rfl
    | some t =>
      simp only [cleanup] at hs
      have hlate : (lateThread env s l t).2.snapshot = s.snapshot := rfl
      split at hs
      · obtain ⟨s₂, hwake, hs⟩ := Option.bind_eq_some_iff.mp hs
        obtain ⟨s₁, hdel, hins⟩ := Option.bind_eq_some_iff.mp hwake
        have hsnap : s₂.snapshot = s₁.snapshot := insert_snapshot (s := s₁.setState _ _) hins
        rw [ih hs, hsnap, delete_snapshot hdel, hlate]
      · rw [ih hs, hlate]

/-- A pass takes a new reading only if it has to be repeated. -/
theorem eventmanager_snapshot {env : Env τ} {dopoll b : Bool}
    (hs : s.eventmanager env dopoll = some (b, s')) :
    s'.snapshot = if b then env.now else s.snapshot := by
  obtain ⟨⟨s₁, sc⟩, hscan, hs⟩ := Option.bind_eq_some_iff.mp hs
  obtain ⟨s₃, hclean, heq⟩ := Option.map_eq_some_iff.mp hs
  obtain ⟨hb, hs'⟩ := Prod.mk.inj heq
  rw [hb] at hs'
  subst hs'
  cases b with
  | true => rfl
  | false =>
    have hsleep : s.Scanned (sleep env s₁ sc dopoll).2.1 :=
      (scanThreads_scanned hscan).1.trans (elapse_scanned sc _ _)
    exact (cleanup_snapshot hclean).trans hsleep.snapshot

end Sched

namespace Run

variable [DecidableEq τ]

/-- Runs with the times. -/
def clocked : Machine (Run τ × Clocks τ) (Op τ × Time) (Out τ) where
  init x := x.1.init ∧ ∃ now, x.2 = .first x.1 now
  enabled x i := x.1.enabled i.1
  exec x i := (x.1.exec i.1).map fun (o, r') =>
    (o, r', (x.2.tick x.1 i.1 i.2 r').forget (x.1.frees i.1))

variable {r r' : Run τ} {op : Op τ} {o : Out τ} {k k' : Clocks τ} {c : τ} {now : Time}

theorem step_of_clocked (h : clocked.Step (r, k) (op, now) o (r', k')) :
    machine.Step r op o r' ∧ k' = (k.tick r op now r').forget (r.frees op) := by
  obtain ⟨hen, hexec⟩ := h
  obtain ⟨x, hx, heq⟩ := Option.map_eq_some_iff.mp hexec
  cases heq
  exact ⟨⟨hen, hx⟩, rfl⟩

/-- The last reading of the clock that counts. -/
def mark (r : Run τ) (k : Clocks τ) : Time :=
  match r.lib.pthCurrent with
  | some c => if r.phase.holds then k.lastran c else r.lib.snapshot
  | none => r.lib.snapshot

omit [DecidableEq τ] in
theorem mark_current (hph : r.phase.holds = true) (hc : r.lib.pthCurrent = some c) :
    r.mark k = k.lastran c := by
  simp [mark, hph, hc]

omit [DecidableEq τ] in
theorem mark_scheduler (hph : r.phase.holds = false) : r.mark k = r.lib.snapshot := by
  unfold mark
  split <;> simp [hph]

theorem Called.unclocked {s : Sched τ} (h : r.Called op s) :
    isSched op = false ∧ allocates op = none := by
  cases h with
  | stays hq => exact ⟨hq.sched, hq.allocates⟩
  | _ => exact ⟨rfl, rfl⟩

/-- As long as threads call functions, the same thread has control. -/
theorem Effect.current (h : Effect r op o r') (hrun : r.phase = .running) :
    r'.phase.holds = true ∧ r'.lib.pthCurrent = r.lib.pthCurrent := by
  cases h with
  | call _ _ hcalm _ _ hph => exact ⟨by rcases hph with rfl | rfl <;> rfl, hcalm.pthCurrent⟩
  | spawn _ _ _ _ hs => exact ⟨by simp [hrun, Phase.holds], hs.pthCurrent⟩
  | keep | wait | dies | exited => exact ⟨rfl, rfl⟩
  | waitReturn | exits | attr => exact ⟨by simp [hrun, Phase.holds], rfl⟩
  | joined _ _ _ hs => exact ⟨by simp [hrun, Phase.holds], hs.pthCurrent⟩
  | comeback hsw => simp [hrun] at hsw
  | manage hph => simp [hrun] at hph
  | dispatch hph => simp [hrun] at hph
  | killed hsw => simp [hrun] at hsw

/-! ## Sums -/

section

variable [Fintype τ]

/-- The running times of all existing threads and of the scheduler, in microseconds. -/
def total (r : Run τ) (k : Clocks τ) : ℤ := ∑ t, if r.lib.live t then (k.running t).micros else 0

/-- Adding to the running time of an existing thread. -/
theorem total_ran {start stop : Time} (hc : r.lib.live c = true) :
    r.total (k.ran c start stop) = r.total k + (stop.micros - start.micros) := by
  have hpoint : ∀ t, (if r.lib.live t then ((k.ran c start stop).running t).micros else 0) =
      (if r.lib.live t then (k.running t).micros else 0) +
        if t = c then stop.micros - start.micros else 0 := by
    intro t
    by_cases ht : t = c
    · subst ht
      simp [Clocks.ran, hc]
    · simp [Clocks.ran, ht]
  simp only [total, hpoint, Finset.sum_add_distrib, Finset.sum_ite_eq', Finset.mem_univ, if_true]

/-- Allocating and freeing blocks. -/
theorem Balance.total (h : Balance r op r')
    (hnew : ∀ t, allocates op = some t → (k.running t).micros = 0) :
    r'.total k + ((r.frees op).elim 0 fun t => (k.running t).micros) = r.total k := by
  have hpoint : ∀ t, (if r'.lib.live t then (k.running t).micros else 0) +
      (if r.frees op = some t then (k.running t).micros else 0) =
        if r.lib.live t then (k.running t).micros else 0 := by
    intro t
    have halloc := h.allocated t
    have hfree := h.freed t
    rw [h.live]
    by_cases hnewt : allocates op = some t
    · have hfree' : r.frees op ≠ some t := by
        intro hf
        simp [halloc hnewt] at hfree
        exact hfree hf
      simp [hnewt, hfree', hnew t hnewt]
    · by_cases hf : r.frees op = some t
      · simp [hnewt, hf, hfree hf]
      · simp [hnewt, hf]
  have hsum : (∑ t, if r.frees op = some t then (k.running t).micros else 0) =
      (r.frees op).elim 0 fun t => (k.running t).micros := by
    cases r.frees op with
    | none => simp
    | some u => simp [Finset.sum_ite_eq]
  rw [← hsum, Run.total, Run.total, ← Finset.sum_add_distrib]
  exact Finset.sum_congr rfl fun t _ => hpoint t

/-- The accounts are balanced. -/
def Accounted (r : Run τ) (k : Clocks τ) : Prop :=
  r.total k + k.past + k.idle = (r.mark k).micros - k.start.micros

/-- The accounts are balanced after a step to `r'`, before a block is freed. -/
def Ticked (r r' : Run τ) (k : Clocks τ) : Prop :=
  r.total k + k.past + k.idle = (r'.mark k).micros - k.start.micros

/-- The running thread has called a function. -/
theorem Accounted.call (h : r.Accounted k) (hinv : r.Inv) (heff : Effect r op o r')
    (hrun : r.phase = .running) : Ticked r r' k := by
  obtain ⟨c, -, hc, -, -⟩ := hinv.atRunning hrun
  obtain ⟨hph, hcur⟩ := heff.current hrun
  rw [Ticked, mark_current hph (hcur.trans hc),
    ← mark_current (r := r) (by simp [hrun, Phase.holds]) hc]
  exact h

theorem Accounted.tick_spawn {attr : Option Attr} {t : τ} (h : r.Accounted k) (hinv : r.Inv)
    (heff : Effect r (.spawn attr .user (some t)) o r') (hrun : r.phase = .running)
    (ht : r.lib.live t = false) :
    Ticked r r' { k with lastran := Function.update k.lastran t now
                         running := Function.update k.running t .zero } := by
  obtain ⟨c, a, hc, -, ha⟩ := hinv.atRunning hrun
  obtain ⟨hph, hcur⟩ := heff.current hrun
  have hcall := h.call hinv heff hrun
  rw [Ticked, mark_current hph (hcur.trans hc)] at hcall
  have hct : c ≠ t := by
    rintro rfl
    simp [(ha.awayLive rfl).1] at ht
  -- the block of the new thread counted for nothing before
  have htotal : r.total { k with lastran := Function.update k.lastran t now
                                 running := Function.update k.running t .zero } = r.total k := by
    refine Finset.sum_congr rfl fun u _ => ?_
    by_cases hu : u = t
    · simp [hu, ht]
    · simp [hu]
  rw [Ticked, htotal, mark_current hph (hcur.trans hc)]
  simpa [hct] using hcall

theorem Accounted.tick_comeback {s : Sched τ} {stop : Time} {overflow : Bool} {still : SigSet}
    (h : r.Accounted k) (hinv : r.Inv) (hsw : r.phase = .switched)
    (hc : r.lib.pthCurrent = some c) (hback : r.lib.comeback c stop overflow still = some s) :
    Ticked r { r with lib := s, phase := .manager s.polls } (k.ran c (k.lastran c) stop) := by
  have hholds : r.phase.holds = true := by simp [hsw, Phase.holds]
  obtain ⟨a, ha⟩ := hinv.apart hholds hc
  simp only [Accounted, mark_current hholds hc] at h
  rw [Ticked, total_ran (ha.awayLive rfl).1,
    mark_scheduler (r := { r with lib := s, phase := .manager s.polls }) rfl,
    Sched.comeback_snapshot hback]
  simp only [Clocks.ran]
  omega

theorem Accounted.tick_manage {s : Sched τ} {env : Env τ} {dopoll b : Bool} (h : r.Accounted k)
    (hph : r.phase = .manager dopoll) (hm : r.lib.eventmanager env dopoll = some (b, s)) :
    Ticked r { r with lib := s, phase := if b then .manager false else .top }
      (if b then { k with idle := k.idle + (env.now.micros - r.lib.snapshot.micros) } else k) := by
  have hsnap := Sched.eventmanager_snapshot hm
  rw [Accounted, mark_scheduler (by simp [hph, Phase.holds])] at h
  rw [Ticked, mark_scheduler (by cases b <;> rfl)]
  cases b with
  | true =>
    simp only [if_true, hsnap]
    change r.total k + k.past + _ = _
    omega
  | false =>
    simp only [Bool.false_eq_true, if_false, hsnap]
    exact h

theorem Accounted.tick_dispatch {s : Sched τ} (h : r.Accounted k) (hinv : r.Inv)
    (htop : r.phase = .top) (hdis : r.lib.dispatch = some s) (hcur : s.pthCurrent = some c)
    (now : Time) :
    Ticked r { r with lib := s, phase := .running }
      ({ k with lastran := Function.update k.lastran c now }.ran s.pthSched s.snapshot now) := by
  obtain ⟨a, ha⟩ := hinv.together (by simp [htop, Phase.holds])
  have hd := (ha.dispatch.of_eq_some hdis).1
  have hsnap := Sched.dispatch_snapshot hdis
  rw [Accounted, mark_scheduler (by simp [htop, Phase.holds])] at h
  rw [Ticked, total_ran (by rw [hd.pthSched]; exact ha.schedLive), mark_current rfl hcur]
  simp only [Clocks.ran, Function.update_self, hsnap]
  change r.total k + _ + _ + _ = _
  omega

/-- Every operation adds to the accounts what passes until the next reading. -/
theorem Accounted.tick (h : r.Accounted k) (hinv : r.Inv) (hs : machine.Step r op o r')
    (now : Time) : Ticked r r' (k.tick r op now r') := by
  have heff := hinv.step hs
  have hquiet : isSched op = false → allocates op = none → r.phase = .running →
      Ticked r r' (k.tick r op now r') := by
    intro hop hnew hrun
    rw [Clocks.tick_quiet hop hnew]
    exact h.call hinv heff hrun
  have heff' := heff
  cases heff' with
  | call hrun _ _ _ _ _ _ hcall => exact hquiet hcall.unclocked.1 hcall.unclocked.2 hrun
  | spawn hrun _ _ ht => exact h.tick_spawn hinv heff hrun ht
  | keep hrun _ _ _ _ _ hq => exact hquiet hq.sched hq.allocates hrun
  | wait hrun _ _ _ _ _ _ _ hq => exact hquiet hq.sched hq.allocates hrun
  | exits hrun _ _ _ _ _ hq => exact hquiet hq.sched hq.allocates hrun
  | dies hrun _ _ _ _ _ hq => exact hquiet hq.sched hq.allocates hrun
  | waitReturn hrun | attr hrun | joined hrun | exited hrun => exact hquiet rfl rfl hrun
  | comeback hsw hc _ _ hguard hback =>
    have htick := h.tick_comeback hinv hsw hc hback
    simpa [Clocks.tick, hc, hguard] using htick
  | killed hsw =>
    obtain ⟨c, hc, -⟩ := hinv.switched hsw
    rw [Accounted, mark_current (by simp [hsw, Phase.holds]) hc] at h
    simp only [Clocks.tick, hc, if_true]
    rwa [Ticked, mark_current (r := { r with phase := .killed }) rfl hc]
  | manage hph hm =>
    have htick := h.tick_manage hph hm
    simpa [Clocks.tick] using htick
  | @dispatch s _ _ htop _ _ _ _ _ hdis =>
    cases hcur : s.pthCurrent with
    | none =>
      rw [Accounted, mark_scheduler (by simp [htop, Phase.holds])] at h
      simp only [Clocks.tick, hcur, if_true]
      rwa [Ticked, mark_scheduler rfl, Sched.dispatch_snapshot hdis]
    | some c =>
      have htick := h.tick_dispatch hinv htop hdis hcur now
      simpa [Clocks.tick, hcur] using htick

/-- In every state of a run, the running times of the existing threads and of the scheduler,
    with those of the threads that are gone and the time of the passes that were repeated, add
    up to what has passed between the start of the scheduler and the last reading. -/
theorem times_accounted (h : clocked.Reachable (r, k)) :
    (∑ t, if r.lib.live t then (k.running t).micros else 0) + k.past + k.idle =
      (r.mark k).micros - k.start.micros := by
  suffices hI : r.Inv ∧ r.Accounted k from hI.2
  refine h.invariant (I := fun x : Run τ × Clocks τ => x.1.Inv ∧ x.1.Accounted x.2) ?_ ?_
  · rintro ⟨r, k⟩ ⟨hinit, now, hk⟩
    obtain rfl : k = .first r now := hk
    refine ⟨Inv.init hinit, ?_⟩
    obtain ⟨s, main, sched, time, hne, hlib, -, hph⟩ := hinit
    have hph : r.phase = .running := hph
    have hs : r.lib.Started main sched := (s.pthInit_started time hne).of_eq_some hlib
    have hpoint : ∀ t, (if r.lib.live t then ((Clocks.first r now).running t).micros else 0) =
        if t = sched then now.micros - r.lib.snapshot.micros else 0 := by
      intro t
      have hzero : Time.zero.micros = 0 := rfl
      by_cases ht : t = sched <;> simp [Clocks.first, hs.live, hs.pthSched, ht, hzero]
    rw [Accounted, mark_current (by simp [hph, Phase.holds]) hs.pthCurrent]
    simp only [total, hpoint, Finset.sum_ite_eq', Finset.mem_univ, if_true]
    simp [Clocks.first]
  · rintro ⟨r, k⟩ ⟨op, now⟩ o ⟨r', k'⟩ ⟨hinv, hacc⟩ - hs
    have hinv : r.Inv := hinv
    have hacc : r.Accounted k := hacc
    obtain ⟨hstep, rfl⟩ := step_of_clocked hs
    refine ⟨(hinv.step hstep).inv hinv, ?_⟩
    have htick := hacc.tick hinv hstep now
    rw [Ticked] at htick
    have hnew : ∀ t, allocates op = some t → ((k.tick r op now r').running t).micros = 0 := by
      intro t ht
      cases op with
      | spawn attr func alloc => simp [Clocks.tick, ht, Time.micros, Time.zero]
      | _ => cases ht
    have htotal := (hinv.balance hstep).total hnew
    change r'.total (k.tick r op now r') + (_ + _) + _ = (r'.mark (k.tick r op now r')).micros - _
    simp only [Clocks.forget]
    omega

instance (x : Run τ × Clocks τ) (i : Op τ × Time) : Decidable (clocked.enabled x i) :=
  inferInstanceAs (Decidable (x.1.enabled i.1))

end

/-- The scheduler starts at 10 s and switches to the main thread at 11 s. The main thread runs
    until 14 s, and the thread 2 from 16 s until 21 s. -/
theorem times_accounted_turns : ∃ (r : Run (Fin 3)) (k : Clocks (Fin 3)),
    clocked.Reachable (r, k) ∧ k.running 0 = ⟨3, 0⟩ ∧ k.running 1 = ⟨3, 0⟩ ∧
    k.running 2 = ⟨5, 0⟩ ∧ (∑ t, if r.lib.live t then (k.running t).micros else 0) = 11000000 := by
  have hboot : clocked.Reach (fun _ _ => True) (boot (Sched.blank (0 : Fin 3)) 0 1 ⟨10, 0⟩,
      Clocks.first (boot (Sched.blank 0) 0 1 ⟨10, 0⟩) ⟨11, 0⟩) :=
    .init ⟨boot_init _ _ _ _ (by decide), ⟨11, 0⟩, rfl⟩
  obtain ⟨⟨r, k⟩, hr, hmain, hsched, ht, hpast, hidle, hmark⟩ := hboot.play
    (l := [(.spawn none .user (some 2), ⟨12, 0⟩), (.yield none, .zero),
      (.comeback ⟨14, 0⟩ .intact fun _ => false, .zero), (.manage Sched.quiet, .zero),
      (.dispatch, ⟨16, 0⟩), (.yield none, .zero),
      (.comeback ⟨21, 0⟩ .intact fun _ => false, .zero)])
    (p := fun x => x.2.running 0 = ⟨3, 0⟩ ∧ x.2.running 1 = ⟨3, 0⟩ ∧ x.2.running 2 = ⟨5, 0⟩ ∧
      x.2.past = 0 ∧ x.2.idle = 0 ∧ (x.1.mark x.2).micros - x.2.start.micros = 11000000) (by decide)
  have hsum := times_accounted hr
  rw [hpast, hidle, hmark] at hsum
  exact ⟨r, k, hr, hmain, hsched, ht, by simpa using hsum⟩

end Run

end Pth
