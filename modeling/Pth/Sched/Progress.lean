-- SUMMARY: Under what select(2) does, a pass that has waited wakes a thread, so the scheduler always finds one.
import Pth.Sched.Invariant

/-!
# The scheduler never runs out of threads

Whatever ends the sleep in `select(2)` is matched by an event of a waiting thread,
and the second loop takes this event from the pending ones: a descriptor that is
ready or bad, a timer, or a signal. The loop changes its variables while it goes
over the events, so for each of these reasons there is a condition on the variables
that all events on the way keep. -/

namespace Pth

open PrioList (keys)

/-- What `select(2)` returns to a request, when some descriptors are `bad`. An error,
    other than an interrupt, means that a set that was passed has a bad descriptor; a
    positive result comes with descriptors that were passed, and 0 with a timeout. -/
structure SelectRes.Answers (bad : ℕ → Prop) (req : SelectReq) (res : SelectRes) : Prop where
  error : res.rc < 0 ↔ ∃ k, ∃ d : ℕ, (d : ℤ) < req.nfds ∧ req.sets.bit k d ∧ bad d
  ready : 0 < res.rc → ∃ k d, res.sets.bit k d
  passed : 0 < res.rc → ∀ k d, res.sets.bit k d → req.sets.bit k d
  timeout : res.rc = 0 → req.timeout ≠ none

/-- `select(2)` answers the request `req` for all events together, and later checks
    with a timeout. Only the signal handler writes to the pipe, which is drained before
    the call. -/
structure Env.Selects {τ : Type*} (env : Env τ) (bad : ℕ → Prop) (pipe : ℕ) (req : SelectReq) :
    Prop where
  merged : (env.select .merged req).Answers bad req
  signal : 0 < (env.select .merged req).rc → (env.select .merged req).sets.r pipe →
    ∃ n, req.catches n ∧ (env.select .merged req).raised n
  recheck : ∀ t i req', req'.timeout ≠ none →
    (env.select (.recheck t i) req').Answers bad req'
  pipe : ¬ bad pipe

/-- The microseconds are less than a second. -/
def Time.Normal (x : Time) : Prop := 0 ≤ x.tvUsec ∧ x.tvUsec < 1000000

/-- With close times, the comparison in `int` is the one of the times. -/
theorem Time.cmp_eq {x y : Time} (hlo : -2 ^ 31 ≤ x.tvSec - y.tvSec)
    (hhi : x.tvSec - y.tvSec < 2 ^ 31) (hulo : -2 ^ 31 ≤ x.tvUsec - y.tvUsec)
    (huhi : x.tvUsec - y.tvUsec < 2 ^ 31) :
    x.cmp y = if x.tvSec - y.tvSec = 0 then x.tvUsec - y.tvUsec else x.tvSec - y.tvSec := by
  have hsec : (x.tvSec - y.tvSec).bmod (2 ^ 32) = x.tvSec - y.tvSec :=
    Int.bmod_eq_of_le (by omega) (by omega)
  have husec : (x.tvUsec - y.tvUsec).bmod (2 ^ 32) = x.tvUsec - y.tvUsec :=
    Int.bmod_eq_of_le (by omega) (by omega)
  rw [cmp, hsec, husec]

/-- The time until a time point that is not in the past. -/
theorem Time.sub_valid {x now : Time} (hnow : now.Normal) (hx : x.Normal)
    (hlo : -2 ^ 31 ≤ x.tvSec - now.tvSec) (hhi : x.tvSec - now.tvSec < 2 ^ 31)
    (hcmp : ¬ x.cmp now < 0) : (x.sub now).Normal ∧ 0 ≤ (x.sub now).tvSec := by
  obtain ⟨hn₀, hn₁⟩ := hnow
  obtain ⟨hx₀, hx₁⟩ := hx
  rw [cmp_eq hlo hhi (by omega) (by omega)] at hcmp
  simp only [sub, Normal]
  split at hcmp <;> split <;> dsimp only <;> omega

/-- The time until the end of an interval. -/
theorem Time.add_sub_valid {x now : Time} (hnow : now.Normal) (hx : x.Normal)
    (hsec : 0 ≤ x.tvSec) : ((now.add x).sub now).Normal ∧ 0 ≤ ((now.add x).sub now).tvSec := by
  obtain ⟨hn₀, hn₁⟩ := hnow
  obtain ⟨hx₀, hx₁⟩ := hx
  simp only [add, sub, Normal]
  split <;> split <;> dsimp only at * <;> omega

namespace Sched

variable {τ : Type*} {s s' : Sched τ} {env : Env τ} {t : τ} {i : ℕ} {l : Late}
  {I : Late → Prop}

/-! ## Late handling on the way to an event -/

theorem lateArgs_rc (args : EventArgs τ) : (lateArgs env t i l args).1.rc = l.rc := by
  cases args <;> simp only [lateArgs] <;> repeat' split
  all_goals rfl

theorem lateArgs_sets (args : EventArgs τ) (h : 0 < l.rc) :
    (lateArgs env t i l args).1.sets = l.sets := by
  have hrc : ¬ l.rc < 0 := by omega
  cases args <;> simp only [lateArgs, if_neg hrc] <;> repeat' split
  all_goals rfl

theorem lateArgs_raised (args : EventArgs τ) (h : (lateArgs env t i l args).2.1 = .pending) :
    (lateArgs env t i l args).1.raised = l.raised := by
  revert h
  cases args <;> simp only [lateArgs] <;> repeat' split
  all_goals simp

/-- An event that stays pending keeps the condition `I`. -/
def Stable (env : Env τ) (I : Late → Prop) : Prop :=
  ∀ t i l args, I l → (lateArgs env t i l args).2.1 = .pending → I (lateArgs env t i l args).1

/-- The event is not pending, or ceases to be pending under the condition `I`. -/
def Hit (env : Env τ) (I : Late → Prop) (t : τ) (i : ℕ) (ev : Event τ) : Prop :=
  ev.evStatus = .pending → ∀ l, I l → (lateArgs env t i l ev.evArgs).2.1 ≠ .pending

theorem lateEvents_hits (o : Objects) (evs : List (Event τ)) (hI : Stable env I) (hl : I l) :
    (∃ ev ∈ (lateEvents env t i l o evs).2.2, ev.evStatus ≠ .pending) ∨
      (I (lateEvents env t i l o evs).1 ∧
        ∀ j ev, evs[j]? = some ev → ¬ Hit env I t (i + j) ev) := by
  induction evs generalizing i l o with
  | nil => exact .inr ⟨hl, by simp⟩
  | cons ev evs ih =>
    by_cases hp : ev.evStatus = .pending
    · by_cases hst : (lateArgs env t i l ev.evArgs).2.1 = .pending
      · have hl' := hI t i l ev.evArgs hl hst
        rcases ih (i := i + 1) o hl' with ⟨e, he, hne⟩ | ⟨hlast, hrest⟩
        · refine .inl ⟨e, ?_, hne⟩
          simpa [lateEvents, lateEvent, hp] using .inr he
        · refine .inr ⟨by simpa [lateEvents, lateEvent, hp] using hlast, fun j e he => ?_⟩
          cases j with
          | zero =>
            obtain rfl : ev = e := by simpa using he
            exact fun hit => hit hp l hl hst
          | succ j =>
            have := hrest j e (by simpa using he)
            rwa [Nat.add_assoc, Nat.add_comm 1 j] at this
      · refine .inl ⟨(lateEvent env t i l o ev).2.2, List.mem_cons_self, ?_⟩
        simpa [lateEvent, hp] using hst
    · refine .inl ⟨(lateEvent env t i l o ev).2.2, List.mem_cons_self, ?_⟩
      simp [lateEvent, hp]

/-- If the second loop goes over an event that ceases to be pending, then some event
    ceases to be pending. -/
theorem lateThreads_hits {o : Objects} {xs : List (τ × List (Event τ))} {x : τ × List (Event τ)}
    {ev : Event τ} (hI : Stable env I) (hl : I l) (hx : x ∈ xs) (hev : x.2[i]? = some ev)
    (hit : Hit env I x.1 i ev) :
    ∃ y ∈ lateThreads env l o xs, ∃ ev ∈ y.2, ev.evStatus ≠ .pending := by
  induction xs generalizing l o with
  | nil => simp at hx
  | cons z xs ih =>
    rcases lateEvents_hits (t := z.1) (i := 0) o z.2 hI hl with he | ⟨hl', hno⟩
    · exact ⟨_, List.mem_cons_self, he⟩
    · rcases List.mem_cons.mp hx with rfl | hx
      · exact absurd (by simpa using hit) (hno i ev hev)
      · obtain ⟨y, hy, he⟩ := ih (o := (lateEvents env z.1 0 l o z.2).2.1) hl' hx
        exact ⟨y, List.mem_cons_of_mem _ hy, he⟩

theorem Cleaned.hits {ts : List τ} {ev : Event τ} (hc : Cleaned env l s ts s')
    (hI : Stable env I) (hl : I l) (hev : s.Has ts t i ev) (hit : Hit env I t i ev) :
    ∃ u ∈ ts, Due (s'.tcb u) := by
  have hx : (t, (s.tcb t).events) ∈ ts.map fun t => (t, (s.tcb t).events) :=
    List.mem_map_of_mem hev.1
  obtain ⟨y, hy, ev', hev', hne⟩ := lateThreads_hits (o := s.objects) hI hl hx hev.2 hit
  rw [← hc.events, List.mem_map] at hy
  obtain ⟨u, hu, rfl⟩ := hy
  exact ⟨u, hu, .inl ⟨ev', hev', hne⟩⟩

/-! ## Reasons to wake up -/

theorem test_of_bit {x : FdSets} {goal : FdGoal} {k : FdKind} {d : ℕ} (hg : goal.asks k)
    (hd : x.bit k d) : x.test goal d = true := by
  cases k <;> simp_all [FdGoal.asks, FdSets.bit, FdSets.test]

theorem select_bit {n : Option ℤ} {nfd : ℤ} {rfds wfds efds : Option FdSet} {k : FdKind} {d : ℕ} :
    (EventArgs.select n nfd rfds wfds efds : EventArgs τ).fds.bit k d = true ↔
      (d : ℤ) < nfd ∧ (FdSets.ofSelect rfds wfds efds).bit k d := by
  cases k <;> simp [EventArgs.fds, FdSets.bit, fdsMerge, FdSets.zero, FdSets.ofSelect]

theorem fdsTest_of_bit {x y : FdSets} {nfd : ℤ} {k : FdKind} {d : ℕ} (hd : (d : ℤ) < nfd)
    (hx : x.bit k d) (hy : y.bit k d) : fdsTest nfd x y = true := by
  simp only [fdsTest, List.any_eq_true, List.mem_range]
  refine ⟨d, by omega, ?_⟩
  cases k <;> simp_all [FdSets.bit]

/-- A descriptor is ready. -/
theorem ready_hit {S : FdSets} {ev : Event τ} {k : FdKind} {d : ℕ}
    (hev : ev.evArgs.fds.bit k d) (hd : S.bit k d) :
    Hit env (fun l => 0 < l.rc ∧ l.sets = S) t i ev := by
  rintro - l ⟨-, rfl⟩
  cases hargs : ev.evArgs with
  | fd goal d' =>
    obtain ⟨hg, rfl⟩ : goal.asks k ∧ d = d' := by simpa [hargs, EventArgs.fds] using hev
    simp [lateArgs, test_of_bit hg hd]
  | select n nfd rfds wfds efds =>
    rw [hargs, select_bit] at hev
    simp [lateArgs, fdsTest_of_bit hev.1 hev.2 hd]
  | _ => simp [hargs, EventArgs.fds] at hev

/-- A descriptor is bad: checked on its own, the event fails. -/
theorem failed_hit {ev : Event τ} {k : FdKind} {d pipe : ℕ} {bad : ℕ → Prop} {req : SelectReq}
    (hok : env.Selects bad pipe req) (hev : ev.evArgs.fds.bit k d) (hd : bad d) :
    Hit env (fun l => l.rc < 0) t i ev := by
  rintro - l hrc
  cases hargs : ev.evArgs with
  | fd goal d' =>
    obtain ⟨hg, rfl⟩ : goal.asks k ∧ d = d' := by simpa [hargs, EventArgs.fds] using hev
    have hfail := (hok.recheck t i
      { nfds := d + 1, sets := l.sets.add goal d, timeout := some .zero,
        catches := fun _ => false } (by simp)).error.mpr
      ⟨k, d, by dsimp only; omega, by simp [hg], hd⟩
    simp only [lateArgs, if_pos hrc, if_neg (Int.not_lt.mpr (Int.le_of_lt hfail)), if_pos hfail]
    split <;> simp
  | select n nfd rfds wfds efds =>
    rw [hargs, select_bit] at hev
    have hfail := (hok.recheck t i
      { nfds := nfd + 1, sets := .ofSelect rfds wfds efds, timeout := some .zero,
        catches := fun _ => false } (by simp)).error.mpr
      ⟨k, d, by dsimp only; omega, hev.2, hd⟩
    simp only [lateArgs, if_pos hrc, if_pos hfail]
    split <;> simp
  | _ => simp [hargs, EventArgs.fds] at hev

/-- A signal has been caught. -/
theorem raised_hit {ev : Event τ} {n : ℕ} (hn : n ∈ signals) (hev : ev.evArgs.awaits n) :
    Hit env (fun l => l.raised n) t i ev := by
  rintro - l hraised
  cases hargs : ev.evArgs with
  | sigs sigs sig =>
    have hmem : n ∈ signals.filter fun n => sigs n && l.raised n := by
      simpa [hn, hraised, hargs, EventArgs.awaits] using hev
    have hne : (signals.filter fun n => sigs n && l.raised n).isEmpty = false := by
      simpa using List.ne_nil_of_mem hmem
    simp [lateArgs, hne]
  | _ => simp [hargs, EventArgs.awaits] at hev

/-! ## A pass that has waited -/

section

variable [DecidableEq τ] {a : QId → List (τ × ℤ)} {bad : ℕ → Prop} {s₁ : Sched τ} {sc : Scan τ}

omit [DecidableEq τ] in
/-- A descriptor of the request is the signal pipe or one that an event waits for. -/
theorem mergedReq_bit {dopoll : Bool} {k : FdKind} {d : ℕ}
    (h : (s.mergedReq sc dopoll).sets.bit k d) :
    sc.sets.bit k d ∨ (k = .read ∧ d = s.sigpipe) := by
  cases k with
  | read =>
    by_cases hd : d = s.sigpipe
    · exact .inr ⟨rfl, hd⟩
    · exact .inl (by simpa [mergedReq, FdSets.bit, hd] using h)
  | _ => exact .inl h

theorem elapse_poll (rc : ℤ) : s.elapse sc true rc = (false, s) := by
  unfold elapse
  split <;> simp

/-- The timer is left alone if there is something else. -/
theorem elapse_ne {rc : ℤ} {dopoll : Bool} (h : rc ≠ 0) : s.elapse sc dopoll rc = (false, s) := by
  unfold elapse
  split <;> simp [h]

/-- After the sleep there is an event that the second loop takes from the pending
    ones. -/
theorem sleep_hits {ts : List τ} (hok : env.Selects bad s.sigpipe (s.mergedReq sc false))
    (hcol : Collected s.snapshot (s.Has ts) (∃ u ∈ ts, (s.tcb u).cancelreq) sc)
    (hocc : sc.anyOccurred = false) (hrep : (sleep env s sc false).1 = false) :
    ∃ t i ev I, (sleep env s sc false).2.1.Has ts t i ev ∧ Hit env I t i ev ∧ Stable env I ∧
      I (sleep env s sc false).2.2 := by
  have hsleep : sleep env s sc false =
      let res := env.select .merged (s.mergedReq sc false)
      ((s.elapse sc false res.rc).1, (s.elapse sc false res.rc).2, s.adjust false res) := by
    simp [sleep, hocc]
  rw [hsleep] at hrep ⊢
  dsimp only at hrep ⊢
  rcases Int.lt_trichotomy (env.select .merged (s.mergedReq sc false)).rc 0 with hrc | hrc | hrc
  · -- a bad descriptor, which is not the pipe
    obtain ⟨k, d, -, hbit, hbad⟩ := hok.merged.error.mp hrc
    rcases mergedReq_bit hbit with hbit | ⟨-, rfl⟩
    · obtain ⟨-, t, i, ev, hev, -, hfds⟩ := hcol.bits k d hbit
      refine ⟨t, i, ev, _, ?_, failed_hit hok hfds hbad, ?_, ?_⟩
      · rw [elapse_ne (Int.ne_of_lt hrc)]
        exact hev
      · intro t i l args hl _
        rw [lateArgs_rc]
        exact hl
      · have hpos : ¬ (env.select .merged (s.mergedReq sc false)).rc > 0 := by omega
        simpa [adjust, hpos] using hrc
    · exact absurd hbad hok.pipe
  · -- the timer of an event, and not one of a function event
    obtain ⟨x, hx⟩ : ∃ x, sc.nexttimer = some x := by
      have htime := hok.merged.timeout hrc
      cases hx : sc.nexttimer with
      | none => simp [mergedReq, hx] at htime
      | some x => exact ⟨x, rfl⟩
    obtain ⟨ev, hev, -, -⟩ := hcol.timer x hx
    have hfunc : x.isFunc = false := by
      cases hfunc : x.isFunc with
      | false => rfl
      | true => simp [elapse, hx, hrc, hfunc] at hrep
    refine ⟨x.thread, x.index, { ev with evStatus := .occurred }, fun _ => True, ⟨hev.1, ?_⟩,
      fun hpend => by simp at hpend, fun _ _ _ _ _ _ => trivial, trivial⟩
    simp [elapse, hx, hrc, hfunc, tagOccurred, hev.2]
  · rw [elapse_ne (Int.ne_of_gt hrc)]
    cases hpipe : (env.select .merged (s.mergedReq sc false)).sets.r s.sigpipe with
    | true =>
      -- a signal has been caught
      obtain ⟨n, hcatch, hraised⟩ := hok.signal hrc hpipe
      obtain ⟨hn, hocc' | ⟨t, i, ev, hev, -, hawaits⟩⟩ := hcol.catches n hcatch
      · simp [hocc] at hocc'
      · refine ⟨t, i, ev, _, hev, raised_hit hn hawaits, ?_, hraised⟩
        intro t i l args hl hp
        rw [lateArgs_raised args hp]
        exact hl
    | false =>
      -- a descriptor is ready, and it is not the pipe
      obtain ⟨k, d, hbit⟩ := hok.merged.ready hrc
      rcases mergedReq_bit (hok.merged.passed hrc k d hbit) with hreq | ⟨rfl, rfl⟩
      · obtain ⟨-, t, i, ev, hev, -, hfds⟩ := hcol.bits k d hreq
        refine ⟨t, i, ev, _, hev, ready_hit hfds hbit, ?_, ?_⟩
        · intro t i l args hl _
          rw [lateArgs_rc, lateArgs_sets args hl.1]
          exact hl
        · simp [adjust, hpipe, hrc, Int.not_le.mpr hrc]
      · simp [FdSets.bit, hpipe] at hbit

/-- What `select(2)` answers in the pass. -/
def SelectsOk (s : Sched τ) (env : Env τ) (dopoll : Bool) : Prop :=
  ∀ s₁ sc, scan env s = some (s₁, sc) →
    ∃ bad, env.Selects bad s.sigpipe (s₁.mergedReq sc (dopoll || sc.anyOccurred))

theorem eventmanager_wakes_some (h : s.queues.Repr a) (hok : s.SelectsOk env false)
    (hs : s.eventmanager env false = some (false, s')) : ∃ t ∈ keys (a .WQ), Due (s'.tcb t) := by
  obtain ⟨⟨s₁, sc⟩, hscan, -⟩ := Option.bind_eq_some_iff.mp hs
  obtain ⟨bad, hok⟩ := hok s₁ sc hscan
  obtain ⟨hrep, -, hc, hp, -⟩ := (eventmanager_cleaned h hscan false).of_eq_some hs
  have hnd : (s.queues.threads .WQ).Nodup := h.threads_nodup
  have hcol := scan_collected hscan hnd
  have hsc := (scanThreads_scanned hscan).1
  rw [h.threads, ← hsc.snapshot] at hcol
  cases hocc : sc.anyOccurred with
  | true =>
    rcases hcol.anyOccurred hocc with ⟨t, ht, hreq⟩ | ⟨t, i, ev, hev, hne⟩
    · exact ⟨t, ht, .inr (by rw [hp.cancelreq]; exact (hsc.tcb t).cancelreq ▸ hreq)⟩
    · -- the pass only polls, which leaves the events as they are
      have hpoll : (sleep env s₁ sc false).2.1 = s₁ := by simp [sleep, hocc, elapse_poll]
      have hit : Hit env (fun _ => True) t i ev := fun hpend => absurd hpend hne
      rw [← hpoll] at hev
      exact hc.hits (fun _ _ _ _ _ _ => trivial) trivial hev hit
  | false =>
    rw [hocc, Bool.or_false, ← hsc.sigpipe] at hok
    obtain ⟨t, i, ev, I, hev, hit, hI, hl⟩ := sleep_hits hok hcol hocc hrep.symm
    exact hc.hits hI hl hev hit

end

/-! ## Runs -/

/-- There are ready or new threads. -/
def Stocked (s : Sched τ) : Prop := s.queues.elements .RQ ≠ 0 ∨ s.queues.elements .NQ ≠ 0

theorem stocked_iff {a : QId → List (τ × ℤ)} (h : s.queues.Repr a) :
    s.Stocked ↔ ∃ t, t ∈ keys (a .RQ) ∨ t ∈ keys (a .NQ) := by
  have hne : ∀ k, s.queues.elements k ≠ 0 ↔ ∃ t, t ∈ keys (a k) := by
    intro k
    rw [h.elements]
    cases a k with
    | nil => simp
    | cons e l =>
      simp only [List.length_cons, PrioList.keys_cons, List.mem_cons]
      exact ⟨fun _ => ⟨e.1, .inl rfl⟩, fun _ => by omega⟩
  rw [Stocked, hne, hne, exists_or]

theorem polls_iff : s.polls = true ↔ s.Stocked := by
  simp [polls, Stocked, Classical.or_iff_not_imp_left]

theorem stocked_eventmanager [DecidableEq τ] {a : QId → List (τ × ℤ)} {dopoll : Bool}
    (h : s.queues.Repr a) (hok : s.SelectsOk env dopoll) (hstock : dopoll = true → s.Stocked)
    (hs : s.eventmanager env dopoll = some (false, s')) : s'.Stocked := by
  obtain ⟨⟨s₁, sc⟩, hscan, -⟩ := Option.bind_eq_some_iff.mp hs
  obtain ⟨-, h', -, -, -⟩ := (eventmanager_cleaned h hscan dopoll).of_eq_some hs
  rw [stocked_iff h']
  cases dopoll with
  | false =>
    obtain ⟨t, ht, hdue⟩ := eventmanager_wakes_some h hok hs
    exact ⟨t, .inl (mem_rearranged.mpr (.inr ⟨rfl, ht, hdue⟩))⟩
  | true =>
    obtain ⟨t, ht | ht⟩ := (stocked_iff h).mp (hstock rfl)
    · exact ⟨t, .inl (mem_rearranged.mpr (.inl ⟨ht, by simp⟩))⟩
    · exact ⟨t, .inr ht⟩

/-- The scheduler finds a thread to run. -/
theorem Stocked.head_ne_none {a : QId → List (τ × ℤ)} (hstock : s.Stocked)
    (h : s.queues.Repr a) : (keys (drained s.favournew a .RQ)).head? ≠ none := by
  obtain ⟨t, ht⟩ := (stocked_iff h).mp hstock
  have hmem : t ∈ keys (drained s.favournew a .RQ) := by
    simp only [drained, Function.update_self, mem_welcome, List.mem_reverse]
    exact ht.symm
  rw [Ne, List.head?_eq_none_iff]
  exact List.ne_nil_of_mem hmem

end Sched

namespace Run

variable {τ : Type*} [DecidableEq τ] {r r' : Run τ}

/-- If the operation is a pass of the event manager, `select(2)` behaves in it. -/
def SelectsOk (r : Run τ) (op : Op τ) : Prop :=
  ∀ env dopoll, op = .manage env → r.phase = .manager dopoll → r.lib.SelectsOk env dopoll

/-- Behind a pass, and in one that only polls, there are threads to schedule. -/
structure Supplied (r : Run τ) : Prop where
  inv : r.Inv
  polls : r.phase = .manager true → r.lib.Stocked
  top : r.phase = .top → r.lib.Stocked
  aborted : r.phase ≠ .aborted

theorem Supplied.init (h : r.init) : r.Supplied := by
  have hph : r.phase = .running := by
    obtain ⟨-, -, -, -, -, -, -, hph⟩ := h
    exact hph
  exact ⟨.init h, by simp [hph], by simp [hph], by simp [hph]⟩

theorem Supplied.step {op : Op τ} {o : Out τ} (h : r.Supplied) (hP : r.SelectsOk op)
    (hs : machine.Step r op o r') : r'.Supplied := by
  have heff := h.inv.step hs
  have hinv := heff.inv h.inv
  cases heff with
  | comeback =>
    exact ⟨hinv, fun hph => Sched.polls_iff.mp (by simpa using hph), by simp, by simp⟩
  | @manage env dopoll b s a hph hm ha =>
    cases b with
    | true => exact ⟨hinv, by simp, by simp, by simp⟩
    | false =>
      have hstock := Sched.stocked_eventmanager ha.repr (hP env dopoll rfl hph)
        (fun hd => h.polls (hd ▸ hph)) hm
      exact ⟨hinv, fun _ => hstock, fun _ => hstock, by simp⟩
  | @dispatch s a a' hph ha _ hcur =>
    have hsome : s.pthCurrent ≠ none := hcur ▸ (h.top hph).head_ne_none ha.repr
    exact ⟨hinv, by simp [hsome], by simp [hsome], by simp [hsome]⟩
  | call hrun hc hcalm hst hcons hph =>
    rcases hph with rfl | rfl <;> exact ⟨hinv, by simp, by simp, by simp⟩
  | _ => exact ⟨hinv, by simp_all, by simp_all, by simp_all⟩

/-- Whenever the event manager returns after it has waited, there is a thread to run,
    so the scheduler never gives up because there is none. -/
theorem scheduler_never_aborts (h : machine.Reach SelectsOk r) :
    (∀ env s', r.phase = .manager false → r.lib.SelectsOk env false →
      r.lib.eventmanager env false = some (false, s') → s'.Stocked) ∧
    r.phase ≠ .aborted := by
  have hsup : r.Supplied := h.invariant (I := Supplied) (fun _ => Supplied.init)
    fun _ _ _ _ hI hP hs => hI.step hP hs
  refine ⟨fun env s' hph hok hs => ?_, hsup.aborted⟩
  obtain ⟨a, ha⟩ := hsup.inv.together (by simp [hph, Phase.holds])
  exact Sched.stocked_eventmanager ha.repr hok (by simp) hs

/-- The main thread, which is alone, waits for one second. -/
theorem scheduler_never_aborts_timer : ∃ (r : Run (Fin 2)) (s' : Sched (Fin 2)),
    machine.Reach SelectsOk r ∧ r.lib.eventmanager Sched.quiet false = some (false, s') ∧
    s'.Stocked ∧ r.phase ≠ .aborted := by
  have hboot : machine.Reach (fun _ op => ¬ (op matches .manage _))
      (boot (Sched.blank (0 : Fin 2)) 0 1 .zero) := boot_reach _ _ _ _ (by decide)
  obtain ⟨r, hr, hph, htime, hpass⟩ := hboot.play
    (l := [.wait [{ evStatus := .pending, evArgs := .time { tvSec := 1, tvUsec := 0 } }],
      .comeback .zero .intact fun _ => false])
    (p := fun r => r.phase = .manager false ∧
      (Sched.scan Sched.quiet r.lib).any
        (fun x => (x.1.mergedReq x.2 x.2.anyOccurred).timeout.isSome) ∧
      (r.lib.eventmanager Sched.quiet false).map Prod.fst = some false) (by decide)
  have hreach : machine.Reach SelectsOk r := by
    refine hr.mono fun r op hop env dopoll hm _ => ?_
    simp [hm] at hop
  obtain ⟨⟨_, s'⟩, hs', rfl⟩ := Option.map_eq_some_iff.mp hpass
  have hok : r.lib.SelectsOk Sched.quiet false := by
    intro s₁ sc hscan
    rw [hscan] at htime
    refine ⟨fun _ => False, ⟨by simp [Sched.quiet], by simp [Sched.quiet], by simp [Sched.quiet],
      fun _ => ?_⟩, by simp [Sched.quiet], fun t i req hreq => ?_, id⟩
    · simpa [Option.isSome_iff_ne_none] using htime
    · exact ⟨by simp [Sched.quiet], by simp [Sched.quiet], by simp [Sched.quiet], fun _ => hreq⟩
  exact ⟨r, s', hreach, hs', (scheduler_never_aborts hreach).1 _ s' hph hok hs',
    (scheduler_never_aborts hreach).2⟩

end Run

end Pth
