-- SUMMARY: Timed waits for a condition variable: when a wait that times out has used up a signal.
import Pth.Sched.CondEvents
import Pth.Sched.Timers

/-!
# Timed waits

`pthread_cond_timedwait` waits for the condition variable and a time point in one event ring,
and returns `ETIMEDOUT` if the event of the time point has occurred. The first loop of a pass
looks at both events and may tag both. -/

namespace Pth

open PrioList (keys)

variable {τ : Type*}

/-- The ring of `pth_cond_await` in `pthread_cond_wait`, and with a time point in
    `pthread_cond_timedwait`, by the statuses of its events. -/
def condRing (c : ℕ) (abstime : Option Time) (st st' : Status) : List (Event τ) :=
  ⟨st, .cond c⟩ :: (abstime.map fun tv => ⟨st', .time tv⟩).toList

/-- The ring that `pth_cond_await` gives to `pth_wait`. -/
def waitRing (c : ℕ) (abstime : Option Time) : List (Event τ) :=
  condRing c abstime .pending .pending

/-- The end of `pthread_cond_timedwait` behind `pth_cond_await`, with the ring as the wait has
    left it: an error number or `OK`. -/
def timedwaitReturn (ring : List (Event τ)) : Option Errno :=
  if ring.any fun ev => ev.evStatus = .occurred && (ev.evArgs matches .time _) then
    some .ETIMEDOUT
  else none

namespace Sched

variable {s s' s₁ s₂ : Sched τ} {env : Env τ} {t : τ} {i c : ℕ} {sc sc' : Scan τ}
  {ev ev' : Event τ} {tv now : Time}

/-! ## Time points and condition variables in a pass -/

/-- What the first loop makes of a pending event of one of the two kinds, up to the variables
    `sc`. -/
structure Looked (now : Time) (ev : Event τ) (sc : Scan τ) (ev' : Event τ) : Prop where
  noticed : ev'.evStatus = .occurred → sc.anyOccurred = true
  time : ∀ tv, ev.evArgs = .time tv →
    ev' = ⟨if tv.cmp now < 0 then .occurred else .pending, .time tv⟩
  cond : ∀ c, ev.evArgs = .cond c → ∃ st, ev' = ⟨st, .cond c⟩ ∧ (st = .pending ∨ st = .occurred)

section

variable [DecidableEq τ]

theorem scanEvent_looked (hp : ev.evStatus = .pending)
    (h : s.scanEvent env t i sc ev = some (s', sc', ev')) :
    (sc.anyOccurred = true → sc'.anyOccurred = true) ∧ Looked s.snapshot ev sc' ev' := by
  unfold scanEvent at h
  rw [if_pos hp] at h
  obtain ⟨⟨b, s₁, sc₁, args⟩, hargs, h⟩ := Option.map_eq_some_iff.mp h
  have hany := (scanArgs_gathers hargs).anyOccurred
  have htime : ∀ tv, ev.evArgs = .time tv → b = decide (tv.cmp s.snapshot < 0) ∧
      args = .time tv := by
    intro tv htv
    rw [htv] at hargs
    by_cases hcmp : tv.cmp s.snapshot < 0
    · obtain ⟨rfl, -, -, rfl⟩ : true = b ∧ s = s₁ ∧ sc = sc₁ ∧ .time tv = args := by
        simpa [scanArgs, hcmp] using hargs
      simp [hcmp]
    · obtain ⟨rfl, -, -, rfl⟩ : false = b ∧ s = s₁ ∧ _ = sc₁ ∧ .time tv = args := by
        simpa [scanArgs, hcmp] using hargs
      simp [hcmp]
  have hcond : ∀ c, ev.evArgs = .cond c → args = .cond c := by
    intro c hc
    obtain ⟨hkind, -, -⟩ := scanArgs_cond (c := c) hargs
    rw [hc] at hkind
    exact EventArgs.onCond_eq_some.mp hkind
  cases b with
  | true =>
    obtain ⟨-, rfl, rfl⟩ : s₁ = s' ∧ { sc₁ with anyOccurred := true } = sc' ∧
      ⟨.occurred, args⟩ = ev' := by simpa using h
    refine ⟨fun _ => rfl, fun _ => rfl, fun tv htv => ?_, fun c hc => ?_⟩
    · obtain ⟨hb, rfl⟩ := htime tv htv
      rw [if_pos (of_decide_eq_true hb.symm)]
    · exact ⟨.occurred, by rw [hcond c hc], .inr rfl⟩
  | false =>
    obtain ⟨-, rfl, rfl⟩ : s₁ = s' ∧ sc₁ = sc' ∧ ⟨.pending, args⟩ = ev' := by simpa using h
    refine ⟨fun hocc => hany.trans hocc, by simp, fun tv htv => ?_, fun c hc => ?_⟩
    · obtain ⟨hb, rfl⟩ := htime tv htv
      rw [if_neg (of_decide_eq_false hb.symm)]
    · exact ⟨.pending, by rw [hcond c hc], .inl rfl⟩

/-- The first loop over all events. -/
theorem scan_looked (hnd : (s.queues.threads .WQ).Nodup) (hscan : scan env s = some (s₁, sc))
    (ht : t ∈ s.queues.threads .WQ) (hev : (s.tcb t).events[i]? = some ev)
    (hp : ev.evStatus = .pending) :
    ∃ ev', (s₁.tcb t).events[i]? = some ev' ∧ Looked s.snapshot ev sc ev' := by
  have hr : ScanRule env s (s.queues.threads .WQ) (fun _ => True)
      (fun sc sc' => sc.anyOccurred = true → sc'.anyOccurred = true) (fun _ _ ev sc r =>
        ev.evStatus = .pending → ∃ ev', r = some ev' ∧ Looked s.snapshot ev sc ev') :=
    { refl := fun _ => id
      trans := fun h h' ha => h' (h ha)
      inv := fun _ => trivial
      cancel := fun _ _ => rfl
      event := fun {_ _ ev _ _ _ _ ev'} hs _ _ _ h => by
        by_cases hp : ev.evStatus = .pending
        · obtain ⟨hany, hlooked⟩ := scanEvent_looked hp h
          rw [hs.snapshot] at hlooked
          exact ⟨hany, fun _ => ⟨ev', rfl, hlooked⟩⟩
        · unfold scanEvent at h
          rw [if_neg hp] at h
          obtain ⟨-, rfl, -⟩ : _ = _ ∧ _ = _ ∧ ev = ev' := by simpa using h
          exact ⟨id, fun hp' => absurd hp' hp⟩
      lasts := fun h hR hp => by
        obtain ⟨ev', hr, hlooked⟩ := h hp
        exact ⟨ev', hr, fun hocc => hR (hlooked.noticed hocc), hlooked.time, hlooked.cond⟩ }
  exact (hr.scan hnd trivial hscan).2 t ht i ev hev hp

/-! ## The kinds of events -/

omit [DecidableEq τ] in
theorem map_onCond {evs evs' : List (Event τ)}
    (h : List.Forall₂ (fun ev ev' => ev'.evArgs.onCond = ev.evArgs.onCond) evs evs') :
    evs'.map (·.evArgs.onCond) = evs.map (·.evArgs.onCond) := by
  have hmap : List.Forall₂ (· = ·) (evs'.map (·.evArgs.onCond)) (evs.map (·.evArgs.onCond)) := by
    rw [List.forall₂_map_left_iff, List.forall₂_map_right_iff]
    exact h.flip
  rwa [List.forall₂_eq_eq_eq] at hmap

omit [DecidableEq τ] in
theorem lateEvent_onCond {l : Late} {o : Objects} (ev : Event τ) :
    (lateEvent env t i l o ev).2.2.evArgs.onCond = ev.evArgs.onCond := by
  unfold lateEvent
  split
  · cases ev.evArgs with
    | fd goal fd =>
      simp only [lateArgs]
      split
      · rfl
      · split
        · split
          · rfl
          · split <;> rfl
        · rfl
    | select n nfd rfds wfds efds =>
      simp only [lateArgs]
      split
      · rfl
      · split <;> rfl
    | sigs sigs sig =>
      simp only [lateArgs]
      split <;> rfl
    | _ => rfl
  · rfl

omit [DecidableEq τ] in
theorem lateEvents_onCond {l : Late} {o : Objects} (evs : List (Event τ)) :
    List.Forall₂ (fun ev ev' => ev'.evArgs.onCond = ev.evArgs.onCond) evs
      (lateEvents env t i l o evs).2.2 := by
  induction evs generalizing i l o with
  | nil => exact .nil
  | cons ev evs ih => exact .cons (lateEvent_onCond ev) ih

/-- Events of condition variables are so before and after a pass. -/
theorem eventmanager_onCond {a : QId → List (τ × ℤ)} {dopoll b : Bool} (h : s.queues.Repr a)
    (hs : s.eventmanager env dopoll = some (b, s')) (ht : t ∈ s.queues.threads .WQ) :
    (s'.tcb t).events.map (·.evArgs.onCond) = (s.tcb t).events.map (·.evArgs.onCond) := by
  obtain ⟨⟨s₁, sc⟩, hscan, -⟩ := Option.bind_eq_some_iff.mp hs
  obtain ⟨-, -, hc, -, -⟩ := (eventmanager_cleaned h hscan dopoll).of_eq_some hs
  have hnd : (s.queues.threads .WQ).Nodup := h.threads_nodup
  obtain ⟨s₀, sc₀, s₂, sc₂, -, hevs⟩ := scanThreads_events hscan ht hnd
  have htick := sleep_ticked hscan hnd dopoll t
  obtain ⟨l, o, hlate⟩ := hc.late (h.threads ▸ ht)
  rw [hlate, map_onCond (lateEvents_onCond _)]
  refine (map_onCond (htick.imp fun ev ev' hev => ?_)).trans
    (map_onCond (scanEvents_cond hevs 0).2.2)
  rcases hev with rfl | ⟨tv, htv, htv'⟩
  · rfl
  · rw [htv, htv']

/-! ## The ring of a waiter -/

/-- The event of a condition variable keeps its kind and may be tagged. -/
theorem eventmanager_cond_event {a : QId → List (τ × ℤ)} {dopoll b : Bool} (h : s.queues.Repr a)
    (hs : s.eventmanager env dopoll = some (b, s')) (ht : t ∈ s.queues.threads .WQ)
    (hev : (s.tcb t).events[i]? = some ⟨.pending, .cond c⟩) :
    ∃ st, (s'.tcb t).events[i]? = some ⟨st, .cond c⟩ ∧ (st = .pending ∨ st = .occurred) := by
  obtain ⟨⟨s₁, sc⟩, hscan, -⟩ := Option.bind_eq_some_iff.mp hs
  obtain ⟨-, -, hc, -, -⟩ := (eventmanager_cleaned h hscan dopoll).of_eq_some hs
  have hnd : (s.queues.threads .WQ).Nodup := h.threads_nodup
  obtain ⟨ev', hev', hlooked⟩ := scan_looked hnd hscan ht hev rfl
  obtain ⟨st, rfl, hst⟩ := hlooked.cond c rfl
  have hkept := condKept_ticked (sleep_ticked hscan hnd dopoll t)
  have hcond : (EventArgs.cond c : EventArgs τ).onCond ≠ none := by
    simp [EventArgs.onCond]
  refine ⟨st, hc.plain ⟨h.threads ▸ ht, hkept.getElem? hev' hcond⟩ fun l o => ?_, hst⟩
  exact (lateEvent_cond c _).1 hcond

/-- The first loop has seen an event occur if it has tagged a waiter. -/
theorem anyOccurred_of_tagged {a : QId → List (τ × ℤ)} {dopoll b : Bool} (h : s.queues.Repr a)
    (hscan : scan env s = some (s₁, sc)) (hs : s.eventmanager env dopoll = some (b, s')) {c : ℕ}
    (hne : tagged c s s' (s.queues.threads .WQ) ≠ []) : sc.anyOccurred = true := by
  have hnd : (s.queues.threads .WQ).Nodup := h.threads_nodup
  rw [(eventmanager_cond h hs c).1, ← (scanThreads_cond hscan hnd c).1] at hne
  obtain ⟨⟨u, j⟩, hmem⟩ := List.exists_mem_of_ne_nil _ hne
  simp only [tagged, List.mem_flatMap, List.mem_map, Prod.mk.injEq] at hmem
  obtain ⟨u, hu, j, hj, rfl, rfl⟩ := hmem
  obtain ⟨k, ev, ev', -, hev, hev', hasks, hocc⟩ := mem_taggedFrom.mp hj
  obtain ⟨ev₁, hev₁, hlooked⟩ := scan_looked hnd hscan hu hev (Event.asks_iff.mp hasks).1
  obtain rfl : ev₁ = ev' := Option.some.inj (hev₁.symm.trans hev')
  exact hlooked.noticed hocc

/-- The event of a time point is tagged if the time has passed, and otherwise at most after a
    sleep, which there is only if nothing else has been tagged. -/
theorem eventmanager_time_event {a : QId → List (τ × ℤ)} {dopoll b : Bool} (h : s.queues.Repr a)
    (hs : s.eventmanager env dopoll = some (b, s')) (ht : t ∈ s.queues.threads .WQ)
    (hev : (s.tcb t).events[i]? = some ⟨.pending, .time tv⟩) :
    ∃ st, (s'.tcb t).events[i]? = some ⟨st, .time tv⟩ ∧ (st = .pending ∨ st = .occurred) ∧
      (tv.cmp s.snapshot < 0 → st = .occurred) ∧
      (st = .occurred →
        tv.cmp s.snapshot < 0 ∨ ∀ c, tagged c s s' (s.queues.threads .WQ) = []) := by
  obtain ⟨⟨s₁, sc⟩, hscan, -⟩ := Option.bind_eq_some_iff.mp hs
  obtain ⟨-, -, hc, -, -⟩ := (eventmanager_cleaned h hscan dopoll).of_eq_some hs
  have hnd : (s.queues.threads .WQ).Nodup := h.threads_nodup
  obtain ⟨ev', hev', hlooked⟩ := scan_looked hnd hscan ht hev rfl
  obtain rfl := hlooked.time tv rfl
  by_cases hcmp : tv.cmp s.snapshot < 0
  · rw [if_pos hcmp] at hev'
    have hslept := sleep_tagged env sc dopoll hev' rfl
    exact ⟨.occurred, hc.plain ⟨h.threads ▸ ht, hslept⟩ fun l o => lateEvent_time _ rfl, .inr rfl,
      fun _ => rfl, fun _ => .inl hcmp⟩
  · rw [if_neg hcmp] at hev'
    obtain ⟨st, hslept, hst⟩ := sleep_time env sc dopoll hev'
    refine ⟨st, hc.plain ⟨h.threads ▸ ht, hslept⟩ fun l o => lateEvent_time _ rfl, hst,
      fun hlt => absurd hlt hcmp, ?_⟩
    rintro rfl
    obtain ⟨hpoll, -⟩ := elapse_occurs hev' hslept
    refine .inr fun c => by_contra fun hne => ?_
    simp [anyOccurred_of_tagged h hscan hs hne] at hpoll

end

/-! ## Waiters -/

/-- The thread waits for the condition variable `c`. -/
def waitsOn (s : Sched τ) (c : ℕ) (t : τ) : Bool := (s.tcb t).events.any (·.asks c)

/-- The time point the thread waits for has passed. -/
def expired (s : Sched τ) (t : τ) : Bool :=
  (s.tcb t).events.any fun ev =>
    match ev.evArgs with
    | .time tv => tv.cmp s.snapshot < 0
    | _ => false

theorem waitsOn_waitRing {abstime : Option Time} {d : ℕ}
    (h : (s.tcb t).events = waitRing c abstime) : s.waitsOn d t = decide (c = d) := by
  cases abstime <;> simp [waitsOn, h, waitRing, condRing, Event.asks, EventArgs.onCond]

theorem askingFrom_waitRing {abstime : Option Time} :
    askingFrom c 0 (waitRing c abstime : List (Event τ)) = [0] := by
  cases abstime <;> simp [askingFrom, waitRing, condRing, Event.asks, EventArgs.onCond]

theorem taggedFrom_condRing (abstime : Option Time) (st st' : Status) :
    0 ∈ taggedFrom c 0 (waitRing c abstime) (condRing c abstime st st' : List (Event τ)) ↔
      st = .occurred := by
  cases abstime <;> simp [taggedFrom, waitRing, condRing, Event.asks, EventArgs.onCond]

theorem timedwaitReturn_condRing {abstime : Option Time} {st st' : Status} :
    timedwaitReturn (condRing c abstime st st' : List (Event τ)) = some .ETIMEDOUT ↔
      abstime.isSome ∧ st' = .occurred := by
  cases abstime <;> simp [timedwaitReturn, condRing]

theorem askingFrom_eq_nil {evs : List (Event τ)} (h : evs.any (·.asks c) = false) :
    askingFrom c i evs = [] := by
  induction evs generalizing i with
  | nil => rfl
  | cons ev evs ih =>
    rw [List.any_cons, Bool.or_eq_false_iff] at h
    simp [askingFrom, h.1, ih h.2]

theorem asking_eq_filter {ts : List τ}
    (h : ∀ t ∈ ts, s.waitsOn c t = true → ∃ abstime, (s.tcb t).events = waitRing c abstime) :
    asking c s ts = (ts.filter (s.waitsOn c)).map fun t => (t, 0) := by
  induction ts with
  | nil => rfl
  | cons t ts ih =>
    change (askingFrom c 0 (s.tcb t).events).map (fun i => (t, i)) ++ asking c s ts = _
    rw [ih fun u hu => h u (.tail _ hu)]
    cases hw : s.waitsOn c t with
    | false => simp [hw, askingFrom_eq_nil hw]
    | true =>
      obtain ⟨abstime, hring⟩ := h t List.mem_cons_self hw
      simp [hw, hring, askingFrom_waitRing]

section

variable [DecidableEq τ] {a : QId → List (τ × ℤ)} {dopoll b : Bool}

/-- The queues are well-formed, and every thread of the waiting queue waits for events that are
    all pending; for a condition variable it waits in `pthread_cond_wait` or
    `pthread_cond_timedwait`. -/
structure Waiting (s : Sched τ) : Prop where
  repr : ∃ a, s.queues.Repr a
  cancelreq : ∀ t ∈ s.queues.threads .WQ, (s.tcb t).cancelreq = false
  pending : ∀ t ∈ s.queues.threads .WQ, ∀ ev ∈ (s.tcb t).events, ev.evStatus = .pending
  ring : ∀ t ∈ s.queues.threads .WQ, ∀ c, s.waitsOn c t = true →
    ∃ abstime, (s.tcb t).events = waitRing c abstime

/-- A signal goes to the waiter that comes first in the waiting queue. -/
theorem Waiting.tagged (h : s.Waiting) (hh : (s.objects.cond c).handled = false)
    (hs : s.eventmanager env dopoll = some (b, s')) (hsig : (s.objects.cond c).signaled = true)
    (hb : (s.objects.cond c).broadcast = false) :
    tagged c s s' (s.queues.threads .WQ) =
      ((s.queues.threads .WQ).find? (s.waitsOn c)).toList.map fun t => (t, 0) := by
  obtain ⟨a, ha⟩ := h.repr
  rw [(eventmanager_cond ha hs c).1, CondState.hits_signal hsig hb hh,
    asking_eq_filter fun t ht => h.ring t ht c, ← List.map_take, List.take_one,
    List.head?_filter]

/-- The threads that stay in the waiting queue. -/
theorem eventmanager_threads (h : s.queues.Repr a)
    (hs : s.eventmanager env dopoll = some (b, s')) :
    (∃ a', s'.queues.Repr a') ∧ ∀ t,
      (t ∈ s'.queues.threads .WQ ↔ t ∈ s.queues.threads .WQ ∧ ¬ Due (s'.tcb t)) ∧
      (s'.tcb t).cancelreq = (s.tcb t).cancelreq ∧
      (t ∉ s.queues.threads .WQ → (s'.tcb t).events = (s.tcb t).events) := by
  obtain ⟨⟨s₁, sc⟩, hscan, -⟩ := Option.bind_eq_some_iff.mp hs
  obtain ⟨-, hr, -, hp, -⟩ := (eventmanager_cleaned h hscan dopoll).of_eq_some hs
  refine ⟨⟨_, hr⟩, fun t => ⟨?_, hp.cancelreq t, fun ht => hp.events t (h.threads ▸ ht)⟩⟩
  rw [hr.threads, h.threads, mem_rearranged]
  simp

/-- What a pass does to a waiter. -/
structure Served (s s' : Sched τ) (t : τ) (c : ℕ) (abstime : Option Time) (st st' : Status) :
    Prop where
  events : (s'.tcb t).events = condRing c abstime st st'
  cond : st = .pending ∨ st = .occurred
  time : st' = .pending ∨ st' = .occurred
  tagged : (t, 0) ∈ tagged c s s' (s.queues.threads .WQ) ↔ st = .occurred
  expired : s.expired t = true → st' = .occurred
  slept : st' = .occurred →
    s.expired t = true ∨ ∀ d, Sched.tagged d s s' (s.queues.threads .WQ) = []

theorem eventmanager_served {abstime : Option Time} (h : s.queues.Repr a)
    (hs : s.eventmanager env dopoll = some (b, s')) (ht : t ∈ s.queues.threads .WQ)
    (hring : (s.tcb t).events = waitRing c abstime) :
    ∃ st st', s.Served s' t c abstime st st' := by
  have hc : (s.tcb t).events[0]? = some ⟨.pending, .cond c⟩ := by
    rw [hring]
    rfl
  obtain ⟨st, hcond, hst⟩ := eventmanager_cond_event h hs ht hc
  have hlen := congrArg List.length (eventmanager_onCond h hs ht)
  rw [List.length_map, List.length_map, hring] at hlen
  have htagged : ∀ st', (s'.tcb t).events = condRing c abstime st st' →
      ((t, 0) ∈ tagged c s s' (s.queues.threads .WQ) ↔ st = .occurred) := by
    intro st' hevs
    rw [← taggedFrom_condRing (τ := τ) (c := c) abstime st st', ← hevs, ← hring]
    simp [tagged, ht]
  cases abstime with
  | none =>
    obtain ⟨ev, hevs⟩ := List.length_eq_one_iff.mp hlen
    obtain rfl : ev = ⟨st, .cond c⟩ := by simpa [hevs] using hcond
    exact ⟨st, .pending, hevs, hst, .inl rfl, htagged .pending hevs,
      fun hexp => by simp [expired, hring, waitRing, condRing] at hexp, by simp⟩
  | some tv =>
    have htv : (s.tcb t).events[1]? = some ⟨.pending, .time tv⟩ := by
      rw [hring]
      rfl
    obtain ⟨st', htime, hst', hdue, hslept⟩ := eventmanager_time_event h hs ht htv
    obtain ⟨ev, ev', hevs⟩ := List.length_eq_two.mp hlen
    obtain rfl : ev = ⟨st, .cond c⟩ := by simpa [hevs] using hcond
    obtain rfl : ev' = ⟨st', .time tv⟩ := by simpa [hevs] using htime
    have hexp : s.expired t = decide (tv.cmp s.snapshot < 0) := by
      simp [expired, hring, waitRing, condRing]
    refine ⟨st, st', hevs, hst, hst', htagged _ hevs, fun h => hdue ?_, fun h => ?_⟩
    · simpa [hexp] using h
    · simpa [hexp] using hslept h

variable {u : τ} {abstime : Option Time} {st st' : Status}

theorem Served.due (h : s.Served s' t c abstime st st') (hreq : (s'.tcb t).cancelreq = false) :
    Due (s'.tcb t) ↔ st = .occurred ∨ (abstime.isSome ∧ st' = .occurred) := by
  have hst : st ≠ .pending ↔ st = .occurred := by rcases h.cond with rfl | rfl <;> simp
  have hst' : st' ≠ .pending ↔ st' = .occurred := by rcases h.time with rfl | rfl <;> simp
  cases abstime <;> simp [Due, h.events, hreq, condRing, hst, hst']

/-- A pass leaves threads in the waiting queue as they wait. -/
theorem Waiting.eventmanager (h : s.Waiting) (hs : s.eventmanager env dopoll = some (b, s')) :
    s'.Waiting := by
  obtain ⟨a, ha⟩ := h.repr
  obtain ⟨hrepr, hthreads⟩ := eventmanager_threads ha hs
  have hmem : ∀ t ∈ s'.queues.threads .WQ, t ∈ s.queues.threads .WQ ∧ ¬ Due (s'.tcb t) :=
    fun t ht => (hthreads t).1.mp ht
  have hpending : ∀ t ∈ s'.queues.threads .WQ, ∀ ev ∈ (s'.tcb t).events,
      ev.evStatus = .pending := by
    intro t ht ev hev
    by_contra hne
    exact (hmem t ht).2 (.inl ⟨ev, hev, hne⟩)
  refine ⟨hrepr, fun t ht => ?_, hpending, fun t ht c hc => ?_⟩
  · rw [(hthreads t).2.1]
    exact h.cancelreq t (hmem t ht).1
  · -- the thread has waited for the same variable before
    have hwait : s.waitsOn c t = true := by
      obtain ⟨ev', hev', hasks⟩ := List.any_eq_true.mp hc
      have hkind : some c ∈ (s'.tcb t).events.map (·.evArgs.onCond) :=
        List.mem_map.mpr ⟨ev', hev', EventArgs.onCond_eq_some.mpr (Event.asks_iff.mp hasks).2⟩
      rw [eventmanager_onCond ha hs (hmem t ht).1] at hkind
      obtain ⟨ev, hev, hargs⟩ := List.mem_map.mp hkind
      exact List.any_eq_true.mpr ⟨ev, hev, Event.asks_iff.mpr
        ⟨h.pending t (hmem t ht).1 ev hev, EventArgs.onCond_eq_some.mp hargs⟩⟩
    obtain ⟨abstime, hring⟩ := h.ring t (hmem t ht).1 c hwait
    obtain ⟨st, st', hserved⟩ := eventmanager_served ha hs (hmem t ht).1 hring
    have hevs := hserved.events
    have hp := hpending t ht
    rw [hevs] at hp
    refine ⟨abstime, hevs.trans ?_⟩
    cases abstime with
    | none => simpa [waitRing, condRing] using hp
    | some tv => simpa [waitRing, condRing] using hp

/-! ## Signals that are used up -/

/-- In the pass from `s` to `s'` a signal of `c` has been marked handled and cleared for the
    event of `t`, and another waiter is still blocked. -/
def usesUp (s s' : Sched τ) (c : ℕ) (t : τ) : Bool :=
  (s.objects.cond c).signaled && !(s.objects.cond c).broadcast &&
    decide (s'.objects.cond c = .clear) &&
    (tagged c s s' (s.queues.threads .WQ)).any (fun x => x.1 = t) &&
    (s'.queues.threads .WQ).any fun u => decide (u ≠ t) && s.waitsOn c u

/-- The same for the condition variable that `t` waits for. -/
def usedUp (s s' : Sched τ) (t : τ) : Bool :=
  ((s.tcb t).events.filterMap (·.evArgs.onCond)).any fun c => s.usesUp s' c t

/-- The pass that comes next gives a signal of `c` to the thread `t` whose time point has passed,
    and `u` is a waiter that has nothing to wake up for. -/
structure Coincides (s : Sched τ) (c : ℕ) (t u : τ) : Prop where
  signaled : (s.objects.cond c).signaled = true
  broadcast : (s.objects.cond c).broadcast = false
  first : (s.queues.threads .WQ).find? (s.waitsOn c) = some t
  expired : s.expired t = true
  mem : u ∈ s.queues.threads .WQ
  ne : u ≠ t
  waits : s.waitsOn c u = true
  blocked : s.expired u = false

theorem usesUp_eq_true : s.usesUp s' c t = true ↔
    ((s.objects.cond c).signaled = true ∧ (s.objects.cond c).broadcast = false) ∧
      s'.objects.cond c = .clear ∧ (∃ i, (t, i) ∈ tagged c s s' (s.queues.threads .WQ)) ∧
      ∃ u ∈ s'.queues.threads .WQ, u ≠ t ∧ s.waitsOn c u = true := by
  simp [usesUp, and_assoc]

omit [DecidableEq τ] in
/-- An event that a pass has tagged. -/
theorem exists_of_mem_tagged {ts : List τ} (h : (t, i) ∈ tagged c s s' ts) :
    (∃ ev ∈ (s.tcb t).events, ev.asks c = true) ∧
      ∃ ev ∈ (s'.tcb t).events, ev.evStatus = .occurred := by
  simp only [tagged, List.mem_flatMap, List.mem_map, Prod.mk.injEq] at h
  obtain ⟨t, -, j, hj, rfl, rfl⟩ := h
  obtain ⟨k, ev, ev', -, hev, hev', hasks, hocc⟩ := mem_taggedFrom.mp hj
  exact ⟨⟨ev, List.mem_of_getElem? hev, hasks⟩, ev', List.mem_of_getElem? hev', hocc⟩

theorem usedUp_iff : s.usedUp s' t = true ↔ ∃ c, s.usesUp s' c t = true := by
  simp only [usedUp, List.any_eq_true, List.mem_filterMap]
  constructor
  · rintro ⟨c, -, hc⟩
    exact ⟨c, hc⟩
  · rintro ⟨c, hc⟩
    refine ⟨c, ?_, hc⟩
    obtain ⟨-, -, ⟨i, hi⟩, -⟩ := usesUp_eq_true.mp hc
    obtain ⟨⟨ev, hev, hasks⟩, -⟩ := exists_of_mem_tagged hi
    exact ⟨ev, hev, EventArgs.onCond_eq_some.mpr (Event.asks_iff.mp hasks).2⟩

/-- A time point occurs in a pass that gives somebody a signal if it has passed before. -/
theorem Served.time_iff (h : s.Served s' t c abstime st st') {d : ℕ}
    (hd : Sched.tagged d s s' (s.queues.threads .WQ) ≠ []) :
    st' = .occurred ↔ s.expired t = true := by
  refine ⟨fun hocc => ?_, h.expired⟩
  rcases h.slept hocc with hexp | hnone
  · exact hexp
  · exact absurd (hnone d) hd

omit [DecidableEq τ] in
theorem expired_isSome (hring : (s.tcb t).events = waitRing c abstime)
    (h : s.expired t = true) : abstime.isSome := by
  cases abstime with
  | none => simp [expired, hring, waitRing, condRing] at h
  | some tv => rfl

/-- A waiter that the signal does not go to stays if its time has not come. -/
theorem Waiting.stays_iff (h : s.Waiting) (hs : s.eventmanager env dopoll = some (b, s'))
    (hne : Sched.tagged c s s' (s.queues.threads .WQ) ≠ []) (ht : t ∈ s.queues.threads .WQ)
    (hwait : s.waitsOn c t = true) (hnot : (t, 0) ∉ Sched.tagged c s s' (s.queues.threads .WQ)) :
    t ∈ s'.queues.threads .WQ ↔ s.expired t = false := by
  obtain ⟨a, ha⟩ := h.repr
  obtain ⟨hmem, hreq, -⟩ := (eventmanager_threads ha hs).2 t
  obtain ⟨abstime, hring⟩ := h.ring t ht c hwait
  obtain ⟨st, st', hserved⟩ := eventmanager_served ha hs ht hring
  rw [hserved.tagged] at hnot
  rw [hmem, hserved.due (hreq.trans (h.cancelreq t ht)), hserved.time_iff hne, ← Bool.not_eq_true]
  simp only [ht, hnot, true_and, false_or]
  exact not_congr (and_iff_right_of_imp (expired_isSome hring))

/-- A waiter times out in a pass that gives somebody a signal if its time has come. -/
theorem Waiting.timedOut_iff (h : s.Waiting) (hs : s.eventmanager env dopoll = some (b, s'))
    (hne : Sched.tagged c s s' (s.queues.threads .WQ) ≠ []) (ht : t ∈ s.queues.threads .WQ)
    (hwait : s.waitsOn c t = true) :
    timedwaitReturn (s'.tcb t).events = some .ETIMEDOUT ↔ s.expired t = true := by
  obtain ⟨a, ha⟩ := h.repr
  obtain ⟨abstime, hring⟩ := h.ring t ht c hwait
  obtain ⟨st, st', hserved⟩ := eventmanager_served ha hs ht hring
  rw [hserved.events, timedwaitReturn_condRing, hserved.time_iff hne]
  exact and_iff_right_of_imp (expired_isSome hring)

/-- A pass in which a call that then times out uses up a signal. -/
theorem Waiting.usesUp_iff (h : s.Waiting) (hh : (s.objects.cond c).handled = false)
    (hs : s.eventmanager env dopoll = some (b, s')) :
    (timedwaitReturn (s'.tcb t).events = some .ETIMEDOUT ∧ s.usesUp s' c t = true) ↔
      ∃ u, s.Coincides c t u := by
  obtain ⟨a, ha⟩ := h.repr
  rw [usesUp_eq_true]
  by_cases hsig : (s.objects.cond c).signaled = true ∧ (s.objects.cond c).broadcast = false
  swap
  · exact iff_of_false (fun hf => hsig hf.2.1) fun ⟨u, hu⟩ => hsig ⟨hu.signaled, hu.broadcast⟩
  have htagged := h.tagged hh hs hsig.1 hsig.2
  cases hfind : (s.queues.threads .WQ).find? (s.waitsOn c) with
  | none =>
    rw [hfind] at htagged
    refine iff_of_false ?_ fun ⟨u, hu⟩ => ?_
    · rintro ⟨-, -, -, ⟨i, hi⟩, -⟩
      simp [htagged] at hi
    · simp [hu.first] at hfind
  | some t₀ =>
    rw [hfind] at htagged
    have hne : Sched.tagged c s s' (s.queues.threads .WQ) ≠ [] := by simp [htagged]
    have hclear : s'.objects.cond c = .clear := by
      obtain ⟨htag, d, hd, hcond⟩ := eventmanager_cond ha hs c
      rw [hcond]
      exact CondState.settle_looks_hits hsig.1 hd (htag ▸ hne)
    have hmem := List.mem_of_find?_eq_some hfind
    have hret := h.timedOut_iff hs hne hmem (List.find?_some hfind)
    have hstays : ∀ u ∈ s.queues.threads .WQ, u ≠ t₀ → s.waitsOn c u = true →
        (u ∈ s'.queues.threads .WQ ↔ s.expired u = false) := fun u hu hut hwait =>
      h.stays_iff hs hne hu hwait (by simpa [htagged] using hut)
    constructor
    · rintro ⟨htimed, -, -, ⟨i, hi⟩, u, hu, hut, hwait⟩
      rw [htagged] at hi
      obtain ⟨rfl, -⟩ : t = t₀ ∧ i = 0 := by simpa using hi
      have hu₀ := (((eventmanager_threads ha hs).2 u).1.mp hu).1
      exact ⟨u, hsig.1, hsig.2, hfind, hret.mp htimed, hu₀, hut, hwait,
        (hstays u hu₀ hut hwait).mp hu⟩
    · rintro ⟨u, hu⟩
      obtain rfl : t₀ = t := Option.some.inj (hfind.symm.trans hu.first)
      exact ⟨hret.mpr hu.expired, hsig, hclear, ⟨0, by simp [htagged]⟩, u,
        (hstays u hu.mem hu.ne hu.waits).mpr hu.blocked, hu.ne, hu.waits⟩

end

end Sched

/-! ## Runs -/

/-- The scheduler's state, and for each thread whether its wait has used up a signal that
    another waiter is blocked for. -/
structure TimedRun (τ : Type*) where
  lib : Sched τ
  used : τ → Bool

/-- Calls, after which some threads are in a new wait, and passes of the event manager. -/
inductive TimedOp (τ : Type*) where
  | calls (s : Sched τ) (fresh : τ → Bool)
  | pass (env : Env τ) (dopoll : Bool)

namespace TimedRun

variable [DecidableEq τ] {r r' : TimedRun τ}

/-- All runs of passes with calls between them, from condition variables as `pth_cond_init`
    leaves them. A thread that is not in a new wait keeps the ring of its last one. -/
def machine : Machine (TimedRun τ) (TimedOp τ) Bool where
  init r := (∀ c, r.lib.objects.cond c = .clear) ∧ r.lib.Waiting ∧ ∀ t, r.used t = false
  enabled r
    | .calls s fresh => (∀ c, (r.lib.objects.cond c).Called (s.objects.cond c)) ∧ s.Waiting ∧
        ∀ t, fresh t = false → (s.tcb t).events = (r.lib.tcb t).events
    | .pass _ _ => True
  exec r
    | .calls s fresh => some (false, { lib := s, used := fun t => r.used t && !fresh t })
    | .pass env dopoll => (r.lib.eventmanager env dopoll).map fun x =>
        (x.1, { lib := x.2, used := fun t => r.used t || r.lib.usedUp x.2 t })

omit [DecidableEq τ] in
/-- A call that times out has not used up a signal. -/
def Good (r : TimedRun τ) : Prop :=
  ∀ t, timedwaitReturn (r.lib.tcb t).events = some .ETIMEDOUT → r.used t = false

/-- No pass gives a signal to a waiter whose time has passed while another one is blocked. -/
def Apart (r : TimedRun τ) : TimedOp τ → Prop
  | .calls _ _ => True
  | .pass _ _ => ∀ c t u, ¬ r.lib.Coincides c t u

/-- What holds between the steps. -/
structure Inv (r : TimedRun τ) : Prop where
  waiting : r.lib.Waiting
  handled : ∀ c, (r.lib.objects.cond c).handled = false
  ended : ∀ t, r.used t = true → ∃ ev ∈ (r.lib.tcb t).events, ev.evStatus ≠ .pending

theorem Inv.not_mem (h : r.Inv) {t : τ} (ht : r.used t = true) :
    t ∉ r.lib.queues.threads .WQ := by
  obtain ⟨ev, hev, hne⟩ := h.ended t ht
  exact fun hmem => hne (h.waiting.pending t hmem ev hev)

theorem Inv.init (h : machine.init r) : r.Inv := by
  obtain ⟨hclear, hwaiting, hused⟩ := h
  refine ⟨hwaiting, fun c => ?_, fun t ht => ?_⟩
  · rw [hclear c]
    rfl
  · simp [hused t] at ht

theorem Inv.step {op : TimedOp τ} {o : Bool} (h : r.Inv) (hs : machine.Step r op o r') :
    r'.Inv := by
  obtain ⟨hen, hexec⟩ := hs
  cases op with
  | calls s fresh =>
    obtain ⟨hcalled, hwaiting, hkept⟩ := hen
    cases hexec
    refine ⟨hwaiting, fun c => (hcalled c).handled (h.handled c), fun t ht => ?_⟩
    simp only [Bool.and_eq_true, Bool.not_eq_true'] at ht
    simp only [hkept t ht.2]
    exact h.ended t ht.1
  | pass env dopoll =>
    obtain ⟨⟨b, s⟩, hpass, heq⟩ := Option.map_eq_some_iff.mp hexec
    cases heq
    obtain ⟨a, ha⟩ := h.waiting.repr
    refine ⟨h.waiting.eventmanager hpass, fun c => ?_, fun t ht => ?_⟩
    · obtain ⟨-, d, hd, hc⟩ := Sched.eventmanager_cond ha hpass c
      simp only [hc]
      exact CondState.settle_looks_handled (h.handled c) hd
    · rw [Bool.or_eq_true] at ht
      rcases ht with ht | ht
      · have hkept := ((Sched.eventmanager_threads ha hpass).2 t).2.2 (h.not_mem ht)
        simp only [hkept]
        exact h.ended t ht
      · obtain ⟨c, hc⟩ := Sched.usedUp_iff.mp ht
        obtain ⟨-, -, ⟨i, hi⟩, -⟩ := Sched.usesUp_eq_true.mp hc
        obtain ⟨-, ev, hev, hocc⟩ := Sched.exists_of_mem_tagged hi
        exact ⟨ev, hev, by simp [hocc]⟩

/-- One step. -/
theorem Inv.good_iff {op : TimedOp τ} {o : Bool} (h : r.Inv) (hgood : r.Good)
    (hs : machine.Step r op o r') : r'.Good ↔ r.Apart op := by
  obtain ⟨hen, hexec⟩ := hs
  cases op with
  | calls s fresh =>
    obtain ⟨-, -, hkept⟩ := hen
    cases hexec
    refine iff_of_true (fun t ht => ?_) trivial
    cases hfresh : fresh t with
    | true => simp [hfresh]
    | false =>
      simp only [hkept t hfresh] at ht
      simp [hgood t ht]
  | pass env dopoll =>
    obtain ⟨⟨b, s⟩, hpass, heq⟩ := Option.map_eq_some_iff.mp hexec
    cases heq
    obtain ⟨a, ha⟩ := h.waiting.repr
    have husesUp := fun c t => h.waiting.usesUp_iff (t := t) (h.handled c) hpass
    constructor
    · intro hgood' c t u hu
      obtain ⟨hret, huses⟩ := (husesUp c t).mpr ⟨u, hu⟩
      have hused := hgood' t hret
      simp [Sched.usedUp_iff.mpr ⟨c, huses⟩] at hused
    · intro hapart t hret
      cases hused : r.used t with
      | true =>
        -- the thread has not waited any more
        have hkept := ((Sched.eventmanager_threads ha hpass).2 t).2.2 (h.not_mem hused)
        simp only [hkept] at hret
        simp [hgood t hret] at hused
      | false =>
        simp only [hused, Bool.false_or, ← Bool.not_eq_true]
        intro hup
        obtain ⟨c, hc⟩ := Sched.usedUp_iff.mp hup
        obtain ⟨u, hu⟩ := (husesUp c t).mp ⟨hret, hc⟩
        exact hapart c t u hu

/-- In every run a call that times out uses up a signal in the passes that give one to a waiter
    whose time has passed while another waiter is blocked, and in no other step. -/
theorem timedOut_unused_iff (h : machine.Reach Apart r) : r.Good ∧
    ∀ op o r', machine.Step r op o r' → (r'.Good ↔ r.Apart op) := by
  have hinv : r.Inv ∧ r.Good := by
    refine h.invariant (I := fun r => r.Inv ∧ r.Good) (fun r hinit => ?_) ?_
    · exact ⟨.init hinit, fun t _ => hinit.2.2 t⟩
    · rintro r op o r' ⟨hinv, hgood⟩ hapart hs
      exact ⟨hinv.step hs, (hinv.good_iff hgood hs).mpr hapart⟩
  exact ⟨hinv.2, fun op o r' hs => hinv.1.good_iff hinv.2 hs⟩

/-! ## Two waiters -/

/-- The threads 1 and 2 wait for the condition variable 0, the first one until 5 seconds. -/
def timedWaiters (now : Time) (x : CondState) : Sched ℕ :=
  { (Sched.mutexWaiters.modify 1 fun tcb => { tcb with
        events := waitRing 0 (some { tvSec := 5, tvUsec := 0 }) }).modify 2 fun tcb => { tcb with
      events := waitRing 0 none } with
    snapshot := now
    objects := { Sched.mutexWaiters.objects with
      cond := Function.update (fun _ => .clear) 0 x } }

theorem timedWaiters_threads (now : Time) (x : CondState) :
    (timedWaiters now x).queues.threads .WQ = [1, 2] :=
  Sched.mutexWaiters_repr.threads

theorem timedWaiters_waiting (now : Time) (x : CondState) : (timedWaiters now x).Waiting := by
  refine ⟨⟨_, Sched.mutexWaiters_repr⟩, ?_, ?_, ?_⟩ <;> rw [timedWaiters_threads]
  · simp [timedWaiters, Sched.mutexWaiters, Sched.mutexWaiter, Sched.blank]
  · simp [timedWaiters, waitRing, condRing]
  · have hring : ∀ t ∈ [1, 2], ∃ abstime,
        ((timedWaiters now x).tcb t).events = waitRing 0 abstime := by
      simp [timedWaiters]
    intro t ht c hc
    obtain ⟨abstime, hevs⟩ := hring t ht
    obtain rfl : 0 = c := by simpa [Sched.waitsOn_waitRing hevs] using hc
    exact ⟨abstime, hevs⟩

/-- Both wait, and then the condition variable is signaled. -/
theorem timedWaiters_reach (now : Time) :
    machine.Reach Apart ⟨timedWaiters now ⟨true, false, false⟩, fun _ => false⟩ := by
  have hinit : machine.init ⟨timedWaiters now .clear, fun _ => false⟩ := by
    refine ⟨fun c => ?_, timedWaiters_waiting now .clear, fun _ => rfl⟩
    simp [timedWaiters]
  refine .step (i := .calls (timedWaiters now ⟨true, false, false⟩) fun _ => false)
    (.init hinit) trivial ⟨⟨fun c => ?_, timedWaiters_waiting _ _, fun _ _ => rfl⟩, rfl⟩
  by_cases hc : c = 0
  · exact .inr (.inr ⟨false, by simp [hc, timedWaiters]⟩)
  · exact .inl (by simp [hc, timedWaiters])

theorem timedWaiters_expired (x : CondState) (t : ℕ) :
    (timedWaiters .zero x).expired t = false := by
  by_cases h₂ : t = 2
  · simp [Sched.expired, timedWaiters, h₂, waitRing, condRing]
  · by_cases h₁ : t = 1
    · subst h₁
      rfl
    · simp [Sched.expired, timedWaiters, h₁, h₂, Sched.mutexWaiters, Sched.mutexWaiter,
        Sched.blank]

/-- The pass that comes after the signal. -/
theorem timedWaiters_pass {now : Time} {b : Bool} {s : Sched ℕ}
    (h : (timedWaiters now ⟨true, false, false⟩).eventmanager Sched.quiet false = some (b, s)) :
    machine.Step ⟨timedWaiters now ⟨true, false, false⟩, fun _ => false⟩ (.pass Sched.quiet false)
      b ⟨s, fun t => (timedWaiters now ⟨true, false, false⟩).usedUp s t⟩ := by
  refine ⟨trivial, Option.map_eq_some_iff.mpr ⟨_, h, ?_⟩⟩
  simp

/-- The signal comes before the time point. -/
theorem timedOut_unused_iff_early : ∃ r : TimedRun ℕ, machine.Reach Apart r ∧ r.Good ∧
    ∃ o r', machine.Step r (.pass Sched.quiet false) o r' ∧ r'.Good := by
  obtain ⟨hgood, hiff⟩ := timedOut_unused_iff (timedWaiters_reach .zero)
  have hpass : ((timedWaiters .zero ⟨true, false, false⟩).eventmanager
      Sched.quiet false).isSome := by decide
  obtain ⟨⟨b, s⟩, hs⟩ := Option.isSome_iff_exists.mp hpass
  have hstep := timedWaiters_pass hs
  refine ⟨_, timedWaiters_reach .zero, hgood, b, _, hstep, (hiff _ _ _ hstep).mpr ?_⟩
  intro c t u hu
  simpa [timedWaiters_expired] using hu.expired

/-- The signal comes after the time point, and one pass finds both: the first thread takes the
    signal and returns `ETIMEDOUT`, and the second one stays blocked. -/
theorem timedOut_uses_signal : ∃ (r : TimedRun ℕ) (o : Bool) (r' : TimedRun ℕ),
    machine.Reachable r ∧ machine.Step r (.pass Sched.quiet false) o r' ∧ ¬ r'.Good := by
  have hpass : ((timedWaiters ⟨10, 0⟩ ⟨true, false, false⟩).eventmanager Sched.quiet false).any
      (fun x => timedwaitReturn (x.2.tcb 1).events = some .ETIMEDOUT ∧
        (timedWaiters ⟨10, 0⟩ ⟨true, false, false⟩).usedUp x.2 1 = true) = true := by
    decide
  obtain ⟨⟨b, s⟩, hs, hused⟩ := (Option.any_eq_true _ _).mp hpass
  obtain ⟨hret, hup⟩ := of_decide_eq_true hused
  refine ⟨_, b, _, (timedWaiters_reach ⟨10, 0⟩).mono fun _ _ _ => trivial, timedWaiters_pass hs,
    fun hgood => ?_⟩
  have hkept := hgood 1 hret
  simp [hup] at hkept

end TimedRun

end Pth
