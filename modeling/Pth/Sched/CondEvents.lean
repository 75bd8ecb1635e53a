-- SUMMARY: Which condition variable events an event manager pass tags, and what it leaves of the notification.
import Pth.Lib.Machine
import Pth.Sched.Wakeup
import Pth.Sync.Cond

/-!
# Notifications in the event manager

The first loop meets the pending events of a condition variable one after the other.
Each of them is tagged as long as the bits of the variable say so, and the first one
that a signal wakes sets `PTH_COND_HANDLED`. The second loop clears the bits at the
first event it finds tagged. -/

namespace Pth

open PrioList (keys)

/-! ## One notification and a list of waiters -/

namespace CondState

/-- The bits after a waiter has been looked at. -/
def look (x : CondState) : CondState :=
  if x.signaled && !x.broadcast && !x.handled then { x with handled := true } else x

variable {α β : Type*}

/-- The bits after all waiters of a list have been looked at. -/
def looks (x : CondState) (l : List α) : CondState := if l = [] then x else x.look

/-- The waiters of a list that are woken. -/
def hits (x : CondState) : List α → List α
  | [] => []
  | a :: l => (if Sched.condOccurs x then [a] else []) ++ hits x.look l

@[simp] theorem look_look (x : CondState) : x.look.look = x.look := by
  unfold look
  split <;> simp_all

theorem looks_cons (x : CondState) (a : α) (l : List α) : x.looks (a :: l) = x.look.looks l := by
  unfold looks
  split <;> simp_all

theorem looks_append (x : CondState) (l l' : List α) :
    x.looks (l ++ l') = (x.looks l).looks l' := by
  unfold looks
  by_cases hl : l = [] <;> by_cases hl' : l' = [] <;> simp [hl, hl']

theorem hits_append (x : CondState) (l l' : List α) :
    x.hits (l ++ l') = x.hits l ++ (x.looks l).hits l' := by
  induction l generalizing x with
  | nil => rfl
  | cons a l ih => rw [List.cons_append, hits, hits, ih, looks_cons, List.append_assoc]

theorem looks_map (x : CondState) (f : α → β) (l : List α) : x.looks (l.map f) = x.looks l := by
  simp [looks]

theorem hits_map (x : CondState) (f : α → β) (l : List α) :
    x.hits (l.map f) = (x.hits l).map f := by
  induction l generalizing x with
  | nil => rfl
  | cons a l ih =>
    rw [List.map_cons, hits, hits, ih, List.map_append]
    split <;> rfl

/-- Nobody is woken. -/
theorem hits_quiet {x : CondState} (h : Sched.condOccurs x = false) (l : List α) :
    x.hits l = [] := by
  have hx : x.look = x := by
    unfold look
    split
    · simp_all [Sched.condOccurs]
    · rfl
  induction l with
  | nil => rfl
  | cons a l ih => simp [hits, h, hx, ih]

/-- Somebody is woken. -/
theorem hits_ne_nil {x : CondState} {l : List α} (h : Sched.condOccurs x = true) (hl : l ≠ []) :
    x.hits l ≠ [] := by
  obtain ⟨a, l, rfl⟩ := List.exists_cons_of_ne_nil hl
  simp [hits, h]

/-- A broadcast wakes all. -/
theorem hits_broadcast {x : CondState} (hs : x.signaled = true) (hb : x.broadcast = true)
    (l : List α) : x.hits l = l := by
  have hx : x.look = x := by simp [look, hb]
  induction l with
  | nil => rfl
  | cons a l ih => simp [hits, Sched.condOccurs, hs, hb, hx, ih]

/-- A signal wakes the first one. -/
theorem hits_signal {x : CondState} (hs : x.signaled = true) (hb : x.broadcast = false)
    (hh : x.handled = false) (l : List α) : x.hits l = l.take 1 := by
  cases l with
  | nil => rfl
  | cons a l =>
    have hx : Sched.condOccurs x.look = false := by simp [look, hs, hb, hh, Sched.condOccurs]
    simp [hits, Sched.condOccurs, hs, hb, hh, hits_quiet hx]

theorem look_signaled (x : CondState) : x.look.signaled = x.signaled := by
  unfold look
  split <;> rfl

theorem looks_signaled (x : CondState) (l : List α) : (x.looks l).signaled = x.signaled := by
  unfold looks
  split
  · rfl
  · exact look_signaled x

/-- The bits after the second loop has found the variable's event tagged, or not. -/
def settle (x : CondState) (b : Bool) : CondState := if b && x.signaled then clear else x

theorem settle_settle (x : CondState) (b b' : Bool) :
    (x.settle b).settle b' = x.settle (b || b') := by
  cases b <;> cases b' <;> cases hs : x.signaled <;> simp [settle, hs]

/-- What is left of a notification that has woken a waiter. -/
theorem settle_looks_hits {x : CondState} {l : List α} {b : Bool} (hs : x.signaled = true)
    (hb : x.hits l ≠ [] → b = true) (hl : x.hits l ≠ []) : (x.looks l).settle b = clear := by
  rw [hb hl, settle, looks_signaled, hs]
  rfl

/-- A pass that starts without `PTH_COND_HANDLED` ends without it. -/
theorem settle_looks_handled {x : CondState} {l : List α} {b : Bool} (hh : x.handled = false)
    (hb : x.hits l ≠ [] → b = true) : ((x.looks l).settle b).handled = false := by
  by_cases hocc : Sched.condOccurs x = true ∧ l ≠ []
  · have hs : x.signaled = true := by
      simp only [Sched.condOccurs, Bool.and_eq_true] at hocc
      exact hocc.1.1
    rw [settle_looks_hits hs hb (hits_ne_nil hocc.1 hocc.2)]
    rfl
  · have hx : x.looks l = x := by
      unfold looks look
      simp only [Sched.condOccurs] at hocc
      split <;> simp_all
    rw [hx, settle]
    split
    · rfl
    · exact hh

/-- A pass without a notification. -/
theorem settle_looks_clear (l : List α) (b : Bool) : (clear.looks l).settle b = clear := by
  unfold looks
  split <;> cases b <;> rfl

/-- What a call of `pth_cond_init`, `pth_cond_await` or `pth_cond_notify` makes of the
    bits. -/
def Called (x y : CondState) : Prop :=
  y = x ∨ y = clear ∨ ∃ b, y = { signaled := true, broadcast := b, handled := false }

theorem Called.handled {x y : CondState} (h : x.Called y) (hx : x.handled = false) :
    y.handled = false := by
  rcases h with rfl | rfl | ⟨b, rfl⟩
  · exact hx
  · rfl
  · rfl

end CondState

/-! ## The calls -/

namespace SyncState

variable {τ μ κ : Type*} [DecidableEq τ] [DecidableEq μ] [DecidableEq κ] {s s' : SyncState τ μ κ}

omit [DecidableEq τ] [DecidableEq μ] in
theorem setCond_called {c : κ} {x : Cond} (h : (s.cond c).cnState.Called x.cnState) (d : κ) :
    (s.cond d).cnState.Called ((s.setCond c x).cond d).cnState := by
  by_cases hd : d = c
  · subst hd
    simpa [setCond] using h
  · exact .inl (by simp [setCond, hd])

theorem await_called {t : τ} {cond : Option κ} {mutex : Option μ} {r : Await}
    (h : s.await t cond mutex = some (r, s')) (d : κ) :
    (s.cond d).cnState.Called (s'.cond d).cnState := by
  unfold await at h
  split at h
  · next c m =>
    dsimp only at h
    split at h
    · cases h
      exact .inl rfl
    · split at h
      · cases h
        exact setCond_called (.inr (.inl rfl)) d
      · obtain ⟨x, -, hx⟩ := Option.map_eq_some_iff.mp h
        cases hx
        exact setCond_called (.inl (Cond.enter_cnState _)) d
  · cases h
    exact .inl rfl

omit [DecidableEq τ] [DecidableEq μ] in
theorem afterReacquire_called {c : κ} (x : Acquire μ × MutexState τ μ) (d : κ) :
    (s.cond d).cnState.Called ((s.afterReacquire c x).2.cond d).cnState := by
  unfold afterReacquire
  split
  · exact setCond_called (.inl (Cond.leave_cnState _)) d
  · exact .inl rfl

omit [DecidableEq τ] [DecidableEq μ] in
theorem notify_called {cond : Option κ} {b : Bool} (d : κ) :
    (s.cond d).cnState.Called ((s.notify cond b).2.2.cond d).cnState := by
  unfold notify
  split
  · exact .inl rfl
  · dsimp only
    split
    · exact .inl rfl
    · split
      · exact setCond_called (.inr (.inr ⟨b, rfl⟩)) d
      · exact .inl rfl

end SyncState

/-! ## The waiters -/

variable {τ : Type*}

/-- The condition variable of an event. -/
def EventArgs.onCond : EventArgs τ → Option ℕ
  | .cond c => some c
  | _ => none

theorem EventArgs.onCond_eq_some {args : EventArgs τ} {c : ℕ} :
    args.onCond = some c ↔ args = .cond c := by
  cases args <;> simp [EventArgs.onCond]

/-- The event is pending and waits for the condition variable `c`. -/
def Event.asks (c : ℕ) (ev : Event τ) : Bool :=
  ev.evStatus = .pending && ev.evArgs.onCond = some c

theorem Event.asks_iff {c : ℕ} {ev : Event τ} :
    ev.asks c = true ↔ ev.evStatus = .pending ∧ ev.evArgs = .cond c := by
  simp [Event.asks, EventArgs.onCond_eq_some]

/-- The event is tagged, and of the condition variable `c`. -/
def Event.done (c : ℕ) (ev : Event τ) : Bool :=
  ev.evStatus ≠ .pending && ev.evArgs.onCond = some c

namespace Sched

/-- The numbers of the events from `i` on that wait for `c`. -/
def askingFrom (c : ℕ) : ℕ → List (Event τ) → List ℕ
  | _, [] => []
  | i, ev :: evs => (if ev.asks c then [i] else []) ++ askingFrom c (i + 1) evs

/-- The numbers of the events from `i` on that waited for `c` before and have occurred
    after. -/
def taggedFrom (c : ℕ) : ℕ → List (Event τ) → List (Event τ) → List ℕ
  | i, ev :: evs, ev' :: evs' =>
    (if ev.asks c && ev'.evStatus = .occurred then [i] else []) ++ taggedFrom c (i + 1) evs evs'
  | _, _, _ => []

theorem mem_taggedFrom {c i j : ℕ} {evs evs' : List (Event τ)} :
    j ∈ taggedFrom c i evs evs' ↔ ∃ k ev ev', j = i + k ∧ evs[k]? = some ev ∧
      evs'[k]? = some ev' ∧ ev.asks c = true ∧ ev'.evStatus = .occurred := by
  induction evs generalizing i evs' with
  | nil => simp [taggedFrom]
  | cons ev evs ih =>
    cases evs' with
    | nil => simp [taggedFrom]
    | cons ev' evs' =>
      rw [taggedFrom, List.mem_append, ih]
      constructor
      · rintro (h | ⟨k, x, x', rfl, hx, hx', hrest⟩)
        · split at h
          · next hocc =>
            simp only [Bool.and_eq_true, decide_eq_true_eq] at hocc
            exact ⟨0, ev, ev', by simpa using h, rfl, rfl, hocc⟩
          · simp at h
        · exact ⟨k + 1, x, x', by omega, hx, hx', hrest⟩
      · rintro ⟨k, x, x', rfl, hx, hx', hasks, hocc⟩
        cases k with
        | zero =>
          obtain rfl : ev = x := by simpa using hx
          obtain rfl : ev' = x' := by simpa using hx'
          exact .inl (by simp [hasks, hocc])
        | succ k => exact .inr ⟨k, x, x', by omega, hx, hx', hasks, hocc⟩

/-- The pending events of `c` of some threads, each with its thread. -/
def asking (c : ℕ) (s : Sched τ) (ts : List τ) : List (τ × ℕ) :=
  ts.flatMap fun t => (askingFrom c 0 (s.tcb t).events).map fun i => (t, i)

/-- Those which have been tagged as occurred from `s` to `s'`. -/
def tagged (c : ℕ) (s s' : Sched τ) (ts : List τ) : List (τ × ℕ) :=
  ts.flatMap fun t => (taggedFrom c 0 (s.tcb t).events (s'.tcb t).events).map fun i => (t, i)

variable [DecidableEq τ] {s s' : Sched τ} {env : Env τ} {t : τ} {c : ℕ}

/-! ## The first loop -/

/-- Looking at an event of another kind leaves condition variables alone, and an event
    keeps its kind. -/
theorem scanArgs_cond {i : ℕ} {sc sc' : Scan τ} {args args' : EventArgs τ} {b : Bool}
    (h : s.scanArgs env t i sc args = some (b, s', sc', args')) :
    args'.onCond = args.onCond ∧
      (args = .cond c → b = condOccurs (s.objects.cond c) ∧
        s'.objects.cond c = (s.objects.cond c).look) ∧
      (args ≠ .cond c → s'.objects.cond c = s.objects.cond c) := by
  cases args with
  | cond d =>
    simp only [scanArgs] at h
    split at h
    · next hlook =>
      cases h
      refine ⟨rfl, ?_, ?_⟩
      · rintro ⟨⟩
        simp only [Function.update_self, CondState.look, hlook, if_true, condOccurs]
        simp_all
      · intro hne
        have hcd : c ≠ d := fun hcd => hne (by rw [hcd])
        simp [hcd]
    · next hlook =>
      cases h
      refine ⟨rfl, ?_, fun _ => rfl⟩
      rintro ⟨⟩
      rw [CondState.look, if_neg hlook]
      exact ⟨rfl, rfl⟩
  | sigs sigs sig =>
    simp only [scanArgs, Option.map_eq_some_iff] at h
    obtain ⟨y, -, heq⟩ := h
    cases heq
    exact ⟨rfl, by simp, fun _ => rfl⟩
  | tid tid goal =>
    cases tid <;> cases h <;> exact ⟨rfl, by simp, fun _ => rfl⟩
  | time tv | func f tv =>
    simp only [scanArgs] at h
    split at h <;> cases h <;> exact ⟨rfl, by simp, fun _ => rfl⟩
  | fd | select | msg | mutex =>
    cases h
    exact ⟨rfl, by simp, fun _ => rfl⟩

/-- Scanning one event. -/
theorem scanEvent_cond {i : ℕ} {sc sc' : Scan τ} {ev ev' : Event τ}
    (h : s.scanEvent env t i sc ev = some (s', sc', ev')) :
    ev'.evArgs.onCond = ev.evArgs.onCond ∧
      (ev.asks c && ev'.evStatus = .occurred) =
        (ev.asks c && condOccurs (s.objects.cond c)) ∧
      s'.objects.cond c = if ev.asks c then (s.objects.cond c).look else s.objects.cond c := by
  unfold scanEvent at h
  split at h
  · next hp =>
    simp only [Option.map_eq_some_iff] at h
    obtain ⟨⟨b, s₁, sc₁, args⟩, hargs, h⟩ := h
    obtain ⟨hkind, hcond, hother⟩ := scanArgs_cond (c := c) hargs
    have hs : s₁ = s' ∧ ev'.evArgs = args ∧ (ev'.evStatus = .occurred ↔ b = true) := by
      cases b <;> cases h <;> simp
    obtain ⟨rfl, rfl, hocc⟩ := hs
    refine ⟨hkind, ?_⟩
    by_cases hc : ev.evArgs = .cond c
    · obtain ⟨hb, hlook⟩ := hcond hc
      have hasks : ev.asks c = true := Event.asks_iff.mpr ⟨hp, hc⟩
      simp [hasks, hlook, hocc, hb]
    · have hasks : ev.asks c = false := by simp [← Bool.not_eq_true, Event.asks_iff, hc]
      simp [hasks, hother hc]
  · next hp =>
    cases h
    have hasks : ev.asks c = false := by simp [Event.asks, hp]
    simp [hasks]

theorem scanEvents_cond {i : ℕ} {sc sc' : Scan τ} {evs evs' : List (Event τ)}
    (h : scanEvents env t i s sc evs = some (s', sc', evs')) (c : ℕ) :
    taggedFrom c i evs evs' = (s.objects.cond c).hits (askingFrom c i evs) ∧
      s'.objects.cond c = (s.objects.cond c).looks (askingFrom c i evs) ∧
      List.Forall₂ (fun ev ev' : Event τ => ev'.evArgs.onCond = ev.evArgs.onCond) evs evs' := by
  induction evs generalizing i s sc evs' with
  | nil =>
    cases h
    exact ⟨rfl, rfl, .nil⟩
  | cons ev evs ih =>
    simp only [scanEvents, Option.bind_eq_some_iff, Option.map_eq_some_iff] at h
    obtain ⟨⟨s₁, sc₁, ev'⟩, hev, ⟨s₂, sc₂, evs₂⟩, hevs, heq⟩ := h
    cases heq
    obtain ⟨hkind, htag, hcond⟩ := scanEvent_cond (c := c) hev
    obtain ⟨htags, hconds, hkinds⟩ := ih hevs
    refine ⟨?_, ?_, .cons hkind hkinds⟩
    · rw [taggedFrom, askingFrom, CondState.hits_append, htag, htags, hcond]
      by_cases hasks : ev.asks c = true
      · simp [hasks, CondState.hits, CondState.looks]
      · simp [hasks, CondState.hits, CondState.looks]
    · rw [askingFrom, CondState.looks_append, hconds, hcond]
      by_cases hasks : ev.asks c = true
      · simp [hasks, CondState.looks]
      · simp [hasks, CondState.looks]

/-- Scanning some threads. -/
theorem scanThreads_cond {ts : List τ} {x y : Sched τ × Scan τ}
    (h : scanThreads env x ts = some y) (hnd : ts.Nodup) (c : ℕ) :
    tagged c x.1 y.1 ts = (x.1.objects.cond c).hits (asking c x.1 ts) ∧
      y.1.objects.cond c = (x.1.objects.cond c).looks (asking c x.1 ts) := by
  induction ts generalizing x with
  | nil =>
    cases h
    exact ⟨rfl, rfl⟩
  | cons u ts ih =>
    simp only [scanThreads, List.foldlM_cons, Option.bind_eq_bind, Option.bind_eq_some_iff] at h
    obtain ⟨z, hz, h⟩ := h
    obtain ⟨hu, hnd⟩ := List.nodup_cons.mp hnd
    obtain ⟨-, hothers⟩ := scanThread_scanned hz
    have huy : (y.1.tcb u).events = (z.1.tcb u).events := (scanThreads_scanned h).2 u hu
    simp only [scanThread, Option.map_eq_some_iff] at hz
    obtain ⟨⟨s₁, sc₁, evs⟩, hevs, rfl⟩ := hz
    obtain ⟨htag, hcond, -⟩ := scanEvents_cond hevs c
    obtain ⟨htags, hconds⟩ := ih h hnd
    -- the other threads still have the events they had before
    have hsame : ∀ v ∈ ts, ((s₁.modify u fun tcb => { tcb with events := evs }).tcb v).events =
        (x.1.tcb v).events := fun v hv => hothers v fun hvu => hu (hvu ▸ hv)
    have hasking : asking c (s₁.modify u fun tcb => { tcb with events := evs }) ts =
        asking c x.1 ts := by
      refine List.flatMap_congr fun v hv => ?_
      rw [hsame v hv]
    have htagged : tagged c (s₁.modify u fun tcb => { tcb with events := evs }) y.1 ts =
        tagged c x.1 y.1 ts := by
      refine List.flatMap_congr fun v hv => ?_
      rw [hsame v hv]
    have hobj : (s₁.modify u fun tcb => { tcb with events := evs }).objects = s₁.objects := rfl
    simp only [hasking, htagged, hobj] at htags hconds
    have huy' : (y.1.tcb u).events = evs := by rw [huy]; simp
    constructor
    · change (taggedFrom c 0 (x.1.tcb u).events (y.1.tcb u).events).map (fun i => (u, i)) ++
          tagged c x.1 y.1 ts = _
      rw [huy', htags, htag, hcond]
      change _ = CondState.hits _ ((askingFrom c 0 (x.1.tcb u).events).map (fun i => (u, i)) ++
        asking c x.1 ts)
      rw [CondState.hits_append, CondState.hits_map, CondState.looks_map]
    · rw [hconds, hcond]
      change _ = CondState.looks _ ((askingFrom c 0 (x.1.tcb u).events).map (fun i => (u, i)) ++
        asking c x.1 ts)
      rw [CondState.looks_append, CondState.looks_map]

/-! ## The rest of the pass -/

/-- The events of condition variables are left alone. -/
def CondKept (evs evs' : List (Event τ)) : Prop :=
  List.Forall₂ (fun ev ev' => ev.evArgs.onCond ≠ none → ev' = ev) evs evs'

omit [DecidableEq τ] in
theorem CondKept.trans {evs evs₁ evs₂ : List (Event τ)} (h : CondKept evs evs₁)
    (h' : CondKept evs₁ evs₂) : CondKept evs evs₂ := by
  induction h generalizing evs₂ with
  | nil =>
    cases h'
    exact .nil
  | cons hx _ ih =>
    cases h' with
    | cons hx' hxs' =>
      refine .cons (fun hne => ?_) (ih hxs')
      rw [hx hne] at hx'
      exact hx' hne

omit [DecidableEq τ] in
theorem CondKept.getElem? {evs evs' : List (Event τ)} {i : ℕ} {ev : Event τ}
    (h : CondKept evs evs') (hev : evs[i]? = some ev) (hc : ev.evArgs.onCond ≠ none) :
    evs'[i]? = some ev := by
  obtain ⟨ev', hev', hkept⟩ := List.Forall₂.exists_getElem? h hev
  rw [hev', hkept hc]

omit [DecidableEq τ] in
theorem CondKept.mem {evs evs' : List (Event τ)} (h : CondKept evs evs') {ev : Event τ}
    (hev : ev ∈ evs) (hc : ev.evArgs.onCond ≠ none) : ev ∈ evs' := by
  obtain ⟨i, hi⟩ := List.mem_iff_getElem?.mp hev
  exact List.mem_of_getElem? (h.getElem? hi hc)

omit [DecidableEq τ] in
/-- The timer is not an event of a condition variable. -/
theorem condKept_ticked {evs evs' : List (Event τ)} (h : List.Forall₂ Ticked evs evs') :
    CondKept evs evs' := by
  refine h.imp fun ev ev' hev hne => ?_
  rcases hev with rfl | ⟨tv, htv, -⟩
  · rfl
  · simp [htv, EventArgs.onCond] at hne

omit [DecidableEq τ] in
theorem lateEvent_cond {i : ℕ} {l : Late} {o : Objects} (c : ℕ) (ev : Event τ) :
    (ev.evArgs.onCond ≠ none → (lateEvent env t i l o ev).2.2 = ev) ∧
      (lateEvent env t i l o ev).2.1.cond c = (o.cond c).settle (ev.done c) := by
  obtain ⟨status, args⟩ := ev
  by_cases hp : status = .pending
  · subst hp
    refine ⟨fun hne => ?_, by simp [lateEvent, Event.done, CondState.settle]⟩
    obtain ⟨d, hd⟩ := Option.ne_none_iff_exists'.mp hne
    obtain rfl := EventArgs.onCond_eq_some.mp hd
    rfl
  · refine ⟨fun _ => by simp [lateEvent, hp], ?_⟩
    simp only [lateEvent, hp, if_false, Event.done, ne_eq, not_false_eq_true, decide_true,
      Bool.true_and]
    cases args with
    | cond d =>
      by_cases hcd : c = d
      · subst hcd
        cases hs : (o.cond c).signaled <;>
          simp [afterOccurred, hs, EventArgs.onCond, CondState.settle, CondState.clear]
      · have hdc : d ≠ c := Ne.symm hcd
        cases hs : (o.cond d).signaled <;>
          simp [afterOccurred, hs, EventArgs.onCond, CondState.settle, hcd, hdc]
    | _ => simp [afterOccurred, EventArgs.onCond, CondState.settle]

omit [DecidableEq τ] in
theorem lateEvents_cond {i : ℕ} {l : Late} {o : Objects} (c : ℕ) (evs : List (Event τ)) :
    CondKept evs (lateEvents env t i l o evs).2.2 ∧
      (lateEvents env t i l o evs).2.1.cond c = (o.cond c).settle (evs.any (·.done c)) := by
  induction evs generalizing i l o with
  | nil => exact ⟨.nil, rfl⟩
  | cons ev evs ih =>
    obtain ⟨hkepts, hconds⟩ := ih (i := i + 1) (l := (lateEvent env t i l o ev).1)
      (o := (lateEvent env t i l o ev).2.1)
    refine ⟨.cons (lateEvent_cond c ev).1 hkepts, ?_⟩
    rw [List.any_cons, ← CondState.settle_settle, ← (lateEvent_cond c ev).2]
    exact hconds

omit [DecidableEq τ] in
theorem lateEnd_cond {l : Late} {o : Objects} (c : ℕ) (xs : List (τ × List (Event τ))) :
    (lateEnd env l o xs).2.cond c = (o.cond c).settle (xs.any fun x => x.2.any (·.done c)) := by
  induction xs generalizing l o with
  | nil => rfl
  | cons x xs ih =>
    rw [List.any_cons, ← CondState.settle_settle, ← (lateEvents_cond c x.2).2]
    exact ih

omit [DecidableEq τ] in
/-- Which events are tagged does not change behind the first loop. -/
theorem taggedFrom_congr {i : ℕ} {evs evs₁ evs' : List (Event τ)}
    (hkind : List.Forall₂ (fun ev ev' : Event τ => ev'.evArgs.onCond = ev.evArgs.onCond) evs evs₁)
    (hkept : CondKept evs₁ evs') : taggedFrom c i evs evs' = taggedFrom c i evs evs₁ := by
  induction hkind generalizing i evs' with
  | nil =>
    cases hkept
    rfl
  | @cons ev ev₁ evs evs₁ hk _ ih =>
    cases hkept with
    | @cons _ ev' _ evs' hx hxs =>
      rw [taggedFrom, taggedFrom, ih hxs]
      cases hasks : ev.asks c with
      | false => simp
      | true =>
        have hne : ev₁.evArgs.onCond ≠ none := by
          rw [hk, (Event.asks_iff.mp hasks).2]
          simp [EventArgs.onCond]
        rw [hx hne]

omit [DecidableEq τ] in
/-- An event that has been tagged is there. -/
theorem exists_done_of_tagged {i j : ℕ} {evs evs₁ : List (Event τ)}
    (hkind : List.Forall₂ (fun ev ev' : Event τ => ev'.evArgs.onCond = ev.evArgs.onCond) evs evs₁)
    (h : j ∈ taggedFrom c i evs evs₁) : ∃ ev ∈ evs₁, ev.done c = true := by
  obtain ⟨k, ev, ev₁, -, hev, hev₁, hasks, hocc⟩ := mem_taggedFrom.mp h
  obtain ⟨ev', hev', hk⟩ := hkind.exists_getElem? hev
  obtain rfl : ev₁ = ev' := Option.some.inj (hev₁.symm.trans hev')
  have hargs : ev.evArgs.onCond = some c := EventArgs.onCond_eq_some.mpr (Event.asks_iff.mp hasks).2
  exact ⟨ev₁, List.mem_of_getElem? hev₁, by simp [Event.done, hocc, hk, hargs]⟩

/-- A pass tags the waiters of a condition variable that its bits say, and clears the bits
    if it has tagged one. -/
theorem eventmanager_cond {a : QId → List (τ × ℤ)} {dopoll b : Bool} (h : s.queues.Repr a)
    (hs : s.eventmanager env dopoll = some (b, s')) (c : ℕ) :
    tagged c s s' (s.queues.threads .WQ) =
        (s.objects.cond c).hits (asking c s (s.queues.threads .WQ)) ∧
      ∃ d, ((s.objects.cond c).hits (asking c s (s.queues.threads .WQ)) ≠ [] → d = true) ∧
        s'.objects.cond c =
          ((s.objects.cond c).looks (asking c s (s.queues.threads .WQ))).settle d := by
  obtain ⟨⟨s₁, sc⟩, hscan, -⟩ := Option.bind_eq_some_iff.mp hs
  obtain ⟨-, -, hc, -, hobj⟩ := (eventmanager_cleaned h hscan dopoll).of_eq_some hs
  have hnd : (s.queues.threads .WQ).Nodup := h.threads_nodup
  obtain ⟨htag, hcond⟩ := scanThreads_cond hscan hnd c
  dsimp only at htag hcond hobj
  rw [← h.threads] at hc hobj
  have hkept₁ := fun t => condKept_ticked (sleep_ticked hscan hnd dopoll t)
  have hkind : ∀ t ∈ s.queues.threads .WQ, List.Forall₂
      (fun ev ev' : Event τ => ev'.evArgs.onCond = ev.evArgs.onCond) (s.tcb t).events
      (s₁.tcb t).events := by
    intro t ht
    obtain ⟨s₀, sc₀, s₂, sc₂, -, hevs⟩ := scanThreads_events hscan ht hnd
    exact (scanEvents_cond hevs c).2.2
  have hkept : ∀ t ∈ s.queues.threads .WQ, CondKept (s₁.tcb t).events (s'.tcb t).events := by
    intro t ht
    obtain ⟨l, o, hlate⟩ := hc.late ht
    rw [hlate]
    exact (hkept₁ t).trans (lateEvents_cond c _).1
  have hsame : tagged c s s' (s.queues.threads .WQ) = tagged c s s₁ (s.queues.threads .WQ) :=
    List.flatMap_congr fun t ht => by rw [taggedFrom_congr (hkind t ht) (hkept t ht)]
  refine ⟨hsame.trans htag, _, fun hne => ?_, by rw [hobj, lateEnd_cond, hcond]⟩
  rw [← htag] at hne
  obtain ⟨⟨t, j⟩, hmem⟩ := List.exists_mem_of_ne_nil _ hne
  simp only [tagged, List.mem_flatMap, List.mem_map, Prod.mk.injEq] at hmem
  obtain ⟨t, ht, j, hj, rfl, rfl⟩ := hmem
  obtain ⟨ev, hev, hdone⟩ := exists_done_of_tagged (hkind t ht) hj
  have hcond' : ev.evArgs.onCond ≠ none := by
    simp only [Event.done, Bool.and_eq_true, decide_eq_true_eq] at hdone
    simp [hdone.2]
  simp only [List.any_map, List.any_eq_true, Function.comp_apply]
  exact ⟨t, ht, ev, (hkept₁ t).mem hev hcond', hdone⟩

/-! ## Passes between calls -/

/-- What changes the bits of condition variables: calls, between which all else may
    change, and passes. -/
inductive PassOp (τ : Type*) where
  | calls (s : Sched τ)
  | pass (env : Env τ) (dopoll : Bool)

/-- All runs of passes with calls between them, from condition variables as
    `pth_cond_init` leaves them. -/
def condPasses : Machine (Sched τ) (PassOp τ) Bool where
  init s := ∀ c, s.objects.cond c = .clear
  enabled s
    | .calls s' => ∀ c, (s.objects.cond c).Called (s'.objects.cond c)
    | .pass _ _ => ∃ a, s.queues.Repr a
  exec s
    | .calls s' => some (false, s')
    | .pass env dopoll => s.eventmanager env dopoll

/-- Outside of a pass no condition variable has `PTH_COND_HANDLED`. -/
theorem condPasses_handled (h : condPasses.Reachable s) (c : ℕ) :
    (s.objects.cond c).handled = false := by
  refine h.invariant (I := fun s => ∀ c, (s.objects.cond c).handled = false) ?_ ?_ c
  · intro s hs c
    rw [hs c]
    rfl
  · rintro s (s₁ | ⟨env, dopoll⟩) b s' hh - ⟨hen, hexec⟩ c
    · cases hexec
      exact (hen c).handled (hh c)
    · obtain ⟨a, ha⟩ := hen
      obtain ⟨-, d, hd, hc⟩ := eventmanager_cond ha hexec c
      rw [hc]
      exact CondState.settle_looks_handled (hh c) hd

/-- A notification wakes one waiter or all of them, no waiter of a condition variable
    that is not signaled, and is gone after the pass. -/
theorem eventmanager_notifies {a : QId → List (τ × ℤ)} (hr : condPasses.Reachable s)
    (h : s.queues.Repr a) (hscan : scan env s ≠ none) (dopoll : Bool)
    (hs : (s.objects.cond c).signaled = true)
    (hask : asking c s (s.queues.threads .WQ) ≠ []) :
    (s.eventmanager env dopoll).Ensures fun (_, s') =>
      ((s.objects.cond c).broadcast = false →
        (tagged c s s' (s.queues.threads .WQ)).length = 1) ∧
      ((s.objects.cond c).broadcast = true →
        tagged c s s' (s.queues.threads .WQ) = asking c s (s.queues.threads .WQ)) ∧
      (∀ d, (s.objects.cond d).signaled = false →
        tagged d s s' (s.queues.threads .WQ) = []) ∧
      s'.objects.cond c = .clear := by
  obtain ⟨x, hscan⟩ := Option.ne_none_iff_exists'.mp hscan
  obtain ⟨⟨b, s'⟩, hpass, -⟩ := eventmanager_cleaned h hscan dopoll
  refine ⟨_, hpass, ?_⟩
  dsimp only
  have htag := fun d => (eventmanager_cond h hpass d).1
  obtain ⟨-, d, hd, hclear⟩ := eventmanager_cond h hpass c
  refine ⟨fun hb => ?_, fun hb => ?_, fun e he => ?_, ?_⟩
  · rw [htag, CondState.hits_signal hs hb (condPasses_handled hr c), List.length_take,
      Nat.min_eq_left (List.length_pos_iff.mpr hask)]
  · rw [htag, CondState.hits_broadcast hs hb]
  · rw [htag, CondState.hits_quiet (by simp [condOccurs, he])]
  · have hocc : condOccurs (s.objects.cond c) = true := by
      simp [condOccurs, hs, condPasses_handled hr c]
    rw [hclear]
    exact CondState.settle_looks_hits hs hd (CondState.hits_ne_nil hocc hask)

/-- The threads 1 and 2 wait for a condition variable that has been signaled. -/
def condWaiters : Sched ℕ :=
  { (mutexWaiters.modify 1 fun tcb => { tcb with
        events := [{ evStatus := .pending, evArgs := .cond 0 }] }).modify 2 (fun tcb => { tcb with
      events := [{ evStatus := .pending, evArgs := .cond 0 }] }) with
    objects := { mutexWaiters.objects with
      cond := Function.update mutexWaiters.objects.cond 0
        { signaled := true, broadcast := false, handled := false } } }

theorem condWaiters_reachable : condPasses.Reachable condWaiters := by
  refine .step (i := .calls condWaiters) (.init (s := mutexWaiters) fun _ => rfl) trivial ⟨?_, rfl⟩
  intro c
  by_cases hc : c = 0
  · exact .inr (.inr ⟨false, by simp [hc, condWaiters]⟩)
  · exact .inl (by simp [hc, condWaiters])

/-- Both threads ask, and one of them gets the notification. -/
theorem eventmanager_notifies_one :
    (asking 0 condWaiters (condWaiters.queues.threads .WQ)).length = 2 ∧
    (condWaiters.eventmanager quiet false).Ensures fun (_, s') =>
      (tagged 0 condWaiters s' (condWaiters.queues.threads .WQ)).length = 1 ∧
        s'.objects.cond 0 = .clear := by
  have hscan : scan quiet condWaiters ≠ none := by
    rw [← Option.isSome_iff_ne_none]
    decide
  refine ⟨by decide, ?_⟩
  apply (eventmanager_notifies (c := 0) condWaiters_reachable mutexWaiters_repr hscan false
    (by decide) (by decide)).mono
  rintro ⟨_, s'⟩ ⟨hone, -, -, hclear⟩
  exact ⟨hone (by decide), hclear⟩

end Sched

end Pth
