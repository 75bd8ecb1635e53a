-- SUMMARY: One event manager pass: who is woken, who keeps waiting, and which events are tagged.
import Pth.Lib.Along
import Pth.Sched.Consistent
import Pth.Sched.Scanning

/-!
# Wakeups

The second loop walks the waiting queue and deletes from it while walking; it is
compared with a loop over the list of the threads, which gives the late state of
every event, and the two queues are described by filtering that list. -/

namespace Pth

open PrioList (keys)

namespace Sched

variable {τ : Type*} [DecidableEq τ] {s s' : Sched τ} {env : Env τ} {t : τ}

/-! ## The second loop -/

/-- Late handling of the events of some threads one after the other. -/
def lateThreads (env : Env τ) :
    Late → Objects → List (τ × List (Event τ)) → List (τ × List (Event τ))
  | _, _, [] => []
  | l, o, (t, evs) :: ts =>
    let r := lateEvents env t 0 l o evs
    (t, r.2.2) :: lateThreads env r.1 r.2.1 ts

/-- What the second loop knows about `select(2)`, and the objects, when it is through. -/
def lateEnd (env : Env τ) : Late → Objects → List (τ × List (Event τ)) → Late × Objects
  | l, o, [] => (l, o)
  | l, o, (t, evs) :: ts =>
    let r := lateEvents env t 0 l o evs
    lateEnd env r.1 r.2.1 ts

/-- The queues after the second loop has gone over the part `B` of the waiting queue,
    with the control blocks it leaves. -/
def rearranged (a : QId → List (τ × ℤ)) (A B : List (τ × ℤ)) (tcb : τ → Tcb τ) :
    QId → List (τ × ℤ)
  | .WQ => A ++ B.filter fun e => !wakes (tcb e.1)
  | .RQ => PrioList.insertAll (fun t => (tcb t).prio + 1)
      ((keys B).filter fun t => wakes (tcb t)) (a .RQ)
  | k => a k

/-- What the second loop does to the threads `ts` it goes over. -/
structure Cleaned (env : Env τ) (l : Late) (s : Sched τ) (ts : List τ) (s' : Sched τ) :
    Prop where
  events : ts.map (fun t => (t, (s'.tcb t).events)) =
    lateThreads env l s.objects (ts.map fun t => (t, (s.tcb t).events))
  woken : ∀ t ∈ ts, ∃ evs, s'.tcb t = { s.tcb t with
    events := evs
    state := if wakes (s'.tcb t) then .ready else (s.tcb t).state }
  others : ∀ t, t ∉ ts → s'.tcb t = s.tcb t
  live : s'.live = s.live
  pthMain : s'.pthMain = s.pthMain
  pthSched : s'.pthSched = s.pthSched
  pthCurrent : s'.pthCurrent = s.pthCurrent
  favournew : s'.favournew = s.favournew
  deletes : (∀ d ∈ s.deletes, d.2.2 = true) → ∀ d ∈ s'.deletes, d.2.2 = true

/-- Waking a thread that stands behind `A` in the waiting queue. -/
theorem wake_ensures {a : QId → List (τ × ℤ)} {A B : List (τ × ℤ)} {p : ℤ}
    (h : s.queues.Repr a) (hl : a .WQ = A ++ (t, p) :: B) :
    (s.wake t).Ensures fun s' =>
      s'.queues.Repr (Function.update (Function.update a .WQ (A ++ B)) .RQ
        (PrioList.insert ((s.tcb t).prio + 1) t (a .RQ))) ∧
      (s.setState t .ready).OffQueues s' ∧
      ((∀ d ∈ s.deletes, d.2.2 = true) → ∀ d ∈ s'.deletes, d.2.2 = true) := by
  have ht : t ∈ keys (a .WQ) := by simp [hl]
  have hrem : PrioList.remove t (a .WQ) = A ++ B := by
    have hnd := (h.queue .WQ).nodup
    rw [hl] at hnd ⊢
    exact PrioList.remove_append_cons hnd
  obtain ⟨qs, hdel, hr⟩ := h.delete ht
  obtain ⟨qs', hins, hr'⟩ := hr.insert (k := .RQ) ((s.tcb t).prio + 1) (h.removed ht)
  rw [hrem] at hr'
  refine ⟨{ (s.noteDelete .WQ t).setState t .ready with queues := qs' }, ?_, ?_,
    ⟨rfl, rfl, rfl, rfl, rfl, rfl, rfl, rfl, rfl⟩, ?_⟩
  · simp [wake, Sched.delete, hdel, Sched.insert, hins, noteDelete, Sched.modify]
  · simpa using hr'
  · intro hd d hd'
    rcases List.mem_cons.mp hd' with rfl | hd'
    · simpa [h.threads] using ht
    · exact hd d hd'

/-- The second loop at `t`, which leaves `s₁`, and then over `ts`. -/
theorem Cleaned.cons {s₁ : Sched τ} {l : Late} {ts : List τ} (ht : t ∉ ts)
    (hc : Cleaned env (lateThread env s l t).1 s₁ ts s')
    (ho : ((lateThread env s l t).2.setState t
      (if wakes ((lateThread env s l t).2.tcb t) then .ready else (s.tcb t).state)).OffQueues s₁)
    (hd : (∀ d ∈ s.deletes, d.2.2 = true) → ∀ d ∈ s₁.deletes, d.2.2 = true) :
    Cleaned env l s (t :: ts) s' := by
  have hst : s'.tcb t = s₁.tcb t := hc.others t ht
  have htcb : s₁.tcb t = { s.tcb t with
      events := (lateEvents env t 0 l s.objects (s.tcb t).events).2.2
      state := if wakes (s₁.tcb t) then .ready else (s.tcb t).state } := by
    rw [ho.tcb]
    simp [lateThread, wakes]
  have hothers : ∀ u, u ≠ t → s₁.tcb u = s.tcb u := by
    intro u hu
    rw [ho.tcb]
    simp [lateThread, hu]
  constructor
  · have hmap : ts.map (fun u => (u, (s₁.tcb u).events)) =
        ts.map fun u => (u, (s.tcb u).events) := by
      refine List.map_congr_left fun u hu => ?_
      rw [hothers u fun hut => ht (hut ▸ hu)]
    have hobj : s₁.objects = (lateEvents env t 0 l s.objects (s.tcb t).events).2.1 := ho.objects
    have hevents := hc.events
    rw [hmap, hobj] at hevents
    have hevs := congrArg Tcb.events (hst.trans htcb)
    simp only [List.map_cons, lateThreads, hevs]
    rw [hevents]
    rfl
  · intro u hu
    rcases List.mem_cons.mp hu with rfl | hu
    · rw [hst]
      exact ⟨_, htcb⟩
    · rw [← hothers u fun hut => ht (hut ▸ hu)]
      exact hc.woken u hu
  · intro u hu
    simp only [List.mem_cons, not_or] at hu
    rw [hc.others u hu.2, hothers u hu.1]
  · exact hc.live.trans ho.live
  · exact hc.pthMain.trans ho.pthMain
  · exact hc.pthSched.trans ho.pthSched
  · exact hc.pthCurrent.trans ho.pthCurrent
  · exact hc.favournew.trans ho.favournew
  · exact fun h => hc.deletes (hd h)

/-- The second loop faults nowhere, although it deletes threads from the queue it
    walks over. -/
theorem cleanup_cleaned {n : ℕ} {l : Late} {a : QId → List (τ × ℤ)} {A B : List (τ × ℤ)}
    (h : s.queues.Repr a) (hl : a .WQ = A ++ B) (hn : B.length ≤ n) :
    (cleanup env n s l (keys B).head?).Ensures fun s' =>
      s'.queues.Repr (rearranged a A B s'.tcb) ∧ Cleaned env l s (keys B) s' ∧
        s'.objects = (lateEnd env l s.objects
          ((keys B).map fun t => (t, (s.tcb t).events))).2 := by
  induction B generalizing s a A l n with
  | nil =>
    have ha : rearranged a A [] s.tcb = a := by
      funext k
      cases k <;> simp [rearranged, hl, PrioList.insertAll]
    simp only [PrioList.keys_nil, List.head?_nil, cleanup, Option.ensures_some, ha]
    exact ⟨h, ⟨rfl, by simp, fun _ _ => rfl, rfl, rfl, rfl, rfl, rfl, id⟩, rfl⟩
  | cons e B ih =>
    obtain ⟨t, p⟩ := e
    obtain ⟨n, rfl⟩ : ∃ m, n = m + 1 := ⟨n - 1, by simp at hn; omega⟩
    have hn' : B.length ≤ n := by simpa using hn
    have hkeys : keys (a .WQ) = keys A ++ t :: keys B := by simp [hl]
    have hnd := (h.queue .WQ).nodup
    have htB : t ∉ keys B := by
      rw [hkeys] at hnd
      exact (List.nodup_cons.mp (List.nodup_append.mp hnd).2.1).1
    have hnext : s.queues.walk .WQ t .next = (keys B).head? :=
      Pqueue.walk_next (h.queue .WQ) hkeys
    -- the other threads still have the events they had before
    have hmap : ∀ f : τ → Tcb τ, (∀ u, u ≠ t → f u = s.tcb u) →
        (keys B).map (fun u => (u, (f u).events)) = (keys B).map fun u => (u, (s.tcb u).events) :=
      fun f hf => List.map_congr_left fun u hu => by rw [hf u fun hut => htB (hut ▸ hu)]
    simp only [PrioList.keys_cons, List.head?_cons, cleanup]
    have hwalk : (lateThread env s l t).2.queues.walk .WQ t .next = (keys B).head? := hnext
    rw [hwalk]
    split
    · next hw =>
      apply (wake_ensures (s := (lateThread env s l t).2) h hl).bind
      rintro s₂ ⟨hr₂, ho, hdel⟩
      apply (ih (A := A) hr₂ (by simp) hn').mono
      rintro s' ⟨hr', hc, hobj⟩
      have hc' := hc.cons htB (by rw [if_pos hw]; exact ho) hdel
      rw [ho.objects, ho.tcb, hmap _ fun u hu => by simp [lateThread, hu]] at hobj
      refine ⟨?_, hc', hobj⟩
      convert hr' using 1
      have hst : s'.tcb t = { (lateThread env s l t).2.tcb t with state := .ready } := by
        rw [hc.others t htB, ho.tcb]
        simp
      have hw' : wakes (s'.tcb t) = true := by
        rw [hst]
        exact hw
      have hprio : (s'.tcb t).prio = ((lateThread env s l t).2.tcb t).prio := by rw [hst]
      funext k
      cases k <;> simp [rearranged, PrioList.insertAll, hw', hprio]
    · next hw =>
      apply (ih (s := (lateThread env s l t).2) (A := A ++ [(t, p)]) h (by simp [hl]) hn').mono
      rintro s' ⟨hr', hc, hobj⟩
      rw [hmap _ fun u hu => by simp [lateThread, hu]] at hobj
      have hstay : (lateThread env s l t).2.setState t (s.tcb t).state =
          (lateThread env s l t).2 := by
        simp [lateThread, Sched.modify]
      have hc' := hc.cons htB (by rw [if_neg hw, hstay]; exact .refl _) id
      refine ⟨?_, hc', hobj⟩
      convert hr' using 1
      have hw' : wakes (s'.tcb t) = false := by
        rw [hc.others t htB]
        simpa using hw
      funext k
      cases k <;> simp [rearranged, hw']

/-! ## A pass -/

/-- Events that are not pending stay as they are. -/
def Kept (evs evs' : List (Event τ)) : Prop :=
  List.Forall₂ (fun ev ev' => ev.evStatus ≠ .pending → ev' = ev) evs evs'

omit [DecidableEq τ] in
theorem Kept.getElem? {evs evs' : List (Event τ)} {i : ℕ} {ev : Event τ} (h : Kept evs evs')
    (hev : evs[i]? = some ev) (hne : ev.evStatus ≠ .pending) : evs'[i]? = some ev := by
  obtain ⟨ev', hev', hkept⟩ := List.Forall₂.exists_getElem? h hev
  rw [hev', hkept hne]

omit [DecidableEq τ] in
theorem lateEvent_kept {i : ℕ} {l : Late} {o : Objects} {ev : Event τ}
    (h : ev.evStatus ≠ .pending) : (lateEvent env t i l o ev).2.2 = ev := by
  simp [lateEvent, h]

omit [DecidableEq τ] in
theorem lateEvents_kept {i : ℕ} {l : Late} {o : Objects} (evs : List (Event τ)) :
    Kept evs (lateEvents env t i l o evs).2.2 := by
  induction evs generalizing i l o with
  | nil => exact .nil
  | cons ev evs ih => exact .cons lateEvent_kept ih

omit [DecidableEq τ] in
theorem lateThreads_events {l : Late} {o : Objects} (xs : List (τ × List (Event τ))) :
    List.Forall₂ (fun x y => y.1 = x.1 ∧ ∃ l o, y.2 = (lateEvents env x.1 0 l o x.2).2.2) xs
      (lateThreads env l o xs) := by
  induction xs generalizing l o with
  | nil => exact .nil
  | cons x xs ih => exact .cons ⟨rfl, l, o, rfl⟩ ih

omit [DecidableEq τ] in
/-- What the second loop leaves of the events of a thread. -/
theorem Cleaned.late {l : Late} {ts : List τ} (hc : Cleaned env l s ts s') (ht : t ∈ ts) :
    ∃ l o, (s'.tcb t).events = (lateEvents env t 0 l o (s.tcb t).events).2.2 := by
  have h : List.Forall₂ (fun x y => y.1 = x.1 ∧
      ∃ l o, y.2 = (lateEvents env x.1 0 l o x.2).2.2) (ts.map fun t => (t, (s.tcb t).events))
      (lateThreads env l s.objects (ts.map fun t => (t, (s.tcb t).events))) :=
    lateThreads_events _
  rw [← hc.events, List.forall₂_map_left_iff, List.forall₂_map_right_iff,
    List.forall₂_same] at h
  exact (h t ht).2

omit [DecidableEq τ] in
theorem Cleaned.kept {l : Late} {ts : List τ} (hc : Cleaned env l s ts s') (ht : t ∈ ts) :
    Kept (s.tcb t).events (s'.tcb t).events := by
  obtain ⟨l, o, h⟩ := hc.late ht
  rw [h]
  exact lateEvents_kept _

theorem tagOccurred_scanned (u : τ) (i : ℕ) : s.Scanned (s.tagOccurred u i) :=
  scanned_modify ⟨rfl, rfl, rfl, rfl, rfl, rfl, rfl⟩

/-- Sleeping changes nothing, or it tags the timer that elapsed. -/
theorem elapse_cases (s : Sched τ) (sc : Scan τ) (dopoll : Bool) (rc : ℤ) :
    (s.elapse sc dopoll rc).2 = s ∨ ∃ x, sc.nexttimer = some x ∧ x.isFunc = false ∧
      (s.elapse sc dopoll rc).2 = s.tagOccurred x.thread x.index := by
  unfold elapse
  split
  · next x hx =>
    split
    · split
      · exact .inl rfl
      · next hfunc => exact .inr ⟨x, hx, by simpa using hfunc, rfl⟩
    · exact .inl rfl
  · exact .inl rfl

theorem elapse_scanned (sc : Scan τ) (dopoll : Bool) (rc : ℤ) :
    s.Scanned (s.elapse sc dopoll rc).2 := by
  rcases elapse_cases s sc dopoll rc with h | ⟨x, -, -, h⟩
  · rw [h]
    exact .refl s
  · rw [h]
    exact tagOccurred_scanned _ _

theorem elapse_objects (sc : Scan τ) (dopoll : Bool) (rc : ℤ) :
    (s.elapse sc dopoll rc).2.objects = s.objects := by
  rcases elapse_cases s sc dopoll rc with h | ⟨x, -, -, h⟩
  · rw [h]
  · rw [h]
    rfl

/-- The timer belongs to a thread whose events have been scanned. -/
theorem elapse_events {P : τ → ℕ → Event τ → Prop} {Q : Prop} {now : Time} {sc : Scan τ}
    (hc : Collected now P Q sc) (dopoll : Bool) (rc : ℤ) (ht : ∀ i ev, ¬ P t i ev) :
    ((s.elapse sc dopoll rc).2.tcb t).events = (s.tcb t).events := by
  rcases elapse_cases s sc dopoll rc with h | ⟨x, hx, -, h⟩
  · rw [h]
  · obtain ⟨ev, hev, -⟩ := hc.timer x hx
    have hne : t ≠ x.thread := by
      rintro rfl
      exact ht _ _ hev
    rw [h]
    simp [tagOccurred, hne]

theorem elapse_tagged {ev : Event τ} {i : ℕ} (sc : Scan τ) (dopoll : Bool) (rc : ℤ)
    (hev : (s.tcb t).events[i]? = some ev) (hocc : ev.evStatus = .occurred) :
    ((s.elapse sc dopoll rc).2.tcb t).events[i]? = some ev := by
  have htag : ∀ x : NextTimer τ,
      ((s.tagOccurred x.thread x.index).tcb t).events[i]? = some ev := by
    intro x
    have hself : { ev with evStatus := .occurred } = ev := by rw [← hocc]
    by_cases hx : t = x.thread
    · subst hx
      simp only [tagOccurred, modify_tcb, if_true, List.getElem?_modify, hev, Option.map_eq_map,
        Option.map_some, hself, ite_self]
    · simpa [tagOccurred, hx] using hev
  rcases elapse_cases s sc dopoll rc with h | ⟨x, -, -, h⟩
  · rwa [h]
  · rw [h]
    exact htag x

theorem sleep_tagged {ev : Event τ} {i : ℕ} (env : Env τ) (sc : Scan τ) (dopoll : Bool)
    (hev : (s.tcb t).events[i]? = some ev) (hocc : ev.evStatus = .occurred) :
    ((sleep env s sc dopoll).2.1.tcb t).events[i]? = some ev :=
  elapse_tagged sc _ _ hev hocc

/-- Only a timer event may have been tagged. -/
def Ticked (ev ev' : Event τ) : Prop :=
  ev' = ev ∨ ∃ tv, ev.evArgs = .time tv ∧ ev'.evArgs = .time tv

omit [DecidableEq τ] in
theorem ticked_modify {evs : List (Event τ)} {j : ℕ} {f : Event τ → Event τ}
    (h : ∀ ev, evs[j]? = some ev → Ticked ev (f ev)) :
    List.Forall₂ Ticked evs (evs.modify j f) := by
  induction evs generalizing j with
  | nil => simp
  | cons ev evs ih =>
    cases j with
    | zero =>
      rw [List.modify_zero_cons]
      exact .cons (h ev rfl) (List.forall₂_same.mpr fun _ _ => .inl rfl)
    | succ j =>
      rw [List.modify_succ_cons]
      exact .cons (.inl rfl) (ih fun ev hev => h ev hev)

/-- The timer that elapses is a timer event of the thread. -/
theorem elapse_ticked {P : τ → ℕ → Event τ → Prop} {Q : Prop} {now : Time} {sc : Scan τ}
    (hc : Collected now P Q sc) (hP : ∀ u i ev, P u i ev → (s.tcb u).events[i]? = some ev)
    (dopoll : Bool) (rc : ℤ) (t : τ) :
    List.Forall₂ Ticked (s.tcb t).events ((s.elapse sc dopoll rc).2.tcb t).events := by
  have hsame : List.Forall₂ Ticked (s.tcb t).events (s.tcb t).events :=
    List.forall₂_same.mpr fun _ _ => .inl rfl
  rcases elapse_cases s sc dopoll rc with h | ⟨x, hx, hfunc, h⟩
  · rwa [h]
  · rw [h]
    by_cases hxt : t = x.thread
    · subst hxt
      obtain ⟨ev, hev, -, htimes⟩ := hc.timer x hx
      simp only [tagOccurred, modify_tcb, if_true]
      refine ticked_modify fun ev' hev' => .inr ?_
      obtain rfl : ev = ev' := Option.some.inj ((hP _ _ _ hev).symm.trans hev')
      cases hargs : ev.evArgs <;> simp [hargs, EventArgs.Times, hfunc] at htimes ⊢
    · simpa [tagOccurred, hxt] using hsame

theorem sleep_ticked {s₁ : Sched τ} {sc : Scan τ} (hscan : scan env s = some (s₁, sc))
    (hnd : (s.queues.threads .WQ).Nodup) (dopoll : Bool) (t : τ) :
    List.Forall₂ Ticked (s₁.tcb t).events ((sleep env s₁ sc dopoll).2.1.tcb t).events :=
  elapse_ticked (scan_collected hscan hnd) (fun _ _ _ hev => hev.2) _ _ t

/-- A thread that is due to be woken: one of its events is not pending, or it has a
    cancellation request. -/
def Due (x : Tcb τ) : Prop := (∃ ev ∈ x.events, ev.evStatus ≠ .pending) ∨ x.cancelreq

omit [DecidableEq τ] in
theorem wakes_iff {x : Tcb τ} : wakes x = true ↔ Due x := by
  simp [wakes, Due]

instance (x : Tcb τ) : Decidable (Due x) := decidable_of_iff _ wakes_iff

/-- What a pass does to a thread: one of the waiting queue becomes ready if it is due,
    and its events change; any other is left alone. -/
structure Passed (s : Sched τ) (ts : List τ) (s' : Sched τ) : Prop where
  prio : ∀ t, (s'.tcb t).prio = (s.tcb t).prio
  joinable : ∀ t, (s'.tcb t).joinable = (s.tcb t).joinable
  cancelreq : ∀ t, (s'.tcb t).cancelreq = (s.tcb t).cancelreq
  cancelstate : ∀ t, (s'.tcb t).cancelstate = (s.tcb t).cancelstate
  state : ∀ t, (s'.tcb t).state =
    if t ∈ ts ∧ Due (s'.tcb t) then .ready else (s.tcb t).state
  events : ∀ t, t ∉ ts → (s'.tcb t).events = (s.tcb t).events
  live : s'.live = s.live
  pthMain : s'.pthMain = s.pthMain
  pthSched : s'.pthSched = s.pthSched
  pthCurrent : s'.pthCurrent = s.pthCurrent
  favournew : s'.favournew = s.favournew
  deletes : (∀ d ∈ s.deletes, d.2.2 = true) → ∀ d ∈ s'.deletes, d.2.2 = true

theorem Cleaned.passed {l : Late} {ts : List τ} {s₁ : Sched τ} (hc : Cleaned env l s₁ ts s')
    (hsc : s.Scanned s₁) (hev : ∀ t, t ∉ ts → (s₁.tcb t).events = (s.tcb t).events) :
    s.Passed ts s' := by
  have htcb : ∀ t, (s₁.tcb t).prio = (s'.tcb t).prio ∧
      (s₁.tcb t).joinable = (s'.tcb t).joinable ∧ (s₁.tcb t).cancelreq = (s'.tcb t).cancelreq ∧
      (s₁.tcb t).cancelstate = (s'.tcb t).cancelstate ∧ (s'.tcb t).state =
        if t ∈ ts ∧ Due (s'.tcb t) then .ready else (s₁.tcb t).state := by
    intro t
    by_cases ht : t ∈ ts
    · obtain ⟨evs, h⟩ := hc.woken t ht
      have hst := congrArg Tcb.state h
      simp only [wakes_iff] at hst
      refine ⟨?_, ?_, ?_, ?_, ?_⟩
      · rw [h]
      · rw [h]
      · rw [h]
      · rw [h]
      · simpa [ht] using hst
    · simp [hc.others t ht, ht]
  constructor
  · exact fun t => (htcb t).1.symm.trans (hsc.tcb t).prio
  · exact fun t => (htcb t).2.1.symm.trans (hsc.tcb t).joinable
  · exact fun t => (htcb t).2.2.1.symm.trans (hsc.tcb t).cancelreq
  · exact fun t => (htcb t).2.2.2.1.symm.trans (hsc.tcb t).cancelstate
  · exact fun t => (hsc.tcb t).state ▸ (htcb t).2.2.2.2
  · intro t ht
    rw [hc.others t ht]
    exact hev t ht
  · exact hc.live.trans hsc.live
  · exact hc.pthMain.trans hsc.pthMain
  · exact hc.pthSched.trans hsc.pthSched
  · exact hc.pthCurrent.trans hsc.pthCurrent
  · exact hc.favournew.trans hsc.favournew
  · exact fun h => hc.deletes (hsc.deletes ▸ h)

/-- A pass does not fault behind the first loop. -/
theorem eventmanager_cleaned {a : QId → List (τ × ℤ)} {s₁ : Sched τ} {sc : Scan τ}
    (h : s.queues.Repr a) (hscan : scan env s = some (s₁, sc)) (dopoll : Bool) :
    (s.eventmanager env dopoll).Ensures fun r =>
      r.1 = (sleep env s₁ sc dopoll).1 ∧
      r.2.queues.Repr (rearranged a [] (a .WQ) r.2.tcb) ∧
      Cleaned env (sleep env s₁ sc dopoll).2.2 (sleep env s₁ sc dopoll).2.1 (keys (a .WQ)) r.2 ∧
      s.Passed (keys (a .WQ)) r.2 ∧
      r.2.objects = (lateEnd env (sleep env s₁ sc dopoll).2.2 s₁.objects
        ((keys (a .WQ)).map fun t => (t, ((sleep env s₁ sc dopoll).2.1.tcb t).events))).2 := by
  have hsc : s.Scanned (sleep env s₁ sc dopoll).2.1 :=
    (scanThreads_scanned hscan).1.trans (elapse_scanned sc _ _)
  have h₁ : (sleep env s₁ sc dopoll).2.1.queues.Repr a := hsc.queues ▸ h
  have hhead : (sleep env s₁ sc dopoll).2.1.queues.head .WQ = (keys (a .WQ)).head? := h₁.head
  have hnum : ((sleep env s₁ sc dopoll).2.1.queues.elements .WQ).toNat = (a .WQ).length := by
    rw [h₁.elements]
    simp
  have hnd : (s.queues.threads .WQ).Nodup := h.threads_nodup
  have hev : ∀ t, t ∉ keys (a .WQ) →
      ((sleep env s₁ sc dopoll).2.1.tcb t).events = (s.tcb t).events := by
    intro t ht
    rw [← h.threads] at ht
    have hsame : ((sleep env s₁ sc dopoll).2.1.tcb t).events = (s₁.tcb t).events :=
      elapse_events (scan_collected hscan hnd) _ _ fun i ev hev => ht hev.1
    exact hsame.trans ((scanThreads_scanned hscan).2 t ht)
  simp only [Sched.eventmanager, hscan, Option.bind_some, hhead, hnum]
  apply (cleanup_cleaned (A := []) h₁ rfl (Nat.le_refl _)).map
  rintro s₃ ⟨hr, hc, hobj⟩
  rw [show (sleep env s₁ sc dopoll).2.1.objects = s₁.objects from elapse_objects sc _ _] at hobj
  have hc' : ∀ now, Cleaned env (sleep env s₁ sc dopoll).2.2 (sleep env s₁ sc dopoll).2.1
      (keys (a .WQ)) { s₃ with snapshot := now } := fun _ => { hc with }
  refine ⟨rfl, ?_, ?_, ?_, ?_⟩
  · split <;> exact hr
  · split
    · exact hc' _
    · exact hc
  · split
    · exact (hc' _).passed hsc hev
    · exact hc.passed hsc hev
  · split <;> exact hobj

/-- A pass splits the waiting queue into the threads that are due, which come to the
    ready queue in their old order, and the others, which are left alone. Every
    pending timer, message, mutex, condition variable, thread and function event
    whose condition holds when it is scanned is tagged as occurred. -/
theorem eventmanager_wakes_due {a : QId → List (τ × ℤ)} (h : s.queues.Repr a)
    (hscan : scan env s ≠ none) (dopoll : Bool) :
    (s.eventmanager env dopoll).Ensures fun (_, s') => ∃ a', s'.queues.Repr a' ∧
      a' .WQ = (a .WQ).filter (fun e => ¬ Due (s'.tcb e.1)) ∧
      a' .RQ = PrioList.insertAll (fun t => (s.tcb t).prio + 1)
        ((keys (a .WQ)).filter fun t => Due (s'.tcb t)) (a .RQ) ∧
      (∀ t ∈ keys (a .WQ), Due (s'.tcb t) →
        (s'.tcb t).state = .ready ∧ (keys (a' .RQ)).count t = 1) ∧
      ∀ A t B E ev F s₁, keys (a .WQ) = A ++ t :: B → (s.tcb t).events = E ++ ev :: F →
        ev.evStatus = .pending → scanPoint env s A t E = some s₁ →
        s₁.Holds env t E.length ev.evArgs →
        ∃ ev', (s'.tcb t).events[E.length]? = some ev' ∧ ev'.evStatus = .occurred := by
  obtain ⟨⟨s₁, sc⟩, hscan⟩ := Option.ne_none_iff_exists'.mp hscan
  apply (eventmanager_cleaned h hscan dopoll).mono
  rintro ⟨b, s'⟩ ⟨_, hr, hc, hp, -⟩
  dsimp only at hr hc hp
  refine ⟨_, hr, ?_, ?_, ?_, ?_⟩
  · simp [rearranged, ← wakes_iff]
  · simp [rearranged, ← wakes_iff, hp.prio]
  · intro t ht hdue
    refine ⟨by simp [hp.state, ht, hdue], ?_⟩
    refine List.count_eq_one_of_mem (hr.queue .RQ).nodup ?_
    refine PrioList.mem_keys_insertAll.mpr (.inl ?_)
    simpa [ht] using wakes_iff.mpr hdue
  · intro A t B E ev F s₂ hkeys hev hpend hpoint hold
    have hnd := (h.queue .WQ).nodup
    rw [hkeys] at hnd
    obtain ⟨-, hB, hAB⟩ := List.nodup_append.mp hnd
    rw [scan, h.threads, hkeys] at hscan
    obtain ⟨ev', hev', hocc⟩ := scanThreads_tags hscan
      (fun htA => hAB t htA t (by simp) rfl) (List.nodup_cons.mp hB).1 hev hpend hpoint hold
    -- the tag is kept by the timer and by the second loop
    have htag := sleep_tagged env sc dopoll hev' hocc
    exact ⟨ev', (hc.kept (by simp [hkeys])).getElem? htag (by simp [hocc]), hocc⟩

/-- An environment in which nothing happens. It answers `select(2)` as when the time is over,
    which is an answer for passes that poll or have a timer (`selectReturns`). -/
def quiet : Env τ where
  sigpending _ := false
  func _ _ := false
  stale _ := .dead
  select _ _ := { rc := 0, sets := .zero, raised := fun _ => false }
  now := .zero

/-- Variables with no threads and no objects. -/
def blank (t : τ) : Sched τ where
  queues := .fresh { link := { next := fun _ => none, prev := fun _ => none }, qPrio := fun _ => 0 }
  tcb _ := { prio := 0, state := .new, events := [], sigpending := fun _ => false,
             sigpendcnt := 0, stackguard := false, joinable := true, joinArg := 0,
             cancelreq := false, cancelstate := cancelDefault }
  live _ := false
  pthMain := t
  pthSched := t
  pthCurrent := none
  favournew := true
  objects := { mxLocked := fun _ => false, mpElements := fun _ => 0,
               cond := fun _ => { signaled := false, broadcast := false, handled := false } }
  snapshot := .zero
  sigpipe := 0
  deletes := []

/-- The thread 1 waits for a mutex that is not locked. -/
def mutexWaiter : Sched ℕ :=
  { (blank 0).modify 1 (fun tcb => { tcb with
      state := .waiting
      events := [{ evStatus := .pending, evArgs := .mutex 0 }] }) with
    queues := ((blank 0).queues.insert .WQ 0 1).getD (blank 0).queues }

theorem mutexWaiter_repr :
    mutexWaiter.queues.Repr (Function.update (fun _ => []) .WQ [(1, 0)]) := by
  obtain ⟨qs, hins, hr⟩ := (Queues.Repr.fresh (blank 0).queues.node).insert (k := QId.WQ) (t := 1)
    0 (by simp)
  have hqs : mutexWaiter.queues = qs := by
    change ((blank 0).queues.insert .WQ 0 1).getD (blank 0).queues = qs
    rw [show (blank 0).queues.insert .WQ 0 1 = some qs from hins, Option.getD_some]
  rw [hqs]
  exact hr

/-- The thread 2 waits, too, for a mutex that is locked. -/
def mutexWaiters : Sched ℕ :=
  { mutexWaiter.modify 2 (fun tcb => { tcb with
      state := .waiting
      events := [{ evStatus := .pending, evArgs := .mutex 1 }] }) with
    queues := (mutexWaiter.queues.insert .WQ 0 2).getD mutexWaiter.queues
    objects := { mutexWaiter.objects with mxLocked := fun m => m = 1 } }

theorem mutexWaiters_repr :
    mutexWaiters.queues.Repr (Function.update (fun _ => []) .WQ [(1, 0), (2, 0)]) := by
  obtain ⟨qs, hins, hr⟩ := mutexWaiter_repr.insert (k := QId.WQ) (t := 2) 0 (by decide)
  have hqs : mutexWaiters.queues = qs := by
    change (mutexWaiter.queues.insert .WQ 0 2).getD mutexWaiter.queues = qs
    rw [hins, Option.getD_some]
  rw [Function.update_idem, Function.update_self] at hr
  rw [hqs]
  exact hr

/-- The first thread becomes ready, and the second one stays. -/
theorem eventmanager_wakes_due_mutex : scan quiet mutexWaiters ≠ none ∧
    (mutexWaiters.eventmanager quiet false).Ensures fun (_, s') =>
      (s'.tcb 1).state = .ready ∧ ∃ a', s'.queues.Repr a' ∧ (keys (a' .RQ)).count 1 = 1 ∧
        a' .WQ = [(2, 0)] := by
  have hscan : scan quiet mutexWaiters ≠ none := by
    rw [← Option.isSome_iff_ne_none]
    decide
  have hstays : (mutexWaiters.eventmanager quiet false).all fun x => ¬ Due (x.2.tcb 2) := by decide
  refine ⟨hscan, ?_⟩
  obtain ⟨⟨b, s'⟩, hs', a', hr, hwq, -, hdue, htag⟩ :=
    eventmanager_wakes_due mutexWaiters_repr hscan false
  obtain ⟨ev, hev, hocc⟩ := htag [] 1 [2] [] { evStatus := .pending, evArgs := .mutex 0 } []
    mutexWaiters (by simp) (by simp [mutexWaiters, mutexWaiter]) rfl rfl (by rfl)
  have hfirst : Due (s'.tcb 1) := .inl ⟨ev, List.mem_of_getElem? hev, by simp [hocc]⟩
  have hsecond : ¬ Due (s'.tcb 2) := by simpa [hs'] using hstays
  obtain ⟨hst, hcount⟩ := hdue 1 (by simp) hfirst
  refine ⟨_, hs', hst, a', hr, hcount, ?_⟩
  simpa [hfirst, hsecond] using hwq

omit [DecidableEq τ] in
theorem mem_rearranged {a : QId → List (τ × ℤ)} {tcb : τ → Tcb τ} {k : QId} :
    t ∈ keys (rearranged a [] (a .WQ) tcb k) ↔
      (t ∈ keys (a k) ∧ ¬ (k = .WQ ∧ Due (tcb t))) ∨
        (k = .RQ ∧ t ∈ keys (a .WQ) ∧ Due (tcb t)) := by
  cases k with
  | WQ =>
    simp [rearranged, PrioList.mem_keys, ← wakes_iff]
  | RQ =>
    simp [rearranged, PrioList.mem_keys_insertAll, ← wakes_iff]
    tauto
  | _ => simp [rearranged]

/-- A pass keeps queues and states consistent. -/
theorem Consistent.eventmanager {a : QId → List (τ × ℤ)} {H : Set τ} {s₁ : Sched τ}
    {sc : Scan τ} (h : s.Consistent a H) (hscan : scan env s = some (s₁, sc)) (dopoll : Bool) :
    (s.eventmanager env dopoll).Ensures fun r =>
      r.1 = (sleep env s₁ sc dopoll).1 ∧
      r.2.Consistent (rearranged a [] (a .WQ) r.2.tcb) H ∧
      Cleaned env (sleep env s₁ sc dopoll).2.2 (sleep env s₁ sc dopoll).2.1 (keys (a .WQ)) r.2 ∧
      s.Passed (keys (a .WQ)) r.2 := by
  apply (eventmanager_cleaned h.repr hscan dopoll).mono
  rintro ⟨b, s'⟩ ⟨hb, hr, hc, hp, -⟩
  dsimp only at hr hc hp
  have hsub : ∀ {k t}, t ∈ keys (rearranged a [] (a .WQ) s'.tcb k) → ∃ k', t ∈ keys (a k') := by
    intro k t ht
    rcases mem_rearranged.mp ht with ht | ht
    · exact ⟨k, ht.1⟩
    · exact ⟨.WQ, ht.2.1⟩
  refine ⟨hb, ?_, hc, hp⟩
  constructor
  · exact hr
  · intro k t ht
    obtain ⟨k', ht'⟩ := hsub ht
    exact hp.live ▸ h.live ht'
  · intro k t ht
    obtain ⟨k', ht'⟩ := hsub ht
    exact hp.pthSched ▸ h.sched ht'
  · intro k t ht
    obtain ⟨k', ht'⟩ := hsub ht
    exact h.away ht'
  · intro k t ht
    rcases mem_rearranged.mp ht with ⟨ht, hdue⟩ | ⟨rfl, ht, hdue⟩
    · -- a thread that stays in its queue keeps its state
      have hstay : ¬ (t ∈ keys (a .WQ) ∧ Due (s'.tcb t)) := fun hw =>
        hdue ⟨h.repr.disjoint ht hw.1, hw.2⟩
      exact (h.fits ht).congr (by rw [hp.state, if_neg hstay]) fun _ => hp.joinable t
    · exact (hp.state t).trans (if_pos ⟨ht, hdue⟩)
  · intro t hl hs hH
    obtain ⟨k, ht⟩ := h.queued (hp.live ▸ hl) (hp.pthSched ▸ hs) hH
    by_cases hdue : k = .WQ ∧ Due (s'.tcb t)
    · exact ⟨.RQ, mem_rearranged.mpr (.inr ⟨rfl, hdue.1 ▸ ht, hdue.2⟩)⟩
    · exact ⟨k, mem_rearranged.mpr (.inl ⟨ht, hdue⟩)⟩
  · intro t ht
    rw [hp.live, hp.pthSched]
    exact h.awayLive ht
  · rw [hp.live, hp.pthSched]
    exact h.schedLive
  · exact hp.deletes h.deletes

end Sched

end Pth
