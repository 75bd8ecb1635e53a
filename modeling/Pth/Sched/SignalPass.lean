-- SUMMARY: Signals caught in the sleep, and when a whole event manager pass loses no signal.
import Pth.Sched.Signals

/-!
# Signals in a pass

The second loop hands the caught signals to the events that found no pending one. Both
loops are put together here: a pass loses no signal exactly if no event finds two. -/

namespace Pth

namespace Sched

variable {τ : Type*} [DecidableEq τ] {env : Env τ} {s x x' x'' y : Sched τ}
  {sc sc' sc'' : Scan τ} {t : τ} {i : ℕ} {ev ev' : Event τ} {evs evs' : List (Event τ)}
  {P : List (τ × Event τ)} {l : Late} {o : Objects} {caught : SigSet}

/-! ## The second loop -/

/-- The condition on an event in the second loop. -/
def Later (env : Env τ) (s : Sched τ) (caught : SigSet) (P : List (τ × Event τ))
    (y : τ × Event τ) : Prop :=
  ∀ w ∈ leaves env s P y, (caughtFound env s caught P w.1).length ≤ 1

/-- The caught signals that are left are those that no event in `P` has taken. -/
def Heard (env : Env τ) (s : Sched τ) (caught : SigSet) (P : List (τ × Event τ)) (l : Late) :
    Prop :=
  ∀ n ∈ signals, l.raised n = (caught n && !unmet env s P n)

/-- The event behind `P` takes what it waits for. -/
theorem unmet_append (y : τ × Event τ) (n : ℕ) : unmet env s (P ++ [y]) n =
    (unmet env s P n || (leaves env s P y).any fun w => w.1 n) := by
  have hlast : (leaves env s P y).any (fun w => w.1 n) = y.2.wants.any fun w =>
      w.1 n && (found env s P y.1 w.1).isEmpty := by
    cases hw : y.2.wants with
    | none => simp [leaves, hw]
    | some w => by_cases hnil : found env s P y.1 w.1 = [] <;> simp [leaves, foundBy, hw, hnil]
  rw [hlast, unmet, unmet, List.length_append, List.length_singleton, List.range_succ,
    List.any_append]
  congr 1
  · rw [Bool.eq_iff_iff, List.any_eq_true, List.any_eq_true]
    refine exists_congr fun i => and_congr_right fun hi => ?_
    have hi := List.mem_range.mp hi
    rw [List.getElem?_append_left hi, List.take_append_of_le_length hi.le]
  · simp

omit [DecidableEq τ] in
/-- A signal event takes all caught signals of its set. -/
theorem lateEvent_wants (env : Env τ) (t : τ) (i : ℕ) (l : Late) (o : Objects)
    {w : SigSet × Option ℤ} (hw : ev.wants = some w) :
    (lateEvent env t i l o ev).2.2 = stored w (signals.filter fun n => w.1 n && l.raised n) ∧
      ∀ n ∈ signals, (lateEvent env t i l o ev).1.raised n = (l.raised n && !w.1 n) := by
  obtain ⟨hp, hargs⟩ := Event.wants_eq_some.mp hw
  simp only [lateEvent, hp, if_true, hargs, lateArgs]
  by_cases hnil : (signals.filter fun n => w.1 n && l.raised n) = []
  · refine ⟨by simp [hnil, stored], fun n hn => ?_⟩
    have hno := List.filter_eq_nil_iff.mp hnil n hn
    cases hr : l.raised n <;> simp_all
  · have hlast := List.getLast?_eq_some_getLast hnil
    simp only [List.isEmpty_eq_false_iff.mpr hnil, stored, if_neg hnil, hlast]
    refine ⟨rfl, fun n hn => ?_⟩
    cases hr : l.raised n <;> simp [hr, hn]

omit [DecidableEq τ] in
/-- Other events leave the caught signals alone. -/
theorem lateEvent_other (hw : ev.wants = none) :
    (lateEvent env t i l o ev).1.raised = l.raised := by
  unfold lateEvent
  split
  · next hp =>
    cases hargs : ev.evArgs with
    | sigs sigs sig =>
      rw [Event.wants_eq_some (w := (sigs, sig)).mpr ⟨hp, hargs⟩] at hw
      cases hw
    | fd goal fd =>
      simp only [lateArgs]
      split
      · rfl
      · split
        · split
          · rfl
          · split <;> rfl
        · rfl
    | select n nfd rfds wfds efds =>
      simp only [lateArgs]
      split
      · rfl
      · split <;> rfl
    | _ => rfl
  · rfl

/-- The second loop at an event that the first loop leaves as `ev'`. -/
theorem Heard.lateEvent (h : Heard env s caught P l) (t : τ) (i : ℕ) (o : Objects)
    (hw : ev'.wants = leaves env s P (t, ev)) :
    Heard env s caught (P ++ [(t, ev)]) (lateEvent env t i l o ev').1 ∧
      (Look.Exact ⟨t, ev', (Sched.lateEvent env t i l o ev').2.2,
          lost l.raised (Sched.lateEvent env t i l o ev').1.raised⟩ ↔
        Later env s caught P (t, ev)) := by
  cases hleft : leaves env s P (t, ev) with
  | none =>
    rw [hleft] at hw
    refine ⟨fun n hn => ?_, ?_⟩
    · rw [lateEvent_other hw, h n hn, unmet_append, hleft]
      simp
    · simp [Look.Exact, hw, lateEvent_other hw, lost_self, Later, hleft]
  | some w =>
    rw [hleft] at hw
    obtain ⟨hev, hraised⟩ := lateEvent_wants env t i l o hw
    have hspent : lost l.raised (Sched.lateEvent env t i l o ev').1.raised =
        signals.filter fun n => w.1 n && l.raised n := lost_eq hraised
    have hcaught : (signals.filter fun n => w.1 n && l.raised n) =
        caughtFound env s caught P w.1 := List.filter_congr fun n hn => by rw [h n hn]
    refine ⟨fun n hn => ?_, ?_⟩
    · rw [hraised n hn, h n hn, unmet_append, hleft]
      simp [Bool.and_assoc]
    · have hexact := exact_stored (t := t) (p := fun n => w.1 n && l.raised n)
        (q := fun _ => false) hw
      simp only [Bool.or_false, List.filter_false, List.append_nil] at hexact
      rw [hev, hspent, hexact, hcaught]
      simp [Later, hleft]

/-- The second loop over the events of a thread that the first loop leaves as `evs'`. -/
theorem Heard.lateEvents (h : Heard env s caught P l) (t : τ) (i : ℕ) (o : Objects)
    (hleft : Left env s t P evs evs') :
    Heard env s caught (P ++ evs.map fun ev => (t, ev)) (lateEvents env t i l o evs').1 ∧
      ((∀ k ∈ lateEventsLog env t i l o evs', k.Exact) ↔
        List.Along (Later env s caught) P (evs.map fun ev => (t, ev))) := by
  induction evs generalizing P l i o evs' with
  | nil =>
    cases evs' with
    | nil => exact ⟨by simpa [Sched.lateEvents] using h, by simp [lateEventsLog]⟩
    | cons ev' evs' => exact hleft.elim
  | cons ev evs ih =>
    cases evs' with
    | nil => exact hleft.elim
    | cons ev' evs' =>
      obtain ⟨hheard, hexact⟩ := h.lateEvent t i o hleft.1
      obtain ⟨hend, hiff⟩ := ih hheard (i + 1) (Sched.lateEvent env t i l o ev').2.1 hleft.2
      refine ⟨by simpa [Sched.lateEvents] using hend, ?_⟩
      rw [List.map_cons, List.along_cons, ← hexact, ← hiff]
      exact List.forall_mem_cons

/-- The second loop over some threads that the first loop leaves as in `y`. -/
theorem Heard.lateThreads (h : Heard env s caught P l) (o : Objects) {ts : List τ}
    (hleft : LeftAll env s y P ts) :
    (∀ k ∈ lateThreadsLog env l o (ts.map fun t => (t, (y.tcb t).events)), k.Exact) ↔
      List.Along (Later env s caught) P (ts.flatMap s.held) := by
  induction ts generalizing P l o with
  | nil => simp [lateThreadsLog]
  | cons t ts ih =>
    obtain ⟨hend, hiff⟩ := h.lateEvents t 0 o hleft.1
    rw [List.flatMap_cons, List.along_append, held, ← hiff, ← ih hend _ hleft.2]
    exact List.forall_mem_append

omit [DecidableEq τ] in
theorem Ticked.wants (h : Ticked ev ev') : ev'.wants = ev.wants := by
  have htime : ∀ (e : Event τ) tv, e.evArgs = .time tv → e.wants = none := by
    rintro ⟨status, args⟩ tv rfl
    cases status <;> rfl
  rcases h with rfl | ⟨tv, hev, hev'⟩
  · rfl
  · rw [htime _ _ hev, htime _ _ hev']

theorem Left.ticked {evs'' : List (Event τ)} (h : Left env s t P evs evs')
    (htick : List.Forall₂ Ticked evs' evs'') : Left env s t P evs evs'' := by
  induction htick generalizing P evs with
  | nil => exact h
  | cons hx _ ih =>
    cases evs with
    | nil => exact h.elim
    | cons ev evs => exact ⟨hx.wants.trans h.1, ih h.2⟩

theorem LeftAll.ticked {ts : List τ} (h : LeftAll env s x P ts)
    (htick : ∀ t, List.Forall₂ Ticked (x.tcb t).events (y.tcb t).events) :
    LeftAll env s y P ts := by
  induction ts generalizing P with
  | nil => trivial
  | cons t ts ih => exact ⟨h.1.ticked (htick t), ih h.2⟩

/-! ## Signals that are no longer pending -/

/-- Each signal that is no longer pending was deleted in one of the looks, for a thread in
    a look at its events. -/
structure Accounts (log : List (Look τ)) (x : Sched τ) (sc : Scan τ) (x' : Sched τ)
    (sc' : Scan τ) : Prop where
  own : ∀ t, ∀ n ∈ signals, (x.tcb t).sigpending n → (x'.tcb t).sigpending n ∨
    ∃ k ∈ log, k.thread = t ∧ n ∈ k.spent
  process : ∀ n ∈ signals, sc.sigpending n → sc'.sigpending n ∨ ∃ k ∈ log, n ∈ k.spent

variable {log log' : List (Look τ)}

omit [DecidableEq τ] in
theorem Accounts.append (h : Accounts log x sc x' sc') (h' : Accounts log' x' sc' x'' sc'') :
    Accounts (log ++ log') x sc x'' sc'' where
  own t n hn hx := by
    rcases h.own t n hn hx with hx' | ⟨k, hk, hkt⟩
    · rcases h'.own t n hn hx' with hx'' | ⟨k, hk, hkt⟩
      · exact .inl hx''
      · exact .inr ⟨k, List.mem_append_right _ hk, hkt⟩
    · exact .inr ⟨k, List.mem_append_left _ hk, hkt⟩
  process n hn hx := by
    rcases h.process n hn hx with hx' | ⟨k, hk, hkn⟩
    · rcases h'.process n hn hx' with hx'' | ⟨k, hk, hkn⟩
      · exact .inl hx''
      · exact .inr ⟨k, List.mem_append_right _ hk, hkn⟩
    · exact .inr ⟨k, List.mem_append_left _ hk, hkn⟩

omit [DecidableEq τ] in
/-- Nothing is deleted. -/
theorem Accounts.of_eq (hown : ∀ t, (x'.tcb t).sigpending = (x.tcb t).sigpending)
    (hproc : sc'.sigpending = sc.sigpending) : Accounts log x sc x' sc' :=
  ⟨fun t n _ hx => .inl (by rw [hown t]; exact hx), fun n _ hx => .inl (by rw [hproc]; exact hx)⟩

end Sched

end Pth
