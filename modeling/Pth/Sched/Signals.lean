-- SUMMARY: Which signals the events of an event manager pass consume, and when each event consumes just one.
import Pth.Lib.Along
import Pth.Sched.Wakeup

/-!
# Signal events

A pending signal event takes signals from three places: those pending for its thread,
those pending for the process, and those caught while the scheduler sleeps. The loops
over the signal numbers do not stop at the first one they find. The log of a pass says
for each event that is looked at which signals are no longer pending afterwards. -/

namespace Pth

variable {τ : Type*}

/-! ## What a pass takes -/

/-- The set and the cell of a signal event that is pending. -/
def Event.wants (ev : Event τ) : Option (SigSet × Option ℤ) :=
  match ev.evStatus, ev.evArgs with
  | .pending, .sigs sigs sig => some (sigs, sig)
  | _, _ => none

theorem Event.wants_eq_some {ev : Event τ} {w : SigSet × Option ℤ} :
    ev.wants = some w ↔ ev.evStatus = .pending ∧ ev.evArgs = .sigs w.1 w.2 := by
  obtain ⟨status, args⟩ := ev
  cases status <;> cases args <;> simp [Event.wants, Prod.ext_iff]

/-- The signal `n` is in the set of the event, which is pending. -/
def Event.awaits (n : ℕ) (ev : Event τ) : Bool := ev.wants.any fun w => w.1 n

/-- The signals of the first set that are not in the second one. -/
def lost (x y : SigSet) : List ℕ := signals.filter fun n => x n && !y n

/-- One look at an event of a thread, and the signals that are deleted meanwhile. -/
structure Look (τ : Type*) where
  thread : τ
  before : Event τ
  after : Event τ
  spent : List ℕ

/-- The event consumes the signal `n`. -/
def Look.Takes (k : Look τ) (n : ℕ) : Prop :=
  k.before.wants ≠ none ∧ k.after.evStatus = .occurred ∧ k.spent = [n]

/-- A signal event that is tagged consumes one signal, which it stores if it has a cell
    for it, and no other event consumes any. -/
def Look.Exact (k : Look τ) : Prop :=
  match k.before.wants with
  | none => k.spent = []
  | some (sigs, sig) =>
    if k.after.evStatus = .occurred then
      ∃ n : ℕ, k.spent = [n] ∧ k.after.evArgs = .sigs sigs (sig.map fun _ => (n : ℤ))
    else k.spent = []

/-- A deleted signal is consumed by the event that is looked at. -/
theorem Look.Exact.takes {k : Look τ} {n : ℕ} (h : k.Exact) (hn : n ∈ k.spent) : k.Takes n := by
  unfold Look.Exact at h
  split at h
  · simp [h] at hn
  · next hw =>
    split at h
    · next hocc =>
      obtain ⟨m, hspent, -⟩ := h
      obtain rfl : n = m := by simpa [hspent] using hn
      exact ⟨by simp [hw], hocc, hspent⟩
    · simp [h] at hn

namespace Sched

variable [DecidableEq τ]

/-- The looks of the first loop at the events of the thread `t`. -/
def scanEventsLog (env : Env τ) (t : τ) :
    ℕ → Sched τ → Scan τ → List (Event τ) → List (Look τ)
  | _, _, _, [] => []
  | i, s, sc, ev :: evs =>
    match s.scanEvent env t i sc ev with
    | none => []
    | some (s', sc', ev') =>
      { thread := t, before := ev, after := ev'
        spent := lost (s.tcb t).sigpending (s'.tcb t).sigpending ++
          lost sc.sigpending sc'.sigpending } :: scanEventsLog env t (i + 1) s' sc' evs

/-- The looks of the first loop. -/
def scanThreadsLog (env : Env τ) : Sched τ × Scan τ → List τ → List (Look τ)
  | _, [] => []
  | x, t :: ts =>
    scanEventsLog env t 0 x.1 (x.1.noticeCancel x.2 t) (x.1.tcb t).events ++
      match scanThread env x.1 x.2 t with
      | none => []
      | some y => scanThreadsLog env y ts

/-- The looks of the second loop at the events of the thread `t`. -/
def lateEventsLog (env : Env τ) (t : τ) : ℕ → Late → Objects → List (Event τ) → List (Look τ)
  | _, _, _, [] => []
  | i, l, o, ev :: evs =>
    let r := lateEvent env t i l o ev
    { thread := t, before := ev, after := r.2.2, spent := lost l.raised r.1.raised } ::
      lateEventsLog env t (i + 1) r.1 r.2.1 evs

/-- The looks of the second loop. -/
def lateThreadsLog (env : Env τ) : Late → Objects → List (τ × List (Event τ)) → List (Look τ)
  | _, _, [] => []
  | l, o, (t, evs) :: ts =>
    let r := lateEvents env t 0 l o evs
    lateEventsLog env t 0 l o evs ++ lateThreadsLog env r.1 r.2.1 ts

/-- The events of the waiting threads, in the order of the loops. -/
def held (s : Sched τ) (t : τ) : List (τ × Event τ) := (s.tcb t).events.map fun ev => (t, ev)

/-- The signals of a set that are pending for the thread `t` and that no event of it in
    `P` awaits. -/
def ownFound (s : Sched τ) (P : List (τ × Event τ)) (t : τ) (sigs : SigSet) : List ℕ :=
  signals.filter fun n =>
    sigs n && ((s.tcb t).sigpending n && !P.any fun y => decide (y.1 = t) && y.2.awaits n)

/-- The signals of a set that are pending for the process and that no event in `P`
    awaits. -/
def processFound (env : Env τ) (P : List (τ × Event τ)) (sigs : SigSet) : List ℕ :=
  signals.filter fun n => sigs n && (env.sigpending n && !P.any fun y => y.2.awaits n)

/-- All pending signals that a signal event of the thread `t` finds behind the events
    `P`. -/
def found (env : Env τ) (s : Sched τ) (P : List (τ × Event τ)) (t : τ) (sigs : SigSet) : List ℕ :=
  ownFound s P t sigs ++ processFound env P sigs

/-- The signal `n` is awaited by an event in `P` that finds no pending signal. -/
def unmet (env : Env τ) (s : Sched τ) (P : List (τ × Event τ)) (n : ℕ) : Bool :=
  (List.range P.length).any fun i => P[i]?.any fun y => y.2.wants.any fun w =>
    w.1 n && (found env s (P.take i) y.1 w.1).isEmpty

/-- The caught signals that a signal event behind `P` finds. -/
def caughtFound (env : Env τ) (s : Sched τ) (caught : SigSet) (P : List (τ × Event τ))
    (sigs : SigSet) : List ℕ :=
  signals.filter fun n => sigs n && (caught n && !unmet env s P n)

end Sched

namespace SigScan

/-- A turn of the loop over the signals that does not fault. -/
def turn (sigs : SigSet) (x : SigScan) (n : ℕ) : SigScan where
  own := if sigs n then Function.update x.own n false else x.own
  cnt := if sigs n && x.own n then x.cnt - 1 else x.cnt
  pending := if sigs n then Function.update x.pending n false else x.pending
  catches := if sigs n && !x.pending n then Function.update x.catches n true else x.catches
  sig := if sigs n && (x.own n || x.pending n) then x.sig.map fun _ => (n : ℤ) else x.sig
  occurred := x.occurred || (sigs n && (x.own n || x.pending n))

/-- A turn faults if there is no cell for a signal of the thread. -/
theorem step_eq (sigs : SigSet) (x : SigScan) (n : ℕ) :
    step sigs x n = if sigs n && x.own n && x.sig.isNone then none else some (x.turn sigs n) := by
  obtain ⟨own, cnt, pending, catches, sig, occurred⟩ := x
  unfold step ownSignal processSignal turn
  cases hs : sigs n with
  | false => simp
  | true => cases ho : own n <;> cases hp : pending n <;> cases sig <;> simp [ho, hp]

/-- `sigdelset` of a signal if it is in the set `sigs`. -/
theorem update_if (sigs x : SigSet) (n m : ℕ) :
    (if sigs n then Function.update x n false else x) m =
      (x m && !(decide (m = n) && sigs m)) := by
  by_cases hm : m = n
  · subst hm
    cases hs : sigs m <;> simp
  · cases hs : sigs n <;> simp [hm]

theorem turn_own (sigs : SigSet) (x : SigScan) (n m : ℕ) :
    (x.turn sigs n).own m = (x.own m && !(decide (m = n) && sigs m)) :=
  update_if sigs x.own n m

theorem turn_pending (sigs : SigSet) (x : SigScan) (n m : ℕ) :
    (x.turn sigs n).pending m = (x.pending m && !(decide (m = n) && sigs m)) :=
  update_if sigs x.pending n m

/-- The signals of the list `l` that the loop finds for an event. -/
def hits (sigs : SigSet) (x : SigScan) (l : List ℕ) : List ℕ :=
  l.filter fun n => sigs n && (x.own n || x.pending n)

/-- The signals of the list `l` that the loop finds pending for the thread. -/
def ownHits (sigs : SigSet) (x : SigScan) (l : List ℕ) : List ℕ :=
  l.filter fun n => sigs n && x.own n

/-- What the loop over the signals `l` leaves. -/
structure Looped (sigs : SigSet) (l : List ℕ) (x y : SigScan) : Prop where
  own : ∀ n, y.own n = (x.own n && !(decide (n ∈ l) && sigs n))
  pending : ∀ n, y.pending n = (x.pending n && !(decide (n ∈ l) && sigs n))
  occurred : y.occurred = (x.occurred || !(x.hits sigs l).isEmpty)
  sig : y.sig = x.sig.map fun v => ((x.hits sigs l).getLast?.map Nat.cast).getD v

variable {sigs : SigSet} {l : List ℕ} {x : SigScan} {n : ℕ}

/-- The signals behind `n` are found as before. -/
theorem turn_hits (hn : n ∉ l) : (x.turn sigs n).hits sigs l = x.hits sigs l ∧
    (x.turn sigs n).ownHits sigs l = x.ownHits sigs l := by
  have hne : ∀ m ∈ l, m ≠ n := fun m hm heq => hn (heq ▸ hm)
  constructor
  · exact List.filter_congr fun m hm => by simp [turn_own, turn_pending, hne m hm]
  · exact List.filter_congr fun m hm => by simp [turn_own, hne m hm]

theorem Looped.cons {y : SigScan} (hn : n ∉ l) (h : Looped sigs l (x.turn sigs n) y) :
    Looped sigs (n :: l) x y where
  own m := by
    rw [h.own, turn_own]
    by_cases hm : m = n <;> cases sigs m <;> simp [hm]
  pending m := by
    rw [h.pending, turn_pending]
    by_cases hm : m = n <;> cases sigs m <;> simp [hm]
  occurred := by
    rw [h.occurred, (turn_hits hn).1]
    cases hit : sigs n && (x.own n || x.pending n) <;> simp [turn, hits, hit]
  sig := by
    rw [h.sig, (turn_hits hn).1]
    cases hit : sigs n && (x.own n || x.pending n) with
    | false => simp [turn, hits, hit]
    | true =>
      have hcons : x.hits sigs (n :: l) = n :: x.hits sigs l := by simp [hits, hit]
      rw [hcons, List.getLast?_cons]
      cases hx : x.sig <;> cases (x.hits sigs l).getLast? <;> simp [turn, hit, hx]

/-- The loop faults if it finds a signal of the thread and there is no cell, and otherwise
    it deletes all signals of the set. -/
theorem foldlM_step (sigs : SigSet) (hl : l.Nodup) (x : SigScan) :
    x.sig = none ∧ x.ownHits sigs l ≠ [] ∧ l.foldlM (step sigs) x = none ∨
      (x.sig = none → x.ownHits sigs l = []) ∧
        ∃ y, l.foldlM (step sigs) x = some y ∧ Looped sigs l x y := by
  induction l generalizing x with
  | nil =>
    refine .inr ⟨fun _ => rfl, x, rfl, by simp, by simp, by simp [hits], by simp [hits]⟩
  | cons n l ih =>
    obtain ⟨hn, hl⟩ := List.nodup_cons.mp hl
    rw [List.foldlM_cons, step_eq]
    by_cases hfault : (sigs n && x.own n && x.sig.isNone) = true
    · simp only [Bool.and_eq_true, Option.isNone_iff_eq_none] at hfault
      exact .inl ⟨hfault.2, by simp [ownHits, hfault.1], by simp [hfault]⟩
    · rw [if_neg hfault]
      have hsig : (x.turn sigs n).sig = none ↔ x.sig = none := by
        cases hit : sigs n && (x.own n || x.pending n) <;> simp [turn, hit]
      have hown : x.sig = none → x.ownHits sigs (n :: l) = x.ownHits sigs l := by
        intro hnone
        simp only [hnone, Option.isNone_none, Bool.and_true, Bool.not_eq_true] at hfault
        simp [ownHits, hfault]
      have hrest := ih hl (x.turn sigs n)
      rw [hsig, (turn_hits hn).2] at hrest
      rcases hrest with ⟨hnone, hfound, hfold⟩ | ⟨hnull, y, hy, hloop⟩
      · exact .inl ⟨hnone, hown hnone ▸ hfound, hfold⟩
      · exact .inr ⟨fun hnone => (hown hnone).trans (hnull hnone), y, hy, hloop.cons hn⟩

end SigScan

/-! ## One event in the first loop -/

namespace Sched

variable [DecidableEq τ] {env : Env τ} {s x x' : Sched τ} {sc sc' : Scan τ} {t : τ} {i : ℕ}
  {ev ev' : Event τ} {P : List (τ × Event τ)}

/-- The pending signals are those of `s` that no event in `P` awaits. -/
structure Tracks (env : Env τ) (s : Sched τ) (P : List (τ × Event τ)) (x : Sched τ) (sc : Scan τ) :
    Prop where
  own : ∀ t, ∀ n ∈ signals, (x.tcb t).sigpending n =
    ((s.tcb t).sigpending n && !P.any fun y => decide (y.1 = t) && y.2.awaits n)
  process : ∀ n ∈ signals, sc.sigpending n =
    (env.sigpending n && !P.any fun y => y.2.awaits n)

/-- The signals that the event finds behind the events `P`. -/
def foundBy (env : Env τ) (s : Sched τ) (P : List (τ × Event τ)) (y : τ × Event τ) : List ℕ :=
  y.2.wants.elim [] fun w => found env s P y.1 w.1

/-- What the event waits for in the second loop. -/
def leaves (env : Env τ) (s : Sched τ) (P : List (τ × Event τ)) (y : τ × Event τ) :
    Option (SigSet × Option ℤ) :=
  if foundBy env s P y = [] then y.2.wants else none

/-- The condition on an event in the first loop. -/
def Early (env : Env τ) (s : Sched τ) (P : List (τ × Event τ)) (y : τ × Event τ) : Prop :=
  (foundBy env s P y).length ≤ 1 ∧ ∀ w ∈ y.2.wants, w.2 = none → ownFound s P y.1 w.1 = []

theorem signals_nodup : signals.Nodup := List.nodup_range'

/-- Looking at an event of another kind leaves the signals alone. -/
theorem scanArgs_other {args : EventArgs τ} (hargs : ∀ sigs sig, args ≠ .sigs sigs sig) :
    ∃ b x' sc' args', x.scanArgs env t i sc args = some (b, x', sc', args') ∧
      (∀ u, (x'.tcb u).sigpending = (x.tcb u).sigpending) ∧ sc'.sigpending = sc.sigpending ∧
      ∀ sigs sig, args' ≠ .sigs sigs sig := by
  have htimer : ∀ y, (sc.timer y).sigpending = sc.sigpending := by
    intro y
    obtain ⟨z, hz, -⟩ := sc.timer_eq y
    rw [hz]
  cases args with
  | sigs sigs sig => exact absurd rfl (hargs sigs sig)
  | cond c =>
    simp only [scanArgs]
    split <;> exact ⟨_, _, _, _, rfl, fun _ => rfl, rfl, by simp⟩
  | tid tid goal => cases tid <;> exact ⟨_, _, _, _, rfl, fun _ => rfl, rfl, by simp⟩
  | time tv | func f tv =>
    simp only [scanArgs]
    split
    · exact ⟨_, _, _, _, rfl, fun _ => rfl, rfl, by simp⟩
    · exact ⟨_, _, _, _, rfl, fun _ => rfl, htimer _, by simp⟩
  | fd | select | msg | mutex => exact ⟨_, _, _, _, rfl, fun _ => rfl, rfl, by simp⟩

/-- An event that does not wait for signals leaves them alone. -/
theorem scanEvent_other (x : Sched τ) (env : Env τ) (t : τ) (i : ℕ) (sc : Scan τ)
    (hw : ev.wants = none) : ∃ x' sc' ev',
    x.scanEvent env t i sc ev = some (x', sc', ev') ∧
      (∀ u, (x'.tcb u).sigpending = (x.tcb u).sigpending) ∧ sc'.sigpending = sc.sigpending ∧
      ev'.wants = none := by
  unfold scanEvent
  split
  · next hp =>
    have hargs : ∀ sigs sig, ev.evArgs ≠ .sigs sigs sig := by
      intro sigs sig heq
      rw [Event.wants_eq_some (w := (sigs, sig)).mpr ⟨hp, heq⟩] at hw
      cases hw
    obtain ⟨b, x', sc', args', h, hown, hproc, hargs'⟩ := scanArgs_other hargs
    rw [h]
    cases b with
    | true => exact ⟨_, _, _, rfl, hown, hproc, rfl⟩
    | false =>
      refine ⟨_, _, _, rfl, hown, hproc, Option.eq_none_iff_forall_ne_some.mpr fun w hw' => ?_⟩
      exact hargs' w.1 w.2 (Event.wants_eq_some.mp hw').2
  · exact ⟨x, sc, ev, rfl, fun _ => rfl, rfl, hw⟩

/-- A signal event of the thread `t` has found the signals `l`. -/
def stored (w : SigSet × Option ℤ) (l : List ℕ) : Event τ where
  evStatus := if l = [] then .pending else .occurred
  evArgs := .sigs w.1 (w.2.map fun v => (l.getLast?.map Nat.cast).getD v)

/-- A signal event takes all signals of its set. -/
theorem scanEvent_wants (x : Sched τ) (env : Env τ) (t : τ) (i : ℕ) (sc : Scan τ)
    {w : SigSet × Option ℤ} (hw : ev.wants = some w) :
    w.2 = none ∧ (signals.filter fun n => w.1 n && (x.tcb t).sigpending n) ≠ [] ∧
        x.scanEvent env t i sc ev = none ∨
      (w.2 = none → (signals.filter fun n => w.1 n && (x.tcb t).sigpending n) = []) ∧
        ∃ x' sc', x.scanEvent env t i sc ev = some (x', sc', stored w (signals.filter fun n =>
            w.1 n && ((x.tcb t).sigpending n || sc.sigpending n))) ∧
          (∀ u, ∀ n ∈ signals, (x'.tcb u).sigpending n =
            ((x.tcb u).sigpending n && !(decide (u = t) && w.1 n))) ∧
          ∀ n ∈ signals, sc'.sigpending n = (sc.sigpending n && !w.1 n) := by
  obtain ⟨hp, hargs⟩ := Event.wants_eq_some.mp hw
  simp only [scanEvent, hp, if_true, hargs, scanArgs]
  rcases SigScan.foldlM_step w.1 signals_nodup
      { own := (x.tcb t).sigpending, cnt := (x.tcb t).sigpendcnt, pending := sc.sigpending,
        catches := sc.sigcatch, sig := w.2, occurred := false } with
    ⟨hnone, hne, hfold⟩ | ⟨hnull, y, hfold, hloop⟩
  · rw [hfold]
    exact .inl ⟨hnone, hne, rfl⟩
  · rw [hfold]
    refine .inr ⟨hnull, ?_⟩
    have hown : ∀ u, ∀ n ∈ signals, ((x.modify t fun tcb =>
        { tcb with sigpending := y.own, sigpendcnt := y.cnt }).tcb u).sigpending n =
          ((x.tcb u).sigpending n && !(decide (u = t) && w.1 n)) := by
      intro u n hn
      by_cases hu : u = t
      · subst hu
        simp [hloop.own, hn]
      · simp [hu]
    have hproc : ∀ n ∈ signals, y.pending n = (sc.sigpending n && !w.1 n) := by
      intro n hn
      simp [hloop.pending, hn]
    have hocc := hloop.occurred
    have hsig := hloop.sig
    simp only [SigScan.hits, Bool.false_or] at hocc hsig
    simp only [Option.map_some, stored, hsig, hocc]
    by_cases hl : (signals.filter fun n => w.1 n && ((x.tcb t).sigpending n || sc.sigpending n)) = []
    · simp only [hl, List.isEmpty_nil]
      exact ⟨_, _, rfl, hown, hproc⟩
    · simp only [List.isEmpty_eq_false_iff.mpr hl, Bool.not_false, if_true, if_neg hl]
      exact ⟨_, _, rfl, hown, hproc⟩

/-! ## Behind other events -/

theorem Tracks.ownFound (h : Tracks env s P x sc) (sigs : SigSet) :
    (signals.filter fun n => sigs n && (x.tcb t).sigpending n) = ownFound s P t sigs :=
  List.filter_congr fun n hn => by rw [h.own t n hn]

theorem Tracks.processFound (h : Tracks env s P x sc) (sigs : SigSet) :
    (signals.filter fun n => sigs n && sc.sigpending n) = processFound env P sigs :=
  List.filter_congr fun n hn => by rw [h.process n hn]

omit [DecidableEq τ] in
/-- What is deleted are the signals of the set. -/
theorem lost_eq {own own' sigs : SigSet} (h : ∀ n ∈ signals, own' n = (own n && !sigs n)) :
    lost own own' = signals.filter fun n => sigs n && own n :=
  List.filter_congr fun n hn => by
    rw [h n hn]
    cases own n <;> cases sigs n <;> rfl

omit [DecidableEq τ] in
theorem lost_self (own : SigSet) : lost own own = [] :=
  List.filter_eq_nil_iff.mpr fun n _ => by cases own n <;> simp

theorem filter_or_eq_nil {l : List ℕ} {p q : ℕ → Bool} :
    (l.filter fun n => p n || q n) = [] ↔ l.filter p ++ l.filter q = [] := by
  simp only [List.append_eq_nil_iff, List.filter_eq_nil_iff, Bool.or_eq_true, not_or]
  exact ⟨fun h => ⟨fun n hn => (h n hn).1, fun n hn => (h n hn).2⟩,
    fun h n hn => ⟨h.1 n hn, h.2 n hn⟩⟩

theorem filter_or_of_singleton {l : List ℕ} {p q : ℕ → Bool} {n : ℕ}
    (h : l.filter p ++ l.filter q = [n]) : (l.filter fun n => p n || q n) = [n] := by
  rcases List.append_eq_singleton_iff.mp h with ⟨hp, hq⟩ | ⟨hp, hq⟩
  · rw [← hq]
    refine List.filter_congr fun m hm => ?_
    simp [List.filter_eq_nil_iff.mp hp m hm]
  · rw [← hp]
    refine List.filter_congr fun m hm => ?_
    simp [List.filter_eq_nil_iff.mp hq m hm]

omit [DecidableEq τ] in
/-- A signal event that takes signals from two sources. -/
theorem exact_stored {w : SigSet × Option ℤ} {p q : ℕ → Bool} (hw : ev.wants = some w) :
    Look.Exact ⟨t, ev, stored w (signals.filter fun n => p n || q n),
        signals.filter p ++ signals.filter q⟩ ↔
      (signals.filter p ++ signals.filter q).length ≤ 1 := by
  simp only [Look.Exact, hw, stored]
  by_cases hnil : signals.filter p ++ signals.filter q = []
  · simp [filter_or_eq_nil.mpr hnil, hnil]
  · have hne : (signals.filter fun n => p n || q n) ≠ [] := fun h => hnil (filter_or_eq_nil.mp h)
    simp only [if_neg hne, if_true]
    constructor
    · rintro ⟨n, hn, -⟩
      simp [hn]
    · intro hlen
      obtain ⟨n, hn⟩ := List.length_eq_one_iff.mp
        (Nat.le_antisymm hlen (List.length_pos_iff.mpr hnil))
      exact ⟨n, hn, by simp [filter_or_of_singleton hn]⟩

omit [DecidableEq τ] in
theorem stored_wants (w : SigSet × Option ℤ) (l : List ℕ) :
    (stored w l : Event τ).wants = if l = [] then some w else none := by
  by_cases hl : l = [] <;> simp [stored, Event.wants, hl]

theorem Tracks.cons (h : Tracks env s P x sc)
    (hown : ∀ u, ∀ n ∈ signals, (x'.tcb u).sigpending n =
      ((x.tcb u).sigpending n && !(decide (u = t) && ev.awaits n)))
    (hproc : ∀ n ∈ signals, sc'.sigpending n = (sc.sigpending n && !ev.awaits n)) :
    Tracks env s (P ++ [(t, ev)]) x' sc' where
  own u n hn := by
    rw [hown u n hn, h.own u n hn, List.any_append, Bool.not_or, Bool.and_assoc]
    simp [eq_comm]
  process n hn := by
    rw [hproc n hn, h.process n hn, List.any_append, Bool.not_or, Bool.and_assoc]
    simp

/-- The first loop at one event, behind the events `P`. -/
theorem Tracks.scanEvent (h : Tracks env s P x sc) (t : τ) (i : ℕ) (ev : Event τ) :
    (∃ w ∈ ev.wants, w.2 = none ∧ Sched.ownFound s P t w.1 ≠ []) ∧
        x.scanEvent env t i sc ev = none ∨
      (∀ w ∈ ev.wants, w.2 = none → Sched.ownFound s P t w.1 = []) ∧
        ∃ x' sc' ev', x.scanEvent env t i sc ev = some (x', sc', ev') ∧
          Tracks env s (P ++ [(t, ev)]) x' sc' ∧ ev'.wants = leaves env s P (t, ev) ∧
          (Look.Exact ⟨t, ev, ev', lost (x.tcb t).sigpending (x'.tcb t).sigpending ++
            lost sc.sigpending sc'.sigpending⟩ ↔ (foundBy env s P (t, ev)).length ≤ 1) := by
  cases hw : ev.wants with
  | none =>
    obtain ⟨x', sc', ev', hscan, hown, hproc, hw'⟩ := scanEvent_other x env t i sc hw
    have hawaits : ∀ n, ev.awaits n = false := fun n => by simp [Event.awaits, hw]
    refine .inr ⟨by simp, x', sc', ev', hscan, h.cons ?_ ?_, ?_, ?_⟩
    · exact fun u n _ => by simp [hown u, hawaits]
    · exact fun n _ => by simp [hproc, hawaits]
    · simp [leaves, foundBy, hw, hw']
    · simp [Look.Exact, hw, hown t, hproc, lost_self, foundBy]
  | some w =>
    have hawaits : ∀ n, ev.awaits n = w.1 n := fun n => by simp [Event.awaits, hw]
    rcases scanEvent_wants x env t i sc hw with
      ⟨hnone, hne, hscan⟩ | ⟨hnull, x', sc', hscan, hown, hproc⟩
    · rw [h.ownFound] at hne
      exact .inl ⟨⟨w, rfl, hnone, hne⟩, hscan⟩
    · rw [h.ownFound] at hnull
      have hfound : foundBy env s P (t, ev) =
          (signals.filter fun n => w.1 n && (x.tcb t).sigpending n) ++
            signals.filter fun n => w.1 n && sc.sigpending n := by
        simp [foundBy, hw, found, h.ownFound, h.processFound]
      have hspent : lost (x.tcb t).sigpending (x'.tcb t).sigpending ++
          lost sc.sigpending sc'.sigpending = foundBy env s P (t, ev) := by
        rw [hfound, lost_eq hproc, lost_eq fun n hn => by simpa using hown t n hn]
      simp only [Bool.and_or_distrib_left] at hscan
      refine .inr ⟨by rintro v ⟨⟩; exact hnull, x', sc', _, hscan, h.cons ?_ ?_, ?_, ?_⟩
      · exact fun u n hn => by rw [hown u n hn, hawaits]
      · exact fun n hn => by rw [hproc n hn, hawaits]
      · simp only [stored_wants, leaves, filter_or_eq_nil, hfound, hw]
      · rw [hspent, hfound]
        exact exact_stored hw

/-! ## The first loop -/

/-- What the events of the thread `t` wait for in the second loop. -/
def Left (env : Env τ) (s : Sched τ) (t : τ) :
    List (τ × Event τ) → List (Event τ) → List (Event τ) → Prop
  | _, [], [] => True
  | P, ev :: evs, ev' :: evs' =>
    ev'.wants = leaves env s P (t, ev) ∧ Left env s t (P ++ [(t, ev)]) evs evs'
  | _, _, _ => False

/-- The first loop over the events of a thread, behind the events `P`. -/
theorem Tracks.scanEvents (h : Tracks env s P x sc) (t : τ) (i : ℕ) (evs : List (Event τ)) :
    ((∀ k ∈ scanEventsLog env t i x sc evs, k.Exact) ∧ x.scanEvents env t i sc evs ≠ none ↔
        List.Along (Early env s) P (evs.map fun ev => (t, ev))) ∧
      ∀ x' sc' evs', x.scanEvents env t i sc evs = some (x', sc', evs') →
        Tracks env s (P ++ evs.map fun ev => (t, ev)) x' sc' ∧ Left env s t P evs evs' := by
  induction evs generalizing P x sc i with
  | nil =>
    refine ⟨by simp [scanEventsLog, Sched.scanEvents], ?_⟩
    rintro x' sc' evs' ⟨⟩
    exact ⟨by simpa using h, trivial⟩
  | cons ev evs ih =>
    rcases h.scanEvent t i ev with ⟨⟨w, hw, hnone, hne⟩, hscan⟩ |
      ⟨hnull, x', sc', ev', hscan, htracks, hleft, hexact⟩
    · have hfault : x.scanEvents env t i sc (ev :: evs) = none := by
        simp [Sched.scanEvents, hscan]
      refine ⟨⟨fun hall => absurd hfault hall.2, fun hall => ?_⟩, by simp [hfault]⟩
      exact absurd (hall.1.2 w hw hnone) hne
    · obtain ⟨hiff, hrest⟩ := ih htracks (i + 1)
      have hlog : scanEventsLog env t i x sc (ev :: evs) =
          ⟨t, ev, ev', lost (x.tcb t).sigpending (x'.tcb t).sigpending ++
            lost sc.sigpending sc'.sigpending⟩ :: scanEventsLog env t (i + 1) x' sc' evs := by
        simp [scanEventsLog, hscan]
      have hcons : x.scanEvents env t i sc (ev :: evs) =
          (x'.scanEvents env t (i + 1) sc' evs).map fun r => (r.1, r.2.1, ev' :: r.2.2) := by
        simp [Sched.scanEvents, hscan]
      refine ⟨?_, ?_⟩
      · rw [hlog, List.forall_mem_cons, hexact, hcons, List.map_cons, List.along_cons, ← hiff]
        simp only [ne_eq, Option.map_eq_none_iff, Early]
        tauto
      · intro x'' sc'' evs'' heq
        rw [hcons] at heq
        obtain ⟨⟨x₁, sc₁, evs₁⟩, hr, hr'⟩ := Option.map_eq_some_iff.mp heq
        cases hr'
        obtain ⟨htr, hl⟩ := hrest _ _ _ hr
        exact ⟨by simpa using htr, hleft, hl⟩

/-- What the events of some threads wait for in the second loop, with the control blocks
    of `y`. -/
def LeftAll (env : Env τ) (s y : Sched τ) : List (τ × Event τ) → List τ → Prop
  | _, [] => True
  | P, t :: ts =>
    Left env s t P (s.tcb t).events (y.tcb t).events ∧ LeftAll env s y (P ++ s.held t) ts

/-- The first loop at a thread, behind the events `P`. -/
theorem Tracks.scanThread (h : Tracks env s P x sc) (hev : (x.tcb t).events = (s.tcb t).events) :
    ((∀ k ∈ scanEventsLog env t 0 x (x.noticeCancel sc t) (x.tcb t).events, k.Exact) ∧
        scanThread env x sc t ≠ none ↔ List.Along (Early env s) P (s.held t)) ∧
      ∀ x' sc', scanThread env x sc t = some (x', sc') →
        Tracks env s (P ++ s.held t) x' sc' ∧
          Left env s t P (s.tcb t).events (x'.tcb t).events := by
  have hnotice : Tracks env s P x (x.noticeCancel sc t) := by
    refine ⟨h.own, fun n hn => ?_⟩
    rw [← h.process n hn]
    unfold noticeCancel
    split <;> rfl
  obtain ⟨hiff, hrest⟩ := hnotice.scanEvents t 0 (s.tcb t).events
  rw [hev]
  refine ⟨?_, fun x' sc' hscan => ?_⟩
  · rw [held, ← hiff, Sched.scanThread, hev, ne_eq, Option.map_eq_none_iff]
  · obtain ⟨⟨x₁, sc₁, evs⟩, hevs, heq⟩ := Option.map_eq_some_iff.mp hscan
    rw [hev] at hevs
    obtain ⟨htracks, hleft⟩ := hrest _ _ _ hevs
    cases heq
    refine ⟨⟨fun u n hn => ?_, htracks.process⟩, by simpa using hleft⟩
    rw [held, ← htracks.own u n hn]
    by_cases hu : u = t
    · subst hu
      simp
    · simp [hu]

/-- The first loop over some threads, behind the events `P`. -/
theorem Tracks.scanThreads (h : Tracks env s P x sc) {ts : List τ} (hnd : ts.Nodup)
    (hev : ∀ t ∈ ts, (x.tcb t).events = (s.tcb t).events) :
    ((∀ k ∈ scanThreadsLog env (x, sc) ts, k.Exact) ∧ scanThreads env (x, sc) ts ≠ none ↔
        List.Along (Early env s) P (ts.flatMap s.held)) ∧
      ∀ y sc', scanThreads env (x, sc) ts = some (y, sc') →
        Tracks env s (P ++ ts.flatMap s.held) y sc' ∧ LeftAll env s y P ts := by
  induction ts generalizing P x sc with
  | nil =>
    refine ⟨by simp [scanThreadsLog, Sched.scanThreads], ?_⟩
    rintro y sc' ⟨⟩
    exact ⟨by simpa using h, trivial⟩
  | cons t ts ih =>
    obtain ⟨ht, hnd⟩ := List.nodup_cons.mp hnd
    obtain ⟨hiff, hrest⟩ := h.scanThread (hev t (by simp))
    rw [List.flatMap_cons, List.along_append, ← hiff]
    cases hscan : Sched.scanThread env x sc t with
    | none =>
      have hfault : Sched.scanThreads env (x, sc) (t :: ts) = none := by
        simp [Sched.scanThreads, hscan]
      simp [hfault]
    | some r =>
      obtain ⟨x', sc'⟩ := r
      obtain ⟨htracks, hleft⟩ := hrest _ _ hscan
      have hcons : Sched.scanThreads env (x, sc) (t :: ts) =
          Sched.scanThreads env (x', sc') ts := by
        simp [Sched.scanThreads, hscan]
      have hev' : ∀ u ∈ ts, (x'.tcb u).events = (s.tcb u).events := by
        intro u hu
        rw [(scanThread_scanned hscan).2 u fun hut => ht (hut ▸ hu)]
        exact hev u (List.mem_cons_of_mem t hu)
      obtain ⟨hiff', hrest'⟩ := ih htracks hnd hev'
      rw [hcons, ← hiff']
      refine ⟨?_, fun y sc'' hy => ?_⟩
      · simp only [scanThreadsLog, hscan, List.forall_mem_append, ne_eq, reduceCtorEq,
          not_false_eq_true, and_true, and_assoc]
      · obtain ⟨htr, hl⟩ := hrest' _ _ hy
        refine ⟨by simpa using htr, ?_, hl⟩
        rw [(scanThreads_scanned hy).2 t ht]
        exact hleft

end Sched

end Pth
