-- SUMMARY: What pth_select_ev returns and leaves in the caller's sets, on its direct paths and after a wait.
import Pth.Event.Extra
import Pth.Sched.Select

/-!
# Select with the caller's sets

`pth_select_ev` polls the caller's sets directly, and waits only if nothing is ready. The event that
it waits for points to the caller's sets: the event manager reduces them to what is ready and writes
the number of descriptors into the cell that is returned. A timeout that is tagged in the same pass
is looked at afterwards. -/

namespace Pth.CallM

open StateT (Triple)

/-- What is answered to a call of `pth_select_ev`: the direct poll, and, if the call waits, the pass
    of the event manager that ends the wait, which has the `late` results of `select(2)` when it
    comes to the event of the call, and the status of the event for the timeout. -/
structure SelectOutcome (τ : Type*) where
  direct : Except Errno FdSets
  env : Env τ
  thread : τ
  index : ℕ
  late : Sched.Late
  timeout : Status

namespace SelectArgs

variable {τ : Type*}

/-! ## The function -/

/-- The caller's sets, where a null pointer is the empty set. -/
def sets (a : SelectArgs) : FdSets := .ofSelect a.rfds a.wfds a.efds

/-- `select(2)` leaves the descriptors that are ready. -/
def keep (a : SelectArgs) (ready : FdSets) : SelectArgs :=
  { a with
    rfds := fdsKeep a.nfd a.rfds ready.r
    wfds := fdsKeep a.nfd a.wfds ready.w
    efds := fdsKeep a.nfd a.efds ready.e }

/-- `FD_ZERO` of the caller's sets. -/
def zeroed (a : SelectArgs) : SelectArgs :=
  { a with
    rfds := a.rfds.map fun _ _ => false
    wfds := a.wfds.map fun _ _ => false
    efds := a.efds.map fun _ _ => false }

/-- The caller's sets, which the event points to. -/
def stored (a : SelectArgs) : EventArgs τ → SelectArgs
  | .select _ _ rfds wfds efds => { a with rfds := rfds, wfds := wfds, efds := efds }
  | _ => a

/-- The cell for the number of descriptors, which starts as -1. -/
def cell : EventArgs τ → ℤ
  | .select (some n) _ _ _ _ => n
  | _ => -1

/-- The event of the call when `pth_wait` returns. -/
def event (a : SelectArgs) (o : SelectOutcome τ) : Event τ :=
  let r := Sched.lateArgs o.env o.thread o.index o.late
    (.select (some (-1)) a.nfd a.rfds a.wfds a.efds)
  { evStatus := r.2.1, evArgs := r.2.2 }

/-- The end of `pth_select_ev`, after the wait: what is returned, and the caller's sets. -/
def waited (a : SelectArgs) (extra : Bool) (ev : Event τ) (timeout : Status) :
    Except Errno ℤ × SelectArgs :=
  let sets := a.stored ev.evArgs
  if ev.evStatus = .failed then (.error .EBADF, sets)
  else if a.timeout.isSome ∧ timeout = .occurred then (.ok 0, sets.zeroed)
  else if extra ∧ ev.evStatus ≠ .occurred then (.error .EINTR, sets)
  else (.ok (cell ev.evArgs), sets)

/-- `pth_select_ev`: what is returned, and the caller's sets. -/
def selectEv (a : SelectArgs) (extra : Bool) (o : SelectOutcome τ) : Except Errno ℤ × SelectArgs :=
  if ¬ a.valid then (.error .EINVAL, a)
  else
    match a.plainDelay with
    | some t =>
      if (cutTimeout t).tvSec = 0 ∧ (cutTimeout t).tvUsec ≤ 10000 then (.ok 0, a.zeroed)
      else if extra ∧ o.timeout ≠ .occurred then (.error .EINTR, a)
      else (.ok 0, a.zeroed)
    | none =>
      match o.direct with
      | .error e => (.error e, a)
      | .ok ready =>
        if 0 < fdsCount a.nfd a.sets ready ∨
            ∃ t ∈ a.timeout, (cutTimeout t).cmp .zero = 0 then
          (.ok (fdsCount a.nfd a.sets ready), a.keep ready)
        else waited a extra (a.event o) o.timeout

/-! ## Readiness and the timeout -/

/-- The call goes through the scheduler. -/
def Waiting (a : SelectArgs) (o : SelectOutcome τ) : Prop :=
  a.valid ∧ a.plainDelay = none ∧ ∃ ready, o.direct = .ok ready ∧
    ¬ (0 < fdsCount a.nfd a.sets ready ∨ ∃ t ∈ a.timeout, (cutTimeout t).cmp .zero = 0)

/-- A descriptor that is asked for has been reported ready. -/
def Reported (a : SelectArgs) (o : SelectOutcome τ) : Prop :=
  (∃ ready, o.direct = .ok ready ∧ fdsTest a.nfd a.sets ready = true) ∨
    (a.Waiting o ∧ fdsTest a.nfd a.sets o.late.sets = true)

/-- Readiness beats the timeout: if the event of the call has occurred, the number of ready
    descriptors is returned and their bits are left. Zero with empty sets means that no descriptor
    has been reported ready. -/
structure Beats (a : SelectArgs) (extra : Bool) (o : SelectOutcome τ) : Prop where
  occurred : a.Waiting o → (a.event o).evStatus = .occurred →
    (a.selectEv extra o).1 = .ok (fdsCount a.nfd a.sets o.late.sets) ∧
      0 < fdsCount a.nfd a.sets o.late.sets ∧
      ∀ k (d : ℕ), (d : ℤ) < a.nfd → a.sets.bit k d = true → o.late.sets.bit k d = true →
        (a.selectEv extra o).2.sets.bit k d = true
  zero : (a.selectEv extra o).1 = .ok 0 → (∀ k d, (a.selectEv extra o).2.sets.bit k d = false) →
    ¬ a.Reported o

variable {a : SelectArgs} {o : SelectOutcome τ} {extra : Bool}

theorem fdsCount_pos {nfd : ℤ} {x y : FdSets} (h : fdsTest nfd x y = true) :
    0 < fdsCount nfd x y := by
  obtain ⟨k, d, hd, hx, hy⟩ := fdsTest_iff.mp h
  rw [fdsCount_eq]
  refine FdSets.count_pos (k := k) hd ?_
  cases k <;> simp_all [FdSets.bit]

/-- The event has occurred if a descriptor that is asked for is ready. -/
theorem event_of_ready (h : fdsTest a.nfd a.sets o.late.sets = true) : a.event o =
    { evStatus := .occurred
      evArgs := .select (some (fdsCount a.nfd a.sets o.late.sets)) a.nfd
        (a.keep o.late.sets).rfds (a.keep o.late.sets).wfds (a.keep o.late.sets).efds } := by
  have htest : fdsTest a.nfd (.ofSelect a.rfds a.wfds a.efds) o.late.sets = true := h
  simp [event, Sched.lateArgs, htest, keep, sets]

theorem event_of_not_ready (h : fdsTest a.nfd a.sets o.late.sets = false) :
    (a.event o).evStatus ≠ .occurred ∧
      (a.event o).evArgs = .select (some (-1)) a.nfd a.rfds a.wfds a.efds := by
  have htest : fdsTest a.nfd (.ofSelect a.rfds a.wfds a.efds) o.late.sets = false := h
  simp only [event, Sched.lateArgs, htest, Bool.false_eq_true, if_false]
  split_ifs <;> simp

theorem keep_bit {ready : FdSets} {k : FdKind} {d : ℕ} (hd : (d : ℤ) < a.nfd)
    (ha : a.sets.bit k d = true) (hr : ready.bit k d = true) :
    (a.keep ready).sets.bit k d = true := by
  cases k
  · revert ha
    cases hf : a.rfds <;> simp_all [sets, keep, fdsKeep, FdSets.bit, FdSets.ofSelect]
  · revert ha
    cases hf : a.wfds <;> simp_all [sets, keep, fdsKeep, FdSets.bit, FdSets.ofSelect]
  · revert ha
    cases hf : a.efds <;> simp_all [sets, keep, fdsKeep, FdSets.bit, FdSets.ofSelect]

theorem selectEv_of_waiting (h : a.Waiting o) :
    a.selectEv extra o = a.waited extra (a.event o) o.timeout := by
  obtain ⟨hvalid, hplain, ready, hdirect, hnone⟩ := h
  simp only [selectEv, not_not.mpr hvalid, if_false, hplain, hdirect, if_neg hnone]

theorem selectEv_of_direct {ready : FdSets} (hvalid : a.valid) (hplain : a.plainDelay = none)
    (hdirect : o.direct = .ok ready) (hnow : 0 < fdsCount a.nfd a.sets ready ∨
      ∃ t ∈ a.timeout, (cutTimeout t).cmp .zero = 0) :
    a.selectEv extra o = (.ok (fdsCount a.nfd a.sets ready), a.keep ready) := by
  simp only [selectEv, not_not.mpr hvalid, if_false, hplain, hdirect, if_pos hnow]

/-- Without a wait zero is returned only if the direct poll has found nothing. -/
theorem selectEv_zero (h : ¬ a.Waiting o) (hzero : (a.selectEv extra o).1 = .ok 0) :
    ¬ a.Reported o := by
  rintro (⟨ready, hdirect, hready⟩ | ⟨hwaiting, -⟩)
  · have hpos := fdsCount_pos hready
    have hvalid : a.valid := by
      by_contra hvalid
      simp [selectEv, hvalid] at hzero
    have hplain : a.plainDelay = none := by
      -- a plain delay asks for no descriptor
      rw [plainDelay, if_neg]
      rintro ⟨hnfd, -⟩
      rw [hnfd] at hpos
      exact absurd hpos (by simp [fdsCount])
    rw [selectEv_of_direct hvalid hplain hdirect (.inl hpos)] at hzero
    rw [Except.ok.inj hzero] at hpos
    exact lt_irrefl _ hpos
  · exact h hwaiting

/-- After a wait in which a descriptor has become ready. -/
theorem waited_of_ready (extra : Bool) (h : fdsTest a.nfd a.sets o.late.sets = true) :
    a.waited extra (a.event o) o.timeout =
      if a.timeout.isSome ∧ o.timeout = .occurred then (.ok 0, (a.keep o.late.sets).zeroed)
      else (.ok (fdsCount a.nfd a.sets o.late.sets), a.keep o.late.sets) := by
  rw [event_of_ready h]
  simp [waited, stored, cell, keep]

/-- Readiness beats the timeout unless both are found after one wait. -/
theorem readiness_beats_iff (a : SelectArgs) (extra : Bool) (o : SelectOutcome τ) :
    a.Beats extra o ↔ ¬ (a.Waiting o ∧ fdsTest a.nfd a.sets o.late.sets = true ∧
      a.timeout.isSome = true ∧ o.timeout = .occurred) := by
  constructor
  · rintro hbeats ⟨hwaiting, hready, htimeout⟩
    have hcount := (hbeats.occurred hwaiting (by rw [event_of_ready hready])).1
    rw [selectEv_of_waiting hwaiting, waited_of_ready extra hready, if_pos htimeout] at hcount
    have hpos := fdsCount_pos hready
    rw [← Except.ok.inj hcount] at hpos
    exact lt_irrefl _ hpos
  · intro hnot
    by_cases hwaiting : a.Waiting o
    · cases hready : fdsTest a.nfd a.sets o.late.sets with
      | true =>
        have hwaited := waited_of_ready extra hready
        rw [if_neg fun htimeout => hnot ⟨hwaiting, hready, htimeout⟩] at hwaited
        have hpos := fdsCount_pos hready
        constructor
        · intro _ _
          rw [selectEv_of_waiting hwaiting, hwaited]
          exact ⟨rfl, hpos, fun k d => keep_bit⟩
        · intro hzero
          rw [selectEv_of_waiting hwaiting, hwaited] at hzero
          rw [Except.ok.inj hzero] at hpos
          exact absurd hpos (lt_irrefl _)
      | false =>
        refine ⟨fun _ hocc => absurd hocc (event_of_not_ready hready).1, fun _ _ => ?_⟩
        -- the direct poll has found nothing either, or there would be no wait
        rintro (⟨ready, hdirect, htest⟩ | ⟨-, htest⟩)
        · obtain ⟨-, -, ready', hdirect', hnone⟩ := hwaiting
          obtain rfl := Except.ok.inj (hdirect.symm.trans hdirect')
          exact hnone (.inl (fdsCount_pos htest))
        · rw [hready] at htest
          cases htest
    · exact ⟨fun h => absurd h hwaiting, fun hzero _ => selectEv_zero hwaiting hzero⟩

/-- The descriptor 3 is asked for, with a timeout of five seconds. -/
def askThree : SelectArgs := ⟨4, some fun d => d == 3, none, none, some ⟨5, 0⟩⟩

/-- The thread 1 has waited for that since the time 0. -/
def selectWaiter : Sched ℕ :=
  { Sched.mutexWaiter.modify 1 fun tcb => { tcb with
      events := [⟨.pending, .select (some (-1)) 4 askThree.rfds none none⟩,
        ⟨.pending, .time ⟨5, 0⟩⟩] } with
    snapshot := ⟨6, 0⟩ }

def threeReady : FdSets := ⟨fun d => d == 3, fun _ => false, fun _ => false⟩

/-- Nothing was ready at first. -/
def threeLate : SelectOutcome ℕ where
  direct := .ok .zero
  env := Sched.answering threeReady
  thread := 1
  index := 0
  late := { rc := 1, sets := threeReady, raised := fun _ => false }
  timeout := .occurred

/-- The timeout is over and the descriptor is ready: one pass tags both events. The call then
    returns 0 and clears the set. -/
theorem timeout_beats_readiness :
    ((selectWaiter.eventmanager (Sched.answering threeReady) false).map fun r =>
      (r.2.tcb 1).events.map Event.evStatus) = some [.occurred, .occurred] ∧
    (askThree.event threeLate).evStatus = .occurred ∧
    (askThree.selectEv false threeLate).1 = .ok 0 ∧
    (askThree.selectEv false threeLate).2.sets.r 3 = false ∧
    ¬ askThree.Beats false threeLate := by
  have hoccurred : (askThree.event threeLate).evStatus = .occurred := by decide
  have hzero : (askThree.selectEv false threeLate).1 = .ok 0 := by decide
  refine ⟨by decide, hoccurred, hzero, by decide, fun hbeats => ?_⟩
  have hwaiting : askThree.Waiting threeLate := ⟨by decide, rfl, .zero, rfl, by decide⟩
  obtain ⟨hcount, hpos, -⟩ := hbeats.occurred hwaiting hoccurred
  rw [Except.ok.inj (hzero.symm.trans hcount)] at hpos
  exact lt_irrefl _ hpos

end SelectArgs

/-! ## The call with its events -/

section

variable {ε τ : Type} [DecidableEq ε] {w : World ε τ} {ev ev' : ε}

/-- The structures of the call have been allocated by an earlier one. -/
def Kept (ev ev' : ε) (s : Events ε τ) : Prop := s.live ev = true ∧ s.live ev' = true

/-- The events have the contents that they had when `pth_wait` returned. -/
def Woken (w : World ε τ) (k : ℕ) (s : Events ε τ) : Prop := s.body = w.wait k

/-- Linking events changes neither what is in them nor which there are. -/
theorem concat_body {s : Events ε τ} {evf : Option ε} {evs : List ε}
    {r : Except Errno ε × Events ε τ} (h : s.concat evf evs = some r) :
    r.2.body = s.body ∧ r.2.live = s.live := by
  cases evf with
  | none =>
    obtain rfl := Option.some.inj h
    exact ⟨rfl, rfl⟩
  | some e =>
    obtain ⟨L, -, rfl⟩ := Option.map_eq_some_iff.mp h
    exact ⟨rfl, rfl⟩

theorem isolate_body {s : Events ε τ} {e : Option ε} {r : Except Errno (Option ε) × Events ε τ}
    (h : s.isolate e = some r) : r.2.body = s.body := by
  cases e with
  | none =>
    obtain rfl := Option.some.inj h
    rfl
  | some e =>
    obtain ⟨L, -, rfl⟩ := Option.map_eq_some_iff.mp h
    rfl

theorem onEvents_concat {e : Option ε} {evs : List ε} :
    OnEvents (Kept (τ := τ) ev ev') (onEvents fun s => s.concat e evs) fun _ => Kept ev ev' :=
  onEvents_onEvents fun s r hs hr => by
    rw [Kept, (concat_body hr).2]
    exact hs

theorem onEvents_isolate {k : ℕ} {e : Option ε} :
    OnEvents (Woken w k) (onEvents fun s => s.isolate e) fun _ => Woken w k :=
  onEvents_onEvents fun _ _ hs hr => (isolate_body hr).trans hs

theorem onEvents_staticEvent {e : ε} {args : EventArgs τ} (he : e = ev ∨ e = ev') :
    OnEvents (Kept ev ev') (staticEvent w e (.kind args)) fun r s => r = .ok e ∧ Kept ev ev' s := by
  refine .bind onEvents_ask fun k => onEvents_onEvents fun s r hs hr => ?_
  have hlive : s.live e = true := by
    rcases he with rfl | rfl
    · exact hs.1
    · exact hs.2
  rw [hlive, Bool.true_or, if_pos rfl, Events.event] at hr
  obtain ⟨L, -, rfl⟩ := Option.map_eq_some_iff.mp hr
  refine ⟨rfl, ?_, ?_⟩
  · by_cases h : ev = e <;> simp [h, hs.1]
  · by_cases h : ev' = e <;> simp [h, hs.2]

omit [DecidableEq ε] in
/-- After the wait the contents of all events are those of one answer. -/
theorem onEvents_wait {P : Events ε τ → Prop} {e : ε} :
    OnEvents P (wait w (some e)) fun _ s => ∃ k, Woken w k s :=
  .bind onEvents_ask fun k => onEvents_onEvents fun s r _ hr => by
    obtain rfl := Option.some.inj hr
    exact ⟨k, rfl⟩

omit [DecidableEq ε] in
theorem onEvents_status {k : ℕ} {e : ε} : OnEvents (Woken w k) (status (some e)) fun st s =>
    st = (w.wait k e).evStatus ∧ Woken w k s := by
  unfold status
  refine onEvents_onEvents fun s r hs hr => ?_
  obtain rfl := Option.some.inj hr
  exact ⟨congrArg Event.evStatus (congrFun hs e), hs⟩

omit [DecidableEq ε] in
theorem onEvents_selectCount {k : ℕ} {e : ε} :
    OnEvents (Woken w k) (selectCount (some e)) fun n _ =>
      n = SelectArgs.cell (w.wait k e).evArgs := by
  unfold selectCount
  refine onEvents_onEvents fun s r hs hr => ?_
  rw [show s.body = w.wait k from hs] at hr
  cases hargs : (w.wait k e).evArgs with
  | select n nfd rfds wfds efds =>
    rw [hargs] at hr
    cases n <;> obtain rfl := Option.some.inj hr <;> rfl
  | _ =>
    rw [hargs] at hr
    obtain rfl := Option.some.inj hr
    rfl

theorem onEvents_isolateSome {k : ℕ} {e : Option ε} :
    OnEvents (Woken w k) (isolateSome e) fun _ => Woken w k := by
  cases e with
  | none => exact Triple.pure fun _ h => h
  | some e => exact .bind onEvents_isolate fun _ => Triple.pure fun _ h => h

theorem onEvents_concatExtra {e extra : Option ε} :
    OnEvents (Kept (τ := τ) ev ev') (concatExtra e extra) fun _ => Kept ev ev' := by
  cases extra with
  | none => exact Triple.pure fun _ h => h
  | some x => exact .bind onEvents_concat fun _ => Triple.pure fun _ h => h

theorem onEvents_selectTimeout {timeout : Option Time} {e : Option ε} :
    OnEvents (Kept ev ev') (selectTimeout w timeout ev' e) fun et s =>
      et = timeout.map (fun _ => ev') ∧ Kept ev ev' s := by
  cases timeout with
  | none => exact Triple.pure fun _ h => ⟨rfl, h⟩
  | some t =>
    refine .bind onEvents_ask fun k => .bind (onEvents_staticEvent (.inr rfl)) fun et => ?_
    refine Triple.assume fun het => ?_
    subst het
    exact .bind onEvents_concat fun _ => Triple.pure fun _ h => ⟨rfl, h⟩

omit [DecidableEq ε] in
theorem onEvents_timeoutStatus {k : ℕ} {timeout : Option Time} {et : Option ε}
    (het : et = timeout.map fun _ => ev') : OnEvents (Woken w k) (status et) fun st s =>
      (timeout.isSome → st = (w.wait k ev').evStatus) ∧ Woken w k s := by
  subst het
  cases timeout with
  | none => exact Triple.pure fun _ h => ⟨fun h => (Bool.false_ne_true h).elim, h⟩
  | some t => exact Triple.mono onEvents_status (fun _ h => h) fun _ _ h => ⟨fun _ => h.1, h.2⟩

/-- The wait of `pth_select_ev` returns what is computed from the events it finds afterwards. -/
theorem selectWait_waited {a : SelectArgs} {extra : Option ε} :
    OnEvents (Kept ev ev') (selectWait w a ev ev' extra) fun r _ =>
      ∃ k, r = (a.waited extra.isSome (w.wait k ev) (w.wait k ev').evStatus).1 := by
  refine .bind (onEvents_staticEvent (.inl rfl)) fun es => Triple.assume fun hes => ?_
  subst hes
  refine .bind onEvents_selectTimeout fun et => Triple.assume fun het => ?_
  refine .bind onEvents_concatExtra fun _ => .bind onEvents_wait fun _ => Triple.exists fun k => ?_
  refine .bind onEvents_isolateSome fun _ => .bind onEvents_isolateSome fun _ => ?_
  refine .bind onEvents_status fun sts => Triple.assume fun hsts => ?_
  refine .bind (onEvents_timeoutStatus het) fun stt => Triple.assume fun hstt => ?_
  refine .bind onEvents_selectCount fun n => ?_
  have hover : (a.timeout.isSome ∧ stt = .occurred) ↔
      (a.timeout.isSome ∧ (w.wait k ev').evStatus = .occurred) :=
    and_congr_right fun h => by rw [hstt h]
  simp only [hover, hsts]
  split_ifs with hfailed htimeout hextra
  · exact Triple.pure fun _ _ => ⟨k, by simp [SelectArgs.waited, hfailed]⟩
  · exact Triple.pure fun _ _ => ⟨k, by simp [SelectArgs.waited, hfailed, htimeout]⟩
  · exact Triple.pure fun _ _ => ⟨k, by simp [SelectArgs.waited, hfailed, htimeout, hextra]⟩
  · exact Triple.pure fun _ hn => ⟨k, by simp [SelectArgs.waited, hfailed, htimeout, hextra, hn]⟩

/-- The plain delay looks at the event for the timeout alone. -/
theorem onEvents_waitExtra {extra : Option ε} : OnEvents (Kept ev ev')
    (waitExtra w (some ev') extra) fun st _ => ∃ k, st = (w.wait k ev').evStatus := by
  cases extra with
  | none =>
    refine .bind onEvents_wait fun _ => Triple.exists fun k => ?_
    exact Triple.mono onEvents_status (fun _ h => h) fun _ _ h => ⟨k, h.1⟩
  | some x =>
    refine .bind onEvents_concat fun _ => .bind onEvents_wait fun _ => Triple.exists fun k => ?_
    refine .bind onEvents_isolate fun _ => ?_
    exact Triple.mono onEvents_status (fun _ h => h) fun _ _ h => ⟨k, h.1⟩

theorem selectDelay_waited {n : ℕ} {t : Time} {extra : Option ε} :
    OnEvents (Kept ev ev') (selectDelay w n t ev' extra) fun r _ => ∃ k, r =
      if t.tvSec = 0 ∧ t.tvUsec ≤ 10000 then .ok 0
      else if extra.isSome ∧ (w.wait k ev').evStatus ≠ .occurred then .error .EINTR
      else .ok 0 := by
  unfold selectDelay
  split_ifs with hsmall
  · exact .bind (R := fun _ _ => True) (fun _ _ _ _ _ => trivial) fun _ =>
      Triple.pure fun _ _ => ⟨0, rfl⟩
  · refine .bind onEvents_ask fun k => .bind (onEvents_staticEvent (.inr rfl)) fun e => ?_
    refine Triple.assume fun he => ?_
    subst he
    refine .bind onEvents_waitExtra fun st => ?_
    refine Triple.exists fun k => ?_
    split
    case isTrue h => exact Triple.pure fun _ hst => ⟨k, by simpa [hst] using h⟩
    case isFalse h => exact Triple.pure fun _ hst => ⟨k, by simpa [hst] using h⟩

section

variable {a : SelectArgs} {o : SelectOutcome τ} {k₀ : ℕ}

omit [DecidableEq ε] in
theorem direct_of_polled_error {e : Errno} (hr : Polled w k₀ (.error e))
    (ho : Polled w k₀ (o.direct.map fun ready => (fdsCount a.nfd a.sets ready).toNat)) :
    o.direct = .error e := by
  have hdirect := ho.unique hr
  cases hd : o.direct with
  | ok ready => simp [hd, Except.map] at hdirect
  | error e' =>
    obtain rfl : e' = e := by simpa [hd, Except.map] using hdirect
    rfl

omit [DecidableEq ε] in
theorem direct_of_polled_ok {rc : ℕ} (hr : Polled w k₀ (.ok rc))
    (ho : Polled w k₀ (o.direct.map fun ready => (fdsCount a.nfd a.sets ready).toNat)) :
    ∃ ready, o.direct = .ok ready ∧ fdsCount a.nfd a.sets ready = rc := by
  have hdirect := ho.unique hr
  cases hd : o.direct with
  | error e => simp [hd, Except.map] at hdirect
  | ok ready =>
    have hrc : (fdsCount a.nfd a.sets ready).toNat = rc := by
      simpa [hd, Except.map] using hdirect
    have hpos : 0 ≤ fdsCount a.nfd a.sets ready := by
      rw [fdsCount_eq]
      exact FdSets.count_nonneg ..
    exact ⟨ready, rfl, by omega⟩

end

/-- The call returns what is computed from the answers that it gets: the direct poll, which is the
    question `k₀`, and the contents of its events after the wait. -/
theorem selectEv_refines {n k₀ : ℕ} {a : SelectArgs} {extra : Option ε} :
    Triple (fun c : Calls ε τ => c.asked = k₀ ∧ Kept ev ev' c.evs) (selectEv w n a ev ev' extra)
      fun r _ => ∃ k, ∀ o : SelectOutcome τ,
        Polled w k₀ (o.direct.map fun ready => (fdsCount a.nfd a.sets ready).toNat) →
        a.event o = w.wait k ev → o.timeout = (w.wait k ev').evStatus →
        r = (a.selectEv extra.isSome o).1 := by
  unfold selectEv
  split
  case isTrue hvalid =>
    exact Triple.pure fun _ _ => ⟨0, fun o _ _ _ => by simp [SelectArgs.selectEv, hvalid]⟩
  case isFalse hvalid =>
    rw [not_not] at hvalid
    cases hplain : a.plainDelay with
    | some t =>
      refine Triple.mono selectDelay_waited (fun c hc => hc.2) ?_
      rintro r c ⟨k, rfl⟩
      refine ⟨k, fun o _ _ htimeout => ?_⟩
      simp only [SelectArgs.selectEv, not_not.mpr hvalid, if_false, hplain, htimeout]
      split_ifs <;> rfl
    | none =>
      have hpoll : Triple (fun c : Calls ε τ => c.asked = k₀ ∧ Kept ev ev' c.evs) (scRetry w n)
          fun r c => Polled w k₀ r ∧ Kept ev ev' c.evs :=
        Triple.mono
          (Triple.and (scRetry_polled (P := fun _ => True)) (onEvents_scRetry (P := Kept ev ev')))
          (fun c hc => ⟨⟨hc.1, trivial⟩, hc.2⟩) fun _ _ h => ⟨h.1.1, h.2⟩
      refine .bind hpoll fun r => Triple.assume fun hr => ?_
      cases r with
      | error e =>
        refine Triple.pure fun _ _ => ⟨0, fun o ho _ _ => ?_⟩
        simp [SelectArgs.selectEv, hvalid, hplain, direct_of_polled_error hr ho]
      | ok rc =>
        dsimp only
        split
        case isTrue hnow =>
          refine Triple.pure fun _ _ => ⟨0, fun o ho _ _ => ?_⟩
          obtain ⟨ready, hd, hrc⟩ := direct_of_polled_ok hr ho
          rw [SelectArgs.selectEv_of_direct hvalid hplain hd (by simpa [hrc] using hnow), hrc]
        case isFalse hlater =>
          refine Triple.mono selectWait_waited (fun c hc => hc) ?_
          rintro r c ⟨k, rfl⟩
          refine ⟨k, fun o ho hev htimeout => ?_⟩
          obtain ⟨ready, hd, hrc⟩ := direct_of_polled_ok hr ho
          have hwaiting : a.Waiting o := ⟨hvalid, hplain, ready, hd, by simpa [hrc] using hlater⟩
          rw [SelectArgs.selectEv_of_waiting hwaiting, hev, htimeout]

end

end Pth.CallM
