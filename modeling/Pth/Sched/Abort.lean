-- SUMMARY: What pth_cancel and pth_abort leave of a thread when they return FALSE.
import Pth.Sched.Invariant

/-!
# Failed cancellations

`pth_cancel` marks the thread and `pth_abort` also detaches it and sets its cancellation
state before they look for the thread in the queue of its state. A suspended thread is not
found there: the call returns `FALSE` with the thread changed.

Runs have no operation for `pth_abort`. What it does is done by the operations for `pth_join`
if the thread is dead, and otherwise by those for `pth_attr_set` and `pth_cancel`. -/

namespace Pth

open PrioList (keys)

/-- `PTH_CANCEL_ENABLE|PTH_CANCEL_ASYNCHRONOUS` -/
def abortState : ℕ := 5

namespace Sched

variable {τ : Type*} [DecidableEq τ] {s : Sched τ} {a : QId → List (τ × ℤ)} {t : τ}

/-- What `pth_abort` writes before it calls `pth_cancel`. -/
def forceAsync (s : Sched τ) (t : τ) : Sched τ :=
  s.modify t fun tcb => { tcb with joinable := false, cancelstate := abortState }

theorem forceAsync_asynchronous (s : Sched τ) (t : τ) :
    asynchronous ((s.forceAsync t).tcb t) = true := by
  simp only [asynchronous, forceAsync, modify_tcb, if_true]
  decide

theorem forceAsync_inPlace : (s.forceAsync t).inPlace t = s.inPlace t := by
  simp only [inPlace, forceAsync, modify_tcb, if_true]
  rfl

/-- When a `pth_cancel` that fails changes nothing. -/
def CancelKeeps (s : Sched τ) (t : τ) : Prop :=
  (s.tcb t).state = .dead ∨ (s.tcb t).cancelreq = true ∨
    (asynchronous (s.tcb t) = true → s.inPlace t = true)

/-- When a `pth_abort` that fails changes nothing. -/
def AbortKeeps (s : Sched τ) (t : τ) : Prop :=
  s.inPlace t = true ∨ ((s.tcb t).state = .dead ∧ (s.tcb t).joinable = true) ∨
    ((s.tcb t).joinable = false ∧ (s.tcb t).cancelstate = abortState ∧
      ((s.tcb t).state = .dead ∨ (s.tcb t).cancelreq = true))

theorem inPlace_alive (h : s.inPlace t = true) : (s.tcb t).state ≠ .dead := by
  intro hdead
  simp [inPlace, hdead, placeOf] at h

theorem inPlace_of_cancelsNow (h : s.cancelsNow t = true) : s.inPlace t = true :=
  (Bool.and_eq_true_iff.mp h).2

end Sched

namespace Run

variable {τ : Type*} [DecidableEq τ] {r r' : Run τ} {a : QId → List (τ × ℤ)} {c t : τ}

/-- `pth_abort` of the thread `c`. To join a dead thread it does not wait. -/
def abort (r : Run τ) (c : τ) (alloc : Bool) : Option τ → Option (Out τ × Run τ)
  | none => some (.ret (.error .EINVAL), r)
  | some t =>
    if some t = r.lib.pthCurrent then some (.ret (.error .EINVAL), r)
    else if (r.lib.tcb t).state = .dead ∧ (r.lib.tcb t).joinable = true then
      match r.join c (some t) alloc with
      | (.ret x, r₁) => some (.ret x, r₁)
      | (_, r₁) => (r₁.joinFinish c (some t)).map fun
        | (.joined _, r₂) => (.ret .ok, r₂)
        | (o, r₂) => (o, r₂)
    else
      r.returns ((r.lib.forceAsync t).cancel (some t))

/-- If the call returns `FALSE`, the thread `t` and all queues are as before. -/
def Atomic (r : Run τ) (t : τ) (x : Option (Out τ × Run τ)) : Prop :=
  ∀ e r', x = some (.ret (.error e), r') →
    r'.lib.tcb t = r.lib.tcb t ∧ r'.lib.queues = r.lib.queues

omit [DecidableEq τ] in
theorem atomic_returns {x : Option (Ret × Sched τ)} : r.Atomic t (r.returns x) ↔
    ∀ e s', x = some (.error e, s') → s'.tcb t = r.lib.tcb t ∧ s'.queues = r.lib.queues := by
  constructor
  · intro h e s' hx
    exact h e { r with lib := s' } (by simp [returns, hx])
  · intro h e r' hx
    obtain ⟨⟨ret, s'⟩, hs', heq⟩ := Option.map_eq_some_iff.mp hx
    obtain ⟨hret, rfl⟩ := Prod.mk.inj heq
    obtain rfl : ret = .error e := by simpa using hret
    exact h e s' hs'

theorem cancel_atomic_iff (h : r.lib.queues.Repr a) (ht : some t ≠ r.lib.pthCurrent) :
    r.Atomic t (r.exec (.cancel (some t))) ↔ r.lib.CancelKeeps t := by
  obtain ⟨⟨ret, s⟩, heq, hcase⟩ := Sched.cancel_spec h t
  replace hcase : r.lib.Cancels t ret s := hcase
  have hexec : r.exec (.cancel (some t)) = r.returns (some (ret, s)) := by simp [exec, heq]
  rw [hexec, atomic_returns]
  cases hcase with
  | refused href =>
    refine iff_of_true ?_ (.inl (href.resolve_left ht))
    rintro e s' ⟨⟩
    exact ⟨rfl, rfl⟩
  | missing _ halive hasync hplace =>
    constructor
    · intro hkept
      have hreq := congrArg Tcb.cancelreq (hkept _ _ rfl).1
      exact .inr (.inl (by simpa using hreq.symm))
    · rintro (hdead | hreq | hf) e s' ⟨⟩
      · exact absurd hdead halive
      · exact ⟨by simp [← hreq], rfl⟩
      · simp [hf hasync] at hplace
  | marks _ hasync => exact iff_of_true (by rintro e s' ⟨⟩) (.inr (.inr (by simp [hasync])))
  | buries hnow | frees hnow =>
    exact iff_of_true (by rintro e s' ⟨⟩) (.inr (.inr fun _ => Sched.inPlace_of_cancelsNow hnow))

/-- `pth_join` of a dead thread fails without a change or succeeds. -/
theorem join_dead_atomic (htc : t ≠ c) (hdead : (r.lib.tcb t).state = .dead)
    (hj : (r.lib.tcb t).joinable = true) (alloc : Bool) :
    (∃ e, r.join c (some t) alloc = (.ret (.error e), r)) ∨
      r.join c (some t) alloc = (.none, r.setPc c (.joining (some t))) := by
  unfold join
  rw [if_neg (by simpa using htc), if_neg (by simp [hj])]
  split
  · exact .inl ⟨_, rfl⟩
  · exact .inr (by simp [hdead])

theorem joinFinish_dead_atomic (hdead : (r.lib.tcb t).state = .dead) (c : τ) :
    (r.setPc c (.joining (some t))).joinFinish c (some t) =
      (r.lib.delete .DQ t).map fun s => (.joined (r.lib.tcb t).joinArg,
        { (r.setPc c (.joining (some t))).setPc c .user with lib := s.tcbFree t }) := by
  simp [joinFinish, setPc, hdead]

theorem abort_atomic_iff (h : r.lib.queues.Repr a) (hc : r.lib.pthCurrent = some c) (htc : t ≠ c)
    (alloc : Bool) : r.Atomic t (r.abort c alloc (some t)) ↔ r.lib.AbortKeeps t := by
  have ht : some t ≠ r.lib.pthCurrent := by simpa [hc] using htc
  by_cases hjoin : (r.lib.tcb t).state = .dead ∧ (r.lib.tcb t).joinable = true
  · refine iff_of_true ?_ (.inr (.inl hjoin))
    intro e r' hr'
    simp only [abort, ht, hjoin, and_self, if_true, if_false] at hr'
    rcases join_dead_atomic htc hjoin.1 hjoin.2 alloc with ⟨e', heq⟩ | heq
    · rw [heq] at hr'
      obtain ⟨-, rfl⟩ := Prod.mk.inj (Option.some.inj hr')
      exact ⟨rfl, rfl⟩
    · rw [heq] at hr'
      simp only [joinFinish_dead_atomic hjoin.1, Option.map_map] at hr'
      obtain ⟨s, -, hs⟩ := Option.map_eq_some_iff.mp hr'
      simp at hs
  · obtain ⟨⟨ret, s⟩, heq, hcase⟩ := Sched.cancel_spec (s := r.lib.forceAsync t) h t
    replace hcase : (r.lib.forceAsync t).Cancels t ret s := hcase
    have habort : r.abort c alloc (some t) = r.returns (some (ret, s)) := by
      simp [abort, ht, hjoin, heq]
    rw [habort, atomic_returns]
    cases hcase with
    | refused href =>
      have hdead : (r.lib.tcb t).state = .dead := by
        simpa [Sched.forceAsync] using href.resolve_left ht
      have hj : (r.lib.tcb t).joinable = false := by simpa [hdead] using hjoin
      constructor
      · intro hkept
        have hst := congrArg Tcb.cancelstate (hkept _ _ rfl).1
        exact .inr (.inr ⟨hj, by simpa [Sched.forceAsync] using hst.symm, .inl hdead⟩)
      · rintro (hf | hf | ⟨-, hst, -⟩) e s' ⟨⟩
        · exact absurd hdead (Sched.inPlace_alive hf)
        · exact absurd hf hjoin
        · exact ⟨by simp [Sched.forceAsync, ← hj, ← hst], rfl⟩
    | missing _ halive _ hplace =>
      rw [Sched.forceAsync_inPlace] at hplace
      have halive : (r.lib.tcb t).state ≠ .dead := by simpa [Sched.forceAsync] using halive
      constructor
      · intro hkept
        have htcb := (hkept _ _ rfl).1
        have hj := congrArg Tcb.joinable htcb
        have hst := congrArg Tcb.cancelstate htcb
        have hreq := congrArg Tcb.cancelreq htcb
        simp only [Sched.forceAsync, Sched.modify_tcb, if_true] at hj hst hreq
        exact .inr (.inr ⟨hj.symm, hst.symm, .inr hreq.symm⟩)
      · rintro (hf | hf | ⟨hj, hst, hdead | hreq⟩) e s' ⟨⟩
        · simp [hf] at hplace
        · exact absurd hf hjoin
        · exact absurd hdead halive
        · exact ⟨by simp [Sched.forceAsync, ← hj, ← hst, ← hreq], rfl⟩
    | marks _ hasync => simp [Sched.forceAsync_asynchronous] at hasync
    | buries hnow | frees hnow =>
      refine iff_of_true (by rintro e s' ⟨⟩) (.inl ?_)
      rw [← Sched.forceAsync_inPlace]
      exact Sched.inPlace_of_cancelsNow hnow

/-- In every state with well-formed queues, as all states of a run have them: whether a failed
    `pth_cancel` and a failed `pth_abort` leave the other thread and the queues alone. -/
theorem cancellation_atomic_iff (h : r.lib.queues.Repr a) (hc : r.lib.pthCurrent = some c)
    (htc : t ≠ c) (alloc : Bool) :
    (r.Atomic t (r.exec (.cancel (some t))) ↔ r.lib.CancelKeeps t) ∧
    (r.Atomic t (r.abort c alloc (some t)) ↔ r.lib.AbortKeeps t) :=
  ⟨cancel_atomic_iff h (by simpa [hc] using htc), abort_atomic_iff h hc htc alloc⟩

/-! ## Aborting in a run -/

omit [DecidableEq τ] in
/-- A thread that has terminated and is still there can be joined. -/
theorem Inv.dead_joinable (h : r.Inv) (hrun : r.phase = .running) (ht : r.lib.live t = true)
    (hts : t ≠ r.lib.pthSched) (hdead : (r.lib.tcb t).state = .dead) :
    (r.lib.tcb t).joinable = true := by
  obtain ⟨c, a, hc, hready, ha⟩ := h.atRunning hrun
  have htc : t ∉ ({c} : Set τ) := by
    rintro rfl
    simp [hready] at hdead
  obtain ⟨k, hk⟩ := ha.queued ht hts htc
  have hfits := ha.fits hk
  cases k with
  | DQ => exact hfits.2
  | _ => simp [Fits, hdead] at hfits

/-- `pth_attr_set` for the thread `t` -/
def setAttr (r : Run τ) (t : τ) (x : AttrSet) : Run τ := { r with lib := r.lib.modify t x.write }

theorem setAttr_forceAsync (r : Run τ) (t : τ) :
    ((r.setAttr t (.joinable false)).setAttr t (.cancelState abortState)).lib =
      r.lib.forceAsync t := by
  simp [setAttr, Sched.modify_modify, Sched.forceAsync, AttrSet.write]

/-- `pth_abort` of a thread that has terminated: the two parts of `pth_join`. -/
theorem abort_steps_dead {alloc : Bool} {o : Out τ} (hcalls : r.calls)
    (hc : r.lib.pthCurrent = some c) (htc : t ≠ c) (ht : r.lib.live t = true)
    (hfree : r.unjoined (some t)) (hdead : (r.lib.tcb t).state = .dead)
    (hj : (r.lib.tcb t).joinable = true) (hs : r.abort c alloc (some t) = some (o, r')) :
    ∃ ops, machine.Steps r ops r' ∧ ∀ op ∈ ops, op = .join (some t) alloc ∨ op = .joinFinish := by
  have hcur : some t ≠ r.lib.pthCurrent := by simpa [hc] using htc
  simp only [abort, hcur, hdead, hj, and_self, if_true, if_false] at hs
  have hjoin : machine.Step r (.join (some t) alloc) (r.join c (some t) alloc).1
      (r.join c (some t) alloc).2 :=
    ⟨⟨hcalls, by simpa using ht, hfree⟩, by simp [machine, exec, hc]⟩
  rcases join_dead_atomic htc hdead hj alloc with ⟨e, heq⟩ | heq
  · rw [heq] at hs hjoin
    cases hs
    exact ⟨[_], ⟨_, _, hjoin, rfl⟩, by simp⟩
  · rw [heq] at hs hjoin
    obtain ⟨⟨o₁, r₁⟩, hfinish, hout⟩ := Option.map_eq_some_iff.mp hs
    have hr₁ : r₁ = r' := by
      cases o₁ <;> exact (Prod.mk.inj hout).2
    have hen : (r.setPc c (.joining (some t))).enabled .joinFinish := by
      refine ⟨hcalls.1, ?_, ?_⟩ <;> simp [setPc, hc]
    have hstep : machine.Step (r.setPc c (.joining (some t))) .joinFinish o₁ r₁ :=
      ⟨hen, by simpa [machine, exec, setPc, hc] using hfinish⟩
    exact ⟨[_, _], ⟨_, _, hjoin, _, _, hstep, hr₁⟩, by simp⟩

/-- `pth_abort` of a thread that nobody joins is a sequence of other operations, in which no
    other thread runs: it sets attributes and cancels the thread, or it joins it. -/
theorem Inv.abort_steps {alloc : Bool} {o : Out τ} (h : r.Inv) (hcalls : r.calls)
    (hc : r.lib.pthCurrent = some c) (htc : t ≠ c) (ht : r.lib.live t = true)
    (hts : t ≠ r.lib.pthSched) (hfree : r.unjoined (some t))
    (hs : r.abort c alloc (some t) = some (o, r')) :
    ∃ ops, machine.Steps r ops r' ∧ ∀ op ∈ ops, (∃ x, op = .attr t x) ∨ op = .cancel (some t) ∨
      op = .join (some t) alloc ∨ op = .joinFinish := by
  by_cases hdead : (r.lib.tcb t).state = .dead
  · obtain ⟨ops, hsteps, hops⟩ := abort_steps_dead hcalls hc htc ht hfree hdead
      (h.dead_joinable hcalls.1 ht hts hdead) hs
    exact ⟨ops, hsteps, fun op hop => .inr (.inr (hops op hop))⟩
  · have hcur : some t ≠ r.lib.pthCurrent := by simpa [hc] using htc
    simp only [abort, hcur, hdead, false_and, if_false] at hs
    have hjoin : machine.Step r (.attr t (.joinable false)) (.ret .ok)
        (r.setAttr t (.joinable false)) :=
      ⟨⟨hcalls, ht, fun _ => ⟨hts, hdead, hfree⟩⟩, rfl⟩
    have hstate : machine.Step (r.setAttr t (.joinable false)) (.attr t (.cancelState abortState))
        (.ret .ok) ((r.setAttr t (.joinable false)).setAttr t (.cancelState abortState)) :=
      ⟨⟨hcalls, ht, by simp [AttrSet.isJoinable]⟩, rfl⟩
    have hcancel : machine.Step ((r.setAttr t (.joinable false)).setAttr t
        (.cancelState abortState)) (.cancel (some t)) o r' := by
      rw [← setAttr_forceAsync] at hs
      refine ⟨⟨hcalls, by simpa [setAttr] using ht⟩, ?_⟩
      simp only [machine, exec]
      exact hs
    refine ⟨[_, _, _], ⟨_, _, hjoin, _, _, hstate, _, _, hcancel, rfl⟩, ?_⟩
    simp

/-- The attributes of a joinable thread that can be cancelled at any time. -/
def asyncAttr : Attr :=
  { prio := 0, joinable := true, cancelstate := abortState, stacksize := 65536 }

/-- The thread has exited: `pth_cancel` fails and leaves it as it is. -/
theorem cancellation_atomic_iff_dead : ∃ r : Run (Fin 3), machine.Reachable r ∧
    r.lib.pthCurrent = some 0 ∧ r.exec (.cancel (some 2)) = some (.ret (.error .EPERM), r) ∧
    r.Atomic 2 (r.exec (.cancel (some 2))) ∧ r.Atomic 2 (r.abort 0 true (some 2)) := by
  have hboot : machine.Reach (fun _ _ => True) (boot (Sched.blank (0 : Fin 3)) 0 1 .zero) :=
    boot_reach _ _ _ _ (by decide)
  obtain ⟨r, hr, hc, hdead, hj⟩ := hboot.play
    (l := [.spawn none .user (some 2), .yield none, .comeback .zero .intact fun _ => false,
      .manage Sched.quiet, .dispatch, .exit 7 none, .comeback .zero .intact fun _ => false,
      .manage Sched.quiet, .dispatch])
    (p := fun r => r.lib.pthCurrent = some 0 ∧ (r.lib.tcb 2).state = .dead ∧
      (r.lib.tcb 2).joinable = true) (by decide)
  obtain ⟨a, ha⟩ := (Inv.reach hr).consistent
  obtain ⟨hcancel, habort⟩ := cancellation_atomic_iff ha.repr hc (t := 2) (by decide) true
  exact ⟨r, hr, hc, by simp [exec, Sched.cancel, hc, hdead, returns], hcancel.mpr (.inl hdead),
    habort.mpr (.inr (.inl ⟨hdead, hj⟩))⟩

/-- The thread is suspended: both calls fail and leave it marked, and `pth_abort` detaches it. -/
theorem cancellation_not_atomic : ∃ r : Run (Fin 3), machine.Reachable r ∧
    r.lib.pthCurrent = some 0 ∧ r.lib.live 2 ∧ ¬ r.Atomic 2 (r.exec (.cancel (some 2))) ∧
    ¬ r.Atomic 2 (r.abort 0 true (some 2)) := by
  have hboot : machine.Reach (fun _ _ => True) (boot (Sched.blank (0 : Fin 3)) 0 1 .zero) :=
    boot_reach _ _ _ _ (by decide)
  obtain ⟨r, hr, hc, hlive, hstate, hmem, htcb⟩ := hboot.play
    (l := [.spawn (some asyncAttr) .user (some 2), .suspend (some 2)])
    (p := fun r => r.lib.pthCurrent = some 0 ∧ r.lib.live 2 ∧ (r.lib.tcb 2).state = .new ∧
      2 ∉ r.lib.queues.threads .NQ ∧ (r.lib.tcb 2).cancelreq = false ∧
      (r.lib.tcb 2).joinable = true ∧ (r.lib.tcb 2).cancelstate = abortState) (by decide)
  obtain ⟨a, ha⟩ := (Inv.reach hr).consistent
  have hnot : r.lib.inPlace 2 = false := by simp [Sched.inPlace, hstate, placeOf, hmem]
  refine ⟨r, hr, hc, hlive, ?_, ?_⟩
  · rw [cancel_atomic_iff ha.repr (by simp [hc])]
    rintro (hdead | hreq | hfound)
    · simp [hstate] at hdead
    · simp [htcb.1] at hreq
    · have hasync : Sched.asynchronous (r.lib.tcb 2) = true := by
        rw [Sched.asynchronous, htcb.2.2]
        decide
      simp [hfound hasync] at hnot
  · rw [abort_atomic_iff ha.repr hc (by decide)]
    rintro (hfound | hdead | hdetached)
    · simp [hfound] at hnot
    · simp [hstate] at hdead
    · simp [htcb.2.1] at hdetached

end Run

end Pth
