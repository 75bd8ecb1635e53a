-- SUMMARY: A thread behind its wait has an event that is not pending, or a cancellation request.
import Pth.Sched.Invariant

/-!
# Returning from `pth_wait`

The event manager wakes a thread for a cancellation request, whatever its
cancellation state is, whereas `pth_cancel_point` looks at the cancellation state.
So a thread that has disabled cancellation leaves `pth_wait` with no event that
occurred, and this is the only way to do so. -/

namespace Pth

open PrioList (keys)

/-- What a thread in `pth_wait` is like: it is not new, and if it is ready then it was
    due to be woken. -/
def Tcb.Awake {τ : Type*} (x : Tcb τ) : Pc τ → Prop
  | .waiting _ => x.state ≠ .new ∧ (x.state = .ready → Sched.Due x)
  | _ => True

theorem Tcb.Awake.steady {τ : Type*} {x y : Tcb τ} {p : Pc τ} (h : x.Awake p) (hc : x.Steady y) :
    y.Awake p := by
  cases p with
  | waiting k =>
    rcases hc.state with hst | hst
    · rw [Tcb.Awake, hst, Sched.Due, hc.events]
      exact ⟨h.1, fun hr => (h.2 hr).imp_right hc.cancelreq⟩
    · exact ⟨by simp [hst], by simp [hst]⟩
  | _ => trivial

namespace Run

variable {τ : Type*} [DecidableEq τ] {r r' : Run τ} {c : τ}

/-- Every thread in `pth_wait` is as described. -/
structure Alert (r : Run τ) : Prop where
  inv : r.Inv
  awake : ∀ t, r.lib.live t → (r.lib.tcb t).Awake (r.pc t)

/-- The thread `c` changes its own block and its own place in the code. -/
theorem Alert.own {f : Tcb τ → Tcb τ} {p : Pc τ} (h : r.Alert) (hp : (f (r.lib.tcb c)).Awake p)
    (t : τ) (ht : r.lib.live t) :
    ((r.lib.modify c f).tcb t).Awake (Function.update r.pc c p t) := by
  by_cases htc : t = c
  · subst htc
    simpa using hp
  · simpa [htc] using h.awake t ht

theorem Alert.spawn {attr : Option Attr} {func : StartFunc} {s : Sched τ} {u : τ} (h : r.Alert)
    (hs : (r.lib.created attr func u).OffQueues s) (t : τ) (ht : s.live t) :
    (s.tcb t).Awake (Function.update r.pc u .user t) := by
  by_cases htu : t = u
  · simp [htu, Tcb.Awake]
  · have ht : r.lib.live t := by simpa [hs.live, Sched.created, htu] using ht
    simpa [hs.tcb, Sched.created, htu] using h.awake t ht

/-- A pass makes threads ready only if they are due. -/
theorem Alert.manage {s : Sched τ} {a : QId → List (τ × ℤ)} (h : r.Alert)
    (ha : r.lib.Consistent a ∅) (hp : r.lib.Passed (keys (a .WQ)) s) (t : τ) (ht : s.live t) :
    (s.tcb t).Awake (r.pc t) := by
  have hold := h.awake t (hp.live ▸ ht)
  cases hpc : r.pc t with
  | waiting k =>
    rw [hpc] at hold
    rw [Tcb.Awake, hp.state]
    by_cases hw : t ∈ keys (a .WQ)
    · have hst : (r.lib.tcb t).state = .waiting := ha.fits hw
      by_cases hdue : Sched.Due (s.tcb t)
      · simp [hw, hdue]
      · simp [hw, hdue, hst]
    · simpa [hw, Sched.Due, hp.events t hw, hp.cancelreq] using And.intro hold.1 hold.2
  | _ => trivial

/-- A thread that was new is not in `pth_wait`. -/
theorem Alert.dispatch {s : Sched τ} {a : QId → List (τ × ℤ)} (h : r.Alert)
    (ha : r.lib.Consistent a ∅) (hd : r.lib.Drained a s) (t : τ) (ht : s.live t) :
    (s.tcb t).Awake (r.pc t) := by
  have hold := h.awake t (hd.live ▸ ht)
  rw [hd.tcb]
  split
  · next hnew =>
    have hst : (r.lib.tcb t).state = .new := ha.fits hnew
    cases hpc : r.pc t with
    | waiting k =>
      rw [hpc] at hold
      exact absurd hst hold.1
    | _ => trivial
  · exact hold

theorem Alert.effect {op : Op τ} {o : Out τ} (h : r.Alert) (heff : Effect r op o r') :
    r'.Alert := by
  refine ⟨heff.inv h.inv, ?_⟩
  cases heff with
  | call hrun hc hcalm hst hcons hph =>
    exact fun t ht => (h.awake t (hcalm.live t ht)).steady (hcalm.tcb t).steady
  | spawn hrun hc hpc hu hs => exact h.spawn hs
  | keep hrun hc hst hj hp =>
    refine h.own ?_
    rcases hp with rfl | ⟨tid, rfl, -⟩ <;> trivial
  | wait hrun hc hst => exact h.own ⟨by simp [hst], by simp [hst]⟩
  | @waitReturn alloc c k =>
    have hnext : Tcb.Awake { r.lib.tcb c with events := [] } k.next := by cases k <;> trivial
    exact h.own (f := fun x => { x with events := [] }) hnext
  | exits => exact h.own trivial
  | dies => exact h.own trivial
  | attr => exact fun t ht => (h.awake t ht).steady (AttrSet.modify_steady _ _ _ t)
  | @joined s c u a hrun hc hu hs =>
    intro t ht
    have hlive : r.lib.live t := hs.live_of_tcbFree ht
    have hawake := h.own (c := c) (f := fun x => x) (p := .user) trivial t hlive
    rwa [Sched.modify_id, ← show s.tcb = r.lib.tcb from hs.tcb] at hawake
  | comeback _ _ _ hb => exact fun t ht => (h.awake t (hb.live_of ht)).steady hb.calm.steady
  | manage _ _ ha _ hp => exact h.manage ha hp
  | dispatch _ ha hd => exact h.dispatch ha hd
  | exited | killed => exact h.awake

theorem Alert.init (h : r.init) : r.Alert := by
  refine ⟨.init h, fun t _ => ?_⟩
  obtain ⟨-, -, -, -, -, -, hpc, -⟩ := h
  rw [hpc]
  trivial

theorem Alert.reach {P : Run τ → Op τ → Prop} (h : machine.Reach P r) : r.Alert :=
  h.invariant (I := Alert) (fun _ => Alert.init) fun _ _ _ _ hI _ hs => hI.effect (hI.inv.step hs)

/-- If the running thread has a cancellation request, its cancellation is enabled. -/
def Cancelable (r : Run τ) : Prop :=
  ∀ c ∈ r.lib.pthCurrent, (r.lib.tcb c).cancelreq → cancelEnable (r.lib.tcb c).cancelstate

instance (r : Run τ) : Decidable r.Cancelable :=
  inferInstanceAs (Decidable (∀ c ∈ r.lib.pthCurrent, _))

/-- `pth_wait` returns the number of events of its ring that are not pending, and there
    is such an event, unless the thread has a cancellation request that it does not
    heed. -/
theorem wait_returns_events {op : Op τ} {ring : List (Event τ)} {n : ℕ}
    (h : machine.Reachable r) (hs : machine.Step r op (.waited ring n) r')
    (hcancel : r.Cancelable) : n = nonpending ring ∧ 1 ≤ n := by
  have halert := Alert.reach h
  cases halert.inv.step hs with
  | @waitReturn alloc c k hrun hc hpc hcan =>
    refine ⟨rfl, ?_⟩
    obtain ⟨hready, a, ha⟩ := halert.inv.current hrun hc
    have hawake := halert.awake c (ha.awayLive rfl).1
    rw [hpc] at hawake
    rcases hawake.2 hready with ⟨ev, hev, hne⟩ | hreq
    · exact List.countP_pos_iff.mpr ⟨ev, hev, by simpa using hne⟩
    · simp [Sched.cancelPending, hreq, hcancel c hc hreq] at hcan
  | _ =>
    rename_i ho
    exact absurd rfl (ho ring n)

/-- The number that `pth_wait` returns, if the output is one of it. -/
def waitedNumber : Out τ → Option ℕ
  | .waited _ n => some n
  | _ => none

omit [DecidableEq τ] in
theorem waitedNumber_eq {o : Out τ} {n : ℕ} (h : waitedNumber o = some n) :
    ∃ ring, o = .waited ring n := by
  cases o with
  | waited ring m =>
    obtain rfl : m = n := by simpa [waitedNumber] using h
    exact ⟨ring, rfl⟩
  | _ => simp [waitedNumber] at h

/-- The main thread waits for a mutex that is not locked. -/
theorem wait_returns_events_mutex : ∃ (r r' : Run (Fin 2)) (ring : List (Event (Fin 2))) (n : ℕ),
    machine.Reachable r ∧ machine.Step r (.waitReturn none) (.waited ring n) r' ∧
    r.Cancelable ∧ n = nonpending ring ∧ 1 ≤ n := by
  have hboot : machine.Reach (fun _ _ => True) (boot (Sched.blank (0 : Fin 2)) 0 1 .zero) :=
    boot_reach _ _ _ _ (by decide)
  obtain ⟨r, o, r', hr, hs, ho, hcancel⟩ := hboot.play_step
    (l := [.wait [{ evStatus := .pending, evArgs := .mutex 0 }],
      .comeback .zero .intact fun _ => false, .manage Sched.quiet, .dispatch])
    (i := .waitReturn none)
    (p := fun r o _ => waitedNumber o = some 1 ∧ r.Cancelable) (by decide)
  obtain ⟨ring, rfl⟩ := waitedNumber_eq ho
  exact ⟨r, r', ring, 1, hr, hs, hcancel, wait_returns_events hr hs hcancel⟩

/-- A thread that has disabled cancellation is cancelled while it waits: `pth_wait`
    returns although no event has occurred. -/
theorem wait_returns_no_event : ∃ (r r' : Run (Fin 3)) (ring : List (Event (Fin 3))),
    machine.Reachable r ∧ machine.Step r (.waitReturn none) (.waited ring 0) r' := by
  have hboot : machine.Reach (fun _ _ => True) (boot (Sched.blank (0 : Fin 3)) 0 1 .zero) :=
    boot_reach _ _ _ _ (by decide)
  obtain ⟨r, o, r', hr, hs, ho⟩ := hboot.play_step
    (l := [.spawn none .user (some 2), .yield none, .comeback .zero .intact fun _ => false,
      .manage Sched.quiet, .dispatch,
      -- the new thread runs first, and waits for a message
      .cancelState cancelDisable, .wait [{ evStatus := .pending, evArgs := .msg 0 }],
      .comeback .zero .intact fun _ => false, .manage Sched.quiet, .dispatch,
      -- the main thread cancels it and lets it run
      .cancel (some 2), .yield none, .comeback .zero .intact fun _ => false,
      .manage Sched.quiet, .dispatch])
    (i := .waitReturn none) (p := fun _ o _ => waitedNumber o = some 0) (by decide)
  obtain ⟨ring, rfl⟩ := waitedNumber_eq ho
  exact ⟨r, r', ring, hr, hs⟩

end Run

end Pth
