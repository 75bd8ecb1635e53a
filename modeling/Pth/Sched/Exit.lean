-- SUMMARY: When the main thread leaves pth_exit by waiting, all other threads are dead.
import Pth.Sched.Wait

/-!
# The main thread's exit

`pth_exit_cb` counts the threads in the queues. In the event manager the main
thread, which waits for it, is one of them, so the count is 1 if it is the only
thread. But `pth_exit` also calls it directly, when the main thread runs and is in
no queue; then the count is 1 if there is one other thread. -/

namespace Pth

open PrioList (keys)

namespace Sched

variable {τ : Type*} [DecidableEq τ] {s s' : Sched τ} {env : Env τ} {t : τ}
  {a : QId → List (τ × ℤ)}

/-! ## The event of `pth_exit` -/

theorem scanEvents_func {s₁ : Sched τ} {sc sc₁ : Scan τ} {ev : Event τ} {evs : List (Event τ)}
    {f : EventFunc} {tv : Time} (hargs : ev.evArgs = .func f tv)
    (h : scanEvents env t 0 s sc [ev] = some (s₁, sc₁, evs)) :
    ∃ ev', evs = [ev'] ∧ ev'.evArgs = .func f tv ∧
      (ev'.evStatus ≠ .pending → ev.evStatus ≠ .pending ∨ s.call env t 0 f) := by
  simp only [scanEvents, scanEvent, hargs] at h
  split at h
  · next hp =>
    simp only [scanArgs] at h
    split at h
    · next hcall =>
      obtain ⟨-, -, rfl⟩ : s = s₁ ∧ { sc with anyOccurred := true } = sc₁ ∧
          [{ evStatus := .occurred, evArgs := .func f tv }] = evs := by simpa using h
      exact ⟨_, rfl, rfl, fun _ => .inr hcall⟩
    · simp only [Option.map_some, Option.bind_some, Option.some.injEq, Prod.mk.injEq] at h
      obtain ⟨-, -, rfl⟩ := h
      exact ⟨_, rfl, rfl, fun hne => by simp at hne⟩
  · next hp =>
    obtain ⟨-, -, rfl⟩ : s = s₁ ∧ sc = sc₁ ∧ [ev] = evs := by simpa using h
    exact ⟨ev, rfl, hargs, .inl⟩

omit [DecidableEq τ] in
theorem lateEvents_func {l : Late} {o : Objects} {ev : Event τ} {f : EventFunc} {tv : Time}
    (hargs : ev.evArgs = .func f tv) : (lateEvents env t 0 l o [ev]).2.2 = [ev] := by
  obtain ⟨st, args⟩ := ev
  obtain rfl : args = .func f tv := hargs
  cases st <;> simp [lateEvents, lateEvent, lateArgs]

/-- The timer of a function event is not taken for one of its own. -/
theorem elapse_func {P : τ → ℕ → Event τ → Prop} {Q : Prop} {now : Time} {sc : Scan τ}
    {ev : Event τ} {f : EventFunc} {tv : Time} {dopoll : Bool} {rc : ℤ}
    (hcol : Collected now P Q sc) (hP : ∀ i ev', P t i ev' → ev' = ev)
    (hargs : ev.evArgs = .func f tv) :
    ((s.elapse sc dopoll rc).2.tcb t).events = (s.tcb t).events := by
  rcases elapse_cases s sc dopoll rc with h | ⟨x, hx, hfunc, h⟩
  · rw [h]
  · obtain ⟨ev', hev', -, htime⟩ := hcol.timer x hx
    have htx : t ≠ x.thread := by
      rintro rfl
      obtain rfl := hP x.index ev' hev'
      rw [hargs] at htime
      exact absurd htime.1 (by simp [hfunc])
    rw [h]
    simp [tagOccurred, htx]

/-- In a pass, a function event occurs only if its function says so. -/
theorem eventmanager_func {dopoll b : Bool} {ev : Event τ} {f : EventFunc} {tv : Time}
    (h : s.queues.Repr a) (ht : t ∈ keys (a .WQ)) (hev : (s.tcb t).events = [ev])
    (hargs : ev.evArgs = .func f tv) (hs : s.eventmanager env dopoll = some (b, s')) :
    ∃ ev', (s'.tcb t).events = [ev'] ∧ ev'.evArgs = .func f tv ∧
      (ev'.evStatus ≠ .pending → ev.evStatus ≠ .pending ∨ s.call env t 0 f) := by
  obtain ⟨⟨s₁, sc⟩, hscan, -⟩ := Option.bind_eq_some_iff.mp hs
  obtain ⟨-, -, hc, -, -⟩ := (eventmanager_cleaned h hscan dopoll).of_eq_some hs
  have hnd : (s.queues.threads .WQ).Nodup := h.threads_nodup
  have hmem : t ∈ s.queues.threads .WQ := h.threads ▸ ht
  obtain ⟨s₀, sc₀, s₂, sc₂, hs₀, hevs⟩ := scanThreads_events hscan hmem hnd
  rw [hev] at hevs
  obtain ⟨ev', hev', hargs', hocc⟩ := scanEvents_func hargs hevs
  have hcall : s₀.call env t 0 f = s.call env t 0 f := by
    cases f <;> simp [call, exitCb, hs₀.queues]
  have helapse : ((sleep env s₁ sc dopoll).2.1.tcb t).events = [ev'] := by
    rw [← hev']
    refine elapse_func (scan_collected hscan hnd) (fun i e he => ?_) hargs'
    have he := he.2
    rw [hev'] at he
    exact List.mem_singleton.mp (List.mem_of_getElem? he)
  obtain ⟨l, o, hlate⟩ := hc.late ht
  rw [helapse, lateEvents_func hargs'] at hlate
  exact ⟨ev', hlate, hargs', hcall ▸ hocc⟩

/-! ## Being alone -/

/-- All threads but the main thread and the scheduler are dead. -/
def Alone (s : Sched τ) : Prop :=
  ∀ t, s.live t → t ≠ s.pthSched → t ≠ s.pthMain → (s.tcb t).state = .dead

omit [DecidableEq τ] in
theorem Alone.mono (h : s.Alone) (hlive : ∀ t, s'.live t → s.live t)
    (hsched : s'.pthSched = s.pthSched) (hmain : s'.pthMain = s.pthMain)
    (hst : ∀ t, s.live t → t ≠ s.pthMain → (s.tcb t).state = .dead → (s'.tcb t).state = .dead) :
    s'.Alone := by
  intro t ht hts htm
  rw [hsched] at hts
  rw [hmain] at htm
  exact hst t (hlive t ht) htm (h t (hlive t ht) hts htm)

omit [DecidableEq τ] in
/-- If only the dead queue has other threads than the main thread, it is alone. -/
theorem Consistent.alone {H : Set τ} (h : s.Consistent a H) (hH : ∀ u ∈ H, u = s.pthMain)
    (hq : ∀ k u, k ≠ .DQ → u ∈ keys (a k) → u = s.pthMain) : s.Alone := by
  intro t ht hts htm
  obtain ⟨k, hk⟩ := h.queued ht hts fun htH => htm (hH t htH)
  have hdead : k = .DQ := by
    by_contra hne
    exact htm (hq k t hne hk)
  subst hdead
  exact (h.fits hk).1

omit [DecidableEq τ] in
/-- When the main thread waits, the count of `pth_exit_cb` is right. -/
theorem Consistent.alone_of_exitCb (h : s.Consistent a ∅) (hmain : s.pthMain ∈ keys (a .WQ))
    (hcb : s.exitCb) : s.Alone := by
  have hsum : (keys (a .NQ)).length + (keys (a .RQ)).length + (keys (a .WQ)).length +
      (keys (a .SQ)).length = 1 := by
    have hcb : s.exitCb = true := hcb
    simp only [exitCb, h.repr.elements, decide_eq_true_eq] at hcb
    simp only [PrioList.keys_length]
    omega
  have hpos := List.length_pos_of_mem hmain
  refine h.alone (by simp) fun k u hk hu => ?_
  have hupos := List.length_pos_of_mem hu
  cases k with
  | WQ =>
    obtain ⟨x, hx⟩ := List.length_eq_one_iff.mp (show (keys (a .WQ)).length = 1 by omega)
    rw [hx, List.mem_singleton] at hu hmain
    rw [hu, hmain]
  | DQ => exact absurd rfl hk
  | _ => omega

/-- How far the main thread has got in `pth_exit`, if it stands at the given place: it
    waits for the event, which occurs only if it is alone, or it is alone. -/
def Ends (s : Sched τ) : Pc τ → Prop
  | .waiting (.exit _) => (s.tcb s.pthMain).state ≠ .new ∧
    ∃ ev tv, (s.tcb s.pthMain).events = [ev] ∧ ev.evArgs = .func .exitCb tv ∧
      (ev.evStatus ≠ .pending → s.Alone) ∧
      ((s.tcb s.pthMain).state = .ready → ev.evStatus ≠ .pending ∨ (s.tcb s.pthMain).cancelreq)
  | .exiting _ => s.Alone
  | _ => True

omit [DecidableEq τ] in
/-- If the main thread's block stays steady and others do not come back to life. -/
theorem Ends.steady {p : Pc τ} (h : s.Ends p) (hlive : ∀ t, s'.live t → s.live t)
    (hsched : s'.pthSched = s.pthSched) (hmain : s'.pthMain = s.pthMain)
    (htcb : ∀ t, (s.tcb t).Steady (s'.tcb t)) : s'.Ends p := by
  have halone : s.Alone → s'.Alone := fun ha => ha.mono hlive hsched hmain fun t _ _ hd => by
    rcases (htcb t).state with hst | hst
    · exact hst.trans hd
    · exact hst
  unfold Ends at h ⊢
  split
  · obtain ⟨hnew, ev, tv, hev, hargs, hal, hwake⟩ := h
    rw [hmain]
    have hsteady := htcb s.pthMain
    refine ⟨?_, ev, tv, hsteady.events.trans hev, hargs, fun hne => halone (hal hne), fun hr => ?_⟩
    · rcases hsteady.state with hst | hst
      · rwa [hst]
      · simp [hst]
    · rcases hsteady.state with hst | hst
      · exact (hwake (hst ▸ hr)).imp_right hsteady.cancelreq
      · simp [hst] at hr
  · exact halone h
  · trivial

omit [DecidableEq τ] in
/-- As long as there are other threads, only the main thread's block matters. -/
theorem Ends.apart {p : Pc τ} (h : s.Ends p) (halone : ¬ s.Alone)
    (hmain : s'.pthMain = s.pthMain) (htcb : s'.tcb s.pthMain = s.tcb s.pthMain) :
    s'.Ends p := by
  unfold Ends at h ⊢
  split
  · obtain ⟨hnew, ev, tv, hev, hargs, hal, hwake⟩ := h
    rw [hmain, htcb]
    exact ⟨hnew, ev, tv, hev, hargs, fun hne => absurd (hal hne) halone, hwake⟩
  · exact absurd h halone
  · trivial

/-- A pass. -/
theorem Ends.passed {p : Pc τ} {dopoll b : Bool} (h : s.Ends p) (ha : s.Consistent a ∅)
    (hp : s.Passed (keys (a .WQ)) s') (hm : s.eventmanager env dopoll = some (b, s')) :
    s'.Ends p := by
  have halone : s.Alone → s'.Alone := fun hal =>
    hal.mono (fun t ht => hp.live ▸ ht) hp.pthSched hp.pthMain fun t _ _ hd => by
      rw [hp.state, if_neg ?_]
      · exact hd
      · rintro ⟨hmem, -⟩
        have hw : (s.tcb t).state = .waiting := ha.fits hmem
        simp [hw] at hd
  unfold Ends at h ⊢
  split
  · obtain ⟨hnew, ev, tv, hev, hargs, hal, hwake⟩ := h
    rw [hp.pthMain]
    by_cases hmain : s.pthMain ∈ keys (a .WQ)
    · have hst : (s.tcb s.pthMain).state = .waiting := ha.fits hmain
      obtain ⟨ev', hev', hargs', hocc⟩ := eventmanager_func ha.repr hmain hev hargs hm
      refine ⟨?_, ev', tv, hev', hargs', fun hne => ?_, fun hr => ?_⟩
      · rw [hp.state]
        split <;> simp [hst]
      · rcases hocc hne with hne | hcb
        · exact halone (hal hne)
        · exact halone (ha.alone_of_exitCb hmain hcb)
      · rw [hp.state] at hr
        split at hr
        · next hdue =>
          have hdue := hdue.2
          rw [Due, hev'] at hdue
          simpa using hdue
        · simp [hst] at hr
    · have hst : (s'.tcb s.pthMain).state = (s.tcb s.pthMain).state := by simp [hp.state, hmain]
      rw [hst, hp.cancelreq]
      exact ⟨hnew, ev, tv, (hp.events _ hmain).trans hev, hargs, fun hne => halone (hal hne), hwake⟩
  · exact halone h
  · trivial

/-- The new threads become ready; the main thread is not one of them. -/
theorem Ends.drained {p : Pc τ} (h : s.Ends p) (ha : s.Consistent a ∅) (hd : s.Drained a s') :
    s'.Ends p := by
  have hstay : ∀ t, (s.tcb t).state ≠ .new → s'.tcb t = s.tcb t := by
    intro t ht
    rw [hd.tcb, if_neg ?_]
    intro hnew
    have hst : (s.tcb t).state = .new := ha.fits hnew
    exact ht hst
  have halone : s.Alone → s'.Alone := fun hal =>
    hal.mono (fun t ht => hd.live ▸ ht) hd.pthSched hd.pthMain fun t _ _ hdead => by
      rw [hstay t (by simp [hdead])]
      exact hdead
  unfold Ends at h ⊢
  split
  · obtain ⟨hnew, ev, tv, hev, hargs, hal, hwake⟩ := h
    rw [hd.pthMain, hstay _ hnew]
    exact ⟨hnew, ev, tv, hev, hargs, fun hne => halone (hal hne), hwake⟩
  · exact halone h
  · trivial

end Sched

namespace Run

variable {τ : Type*} [DecidableEq τ] {r r' : Run τ}

/-! ## Runs -/

/-- The main thread is in `pth_exit` as described. -/
structure Outlives (r : Run τ) : Prop where
  inv : r.Inv
  main : r.lib.live r.lib.pthMain → r.lib.Ends (r.pc r.lib.pthMain)

/-- How the main thread may call `pth_exit`, in any step: not with one other thread,
    not without memory for the event while there are others, and it does not leave
    the wait because of a cancellation request that it does not heed. -/
def ExitsOk (r : Run τ) (op : Op τ) : Prop :=
  r.lib.pthCurrent = some r.lib.pthMain →
    (∀ alloc ∈ r.exitCall op, r.lib.exitCb = false ∧
      (alloc = none → ∀ k, k ≠ .DQ → r.lib.queues.elements k = 0)) ∧
    ((op matches .waitReturn _) → r.Cancelable)

instance (r : Run τ) (op : Op τ) : Decidable (r.ExitsOk op) :=
  inferInstanceAs (Decidable (_ → _))

omit [DecidableEq τ] in
/-- A thread that runs beside the main thread. -/
theorem Inv.not_alone {c : τ} (h : r.Inv) (hrun : r.phase = .running)
    (hc : r.lib.pthCurrent = some c) (hne : c ≠ r.lib.pthMain) : ¬ r.lib.Alone := by
  obtain ⟨hready, a, ha⟩ := h.current hrun hc
  intro halone
  obtain ⟨hlive, hsched⟩ := ha.awayLive (Set.mem_singleton c)
  simp [halone c hlive hsched hne] at hready

/-- The running thread changes its own block and its own place in the code; what it
    does matters only if it is the main thread. -/
theorem Outlives.own {c : τ} {f : Tcb τ → Tcb τ} {p : Pc τ} (h : r.Outlives)
    (hrun : r.phase = .running) (hc : r.lib.pthCurrent = some c)
    (hp : c = r.lib.pthMain → (r.lib.modify c f).Ends p) (hlive : r.lib.live r.lib.pthMain) :
    (r.lib.modify c f).Ends (Function.update r.pc c p r.lib.pthMain) := by
  by_cases hmain : c = r.lib.pthMain
  · rw [← hmain, Function.update_self]
    exact hp hmain
  · rw [Function.update_of_ne (Ne.symm hmain)]
    exact (h.main hlive).apart (h.inv.not_alone hrun hc hmain) rfl (by simp [Ne.symm hmain])

/-- The thread that spawns another one is outside of `pth_exit`. -/
theorem Outlives.spawn {attr : Option Attr} {func : StartFunc} {s : Sched τ} {c t : τ}
    (h : r.Outlives) (hrun : r.phase = .running) (hc : r.lib.pthCurrent = some c)
    (hpc : r.pc c = .user) (hs : (r.lib.created attr func t).OffQueues s)
    (hlive : s.live s.pthMain) : s.Ends (Function.update r.pc t .user s.pthMain) := by
  have hmain : s.pthMain = r.lib.pthMain := hs.pthMain
  rw [hmain] at hlive ⊢
  by_cases ht : r.lib.pthMain = t
  · rw [ht, Function.update_self]
    trivial
  · rw [Function.update_of_ne ht]
    by_cases hcm : c = r.lib.pthMain
    · rw [← hcm, hpc]
      trivial
    · have hlive : r.lib.live r.lib.pthMain := by
        simpa [hs.live, Sched.created, ht] using hlive
      refine (h.main hlive).apart (h.inv.not_alone hrun hc hcm) hmain ?_
      simp [hs.tcb, Sched.created, ht]

/-- The main thread leaves the wait of `pth_exit`. -/
theorem Outlives.waitReturn {k : Cont τ} (h : r.Outlives) (hrun : r.phase = .running)
    (hc : r.lib.pthCurrent = some r.lib.pthMain) (hpc : r.pc r.lib.pthMain = .waiting k)
    (hcan : r.lib.cancelPending r.lib.pthMain = false) (hcancel : r.Cancelable) :
    (r.lib.modify r.lib.pthMain fun tcb => { tcb with events := [] }).Ends k.next := by
  obtain ⟨hready, a, ha⟩ := h.inv.current hrun hc
  have hends := h.main (ha.awayLive rfl).1
  cases k with
  | exit value =>
    rw [hpc] at hends
    obtain ⟨-, ev, tv, -, -, halone, hwake⟩ := hends
    have hocc : ev.evStatus ≠ .pending := by
      rcases hwake hready with hocc | hreq
      · exact hocc
      · simp [Sched.cancelPending, hreq, hcancel _ hc hreq] at hcan
    exact (halone hocc).mono (fun _ => id) rfl rfl fun t _ ht hd => by simpa [ht] using hd
  | _ => trivial

/-- The main thread goes on with `pth_exit` at once, since nobody else is there. -/
theorem Outlives.exits {op : Op τ} {f : Tcb τ → Tcb τ} {value : ℤ} (h : r.Outlives)
    (hrun : r.phase = .running) (hc : r.lib.pthCurrent = some r.lib.pthMain)
    (hop : r.exitsAtOnce op) (hok : r.ExitsOk op) :
    (r.lib.modify r.lib.pthMain f).Ends (.exiting value) := by
  obtain ⟨-, a, ha⟩ := h.inv.current hrun hc
  obtain ⟨alloc, hcall, hcb⟩ := hop
  obtain ⟨hno, hnone⟩ := (hok hc).1 alloc hcall
  have hempty := hnone (by simpa [hno] using hcb)
  have halone : r.lib.Alone := by
    refine ha.alone (by simp) fun k u hk hu => ?_
    have hlen := hempty k hk
    rw [ha.repr.elements] at hlen
    have hpos := List.length_pos_of_mem hu
    rw [PrioList.keys_length] at hpos
    omega
  exact halone.mono (fun _ => id) rfl rfl fun t _ ht hd => by simpa [ht] using hd

theorem Outlives.effect {op : Op τ} {o : Out τ} (h : r.Outlives) (hok : r.ExitsOk op)
    (heff : Effect r op o r') : r'.Outlives := by
  refine ⟨heff.inv h.inv, ?_⟩
  cases heff with
  | @call _ _ s _ _ _ hrun hc hcalm =>
    intro hlive
    have hmain : s.pthMain = r.lib.pthMain := hcalm.pthMain
    rw [hmain] at hlive ⊢
    exact (h.main (hcalm.live _ hlive)).steady hcalm.live hcalm.pthSched hmain
      fun t => (hcalm.tcb t).steady
  | spawn hrun hc hpc _ hs => exact h.spawn hrun hc hpc hs
  | keep hrun hc hst hj hp =>
    refine h.own hrun hc fun _ => ?_
    rcases hp with rfl | ⟨tid, rfl, -⟩ <;> trivial
  | @wait _ _ c f k hrun hc hst hj hev hk hexit =>
    refine h.own hrun hc fun hmain => ?_
    cases k with
    | exit value =>
      obtain ⟨rfl, tv, hevs⟩ := hexit value rfl
      exact ⟨by simp [hst], _, tv, by simpa using hevs, rfl, by simp, by simp [hst]⟩
    | _ => trivial
  | @waitReturn alloc c k hrun hc hpc hcan =>
    refine h.own hrun hc fun hmain => ?_
    subst hmain
    exact h.waitReturn hrun hc hpc hcan ((hok hc).2 rfl)
  | exits hrun hc hst hj hop => exact h.own hrun hc fun _ => h.exits hrun hc hop hok
  | dies hrun hc hmain => exact h.own hrun hc fun hmain' => absurd hmain' hmain
  | attr =>
    exact fun hlive => (h.main hlive).steady (fun _ => id) rfl rfl
      (AttrSet.modify_steady _ _ _)
  | @joined s c u _ hrun hc hu hs =>
    intro hlive
    have hmain : s.pthMain = r.lib.pthMain := hs.pthMain
    have htcb : s.tcb = r.lib.tcb := hs.tcb
    have hold : ∀ t, s.live t → r.lib.live t := fun t ht => hs.live_of_tcbFree ht
    have hends := h.own (f := fun x => x) (p := .user) hrun hc (fun _ => trivial)
      (hold _ (hmain ▸ hlive))
    rw [Sched.modify_id, ← hmain] at hends
    exact hends.steady hold hs.pthSched hmain fun t => by rw [htcb]; exact (Tcb.Calm.refl _).steady
  | @comeback _ _ _ s c _ hsw hc hcons hb =>
    intro hlive
    have hmain : s.pthMain = r.lib.pthMain := hb.pthMain
    rw [hmain] at hlive ⊢
    exact (h.main (hb.live_of hlive)).steady (fun _ => hb.live_of) hb.pthSched hmain
      fun _ => hb.calm.steady
  | @manage _ _ _ s _ hph hm ha hcons hp =>
    intro hlive
    have hmain : s.pthMain = r.lib.pthMain := hp.pthMain
    rw [hmain, hp.live] at hlive
    rw [hmain]
    exact (h.main hlive).passed ha hp hm
  | @dispatch s _ _ hph ha hd =>
    intro hlive
    have hmain : s.pthMain = r.lib.pthMain := hd.pthMain
    rw [hmain, hd.live] at hlive
    rw [hmain]
    exact (h.main hlive).drained ha hd
  | exited | killed => exact h.main

/-- The main thread runs outside of blocking calls; the queues are in any state that
    is consistent. -/
def Calling (r : Run τ) : Prop := r.Inv ∧ r.calls ∧ r.lib.pthCurrent = some r.lib.pthMain

/-- The machine whose runs start when the main thread may call `pth_exit`. -/
def exitMachine : Machine (Run τ) (Op τ) (Out τ) := { machine with init := Calling }

instance [Fintype τ] (r : Run τ) (op : Op τ) : Decidable (exitMachine.enabled r op) :=
  inferInstanceAs (Decidable (r.enabled op))

theorem Outlives.reach (h : exitMachine.Reach ExitsOk r) : r.Outlives := by
  refine h.invariant (I := Outlives) (fun r hr => ?_) fun _ _ _ _ hI hP hs => ?_
  · obtain ⟨hinv, ⟨-, hpc⟩, hc⟩ := hr
    refine ⟨hinv, fun _ => ?_⟩
    have hpc : r.pc r.lib.pthMain = .user := by simpa [hc] using hpc
    rw [hpc]
    trivial
  · exact hI.effect hP (hI.inv.step hs)

/-- When the main thread executes the part of `pth_exit` that terminates the process,
    no other thread is in the queues of new, ready, waiting and suspended threads. -/
theorem main_outlives_threads {value : ℤ} (h : exitMachine.Reach ExitsOk r)
    (hrun : r.phase = .running) (hc : r.lib.pthCurrent = some r.lib.pthMain)
    (hpc : r.pc r.lib.pthMain = .exiting value) :
    ∀ k, k ≠ .DQ → ∀ t ∈ r.lib.queues.threads k, t = r.lib.pthMain := by
  intro k hk t ht
  have hout := Outlives.reach h
  obtain ⟨-, a, ha⟩ := hout.inv.current hrun hc
  have halone := hout.main (ha.awayLive rfl).1
  rw [hpc] at halone
  rw [ha.repr.threads] at ht
  by_contra hne
  have hdead := halone t (ha.live ht) (ha.sched ht) hne
  exact hk ((ha.fits ht).queue_eq_dead hdead)

/-- The main thread is alone, and waits in `pth_exit` for one pass. -/
theorem main_outlives_threads_alone : ∃ r : Run (Fin 2), exitMachine.Reach ExitsOk r ∧
    r.phase = .running ∧ r.lib.pthCurrent = some r.lib.pthMain ∧
    r.pc r.lib.pthMain = .exiting 0 ∧
    ∀ k, k ≠ .DQ → ∀ t ∈ r.lib.queues.threads k, t = r.lib.pthMain := by
  have hboot : exitMachine.Reach ExitsOk (boot (Sched.blank (0 : Fin 2)) 0 1 .zero) :=
    .init ⟨.reach (boot_reach (P := fun _ _ => True) _ _ _ _ (by decide)), by decide, by decide⟩
  obtain ⟨r, hr, hrun, hc, hpc⟩ := hboot.play
    (l := [.exit 0 (some .zero), .comeback .zero .intact fun _ => false, .manage Sched.quiet,
      .dispatch, .waitReturn none])
    (p := fun r => r.phase = .running ∧ r.lib.pthCurrent = some r.lib.pthMain ∧
      r.pc r.lib.pthMain = .exiting 0) (by decide)
  exact ⟨r, hr, hrun, hc, hpc, main_outlives_threads hr hrun hc hpc⟩

/-- The main thread calls `pth_exit` while there is one other thread, and terminates
    the process at once. -/
theorem main_exits_beside_thread : ∃ r : Run (Fin 3), machine.Reachable r ∧
    r.phase = .running ∧ r.lib.pthCurrent = some r.lib.pthMain ∧
    r.pc r.lib.pthMain = .exiting 0 ∧ 2 ∈ r.lib.queues.threads .NQ ∧ 2 ≠ r.lib.pthMain := by
  have hboot : machine.Reach (fun _ _ => True) (boot (Sched.blank (0 : Fin 3)) 0 1 .zero) :=
    boot_reach _ _ _ _ (by decide)
  exact hboot.play (l := [.spawn none .user (some 2), .exit 0 (some .zero)])
    (p := fun r => r.phase = .running ∧ r.lib.pthCurrent = some r.lib.pthMain ∧
      r.pc r.lib.pthMain = .exiting 0 ∧ 2 ∈ r.lib.queues.threads .NQ ∧ 2 ≠ r.lib.pthMain)
    (by decide)

end Run

end Pth
