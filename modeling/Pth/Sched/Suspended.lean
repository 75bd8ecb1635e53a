-- SUMMARY: A suspended thread is frozen until it is resumed, and then comes back to its old queue.
import Pth.Sched.LastWords
import Pth.Sched.Lists

/-!
# Suspended threads

`pth_suspend` moves a thread to a queue of its own, and `pth_resume` moves it back to the
queue of its state. In between, any other calls may come: requests to cancel or to abort the
thread, signals for it, events it waits for, whole rounds of the scheduler. None of them wakes
it or changes what it is about to do. Only `pth_attr_set`, and `pth_abort` in the same way,
reach its attributes. -/

namespace Pth

open PrioList (keys)

variable {τ : Type*}

/-- What may happen to the block of a suspended thread, its attributes apart: it can be asked
    to terminate, and signals can be raised for it. -/
structure Tcb.Frozen (x y : Tcb τ) : Prop where
  state : y.state = x.state
  events : y.events = x.events
  joinArg : y.joinArg = x.joinArg
  cancelreq : x.cancelreq = true → y.cancelreq = true

theorem Tcb.Frozen.refl (x : Tcb τ) : x.Frozen x := ⟨rfl, rfl, rfl, id⟩

theorem Tcb.Frozen.trans {x y z : Tcb τ} (h : x.Frozen y) (h' : y.Frozen z) : x.Frozen z where
  state := h'.state.trans h.state
  events := h'.events.trans h.events
  joinArg := h'.joinArg.trans h.joinArg
  cancelreq hx := h'.cancelreq (h.cancelreq hx)

/-- The attributes that other threads can set. -/
structure Tcb.SameAttrs (x y : Tcb τ) : Prop where
  prio : y.prio = x.prio
  joinable : y.joinable = x.joinable
  cancelstate : y.cancelstate = x.cancelstate

theorem Tcb.SameAttrs.refl (x : Tcb τ) : x.SameAttrs x := ⟨rfl, rfl, rfl⟩

theorem Tcb.SameAttrs.trans {x y z : Tcb τ} (h : x.SameAttrs y) (h' : y.SameAttrs z) :
    x.SameAttrs z where
  prio := h'.prio.trans h.prio
  joinable := h'.joinable.trans h.joinable
  cancelstate := h'.cancelstate.trans h.cancelstate

theorem AttrSet.write_frozen (x : AttrSet) (tcb : Tcb τ) : tcb.Frozen (x.write tcb) := by
  cases x <;> exact ⟨rfl, rfl, rfl, id⟩

theorem placeOf_ne_SQ {st : ThreadState} {k : QId} (h : placeOf st = some k) : k ≠ .SQ := by
  rintro rfl
  cases st <;> simp [placeOf] at h

namespace Run

variable [DecidableEq τ] {r r' : Run τ} {op : Op τ} {a a' : QId → List (τ × ℤ)} {t : τ}

/-- Only `pth_resume` takes a thread out of the queue of the suspended threads. -/
theorem Shift.suspended (h : Shift r a op a') (hr : r.lib.queues.Repr a) (ht : t ∈ keys (a .SQ))
    (hop : op ≠ .resume (some t)) : t ∈ keys (a' .SQ) := by
  -- a thread that is in the queue of its state is not suspended
  have hne : ∀ {k u}, placeOf (r.lib.tcb u).state = some k → u ∈ keys (a k) → t ≠ u := by
    rintro k u hk hu rfl
    exact placeOf_ne_SQ hk (hr.disjoint hu ht)
  cases h with
  | same => exact ht
  | favors hop hk hu => rcases hk with rfl | rfl <;> exact ht
  | suspends hk hu => exact (Sched.mem_moved hr hu).mpr (.inl ⟨ht, hne hk hu⟩)
  | resumes hk hu =>
    refine (Sched.mem_moved hr hu).mpr (.inl ⟨ht, ?_⟩)
    rintro rfl
    exact hop rfl
  | buries hasync hk hu => exact (Sched.mem_moved hr hu).mpr (.inl ⟨ht, hne hk hu⟩)
  | frees hasync hk hu => exact (Sched.mem_removed hr hu).mpr ⟨ht, hne hk hu⟩
  | spawns => exact ht
  | collects => exact ht
  | back => exact ht
  | passes => exact ht
  | takes => exact ht

/-- No operation but `pth_resume` does more to a suspended thread than freezing allows. -/
theorem Touch.frozen {y : Tcb τ} (h : Touch r t op y) (hinv : r.Inv)
    (ht : t ∈ r.lib.queues.threads .SQ) :
    (r.lib.tcb t).Frozen y ∧ ((∀ x, op ≠ .attr t x) → (r.lib.tcb t).SameAttrs y) := by
  obtain ⟨a, ha⟩ := hinv.consistent
  rw [ha.repr.threads] at ht
  have hcur : r.phase.holds → r.lib.pthCurrent ≠ some t := fun hph hc => ha.away ht ⟨hph, hc⟩
  cases h with
  | same => exact ⟨.refl _, fun _ => .refl _⟩
  | own hrun hc => exact absurd hc (hcur (by simp [hrun, Phase.holds]))
  | exits hrun hc => exact absurd hc (hcur (by simp [hrun, Phase.holds]))
  | request => exact ⟨⟨rfl, rfl, rfl, fun _ => rfl⟩, fun _ => ⟨rfl, rfl, rfl⟩⟩
  | cancels hwords =>
    have hnow : r.lib.cancelsNow t = true := by
      by_contra hnot
      simp [lastWords, hnot] at hwords
    simp only [Sched.cancelsNow, Sched.inPlace, Bool.and_eq_true, Option.any_eq_true,
      decide_eq_true_eq, ha.repr.threads] at hnow
    obtain ⟨-, k, hk, hmem⟩ := hnow
    exact absurd (ha.repr.disjoint hmem ht) (placeOf_ne_SQ hk)
  | attr x => exact ⟨x.write_frozen _, fun hop => absurd rfl (hop x)⟩
  | signal =>
    unfold Tcb.raised
    split
    · exact ⟨.refl _, fun _ => .refl _⟩
    · exact ⟨⟨rfl, rfl, rfl, id⟩, fun _ => ⟨rfl, rfl, rfl⟩⟩
  | back hsw hc => exact absurd hc (hcur (by simp [hsw, Phase.holds]))
  | @passes env dopoll b s hph hm =>
    obtain ⟨⟨s₁, sc⟩, hscan, -⟩ := Option.bind_eq_some_iff.mp hm
    obtain ⟨-, -, -, hp, -⟩ := (Sched.eventmanager_cleaned ha.repr hscan dopoll).of_eq_some hm
    have hp : r.lib.Passed (keys (a .WQ)) s := hp
    have hw : t ∉ keys (a .WQ) := fun hw => by simpa using ha.repr.disjoint hw ht
    refine ⟨⟨?_, hp.events t hw, Sched.eventmanager_joinArg ha.repr hm t, fun hreq => ?_⟩,
      fun _ => ⟨hp.prio t, hp.joinable t, hp.cancelstate t⟩⟩
    · rw [hp.state, if_neg fun hdue => hw hdue.1]
    · rwa [hp.cancelreq]
  | starts hnew =>
    rw [ha.repr.threads] at hnew
    simpa using ha.repr.disjoint hnew ht

/-- One step of the other threads. -/
theorem Inv.suspended_step {o : Out τ} (h : r.Inv) (hs : machine.Step r op o r')
    (ht : t ∈ r.lib.queues.threads .SQ) (hop : op ≠ .resume (some t)) :
    t ∈ r'.lib.queues.threads .SQ ∧ (r.lib.tcb t).Frozen (r'.lib.tcb t) ∧
      ((∀ x, op ≠ .attr t x) → (r.lib.tcb t).SameAttrs (r'.lib.tcb t)) := by
  obtain ⟨a, ha⟩ := h.consistent
  obtain ⟨a', hr', hshift⟩ := h.shift hs ha.repr
  have hmem : t ∈ keys (a .SQ) := ha.repr.threads ▸ ht
  have hmem' := hshift.suspended ha.repr hmem hop
  have ht' : t ∈ r'.lib.queues.threads .SQ := by rwa [hr'.threads]
  refine ⟨ht', ?_⟩
  obtain ⟨a₁, ha₁⟩ := ((h.step hs).inv h).consistent
  have hlive' : r'.lib.live t = true := ha₁.live (ha₁.repr.threads ▸ ht')
  rcases h.touch hs hlive' with ⟨attr, rfl, -⟩ | ⟨-, htouch⟩
  · have hfree : (some t).all (fun t => !r.lib.live t) = true := hs.1.2.2
    simp [ha.live hmem] at hfree
  · exact htouch.frozen h ht

/-- Any number of steps of the other threads. -/
theorem Inv.suspended_steps {ops : List (Op τ)} (h : r.Inv) (hs : machine.Steps r ops r')
    (ht : t ∈ r.lib.queues.threads .SQ) (hops : ∀ op ∈ ops, op ≠ .resume (some t)) :
    r'.Inv ∧ t ∈ r'.lib.queues.threads .SQ ∧ (r.lib.tcb t).Frozen (r'.lib.tcb t) ∧
      ((∀ x, .attr t x ∉ ops) → (r.lib.tcb t).SameAttrs (r'.lib.tcb t)) := by
  have hquiet : ∀ op ∈ ops, op ≠ .resume (some t) ∧
      ((∀ x, .attr t x ∉ ops) → ∀ x, op ≠ .attr t x) :=
    fun op hop => ⟨hops op hop, fun hno x hx => hno x (hx ▸ hop)⟩
  refine hs.invariant (I := fun r' => r'.Inv ∧ t ∈ r'.lib.queues.threads .SQ ∧
    (r.lib.tcb t).Frozen (r'.lib.tcb t) ∧
    ((∀ x, .attr t x ∉ ops) → (r.lib.tcb t).SameAttrs (r'.lib.tcb t))) ?_ hquiet
    ⟨h, ht, .refl _, fun _ => .refl _⟩
  rintro r₁ op o r₂ ⟨hinv, hmem, hfrozen, hattrs⟩ ⟨hop, hset⟩ hstep
  obtain ⟨hmem', hfrozen', hattrs'⟩ := hinv.suspended_step hstep hmem hop
  exact ⟨(hinv.step hstep).inv hinv, hmem', hfrozen.trans hfrozen',
    fun hno => (hattrs hno).trans (hattrs' (hset hno))⟩

/-- After `pth_suspend` has returned `TRUE`, the thread does not run, and its state, its events
    and its join argument stay as they are, whatever other threads and the scheduler do,
    until `pth_resume` is called for it. So do its attributes, unless somebody sets them. That
    call returns `TRUE` and puts the thread back into the queue from which it was taken. -/
theorem suspended_frozen {ops : List (Op τ)} {r₁ r₂ : Run τ} (h : machine.Reachable r)
    (hsusp : machine.Step r (.suspend (some t)) (.ret .ok) r₁) (hs : machine.Steps r₁ ops r₂)
    (hops : ∀ op ∈ ops, op ≠ .resume (some t)) :
    (r₂.phase = .running → r₂.lib.pthCurrent ≠ some t) ∧
      (r.lib.tcb t).Frozen (r₂.lib.tcb t) ∧
      ((∀ x, .attr t x ∉ ops) → (r.lib.tcb t).SameAttrs (r₂.lib.tcb t)) ∧
      ∀ o r₃, machine.Step r₂ (.resume (some t)) o r₃ → o = .ret .ok ∧
        r₃.lib.tcb t = r₂.lib.tcb t ∧
        ∃ k, t ∈ r.lib.queues.threads k ∧ t ∈ r₃.lib.queues.threads k := by
  have hinv := Inv.reach h
  obtain ⟨c, a, hc, -, ha⟩ := hinv.atRunning hsusp.1.1.1
  obtain ⟨⟨ret, s⟩, hx, heq⟩ := Option.map_eq_some_iff.mp hsusp.2
  cases heq
  have ho := ((ha.suspend _).of_eq_some hx).2
  rcases (Sched.suspend_lists ha.repr _).of_eq_some hx with ⟨hnot, -⟩ | ⟨k, u, hu, hk, hmem, hr⟩
  · exact absurd rfl hnot
  obtain rfl : t = u := by simpa using hu
  have ht₁ : t ∈ s.queues.threads .SQ := by
    rw [hr.threads]
    exact (Sched.mem_moved ha.repr hmem).mpr (.inr ⟨rfl, rfl⟩)
  obtain ⟨hinv₂, ht₂, hfrozen, hattrs⟩ :=
    Inv.suspended_steps ((hinv.step hsusp).inv hinv) hs ht₁ hops
  have htcb : s.tcb t = r.lib.tcb t := congrFun ho.tcb t
  simp only [htcb] at hfrozen hattrs
  refine ⟨fun hrun hcur => ?_, hfrozen, hattrs, fun o r₃ hres => ?_⟩
  · obtain ⟨a₂, ha₂⟩ := (hinv₂.current hrun hcur).2
    rw [ha₂.repr.threads] at ht₂
    exact ha₂.away ht₂ rfl
  · obtain ⟨c₂, a₂, hc₂, -, ha₂⟩ := hinv₂.atRunning hres.1.1.1
    have hH : ∀ d, r₂.lib.pthCurrent = some d → d ∈ ({c₂} : Set τ) := by simp [hc₂]
    obtain ⟨⟨ret, s₃⟩, hx₃, heq⟩ := Option.map_eq_some_iff.mp hres.2
    cases heq
    have ho₃ := ((ha₂.resume _).of_eq_some hx₃).2
    rw [ha₂.repr.threads] at ht₂
    rcases (ha₂.resume_lists hH _).of_eq_some hx₃ with
      ⟨-, hnone⟩ | ⟨k₃, u, hu, hok, hk₃, hmem₃, hr₃⟩
    · exact absurd ht₂ (hnone t rfl)
    obtain rfl : t = u := by simpa using hu
    have hok : ret = .ok := hok
    rw [hfrozen.state, hk] at hk₃
    obtain rfl : k = k₃ := by simpa using hk₃
    have hback : t ∈ s₃.queues.threads k := by
      rw [hr₃.threads]
      exact (Sched.mem_moved ha₂.repr hmem₃).mpr (.inr ⟨rfl, rfl⟩)
    exact ⟨by rw [hok], congrFun ho₃.tcb t, k, by rwa [ha.repr.threads], hback⟩

/-- What a call has returned. -/
def returned : Out τ → Option Ret
  | .ret x => some x
  | _ => none

/-- A new thread is suspended and asked to terminate, and the main thread yields. -/
theorem suspended_frozen_new : ∃ (r r₁ r₂ : Run (Fin 3)), machine.Reachable r ∧
    machine.Step r (.suspend (some 2)) (.ret .ok) r₁ ∧
    machine.Steps r₁ [.cancel (some 2), .yield none, .comeback .zero .intact fun _ => false,
      .manage Sched.quiet, .dispatch] r₂ ∧
    (r.lib.tcb 2).Frozen (r₂.lib.tcb 2) ∧ (r.lib.tcb 2).SameAttrs (r₂.lib.tcb 2) := by
  have hboot : machine.Reach (fun _ _ => True) (boot (Sched.blank (0 : Fin 3)) 0 1 .zero) :=
    boot_reach _ _ _ _ (by decide)
  obtain ⟨r, o, r₁, hr, hsusp, ho, hplay⟩ := hboot.play_step
    (l := [.spawn none .user (some 2)]) (i := .suspend (some 2))
    (p := fun _ o r₁ => returned o = some .ok ∧
      (machine.play (fun _ _ => True) r₁ [.cancel (some 2), .yield none,
        .comeback .zero .intact fun _ => false, .manage Sched.quiet, .dispatch]).any
        (fun _ => True) = true) (by decide)
  obtain rfl : o = .ret .ok := by
    cases o <;> simp_all [returned]
  obtain ⟨r₂, hs, -⟩ := Machine.steps_play hplay
  obtain ⟨-, hfrozen, hattrs, -⟩ := suspended_frozen hr hsusp hs (by simp)
  exact ⟨r, r₁, r₂, hr, hsusp, hs, hfrozen, hattrs (by simp)⟩

end Run

end Pth
