-- SUMMARY: Queues and thread states agree: the consistency invariant and what each function does to it.
import Mathlib.Data.Set.Insert
import Pth.Lib.Ensures
import Pth.Queue.Refine
import Pth.Sched.Threads

/-!
# Consistency of queues and states

`Consistent s a H` says that the queues store the lists `a`, that a thread is in
a queue only with a state that fits, and that the threads in no queue are those
of `H`. A function that takes a thread out of its queue puts it into `H`, and one
that queues it again takes it out of `H`; in between, its state may change. -/

namespace Pth

open PrioList (keys)

/-- What a thread in a queue is like. A suspended thread keeps its state, and only a
    thread that can be joined is kept when it is dead. -/
def Fits {τ : Type*} : QId → Tcb τ → Prop
  | .NQ, x => x.state = .new
  | .RQ, x => x.state = .ready
  | .WQ, x => x.state = .waiting
  | .SQ, x => x.state = .new ∨ x.state = .ready ∨ x.state = .waiting
  | .DQ, x => x.state = .dead ∧ x.joinable

theorem Fits.congr {τ : Type*} {q : QId} {x y : Tcb τ} (h : Fits q x) (hs : y.state = x.state)
    (hj : x.state = .dead → y.joinable = x.joinable) : Fits q y := by
  cases q with
  | DQ => exact ⟨hs.trans h.1, by rw [hj h.1]; exact h.2⟩
  | _ => simpa [Fits, hs] using h

theorem fits_placeOf {τ : Type*} {q : QId} {x : Tcb τ} (h : placeOf x.state = some q) :
    Fits q x := by
  cases hst : x.state <;> simp [hst, placeOf] at h <;> subst h <;> exact hst

theorem fits_suspended {τ : Type*} {q : QId} {x : Tcb τ} (h : placeOf x.state = some q) :
    Fits .SQ x := by
  cases hst : x.state <;> simp [hst, placeOf, Fits] at h ⊢

theorem Fits.placeOf_ne_none {τ : Type*} {x : Tcb τ} (h : Fits .SQ x) :
    placeOf x.state ≠ none := by
  rcases h with h | h | h <;> simp [h, placeOf]

theorem Fits.queue_eq_dead {τ : Type*} {q : QId} {x : Tcb τ} (h : Fits q x)
    (hd : x.state = .dead) : q = .DQ := by
  cases q <;> simp [Fits, hd] at h ⊢

/-- What a thread that waits relies on in its control block. -/
structure Tcb.Steady {τ : Type*} (x y : Tcb τ) : Prop where
  events : y.events = x.events
  cancelreq : x.cancelreq → y.cancelreq
  state : y.state = x.state ∨ y.state = .dead

/-- What calls of other threads may do to a control block, apart from its attributes. -/
structure Tcb.Calm {τ : Type*} (x y : Tcb τ) : Prop where
  prio : y.prio = x.prio
  events : y.events = x.events
  joinable : y.joinable = x.joinable
  cancelstate : y.cancelstate = x.cancelstate
  cancelreq : x.cancelreq → y.cancelreq
  state : y.state = x.state ∨ y.state = .dead

theorem Tcb.Calm.steady {τ : Type*} {x y : Tcb τ} (h : x.Calm y) : x.Steady y :=
  ⟨h.events, h.cancelreq, h.state⟩

theorem Tcb.Calm.refl {τ : Type*} (x : Tcb τ) : x.Calm x :=
  ⟨rfl, rfl, rfl, rfl, id, .inl rfl⟩

theorem Tcb.Calm.trans {τ : Type*} {x y z : Tcb τ} (h : x.Calm y) (h' : y.Calm z) :
    x.Calm z where
  prio := h'.prio.trans h.prio
  events := h'.events.trans h.events
  joinable := h'.joinable.trans h.joinable
  cancelstate := h'.cancelstate.trans h.cancelstate
  cancelreq hx := h'.cancelreq (h.cancelreq hx)
  state := by
    rcases h'.state with hz | hz
    · rw [hz]
      exact h.state
    · exact .inr hz

namespace Sched

variable {τ : Type*}

/-- The states differ in the queues only. -/
structure OffQueues (s s' : Sched τ) : Prop where
  tcb : s'.tcb = s.tcb
  live : s'.live = s.live
  pthMain : s'.pthMain = s.pthMain
  pthSched : s'.pthSched = s.pthSched
  pthCurrent : s'.pthCurrent = s.pthCurrent
  favournew : s'.favournew = s.favournew
  objects : s'.objects = s.objects
  snapshot : s'.snapshot = s.snapshot
  sigpipe : s'.sigpipe = s.sigpipe

theorem OffQueues.refl (s : Sched τ) : s.OffQueues s :=
  ⟨rfl, rfl, rfl, rfl, rfl, rfl, rfl, rfl, rfl⟩

theorem OffQueues.trans {s₁ s₂ s₃ : Sched τ} (h : s₁.OffQueues s₂) (h' : s₂.OffQueues s₃) :
    s₁.OffQueues s₃ where
  tcb := h'.tcb.trans h.tcb
  live := h'.live.trans h.live
  pthMain := h'.pthMain.trans h.pthMain
  pthSched := h'.pthSched.trans h.pthSched
  pthCurrent := h'.pthCurrent.trans h.pthCurrent
  favournew := h'.favournew.trans h.favournew
  objects := h'.objects.trans h.objects
  snapshot := h'.snapshot.trans h.snapshot
  sigpipe := h'.sigpipe.trans h.sigpipe

theorem OffQueues.tcbFree [DecidableEq τ] {s s' : Sched τ} {t : τ} (h : s.OffQueues s') :
    (s.tcbFree t).OffQueues (s'.tcbFree t) :=
  { h with live := by simp only [Sched.tcbFree, h.live] }

/-- Freeing a thread makes none alive. -/
theorem OffQueues.live_of_tcbFree [DecidableEq τ] {s s' : Sched τ} {t u : τ}
    (h : (s.tcbFree t).OffQueues s') (hu : s'.live u) : s.live u := by
  rw [h.live, Sched.tcbFree_live] at hu
  split at hu
  · simp at hu
  · exact hu

/-- What a call of the running thread may do to the threads: none is created, none
    that can be joined is freed, and the control blocks are left calm. -/
structure Calm (s s' : Sched τ) : Prop where
  pthMain : s'.pthMain = s.pthMain
  pthSched : s'.pthSched = s.pthSched
  pthCurrent : s'.pthCurrent = s.pthCurrent
  live : ∀ t, s'.live t → s.live t
  kept : ∀ t, s.live t → (s.tcb t).joinable → s'.live t
  tcb : ∀ t, (s.tcb t).Calm (s'.tcb t)

theorem Calm.trans {s₁ s₂ s₃ : Sched τ} (h : s₁.Calm s₂) (h' : s₂.Calm s₃) : s₁.Calm s₃ where
  pthMain := h'.pthMain.trans h.pthMain
  pthSched := h'.pthSched.trans h.pthSched
  pthCurrent := h'.pthCurrent.trans h.pthCurrent
  live t ht := h.live t (h'.live t ht)
  kept t ht hj := h'.kept t (h.kept t ht hj) ((h.tcb t).joinable ▸ hj)
  tcb t := (h.tcb t).trans (h'.tcb t)

theorem OffQueues.calm {s s' : Sched τ} (h : s.OffQueues s') : s.Calm s' where
  pthMain := h.pthMain
  pthSched := h.pthSched
  pthCurrent := h.pthCurrent
  live t ht := by rwa [h.live] at ht
  kept t ht _ := by rwa [h.live]
  tcb t := h.tcb ▸ Tcb.Calm.refl _

/-- The queues store the lists `a`, a thread is in a queue only with a state that
    fits, the existing threads in no queue are the scheduler and those of `H`, and
    every deletion so far was one of a member. -/
structure Consistent (s : Sched τ) (a : QId → List (τ × ℤ)) (H : Set τ) : Prop where
  repr : s.queues.Repr a
  live : ∀ {k t}, t ∈ keys (a k) → s.live t
  sched : ∀ {k t}, t ∈ keys (a k) → t ≠ s.pthSched
  away : ∀ {k t}, t ∈ keys (a k) → t ∉ H
  fits : ∀ {k t}, t ∈ keys (a k) → Fits k (s.tcb t)
  queued : ∀ {t}, s.live t → t ≠ s.pthSched → t ∉ H → ∃ k, t ∈ keys (a k)
  awayLive : ∀ {t}, t ∈ H → s.live t ∧ t ≠ s.pthSched
  schedLive : s.live s.pthSched
  deletes : ∀ d ∈ s.deletes, d.2.2 = true

/-! ## Moving threads -/

section

variable [DecidableEq τ] {s : Sched τ} {a : QId → List (τ × ℤ)} {H : Set τ} {k : QId} {t : τ}

omit [DecidableEq τ] in
theorem Consistent.congr {H' : Set τ} (h : s.Consistent a H) (hH : ∀ u, u ∈ H' ↔ u ∈ H) :
    s.Consistent a H' := by
  rwa [Set.ext hH]

theorem Consistent.noteDelete (h : s.Consistent a H) (ht : t ∈ keys (a k)) :
    ∀ d ∈ (s.noteDelete k t).deletes, d.2.2 = true := by
  intro d hd
  rcases List.mem_cons.mp hd with rfl | hd
  · simpa [h.repr.threads] using ht
  · exact h.deletes d hd

omit [DecidableEq τ] in
/-- Writing other queues back, where `hold` says that the members fit and `hall`
    that no thread gets lost. -/
private theorem Consistent.set {a' : QId → List (τ × ℤ)} {H' : Set τ} {qs : Queues QId τ}
    {ds : List (QId × τ × Bool)} (h : s.Consistent a H) (hr : qs.Repr a')
    (hds : ∀ d ∈ ds, d.2.2 = true)
    (hold : ∀ {k u}, u ∈ keys (a' k) → u ∉ H' ∧
      (u ∈ keys (a k) ∨ (s.live u ∧ u ≠ s.pthSched ∧ Fits k (s.tcb u))))
    (hall : ∀ {u}, u ∉ H' → (u ∉ H → ∃ k, u ∈ keys (a k)) → ∃ k, u ∈ keys (a' k))
    (haway : ∀ {u}, u ∈ H' → u ∈ H ∨ ∃ k, u ∈ keys (a k)) :
    { s with queues := qs, deletes := ds }.Consistent a' H' where
  repr := hr
  live hu := by
    rcases (hold hu).2 with hu | hu
    · exact h.live hu
    · exact hu.1
  sched hu := by
    rcases (hold hu).2 with hu | hu
    · exact h.sched hu
    · exact hu.2.1
  away hu := (hold hu).1
  fits hu := by
    rcases (hold hu).2 with hu | hu
    · exact h.fits hu
    · exact hu.2.2
  queued hl hs hH := hall hH (h.queued hl hs)
  awayLive hu := by
    rcases haway hu with hu | ⟨k, hu⟩
    · exact h.awayLive hu
    · exact ⟨h.live hu, h.sched hu⟩
  schedLive := h.schedLive
  deletes := hds

theorem Consistent.insert (h : s.Consistent a H) (prio : ℤ) (ht : t ∈ H)
    (hfit : Fits k (s.tcb t)) :
    (s.insert k prio t).Ensures fun s' =>
      s'.Consistent (Function.update a k (PrioList.insert prio t (a k))) (H \ {t}) ∧
        s.OffQueues s' := by
  obtain ⟨qs, hins, hr⟩ := h.repr.insert (k := k) prio fun k' hk' => h.away hk' ht
  refine ⟨{ s with queues := qs }, by simp [Sched.insert, hins], ?_,
    ⟨rfl, rfl, rfl, rfl, rfl, rfl, rfl, rfl, rfl⟩⟩
  have hmem : ∀ {k' u}, u ∈ keys (Function.update a k (PrioList.insert prio t (a k)) k') ↔
      u ∈ keys (a k') ∨ (k' = k ∧ u = t) := by
    grind [Function.update_apply, PrioList.mem_keys_insert]
  refine h.set hr h.deletes (fun {k' u} hu => ?_) (fun {u} hu hq => ?_) fun hu => .inl hu.1
  · have := h.away (k := k') (t := u)
    have := h.awayLive ht
    grind
  · by_cases hut : u = t
    · exact ⟨k, hmem.mpr (.inr ⟨rfl, hut⟩)⟩
    · obtain ⟨k', hk'⟩ := hq fun huH => hu ⟨huH, hut⟩
      exact ⟨k', hmem.mpr (.inl hk')⟩

theorem Consistent.delete (h : s.Consistent a H) (ht : t ∈ keys (a k)) :
    (s.delete k t).Ensures fun s' =>
      s'.Consistent (Function.update a k (PrioList.remove t (a k))) (Insert.insert t H) ∧
        s.OffQueues s' := by
  obtain ⟨qs, hdel, hr⟩ := h.repr.delete ht
  refine ⟨{ s.noteDelete k t with queues := qs }, by simp [Sched.delete, hdel], ?_,
    ⟨rfl, rfl, rfl, rfl, rfl, rfl, rfl, rfl, rfl⟩⟩
  have hmem : ∀ {k' u}, u ∈ keys (Function.update a k (PrioList.remove t (a k)) k') ↔
      u ∈ keys (a k') ∧ u ≠ t := by
    intro k' u
    have hdisj : u ∈ keys (a k') → u ∈ keys (a k) → k' = k := h.repr.disjoint
    grind [Function.update_apply, PrioList.mem_keys_remove]
  refine h.set hr (h.noteDelete ht) (fun hu => ?_) (fun {u} hu hq => ?_) fun {u} hu => ?_
  · have := h.away (hmem.mp hu).1
    grind
  · obtain ⟨k', hk'⟩ := hq fun huH => hu (Set.mem_insert_of_mem t huH)
    exact ⟨k', hmem.mpr ⟨hk', fun hut => hu (hut ▸ Set.mem_insert t H)⟩⟩
  · rcases Set.mem_insert_iff.mp hu with rfl | hu
    · exact .inr ⟨k, ht⟩
    · exact .inl hu

theorem Consistent.favorite (h : s.Consistent a H) (ht : t ∈ keys (a k)) :
    (s.favorite k t).Ensures fun s' =>
      s'.Consistent (Function.update a k (PrioList.favorite t (a k))) H ∧ s.OffQueues s' := by
  obtain ⟨qs, hfav, hr⟩ := h.repr.favorite ht
  refine ⟨{ s.noteDelete k t with queues := qs }, by simp [Sched.favorite, hfav], ?_,
    ⟨rfl, rfl, rfl, rfl, rfl, rfl, rfl, rfl, rfl⟩⟩
  have hmem : ∀ {k' u}, u ∈ keys (Function.update a k (PrioList.favorite t (a k)) k') ↔
      u ∈ keys (a k') := by
    intro k' u
    have := PrioList.mem_keys_favorite (u := u) ht (h.repr.queue k).nodup
    grind [Function.update_apply]
  refine h.set hr (h.noteDelete ht) (fun hu => ?_) (fun {u} hu hq => ?_) .inl
  · exact ⟨h.away (hmem.mp hu), .inl (hmem.mp hu)⟩
  · obtain ⟨k', hk'⟩ := hq hu
    exact ⟨k', hmem.mpr hk'⟩

theorem Consistent.increase (h : s.Consistent a H) :
    { s with queues := s.queues.increase k }.Consistent
      (Function.update a k (PrioList.increase (a k))) H := by
  have hmem : ∀ {k' u}, u ∈ keys (Function.update a k (PrioList.increase (a k)) k') ↔
      u ∈ keys (a k') := by
    grind [Function.update_apply, PrioList.keys_increase]
  refine h.set h.repr.increase h.deletes (fun hu => ?_) (fun {u} hu hq => ?_) .inl
  · exact ⟨h.away (hmem.mp hu), .inl (hmem.mp hu)⟩
  · obtain ⟨k', hk'⟩ := hq hu
    exact ⟨k', hmem.mpr hk'⟩

/-- Taking the first thread out of a queue. -/
theorem Consistent.delmax (h : s.Consistent a H) :
    (s.queues.delmax k).Ensures fun r => r.1 = (keys (a k)).head? ∧
      { s with queues := r.2 }.Consistent (Function.update a k (a k).tail)
        (H ∪ { u | r.1 = some u }) := by
  obtain ⟨qs, hdel, hr⟩ := h.repr.delmax (k := k)
  refine ⟨_, hdel, rfl, ?_⟩
  have hnd := (h.repr.queue k).nodup
  have hmem : ∀ {k' u}, u ∈ keys (Function.update a k (a k).tail k') ↔
      u ∈ keys (a k') ∧ (keys (a k)).head? ≠ some u := by
    intro k' u
    have hdisj : u ∈ keys (a k') → u ∈ keys (a k) → k' = k := h.repr.disjoint
    cases hl : a k with
    | nil => grind [Function.update_apply, PrioList.keys_nil]
    | cons e l =>
      rw [hl] at hnd
      grind [Function.update_apply, PrioList.keys_cons]
  refine h.set hr h.deletes (fun hu => ?_) (fun {u} hu hq => ?_) fun {u} hu => ?_
  · have := h.away (hmem.mp hu).1
    grind
  · obtain ⟨k', hk'⟩ := hq fun huH => hu (.inl huH)
    exact ⟨k', hmem.mpr ⟨hk', fun hut => hu (.inr hut)⟩⟩
  · rcases hu with hu | hu
    · exact .inl hu
    · exact .inr ⟨k, List.mem_of_mem_head? hu⟩

/-- Changing the control block of a thread that is in no queue, or keeping what
    queues depend on. -/
theorem Consistent.modify (h : s.Consistent a H) {f : Tcb τ → Tcb τ}
    (hf : t ∈ H ∨ t = s.pthSched ∨ ((f (s.tcb t)).state = (s.tcb t).state ∧
      ((s.tcb t).state = .dead → (f (s.tcb t)).joinable = (s.tcb t).joinable))) :
    (s.modify t f).Consistent a H where
  repr := h.repr
  live := h.live
  sched := h.sched
  away := h.away
  fits {k u} hu := by
    have hfit := h.fits hu
    by_cases hut : u = t
    · subst hut
      rcases hf with hf | hf | hf
      · exact absurd hf (h.away hu)
      · exact absurd hf (h.sched hu)
      · exact hfit.congr (by simp [hf.1]) (by simpa using hf.2)
    · simpa [hut] using hfit
  queued := h.queued
  awayLive := h.awayLive
  schedLive := h.schedLive
  deletes := h.deletes

omit [DecidableEq τ] in
theorem Calm.refl (s : Sched τ) : s.Calm s := (OffQueues.refl s).calm

/-- Changing a control block as `Calm` allows. -/
theorem calm_modify {f : Tcb τ → Tcb τ} (hf : (s.tcb t).Calm (f (s.tcb t))) :
    s.Calm (s.modify t f) where
  pthMain := rfl
  pthSched := rfl
  pthCurrent := rfl
  live _ hl := hl
  kept _ hl _ := hl
  tcb u := by
    by_cases hu : u = t
    · subst hu
      simpa using hf
    · simpa [hu] using Tcb.Calm.refl _

/-- Freeing a thread that cannot be joined. -/
theorem calm_tcbFree (hj : (s.tcb t).joinable = false) : s.Calm (s.tcbFree t) where
  pthMain := rfl
  pthSched := rfl
  pthCurrent := rfl
  live u hl := by grind
  kept u hl hu := by grind
  tcb u := Tcb.Calm.refl _

/-- Freeing a thread that is in no queue. -/
theorem Consistent.tcbFree (h : s.Consistent a H) (ht : t ∈ H) :
    (s.tcbFree t).Consistent a (H \ {t}) where
  repr := h.repr
  live {k u} hu := by
    have := h.away hu
    have := h.live hu
    grind
  sched := h.sched
  away hu := fun hH => h.away hu hH.1
  fits := h.fits
  queued {u} hl hs hH := by
    by_cases hut : u = t
    · simp [Sched.tcbFree, hut] at hl
    · exact h.queued (by simpa [Sched.tcbFree, hut] using hl) hs fun huH => hH ⟨huH, hut⟩
  awayLive {u} hu := by
    have := h.awayLive hu.1
    have hut : u ≠ t := hu.2
    simpa [Sched.tcbFree, hut] using this
  schedLive := by
    have hts : t ≠ s.pthSched := (h.awayLive ht).2
    simpa [Sched.tcbFree, Ne.symm hts] using h.schedLive
  deletes := h.deletes

/-- Creating a thread with a control block that was free. -/
theorem Consistent.create (h : s.Consistent a H) (ht : s.live t = false) (x : Tcb τ) :
    { s with tcb := Function.update s.tcb t x
             live := Function.update s.live t true }.Consistent a (Insert.insert t H) := by
  have hs : t ≠ s.pthSched := by
    rintro rfl
    simp [h.schedLive] at ht
  have hq : ∀ {k u}, u ∈ keys (a k) → u ≠ t := by
    rintro k u hu rfl
    simp [h.live hu] at ht
  constructor
  · exact h.repr
  · intro k u hu
    simpa [hq hu] using h.live hu
  · exact h.sched
  · intro k u hu
    have := h.away hu
    have := hq hu
    grind
  · intro k u hu
    simpa [hq hu] using h.fits hu
  · intro u hl hus hH
    have hut : u ≠ t := fun hut => hH (.inl hut)
    exact h.queued (by simpa [hut] using hl) hus fun huH => hH (.inr huH)
  · intro u hu
    have := @h.awayLive u
    grind [Function.update_apply]
  · simpa [Ne.symm hs] using h.schedLive
  · exact h.deletes

end

end Sched

end Pth
