-- SUMMARY: The calls of a running thread keep queues and states consistent and leave other threads calm.
import Pth.Sched.Consistent

/-!
# Calls of the running thread

For each thread function: it does not fault, queues and states stay consistent,
and the control blocks change only as `Calm` allows. -/

namespace Pth

open PrioList (keys)

namespace Sched

variable {τ : Type*} [DecidableEq τ] {s : Sched τ} {a : QId → List (τ × ℤ)} {H : Set τ}

/-- Take a thread out of its queue and insert it into another one that fits. -/
theorem Consistent.move {k k' : QId} {t : τ} (h : s.Consistent a H) (ht : t ∈ keys (a k))
    (prio : ℤ) (hfit : Fits k' (s.tcb t)) :
    (s.delete k t).Ensures fun s₁ => s₁.tcb t = s.tcb t ∧
      (s₁.insert k' prio t).Ensures fun s₂ => (∃ a', s₂.Consistent a' H) ∧ s.OffQueues s₂ := by
  apply (h.delete ht).mono
  rintro s₁ ⟨h₁, ho₁⟩
  refine ⟨congrFun ho₁.tcb t, ?_⟩
  apply (h₁.insert prio (Set.mem_insert t H) (ho₁.tcb ▸ hfit)).mono
  rintro s₂ ⟨h₂, ho₂⟩
  have hH := h.away ht
  exact ⟨⟨_, h₂.congr (by grind)⟩, ho₁.trans ho₂⟩

/-! ## Yield, suspend and resume -/

theorem Consistent.yield (h : s.Consistent a H) (x : Option τ) :
    (s.yield x).Ensures fun r => (∃ a', r.2.Consistent a' H) ∧ s.OffQueues r.2 := by
  have hstay : (∃ a', s.Consistent a' H) ∧ s.OffQueues s := ⟨⟨a, h⟩, .refl s⟩
  unfold Sched.yield
  split
  · simpa using hstay
  · split
    · simpa using hstay
    · simp only [h.repr.contains, Option.bind_some, decide_eq_true_eq]
      split
      · next ht => exact (h.favorite ht).map fun s' ⟨h', ho⟩ => ⟨⟨_, h'⟩, ho⟩
      · simpa using hstay

theorem Consistent.suspend (h : s.Consistent a H) (x : Option τ) :
    (s.suspend x).Ensures fun r => (∃ a', r.2.Consistent a' H) ∧ s.OffQueues r.2 := by
  have hstay : (∃ a', s.Consistent a' H) ∧ s.OffQueues s := ⟨⟨a, h⟩, .refl s⟩
  unfold Sched.suspend
  split
  · simpa using hstay
  · split
    · simpa using hstay
    · split
      · simpa using hstay
      · next t _ q hq =>
        simp only [h.repr.contains, Option.bind_some, decide_eq_true_eq]
        split
        · next ht =>
          apply (h.move ht prioStd (fits_suspended hq)).bind
          rintro s₁ ⟨_, h₁⟩
          exact h₁.map fun _ h₂ => h₂
        · simpa using hstay

theorem Consistent.resume (h : s.Consistent a H) (x : Option τ) :
    (s.resume x).Ensures fun r => (∃ a', r.2.Consistent a' H) ∧ s.OffQueues r.2 := by
  have hstay : (∃ a', s.Consistent a' H) ∧ s.OffQueues s := ⟨⟨a, h⟩, .refl s⟩
  unfold Sched.resume
  split
  · simpa using hstay
  · split
    · simpa using hstay
    · next t _ =>
      simp only [h.repr.contains, Option.bind_some, decide_eq_true_eq]
      split
      · next ht =>
        -- a suspended thread is new, ready or waiting, so there is a queue for it
        obtain ⟨q, hq⟩ := Option.ne_none_iff_exists'.mp (h.fits ht).placeOf_ne_none
        apply (h.move ht prioStd (fits_placeOf hq)).bind
        rintro s₁ ⟨htcb, h₁⟩
        simp only [htcb, hq]
        exact h₁.map fun _ h₂ => h₂
      · simpa using hstay

/-! ## Cancellation -/

/-- Take a thread out of its queue, and then kick it out or move it to the dead
    queue. -/
theorem Consistent.kill {k : QId} {t : τ} (h : s.Consistent a H) (ht : t ∈ keys (a k)) :
    ((s.delete k t).bind fun s₁ =>
      if (s₁.tcb t).joinable then
        ((s₁.modify t fun tcb => { tcb with joinArg := canceled, state := .dead }).insert
          .DQ prioStd t).map fun s₂ => (Ret.ok, s₂)
      else some (.ok, s₁.tcbFree t)).Ensures fun r =>
      (∃ a', r.2.Consistent a' H) ∧ s.Calm r.2 ∧
        ∀ u ∈ H, (r.2.tcb u).state = (s.tcb u).state := by
  have hH := h.away ht
  apply (h.delete ht).bind
  rintro s₁ ⟨h₁, ho₁⟩
  have hmem : t ∈ Insert.insert t H := Set.mem_insert t H
  split
  · next hj =>
    apply ((h₁.modify (.inl hmem)).insert prioStd hmem (by simpa [Fits] using hj)).map
    rintro s₂ ⟨h₂, ho₂⟩
    refine ⟨⟨_, h₂.congr (by grind)⟩, ho₁.calm.trans (.trans (calm_modify ?_) ho₂.calm), ?_⟩
    · exact ⟨rfl, rfl, rfl, rfl, id, .inr rfl⟩
    · intro u hu
      have hut : u ≠ t := fun hut => hH (hut ▸ hu)
      simp [ho₂.tcb, hut, ho₁.tcb]
  · next hj =>
    refine Option.ensures_some.mpr ⟨⟨_, (h₁.tcbFree hmem).congr (by grind)⟩, ?_, ?_⟩
    · exact ho₁.calm.trans (calm_tcbFree (by simpa using hj))
    · intro u _
      simp [Sched.tcbFree, ho₁.tcb]

theorem Consistent.cancel (h : s.Consistent a H) (x : Option τ) :
    (s.cancel x).Ensures fun r => (∃ a', r.2.Consistent a' H) ∧ s.Calm r.2 ∧
      ∀ u ∈ H, (r.2.tcb u).state = (s.tcb u).state := by
  have hstay : (∃ a', s.Consistent a' H) ∧ s.Calm s ∧
      ∀ u ∈ H, (s.tcb u).state = (s.tcb u).state := ⟨⟨a, h⟩, .refl s, fun _ _ => rfl⟩
  unfold Sched.cancel
  split
  · exact Option.ensures_some.mpr hstay
  · split
    · exact Option.ensures_some.mpr hstay
    · split
      · exact Option.ensures_some.mpr hstay
      · next t _ _ =>
        have h₁ : (s.modify t fun tcb => { tcb with cancelreq := true }).Consistent a H :=
          h.modify (.inr (.inr ⟨rfl, fun _ => rfl⟩))
        have hc : s.Calm (s.modify t fun tcb => { tcb with cancelreq := true }) :=
          calm_modify ⟨rfl, rfl, rfl, rfl, fun _ => rfl, .inl rfl⟩
        have hst : ∀ u, ((s.modify t fun tcb => { tcb with cancelreq := true }).tcb u).state =
            (s.tcb u).state := by grind
        split
        · split
          · exact Option.ensures_some.mpr ⟨⟨a, h₁⟩, hc, fun u _ => hst u⟩
          · simp only [h₁.repr.contains, Option.bind_some, decide_eq_true_eq]
            split
            · next ht =>
              exact (h₁.kill ht).mono fun _ ⟨h₂, hc₂, hst₂⟩ =>
                ⟨h₂, hc.trans hc₂, fun u hu => (hst₂ u hu).trans (hst u)⟩
            · exact Option.ensures_some.mpr ⟨⟨a, h₁⟩, hc, fun u _ => hst u⟩
        · exact Option.ensures_some.mpr ⟨⟨a, h₁⟩, hc, fun u _ => hst u⟩

/-! ## Signals -/

/-- Asking whether a thread exists does not fault. -/
theorem Consistent.threadExists (h : s.Consistent a H) (t : τ) :
    (s.threadExists t).Ensures fun _ => True := by
  unfold Sched.threadExists
  apply Option.Ensures.foldlM trivial
  intro r q _
  split
  · exact ⟨r, rfl, trivial⟩
  · rw [h.repr.contains]
    exact ⟨_, rfl, trivial⟩

theorem Consistent.raise (h : s.Consistent a H) (x : Option τ) (sig : ℤ) (act : SigAction) :
    (s.raise x sig act).Ensures fun r => (∃ a', r.2.2.Consistent a' H) ∧ s.Calm r.2.2 ∧
      ∀ u, (r.2.2.tcb u).state = (s.tcb u).state := by
  have hstay : (∃ a', s.Consistent a' H) ∧ s.Calm s ∧
      ∀ u, (s.tcb u).state = (s.tcb u).state := ⟨⟨a, h⟩, .refl s, fun _ => rfl⟩
  unfold Sched.raise
  split
  · exact Option.ensures_some.mpr hstay
  · next t =>
    split
    · exact Option.ensures_some.mpr hstay
    · split
      · exact (h.threadExists t).map fun _ _ => hstay
      · split
        · exact Option.ensures_some.mpr hstay
        · exact Option.ensures_some.mpr hstay
        · dsimp only
          split
          · exact (h.yield _).map fun _ ⟨h', ho⟩ => ⟨h', ho.calm, fun u => by rw [ho.tcb]⟩
          · apply ((h.modify (.inr (.inr ⟨rfl, fun _ => rfl⟩))).yield _).map
            rintro _ ⟨h', ho⟩
            refine ⟨h', .trans (calm_modify ⟨rfl, rfl, rfl, rfl, id, .inl rfl⟩) ho.calm, ?_⟩
            intro u
            rw [ho.tcb]
            grind

/-! ## Spawning -/

/-- A new thread comes to the new queue; the other threads are not touched. -/
theorem Consistent.spawn {func : StartFunc} (h : s.Consistent a H) (attr : Option Attr)
    (hfunc : func ≠ .scheduler) (x : Option τ) (hx : ∀ t, x = some t → s.live t = false) :
    (s.spawn attr func x).Ensures fun r => (∃ a', r.2.Consistent a' H) ∧
      match r.1 with
      | .ok t => x = some t ∧ (s.created attr func t).OffQueues r.2
      | .error _ => r.2 = s := by
  unfold Sched.spawn
  split
  · exact Option.ensures_some.mpr ⟨⟨a, h⟩, rfl⟩
  · split
    · exact Option.ensures_some.mpr ⟨⟨a, h⟩, rfl⟩
    · next t =>
      have ht : s.live t = false := hx t rfl
      have hH : t ∉ H := fun htH => by simp [(h.awayLive htH).1] at ht
      have h₁ := h.create ht (s.spawnTcb attr func t)
      have hfit : Fits .NQ ((s.created attr func t).tcb t) := by
        simp [Fits, created, spawnTcb, hfunc]
      apply (h₁.insert _ (Set.mem_insert t H) hfit).map
      rintro s' ⟨h', ho⟩
      exact ⟨⟨_, h'.congr (by grind)⟩, rfl, ho⟩

end Sched

end Pth
