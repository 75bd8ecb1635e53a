-- SUMMARY: The order in which favoured new threads come to the ready queue.
import Pth.Sched.Rounds
import Pth.Sched.Wakeup

/-!
# Favoured new threads

The loop at the top of a scheduler round takes the new threads from the tail of
`pth_NQ` and puts each of them in front of `pth_RQ` when `pth_favournew` is set.
What is proved here needs nothing but well-formed queues. -/

namespace Pth

open PrioList (keys)

namespace Sched

variable {τ : Type*} [DecidableEq τ] {s : Sched τ} {a : QId → List (τ × ℤ)} {n : ℕ}

/-- One step of the loop takes the last new thread. -/
theorem drainNew_concat {A : List (τ × ℤ)} {t : τ} {p : ℤ} (h : s.queues.Repr a)
    (hl : a .NQ = A ++ [(t, p)]) :
    drainNew 0 s = none ∧ ∃ s₁, (∀ n, drainNew (n + 1) s = drainNew n s₁) ∧
      s₁.queues.Repr (Function.update (Function.update a .NQ A) .RQ
        (PrioList.insert (if s.favournew then favorPrio (a .RQ) else prioStd) t (a .RQ))) ∧
      s₁.tcb = (s.setState t .ready).tcb ∧ s₁.favournew = s.favournew := by
  have htail : s.queues.tail .NQ = some t := by simp [h.tail, hl]
  have ht : t ∈ keys (a .NQ) := by simp [hl]
  have hrem : PrioList.remove t (a .NQ) = A := by
    have hnd := (h.queue .NQ).nodup
    rw [hl] at hnd ⊢
    simpa using PrioList.remove_append_cons hnd
  obtain ⟨qs₁, hdel, h₁⟩ := h.delete ht
  have hprio : qs₁.favoritePrio .RQ = favorPrio (a .RQ) := by
    have hq := favoritePrio_eq (s := { s with queues := qs₁ }) (k := .RQ) h₁
    simpa using hq
  obtain ⟨qs₂, hins, h₂⟩ :=
    h₁.insert (k := .RQ) (if s.favournew then favorPrio (a .RQ) else prioStd)
      (h.removed ht)
  rw [hrem] at h₂
  refine ⟨by simp [drainNew, htail],
    { (s.noteDelete .NQ t).setState t .ready with queues := qs₂ }, fun n => ?_, h₂, rfl, rfl⟩
  conv_lhs => unfold Sched.drainNew
  simp only [htail, Sched.delete, hdel, Option.map_some, Option.bind_some, hprio]
  simp only [Sched.insert, modify_queues, hins, Option.map_some, Option.bind_some]
  rfl

/-- The loop takes as many steps as there are new threads, and leaves them ready. -/
theorem drainNew_iff (h : s.queues.Repr a) (n : ℕ) :
    (drainNew n s ≠ none ↔ (a .NQ).length ≤ n) ∧ ∀ s', drainNew n s = some s' →
      s'.queues.Repr (drained s.favournew a) ∧
        ∀ t, (s'.tcb t).state = if t ∈ keys (a .NQ) then .ready else (s.tcb t).state := by
  induction hl : a .NQ using List.reverseRecOn generalizing s a n with
  | nil =>
    rw [drainNew_nil h hl, drained_nil hl]
    refine ⟨by simp, fun s' hs' => ?_⟩
    obtain rfl := Option.some.inj hs'
    exact ⟨h, by simp⟩
  | append_singleton A e ih =>
    obtain ⟨hzero, s₁, hstep, h₁, htcb, hfav⟩ := drainNew_concat h hl
    cases n with
    | zero => simp [hzero]
    | succ n =>
      obtain ⟨hiff, hends⟩ := ih h₁ n (by simp)
      rw [hstep]
      refine ⟨by simpa using hiff, fun s' hs' => ?_⟩
      obtain ⟨h', hstate⟩ := hends s' hs'
      rw [hfav, drained_concat hl] at h'
      refine ⟨h', fun u => ?_⟩
      rw [hstate, htcb]
      by_cases hut : u = e.1
      · simp [hut]
      · simp [hut]

/-- With `pth_favournew` the new threads come to the ready queue in their own order and
    in front of the ready threads, which keep their order and priorities. The loop
    takes as many steps as there are new threads. -/
theorem drainNew_favournew (h : s.queues.Repr a) (hfav : s.favournew = true) :
    (∀ n, drainNew n s ≠ none ↔ (s.queues.threads .NQ).length ≤ n) ∧
      ∀ n s', drainNew n s = some s' →
        (∃ a', s'.queues.Repr a') ∧ s'.queues.threads .NQ = [] ∧
        s'.queues.threads .RQ = s.queues.threads .NQ ++ s.queues.threads .RQ ∧
        (∃ A, s'.queues.entries .RQ = A ++ s.queues.entries .RQ) ∧
        ∀ t ∈ s.queues.threads .NQ, (s'.tcb t).state = .ready := by
  refine ⟨fun n => ?_, fun n s' hs' => ?_⟩
  · rw [h.threads, PrioList.keys_length]
    exact (drainNew_iff h n).1
  · obtain ⟨h', hstate⟩ := (drainNew_iff h n).2 s' hs'
    obtain ⟨A, hA, hw⟩ := welcome_favour (keys (a .NQ)).reverse (a .RQ)
    rw [List.reverse_reverse] at hA
    rw [hfav] at h'
    have hRQ : drained true a .RQ = A ++ a .RQ := by simp [drained, hw]
    refine ⟨⟨_, h'⟩, ?_, ?_, ⟨A, ?_⟩, ?_⟩
    · rw [h'.threads]
      simp [drained]
    · rw [h'.threads, h.threads, h.threads, hRQ, PrioList.keys_append, hA]
    · rw [h'.entries, h.entries, hRQ]
    · intro t ht
      rw [h.threads] at ht
      rw [hstate, if_pos ht]

/-- Two new threads of different priority and two ready ones. -/
theorem drainNew_favournew_two : ∃ s s' : Sched ℕ, s.favournew = true ∧
    s.queues.threads .NQ = [2, 1] ∧ s.queues.threads .RQ = [3, 4] ∧ drainNew 1 s = none ∧
    drainNew 2 s = some s' ∧ s'.queues.threads .RQ = [2, 1, 3, 4] := by
  have hops : QueueOp.AllowedAll (κ := QId) (α := ℕ) (fun _ => [])
      [.insert .NQ 0 1, .insert .NQ 3 2, .insert .RQ 0 3, .insert .RQ 0 4] := by
    refine ⟨?_, ?_, ?_, ?_, trivial⟩ <;> intro k <;> cases k <;> decide
  obtain ⟨qs, -, hr⟩ := QueueOp.execAll_refines (Queues.Repr.fresh (blank 0).queues.node) hops
  have hNQ : qs.threads .NQ = [2, 1] := by
    rw [hr.threads]
    rfl
  have hRQ : qs.threads .RQ = [3, 4] := by
    rw [hr.threads]
    rfl
  obtain ⟨hsteps, hends⟩ := drainNew_favournew (s := { blank 0 with queues := qs }) hr rfl
  have hone : drainNew 1 { blank 0 with queues := qs } = none := by
    rw [← not_ne_iff, hsteps]
    simp [hNQ]
  obtain ⟨s', hs'⟩ := Option.ne_none_iff_exists'.mp ((hsteps 2).mpr (by simp [hNQ]))
  obtain ⟨-, -, horder, -⟩ := hends 2 s' hs'
  refine ⟨_, s', rfl, hNQ, hRQ, hone, hs', ?_⟩
  rw [horder, hNQ, hRQ]
  rfl

end Sched

end Pth
