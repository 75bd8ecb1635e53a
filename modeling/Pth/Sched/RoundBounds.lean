-- SUMMARY: The priorities of the ready queue stay bounded over any number of scheduler rounds.
import Pth.Lib.Machine
import Pth.Lib.PrioLevels
import Pth.Queue.Overflow
import Pth.Sched.State

/-!
# Priorities over scheduler rounds

A round of the scheduler takes the first thread of `pth_RQ`, lets it run, ages the
rest of the queue by one, and inserts the thread that ran and others that are woken,
resumed or new. The aging never ends, but each round also takes out the thread of the
highest priority, which keeps all priorities within the number of threads above the
priorities that threads come with. -/

namespace Pth

open PrioList (keys Levels)

/-- The queues during a run of rounds, and whether the running thread has been taken from
    the ready queue since it has aged. -/
structure Rounds (τ : Type*) where
  queues : Queues QId τ
  taken : Bool

namespace QueueOp

variable {τ : Type*}

/-- What a round may do to the ready queue: it ages only after a thread has been taken,
    and no thread is favored. -/
def InRound (taken : Bool) : QueueOp QId τ → Prop
  | .init k | .favorite k _ => k ≠ .RQ
  | .increase k => k = .RQ → taken = true
  | .insert _ _ _ | .delmax _ | .delete _ _ => True

/-- Whether a thread has been taken since the ready queue has aged, after the call. -/
def taken (before : Bool) : QueueOp QId τ → Bool
  | .delmax .RQ => true
  | .increase .RQ => false
  | _ => before

end QueueOp

namespace Rounds

variable {τ : Type*} [DecidableEq τ] {s s' : Rounds τ} {m M : ℤ} {N : ℕ}

/-- All runs of rounds, call by call. -/
def machine : Machine (Rounds τ) (QueueOp QId τ) (QueueRet τ) where
  init s := s.queues.Repr fun _ => []
  enabled s op := op.Allowed s.queues.entries ∧ op.InRound s.taken
  exec s op := (op.exec s.queues).map fun (r, qs) =>
    (r, { queues := qs, taken := op.taken s.taken })

/-- Threads come to the ready queue with priorities between `m` and `M`, and it never holds
    more than `N` threads. -/
def Within (m M : ℤ) (N : ℕ) (s : Rounds τ) (op : QueueOp QId τ) : Prop :=
  ∀ prio t, op = .insert .RQ prio t → m ≤ prio ∧ prio ≤ M ∧ s.queues.elements .RQ < N

instance (s : Rounds τ) : (op : QueueOp QId τ) → Decidable (machine.enabled s op)
  | .init _ => inferInstanceAs (Decidable (True ∧ _ ≠ _))
  | .favorite _ _ => inferInstanceAs (Decidable (_ ∈ _ ∧ _ ≠ _))
  | .insert _ _ _ => inferInstanceAs (Decidable ((∀ _, _ ∉ _) ∧ True))
  | .delmax _ => inferInstanceAs (Decidable (True ∧ True))
  | .delete _ _ => inferInstanceAs (Decidable (_ ∈ _ ∧ True))
  | .increase _ => inferInstanceAs (Decidable (True ∧ (_ = _ → _ = _)))

instance (s : Rounds τ) : (op : QueueOp QId τ) → Decidable (Within m M N s op)
  | .insert .RQ prio _ =>
    decidable_of_iff (m ≤ prio ∧ prio ≤ M ∧ s.queues.elements .RQ < N)
      ⟨fun h _ _ heq => by cases heq; exact h, fun h => h _ _ rfl⟩
  | .insert .NQ _ _ | .insert .WQ _ _ | .insert .SQ _ _ | .insert .DQ _ _ | .init _
  | .favorite _ _ | .delmax _ | .delete _ _ | .increase _ => isTrue nofun

/-- The lists after a call keep the levels. -/
theorem Within.levels {a : QId → List (τ × ℤ)} {op : QueueOp QId τ} (hP : Within m M N s op)
    (hr : s.queues.Repr a) (hround : op.InRound s.taken) (h : Levels m M N s.taken (a .RQ)) :
    Levels m M N (op.taken s.taken) ((op.spec a).2 .RQ) := by
  have hs := (hr.queue .RQ).sorted
  cases op with
  | init k => simpa [QueueOp.spec, Ne.symm hround, QueueOp.taken] using h
  | favorite k t => simpa [QueueOp.spec, Ne.symm hround, QueueOp.taken] using h
  | insert k prio t =>
    by_cases hk : k = .RQ
    · subst hk
      obtain ⟨hm, hM, hN⟩ := hP prio t rfl
      rw [hr.elements] at hN
      have hins := h.insert (t := t) hm hM (by omega)
      simpa [QueueOp.spec, QueueOp.taken, hs.insert_eq_filter] using hins
    · simpa [QueueOp.spec, Ne.symm hk, QueueOp.taken] using h
  | delmax k =>
    by_cases hk : k = .RQ
    · subst hk
      simpa [QueueOp.spec, QueueOp.taken] using h.tail hs
    · simpa [QueueOp.spec, Ne.symm hk, QueueOp.taken, hk] using h
  | delete k t =>
    by_cases hk : k = .RQ
    · subst hk
      simpa [QueueOp.spec, QueueOp.taken, PrioList.remove] using h.remove (t := t)
    · simpa [QueueOp.spec, Ne.symm hk, QueueOp.taken] using h
  | increase k =>
    by_cases hk : k = .RQ
    · subst hk
      rw [hround rfl] at h
      simpa [QueueOp.spec, QueueOp.taken, PrioList.increase] using h.increase
    · simpa [QueueOp.spec, Ne.symm hk, QueueOp.taken, hk] using h

/-- The queues store lists, and the one of the ready queue keeps its levels. -/
theorem reach_levels (h : machine.Reach (Within m M N) s) :
    ∃ a, s.queues.Repr a ∧ Levels m M N s.taken (a .RQ) := by
  refine h.invariant (I := fun s => ∃ a, s.queues.Repr a ∧ Levels m M N s.taken (a .RQ)) ?_ ?_
  · intro s hinit
    exact ⟨_, hinit, .nil⟩
  · rintro s op r s' ⟨a, hr, hl⟩ hP ⟨⟨hop, hround⟩, hexec⟩
    have ha : s.queues.entries = a := funext fun k => hr.entries
    rw [ha] at hop
    obtain ⟨qs, hqs, hr'⟩ := QueueOp.exec_refines hr hop
    simp only [machine, hqs, Option.map_some, Option.some.injEq] at hexec
    obtain ⟨-, rfl⟩ := Prod.mk.inj hexec
    exact ⟨_, hr', hP.levels hr hround hl⟩

/-- The bound for all values of the ready queue. -/
def bound (m M : ℤ) (N : ℕ) : ℤ := M + N - m + |M| + |m|

theorem abs_le_bound {v : ℤ} (h : Pqueue.InRange m (M + N) v) : |v| ≤ bound m M N := by
  have hM := neg_abs_le M
  have hm := neg_abs_le m
  have hm' := le_abs_self m
  have hM' := abs_nonneg M
  unfold bound
  rcases h with ⟨hlo, hhi⟩ | h
  · rw [abs_le]
    constructor <;> omega
  · have := abs_nonneg m
    omega

/-- The values of an `int`. -/
def IsInt (v : ℤ) : Prop := -2 ^ 31 ≤ v ∧ v < 2 ^ 31

theorem isInt_of_abs_le {v b : ℤ} (hv : |v| ≤ b) (hb : b < 2 ^ 31) : IsInt v := by
  have := abs_le.mp hv
  constructor <;> omega

/-- However long a run is, the absolute priorities of the ready queue stay between `m` and
    `M + N`, and no value that the queue stores or that `pth_pqueue_insert` computes
    leaves the range of an `int` if the bound does not. -/
theorem priorities_bounded (h : machine.Reach (Within m M N) s) :
    (∀ e ∈ s.queues.entries .RQ, m ≤ e.2 ∧ e.2 ≤ M + N) ∧
      (∀ t ∈ s.queues.threads .RQ, |s.queues.node.qPrio t| ≤ bound m M N) ∧
      (∀ prio t r s', machine.Step s (.insert .RQ prio t) r s' →
        Within m M N s (.insert .RQ prio t) →
        ∀ v ∈ (s.queues.queue .RQ).insertValues s.queues.node prio, |v| ≤ bound m M N) ∧
      (bound m M N < 2 ^ 31 →
        (∀ t ∈ s.queues.threads .RQ, IsInt (s.queues.node.qPrio t)) ∧
        ∀ prio t r s', machine.Step s (.insert .RQ prio t) r s' →
          Within m M N s (.insert .RQ prio t) →
          ∀ v ∈ (s.queues.queue .RQ).insertValues s.queues.node prio, IsInt v) := by
  obtain ⟨a, hr, hl⟩ := reach_levels h
  have hrange : ∀ e ∈ a .RQ, m ≤ e.2 ∧ e.2 ≤ M + N := fun e he => ⟨hl.low e he, hl.high e he⟩
  have hstored : ∀ t ∈ s.queues.threads .RQ, |s.queues.node.qPrio t| ≤ bound m M N := by
    intro t ht
    rw [hr.threads] at ht
    exact abs_le_bound ((hr.queue .RQ).inRange hrange ht)
  have hvalues : ∀ prio t r s', machine.Step s (.insert .RQ prio t) r s' →
      Within m M N s (.insert .RQ prio t) →
      ∀ v ∈ (s.queues.queue .RQ).insertValues s.queues.node prio, |v| ≤ bound m M N := by
    intro prio t r s' _ hP v hv
    obtain ⟨hm, hM, hN⟩ := hP prio t rfl
    rw [hr.elements] at hN
    rcases Pqueue.inRange_insertValues (hr.queue .RQ) hrange ⟨hm, by omega⟩ v hv with
      rfl | hv
    · rw [abs_le]
      have := abs_nonneg M
      have := abs_nonneg m
      unfold bound
      omega
    · exact abs_le_bound hv
  refine ⟨fun e he => hrange e (hr.entries ▸ he), hstored, hvalues, fun hb => ⟨?_, ?_⟩⟩
  · exact fun t ht => isInt_of_abs_le (hstored t ht) hb
  · exact fun prio t r s' hs hP v hv => isInt_of_abs_le (hvalues prio t r s' hs hP v hv) hb

/-- Two threads of priority 0, of which one has run. -/
theorem priorities_bounded_two : ∃ s : Rounds ℕ, machine.Reach (Within 0 0 2) s ∧
    s.queues.entries .RQ = [(2, 1), (1, 0)] ∧
    (∀ e ∈ s.queues.entries .RQ, 0 ≤ e.2 ∧ e.2 ≤ 0 + (2 : ℕ)) ∧
    ∀ t ∈ s.queues.threads .RQ, IsInt (s.queues.node.qPrio t) := by
  have hstart : machine.Reach (Within 0 0 2) (⟨.fresh ⟨⟨fun _ => none, fun _ => none⟩, fun _ => 0⟩,
      false⟩ : Rounds ℕ) := .init (Queues.Repr.fresh _)
  obtain ⟨s, hs, hentries⟩ := hstart.play (l := [.insert .RQ 0 1, .insert .RQ 0 2, .delmax .RQ,
    .increase .RQ, .insert .RQ 0 1]) (p := fun s => s.queues.entries .RQ = [(2, 1), (1, 0)])
    (by decide)
  obtain ⟨hrange, -, -, hint⟩ := priorities_bounded hs
  exact ⟨s, hs, hentries, hrange, (hint (by decide)).1⟩

end Rounds

end Pth
