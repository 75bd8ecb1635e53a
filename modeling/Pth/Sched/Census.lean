-- SUMMARY: pth_ctrl counts the threads in the states it is asked for, and pth_join knows when it is alone.
import Mathlib.Data.Fintype.Card
import Pth.Sched.Invariant
import Pth.Sched.Kill

/-!
# Counting the threads

`pth_ctrl` adds up the lengths of queues, and one for the running thread. `pth_join` relies on
the sum of all: if it is one, waiting for another thread would never end. -/

namespace Pth

open PrioList (keys)

/-- Where a thread stands, as a query names it. -/
inductive Standing where
  | new
  | ready
  | running
  | waiting
  | suspended
  | dead
  deriving DecidableEq, Repr

/-- The numbers of the bits `PTH_CTRL_GETTHREADS_NEW` and so on. -/
def Standing.bit : Standing → ℕ
  | .new => 4
  | .ready => 5
  | .running => 6
  | .waiting => 7
  | .suspended => 8
  | .dead => 9

/-- The threads of a queue stand alike. -/
def QId.standing : QId → Standing
  | .NQ => .new
  | .RQ => .ready
  | .WQ => .waiting
  | .SQ => .suspended
  | .DQ => .dead

variable {τ : Type*} [DecidableEq τ]

namespace Sched

variable {s : Sched τ} {a : QId → List (τ × ℤ)} {c t : τ} {k : QId}

/-- `pth_ctrl` for a query with some of the bits of `PTH_CTRL_GETTHREADS`. -/
def pthCtrl (s : Sched τ) (query : ℕ) : ℤ :=
  let asks (x : Standing) : Bool := query.testBit x.bit
  (if asks .new then s.queues.elements .NQ else 0) +
  (if asks .ready then s.queues.elements .RQ else 0) +
  (if asks .running then 1 else 0) +
  (if asks .waiting then s.queues.elements .WQ else 0) +
  (if asks .suspended then s.queues.elements .SQ else 0) +
  (if asks .dead then s.queues.elements .DQ else 0)

/-- Where a thread stands by its state. There is no state for suspended threads. -/
def standing (s : Sched τ) (t : τ) : Option Standing :=
  if s.pthCurrent = some t then some .running
  else if t ∈ s.queues.threads .SQ then some .suspended
  else match (s.tcb t).state with
    | .new => some .new
    | .ready => some .ready
    | .waiting => some .waiting
    | .dead => some .dead
    | .scheduler => none

/-- In a queue, states say where threads stand. -/
theorem Consistent.standing (h : s.Consistent a {c}) (hc : s.pthCurrent = some c)
    (ht : t ∈ keys (a k)) : s.standing t = some k.standing := by
  have hne : s.pthCurrent ≠ some t := by
    rw [hc]
    rintro ⟨rfl⟩
    exact h.away ht rfl
  have hfits := h.fits ht
  by_cases hk : k = .SQ
  · subst hk
    have hmem : t ∈ s.queues.threads .SQ := by rwa [h.repr.threads]
    simp [Sched.standing, hne, hmem, QId.standing]
  · have hmem : t ∉ s.queues.threads .SQ := by
      rw [h.repr.threads]
      exact fun hsq => hk (h.repr.disjoint ht hsq)
    cases k <;> simp_all [Sched.standing, QId.standing, Fits]

/-- The threads of a queue, if a query asks for them. -/
def askedQueue (a : QId → List (τ × ℤ)) (query : ℕ) (k : QId) : List τ :=
  if query.testBit k.standing.bit then keys (a k) else []

omit [DecidableEq τ] in
theorem mem_askedQueue {query : ℕ} :
    t ∈ askedQueue a query k ↔ t ∈ keys (a k) ∧ query.testBit k.standing.bit = true := by
  unfold askedQueue
  split <;> simp_all

/-- The threads that a query asks for. -/
def askedThreads (a : QId → List (τ × ℤ)) (c : τ) (query : ℕ) : List τ :=
  [QId.NQ, .RQ, .WQ, .SQ, .DQ].flatMap (askedQueue a query) ++
    if query.testBit Standing.running.bit then [c] else []

omit [DecidableEq τ] in
theorem mem_askedThreads {query : ℕ} : t ∈ askedThreads a c query ↔
    (∃ k, t ∈ keys (a k) ∧ query.testBit k.standing.bit = true) ∨
      (t = c ∧ query.testBit Standing.running.bit = true) := by
  simp only [askedThreads, List.mem_append, List.mem_flatMap, mem_askedQueue]
  refine or_congr ⟨?_, ?_⟩ ?_
  · rintro ⟨k, -, hk⟩
    exact ⟨k, hk⟩
  · rintro ⟨k, hk⟩
    exact ⟨k, by cases k <;> simp, hk⟩
  · split <;> simp_all

omit [DecidableEq τ] in
theorem Consistent.askedThreads_nodup (h : s.Consistent a {c}) (query : ℕ) :
    (askedThreads a c query).Nodup := by
  refine List.Nodup.append ?_ (by split <;> simp) ?_
  · refine List.nodup_flatMap.mpr ⟨fun k _ => ?_, ?_⟩
    · unfold askedQueue
      split
      · exact (h.repr.queue k).nodup
      · exact List.nodup_nil
    · refine List.Pairwise.imp ?_ (by decide : [QId.NQ, .RQ, .WQ, .SQ, .DQ].Nodup)
      intro k k' hne t hk hk'
      exact hne (h.repr.disjoint (mem_askedQueue.mp hk).1 (mem_askedQueue.mp hk').1)
  · intro t ht htc
    obtain ⟨k, -, hk⟩ := List.mem_flatMap.mp ht
    have htc : t = c := by split at htc <;> simp_all
    exact h.away (mem_askedQueue.mp hk).1 htc

omit [DecidableEq τ] in
/-- The lengths of the queues are the number of threads. -/
theorem pthCtrl_eq (h : s.queues.Repr a) (c : τ) (query : ℕ) :
    s.pthCtrl query = (askedThreads a c query).length := by
  have hlen : ∀ k, ((askedQueue a query k).length : ℤ) =
      if query.testBit k.standing.bit then s.queues.elements k else 0 := by
    intro k
    unfold askedQueue
    split
    · rw [h.elements, PrioList.keys_length]
    · rfl
  have hone : ((if query.testBit Standing.running.bit then [c] else []).length : ℤ) =
      if query.testBit Standing.running.bit then 1 else 0 := by
    split <;> rfl
  have hsum : ((askedThreads a c query).length : ℤ) =
      (if query.testBit Standing.new.bit then s.queues.elements .NQ else 0) +
      ((if query.testBit Standing.ready.bit then s.queues.elements .RQ else 0) +
      ((if query.testBit Standing.waiting.bit then s.queues.elements .WQ else 0) +
      ((if query.testBit Standing.suspended.bit then s.queues.elements .SQ else 0) +
      (if query.testBit Standing.dead.bit then s.queues.elements .DQ else 0)))) +
      (if query.testBit Standing.running.bit then 1 else 0) := by
    simp only [askedThreads, List.flatMap_cons, List.flatMap_nil, List.append_nil,
      List.length_append, Nat.cast_add, hlen, hone]
    rfl
  simp only [hsum, pthCtrl]
  omega

omit [DecidableEq τ] in
/-- The sum that `pth_join` looks at is one exactly if the running thread is alone. -/
theorem Consistent.getThreads_eq_one (h : s.Consistent a {c}) :
    s.getThreads = 1 ↔ ∀ t, s.live t = true → t ≠ s.pthSched → t = c := by
  have hsum : s.getThreads = 1 ↔ ∀ k, a k = [] := by
    simp only [getThreads, h.repr.elements, ← List.length_eq_zero_iff]
    constructor
    · intro hone k
      cases k <;> omega
    · intro hzero
      simp [hzero]
  rw [hsum]
  constructor
  · intro hnil t ht hne
    by_contra htc
    obtain ⟨k, hk⟩ := h.queued ht hne htc
    simp [hnil k] at hk
  · intro halone k
    refine List.eq_nil_iff_forall_not_mem.mpr fun e he => ?_
    have hk : e.1 ∈ keys (a k) := List.mem_map_of_mem he
    exact h.away hk (halone e.1 (h.live hk) (h.sched hk))

end Sched

namespace Run

variable {r : Run τ}

/-- In every state of a run in which a thread can call it, `pth_ctrl` counts exactly the threads
    that stand where the query says, and `pth_join` finds a deadlock exactly if no other thread
    exists. -/
theorem threads_counted [Fintype τ] {c : τ} (h : machine.Reachable r) (hrun : r.phase = .running)
    (hc : r.lib.pthCurrent = some c) (query : ℕ) :
    r.lib.pthCtrl query = (Finset.univ.filter fun t => r.lib.live t = true ∧
      t ≠ r.lib.pthSched ∧ (r.lib.standing t).any fun x => query.testBit x.bit).card ∧
    (r.lib.getThreads = 1 ↔ ∀ t, r.lib.live t = true → t ≠ r.lib.pthSched → t = c) := by
  obtain ⟨-, a, ha⟩ := (Inv.reach h).current hrun hc
  refine ⟨?_, ha.getThreads_eq_one⟩
  have hset : (Finset.univ.filter fun t => r.lib.live t = true ∧ t ≠ r.lib.pthSched ∧
      (r.lib.standing t).any fun x => query.testBit x.bit) =
        (Sched.askedThreads a c query).toFinset := by
    ext t
    have hrunning : r.lib.standing c = some .running := by simp [Sched.standing, hc]
    simp only [Finset.mem_filter, Finset.mem_univ, true_and, List.mem_toFinset,
      Sched.mem_askedThreads]
    constructor
    · rintro ⟨hlive, hne, hasked⟩
      by_cases htc : t = c
      · subst htc
        exact .inr ⟨rfl, by simpa [hrunning] using hasked⟩
      · obtain ⟨k, hk⟩ := ha.queued hlive hne htc
        exact .inl ⟨k, hk, by simpa [ha.standing hc hk] using hasked⟩
    · rintro (⟨k, hk, hbit⟩ | ⟨rfl, hbit⟩)
      · exact ⟨ha.live hk, ha.sched hk, by simpa [ha.standing hc hk] using hbit⟩
      · exact ⟨(ha.awayLive rfl).1, (ha.awayLive rfl).2, by simpa [hrunning] using hbit⟩
  rw [hset, List.toFinset_card_of_nodup (ha.askedThreads_nodup query)]
  exact Sched.pthCtrl_eq ha.repr c query

/-- A new, a suspended and the running thread: a query for the suspended and the running
    threads counts two. -/
theorem threads_counted_suspended : ∃ r : Run (Fin 4), machine.Reachable r ∧
    r.phase = .running ∧ r.lib.pthCurrent = some 0 ∧ r.lib.pthCtrl (2 ^ 6 ||| 2 ^ 8) = 2 ∧
    (Finset.univ.filter fun t => r.lib.live t = true ∧ t ≠ r.lib.pthSched ∧
      (r.lib.standing t).any fun x => (2 ^ 6 ||| 2 ^ 8).testBit x.bit).card = 2 ∧
    r.lib.getThreads ≠ 1 := by
  obtain ⟨r, hr, hrun, hc, htwo, hlive⟩ := (boot_reach (P := fun _ _ => True)
      (Sched.blank (0 : Fin 4)) 0 1 .zero (by decide)).play
    (l := [.spawn none .user (some 2), .spawn none .user (some 3), .suspend (some 2)])
    (p := fun r => r.phase = .running ∧ r.lib.pthCurrent = some 0 ∧
      r.lib.pthCtrl (2 ^ 6 ||| 2 ^ 8) = 2 ∧ r.lib.live 2 = true ∧ 2 ≠ r.lib.pthSched) (by decide)
  obtain ⟨hcount, halone⟩ := threads_counted hr hrun hc (2 ^ 6 ||| 2 ^ 8)
  refine ⟨r, hr, hrun, hc, htwo, by exact_mod_cast hcount.symm.trans htwo, fun hone => ?_⟩
  exact absurd (halone.mp hone 2 hlive.1 hlive.2) (by decide)

end Run

end Pth
