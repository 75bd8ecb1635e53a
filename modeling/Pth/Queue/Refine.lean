-- SUMMARY: Several queues over shared links, and the refinement of every sequence of queue calls.
import Pth.Queue.Repr

/-!
# Runs of queue operations

All queues of the library link the same thread control blocks. `Queues.Repr`
extends the representation to all queues at once: no thread is in two of them,
so an operation on one queue leaves the links of the others alone. The abstract
machine works on one list of threads with priorities for each queue, and every
sequence of calls that keeps the preconditions of the source refines it. -/

namespace Pth

open PrioList (keys Sorted Encodes)

variable {κ α : Type*} [DecidableEq κ] [DecidableEq α]

namespace Queues

/-- The queues store the lists `a`, and no thread is in two of them. -/
structure Repr (s : Queues κ α) (a : κ → List (α × ℤ)) : Prop where
  queue : ∀ k, (s.queue k).Repr s.node (a k)
  disjoint : ∀ {k k' : κ} {t : α}, t ∈ keys (a k) → t ∈ keys (a k') → k = k'

/-- All queues as `pth_pqueue_init` leaves them. -/
def fresh (m : QNodes α) : Queues κ α := { node := m, queue := fun _ => Pqueue.init }

omit [DecidableEq κ] [DecidableEq α] in
theorem Repr.fresh (m : QNodes α) :
    (Queues.fresh m : Queues κ α).Repr fun _ => [] where
  queue _ := Pqueue.Repr.init m
  disjoint h := by simp at h

/-! ## One call -/

section

variable {s : Queues κ α} {a : κ → List (α × ℤ)} {k : κ} {t : α}

omit [DecidableEq α] in
/-- Writing one queue back: `S` are the threads whose links may have changed. -/
private theorem Repr.set {r : Pqueue α × QNodes α} {l : List (α × ℤ)} {S : List α}
    (h : s.Repr a) (hr : r.1.Repr r.2 l) (hoff : s.node.EqOff S r.2)
    (hS : ∀ k', k' ≠ k → ∀ t ∈ S, t ∉ keys (a k'))
    (hl : ∀ k', k' ≠ k → ∀ t ∈ keys l, t ∉ keys (a k')) :
    (s.set k r).Repr (Function.update a k l) where
  queue k' := by
    by_cases hk : k' = k
    · subst hk
      simpa [Queues.set] using hr
    · have hother := (h.queue k').congr hoff fun t ht hS' => hS k' hk t hS' ht
      simpa [Queues.set, hk] using hother
  disjoint {k₁ k₂ t} h₁ h₂ := by
    by_cases hk₁ : k₁ = k <;> by_cases hk₂ : k₂ = k
    · rw [hk₁, hk₂]
    · subst hk₁
      rw [Function.update_self] at h₁
      rw [Function.update_of_ne hk₂] at h₂
      exact absurd h₂ (hl k₂ hk₂ t h₁)
    · subst hk₂
      rw [Function.update_self] at h₂
      rw [Function.update_of_ne hk₁] at h₁
      exact absurd h₁ (hl k₁ hk₁ t h₂)
    · rw [Function.update_of_ne hk₁] at h₁
      rw [Function.update_of_ne hk₂] at h₂
      exact h.disjoint h₁ h₂

omit [DecidableEq κ] [DecidableEq α] in
private theorem Repr.not_mem_of_ne (h : s.Repr a) :
    ∀ k', k' ≠ k → ∀ t ∈ keys (a k), t ∉ keys (a k') :=
  fun _ hk _ ht ht' => hk (h.disjoint ht' ht)

omit [DecidableEq α] in
theorem Repr.init (h : s.Repr a) : (s.init k).Repr (Function.update a k []) :=
  h.set (S := []) (Pqueue.Repr.init _) (fun _ _ => ⟨rfl, rfl, rfl⟩) (by simp) (by simp)

theorem Repr.insert (h : s.Repr a) (prio : ℤ) (ht : ∀ k', t ∉ keys (a k')) :
    ∃ s', s.insert k prio t = some s' ∧
      s'.Repr (Function.update a k (PrioList.insert prio t (a k))) := by
  obtain ⟨q', m', hins, hr, hoff⟩ := Pqueue.insert_repr (h.queue k) prio (ht k)
  refine ⟨s.set k (q', m'), by simp [Queues.insert, hins], h.set hr hoff ?_ ?_⟩
  · intro k' hk u hu
    rcases List.mem_cons.mp hu with rfl | hu
    · exact ht k'
    · exact h.not_mem_of_ne k' hk u hu
  · intro k' hk u hu
    rcases PrioList.mem_keys_insert.mp hu with rfl | hu
    · exact ht k'
    · exact h.not_mem_of_ne k' hk u hu

theorem Repr.delmax (h : s.Repr a) :
    ∃ s', s.delmax k = some ((keys (a k)).head?, s') ∧
      s'.Repr (Function.update a k (a k).tail) := by
  have hq := h.queue k
  cases hl : a k with
  | nil =>
    rw [hl] at hq
    refine ⟨s.set k (s.queue k, s.node), by simp [Queues.delmax, Pqueue.delmax_nil hq], ?_⟩
    exact h.set (S := []) hq (fun _ _ => ⟨rfl, rfl, rfl⟩) (by simp) (by simp)
  | cons e l =>
    rw [hl] at hq
    obtain ⟨q', m', hdel, hr, hoff⟩ := Pqueue.delmax_cons hq
    refine ⟨s.set k (q', m'), by simp [Queues.delmax, hdel], h.set hr hoff ?_ ?_⟩
    · rw [← hl]
      exact h.not_mem_of_ne
    · intro k' hk u hu
      refine h.not_mem_of_ne k' hk u ?_
      rw [hl]
      exact List.mem_cons_of_mem _ hu

theorem Repr.delete (h : s.Repr a) (ht : t ∈ keys (a k)) :
    ∃ s', s.delete k t = some s' ∧ s'.Repr (Function.update a k (PrioList.remove t (a k))) := by
  have hq := h.queue k
  obtain ⟨p, A, B, hl⟩ := PrioList.exists_split ht
  have hrem : PrioList.remove t (a k) = A ++ B := by
    have hnd := hq.nodup
    rw [hl] at hnd ⊢
    exact PrioList.remove_append_cons hnd
  rw [hl] at hq
  obtain ⟨q', m', hdel, hr, hoff⟩ := Pqueue.delete_repr hq
  refine ⟨s.set k (q', m'), by simp [Queues.delete, hdel], ?_⟩
  refine h.set (hrem ▸ hr) hoff ?_ ?_
  · rw [← hl]
    exact h.not_mem_of_ne
  · intro k' hk u hu
    exact h.not_mem_of_ne k' hk u (PrioList.mem_keys_remove.mp hu).1

/-- A thread that has been taken out of its queue is in none. -/
theorem Repr.removed (h : s.Repr a) (ht : t ∈ keys (a k)) (k' : κ) :
    t ∉ keys (Function.update a k (PrioList.remove t (a k)) k') := by
  by_cases hk : k' = k
  · subst hk
    simp [PrioList.mem_keys_remove]
  · rw [Function.update_of_ne hk]
    exact fun hm => hk (h.disjoint hm ht)

theorem Repr.favorite (h : s.Repr a) (ht : t ∈ keys (a k)) :
    ∃ s', s.favorite k t = some (true, s') ∧
      s'.Repr (Function.update a k (PrioList.favorite t (a k))) := by
  have hq := h.queue k
  obtain ⟨q', m', hfav, hr, hoff⟩ := Pqueue.favorite_repr hq ht
  refine ⟨s.set k (q', m'), by simp [Queues.favorite, hfav], ?_⟩
  refine h.set hr hoff h.not_mem_of_ne ?_
  intro k' hk u hu
  exact h.not_mem_of_ne k' hk u ((PrioList.mem_keys_favorite ht hq.nodup).mp hu)

theorem Repr.increase (h : s.Repr a) :
    (s.increase k).Repr (Function.update a k (PrioList.increase (a k))) := by
  obtain ⟨hr, hoff⟩ := Pqueue.increase_repr (h.queue k)
  have hset := h.set (k := k) (r := (s.queue k, (s.queue k).increase s.node)) hr hoff
    h.not_mem_of_ne (by rw [PrioList.keys_increase]; exact h.not_mem_of_ne)
  simpa [Queues.set, Queues.increase] using hset

omit [DecidableEq κ] [DecidableEq α] in
theorem Repr.elements (h : s.Repr a) : s.elements k = (a k).length := (h.queue k).num

omit [DecidableEq κ] [DecidableEq α] in
theorem Repr.head (h : s.Repr a) : s.head k = (keys (a k)).head? := (h.queue k).head

omit [DecidableEq κ] [DecidableEq α] in
theorem Repr.tail (h : s.Repr a) : s.tail k = (keys (a k)).getLast? := Pqueue.tail_eq (h.queue k)

omit [DecidableEq κ] in
theorem Repr.contains (h : s.Repr a) (t : α) :
    s.contains k t = some (decide (t ∈ keys (a k))) := Pqueue.contains_eq (h.queue k) t

omit [DecidableEq κ] in
theorem Repr.threads (h : s.Repr a) : s.threads k = keys (a k) :=
  Pqueue.walkList_next (h.queue k) (by rw [h.elements]; simp)

omit [DecidableEq κ] in
theorem Repr.threads_nodup (h : s.Repr a) : (s.threads k).Nodup := h.threads ▸ (h.queue k).nodup

/-- The list that a queue stores, read from the links and the differences. -/
def entries (s : Queues κ α) (k : κ) : List (α × ℤ) :=
  PrioList.decode s.node.qPrio (s.threads k)

omit [DecidableEq κ] in
theorem Repr.entries (h : s.Repr a) : s.entries k = a k := by
  rw [Queues.entries, h.threads]
  exact (h.queue k).prio.decode_keys

end

/-! ## Sequences of calls -/

end Queues

/-- A call of one of the queue functions. -/
inductive QueueOp (κ α : Type*) where
  | init (k : κ)
  | insert (k : κ) (prio : ℤ) (t : α)
  | delmax (k : κ)
  | delete (k : κ) (t : α)
  | favorite (k : κ) (t : α)
  | increase (k : κ)

/-- What a call returns. -/
inductive QueueRet (α : Type*) where
  | void
  | thread (t : Option α)
  | bool (b : Bool)
  deriving DecidableEq, Repr

namespace QueueOp

/-- The call on the linked queues. -/
def exec (s : Queues κ α) : QueueOp κ α → Option (QueueRet α × Queues κ α)
  | .init k => some (.void, s.init k)
  | .insert k prio t => (s.insert k prio t).map fun s' => (.void, s')
  | .delmax k => (s.delmax k).map fun r => (.thread r.1, r.2)
  | .delete k t => (s.delete k t).map fun s' => (.void, s')
  | .favorite k t => (s.favorite k t).map fun r => (.bool r.1, r.2)
  | .increase k => some (.void, s.increase k)

/-- The call on one list of threads with absolute priorities for each queue. -/
def spec (a : κ → List (α × ℤ)) : QueueOp κ α → QueueRet α × (κ → List (α × ℤ))
  | .init k => (.void, Function.update a k [])
  | .insert k prio t =>
    (.void, Function.update a k
      (((a k).filter fun e => prio ≤ e.2) ++ (t, prio) :: (a k).filter fun e => e.2 < prio))
  | .delmax k => (.thread (keys (a k)).head?, Function.update a k (a k).tail)
  | .delete k t => (.void, Function.update a k ((a k).filter fun e => e.1 ≠ t))
  | .favorite k t => (.bool true, Function.update a k (PrioList.favorite t (a k)))
  | .increase k => (.void, Function.update a k ((a k).map fun e => (e.1, e.2 + 1)))

/-- The preconditions of the source: only a thread that is in no queue is
    inserted, and only a thread of the queue is deleted or favored. -/
def Allowed (a : κ → List (α × ℤ)) : QueueOp κ α → Prop
  | .insert _ _ t => ∀ k, t ∉ keys (a k)
  | .delete k t | .favorite k t => t ∈ keys (a k)
  | .init _ | .delmax _ | .increase _ => True

theorem exec_refines {s : Queues κ α} {a : κ → List (α × ℤ)} {op : QueueOp κ α}
    (h : s.Repr a) (hop : op.Allowed a) :
    ∃ s', op.exec s = some ((op.spec a).1, s') ∧ s'.Repr (op.spec a).2 := by
  cases op with
  | init k => exact ⟨_, rfl, h.init⟩
  | insert k prio t =>
    obtain ⟨s', hins, hr⟩ := h.insert (k := k) prio hop
    rw [(h.queue k).sorted.insert_eq_filter] at hr
    exact ⟨s', by simp [exec, spec, hins], hr⟩
  | delmax k =>
    obtain ⟨s', hdel, hr⟩ := h.delmax (k := k)
    exact ⟨s', by simp [exec, spec, hdel], hr⟩
  | delete k t =>
    obtain ⟨s', hdel, hr⟩ := h.delete hop
    exact ⟨s', by simp [exec, spec, hdel], hr⟩
  | favorite k t =>
    obtain ⟨s', hfav, hr⟩ := h.favorite hop
    exact ⟨s', by simp [exec, spec, hfav], hr⟩
  | increase k => exact ⟨_, rfl, h.increase⟩

/-- A sequence of calls on the linked queues. -/
def execAll (s : Queues κ α) : List (QueueOp κ α) → Option (List (QueueRet α) × Queues κ α)
  | [] => some ([], s)
  | op :: ops => do
    let (r, s') ← op.exec s
    let (rs, s'') ← execAll s' ops
    some (r :: rs, s'')

/-- A sequence of calls on the lists. -/
def specAll (a : κ → List (α × ℤ)) :
    List (QueueOp κ α) → List (QueueRet α) × (κ → List (α × ℤ))
  | [] => ([], a)
  | op :: ops =>
    let r := op.spec a
    let rs := specAll r.2 ops
    (r.1 :: rs.1, rs.2)

/-- Every call of the sequence keeps its precondition. -/
def AllowedAll (a : κ → List (α × ℤ)) : List (QueueOp κ α) → Prop
  | [] => True
  | op :: ops => op.Allowed a ∧ AllowedAll (op.spec a).2 ops

theorem execAll_refines {s : Queues κ α} {a : κ → List (α × ℤ)} {ops : List (QueueOp κ α)}
    (h : s.Repr a) (hops : AllowedAll a ops) :
    ∃ s', execAll s ops = some ((specAll a ops).1, s') ∧ s'.Repr (specAll a ops).2 := by
  induction ops generalizing s a with
  | nil => exact ⟨s, rfl, h⟩
  | cons op ops ih =>
    obtain ⟨hop, hops⟩ := hops
    obtain ⟨s₁, hexec, hr₁⟩ := exec_refines h hop
    obtain ⟨s₂, hexecs, hr₂⟩ := ih hr₁ hops
    exact ⟨s₂, by simp [execAll, specAll, hexec, hexecs], hr₂⟩

/-- Whatever the links of the threads hold at first, a sequence of calls on
    initialised queues never faults, returns what the lists return, and leaves
    queues that store the lists: a circle of links with an absolute priority at
    the head and non-negative differences behind it. -/
theorem queues_refine_lists (m : QNodes α) (ops : List (QueueOp κ α))
    (hops : AllowedAll (fun _ => []) ops) :
    ∃ s, execAll (Queues.fresh m) ops = some ((specAll (fun _ => []) ops).1, s) ∧
      ∀ k, ∃ l, (specAll (fun _ => []) ops).2 k = l ∧
        (keys l).Nodup ∧ Sorted l ∧ s.head k = (keys l).head? ∧ s.node.link.Cycle (keys l) ∧
        Encodes s.node.qPrio l ∧ (∀ t ∈ (keys l).tail, 0 ≤ s.node.qPrio t) ∧
        s.elements k = l.length ∧
        (∀ n, l.length ≤ n → walkList (fun t => s.walk k t .next) n (s.head k) = keys l) ∧
        (∀ n, l.length ≤ n →
          walkList (fun t => s.walk k t .prev) n (s.tail k) = (keys l).reverse) ∧
        ∀ t, s.contains k t = some (decide (t ∈ keys l)) := by
  obtain ⟨s, hexec, hr⟩ := execAll_refines (Queues.Repr.fresh m) hops
  refine ⟨s, hexec, fun k => ⟨_, rfl, ?_⟩⟩
  have hq := hr.queue k
  exact ⟨hq.nodup, hq.sorted, hq.head, hq.cycle, hq.prio, hq.prio.nonneg hq.sorted, hq.num,
    fun n hn => Pqueue.walkList_next hq hn, fun n hn => Pqueue.walkList_prev hq hn,
    hr.contains⟩

/-- Two queues and three threads: every function is called, on head, middle and
    tail. -/
theorem queues_refine_lists_calls :
    AllowedAll (κ := Bool) (α := ℕ) (fun _ => [])
      [.init true, .insert true 0 1, .insert true 3 2, .insert true 0 3, .favorite true 3,
        .insert false 5 4, .delete true 2, .increase true, .delmax true] ∧
    ∃ s, execAll (Queues.fresh ⟨⟨fun _ => none, fun _ => none⟩, fun _ => 7⟩)
      [.init true, .insert true 0 1, .insert true 3 2, .insert true 0 3, .favorite true 3,
        .insert false 5 4, .delete true 2, .increase true, .delmax true] =
        some ([.void, .void, .void, .void, .bool true, .void, .void, .void, .thread (some 3)], s) ∧
      s.threads true = [1] ∧ s.node.qPrio 1 = 1 := by
  have hops : AllowedAll (κ := Bool) (α := ℕ) (fun _ => [])
      [.init true, .insert true 0 1, .insert true 3 2, .insert true 0 3, .favorite true 3,
        .insert false 5 4, .delete true 2, .increase true, .delmax true] := by
    simp [AllowedAll, Allowed, spec, PrioList.favorite, PrioList.remove]
  refine ⟨hops, ?_⟩
  obtain ⟨s, hexec, hs⟩ :=
    queues_refine_lists ⟨⟨fun _ => none, fun _ => none⟩, fun _ => 7⟩ _ hops
  obtain ⟨l, hl, -, -, -, -, henc, -, hnum, hwalk, -⟩ := hs true
  obtain rfl : [(1, 1)] = l := by
    simpa [specAll, spec, PrioList.favorite, PrioList.remove] using hl
  refine ⟨s, ?_, ?_, henc.1 (1, 1) rfl⟩
  · simpa [specAll, spec, PrioList.favorite, PrioList.remove] using hexec
  · exact hwalk _ (by rw [hnum]; simp)

end QueueOp

end Pth
