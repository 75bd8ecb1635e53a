-- SUMMARY: The int values that the priority queue stores and that inserting computes, and their range.
import Pth.Queue.Refine
import Mathlib.Algebra.Order.Group.Abs
import Mathlib.Algebra.Order.Group.Int

/-!
# Values of the priority queue

The source computes with `int`. This module lists every value that
`pth_pqueue_insert` computes on its way and shows that all of them, and all values
that a queue stores, lie in the range of the absolute priorities or are differences
of two of them. -/

namespace Pth

open PrioList (keys)

namespace Pqueue

variable {α : Type*} [DecidableEq α] {q : Pqueue α} {m : QNodes α} {l : List (α × ℤ)}
  {lo hi prio : ℤ} {h t : α}

/-- The values of `p - c->q_next->q_prio` in the search loop of `pth_pqueue_insert`. -/
def insertLoopValues (m : QNodes α) (h : α) (prio : ℤ) : ℕ → α → ℤ → List ℤ
  | 0, _, _ => []
  | n + 1, c, p =>
    match m.link.next c with
    | none => []
    | some cn =>
      (p - m.qPrio cn) ::
        if p - m.qPrio cn ≥ prio ∧ cn ≠ h then insertLoopValues m h prio n cn (p - m.qPrio cn)
        else []

/-- The values that `pth_pqueue_insert` computes behind its search loop, which has stopped
    at `c`: `t->q_prio`, and `t->q_next->q_prio` unless the thread becomes the last. -/
def insertBehindValues (m : QNodes α) (h : α) (prio : ℤ) (c : α × ℤ) : List ℤ :=
  match m.link.next c.1 with
  | none => []
  | some cn => (c.2 - prio) :: if cn ≠ h then [m.qPrio cn - (c.2 - prio)] else []

/-- The values that `pth_pqueue_insert` computes. -/
def insertValues (q : Pqueue α) (m : QNodes α) (prio : ℤ) : List ℤ :=
  (q.qNum + 1) ::
    match q.qHead with
    | none => [prio]
    | some h =>
      if q.qNum = 0 then [prio]
      else if m.qPrio h < prio then [prio, prio - m.qPrio h]
      else
        m.qPrio h :: insertLoopValues m h prio q.qNum.toNat h (m.qPrio h) ++
          (insertLoop m h prio q.qNum.toNat h (m.qPrio h)).elim []
            (insertBehindValues m h prio)

/-- A priority of the range, or the difference of two. -/
def InRange (lo hi v : ℤ) : Prop := (lo ≤ v ∧ v ≤ hi) ∨ |v| ≤ hi - lo

theorem InRange.of_sub {x y : ℤ} (hx : lo ≤ x ∧ x ≤ hi) (hy : lo ≤ y ∧ y ≤ hi) :
    InRange lo hi (x - y) := by
  right
  rw [abs_le]
  omega

omit [DecidableEq α] in
/-- What a queue stores at its threads. -/
theorem Repr.inRange (hr : q.Repr m l) (hl : ∀ e ∈ l, lo ≤ e.2 ∧ e.2 ≤ hi) (ht : t ∈ keys l) :
    InRange lo hi (m.qPrio t) := by
  obtain ⟨p, A, B, rfl⟩ := PrioList.exists_split ht
  have hp := hl (t, p) (by simp)
  rcases List.eq_nil_or_concat A with rfl | ⟨A, c, rfl⟩
  · rw [hr.qPrio_head]
    exact .inl hp
  · have hsplit : A.concat c ++ (t, p) :: B = A ++ c :: (t, p) :: B := by simp
    have hchain := hr.prio.2
    rw [hsplit, List.isChain_append_cons_cons] at hchain
    rw [hchain.2.1]
    exact .of_sub (hl c (by simp)) hp

omit [DecidableEq α] in
/-- What the search loop reads behind the entry `c`: the head again, or the next entry. -/
theorem Repr.behind {A B : List (α × ℤ)} {c : α × ℤ} (hr : q.Repr m (A ++ c :: B)) :
    ∃ cn, m.link.next c.1 = some cn ∧
      ((B = [] ∧ q.qHead = some cn) ∨
        ∃ d B', B = d :: B' ∧ cn = d.1 ∧ m.qPrio cn = c.2 - d.2 ∧ q.qHead ≠ some cn) := by
  cases B with
  | nil =>
    obtain ⟨h, hh⟩ : ∃ h, q.qHead = some h := by
      rw [hr.head]
      cases A <;> exact ⟨_, rfl⟩
    exact ⟨h, (hr.cycle.edge_last (by simp) (by rw [← hr.head, hh])).1, .inl ⟨rfl, hh⟩⟩
  | cons d B =>
    have hkeys : keys (A ++ c :: d :: B) = keys A ++ c.1 :: d.1 :: keys B := by simp
    have hedge : m.link.Edge c.1 d.1 := Links.Cycle.edge (hkeys ▸ hr.cycle)
    have hchain := hr.prio.2
    rw [List.isChain_append_cons_cons] at hchain
    exact ⟨d.1, hedge.1, .inr ⟨d, B, rfl, rfl, hchain.2.1, hr.head_ne hkeys⟩⟩

omit [DecidableEq α] in
/-- The head stores a priority of the range. -/
theorem Repr.inRange_head (hr : q.Repr m l) (hl : ∀ e ∈ l, lo ≤ e.2 ∧ e.2 ≤ hi)
    (hh : q.qHead = some h) : lo ≤ m.qPrio h ∧ m.qPrio h ≤ hi := by
  cases l with
  | nil => simp [hr.head] at hh
  | cons e l =>
    obtain rfl : e.1 = h := by simpa [hr.head] using hh
    rw [hr.qPrio_head]
    exact hl e (by simp)

/-- The values of the search loop. The induction is on the part of the queue it has not
    passed. -/
theorem inRange_insertLoopValues {A B : List (α × ℤ)} {c : α × ℤ} (hr : q.Repr m l)
    (hh : q.qHead = some h) (hl : ∀ e ∈ l, lo ≤ e.2 ∧ e.2 ≤ hi) (hsplit : l = A ++ c :: B)
    (n : ℕ) : ∀ v ∈ insertLoopValues m h prio n c.1 c.2, InRange lo hi v := by
  induction n generalizing A B c with
  | zero => simp [insertLoopValues]
  | succ n ih =>
    obtain ⟨cn, hnext, ⟨rfl, hhead⟩ | ⟨d, B, rfl, rfl, hgap, hne⟩⟩ := (hsplit ▸ hr).behind
    · obtain rfl : h = cn := by simpa [hh] using hhead
      have hv := InRange.of_sub (hl c (by simp [hsplit])) (hr.inRange_head hl hh)
      simpa [insertLoopValues, hnext] using hv
    · have hd : c.2 - m.qPrio d.1 = d.2 := by omega
      intro v hv
      simp only [insertLoopValues, hnext, hd, List.mem_cons] at hv
      rcases hv with rfl | hv
      · exact .inl (hl d (by simp [hsplit]))
      · split at hv
        · exact ih (A := A ++ [c]) (B := B) (by simp [hsplit]) v hv
        · simp at hv

/-- The values behind the search loop. -/
theorem inRange_insertBehindValues {A B : List (α × ℤ)} {c : α × ℤ} (hr : q.Repr m l)
    (hh : q.qHead = some h) (hl : ∀ e ∈ l, lo ≤ e.2 ∧ e.2 ≤ hi) (hprio : lo ≤ prio ∧ prio ≤ hi)
    (hsplit : l = A ++ c :: B) : ∀ v ∈ insertBehindValues m h prio c, InRange lo hi v := by
  have hc := hl c (by simp [hsplit])
  intro v hv
  obtain ⟨cn, hnext, hbehind⟩ := (hsplit ▸ hr).behind
  simp only [insertBehindValues, hnext, List.mem_cons] at hv
  rcases hv with rfl | hv
  · exact .of_sub hc hprio
  · obtain ⟨-, hhead⟩ | ⟨d, B, rfl, rfl, hgap, -⟩ := hbehind
    · obtain rfl : h = cn := by simpa [hh] using hhead
      simp at hv
    · split at hv
      · obtain rfl : v = prio - d.2 := by
          rw [List.mem_singleton.mp hv]
          omega
        exact .of_sub hprio (hl d (by simp [hsplit]))
      · simp at hv

/-- All values that `pth_pqueue_insert` computes, but for the number of threads. -/
theorem inRange_insertValues (hr : q.Repr m l) (hl : ∀ e ∈ l, lo ≤ e.2 ∧ e.2 ≤ hi)
    (hprio : lo ≤ prio ∧ prio ≤ hi) :
    ∀ v ∈ insertValues q m prio, v = l.length + 1 ∨ InRange lo hi v := by
  intro v hv
  rcases List.mem_cons.mp hv with rfl | hv
  · exact .inl (by rw [hr.num])
  · right
    split at hv
    · rw [List.mem_singleton.mp hv]
      exact .inl hprio
    · next h hh =>
      have hhead := hr.inRange_head hl hh
      split at hv
      · rw [List.mem_singleton.mp hv]
        exact .inl hprio
      · split at hv
        · rcases List.mem_cons.mp hv with rfl | hv
          · exact .inl hprio
          · rw [List.mem_singleton.mp hv]
            exact .of_sub hprio hhead
        · next hge =>
          cases l with
          | nil => simp [hr.head] at hh
          | cons e l =>
            obtain rfl : e.1 = h := by simpa [hr.head] using hh
            rw [hr.qPrio_head] at hv hge hhead
            obtain ⟨A, c, B, hsplit, hloop, -, -⟩ := insertLoop_eq (A := []) (n := q.qNum.toNat)
              hr hh rfl (Int.not_lt.mp hge) (by rw [hr.num]; simp)
            rw [hloop, Option.elim_some, List.mem_append, List.mem_cons] at hv
            rcases hv with (rfl | hv) | hv
            · exact .inl hhead
            · exact inRange_insertLoopValues (A := []) hr hh hl rfl _ v hv
            · exact inRange_insertBehindValues hr hh hl hprio hsplit v hv

end Pqueue

end Pth
