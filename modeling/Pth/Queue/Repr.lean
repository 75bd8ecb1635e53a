-- SUMMARY: The list a thread priority queue stands for, and what each queue function does to that list.
import Pth.Queue.Pqueue

/-!
# What a priority queue represents

`Pqueue.Repr q m l` says that the header `q` and the links `m` store the list `l`
of threads with their absolute priorities. Every queue function that gets a
represented queue succeeds, leaves a represented queue, and changes the links of
no thread outside the queue. -/

namespace Pth

open PrioList (keys Sorted Encodes)

variable {α : Type*} [DecidableEq α]

/-- The links of every thread outside `S` are the same. -/
def QNodes.EqOff (S : List α) (m m' : QNodes α) : Prop :=
  ∀ z, z ∉ S → m'.link.next z = m.link.next z ∧ m'.link.prev z = m.link.prev z ∧
    m'.qPrio z = m.qPrio z

namespace Pqueue

/-- The queue stores the threads of `l` with their absolute priorities. -/
structure Repr (q : Pqueue α) (m : QNodes α) (l : List (α × ℤ)) : Prop where
  head : q.qHead = (keys l).head?
  num : q.qNum = l.length
  nodup : (keys l).Nodup
  cycle : m.link.Cycle (keys l)
  prio : Encodes m.qPrio l
  sorted : Sorted l

omit [DecidableEq α] in
theorem Repr.init (m : QNodes α) : (Pqueue.init : Pqueue α).Repr m [] where
  head := rfl
  num := rfl
  nodup := List.nodup_nil
  cycle := Links.cycle_nil _
  prio := PrioList.encodes_nil _
  sorted := List.Pairwise.nil

omit [DecidableEq α] in
/-- A queue only depends on the links of its own threads. -/
theorem Repr.congr {q : Pqueue α} {m m' : QNodes α} {l : List (α × ℤ)} {S : List α}
    (h : q.Repr m l) (hm : m.EqOff S m') (hd : ∀ t ∈ keys l, t ∉ S) : q.Repr m' l where
  head := h.head
  num := h.num
  nodup := h.nodup
  cycle := h.cycle.congr fun t ht => ⟨(hm t (hd t ht)).1, (hm t (hd t ht)).2.1⟩
  prio := h.prio.congr fun t ht => (hm t (hd t ht)).2.2
  sorted := h.sorted

omit [DecidableEq α] in
theorem Repr.head_cons {q : Pqueue α} {m : QNodes α} {e : α × ℤ} {l : List (α × ℤ)}
    (h : q.Repr m (e :: l)) : q.qHead = some e.1 := h.head

omit [DecidableEq α] in
theorem Repr.qPrio_head {q : Pqueue α} {m : QNodes α} {e : α × ℤ} {l : List (α × ℤ)}
    (h : q.Repr m (e :: l)) : m.qPrio e.1 = e.2 := h.prio.1 e rfl

omit [DecidableEq α] in
/-- A thread with another one before it is not the head. -/
theorem Repr.head_ne {q : Pqueue α} {m : QNodes α} {l : List (α × ℤ)} {A B : List α} {x y : α}
    (hr : q.Repr m l) (hl : keys l = A ++ x :: y :: B) : q.qHead ≠ some y := by
  have hnd := hr.nodup
  rw [hr.head, hl]
  rw [hl] at hnd
  cases A with
  | nil =>
    rintro h
    obtain rfl : x = y := by simpa using h
    simp at hnd
  | cons a A =>
    rintro h
    obtain rfl : a = y := by simpa using h
    simp at hnd

/-! ## Inserting -/

/-- The search loop stops at the last thread that is not below the wanted
    priority. The induction is on the part of the queue it has not passed. -/
theorem insertLoop_eq {q : Pqueue α} {m : QNodes α} {l A B : List (α × ℤ)}
    {h : α} {c : α × ℤ} {prio : ℤ} {n : Nat} (hr : q.Repr m l) (hh : q.qHead = some h)
    (hl : l = A ++ c :: B) (hc : prio ≤ c.2) (hn : B.length < n) :
    ∃ A' d B', l = A' ++ d :: B' ∧ insertLoop m h prio n c.1 c.2 = some d ∧ prio ≤ d.2 ∧
      ∀ e, B'.head? = some e → e.2 < prio := by
  induction B generalizing A c n with
  | nil =>
    obtain ⟨n, rfl⟩ : ∃ k, n = k + 1 := ⟨n - 1, by omega⟩
    have hedge : m.link.Edge c.1 h :=
      hr.cycle.edge_last (by simp [hl]) (by rw [← hr.head, hh])
    refine ⟨A, c, [], hl, ?_, hc, by simp⟩
    simp [insertLoop, hedge.1]
  | cons d B ih =>
    obtain ⟨n, rfl⟩ : ∃ k, n = k + 1 := ⟨n - 1, by omega⟩
    have hkeys : keys l = keys A ++ c.1 :: d.1 :: keys B := by simp [hl]
    have hedge : m.link.Edge c.1 d.1 := Links.Cycle.edge (hkeys ▸ hr.cycle)
    have hgap : m.qPrio d.1 = c.2 - d.2 := by
      have hch := hr.prio.2
      rw [hl, List.isChain_append_cons_cons] at hch
      exact hch.2.1
    -- the threads behind `c` are not the head
    have hdh : d.1 ≠ h := by
      rintro rfl
      exact hr.head_ne hkeys hh
    have hsub : c.2 - (c.2 - d.2) = d.2 := by omega
    by_cases hd : prio ≤ d.2
    · obtain ⟨A', d', B', hl', hloop, hd', hB'⟩ :=
        ih (A := A ++ [c]) (c := d) (n := n) (by simp [hl]) hd (by simpa using hn)
      refine ⟨A', d', B', hl', ?_, hd', hB'⟩
      simpa [insertLoop, hedge.1, hgap, hdh, hsub, hd] using hloop
    · refine ⟨A, c, d :: B, hl, ?_, hc, ?_⟩
      · simp [insertLoop, hedge.1, hgap, hsub, hd]
      · intro e he
        obtain rfl : d = e := by simpa using he
        omega

/-- `pth_pqueue_insert` into an empty queue. -/
private theorem insertFirst_repr (q : Pqueue α) (m : QNodes α) (prio : ℤ) (t : α)
    (hq : q.qNum = 0) :
    (({ (insertFirst m prio t).1 with qNum := q.qNum + 1 } : Pqueue α).Repr
      (insertFirst m prio t).2 [(t, prio)]) ∧ m.EqOff [t] (insertFirst m prio t).2 := by
  refine ⟨⟨rfl, by simp [hq], by simp, ?_, ?_, by simp [Sorted]⟩, ?_⟩
  · simp [insertFirst, keys, Links.cycle_singleton]
  · simp [insertFirst, PrioList.encodes_singleton]
  · intro z hz
    have hzt : z ≠ t := by simpa using hz
    simp [insertFirst, hzt]

/-- A thread that goes before the head. -/
private theorem insertHead_repr {q : Pqueue α} {m : QNodes α} {e : α × ℤ}
    {l : List (α × ℤ)} {prio : ℤ} {t : α} (hr : q.Repr m (e :: l))
    (ht : t ∉ keys (e :: l)) (hlt : e.2 < prio) :
    ∃ q' m', insert q m prio t = some (q', m') ∧ q'.Repr m' ((t, prio) :: e :: l) ∧
      m.EqOff (t :: keys (e :: l)) m' := by
  obtain ⟨x, hx⟩ : ∃ x, (keys (e :: l)).getLast? = some x := by
    rw [← Option.isSome_iff_exists, List.getLast?_isSome]
    simp
  have hedge : m.link.Edge x e.1 := hr.cycle.edge_last hx rfl
  have hte : t ≠ e.1 := by rintro rfl; simp at ht
  have hnum : q.qNum ≠ 0 := by rw [hr.num]; simp; omega
  have hins : insert q m prio t = some
      ({ qHead := some t, qNum := q.qNum + 1 },
       { link := m.link.link x t e.1,
         qPrio := Function.update (Function.update m.qPrio t prio) e.1 (prio - m.qPrio e.1) }) := by
    simp [insert, hr.head_cons, hnum, hr.qPrio_head, hlt, hedge.2, hte.symm]
  refine ⟨_, _, hins, ⟨rfl, ?_, ?_, ?_, ?_, ?_⟩, ?_⟩
  · simp [hr.num]
  · exact List.nodup_cons.mpr ⟨ht, hr.nodup⟩
  · exact Links.Cycle.link (A := []) (B := keys (e :: l)) hr.cycle hr.nodup ht (by simpa using hx) rfl
  · exact hr.prio.cons hr.nodup ht
  · refine List.pairwise_cons.mpr ⟨?_, hr.sorted⟩
    intro b hb
    rcases List.mem_cons.mp hb with rfl | hb
    · exact Int.le_of_lt hlt
    · exact Int.le_trans ((List.pairwise_cons.mp hr.sorted).1 b hb) (Int.le_of_lt hlt)
  · intro z hz
    obtain ⟨hzt, hzl⟩ := not_or.mp (fun h => hz (List.mem_cons.mpr h))
    have hze : z ≠ e.1 := by rintro rfl; simp at hzl
    have hzx : z ≠ x := by rintro rfl; exact hzl (List.mem_of_getLast? hx)
    have hlink := Links.link_of_ne (L := m.link) hzx hzt hze
    exact ⟨hlink.1, hlink.2, by simp [hzt, hze]⟩

/-- A thread that goes behind the thread `c`, where the search loop stops. -/
private theorem insertBehind_repr {q : Pqueue α} {m : QNodes α} {A B : List (α × ℤ)}
    {h : α} {c : α × ℤ} {prio : ℤ} {t : α} (hr : q.Repr m (A ++ c :: B))
    (hh : q.qHead = some h) (ht : t ∉ keys (A ++ c :: B)) (hge : ¬ m.qPrio h < prio)
    (hloop : insertLoop m h prio q.qNum.toNat h (m.qPrio h) = some c)
    (hs : Sorted (A ++ c :: (t, prio) :: B)) :
    ∃ q' m', insert q m prio t = some (q', m') ∧ q'.Repr m' (A ++ c :: (t, prio) :: B) ∧
      m.EqOff (t :: keys (A ++ c :: B)) m' := by
  have hkeys : keys (A ++ c :: B) = keys (A ++ [c]) ++ keys B := by simp
  have hnum : q.qNum ≠ 0 := by rw [hr.num]; simp; omega
  have htc : t ≠ c.1 := by rintro rfl; simp at ht
  have hnd := hr.nodup
  have hnd' : (keys (A ++ c :: (t, prio) :: B)).Nodup := by
    have hperm : (keys (A ++ c :: (t, prio) :: B)).Perm (t :: keys (A ++ c :: B)) := by
      simpa using PrioList.keys_middle_perm (A ++ [c]) B (t, prio)
    exact hperm.nodup_iff.mpr (List.nodup_cons.mpr ⟨ht, hnd⟩)
  have hlen : ((A ++ c :: (t, prio) :: B).length : ℤ) = q.qNum + 1 := by
    rw [hr.num]; simp; omega
  have hhead : q.qHead = (keys (A ++ c :: (t, prio) :: B)).head? := by
    rw [hr.head]; cases A <;> rfl
  have hoff : ∀ {z y : α}, z ∉ t :: keys (A ++ c :: B) → y ∈ keys (A ++ c :: B) →
      z ≠ t ∧ z ≠ c.1 ∧ z ≠ y := by
    intro z y hz hy
    refine ⟨?_, ?_, ?_⟩
    · rintro rfl; simp at hz
    · rintro rfl; simp at hz
    · rintro rfl; exact hz (List.mem_cons_of_mem _ hy)
  cases B with
  | nil =>
    have hedge : m.link.Edge c.1 h := hr.cycle.edge_last (by simp) (by rw [← hr.head, hh])
    have hins : insert q m prio t = some
        ({ q with qNum := q.qNum + 1 },
         { link := m.link.link c.1 t h,
           qPrio := Function.update m.qPrio t (c.2 - prio) }) := by
      simp [insert, hh, hnum, hge, hloop, hedge.1]
    have hhc : h ∈ keys (A ++ [c]) := List.mem_of_mem_head? (by rw [← hr.head]; exact hh)
    refine ⟨_, _, hins, ⟨hhead, hlen.symm, hnd', ?_, ?_, hs⟩, ?_⟩
    · have hcyc := Links.Cycle.link_end (x := c.1) (t := t) (y := h) hr.cycle hnd ht
        (by simp) (by rw [← hr.head, hh])
      simpa using hcyc
    · simpa using hr.prio.insert_last ht
    · intro z hz
      obtain ⟨hzt, hzc, hzh⟩ := hoff hz hhc
      have hlink := Links.link_of_ne (L := m.link) hzc hzt hzh
      exact ⟨hlink.1, hlink.2, by simp [hzt]⟩
  | cons d B =>
    have hedge : m.link.Edge c.1 d.1 :=
      Links.Cycle.edge (A := keys A) (B := keys B) (by simpa using hr.cycle)
    have hd : d.1 ∈ keys (A ++ c :: d :: B) := by simp
    have hdh : d.1 ≠ h := by
      rintro rfl
      exact hr.head_ne (A := keys A) (x := c.1) (B := keys B) (by simp) hh
    have hdt : d.1 ≠ t := by rintro rfl; exact ht hd
    have hins : insert q m prio t = some
        ({ q with qNum := q.qNum + 1 },
         { link := m.link.link c.1 t d.1,
           qPrio := Function.update (Function.update m.qPrio t (c.2 - prio)) d.1
             (m.qPrio d.1 - (c.2 - prio)) }) := by
      simp [insert, hh, hnum, hge, hloop, hedge.1, hdh, hdt]
    refine ⟨_, _, hins, ⟨hhead, hlen.symm, hnd', ?_, ?_, hs⟩, ?_⟩
    · have hcyc := Links.Cycle.link (A := keys (A ++ [c])) (B := keys (d :: B)) (t := t)
        (x := c.1) (y := d.1) (hkeys ▸ hr.cycle) (hkeys ▸ hnd) (hkeys ▸ ht)
        (by rw [List.getLast?_append]; simp) (by simp)
      simpa using hcyc
    · exact hr.prio.insert_middle hnd ht
    · intro z hz
      obtain ⟨hzt, hzc, hzd⟩ := hoff hz hd
      have hlink := Links.link_of_ne (L := m.link) hzc hzt hzd
      exact ⟨hlink.1, hlink.2, by simp [hzt, hzd]⟩

/-- `pth_pqueue_insert` inserts behind every thread of greater or equal priority. -/
theorem insert_repr {q : Pqueue α} {m : QNodes α} {l : List (α × ℤ)} {t : α}
    (hr : q.Repr m l) (prio : ℤ) (ht : t ∉ keys l) :
    ∃ q' m', insert q m prio t = some (q', m') ∧ q'.Repr m' (PrioList.insert prio t l) ∧
      m.EqOff (t :: keys l) m' := by
  cases l with
  | nil =>
    have hnum : q.qNum = 0 := hr.num
    obtain ⟨hrepr, hoff⟩ := insertFirst_repr q m prio t hnum
    refine ⟨_, _, ?_, hrepr, hoff⟩
    have hnone : q.qHead = none := hr.head
    simp [insert, hnone]
  | cons e l =>
    by_cases hlt : e.2 < prio
    · rw [PrioList.insert_front (by simpa using hlt)]
      exact insertHead_repr hr ht hlt
    · have hge : ¬ m.qPrio e.1 < prio := by rw [hr.qPrio_head]; exact hlt
      obtain ⟨A, c, B, hl, hloop, hc, hB⟩ :=
        insertLoop_eq (A := []) (n := q.qNum.toNat) hr hr.head_cons rfl
          (Int.not_lt.mp hlt) (by rw [hr.num]; simp)
      have hA : ∀ a ∈ A ++ [c], prio ≤ a.2 := by
        have hs := hr.sorted
        rw [hl, show A ++ c :: B = (A ++ [c]) ++ B by simp] at hs
        intro a ha
        rcases List.mem_append.mp ha with ha | ha
        · have := (List.pairwise_append.mp (List.pairwise_append.mp hs).1).2.2 a ha c (by simp)
          omega
        · obtain rfl : a = c := by simpa using ha
          exact hc
      have hins : PrioList.insert prio t (e :: l) = A ++ c :: (t, prio) :: B := by
        rw [hl, show A ++ c :: B = (A ++ [c]) ++ B by simp, PrioList.insert_append hA hB]
        simp
      have hs := hins ▸ hr.sorted.insert (p := prio) (t := t)
      have hh := hr.head_cons
      rw [← hr.qPrio_head] at hloop
      rw [hins]
      rw [hl] at hr ht ⊢
      exact insertBehind_repr hr hh ht hge hloop hs

/-! ## Removing -/

private theorem deleteHead_repr {q : Pqueue α} {m : QNodes α} {e : α × ℤ}
    {l : List (α × ℤ)} (hr : q.Repr m (e :: l)) :
    ∃ q' m', deleteHead q m e.1 = some (q', m') ∧ q'.Repr m' l ∧
      m.EqOff (keys (e :: l)) m' := by
  cases l with
  | nil =>
    have hself : m.link.next e.1 = some e.1 := (Links.cycle_singleton.mp hr.cycle).1
    have hdel : deleteHead q m e.1 = some
        (Pqueue.init,
         { link := (m.link.setNext e.1 none).setPrev e.1 none,
           qPrio := Function.update m.qPrio e.1 0 }) := by
      simp [deleteHead, hself, Pqueue.init]
    refine ⟨_, _, hdel, Repr.init _, ?_⟩
    intro z hz
    have hze : z ≠ e.1 := by simpa using hz
    simp [hze]
  | cons d l =>
    obtain ⟨x, hx⟩ : ∃ x, (keys (d :: l)).getLast? = some x := by
      rw [← Option.isSome_iff_exists, List.getLast?_isSome]
      simp
    obtain ⟨hxe, hed⟩ := Links.Cycle.neighbours (A := []) (B := keys (d :: l)) (t := e.1)
      (x := x) (y := d.1) hr.cycle (by simpa using hx) (by simp)
    have hnd := hr.nodup
    have hde : d.1 ≠ e.1 := by rintro h; simp [h] at hnd
    have hdel : deleteHead q m e.1 = some
        ({ qHead := some d.1, qNum := q.qNum - 1 },
         { link := m.link.bypass x d.1,
           qPrio := Function.update
             (Function.update m.qPrio d.1 (m.qPrio e.1 - m.qPrio d.1)) e.1 0 }) := by
      simp [deleteHead, hxe.2, hed.1, hde]
    refine ⟨_, _, hdel, ⟨rfl, ?_, (List.nodup_cons.mp hnd).2, ?_, ?_, ?_⟩, ?_⟩
    · simp [hr.num]
    · exact Links.Cycle.bypass (A := []) (B := keys (d :: l)) (t := e.1) hr.cycle hnd
        (by simpa using hx) (by simp)
    · refine (hr.prio.tail hnd).congr fun t ht => Function.update_of_ne ?_ _ _
      rintro rfl
      exact (List.nodup_cons.mp hnd).1 ht
    · exact (List.pairwise_cons.mp hr.sorted).2
    · intro z hz
      have hze : z ≠ e.1 := by rintro rfl; simp at hz
      have hzd : z ≠ d.1 := by rintro rfl; simp at hz
      have hzx : z ≠ x := by
        rintro rfl
        exact hz (List.mem_cons_of_mem _ (List.mem_of_getLast? hx))
      have hby := Links.bypass_of_ne (L := m.link) hzx hzd
      exact ⟨hby.1, hby.2, by simp [hze, hzd]⟩

theorem delmax_nil {q : Pqueue α} {m : QNodes α} (hr : q.Repr m []) :
    delmax q m = some (none, q, m) := by
  have hnone : q.qHead = none := hr.head
  simp [delmax, hnone]

/-- `pth_pqueue_delmax` takes out the first thread. -/
theorem delmax_cons {q : Pqueue α} {m : QNodes α} {e : α × ℤ} {l : List (α × ℤ)}
    (hr : q.Repr m (e :: l)) :
    ∃ q' m', delmax q m = some (some e.1, q', m') ∧ q'.Repr m' l ∧
      m.EqOff (keys (e :: l)) m' := by
  obtain ⟨q', m', hdel, hrepr, hoff⟩ := deleteHead_repr hr
  exact ⟨q', m', by simp [delmax, hr.head_cons, hdel], hrepr, hoff⟩

/-- `pth_pqueue_delete` takes out exactly the given thread. -/
theorem delete_repr {q : Pqueue α} {m : QNodes α} {A B : List (α × ℤ)} {e : α × ℤ}
    (hr : q.Repr m (A ++ e :: B)) :
    ∃ q' m', delete q m e.1 = some (q', m') ∧ q'.Repr m' (A ++ B) ∧
      m.EqOff (keys (A ++ e :: B)) m' := by
  cases A using List.reverseRecOn with
  | nil =>
    obtain ⟨q', m', hdel, hrepr, hoff⟩ := deleteHead_repr hr
    exact ⟨q', m', by simp [delete, hr.head_cons, hdel], hrepr, hoff⟩
  | append_singleton A c _ =>
    have hkeys : keys (A ++ [c] ++ e :: B) = keys A ++ c.1 :: e.1 :: keys B := by simp
    have hnd := hr.nodup
    obtain ⟨h, hh⟩ : ∃ h, (keys (A ++ [c])).head? = some h := by
      exact ⟨_, List.head?_eq_some_head (by simp)⟩
    have hhead : q.qHead = some h := by
      rw [hr.head, PrioList.keys_append, List.head?_append_of_ne_nil _ (by simp), hh]
    have hmem : h ∈ keys (A ++ [c]) := List.mem_of_mem_head? hh
    have hhe : h ≠ e.1 := by
      rintro rfl
      rw [PrioList.keys_append] at hnd
      exact (List.nodup_append.mp hnd).2.2 _ hmem _ (by simp) rfl
    have hnum : ((A ++ [c] ++ B).length : ℤ) = q.qNum - 1 := by
      rw [hr.num]; simp; omega
    have hhead' : q.qHead = (keys (A ++ [c] ++ B)).head? := by
      rw [PrioList.keys_append, List.head?_append_of_ne_nil _ (by simp), hh, hhead]
    have hnd' : (keys (A ++ [c] ++ B)).Nodup := by
      refine hnd.sublist (List.Sublist.map _ ?_)
      exact (List.sublist_cons_self e B).append_left (A ++ [c])
    have hec : e.1 ∉ keys (A ++ [c] ++ B) :=
      (List.nodup_cons.mp ((PrioList.keys_middle_perm _ _ _).nodup_iff.mp hnd)).1
    have hoffz : ∀ {z y : α}, z ∉ keys (A ++ [c] ++ e :: B) → y ∈ keys (A ++ [c] ++ e :: B) →
        z ≠ e.1 ∧ z ≠ c.1 ∧ z ≠ y := by
      intro z y hz hy
      refine ⟨?_, ?_, ?_⟩
      · rintro rfl; simp at hz
      · rintro rfl; simp at hz
      · rintro rfl; exact hz hy
    cases B with
    | nil =>
      obtain ⟨hce, heh⟩ := Links.Cycle.neighbours (A := keys (A ++ [c])) (B := []) (t := e.1)
        (x := c.1) (y := h) (by simpa using hr.cycle) (by simp) (by simpa using hh)
      have hdel : delete q m e.1 = some
          ({ q with qNum := q.qNum - 1 },
           { link := m.link.bypass c.1 h, qPrio := Function.update m.qPrio e.1 0 }) := by
        simp [delete, hhead, hhe, hce.2, heh.1]
      refine ⟨_, _, hdel, ⟨hhead', hnum.symm, hnd', ?_, ?_, hr.sorted.remove⟩, ?_⟩
      · have hcyc := Links.Cycle.bypass (A := keys (A ++ [c])) (B := []) (t := e.1)
          (x := c.1) (y := h) (by simpa using hr.cycle) (by simpa using hnd) (by simp)
          (by simpa using hh)
        simpa using hcyc
      · have hlast : Encodes m.qPrio (A ++ [c] ++ []) := by
          simpa using PrioList.Encodes.remove_last hr.prio
        refine hlast.congr fun t ht => Function.update_of_ne ?_ _ _
        rintro rfl
        exact hec ht
      · intro z hz
        have hh' : h ∈ keys (A ++ [c] ++ [e]) := by
          rw [PrioList.keys_append]
          exact List.mem_append_left _ hmem
        obtain ⟨hze, hzc, hzh⟩ := hoffz hz hh'
        have hby := Links.bypass_of_ne (L := m.link) hzc hzh
        exact ⟨hby.1, hby.2, by simp [hze]⟩
    | cons d B =>
      obtain ⟨hce, hed⟩ := Links.Cycle.neighbours (A := keys (A ++ [c])) (B := keys (d :: B))
        (t := e.1) (x := c.1) (y := d.1) (by simpa using hr.cycle)
        (by rw [List.getLast?_append]; simp) (by simp)
      have hdh : d.1 ≠ h := by
        rintro rfl
        rw [PrioList.keys_append] at hnd
        exact (List.nodup_append.mp hnd).2.2 _ hmem _ (by simp) rfl
      have hdel : delete q m e.1 = some
          ({ q with qNum := q.qNum - 1 },
           { link := m.link.bypass c.1 d.1,
             qPrio := Function.update
               (Function.update m.qPrio d.1 (m.qPrio d.1 + m.qPrio e.1)) e.1 0 }) := by
        simp [delete, hhead, hhe, hce.2, hed.1, hdh]
      refine ⟨_, _, hdel, ⟨hhead', hnum.symm, hnd', ?_, ?_, hr.sorted.remove⟩, ?_⟩
      · have hcyc := Links.Cycle.bypass (A := keys (A ++ [c])) (B := keys (d :: B)) (t := e.1)
          (x := c.1) (y := d.1) (by simpa using hr.cycle) (by simpa using hnd)
          (by rw [List.getLast?_append]; simp) (by simp)
        simpa using hcyc
      · have hmid : Encodes (Function.update m.qPrio d.1 (m.qPrio d.1 + m.qPrio e.1))
            (A ++ [c] ++ d :: B) := by
          simpa using PrioList.Encodes.remove_middle (A := A) (c := c) (e := e) (d := d) (B := B)
            (by simpa using hr.prio) (by simpa using hnd)
        refine hmid.congr fun t ht => Function.update_of_ne ?_ _ _
        rintro rfl
        exact hec ht
      · intro z hz
        obtain ⟨hze, hzc, hzd⟩ := hoffz hz (by simp : d.1 ∈ keys (A ++ [c] ++ e :: d :: B))
        have hby := Links.bypass_of_ne (L := m.link) hzc hzd
        exact ⟨hby.1, hby.2, by simp [hze, hzd]⟩

/-! ## Moving to the top and aging -/

omit [DecidableEq α] in
theorem favoritePrio_cons {q : Pqueue α} {m : QNodes α} {e : α × ℤ} {l : List (α × ℤ)}
    (hr : q.Repr m (e :: l)) : favoritePrio q m = e.2 + 1 := by
  simp only [favoritePrio, hr.head_cons, hr.qPrio_head]

/-- `pth_pqueue_favorite` moves a thread of the queue to the front. -/
theorem favorite_repr {q : Pqueue α} {m : QNodes α} {l : List (α × ℤ)} {t : α}
    (hr : q.Repr m l) (ht : t ∈ keys l) :
    ∃ q' m', favorite q m t = some (true, q', m') ∧ q'.Repr m' (PrioList.favorite t l) ∧
      m.EqOff (keys l) m' := by
  obtain ⟨p, A, B, rfl⟩ := PrioList.exists_split ht
  have hnum : q.qNum ≠ 0 := by rw [hr.num]; simp; omega
  have hhead : q.qHead ≠ none := by
    rw [hr.head]
    simp
  cases hAB : A ++ B with
  | nil =>
    obtain ⟨rfl, rfl⟩ := List.append_eq_nil_iff.mp hAB
    have hone : q.qNum = 1 := hr.num
    refine ⟨q, m, by simp [favorite, hhead, hone], hr, fun z _ => ⟨rfl, rfl, rfl⟩⟩
  | cons d r =>
    have hlen : (A ++ (t, p) :: B).length ≠ 1 := by
      have := congrArg List.length hAB
      simp at this ⊢
      omega
    have hone : q.qNum ≠ 1 := by rw [hr.num]; omega
    have hrem := PrioList.remove_append_cons hr.nodup
    obtain ⟨q₁, m₁, hdel, hr₁, hoff₁⟩ := delete_repr hr
    rw [hAB] at hr₁ hrem
    have hnot : t ∉ keys (d :: r) := by
      rw [← hrem, PrioList.mem_keys_remove]
      exact fun h => h.2 rfl
    obtain ⟨q₂, m₂, hins, hr₂, hoff₂⟩ := insert_repr hr₁ (favoritePrio q₁ m₁) hnot
    have hfront : ∀ e, (d :: r).head? = some e → e.2 < d.2 + 1 := by
      intro e he
      obtain rfl : d = e := by simpa using he
      omega
    rw [favoritePrio_cons hr₁, PrioList.insert_front hfront] at hr₂
    refine ⟨q₂, m₂, by simp [favorite, hhead, hnum, hone, hdel, hins], ?_, ?_⟩
    · rw [PrioList.favorite_of_remove hlen hrem]
      exact hr₂
    · intro z hz
      have hz₂ : z ∉ t :: keys (d :: r) := by
        rw [← hAB]
        simp only [PrioList.keys_append, PrioList.keys_cons, List.mem_append,
          List.mem_cons] at hz ⊢
        tauto
      obtain ⟨hn₁, hp₁, hv₁⟩ := hoff₁ z hz
      obtain ⟨hn₂, hp₂, hv₂⟩ := hoff₂ z hz₂
      exact ⟨hn₂.trans hn₁, hp₂.trans hp₁, hv₂.trans hv₁⟩

/-- `pth_pqueue_increase` raises every priority of the queue by one. -/
theorem increase_repr {q : Pqueue α} {m : QNodes α} {l : List (α × ℤ)} (hr : q.Repr m l) :
    q.Repr (increase q m) (PrioList.increase l) ∧ m.EqOff (keys l) (increase q m) := by
  cases l with
  | nil =>
    have hnone : q.qHead = none := hr.head
    have hinc : increase q m = m := by simp [increase, hnone]
    rw [hinc]
    exact ⟨hr, fun z _ => ⟨rfl, rfl, rfl⟩⟩
  | cons e l =>
    have hinc : increase q m =
        { m with qPrio := Function.update m.qPrio e.1 (m.qPrio e.1 + 1) } := by
      simp [increase, hr.head_cons]
    have hkeys := PrioList.keys_increase (e :: l)
    rw [hinc]
    refine ⟨⟨?_, ?_, ?_, ?_, hr.prio.increase hr.nodup, hr.sorted.increase⟩, ?_⟩
    · rw [hkeys]; exact hr.head
    · rw [hr.num]; simp [PrioList.increase]
    · rw [hkeys]; exact hr.nodup
    · rw [hkeys]; exact hr.cycle
    · intro z hz
      have hze : z ≠ e.1 := by rintro rfl; simp at hz
      exact ⟨rfl, rfl, Function.update_of_ne hze _ _⟩

/-! ## Walking -/

omit [DecidableEq α] in
/-- `pth_pqueue_tail` is the last thread. -/
theorem tail_eq {q : Pqueue α} {m : QNodes α} {l : List (α × ℤ)} (hr : q.Repr m l) :
    tail q m = (keys l).getLast? := by
  cases l with
  | nil =>
    have hnone : q.qHead = none := hr.head
    simp [tail, hnone]
  | cons e l =>
    obtain ⟨x, hx⟩ : ∃ x, (keys (e :: l)).getLast? = some x :=
      ⟨_, List.getLast?_eq_some_getLast (by simp)⟩
    simp only [tail, hr.head_cons, hx]
    exact (hr.cycle.edge_last hx rfl).2

/-- `pth_pqueue_walk` forward from a thread of the queue. -/
theorem walk_next {q : Pqueue α} {m : QNodes α} {l : List (α × ℤ)} {A B : List α} {t : α}
    (hr : q.Repr m l) (hl : keys l = A ++ t :: B) : walk q m t .next = B.head? := by
  unfold walk
  rw [hr.head, hl]
  exact Links.Cycle.next_unless_head (hl ▸ hr.cycle) (hl ▸ hr.nodup)

/-- `pth_pqueue_walk` backward from a thread of the queue. -/
theorem walk_prev {q : Pqueue α} {m : QNodes α} {l : List (α × ℤ)} {A B : List α} {t : α}
    (hr : q.Repr m l) (hl : keys l = A ++ t :: B) : walk q m t .prev = A.getLast? := by
  have hcyc := hr.cycle
  have hhead := hr.head
  rw [hl] at hcyc hhead
  cases A using List.reverseRecOn with
  | nil => simp [walk, hhead]
  | append_singleton A a _ =>
    have hedge : m.link.Edge a t := Links.Cycle.edge (by simpa using hcyc)
    have ht : some t ≠ q.qHead := (hr.head_ne (A := A) (by simpa using hl)).symm
    simp [walk, hedge.2, ht]

/-- Walking forward from the head meets the threads of the list in order, and
    stops behind the last one. -/
theorem walkList_next {q : Pqueue α} {m : QNodes α} {l : List (α × ℤ)} {n : Nat}
    (hr : q.Repr m l) (hn : l.length ≤ n) :
    walkList (fun t => q.walk m t .next) n q.head = keys l := by
  unfold head walk
  rw [hr.head]
  exact hr.cycle.walkList_next hr.nodup (by simpa using hn)

/-- Walking backward from the tail meets the same threads the other way round. -/
theorem walkList_prev {q : Pqueue α} {m : QNodes α} {l : List (α × ℤ)} {n : Nat}
    (hr : q.Repr m l) (hn : l.length ≤ n) :
    walkList (fun t => q.walk m t .prev) n (q.tail m) = (keys l).reverse := by
  rw [tail_eq hr]
  exact walkList_backward (fun A x B hl => walk_prev hr hl) (by simpa using hn)

private theorem containsLoop_eq {q : Pqueue α} {m : QNodes α} {l : List (α × ℤ)}
    {A B : List α} {t : α} {n : Nat} (hr : q.Repr m l) (hl : keys l = A ++ B)
    (hn : B.length ≤ n) : containsLoop q m t n B.head? = some (decide (t ∈ B)) := by
  induction B generalizing A n with
  | nil => cases n <;> rfl
  | cons b B ih =>
    obtain ⟨n, rfl⟩ : ∃ k, n = k + 1 := ⟨n - 1, by simp at hn; omega⟩
    by_cases hbt : b = t
    · simp [containsLoop, hbt]
    · have hrest := ih (A := A ++ [b]) (n := n) (by simpa using hl) (by simpa using hn)
      have hne : ¬ t = b := fun h => hbt h.symm
      simp only [List.head?_cons, containsLoop, hbt, if_false, walk_next hr hl, hrest,
        List.mem_cons, hne, false_or]

/-- `pth_pqueue_contains` is membership. -/
theorem contains_eq {q : Pqueue α} {m : QNodes α} {l : List (α × ℤ)} (hr : q.Repr m l)
    (t : α) : contains q m t = some (decide (t ∈ keys l)) := by
  unfold contains head
  rw [hr.head]
  refine containsLoop_eq (A := []) hr rfl ?_
  rw [hr.num]
  simp

end Pqueue

end Pth
