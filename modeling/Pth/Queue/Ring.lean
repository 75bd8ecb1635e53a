-- SUMMARY: The rings of pth_ring.c, doubly linked circles of nodes with a hook, and what they represent.
import Pth.Lib.Cycle

/-!
# Rings

A ring is a hook into a circle of nodes. The nodes are members of larger objects,
so one map of links serves all rings. As with the priority queues, following a
null pointer gives `none`. -/

namespace Pth

variable {ν : Type*} [DecidableEq ν]

/-- `struct pth_ring_st`; `r_nodes` is an `unsigned int`. -/
structure Ring (ν : Type*) where
  rHook : Option ν
  rNodes : ℤ

namespace Ring

/-- `pth_ring_init` -/
def init : Ring ν := { rHook := none, rNodes := 0 }

/-- `pth_ring_first` -/
def first (r : Ring ν) : Option ν := r.rHook

/-- `pth_ring_next` -/
def next (r : Ring ν) (L : Links ν) (rn : ν) : Option ν :=
  if L.next rn = r.rHook then none else L.next rn

/-- `pth_ring_last` -/
def last (r : Ring ν) (L : Links ν) : Option ν := r.rHook.bind L.prev

/-- `pth_ring_prev`, which follows the hook; a ring with nodes has one. -/
def prev (r : Ring ν) (L : Links ν) (rn : ν) : Option ν :=
  r.rHook.bind fun h => if L.prev rn = L.prev h then none else L.prev rn

/-- `pth_ring_insert_after` -/
def insertAfter (r : Ring ν) (L : Links ν) (rn₁ rn₂ : ν) : Option (Ring ν × Links ν) :=
  (L.next rn₁).map fun rx => ({ r with rNodes := r.rNodes + 1 }, L.link rn₁ rn₂ rx)

/-- `pth_ring_insert_before` -/
def insertBefore (r : Ring ν) (L : Links ν) (rn₁ rn₂ : ν) : Option (Ring ν × Links ν) :=
  (L.prev rn₁).map fun rp => ({ r with rNodes := r.rNodes + 1 }, L.link rp rn₂ rn₁)

/-- `pth_ring_delete` -/
def delete (r : Ring ν) (L : Links ν) (rn : ν) : Option (Ring ν × Links ν) :=
  if r.rHook = some rn ∧ L.prev rn = some rn ∧ L.next rn = some rn then
    some ({ rHook := none, rNodes := r.rNodes - 1 }, L)
  else do
    let hook := if r.rHook = some rn then L.next rn else r.rHook
    let rp ← L.prev rn
    let rx ← L.next rn
    some ({ rHook := hook, rNodes := r.rNodes - 1 }, L.bypass rp rx)

/-- `pth_ring_prepend` -/
def prepend (r : Ring ν) (L : Links ν) (rn : ν) : Option (Ring ν × Links ν) :=
  match r.rHook with
  | none =>
    some ({ rHook := some rn, rNodes := r.rNodes + 1 },
          (L.setNext rn (some rn)).setPrev rn (some rn))
  | some h => do
    let hp ← L.prev h
    some ({ rHook := some rn, rNodes := r.rNodes + 1 }, L.link hp rn h)

/-- `pth_ring_append` -/
def append (r : Ring ν) (L : Links ν) (rn : ν) : Option (Ring ν × Links ν) :=
  match r.rHook with
  | none =>
    some ({ rHook := some rn, rNodes := r.rNodes + 1 },
          (L.setNext rn (some rn)).setPrev rn (some rn))
  | some h => do
    let hp ← L.prev h
    some ({ r with rNodes := r.rNodes + 1 }, L.link hp rn h)

/-- `pth_ring_pop` -/
def pop (r : Ring ν) (L : Links ν) : Option (Option ν × Ring ν × Links ν) :=
  match r.first with
  | none => some (none, r, L)
  | some rn => (r.delete L rn).map fun r' => (some rn, r')

/-- `pth_ring_favorite` -/
def favorite (r : Ring ν) (L : Links ν) (rn : ν) : Option (Bool × Ring ν × Links ν) :=
  if r.rHook = none then some (false, r, L)
  -- element is perhaps already at ring hook
  else if r.rHook = some rn then some (true, r, L)
  else do
    let (r', L') ← r.delete L rn
    let r'' ← r'.prepend L' rn
    some (true, r'')

/-- `pth_ring_dequeue` -/
def dequeue (r : Ring ν) (L : Links ν) : Option (Option ν × Ring ν × Links ν) :=
  match r.last L with
  | none => some (none, r, L)
  | some rn => (r.delete L rn).map fun r' => (some rn, r')

/-- The loop of `pth_ring_contains`, standing at `rn`. -/
def containsLoop (r : Ring ν) (L : Links ν) (rns : ν) : Nat → ν → Option Bool
  | 0, _ => none
  | n + 1, rn =>
    if rn = rns then some true
    else (L.next rn).bind fun rx =>
      if r.rHook = some rx then some false else containsLoop r L rns n rx

/-- `pth_ring_contains` -/
def contains (r : Ring ν) (L : Links ν) (rns : ν) : Option Bool :=
  match r.rHook with
  | none => some false
  | some h => containsLoop r L rns r.rNodes.toNat h

/-- The ring links the nodes of `l`, with the first one at the hook. -/
structure Repr (r : Ring ν) (L : Links ν) (l : List ν) : Prop where
  hook : r.rHook = l.head?
  nodes : r.rNodes = l.length
  nodup : l.Nodup
  cycle : L.Cycle l

omit [DecidableEq ν] in
theorem Repr.init (L : Links ν) : (Ring.init : Ring ν).Repr L [] where
  hook := rfl
  nodes := rfl
  nodup := List.nodup_nil
  cycle := Links.cycle_nil L

omit [DecidableEq ν] in
/-- A ring only depends on the links of its own nodes. -/
theorem Repr.congr {r : Ring ν} {L L' : Links ν} {l S : List ν} (h : r.Repr L l)
    (hL : L.EqOff S L') (hd : ∀ x ∈ l, x ∉ S) : r.Repr L' l where
  hook := h.hook
  nodes := h.nodes
  nodup := h.nodup
  cycle := h.cycle.congr fun x hx => hL x (hd x hx)

omit [DecidableEq ν] in
theorem Repr.last {r : Ring ν} {L : Links ν} {l : List ν} (h : r.Repr L l) :
    r.last L = l.getLast? := by
  unfold Ring.last
  rw [h.hook]
  cases l with
  | nil => rfl
  | cons a l =>
    obtain ⟨y, hy⟩ : ∃ y, (a :: l).getLast? = some y := ⟨_, List.getLast?_eq_some_getLast (by simp)⟩
    rw [hy]
    exact (h.cycle.edge_last hy rfl).2

/-- `pth_ring_append` puts the node at the end. -/
theorem append_repr {r : Ring ν} {L : Links ν} {l : List ν} {x : ν} (hr : r.Repr L l)
    (hx : x ∉ l) :
    ∃ r' L', append r L x = some (r', L') ∧ r'.Repr L' (l ++ [x]) ∧ L.EqOff (x :: l) L' := by
  cases l with
  | nil =>
    have hhook : r.rHook = none := hr.hook
    obtain ⟨hcycle, hoff⟩ := Links.cycle_self L x
    refine ⟨{ rHook := some x, rNodes := r.rNodes + 1 }, _, by simp only [append, hhook],
      ⟨rfl, ?_, List.nodup_singleton x, hcycle⟩, hoff⟩
    simp [hr.nodes]
  | cons a l =>
    have hhook : r.rHook = some a := hr.hook
    obtain ⟨y, hprev, hcycle, hoff⟩ := hr.cycle.link_last hr.nodup hx
    have happ : append r L x = some ({ r with rNodes := r.rNodes + 1 }, L.link y x a) := by
      simp [append, hhook, hprev]
    refine ⟨_, _, happ, ⟨hr.hook, ?_, ?_, hcycle⟩, hoff⟩
    · simp [hr.nodes]
    · rw [← List.concat_eq_append]
      exact hr.nodup.concat hx

/-- `pth_ring_prepend` puts the node in front. -/
theorem prepend_repr {r : Ring ν} {L : Links ν} {l : List ν} {x : ν} (hr : r.Repr L l)
    (hx : x ∉ l) :
    ∃ r' L', prepend r L x = some (r', L') ∧ r'.Repr L' (x :: l) ∧ L.EqOff (x :: l) L' := by
  cases l with
  | nil =>
    have hhook : r.rHook = none := hr.hook
    obtain ⟨hcycle, hoff⟩ := Links.cycle_self L x
    refine ⟨{ rHook := some x, rNodes := r.rNodes + 1 }, _, by simp only [prepend, hhook],
      ⟨rfl, ?_, List.nodup_singleton x, hcycle⟩, hoff⟩
    simp [hr.nodes]
  | cons a l =>
    have hhook : r.rHook = some a := hr.hook
    obtain ⟨y, hprev, hcycle, hoff⟩ := hr.cycle.link_last hr.nodup hx
    have hpre : prepend r L x =
        some ({ rHook := some x, rNodes := r.rNodes + 1 }, L.link y x a) := by
      simp [prepend, hhook, hprev]
    exact ⟨_, _, hpre, ⟨rfl, by simp [hr.nodes], hr.nodup.cons hx, hcycle.rotate⟩, hoff⟩

/-- `pth_ring_insert_after` puts the node behind a node of the ring. -/
theorem insertAfter_repr {r : Ring ν} {L : Links ν} {A B : List ν} {a x : ν}
    (hr : r.Repr L (A ++ a :: B)) (hx : x ∉ A ++ a :: B) :
    ∃ r' L', insertAfter r L a x = some (r', L') ∧ r'.Repr L' (A ++ a :: x :: B) := by
  have hl : A ++ a :: B = A ++ [a] ++ B := by simp
  rw [hl] at hr hx
  obtain ⟨y, hy⟩ : ∃ y, (B ++ (A ++ [a])).head? = some y := ⟨_, List.head?_eq_some_head (by simp)⟩
  have hlast : (B ++ (A ++ [a])).getLast? = some a := by simp
  have hnext := (hr.cycle.rotate.edge_last hlast hy).1
  have hins : insertAfter r L a x = some ({ r with rNodes := r.rNodes + 1 }, L.link a x y) := by
    simp [insertAfter, hnext]
  have hmid : (A ++ [a] ++ x :: B).Perm (x :: (A ++ [a] ++ B)) := List.perm_middle
  have hperm : (A ++ a :: x :: B).Perm (x :: (A ++ [a] ++ B)) := by simpa using hmid
  refine ⟨_, _, hins, ⟨?_, ?_, hperm.nodup_iff.mpr (hr.nodup.cons hx), ?_⟩⟩
  · cases A <;> exact hr.hook
  · rw [hr.nodes, hperm.length_eq]
    simp
  · simpa using hr.cycle.link hr.nodup hx hlast hy

/-- `pth_ring_insert_before` puts the node in front of a node of the ring; in front of the
    first node is the end of the ring. -/
theorem insertBefore_repr {r : Ring ν} {L : Links ν} {A B : List ν} {a x : ν}
    (hr : r.Repr L (A ++ a :: B)) (hx : x ∉ A ++ a :: B) :
    ∃ r' L', insertBefore r L a x = some (r', L') ∧
      r'.Repr L' (if A = [] then a :: B ++ [x] else A ++ x :: a :: B) := by
  obtain ⟨y, hy⟩ : ∃ y, (a :: B ++ A).getLast? = some y := ⟨_, List.getLast?_eq_some_getLast (by simp)⟩
  have hprev := (hr.cycle.rotate.edge_last hy rfl).2
  have hins : insertBefore r L a x = some ({ r with rNodes := r.rNodes + 1 }, L.link y x a) := by
    simp [insertBefore, hprev]
  have hcycle := hr.cycle.link hr.nodup hx hy rfl
  have hnd : (A ++ x :: a :: B).Nodup := List.nodup_middle.mpr (hr.nodup.cons hx)
  refine ⟨_, _, hins, ?_⟩
  cases A with
  | nil =>
    refine ⟨hr.hook, by simp [hr.nodes], ?_, Links.Cycle.rotate (A := [x]) hcycle⟩
    exact List.nodup_append_comm.mp hnd
  | cons b A =>
    exact ⟨hr.hook, by simp [hr.nodes]; omega, hnd, hcycle⟩

/-- `pth_ring_delete` takes the node out. The links of the node itself stay as
    they are. -/
theorem delete_repr {r : Ring ν} {L : Links ν} {A B : List ν} {x : ν}
    (hr : r.Repr L (A ++ x :: B)) :
    ∃ r' L', delete r L x = some (r', L') ∧ r'.Repr L' (A ++ B) ∧ L.EqOff (A ++ B) L' := by
  have hlen : r.rNodes - 1 = (A ++ B).length := by rw [hr.nodes]; simp; omega
  have hperm : (A ++ x :: B).Perm (x :: (A ++ B)) := List.perm_middle
  obtain ⟨hx, hnd⟩ := List.nodup_cons.mp (hperm.nodup_iff.mp hr.nodup)
  cases hBA : B ++ A with
  | nil =>
    obtain ⟨rfl, rfl⟩ := List.append_eq_nil_iff.mp hBA
    have hself := Links.cycle_singleton.mp hr.cycle
    have hhook : r.rHook = some x := hr.hook
    have hdel : delete r L x = some ({ rHook := none, rNodes := r.rNodes - 1 }, L) := by
      simp only [delete, hhook, hself.1, hself.2, and_self, if_true]
    refine ⟨_, _, hdel, ?_, ?_⟩
    · exact ⟨rfl, hlen, hnd, Links.cycle_nil L⟩
    · exact fun z _ => ⟨rfl, rfl⟩
  | cons y l =>
    obtain ⟨w, hw⟩ : ∃ w, (B ++ A).getLast? = some w :=
      ⟨_, List.getLast?_eq_some_getLast (by simp [hBA])⟩
    have hy : (B ++ A).head? = some y := by rw [hBA]; rfl
    have hmem : ∀ z ∈ B ++ A, z ∈ A ++ B := fun z hz => by
      rw [List.mem_append] at hz ⊢
      exact hz.symm
    have hyx : y ≠ x := by
      rintro rfl
      exact hx (hmem _ (List.mem_of_mem_head? hy))
    obtain ⟨hwx, hxy⟩ := hr.cycle.neighbours hw hy
    have hdel : delete r L x = some
        ({ rHook := if r.rHook = some x then some y else r.rHook, rNodes := r.rNodes - 1 },
         L.bypass w y) := by
      simp [delete, hwx.2, hxy.1, hyx]
    refine ⟨_, _, hdel, ⟨?_, hlen, hnd, hr.cycle.bypass hr.nodup hw hy⟩, ?_⟩
    · cases A with
      | nil =>
        have hhook : r.rHook = some x := hr.hook
        simpa [hhook] using hy.symm
      | cons a A =>
        have hhook : r.rHook = some a := hr.hook
        have hax : a ≠ x := by rintro rfl; simp at hx
        simp [hhook, hax]
    · intro z hz
      have hzw : z ≠ w := by rintro rfl; exact hz (hmem _ (List.mem_of_getLast? hw))
      have hzy : z ≠ y := by rintro rfl; exact hz (hmem _ (List.mem_of_mem_head? hy))
      exact Links.bypass_of_ne hzw hzy

/-- `pth_ring_next` is the node behind a node of the ring, and null at the last
    one. -/
theorem next_eq {r : Ring ν} {L : Links ν} {A B : List ν} {x : ν}
    (hr : r.Repr L (A ++ x :: B)) : next r L x = B.head? := by
  unfold next
  rw [hr.hook]
  exact hr.cycle.next_unless_head hr.nodup

/-- `pth_ring_prev` is the node before a node of the ring, and null at the first one. -/
theorem prev_eq {r : Ring ν} {L : Links ν} {A B : List ν} {x : ν}
    (hr : r.Repr L (A ++ x :: B)) : prev r L x = A.getLast? := by
  obtain ⟨h, hh⟩ : ∃ h, r.rHook = some h :=
    ⟨_, hr.hook.trans (List.head?_eq_some_head (by simp))⟩
  have hlast : L.prev h = (A ++ x :: B).getLast? := by
    simpa only [Ring.last, hh, Option.bind_some] using hr.last
  simp only [prev, hh, Option.bind_some, hlast]
  exact hr.cycle.prev_unless_last hr.nodup

/-- Walking with `pth_ring_next` from the first node meets every node once. -/
theorem walkList_next {r : Ring ν} {L : Links ν} {l : List ν} {n : Nat} (hr : r.Repr L l)
    (hn : l.length ≤ n) : walkList (r.next L) n r.first = l := by
  unfold Ring.next Ring.first
  rw [hr.hook]
  exact hr.cycle.walkList_next hr.nodup hn

/-- Walking with `pth_ring_prev` from the last node is the reverse. -/
theorem walkList_prev {r : Ring ν} {L : Links ν} {l : List ν} {n : Nat} (hr : r.Repr L l)
    (hn : l.length ≤ n) : walkList (r.prev L) n (r.last L) = l.reverse := by
  rw [hr.last]
  refine walkList_backward ?_ hn
  rintro A x B rfl
  exact prev_eq hr

/-- The loop of `pth_ring_contains` looks at the nodes that are left. -/
private theorem containsLoop_eq {r : Ring ν} {L : Links ν} {A B : List ν} {x y : ν} {n : Nat}
    (hr : r.Repr L (A ++ x :: B)) (hn : B.length < n) :
    containsLoop r L y n x = some (decide (y ∈ x :: B)) := by
  induction B generalizing A x n with
  | nil =>
    obtain ⟨n, rfl⟩ : ∃ k, n = k + 1 := ⟨n - 1, by simp at hn; omega⟩
    obtain ⟨h, hh⟩ : ∃ h, (A ++ [x]).head? = some h := ⟨_, List.head?_eq_some_head (by simp)⟩
    have hedge := hr.cycle.edge_last (x := x) (by simp) hh
    by_cases hxy : x = y
    · simp [containsLoop, hxy]
    · simp [containsLoop, hxy, Ne.symm hxy, hedge.1, hr.hook, hh]
  | cons b B ih =>
    obtain ⟨n, rfl⟩ : ∃ k, n = k + 1 := ⟨n - 1, by omega⟩
    have hedge : L.Edge x b := hr.cycle.edge
    have hhook : r.rHook ≠ some b := by
      intro hb
      simpa [next, hedge.1, hb] using next_eq hr
    have hloop := ih (A := A ++ [x]) (x := b) (n := n) (by simpa using hr) (by simpa using hn)
    by_cases hxy : x = y
    · simp [containsLoop, hxy]
    · simp [containsLoop, hxy, Ne.symm hxy, hedge.1, hhook, hloop]

/-- `pth_ring_contains` is membership. -/
theorem contains_eq {r : Ring ν} {L : Links ν} {l : List ν} (hr : r.Repr L l) (y : ν) :
    contains r L y = some (decide (y ∈ l)) := by
  unfold contains
  rw [hr.hook]
  cases l with
  | nil => rfl
  | cons a l => exact containsLoop_eq (A := []) hr (by rw [hr.nodes]; simp)

/-- `pth_ring_pop` takes the first node. -/
theorem pop_repr {r : Ring ν} {L : Links ν} {l : List ν} (hr : r.Repr L l) :
    ∃ r' L', pop r L = some (l.head?, r', L') ∧ r'.Repr L' l.tail ∧ L.EqOff l.tail L' := by
  cases l with
  | nil =>
    have hhook : r.first = none := hr.hook
    exact ⟨r, L, by simp [pop, hhook], hr, fun z _ => ⟨rfl, rfl⟩⟩
  | cons a l =>
    have hhook : r.first = some a := hr.hook
    obtain ⟨r', L', hdel, hr', hoff⟩ := delete_repr (A := []) hr
    exact ⟨r', L', by simp [pop, hhook, hdel], hr', hoff⟩

/-- `pth_ring_dequeue` takes the last node. -/
theorem dequeue_repr {r : Ring ν} {L : Links ν} {l : List ν} (hr : r.Repr L l) :
    ∃ r' L', dequeue r L = some (l.getLast?, r', L') ∧ r'.Repr L' l.dropLast := by
  rcases List.eq_nil_or_concat l with rfl | ⟨A, x, rfl⟩
  · have hlast : r.last L = none := hr.last
    exact ⟨r, L, by simp [dequeue, hlast], hr⟩
  · rw [List.concat_eq_append] at hr ⊢
    have hlast : r.last L = some x := by simpa using hr.last
    obtain ⟨r', L', hdel, hr', -⟩ := delete_repr (B := []) hr
    exact ⟨r', L', by simp [dequeue, hlast, hdel], by simpa using hr'⟩

/-- `pth_ring_favorite` puts a node of the ring in front. -/
theorem favorite_repr {r : Ring ν} {L : Links ν} {A B : List ν} {x : ν}
    (hr : r.Repr L (A ++ x :: B)) :
    ∃ r' L', favorite r L x = some (true, r', L') ∧ r'.Repr L' (x :: (A ++ B)) := by
  cases A with
  | nil =>
    have hhook : r.rHook = some x := hr.hook
    exact ⟨r, L, by simp [favorite, hhook], hr⟩
  | cons a A =>
    have hhook : r.rHook = some a := hr.hook
    have hx : x ∉ a :: A ++ B := (List.nodup_cons.mp (List.nodup_middle.mp hr.nodup)).1
    have hax : a ≠ x := by rintro rfl; simp at hx
    obtain ⟨r₁, L₁, hdel, hr₁, -⟩ := delete_repr hr
    obtain ⟨r₂, L₂, hpre, hr₂, -⟩ := prepend_repr hr₁ hx
    exact ⟨r₂, L₂, by simp [favorite, hhook, hax, hdel, hpre], hr₂⟩

end Ring

end Pth
