-- SUMMARY: Circular doubly linked lists over a successor and a predecessor map.
import Mathlib.Data.List.Chain
import Mathlib.Data.List.Nodup
import Mathlib.Logic.Function.Basic
import Mathlib.Tactic.Common

/-!
# Circular doubly linked lists

An intrusive ring keeps its links inside the nodes. Here the two link fields of
all nodes are two maps, and `Links.Cycle` says that a list of nodes, closed at
its first node, is linked in both directions. The first node of the list is the
one the ring is entered at. Nodes outside the list are unconstrained, so several
rings share one pair of maps.
-/

/-- The forward and the backward link of every node; `none` is the null
    pointer. -/
@[ext]
structure Links (α : Type*) where
  next : α → Option α
  prev : α → Option α

namespace Links

variable {α : Type*}

/-- `x` is directly followed by `y`, and both nodes know it. -/
def Edge (L : Links α) (x y : α) : Prop := L.next x = some y ∧ L.prev y = some x

/-- The list `l` with its first node repeated at the end. -/
def closed (l : List α) : List α := l ++ l.head?.toList

/-- The nodes of `l` form a ring that is entered at the first of them. -/
def Cycle (L : Links α) (l : List α) : Prop := (closed l).IsChain L.Edge

@[simp] theorem closed_nil : closed ([] : List α) = [] := rfl

@[simp] theorem closed_cons (x : α) (l : List α) : closed (x :: l) = x :: (l ++ [x]) := rfl

@[simp] theorem cycle_nil (L : Links α) : L.Cycle [] := List.IsChain.nil

theorem cycle_singleton {L : Links α} {x : α} :
    L.Cycle [x] ↔ L.next x = some x ∧ L.prev x = some x := by
  simp [Cycle, Edge]

/-! ## Locality -/

/-- A chain of edges reads the forward link of every node but the last one, and
    the backward link of every node but the first one. -/
theorem chain_congr {L L' : Links α} {l : List α}
    (hnext : ∀ x ∈ l.dropLast, L'.next x = L.next x)
    (hprev : ∀ x ∈ l.tail, L'.prev x = L.prev x)
    (h : l.IsChain L.Edge) : l.IsChain L'.Edge := by
  induction h with
  | nil => exact .nil
  | singleton a => exact .singleton a
  | @cons_cons a b l hab hl ih =>
    have hedge : L'.Edge a b :=
      ⟨(hnext a (by simp)).trans hab.1, (hprev b (by simp)).trans hab.2⟩
    refine .cons_cons hedge (ih (fun x hx => hnext x ?_) (fun x hx => hprev x ?_))
    · rw [List.dropLast_cons_cons]
      exact List.mem_cons_of_mem _ hx
    · exact List.mem_cons_of_mem _ hx

/-- A ring only depends on the links of its own nodes. -/
theorem Cycle.congr {L L' : Links α} {l : List α}
    (h : ∀ x ∈ l, L'.next x = L.next x ∧ L'.prev x = L.prev x)
    (hl : L.Cycle l) : L'.Cycle l := by
  cases l with
  | nil => exact L'.cycle_nil
  | cons a l =>
    refine chain_congr (fun x hx => (h x ?_).1) (fun x hx => (h x ?_).2) hl
    · rw [closed_cons, ← List.cons_append, List.dropLast_concat] at hx
      exact hx
    · simp only [closed_cons, List.tail_cons, List.mem_append, List.mem_singleton] at hx
      rcases hx with hx | rfl
      · exact List.mem_cons_of_mem _ hx
      · exact List.mem_cons_self

/-! ## Entering the ring at another node -/

private theorem cycle_append_iff {L : Links α} {a b : α} {A B : List α} :
    L.Cycle ((a :: A) ++ (b :: B)) ↔
      (a :: A ++ [b]).IsChain L.Edge ∧ (b :: B ++ [a]).IsChain L.Edge := by
  have hclosed : closed ((a :: A) ++ (b :: B)) = (a :: A) ++ b :: (B ++ [a]) := by simp
  rw [Cycle, hclosed, List.isChain_split]
  rfl

/-- Turning the ring: the nodes of a prefix may be moved to the end. -/
theorem Cycle.rotate {L : Links α} {A B : List α} (h : L.Cycle (A ++ B)) :
    L.Cycle (B ++ A) := by
  cases A with
  | nil => simpa using h
  | cons a A =>
    cases B with
    | nil => simpa using h
    | cons b B =>
      rw [cycle_append_iff] at h ⊢
      exact ⟨h.2, h.1⟩

/-! ## Following the links -/

theorem Cycle.edge {L : Links α} {A B : List α} {x y : α}
    (h : L.Cycle (A ++ x :: y :: B)) : L.Edge x y := by
  have hrot : L.Cycle (x :: y :: (B ++ A)) := by
    simpa using Cycle.rotate (A := A) (B := x :: y :: B) h
  exact (List.isChain_cons_cons.mp hrot).1

/-- The last node is followed by the first one. -/
theorem Cycle.edge_last {L : Links α} {l : List α} {x y : α}
    (h : L.Cycle l) (hx : l.getLast? = some x) (hy : l.head? = some y) : L.Edge x y := by
  obtain ⟨l', rfl⟩ := List.getLast?_eq_some_iff.mp hx
  cases l' with
  | nil =>
    obtain rfl : x = y := by simpa using hy
    exact cycle_singleton.mp h
  | cons a A =>
    obtain rfl : a = y := by simpa using hy
    have hrot : L.Cycle (x :: a :: A) := by
      simpa using Cycle.rotate (A := a :: A) (B := [x]) h
    exact (List.isChain_cons_cons.mp hrot).1

/-- Every node of a ring has a successor and a predecessor. -/
theorem Cycle.exists_edges {L : Links α} {l : List α} {x : α} (h : L.Cycle l) (hx : x ∈ l) :
    (∃ y, L.Edge x y) ∧ ∃ y, L.Edge y x := by
  obtain ⟨A, B, rfl⟩ := List.append_of_mem hx
  constructor
  · have hrot : L.Cycle (B ++ (A ++ [x])) := by
      refine Cycle.rotate ?_
      simpa using h
    exact ⟨_, hrot.edge_last (by simp) (List.head?_eq_some_head (by simp))⟩
  · exact ⟨_, h.rotate.edge_last (List.getLast?_eq_some_getLast (by simp)) rfl⟩

/-- The neighbours of a node of the ring, as its own links give them. -/
theorem Cycle.neighbours {L : Links α} {A B : List α} {x t y : α}
    (h : L.Cycle (A ++ t :: B)) (hx : (B ++ A).getLast? = some x)
    (hy : (B ++ A).head? = some y) : L.Edge x t ∧ L.Edge t y := by
  have hrot : L.Cycle ((B ++ A) ++ [t]) := by
    simpa using Cycle.rotate (A := A ++ [t]) (B := B) (by simpa using h)
  constructor
  · obtain ⟨l', hl'⟩ := List.getLast?_eq_some_iff.mp hx
    rw [hl'] at hrot
    exact Cycle.edge (A := l') (B := []) (by simpa using hrot)
  · refine hrot.edge_last (by simp) ?_
    cases hBA : B ++ A with
    | nil => simp [hBA] at hy
    | cons b l => simpa [hBA] using hy

/-- Closing a list that a node is appended to: the new node comes before the
    first one. -/
private theorem closed_concat {l : List α} {t y : α} (hy : l.head? = some y) :
    closed (l ++ [t]) = l ++ [t, y] := by
  cases l with
  | nil => simp at hy
  | cons a l =>
    obtain rfl : a = y := by simpa using hy
    simp

/-- In a duplicate-free list the last node is not among the others, and the
    first node is not among its successors. -/
private theorem nodup_ends {l : List α} {x y z : α} (hn : (l ++ [x]).Nodup)
    (hy : (l ++ [x]).head? = some y) :
    (z ∈ (l ++ [x]).dropLast → z ≠ x) ∧ (z ∈ (l ++ [x]).tail → z ≠ y) := by
  rw [List.dropLast_concat]
  refine ⟨?_, ?_⟩
  · rintro hz rfl
    exact (List.nodup_append.mp hn).2.2 z hz z (by simp) rfl
  · rintro hz rfl
    cases hl : l ++ [x] with
    | nil => simp at hl
    | cons a A =>
      rw [hl] at hn hy hz
      obtain rfl : a = z := by simpa using hy
      exact (List.nodup_cons.mp hn).1 hz

variable [DecidableEq α]

/-! ## Updating links -/

def setNext (L : Links α) (x : α) (y : Option α) : Links α :=
  { L with next := Function.update L.next x y }

def setPrev (L : Links α) (x : α) (y : Option α) : Links α :=
  { L with prev := Function.update L.prev x y }

@[simp] theorem setNext_next (L : Links α) (x : α) (y : Option α) :
    (L.setNext x y).next = Function.update L.next x y := rfl

@[simp] theorem setNext_prev (L : Links α) (x : α) (y : Option α) :
    (L.setNext x y).prev = L.prev := rfl

@[simp] theorem setPrev_next (L : Links α) (x : α) (y : Option α) :
    (L.setPrev x y).next = L.next := rfl

@[simp] theorem setPrev_prev (L : Links α) (x : α) (y : Option α) :
    (L.setPrev x y).prev = Function.update L.prev x y := rfl

/-- Put `t` between the neighbours `x` and `y`. -/
def link (L : Links α) (x t y : α) : Links α :=
  (((L.setPrev t (some x)).setNext t (some y)).setNext x (some t)).setPrev y (some t)

/-- Join the neighbours `x` and `y` of a node, so that the node is passed
    over. -/
def bypass (L : Links α) (x y : α) : Links α :=
  (L.setNext x (some y)).setPrev y (some x)

/-- Only the inserted node and its two neighbours change their links. -/
theorem link_of_ne {L : Links α} {x t y z : α} (hx : z ≠ x) (ht : z ≠ t) (hy : z ≠ y) :
    (L.link x t y).next z = L.next z ∧ (L.link x t y).prev z = L.prev z := by
  simp [link, hx, ht, hy]

theorem bypass_of_ne {L : Links α} {x y z : α} (hx : z ≠ x) (hy : z ≠ y) :
    (L.bypass x y).next z = L.next z ∧ (L.bypass x y).prev z = L.prev z := by
  simp [bypass, hx, hy]

/-- The links of every node outside `S` are the same. -/
def EqOff (S : List α) (L L' : Links α) : Prop :=
  ∀ z, z ∉ S → L'.next z = L.next z ∧ L'.prev z = L.prev z

/-- Two chains are joined at the end of the first one and the front of the second. -/
theorem chain_join {L : Links α} {P Q : List α} {x y : α}
    (hP : (P ++ [x]).IsChain L.Edge) (hQ : (y :: Q).IsChain L.Edge)
    (hx : x ∉ P) (hxQ : x ∉ (y :: Q).dropLast) (hyP : y ∉ (P ++ [x]).tail) (hy : y ∉ Q) :
    (P ++ x :: y :: Q).IsChain (L.bypass x y).Edge := by
  rw [List.isChain_append_cons_cons]
  refine ⟨chain_congr ?_ ?_ hP, by simp [Edge, bypass], chain_congr ?_ ?_ hQ⟩
  · intro z hz
    rw [List.dropLast_concat] at hz
    simp [bypass, ne_of_mem_of_not_mem hz hx]
  · intro z hz
    simp [bypass, ne_of_mem_of_not_mem hz hyP]
  · intro z hz
    simp [bypass, ne_of_mem_of_not_mem hz hxQ]
  · intro z hz
    simp [bypass, ne_of_mem_of_not_mem hz hy]

/-! ## Inserting and removing a node -/

theorem Cycle.link_end {L : Links α} {l : List α} {x t y : α}
    (h : L.Cycle l) (hn : l.Nodup) (ht : t ∉ l)
    (hx : l.getLast? = some x) (hy : l.head? = some y) :
    (L.link x t y).Cycle (l ++ [t]) := by
  obtain ⟨l', rfl⟩ := List.getLast?_eq_some_iff.mp hx
  have htx : x ≠ t := by rintro rfl; simp at ht
  have hty : y ≠ t := by rintro rfl; exact ht (List.mem_of_mem_head? hy)
  have hclosed : closed (l' ++ [x] ++ [t]) = l' ++ x :: t :: [y] := by
    rw [closed_concat hy]
    simp
  have hold : (l' ++ [x]).IsChain L.Edge := by
    have hc : closed (l' ++ [x]) = l' ++ x :: [y] := by simp [closed, hy]
    rw [Cycle, hc, List.isChain_split] at h
    exact h.1
  -- inside the old list no source is `x` and no target is `y`
  have hkeep : (l' ++ [x]).IsChain (L.link x t y).Edge := by
    refine chain_congr (fun z hz => ?_) (fun z hz => ?_) hold
    · have hzx := (nodup_ends (z := z) hn hy).1 hz
      have hzt : z ≠ t := by rintro rfl; exact ht (List.dropLast_subset _ hz)
      simp [link, hzx, hzt]
    · have hzy := (nodup_ends (z := z) hn hy).2 hz
      have hzt : z ≠ t := by rintro rfl; exact ht (List.mem_of_mem_tail hz)
      simp [link, hzy, hzt]
  rw [Cycle, hclosed, List.isChain_append_cons_cons]
  refine ⟨hkeep, ?_, ?_⟩
  · simp [Edge, link, hty.symm]
  · simp [Edge, link, htx.symm]

/-- A node that is linked in between the last node and the first one. -/
theorem Cycle.link_last {L : Links α} {a t : α} {l : List α} (h : L.Cycle (a :: l))
    (hn : (a :: l).Nodup) (ht : t ∉ a :: l) :
    ∃ x, L.prev a = some x ∧ (L.link x t a).Cycle (a :: l ++ [t]) ∧
      L.EqOff (t :: a :: l) (L.link x t a) := by
  obtain ⟨x, hx⟩ : ∃ x, (a :: l).getLast? = some x := ⟨_, List.getLast?_eq_some_getLast (by simp)⟩
  refine ⟨x, (h.edge_last hx rfl).2, h.link_end hn ht hx rfl, fun z hz => ?_⟩
  simp only [List.mem_cons, not_or] at hz
  refine link_of_ne ?_ hz.1 hz.2.1
  rintro rfl
  have hmem := List.mem_of_getLast? hx
  simp_all

/-- A node that is linked to itself. -/
theorem cycle_self (L : Links α) (x : α) :
    ((L.setNext x (some x)).setPrev x (some x)).Cycle [x] ∧
      L.EqOff [x] ((L.setNext x (some x)).setPrev x (some x)) := by
  refine ⟨cycle_singleton.mpr (by simp), fun z hz => ?_⟩
  have hzx : z ≠ x := by simpa using hz
  simp [hzx]

/-- A node linked in behind the nodes of `A`, which the nodes of `B` follow. -/
theorem Cycle.link {L : Links α} {A B : List α} {x t y : α}
    (h : L.Cycle (A ++ B)) (hn : (A ++ B).Nodup) (ht : t ∉ A ++ B)
    (hx : (B ++ A).getLast? = some x) (hy : (B ++ A).head? = some y) :
    (L.link x t y).Cycle (A ++ t :: B) := by
  have hend := h.rotate.link_end (List.nodup_append_comm.mp hn)
    (by simpa [or_comm] using ht) hx hy
  simpa using Cycle.rotate (A := B) (B := A ++ [t]) (by simpa using hend)

theorem Cycle.bypass_end {L : Links α} {l : List α} {x t y : α}
    (h : L.Cycle (l ++ [t])) (hn : (l ++ [t]).Nodup)
    (hx : l.getLast? = some x) (hy : l.head? = some y) :
    (L.bypass x y).Cycle l := by
  obtain ⟨l', rfl⟩ := List.getLast?_eq_some_iff.mp hx
  have hn' : (l' ++ [x]).Nodup := (List.nodup_append.mp hn).1
  have hclosed : closed (l' ++ [x] ++ [t]) = l' ++ x :: t :: [y] := by
    rw [closed_concat hy]
    simp
  rw [Cycle, hclosed, List.isChain_append_cons_cons] at h
  have hc : closed (l' ++ [x]) = l' ++ x :: [y] := by simp [closed, hy]
  rw [Cycle, hc]
  refine chain_join h.1 (.singleton y) ?_ (by simp) ?_ (by simp)
  · intro hx'
    exact (nodup_ends hn' hy).1 (by simpa using hx') rfl
  · intro hy'
    exact (nodup_ends hn' hy).2 hy' rfl

/-- A node between the nodes of `A` and those of `B` is taken out of the ring. -/
theorem Cycle.bypass {L : Links α} {A B : List α} {x t y : α}
    (h : L.Cycle (A ++ t :: B)) (hn : (A ++ t :: B).Nodup)
    (hx : (B ++ A).getLast? = some x) (hy : (B ++ A).head? = some y) :
    (L.bypass x y).Cycle (A ++ B) := by
  have hrot : L.Cycle ((B ++ A) ++ [t]) := by
    simpa using Cycle.rotate (A := A ++ [t]) (B := B) (by simpa using h)
  have hperm : (A ++ t :: B).Perm ((B ++ A) ++ [t]) :=
    List.perm_middle.trans (((List.perm_append_comm : (A ++ B).Perm (B ++ A)).cons t).trans
      (List.perm_append_singleton t (B ++ A)).symm)
  exact (hrot.bypass_end (hperm.nodup_iff.mp hn) hx hy).rotate

/-- The node that a ring is entered at is taken out; a ring of one node becomes empty. -/
theorem Cycle.unlink {L : Links α} {A : List α} {t : α} (h : L.Cycle (t :: A))
    (hn : (t :: A).Nodup) :
    ∃ x y, L.prev t = some x ∧ L.next t = some y ∧ (L.bypass x y).Cycle A ∧
      L.EqOff (t :: A) (L.bypass x y) := by
  have hbypass : ∀ {x y}, x ∈ t :: A → y ∈ t :: A → L.EqOff (t :: A) (L.bypass x y) :=
    fun hx hy z hz => bypass_of_ne (ne_of_mem_of_not_mem hx hz).symm
      (ne_of_mem_of_not_mem hy hz).symm
  cases A with
  | nil =>
    obtain ⟨hnext, hprev⟩ := cycle_singleton.mp h
    exact ⟨t, t, hprev, hnext, cycle_nil _, hbypass (by simp) (by simp)⟩
  | cons y A =>
    obtain ⟨x, hx⟩ : ∃ x, (y :: A).getLast? = some x :=
      ⟨_, List.getLast?_eq_some_getLast (by simp)⟩
    have hx' : (y :: A ++ []).getLast? = some x := by simpa using hx
    obtain ⟨hxt, hty⟩ := Cycle.neighbours (A := []) h hx' rfl
    refine ⟨x, y, hxt.2, hty.1, Cycle.bypass (A := []) h hn hx' rfl, hbypass ?_ (by simp)⟩
    exact List.mem_cons_of_mem _ (List.mem_of_getLast? hx)

end Links

/-! ## Walking along a step function -/

/-- The nodes met by following `step` from a start node, at most `n` of them. -/
def walkList {α : Type*} (step : α → Option α) : Nat → Option α → List α
  | 0, _ => []
  | _ + 1, none => []
  | n + 1, some x => x :: walkList step n (step x)

/-- A walk along the nodes of `l` that stops behind the last one meets each of
    them once, however many steps it may take. -/
theorem walkList_eq {α : Type*} {step : α → Option α} {l : List α} {n : Nat}
    (hstep : l.IsChain fun x y => step x = some y)
    (hlast : ∀ x, l.getLast? = some x → step x = none) (hn : l.length ≤ n) :
    walkList step n l.head? = l := by
  induction l generalizing n with
  | nil => cases n <;> rfl
  | cons a l ih =>
    obtain ⟨n, rfl⟩ : ∃ m, n = m + 1 := ⟨n - 1, by simp at hn; omega⟩
    have hnext : step a = l.head? := by
      cases l with
      | nil => exact hlast a rfl
      | cons b l => exact (List.isChain_cons_cons.mp hstep).1
    have hrest : walkList step n l.head? = l := by
      refine ih hstep.of_cons (fun x hx => hlast x ?_) (by simpa using hn)
      rw [List.getLast?_cons, hx]
      rfl
    simp only [List.head?_cons, walkList, hnext, hrest]

/-- A walk forward, where each step leads to the next node of `l`. -/
theorem walkList_forward {α : Type*} {step : α → Option α} {l : List α} {n : Nat}
    (hstep : ∀ A x B, l = A ++ x :: B → step x = B.head?) (hn : l.length ≤ n) :
    walkList step n l.head? = l := by
  refine walkList_eq ?_ ?_ hn
  · refine List.isChain_iff_forall_rel_of_append_cons_cons.mpr fun {x y A B} hl => ?_
    exact hstep A x (y :: B) hl
  · intro x hx
    obtain ⟨A, hl⟩ := List.getLast?_eq_some_iff.mp hx
    exact hstep A x [] hl

/-- A walk backward, where each step leads to the node of `l` before. -/
theorem walkList_backward {α : Type*} {step : α → Option α} {l : List α} {n : Nat}
    (hstep : ∀ A x B, l = A ++ x :: B → step x = A.getLast?) (hn : l.length ≤ n) :
    walkList step n l.getLast? = l.reverse := by
  rw [← List.head?_reverse]
  refine walkList_forward (fun A x B hl => ?_) (by simpa using hn)
  rw [hstep B.reverse x A.reverse (by simpa using congrArg List.reverse hl), List.getLast?_reverse]

namespace Links

variable {α : Type*} [DecidableEq α] {L : Links α}

/-- One step forward that stops where it would come round to the start. -/
theorem Cycle.next_unless_head {A B : List α} {x : α} (h : L.Cycle (A ++ x :: B))
    (hn : (A ++ x :: B).Nodup) :
    (if L.next x = (A ++ x :: B).head? then none else L.next x) = B.head? := by
  cases B with
  | nil =>
    obtain ⟨y, hy⟩ : ∃ y, (A ++ [x]).head? = some y := ⟨_, List.head?_eq_some_head (by simp)⟩
    have hedge := h.edge_last (x := x) (y := y) (by simp) hy
    simp [hedge.1, hy]
  | cons b B =>
    have hedge : L.Edge x b := Cycle.edge h
    have hb : some b ≠ (A ++ x :: b :: B).head? := by
      cases A with
      | nil =>
        rintro heq
        obtain rfl : b = x := by simpa using heq
        simp at hn
      | cons a A =>
        rintro heq
        obtain rfl : b = a := by simpa using heq
        simp at hn
    rw [hedge.1, if_neg hb]
    rfl

/-- Walking round a circle meets every node once. -/
theorem Cycle.walkList_next {l : List α} {n : Nat} (h : L.Cycle l) (hnd : l.Nodup)
    (hn : l.length ≤ n) :
    walkList (fun x => if L.next x = l.head? then none else L.next x) n l.head? = l := by
  refine walkList_forward ?_ hn
  rintro A x B rfl
  exact h.next_unless_head hnd

/-- One step backward that stops where it would come round to the end. -/
theorem Cycle.prev_unless_last {A B : List α} {x : α} (h : L.Cycle (A ++ x :: B))
    (hn : (A ++ x :: B).Nodup) :
    (if L.prev x = (A ++ x :: B).getLast? then none else L.prev x) = A.getLast? := by
  obtain ⟨y, hy⟩ : ∃ y, (A ++ x :: B).getLast? = some y := ⟨_, List.getLast?_eq_some_getLast (by simp)⟩
  rcases List.eq_nil_or_concat A with rfl | ⟨A, b, rfl⟩
  · have hedge := h.edge_last hy rfl
    simp only [List.nil_append] at hy
    simp [hedge.2, hy]
  · rw [List.concat_eq_append] at h hn hy ⊢
    have hedge : L.Edge b x := Cycle.edge (A := A) (B := B) (by simpa using h)
    have hmem : y ∈ x :: B := by
      rw [List.getLast?_append_of_ne_nil _ (by simp)] at hy
      exact List.mem_of_getLast? hy
    have hby : b ≠ y := by
      rintro rfl
      exact (List.nodup_append.mp hn).2.2 b (by simp) b hmem rfl
    rw [hedge.2, hy, if_neg (by simpa using hby)]
    simp

end Links
