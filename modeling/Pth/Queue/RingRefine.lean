-- SUMMARY: Every sequence of calls on a ring refines operations on a list of nodes.
import Pth.Queue.Ring

/-!
# Runs of ring operations

The abstract ring is a list whose first node is the one at the hook, read as a
cyclic sequence: behind the last node comes the first one. Every sequence of
calls that keeps the preconditions of the source refines the operations on the
list. -/

namespace Pth

variable {ν : Type*} [DecidableEq ν]

/-! ## Operations on the list -/

namespace RingList

/-- `x` behind `a`. -/
def insertAfter (a x : ν) : List ν → List ν
  | [] => []
  | b :: l => if b = a then b :: x :: l else b :: insertAfter a x l

/-- `x` in front of `a`. The first node stays first, and in front of it is the end of the
    list. -/
def insertBefore (a x : ν) : List ν → List ν
  | [] => []
  | b :: l => if b = a then b :: l ++ [x] else b :: go l
where
  go : List ν → List ν
    | [] => []
    | b :: l => if b = a then x :: b :: l else b :: go l

theorem insertAfter_append_cons {A B : List ν} {a x : ν} (ha : a ∉ A) :
    insertAfter a x (A ++ a :: B) = A ++ a :: x :: B := by
  induction A with
  | nil => simp [insertAfter]
  | cons b A ih =>
    rw [List.mem_cons, not_or] at ha
    simp [insertAfter, Ne.symm ha.1, ih ha.2]

private theorem insertBefore_go {A B : List ν} {a x : ν} (ha : a ∉ A) :
    insertBefore.go a x (A ++ a :: B) = A ++ x :: a :: B := by
  induction A with
  | nil => simp [insertBefore.go]
  | cons b A ih =>
    rw [List.mem_cons, not_or] at ha
    simp [insertBefore.go, Ne.symm ha.1, ih ha.2]

theorem insertBefore_append_cons {A B : List ν} {a x : ν} (ha : a ∉ A) :
    insertBefore a x (A ++ a :: B) =
      if A = [] then a :: B ++ [x] else A ++ x :: a :: B := by
  cases A with
  | nil => simp [insertBefore]
  | cons b A =>
    rw [List.mem_cons, not_or] at ha
    simp [insertBefore, Ne.symm ha.1, insertBefore_go ha.2]

end RingList

/-! ## One call -/

/-- A call of one of the ring functions. -/
inductive RingOp (ν : Type*) where
  | init
  | prepend (rn : ν)
  | append (rn : ν)
  | insertAfter (rn₁ rn₂ : ν)
  | insertBefore (rn₁ rn₂ : ν)
  | delete (rn : ν)
  | pop
  | dequeue
  | favorite (rn : ν)

/-- What a call returns. -/
inductive RingRet (ν : Type*) where
  | void
  | node (rn : Option ν)
  | bool (b : Bool)
  deriving DecidableEq, Repr

namespace RingOp

/-- The call on the linked ring. -/
def exec (s : Ring ν × Links ν) : RingOp ν → Option (RingRet ν × Ring ν × Links ν)
  | .init => some (.void, Ring.init, s.2)
  | .prepend rn => (s.1.prepend s.2 rn).map fun s' => (.void, s')
  | .append rn => (s.1.append s.2 rn).map fun s' => (.void, s')
  | .insertAfter rn₁ rn₂ => (s.1.insertAfter s.2 rn₁ rn₂).map fun s' => (.void, s')
  | .insertBefore rn₁ rn₂ => (s.1.insertBefore s.2 rn₁ rn₂).map fun s' => (.void, s')
  | .delete rn => (s.1.delete s.2 rn).map fun s' => (.void, s')
  | .pop => (s.1.pop s.2).map fun r => (.node r.1, r.2)
  | .dequeue => (s.1.dequeue s.2).map fun r => (.node r.1, r.2)
  | .favorite rn => (s.1.favorite s.2 rn).map fun r => (.bool r.1, r.2)

/-- The call on the list. -/
def spec (l : List ν) : RingOp ν → RingRet ν × List ν
  | .init => (.void, [])
  | .prepend rn => (.void, rn :: l)
  | .append rn => (.void, l ++ [rn])
  | .insertAfter rn₁ rn₂ => (.void, RingList.insertAfter rn₁ rn₂ l)
  | .insertBefore rn₁ rn₂ => (.void, RingList.insertBefore rn₁ rn₂ l)
  | .delete rn => (.void, l.erase rn)
  | .pop => (.node l.head?, l.tail)
  | .dequeue => (.node l.getLast?, l.dropLast)
  | .favorite rn => (.bool true, rn :: l.erase rn)

/-- The preconditions of the source: only a new node is added, next to a member where a
    neighbour is given, and only a member is deleted or favored. -/
def Allowed (l : List ν) : RingOp ν → Prop
  | .init | .pop | .dequeue => True
  | .prepend rn | .append rn => rn ∉ l
  | .insertAfter rn₁ rn₂ | .insertBefore rn₁ rn₂ => rn₁ ∈ l ∧ rn₂ ∉ l
  | .delete rn | .favorite rn => rn ∈ l

/-- A member of a duplicate-free list, with what is in front of it and what is behind. -/
private theorem split {l : List ν} {a : ν} (hnd : l.Nodup) (ha : a ∈ l) :
    ∃ A B, l = A ++ a :: B ∧ a ∉ A ∧ l.erase a = A ++ B := by
  obtain ⟨A, B, rfl⟩ := List.append_of_mem ha
  have haA : a ∉ A := fun hA => (List.nodup_append.mp hnd).2.2 a hA a (by simp) rfl
  exact ⟨A, B, rfl, haA, by simp [List.erase_append_right _ haA]⟩

theorem exec_refines {r : Ring ν} {L : Links ν} {l : List ν} {op : RingOp ν}
    (hr : r.Repr L l) (hop : op.Allowed l) :
    ∃ r' L', op.exec (r, L) = some ((op.spec l).1, r', L') ∧ r'.Repr L' (op.spec l).2 := by
  cases op with
  | init => exact ⟨_, _, rfl, Ring.Repr.init L⟩
  | prepend x =>
    obtain ⟨r', L', hpre, hr', -⟩ := Ring.prepend_repr hr hop
    exact ⟨r', L', by simp [exec, spec, hpre], hr'⟩
  | append x =>
    obtain ⟨r', L', happ, hr', -⟩ := Ring.append_repr hr hop
    exact ⟨r', L', by simp [exec, spec, happ], hr'⟩
  | insertAfter a x =>
    obtain ⟨A, B, rfl, haA, -⟩ := split hr.nodup hop.1
    obtain ⟨r', L', hins, hr'⟩ := Ring.insertAfter_repr hr hop.2
    refine ⟨r', L', by simp [exec, spec, hins], ?_⟩
    simpa only [spec, RingList.insertAfter_append_cons haA] using hr'
  | insertBefore a x =>
    obtain ⟨A, B, rfl, haA, -⟩ := split hr.nodup hop.1
    obtain ⟨r', L', hins, hr'⟩ := Ring.insertBefore_repr hr hop.2
    refine ⟨r', L', by simp [exec, spec, hins], ?_⟩
    simpa only [spec, RingList.insertBefore_append_cons haA] using hr'
  | delete x =>
    obtain ⟨A, B, rfl, -, herase⟩ := split hr.nodup hop
    obtain ⟨r', L', hdel, hr', -⟩ := Ring.delete_repr hr
    exact ⟨r', L', by simp [exec, spec, hdel], by simpa only [spec, herase] using hr'⟩
  | pop =>
    obtain ⟨r', L', hpop, hr', -⟩ := Ring.pop_repr hr
    exact ⟨r', L', by simp [exec, spec, hpop], hr'⟩
  | dequeue =>
    obtain ⟨r', L', hdeq, hr'⟩ := Ring.dequeue_repr hr
    exact ⟨r', L', by simp [exec, spec, hdeq], hr'⟩
  | favorite x =>
    obtain ⟨A, B, rfl, -, herase⟩ := split hr.nodup hop
    obtain ⟨r', L', hfav, hr'⟩ := Ring.favorite_repr hr
    exact ⟨r', L', by simp [exec, spec, hfav], by simpa only [spec, herase] using hr'⟩

/-! ## Sequences of calls -/

/-- A sequence of calls on the linked ring. -/
def execAll (s : Ring ν × Links ν) :
    List (RingOp ν) → Option (List (RingRet ν) × Ring ν × Links ν)
  | [] => some ([], s)
  | op :: ops => do
    let (r, s') ← op.exec s
    let (rs, s'') ← execAll s' ops
    some (r :: rs, s'')

/-- A sequence of calls on the list. -/
def specAll (l : List ν) : List (RingOp ν) → List (RingRet ν) × List ν
  | [] => ([], l)
  | op :: ops =>
    let r := op.spec l
    let rs := specAll r.2 ops
    (r.1 :: rs.1, rs.2)

/-- Every call of the sequence keeps its precondition. -/
def AllowedAll (l : List ν) : List (RingOp ν) → Prop
  | [] => True
  | op :: ops => op.Allowed l ∧ AllowedAll (op.spec l).2 ops

theorem execAll_refines {r : Ring ν} {L : Links ν} {l : List ν} {ops : List (RingOp ν)}
    (hr : r.Repr L l) (hops : AllowedAll l ops) :
    ∃ r' L', execAll (r, L) ops = some ((specAll l ops).1, r', L') ∧
      r'.Repr L' (specAll l ops).2 := by
  induction ops generalizing r L l with
  | nil => exact ⟨r, L, rfl, hr⟩
  | cons op ops ih =>
    obtain ⟨hop, hops⟩ := hops
    obtain ⟨r₁, L₁, hexec, hr₁⟩ := exec_refines hr hop
    obtain ⟨r₂, L₂, hexecs, hr₂⟩ := ih hr₁ hops
    exact ⟨r₂, L₂, by simp [execAll, specAll, hexec, hexecs], hr₂⟩

/-- Whatever the links of the nodes hold at first, a sequence of calls on an initialised ring
    never faults, returns what the list returns, and leaves a ring that stores the list: a
    circle of mutually inverse links with the first node at the hook. -/
theorem ring_refines_list (L : Links ν) (ops : List (RingOp ν)) (hops : AllowedAll [] ops) :
    ∃ r' L' l, execAll (Ring.init, L) ops = some ((specAll [] ops).1, r', L') ∧
      l = (specAll [] ops).2 ∧
      l.Nodup ∧ r'.first = l.head? ∧ L'.Cycle l ∧ r'.rNodes = l.length ∧
      (∀ n, l.length ≤ n → walkList (r'.next L') n r'.first = l) ∧
      (∀ n, l.length ≤ n → walkList (r'.prev L') n (r'.last L') = l.reverse) ∧
      ∀ rn, r'.contains L' rn = some (decide (rn ∈ l)) := by
  obtain ⟨r', L', hexec, hr⟩ := execAll_refines (Ring.Repr.init L) hops
  exact ⟨r', L', _, hexec, rfl, hr.nodup, hr.hook, hr.cycle, hr.nodes,
    fun n hn => Ring.walkList_next hr hn, fun n hn => Ring.walkList_prev hr hn,
    Ring.contains_eq hr⟩

/-- Every function is called, next to the first node and next to others. -/
theorem ring_refines_list_calls :
    AllowedAll (ν := ℕ) []
      [.init, .append 1, .prepend 2, .insertBefore 2 3, .insertBefore 1 4, .insertAfter 3 5,
        .favorite 3, .pop, .delete 2, .dequeue] ∧
    ∃ r' L', execAll (Ring.init, (⟨fun _ => none, fun _ => none⟩ : Links ℕ))
      [.init, .append 1, .prepend 2, .insertBefore 2 3, .insertBefore 1 4, .insertAfter 3 5,
        .favorite 3, .pop, .delete 2, .dequeue] =
        some ([.void, .void, .void, .void, .void, .void, .bool true, .node (some 3), .void,
          .node (some 5)], r', L') ∧
      walkList (r'.next L') 2 r'.first = [4, 1] := by
  have hops : AllowedAll (ν := ℕ) []
      [.init, .append 1, .prepend 2, .insertBefore 2 3, .insertBefore 1 4, .insertAfter 3 5,
        .favorite 3, .pop, .delete 2, .dequeue] := by
    simp [AllowedAll, Allowed, spec, RingList.insertAfter, RingList.insertBefore,
      RingList.insertBefore.go]
  refine ⟨hops, ?_⟩
  obtain ⟨r', L', l, hexec, hl, -, -, -, -, hwalk, -⟩ :=
    ring_refines_list ⟨fun _ => none, fun _ => none⟩ _ hops
  obtain rfl : l = [4, 1] := hl.trans (by decide)
  exact ⟨r', L', hexec.trans (by rfl), hwalk 2 (by simp)⟩

end RingOp

end Pth
