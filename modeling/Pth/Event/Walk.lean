-- SUMMARY: `pth_event_walk`: which event of a ring it finds, and when it comes back at all.
import Pth.Event.Spec

/-!
# Walking a ring of events

`pth_event_walk` follows the links of a ring in one direction. With `PTH_UNTIL_OCCURRED` it
goes on until it meets an event that has occurred, and it does not notice when it has come
around. -/

namespace Pth

/-- `PTH_WALK_NEXT` -/
def walkNext : ℕ := 1 <<< 1

/-- `PTH_WALK_PREV` -/
def walkPrev : ℕ := 1 <<< 2

namespace Events

variable {ε τ : Type*}

/-- The event that one step of the loop goes to. -/
def walkStep (s : Events ε τ) (direction : ℕ) (ev : ε) : Option (Except Errno ε) :=
  if direction &&& walkNext ≠ 0 then (s.link.next ev).map .ok
  else if direction &&& walkPrev ≠ 0 then (s.link.prev ev).map .ok
  else some (.error .EINVAL)

/-- The loop of `pth_event_walk`, with a bound on its steps. -/
def walkLoop (s : Events ε τ) (direction : ℕ) : ℕ → ε → Option (Except Errno ε)
  | 0, _ => none
  | fuel + 1, ev =>
    (s.walkStep direction ev).bind fun
      | .error e => some (.error e)
      | .ok ev =>
        if direction &&& untilOccurred ≠ 0 ∧ (s.body ev).evStatus ≠ .occurred then
          s.walkLoop direction fuel ev
        else some (.ok ev)

/-- `pth_event_walk`, with a bound on the steps of its loop. -/
def walk (s : Events ε τ) (fuel : ℕ) (ev : Option ε) (direction : ℕ) : Option (Except Errno ε) :=
  match ev with
  | none => some (.error .EINVAL)
  | some ev => s.walkLoop direction fuel ev

def hasOccurred (s : Events ε τ) (e : ε) : Bool := decide ((s.body e).evStatus = .occurred)

/-- The events that a walk meets from the first one of a ring until it is there again. -/
def walkOrder (direction : ℕ) (ev : ε) (l : List ε) : List ε :=
  (if direction &&& walkNext ≠ 0 then l else l.reverse) ++ [ev]

variable {s : Events ε τ} {direction : ℕ} {ev r : ε} {l o : List ε}

/-- One step of the walk goes from `x` to `y`. -/
def Goes (s : Events ε τ) (direction : ℕ) (x y : ε) : Prop := s.walkStep direction x = some (.ok y)

/-- The links lead along the order of the walk. -/
theorem walkOrder_chain (hring : s.link.Cycle (ev :: l))
    (hdir : direction &&& walkNext ≠ 0 ∨ direction &&& walkPrev ≠ 0) :
    (ev :: walkOrder direction ev l).IsChain (s.Goes direction) := by
  have hchain : (ev :: (l ++ [ev])).IsChain s.link.Edge := hring
  unfold walkOrder
  by_cases hnext : direction &&& walkNext ≠ 0
  · rw [if_pos hnext]
    refine hchain.imp fun x y hxy => ?_
    simp [Goes, walkStep, hnext, hxy.1]
  · rw [if_neg hnext]
    have hprev : direction &&& walkPrev ≠ 0 := hdir.resolve_left hnext
    have hrev : (ev :: (l.reverse ++ [ev])).IsChain fun x y => s.link.Edge y x := by
      have heq : ev :: (l.reverse ++ [ev]) = (ev :: (l ++ [ev])).reverse := by simp
      rw [heq, List.isChain_reverse]
      exact hchain
    refine hrev.imp fun x y hxy => ?_
    simp [Goes, walkStep, hnext, hprev, hxy.2]

theorem mem_walkOrder {e : ε} : e ∈ walkOrder direction ev l ↔ e ∈ ev :: l := by
  unfold walkOrder
  split_ifs <;> simp [or_comm]

theorem walkLoop_goes {x y : ε} (h : s.Goes direction x y) (fuel : ℕ) :
    s.walkLoop direction (fuel + 1) x =
      if direction &&& untilOccurred ≠ 0 ∧ s.hasOccurred y = false then
        s.walkLoop direction fuel y
      else some (.ok y) := by
  rw [walkLoop, h]
  simp [hasOccurred]

/-- The walk returns the first event on its way that has occurred. -/
theorem walkLoop_of_find? (huntil : direction &&& untilOccurred ≠ 0)
    (hchain : (ev :: o).IsChain (s.Goes direction)) (hfind : o.find? s.hasOccurred = some r) :
    s.walkLoop direction o.length ev = some (.ok r) := by
  induction o generalizing ev with
  | nil => cases hfind
  | cons y o ih =>
    obtain ⟨hgoes, hchain⟩ := List.isChain_cons_cons.mp hchain
    rw [List.length_cons, walkLoop_goes hgoes]
    cases hocc : s.hasOccurred y with
    | true =>
      rw [if_neg (by simp)]
      simpa [List.find?_cons, hocc] using hfind
    | false =>
      rw [if_pos ⟨huntil, rfl⟩]
      exact ih hchain (by simpa [List.find?_cons, hocc] using hfind)

/-- Every event on the way is followed by another one on the way. -/
theorem exists_goes {R : ε → ε → Prop} {a b x : ε} (h : (a :: (l ++ [b])).IsChain R)
    (hx : x ∈ a :: l) : ∃ y ∈ l ++ [b], R x y := by
  induction l generalizing a with
  | nil =>
    obtain rfl : x = a := by simpa using hx
    exact ⟨b, by simp, by simpa using h⟩
  | cons c l ih =>
    obtain ⟨hac, hchain⟩ := List.isChain_cons_cons.mp h
    rcases List.mem_cons.mp hx with rfl | hx
    · exact ⟨c, by simp, hac⟩
    · obtain ⟨y, hy, hxy⟩ := ih hchain hx
      exact ⟨y, List.mem_cons_of_mem _ hy, hxy⟩

/-- The walk does not leave the ring. -/
theorem walkOrder_closed (hring : s.link.Cycle (ev :: l))
    (hdir : direction &&& walkNext ≠ 0 ∨ direction &&& walkPrev ≠ 0) :
    ∀ x ∈ ev :: l, ∃ y ∈ ev :: l, s.Goes direction x y := by
  intro x hx
  have hx' : x ∈ ev :: (if direction &&& walkNext ≠ 0 then l else l.reverse) := by
    split_ifs <;> simpa using hx
  obtain ⟨y, hy, hgoes⟩ := exists_goes (walkOrder_chain hring hdir) hx'
  exact ⟨y, mem_walkOrder.mp hy, hgoes⟩

/-- Where no event has occurred, the walk goes around for ever. -/
theorem walkLoop_eq_none (huntil : direction &&& untilOccurred ≠ 0) {S : List ε}
    (hstep : ∀ x, x ∈ S → ∃ y, y ∈ S ∧ s.Goes direction x y)
    (hocc : ∀ x, x ∈ S → s.hasOccurred x = false) (fuel : ℕ) (hev : ev ∈ S) :
    s.walkLoop direction fuel ev = none := by
  induction fuel generalizing ev with
  | zero => rfl
  | succ fuel ih =>
    obtain ⟨y, hy, hgoes⟩ := hstep ev hev
    rw [walkLoop_goes hgoes, if_pos ⟨huntil, hocc y hy⟩]
    exact ih hy

/-- A walk comes back, with the nearest event that has occurred if it is to look for one, exactly
    if it does not look for one or there is one in the ring. -/
theorem walk_returns_iff (s : Events ε τ) (direction : ℕ) (ev : ε) (l : List ε)
    (hring : s.link.Cycle (ev :: l))
    (hdir : direction &&& walkNext ≠ 0 ∨ direction &&& walkPrev ≠ 0) :
    ((∃ fuel r, s.walk fuel (some ev) direction = some (.ok r)) ∧
      (direction &&& untilOccurred ≠ 0 → ∀ r,
        (walkOrder direction ev l).find? s.hasOccurred = some r →
          ∃ fuel, s.walk fuel (some ev) direction = some (.ok r))) ↔
    (direction &&& untilOccurred ≠ 0 → ∃ e ∈ ev :: l, s.hasOccurred e = true) := by
  have hchain := walkOrder_chain hring hdir
  by_cases huntil : direction &&& untilOccurred ≠ 0
  · simp only [huntil, ne_eq, not_false_eq_true, forall_const]
    constructor
    · rintro ⟨⟨fuel, r, hr⟩, -⟩
      by_contra hnone
      have hocc : ∀ x ∈ ev :: l, s.hasOccurred x = false := by
        intro x hx
        cases hx' : s.hasOccurred x with
        | false => rfl
        | true => exact absurd ⟨x, hx, hx'⟩ hnone
      have hforever := walkLoop_eq_none huntil (walkOrder_closed hring hdir) hocc fuel
        List.mem_cons_self
      rw [walk, hforever] at hr
      cases hr
    · rintro ⟨e, he, hocc⟩
      obtain ⟨r, hr⟩ : ∃ r, (walkOrder direction ev l).find? s.hasOccurred = some r :=
        Option.isSome_iff_exists.mp
          (List.find?_isSome.mpr ⟨e, mem_walkOrder.mpr he, hocc⟩)
      refine ⟨⟨_, r, walkLoop_of_find? huntil hchain hr⟩, fun r' hr' => ?_⟩
      exact ⟨_, walkLoop_of_find? huntil hchain hr'⟩
  · obtain ⟨y, -, hgoes⟩ := exists_goes (x := ev) hchain (by simp)
    have hone : s.walk 1 (some ev) direction = some (.ok y) := by
      rw [walk, walkLoop_goes hgoes, if_neg fun h => huntil h.1]
    exact ⟨fun _ h => absurd h huntil, fun _ => ⟨⟨1, y, hone⟩, fun h => absurd h huntil⟩⟩

/-- A ring of two events with the statuses `st`. -/
def pair (st : Bool → Status) : Events Bool Unit where
  link := { next := fun b => some !b, prev := fun b => some !b }
  body b := { evStatus := st b, evArgs := .time .zero }
  live _ := true

theorem pair_cycle (st : Bool → Status) : (pair st).link.Cycle [false, true] := by
  simp [Links.Cycle, Links.Edge, pair]

/-- The event itself is found after once around. -/
theorem walk_pair_returns :
    ∃ fuel, (pair fun b => if b then .failed else .occurred).walk fuel (some false)
      (walkPrev ||| untilOccurred) = some (.ok false) :=
  ((walk_returns_iff (pair fun b => if b then .failed else .occurred)
    (walkPrev ||| untilOccurred) false [true] (pair_cycle _) (.inr (by decide))).mpr
      fun _ => ⟨false, by simp, rfl⟩).2 (by decide) false rfl

/-- No event of the ring has occurred. -/
theorem walk_pair_forever :
    (pair fun _ => .pending).link.Cycle [false, true] ∧
      ∀ fuel, (pair fun _ => .pending).walk fuel (some false) (walkNext ||| untilOccurred) = none :=
  ⟨pair_cycle _, fun fuel =>
    walkLoop_eq_none (by decide) (walkOrder_closed (pair_cycle _) (.inl (by decide)))
      (fun _ _ => rfl) fuel List.mem_cons_self⟩

end Events

end Pth
