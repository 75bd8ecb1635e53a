-- SUMMARY: How many entries of an aging priority list can lie above each priority level.
import Pth.Lib.PrioList
import Mathlib.Algebra.Order.Group.Int

/-!
# Levels of an aging list

A list of at most `N` entries ages: entries come with priorities of at most `M`, and
all priorities are raised by one from time to time, but between two rises the first
entry is taken out. Then at most `N - j` entries lie above the level `M + j`, since a
rise lifts the entries of one level to the next and the entry taken out was above all
levels that were not empty. So no priority is above `M + N`, however often the list
has aged. -/

namespace PrioList

variable {α : Type*} {l : List (α × ℤ)} {m M p x : ℤ} {N : ℕ} {t : α} {taken : Bool}

/-- The number of entries above a level. -/
def above (x : ℤ) (l : List (α × ℤ)) : ℕ := l.countP fun e => x < e.2

theorem above_le_length (x : ℤ) (l : List (α × ℤ)) : above x l ≤ l.length :=
  List.countP_le_length

theorem above_eq_zero : above x l = 0 ↔ ∀ e ∈ l, e.2 ≤ x := by
  simp [above, List.countP_eq_zero]

theorem above_insert (h : p ≤ x) : above x (insert p t l) = above x l := by
  rw [above, (insert_perm p t l).countP_eq, List.countP_cons_of_neg (by simpa using h)]
  rfl

theorem above_remove_le [DecidableEq α] (x : ℤ) (t : α) (l : List (α × ℤ)) :
    above x (remove t l) ≤ above x l :=
  List.filter_sublist.countP_le

theorem above_increase (x : ℤ) (l : List (α × ℤ)) : above x (increase l) = above (x - 1) l := by
  rw [above, increase, List.countP_map]
  refine List.countP_congr fun e _ => ?_
  simp only [Function.comp_apply, decide_eq_true_eq]
  omega

/-- The first entry is above every level that is not empty. -/
theorem Sorted.above_tail (h : Sorted l) (x : ℤ) : above x l.tail = above x l - 1 := by
  cases l with
  | nil => rfl
  | cons e l =>
    by_cases he : x < e.2
    · simp [above, List.countP_cons_of_pos, he]
    · have hzero : above x (e :: l) = 0 := by
        rw [above_eq_zero]
        intro d hd
        rcases List.mem_cons.mp hd with rfl | hd
        · omega
        · have := (List.pairwise_cons.mp h).1 d hd
          omega
      have hle : above x l ≤ above x (e :: l) := (List.sublist_cons_self e l).countP_le
      simp only [List.tail_cons, hzero] at hle ⊢
      omega

/-- The levels of a list of at most `N` entries that come with priorities between `m` and
    `M`; `taken` says that the first entry has been taken out since the last rise. -/
structure Levels (m M : ℤ) (N : ℕ) (taken : Bool) (l : List (α × ℤ)) : Prop where
  low : ∀ e ∈ l, m ≤ e.2
  size : l.length ≤ N
  level : ∀ j : ℕ, above (M + j) l ≤ N - j - taken.toNat

theorem Levels.nil : Levels m M N taken ([] : List (α × ℤ)) where
  low := by simp
  size := by simp
  level := by simp [above]

theorem Levels.high (h : Levels m M N taken l) : ∀ e ∈ l, e.2 ≤ M + N := by
  rw [← above_eq_zero]
  have := h.level N
  omega

theorem Levels.insert (h : Levels m M N taken l) (hm : m ≤ p) (hM : p ≤ M)
    (hN : l.length < N) : Levels m M N taken (insert p t l) where
  low e he := by
    rcases mem_insert.mp he with rfl | he
    · exact hm
    · exact h.low e he
  size := by
    rw [(insert_perm p t l).length_eq]
    exact hN
  level j := by
    rw [above_insert (by omega)]
    exact h.level j

theorem Levels.remove [DecidableEq α] (h : Levels m M N taken l) :
    Levels m M N taken (remove t l) where
  low e he := h.low e (List.mem_of_mem_filter he)
  size := (List.length_filter_le _ _).trans h.size
  level j := (above_remove_le _ t l).trans (h.level j)

/-- Taking out the first entry. -/
theorem Levels.tail (h : Levels m M N taken l) (hs : Sorted l) : Levels m M N true l.tail where
  low e he := h.low e (List.mem_of_mem_tail he)
  size := by
    have := h.size
    rw [List.length_tail]
    omega
  level j := by
    have := h.level j
    rw [hs.above_tail, Bool.toNat_true]
    omega

/-- A rise after the first entry has been taken out. -/
theorem Levels.increase (h : Levels m M N true l) : Levels m M N false (increase l) where
  low e he := by
    obtain ⟨d, hd, rfl⟩ := List.mem_map.mp he
    have := h.low d hd
    dsimp only
    omega
  size := by simpa [PrioList.increase] using h.size
  level j := by
    rw [above_increase, Bool.toNat_false]
    cases j with
    | zero => exact (above_le_length _ l).trans h.size
    | succ j =>
      have hlevel := h.level j
      rw [Bool.toNat_true] at hlevel
      have hj : M + (j + 1 : ℕ) - 1 = M + j := by omega
      rw [hj]
      omega

end PrioList
