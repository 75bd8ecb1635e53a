-- SUMMARY: Conditions on the elements of a list that depend on the ones before them, and related lists.
import Mathlib.Data.List.Basic
import Mathlib.Data.List.Forall2

/-!
# Conditions along a list

A condition on the elements of a list that may refer to what comes before each of
them. The first list is what has been met already. For two lists that are related
element by element, an element of the first one has its counterpart. -/

namespace List

variable {α : Type*}

/-- Each element meets `Φ` together with the elements before it. -/
def Along (Φ : List α → α → Prop) : List α → List α → Prop
  | _, [] => True
  | P, x :: xs => Φ P x ∧ Along Φ (P ++ [x]) xs

variable {Φ Ψ : List α → α → Prop} {P : List α}

@[simp] theorem along_nil : Along Φ P [] ↔ True := .rfl

@[simp] theorem along_cons {x : α} {xs : List α} :
    Along Φ P (x :: xs) ↔ Φ P x ∧ Along Φ (P ++ [x]) xs := .rfl

theorem along_append {xs ys : List α} :
    Along Φ P (xs ++ ys) ↔ Along Φ P xs ∧ Along Φ (P ++ xs) ys := by
  induction xs generalizing P with
  | nil => simp
  | cons x xs ih => simp [ih, and_assoc]

instance decidableAlong [∀ P x, Decidable (Φ P x)] :
    (P xs : List α) → Decidable (Along Φ P xs)
  | _, [] => inferInstanceAs (Decidable True)
  | P, x :: xs =>
    have := decidableAlong (P ++ [x]) xs
    inferInstanceAs (Decidable (Φ P x ∧ Along Φ (P ++ [x]) xs))

/-! ## Two lists -/

/-- The element that corresponds to one of the first list. -/
theorem Forall₂.exists_getElem? {β : Type*} {R : α → β → Prop} {l : List α} {l' : List β} {i : ℕ}
    {x : α} (h : Forall₂ R l l') (hx : l[i]? = some x) : ∃ y, l'[i]? = some y ∧ R x y := by
  induction h generalizing i with
  | nil => simp at hx
  | cons hR _ ih =>
    cases i with
    | zero =>
      obtain rfl : _ = x := by simpa using hx
      exact ⟨_, rfl, hR⟩
    | succ i => exact ih (by simpa using hx)

end List
