-- SUMMARY: Total correctness of computations that may fault: the computation succeeds and its result meets Q.
import Mathlib.Tactic.Common

/-!
# Computations that may fault

A computation in `Option` faults with `none`. `Ensures x Q` is its weakest
precondition for total correctness: `x` does not fault, and what it computes
meets `Q`. The rules follow the operations computations are built from. -/

namespace Option

variable {α β : Type*} {P : α → Prop}

/-- The computation succeeds, and its result meets `Q`. -/
def Ensures (x : Option α) (Q : α → Prop) : Prop := ∃ a, x = some a ∧ Q a

@[simp] theorem ensures_some {a : α} {Q : α → Prop} : (some a).Ensures Q ↔ Q a := by
  simp [Ensures]

theorem Ensures.mono {x : Option α} {Q : α → Prop} (h : x.Ensures P) (hQ : ∀ a, P a → Q a) :
    x.Ensures Q := by
  obtain ⟨a, ha, hP⟩ := h
  exact ⟨a, ha, hQ a hP⟩

theorem Ensures.map {x : Option α} {f : α → β} {Q : β → Prop} (h : x.Ensures P)
    (hf : ∀ a, P a → Q (f a)) : (x.map f).Ensures Q := by
  obtain ⟨a, rfl, hP⟩ := h
  exact ⟨f a, rfl, hf a hP⟩

theorem Ensures.bind {x : Option α} {f : α → Option β} {Q : β → Prop} (h : x.Ensures P)
    (hf : ∀ a, P a → (f a).Ensures Q) : (x.bind f).Ensures Q := by
  obtain ⟨a, rfl, hP⟩ := h
  exact hf a hP

/-- A loop over a list keeps what one step keeps. -/
theorem Ensures.foldlM {f : α → β → Option α} {a : α} {l : List β} (ha : P a)
    (hf : ∀ a b, P a → (f a b).Ensures P) : (l.foldlM f a).Ensures P := by
  induction l generalizing a with
  | nil => exact ⟨a, rfl, ha⟩
  | cons b l ih => exact (hf a b ha).bind fun _ h => ih h

/-- A loop over a list that has succeeded keeps what each of its steps keeps. -/
theorem foldlM_invariant {f : α → β → Option α} {a a' : α} {l : List β}
    (hf : ∀ a, ∀ b ∈ l, ∀ a', P a → f a b = some a' → P a') (ha : P a)
    (h : l.foldlM f a = some a') : P a' := by
  induction l generalizing a with
  | nil =>
    obtain rfl : a = a' := by simpa using h
    exact ha
  | cons b l ih =>
    simp only [List.foldlM_cons, Option.bind_eq_bind, Option.bind_eq_some_iff] at h
    obtain ⟨c, hc, h⟩ := h
    refine ih (fun a b' hb' => hf a b' (List.mem_cons_of_mem b hb')) ?_ h
    exact hf a b List.mem_cons_self c ha hc

/-- What a computation that has succeeded ensures holds of its result. -/
theorem Ensures.of_eq_some {x : Option α} {Q : α → Prop} {a : α} (h : x.Ensures Q)
    (ha : x = some a) : Q a := by
  obtain ⟨b, hb, hQ⟩ := h
  obtain rfl : a = b := by simpa [ha] using hb
  exact hQ

end Option
