-- SUMMARY: Partial correctness of stateful computations that may fault or run on.
import Mathlib.Tactic.Common

/-!
# Stateful computations that need not return

A computation in `StateT σ Option` that faults, or that has not returned when its
fuel is used up, gives `none`. `Triple P m Q` says what holds when it returns. -/

namespace StateT

variable {σ α β : Type} {P P' : σ → Prop}

/-- Whenever `m` returns from a state that meets `P`, its result and the state meet `Q`. -/
def Triple (P : σ → Prop) (m : StateT σ Option α) (Q : α → σ → Prop) : Prop :=
  ∀ s a s', P s → m.run s = some (a, s') → Q a s'

theorem Triple.pure {a : α} {Q : α → σ → Prop} (h : ∀ s, P s → Q a s) :
    Triple P (Pure.pure a) Q := by
  intro s b s' hP hrun
  obtain ⟨rfl, rfl⟩ : a = b ∧ s = s' := by simpa [StateT.run_pure] using hrun
  exact h s hP

theorem Triple.bind {m : StateT σ Option α} {f : α → StateT σ Option β} {R : α → σ → Prop}
    {Q : β → σ → Prop} (hm : Triple P m R) (hf : ∀ a, Triple (R a) (f a) Q) :
    Triple P (m >>= f) Q := by
  intro s b s' hP hrun
  simp only [StateT.run_bind, Option.bind_eq_bind, Option.bind_eq_some_iff] at hrun
  obtain ⟨⟨a, s₁⟩, hm₁, hf₁⟩ := hrun
  exact hf a s₁ b s' (hm s a s₁ hP hm₁) hf₁

theorem Triple.mono {m : StateT σ Option α} {Q Q' : α → σ → Prop} (h : Triple P m Q)
    (hP : ∀ s, P' s → P s) (hQ : ∀ a s, Q a s → Q' a s) : Triple P' m Q' :=
  fun s a s' hs hrun => hQ a s' (h s a s' (hP s hs) hrun)

/-- A part of the precondition that does not depend on the state. -/
theorem Triple.assume {p : Prop} {m : StateT σ Option α} {Q : α → σ → Prop}
    (h : p → Triple P m Q) : Triple (fun s => p ∧ P s) m Q :=
  fun s a s' hs hrun => h hs.1 s a s' hs.2 hrun

theorem Triple.exists {ι : Type*} {R : ι → σ → Prop} {m : StateT σ Option α} {Q : α → σ → Prop}
    (h : ∀ i, Triple (R i) m Q) : Triple (fun s => ∃ i, R i s) m Q :=
  fun s a s' ⟨i, hi⟩ hrun => h i s a s' hi hrun

theorem Triple.and {m : StateT σ Option α} {Q Q' : α → σ → Prop} (h : Triple P m Q)
    (h' : Triple P' m Q') : Triple (fun s => P s ∧ P' s) m fun a s => Q a s ∧ Q' a s :=
  fun s a s' hs hrun => ⟨h s a s' hs.1 hrun, h' s a s' hs.2 hrun⟩

theorem Triple.map {m : StateT σ Option α} {f : α → β} {Q : σ → Prop}
    (h : Triple P m fun _ => Q) : Triple P (f <$> m) fun _ => Q := by
  intro s b s' hP hrun
  simp only [StateT.run_map, Option.map_eq_map, Option.map_eq_some_iff] at hrun
  obtain ⟨⟨a, s₁⟩, hm, heq⟩ := hrun
  obtain ⟨-, rfl⟩ := Prod.mk.inj heq
  exact h s a s₁ hP hm

theorem Triple.failure {Q : α → σ → Prop} :
    Triple P (Alternative.failure : StateT σ Option α) Q := by
  intro s a s' _ hrun
  simp [StateT.run_failure] at hrun

/-! ## Computations that return -/

/-- The computation returns from every state. -/
def Total (m : StateT σ Option α) : Prop := ∀ s, (m.run s).isSome

theorem Total.pure (a : α) : Total (Pure.pure a : StateT σ Option α) := fun _ => rfl

theorem Total.bind {m : StateT σ Option α} {f : α → StateT σ Option β} (hm : Total m)
    (hf : ∀ a, Total (f a)) : Total (m >>= f) := by
  intro s
  obtain ⟨r, hr⟩ := Option.isSome_iff_exists.mp (hm s)
  rw [StateT.run_bind, hr]
  exact hf r.1 r.2

theorem Total.map {m : StateT σ Option α} {f : α → β} (hm : Total m) : Total (f <$> m) := by
  rw [map_eq_pure_bind]
  exact hm.bind fun a => Total.pure (f a)

end StateT
