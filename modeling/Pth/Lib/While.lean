-- SUMMARY: While loops whose body may fault: bounded runs, invariants, and a measure that ends them.
import Mathlib.Tactic.Common

/-!
# While loops with a body that may fault

A body in `Option` faults with `none`. A run of at most `n` rounds gives the state that it has
come to, so that `none` means a fault and never a lack of rounds. -/

namespace While

variable {σ : Type*} (body : σ → Option σ) (stop : σ → Bool)

/-- The state after `n` rounds, or after the rounds until `stop`. -/
def run : ℕ → σ → Option σ
  | 0, s => some s
  | n + 1, s => if stop s then some s else (body s).bind (run n)

/-- The loop comes to its end and no round before it faults. -/
def Ends (s : σ) : Prop := (∀ n, run body stop n s ≠ none) ∧
  ∃ n s', run body stop n s = some s' ∧ stop s'

variable {body stop} {I : σ → Prop} {s s' : σ} {n : ℕ}

/-- What every round keeps holds after any number of them. -/
theorem run_invariant (hbody : ∀ s s', I s → stop s = false → body s = some s' → I s')
    (hs : I s) (h : run body stop n s = some s') : I s' := by
  induction n generalizing s with
  | zero =>
    obtain rfl : s = s' := by simpa [run] using h
    exact hs
  | succ n ih =>
    rw [run] at h
    split at h
    · obtain rfl : s = s' := by simpa using h
      exact hs
    · rename_i hstop
      obtain ⟨s₁, h₁, h⟩ := Option.bind_eq_some_iff.mp h
      exact ih (hbody s s₁ hs (by simpa using hstop) h₁) h

/-- A loop with an invariant under which no round faults does not fault. -/
theorem run_ne_none (hbody : ∀ s s', I s → stop s = false → body s = some s' → I s')
    (hsafe : ∀ s, I s → stop s = false → body s ≠ none) (hs : I s) (n : ℕ) :
    run body stop n s ≠ none := by
  induction n generalizing s with
  | zero => simp [run]
  | succ n ih =>
    rw [run]
    split
    · simp
    · rename_i hstop
      have hstop : stop s = false := by simpa using hstop
      obtain ⟨s₁, h₁⟩ := Option.ne_none_iff_exists'.mp (hsafe s hs hstop)
      rw [h₁, Option.bind_some]
      exact ih (hbody s s₁ hs hstop h₁)

/-- A measure that every round lowers bounds their number. -/
theorem stop_of_run {μ : σ → ℕ}
    (hbody : ∀ s s', I s → stop s = false → body s = some s' → I s' ∧ μ s' < μ s)
    (hs : I s) (hn : μ s < n) (h : run body stop n s = some s') : stop s' := by
  induction n generalizing s with
  | zero => omega
  | succ n ih =>
    rw [run] at h
    split at h
    · rename_i hstop
      obtain rfl : s = s' := by simpa using h
      exact hstop
    · rename_i hstop
      obtain ⟨s₁, h₁, h⟩ := Option.bind_eq_some_iff.mp h
      obtain ⟨hs₁, hlt⟩ := hbody s s₁ hs (by simpa using hstop) h₁
      exact ih hs₁ (by omega) h

/-- Every round lowers the measure `μ` and keeps the verdict `V`, which is negative where a
    round faults and positive where the loop stops. -/
structure Judged (body : σ → Option σ) (stop : σ → Bool) (I : σ → Prop) (μ : σ → ℕ)
    (V : σ → Prop) : Prop where
  round : ∀ s s', I s → stop s = false → body s = some s' →
    I s' ∧ μ s' < μ s ∧ (V s' ↔ V s)
  fault : ∀ s, I s → stop s = false → body s = none → ¬ V s
  stopped : ∀ s, I s → stop s → V s

namespace Judged

variable {μ : σ → ℕ} {V : σ → Prop}

theorem invariant (h : Judged body stop I μ V) (v : Prop) : ∀ s s', (I s ∧ (V s ↔ v)) →
    stop s = false → body s = some s' → (I s' ∧ (V s' ↔ v)) := by
  intro s s' hs hstop hrun
  obtain ⟨hs', -, hV⟩ := h.round s s' hs.1 hstop hrun
  exact ⟨hs', hV.trans hs.2⟩

theorem no_fault (h : Judged body stop I μ V) (hs : I s) (hV : V s) (n : ℕ) :
    run body stop n s ≠ none := by
  refine run_ne_none (h.invariant True) ?_ ⟨hs, iff_true_intro hV⟩ n
  intro s hs hstop hnone
  exact h.fault s hs.1 hstop hnone (hs.2.mpr trivial)

/-- With a positive verdict, the measure says how many rounds are enough. -/
theorem run_stops (h : Judged body stop I μ V) (hs : I s) (hV : V s) (hn : μ s < n) :
    ∃ s', run body stop n s = some s' ∧ stop s' := by
  obtain ⟨s', hrun⟩ := Option.ne_none_iff_exists'.mp (h.no_fault hs hV n)
  refine ⟨s', hrun, stop_of_run (I := I) (μ := μ) ?_ hs hn hrun⟩
  intro s s' hs hstop hrun
  obtain ⟨hs', hlt, -⟩ := h.round s s' hs hstop hrun
  exact ⟨hs', hlt⟩

/-- Whether the loop ends well is known before its first round. -/
theorem ends_iff (h : Judged body stop I μ V) (hs : I s) : Ends body stop s ↔ V s := by
  constructor
  · rintro ⟨-, n, s', hrun, hstop⟩
    obtain ⟨hs', hV⟩ := run_invariant (h.invariant (V s)) ⟨hs, Iff.rfl⟩ hrun
    exact hV.mp (h.stopped s' hs' hstop)
  · intro hV
    exact ⟨h.no_fault hs hV, μ s + 1, h.run_stops hs hV (by omega)⟩

end Judged

end While
