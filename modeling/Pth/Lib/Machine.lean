-- SUMMARY: State machines with enabled operations: runs, reachable states and the invariant rule.
import Mathlib.Tactic.Common

/-!
# State machines

A machine offers operations in each state. An operation that is enabled is
executed and gives an output and a new state, or faults. States are reached by
steps that meet a side condition `P` on the operation and the state before it;
`Reachable` is the case without a side condition. -/

/-- A machine over the states `σ` with operations `ι` and outputs `ο`. -/
structure Machine (σ ι ο : Type*) where
  init : σ → Prop
  enabled : σ → ι → Prop
  exec : σ → ι → Option (ο × σ)

namespace Machine

variable {σ ι ο : Type*} {M : Machine σ ι ο} {P : σ → ι → Prop}

/-- An enabled operation that does not fault. -/
def Step (M : Machine σ ι ο) (s : σ) (i : ι) (o : ο) (s' : σ) : Prop :=
  M.enabled s i ∧ M.exec s i = some (o, s')

/-- The states reached from an initial one by steps that all meet `P`. -/
inductive Reach (M : Machine σ ι ο) (P : σ → ι → Prop) : σ → Prop
  | init {s : σ} (h : M.init s) : Reach M P s
  | step {s s' : σ} {i : ι} {o : ο} (h : Reach M P s) (hP : P s i) (hs : M.Step s i o s') :
    Reach M P s'

/-- The states reached by any steps. -/
def Reachable (M : Machine σ ι ο) : σ → Prop := M.Reach fun _ _ => True

/-- Some operations one after the other. -/
def Steps (M : Machine σ ι ο) : σ → List ι → σ → Prop
  | s, [], s' => s = s'
  | s, i :: l, s' => ∃ o s₁, M.Step s i o s₁ ∧ M.Steps s₁ l s'

theorem Steps.trans {s s₁ s₂ : σ} {l l' : List ι} (h : M.Steps s l s₁) (h' : M.Steps s₁ l' s₂) :
    M.Steps s (l ++ l') s₂ := by
  induction l generalizing s with
  | nil =>
    obtain rfl : s = s₁ := h
    exact h'
  | cons i l ih =>
    obtain ⟨o, s₃, hs, hl⟩ := h
    exact ⟨o, s₃, hs, ih hl⟩

/-- What is kept by every operation that meets `Q` is kept by a list of them. -/
theorem Steps.invariant {I : σ → Prop} {Q : ι → Prop} {s s' : σ} {l : List ι}
    (h : M.Steps s l s') (hstep : ∀ s i o s', I s → Q i → M.Step s i o s' → I s')
    (hl : ∀ i ∈ l, Q i) (hs : I s) : I s' := by
  induction l generalizing s with
  | nil =>
    obtain rfl : s = s' := h
    exact hs
  | cons i l ih =>
    obtain ⟨o, s₁, hfirst, hrest⟩ := h
    have hs₁ : I s₁ := hstep s i o s₁ hs (hl i (by simp)) hfirst
    exact ih hrest (fun i hi => hl i (by simp [hi])) hs₁

/-- Steps from a reachable state. -/
theorem Reachable.steps {s s' : σ} {l : List ι} (h : M.Reachable s) (hs : M.Steps s l s') :
    M.Reachable s' :=
  hs.invariant (Q := fun _ => True) (fun _ _ _ _ hr _ hstep => .step hr trivial hstep)
    (fun _ _ => trivial) h

/-- The machine with only those operations that meet `P`. -/
def only (M : Machine σ ι ο) (P : σ → ι → Prop) : Machine σ ι ο where
  init := M.init
  enabled s i := M.enabled s i ∧ P s i
  exec := M.exec

theorem Step.of_only {s s' : σ} {i : ι} {o : ο} (h : (M.only P).Step s i o s') :
    M.Step s i o s' ∧ P s i :=
  ⟨⟨h.1.1, h.2⟩, h.1.2⟩

/-- The machine with a record of its run, which no operation reads: `k` says what it is at
    first, and `f` what an operation adds to it. -/
def record {κ : Type*} (M : Machine σ ι ο) (k : σ → κ) (f : σ → ι → κ → κ) :
    Machine (σ × κ) ι ο where
  init s := M.init s.1 ∧ s.2 = k s.1
  enabled s := M.enabled s.1
  exec s i := (M.exec s.1 i).map fun r => (r.1, r.2, f s.1 i s.2)

theorem Step.of_record {κ : Type*} {k : σ → κ} {f : σ → ι → κ → κ} {s s' : σ × κ} {i : ι} {o : ο}
    (h : (M.record k f).Step s i o s') : M.Step s.1 i o s'.1 ∧ s'.2 = f s.1 i s.2 := by
  obtain ⟨⟨o', s₁⟩, hexec, heq⟩ := Option.map_eq_some_iff.mp h.2
  cases heq
  exact ⟨⟨h.1, hexec⟩, rfl⟩

/-- What holds initially and is kept by every step that meets `P` holds in every
    state reached by such steps. -/
theorem Reach.invariant {I : σ → Prop} (hinit : ∀ s, M.init s → I s)
    (hstep : ∀ s i o s', I s → P s i → M.Step s i o s' → I s') {s : σ} (h : M.Reach P s) :
    I s := by
  induction h with
  | init h => exact hinit _ h
  | step _ hP hs ih => exact hstep _ _ _ _ ih hP hs

/-- A weaker side condition. -/
theorem Reach.mono {Q : σ → ι → Prop} (hQ : ∀ s i, P s i → Q s i) {s : σ} (h : M.Reach P s) :
    M.Reach Q s := by
  induction h with
  | init h => exact .init h
  | step _ hP hs ih => exact ih.step (hQ _ _ hP) hs

/-- Execute a list of operations one after the other, as long as each is enabled
    and meets `P`. -/
def play (M : Machine σ ι ο) (P : σ → ι → Prop) [∀ s i, Decidable (M.enabled s i)]
    [∀ s i, Decidable (P s i)] : σ → List ι → Option σ
  | s, [] => some s
  | s, i :: l =>
    if M.enabled s i ∧ P s i then (M.exec s i).bind fun r => M.play P r.2 l else none

/-- What a list of operations plays is reached, together with what a test of its
    last state shows. -/
theorem Reach.play [∀ s i, Decidable (M.enabled s i)] [∀ s i, Decidable (P s i)] {s : σ}
    {l : List ι} {p : σ → Prop} [DecidablePred p] (h : M.Reach P s)
    (hp : (M.play P s l).any (fun s => p s) = true) : ∃ s', M.Reach P s' ∧ p s' := by
  induction l generalizing s with
  | nil => exact ⟨s, h, by simpa [Machine.play] using hp⟩
  | cons i l ih =>
    unfold Machine.play at hp
    split at hp
    · next hi =>
      cases hexec : M.exec s i with
      | none => simp [hexec] at hp
      | some r =>
        rw [hexec] at hp
        exact ih (h.step hi.2 ⟨hi.1, hexec⟩) hp
    · simp at hp

/-- What a list of operations plays are steps. -/
theorem steps_play [∀ s i, Decidable (M.enabled s i)] [∀ s i, Decidable (P s i)] {s : σ}
    {l : List ι} {p : σ → Prop} [DecidablePred p]
    (hp : (M.play P s l).any (fun s => p s) = true) : ∃ s', M.Steps s l s' ∧ p s' := by
  induction l generalizing s with
  | nil => exact ⟨s, rfl, by simpa [Machine.play] using hp⟩
  | cons i l ih =>
    unfold Machine.play at hp
    split at hp
    · next hi =>
      cases hexec : M.exec s i with
      | none => simp [hexec] at hp
      | some r =>
        rw [hexec] at hp
        obtain ⟨s', hs, hs'⟩ := ih hp
        exact ⟨s', ⟨r.1, r.2, ⟨hi.1, hexec⟩, hs⟩, hs'⟩
    · simp at hp

/-- After a list of operations has been played, one more step is made, and a test
    shows something about it. -/
theorem Reach.play_step [∀ s i, Decidable (M.enabled s i)] [∀ s i, Decidable (P s i)] {s : σ}
    {l : List ι} {i : ι} {p : σ → ο → σ → Prop} [∀ s o s', Decidable (p s o s')]
    (h : M.Reach P s) (hp : (M.play P s l).any (fun s =>
      M.enabled s i ∧ (M.exec s i).any fun r => p s r.1 r.2) = true) :
    ∃ s o s', M.Reach P s ∧ M.Step s i o s' ∧ p s o s' := by
  obtain ⟨s', hr, hen, hany⟩ := h.play hp
  cases hexec : M.exec s' i with
  | none => simp [hexec] at hany
  | some r =>
    rw [hexec] at hany
    exact ⟨s', r.1, r.2, hr, ⟨hen, hexec⟩, by simpa using hany⟩

end Machine
