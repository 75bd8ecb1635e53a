-- SUMMARY: Stateful computations that write a log, and monitors that read it.
import Mathlib.Data.Option.Basic
import Pth.Lib.Triple

/-!
# Logged computations

A computation in `Logged σ ℓ` works on a state and may fault, or run out of its fuel, as one in
`StateT σ Option` does. It writes a log, and what it has written is kept when it faults. `erase`
forgets the log. `Watched δ P m Q` runs a monitor `δ` over the log: the monitor accepts every entry,
and what holds when the computation returns may speak of the state that the monitor has reached. -/

/-- A computation with a state and a log. -/
def Logged (σ ℓ α : Type) : Type := σ → List ℓ × Option (α × σ)

namespace Logged

variable {σ ℓ α β : Type}

instance : Monad (Logged σ ℓ) where
  pure a := fun s => ([], some (a, s))
  bind m f := fun s =>
    match (m s).2 with
    | none => ((m s).1, none)
    | some (a, s') => ((m s).1 ++ (f a s').1, (f a s').2)

/-- A computation that writes nothing. -/
def lift (m : StateT σ Option α) : Logged σ ℓ α := fun s => ([], m.run s)

/-- Write an entry. -/
def note (f : σ → ℓ) : Logged σ ℓ Unit := fun s => ([f s], some ((), s))

/-- Write entries that do not depend on the state. -/
def tell (l : List ℓ) : Logged σ ℓ Unit := fun s => (l, some ((), s))

/-- Fault. -/
def failure : Logged σ ℓ α := fun _ => ([], none)

/-- Forget the log. -/
def erase (m : Logged σ ℓ α) : StateT σ Option α := fun s => (m s).2

/-! ## Running -/

variable {s s' : σ} {a : α} {l : List ℓ}

theorem bind_run_some {m : Logged σ ℓ α} {f : α → Logged σ ℓ β} (h : m s = (l, some (a, s'))) :
    (m >>= f) s = (l ++ (f a s').1, (f a s').2) := by
  change (match (m s).2 with
    | none => ((m s).1, none)
    | some (a, s') => ((m s).1 ++ (f a s').1, (f a s').2)) = _
  rw [h]

theorem bind_run_none {m : Logged σ ℓ α} {f : α → Logged σ ℓ β} (h : m s = (l, none)) :
    (m >>= f) s = (l, none) := by
  change (match (m s).2 with
    | none => ((m s).1, none)
    | some (a, s') => ((m s).1 ++ (f a s').1, (f a s').2)) = _
  rw [h]

theorem lift_bind_run {m : StateT σ Option α} {f : α → Logged σ ℓ β} (h : m.run s = some (a, s')) :
    (lift m >>= f) s = f a s' := by
  rw [bind_run_some (l := []) (by rw [lift, h])]
  rfl

theorem note_bind_run {g : σ → ℓ} {f : Unit → Logged σ ℓ β} :
    (note g >>= f) s = (g s :: (f () s).1, (f () s).2) := rfl

/-! ## Erasing -/

@[simp] theorem erase_pure : erase (pure a : Logged σ ℓ α) = pure a := rfl

@[simp] theorem erase_bind {m : Logged σ ℓ α} {f : α → Logged σ ℓ β} :
    erase (m >>= f) = erase m >>= fun a => erase (f a) := by
  funext s
  change (erase (m >>= f)) s = (m s).2.bind fun r => (f r.1 r.2).2
  cases hm : (m s).2 with
  | none => simp only [erase, bind_run_none (l := (m s).1) (Prod.ext rfl hm), Option.bind_none]
  | some r => simp only [erase, bind_run_some (l := (m s).1) (Prod.ext rfl hm), Option.bind_some]

@[simp] theorem erase_lift {m : StateT σ Option α} : erase (lift m : Logged σ ℓ α) = m := rfl

@[simp] theorem erase_note {f : σ → ℓ} : erase (note f) = pure () := rfl

@[simp] theorem erase_tell : erase (tell l : Logged σ ℓ Unit) = pure () := rfl

/-! ## Monitors -/

variable {κ : Type} {δ : κ → ℓ → Option κ} {P P' : κ → σ → Prop}

/-- From a state of the monitor and of the computation that meet `P`, the monitor accepts the whole
    log, and if the computation returns, its result and the two states meet `Q`. -/
def Watched (δ : κ → ℓ → Option κ) (P : κ → σ → Prop) (m : Logged σ ℓ α)
    (Q : α → κ → σ → Prop) : Prop :=
  ∀ q s, P q s → ∃ q', (m s).1.foldlM δ q = some q' ∧ ∀ a s', (m s).2 = some (a, s') → Q a q' s'

/-- The monitor that looks at each entry by itself. -/
def check (T : ℓ → Prop) [DecidablePred T] (_ : Unit) (e : ℓ) : Option Unit :=
  if T e then some () else none

theorem forall_of_check {T : ℓ → Prop} [DecidablePred T] {q q' : Unit}
    (h : l.foldlM (check T) q = some q') : ∀ e ∈ l, T e := by
  induction l generalizing q with
  | nil => simp
  | cons e l ih =>
    rw [List.foldlM_cons, check] at h
    split at h
    case isTrue he => exact List.forall_mem_cons.mpr ⟨he, ih h⟩
    case isFalse => cases h

theorem foldlM_check {T : ℓ → Prop} [DecidablePred T] (h : ∀ e ∈ l, T e) (q : Unit) :
    l.foldlM (check T) q = some () := by
  induction l with
  | nil => rfl
  | cons e l ih =>
    rw [List.foldlM_cons, check, if_pos (h e (by simp))]
    exact ih fun e' he' => h e' (.tail _ he')

namespace Watched

theorem pure {Q : α → κ → σ → Prop} (h : ∀ q s, P q s → Q a q s) :
    Watched δ P (Pure.pure a) Q := by
  intro q s hP
  refine ⟨q, rfl, fun b s' hrun => ?_⟩
  obtain ⟨rfl, rfl⟩ := Prod.mk.inj (Option.some.inj hrun)
  exact h q s hP

theorem bind {m : Logged σ ℓ α} {f : α → Logged σ ℓ β} {R : α → κ → σ → Prop}
    {Q : β → κ → σ → Prop} (hm : Watched δ P m R) (hf : ∀ a, Watched δ (R a) (f a) Q) :
    Watched δ P (m >>= f) Q := by
  intro q s hP
  obtain ⟨q₁, hlog, hret⟩ := hm q s hP
  cases hrun : (m s).2 with
  | none =>
    rw [bind_run_none (l := (m s).1) (Prod.ext rfl hrun)]
    exact ⟨q₁, hlog, fun b s' h => by cases h⟩
  | some r =>
    obtain ⟨q₂, hlog₂, hret₂⟩ := hf r.1 q₁ r.2 (hret r.1 r.2 hrun)
    rw [bind_run_some (l := (m s).1) (Prod.ext rfl hrun)]
    refine ⟨q₂, ?_, hret₂⟩
    rw [List.foldlM_append, hlog]
    exact hlog₂

theorem mono {m : Logged σ ℓ α} {Q Q' : α → κ → σ → Prop} (h : Watched δ P m Q)
    (hP : ∀ q s, P' q s → P q s) (hQ : ∀ a q s, Q a q s → Q' a q s) : Watched δ P' m Q' := by
  intro q s hs
  obtain ⟨q', hlog, hret⟩ := h q s (hP q s hs)
  exact ⟨q', hlog, fun a s' hrun => hQ a q' s' (hret a s' hrun)⟩

/-- A computation that writes nothing leaves the monitor where it is. -/
theorem lift {m : StateT σ Option α} {Q : α → κ → σ → Prop}
    (h : ∀ q, StateT.Triple (P q) m fun a => Q a q) : Watched δ P (Logged.lift m) Q :=
  fun q s hP => ⟨q, rfl, fun a s' hrun => h q s a s' hP hrun⟩

/-- What is known of the monitor alone stays. -/
theorem lift_keep {p : κ → Prop} {m : StateT σ Option α} :
    Watched δ (fun q _ => p q) (Logged.lift m) fun _ q _ => p q :=
  lift fun _ _ _ _ hp _ => hp

theorem tell {l : List ℓ} {Q : Unit → κ → σ → Prop}
    (h : ∀ q s, P q s → ∃ q', l.foldlM δ q = some q' ∧ Q () q' s) :
    Watched δ P (Logged.tell l) Q := by
  intro q s hP
  obtain ⟨q', hlog, hQ⟩ := h q s hP
  refine ⟨q', hlog, fun a s' hrun => ?_⟩
  obtain ⟨rfl, rfl⟩ := Prod.mk.inj (Option.some.inj hrun)
  exact hQ

theorem failure {Q : α → κ → σ → Prop} : Watched δ P (Logged.failure : Logged σ ℓ α) Q :=
  fun q _ _ => ⟨q, rfl, fun a s' hrun => by cases hrun⟩

end Watched

end Logged
