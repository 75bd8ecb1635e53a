-- SUMMARY: How often `pth_once` starts its constructor when threads switch while the constructor runs.
import Mathlib.Data.Fintype.Basic
import Pth.Lib.Machine
import Pth.Types

/-!
# Once

`pth_once` tests its control variable, calls the constructor and sets the variable.
Threads only switch when the running one yields, so the test and the start of the
constructor are one step, and so are its end, the assignment and the return; what
happens between them depends on the threads the constructor yields to. -/

namespace Pth

/-- One control variable, initialised with `PTH_ONCE_INIT`, and the calls of `pth_once` on
    it. `depth t` is the number of constructor executions the thread `t` is in. -/
structure OnceRun (τ : Type*) where
  oncectrl : Bool
  current : τ
  depth : τ → ℕ
  started : ℕ
  finished : ℕ
  returned : ℕ

/-- What the running thread does. -/
inductive OnceOp (τ : Type*) where
  /-- It calls `pth_once`, with or without a constructor. -/
  | once (constructor : Bool)
  /-- The constructor it is in returns. -/
  | finish
  /-- It yields, and `t` is the next thread. -/
  | yield (t : τ)

namespace OnceRun

variable {τ : Type*} [DecidableEq τ]

/-- `pth_once` up to the start of the constructor or its return. -/
def once (r : OnceRun τ) (constructor : Bool) : Option Ret × OnceRun τ :=
  if !constructor then (some (.error .EINVAL), r)
  else if r.oncectrl ≠ true then
    (none, { r with depth := Function.update r.depth r.current (r.depth r.current + 1)
                    started := r.started + 1 })
  else (some .ok, { r with oncectrl := true, returned := r.returned + 1 })

theorem once_first {r : OnceRun τ} (h : r.oncectrl = false) :
    r.once true = (none, { r with
      depth := Function.update r.depth r.current (r.depth r.current + 1)
      started := r.started + 1 }) := by
  simp [once, h]

theorem once_later {r : OnceRun τ} (h : r.oncectrl = true) :
    r.once true = (some .ok, { r with oncectrl := true, returned := r.returned + 1 }) := by
  simp [once, h]

/-- The rest of `pth_once` behind the constructor. -/
def finish (r : OnceRun τ) : OnceRun τ :=
  { r with
    depth := Function.update r.depth r.current (r.depth r.current - 1)
    finished := r.finished + 1
    oncectrl := true
    returned := r.returned + 1 }

/-- All interleavings of calls of `pth_once` for one control variable. An operation has an
    output when a call returns. -/
def machine : Machine (OnceRun τ) (OnceOp τ) (Option Ret) where
  init r := r.oncectrl = false ∧ (∀ t, r.depth t = 0) ∧ r.started = 0 ∧ r.finished = 0 ∧
    r.returned = 0
  enabled r
    | .finish => 0 < r.depth r.current
    | .once _ | .yield _ => True
  exec r
    | .once constructor => some (r.once constructor)
    | .finish => some (some .ok, r.finish)
    | .yield t => some (none, { r with current := t })

/-- The constructor has been started at most once, and no call has returned before it was
    finished. -/
def Once (r : OnceRun τ) : Prop := r.started ≤ 1 ∧ (0 < r.returned → 0 < r.finished)

/-- `pth_once` is not called while a constructor runs. -/
def Alone (r : OnceRun τ) (op : OnceOp τ) : Prop := op = .once true → ∀ t, r.depth t = 0

/-- The life of a control variable whose calls never meet. -/
inductive Phase (r : OnceRun τ) : Prop
  | fresh (hctrl : r.oncectrl = false) (hdepth : ∀ t, r.depth t = 0) (hstarted : r.started = 0)
    (hfinished : r.finished = 0) (hreturned : r.returned = 0)
  | constructing {c : τ} (hctrl : r.oncectrl = false)
    (hdepth : ∀ t, r.depth t = if t = c then 1 else 0) (hstarted : r.started = 1)
    (hfinished : r.finished = 0) (hreturned : r.returned = 0)
  | done (hctrl : r.oncectrl = true) (hdepth : ∀ t, r.depth t = 0) (hstarted : r.started = 1)
    (hfinished : r.finished = 1)

variable {r r' : OnceRun τ} {op : OnceOp τ} {o : Option Ret}

theorem Phase.once (h : Phase r) : r.Once := by
  cases h with
  | fresh _ _ hstarted _ hreturned => simp [Once, hstarted, hreturned]
  | constructing _ _ hstarted _ hreturned => simp [Once, hstarted, hreturned]
  | done _ _ hstarted hfinished => simp [Once, hstarted, hfinished]

/-- A step in which no call meets a running constructor. -/
theorem Phase.step (h : Phase r) (hP : r.Alone op) (hs : machine.Step r op o r') : Phase r' := by
  obtain ⟨hen, hexec⟩ := hs
  cases op with
  | once constructor =>
    obtain rfl : (r.once constructor).2 = r' := congrArg Prod.snd (Option.some.inj hexec)
    cases constructor with
    | false => exact h
    | true =>
      cases h with
      | fresh hctrl hdepth hstarted hfinished hreturned =>
        rw [once_first hctrl]
        refine .constructing (c := r.current) hctrl ?_ (by simp [hstarted]) hfinished hreturned
        intro t
        by_cases ht : t = r.current <;> simp [ht, hdepth]
      | @constructing c hctrl hdepth hstarted hfinished hreturned =>
        have hc := hP rfl c
        simp [hdepth] at hc
      | done hctrl hdepth hstarted hfinished =>
        rw [once_later hctrl]
        exact .done rfl hdepth hstarted hfinished
  | finish =>
    have hin : 0 < r.depth r.current := hen
    cases hexec
    cases h with
    | fresh hctrl hdepth => simp [hdepth] at hin
    | @constructing c hctrl hdepth hstarted hfinished hreturned =>
      have hc : r.current = c := by
        by_contra hne
        simp [hdepth, hne] at hin
      refine .done rfl ?_ hstarted (by simp [finish, hfinished])
      intro t
      by_cases ht : t = c <;> simp [finish, ht, hc, hdepth]
    | done hctrl hdepth => simp [hdepth] at hin
  | yield t =>
    cases hexec
    cases h with
    | fresh hctrl hdepth hstarted hfinished hreturned =>
      exact .fresh hctrl hdepth hstarted hfinished hreturned
    | constructing hctrl hdepth hstarted hfinished hreturned =>
      exact .constructing hctrl hdepth hstarted hfinished hreturned
    | done hctrl hdepth hstarted hfinished => exact .done hctrl hdepth hstarted hfinished

/-- As long as no thread calls `pth_once` while a constructor runs, the constructor is started
    once and no call returns before it is finished; the first call that does starts it
    again. -/
theorem once_iff_alone (h : machine.Reach Alone r) :
    r.Once ∧ ∀ op o r', machine.Step r op o r' → (r'.Once ↔ r.Alone op) := by
  have hphase : Phase r := by
    refine h.invariant (I := Phase) ?_ ?_
    · intro r hinit
      obtain ⟨hctrl, hdepth, hstarted, hfinished, hreturned⟩ := hinit
      exact .fresh hctrl hdepth hstarted hfinished hreturned
    · intro r op o r' hr hP hs
      exact hr.step hP hs
  refine ⟨hphase.once, fun op o r' hs => ⟨fun honce => ?_, fun hP => (hphase.step hP hs).once⟩⟩
  rintro rfl
  obtain ⟨-, hexec⟩ := hs
  obtain rfl : (r.once true).2 = r' := congrArg Prod.snd (Option.some.inj hexec)
  cases hphase with
  | fresh hctrl hdepth => exact hdepth
  | constructing hctrl hdepth hstarted =>
    -- the second start
    have hle : r.started + 1 ≤ 1 := by simpa [once_first hctrl] using honce.1
    omega
  | done hctrl hdepth => exact hdepth

instance [Fintype τ] (r : OnceRun τ) (op : OnceOp τ) : Decidable (machine.enabled r op) :=
  match op with
  | .finish => inferInstanceAs (Decidable (0 < r.depth r.current))
  | .once _ | .yield _ => isTrue trivial

instance [Fintype τ] (r : OnceRun τ) : (op : OnceOp τ) → Decidable (r.Alone op)
  | .once true => decidable_of_iff (∀ t, r.depth t = 0) ⟨fun h _ => h, fun h => h rfl⟩
  | .once false | .finish | .yield _ => isTrue nofun

/-- Two threads, of which the first one runs. -/
def start : OnceRun Bool where
  oncectrl := false
  current := false
  depth _ := 0
  started := 0
  finished := 0
  returned := 0

theorem start_reach {P : OnceRun Bool → OnceOp Bool → Prop} : machine.Reach P start :=
  .init ⟨rfl, fun _ => rfl, rfl, rfl, rfl⟩

/-- A constructor that yields to a thread which does not call `pth_once`. -/
theorem once_iff_alone_yielding : ∃ r : OnceRun Bool, machine.Reach Alone r ∧ r.returned = 2 ∧
    r.Once := by
  obtain ⟨r, hr, hreturned⟩ := start_reach.play (P := Alone) (p := fun r => r.returned = 2)
    (l := [.once true, .yield true, .yield false, .finish, .yield true, .once true]) (by decide)
  exact ⟨r, hr, hreturned, (once_iff_alone hr).1⟩

/-- The constructor yields, and the other thread starts it again. -/
theorem once_twice : ∃ r : OnceRun Bool, machine.Reachable r ∧ r.started = 2 ∧ ¬ r.Once := by
  obtain ⟨r, hr, hstarted⟩ := start_reach.play (P := fun _ _ => True)
    (p := fun r => r.started = 2) (l := [.once true, .yield true, .once true]) (by decide)
  refine ⟨r, hr, hstarted, fun honce => ?_⟩
  have hle := honce.1
  omega

end OnceRun

end Pth
