-- SUMMARY: When everybody who has acquired a read-write lock can release it, and the lock is free at the end.
import Mathlib.Data.Fintype.Basic
import Pth.Sync.RwlockRuns

/-!
# Releasing read-write locks

Threads may acquire the lock any number of times and release it as often. The first
reader takes `rw_mutex_rw` for all readers, and the last one gives it back, which
fails unless both are the same thread. The mode of the lock says nothing about
nested calls in different modes, so these go wrong, too. A first reader that waits
for `rw_mutex_rw` has counted itself and has the readers' mutex, so a writer that
leaves meanwhile does not leave the lock as it was. Without such calls the runs are
those of `RwRun`. -/

namespace Pth

/-- The lock, where every thread is, and how many of its acquires it has not
    released yet. -/
structure RwNest (τ : Type*) where
  lock : Rwlock τ RwMutex
  pc : τ → RwPc
  held : τ → ℕ

namespace RwNest

variable {τ : Type*} [DecidableEq τ]

/-- The call of `t` has come as far as `r`; if it returned `TRUE`, the thread now
    holds the lock `n` times. -/
def settle (s : RwNest τ) (t : τ) (n : ℕ) (r : RwOutcome × Rwlock τ RwMutex) :
    RwOutcome × RwNest τ :=
  (r.1,
    match r.1 with
    | .returned .ok =>
      { lock := r.2, pc := Function.update s.pc t .idle, held := Function.update s.held t n }
    | .returned (.error _) => { s with lock := r.2, pc := Function.update s.pc t .idle }
    | .waiting pc => { s with lock := r.2, pc := Function.update s.pc t pc })

/-- How often a thread that holds the lock `n` times will hold it when the call it
    waits in returns `TRUE`. -/
def goal (n : ℕ) : RwPc → ℕ
  | .idle => n
  | .releaseRd => n - 1
  | .acquireRw _ | .acquireRd _ | .acquireRdRw _ => n + 1

def exec (s : RwNest τ) : RwOp τ → Option (RwOutcome × RwNest τ)
  | .acquire t op tryonly extra =>
    (s.lock.acquire id t op tryonly extra).map (s.settle t (s.held t + 1))
  | .woken t pending =>
    (s.lock.woken id t pending (s.pc t)).map (s.settle t (goal (s.held t) (s.pc t)))
  | .release t => (s.lock.release id t).map (s.settle t (s.held t - 1))

/-- Each thread releases only what it has acquired. -/
def enabled (s : RwNest τ) : RwOp τ → Prop
  | .acquire t _ _ _ => s.pc t = .idle
  | .woken t _ => s.pc t ≠ .idle
  | .release t => s.pc t = .idle ∧ 0 < s.held t

instance (s : RwNest τ) : (op : RwOp τ) → Decidable (s.enabled op)
  | .acquire t _ _ _ => inferInstanceAs (Decidable (s.pc t = .idle))
  | .woken t _ => inferInstanceAs (Decidable (s.pc t ≠ .idle))
  | .release t => inferInstanceAs (Decidable (s.pc t = .idle ∧ 0 < s.held t))

/-- The lock initialised; nobody holds it or calls. -/
def init (s : RwNest τ) : Prop :=
  (∃ l : Rwlock τ RwMutex, (∀ t, l.mem.mutexring t = Ring.init) ∧ s.lock = l.init id) ∧
    (∀ t, s.pc t = .idle) ∧ ∀ t, s.held t = 0

def machine : Machine (RwNest τ) (RwOp τ) RwOutcome where
  init := init
  enabled := enabled
  exec := exec

instance (s : RwNest τ) (op : RwOp τ) : Decidable (machine.enabled s op) :=
  inferInstanceAs (Decidable (s.enabled op))

/-- A thread acquires the lock only while it does not hold it, and to write only while
    it does not own `rw_mutex_rw`; the last reader to leave owns `rw_mutex_rw`, and a
    writer leaves only while no reader waits for `rw_mutex_rw`. -/
def Orderly (s : RwNest τ) : RwOp τ → Prop
  | .acquire t .RD _ _ => s.held t = 0
  | .acquire t .RW _ _ => s.held t = 0 ∧ (s.lock.mem.mutex .rw).mxOwner ≠ some t
  | .woken _ _ => True
  | .release t =>
    (s.lock.rwMode = .RD → s.lock.rwReaders = 1 → (s.lock.mem.mutex .rw).mxOwner = some t) ∧
      (s.lock.rwMode = .RW → ∀ u extra, s.pc u ≠ .acquireRdRw extra)

instance [Fintype τ] (s : RwNest τ) : (op : RwOp τ) → Decidable (s.Orderly op)
  | .acquire t .RD _ _ => inferInstanceAs (Decidable (s.held t = 0))
  | .acquire t .RW _ _ =>
    inferInstanceAs (Decidable (s.held t = 0 ∧ (s.lock.mem.mutex .rw).mxOwner ≠ some t))
  | .woken _ _ => inferInstanceAs (Decidable True)
  | .release _ => inferInstanceAs (Decidable ((_ → _ → _) ∧ (_ → ∀ _ _, _)))

/-! ## Orderly runs -/

/-- The same state in a run without nested calls. -/
structure Flat (s : RwNest τ) (r : RwRun τ) : Prop where
  lock : s.lock = r.lock
  pc : s.pc = r.pc
  held : ∀ t, s.held t = if r.holds t = none then 0 else 1

variable {s : RwNest τ} {r : RwRun τ} {t : τ}

theorem Flat.settle {n : ℕ} {mode : Option RwMode} (h : s.Flat r)
    (hn : n = if mode = none then 0 else 1) (x : RwOutcome × Rwlock τ RwMutex) :
    (s.settle t n x).2.Flat (r.settle t mode x).2 := by
  obtain ⟨out, l⟩ := x
  cases out with
  | returned ret =>
    cases ret with
    | ok =>
      refine ⟨rfl, by simp [RwNest.settle, RwRun.settle, h.pc], fun u => ?_⟩
      by_cases hu : u = t
      · subst hu
        simpa [RwNest.settle, RwRun.settle] using hn
      · simpa [RwNest.settle, RwRun.settle, hu] using h.held u
    | error e => exact ⟨rfl, by simp [RwNest.settle, RwRun.settle, h.pc], h.held⟩
  | waiting pc => exact ⟨rfl, by simp [RwNest.settle, RwRun.settle, h.pc], h.held⟩

omit [DecidableEq τ] in
theorem Flat.holds_none (h : s.Flat r) (ht : s.held t = 0) : r.holds t = none := by
  have hheld := h.held t
  rw [ht] at hheld
  by_contra hne
  simp [hne] at hheld

omit [DecidableEq τ] in
theorem Flat.holds_ne_none (h : s.Flat r) (ht : 0 < s.held t) : r.holds t ≠ none := by
  intro hnone
  have hheld := h.held t
  simp [hnone] at hheld
  omega

/-- A call does the same in both runs. -/
theorem Flat.call {n : ℕ} {mode : Option RwMode} {l : Option (RwOutcome × Rwlock τ RwMutex)}
    {x : RwOutcome} {s' : RwNest τ} (h : s.Flat r) (hn : n = if mode = none then 0 else 1)
    (hs : l.map (s.settle t n) = some (x, s')) :
    ∃ r', l.map (r.settle t mode) = some (x, r') ∧ s'.Flat r' := by
  obtain ⟨y, rfl, hy⟩ := Option.map_eq_some_iff.mp hs
  have hflat := h.settle (t := t) hn y
  rw [hy] at hflat
  have hx : y.1 = x := congrArg Prod.fst hy
  refine ⟨_, ?_, hflat⟩
  rw [← hx]
  rfl

/-- An orderly operation may come in the run without nested calls, and does the same
    there. -/
theorem Flat.exec {op : RwOp τ} {x : RwOutcome} {s' : RwNest τ} {o : RwMutex → Option τ}
    {R : List τ} (h : s.Flat r) (hgood : r.Good o R) (hen : s.enabled op) (hop : s.Orderly op)
    (hs : s.exec op = some (x, s')) :
    r.enabled op ∧ r.NotOwner op ∧ r.Unawaited op ∧
      ∃ r', r.exec op = some (x, r') ∧ s'.Flat r' := by
  cases op with
  | acquire t mode tryonly extra =>
    have hpc : r.pc t = .idle := h.pc ▸ hen
    have hheld : s.held t = 0 := by
      cases mode with
      | RD => exact hop
      | RW => exact hop.1
    have hown : r.NotOwner (.acquire t mode tryonly extra) := by
      cases mode with
      | RD => trivial
      | RW =>
        have hne := hop.2
        rwa [h.lock] at hne
    refine ⟨⟨hpc, h.holds_none hheld⟩, hown, trivial, ?_⟩
    rw [RwNest.exec, h.lock] at hs
    exact h.call (by simp [hheld]) hs
  | woken t pending =>
    have hpc : r.pc t ≠ .idle := h.pc ▸ hen
    obtain ⟨hnone, hrel⟩ := hgood.calling t hpc
    have hheld : s.held t = 0 := by simp [h.held, hnone]
    refine ⟨hpc, trivial, trivial, ?_⟩
    rw [RwNest.exec, h.lock, h.pc, hheld] at hs
    refine h.call ?_ hs
    cases hp : r.pc t with
    | idle => exact absurd hp hpc
    | releaseRd => exact absurd hp hrel
    | _ => rfl
  | release t =>
    have hne := h.holds_ne_none hen.2
    have hheld : s.held t = 1 := by simp [h.held, hne]
    have hno : r.Unawaited (.release t) := fun hwrite u extra => by
      rw [← h.pc]
      exact hop.2 (h.lock ▸ (hgood.writing t hwrite).2.1) u extra
    refine ⟨⟨h.pc ▸ hen.1, hne⟩, trivial, hno, ?_⟩
    rw [RwNest.exec, h.lock, hheld] at hs
    exact h.call (by simp) hs

/-- A run without nested calls, and its invariant. -/
def Fine (s : RwNest τ) : Prop := ∃ r o R, s.Flat r ∧ RwRun.Good r o R ∧ RwRun.Guarded o

omit [DecidableEq τ] in
theorem Fine.init (h : s.init) : s.Fine := by
  obtain ⟨hlock, hpc, hheld⟩ := h
  have hinit : RwRun.init { lock := s.lock, pc := s.pc, holds := fun _ => none } :=
    ⟨hlock, hpc, fun _ => rfl⟩
  exact ⟨_, _, _, ⟨rfl, rfl, by simp [hheld]⟩, .init hinit, by simp [RwRun.Guarded]⟩

theorem Fine.step {op : RwOp τ} {x : RwOutcome} {s' : RwNest τ} (h : s.Fine)
    (hop : s.Orderly op) (hs : machine.Step s op x s') : s'.Fine := by
  obtain ⟨r, o, R, hflat, hgood, hguard⟩ := h
  obtain ⟨hen, hown, hno, r', hr', hflat'⟩ := hflat.exec hgood hs.1 hop hs.2
  obtain ⟨x', r'', hr'', o', R', hgood', hkeep⟩ := hgood.exec hen hown
  obtain ⟨-, rfl⟩ : x = x' ∧ r' = r'' := by simpa using hr'.symm.trans hr''
  exact ⟨r', o', R', hflat', hgood', hkeep hguard hno⟩

theorem Fine.reach (h : machine.Reach Orderly s) : s.Fine :=
  h.invariant (I := Fine) (fun _ => Fine.init) fun _ _ _ _ hI hP hs => hI.step hP hs

/-- An orderly release returns `TRUE` at once. -/
theorem Fine.release (h : s.Fine) (hen : s.enabled (.release t)) (hop : s.Orderly (.release t)) :
    ∃ s', s.exec (.release t) = some (.returned .ok, s') := by
  obtain ⟨r, o, R, hflat, hgood, -⟩ := h
  obtain ⟨x, hx, hok, -⟩ := hgood.release (hflat.holds_ne_none hen.2)
  have hret : x.1 = .returned .ok := by
    refine hok fun hone hread => ?_
    have hmode := (hgood.reading (List.ne_nil_of_mem ((hgood.reader t).mpr hread))).2
    rw [← hgood.mem.owner, ← hflat.lock]
    exact hop.1 (hflat.lock ▸ hmode) (hflat.lock ▸ hone)
  refine ⟨(s.settle t (s.held t - 1) x).2, ?_⟩
  rw [RwNest.exec, hflat.lock, hx, ← hret]
  rfl

omit [DecidableEq τ] in
/-- When nobody holds the lock, it is as it was at the beginning. -/
theorem Fine.free (h : s.Fine) (hnone : ∀ t, s.held t = 0) :
    s.lock.rwReaders = 0 ∧ (s.lock.mem.mutex .rd).mxLocked = false ∧
      (s.lock.mem.mutex .rw).mxLocked = false := by
  obtain ⟨r, o, R, hflat, hgood, hguard⟩ := h
  have hholds : ∀ t, r.holds t = none := fun t => hflat.holds_none (hnone t)
  have hR : R = [] := by
    refine List.eq_nil_iff_forall_not_mem.mpr fun t ht => ?_
    have hread := (hgood.reader t).mp ht
    simp [hholds] at hread
  have hrw : o .rw = none := by
    refine Option.eq_none_iff_forall_ne_some.mpr fun t ht => ?_
    rcases hgood.owner t ht with hwrite | hne
    · simp [hholds] at hwrite
    · exact hne hR
  have hrd : o .rd = none := by
    by_contra hne
    exact hguard hne hrw
  rw [hflat.lock]
  exact ⟨by simp [hgood.readers, hR, hrd], hgood.mem.unlocked hrd, hgood.mem.unlocked hrw⟩

/-- In orderly runs every release returns `TRUE`, and once nobody holds the lock there are
    no readers and both mutexes are unlocked. -/
theorem orderly_released (h : machine.Reach Orderly s) :
    (∀ t, s.enabled (.release t) → s.Orderly (.release t) →
      ∃ s', machine.Step s (.release t) (.returned .ok) s') ∧
    ((∀ t, s.held t = 0) → s.lock.rwReaders = 0 ∧ (s.lock.mem.mutex .rd).mxLocked = false ∧
      (s.lock.mem.mutex .rw).mxLocked = false) := by
  have hfine := Fine.reach h
  refine ⟨fun t hen hop => ?_, hfine.free⟩
  obtain ⟨s', hs'⟩ := hfine.release hen hop
  exact ⟨s', hen, hs'⟩

/-- Nobody has called yet. -/
def start (mode : RwMode) (L : Links RwMutex) : RwNest τ where
  lock := (RwRun.start mode L : RwRun τ).lock
  pc _ := .idle
  held _ := 0

omit [DecidableEq τ] in
theorem start_init (mode : RwMode) (L : Links RwMutex) : (start mode L : RwNest τ).init :=
  ⟨(RwRun.start_init mode L).1, fun _ => rfl, fun _ => rfl⟩

/-- A writer leaves after the reader that waited has given up; then come two readers, of
    which the first one leaves last. -/
theorem orderly_released_readers : ∃ s s' : RwNest (Fin 2), machine.Reach Orderly s ∧
    s.enabled (.release 0) ∧ s.Orderly (.release 0) ∧
    machine.Step s (.release 0) (.returned .ok) s' ∧ machine.Reach Orderly s' ∧
    (∀ t, s'.held t = 0) ∧ s'.lock.rwReaders = 0 ∧ (s'.lock.mem.mutex .rd).mxLocked = false ∧
    (s'.lock.mem.mutex .rw).mxLocked = false := by
  have h₀ := Machine.Reach.init (M := machine) (P := Orderly)
    (start_init (τ := Fin 2) .RW ⟨fun _ => none, fun _ => none⟩)
  obtain ⟨s, hs, hen, hop, hheld⟩ := h₀.play
    (l := [.acquire 0 .RW false false, .acquire 1 .RD false true, .woken 1 true, .release 0,
      .acquire 0 .RD false false, .acquire 1 .RD true false, .release 1])
    (p := fun s => s.enabled (.release 0) ∧ s.Orderly (.release 0) ∧
      ∀ r ∈ s.exec (.release 0), ∀ t, r.2.held t = 0) (by decide)
  obtain ⟨s', hs'⟩ := (orderly_released hs).1 0 hen hop
  have hreach := hs.step hop hs'
  have hnone : ∀ t, s'.held t = 0 := hheld _ hs'.2
  exact ⟨s, s', hs, hen, hop, hs', hreach, hnone, (orderly_released hreach).2 hnone⟩

/-- Two readers, of which the first one leaves first: the second one cannot release
    the lock. -/
theorem release_last_reader : ∃ s s' : RwNest ℕ, machine.Reachable s ∧ 0 < s.held 1 ∧
    machine.Step s (.release 1) (.returned (.error .EACCES)) s' := by
  have h₀ := Machine.Reach.init (M := machine) (P := fun _ _ => True)
    (start_init (τ := ℕ) .RW ⟨fun _ => none, fun _ => none⟩)
  obtain ⟨s, x, s', hs, hstep, hheld, rfl⟩ := h₀.play_step
    (l := [.acquire 0 .RD false false, .acquire 1 .RD false false, .release 0])
    (i := .release 1) (p := fun s x _ => 0 < s.held 1 ∧ x = .returned (.error .EACCES))
    (by decide)
  exact ⟨s, s', hs, hheld, hstep⟩

end RwNest

end Pth
