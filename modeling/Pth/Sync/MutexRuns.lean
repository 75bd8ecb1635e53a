-- SUMMARY: Any interleaving of acquire and release calls on any mutexes keeps the mutex invariant.
import Pth.Lib.Machine
import Pth.Sync.Mutex

/-!
# Interleaved mutex calls

Threads call `pth_mutex_acquire` and `pth_mutex_release` in any order. A thread
that has to wait stays in its call and looks at the mutex again when `pth_wait`
returns, which may happen at any time here. The machine also counts, for every
mutex and thread, the calls that returned `TRUE`. -/

namespace Pth

/-- Where a thread is: outside of the calls, or inside `pth_mutex_acquire` at
    `pth_wait`, with or without extra events. -/
inductive MutexPc (μ : Type*) where
  | idle
  | waiting (m : μ) (extra : Bool)
  deriving DecidableEq, Repr

structure MutexRun (τ μ : Type*) where
  mem : MutexState τ μ
  pc : τ → MutexPc μ
  acquired : μ → τ → ℕ
  released : μ → τ → ℕ

inductive MutexOp (τ μ : Type*) where
  | acquire (t : τ) (mutex : Option μ) (tryonly extra : Bool)
  | woken (t : τ) (pending : Bool)
  | release (t : τ) (mutex : Option μ)

variable {τ μ : Type*} [DecidableEq τ] [DecidableEq μ]

/-- Count one call more. -/
def bump (f : μ → τ → ℕ) (m : μ) (t : τ) : μ → τ → ℕ :=
  Function.update f m (Function.update (f m) t (f m t + 1))

theorem bump_apply (f : μ → τ → ℕ) (m y : μ) (t u : τ) :
    bump f m t y u = f y u + if y = m ∧ u = t then 1 else 0 := by
  unfold bump
  by_cases hy : y = m
  · subst hy
    by_cases hu : u = t <;> simp [hu]
  · simp [hy]

namespace MutexRun

/-- `pth_mutex_acquire` on `m` has come as far as `o`. -/
def acquireStep (s : MutexRun τ μ) (t : τ) (mutex : Option μ) (extra : Bool)
    (r : Acquire μ × MutexState τ μ) : Acquire μ × MutexRun τ μ :=
  (r.1,
    match r.1, mutex with
    | .returned .ok, some m =>
      { s with mem := r.2, pc := Function.update s.pc t .idle, acquired := bump s.acquired m t }
    | .waiting m, _ => { s with mem := r.2, pc := Function.update s.pc t (.waiting m extra) }
    | _, _ => { s with mem := r.2, pc := Function.update s.pc t .idle })

def exec (s : MutexRun τ μ) : MutexOp τ μ → Option (Acquire μ × MutexRun τ μ)
  | .acquire t mutex tryonly extra =>
    (s.mem.acquire t mutex tryonly).map (s.acquireStep t mutex extra)
  | .woken t pending =>
    match s.pc t with
    | .idle => none
    | .waiting m extra =>
      (s.mem.acquireWoken t m extra pending).map (s.acquireStep t (some m) extra)
  | .release t mutex =>
    (s.mem.release t mutex).map fun r =>
      (.returned r.1,
        match r.1, mutex with
        | .ok, some m => { s with mem := r.2, released := bump s.released m t }
        | _, _ => { s with mem := r.2 })

/-- A thread calls only when it is not inside a call. -/
def enabled (s : MutexRun τ μ) : MutexOp τ μ → Prop
  | .acquire t _ _ _ | .release t _ => s.pc t = .idle
  | .woken t _ => s.pc t ≠ .idle

instance (s : MutexRun τ μ) : (op : MutexOp τ μ) → Decidable (s.enabled op)
  | .acquire t _ _ _ | .release t _ => inferInstanceAs (Decidable (s.pc t = .idle))
  | .woken t _ => inferInstanceAs (Decidable (s.pc t ≠ .idle))

/-- All mutexes initialised, nobody holds or waits. The links of the nodes are
    arbitrary. -/
def init (s : MutexRun τ μ) : Prop :=
  (∀ m, s.mem.mutex m = Mutex.init) ∧ (∀ t, s.mem.mutexring t = Ring.init) ∧
    (∀ t, s.pc t = .idle) ∧ s.acquired = (fun _ _ => 0) ∧ s.released = fun _ _ => 0

/-- The machine of all threads and mutexes. -/
def machine : Machine (MutexRun τ μ) (MutexOp τ μ) (Acquire μ) where
  init := init
  enabled := enabled
  exec := exec

instance (s : MutexRun τ μ) (op : MutexOp τ μ) : Decidable (machine.enabled s op) :=
  inferInstanceAs (Decidable (s.enabled op))

/-- A mutex counts the calls of its owner that are still open, and nobody else
    has any. -/
structure Inv (s : MutexRun τ μ) : Prop where
  wf : s.mem.WellFormed
  balance : ∀ m t, (s.acquired m t : ℤ) - s.released m t =
    if (s.mem.mutex m).mxOwner = some t then (s.mem.mutex m).mxCount else 0

omit [DecidableEq μ] in
theorem Inv.init {s : MutexRun τ μ} (h : s.init) : s.Inv := by
  obtain ⟨hmutex, hring, -, hacq, hrel⟩ := h
  refine ⟨⟨_, MutexState.Inv.init hmutex hring⟩, fun m t => ?_⟩
  simp [hacq, hrel, hmutex, Mutex.init]

/-- One more call of `pth_mutex_acquire` has returned `TRUE`. -/
theorem Inv.taken {s : MutexRun τ μ} {mem' : MutexState τ μ} {t : τ} {m : μ}
    {pc' : τ → MutexPc μ} (h : s.Inv) (ht : s.mem.Taken mem' t m) :
    Inv { s with mem := mem', pc := pc', acquired := bump s.acquired m t } where
  wf := ht.wf
  balance y u := by
    have hbal := h.balance y u
    simp only [bump_apply, ht.mutex]
    by_cases hy : y = m
    · subst hy
      simp only [Function.update_self, true_and]
      by_cases hu : u = t
      · subst hu
        obtain ⟨held, hinv⟩ := h.wf
        rcases ht.owner with hnone | hown
        · simp only [hnone, reduceCtorEq, if_false] at hbal
          simp only [if_true, (hinv.ok y).count_zero hnone]
          omega
        · simp only [hown, if_true] at hbal
          simp only [if_true]
          omega
      · have hnot : (s.mem.mutex y).mxOwner ≠ some u := by
          rcases ht.owner with hnone | hown
          · simp [hnone]
          · simpa [hown] using fun heq => hu heq.symm
        have hut : ¬ some t = some u := by simpa using fun heq => hu heq.symm
        simp only [hnot, if_false] at hbal
        simp only [hu, hut, if_false]
        omega
    · simpa [hy] using hbal

/-- One more call of `pth_mutex_release` has returned `TRUE`. -/
theorem Inv.given {s : MutexRun τ μ} {mem' : MutexState τ μ} {t : τ} {m : μ} (h : s.Inv)
    (ht : s.mem.Given mem' t m) :
    Inv { s with mem := mem', released := bump s.released m t } where
  wf := ht.wf
  balance y u := by
    have hbal := h.balance y u
    simp only [bump_apply, ht.mutex]
    by_cases hy : y = m
    · subst hy
      simp only [ht.owner] at hbal
      simp only [Function.update_self, true_and]
      by_cases hu : u = t
      · subst hu
        simp only [if_true] at hbal
        by_cases hc : (s.mem.mutex y).mxCount = 1
        · simp only [hc, if_true, reduceCtorEq, if_false]
          omega
        · simp only [hc, if_false, if_true, ht.owner]
          omega
      · have hut : ¬ some t = some u := by simpa using fun heq => hu heq.symm
        simp only [hut, if_false] at hbal
        have hafter : (if (s.mem.mutex y).mxCount = 1 then
            { s.mem.mutex y with mxLocked := false, mxOwner := none, mxCount := 0 }
            else { s.mem.mutex y with mxCount := (s.mem.mutex y).mxCount - 1 }).mxOwner ≠
            some u := by
          split
          · simp
          · simpa [ht.owner] using fun heq => hu heq.symm
        simp only [hu, hafter, if_false]
        omega
    · simpa [hy] using hbal

/-- `pth_mutex_acquire` gets on by one step. -/
theorem Inv.acquireStep {s : MutexRun τ μ} {mem' : MutexState τ μ} {t : τ} {o : Acquire μ}
    {mutex : Option μ} (h : s.Inv) (extra : Bool)
    (hres : o = .returned .ok ∧ (∃ m, mutex = some m ∧ s.mem.Taken mem' t m) ∨
      o ≠ .returned .ok ∧ mem' = s.mem) :
    (s.acquireStep t mutex extra (o, mem')).2.Inv ∧
      (o ≠ .returned .ok → (s.acquireStep t mutex extra (o, mem')).2.mem = s.mem) := by
  rcases hres with ⟨rfl, m, rfl, ht⟩ | ⟨hne, rfl⟩
  · exact ⟨h.taken ht, fun hne => absurd rfl hne⟩
  · cases o with
    | waiting m => exact ⟨⟨h.wf, h.balance⟩, fun _ => rfl⟩
    | returned r =>
      cases r with
      | ok => exact absurd rfl hne
      | error e => exact ⟨⟨h.wf, h.balance⟩, fun _ => rfl⟩

/-- Every enabled operation succeeds and keeps the invariant; it changes the
    mutexes only if the call returns `TRUE`. -/
theorem Inv.exec {s : MutexRun τ μ} {op : MutexOp τ μ} (h : s.Inv) (hen : s.enabled op) :
    ∃ o s', s.exec op = some (o, s') ∧ s'.Inv ∧ (o ≠ .returned .ok → s'.mem = s.mem) := by
  cases op with
  | acquire t mutex tryonly extra =>
    obtain ⟨o, mem', hacq, hres⟩ := h.wf.acquire t mutex tryonly
    exact ⟨o, _, by rw [MutexRun.exec, hacq]; rfl, h.acquireStep extra hres⟩
  | woken t pending =>
    cases hpc : s.pc t with
    | idle => exact absurd hpc hen
    | waiting m extra =>
      obtain ⟨o, mem', hacq, hres⟩ := h.wf.acquireWoken t m extra pending
      refine ⟨o, _, by simp only [MutexRun.exec, hpc, hacq]; rfl, h.acquireStep extra ?_⟩
      exact hres.imp (fun ht => ⟨ht.1, m, rfl, ht.2.2⟩) id
  | release t mutex =>
    obtain ⟨r, mem', hrel, ⟨rfl, m, rfl, ht⟩ | ⟨hne, rfl⟩⟩ := h.wf.release t mutex
    · refine ⟨.returned .ok, _, by rw [MutexRun.exec, hrel]; rfl, h.given ht, ?_⟩
      exact fun hne => absurd rfl hne
    · cases r with
      | ok => exact absurd rfl hne
      | error e =>
        exact ⟨.returned (.error e), s, by rw [MutexRun.exec, hrel]; rfl, h, fun _ => rfl⟩

theorem Inv.reachable {s : MutexRun τ μ} (h : machine.Reachable s) : s.Inv := by
  refine Machine.Reach.invariant (fun _ => Inv.init) ?_ h
  rintro s op o s' hinv _ ⟨hen, hexec⟩
  obtain ⟨o', s'', hexec', hinv', -⟩ := hinv.exec hen
  obtain ⟨-, rfl⟩ : o = o' ∧ s' = s'' := by simpa using hexec.symm.trans hexec'
  exact hinv'

/-- In every reachable state a mutex is locked exactly while it has an owner and
    exactly while it counts a lock; it counts the open locks of its owner and no
    other thread has any; its node is in the ring of its owner once and in no
    other ring. No call faults, and a call that does not return `TRUE` changes
    nothing. -/
theorem mutexes_ok {s : MutexRun τ μ} (h : machine.Reachable s) :
    (∀ m, ((s.mem.mutex m).mxLocked = true ↔ (s.mem.mutex m).mxOwner ≠ none) ∧
      ((s.mem.mutex m).mxOwner ≠ none ↔ 1 ≤ (s.mem.mutex m).mxCount)) ∧
    (∀ m t, (s.acquired m t : ℤ) - s.released m t =
      if (s.mem.mutex m).mxOwner = some t then (s.mem.mutex m).mxCount else 0) ∧
    (∀ t, s.mem.node.Cycle (s.mem.ringNodes t) ∧ ∀ m, (s.mem.ringNodes t).count m =
      if (s.mem.mutex m).mxOwner = some t then 1 else 0) ∧
    ∀ op, s.enabled op → ∃ o s', s.exec op = some (o, s') ∧
      (o ≠ .returned .ok → s'.mem = s.mem) := by
  have hinv := Inv.reachable h
  obtain ⟨held, hheld⟩ := hinv.wf
  refine ⟨fun m => ⟨(hheld.ok m).locked, (hheld.ok m).count_pos, fun hpos hnone => ?_⟩,
    hinv.balance, fun t => ?_, fun op hen => ?_⟩
  · rw [(hheld.ok m).count_zero hnone] at hpos
    omega
  · rw [hheld.ringNodes]
    refine ⟨(hheld.ring t).cycle, fun m => ?_⟩
    by_cases hm : (s.mem.mutex m).mxOwner = some t
    · rw [if_pos hm]
      exact List.count_eq_one_of_mem (hheld.ring t).nodup ((hheld.owner m t).mpr hm)
    · rw [if_neg hm]
      exact List.count_eq_zero_of_not_mem fun hmem => hm ((hheld.owner m t).mp hmem)
  · obtain ⟨o, s', hexec, -, hkeep⟩ := hinv.exec hen
    exact ⟨o, s', hexec, hkeep⟩

/-- Nobody has called yet. -/
def start (L : Links μ) : MutexRun τ μ where
  mem := { mutex := fun _ => Mutex.init, node := L, mutexring := fun _ => Ring.init }
  pc _ := .idle
  acquired _ _ := 0
  released _ _ := 0

omit [DecidableEq τ] [DecidableEq μ] in
theorem start_init (L : Links μ) : (start L : MutexRun τ μ).init :=
  ⟨fun _ => rfl, fun _ => rfl, fun _ => rfl, rfl, rfl⟩

/-- Thread 0 locks mutex 0 twice and gives it up once, while thread 1 waits for
    it. -/
theorem mutexes_ok_waiter : ∃ s : MutexRun ℕ ℕ, machine.Reachable s ∧
    s.pc 1 = .waiting 0 false ∧ (s.mem.mutex 0).mxCount = 1 ∧
    (s.acquired 0 0 : ℤ) - s.released 0 0 = 1 ∧ (s.mem.ringNodes 0).count 0 = 1 := by
  have h₀ := Machine.Reach.init (M := machine) (P := fun _ _ => True)
    (start_init (τ := ℕ) ⟨fun _ : ℕ => none, fun _ => none⟩)
  obtain ⟨s, hs, hpc, hcount, hown⟩ := h₀.play
    (l := [.acquire 0 (some 0) false false, .acquire 0 (some 0) true false,
      .acquire 1 (some 0) false false, .release 0 (some 0)])
    (p := fun s => s.pc 1 = .waiting 0 false ∧ (s.mem.mutex 0).mxCount = 1 ∧
      (s.mem.mutex 0).mxOwner = some 0) (by decide)
  obtain ⟨-, hbal, hring, -⟩ := mutexes_ok hs
  refine ⟨s, hs, hpc, hcount, ?_, ?_⟩
  · simpa [hown, hcount] using hbal 0 0
  · simpa [hown] using (hring 0).2 0

end MutexRun

end Pth
