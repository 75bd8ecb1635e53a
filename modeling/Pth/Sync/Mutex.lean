-- SUMMARY: The mutexes of pth_sync.c with the rings of held mutexes, and what acquire and release do to them.
import Pth.Types
import Pth.Queue.Ring

/-!
# Mutexes

A mutex records its owner and how often the owner has locked it, and its node is
linked into the ring of mutexes its owner holds. `pth_mutex_acquire` may have to
wait; the function is cut at its call of `pth_wait`, since other threads run
there. -/

namespace Pth

/-- `struct pth_mutex_st`: the two bits of `mx_state`, the owner and the recursion
    counter, an `unsigned long`. The node is kept in `MutexState`. -/
structure Mutex (τ : Type*) where
  mxInitialized : Bool
  mxLocked : Bool
  mxOwner : Option τ
  mxCount : ℤ

/-- All mutexes `μ`, the links of their nodes, and the `mutexring` of each
    thread `τ`. -/
structure MutexState (τ μ : Type*) where
  mutex : μ → Mutex τ
  node : Links μ
  mutexring : τ → Ring μ

/-- How `pth_mutex_acquire` gets on: it returns, or waits for the mutex. -/
inductive Acquire (μ : Type*) where
  | returned (r : Ret)
  | waiting (m : μ)
  deriving DecidableEq, Repr

variable {τ μ : Type*} [DecidableEq τ] [DecidableEq μ]

/-- `pth_mutex_init` -/
def Mutex.init : Mutex τ :=
  { mxInitialized := true, mxLocked := false, mxOwner := none, mxCount := 0 }

namespace MutexState

def setMutex (s : MutexState τ μ) (m : μ) (x : Mutex τ) : MutexState τ μ :=
  { s with mutex := Function.update s.mutex m x }

/-- Take a mutex that is not locked. -/
def lock (s : MutexState τ μ) (current : τ) (m : μ) : Option (MutexState τ μ) :=
  let x := { s.mutex m with mxLocked := true, mxOwner := some current, mxCount := 1 }
  ((s.mutexring current).append s.node m).map fun (r, L) =>
    { mutex := Function.update s.mutex m x, node := L,
      mutexring := Function.update s.mutexring current r }

/-- `pth_mutex_acquire` up to its return or its first wait. -/
def acquire (s : MutexState τ μ) (current : τ) (mutex : Option μ) (tryonly : Bool) :
    Option (Acquire μ × MutexState τ μ) :=
  match mutex with
  | none => some (.returned (.error .EINVAL), s)
  | some m =>
    let x := s.mutex m
    if !x.mxInitialized then some (.returned (.error .EDEADLK), s)
    else if !x.mxLocked then
      -- still not locked, so simply acquire mutex
      (s.lock current m).map fun s' => (.returned .ok, s')
    else if x.mxCount ≥ 1 ∧ x.mxOwner = some current then
      -- recursive lock
      some (.returned .ok, s.setMutex m { x with mxCount := x.mxCount + 1 })
    else if tryonly then some (.returned (.error .EBUSY), s)
    else some (.waiting m, s)

/-- The rest of the waiting loop of `pth_mutex_acquire` after `pth_wait`: `extra`
    says whether there are extra events, `pending` is whether the event for the
    mutex is still pending. -/
def acquireWoken (s : MutexState τ μ) (current : τ) (m : μ) (extra pending : Bool) :
    Option (Acquire μ × MutexState τ μ) :=
  if extra && pending then some (.returned (.error .EINTR), s)
  else if !(s.mutex m).mxLocked then (s.lock current m).map fun s' => (.returned .ok, s')
  else some (.waiting m, s)

/-- `pth_mutex_release` -/
def release (s : MutexState τ μ) (current : τ) (mutex : Option μ) :
    Option (Ret × MutexState τ μ) :=
  match mutex with
  | none => some (.error .EINVAL, s)
  | some m =>
    let x := s.mutex m
    if !x.mxInitialized then some (.error .EDEADLK, s)
    else if !x.mxLocked then some (.error .EDEADLK, s)
    else if x.mxOwner ≠ some current then some (.error .EACCES, s)
    else
      -- decrement recursion counter and release mutex
      let count := x.mxCount - 1
      if count ≤ 0 then
        let x' := { x with mxLocked := false, mxOwner := none, mxCount := 0 }
        ((s.mutexring current).delete s.node m).map fun (r, L) =>
          (.ok, { mutex := Function.update s.mutex m x', node := L,
                  mutexring := Function.update s.mutexring current r })
      else some (.ok, s.setMutex m { x with mxCount := count })

/-- The loop of `pth_mutex_releaseall`, standing at the node `rn`. -/
def releaseallLoop (current thread : τ) (rnf : Option μ) :
    Nat → MutexState τ μ → Option μ → Option (MutexState τ μ)
  | _, s, none => some s
  | 0, _, some _ => none
  | n + 1, s, some rn => do
    let (_, s') ← s.release current (some rn)
    let rn' := (s'.mutexring thread).next s'.node rn
    if rn' = rnf then some s' else releaseallLoop current thread rnf n s' rn'

/-- `pth_mutex_releaseall` -/
def releaseall (s : MutexState τ μ) (current thread : τ) : Option (MutexState τ μ) :=
  let rnf := (s.mutexring thread).first
  releaseallLoop current thread rnf (s.mutexring thread).rNodes.toNat s rnf

/-- The mutexes met by walking the ring of a thread with `pth_ring_next`. -/
def ringNodes (s : MutexState τ μ) (t : τ) : List μ :=
  walkList ((s.mutexring t).next s.node) (s.mutexring t).rNodes.toNat (s.mutexring t).first

/-! ## Everything a call can do -/

variable {s s' : MutexState τ μ} {u : τ} {m : μ}

/-- What `pth_mutex_acquire` may do up to its return or its next wait; `fails` is the condition
    under which it returns an error. -/
inductive AcquireCase (s : MutexState τ μ) (u : τ) (m : μ) (fails : Prop) :
    Acquire μ → MutexState τ μ → Prop
  | error (e : Errno) (h : fails) : AcquireCase s u m fails (.returned (.error e)) s
  | locked {s' : MutexState τ μ} (hfree : (s.mutex m).mxLocked = false)
    (hlock : s.lock u m = some s') : AcquireCase s u m fails (.returned .ok) s'
  | again (hown : (s.mutex m).mxOwner = some u) : AcquireCase s u m fails (.returned .ok)
    (s.setMutex m { s.mutex m with mxCount := (s.mutex m).mxCount + 1 })
  | waiting : AcquireCase s u m fails (.waiting m) s

theorem acquire_cases {tryonly : Bool} {o : Acquire μ}
    (h : s.acquire u (some m) tryonly = some (o, s')) :
    s.AcquireCase u m ((s.mutex m).mxInitialized = false ∨ tryonly = true) o s' := by
  unfold acquire at h
  dsimp only at h
  split_ifs at h with hi hl hrec htry
  · cases h
    exact .error _ (.inl (by simpa using hi))
  · obtain ⟨s₁, hlock, heq⟩ := Option.map_eq_some_iff.mp h
    cases heq
    exact .locked (by simpa using hl) hlock
  · cases h
    exact .again hrec.2
  · cases h
    exact .error _ (.inr htry)
  · cases h
    exact .waiting

theorem acquireWoken_cases {extra pending : Bool} {o : Acquire μ}
    (h : s.acquireWoken u m extra pending = some (o, s')) :
    s.AcquireCase u m ((extra && pending) = true) o s' := by
  unfold acquireWoken at h
  split_ifs at h with hintr hl
  · cases h
    exact .error _ hintr
  · obtain ⟨s₁, hlock, heq⟩ := Option.map_eq_some_iff.mp h
    cases heq
    exact .locked (by simpa using hl) hlock
  · cases h
    exact .waiting

/-- What `pth_mutex_release` may do. -/
inductive ReleaseCase (s : MutexState τ μ) (u : τ) (m : μ) : Ret → MutexState τ μ → Prop
  | error (e : Errno) : ReleaseCase s u m (.error e) s
  | freed {s' : MutexState τ μ} (hown : (s.mutex m).mxOwner = some u)
    (hmutex : s'.mutex = Function.update s.mutex m
      { s.mutex m with mxLocked := false, mxOwner := none, mxCount := 0 }) : ReleaseCase s u m .ok s'
  | lowered (hown : (s.mutex m).mxOwner = some u) : ReleaseCase s u m .ok
    (s.setMutex m { s.mutex m with mxCount := (s.mutex m).mxCount - 1 })

theorem release_cases {r : Ret} (h : s.release u (some m) = some (r, s')) :
    s.ReleaseCase u m r s' := by
  unfold release at h
  dsimp only at h
  split_ifs at h with hi hl ho hc
  · cases h
    exact .error _
  · cases h
    exact .error _
  · cases h
    exact .error _
  · obtain ⟨⟨ring, L⟩, -, heq⟩ := Option.map_eq_some_iff.mp h
    cases heq
    exact .freed (not_not.mp ho) rfl
  · cases h
    exact .lowered (not_not.mp ho)

/-! ## The invariant -/

end MutexState

/-- A mutex is locked exactly while it has an owner, and then counts at least one
    lock. -/
structure Mutex.Ok (x : Mutex τ) : Prop where
  initialized : x.mxInitialized = true
  locked : x.mxLocked = true ↔ x.mxOwner ≠ none
  count_pos : x.mxOwner ≠ none → 1 ≤ x.mxCount
  count_zero : x.mxOwner = none → x.mxCount = 0

namespace MutexState

/-- Every thread `t` has the mutexes `held t` in its ring, and these are the
    mutexes it owns. -/
structure Inv (s : MutexState τ μ) (held : τ → List μ) : Prop where
  ring : ∀ t, (s.mutexring t).Repr s.node (held t)
  owner : ∀ m t, m ∈ held t ↔ (s.mutex m).mxOwner = some t
  ok : ∀ m, (s.mutex m).Ok

variable {s : MutexState τ μ} {held : τ → List μ} {current : τ} {m : μ}

omit [DecidableEq τ] [DecidableEq μ] in
/-- Initialised mutexes that nobody has locked yet. -/
theorem Inv.init (hmutex : ∀ m, s.mutex m = Mutex.init)
    (hring : ∀ t, s.mutexring t = Ring.init) : s.Inv fun _ => [] where
  ring t := by
    rw [hring]
    exact Ring.Repr.init _
  owner m t := by simp [hmutex, Mutex.init]
  ok m := by
    rw [hmutex]
    exact ⟨rfl, by simp [Mutex.init], by simp [Mutex.init], fun _ => rfl⟩

omit [DecidableEq τ] in
theorem Inv.ringNodes (h : s.Inv held) (t : τ) : s.ringNodes t = held t := by
  unfold MutexState.ringNodes Ring.next Ring.first
  rw [(h.ring t).hook]
  exact (h.ring t).cycle.walkList_next (h.ring t).nodup (by rw [(h.ring t).nodes]; simp)

omit [DecidableEq τ] [DecidableEq μ] in
/-- No mutex is in the rings of two threads. -/
theorem Inv.disjoint (h : s.Inv held) {t u : τ} (hu : u ≠ t) :
    ∀ x ∈ held u, x ∉ held t := by
  intro x hxu hxt
  have hown := (h.owner x u).mp hxu
  rw [(h.owner x t).mp hxt] at hown
  exact hu (Option.some.inj hown).symm

/-- A mutex that is free or owned by the current thread may change as long as it
    is in that thread's ring exactly while the thread owns it. -/
private theorem Inv.update {x : Mutex τ} {r : Ring μ} {L : Links μ} {l : List μ}
    (h : s.Inv held) (hfree : ∀ t, t ≠ current → (s.mutex m).mxOwner ≠ some t)
    (hx : x.Ok) (hxfree : ∀ t, t ≠ current → x.mxOwner ≠ some t)
    (hr : r.Repr L l) (hoff : s.node.EqOff (m :: held current) L)
    (hm : m ∈ l ↔ x.mxOwner = some current) (hl : ∀ y, y ≠ m → (y ∈ l ↔ y ∈ held current)) :
    Inv { mutex := Function.update s.mutex m x, node := L,
          mutexring := Function.update s.mutexring current r }
      (Function.update held current l) where
  ring t := by
    by_cases ht : t = current
    · subst ht
      simpa using hr
    · have hother := (h.ring t).congr hoff fun y hy hmem => by
        rcases List.mem_cons.mp hmem with rfl | hmem
        · exact hfree t ht ((h.owner y t).mp hy)
        · exact h.disjoint ht y hy hmem
      simpa [ht] using hother
  owner y t := by
    by_cases ht : t = current <;> by_cases hy : y = m
    · subst ht hy
      simpa using hm
    · subst ht
      simpa [hy, hl y hy] using h.owner y t
    · subst hy
      simpa [ht, hxfree t ht, hfree t ht] using h.owner y t
    · simpa [ht, hy] using h.owner y t
  ok y := by
    by_cases hy : y = m
    · subst hy
      simpa using hx
    · simpa [hy] using h.ok y

omit [DecidableEq τ] in
theorem erase_append_cons {A B : List μ} (hn : (A ++ m :: B).Nodup) :
    (A ++ m :: B).erase m = A ++ B := by
  have hA : m ∉ A := fun hmA => (List.nodup_append.mp hn).2.2 m hmA m (by simp) rfl
  rw [List.erase_append_right _ hA, List.erase_cons_head]

/-- Taking a free mutex. -/
theorem Inv.lock (h : s.Inv held) (current : τ) (hm : (s.mutex m).mxOwner = none) :
    ∃ s', s.lock current m = some s' ∧ s'.mutex = Function.update s.mutex m
        { s.mutex m with mxLocked := true, mxOwner := some current, mxCount := 1 } ∧
      s'.Inv (Function.update held current (held current ++ [m])) := by
  have hnot : m ∉ held current := fun hmem => by
    have := (h.owner m current).mp hmem
    simp [hm] at this
  obtain ⟨r, L, happ, hr, hoff⟩ := Ring.append_repr (h.ring current) hnot
  refine ⟨_, by rw [MutexState.lock, happ]; rfl, rfl, ?_⟩
  refine h.update (by simp [hm]) ⟨(h.ok m).initialized, by simp, by simp, by simp⟩ ?_ hr hoff ?_ ?_
  · intro t ht heq
    exact ht (Option.some.inj heq).symm
  · simp
  · intro y hy
    simp [hy]

omit [DecidableEq τ] in
/-- Locking a mutex once more, or once less but not for the last time. -/
theorem Inv.setCount (h : s.Inv held) (hm : (s.mutex m).mxOwner ≠ none) {n : ℤ} (hn : 1 ≤ n) :
    (s.setMutex m { s.mutex m with mxCount := n }).Inv held where
  ring := h.ring
  owner y t := by
    by_cases hy : y = m
    · subst hy
      simpa [setMutex] using h.owner y t
    · simpa [setMutex, hy] using h.owner y t
  ok y := by
    by_cases hy : y = m
    · subst hy
      have hok := h.ok y
      simpa [setMutex] using
        (⟨hok.initialized, hok.locked, fun _ => hn, fun hnone => absurd hnone hm⟩ :
          Mutex.Ok { s.mutex y with mxCount := n })
    · simpa [setMutex, hy] using h.ok y

/-- Giving a mutex up for the last time. -/
theorem Inv.release_last (h : s.Inv held) (hm : (s.mutex m).mxOwner = some current)
    (hc : (s.mutex m).mxCount = 1) :
    ∃ s', s.release current (some m) = some (.ok, s') ∧ s'.mutex = Function.update s.mutex m
        { s.mutex m with mxLocked := false, mxOwner := none, mxCount := 0 } ∧
      s'.node.next m = s.node.next m ∧
      s'.Inv (Function.update held current ((held current).erase m)) := by
  have hmem : m ∈ held current := (h.owner m current).mpr hm
  obtain ⟨A, B, hl⟩ := List.append_of_mem hmem
  have hring := h.ring current
  have hnd := hring.nodup
  rw [hl] at hring hnd
  have herase : (held current).erase m = A ++ B := by rw [hl, erase_append_cons hnd]
  obtain ⟨r, L, hdel, hr, hoff⟩ := Ring.delete_repr hring
  have hmAB : m ∉ A ++ B := (List.nodup_cons.mp (List.perm_middle.nodup_iff.mp hnd)).1
  have hinit := (h.ok m).initialized
  have hlocked : (s.mutex m).mxLocked = true := (h.ok m).locked.mpr (by simp [hm])
  have hrel : s.release current (some m) = some (.ok,
      { mutex := Function.update s.mutex m
          { s.mutex m with mxLocked := false, mxOwner := none, mxCount := 0 },
        node := L, mutexring := Function.update s.mutexring current r }) := by
    simp [release, hinit, hlocked, hm, hc, hdel]
  refine ⟨_, hrel, rfl, (hoff m hmAB).1, ?_⟩
  rw [herase]
  refine h.update ?_ ⟨hinit, by simp, by simp, by simp⟩ (by simp) hr ?_ ?_ ?_
  · intro t ht heq
    exact ht (Option.some.inj (heq.symm.trans hm))
  · intro z hz
    refine hoff z fun hzAB => hz ?_
    rw [hl]
    simp only [List.mem_append, List.mem_cons] at hzAB ⊢
    tauto
  · simpa using hmAB
  · intro y hy
    rw [hl]
    simp [hy]

/-- Giving a mutex up that is locked more than once. -/
theorem Inv.release_again (h : s.Inv held) (hm : (s.mutex m).mxOwner = some current)
    (hc : 1 < (s.mutex m).mxCount) :
    s.release current (some m) =
        some (.ok, s.setMutex m { s.mutex m with mxCount := (s.mutex m).mxCount - 1 }) ∧
      (s.setMutex m { s.mutex m with mxCount := (s.mutex m).mxCount - 1 }).Inv held := by
  have hinit := (h.ok m).initialized
  have hlocked : (s.mutex m).mxLocked = true := (h.ok m).locked.mpr (by simp [hm])
  have hpos : ¬ (s.mutex m).mxCount - 1 ≤ 0 := by omega
  refine ⟨?_, h.setCount (by simp [hm]) (by omega)⟩
  simp only [release, hinit, hlocked, hm, Bool.not_true, Bool.false_eq_true, ne_eq,
    not_true_eq_false, if_false, hpos]

/-! ## What the calls do -/

/-- The mutexes, their owners and the rings of the threads fit together. -/
def WellFormed (s : MutexState τ μ) : Prop := ∃ held, s.Inv held

/-- From `s` to `s'` the thread has locked `m` once more. -/
structure Taken (s s' : MutexState τ μ) (current : τ) (m : μ) : Prop where
  owner : (s.mutex m).mxOwner = none ∨ (s.mutex m).mxOwner = some current
  mutex : s'.mutex = Function.update s.mutex m
    { s.mutex m with
      mxLocked := true, mxOwner := some current, mxCount := (s.mutex m).mxCount + 1 }
  wf : s'.WellFormed

/-- From `s` to `s'` the thread has given `m` up once. -/
structure Given (s s' : MutexState τ μ) (current : τ) (m : μ) : Prop where
  owner : (s.mutex m).mxOwner = some current
  mutex : s'.mutex = Function.update s.mutex m
    (if (s.mutex m).mxCount = 1 then
      { s.mutex m with mxLocked := false, mxOwner := none, mxCount := 0 }
    else { s.mutex m with mxCount := (s.mutex m).mxCount - 1 })
  wf : s'.WellFormed

theorem WellFormed.lock (h : s.WellFormed) (current : τ) (hm : (s.mutex m).mxOwner = none) :
    ∃ s', s.lock current m = some s' ∧ s.Taken s' current m := by
  obtain ⟨held, h⟩ := h
  obtain ⟨s', hlock, hmutex, hinv⟩ := h.lock current hm
  refine ⟨s', hlock, Or.inl hm, ?_, _, hinv⟩
  rw [hmutex, (h.ok m).count_zero hm]
  rfl

/-- A mutex that is not locked is taken at once. -/
theorem WellFormed.acquire_free (h : s.WellFormed) (current : τ) (tryonly : Bool)
    (hm : (s.mutex m).mxOwner = none) :
    ∃ s', s.acquire current (some m) tryonly = some (.returned .ok, s') ∧
      s.Taken s' current m := by
  obtain ⟨s', hlock, htaken⟩ := h.lock current hm
  refine ⟨s', ?_, htaken⟩
  obtain ⟨held, h⟩ := h
  have hlocked : (s.mutex m).mxLocked = false := by
    rw [← Bool.not_eq_true, (h.ok m).locked]
    simp [hm]
  simp [acquire, (h.ok m).initialized, hlocked, hlock]

/-- A mutex of the caller is locked once more. -/
theorem WellFormed.acquire_owned (h : s.WellFormed) (tryonly : Bool)
    (hm : (s.mutex m).mxOwner = some current) :
    ∃ s', s.acquire current (some m) tryonly = some (.returned .ok, s') ∧
      s.Taken s' current m := by
  obtain ⟨held, h⟩ := h
  have hne : (s.mutex m).mxOwner ≠ none := by simp [hm]
  have hlocked := (h.ok m).locked.mpr hne
  have hpos := (h.ok m).count_pos hne
  have hacq : s.acquire current (some m) tryonly = some (.returned .ok,
      s.setMutex m { s.mutex m with mxCount := (s.mutex m).mxCount + 1 }) := by
    simp [acquire, (h.ok m).initialized, hlocked, hm, hpos]
  refine ⟨_, hacq, Or.inr hm, ?_, held, h.setCount hne (by omega)⟩
  simp only [setMutex, hlocked, hm]

/-- A mutex of another thread is not taken. -/
theorem WellFormed.acquire_busy (h : s.WellFormed) (tryonly : Bool)
    (hm : (s.mutex m).mxOwner ≠ none) (hcur : (s.mutex m).mxOwner ≠ some current) :
    s.acquire current (some m) tryonly =
      some (if tryonly then .returned (.error .EBUSY) else .waiting m, s) := by
  obtain ⟨held, h⟩ := h
  have hlocked := (h.ok m).locked.mpr hm
  cases tryonly <;> simp [acquire, (h.ok m).initialized, hlocked, hcur]

/-- `pth_mutex_acquire` locks the mutex once more, or changes nothing. -/
theorem WellFormed.acquire (h : s.WellFormed) (current : τ) (mutex : Option μ) (tryonly : Bool) :
    ∃ o s', s.acquire current mutex tryonly = some (o, s') ∧
      (o = .returned .ok ∧ (∃ m, mutex = some m ∧ s.Taken s' current m) ∨
        o ≠ .returned .ok ∧ s' = s) := by
  cases mutex with
  | none => exact ⟨_, s, rfl, Or.inr ⟨by simp, rfl⟩⟩
  | some m =>
    by_cases hnone : (s.mutex m).mxOwner = none
    · obtain ⟨s', hacq, htaken⟩ := h.acquire_free current tryonly hnone
      exact ⟨_, s', hacq, Or.inl ⟨rfl, m, rfl, htaken⟩⟩
    · by_cases hown : (s.mutex m).mxOwner = some current
      · obtain ⟨s', hacq, htaken⟩ := h.acquire_owned tryonly hown
        exact ⟨_, s', hacq, Or.inl ⟨rfl, m, rfl, htaken⟩⟩
      · refine ⟨_, s, h.acquire_busy tryonly hnone hown, Or.inr ⟨?_, rfl⟩⟩
        cases tryonly <;> simp

/-- After a wait that no extra event has ended, a free mutex is taken. -/
theorem WellFormed.acquireWoken_free (h : s.WellFormed) (current : τ) {extra pending : Bool}
    (hintr : (extra && pending) = false) (hm : (s.mutex m).mxOwner = none) :
    ∃ s', s.acquireWoken current m extra pending = some (.returned .ok, s') ∧
      s.Taken s' current m := by
  obtain ⟨s', hlock, htaken⟩ := h.lock current hm
  obtain ⟨held, h⟩ := h
  have hlocked : (s.mutex m).mxLocked = false := by
    rw [← Bool.not_eq_true, (h.ok m).locked]
    simp [hm]
  exact ⟨s', by simp [MutexState.acquireWoken, hintr, hlocked, hlock], htaken⟩

/-- A locked one is waited for again. -/
theorem WellFormed.acquireWoken_busy (h : s.WellFormed) (current : τ) {extra pending : Bool}
    (hintr : (extra && pending) = false) (hm : (s.mutex m).mxOwner ≠ none) :
    s.acquireWoken current m extra pending = some (.waiting m, s) := by
  obtain ⟨held, h⟩ := h
  simp [MutexState.acquireWoken, hintr, (h.ok m).locked.mpr hm]

/-- After a wait the mutex is taken if it is free, or nothing changes. -/
theorem WellFormed.acquireWoken (h : s.WellFormed) (current : τ) (m : μ)
    (extra pending : Bool) :
    ∃ o s', s.acquireWoken current m extra pending = some (o, s') ∧
      (o = .returned .ok ∧ (s.mutex m).mxOwner = none ∧ s.Taken s' current m ∨
        o ≠ .returned .ok ∧ s' = s) := by
  cases hintr : extra && pending with
  | true =>
    exact ⟨.returned (.error .EINTR), s, by simp only [MutexState.acquireWoken, hintr, if_true],
      Or.inr ⟨by simp, rfl⟩⟩
  | false =>
    by_cases hnone : (s.mutex m).mxOwner = none
    · obtain ⟨s', hacq, htaken⟩ := h.acquireWoken_free current hintr hnone
      exact ⟨_, s', hacq, Or.inl ⟨rfl, hnone, htaken⟩⟩
    · exact ⟨_, s, h.acquireWoken_busy current hintr hnone, Or.inr ⟨by simp, rfl⟩⟩

/-- The owner gives a mutex up once. -/
theorem WellFormed.release_owned (h : s.WellFormed) (hm : (s.mutex m).mxOwner = some current) :
    ∃ s', s.release current (some m) = some (.ok, s') ∧ s.Given s' current m := by
  obtain ⟨held, h⟩ := h
  have hpos := (h.ok m).count_pos (by simp [hm])
  by_cases hc : (s.mutex m).mxCount = 1
  · obtain ⟨s', hrel, hmutex, -, hinv⟩ := h.release_last hm hc
    refine ⟨s', hrel, hm, ?_, _, hinv⟩
    rw [hmutex, if_pos hc]
  · obtain ⟨hrel, hinv⟩ := h.release_again hm (by omega)
    refine ⟨_, hrel, hm, ?_, _, hinv⟩
    rw [if_neg hc]
    rfl

/-- Nobody else can give it up. -/
theorem WellFormed.release_other (h : s.WellFormed)
    (hm : (s.mutex m).mxOwner ≠ some current) :
    ∃ e, s.release current (some m) = some (.error e, s) := by
  obtain ⟨held, h⟩ := h
  by_cases hlocked : (s.mutex m).mxLocked = true
  · exact ⟨.EACCES, by simp [MutexState.release, (h.ok m).initialized, hlocked, hm]⟩
  · exact ⟨.EDEADLK, by simp [MutexState.release, (h.ok m).initialized, hlocked]⟩

/-- `pth_mutex_release` gives the mutex up once, or changes nothing. -/
theorem WellFormed.release (h : s.WellFormed) (current : τ) (mutex : Option μ) :
    ∃ r s', s.release current mutex = some (r, s') ∧
      (r = .ok ∧ (∃ m, mutex = some m ∧ s.Given s' current m) ∨ r ≠ .ok ∧ s' = s) := by
  cases mutex with
  | none => exact ⟨_, s, rfl, Or.inr ⟨by simp, rfl⟩⟩
  | some m =>
    by_cases hown : (s.mutex m).mxOwner = some current
    · obtain ⟨s', hrel, hgiven⟩ := h.release_owned hown
      exact ⟨_, s', hrel, Or.inl ⟨rfl, m, rfl, hgiven⟩⟩
    · obtain ⟨e, hrel⟩ := h.release_other hown
      exact ⟨_, s, hrel, Or.inr ⟨by simp, rfl⟩⟩

/-! ## Mutexes locked at most once

Clients that never lock a mutex recursively only see who owns it. -/

/-- The owners of the mutexes are `o`, and no mutex is locked more than once. -/
structure OwnedBy (s : MutexState τ μ) (o : μ → Option τ) : Prop where
  wf : s.WellFormed
  owner : ∀ m, (s.mutex m).mxOwner = o m
  once : ∀ m, o m ≠ none → (s.mutex m).mxCount = 1

variable {o : μ → Option τ} {u : τ}

omit [DecidableEq τ] [DecidableEq μ] in
theorem OwnedBy.init (hmutex : ∀ m, s.mutex m = Mutex.init)
    (hring : ∀ t, s.mutexring t = Ring.init) : s.OwnedBy fun _ => none where
  wf := ⟨_, Inv.init hmutex hring⟩
  owner m := by rw [hmutex]; rfl
  once m hm := absurd rfl hm

omit [DecidableEq τ] [DecidableEq μ] in
theorem OwnedBy.unlocked (h : s.OwnedBy o) (hm : o m = none) : (s.mutex m).mxLocked = false := by
  obtain ⟨held, hinv⟩ := h.wf
  rw [← Bool.not_eq_true, (hinv.ok m).locked, h.owner, hm]
  simp

omit [DecidableEq τ] [DecidableEq μ] in
theorem OwnedBy.locked (h : s.OwnedBy o) (hm : o m ≠ none) : (s.mutex m).mxLocked = true := by
  obtain ⟨held, hinv⟩ := h.wf
  rwa [(hinv.ok m).locked, h.owner]

omit [DecidableEq τ] in
private theorem OwnedBy.taken {s' : MutexState τ μ} (h : s.OwnedBy o) (hm : o m = none)
    (ht : s.Taken s' current m) : s'.OwnedBy (Function.update o m (some current)) where
  wf := ht.wf
  owner y := by
    by_cases hy : y = m
    · subst hy
      simp [ht.mutex]
    · simp [ht.mutex, hy, h.owner]
  once y hne := by
    by_cases hy : y = m
    · subst hy
      obtain ⟨held, hinv⟩ := h.wf
      have hzero := (hinv.ok y).count_zero (by rw [h.owner, hm])
      simp [ht.mutex, hzero]
    · simpa [ht.mutex, hy] using h.once y (by simpa [hy] using hne)

theorem OwnedBy.acquire_free (h : s.OwnedBy o) (current : τ) (tryonly : Bool) (hm : o m = none) :
    ∃ s', s.acquire current (some m) tryonly = some (.returned .ok, s') ∧
      s'.OwnedBy (Function.update o m (some current)) := by
  obtain ⟨s', hacq, ht⟩ := h.wf.acquire_free current tryonly (by rw [h.owner, hm])
  exact ⟨s', hacq, h.taken hm ht⟩

theorem OwnedBy.acquire_busy (h : s.OwnedBy o) (tryonly : Bool) (hm : o m = some u)
    (hu : u ≠ current) :
    s.acquire current (some m) tryonly =
      some (if tryonly then .returned (.error .EBUSY) else .waiting m, s) :=
  h.wf.acquire_busy tryonly (by simp [h.owner, hm]) (by simpa [h.owner, hm] using hu)

theorem OwnedBy.acquireWoken_free (h : s.OwnedBy o) (current : τ) {extra pending : Bool}
    (hintr : (extra && pending) = false) (hm : o m = none) :
    ∃ s', s.acquireWoken current m extra pending = some (.returned .ok, s') ∧
      s'.OwnedBy (Function.update o m (some current)) := by
  obtain ⟨s', hacq, ht⟩ := h.wf.acquireWoken_free (m := m) current hintr (by rw [h.owner, hm])
  exact ⟨s', hacq, h.taken hm ht⟩

theorem OwnedBy.acquireWoken_busy (h : s.OwnedBy o) (current : τ) {extra pending : Bool}
    (hintr : (extra && pending) = false) (hm : o m ≠ none) :
    s.acquireWoken current m extra pending = some (.waiting m, s) :=
  h.wf.acquireWoken_busy current hintr (by rwa [h.owner])

/-- What happens after a wait depends on whether the wait was interrupted and
    whether the mutex is free. -/
theorem OwnedBy.acquireWoken (h : s.OwnedBy o) (current : τ) (m : μ) (extra pending : Bool) :
    s.acquireWoken current m extra pending = some (.returned (.error .EINTR), s) ∨
    (o m = none ∧ ∃ s', s.acquireWoken current m extra pending = some (.returned .ok, s') ∧
      s'.OwnedBy (Function.update o m (some current))) ∨
    (o m ≠ none ∧ s.acquireWoken current m extra pending = some (.waiting m, s)) := by
  cases hintr : extra && pending with
  | true => exact Or.inl (by simp only [MutexState.acquireWoken, hintr, if_true])
  | false =>
    by_cases hm : o m = none
    · exact Or.inr (Or.inl ⟨hm, h.acquireWoken_free current hintr hm⟩)
    · exact Or.inr (Or.inr ⟨hm, h.acquireWoken_busy current hintr hm⟩)

theorem OwnedBy.release_owned (h : s.OwnedBy o) (hm : o m = some current) :
    ∃ s', s.release current (some m) = some (.ok, s') ∧
      s'.OwnedBy (Function.update o m none) := by
  obtain ⟨s', hrel, hg⟩ := h.wf.release_owned (by rw [h.owner, hm])
  have hone := h.once m (by simp [hm])
  refine ⟨s', hrel, hg.wf, fun y => ?_, fun y hne => ?_⟩
  · by_cases hy : y = m
    · subst hy
      simp [hg.mutex, hone]
    · simp [hg.mutex, hy, h.owner]
  · by_cases hy : y = m
    · subst hy
      simp at hne
    · simpa [hg.mutex, hy] using h.once y (by simpa [hy] using hne)

theorem OwnedBy.release_other (h : s.OwnedBy o) (hm : o m ≠ some current) :
    ∃ e, s.release current (some m) = some (.error e, s) :=
  h.wf.release_other (by rwa [h.owner])

end MutexState

end Pth
