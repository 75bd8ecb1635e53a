-- SUMMARY: Calls on read-write locks that fail leave the lock, its mutexes and the caller's ring of mutexes as they were.
import Pth.Sync.Rwlock

/-!
# Failing calls on read-write locks

The two mutexes of a read-write lock are linked into the ring of the thread that holds them,
together with all other mutexes of the thread. A call that fails after it has taken one of them
puts it at the end of that ring and takes it out again. -/

namespace Pth

/-- A mutex that nobody has locked. -/
structure Mutex.Unlocked {τ : Type*} (x : Mutex τ) : Prop where
  locked : x.mxLocked = false
  owner : x.mxOwner = none
  count : x.mxCount = 0

theorem Mutex.Unlocked.eq_init {τ : Type*} {x : Mutex τ} (h : x.Unlocked)
    (hi : x.mxInitialized = true) : x = Mutex.init := by
  obtain ⟨hlocked, howner, hcount⟩ := h
  cases x
  simp_all [Mutex.init]

/-- The list of its nodes determines a ring. -/
theorem Ring.Repr.eq {ν : Type*} {r r' : Ring ν} {L L' : Links ν} {l : List ν} (h : r.Repr L l)
    (h' : r'.Repr L' l) : r = r' := by
  have hhook : r.rHook = r'.rHook := by rw [h.hook, h'.hook]
  have hnodes : r.rNodes = r'.rNodes := by rw [h.nodes, h'.nodes]
  cases r
  cases r'
  simp_all

namespace MutexState

variable {τ μ : Type*} [DecidableEq τ] [DecidableEq μ] {s s' s₁ s₂ : MutexState τ μ} {t : τ}
  {m : μ} {held : List μ}

/-- All mutexes are as they were, and so is the ring of the thread `t`, which has the mutexes
    `held`. -/
structure Same (s s' : MutexState τ μ) (t : τ) (held : List μ) : Prop where
  mutex : s'.mutex = s.mutex
  mutexring : s'.mutexring t = s.mutexring t
  ring : (s'.mutexring t).Repr s'.node held

omit [DecidableEq τ] [DecidableEq μ] in
theorem Same.refl (hring : (s.mutexring t).Repr s.node held) : s.Same s t held :=
  ⟨rfl, rfl, hring⟩

/-- `pth_mutex_acquire` that fails at once changes nothing. -/
theorem acquire_error {mutex : Option μ} {tryonly : Bool} {e : Errno}
    (h : s.acquire t mutex tryonly = some (.returned (.error e), s')) : s' = s := by
  cases mutex with
  | none =>
    cases h
    rfl
  | some m =>
    cases acquire_cases h
    rfl

/-- `pth_mutex_release` that fails changes nothing. -/
theorem release_error {mutex : Option μ} {e : Errno}
    (h : s.release t mutex = some (.error e, s')) : s' = s := by
  cases mutex with
  | none =>
    cases h
    rfl
  | some m =>
    cases release_cases h
    rfl

/-- A mutex that is not locked is taken, unless it is not initialised. -/
theorem acquire_unlocked {tryonly : Bool} {o : Acquire μ} (hm : (s.mutex m).Unlocked)
    (h : s.acquire t (some m) tryonly = some (o, s')) :
    (s' = s ∧ o = .returned (.error .EDEADLK)) ∨
      (s.mutex m).mxInitialized = true ∧ s.lock t m = some s' ∧ o = .returned .ok := by
  unfold acquire at h
  cases hi : (s.mutex m).mxInitialized with
  | false =>
    simp only [hi, Bool.not_false, if_true] at h
    cases h
    exact .inl ⟨rfl, rfl⟩
  | true =>
    simp only [hi, hm.locked, Bool.not_true, Bool.not_false, Bool.false_eq_true, if_false,
      if_true] at h
    obtain ⟨s₁, hlock, heq⟩ := Option.map_eq_some_iff.mp h
    cases heq
    exact .inr ⟨rfl, hlock, rfl⟩

/-- Giving back a mutex that was just taken: it goes to the end of the ring and out again. -/
theorem release_lock {r : Ret} (hi : (s.mutex m).mxInitialized = true)
    (hm : (s.mutex m).Unlocked) (hring : (s.mutexring t).Repr s.node held) (hnot : m ∉ held)
    (hlock : s.lock t m = some s₁) (hrel : s₁.release t (some m) = some (r, s₂)) :
    s.Same s₂ t held := by
  obtain ⟨ring₁, L₁, happ, hring₁, -⟩ := Ring.append_repr hring hnot
  obtain ⟨ring₂, L₂, hdel, hring₂, -⟩ := Ring.delete_repr (A := held) (B := []) hring₁
  rw [List.append_nil] at hring₂
  unfold lock at hlock
  rw [happ] at hlock
  cases hlock
  simp only [release, Function.update_self, hi, hdel, Bool.not_true, Bool.false_eq_true, if_false,
    not_true_eq_false, ne_eq, Int.sub_self, Int.le_refl, if_true, Option.map_some] at hrel
  cases hrel
  have hinit := hm.eq_init hi
  refine ⟨?_, by simpa using hring₂.eq hring, by simpa using hring₂⟩
  simp [hinit, Mutex.init]

end MutexState

namespace Rwlock

variable {τ μ : Type*} [DecidableEq τ] [DecidableEq μ] {l l' : Rwlock τ μ}
  {addr : RwMutex → μ} {t : τ} {held : List μ} {e : Errno}

/-- The lock, all mutexes and the ring of the thread `t` are as they were. -/
structure Same (l l' : Rwlock τ μ) (t : τ) (held : List μ) : Prop where
  initialized : l'.rwInitialized = l.rwInitialized
  mode : l'.rwMode = l.rwMode
  readers : l'.rwReaders = l.rwReaders
  mem : l.mem.Same l'.mem t held

omit [DecidableEq τ] [DecidableEq μ] in
theorem Same.refl (hring : (l.mem.mutexring t).Repr l.mem.node held) : l.Same l t held :=
  ⟨rfl, rfl, rfl, .refl hring⟩

/-- The mutex `rw_mutex_rd` is not locked, so that it is not in the ring of the thread `t`. -/
structure Ready (l : Rwlock τ μ) (addr : RwMutex → μ) (t : τ) (held : List μ) : Prop where
  unlocked : (l.mem.mutex (addr .rd)).Unlocked
  ring : (l.mem.mutexring t).Repr l.mem.node held
  notin : addr .rd ∉ held

/-- A reader that has taken `rw_mutex_rd` and gives up undoes everything. -/
theorem failRd_same {mem : MutexState τ μ} {o : RwOutcome} (h : l.Ready addr t held)
    (hi : (l.mem.mutex (addr .rd)).mxInitialized = true)
    (hlock : l.mem.lock t (addr .rd) = some mem) {n : ℤ}
    (hfail : { l with rwReaders := n, mem := mem }.failRd addr t l.rwReaders e =
      some (o, l')) : l.Same l' t held := by
  obtain ⟨⟨r, mem'⟩, hrel, heq⟩ := Option.map_eq_some_iff.mp hfail
  cases heq
  exact ⟨rfl, rfl, rfl, MutexState.release_lock hi h.unlocked h.ring h.notin hlock hrel⟩

/-- Nothing is returned as an error by a reader that comes to the end. -/
theorem leaveRd_ne_error : l.leaveRd addr t ≠ some (.returned (.error e), l') := by
  intro h
  obtain ⟨r, -, heq⟩ := Option.map_eq_some_iff.mp h
  cases heq

theorem acquire_error_same (h : l.Ready addr t held) (op : RwMode) (extra : Bool)
    (hacq : l.acquire addr t op true extra = some (.returned (.error e), l')) :
    l.Same l' t held := by
  unfold acquire at hacq
  split_ifs at hacq
  · cases hacq
    exact .refl h.ring
  cases op with
  | RW =>
    obtain ⟨⟨o, mem⟩, hmem, heq⟩ := Option.map_eq_some_iff.mp hacq
    rcases o with (_ | e') | m
    · cases heq
    · cases heq
      obtain rfl := MutexState.acquire_error hmem
      exact .refl h.ring
    · cases heq
  | RD =>
    obtain ⟨⟨o, mem⟩, hmem, hafter⟩ := Option.bind_eq_some_iff.mp hacq
    rcases MutexState.acquire_unlocked h.unlocked hmem with ⟨rfl, rfl⟩ | ⟨hi, hlock, rfl⟩
    · cases hafter
      exact .refl h.ring
    unfold afterRd at hafter
    dsimp only at hafter
    split_ifs at hafter with hfirst
    · -- the first reader does not get `rw`
      obtain ⟨⟨o, mem'⟩, hrw, hafter⟩ := Option.bind_eq_some_iff.mp hafter
      rcases o with (_ | e') | m
      · exact absurd hafter leaveRd_ne_error
      · obtain rfl := MutexState.acquire_error hrw
        refine failRd_same h hi hlock (n := l.rwReaders + 1) (e := e')
          (o := .returned (.error e)) ?_
        simpa [afterRdRw, setMem] using hafter
      · cases hafter
    · exact absurd hafter leaveRd_ne_error

theorem release_error_same (h : l.Ready addr t held)
    (hrel : l.release addr t = some (.returned (.error e), l')) : l.Same l' t held := by
  unfold release at hrel
  split_ifs at hrel
  · cases hrel
    exact .refl h.ring
  cases hmode : l.rwMode with
  | RW =>
    simp only [hmode] at hrel
    obtain ⟨⟨r, mem⟩, hmem, heq⟩ := Option.map_eq_some_iff.mp hrel
    cases heq
    obtain rfl := MutexState.release_error hmem
    exact .refl h.ring
  | RD =>
    simp only [hmode] at hrel
    obtain ⟨⟨o, mem⟩, hmem, hafter⟩ := Option.bind_eq_some_iff.mp hrel
    rcases MutexState.acquire_unlocked h.unlocked hmem with ⟨rfl, rfl⟩ | ⟨hi, hlock, rfl⟩
    · cases hafter
      exact .refl h.ring
    unfold afterReleaseRd at hafter
    dsimp only at hafter
    split_ifs at hafter with hlast
    · -- the last reader has no right to give `rw` back
      obtain ⟨⟨r, mem'⟩, hrw, hafter⟩ := Option.bind_eq_some_iff.mp hafter
      cases r with
      | ok => exact absurd hafter leaveRd_ne_error
      | error e' =>
        obtain rfl := MutexState.release_error hrw
        refine failRd_same h hi hlock (n := l.rwReaders - 1) (e := e')
          (o := .returned (.error e)) ?_
        simpa [setMem] using hafter
    · exact absurd hafter leaveRd_ne_error

/-- If `rw_mutex_rd` is not locked, a try to acquire and a release that return `FALSE` leave the
    lock, its mutexes and the caller's ring of mutexes as they were. -/
theorem error_leaves_same (l : Rwlock τ μ) (addr : RwMutex → μ) (t : τ) (held : List μ)
    (h : l.Ready addr t held) :
    (∀ op extra e l', l.acquire addr t op true extra = some (.returned (.error e), l') →
      l.Same l' t held) ∧
    ∀ e l', l.release addr t = some (.returned (.error e), l') → l.Same l' t held :=
  ⟨fun op extra _ _ => acquire_error_same h op extra, fun _ _ => release_error_same h⟩

/-- A writer has the lock twice, and a thread that holds another mutex tries to read. -/
theorem error_leaves_same_reader :
    ∃ (l l' : Rwlock Bool (Fin 3)) (addr : RwMutex → Fin 3),
      l.acquire addr false .RD true false = some (.returned (.error .EBUSY), l') ∧
        l.Same l' false [2] := by
  let l : Rwlock Bool (Fin 3) :=
    { rwInitialized := true, rwMode := .RW, rwReaders := 0
      mem := { mutex := fun m => if m = 1 then ⟨true, true, some true, 2⟩ else
                 if m = 2 then ⟨true, true, some false, 1⟩ else Mutex.init
               node := { next := some, prev := some }
               mutexring := fun t => ⟨some (if t then 1 else 2), 1⟩ } }
  let addr : RwMutex → Fin 3 := fun m => if m = .rd then 0 else 1
  have hready : l.Ready addr false [2] :=
    ⟨⟨rfl, rfl, rfl⟩, ⟨rfl, rfl, by simp, Links.cycle_singleton.mpr ⟨rfl, rfl⟩⟩, by simp [addr]⟩
  obtain ⟨l', hacq⟩ : ∃ l', l.acquire addr false .RD true false =
      some (.returned (.error .EBUSY), l') := ⟨_, rfl⟩
  exact ⟨l, l', addr, hacq, (error_leaves_same l addr false [2] hready).1 .RD false .EBUSY l' hacq⟩

end Rwlock

end Pth
