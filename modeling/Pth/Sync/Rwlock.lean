-- SUMMARY: The read-write locks of pth_sync.c, built from two mutexes, and the effect of each call.
import Pth.Sync.Mutex

/-!
# Read-write locks

A read-write lock is a mutex for the readers' bookkeeping, a mutex for the right
to write, and a count of readers. The first reader takes the second mutex for all
readers. The functions are cut where an inner `pth_mutex_acquire` waits. -/

namespace Pth

/-- `rw_mutex_rd` and `rw_mutex_rw` -/
inductive RwMutex where
  | rd
  | rw
  deriving DecidableEq, Repr

/-- `PTH_RWLOCK_RD` and `PTH_RWLOCK_RW` -/
inductive RwMode where
  | RD
  | RW
  deriving DecidableEq, Repr

/-- `struct pth_rwlock_st` in a program with the mutexes `μ`. The inner mutexes are in
    `mem`, together with all others and the rings of the threads, at the places that the
    functions take as `addr`. `rw_mode` is only ever compared with `PTH_RWLOCK_RW`;
    `rw_readers` is an `unsigned long`. -/
structure Rwlock (τ μ : Type*) where
  rwInitialized : Bool
  rwMode : RwMode
  rwReaders : ℤ
  mem : MutexState τ μ

/-- Where a thread is: outside of the calls, or waiting for an inner mutex, with
    or without extra events. -/
inductive RwPc where
  | idle
  | acquireRw (extra : Bool)
  | acquireRd (extra : Bool)
  | acquireRdRw (extra : Bool)
  | releaseRd
  deriving DecidableEq, Repr

/-- How a call gets on: it returns, or waits. -/
inductive RwOutcome where
  | returned (r : Ret)
  | waiting (pc : RwPc)
  deriving DecidableEq, Repr

namespace Rwlock

variable {τ μ : Type*} [DecidableEq τ] [DecidableEq μ]

/-- `pth_rwlock_init`, which leaves `rw_mode` as it is. -/
def init (l : Rwlock τ μ) (addr : RwMutex → μ) : Rwlock τ μ :=
  { l with
    rwInitialized := true, rwReaders := 0,
    mem := (l.mem.setMutex (addr .rd) Mutex.init).setMutex (addr .rw) Mutex.init }

def setMem (l : Rwlock τ μ) (mem : MutexState τ μ) : Rwlock τ μ := { l with mem := mem }

/-- The last lines for a reader that acquires or releases: set the mode and give
    the readers' mutex back. -/
def leaveRd (l : Rwlock τ μ) (addr : RwMutex → μ) (current : τ) :
    Option (RwOutcome × Rwlock τ μ) :=
  (l.mem.release current (some (addr .rd))).map fun r =>
    (.returned .ok, { l with rwMode := .RD, mem := r.2 })

/-- A reader gives up with the error `e`, after undoing its change of the number
    of readers. -/
def failRd (l : Rwlock τ μ) (addr : RwMutex → μ) (current : τ) (readers : ℤ) (e : Errno) :
    Option (RwOutcome × Rwlock τ μ) :=
  (l.mem.release current (some (addr .rd))).map fun r =>
    (.returned (.error e), { l with rwReaders := readers, mem := r.2 })

/-- The writer's `pth_mutex_acquire` has come as far as `r`. -/
def afterRw (l : Rwlock τ μ) (extra : Bool) (r : Acquire μ × MutexState τ μ) :
    RwOutcome × Rwlock τ μ :=
  match r.1 with
  | .returned .ok => (.returned .ok, { l with rwMode := .RW, mem := r.2 })
  | .returned (.error e) => (.returned (.error e), l.setMem r.2)
  | .waiting _ => (.waiting (.acquireRw extra), l.setMem r.2)

/-- The first reader's `pth_mutex_acquire` on `rw_mutex_rw` has come as far as
    `r`. -/
def afterRdRw (l : Rwlock τ μ) (addr : RwMutex → μ) (current : τ) (extra : Bool)
    (r : Acquire μ × MutexState τ μ) : Option (RwOutcome × Rwlock τ μ) :=
  match r.1 with
  | .returned .ok => (l.setMem r.2).leaveRd addr current
  | .returned (.error e) => (l.setMem r.2).failRd addr current (l.rwReaders - 1) e
  | .waiting _ => some (.waiting (.acquireRdRw extra), l.setMem r.2)

/-- A reader's `pth_mutex_acquire` on `rw_mutex_rd` has come as far as `r`. -/
def afterRd (l : Rwlock τ μ) (addr : RwMutex → μ) (current : τ) (tryonly extra : Bool)
    (r : Acquire μ × MutexState τ μ) : Option (RwOutcome × Rwlock τ μ) :=
  match r.1 with
  | .returned .ok =>
    let l' : Rwlock τ μ := { l with rwReaders := l.rwReaders + 1, mem := r.2 }
    if l'.rwReaders = 1 then
      (l'.mem.acquire current (some (addr .rw)) tryonly).bind (l'.afterRdRw addr current extra)
    else l'.leaveRd addr current
  | .returned (.error e) => some (.returned (.error e), l.setMem r.2)
  | .waiting _ => some (.waiting (.acquireRd extra), l.setMem r.2)

/-- A leaving reader's `pth_mutex_acquire` on `rw_mutex_rd` has come as far as
    `r`. -/
def afterReleaseRd (l : Rwlock τ μ) (addr : RwMutex → μ) (current : τ)
    (r : Acquire μ × MutexState τ μ) : Option (RwOutcome × Rwlock τ μ) :=
  match r.1 with
  | .returned .ok =>
    let l' : Rwlock τ μ := { l with rwReaders := l.rwReaders - 1, mem := r.2 }
    if l'.rwReaders = 0 then
      (l'.mem.release current (some (addr .rw))).bind fun r' =>
        match r'.1 with
        | .ok => (l'.setMem r'.2).leaveRd addr current
        | .error e => (l'.setMem r'.2).failRd addr current (l'.rwReaders + 1) e
    else l'.leaveRd addr current
  | .returned (.error e) => some (.returned (.error e), l.setMem r.2)
  | .waiting _ => some (.waiting .releaseRd, l.setMem r.2)

/-- `pth_rwlock_acquire` up to its return or its first wait. -/
def acquire (l : Rwlock τ μ) (addr : RwMutex → μ) (current : τ) (op : RwMode)
    (tryonly extra : Bool) : Option (RwOutcome × Rwlock τ μ) :=
  if !l.rwInitialized then some (.returned (.error .EDEADLK), l)
  else match op with
    | .RW => (l.mem.acquire current (some (addr .rw)) tryonly).map (l.afterRw extra)
    | .RD =>
      (l.mem.acquire current (some (addr .rd)) tryonly).bind
        (l.afterRd addr current tryonly extra)

/-- `pth_rwlock_release` up to its return or its first wait. -/
def release (l : Rwlock τ μ) (addr : RwMutex → μ) (current : τ) :
    Option (RwOutcome × Rwlock τ μ) :=
  if !l.rwInitialized then some (.returned (.error .EDEADLK), l)
  else match l.rwMode with
    | .RW =>
      (l.mem.release current (some (addr .rw))).map fun r => (.returned r.1, l.setMem r.2)
    | .RD => (l.mem.acquire current (some (addr .rd)) false).bind (l.afterReleaseRd addr current)

/-- The rest of a call after `pth_wait` in an inner `pth_mutex_acquire`. -/
def woken (l : Rwlock τ μ) (addr : RwMutex → μ) (current : τ) (pending : Bool) :
    RwPc → Option (RwOutcome × Rwlock τ μ)
  | .idle => none
  | .acquireRw extra =>
    (l.mem.acquireWoken current (addr .rw) extra pending).map (l.afterRw extra)
  | .acquireRd extra =>
    (l.mem.acquireWoken current (addr .rd) extra pending).bind (l.afterRd addr current false extra)
  | .acquireRdRw extra =>
    (l.mem.acquireWoken current (addr .rw) extra pending).bind (l.afterRdRw addr current extra)
  | .releaseRd =>
    (l.mem.acquireWoken current (addr .rd) false pending).bind (l.afterReleaseRd addr current)

/-! ## The effect of each call

`o` are the owners of the mutexes before the call. -/

variable {l : Rwlock τ μ} (addr : RwMutex → μ) {o : μ → Option τ} {t u : τ}

private theorem leaveRd_eq (h : l.mem.OwnedBy o) (hrd : o (addr .rd) = some t) :
    ∃ mem, l.leaveRd addr t = some (.returned .ok, { l with rwMode := .RD, mem := mem }) ∧
      mem.OwnedBy (Function.update o (addr .rd) none) := by
  obtain ⟨mem, hrel, hmem⟩ := h.release_owned hrd
  exact ⟨mem, by rw [leaveRd, hrel]; rfl, hmem⟩

private theorem failRd_eq (h : l.mem.OwnedBy o) (hrd : o (addr .rd) = some t) (n : ℤ)
    (e : Errno) :
    ∃ mem, l.failRd addr t n e =
        some (.returned (.error e), { l with rwReaders := n, mem := mem }) ∧
      mem.OwnedBy (Function.update o (addr .rd) none) := by
  obtain ⟨mem, hrel, hmem⟩ := h.release_owned hrd
  exact ⟨mem, by rw [failRd, hrel]; rfl, hmem⟩

theorem acquire_rd_eq (hi : l.rwInitialized = true) (tryonly extra : Bool) :
    l.acquire addr t .RD tryonly extra =
      (l.mem.acquire t (some (addr .rd)) tryonly).bind (l.afterRd addr t tryonly extra) := by
  simp [acquire, hi]

theorem release_rw_eq (hi : l.rwInitialized = true) (hm : l.rwMode = .RW) :
    l.release addr t =
      (l.mem.release t (some (addr .rw))).map fun r => (.returned r.1, l.setMem r.2) := by
  simp [release, hi, hm]

theorem release_rd_eq (hi : l.rwInitialized = true) (hm : l.rwMode = .RD) :
    l.release addr t =
      (l.mem.acquire t (some (addr .rd)) false).bind (l.afterReleaseRd addr t) := by
  simp [release, hi, hm]

/-- A writer takes the lock if nobody has `rw_mutex_rw`. -/
theorem acquire_rw_free (h : l.mem.OwnedBy o) (hi : l.rwInitialized = true) (t : τ)
    (tryonly extra : Bool) (hrw : o (addr .rw) = none) :
    ∃ mem, l.acquire addr t .RW tryonly extra =
        some (.returned .ok, { l with rwMode := .RW, mem := mem }) ∧
      mem.OwnedBy (Function.update o (addr .rw) (some t)) := by
  obtain ⟨mem, hacq, hmem⟩ := h.acquire_free t tryonly hrw
  exact ⟨mem, by simp [acquire, hi, hacq, afterRw], hmem⟩

/-- Otherwise it waits or fails, unless it has the mutex itself. -/
theorem acquire_rw_busy (h : l.mem.OwnedBy o) (hi : l.rwInitialized = true)
    (tryonly extra : Bool) (hrw : o (addr .rw) = some u) (hu : u ≠ t) :
    l.acquire addr t .RW tryonly extra =
      some (if tryonly then .returned (.error .EBUSY) else .waiting (.acquireRw extra), l) := by
  unfold acquire
  rw [if_neg (by simp [hi])]
  simp only [h.acquire_busy tryonly hrw hu]
  cases tryonly <;> rfl

/-- A reader that waits for `rw_mutex_rw` with the readers' mutex goes on when it
    gets it, and gives up when it does not. -/
theorem afterRdRw_ok {mem : MutexState τ μ} (h : mem.OwnedBy o) (hrd : o (addr .rd) = some t)
    (extra : Bool) :
    ∃ mem', l.afterRdRw addr t extra (.returned .ok, mem) =
        some (.returned .ok, { l with rwMode := .RD, mem := mem' }) ∧
      mem'.OwnedBy (Function.update o (addr .rd) none) :=
  leaveRd_eq addr (l := l.setMem mem) h hrd

theorem afterRdRw_error {mem : MutexState τ μ} (h : mem.OwnedBy o) (hrd : o (addr .rd) = some t)
    (extra : Bool) (e : Errno) :
    ∃ mem', l.afterRdRw addr t extra (.returned (.error e), mem) =
        some (.returned (.error e), { l with rwReaders := l.rwReaders - 1, mem := mem' }) ∧
      mem'.OwnedBy (Function.update o (addr .rd) none) :=
  failRd_eq addr (l := l.setMem mem) h hrd (l.rwReaders - 1) e

section

variable {mem : MutexState τ μ} (hrd : o (addr .rd) = none)
  (h : mem.OwnedBy (Function.update o (addr .rd) (some t)))

include hrd in
omit [DecidableEq τ] in
private theorem update_rd_none (x : Option τ) :
    Function.update (Function.update o (addr .rd) x) (addr .rd) none = o := by
  rw [Function.update_idem, ← hrd, Function.update_eq_self]

include hrd h

/-- A further reader just counts itself. -/
theorem afterRd_more (tryonly extra : Bool) (hn : l.rwReaders ≠ 0) :
    ∃ mem', l.afterRd addr t tryonly extra (.returned .ok, mem) =
        some (.returned .ok, { l with
          rwMode := .RD, rwReaders := l.rwReaders + 1, mem := mem' }) ∧
      mem'.OwnedBy o := by
  obtain ⟨mem', hleave, hmem⟩ :=
    leaveRd_eq addr (t := t) (l := { l with rwReaders := l.rwReaders + 1, mem := mem }) h (by simp)
  rw [update_rd_none addr hrd] at hmem
  have hne : ¬ l.rwReaders + 1 = 1 := by omega
  exact ⟨mem', by simp only [afterRd, hne, if_false, hleave], hmem⟩

/-- A reader that is not the last one just takes itself off the count. -/
theorem afterReleaseRd_more (hn : l.rwReaders ≠ 1) :
    ∃ mem', l.afterReleaseRd addr t (.returned .ok, mem) =
        some (.returned .ok, { l with
          rwMode := .RD, rwReaders := l.rwReaders - 1, mem := mem' }) ∧
      mem'.OwnedBy o := by
  obtain ⟨mem', hleave, hmem⟩ :=
    leaveRd_eq addr (t := t) (l := { l with rwReaders := l.rwReaders - 1, mem := mem }) h (by simp)
  rw [update_rd_none addr hrd] at hmem
  have hne : ¬ l.rwReaders - 1 = 0 := by omega
  exact ⟨mem', by simp only [afterReleaseRd, hne, if_false, hleave], hmem⟩

variable (hne : addr .rw ≠ addr .rd)

include hne

/-- The first reader takes `rw_mutex_rw`. -/
theorem afterRd_first (tryonly extra : Bool) (hn : l.rwReaders = 0) (hrw : o (addr .rw) = none) :
    ∃ mem', l.afterRd addr t tryonly extra (.returned .ok, mem) =
        some (.returned .ok, { l with rwMode := .RD, rwReaders := 1, mem := mem' }) ∧
      mem'.OwnedBy (Function.update o (addr .rw) (some t)) := by
  obtain ⟨mem₁, hacq, hmem₁⟩ := h.acquire_free t tryonly (m := addr .rw) (by simpa [hne] using hrw)
  obtain ⟨mem', hok, hmem'⟩ := afterRdRw_ok addr
    (t := t) (l := { l with rwReaders := 1, mem := mem }) hmem₁ (by simp [hne.symm]) extra
  refine ⟨mem', by simp [afterRd, hn, hacq, hok], ?_⟩
  rw [Function.update_comm hne, update_rd_none addr hrd] at hmem'
  exact hmem'

/-- If it cannot, it goes back or waits with the readers' mutex. -/
theorem afterRd_busy (extra : Bool) (hn : l.rwReaders = 0) (hrw : o (addr .rw) = some u)
    (hu : u ≠ t) :
    (∃ mem', l.afterRd addr t true extra (.returned .ok, mem) =
        some (.returned (.error .EBUSY), { l with mem := mem' }) ∧ mem'.OwnedBy o) ∧
      l.afterRd addr t false extra (.returned .ok, mem) =
        some (.waiting (.acquireRdRw extra), { l with rwReaders := 1, mem := mem }) := by
  have hacq := fun tryonly => h.acquire_busy tryonly (m := addr .rw) (by simpa [hne] using hrw) hu
  constructor
  · obtain ⟨mem', herr, hmem'⟩ := afterRdRw_error addr
      (t := t) (l := { l with rwReaders := 1, mem := mem }) h (by simp) extra .EBUSY
    rw [update_rd_none addr hrd] at hmem'
    exact ⟨mem', by simp [afterRd, hn, hacq, herr], hmem'⟩
  · simp [afterRd, hn, hacq, afterRdRw, setMem]

/-- The last reader gives `rw_mutex_rw` back if it is the one who took it. -/
theorem afterReleaseRd_last (hn : l.rwReaders = 1) (hrw : o (addr .rw) = some t) :
    ∃ mem', l.afterReleaseRd addr t (.returned .ok, mem) =
        some (.returned .ok, { l with rwMode := .RD, rwReaders := 0, mem := mem' }) ∧
      mem'.OwnedBy (Function.update o (addr .rw) none) := by
  obtain ⟨mem₁, hrel, hmem₁⟩ := h.release_owned (m := addr .rw) (by simpa [hne] using hrw)
  obtain ⟨mem', hleave, hmem'⟩ :=
    leaveRd_eq addr (t := t) (l := { l with rwReaders := 0, mem := mem₁ }) hmem₁
      (by simp [hne.symm])
  refine ⟨mem', by simp [afterReleaseRd, hn, hrel, setMem, hleave], ?_⟩
  rw [Function.update_comm hne, update_rd_none addr hrd] at hmem'
  exact hmem'

/-- Otherwise its release fails and changes nothing. -/
theorem afterReleaseRd_other (hn : l.rwReaders = 1) (hrw : o (addr .rw) ≠ some t) :
    ∃ e mem', l.afterReleaseRd addr t (.returned .ok, mem) =
        some (.returned (.error e), { l with mem := mem' }) ∧ mem'.OwnedBy o := by
  obtain ⟨e, hrel⟩ := h.release_other (m := addr .rw) (by simpa [hne] using hrw)
  obtain ⟨mem', hfail, hmem'⟩ :=
    failRd_eq addr (t := t) (l := { l with rwReaders := 0, mem := mem }) h (by simp) 1 e
  rw [update_rd_none addr hrd] at hmem'
  exact ⟨e, mem', by simp [afterReleaseRd, hn, hrel, setMem, hfail], hmem'⟩

end

end Rwlock

end Pth
