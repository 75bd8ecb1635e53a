-- SUMMARY: When interleaved calls on a read-write lock keep writers alone, and when they do not.
import Pth.Lib.Machine
import Pth.Sync.Rwlock

/-!
# Interleaved calls on a read-write lock

Any number of threads acquire and release one lock. A thread holds the lock from
an acquire that returned `TRUE` to a release that returned `TRUE`; it releases
only while it holds the lock and acquires only while it does not. The first
reader owns `rw_mutex_rw` for all readers, also after it has left. If that thread
then asks for the lock to write, it gets it by recursive locking, whoever still
reads. Without such calls writers are alone. -/

namespace Pth

/-- The lock, where every thread is, and who holds the lock in which mode. -/
structure RwRun (τ : Type*) where
  lock : Rwlock τ RwMutex
  pc : τ → RwPc
  holds : τ → Option RwMode

inductive RwOp (τ : Type*) where
  | acquire (t : τ) (op : RwMode) (tryonly extra : Bool)
  | woken (t : τ) (pending : Bool)
  | release (t : τ)

namespace RwRun

variable {τ : Type*} [DecidableEq τ]

/-- The call of `t` has come as far as `r`; if it returned `TRUE`, the thread now
    holds the lock as `mode` says. -/
def settle (s : RwRun τ) (t : τ) (mode : Option RwMode) (r : RwOutcome × Rwlock τ RwMutex) :
    RwOutcome × RwRun τ :=
  (r.1,
    match r.1 with
    | .returned .ok =>
      { lock := r.2, pc := Function.update s.pc t .idle, holds := Function.update s.holds t mode }
    | .returned (.error _) => { s with lock := r.2, pc := Function.update s.pc t .idle }
    | .waiting pc => { s with lock := r.2, pc := Function.update s.pc t pc })

/-- What a thread will hold when the call it waits in returns `TRUE`. -/
def goal : RwPc → Option RwMode
  | .idle | .releaseRd => none
  | .acquireRw _ => some .RW
  | .acquireRd _ | .acquireRdRw _ => some .RD

def exec (s : RwRun τ) : RwOp τ → Option (RwOutcome × RwRun τ)
  | .acquire t op tryonly extra =>
    (s.lock.acquire id t op tryonly extra).map (s.settle t (some op))
  | .woken t pending => (s.lock.woken id t pending (s.pc t)).map (s.settle t (goal (s.pc t)))
  | .release t => (s.lock.release id t).map (s.settle t none)

/-- Each thread releases only a lock it holds, and holds at most one. -/
def enabled (s : RwRun τ) : RwOp τ → Prop
  | .acquire t _ _ _ => s.pc t = .idle ∧ s.holds t = none
  | .woken t _ => s.pc t ≠ .idle
  | .release t => s.pc t = .idle ∧ s.holds t ≠ none

instance (s : RwRun τ) : (op : RwOp τ) → Decidable (s.enabled op)
  | .acquire t _ _ _ => inferInstanceAs (Decidable (s.pc t = .idle ∧ s.holds t = none))
  | .woken t _ => inferInstanceAs (Decidable (s.pc t ≠ .idle))
  | .release t => inferInstanceAs (Decidable (s.pc t = .idle ∧ s.holds t ≠ none))

/-- The lock initialised, with whatever `rw_mode` was in memory before; nobody
    holds it or calls. -/
def init (s : RwRun τ) : Prop :=
  (∃ l : Rwlock τ RwMutex, (∀ t, l.mem.mutexring t = Ring.init) ∧ s.lock = l.init id) ∧
    (∀ t, s.pc t = .idle) ∧ ∀ t, s.holds t = none

def machine : Machine (RwRun τ) (RwOp τ) RwOutcome where
  init := init
  enabled := enabled
  exec := exec

instance (s : RwRun τ) (op : RwOp τ) : Decidable (machine.enabled s op) :=
  inferInstanceAs (Decidable (s.enabled op))

/-- While a thread holds the lock to write, no other thread holds it. -/
def Exclusive (s : RwRun τ) : Prop :=
  ∀ t u, s.holds t = some .RW → u ≠ t → s.holds u = none

/-- No thread asks for the lock to write while it owns `rw_mutex_rw`. -/
def NotOwner (s : RwRun τ) : RwOp τ → Prop
  | .acquire t .RW _ _ => (s.lock.mem.mutex .rw).mxOwner ≠ some t
  | _ => True

instance (s : RwRun τ) : (op : RwOp τ) → Decidable (s.NotOwner op)
  | .acquire t .RW _ _ =>
    inferInstanceAs (Decidable ((s.lock.mem.mutex .rw).mxOwner ≠ some t))
  | .acquire _ .RD _ _ | .woken _ _ | .release _ => inferInstanceAs (Decidable True)

/-! ## The invariant -/

/-- `o` are the owners of the two mutexes and `R` the readers. A thread that owns
    the readers' mutex between two steps is a first reader that waits for
    `rw_mutex_rw`. -/
structure Good (s : RwRun τ) (o : RwMutex → Option τ) (R : List τ) : Prop where
  mem : s.lock.mem.OwnedBy o
  initialized : s.lock.rwInitialized = true
  nodup : R.Nodup
  reader : ∀ t, t ∈ R ↔ s.holds t = some .RD
  pending : ∀ t, o .rd = some t ↔ ∃ extra, s.pc t = .acquireRdRw extra
  alone : o .rd ≠ none → R = []
  readers : s.lock.rwReaders = R.length + if o .rd = none then 0 else 1
  reading : R ≠ [] → o .rw ≠ none ∧ s.lock.rwMode = .RD
  owner : ∀ t, o .rw = some t → s.holds t = some .RW ∨ R ≠ []
  writing : ∀ t, s.holds t = some .RW → o .rw = some t ∧ s.lock.rwMode = .RW ∧ R = []
  calling : ∀ t, s.pc t ≠ .idle → s.holds t = none ∧ s.pc t ≠ .releaseRd

omit [DecidableEq τ] in
theorem Good.exclusive {s : RwRun τ} {o : RwMutex → Option τ} {R : List τ} (h : s.Good o R) :
    s.Exclusive := by
  intro t u ht hut
  obtain ⟨hown, -, hR⟩ := h.writing t ht
  cases hu : s.holds u with
  | none => rfl
  | some mode =>
    cases mode with
    | RD =>
      have hmem := (h.reader u).mpr hu
      simp [hR] at hmem
    | RW =>
      have hown' := (h.writing u hu).1
      rw [hown] at hown'
      exact absurd (Option.some.inj hown').symm hut

/-! ### What a step may do to it -/

section

variable {s : RwRun τ} {o : RwMutex → Option τ} {R : List τ} {t : τ} {mem : MutexState τ RwMutex}

/-- A call that fails, or waits without a mutex. -/
theorem Good.stay (h : s.Good o R) (pc : RwPc) (hmem : mem.OwnedBy o) (ht : o .rd ≠ some t)
    (hpc : ∀ extra, pc ≠ .acquireRdRw extra)
    (hcall : pc ≠ .idle → s.holds t = none ∧ pc ≠ .releaseRd) :
    Good { s with lock := { s.lock with mem := mem }, pc := Function.update s.pc t pc } o R where
  mem := hmem
  initialized := h.initialized
  nodup := h.nodup
  reader := h.reader
  pending u := by
    have := h.pending u
    grind [Function.update_apply]
  alone := h.alone
  readers := h.readers
  reading := h.reading
  owner := h.owner
  writing := h.writing
  calling u := by
    have := h.calling u
    grind [Function.update_apply]

/-- A writer gets the lock. -/
theorem Good.write (h : s.Good o R) (hmem : mem.OwnedBy (Function.update o .rw (some t)))
    (hrw : o .rw = none) (ht : o .rd ≠ some t) :
    Good { lock := { s.lock with rwMode := .RW, mem := mem },
           pc := Function.update s.pc t .idle, holds := Function.update s.holds t (some .RW) }
      (Function.update o .rw (some t)) R where
  mem := hmem
  initialized := h.initialized
  nodup := h.nodup
  reader u := by
    have := h.reader u
    have := h.reading
    grind [Function.update_apply]
  pending u := by
    have := h.pending u
    grind [Function.update_apply]
  alone := by simpa using h.alone
  readers := by simpa using h.readers
  reading hR := absurd hrw (h.reading hR).1
  owner u := by grind [Function.update_apply]
  writing u := by
    have := h.writing u
    have := h.reading
    grind [Function.update_apply]
  calling u := by
    have := h.calling u
    grind [Function.update_apply]

/-- A first reader waits for `rw_mutex_rw` with the readers' mutex. -/
theorem Good.wait (h : s.Good o R) (hmem : mem.OwnedBy (Function.update o .rd (some t)))
    (hrd : o .rd = none) (hR : R = []) (ht : s.holds t = none) (extra : Bool) :
    Good { s with
        lock := { s.lock with rwReaders := 1, mem := mem }
        pc := Function.update s.pc t (.acquireRdRw extra) }
      (Function.update o .rd (some t)) R where
  mem := hmem
  initialized := h.initialized
  nodup := h.nodup
  reader := h.reader
  pending u := by
    by_cases hu : u = t
    · subst hu
      simp
    · have hother := h.pending u
      simpa [hu, Ne.symm hu, hrd] using hother
  alone _ := hR
  readers := by simp [hR]
  reading := by simpa using h.reading
  owner := by simpa using h.owner
  writing := by simpa using h.writing
  calling u := by
    have := h.calling u
    grind [Function.update_apply]

/-- The waiting first reader gives up. -/
theorem Good.giveUp (h : s.Good o R) (hmem : mem.OwnedBy (Function.update o .rd none))
    (hrd : o .rd = some t) :
    Good { s with
        lock := { s.lock with rwReaders := s.lock.rwReaders - 1, mem := mem }
        pc := Function.update s.pc t .idle }
      (Function.update o .rd none) R where
  mem := hmem
  initialized := h.initialized
  nodup := h.nodup
  reader := h.reader
  pending u := by
    have := h.pending u
    grind [Function.update_apply]
  alone := by simp
  readers := by simp [h.readers, hrd]
  reading := by simpa using h.reading
  owner := by simpa using h.owner
  writing := by simpa using h.writing
  calling u := by
    have := h.calling u
    grind [Function.update_apply]

/-- A first reader gets the lock, at once or after it has waited. -/
theorem Good.readFirst (h : s.Good o R)
    (hmem : mem.OwnedBy (Function.update (Function.update o .rd none) .rw (some t)))
    (hrd : o .rd = none ∨ o .rd = some t) (hrw : o .rw = none) (hR : R = []) :
    Good { lock := { s.lock with rwMode := .RD, rwReaders := 1, mem := mem },
           pc := Function.update s.pc t .idle, holds := Function.update s.holds t (some .RD) }
      (Function.update (Function.update o .rd none) .rw (some t)) [t] where
  mem := hmem
  initialized := h.initialized
  nodup := by simp
  reader u := by
    have := h.reader u
    grind [Function.update_apply]
  pending u := by
    have := h.pending u
    grind [Function.update_apply]
  alone := by simp
  readers := by simp
  reading := by simp
  owner := by simp
  writing u := by
    have := h.writing u
    grind [Function.update_apply]
  calling u := by
    have := h.calling u
    grind [Function.update_apply]

/-- A further reader gets the lock. -/
theorem Good.readMore (h : s.Good o R) (hmem : mem.OwnedBy o) (hrd : o .rd = none) (hR : R ≠ [])
    (ht : s.holds t = none) :
    Good { lock := { s.lock with
             rwMode := .RD, rwReaders := s.lock.rwReaders + 1, mem := mem },
           pc := Function.update s.pc t .idle, holds := Function.update s.holds t (some .RD) }
      o (t :: R) where
  mem := hmem
  initialized := h.initialized
  nodup := List.nodup_cons.mpr ⟨fun hmem => by simp [(h.reader t).mp hmem] at ht, h.nodup⟩
  reader u := by
    have := h.reader u
    grind [Function.update_apply]
  pending u := by
    have := h.pending u
    grind [Function.update_apply]
  alone := by simp [hrd]
  readers := by simp [h.readers, hrd]
  reading _ := ⟨(h.reading hR).1, rfl⟩
  owner := by simp
  writing u := by
    have := h.writing u
    grind [Function.update_apply]
  calling u := by
    have := h.calling u
    grind [Function.update_apply]

/-- The writer leaves. -/
theorem Good.leaveWrite (h : s.Good o R) (hmem : mem.OwnedBy (Function.update o .rw none))
    (ht : s.holds t = some .RW) :
    Good { lock := { s.lock with mem := mem }, pc := Function.update s.pc t .idle,
           holds := Function.update s.holds t none }
      (Function.update o .rw none) R where
  mem := hmem
  initialized := h.initialized
  nodup := h.nodup
  reader u := by
    have := h.reader u
    grind [Function.update_apply]
  pending u := by
    have := h.pending u
    have := h.calling t
    grind [Function.update_apply]
  alone := by simpa using h.alone
  readers := by simpa using h.readers
  reading hR := absurd (h.writing t ht).2.2 hR
  owner := by simp
  writing u := by
    have := h.writing u
    have := h.writing t ht
    grind [Function.update_apply]
  calling u := by
    have := h.calling u
    grind [Function.update_apply]

/-- A reader leaves, and others stay. -/
theorem Good.leaveMore (h : s.Good o R) (hmem : mem.OwnedBy o) (ht : t ∈ R)
    (hR : R.length ≠ 1) :
    Good { lock := { s.lock with
             rwMode := .RD, rwReaders := s.lock.rwReaders - 1, mem := mem },
           pc := Function.update s.pc t .idle, holds := Function.update s.holds t none }
      o (R.erase t) where
  mem := hmem
  initialized := h.initialized
  nodup := h.nodup.erase t
  reader u := by
    have := h.reader u
    rw [h.nodup.mem_erase_iff]
    grind [Function.update_apply]
  pending u := by
    have := h.pending u
    have := h.calling t
    have := h.reader t
    grind [Function.update_apply]
  alone hne := absurd ht (by simp [h.alone hne])
  readers := by
    have hpos := List.length_pos_of_mem ht
    have hlen := List.length_erase_of_mem ht
    simp only [h.readers, hlen]
    omega
  reading _ := ⟨(h.reading (List.ne_nil_of_mem ht)).1, rfl⟩
  owner u _ := Or.inr fun hnil => by
    have hpos := List.length_pos_of_mem ht
    have hlen := List.length_erase_of_mem ht
    rw [hnil] at hlen
    simp at hlen
    omega
  writing u := by
    have := h.writing u
    have := List.ne_nil_of_mem ht
    grind [Function.update_apply]
  calling u := by
    have := h.calling u
    grind [Function.update_apply]

/-- The last reader leaves. -/
theorem Good.leaveLast (h : s.Good o [t]) (hmem : mem.OwnedBy (Function.update o .rw none)) :
    Good { lock := { s.lock with rwMode := .RD, rwReaders := 0, mem := mem },
           pc := Function.update s.pc t .idle, holds := Function.update s.holds t none }
      (Function.update o .rw none) [] where
  mem := hmem
  initialized := h.initialized
  nodup := List.nodup_nil
  reader u := by
    have := h.reader u
    grind [Function.update_apply]
  pending u := by
    have := h.pending u
    have := h.calling t
    have := h.reader t
    grind [Function.update_apply]
  alone _ := rfl
  readers := by
    have := h.alone
    grind [Function.update_apply]
  reading := by simp
  owner := by simp
  writing u := by
    have := h.writing u
    grind [Function.update_apply]
  calling u := by
    have := h.calling u
    grind [Function.update_apply]

end

/-! ## Steps and runs -/

variable {s : RwRun τ} {o : RwMutex → Option τ} {R : List τ}

omit [DecidableEq τ] in
theorem Good.init (h : s.init) : s.Good (fun _ => none) [] := by
  obtain ⟨⟨l, hring, hlock⟩, hpc, hholds⟩ := h
  refine ⟨?_, by simp [hlock, Rwlock.init], List.nodup_nil, by simp [hholds], by simp [hpc],
    by simp, by simp [hlock, Rwlock.init], by simp, by simp, by simp [hholds], by simp [hpc]⟩
  rw [hlock]
  refine MutexState.OwnedBy.init (fun m => ?_) hring
  cases m <;> rfl

/-- Whoever waits with the readers' mutex waits for an owner of `rw_mutex_rw`. -/
def Guarded (o : RwMutex → Option τ) : Prop := o .rd ≠ none → o .rw ≠ none

/-- The writer does not leave while a reader waits for `rw_mutex_rw`. -/
def Unawaited (s : RwRun τ) : RwOp τ → Prop
  | .release t => s.holds t = some .RW → ∀ u extra, s.pc u ≠ .acquireRdRw extra
  | _ => True

omit [DecidableEq τ] in
/-- A thread outside of the calls does not own the readers' mutex. -/
theorem Good.rd_ne (h : s.Good o R) {t : τ} (hpc : ∀ extra, s.pc t ≠ .acquireRdRw extra) :
    o .rd ≠ some t := fun hrd => by
  obtain ⟨extra, hp⟩ := (h.pending t).mp hrd
  exact hpc extra hp

/-- Asking for the lock to write. -/
private theorem Good.acquireRw {t : τ} (h : s.Good o R) (hpc : s.pc t = .idle)
    (ht : s.holds t = none) (hown : o .rw ≠ some t) (tryonly extra : Bool) :
    ∃ r, s.lock.acquire id t .RW tryonly extra = some r ∧
      ∃ o' R', (s.settle t (some .RW) r).2.Good o' R' ∧ (Guarded o → Guarded o') := by
  have hrd : o .rd ≠ some t := h.rd_ne (by simp [hpc])
  cases hrw : o .rw with
  | none =>
    obtain ⟨mem, hacq, hmem⟩ := Rwlock.acquire_rw_free id h.mem h.initialized t tryonly extra hrw
    exact ⟨_, hacq, _, R, h.write hmem hrw hrd, fun _ => by simp [Guarded]⟩
  | some u =>
    have hut : u ≠ t := by rintro rfl; exact hown hrw
    refine ⟨_, Rwlock.acquire_rw_busy id h.mem h.initialized tryonly extra hrw hut, o, R, ?_, id⟩
    cases tryonly with
    | true => exact h.stay .idle h.mem hrd (by simp) (by simp)
    | false => exact h.stay (.acquireRw extra) h.mem hrd (by simp) (by simp [ht])

/-- A reader has got the readers' mutex. -/
private theorem Good.afterRd {t : τ} {mem : MutexState τ RwMutex} (h : s.Good o R)
    (hrd : o .rd = none) (hmem : mem.OwnedBy (Function.update o .rd (some t)))
    (ht : s.holds t = none) (tryonly extra : Bool) :
    ∃ r, s.lock.afterRd id t tryonly extra (.returned .ok, mem) = some r ∧
      ∃ o' R', (s.settle t (some .RD) r).2.Good o' R' ∧ (Guarded o → Guarded o') := by
  have hupd : Function.update o .rd none = o := by rw [← hrd, Function.update_eq_self]
  have hreaders := h.readers
  simp only [hrd, if_true, Int.add_zero] at hreaders
  by_cases hR : R = []
  · have hzero : s.lock.rwReaders = 0 := by simp [hreaders, hR]
    cases hrw : o .rw with
    | none =>
      obtain ⟨mem', hstep, hmem'⟩ :=
        Rwlock.afterRd_first id hrd hmem (by simp) tryonly extra hzero hrw
      refine ⟨_, hstep, _, _, h.readFirst ?_ (Or.inl hrd) hrw hR, fun _ => by simp [Guarded]⟩
      rwa [hupd]
    | some u =>
      -- without readers the owner of `rw_mutex_rw` is a writer
      have hut : u ≠ t := by
        rintro rfl
        rcases h.owner u hrw with hw | hne
        · simp [ht] at hw
        · exact hne hR
      obtain ⟨⟨mem', htry, hmem'⟩, hwait⟩ :=
        Rwlock.afterRd_busy id hrd hmem (by simp) extra hzero hrw hut
      cases tryonly with
      | true => exact ⟨_, htry, o, R, h.stay .idle hmem' (by simp [hrd]) (by simp) (by simp), id⟩
      | false =>
        exact ⟨_, hwait, _, R, h.wait hmem hrd hR ht extra, fun _ => by simp [Guarded, hrw]⟩
  · have hne : s.lock.rwReaders ≠ 0 := by
      rw [hreaders]
      simpa using hR
    obtain ⟨mem', hstep, hmem'⟩ := Rwlock.afterRd_more id hrd hmem tryonly extra hne
    exact ⟨_, hstep, o, _, h.readMore hmem' hrd hR ht, id⟩

/-- Asking for the lock to read. -/
private theorem Good.acquireRd {t : τ} (h : s.Good o R) (hpc : s.pc t = .idle)
    (ht : s.holds t = none) (tryonly extra : Bool) :
    ∃ r, s.lock.acquire id t .RD tryonly extra = some r ∧
      ∃ o' R', (s.settle t (some .RD) r).2.Good o' R' ∧ (Guarded o → Guarded o') := by
  rw [Rwlock.acquire_rd_eq id h.initialized, id_eq]
  cases hrd : o .rd with
  | none =>
    obtain ⟨mem, hacq, hmem⟩ := h.mem.acquire_free t tryonly hrd
    rw [hacq]
    exact h.afterRd hrd hmem ht tryonly extra
  | some u =>
    have hrd_ne := h.rd_ne (t := t) (by simp [hpc])
    have hut : u ≠ t := by rintro rfl; exact hrd_ne hrd
    rw [h.mem.acquire_busy tryonly hrd hut]
    cases tryonly with
    | true => exact ⟨_, rfl, o, R, h.stay .idle h.mem hrd_ne (by simp) (by simp), id⟩
    | false =>
      exact ⟨_, rfl, o, R, h.stay (.acquireRd extra) h.mem hrd_ne (by simp) (by simp [ht]), id⟩

/-- Giving the lock back, which only fails for a last reader that does not own
    `rw_mutex_rw`. -/
theorem Good.release {t : τ} (h : s.Good o R) (ht : s.holds t ≠ none) :
    ∃ r, s.lock.release id t = some r ∧
      ((s.lock.rwReaders = 1 → s.holds t = some .RD → o .rw = some t) → r.1 = .returned .ok) ∧
      ∃ o' R', (s.settle t none r).2.Good o' R' ∧
        (Guarded o → s.Unawaited (.release t) → Guarded o') := by
  obtain ⟨mode, hmode⟩ := Option.ne_none_iff_exists'.mp ht
  cases mode with
  | RW =>
    obtain ⟨hown, hrw, -⟩ := h.writing t hmode
    obtain ⟨mem, hrel, hmem⟩ := h.mem.release_owned hown
    rw [Rwlock.release_rw_eq id h.initialized hrw, id_eq, hrel]
    refine ⟨_, rfl, fun _ => rfl, _, R, h.leaveWrite hmem hmode, fun _ hno hrd => ?_⟩
    -- nobody waits, so nobody has the readers' mutex
    obtain ⟨u, hu⟩ := Option.ne_none_iff_exists'.mp hrd
    obtain ⟨extra, hpc⟩ := (h.pending u).mp (by simpa using hu)
    exact absurd hpc (hno hmode u extra)
  | RD =>
    have hR : t ∈ R := (h.reader t).mpr hmode
    have hrd : o .rd = none := by
      by_contra hne
      simp [h.alone hne] at hR
    have hreaders := h.readers
    simp only [hrd, if_true, Int.add_zero] at hreaders
    obtain ⟨mem, hacq, hmem⟩ := h.mem.acquire_free t false hrd
    rw [Rwlock.release_rd_eq id h.initialized (h.reading (List.ne_nil_of_mem hR)).2, id_eq, hacq]
    simp only [Option.bind_some]
    by_cases hone : R.length = 1
    · have hlast : s.lock.rwReaders = 1 := by rw [hreaders, hone]; rfl
      obtain rfl : R = [t] := by
        obtain ⟨u, rfl⟩ := List.length_eq_one_iff.mp hone
        rw [List.mem_singleton.mp hR]
      by_cases hown : o .rw = some t
      · obtain ⟨mem', hstep, hmem'⟩ := Rwlock.afterReleaseRd_last id hrd hmem (by simp) hlast hown
        exact ⟨_, hstep, fun _ => rfl, _, _, h.leaveLast hmem', fun _ _ => by simp [Guarded, hrd]⟩
      · obtain ⟨e, mem', hstep, hmem'⟩ :=
          Rwlock.afterReleaseRd_other id hrd hmem (by simp) hlast hown
        exact ⟨_, hstep, fun hok => absurd (hok hlast hmode) hown, o, _,
          h.stay .idle hmem' (by simp [hrd]) (by simp) (by simp), fun hg _ => hg⟩
    · have hmore : s.lock.rwReaders ≠ 1 := by rw [hreaders]; exact_mod_cast hone
      obtain ⟨mem', hstep, hmem'⟩ := Rwlock.afterReleaseRd_more id hrd hmem hmore
      exact ⟨_, hstep, fun _ => rfl, o, _, h.leaveMore hmem' hR hone, fun hg _ => hg⟩

/-- Going on after a wait. -/
private theorem Good.woken {t : τ} (h : s.Good o R) (hpc : s.pc t ≠ .idle) (pending : Bool) :
    ∃ r, s.lock.woken id t pending (s.pc t) = some r ∧
      ∃ o' R', (s.settle t (goal (s.pc t)) r).2.Good o' R' ∧ (Guarded o → Guarded o') := by
  obtain ⟨ht, hrel⟩ := h.calling t hpc
  cases hp : s.pc t with
  | idle => exact absurd hp hpc
  | releaseRd => exact absurd hp hrel
  | acquireRw extra =>
    have hrd := h.rd_ne (t := t) (by simp [hp])
    simp only [Rwlock.woken, id_eq]
    rcases h.mem.acquireWoken t .rw extra pending with heq | ⟨hfree, mem, heq, hmem⟩ | ⟨-, heq⟩
    · rw [heq]
      exact ⟨_, rfl, o, R, h.stay .idle h.mem hrd (by simp) (by simp), id⟩
    · rw [heq]
      exact ⟨_, rfl, _, R, h.write hmem hfree hrd, fun _ => by simp [Guarded]⟩
    · rw [heq]
      exact ⟨_, rfl, o, R, h.stay (.acquireRw extra) h.mem hrd (by simp) (by simp [ht]), id⟩
  | acquireRd extra =>
    have hrd := h.rd_ne (t := t) (by simp [hp])
    simp only [Rwlock.woken, id_eq]
    rcases h.mem.acquireWoken t .rd extra pending with heq | ⟨hfree, mem, heq, hmem⟩ | ⟨-, heq⟩
    · rw [heq]
      exact ⟨_, rfl, o, R, h.stay .idle h.mem hrd (by simp) (by simp), id⟩
    · rw [heq]
      exact h.afterRd hfree hmem ht false extra
    · rw [heq]
      exact ⟨_, rfl, o, R, h.stay (.acquireRd extra) h.mem hrd (by simp) (by simp [ht]), id⟩
  | acquireRdRw extra =>
    have hrd : o .rd = some t := (h.pending t).mpr ⟨extra, hp⟩
    have hR := h.alone (by simp [hrd])
    have hone : s.lock.rwReaders = 1 := by simp [h.readers, hR, hrd]
    simp only [Rwlock.woken, id_eq]
    rcases h.mem.acquireWoken t .rw extra pending with heq | ⟨hfree, mem, heq, hmem⟩ | ⟨-, heq⟩
    · rw [heq]
      obtain ⟨mem', hstep, hmem'⟩ :=
        Rwlock.afterRdRw_error id (l := s.lock) h.mem hrd extra .EINTR
      exact ⟨_, hstep, _, R, h.giveUp hmem' hrd, fun _ => by simp [Guarded]⟩
    · rw [heq]
      obtain ⟨mem', hstep, hmem'⟩ :=
        Rwlock.afterRdRw_ok id (l := s.lock) (t := t) hmem (by simpa using hrd) extra
      rw [Function.update_comm (by simp)] at hmem'
      have hgood := h.readFirst hmem' (Or.inr hrd) hfree hR
      rw [← hone] at hgood
      exact ⟨_, hstep, _, _, hgood, fun _ => by simp [Guarded]⟩
    · rw [heq]
      refine ⟨_, rfl, o, R, ?_, id⟩
      have hsame : Function.update s.pc t (.acquireRdRw extra) = s.pc := by
        rw [← hp, Function.update_eq_self]
      simpa [settle, Rwlock.setMem, hsame] using h

/-- Every enabled operation succeeds; if it is not a request to write by the owner
    of `rw_mutex_rw`, it keeps the invariant. A reader is left to wait for nobody only
    by a writer that leaves. -/
theorem Good.exec {op : RwOp τ} (h : s.Good o R) (hen : s.enabled op) (hop : s.NotOwner op) :
    ∃ r s', s.exec op = some (r, s') ∧
      ∃ o' R', s'.Good o' R' ∧ (Guarded o → s.Unawaited op → Guarded o') := by
  cases op with
  | acquire t op tryonly extra =>
    cases op with
    | RW =>
      have hown : o .rw ≠ some t := by rw [← h.mem.owner]; exact hop
      obtain ⟨r, hr, o', R', hgood, hkeep⟩ := h.acquireRw hen.1 hen.2 hown tryonly extra
      exact ⟨_, _, by rw [RwRun.exec, hr]; rfl, o', R', hgood, fun hg _ => hkeep hg⟩
    | RD =>
      obtain ⟨r, hr, o', R', hgood, hkeep⟩ := h.acquireRd hen.1 hen.2 tryonly extra
      exact ⟨_, _, by rw [RwRun.exec, hr]; rfl, o', R', hgood, fun hg _ => hkeep hg⟩
  | woken t pending =>
    obtain ⟨r, hr, o', R', hgood, hkeep⟩ := h.woken hen pending
    exact ⟨_, _, by rw [RwRun.exec, hr]; rfl, o', R', hgood, fun hg _ => hkeep hg⟩
  | release t =>
    obtain ⟨r, hr, -, hgood⟩ := h.release hen.2
    exact ⟨_, _, by rw [RwRun.exec, hr]; rfl, hgood⟩

theorem Good.reach (h : machine.Reach NotOwner s) : ∃ o R, s.Good o R := by
  refine Machine.Reach.invariant (I := fun s => ∃ o R, s.Good o R)
    (fun _ hinit => ⟨_, _, Good.init hinit⟩) ?_ h
  rintro s op r s' ⟨o, R, hgood⟩ hop ⟨hen, hexec⟩
  obtain ⟨r', s'', hexec', o', R', hgood', -⟩ := hgood.exec hen hop
  obtain ⟨-, rfl⟩ : r = r' ∧ s' = s'' := by simpa using hexec.symm.trans hexec'
  exact ⟨o', R', hgood'⟩

/-- The owner of `rw_mutex_rw` that is no writer gets the lock to write while
    another thread reads. -/
private theorem Good.not_exclusive {op : RwOp τ} {r : RwOutcome} {s' : RwRun τ}
    (h : s.Good o R) (hen : s.enabled op) (hexec : s.exec op = some (r, s'))
    (hop : ¬ s.NotOwner op) : ¬ s'.Exclusive := by
  cases op with
  | woken t pending => exact absurd trivial hop
  | release t => exact absurd trivial hop
  | acquire t op tryonly extra =>
    cases op with
    | RD => exact absurd trivial hop
    | RW =>
      have hown : (s.lock.mem.mutex .rw).mxOwner = some t := not_not.mp hop
      have hR : R ≠ [] := by
        rcases h.owner t (by rw [← h.mem.owner, hown]) with hw | hR
        · simp [hen.2] at hw
        · exact hR
      obtain ⟨u, hu⟩ := List.exists_mem_of_ne_nil R hR
      have hread := (h.reader u).mp hu
      have hut : u ≠ t := by rintro rfl; simp [hen.2] at hread
      obtain ⟨mem, hacq, -⟩ := h.mem.wf.acquire_owned tryonly hown
      obtain ⟨-, rfl⟩ := by
        simpa [RwRun.exec, Rwlock.acquire, h.initialized, hacq, Rwlock.afterRw, settle] using hexec
      intro hexcl
      have hnone := hexcl t u (by simp) hut
      simp [hut, hread] at hnone

/-- As long as no thread has asked for the lock to write while it owned
    `rw_mutex_rw`, writers are alone, and the next step keeps it so exactly if it
    is not such a request either. -/
theorem exclusive_iff_notOwner (h : machine.Reach NotOwner s) :
    s.Exclusive ∧ ∀ op r s', machine.Step s op r s' → (s'.Exclusive ↔ s.NotOwner op) := by
  obtain ⟨o, R, hgood⟩ := Good.reach h
  refine ⟨hgood.exclusive, fun op r s' hstep => ⟨?_, fun hop => ?_⟩⟩
  · exact fun hexcl => by_contra fun hop => hgood.not_exclusive hstep.1 hstep.2 hop hexcl
  · obtain ⟨o', R', hgood'⟩ := Good.reach (h.step hop hstep)
    exact hgood'.exclusive

/-- Nobody has called yet. -/
def start (mode : RwMode) (L : Links RwMutex) : RwRun τ where
  lock := Rwlock.init
    { rwInitialized := false, rwMode := mode, rwReaders := 0,
      mem := { mutex := fun _ => Mutex.init, node := L, mutexring := fun _ => Ring.init } } id
  pc _ := .idle
  holds _ := none

omit [DecidableEq τ] in
theorem start_init (mode : RwMode) (L : Links RwMutex) : (start mode L : RwRun τ).init :=
  ⟨⟨_, fun _ => rfl, rfl⟩, fun _ => rfl, fun _ => rfl⟩

/-- Two readers, of which the second one leaves first, and then a writer. -/
theorem exclusive_iff_notOwner_writer : ∃ s : RwRun ℕ, machine.Reach NotOwner s ∧
    s.holds 1 = some .RW ∧ s.Exclusive := by
  have h₀ := Machine.Reach.init (M := machine) (P := NotOwner)
    (start_init (τ := ℕ) .RW ⟨fun _ => none, fun _ => none⟩)
  obtain ⟨s, hs, hw⟩ := h₀.play
    (l := [.acquire 0 .RD false false, .acquire 1 .RD true false, .release 1, .release 0,
      .acquire 1 .RW false false])
    (p := fun s => s.holds 1 = some .RW) (by decide)
  exact ⟨s, hs, hw, (exclusive_iff_notOwner hs).1⟩

/-- The first of two readers leaves, asks for the lock to write, and gets it while
    the second one still reads. -/
theorem writer_beside_reader : ∃ s : RwRun ℕ, machine.Reachable s ∧
    s.holds 0 = some .RW ∧ s.holds 1 = some .RD ∧ ¬ s.Exclusive := by
  have h₀ := Machine.Reach.init (M := machine) (P := fun _ _ => True)
    (start_init (τ := ℕ) .RD ⟨fun _ => none, fun _ => none⟩)
  obtain ⟨s, hs, hw, hr⟩ := h₀.play
    (l := [.acquire 0 .RD false false, .acquire 1 .RD false false, .release 0,
      .acquire 0 .RW false false])
    (p := fun s => s.holds 0 = some .RW ∧ s.holds 1 = some .RD) (by decide)
  refine ⟨s, hs, hw, hr, fun hexcl => ?_⟩
  have hnone := hexcl 0 1 hw (by decide)
  simp [hr] at hnone

end RwRun

end Pth
