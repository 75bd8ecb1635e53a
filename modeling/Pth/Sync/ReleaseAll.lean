-- SUMMARY: Which mutexes pth_mutex_releaseall leaves locked when a thread terminates.
import Pth.Sync.MutexRuns

/-!
# Releasing the mutexes of a terminating thread

`pth_exit` has `pth_mutex_releaseall` walk the ring of mutexes of the current
thread. The walk takes `pth_ring_next` of a node it has just released, and gives
up each mutex only once. -/

namespace Pth.MutexState

variable {τ μ : Type*} [DecidableEq τ] [DecidableEq μ]
variable {s : MutexState τ μ} {held : τ → List μ} {t : τ}

/-- Releasing a mutex behind the hook: the walk goes on as if the mutex were
    still in the ring. -/
private theorem Inv.release_behind {m b : μ} {P B : List μ} (h : s.Inv held)
    (hl : held t = m :: (P ++ b :: B)) :
    ∃ s' held' P', s.release t (some b) = some (.ok, s') ∧ s'.Inv held' ∧
      held' t = m :: (P' ++ B) ∧ (s'.mutexring t).next s'.node b = B.head? := by
  have hring := h.ring t
  have hown : (s.mutex b).mxOwner = some t := (h.owner b t).mp (by simp [hl])
  have hpos := (h.ok b).count_pos (by simp [hown])
  have hnd := hring.nodup
  rw [hl] at hring hnd
  have hnext : (s.mutexring t).next s.node b = B.head? :=
    Ring.next_eq (A := m :: P) hring
  by_cases hc : (s.mutex b).mxCount = 1
  · obtain ⟨s', hrel, -, hlink, hinv⟩ := h.release_last hown hc
    have herase : (held t).erase b = m :: (P ++ B) := by
      rw [hl]
      exact erase_append_cons (A := m :: P) hnd
    have hheld : Function.update held t ((held t).erase b) t = m :: (P ++ B) := by simp [herase]
    refine ⟨s', _, P, hrel, hinv, hheld, ?_⟩
    have hhook : (s'.mutexring t).rHook = (s.mutexring t).rHook := by
      rw [(hinv.ring t).hook, hheld, hring.hook]
      rfl
    rw [← hnext, Ring.next, Ring.next, hlink, hhook]
  · obtain ⟨hrel, hinv⟩ := h.release_again hown (by omega)
    exact ⟨_, held, P ++ [b], hrel, hinv, by simp [hl], hnext⟩

/-- The walk from a node behind the hook ends, and leaves the mutex at the hook
    to the thread. -/
private theorem Inv.releaseallLoop_keeps {m : μ} {P B : List μ} {n : Nat} (h : s.Inv held)
    (hl : held t = m :: (P ++ B)) (hn : B.length ≤ n) :
    ∃ s', releaseallLoop t t (some m) n s B.head? = some s' ∧
      (s'.mutex m).mxOwner = some t := by
  induction B generalizing s held P n with
  | nil =>
    refine ⟨s, by cases n <;> rfl, (h.owner m t).mp ?_⟩
    simp [hl]
  | cons b B ih =>
    obtain ⟨n, rfl⟩ : ∃ k, n = k + 1 := ⟨n - 1, by simp at hn; omega⟩
    obtain ⟨s₁, held₁, P₁, hrel, hinv, hl₁, hnext⟩ := h.release_behind hl
    obtain ⟨s', hloop, hown⟩ := ih hinv hl₁ (by simpa using hn)
    have hnd := (hinv.ring t).nodup
    rw [hl₁] at hnd
    have hne : B.head? ≠ some m := fun hhead =>
      (List.nodup_cons.mp hnd).1 (List.mem_append_right _ (List.mem_of_mem_head? hhead))
    exact ⟨s', by simp [releaseallLoop, hrel, hnext, hne, hloop], hown⟩

/-- The walk of another thread gives up nothing. -/
private theorem Inv.releaseallLoop_other {current : τ} {A B : List μ} {n : Nat} (h : s.Inv held)
    (hne : current ≠ t) (hl : held t = A ++ B) (hn : B.length ≤ n) :
    releaseallLoop current t (held t).head? n s B.head? = some s := by
  induction B generalizing A n with
  | nil => cases n <;> rfl
  | cons b B ih =>
    obtain ⟨n, rfl⟩ : ∃ k, n = k + 1 := ⟨n - 1, by simp at hn; omega⟩
    have hring := h.ring t
    rw [hl] at hring
    have hown : (s.mutex b).mxOwner = some t := (h.owner b t).mp (by simp [hl])
    have hother : (s.mutex b).mxOwner ≠ some current := fun hcur =>
      hne (Option.some.inj (hcur.symm.trans hown))
    have hwf : s.WellFormed := ⟨held, h⟩
    obtain ⟨e, hrel⟩ := hwf.release_other hother
    have ih := ih (A := A ++ [b]) (by simp [hl]) (by simpa using hn)
    simp [releaseallLoop, hrel, Ring.next_eq hring, ih]

theorem WellFormed.releaseall_other {current : τ} (h : s.WellFormed) (hne : current ≠ t) :
    s.releaseall current t = some s := by
  obtain ⟨held, h⟩ := h
  have hring := h.ring t
  have hloop := h.releaseallLoop_other (A := []) (n := (s.mutexring t).rNodes.toNat) hne rfl
    (by simp [hring.nodes])
  rwa [← hring.hook] at hloop

/-- What termination is meant to do: from `s` to `s'` the thread `t` has given up
    all its mutexes, and no other mutex has changed. -/
structure Released (s s' : MutexState τ μ) (t : τ) : Prop where
  unlocked : ∀ m, (s.mutex m).mxOwner = some t → (s'.mutex m).mxLocked = false ∧
    (s'.mutex m).mxOwner = none ∧ (s'.mutex m).mxCount = 0
  ring : (s'.mutexring t).rHook = none ∧ (s'.mutexring t).rNodes = 0
  other : ∀ m, (s.mutex m).mxOwner ≠ some t → s'.mutex m = s.mutex m

omit [DecidableEq τ] [DecidableEq μ] in
/-- A mutex that the thread still owns has not been given up. -/
private theorem not_released {s' : MutexState τ μ} {m : μ} (hm : (s.mutex m).mxOwner = some t)
    (hm' : (s'.mutex m).mxOwner = some t) : ¬ s.Released s' t := by
  intro h
  have hnone := (h.unlocked m hm).2.1
  simp [hm'] at hnone

/-- A thread without mutexes. -/
private theorem Inv.releaseall_nil (h : s.Inv held) (hl : held t = []) :
    s.releaseall t t = some s ∧ s.Released s t ∧ (s.mutexring t).rNodes ≤ 1 ∧
      ∀ m, (s.mutex m).mxOwner ≠ some t := by
  have hring := h.ring t
  have hhook : (s.mutexring t).rHook = none := by rw [hring.hook, hl]; rfl
  have hnodes : (s.mutexring t).rNodes = 0 := by rw [hring.nodes, hl]; rfl
  have hown : ∀ m, (s.mutex m).mxOwner ≠ some t := fun m hm => by
    simpa [hl] using (h.owner m t).mpr hm
  refine ⟨by simp [releaseall, Ring.first, hhook, releaseallLoop], ?_, by omega, hown⟩
  exact ⟨fun m hm => absurd hm (hown m), ⟨hhook, hnodes⟩, fun _ _ => rfl⟩

/-- A thread with one mutex, locked once. -/
private theorem Inv.releaseall_single {m : μ} (h : s.Inv held) (hl : held t = [m])
    (hc : (s.mutex m).mxCount = 1) : ∃ s', s.releaseall t t = some s' ∧ s.Released s' t := by
  have hring := h.ring t
  rw [hl] at hring
  have hhook : (s.mutexring t).rHook = some m := hring.hook
  have hown : (s.mutex m).mxOwner = some t := (h.owner m t).mp (by simp [hl])
  obtain ⟨s₁, hrel, hmutex, hlink, hinv⟩ := h.release_last hown hc
  have hring₁ := hinv.ring t
  rw [Function.update_self, hl, List.erase_cons_head] at hring₁
  -- the released node still links to itself, so the walk comes back to it
  have hself : s₁.node.next m = some m := by
    rw [hlink]
    exact (Links.cycle_singleton.mp hring.cycle).1
  have hhook₁ : (s₁.mutexring t).rHook = none := hring₁.hook
  refine ⟨s₁, ?_, ?_, ⟨hhook₁, hring₁.nodes⟩, ?_⟩
  · simp [releaseall, Ring.first, hhook, hring.nodes, releaseallLoop, hrel, Ring.next, hself,
      hhook₁]
  · intro y hy
    obtain rfl : y = m := by simpa [hl] using (h.owner y t).mpr hy
    simp [hmutex]
  · intro y hy
    have hne : y ≠ m := by rintro rfl; exact hy hown
    simp [hmutex, hne]

/-- A thread with several mutexes, the first one locked once. -/
private theorem Inv.releaseall_several {m b : μ} {l : List μ} (h : s.Inv held)
    (hl : held t = m :: b :: l) (hc : (s.mutex m).mxCount = 1) :
    ∃ s', s.releaseall t t = some s' ∧ ¬ s.Released s' t := by
  have hring := h.ring t
  rw [hl] at hring
  have hhook : (s.mutexring t).rHook = some m := hring.hook
  have hfuel : (s.mutexring t).rNodes.toNat = l.length + 2 := by
    rw [hring.nodes, List.length_cons, List.length_cons, Int.toNat_natCast]
  have hown : (s.mutex m).mxOwner = some t := (h.owner m t).mp (by simp [hl])
  obtain ⟨s₁, hrel, -, hlink, hinv⟩ := h.release_last hown hc
  have hring₁ := hinv.ring t
  rw [Function.update_self, hl, List.erase_cons_head] at hring₁
  -- the hook has moved to the node the walk wants to go to, where it stops
  have hnext : s₁.node.next m = some b := by
    rw [hlink]
    exact (Links.Cycle.edge (A := []) hring.cycle).1
  have hhook₁ : (s₁.mutexring t).rHook = some b := hring₁.hook
  refine ⟨s₁, ?_, not_released (m := b) ((h.owner b t).mp (by simp [hl]))
    ((hinv.owner b t).mp (by simp [hl]))⟩
  simp [releaseall, Ring.first, hhook, hfuel, releaseallLoop, hrel, Ring.next, hnext, hhook₁]

/-- A thread that has locked its first mutex more than once. -/
private theorem Inv.releaseall_again {m : μ} {l : List μ} (h : s.Inv held) (hl : held t = m :: l)
    (hc : 1 < (s.mutex m).mxCount) : ∃ s', s.releaseall t t = some s' ∧ ¬ s.Released s' t := by
  have hring := h.ring t
  rw [hl] at hring
  have hhook : (s.mutexring t).rHook = some m := hring.hook
  have hfuel : (s.mutexring t).rNodes.toNat = l.length + 1 := by rw [hring.nodes]; simp
  have hown : (s.mutex m).mxOwner = some t := (h.owner m t).mp (by simp [hl])
  obtain ⟨hrel, hinv⟩ := h.release_again hown hc
  have hnext : (s.mutexring t).next s.node m = l.head? := Ring.next_eq (A := []) hring
  have hne : l.head? ≠ some m := fun hhead =>
    (List.nodup_cons.mp hring.nodup).1 (List.mem_of_mem_head? hhead)
  obtain ⟨s', hloop, hown'⟩ :=
    hinv.releaseallLoop_keeps (P := []) (n := l.length) hl (Nat.le_refl _)
  refine ⟨s', ?_, not_released hown hown'⟩
  simpa [releaseall, Ring.first, hhook, hfuel, releaseallLoop, hrel, setMutex, hnext, hne]
    using hloop

/-- A thread that terminates gives up all its mutexes exactly if it holds at most
    one, locked once. -/
theorem releaseall_released_iff (h : s.WellFormed) (t : τ) :
    ∃ s', s.releaseall t t = some s' ∧ (s.Released s' t ↔
      (s.mutexring t).rNodes ≤ 1 ∧
        ∀ m, (s.mutex m).mxOwner = some t → (s.mutex m).mxCount = 1) := by
  obtain ⟨held, h⟩ := h
  cases hl : held t with
  | nil =>
    obtain ⟨hall, hreleased, hle, hown⟩ := h.releaseall_nil hl
    exact ⟨s, hall, iff_of_true hreleased ⟨hle, fun m hm => absurd hm (hown m)⟩⟩
  | cons m l =>
    have hnodes : (s.mutexring t).rNodes = (l.length + 1 : ℕ) := by
      rw [(h.ring t).nodes, hl]
      rfl
    have hown : (s.mutex m).mxOwner = some t := (h.owner m t).mp (by simp [hl])
    have hpos := (h.ok m).count_pos (by simp [hown])
    by_cases hc : (s.mutex m).mxCount = 1
    · cases l with
      | nil =>
        obtain ⟨s', hall, hreleased⟩ := h.releaseall_single hl hc
        refine ⟨s', hall, iff_of_true hreleased ⟨by simp [hnodes], fun y hy => ?_⟩⟩
        obtain rfl : y = m := by simpa [hl] using (h.owner y t).mpr hy
        exact hc
      | cons b l =>
        obtain ⟨s', hall, hnot⟩ := h.releaseall_several hl hc
        refine ⟨s', hall, iff_of_false hnot fun hle => ?_⟩
        rw [hnodes, List.length_cons] at hle
        omega
    · obtain ⟨s', hall, hnot⟩ := h.releaseall_again hl (by omega)
      exact ⟨s', hall, iff_of_false hnot fun hone => hc (hone.2 m hown)⟩

/-- A thread with one mutex, locked once, leaves it unlocked. -/
theorem releaseall_released_single : ∃ s s' : MutexState (Fin 2) (Fin 2), s.WellFormed ∧
    (s.mutex 0).mxOwner = some 0 ∧ s.releaseall 0 0 = some s' ∧ s.Released s' 0 := by
  have h₀ := Machine.Reach.init (M := MutexRun.machine) (P := fun _ _ => True)
    (MutexRun.start_init (τ := Fin 2) ⟨fun _ : Fin 2 => none, fun _ => none⟩)
  obtain ⟨s, hs, hown, hcond⟩ := h₀.play (l := [.acquire 0 (some 0) false false])
    (p := fun s => (s.mem.mutex 0).mxOwner = some 0 ∧ (s.mem.mutexring 0).rNodes ≤ 1 ∧
      ∀ m, (s.mem.mutex m).mxOwner = some 0 → (s.mem.mutex m).mxCount = 1) (by decide)
  have hwf := (MutexRun.Inv.reachable hs).wf
  obtain ⟨s', hrel, hiff⟩ := releaseall_released_iff hwf 0
  exact ⟨s.mem, s', hwf, hown, hrel, hiff.mpr hcond⟩

/-- A thread that has locked two mutexes, each once, keeps the second one. -/
theorem releaseall_keeps_second : ∃ (s : MutexRun (Fin 2) (Fin 2)) (s' : MutexState (Fin 2) (Fin 2)),
    MutexRun.machine.Reachable s ∧ (s.mem.mutex 1).mxOwner = some 0 ∧
    s.mem.releaseall 0 0 = some s' ∧ (s'.mutex 1).mxLocked = true ∧
    (s'.mutex 1).mxOwner = some 0 ∧ ¬ s.mem.Released s' 0 := by
  have h₀ := Machine.Reach.init (M := MutexRun.machine) (P := fun _ _ => True)
    (MutexRun.start_init (τ := Fin 2) ⟨fun _ : Fin 2 => none, fun _ => none⟩)
  obtain ⟨s, hs, hown, hleft⟩ := h₀.play
    (l := [.acquire 0 (some 0) false false, .acquire 0 (some 1) false false])
    (p := fun s => (s.mem.mutex 1).mxOwner = some 0 ∧ (s.mem.releaseall 0 0).any
      (fun s' => (s'.mutex 1).mxLocked = true ∧ (s'.mutex 1).mxOwner = some 0) = true)
    (by decide)
  cases hrel : s.mem.releaseall 0 0 with
  | none => simp [hrel] at hleft
  | some s' =>
    obtain ⟨hlocked, hown'⟩ : (s'.mutex 1).mxLocked = true ∧ (s'.mutex 1).mxOwner = some 0 := by
      simpa [hrel] using hleft
    refine ⟨s, s', hs, hown, hrel, hlocked, hown', fun hreleased => ?_⟩
    have hnone := (hreleased.unlocked 1 hown).2.1
    rw [hown'] at hnone
    exact absurd hnone (by simp)

end Pth.MutexState
