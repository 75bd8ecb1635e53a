-- SUMMARY: pth_sigmask and the process signal mask across threads, the scheduler and the event manager.
import Pth.Lib.Machine
import Pth.Types
import Pth.Sched.State

/-!
# Signal masks

There is one signal mask for the process. A thread control block has a copy of the
mask of its thread in `mctx.sigs`, which the event manager reads, and `pth_sigmask`
is to change both. A context switch leaves the mask of the process alone. -/

namespace Pth

/-- The argument `how` of `sigprocmask(2)`. -/
inductive SigHow where
  | block
  | unblock
  | setmask
  | invalid
  deriving DecidableEq, Repr

/-- `SIGKILL` and `SIGSTOP` are silently left out of every mask. -/
def blockable : SigSet := fun n => n != 9 && n != 19

/-- `sigprocmask(2)`: its result and the new mask. -/
def sigprocmask (mask : SigSet) (how : SigHow) (set : Option SigSet) : Ret × SigSet :=
  match set, how with
  | none, _ => (.ok, mask)
  | some s, .block => (.ok, fun n => mask n || s n && blockable n)
  | some s, .unblock => (.ok, fun n => mask n && !s n)
  | some s, .setmask => (.ok, fun n => s n && blockable n)
  | some _, .invalid => (.error .EINVAL, mask)

/-- The mask of the process, the `mctx.sigs` of the threads, the running thread (or the scheduler
    runs), and for each thread that has started the mask it should run with: the one it has
    started with, changed by its own calls. -/
structure MaskRun (τ : Type*) where
  mask : SigSet
  sigs : τ → SigSet
  current : Option τ
  initialized : Bool
  spawned : τ → Bool
  own : τ → Option SigSet

/-- `pth_init` with the memory that becomes `mctx.sigs` of the main thread, `pth_spawn`,
    `pth_sigmask`, a switch to the scheduler, a pass of the event manager over the waiting
    threads, and a switch from the scheduler to a thread. -/
inductive MaskOp (τ : Type*) where
  | init (sigs : SigSet)
  | spawn (t : τ)
  | sigmask (how : SigHow) (set : Option SigSet)
  | leave
  | eventmanager (wq : List τ)
  | dispatch (t : τ)

namespace MaskRun

variable {τ : Type*} [DecidableEq τ]

/-- `pth_sigmask`, called by `current`: its result, the old mask and the new one. -/
def sigmask (s : MaskRun τ) (current : τ) (how : SigHow) (set : Option SigSet) :
    Ret × SigSet × SigSet :=
  -- change the explicitly remembered signal mask copy for the scheduler
  let mask := if set.isSome then (sigprocmask s.mask how (some (s.sigs current))).2 else s.mask
  let r := sigprocmask mask how set
  (r.1, mask, r.2)

/-- The signals that the event manager blocks: those that all waiting threads block. -/
def sigblock (s : MaskRun τ) (wq : List τ) : SigSet :=
  wq.foldl (fun block t n => block n && (s.sigs t n || n ∉ signals)) fun _ => true

/-- What the caller gets: a result and the old mask, or the mask during `select(2)`. -/
inductive Out where
  | void
  | returned (r : Ret) (oset : SigSet)
  | slept (mask : SigSet)

def exec (main : τ) (s : MaskRun τ) : MaskOp τ → Option (Out × MaskRun τ)
  | .init sigs =>
    -- the scheduler blocks all signals and comes back to the main thread
    some (.void, { s with
      mask := (sigprocmask s.mask .setmask (some fun _ => true)).2
      sigs := Function.update s.sigs main sigs
      initialized := true
      spawned := Function.update s.spawned main true })
  | .spawn t =>
    -- `pth_mctx_set` clears the context
    some (.void, { s with
      sigs := Function.update s.sigs t fun _ => false
      spawned := Function.update s.spawned t true })
  | .sigmask how set =>
    s.current.map fun t =>
      let r := s.sigmask t how set
      (.returned r.1 r.2.1, { s with
        mask := r.2.2
        own := Function.update s.own t ((s.own t).map fun m => (sigprocmask m how set).2) })
  | .leave => some (.void, { s with current := none })
  | .eventmanager wq =>
    let mask := (sigprocmask s.mask .setmask (some (s.sigblock wq))).2
    some (.slept mask, { s with mask := (sigprocmask mask .setmask (some s.mask)).2 })
  | .dispatch t =>
    some (.void, { s with
      current := some t
      own := Function.update s.own t (some ((s.own t).getD s.mask)) })

/-- Calls are made by the running thread, after `pth_init`. -/
def enabled (main : τ) (s : MaskRun τ) : MaskOp τ → Prop
  | .init _ => s.current = some main ∧ s.initialized = false
  | .spawn t => s.current ≠ none ∧ s.initialized = true ∧ s.spawned t = false
  | .sigmask _ _ | .leave => s.current ≠ none ∧ s.initialized = true
  | .eventmanager _ => s.current = none
  | .dispatch t => s.current = none ∧ s.spawned t = true

/-- The main thread runs with the mask of the process. -/
def init (main : τ) (s : MaskRun τ) : Prop :=
  s.current = some main ∧ s.initialized = false ∧ (∀ t, s.spawned t = false) ∧
    (∀ n, s.mask n = true → blockable n = true) ∧
    ∀ t, s.own t = if t = main then some s.mask else none

def machine (main : τ) : Machine (MaskRun τ) (MaskOp τ) Out where
  init := init main
  enabled := enabled main
  exec := exec main

/-- The running thread runs with its own mask, and every thread has a copy of its own mask. -/
def PerThread (s : MaskRun τ) : Prop :=
  (∀ t, s.current = some t → s.own t = some s.mask) ∧
    ∀ t m, s.spawned t = true → s.own t = some m → s.sigs t = m

/-- `pth_init` finds everything blocked and memory that says so, a call of `pth_sigmask` changes
    nothing and does not unblock, and a new thread starts when the mask is that of its cleared
    context. -/
def Unchanged (s : MaskRun τ) : MaskOp τ → Prop
  | .init sigs => s.mask = blockable ∧ sigs = s.mask
  | .sigmask how set => (sigprocmask s.mask how set).2 = s.mask ∧
      (how = .unblock → set ≠ none → s.mask = fun _ => false)
  | .dispatch t => s.own t = none → s.sigs t = s.mask
  | _ => True

/-- All threads have the mask of the process. -/
structure Inv (main : τ) (s : MaskRun τ) : Prop where
  own : ∀ t m, s.own t = some m → m = s.mask
  sigs : ∀ t, s.spawned t = true → s.own t ≠ none → s.sigs t = s.mask
  current : ∀ t, s.current = some t → s.own t ≠ none
  blockable : ∀ n, s.mask n = true → blockable n = true
  known : ∀ t, s.own t ≠ none → s.spawned t = true ∨ s.initialized = false ∧ t = main
  unspawned : s.initialized = false → ∀ t, s.spawned t = false

variable {main t : τ} {s : MaskRun τ} {how : SigHow} {set : Option SigSet}

theorem Inv.init (h : s.init main) : s.Inv main := by
  obtain ⟨hcurrent, hinit, hspawned, hblockable, hown⟩ := h
  refine ⟨fun t m ht => ?_, fun t ht => ?_, fun t ht => ?_, hblockable, fun t ht => ?_,
    fun _ => hspawned⟩
  · rw [hown] at ht
    split at ht
    · exact (Option.some.inj ht).symm
    · cases ht
  · simp [hspawned] at ht
  · obtain rfl : main = t := by simpa [hcurrent] using ht
    simp [hown]
  · refine Or.inr ⟨hinit, ?_⟩
    by_contra hne
    simp [hown, hne] at ht

omit [DecidableEq τ] in
theorem Inv.own_eq (h : s.Inv main) (ht : s.own t ≠ none) : s.own t = some s.mask := by
  obtain ⟨m, hm⟩ := Option.ne_none_iff_exists'.mp ht
  rw [hm, h.own t m hm]

omit [DecidableEq τ] in
theorem Inv.perThread (h : s.Inv main) : s.PerThread := by
  refine ⟨fun t ht => h.own_eq (h.current t ht), fun t m hspawned hm => ?_⟩
  rw [h.own t m hm]
  exact h.sigs t hspawned (by simp [hm])

omit [DecidableEq τ] in
/-- With a copy that is right, `pth_sigmask` does what `sigprocmask(2)` does, except that it
    unblocks everything instead of the given signals. -/
theorem sigmask_mask (h : s.sigs t = s.mask) (how : SigHow) (set : Option SigSet) :
    (s.sigmask t how set).2.2 =
      if how = .unblock ∧ set ≠ none then fun _ => false else (sigprocmask s.mask how set).2 := by
  cases set with
  | none => simp [sigmask, sigprocmask]
  | some x =>
    cases how with
    | block =>
      funext n
      simp only [sigmask, sigprocmask, h, Option.isSome_some, if_true, reduceCtorEq, false_and,
        if_false]
      cases s.mask n <;> simp
    | unblock =>
      funext n
      simp [sigmask, sigprocmask, h]
    | setmask => simp [sigmask, sigprocmask]
    | invalid => simp [sigmask, sigprocmask]

theorem sigprocmask_full (mask : SigSet) :
    (sigprocmask mask .setmask (some fun _ => true)).2 = blockable := by
  funext n
  simp [sigprocmask]

omit [DecidableEq τ] in
/-- The event manager restores the mask. -/
theorem Inv.eventmanager_mask (h : s.Inv main) (mask : SigSet) :
    (sigprocmask mask .setmask (some s.mask)).2 = s.mask := by
  funext n
  have hn := h.blockable n
  cases hmask : s.mask n with
  | false => simp [sigprocmask, hmask]
  | true => simp [sigprocmask, hmask, hn hmask]

/-! ## Steps -/

/-- After the operation each thread has its own mask only if the condition was met, and all threads
    have the mask of the process if it was. -/
def Settled (main : τ) (s : MaskRun τ) (op : MaskOp τ) (s' : MaskRun τ) : Prop :=
  (s'.PerThread → s.Unchanged op) ∧ (s.Unchanged op → s'.Inv main)

variable {s' : MaskRun τ} {o : Out}

theorem Inv.step_init {sigs : SigSet} (h : s.Inv main) (hen : s.enabled main (.init sigs))
    (hexec : s.exec main (.init sigs) = some (o, s')) : Settled main s (.init sigs) s' := by
  obtain ⟨-, rfl⟩ := Prod.mk.inj (Option.some.inj hexec)
  simp only [sigprocmask_full]
  have hown := h.own_eq (h.current main hen.1)
  have hmain : ∀ t, s.own t ≠ none → t = main := fun t ht =>
    (h.known t ht).elim (fun hspawned => by simp [h.unspawned hen.2] at hspawned) And.right
  refine ⟨fun hper => ?_, fun hP => ⟨fun t m ht => ?_, fun t _ ht => ?_, h.current,
    fun _ hn => hn, fun t ht => ?_, fun hinit => ?_⟩⟩
  · have hmask := hper.1 main hen.1
    have hsigs := hper.2 main s.mask (by simp) hown
    exact ⟨by simpa [hown] using hmask, by simpa using hsigs⟩
  · rw [h.own t m ht, hP.1]
  · obtain rfl := hmain t ht
    simp [hP.2, hP.1]
  · obtain rfl := hmain t ht
    simp
  · cases hinit

theorem Inv.step_spawn (h : s.Inv main) (hen : s.enabled main (.spawn t))
    (hexec : s.exec main (.spawn t) = some (o, s')) : Settled main s (.spawn t) s' := by
  obtain ⟨-, rfl⟩ := Prod.mk.inj (Option.some.inj hexec)
  have hne : ∀ u, s.own u ≠ none → s.spawned u = true := fun u hu =>
    (h.known u hu).elim id fun hinit => by simp [hen.2.1] at hinit
  have hnew : ∀ u, s.own u ≠ none → u ≠ t := by
    rintro u hu rfl
    exact absurd (hne u hu) (by simp [hen.2.2])
  refine ⟨fun _ => trivial, fun _ => ⟨h.own, fun u _ hu => ?_, h.current, h.blockable,
    fun u hu => ?_, fun hinit => ?_⟩⟩
  · simpa [hnew u hu] using h.sigs u (hne u hu) hu
  · simpa [hnew u hu] using h.known u hu
  · simp [hen.2.1] at hinit

theorem Inv.step_sigmask (h : s.Inv main) (hen : s.enabled main (.sigmask how set))
    (hexec : s.exec main (.sigmask how set) = some (o, s')) :
    Settled main s (.sigmask how set) s' := by
  obtain ⟨t, ht⟩ := Option.ne_none_iff_exists'.mp hen.1
  simp only [exec, ht, Option.map_some, Option.some.injEq] at hexec
  obtain ⟨-, rfl⟩ := Prod.mk.inj hexec
  have hstarted := h.current t ht
  have hown := h.own_eq hstarted
  have hspawned : s.spawned t = true :=
    (h.known t hstarted).elim id fun hinit => by simp [hen.2] at hinit
  have hsigs := h.sigs t hspawned hstarted
  have hmask := sigmask_mask hsigs how set
  refine ⟨fun hper => ?_, fun hP => ?_⟩
  · have hrun := hper.1 t rfl
    have hcopy : s.mask = (s.sigmask t how set).2.2 := hsigs.symm.trans (hper.2 t _ hspawned hrun)
    simp only [Function.update_self, hown, Option.map_some, Option.some.injEq] at hrun
    refine ⟨hrun.trans hcopy.symm, fun hhow hset => ?_⟩
    rw [hcopy, hmask, if_pos ⟨hhow, hset⟩]
  · have hsame : (s.sigmask t how set).2.2 = s.mask := by
      rw [hmask]
      split
      · next hun => exact (hP.2 hun.1 hun.2).symm
      · exact hP.1
    have hupdate : Function.update s.own t ((s.own t).map fun m => (sigprocmask m how set).2) =
        s.own := by
      rw [hown, Option.map_some, hP.1, ← hown, Function.update_eq_self]
    simp only [hsame, hupdate, ← ht]
    exact h

theorem Inv.step_dispatch (h : s.Inv main) (hen : s.enabled main (.dispatch t))
    (hexec : s.exec main (.dispatch t) = some (o, s')) : Settled main s (.dispatch t) s' := by
  obtain ⟨-, rfl⟩ := Prod.mk.inj (Option.some.inj hexec)
  have hget : (s.own t).getD s.mask = s.mask := by
    cases hown : s.own t with
    | none => rfl
    | some m => exact h.own t m hown
  simp only [hget]
  refine ⟨fun hper hnone => ?_, fun hP => ⟨fun u m hu => ?_, fun u hspawned hu => ?_, fun u hu => ?_,
    h.blockable, fun u hu => ?_, h.unspawned⟩⟩
  · exact hper.2 t s.mask hen.2 (by simp)
  · by_cases hut : u = t
    · subst hut
      simpa using hu.symm
    · exact h.own u m (by simpa [hut] using hu)
  · by_cases hut : u = t
    · subst hut
      by_cases hnone : s.own u = none
      · exact hP hnone
      · exact h.sigs u hspawned hnone
    · exact h.sigs u hspawned (by simpa [hut] using hu)
  · obtain rfl : t = u := by simpa using hu
    simp
  · by_cases hut : u = t
    · subst hut
      exact Or.inl hen.2
    · exact h.known u (by simpa [hut] using hu)

theorem Inv.step {op : MaskOp τ} (h : s.Inv main) (hs : (machine main).Step s op o s') :
    Settled main s op s' := by
  obtain ⟨hen, hexec⟩ := hs
  cases op with
  | init sigs => exact h.step_init hen hexec
  | spawn t => exact h.step_spawn hen hexec
  | sigmask how set => exact h.step_sigmask hen hexec
  | leave =>
    obtain ⟨-, rfl⟩ := Prod.mk.inj (Option.some.inj hexec)
    exact ⟨fun _ => trivial, fun _ => ⟨h.own, h.sigs, nofun, h.blockable, h.known, h.unspawned⟩⟩
  | eventmanager wq =>
    obtain ⟨-, rfl⟩ := Prod.mk.inj (Option.some.inj hexec)
    simp only [h.eventmanager_mask]
    exact ⟨fun _ => trivial, fun _ => h⟩
  | dispatch t => exact h.step_dispatch hen hexec

/-- In every run in which `pth_init` finds everything blocked, `pth_sigmask` changes nothing and
    new threads start with the mask of their cleared context, the running thread runs with its
    own mask and every thread has a copy of its own mask; and the first step that does not meet
    this breaks it. -/
theorem perThread_iff (h : (machine main).Reach Unchanged s) :
    s.PerThread ∧ ∀ op o s', (machine main).Step s op o s' →
      (s'.PerThread ↔ s.Unchanged op) := by
  have hinv : s.Inv main := Machine.Reach.invariant (fun _ => Inv.init)
    (fun _ _ _ _ hinv hP hs => (hinv.step hs).2 hP) h
  refine ⟨hinv.perThread, fun op o s' hs => ?_⟩
  have hsettled := hinv.step hs
  exact ⟨hsettled.1, fun hP => (hsettled.2 hP).perThread⟩

/-- The main thread runs, and all signals are blocked. -/
def blocked : MaskRun Bool where
  mask := blockable
  sigs _ := blockable
  current := some false
  initialized := false
  spawned _ := false
  own t := if t = false then some blockable else none

theorem blocked_init : (machine false).init blocked :=
  ⟨rfl, rfl, fun _ => rfl, fun _ hn => hn, fun _ => rfl⟩

/-- The main thread initialises the library, blocks a signal that is blocked already, waits, and
    runs again. -/
theorem perThread_iff_main : ∃ s : MaskRun Bool, (machine false).Reach Unchanged s ∧
    s.current = some false ∧ s.initialized = true ∧ s.PerThread := by
  have hblocked := Machine.Reach.init (P := Unchanged) blocked_init
  have hinit := hblocked.step (i := MaskOp.init blockable) ⟨rfl, rfl⟩ ⟨⟨rfl, rfl⟩, rfl⟩
  have hsame : ∀ n, (blockable n || (n == 10) && blockable n) = blockable n := by
    intro n
    cases blockable n <;> simp
  have hmask := hinit.step (i := MaskOp.sigmask .block (some fun n => n == 10))
    ⟨by simp [sigprocmask, hsame], by simp⟩ ⟨⟨by simp [blocked], rfl⟩, rfl⟩
  have hleave := hmask.step (i := MaskOp.leave) trivial ⟨⟨by simp [blocked], rfl⟩, rfl⟩
  have hmanager := hleave.step (i := MaskOp.eventmanager [false]) trivial ⟨rfl, rfl⟩
  have hdispatch := hmanager.step (i := MaskOp.dispatch false) (by simp [Unchanged, blocked])
    ⟨⟨rfl, by simp [blocked]⟩, rfl⟩
  exact ⟨_, hdispatch, rfl, rfl, (perThread_iff hdispatch).1⟩

instance (main : τ) (s : MaskRun τ) : (op : MaskOp τ) → Decidable ((machine main).enabled s op)
  | .init _ => inferInstanceAs (Decidable (s.current = some main ∧ s.initialized = false))
  | .spawn t =>
    inferInstanceAs (Decidable (s.current ≠ none ∧ s.initialized = true ∧ s.spawned t = false))
  | .sigmask _ _ | .leave =>
    inferInstanceAs (Decidable (s.current ≠ none ∧ s.initialized = true))
  | .eventmanager _ => inferInstanceAs (Decidable (s.current = none))
  | .dispatch t => inferInstanceAs (Decidable (s.current = none ∧ s.spawned t = true))

/-- The main thread sets its mask to signal `10`, another thread sets its own to signal `12`, and
    the main thread then runs with signal `12` blocked and signal `10` not. -/
theorem perThread_iff_other : ∃ s : MaskRun Bool, (machine false).Reachable s ∧
    s.current = some false ∧ (s.own false).map (fun m => (m 10, m 12)) = some (true, false) ∧
    s.mask 10 = false ∧ s.mask 12 = true :=
  (Machine.Reach.init (M := machine false) blocked_init).play
    (l := [.init blockable, .sigmask .setmask (some fun n => n == 10), .spawn true, .leave,
      .dispatch true, .sigmask .setmask (some fun n => n == 12), .leave, .dispatch false])
    (by decide)

end MaskRun

end Pth
