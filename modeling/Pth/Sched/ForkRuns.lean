-- SUMMARY: The child of a fork is consistent, but unless the main thread has forked it can never leave through pth_exit.
import Pth.Sched.Kill

/-!
# Running on in the child

In the child, `pth_fork` drops all threads but the running one, and the program goes on with
what is left. If the main thread has forked, this is what `pth_init` leaves. If another thread
has, the block of the main thread is gone, but `pth_main` still points to it. -/

namespace Pth

open PrioList (keys)

variable {τ η β : Type*} [DecidableEq τ]

namespace Sched

variable {s : Sched τ} {a : QId → List (τ × ℤ)} {c : τ}

/-- Dropping all threads but the running one. -/
theorem Consistent.schedulerDrop (h : s.Consistent a {c}) :
    s.schedulerDrop.Ensures fun s' => s'.Consistent (fun _ => []) {c} ∧
      (∀ t, s'.live t = true ↔ t = c ∨ t = s.pthSched) ∧ ∃ freed, s.Freed freed s' := by
  rw [← schedulerDropFrees_snd]
  refine (schedulerDropFrees_eq h.repr).map ?_
  rintro ⟨freed, s'⟩ ⟨hfreed, hr, hf⟩
  replace hfreed : freed = _ := hfreed
  have hmem : ∀ t, t ∈ freed ↔ ∃ k, t ∈ keys (a k) := fun t => hfreed ▸ mem_queues
  have hlive : ∀ t, s'.live t = true ↔ t = c ∨ t = s.pthSched := by
    intro t
    have ht : s'.live t = (s.live t && decide (t ∉ freed)) := hf.live t
    rw [ht, Bool.and_eq_true, decide_eq_true_eq, hmem]
    constructor
    · rintro ⟨hl, hn⟩
      by_contra hne
      push Not at hne
      exact hn (h.queued hl hne.2 hne.1)
    · rintro (rfl | rfl)
      · exact ⟨(h.awayLive rfl).1, fun ⟨k, hk⟩ => h.away hk rfl⟩
      · exact ⟨h.schedLive, fun ⟨k, hk⟩ => h.sched hk rfl⟩
  have hsched : s'.pthSched = s.pthSched := hf.pthSched
  refine ⟨?_, hlive, freed, hf⟩
  constructor
  · exact hr
  · simp
  · simp
  · simp
  · simp
  · intro t ht hne haway
    rcases (hlive t).mp ht with rfl | rfl
    · exact absurd rfl haway
    · exact absurd hsched.symm hne
  · rintro t rfl
    exact ⟨(hlive t).mpr (.inl rfl), hsched ▸ (h.awayLive rfl).2⟩
  · exact (hlive _).mpr (.inr hsched)
  · intro d hd
    exact h.deletes d (hf.deletes ▸ hd)

end Sched

/-- What a process does that may fork: the operations of a run, and `pth_fork` for whoever goes
    on as the child. -/
inductive ForkOp (τ : Type*) where
  | op (op : Op τ)
  | child

namespace Run

variable {r r' : Run τ} {op : Op τ} {o : Out τ} {c : τ}

def forkEnabled (r : Run τ) : ForkOp τ → Prop
  | .op op => r.enabled op
  | .child => r.calls

def forkExec (handlers : Atfork η β) (r : Run τ) : ForkOp τ → Option (Out τ × Run τ)
  | .op op => r.exec op
  | .child => (pthFork handlers r.lib ⟨0, by decide⟩).map fun x => (.none, { r with lib := x.2.2 })

/-- Runs that go on in the child after each fork. -/
def forking (handlers : Atfork η β) : Machine (Run τ) (ForkOp τ) (Out τ) where
  init := init
  enabled := forkEnabled
  exec := forkExec handlers

/-- The invariant of runs that fork. The scheduler never stands in a blocking call. -/
structure ForkInv (r : Run τ) : Prop where
  inv : r.Inv
  sched : r.pc r.lib.pthSched = .user
  main : r.lib.pthMain ≠ r.lib.pthSched

theorem ForkInv.init (h : r.init) : r.ForkInv := by
  refine ⟨Inv.init h, ?_, ?_⟩
  · obtain ⟨s, main, sched, now, -, -, hpc, -⟩ := h
    rw [hpc]
  · obtain ⟨s, main, sched, now, hne, hlib, -⟩ := h
    have hs := (s.pthInit_started now hne).of_eq_some hlib
    rwa [hs.pthMain, hs.pthSched]

theorem ForkInv.step (h : r.ForkInv) (hs : machine.Step r op o r') : r'.ForkInv := by
  have heff := h.inv.step hs
  obtain ⟨hpc, hmain, hsched⟩ := heff.others
  refine ⟨heff.inv h.inv, ?_, by rw [hmain, hsched]; exact h.main⟩
  rw [hsched]
  rcases hpc r.lib.pthSched with hsame | huser | ⟨hrun, hc⟩
  · rw [hsame]
    exact h.sched
  · exact huser
  · obtain ⟨-, a, ha⟩ := h.inv.current hrun hc
    exact absurd rfl (ha.awayLive rfl).2

/-- What `pth_fork` leaves in the child of the thread `c`. -/
theorem ForkInv.fork {handlers : Atfork η β} (h : r.ForkInv) (hc : r.lib.pthCurrent = some c)
    (hs : (forking handlers).Step r .child o r') : r'.ForkInv ∧ r'.pc = r.pc ∧
      r'.phase = .running ∧ r'.lib.pthCurrent = some c ∧ r'.lib.pthMain = r.lib.pthMain ∧
      ∀ t, r'.lib.live t = true ↔ t = c ∨ t = r.lib.pthSched := by
  obtain ⟨hen, hexec⟩ := hs
  have hcalls : r.calls := hen
  obtain ⟨hrun, huser⟩ := hcalls
  have huser : r.pc c = .user := by simpa [hc] using huser
  obtain ⟨hst, a, ha⟩ := h.inv.current hrun hc
  obtain ⟨s, hdrop, hcons, hlive, freed, hf⟩ := ha.schedulerDrop
  have hr' : r' = { r with lib := s } := by
    have hfork : forkExec handlers r .child = some (.none, { r with lib := s }) := by
      simp [forkExec, pthFork, hdrop]
    have heq := hexec.symm.trans hfork
    exact congrArg Prod.snd (Option.some.inj heq)
  subst hr'
  have hnone : ∀ w u, ¬ joins { r with lib := s } w u := by
    rintro w u ⟨hw, -, hpc⟩
    rcases (hlive w).mp hw with rfl | rfl
    · simp [huser] at hpc
    · simp [h.sched] at hpc
  refine ⟨⟨⟨?_, ?_, ?_, ?_, ?_, ?_⟩, ?_, ?_⟩, rfl, hrun, hf.pthCurrent.trans hc, hf.pthMain, hlive⟩
  · exact consistent_apart hcons (by simp [hrun, Phase.holds]) (hf.pthCurrent.trans hc)
  · intro _
    exact ⟨c, hf.pthCurrent.trans hc, by rw [hf.tcb]; exact hst⟩
  · simp [hrun]
  · rw [hf.tcb, hf.pthSched]
    exact h.inv.schedJoin
  · intro w u hj
    exact absurd hj (hnone w u)
  · intro w w' u hj
    exact absurd hj (hnone w u)
  · rw [hf.pthSched]
    exact h.sched
  · rw [hf.pthMain, hf.pthSched]
    exact h.main

/-- Every state of a run that goes on in its children has the invariant. -/
theorem ForkInv.reach {handlers : Atfork η β} (h : (forking handlers).Reachable r) :
    r.ForkInv := by
  refine h.invariant (I := ForkInv) (fun _ => ForkInv.init) ?_
  intro s i o s' hI _ hs
  cases i with
  | op op => exact hI.step (o := o) hs
  | child =>
    obtain ⟨c, -, hc, -, -⟩ := hI.inv.atRunning hs.1.1
    exact (hI.fork hc hs).1

/-! ## Without the main thread -/

/-- Nobody is about to leave the process. -/
structure Orphaned (r : Run τ) : Prop where
  inv : r.ForkInv
  gone : r.lib.live r.lib.pthMain = false
  stays : ∀ t, r.lib.live t = true → ∀ value,
    r.pc t ≠ .exiting value ∧ r.pc t ≠ .waiting (.exit value)
  runs : ∀ value, r.phase ≠ .exited value

/-- The child of a thread that is not the main thread. -/
theorem orphaned_fork {handlers : Atfork η β} (h : r.ForkInv) (hc : r.lib.pthCurrent = some c)
    (hne : c ≠ r.lib.pthMain) (hs : (forking handlers).Step r .child o r') : r'.Orphaned := by
  have hcalls : r.calls := hs.1
  have huser : r.pc c = .user := by simpa [hc] using hcalls.2
  obtain ⟨hinv, hpc, hrun, -, hmain, hlive⟩ := h.fork hc hs
  refine ⟨hinv, ?_, ?_, by simp [hrun]⟩
  · rw [hmain, ← Bool.not_eq_true, hlive, not_or]
    exact ⟨hne.symm, h.main⟩
  · intro t ht value
    rw [hpc]
    rcases (hlive t).mp ht with rfl | rfl
    · simp [huser]
    · simp [h.sched]

/-- The running thread goes on at a place from which it does not leave the process. -/
theorem Orphaned.update {p : Pc τ} (h : r.Orphaned)
    (hp : ∀ value, p ≠ .exiting value ∧ p ≠ .waiting (.exit value)) (t : τ)
    (ht : r.lib.live t = true) (value : ℤ) :
    Function.update r.pc c p t ≠ .exiting value ∧
      Function.update r.pc c p t ≠ .waiting (.exit value) := by
  by_cases htc : t = c
  · subst htc
    simpa using hp value
  · simpa [htc] using h.stays t ht value

theorem Orphaned.step (h : r.Orphaned) (hs : machine.Step r op o r')
    (hnew : allocates op ≠ some r.lib.pthMain) : r'.Orphaned := by
  have heff := h.inv.inv.step hs
  have hbal := h.inv.inv.balance hs
  have hmain := heff.others.2.1
  have hgone : r'.lib.live r'.lib.pthMain = false := by
    rw [hmain, hbal.live, if_neg hnew, h.gone]
    simp
  -- the main thread does not run
  have hcur : ∀ {c}, r.phase = .running → r.lib.pthCurrent = some c →
      r.lib.live c = true ∧ c ≠ r.lib.pthMain := by
    intro c hrun hc
    obtain ⟨-, a, ha⟩ := h.inv.inv.current hrun hc
    have hlive := (ha.awayLive rfl).1
    refine ⟨hlive, ?_⟩
    rintro rfl
    simp [h.gone] at hlive
  refine ⟨h.inv.step hs, hgone, ?_, ?_⟩
  · cases heff with
    | call _ _ hcalm => exact fun t ht => h.stays t (hcalm.live t ht)
    | @spawn _ _ t _ _ _ _ _ _ hoff =>
      intro u hu value
      by_cases hut : u = t
      · simp [hut]
      · have hu : r.lib.live u = true := by simpa [hoff.live, Sched.created, hut] using hu
        simpa [hut] using h.stays u hu value
    | keep hrun hc _ _ hp =>
      refine h.update fun value => ?_
      rcases hp with rfl | ⟨tid, rfl, -⟩ <;> simp
    | wait hrun hc _ _ _ _ hexit =>
      refine h.update fun value => ⟨by simp, ?_⟩
      intro hk
      exact (hcur hrun hc).2 (hexit value (by simpa using hk)).1
    | @waitReturn _ c k hrun hc hpc =>
      refine h.update fun value => ?_
      have hstays := (h.stays c (hcur hrun hc).1 value).2
      cases k with
      | caller | join => simp [Cont.next]
      | exit v =>
        refine ⟨?_, by simp [Cont.next]⟩
        rintro ⟨rfl⟩
        exact hstays hpc
    | exits hrun hc => exact absurd rfl (hcur hrun hc).2
    | dies hrun hc => exact h.update (by simp)
    | attr => exact h.stays
    | joined hrun hc _ hoff =>
      intro t ht
      refine h.update (by simp) t ?_
      rw [hoff.live, Sched.tcbFree_live] at ht
      split at ht
      · simp at ht
      · exact ht
    | comeback _ _ _ hb => exact fun t ht => h.stays t (hb.live_of ht)
    | manage _ _ _ _ hp => exact fun t ht => h.stays t (hp.live ▸ ht)
    | dispatch _ _ hd => exact fun t ht => h.stays t (hd.live ▸ ht)
    | exited | killed => exact h.stays
  · cases heff with
    | call _ _ _ _ _ hph => rcases hph with rfl | rfl <;> simp
    | exited hrun hc hpc => exact absurd hpc (h.stays _ (hcur hrun hc).1 _).1
    | manage | dispatch => intro value; dsimp only; split <;> simp
    | spawn | waitReturn | exits | attr | joined => exact h.runs
    | _ => simp

/-- A step of the child, or a fork of its own. -/
theorem Orphaned.forkStep {handlers : Atfork η β} {i : ForkOp τ} (h : r.Orphaned)
    (hs : (forking handlers).Step r i o r')
    (hnew : ∀ op, i = .op op → allocates op ≠ some r.lib.pthMain) : r'.Orphaned := by
  cases i with
  | op op => exact h.step (o := o) hs (hnew op rfl)
  | child =>
    obtain ⟨c, a, hc, -, ha⟩ := h.inv.inv.atRunning hs.1.1
    have hcmain : c ≠ r.lib.pthMain := by
      rintro rfl
      simpa [h.gone] using (ha.awayLive rfl).1
    exact orphaned_fork h.inv hc hcmain hs

/-- When a thread that is not the main thread has forked, the child keeps all invariants of
    runs, but as long as the block of the former main thread is not used again it never leaves
    through `pth_exit`, whatever its threads and its own children do. -/
theorem forked_never_exits {handlers : Atfork η β} {r₀ : Run τ} {l : List (ForkOp τ)}
    (h : (forking handlers).Reachable r) (hc : r.lib.pthCurrent = some c)
    (hne : c ≠ r.lib.pthMain) (hfork : (forking handlers).Step r .child o r₀)
    (hl : (forking handlers).Steps r₀ l r')
    (hnew : ∀ op, .op op ∈ l → allocates op ≠ some r.lib.pthMain) :
    r'.Inv ∧ ∀ value, r'.phase ≠ .exited value := by
  have hinv := ForkInv.reach h
  have hstart : r₀.Orphaned ∧ r₀.lib.pthMain = r.lib.pthMain :=
    ⟨orphaned_fork hinv hc hne hfork, (hinv.fork hc hfork).2.2.2.2.1⟩
  have hend : r'.Orphaned ∧ r'.lib.pthMain = r.lib.pthMain := by
    refine hl.invariant (I := fun x : Run τ => x.Orphaned ∧ x.lib.pthMain = r.lib.pthMain)
      (Q := fun i => ∀ op, i = .op op → allocates op ≠ some r.lib.pthMain) ?_ ?_ hstart
    · rintro x i o y ⟨hx, hmain⟩ hi hs
      refine ⟨hx.forkStep hs (by rwa [hmain]), ?_⟩
      rw [← hmain]
      cases i with
      | op op =>
        have hstep : machine.Step x op o y := hs
        exact (hx.inv.inv.step hstep).others.2.1
      | child =>
        obtain ⟨c, -, hc, -, -⟩ := hx.inv.inv.atRunning hs.1.1
        exact (hx.inv.fork hc hs).2.2.2.2.1
    · rintro i hi op rfl
      exact hnew op hi
  exact ⟨hend.1.inv.inv, hend.1.runs⟩

instance [Fintype τ] (handlers : Atfork η β) (r : Run τ) (i : ForkOp τ) :
    Decidable ((forking handlers).enabled r i) :=
  match i with
  | .op op => inferInstanceAs (Decidable (r.enabled op))
  | .child => inferInstanceAs (Decidable r.calls)

/-- The thread 2 forks, and in the child it exits. The event manager is left with no thread,
    and as long as nothing happens it does not come back from `select(2)`. -/
theorem forked_never_exits_last : ∃ (r r₀ r' : Run (Fin 3)) (o : Out (Fin 3))
    (l : List (ForkOp (Fin 3))),
    (forking twoHandlers).Reachable r ∧ (forking twoHandlers).Step r .child o r₀ ∧
    (forking twoHandlers).Steps r₀ l r' ∧ r'.phase = .manager false ∧
    ¬ r'.enabled (.manage Sched.quiet) ∧ ∀ value, r'.phase ≠ .exited value := by
  have hboot : (forking twoHandlers).Reach (fun _ _ => True)
      (boot (Sched.blank (0 : Fin 3)) 0 1 .zero) := .init (boot_init _ _ _ _ (by decide))
  obtain ⟨r, o, r₀, hr, hfork, hc, hmain, hrest⟩ := hboot.play_step
    (l := [.op (.spawn none .user (some 2)), .op (.yield none),
      .op (.comeback .zero .intact fun _ => false), .op (.manage Sched.quiet), .op .dispatch])
    (i := .child)
    (p := fun r o r₀ => r.lib.pthCurrent = some 2 ∧ r.lib.pthMain = 0 ∧
      ((forking twoHandlers).play (fun _ _ => True) r₀ [.op (.exit 7 none),
        .op (.comeback .zero .intact fun _ => false)]).any (fun r' => r'.phase = .manager false ∧
          ¬ r'.enabled (.manage Sched.quiet)) = true) (by decide)
  obtain ⟨r', hl, hph, hblocked⟩ := Machine.steps_play hrest
  have hnever := forked_never_exits hr hc (by simp [hmain]) hfork hl (by simp [allocates])
  exact ⟨r, r₀, r', o, _, hr, hfork, hl, hph, hblocked, hnever.2⟩

end Run

end Pth
