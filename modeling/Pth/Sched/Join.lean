-- SUMMARY: Runs with any number of joiners for a thread, and when each dead thread is joined exactly once.
import Pth.Sched.Invariant

/-!
# Joining

`Run.machine` lets a thread be joined by one thread at a time. Here any threads may
join any others, and that restriction becomes a condition on the steps of a run. Under
it a thread leaves the dead queue only through one `pth_join`, which delivers its value
and frees it. -/

namespace Pth

open PrioList (keys)

namespace Run

variable {τ : Type*} [DecidableEq τ]

/-- `pth_join` of any existing thread, whoever joins it already. -/
def enabledJoin (r : Run τ) : Op τ → Prop
  | .join tid _ => r.calls ∧ tid.all r.lib.live
  | .joinFinish => r.phase = .running ∧ r.lib.pthCurrent.any fun c => (r.pc c matches .joining _)
  | op => r.enabled op

def joinMachine : Machine (Run τ) (Op τ) (Out τ) where
  init := init
  enabled := enabledJoin
  exec := exec

/-- Nobody else joins the thread that a `pth_join` is about to join: at its start the
    thread it is called with, or the first dead one, and at its end the first dead one
    if it had none before. -/
def Alone (r : Run τ) : Op τ → Prop
  | .join tid _ => r.unjoined (tid <|> r.lib.queues.head .DQ)
  | .joinFinish =>
    r.lib.pthCurrent.any (r.pc · = .joining none) → r.unjoined (r.lib.queues.head .DQ)
  | _ => True

/-- In this step `pth_join` succeeds and delivers the value of the thread `u`. -/
def Collects (r : Run τ) (op : Op τ) (o : Out τ) (u : τ) : Prop :=
  op = .joinFinish ∧ r.lib.pthCurrent.any (r.joinTarget · = some u) ∧
    o = .joined (r.lib.tcb u).joinArg

section

variable [Fintype τ] (r : Run τ)

instance : (op : Op τ) → Decidable (joinMachine.enabled r op)
  | .spawn _ _ _ | .yield _ | .waitReturn _ | .suspend _ | .resume _ | .cancel _ | .raise _ _ _
  | .unwind _ | .attr _ _ | .exitFinish | .join _ _ | .joinFinish | .comeback _ _ _ =>
    inferInstanceAs (Decidable (_ ∧ _))
  | .wait _ | .cancelState _ | .cancelPoint _ | .favournew _ | .exit _ _ =>
    inferInstanceAs (Decidable r.calls)
  | .objects _ | .manage _ | .dispatch => inferInstanceAs (Decidable (_ = _))

instance : (op : Op τ) → Decidable (r.Alone op)
  | .join _ _ => inferInstanceAs (Decidable (r.unjoined _))
  | .joinFinish => inferInstanceAs (Decidable (_ → r.unjoined _))
  | .spawn _ _ _ | .yield _ | .wait _ | .waitReturn _ | .suspend _ | .resume _ | .cancel _
  | .cancelState _ | .cancelPoint _ | .unwind _ | .attr _ _ | .raise _ _ _ | .favournew _
  | .objects _ | .exit _ _ | .exitFinish | .comeback _ _ _ | .manage _ | .dispatch =>
    inferInstanceAs (Decidable True)

end

variable {r r' : Run τ} {op : Op τ} {o : Out τ} {c u : τ}

theorem enabled_of_alone (hen : r.enabledJoin op) (hP : r.Alone op) : r.enabled op := by
  cases op with
  | join tid alloc => exact ⟨hen.1, hen.2, hP⟩
  | joinFinish => exact ⟨hen.1, hen.2, hP⟩
  | _ => exact hen

/-- Runs without a second joiner are runs of the other machine. -/
theorem reachable_of_alone (h : joinMachine.Reach Alone r) : machine.Reachable r := by
  induction h with
  | init h => exact .init h
  | step _ hP hs ih => exact ih.step trivial ⟨enabled_of_alone hs.1 hP, hs.2⟩

/-! ## The dead queue -/

/-- The dead queue holds the dead threads that can be joined. -/
theorem Inv.mem_dead (h : r.Inv) : u ∈ r.lib.queues.threads .DQ ↔
    r.lib.live u ∧ (r.lib.tcb u).state = .dead ∧ (r.lib.tcb u).joinable ∧ u ∉ r.away := by
  obtain ⟨a, ha⟩ := h.consistent
  rw [ha.repr.threads]
  constructor
  · intro hu
    obtain ⟨hdead, hj⟩ := ha.fits hu
    exact ⟨ha.live hu, hdead, hj, ha.away hu⟩
  · rintro ⟨hlive, hdead, hj, haway⟩
    have hsched : u ≠ r.lib.pthSched := by
      rintro rfl
      simp [h.schedJoin] at hj
    obtain ⟨k, hk⟩ := ha.queued hlive hsched haway
    obtain rfl := (ha.fits hk).queue_eq_dead hdead
    exact hk

/-- A thread that has not been touched stays in the dead queue. -/
theorem Inv.untouched (h : r.Inv) (h' : r'.Inv) (hu : u ∈ r.lib.queues.threads .DQ)
    (hlive : r'.lib.live u) (htcb : r'.lib.tcb u = r.lib.tcb u)
    (hcur : r'.lib.pthCurrent ≠ some u) : u ∈ r'.lib.queues.threads .DQ := by
  obtain ⟨-, hdead, hj, -⟩ := h.mem_dead.mp hu
  rw [← htcb] at hdead hj
  exact h'.mem_dead.mpr ⟨hlive, hdead, hj, fun haway => hcur haway.2⟩

/-- A dead thread stays in the dead queue until it is joined. -/
theorem Effect.dead (h : r.Inv) (he : Effect r op o r') (hu : u ∈ r.lib.queues.threads .DQ) :
    u ∈ r'.lib.queues.threads .DQ ∨
      op = .joinFinish ∧ o = .joined (r.lib.tcb u).joinArg ∧ r'.lib.live u = false := by
  have h' : r'.Inv := he.inv h
  obtain ⟨hlive, hdead, hj, haway⟩ := h.mem_dead.mp hu
  -- a thread that has control is in no queue
  have hne : r.phase.holds → r.lib.pthCurrent ≠ some u := fun hph hcur => haway ⟨hph, hcur⟩
  cases he with
  | call hrun hc hcalm hst hcons hph ho =>
    refine .inl (h'.mem_dead.mpr ⟨hcalm.kept u hlive hj, ?_, ?_, ?_⟩)
    · rcases (hcalm.tcb u).state with hsame | hnow
      · exact hsame.trans hdead
      · exact hnow
    · rw [(hcalm.tcb u).joinable]
      exact hj
    · exact fun hcur => hne (by rw [hrun]; rfl) (hcalm.pthCurrent.symm.trans hcur.2)
  | @spawn attr s t c a hrun hc hpc ht hs =>
    have hut : u ≠ t := by
      rintro rfl
      simp [hlive] at ht
    refine .inl (h.untouched h' hu ?_ ?_ ?_)
    · simp [hs.live, Sched.created, hut, hlive]
    · simp [hs.tcb, Sched.created, hut]
    · exact fun hcur => hne (by rw [hrun]; rfl) (hs.pthCurrent.symm.trans hcur)
  | keep | wait | waitReturn | exits | dies | exited | killed => exact .inl hu
  | @attr x t c hrun hc ht hx =>
    have htcb : ((r.lib.modify t x.write).tcb u).state = .dead ∧
        ((r.lib.modify t x.write).tcb u).joinable := by
      by_cases hut : u = t
      · subst hut
        have hkept : x.isJoinable = false := by simpa [hdead] using hx
        simpa [AttrSet.write_joinable _ hkept] using And.intro hdead hj
      · simpa [hut] using And.intro hdead hj
    exact .inl (h'.mem_dead.mpr ⟨hlive, htcb.1, htcb.2, haway⟩)
  | @joined s c v a hrun hc hv hs =>
    by_cases huv : u = v
    · subst huv
      exact .inr ⟨rfl, rfl, by simp [hs.live]⟩
    · refine .inl (h.untouched h' hu (by simp [hs.live, huv, hlive]) (by rw [hs.tcb]; rfl) ?_)
      exact fun hcur => hne (by rw [hrun]; rfl) (hs.pthCurrent.symm.trans hcur)
  | @comeback now guard still s c a hsw hc hcons hb =>
    have huc : u ≠ c := fun heq => hne (by rw [hsw]; rfl) (heq ▸ hc)
    have htcb : s.tcb u = r.lib.tcb u := by simp [hb.tcb, huc]
    refine .inl (h'.mem_dead.mpr ⟨?_, by rw [htcb]; exact hdead, by rw [htcb]; exact hj, ?_⟩)
    · simp [hb.live, huc, hlive]
    · simp [away, Phase.holds]
  | @manage env dopoll b s a hph hm ha hcons hp =>
    have hst : (s.tcb u).state = .dead := by
      rw [hp.state, if_neg ?_]
      · exact hdead
      · rintro ⟨hmem, -⟩
        have hw : (r.lib.tcb u).state = .waiting := ha.fits hmem
        simp [hw] at hdead
    refine .inl (h'.mem_dead.mpr ⟨by rw [hp.live]; exact hlive, hst, ?_, ?_⟩)
    · rw [hp.joinable]
      exact hj
    · cases b <;> simp [away, Phase.holds]
  | @dispatch s a a' hph ha hd hcur hready hcons =>
    have htcb : s.tcb u = r.lib.tcb u := by
      rw [hd.tcb, if_neg ?_]
      intro hmem
      have hn : (r.lib.tcb u).state = .new := ha.fits hmem
      simp [hn] at hdead
    refine .inl (h.untouched h' hu (by rw [hd.live]; exact hlive) htcb fun hnow => ?_)
    simp [← htcb, hready u hnow] at hdead

/-! ## Joiners -/

/-- The end of `pth_join` reads a thread that exists, and one it finds dead is in the
    dead queue. -/
theorem Inv.joinTarget_live (h : r.Inv) (hrun : r.phase = .running)
    (hc : r.lib.pthCurrent = some c) (hu : r.joinTarget c = some u) :
    r.lib.live u ∧ ((r.lib.tcb u).state = .dead → u ∈ r.lib.queues.threads .DQ) := by
  obtain ⟨hst, a, ha⟩ := h.current hrun hc
  unfold joinTarget at hu
  split at hu
  · next tid hpc =>
    cases tid with
    | none =>
      have hmem : u ∈ keys (a .DQ) := List.mem_of_mem_head? (ha.repr.head ▸ hu)
      exact ⟨ha.live hmem, fun _ => by rw [ha.repr.threads]; exact hmem⟩
    | some v =>
      obtain rfl : v = u := by simpa using hu
      have hj : r.joins c v := ⟨(ha.awayLive rfl).1, by simp [hst], .inr hpc⟩
      refine ⟨(h.joinLive hj).1, fun hdead => ?_⟩
      rw [ha.repr.threads]
      exact h.joined_mem ha hst hj hdead
  · cases hu

/-- A `pth_join` that succeeds delivers the value of the thread it has read, and frees
    it. -/
theorem joinFinish_joined {v : ℤ} (hs : r.exec .joinFinish = some (.joined v, r')) :
    ∃ c u, r.lib.pthCurrent = some c ∧ r.joinTarget c = some u ∧
      (r.lib.tcb u).state = .dead ∧ v = (r.lib.tcb u).joinArg ∧
      r'.lib.live = Function.update r.lib.live u false := by
  cases hc : r.lib.pthCurrent with
  | none => simp [exec, hc] at hs
  | some c =>
    simp only [exec, hc] at hs
    split at hs
    · next tid hpc =>
      unfold joinFinish at hs
      split at hs
      · cases hs
      · next u hu =>
        split at hs
        · cases hs
        · next hdead =>
          obtain ⟨s, hdel, hs⟩ := Option.map_eq_some_iff.mp hs
          obtain ⟨qs, -, rfl⟩ := Option.map_eq_some_iff.mp hdel
          cases hs
          exact ⟨c, u, rfl, by simpa [joinTarget, hpc] using hu, by simpa using hdead, rfl, rfl⟩
    · cases hs

/-- In a run in which nobody joins a thread that another one joins already, joiners
    wait for threads that exist, the end of `pth_join` reads one that exists, and a dead
    thread leaves the dead queue exactly when one `pth_join` succeeds, which delivers
    its value and frees it. -/
theorem joined_once (h : joinMachine.Reach Alone r) :
    (∀ w u, r.joins w u → r.lib.live u) ∧
      (∀ c u, r.phase = .running → r.lib.pthCurrent = some c → r.joinTarget c = some u →
        r.lib.live u ∧ ((r.lib.tcb u).state = .dead → (r.lib.queues.threads .DQ).count u = 1)) ∧
      ∀ op o r', r.Alone op → joinMachine.Step r op o r' →
        (∀ u ∈ r.lib.queues.threads .DQ,
          u ∉ r'.lib.queues.threads .DQ ↔ r.Collects op o u) ∧
        ∀ v, op = .joinFinish → o = .joined v →
          ∃ u ∈ r.lib.queues.threads .DQ, r.Collects op o u ∧ r'.lib.live u = false := by
  have hI : r.Inv := Inv.reach (reachable_of_alone h)
  refine ⟨fun w u hj => (hI.joinLive hj).1, fun c u hrun hc hu => ?_, fun op o r' hP hs => ?_⟩
  · obtain ⟨hlive, hmem⟩ := hI.joinTarget_live hrun hc hu
    obtain ⟨a, ha⟩ := hI.consistent
    refine ⟨hlive, fun hdead => List.count_eq_one_of_mem ?_ (hmem hdead)⟩
    rw [ha.repr.threads]
    exact (ha.repr.queue .DQ).nodup
  · have he : Effect r op o r' := hI.step ⟨enabled_of_alone hs.1 hP, hs.2⟩
    have hI' : r'.Inv := he.inv hI
    refine ⟨fun u hu => ⟨fun hgone => ?_, ?_⟩, ?_⟩
    · obtain ⟨rfl, rfl, hfreed⟩ := (he.dead hI hu).resolve_left hgone
      obtain ⟨c, v, hc, hv, -, -, hlive⟩ := joinFinish_joined hs.2
      obtain rfl : u = v := by
        by_contra huv
        rw [hlive, Function.update_of_ne huv, (hI.mem_dead.mp hu).1] at hfreed
        cases hfreed
      exact ⟨rfl, by simp [hc, hv], rfl⟩
    · rintro ⟨rfl, hu', rfl⟩ hmem
      obtain ⟨c, v, hc, hv, -, -, hlive⟩ := joinFinish_joined hs.2
      obtain rfl : v = u := by simpa [hc, hv] using hu'
      have hfreed := (hI'.mem_dead.mp hmem).1
      simp [hlive] at hfreed
    · rintro v rfl rfl
      obtain ⟨c, u, hc, hu, hdead, rfl, hlive⟩ := joinFinish_joined hs.2
      have hrun : r.phase = .running := hs.1.1
      exact ⟨u, (hI.joinTarget_live hrun hc hu).2 hdead, ⟨rfl, by simp [hc, hu], rfl⟩,
        by simp [hlive]⟩

/-- The state that `pth_init` leaves can be reached. -/
theorem boot_reach_join {P : Run τ → Op τ → Prop} (s : Sched τ) (main sched : τ) (now : Time)
    (hne : main ≠ sched) : joinMachine.Reach P (boot s main sched now) := by
  obtain ⟨s', hs', -⟩ := s.pthInit_started now hne
  exact .init ⟨s, main, sched, now, hne, by simp [boot, hs'], rfl, rfl⟩

/-- The main thread joins the thread 2, which exits with the value 7. -/
theorem joined_once_main : ∃ (r r' : Run (Fin 3)) (o : Out (Fin 3)), joinMachine.Reach Alone r ∧
    joinMachine.Step r .joinFinish o r' ∧ r.Collects .joinFinish o 2 ∧ o = .joined 7 := by
  have hboot : joinMachine.Reach Alone (boot (Sched.blank (0 : Fin 3)) 0 1 .zero) :=
    boot_reach_join _ _ _ _ (by decide)
  obtain ⟨r, o, r', hr, hs, hP, hmem, hgone, harg⟩ := hboot.play_step
    (l := [.spawn none .user (some 2), .join (some 2) true,
      .comeback .zero .intact fun _ => false, .manage Sched.quiet, .dispatch,
      .exit 7 none, .comeback .zero .intact fun _ => false, .manage Sched.quiet, .dispatch,
      .waitReturn none])
    (i := .joinFinish)
    (p := fun r _ r' => r.Alone .joinFinish ∧ 2 ∈ r.lib.queues.threads .DQ ∧
      2 ∉ r'.lib.queues.threads .DQ ∧ (r.lib.tcb 2).joinArg = 7) (by decide)
  have hcollects := (((joined_once hr).2.2 _ _ _ hP hs).1 2 hmem).mp hgone
  exact ⟨r, r', o, hr, hs, hcollects, by rw [hcollects.2.2, harg]⟩

/-- The main thread and the thread 3 join the thread 2. After one of them has joined and
    freed it, the other one goes on with it. -/
theorem joiner_reads_freed : ∃ r : Run (Fin 4), joinMachine.Reachable r ∧
    joinMachine.enabled r .joinFinish ∧
    ∃ c, r.lib.pthCurrent = some c ∧ r.joinTarget c = some 2 ∧ r.lib.live 2 = false := by
  have hboot : joinMachine.Reach (fun _ _ => True) (boot (Sched.blank (0 : Fin 4)) 0 1 .zero) :=
    boot_reach_join _ _ _ _ (by decide)
  exact hboot.play
    (l := [.spawn none .user (some 3), .spawn none .user (some 2), .join (some 2) true,
      .comeback .zero .intact fun _ => false, .manage Sched.quiet, .dispatch,
      .join (some 2) true, .comeback .zero .intact fun _ => false, .manage Sched.quiet, .dispatch,
      .exit 7 none, .comeback .zero .intact fun _ => false, .manage Sched.quiet, .dispatch,
      .waitReturn none, .joinFinish, .yield none,
      .comeback .zero .intact fun _ => false, .manage Sched.quiet, .dispatch, .waitReturn none])
    (p := fun r => joinMachine.enabled r .joinFinish ∧
      ∃ c, r.lib.pthCurrent = some c ∧ r.joinTarget c = some 2 ∧ r.lib.live 2 = false) (by decide)

end Run

end Pth
