-- SUMMARY: Which thread runs after a directed yield, from the queues and priorities at the call.
import Pth.Sched.Progress

/-!
# Directed yield

`pth_yield` moves the favored thread to the front of its queue, with a priority one
above the rest. Before the scheduler takes the next thread, other threads come to
the ready queue: the one that yields, those the event manager wakes, and the new
ones. The favored thread stays first if none of them has a higher priority. -/

namespace Pth

open PrioList (keys)

namespace Sched

variable {τ : Type*} {s s' : Sched τ} {a : QId → List (τ × ℤ)} {c t : τ} {q : ℤ}

/-! ## The front of the ready queue -/

/-- The last of some new threads that are favoured is first. -/
theorem head?_welcome (ts : List τ) (l : List (τ × ℤ)) :
    (keys (welcome true (ts ++ [t]) l)).head? = some t := by
  obtain ⟨A, hA, hw⟩ := welcome_favour (ts ++ [t]) l
  simp [hw, hA]

theorem head?_drained_new {e : τ × ℤ} {l : List (τ × ℤ)} (hl : a .NQ = e :: l) :
    (keys (drained true a .RQ)).head? = some e.1 := by
  simp only [drained, Function.update_self, hl, PrioList.keys_cons, List.reverse_cons]
  exact head?_welcome _ _

/-- A ready thread stays in front of the new ones. -/
theorem head?_drained {favournew : Bool} (ht : t ∉ keys (a .NQ)) :
    (∃ q, (drained favournew a .RQ).head? = some (t, q)) ↔
      ∃ q, (a .RQ).head? = some (t, q) ∧ (a .NQ ≠ [] → favournew = false ∧ prioStd ≤ q) := by
  cases favournew with
  | true =>
    cases hl : a .NQ with
    | nil => simp [drained_nil hl]
    | cons e l =>
      have hne : e.1 ≠ t := fun he => ht (by simp [hl, he])
      simp [← PrioList.head?_keys, head?_drained_new hl, hne]
  | false =>
    have hw : drained false a .RQ =
        PrioList.insertAll (fun _ => prioStd) (keys (a .NQ)).reverse (a .RQ) := by
      simp [drained, welcome, PrioList.insertAll]
    have hall : ∀ q : ℤ, (∀ u ∈ keys (a .NQ), prioStd ≤ q) ↔ (a .NQ ≠ [] → prioStd ≤ q) := by
      intro q
      cases a .NQ with
      | nil => simp
      | cons e l => exact ⟨fun h _ => h e.1 (by simp), fun h _ _ => h (by simp)⟩
    simp only [hw, PrioList.head?_insertAll (mt List.mem_reverse.mp ht), List.mem_reverse, hall,
      true_and]

/-- A ready thread stays in front of those that are woken. -/
theorem head?_rearranged {tcb : τ → Tcb τ} (ht : t ∉ keys (a .WQ)) :
    (rearranged a [] (a .WQ) tcb .RQ).head? = some (t, q) ↔
      (a .RQ).head? = some (t, q) ∧ ∀ w ∈ keys (a .WQ), Due (tcb w) → (tcb w).prio + 1 ≤ q := by
  have hmem : t ∉ (keys (a .WQ)).filter fun w => wakes (tcb w) := mt List.mem_of_mem_filter ht
  simp only [rearranged, PrioList.head?_insertAll hmem, List.mem_filter, wakes_iff, and_imp]

/-- A ready thread stays in front of the one that comes back. -/
theorem head?_requeued {x : Tcb τ} (hne : c ≠ t) :
    (requeued a c x .RQ).head? = some (t, q) ↔
      (PrioList.increase (a .RQ)).head? = some (t, q) ∧ (x.state = .ready → x.prio ≤ q) := by
  simp only [requeued]
  split
  · next hst => simp [PrioList.head?_insert hne, hst]
  · next hst => simp [hst]

/-- A favored thread stays where it is when another one comes back. -/
theorem mem_requeued {k : QId} {x : Tcb τ} {st : ThreadState} (hk : yieldPlace st = some k)
    (ht : t ∈ keys (a k)) :
    t ∈ keys (requeued a c x .RQ) ∨ t ∈ keys (requeued a c x .NQ) := by
  cases st with
  | new =>
    obtain rfl : .NQ = k := by simpa [yieldPlace] using hk
    exact .inr ht
  | ready =>
    obtain rfl : .RQ = k := by simpa [yieldPlace] using hk
    left
    simp only [requeued]
    split
    · exact PrioList.mem_keys_insert.mpr (.inr (by simpa using ht))
    · simpa using ht
  | _ => simp [yieldPlace] at hk

/-! ## The round -/

variable [DecidableEq τ] {H : Set τ}

/-- A directed yield is accepted if the thread is in the queue of its state. -/
theorem Consistent.yield_some {k : QId} (h : s.Consistent a H)
    (hk : yieldPlace (s.tcb t).state = some k) (ht : t ∈ keys (a k)) :
    (s.yield (some t)).Ensures fun r => r.1 = .ok ∧
      r.2.Consistent (Function.update a k (PrioList.favorite t (a k))) H ∧ s.OffQueues r.2 := by
  simp only [Sched.yield, hk, h.repr.contains, Option.bind_some, ht, decide_true, if_true]
  exact (h.favorite ht).map fun _ h' => ⟨rfl, h'⟩

theorem OffQueues.back {s₁ : Sched τ} {overflow : Bool} {still : SigSet} (ho : s.OffQueues s₁)
    (hb : s₁.Back c overflow still s') : s.Back c overflow still s' where
  tcb := by rw [hb.tcb, ho.tcb]
  live t := by rw [hb.live, ho.live, ho.tcb]
  pthMain := hb.pthMain.trans ho.pthMain
  pthSched := hb.pthSched.trans ho.pthSched
  favournew := hb.favournew.trans ho.favournew

omit [DecidableEq τ] in
/-- A thread that runs until it yields is ready when it comes back, or its stack has
    overflown. -/
theorem backTcb_state (overflow : Bool) (still : SigSet) {x : Tcb τ} (hx : x.state = .ready) :
    (backTcb overflow still x).state = if overflow then .dead else .ready := by
  obtain ⟨sp, sc, hdrop⟩ := dropDelivered_eq still x
  cases overflow <;> simp [backTcb, hdrop, hx]

/-- The event manager makes a waiting thread ready if it is due. -/
theorem Consistent.due_iff {w : τ} (h : s.Consistent a H) (hp : s.Passed (keys (a .WQ)) s')
    (hw : w ∈ keys (a .WQ)) : Due (s'.tcb w) ↔ (s'.tcb w).state = .ready := by
  have hst : (s.tcb w).state = .waiting := h.fits hw
  rw [hp.state]
  simp [hw, hst]

/-- The boosted priority of a ready thread that is favored. -/
def boosted (s : Sched τ) (t : τ) : ℤ := PrioList.boost t (s.queues.entries .RQ)

/-- No thread comes in front of the thread `t` that `c` favors: it is a new thread, or
    it is ready and its boosted priority is high enough against new threads, the
    thread `c`, and the threads that are woken. -/
def Favored (s : Sched τ) (c t : τ) (overflow : Bool) (woken : τ → Prop) : Prop :=
  t ∈ s.queues.threads .NQ ∨
    (s.queues.threads .NQ ≠ [] → s.favournew = false ∧ prioStd ≤ s.boosted t + 1) ∧
    (overflow = false → (s.tcb c).prio ≤ s.boosted t + 1) ∧
    ∀ w ∈ s.queues.threads .WQ, woken w → (s.tcb w).prio ≤ s.boosted t

instance (overflow : Bool) (woken : τ → Prop) [DecidablePred woken] :
    Decidable (s.Favored c t overflow woken) :=
  inferInstanceAs (Decidable (_ ∨ _))

/-- The first thread of the ready queue when the scheduler takes the next one, after a
    ready thread has been favored. -/
theorem Consistent.favored_iff {s₂ s₃ : Sched τ} {a₂ : QId → List (τ × ℤ)} {overflow : Bool}
    {still : SigSet} (h : s.Consistent a {c}) (hst : (s.tcb c).state = .ready)
    (ht : t ∈ keys (a .RQ))
    (ha₂ : a₂ = requeued (Function.update a .RQ (PrioList.favorite t (a .RQ))) c
      (backTcb overflow still (s.tcb c)))
    (h₂ : s₂.Consistent a₂ ∅) (hb : s.Back c overflow still s₂)
    (hp : s₂.Passed (keys (a₂ .WQ)) s₃) :
    (keys (drained s₃.favournew (rearranged a₂ [] (a₂ .WQ) s₃.tcb) .RQ)).head? = some t ↔
      s.Favored c t overflow fun w => (s₃.tcb w).state = .ready := by
  have hct : c ≠ t := fun hct => h.away ht (by simp [hct])
  have hout : ∀ k, k ≠ .RQ → t ∉ keys (a k) := fun k hk htk => hk (h.repr.disjoint htk ht)
  have hx := backTcb_state overflow still hst
  have hprio := (backTcb_calm overflow still (s.tcb c)).prio
  have hN : a₂ .NQ = a .NQ := by simp [ha₂, requeued]
  have hW : a₂ .WQ = a .WQ := by cases overflow <;> simp [ha₂, requeued, hx]
  have hhead : (PrioList.increase (PrioList.favorite t (a .RQ))).head? =
      some (t, s.boosted t + 1) := by
    simp [PrioList.increase, boosted, h.repr.entries,
      PrioList.head?_favorite ht (h.repr.queue .RQ).nodup]
  -- the threads that the ready queue gets, from the last to the first
  have hlast : t ∉ keys (rearranged a₂ [] (a₂ .WQ) s₃.tcb .NQ) := by
    simpa only [rearranged, hN] using hout .NQ (by simp)
  have hmid : t ∉ keys (a₂ .WQ) := by simpa only [hW] using hout .WQ (by simp)
  have hfirst : ∀ q, (a₂ .RQ).head? = some (t, q) ↔
      s.boosted t + 1 = q ∧ (overflow = false → (s.tcb c).prio ≤ q) := by
    intro q
    rw [ha₂, head?_requeued hct]
    cases overflow <;> simp [hhead, hx, hprio]
  rw [PrioList.head?_keys, head?_drained hlast]
  simp only [head?_rearranged hmid, hfirst]
  simp only [rearranged, hN, Favored, h.repr.threads, hout .NQ (by simp), false_or]
  have hdue : ∀ w ∈ keys (a .WQ), (Due (s₃.tcb w) → (s₃.tcb w).prio + 1 ≤ s.boosted t + 1) ↔
      ((s₃.tcb w).state = .ready → (s.tcb w).prio ≤ s.boosted t) := by
    intro w hw
    have hwc : w ≠ c := fun hwc => h.away hw hwc
    have hprio' : (s₃.tcb w).prio = (s.tcb w).prio := by simp [hp.prio, hb.tcb, hwc]
    rw [h₂.due_iff hp (hW ▸ hw), hprio', Int.add_le_add_iff_right]
  have hnew : keys (a .NQ) ≠ [] ↔ a .NQ ≠ [] := by simp [keys]
  rw [hW, hp.favournew.trans hb.favournew, hnew, ← forall₂_congr hdue]
  constructor
  · rintro ⟨_, ⟨⟨rfl, hback⟩, hwoken⟩, hnew⟩
    exact ⟨hnew, hback, hwoken⟩
  · rintro ⟨hnew, hback, hwoken⟩
    exact ⟨_, ⟨⟨rfl, hback⟩, hwoken⟩, hnew⟩

end Sched

namespace Run

variable {τ : Type*} [DecidableEq τ] {r r' : Run τ} {a : QId → List (τ × ℤ)} {H : Set τ}
  {c t : τ} {o : Out τ}

theorem step_yield {k : QId} (ha : r.lib.Consistent a H)
    (hk : yieldPlace (r.lib.tcb t).state = some k) (ht : t ∈ keys (a k))
    (hs : machine.Step r (.yield (some t)) o r') :
    r'.lib.Consistent (Function.update a k (PrioList.favorite t (a k))) H ∧
      r.lib.OffQueues r'.lib := by
  obtain ⟨⟨x, s⟩, hy, hx, hcons, ho⟩ := ha.yield_some hk ht
  have hexec : r.exec (.yield (some t)) = some (o, r') := hs.2
  simp only [exec, hy, Option.map_some] at hexec
  cases hexec
  exact ⟨hcons, ho⟩

theorem step_comeback {now : Time} {guard : Guard} {still : SigSet} (ha : r.lib.Consistent a {c})
    (hc : r.lib.pthCurrent = some c) (hst : (r.lib.tcb c).state = .ready)
    (hs : machine.Step r (.comeback now guard still) o r') (hkill : r'.phase ≠ .killed) :
    r'.phase = .manager r'.lib.polls ∧ r.lib.Back c (guard = .caught) still r'.lib ∧
      r'.lib.Consistent (Sched.requeued a c
        (Sched.backTcb (guard = .caught) still (r.lib.tcb c))) ∅ := by
  obtain ⟨s, hback, hcons, hb⟩ : (r.lib.comeback c now (guard = .caught) still).Ensures _ :=
    ha.comeback hc (.inl hst) now still
  have hexec : r.exec (.comeback now guard still) = some (o, r') := hs.2
  simp only [exec, hc] at hexec
  split at hexec
  · cases hexec
    exact absurd rfl hkill
  · simp only [hback, Option.map_some] at hexec
    cases hexec
    exact ⟨rfl, hb, hcons⟩

/-- A pass that polls is not repeated. -/
theorem step_manage {env : Env τ} (ha : r.lib.Consistent a H) (hph : r.phase = .manager true)
    (hs : machine.Step r (.manage env) o r') :
    r'.phase = .top ∧ r.lib.Passed (keys (a .WQ)) r'.lib ∧
      r'.lib.Consistent (Sched.rearranged a [] (a .WQ) r'.lib.tcb) H := by
  obtain ⟨⟨b, s⟩, hm, hr⟩ := Option.map_eq_some_iff.mp ((exec_pass hph env).symm.trans hs.2)
  obtain ⟨⟨s₁, sc⟩, hscan, -⟩ := Option.bind_eq_some_iff.mp hm
  obtain ⟨hb, hcons, -, hp⟩ := (ha.eventmanager hscan true).of_eq_some hm
  obtain rfl : b = false := by simpa [Sched.sleep, Sched.elapse_poll] using hb
  cases hr
  exact ⟨rfl, hp, hcons⟩

/-- The state in which the scheduler takes the next thread after a directed yield. -/
theorem directed {k : QId} {now : Time} {guard : Guard} {still : SigSet} {env : Env τ}
    (ha : r.lib.Consistent a {c}) (hc : r.lib.pthCurrent = some c)
    (hst : (r.lib.tcb c).state = .ready) (hk : yieldPlace (r.lib.tcb t).state = some k)
    (ht : t ∈ keys (a k))
    (hs : machine.Steps r [.yield (some t), .comeback now guard still, .manage env] r') :
    ∃ a₁ a₂ s₂, a₁ = Function.update a k (PrioList.favorite t (a k)) ∧
      a₂ = Sched.requeued a₁ c (Sched.backTcb (guard = .caught) still (r.lib.tcb c)) ∧
      s₂.Consistent a₂ ∅ ∧ r.lib.Back c (guard = .caught) still s₂ ∧
      s₂.Passed (keys (a₂ .WQ)) r'.lib ∧ r'.phase = .top ∧
      r'.lib.Consistent (Sched.rearranged a₂ [] (a₂ .WQ) r'.lib.tcb) ∅ := by
  obtain ⟨_, r₁, hs₁, _, r₂, hs₂, _, _, hs₃, rfl⟩ := hs
  have hnd := (ha.repr.queue k).nodup
  obtain ⟨h₁, ho⟩ := step_yield ha hk ht hs₁
  have hkill : r₂.phase ≠ .killed := by
    intro hkill
    have hen : r₂.enabled (.manage env) := hs₃.1
    simp [enabled, hkill, Phase.passes] at hen
  obtain ⟨hph, hb, h₂⟩ := step_comeback h₁ (ho.pthCurrent.trans hc) (by rw [ho.tcb, hst]) hs₂ hkill
  rw [ho.tcb] at h₂
  -- the favored thread is in one of the two queues, so the event manager polls
  have hpoll : r₂.lib.polls = true := by
    rw [Sched.polls_iff, Sched.stocked_iff h₂.repr]
    exact ⟨t, Sched.mem_requeued hk (by simpa using (PrioList.mem_keys_favorite ht hnd).mpr ht)⟩
  rw [hpoll] at hph
  obtain ⟨htop, hp, h₃⟩ := step_manage h₂ hph hs₃
  exact ⟨_, _, r₂.lib, rfl, rfl, h₂, ho.back hb, hp, htop, h₃⟩

/-- At the top of its loop the scheduler takes a thread. -/
theorem exists_dispatch (ha : r.lib.Consistent a H) (hph : r.phase = .top) :
    ∃ r', machine.Step r .dispatch .none r' ∧
      r'.lib.pthCurrent = (keys (Sched.drained r.lib.favournew a .RQ)).head? := by
  obtain ⟨s, hs, -, hcur, -⟩ := ha.dispatch
  exact ⟨_, ⟨hph, by simp [machine, exec, hs]; rfl⟩, hcur⟩

/-- After the running thread `c` has yielded to a ready thread, or to a new one that
    is favoured, the scheduler comes to take the next thread, and it takes the
    favored one if and only if no other thread comes in front of it. -/
theorem yield_next_iff {now : Time} {guard : Guard} {still : SigSet} {env : Env τ} (h : r.Inv)
    (hc : r.lib.pthCurrent = some c)
    (hto : (t ∈ r.lib.queues.threads .RQ ∧ (r.lib.tcb t).state = .ready) ∨
      (t ∈ r.lib.queues.threads .NQ ∧ (r.lib.tcb t).state = .new ∧ r.lib.favournew = true))
    (hs : machine.Steps r [.yield (some t), .comeback now guard still, .manage env] r') :
    ∃ r₁, machine.Step r' .dispatch .none r₁ ∧
      (r₁.lib.pthCurrent = some t ↔
        r.lib.Favored c t (guard = .caught) fun w => (r'.lib.tcb w).state = .ready) := by
  have hrun : r.phase = .running := by
    obtain ⟨_, _, hs₁, _⟩ := hs
    exact hs₁.1.1.1
  obtain ⟨hst, a, ha⟩ := h.current hrun hc
  simp only [ha.repr.threads] at hto
  rcases hto with ⟨ht, hready⟩ | ⟨ht, hnew, hfav⟩
  · obtain ⟨_, a₂, s₂, rfl, ha₂, h₂, hb, hp, htop, h₃⟩ :=
      directed ha hc hst (by simp [yieldPlace, hready]) ht hs
    obtain ⟨r₁, hs₁, hcur⟩ := exists_dispatch h₃ htop
    exact ⟨r₁, hs₁, by rw [hcur, ha.favored_iff hst ht ha₂ h₂ hb hp]⟩
  · obtain ⟨_, a₂, s₂, rfl, ha₂, h₂, hb, hp, htop, h₃⟩ :=
      directed ha hc hst (by simp [yieldPlace, hnew]) ht hs
    obtain ⟨r₁, hs₁, hcur⟩ := exists_dispatch h₃ htop
    refine ⟨r₁, hs₁, iff_of_true ?_ (.inl (by rwa [ha.repr.threads]))⟩
    have hfav' : r'.lib.favournew = true := hp.favournew.trans (hb.favournew.trans hfav)
    have hhead := PrioList.head?_favorite ht (ha.repr.queue .NQ).nodup
    obtain ⟨l, hl⟩ := List.head?_eq_some_iff.mp hhead
    rw [hcur, hfav']
    have hnew : Sched.rearranged a₂ [] (a₂ .WQ) r'.lib.tcb .NQ =
        (t, PrioList.boost t (a .NQ)) :: l := by
      simpa [Sched.rearranged, ha₂, Sched.requeued] using hl
    exact Sched.head?_drained_new hnew

/-- The main thread yields to the only ready thread. -/
theorem yield_next_iff_ready : ∃ r r' r₁ : Run (Fin 3), machine.Reachable r ∧
    r.lib.pthCurrent = some 0 ∧ 2 ∈ r.lib.queues.threads .RQ ∧
    machine.Steps r [.yield (some 2), .comeback .zero .intact fun _ => false,
      .manage Sched.quiet] r' ∧
    r.lib.Favored 0 2 false (fun w => (r'.lib.tcb w).state = .ready) ∧
    machine.Step r' .dispatch .none r₁ ∧ r₁.lib.pthCurrent = some 2 := by
  have hboot : machine.Reach (fun _ _ => True) (boot (Sched.blank (0 : Fin 3)) 0 1 .zero) :=
    boot_reach _ _ _ _ (by decide)
  obtain ⟨r, hr, hc, ht, hready, hplay⟩ := hboot.play
    (l := [.spawn none .user (some 2), .yield none, .comeback .zero .intact fun _ => false,
      .manage Sched.quiet, .dispatch, .yield none, .comeback .zero .intact fun _ => false,
      .manage Sched.quiet, .dispatch])
    (p := fun r => r.lib.pthCurrent = some 0 ∧ 2 ∈ r.lib.queues.threads .RQ ∧
      (r.lib.tcb 2).state = .ready ∧ (machine.play (fun _ _ => True) r [.yield (some 2),
        .comeback .zero .intact fun _ => false, .manage Sched.quiet]).any (fun r' =>
          r.lib.Favored 0 2 false fun w => (r'.lib.tcb w).state = .ready)) (by decide)
  obtain ⟨r', hs, hfav⟩ := Machine.steps_play hplay
  obtain ⟨r₁, hs₁, hiff⟩ := yield_next_iff (.reach hr) hc (.inl ⟨ht, hready⟩) hs
  exact ⟨r, r', r₁, hr, hc, ht, hs, hfav, hs₁, hiff.mpr hfav⟩

/-- The main thread yields to a ready thread, but a new thread runs. -/
theorem yield_next_new : ∃ r r₁ : Run (Fin 4), machine.Reachable r ∧
    r.lib.pthCurrent = some 0 ∧ 2 ∈ r.lib.queues.threads .RQ ∧ (r.lib.tcb 2).state = .ready ∧
    machine.Steps r [.yield (some 2), .comeback .zero .intact fun _ => false,
      .manage Sched.quiet, .dispatch] r₁ ∧ r₁.lib.pthCurrent = some 3 := by
  have hboot : machine.Reach (fun _ _ => True) (boot (Sched.blank (0 : Fin 4)) 0 1 .zero) :=
    boot_reach _ _ _ _ (by decide)
  obtain ⟨r, hr, hc, ht, hready, hplay⟩ := hboot.play
    (l := [.spawn none .user (some 2), .yield none, .comeback .zero .intact fun _ => false,
      .manage Sched.quiet, .dispatch, .yield none, .comeback .zero .intact fun _ => false,
      .manage Sched.quiet, .dispatch, .spawn none .user (some 3)])
    (p := fun r => r.lib.pthCurrent = some 0 ∧ 2 ∈ r.lib.queues.threads .RQ ∧
      (r.lib.tcb 2).state = .ready ∧ (machine.play (fun _ _ => True) r [.yield (some 2),
        .comeback .zero .intact fun _ => false, .manage Sched.quiet, .dispatch]).any (fun r₁ =>
          r₁.lib.pthCurrent = some 3)) (by decide)
  obtain ⟨r₁, hs, hnext⟩ := Machine.steps_play hplay
  exact ⟨r, r₁, hr, hc, ht, hready, hs, hnext⟩

end Run

end Pth
