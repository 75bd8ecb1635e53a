-- SUMMARY: Every state of a run keeps the invariant: each thread is current or in the one queue of its state.
import Pth.Sched.Effect

/-!
# The invariant of all runs

Each effect keeps the invariant, hence every operation does, and all states of a
run have it. -/

namespace Pth

open PrioList (keys)

namespace Run

variable {τ : Type*} [DecidableEq τ] {r r' : Run τ} {c : τ}

/-! ## Joiners -/

omit [DecidableEq τ] in
/-- A thread that joins another one has done so before, if it stands where it
    stood. -/
theorem joins_of_pc {w u : τ} (hj : r'.joins w u) (hpc : r'.pc w = r.pc w)
    (hlive : r'.lib.live w → r.lib.live w)
    (hst : (r.lib.tcb w).state = .dead → (r'.lib.tcb w).state = .dead) : r.joins w u :=
  ⟨hlive hj.1, fun hd => hj.2.1 (hst hd), by rw [← hpc]; exact hj.2.2⟩

omit [DecidableEq τ] in
/-- What an effect has to show: the queues, the current thread, and that nobody but
    the thread `c` starts to join. -/
theorem Inv.next (h : r.Inv) (hcons : ∃ a, r'.lib.Consistent a r'.away)
    (hrun : r'.phase = .running → ∃ c, r'.lib.pthCurrent = some c ∧ (r'.lib.tcb c).state = .ready)
    (hsw : r'.phase = .switched → ∃ c, r'.lib.pthCurrent = some c ∧
      ((r'.lib.tcb c).state = .ready ∨ (r'.lib.tcb c).state = .waiting ∨
        (r'.lib.tcb c).state = .dead))
    (hsched : r'.lib.pthSched = r.lib.pthSched)
    (hjoinable : ∀ t, r.lib.live t → t = r.lib.pthSched ∨ (∃ w, r'.joins w t) →
      (r'.lib.tcb t).joinable = (r.lib.tcb t).joinable)
    (hstart : ∀ {w u}, r'.joins w u → r.joins w u ∨ (w = c ∧ r.Joinable (some u)))
    (hlive : ∀ {w u}, r'.joins w u → r.lib.live u → (r.lib.tcb u).joinable → r'.lib.live u) :
    r'.Inv := by
  have hold : ∀ {w u}, r'.joins w u → r.lib.live u ∧ (r.lib.tcb u).joinable := by
    intro w u hj
    rcases hstart hj with hj | ⟨-, hj⟩
    · exact h.joinLive hj
    · exact ⟨(hj u rfl).1, (hj u rfl).2.1⟩
  refine ⟨hcons, hrun, hsw, ?_, ?_, ?_⟩
  · obtain ⟨a, ha⟩ := h.consistent
    rw [hsched, hjoinable _ ha.schedLive (.inl rfl)]
    exact h.schedJoin
  · intro w u hj
    obtain ⟨hl, hu⟩ := hold hj
    exact ⟨hlive hj hl hu, by rw [hjoinable u hl (.inr ⟨w, hj⟩)]; exact hu⟩
  · intro w w' u hw hw'
    rcases hstart hw with hj | ⟨rfl, hj⟩ <;> rcases hstart hw' with hj' | ⟨rfl, hj'⟩
    · exact h.joinOne hj hj'
    · exact absurd hj ((hj' u rfl).2.2 w)
    · exact absurd hj' ((hj u rfl).2.2 w')
    · rfl

omit [DecidableEq τ] in
theorem consistent_apart {a : QId → List (τ × ℤ)} (h : r.lib.Consistent a {c})
    (hph : r.phase.holds) (hc : r.lib.pthCurrent = some c) :
    ∃ a, r.lib.Consistent a r.away :=
  ⟨a, h.congr (by simp [away, hph, hc, eq_comm])⟩

/-! ## Effects -/

/-- Effects of the running thread on its own block and its own place in the code. -/
theorem Inv.own {f : Tcb τ → Tcb τ} {p : Pc τ} {ph : Phase} (h : r.Inv)
    (hrun : r.phase = .running) (hc : r.lib.pthCurrent = some c)
    (hj : (f (r.lib.tcb c)).joinable = (r.lib.tcb c).joinable)
    (hst : (ph = .running ∧ (f (r.lib.tcb c)).state = (r.lib.tcb c).state) ∨ (ph = .switched ∧
      ((f (r.lib.tcb c)).state = .waiting ∨ (f (r.lib.tcb c)).state = .dead)))
    (hp : ∀ u, p = .waiting (.join (some u)) ∨ p = .joining (some u) →
      r.joins c u ∨ r.Joinable (some u)) :
    Inv { lib := r.lib.modify c f, pc := Function.update r.pc c p, phase := ph } := by
  obtain ⟨hready, a, ha⟩ := h.current hrun hc
  have hph : ph.holds := by rcases hst with ⟨rfl, -⟩ | ⟨rfl, -⟩ <;> rfl
  apply h.next (c := c)
  · exact consistent_apart (ha.modify (.inl rfl)) hph hc
  · rintro rfl
    refine ⟨c, hc, ?_⟩
    rcases hst with hst | hst
    · simpa [hready] using hst.2
    · simp at hst
  · rintro rfl
    refine ⟨c, hc, .inr ?_⟩
    rcases hst with hst | hst
    · simp at hst
    · simpa using hst.2
  · rfl
  · intro t ht _
    by_cases htc : t = c
    · subst htc
      simpa using hj
    · simp [htc]
  · intro w u hw
    by_cases hwc : w = c
    · subst hwc
      have hpc := hw.2.2
      simp only [Function.update_self] at hpc
      rcases hp u hpc with hu | hu
      · exact .inl hu
      · exact .inr ⟨rfl, hu⟩
    · exact .inl (joins_of_pc hw (by simp [hwc]) id (by simp [hwc]))
  · intro w u hw hl hu
    exact hl

omit [DecidableEq τ] in
theorem Inv.call {s : Sched τ} {ph : Phase} {a : QId → List (τ × ℤ)} (h : r.Inv)
    (hrun : r.phase = .running) (hc : r.lib.pthCurrent = some c) (hcalm : r.lib.Calm s)
    (hst : (s.tcb c).state = (r.lib.tcb c).state) (hcons : s.Consistent a {c})
    (hph : ph = .running ∨ ph = .switched) : Inv { r with lib := s, phase := ph } := by
  obtain ⟨hready, -⟩ := h.current hrun hc
  have hc : s.pthCurrent = some c := hcalm.pthCurrent.trans hc
  apply h.next (c := c)
  · exact consistent_apart hcons (by rcases hph with rfl | rfl <;> rfl) hc
  · exact fun _ => ⟨c, hc, hst.trans hready⟩
  · exact fun _ => ⟨c, hc, .inl (hst.trans hready)⟩
  · exact hcalm.pthSched
  · exact fun t _ _ => (hcalm.tcb t).joinable
  · intro w u hw
    refine .inl (joins_of_pc hw rfl (hcalm.live w) fun hd => ?_)
    rcases (hcalm.tcb w).state with hst | hst
    · exact hst.trans hd
    · exact hst
  · exact fun _ hl hu => hcalm.kept _ hl hu

theorem Inv.spawn {attr : Option Attr} {func : StartFunc} {s : Sched τ} {t : τ}
    {a : QId → List (τ × ℤ)} (h : r.Inv) (hrun : r.phase = .running)
    (hc : r.lib.pthCurrent = some c) (ht : r.lib.live t = false)
    (hs : (r.lib.created attr func t).OffQueues s) (hcons : s.Consistent a {c}) :
    Inv { r with lib := s, pc := Function.update r.pc t .user } := by
  obtain ⟨hready, a₀, ha₀⟩ := h.current hrun hc
  have hc : s.pthCurrent = some c := hs.pthCurrent.trans hc
  have hlive : ∀ u, s.live u = if u = t then true else r.lib.live u := by
    simp [hs.live, Sched.created, Function.update_apply]
  have htcb : ∀ u, u ≠ t → s.tcb u = r.lib.tcb u := by
    intro u hu
    simp [hs.tcb, Sched.created, hu]
  have hne : ∀ {u}, r.lib.live u → u ≠ t := by
    rintro u hu rfl
    simp [hu] at ht
  have hready : (s.tcb c).state = .ready := by
    rw [htcb c (hne (ha₀.awayLive rfl).1)]
    exact hready
  apply h.next (c := c)
  · exact consistent_apart hcons (by simp [hrun, Phase.holds]) hc
  · exact fun _ => ⟨c, hc, hready⟩
  · exact fun _ => ⟨c, hc, .inl hready⟩
  · exact hs.pthSched
  · exact fun u hu _ => by rw [htcb u (hne hu)]
  · intro w u hw
    have hwt : w ≠ t := by
      rintro rfl
      simpa using hw.2.2
    refine .inl (joins_of_pc hw (by simp [hwt]) ?_ (by simp [htcb w hwt]))
    simp [hlive, hwt]
  · intro w u _ hl _
    simp [hlive, hl]

/-- The attributes of a thread change; whoever is joined stays joinable. -/
theorem Inv.attr {x : AttrSet} {t : τ} (h : r.Inv) (hrun : r.phase = .running)
    (hc : r.lib.pthCurrent = some c)
    (hx : x.isJoinable →
      t ≠ r.lib.pthSched ∧ (r.lib.tcb t).state ≠ .dead ∧ r.unjoined (some t)) :
    Inv { r with lib := r.lib.modify t x.write } := by
  obtain ⟨hready, a, ha⟩ := h.current hrun hc
  have hst : ∀ u, ((r.lib.modify t x.write).tcb u).state = (r.lib.tcb u).state := by
    intro u
    by_cases hu : u = t <;> simp [hu]
  have hold : ∀ {w u}, Run.joins { r with lib := r.lib.modify t x.write } w u → r.joins w u :=
    fun {w u} hw => joins_of_pc hw rfl id fun hd => (hst w).trans hd
  apply h.next (c := c)
  · refine consistent_apart (ha.modify (.inr (.inr ⟨by simp, fun hdead => ?_⟩)))
      (by simp [hrun, Phase.holds]) hc
    exact AttrSet.write_joinable _ (by simpa [hdead] using hx)
  · exact fun _ => ⟨c, hc, (hst c).trans hready⟩
  · exact fun _ => ⟨c, hc, .inl ((hst c).trans hready)⟩
  · rfl
  · intro u _ hu
    by_cases hut : u = t
    · subst hut
      have hkept : x.isJoinable = false := by
        rw [← Bool.not_eq_true]
        intro hj
        obtain ⟨hsched, -, hone⟩ := hx hj
        rcases hu with hu | ⟨w, hw⟩
        · exact hsched hu
        · exact hone u rfl w (hold hw)
      simpa using AttrSet.write_joinable _ hkept
    · simp [hut]
  · exact fun hw => .inl (hold hw)
  · exact fun _ hl _ => hl

/-- The joined thread is freed; nobody else has joined it. -/
theorem Inv.joined {s : Sched τ} {u : τ} {a : QId → List (τ × ℤ)} (h : r.Inv)
    (hrun : r.phase = .running) (hc : r.lib.pthCurrent = some c)
    (hs : (r.lib.tcbFree u).OffQueues s) (hcons : s.Consistent a {c})
    (hw : ∀ w, r.joins w u → w = c) :
    Inv { r with lib := s, pc := Function.update r.pc c .user } := by
  obtain ⟨hready, -⟩ := h.current hrun hc
  have hc : s.pthCurrent = some c := hs.pthCurrent.trans hc
  have htcb : s.tcb = r.lib.tcb := hs.tcb
  have hlive : ∀ v, s.live v = if v = u then false else r.lib.live v := by
    simp [hs.live]
  have hold : ∀ {w v}, Run.joins { r with lib := s, pc := Function.update r.pc c .user } w v →
      r.joins w v ∧ w ≠ c := by
    intro w v hj
    have hwc : w ≠ c := by
      rintro rfl
      simpa using hj.2.2
    refine ⟨joins_of_pc hj (by simp [hwc]) (by simp [hlive]) (by simp [htcb]), hwc⟩
  apply h.next (c := c)
  · exact consistent_apart hcons (by simp [hrun, Phase.holds]) hc
  · exact fun _ => ⟨c, hc, by rw [htcb]; exact hready⟩
  · exact fun _ => ⟨c, hc, .inl (by rw [htcb]; exact hready)⟩
  · exact hs.pthSched
  · exact fun t _ _ => by rw [htcb]
  · exact fun hj => .inl (hold hj).1
  · intro w v hj hl _
    have hvu : v ≠ u := by
      rintro rfl
      exact (hold hj).2 (hw w (hold hj).1)
    simpa [hlive, hvu] using hl

omit [DecidableEq τ] in
/-- The scheduler moves threads between the queues, and changes states of threads
    that are not dead. -/
theorem Inv.moved {s : Sched τ} {ph : Phase} (h : r.Inv)
    (hcons : ∃ a, s.Consistent a (Run.away { r with lib := s, phase := ph }))
    (hrun : ph = .running → ∃ c, s.pthCurrent = some c ∧ (s.tcb c).state = .ready)
    (hsw : ph ≠ .switched) (hsched : s.pthSched = r.lib.pthSched)
    (hjoinable : ∀ t, (s.tcb t).joinable = (r.lib.tcb t).joinable)
    (hlive : ∀ t, s.live t → r.lib.live t)
    (hkept : ∀ t, r.lib.live t → (r.lib.tcb t).joinable → s.live t)
    (hdead : ∀ t, r.lib.live t → (r.lib.tcb t).state = .dead → (s.tcb t).state = .dead) :
    Inv { r with lib := s, phase := ph } := by
  obtain ⟨a, ha⟩ := h.consistent
  apply h.next (c := r.lib.pthSched) hcons hrun (absurd · hsw) hsched
  · exact fun t _ _ => hjoinable t
  · exact fun {w} u hw => .inl (joins_of_pc hw rfl (hlive w) (hdead w (hlive w hw.1)))
  · exact fun _ hl hu => hkept _ hl hu

theorem Inv.comeback {overflow : Bool} {still : SigSet} {s : Sched τ} {b : Bool}
    {a : QId → List (τ × ℤ)} (h : r.Inv) (hcons : s.Consistent a ∅)
    (hb : r.lib.Back c overflow still s) : Inv { r with lib := s, phase := .manager b } := by
  apply h.moved
  · exact ⟨_, hcons.congr (by simp [away, Phase.holds])⟩
  · simp
  · simp
  · exact hb.pthSched
  · exact fun _ => hb.calm.joinable
  · exact fun _ => hb.live_of
  · intro t ht hj
    rw [hb.live, if_neg ?_]
    · exact ht
    · rintro ⟨rfl, -, hj'⟩
      simp [hj'] at hj
  · intro t _ ht
    rcases hb.calm.state with hst | hst
    · exact hst.trans ht
    · exact hst

theorem Inv.manage {s : Sched τ} {ph : Phase} {a a' : QId → List (τ × ℤ)} (h : r.Inv)
    (ha : r.lib.Consistent a ∅) (hcons : s.Consistent a' ∅)
    (hp : r.lib.Passed (keys (a .WQ)) s) (hph : (∃ b, ph = .manager b) ∨ ph = .top) :
    Inv { r with lib := s, phase := ph } := by
  have hholds : ph.holds = false := by rcases hph with ⟨_, rfl⟩ | rfl <;> rfl
  have hne : ph ≠ .running ∧ ph ≠ .switched := by rcases hph with ⟨_, rfl⟩ | rfl <;> simp
  apply h.moved
  · exact ⟨_, hcons.congr (by simp [away, hholds])⟩
  · exact (absurd · hne.1)
  · exact hne.2
  · exact hp.pthSched
  · exact hp.joinable
  · exact fun t ht => hp.live ▸ ht
  · exact fun t ht _ => hp.live ▸ ht
  · intro t _ ht
    rw [hp.state, if_neg ?_]
    · exact ht
    · rintro ⟨hmem, -⟩
      have hw : (r.lib.tcb t).state = .waiting := ha.fits hmem
      simp [hw] at ht

theorem Inv.dispatch {s : Sched τ} {a a' : QId → List (τ × ℤ)} (h : r.Inv)
    (ha : r.lib.Consistent a ∅) (hd : r.lib.Drained a s)
    (hready : ∀ c, s.pthCurrent = some c → (s.tcb c).state = .ready)
    (hcons : s.Consistent a' { u | s.pthCurrent = some u }) :
    Inv { r with lib := s, phase := if s.pthCurrent = none then .aborted else .running } := by
  apply h.moved
  · refine ⟨_, hcons.congr fun u => ?_⟩
    cases hc : s.pthCurrent <;> simp [away, hc, Phase.holds]
  · intro hrun
    cases hc : s.pthCurrent with
    | none => simp [hc] at hrun
    | some c => exact ⟨c, rfl, hready c hc⟩
  · split <;> simp
  · exact hd.pthSched
  · intro t
    rw [hd.tcb]
    split <;> rfl
  · exact fun t ht => hd.live ▸ ht
  · exact fun t ht _ => hd.live ▸ ht
  · intro t _ ht
    rw [hd.tcb, if_neg ?_]
    · exact ht
    · intro hmem
      have hn : (r.lib.tcb t).state = .new := ha.fits hmem
      simp [hn] at ht

omit [DecidableEq τ] in
/-- The process ends while a thread has control. -/
theorem Inv.stops {ph : Phase} (h : r.Inv) (hold : r.phase.holds) (hph : ph.holds)
    (hrun : ph ≠ .running) (hsw : ph ≠ .switched) : Inv { r with phase := ph } := by
  obtain ⟨a, ha⟩ := h.consistent
  apply h.moved
  · exact ⟨a, ha.congr (by simp [away, hold, hph])⟩
  · exact (absurd · hrun)
  · exact hsw
  · rfl
  · exact fun _ => rfl
  · exact fun _ => id
  · exact fun _ ht _ => ht
  · exact fun _ _ => id

/-- Every effect keeps the invariant. -/
theorem Effect.inv {op : Op τ} {o : Out τ} (h : r.Inv) (he : Effect r op o r') : r'.Inv := by
  cases he with
  | call hrun hc hcalm hst hcons hph => exact h.call hrun hc hcalm hst hcons hph
  | spawn hrun hc _ ht hs hcons => exact h.spawn hrun hc ht hs hcons
  | keep hrun hc hst hj hp =>
    refine h.own hrun hc hj (.inl ⟨rfl, hst⟩) fun u hu => ?_
    rcases hp with rfl | ⟨tid, rfl, htid⟩
    · simp at hu
    · obtain rfl : tid = some u := by simpa using hu
      exact .inr htid
  | wait hrun hc hst hj _ hk =>
    refine h.own hrun hc hj (.inr ⟨rfl, .inl hst⟩) fun u hu => ?_
    exact .inr (hk (some u) (by simpa using hu))
  | @waitReturn alloc c k hrun hc hpc =>
    obtain ⟨hready, a, ha⟩ := h.current hrun hc
    have hown := h.own (f := fun x => { x with events := [] }) (p := k.next) hrun hc rfl
      (.inl ⟨hrun, rfl⟩) fun u hu => ?_
    · exact hown
    · have hk : k = .join (some u) := by
        cases k <;> simp_all [Cont.next]
      exact .inl ⟨(ha.awayLive rfl).1, by simp [hready], .inl (hk ▸ hpc)⟩
  | exits hrun hc hst hj =>
    exact h.own hrun hc hj (.inl ⟨hrun, hst⟩) (by simp)
  | dies hrun hc _ hst hj =>
    exact h.own hrun hc hj (.inr ⟨rfl, .inr hst⟩) (by simp)
  | attr hrun hc _ hx => exact h.attr hrun hc hx
  | joined hrun hc _ hs hcons hw => exact h.joined hrun hc hs hcons hw
  | comeback _ _ hcons hb => exact h.comeback hcons hb
  | @manage env dopoll b s a hph hm ha hcons hp =>
    apply h.manage ha hcons hp
    cases b
    · exact .inr rfl
    · exact .inl ⟨false, rfl⟩
  | dispatch _ ha hd _ hready hcons => exact h.dispatch ha hd hready hcons
  | exited hrun hc => exact h.stops (by simp [hrun, Phase.holds]) rfl (by simp) (by simp)
  | killed hsw => exact h.stops (by simp [hsw, Phase.holds]) rfl (by simp) (by simp)

/-! ## Runs -/

/-- A step of a run has an effect. -/
theorem Inv.step {op : Op τ} {o : Out τ} (h : r.Inv) (hs : machine.Step r op o r') :
    Effect r op o r' := by
  refine (h.effect hs.1 ?_).of_eq_some hs.2
  rintro env rfl hscan
  have hexec := hs.2
  simp only [machine, exec, Sched.eventmanager, hscan] at hexec
  split at hexec <;> simp at hexec

/-- The state that `pth_init` leaves can be reached. -/
theorem boot_reach {P : Run τ → Op τ → Prop} (s : Sched τ) (main sched : τ) (now : Time)
    (hne : main ≠ sched) : machine.Reach P (boot s main sched now) := by
  obtain ⟨s', hs', -⟩ := s.pthInit_started now hne
  exact .init ⟨s, main, sched, now, hne, by simp [boot, hs'], rfl, rfl⟩

theorem Inv.init (h : r.init) : r.Inv := by
  obtain ⟨s, main, sched, now, hne, hlib, hpc, hph⟩ := h
  have hs := (s.pthInit_started now hne).of_eq_some hlib
  refine ⟨?_, ?_, ?_, ?_, ?_, ?_⟩
  · exact consistent_apart hs.consistent (by simp [hph, Phase.holds]) hs.pthCurrent
  · exact fun _ => ⟨main, hs.pthCurrent, hs.state⟩
  · simp [hph]
  · rw [hs.pthSched]
    exact hs.schedJoin
  · intro w u hj
    simp [joins, hpc] at hj
  · intro w w' u hj
    simp [joins, hpc] at hj

/-- Every state reached by steps of a run, with any side condition, has the
    invariant. -/
theorem Inv.reach {P : Run τ → Op τ → Prop} (h : machine.Reach P r) : r.Inv :=
  h.invariant (I := Inv) (fun _ => Inv.init) fun _ _ _ _ hI _ hs => (hI.step hs).inv hI

/-- The thread is in the queue `k` once and in no other one, and its state matches. -/
structure InQueue (s : Sched τ) (t : τ) (k : QId) : Prop where
  once : (s.queues.threads k).count t = 1
  only : ∀ k', k' ≠ k → t ∉ s.queues.threads k'
  state : Fits k (s.tcb t)

/-- In every state of a run, each existing thread but the scheduler is either
    current, and in no queue, or once in exactly one queue, the one of its state; and
    so far every thread that was deleted from a queue was in it. -/
theorem reachable_placed (h : machine.Reachable r) :
    (∀ t, r.lib.live t → t ≠ r.lib.pthSched →
      (r.lib.pthCurrent = some t ∧ ∀ k, t ∉ r.lib.queues.threads k) ∨
        ∃ k, InQueue r.lib t k) ∧
    ∀ d ∈ r.lib.deletes, d.2.2 = true := by
  obtain ⟨a, ha⟩ := (Inv.reach h).consistent
  refine ⟨?_, ha.deletes⟩
  intro t ht hs
  simp only [ha.repr.threads]
  by_cases haway : t ∈ r.away
  · exact .inl ⟨haway.2, fun k hk => ha.away hk haway⟩
  · obtain ⟨k, hk⟩ := ha.queued ht hs haway
    refine .inr ⟨k, ?_, ?_, ha.fits hk⟩
    · rw [ha.repr.threads]
      exact List.count_eq_one_of_mem (ha.repr.queue k).nodup hk
    · intro k' hne
      rw [ha.repr.threads]
      exact fun hk' => hne (ha.repr.disjoint hk' hk)

/-- The main thread spawns a thread, which runs at once. -/
theorem reachable_placed_spawned : ∃ r : Run (Fin 3), machine.Reachable r ∧
    (r.lib.live 0 ∧ r.lib.pthCurrent = some 2) ∧
    ((r.lib.pthCurrent = some 0 ∧ ∀ k, 0 ∉ r.lib.queues.threads k) ∨ ∃ k, InQueue r.lib 0 k) := by
  have hboot : machine.Reach (fun _ _ => True) (boot (Sched.blank (0 : Fin 3)) 0 1 .zero) :=
    boot_reach _ _ _ _ (by decide)
  obtain ⟨r, hr, hlive, hcur, hsched⟩ := hboot.play
    (l := [.spawn none .user (some 2), .yield none, .comeback .zero .intact fun _ => false,
      .manage Sched.quiet, .dispatch])
    (p := fun r => r.lib.live 0 ∧ r.lib.pthCurrent = some 2 ∧ 0 ≠ r.lib.pthSched) (by decide)
  exact ⟨r, hr, ⟨hlive, hcur⟩, (reachable_placed hr).1 0 hlive hsched⟩

end Run

end Pth
