-- SUMMARY: No ready thread starves: it runs within a bounded number of dispatches.
import Pth.Queue.Aging
import Pth.Sched.Lists

/-!
# Ready threads are dispatched

In each round the threads of the ready queue grow one older, and the first one is taken.
A ready thread first grows as old as the threads that come to the queue, and from then on
only the threads in front of it run before it does. Both together bound the number of
dispatches it has to wait for, as long as nobody takes it out of the queue and no thread
is favored. -/

namespace Pth

open PrioList (keys Sorted)

variable {τ : Type*}

/-! ## One thread in a list -/

/-- What becomes of the place of `t` in the list `l`: its priority rises by `d`, and if
    it is then at least `M`, no entry has come in front of it. -/
structure Ahead [DecidableEq τ] (t : τ) (M d : ℤ) (l l' : List (τ × ℤ)) : Prop where
  entry : ∀ q, (t, q) ∈ l → (t, q + d) ∈ l'
  front : ∀ q, (t, q) ∈ l → M ≤ q + d → (keys l').idxOf t ≤ (keys l).idxOf t

namespace Ahead

variable [DecidableEq τ] {t u : τ} {M d prio : ℤ} {l l₁ l₂ : List (τ × ℤ)}

theorem refl (l : List (τ × ℤ)) : Ahead t M 0 l l :=
  ⟨fun q hq => by simpa using hq, fun _ _ _ => le_rfl⟩

theorem trans (h : Ahead t M d l l₁) (h' : Ahead t M 0 l₁ l₂) : Ahead t M d l l₂ where
  entry q hq := by simpa using h'.entry _ (h.entry q hq)
  front q hq hM := (h'.front _ (h.entry q hq) (by simpa using hM)).trans (h.front q hq hM)

theorem increase (l : List (τ × ℤ)) : Ahead t M 1 l (PrioList.increase l) where
  entry q hq := List.mem_map.mpr ⟨(t, q), hq, rfl⟩
  front _ _ _ := by simp

/-- A call on the list that neither takes its first entry nor makes it older. -/
theorem of_pass (op : QueueOp Unit τ) {l' : List (τ × ℤ)} (h : op.Pass () t M l l')
    (hages : op.ages () = false) (htakes : op.takes () = false) (hn : (keys l).Nodup)
    (hs : Sorted l) : Ahead t M 0 l l' := by
  have hstays : ∀ q, (t, q) ∈ l → t ∈ keys l' := by
    intro q hq
    refine (h.stays (List.mem_map_of_mem hq)).resolve_right ?_
    rintro ⟨rfl, -⟩
    simp [QueueOp.takes] at htakes
  refine ⟨fun q hq => ?_, fun q hq hM => ?_⟩
  · simpa [hages] using h.entry hn hq (hstays q hq)
  · exact (h.front hn hs hq (by simpa using hM) (hstays q hq)).1

theorem insert (hn : (keys l).Nodup) (hs : Sorted l) (hu : u ≠ t) (hprio : prio ≤ M) :
    Ahead t M 0 l (PrioList.insert prio u l) :=
  of_pass (.insert () prio u) (.insert hu hprio) rfl rfl hn hs

theorem remove (hn : (keys l).Nodup) (hs : Sorted l) (hu : u ≠ t) :
    Ahead t M 0 l (PrioList.remove u l) :=
  of_pass (.delete () u) (.delete hu) rfl rfl hn hs

/-- Several threads come one after the other. -/
theorem insertAll {p : τ → ℤ} {us : List τ} (hn : (keys l).Nodup) (hs : Sorted l)
    (hus : us.Nodup) (hnew : ∀ u ∈ us, u ∉ keys l ∧ u ≠ t ∧ p u ≤ M) :
    Ahead t M 0 l (PrioList.insertAll p us l) := by
  induction us generalizing l with
  | nil => exact .refl l
  | cons u us ih =>
    obtain ⟨⟨hul, hut, hp⟩, hrest⟩ := List.forall_mem_cons.mp hnew
    obtain ⟨huus, hus⟩ := List.nodup_cons.mp hus
    have hn' : (keys (PrioList.insert (p u) u l)).Nodup :=
      (PrioList.keys_insert_perm (p u) u l).nodup_iff.mpr (List.nodup_cons.mpr ⟨hul, hn⟩)
    refine (Ahead.insert hn hs hut hp).trans (ih hn' hs.insert hus fun v hv => ?_)
    obtain ⟨hvl, hvt, hpv⟩ := hrest v hv
    refine ⟨fun hmem => ?_, hvt, hpv⟩
    rcases PrioList.mem_keys_insert.mp hmem with rfl | hmem
    · exact huus hv
    · exact hvl hmem

/-- The first entry is taken. -/
theorem tail {q : ℤ} (hq : (t, q) ∈ l) (hhead : (keys l).head? ≠ some t) :
    (t, q) ∈ l.tail ∧ (keys l.tail).idxOf t + 1 = (keys l).idxOf t := by
  cases l with
  | nil => simp at hq
  | cons e l =>
    have he : e.1 ≠ t := by simpa using hhead
    rcases List.mem_cons.mp hq with rfl | hq
    · exact absurd rfl he
    · exact ⟨hq, by simp [List.idxOf_cons_ne _ he]⟩

end Ahead

/-! ## The functions of the scheduler -/

namespace Sched

variable [DecidableEq τ] {s : Sched τ} {a : QId → List (τ × ℤ)} {H : Set τ} {t u : τ} {k : QId}
  {M d : ℤ}

theorem ahead_remove {qs : Queues QId τ} (h : qs.Repr a) (hu : u ≠ t) :
    Ahead t M 0 (a .RQ) (Function.update a k (PrioList.remove u (a k)) .RQ) := by
  by_cases hk : k = .RQ
  · subst hk
    simpa using Ahead.remove (h.queue .RQ).nodup (h.queue .RQ).sorted hu
  · simpa [Ne.symm hk] using Ahead.refl _

theorem ahead_insert {qs : Queues QId τ} {prio : ℤ} (h : qs.Repr a) (hu : u ≠ t)
    (hprio : k = .RQ → prio ≤ M) :
    Ahead t M 0 (a .RQ) (Function.update a k (PrioList.insert prio u (a k)) .RQ) := by
  by_cases hk : k = .RQ
  · subst hk
    simpa using Ahead.insert (h.queue .RQ).nodup (h.queue .RQ).sorted hu (hprio rfl)
  · simpa [Ne.symm hk] using Ahead.refl _

theorem ahead_moved {k' : QId} {prio : ℤ} (h : s.queues.Repr a) (hu : u ∈ keys (a k))
    (hut : u ≠ t) (hprio : k' = .RQ → prio ≤ M) :
    Ahead t M 0 (a .RQ) (moved a k k' prio u .RQ) := by
  obtain ⟨qs, -, hr⟩ := h.delete hu
  exact (ahead_remove h hut).trans (ahead_insert hr hut hprio)

/-- The thread that ran comes back, and the ready queue grows one older. -/
theorem requeued_ahead {c : τ} {x : Tcb τ} (h : s.queues.Repr a) (hct : c ≠ t)
    (hprio : x.prio ≤ M) : Ahead t M 1 (a .RQ) (requeued a c x .RQ) := by
  have hn : (keys (PrioList.increase (a .RQ))).Nodup := by simpa using (h.queue .RQ).nodup
  have hage := Ahead.increase (t := t) (M := M) (a .RQ)
  simp only [requeued]
  split
  · exact hage.trans (.insert hn (h.queue .RQ).sorted.increase hct hprio)
  · exact hage

/-- The event manager wakes threads. -/
theorem rearranged_ahead (tcb : τ → Tcb τ) (h : s.queues.Repr a) (ht : t ∈ keys (a .RQ))
    (hprio : ∀ u ∈ keys (a .WQ), (tcb u).prio + 1 ≤ M) :
    Ahead t M 0 (a .RQ) (rearranged a [] (a .WQ) tcb .RQ) := by
  have hne : ∀ u ∈ keys (a .WQ), u ∉ keys (a .RQ) := by
    intro u hu hu'
    simpa using h.disjoint hu hu'
  refine Ahead.insertAll (h.queue .RQ).nodup (h.queue .RQ).sorted
    ((h.queue .WQ).nodup.filter _) fun u hu => ?_
  have hu := List.mem_of_mem_filter hu
  exact ⟨hne u hu, fun hut => hne u hu (hut ▸ ht), hprio u hu⟩

/-- The new threads come to the ready queue, unless they are favoured. -/
theorem drained_ahead {b : Bool} (h : s.queues.Repr a) (ht : t ∈ keys (a .RQ)) (hM : 0 ≤ M)
    (hb : b = true → a .NQ = []) : Ahead t M 0 (a .RQ) (drained b a .RQ) := by
  cases b with
  | true =>
    rw [drained_nil (hb rfl)]
    exact .refl _
  | false =>
    have hne : ∀ u ∈ keys (a .NQ), u ∉ keys (a .RQ) := by
      intro u hu hu'
      simpa using h.disjoint hu hu'
    refine Ahead.insertAll (p := fun _ => prioStd) (h.queue .RQ).nodup (h.queue .RQ).sorted
      (List.nodup_reverse.mpr (h.queue .NQ).nodup) fun u hu => ?_
    have hu := List.mem_reverse.mp hu
    exact ⟨hne u hu, fun hut => hne u hu (hut ▸ ht), hM⟩

end Sched

/-! ## Runs -/

namespace Run

variable [DecidableEq τ] {r r' : Run τ} {t : τ} {M p q : ℤ} {K c : ℕ}

/-- Nobody takes the thread `t` out of the ready queue, and no thread is favored: neither
    by `pth_yield`, nor by `pth_raise`, nor because it is new. -/
def Spares (t : τ) (r : Run τ) : Op τ → Prop
  | .suspend x => x ≠ some t
  | .cancel x => x = some t → Sched.asynchronous (r.lib.tcb t) = false
  | .yield x => x = none
  | .raise _ _ _ => False
  | .dispatch => r.lib.favournew = true → r.lib.queues.elements .NQ = 0
  | _ => True

/-- The priorities of all threads but the scheduler are below `M`, and at most `K` threads
    are ready. -/
structure Orderly (t : τ) (M : ℤ) (K : ℕ) (r : Run τ) (op : Op τ) : Prop where
  spares : r.Spares t op
  std : 0 ≤ M
  prio : ∀ u, r.lib.live u → u ≠ r.lib.pthSched → (r.lib.tcb u).prio < M
  ready : r.lib.queues.elements .RQ ≤ K

/-- The operation is the scheduler's choice of the next thread. -/
def isDispatch : Op τ → Bool
  | .dispatch => true
  | _ => false

/-- What a step does to the place of the thread `t`, where the queues store the lists
    `a` before it. -/
inductive Place (t : τ) (M : ℤ) (a : QId → List (τ × ℤ)) (r : Run τ) (op : Op τ) (r' : Run τ) :
    Prop
  | stays {a' : QId → List (τ × ℤ)} (hop : isDispatch op = false) (hr : r'.lib.queues.Repr a')
    (hahead : Ahead t M 0 (a .RQ) (a' .RQ)) (htaken : r'.round.taken = r.round.taken) :
    Place t M a r op r'
  | ages {a' : QId → List (τ × ℤ)} (hop : isDispatch op = false) (hr : r'.lib.queues.Repr a')
    (hahead : Ahead t M 1 (a .RQ) (a' .RQ)) (htaken : r'.round.taken = false) : Place t M a r op r'
  | passed {a' : QId → List (τ × ℤ)} (hop : isDispatch op = true) (hr : r'.lib.queues.Repr a')
    (hplace : ∀ q, (t, q) ∈ a .RQ → (t, q) ∈ a' .RQ ∧
      (M ≤ q → (keys (a' .RQ)).idxOf t + 1 ≤ (keys (a .RQ)).idxOf t))
    (htop : r.round.taken = false) (htaken : r'.round.taken = true) : Place t M a r op r'
  | runs (hop : op = .dispatch) (hcur : r'.lib.pthCurrent = some t) (hph : r'.phase = .running) :
    Place t M a r op r'

/-- The thread `t` runs, or it comes nearer to the head of the ready queue. -/
theorem Inv.dispatch_place {a : QId → List (τ × ℤ)} {o : Out τ} (h : r.Inv)
    (ha : r.lib.queues.Repr a) (ht : t ∈ keys (a .RQ)) (hP : r.Orderly t M K .dispatch)
    (hs : machine.Step r .dispatch o r') : Place t M a r .dispatch r' := by
  have hph : r.phase = .top := hs.1
  obtain ⟨a₁, ha₁⟩ := h.together (by simp [hph, Phase.holds])
  obtain rfl : a = a₁ := funext fun k => ha.entries.symm.trans ha₁.repr.entries
  have hnew : r.lib.favournew = true → a .NQ = [] := by
    intro hfav
    have hnum := hP.spares hfav
    rw [ha.elements] at hnum
    exact List.length_eq_zero_iff.mp (by exact_mod_cast hnum)
  obtain ⟨s, hdis, heq⟩ := Option.map_eq_some_iff.mp hs.2
  obtain ⟨-, rfl⟩ := Prod.mk.inj heq
  obtain ⟨-, hcur, -, hcons⟩ := ha₁.dispatch.of_eq_some hdis
  have hahead := Sched.drained_ahead ha ht hP.std hnew
  obtain ⟨p, hp⟩ := PrioList.mem_keys.mp ht
  have hmem : t ∈ keys (Sched.drained r.lib.favournew a .RQ) :=
    PrioList.mem_keys.mpr ⟨_, hahead.entry p hp⟩
  obtain ⟨c, hc⟩ : ∃ c, s.pthCurrent = some c := by
    rw [hcur]
    cases hl : keys (Sched.drained r.lib.favournew a .RQ) with
    | nil => simp [hl] at hmem
    | cons c l => exact ⟨c, rfl⟩
  by_cases hct : c = t
  · subst hct
    exact .runs rfl hc (by simp [hc])
  · refine .passed rfl hcons.repr (fun q hq => ?_) (by simp [round, hph])
      (by simp [round, hc])
    have hhead : (keys (Sched.drained r.lib.favournew a .RQ)).head? ≠ some t := by
      rw [← hcur, hc]
      simpa using hct
    have hq' : (t, q) ∈ Sched.drained r.lib.favournew a .RQ := by
      simpa using hahead.entry q hq
    obtain ⟨htail, hidx⟩ := Ahead.tail hq' hhead
    rw [Function.update_self]
    refine ⟨htail, fun hM => ?_⟩
    have := hahead.front q hq (by simpa using hM)
    omega

/-- No call of the running thread and no pass of the event manager brings a thread in front
    of the thread `t`. -/
theorem Shift.ahead {a a' : QId → List (τ × ℤ)} {op : Op τ} (h : Shift r a op a') (hinv : r.Inv)
    (ha : r.lib.queues.Repr a) (ht : t ∈ keys (a .RQ)) (hP : r.Orderly t M K op)
    (hback : ∀ now guard still, op ≠ .comeback now guard still) (hdis : op ≠ .dispatch) :
    Ahead t M 0 (a .RQ) (a' .RQ) := by
  have hspares := hP.spares
  obtain ⟨a₁, ha₁⟩ := hinv.consistent
  obtain rfl : a = a₁ := funext fun k => ha.entries.symm.trans ha₁.repr.entries
  cases h with
  | same => exact .refl _
  | favors hop hk hu =>
    rcases hop with rfl | ⟨sig, act, rfl⟩
    · cases hspares
    · exact hspares.elim
  | suspends hk hu =>
    refine Sched.ahead_moved ha hu ?_ (by simp)
    rintro rfl
    exact hspares rfl
  | resumes hk hu =>
    refine Sched.ahead_moved ha hu ?_ fun _ => hP.std
    rintro rfl
    simpa using ha.disjoint hu ht
  | buries hasync hk hu =>
    refine Sched.ahead_moved ha hu ?_ (by simp)
    rintro rfl
    simp [hspares rfl] at hasync
  | frees hasync hk hu =>
    refine Sched.ahead_remove ha ?_
    rintro rfl
    simp [hspares rfl] at hasync
  | spawns hu => exact .refl _
  | collects hu =>
    refine Sched.ahead_remove ha ?_
    rintro rfl
    simpa using ha.disjoint hu ht
  | back => exact absurd rfl (hback _ _ _)
  | passes htcb =>
    refine Sched.rearranged_ahead _ ha ht fun u hu => ?_
    rw [htcb]
    exact hP.prio u (ha₁.live hu) (ha₁.sched hu)
  | takes => exact absurd rfl hdis

/-- While threads and the event manager work, the thread that has been taken stays so. -/
theorem Inv.step_taken {op : Op τ} {o : Out τ} (h : r.Inv) (hs : machine.Step r op o r')
    (hback : ∀ now guard still, op ≠ .comeback now guard still) (hdis : op ≠ .dispatch) :
    r'.round.taken = r.round.taken := by
  cases h.step hs with
  | call hrun hc hcalm hst hcons hph => rcases hph with rfl | rfl <;> simp [round, hrun]
  | spawn => rfl
  | keep hrun => simp [round, hrun]
  | wait hrun => simp [round, hrun]
  | waitReturn | attr => rfl
  | exits => rfl
  | dies hrun => simp [round, hrun]
  | joined => rfl
  | comeback => exact absurd rfl (hback _ _ _)
  | @manage _ dopoll b _ _ hph => cases b <;> simp [round, hph]
  | dispatch => exact absurd rfl hdis
  | exited hrun => simp [round, hrun]
  | killed => exact absurd rfl (hback _ _ _)

/-- The thread that ran comes back. -/
theorem Inv.comeback_place {a : QId → List (τ × ℤ)} {now : Time} {guard : Guard} {still : SigSet}
    {o : Out τ} (h : r.Inv) (ha : r.lib.queues.Repr a) (ht : t ∈ keys (a .RQ))
    (hP : r.Orderly t M K (.comeback now guard still))
    (hs : machine.Step r (.comeback now guard still) o r') :
    Place t M a r (.comeback now guard still) r' := by
  obtain ⟨⟨hsw, -⟩, hexec⟩ := hs
  change r.exec _ = some (o, r') at hexec
  obtain ⟨c, hc, hst⟩ := h.switched hsw
  obtain ⟨a₁, ha₁⟩ := h.apart (by simp [hsw, Phase.holds]) hc
  obtain rfl : a = a₁ := funext fun k => ha.entries.symm.trans ha₁.repr.entries
  have hct : c ≠ t := fun hct => ha₁.away (hct ▸ ht) rfl
  simp only [exec, hc] at hexec
  split at hexec
  · cases hexec
    exact .stays rfl ha (.refl _) (by simp [round, hsw])
  · obtain ⟨s, hback, heq⟩ := Option.map_eq_some_iff.mp hexec
    cases heq
    obtain ⟨hcons, -⟩ := (ha₁.comeback hc hst now still).of_eq_some hback
    have hprio := hP.prio c (ha₁.awayLive rfl).1 (ha₁.awayLive rfl).2
    rw [← (Sched.backTcb_calm (guard = .caught) still (r.lib.tcb c)).prio] at hprio
    exact .ages rfl hcons.repr (Sched.requeued_ahead ha hct hprio.le) rfl

theorem Inv.step_place {a : QId → List (τ × ℤ)} {op : Op τ} {o : Out τ} (h : r.Inv)
    (ha : r.lib.queues.Repr a) (ht : t ∈ keys (a .RQ)) (hP : r.Orderly t M K op)
    (hs : machine.Step r op o r') : Place t M a r op r' := by
  have hcalls : (∀ now guard still, op ≠ .comeback now guard still) → op ≠ .dispatch →
      Place t M a r op r' := by
    intro hback hdis
    obtain ⟨a', hr', hshift⟩ := h.shift hs ha
    refine .stays ?_ hr' (hshift.ahead h ha ht hP hback hdis) (h.step_taken hs hback hdis)
    cases op <;> first | rfl | exact absurd rfl hdis
  cases op with
  | comeback now guard still => exact h.comeback_place ha ht hP hs
  | dispatch => exact h.dispatch_place ha ht hP hs
  | _ => exact hcalls (by simp) (by simp)

/-! ## Waiting for the dispatch -/

/-- How many dispatches a thread of priority `q` with `i` threads in front of it may have
    to wait for. -/
def patience (M : ℤ) (K : ℕ) (q : ℤ) (i : ℕ) : ℕ :=
  if M ≤ q then i + 1 else (M - q).toNat + K

theorem patience_stays {i i' : ℕ} (hi : M ≤ q → i' ≤ i) : patience M K q i' ≤ patience M K q i := by
  unfold patience
  split <;> omega

theorem patience_ages {i i' : ℕ} (hK : i < K) (hi : M ≤ q + 1 → i' ≤ i) :
    (patience M K (q + 1) i' + if q < M then 1 else 0) ≤ patience M K q i := by
  unfold patience
  split <;> split <;> split <;> omega

theorem patience_passed {i i' : ℕ} (hi : M ≤ q → i' + 1 ≤ i) :
    (patience M K q i' + if q < M then 0 else 1) ≤ patience M K q i := by
  unfold patience
  split <;> split <;> omega

/-- The thread is still waiting after `c` of `n` dispatches. A round that has begun with a
    dispatch has not yet made it older. -/
def Pending (t : τ) (M : ℤ) (K n c : ℕ) (r : Run τ) : Prop :=
  ∃ q, (t, q) ∈ r.lib.queues.entries .RQ ∧
    c + patience M K q ((keys (r.lib.queues.entries .RQ)).idxOf t) ≤
      n + if r.round.taken ∧ q < M then 1 else 0

theorem Pending.lt {n : ℕ} (h : r.Pending t M K n c) (hK : 0 < K) : c < n := by
  obtain ⟨q, -, hle⟩ := h
  unfold patience at hle
  split at hle
  · split at hle <;> omega
  · split at hle <;> omega

/-- A step dispatches the thread, or uses up patience with each dispatch. -/
theorem Pending.step {n : ℕ} {op : Op τ} {o : Out τ} (h : r.Pending t M K n c) (hinv : r.Inv)
    (hP : r.Orderly t M K op) (hs : machine.Step r op o r') :
    (op = .dispatch ∧ r'.lib.pthCurrent = some t ∧ r'.phase = .running) ∨
      r'.Pending t M K n (c + if isDispatch op then 1 else 0) := by
  obtain ⟨q, hq, hle⟩ := h
  obtain ⟨a, ha⟩ := hinv.consistent
  have ha := ha.repr
  rw [ha.entries] at hq hle
  have ht : t ∈ keys (a .RQ) := List.mem_map_of_mem hq
  have hlen : (keys (a .RQ)).idxOf t < K := by
    have hidx := List.idxOf_lt_length_of_mem ht
    have hready := hP.ready
    rw [ha.elements] at hready
    rw [PrioList.keys_length] at hidx
    omega
  cases hinv.step_place ha ht hP hs with
  | stays hop ha' hahead htaken =>
    refine .inr ⟨q, ?_, ?_⟩
    · rw [ha'.entries]
      simpa using hahead.entry q hq
    · rw [ha'.entries, htaken, hop]
      have hless := patience_stays (K := K) fun hM => hahead.front q hq (by simpa using hM)
      simp only [Bool.false_eq_true, if_false]
      omega
  | ages hop ha' hahead htaken =>
    refine .inr ⟨q + 1, ?_, ?_⟩
    · rw [ha'.entries]
      exact hahead.entry q hq
    · rw [ha'.entries, htaken, hop]
      have hless := patience_ages hlen (hahead.front q hq)
      simp only [Bool.false_eq_true, if_false, false_and]
      split at hle <;> split at hless <;> omega
  | passed hop hr hplace htop htaken =>
    obtain ⟨hq', hidx⟩ := hplace q hq
    refine .inr ⟨q, ?_, ?_⟩
    · rwa [hr.entries]
    · rw [hr.entries, htaken, hop]
      have hless := patience_passed (K := K) hidx
      simp only [htop, Bool.false_eq_true, false_and, if_false] at hle
      simp only [if_true, true_and]
      split at hless <;> split <;> omega
  | runs hop hcur hph => exact .inl ⟨hop, hcur, hph⟩

/-- A thread of the ready queue is dispatched. Threads of priorities below `M` come to the
    queue, which holds at most `K` threads; so the thread first grows as old as they are and
    is then passed only by the threads in front of it. -/
theorem Pending.dispatched {n : ℕ} {ops : List (Op τ)} (h : r.Pending t M K n c) (hinv : r.Inv)
    (hK : 0 < K) (hs : (machine.only (Orderly t M K)).Steps r ops r')
    (hlong : n ≤ c + ops.countP isDispatch) :
    ∃ ops₁ ops₂ r₁, ops = ops₁ ++ .dispatch :: ops₂ ∧ machine.Steps r (ops₁ ++ [.dispatch]) r₁ ∧
      r₁.lib.pthCurrent = some t ∧ r₁.phase = .running := by
  induction ops generalizing r c with
  | nil =>
    have := h.lt hK
    simp at hlong
    omega
  | cons op ops ih =>
    obtain ⟨o, r₁, hstep, hrest⟩ := hs
    obtain ⟨hstep, hP⟩ := hstep.of_only
    rcases h.step hinv hP hstep with ⟨rfl, hcur, hph⟩ | h₁
    · exact ⟨[], ops, r₁, rfl, ⟨o, r₁, hstep, rfl⟩, hcur, hph⟩
    · have hlong₁ : n ≤ (c + if isDispatch op then 1 else 0) + ops.countP isDispatch := by
        rw [List.countP_cons] at hlong
        omega
      obtain ⟨ops₁, ops₂, r₂, rfl, hsteps, hcur⟩ := ih h₁ ((hinv.step hstep).inv hinv) hrest hlong₁
      exact ⟨op :: ops₁, ops₂, r₂, rfl, ⟨o, r₁, hstep, hsteps⟩, hcur⟩

/-- No ready thread starves. In every state of a run, a thread `t` that is in the ready
    queue with priority `p` is among the next `(M - p) + K` threads that the scheduler
    dispatches, if all priorities are below `M`, at most `K` threads are ready at a time,
    nobody takes `t` out of the queue and no thread is favored. -/
theorem ready_dispatched {ops : List (Op τ)} (h : machine.Reachable r)
    (ht : (t, p) ∈ r.lib.queues.entries .RQ) (hK : r.lib.queues.elements .RQ ≤ K)
    (hs : (machine.only (Orderly t M K)).Steps r ops r')
    (hlong : (M - p).toNat + K ≤ ops.countP isDispatch) :
    ∃ ops₁ ops₂ r₁, ops = ops₁ ++ .dispatch :: ops₂ ∧ machine.Steps r (ops₁ ++ [.dispatch]) r₁ ∧
      r₁.lib.pthCurrent = some t ∧ r₁.phase = .running := by
  have hinv := Inv.reach h
  obtain ⟨a, ha⟩ := hinv.consistent
  have hmem : t ∈ keys (a .RQ) := PrioList.mem_keys.mpr ⟨p, ha.repr.entries ▸ ht⟩
  have hlen := List.idxOf_lt_length_of_mem hmem
  rw [ha.repr.elements] at hK
  rw [PrioList.keys_length] at hlen
  have hpend : r.Pending t M K ((M - p).toNat + K) 0 := by
    refine ⟨p, ht, ?_⟩
    rw [ha.repr.entries]
    unfold patience
    split <;> omega
  exact hpend.dispatched hinv (by omega) hs (by omega)

instance (t : τ) (r : Run τ) : (op : Op τ) → Decidable (r.Spares t op)
  | .suspend _ => inferInstanceAs (Decidable (_ ≠ some t))
  | .cancel _ => inferInstanceAs (Decidable (_ = some t → _ = false))
  | .yield _ => inferInstanceAs (Decidable (_ = none))
  | .raise _ _ _ => inferInstanceAs (Decidable False)
  | .dispatch => inferInstanceAs (Decidable (r.lib.favournew = true → _ = (0 : ℤ)))
  | .spawn _ _ _ | .wait _ | .waitReturn _ | .resume _ | .cancelState _ | .cancelPoint _
  | .unwind _ | .attr _ _ | .favournew _ | .objects _ | .exit _ _ | .exitFinish | .join _ _
  | .joinFinish | .comeback _ _ _ | .manage _ => inferInstanceAs (Decidable True)

instance [Fintype τ] (t : τ) (M : ℤ) (K : ℕ) (r : Run τ) (op : Op τ) :
    Decidable (r.Orderly t M K op) :=
  decidable_of_iff (r.Spares t op ∧ 0 ≤ M ∧
    (∀ u, r.lib.live u → u ≠ r.lib.pthSched → (r.lib.tcb u).prio < M) ∧
    r.lib.queues.elements .RQ ≤ K)
    ⟨fun ⟨h₁, h₂, h₃, h₄⟩ => ⟨h₁, h₂, h₃, h₄⟩, fun h => ⟨h.spares, h.std, h.prio, h.ready⟩⟩

instance [Fintype τ] (t : τ) (M : ℤ) (K : ℕ) (r : Run τ) (op : Op τ) :
    Decidable ((machine.only (Orderly t M K)).enabled r op) :=
  inferInstanceAs (Decidable (r.enabled op ∧ r.Orderly t M K op))

/-- The running thread yields, and the scheduler takes the next one. -/
def aRound : List (Op τ) :=
  [.yield none, .comeback .zero .intact fun _ => false, .manage Sched.quiet, .dispatch]

/-- The last of two ready threads runs within four rounds. -/
theorem ready_dispatched_last : ∃ (r r₁ : Run (Fin 4)) (ops : List (Op (Fin 4))),
    machine.Reachable r ∧ (2, 0) ∈ r.lib.queues.entries .RQ ∧ machine.Steps r ops r₁ ∧
      r₁.lib.pthCurrent = some 2 := by
  have hboot : machine.Reach (fun _ _ => True) (boot (Sched.blank (0 : Fin 4)) 0 1 .zero) :=
    boot_reach _ _ _ _ (by decide)
  obtain ⟨r, hr, hmem, hK, hplay⟩ := hboot.play
    (l := [.favournew false, .spawn none .user (some 2), .spawn none .user (some 3)] ++ aRound)
    (p := fun r => (2, 0) ∈ r.lib.queues.entries .RQ ∧ r.lib.queues.elements .RQ ≤ 3 ∧
      ((machine.only (Orderly 2 1 3)).play (fun _ _ => True) r
        (aRound ++ aRound ++ aRound ++ aRound)).any (fun _ => True) = true) (by decide)
  obtain ⟨r', hs, -⟩ := Machine.steps_play hplay
  obtain ⟨ops₁, -, r₁, -, hs₁, hcur, -⟩ := ready_dispatched hr hmem hK hs (by decide)
  exact ⟨r, r₁, _, hr, hmem, hs₁, hcur⟩

end Run

end Pth
