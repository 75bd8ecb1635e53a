-- SUMMARY: The scheduler's loop before and after a thread runs, in terms of the lists its queues store.
import Pth.Sched.Calls

/-!
# Rounds of the scheduler

`dispatch` moves the new threads to the ready queue and takes the first ready
thread; `comeback` puts the thread that ran back. Both are described by what they
do to the lists of the ready queue, so that the order in which threads run can be
read off. -/

namespace Pth

open PrioList (keys)

namespace Sched

variable {τ : Type*} [DecidableEq τ] {s : Sched τ} {a : QId → List (τ × ℤ)} {H : Set τ}

/-! ## New threads -/

/-- The priority that puts a thread in front of the list. -/
def favorPrio : List (τ × ℤ) → ℤ
  | [] => prioMax
  | e :: _ => e.2 + 1

omit [DecidableEq τ] in
theorem favoritePrio_eq {k : QId} (h : s.queues.Repr a) :
    s.queues.favoritePrio k = favorPrio (a k) := by
  have hq := h.queue k
  unfold Queues.favoritePrio
  cases hl : a k with
  | nil =>
    have hnone : (s.queues.queue k).qHead = none := by simpa [hl] using hq.head
    simp [Pqueue.favoritePrio, hnone, favorPrio]
  | cons e l => exact Pqueue.favoritePrio_cons (hl ▸ hq)

/-- The ready list after the new threads `ts` have come one after the other. -/
def welcome (favournew : Bool) (ts : List τ) (l : List (τ × ℤ)) : List (τ × ℤ) :=
  ts.foldl (fun l t => PrioList.insert (if favournew then favorPrio l else prioStd) t l) l

omit [DecidableEq τ] in
theorem mem_welcome {favournew : Bool} {ts : List τ} {l : List (τ × ℤ)} {t : τ} :
    t ∈ keys (welcome favournew ts l) ↔ t ∈ ts ∨ t ∈ keys l := by
  unfold welcome
  induction ts generalizing l with
  | nil => simp
  | cons u ts ih =>
    rw [List.foldl_cons, ih, PrioList.mem_keys_insert, List.mem_cons]
    tauto

omit [DecidableEq τ] in
/-- Favoured threads come in front of all others, the last one first. -/
theorem welcome_favour (ts : List τ) (l : List (τ × ℤ)) :
    ∃ A, keys A = ts.reverse ∧ welcome true ts l = A ++ l := by
  induction ts generalizing l with
  | nil => exact ⟨[], rfl, rfl⟩
  | cons t ts ih =>
    have hfront : PrioList.insert (favorPrio l) t l = (t, favorPrio l) :: l := by
      apply PrioList.insert_front
      intro e he
      obtain ⟨l', rfl⟩ := List.head?_eq_some_iff.mp he
      exact lt_add_one e.2
    obtain ⟨A, hA, hw⟩ := ih ((t, favorPrio l) :: l)
    refine ⟨A ++ [(t, favorPrio l)], by simp [hA], ?_⟩
    have hstep : welcome true (t :: ts) l =
        welcome true ts (PrioList.insert (favorPrio l) t l) := rfl
    rw [hstep, hfront, hw, List.append_assoc, List.singleton_append]

/-- The variables after all new threads have become ready. -/
structure Drained (s : Sched τ) (a : QId → List (τ × ℤ)) (s' : Sched τ) : Prop where
  tcb : ∀ t, s'.tcb t = if t ∈ keys (a .NQ) then { s.tcb t with state := .ready } else s.tcb t
  live : s'.live = s.live
  pthMain : s'.pthMain = s.pthMain
  pthSched : s'.pthSched = s.pthSched

theorem drainNew_nil {n : ℕ} (h : s.queues.Repr a) (hnil : a .NQ = []) :
    drainNew n s = some s := by
  unfold Sched.drainNew
  simp only [h.tail, hnil, PrioList.keys_nil, List.getLast?_nil]

/-- The lists after the new threads have come to the ready queue. -/
def drained (favournew : Bool) (a : QId → List (τ × ℤ)) : QId → List (τ × ℤ) :=
  Function.update (Function.update a .NQ []) .RQ
    (welcome favournew (keys (a .NQ)).reverse (a .RQ))

omit [DecidableEq τ] in
theorem drained_nil {favournew : Bool} (hnil : a .NQ = []) : drained favournew a = a := by
  funext k
  cases k <;> simp [drained, welcome, hnil]

omit [DecidableEq τ] in
/-- Moving the last of the new threads first. -/
theorem drained_concat {favournew : Bool} {A : List (τ × ℤ)} {e : τ × ℤ}
    (hl : a .NQ = A ++ [e]) :
    drained favournew (Function.update (Function.update a .NQ A) .RQ
      (PrioList.insert (if favournew then favorPrio (a .RQ) else prioStd) e.1 (a .RQ))) =
      drained favournew a := by
  funext k
  cases k <;> simp [drained, welcome, hl]

theorem Consistent.drainNew {n : ℕ} (h : s.Consistent a H) (hn : (a .NQ).length ≤ n) :
    (drainNew n s).Ensures fun s' =>
      s'.Consistent (drained s.favournew a) H ∧ s.Drained a s' := by
  induction n generalizing s a with
  | zero =>
    have hnil : a .NQ = [] := List.length_eq_zero_iff.mp (Nat.le_zero.mp hn)
    rw [drainNew_nil h.repr hnil, drained_nil hnil]
    exact Option.ensures_some.mpr ⟨h, by simp [hnil], rfl, rfl, rfl⟩
  | succ n ih =>
    rcases List.eq_nil_or_concat (a .NQ) with hnil | ⟨A, ⟨t, p⟩, hl⟩
    · rw [drainNew_nil h.repr hnil, drained_nil hnil]
      exact Option.ensures_some.mpr ⟨h, by simp [hnil], rfl, rfl, rfl⟩
    · rw [List.concat_eq_append] at hl
      have htail : s.queues.tail .NQ = some t := by simp [h.repr.tail, hl]
      have ht : t ∈ keys (a .NQ) := by simp [hl]
      have hrem : PrioList.remove t (a .NQ) = A := by
        have hnd := (h.repr.queue .NQ).nodup
        rw [hl] at hnd ⊢
        simpa using PrioList.remove_append_cons hnd
      unfold Sched.drainNew
      simp only [htail]
      apply (h.delete ht).bind
      rintro s₁ ⟨h₁, ho₁⟩
      rw [hrem] at h₁
      have hprio : s₁.queues.favoritePrio .RQ = favorPrio (a .RQ) := by
        rw [favoritePrio_eq h₁.repr]
        simp
      have hmem : t ∈ Insert.insert t H := Set.mem_insert t H
      have h₂ := h₁.modify (t := t) (f := fun x => { x with state := .ready }) (.inl hmem)
      rw [hprio]
      apply (h₂.insert _ hmem (by simp [Fits])).bind
      rintro s₃ ⟨h₃, ho₃⟩
      have hH := h.away ht
      have hfav : s₃.favournew = s.favournew := ho₃.favournew.trans ho₁.favournew
      have hlen : A.length ≤ n := by
        rw [hl] at hn
        simpa using hn
      have h₄ : s₃.Consistent _ H := h₃.congr (by grind)
      apply (ih h₄ (by simpa using hlen)).mono
      rintro s' ⟨h', hd⟩
      simp only [hfav, ne_eq, reduceCtorEq, not_false_eq_true, Function.update_of_ne] at h'
      rw [drained_concat hl] at h'
      refine ⟨h', ⟨?_, ?_, ?_, ?_⟩⟩
      · intro u
        rw [hd.tcb, ho₃.tcb]
        by_cases hut : u = t
        · simp [hut, hl, ho₁.tcb]
        · simp [hut, hl, ho₁.tcb]
      · exact hd.live.trans (ho₃.live.trans ho₁.live)
      · exact hd.pthMain.trans (ho₃.pthMain.trans ho₁.pthMain)
      · exact hd.pthSched.trans (ho₃.pthSched.trans ho₁.pthSched)

/-! ## The next thread -/

/-- The scheduler takes the first thread of the ready queue, after the new threads
    have come to it. -/
theorem Consistent.dispatch (h : s.Consistent a H) :
    s.dispatch.Ensures fun s' => s.Drained a s' ∧
      s'.pthCurrent = (keys (drained s.favournew a .RQ)).head? ∧
      (∀ c, s'.pthCurrent = some c → (s'.tcb c).state = .ready) ∧
      s'.Consistent (Function.update (drained s.favournew a) .RQ
        (drained s.favournew a .RQ).tail) (H ∪ { u | s'.pthCurrent = some u }) := by
  have hn : (a .NQ).length ≤ (s.queues.elements .NQ).toNat := by simp [h.repr.elements]
  unfold Sched.dispatch
  apply (h.drainNew hn).bind
  rintro s₁ ⟨h₁, hd⟩
  apply (h₁.delmax (k := .RQ)).map
  rintro ⟨t, qs⟩ ⟨hhead, h₂⟩
  refine ⟨⟨hd.tcb, hd.live, hd.pthMain, hd.pthSched⟩, hhead, ?_, { h₂ with }⟩
  intro c hc
  exact h₁.fits (List.mem_of_mem_head? (hhead.symm.trans hc))

/-! ## The thread that ran -/

omit [DecidableEq τ] in
/-- Delivered signals change nothing but the pending signals. -/
theorem dropDelivered_eq (still : SigSet) (x : Tcb τ) :
    ∃ sp sc, dropDelivered still x = { x with sigpending := sp, sigpendcnt := sc } := by
  unfold dropDelivered
  split
  · next hpos =>
    clear hpos
    generalize signals = l
    induction l generalizing x with
    | nil => exact ⟨_, _, rfl⟩
    | cons n l ih =>
      simp only [List.foldl_cons]
      split
      · exact ih _
      · exact ih x
  · exact ⟨_, _, rfl⟩

/-- The control block of the thread that ran, as the scheduler leaves it. -/
def backTcb (overflow : Bool) (still : SigSet) (x : Tcb τ) : Tcb τ :=
  if overflow then { dropDelivered still x with joinArg := overflowArg, state := .dead }
  else dropDelivered still x

omit [DecidableEq τ] in
theorem backTcb_calm (overflow : Bool) (still : SigSet) (x : Tcb τ) :
    x.Calm (backTcb overflow still x) := by
  obtain ⟨sp, sc, hdrop⟩ := dropDelivered_eq still x
  cases overflow
  · simp only [backTcb, hdrop]
    exact ⟨rfl, rfl, rfl, rfl, id, .inl rfl⟩
  · simp only [backTcb, hdrop]
    exact ⟨rfl, rfl, rfl, rfl, id, .inr rfl⟩

/-- The lists after the thread `c` with control block `x` has come back. -/
def requeued (a : QId → List (τ × ℤ)) (c : τ) (x : Tcb τ) : QId → List (τ × ℤ)
  | .NQ => a .NQ
  | .RQ =>
    if x.state = .ready then PrioList.insert x.prio c (PrioList.increase (a .RQ))
    else PrioList.increase (a .RQ)
  | .WQ => if x.state = .waiting then PrioList.insert x.prio c (a .WQ) else a .WQ
  | .SQ => a .SQ
  | .DQ => if x.state = .dead ∧ x.joinable then PrioList.insert prioStd c (a .DQ) else a .DQ

/-- The variables after the thread `c` has come back. -/
structure Back (s : Sched τ) (c : τ) (overflow : Bool) (still : SigSet) (s' : Sched τ) :
    Prop where
  tcb : s'.tcb = Function.update s.tcb c (backTcb overflow still (s.tcb c))
  live : ∀ t, s'.live t = if t = c ∧ (s'.tcb c).state = .dead ∧ (s.tcb c).joinable = false
    then false else s.live t
  pthMain : s'.pthMain = s.pthMain
  pthSched : s'.pthSched = s.pthSched
  favournew : s'.favournew = s.favournew

theorem Back.calm {c t : τ} {overflow : Bool} {still : SigSet} {s' : Sched τ}
    (h : s.Back c overflow still s') : (s.tcb t).Calm (s'.tcb t) := by
  by_cases htc : t = c
  · subst htc
    simpa [h.tcb] using backTcb_calm overflow still (s.tcb t)
  · simpa [h.tcb, htc] using Tcb.Calm.refl (s.tcb t)

theorem Back.live_of {c t : τ} {overflow : Bool} {still : SigSet} {s' : Sched τ}
    (h : s.Back c overflow still s') (ht : s'.live t) : s.live t := by
  rw [h.live] at ht
  split at ht
  · simp at ht
  · exact ht

theorem requeue_some {c : τ} (hc : s.pthCurrent = some c) :
    s.requeue = { s with queues := s.queues.increase .RQ }.insert .RQ (s.tcb c).prio c := by
  unfold Sched.requeue
  split
  · simp_all
  · next c' hc' =>
    obtain rfl : c = c' := by simpa [hc] using hc'
    rfl

theorem Consistent.retire {c : τ} (h : s.Consistent a {c}) (hc : s.pthCurrent = some c)
    (hst : (s.tcb c).state = .ready ∨ (s.tcb c).state = .waiting ∨ (s.tcb c).state = .dead) :
    ((s.retire c).bind requeue).Ensures fun s' => s'.Consistent (requeued a c (s.tcb c)) ∅ ∧
      s'.tcb = s.tcb ∧ s'.pthMain = s.pthMain ∧ s'.pthSched = s.pthSched ∧
      s'.favournew = s.favournew ∧
      (∀ t, s'.live t = if t = c ∧ (s.tcb c).state = .dead ∧ (s.tcb c).joinable = false
        then false else s.live t) := by
  have hmem : c ∈ ({c} : Set τ) := rfl
  rcases hst with hst | hst | hst
  · -- the thread stays ready and goes back to the ready queue
    simp only [Sched.retire, hst, Option.bind_some, requeue_some hc]
    apply (h.increase.insert (k := .RQ) _ hmem (by simp [Fits, hst])).mono
    rintro s' ⟨h', ho⟩
    have ha : requeued a c (s.tcb c) = Function.update (Function.update a .RQ
        (PrioList.increase (a .RQ))) .RQ (PrioList.insert (s.tcb c).prio c
          (Function.update a .RQ (PrioList.increase (a .RQ)) .RQ)) := by
      funext k
      cases k <;> simp [requeued, hst]
    rw [ha]
    exact ⟨h'.congr (by simp), ho.tcb, ho.pthMain, ho.pthSched, ho.favournew, by simp [ho.live]⟩
  · simp only [Sched.retire, hst]
    rw [Option.bind_map]
    apply (h.insert (k := .WQ) (s.tcb c).prio hmem (by simp [Fits, hst])).bind
    rintro s' ⟨h', ho⟩
    have ha : requeued a c (s.tcb c) = Function.update (Function.update a .WQ
        (PrioList.insert (s.tcb c).prio c (a .WQ))) .RQ (PrioList.increase
          (Function.update a .WQ (PrioList.insert (s.tcb c).prio c (a .WQ)) .RQ)) := by
      funext k
      cases k <;> simp [requeued, hst]
    rw [ha]
    exact Option.ensures_some.mpr ⟨{ h'.increase.congr (by simp) with }, ho.tcb, ho.pthMain,
      ho.pthSched, ho.favournew, by simp [ho.live]⟩
  · simp only [Sched.retire, hst]
    split
    · next hj =>
      rw [Option.bind_map]
      apply (h.insert (k := .DQ) prioStd hmem (by simp [Fits, hst, hj])).bind
      rintro s' ⟨h', ho⟩
      have ha : requeued a c (s.tcb c) = Function.update (Function.update a .DQ
          (PrioList.insert prioStd c (a .DQ))) .RQ (PrioList.increase
            (Function.update a .DQ (PrioList.insert prioStd c (a .DQ)) .RQ)) := by
        funext k
        cases k <;> simp [requeued, hst, hj]
      rw [ha]
      exact Option.ensures_some.mpr ⟨{ h'.increase.congr (by simp) with }, ho.tcb, ho.pthMain,
        ho.pthSched, ho.favournew, by simp [ho.live, hj]⟩
    · next hj =>
      have ha : requeued a c (s.tcb c) = Function.update a .RQ (PrioList.increase (a .RQ)) := by
        funext k
        cases k <;> simp [requeued, hst, hj]
      rw [ha]
      exact Option.ensures_some.mpr ⟨{ (h.tcbFree hmem).increase.congr (by simp) with }, rfl, rfl,
        rfl, rfl, by simp [Sched.tcbFree, hj, Function.update_apply]⟩

/-- The thread that ran comes back, and all queued threads get older. -/
theorem Consistent.comeback {c : τ} {overflow : Bool} (h : s.Consistent a {c})
    (hc : s.pthCurrent = some c)
    (hst : (s.tcb c).state = .ready ∨ (s.tcb c).state = .waiting ∨ (s.tcb c).state = .dead)
    (now : Time) (still : SigSet) :
    (s.comeback c now overflow still).Ensures fun s' =>
      s'.Consistent (requeued a c (backTcb overflow still (s.tcb c))) ∅ ∧
        s.Back c overflow still s' := by
  have hback : s.comeback c now overflow still =
      (({ s with snapshot := now }.modify c (backTcb overflow still)).retire c).bind requeue := by
    cases overflow
    · rfl
    · simp [Sched.comeback, Sched.modify, backTcb]
  have hst' : (backTcb overflow still (s.tcb c)).state = .ready ∨
      (backTcb overflow still (s.tcb c)).state = .waiting ∨
      (backTcb overflow still (s.tcb c)).state = .dead := by
    rcases (backTcb_calm overflow still (s.tcb c)).state with hst' | hst'
    · rwa [hst']
    · exact .inr (.inr hst')
  have h₀ : { s with snapshot := now }.Consistent a {c} := { h with }
  have h₁ := h₀.modify (f := backTcb overflow still) (.inl (Set.mem_singleton c))
  rw [hback]
  apply (h₁.retire hc (by simpa using hst')).mono
  rintro s' ⟨h', htcb, hmain, hsched, hfav, hlive⟩
  simp only [modify_tcb, if_true] at h'
  refine ⟨h', ⟨htcb, fun t => ?_, hmain, hsched, hfav⟩⟩
  rw [hlive, htcb]
  simp [(backTcb_calm overflow still (s.tcb c)).joinable]

/-! ## Initialisation -/

omit [DecidableEq τ] in
/-- The queues of `pth_scheduler_init`. -/
theorem schedulerInit_repr (s : Sched τ) : s.schedulerInit.queues.Repr fun _ => [] := by
  have hfresh : s.schedulerInit.queues = Queues.fresh s.queues.node := by
    simp only [schedulerInit, Queues.init, Queues.set, Queues.fresh]
    congr
    funext k
    cases k <;> simp
  rw [hfresh]
  exact Queues.Repr.fresh _

/-- The state `pth_init` leaves: the main thread runs, and there is no other
    thread but the scheduler. -/
structure Started (s : Sched τ) (main sched : τ) : Prop where
  consistent : s.Consistent (fun _ => []) {main}
  pthCurrent : s.pthCurrent = some main
  pthMain : s.pthMain = main
  pthSched : s.pthSched = sched
  live : ∀ t, s.live t ↔ t = main ∨ t = sched
  state : (s.tcb main).state = .ready
  schedJoin : (s.tcb sched).joinable = false

theorem pthInit_started (s : Sched τ) {main sched : τ} (now : Time) (hne : main ≠ sched) :
    (s.pthInit main sched now).Ensures fun s' => s'.Started main sched := by
  -- the scheduler's thread exists, and the main thread comes to the new queue
  let s₁ : Sched τ := { s.schedulerInit.created (some schedAttr) .scheduler sched with
    pthSched := sched }
  have hlive : ∀ t, s₁.live t ↔ t = sched := by
    simp [s₁, created, schedulerInit, Function.update_apply]
  have h₁ : s₁.Consistent (fun _ => []) ∅ := by
    constructor
    · exact s.schedulerInit_repr
    · simp
    · simp
    · simp
    · simp
    · intro t ht hts
      exact absurd ((hlive t).mp ht) hts
    · simp
    · exact (hlive sched).mpr rfl
    · simp [s₁, created, schedulerInit]
  have hmain : s₁.live main = false := by simpa using mt (hlive main).mp hne
  have h₂ := h₁.create hmain (s₁.spawnTcb (some mainAttr) .main main)
  have hinit : s.pthInit main sched now =
      ((s₁.created (some mainAttr) .main main).insert .NQ prioStd main).bind fun s₂ =>
        ({ s₂ with pthMain := main, pthCurrent := some sched, snapshot := now }.setState sched
          .scheduler).dispatch := by
    have hprio : ((s₁.created (some mainAttr) .main main).tcb main).prio = prioStd := by
      simp [created, spawnTcb, spawnAttr, mainAttr]
    rw [← hprio]
    simp only [Sched.pthInit, Sched.spawn, reduceCtorEq, if_false, if_true, Option.bind_some,
      Option.bind_map]
    rfl
  have hfit : Fits .NQ ((s₁.created (some mainAttr) .main main).tcb main) := by
    simp [Fits, created, spawnTcb]
  rw [hinit]
  apply (h₂.insert prioStd (Set.mem_insert main ∅) hfit).bind
  rintro s₂ ⟨h₃, ho⟩
  have h₄ : { s₂ with pthMain := main, pthCurrent := some sched, snapshot := now }.Consistent
      _ (∅ : Set τ) := { h₃.congr (by simp) with }
  have h₅ := h₄.modify (t := sched) (f := fun x => { x with state := .scheduler })
    (.inr (.inl ho.pthSched.symm))
  apply h₅.dispatch.mono
  rintro s' ⟨hd, hcur, _, h'⟩
  -- the main thread is the only ready thread and leaves the queue at once
  have hcur' : s'.pthCurrent = some main := by
    rw [hcur]
    simp [drained, welcome, PrioList.insert]
  refine ⟨?_, hcur', hd.pthMain, hd.pthSched.trans ho.pthSched, ?_, ?_, ?_⟩
  · have ha : s'.Consistent _ {main} := h'.congr (by simp [hcur', eq_comm])
    convert ha using 1
    funext k
    cases k <;> simp [drained, welcome, PrioList.insert]
  · intro t
    rw [hd.live]
    have := hlive t
    simp [ho.live, Function.update_apply, this]
  · rw [hd.tcb]
    simp [PrioList.insert]
  · rw [hd.tcb]
    simp [PrioList.insert, hne.symm, ho.tcb, s₁, created, spawnTcb, spawnAttr, schedAttr]

end Sched

end Pth
