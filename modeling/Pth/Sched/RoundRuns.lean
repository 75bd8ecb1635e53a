-- SUMMARY: Every step of the scheduler works on its queues as a sequence of calls that rounds allow.
import Pth.Sched.Invariant
import Pth.Sched.RoundBounds

/-!
# The scheduler runs in rounds

`Rounds` describes runs of rounds by the calls of the queue functions alone. Here each
operation of the scheduler model is taken apart into the calls it makes, so that the
queues of every state the scheduler reaches are reached by rounds. -/

namespace Pth

open PrioList (keys)

namespace Rounds

variable {τ : Type*} [DecidableEq τ] {s s₁ s₂ : Rounds τ}

/-- Some calls lead from one state to the other. -/
def Path (s s' : Rounds τ) : Prop := ∃ ops, machine.Steps s ops s'

theorem Path.refl (s : Rounds τ) : Path s s := ⟨[], rfl⟩

theorem Path.trans (h : Path s s₁) (h' : Path s₁ s₂) : Path s s₂ := by
  obtain ⟨ops, h⟩ := h
  obtain ⟨ops', h'⟩ := h'
  exact ⟨ops ++ ops', h.trans h'⟩

/-- One call that its precondition and the round allow. -/
theorem Path.call {qs qs' : Queues QId τ} {a : QId → List (τ × ℤ)} (op : QueueOp QId τ)
    {r : QueueRet τ} {b : Bool} (h : qs.Repr a) (hop : op.Allowed a) (hround : op.InRound b)
    (hexec : op.exec qs = some (r, qs')) : Path ⟨qs, b⟩ ⟨qs', op.taken b⟩ := by
  have ha : qs.entries = a := funext fun k => h.entries
  exact ⟨[op], r, _, ⟨⟨ha ▸ hop, hround⟩, by simp [machine, hexec]⟩, rfl⟩

end Rounds

namespace Sched

variable {τ : Type*} [DecidableEq τ] {s : Sched τ} {a : QId → List (τ × ℤ)} {H : Set τ} {t : τ}
  {k : QId} {b : Bool}

/-! ## The queue functions -/

theorem delete_path (h : s.queues.Repr a) (ht : t ∈ keys (a k)) :
    (s.delete k t).Ensures fun s' => Rounds.Path ⟨s.queues, b⟩ ⟨s'.queues, b⟩ ∧
      s'.queues.Repr (Function.update a k (PrioList.remove t (a k))) ∧ s'.tcb = s.tcb := by
  obtain ⟨qs, hdel, hr⟩ := h.delete ht
  refine ⟨{ s.noteDelete k t with queues := qs }, by simp [Sched.delete, hdel], ?_, hr, rfl⟩
  exact Rounds.Path.call (.delete k t) (r := .void) h ht trivial (by simp [QueueOp.exec, hdel])

theorem insert_path (h : s.queues.Repr a) (ht : ∀ k, t ∉ keys (a k)) (prio : ℤ) :
    (s.insert k prio t).Ensures fun s' => Rounds.Path ⟨s.queues, b⟩ ⟨s'.queues, b⟩ ∧
      s'.queues.Repr (Function.update a k (PrioList.insert prio t (a k))) ∧ s'.tcb = s.tcb := by
  obtain ⟨qs, hins, hr⟩ := h.insert (k := k) prio ht
  refine ⟨{ s with queues := qs }, by simp [Sched.insert, hins], ?_, hr, rfl⟩
  exact Rounds.Path.call (.insert k prio t) (r := .void) h ht trivial
    (by simp [QueueOp.exec, hins])

/-- Take a thread out of its queue and insert it into another one. -/
theorem move_path {k' : QId} (h : s.queues.Repr a) (ht : t ∈ keys (a k)) (prio : ℤ)
    (f : Sched τ → Sched τ) (hf : ∀ s, (f s).queues = s.queues) :
    (s.delete k t).Ensures fun s₁ => s₁.tcb = s.tcb ∧
      ((f s₁).insert k' prio t).Ensures fun s' => Rounds.Path ⟨s.queues, b⟩ ⟨s'.queues, b⟩ := by
  apply (delete_path h ht).mono
  rintro s₁ ⟨hp, hr, htcb⟩
  refine ⟨htcb, ?_⟩
  have hr' : (f s₁).queues.Repr _ := hf s₁ ▸ hr
  apply (insert_path (b := b) hr' (h.removed ht) prio).mono
  rintro s₂ ⟨hp', -, -⟩
  rw [hf] at hp'
  exact hp.trans hp'

/-! ## The calls of a thread -/

theorem suspend_path (h : s.queues.Repr a) (x : Option τ) :
    (s.suspend x).Ensures fun r => Rounds.Path ⟨s.queues, b⟩ ⟨r.2.queues, b⟩ := by
  have hstay : Rounds.Path ⟨s.queues, b⟩ ⟨s.queues, b⟩ := .refl _
  unfold Sched.suspend
  split
  · simpa using hstay
  · split
    · simpa using hstay
    · split
      · simpa using hstay
      · simp only [h.contains, Option.bind_some, decide_eq_true_eq]
        split
        · next ht =>
          apply (move_path h ht prioStd id fun _ => rfl).bind
          rintro s₁ ⟨-, h₁⟩
          exact h₁.map fun _ h₂ => h₂
        · simpa using hstay

theorem resume_path (h : s.queues.Repr a) (x : Option τ) :
    (s.resume x).Ensures fun r => Rounds.Path ⟨s.queues, b⟩ ⟨r.2.queues, b⟩ := by
  have hstay : Rounds.Path ⟨s.queues, b⟩ ⟨s.queues, b⟩ := .refl _
  unfold Sched.resume
  split
  · simpa using hstay
  · split
    · simpa using hstay
    · simp only [h.contains, Option.bind_some, decide_eq_true_eq]
      split
      · next ht =>
        apply (delete_path h ht).bind
        rintro s₁ ⟨hp, hr, -⟩
        split
        · simpa using hp
        · exact (insert_path hr (h.removed ht) prioStd).map fun s₂ h₂ => hp.trans h₂.1
      · simpa using hstay

theorem cancel_path (h : s.queues.Repr a) (x : Option τ) :
    (s.cancel x).Ensures fun r => Rounds.Path ⟨s.queues, b⟩ ⟨r.2.queues, b⟩ := by
  cases x with
  | none => exact Option.ensures_some.mpr (.refl _)
  | some t =>
    have h₁ : (s.marked t).queues.Repr a := h
    apply (cancel_spec h t).mono
    rintro ⟨ret, s'⟩ hcase
    replace hcase : s.Cancels t ret s' := hcase
    cases hcase with
    | refused | missing | marks => exact .refl _
    | buries _ _ ht _ hdel hins =>
      rw [h.threads] at ht
      obtain ⟨-, hmove⟩ := (move_path h₁ ht prioStd (fun s => s.modify t fun tcb =>
        { tcb with joinArg := canceled, state := .dead }) fun _ => rfl).of_eq_some hdel
      exact hmove.of_eq_some hins
    | frees _ _ ht _ hdel =>
      rw [h.threads] at ht
      exact ((delete_path h₁ ht).of_eq_some hdel).1

theorem spawn_path (h : s.Consistent a H) (attr : Option Attr) (func : StartFunc) (x : Option τ)
    (hx : ∀ t, x = some t → s.live t = false) :
    (s.spawn attr func x).Ensures fun r => Rounds.Path ⟨s.queues, b⟩ ⟨r.2.queues, b⟩ := by
  have hstay : Rounds.Path ⟨s.queues, b⟩ ⟨s.queues, b⟩ := .refl _
  unfold Sched.spawn
  split
  · simpa using hstay
  · split
    · simpa using hstay
    · next t =>
      have ht : ∀ k, t ∉ keys (a k) := fun k hk => by simpa [hx t rfl] using h.live hk
      dsimp only
      split
      · simpa [created] using hstay
      · exact (insert_path (s := s.created attr func t) h.repr ht _).map fun s' h' => h'.1

/-! ## The scheduler -/

theorem increase_path (h : s.queues.Repr a) :
    Rounds.Path ⟨s.queues, true⟩ ⟨s.queues.increase .RQ, false⟩ :=
  Rounds.Path.call (.increase .RQ) (r := .void) h trivial (fun _ => rfl) rfl

/-- The thread that ran comes back, and the ready queue ages once. -/
theorem retire_path {c : τ} (h : s.queues.Repr a) (haway : ∀ k, c ∉ keys (a k))
    (hc : s.pthCurrent = some c) :
    ((s.retire c).bind requeue).Ensures fun s' =>
      Rounds.Path ⟨s.queues, true⟩ ⟨s'.queues, false⟩ := by
  have hready : s.requeue.Ensures fun s' => Rounds.Path ⟨s.queues, true⟩ ⟨s'.queues, false⟩ := by
    have hage : ∀ k, c ∉ keys (Function.update a .RQ (PrioList.increase (a .RQ)) k) := by
      intro k
      by_cases hk : k = .RQ
      · simpa [hk] using haway .RQ
      · simpa [hk] using haway k
    rw [requeue_some hc]
    apply (insert_path (s := { s with queues := s.queues.increase .RQ }) h.increase hage _).mono
    rintro s' ⟨hp, -, -⟩
    exact (increase_path h).trans hp
  unfold Sched.retire
  split
  · split
    · rw [Option.bind_map]
      apply (insert_path (b := true) h haway prioStd).bind
      rintro s' ⟨hp, hr, -⟩
      exact Option.ensures_some.mpr (hp.trans (increase_path hr))
    · exact Option.ensures_some.mpr (increase_path h)
  · rw [Option.bind_map]
    apply (insert_path (b := true) h haway (s.tcb c).prio).bind
    rintro s' ⟨hp, hr, -⟩
    exact Option.ensures_some.mpr (hp.trans (increase_path hr))
  · exact hready

theorem comeback_path {c : τ} (h : s.Consistent a {c}) (hc : s.pthCurrent = some c) (now : Time)
    (overflow : Bool) (still : SigSet) :
    (s.comeback c now overflow still).Ensures fun s' =>
      Rounds.Path ⟨s.queues, true⟩ ⟨s'.queues, false⟩ := by
  have haway : ∀ k, c ∉ keys (a k) := fun k hk => h.away hk rfl
  unfold Sched.comeback
  cases overflow <;> exact retire_path h.repr haway hc

theorem wake_path (h : s.queues.Repr a) (ht : t ∈ keys (a .WQ)) :
    (s.wake t).Ensures fun s' => Rounds.Path ⟨s.queues, b⟩ ⟨s'.queues, b⟩ ∧
      ∃ l, s'.queues.Repr (Function.update
        (Function.update a .WQ (PrioList.remove t (a .WQ))) .RQ l) := by
  unfold wake
  apply (delete_path (b := b) h ht).bind
  rintro s₁ ⟨hp, hr, -⟩
  apply (insert_path (s := s₁.setState t .ready) (b := b) hr (h.removed ht) _).mono
  rintro s₂ ⟨hp', hr', -⟩
  exact ⟨hp.trans hp', _, hr'⟩

/-- The second loop of the event manager moves threads to the ready queue. -/
theorem cleanup_path {env : Env τ} {n : ℕ} {l : Late} {A B : List (τ × ℤ)}
    (h : s.queues.Repr a) (hl : a .WQ = A ++ B) (hn : B.length ≤ n) :
    (cleanup env n s l (keys B).head?).Ensures fun s' =>
      Rounds.Path ⟨s.queues, b⟩ ⟨s'.queues, b⟩ := by
  induction B generalizing s a A l n with
  | nil =>
    simp only [PrioList.keys_nil, List.head?_nil, cleanup, Option.ensures_some]
    exact .refl _
  | cons e B ih =>
    obtain ⟨n, rfl⟩ : ∃ m, n = m + 1 := ⟨n - 1, by simp at hn; omega⟩
    have hn' : B.length ≤ n := by simpa using hn
    have hkeys : keys (a .WQ) = keys A ++ e.1 :: keys B := by simp [hl]
    have ht : e.1 ∈ keys (a .WQ) := by simp [hkeys]
    have hwalk : (lateThread env s l e.1).2.queues.walk .WQ e.1 .next = (keys B).head? :=
      Pqueue.walk_next (h.queue .WQ) hkeys
    simp only [PrioList.keys_cons, List.head?_cons, cleanup, hwalk]
    split
    · have hrem : PrioList.remove e.1 (a .WQ) = A ++ B := by
        have hnd := (h.queue .WQ).nodup
        rw [hl] at hnd ⊢
        exact PrioList.remove_append_cons hnd
      apply (wake_path (s := (lateThread env s l e.1).2) (b := b) h ht).bind
      rintro s₁ ⟨hp, l', hr⟩
      apply (ih (A := A) hr (by simp [hrem]) hn').mono
      exact fun s' hp' => hp.trans hp'
    · exact ih (s := (lateThread env s l e.1).2) (A := A ++ [e]) h (by simp [hl]) hn'

/-- A pass of the event manager. -/
theorem eventmanager_path {env : Env τ} {dopoll repeats : Bool} {s' : Sched τ}
    (h : s.queues.Repr a) (hs : s.eventmanager env dopoll = some (repeats, s')) :
    Rounds.Path ⟨s.queues, b⟩ ⟨s'.queues, b⟩ := by
  unfold eventmanager at hs
  obtain ⟨⟨s₁, sc⟩, hscan, hs⟩ := Option.bind_eq_some_iff.mp hs
  have hq : (sleep env s₁ sc dopoll).2.1.queues = s.queues :=
    (elapse_scanned sc _ _).queues.trans (scanThreads_scanned hscan).1.queues
  -- the sleep leaves the queues as they were
  rcases hsleep : sleep env s₁ sc dopoll with ⟨again, s₂, l⟩
  rw [hsleep] at hq
  simp only [hsleep] at hs
  obtain ⟨s₃, hclean, heq⟩ := Option.map_eq_some_iff.mp hs
  have hr : s₂.queues.Repr a := hq ▸ h
  have hn : (a .WQ).length ≤ (s₂.queues.elements .WQ).toNat := by
    rw [hr.elements, Int.toNat_natCast]
  rw [hr.head] at hclean
  have hp := (cleanup_path (A := []) (b := b) hr rfl hn).of_eq_some hclean
  obtain ⟨-, rfl⟩ := Prod.mk.inj heq
  rw [hq] at hp
  split <;> exact hp

/-- The loop over the new threads. -/
theorem drainNew_path {s' : Sched τ} {n : ℕ} (h : s.queues.Repr a) (hs : drainNew n s = some s') :
    Rounds.Path ⟨s.queues, b⟩ ⟨s'.queues, b⟩ ∧ ∃ a', s'.queues.Repr a' := by
  induction n generalizing s a with
  | zero =>
    unfold drainNew at hs
    split at hs
    · cases hs
      exact ⟨.refl _, a, h⟩
    · cases hs
  | succ n ih =>
    unfold drainNew at hs
    split at hs
    · cases hs
      exact ⟨.refl _, a, h⟩
    · next t ht =>
      rw [h.tail] at ht
      have hmem : t ∈ keys (a .NQ) := List.mem_of_getLast? ht
      obtain ⟨s₁, hdel, hs⟩ := Option.bind_eq_some_iff.mp hs
      obtain ⟨s₂, hins, hs⟩ := Option.bind_eq_some_iff.mp hs
      obtain ⟨hp, hr, -⟩ := (delete_path (b := b) h hmem).of_eq_some hdel
      obtain ⟨hp', hr', -⟩ := (insert_path (s := s₁.setState t .ready) (b := b) hr
        (h.removed hmem) _).of_eq_some hins
      obtain ⟨hp'', ha⟩ := ih hr' hs
      exact ⟨hp.trans (hp'.trans hp''), ha⟩

theorem dispatch_path {s' : Sched τ} (h : s.queues.Repr a) (hs : s.dispatch = some s') :
    Rounds.Path ⟨s.queues, b⟩ ⟨s'.queues, true⟩ := by
  obtain ⟨s₁, hdrain, hs⟩ := Option.bind_eq_some_iff.mp hs
  obtain ⟨⟨t, qs⟩, hdel, rfl⟩ := Option.map_eq_some_iff.mp hs
  obtain ⟨hp, a₁, h₁⟩ := drainNew_path (b := b) h hdrain
  have htake : Rounds.Path ⟨s₁.queues, b⟩ ⟨qs, true⟩ :=
    Rounds.Path.call (.delmax .RQ) (r := .thread t) h₁ trivial trivial
      (by simp [QueueOp.exec, hdel])
  exact hp.trans htake

end Sched

/-! ## Runs -/

namespace Run

variable {τ : Type*} [DecidableEq τ] {r r' : Run τ}

/-- The queues of a state, and whether the running thread has been taken since the ready
    queue has aged. -/
def round (r : Run τ) : Rounds τ where
  queues := r.lib.queues
  taken := match r.phase with
    | .manager _ | .top => false
    | _ => true

/-- No thread is favored: `pth_yield` names no thread, and `pth_raise`, which yields to the
    thread it signals, is not used. -/
def Plain (_ : Run τ) : Op τ → Prop
  | .yield t => t = none
  | .raise _ _ _ => False
  | _ => True

omit [DecidableEq τ] in
theorem round_running (hrun : r.phase = .running) : r.round = ⟨r.lib.queues, true⟩ := by
  simp [round, hrun]

/-- A call of a thread that is not favored by it. -/
theorem Called.path {op : Op τ} {s : Sched τ} {a : QId → List (τ × ℤ)} (h : r.Called op s)
    (ha : r.lib.queues.Repr a) (hplain : r.Plain op) :
    Rounds.Path ⟨r.lib.queues, true⟩ ⟨s.queues, true⟩ := by
  cases h with
  | stays | favournew | objects => exact .refl _
  | yield hs =>
    obtain rfl := hplain
    cases hs
    exact .refl _
  | @suspend t _ _ hs => exact (Sched.suspend_path ha t).of_eq_some hs
  | @resume t _ _ hs => exact (Sched.resume_path ha t).of_eq_some hs
  | @cancel t _ _ _ hs => exact (Sched.cancel_path ha t).of_eq_some hs
  | raise => exact hplain.elim

/-- A step of the scheduler makes calls that a round allows. -/
theorem Inv.step_path {op : Op τ} {o : Out τ} (h : r.Inv) (hplain : r.Plain op)
    (hs : machine.Step r op o r') : Rounds.Path r.round r'.round := by
  obtain ⟨a, ha⟩ := h.consistent
  -- what concerns the running thread alone leaves the queues as they are
  have hsame : r.phase = .running → r'.round = ⟨r.lib.queues, true⟩ →
      Rounds.Path r.round r'.round := by
    intro hrun hround
    rw [round_running hrun, hround]
    exact .refl _
  cases h.step hs with
  | call hrun _ _ _ _ hph _ hcall =>
    have hpath := hcall.path ha.repr hplain
    rcases hph with rfl | rfl <;> simpa [round, hrun] using hpath
  | @spawn attr s t c a₁ hrun hc hpc ht _ _ hspawn =>
    have hfree : ∀ u, some t = some u → r.lib.live u = false := by
      rintro u ⟨rfl⟩
      exact ht
    simpa [round, hrun] using
      (Sched.spawn_path (b := true) ha attr .user (some t) hfree).of_eq_some hspawn
  | keep hrun | wait hrun | dies hrun | exited hrun => exact hsame hrun (by simp [round])
  | waitReturn hrun | exits hrun | attr hrun => exact hsame hrun (by simp [round, hrun])
  | joined hrun _ _ _ _ _ _ hmem hdel =>
    obtain ⟨s₀, hdel, hq⟩ := hdel
    rw [ha.repr.threads] at hmem
    have hpath := ((Sched.delete_path (b := true) ha.repr hmem).of_eq_some hdel).1
    simpa [round, hrun, hq] using hpath
  | @comeback now guard still s c _ hsw hc _ _ _ hback =>
    obtain ⟨a₁, ha₁⟩ := h.apart (by simp [hsw, Phase.holds]) hc
    simpa [round, hsw] using (Sched.comeback_path ha₁ hc now _ still).of_eq_some hback
  | @manage env dopoll again s _ hph hm =>
    have hp := Sched.eventmanager_path (b := false) ha.repr hm
    cases again <;> simpa [round, hph] using hp
  | @dispatch s _ _ hph _ _ _ _ _ hdis =>
    have hp := Sched.dispatch_path (b := false) ha.repr hdis
    by_cases hcur : s.pthCurrent = none <;> simpa [round, hph, hcur] using hp
  | killed hsw =>
    have hround : { r with phase := .killed }.round = r.round := by simp [round, hsw]
    exact hround ▸ .refl _

/-- The queues of every state that the scheduler reaches without favoring a thread are
    reached by rounds. -/
theorem reach_rounds (h : machine.Reach Plain r) : Rounds.machine.Reachable r.round := by
  induction h with
  | init hinit =>
    obtain ⟨s, main, sched, now, hne, hlib, -, -⟩ := hinit
    exact .init ((Sched.pthInit_started s now hne).of_eq_some hlib).consistent.repr
  | step hr hplain hs ih =>
    obtain ⟨ops, hops⟩ := (Inv.reach hr).step_path hplain hs
    exact ih.steps hops

end Run

end Pth
