-- SUMMARY: The invariant of all runs and, for each operation, what it does to threads, queues and control.
import Pth.Sched.Machine
import Pth.Sched.Rounds
import Pth.Sched.Wakeup

/-!
# Effects of operations

`Inv` is what holds in every state of a run: queues and states agree, and whoever
is joined can be joined. Under it every operation has one of a few effects, which
say all that later proofs about steps need; an operation faults only if the event
manager stores a signal through a null pointer. -/

namespace Pth

open PrioList (keys)

/-- Whether `pth_current` is a thread that is in no queue. -/
def Phase.holds : Phase → Bool
  | .running | .switched | .exited _ | .killed => true
  | .manager _ | .top | .aborted => false

/-- Attributes do not concern a thread that waits. -/
theorem AttrSet.modify_steady {τ : Type*} [DecidableEq τ] (x : AttrSet) (s : Sched τ) (t u : τ) :
    (s.tcb u).Steady ((s.modify t x.write).tcb u) := by
  by_cases hu : u = t
  · subst hu
    cases x <;> exact ⟨by simp [write], by simp [write], by simp [write]⟩
  · simpa [hu] using (Tcb.Calm.refl _).steady

/-- What a thread may write to its own block as long as it does not terminate. -/
structure Tcb.Own {τ : Type*} (x y : Tcb τ) : Prop where
  prio : y.prio = x.prio
  sigpending : y.sigpending = x.sigpending
  sigpendcnt : y.sigpendcnt = x.sigpendcnt
  stackguard : y.stackguard = x.stackguard
  joinable : y.joinable = x.joinable
  joinArg : y.joinArg = x.joinArg
  state : y.state = x.state ∨ y.state = .waiting

theorem Tcb.Own.refl {τ : Type*} (x : Tcb τ) : x.Own x := ⟨rfl, rfl, rfl, rfl, rfl, rfl, .inl rfl⟩

theorem Tcb.Own.waits {τ : Type*} {x y : Tcb τ} (h : x.Own y) (evs : List (Event τ)) :
    x.Own { y with events := evs, state := .waiting } :=
  ⟨h.prio, h.sigpending, h.sigpendcnt, h.stackguard, h.joinable, h.joinArg, .inr rfl⟩

namespace Sched

variable {τ : Type*}

/-- `pth_cancel` does not wait for a cancellation point of the thread. -/
def asynchronous (x : Tcb τ) : Bool :=
  cancelEnable x.cancelstate && cancelAsynchronous x.cancelstate

variable [DecidableEq τ]

/-- The thread is in the queue of its state. -/
def inPlace (s : Sched τ) (t : τ) : Bool :=
  (placeOf (s.tcb t).state).any fun q => t ∈ s.queues.threads q

/-- `pth_cancel` finds the thread in the queue of its state and terminates it. -/
def cancelsNow (s : Sched τ) (t : τ) : Bool := asynchronous (s.tcb t) && s.inPlace t

/-- The request of a cancellation, which `pth_cancel` makes before it looks at the queues. -/
abbrev marked (s : Sched τ) (t : τ) : Sched τ :=
  s.modify t fun tcb => { tcb with cancelreq := true }

/-- The ways through `pth_cancel` of the thread `t`: it is refused, it makes the request and no
    more, or it finds the thread in its queue and terminates it. -/
inductive Cancels (s : Sched τ) (t : τ) : Ret → Sched τ → Prop
  | refused {e : Errno} (h : some t = s.pthCurrent ∨ (s.tcb t).state = .dead) :
    Cancels s t (.error e) s
  | missing (hcur : some t ≠ s.pthCurrent) (halive : (s.tcb t).state ≠ .dead)
      (hasync : asynchronous (s.tcb t) = true) (hplace : s.inPlace t = false) :
    Cancels s t (.error .ESRCH) (s.marked t)
  | marks (halive : (s.tcb t).state ≠ .dead) (hasync : asynchronous (s.tcb t) = false) :
    Cancels s t .ok (s.marked t)
  | buries {q : QId} {s₁ s' : Sched τ} (hnow : s.cancelsNow t = true)
      (hq : placeOf (s.tcb t).state = some q) (ht : t ∈ s.queues.threads q)
      (hj : (s.tcb t).joinable = true) (hdel : (s.marked t).delete q t = some s₁)
      (hins : (s₁.modify t fun tcb =>
        { tcb with joinArg := canceled, state := .dead }).insert .DQ prioStd t = some s') :
    Cancels s t .ok s'
  | frees {q : QId} {s₁ : Sched τ} (hnow : s.cancelsNow t = true)
      (hq : placeOf (s.tcb t).state = some q) (ht : t ∈ s.queues.threads q)
      (hj : (s.tcb t).joinable = false) (hdel : (s.marked t).delete q t = some s₁) :
    Cancels s t .ok (s₁.tcbFree t)

theorem cancel_spec {s : Sched τ} {a : QId → List (τ × ℤ)} (h : s.queues.Repr a) (t : τ) :
    (s.cancel (some t)).Ensures fun x => s.Cancels t x.1 x.2 := by
  simp only [Sched.cancel, modify_queues, h.contains, Option.bind_some, decide_eq_true_eq]
  split
  · next hc => exact Option.ensures_some.mpr (.refused (.inl hc))
  split
  · next hdead => exact Option.ensures_some.mpr (.refused (.inr hdead))
  next hcur halive =>
  split
  · next hasync =>
    split
    · next hq => exact Option.ensures_some.mpr (.missing hcur halive hasync (by simp [inPlace, hq]))
    · next q hq =>
      have hplace : s.inPlace t = decide (t ∈ keys (a q)) := by simp [inPlace, hq, h.threads]
      split
      · next ht =>
        have hnow : s.cancelsNow t = true := by simp [cancelsNow, asynchronous, hasync, hplace, ht]
        obtain ⟨qs, hqs, hr⟩ := h.delete ht
        obtain ⟨qs', hins, -⟩ := hr.insert (k := .DQ) prioStd (h.removed ht)
        obtain ⟨s₁, hdel, rfl, htcb⟩ : ∃ s₁, (s.marked t).delete q t = some s₁ ∧
            s₁.queues = qs ∧ s₁.tcb = (s.marked t).tcb := by
          simp [Sched.delete, hqs, noteDelete]
        rw [hdel, Option.bind_some]
        simp only [htcb, modify_tcb, if_true]
        split
        · next hj =>
          obtain ⟨s', hins⟩ : ∃ s', (s₁.modify t fun tcb =>
              { tcb with joinArg := canceled, state := .dead }).insert .DQ prioStd t = some s' := by
            simp [Sched.insert, hins]
          rw [hins]
          exact Option.ensures_some.mpr (.buries hnow hq (h.threads ▸ ht) hj hdel hins)
        · next hj =>
          have hj : (s.tcb t).joinable = false := by simpa using hj
          exact Option.ensures_some.mpr (.frees hnow hq (h.threads ▸ ht) hj hdel)
      · next ht =>
        exact Option.ensures_some.mpr (.missing hcur halive hasync (by simp [hplace, ht]))
  · next hasync => exact Option.ensures_some.mpr (.marks halive (Bool.eq_false_iff.mpr hasync))

theorem cancelsNow_refused {s : Sched τ} {a : QId → List (τ × ℤ)} {t : τ} (h : s.queues.Repr a)
    (hcur : s.pthCurrent = some t → ∀ k, t ∉ keys (a k))
    (href : some t = s.pthCurrent ∨ (s.tcb t).state = .dead) : s.cancelsNow t = false := by
  rcases href with hc | hdead
  · simp [cancelsNow, inPlace, h.threads, hcur hc.symm]
  · simp [cancelsNow, inPlace, hdead, placeOf]

end Sched

namespace Run

variable {τ : Type*}

/-- The thread in no queue: the current one, unless the scheduler has put it
    back. -/
def away (r : Run τ) : Set τ := { c | r.phase.holds ∧ r.lib.pthCurrent = some c }

structure Inv (r : Run τ) : Prop where
  consistent : ∃ a, r.lib.Consistent a r.away
  running : r.phase = .running → ∃ c, r.lib.pthCurrent = some c ∧ (r.lib.tcb c).state = .ready
  switched : r.phase = .switched → ∃ c, r.lib.pthCurrent = some c ∧
    ((r.lib.tcb c).state = .ready ∨ (r.lib.tcb c).state = .waiting ∨ (r.lib.tcb c).state = .dead)
  schedJoin : (r.lib.tcb r.lib.pthSched).joinable = false
  joinLive : ∀ {w u}, r.joins w u → r.lib.live u ∧ (r.lib.tcb u).joinable
  joinOne : ∀ {w w' u}, r.joins w u → r.joins w' u → w = w'

/-- The thread `u`, if there is one, can be joined and nobody joins it yet. -/
def Joinable (r : Run τ) (tid : Option τ) : Prop :=
  ∀ u, tid = some u → r.lib.live u ∧ (r.lib.tcb u).joinable ∧ ∀ w, ¬ r.joins w u

/-- The allocation for `pth_exit`, if the operation makes the running thread call it,
    be it through a cancellation point. -/
def exitCall (r : Run τ) : Op τ → Option (Option Time)
  | .exit _ alloc => some alloc
  | .cancelPoint alloc | .waitReturn alloc =>
    if r.lib.pthCurrent.any r.lib.cancelPending then some alloc else none
  | _ => none

/-- The operation makes the running thread call `pth_exit`, and this would not make
    the main thread wait. -/
def exitsAtOnce (r : Run τ) (op : Op τ) : Prop :=
  ∃ alloc, r.exitCall op = some alloc ∧ (r.lib.exitCb ∨ alloc = none)

/-- The thread whose state `pth_join` of the thread `c` reads after its wait. -/
def joinTarget (r : Run τ) (c : τ) : Option τ :=
  match r.pc c with
  | .joining tid => tid <|> r.lib.queues.head .DQ
  | _ => none

variable [DecidableEq τ]

/-- The thread that an operation terminates, and the value that it leaves for `pth_join`. -/
def lastWords (r : Run τ) : Op τ → Option (τ × ℤ)
  | .exit value _ => (r.lib.pthCurrent.filter (· ≠ r.lib.pthMain)).map fun c => (c, value)
  | .cancelPoint _ | .waitReturn _ =>
    (r.lib.pthCurrent.filter fun c => c ≠ r.lib.pthMain ∧ r.lib.cancelPending c).map
      fun c => (c, canceled)
  | .cancel (some t) => if r.lib.cancelsNow t then some (t, canceled) else none
  | .comeback _ .caught _ => r.lib.pthCurrent.map fun c => (c, Sched.overflowArg)
  | _ => none

/-- The block that an operation allocates. -/
def allocates : Op τ → Option τ
  | .spawn _ func alloc => if func = .null then none else alloc
  | _ => none

/-- The block that an operation passes to `pth_tcb_free`. -/
def frees (r : Run τ) : Op τ → Option τ
  | .cancel t => t.filter fun t => r.lib.cancelsNow t && !(r.lib.tcb t).joinable
  | .joinFinish => (r.lib.pthCurrent.bind r.joinTarget).filter fun t => (r.lib.tcb t).state = .dead
  | .comeback _ guard still =>
    if guard = .killed then none
    else r.lib.pthCurrent.filter fun c =>
      (Sched.backTcb (guard = .caught) still (r.lib.tcb c)).state = .dead &&
        !(r.lib.tcb c).joinable
  | _ => none

/-- The operation is one of the scheduler. -/
def isSched : Op τ → Bool
  | .comeback _ _ _ | .manage _ | .dispatch => true
  | _ => false

/-- The operation is one of the running thread that makes and frees no thread and takes none
    out of the suspended queue. -/
structure Quiet (r : Run τ) (op : Op τ) : Prop where
  sched : isSched op = false
  allocates : allocates op = none
  frees : r.frees op = none
  resume : ∀ t, op ≠ .resume t

/-- What the running thread `c` makes of its own block. -/
inductive Writes (r : Run τ) (op : Op τ) (c : τ) : Tcb τ → Prop
  | stays {y : Tcb τ} (hwords : r.lastWords op = none) (hy : (r.lib.tcb c).Own y)
    (hreq : c = r.lib.pthMain ∨ y.cancelreq = (r.lib.tcb c).cancelreq ∨ op = .unwind c) :
    Writes r op c y
  | exits {x : Tcb τ} {value : ℤ} (hwords : r.lastWords op = some (c, value))
    (hx : (r.lib.tcb c).Own x) : Writes r op c { x with joinArg := value, state := .dead }

/-- The calls that leave the running thread where it is, and what they make of the library's
    variables. -/
inductive Called (r : Run τ) : Op τ → Sched τ → Prop
  | stays {op : Op τ} (hq : r.Quiet op) (hwords : r.lastWords op = none) : Called r op r.lib
  | yield {t : Option τ} {x : Ret} {s : Sched τ} (hs : r.lib.yield t = some (x, s)) :
    Called r (.yield t) s
  | suspend {t : Option τ} {x : Ret} {s : Sched τ} (hs : r.lib.suspend t = some (x, s)) :
    Called r (.suspend t) s
  | resume {t : Option τ} {x : Ret} {s : Sched τ} (hs : r.lib.resume t = some (x, s)) :
    Called r (.resume t) s
  | cancel {t : Option τ} {x : Ret} {s : Sched τ} (hlive : t.all r.lib.live)
    (hs : r.lib.cancel t = some (x, s)) : Called r (.cancel t) s
  | raise {t : Option τ} {sig : ℤ} {act : SigAction} {x : Ret} {b : Bool} {s : Sched τ}
    (hs : r.lib.raise t sig act = some (x, b, s)) : Called r (.raise t sig act) s
  | favournew (b : Bool) : Called r (.favournew b) { r.lib with favournew := b }
  | objects (o : Objects) : Called r (.objects o) { r.lib with objects := o }

/-- What an operation does, under the invariant. -/
inductive Effect (r : Run τ) : Op τ → Out τ → Run τ → Prop
  /-- A call that leaves the other threads calm and may switch. -/
  | call {op : Op τ} {o : Out τ} {s : Sched τ} {ph : Phase} {c : τ} {a : QId → List (τ × ℤ)}
    (hrun : r.phase = .running) (hc : r.lib.pthCurrent = some c) (hcalm : r.lib.Calm s)
    (hst : (s.tcb c).state = (r.lib.tcb c).state) (hcons : s.Consistent a {c})
    (hph : ph = .running ∨ ph = .switched) (ho : ∀ ring n, o ≠ .waited ring n)
    (hcall : r.Called op s) : Effect r op o { r with lib := s, phase := ph }
  | spawn {attr : Option Attr} {s : Sched τ} {t c : τ} {a : QId → List (τ × ℤ)}
    (hrun : r.phase = .running) (hc : r.lib.pthCurrent = some c) (hpc : r.pc c = .user)
    (ht : r.lib.live t = false) (hs : (r.lib.created attr .user t).OffQueues s)
    (hcons : s.Consistent a {c}) (hspawn : r.lib.spawn attr .user (some t) = some (.ok t, s)) :
    Effect r (.spawn attr .user (some t)) (.spawned (.ok t))
      { r with lib := s, pc := Function.update r.pc t .user }
  /-- The running thread changes its own block and goes on. -/
  | keep {op : Op τ} {o : Out τ} {c : τ} {f : Tcb τ → Tcb τ} {p : Pc τ}
    (hrun : r.phase = .running) (hc : r.lib.pthCurrent = some c)
    (hst : (f (r.lib.tcb c)).state = (r.lib.tcb c).state)
    (hj : (f (r.lib.tcb c)).joinable = (r.lib.tcb c).joinable)
    (hp : p = .user ∨ ∃ tid, p = .joining tid ∧ r.Joinable tid)
    (ho : ∀ ring n, o ≠ .waited ring n) (hq : r.Quiet op)
    (hw : r.Writes op c (f (r.lib.tcb c))) :
    Effect r op o { lib := r.lib.modify c f, pc := Function.update r.pc c p, phase := .running }
  /-- The running thread waits for events that are all pending. -/
  | wait {op : Op τ} {o : Out τ} {c : τ} {f : Tcb τ → Tcb τ} {k : Cont τ}
    (hrun : r.phase = .running) (hc : r.lib.pthCurrent = some c)
    (hst : (f (r.lib.tcb c)).state = .waiting)
    (hj : (f (r.lib.tcb c)).joinable = (r.lib.tcb c).joinable)
    (hev : ∀ ev ∈ (f (r.lib.tcb c)).events, ev.evStatus = .pending)
    (hk : ∀ tid, k = .join tid → r.Joinable tid)
    (hexit : ∀ value, k = .exit value → c = r.lib.pthMain ∧
      ∃ tv, (f (r.lib.tcb c)).events = [{ evStatus := .pending, evArgs := .func .exitCb tv }])
    (ho : ∀ ring n, o ≠ .waited ring n) (hq : r.Quiet op)
    (hw : r.Writes op c (f (r.lib.tcb c))) :
    Effect r op o
      { lib := r.lib.modify c f, pc := Function.update r.pc c (.waiting k), phase := .switched }
  /-- `pth_wait` returns. -/
  | waitReturn {alloc : Option Time} {c : τ} {k : Cont τ} (hrun : r.phase = .running)
    (hc : r.lib.pthCurrent = some c) (hpc : r.pc c = .waiting k)
    (hcan : r.lib.cancelPending c = false) :
    Effect r (.waitReturn alloc) (.waited (r.lib.tcb c).events (nonpending (r.lib.tcb c).events))
      { r with
        lib := r.lib.modify c fun tcb => { tcb with events := [] }
        pc := Function.update r.pc c k.next }
  /-- The main thread goes on with `pth_exit` without waiting. -/
  | exits {op : Op τ} {o : Out τ} {f : Tcb τ → Tcb τ} {value : ℤ} (hrun : r.phase = .running)
    (hc : r.lib.pthCurrent = some r.lib.pthMain)
    (hst : (f (r.lib.tcb r.lib.pthMain)).state = (r.lib.tcb r.lib.pthMain).state)
    (hj : (f (r.lib.tcb r.lib.pthMain)).joinable = (r.lib.tcb r.lib.pthMain).joinable)
    (hop : r.exitsAtOnce op) (ho : ∀ ring n, o ≠ .waited ring n) (hq : r.Quiet op)
    (hw : r.Writes op r.lib.pthMain (f (r.lib.tcb r.lib.pthMain))) :
    Effect r op o { r with
      lib := r.lib.modify r.lib.pthMain f
      pc := Function.update r.pc r.lib.pthMain (.exiting value) }
  | dies {op : Op τ} {o : Out τ} {c : τ} {f : Tcb τ → Tcb τ} (hrun : r.phase = .running)
    (hc : r.lib.pthCurrent = some c) (hmain : c ≠ r.lib.pthMain)
    (hst : (f (r.lib.tcb c)).state = .dead)
    (hj : (f (r.lib.tcb c)).joinable = (r.lib.tcb c).joinable)
    (ho : ∀ ring n, o ≠ .waited ring n) (hq : r.Quiet op)
    (hw : r.Writes op c (f (r.lib.tcb c))) :
    Effect r op o
      { lib := r.lib.modify c f, pc := Function.update r.pc c .user, phase := .switched }
  /-- The running thread changes an attribute of a thread, which may be itself. -/
  | attr {x : AttrSet} {t c : τ} (hrun : r.phase = .running) (hc : r.lib.pthCurrent = some c)
    (ht : r.lib.live t)
    (hx : x.isJoinable →
      t ≠ r.lib.pthSched ∧ (r.lib.tcb t).state ≠ .dead ∧ r.unjoined (some t)) :
    Effect r (.attr t x) (.ret .ok) { r with lib := r.lib.modify t x.write }
  | joined {s : Sched τ} {c u : τ} {a : QId → List (τ × ℤ)}
    (hrun : r.phase = .running) (hc : r.lib.pthCurrent = some c)
    (hu : (r.lib.tcb u).state = .dead) (hs : (r.lib.tcbFree u).OffQueues s)
    (hcons : s.Consistent a {c}) (hw : ∀ w, r.joins w u → w = c)
    (htarget : r.joinTarget c = some u) (hmem : u ∈ r.lib.queues.threads .DQ)
    (hdel : ∃ s₀, r.lib.delete .DQ u = some s₀ ∧ s.queues = s₀.queues) :
    Effect r .joinFinish (.joined (r.lib.tcb u).joinArg)
      { r with lib := s, pc := Function.update r.pc c .user }
  | comeback {now : Time} {guard : Guard} {still : SigSet} {s : Sched τ} {c : τ}
    {a : QId → List (τ × ℤ)} (hsw : r.phase = .switched) (hc : r.lib.pthCurrent = some c)
    (hcons : s.Consistent a ∅) (hb : r.lib.Back c (guard = .caught) still s)
    (hguard : guard ≠ .killed)
    (hback : r.lib.comeback c now (guard = .caught) still = some s) :
    Effect r (.comeback now guard still) .none { r with lib := s, phase := .manager s.polls }
  | manage {env : Env τ} {dopoll b : Bool} {s : Sched τ} {a : QId → List (τ × ℤ)}
    (hph : r.phase = .manager dopoll) (hm : r.lib.eventmanager env dopoll = some (b, s))
    (ha : r.lib.Consistent a ∅)
    (hcons : s.Consistent (Sched.rearranged a [] (a .WQ) s.tcb) ∅)
    (hp : r.lib.Passed (keys (a .WQ)) s) :
    Effect r (.manage env) .none
      { r with lib := s, phase := if b then .manager false else .top }
  | dispatch {s : Sched τ} {a a' : QId → List (τ × ℤ)} (hph : r.phase = .top)
    (ha : r.lib.Consistent a ∅) (hd : r.lib.Drained a s)
    (hcur : s.pthCurrent = (keys (Sched.drained r.lib.favournew a .RQ)).head?)
    (hready : ∀ c, s.pthCurrent = some c → (s.tcb c).state = .ready)
    (hcons : s.Consistent a' { u | s.pthCurrent = some u }) (hdis : r.lib.dispatch = some s) :
    Effect r .dispatch .none
      { r with lib := s, phase := if s.pthCurrent = none then .aborted else .running }
  | exited {c : τ} {value : ℤ} (hrun : r.phase = .running) (hc : r.lib.pthCurrent = some c)
    (hpc : r.pc c = .exiting value) :
    Effect r .exitFinish .none { r with phase := .exited value }
  | killed {now : Time} {still : SigSet} (hsw : r.phase = .switched) :
    Effect r (.comeback now .killed still) .none { r with phase := .killed }

variable {r : Run τ}

omit [DecidableEq τ] in
/-- The current thread is in no queue. -/
theorem Inv.apart {c : τ} (h : r.Inv) (hph : r.phase.holds) (hc : r.lib.pthCurrent = some c) :
    ∃ a, r.lib.Consistent a {c} := by
  obtain ⟨a, ha⟩ := h.consistent
  exact ⟨a, ha.congr (by simp [away, hph, hc, eq_comm])⟩

omit [DecidableEq τ] in
/-- All threads are in queues. -/
theorem Inv.together (h : r.Inv) (hph : r.phase.holds = false) :
    ∃ a, r.lib.Consistent a ∅ := by
  obtain ⟨a, ha⟩ := h.consistent
  exact ⟨a, ha.congr (by simp [away, hph])⟩

omit [DecidableEq τ] in
/-- The running thread is ready and in no queue. -/
theorem Inv.atRunning (h : r.Inv) (hrun : r.phase = .running) :
    ∃ c a, r.lib.pthCurrent = some c ∧ (r.lib.tcb c).state = .ready ∧
      r.lib.Consistent a {c} := by
  obtain ⟨c, hc, hst⟩ := h.running hrun
  obtain ⟨a, ha⟩ := h.apart (by simp [hrun, Phase.holds]) hc
  exact ⟨c, a, hc, hst, ha⟩

omit [DecidableEq τ] in
theorem Inv.current {c : τ} (h : r.Inv) (hrun : r.phase = .running)
    (hc : r.lib.pthCurrent = some c) :
    (r.lib.tcb c).state = .ready ∧ ∃ a, r.lib.Consistent a {c} := by
  obtain ⟨c', a, hc', hst, ha⟩ := h.atRunning hrun
  obtain rfl : c = c' := by simpa [hc] using hc'
  exact ⟨hst, a, ha⟩

/-- A call that leaves the running thread and the queues alone. -/
theorem Inv.effect_calm {op : Op τ} {o : Out τ} {s : Sched τ} (h : r.Inv)
    (hrun : r.phase = .running) (hcalm : r.lib.Calm s) (htcb : s.tcb = r.lib.tcb)
    (hcons : ∀ {a H}, r.lib.Consistent a H → s.Consistent a H)
    (ho : ∀ ring n, o ≠ .waited ring n) (hcall : r.Called op s) :
    Effect r op o { r with lib := s } := by
  obtain ⟨c, a, hc, -, ha⟩ := h.atRunning hrun
  have heff : Effect r op o { r with lib := s, phase := .running } :=
    .call hrun hc hcalm (by rw [htcb]) (hcons ha) (.inl rfl) ho hcall
  rwa [← hrun] at heff

/-- A call that changes nothing. -/
theorem Inv.effect_stay {op : Op τ} {o : Out τ} (h : r.Inv) (hrun : r.phase = .running)
    (ho : ∀ ring n, o ≠ .waited ring n) (hq : r.Quiet op) (hwords : r.lastWords op = none) :
    Effect r op o r :=
  h.effect_calm hrun (.refl r.lib) rfl id ho (.stays hq hwords)

/-- The running thread goes on elsewhere. -/
theorem effect_setPc {op : Op τ} {o : Out τ} {c : τ} {p : Pc τ} (hrun : r.phase = .running)
    (hc : r.lib.pthCurrent = some c)
    (hp : p = .user ∨ ∃ tid, p = .joining tid ∧ r.Joinable tid)
    (ho : ∀ ring n, o ≠ .waited ring n) (hq : r.Quiet op) (hwords : r.lastWords op = none) :
    Effect r op o (r.setPc c p) := by
  have heff : Effect r op o
      { lib := r.lib.modify c fun x => x, pc := Function.update r.pc c p, phase := .running } :=
    .keep hrun hc rfl rfl hp ho hq (.stays hwords (.refl _) (.inr (.inl rfl)))
  rw [Sched.modify_id, ← hrun] at heff
  exact heff

/-- A library function that keeps the invariant and returns. -/
theorem Inv.returns {op : Op τ} {c : τ} {x : Option (Ret × Sched τ)} (hrun : r.phase = .running)
    (hc : r.lib.pthCurrent = some c)
    (hx : x.Ensures fun y => (∃ a, y.2.Consistent a {c}) ∧ r.lib.Calm y.2 ∧
      (y.2.tcb c).state = (r.lib.tcb c).state)
    (hcall : ∀ ret s, x = some (ret, s) → r.Called op s) :
    (r.returns x).Ensures fun y => Effect r op y.1 y.2 := by
  obtain ⟨⟨ret, s⟩, heq, ⟨a, ha⟩, hcalm, hst⟩ := hx
  have heff : Effect r op (.ret ret) { r with lib := s, phase := .running } :=
    .call hrun hc hcalm hst ha (.inl rfl) (by simp) (hcall ret s heq)
  rw [← hrun] at heff
  exact ⟨_, by rw [Run.returns, heq]; rfl, heff⟩

/-- A library function that only moves threads between the queues and returns. -/
theorem Inv.returns_offQueues {op : Op τ} {c : τ} {x : Option (Ret × Sched τ)}
    (hrun : r.phase = .running) (hc : r.lib.pthCurrent = some c)
    (hx : x.Ensures fun y => (∃ a, y.2.Consistent a {c}) ∧ r.lib.OffQueues y.2)
    (hcall : ∀ ret s, x = some (ret, s) → r.Called op s) :
    (r.returns x).Ensures fun y => Effect r op y.1 y.2 := by
  refine Inv.returns hrun hc ?_ hcall
  apply hx.mono
  rintro y ⟨ha, ho⟩
  exact ⟨ha, ho.calm, by rw [ho.tcb]⟩

/-- Calling `pth_exit` neither makes nor frees a thread. -/
theorem quiet_of_exitCall {op : Op τ} {alloc : Option Time}
    (hop : r.exitCall op = some alloc) : r.Quiet op := by
  cases op with
  | exit | cancelPoint | waitReturn => exact ⟨rfl, rfl, rfl, by simp⟩
  | _ => cases hop

/-- `pth_exit` of the running thread, after its block has changed by `f`. -/
theorem effect_doExit {op : Op τ} {o : Out τ} {c : τ} {f : Tcb τ → Tcb τ} {alloc : Option Time}
    {value : ℤ} (hrun : r.phase = .running) (hc : r.lib.pthCurrent = some c)
    (hf : (r.lib.tcb c).Own (f (r.lib.tcb c)))
    (hst : (f (r.lib.tcb c)).state = (r.lib.tcb c).state) (hop : r.exitCall op = some alloc)
    (hwords : r.lastWords op = if c = r.lib.pthMain then none else some (c, value))
    (ho : ∀ ring n, o ≠ .waited ring n) :
    Effect r op o ({ r with lib := r.lib.modify c f }.doExit c value alloc) := by
  have hq := quiet_of_exitCall hop
  unfold Run.doExit
  split
  · next hmain =>
    obtain rfl : c = r.lib.pthMain := hmain
    have hwords : r.lastWords op = none := by rw [hwords, if_pos rfl]
    split
    · next hcb =>
      exact .exits hrun hc hst hf.joinable ⟨alloc, hop, .inl hcb⟩ ho hq
        (.stays hwords hf (.inl rfl))
    · split
      · exact .exits hrun hc hst hf.joinable ⟨_, hop, .inr rfl⟩ ho hq
          (.stays hwords hf (.inl rfl))
      · next tv =>
        simp only [startWait, Sched.modify_modify]
        exact .wait hrun hc rfl hf.joinable (by simp) (by simp) (fun _ _ => ⟨rfl, tv, by simp⟩) ho
          hq (.stays hwords (hf.waits _) (.inl rfl))
  · next hmain =>
    have hmain : c ≠ r.lib.pthMain := hmain
    have hwords : r.lastWords op = some (c, value) := by rw [hwords, if_neg hmain]
    simp only [Sched.modify_modify]
    exact .dies hrun hc hmain rfl hf.joinable ho hq (.exits hwords hf)

theorem effect_doCancel {op : Op τ} {o : Out τ} {c : τ} {alloc : Option Time}
    (hrun : r.phase = .running) (hc : r.lib.pthCurrent = some c)
    (hop : r.exitCall op = some alloc)
    (hwords : r.lastWords op = if c = r.lib.pthMain then none else some (c, canceled))
    (ho : ∀ ring n, o ≠ .waited ring n) : Effect r op o (r.doCancel c alloc) :=
  effect_doExit hrun hc ⟨rfl, rfl, rfl, rfl, rfl, rfl, .inl rfl⟩ rfl hop hwords ho

theorem effect_waitReturn {c : τ} {k : Cont τ} (hrun : r.phase = .running)
    (hc : r.lib.pthCurrent = some c) (hpc : r.pc c = .waiting k) (alloc : Option Time) :
    Effect r (.waitReturn alloc) (r.waitReturn c k alloc).1 (r.waitReturn c k alloc).2 := by
  unfold Run.waitReturn
  split
  · next hcan =>
    refine effect_doCancel hrun hc (by simp [exitCall, hc, hcan]) ?_ (by simp)
    by_cases hmain : c = r.lib.pthMain <;> simp [lastWords, hc, hcan, hmain]
  · next hcan => exact .waitReturn hrun hc hpc (by simpa using hcan)

/-- `pth_join` up to its wait. -/
theorem Inv.effect_join {c : τ} {tid : Option τ} {alloc : Bool} (h : r.Inv)
    (hrun : r.phase = .running) (hc : r.lib.pthCurrent = some c)
    (hlive : ∀ u, tid = some u → r.lib.live u)
    (hone : r.unjoined (tid <|> r.lib.queues.head .DQ)) :
    Effect r (.join tid alloc) (r.join c tid alloc).1 (r.join c tid alloc).2 := by
  obtain ⟨a, ha⟩ := h.consistent
  have hq : r.Quiet (.join tid alloc) := ⟨rfl, rfl, rfl, by simp⟩
  have hstay : ∀ e, Effect r (.join tid alloc) (.ret (.error e)) r :=
    fun e => h.effect_stay hrun (by simp) hq rfl
  unfold Run.join
  split
  · exact hstay _
  · split
    · exact hstay _
    · next hj =>
      split
      · exact hstay _
      · have hjoin : r.Joinable (tid <|> r.lib.queues.head .DQ) := by
          intro u hu
          cases tid with
          | none =>
            have hmem : u ∈ keys (a .DQ) := List.mem_of_mem_head? (ha.repr.head ▸ hu)
            exact ⟨ha.live hmem, (ha.fits hmem).2, hone u hu⟩
          | some v =>
            obtain rfl : v = u := by simpa using hu
            exact ⟨hlive v rfl, by simpa using hj, hone v rfl⟩
        dsimp only
        split
        · exact .wait hrun hc rfl rfl (by simp) (by simpa using hjoin) (by simp) (by simp) hq
            (.stays rfl ((Tcb.Own.refl _).waits _) (.inr (.inl rfl)))
        · exact effect_setPc hrun hc (.inr ⟨_, rfl, hjoin⟩) (by simp) hq rfl

omit [DecidableEq τ] in
/-- A thread that is dead, but joined, is in the dead queue. -/
theorem Inv.joined_mem {c u : τ} {a : QId → List (τ × ℤ)} (h : r.Inv)
    (ha : r.lib.Consistent a {c}) (hst : (r.lib.tcb c).state = .ready) (hj : r.joins c u)
    (hu : (r.lib.tcb u).state = .dead) : u ∈ keys (a .DQ) := by
  obtain ⟨hlive, hjoinable⟩ := h.joinLive hj
  have hsched : u ≠ r.lib.pthSched := by
    rintro rfl
    simp [h.schedJoin] at hjoinable
  have haway : u ∉ ({c} : Set τ) := by
    rintro rfl
    simp [hst] at hu
  obtain ⟨k, hk⟩ := ha.queued hlive hsched haway
  obtain rfl := (ha.fits hk).queue_eq_dead hu
  exact hk

/-- The rest of `pth_join`. -/
theorem Inv.effect_joinFinish {c : τ} {tid : Option τ} (h : r.Inv) (hrun : r.phase = .running)
    (hc : r.lib.pthCurrent = some c) (hpc : r.pc c = .joining tid)
    (hone : tid = none → r.unjoined (r.lib.queues.head .DQ)) :
    (r.joinFinish c tid).Ensures fun x => Effect r .joinFinish x.1 x.2 := by
  obtain ⟨hst, a, ha⟩ := h.current hrun hc
  have htarget : r.joinTarget c = (tid <|> r.lib.queues.head .DQ) := by simp [joinTarget, hpc]
  have hfail : (∀ u, r.joinTarget c = some u → (r.lib.tcb u).state ≠ .dead) →
      Effect r .joinFinish (.ret (.error Errno.EIO)) (r.setPc c .user) := by
    intro hnone
    have hfrees : r.frees .joinFinish = none := by simpa [frees, hc] using hnone
    exact effect_setPc hrun hc (.inl rfl) (by simp) ⟨rfl, rfl, hfrees, by simp⟩ rfl
  unfold Run.joinFinish
  split
  · next hnone => exact Option.ensures_some.mpr (hfail (by simp [htarget, hnone]))
  · next u hu =>
    split
    · next hlives => exact Option.ensures_some.mpr (hfail (by simpa [htarget, hu] using hlives))
    · next hdead =>
      have hdead : (r.lib.tcb u).state = .dead := by simpa using hdead
      have hmem : u ∈ keys (a .DQ) ∧ ∀ w, r.joins w u → w = c := by
        cases tid with
        | none =>
          refine ⟨List.mem_of_mem_head? (ha.repr.head ▸ hu), fun w hw => ?_⟩
          exact absurd hw (hone rfl u hu w)
        | some v =>
          obtain rfl : v = u := by simpa using hu
          have hj : r.joins c v := ⟨(ha.awayLive rfl).1, by simp [hst], .inr hpc⟩
          exact ⟨h.joined_mem ha hst hj hdead, fun w hw => h.joinOne hw hj⟩
      have huc : u ≠ c := by
        rintro rfl
        simp [hst] at hdead
      obtain ⟨s, hdel, hs, ho⟩ := ha.delete hmem.1
      have hfree : (s.tcbFree u).Consistent _ {c} :=
        (hs.tcbFree (Set.mem_insert u {c})).congr (by grind)
      rw [hdel]
      exact Option.ensures_some.mpr (.joined hrun hc hdead ho.tcbFree hfree hmem.2
        (htarget.trans hu) (by rw [ha.repr.threads]; exact hmem.1) ⟨s, hdel, rfl⟩)

/-! ## The operations one by one -/

/-- The operation does not fault and has one of the effects. -/
def HasEffect (r : Run τ) (op : Op τ) : Prop := (r.exec op).Ensures fun x => Effect r op x.1 x.2

/-- `pth_spawn`, with a block that is free. -/
theorem Inv.exec_spawn {attr : Option Attr} {func : StartFunc} {alloc : Option τ} (h : r.Inv)
    (hen : r.enabled (.spawn attr func alloc)) : r.HasEffect (.spawn attr func alloc) := by
  obtain ⟨⟨hrun, hpc⟩, hfunc, halloc⟩ := hen
  obtain ⟨c, a, hc, -, ha⟩ := h.atRunning hrun
  have hpc : r.pc c = .user := by simpa [hc] using hpc
  have hnot : func ≠ .scheduler := by rcases hfunc with rfl | rfl <;> simp
  have hfree : ∀ t, alloc = some t → r.lib.live t = false := by
    rintro t rfl
    simpa using halloc
  obtain ⟨⟨x, s⟩, hs, ⟨a', ha'⟩, hx⟩ := ha.spawn attr hnot alloc hfree
  simp only [HasEffect, exec, hs, Option.map_some, Option.ensures_some]
  cases x with
  | ok t =>
    obtain ⟨rfl, ho⟩ := hx
    obtain rfl : func = .user := hfunc.resolve_right fun hnull => by
      simp [Sched.spawn, hnull] at hs
    exact .spawn hrun hc hpc (hfree t rfl) ho ha' hs
  | error e =>
    obtain rfl : s = r.lib := hx
    have hnone : allocates (.spawn attr func alloc) = none := by
      rcases hfunc with rfl | rfl
      · cases alloc with
        | none => rfl
        | some t =>
          simp only [Sched.spawn, reduceCtorEq, if_false] at hs
          obtain ⟨s₁, -, heq⟩ := Option.map_eq_some_iff.mp hs
          simp at heq
      · rfl
    exact h.effect_stay hrun (by simp) ⟨rfl, hnone, rfl, by simp⟩ rfl

theorem Inv.exec_yield {t : Option τ} (h : r.Inv) (hen : r.enabled (.yield t)) :
    r.HasEffect (.yield t) := by
  obtain ⟨⟨hrun, -⟩, -⟩ := hen
  obtain ⟨c, a, hc, -, ha⟩ := h.atRunning hrun
  obtain ⟨⟨x, s⟩, hs, ⟨a', ha'⟩, ho⟩ := ha.yield t
  simp only [HasEffect, exec, hs, Option.map_some, Option.ensures_some]
  refine .call hrun hc ho.calm (by rw [ho.tcb]) ha' ?_ (by simp) (.yield hs)
  split
  · exact .inr rfl
  · exact .inl hrun

theorem Inv.exec_wait {ring : List (Event τ)} (h : r.Inv) (hen : r.enabled (.wait ring)) :
    r.HasEffect (.wait ring) := by
  obtain ⟨hrun, -⟩ := hen
  obtain ⟨c, a, hc, -, ha⟩ := h.atRunning hrun
  cases ring with
  | nil =>
    simp only [HasEffect, exec, Option.ensures_some]
    exact h.effect_stay hrun (by simp) ⟨rfl, rfl, rfl, by simp⟩ rfl
  | cons ev ring =>
    simp only [HasEffect, exec, hc, Option.ensures_some]
    exact .wait hrun hc rfl rfl (by simp) (by simp) (by simp) (by simp)
      ⟨rfl, rfl, rfl, by simp⟩ (.stays rfl ((Tcb.Own.refl _).waits _) (.inr (.inl rfl)))

theorem Inv.exec_waitReturn {alloc : Option Time} (h : r.Inv)
    (hen : r.enabled (.waitReturn alloc)) : r.HasEffect (.waitReturn alloc) := by
  obtain ⟨hrun, hpc⟩ := hen
  obtain ⟨c, a, hc, -, ha⟩ := h.atRunning hrun
  simp only [HasEffect, exec, hc, Option.any_some] at hpc ⊢
  split
  · next k hk => exact Option.ensures_some.mpr (effect_waitReturn hrun hc hk alloc)
  · next hk => simp_all

theorem Inv.exec_suspend {t : Option τ} (h : r.Inv) (hen : r.enabled (.suspend t)) :
    r.HasEffect (.suspend t) := by
  obtain ⟨⟨hrun, -⟩, -⟩ := hen
  obtain ⟨c, a, hc, -, ha⟩ := h.atRunning hrun
  simp only [HasEffect, exec]
  exact Inv.returns_offQueues hrun hc (ha.suspend t) fun _ _ => .suspend

theorem Inv.exec_resume {t : Option τ} (h : r.Inv) (hen : r.enabled (.resume t)) :
    r.HasEffect (.resume t) := by
  obtain ⟨⟨hrun, -⟩, -⟩ := hen
  obtain ⟨c, a, hc, -, ha⟩ := h.atRunning hrun
  simp only [HasEffect, exec]
  exact Inv.returns_offQueues hrun hc (ha.resume t) fun _ _ => .resume

theorem Inv.exec_cancel {t : Option τ} (h : r.Inv) (hen : r.enabled (.cancel t)) :
    r.HasEffect (.cancel t) := by
  obtain ⟨⟨hrun, -⟩, hlive⟩ := hen
  obtain ⟨c, a, hc, -, ha⟩ := h.atRunning hrun
  simp only [HasEffect, exec]
  refine Inv.returns hrun hc ?_ fun _ _ => .cancel hlive
  apply (ha.cancel t).mono
  rintro x ⟨ha', hcalm, hst⟩
  exact ⟨ha', hcalm, hst c rfl⟩

theorem Inv.exec_cancelState {n : ℕ} (h : r.Inv) (hen : r.enabled (.cancelState n)) :
    r.HasEffect (.cancelState n) := by
  obtain ⟨hrun, hpc⟩ := hen
  obtain ⟨c, a, hc, -, ha⟩ := h.atRunning hrun
  have hself : Function.update r.pc c .user = r.pc :=
    Function.update_eq_self_iff.mpr (by simpa [hc, eq_comm] using hpc)
  have heff : Effect r (.cancelState n) .none
      { lib := r.lib.modify c fun x => { x with cancelstate := n }
        pc := Function.update r.pc c .user
        phase := .running } :=
    .keep hrun hc rfl rfl (.inl rfl) (by simp) ⟨rfl, rfl, rfl, by simp⟩
      (.stays rfl ⟨rfl, rfl, rfl, rfl, rfl, rfl, .inl rfl⟩ (.inr (.inl rfl)))
  simp only [HasEffect, exec, hc, Option.ensures_some, Sched.setCancelState]
  split
  · rwa [hself, ← hrun] at heff
  · exact h.effect_stay hrun (by simp) ⟨rfl, rfl, rfl, by simp⟩ rfl

theorem Inv.exec_cancelPoint {alloc : Option Time} (h : r.Inv)
    (hen : r.enabled (.cancelPoint alloc)) : r.HasEffect (.cancelPoint alloc) := by
  obtain ⟨hrun, -⟩ := hen
  obtain ⟨c, a, hc, -, ha⟩ := h.atRunning hrun
  simp only [HasEffect, exec, hc, Option.ensures_some]
  split
  · next hcan =>
    refine effect_doCancel hrun hc (by simp [exitCall, hc, hcan]) ?_ (by simp)
    by_cases hmain : c = r.lib.pthMain <;> simp [lastWords, hc, hcan, hmain]
  · next hcan =>
    exact h.effect_stay hrun (by simp) ⟨rfl, rfl, rfl, by simp⟩ (by simp [lastWords, hc, hcan])

theorem exec_unwind {c : τ} (hen : r.enabled (.unwind c)) : r.HasEffect (.unwind c) := by
  obtain ⟨hrun, hc, -⟩ := hen
  have heff : Effect r (.unwind c) .none
      { lib := r.lib.modify c fun x => { x with cancelreq := false }
        pc := Function.update r.pc c .user
        phase := .running } :=
    .keep hrun hc rfl rfl (.inl rfl) (by simp) ⟨rfl, rfl, rfl, by simp⟩
      (.stays rfl ⟨rfl, rfl, rfl, rfl, rfl, rfl, .inl rfl⟩ (.inr (.inr rfl)))
  rw [← hrun] at heff
  simp only [HasEffect, exec, Option.ensures_some]
  exact heff

theorem Inv.exec_attr {t : τ} {x : AttrSet} (h : r.Inv) (hen : r.enabled (.attr t x)) :
    r.HasEffect (.attr t x) := by
  obtain ⟨⟨hrun, -⟩, hlive, hx⟩ := hen
  obtain ⟨c, a, hc, -, ha⟩ := h.atRunning hrun
  simp only [HasEffect, exec, Option.ensures_some]
  exact .attr hrun hc hlive hx

theorem Inv.exec_raise {t : Option τ} {sig : ℤ} {act : SigAction} (h : r.Inv)
    (hen : r.enabled (.raise t sig act)) : r.HasEffect (.raise t sig act) := by
  obtain ⟨⟨hrun, -⟩, -⟩ := hen
  obtain ⟨c, a, hc, -, ha⟩ := h.atRunning hrun
  obtain ⟨⟨x, b, s⟩, hs, ⟨a', ha'⟩, hcalm, hst⟩ := ha.raise t sig act
  simp only [HasEffect, exec, hs, Option.map_some, Option.ensures_some]
  refine .call hrun hc hcalm (hst c) ha' ?_ (by simp) (.raise hs)
  split
  · exact .inr rfl
  · exact .inl hrun

theorem Inv.exec_favournew {b : Bool} (h : r.Inv) (hen : r.enabled (.favournew b)) :
    r.HasEffect (.favournew b) := by
  simp only [HasEffect, exec, Option.ensures_some]
  exact h.effect_calm hen.1 { Sched.Calm.refl r.lib with } rfl (fun ha => { ha with }) (by simp)
    (.favournew b)

theorem Inv.exec_objects {o : Objects} (h : r.Inv) (hen : r.enabled (.objects o)) :
    r.HasEffect (.objects o) := by
  simp only [HasEffect, exec, Option.ensures_some]
  exact h.effect_calm hen { Sched.Calm.refl r.lib with } rfl (fun ha => { ha with }) (by simp)
    (.objects o)

theorem Inv.exec_exit {value : ℤ} {alloc : Option Time} (h : r.Inv)
    (hen : r.enabled (.exit value alloc)) : r.HasEffect (.exit value alloc) := by
  obtain ⟨hrun, -⟩ := hen
  obtain ⟨c, a, hc, -, ha⟩ := h.atRunning hrun
  have hwords : r.lastWords (.exit value alloc) =
      if c = r.lib.pthMain then none else some (c, value) := by
    by_cases hmain : c = r.lib.pthMain <;> simp [lastWords, hc, hmain]
  have heff := effect_doExit (f := fun x => x) hrun hc (.refl _) rfl
    (show r.exitCall (.exit value alloc) = some alloc from rfl) hwords
    (show ∀ ring n, (Out.none : Out τ) ≠ .waited ring n by simp)
  simp only [HasEffect, exec, hc, Option.ensures_some]
  rwa [Sched.modify_id] at heff

theorem Inv.exec_exitFinish (h : r.Inv) (hen : r.enabled .exitFinish) :
    r.HasEffect .exitFinish := by
  obtain ⟨hrun, hpc⟩ := hen
  obtain ⟨c, a, hc, -, ha⟩ := h.atRunning hrun
  simp only [HasEffect, exec, hc, Option.any_some] at hpc ⊢
  split
  · next value hv => exact Option.ensures_some.mpr (.exited hrun hc hv)
  · next hk => simp_all

theorem Inv.exec_join {tid : Option τ} {alloc : Bool} (h : r.Inv)
    (hen : r.enabled (.join tid alloc)) : r.HasEffect (.join tid alloc) := by
  obtain ⟨⟨hrun, -⟩, hlive, hone⟩ := hen
  obtain ⟨c, a, hc, -, ha⟩ := h.atRunning hrun
  simp only [HasEffect, exec, hc, Option.ensures_some]
  exact h.effect_join hrun hc (by rintro u rfl; simpa using hlive) hone

theorem Inv.exec_joinFinish (h : r.Inv) (hen : r.enabled .joinFinish) :
    r.HasEffect .joinFinish := by
  obtain ⟨hrun, hpc, hone⟩ := hen
  obtain ⟨c, a, hc, -, ha⟩ := h.atRunning hrun
  simp only [HasEffect, exec, hc, Option.any_some] at hpc hone ⊢
  split
  · next tid htid => exact h.effect_joinFinish hrun hc htid (by rintro rfl; simpa [htid] using hone)
  · next hk => simp_all

theorem Inv.exec_comeback {now : Time} {guard : Guard} {still : SigSet} (h : r.Inv)
    (hen : r.enabled (.comeback now guard still)) : r.HasEffect (.comeback now guard still) := by
  obtain ⟨hsw, -⟩ := hen
  obtain ⟨c, hc, hst⟩ := h.switched hsw
  obtain ⟨a, ha⟩ := h.apart (by simp [hsw, Phase.holds]) hc
  simp only [HasEffect, exec, hc]
  split
  · next hg =>
    subst hg
    exact Option.ensures_some.mpr (.killed hsw)
  · next hguard =>
    obtain ⟨s, hback, hcons, hb⟩ : (r.lib.comeback c now (guard = .caught) still).Ensures _ :=
      ha.comeback hc hst now still
    rw [hback]
    exact Option.ensures_some.mpr (.comeback hsw hc hcons hb hguard hback)

theorem Inv.exec_manage {env : Env τ} (h : r.Inv) (hen : r.enabled (.manage env))
    (hscan : Sched.scan env r.lib ≠ none) : r.HasEffect (.manage env) := by
  obtain ⟨dopoll, hph⟩ : ∃ b, r.phase = .manager b := by
    cases hph : r.phase <;> simp [enabled, hph, Phase.passes] at hen ⊢
  obtain ⟨⟨s₁, sc⟩, hsc⟩ := Option.ne_none_iff_exists'.mp hscan
  obtain ⟨a, ha⟩ := h.together (by simp [hph, Phase.holds])
  obtain ⟨⟨b, s⟩, hs, -, hcons, -, hp⟩ := ha.eventmanager hsc dopoll
  rw [HasEffect, exec_pass hph, hs]
  exact Option.ensures_some.mpr (.manage hph hs ha hcons hp)

theorem Inv.exec_dispatch (h : r.Inv) (hen : r.enabled .dispatch) : r.HasEffect .dispatch := by
  have hph : r.phase = .top := hen
  obtain ⟨a, ha⟩ := h.together (by simp [hph, Phase.holds])
  obtain ⟨s, hdis, hd, hcur, hready, hcons⟩ := ha.dispatch
  simp only [HasEffect, exec, hdis, Option.map_some, Option.ensures_some]
  exact .dispatch hph ha hd hcur hready (hcons.congr (by simp)) hdis

/-- An enabled operation has one of the effects, and it faults only if the event
    manager does. -/
theorem Inv.effect {op : Op τ} (h : r.Inv) (hen : r.enabled op)
    (hscan : ∀ env, op = .manage env → Sched.scan env r.lib ≠ none) : r.HasEffect op := by
  cases op with
  | spawn attr func alloc => exact h.exec_spawn hen
  | yield t => exact h.exec_yield hen
  | wait ring => exact h.exec_wait hen
  | waitReturn alloc => exact h.exec_waitReturn hen
  | suspend t => exact h.exec_suspend hen
  | resume t => exact h.exec_resume hen
  | cancel t => exact h.exec_cancel hen
  | cancelState n => exact h.exec_cancelState hen
  | cancelPoint alloc => exact h.exec_cancelPoint hen
  | unwind c => exact exec_unwind hen
  | attr t x => exact h.exec_attr hen
  | raise t sig act => exact h.exec_raise hen
  | favournew b => exact h.exec_favournew hen
  | objects o => exact h.exec_objects hen
  | exit value alloc => exact h.exec_exit hen
  | exitFinish => exact h.exec_exitFinish hen
  | join tid alloc => exact h.exec_join hen
  | joinFinish => exact h.exec_joinFinish hen
  | comeback now guard still => exact h.exec_comeback hen
  | manage env => exact h.exec_manage hen (hscan env rfl)
  | dispatch => exact h.exec_dispatch hen

end Run

end Pth
