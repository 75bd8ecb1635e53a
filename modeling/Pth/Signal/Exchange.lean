-- SUMMARY: The signals of a thread are pending for the process only while the thread runs.
import Pth.Sched.SigCount
import Pth.Signal.Process

/-!
# Thread signals

A signal that `pth_raise` sends to a thread is kept in the thread control block. Before the
scheduler switches to a thread, it raises the signals of the thread that are not pending for
the process already; when the thread comes back, the ones that are still pending are deleted
again, except for those that had been pending before. So the pending signals of the process
are its own, and while a thread runs, those of the thread. -/

namespace Pth

variable {τ : Type*}

namespace SigProcess

/-- Raise additionally thread-specific signals. The second result is the new
    `pth_sigpending`. -/
def raiseThread (p : SigProcess) (pthSigpending : SigSet) (x : Tcb τ) : SigProcess × SigSet :=
  if x.sigpendcnt > 0 then
    (signals.foldl (fun q n => if x.sigpending n && !p.pending n then q.kill n else q) p, p.pending)
  else (p, pthSigpending)

/-- One round of the loop that removes thread signals; `still` are the signals that are still
    pending. -/
def removeSignal (still pthSigpending : SigSet) (r : SigProcess × Tcb τ) (n : ℕ) :
    Option (SigProcess × Tcb τ) :=
  if r.2.sigpending n then
    -- thread (and perhaps also process) signal delivered
    if !still n then some (r.1, r.2.dropped n)
    -- thread signal not delivered
    else if !pthSigpending n then (r.1.utilSigdelete n).map fun x => (x.2, r.2)
    else some r
  else some r

/-- Remove still pending thread-specific signals. -/
def removeThread (p : SigProcess) (pthSigpending : SigSet) (x : Tcb τ) :
    Option (SigProcess × Tcb τ) :=
  if x.sigpendcnt > 0 then signals.foldlM (removeSignal p.pending pthSigpending) (p, x)
  else some (p, x)

/-- The part of `pth_sigwait` that looks for a signal that is already pending. -/
def sigwaitPending (p : SigProcess) (set : SigSet) : Option (Option ℕ × SigProcess) :=
  match signals.find? fun n => set n && p.pending n with
  | none => some (none, p)
  | some n => (p.utilSigdelete n).map fun r => (some n, r.2)

/-! ## Raising -/

variable {p q : SigProcess} {x y : Tcb τ} {ps : SigSet} {l : List ℕ}

theorem kill_pending (p : SigProcess) (n m : ℕ) :
    (p.kill n).pending m = (p.pending m || (m == n && p.mask n)) := by
  have := p.blocked m
  by_cases hm : m = n
  · subst hm
    simp [kill, settle]
    grind
  · simp [kill, settle, hm]
    grind

/-- What raising signals from a list does. -/
structure Raised (p : SigProcess) (l : List ℕ) (q : SigProcess) : Prop where
  mask : q.mask = p.mask
  action : q.action = p.action
  pending : ∀ n, q.pending n = (p.pending n || (decide (n ∈ l) && p.mask n))

theorem Raised.cons {n : ℕ} (h : Raised (p.kill n) l q) : Raised p (n :: l) q where
  mask := h.mask
  action := h.action
  pending m := by
    have hmask : (p.kill n).mask = p.mask := rfl
    rw [h.pending, kill_pending, hmask]
    by_cases hm : m = n
    · subst hm
      simp
      grind
    · simp [beq_eq_false_iff_ne.mpr hm, hm]

theorem foldl_kill {f : ℕ → Bool} (p : SigProcess) (l : List ℕ) :
    Raised p (l.filter f) (l.foldl (fun q n => if f n then q.kill n else q) p) := by
  induction l generalizing p with
  | nil => exact ⟨rfl, rfl, by simp⟩
  | cons n l ih =>
    rw [List.foldl_cons]
    by_cases hn : f n
    · rw [List.filter_cons_of_pos hn, if_pos hn]
      exact (ih _).cons
    · rw [List.filter_cons_of_neg hn, if_neg hn]
      exact ih p

theorem raiseThread_pending (p : SigProcess) (ps : SigSet) (x : Tcb τ) (n : ℕ)
    (h : (p.raiseThread ps x).1.pending n = true) :
    p.pending n = true ∨ (n ∈ signals ∧ x.sigpending n = true ∧ 0 < x.sigpendcnt) := by
  unfold raiseThread at h
  split at h
  · next hcnt =>
    rw [(foldl_kill p signals).pending] at h
    grind
  · exact .inl h

/-! ## Removing -/

/-- A signal of the loops that is pending can be deleted. -/
theorem utilSigdelete_pending {n : ℕ} (hn : n ∈ signals) (hp : p.pending n = true) :
    p.utilSigdelete n = some (true, p.without n) := by
  have hset : settable n = true := by
    have hmem := mem_signals.mp hn
    have hsys : n ∈ systemSignals := by
      simp only [systemSignals, List.mem_range'_1, nsig] at hmem ⊢
      omega
    simp [settable, hsys, p.pending_blockable hp]
  simp [utilSigdelete_eq, hp, hset]

theorem removeSignal_eq {still : SigSet} {n : ℕ} (hn : n ∈ signals) (hp : p.pending n = still n) :
    removeSignal still ps (p, x) n =
      some (if x.sigpending n && still n && !ps n then p.without n else p,
        if x.sigpending n && !still n then x.dropped n else x) := by
  unfold removeSignal
  cases hx : x.sigpending n <;> cases hs : still n <;> cases hps : ps n <;> simp
  exact .inr (utilSigdelete_pending hn (hp.trans hs))

/-- What removing the thread signals of a list does; `still` is pending before. -/
structure Removed (still ps : SigSet) (x : Tcb τ) (l : List ℕ) (p q : SigProcess) : Prop where
  mask : q.mask = p.mask
  action : q.action = p.action
  pending : ∀ n, q.pending n =
    (p.pending n && !(decide (n ∈ l) && x.sigpending n && still n && !ps n))
  handled : ∃ ns : List ℕ, q.handled = p.handled ++ ns.map fun n => (n, .nop)

/-- The loop never sleeps in `pth_util_sigdelete`, and what it leaves of the thread's signals
    are those that are still pending. -/
theorem removeSignals_removed {still : SigSet} (hl : l.Nodup) (hsub : ∀ n ∈ l, n ∈ signals)
    (hp : ∀ n ∈ l, p.pending n = still n) :
    ∃ q, l.foldlM (removeSignal still ps) (p, x) =
      some (q, l.foldl (fun y n => if y.sigpending n && !still n then y.dropped n else y) x) ∧
      Removed still ps x l p q := by
  induction l generalizing p x with
  | nil => exact ⟨p, rfl, rfl, rfl, by simp, [], by simp⟩
  | cons n l ih =>
    obtain ⟨hn, hl⟩ := List.nodup_cons.mp hl
    obtain ⟨hpn, hp⟩ := List.forall_mem_cons.mp hp
    obtain ⟨hsn, hsub⟩ := List.forall_mem_cons.mp hsub
    have hne : ∀ m ∈ l, m ≠ n := fun m hm hmn => hn (hmn ▸ hm)
    simp only [List.foldlM_cons, List.foldl_cons, removeSignal_eq hsn hpn, Option.bind_eq_bind,
      Option.bind_some]
    -- the signals that are left are as they were
    have hx : ∀ m ∈ l, (if x.sigpending n && !still n then x.dropped n else x).sigpending m =
        x.sigpending m := by
      intro m hm
      split
      · simp [Tcb.dropped, hne m hm]
      · rfl
    generalize (if x.sigpending n && !still n then x.dropped n else x) = y at hx
    split
    · next hdel =>
      have hp' : ∀ m ∈ l, (p.without n).pending m = still m := by
        intro m hm
        simp [without, hne m hm, hp m hm]
      obtain ⟨q, hq, hr⟩ := ih (x := y) hl hsub hp'
      obtain ⟨ns, hns⟩ := hr.handled
      refine ⟨q, hq, hr.mask, hr.action, fun m => ?_, n :: ns, by simp [hns, without]⟩
      rw [hr.pending]
      by_cases hm : m = n
      · subst hm
        simp [without, hdel]
      · have hmn : (m != n) = true := bne_iff_ne.mpr hm
        by_cases hml : m ∈ l
        · simp [without, hmn, hml, hx m hml]
        · simp [without, hmn, hm, hml]
    · next hkeep =>
      obtain ⟨q, hq, hr⟩ := ih (x := y) hl hsub hp
      refine ⟨q, hq, hr.mask, hr.action, fun m => ?_, hr.handled⟩
      rw [hr.pending]
      by_cases hm : m = n
      · subst hm
        simp [hn, hkeep]
      · by_cases hml : m ∈ l
        · simp [hml, hx m hml]
        · simp [hm, hml]

theorem removeThread_removed (p : SigProcess) (ps : SigSet) (x : Tcb τ) :
    ∃ q, p.removeThread ps x = some (q, Sched.dropDelivered p.pending x) ∧
      Removed p.pending ps x (if x.sigpendcnt > 0 then signals else []) p q := by
  unfold removeThread Sched.dropDelivered
  split
  · exact removeSignals_removed List.nodup_range' (fun _ h => h) fun _ _ => rfl
  · exact ⟨p, rfl, rfl, rfl, by simp, [], by simp⟩

/-- No new signal is pending. -/
def Shrinks (p q : SigProcess) : Prop := ∀ n, q.pending n = true → p.pending n = true

theorem shrinks_sigprocmask (how : SigHow) (set : Option SigSet) :
    p.Shrinks (p.sigprocmask how set) := by
  intro n hn
  simp only [sigprocmask, settle, Bool.and_eq_true] at hn
  exact hn.1

theorem shrinks_sigaction {n : ℕ} {h o : SigHandler} (hs : p.sigaction n h = some (o, q)) :
    p.Shrinks q := by
  intro m hm
  unfold sigaction at hs
  split at hs
  · simp only [Option.some.injEq, Prod.mk.injEq] at hs
    obtain ⟨-, rfl⟩ := hs
    simp only [Bool.and_eq_true] at hm
    exact hm.1
  · cases hs

theorem shrinks_utilSigdelete {n : ℕ} {b : Bool} (hs : p.utilSigdelete n = some (b, q)) :
    p.Shrinks q := by
  rw [utilSigdelete_eq, Option.some.injEq] at hs
  split at hs
  · cases hs
    intro m hm
    simp only [without, Bool.and_eq_true] at hm
    exact hm.1
  · cases hs
    exact fun _ hm => hm

theorem shrinks_sigwaitPending {set : SigSet} {o : Option ℕ}
    (hs : p.sigwaitPending set = some (o, q)) : p.Shrinks q := by
  unfold sigwaitPending at hs
  split at hs
  · cases hs
    exact fun _ hn => hn
  · obtain ⟨⟨b, q'⟩, hd, hq⟩ := Option.map_eq_some_iff.mp hs
    cases hq
    exact shrinks_utilSigdelete hd

end SigProcess

/-- A signal that is still pending stays a signal of the thread. -/
theorem Sched.dropDelivered_sigpending {still : SigSet} {n : ℕ} (hn : still n = true)
    (x : Tcb τ) : (dropDelivered still x).sigpending n = x.sigpending n := by
  unfold dropDelivered
  split
  · next hcnt =>
    clear hcnt
    generalize signals = l
    induction l generalizing x with
    | nil => rfl
    | cons m l ih =>
      rw [List.foldl_cons, ih]
      by_cases hm : m = n
      · simp [hm, hn]
      · split
        · simp [Ne.symm hm]
        · rfl
  · rfl

/-! ## Runs -/

/-- The signals of the process and of the threads, `pth_sigpending`, and the running thread,
    or the scheduler runs. `arrived` are the pending signals that have been sent to the
    process. -/
structure SigRun (τ : Type*) where
  proc : SigProcess
  pthSigpending : SigSet
  tcb : τ → Tcb τ
  current : Option τ
  arrived : SigSet

/-- A signal comes for the process; the running thread changes the mask or an action, calls
    `pth_sigwait` with a signal pending, or calls `pth_raise`; the scheduler switches to a
    thread and back; the event manager takes a signal of a waiting thread or of the process
    for an event; and a control block is initialised by `pth_spawn`. -/
inductive SigOp (τ : Type*) where
  | arrive (n : ℕ)
  | sigprocmask (how : SigHow) (set : Option SigSet)
  | sigaction (n : ℕ) (h : SigHandler)
  | sigwait (set : SigSet)
  | raise (t : τ) (n : ℕ)
  | dispatch (t : τ)
  | comeback
  | takeOwn (t : τ) (n : ℕ)
  | takeProcess (n : ℕ)
  | spawn (t : τ)

namespace SigRun

variable [DecidableEq τ] {s s' : SigRun τ}

/-- Go on with other signals of the process, among which `came` have just been sent. -/
def withProc (s : SigRun τ) (p : SigProcess) (came : SigSet) : SigRun τ :=
  { s with proc := p, arrived := fun n => (s.arrived n || came n) && p.pending n }

def modify (s : SigRun τ) (t : τ) (f : Tcb τ → Tcb τ) : SigRun τ :=
  { s with tcb := Function.update s.tcb t (f (s.tcb t)) }

/-- The scheduler switches to a thread. -/
def switchTo (s : SigRun τ) (t : τ) : SigRun τ :=
  let r := s.proc.raiseThread s.pthSigpending (s.tcb t)
  { s.withProc r.1 fun _ => false with pthSigpending := r.2, current := some t }

/-- The thread comes back, with what is left of its signals. -/
def switchBack (s : SigRun τ) (t : τ) (p : SigProcess) (x : Tcb τ) : SigRun τ :=
  { (s.withProc p fun _ => false).modify t fun _ => x with current := none }

def exec (s : SigRun τ) : SigOp τ → Option (Unit × SigRun τ)
  | .arrive n => some ((), s.withProc (s.proc.kill n) fun m => m == n)
  | .sigprocmask how set => some ((), s.withProc (s.proc.sigprocmask how set) fun _ => false)
  | .sigaction n h =>
    match s.proc.sigaction n h with
    | none => some ((), s)
    | some (_, p) => some ((), s.withProc p fun _ => false)
  | .sigwait set =>
    (s.proc.sigwaitPending set).map fun r => ((), s.withProc r.2 fun _ => false)
  | .raise t n => some ((), s.modify t fun x => x.raised n)
  | .dispatch t => some ((), s.switchTo t)
  | .comeback =>
    s.current.bind fun t =>
      (s.proc.removeThread s.pthSigpending (s.tcb t)).map fun r => ((), s.switchBack t r.1 r.2)
  | .takeOwn t n => some ((), s.modify t fun x => x.dropped n)
  | .takeProcess n =>
    (s.proc.utilSigdelete n).map fun r => ((), s.withProc r.2 fun _ => false)
  | .spawn t => some ((), s.modify t fun x =>
      { x with sigpending := fun _ => false, sigpendcnt := 0 })

/-- Calls are made by the running thread, which does not raise signals for itself. -/
def enabled (s : SigRun τ) : SigOp τ → Prop
  | .arrive n => n ∈ systemSignals
  | .sigprocmask _ _ | .sigaction _ _ | .sigwait _ | .comeback => s.current ≠ none
  | .raise t n => s.current ≠ none ∧ s.current ≠ some t ∧ 1 ≤ n ∧ n ≤ nsig
  | .dispatch _ => s.current = none
  | .takeOwn t n => s.current = none ∧ n ∈ signals ∧ (s.tcb t).sigpending n = true
  | .takeProcess n => s.current = none ∧ n ∈ signals ∧ s.proc.pending n = true
  | .spawn t => s.current ≠ some t

/-- No thread has signals, and those of the process have been sent to it. -/
def init (s : SigRun τ) : Prop :=
  s.current = none ∧ s.arrived = s.proc.pending ∧
    ∀ t, (s.tcb t).sigpendcnt = 0 ∧ ∀ n, (s.tcb t).sigpending n = false

def machine : Machine (SigRun τ) (SigOp τ) Unit where
  init := init
  enabled := enabled
  exec := exec

/-! ## The invariant -/

/-- The pending signals of the process are its own or those of the running thread, and those
    that have been saved at the last switch are its own. -/
structure Inv (s : SigRun τ) : Prop where
  counted : ∀ t, (s.tcb t).Counted
  process : s.current = none → ∀ n, s.proc.pending n = true → s.arrived n = true
  thread : ∀ t, s.current = some t → ∀ n, s.proc.pending n = true →
    s.arrived n = true ∨ (n ∈ signals ∧ (s.tcb t).sigpending n = true)
  saved : ∀ t, s.current = some t → 0 < (s.tcb t).sigpendcnt → ∀ n,
    s.proc.pending n = true → s.pthSigpending n = true → s.arrived n = true

omit [DecidableEq τ] in
theorem Inv.init (h : s.init) : s.Inv where
  counted t := by
    obtain ⟨-, -, htcb⟩ := h
    have hset : (s.tcb t).sigpending = fun _ => false := funext (htcb t).2
    unfold Tcb.Counted
    rw [hset, (htcb t).1]
    exact .empty
  process _ n hn := by rwa [h.2.1]
  thread t ht := by simp [h.1] at ht
  saved t ht := by simp [h.1] at ht

omit [DecidableEq τ] in
theorem Inv.withProc {p : SigProcess} {came : SigSet} (h : s.Inv)
    (hp : ∀ n, p.pending n = true → s.proc.pending n = true ∨ came n = true) :
    (s.withProc p came).Inv where
  counted := h.counted
  process hc n hn := by
    have := h.process hc n
    have := hp n hn
    grind [SigRun.withProc]
  thread t hc n hn := by
    have := h.thread t hc n
    have := hp n hn
    grind [SigRun.withProc]
  saved t hc hcnt n hn hsav := by
    have := h.saved t hc hcnt n
    have := hp n hn
    grind [SigRun.withProc]

omit [DecidableEq τ] in
theorem Inv.shrinks {p : SigProcess} (h : s.Inv) (hp : s.proc.Shrinks p) :
    (s.withProc p fun _ => false).Inv :=
  h.withProc fun n hn => .inl (hp n hn)

/-- Changing the signals of a thread that does not run. -/
theorem Inv.modify {t : τ} {f : Tcb τ → Tcb τ} (h : s.Inv) (ht : s.current ≠ some t)
    (hf : (f (s.tcb t)).Counted) : (s.modify t f).Inv where
  counted u := by
    by_cases hu : u = t
    · subst hu
      simpa [SigRun.modify] using hf
    · simpa [SigRun.modify, hu] using h.counted u
  process := h.process
  thread u hc := by
    have hu : u ≠ t := by
      rintro rfl
      exact ht hc
    simpa [SigRun.modify, hu] using h.thread u hc
  saved u hc := by
    have hu : u ≠ t := by
      rintro rfl
      exact ht hc
    simpa [SigRun.modify, hu] using h.saved u hc

omit [DecidableEq τ] in
theorem Inv.sigpendcnt_pos {t : τ} {n : ℕ} (h : s.Inv) (hn : n ∈ signals)
    (ht : (s.tcb t).sigpending n = true) : 0 < (s.tcb t).sigpendcnt := by
  by_contra hcnt
  have hmem := mem_signals.mp hn
  have := (h.counted t).not_mem (by omega) (n := n) (by omega)
  simp [ht] at this

omit [DecidableEq τ] in
theorem Inv.switchTo (h : s.Inv) (hc : s.current = none) (t : τ) : (s.switchTo t).Inv where
  counted := h.counted
  process hn := by simp [SigRun.switchTo] at hn
  thread u hu n hn := by
    obtain rfl : t = u := by simpa [SigRun.switchTo] using hu
    have hn : (s.proc.raiseThread s.pthSigpending (s.tcb t)).1.pending n = true := hn
    rcases s.proc.raiseThread_pending _ _ n hn with hpend | ⟨hmem, hset, -⟩
    · have harr := h.process hc n hpend
      exact .inl (by simp [SigRun.switchTo, SigRun.withProc, harr, hn])
    · exact .inr ⟨hmem, hset⟩
  saved u hu hcnt n hn hsav := by
    obtain rfl : t = u := by simpa [SigRun.switchTo] using hu
    have hn : (s.proc.raiseThread s.pthSigpending (s.tcb t)).1.pending n = true := hn
    have hcnt : (s.tcb t).sigpendcnt > 0 := hcnt
    -- what is saved is pending for the process while the scheduler runs
    have hpend : s.proc.pending n = true := by
      simpa [SigRun.switchTo, SigProcess.raiseThread, hcnt] using hsav
    have harr := h.process hc n hpend
    simp [SigRun.switchTo, SigRun.withProc, harr, hn]

theorem Inv.switchBack {t : τ} {p : SigProcess} (h : s.Inv) (hc : s.current = some t)
    (hp : SigProcess.Removed s.proc.pending s.pthSigpending (s.tcb t)
      (if (s.tcb t).sigpendcnt > 0 then signals else []) s.proc p) :
    (s.switchBack t p (Sched.dropDelivered s.proc.pending (s.tcb t))).Inv where
  counted u := by
    by_cases hu : u = t
    · subst hu
      simpa [SigRun.switchBack, SigRun.modify] using Sched.counted_dropDelivered (h.counted u) _
    · simpa [SigRun.switchBack, SigRun.modify, SigRun.withProc, hu] using h.counted u
  process _ n hn := by
    have hn : p.pending n = true := hn
    have hkept := hp.pending n
    rw [hn] at hkept
    have hpend : s.proc.pending n = true := by grind
    have harr : s.arrived n = true := by
      rcases h.thread t hc n hpend with harr | ⟨hmem, hset⟩
      · exact harr
      · have hcnt := h.sigpendcnt_pos hmem hset
        have hsav : s.pthSigpending n = true := by
          simpa [hcnt, hmem, hset, hpend] using hkept
        exact h.saved t hc hcnt n hpend hsav
    simp [SigRun.switchBack, SigRun.modify, SigRun.withProc, harr, hn]
  thread u hu := by simp [SigRun.switchBack] at hu
  saved u hu := by simp [SigRun.switchBack] at hu

theorem exec_comeback {t : τ} (hc : s.current = some t) :
    ∃ p, s.exec .comeback =
        some ((), s.switchBack t p (Sched.dropDelivered s.proc.pending (s.tcb t))) ∧
      SigProcess.Removed s.proc.pending s.pthSigpending (s.tcb t)
        (if (s.tcb t).sigpendcnt > 0 then signals else []) s.proc p := by
  obtain ⟨p, hrem, hp⟩ := s.proc.removeThread_removed s.pthSigpending (s.tcb t)
  exact ⟨p, by simp [exec, hc, hrem], hp⟩

theorem Inv.step {op : SigOp τ} {o : Unit} (h : s.Inv) (hs : machine.Step s op o s') : s'.Inv := by
  obtain ⟨hen, hexec⟩ := hs
  change s.enabled op at hen
  change s.exec op = some (o, s') at hexec
  cases op with
  | arrive n =>
    cases hexec
    refine h.withProc fun m hm => ?_
    rw [SigProcess.kill_pending] at hm
    grind
  | sigprocmask how set =>
    cases hexec
    exact h.shrinks (SigProcess.shrinks_sigprocmask how set)
  | sigaction n a =>
    simp only [exec] at hexec
    split at hexec
    · cases hexec
      exact h
    · next hact =>
      cases hexec
      exact h.shrinks (SigProcess.shrinks_sigaction hact)
  | sigwait set =>
    obtain ⟨⟨b, p⟩, hw, heq⟩ := Option.map_eq_some_iff.mp hexec
    cases heq
    exact h.shrinks (SigProcess.shrinks_sigwaitPending hw)
  | raise t n =>
    cases hexec
    exact h.modify hen.2.1 ((h.counted t).raised hen.2.2)
  | dispatch t =>
    cases hexec
    exact h.switchTo hen t
  | comeback =>
    obtain ⟨t, hc⟩ := Option.ne_none_iff_exists'.mp hen
    obtain ⟨p, hback, hp⟩ := exec_comeback hc
    rw [hback] at hexec
    cases hexec
    exact h.switchBack hc hp
  | takeOwn t n =>
    cases hexec
    exact h.modify (by simp [hen.1]) ((h.counted t).dropped hen.2.1 hen.2.2)
  | takeProcess n =>
    obtain ⟨⟨b, p⟩, hd, heq⟩ := Option.map_eq_some_iff.mp hexec
    cases heq
    exact h.shrinks (SigProcess.shrinks_utilSigdelete hd)
  | spawn t =>
    cases hexec
    exact h.modify hen .empty

/-- In every state of a run, a signal that is pending for the process has been sent to the
    process or is a signal of the running thread. When the thread comes back, a signal that is
    pending stays pending, for the process or for the thread. -/
theorem thread_signals_private (h : machine.Reachable s) :
    (∀ n, s.proc.pending n = true →
      s.arrived n = true ∨ ∃ t, s.current = some t ∧ (s.tcb t).sigpending n = true) ∧
    ∀ s', machine.Step s .comeback () s' → ∀ n, s.proc.pending n = true →
      s'.proc.pending n = true ∨ ∃ t, s.current = some t ∧ (s'.tcb t).sigpending n = true := by
  have hinv : s.Inv := h.invariant (fun _ => Inv.init) fun _ _ _ _ hi _ hs => hi.step hs
  constructor
  · intro n hn
    cases hc : s.current with
    | none => exact .inl (hinv.process hc n hn)
    | some t =>
      rcases hinv.thread t hc n hn with harr | ⟨-, hset⟩
      · exact .inl harr
      · exact .inr ⟨t, rfl, hset⟩
  · intro s' ⟨hen, hexec⟩ n hn
    obtain ⟨t, hc⟩ := Option.ne_none_iff_exists'.mp hen
    obtain ⟨p, hback, hp⟩ := exec_comeback hc
    change s.exec .comeback = _ at hexec
    rw [hback] at hexec
    cases hexec
    by_cases hset : (s.tcb t).sigpending n = true
    · refine .inr ⟨t, hc, ?_⟩
      simpa [switchBack, modify] using (Sched.dropDelivered_sigpending hn _).trans hset
    · refine .inl ?_
      have hkept := hp.pending n
      simp only [hn, hset] at hkept
      simpa [switchBack, modify, withProc] using hkept

instance (s : SigRun τ) : (op : SigOp τ) → Decidable (machine.enabled s op)
  | .arrive n => inferInstanceAs (Decidable (n ∈ systemSignals))
  | .sigprocmask _ _ | .sigaction _ _ | .sigwait _ | .comeback =>
    inferInstanceAs (Decidable (s.current ≠ none))
  | .raise t n =>
    inferInstanceAs (Decidable (s.current ≠ none ∧ s.current ≠ some t ∧ 1 ≤ n ∧ n ≤ nsig))
  | .dispatch _ => inferInstanceAs (Decidable (s.current = none))
  | .takeOwn t n =>
    inferInstanceAs (Decidable (s.current = none ∧ n ∈ signals ∧ (s.tcb t).sigpending n = true))
  | .takeProcess n =>
    inferInstanceAs (Decidable (s.current = none ∧ n ∈ signals ∧ s.proc.pending n = true))
  | .spawn t => inferInstanceAs (Decidable (s.current ≠ some t))

/-- No signal is pending, and 10 is blocked. -/
def quiet : SigRun (Fin 2) where
  proc :=
    { pending := fun _ => false
      mask := fun n => n == 10
      action := fun _ => .dfl
      handled := []
      blocked := by simp
      maskable := by simp [blockable] }
  pthSigpending _ := false
  tcb := (Sched.blank 0).tcb
  current := none
  arrived _ := false

/-- A thread that runs with a blocked signal that another thread has raised for it. -/
theorem thread_signals_private_raised : ∃ s : SigRun (Fin 2), machine.Reachable s ∧
    s.proc.pending 10 = true ∧ s.arrived 10 = false ∧
    ∃ t, s.current = some t ∧ (s.tcb t).sigpending 10 = true := by
  have hinit : (quiet).init := ⟨rfl, rfl, fun _ => ⟨rfl, fun _ => rfl⟩⟩
  have hreach : machine.Reach (fun _ _ => True) quiet := .init hinit
  obtain ⟨s, hs, hp, ha⟩ := hreach.play (l := [.dispatch 0, .raise 1 10, .comeback, .dispatch 1])
    (p := fun s => s.proc.pending 10 = true ∧ s.arrived 10 = false) (by decide)
  rcases (thread_signals_private hs).1 10 hp with harr | ht
  · simp [ha] at harr
  · exact ⟨s, hs, hp, ha, ht⟩

end SigRun

end Pth
