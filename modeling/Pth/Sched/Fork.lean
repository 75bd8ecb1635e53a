-- SUMMARY: Forking with handlers: their order, the dropped threads of the child, and what a failed fork returns.
import Pth.Sched.Wakeup

/-!
# Forking

`pth_fork` runs the handlers that `pth_atfork_push` has registered around `fork(2)`,
and in the child it drops all threads but the running one. Handlers are opaque here:
what counts is which of them are called, in which order and with which argument. -/

namespace Pth

/-! ## Handlers -/

/-- `struct pth_atfork_st`, with `none` for a handler that is `NULL`. -/
structure AtforkSt (η β : Type*) where
  prepare : Option η
  parent : Option η
  child : Option η
  arg : β

/-- `PTH_ATFORK_MAX` -/
def atforkMax : ℕ := 128

/-- `pth_atfork_list` and `pth_atfork_idx`. What stands behind the index is never read. -/
structure Atfork (η β : Type*) where
  list : ℕ → AtforkSt η β
  idx : ℕ
  idx_le : idx ≤ atforkMax

namespace Atfork

variable {η β : Type*} {a : Atfork η β}

/-- `pth_atfork_push` -/
def push (a : Atfork η β) (x : AtforkSt η β) : Ret × Atfork η β :=
  if h : a.idx > atforkMax - 1 then (.error .ENOMEM, a)
  else (.ok, { list := Function.update a.list a.idx x
               idx := a.idx + 1
               idx_le := by unfold atforkMax at *; omega })

/-- `pth_atfork_pop` -/
def pop (a : Atfork η β) : Bool × Atfork η β :=
  if a.idx ≤ 0 then (false, a)
  else (true, { a with idx := a.idx - 1
                       idx_le := (Nat.sub_le _ _).trans a.idx_le })

/-- The call of a handler, if it is not `NULL`. -/
def call (handler : Option η) (arg : β) : List (η × β) := handler.toList.map fun h => (h, arg)

/-- The loop over the preparation handlers, with `n` of them left. -/
def prepareLoop (a : Atfork η β) : ℕ → List (η × β)
  | 0 => []
  | i + 1 => call (a.list i).prepare (a.list i).arg ++ prepareLoop a i

/-- The loop over the parent or the child handlers from the number `i` on, with `n` of them
    left. -/
def handlerLoop (pick : AtforkSt η β → Option η) (a : Atfork η β) : ℕ → ℕ → List (η × β)
  | 0, _ => []
  | n + 1, i => call (pick (a.list i)) (a.list i).arg ++ handlerLoop pick a n (i + 1)

/-! The registered handlers as a list, in the order of registration. -/

def registered (a : Atfork η β) : List (AtforkSt η β) := (List.range a.idx).map a.list

theorem push_registered {x : AtforkSt η β} (h : a.idx < atforkMax) :
    (a.push x).1 = .ok ∧ (a.push x).2.registered = a.registered ++ [x] := by
  have hroom : ¬ a.idx > atforkMax - 1 := by omega
  simp only [push, dif_neg hroom, registered, List.range_succ, List.map_append, List.map_cons,
    List.map_nil, Function.update_self, true_and]
  congr 1
  refine List.map_congr_left fun i hi => Function.update_of_ne ?_ _ _
  exact (List.mem_range.mp hi).ne

theorem pop_registered : a.pop.2.registered = a.registered.dropLast := by
  unfold pop
  split
  · next h => simp [registered, Nat.le_zero.mp h]
  · next h =>
    obtain ⟨n, hn⟩ : ∃ n, a.idx = n + 1 := ⟨a.idx - 1, by omega⟩
    simp [registered, hn, List.range_succ]

/-- The calls of some handlers, in the order of the list. -/
def calls (pick : AtforkSt η β → Option η) (l : List (AtforkSt η β)) : List (η × β) :=
  l.flatMap fun x => call (pick x) x.arg

theorem prepareLoop_eq (n : ℕ) :
    a.prepareLoop n = calls AtforkSt.prepare ((List.range n).map a.list).reverse := by
  induction n with
  | zero => rfl
  | succ n ih => simp [prepareLoop, ih, calls, List.range_succ]

theorem handlerLoop_eq {pick : AtforkSt η β → Option η} (n i : ℕ) :
    handlerLoop pick a n i = calls pick ((List.range' i n).map a.list) := by
  induction n generalizing i with
  | zero => rfl
  | succ n ih => simp [handlerLoop, ih, calls, List.range'_succ]

end Atfork

/-! ## Dropping the threads -/

namespace Sched

variable {τ : Type*} [DecidableEq τ] {s : Sched τ} {a : QId → List (τ × ℤ)} {k : QId}

/-- The loop of `pth_scheduler_drop` for one queue, and the initialisation behind it. -/
def dropQueue (k : QId) : ℕ → Sched τ → Option (Sched τ)
  | 0, _ => none
  | n + 1, s =>
    (s.queues.delmax k).bind fun (t, qs) =>
      match t with
      | none => some { s with queues := qs.init k }
      | some t => dropQueue k n ({ s with queues := qs }.tcbFree t)

/-- `pth_scheduler_drop` -/
def schedulerDrop (s : Sched τ) : Option (Sched τ) :=
  [QId.NQ, .RQ, .WQ, .SQ, .DQ].foldlM
    (fun s k => dropQueue k ((s.queues.elements k).toNat + 1) s) s

/-- The loop empties its queue. -/
theorem dropQueue_repr {n : ℕ} (h : s.queues.Repr a) (hn : (a k).length < n) :
    (dropQueue k n s).Ensures fun s' => s'.queues.Repr (Function.update a k []) := by
  induction n generalizing s a with
  | zero => exact absurd hn (Nat.not_lt_zero _)
  | succ n ih =>
    obtain ⟨qs, hdel, hr⟩ := h.delmax (k := k)
    cases hl : a k with
    | nil =>
      simp only [dropQueue, hdel, hl, PrioList.keys_nil, List.head?_nil, Option.bind_some,
        Option.ensures_some]
      simpa using hr.init (k := k)
    | cons e l =>
      simp only [dropQueue, hdel, hl, PrioList.keys_cons, List.head?_cons, Option.bind_some]
      have hrest := ih (s := { s with queues := qs }.tcbFree e.1) hr (by simpa [hl] using hn)
      simpa using hrest

/-- All threads in queues are gone. -/
theorem schedulerDrop_repr (h : s.queues.Repr a) :
    s.schedulerDrop.Ensures fun s' => s'.queues.Repr fun _ => [] := by
  have hdrop : ∀ (k : QId) {s : Sched τ} {a : QId → List (τ × ℤ)}, s.queues.Repr a →
      (dropQueue k ((s.queues.elements k).toNat + 1) s).Ensures fun s' =>
        s'.queues.Repr (Function.update a k []) :=
    fun k s a h => dropQueue_repr h (by rw [h.elements, Int.toNat_natCast]; exact Nat.lt_succ_self _)
  unfold schedulerDrop
  simp only [List.foldlM_cons, List.foldlM_nil, Option.bind_eq_bind]
  refine (hdrop .NQ h).bind fun s₁ h₁ => (hdrop .RQ h₁).bind fun s₂ h₂ =>
    (hdrop .WQ h₂).bind fun s₃ h₃ => (hdrop .SQ h₃).bind fun s₄ h₄ =>
    (hdrop .DQ h₄).bind fun s₅ h₅ => Option.ensures_some.mpr ?_
  convert h₅ using 1
  funext k
  cases k <;> simp

end Sched

/-! ## Forking -/

/-- What `fork(2)` returns: `-1` if it fails, `0` in the child and the child's process in the
    parent. -/
def ForkPid : Type := { pid : ℤ // -1 ≤ pid }

section

variable {τ η β : Type*} [DecidableEq τ]

/-- `pth_fork`: what it returns, the handlers it has called, and the library's variables. -/
def pthFork (h : Atfork η β) (s : Sched τ) (pid : ForkPid) :
    Option (ℤ × List (η × β) × Sched τ) :=
  let prepared := h.prepareLoop h.idx
  -- `return FALSE`
  if pid.1 = -1 then some (0, prepared, s)
  else if pid.1 ≠ 0 then
    some (pid.1, prepared ++ Atfork.handlerLoop AtforkSt.parent h h.idx 0, s)
  else
    s.schedulerDrop.map fun s' =>
      (pid.1, prepared ++ Atfork.handlerLoop AtforkSt.child h h.idx 0, s')

/-- What `pth_fork` is for: `0` means the child, which has no other threads, a process means
    the parent, in which nothing has changed, and anything else an error. -/
structure ForkOk (h : Atfork η β) (s : Sched τ) (pid : ForkPid) (ret : ℤ)
    (calls : List (η × β)) (s' : Sched τ) : Prop where
  child : ret = 0 → pid.1 = 0 ∧ (∀ k, s'.queues.threads k = [] ∧ s'.queues.elements k = 0) ∧
    calls = Atfork.calls AtforkSt.prepare h.registered.reverse ++
      Atfork.calls AtforkSt.child h.registered
  parent : 0 < ret → pid.1 = ret ∧ s'.queues = s.queues ∧
    calls = Atfork.calls AtforkSt.prepare h.registered.reverse ++
      Atfork.calls AtforkSt.parent h.registered
  error : pid.1 = -1 → ret < 0

/-- `pth_fork` keeps its promise if `fork(2)` does not fail. -/
theorem pthFork_ok_iff {s : Sched τ} {a : QId → List (τ × ℤ)} (h : Atfork η β)
    (hr : s.queues.Repr a) (pid : ForkPid) :
    (pthFork h s pid).Ensures fun (ret, calls, s') =>
      ForkOk h s pid ret calls s' ↔ pid.1 ≠ -1 := by
  have hloop : ∀ pick : AtforkSt η β → Option η,
      Atfork.handlerLoop pick h h.idx 0 = Atfork.calls pick h.registered := by
    intro pick
    rw [Atfork.handlerLoop_eq, Atfork.registered, List.range_eq_range']
  have hprep : h.prepareLoop h.idx = Atfork.calls AtforkSt.prepare h.registered.reverse :=
    Atfork.prepareLoop_eq h.idx
  have hpid := pid.2
  unfold pthFork
  simp only [hloop, hprep]
  split
  · next hfail =>
    refine Option.ensures_some.mpr ⟨fun hok => ?_, fun hne => absurd hfail hne⟩
    exact absurd (hok.error hfail) (lt_irrefl (0 : ℤ))
  · next hfail =>
    split
    · next hparent =>
      refine Option.ensures_some.mpr (iff_of_true ⟨?_, ?_, ?_⟩ hfail)
      · intro hret
        exact absurd hret hparent
      · intro _
        exact ⟨rfl, rfl, rfl⟩
      · intro hret
        exact absurd hret hfail
    · next hchild =>
      have hzero : pid.1 = 0 := not_not.mp hchild
      refine (Sched.schedulerDrop_repr hr).map fun s' hr' => iff_of_true ⟨?_, ?_, ?_⟩ hfail
      · intro _
        refine ⟨hzero, fun k => ⟨hr'.threads, hr'.elements⟩, rfl⟩
      · intro hret
        exact absurd hzero hret.ne'
      · intro hret
        exact absurd hret hfail

/-- Two sets of handlers, the second one without a preparation handler. -/
def twoHandlers : Atfork ℕ ℕ where
  list i := if i = 0 then { prepare := some 1, parent := some 2, child := some 3, arg := 0 }
    else { prepare := none, parent := some 4, child := some 5, arg := 1 }
  idx := 2
  idx_le := by decide

theorem pthFork_ok_iff_child :
    (pthFork twoHandlers Sched.mutexWaiter ⟨0, by decide⟩).Ensures fun (ret, calls, s') =>
      ForkOk twoHandlers Sched.mutexWaiter ⟨0, by decide⟩ ret calls s' := by
  apply (pthFork_ok_iff twoHandlers Sched.mutexWaiter_repr ⟨0, by decide⟩).mono
  rintro ⟨ret, calls, s'⟩ hok
  exact hok.mpr (by decide)

/-- A failed `fork(2)` looks like the child, which still has a waiting thread. -/
theorem pthFork_failed : ∃ calls s', pthFork twoHandlers Sched.mutexWaiter ⟨-1, by decide⟩ =
      some (0, calls, s') ∧ s'.queues.threads .WQ = [1] ∧
      ¬ ForkOk twoHandlers Sched.mutexWaiter ⟨-1, by decide⟩ 0 calls s' := by
  refine ⟨_, Sched.mutexWaiter, rfl, by decide, fun hok => ?_⟩
  exact absurd (hok.child rfl).1 (by decide)

end

end Pth
