-- SUMMARY: Signals of the process: pending and blocked signals, handlers, and pth_util_sigdelete.
import Pth.High.Sigmask

/-!
# Signals of the process

What the kernel keeps for the process: the pending signals, the mask and the actions. A
signal that is not blocked is delivered at once, so every pending signal is blocked, which
the type says. Handlers are only recorded when they are called. `pth_util_sigdelete` takes
a pending signal away by letting it be delivered to a handler that does nothing. -/

namespace Pth

/-- `sa_handler`; `nop` is `pth_util_sigdelete_sighandler`. -/
inductive SigHandler where
  | dfl
  | ign
  | nop
  | user (f : ℕ)
  deriving DecidableEq, Repr

/-- Under this action the signal is discarded: it is ignored, or is one of `SIGCHLD`, `SIGCONT`,
    `SIGURG` and `SIGWINCH` with the default action. -/
def SigHandler.discards (h : SigHandler) (n : ℕ) : Bool :=
  h == .ign || h == .dfl && (n == 17 || n == 18 || n == 23 || n == 28)

@[simp, grind =] theorem SigHandler.nop_discards (n : ℕ) : SigHandler.nop.discards n = false := rfl

/-- The signals of the system. -/
def systemSignals : List ℕ := List.range' 1 64

/-- The signals of the process, and the handlers called so far. A signal is pending or not: that
    real-time signals, which are all beyond `PTH_NSIG`, are queued is left out. -/
@[ext] structure SigProcess where
  pending : SigSet
  mask : SigSet
  action : ℕ → SigHandler
  handled : List (ℕ × SigHandler)
  blocked : ∀ n, pending n = true → mask n = true
  maskable : ∀ n, mask n = true → blockable n = true

theorem sigprocmask_maskable {mask : SigSet} (h : ∀ n, mask n = true → blockable n = true)
    (how : SigHow) (set : Option SigSet) :
    ∀ n, (sigprocmask mask how set).2 n = true → blockable n = true := by
  intro n
  have := h n
  unfold sigprocmask
  split <;> grind

namespace SigProcess

/-- Deliver what is pending and not blocked. -/
def settle (p : SigProcess) (pending : SigSet) (mask : SigSet)
    (h : ∀ n, mask n = true → blockable n = true) : SigProcess where
  pending n := pending n && mask n
  mask := mask
  action := p.action
  handled := p.handled ++ (systemSignals.filter fun n =>
    pending n && !mask n && !(p.action n).discards n).map fun n => (n, p.action n)
  blocked := by simp
  maskable := h

/-- `sigprocmask(2)` -/
def sigprocmask (p : SigProcess) (how : SigHow) (set : Option SigSet) : SigProcess :=
  p.settle p.pending (Pth.sigprocmask p.mask how set).2 (sigprocmask_maskable p.maskable how set)

/-- `kill(2)` to the own process, or a signal that comes from elsewhere. -/
def kill (p : SigProcess) (n : ℕ) : SigProcess :=
  p.settle (Function.update p.pending n true) p.mask p.maskable

/-- Signals for which an action can be set. -/
def settable (n : ℕ) : Bool := decide (n ∈ systemSignals) && blockable n

/-- `sigaction(2)`, which returns the old action. -/
def sigaction (p : SigProcess) (n : ℕ) (h : SigHandler) : Option (SigHandler × SigProcess) :=
  if settable n then
    some (p.action n, { p with
      pending := fun m => p.pending m && !(h.discards n && m == n)
      action := Function.update p.action n h
      blocked := fun m hm => p.blocked m (by simp_all) })
  else none

/-- `sigsuspend(2)`; `none` if it sleeps on because no handler is called. -/
def sigsuspend (p : SigProcess) (mask : SigSet) : Option SigProcess :=
  let q := p.sigprocmask .setmask (some mask)
  if q.handled.length = p.handled.length then none
  else some (q.settle q.pending p.mask p.maskable)

/-- `pth_util_sigdelete` -/
def utilSigdelete (p : SigProcess) (sig : ℕ) : Option (Bool × SigProcess) :=
  if !p.pending sig then some (false, p)
  else
    -- block signal and remember old mask
    let p₁ := p.sigprocmask .block (some fun n => n == sig)
    match p₁.sigaction sig .nop with
    | none => some (false, p₁.sigprocmask .setmask (some p.mask))
    | some (osa, p₂) =>
      -- now let signal be delivered
      (p₂.sigsuspend fun n => n != sig).map fun p₃ =>
        let p₄ := match p₃.sigaction sig osa with
          | none => p₃
          | some (_, p₄) => p₄
        (true, p₄.sigprocmask .setmask (some p.mask))

/-! ## Laws -/

variable {p : SigProcess} {sig : ℕ}

theorem pending_blockable (p : SigProcess) {n : ℕ} (h : p.pending n = true) :
    blockable n = true :=
  p.maskable n (p.blocked n h)

/-- Nothing is delivered as long as all pending signals stay blocked. -/
theorem settle_blocked {pending mask : SigSet} (h : ∀ n, mask n = true → blockable n = true)
    (hp : ∀ n, pending n = true → mask n = true) :
    (p.settle pending mask h).pending = pending ∧ (p.settle pending mask h).handled = p.handled := by
  constructor
  · funext n
    have := hp n
    grind [settle]
  · have hnone : ∀ n, (pending n && !mask n && !(p.action n).discards n) = false := by
      intro n
      have := hp n
      grind
    simp [settle, hnone]

/-- A call that leaves the mask as it is. -/
theorem sigprocmask_eq_self {how : SigHow} {set : Option SigSet}
    (hmask : (Pth.sigprocmask p.mask how set).2 = p.mask) : p.sigprocmask how set = p := by
  have hblocked : ∀ n, p.pending n = true → (Pth.sigprocmask p.mask how set).2 n = true := by
    intro n hn
    rw [hmask]
    exact p.blocked n hn
  obtain ⟨hpend, hhand⟩ := settle_blocked (p := p)
    (sigprocmask_maskable p.maskable how set) hblocked
  ext1
  · exact hpend
  · exact hmask
  · rfl
  · exact hhand

theorem sigprocmask_setmask_self : p.sigprocmask .setmask (some p.mask) = p := by
  apply sigprocmask_eq_self
  funext n
  have := p.maskable n
  grind [Pth.sigprocmask]

theorem sigprocmask_block_self (h : p.mask sig = true) :
    p.sigprocmask .block (some fun n => n == sig) = p := by
  apply sigprocmask_eq_self
  funext n
  grind [Pth.sigprocmask]

/-- The process after the signal has been delivered to the handler that does nothing. -/
def without (p : SigProcess) (sig : ℕ) : SigProcess :=
  { p with
    pending := fun n => p.pending n && n != sig
    handled := p.handled ++ [(sig, .nop)]
    blocked := fun n hn => p.blocked n (by simp_all) }

theorem filter_systemSignals (h : sig ∈ systemSignals) :
    (systemSignals.filter fun n => n == sig) = [sig] := by
  have hnd : systemSignals.Nodup := List.nodup_range'
  rw [List.filter_beq, List.count_eq_one_of_mem hnd h, List.replicate_one]

/-- Letting a pending signal be delivered, with all others blocked. -/
theorem sigsuspend_only (hp : p.pending sig = true) (hs : sig ∈ systemSignals)
    (hnop : p.action sig = .nop) :
    p.sigsuspend (fun n => n != sig) = some (p.without sig) := by
  have hblock : ∀ n, p.pending n = true → blockable n = true := fun _ => p.pending_blockable
  have hfilter : ∀ n, (p.pending n && !(n != sig && blockable n) && !(p.action n).discards n) =
      (n == sig) := by
    intro n
    have := hblock n
    grind
  have hhand : (p.sigprocmask .setmask (some fun n => n != sig)).handled =
      p.handled ++ [(sig, .nop)] := by
    simp only [sigprocmask, settle, Pth.sigprocmask, hfilter, filter_systemSignals hs,
      List.map_cons, List.map_nil, hnop]
  have hpend : ∀ n, (p.sigprocmask .setmask (some fun n => n != sig)).pending n =
      (p.pending n && n != sig) := by
    intro n
    have := hblock n
    grind [sigprocmask, settle, Pth.sigprocmask]
  have hblocked : ∀ n, (p.sigprocmask .setmask (some fun n => n != sig)).pending n = true →
      p.mask n = true := by
    intro n hn
    rw [hpend] at hn
    exact p.blocked n (by simp_all)
  obtain ⟨hpend', hhand'⟩ := settle_blocked
    (p := p.sigprocmask .setmask (some fun n => n != sig)) p.maskable hblocked
  simp only [sigsuspend, hhand, List.length_append, List.length_singleton]
  rw [if_neg (by omega)]
  congr 1
  ext1
  · exact hpend'.trans (funext hpend)
  · rfl
  · rfl
  · exact hhand'.trans hhand

/-- The process with another action for the signal. -/
def withAction (p : SigProcess) (sig : ℕ) (h : SigHandler) : SigProcess :=
  { p with action := Function.update p.action sig h }

theorem sigaction_nop (hs : settable sig = true) :
    p.sigaction sig .nop = some (p.action sig, p.withAction sig .nop) := by
  simp only [sigaction, hs, if_true, withAction, Option.some.injEq, Prod.mk.injEq, true_and]
  ext1
  · funext n
    grind
  · rfl
  · rfl
  · rfl

/-- Setting the old action back, once the signal is gone. -/
theorem sigaction_back (hs : settable sig = true) :
    ((p.withAction sig .nop).without sig).sigaction sig (p.action sig) =
      some (.nop, p.without sig) := by
  simp only [sigaction, hs, if_true, without, withAction, Function.update_idem,
    Function.update_eq_self, Function.update_self, Option.some.injEq, Prod.mk.injEq, true_and]
  ext1
  · funext n
    grind
  · rfl
  · rfl
  · rfl

theorem utilSigdelete_eq (p : SigProcess) (sig : ℕ) :
    p.utilSigdelete sig =
      some (if p.pending sig && settable sig then (true, p.without sig) else (false, p)) := by
  unfold utilSigdelete
  by_cases hp : p.pending sig = true
  · simp only [hp, Bool.not_true, Bool.false_eq_true, if_false, Bool.true_and,
      sigprocmask_block_self (p.blocked sig hp)]
    by_cases hs : settable sig = true
    · have hmem : sig ∈ systemSignals := by simp_all [settable]
      have hwait := sigsuspend_only (p := p.withAction sig .nop) hp hmem
        (by simp [withAction])
      simp only [hs, if_true, sigaction_nop hs, hwait, Option.map_some, sigaction_back hs]
      exact congrArg (fun q => some (true, q)) (sigprocmask_setmask_self (p := p.without sig))
    · simp [hs, sigaction, sigprocmask_setmask_self]
  · simp [hp]

/-- `pth_util_sigdelete` never sleeps. It returns `TRUE` exactly if the signal is pending and
    its action can be set; then the signal and no other one is gone, the only handler that
    has been called is the one that does nothing, and the mask and all actions are as they
    were. If it returns `FALSE`, nothing has changed. -/
theorem utilSigdelete_only (p : SigProcess) (sig : ℕ) :
    ∃ b p', p.utilSigdelete sig = some (b, p') ∧ (b = true ↔ p.pending sig ∧ settable sig) ∧
      p'.mask = p.mask ∧ p'.action = p.action ∧
      (∀ n, p'.pending n = true ↔ p.pending n ∧ ¬ (b = true ∧ n = sig)) ∧
      p'.handled = p.handled ++ if b then [(sig, .nop)] else [] := by
  rw [utilSigdelete_eq]
  split
  · next h =>
    refine ⟨_, _, rfl, by simpa using h, rfl, rfl, fun n => ?_, rfl⟩
    simp [without]
  · next h =>
    refine ⟨_, _, rfl, by simpa using h, rfl, rfl, fun n => ?_, by simp⟩
    simp

end SigProcess

end Pth
