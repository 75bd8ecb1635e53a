-- SUMMARY: The blocking mode of a descriptor across the functions of pth_high.c that switch it off meanwhile.
import Pth.Event.Calls
import Pth.Lib.Triple

/-!
# Descriptor modes

`pth_connect_ev`, `pth_accept_ev`, `pth_write_ev`, `pth_writev_ev` and `pth_sendto_ev` force
their descriptor into non-blocking mode and restore its mode at the end. Here they are
modelled with the mode of the descriptor; how they link their events to extra ones is in
`Pth.Event.Calls`. What the system and the other threads do is answered by an `FdWorld`: each
question gets the answer of its number. A call that has not returned when its loops have used
up their fuel gives `none`. -/

namespace Pth

/-- A descriptor. -/
inductive Fd where
  | closed
  | blocking
  | nonblocking
  deriving DecidableEq, Repr

/-- `pth_fdmode` -/
def Fd.fdmode : Fd → FdMode → FdMode × Fd
  | .closed, _ => (.error, .closed)
  | .blocking, .nonblock => (.block, .nonblocking)
  | .blocking, _ => (.block, .blocking)
  | .nonblocking, .block => (.nonblock, .blocking)
  | .nonblocking, _ => (.nonblock, .nonblocking)

/-- The answers of the environment: results of system calls, whether there is memory, whether
    `pth_event` gives an event, whether the descriptor is closed by another thread during a
    `pth_wait`, and whether the call's own event has occurred then. -/
structure FdWorld where
  sc : ℕ → Except Errno ℕ
  malloc : ℕ → Bool
  event : ℕ → Except Errno Unit
  closes : ℕ → Bool
  occurred : ℕ → Bool

/-- A call that is running: how many questions it has asked, and its descriptor. -/
structure FdState where
  asked : ℕ
  fd : Fd

abbrev FdM := StateT FdState Option

/-- How a part of a function ends: with a return statement, or with a result that is returned
    after the end of the function. -/
inductive Leave where
  | returns (r : Except Errno ℕ)
  | breaks (r : Except Errno ℕ)

namespace FdM

/-! ## The functions -/

/-- The number of the next question. -/
def ask : FdM ℕ := fun s => some (s.asked, { s with asked := s.asked + 1 })

/-- `pth_fdmode` for the descriptor of the call. -/
def fdmode (newmode : FdMode) : FdM FdMode :=
  fun s => some ((s.fd.fdmode newmode).1, { s with fd := (s.fd.fdmode newmode).2 })

/-- The number of a descriptor that `pth_util_fd_valid` admits. -/
def InRange (fd : ℤ) : Prop := 0 ≤ fd ∧ fd < fdSetsize

instance (fd : ℤ) : Decidable (InRange fd) := inferInstanceAs (Decidable (_ ∧ _))

/-- `pth_util_fd_valid` for the descriptor of the call, which has the number `fd`. -/
def valid (fd : ℤ) : FdM Bool :=
  fun s => some (decide (InRange fd) && decide (s.fd ≠ .closed), s)

/-- A system call. -/
def sc (w : FdWorld) : FdM (Except Errno ℕ) := do
  let k ← ask
  pure (w.sc k)

/-- A system call that is repeated while it is interrupted. -/
def scRetry (w : FdWorld) : ℕ → FdM (Except Errno ℕ)
  | 0 => failure
  | n + 1 => do
    let r ← sc w
    if r = .error .EINTR then scRetry w n else pure r

/-- `pth_event` -/
def event (w : FdWorld) : FdM (Except Errno Unit) := do
  let k ← ask
  pure (w.event k)

/-- `pth_wait`, and whether the event has occurred then. -/
def wait (w : FdWorld) : FdM Bool :=
  fun s => some (w.occurred s.asked,
    { asked := s.asked + 1, fd := if w.closes s.asked then .closed else s.fd })

/-- Sleep until the descriptor is ready or an extra event occurs, and whether it was the
    latter. Without an event, which is not checked, `pth_wait` returns at once and the event
    counts as pending. -/
def sleep (w : FdWorld) (extra : Bool) : FdM Bool := do
  match ← event w with
  | .error _ => pure extra
  | .ok _ => do
    let occurred ← wait w
    pure (extra && !occurred)

/-- The check of the descriptor, which is then forced into non-blocking mode; `none` is
    `EBADF`. -/
def enter (fd : ℤ) : FdM (Option FdMode) := do
  if !(← valid fd) then pure none
  else
    let mode ← fdmode .nonblock
    if mode = .error then pure none else pure (some mode)

/-- Restore the mode of the descriptor at the end of a function. -/
def finish (mode : FdMode) : Leave → FdM (Except Errno ℕ)
  | .returns r => pure r
  | .breaks r => do
    let _ ← fdmode mode
    pure r

/-- What most of the functions begin and end with: force the descriptor into non-blocking mode,
    and restore its mode. -/
def inNonblock (fd : ℤ) (body : FdMode → FdM Leave) : FdM (Except Errno ℕ) := do
  match ← enter fd with
  | none => pure (.error .EBADF)
  | some mode => do
    let l ← body mode
    finish mode l

/-- The loop of `pth_write_ev`, `pth_writev_ev` and `pth_sendto_ev`: `idle` says whether the
    descriptor is not known to be writeable, `rv` is what has been written so far. -/
def writeLoop (w : FdWorld) (n : ℕ) (extra : Bool) (mode : FdMode) :
    ℕ → Bool → ℕ → ℕ → FdM Leave
  | 0, _, _, _ => failure
  | k + 1, idle, nbytes, rv => do
    if ← (if idle then sleep w extra else pure false) then do
      let _ ← fdmode mode
      pure (.returns (.error .EINTR))
    else
      -- now perform the actual write operation
      match ← scRetry w n with
      | .ok s =>
        if 0 < s ∧ s < nbytes then writeLoop w n extra mode k true (nbytes - s) (rv + s)
        else pure (.breaks (.ok (rv + s)))
      -- pass error to caller, but not for partial writes
      | .error e => pure (.breaks (if rv = 0 then .error e else .ok rv))

/-- The direct poll of `pth_write_ev` and `pth_sendto_ev` and the loop behind it; `sleeps` says
    whether the descriptor counts as not writeable when the poll has failed. -/
def pollWrite (w : FdWorld) (n : ℕ) (extra sleeps : Bool) (mode : FdMode) (nbytes : ℕ) :
    FdM Leave := do
  match ← scRetry w n with
  | .error e =>
    if e = .EINVAL ∨ e = .EBADF then pure (.returns (.error e))
    else writeLoop w n extra mode n sleeps nbytes 0
  | .ok r => writeLoop w n extra mode n (r = 0) nbytes 0

/-- `pth_write_ev` -/
def writeEv (w : FdWorld) (n : ℕ) (fd : ℤ) (nbytes : ℕ) (extra : Bool) :
    FdM (Except Errno ℕ) :=
  if nbytes = 0 then pure (.ok 0)
  else
    inNonblock fd fun mode =>
      if mode ≠ .nonblock then pollWrite w n extra true mode nbytes
      else Leave.breaks <$> scRetry w n

/-- The direct poll of `pth_writev_ev`, whose errors are not looked at, and the loop. -/
def pollWritev (w : FdWorld) (n : ℕ) (extra : Bool) (mode : FdMode) (iov : List ℕ) :
    FdM Leave := do
  match ← scRetry w n with
  | .error _ => writeLoop w n extra mode n true iov.sum 0
  | .ok r => writeLoop w n extra mode n (r = 0) iov.sum 0

/-- The part of `pth_writev_ev` for a blocking descriptor. The vector is copied before it is
    advanced, into memory that may have to be allocated. -/
def writevPolled (w : FdWorld) (n : ℕ) (extra : Bool) (mode : FdMode) (iov : List ℕ) :
    FdM Leave := do
  let malloc ← if iov.length > tiovStack then w.malloc <$> ask else pure true
  if !malloc then pure (.returns (.error .ENOMEM)) else pollWritev w n extra mode iov

/-- `pth_writev_ev`, with the lengths of the vector. -/
def writevEv (w : FdWorld) (n : ℕ) (fd : ℤ) (iov : List ℕ) (extra : Bool) :
    FdM (Except Errno ℕ) :=
  if iov.length = 0 ∨ iov.length > uioMaxiov then pure (.error .EINVAL)
  else
    inNonblock fd fun mode =>
      if mode ≠ .nonblock then writevPolled w n extra mode iov
      else Leave.breaks <$> scRetry w n

/-- The part of `pth_sendto_ev` for a blocking descriptor, which is checked again. Other than
    `pth_write_ev`, the function does not sleep after the direct poll has failed. -/
def sendtoPolled (w : FdWorld) (n : ℕ) (extra : Bool) (mode : FdMode) (fd : ℤ) (nbytes : ℕ) :
    FdM Leave := do
  if !(← valid fd) then do
    let _ ← fdmode mode
    pure (.returns (.error .EBADF))
  else pollWrite w n extra false mode nbytes

/-- `pth_sendto_ev` -/
def sendtoEv (w : FdWorld) (n : ℕ) (fd : ℤ) (nbytes : ℕ) (extra : Bool) :
    FdM (Except Errno ℕ) :=
  if nbytes = 0 then pure (.ok 0)
  else
    inNonblock fd fun mode =>
      if mode ≠ .nonblock then sendtoPolled w n extra mode fd nbytes
      else Leave.breaks <$> scRetry w n

/-- Wait until `accept` has a chance and go on with `next`, unless an extra event has occurred. -/
def acceptWait (w : FdWorld) (extra : Bool) (mode : FdMode) (next : FdM Leave) : FdM Leave := do
  let occurred ← wait w
  if extra && !occurred then do
    let _ ← fdmode mode
    pure (.returns (.error .EINTR))
  else next

/-- The loop of `pth_accept_ev`; `allocated` says whether there is an event. -/
def acceptLoop (w : FdWorld) (extra : Bool) (mode : FdMode) : ℕ → Bool → FdM Leave
  | 0, _ => failure
  | k + 1, allocated => do
    let rv ← sc w
    if rv = .error .EAGAIN ∧ mode ≠ .nonblock then
      -- do lazy event allocation
      match ← (if allocated then pure (.ok ()) else event w) with
      | .error e => pure (.returns (.error e))
      | .ok _ => acceptWait w extra mode (acceptLoop w extra mode k true)
    else pure (.breaks rv)

/-- `pth_accept_ev`. At its end it also sets the mode of the new descriptor. -/
def acceptEv (w : FdWorld) (n : ℕ) (s : ℤ) (extra : Bool) : FdM (Except Errno ℕ) :=
  inNonblock s fun mode => acceptLoop w extra mode n false

/-- The wait of `pth_connect_ev`. -/
def connectWait (w : FdWorld) (extra : Bool) : FdM (Except Errno ℕ) := do
  match ← event w with
  | .error e => pure (.error e)
  | .ok _ => do
    let occurred ← wait w
    if extra && !occurred then pure (.error .EINTR)
    else
      -- getsockopt
      match ← sc w with
      | .error e => pure (.error e)
      | .ok 0 => pure (.ok 0)
      | .ok err => pure (.error (.other err))

/-- `pth_connect_ev`, which restores the mode before it waits. -/
def connectEv (w : FdWorld) (n : ℕ) (s : ℤ) (extra : Bool) : FdM (Except Errno ℕ) := do
  match ← enter s with
  | none => pure (.error .EBADF)
  | some mode => do
    -- try to connect
    let rv ← scRetry w n
    let _ ← fdmode mode
    -- if it is still on progress wait until socket is really writeable
    if rv = .error .EINPROGRESS ∧ mode ≠ .nonblock then connectWait w extra else pure rv

/-! ## Single steps -/

/-- The descriptor is not left in non-blocking mode. -/
def Restored (s : FdState) : Prop := s.fd ≠ .nonblocking

/-- If a part of a function returns, it has restored the mode. -/
def Returned (l : Leave) (s : FdState) : Prop := ∀ r, l = .returns r → Restored s

variable {w : FdWorld} {n : ℕ} {extra : Bool} {P : FdState → Prop}

open StateT (Triple)

theorem fdmode_block : Triple P (fdmode .block) fun _ => Restored := by
  intro s old s' _ hrun
  obtain ⟨-, rfl⟩ := Prod.mk.inj (Option.some.inj hrun)
  cases s.fd <;> simp [Restored, Fd.fdmode]

theorem finish_block {l : Leave} : Triple (Returned l) (finish .block l) fun _ => Restored := by
  cases l with
  | returns r => exact .pure fun s h => h r rfl
  | breaks r => exact fdmode_block.bind fun _ => .pure fun _ h => h

theorem breaks_returned {r : Except Errno ℕ} : Triple P (pure (.breaks r)) Returned :=
  .pure fun _ _ => nofun

/-- Restore the mode and return. -/
theorem restore_returned {r : Except Errno ℕ} : Triple P (do
    let _ ← fdmode .block
    pure (Leave.returns r)) Returned :=
  fdmode_block.bind fun _ => .pure fun _ h _ _ => h

/-- Nothing is needed of a part that is not looked at. -/
theorem triple_any {α : Type} (m : FdM α) : Triple P m fun _ _ => True :=
  fun _ _ _ _ _ => trivial

theorem writeLoop_returned (k : ℕ) (idle : Bool) (nbytes rv : ℕ) :
    Triple P (writeLoop w n extra .block k idle nbytes rv) Returned := by
  induction k generalizing P idle nbytes rv with
  | zero => exact .failure
  | succ k ih =>
    unfold writeLoop
    refine (triple_any _).bind fun interrupted => ?_
    split
    · exact restore_returned
    · refine (triple_any _).bind fun r => ?_
      cases r with
      | error e => exact breaks_returned
      | ok s =>
        dsimp only
        split
        · exact ih _ _ _
        · exact breaks_returned

theorem acceptWait_returned {next : FdM Leave} (h : Triple (fun _ => True) next Returned) :
    Triple P (acceptWait w extra .block next) Returned := by
  refine (triple_any _).bind fun occurred => ?_
  split
  · exact restore_returned
  · exact h

theorem acceptLoop_returned (k : ℕ) :
    Triple P (acceptLoop w extra .block k true) Returned := by
  induction k generalizing P with
  | zero => exact .failure
  | succ k ih =>
    unfold acceptLoop
    refine (triple_any _).bind fun rv => ?_
    split
    · rw [if_pos rfl, pure_bind]
      exact acceptWait_returned ih
    · exact breaks_returned

theorem wait_restored : Triple Restored (wait w) fun _ => Restored := by
  intro s b s' h hrun
  obtain ⟨-, rfl⟩ := Prod.mk.inj (Option.some.inj hrun)
  dsimp only [Restored]
  split
  · simp
  · exact h

theorem sc_run (w : FdWorld) (s : FdState) :
    (sc w).run s = some (w.sc s.asked, { s with asked := s.asked + 1 }) := rfl

theorem sc_restored : Triple Restored (sc w) fun _ => Restored := by
  intro s r s' h hrun
  obtain ⟨-, rfl⟩ := Prod.mk.inj (Option.some.inj hrun)
  exact h

theorem event_run (w : FdWorld) (s : FdState) :
    (event w).run s = some (w.event s.asked, { s with asked := s.asked + 1 }) := rfl

theorem event_restored : Triple Restored (event w) fun _ => Restored := by
  intro s r s' h hrun
  obtain ⟨-, rfl⟩ := Prod.mk.inj (Option.some.inj hrun)
  exact h

theorem connectWait_restored : Triple Restored (connectWait w extra) fun _ => Restored := by
  unfold connectWait
  refine event_restored.bind fun e => ?_
  cases e with
  | error e => exact .pure fun _ h => h
  | ok _ =>
    refine wait_restored.bind fun occurred => ?_
    split
    · exact .pure fun _ h => h
    · refine sc_restored.bind fun r => ?_
      split <;> exact .pure fun _ h => h

/-! ## Repeated system calls -/

/-- From question `k` on, the first answer that is not an interruption is `r`. -/
inductive Answers (w : FdWorld) : ℕ → Except Errno ℕ → Prop
  | now {k : ℕ} (h : w.sc k ≠ .error .EINTR) : Answers w k (w.sc k)
  | again {k : ℕ} {r : Except Errno ℕ} (h : w.sc k = .error .EINTR) (hr : Answers w (k + 1) r) :
    Answers w k r

theorem scRetry_run (w : FdWorld) (n : ℕ) (s : FdState) : (scRetry w (n + 1)).run s =
    if w.sc s.asked = .error .EINTR then (scRetry w n).run { s with asked := s.asked + 1 }
    else some (w.sc s.asked, { s with asked := s.asked + 1 }) := by
  conv_lhs => unfold scRetry
  rw [StateT.run_bind, sc_run, Option.bind_eq_bind, Option.bind_some]
  split <;> rfl

/-- What a repeated system call gives when it returns. -/
theorem answers_of_scRetry {s s' : FdState} {r : Except Errno ℕ}
    (h : (scRetry w n).run s = some (r, s')) : Answers w s.asked r ∧ s'.fd = s.fd := by
  induction n generalizing s with
  | zero => simp [scRetry, StateT.run_failure] at h
  | succ n ih =>
    rw [scRetry_run] at h
    split at h
    · next heintr =>
      obtain ⟨hr, hfd⟩ := ih h
      exact ⟨.again heintr hr, hfd⟩
    · next hne =>
      obtain ⟨rfl, rfl⟩ := Prod.mk.inj (Option.some.inj h)
      exact ⟨.now hne, rfl⟩

/-- With enough fuel it returns. -/
theorem scRetry_of_answers {k : ℕ} {r : Except Errno ℕ} (h : Answers w k r) (fd : Fd) :
    ∃ n s', (scRetry w n).run ⟨k, fd⟩ = some (r, s') ∧ s'.fd = fd := by
  induction h with
  | now hne => exact ⟨1, _, by rw [scRetry_run, if_neg hne], rfl⟩
  | again heintr _ ih =>
    obtain ⟨n, s', hrun, hfd⟩ := ih
    exact ⟨n + 1, s', by rw [scRetry_run, if_pos heintr, hrun], hfd⟩

/-! ## From a blocking descriptor -/

theorem enter_run (fd : ℤ) (k : ℕ) : (enter fd).run ⟨k, .blocking⟩ =
    if InRange fd then some (some .block, ⟨k, .nonblocking⟩)
    else some (none, ⟨k, .blocking⟩) := by
  have hvalid : (valid fd).run ⟨k, .blocking⟩ = some (decide (InRange fd), ⟨k, .blocking⟩) := by
    simp [valid, StateT.run]
  unfold enter
  rw [StateT.run_bind, hvalid, Option.bind_eq_bind, Option.bind_some]
  by_cases hfd : InRange fd
  · simp only [hfd, decide_true]
    rfl
  · simp only [hfd, decide_false, if_false]
    rfl

/-- The body has to restore the mode where it returns by itself. -/
theorem inNonblock_iff {fd : ℤ} (hfd : InRange fd) {body : FdMode → FdM Leave} {k : ℕ} :
    (∀ r s', (inNonblock fd body).run ⟨k, .blocking⟩ = some (r, s') → Restored s') ↔
      ∀ l s', (body .block).run ⟨k, .nonblocking⟩ = some (l, s') → Returned l s' := by
  have hrun : (inNonblock fd body).run ⟨k, .blocking⟩ =
      (body .block).run ⟨k, .nonblocking⟩ >>= fun x => (finish .block x.1).run x.2 := by
    unfold inNonblock
    rw [StateT.run_bind, enter_run, if_pos hfd]
    rfl
  constructor
  · rintro h l s' hl r rfl
    refine h r s' ?_
    rw [hrun, hl]
    rfl
  · intro h r s' hr
    rw [hrun, Option.bind_eq_bind, Option.bind_eq_some_iff] at hr
    obtain ⟨⟨l, s₁⟩, hl, hfinish⟩ := hr
    exact finish_block s₁ r s' (h l s₁ hl) hfinish

theorem inNonblock_of_not_inRange {fd : ℤ} (hfd : ¬ InRange fd) {body : FdMode → FdM Leave}
    {k : ℕ} {r : Except Errno ℕ} {s' : FdState}
    (h : (inNonblock fd body).run ⟨k, .blocking⟩ = some (r, s')) : Restored s' := by
  unfold inNonblock at h
  rw [StateT.run_bind, enter_run, if_neg hfd] at h
  obtain ⟨-, rfl⟩ := Prod.mk.inj (Option.some.inj h)
  simp [Restored]

/-- The direct poll fails with an error that `pth_write_ev` and `pth_sendto_ev` return. -/
def PollFails (w : FdWorld) (k : ℕ) : Prop :=
  ∃ e, (e = .EINVAL ∨ e = .EBADF) ∧ Answers w k (.error e)

theorem pollWrite_iff {sleeps : Bool} {k nbytes : ℕ} :
    (∀ n l s', (pollWrite w n extra sleeps .block nbytes).run ⟨k, .nonblocking⟩ = some (l, s') →
      Returned l s') ↔ ¬ PollFails w k := by
  constructor
  · rintro h ⟨e, he, hans⟩
    obtain ⟨n, s', hrun, hfd⟩ := scRetry_of_answers hans .nonblocking
    refine h n (.returns (.error e)) s' ?_ _ rfl hfd
    unfold pollWrite
    rw [StateT.run_bind, hrun, Option.bind_eq_bind, Option.bind_some]
    simp only [he, if_true]
    rfl
  · intro h n l s' hrun
    unfold pollWrite at hrun
    rw [StateT.run_bind, Option.bind_eq_bind, Option.bind_eq_some_iff] at hrun
    obtain ⟨⟨r, s₁⟩, hr, hrest⟩ := hrun
    have hans := (answers_of_scRetry hr).1
    cases r with
    | error e =>
      have he : ¬ (e = .EINVAL ∨ e = .EBADF) := fun he => h ⟨e, he, hans⟩
      simp only [he, if_false] at hrest
      exact writeLoop_returned (P := fun _ => True) _ _ _ _ s₁ l s' trivial hrest
    | ok r => exact writeLoop_returned (P := fun _ => True) _ _ _ _ s₁ l s' trivial hrest

/-- The second check of the descriptor passes. -/
theorem sendtoPolled_run {fd : ℤ} (hfd : InRange fd) (n k nbytes : ℕ) :
    (sendtoPolled w n extra .block fd nbytes).run ⟨k, .nonblocking⟩ =
      (pollWrite w n extra false .block nbytes).run ⟨k, .nonblocking⟩ := by
  have hvalid : (valid fd).run ⟨k, .nonblocking⟩ = some (true, ⟨k, .nonblocking⟩) := by
    simp [valid, StateT.run, hfd]
  unfold sendtoPolled
  rw [StateT.run_bind, hvalid, Option.bind_eq_bind, Option.bind_some]
  rfl

theorem pollWritev_returned (iov : List ℕ) :
    Triple P (pollWritev w n extra .block iov) Returned := by
  refine (triple_any _).bind fun r => ?_
  cases r with
  | error e => exact writeLoop_returned _ _ _ _
  | ok r => exact writeLoop_returned _ _ _ _

theorem writevPolled_run (k : ℕ) (iov : List ℕ) :
    (writevPolled w n extra .block iov).run ⟨k, .nonblocking⟩ =
      if iov.length > tiovStack then
        if w.malloc k then (pollWritev w n extra .block iov).run ⟨k + 1, .nonblocking⟩
        else some (.returns (.error .ENOMEM), ⟨k + 1, .nonblocking⟩)
      else (pollWritev w n extra .block iov).run ⟨k, .nonblocking⟩ := by
  unfold writevPolled
  by_cases hlen : iov.length > tiovStack
  · have hmalloc : (w.malloc <$> ask).run ⟨k, .nonblocking⟩ =
        some (w.malloc k, ⟨k + 1, .nonblocking⟩) := rfl
    rw [if_pos hlen, if_pos hlen, StateT.run_bind, hmalloc, Option.bind_eq_bind, Option.bind_some]
    cases w.malloc k <;> rfl
  · rw [if_neg hlen, if_neg hlen, pure_bind]
    rfl

/-- Once the vector has memory, every way through `pth_writev_ev` restores the mode. -/
theorem writevPolled_iff {k : ℕ} {iov : List ℕ} :
    (∀ n l s', (writevPolled w n extra .block iov).run ⟨k, .nonblocking⟩ = some (l, s') →
      Returned l s') ↔ (iov.length > tiovStack → w.malloc k = true) := by
  simp only [writevPolled_run]
  constructor
  · intro h hlen
    by_contra hm
    have hreturned := h 0 (.returns (.error .ENOMEM)) ⟨k + 1, .nonblocking⟩
      (by rw [if_pos hlen, if_neg hm])
    exact hreturned _ rfl rfl
  · intro h n l s' hrun
    split at hrun
    · next hlen =>
      rw [if_pos (h hlen)] at hrun
      exact pollWritev_returned (P := fun _ => True) iov _ l s' trivial hrun
    · exact pollWritev_returned (P := fun _ => True) iov _ l s' trivial hrun

/-- The first round of `pth_accept_ev` decides. -/
theorem acceptLoop_iff {k : ℕ} :
    (∀ n l s', (acceptLoop w extra .block n false).run ⟨k, .nonblocking⟩ = some (l, s') →
      Returned l s') ↔ ¬ (w.sc k = .error .EAGAIN ∧ ∃ e, w.event (k + 1) = .error e) := by
  have hrun (n : ℕ) : (acceptLoop w extra .block (n + 1) false).run ⟨k, .nonblocking⟩ =
      if w.sc k = .error .EAGAIN then
        match w.event (k + 1) with
        | .error e => some (.returns (.error e), ⟨k + 2, .nonblocking⟩)
        | .ok _ => (acceptWait w extra .block (acceptLoop w extra .block n true)).run
          ⟨k + 2, .nonblocking⟩
      else some (.breaks (w.sc k), ⟨k + 1, .nonblocking⟩) := by
    conv_lhs => unfold acceptLoop
    rw [StateT.run_bind, sc_run, Option.bind_eq_bind, Option.bind_some]
    by_cases hagain : w.sc k = .error .EAGAIN
    · rw [if_pos ⟨hagain, nofun⟩, if_pos hagain, StateT.run_bind]
      simp only [Bool.false_eq_true, if_false, event_run]
      cases w.event (k + 1) <;> rfl
    · rw [if_neg fun h => hagain h.1, if_neg hagain]
      rfl
  constructor
  · rintro h ⟨hagain, e, he⟩
    refine h 1 (.returns (.error e)) ⟨k + 2, .nonblocking⟩ ?_ _ rfl rfl
    rw [hrun, if_pos hagain, he]
  · intro h n l s' hl
    cases n with
    | zero => simp [acceptLoop, StateT.run_failure] at hl
    | succ n =>
      rw [hrun] at hl
      split at hl
      · next hagain =>
        split at hl
        · next e he => exact absurd ⟨hagain, e, he⟩ h
        · exact acceptWait_returned (P := fun _ => True) (acceptLoop_returned n) _ l s' trivial hl
      · obtain ⟨rfl, -⟩ := Prod.mk.inj (Option.some.inj hl)
        exact nofun

/-- `pth_connect_ev` restores the mode before anything can go wrong. -/
theorem connectEv_restored {fd : ℤ} {k : ℕ} {r : Except Errno ℕ} {s' : FdState}
    (h : (connectEv w n fd extra).run ⟨k, .blocking⟩ = some (r, s')) : Restored s' := by
  unfold connectEv at h
  rw [StateT.run_bind, enter_run] at h
  split at h
  · have hrest : Triple (fun _ => True) (do
        let rv ← scRetry w n
        let _ ← fdmode .block
        if rv = .error .EINPROGRESS ∧ FdMode.block ≠ .nonblock then connectWait w extra
        else pure rv) fun _ => Restored := by
      refine (triple_any _).bind fun rv => fdmode_block.bind fun _ => ?_
      split
      · exact connectWait_restored
      · exact .pure fun _ h => h
    exact hrest _ r s' trivial h
  · obtain ⟨-, rfl⟩ := Prod.mk.inj (Option.some.inj h)
    simp [Restored]

end FdM

/-! ## The calls -/

/-- The calls that switch the mode of their descriptor, with their sizes. -/
inductive FdCall where
  | connect
  | accept
  | write (nbytes : ℕ)
  | writev (iov : List ℕ)
  | sendto (nbytes : ℕ)

namespace FdCall

open FdM

/-- A call for the descriptor `fd`, with or without extra events. -/
def exec (w : FdWorld) (n : ℕ) (fd : ℤ) (extra : Bool) : FdCall → FdM (Except Errno ℕ)
  | .connect => connectEv w n fd extra
  | .accept => acceptEv w n fd extra
  | .write nbytes => writeEv w n fd nbytes extra
  | .writev iov => writevEv w n fd iov extra
  | .sendto nbytes => sendtoEv w n fd nbytes extra

/-- The outcomes of a call's first questions for which it does not leave its descriptor in
    non-blocking mode: the direct poll of `pth_write_ev` and `pth_sendto_ev` does not fail, there
    is memory for the vector of `pth_writev_ev`, and `pth_accept_ev` has an event if it needs
    one. -/
def Kept (w : FdWorld) : FdCall → Prop
  | .connect => True
  | .accept => ¬ (w.sc 0 = .error .EAGAIN ∧ ∃ e, w.event 1 = .error e)
  | .write nbytes | .sendto nbytes => nbytes ≠ 0 → ¬ PollFails w 0
  | .writev iov => iov.length ≤ uioMaxiov → iov.length > tiovStack → w.malloc 0 = true

/-- Whenever the call returns, its descriptor is closed or in blocking mode again. -/
def Restores (w : FdWorld) (fd : ℤ) (extra : Bool) (call : FdCall) : Prop :=
  ∀ n r s', (call.exec w n fd extra).run ⟨0, .blocking⟩ = some (r, s') → s'.fd ≠ .nonblocking

theorem restores_pure {w : FdWorld} {fd : ℤ} {extra : Bool} {call : FdCall} {r : Except Errno ℕ}
    (h : ∀ n, call.exec w n fd extra = pure r) : call.Restores w fd extra := by
  intro n r' s' hrun
  rw [h] at hrun
  obtain ⟨-, rfl⟩ := Prod.mk.inj (Option.some.inj hrun)
  simp

/-- A call whose work between the switch and the restore is `body`. -/
theorem restores_inNonblock {w : FdWorld} {fd : ℤ} {extra : Bool} {call : FdCall} {Q : Prop}
    {body : ℕ → FdMode → FdM Leave} (hexec : ∀ n, call.exec w n fd extra = inNonblock fd (body n))
    (hbody : InRange fd → ((∀ n l s', (body n .block).run ⟨0, .nonblocking⟩ = some (l, s') →
      Returned l s') ↔ Q)) :
    call.Restores w fd extra ↔ (InRange fd → Q) := by
  unfold Restores
  by_cases hfd : InRange fd
  · rw [← hbody hfd]
    constructor
    · intro h _ n
      refine (inNonblock_iff hfd).mp fun r s' hrun => h n r s' ?_
      rw [hexec, hrun]
    · intro h n r s' hrun
      rw [hexec] at hrun
      exact (inNonblock_iff hfd).mpr (h hfd n) r s' hrun
  · refine iff_of_true (fun n r s' hrun => ?_) (fun h => absurd h hfd)
    rw [hexec] at hrun
    exact inNonblock_of_not_inRange hfd hrun

/-- For every sequence of outcomes: the calls restore the mode if and only if the outcomes of
    their first questions are in order. -/
theorem restores_iff_kept (w : FdWorld) (fd : ℤ) (extra : Bool) (call : FdCall) :
    call.Restores w fd extra ↔ (InRange fd → call.Kept w) := by
  cases call with
  | connect => exact iff_of_true (fun n r s' hrun => connectEv_restored hrun) fun _ => trivial
  | accept =>
    exact restores_inNonblock (fun n => rfl) fun _ => acceptLoop_iff
  | write nbytes =>
    by_cases hn : nbytes = 0
    · exact iff_of_true (restores_pure fun n => if_pos hn) fun _ h => absurd hn h
    · have hexec (n : ℕ) : (write nbytes).exec w n fd extra = inNonblock fd fun mode =>
          if mode ≠ .nonblock then pollWrite w n extra true mode nbytes
          else Leave.breaks <$> scRetry w n := if_neg hn
      refine (restores_inNonblock hexec fun _ => pollWrite_iff).trans ?_
      simp [Kept, hn]
  | writev iov =>
    by_cases hlen : iov.length = 0 ∨ iov.length > uioMaxiov
    · refine iff_of_true (restores_pure fun n => if_pos hlen) fun _ hmax hstack => ?_
      omega
    · have hexec (n : ℕ) : (writev iov).exec w n fd extra = inNonblock fd fun mode =>
          if mode ≠ .nonblock then writevPolled w n extra mode iov
          else Leave.breaks <$> scRetry w n := if_neg hlen
      refine (restores_inNonblock hexec fun _ => writevPolled_iff).trans ?_
      have hmax : iov.length ≤ uioMaxiov := by omega
      simp [Kept, hmax]
  | sendto nbytes =>
    by_cases hn : nbytes = 0
    · exact iff_of_true (restores_pure fun n => if_pos hn) fun _ h => absurd hn h
    · have hexec (n : ℕ) : (sendto nbytes).exec w n fd extra = inNonblock fd fun mode =>
          if mode ≠ .nonblock then sendtoPolled w n extra mode fd nbytes
          else Leave.breaks <$> scRetry w n := if_neg hn
      refine (restores_inNonblock hexec fun hfd => ?_).trans (b := InRange fd → ¬ PollFails w 0) ?_
      · simp only [ne_eq, reduceCtorEq, not_false_eq_true, if_true, sendtoPolled_run hfd]
        exact pollWrite_iff
      · simp [Kept, hn]

/-- A world in which every system call fails with `e` and no event can be allocated. -/
def failing (e : Errno) : FdWorld where
  sc _ := .error e
  malloc _ := false
  event _ := .error .ENOMEM
  closes _ := false
  occurred _ := false

/-- There is nothing to accept and no memory for the event, or the direct poll of a write fails:
    the call fails and leaves its descriptor in non-blocking mode. -/
theorem mode_not_restored : ¬ accept.Restores (failing .EAGAIN) 3 false ∧
    ¬ (write 1).Restores (failing .EINVAL) 3 false := by
  constructor
  · intro h
    exact h 1 (.error .ENOMEM) ⟨2, .nonblocking⟩ rfl rfl
  · intro h
    exact h 1 (.error .EINVAL) ⟨1, .nonblocking⟩ rfl rfl

end FdCall

end Pth
