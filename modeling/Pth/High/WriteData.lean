-- SUMMARY: The writing functions of pth_high.c with their data, and a log of their system calls, waits and vector accesses.
import Pth.High.FdMode
import Pth.Lib.Logged

/-!
# Writing functions with their data

`pth_write_ev`, `pth_writev_ev` and `pth_sendto_ev` repeat their system call until all data are
written. Here they are modelled with the data that they hand over. `pth_writev_ev` keeps a virtual
position in the caller's vector, which is copied into a temporary vector before it is adjusted for
the first time. The functions are logged; without the log they are the ones of `Pth.High.FdMode`. -/

namespace Pth

/-- `struct iovec` -/
structure Iovec where
  iovBase : ℕ
  iovLen : ℕ
  deriving DecidableEq, Repr, Inhabited

/-- The caller's vector and the temporary one. -/
inductive IovArray where
  | riov
  | tiov
  deriving DecidableEq, Repr

/-- An element of a vector that is read or stored to. -/
structure Touch where
  array : IovArray
  index : ℕ
  store : Bool
  deriving DecidableEq, Repr

/-- What is logged: what `pth_writev_iov_advance` does to the vectors, a system call with the chunks
    that it was given and its result, and a sleep, with whether an extra event has ended it. -/
inductive WriteEntry where
  | touched (t : Touch)
  | wrote (given : List Iovec) (r : Except Errno ℕ)
  | slept (interrupted : Bool)

/-! ## The vector -/

/-- The contents of the vectors, and the variables `liov` and `liovcnt`. -/
structure Iovs where
  arr : IovArray → ℕ → Iovec
  liov : Option (IovArray × ℕ)
  liovcnt : ℕ

/-- The elements of a vector from `i` on. -/
def chunks (arr : IovArray → ℕ → Iovec) (a : IovArray) : ℕ → ℕ → List Iovec
  | _, 0 => []
  | i, cnt + 1 => arr a i :: chunks arr a (i + 1) cnt

/-- Store an element. -/
def setIov (arr : IovArray → ℕ → Iovec) (a : IovArray) (i : ℕ) (v : Iovec) :
    IovArray → ℕ → Iovec :=
  Function.update arr a (Function.update (arr a) i v)

namespace Iovs

/-- The chunks that are given to `writev(2)`. -/
def given (x : Iovs) : List Iovec :=
  match x.liov with
  | none => []
  | some (a, i) => chunks x.arr a i x.liovcnt

/-- The loop that copies the caller's vector. -/
def copyLoop (arr : IovArray → ℕ → Iovec) (riovcnt : ℕ) :
    (IovArray → ℕ → Iovec) × List Touch :=
  ((List.range riovcnt).foldl (fun arr i => setIov arr .tiov i (arr .riov i)) arr,
    (List.range riovcnt).flatMap fun i => [⟨.riov, i, false⟩, ⟨.tiov, i, true⟩])

/-- The loop that advances the virtual pointer, which stands at the element `i`. -/
def advanceLoop (arr : IovArray → ℕ → Iovec) (a : IovArray) : ℕ → ℕ → ℕ → Iovs × List Touch
  | i, 0, _ => (⟨arr, some (a, i), 0⟩, [])
  | i, cnt + 1, advance =>
    if advance = 0 then (⟨arr, some (a, i), cnt + 1⟩, [])
    else if advance < (arr a i).iovLen then
      let v := { iovBase := (arr a i).iovBase + advance, iovLen := (arr a i).iovLen - advance }
      (⟨setIov arr a i v, some (a, i), cnt + 1⟩, [⟨a, i, false⟩, ⟨a, i, true⟩])
    else
      let r := advanceLoop arr a (i + 1) cnt (advance - (arr a i).iovLen)
      (r.1, ⟨a, i, false⟩ :: r.2)

/-- `pth_writev_iov_advance` -/
def advance (riovcnt advance : ℕ) (x : Iovs) : Iovs × List Touch :=
  -- initialize with real (const) structure on first step
  let x := if x.liov = none ∧ x.liovcnt = 0 then
    { x with liov := some (.riov, 0), liovcnt := riovcnt } else x
  if 0 < advance then
    if x.liov = some (.riov, 0) ∧ x.liovcnt = riovcnt then
      -- reinitialize with a copy to be able to adjust it
      let c := copyLoop x.arr riovcnt
      let r := advanceLoop c.1 .tiov 0 riovcnt advance
      (r.1, c.2 ++ r.2)
    else
      match x.liov with
      | none => (x, [])
      | some (a, i) => advanceLoop x.arr a i x.liovcnt advance
  else (x, [])

end Iovs

/-- `pth_writev_iov_bytes` -/
def iovBytes : List Iovec → ℕ
  | [] => 0
  | v :: iov => if v.iovLen = 0 then iovBytes iov else v.iovLen + iovBytes iov

/-- The vectors when `pth_writev_ev` begins; the temporary one has any contents. -/
def Iovs.init (iov : List Iovec) (tiov : ℕ → Iovec) : Iovs where
  arr
    | .riov => fun i => iov.getD i default
    | .tiov => tiov
  liov := none
  liovcnt := 0

/-! ## The functions -/

/-- Where a function takes its data from: the chunks for the next system call, and what is done
    when some of them have been written. -/
structure Source (δ : Type) where
  given : δ → List Iovec
  advance : ℕ → δ → δ × List Touch

/-- The buffer of `pth_write_ev` and `pth_sendto_ev`. -/
def Source.buffer : Source Iovec where
  given v := [v]
  advance s v := ({ iovBase := v.iovBase + s, iovLen := v.iovLen - s }, [])

/-- The vector of `pth_writev_ev`. -/
def Source.vector (riovcnt : ℕ) : Source Iovs where
  given := Iovs.given
  advance s x := x.advance riovcnt s

abbrev WriteM := Logged FdState WriteEntry

namespace WriteM

/-- `FdM.sleep` -/
def sleep (w : FdWorld) (extra : Bool) : WriteM Bool := do
  let b ← .lift (FdM.sleep w extra)
  .tell [.slept b]
  pure b

/-- The system call that writes, repeated while it is interrupted. -/
def scRetry (w : FdWorld) (given : List Iovec) : ℕ → WriteM (Except Errno ℕ)
  | 0 => .failure
  | n + 1 => do
    let r ← .lift (FdM.sc w)
    .tell [.wrote given r]
    if r = .error .EINTR then scRetry w given n else pure r

/-- Sleep unless the descriptor is known to be writeable. -/
def sleepIf (w : FdWorld) (extra idle : Bool) : WriteM Bool :=
  if idle then sleep w extra else pure false

section

variable {δ : Type} (D : Source δ) (w : FdWorld) (n : ℕ) (extra : Bool) (mode : FdMode)

/-- `FdM.writeLoop` -/
def writeLoop : ℕ → Bool → ℕ → ℕ → δ → WriteM Leave
  | 0, _, _, _, _ => .failure
  | k + 1, idle, nbytes, rv, d => do
    if ← sleepIf w extra idle then do
      let _ ← .lift (FdM.fdmode mode)
      pure (.returns (.error .EINTR))
    else
      match ← scRetry w (D.given d) n with
      | .ok s =>
        if 0 < s ∧ s < nbytes then do
          .tell ((D.advance s d).2.map .touched)
          writeLoop k true (nbytes - s) (rv + s) (D.advance s d).1
        else pure (.breaks (.ok (rv + s)))
      | .error e => pure (.breaks (if rv = 0 then .error e else .ok rv))

/-- `FdM.pollWrite` -/
def pollWrite (sleeps : Bool) (nbytes : ℕ) (d : δ) : WriteM Leave := do
  match ← .lift (FdM.scRetry w n) with
  | .error e =>
    if e = .EINVAL ∨ e = .EBADF then pure (.returns (.error e))
    else writeLoop D w n extra mode n sleeps nbytes 0 d
  | .ok r => writeLoop D w n extra mode n (r = 0) nbytes 0 d

/-- `FdM.pollWritev` -/
def pollWritev (nbytes : ℕ) (d : δ) : WriteM Leave := do
  match ← .lift (FdM.scRetry w n) with
  | .error _ => writeLoop D w n extra mode n true nbytes 0 d
  | .ok r => writeLoop D w n extra mode n (r = 0) nbytes 0 d

end

/-- `FdM.inNonblock` -/
def inNonblock (fd : ℤ) (body : FdMode → WriteM Leave) : WriteM (Except Errno ℕ) := do
  match ← .lift (FdM.enter fd) with
  | none => pure (.error .EBADF)
  | some mode => do
    let l ← body mode
    .lift (FdM.finish mode l)

/-- The system call of a function on a descriptor in non-blocking mode. -/
def plain (w : FdWorld) (n : ℕ) (given : List Iovec) : WriteM Leave := do
  let r ← scRetry w given n
  pure (.breaks r)

/-- `pth_write_ev` of the buffer `buf`. -/
def writeEv (w : FdWorld) (n : ℕ) (fd : ℤ) (buf : Iovec) (extra : Bool) :
    WriteM (Except Errno ℕ) :=
  if buf.iovLen = 0 then pure (.ok 0)
  else
    inNonblock fd fun mode =>
      if mode ≠ .nonblock then pollWrite .buffer w n extra mode true buf.iovLen buf
      else plain w n [buf]

/-- `FdM.writevPolled` -/
def writevPolled (w : FdWorld) (n : ℕ) (extra : Bool) (mode : FdMode) (iov : List Iovec)
    (tiov : ℕ → Iovec) : WriteM Leave := do
  let malloc ← .lift (if iov.length > tiovStack then w.malloc <$> FdM.ask else pure true)
  if !malloc then pure (.returns (.error .ENOMEM))
  else do
    .tell (((Iovs.init iov tiov).advance iov.length 0).2.map .touched)
    pollWritev (.vector iov.length) w n extra mode (iovBytes iov)
      ((Iovs.init iov tiov).advance iov.length 0).1

/-- `pth_writev_ev` of the vector `iov`. -/
def writevEv (w : FdWorld) (n : ℕ) (fd : ℤ) (iov : List Iovec) (tiov : ℕ → Iovec)
    (extra : Bool) : WriteM (Except Errno ℕ) :=
  if iov.length = 0 ∨ iov.length > uioMaxiov then pure (.error .EINVAL)
  else
    inNonblock fd fun mode =>
      if mode ≠ .nonblock then writevPolled w n extra mode iov tiov else plain w n iov

/-- `FdM.sendtoPolled` -/
def sendtoPolled (w : FdWorld) (n : ℕ) (extra : Bool) (mode : FdMode) (fd : ℤ) (buf : Iovec) :
    WriteM Leave := do
  if !(← .lift (FdM.valid fd)) then do
    let _ ← .lift (FdM.fdmode mode)
    pure (.returns (.error .EBADF))
  else pollWrite .buffer w n extra mode false buf.iovLen buf

/-- `pth_sendto_ev` of the buffer `buf`. -/
def sendtoEv (w : FdWorld) (n : ℕ) (fd : ℤ) (buf : Iovec) (extra : Bool) :
    WriteM (Except Errno ℕ) :=
  if buf.iovLen = 0 then pure (.ok 0)
  else
    inNonblock fd fun mode =>
      if mode ≠ .nonblock then sendtoPolled w n extra mode fd buf else plain w n [buf]

/-! ## Without the log -/

theorem erase_sleepIf (w : FdWorld) (extra idle : Bool) :
    (sleepIf w extra idle).erase = if idle then FdM.sleep w extra else pure false := by
  cases idle with
  | false => rfl
  | true => simp [sleepIf, sleep]

theorem erase_scRetry (w : FdWorld) (given : List Iovec) (n : ℕ) :
    (scRetry w given n).erase = FdM.scRetry w n := by
  induction n with
  | zero => rfl
  | succ n ih =>
    unfold scRetry FdM.scRetry
    simp only [Logged.erase_bind, Logged.erase_lift, Logged.erase_tell, pure_bind]
    refine bind_congr fun r => ?_
    split
    · exact ih
    · rfl

theorem erase_writeLoop {δ : Type} (D : Source δ) (w : FdWorld) (n : ℕ) (extra : Bool)
    (mode : FdMode) (k : ℕ) (idle : Bool) (nbytes rv : ℕ) (d : δ) :
    (writeLoop D w n extra mode k idle nbytes rv d).erase =
      FdM.writeLoop w n extra mode k idle nbytes rv := by
  induction k generalizing idle nbytes rv d with
  | zero => rfl
  | succ k ih =>
    unfold writeLoop FdM.writeLoop
    rw [Logged.erase_bind, erase_sleepIf]
    refine bind_congr fun interrupted => ?_
    split
    · rfl
    · rw [Logged.erase_bind, erase_scRetry]
      refine bind_congr fun r => ?_
      cases r with
      | error e => rfl
      | ok s =>
        dsimp only
        split
        · rw [Logged.erase_bind, Logged.erase_tell, pure_bind]
          exact ih ..
        · rfl

theorem erase_pollWrite {δ : Type} (D : Source δ) (w : FdWorld) (n : ℕ) (extra : Bool)
    (mode : FdMode) (sleeps : Bool) (nbytes : ℕ) (d : δ) :
    (pollWrite D w n extra mode sleeps nbytes d).erase =
      FdM.pollWrite w n extra sleeps mode nbytes := by
  unfold pollWrite FdM.pollWrite
  rw [Logged.erase_bind, Logged.erase_lift]
  refine bind_congr fun r => ?_
  cases r with
  | error e =>
    dsimp only
    split
    · rfl
    · exact erase_writeLoop ..
  | ok r => exact erase_writeLoop ..

theorem iovBytes_eq (iov : List Iovec) : iovBytes iov = (iov.map Iovec.iovLen).sum := by
  induction iov with
  | nil => rfl
  | cons v iov ih =>
    rw [iovBytes, List.map_cons, List.sum_cons, ← ih]
    split
    case isTrue h => rw [h, Nat.zero_add]
    case isFalse => rfl

theorem erase_pollWritev {δ : Type} (D : Source δ) (w : FdWorld) (n : ℕ) (extra : Bool)
    (mode : FdMode) (iov : List Iovec) (d : δ) :
    (pollWritev D w n extra mode (iovBytes iov) d).erase =
      FdM.pollWritev w n extra mode (iov.map Iovec.iovLen) := by
  unfold pollWritev FdM.pollWritev
  rw [Logged.erase_bind, Logged.erase_lift, iovBytes_eq]
  refine bind_congr fun r => ?_
  cases r with
  | error e => exact erase_writeLoop ..
  | ok r => exact erase_writeLoop ..

theorem erase_inNonblock {fd : ℤ} {body : FdMode → WriteM Leave} {body' : FdMode → FdM Leave}
    (h : ∀ mode, (body mode).erase = body' mode) :
    (inNonblock fd body).erase = FdM.inNonblock fd body' := by
  unfold inNonblock FdM.inNonblock
  rw [Logged.erase_bind, Logged.erase_lift]
  refine bind_congr fun mode => ?_
  cases mode with
  | none => rfl
  | some mode =>
    dsimp only
    rw [Logged.erase_bind, h]
    rfl

theorem erase_plain (w : FdWorld) (n : ℕ) (given : List Iovec) :
    (plain w n given).erase = Leave.breaks <$> FdM.scRetry w n := by
  rw [plain, Logged.erase_bind, erase_scRetry, map_eq_pure_bind]
  rfl

theorem erase_writeEv (w : FdWorld) (n : ℕ) (fd : ℤ) (buf : Iovec) (extra : Bool) :
    (writeEv w n fd buf extra).erase = FdM.writeEv w n fd buf.iovLen extra := by
  unfold writeEv FdM.writeEv
  split
  · rfl
  · refine erase_inNonblock fun mode => ?_
    split
    · exact erase_pollWrite ..
    · exact erase_plain ..

theorem erase_writevPolled (w : FdWorld) (n : ℕ) (extra : Bool) (mode : FdMode)
    (iov : List Iovec) (tiov : ℕ → Iovec) : (writevPolled w n extra mode iov tiov).erase =
      FdM.writevPolled w n extra mode (iov.map Iovec.iovLen) := by
  unfold writevPolled FdM.writevPolled
  rw [Logged.erase_bind, Logged.erase_lift, List.length_map]
  have hrest : ∀ malloc : Bool, Logged.erase (if !malloc then pure (.returns (.error .ENOMEM))
      else do
        .tell (((Iovs.init iov tiov).advance iov.length 0).2.map .touched)
        pollWritev (.vector iov.length) w n extra mode (iovBytes iov)
          ((Iovs.init iov tiov).advance iov.length 0).1) =
      if !malloc then pure (.returns (.error .ENOMEM))
      else FdM.pollWritev w n extra mode (iov.map Iovec.iovLen) := by
    intro malloc
    cases malloc with
    | false => rfl
    | true =>
      simp only [Bool.not_true, Bool.false_eq_true, if_false, Logged.erase_bind, Logged.erase_tell,
        pure_bind]
      exact erase_pollWritev ..
  simp only [hrest]
  split <;> rfl

theorem erase_writevEv (w : FdWorld) (n : ℕ) (fd : ℤ) (iov : List Iovec) (tiov : ℕ → Iovec)
    (extra : Bool) : (writevEv w n fd iov tiov extra).erase =
      FdM.writevEv w n fd (iov.map Iovec.iovLen) extra := by
  unfold writevEv FdM.writevEv
  rw [List.length_map]
  split
  · rfl
  · refine erase_inNonblock fun mode => ?_
    split
    · exact erase_writevPolled ..
    · exact erase_plain ..

theorem erase_sendtoEv (w : FdWorld) (n : ℕ) (fd : ℤ) (buf : Iovec) (extra : Bool) :
    (sendtoEv w n fd buf extra).erase = FdM.sendtoEv w n fd buf.iovLen extra := by
  unfold sendtoEv FdM.sendtoEv
  split
  · rfl
  · refine erase_inNonblock fun mode => ?_
    split
    · unfold sendtoPolled FdM.sendtoPolled
      rw [Logged.erase_bind, Logged.erase_lift]
      refine bind_congr fun valid => ?_
      split
      · rfl
      · exact erase_pollWrite ..
    · exact erase_plain ..

end WriteM

end Pth
