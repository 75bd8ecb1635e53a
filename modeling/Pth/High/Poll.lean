-- SUMMARY: pth_poll_ev: how an array of pollfd entries goes through four descriptor sets and back.
import Mathlib.Data.Finset.Filter
import Pth.High.FdMode
import Pth.Sched.Scanning

/-!
# Poll

`pth_poll_ev` builds the sets of one `pth_select_ev` from the entries, with a fourth set for the
invalid descriptors, and reads the results of the entries from what is left of the sets. A set has
room for `FD_SETSIZE` descriptors: `FD_SET` and `FD_ISSET` of any other number touch memory outside
the set, which is a fault. -/

namespace Pth

open FdM (InRange)

/-- The bits of `events` and `revents`. -/
inductive PollBit where
  | pollin
  | pollpri
  | pollout
  | pollerr
  | pollhup
  | pollnval
  | pollrdnorm
  | pollrdband
  | pollwrnorm
  | pollwrband
  deriving DecidableEq, Repr

/-- The part of a `struct pollfd` that is read. -/
structure PollFd where
  fd : ℤ
  events : Finset PollBit

/-- `FD_SET` -/
def fdSet (fd : ℤ) (x : FdSet) : Option FdSet :=
  if InRange fd then some (Function.update x fd.toNat true) else none

/-- `FD_ISSET` -/
def fdIsset (fd : ℤ) (x : FdSet) : Option Bool :=
  if InRange fd then some (x fd.toNat) else none

theorem fdSet_eq {fd : ℤ} (h : InRange fd) (x : FdSet) :
    fdSet fd x = some (Function.update x fd.toNat true) := if_pos h

theorem fdIsset_eq {fd : ℤ} (h : InRange fd) (x : FdSet) : fdIsset fd x = some (x fd.toNat) :=
  if_pos h

theorem fdValid_inRange {isOpen : ℕ → Bool} {fd : ℤ} (h : fdValid isOpen fd = true) :
    InRange fd := by
  simp only [fdValid, Bool.and_eq_true, decide_eq_true_eq] at h
  exact h.1

namespace Poll

/-! ## The function -/

/-- The bits that ask for a mode. -/
def bits : FdKind → Finset PollBit
  | .read => {.pollin, .pollrdnorm}
  | .write => {.pollout, .pollwrnorm, .pollwrband}
  | .except => {.pollpri, .pollrdband}

/-- An entry asks for a mode. -/
def asks (p : PollFd) (k : FdKind) : Bool := decide (¬ Disjoint p.events (bits k))

/-- An entry asks for any mode. -/
def asksAny (p : PollFd) : Bool := asks p .read || asks p .write || asks p .except

/-- `rfds`, `wfds` and `efds`, the set `xfds` of the invalid descriptors, and `maxfd`. -/
structure PollSets where
  sets : FdSets
  xfds : FdSet
  maxfd : ℤ

/-- `FD_SET` under a condition. -/
def fdSetIf (b : Bool) (fd : ℤ) (x : FdSet) : Option FdSet := if b then fdSet fd x else some x

/-- One step of the loop that builds the sets. -/
def addEntry (isOpen : ℕ → Bool) (x : PollSets) (p : PollFd) : Option PollSets :=
  if !fdValid isOpen p.fd then do
    let xfds ← fdSet p.fd x.xfds
    pure { x with xfds := xfds }
  else do
    let rfds ← fdSetIf (asks p .read) p.fd x.sets.r
    let wfds ← fdSetIf (asks p .write) p.fd x.sets.w
    let efds ← fdSetIf (asks p .except) p.fd x.sets.e
    pure { x with
      sets := ⟨rfds, wfds, efds⟩
      maxfd := if x.maxfd ≤ p.fd ∧ asksAny p then p.fd else x.maxfd }

/-- The loop that builds the sets. -/
def buildSets (isOpen : ℕ → Bool) (pfd : List PollFd) : Option PollSets :=
  pfd.foldlM (addEntry isOpen) ⟨.zero, fun _ => false, -1⟩

/-- A requested bit is added to the result. -/
def raise (p : PollFd) (revents : Finset PollBit) (b : PollBit) : Finset PollBit :=
  if b ∈ p.events then insert b revents else revents

/-- The bits of a readable descriptor. After a hang-up error of `recv(2)` they are replaced. -/
def readEvents (hangup : Bool) (p : PollFd) : Finset PollBit :=
  let revents := raise p (raise p ∅ .pollin) .pollrdnorm
  if hangup then insert .pollhup ((revents.erase .pollin).erase .pollrdnorm) else revents

def writeEvents (p : PollFd) : Finset PollBit :=
  raise p (raise p (raise p ∅ .pollout) .pollwrnorm) .pollwrband

def exceptEvents (p : PollFd) : Finset PollBit := raise p (raise p ∅ .pollpri) .pollrdband

/-- One step of the loop for the results: `revents`, and whether the entry is counted. The first
    set that has the descriptor decides. -/
def resultOf (x : PollSets) (ready : FdSets) (hangup : Bool) (p : PollFd) :
    Option (Finset PollBit × Bool) := do
  let invalid ← fdIsset p.fd x.xfds
  if invalid then
    pure (if 0 ≤ p.fd then ({.pollnval}, true) else (∅, false))
  else if x.maxfd = -1 then pure (∅, false)
  else do
    let r ← fdIsset p.fd ready.r
    if r then pure (readEvents hangup p, true)
    else do
      let w ← fdIsset p.fd ready.w
      if w then pure (writeEvents p, true)
      else do
        let e ← fdIsset p.fd ready.e
        if e then pure (exceptEvents p, true) else pure (∅, false)

/-- The loop for the results: the number that is returned, and `revents` of all entries. What
    `recv(2)` says is numbered by the entries. -/
def results (x : PollSets) (ready : FdSets) :
    (ℕ → Bool) → List PollFd → Option (ℕ × List (Finset PollBit))
  | _, [] => some (0, [])
  | hangup, p :: pfd => do
    let e ← resultOf x ready (hangup 0) p
    let r ← results x ready (fun i => hangup (i + 1)) pfd
    pure (if e.2 then r.1 + 1 else r.1, e.1 :: r.2)

/-- The conversion of the timeout. -/
def timeval (timeout : ℤ) : Except Errno (Option Time) :=
  if timeout = 0 then .ok (some .zero)
  else if timeout = -1 then .ok none
  else if 0 < timeout then
    .ok (some { tvSec := timeout / 1000, tvUsec := timeout % 1000 * 1000 })
  else .error .EINVAL

/-- The request to `pth_select_ev`, if there is one, the result, and the `revents` of the entries
    if they have been assigned. -/
structure Polled where
  asked : Option (ℤ × FdSets × Option Time)
  ret : Except Errno ℕ
  revents : Option (List (Finset PollBit))

/-- `EFAULT` -/
def efault : Errno := .other 14

/-- `pth_poll_ev` after the checks, where `pth_select_ev` gives the number and the sets of
    `answer`. -/
def pollSelect (isOpen : ℕ → Bool) (hangup : ℕ → Bool) (answer : Except Errno (ℕ × FdSets))
    (pfd : List PollFd) (ptv : Option Time) : Option Polled := do
  let x ← buildSets isOpen pfd
  if x.maxfd = -1 then do
    let r ← results x x.sets hangup pfd
    pure ⟨none, .ok r.1, some r.2⟩
  else
    let asked := some (x.maxfd + 1, x.sets, ptv)
    match answer with
    | .error err => pure ⟨asked, .error err, none⟩
    | .ok (rc, ready) =>
      if rc = 0 then pure ⟨asked, .ok 0, none⟩
      else do
        let r ← results x ready hangup pfd
        pure ⟨asked, .ok r.1, some r.2⟩

/-- `pth_poll_ev` -/
def pollEv (isOpen : ℕ → Bool) (hangup : ℕ → Bool) (answer : Except Errno (ℕ × FdSets))
    (pfd : Option (List PollFd)) (timeout : ℤ) : Option Polled :=
  match pfd with
  | none => some ⟨none, .error efault, none⟩
  | some pfd =>
    if fdSetsize < pfd.length then some ⟨none, .error .EINVAL, none⟩
    else
      match timeval timeout with
      | .error err => some ⟨none, .error err, none⟩
      | .ok ptv => pollSelect isOpen hangup answer pfd ptv

/-! ## What it is for -/

/-- The call is refused before it looks at the entries. -/
def Refused (pfd : Option (List PollFd)) (timeout : ℤ) : Prop :=
  match pfd with
  | none => True
  | some pfd => fdSetsize < pfd.length ∨ timeout < -1

/-- The sets of an answer. -/
def reported : Except Errno (ℕ × FdSets) → FdSets
  | .ok (_, ready) => ready
  | .error _ => .zero

/-- The requested bits whose mode is ready. -/
def readyBits (ready : FdSets) (p : PollFd) : Finset PollBit :=
  p.events.filter fun b =>
    (b ∈ bits .read ∧ ready.r p.fd.toNat = true) ∨ (b ∈ bits .write ∧ ready.w p.fd.toNat = true) ∨
      (b ∈ bits .except ∧ ready.e p.fd.toNat = true)

/-- The `revents` that an entry should have. -/
def expected (isOpen : ℕ → Bool) (ready : FdSets) (hangup : Bool) (p : PollFd) : Finset PollBit :=
  if p.fd < 0 then ∅
  else if !fdValid isOpen p.fd then {.pollnval}
  else if hangup ∧ ¬ Disjoint (readyBits ready p) (bits .read) then
    insert .pollhup (readyBits ready p \ bits .read)
  else readyBits ready p

/-- Poll reports what is ready: without a fault, and with a result that is no error, all entries
    have the `revents` that they should have, and those with any are counted. -/
def Reports (isOpen : ℕ → Bool) (hangup : ℕ → Bool) (answer : Except Errno (ℕ × FdSets))
    (pfd : Option (List PollFd)) (timeout : ℤ) : Prop :=
  ∃ r, pollEv isOpen hangup answer pfd timeout = some r ∧
    ∀ n, r.ret = .ok n → ∀ l, pfd = some l →
      r.revents = some (l.mapIdx fun i p => expected isOpen (reported answer) (hangup i) p) ∧
        n = (l.mapIdx fun i p => expected isOpen (reported answer) (hangup i) p).countP (· ≠ ∅)

/-- The first of the sets that has the descriptor of an entry is one the entry asks for, and no
    other mode the entry asks for is ready. -/
structure Separate (ready : FdSets) (p : PollFd) : Prop where
  read : ready.r p.fd.toNat = true → asks p .read = true ∧
    ¬ (ready.w p.fd.toNat = true ∧ asks p .write = true) ∧
    ¬ (ready.e p.fd.toNat = true ∧ asks p .except = true)
  write : ready.r p.fd.toNat = false → ready.w p.fd.toNat = true → asks p .write = true ∧
    ¬ (ready.e p.fd.toNat = true ∧ asks p .except = true)
  except : ready.r p.fd.toNat = false → ready.w p.fd.toNat = false → ready.e p.fd.toNat = true →
    asks p .except = true

/-! ## Building the sets -/

variable {isOpen : ℕ → Bool}

/-- The sets that have been built from entries. -/
structure Built (isOpen : ℕ → Bool) (pfd : List PollFd) (x : PollSets) : Prop where
  invalid : ∀ d, x.xfds d = true ↔ ∃ p ∈ pfd, fdValid isOpen p.fd = false ∧ p.fd.toNat = d
  bit : ∀ k d, x.sets.bit k d = true ↔
    ∃ p ∈ pfd, fdValid isOpen p.fd = true ∧ asks p k = true ∧ p.fd.toNat = d
  below : ∀ p ∈ pfd, fdValid isOpen p.fd = true → asksAny p = true → p.fd ≤ x.maxfd
  reached : x.maxfd = -1 ∨
    ∃ p ∈ pfd, fdValid isOpen p.fd = true ∧ asksAny p = true ∧ p.fd = x.maxfd

theorem Built.nil : Built isOpen [] ⟨.zero, fun _ => false, -1⟩ where
  invalid d := by simp
  bit k d := by cases k <;> simp [FdSets.bit, FdSets.zero]
  below := by simp
  reached := .inl rfl

theorem fdSetIf_eq {fd : ℤ} (h : InRange fd) (b : Bool) (x : FdSet) :
    fdSetIf b fd x = some fun d => x d || (b && decide (fd.toNat = d)) := by
  cases b with
  | false => simp [fdSetIf]
  | true =>
    rw [fdSetIf, if_pos rfl, fdSet_eq h]
    congr 1
    funext d
    by_cases hd : fd.toNat = d
    · simp [hd]
    · simp [hd, Function.update_of_ne (Ne.symm hd)]

/-- What the step makes of the sets. -/
def added (isOpen : ℕ → Bool) (x : PollSets) (p : PollFd) : PollSets :=
  let here (d : ℕ) : Bool := decide (p.fd.toNat = d)
  if fdValid isOpen p.fd then
    { x with
      sets := ⟨fun d => x.sets.r d || (asks p .read && here d),
        fun d => x.sets.w d || (asks p .write && here d),
        fun d => x.sets.e d || (asks p .except && here d)⟩
      maxfd := if x.maxfd ≤ p.fd ∧ asksAny p then p.fd else x.maxfd }
  else { x with xfds := fun d => x.xfds d || here d }

theorem addEntry_eq {x : PollSets} {p : PollFd} (h : InRange p.fd) :
    addEntry isOpen x p = some (added isOpen x p) := by
  have hset : fdSet p.fd x.xfds = some fun d => x.xfds d || decide (p.fd.toNat = d) :=
    fdSetIf_eq h true x.xfds
  cases hv : fdValid isOpen p.fd with
  | false => simp [addEntry, added, hv, hset]
  | true => simp [addEntry, added, hv, fdSetIf_eq h]

/-- A number that has no place in a set makes the step fail. -/
theorem addEntry_none {x : PollSets} {p : PollFd} (h : ¬ InRange p.fd) :
    addEntry isOpen x p = none := by
  have hv : fdValid isOpen p.fd = false := by
    rw [← Bool.not_eq_true]
    exact fun hv => h (fdValid_inRange hv)
  simp [addEntry, hv, fdSet, h]

theorem Built.added {pfd : List PollFd} {x : PollSets} (hx : Built isOpen pfd x) (p : PollFd) :
    Built isOpen (pfd ++ [p]) (Poll.added isOpen x p) := by
  cases hv : fdValid isOpen p.fd with
  | false =>
    refine ⟨fun d => ?_, fun k d => ?_, fun q hq hqv hqa => ?_, ?_⟩
    · simp [Poll.added, hv, hx.invalid, or_and_right, exists_or]
    · have hbit := hx.bit k d
      simpa [Poll.added, hv, or_and_right, exists_or] using hbit
    · rcases List.mem_append.mp hq with hq | hq
      · simpa [Poll.added, hv] using hx.below q hq hqv hqa
      · rw [List.mem_singleton.mp hq, hv] at hqv
        cases hqv
    · rcases hx.reached with hnone | ⟨q, hq, h⟩
      · exact .inl (by simpa [Poll.added, hv] using hnone)
      · exact .inr ⟨q, List.mem_append_left _ hq, by simpa [Poll.added, hv] using h⟩
  | true =>
    have hmax : (Poll.added isOpen x p).maxfd =
        if x.maxfd ≤ p.fd ∧ asksAny p then p.fd else x.maxfd := by simp [Poll.added, hv]
    refine ⟨fun d => ?_, fun k d => ?_, fun q hq hqv hqa => ?_, ?_⟩
    · simpa [Poll.added, hv, or_and_right, exists_or] using hx.invalid d
    · have hbit := hx.bit k d
      cases k <;> simp only [FdSets.bit] at hbit <;>
        simp [Poll.added, hv, FdSets.bit, hbit, or_and_right, exists_or]
    · rw [hmax]
      rcases List.mem_append.mp hq with hq | hq
      · have := hx.below q hq hqv hqa
        split <;> omega
      · rw [List.mem_singleton.mp hq] at hqa ⊢
        simp only [hqa, and_true]
        split <;> omega
    · rw [hmax]
      split
      case isTrue h => exact .inr ⟨p, by simp, hv, h.2, rfl⟩
      case isFalse =>
        rcases hx.reached with hnone | ⟨q, hq, h⟩
        · exact .inl hnone
        · exact .inr ⟨q, List.mem_append_left _ hq, h⟩

theorem foldlM_built {done pfd : List PollFd} {x : PollSets} (hx : Built isOpen done x)
    (hpfd : ∀ p ∈ pfd, InRange p.fd) :
    ∃ y, pfd.foldlM (addEntry isOpen) x = some y ∧ Built isOpen (done ++ pfd) y := by
  induction pfd generalizing done x with
  | nil => exact ⟨x, rfl, by simpa using hx⟩
  | cons p pfd ih =>
    have hp := hpfd p (by simp)
    obtain ⟨y, hy, hbuilt⟩ := ih (hx.added p) fun q hq => hpfd q (.tail _ hq)
    refine ⟨y, ?_, by simpa using hbuilt⟩
    rw [List.foldlM_cons, addEntry_eq hp]
    exact hy

/-- The sets are built if all descriptors have a place in them. -/
theorem buildSets_built (isOpen : ℕ → Bool) {pfd : List PollFd} (hpfd : ∀ p ∈ pfd, InRange p.fd) :
    ∃ x, buildSets isOpen pfd = some x ∧ Built isOpen pfd x :=
  foldlM_built .nil hpfd

theorem foldlM_none {pfd : List PollFd} {x : PollSets} {p : PollFd} (hmem : p ∈ pfd)
    (hp : ¬ InRange p.fd) : pfd.foldlM (addEntry isOpen) x = none := by
  induction pfd generalizing x with
  | nil => cases hmem
  | cons q pfd ih =>
    rw [List.foldlM_cons]
    rcases List.mem_cons.mp hmem with rfl | hmem
    · rw [addEntry_none hp]
      rfl
    · cases addEntry isOpen x q with
      | none => rfl
      | some y => exact ih hmem

theorem Built.maxfd {pfd : List PollFd} {x : PollSets} (hx : Built isOpen pfd x) :
    x.maxfd = -1 ↔ ∀ p ∈ pfd, fdValid isOpen p.fd = true → asksAny p = false := by
  constructor
  · intro hmax p hp hv
    by_contra hasks
    have hle := hx.below p hp hv (by simpa using hasks)
    have := (fdValid_inRange hv).1
    omega
  · intro h
    rcases hx.reached with hnone | ⟨p, hp, hv, hasks, -⟩
    · exact hnone
    · rw [h p hp hv] at hasks
      cases hasks

/-- An entry of the array is in the set of the invalid descriptors if its own is invalid. -/
theorem Built.xfds {pfd : List PollFd} {x : PollSets} (hx : Built isOpen pfd x) {p : PollFd}
    (hp : p ∈ pfd) (hrange : ∀ q ∈ pfd, InRange q.fd) :
    x.xfds p.fd.toNat = !fdValid isOpen p.fd := by
  cases hv : fdValid isOpen p.fd with
  | false => exact (hx.invalid _).mpr ⟨p, hp, hv, rfl⟩
  | true =>
    rw [Bool.not_true, ← Bool.not_eq_true]
    intro hbit
    obtain ⟨q, hq, hqv, hfd⟩ := (hx.invalid _).mp hbit
    have hpos := (hrange p hp).1
    have hqpos := (hrange q hq).1
    have heq : q.fd = p.fd := by omega
    rw [heq, hv] at hqv
    cases hqv

/-! ## Reading the results -/

/-- What the step finds for an entry, where `any` says that `pth_select_ev` has been asked. -/
def shown (valid any : Bool) (ready : FdSets) (hangup : Bool) (p : PollFd) :
    Finset PollBit × Bool :=
  if !valid then ({.pollnval}, true)
  else if !any then (∅, false)
  else if ready.r p.fd.toNat then (readEvents hangup p, true)
  else if ready.w p.fd.toNat then (writeEvents p, true)
  else if ready.e p.fd.toNat then (exceptEvents p, true)
  else (∅, false)

theorem resultOf_eq {x : PollSets} {p : PollFd} (hp : InRange p.fd)
    (hx : x.xfds p.fd.toNat = !fdValid isOpen p.fd) (ready : FdSets) (hangup : Bool) :
    resultOf x ready hangup p =
      some (shown (fdValid isOpen p.fd) (decide (x.maxfd ≠ -1)) ready hangup p) := by
  simp only [resultOf, fdIsset_eq hp, hx, Option.bind_eq_bind, Option.bind_some, Option.pure_def,
    if_pos hp.1, shown, decide_not, Bool.not_not, decide_eq_true_eq]
  simp only [apply_ite some]

theorem results_eq {x : PollSets} {ready : FdSets} {pfd : List PollFd}
    {f : Bool → PollFd → Finset PollBit × Bool}
    (h : ∀ p ∈ pfd, ∀ b, resultOf x ready b p = some (f b p)) (hangup : ℕ → Bool) :
    results x ready hangup pfd = some ((pfd.mapIdx fun i p => f (hangup i) p).countP Prod.snd,
      (pfd.mapIdx fun i p => f (hangup i) p).map Prod.fst) := by
  induction pfd generalizing hangup with
  | nil => rfl
  | cons p pfd ih =>
    rw [results, h p (by simp), ih (fun q hq => h q (.tail _ hq))]
    simp [List.mapIdx_cons, List.countP_cons, apply_ite]

/-- The requested bits of one mode. -/
def part (p : PollFd) (k : FdKind) : Finset PollBit := p.events ∩ bits k

theorem asks_iff {p : PollFd} {k : FdKind} : asks p k = true ↔ part p k ≠ ∅ := by
  simp [asks, part, Finset.disjoint_iff_inter_eq_empty]

theorem part_disjoint (p : PollFd) {k k' : FdKind} (h : Disjoint (bits k) (bits k')) :
    Disjoint (part p k) (part p k') :=
  h.mono Finset.inter_subset_right Finset.inter_subset_right

theorem raise_eq (p : PollFd) (revents : Finset PollBit) (b : PollBit) :
    raise p revents b = revents ∪ p.events ∩ {b} := by
  by_cases hb : b ∈ p.events
  · rw [raise, if_pos hb, Finset.inter_singleton_of_mem hb, Finset.insert_eq, Finset.union_comm]
  · rw [raise, if_neg hb, Finset.inter_singleton_of_notMem hb, Finset.union_empty]

theorem readEvents_false (p : PollFd) : readEvents false p = part p .read := by
  ext b
  simp [readEvents, raise_eq, part, bits, and_or_left]

/-- After a hang-up nothing else is left. -/
theorem readEvents_true (p : PollFd) : readEvents true p = {.pollhup} := by
  ext b
  simp only [readEvents, raise_eq, if_true, Finset.mem_insert, Finset.mem_erase, Finset.mem_union,
    Finset.mem_inter, Finset.mem_singleton, Finset.notMem_empty, false_or]
  tauto

theorem writeEvents_eq (p : PollFd) : writeEvents p = part p .write := by
  ext b
  simp [writeEvents, raise_eq, part, bits, and_or_left]

theorem exceptEvents_eq (p : PollFd) : exceptEvents p = part p .except := by
  ext b
  simp [exceptEvents, raise_eq, part, bits, and_or_left]

/-- The requested bits of one mode, if it is ready. -/
def readyPart (ready : FdSets) (p : PollFd) (k : FdKind) : Finset PollBit :=
  if ready.bit k p.fd.toNat then part p k else ∅

/-- The modes that are looked at after the first one. -/
def readyRest (ready : FdSets) (p : PollFd) : Finset PollBit :=
  readyPart ready p .write ∪ readyPart ready p .except

theorem mem_readyPart {ready : FdSets} {p : PollFd} {k : FdKind} {b : PollBit} :
    b ∈ readyPart ready p k ↔ b ∈ p.events ∧ b ∈ bits k ∧ ready.bit k p.fd.toNat = true := by
  rw [readyPart]
  split
  case isTrue h => simp [part, h]
  case isFalse h => simp [h]

theorem readyBits_eq (ready : FdSets) (p : PollFd) :
    readyBits ready p = readyPart ready p .read ∪ readyRest ready p := by
  ext b
  simp only [readyBits, readyRest, Finset.mem_filter, Finset.mem_union, mem_readyPart, FdSets.bit,
    and_or_left]

theorem readyPart_eq_empty {ready : FdSets} {p : PollFd} {k : FdKind} :
    readyPart ready p k = ∅ ↔ ¬ (ready.bit k p.fd.toNat = true ∧ asks p k = true) := by
  rw [readyPart, asks_iff]
  split
  case isTrue h => simp [h]
  case isFalse h => simp [h]

theorem readyPart_subset (ready : FdSets) (p : PollFd) (k : FdKind) :
    readyPart ready p k ⊆ part p k := by
  rw [readyPart]
  split
  · exact Finset.Subset.refl _
  · exact Finset.empty_subset _

theorem readyRest_subset (ready : FdSets) (p : PollFd) :
    readyRest ready p ⊆ bits .write ∪ bits .except :=
  Finset.union_subset_union
    ((readyPart_subset ..).trans Finset.inter_subset_right)
    ((readyPart_subset ..).trans Finset.inter_subset_right)

theorem readyRest_disjoint (ready : FdSets) (p : PollFd) :
    Disjoint (readyRest ready p) (bits .read) :=
  Disjoint.mono_left (readyRest_subset ready p) (by decide)

theorem pollhup_notMem_readyRest (ready : FdSets) (p : PollFd) :
    PollBit.pollhup ∉ readyRest ready p :=
  fun h => absurd (readyRest_subset ready p h) (by decide)

theorem expected_of_valid {ready : FdSets} {hangup : Bool} {p : PollFd}
    (hv : fdValid isOpen p.fd = true) : expected isOpen ready hangup p =
      if hangup = true ∧ readyPart ready p .read ≠ ∅ then insert .pollhup (readyRest ready p)
      else readyPart ready p .read ∪ readyRest ready p := by
  have hfd : ¬ p.fd < 0 := Int.not_lt.mpr (fdValid_inRange hv).1
  have hread : readyPart ready p .read ⊆ bits .read :=
    (readyPart_subset ..).trans Finset.inter_subset_right
  have hdisj : Disjoint (readyBits ready p) (bits .read) ↔ readyPart ready p .read = ∅ := by
    rw [readyBits_eq, Finset.disjoint_union_left, and_iff_left (readyRest_disjoint ready p)]
    constructor
    · intro h
      exact disjoint_self.mp (h.mono_right hread)
    · intro h
      rw [h]
      exact Finset.disjoint_empty_left _
  have hsdiff : readyBits ready p \ bits .read = readyRest ready p := by
    rw [readyBits_eq, Finset.union_sdiff_distrib, Finset.sdiff_eq_empty_iff_subset.mpr hread,
      Finset.empty_union]
    exact Finset.sdiff_eq_self_of_disjoint (readyRest_disjoint ready p)
  simp only [expected, if_neg hfd, hv, hsdiff, hdisj, Bool.not_true, Bool.false_eq_true, if_false,
    ne_eq]
  rw [readyBits_eq]

/-- Of two sets that have no bit in common, the first is their union just if the other is empty. -/
theorem eq_union_iff {A B : Finset PollBit} (h : Disjoint A B) : A = A ∪ B ↔ B = ∅ := by
  constructor
  · intro heq
    have hsub : B ⊆ A := heq ▸ Finset.subset_union_right
    exact disjoint_self.mp (h.mono_left hsub)
  · rintro rfl
    exact (Finset.union_empty A).symm

theorem mk_eq_counted_iff {A B : Finset PollBit} :
    (A, true) = (B, decide (B ≠ ∅)) ↔ A = B ∧ B ≠ ∅ := by
  rw [Prod.mk.injEq]
  exact and_congr_right fun _ => by simp

theorem readyPart_of_bit {ready : FdSets} {p : PollFd} {k : FdKind} {b : Bool}
    (h : ready.bit k p.fd.toNat = b) : readyPart ready p k = if b then part p k else ∅ := by
  rw [readyPart, h]

theorem separate_of_read {ready : FdSets} {p : PollFd} (hr : ready.r p.fd.toNat = true) :
    Separate ready p ↔ part p .read ≠ ∅ ∧ readyRest ready p = ∅ := by
  rw [readyRest, Finset.union_eq_empty, readyPart_eq_empty, readyPart_eq_empty, ← asks_iff]
  constructor
  · exact fun h => h.read hr
  · intro h
    refine ⟨fun _ => h, ?_, ?_⟩ <;> intro hr' <;> rw [hr] at hr' <;> cases hr'

theorem separate_of_write {ready : FdSets} {p : PollFd} (hr : ready.r p.fd.toNat = false)
    (hw : ready.w p.fd.toNat = true) :
    Separate ready p ↔ part p .write ≠ ∅ ∧ readyPart ready p .except = ∅ := by
  rw [readyPart_eq_empty, ← asks_iff]
  constructor
  · exact fun h => h.write hr hw
  · intro h
    refine ⟨fun hr' => ?_, fun _ _ => h, fun _ hw' => ?_⟩
    · rw [hr] at hr'
      cases hr'
    · rw [hw] at hw'
      cases hw'

theorem separate_of_except {ready : FdSets} {p : PollFd} (hr : ready.r p.fd.toNat = false)
    (hw : ready.w p.fd.toNat = false) :
    Separate ready p ↔ (ready.e p.fd.toNat = true → part p .except ≠ ∅) := by
  rw [← asks_iff]
  constructor
  · exact fun h => h.except hr hw
  · intro h
    refine ⟨fun hr' => ?_, fun _ hw' => ?_, fun _ _ => h⟩
    · rw [hr] at hr'
      cases hr'
    · rw [hw] at hw'
      cases hw'

/-- A readable descriptor of a valid entry. -/
theorem readEvents_iff {ready : FdSets} (hangup : Bool) {p : PollFd}
    (hv : fdValid isOpen p.fd = true) (hr : ready.r p.fd.toNat = true) :
    (readEvents hangup p, true) = (expected isOpen ready hangup p,
      decide (expected isOpen ready hangup p ≠ ∅)) ↔ Separate ready p := by
  have hA : readyPart ready p .read = part p .read := readyPart_of_bit (k := .read) hr
  have hdisj : Disjoint (part p .read) (readyRest ready p) :=
    (readyRest_disjoint ready p).symm.mono_left Finset.inter_subset_right
  rw [mk_eq_counted_iff, separate_of_read hr, expected_of_valid hv, hA]
  cases hangup with
  | false =>
    rw [if_neg (by simp), readEvents_false, eq_union_iff hdisj, and_comm]
    refine and_congr_left fun hrest => ?_
    rw [hrest, Finset.union_empty]
  | true =>
    rw [readEvents_true]
    by_cases hempty : part p .read = ∅
    · -- the hang-up is shown although no bit is replaced by it
      rw [if_neg (by simp [hempty]), hempty, Finset.empty_union]
      refine iff_of_false (fun h => ?_) (fun h => h.1 rfl)
      exact pollhup_notMem_readyRest ready p (h.1 ▸ Finset.mem_singleton_self _)
    · have hhup : Disjoint {PollBit.pollhup} (readyRest ready p) :=
        Finset.disjoint_singleton_left.mpr (pollhup_notMem_readyRest ready p)
      rw [if_pos ⟨rfl, hempty⟩, Finset.insert_eq, eq_union_iff hhup, and_comm]
      refine and_congr_left fun _ => iff_of_true ?_ hempty
      rw [← Finset.insert_eq]
      exact Finset.insert_ne_empty _ _

/-- A valid entry is shown as it should be if its modes are separate. -/
theorem shown_valid_iff {ready : FdSets} {hangup : Bool} {p : PollFd}
    (hv : fdValid isOpen p.fd = true) :
    shown true true ready hangup p = (expected isOpen ready hangup p,
      decide (expected isOpen ready hangup p ≠ ∅)) ↔ Separate ready p := by
  cases hr : ready.r p.fd.toNat with
  | true =>
    rw [← readEvents_iff hangup hv hr]
    simp [shown, hr]
  | false =>
    have hexpected : expected isOpen ready hangup p = readyRest ready p := by
      rw [expected_of_valid hv, readyPart_of_bit (k := .read) hr]
      simp
    rw [hexpected, readyRest]
    cases hw : ready.w p.fd.toNat with
    | true =>
      have hdisj : Disjoint (part p .write) (readyPart ready p .except) :=
        (part_disjoint p (by decide)).mono_right (readyPart_subset ready p .except)
      rw [readyPart_of_bit (k := .write) hw, if_pos rfl, separate_of_write hr hw]
      simp only [shown, hr, hw, Bool.not_true, Bool.false_eq_true, if_false, if_true]
      rw [mk_eq_counted_iff, writeEvents_eq, eq_union_iff hdisj, and_comm]
      refine and_congr_left fun hempty => ?_
      rw [hempty, Finset.union_empty]
    | false =>
      rw [readyPart_of_bit (k := .write) hw, separate_of_except hr hw]
      cases he : ready.e p.fd.toNat with
      | true =>
        rw [readyPart_of_bit (k := .except) he]
        simp [shown, hr, hw, he, exceptEvents_eq]
      | false =>
        rw [readyPart_of_bit (k := .except) he]
        simp [shown, hr, hw, he]

theorem expected_of_invalid {ready : FdSets} {hangup : Bool} {p : PollFd} (hp : InRange p.fd)
    (hv : fdValid isOpen p.fd = false) : expected isOpen ready hangup p = {.pollnval} := by
  rw [expected, if_neg (Int.not_lt.mpr hp.1), hv]
  rfl

/-- An entry that asks for nothing has nothing. -/
theorem expected_of_silent {ready : FdSets} {hangup : Bool} {p : PollFd}
    (hv : fdValid isOpen p.fd = true) (hsilent : asksAny p = false) :
    expected isOpen ready hangup p = ∅ := by
  have hempty : ∀ k, readyPart ready p k = ∅ := by
    intro k
    rw [readyPart_eq_empty]
    rintro ⟨-, hk⟩
    simp only [asksAny, Bool.or_eq_false_iff] at hsilent
    cases k <;> simp_all
  simp [expected_of_valid hv, readyRest, hempty]

/-- An entry is shown as it should be, if it is valid and the sets have been asked for, if its
    modes are separate. -/
theorem shown_iff {ready : FdSets} {hangup any : Bool} {p : PollFd} (hp : InRange p.fd)
    (hany : any = false → fdValid isOpen p.fd = true → asksAny p = false) :
    shown (fdValid isOpen p.fd) any ready hangup p = (expected isOpen ready hangup p,
      decide (expected isOpen ready hangup p ≠ ∅)) ↔
      (fdValid isOpen p.fd = true → any = true → Separate ready p) := by
  cases hv : fdValid isOpen p.fd with
  | false => simp [shown, expected_of_invalid hp hv]
  | true =>
    cases any with
    | true => simpa using shown_valid_iff hv
    | false => simp [shown, expected_of_silent hv (hany rfl hv)]

/-- What is shown is counted. -/
theorem shown_counted {valid any : Bool} {ready : FdSets} {hangup : Bool} {p : PollFd}
    (h : (shown valid any ready hangup p).1 ≠ ∅) : (shown valid any ready hangup p).2 = true := by
  revert h
  simp only [shown]
  split_ifs <;> simp

/-! ## The whole array -/

/-- Two counts of a list agree, where one predicate is weaker, just if the predicates agree. -/
theorem countP_eq_iff {α : Type*} {l : List α} {f g : α → Bool}
    (h : ∀ a ∈ l, f a = true → g a = true) :
    l.countP g = l.countP f ↔ ∀ a ∈ l, g a = f a := by
  induction l with
  | nil => simp
  | cons a l ih =>
    have htail : ∀ b ∈ l, f b = true → g b = true := fun b hb => h b (.tail _ hb)
    have hle : l.countP f ≤ l.countP g := List.countP_mono_left htail
    have hhead := h a (by simp)
    rw [List.countP_cons, List.countP_cons, List.forall_mem_cons, ← ih htail]
    cases hf : f a <;> cases hg : g a <;> simp_all
    omega

/-- The results are right as a whole if they are for every entry. -/
theorem mapIdx_counted_iff {l : List PollFd} {f : ℕ → PollFd → Finset PollBit × Bool}
    {g : ℕ → PollFd → Finset PollBit} (hf : ∀ i p, (f i p).1 ≠ ∅ → (f i p).2 = true) :
    ((l.mapIdx f).map Prod.fst = l.mapIdx g ∧
      (l.mapIdx f).countP Prod.snd = (l.mapIdx g).countP (· ≠ ∅)) ↔
      ∀ i (h : i < l.length), f i l[i] = (g i l[i], decide (g i l[i] ≠ ∅)) := by
  have hcount : (l.mapIdx f).countP Prod.snd = ((l.mapIdx f).map Prod.fst).countP (· ≠ ∅) ↔
      ∀ e ∈ l.mapIdx f, e.2 = decide (e.1 ≠ ∅) := by
    rw [List.countP_map]
    refine countP_eq_iff fun e he hne => ?_
    obtain ⟨i, hi, rfl⟩ := List.mem_mapIdx.mp he
    exact hf i _ (by simpa using hne)
  have hmap : (l.mapIdx f).map Prod.fst = l.mapIdx g ↔
      ∀ i (h : i < l.length), (f i l[i]).1 = g i l[i] := by
    constructor
    · intro h i hi
      have hat := congrArg (·[i]?) h
      simpa [List.getElem?_eq_getElem hi] using hat
    · intro h
      refine List.ext_getElem (by simp) fun i hi _ => ?_
      simpa using h i (by simpa using hi)
  constructor
  · rintro ⟨hfst, hcnt⟩ i hi
    rw [← hfst, hcount] at hcnt
    have hg := hmap.mp hfst i hi
    have hsnd := hcnt _ (List.mem_mapIdx.mpr ⟨i, hi, rfl⟩)
    exact Prod.ext hg (by rw [hsnd, hg])
  · intro h
    have hfst := hmap.mpr fun i hi => congrArg Prod.fst (h i hi)
    refine ⟨hfst, ?_⟩
    rw [← hfst, hcount]
    intro e he
    obtain ⟨i, hi, rfl⟩ := List.mem_mapIdx.mp he
    rw [h i hi]

/-- The loop for the results over sets that have been built. If nothing has been asked for, it does
    not matter what is ready. -/
theorem results_iff {pfd : List PollFd} {x : PollSets} (hx : Built isOpen pfd x)
    (hrange : ∀ p ∈ pfd, InRange p.fd) (sets ready : FdSets) (hangup : ℕ → Bool)
    (hsets : x.maxfd ≠ -1 → sets = ready) :
    ∃ r, results x sets hangup pfd = some r ∧
      ((r.2 = pfd.mapIdx (fun i p => expected isOpen ready (hangup i) p) ∧
        r.1 = (pfd.mapIdx fun i p => expected isOpen ready (hangup i) p).countP (· ≠ ∅)) ↔
        (x.maxfd ≠ -1 → ∀ p ∈ pfd, fdValid isOpen p.fd = true → Separate ready p)) := by
  have hone : ∀ p ∈ pfd, ∀ b, resultOf x sets b p =
      some (shown (fdValid isOpen p.fd) (decide (x.maxfd ≠ -1)) ready b p) := by
    intro p hp b
    rw [resultOf_eq (hrange p hp) (hx.xfds hp hrange)]
    by_cases hmax : x.maxfd = -1
    · simp [shown, hmax]
    · rw [hsets hmax]
  refine ⟨_, results_eq hone hangup, ?_⟩
  rw [mapIdx_counted_iff fun i p => shown_counted]
  have hentry : ∀ i (h : i < pfd.length), (shown (fdValid isOpen pfd[i].fd)
        (decide (x.maxfd ≠ -1)) ready (hangup i) pfd[i] =
      (expected isOpen ready (hangup i) pfd[i],
        decide (expected isOpen ready (hangup i) pfd[i] ≠ ∅)) ↔
      (fdValid isOpen pfd[i].fd = true → decide (x.maxfd ≠ -1) = true →
        Separate ready pfd[i])) := by
    intro i hi
    have hmem := List.getElem_mem hi
    refine shown_iff (hrange _ hmem) fun hany hv => ?_
    exact hx.maxfd.mp (by simpa using hany) _ hmem hv
  constructor
  · intro h hmax p hp hv
    obtain ⟨i, hi, rfl⟩ := List.mem_iff_getElem.mp hp
    exact (hentry i hi).mp (h i hi) hv (by simpa using hmax)
  · intro h i hi
    exact (hentry i hi).mpr fun hv hmax => h (by simpa using hmax) _ (List.getElem_mem hi) hv

/-! ## The call -/

theorem timeval_of_neg {timeout : ℤ} (h : timeout < -1) : timeval timeout = .error .EINVAL := by
  rw [timeval, if_neg (by omega), if_neg (by omega), if_neg (by omega)]

theorem timeval_ok {timeout : ℤ} (h : ¬ timeout < -1) : ∃ ptv, timeval timeout = .ok ptv := by
  unfold timeval
  split_ifs
  · exact ⟨_, rfl⟩
  · exact ⟨_, rfl⟩
  · exact ⟨_, rfl⟩
  · omega

section Call

variable (isOpen : ℕ → Bool) (hangup : ℕ → Bool) (answer : Except Errno (ℕ × FdSets))

/-- A call that is refused has looked at nothing. -/
theorem pollEv_refused {pfd : Option (List PollFd)} {timeout : ℤ} (h : Refused pfd timeout) :
    ∃ err, pollEv isOpen hangup answer pfd timeout = some ⟨none, .error err, none⟩ := by
  cases pfd with
  | none => exact ⟨_, rfl⟩
  | some pfd =>
    by_cases hlen : fdSetsize < pfd.length
    · exact ⟨_, if_pos hlen⟩
    · have htime := timeval_of_neg (h.resolve_left hlen)
      exact ⟨.EINVAL, by simp only [pollEv, if_neg hlen, htime]⟩

theorem pollEv_admitted {pfd : Option (List PollFd)} {timeout : ℤ} (h : ¬ Refused pfd timeout) :
    ∃ l ptv, pfd = some l ∧
      pollEv isOpen hangup answer pfd timeout = pollSelect isOpen hangup answer l ptv := by
  cases pfd with
  | none => exact absurd trivial h
  | some l =>
    obtain ⟨ptv, htime⟩ := timeval_ok fun ht => h (.inr ht)
    have hlen : ¬ fdSetsize < l.length := fun hl => h (.inl hl)
    exact ⟨l, ptv, rfl, by simp only [pollEv, if_neg hlen, htime]⟩

/-- A descriptor that has no place in a set. -/
theorem pollSelect_none {pfd : List PollFd} {ptv : Option Time} {p : PollFd} (hmem : p ∈ pfd)
    (hp : ¬ InRange p.fd) : pollSelect isOpen hangup answer pfd ptv = none := by
  rw [pollSelect, buildSets, foldlM_none hmem hp]
  rfl

/-- The outcome of a call whose descriptors all have a place in the sets. -/
theorem pollSelect_iff {pfd : List PollFd} (hrange : ∀ p ∈ pfd, InRange p.fd)
    (ptv : Option Time) :
    ∃ r, pollSelect isOpen hangup answer pfd ptv = some r ∧
      ((∀ n, r.ret = .ok n →
        r.revents = some (pfd.mapIdx fun i p => expected isOpen (reported answer) (hangup i) p) ∧
          n = (pfd.mapIdx fun i p => expected isOpen (reported answer) (hangup i) p).countP
            (· ≠ ∅)) ↔
        ((∃ p ∈ pfd, fdValid isOpen p.fd = true ∧ asksAny p = true) →
          ∀ rc ready, answer = .ok (rc, ready) →
            rc ≠ 0 ∧ ∀ p ∈ pfd, fdValid isOpen p.fd = true → Separate ready p)) := by
  obtain ⟨x, hbuild, hx⟩ := buildSets_built isOpen hrange
  have hasked : (∃ p ∈ pfd, fdValid isOpen p.fd = true ∧ asksAny p = true) ↔ x.maxfd ≠ -1 := by
    rw [ne_eq, hx.maxfd]
    simp
  rw [pollSelect, hbuild, hasked]
  by_cases hmax : x.maxfd = -1
  · obtain ⟨r, hr, hiff⟩ := results_iff hx hrange x.sets (reported answer) hangup fun h =>
      absurd hmax h
    refine ⟨⟨none, .ok r.1, some r.2⟩, by simp [hmax, hr], ?_⟩
    have hright := hiff.mpr fun h => absurd hmax h
    refine iff_of_true (fun n hn => ?_) fun h => absurd hmax h
    obtain rfl := Except.ok.inj hn
    exact ⟨congrArg some hright.1, hright.2⟩
  · cases answer with
    | error err =>
      refine ⟨⟨some (x.maxfd + 1, x.sets, ptv), .error err, none⟩, by simp [hmax], ?_⟩
      simp
    | ok a =>
      obtain ⟨rc, ready⟩ := a
      by_cases hrc : rc = 0
      · -- the return after a timeout leaves all entries as they were
        refine ⟨⟨some (x.maxfd + 1, x.sets, ptv), .ok 0, none⟩, by simp [hmax, hrc], ?_⟩
        simp [hmax, hrc]
      · obtain ⟨r, hr, hiff⟩ := results_iff hx hrange ready ready hangup fun _ => rfl
        refine ⟨⟨some (x.maxfd + 1, x.sets, ptv), .ok r.1, some r.2⟩, by simp [hmax, hrc, hr], ?_⟩
        simpa [hmax, hrc, reported] using hiff

/-- What `pth_select_ev` is asked for: the modes that the valid entries ask for, all below the bound
    that is passed with them. -/
theorem pollSelect_asked {pfd : List PollFd} (hrange : ∀ p ∈ pfd, InRange p.fd)
    {nfd : ℤ} {sets : FdSets} {ptv ptv' : Option Time} {r : Polled}
    (h : pollSelect isOpen hangup answer pfd ptv = some r) (hr : r.asked = some (nfd, sets, ptv')) :
    ptv' = ptv ∧ ∀ k d, sets.bit k d = true ↔ (d : ℤ) < nfd ∧
      ∃ p ∈ pfd, fdValid isOpen p.fd = true ∧ asks p k = true ∧ p.fd.toNat = d := by
  obtain ⟨x, hbuild, hx⟩ := buildSets_built isOpen hrange
  have hasked : r.asked = none ∨ r.asked = some (x.maxfd + 1, x.sets, ptv) := by
    rw [pollSelect, hbuild] at h
    simp only [Option.bind_eq_bind, Option.bind_some] at h
    split at h
    · obtain ⟨a, -, ha⟩ := Option.bind_eq_some_iff.mp h
      exact .inl (by cases ha; rfl)
    · refine .inr ?_
      split at h
      · cases h
        rfl
      · split at h
        · cases h
          rfl
        · obtain ⟨a, -, ha⟩ := Option.bind_eq_some_iff.mp h
          cases ha
          rfl
  rw [hr] at hasked
  obtain ⟨rfl, rfl, rfl⟩ : nfd = x.maxfd + 1 ∧ sets = x.sets ∧ ptv' = ptv := by simpa using hasked
  refine ⟨rfl, fun k d => ?_⟩
  rw [hx.bit, iff_and_self]
  rintro ⟨p, hp, hv, hk, rfl⟩
  have hany : asksAny p = true := by
    cases k <;> simp [asksAny, hk]
  have hle := hx.below p hp hv hany
  have hpos := (fdValid_inRange hv).1
  omega

end Call

/-- Poll reports what is ready, unless a descriptor has no place in the sets, the wait times out,
    or an entry is ready in other ways than in just one that it asks for. -/
theorem poll_reports_iff (isOpen : ℕ → Bool) (hangup : ℕ → Bool)
    (answer : Except Errno (ℕ × FdSets)) (pfd : Option (List PollFd)) (timeout : ℤ) :
    Reports isOpen hangup answer pfd timeout ↔ Refused pfd timeout ∨
      ∃ l, pfd = some l ∧ (∀ p ∈ l, InRange p.fd) ∧
        ((∃ p ∈ l, fdValid isOpen p.fd = true ∧ asksAny p = true) →
          ∀ rc ready, answer = .ok (rc, ready) →
            rc ≠ 0 ∧ ∀ p ∈ l, fdValid isOpen p.fd = true → Separate ready p) := by
  by_cases href : Refused pfd timeout
  · obtain ⟨err, hcall⟩ := pollEv_refused isOpen hangup answer href
    refine iff_of_true ⟨_, hcall, fun n hn => ?_⟩ (.inl href)
    cases hn
  · obtain ⟨l, ptv, rfl, hcall⟩ := pollEv_admitted isOpen hangup answer href
    simp only [Reports, hcall, href, false_or, Option.some.injEq, exists_eq_left', forall_eq']
    by_cases hrange : ∀ p ∈ l, InRange p.fd
    · obtain ⟨r, hr, hiff⟩ := pollSelect_iff isOpen hangup answer hrange ptv
      rw [and_iff_right hrange, ← hiff, hr]
      simp
    · push Not at hrange
      obtain ⟨p, hp, hout⟩ := hrange
      rw [pollSelect_none isOpen hangup answer hp hout]
      refine iff_of_false ?_ fun h => hout (h.1 p hp)
      rintro ⟨r, hr, -⟩
      cases hr

/-- A wait that times out leaves the entry as it was, and of two modes that are ready only one is
    shown. -/
theorem poll_not_reported :
    ¬ Reports (fun _ => true) (fun _ => false) (.ok (0, .zero)) (some [⟨3, {.pollin}⟩]) 0 ∧
      ¬ Reports (fun _ => true) (fun _ => false)
        (.ok (2, ⟨fun d => d == 3, fun d => d == 3, fun _ => false⟩))
        (some [⟨3, {.pollin, .pollout}⟩]) 0 := by
  constructor
  · rintro ⟨r, hr, h⟩
    have hcall := congrArg (Option.map fun r => (r.ret, r.revents)) hr
    obtain ⟨hret, hrev⟩ := Prod.mk.inj (Option.some.inj hcall)
    have hnone := (h 0 hret.symm _ rfl).1
    rw [← hrev] at hnone
    cases hnone
  · rintro ⟨r, hr, h⟩
    have hcall := congrArg (Option.map fun r => (r.ret, r.revents)) hr
    obtain ⟨hret, hrev⟩ := Prod.mk.inj (Option.some.inj hcall)
    have hboth := (h 1 hret.symm _ rfl).1
    rw [← hrev] at hboth
    revert hboth
    decide

/-- Every number that is put into a set or looked up in one has its place there, just if all
    descriptors do, unless the call is refused. -/
theorem poll_inRange_iff (isOpen : ℕ → Bool) (hangup : ℕ → Bool)
    (answer : Except Errno (ℕ × FdSets)) (pfd : Option (List PollFd)) (timeout : ℤ) :
    pollEv isOpen hangup answer pfd timeout ≠ none ↔
      Refused pfd timeout ∨ ∃ l, pfd = some l ∧ ∀ p ∈ l, InRange p.fd := by
  by_cases href : Refused pfd timeout
  · obtain ⟨err, hcall⟩ := pollEv_refused isOpen hangup answer href
    rw [hcall]
    exact iff_of_true (Option.some_ne_none _) (.inl href)
  · obtain ⟨l, ptv, rfl, hcall⟩ := pollEv_admitted isOpen hangup answer href
    simp only [hcall, href, false_or, Option.some.injEq, exists_eq_left']
    constructor
    · intro hsome p hp
      by_contra hout
      exact hsome (pollSelect_none isOpen hangup answer hp hout)
    · intro hrange
      obtain ⟨r, hr, -⟩ := pollSelect_iff isOpen hangup answer hrange ptv
      rw [hr]
      exact Option.some_ne_none r

/-- A negative descriptor is put into a set, and one that is too large too. -/
theorem poll_out_of_range :
    pollEv (fun _ => true) (fun _ => false) (.ok (0, .zero)) (some [⟨-1, {.pollin}⟩]) 0 = none ∧
      pollEv (fun _ => true) (fun _ => false) (.ok (0, .zero)) (some [⟨1024, {.pollin}⟩]) 0 =
        none :=
  ⟨rfl, rfl⟩

end Poll

end Pth
