-- SUMMARY: `pth_event` on the bits of its specification and its argument list, and what is read back.
import Pth.Data.Keys
import Pth.Event.Ring

/-!
# Event specifications

`pth_event` takes the kind of the event, its goals and the mode of the call as bits of one
number, and everything else from its argument list. `pth_event_typeof` and
`pth_event_extract` read the bits and the arguments back. An argument of another type than
the one that is asked for, and a member of the union other than the one that was written,
give `none`. -/

namespace Pth

/-! ## The bits -/

/-- `PTH_MODE_REUSE` -/
def modeReuse : ℕ := 1 <<< 20

/-- `PTH_MODE_CHAIN` -/
def modeChain : ℕ := 1 <<< 21

/-- `PTH_MODE_STATIC` -/
def modeStatic : ℕ := 1 <<< 22

/-- `PTH_UNTIL_OCCURRED` -/
def untilOccurred : ℕ := 1 <<< 11

/-- `PTH_UNTIL_TID_NEW` -/
def untilTidNew : ℕ := 1 <<< 15

/-- `PTH_UNTIL_TID_READY` -/
def untilTidReady : ℕ := 1 <<< 16

/-- `PTH_UNTIL_TID_WAITING` -/
def untilTidWaiting : ℕ := 1 <<< 17

/-- `PTH_UNTIL_TID_DEAD` -/
def untilTidDead : ℕ := 1 <<< 18

/-- The numbers of `pth_state_t`. -/
def ThreadState.number : ThreadState → ℕ
  | .scheduler => 0
  | .new => 1
  | .ready => 2
  | .waiting => 3
  | .dead => 4

inductive EventKind where
  | fd
  | select
  | sigs
  | time
  | msg
  | mutex
  | cond
  | tid
  | func
  deriving DecidableEq, Repr

namespace EventKind

/-- `PTH_EVENT_FD` to `PTH_EVENT_FUNC` -/
def bit : EventKind → ℕ
  | .fd => 1 <<< 1
  | .select => 1 <<< 2
  | .sigs => 1 <<< 3
  | .time => 1 <<< 4
  | .msg => 1 <<< 5
  | .mutex => 1 <<< 6
  | .cond => 1 <<< 7
  | .tid => 1 <<< 8
  | .func => 1 <<< 9

/-- The kind that `pth_event` makes: the first one it finds the bit of. -/
def ofSpec (spec : ℕ) : Option EventKind :=
  [fd, select, sigs, time, msg, mutex, cond, tid, func].find? fun k => spec &&& k.bit ≠ 0

/-- The kind that `pth_event_extract` finds. -/
def ofType (type : ℕ) : Option EventKind :=
  [fd, sigs, time, msg, mutex, cond, tid, func].find? fun k => type &&& k.bit ≠ 0

/-- The bits `PTH_UNTIL_*` that may be given for a kind. -/
def untilMask : EventKind → ℕ
  | .fd => 1 <<< 12 ||| 1 <<< 13 ||| 1 <<< 14
  | .tid => untilTidNew ||| untilTidReady ||| untilTidWaiting ||| untilTidDead
  | _ => untilOccurred

/-- The goal of a thread event is a thread state. -/
def tidGoal (spec : ℕ) : ThreadState :=
  if spec &&& untilTidNew ≠ 0 then .new
  else if spec &&& untilTidReady ≠ 0 then .ready
  else if spec &&& untilTidWaiting ≠ 0 then .waiting
  else if spec &&& untilTidDead ≠ 0 then .dead
  else .ready

/-- `ev_goal` -/
def goal (spec : ℕ) : EventKind → ℕ
  | .tid => (tidGoal spec).number
  | k => spec &&& k.untilMask

end EventKind

/-! ## The arguments -/

/-- A value in an argument list: a number, an address, a time, an event or a pointer to a
    key. -/
inductive ArgVal (ε κ : Type*) where
  | int (n : ℤ)
  | addr (p : ℕ)
  | time (tv : Time)
  | event (ev : Option ε)
  | key (k : κ)

/-- The union `ev_args`. -/
inductive EventUnion where
  | fd (fd : ℤ)
  | select (n : ℕ) (nfd : ℤ) (rfds wfds efds : ℕ)
  | sigs (sigs sig : ℕ)
  | time (tv : Time)
  | msg (mp : ℕ)
  | mutex (mutex : ℕ)
  | cond (cond : ℕ)
  | tid (tid : ℕ)
  | func (func arg : ℕ) (tv : Time)

namespace EventKind

variable {ε κ : Type*}

/-- How many arguments a kind takes. -/
def arity : EventKind → ℕ
  | .fd | .time | .msg | .mutex | .cond | .tid => 1
  | .sigs => 2
  | .func => 3
  | .select => 5

/-- The arguments that `pth_event` takes for a kind. -/
def take : EventKind → List (ArgVal ε κ) → Option EventUnion
  | .fd, .int n :: _ => some (.fd n)
  | .select, .addr n :: .int nfd :: .addr rfds :: .addr wfds :: .addr efds :: _ =>
    some (.select n nfd rfds wfds efds)
  | .sigs, .addr set :: .addr sig :: _ => some (.sigs set sig)
  | .time, .time tv :: _ => some (.time tv)
  | .msg, .addr mp :: _ => some (.msg mp)
  | .mutex, .addr mx :: _ => some (.mutex mx)
  | .cond, .addr cn :: _ => some (.cond cn)
  | .tid, .addr t :: _ => some (.tid t)
  | .func, .addr f :: .addr arg :: .time tv :: _ => some (.func f arg tv)
  | _, _ => none

/-- The values that `pth_event_extract` stores for a kind, in the order of its arguments. -/
def extract : EventKind → EventUnion → Option (List (ArgVal ε κ))
  | .fd, .fd n => some [.int n]
  | .sigs, .sigs set sig => some [.addr set, .addr sig]
  | .time, .time tv => some [.time tv]
  | .msg, .msg mp => some [.addr mp]
  | .mutex, .mutex mx => some [.addr mx]
  | .cond, .cond cn => some [.addr cn]
  | .tid, .tid t => some [.addr t]
  | .func, .func f arg tv => some [.addr f, .addr arg, .time tv]
  | _, _ => none

end EventKind

/-- The check of a descriptor. -/
def EventUnion.valid (isOpen : ℕ → Bool) : EventUnion → Bool
  | .fd n => fdValid isOpen n
  | _ => true

/-! ## The functions -/

/-- `struct pth_event_st` without its links. -/
structure EventSt where
  evStatus : Status
  evType : ℕ
  evGoal : ℕ
  evArgs : EventUnion

/-- The event structures `ε`, the table of keys and the variables `κ` that hold keys. The value
    of a key of the thread `τ` is a static event. -/
structure EventMem (ε τ κ : Type*) where
  link : Links ε
  body : ε → EventSt
  keys : Keys τ Unit ε
  keyvar : κ → ℤ
  errno : Errno

/-- `PTH_KEY_INIT` -/
def keyInit : ℤ := -1

/-- How many arguments say which structure is used. -/
def structArgs (spec : ℕ) : ℕ :=
  if spec &&& modeReuse ≠ 0 ∨ spec &&& modeStatic ≠ 0 then 1 else 0

/-- How many arguments stand before those of the event. -/
def modeArgs (spec : ℕ) : ℕ :=
  structArgs spec + if spec &&& modeChain ≠ 0 then 1 else 0

namespace EventMem

variable {ε τ κ : Type*} [DecidableEq ε] [DecidableEq τ] [DecidableEq κ]

def setErrno (s : EventMem ε τ κ) : Option Errno → EventMem ε τ κ
  | none => s
  | some e => { s with errno := e }

/-- `pth_error` for a function that returns an event. -/
def fail (s : EventMem ε τ κ) (e : Errno) : Except Errno ε × EventMem ε τ κ :=
  (.error e, s.setErrno (some e))

/-- The error number of a call that returns `TRUE` or `FALSE`. -/
def retErrno : Ret → Option Errno
  | .ok => none
  | .error e => some e

/-- A static event needs a key first. -/
def initKey (s : EventMem ε τ κ) (k : κ) : EventMem ε τ κ :=
  if s.keyvar k = keyInit then
    let (ret, key, keys) := s.keys.keyCreate true (some ())
    { s with
      keys := keys
      keyvar := Function.update s.keyvar k (key.elim keyInit Nat.cast) }.setErrno (retErrno ret)
  else s

/-- The first part of `pth_event`, which allocates the structure or takes over another one. -/
def structureFor (s : EventMem ε τ κ) (current : τ) (malloc : Option ε) (calloc : Bool) (spec : ℕ)
    (ap : List (ArgVal ε κ)) : Option (Option ε × List (ArgVal ε κ) × EventMem ε τ κ) :=
  let mallocErrno := if malloc.isNone then some Errno.ENOMEM else none
  if spec &&& modeReuse ≠ 0 then
    match ap with
    | .event ev :: ap => some (ev, ap, s)
    | _ => none
  else if spec &&& modeStatic ≠ 0 then
    match ap with
    | .key k :: ap =>
      let s := s.initKey k
      match s.keys.keyGetdata current (s.keyvar k) with
      | (some ev, e) => some (some ev, ap, s.setErrno e)
      | (none, e) =>
        let (ret, keys) := s.keys.keySetdata current (s.keyvar k) malloc calloc
        let s := ((s.setErrno e).setErrno mallocErrno).setErrno (retErrno ret)
        some (malloc, ap, { s with keys := keys })
    | _ => none
  else some (malloc, ap, s.setErrno mallocErrno)

/-- Insert the event before `ch`. The links are read again after each of the four writes. -/
def chainLink (L : Links ε) (ev ch : ε) : Option (Links ε) := do
  let L₁ := (L.setPrev ev (L.prev ch)).setNext ev (some ch)
  let p ← L₁.prev ev
  let L₂ := L₁.setNext p (some ev)
  let n ← L₂.next ev
  some (L₂.setPrev n (some ev))

/-- The second part of `pth_event`, which makes a new ring or inserts into an existing one. -/
def linkFor (L : Links ε) (ev : ε) (spec : ℕ) (ap : List (ArgVal ε κ)) :
    Option (Links ε × List (ArgVal ε κ)) :=
  if spec &&& modeChain ≠ 0 then
    match ap with
    | .event (some ch) :: ap => (chainLink L ev ch).map fun L' => (L', ap)
    | _ => none
  else some ((L.setNext ev (some ev)).setPrev ev (some ev), ap)

/-- The last part of `pth_event`, which stores the arguments of the event. -/
def fill (s : EventMem ε τ κ) (isOpen : ℕ → Bool) (ev : ε) (spec : ℕ) (ap : List (ArgVal ε κ)) :
    Option (Except Errno ε × EventMem ε τ κ) :=
  match EventKind.ofSpec spec with
  | none => some (s.fail .EINVAL)
  | some k => (k.take ap).map fun args =>
    if !args.valid isOpen then s.fail .EBADF
    else
      let b := { s.body ev with evType := k.bit, evGoal := k.goal spec, evArgs := args }
      (.ok ev, { s with body := Function.update s.body ev b })

/-- `pth_event`, called by the thread `current`, where `malloc` and `calloc` say what the
    allocator gives. -/
def event (s : EventMem ε τ κ) (isOpen : ℕ → Bool) (current : τ) (malloc : Option ε)
    (calloc : Bool) (spec : ℕ) (ap : List (ArgVal ε κ)) :
    Option (Except Errno ε × EventMem ε τ κ) :=
  (s.structureFor current malloc calloc spec ap).bind fun (ev, ap, s) =>
    match ev with
    | none => some (s.fail s.errno)
    | some ev =>
      (linkFor s.link ev spec ap).bind fun (link, ap) =>
        -- initialize common ingredients
        let b := { s.body ev with evStatus := .pending }
        { s with link := link, body := Function.update s.body ev b }.fill isOpen ev spec ap

/-- `pth_event_typeof` -/
def typeof (s : EventMem ε τ κ) : Option ε → Except Errno ℕ
  | none => .error .EINVAL
  | some ev => .ok ((s.body ev).evType ||| (s.body ev).evGoal)

/-- `pth_event_extract`: the values that it stores for its caller. -/
def extract (s : EventMem ε τ κ) : Option ε → Option (Except Errno (List (ArgVal ε κ)))
  | none => some (.error .EINVAL)
  | some ev =>
    match EventKind.ofType (s.body ev).evType with
    | none => some (.error .EINVAL)
    | some k => (k.extract (s.body ev).evArgs).map .ok

/-! ## One call of `pth_event` -/

/-- The structure that a call of `pth_event` works on: the one that is passed, the static one of
    the thread, or a new one. -/
def structureOf (s : EventMem ε τ κ) (current : τ) (malloc : Option ε) (spec : ℕ)
    (ap : List (ArgVal ε κ)) : Option ε :=
  if spec &&& modeReuse ≠ 0 then
    match ap with
    | .event ev :: _ => ev
    | _ => none
  else if spec &&& modeStatic ≠ 0 then
    match ap with
    | .key k :: _ => ((s.initKey k).keys.keyGetdata current ((s.initKey k).keyvar k)).1.or malloc
    | _ => none
  else malloc

/-- The arguments of the event itself. -/
def eventArgs (spec : ℕ) (ap : List (ArgVal ε κ)) : List (ArgVal ε κ) := ap.drop (modeArgs spec)

/-- The kind that `pth_event` is asked for with its arguments, or the error it finds there. -/
def verdict (isOpen : ℕ → Bool) (spec : ℕ) (ap : List (ArgVal ε κ)) :
    Option (Except Errno (EventKind × EventUnion)) :=
  match EventKind.ofSpec spec with
  | none => some (.error .EINVAL)
  | some k => (k.take (eventArgs spec ap)).map fun args =>
    if args.valid isOpen then .ok (k, args) else .error .EBADF

/-- `pth_event` knows the kind it is asked for, and a descriptor is a valid one. -/
def accepts (isOpen : ℕ → Bool) (spec : ℕ) (ap : List (ArgVal ε κ)) : Bool :=
  match verdict isOpen spec ap with
  | some (.ok _) => true
  | _ => false

/-- What is written into a structure with the contents `b`. -/
def stored (spec : ℕ) (b : EventSt) : Except Errno (EventKind × EventUnion) → EventSt
  | .ok (k, args) => { b with evType := k.bit, evGoal := k.goal spec, evArgs := args }
  | .error _ => b

variable {s s₁ s' : EventMem ε τ κ} {current : τ} {malloc e : Option ε} {calloc : Bool}
  {spec : ℕ} {ap ap' : List (ArgVal ε κ)} {isOpen : ℕ → Bool} {ev ch : ε} {L L' : Links ε}
  {r : Except Errno ε}

omit [DecidableEq ε] [DecidableEq τ] [DecidableEq κ] in
@[simp] theorem setErrno_link (s : EventMem ε τ κ) (e : Option Errno) :
    (s.setErrno e).link = s.link := by cases e <;> rfl

omit [DecidableEq ε] [DecidableEq τ] [DecidableEq κ] in
@[simp] theorem setErrno_body (s : EventMem ε τ κ) (e : Option Errno) :
    (s.setErrno e).body = s.body := by cases e <;> rfl

omit [DecidableEq ε] [DecidableEq τ] in
@[simp] theorem initKey_link (s : EventMem ε τ κ) (k : κ) : (s.initKey k).link = s.link := by
  unfold initKey
  split_ifs <;> simp

omit [DecidableEq ε] [DecidableEq τ] in
@[simp] theorem initKey_body (s : EventMem ε τ κ) (k : κ) : (s.initKey k).body = s.body := by
  unfold initKey
  split_ifs <;> simp

omit [DecidableEq ε] in
/-- Which structure is used, and that events are not touched to find it. -/
theorem structureFor_eq (h : s.structureFor current malloc calloc spec ap = some (e, ap', s₁)) :
    e = s.structureOf current malloc spec ap ∧ ap' = ap.drop (structArgs spec) ∧
      s₁.link = s.link ∧ s₁.body = s.body := by
  unfold structureFor at h
  unfold structureOf structArgs
  by_cases hreuse : spec &&& modeReuse ≠ 0
  · rw [if_pos hreuse] at h
    rw [if_pos hreuse, if_pos (.inl hreuse)]
    split at h
    · cases h
      exact ⟨rfl, rfl, rfl, rfl⟩
    · cases h
  rw [if_neg hreuse] at h
  rw [if_neg hreuse]
  by_cases hstatic : spec &&& modeStatic ≠ 0
  · rw [if_pos hstatic] at h
    rw [if_pos hstatic, if_pos (.inr hstatic)]
    split at h
    · dsimp only at h
      split at h
      next ev' e' hget =>
        cases h
        simp [hget]
      next e' hget =>
        cases h
        simp [hget]
    · cases h
  · rw [if_neg hstatic] at h
    rw [if_neg hstatic, if_neg (not_or.mpr ⟨hreuse, hstatic⟩)]
    cases h
    simp

omit [DecidableEq τ] [DecidableEq κ] in
/-- What `pth_event` stores. -/
theorem fill_eq (h : s.fill isOpen ev spec (eventArgs spec ap) = some (r, s')) :
    ∃ v, verdict isOpen spec ap = some v ∧ r = v.map (fun _ => ev) ∧ s'.link = s.link ∧
      s'.body = Function.update s.body ev (stored spec (s.body ev) v) := by
  unfold fill at h
  unfold verdict
  cases hk : EventKind.ofSpec spec with
  | none =>
    rw [hk] at h
    cases h
    exact ⟨.error .EINVAL, rfl, rfl, by simp, by simp [stored]⟩
  | some k =>
    rw [hk] at h
    obtain ⟨args, hargs, h⟩ := Option.map_eq_some_iff.mp h
    cases hvalid : args.valid isOpen with
    | false =>
      rw [if_pos (by simp [hvalid])] at h
      cases h
      exact ⟨.error .EBADF, by simp [hargs, hvalid], rfl, by simp, by simp [stored]⟩
    | true =>
      rw [if_neg (by simp [hvalid])] at h
      cases h
      exact ⟨.ok (k, args), by simp [hargs, hvalid], rfl, rfl, rfl⟩

omit [DecidableEq τ] [DecidableEq κ] in
/-- Which arguments are taken to link the structure, and what is linked. -/
theorem linkFor_cases (h : linkFor L ev spec ap = some (L', ap')) :
    (spec &&& modeChain ≠ 0 ∧
      ∃ ch, ap = .event (some ch) :: ap' ∧ chainLink L ev ch = some L') ∨
    (¬ spec &&& modeChain ≠ 0 ∧ ap' = ap ∧
      L' = (L.setNext ev (some ev)).setPrev ev (some ev)) := by
  unfold linkFor at h
  split_ifs at h with hchain
  · split at h
    next ch ap₁ =>
      obtain ⟨L₁, hL, heq⟩ := Option.map_eq_some_iff.mp h
      cases heq
      exact .inl ⟨hchain, ch, rfl, hL⟩
    · cases h
  · cases h
    exact .inr ⟨hchain, rfl, rfl⟩

/-- Everything a call of `pth_event` can do. -/
theorem event_cases (h : s.event isOpen current malloc calloc spec ap = some (r, s')) :
    (s.structureOf current malloc spec ap = none ∧ s'.link = s.link ∧ ∃ e, r = .error e) ∨
    ∃ ev v, s.structureOf current malloc spec ap = some ev ∧ verdict isOpen spec ap = some v ∧
      r = v.map (fun _ => ev) ∧
      linkFor s.link ev spec (ap.drop (structArgs spec)) = some (s'.link, eventArgs spec ap) ∧
      s'.body = Function.update s.body ev
        (stored spec { s.body ev with evStatus := .pending } v) := by
  unfold event at h
  obtain ⟨⟨e, ap', s₁⟩, hstruct, h⟩ := Option.bind_eq_some_iff.mp h
  obtain ⟨rfl, rfl, hlink, hbody⟩ := structureFor_eq hstruct
  cases hev : s.structureOf current malloc spec ap with
  | none =>
    simp only [hev] at h
    cases h
    exact .inl ⟨rfl, by simp [hlink], _, rfl⟩
  | some ev =>
    simp only [hev] at h
    obtain ⟨⟨L', ap'⟩, hL, h⟩ := Option.bind_eq_some_iff.mp h
    have hap : ap' = eventArgs spec ap := by
      unfold eventArgs modeArgs
      rw [← List.drop_drop]
      rcases linkFor_cases hL with ⟨hchain, ch, hap, -⟩ | ⟨hchain, hap, -⟩
      · rw [if_pos hchain, hap]
        rfl
      · rw [if_neg hchain, hap]
        rfl
    subst hap
    obtain ⟨v, hv, hr, hlink', hbody'⟩ := fill_eq h
    refine .inr ⟨ev, v, rfl, hv, hr, ?_, ?_⟩
    · rw [hlink', ← hlink]
      exact hL
    · simpa [hbody] using hbody'

/-! ## Reading back -/

omit [DecidableEq ε] [DecidableEq κ] in
/-- The argument values come back in their order, for every kind that is extracted at all. -/
theorem extract_of_take {k : EventKind} {args : EventUnion}
    (h : k.take ap = some args) (hk : k ≠ .select) :
    k.extract args = some (ap.take k.arity) := by
  unfold EventKind.take at h
  split at h <;> cases h <;> first | rfl | exact absurd rfl hk

theorem ofType_bit (k : EventKind) :
    EventKind.ofType k.bit = if k = .select then none else some k := by
  cases k <;> decide

/-- The goal of a thread event has a bit among the lowest three. -/
theorem exists_testBit_tidGoal (spec : ℕ) :
    ∃ i < 3, (EventKind.tidGoal spec).number.testBit i = true := by
  have hne : EventKind.tidGoal spec ≠ .scheduler := by
    unfold EventKind.tidGoal
    split_ifs <;> simp
  have hall : ∀ g : ThreadState, g ≠ .scheduler → ∃ i < 3, g.number.testBit i = true := by
    intro g hg
    cases g <;> first | exact absurd rfl hg | decide
  exact hall _ hne

/-- Only the goal of a thread event is not made of the bits that were given for it. -/
theorem bit_or_goal_iff (k : EventKind) (spec : ℕ) :
    k.bit ||| k.goal spec = k.bit ||| (spec &&& k.untilMask) ↔ k ≠ .tid := by
  by_cases hk : k = .tid
  · subst hk
    simp only [ne_eq, not_true_eq_false, iff_false]
    intro h
    obtain ⟨i, hi, hgoal⟩ := exists_testBit_tidGoal spec
    have hmask : ∀ i < 3, EventKind.tid.untilMask.testBit i = false := by decide
    have hkind : ∀ i < 3, EventKind.tid.bit.testBit i = false := by decide
    have hbit := congrArg (Nat.testBit · i) h
    simp only [Nat.testBit_or, Nat.testBit_and, hmask i hi, hkind i hi] at hbit
    simp [EventKind.goal, hgoal] at hbit
  · cases k <;> first | exact absurd rfl hk | simp [EventKind.goal]

/-- An event gives back what it was made of unless it is a select or a thread event: the first
    is not extracted, and the goal of the other is not in the form it was given. -/
theorem extract_typeof_iff (isOpen : ℕ → Bool) (current : τ) (malloc : Option ε) (calloc : Bool)
    (spec : ℕ) (ap : List (ArgVal ε κ)) {k : EventKind}
    (h : s.event isOpen current malloc calloc spec ap = some (.ok ev, s'))
    (hk : EventKind.ofSpec spec = some k) :
    (s'.extract (some ev) = some (.ok ((eventArgs spec ap).take k.arity)) ∧
      s'.typeof (some ev) = .ok (k.bit ||| (spec &&& k.untilMask))) ↔
    k ≠ .select ∧ k ≠ .tid := by
  obtain ⟨-, -, e, he⟩ | ⟨ev', v, -, hv, hr, -, hbody⟩ := event_cases h
  · cases he
  unfold verdict at hv
  simp only [hk] at hv
  obtain ⟨args, hargs, rfl⟩ := Option.map_eq_some_iff.mp hv
  split_ifs at hr hbody
  · obtain rfl : ev = ev' := Except.ok.inj hr
    have htype : s'.typeof (some ev) = .ok (k.bit ||| (spec &&& k.untilMask)) ↔ k ≠ .tid := by
      simp [typeof, hbody, stored, bit_or_goal_iff]
    rw [htype]
    refine and_congr_left fun _ => ?_
    unfold extract
    simp only [hbody, Function.update_self, stored, ofType_bit]
    by_cases hsel : k = .select
    · simp [hsel]
    · simp [hsel, extract_of_take hargs hsel]
  · cases hr

/-- Two structures, each in a ring of its own, and no keys. -/
def start : EventMem Bool Unit Unit where
  link := { next := some, prev := some }
  body _ := { evStatus := .pending, evType := 0, evGoal := 0, evArgs := .fd 0 }
  keys := { used := fun _ => false, destructor := fun _ => none
            dataValue := fun _ => none, dataCount := fun _ => 0 }
  keyvar _ := keyInit
  errno := .EINVAL

/-- A descriptor event with two goals. -/
theorem extract_typeof_fd :
    ∃ s', start.event (fun _ => true) () (some true) true
        (EventKind.fd.bit ||| 1 <<< 12 ||| 1 <<< 14) [.int 7] = some (.ok true, s') ∧
      s'.extract (some true) = some (.ok [.int 7]) ∧
      s'.typeof (some true) = .ok (EventKind.fd.bit ||| 1 <<< 12 ||| 1 <<< 14) := by
  refine ⟨_, rfl, ?_⟩
  exact (extract_typeof_iff (s := start) (k := .fd) (fun _ => true) () (some true) true
    (EventKind.fd.bit ||| 1 <<< 12 ||| 1 <<< 14) [.int 7] rfl rfl).mpr (by decide)

/-- A select event is made and not extracted, and a thread event that was to wait for the death of
    its thread does not say so. -/
theorem not_extract_typeof :
    (∃ s', start.event (fun _ => true) () (some true) true
        (EventKind.select.bit ||| untilOccurred) [.addr 1, .int 3, .addr 2, .addr 0, .addr 0] =
          some (.ok true, s') ∧
      s'.extract (some true) = some (.error .EINVAL)) ∧
    ∃ s', start.event (fun _ => true) () (some true) true
        (EventKind.tid.bit ||| untilTidDead) [.addr 1] = some (.ok true, s') ∧
      s'.typeof (some true) = .ok (EventKind.tid.bit ||| 4) ∧
      s'.typeof (some true) ≠ .ok (EventKind.tid.bit ||| untilTidDead) := by
  refine ⟨⟨_, rfl, rfl⟩, _, rfl, rfl, ?_⟩
  intro h
  exact absurd (Except.ok.inj h) (by decide)

/-! ## Failing calls and the ring -/

/-- The links after the four writes, if `ch` has a predecessor. -/
theorem chainLink_eq {p : ε} (hp : L.prev ch = some p) :
    chainLink L ev ch = some ((((L.setPrev ev (some p)).setNext ev (some ch)).setNext p
      (some ev)).setPrev (if ev = p then ev else ch) (some ev)) := by
  by_cases hev : ev = p <;> simp [chainLink, hp, hev]

/-- Inserting an event leaves a ring as it is only if the event is the whole ring. -/
theorem chainLink_cycle_iff {l : List ε} (hring : L.Cycle (ch :: l)) (hnd : (ch :: l).Nodup)
    (h : chainLink L ev ch = some L') : L'.Cycle (ch :: l) ↔ ev = ch ∧ l = [] := by
  obtain ⟨p, hp⟩ : ∃ p, (ch :: l).getLast? = some p :=
    ⟨_, List.getLast?_eq_some_getLast (by simp)⟩
  have hprev : L.prev ch = some p := (hring.edge_last hp rfl).2
  rw [chainLink_eq hprev] at h
  obtain rfl := Option.some.inj h
  constructor
  · intro hcycle
    -- the last event is followed by the inserted one
    obtain ⟨hnext', hprev'⟩ := hcycle.edge_last hp rfl
    obtain rfl : ev = ch := by simpa using hnext'
    refine ⟨rfl, ?_⟩
    obtain rfl : ev = p := by simpa using hprev'
    cases l with
    | nil => rfl
    | cons a l =>
      have hmem : ev ∈ a :: l := List.mem_of_getLast? (by simpa using hp)
      exact absurd hmem (List.nodup_cons.mp hnd).1
  · rintro ⟨rfl, rfl⟩
    obtain rfl : ev = p := by simpa using hp
    exact Links.cycle_singleton.mpr (by simp)

/-- A call that fails leaves the ring as it was only if it has no structure to link, or if the
    structure it links is all of the ring: otherwise the event stays in the ring. -/
theorem event_cycle_iff (isOpen : ℕ → Bool) (current : τ) (malloc : Option ε) (calloc : Bool)
    (spec : ℕ) (ap : List (ArgVal ε κ)) (ch : ε) {l : List ε}
    (h : s.event isOpen current malloc calloc spec ap = some (r, s'))
    (hchain : spec &&& modeChain ≠ 0)
    (hch : ap[structArgs spec]? = some (.event (some ch)))
    (hring : s.link.Cycle (ch :: l)) (hnd : (ch :: l).Nodup) :
    ((∃ e, r = .error e) → s'.link.Cycle (ch :: l)) ↔
      accepts isOpen spec ap = true ∨ s.structureOf current malloc spec ap = none ∨
        s.structureOf current malloc spec ap = some ch ∧ l = [] := by
  obtain ⟨hstruct, hlink, hr⟩ | ⟨ev, v, hstruct, hv, rfl, hlink, -⟩ := event_cases h
  · simp [hstruct, hlink, hring]
  have hdrop : ap.drop (structArgs spec) =
      .event (some ch) :: ap.drop (structArgs spec + 1) := by
    obtain ⟨hlt, heq⟩ := List.getElem?_eq_some_iff.mp hch
    rw [List.drop_eq_getElem_cons hlt, heq]
  have hlink' : chainLink s.link ev ch = some s'.link := by
    obtain ⟨-, ch', hap, hL⟩ | ⟨hno, -⟩ := linkFor_cases hlink
    · rw [hdrop] at hap
      obtain rfl : ch = ch' := by simpa using (List.cons.inj hap).1
      exact hL
    · exact absurd hchain hno
  cases v with
  | ok v => simp [accepts, hv, Except.map]
  | error e => simp [accepts, hv, Except.map, hstruct, chainLink_cycle_iff hring hnd hlink']

/-- Without memory nothing is linked. -/
theorem event_cycle_enomem :
    ∃ s', start.event (fun _ => true) () none true (EventKind.fd.bit ||| modeChain)
        [.event (some false), .int (-1)] = some (.error .ENOMEM, s') ∧
      s'.link.Cycle [false] := by
  refine ⟨_, rfl, ?_⟩
  exact (event_cycle_iff (s := start) (fun _ => true) () none true
    (EventKind.fd.bit ||| modeChain) [.event (some false), .int (-1)] false rfl (by decide) rfl
    (Links.cycle_singleton.mpr ⟨rfl, rfl⟩) (by simp)).mpr (.inr (.inl rfl)) ⟨_, rfl⟩

/-- An event on a descriptor that is not valid stays in the ring it was to be chained to. -/
theorem event_ebadf_linked :
    ∃ s', start.event (fun _ => true) () (some true) true (EventKind.fd.bit ||| modeChain)
        [.event (some false), .int (-1)] = some (.error .EBADF, s') ∧
      start.link.Cycle [false] ∧ s'.link.Cycle [false, true] ∧ ¬ s'.link.Cycle [false] := by
  refine ⟨_, rfl, Links.cycle_singleton.mpr ⟨rfl, rfl⟩, ?_, fun h => ?_⟩
  · simp [Links.Cycle, Links.Edge, start]
  · exact absurd (Links.cycle_singleton.mp h).1 (by simp [start])

/-! ## The events of the ring functions

What the addresses in the arguments point to turns an event structure into the event that the
rings and the scheduler work on. -/

end EventMem

/-- What is behind the addresses: cells for numbers, sets of descriptors and signals, threads,
    and functions with their arguments. -/
structure Deref (τ : Type*) where
  int : ℕ → Option ℤ
  fdset : ℕ → Option FdSet
  sigset : ℕ → SigSet
  thread : ℕ → Option τ
  func : ℕ → ℕ → EventFunc

/-- The three goals of a descriptor event. -/
def FdGoal.ofBits (goal : ℕ) : FdGoal where
  readable := goal &&& 1 <<< 12 ≠ 0
  writeable := goal &&& 1 <<< 13 ≠ 0
  exception := goal &&& 1 <<< 14 ≠ 0

def ThreadState.ofNumber : ℕ → ThreadState
  | 0 => .scheduler
  | 1 => .new
  | 2 => .ready
  | 3 => .waiting
  | _ => .dead

variable {τ : Type*}

def EventUnion.view (D : Deref τ) (goal : ℕ) : EventUnion → EventArgs τ
  | .fd n => .fd (.ofBits goal) n.toNat
  | .select n nfd rfds wfds efds =>
    .select (D.int n) nfd (D.fdset rfds) (D.fdset wfds) (D.fdset efds)
  | .sigs set sig => .sigs (D.sigset set) (D.int sig)
  | .time tv => .time tv
  | .msg mp => .msg mp
  | .mutex mx => .mutex mx
  | .cond cn => .cond cn
  | .tid t => .tid (D.thread t) (.ofNumber goal)
  | .func f arg tv => .func (D.func f arg) tv

def EventSt.view (D : Deref τ) (b : EventSt) : Event τ :=
  { evStatus := b.evStatus, evArgs := b.evArgs.view D b.evGoal }

/-- What a kind and its arguments ask for. -/
def EventUnion.spec (D : Deref τ) (goal : ℕ) : EventUnion → EventSpec τ
  | .fd n => .fd (.ofBits goal) n
  | args => .kind (args.view D goal)

theorem EventUnion.spec_args (D : Deref τ) (goal : ℕ) (isOpen : ℕ → Bool) (args : EventUnion) :
    (args.spec D goal).args isOpen =
      if args.valid isOpen then .ok (args.view D goal) else .error .EBADF := by
  cases args <;> rfl

namespace EventMem

variable {ε τ κ : Type*} [DecidableEq ε] [DecidableEq τ] [DecidableEq κ]

/-- What a call of `pth_event` asks for. -/
def request (D : Deref τ) (spec : ℕ) (ap : List (ArgVal ε κ)) : EventSpec τ :=
  match EventKind.ofSpec spec with
  | none => .unknown
  | some k => ((k.take (eventArgs spec ap)).map (EventUnion.spec D (k.goal spec))).getD .unknown

/-- The event whose ring a call inserts into. -/
def chained (spec : ℕ) (ap : List (ArgVal ε κ)) : Option ε :=
  if spec &&& modeChain ≠ 0 then
    match ap.drop (structArgs spec) with
    | .event ch :: _ => ch
    | _ => none
  else none

/-- The same events as the ring functions see them. -/
def Views (D : Deref τ) (s : EventMem ε τ κ) (a : Events ε τ) : Prop :=
  a.link = s.link ∧ ∀ e, a.body e = (s.body e).view D

variable {s s' : EventMem ε τ κ} {current : τ} {malloc : Option ε} {calloc : Bool} {spec : ℕ}
  {ap ap' : List (ArgVal ε κ)} {isOpen : ℕ → Bool} {ev : ε} {L L' : Links ε} {r : Except Errno ε}
  {D : Deref τ} {a : Events ε τ}

omit [DecidableEq ε] [DecidableEq τ] [DecidableEq κ] in
/-- The request has the arguments that `pth_event` stores, or the error it returns. -/
theorem request_args {v : Except Errno (EventKind × EventUnion)}
    (h : verdict isOpen spec ap = some v) (D : Deref τ) :
    (request D spec ap).args isOpen = v.map fun w => w.2.view D (w.1.goal spec) := by
  unfold verdict at h
  unfold request
  cases hk : EventKind.ofSpec spec with
  | none =>
    simp only [hk] at h
    cases h
    rfl
  | some k =>
    simp only [hk] at h
    obtain ⟨args, hargs, rfl⟩ := Option.map_eq_some_iff.mp h
    simp only [hargs, Option.map_some, Option.getD_some, EventUnion.spec_args]
    split_ifs <;> rfl

omit [DecidableEq κ] in
/-- The links are those of the ring functions, unless the structure is the last one of the ring it
    is inserted into. -/
theorem linkFor_eventLink (h : linkFor L ev spec (ap.drop (structArgs spec)) = some (L', ap'))
    (hev : ∀ ch ∈ chained spec ap, L.prev ch ≠ some ev) :
    Events.eventLink L ev (chained spec ap) = some L' := by
  unfold chained at hev ⊢
  obtain ⟨hchain, ch, hap, hL⟩ | ⟨hchain, -, rfl⟩ := linkFor_cases h
  · simp only [if_pos hchain, hap] at hev ⊢
    cases hp : L.prev ch with
    | none => simp [chainLink, hp] at hL
    | some p =>
      have hne : ev ≠ p := by
        rintro rfl
        exact hev ch rfl hp
      rw [chainLink_eq hp, if_neg hne] at hL
      simpa [Events.eventLink, hp, Links.link] using hL
  · rw [if_neg hchain]
    rfl

/-- A call of `pth_event` that has a structure is the call on the ring functions' events that its
    bits and arguments ask for. -/
theorem event_refines (h : s.event isOpen current malloc calloc spec ap = some (r, s'))
    (hstruct : s.structureOf current malloc spec ap = some ev)
    (hev : ∀ ch ∈ chained spec ap, s.link.prev ch ≠ some ev) (ha : Views D s a) :
    ∃ a', a.event isOpen (some ev) (chained spec ap) (request D spec ap) = some (r, a') ∧
      Views D s' a' := by
  obtain ⟨hnone, -⟩ | ⟨ev', v, hsome, hv, rfl, hlink, hbody⟩ := event_cases h
  · rw [hstruct] at hnone
    cases hnone
  obtain rfl : ev = ev' := Option.some.inj (hstruct.symm.trans hsome)
  obtain ⟨halink, habody⟩ := ha
  unfold Events.event
  simp only [halink, linkFor_eventLink hlink hev, Option.map_some, request_args hv]
  have hr : (v.map fun w => w.2.view D (w.1.goal spec)).map (fun _ => ev) =
      v.map fun _ => ev := by cases v <;> rfl
  rw [hr]
  refine ⟨_, rfl, rfl, fun e => ?_⟩
  rw [hbody]
  by_cases he : e = ev
  · subst he
    cases v <;> simp [stored, EventSt.view, habody, Except.map, Except.toOption]
  · simp [he, habody]

end EventMem

end Pth
