-- SUMMARY: The thread priority queues of pth_pqueue.c as functions on the queue links of all threads.
import Pth.Lib.Cycle
import Pth.Lib.PrioList

/-!
# Thread priority queues

A queue is a header with the first thread and the number of threads. The threads
themselves are linked through the fields `q_next`, `q_prev` and `q_prio` of their
control blocks, which all queues share. Following a null pointer is undefined
behaviour in the source; here it makes the function return `none`, as does a
loop that runs longer than the queue has threads.
-/

namespace Pth

def prioMax : ℤ := 5
def prioStd : ℤ := 0
def prioMin : ℤ := -5

/-- The queue fields of every thread control block: `link.next` is `q_next`,
    `link.prev` is `q_prev`. -/
structure QNodes (α : Type*) where
  link : Links α
  qPrio : α → ℤ

/-- `struct pth_pqueue_st` -/
structure Pqueue (α : Type*) where
  qHead : Option α
  qNum : ℤ

/-- `PTH_WALK_NEXT` and `PTH_WALK_PREV` -/
inductive Walk where
  | next
  | prev
  deriving DecidableEq, Repr

namespace Pqueue

variable {α : Type*} [DecidableEq α]

/-- `pth_pqueue_init` -/
def init : Pqueue α := { qHead := none, qNum := 0 }

/-- `pth_pqueue_elements` -/
def elements (q : Pqueue α) : ℤ := q.qNum

/-- `pth_pqueue_head` -/
def head (q : Pqueue α) : Option α := q.qHead

/-- The search loop of `pth_pqueue_insert`: from `c` with absolute priority `p`
    to the last thread of greater or equal priority. -/
def insertLoop (m : QNodes α) (h : α) (prio : ℤ) : Nat → α → ℤ → Option (α × ℤ)
  | 0, _, _ => none
  | n + 1, c, p => do
    let cn ← m.link.next c
    if p - m.qPrio cn ≥ prio ∧ cn ≠ h then
      insertLoop m h prio n cn (p - m.qPrio cn)
    else
      some (c, p)

/-- The branch of `pth_pqueue_insert` for an empty queue. -/
def insertFirst (m : QNodes α) (prio : ℤ) (t : α) : Pqueue α × QNodes α :=
  ({ qHead := some t, qNum := 1 },
   { link := (m.link.setPrev t (some t)).setNext t (some t),
     qPrio := Function.update m.qPrio t prio })

/-- `pth_pqueue_insert` -/
def insert (q : Pqueue α) (m : QNodes α) (prio : ℤ) (t : α) : Option (Pqueue α × QNodes α) :=
  match q.qHead with
  | none =>
    let (q', m') := insertFirst m prio t
    some ({ q' with qNum := q.qNum + 1 }, m')
  | some h =>
    if q.qNum = 0 then
      let (q', m') := insertFirst m prio t
      some ({ q' with qNum := q.qNum + 1 }, m')
    else if m.qPrio h < prio then do
      -- add as new head of queue
      let hp ← m.link.prev h
      let v := Function.update m.qPrio t prio
      some ({ qHead := some t, qNum := q.qNum + 1 },
            { link := m.link.link hp t h, qPrio := Function.update v h (prio - v h) })
    else do
      -- insert after elements with greater or equal priority
      let (c, p) ← insertLoop m h prio q.qNum.toNat h (m.qPrio h)
      let cn ← m.link.next c
      let v := Function.update m.qPrio t (p - prio)
      some ({ q with qNum := q.qNum + 1 },
            { link := m.link.link c t cn,
              qPrio := if cn ≠ h then Function.update v cn (v cn - v t) else v })

/-- Take the head `t` out of its queue, the code that `pth_pqueue_delmax` and
    `pth_pqueue_delete` share. -/
def deleteHead (q : Pqueue α) (m : QNodes α) (t : α) : Option (Pqueue α × QNodes α) :=
  if m.link.next t = some t then
    -- remove the last element and make queue empty
    some ({ qHead := none, qNum := 0 },
          { link := (m.link.setNext t none).setPrev t none,
            qPrio := Function.update m.qPrio t 0 })
  else do
    -- remove head of queue
    let tp ← m.link.prev t
    let tn ← m.link.next t
    let v := Function.update m.qPrio tn (m.qPrio t - m.qPrio tn)
    some ({ qHead := some tn, qNum := q.qNum - 1 },
          { link := m.link.bypass tp tn, qPrio := Function.update v t 0 })

/-- `pth_pqueue_delmax` -/
def delmax (q : Pqueue α) (m : QNodes α) : Option (Option α × Pqueue α × QNodes α) :=
  match q.qHead with
  | none => some (none, q, m)
  | some t => (deleteHead q m t).map fun r => (some t, r)

/-- `pth_pqueue_delete` -/
def delete (q : Pqueue α) (m : QNodes α) (t : α) : Option (Pqueue α × QNodes α) :=
  match q.qHead with
  | none => some (q, m)
  | some h =>
    if h = t then deleteHead q m t
    else do
      let tp ← m.link.prev t
      let tn ← m.link.next t
      let v := if tn ≠ h then Function.update m.qPrio tn (m.qPrio tn + m.qPrio t) else m.qPrio
      some ({ q with qNum := q.qNum - 1 },
            { link := m.link.bypass tp tn, qPrio := Function.update v t 0 })

/-- `pth_pqueue_favorite_prio` -/
def favoritePrio (q : Pqueue α) (m : QNodes α) : ℤ :=
  match q.qHead with
  | some h => m.qPrio h + 1
  | none => prioMax

/-- `pth_pqueue_favorite` -/
def favorite (q : Pqueue α) (m : QNodes α) (t : α) : Option (Bool × Pqueue α × QNodes α) :=
  if q.qHead = none ∨ q.qNum = 0 then some (false, q, m)
  else if q.qNum = 1 then
    -- element is already at top
    some (true, q, m)
  else do
    -- move to top
    let (q₁, m₁) ← delete q m t
    let (q₂, m₂) ← insert q₁ m₁ (favoritePrio q₁ m₁) t
    some (true, q₂, m₂)

/-- `pth_pqueue_increase` -/
def increase (q : Pqueue α) (m : QNodes α) : QNodes α :=
  match q.qHead with
  | none => m
  | some h => { m with qPrio := Function.update m.qPrio h (m.qPrio h + 1) }

/-- `pth_pqueue_tail` -/
def tail (q : Pqueue α) (m : QNodes α) : Option α :=
  match q.qHead with
  | none => none
  | some h => m.link.prev h

/-- `pth_pqueue_walk` -/
def walk (q : Pqueue α) (m : QNodes α) (t : α) : Walk → Option α
  | .prev => if some t ≠ q.qHead then m.link.prev t else none
  | .next => if m.link.next t = q.qHead then none else m.link.next t

/-- The loop of `pth_pqueue_contains`, standing at `tc`. -/
def containsLoop (q : Pqueue α) (m : QNodes α) (t : α) : Nat → Option α → Option Bool
  | _, none => some false
  | 0, some _ => none
  | n + 1, some tc => if tc = t then some true else containsLoop q m t n (q.walk m tc .next)

/-- `pth_pqueue_contains` -/
def contains (q : Pqueue α) (m : QNodes α) (t : α) : Option Bool :=
  containsLoop q m t q.qNum.toNat q.head

end Pqueue

/-! ## All queues of the library

The threads carry one set of queue links, so a queue operation works on the
header of one queue and on the links of all threads. -/

structure Queues (κ α : Type*) where
  node : QNodes α
  queue : κ → Pqueue α

namespace Queues

variable {κ α : Type*} [DecidableEq κ] [DecidableEq α]

/-- Write back the header of the queue `k` and the links. -/
def set (s : Queues κ α) (k : κ) (r : Pqueue α × QNodes α) : Queues κ α :=
  { node := r.2, queue := Function.update s.queue k r.1 }

def init (s : Queues κ α) (k : κ) : Queues κ α := s.set k (Pqueue.init, s.node)

def insert (s : Queues κ α) (k : κ) (prio : ℤ) (t : α) : Option (Queues κ α) :=
  ((s.queue k).insert s.node prio t).map (s.set k)

def delmax (s : Queues κ α) (k : κ) : Option (Option α × Queues κ α) :=
  ((s.queue k).delmax s.node).map fun r => (r.1, s.set k r.2)

def delete (s : Queues κ α) (k : κ) (t : α) : Option (Queues κ α) :=
  ((s.queue k).delete s.node t).map (s.set k)

def favoritePrio (s : Queues κ α) (k : κ) : ℤ := (s.queue k).favoritePrio s.node

def favorite (s : Queues κ α) (k : κ) (t : α) : Option (Bool × Queues κ α) :=
  ((s.queue k).favorite s.node t).map fun r => (r.1, s.set k r.2)

def increase (s : Queues κ α) (k : κ) : Queues κ α :=
  { s with node := (s.queue k).increase s.node }

def elements (s : Queues κ α) (k : κ) : ℤ := (s.queue k).elements

def head (s : Queues κ α) (k : κ) : Option α := (s.queue k).head

def tail (s : Queues κ α) (k : κ) : Option α := (s.queue k).tail s.node

def walk (s : Queues κ α) (k : κ) (t : α) (d : Walk) : Option α := (s.queue k).walk s.node t d

def contains (s : Queues κ α) (k : κ) (t : α) : Option Bool := (s.queue k).contains s.node t

/-- The threads met by walking a queue forward from its head. -/
def threads (s : Queues κ α) (k : κ) : List α :=
  walkList (fun t => s.walk k t .next) (s.elements k).toNat (s.head k)

end Queues

end Pth
