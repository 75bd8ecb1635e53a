-- SUMMARY: The message ports of pth_msg.c, and what put, get, reply and destroy do to the queues.
import Pth.Types
import Pth.Queue.Ring

/-!
# Message ports

A message is a ring node, so it is in the queue of a port only through the links
of its neighbours. The ports themselves are linked into a ring of all ports. A port
that has been deallocated must not be used any more; a call that does so faults. -/

namespace Pth

/-- All messages `μ` with the links of their nodes and their reply ports, and all ports `π`
    with their queues. `ports` is the ring `pth_msgport`, and `live` says which ports are
    allocated. -/
structure Msgports (π μ : Type*) where
  node : Links μ
  replyport : μ → Option π
  queue : π → Ring μ
  mpNode : Links π
  ports : Ring π
  live : π → Bool

variable {π μ : Type*} [DecidableEq π] [DecidableEq μ]

namespace Msgports

/-- `pth_msgport_create` for the structure `mp`, where `none` is a failed allocation. -/
def create (s : Msgports π μ) (mp : Option π) : Option (Except Errno π × Msgports π μ) :=
  match mp with
  | none => some (.error .ENOMEM, s)
  | some mp =>
    (s.ports.append s.mpNode mp).map fun (r, L) =>
      (.ok mp, { s with
        queue := Function.update s.queue mp Ring.init
        mpNode := L
        ports := r
        live := Function.update s.live mp true })

/-- `pth_msgport_pending` -/
def pending (s : Msgports π μ) (mp : Option π) : Option (Except Errno ℤ) :=
  match mp with
  | none => some (.error .EINVAL)
  | some mp => if s.live mp then some (.ok (s.queue mp).rNodes) else none

/-- `pth_msgport_put` -/
def put (s : Msgports π μ) (mp : Option π) (m : μ) : Option (Ret × Msgports π μ) :=
  match mp with
  | none => some (.error .EINVAL, s)
  | some mp =>
    if s.live mp then
      ((s.queue mp).append s.node m).map fun (r, L) =>
        (.ok, { s with node := L, queue := Function.update s.queue mp r })
    else none

/-- `pth_msgport_get` -/
def get (s : Msgports π μ) (mp : Option π) : Option (Except Errno (Option μ) × Msgports π μ) :=
  match mp with
  | none => some (.error .EINVAL, s)
  | some mp =>
    if s.live mp then
      ((s.queue mp).pop s.node).map fun (m, r, L) =>
        (.ok m, { s with node := L, queue := Function.update s.queue mp r })
    else none

/-- `pth_msgport_reply` -/
def reply (s : Msgports π μ) (m : Option μ) : Option (Ret × Msgports π μ) :=
  match m with
  | none => some (.error .EINVAL, s)
  | some m => s.put (s.replyport m) m

/-- The loop of `pth_msgport_destroy` that replies to all pending messages. -/
def destroyLoop (mp : π) : ℕ → Msgports π μ → Option (Msgports π μ)
  | 0, _ => none
  | n + 1, s =>
    (s.get (some mp)).bind fun r =>
      match r with
      | (.ok (some m), s') => (s'.reply (some m)).bind fun r' => destroyLoop mp n r'.2
      | (_, s') => some s'

/-- `pth_msgport_destroy`. The loop ends after as many rounds as there are messages, unless one
    of them is replied to the port itself. -/
def destroy (s : Msgports π μ) (mp : Option π) : Option (Msgports π μ) :=
  match mp with
  | none => some s
  | some mp =>
    (destroyLoop mp ((s.queue mp).rNodes.toNat + 1) s).bind fun s' =>
      (s'.ports.delete s'.mpNode mp).map fun (r, L) =>
        { s' with mpNode := L, ports := r, live := Function.update s'.live mp false }

/-- The application sets the field `m_replyport` of a message. -/
def setReplyport (s : Msgports π μ) (m : μ) (mp : Option π) : Msgports π μ :=
  { s with replyport := Function.update s.replyport m mp }

/-- The messages that are met by walking the queue of a port. -/
def messages (s : Msgports π μ) (mp : π) : List μ :=
  walkList ((s.queue mp).next s.node) (s.queue mp).rNodes.toNat (s.queue mp).first

end Msgports

/-! ## Queues as lists -/

/-- The ports in their order, the messages that wait at each of them, and a record of what has
    happened: the messages that have arrived at a port and those that have been taken from it,
    in order, and which messages are under way. -/
@[ext]
structure PortLists (π μ : Type*) where
  ports : List π
  queue : π → List μ
  replyport : μ → Option π
  arrived : π → List μ
  taken : π → List μ
  held : μ → Bool

namespace PortLists

def empty (replyport : μ → Option π) : PortLists π μ :=
  { ports := [], queue := fun _ => [], replyport := replyport, arrived := fun _ => []
    taken := fun _ => [], held := fun _ => false }

def create (a : PortLists π μ) (p : π) : PortLists π μ :=
  { a with
    ports := a.ports ++ [p]
    queue := Function.update a.queue p []
    arrived := Function.update a.arrived p []
    taken := Function.update a.taken p [] }

def put (a : PortLists π μ) (p : π) (m : μ) : PortLists π μ :=
  { a with
    queue := Function.update a.queue p (a.queue p ++ [m])
    arrived := Function.update a.arrived p (a.arrived p ++ [m])
    held := Function.update a.held m true }

def get (a : PortLists π μ) (p : π) : PortLists π μ :=
  { a with
    queue := Function.update a.queue p (a.queue p).tail
    taken := Function.update a.taken p (a.taken p ++ (a.queue p).head?.toList)
    held := fun m => if (a.queue p).head? = some m then false else a.held m }

def reply (a : PortLists π μ) (m : μ) : PortLists π μ :=
  match a.replyport m with
  | none => a
  | some r => a.put r m

/-- The messages `l` of `p` go to the end of their reply ports at once, and those that have none
    are dropped. -/
def moveAll (a : PortLists π μ) (p : π) (l : List μ) : PortLists π μ :=
  { a with
    queue := fun r => if r = p then [] else a.queue r ++ l.filter fun m => a.replyport m = some r
    arrived := fun r => a.arrived r ++ l.filter fun m => a.replyport m = some r
    taken := Function.update a.taken p (a.taken p ++ l)
    held := fun m => if m ∈ l then (a.replyport m).isSome else a.held m }

def destroy (a : PortLists π μ) (p : π) : PortLists π μ :=
  { a.moveAll p (a.queue p) with ports := a.ports.erase p }

end PortLists

end Pth
