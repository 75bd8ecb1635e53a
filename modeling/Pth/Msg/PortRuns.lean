-- SUMMARY: Every sequence of calls on message ports conserves the messages and their order.
import Pth.Msg.Port

/-!
# Runs of message port operations

The queues of all ports share one map of links. No message is in two of them, so
a call on one port leaves the links of the others alone, and every sequence of
calls refines the operations on one list of messages for each port. -/

namespace Pth

variable {π μ : Type*} [DecidableEq π] [DecidableEq μ]

/-! ## Conservation on lists -/

/-- No message waits twice, the messages under way are those that wait somewhere, and what has
    arrived at a port is what has been taken from it followed by what still waits. -/
structure PortLists.Inv (a : PortLists π μ) : Prop where
  ports : a.ports.Nodup
  dead : ∀ p, p ∉ a.ports → a.queue p = []
  nodup : ∀ p, (a.queue p).Nodup
  disjoint : ∀ {p q m}, m ∈ a.queue p → m ∈ a.queue q → p = q
  held : ∀ m, a.held m = true ↔ ∃ p, m ∈ a.queue p
  fifo : ∀ p, a.arrived p = a.taken p ++ a.queue p

namespace PortLists

variable {a : PortLists π μ} {p : π} {m : μ}

omit [DecidableEq π] [DecidableEq μ] in
theorem Inv.empty (replyport : μ → Option π) : (PortLists.empty replyport).Inv where
  ports := List.nodup_nil
  dead _ _ := rfl
  nodup _ := List.nodup_nil
  disjoint h := by simp [PortLists.empty] at h
  held := by simp [PortLists.empty]
  fifo _ := rfl

omit [DecidableEq μ] in
theorem Inv.create (h : a.Inv) (hp : p ∉ a.ports) : (a.create p).Inv := by
  have hqueue : (a.create p).queue = a.queue := by
    simp [PortLists.create, h.dead p hp]
  refine ⟨?_, fun q hq => ?_, fun q => ?_, fun {q q' m} => ?_, fun m => ?_, fun q => ?_⟩
  · rw [PortLists.create, ← List.concat_eq_append]
    exact h.ports.concat hp
  · rw [hqueue]
    exact h.dead q fun hmem => hq (List.mem_append_left _ hmem)
  · rw [hqueue]
    exact h.nodup q
  · rw [hqueue]
    exact h.disjoint
  · rw [hqueue]
    exact h.held m
  · by_cases hq : q = p
    · simp [PortLists.create, hq]
    · simpa [PortLists.create, hq] using h.fifo q

theorem mem_put {q : π} {m' : μ} :
    m' ∈ (a.put p m).queue q ↔ m' ∈ a.queue q ∨ q = p ∧ m' = m := by
  by_cases hq : q = p
  · simp [PortLists.put, hq]
  · simp [PortLists.put, hq]

theorem Inv.put (h : a.Inv) (hp : p ∈ a.ports) (hm : ∀ q, m ∉ a.queue q) : (a.put p m).Inv := by
  refine ⟨h.ports, fun q hq => ?_, fun q => ?_, fun {q q' m'} hq hq' => ?_, fun m' => ?_,
    fun q => ?_⟩
  · have hne : q ≠ p := (ne_of_mem_of_not_mem hp hq).symm
    simpa [PortLists.put, hne] using h.dead q hq
  · by_cases hq : q = p
    · have hnd := (h.nodup p).concat (hm p)
      simpa [PortLists.put, hq] using hnd
    · simpa [PortLists.put, hq] using h.nodup q
  · rw [mem_put] at hq hq'
    rcases hq with hq | ⟨rfl, rfl⟩
    · rcases hq' with hq' | ⟨-, rfl⟩
      · exact h.disjoint hq hq'
      · exact absurd hq (hm q)
    · rcases hq' with hq' | ⟨rfl, -⟩
      · exact absurd hq' (hm q')
      · rfl
  · simp only [mem_put]
    by_cases hm' : m' = m
    · simp [hm', PortLists.put]
    · simpa [hm', PortLists.put] using h.held m'
  · by_cases hq : q = p
    · simp [PortLists.put, hq, h.fifo p]
    · simpa [PortLists.put, hq] using h.fifo q

theorem mem_get {q : π} {m' : μ} (h : a.Inv) :
    m' ∈ (a.get p).queue q ↔ m' ∈ a.queue q ∧ (a.queue p).head? ≠ some m' := by
  by_cases hq : q = p
  · subst hq
    cases hl : a.queue q with
    | nil => simp [PortLists.get, hl]
    | cons m l =>
      have hnd := h.nodup q
      rw [hl, List.nodup_cons] at hnd
      have hne : m' ∈ l → m ≠ m' := fun hm' heq => hnd.1 (heq ▸ hm')
      simp only [PortLists.get, hl, Function.update_self, List.tail_cons, List.head?_cons,
        List.mem_cons, ne_eq, Option.some.injEq]
      grind
  · have hne : m' ∈ a.queue q → (a.queue p).head? ≠ some m' := fun hm' hhead =>
      hq (h.disjoint hm' (List.mem_of_mem_head? hhead))
    simpa [PortLists.get, hq] using hne

theorem Inv.get (h : a.Inv) : (a.get p).Inv := by
  refine ⟨h.ports, fun q hq => ?_, fun q => ?_, fun {q q' m'} hq hq' => ?_, fun m' => ?_,
    fun q => ?_⟩
  · by_cases hqp : q = p
    · have hdead := h.dead q hq
      subst hqp
      simp [PortLists.get, hdead]
    · simpa [PortLists.get, hqp] using h.dead q hq
  · by_cases hq : q = p
    · simpa [PortLists.get, hq] using (h.nodup p).tail
    · simpa [PortLists.get, hq] using h.nodup q
  · exact h.disjoint ((mem_get h).mp hq).1 ((mem_get h).mp hq').1
  · simp only [mem_get h]
    by_cases hhead : (a.queue p).head? = some m'
    · simp [PortLists.get, hhead]
    · simpa [PortLists.get, hhead] using h.held m'
  · by_cases hq : q = p
    · subst hq
      cases hl : a.queue q with
      | nil => simpa [PortLists.get, hl] using h.fifo q
      | cons m l => simpa [PortLists.get, hl] using h.fifo q
    · simpa [PortLists.get, hq] using h.fifo q

theorem get_nil (hl : a.queue p = []) : a.get p = a := by
  refine PortLists.ext rfl ?_ rfl rfl ?_ ?_
  · simp [PortLists.get, hl]
  · simp [PortLists.get, hl]
  · simp [PortLists.get, hl]

theorem Inv.reply (h : a.Inv) (hm : ∀ q, m ∉ a.queue q) (hr : ∀ r ∈ a.replyport m, r ∈ a.ports) :
    (a.reply m).Inv := by
  unfold PortLists.reply
  split
  · exact h
  · exact h.put (hr _ ‹_›) hm

/-! ## Destroying a port -/

/-- The loop of `pth_msgport_destroy`, which gets the messages of `l` one by one. -/
def drain (p : π) : List μ → PortLists π μ → PortLists π μ
  | [], a => a
  | m :: l, a => drain p l ((a.get p).reply m)

/-- The first message of `p` is replied to: the message is in front of `l`. -/
theorem get_reply_eq {l : List μ} (hl : a.queue p = m :: l) (hp : a.replyport m ≠ some p) :
    (a.get p).reply m =
      { a with
        queue := fun q => if q = p then l
          else a.queue q ++ [m].filter fun m => a.replyport m = some q
        arrived := fun q => a.arrived q ++ [m].filter fun m => a.replyport m = some q
        taken := Function.update a.taken p (a.taken p ++ [m])
        held := fun m' => if m' = m then (a.replyport m).isSome else a.held m' } := by
  cases hr : a.replyport m with
  | none =>
    have hreply : (a.get p).reply m = a.get p := by simp [PortLists.reply, PortLists.get, hr]
    rw [hreply]
    refine PortLists.ext rfl (funext fun q => ?_) rfl (funext fun q => ?_) ?_ (funext fun m' => ?_)
    · by_cases hq : q = p
      · simp [PortLists.get, hl, hq]
      · simp [PortLists.get, hr, hq]
    · simp [PortLists.get, hr]
    · simp [PortLists.get, hl]
    · simp [PortLists.get, hl, eq_comm]
  | some r =>
    have hreply : (a.get p).reply m = (a.get p).put r m := by
      simp [PortLists.reply, PortLists.get, hr]
    have hrp : r ≠ p := by
      rintro rfl
      exact hp hr
    rw [hreply]
    refine PortLists.ext rfl (funext fun q => ?_) rfl (funext fun q => ?_) ?_ (funext fun m' => ?_)
    · by_cases hq : q = p
      · simp [PortLists.put, PortLists.get, hl, hq, Ne.symm hrp]
      · by_cases hqr : q = r
        · simp [PortLists.put, PortLists.get, hr, hqr, hrp]
        · simp [PortLists.put, PortLists.get, hr, hq, hqr, Ne.symm hqr]
    · by_cases hqr : q = r
      · simp [PortLists.put, PortLists.get, hr, hqr]
      · simp [PortLists.put, PortLists.get, hr, hqr, Ne.symm hqr]
    · simp [PortLists.put, PortLists.get, hl]
    · by_cases hm' : m' = m
      · simp [PortLists.put, hm']
      · simp [PortLists.put, PortLists.get, hl, hm', Ne.symm hm']

theorem get_reply_queue {l : List μ} (hl : a.queue p = m :: l) (hp : a.replyport m ≠ some p) :
    ((a.get p).reply m).queue p = l := by
  rw [get_reply_eq hl hp]
  simp

theorem get_reply_replyport {l : List μ} (hl : a.queue p = m :: l)
    (hp : a.replyport m ≠ some p) : ((a.get p).reply m).replyport = a.replyport := by
  rw [get_reply_eq hl hp]

theorem get_reply_ports {l : List μ} (hl : a.queue p = m :: l) (hp : a.replyport m ≠ some p) :
    ((a.get p).reply m).ports = a.ports := by
  rw [get_reply_eq hl hp]

theorem drain_eq {l : List μ} (hl : a.queue p = l) (hp : ∀ m ∈ l, a.replyport m ≠ some p) :
    drain p l a = a.moveAll p l := by
  induction l generalizing a with
  | nil =>
    refine PortLists.ext rfl (funext fun q => ?_) rfl (funext fun q => ?_) ?_ (funext fun m => ?_)
    · by_cases hq : q = p
      · simp [drain, moveAll, hq, hl]
      · simp [drain, moveAll, hq]
    · simp [drain, moveAll]
    · simp [drain, moveAll]
    · simp [drain, moveAll]
  | cons m l ih =>
    obtain ⟨hpm, hpl⟩ := List.forall_mem_cons.mp hp
    rw [← get_reply_replyport hl hpm] at hpl
    rw [drain, ih (get_reply_queue hl hpm) hpl, get_reply_eq hl hpm]
    refine PortLists.ext rfl (funext fun q => ?_) rfl (funext fun q => ?_) ?_
      (funext fun m' => ?_)
    · by_cases hq : q = p
      · simp [moveAll, hq]
      · simp [moveAll, hq, ← List.filter_append]
    · simp [moveAll, ← List.filter_append]
    · simp [moveAll]
    · by_cases hm' : m' = m
      · simp [moveAll, hm']
      · simp [moveAll, hm']

theorem Inv.drain {l : List μ} (h : a.Inv) (hl : a.queue p = l)
    (hr : ∀ m ∈ l, ∀ r ∈ a.replyport m, r ≠ p ∧ r ∈ a.ports) : (drain p l a).Inv := by
  induction l generalizing a with
  | nil => exact h
  | cons m l ih =>
    obtain ⟨hrm, hrl⟩ := List.forall_mem_cons.mp hr
    have hpm : a.replyport m ≠ some p := fun heq => (hrm p heq).1 rfl
    have hm : ∀ q, m ∉ (a.get p).queue q := fun q hmem => ((mem_get h).mp hmem).2 (by simp [hl])
    refine ih (h.get.reply hm fun r hr => (hrm r hr).2) (get_reply_queue hl hpm) ?_
    rw [get_reply_replyport hl hpm, get_reply_ports hl hpm]
    exact hrl

theorem Inv.destroy (h : a.Inv)
    (hr : ∀ m ∈ a.queue p, ∀ r ∈ a.replyport m, r ≠ p ∧ r ∈ a.ports) : (a.destroy p).Inv := by
  have hmoved : (a.moveAll p (a.queue p)).Inv := by
    rw [← drain_eq rfl fun m hm heq => (hr m hm p heq).1 rfl]
    exact h.drain rfl hr
  refine ⟨h.ports.erase p, fun q hq => ?_, hmoved.nodup, hmoved.disjoint, hmoved.held,
    hmoved.fifo⟩
  by_cases hqp : q = p
  · simp [PortLists.destroy, moveAll, hqp]
  · refine hmoved.dead q fun hmem => hq ?_
    exact (List.mem_erase_of_ne hqp).mpr hmem

end PortLists

/-! ## The linked queues -/

/-- The rings link the ports and the messages of the lists. -/
structure Msgports.Repr (s : Msgports π μ) (a : PortLists π μ) : Prop where
  ports : s.ports.Repr s.mpNode a.ports
  live : ∀ p, s.live p = true ↔ p ∈ a.ports
  queue : ∀ p ∈ a.ports, (s.queue p).Repr s.node (a.queue p)
  reply : s.replyport = a.replyport

namespace Msgports

variable {s : Msgports π μ} {a : PortLists π μ} {p : π} {m : μ}

omit [DecidableEq μ] in
/-- Writing one queue back: `S` are the messages whose links may have changed. -/
private theorem Repr.queue_update {r : Ring μ} {L : Links μ} {l S : List μ} (h : s.Repr a)
    (hr : r.Repr L l) (hoff : s.node.EqOff S L)
    (hS : ∀ q, q ≠ p → ∀ m ∈ a.queue q, m ∉ S) :
    ∀ q ∈ a.ports, (Function.update s.queue p r q).Repr L (Function.update a.queue p l q) := by
  intro q hq
  by_cases hqp : q = p
  · subst hqp
    simpa using hr
  · have hother := (h.queue q hq).congr hoff (hS q hqp)
    simpa [hqp] using hother

theorem put_refines (h : s.Repr a) (ha : a.Inv) (hp : p ∈ a.ports) (hm : ∀ q, m ∉ a.queue q) :
    ∃ s', s.put (some p) m = some (.ok, s') ∧ s'.Repr (a.put p m) := by
  obtain ⟨r, L, happ, hr, hoff⟩ := Ring.append_repr (h.queue p hp) (hm p)
  have hlive := (h.live p).mpr hp
  refine ⟨{ s with node := L, queue := Function.update s.queue p r }, by simp [put, hlive, happ],
    h.ports, h.live, ?_, h.reply⟩
  refine h.queue_update hr hoff fun q hq m' hm' hS => ?_
  rcases List.mem_cons.mp hS with rfl | hS
  · exact hm q hm'
  · exact hq (ha.disjoint hm' hS)

theorem get_refines (h : s.Repr a) (ha : a.Inv) (hp : p ∈ a.ports) :
    ∃ s', s.get (some p) = some (.ok (a.queue p).head?, s') ∧ s'.Repr (a.get p) := by
  obtain ⟨r, L, hpop, hr, hoff⟩ := Ring.pop_repr (h.queue p hp)
  have hlive := (h.live p).mpr hp
  refine ⟨{ s with node := L, queue := Function.update s.queue p r }, by simp [get, hlive, hpop],
    h.ports, h.live, ?_, h.reply⟩
  refine h.queue_update hr hoff fun q hq m' hm' hS => ?_
  exact hq (ha.disjoint hm' (List.mem_of_mem_tail hS))

theorem reply_refines (h : s.Repr a) (ha : a.Inv) (hm : ∀ q, m ∉ a.queue q)
    (hr : ∀ r ∈ a.replyport m, r ∈ a.ports) :
    ∃ s', s.reply (some m) =
        some (if (a.replyport m).isSome then .ok else .error .EINVAL, s') ∧
      s'.Repr (a.reply m) := by
  cases hport : a.replyport m with
  | none =>
    refine ⟨s, by simp [reply, put, h.reply, hport], ?_⟩
    simpa [PortLists.reply, hport] using h
  | some r =>
    obtain ⟨s', hput, hs'⟩ := put_refines h ha (hr r hport) hm
    refine ⟨s', by simp [reply, h.reply, hport, hput], ?_⟩
    simpa [PortLists.reply, hport] using hs'

theorem destroyLoop_refines {l : List μ} {n : ℕ} (h : s.Repr a) (ha : a.Inv) (hp : p ∈ a.ports)
    (hl : a.queue p = l) (hr : ∀ m ∈ l, ∀ r ∈ a.replyport m, r ≠ p ∧ r ∈ a.ports)
    (hn : l.length < n) :
    ∃ s', destroyLoop p n s = some s' ∧ s'.Repr (PortLists.drain p l a) := by
  induction l generalizing s a n with
  | nil =>
    obtain ⟨n, rfl⟩ : ∃ k, n = k + 1 := ⟨n - 1, by simp at hn; omega⟩
    obtain ⟨s₁, hget, hs₁⟩ := get_refines h ha hp
    rw [PortLists.get_nil hl] at hs₁
    exact ⟨s₁, by simp [destroyLoop, hget, hl], hs₁⟩
  | cons m l ih =>
    obtain ⟨n, rfl⟩ : ∃ k, n = k + 1 := ⟨n - 1, by omega⟩
    obtain ⟨s₁, hget, hs₁⟩ := get_refines h ha hp
    obtain ⟨hrm, hrl⟩ := List.forall_mem_cons.mp hr
    have hpm : a.replyport m ≠ some p := fun heq => (hrm p heq).1 rfl
    have hm : ∀ q, m ∉ (a.get p).queue q := fun q hmem =>
      ((PortLists.mem_get ha).mp hmem).2 (by simp [hl])
    obtain ⟨s₂, hreply, hs₂⟩ := reply_refines hs₁ ha.get hm fun r hr => (hrm r hr).2
    have hports := PortLists.get_reply_ports hl hpm
    have hreplyport := PortLists.get_reply_replyport hl hpm
    obtain ⟨s', hloop, hs'⟩ := ih hs₂ (ha.get.reply hm fun r hr => (hrm r hr).2)
      (by rw [hports]; exact hp) (PortLists.get_reply_queue hl hpm)
      (by rw [hports, hreplyport]; exact hrl) (by simpa using hn)
    exact ⟨s', by simp [destroyLoop, hget, hl, hreply, hloop], hs'⟩

theorem destroy_refines (h : s.Repr a) (ha : a.Inv) (hp : p ∈ a.ports)
    (hr : ∀ m ∈ a.queue p, ∀ r ∈ a.replyport m, r ≠ p ∧ r ∈ a.ports) :
    ∃ s', s.destroy (some p) = some s' ∧ s'.Repr (a.destroy p) := by
  have hlen : (a.queue p).length < (s.queue p).rNodes.toNat + 1 := by
    rw [(h.queue p hp).nodes]
    simp
  obtain ⟨s₁, hloop, hs₁⟩ := destroyLoop_refines h ha hp rfl hr hlen
  rw [PortLists.drain_eq rfl fun m hm heq => (hr m hm p heq).1 rfl] at hs₁
  obtain ⟨A, B, hAB⟩ := List.append_of_mem hp
  have hpA : p ∉ A := by
    have hnd := ha.ports
    rw [hAB] at hnd
    exact fun hA => (List.nodup_append.mp hnd).2.2 p hA p (by simp) rfl
  have hring := hs₁.ports
  rw [PortLists.moveAll, hAB] at hring
  obtain ⟨r, L, hdel, hr', -⟩ := Ring.delete_repr hring
  refine ⟨{ s₁ with mpNode := L, ports := r, live := Function.update s₁.live p false },
    by simp [destroy, hloop, hdel], ?_, fun q => ?_, fun q hq => ?_, hs₁.reply⟩
  · have herase : a.ports.erase p = A ++ B := by
      rw [hAB, List.erase_append_right _ hpA, List.erase_cons_head]
    simpa [PortLists.destroy, herase] using hr'
  · by_cases hqp : q = p
    · simp [PortLists.destroy, hqp, ha.ports.mem_erase_iff]
    · simpa [PortLists.destroy, PortLists.moveAll, hqp, ha.ports.mem_erase_iff] using hs₁.live q
  · exact hs₁.queue q (List.mem_of_mem_erase hq)

omit [DecidableEq μ] in
theorem create_refines (h : s.Repr a) (hp : p ∉ a.ports) :
    ∃ s', s.create (some p) = some (.ok p, s') ∧ s'.Repr (a.create p) := by
  obtain ⟨r, L, happ, hr, -⟩ := Ring.append_repr h.ports hp
  refine ⟨{ s with
      queue := Function.update s.queue p Ring.init, mpNode := L, ports := r
      live := Function.update s.live p true },
    by simp [create, happ], hr, fun q => ?_, fun q hq => ?_, h.reply⟩
  · by_cases hqp : q = p
    · simp [PortLists.create, hqp]
    · simpa [PortLists.create, hqp] using h.live q
  · by_cases hqp : q = p
    · subst hqp
      simpa [PortLists.create] using Ring.Repr.init s.node
    · have hmem : q ∈ a.ports := by simpa [PortLists.create, hqp] using hq
      simpa [PortLists.create, hqp] using h.queue q hmem

omit [DecidableEq π] in
theorem Repr.messages (h : s.Repr a) (hp : p ∈ a.ports) : s.messages p = a.queue p := by
  have hq := h.queue p hp
  exact Ring.walkList_next hq (by rw [hq.nodes]; simp)

omit [DecidableEq π] [DecidableEq μ] in
theorem Repr.pending (h : s.Repr a) (hp : p ∈ a.ports) :
    s.pending (some p) = some (.ok (a.queue p).length) := by
  simp [Msgports.pending, (h.live p).mpr hp, (h.queue p hp).nodes]

end Msgports

/-! ## Sequences of calls -/

/-- A call of one of the functions on message ports, or an assignment to a reply port. -/
inductive MsgOp (π μ : Type*) where
  | create (mp : Option π)
  | put (mp : π) (m : μ)
  | get (mp : π)
  | reply (m : μ)
  | destroy (mp : π)
  | setReplyport (m : μ) (mp : Option π)

/-- What a call returns. -/
inductive MsgRet (π μ : Type*) where
  | void
  | port (r : Except Errno π)
  | bool (r : Ret)
  | message (r : Except Errno (Option μ))

namespace MsgOp

/-- The call on the linked ports. -/
def exec (s : Msgports π μ) : MsgOp π μ → Option (MsgRet π μ × Msgports π μ)
  | .create mp => (s.create mp).map fun r => (.port r.1, r.2)
  | .put mp m => (s.put (some mp) m).map fun r => (.bool r.1, r.2)
  | .get mp => (s.get (some mp)).map fun r => (.message r.1, r.2)
  | .reply m => (s.reply (some m)).map fun r => (.bool r.1, r.2)
  | .destroy mp => (s.destroy (some mp)).map fun s' => (.void, s')
  | .setReplyport m mp => some (.void, s.setReplyport m mp)

/-- The call on the lists. -/
def spec (a : PortLists π μ) : MsgOp π μ → MsgRet π μ × PortLists π μ
  | .create none => (.port (.error .ENOMEM), a)
  | .create (some mp) => (.port (.ok mp), a.create mp)
  | .put mp m => (.bool .ok, a.put mp m)
  | .get mp => (.message (.ok (a.queue mp).head?), a.get mp)
  | .reply m => (.bool (if (a.replyport m).isSome then .ok else .error .EINVAL), a.reply m)
  | .destroy mp => (.void, a.destroy mp)
  | .setReplyport m mp =>
    (.void, { a with replyport := Function.update a.replyport m mp })

/-- Only a message that is in no port is put or replied. Ports that are used exist, and so do the
    reply ports that are used; none of the messages of a port that is destroyed is replied to
    that port. -/
def Allowed (a : PortLists π μ) : MsgOp π μ → Prop
  | .create mp => ∀ p ∈ mp, p ∉ a.ports
  | .put mp m => mp ∈ a.ports ∧ ∀ q, m ∉ a.queue q
  | .get mp => mp ∈ a.ports
  | .reply m => (∀ q, m ∉ a.queue q) ∧ ∀ r ∈ a.replyport m, r ∈ a.ports
  | .destroy mp =>
    mp ∈ a.ports ∧ ∀ m ∈ a.queue mp, ∀ r ∈ a.replyport m, r ≠ mp ∧ r ∈ a.ports
  | .setReplyport _ _ => True

theorem spec_inv {a : PortLists π μ} {op : MsgOp π μ} (ha : a.Inv) (hop : op.Allowed a) :
    (op.spec a).2.Inv := by
  cases op with
  | create mp =>
    cases mp with
    | none => exact ha
    | some p => exact ha.create (hop p rfl)
  | put p m => exact ha.put hop.1 hop.2
  | get p => exact ha.get
  | reply m => exact ha.reply hop.1 hop.2
  | destroy p => exact ha.destroy hop.2
  | setReplyport m p => exact ⟨ha.ports, ha.dead, ha.nodup, ha.disjoint, ha.held, ha.fifo⟩

theorem exec_refines {s : Msgports π μ} {a : PortLists π μ} {op : MsgOp π μ} (h : s.Repr a)
    (ha : a.Inv) (hop : op.Allowed a) :
    ∃ s', op.exec s = some ((op.spec a).1, s') ∧ s'.Repr (op.spec a).2 := by
  cases op with
  | create mp =>
    cases mp with
    | none => exact ⟨s, rfl, h⟩
    | some p =>
      obtain ⟨s', hcreate, hs'⟩ := Msgports.create_refines h (hop p rfl)
      exact ⟨s', by simp [exec, spec, hcreate], hs'⟩
  | put p m =>
    obtain ⟨s', hput, hs'⟩ := Msgports.put_refines h ha hop.1 hop.2
    exact ⟨s', by simp [exec, spec, hput], hs'⟩
  | get p =>
    obtain ⟨s', hget, hs'⟩ := Msgports.get_refines h ha hop
    exact ⟨s', by simp [exec, spec, hget], hs'⟩
  | reply m =>
    obtain ⟨s', hreply, hs'⟩ := Msgports.reply_refines h ha hop.1 hop.2
    exact ⟨s', by simp [exec, spec, hreply], hs'⟩
  | destroy p =>
    obtain ⟨s', hdestroy, hs'⟩ := Msgports.destroy_refines h ha hop.1 hop.2
    exact ⟨s', by simp [exec, spec, hdestroy], hs'⟩
  | setReplyport m p =>
    refine ⟨_, rfl, h.ports, h.live, h.queue, ?_⟩
    simp [Msgports.setReplyport, spec, h.reply]

/-- A sequence of calls on the linked ports. -/
def execAll (s : Msgports π μ) : List (MsgOp π μ) → Option (List (MsgRet π μ) × Msgports π μ)
  | [] => some ([], s)
  | op :: ops =>
    (op.exec s).bind fun r => (execAll r.2 ops).map fun rs => (r.1 :: rs.1, rs.2)

/-- A sequence of calls on the lists. -/
def specAll (a : PortLists π μ) : List (MsgOp π μ) → List (MsgRet π μ) × PortLists π μ
  | [] => ([], a)
  | op :: ops =>
    let r := op.spec a
    let rs := specAll r.2 ops
    (r.1 :: rs.1, rs.2)

/-- Every call of the sequence keeps its precondition. -/
def AllowedAll (a : PortLists π μ) : List (MsgOp π μ) → Prop
  | [] => True
  | op :: ops => op.Allowed a ∧ AllowedAll (op.spec a).2 ops

theorem execAll_refines {s : Msgports π μ} {a : PortLists π μ} {ops : List (MsgOp π μ)}
    (h : s.Repr a) (ha : a.Inv) (hops : AllowedAll a ops) :
    ∃ s', execAll s ops = some ((specAll a ops).1, s') ∧ s'.Repr (specAll a ops).2 ∧
      (specAll a ops).2.Inv := by
  induction ops generalizing s a with
  | nil => exact ⟨s, rfl, h, ha⟩
  | cons op ops ih =>
    obtain ⟨hop, hops⟩ := hops
    obtain ⟨s₁, hexec, hs₁⟩ := exec_refines h ha hop
    obtain ⟨s₂, hexecs, hs₂, ha₂⟩ := ih hs₁ (spec_inv ha hop) hops
    exact ⟨s₂, by simp [execAll, specAll, hexec, hexecs], hs₂, ha₂⟩

omit [DecidableEq π] [DecidableEq μ] in
theorem repr_empty (s : Msgports π μ) (hports : s.ports = Ring.init)
    (hlive : ∀ p, s.live p = false) : s.Repr (PortLists.empty s.replyport) := by
  refine ⟨?_, by simp [hlive, PortLists.empty], by simp [PortLists.empty], rfl⟩
  rw [hports]
  exact Ring.Repr.init s.mpNode

/-- The lists that a sequence of calls leads to are linked in some state of the ports. -/
theorem exists_repr (replyport : μ → Option π) (ops : List (MsgOp π μ))
    (hops : AllowedAll (PortLists.empty replyport) ops) :
    ∃ s : Msgports π μ, s.Repr (specAll (PortLists.empty replyport) ops).2 ∧
      (specAll (PortLists.empty replyport) ops).2.Inv := by
  let s₀ : Msgports π μ := ⟨⟨fun _ => none, fun _ => none⟩, replyport, fun _ => Ring.init,
    ⟨fun _ => none, fun _ => none⟩, Ring.init, fun _ => false⟩
  obtain ⟨s, -, hs, ha⟩ :=
    execAll_refines (repr_empty s₀ rfl fun _ => rfl) (PortLists.Inv.empty _) hops
  exact ⟨s, hs, ha⟩

/-- From a start without ports, a sequence of calls never faults and returns what the lists
    return. Then every message that is under way waits at one port only and once, and a message
    that is not waits nowhere; the number of pending messages is right; and what has arrived at a
    port is what has been taken from it, in the same order, followed by what waits there.
    Destroying a port moves its messages to the end of their reply ports, and no other port
    changes. -/
theorem ports_conserve_messages (s : Msgports π μ) (hports : s.ports = Ring.init)
    (hlive : ∀ p, s.live p = false) (ops : List (MsgOp π μ))
    (hops : AllowedAll (PortLists.empty s.replyport) ops) :
    ∃ s' a, execAll s ops = some ((specAll (PortLists.empty s.replyport) ops).1, s') ∧
      a = (specAll (PortLists.empty s.replyport) ops).2 ∧
      (∀ m, a.held m = true ↔ ∃ p ∈ a.ports, m ∈ s'.messages p) ∧
      (∀ p ∈ a.ports, ∀ q ∈ a.ports, ∀ m, m ∈ s'.messages p → m ∈ s'.messages q → p = q) ∧
      (∀ p ∈ a.ports, (s'.messages p).Nodup ∧
        s'.pending (some p) = some (.ok (s'.messages p).length) ∧
        a.arrived p = a.taken p ++ s'.messages p) ∧
      ∀ p, (MsgOp.destroy p).Allowed a → ∃ s'', s'.destroy (some p) = some s'' ∧
        ∀ r ∈ a.ports, r ≠ p → s''.messages r =
          s'.messages r ++ (s'.messages p).filter fun m => s'.replyport m = some r := by
  obtain ⟨s', hexec, hs', ha⟩ :=
    execAll_refines (repr_empty s hports hlive) (PortLists.Inv.empty _) hops
  refine ⟨s', _, hexec, rfl, fun m => ?_, fun p hp q hq m => ?_, fun p hp => ?_, fun p hop => ?_⟩
  · rw [ha.held]
    constructor
    · rintro ⟨p, hm⟩
      have hp : p ∈ (specAll (PortLists.empty s.replyport) ops).2.ports := by
        by_contra hp
        simp [ha.dead p hp] at hm
      exact ⟨p, hp, by rwa [hs'.messages hp]⟩
    · rintro ⟨p, hp, hm⟩
      exact ⟨p, by rwa [hs'.messages hp] at hm⟩
  · rw [hs'.messages hp, hs'.messages hq]
    exact ha.disjoint
  · rw [hs'.messages hp]
    exact ⟨ha.nodup p, hs'.pending hp, ha.fifo p⟩
  · obtain ⟨s'', hdestroy, hs''⟩ := Msgports.destroy_refines hs' ha hop.1 hop.2
    refine ⟨s'', hdestroy, fun r hr hne => ?_⟩
    have hr' : r ∈ ((specAll (PortLists.empty s.replyport) ops).2.destroy p).ports :=
      (List.mem_erase_of_ne hne).mpr hr
    rw [hs''.messages hr', hs'.messages hr, hs'.messages hop.1, hs'.reply]
    simp [PortLists.destroy, PortLists.moveAll, hne]

/-- Three messages wait at a port that is destroyed, one of them without a reply port. -/
theorem ports_conserve_messages_calls :
    ∃ s', execAll (π := Bool) (μ := ℕ)
        ⟨⟨fun _ => none, fun _ => none⟩, fun _ => none, fun _ => Ring.init,
          ⟨fun _ => none, fun _ => none⟩, Ring.init, fun _ => false⟩
        [.create (some false), .create (some true), .create none, .setReplyport 10 (some true),
          .setReplyport 12 (some true), .put false 10, .put false 11, .put false 12, .put true 13,
          .destroy false, .get true, .reply 13] =
        some ([.port (.ok false), .port (.ok true), .port (.error .ENOMEM), .void, .void, .bool .ok,
          .bool .ok, .bool .ok, .bool .ok, .void, .message (.ok (some 13)),
          .bool (.error .EINVAL)], s') ∧
      s'.pending (some true) = some (.ok 2) ∧ s'.messages true = [10, 12] := by
  have hops : AllowedAll (π := Bool) (μ := ℕ) (PortLists.empty fun _ => none)
      [.create (some false), .create (some true), .create none, .setReplyport 10 (some true),
        .setReplyport 12 (some true), .put false 10, .put false 11, .put false 12, .put true 13,
        .destroy false, .get true, .reply 13] := by
    simp only [AllowedAll, Allowed]
    refine ⟨?_, ?_, ?_, ?_, ?_, ?_, ?_, ?_, ?_, ?_, ?_, ?_, ?_⟩ <;> decide
  obtain ⟨s', a, hexec, rfl, -, -, hport, -⟩ := ports_conserve_messages
    ⟨⟨fun _ => none, fun _ => none⟩, fun _ => none, fun _ => Ring.init,
      ⟨fun _ => none, fun _ => none⟩, Ring.init, fun _ => false⟩ rfl (fun _ => rfl) _ hops
  have hmsgs : s'.messages true = [10, 12] := by
    have harrived := (hport true (by decide)).2.2
    exact List.append_cancel_left (harrived.symm.trans (by decide))
  refine ⟨s', hexec.trans (by rfl), ?_, hmsgs⟩
  rw [(hport true (by decide)).2.1, hmsgs]
  rfl

end MsgOp

end Pth
