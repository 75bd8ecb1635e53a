-- SUMMARY: When `pth_msgport_destroy` comes to an end, and which messages it has taken by then.
import Pth.Msg.PortRuns

/-!
# Destroying a port

`pth_msgport_destroy` takes messages from the port until there is none. A message whose reply
port is the port itself is put back by the reply. -/

namespace Pth

variable {π μ : Type*} [DecidableEq π] [DecidableEq μ]

/-! ## The loop with the messages it takes -/

namespace Msgports

/-- The loop of `pth_msgport_destroy` for at most as many rounds as given, with the messages that
    `pth_msgport_get` has returned. -/
def destroyTrace (mp : π) : ℕ → Msgports π μ → Option (List μ × Msgports π μ)
  | 0, _ => none
  | n + 1, s =>
    (s.get (some mp)).bind fun r =>
      match r with
      | (.ok (some m), s') =>
        (s'.reply (some m)).bind fun r' =>
          (destroyTrace mp n r'.2).map fun t => (m :: t.1, t.2)
      | (_, s') => some ([], s')

/-- `pth_msgport_destroy` with at most `n` rounds of its loop, and the messages it has taken. -/
def destroyWithin (n : ℕ) (s : Msgports π μ) (mp : Option π) : Option (List μ × Msgports π μ) :=
  match mp with
  | none => some ([], s)
  | some mp =>
    (destroyTrace mp n s).bind fun t =>
      (t.2.ports.delete t.2.mpNode mp).map fun d =>
        (t.1, { t.2 with mpNode := d.2, ports := d.1, live := Function.update t.2.live mp false })

theorem destroyTrace_erase (mp : π) (n : ℕ) (s : Msgports π μ) :
    (destroyTrace mp n s).map Prod.snd = destroyLoop mp n s := by
  induction n generalizing s with
  | zero => rfl
  | succ n ih =>
    simp only [destroyTrace, destroyLoop]
    cases hget : s.get (some mp) with
    | none => rfl
    | some r =>
      obtain ⟨m, s'⟩ := r
      rcases m with e | _ | m
      · rfl
      · rfl
      · cases hreply : s'.reply (some m) with
        | none => simp [hreply]
        | some r' => simp [hreply, ← ih, Function.comp_def]

/-- Without the record, and with enough rounds for messages that go elsewhere, it is the function
    of the runs. -/
theorem destroyWithin_erase (s : Msgports π μ) (mp : π) :
    (s.destroyWithin ((s.queue mp).rNodes.toNat + 1) (some mp)).map Prod.snd =
      s.destroy (some mp) := by
  simp only [destroyWithin, destroy, ← destroyTrace_erase, Option.map_bind, Option.bind_map]
  congr 1
  funext t
  simp [Function.comp_def]

end Msgports

/-! ## One round -/

namespace PortLists

variable {a : PortLists π μ} {p : π} {m : μ} {l : List μ}

/-- The reply ports of the messages at `p` are ports. -/
def RepliesTo (a : PortLists π μ) (p : π) : Prop :=
  ∀ m ∈ a.queue p, ∀ r ∈ a.replyport m, r ∈ a.ports

/-- What is left at the port after a round: a message that is replied to the port comes last. -/
theorem get_reply_queue_self (hl : a.queue p = m :: l) :
    ((a.get p).reply m).queue p = l ++ if a.replyport m = some p then [m] else [] := by
  by_cases hself : a.replyport m = some p
  · have hreply : (a.get p).reply m = (a.get p).put p m := by
      simp [PortLists.reply, PortLists.get, hself]
    rw [hreply]
    simp [PortLists.put, PortLists.get, hl, hself]
  · rw [get_reply_queue hl hself, if_neg hself, List.append_nil]

@[simp] theorem reply_replyport (a : PortLists π μ) (m : μ) :
    (a.reply m).replyport = a.replyport := by
  unfold PortLists.reply
  split <;> rfl

@[simp] theorem reply_ports (a : PortLists π μ) (m : μ) : (a.reply m).ports = a.ports := by
  unfold PortLists.reply
  split <;> rfl

theorem RepliesTo.get_reply (h : a.RepliesTo p) (hl : a.queue p = m :: l) :
    ((a.get p).reply m).RepliesTo p := by
  intro m' hm' r hr
  rw [get_reply_queue_self hl] at hm'
  have hmem : m' ∈ a.queue p := by
    rw [hl]
    rcases List.mem_append.mp hm' with hm' | hm'
    · exact List.mem_cons_of_mem _ hm'
    · split_ifs at hm' with hself
      · exact List.mem_cons.mpr (.inl (List.mem_singleton.mp hm'))
      · cases hm'
  rw [reply_ports]
  exact h m' hmem r (by simpa [PortLists.get] using hr)

end PortLists

namespace Msgports

variable {s : Msgports π μ} {a : PortLists π μ} {p : π} {m : μ} {l : List μ} {n : ℕ}

/-- One round of the loop takes the first message of the port. -/
theorem destroyTrace_round (h : s.Repr a) (ha : a.Inv) (hp : p ∈ a.ports) (hr : a.RepliesTo p)
    (hl : a.queue p = m :: l) :
    ∃ s', destroyTrace p (n + 1) s = (destroyTrace p n s').map (fun t => (m :: t.1, t.2)) ∧
      s'.Repr ((a.get p).reply m) ∧ ((a.get p).reply m).Inv := by
  obtain ⟨s₁, hget, hs₁⟩ := get_refines h ha hp
  have hm : ∀ q, m ∉ (a.get p).queue q := fun q hmem =>
    ((PortLists.mem_get ha).mp hmem).2 (by simp [hl])
  have hports : ∀ r ∈ (a.get p).replyport m, r ∈ (a.get p).ports := hr m (by simp [hl])
  obtain ⟨s₂, hreply, hs₂⟩ := reply_refines hs₁ ha.get hm hports
  exact ⟨s₂, by simp [destroyTrace, hget, hl, hreply], hs₂, ha.get.reply hm hports⟩

/-- If no message comes back, the loop takes the pending messages in their order and ends. -/
theorem destroyTrace_ends (h : s.Repr a) (ha : a.Inv) (hp : p ∈ a.ports) (hr : a.RepliesTo p)
    (hl : a.queue p = l) (hself : ∀ m ∈ l, a.replyport m ≠ some p) (hn : l.length < n) :
    ∃ s', destroyTrace p n s = some (l, s') := by
  induction l generalizing s a n with
  | nil =>
    obtain ⟨n, rfl⟩ : ∃ k, n = k + 1 := ⟨n - 1, by simp at hn; omega⟩
    obtain ⟨s₁, hget, -⟩ := get_refines h ha hp
    exact ⟨s₁, by simp [destroyTrace, hget, hl]⟩
  | cons m l ih =>
    obtain ⟨n, rfl⟩ : ∃ k, n = k + 1 := ⟨n - 1, by omega⟩
    obtain ⟨s', hround, hs', ha'⟩ := destroyTrace_round h ha hp hr hl (n := n)
    obtain ⟨hm, hself⟩ := List.forall_mem_cons.mp hself
    obtain ⟨s'', hs''⟩ := ih hs' ha' (by simpa [PortLists.get] using hp) (hr.get_reply hl)
      (PortLists.get_reply_queue hl hm) (by simpa [PortLists.get] using hself) (by simpa using hn)
    exact ⟨s'', by simp [hround, hs'']⟩

/-- A message that is replied to the port keeps the loop going for ever. -/
theorem destroyTrace_forever (n : ℕ) (h : s.Repr a) (ha : a.Inv) (hp : p ∈ a.ports)
    (hr : a.RepliesTo p) (hm : m ∈ a.queue p) (hself : a.replyport m = some p) :
    destroyTrace p n s = none := by
  induction n generalizing s a with
  | zero => rfl
  | succ n ih =>
    obtain ⟨m₀, l, hl⟩ : ∃ m₀ l, a.queue p = m₀ :: l := List.exists_cons_of_ne_nil
      (List.ne_nil_of_mem hm)
    obtain ⟨s', hround, hs', ha'⟩ := destroyTrace_round h ha hp hr hl (n := n)
    -- the message is not the first one, or it is put back
    have hm' : m ∈ ((a.get p).reply m₀).queue p := by
      rw [PortLists.get_reply_queue_self hl]
      rw [hl] at hm
      rcases List.mem_cons.mp hm with rfl | hm
      · simp [hself]
      · exact List.mem_append_left _ hm
    rw [hround, ih hs' ha' (by simpa [PortLists.get] using hp) (hr.get_reply hl) hm'
      (by simpa [PortLists.get] using hself), Option.map_none]

/-- `pth_msgport_destroy` returns, having taken each message that was pending exactly once, if and
    only if none of these messages is to be replied to the port itself. -/
theorem destroy_takes_each_once_iff (s : Msgports π μ) (a : PortLists π μ) (p : π) (h : s.Repr a)
    (ha : a.Inv) (hp : s.live p = true)
    (hr : ∀ m ∈ s.messages p, ∀ r ∈ s.replyport m, s.live r = true) :
    (∃ n taken s', s.destroyWithin n (some p) = some (taken, s') ∧
      ∀ m ∈ s.messages p, taken.count m = 1) ↔
    ∀ m ∈ s.messages p, s.replyport m ≠ some p := by
  have hp' : p ∈ a.ports := (h.live p).mp hp
  rw [h.messages hp'] at hr ⊢
  rw [h.reply] at hr ⊢
  have hreplies : a.RepliesTo p := fun m hm r hmr => (h.live r).mp (hr m hm r hmr)
  constructor
  · rintro ⟨n, taken, s', hdestroy, -⟩ m hm hself
    rw [destroyWithin, destroyTrace_forever n h ha hp' hreplies hm hself] at hdestroy
    cases hdestroy
  · intro hself
    have hne : ∀ m ∈ a.queue p, ∀ r ∈ a.replyport m, r ≠ p ∧ r ∈ a.ports := by
      intro m hm r hmr
      refine ⟨?_, hreplies m hm r hmr⟩
      rintro rfl
      exact hself m hm hmr
    obtain ⟨s', hdestroy, -⟩ := destroy_refines h ha hp' hne
    rw [← destroyWithin_erase] at hdestroy
    obtain ⟨⟨taken, s'⟩, hwithin, rfl⟩ := Option.map_eq_some_iff.mp hdestroy
    refine ⟨_, taken, s', hwithin, fun m hm => ?_⟩
    have hlen : (a.queue p).length < (s.queue p).rNodes.toNat + 1 := by
      rw [(h.queue p hp').nodes]
      simp
    obtain ⟨s₁, hloop⟩ := destroyTrace_ends h ha hp' hreplies rfl hself hlen
    simp only [destroyWithin, hloop, Option.bind_some] at hwithin
    obtain ⟨d, -, heq⟩ := Option.map_eq_some_iff.mp hwithin
    obtain ⟨rfl, -⟩ := Prod.mk.inj heq
    exact List.count_eq_one_of_mem (ha.nodup p) hm

/-- Two messages wait, one for a reply at another port and one without a reply port. -/
theorem destroy_takes_each_once :
    ∃ s : Msgports Bool ℕ, s.messages false = [10, 11] ∧ s.replyport 10 = some true ∧
      s.replyport 11 = none ∧ ∃ n taken s', s.destroyWithin n (some false) = some (taken, s') ∧
        ∀ m ∈ s.messages false, taken.count m = 1 := by
  obtain ⟨s, hs, ha⟩ := MsgOp.exists_repr (fun _ => none)
    [.create (some false), .create (some true), .setReplyport 10 (some true), .put false 10,
      .put false 11] (by simp only [MsgOp.AllowedAll, MsgOp.Allowed]; decide)
  have hmsgs : s.messages false = [10, 11] := (hs.messages (by decide)).trans (by decide)
  have hreply := hs.reply
  refine ⟨s, hmsgs, by rw [hreply]; decide, by rw [hreply]; decide, ?_⟩
  refine (destroy_takes_each_once_iff s _ false hs ha ((hs.live _).mpr (by decide)) ?_).mpr ?_
  · intro m hm r hr
    rw [hreply] at hr
    refine (hs.live r).mpr ?_
    revert r
    revert m
    rw [hmsgs]
    decide
  · rw [hmsgs, hreply]
    decide

/-- A message that is to be replied to the port at which it waits. -/
theorem destroy_self_reply :
    ∃ s : Msgports Bool ℕ, s.live false = true ∧ s.messages false = [10] ∧
      s.replyport 10 = some false ∧ ∀ n, s.destroyWithin n (some false) = none := by
  obtain ⟨s, hs, ha⟩ := MsgOp.exists_repr (fun _ => none)
    [.create (some false), .setReplyport 10 (some false), .put false 10]
    (by simp only [MsgOp.AllowedAll, MsgOp.Allowed]; decide)
  have hmsgs : s.messages false = [10] := (hs.messages (by decide)).trans (by decide)
  refine ⟨s, (hs.live _).mpr (by decide), hmsgs, by rw [hs.reply]; decide, fun n => ?_⟩
  have hforever := destroyTrace_forever (m := 10) n hs ha (p := false) (by decide)
    (by unfold PortLists.RepliesTo; decide) (by decide) (by decide)
  rw [destroyWithin, hforever, Option.bind_none]

end Msgports

end Pth
