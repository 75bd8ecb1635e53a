-- SUMMARY: Every sequence of calls on events keeps the events partitioned into rings.
import Pth.Event.Ring

/-!
# Runs of event ring operations

The abstract events are a list of rings, each a list that may be read from any of
its events on. The calls on the linked events refine what they do to the rings:
no event is lost, and every event is in one ring only. -/

namespace Pth

variable {ε τ : Type*} [DecidableEq ε]

/-! ## Operations on the rings -/

namespace EventRings

/-- A new event is alone, or it is the last one of the ring that starts at `ch`. -/
def event (R : List (List ε)) (ev : ε) : Option ε → List (List ε)
  | none => [ev] :: R
  | some ch => (ringAt R ch ++ [ev]) :: apart R [ch]

/-- The event `evf`, the rings `evs` each from its event on, and the rest of the ring of
    `evf`. -/
def concat (R : List (List ε)) (evf : ε) (evs : List ε) : List (List ε) :=
  (evf :: ((evs.map (ringAt R)).flatten ++ (ringAt R evf).tail)) :: apart R (evf :: evs)

/-- The ring of `ev` without `ev`. -/
def remove (R : List (List ε)) (ev : ε) : List (List ε) :=
  Links.addRing (ringAt R ev).tail (apart R [ev])

/-- The event `ev` alone, and the others of its ring. -/
def isolate (R : List (List ε)) (ev : ε) : List (List ε) := [ev] :: remove R ev

variable {L : Links ε} {R : List (List ε)} {e : ε}

theorem event_rings {ch : Option ε} (h : L.Rings R) (he : e ∉ R.flatten)
    (hch : ∀ c ∈ ch, c ∈ R.flatten) :
    ∃ L', Events.eventLink L e ch = some L' ∧ L'.Rings (event R e ch) ∧
      ∀ x, x ∈ (event R e ch).flatten ↔ x = e ∨ x ∈ R.flatten := by
  cases ch with
  | none =>
    obtain ⟨hcycle, hoff⟩ := Links.cycle_self L e
    refine ⟨_, rfl, h.write hoff ?_ hcycle (by simp) (by simp) (by simp), by simp [event]⟩
    simpa using he
  | some c =>
    obtain ⟨⟨A, hA⟩, hturn, hperm⟩ := h.turn (hch c rfl)
    have hmem : ∀ x, x ∈ R.flatten ↔ x ∈ c :: A ∨ x ∈ (apart R [c]).flatten := by
      intro x
      rw [← hperm.mem_iff, hA, List.flatten_cons, List.mem_append]
    rw [hA] at hturn
    obtain ⟨⟨hcycle, hnd, -⟩, hrest, hdisj⟩ := Links.rings_cons.mp hturn
    rw [hmem, not_or] at he
    obtain ⟨p, hprev, hcycle', hoff⟩ := hcycle.link_last hnd he.1
    have hnd' : (c :: A ++ [e]).Nodup := by
      rw [← List.concat_eq_append]
      exact hnd.concat he.1
    refine ⟨L.link p e c, by simp [Events.eventLink, hprev], ?_, ?_⟩
    · rw [event, hA]
      refine hrest.write hoff ?_ hcycle' hnd' (by simp) ?_
      · exact List.forall_mem_cons.mpr ⟨he.2, hdisj⟩
      · intro x hx
        rw [List.mem_append, List.mem_singleton] at hx
        exact List.mem_cons.mpr hx.symm
    · intro x
      rw [event, hA, List.flatten_cons, hmem]
      simp only [List.mem_append, List.mem_singleton]
      tauto

theorem concat_rings {rs : List ε} (h : L.Rings R) (hmem : ∀ x ∈ e :: rs, x ∈ R.flatten)
    (hpw : (e :: rs).Pairwise fun x y => y ∉ ringAt R x) :
    ∃ L', Events.concatLink L e rs = some L' ∧ L'.Rings (concat R e rs) ∧
      (concat R e rs).flatten.Perm R.flatten := by
  obtain ⟨hexp, hperm⟩ := h.expose hmem hpw
  obtain ⟨⟨A, hA⟩, -⟩ := h.turn (hmem e (by simp))
  have hheads : (rs.map (ringAt R)).map List.head? = rs.map some := by
    rw [List.map_map]
    refine List.map_congr_left fun r hr => ?_
    obtain ⟨⟨B, hB⟩, -⟩ := h.turn (hmem r (by simp [hr]))
    simp [hB]
  rw [List.map_cons, hA] at hexp hperm
  obtain ⟨L', hlink, hrings, -⟩ := Events.concatLink_rings hexp hheads
  rw [concat, hA]
  refine ⟨L', hlink, hrings, ?_⟩
  have hspliced : (e :: ((rs.map (ringAt R)).flatten ++ A)).Perm
      ((e :: A) :: rs.map (ringAt R)).flatten := by
    simpa using List.perm_append_comm
  rw [List.flatten_append] at hperm
  exact (hspliced.append_right _).trans hperm

theorem remove_rings (h : L.Rings R) (he : e ∈ R.flatten) :
    ∃ p n, L.prev e = some p ∧ L.next e = some n ∧ (L.bypass p n).Rings (remove R e) ∧
      (e :: (remove R e).flatten).Perm R.flatten := by
  obtain ⟨⟨A, hA⟩, hturn, hperm⟩ := h.turn he
  rw [hA] at hturn hperm
  obtain ⟨⟨hcycle, hnd, -⟩, -⟩ := Links.rings_cons.mp hturn
  obtain ⟨p, n, hprev, hnext, hcycle', hoff⟩ := hcycle.unlink hnd
  refine ⟨p, n, hprev, hnext, ?_, ?_⟩
  · rw [remove, hA]
    exact hturn.remove hoff hcycle'
  · simpa [remove, hA] using hperm

theorem isolate_rings (h : L.Rings R) (he : e ∈ R.flatten) :
    ∃ L', Events.isolateLink L e = some ((ringAt R e).tail.head?, L') ∧ L'.Rings (isolate R e) ∧
      (isolate R e).flatten.Perm R.flatten ∧ L.EqOff R.flatten L' := by
  obtain ⟨⟨A, hA⟩, hturn, hperm⟩ := h.turn he
  rw [hA] at hturn hperm
  obtain ⟨L', hiso, hrings, hoff⟩ := Events.isolateLink_rings hturn
  refine ⟨L', by rw [hA]; exact hiso, ?_, by simpa [isolate, remove, hA] using hperm, ?_⟩
  · rw [isolate, remove, hA]
    exact hrings
  · exact fun z hz => hoff z fun hzA => hz (hperm.mem_iff.mp (List.mem_append_left _ hzA))

theorem mem_isolate {l : List ε} (hl : l ∈ R) (he : e ∉ l) : l ∈ isolate R e := by
  have hapart : l ∈ apart R [e] := by simp [apart, hl, he]
  refine List.mem_cons_of_mem _ ?_
  rw [remove]
  cases (ringAt R e).tail with
  | nil => exact hapart
  | cons a l' => exact List.mem_cons_of_mem _ hapart

end EventRings

/-! ## One call -/

/-- The allocated events are linked into the rings of `R`. -/
structure Events.Repr (s : Events ε τ) (R : List (List ε)) : Prop where
  rings : s.link.Rings R
  live : ∀ e, s.live e = true ↔ e ∈ R.flatten

/-- A call of one of the functions on event rings. -/
inductive EventOp (ε τ : Type*) where
  | event (isOpen : ℕ → Bool) (ev ch : Option ε) (spec : EventSpec τ)
  | concat (evf : ε) (evs : List ε)
  | isolate (ev : ε)
  | freeThis (ev : ε)

/-- What a call returns. -/
inductive EventRet (ε : Type*) where
  | event (r : Except Errno ε)
  | ring (r : Except Errno (Option ε))
  | bool (r : Ret)

namespace EventOp

/-- The call on the linked events. -/
def exec (s : Events ε τ) : EventOp ε τ → Option (EventRet ε × Events ε τ)
  | .event isOpen ev ch spec => (s.event isOpen ev ch spec).map fun r => (.event r.1, r.2)
  | .concat evf evs => (s.concat (some evf) evs).map fun r => (.event r.1, r.2)
  | .isolate ev => (s.isolate (some ev)).map fun r => (.ring r.1, r.2)
  | .freeThis ev => (s.freeThis (some ev)).map fun r => (.bool r.1, r.2)

/-- The call on the rings. -/
def spec (R : List (List ε)) : EventOp ε τ → EventRet ε × List (List ε)
  | .event _ none _ _ => (.event (.error .ENOMEM), R)
  | .event isOpen (some ev) ch spec =>
    (.event ((spec.args isOpen).map fun _ => ev), EventRings.event R ev ch)
  | .concat evf evs => (.event (.ok evf), EventRings.concat R evf evs)
  | .isolate ev => (.ring (.ok (ringAt R ev).tail.head?), EventRings.isolate R ev)
  | .freeThis ev => (.bool .ok, EventRings.remove R ev)

/-- A new event is none of the allocated ones, the arguments are allocated events, and the rings
    that are concatenated are pairwise disjoint. -/
def Allowed (R : List (List ε)) : EventOp ε τ → Prop
  | .event _ ev ch _ => (∀ e ∈ ev, e ∉ R.flatten) ∧ ∀ e ∈ ch, e ∈ R.flatten
  | .concat evf evs =>
    (∀ e ∈ evf :: evs, e ∈ R.flatten) ∧ (evf :: evs).Pairwise fun x y => y ∉ ringAt R x
  | .isolate ev | .freeThis ev => ev ∈ R.flatten

theorem exec_refines {s : Events ε τ} {R : List (List ε)} {op : EventOp ε τ} (h : s.Repr R)
    (hop : op.Allowed R) :
    ∃ s', op.exec s = some ((op.spec R).1, s') ∧ s'.Repr (op.spec R).2 := by
  cases op with
  | event isOpen ev ch sp =>
    cases ev with
    | none => exact ⟨s, rfl, h⟩
    | some e =>
      obtain ⟨L', hlink, hrings, hmem⟩ := EventRings.event_rings h.rings (hop.1 e rfl) hop.2
      have hlive : ∀ x, Function.update s.live e true x = true ↔
          x ∈ (EventRings.event R e ch).flatten := by
        intro x
        rw [hmem, ← h.live]
        by_cases hx : x = e <;> simp [hx]
      have hexec : s.event isOpen (some e) ch sp = some ((sp.args isOpen).map fun _ => e, _) :=
        congrArg (Option.map _) hlink
      exact ⟨_, congrArg (Option.map _) hexec, ⟨hrings, hlive⟩⟩
  | concat evf evs =>
    obtain ⟨L', hlink, hrings, hperm⟩ := EventRings.concat_rings h.rings hop.1 hop.2
    exact ⟨{ s with link := L' }, by simp [exec, Events.concat, hlink, spec],
      ⟨hrings, fun x => (h.live x).trans hperm.mem_iff.symm⟩⟩
  | isolate ev =>
    obtain ⟨L', hlink, hrings, hperm, -⟩ := EventRings.isolate_rings h.rings hop
    exact ⟨{ s with link := L' }, by simp [exec, Events.isolate, hlink, spec],
      ⟨hrings, fun x => (h.live x).trans hperm.mem_iff.symm⟩⟩
  | freeThis ev =>
    obtain ⟨p, n, hprev, hnext, hrings, hperm⟩ := EventRings.remove_rings h.rings hop
    have hev : ev ∉ (EventRings.remove R ev).flatten :=
      (List.nodup_cons.mp (hperm.nodup_iff.mpr h.rings.nodup)).1
    refine ⟨{ s with
      link := s.link.bypass p n, live := Function.update s.live ev false }, ?_, hrings, ?_⟩
    · simp [exec, Events.freeThis, hprev, hnext, spec]
    · intro x
      change _ ↔ x ∈ (EventRings.remove R ev).flatten
      by_cases hx : x = ev
      · simpa [hx] using hev
      · simp [hx, h.live x, ← hperm.mem_iff]

/-! ## Sequences of calls -/

/-- A sequence of calls on the linked events. -/
def execAll (s : Events ε τ) : List (EventOp ε τ) → Option (List (EventRet ε) × Events ε τ)
  | [] => some ([], s)
  | op :: ops =>
    (op.exec s).bind fun r => (execAll r.2 ops).map fun rs => (r.1 :: rs.1, rs.2)

/-- A sequence of calls on the rings. -/
def specAll (R : List (List ε)) : List (EventOp ε τ) → List (EventRet ε) × List (List ε)
  | [] => ([], R)
  | op :: ops =>
    let r := op.spec R
    let rs := specAll r.2 ops
    (r.1 :: rs.1, rs.2)

/-- Every call of the sequence keeps its precondition. -/
def AllowedAll (R : List (List ε)) : List (EventOp ε τ) → Prop
  | [] => True
  | op :: ops => op.Allowed R ∧ AllowedAll (op.spec R).2 ops

theorem execAll_refines {s : Events ε τ} {R : List (List ε)} {ops : List (EventOp ε τ)}
    (h : s.Repr R) (hops : AllowedAll R ops) :
    ∃ s', execAll s ops = some ((specAll R ops).1, s') ∧ s'.Repr (specAll R ops).2 := by
  induction ops generalizing s R with
  | nil => exact ⟨s, rfl, h⟩
  | cons op ops ih =>
    obtain ⟨hop, hops⟩ := hops
    obtain ⟨s₁, hexec, hr₁⟩ := exec_refines h hop
    obtain ⟨s₂, hexecs, hr₂⟩ := ih hr₁ hops
    exact ⟨s₂, by simp [execAll, specAll, hexec, hexecs], hr₂⟩

/-- Concatenating a single event with a ring and isolating it again. -/
theorem concat_isolate {s : Events ε τ} {R : List (List ε)} {e r : ε} (h : s.Repr R)
    (he : [e] ∈ R) (hr : r ∈ R.flatten) (hne : r ≠ e) :
    execAll s [.concat e [r], .isolate e] =
      some ([.event (.ok e), .ring (.ok (some r))], s) := by
  obtain ⟨⟨A, hA⟩, hturn, -⟩ := h.rings.turn hr
  rw [hA] at hturn
  obtain ⟨⟨hcycle, hnd, -⟩, -, hdisj⟩ := Links.rings_cons.mp hturn
  have hapart : e ∈ (apart R [r]).flatten := by
    refine List.mem_flatten_of_mem (l := [e]) ?_ (by simp)
    simp [apart, he, hne]
  have hnd' : (e :: r :: A).Nodup := List.nodup_cons.mpr ⟨fun hmem => hdisj e hmem hapart, hnd⟩
  obtain ⟨L', hconcat, hisolate⟩ :=
    Events.isolateLink_concatLink (h.rings.cycle _ he) hcycle hnd'
  simp [execAll, exec, Events.concat, Events.isolate, hconcat, hisolate]

/-- Whatever the links hold at first, a sequence of calls never faults, returns what the rings
    return, and leaves the allocated events partitioned into the rings. In each state reached,
    concatenating a single event with a ring and isolating it restores every link. -/
theorem events_refine_rings (s : Events ε τ) (hs : ∀ e, s.live e = false)
    (ops : List (EventOp ε τ)) (hops : AllowedAll [] ops) :
    ∃ s' R, execAll s ops = some ((specAll [] ops).1, s') ∧ R = (specAll [] ops).2 ∧
      s'.link.Rings R ∧ (∀ e, s'.live e = true ↔ e ∈ R.flatten) ∧
      ∀ e r, [e] ∈ R → r ∈ R.flatten → r ≠ e →
        execAll s' [.concat e [r], .isolate e] =
          some ([.event (.ok e), .ring (.ok (some r))], s') := by
  have hinit : s.Repr [] := ⟨Links.Rings.nil _, by simp [hs]⟩
  obtain ⟨s', hexec, hr⟩ := execAll_refines hinit hops
  exact ⟨s', _, hexec, rfl, hr.rings, hr.live, fun e r he hmem hne => concat_isolate hr he hmem hne⟩

/-- Two rings are built and concatenated at events in their middle, one event is isolated and one
    is freed; an event that is refused stays linked. -/
theorem events_refine_rings_calls :
    ∃ s', execAll (τ := ℕ) (ε := ℕ)
        ⟨⟨fun _ => none, fun _ => none⟩, fun _ => ⟨.pending, .msg 0⟩, fun _ => false⟩
        [.event (fun _ => true) (some 1) none (.kind (.msg 0)),
          .event (fun _ => true) (some 2) (some 1) (.fd ⟨true, false, false⟩ 3),
          .event (fun _ => false) (some 3) (some 1) (.fd ⟨true, false, false⟩ 3),
          .event (fun _ => true) (some 4) none (.kind (.mutex 0)),
          .event (fun _ => true) (some 5) (some 4) (.kind (.cond 0)),
          .event (fun _ => true) none none .unknown,
          .concat 2 [5], .isolate 3, .freeThis 1] =
        some ([.event (.ok 1), .event (.ok 2), .event (.error .EBADF), .event (.ok 4),
          .event (.ok 5), .event (.error .ENOMEM), .event (.ok 2), .ring (.ok (some 1)),
          .bool .ok], s') ∧
      s'.link.Rings [[2, 5, 4], [3]] := by
  have hops : AllowedAll (τ := ℕ) (ε := ℕ) []
      [.event (fun _ => true) (some 1) none (.kind (.msg 0)),
        .event (fun _ => true) (some 2) (some 1) (.fd ⟨true, false, false⟩ 3),
        .event (fun _ => false) (some 3) (some 1) (.fd ⟨true, false, false⟩ 3),
        .event (fun _ => true) (some 4) none (.kind (.mutex 0)),
        .event (fun _ => true) (some 5) (some 4) (.kind (.cond 0)),
        .event (fun _ => true) none none .unknown,
        .concat 2 [5], .isolate 3, .freeThis 1] := by
    simp only [AllowedAll, Allowed]
    decide
  obtain ⟨s', R, hexec, hR, hrings, -⟩ := events_refine_rings
    ⟨⟨fun _ => none, fun _ => none⟩, fun _ => ⟨.pending, .msg 0⟩, fun _ => false⟩
    (fun _ => rfl) _ hops
  refine ⟨s', hexec.trans (by rfl), ?_⟩
  have hR' : R = [[2, 5, 4], [3]] := hR.trans (by decide)
  rwa [hR'] at hrings

end EventOp

end Pth
