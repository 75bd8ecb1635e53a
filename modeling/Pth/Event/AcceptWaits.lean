-- SUMMARY: The rings that pth_accept_ev waits on, round after round.
import Pth.Event.Extra
import Pth.Lib.Logged

/-!
# The waits of accept

`pth_accept_ev` creates its event when `accept(2)` would block for the first time and links the
extra events to it then. It isolates the event after every wait. Here the call is run with a log of
its waits: the event that is waited for, and the links of all events at that time. -/

namespace Pth.CallM

open StateT (Triple)

variable {ε τ : Type} [DecidableEq ε]

/-- The lazy event allocation of `pth_accept_ev`. -/
def acceptEvent (w : World ε τ) (s : ℤ) (ev : ε) (extra : Option ε) :
    Option ε → CallM ε τ (Except Errno ε)
  | some e => pure (.ok e)
  | none => do
    match ← staticEvent w ev (.fd untilReadable s), extra with
    | .ok e, some x => onEvents fun s => s.concat (some e) [x]
    | r, _ => pure r

/-- The loop of `pth_accept_ev` with a log of its waits. -/
def acceptLoopWaits (w : World ε τ) (s : ℤ) (mode : FdMode) (ev : ε) (extra : Option ε) :
    ℕ → Option ε → Logged (Calls ε τ) (ε × Links ε) (Except Errno ℕ)
  | 0, _ => .failure
  | n + 1, e => do
    let rv ← .lift (sc w)
    if rv = .error .EAGAIN ∧ mode ≠ .nonblock then
      match ← .lift (acceptEvent w s ev extra e) with
      | .error e => pure (.error e)
      | .ok e => do
        .note fun c => (e, c.evs.link)
        .lift (wait w (some e))
        match extra with
        | some _ => do
          let _ ← .lift (onEvents fun s => s.isolate (some e))
          if (← .lift (status (some e))) ≠ .occurred then pure (.error .EINTR)
          else acceptLoopWaits w s mode ev extra n (some e)
        | none => acceptLoopWaits w s mode ev extra n (some e)
    else pure rv

/-- `pth_accept_ev` with a log of its waits. -/
def acceptEvWaits (w : World ε τ) (n : ℕ) (s : ℤ) (ev : ε) (extra : Option ε) :
    Logged (Calls ε τ) (ε × Links ε) (Except Errno ℕ) := do
  match ← .lift (openMode w s) with
  | none => pure (.error .EBADF)
  | some mode => acceptLoopWaits w s mode ev extra n none

/-! ## The log and the call -/

theorem erase_acceptLoopWaits (w : World ε τ) (s : ℤ) (mode : FdMode) (ev : ε) (extra : Option ε)
    (n : ℕ) (e : Option ε) :
    (acceptLoopWaits w s mode ev extra n e).erase = acceptLoop w s mode ev extra n e := by
  induction n generalizing e with
  | zero => rfl
  | succ n ih =>
    unfold acceptLoopWaits acceptLoop
    rw [Logged.erase_bind, Logged.erase_lift]
    refine bind_congr fun rv => ?_
    split
    · rw [Logged.erase_bind, Logged.erase_lift]
      congr 1
      funext r
      cases r with
      | error err => rfl
      | ok e =>
        simp only [Logged.erase_bind, Logged.erase_note, Logged.erase_lift, pure_bind]
        refine bind_congr fun _ => ?_
        cases extra with
        | none => exact ih (some e)
        | some x =>
          simp only [Logged.erase_bind, Logged.erase_lift]
          refine bind_congr fun _ => bind_congr fun st => ?_
          split
          · rfl
          · exact ih (some e)
    · rfl

/-- Without the log it is the call. -/
theorem erase_acceptEvWaits (w : World ε τ) (n : ℕ) (s : ℤ) (ev : ε) (extra : Option ε) :
    (acceptEvWaits w n s ev extra).erase = acceptEv w n s ev extra := by
  unfold acceptEvWaits acceptEv
  rw [Logged.erase_bind, Logged.erase_lift]
  refine bind_congr fun mode => ?_
  cases mode with
  | none => rfl
  | some mode => exact erase_acceptLoopWaits w s mode ev extra n none

/-! ## Guarded waits -/

/-- The ring that is waited on has the event of the call and all the events of `ring`. -/
def Guarded (ev : ε) (ring : List ε) (y : ε × Links ε) : Prop :=
  ∃ l, y.2.Cycle l ∧ y.1 ∈ l ∧ ev ∈ l ∧ ∀ x ∈ ring, x ∈ l

/-- The call has to wait a second time: the socket blocks, the event can be created, the first wait
    ends with it, and `accept(2)` then finds nothing either. -/
structure WaitsTwice (w : World ε τ) (s : ℤ) (ev : ε) (c : Calls ε τ) : Prop where
  isOpen : fdValid (w.isOpen c.asked) s = true
  mode : w.fdmode c.asked ≠ .error ∧ w.fdmode c.asked ≠ .nonblock
  first : w.sc (c.asked + 1) = .error .EAGAIN
  memory : c.evs.live ev = true ∨ w.malloc (c.asked + 2) = true
  valid : fdValid (w.isOpen (c.asked + 2)) s = true
  occurred : (w.wait (c.asked + 3) ev).evStatus = .occurred
  second : w.sc (c.asked + 4) = .error .EAGAIN

section

variable {w : World ε τ} {s : ℤ} {ev x : ε} {rest : List ε} {c : Calls ε τ} {L : Links ε}

omit [DecidableEq ε] in
/-- An event that is linked to itself is in no ring with another one. -/
theorem eq_of_cycle_self {l : List ε} (hself : L.Cycle [ev]) (hl : L.Cycle l) (hev : ev ∈ l) :
    ∀ x ∈ l, x = ev := by
  obtain ⟨A, B, rfl⟩ := List.append_of_mem hev
  have hnext := (Links.cycle_singleton.mp hself).1
  have hchain : ∀ m : List ε, (ev :: m).IsChain L.Edge → ∀ x ∈ m, x = ev := by
    intro m
    induction m with
    | nil => simp
    | cons y m ih =>
      intro h
      rw [List.isChain_cons_cons] at h
      obtain rfl : y = ev := Option.some.inj (h.1.1.symm.trans hnext)
      simpa using ih h.2
  have hturned : (ev :: (B ++ A ++ [ev])).IsChain L.Edge := by simpa [Links.Cycle] using hl.rotate
  intro x hx
  refine hchain _ hturned x ?_
  simp only [List.mem_append, List.mem_cons, List.not_mem_nil, or_false] at hx ⊢
  tauto

/-- The links with which the first wait begins. -/
theorem acceptEvent_links (hself : L.Cycle [ev]) (hring : L.Cycle (x :: rest))
    (hnd : (ev :: x :: rest).Nodup) :
    ∃ L₁, Events.concatLink L ev [x] = some L₁ ∧ Events.isolateLink L₁ ev = some (some x, L) ∧
      Guarded ev (x :: rest) (ev, L₁) := by
  obtain ⟨L₁, hconcat, hisolate⟩ := Events.isolateLink_concatLink hself hring hnd
  have hrings : L.Rings ([ev] :: [x :: rest]) := by
    obtain ⟨hev, hndr⟩ := List.nodup_cons.mp hnd
    exact Links.rings_cons.mpr ⟨⟨hself, by simp, by simp⟩,
      Links.rings_cons.mpr ⟨⟨hring, hndr, by simp⟩, Links.Rings.nil L, by simp⟩, by simpa using hev⟩
  have hheads : [x :: rest].map List.head? = [x].map some := rfl
  obtain ⟨L', hconcat', hcycle, -⟩ := Events.concatLink_cycle hrings hheads
  obtain rfl : L₁ = L' := Option.some.inj (hconcat.symm.trans hconcat')
  refine ⟨L₁, hconcat, hisolate, _, hcycle, by simp, by simp, fun y hy => ?_⟩
  exact List.mem_cons_of_mem _ (by simpa using hy)

/-- The event of the call can be created. -/
def Creates (w : World ε τ) (s : ℤ) (ev : ε) (c : Calls ε τ) : Prop :=
  (c.evs.live ev = true ∨ w.malloc c.asked = true) ∧ fdValid (w.isOpen c.asked) s = true

theorem staticEvent_run {spec : EventSpec τ} : (staticEvent w ev spec).run c =
    (c.evs.event (w.isOpen c.asked) (if c.evs.live ev || w.malloc c.asked then some ev else none)
      none spec).map fun r => (r.1, { asked := c.asked + 1, evs := r.2 }) := rfl

theorem acceptEvent_run : (acceptEvent w s ev (some x) none).run c =
    ((staticEvent w ev (.fd untilReadable s)).run c).bind fun r =>
      match r.1 with
      | .ok e => ((onEvents fun s : Events ε τ => s.concat (some e) [x]).run r.2)
      | .error err => some (.error err, r.2) := by
  unfold acceptEvent
  rw [StateT.run_bind]
  refine congrArg (Option.bind _) (funext fun r => ?_)
  cases r.1 <;> rfl

theorem acceptEvent_created (hc : Creates w s ev c) (hring : c.evs.link.Cycle (x :: rest))
    (hnd : (ev :: x :: rest).Nodup) :
    ∃ c', (acceptEvent w s ev (some x) none).run c = some (.ok ev, c') ∧
      c'.asked = c.asked + 1 ∧ Guarded ev (x :: rest) (ev, c'.evs.link) ∧
      ∃ L, Events.isolateLink c'.evs.link ev = some (some x, L) ∧ L.Cycle [ev] := by
  obtain ⟨hmemory, hvalid⟩ := hc
  let L := (c.evs.link.setNext ev (some ev)).setPrev ev (some ev)
  have hself : L.Cycle [ev] := (Links.cycle_self _ _).1
  have hev := (List.nodup_cons.mp hnd).1
  have hring' : L.Cycle (x :: rest) := hring.congr fun y hy => by
    have hne : y ≠ ev := ne_of_mem_of_not_mem hy hev
    simp [L, hne]
  obtain ⟨L₁, hconcat, hisolate, hguarded⟩ := acceptEvent_links hself hring' hnd
  have hlive : (c.evs.live ev || w.malloc c.asked) = true := by simpa using hmemory
  have hargs : (EventSpec.fd untilReadable s).args (w.isOpen c.asked) =
      .ok (.fd untilReadable s.toNat : EventArgs τ) := if_pos hvalid
  rw [acceptEvent_run, staticEvent_run, hlive, if_pos rfl, Events.event, hargs]
  simp only [Events.eventLink, Option.map_some, Except.map, Option.bind_some]
  refine ⟨_, congrArg (Option.map _) (congrArg (Option.map _) hconcat), rfl, hguarded, L, hisolate,
    hself⟩

theorem acceptEvent_refused (hc : ¬ Creates w s ev c) :
    ∃ err c', (acceptEvent w s ev (some x) none).run c = some (.error err, c') := by
  rw [acceptEvent_run, staticEvent_run]
  split
  case isTrue hlive =>
    have hvalid : ¬ fdValid (w.isOpen c.asked) s = true :=
      fun hvalid => hc ⟨by simpa using hlive, hvalid⟩
    have hargs : (EventSpec.fd untilReadable s : EventSpec τ).args (w.isOpen c.asked) =
      .error .EBADF := if_neg hvalid
    rw [Events.event, hargs]
    exact ⟨_, _, rfl⟩
  case isFalse => exact ⟨_, _, rfl⟩

omit [DecidableEq ε] in
theorem openMode_run : (openMode w s).run c =
    some (if fdValid (w.isOpen c.asked) s = true ∧ w.fdmode c.asked ≠ .error then
      some (w.fdmode c.asked) else none, { c with asked := c.asked + 1 }) := by
  unfold openMode
  rw [StateT.run_bind]
  change ((if (!fdValid (w.isOpen c.asked) s) = true then pure none else
    if w.fdmode c.asked = .error then pure none else pure (some (w.fdmode c.asked)) :
      CallM ε τ (Option FdMode)).run { c with asked := c.asked + 1 }) = _
  cases hvalid : fdValid (w.isOpen c.asked) s with
  | false => rfl
  | true =>
    by_cases hmode : w.fdmode c.asked = .error
    · simp [hmode]
    · simp [hmode]

/-- A round in which there is nothing to wait for. -/
theorem acceptLoopWaits_done {n : ℕ} {mode : FdMode} {e : Option ε}
    (h : ¬ (w.sc c.asked = .error .EAGAIN ∧ mode ≠ .nonblock)) :
    (acceptLoopWaits w s mode ev (some x) n e c).1 = [] := by
  cases n with
  | zero => rfl
  | succ n =>
    unfold acceptLoopWaits
    have hsc : (sc w).run c = some (w.sc c.asked, { c with asked := c.asked + 1 }) := rfl
    rw [Logged.lift_bind_run hsc, if_neg h]
    rfl

/-- The second round: the event is waited for with the links as they are. -/
theorem acceptLoopWaits_again {n : ℕ} {mode : FdMode}
    (h : w.sc c.asked = .error .EAGAIN ∧ mode ≠ .nonblock) :
    (ev, c.evs.link) ∈ (acceptLoopWaits w s mode ev (some x) (n + 1) (some ev) c).1 := by
  unfold acceptLoopWaits
  have hsc : (sc w).run c = some (w.sc c.asked, { c with asked := c.asked + 1 }) := rfl
  rw [Logged.lift_bind_run hsc, if_pos h]
  have hev : (acceptEvent w s ev (some x) (some ev)).run { c with asked := c.asked + 1 } =
    some (.ok ev, { c with asked := c.asked + 1 }) := rfl
  rw [Logged.lift_bind_run hev]
  dsimp only
  rw [Logged.note_bind_run]
  exact List.mem_cons_self

/-- The first round. -/
theorem acceptLoopWaits_first {n : ℕ} {mode : FdMode} (hring : c.evs.link.Cycle (x :: rest))
    (hnd : (ev :: x :: rest).Nodup) (h : w.sc c.asked = .error .EAGAIN ∧ mode ≠ .nonblock)
    (hc : Creates w s ev { c with asked := c.asked + 1 }) :
    ∃ y c', Guarded ev (x :: rest) y ∧ c'.asked = c.asked + 3 ∧ c'.evs.link.Cycle [ev] ∧
      (acceptLoopWaits w s mode ev (some x) (n + 1) none c).1 =
        y :: if (w.wait (c.asked + 2) ev).evStatus ≠ .occurred then []
          else (acceptLoopWaits w s mode ev (some x) n (some ev) c').1 := by
  obtain ⟨c₁, hcreated, hasked, hguarded, L, hisolate, hself⟩ := acceptEvent_created hc hring hnd
  have hsc : (sc w).run c = some (w.sc c.asked, { c with asked := c.asked + 1 }) := rfl
  have hwait : (wait w (some ev)).run c₁ =
    some ((), ⟨c₁.asked + 1, { c₁.evs with body := w.wait c₁.asked }⟩) := rfl
  have hiso : (onEvents fun s : Events ε τ => s.isolate (some ev)).run
      ⟨c₁.asked + 1, { c₁.evs with body := w.wait c₁.asked }⟩ =
    some (.ok (some x), ⟨c₁.asked + 1, { c₁.evs with body := w.wait c₁.asked, link := L }⟩) :=
    congrArg (Option.map _) (congrArg (Option.map _) hisolate)
  refine ⟨(ev, c₁.evs.link), ⟨c₁.asked + 1, { c₁.evs with body := w.wait c₁.asked, link := L }⟩,
    hguarded, by simp [hasked], hself, ?_⟩
  conv_lhs => unfold acceptLoopWaits
  rw [Logged.lift_bind_run hsc, if_pos h, Logged.lift_bind_run hcreated]
  dsimp only
  rw [Logged.note_bind_run, Logged.lift_bind_run hwait]
  dsimp only
  rw [Logged.lift_bind_run hiso]
  have hstatus : (status (some ev)).run
      ⟨c₁.asked + 1, { c₁.evs with body := w.wait c₁.asked, link := L }⟩ =
    some ((w.wait c₁.asked ev).evStatus,
      ⟨c₁.asked + 1, { c₁.evs with body := w.wait c₁.asked, link := L }⟩) := rfl
  rw [Logged.lift_bind_run hstatus, show c₁.asked = c.asked + 2 from hasked]
  split <;> rfl

/-- A round without an event. -/
theorem acceptLoopWaits_refused {n : ℕ} {mode : FdMode}
    (hc : ¬ Creates w s ev { c with asked := c.asked + 1 }) :
    (acceptLoopWaits w s mode ev (some x) n none c).1 = [] := by
  by_cases h : w.sc c.asked = .error .EAGAIN ∧ mode ≠ .nonblock
  · cases n with
    | zero => rfl
    | succ n =>
      obtain ⟨err, c', hrun⟩ := acceptEvent_refused (x := x) hc
      have hsc : (sc w).run c = some (w.sc c.asked, { c with asked := c.asked + 1 }) := rfl
      unfold acceptLoopWaits
      rw [Logged.lift_bind_run hsc, if_pos h, Logged.lift_bind_run hrun]
      rfl
  · exact acceptLoopWaits_done h

/-- The loop of a call that waits at all: a second wait is for the event of the call alone. -/
theorem acceptLoopWaits_guarded_iff {mode : FdMode} (hring : c.evs.link.Cycle (x :: rest))
    (hnd : (ev :: x :: rest).Nodup) (h : w.sc c.asked = .error .EAGAIN ∧ mode ≠ .nonblock)
    (hc : Creates w s ev { c with asked := c.asked + 1 }) :
    (∀ n, ∀ y ∈ (acceptLoopWaits w s mode ev (some x) n none c).1, Guarded ev (x :: rest) y) ↔
      ¬ ((w.wait (c.asked + 2) ev).evStatus = .occurred ∧
        w.sc (c.asked + 3) = .error .EAGAIN) := by
  constructor
  · rintro hall ⟨hoccurred, hsecond⟩
    obtain ⟨y, c', -, hasked, hself, hlog⟩ := acceptLoopWaits_first (n := 1) hring hnd h hc
    rw [if_neg (not_not.mpr hoccurred)] at hlog
    have hmem : (ev, c'.evs.link) ∈ (acceptLoopWaits w s mode ev (some x) 1 (some ev) c').1 :=
      acceptLoopWaits_again ⟨by rw [hasked, hsecond], h.2⟩
    obtain ⟨l, hl, -, hev, hx⟩ := hall 2 _ (hlog ▸ List.mem_cons_of_mem _ hmem)
    -- the event of the call is alone in its ring
    have heq := eq_of_cycle_self hself hl hev x (hx x (by simp))
    exact (List.nodup_cons.mp hnd).1 (by simp [heq])
  · intro honce n y hy
    cases n with
    | zero => cases hy
    | succ n =>
      obtain ⟨y₁, c', hguarded, hasked, -, hlog⟩ := acceptLoopWaits_first (n := n) hring hnd h hc
      rw [hlog] at hy
      rcases List.mem_cons.mp hy with rfl | hy
      · exact hguarded
      · split at hy
        case isTrue => cases hy
        case isFalse hoccurred =>
          have hdone : ¬ (w.sc c'.asked = .error .EAGAIN ∧ mode ≠ .nonblock) := by
            rw [hasked]
            exact fun hsc => honce ⟨not_not.mp hoccurred, hsc.1⟩
          rw [acceptLoopWaits_done hdone] at hy
          cases hy

end

/-- Every wait is guarded by the extra events if there is no second one: the extra events are linked
    to the event of the call once, and parted from it after the first wait. -/
theorem accept_guarded_iff (w : World ε τ) (s : ℤ) (ev x : ε) (rest : List ε) (c : Calls ε τ)
    (hnd : (ev :: x :: rest).Nodup) (hring : c.evs.link.Cycle (x :: rest)) :
    (∀ n, ∀ y ∈ (acceptEvWaits w n s ev (some x) c).1, Guarded ev (x :: rest) y) ↔
      ¬ WaitsTwice w s ev c := by
  by_cases hopen : fdValid (w.isOpen c.asked) s = true ∧ w.fdmode c.asked ≠ .error
  case neg =>
    refine iff_of_true (fun n y hy => ?_) fun h => hopen ⟨h.isOpen, h.mode.1⟩
    rw [acceptEvWaits, Logged.lift_bind_run openMode_run, if_neg hopen] at hy
    cases hy
  case pos =>
    have hlog : ∀ n, (acceptEvWaits w n s ev (some x) c).1 =
        (acceptLoopWaits w s (w.fdmode c.asked) ev (some x) n none
          { c with asked := c.asked + 1 }).1 := by
      intro n
      rw [acceptEvWaits, Logged.lift_bind_run openMode_run, if_pos hopen]
    simp only [hlog]
    by_cases hfirst : w.sc (c.asked + 1) = .error .EAGAIN ∧ w.fdmode c.asked ≠ .nonblock
    case neg =>
      refine iff_of_true (fun n y hy => ?_) fun h => hfirst ⟨h.first, h.mode.2⟩
      rw [acceptLoopWaits_done hfirst] at hy
      cases hy
    case pos =>
      by_cases hc : Creates w s ev { c with asked := c.asked + 2 }
      case neg =>
        refine iff_of_true (fun n y hy => ?_) fun h => hc ⟨h.memory, h.valid⟩
        rw [acceptLoopWaits_refused hc] at hy
        cases hy
      case pos =>
        refine (acceptLoopWaits_guarded_iff (c := { c with asked := c.asked + 1 }) hring hnd hfirst
          hc).trans ?_
        exact not_congr ⟨fun h => ⟨hopen.1, ⟨hopen.2, hfirst.2⟩, hfirst.1, hc.1, hc.2, h.1, h.2⟩,
          fun h => ⟨h.occurred, h.second⟩⟩

section

/-- A socket where `accept(2)` would block for `n` times, although each wait ends with the event of
    the call. -/
private def stolen (n : ℕ) : World ℕ Unit :=
  { calm with sc := fun k => if k < n then .error .EAGAIN else .ok 7 }

/-- A connection that comes with the first wait-up: there is one wait, and it is guarded. -/
theorem accept_guarded_iff_once :
    ((acceptEvWaits (stolen 2) 3 0 0 (some 2) atCall).1.map Prod.fst) = [0] ∧
    ∀ n, ∀ y ∈ (acceptEvWaits (stolen 2) n 0 0 (some 2) atCall).1, Guarded 0 [2, 3] y := by
  refine ⟨by decide +kernel, (accept_guarded_iff (stolen 2) 0 0 2 [3] atCall (by decide)
    atCall_intact.cycle).mpr fun htwice => ?_⟩
  exact absurd htwice.second (by simp [stolen, atCall])

/-- A connection that another thread has accepted: the second wait is for the event of the call
    alone. -/
theorem accept_unguarded : WaitsTwice (stolen 5) 0 0 atCall ∧
    ((acceptEvWaits (stolen 5) 3 0 0 (some 2) atCall).1.map fun y => (y.1, y.2.next y.1)) =
      [(0, some 2), (0, some 0)] ∧
    ¬ ∀ n, ∀ y ∈ (acceptEvWaits (stolen 5) n 0 0 (some 2) atCall).1, Guarded 0 [2, 3] y := by
  refine ⟨⟨rfl, by decide, rfl, .inr rfl, rfl, rfl, rfl⟩, by decide +kernel, fun hall => ?_⟩
  have hsecond : ∃ L : Links ℕ, (0, L) ∈ (acceptEvWaits (stolen 5) 3 0 0 (some 2) atCall).1 ∧
      L.next 0 = some 0 ∧ L.prev 0 = some 0 :=
    ⟨_, List.mem_cons_of_mem _ List.mem_cons_self, rfl, rfl⟩
  obtain ⟨L, hmem, hself⟩ := hsecond
  obtain ⟨l, hl, -, hev, hring⟩ := hall 3 _ hmem
  have heq := eq_of_cycle_self (Links.cycle_singleton.mpr hself) hl hev 2 (hring 2 (by simp))
  cases heq

end

end Pth.CallM
