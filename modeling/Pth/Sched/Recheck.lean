-- SUMMARY: When the merged select(2) has failed: which events the checks one by one make fail.
import Pth.Sched.Select

/-!
# Bad descriptors

One bad descriptor makes the merged `select(2)` fail. The second loop then checks each
descriptor event with a `select(2)` of its own. For one descriptor it uses the shared
sets, which are empty before and after each check. For sets it uses copies of the sets
of the event, but passes `nfd + 1`, so that the descriptor `nfd` is looked at as well. -/

namespace Pth

open PrioList (keys)

/-- What `select(2)` returns to a request when some descriptors are `bad` and some `ready`: an
    error for a negative number of descriptors and for a bad one that it looks at. -/
structure SelectRes.Judges (bad : ℕ → Bool) (ready : FdSets) (req : SelectReq)
    (res : SelectRes) : Prop where
  error : res.rc < 0 ↔ req.nfds < 0 ∨
    ∃ k, ∃ d : ℕ, (d : ℤ) < req.nfds ∧ req.sets.bit k d = true ∧ bad d = true
  reports : 0 ≤ res.rc → res.Reports ready req

/-- Every call of `select(2)` in a pass returns this. -/
def Env.Judges {τ : Type*} (env : Env τ) (bad : ℕ → Bool) (ready : FdSets) : Prop :=
  ∀ call req, (env.select call req).Judges bad ready req

namespace EventArgs

variable {τ : Type*} (bad : ℕ → Bool)

/-- One of the descriptors that the event itself asks for is bad. -/
def AsksBad : EventArgs τ → Prop
  | .fd _ n => bad n = true
  | .select _ nfd rfds wfds efds => ∃ k, ∃ d : ℕ, (d : ℤ) < nfd ∧
      (FdSets.ofSelect rfds wfds efds).bit k d = true ∧ bad d = true
  | _ => False

/-- The check of the event looks at no other bad descriptor: a bad descriptor is waited for in
    some mode, and the sets have no bad one at `nfd`, unless there is one below. -/
def OnlyAsked : EventArgs τ → Prop
  | .fd goal n => bad n = true → ∃ k, goal.asks k = true
  | .select n nfd rfds wfds efds => -1 ≤ nfd ∧ ∀ k, ∀ d : ℕ, (d : ℤ) = nfd →
      (FdSets.ofSelect rfds wfds efds).bit k d = true → bad d = true →
      AsksBad bad (.select n nfd rfds wfds efds : EventArgs τ)
  | _ => True

end EventArgs

namespace Sched

variable {τ : Type*} {s : Sched τ} {env : Env τ} {t : τ} {i : ℕ} {l : Late} {sc : Scan τ}
  {bad : ℕ → Bool} {ready : FdSets}

/-! ## The checks one by one -/

/-- The merged call has failed, and the shared sets are empty. -/
structure Failing (l : Late) : Prop where
  rc : l.rc < 0
  sets : ∀ k d, l.sets.bit k d = false

theorem adjust_failing {dopoll : Bool} {res : SelectRes} (h : res.rc < 0) :
    Failing (s.adjust dopoll res) := by
  have hnot : ¬ res.rc > 0 := by omega
  have hle : res.rc ≤ 0 := by omega
  simp only [adjust, hnot, decide_false, Bool.and_false, Bool.false_and, Bool.false_eq_true,
    if_false, if_pos hle]
  exact ⟨h, by simp⟩

/-- With empty sets a check asks for nothing but the descriptor of the event. -/
theorem Failing.add_bit (h : Failing l) {goal : FdGoal} {fd : ℕ} {k : FdKind} {d : ℕ} :
    (l.sets.add goal fd).bit k d = true ↔ goal.asks k = true ∧ d = fd := by
  simp [h.sets]

theorem Failing.test (h : Failing l) (goal : FdGoal) (fd : ℕ) : l.sets.test goal fd = false := by
  rw [← Bool.not_eq_true, FdSets.test_iff]
  rintro ⟨k, -, hbit⟩
  simp [h.sets] at hbit

theorem Failing.fdsTest (h : Failing l) (nfd : ℤ) (x : FdSets) :
    Pth.fdsTest nfd x l.sets = false := by
  rw [← Bool.not_eq_true, fdsTest_iff]
  rintro ⟨k, d, -, -, hbit⟩
  simp [h.sets] at hbit

/-- What a check of one descriptor leaves outside of this descriptor. -/
theorem Failing.recheck_bit (h : Failing l) {goal : FdGoal} {fd : ℕ} {req : SelectReq}
    {res : SelectRes} (hreq : req.sets = l.sets.add goal fd) (hres : res.Reports ready req)
    {k : FdKind} {d : ℕ} (hd : res.sets.bit k d = true) : d = fd := by
  have hasked : req.sets.bit k d = true := by
    by_cases hlt : (d : ℤ) < req.nfds
    · rw [hres.sets k d hlt, Bool.and_eq_true] at hd
      exact hd.1
    · exact hres.above k d (by omega) hd
  rw [hreq, h.add_bit] at hasked
  exact hasked.2

/-- A check leaves the shared sets empty again, so it tells nothing to the next one. -/
theorem steady_failing (henv : env.Judges bad ready) : Steady env Failing := by
  intro t i l args hl
  refine ⟨(lateArgs_rc args).symm ▸ hl.rc, ?_⟩
  cases args with
  | fd goal fd =>
    simp only [lateArgs, hl.test, Bool.false_eq_true, if_false, if_pos hl.rc]
    generalize hreq : SelectReq.mk (fd + 1) (l.sets.add goal fd) (some .zero) (fun _ => false) = req
    have hjudge := henv (.recheck t i) req
    generalize env.select (.recheck t i) req = res at hjudge ⊢
    have honly : 0 ≤ res.rc → ∀ {k d}, res.sets.bit k d = true → d = fd := fun hrc _ _ hd =>
      hl.recheck_bit (by rw [← hreq]) (hjudge.reports hrc) hd
    intro k d
    rw [← Bool.not_eq_true]
    intro hbit
    split at hbit
    · next hpos =>
      by_cases hd : d = fd
      · subst hd
        cases k <;> simp [FdSets.bit, FdSets.clear] at hbit
      · refine hd (honly (by omega) (k := k) ?_)
        cases k <;> simpa [FdSets.bit, FdSets.clear, hd] using hbit
    · next hnpos =>
      split at hbit
      · simp at hbit
      · next hneg =>
        have hd := honly (by omega) hbit
        have hlt : (d : ℤ) < req.nfds := by
          rw [← hreq]
          dsimp only
          omega
        have hcount : 0 < res.sets.count req.nfds := FdSets.count_pos hlt hbit
        have hrc := (hjudge.reports (by omega)).rc
        omega
  | select n nfd rfds wfds efds =>
    simp only [lateArgs, hl.fdsTest, Bool.false_eq_true, if_false, if_pos hl.rc]
    exact hl.sets
  | sigs sigs sig =>
    simp only [lateArgs]
    split <;> exact hl.sets
  | _ => exact hl.sets

/-- The check of one descriptor fails if it is bad and waited for in some mode. -/
theorem Failing.fd_failed (hl : Failing l) (henv : env.Judges bad ready) (goal : FdGoal) (fd : ℕ) :
    (lateArgs env t i l (.fd goal fd)).2.1 = .failed ↔
      bad fd = true ∧ ∃ k, goal.asks k = true := by
  have herror := (henv (.recheck t i)
    ⟨fd + 1, l.sets.add goal fd, some .zero, fun _ => false⟩).error
  have hlooked : ((fd : ℤ) + 1 < 0 ∨ ∃ k, ∃ d : ℕ, (d : ℤ) < fd + 1 ∧
      (l.sets.add goal fd).bit k d = true ∧ bad d = true) ↔
      bad fd = true ∧ ∃ k, goal.asks k = true := by
    constructor
    · rintro (hneg | ⟨k, d, -, hbit, hbad⟩)
      · omega
      · obtain ⟨hk, rfl⟩ := hl.add_bit.mp hbit
        exact ⟨hbad, k, hk⟩
    · rintro ⟨hbad, k, hk⟩
      exact .inr ⟨k, fd, by omega, hl.add_bit.mpr ⟨hk, rfl⟩, hbad⟩
  rw [← hlooked, ← herror]
  simp only [lateArgs, hl.test, Bool.false_eq_true, if_false, if_pos hl.rc]
  split
  · next hpos => simp only [reduceCtorEq, false_iff]; omega
  · split <;> simp_all

/-- The check of sets fails if `nfd + 1` is negative or one of the descriptors up to `nfd` is
    bad. -/
theorem Failing.select_failed (hl : Failing l) (henv : env.Judges bad ready) (n : Option ℤ)
    (nfd : ℤ) (rfds wfds efds : Option FdSet) :
    (lateArgs env t i l (.select n nfd rfds wfds efds)).2.1 = .failed ↔
      nfd < -1 ∨ ∃ k, ∃ d : ℕ, (d : ℤ) ≤ nfd ∧
        (FdSets.ofSelect rfds wfds efds).bit k d = true ∧ bad d = true := by
  have herror := (henv (.recheck t i)
    ⟨nfd + 1, .ofSelect rfds wfds efds, some .zero, fun _ => false⟩).error
  simp only [Int.lt_add_one_iff, show nfd + 1 < 0 ↔ nfd < -1 by omega] at herror
  rw [← herror]
  simp only [lateArgs, hl.fdsTest, Bool.false_eq_true, if_false, if_pos hl.rc]
  split <;> simp_all

theorem Failing.lateArgs_args (hl : Failing l) {args : EventArgs τ} (hio : args.isIo = true) :
    (lateArgs env t i l args).2.2 = args := by
  cases args with
  | fd goal fd =>
    simp only [lateArgs, hl.test, Bool.false_eq_true, if_false, if_pos hl.rc]
    repeat' split
    all_goals rfl
  | select n nfd rfds wfds efds =>
    simp only [lateArgs, hl.fdsTest, Bool.false_eq_true, if_false, if_pos hl.rc]
  | _ => simp [EventArgs.isIo] at hio

/-- A check fails an event for its own bad descriptors exactly if it looks at no others. -/
theorem Failing.failed_iff (hl : Failing l) (henv : env.Judges bad ready) {args : EventArgs τ}
    (hio : args.isIo = true) :
    ((lateArgs env t i l args).2.1 = .failed ↔ args.AsksBad bad) ↔ args.OnlyAsked bad := by
  cases args with
  | fd goal fd =>
    rw [hl.fd_failed henv]
    exact ⟨fun h hbad => (h.mpr hbad).2, fun h => ⟨And.left, fun hbad => ⟨hbad, h hbad⟩⟩⟩
  | select n nfd rfds wfds efds =>
    rw [hl.select_failed henv]
    constructor
    · intro h
      refine ⟨?_, fun k d hd hbit hbad => h.mp (.inr ⟨k, d, hd.le, hbit, hbad⟩)⟩
      -- with a negative number of descriptors none has been asked for
      by_contra hneg
      obtain ⟨k, d, hd, -⟩ := h.mp (.inl (by omega))
      omega
    · rintro ⟨hnfd, hlast⟩
      constructor
      · rintro (hneg | ⟨k, d, hd, hbit, hbad⟩)
        · omega
        · rcases hd.lt_or_eq with hlt | heq
          · exact ⟨k, d, hlt, hbit, hbad⟩
          · exact hlast k d heq hbit hbad
      · rintro ⟨k, d, hd, hbit, hbad⟩
        exact .inr ⟨k, d, hd.le, hbit, hbad⟩
  | _ => simp [EventArgs.isIo] at hio

/-! ## A pass in which the merged call fails -/

variable [DecidableEq τ] {a : QId → List (τ × ℤ)}

/-- The merged call of a pass fails. -/
def Fails (s : Sched τ) (env : Env τ) (dopoll : Bool) : Prop :=
  ∀ s₁ sc, scan env s = some (s₁, sc) →
    (env.select .merged (s₁.mergedReq sc (dopoll || sc.anyOccurred))).rc < 0

/-- From `s` to `s'` the pending descriptor events of the threads `ts` that ask for a bad
    descriptor have failed, and no others, whose arguments are unchanged. -/
def OwnersFail (bad : ℕ → Bool) (ts : List τ) (s s' : Sched τ) : Prop :=
  ∀ t ∈ ts, ∀ (i : ℕ) ev, (s.tcb t).events[i]? = some ev → ev.evStatus = .pending →
    ev.evArgs.isIo = true → ∃ ev', (s'.tcb t).events[i]? = some ev' ∧
      (ev'.evStatus = .failed ↔ ev.evArgs.AsksBad bad) ∧
      (ev'.evStatus ≠ .failed → ev'.evArgs = ev.evArgs)

/-- What becomes of the pending descriptor events if the merged call fails. -/
theorem eventmanager_rechecks (h : s.queues.Repr a) (hscan : scan env s ≠ none) (dopoll : Bool)
    (henv : env.Judges bad ready) (hfails : s.Fails env dopoll) :
    (s.eventmanager env dopoll).Ensures fun (_, s') => ∀ t ∈ keys (a .WQ), ∀ (i : ℕ) ev,
      (s.tcb t).events[i]? = some ev → ev.evStatus = .pending → ev.evArgs.isIo = true →
      ∃ status, (s'.tcb t).events[i]? = some ⟨status, ev.evArgs⟩ ∧
        ((status = .failed ↔ ev.evArgs.AsksBad bad) ↔ ev.evArgs.OnlyAsked bad) := by
  obtain ⟨⟨s₁, sc⟩, hscan⟩ := Option.ne_none_iff_exists'.mp hscan
  apply (eventmanager_late_event h hscan dopoll (steady_failing henv)
    (adjust_failing (hfails s₁ sc hscan))).mono
  rintro ⟨b, s'⟩ hlate t ht i ev hev hp hio
  obtain ⟨l, hl, hafter⟩ := hlate t ht i ev hev hp hio
  rw [hl.lateArgs_args hio] at hafter
  exact ⟨_, hafter, hl.failed_iff henv hio⟩

/-- If the merged `select(2)` fails, the events that fail are those with a bad descriptor exactly if
    no check looks at a bad descriptor that its event has not asked for. -/
theorem owners_fail_iff (h : s.queues.Repr a) (hscan : scan env s ≠ none) (dopoll : Bool)
    (henv : env.Judges bad ready) (hfails : s.Fails env dopoll) :
    (s.eventmanager env dopoll).Ensures fun (_, s') =>
      (OwnersFail bad (keys (a .WQ)) s s' ↔ ∀ t ∈ keys (a .WQ), ∀ ev ∈ (s.tcb t).events,
        ev.evStatus = .pending → ev.evArgs.isIo = true → ev.evArgs.OnlyAsked bad) := by
  apply (eventmanager_rechecks h hscan dopoll henv hfails).mono
  rintro ⟨b, s'⟩ hafter
  constructor
  · intro howners t ht ev hmem hp hio
    obtain ⟨i, hev⟩ := List.mem_iff_getElem?.mp hmem
    obtain ⟨status, hstatus, hiff⟩ := hafter t ht i ev hev hp hio
    obtain ⟨ev', hev', hfailed, -⟩ := howners t ht i ev hev hp hio
    obtain rfl : ⟨status, ev.evArgs⟩ = ev' := Option.some.inj (hstatus.symm.trans hev')
    exact hiff.mp hfailed
  · intro honly t ht i ev hev hp hio
    obtain ⟨status, hstatus, hiff⟩ := hafter t ht i ev hev hp hio
    exact ⟨_, hstatus, hiff.mpr (honly t ht ev (List.mem_of_getElem? hev) hp hio), fun _ => rfl⟩

/-- An environment in which the descriptors of `ready` are ready and those of `bad` are bad. -/
def judging (bad : ℕ → Bool) (ready : FdSets) : Env τ :=
  { quiet with select := fun call req =>
      if req.nfds < 0 ∨ fdsTest req.nfds req.sets ⟨bad, bad, bad⟩ = true then
        { rc := -1, sets := req.sets, raised := fun _ => false }
      else (answering ready : Env τ).select call req }

omit [DecidableEq τ] in
theorem judging_judges (bad : ℕ → Bool) (ready : FdSets) :
    (judging bad ready : Env τ).Judges bad ready := by
  intro call req
  have hbad : ∀ k, FdSets.bit ⟨bad, bad, bad⟩ k = bad := fun k => by cases k <;> rfl
  have htest : fdsTest req.nfds req.sets ⟨bad, bad, bad⟩ = true ↔ ∃ k, ∃ d : ℕ,
      (d : ℤ) < req.nfds ∧ req.sets.bit k d = true ∧ bad d = true := by
    simp only [fdsTest_iff, hbad]
  simp only [judging]
  split
  · next herror =>
    rw [htest] at herror
    have hneg : (-1 : ℤ) < 0 := by decide
    exact ⟨⟨fun _ => herror, fun _ => hneg⟩, fun hpos => absurd hpos hneg.not_ge⟩
  · next herror =>
    rw [htest] at herror
    have hrep := answering_reports ready call req
    have hpos := FdSets.count_nonneg ((answering ready : Env τ).select call req).sets req.nfds
    rw [← hrep.rc] at hpos
    exact ⟨⟨fun hneg => absurd hpos (by omega), fun h => absurd h herror⟩, fun _ => hrep⟩

/-- The thread 1 waits for the descriptor 3 and for a set with the descriptors 1 and 3. -/
def badWaiter (nfd : ℤ) : Sched ℕ :=
  mutexWaiter.modify 1 fun tcb => { tcb with
    events := [⟨.pending, .fd ⟨true, false, false⟩ 3⟩,
      ⟨.pending, .select none nfd (some fun d => d == 1 || d == 3) none none⟩] }

/-- The descriptor 3 is bad, and nothing is ready. -/
def badThree : Env ℕ := judging (fun d => d == 3) .zero

theorem badWaiter_scan (nfd : ℤ) (h : (scan badThree (badWaiter nfd)).any
    (fun x => decide ((badThree.select .merged (x.1.mergedReq x.2 x.2.anyOccurred)).rc < 0)) = true) :
    scan badThree (badWaiter nfd) ≠ none ∧ (badWaiter nfd).Fails badThree false := by
  constructor
  · intro hnone
    simp [hnone] at h
  · intro s₁ sc hs
    simpa [hs] using h

/-- If the event asks for the descriptor 3, both events fail. -/
theorem owners_fail_iff_both :
    ((badWaiter 4).eventmanager badThree false).Ensures fun (_, s') =>
      OwnersFail (fun d => d == 3) [1] (badWaiter 4) s' := by
  obtain ⟨hscan, hfails⟩ := badWaiter_scan 4 (by decide)
  apply (owners_fail_iff (s := badWaiter 4) mutexWaiter_repr hscan false (judging_judges _ _)
    hfails).mono
  rintro ⟨b, s'⟩ hiff
  refine hiff.mpr fun t ht ev hev hp hio => ?_
  obtain rfl : t = 1 := by simpa using ht
  simp only [badWaiter, modify_tcb, if_true, List.mem_cons, List.not_mem_nil, or_false] at hev
  rcases hev with rfl | rfl
  · exact fun _ => ⟨.read, rfl⟩
  · exact ⟨by decide, fun k d _ _ _ => ⟨.read, 3, by decide, rfl, rfl⟩⟩

/-- If the event asks for the descriptors below 3, it fails for a descriptor of the other. -/
theorem owners_fail_iff_beyond :
    (badWaiter 3).queues.Repr (Function.update (fun _ => []) .WQ [(1, 0)]) ∧
    scan badThree (badWaiter 3) ≠ none ∧ badThree.Judges (fun d => d == 3) .zero ∧
    (badWaiter 3).Fails badThree false ∧
    ((badWaiter 3).eventmanager badThree false).Ensures fun (_, s') =>
      ¬ OwnersFail (fun d => d == 3) [1] (badWaiter 3) s' := by
  obtain ⟨hscan, hfails⟩ := badWaiter_scan 3 (by decide)
  refine ⟨mutexWaiter_repr, hscan, judging_judges _ _, hfails, ?_⟩
  apply (eventmanager_rechecks (s := badWaiter 3) mutexWaiter_repr hscan false (judging_judges _ _)
    hfails).mono
  rintro ⟨b, s'⟩ hafter howners
  obtain ⟨status, hstatus, hiff⟩ := hafter 1 (by simp) 1 _ rfl rfl rfl
  obtain ⟨ev', hev', hfailed, -⟩ := howners 1 (by simp) 1 _ rfl rfl rfl
  obtain rfl := Option.some.inj (hstatus.symm.trans hev')
  -- the check looks at 3, which the event has not asked for
  obtain ⟨k, d, hd, -, hbad⟩ := (hiff.mp hfailed).2 .read 3 rfl rfl rfl
  obtain rfl : d = 3 := by simpa using hbad
  omega

end Sched

end Pth
