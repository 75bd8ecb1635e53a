-- SUMMARY: The merged select(2) of an event manager pass gives every descriptor event what a private select(2) would.
import Pth.Sched.Progress

/-!
# Descriptor events in a pass

All pending descriptor events are merged into one request, to which the signal pipe
is added. What `select(2)` leaves of the request is handed back to the events one by
one. Here a descriptor event is followed through a pass: the first loop puts its
descriptors into the request, and the second loop looks at the answer. -/

namespace Pth

open PrioList (keys)

/-! ## Counting descriptors -/

/-- How many bits below `nfd` are set in the three sets. -/
def FdSets.count (x : FdSets) (nfd : ℤ) : ℤ :=
  ((List.range nfd.toNat).countP x.r + (List.range nfd.toNat).countP x.w +
    (List.range nfd.toNat).countP x.e : ℕ)

namespace FdSets

variable {x : FdSets} {nfd : ℤ} {k : FdKind} {d : ℕ}

theorem count_nonneg (x : FdSets) (nfd : ℤ) : 0 ≤ x.count nfd := Int.natCast_nonneg _

theorem count_pos (hd : (d : ℤ) < nfd) (hbit : x.bit k d = true) : 0 < x.count nfd := by
  have hmem : d ∈ List.range nfd.toNat := List.mem_range.mpr (by omega)
  have hk : 0 < (List.range nfd.toNat).countP (x.bit k) := List.countP_pos_iff.mpr ⟨d, hmem, hbit⟩
  unfold count
  cases k <;> simp only [bit] at hk <;> omega

theorem count_congr {y : FdSets} (h : ∀ k (d : ℕ), (d : ℤ) < nfd → x.bit k d = y.bit k d) :
    x.count nfd = y.count nfd := by
  have hk : ∀ k, (List.range nfd.toNat).countP (x.bit k) =
      (List.range nfd.toNat).countP (y.bit k) := fun k => List.countP_congr fun d hd => by
    have hlt := List.mem_range.mp hd
    rw [h k d (by omega)]
  have hr := hk .read
  have hw := hk .write
  have he := hk .except
  simp only [bit] at hr hw he
  rw [count, count, hr, hw, he]

/-- Without one descriptor there is one less. -/
theorem countP_update {f : FdSet} {n : ℕ} (hd : d < n) (hbit : f d = true) :
    (List.range n).countP f = (List.range n).countP (Function.update f d false) + 1 := by
  induction n with
  | zero => omega
  | succ n ih =>
    rw [List.range_succ, List.countP_append, List.countP_append]
    by_cases hn : d = n
    · subst hn
      have hrest : (List.range d).countP f = (List.range d).countP (Function.update f d false) := by
        refine List.countP_congr fun m hm => ?_
        rw [Function.update_of_ne (Nat.ne_of_lt (List.mem_range.mp hm))]
      simp [hbit, hrest]
    · have hlast : Function.update f d false n = f n := Function.update_of_ne (Ne.symm hn) ..
      rw [ih (by omega), List.countP_singleton, List.countP_singleton, hlast]
      omega

theorem count_update (hd : (d : ℤ) < nfd) (hbit : x.r d = true) :
    { x with r := Function.update x.r d false }.count nfd = x.count nfd - 1 := by
  have hr := countP_update (n := nfd.toNat) (by omega) hbit
  simp only [count]
  omega

end FdSets

/-- What `pth_util_fds_select` returns is a number of descriptors. -/
theorem fdsCount_eq (nfd : ℤ) (x y : FdSets) : fdsCount nfd x y =
    FdSets.count ⟨fun d => x.r d && y.r d, fun d => x.w d && y.w d, fun d => x.e d && y.e d⟩
      nfd := by
  unfold fdsCount FdSets.count
  induction List.range nfd.toNat with
  | nil => rfl
  | cons d l ih =>
    rw [List.map_cons, List.sum_cons, ih]
    simp only [List.countP_cons]
    cases x.r d && y.r d <;> cases x.w d && y.w d <;> cases x.e d && y.e d <;> simp <;> omega

theorem FdSets.test_iff {x : FdSets} {goal : FdGoal} {d : ℕ} :
    x.test goal d = true ↔ ∃ k, goal.asks k = true ∧ x.bit k d = true := by
  constructor
  · intro h
    simp only [test, Bool.or_eq_true, Bool.and_eq_true] at h
    rcases h with (h | h) | h
    · exact ⟨.read, h⟩
    · exact ⟨.write, h⟩
    · exact ⟨.except, h⟩
  · rintro ⟨k, hgoal, hbit⟩
    cases k <;> simp_all [FdGoal.asks, bit, test]

theorem fdsTest_iff {nfd : ℤ} {x y : FdSets} : fdsTest nfd x y = true ↔
    ∃ k, ∃ d : ℕ, (d : ℤ) < nfd ∧ x.bit k d = true ∧ y.bit k d = true := by
  simp only [fdsTest, List.any_eq_true, List.mem_range, Bool.or_eq_true, Bool.and_eq_true]
  constructor
  · rintro ⟨d, hd, (h | h) | h⟩
    · exact ⟨.read, d, by omega, h⟩
    · exact ⟨.write, d, by omega, h⟩
    · exact ⟨.except, d, by omega, h⟩
  · rintro ⟨k, d, hd, h⟩
    refine ⟨d, by omega, ?_⟩
    cases k
    · exact .inl (.inl h)
    · exact .inl (.inr h)
    · exact .inr h

/-! ## The system -/

/-- `select(2)` succeeds: below `nfds` it leaves those of the descriptors that are `ready`, and it
    returns how many they are. Above, it adds nothing. -/
structure SelectRes.Reports (ready : FdSets) (req : SelectReq) (res : SelectRes) : Prop where
  sets : ∀ k (d : ℕ), (d : ℤ) < req.nfds → res.sets.bit k d = (req.sets.bit k d && ready.bit k d)
  above : ∀ k (d : ℕ), req.nfds ≤ d → res.sets.bit k d = true → req.sets.bit k d = true
  rc : res.rc = res.sets.count req.nfds

namespace EventArgs

variable {τ : Type*}

/-- Whether an event waits for descriptors. -/
def isIo : EventArgs τ → Bool
  | .fd _ _ | .select _ _ _ _ _ => true
  | _ => false

end EventArgs

namespace Sched

variable {τ : Type*} {s s' s₁ : Sched τ} {env : Env τ} {t : τ} {i : ℕ} {l : Late} {o : Objects}
  {sc sc' : Scan τ} {ev ev' : Event τ} {evs evs' : List (Event τ)} {I : Late → Prop}

/-! ## A descriptor event in the first loop -/

section

variable [DecidableEq τ]

/-- From `sc` on the first loop has asked for the descriptors of `x` as well. -/
def Asks (sc : Scan τ) (x : FdSets) (sc' : Scan τ) : Prop :=
  ∀ k d, sc.sets.bit k d = true ∨ x.bit k d = true → sc'.sets.bit k d = true

omit [DecidableEq τ] in
theorem Asks.of_eq {x : FdSets} (hsets : sc'.sets = sc.sets) (hx : x = .zero) :
    Asks sc x sc' := by
  intro k d hd
  rw [hsets]
  simpa [hx] using hd

theorem scanArgs_asks {args args' : EventArgs τ} {b : Bool}
    (h : s.scanArgs env t i sc args = some (b, s', sc', args')) : Asks sc args.fds sc' := by
  cases args with
  | fd goal n =>
    obtain ⟨-, -, rfl, -⟩ : false = b ∧ s = s' ∧
        { sc with sets := sc.sets.add goal n, fdmax := max sc.fdmax n } = sc' ∧
        .fd goal n = args' := by simpa [scanArgs] using h
    intro k d hd
    simpa [EventArgs.fds] using hd
  | select n nfd rfds wfds efds =>
    obtain ⟨-, -, rfl, -⟩ : false = b ∧ s = s' ∧
        { sc with
          sets := { r := fdsMerge nfd rfds sc.sets.r, w := fdsMerge nfd wfds sc.sets.w,
                    e := fdsMerge nfd efds sc.sets.e }
          fdmax := max sc.fdmax (nfd - 1) } = sc' ∧
        .select n nfd rfds wfds efds = args' := by simpa [scanArgs] using h
    intro k d hd
    cases k <;> simpa [FdSets.bit, fdsMerge, EventArgs.fds, FdSets.zero] using hd
  | sigs sigs sig =>
    simp only [scanArgs, Option.map_eq_some_iff, Prod.mk.injEq] at h
    obtain ⟨y, -, -, -, rfl, -⟩ := h
    exact .of_eq rfl rfl
  | time tv =>
    obtain ⟨y, hy, -⟩ := sc.timer_eq { thread := t, index := i, value := tv, isFunc := false }
    exact .of_eq (by grind [scanArgs]) rfl
  | func f tv =>
    obtain ⟨y, hy, -⟩ := sc.timer_eq
      { thread := t, index := i, value := s.snapshot.add tv, isFunc := true }
    exact .of_eq (by grind [scanArgs]) rfl
  | tid tid goal => exact .of_eq (by cases tid <;> grind [scanArgs]) rfl
  | msg mp => exact .of_eq (by grind [scanArgs]) rfl
  | mutex m => exact .of_eq (by grind [scanArgs]) rfl
  | cond c => exact .of_eq (by grind [scanArgs]) rfl

/-- What the first loop does with an event of a thread: it asks for its descriptors if it is
    pending, and leaves it alone if it waits for descriptors. -/
structure Requested (sc : Scan τ) (evs' : List (Event τ)) (i : ℕ) (ev : Event τ) : Prop where
  asked : ev.evStatus = .pending → ∀ k d, ev.evArgs.fds.bit k d = true → sc.sets.bit k d = true
  kept : ev.evArgs.isIo = true → evs'[i]? = some ev

theorem scanEvent_asks (h : s.scanEvent env t i sc ev = some (s', sc', ev')) :
    Asks sc (if ev.evStatus = .pending then ev.evArgs.fds else .zero) sc' ∧
      (ev.evArgs.isIo = true → ev' = ev) := by
  obtain ⟨status, args⟩ := ev
  unfold scanEvent at h
  split at h
  · next hp =>
    obtain rfl : status = .pending := hp
    simp only [Option.map_eq_some_iff] at h
    obtain ⟨⟨b, s₁, sc₁, args'⟩, hargs, h⟩ := h
    have hasks := scanArgs_asks hargs
    constructor
    · have hsets : sc'.sets = sc₁.sets := by
        cases b <;> grind
      intro k d hd
      rw [hsets]
      exact hasks k d (by simpa using hd)
    · intro hio
      cases args <;> simp_all [EventArgs.isIo, scanArgs]
  · next hp =>
    obtain ⟨-, rfl, rfl⟩ : s = s' ∧ sc = sc' ∧ _ = ev' := by simpa using h
    rw [if_neg hp]
    exact ⟨.of_eq rfl rfl, fun _ => rfl⟩

/-- What the first loop does with the events of all threads. -/
theorem scan_requested (hscan : scan env s = some (s₁, sc))
    (hnd : (s.queues.threads .WQ).Nodup) {t : τ} (ht : t ∈ s.queues.threads .WQ) {i : ℕ}
    {ev : Event τ} (hev : (s.tcb t).events[i]? = some ev) :
    Requested sc (s₁.tcb t).events i ev := by
  have hr : ScanRule env s (s.queues.threads .WQ) (fun _ => True)
      (fun sc sc' => Asks sc .zero sc') (fun _ _ ev sc r =>
        (ev.evStatus = .pending → ∀ k d, ev.evArgs.fds.bit k d = true → sc.sets.bit k d = true) ∧
          (ev.evArgs.isIo = true → r = some ev)) :=
    { refl := fun _ => .of_eq rfl rfl
      trans := fun h h' k d hd => h' k d (hd.imp_left fun hd => h k d (.inl hd))
      inv := fun _ => trivial
      cancel := fun _ => .of_eq rfl rfl
      event := fun {_ _ ev _ _ _ _ _} _ _ _ _ h => by
        obtain ⟨hasks, hkept⟩ := scanEvent_asks h
        refine ⟨fun k d hd => hasks k d (hd.imp_right (by simp)), fun hp k d hd => ?_, fun hio => ?_⟩
        · rw [if_pos hp] at hasks
          exact hasks k d (.inr hd)
        · rw [hkept hio]
      lasts := fun h h' => ⟨fun hp k d hd => h' k d (.inl (h.1 hp k d hd)), h.2⟩ }
  obtain ⟨hasked, hkept⟩ := (hr.scan hnd trivial hscan).2 t ht i ev hev
  exact ⟨hasked, hkept⟩

end

/-! ## A descriptor event in the second loop -/

/-- Every event keeps the condition `I` on the variables of the second loop. -/
def Steady (env : Env τ) (I : Late → Prop) : Prop :=
  ∀ t i l args, I l → I (lateArgs env t i l args).1

theorem Steady.lateEvent (h : Steady env I) (hl : I l) : I (lateEvent env t i l o ev).1 := by
  unfold Sched.lateEvent
  split
  · exact h t i l ev.evArgs hl
  · exact hl

/-- What becomes of an event under such a condition. -/
theorem Steady.lateEvents (h : Steady env I) (hl : I l) (evs : List (Event τ)) :
    I (lateEvents env t i l o evs).1 ∧ ∀ j ev, evs[j]? = some ev →
      ∃ l' o', I l' ∧ (lateEvents env t i l o evs).2.2[j]? =
        some (Sched.lateEvent env t (i + j) l' o' ev).2.2 := by
  induction evs generalizing i l o with
  | nil => exact ⟨hl, by simp⟩
  | cons ev evs ih =>
    obtain ⟨hend, hrest⟩ := ih (i := i + 1) (o := (Sched.lateEvent env t i l o ev).2.1)
      (h.lateEvent hl)
    refine ⟨hend, fun j e he => ?_⟩
    cases j with
    | zero =>
      obtain rfl : ev = e := by simpa using he
      exact ⟨l, o, hl, rfl⟩
    | succ j =>
      obtain ⟨l', o', hl', hj⟩ := hrest j e (by simpa using he)
      refine ⟨l', o', hl', ?_⟩
      rw [Nat.add_assoc, Nat.add_comm 1 j] at hj
      exact hj

theorem Steady.lateThreads (h : Steady env I) (hl : I l) (xs : List (τ × List (Event τ))) :
    List.Forall₂ (fun x y => y.1 = x.1 ∧ ∀ j ev, x.2[j]? = some ev →
        ∃ l' o', I l' ∧ y.2[j]? = some (Sched.lateEvent env x.1 j l' o' ev).2.2) xs
      (lateThreads env l o xs) := by
  induction xs generalizing l o with
  | nil => exact .nil
  | cons x xs ih =>
    obtain ⟨hend, hevs⟩ := h.lateEvents (t := x.1) (i := 0) (o := o) hl x.2
    refine .cons ⟨rfl, fun j ev hev => ?_⟩ (ih hend)
    simpa using hevs j ev hev

theorem Cleaned.late_event {ts : List τ} (hc : Cleaned env l s ts s') (h : Steady env I) (hl : I l)
    (hev : s.Has ts t i ev) :
    ∃ l' o', I l' ∧ (s'.tcb t).events[i]? = some (lateEvent env t i l' o' ev).2.2 := by
  have hall := h.lateThreads (o := s.objects) hl (ts.map fun t => (t, (s.tcb t).events))
  rw [← hc.events, List.forall₂_map_left_iff, List.forall₂_map_right_iff,
    List.forall₂_same] at hall
  exact (hall t hev.1).2 i ev hev.2

/-- An event that the second loop leaves alone in any case. -/
theorem Cleaned.plain {ts : List τ} (hc : Cleaned env l s ts s') (hev : s.Has ts t i ev)
    (hlate : ∀ l o, (lateEvent env t i l o ev).2.2 = ev) : (s'.tcb t).events[i]? = some ev := by
  obtain ⟨l, o, -, hafter⟩ := hc.late_event (I := fun _ => True) (fun _ _ _ _ _ => trivial)
    trivial hev
  rwa [hlate] at hafter

/-! ## A descriptor event in a pass -/

/-- The timer that may be tagged is another event. -/
theorem ticked_io (h : List.Forall₂ Ticked evs evs') (hev : evs[i]? = some ev)
    (hio : ev.evArgs.isIo = true) : evs'[i]? = some ev := by
  obtain ⟨ev', hev', hticked⟩ := h.exists_getElem? hev
  rcases hticked with rfl | ⟨tv, htime, -⟩
  · exact hev'
  · simp [htime, EventArgs.isIo] at hio

section

variable [DecidableEq τ] {a : QId → List (τ × ℤ)}

/-- What becomes of a pending descriptor event in a pass, if its two loops and the sleep keep the
    condition `I`. -/
theorem eventmanager_late_event (h : s.queues.Repr a) (hscan : scan env s = some (s₁, sc))
    (dopoll : Bool) (hI : Steady env I) (hl : I (sleep env s₁ sc dopoll).2.2) :
    (s.eventmanager env dopoll).Ensures fun (_, s') => ∀ t ∈ keys (a .WQ), ∀ (i : ℕ) ev,
      (s.tcb t).events[i]? = some ev → ev.evStatus = .pending → ev.evArgs.isIo = true →
      ∃ l, I l ∧ (s'.tcb t).events[i]? =
        some ⟨(lateArgs env t i l ev.evArgs).2.1, (lateArgs env t i l ev.evArgs).2.2⟩ := by
  have hnd : (s.queues.threads .WQ).Nodup := h.threads_nodup
  apply (eventmanager_cleaned h hscan dopoll).mono
  rintro ⟨b, s'⟩ ⟨-, -, hc, -, -⟩ t ht i ev hev hp hio
  have ht' : t ∈ s.queues.threads .WQ := h.threads ▸ ht
  have hkept := (scan_requested hscan hnd ht' hev).kept hio
  have hslept : ((sleep env s₁ sc dopoll).2.1.tcb t).events[i]? = some ev :=
    ticked_io (sleep_ticked hscan hnd dopoll t) hkept hio
  obtain ⟨l, o, hl', hafter⟩ := hc.late_event hI hl ⟨ht, hslept⟩
  refine ⟨l, hl', ?_⟩
  rw [hafter, lateEvent, if_pos hp]

end

/-! ## The merged request succeeds -/

end Sched

/-- What `select(2)` leaves of a set of its own, and what it does not look at. -/
def FdSet.selected (nfd : ℤ) (ready f : FdSet) : FdSet :=
  fun d => if (d : ℤ) < nfd then f d && ready d else f d

/-- The event has become what a private `select(2)` would make of it. -/
def Event.Private {τ : Type*} (ready : FdSets) (ev ev' : Event τ) : Prop :=
  match ev.evArgs with
  | .fd goal fd =>
    (ev'.evStatus = .occurred ↔ ∃ k, goal.asks k = true ∧ ready.bit k fd = true) ∧
      ev'.evArgs = ev.evArgs
  | .select n nfd rfds wfds efds =>
    let rfds' := rfds.map (FdSet.selected nfd ready.r)
    let wfds' := wfds.map (FdSet.selected nfd ready.w)
    let efds' := efds.map (FdSet.selected nfd ready.e)
    (ev'.evStatus = .occurred ↔ ∃ k, ∃ d : ℕ, (d : ℤ) < nfd ∧
      (FdSets.ofSelect rfds wfds efds).bit k d = true ∧ ready.bit k d = true) ∧
    (ev'.evStatus = .occurred → ev'.evArgs = .select
      (n.map fun _ => (FdSets.ofSelect rfds' wfds' efds').count nfd) nfd rfds' wfds' efds') ∧
    (ev'.evStatus ≠ .occurred → ev' = ev)
  | _ => True

namespace Sched

variable {τ : Type*} {s : Sched τ} {env : Env τ} {t : τ} {i : ℕ} {l : Late} {sc : Scan τ}
  {ready : FdSets}

theorem zeroed_bit {x : FdSets} {nfd : ℤ} {k : FdKind} {d : ℕ} (hd : (d : ℤ) < nfd) :
    (if x.count nfd ≤ 0 then FdSets.zero else x).bit k d = x.bit k d := by
  split
  · next hcount =>
    cases hbit : x.bit k d with
    | false => simp
    | true => exact absurd (FdSets.count_pos hd hbit) (by omega)
  · rfl

/-- Apart from the signal pipe, the adjusted result tells which of the descriptors that were asked
    for are ready. -/
theorem adjust_reports {dopoll : Bool} {res : SelectRes}
    (h : res.Reports ready (s.mergedReq sc dopoll)) :
    0 ≤ (s.adjust dopoll res).rc ∧ ∀ k (d : ℕ), sc.sets.bit k d = true → (d : ℤ) ≤ sc.fdmax →
      ¬ (k = .read ∧ d = s.sigpipe) → (s.adjust dopoll res).sets.bit k d = ready.bit k d := by
  have hres : ∀ k (d : ℕ), sc.sets.bit k d = true → (d : ℤ) ≤ sc.fdmax →
      ¬ (k = .read ∧ d = s.sigpipe) → (d : ℤ) < (s.mergedReq sc dopoll).nfds ∧
        res.sets.bit k d = ready.bit k d := by
    intro k d hbit hmax hpipe
    have hlt : (d : ℤ) < (s.mergedReq sc dopoll).nfds := by
      simp only [mergedReq]
      omega
    have hreq : (s.mergedReq sc dopoll).sets.bit k d = true := by
      cases k <;> simp_all [mergedReq, FdSets.bit]
    exact ⟨hlt, by rw [h.sets k d hlt, hreq, Bool.true_and]⟩
  have hpos := res.sets.count_nonneg (s.mergedReq sc dopoll).nfds
  unfold adjust
  by_cases hpiped : (!dopoll && res.rc > 0 && res.sets.r s.sigpipe) = true
  · simp only [hpiped, if_true]
    simp only [Bool.and_eq_true, decide_eq_true_eq] at hpiped
    have hlast : (s.sigpipe : ℤ) < (s.mergedReq sc dopoll).nfds := by
      simp only [mergedReq]
      omega
    rw [h.rc, ← FdSets.count_update hlast hpiped.2]
    refine ⟨FdSets.count_nonneg _ _, fun k d hbit hmax hpipe => ?_⟩
    obtain ⟨hlt, hready⟩ := hres k d hbit hmax hpipe
    rw [zeroed_bit hlt, ← hready]
    cases k <;> simp_all [FdSets.bit]
  · simp only [hpiped, Bool.false_eq_true, if_false]
    rw [h.rc]
    refine ⟨hpos, fun k d hbit hmax hpipe => ?_⟩
    obtain ⟨hlt, hready⟩ := hres k d hbit hmax hpipe
    rw [zeroed_bit hlt, hready]

/-- Without an error the second loop does not change its variables. -/
theorem steady_reported (env : Env τ) (S : FdSets) :
    Steady env fun l => 0 ≤ l.rc ∧ l.sets = S := by
  rintro t i l args ⟨hrc, hsets⟩
  have hneg : ¬ l.rc < 0 := by omega
  rw [lateArgs_rc]
  refine ⟨hrc, ?_⟩
  cases args <;> simp only [lateArgs, if_neg hneg] <;> repeat' split
  all_goals exact hsets

theorem selected_getD {nfd : ℤ} {f : Option FdSet} {o ready : FdSet} {d : ℕ} (hd : (d : ℤ) < nfd)
    (h : (f.getD fun _ => false) d = true → o d = ready d) :
    ((f.map (FdSet.selected nfd ready)).getD fun _ => false) d =
      ((f.getD fun _ => false) d && o d) := by
  cases f with
  | none => rfl
  | some f =>
    simp only [Option.getD_some] at h
    cases hf : f d with
    | false => simp [FdSet.selected, hf]
    | true => simp [FdSet.selected, hd, hf, h hf]

theorem fdsKeep_eq {nfd : ℤ} {f : Option FdSet} {o ready : FdSet}
    (h : ∀ d : ℕ, (d : ℤ) < nfd → (f.getD fun _ => false) d = true → o d = ready d) :
    fdsKeep nfd f o = f.map (FdSet.selected nfd ready) := by
  cases f with
  | none => rfl
  | some f =>
    simp only [fdsKeep, Option.map_some, Option.some.injEq]
    funext d
    unfold FdSet.selected
    split
    · next hd =>
      cases hf : f d with
      | false => rfl
      | true => simp [h d hd (by simpa using hf)]
    · rfl

/-- If the adjusted result tells which descriptors of the event are ready, the second loop makes
    of it what a private `select(2)` would. -/
theorem lateArgs_private {args : EventArgs τ} (hrc : 0 ≤ l.rc) (hio : args.isIo = true)
    (hl : ∀ k d, args.fds.bit k d = true → l.sets.bit k d = ready.bit k d) :
    Event.Private ready ⟨.pending, args⟩
      ⟨(lateArgs env t i l args).2.1, (lateArgs env t i l args).2.2⟩ := by
  have hneg : ¬ l.rc < 0 := by omega
  cases args with
  | fd goal fd =>
    have hready : l.sets.test goal fd = true ↔
        ∃ k, goal.asks k = true ∧ ready.bit k fd = true := by
      rw [FdSets.test_iff]
      refine exists_congr fun k => and_congr_right fun hk => ?_
      rw [hl k fd (by simp [EventArgs.fds, hk])]
    simp only [Event.Private, lateArgs, if_neg hneg, ← hready]
    split <;> simp_all
  | select n nfd rfds wfds efds =>
    have hbit : ∀ k (d : ℕ), (d : ℤ) < nfd →
        (FdSets.ofSelect rfds wfds efds).bit k d = true → l.sets.bit k d = ready.bit k d :=
      fun k d hd hx => hl k d (select_bit.mpr ⟨hd, hx⟩)
    have hready : fdsTest nfd (.ofSelect rfds wfds efds) l.sets = true ↔ ∃ k, ∃ d : ℕ,
        (d : ℤ) < nfd ∧ (FdSets.ofSelect rfds wfds efds).bit k d = true ∧
          ready.bit k d = true := by
      rw [fdsTest_iff]
      refine exists_congr fun k => exists_congr fun d => and_congr_right fun hd =>
        and_congr_right fun hx => ?_
      rw [hbit k d hd hx]
    have hr : fdsKeep nfd rfds l.sets.r = rfds.map (FdSet.selected nfd ready.r) :=
      fdsKeep_eq fun d hd hf => hbit .read d hd hf
    have hw : fdsKeep nfd wfds l.sets.w = wfds.map (FdSet.selected nfd ready.w) :=
      fdsKeep_eq fun d hd hf => hbit .write d hd hf
    have he : fdsKeep nfd efds l.sets.e = efds.map (FdSet.selected nfd ready.e) :=
      fdsKeep_eq fun d hd hf => hbit .except d hd hf
    have hcount : fdsCount nfd (.ofSelect rfds wfds efds) l.sets =
        (FdSets.ofSelect (rfds.map (FdSet.selected nfd ready.r))
          (wfds.map (FdSet.selected nfd ready.w))
          (efds.map (FdSet.selected nfd ready.e))).count nfd := by
      rw [fdsCount_eq]
      refine FdSets.count_congr fun k d hd => ?_
      have hsame := hbit k d hd
      cases k with
      | read => exact (selected_getD hd hsame).symm
      | write => exact (selected_getD hd hsame).symm
      | except => exact (selected_getD hd hsame).symm
    simp only [Event.Private, lateArgs, if_neg hneg, ← hready, hr, hw, he, hcount]
    split <;> simp_all
  | _ => simp [EventArgs.isIo] at hio

/-- The merged call of a pass succeeds with the descriptors that are `ready`. -/
def Succeeds (s : Sched τ) (env : Env τ) (dopoll : Bool) (ready : FdSets) [DecidableEq τ] : Prop :=
  ∀ s₁ sc, scan env s = some (s₁, sc) →
    (env.select .merged (s₁.mergedReq sc (dopoll || sc.anyOccurred))).Reports ready
      (s₁.mergedReq sc (dopoll || sc.anyOccurred))

variable [DecidableEq τ] {a : QId → List (τ × ℤ)}

/-- If the merged `select(2)` succeeds, and no event uses the signal pipe, then a pass makes of
    every pending descriptor event what a private `select(2)` would make of it. -/
theorem merged_select_private (h : s.queues.Repr a) (hscan : scan env s ≠ none) (dopoll : Bool)
    (hready : s.Succeeds env dopoll ready)
    (hpipe : ∀ t ∈ keys (a .WQ), ∀ ev ∈ (s.tcb t).events, ev.evStatus = .pending →
      ∀ k, ev.evArgs.fds.bit k s.sigpipe = false) :
    (s.eventmanager env dopoll).Ensures fun (_, s') => ∀ t ∈ keys (a .WQ), ∀ (i : ℕ) ev,
      (s.tcb t).events[i]? = some ev → ev.evStatus = .pending → ev.evArgs.isIo = true →
      ∃ ev', (s'.tcb t).events[i]? = some ev' ∧ ev.Private ready ev' := by
  obtain ⟨⟨s₁, sc⟩, hscan⟩ := Option.ne_none_iff_exists'.mp hscan
  have hnd : (s.queues.threads .WQ).Nodup := h.threads_nodup
  obtain ⟨hrc, hsets⟩ := adjust_reports (hready s₁ sc hscan)
  apply (eventmanager_late_event h hscan dopoll (steady_reported env _) ⟨hrc, rfl⟩).mono
  rintro ⟨b, s'⟩ hlate t ht i ev hev hp hio
  obtain ⟨l, ⟨hl, hl'⟩, hafter⟩ := hlate t ht i ev hev hp hio
  refine ⟨_, hafter, ?_⟩
  have hpending : ev = ⟨.pending, ev.evArgs⟩ := by rw [← hp]
  rw [hpending]
  refine lateArgs_private hl hio fun k d hbit => ?_
  -- the descriptor was asked for, and it is not the pipe
  have hasked := (scan_requested hscan hnd (h.threads ▸ ht) hev).asked hp k d hbit
  have hmax := ((scan_collected hscan hnd).bits k d hasked).1
  rw [hl']
  refine hsets k d hasked hmax fun hd => ?_
  have hnot := hpipe t ht ev (List.mem_of_getElem? hev) hp k
  rw [← (scanThreads_scanned hscan).1.sigpipe, ← hd.2, hbit] at hnot
  cases hnot

/-- An environment in which the descriptors of `ready` are ready and none is bad. -/
def answering (ready : FdSets) : Env τ :=
  { quiet with select := fun _ req =>
      let sets : FdSets :=
        { r := fun d => decide ((d : ℤ) < req.nfds) && (req.sets.r d && ready.r d)
          w := fun d => decide ((d : ℤ) < req.nfds) && (req.sets.w d && ready.w d)
          e := fun d => decide ((d : ℤ) < req.nfds) && (req.sets.e d && ready.e d) }
      { rc := sets.count req.nfds, sets := sets, raised := fun _ => false } }

omit [DecidableEq τ] in
theorem answering_reports (ready : FdSets) (call : SelectCall τ) (req : SelectReq) :
    ((answering ready : Env τ).select call req).Reports ready req where
  sets k d hd := by cases k <;> simp [answering, FdSets.bit, hd]
  above k d hd hbit := by
    have hge : ¬ (d : ℤ) < req.nfds := by omega
    cases k <;> simp [answering, FdSets.bit, hge] at hbit
  rc := rfl

/-- The thread 1 waits for the descriptor 3 and for a set with the descriptors 3, 4 and 7. -/
def ioWaiter : Sched ℕ :=
  mutexWaiter.modify 1 fun tcb => { tcb with
    events := [⟨.pending, .fd ⟨true, false, false⟩ 3⟩,
      ⟨.pending, .select (some 0) 5 (some fun d => d == 3 || d == 4 || d == 7) none none⟩] }

/-- The descriptor 4 is ready, and 7 is not looked at. -/
theorem merged_select_private_four :
    (ioWaiter.eventmanager (answering ⟨fun d => d == 4, fun _ => true, fun _ => true⟩)
      false).Ensures fun (_, s') =>
        (∃ ev, (s'.tcb 1).events[0]? = some ev ∧ ev.evStatus ≠ .occurred) ∧
        ∃ f, (s'.tcb 1).events[1]? = some ⟨.occurred, .select (some 1) 5 (some f) none none⟩ ∧
          f 3 = false ∧ f 4 = true ∧ f 7 = true := by
  have hscan : scan (answering ⟨fun d => d == 4, fun _ => true, fun _ => true⟩) ioWaiter ≠ none := by
    rw [← Option.isSome_iff_ne_none]
    decide
  have hpipe : ∀ ev ∈ (ioWaiter.tcb 1).events, ∀ k,
      ev.evArgs.fds.bit k ioWaiter.sigpipe = false := by
    intro ev hev k
    simp only [ioWaiter, modify_tcb, if_true, List.mem_cons, List.not_mem_nil, or_false] at hev
    rcases hev with rfl | rfl <;> cases k <;> rfl
  apply (merged_select_private (s := ioWaiter) mutexWaiter_repr hscan false
    (fun _ _ _ => answering_reports _ _ _) (fun t ht ev hev _ k => ?_)).mono
  · rintro ⟨b, s'⟩ hio
    obtain ⟨ev₀, hev₀, hfd⟩ := hio 1 (by simp) 0 _ rfl rfl rfl
    obtain ⟨⟨status, args⟩, hev₁, hselect⟩ := hio 1 (by simp) 1 _ rfl rfl rfl
    obtain rfl : status = .occurred := hselect.1.mpr ⟨.read, 4, by decide, rfl, rfl⟩
    obtain rfl := hselect.2.1 rfl
    refine ⟨⟨ev₀, hev₀, fun hocc => ?_⟩, _, hev₁, by decide, by decide, by decide⟩
    obtain ⟨k, hk, hready⟩ := hfd.1.mp hocc
    cases k <;> simp [FdGoal.asks, FdSets.bit] at hk hready
  · obtain rfl : t = 1 := by simpa using ht
    exact hpipe ev hev k

end Sched

end Pth
