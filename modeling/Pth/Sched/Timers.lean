-- SUMMARY: Timers in an event manager pass: none is tagged early, and the sleep ends with the next one.
import Pth.Sched.Select

/-!
# Timers

The first loop tags the time points that have passed, and keeps the earliest of those
that remain and of the next calls of functions. The sleep in `select(2)` lasts until
then, and if nothing else happens the time point for which it has waited is tagged.
Times are compared in microseconds, since a sum need not be normalised. -/

namespace Pth

open PrioList (keys)

/-! ## Times in microseconds -/

namespace Time

variable {x y now : Time}

def micros (x : Time) : ℤ := x.tvSec * 1000000 + x.tvUsec

@[simp] theorem micros_add (x y : Time) : (x.add y).micros = x.micros + y.micros := by
  simp only [add, micros]
  split <;> dsimp only <;> omega

@[simp] theorem micros_sub (x y : Time) : (x.sub y).micros = x.micros - y.micros := by
  simp only [sub, micros]
  split <;> dsimp only <;> omega

/-- A time that a pass sleeps for: it is near enough to be compared with others, may have all of
    a second in its microseconds, and can be waited for. -/
structure Soon (now x : Time) : Prop where
  sec : now.tvSec ≤ x.tvSec
  near : x.tvSec - now.tvSec < 2 ^ 31
  usec : 0 ≤ x.tvUsec ∧ x.tvUsec ≤ 1000000
  timeout : (x.sub now).Normal ∧ 0 ≤ (x.sub now).tvSec

theorem Soon.cmp (hx : now.Soon x) (hy : now.Soon y) :
    if x.cmp y < 0 then x.micros ≤ y.micros else y.micros ≤ x.micros := by
  obtain ⟨hx₀, hx₁, hxu, -⟩ := hx
  obtain ⟨hy₀, hy₁, hyu, -⟩ := hy
  rw [cmp_eq (by omega) (by omega) (by omega) (by omega)]
  simp only [micros]
  split <;> split at * <;> omega

/-- A time point that has not been found to be in the past. -/
theorem soon_of_cmp (hnow : now.Normal) (hx : x.Normal) (hnear : |x.tvSec - now.tvSec| < 2 ^ 31)
    (hcmp : ¬ x.cmp now < 0) : now.Soon x := by
  obtain ⟨hlo, hhi⟩ := abs_lt.mp hnear
  refine ⟨?_, hhi, ⟨hx.1, hx.2.le⟩, sub_valid hnow hx hlo.le hhi hcmp⟩
  obtain ⟨hn₀, hn₁⟩ := hnow
  obtain ⟨hx₀, hx₁⟩ := hx
  rw [cmp_eq (by omega) (by omega) (by omega) (by omega)] at hcmp
  split at hcmp <;> omega

/-- A time point that has been found to be in the past. -/
theorem micros_lt_of_cmp (hnow : now.Normal) (hx : x.Normal)
    (hnear : |x.tvSec - now.tvSec| < 2 ^ 31) (hcmp : x.cmp now < 0) : x.micros < now.micros := by
  obtain ⟨hlo, hhi⟩ := abs_lt.mp hnear
  obtain ⟨hn₀, hn₁⟩ := hnow
  obtain ⟨hx₀, hx₁⟩ := hx
  rw [cmp_eq (by omega) (by omega) (by omega) (by omega)] at hcmp
  simp only [micros]
  split at hcmp <;> omega

/-- The end of an interval. -/
theorem soon_add (hnow : now.Normal) (hx : x.Normal) (hsec : 0 ≤ x.tvSec)
    (hnear : (now.add x).tvSec - now.tvSec < 2 ^ 31) : now.Soon (now.add x) := by
  refine ⟨?_, hnear, ?_, add_sub_valid hnow hx hsec⟩
  all_goals
    obtain ⟨hn₀, hn₁⟩ := hnow
    obtain ⟨hx₀, hx₁⟩ := hx
    simp only [add]
    split <;> dsimp only <;> omega

end Time

namespace EventArgs

variable {τ : Type*}

/-- Times as the interface asks for: a time point is normalised and its seconds are less than
    2^31 away from `now`; an interval is normalised and not negative, and so is its end. -/
def Near (now : Time) : EventArgs τ → Prop
  | .time tv => tv.Normal ∧ |tv.tvSec - now.tvSec| < 2 ^ 31
  | .func _ tv => tv.Normal ∧ 0 ≤ tv.tvSec ∧ |(now.add tv).tvSec - now.tvSec| < 2 ^ 31
  | _ => True

/-- When an event has to be looked at again, in microseconds. -/
def deadline (now : Time) : EventArgs τ → Option ℤ
  | .time tv => some tv.micros
  | .func _ tv => some (now.micros + tv.micros)
  | _ => none

end EventArgs

namespace Sched

variable {τ : Type*} {s s' s₁ : Sched τ} {env : Env τ} {t : τ} {i : ℕ} {now : Time} {p : ℤ}
  {D : Set ℤ} {sc sc' : Scan τ} {ev ev' : Event τ} {evs evs' : List (Event τ)}

/-! ## The next timer -/

/-- The next timer is one of the deadlines `D`, and can be compared with others. -/
def NextIn (now : Time) (D : Set ℤ) (sc : Scan τ) : Prop :=
  ∀ x, sc.nexttimer = some x → now.Soon x.value ∧ x.value.micros ∈ D

/-- There is a next timer, and it is not after `p`. -/
def NextBy (sc : Scan τ) (p : ℤ) : Prop :=
  ∃ x, sc.nexttimer = some x ∧ x.value.micros ≤ p

/-- What the first loop does not lose on the way from `sc` to `sc'`. -/
structure Follows (now : Time) (D : Set ℤ) (sc sc' : Scan τ) : Prop where
  next : NextIn now D sc'
  occurred : sc.anyOccurred = true → sc'.anyOccurred = true
  nextBy : ∀ p, NextBy sc p → NextBy sc' p

theorem Follows.refl (h : NextIn now D sc) : Follows now D sc sc := ⟨h, id, fun _ => id⟩

theorem Follows.trans {sc'' : Scan τ} (h : Follows now D sc sc') (h' : Follows now D sc' sc'') :
    Follows now D sc sc'' :=
  ⟨h'.next, fun ha => h'.occurred (h.occurred ha), fun p hp => h'.nextBy p (h.nextBy p hp)⟩

/-- The timer and the flag are all that matters. -/
theorem Follows.of_eq (h : NextIn now D sc) (hnext : sc'.nexttimer = sc.nexttimer)
    (hany : sc.anyOccurred = true → sc'.anyOccurred = true) : Follows now D sc sc' where
  next y hy := h y (hnext ▸ hy)
  occurred := hany
  nextBy _ := fun ⟨y, hy, hle⟩ => ⟨y, hnext.trans hy, hle⟩

/-- The earlier one of two timers is kept. -/
theorem timer_follows (h : NextIn now D sc) (x : NextTimer τ) (hx : now.Soon x.value)
    (hD : x.value.micros ∈ D) :
    Follows now D sc (sc.timer x) ∧ NextBy (sc.timer x) x.value.micros := by
  have hself : ∀ y, some x = some y → now.Soon y.value ∧ y.value.micros ∈ D := by
    intro y hy
    obtain rfl := Option.some.inj hy
    exact ⟨hx, hD⟩
  unfold Scan.timer
  split
  · next hnone =>
    refine ⟨⟨hself, id, ?_⟩, x, rfl, le_rfl⟩
    rintro p ⟨y, hy, -⟩
    rw [hnone] at hy
    cases hy
  · next y hy =>
    have hcmp := hx.cmp (h y hy).1
    split at hcmp
    · next hlt =>
      rw [if_pos hlt]
      refine ⟨⟨hself, id, ?_⟩, x, rfl, le_rfl⟩
      rintro p ⟨z, hz, hle⟩
      obtain rfl : y = z := Option.some.inj (hy.symm.trans hz)
      exact ⟨x, rfl, hcmp.trans hle⟩
    · next hlt =>
      rw [if_neg hlt]
      exact ⟨.refl h, y, hy, hcmp⟩

/-- What the first loop makes of a pending timer or function event with the deadline `p`, of which
    `H` says whether it has occurred: the event becomes `r`, and `sc` is where the loop is then. -/
structure Timed (H : Prop) (p : ℤ) (args : EventArgs τ) (sc : Scan τ) (r : Option (Event τ)) :
    Prop where
  tagged : H → r = some ⟨.occurred, args⟩ ∧ sc.anyOccurred = true
  remains : ¬ H → r = some ⟨.pending, args⟩ ∧ NextBy sc p

theorem Timed.follows {H : Prop} {args : EventArgs τ} {r : Option (Event τ)}
    (h : Timed H p args sc r) (h' : Follows now D sc sc') : Timed H p args sc' r where
  tagged hH := (h.tagged hH).imp_right h'.occurred
  remains hH := (h.remains hH).imp_right (h'.nextBy p)

variable [DecidableEq τ]

omit [DecidableEq τ] in
/-- Whether a timer or a function event occurs does not depend on what the first loop changes. -/
theorem Scanned.holds_iff {args : EventArgs τ} (h : s.Scanned s')
    (hp : args.deadline now = some p) : s'.Holds env t i args ↔ s.Holds env t i args := by
  cases args with
  | time tv => simp only [Holds, h.snapshot]
  | func f tv => cases f <;> simp only [Holds, call, exitCb, h.queues]
  | _ => cases hp

/-- The times of an event are near, and its deadline is in `D` unless it has occurred. -/
structure Enters (D : Set ℤ) (s : Sched τ) (env : Env τ) (t : τ) (i : ℕ) (args : EventArgs τ) :
    Prop where
  near : args.Near s.snapshot
  mem : ∀ p, args.deadline s.snapshot = some p → ¬ s.Holds env t i args → p ∈ D

omit [DecidableEq τ] in
theorem Enters.scanned {args : EventArgs τ} (h : Enters D s env t i args) (hs : s.Scanned s') :
    Enters D s' env t i args where
  near := hs.snapshot ▸ h.near
  mem p hd hnot := by
    rw [hs.holds_iff hd] at hnot
    exact h.mem p (hs.snapshot ▸ hd) hnot

theorem scanArgs_timed {args args' : EventArgs τ} {b : Bool} (hnow : s.snapshot.Normal)
    (hsc : NextIn s.snapshot D sc) (hD : Enters D s env t i args)
    (h : s.scanArgs env t i sc args = some (b, s', sc', args')) :
    Follows s.snapshot D sc sc' ∧ ∀ p, args.deadline s.snapshot = some p → args' = args ∧
      (s.Holds env t i args → b = true) ∧ (¬ s.Holds env t i args → b = false ∧ NextBy sc' p) := by
  cases args with
  | time tv =>
    simp only [scanArgs] at h
    split at h
    · next hcmp =>
      obtain ⟨rfl, -, rfl, rfl⟩ : true = b ∧ s = s' ∧ sc = sc' ∧ .time tv = args' := by simpa using h
      exact ⟨.refl hsc, fun p _ => ⟨rfl, fun _ => rfl, fun hnot => absurd hcmp hnot⟩⟩
    · next hcmp =>
      obtain ⟨hfollows, hby⟩ := timer_follows hsc
        { thread := t, index := i, value := tv, isFunc := false }
        (Time.soon_of_cmp hnow hD.near.1 hD.near.2 hcmp) (hD.mem _ rfl hcmp)
      obtain ⟨rfl, -, rfl, rfl⟩ : false = b ∧ s = s' ∧ sc.timer _ = sc' ∧ .time tv = args' := by
        simpa using h
      refine ⟨hfollows, fun p hp => ⟨rfl, fun hH => absurd hH hcmp, fun _ => ⟨rfl, ?_⟩⟩⟩
      obtain rfl : tv.micros = p := Option.some.inj hp
      exact hby
  | func f tv =>
    simp only [scanArgs] at h
    split at h
    · next hcall =>
      obtain ⟨rfl, -, rfl, rfl⟩ : true = b ∧ s = s' ∧ sc = sc' ∧ .func f tv = args' := by
        simpa using h
      exact ⟨.refl hsc, fun p _ => ⟨rfl, fun _ => rfl, fun hnot => absurd hcall hnot⟩⟩
    · next hcall =>
      obtain ⟨hfollows, hby⟩ := timer_follows hsc
        { thread := t, index := i, value := s.snapshot.add tv, isFunc := true }
        (Time.soon_add hnow hD.near.1 hD.near.2.1 (abs_lt.mp hD.near.2.2).2)
        (by simpa using hD.mem _ rfl hcall)
      obtain ⟨rfl, -, rfl, rfl⟩ : false = b ∧ s = s' ∧ sc.timer _ = sc' ∧ .func f tv = args' := by
        simpa using h
      refine ⟨hfollows, fun p hp => ⟨rfl, fun hH => absurd hH hcall, fun _ => ⟨rfl, ?_⟩⟩⟩
      obtain rfl : s.snapshot.micros + tv.micros = p := Option.some.inj hp
      rwa [Time.micros_add] at hby
  | sigs sigs sig =>
    simp only [scanArgs, Option.map_eq_some_iff, Prod.mk.injEq] at h
    obtain ⟨y, -, -, -, rfl, -⟩ := h
    exact ⟨.of_eq hsc rfl id, fun p hp => by cases hp⟩
  | tid tid goal =>
    have heq : sc' = sc := by cases tid <;> grind [scanArgs]
    exact ⟨.of_eq hsc (by rw [heq]) (by rw [heq]; exact id), fun p hp => by cases hp⟩
  | _ => exact ⟨.of_eq hsc (by grind [scanArgs]) (by grind [scanArgs]), fun p hp => by cases hp⟩

theorem scanEvent_timed (hnow : s.snapshot.Normal) (hsc : NextIn s.snapshot D sc)
    (hD : ev.evStatus = .pending → Enters D s env t i ev.evArgs)
    (h : s.scanEvent env t i sc ev = some (s', sc', ev')) :
    Follows s.snapshot D sc sc' ∧ (ev.evStatus = .pending → ∀ p,
      ev.evArgs.deadline s.snapshot = some p →
      Timed (s.Holds env t i ev.evArgs) p ev.evArgs sc' (some ev')) := by
  unfold scanEvent at h
  split at h
  · next hp =>
    simp only [Option.map_eq_some_iff] at h
    obtain ⟨⟨b, s₂, sc₂, args⟩, hargs, h⟩ := h
    obtain ⟨hfollows, hev⟩ := scanArgs_timed hnow hsc (hD hp) hargs
    cases b with
    | true =>
      obtain ⟨-, rfl, rfl⟩ : s₂ = s' ∧ { sc₂ with anyOccurred := true } = sc' ∧
          ⟨.occurred, args⟩ = ev' := by simpa using h
      refine ⟨hfollows.trans (.of_eq hfollows.next rfl fun _ => rfl), fun _ p hd => ?_⟩
      obtain ⟨rfl, -, hnot⟩ := hev p hd
      exact ⟨fun _ => ⟨rfl, rfl⟩, fun hH => absurd (hnot hH).1 (by decide)⟩
    | false =>
      obtain ⟨-, rfl, rfl⟩ : s₂ = s' ∧ sc₂ = sc' ∧ ⟨.pending, args⟩ = ev' := by simpa using h
      refine ⟨hfollows, fun _ p hd => ?_⟩
      obtain ⟨rfl, hocc, hnot⟩ := hev p hd
      exact ⟨fun hH => absurd (hocc hH) (by decide), fun hH => ⟨rfl, (hnot hH).2⟩⟩
  · next hp =>
    obtain ⟨-, rfl, -⟩ : s = s' ∧ sc = sc' ∧ ev = ev' := by simpa using h
    exact ⟨.refl hsc, fun hpend => absurd hpend hp⟩

/-! ## The sleep -/

/-- The deadlines of the pending events of the threads `ts`: the time points, and the next calls of
    the functions that have returned `FALSE`. -/
def deadlines (s : Sched τ) (env : Env τ) (ts : List τ) : Set ℤ :=
  {p | ∃ t ∈ ts, ∃ i ev, (s.tcb t).events[i]? = some ev ∧ ev.evStatus = .pending ∧
    (∀ f tv, ev.evArgs = .func f tv → s.call env t i f = false) ∧
    ev.evArgs.deadline s.snapshot = some p}

end Sched

/-- A timeout for the least one of the deadlines `D`, in a normalised form and not negative;
    without deadlines there is none. -/
def Sleeps (now : Time) (D : Set ℤ) : Option Time → Prop
  | none => D = ∅
  | some v => v.Normal ∧ 0 ≤ v.tvSec ∧ IsLeast D (now.micros + v.micros)

/-- The clock in a pass, in microseconds: when the first loop looks at the event number `i` of a
    thread, when `select(2)` is called and when it returns. -/
structure Clock (τ : Type*) where
  scans : τ → ℕ → ℤ
  call : ℤ
  wakeup : ℤ

namespace Clock

variable {τ : Type*}

/-- The clock has not gone back since `now`, and if the request `req` times out, then no earlier
    than asked. -/
structure Runs (c : Clock τ) (now : Time) (req : SelectReq) (res : SelectRes) : Prop where
  scans : ∀ t i, now.micros ≤ c.scans t i
  call : now.micros ≤ c.call
  timeout : res.rc = 0 → ∀ v, req.timeout = some v → c.call + v.micros ≤ c.wakeup

/-- When an event of a thread has been tagged, if the first loop has ended with `s₁`. -/
def tagged (c : Clock τ) (s₁ : Sched τ) (t : τ) (i : ℕ) : ℤ :=
  if (s₁.tcb t).events[i]?.any fun ev => ev.evStatus = .occurred then c.scans t i else c.wakeup

end Clock

namespace Sched

variable {τ : Type*} {s s' s₁ : Sched τ} {env : Env τ} {t : τ} {i : ℕ} {sc : Scan τ} {tv : Time}
  [DecidableEq τ] {a : QId → List (τ × ℤ)}

/-- The timer that is tagged is the next one, after a sleep that has timed out. -/
theorem elapse_occurs {args : EventArgs τ} {dopoll : Bool} {rc : ℤ}
    (hev : (s.tcb t).events[i]? = some ⟨.pending, args⟩)
    (hocc : ((s.elapse sc dopoll rc).2.tcb t).events[i]? = some ⟨.occurred, args⟩) :
    dopoll = false ∧ rc = 0 ∧ ∃ x, sc.nexttimer = some x ∧ x.thread = t ∧ x.index = i := by
  have hsame : (s.tcb t).events[i]? ≠ some ⟨.occurred, args⟩ := by simp [hev]
  unfold elapse at hocc
  split at hocc
  · next x hx =>
    split at hocc
    · next hrc =>
      simp only [Bool.and_eq_true, Bool.not_eq_true', decide_eq_true_eq] at hrc
      refine ⟨hrc.1, hrc.2, x, hx, ?_⟩
      split at hocc
      · exact absurd hocc hsame
      · by_contra hother
        refine hsame (Eq.trans ?_ hocc)
        by_cases ht : t = x.thread
        · subst ht
          have hi : x.index ≠ i := fun hi => hother ⟨rfl, hi⟩
          simp [tagOccurred, hi]
        · simp [tagOccurred, ht]
    · exact absurd hocc hsame
  · exact absurd hocc hsame

theorem sleep_time (env : Env τ) (sc : Scan τ) (dopoll : Bool)
    (hev : (s.tcb t).events[i]? = some ⟨.pending, .time tv⟩) :
    ∃ status, ((sleep env s sc dopoll).2.1.tcb t).events[i]? = some ⟨status, .time tv⟩ ∧
      (status = .pending ∨ status = .occurred) := by
  unfold sleep
  dsimp only
  rcases elapse_cases s sc (dopoll || sc.anyOccurred)
    (env.select .merged (s.mergedReq sc (dopoll || sc.anyOccurred))).rc with h | ⟨x, -, -, h⟩
  · exact ⟨.pending, by rwa [h], .inl rfl⟩
  · rw [h]
    by_cases ht : t = x.thread
    · subst ht
      by_cases hi : x.index = i
      · exact ⟨.occurred, by simp [tagOccurred, hi, hev], .inr rfl⟩
      · exact ⟨.pending, by simpa [tagOccurred, hi] using hev, .inl rfl⟩
    · exact ⟨.pending, by simpa [tagOccurred, ht] using hev, .inl rfl⟩

omit [DecidableEq τ] in
theorem lateEvent_time {l : Late} {o : Objects} (ev : Event τ) (hev : ev.evArgs = .time tv) :
    (lateEvent env t i l o ev).2.2 = ev := by
  obtain ⟨status, args⟩ := ev
  obtain rfl : args = .time tv := hev
  unfold lateEvent
  split
  · next hp =>
    obtain rfl : status = .pending := hp
    rfl
  · rfl

/-- The times of the pending events of the threads `ts` are near. -/
def NearTimes (s : Sched τ) (ts : List τ) : Prop :=
  ∀ t ∈ ts, ∀ ev ∈ (s.tcb t).events, ev.evStatus = .pending → ev.evArgs.Near s.snapshot

/-- What the first loop makes of the timer and function events. -/
theorem scan_timed (hnd : (s.queues.threads .WQ).Nodup) (hscan : scan env s = some (s₁, sc))
    (hnow : s.snapshot.Normal) (hnear : s.NearTimes (s.queues.threads .WQ)) :
    NextIn s.snapshot (s.deadlines env (s.queues.threads .WQ)) sc ∧
      ∀ t ∈ s.queues.threads .WQ, ∀ i ev p, (s.tcb t).events[i]? = some ev →
      ev.evStatus = .pending → ev.evArgs.deadline s.snapshot = some p →
      Timed (s.Holds env t i ev.evArgs) p ev.evArgs sc (s₁.tcb t).events[i]? := by
  have hinit : NextIn s.snapshot (s.deadlines env (s.queues.threads .WQ)) (Scan.init env) := by
    intro x hx
    cases hx
  have henters : ∀ t ∈ s.queues.threads .WQ, ∀ (i : ℕ) ev, (s.tcb t).events[i]? = some ev →
      ev.evStatus = .pending →
      Enters (s.deadlines env (s.queues.threads .WQ)) s env t i ev.evArgs := by
    intro t ht i ev hev hp
    refine ⟨hnear t ht ev (List.mem_of_getElem? hev) hp, fun p hd hnot => ?_⟩
    refine ⟨t, ht, i, ev, hev, hp, fun f tv hargs => ?_, hd⟩
    rw [hargs] at hnot
    simpa [Holds] using hnot
  have hr : ScanRule env s (s.queues.threads .WQ)
      (NextIn s.snapshot (s.deadlines env (s.queues.threads .WQ)))
      (Follows s.snapshot (s.deadlines env (s.queues.threads .WQ))) (fun t i ev sc r =>
        ev.evStatus = .pending → ∀ p, ev.evArgs.deadline s.snapshot = some p →
          Timed (s.Holds env t i ev.evArgs) p ev.evArgs sc r) :=
    { refl := .refl
      trans := .trans
      inv := Follows.next
      cancel := fun hsc => .of_eq hsc rfl fun _ => rfl
      event := fun {t i ev _ _ _ _ _} hs ht hev hsc h => by
        have hsnap := hs.snapshot
        obtain ⟨hfollows, htimed⟩ := scanEvent_timed (hsnap ▸ hnow) (hsnap ▸ hsc)
          (fun hp => (henters t ht i ev hev hp).scanned hs) h
        rw [hsnap] at hfollows htimed
        refine ⟨hfollows, fun hp p hd => ?_⟩
        rw [← hs.holds_iff hd]
        exact htimed hp p hd
      lasts := fun h h' hp p hd => (h hp p hd).follows h' }
  obtain ⟨hfollows, hevents⟩ := hr.scan hnd hinit hscan
  exact ⟨hfollows.next, fun t ht i ev p hev hp hd => hevents t ht i ev hev hp p hd⟩

/-- While nothing has occurred, the pass sleeps until the first deadline. -/
theorem mergedReq_sleeps (hnd : (s.queues.threads .WQ).Nodup)
    (hscan : scan env s = some (s₁, sc)) (hnow : s.snapshot.Normal)
    (hnear : s.NearTimes (s.queues.threads .WQ)) (hany : sc.anyOccurred = false) :
    Sleeps s.snapshot (s.deadlines env (s.queues.threads .WQ)) (s₁.mergedReq sc false).timeout := by
  obtain ⟨hnext, hevents⟩ := scan_timed hnd hscan hnow hnear
  have hby : ∀ p ∈ s.deadlines env (s.queues.threads .WQ), NextBy sc p := by
    rintro p ⟨t, ht, i, ev, hev, hp, -, hd⟩
    have htimed := hevents t ht i ev p hev hp hd
    refine (htimed.remains fun hH => ?_).2
    rw [(htimed.tagged hH).2] at hany
    cases hany
  have hsnap := (scanThreads_scanned hscan).1.snapshot
  simp only [mergedReq, Bool.false_eq_true, if_false]
  cases hx : sc.nexttimer with
  | none =>
    refine Set.eq_empty_iff_forall_notMem.mpr fun p hp => ?_
    obtain ⟨y, hy, -⟩ := hby p hp
    rw [hx] at hy
    cases hy
  | some x =>
    obtain ⟨hsoon, hmem⟩ := hnext x hx
    have hend : s.snapshot.micros + (x.value.sub s.snapshot).micros = x.value.micros := by
      rw [Time.micros_sub]
      omega
    rw [Option.map_some, hsnap]
    refine ⟨hsoon.timeout.1, hsoon.timeout.2, hend ▸ hmem, fun p hp => ?_⟩
    obtain ⟨y, hy, hle⟩ := hby p hp
    obtain rfl : x = y := Option.some.inj (hx.symm.trans hy)
    rwa [hend]

/-- A time point that is tagged after the sleep is the one the sleep was for. -/
theorem sleep_not_early {dopoll : Bool} {P : τ → ℕ → Event τ → Prop} {Q : Prop} {c : Clock τ}
    (hcol : Collected s.snapshot P Q sc) (hP : ∀ u i ev, P u i ev → (s.tcb u).events[i]? = some ev)
    (hclock : c.Runs s.snapshot (s.mergedReq sc (dopoll || sc.anyOccurred))
      (env.select .merged (s.mergedReq sc (dopoll || sc.anyOccurred))))
    (hpend : (s.tcb t).events[i]? = some ⟨.pending, .time tv⟩)
    (hocc : ((sleep env s sc dopoll).2.1.tcb t).events[i]? = some ⟨.occurred, .time tv⟩) :
    tv.micros ≤ c.wakeup := by
  obtain ⟨hpoll, hrc, x, hx, rfl, rfl⟩ := elapse_occurs hpend hocc
  obtain ⟨ev, hev, -, htime⟩ := hcol.timer x hx
  obtain rfl : ⟨.pending, .time tv⟩ = ev := Option.some.inj (hpend.symm.trans (hP _ _ _ hev))
  have htimeout : (s.mergedReq sc (dopoll || sc.anyOccurred)).timeout =
      some (tv.sub s.snapshot) := by
    simp only [mergedReq, hpoll, Bool.false_eq_true, if_false, hx, Option.map_some, htime.2.1]
  have hwakeup := hclock.timeout hrc _ htimeout
  have hcall := hclock.call
  rw [Time.micros_sub] at hwakeup
  omega

/-- A time point is tagged no earlier than it is. -/
theorem time_not_early (h : s.queues.Repr a) (hscan : scan env s = some (s₁, sc)) (dopoll : Bool)
    (hnow : s.snapshot.Normal) (hnear : s.NearTimes (keys (a .WQ))) {c : Clock τ}
    (hclock : c.Runs s.snapshot (s₁.mergedReq sc (dopoll || sc.anyOccurred))
      (env.select .merged (s₁.mergedReq sc (dopoll || sc.anyOccurred)))) :
    (s.eventmanager env dopoll).Ensures fun (_, s') => ∀ t ∈ keys (a .WQ), ∀ (i : ℕ) tv,
      (s.tcb t).events[i]? = some ⟨.pending, .time tv⟩ →
      ∃ status, (s'.tcb t).events[i]? = some ⟨status, .time tv⟩ ∧
        (status = .occurred → tv.micros ≤ c.tagged s₁ t i) := by
  have hts : s.queues.threads .WQ = keys (a .WQ) := h.threads
  have hnd : (s.queues.threads .WQ).Nodup := hts ▸ (h.queue .WQ).nodup
  have hcol := scan_collected hscan hnd
  have hsnap : s₁.snapshot = s.snapshot := (scanThreads_scanned hscan).1.snapshot
  apply (eventmanager_cleaned h hscan dopoll).mono
  rintro ⟨b, s'⟩ ⟨-, -, hc, -, -⟩ t ht i tv hev
  have htimed := (scan_timed hnd hscan hnow (hts ▸ hnear)).2 t (hts ▸ ht) i _ _ hev rfl rfl
  -- an event after the sleep is the one after the pass
  have hlate : ∀ status, ((sleep env s₁ sc dopoll).2.1.tcb t).events[i]? = some ⟨status, .time tv⟩ →
      (s'.tcb t).events[i]? = some ⟨status, .time tv⟩ :=
    fun status hslept => hc.plain ⟨ht, hslept⟩ fun l o => lateEvent_time _ rfl
  by_cases hH : s.Holds env t i (.time tv)
  · -- the first loop has tagged it
    obtain ⟨hocc, -⟩ := htimed.tagged hH
    refine ⟨.occurred, hlate _ (sleep_tagged env sc dopoll hocc rfl), fun _ => ?_⟩
    have hpast : tv.micros < s.snapshot.micros := by
      obtain ⟨hnormal, hclose⟩ := hnear t ht _ (List.mem_of_getElem? hev) rfl
      exact Time.micros_lt_of_cmp hnow hnormal hclose hH
    have hscans := hclock.scans t i
    simp only [Clock.tagged, hocc, Option.any_some, decide_true, if_true]
    omega
  · obtain ⟨hpend, -⟩ := htimed.remains hH
    obtain ⟨status, hslept, -⟩ := sleep_time env sc dopoll hpend
    refine ⟨status, hlate status hslept, ?_⟩
    rintro rfl
    simp only [Clock.tagged, hpend, Option.any_some, reduceCtorEq, decide_false,
      Bool.false_eq_true, if_false]
    rw [← hsnap] at hclock hcol
    exact sleep_not_early hcol (fun _ _ _ hev => hev.2) hclock hpend hslept

/-- Timers are neither early nor overslept: with a clock that does not go back, a time point is
    tagged no earlier than it is, and a pass that waits, because nothing has occurred, waits until
    the first deadline. -/
theorem timers_punctual (h : s.queues.Repr a) (hscan : scan env s = some (s₁, sc)) (dopoll : Bool)
    (hnow : s.snapshot.Normal) (hnear : s.NearTimes (keys (a .WQ))) (c : Clock τ)
    (hclock : c.Runs s.snapshot (s₁.mergedReq sc (dopoll || sc.anyOccurred))
      (env.select .merged (s₁.mergedReq sc (dopoll || sc.anyOccurred)))) :
    (s.eventmanager env dopoll).Ensures (fun (_, s') => ∀ t ∈ keys (a .WQ), ∀ (i : ℕ) tv,
      (s.tcb t).events[i]? = some ⟨.pending, .time tv⟩ →
      ∃ status, (s'.tcb t).events[i]? = some ⟨status, .time tv⟩ ∧
        (status = .occurred → tv.micros ≤ c.tagged s₁ t i)) ∧
    (dopoll = false → sc.anyOccurred = false → Sleeps s.snapshot (s.deadlines env (keys (a .WQ)))
      (s₁.mergedReq sc (dopoll || sc.anyOccurred)).timeout) := by
  refine ⟨time_not_early h hscan dopoll hnow hnear hclock, fun hpoll hany => ?_⟩
  have hts : s.queues.threads .WQ = keys (a .WQ) := h.threads
  have hnd : (s.queues.threads .WQ).Nodup := hts ▸ (h.queue .WQ).nodup
  rw [hpoll, hany, ← hts]
  exact mergedReq_sleeps hnd hscan hnow (hts ▸ hnear) hany

/-- The thread 1 waits for the first second, and for a function that is called again after one and
    a half seconds. -/
def timerWaiter : Sched ℕ :=
  mutexWaiter.modify 1 fun tcb => { tcb with
    events := [⟨.pending, .time ⟨1, 0⟩⟩, ⟨.pending, .func (.user 0) ⟨1, 500000⟩⟩] }

/-- The pass sleeps for a second. -/
theorem timers_punctual_second : ∃ s₁ sc, scan quiet timerWaiter = some (s₁, sc) ∧
    (s₁.mergedReq sc false).timeout = some ⟨1, 0⟩ ∧
    Sleeps .zero (timerWaiter.deadlines quiet [1]) (s₁.mergedReq sc false).timeout ∧
    (timerWaiter.eventmanager quiet false).Ensures fun (_, s') =>
      ∃ status, (s'.tcb 1).events[0]? = some ⟨status, .time ⟨1, 0⟩⟩ ∧
        (status = .occurred → 1000000 ≤ Clock.tagged ⟨fun _ _ => 0, 0, 1000000⟩ s₁ 1 0) := by
  have hrun : (scan quiet timerWaiter).any (fun x => !x.2.anyOccurred &&
      decide ((x.1.mergedReq x.2 false).timeout = some ⟨1, 0⟩)) = true := by decide
  cases hscan : scan quiet timerWaiter with
  | none => simp [hscan] at hrun
  | some x =>
    obtain ⟨s₁, sc⟩ := x
    obtain ⟨hany, htimeout⟩ : sc.anyOccurred = false ∧
        (s₁.mergedReq sc false).timeout = some ⟨1, 0⟩ := by simpa [hscan] using hrun
    have hnear : timerWaiter.NearTimes [1] := by
      intro t ht ev hev _
      obtain rfl : t = 1 := by simpa using ht
      simp only [timerWaiter, modify_tcb, if_true, List.mem_cons, List.not_mem_nil,
        or_false] at hev
      rcases hev with rfl | rfl
      · exact ⟨⟨by decide, by decide⟩, by decide⟩
      · exact ⟨⟨by decide, by decide⟩, by decide, by decide⟩
    have hclock : (⟨fun _ _ => 0, 0, 1000000⟩ : Clock ℕ).Runs timerWaiter.snapshot
        (s₁.mergedReq sc (false || sc.anyOccurred))
        ((quiet : Env ℕ).select .merged (s₁.mergedReq sc (false || sc.anyOccurred))) := by
      refine ⟨fun _ _ => le_rfl, le_rfl, fun _ v hv => ?_⟩
      rw [hany, Bool.or_false, htimeout] at hv
      obtain rfl := Option.some.inj hv
      decide
    obtain ⟨hearly, hsleeps⟩ := timers_punctual (s := timerWaiter) mutexWaiter_repr hscan false
      ⟨by decide, by decide⟩ hnear _ hclock
    refine ⟨s₁, sc, rfl, htimeout, ?_, hearly.mono ?_⟩
    · have hsleep := hsleeps rfl hany
      rw [hany] at hsleep
      exact hsleep
    · rintro ⟨b, s'⟩ hpass
      exact hpass 1 (by simp) 0 ⟨1, 0⟩ rfl

end Sched

end Pth
