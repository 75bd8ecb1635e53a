-- SUMMARY: The first loop of an event manager pass: what it changes, what it tags and what it collects.
import Pth.Lib.Ensures
import Pth.Sched.EventManager

/-!
# Scanning

The first loop looks at every pending event of every waiting thread. It changes
events and pending signals only, tags the events whose condition holds, and
collects file descriptors, signals and the next timer for the sleep. Whatever it
collects comes from an event it has left pending. -/

namespace Pth

/-- Scanning changes the events of a thread and its pending signals only. -/
structure Tcb.Scanned {τ : Type*} (x y : Tcb τ) : Prop where
  prio : y.prio = x.prio
  state : y.state = x.state
  joinable : y.joinable = x.joinable
  joinArg : y.joinArg = x.joinArg
  stackguard : y.stackguard = x.stackguard
  cancelreq : y.cancelreq = x.cancelreq
  cancelstate : y.cancelstate = x.cancelstate

theorem Tcb.Scanned.refl {τ : Type*} (x : Tcb τ) : x.Scanned x :=
  ⟨rfl, rfl, rfl, rfl, rfl, rfl, rfl⟩

namespace Sched

variable {τ : Type*}

/-- What the scan and the timer may change. -/
structure Scanned (s s' : Sched τ) : Prop where
  queues : s'.queues = s.queues
  live : s'.live = s.live
  pthMain : s'.pthMain = s.pthMain
  pthSched : s'.pthSched = s.pthSched
  pthCurrent : s'.pthCurrent = s.pthCurrent
  favournew : s'.favournew = s.favournew
  snapshot : s'.snapshot = s.snapshot
  sigpipe : s'.sigpipe = s.sigpipe
  deletes : s'.deletes = s.deletes
  tcb : ∀ t, (s.tcb t).Scanned (s'.tcb t)

theorem Scanned.refl (s : Sched τ) : s.Scanned s :=
  ⟨rfl, rfl, rfl, rfl, rfl, rfl, rfl, rfl, rfl, fun _ => .refl _⟩

theorem Scanned.trans {s₁ s₂ s₃ : Sched τ} (h : s₁.Scanned s₂) (h' : s₂.Scanned s₃) :
    s₁.Scanned s₃ := by
  constructor <;> grind [Scanned, Tcb.Scanned]

variable [DecidableEq τ] {s s' : Sched τ} {env : Env τ} {t : τ}

theorem scanned_modify {f : Tcb τ → Tcb τ} (hf : (s.tcb t).Scanned (f (s.tcb t))) :
    s.Scanned (s.modify t f) :=
  ⟨rfl, rfl, rfl, rfl, rfl, rfl, rfl, rfl, rfl, fun u => by
    by_cases hu : u = t
    · subst hu
      simpa using hf
    · simpa [hu] using Tcb.Scanned.refl _⟩

/-! ## Scanning -/

/-- Scanning one event changes no event of any thread. -/
theorem scanArgs_scanned {i : ℕ} {sc sc' : Scan τ} {args args' : EventArgs τ} {b : Bool}
    (h : s.scanArgs env t i sc args = some (b, s', sc', args')) :
    s.Scanned s' ∧ ∀ u, (s'.tcb u).events = (s.tcb u).events := by
  have hstay : s.Scanned s ∧ ∀ u, (s.tcb u).events = (s.tcb u).events := ⟨.refl s, fun _ => rfl⟩
  cases args with
  | sigs sigs sig =>
    simp only [scanArgs, Option.map_eq_some_iff, Prod.mk.injEq] at h
    obtain ⟨y, _, -, rfl, -, -⟩ := h
    exact ⟨scanned_modify ⟨rfl, rfl, rfl, rfl, rfl, rfl, rfl⟩, fun u => by grind⟩
  | cond c =>
    simp only [scanArgs] at h
    split at h
    · simp only [Option.some.injEq, Prod.mk.injEq] at h
      obtain ⟨-, rfl, -, -⟩ := h
      exact ⟨⟨rfl, rfl, rfl, rfl, rfl, rfl, rfl, rfl, rfl,
        fun _ => .refl _⟩, fun _ => rfl⟩
    · grind
  | tid tid goal => cases tid <;> grind [scanArgs]
  | _ => grind [scanArgs]

/-- A scanned event keeps its kind; it is left alone unless it is pending. -/
theorem scanEvent_scanned {i : ℕ} {sc sc' : Scan τ} {ev ev' : Event τ}
    (h : s.scanEvent env t i sc ev = some (s', sc', ev')) :
    s.Scanned s' ∧ (∀ u, (s'.tcb u).events = (s.tcb u).events) ∧
      (ev.evStatus ≠ .pending → ev' = ev) := by
  unfold scanEvent at h
  split at h
  · next hp =>
    simp only [Option.map_eq_some_iff] at h
    obtain ⟨⟨b, s₁, sc₁, args⟩, hargs, h⟩ := h
    obtain rfl : s₁ = s' := by grind
    exact ⟨(scanArgs_scanned hargs).1, (scanArgs_scanned hargs).2, fun hne => absurd hp hne⟩
  · obtain ⟨rfl, -, rfl⟩ : s = s' ∧ sc = sc' ∧ ev = ev' := by simpa using h
    exact ⟨.refl s, fun _ => rfl, fun _ => rfl⟩

theorem scanEvents_scanned {i : ℕ} {sc sc' : Scan τ} {evs evs' : List (Event τ)}
    (h : scanEvents env t i s sc evs = some (s', sc', evs')) :
    s.Scanned s' ∧ (∀ u, (s'.tcb u).events = (s.tcb u).events) := by
  induction evs generalizing i s sc evs' with
  | nil =>
    obtain ⟨rfl, -, -⟩ : s = s' ∧ sc = sc' ∧ [] = evs' := by simpa [scanEvents] using h
    exact ⟨.refl s, fun _ => rfl⟩
  | cons ev evs ih =>
    simp only [scanEvents, Option.bind_eq_some_iff, Option.map_eq_some_iff] at h
    obtain ⟨⟨s₁, sc₁, ev'⟩, hev, ⟨s₂, sc₂, evs₂⟩, hevs, heq⟩ := h
    obtain ⟨rfl, rfl, rfl⟩ : s₂ = s' ∧ sc₂ = sc' ∧ ev' :: evs₂ = evs' := by simpa using heq
    obtain ⟨h₁, he₁, -⟩ := scanEvent_scanned hev
    obtain ⟨h₂, he₂⟩ := ih hevs
    exact ⟨h₁.trans h₂, fun u => (he₂ u).trans (he₁ u)⟩

/-- Scanning a thread leaves the events of all others alone. -/
theorem scanThread_scanned {sc sc' : Scan τ} (h : scanThread env s sc t = some (s', sc')) :
    s.Scanned s' ∧ ∀ u, u ≠ t → (s'.tcb u).events = (s.tcb u).events := by
  simp only [scanThread, Option.map_eq_some_iff] at h
  obtain ⟨⟨s₁, sc₁, evs⟩, hevs, heq⟩ := h
  obtain ⟨rfl, -⟩ : (s₁.modify t fun tcb => { tcb with events := evs }) = s' ∧ sc₁ = sc' := by
    simpa using heq
  obtain ⟨h₁, he₁⟩ := scanEvents_scanned hevs
  refine ⟨h₁.trans (scanned_modify ⟨rfl, rfl, rfl, rfl, rfl, rfl, rfl⟩), fun u hu => ?_⟩
  simpa [hu] using he₁ u

theorem scanThreads_scanned {x y : Sched τ × Scan τ} {ts : List τ}
    (h : scanThreads env x ts = some y) :
    x.1.Scanned y.1 ∧ ∀ u, u ∉ ts → (y.1.tcb u).events = (x.1.tcb u).events := by
  refine Option.foldlM_invariant (P := fun y : Sched τ × Scan τ =>
    x.1.Scanned y.1 ∧ ∀ u, u ∉ ts → (y.1.tcb u).events = (x.1.tcb u).events) ?_
    ⟨.refl x.1, fun _ _ => rfl⟩ h
  rintro z t ht z' ⟨hz, hev⟩ hscan
  obtain ⟨h₁, he₁⟩ := scanThread_scanned hscan
  exact ⟨hz.trans h₁, fun u hu => (he₁ u fun hut => hu (hut ▸ ht)).trans (hev u hu)⟩

/-! ## Tagging -/

/-- The condition of a timer, message, mutex, condition variable, thread or function
    event. -/
def Holds (s : Sched τ) (env : Env τ) (t : τ) (i : ℕ) : EventArgs τ → Prop
  | .time tv => tv.cmp s.snapshot < 0
  | .msg mp => s.objects.mpElements mp > 0
  | .mutex m => s.objects.mxLocked m = false
  | .cond c => (s.objects.cond c).signaled ∧
      ((s.objects.cond c).broadcast ∨ (s.objects.cond c).handled = false)
  | .tid none _ => s.queues.elements .DQ > 0
  | .tid (some u) goal => s.stateOf env u = goal
  | .func f _ => s.call env t i f
  | .fd _ _ | .select _ _ _ _ _ | .sigs _ _ => False

/-- An event whose condition holds is found to have occurred. -/
theorem scanArgs_holds {i : ℕ} {args : EventArgs τ} (sc : Scan τ) (h : s.Holds env t i args) :
    ∃ s' sc', s.scanArgs env t i sc args = some (true, s', sc', args) := by
  cases args with
  | cond c =>
    obtain ⟨hsig, hrest⟩ := h
    simp only [scanArgs]
    split
    · exact ⟨_, _, rfl⟩
    · refine ⟨s, sc, ?_⟩
      rcases hrest with hb | hh <;> simp_all [condOccurs]
  | tid tid goal => cases tid <;> simp_all [Holds, scanArgs]
  | _ => simp_all [Holds, scanArgs]

/-- Scanning the events of a thread one after the other. -/
theorem scanEvents_append {i : ℕ} {sc sc' : Scan τ} {E F evs : List (Event τ)}
    (h : scanEvents env t i s sc (E ++ F) = some (s', sc', evs)) :
    ∃ s₁ sc₁ E' F', scanEvents env t i s sc E = some (s₁, sc₁, E') ∧ E'.length = E.length ∧
      scanEvents env t (i + E.length) s₁ sc₁ F = some (s', sc', F') ∧ evs = E' ++ F' := by
  induction E generalizing i s sc evs with
  | nil => exact ⟨s, sc, [], evs, rfl, rfl, by simpa using h, rfl⟩
  | cons ev E ih =>
    simp only [List.cons_append, scanEvents, Option.bind_eq_some_iff,
      Option.map_eq_some_iff] at h
    obtain ⟨⟨s₁, sc₁, ev'⟩, hev, ⟨s₂, sc₂, evs₂⟩, hevs, heq⟩ := h
    obtain ⟨rfl, rfl, rfl⟩ : s₂ = s' ∧ sc₂ = sc' ∧ ev' :: evs₂ = evs := by simpa using heq
    obtain ⟨s₃, sc₃, E', F', hE, hlen, hF, rfl⟩ := ih hevs
    refine ⟨s₃, sc₃, ev' :: E', F', ?_, by simp [hlen], ?_, rfl⟩
    · simp [scanEvents, hev, hE]
    · rw [List.length_cons, Nat.add_comm E.length 1, ← Nat.add_assoc]
      exact hF

/-- The state in which the first loop looks at the event behind `E` of the thread `t`
    behind `A`. -/
def scanPoint (env : Env τ) (s : Sched τ) (A : List τ) (t : τ) (E : List (Event τ)) :
    Option (Sched τ) :=
  (scanThreads env (s, Scan.init env) A).bind fun (s₁, sc₁) =>
    (scanEvents env t 0 s₁ (s₁.noticeCancel sc₁ t) E).map fun r => r.1

/-- A pending event whose condition holds when it is scanned is tagged. -/
theorem scanThreads_tags {sc : Scan τ} {A B : List τ} {E F : List (Event τ)} {ev : Event τ}
    {s₁ : Sched τ} (hs : scanThreads env (s, Scan.init env) (A ++ t :: B) = some (s', sc))
    (htA : t ∉ A) (htB : t ∉ B) (hev : (s.tcb t).events = E ++ ev :: F)
    (hp : ev.evStatus = .pending) (hpoint : scanPoint env s A t E = some s₁)
    (hold : s₁.Holds env t E.length ev.evArgs) :
    ∃ ev', (s'.tcb t).events[E.length]? = some ev' ∧ ev'.evStatus = .occurred := by
  simp only [scanThreads, List.foldlM_append, List.foldlM_cons, Option.bind_eq_bind,
    Option.bind_eq_some_iff] at hs
  obtain ⟨⟨s₂, sc₂⟩, hA, ⟨s₃, sc₃⟩, ht, hB⟩ := hs
  have hev₂ : (s₂.tcb t).events = E ++ ev :: F := by
    rw [(scanThreads_scanned hA).2 t htA]
    exact hev
  simp only [scanThread, hev₂, Option.map_eq_some_iff] at ht
  obtain ⟨⟨s₄, sc₄, evs⟩, hevs, heq⟩ := ht
  obtain ⟨rfl, rfl⟩ : (s₄.modify t fun tcb => { tcb with events := evs }) = s₃ ∧ sc₄ = sc₃ := by
    simpa using heq
  obtain ⟨s₅, sc₅, E', F', hE, hlen, hF, rfl⟩ := scanEvents_append hevs
  -- the point reached is the one in which the event's condition holds
  obtain rfl : s₅ = s₁ := by
    simp only [scanPoint, scanThreads, hA, Option.bind_some, hE, Option.map_some,
      Option.some.injEq] at hpoint
    exact hpoint
  obtain ⟨s₆, sc₆, hargs⟩ := scanArgs_holds sc₅ hold
  simp only [scanEvents, scanEvent, hp, Nat.zero_add, hargs, Option.map_some,
    Option.bind_some, Option.map_eq_some_iff, if_true] at hF
  obtain ⟨⟨s₇, sc₇, F''⟩, -, heq⟩ := hF
  obtain ⟨-, -, rfl⟩ : s₇ = s₄ ∧ sc₇ = sc₄ ∧
      { evStatus := .occurred, evArgs := ev.evArgs } :: F'' = F' := by
    simpa using heq
  refine ⟨{ evStatus := .occurred, evArgs := ev.evArgs }, ?_, rfl⟩
  rw [(scanThreads_scanned hB).2 t htB]
  simp [hlen.symm]

end Sched

/-! ## Collecting -/

/-- The three sets of `select(2)`. -/
inductive FdKind where
  | read
  | write
  | except

def FdSets.bit (x : FdSets) : FdKind → FdSet
  | .read => x.r
  | .write => x.w
  | .except => x.e

/-- The sets a file descriptor event asks for. -/
def FdGoal.asks (goal : FdGoal) : FdKind → Bool
  | .read => goal.readable
  | .write => goal.writeable
  | .except => goal.exception

@[simp] theorem FdSets.zero_bit (k : FdKind) (n : ℕ) : zero.bit k n = false := by
  cases k <;> rfl

@[simp] theorem FdSets.add_bit (x : FdSets) (goal : FdGoal) (d : ℕ) (k : FdKind) (n : ℕ) :
    (x.add goal d).bit k n = (x.bit k n || (goal.asks k && decide (n = d))) := by
  cases k <;> simp only [add, bit, FdGoal.asks] <;> split <;> by_cases hn : n = d <;> simp_all

namespace EventArgs

variable {τ : Type*}

/-- The file descriptors an event waits for. -/
def fds : EventArgs τ → FdSets
  | .fd goal d => FdSets.zero.add goal d
  | .select _ nfd rfds wfds efds =>
    { r := fdsMerge nfd rfds FdSets.zero.r, w := fdsMerge nfd wfds FdSets.zero.w,
      e := fdsMerge nfd efds FdSets.zero.e }
  | _ => .zero

/-- Whether an event waits for a signal. -/
def awaits (n : ℕ) : EventArgs τ → Bool
  | .sigs ss _ => ss n
  | _ => false

/-- The timer `x` is the one of an event that was still pending at the time `now`. -/
def Times (now : Time) (x : NextTimer τ) : EventArgs τ → Prop
  | .time tv => x.isFunc = false ∧ x.value = tv ∧ ¬ tv.cmp now < 0
  | .func _ tv => x.isFunc = true ∧ x.value = now.add tv
  | _ => False

end EventArgs

section

variable {τ : Type*}

theorem SigScan.step_catches {sigs : SigSet} {m : ℕ} {x y : SigScan}
    (h : SigScan.step sigs x m = some y) :
    ∀ n, y.catches n → x.catches n ∨ (n = m ∧ sigs m) := by
  unfold SigScan.step at h
  split at h
  · simp only [Option.map_eq_some_iff] at h
    obtain ⟨z, hz, rfl⟩ := h
    have hz' : z.catches = x.catches := by
      grind [SigScan.ownSignal, Option.map_eq_some_iff]
    intro n hn
    simp only [SigScan.processSignal] at hn
    split at hn
    · exact .inl (hz' ▸ hn)
    · rw [hz'] at hn
      grind [Function.update_apply]
  · obtain rfl : x = y := by simpa using h
    exact fun n hn => .inl hn

/-- The loop over the signals of an event catches signals of the event only. -/
theorem SigScan.foldlM_catches {sigs : SigSet} {l : List ℕ} {x y : SigScan}
    (h : l.foldlM (SigScan.step sigs) x = some y) :
    ∀ n, y.catches n → x.catches n ∨ (n ∈ l ∧ sigs n) := by
  refine Option.foldlM_invariant (P := fun y => ∀ n, y.catches n → x.catches n ∨
    (n ∈ l ∧ sigs n)) ?_ (fun n hn => .inl hn) h
  intro z m hm z' hz hstep n hn
  rcases SigScan.step_catches hstep n hn with hn | ⟨rfl, hn⟩
  · exact hz n hn
  · exact .inr ⟨hm, hn⟩

theorem Scan.timer_eq (sc : Scan τ) (x : NextTimer τ) :
    ∃ y, sc.timer x = { sc with nexttimer := y } ∧ (y = some x ∨ y = sc.nexttimer) := by
  unfold Scan.timer
  split
  · exact ⟨_, rfl, .inl rfl⟩
  · next y hy =>
    split
    · exact ⟨_, rfl, .inl rfl⟩
    · exact ⟨sc.nexttimer, rfl, .inr rfl⟩

/-- What the event number `i` of the thread `t` adds to the collection; `b` says
    whether it occurred. -/
structure Scan.Gathers (now : Time) (t : τ) (i : ℕ) (b : Bool) (args : EventArgs τ)
    (sc sc' : Scan τ) : Prop where
  bits : ∀ k n, sc'.sets.bit k n → sc.sets.bit k n ∨ (b = false ∧ args.fds.bit k n)
  fdmax : sc.fdmax ≤ sc'.fdmax
  within : ∀ k (n : ℕ), args.fds.bit k n → n ≤ sc'.fdmax
  catches : ∀ n, sc'.sigcatch n → sc.sigcatch n ∨ (n ∈ signals ∧ args.awaits n)
  timer : ∀ x, sc'.nexttimer = some x → sc.nexttimer = some x ∨
    (b = false ∧ x.thread = t ∧ x.index = i ∧ args.Times now x)
  anyOccurred : sc'.anyOccurred = sc.anyOccurred

theorem Scan.Gathers.of_timer {now : Time} {t : τ} {i : ℕ} {b : Bool} {args : EventArgs τ}
    {sc : Scan τ} (y : Option (NextTimer τ)) (hfds : args.fds = .zero)
    (hy : ∀ x, y = some x → sc.nexttimer = some x ∨
      (b = false ∧ x.thread = t ∧ x.index = i ∧ args.Times now x)) :
    Scan.Gathers now t i b args sc { sc with nexttimer := y } where
  bits _ _ hn := .inl hn
  fdmax := Int.le_refl _
  within k n hn := by simp [hfds] at hn
  catches _ hn := .inl hn
  timer := hy
  anyOccurred := rfl

/-- What the scan has collected comes from events in `P` that it has left pending,
    and if it has seen something happen, this was an event in `P` or, as `Q` says, a
    cancellation request. -/
structure Collected (now : Time) (P : τ → ℕ → Event τ → Prop) (Q : Prop) (sc : Scan τ) :
    Prop where
  bits : ∀ k fd, sc.sets.bit k fd → fd ≤ sc.fdmax ∧
    ∃ t i ev, P t i ev ∧ ev.evStatus = .pending ∧ ev.evArgs.fds.bit k fd
  catches : ∀ n, sc.sigcatch n → n ∈ signals ∧ (sc.anyOccurred ∨
    ∃ t i ev, P t i ev ∧ ev.evStatus = .pending ∧ ev.evArgs.awaits n)
  timer : ∀ x, sc.nexttimer = some x →
    ∃ ev, P x.thread x.index ev ∧ ev.evStatus = .pending ∧ ev.evArgs.Times now x
  anyOccurred : sc.anyOccurred → Q ∨ ∃ t i ev, P t i ev ∧ ev.evStatus ≠ .pending

theorem Collected.mono {now : Time} {P P' : τ → ℕ → Event τ → Prop} {Q Q' : Prop} {sc : Scan τ}
    (h : Collected now P Q sc) (hP : ∀ t i ev, P t i ev → P' t i ev) (hQ : Q → Q') :
    Collected now P' Q' sc where
  bits k fd hfd := by
    obtain ⟨hmax, t, i, ev, hev, hrest⟩ := h.bits k fd hfd
    exact ⟨hmax, t, i, ev, hP t i ev hev, hrest⟩
  catches n hn := by
    obtain ⟨hsig, hocc | ⟨t, i, ev, hev, hrest⟩⟩ := h.catches n hn
    · exact ⟨hsig, .inl hocc⟩
    · exact ⟨hsig, .inr ⟨t, i, ev, hP t i ev hev, hrest⟩⟩
  timer x hx := by
    obtain ⟨ev, hev, hrest⟩ := h.timer x hx
    exact ⟨ev, hP _ _ ev hev, hrest⟩
  anyOccurred ha := by
    rcases h.anyOccurred ha with hq | ⟨t, i, ev, hev, hne⟩
    · exact .inl (hQ hq)
    · exact .inr ⟨t, i, ev, hP t i ev hev, hne⟩

/-- An event that stays pending is added to the collection. -/
theorem Collected.pending {now : Time} {P : τ → ℕ → Event τ → Prop} {Q : Prop} {t : τ} {i : ℕ}
    {args : EventArgs τ} {sc sc' : Scan τ} (h : Collected now P Q sc)
    (hg : Scan.Gathers now t i false args sc sc')
    (hnew : P t i { evStatus := .pending, evArgs := args }) : Collected now P Q sc' where
  bits k n hn := by
    rcases hg.bits k n hn with hn | ⟨-, hn⟩
    · obtain ⟨hmax, hev⟩ := h.bits k n hn
      exact ⟨Int.le_trans hmax hg.fdmax, hev⟩
    · exact ⟨hg.within k n hn, t, i, _, hnew, rfl, hn⟩
  catches n hn := by
    rcases hg.catches n hn with hn | ⟨hsig, hn⟩
    · rw [hg.anyOccurred]
      exact h.catches n hn
    · exact ⟨hsig, .inr ⟨t, i, _, hnew, rfl, hn⟩⟩
  timer x hx := by
    rcases hg.timer x hx with hx | ⟨-, rfl, rfl, hx⟩
    · exact h.timer x hx
    · exact ⟨_, hnew, rfl, hx⟩
  anyOccurred ha := h.anyOccurred (hg.anyOccurred ▸ ha)

/-- An event that occurred adds at most caught signals to the collection. -/
theorem Collected.occurred {now : Time} {P : τ → ℕ → Event τ → Prop} {Q : Prop} {t : τ} {i : ℕ}
    {args : EventArgs τ} {sc sc' : Scan τ} (h : Collected now P Q sc)
    (hg : Scan.Gathers now t i true args sc sc')
    (hnew : P t i { evStatus := .occurred, evArgs := args }) :
    Collected now P Q { sc' with anyOccurred := true } where
  bits k n hn := by
    rcases hg.bits k n hn with hn | ⟨hb, -⟩
    · obtain ⟨hmax, hev⟩ := h.bits k n hn
      exact ⟨Int.le_trans hmax hg.fdmax, hev⟩
    · contradiction
  catches n hn := by
    rcases hg.catches n hn with hn | ⟨hsig, hn⟩
    · exact ⟨(h.catches n hn).1, .inl rfl⟩
    · exact ⟨hsig, .inl rfl⟩
  timer x hx := by
    rcases hg.timer x hx with hx | ⟨hb, -⟩
    · exact h.timer x hx
    · contradiction
  anyOccurred _ := .inr ⟨t, i, _, hnew, by simp⟩

end

namespace Sched

variable {τ : Type*} [DecidableEq τ] {s s' : Sched τ} {env : Env τ} {t : τ}

theorem scanArgs_gathers {i : ℕ} {sc sc' : Scan τ} {args args' : EventArgs τ} {b : Bool}
    (h : s.scanArgs env t i sc args = some (b, s', sc', args')) :
    Scan.Gathers s.snapshot t i b args' sc sc' := by
  have hnone : ∀ args : EventArgs τ, args.fds = .zero →
      Scan.Gathers s.snapshot t i b args sc sc := fun args hfds =>
    Scan.Gathers.of_timer sc.nexttimer hfds fun x hx => .inl hx
  cases args with
  | fd goal d =>
    obtain ⟨rfl, rfl, rfl, rfl⟩ : false = b ∧ s = s' ∧
        { sc with sets := sc.sets.add goal d, fdmax := max sc.fdmax d } = sc' ∧
        .fd goal d = args' := by simpa [scanArgs] using h
    refine ⟨?_, by dsimp only; omega, ?_, fun n hn => .inl hn, fun x hx => .inl hx, rfl⟩
    · intro k n hn
      simpa [EventArgs.fds] using hn
    · intro k n hn
      obtain ⟨-, rfl⟩ : goal.asks k ∧ n = d := by simpa [EventArgs.fds] using hn
      dsimp only
      omega
  | select n nfd rfds wfds efds =>
    obtain ⟨rfl, rfl, rfl, rfl⟩ : false = b ∧ s = s' ∧
        { sc with
          sets := { r := fdsMerge nfd rfds sc.sets.r, w := fdsMerge nfd wfds sc.sets.w,
                    e := fdsMerge nfd efds sc.sets.e }
          fdmax := max sc.fdmax (nfd - 1) } = sc' ∧
        .select n nfd rfds wfds efds = args' := by simpa [scanArgs] using h
    refine ⟨?_, by dsimp only; omega, ?_, fun n hn => .inl hn, fun x hx => .inl hx, rfl⟩
    · intro k m hm
      cases k <;> simpa [FdSets.bit, EventArgs.fds, fdsMerge, FdSets.zero] using hm
    · intro k m hm
      have hlt : (m : ℤ) < nfd := by
        cases k <;> simp [FdSets.bit, EventArgs.fds, fdsMerge, FdSets.zero] at hm <;> exact hm.1
      dsimp only
      omega
  | sigs sigs sig =>
    simp only [scanArgs, Option.map_eq_some_iff, Prod.mk.injEq] at h
    obtain ⟨y, hy, rfl, rfl, rfl, rfl⟩ := h
    refine ⟨fun k n hn => .inl hn, Int.le_refl _, ?_, ?_, fun x hx => .inl hx, rfl⟩
    · intro k n hn
      simp [EventArgs.fds] at hn
    · exact SigScan.foldlM_catches hy
  | time tv =>
    simp only [scanArgs] at h
    split at h
    · obtain ⟨-, -, rfl, rfl⟩ : true = b ∧ s = s' ∧ sc = sc' ∧ .time tv = args' := by simpa using h
      exact hnone _ rfl
    · next hcmp =>
      obtain ⟨y, hy, hn⟩ := sc.timer_eq { thread := t, index := i, value := tv, isFunc := false }
      rw [hy] at h
      obtain ⟨rfl, rfl, rfl, rfl⟩ : false = b ∧ s = s' ∧ { sc with nexttimer := y } = sc' ∧
        .time tv = args' := by simpa using h
      refine .of_timer y rfl fun x hx => ?_
      rcases hn with rfl | rfl
      · obtain rfl : _ = x := by simpa using hx
        exact .inr ⟨rfl, rfl, rfl, rfl, rfl, hcmp⟩
      · exact .inl hx
  | func f tv =>
    simp only [scanArgs] at h
    split at h
    · obtain ⟨-, -, rfl, rfl⟩ : true = b ∧ s = s' ∧ sc = sc' ∧ .func f tv = args' := by
        simpa using h
      exact hnone _ rfl
    · obtain ⟨y, hy, hn⟩ := sc.timer_eq
        { thread := t, index := i, value := s.snapshot.add tv, isFunc := true }
      rw [hy] at h
      obtain ⟨rfl, rfl, rfl, rfl⟩ : false = b ∧ s = s' ∧ { sc with nexttimer := y } = sc' ∧
        .func f tv = args' := by simpa using h
      refine .of_timer y rfl fun x hx => ?_
      rcases hn with rfl | rfl
      · obtain rfl : _ = x := by simpa using hx
        exact .inr ⟨rfl, rfl, rfl, rfl, rfl⟩
      · exact .inl hx
  | tid tid goal =>
    have hsc : sc' = sc ∧ args' = .tid tid goal := by cases tid <;> grind [scanArgs]
    rw [hsc.1, hsc.2]
    exact hnone _ rfl
  | msg mp =>
    have hsc : sc' = sc ∧ args' = .msg mp := by grind [scanArgs]
    rw [hsc.1, hsc.2]
    exact hnone _ rfl
  | mutex m =>
    have hsc : sc' = sc ∧ args' = .mutex m := by grind [scanArgs]
    rw [hsc.1, hsc.2]
    exact hnone _ rfl
  | cond c =>
    have hsc : sc' = sc ∧ args' = .cond c := by grind [scanArgs]
    rw [hsc.1, hsc.2]
    exact hnone _ rfl

theorem scanEvent_collected {i : ℕ} {sc sc' : Scan τ} {ev ev' : Event τ}
    {P : τ → ℕ → Event τ → Prop} {Q : Prop}
    (h : s.scanEvent env t i sc ev = some (s', sc', ev'))
    (hc : Collected s.snapshot P Q sc) (hP : P t i ev') : Collected s.snapshot P Q sc' := by
  unfold scanEvent at h
  split at h
  · simp only [Option.map_eq_some_iff] at h
    obtain ⟨⟨b, s₁, sc₁, args⟩, hargs, h⟩ := h
    have hg := scanArgs_gathers hargs
    cases b with
    | false =>
      obtain ⟨-, rfl, rfl⟩ : s₁ = s' ∧ sc₁ = sc' ∧ { evStatus := .pending, evArgs := args } = ev' := by
        simpa using h
      exact hc.pending hg hP
    | true =>
      obtain ⟨-, rfl, rfl⟩ : s₁ = s' ∧ { sc₁ with anyOccurred := true } = sc' ∧
          { evStatus := .occurred, evArgs := args } = ev' := by
        simpa using h
      exact hc.occurred hg hP
  · obtain ⟨-, rfl, -⟩ : s = s' ∧ sc = sc' ∧ ev = ev' := by simpa using h
    exact hc

theorem scanEvents_collected {i : ℕ} {sc sc' : Scan τ} {evs evs' : List (Event τ)}
    {P : τ → ℕ → Event τ → Prop} {Q : Prop}
    (h : scanEvents env t i s sc evs = some (s', sc', evs'))
    (hc : Collected s.snapshot P Q sc) (hP : ∀ j ev, evs'[j]? = some ev → P t (i + j) ev) :
    Collected s.snapshot P Q sc' := by
  induction evs generalizing i s sc evs' with
  | nil =>
    obtain ⟨-, rfl, -⟩ : s = s' ∧ sc = sc' ∧ [] = evs' := by simpa [scanEvents] using h
    exact hc
  | cons ev evs ih =>
    simp only [scanEvents, Option.bind_eq_some_iff, Option.map_eq_some_iff] at h
    obtain ⟨⟨s₁, sc₁, ev'⟩, hev, ⟨s₂, sc₂, evs₂⟩, hevs, heq⟩ := h
    obtain ⟨rfl, rfl, rfl⟩ : s₂ = s' ∧ sc₂ = sc' ∧ ev' :: evs₂ = evs' := by simpa using heq
    have hsnap : s₁.snapshot = s.snapshot := (scanEvent_scanned hev).1.snapshot
    have hc₁ := scanEvent_collected hev hc (hP 0 ev' rfl)
    rw [← hsnap] at hc₁ ⊢
    refine ih hevs hc₁ fun j e he => ?_
    rw [Nat.add_assoc, Nat.add_comm 1 j]
    exact hP (j + 1) e he

/-- The events of some threads. -/
def Has (s : Sched τ) (ts : List τ) (t : τ) (i : ℕ) (ev : Event τ) : Prop :=
  t ∈ ts ∧ (s.tcb t).events[i]? = some ev

theorem scanThread_collected {A : List τ} {sc sc' : Scan τ}
    (h : scanThread env s sc t = some (s', sc')) (ht : t ∉ A)
    (hc : Collected s.snapshot (s.Has A) (∃ u ∈ A, (s.tcb u).cancelreq) sc) :
    Collected s.snapshot (s'.Has (A ++ [t])) (∃ u ∈ A ++ [t], (s'.tcb u).cancelreq) sc' := by
  obtain ⟨hsc, hothers⟩ := scanThread_scanned h
  simp only [scanThread, Option.map_eq_some_iff] at h
  obtain ⟨⟨s₁, sc₁, evs⟩, hevs, heq⟩ := h
  obtain ⟨hs', rfl⟩ : (s₁.modify t fun tcb => { tcb with events := evs }) = s' ∧ sc₁ = sc' := by
    simpa using heq
  have hc₁ : Collected s.snapshot (s'.Has (A ++ [t])) (∃ u ∈ A ++ [t], (s'.tcb u).cancelreq)
      sc := by
    refine hc.mono (fun u i ev hev => ⟨List.mem_append_left _ hev.1, ?_⟩) ?_
    · rw [hothers u fun hut => ht (hut ▸ hev.1)]
      exact hev.2
    · rintro ⟨u, hu, hreq⟩
      exact ⟨u, List.mem_append_left _ hu, (hsc.tcb u).cancelreq ▸ hreq⟩
  have hc₂ : Collected s.snapshot (s'.Has (A ++ [t])) (∃ u ∈ A ++ [t], (s'.tcb u).cancelreq)
      (s.noticeCancel sc t) := by
    unfold noticeCancel
    split
    · next hreq =>
      refine ⟨hc₁.bits, fun n hn => ⟨(hc₁.catches n hn).1, .inl rfl⟩, hc₁.timer, fun _ => .inl ?_⟩
      exact ⟨t, by simp, (hsc.tcb t).cancelreq ▸ hreq⟩
    · exact hc₁
  refine scanEvents_collected hevs hc₂ fun j ev hev => ⟨by simp, ?_⟩
  rw [← hs']
  simpa using hev

/-- What the first loop leaves of the events of a thread. -/
theorem scanThreads_events {ts : List τ} {x y : Sched τ × Scan τ}
    (h : scanThreads env x ts = some y) (ht : t ∈ ts) (hnd : ts.Nodup) :
    ∃ s₀ sc₀ s₁ sc₁, x.1.Scanned s₀ ∧
      scanEvents env t 0 s₀ sc₀ (x.1.tcb t).events = some (s₁, sc₁, (y.1.tcb t).events) := by
  induction ts generalizing x with
  | nil => simp at ht
  | cons u ts ih =>
    simp only [scanThreads, List.foldlM_cons, Option.bind_eq_bind, Option.bind_eq_some_iff] at h
    obtain ⟨z, hz, h⟩ := h
    obtain ⟨hut, hnd⟩ := List.nodup_cons.mp hnd
    rcases List.mem_cons.mp ht with rfl | ht
    · rw [(scanThreads_scanned h).2 t hut]
      simp only [scanThread, Option.map_eq_some_iff] at hz
      obtain ⟨⟨s₁, sc₁, evs⟩, hevs, rfl⟩ := hz
      exact ⟨x.1, _, s₁, sc₁, .refl _, by simpa using hevs⟩
    · obtain ⟨hsc, hothers⟩ := scanThread_scanned hz
      obtain ⟨s₀, sc₀, s₁, sc₁, hs₀, hevs⟩ := ih h ht hnd
      rw [hothers t fun htu => hut (htu ▸ ht)] at hevs
      exact ⟨s₀, sc₀, s₁, sc₁, hsc.trans hs₀, hevs⟩

theorem scanThreads_collected {A B : List τ} {x y : Sched τ × Scan τ}
    (h : scanThreads env x B = some y) (hnd : (A ++ B).Nodup)
    (hc : Collected x.1.snapshot (x.1.Has A) (∃ t ∈ A, (x.1.tcb t).cancelreq) x.2) :
    Collected x.1.snapshot (y.1.Has (A ++ B)) (∃ t ∈ A ++ B, (y.1.tcb t).cancelreq) y.2 := by
  induction B generalizing A x with
  | nil =>
    obtain rfl : x = y := by simpa [scanThreads] using h
    simpa using hc
  | cons t B ih =>
    simp only [scanThreads, List.foldlM_cons, Option.bind_eq_bind, Option.bind_eq_some_iff] at h
    obtain ⟨z, hz, h⟩ := h
    have hsnap : z.1.snapshot = x.1.snapshot := (scanThread_scanned hz).1.snapshot
    have htA : t ∉ A := fun htA => (List.nodup_append.mp hnd).2.2 t htA t (by simp) rfl
    have hstep := scanThread_collected hz htA hc
    rw [← hsnap] at hstep ⊢
    simpa using ih h (A := A ++ [t]) (by simpa using hnd) hstep

/-- What the first loop has collected at its end. -/
theorem scan_collected {sc : Scan τ} (h : scan env s = some (s', sc))
    (hnd : (s.queues.threads .WQ).Nodup) :
    Collected s.snapshot (s'.Has (s.queues.threads .WQ))
      (∃ t ∈ s.queues.threads .WQ, (s'.tcb t).cancelreq) sc := by
  refine scanThreads_collected (A := []) h (by simpa using hnd) ⟨?_, ?_, ?_, ?_⟩
  · intro k fd hfd
    simp [Scan.init] at hfd
  · simp [Scan.init]
  · simp [Scan.init]
  · simp [Scan.init]

/-! ## A rule for the first loop -/

/-- A relation `R` between the variables before and after a part of the first loop, in which they
    keep `J`, and what the loop makes of an event, up to the variables it has reached: `E` has to
    be shown where the event is looked at, and to last. -/
structure ScanRule (env : Env τ) (s : Sched τ) (ts : List τ) (J : Scan τ → Prop)
    (R : Scan τ → Scan τ → Prop) (E : τ → ℕ → Event τ → Scan τ → Option (Event τ) → Prop) :
    Prop where
  refl : ∀ {sc}, J sc → R sc sc
  trans : ∀ {sc sc' sc''}, R sc sc' → R sc' sc'' → R sc sc''
  inv : ∀ {sc sc'}, R sc sc' → J sc'
  cancel : ∀ {sc}, J sc → R sc { sc with anyOccurred := true }
  event : ∀ {t i ev s₁ sc s₂ sc' ev'}, s.Scanned s₁ → t ∈ ts → (s.tcb t).events[i]? = some ev →
    J sc → s₁.scanEvent env t i sc ev = some (s₂, sc', ev') → R sc sc' ∧ E t i ev sc' (some ev')
  lasts : ∀ {t i ev sc sc' r}, E t i ev sc r → R sc sc' → E t i ev sc' r

namespace ScanRule

variable {J : Scan τ → Prop} {R : Scan τ → Scan τ → Prop} {ts : List τ}
  {E : τ → ℕ → Event τ → Scan τ → Option (Event τ) → Prop}

theorem scanEvents {i : ℕ} {sc sc' : Scan τ} {evs evs' : List (Event τ)} {s₁ s₂ : Sched τ}
    (hr : ScanRule env s ts J R E) (hs : s.Scanned s₁) (ht : t ∈ ts) (hJ : J sc)
    (hevs : ∀ j ev, evs[j]? = some ev → (s.tcb t).events[i + j]? = some ev)
    (h : Sched.scanEvents env t i s₁ sc evs = some (s₂, sc', evs')) :
    R sc sc' ∧ ∀ j ev, evs[j]? = some ev → E t (i + j) ev sc' evs'[j]? := by
  induction evs generalizing i s₁ sc evs' with
  | nil =>
    obtain ⟨-, rfl, -⟩ : s₁ = s₂ ∧ sc = sc' ∧ [] = evs' := by simpa [Sched.scanEvents] using h
    exact ⟨hr.refl hJ, by simp⟩
  | cons ev evs ih =>
    simp only [Sched.scanEvents, Option.bind_eq_some_iff, Option.map_eq_some_iff] at h
    obtain ⟨⟨s₃, sc₁, ev'⟩, hev, ⟨s₄, sc₂, evs₂⟩, hrest, heq⟩ := h
    obtain ⟨rfl, rfl, rfl⟩ : s₄ = s₂ ∧ sc₂ = sc' ∧ ev' :: evs₂ = evs' := by simpa using heq
    obtain ⟨hR, hE⟩ := hr.event hs ht (hevs 0 ev rfl) hJ hev
    have hshift : ∀ j, i + 1 + j = i + (j + 1) := fun j => by omega
    obtain ⟨hmore, hlater⟩ := ih (hs.trans (scanEvent_scanned hev).1) (hr.inv hR)
      (fun j e he => hshift j ▸ hevs (j + 1) e he) hrest
    refine ⟨hr.trans hR hmore, fun j e he => ?_⟩
    cases j with
    | zero =>
      obtain rfl : ev = e := by simpa using he
      exact hr.lasts hE hmore
    | succ j => exact hshift j ▸ hlater j e he

theorem scanThreads {us : List τ} {x y : Sched τ × Scan τ} (hr : ScanRule env s ts J R E)
    (hs : s.Scanned x.1) (hsub : ∀ t ∈ us, t ∈ ts) (hnd : us.Nodup) (hJ : J x.2)
    (hsame : ∀ t ∈ us, (x.1.tcb t).events = (s.tcb t).events)
    (h : Sched.scanThreads env x us = some y) :
    R x.2 y.2 ∧ ∀ t ∈ us, ∀ (i : ℕ) ev, (s.tcb t).events[i]? = some ev →
      E t i ev y.2 (y.1.tcb t).events[i]? := by
  induction us generalizing x with
  | nil =>
    obtain rfl : x = y := by simpa [Sched.scanThreads] using h
    exact ⟨hr.refl hJ, by simp⟩
  | cons u us ih =>
    simp only [Sched.scanThreads, List.foldlM_cons, Option.bind_eq_bind,
      Option.bind_eq_some_iff] at h
    obtain ⟨z, hz, h⟩ := h
    obtain ⟨huu, hnd⟩ := List.nodup_cons.mp hnd
    obtain ⟨hscanned, hothers⟩ := scanThread_scanned hz
    have hdone := (scanThreads_scanned h).2 u huu
    simp only [scanThread, Option.map_eq_some_iff] at hz
    obtain ⟨⟨s₁, sc₁, evs⟩, hevs, rfl⟩ := hz
    have hnotice : R x.2 (x.1.noticeCancel x.2 u) := by
      unfold noticeCancel
      split
      · exact hr.cancel hJ
      · exact hr.refl hJ
    rw [hsame u List.mem_cons_self] at hevs
    obtain ⟨hfirst, hu⟩ := hr.scanEvents hs (hsub u List.mem_cons_self) (hr.inv hnotice)
      (fun j ev hev => by simpa using hev) hevs
    obtain ⟨hmore, hrest⟩ := ih (hs.trans hscanned)
      (fun t ht => hsub t (List.mem_cons_of_mem _ ht)) hnd (hr.inv hfirst)
      (fun t ht => (hothers t fun htu => huu (htu ▸ ht)).trans
        (hsame t (List.mem_cons_of_mem _ ht))) h
    refine ⟨hr.trans (hr.trans hnotice hfirst) hmore, fun t ht i ev hev => ?_⟩
    rcases List.mem_cons.mp ht with rfl | ht
    · rw [hdone]
      simpa using hr.lasts (hu i ev hev) hmore
    · exact hrest t ht i ev hev

theorem scan {s₁ : Sched τ} {sc : Scan τ} (hr : ScanRule env s (s.queues.threads .WQ) J R E)
    (hnd : (s.queues.threads .WQ).Nodup) (hJ : J (Scan.init env))
    (h : Sched.scan env s = some (s₁, sc)) :
    R (Scan.init env) sc ∧ ∀ t ∈ s.queues.threads .WQ, ∀ (i : ℕ) ev,
      (s.tcb t).events[i]? = some ev → E t i ev sc (s₁.tcb t).events[i]? :=
  hr.scanThreads (.refl s) (fun _ ht => ht) hnd hJ (fun _ _ => rfl) h

end ScanRule

end Sched

end Pth
