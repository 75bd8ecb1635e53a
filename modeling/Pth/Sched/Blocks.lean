-- SUMMARY: What one step of a run can do to the control block of a thread.
import Pth.Sched.Invariant

/-!
# Control blocks

The effects of the operations say what happens to the queues and to the states of the
threads. Here the same steps are looked at from the side of one control block: which
operations write to it, and what they leave there. Invariants of single fields follow
from this by cases. -/

namespace Pth

open PrioList (keys)

variable {τ : Type*}

/-- What does not depend on the attributes in the block of a new thread. -/
structure Tcb.Fresh (x : Tcb τ) : Prop where
  events : x.events = []
  sigpending : x.sigpending = fun _ => false
  sigpendcnt : x.sigpendcnt = 0
  joinArg : x.joinArg = 0
  cancelreq : x.cancelreq = false

theorem Tcb.Fresh.setState {x : Tcb τ} (h : x.Fresh) (st : ThreadState) :
    { x with state := st }.Fresh :=
  ⟨h.events, h.sigpending, h.sigpendcnt, h.joinArg, h.cancelreq⟩

/-- The signal is pending for the thread, as `pth_raise` leaves it. -/
def Tcb.raised (x : Tcb τ) (n : ℕ) : Tcb τ :=
  if x.sigpending n then x
  else { x with sigpending := Function.update x.sigpending n true, sigpendcnt := x.sigpendcnt + 1 }

namespace Sched

variable [DecidableEq τ] {s s' : Sched τ} {a : QId → List (τ × ℤ)} {H : Set τ}

/-- What `pth_cancel` of the thread `t` makes of its block. -/
inductive CancelTouch (s : Sched τ) (t : τ) : Tcb τ → Prop
  | same (h : s.cancelsNow t = false) : CancelTouch s t (s.tcb t)
  | request (h : s.cancelsNow t = false) : CancelTouch s t { s.tcb t with cancelreq := true }
  | dies (h : s.cancelsNow t = true) :
    CancelTouch s t { s.tcb t with cancelreq := true, joinArg := canceled, state := .dead }

theorem delete_tcb {k : QId} {t : τ} (hs : s.delete k t = some s') :
    s'.tcb = s.tcb ∧ s'.live = s.live := by
  obtain ⟨qs, -, rfl⟩ := Option.map_eq_some_iff.mp hs
  exact ⟨rfl, rfl⟩

theorem insert_tcb {k : QId} {prio : ℤ} {t : τ} (hs : s.insert k prio t = some s') :
    s'.tcb = s.tcb ∧ s'.live = s.live := by
  obtain ⟨qs, -, rfl⟩ := Option.map_eq_some_iff.mp hs
  exact ⟨rfl, rfl⟩

/-- `pth_cancel` writes to the block of its thread only. -/
theorem cancel_tcb {t : τ} {r : Ret} (h : s.queues.Repr a)
    (hcur : s.pthCurrent = some t → ∀ k, t ∉ keys (a k))
    (hs : s.cancel (some t) = some (r, s')) :
    (∀ u, s'.live u = true → s.live u = true) ∧ (∀ u, u ≠ t → s'.tcb u = s.tcb u) ∧
      (s'.live t = true → CancelTouch s t (s'.tcb t)) := by
  have hreq : s.cancelsNow t = false → CancelTouch s t ((s.marked t).tcb t) := by
    intro hnow
    simpa using CancelTouch.request hnow
  have hcase : s.Cancels t r s' := (cancel_spec h t).of_eq_some hs
  cases hcase with
  | refused href =>
    exact ⟨fun _ hu => hu, fun _ _ => rfl, fun _ => .same (cancelsNow_refused h hcur href)⟩
  | missing _ _ _ hplace =>
    exact ⟨fun _ hu => hu, fun u hu => by simp [hu], fun _ => hreq (by simp [cancelsNow, hplace])⟩
  | marks _ hasync =>
    exact ⟨fun _ hu => hu, fun u hu => by simp [hu], fun _ => hreq (by simp [cancelsNow, hasync])⟩
  | buries hnow _ _ _ hdel hins =>
    obtain ⟨htcb, hlive⟩ := delete_tcb hdel
    obtain ⟨htcb', hlive'⟩ := insert_tcb hins
    refine ⟨fun u hu => ?_, fun u hu => ?_, fun _ => ?_⟩
    · rw [hlive'] at hu
      exact hlive ▸ hu
    · simp [htcb', htcb, hu]
    · rw [htcb']
      simpa [htcb] using CancelTouch.dies hnow
  | frees _ _ _ _ hdel =>
    obtain ⟨htcb, hlive⟩ := delete_tcb hdel
    refine ⟨fun u hu => ?_, fun u hu => ?_, fun ht => ?_⟩
    · rw [tcbFree_live] at hu
      split at hu
      · simp at hu
      · exact hlive ▸ hu
    · simp [tcbFree, htcb, hu]
    · simp [tcbFree_live] at ht

/-- `pth_raise` writes to the block of its thread only, and only the signal. -/
theorem raise_tcb {t : τ} {sig : ℤ} {act : SigAction} {r : Ret} {b : Bool} (h : s.Consistent a H)
    (hs : s.raise (some t) sig act = some (r, b, s')) :
    s'.live = s.live ∧ (∀ u, u ≠ t → s'.tcb u = s.tcb u) ∧
      (s'.tcb t = s.tcb t ∨
        1 ≤ sig.toNat ∧ sig.toNat ≤ nsig ∧ s'.tcb t = (s.tcb t).raised sig.toNat) := by
  simp only [Sched.raise] at hs
  split at hs
  · cases hs
    exact ⟨rfl, fun _ _ => rfl, .inl rfl⟩
  · next hsig =>
    split at hs
    · obtain ⟨_, -, heq⟩ := Option.map_eq_some_iff.mp hs
      cases heq
      exact ⟨rfl, fun _ _ => rfl, .inl rfl⟩
    · next hzero =>
      split at hs
      · cases hs
        exact ⟨rfl, fun _ _ => rfl, .inl rfl⟩
      · cases hs
        exact ⟨rfl, fun _ _ => rfl, .inl rfl⟩
      · obtain ⟨⟨_, s₂⟩, hyield, heq⟩ := Option.map_eq_some_iff.mp hs
        cases heq
        split at hyield
        · have ho := ((h.yield _).of_eq_some hyield).2
          exact ⟨ho.live, fun u _ => by rw [ho.tcb], .inl (by rw [ho.tcb])⟩
        · next hnew =>
          have h₁ := h.modify (t := t) (f := fun tcb => { tcb with
            sigpending := Function.update tcb.sigpending sig.toNat true
            sigpendcnt := tcb.sigpendcnt + 1 }) (.inr (.inr ⟨rfl, fun _ => rfl⟩))
          obtain ⟨htcb, hlive⟩ : s₂.tcb = _ ∧ s₂.live = s.live :=
            have ho := ((h₁.yield _).of_eq_some hyield).2
            ⟨ho.tcb, ho.live⟩
          have hn : (nsig : ℤ) = 32 := rfl
          refine ⟨hlive, fun u hu => by simp [htcb, hu], .inr ⟨by omega, by omega, ?_⟩⟩
          simp [htcb, Tcb.raised, hnew]

/-- The scheduler writes to the states of the blocks only, before it switches to a thread. -/
theorem drainNew_tcb {n : ℕ} (hs : drainNew n s = some s') (u : τ) :
    s'.live = s.live ∧ (s'.tcb u = s.tcb u ∨ s'.tcb u = { s.tcb u with state := .ready }) := by
  induction n generalizing s with
  | zero =>
    unfold Sched.drainNew at hs
    split at hs
    · cases hs
      exact ⟨rfl, .inl rfl⟩
    · cases hs
  | succ n ih =>
    unfold Sched.drainNew at hs
    split at hs
    · cases hs
      exact ⟨rfl, .inl rfl⟩
    · next t ht =>
      obtain ⟨s₁, hdel, hs⟩ := Option.bind_eq_some_iff.mp hs
      obtain ⟨s₂, hins, hs⟩ := Option.bind_eq_some_iff.mp hs
      obtain ⟨htcb₁, hlive₁⟩ := delete_tcb hdel
      obtain ⟨htcb₂, hlive₂⟩ := insert_tcb hins
      obtain ⟨hlive, htcb⟩ := ih hs
      refine ⟨hlive.trans (hlive₂.trans hlive₁), ?_⟩
      rw [htcb₂] at htcb
      by_cases hut : u = t
      · subst hut
        exact .inr (by simpa [htcb₁] using htcb)
      · simpa [htcb₁, hut] using htcb

omit [DecidableEq τ] in
theorem spawnTcb_fresh (attr : Option Attr) (func : StartFunc) (t : τ) :
    (s.spawnTcb attr func t).Fresh := ⟨rfl, rfl, rfl, rfl, rfl⟩

/-- The threads that `pth_init` leaves have fresh blocks, and are not dead. -/
theorem pthInit_tcb {main sched u : τ} {now : Time} (hs : s.pthInit main sched now = some s')
    (hu : s'.live u = true) : (s'.tcb u).Fresh ∧ (s'.tcb u).state ≠ .dead := by
  simp only [Sched.pthInit, Sched.spawn, reduceCtorEq, if_false, if_true, Option.bind_some,
    Option.bind_map] at hs
  obtain ⟨s₂, hins, hs⟩ := Option.bind_eq_some_iff.mp hs
  obtain ⟨s₃, hdrain, hs⟩ := Option.bind_eq_some_iff.mp hs
  obtain ⟨x, -, rfl⟩ := Option.map_eq_some_iff.mp hs
  obtain ⟨htcb₂, hlive₂⟩ := insert_tcb hins
  obtain ⟨hlive, htcb⟩ := drainNew_tcb hdrain u
  have hu : s₃.live u = true := hu
  rw [hlive, modify_live, hlive₂] at hu
  -- before the scheduler starts
  have hnew : (s₂.tcb u).Fresh ∧ (u ≠ sched → (s₂.tcb u).state = .new) := by
    rw [htcb₂]
    by_cases hum : u = main
    · subst hum
      simp only [created, Function.update_self]
      exact ⟨spawnTcb_fresh _ _ _, fun _ => rfl⟩
    · by_cases hus : u = sched
      · subst hus
        simp only [created, Function.update_of_ne hum, Function.update_self]
        exact ⟨spawnTcb_fresh _ _ _, fun h => absurd rfl h⟩
      · simp [created, schedulerInit, hum, hus] at hu
  simp only [modify_tcb] at htcb
  by_cases hus : u = sched
  · subst hus
    simp only [if_true] at htcb
    rcases htcb with htcb | htcb
    · exact htcb ▸ ⟨hnew.1.setState _, by simp⟩
    · exact htcb ▸ ⟨hnew.1.setState _, by simp⟩
  · simp only [hus, if_false] at htcb
    rcases htcb with htcb | htcb
    · exact htcb ▸ ⟨hnew.1, by simp [hnew.2 hus]⟩
    · exact htcb ▸ ⟨hnew.1.setState _, by simp⟩

end Sched

namespace Run

variable [DecidableEq τ] {r r' : Run τ} {op : Op τ} {c u : τ}

/-- A run that starts with the main thread. -/
theorem boot_init (s : Sched τ) (main sched : τ) (now : Time) (hne : main ≠ sched) :
    (boot s main sched now).init := by
  obtain ⟨s', hs', -⟩ := s.pthInit_started now hne
  exact ⟨s, main, sched, now, hne, by simp [boot, hs'], rfl, rfl⟩

/-- What an operation leaves of the places of the other threads, and of the special threads. -/
theorem Effect.others {o : Out τ} (h : Effect r op o r') :
    (∀ t, r'.pc t = r.pc t ∨ r'.pc t = .user ∨
      (r.phase = .running ∧ r.lib.pthCurrent = some t)) ∧
      r'.lib.pthMain = r.lib.pthMain ∧ r'.lib.pthSched = r.lib.pthSched := by
  have hupdate : ∀ {c : τ} {p : Pc τ}, r.phase = .running → r.lib.pthCurrent = some c → ∀ t,
      Function.update r.pc c p t = r.pc t ∨ Function.update r.pc c p t = .user ∨
        (r.phase = .running ∧ r.lib.pthCurrent = some t) := by
    intro c p hrun hc t
    by_cases htc : t = c
    · exact .inr (.inr ⟨hrun, htc ▸ hc⟩)
    · exact .inl (Function.update_of_ne htc _ _)
  cases h with
  | call _ _ hcalm => exact ⟨fun _ => .inl rfl, hcalm.pthMain, hcalm.pthSched⟩
  | @spawn _ _ t _ _ _ _ _ _ hs =>
    refine ⟨fun u => ?_, hs.pthMain, hs.pthSched⟩
    by_cases hu : u = t
    · exact .inr (.inl (by simp [hu]))
    · exact .inl (by simp [hu])
  | keep hrun hc | wait hrun hc | waitReturn hrun hc | exits hrun hc | dies hrun hc =>
    exact ⟨hupdate hrun hc, rfl, rfl⟩
  | attr => exact ⟨fun _ => .inl rfl, rfl, rfl⟩
  | joined hrun hc _ hs => exact ⟨hupdate hrun hc, hs.pthMain, hs.pthSched⟩
  | comeback _ _ _ hb => exact ⟨fun _ => .inl rfl, hb.pthMain, hb.pthSched⟩
  | manage _ _ _ _ hp => exact ⟨fun _ => .inl rfl, hp.pthMain, hp.pthSched⟩
  | dispatch _ _ hd => exact ⟨fun _ => .inl rfl, hd.pthMain, hd.pthSched⟩
  | exited | killed => exact ⟨fun _ => .inl rfl, rfl, rfl⟩

/-- What an operation can make of the control block of the thread `u`. -/
inductive Touch (r : Run τ) (u : τ) : Op τ → Tcb τ → Prop
  | same {op : Op τ} (h : ∀ v, r.lastWords op ≠ some (u, v)) : Touch r u op (r.lib.tcb u)
  | own {op : Op τ} {y : Tcb τ} (hrun : r.phase = .running) (hc : r.lib.pthCurrent = some u)
    (h : ∀ v, r.lastWords op ≠ some (u, v)) (hy : (r.lib.tcb u).Own y)
    (hreq : u = r.lib.pthMain ∨ y.cancelreq = (r.lib.tcb u).cancelreq ∨ op = .unwind u) :
    Touch r u op y
  | exits {op : Op τ} {x : Tcb τ} {value : ℤ} (hrun : r.phase = .running)
    (hc : r.lib.pthCurrent = some u) (h : r.lastWords op = some (u, value))
    (hx : (r.lib.tcb u).Own x) : Touch r u op { x with joinArg := value, state := .dead }
  | request (h : r.lastWords (.cancel (some u)) = none) :
    Touch r u (.cancel (some u)) { r.lib.tcb u with cancelreq := true }
  | cancels (h : r.lastWords (.cancel (some u)) = some (u, canceled)) :
    Touch r u (.cancel (some u))
      { r.lib.tcb u with cancelreq := true, joinArg := canceled, state := .dead }
  | attr (x : AttrSet) : Touch r u (.attr u x) (x.write (r.lib.tcb u))
  | signal {sig : ℤ} {act : SigAction} (hsig : 1 ≤ sig.toNat ∧ sig.toNat ≤ nsig) :
    Touch r u (.raise (some u) sig act) ((r.lib.tcb u).raised sig.toNat)
  | back {now : Time} {guard : Guard} {still : SigSet} (hsw : r.phase = .switched)
    (hc : r.lib.pthCurrent = some u) (hguard : guard ≠ .killed) :
    Touch r u (.comeback now guard still)
      (Sched.backTcb (guard = .caught) still (r.lib.tcb u))
  | passes {env : Env τ} {dopoll b : Bool} {s : Sched τ} (hph : r.phase = .manager dopoll)
    (hm : r.lib.eventmanager env dopoll = some (b, s)) : Touch r u (.manage env) (s.tcb u)
  | starts (hu : u ∈ r.lib.queues.threads .NQ) :
    Touch r u .dispatch { r.lib.tcb u with state := .ready }

/-- A step that writes to no block. -/
theorem touch_same {s : Sched τ} (hwords : r.lastWords op = none)
    (hlive : ∀ u, s.live u = true → r.lib.live u = true) (htcb : s.tcb = r.lib.tcb)
    (hu : s.live u = true) : r.lib.live u = true ∧ Touch r u op (s.tcb u) := by
  rw [htcb]
  exact ⟨hlive u hu, .same (by simp [hwords])⟩

/-- The running thread writes to its own block. -/
theorem Writes.touch {f : Tcb τ → Tcb τ} (h : r.Writes op c (f (r.lib.tcb c)))
    (hrun : r.phase = .running) (hc : r.lib.pthCurrent = some c) (u : τ) :
    Touch r u op ((r.lib.modify c f).tcb u) := by
  rw [Sched.modify_tcb]
  generalize f (r.lib.tcb c) = y at h ⊢
  by_cases hu : u = c
  · subst hu
    rw [if_pos rfl]
    cases h with
    | stays hwords hy hreq => exact .own hrun hc (by simp [hwords]) hy hreq
    | exits hwords hx => exact .exits hrun hc hwords hx
  · rw [if_neg hu]
    refine .same fun v => ?_
    cases h with
    | stays hwords => simp [hwords]
    | exits hwords => simp [hwords, Ne.symm hu]

theorem touch_cancel {t : τ} {x : Ret} {s : Sched τ} {a : QId → List (τ × ℤ)}
    (ha : r.lib.Consistent a {c}) (hc : r.lib.pthCurrent = some c)
    (hs : r.lib.cancel (some t) = some (x, s)) (hu : s.live u = true) :
    r.lib.live u = true ∧ Touch r u (.cancel (some t)) (s.tcb u) := by
  have hcur : r.lib.pthCurrent = some t → ∀ k, t ∉ keys (a k) := by
    intro ht k hk
    exact ha.away hk (by simpa [hc, eq_comm] using ht)
  obtain ⟨hlive, hother, htouch⟩ := Sched.cancel_tcb ha.repr hcur hs
  refine ⟨hlive u hu, ?_⟩
  by_cases hut : u = t
  · subst hut
    -- what the call does is what the words say
    revert htouch
    generalize s.tcb u = y
    intro htouch
    cases htouch hu with
    | same hnow => exact .same (by simp [lastWords, hnow])
    | request hnow => exact .request (by simp [lastWords, hnow])
    | dies hnow => exact .cancels (by simp [lastWords, hnow])
  · rw [hother u hut]
    exact .same (by simp [lastWords, Ne.symm hut])

theorem touch_raise {t : τ} {sig : ℤ} {act : SigAction} {x : Ret} {b : Bool} {s : Sched τ}
    {a : QId → List (τ × ℤ)} {H : Set τ} (ha : r.lib.Consistent a H)
    (hs : r.lib.raise (some t) sig act = some (x, b, s)) (hu : s.live u = true) :
    r.lib.live u = true ∧ Touch r u (.raise (some t) sig act) (s.tcb u) := by
  obtain ⟨hlive, hother, htcb⟩ := Sched.raise_tcb ha hs
  refine ⟨hlive ▸ hu, ?_⟩
  have hwords : ∀ v, r.lastWords (.raise (some t) sig act) ≠ some (u, v) := by simp [lastWords]
  by_cases hut : u = t
  · subst hut
    rcases htcb with hsame | ⟨hlo, hhi, hraised⟩
    · exact hsame ▸ .same hwords
    · exact hraised ▸ .signal ⟨hlo, hhi⟩
  · exact hother u hut ▸ .same hwords

/-- A call that leaves the running thread where it is. -/
theorem Called.touch {s : Sched τ} {a : QId → List (τ × ℤ)} (h : r.Called op s)
    (ha : r.lib.Consistent a {c}) (hc : r.lib.pthCurrent = some c) (hu : s.live u = true) :
    r.lib.live u = true ∧ Touch r u op (s.tcb u) := by
  have hmoved : r.lastWords op = none → r.lib.OffQueues s →
      r.lib.live u = true ∧ Touch r u op (s.tcb u) :=
    fun hwords ho => touch_same hwords (fun u hu => ho.live ▸ hu) ho.tcb hu
  cases h with
  | stays _ hwords => exact hmoved hwords (.refl _)
  | favournew | objects => exact touch_same rfl (fun _ hu => hu) rfl hu
  | @yield t _ _ hs => exact hmoved rfl ((ha.yield t).of_eq_some hs).2
  | @suspend t _ _ hs => exact hmoved rfl ((ha.suspend t).of_eq_some hs).2
  | @resume t _ _ hs => exact hmoved rfl ((ha.resume t).of_eq_some hs).2
  | @cancel t _ _ _ hs =>
    cases t with
    | none =>
      cases hs
      exact hmoved rfl (.refl _)
    | some t => exact touch_cancel ha hc hs hu
  | @raise t _ _ _ _ _ hs =>
    cases t with
    | none =>
      cases hs
      exact hmoved rfl (.refl _)
    | some t => exact touch_raise ha hs hu

/-- What a step does to the block of a thread that exists behind it. -/
theorem Inv.touch {o : Out τ} (h : r.Inv) (hs : machine.Step r op o r')
    (hu : r'.lib.live u = true) :
    (∃ attr, op = .spawn attr .user (some u) ∧ r'.lib.tcb u = r.lib.spawnTcb attr .user u) ∨
      r.lib.live u = true ∧ Touch r u op (r'.lib.tcb u) := by
  cases h.step hs with
  | call hrun hc _ _ _ _ _ hcall =>
    obtain ⟨-, a, ha⟩ := h.current hrun hc
    exact .inr (hcall.touch ha hc hu)
  | @spawn attr s t _ _ _ _ _ _ ho =>
    by_cases hut : u = t
    · subst hut
      exact .inl ⟨attr, rfl, by simp [ho.tcb, Sched.created]⟩
    · refine .inr ⟨?_, ?_⟩
      · simpa [ho.live, Sched.created, hut] using hu
      · simpa [ho.tcb, Sched.created, hut] using Touch.same (by simp [lastWords])
  | keep hrun hc _ _ _ _ _ hw => exact .inr ⟨hu, hw.touch hrun hc u⟩
  | wait hrun hc _ _ _ _ _ _ _ hw => exact .inr ⟨hu, hw.touch hrun hc u⟩
  | exits hrun hc _ _ _ _ _ hw => exact .inr ⟨hu, hw.touch hrun hc u⟩
  | dies hrun hc _ _ _ _ _ hw => exact .inr ⟨hu, hw.touch hrun hc u⟩
  | @waitReturn alloc c _ hrun hc _ hcan =>
    have hw : r.Writes (.waitReturn alloc) c { r.lib.tcb c with events := [] } :=
      .stays (by simp [lastWords, hc, hcan]) ⟨rfl, rfl, rfl, rfl, rfl, rfl, .inl rfl⟩
        (.inr (.inl rfl))
    exact .inr ⟨hu, Writes.touch (f := fun x => { x with events := [] }) hw hrun hc u⟩
  | @attr x t =>
    refine .inr ⟨hu, ?_⟩
    by_cases hut : u = t
    · subst hut
      simpa using Touch.attr x
    · simpa [hut] using Touch.same (by simp [lastWords])
  | joined _ _ _ ho =>
    exact .inr (touch_same rfl (fun _ => ho.live_of_tcbFree) ho.tcb hu)
  | @comeback now guard still s c _ hsw hc _ hb hguard =>
    refine .inr ⟨hb.live_of hu, ?_⟩
    rw [hb.tcb]
    by_cases huc : u = c
    · subst huc
      rw [Function.update_self]
      exact .back hsw hc hguard
    · rw [Function.update_of_ne huc]
      refine .same fun v => ?_
      cases guard <;> simp [lastWords, hc, Ne.symm huc]
  | manage hph hm _ _ hp => exact .inr ⟨hp.live ▸ hu, .passes hph hm⟩
  | dispatch _ ha hd =>
    refine .inr ⟨hd.live ▸ hu, ?_⟩
    rw [hd.tcb]
    split
    · next hnew => exact .starts (by rwa [ha.repr.threads])
    · exact .same (by simp [lastWords])
  | exited | killed => exact .inr (touch_same rfl (fun _ hu => hu) rfl hu)

end Run

end Pth
