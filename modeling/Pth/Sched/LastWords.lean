-- SUMMARY: A successful join delivers the value with which the thread has terminated.
import Pth.Sched.Blocks
import Pth.Sched.Join

/-!
# Last words

A thread terminates by its own `pth_exit`, at a cancellation point, through `pth_cancel`
of another thread, or because its stack has overflowed. Each of these leaves a value in
`join_arg`. Many calls may come before a `pth_join` reads it. A record next to the run keeps
the values with which the threads have terminated, and is compared with what is delivered. -/

namespace Pth

open PrioList (keys)

variable {τ : Type*} [DecidableEq τ]

namespace Sched

variable {s s' : Sched τ} {env : Env τ} {a : QId → List (τ × ℤ)}

/-- A pass of the event manager leaves the values alone. -/
theorem eventmanager_joinArg {dopoll b : Bool} (h : s.queues.Repr a)
    (hs : s.eventmanager env dopoll = some (b, s')) (t : τ) :
    (s'.tcb t).joinArg = (s.tcb t).joinArg := by
  obtain ⟨⟨s₁, sc⟩, hscan, -⟩ := Option.bind_eq_some_iff.mp hs
  obtain ⟨-, -, hc, -, -⟩ := (eventmanager_cleaned h hscan dopoll).of_eq_some hs
  have hsc : s.Scanned (sleep env s₁ sc dopoll).2.1 :=
    (scanThreads_scanned hscan).1.trans (elapse_scanned sc _ _)
  by_cases ht : t ∈ keys (a .WQ)
  · obtain ⟨evs, htcb⟩ := hc.woken t ht
    rw [htcb]
    exact (hsc.tcb t).joinArg
  · rw [hc.others t ht]
    exact (hsc.tcb t).joinArg

end Sched

namespace Run

variable {r r' : Run τ} {op : Op τ} {t : τ} {w : τ → Option ℤ}

/-- The block that `pth_spawn` has got for a new thread. -/
def newThread : Op τ → Option τ
  | .spawn _ _ alloc => alloc
  | _ => none

/-- At first no thread has terminated. -/
def noWords (_ : Run τ) : τ → Option ℤ := fun _ => none

/-- Write down the values with which threads terminate; a new thread has none. -/
def noteWords (r : Run τ) (op : Op τ) (w : τ → Option ℤ) : τ → Option ℤ := fun u =>
  if newThread op = some u then none
  else match r.lastWords op with
    | some (t, v) => if u = t then some v else w u
    | none => w u

/-- The record agrees with a block. -/
def Agrees (x : Tcb τ) (w : Option ℤ) : Prop := w = if x.state = .dead then some x.joinArg else none

omit [DecidableEq τ] in
theorem Agrees.congr {x y : Tcb τ} {v : Option ℤ} (h : Agrees x v) (hst : y.state = x.state)
    (harg : y.joinArg = x.joinArg) : Agrees y v := by
  rwa [Agrees, hst, harg]

omit [DecidableEq τ] in
theorem Agrees.alive {x y : Tcb τ} {v : Option ℤ} (h : Agrees x v) (hx : x.state ≠ .dead)
    (hy : y.state ≠ .dead) : Agrees y v := by
  rw [Agrees, if_neg hx] at h
  rw [Agrees, if_neg hy, h]

theorem noteWords_other (hnew : newThread op ≠ some t)
    (hwords : ∀ v, r.lastWords op ≠ some (t, v)) : r.noteWords op w t = w t := by
  unfold noteWords
  rw [if_neg hnew]
  split
  · next u v huv =>
    have hut : t ≠ u := by
      rintro rfl
      exact hwords v huv
    rw [if_neg hut]
  · rfl

theorem noteWords_words {v : ℤ} (hnew : newThread op ≠ some t)
    (hwords : r.lastWords op = some (t, v)) : r.noteWords op w t = some v := by
  simp [noteWords, hnew, hwords]

/-- The record follows what the operations write to a block. -/
theorem Touch.agrees {y : Tcb τ} (h : Touch r t op y) (hinv : r.Inv)
    (hspawn : newThread op ≠ some t) (hw : Agrees (r.lib.tcb t) (w t)) :
    Agrees y (r.noteWords op w t) := by
  cases h with
  | same hwords => rwa [noteWords_other hspawn hwords]
  | own hrun hc hwords hy =>
    rw [noteWords_other hspawn hwords]
    have hready := (hinv.current hrun hc).1
    refine hw.alive (by simp [hready]) ?_
    rcases hy.state with hst | hst <;> simp [hst, hready]
  | exits hrun hc hwords hx =>
    rw [noteWords_words hspawn hwords]
    simp [Agrees]
  | request hwords =>
    rw [noteWords_other hspawn (by simp [hwords])]
    exact hw
  | cancels hwords =>
    rw [noteWords_words hspawn hwords]
    simp [Agrees]
  | attr x =>
    rw [noteWords_other hspawn (by simp [lastWords])]
    exact hw.congr (by simp) (by cases x <;> rfl)
  | signal =>
    rw [noteWords_other hspawn (by simp [lastWords])]
    refine hw.congr ?_ ?_ <;> (unfold Tcb.raised; split <;> rfl)
  | @back now guard still hsw hc hguard =>
    obtain ⟨sp, sc, hdrop⟩ := Sched.dropDelivered_eq still (r.lib.tcb t)
    cases guard with
    | intact =>
      rw [noteWords_other hspawn (by simp [lastWords])]
      exact hw.congr (by simp [Sched.backTcb, hdrop]) (by simp [Sched.backTcb, hdrop])
    | killed => exact absurd rfl hguard
    | caught =>
      have hwords : r.lastWords (.comeback now .caught still) = some (t, Sched.overflowArg) := by
        simp [lastWords, hc]
      rw [noteWords_words hspawn hwords]
      simp [Agrees, Sched.backTcb]
  | @passes env dopoll b s hph hm =>
    obtain ⟨a, ha⟩ := hinv.consistent
    obtain ⟨⟨s₁, sc⟩, hscan, -⟩ := Option.bind_eq_some_iff.mp hm
    obtain ⟨-, -, -, hp, -⟩ := (Sched.eventmanager_cleaned ha.repr hscan dopoll).of_eq_some hm
    have hp : r.lib.Passed (keys (a .WQ)) s := hp
    rw [noteWords_other hspawn (by simp [lastWords])]
    have hst := hp.state t
    split at hst
    · next hdue =>
      have hwaiting : (r.lib.tcb t).state = .waiting := ha.fits hdue.1
      exact hw.alive (by simp [hwaiting]) (by simp [hst])
    · exact hw.congr hst (Sched.eventmanager_joinArg ha.repr hm t)
  | starts hnew =>
    obtain ⟨a, ha⟩ := hinv.consistent
    rw [noteWords_other hspawn (by simp [lastWords])]
    rw [ha.repr.threads] at hnew
    have hst : (r.lib.tcb t).state = .new := ha.fits hnew
    exact hw.alive (by simp [hst]) (by simp)

/-- The record of a run agrees with all blocks. -/
theorem recorded_agrees {x : Run τ × (τ → Option ℤ)}
    (h : (machine.record noWords noteWords).Reachable x) :
    x.1.Inv ∧ ∀ t, x.1.lib.live t = true → Agrees (x.1.lib.tcb t) (x.2 t) := by
  refine h.invariant (I := fun x : Run τ × (τ → Option ℤ) => x.1.Inv ∧
    ∀ t, x.1.lib.live t = true → Agrees (x.1.lib.tcb t) (x.2 t)) ?_ ?_
  · rintro x ⟨hinit, hw⟩
    refine ⟨Inv.init hinit, fun t ht => ?_⟩
    obtain ⟨s, main, sched, now, -, hlib, -⟩ := hinit
    simp [Agrees, hw, noWords, (Sched.pthInit_tcb hlib ht).2]
  · rintro x op o y ⟨hinv, hagree⟩ - hs
    obtain ⟨hs, hw⟩ := hs.of_record
    refine ⟨(hinv.step hs).inv hinv, fun t ht => ?_⟩
    rw [hw]
    rcases hinv.touch hs ht with ⟨attr, rfl, htcb⟩ | ⟨hlive, htouch⟩
    · simp [Agrees, htcb, noteWords, newThread, Sched.spawnTcb]
    · refine htouch.agrees hinv ?_ (hagree t hlive)
      intro hnew
      cases op with
      | spawn attr func alloc =>
        have hfree : alloc.all (fun t => !x.1.lib.live t) = true := hs.1.2.2
        simp [show alloc = some t from hnew, hlive] at hfree
      | _ => cases hnew

/-- Whatever has happened since a thread terminated, the value that a successful `pth_join`
    delivers is the one with which the thread has terminated: the argument of its
    `pth_exit`, `PTH_CANCELED`, or the mark of a stack overflow. -/
theorem joined_lastWords {v : ℤ} (h : (machine.record noWords noteWords).Reachable (r, w))
    (hs : machine.Step r .joinFinish (.joined v) r') :
    ∃ t, r.Collects .joinFinish (.joined v) t ∧ w t = some v ∧ r'.lib.live t = false := by
  obtain ⟨hinv, hagree⟩ := recorded_agrees h
  obtain ⟨c, t, hc, ht, hdead, rfl, hlive⟩ := joinFinish_joined hs.2
  have hrun : r.phase = .running := hs.1.1
  have hw := hagree t (hinv.joinTarget_live hrun hc ht).1
  refine ⟨t, ⟨rfl, by simp [hc, ht], rfl⟩, ?_, by simp [hlive]⟩
  rwa [Agrees, if_pos hdead] at hw

instance [Fintype τ] (x : Run τ × (τ → Option ℤ)) (op : Op τ) :
    Decidable ((machine.record noWords noteWords).enabled x op) :=
  inferInstanceAs (Decidable (x.1.enabled op))

/-- The value that a `pth_join` has delivered. -/
def joinedValue : Out τ → Option ℤ
  | .joined v => some v
  | _ => none

/-- The main thread joins the thread 2, which has exited with the value 7. -/
theorem joined_lastWords_exit : ∃ (r r' : Run (Fin 3)) (w : Fin 3 → Option ℤ),
    (machine.record noWords noteWords).Reachable (r, w) ∧
    machine.Step r .joinFinish (.joined 7) r' ∧ ∃ t, w t = some 7 ∧ r'.lib.live t = false := by
  have hboot : (machine.record noWords noteWords).Reach (fun _ _ => True)
      (boot (Sched.blank (0 : Fin 3)) 0 1 .zero, fun _ => none) :=
    .init ⟨boot_init _ _ _ _ (by decide), rfl⟩
  obtain ⟨⟨r, w⟩, o, ⟨r', w'⟩, hr, hstep, ho⟩ := hboot.play_step
    (l := [.spawn none .user (some 2), .join (some 2) true,
      .comeback .zero .intact fun _ => false, .manage Sched.quiet, .dispatch,
      .exit 7 none, .comeback .zero .intact fun _ => false, .manage Sched.quiet, .dispatch,
      .waitReturn none])
    (i := .joinFinish) (p := fun _ o _ => joinedValue o = some 7) (by decide)
  obtain rfl : o = .joined 7 := by
    cases o <;> simp_all [joinedValue]
  obtain ⟨t, -, hw, hfreed⟩ := joined_lastWords hr hstep.of_record.1
  exact ⟨r, r', w, hr, hstep.of_record.1, t, hw, hfreed⟩

end Run

end Pth
