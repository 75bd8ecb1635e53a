-- SUMMARY: The counter of pending thread signals agrees with the set in every state of a run.
import Mathlib.Order.Interval.Finset.Nat
import Pth.Sched.Blocks
import Pth.Sched.Signals

/-!
# Counting thread signals

`sigpendcnt` is kept next to the set `sigpending`, so that the scheduler can skip threads
without signals. `pth_raise`, the event manager and the scheduler each change both. The
counter is the number of members in every state of a run; it counts one signal more than
the loops of the library look at, because `pth_raise` accepts `PTH_NSIG` itself. -/

namespace Pth

variable {τ : Type*}

/-! ## A set and its counter -/

/-- The counter is the number of signals in the set that `pth_raise` may put there. -/
def SigCounted (set : SigSet) (cnt : ℤ) : Prop :=
  cnt = ((Finset.Icc 1 nsig).filter fun n => set n = true).card

namespace SigCounted

variable {set : SigSet} {cnt : ℤ} {n : ℕ}

theorem empty : SigCounted (fun _ => false) 0 := by simp [SigCounted]

theorem add (h : SigCounted set cnt) (hn : 1 ≤ n ∧ n ≤ nsig) (hset : set n = false) :
    SigCounted (Function.update set n true) (cnt + 1) := by
  have hins : (Finset.Icc 1 nsig).filter (fun m => Function.update set n true m = true) =
      insert n ((Finset.Icc 1 nsig).filter fun m => set m = true) := by
    ext m
    by_cases hm : m = n <;> simp [hm, hn]
  rw [SigCounted, hins, Finset.card_insert_of_notMem (by simp [hset])]
  unfold SigCounted at h
  push_cast
  omega

theorem drop (h : SigCounted set cnt) (hn : 1 ≤ n ∧ n ≤ nsig) (hset : set n = true) :
    SigCounted (Function.update set n false) (cnt - 1) := by
  have herase : (Finset.Icc 1 nsig).filter (fun m => Function.update set n false m = true) =
      ((Finset.Icc 1 nsig).filter fun m => set m = true).erase n := by
    ext m
    by_cases hm : m = n <;> simp [hm]
  have hmem : n ∈ (Finset.Icc 1 nsig).filter fun m => set m = true := by simp [hn, hset]
  have hpos := Finset.card_pos.mpr ⟨n, hmem⟩
  rw [SigCounted, herase, Finset.card_erase_of_mem hmem]
  unfold SigCounted at h
  omega

/-- No signal is pending if the counter says so. -/
theorem not_mem (h : SigCounted set cnt) (hc : cnt ≤ 0) (hn : 1 ≤ n ∧ n ≤ nsig) :
    set n = false := by
  have hempty : (Finset.Icc 1 nsig).filter (fun m => set m = true) = ∅ := by
    apply Finset.card_eq_zero.mp
    unfold SigCounted at h
    omega
  by_contra hset
  have hmem : n ∈ (Finset.Icc 1 nsig).filter fun m => set m = true := by
    simp [hn, Bool.of_not_eq_false hset]
  simp [hempty] at hmem

end SigCounted

theorem mem_signals {n : ℕ} : n ∈ signals ↔ 1 ≤ n ∧ n < nsig := by
  simp [signals, nsig]

/-! ## One control block -/

namespace Tcb

/-- The signal is no longer pending for the thread. -/
def dropped (x : Tcb τ) (n : ℕ) : Tcb τ :=
  { x with sigpending := Function.update x.sigpending n false, sigpendcnt := x.sigpendcnt - 1 }

def Counted (x : Tcb τ) : Prop := SigCounted x.sigpending x.sigpendcnt

theorem Counted.raised {x : Tcb τ} {n : ℕ} (h : x.Counted) (hn : 1 ≤ n ∧ n ≤ nsig) :
    (x.raised n).Counted := by
  unfold Tcb.raised
  split
  · exact h
  · next hx => exact SigCounted.add h hn (by simpa using hx)

theorem Counted.own {x y : Tcb τ} (h : x.Counted) (hy : x.Own y) : y.Counted := by
  unfold Counted at h ⊢
  rwa [hy.sigpending, hy.sigpendcnt]

theorem Counted.dropped {x : Tcb τ} {n : ℕ} (h : x.Counted) (hn : n ∈ signals)
    (hx : x.sigpending n = true) : (x.dropped n).Counted := by
  have hn := mem_signals.mp hn
  exact SigCounted.drop h (by omega) hx

end Tcb

theorem Sched.counted_dropDelivered {x : Tcb τ} (h : x.Counted) (still : SigSet) :
    (dropDelivered still x).Counted := by
  have hloop : ∀ (l : List ℕ) (x : Tcb τ), x.Counted → (∀ n ∈ l, n ∈ signals) →
      (l.foldl (fun y n => if y.sigpending n && !still n then y.dropped n else y) x).Counted := by
    intro l
    induction l with
    | nil => exact fun x h _ => h
    | cons n l ih =>
      intro x h hl
      obtain ⟨hn, hl⟩ := List.forall_mem_cons.mp hl
      rw [List.foldl_cons]
      refine ih _ ?_ hl
      split
      · next hx => exact h.dropped hn (by simp_all)
      · exact h
  unfold dropDelivered
  split
  · exact hloop signals x h fun _ hn => hn
  · exact h

/-- The loop over the signals of an event keeps the count. -/
theorem SigScan.counted_foldlM {sigs : SigSet} {x y : SigScan} (hx : SigCounted x.own x.cnt)
    (h : signals.foldlM (SigScan.step sigs) x = some y) : SigCounted y.own y.cnt := by
  refine Option.foldlM_invariant (P := fun x : SigScan => SigCounted x.own x.cnt) ?_ hx h
  intro x n hn y hx hstep
  have hn := mem_signals.mp hn
  rw [SigScan.step_eq] at hstep
  split at hstep
  · cases hstep
  · obtain rfl := Option.some.inj hstep
    cases hs : sigs n with
    | false => simpa [SigScan.turn, hs] using hx
    | true =>
      cases ho : x.own n with
      | false =>
        have hsame : Function.update x.own n false = x.own := Function.update_eq_self_iff.mpr ho.symm
        simpa [SigScan.turn, hs, ho, hsame] using hx
      | true => simpa [SigScan.turn, hs, ho] using hx.drop (by omega) ho

/-! ## The event manager -/

namespace Sched

variable [DecidableEq τ] {s s' : Sched τ} {env : Env τ} {t : τ}

/-- The variables keep the counts, thread by thread. -/
def KeepsCounts (s s' : Sched τ) : Prop := ∀ t, (s.tcb t).Counted → (s'.tcb t).Counted

omit [DecidableEq τ] in
theorem KeepsCounts.trans {s₁ s₂ s₃ : Sched τ} (h : s₁.KeepsCounts s₂) (h' : s₂.KeepsCounts s₃) :
    s₁.KeepsCounts s₃ := fun t ht => h' t (h t ht)

theorem keepsCounts_modify {f : Tcb τ → Tcb τ} (hf : (s.tcb t).Counted → (f (s.tcb t)).Counted) :
    s.KeepsCounts (s.modify t f) := by
  intro u hu
  by_cases hut : u = t
  · subst hut
    simpa using hf hu
  · simpa [hut] using hu

theorem scanArgs_counts {i : ℕ} {sc sc' : Scan τ} {args args' : EventArgs τ} {b : Bool}
    (h : s.scanArgs env t i sc args = some (b, s', sc', args')) : s.KeepsCounts s' := by
  cases args with
  | sigs sigs sig =>
    obtain ⟨y, hfold, heq⟩ := Option.map_eq_some_iff.mp h
    cases heq
    exact keepsCounts_modify fun hx => SigScan.counted_foldlM (x := ⟨(s.tcb t).sigpending,
      (s.tcb t).sigpendcnt, sc.sigpending, sc.sigcatch, sig, false⟩) hx hfold
  | cond c =>
    simp only [scanArgs] at h
    split at h <;> cases h <;> exact fun _ hu => hu
  | tid tid goal => cases tid <;> cases h <;> exact fun _ hu => hu
  | time tv | func f tv =>
    simp only [scanArgs] at h
    split at h <;> cases h <;> exact fun _ hu => hu
  | fd | select | msg | mutex =>
    cases h
    exact fun _ hu => hu

theorem scanEvents_counts {i : ℕ} {sc sc' : Scan τ} {evs evs' : List (Event τ)}
    (h : s.scanEvents env t i sc evs = some (s', sc', evs')) : s.KeepsCounts s' := by
  induction evs generalizing s sc i evs' with
  | nil =>
    cases h
    exact fun _ hu => hu
  | cons ev evs ih =>
    obtain ⟨⟨s₁, sc₁, ev₁⟩, hscan, hrest⟩ := Option.bind_eq_some_iff.mp h
    obtain ⟨⟨s₂, sc₂, evs₂⟩, hevs, heq⟩ := Option.map_eq_some_iff.mp hrest
    cases heq
    refine .trans ?_ (ih hevs)
    unfold scanEvent at hscan
    split at hscan
    · obtain ⟨⟨b, s₃, sc₃, args⟩, hargs, heq⟩ := Option.map_eq_some_iff.mp hscan
      have hs₁ : s₁ = s₃ := by
        cases b <;> exact (congrArg Prod.fst heq).symm
      exact hs₁ ▸ scanArgs_counts hargs
    · cases hscan
      exact fun _ hu => hu

theorem scan_counts {sc : Scan τ} (h : scan env s = some (s', sc)) : s.KeepsCounts s' := by
  refine Option.foldlM_invariant (P := fun x : Sched τ × Scan τ => s.KeepsCounts x.1) ?_
    (fun _ hu => hu) h
  intro x t _ y hx hscan
  obtain ⟨⟨s₁, sc₁, evs⟩, hevs, heq⟩ := Option.map_eq_some_iff.mp hscan
  cases heq
  refine hx.trans ((scanEvents_counts hevs).trans ?_)
  exact keepsCounts_modify (f := fun tcb => { tcb with events := evs }) id

theorem sleep_counts (sc : Scan τ) (dopoll : Bool) :
    s.KeepsCounts (sleep env s sc dopoll).2.1 := by
  have hslept : (sleep env s sc dopoll).2.1 = s ∨ ∃ x : NextTimer τ,
      (sleep env s sc dopoll).2.1 = s.tagOccurred x.thread x.index := by
    rcases elapse_cases s sc (dopoll || sc.anyOccurred)
      (env.select .merged (s.mergedReq sc (dopoll || sc.anyOccurred))).rc with h | ⟨x, -, -, h⟩
    · exact .inl h
    · exact .inr ⟨x, h⟩
  rcases hslept with hslept | ⟨x, hslept⟩
  · rw [hslept]
    exact fun _ hu => hu
  · rw [hslept]
    exact keepsCounts_modify fun hu => hu

theorem eventmanager_counts {a : QId → List (τ × ℤ)} {dopoll b : Bool} (h : s.queues.Repr a)
    (hs : s.eventmanager env dopoll = some (b, s')) : s.KeepsCounts s' := by
  obtain ⟨⟨s₁, sc⟩, hscan, -⟩ := Option.bind_eq_some_iff.mp hs
  obtain ⟨-, -, hc, -, -⟩ := (eventmanager_cleaned h hscan dopoll).of_eq_some hs
  have hrest : (sleep env s₁ sc dopoll).2.1.KeepsCounts s' := by
    intro t ht
    by_cases hmem : t ∈ PrioList.keys (a .WQ)
    · obtain ⟨evs, htcb⟩ := hc.woken t hmem
      rw [htcb]
      exact ht
    · rwa [hc.others t hmem]
  exact (scan_counts hscan).trans ((sleep_counts sc dopoll).trans hrest)

end Sched

/-! ## Runs -/

namespace Run

variable [DecidableEq τ] {r r' : Run τ} {op : Op τ} {t : τ}

/-- No operation that writes to a block spoils its count. -/
theorem Touch.counted {y : Tcb τ} (h : Touch r t op y) (hinv : r.Inv)
    (hx : (r.lib.tcb t).Counted) : y.Counted := by
  cases h with
  | same => exact hx
  | own hrun hc hw hy => exact hx.own hy
  | exits hrun hc hw hy =>
    have hown := hx.own hy
    exact hown
  | request => exact hx
  | cancels => exact hx
  | attr x => cases x <;> exact hx
  | signal hsig => exact hx.raised hsig
  | back =>
    unfold Sched.backTcb
    split <;> exact Sched.counted_dropDelivered hx _
  | passes hph hm =>
    obtain ⟨a, ha⟩ := hinv.consistent
    exact Sched.eventmanager_counts ha.repr hm t hx
  | starts => exact hx

/-- Every operation keeps the counts of all threads. -/
theorem Inv.counted_step {o : Out τ} (h : r.Inv) (hs : machine.Step r op o r')
    (hcnt : ∀ t, r.lib.live t = true → (r.lib.tcb t).Counted) (ht : r'.lib.live t = true) :
    (r'.lib.tcb t).Counted := by
  rcases h.touch hs ht with ⟨attr, -, htcb⟩ | ⟨hlive, htouch⟩
  · rw [htcb]
    exact SigCounted.empty
  · exact htouch.counted h (hcnt t hlive)

/-- In every state of a run and for every thread, `sigpendcnt` is the number of signals from 1
    to `PTH_NSIG` in `sigpending`. -/
theorem sigpendcnt_counts (h : machine.Reachable r) (ht : r.lib.live t = true) :
    (r.lib.tcb t).sigpendcnt =
      ((Finset.Icc 1 nsig).filter fun n => (r.lib.tcb t).sigpending n = true).card := by
  have hall : r.Inv ∧ ∀ t, r.lib.live t = true → (r.lib.tcb t).Counted := by
    refine h.invariant
      (I := fun r => r.Inv ∧ ∀ t, r.lib.live t = true → (r.lib.tcb t).Counted) ?_ ?_
    · intro r hinit
      refine ⟨Inv.init hinit, fun t ht => ?_⟩
      obtain ⟨s, main, sched, now, -, hlib, -⟩ := hinit
      have hfresh := (Sched.pthInit_tcb hlib ht).1
      unfold Tcb.Counted
      rw [hfresh.sigpending, hfresh.sigpendcnt]
      exact .empty
    · rintro r op o r' ⟨hinv, hcnt⟩ - hs
      exact ⟨(hinv.step hs).inv hinv, fun t ht => hinv.counted_step hs hcnt ht⟩
  exact hall.2 t ht

/-- A signal is raised for a new thread. -/
theorem sigpendcnt_counts_raised : ∃ r : Run (Fin 3), machine.Reachable r ∧
    (r.lib.tcb 2).sigpendcnt = 1 ∧
    ((Finset.Icc 1 nsig).filter fun n => (r.lib.tcb 2).sigpending n = true).card = 1 := by
  have hboot : machine.Reach (fun _ _ => True) (boot (Sched.blank (0 : Fin 3)) 0 1 .zero) :=
    boot_reach _ _ _ _ (by decide)
  obtain ⟨r, hr, hlive, hcnt⟩ := hboot.play
    (l := [.spawn none .user (some 2), .raise (some 2) 10 .handled])
    (p := fun r => r.lib.live 2 = true ∧ (r.lib.tcb 2).sigpendcnt = 1) (by decide)
  have hcounts := sigpendcnt_counts hr hlive
  exact ⟨r, hr, hcnt, by omega⟩

end Run

end Pth
