-- SUMMARY: What one step of a run does to the lists that the queues store.
import Pth.Sched.Blocks
import Pth.Sched.RoundRuns

/-!
# The lists of the queues

The queues of a run always store lists of threads. For each operation this says which
list it changes and how, with the thread that is moved. What holds of a place in one of
the queues follows by cases. -/

namespace Pth

open PrioList (keys)

variable {τ : Type*} [DecidableEq τ]

namespace Sched

variable {s : Sched τ} {a : QId → List (τ × ℤ)} {H : Set τ} {t u : τ} {k k' : QId}

/-- The lists after a thread has been moved from one queue to another. -/
def moved (a : QId → List (τ × ℤ)) (k k' : QId) (prio : ℤ) (u : τ) : QId → List (τ × ℤ) :=
  Function.update (Function.update a k (PrioList.remove u (a k))) k'
    (PrioList.insert prio u (Function.update a k (PrioList.remove u (a k)) k'))

theorem mem_moved {prio : ℤ} {j : QId} (h : s.queues.Repr a) (hu : u ∈ keys (a k)) :
    t ∈ keys (moved a k k' prio u j) ↔ (t ∈ keys (a j) ∧ t ≠ u) ∨ (t = u ∧ j = k') := by
  have hdisj : t ∈ keys (a j) → t ∈ keys (a k) → j = k := h.disjoint
  unfold moved
  grind [Function.update_apply, PrioList.mem_keys_insert, PrioList.mem_keys_remove]

theorem mem_removed {j : QId} (h : s.queues.Repr a) (hu : u ∈ keys (a k)) :
    t ∈ keys (Function.update a k (PrioList.remove u (a k)) j) ↔ t ∈ keys (a j) ∧ t ≠ u := by
  have hdisj : t ∈ keys (a j) → t ∈ keys (a k) → j = k := h.disjoint
  grind [Function.update_apply, PrioList.mem_keys_remove]

/-- Take a thread out of its queue and insert it into another one. -/
theorem move_lists (k' : QId) (prio : ℤ) (h : s.queues.Repr a) (hu : u ∈ keys (a k))
    (f : Sched τ → Sched τ) (hf : ∀ s, (f s).queues = s.queues) :
    (s.delete k u).Ensures fun s₁ => s₁.tcb = s.tcb ∧
      s₁.queues.Repr (Function.update a k (PrioList.remove u (a k))) ∧
      ((f s₁).insert k' prio u).Ensures fun s' => s'.queues.Repr (moved a k k' prio u) := by
  apply (delete_path (b := true) h hu).mono
  rintro s₁ ⟨-, hr, htcb⟩
  have hr' : (f s₁).queues.Repr _ := hf s₁ ▸ hr
  refine ⟨htcb, hr, (insert_path (b := true) hr' (h.removed hu) prio).mono ?_⟩
  rintro s₂ ⟨-, hr₂, -⟩
  exact hr₂

theorem yield_lists (h : s.queues.Repr a) (x : Option τ) :
    (s.yield x).Ensures fun r => r.2.queues.Repr a ∨ ∃ k u, x = some u ∧ (k = .NQ ∨ k = .RQ) ∧
      u ∈ keys (a k) ∧ r.2.queues.Repr (Function.update a k (PrioList.favorite u (a k))) := by
  unfold Sched.yield
  split
  · exact Option.ensures_some.mpr (.inl h)
  · next u =>
    split
    · exact Option.ensures_some.mpr (.inl h)
    · next q hq =>
      simp only [h.contains, Option.bind_some, decide_eq_true_eq]
      split
      · next hu =>
        obtain ⟨qs, hfav, hr⟩ := h.favorite hu
        have hk : q = .NQ ∨ q = .RQ := by
          cases hst : (s.tcb u).state <;> simp_all [yieldPlace]
        simp only [Sched.favorite, hfav, Option.map_some]
        exact Option.ensures_some.mpr (.inr ⟨q, u, rfl, hk, hu, hr⟩)
      · exact Option.ensures_some.mpr (.inl h)

theorem suspend_lists (h : s.queues.Repr a) (x : Option τ) :
    (s.suspend x).Ensures fun r => (r.1 ≠ .ok ∧ r.2.queues.Repr a) ∨ ∃ k u, x = some u ∧
      placeOf (s.tcb u).state = some k ∧ u ∈ keys (a k) ∧
      r.2.queues.Repr (moved a k .SQ prioStd u) := by
  unfold Sched.suspend
  split
  · exact Option.ensures_some.mpr (.inl ⟨by simp, h⟩)
  · next u =>
    split
    · exact Option.ensures_some.mpr (.inl ⟨by simp, h⟩)
    · split
      · exact Option.ensures_some.mpr (.inl ⟨by simp, h⟩)
      · next q hq =>
        simp only [h.contains, Option.bind_some, decide_eq_true_eq]
        split
        · next hu =>
          apply (move_lists .SQ prioStd h hu id fun _ => rfl).bind
          rintro s₁ ⟨-, -, h₁⟩
          exact h₁.map fun s₂ h₂ => .inr ⟨q, u, rfl, hq, hu, h₂⟩
        · exact Option.ensures_some.mpr (.inl ⟨by simp, h⟩)

theorem Consistent.resume_lists (h : s.Consistent a H) (hH : ∀ c, s.pthCurrent = some c → c ∈ H)
    (x : Option τ) :
    (s.resume x).Ensures fun r =>
      (r.2.queues.Repr a ∧ ∀ u, x = some u → u ∉ keys (a .SQ)) ∨ ∃ k u, x = some u ∧
        r.1 = .ok ∧ placeOf (s.tcb u).state = some k ∧ u ∈ keys (a .SQ) ∧
        r.2.queues.Repr (moved a .SQ k prioStd u) := by
  unfold Sched.resume
  split
  · exact Option.ensures_some.mpr (.inl ⟨h.repr, by simp⟩)
  · next u =>
    split
    · next hne =>
      refine Option.ensures_some.mpr (.inl ⟨h.repr, ?_⟩)
      rintro v hv hmem
      obtain rfl : u = v := by simpa using hv
      rcases hne with hne | hne
      · exact h.sched hmem hne
      · exact h.away hmem (hH u hne.symm)
    · simp only [h.repr.contains, Option.bind_some, decide_eq_true_eq]
      split
      · next hu =>
        obtain ⟨q, hq⟩ := Option.ne_none_iff_exists'.mp (h.fits hu).placeOf_ne_none
        apply (move_lists q prioStd h.repr hu id fun _ => rfl).bind
        rintro s₁ ⟨htcb, -, h₁⟩
        simp only [htcb, hq]
        exact h₁.map fun s₂ h₂ => .inr ⟨q, u, rfl, rfl, hq, hu, h₂⟩
      · next hu =>
        exact Option.ensures_some.mpr (.inl ⟨h.repr, by simpa using hu⟩)

theorem cancel_lists (h : s.queues.Repr a) (x : Option τ) :
    (s.cancel x).Ensures fun r => r.2.queues.Repr a ∨ ∃ k u, x = some u ∧
      asynchronous (s.tcb u) = true ∧ placeOf (s.tcb u).state = some k ∧ u ∈ keys (a k) ∧
      (r.2.queues.Repr (moved a k .DQ prioStd u) ∨
        r.2.queues.Repr (Function.update a k (PrioList.remove u (a k)))) := by
  cases x with
  | none => exact Option.ensures_some.mpr (.inl h)
  | some u =>
    have h₁ : (s.marked u).queues.Repr a := h
    apply (cancel_spec h u).mono
    rintro ⟨ret, s'⟩ hcase
    replace hcase : s.Cancels u ret s' := hcase
    cases hcase with
    | refused => exact .inl h
    | missing | marks => exact .inl h₁
    | buries hnow hq hu _ hdel hins =>
      rw [h.threads] at hu
      have hasync : asynchronous (s.tcb u) = true := (Bool.and_eq_true_iff.mp hnow).1
      obtain ⟨-, -, hr⟩ := (move_lists .DQ prioStd h₁ hu (fun s => s.modify u fun tcb =>
        { tcb with joinArg := canceled, state := .dead }) fun _ => rfl).of_eq_some hdel
      exact .inr ⟨_, u, rfl, hasync, hq, hu, .inl (hr.of_eq_some hins)⟩
    | frees hnow hq hu _ hdel =>
      rw [h.threads] at hu
      have hasync : asynchronous (s.tcb u) = true := (Bool.and_eq_true_iff.mp hnow).1
      obtain ⟨-, hr, -⟩ := (delete_path (b := true) h₁ hu).of_eq_some hdel
      exact .inr ⟨_, u, rfl, hasync, hq, hu, .inr hr⟩

theorem Consistent.spawn_lists (h : s.Consistent a H) (attr : Option Attr) (func : StartFunc)
    (x : Option τ) (hx : ∀ t, x = some t → s.live t = false) :
    (s.spawn attr func x).Ensures fun r => r.2.queues.Repr a ∨ ∃ u prio, x = some u ∧
      r.2.queues.Repr (Function.update a .NQ (PrioList.insert prio u (a .NQ))) := by
  unfold Sched.spawn
  split
  · exact Option.ensures_some.mpr (.inl h.repr)
  · split
    · exact Option.ensures_some.mpr (.inl h.repr)
    · next t =>
      have ht : ∀ k, t ∉ keys (a k) := fun k hk => by simpa [hx t rfl] using h.live hk
      dsimp only
      split
      · exact Option.ensures_some.mpr (.inl h.repr)
      · exact (insert_path (s := s.created attr func t) (b := true) h.repr ht _).map
          fun s' h' => .inr ⟨t, _, rfl, h'.2.1⟩

/-- `pth_raise` can favor its thread. -/
theorem raise_lists (h : s.queues.Repr a) (x : Option τ) (sig : ℤ) (act : SigAction)
    {y : Ret × Bool × Sched τ} (hs : s.raise x sig act = some y) :
    y.2.2.queues.Repr a ∨ ∃ k u, x = some u ∧ (k = .NQ ∨ k = .RQ) ∧ u ∈ keys (a k) ∧
      y.2.2.queues.Repr (Function.update a k (PrioList.favorite u (a k))) := by
  unfold Sched.raise at hs
  split at hs
  · cases hs
    exact .inl h
  · next u =>
    split at hs
    · cases hs
      exact .inl h
    · split at hs
      · obtain ⟨_, -, heq⟩ := Option.map_eq_some_iff.mp hs
        cases heq
        exact .inl h
      · split at hs
        · cases hs
          exact .inl h
        · cases hs
          exact .inl h
        · obtain ⟨⟨ret, s₂⟩, hyield, heq⟩ := Option.map_eq_some_iff.mp hs
          cases heq
          split at hyield
          · exact (yield_lists h (some u)).of_eq_some hyield
          · exact (yield_lists (s := s.modify u _) h (some u)).of_eq_some hyield

end Sched

namespace Run

variable {r r' : Run τ} {op : Op τ} {a : QId → List (τ × ℤ)} {t : τ}

/-- What an operation can do to the lists of the queues. -/
inductive Shift (r : Run τ) (a : QId → List (τ × ℤ)) : Op τ → (QId → List (τ × ℤ)) → Prop
  | same {op : Op τ} (h : ∀ u, op = .resume (some u) → u ∉ keys (a .SQ)) : Shift r a op a
  | favors {op : Op τ} {k : QId} {u : τ}
    (hop : op = .yield (some u) ∨ ∃ sig act, op = .raise (some u) sig act)
    (hk : k = .NQ ∨ k = .RQ) (hu : u ∈ keys (a k)) :
    Shift r a op (Function.update a k (PrioList.favorite u (a k)))
  | suspends {k : QId} {u : τ} (hk : placeOf (r.lib.tcb u).state = some k) (hu : u ∈ keys (a k)) :
    Shift r a (.suspend (some u)) (Sched.moved a k .SQ prioStd u)
  | resumes {k : QId} {u : τ} (hk : placeOf (r.lib.tcb u).state = some k)
    (hu : u ∈ keys (a .SQ)) : Shift r a (.resume (some u)) (Sched.moved a .SQ k prioStd u)
  | buries {k : QId} {u : τ} (hasync : Sched.asynchronous (r.lib.tcb u) = true)
    (hk : placeOf (r.lib.tcb u).state = some k) (hu : u ∈ keys (a k)) :
    Shift r a (.cancel (some u)) (Sched.moved a k .DQ prioStd u)
  | frees {k : QId} {u : τ} (hasync : Sched.asynchronous (r.lib.tcb u) = true)
    (hk : placeOf (r.lib.tcb u).state = some k) (hu : u ∈ keys (a k)) :
    Shift r a (.cancel (some u)) (Function.update a k (PrioList.remove u (a k)))
  | spawns {attr : Option Attr} {func : StartFunc} {u : τ} {prio : ℤ}
    (hu : r.lib.live u = false) :
    Shift r a (.spawn attr func (some u)) (Function.update a .NQ (PrioList.insert prio u (a .NQ)))
  | collects {u : τ} (hu : u ∈ keys (a .DQ)) :
    Shift r a .joinFinish (Function.update a .DQ (PrioList.remove u (a .DQ)))
  | back {now : Time} {guard : Guard} {still : SigSet} {c : τ} (hc : r.lib.pthCurrent = some c) :
    Shift r a (.comeback now guard still)
      (Sched.requeued a c (Sched.backTcb (guard = .caught) still (r.lib.tcb c)))
  | passes {env : Env τ} {tcb : τ → Tcb τ} (htcb : ∀ u, (tcb u).prio = (r.lib.tcb u).prio) :
    Shift r a (.manage env) (Sched.rearranged a [] (a .WQ) tcb)
  | takes : Shift r a .dispatch (Function.update (Sched.drained r.lib.favournew a) .RQ
      (Sched.drained r.lib.favournew a .RQ).tail)

theorem Called.shift {s : Sched τ} {H : Set τ} (h : r.Called op s)
    (ha : r.lib.Consistent a H) (hH : ∀ d, r.lib.pthCurrent = some d → d ∈ H) :
    ∃ a', s.queues.Repr a' ∧ Shift r a op a' := by
  cases h with
  | stays hq => exact ⟨a, ha.repr, .same fun u hu => absurd hu (hq.resume _)⟩
  | favournew | objects => exact ⟨a, ha.repr, .same (by simp)⟩
  | @yield t _ _ hs =>
    rcases (Sched.yield_lists ha.repr t).of_eq_some hs with hr | ⟨k, u, rfl, hk, hu, hr⟩
    · exact ⟨a, hr, .same (by simp)⟩
    · exact ⟨_, hr, .favors (.inl rfl) hk hu⟩
  | @suspend t _ _ hs =>
    rcases (Sched.suspend_lists ha.repr t).of_eq_some hs with ⟨-, hr⟩ | ⟨k, u, rfl, hk, hu, hr⟩
    · exact ⟨a, hr, .same (by simp)⟩
    · exact ⟨_, hr, .suspends hk hu⟩
  | @resume t _ _ hs =>
    rcases (ha.resume_lists hH t).of_eq_some hs with ⟨hr, hnone⟩ | ⟨k, u, rfl, -, hk, hu, hr⟩
    · exact ⟨a, hr, .same (by simpa using hnone)⟩
    · exact ⟨_, hr, .resumes hk hu⟩
  | @cancel t _ _ _ hs =>
    rcases (Sched.cancel_lists ha.repr t).of_eq_some hs with
      hr | ⟨k, u, rfl, hasync, hk, hu, hr | hr⟩
    · exact ⟨a, hr, .same (by simp)⟩
    · exact ⟨_, hr, .buries hasync hk hu⟩
    · exact ⟨_, hr, .frees hasync hk hu⟩
  | @raise t sig act _ _ _ hs =>
    rcases Sched.raise_lists ha.repr t sig act hs with hr | ⟨k, u, rfl, hk, hu, hr⟩
    · exact ⟨a, hr, .same (by simp)⟩
    · exact ⟨_, hr, .favors (.inr ⟨sig, act, rfl⟩) hk hu⟩

/-- What a step does to the lists of the queues. -/
theorem Inv.shift {o : Out τ} (h : r.Inv) (hs : machine.Step r op o r')
    (ha : r.lib.queues.Repr a) : ∃ a', r'.lib.queues.Repr a' ∧ Shift r a op a' := by
  have hsame : ∀ {a₁ H}, r.lib.Consistent a₁ H → r.lib.Consistent a H := by
    intro a₁ H ha₁
    obtain rfl : a = a₁ := funext fun k => ha.entries.symm.trans ha₁.repr.entries
    exact ha₁
  have hquiet : r.Quiet op → ∃ a', r.lib.queues.Repr a' ∧ Shift r a op a' :=
    fun hq => ⟨a, ha, .same fun u hu => absurd hu (hq.resume _)⟩
  cases h.step hs with
  | call hrun hc _ _ _ _ _ hcall =>
    obtain ⟨-, a₁, ha₁⟩ := h.current hrun hc
    exact hcall.shift (hsame ha₁) (by simp [hc])
  | @spawn attr s t c a₁ hrun hc _ ht _ _ hspawn =>
    obtain ⟨-, a₁, ha₁⟩ := h.current hrun hc
    have hfree : ∀ u, some t = some u → r.lib.live u = false := by
      rintro u ⟨rfl⟩
      exact ht
    rcases ((hsame ha₁).spawn_lists attr .user (some t) hfree).of_eq_some hspawn with
      hr | ⟨u, prio, ⟨rfl⟩, hr⟩
    · exact ⟨a, hr, .same (by simp)⟩
    · exact ⟨_, hr, .spawns ht⟩
  | keep _ _ _ _ _ _ hq => exact hquiet hq
  | wait _ _ _ _ _ _ _ _ hq => exact hquiet hq
  | exits _ _ _ _ _ _ hq => exact hquiet hq
  | dies _ _ _ _ _ _ hq => exact hquiet hq
  | waitReturn | attr | exited | killed => exact ⟨a, ha, .same (by simp)⟩
  | joined _ _ _ _ _ _ _ hmem hdel =>
    obtain ⟨s₀, hdel, hq⟩ := hdel
    rw [ha.threads] at hmem
    have hr := ((Sched.delete_path (b := true) ha hmem).of_eq_some hdel).2.1
    exact ⟨_, hq ▸ hr, .collects hmem⟩
  | @comeback now guard still s c _ hsw hc _ _ _ hback =>
    obtain ⟨a₁, ha₁⟩ := h.apart (by simp [hsw, Phase.holds]) hc
    obtain ⟨c', hc', hst⟩ := h.switched hsw
    obtain rfl : c = c' := by simpa [hc] using hc'
    obtain ⟨hcons, -⟩ := ((hsame ha₁).comeback hc hst now still).of_eq_some hback
    exact ⟨_, hcons.repr, .back hc⟩
  | manage _ _ ha₁ hcons hp =>
    obtain rfl : a = _ := funext fun k => ha.entries.symm.trans ha₁.repr.entries
    exact ⟨_, hcons.repr, .passes hp.prio⟩
  | dispatch _ ha₁ _ _ _ _ hdis =>
    obtain ⟨-, -, -, hcons⟩ := (hsame ha₁).dispatch.of_eq_some hdis
    exact ⟨_, hcons.repr, .takes⟩

end Run

end Pth
