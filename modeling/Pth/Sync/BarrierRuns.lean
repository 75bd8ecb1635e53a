-- SUMMARY: Runs of threads that reach a barrier again and again: who may pass, who is left behind, and what is returned.
import Mathlib.Data.Fintype.Card
import Pth.Lib.Machine
import Pth.Sync.Barrier

/-!
# Runs of barriers

The arrivals at a barrier of threshold `n` are numbered from 1, and arrival `k` belongs
to the generation `(k - 1) / n`. The cycle of the barrier is the parity of the number of
complete generations, and each thread in the loop has the parity of its own generation.
So a thread leaves the loop only if its generation is complete, but it misses its
generation if the next one is complete, too, before it looks. -/

namespace Pth

/-- The barrier and where every thread is. `arrivals` counts the arrivals, `num` has the
    number of the last arrival of each thread, and `ret` what the call of each arrival has
    returned. -/
structure BarrierRun (τ : Type*) where
  bar : Barrier τ
  pc : τ → BarrierPc
  arrivals : ℕ
  num : τ → ℕ
  ret : ℕ → Option BarrierRet

/-- A thread calls `pth_barrier_reach` or goes on in it, whatever may have woken it, or
    the event manager clears the condition variable. -/
inductive BarrierOp (τ : Type*) where
  | reach (t : τ)
  | woken (t : τ)
  | pass

namespace BarrierRun

variable {τ : Type*} [DecidableEq τ]

/-- The call of `t` has come as far as `r`, and is arrival `k` of so many arrivals. -/
def record (s : BarrierRun τ) (t : τ) (arrivals k : ℕ) (r : BarrierOut × Barrier τ) :
    BarrierRun τ where
  bar := r.2
  pc := Function.update s.pc t (match r.1 with | .returned _ => .idle | .stopped pc => pc)
  arrivals := arrivals
  num := Function.update s.num t k
  ret := match r.1 with
    | .returned rv => Function.update s.ret k (some rv)
    | .stopped _ => s.ret

/-- The thread has got past `--br_count`, unless it still waits for the mutex. -/
def settle (s : BarrierRun τ) (t : τ) (r : BarrierOut × Barrier τ) :
    Option BarrierOut × BarrierRun τ :=
  (some r.1,
    if (s.pc t).outside ∧ r.1 ≠ .stopped .locking then
      s.record t (s.arrivals + 1) (s.arrivals + 1) r
    else s.record t s.arrivals (s.num t) r)

def exec (s : BarrierRun τ) : BarrierOp τ → Option (Option BarrierOut × BarrierRun τ)
  | .reach t => (s.bar.reach t).map (s.settle t)
  | .woken t => (s.bar.woken t (s.pc t)).map (s.settle t)
  | .pass => some (none, { s with bar := s.bar.clearCond })

def enabled (s : BarrierRun τ) : BarrierOp τ → Prop
  | .reach t => s.pc t = .idle
  | .woken t => s.pc t ≠ .idle
  | .pass => True

instance (s : BarrierRun τ) : (op : BarrierOp τ) → Decidable (s.enabled op)
  | .reach t => inferInstanceAs (Decidable (s.pc t = .idle))
  | .woken t => inferInstanceAs (Decidable (s.pc t ≠ .idle))
  | .pass => inferInstanceAs (Decidable True)

/-- The barrier initialised with the threshold `n`; nobody has called yet. -/
def init (n : ℕ) (s : BarrierRun τ) : Prop :=
  (∃ b : Barrier τ, (∀ t, b.sync.mem.mutexring t = Ring.init) ∧ b.init n = (.ok, s.bar)) ∧
    (∀ t, s.pc t = .idle) ∧ s.arrivals = 0 ∧ ∀ k, s.ret k = none

def machine (n : ℕ) : Machine (BarrierRun τ) (BarrierOp τ) (Option BarrierOut) where
  init := init n
  enabled := enabled
  exec := exec

instance (n : ℕ) (s : BarrierRun τ) (op : BarrierOp τ) : Decidable ((machine n).enabled s op) :=
  inferInstanceAs (Decidable (s.enabled op))

/-- How many arrivals there are when the generation of arrival `k` is complete. -/
def goal (n k : ℕ) : ℕ := n * ((k + n - 1) / n)

/-! ## Generations -/

variable {n k A : ℕ}

theorem goal_le_iff (hn : 0 < n) (hk : 0 < k) : goal n k ≤ A ↔ (k - 1) / n < A / n := by
  have hgen : (k + n - 1) / n = (k - 1) / n + 1 := by
    rw [show k + n - 1 = k - 1 + n by omega, Nat.add_div_right _ hn]
  rw [goal, hgen, Nat.lt_iff_add_one_le, Nat.le_div_iff_mul_le hn, Nat.mul_comm]

/-- The last arrival of a generation completes it. -/
theorem goal_of_dvd (hn : 0 < n) (hk : k % n = 0) : goal n k = k := by
  obtain ⟨q, rfl⟩ := Nat.dvd_of_mod_eq_zero hk
  rw [goal, show n * q + n - 1 = n - 1 + n * q by omega, Nat.add_mul_div_left _ _ hn,
    Nat.div_eq_of_lt (by omega), Nat.zero_add]

theorem succ_div_last (hn : 0 < n) (hA : A % n + 1 = n) :
    (A + 1) % n = 0 ∧ (A + 1) / n = A / n + 1 := by
  have hA' : A + 1 = n * (A / n + 1) := by
    have := Nat.div_add_mod A n
    rw [Nat.mul_add, Nat.mul_one]
    omega
  rw [hA', Nat.mul_mod_right, Nat.mul_div_cancel_left _ hn]
  exact ⟨rfl, rfl⟩

theorem succ_div_inner (hn : 0 < n) (hA : A % n + 1 ≠ n) :
    (A + 1) % n = A % n + 1 ∧ (A + 1) / n = A / n := by
  have hlt : A % n + 1 < n := Nat.lt_of_le_of_ne (Nat.mod_lt A hn) hA
  have hA' : A + 1 = A % n + 1 + n * (A / n) := by
    have := Nat.div_add_mod A n
    omega
  rw [hA', Nat.add_mul_mod_self_left, Nat.add_mul_div_left _ _ hn, Nat.mod_eq_of_lt hlt,
    Nat.div_eq_of_lt hlt, Nat.zero_add]
  simp

/-! ## The invariant -/

/-- What is known of a thread that stands at `pc` after its arrival `k`, when there have
    been `A` arrivals. -/
def Place (n A k : ℕ) : BarrierPc → Prop
  | .idle | .locking => True
  | .notifying rv => rv = .taillight ∧ 0 < k ∧ k ≤ A ∧ k % n = 0
  | .awaiting cycle _ | .relocking cycle _ =>
    0 < k ∧ k ≤ A ∧ k % n ≠ 0 ∧ cycle = decide ((k - 1) / n % 2 = 1)

/-- The call of arrival `k` may have returned `rv`. -/
structure Done (n A k : ℕ) (rv : BarrierRet) : Prop where
  pos : 0 < k
  complete : goal n k ≤ A
  value : rv = if k % n = 0 then .taillight else .ok

/-- The counter and the cycle of a barrier of threshold `n` after `A` arrivals. -/
def gateAt (n A : ℕ) : ℤ × ℤ × Bool := (n, n - (A % n : ℕ), decide (A / n % 2 = 1))

/-- `o` is the owner of the mutex, which is kept between two steps only by a thread that
    notifies the others. -/
structure Good (n : ℕ) (s : BarrierRun τ) (o : Option τ) : Prop where
  sound : s.bar.Sound o
  gate : s.bar.gate = gateAt n s.arrivals
  owner : ∀ t, o = some t ↔ ∃ rv, s.pc t = .notifying rv
  place : ∀ t, Place n s.arrivals (s.num t) (s.pc t)
  ret : ∀ k rv, s.ret k = some rv → Done n s.arrivals k rv

variable {s s' : BarrierRun τ} {t : τ} {o o' : Option τ} {b' : Barrier τ} {out : BarrierOut}

theorem Place.mono {A' : ℕ} {pc : BarrierPc} (h : Place n A k pc) (hA : A ≤ A') :
    Place n A' k pc := by
  cases pc with
  | idle | locking => trivial
  | notifying rv =>
    obtain ⟨hrv, hpos, hle, hmod⟩ := h
    exact ⟨hrv, hpos, hle.trans hA, hmod⟩
  | awaiting cycle cancel | relocking cycle cancel =>
    obtain ⟨hpos, hle, hmod, hcycle⟩ := h
    exact ⟨hpos, hle.trans hA, hmod, hcycle⟩

theorem Place.inLoop {pc : BarrierPc} {cycle : Bool} {cancel : ℕ}
    (hpc : pc.inLoop cycle cancel) :
    Place n A k pc ↔ 0 < k ∧ k ≤ A ∧ k % n ≠ 0 ∧ cycle = decide ((k - 1) / n % 2 = 1) := by
  rcases hpc with rfl | rfl <;> rfl

/-- A thread in the loop has arrived. -/
theorem Place.waits {pc : BarrierPc} (h : Place n A k pc) (hw : pc.waits = true) :
    0 < k ∧ k ≤ A := by
  cases pc with
  | idle | locking | notifying rv => simp [BarrierPc.waits] at hw
  | awaiting cycle cancel | relocking cycle cancel => exact ⟨h.1, h.2.1⟩

theorem Done.mono {A' : ℕ} {rv : BarrierRet} (h : Done n A k rv) (hA : A ≤ A') :
    Done n A' k rv :=
  { h with complete := h.complete.trans hA }

omit [DecidableEq τ] in
theorem Good.init (hn : 0 < n) (h : s.init n) : s.Good n none := by
  obtain ⟨⟨b, hring, hbar⟩, hpc, harr, hret⟩ := h
  have hn' : ¬ (n : ℤ) ≤ 0 := by omega
  simp only [Barrier.init, if_neg hn', Prod.mk.injEq, true_and] at hbar
  refine ⟨?_, ?_, by simp [hpc], fun t => by rw [hpc]; trivial, by simp [hret]⟩
  · rw [← hbar]
    exact ⟨rfl, rfl, by simp [Cond.init, CondState.clear],
      .init (fun m => by simp [MutexState.setMutex]) hring⟩
  · rw [← hbar, harr]
    simp [Barrier.gate, gateAt]

/-- The thread `t` has moved on. -/
theorem Good.record {A' : ℕ} (h : s.Good n o) (hb : b'.Sound o') (hA : s.arrivals ≤ A')
    (hgate : b'.gate = gateAt n A')
    (hplace : Place n A' k (match out with | .returned _ => .idle | .stopped pc => pc))
    (howner : ∀ u, o' = some u ↔ if u = t then ∃ rv, out = .stopped (.notifying rv)
      else o = some u)
    (hret : ∀ rv, out = .returned rv → Done n A' k rv) :
    (s.record t A' k (out, b')).Good n o' where
  sound := hb
  gate := hgate
  owner u := by
    rw [howner]
    by_cases hu : u = t
    · subst hu
      cases out <;> simp [BarrierRun.record]
    · simpa [BarrierRun.record, hu] using h.owner u
  place u := by
    by_cases hu : u = t
    · subst hu
      simpa [BarrierRun.record] using hplace
    · simpa [BarrierRun.record, hu] using (h.place u).mono hA
  ret j rv hj := by
    cases out with
    | stopped pc => exact (h.ret j rv hj).mono hA
    | returned rv' =>
      by_cases hjk : j = k
      · subst hjk
        obtain rfl : rv' = rv := by simpa [BarrierRun.record] using hj
        exact hret rv' rfl
      · exact (h.ret j rv (by simpa [BarrierRun.record, hjk] using hj)).mono hA

/-! ## Steps -/

/-- A step that does not count the thread. -/
theorem settle_stay {r : BarrierOut × Barrier τ}
    (h : (s.pc t).outside = true → r.1 = .stopped .locking) :
    s.settle t r = (some r.1, s.record t s.arrivals (s.num t) r) := by
  unfold settle
  rw [if_neg fun hc => hc.2 (h hc.1)]

/-- A step that counts the thread. -/
theorem settle_count {r : BarrierOut × Barrier τ} (h : (s.pc t).outside = true)
    (hr : r.1 ≠ .stopped .locking) :
    s.settle t r = (some r.1, s.record t (s.arrivals + 1) (s.arrivals + 1) r) := by
  unfold settle
  rw [if_pos ⟨h, hr⟩]

theorem outside_waits {pc : BarrierPc} (h : pc.outside = true) : pc.waits = false := by
  cases pc <;> simp_all [BarrierPc.outside, BarrierPc.waits]

theorem inLoop_outside {pc : BarrierPc} {cycle : Bool} {cancel : ℕ}
    (h : pc.inLoop cycle cancel) : pc.outside = false := by
  rcases h with rfl | rfl <;> rfl

theorem inLoop_waits {pc : BarrierPc} {cycle : Bool} {cancel : ℕ}
    (h : pc.inLoop cycle cancel) : pc.waits = true := by
  rcases h with rfl | rfl <;> rfl

/-- A thread that is in the loop has been counted. -/
theorem settle_inLoop {r : BarrierOut × Barrier τ} {cycle : Bool} {cancel : ℕ}
    (h : (s.pc t).inLoop cycle cancel) :
    s.settle t r = (some r.1, s.record t s.arrivals (s.num t) r) :=
  settle_stay fun hout => by simp [inLoop_outside h] at hout

/-- So has one that notifies the others. -/
theorem settle_notifying {r : BarrierOut × Barrier τ} {rv : BarrierRet}
    (h : s.pc t = .notifying rv) :
    s.settle t r = (some r.1, s.record t s.arrivals (s.num t) r) :=
  settle_stay fun hout => by simp [h, BarrierPc.outside] at hout

omit [DecidableEq τ] in
theorem Good.brCount (h : s.Good n o) : s.bar.brCount = n - (s.arrivals % n : ℕ) :=
  (Prod.mk.inj (Prod.mk.inj h.gate).2).1

omit [DecidableEq τ] in
theorem Good.brCycle (h : s.Good n o) : s.bar.brCycle = decide (s.arrivals / n % 2 = 1) :=
  (Prod.mk.inj (Prod.mk.inj h.gate).2).2

omit [DecidableEq τ] in
theorem Good.brThreshold (h : s.Good n o) : s.bar.brThreshold = n := (Prod.mk.inj h.gate).1

omit [DecidableEq τ] in
/-- The counter is 1 before the last arrival of a generation. -/
theorem Good.last_iff (h : s.Good n o) (hn : 0 < n) :
    s.bar.brCount = 1 ↔ s.arrivals % n + 1 = n := by
  have := Nat.mod_lt s.arrivals hn
  rw [h.brCount]
  omega

/-- The owner of the mutex after a step in which `t` does not begin to notify. -/
theorem owner_quiet (hout : ∀ rv, out ≠ .stopped (.notifying rv)) (ht : o' ≠ some t)
    (ho : ∀ u, u ≠ t → (o' = some u ↔ o = some u)) (u : τ) :
    o' = some u ↔ if u = t then ∃ rv, out = .stopped (.notifying rv) else o = some u := by
  split
  · next hu =>
    subst hu
    simp [hout, ht]
  · next hu => exact ho u hu

omit [DecidableEq τ] in
/-- A thread in the loop that finds the cycle changed belongs to a complete
    generation. -/
theorem Good.done_pass {cycle : Bool} {cancel : ℕ} (h : s.Good n o) (hn : 0 < n)
    (hpc : (s.pc t).inLoop cycle cancel) (hcycle : cycle ≠ s.bar.brCycle) :
    Done n s.arrivals (s.num t) .ok := by
  obtain ⟨hpos, hle, hmod, rfl⟩ := (Place.inLoop hpc).mp (h.place t)
  refine ⟨hpos, (goal_le_iff hn hpos).mpr ?_, by rw [if_neg hmod]⟩
  have hgen : (s.num t - 1) / n ≤ s.arrivals / n := Nat.div_le_div_right (by omega)
  refine Nat.lt_of_le_of_ne hgen fun heq => hcycle ?_
  rw [h.brCycle, heq]

theorem Good.settle {pc : BarrierPc} (h : s.Good n o) (hn : 0 < n) (hpc : s.pc t = pc)
    (he : s.bar.Effect o t pc out b' o') (hb : b'.Sound o') :
    (s.settle t (out, b')).2.Good n o' := by
  have hnot : (∀ rv, pc ≠ .notifying rv) → o ≠ some t := by
    intro hne ho
    obtain ⟨rv, hrv⟩ := (h.owner t).mp ho
    exact hne rv (hpc.symm.trans hrv)
  cases he with
  | block hout ho =>
    rw [settle_stay fun _ => rfl]
    refine h.record hb le_rfl h.gate trivial (owner_quiet (by simp) (hnot ?_) (by simp)) (by simp)
    rintro rv rfl
    simp [BarrierPc.outside] at hout
  | last hout ho hcount hgate hcase =>
    subst hpc
    obtain ⟨hmod, hdiv⟩ := succ_div_last hn ((h.last_iff hn).mp hcount)
    have hgate' : b'.gate = gateAt n (s.arrivals + 1) := by
      rw [hgate, h.brThreshold, h.brCycle, gateAt, hmod, hdiv]
      have hflip : (!decide (s.arrivals / n % 2 = 1)) = decide ((s.arrivals / n + 1) % 2 = 1) := by
        rw [← decide_not]
        exact decide_eq_decide.mpr (by omega)
      simp [hflip]
    have hk : goal n (s.arrivals + 1) ≤ s.arrivals + 1 := (goal_of_dvd hn hmod).le
    rcases hcase with ⟨rfl, rfl⟩ | ⟨rfl, rfl⟩
    · rw [settle_count hout (by simp)]
      refine h.record hb (by omega) hgate' ⟨rfl, by omega, le_rfl, hmod⟩ (fun u => ?_) (by simp)
      split
      · next hu => simp [hu]
      · next hu => simp [ho, Ne.symm hu]
    · rw [settle_count hout (by simp)]
      refine h.record hb (by omega) hgate' trivial
        (owner_quiet (by simp) (by simp) (by simp [ho])) ?_
      rintro rv hrv
      cases hrv
      exact ⟨by omega, hk, by rw [if_pos hmod]⟩
  | arrive hout ho hcount hgate =>
    subst hpc
    obtain ⟨hmod, hdiv⟩ := succ_div_inner hn fun heq => hcount ((h.last_iff hn).mpr heq)
    rw [settle_count hout (by simp)]
    refine h.record hb (by omega) ?_ ⟨by omega, le_rfl, by omega, ?_⟩
      (owner_quiet (by simp) (by simp) (by simp [ho])) (by simp)
    · have hcount' : (n : ℤ) - (s.arrivals % n : ℕ) - 1 = n - (s.arrivals % n + 1 : ℕ) := by omega
      rw [hgate, h.brThreshold, h.brCount, h.brCycle, gateAt, hmod, hdiv, hcount']
    · rw [h.brCycle, Nat.add_sub_cancel]
  | notified ho hgate =>
    subst ho
    obtain ⟨rfl, hpos, hle, hmod⟩ : Place n s.arrivals (s.num t) _ := hpc ▸ h.place t
    rw [settle_notifying hpc]
    refine h.record hb le_rfl (hgate.trans h.gate) trivial
      (owner_quiet (by simp) (by simp) fun u hu => by simp [Ne.symm hu]) ?_
    rintro rv hrv
    cases hrv
    exact ⟨hpos, (goal_of_dvd hn hmod).le.trans hle, by rw [if_pos hmod]⟩
  | relock hin ho =>
    subst hpc
    rw [settle_inLoop hin]
    refine h.record hb le_rfl h.gate ((Place.inLoop hin).mp (h.place t))
      (owner_quiet (by simp) (hnot ?_) (by simp)) (by simp)
    rcases hin with hin | hin <;> simp [hin]
  | again hin ho hcycle hgate =>
    subst hpc
    rw [settle_inLoop hin]
    exact h.record hb le_rfl (hgate.trans h.gate) ((Place.inLoop hin).mp (h.place t))
      (owner_quiet (by simp) (by simp) (by simp [ho])) (by simp)
  | pass hin ho hcycle hgate =>
    subst hpc
    rw [settle_inLoop hin]
    refine h.record hb le_rfl (hgate.trans h.gate) trivial
      (owner_quiet (by simp) (by simp) (by simp [ho])) ?_
    rintro rv hrv
    cases hrv
    exact h.done_pass hn hin hcycle

theorem Good.exec {op : BarrierOp τ} (h : s.Good n o) (hn : 0 < n) (hen : s.enabled op)
    (hop : op = .reach t ∨ op = .woken t) :
    ∃ out b' o', s.exec op = some (s.settle t (out, b')) ∧
      s.bar.Effect o t (s.pc t) out b' o' ∧ (s.settle t (out, b')).2.Good n o' := by
  rcases hop with rfl | rfl
  · have hpc : s.pc t = .idle := hen
    have ho : o ≠ some t := fun ho => by
      obtain ⟨rv, hrv⟩ := (h.owner t).mp ho
      simp [hpc] at hrv
    obtain ⟨⟨out, b'⟩, hreach, o', he, hb⟩ := h.sound.reach ho
    exact ⟨out, b', o', by rw [BarrierRun.exec, hreach]; rfl, hpc ▸ he, h.settle hn hpc he hb⟩
  · obtain ⟨⟨out, b'⟩, hwoken, o', he, hb⟩ := h.sound.woken hen (h.owner t)
    exact ⟨out, b', o', by rw [BarrierRun.exec, hwoken]; rfl, he, h.settle hn rfl he hb⟩

omit [DecidableEq τ] in
theorem Good.pass (h : s.Good n o) : Good n { s with bar := s.bar.clearCond } o :=
  { h with sound := h.sound.clearCond }

/-- A step of a thread does what the barrier lets it do. -/
theorem Good.thread {op : BarrierOp τ} {x : Option BarrierOut} (h : s.Good n o) (hn : 0 < n)
    (hop : op = .reach t ∨ op = .woken t) (hs : (machine n).Step s op x s') :
    ∃ out b' o', x = some out ∧ s' = (s.settle t (out, b')).2 ∧
      s.bar.Effect o t (s.pc t) out b' o' ∧ s'.Good n o' := by
  obtain ⟨hen, hexec⟩ := hs
  obtain ⟨out, b', o', hstep, he, hgood⟩ := h.exec hn hen hop
  have heq : (x, s') = s.settle t (out, b') := Option.some.inj (hexec.symm.trans hstep)
  obtain ⟨rfl, rfl⟩ := Prod.mk.inj heq
  exact ⟨out, b', o', rfl, rfl, he, hgood⟩

theorem Good.step {op : BarrierOp τ} {x : Option BarrierOut} (h : s.Good n o) (hn : 0 < n)
    (hs : (machine n).Step s op x s') : ∃ o', s'.Good n o' := by
  cases op with
  | pass =>
    cases hs.2
    exact ⟨o, h.pass⟩
  | reach t =>
    obtain ⟨out, b', o', -, -, -, hgood⟩ := h.thread hn (.inl rfl) hs
    exact ⟨o', hgood⟩
  | woken t =>
    obtain ⟨out, b', o', -, -, -, hgood⟩ := h.thread hn (.inr rfl) hs
    exact ⟨o', hgood⟩

theorem Good.reach {P : BarrierRun τ → BarrierOp τ → Prop} (hn : 0 < n)
    (h : (machine n).Reach P s) : ∃ o, s.Good n o :=
  h.invariant (I := fun s => ∃ o, s.Good n o) (fun _ hinit => ⟨none, .init hn hinit⟩)
    fun _ _ _ _ hI _ hs => by
      obtain ⟨o, hgood⟩ := hI
      exact hgood.step hn hs

/-- What holds initially, and is kept by the passes and by what the barrier lets a thread
    do, holds in every state reached. -/
theorem Good.invariant {P : BarrierRun τ → BarrierOp τ → Prop} {I : BarrierRun τ → Prop}
    (hn : 0 < n) (hinit : ∀ s, (machine n).init s → I s)
    (hpass : ∀ s, I s → I { s with bar := s.bar.clearCond })
    (hthread : ∀ s o t op out b' o', s.Good n o → I s → (op = .reach t ∨ op = .woken t) → P s op →
      s.bar.Effect o t (s.pc t) out b' o' → I (s.settle t (out, b')).2)
    (h : (machine n).Reach P s) : I s := by
  have hboth := h.invariant (I := fun s => (∃ o, s.Good n o) ∧ I s)
    (fun s hs => ⟨⟨none, .init hn hs⟩, hinit s hs⟩)
    fun s op x s' hI hP hs => by
      obtain ⟨⟨o, hgood⟩, hI⟩ := hI
      refine ⟨hgood.step hn hs, ?_⟩
      cases op with
      | pass =>
        cases hs.2
        exact hpass s hI
      | reach t =>
        obtain ⟨out, b', o', -, rfl, he, -⟩ := hgood.thread hn (.inl rfl) hs
        exact hthread s o t _ out b' o' hgood hI (.inl rfl) hP he
      | woken t =>
        obtain ⟨out, b', o', -, rfl, he, -⟩ := hgood.thread hn (.inr rfl) hs
        exact hthread s o t _ out b' o' hgood hI (.inr rfl) hP he
  exact hboth.2

/-! ## Nobody passes early -/

theorem settle_returned {rv : BarrierRet} :
    (s.settle t (.returned rv, b')).2.ret ((s.settle t (.returned rv, b')).2.num t) = some rv := by
  unfold settle
  split <;> simp [record]

/-- Whenever the mutex is unlocked, the counter is in its range and the cycle is the parity
    of the number of complete generations. A call returns only when the generation of its
    arrival is complete. -/
theorem passes_complete (hn : 1 ≤ n) (h : (machine n).Reachable s) :
    ((s.bar.sync.mem.mutex ()).mxLocked = false → 1 ≤ s.bar.brCount ∧ s.bar.brCount ≤ n ∧
      s.bar.brCycle = decide (s.arrivals / n % 2 = 1)) ∧
    ∀ t op rv s', (op = .reach t ∨ op = .woken t) →
      (machine n).Step s op (some (.returned rv)) s' →
      n * ((s'.num t + n - 1) / n) ≤ s'.arrivals := by
  obtain ⟨o, hgood⟩ := Good.reach hn h
  refine ⟨fun _ => ?_, fun t op rv s' hop hs => ?_⟩
  · have hmod := Nat.mod_lt s.arrivals hn
    rw [hgood.brCount]
    exact ⟨by omega, by omega, hgood.brCycle⟩
  · obtain ⟨out, b', o', hx, rfl, -, hgood'⟩ := hgood.thread hn hop hs
    obtain rfl := Option.some.inj hx
    exact (hgood'.ret _ _ settle_returned).complete

/-- Nobody has called yet. -/
def start (n : ℕ) : BarrierRun τ where
  bar := {
    brInitialized := true
    brThreshold := n
    brCount := n
    brCycle := false
    sync := {
      mem := { mutex := fun _ => .init, node := ⟨fun _ => none, fun _ => none⟩,
               mutexring := fun _ => .init }
      cond := fun _ => .init }
    cancelstate := fun _ => cancelDefault }
  pc _ := .idle
  arrivals := 0
  num _ := 0
  ret _ := none

omit [DecidableEq τ] in
theorem start_init (hn : 0 < n) : init n (start n : BarrierRun τ) := by
  refine ⟨⟨(start n).bar, fun _ => rfl, ?_⟩, fun _ => rfl, rfl, fun _ => rfl⟩
  have hn' : ¬ (n : ℤ) ≤ 0 := by omega
  rw [Barrier.init, if_neg hn']
  congr

/-- The first of two threads returns once the second one has come. -/
theorem passes_complete_two : ∃ s s' : BarrierRun ℕ, (machine 2).Reachable s ∧
    (machine 2).Step s (.woken 0) (some (.returned .ok)) s' ∧ s'.num 0 = 1 ∧
    2 * ((s'.num 0 + 2 - 1) / 2) ≤ s'.arrivals := by
  have h₀ := Machine.Reach.init (M := machine 2) (P := fun _ _ => True)
    (start_init (τ := ℕ) (n := 2) (by decide))
  obtain ⟨s, x, s', hs, hstep, hnum, rfl⟩ := h₀.play_step
    (l := [.reach 0, .reach 1, .pass, .woken 0, .woken 1]) (i := .woken 0)
    (p := fun _ x s' => s'.num 0 = 1 ∧ x = some (.returned .ok)) (by decide)
  exact ⟨s, s', hs, hstep, hnum, (passes_complete (by decide) hs).2 0 _ _ s' (.inr rfl) hstep⟩

/-! ## Who is left behind -/

/-- When a thread completes a generation, no thread of an earlier one is still inside the
    loop. -/
def Timely (n : ℕ) (s : BarrierRun τ) : BarrierOp τ → Prop
  | .reach t | .woken t =>
    (s.pc t).outside = true → (s.bar.sync.mem.mutex ()).mxLocked = false → s.bar.brCount = 1 →
      ∀ u, (s.pc u).waits = true → s.arrivals < n * ((s.num u + n - 1) / n)
  | .pass => True

instance [Fintype τ] (n : ℕ) (s : BarrierRun τ) : (op : BarrierOp τ) → Decidable (s.Timely n op)
  | .reach _ | .woken _ => inferInstanceAs (Decidable (_ → _ → _ → _))
  | .pass => inferInstanceAs (Decidable True)

/-- At most one generation has been completed after the one of any thread in the loop. -/
def Close (n : ℕ) (s : BarrierRun τ) : Prop :=
  ∀ u, (s.pc u).waits = true → s.arrivals / n ≤ (s.num u - 1) / n + 1

/-- A step of `t` keeps close what the other threads allow. -/
theorem close_record {A' : ℕ} {r : BarrierOut × Barrier τ}
    (hothers : ∀ u, u ≠ t → (s.pc u).waits = true → A' / n ≤ (s.num u - 1) / n + 1)
    (ht : ∀ pc, r.1 = .stopped pc → pc.waits = true → A' / n ≤ (k - 1) / n + 1) :
    Close n (s.record t A' k r) := by
  intro u hu
  by_cases hut : u = t
  · subst hut
    cases hout : r.1 with
    | returned rv => simp [record, hout, BarrierPc.waits] at hu
    | stopped pc =>
      have hw : pc.waits = true := by simpa [record, hout] using hu
      simpa [record] using ht pc hout hw
  · simp only [record, Function.update_of_ne hut] at hu ⊢
    exact hothers u hut hu

omit [DecidableEq τ] in
theorem Good.unlocked (h : s.Good n o) (ho : o = none) :
    (s.bar.sync.mem.mutex ()).mxLocked = false :=
  h.sound.owned.unlocked ho

omit [DecidableEq τ] in
theorem Good.locked (h : s.Good n o) (ho : o ≠ none) :
    (s.bar.sync.mem.mutex ()).mxLocked = true :=
  h.sound.owned.locked ho

theorem Close.settle (hn : 0 < n) (h : s.Close n) (hgood : s.Good n o)
    (he : s.bar.Effect o t (s.pc t) out b' o')
    (htime : (s.pc t).outside = true → (s.bar.sync.mem.mutex ()).mxLocked = false →
      s.bar.brCount = 1 → ∀ u, (s.pc u).waits = true →
        s.arrivals < n * ((s.num u + n - 1) / n)) :
    (s.settle t (out, b')).2.Close n := by
  generalize hpc : s.pc t = pc at he
  cases he with
  | block hout ho =>
    rw [settle_stay fun _ => rfl]
    refine close_record (fun u _ hu => h u hu) fun pc hout hw => ?_
    cases hout
    simp [BarrierPc.waits] at hw
  | last hout ho hcount hgate hcase =>
    subst hpc
    obtain ⟨-, hdiv⟩ := succ_div_last hn ((hgood.last_iff hn).mp hcount)
    rw [settle_count hout (by rcases hcase with ⟨rfl, -⟩ | ⟨rfl, -⟩ <;> simp)]
    refine close_record (fun u _ hu => ?_) fun pc hpc hw => ?_
    · -- the generation of `u` was not complete before
      have hlt := htime hout (hgood.unlocked ho) hcount u hu
      obtain ⟨hpos, -⟩ := (hgood.place u).waits hu
      have hgen := mt (goal_le_iff hn hpos).mpr (Nat.not_le.mpr hlt)
      rw [hdiv]
      omega
    · rcases hcase with ⟨rfl, -⟩ | ⟨rfl, -⟩
      · cases hpc
        simp [BarrierPc.waits] at hw
      · cases hpc
  | arrive hout ho hcount hgate =>
    subst hpc
    obtain ⟨-, hdiv⟩ := succ_div_inner hn fun heq => hcount ((hgood.last_iff hn).mpr heq)
    rw [settle_count hout (by simp)]
    refine close_record (fun u _ hu => ?_) fun pc hpc hw => ?_
    · rw [hdiv]
      exact h u hu
    · rw [hdiv, Nat.add_sub_cancel]
      omega
  | notified ho hgate =>
    rw [settle_notifying hpc]
    exact close_record (fun u _ hu => h u hu) fun pc hpc hw => by cases hpc
  | relock hin ho | again hin ho hcycle hgate =>
    subst hpc
    rw [settle_inLoop hin]
    exact close_record (fun u _ hu => h u hu) fun pc hpc hw => h t (inLoop_waits hin)
  | pass hin ho hcycle hgate =>
    subst hpc
    rw [settle_inLoop hin]
    exact close_record (fun u _ hu => h u hu) fun pc hpc hw => by cases hpc

theorem Close.reach (hn : 0 < n) (h : (machine n).Reach (Timely n) s) : s.Close n := by
  refine Good.invariant (I := Close n) hn (fun s hinit u hu => ?_) (fun s hI => hI) ?_ h
  · simp [hinit.2.1, BarrierPc.waits] at hu
  · intro s o t op out b' o' hgood hclose hop hP he
    rcases hop with rfl | rfl <;> exact hclose.settle hn hgood he hP

/-- In timely runs a thread of a complete generation leaves the loop as soon as it has the
    mutex, and never waits for the condition again. -/
theorem timely_leaves (hn : 1 ≤ n) (h : (machine n).Reach (Timely n) s)
    (hw : (s.pc t).waits = true) (hdone : n * ((s.num t + n - 1) / n) ≤ s.arrivals) :
    ∃ out s', (machine n).Step s (.woken t) (some out) s' ∧
      (out = .returned .ok ∨ (s.bar.sync.mem.mutex ()).mxLocked = true ∧
        ∃ cycle cancel, out = .stopped (.relocking cycle cancel)) := by
  obtain ⟨o, hgood⟩ := Good.reach hn h
  have hclose := Close.reach hn h t hw
  have hen : s.enabled (.woken t) := fun hidle => by simp [hidle, BarrierPc.waits] at hw
  obtain ⟨out, b', o', hexec, he, -⟩ := hgood.exec hn hen (.inr rfl)
  refine ⟨out, (s.settle t (out, b')).2, ⟨hen, hexec⟩, ?_⟩
  generalize hpc : s.pc t = pc at he
  rw [hpc] at hw
  cases he with
  | block hout ho | last hout | arrive hout => simp [outside_waits hout] at hw
  | notified => simp [BarrierPc.waits] at hw
  | relock hin ho => exact .inr ⟨hgood.locked ho, _, _, rfl⟩
  | pass hin ho hcycle hgate => exact .inl rfl
  | again hin ho hcycle hgate =>
    -- exactly one generation is complete after the thread's, so the cycle has changed
    subst hpc
    obtain ⟨hpos, -, -, hgen⟩ := (Place.inLoop hin).mp (hgood.place t)
    have hlt := (goal_le_iff hn hpos).mp hdone
    rw [hgen, hgood.brCycle, decide_eq_decide] at hcycle
    omega

/-- A thread of a complete generation that has the mutex to itself leaves. -/
theorem timely_leaves_two : ∃ s : BarrierRun (Fin 2), (machine 2).Reach (Timely 2) s ∧
    (s.pc 0).waits = true ∧ 2 * ((s.num 0 + 2 - 1) / 2) ≤ s.arrivals ∧
    ∃ out s', (machine 2).Step s (.woken 0) (some out) s' ∧
      (out = .returned .ok ∨ (s.bar.sync.mem.mutex ()).mxLocked = true ∧
        ∃ cycle cancel, out = .stopped (.relocking cycle cancel)) := by
  have h₀ := Machine.Reach.init (M := machine 2) (P := Timely 2)
    (start_init (τ := Fin 2) (n := 2) (by decide))
  obtain ⟨s, hs, hw, hdone⟩ := h₀.play (l := [.reach 0, .reach 1, .pass, .woken 1])
    (p := fun s => (s.pc 0).waits = true ∧ 2 * ((s.num 0 + 2 - 1) / 2) ≤ s.arrivals) (by decide)
  exact ⟨s, hs, hw, hdone, timely_leaves (by decide) hs hw hdone⟩

/-- Three threads at a barrier of threshold 2: thread 0 is woken for its generation, but
    threads 1 and 2 complete the next one before it has the mutex, and it waits for the
    condition again. -/
theorem waits_after_complete : ∃ s s' : BarrierRun (Fin 3), (machine 2).Reachable s ∧
    (s.pc 0).waits = true ∧ s.num 0 = 1 ∧ 2 * ((s.num 0 + 2 - 1) / 2) ≤ s.arrivals ∧
    ∃ cancel, (machine 2).Step s (.woken 0) (some (.stopped (.awaiting false cancel))) s' := by
  have h₀ := Machine.Reach.init (M := machine 2) (P := fun _ _ => True)
    (start_init (τ := Fin 3) (n := 2) (by decide))
  obtain ⟨s, x, s', hs, hstep, hw, hnum, hdone, rfl⟩ := h₀.play_step
    (l := [.reach 0, .reach 1, .pass, .woken 0, .woken 1, .reach 1, .reach 2, .pass, .woken 0,
      .woken 2]) (i := .woken 0)
    (p := fun s x _ => (s.pc 0).waits = true ∧ s.num 0 = 1 ∧
      2 * ((s.num 0 + 2 - 1) / 2) ≤ s.arrivals ∧
      x = some (.stopped (.awaiting false cancelDefault))) (by decide)
  exact ⟨s, s', hs, hw, hnum, hdone, _, hstep⟩

/-! ## As many threads as the threshold -/

section Few

variable [Fintype τ]

/-- The threads of the generation that is not complete yet. -/
def current (n : ℕ) (s : BarrierRun τ) : Finset τ :=
  {u | (s.pc u).waits = true ∧ (s.num u - 1) / n = s.arrivals / n}

omit [DecidableEq τ] in
theorem mem_current {u : τ} : u ∈ s.current n ↔
    (s.pc u).waits = true ∧ (s.num u - 1) / n = s.arrivals / n := by
  simp [current]

/-- The threads other than `t` in the generation that is not complete after a step of
    `t`. -/
theorem mem_current_record {A' : ℕ} {r : BarrierOut × Barrier τ} {u : τ} (hu : u ≠ t) :
    u ∈ (s.record t A' k r).current n ↔
      (s.pc u).waits = true ∧ (s.num u - 1) / n = A' / n := by
  simp [mem_current, record, hu]

theorem mem_current_record_self {A' : ℕ} {r : BarrierOut × Barrier τ} :
    t ∈ (s.record t A' k r).current n ↔
      (∃ pc, r.1 = .stopped pc ∧ pc.waits = true) ∧ (k - 1) / n = A' / n := by
  cases hout : r.1 <;> simp [mem_current, record, hout, BarrierPc.waits]

/-- A step that does not count `t`, and keeps it in the loop if its generation is not
    complete. -/
theorem current_record_same {r : BarrierOut × Barrier τ}
    (ht : (s.num t - 1) / n = s.arrivals / n →
      ((∃ pc, r.1 = .stopped pc ∧ pc.waits = true) ↔ (s.pc t).waits = true)) :
    (s.record t s.arrivals (s.num t) r).current n = s.current n := by
  ext u
  by_cases hu : u = t
  · subst hu
    rw [mem_current_record_self, mem_current]
    exact and_congr_left ht
  · rw [mem_current_record hu, mem_current]

omit [DecidableEq τ] [Fintype τ] in
/-- Nobody has arrived in a generation that is still to come. -/
theorem Good.gen_le (h : s.Good n o) {u : τ} (hu : (s.pc u).waits = true) :
    (s.num u - 1) / n ≤ s.arrivals / n := by
  obtain ⟨-, hle⟩ := (h.place u).waits hu
  exact Nat.div_le_div_right (by omega)

theorem Good.card_settle {pc : BarrierPc} (h : s.Good n o) (hn : 0 < n) (hpc : s.pc t = pc)
    (he : s.bar.Effect o t pc out b' o') (hcard : (s.current n).card = s.arrivals % n) :
    ((s.settle t (out, b')).2.current n).card = (s.settle t (out, b')).2.arrivals % n := by
  cases he with
  | block hout ho =>
    rw [settle_stay fun _ => rfl, current_record_same fun _ => ?_]
    · exact hcard
    · rw [hpc, outside_waits hout]
      simp [BarrierPc.waits]
  | last hout ho hcount hgate hcase =>
    subst hpc
    obtain ⟨hmod, hdiv⟩ := succ_div_last hn ((h.last_iff hn).mp hcount)
    rw [settle_count hout (by rcases hcase with ⟨rfl, -⟩ | ⟨rfl, -⟩ <;> simp)]
    show _ = (s.arrivals + 1) % n
    rw [hmod, Finset.card_eq_zero, Finset.eq_empty_iff_forall_notMem]
    intro u hu
    by_cases hut : u = t
    · subst hut
      rw [mem_current_record_self] at hu
      rcases hcase with ⟨rfl, -⟩ | ⟨rfl, -⟩ <;> simp [BarrierPc.waits] at hu
    · rw [mem_current_record hut, hdiv] at hu
      have := h.gen_le hu.1
      omega
  | arrive hout ho hcount hgate =>
    subst hpc
    obtain ⟨hmod, hdiv⟩ := succ_div_inner hn fun heq => hcount ((h.last_iff hn).mpr heq)
    have hself : t ∉ s.current n := by simp [mem_current, outside_waits hout]
    rw [settle_count hout (by simp)]
    show _ = (s.arrivals + 1) % n
    rw [hmod, ← hcard, ← Finset.card_insert_of_notMem hself]
    congr 1
    ext u
    by_cases hut : u = t
    · subst hut
      simp [mem_current_record_self, BarrierPc.waits, hdiv]
    · rw [mem_current_record hut, Finset.mem_insert, mem_current, hdiv]
      simp [hut]
  | notified ho hgate =>
    rw [settle_notifying hpc, current_record_same fun _ => by simp [hpc, BarrierPc.waits]]
    exact hcard
  | relock hin ho | again hin ho hcycle hgate =>
    subst hpc
    rw [settle_inLoop hin,
      current_record_same fun _ => iff_of_true ⟨_, rfl, rfl⟩ (inLoop_waits hin)]
    exact hcard
  | pass hin ho hcycle hgate =>
    subst hpc
    obtain ⟨hpos, -⟩ := (Place.inLoop hin).mp (h.place t)
    have hlt := (goal_le_iff hn hpos).mp (h.done_pass hn hin hcycle).complete
    rw [settle_inLoop hin,
      current_record_same fun hgen => absurd hgen hlt.ne]
    exact hcard

theorem card_current (hn : 0 < n) (h : (machine n).Reachable s) :
    (s.current n).card = s.arrivals % n := by
  refine Good.invariant (I := fun s => (s.current n).card = s.arrivals % n) hn
    (fun s hinit => ?_) (fun s hI => hI) ?_ h
  · simp [current, hinit.2.1, hinit.2.2.1, BarrierPc.waits]
  · exact fun s o t op out b' o' hgood hcard _ _ he => hgood.card_settle hn rfl he hcard

/-- With at most as many threads as the threshold, every step is timely. -/
theorem few_timely (hn : 0 < n) (hcard : Fintype.card τ ≤ n) (h : (machine n).Reachable s)
    (op : BarrierOp τ) : s.Timely n op := by
  obtain ⟨o, hgood⟩ := Good.reach hn h
  have hlate : ∀ t, (s.pc t).outside = true → s.bar.brCount = 1 → ∀ u, (s.pc u).waits = true →
      s.arrivals < n * ((s.num u + n - 1) / n) := by
    intro t hout hcount u hu
    obtain ⟨hpos, -⟩ := (hgood.place u).waits hu
    refine Nat.not_le.mp fun hle => ?_
    have hlt := (goal_le_iff hn hpos).mp hle
    have hut : u ≠ t := by
      rintro rfl
      simp [outside_waits hout] at hu
    have hu' : u ∉ s.current n := fun hmem => by
      have := (mem_current.mp hmem).2
      omega
    have ht' : t ∉ s.current n := by simp [mem_current, outside_waits hout]
    -- the waiting threads of this generation, the arriving one and the late one
    have hle := Finset.card_le_univ (insert u (insert t (s.current n)))
    rw [Finset.card_insert_of_notMem (by simp [hut, hu']), Finset.card_insert_of_notMem ht',
      card_current hn h] at hle
    have := (hgood.last_iff hn).mp hcount
    omega
  cases op with
  | pass => trivial
  | reach t => exact fun hout _ hcount => hlate t hout hcount
  | woken t => exact fun hout _ hcount => hlate t hout hcount

/-- So with at most as many threads as the threshold nobody is left behind. -/
theorem few_reach (hn : 0 < n) (hcard : Fintype.card τ ≤ n) (h : (machine n).Reachable s) :
    (machine n).Reach (Timely n) s := by
  induction h with
  | init h => exact .init h
  | step h _ hs ih => exact ih.step (few_timely hn hcard h _) hs

end Few

/-! ## What is returned -/

/-- What the calls of generation `g` are meant to return: the first arrival is the
    headlight, the last one the taillight, and the others get `TRUE`. -/
def Lights (n g : ℕ) (ret : ℕ → Option BarrierRet) : Prop :=
  ret (g * n + 1) = some .headlight ∧ ret ((g + 1) * n) = some .taillight ∧
    ∀ k, g * n + 1 < k → k < (g + 1) * n → ret k = some .ok

/-- Of a generation whose calls have all returned, the last arrival got the taillight and
    all others `TRUE`. The first one gets no headlight: the test for it comes after the
    decrement, and the loop would overwrite it. -/
theorem lights_never (hn : 2 ≤ n) (h : (machine n).Reachable s) (g : ℕ)
    (hret : ∀ k, g * n < k → k ≤ (g + 1) * n → s.ret k ≠ none) :
    s.ret ((g + 1) * n) = some .taillight ∧
      (∀ k, g * n < k → k < (g + 1) * n → s.ret k = some .ok) ∧ ¬ Lights n g s.ret := by
  obtain ⟨o, hgood⟩ := Good.reach (by omega) h
  have hvalue : ∀ k, g * n < k → k ≤ (g + 1) * n →
      s.ret k = some (if k % n = 0 then .taillight else .ok) := by
    intro k hlo hhi
    obtain ⟨rv, hrv⟩ := Option.ne_none_iff_exists'.mp (hret k hlo hhi)
    rw [hrv, (hgood.ret k rv hrv).value]
  have hinner : ∀ k, g * n < k → k < (g + 1) * n → s.ret k = some .ok := by
    intro k hlo hhi
    rw [Nat.add_mul, Nat.one_mul] at hhi
    have hmod : k % n = k - g * n := by
      rw [show k = k - g * n + g * n by omega, Nat.add_mul_mod_self_right,
        Nat.mod_eq_of_lt (by omega)]
      omega
    rw [hvalue k hlo (by rw [Nat.add_mul, Nat.one_mul]; omega), if_neg (by omega)]
  have hlen : (g + 1) * n = g * n + n := by rw [Nat.add_mul, Nat.one_mul]
  have hlast := hvalue ((g + 1) * n) (by omega) le_rfl
  rw [Nat.mul_mod_left, if_pos rfl] at hlast
  refine ⟨hlast, hinner, ?_⟩
  rintro ⟨hhead, -⟩
  rw [hinner (g * n + 1) (by omega) (by omega)] at hhead
  cases hhead

/-- Two threads, which have both returned. -/
theorem lights_never_two : ∃ s : BarrierRun (Fin 2), (machine 2).Reachable s ∧
    (∀ k, 0 * 2 < k → k ≤ (0 + 1) * 2 → s.ret k ≠ none) ∧
    s.ret ((0 + 1) * 2) = some .taillight ∧
      (∀ k, 0 * 2 < k → k < (0 + 1) * 2 → s.ret k = some .ok) ∧ ¬ Lights 2 0 s.ret := by
  have h₀ := Machine.Reach.init (M := machine 2) (P := fun _ _ => True)
    (start_init (τ := Fin 2) (n := 2) (by decide))
  obtain ⟨s, hs, h₁, h₂⟩ := h₀.play (l := [.reach 0, .reach 1, .pass, .woken 1, .woken 0])
    (p := fun s => s.ret 1 ≠ none ∧ s.ret 2 ≠ none) (by decide)
  have hret : ∀ k, 0 * 2 < k → k ≤ (0 + 1) * 2 → s.ret k ≠ none := by
    intro k hlo hhi
    obtain rfl | rfl : k = 1 ∨ k = 2 := by omega
    · exact h₁
    · exact h₂
  exact ⟨s, hs, hret, lights_never (by decide) hs 0 hret⟩

/-- Two threads: the first to arrive returns `TRUE`. -/
theorem first_returns_ok : ∃ s : BarrierRun (Fin 2), (machine 2).Reachable s ∧
    s.ret 1 = some .ok ∧ s.ret 2 = some .taillight ∧ ¬ Lights 2 0 s.ret := by
  have h₀ := Machine.Reach.init (M := machine 2) (P := fun _ _ => True)
    (start_init (τ := Fin 2) (n := 2) (by decide))
  obtain ⟨s, hs, h₁, h₂⟩ := h₀.play (l := [.reach 0, .reach 1, .pass, .woken 1, .woken 0])
    (p := fun s => s.ret 1 = some .ok ∧ s.ret 2 = some .taillight) (by decide)
  refine ⟨s, hs, h₁, h₂, ?_⟩
  rintro ⟨hhead, -⟩
  cases h₁.symm.trans hhead

end BarrierRun

end Pth
