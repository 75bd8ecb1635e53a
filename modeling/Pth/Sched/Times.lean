-- SUMMARY: When comparing, adding and subtracting times is exact.
import Pth.Sched.Timers

/-!
# Time arithmetic

`pth_time_cmp` takes the difference of two `long` values through an `int`, and `pth_time_add`
carries only if the microseconds are more than a second. Both are exact for some pairs of
normalised times and not for others. -/

namespace Pth

namespace Time

variable {x y : Time}

/-! ## Comparing -/

/-- The result of `pth_time_cmp` has the sign of the difference of the times, and the first loop
    of a pass at the time `y` does not take the time point `x` for elapsed if it is in the
    future. -/
structure Compared (τ : Type*) [DecidableEq τ] (x y : Time) : Prop where
  less : x.cmp y < 0 ↔ x.micros < y.micros
  equal : x.cmp y = 0 ↔ x.micros = y.micros
  greater : 0 < x.cmp y ↔ y.micros < x.micros
  waits : ∀ (s : Sched τ) (env : Env τ) (t : τ) (i : ℕ) (sc : Scan τ), s.snapshot = y →
    y.micros < x.micros → ∃ sc', s.scanArgs env t i sc (.time x) = some (false, s, sc', .time x)

/-- What is left of the difference of the seconds in an `int` has its sign. If nothing is left of
    it, the microseconds have. -/
def SecondsFit (x y : Time) : Prop :=
  ((x.tvSec - y.tvSec) % 2 ^ 32 = 0 → x.tvSec = y.tvSec ∨
    (x.tvSec < y.tvSec ∧ x.tvUsec < y.tvUsec) ∨ (y.tvSec < x.tvSec ∧ y.tvUsec < x.tvUsec)) ∧
  ((x.tvSec - y.tvSec) % 2 ^ 32 ≠ 0 →
    (x.tvSec < y.tvSec ↔ 2 ^ 31 ≤ (x.tvSec - y.tvSec) % 2 ^ 32))

instance (x : Time) : Decidable x.Normal := inferInstanceAs (Decidable (_ ∧ _))

instance (x y : Time) : Decidable (SecondsFit x y) :=
  inferInstanceAs (Decidable ((_ → _) ∧ (_ → _)))

/-- `pth_time_cmp` in terms of the remainder of the seconds. -/
theorem cmp_eq_emod (hx : x.Normal) (hy : y.Normal) :
    x.cmp y =
      if (x.tvSec - y.tvSec) % 2 ^ 32 = 0 then x.tvUsec - y.tvUsec
      else if (x.tvSec - y.tvSec) % 2 ^ 32 < 2 ^ 31 then (x.tvSec - y.tvSec) % 2 ^ 32
      else (x.tvSec - y.tvSec) % 2 ^ 32 - 2 ^ 32 := by
  obtain ⟨hx₀, hx₁⟩ := hx
  obtain ⟨hy₀, hy₁⟩ := hy
  have husec : (x.tvUsec - y.tvUsec).bmod (2 ^ 32) = x.tvUsec - y.tvUsec :=
    Int.bmod_eq_of_le (by omega) (by omega)
  rw [cmp, husec, Int.bmod_def]
  push_cast
  split_ifs <;> omega

theorem less_iff (hx : x.Normal) (hy : y.Normal) :
    x.micros < y.micros ↔
      x.tvSec < y.tvSec ∨ (x.tvSec = y.tvSec ∧ x.tvUsec < y.tvUsec) := by
  obtain ⟨hx₀, hx₁⟩ := hx
  obtain ⟨hy₀, hy₁⟩ := hy
  simp only [micros]
  omega

/-- Normalised times with the same value are equal. -/
theorem Normal.ext (hx : x.Normal) (hy : y.Normal) (h : x.micros = y.micros) : x = y := by
  obtain ⟨xs, xu⟩ := x
  obtain ⟨ys, yu⟩ := y
  obtain ⟨hx₀, hx₁⟩ := hx
  obtain ⟨hy₀, hy₁⟩ := hy
  simp only [micros] at h hx₀ hx₁ hy₀ hy₁
  rw [mk.injEq]
  omega

/-- The comparison of normalised times is exact if and only if the difference of the seconds keeps
    its sign in an `int`. -/
theorem compared_iff (τ : Type*) [DecidableEq τ] (hx : x.Normal) (hy : y.Normal) :
    Compared τ x y ↔ SecondsFit x y := by
  have hcmp := cmp_eq_emod hx hy
  have hless := less_iff hx hy
  have hgreater := less_iff hy hx
  have hequal : x.micros = y.micros ↔ ¬ x.micros < y.micros ∧ ¬ y.micros < x.micros := by omega
  constructor
  · rintro ⟨hl, -, hg, -⟩
    rw [hcmp, hless] at hl
    rw [hcmp, hgreater] at hg
    unfold SecondsFit
    split_ifs at * <;> omega
  · intro hfit
    have hl : x.cmp y < 0 ↔ x.micros < y.micros := by
      rw [hcmp, hless]
      unfold SecondsFit at hfit
      split_ifs <;> omega
    have hg : 0 < x.cmp y ↔ y.micros < x.micros := by
      rw [hcmp, hgreater]
      unfold SecondsFit at hfit
      split_ifs <;> omega
    have he : x.cmp y = 0 ↔ x.micros = y.micros := by
      rw [hequal, ← hl, ← hg]
      omega
    refine ⟨hl, he, hg, fun s env t i sc hs hfuture => ?_⟩
    have hnot : ¬ x.cmp s.snapshot < 0 := by
      rw [hs, hl]
      omega
    refine ⟨sc.timer { thread := t, index := i, value := x, isFunc := false }, ?_⟩
    simp [Sched.scanArgs, hnot]

/-- `pth_sleep`: the time point of its event, unless it returns at once. -/
def pthSleep (now : Time) (sec : BitVec 32) : Option Time :=
  if sec = 0 then none else some (now.add { tvSec := sec.toNat, tvUsec := 0 })

theorem compared_iff_hour : Compared ℕ ⟨3600, 0⟩ .zero :=
  (compared_iff ℕ (by decide) (by decide)).mpr (by decide)

/-- A sleep of 2^31 seconds ends in the next pass: its time point is later than `now`, compares as
    earlier, and is tagged. -/
theorem sleep_elapses_early : ∃ x : Time, pthSleep .zero (BitVec.ofNat 32 (2 ^ 31)) = some x ∧
    x.Normal ∧ zero.Normal ∧ x.cmp .zero < 0 ∧ zero.micros < x.micros ∧ ¬ Compared ℕ x .zero ∧
    (Sched.blank 0).scanArgs Sched.quiet 1 0 (Scan.init Sched.quiet) (.time x) =
      some (true, Sched.blank 0, Scan.init Sched.quiet, .time x) := by
  refine ⟨⟨2 ^ 31, 0⟩, rfl, by decide, by decide, by decide, by decide, fun h => ?_, rfl⟩
  exact absurd (h.less.mp (by decide)) (by decide)

/-! ## Adding and subtracting -/

/-- Sums and differences are normalised and have the value they should have, a sum can be undone,
    and a result is equal to another time if their values are. -/
structure Computed (x y : Time) : Prop where
  add_normal : (x.add y).Normal
  add_micros : (x.add y).micros = x.micros + y.micros
  sub_normal : (x.sub y).Normal
  sub_micros : (x.sub y).micros = x.micros - y.micros
  add_sub : (x.add y).sub y = x
  add_eq : ∀ z : Time, z.Normal → (x.add y = z ↔ (x.add y).micros = z.micros)
  sub_eq : ∀ z : Time, z.Normal → (x.sub y = z ↔ (x.sub y).micros = z.micros)

theorem Normal.sub (hx : x.Normal) (hy : y.Normal) : (x.sub y).Normal := by
  obtain ⟨hx₀, hx₁⟩ := hx
  obtain ⟨hy₀, hy₁⟩ := hy
  simp only [Time.sub, Normal]
  split <;> dsimp only <;> omega

theorem add_normal_iff (hx : x.Normal) (hy : y.Normal) :
    (x.add y).Normal ↔ x.tvUsec + y.tvUsec ≠ 1000000 := by
  obtain ⟨hx₀, hx₁⟩ := hx
  obtain ⟨hy₀, hy₁⟩ := hy
  simp only [Time.add, Normal]
  split <;> dsimp only <;> omega

theorem add_sub_cancel (hx : x.Normal) (hy : y.Normal) : (x.add y).sub y = x := by
  obtain ⟨xs, xu⟩ := x
  obtain ⟨hx₀, hx₁⟩ := hx
  obtain ⟨hy₀, hy₁⟩ := hy
  dsimp only at hx₀ hx₁
  simp only [Time.add, Time.sub]
  split <;> split <;> simp only [mk.injEq] at * <;> omega

/-- Time arithmetic is exact if and only if the microseconds do not add up to a second. -/
theorem computed_iff (hx : x.Normal) (hy : y.Normal) :
    Computed x y ↔ x.tvUsec + y.tvUsec ≠ 1000000 := by
  constructor
  · exact fun h => (add_normal_iff hx hy).mp h.add_normal
  · intro hne
    have hadd := (add_normal_iff hx hy).mpr hne
    have hsub := hx.sub hy
    exact ⟨hadd, micros_add x y, hsub, micros_sub x y, add_sub_cancel hx hy,
      fun z hz => ⟨congrArg micros, hadd.ext hz⟩, fun z hz => ⟨congrArg micros, hsub.ext hz⟩⟩

theorem computed_iff_carry : Computed ⟨1, 600000⟩ ⟨2, 500000⟩ :=
  (computed_iff (by decide) (by decide)).mpr (by decide)

/-- Two half seconds. -/
theorem add_not_normal : Normal ⟨0, 500000⟩ ∧ add ⟨0, 500000⟩ ⟨0, 500000⟩ = ⟨0, 1000000⟩ ∧
    ¬ Computed ⟨0, 500000⟩ ⟨0, 500000⟩ := by
  refine ⟨by decide, rfl, fun h => ?_⟩
  exact absurd h.add_normal (by decide)

end Time

end Pth
