-- SUMMARY: Numerals in any base: the digits of a number up to a cut-off, and reading them back.
import Mathlib.Data.Nat.Digits.Lemmas

/-!
# Numerals

The digits of a number as a loop of divisions makes them, lowest first and with a bound on
its rounds, and the number that a string of digits reads as. -/

namespace Numeral

variable {α : Type*} {b n k j : ℕ}

/-- The digits of `n` in base `b`, lowest first: at least one, and `k` of them at most. -/
def digits (b : ℕ) : ℕ → ℕ → List ℕ
  | 0, _ => []
  | k + 1, n => n % b :: if n / b = 0 then [] else digits b k (n / b)

theorem digits_lt (hb : 0 < b) : ∀ d ∈ digits b k n, d < b := by
  induction k generalizing n with
  | zero => simp [digits]
  | succ k ih =>
    intro d hd
    rw [digits, List.mem_cons] at hd
    rcases hd with rfl | hd
    · exact Nat.mod_lt n hb
    · split at hd
      · simp at hd
      · exact ih d hd

theorem length_digits_le : (digits b k n).length ≤ k := by
  induction k generalizing n with
  | zero => simp [digits]
  | succ k ih =>
    rw [digits, List.length_cons]
    split
    · simp
    · exact Nat.succ_le_succ ih

/-- Dropping the highest digits is stopping the loop earlier. -/
theorem take_digits : (digits b k n).take j = digits b (min j k) n := by
  induction k generalizing n j with
  | zero => simp [digits]
  | succ k ih =>
    cases j with
    | zero => simp [digits]
    | succ j =>
      rw [Nat.succ_min_succ, digits, digits, List.take_succ_cons]
      split
      · simp
      · rw [ih]

/-- The digits that are kept are those of the remainder. -/
theorem ofDigits_digits (b k n : ℕ) : Nat.ofDigits b (digits b k n) = n % b ^ k := by
  induction k generalizing n with
  | zero => simp [digits, Nat.mod_one]
  | succ k ih =>
    rw [digits, Nat.ofDigits_cons, Nat.pow_succ', Nat.mod_mul]
    split
    · rename_i hdiv
      simp [hdiv]
    · rw [ih]

/-- How many digits a number has that the cut-off does not touch. -/
theorem length_digits_le_iff (hb : 0 < b) (hn : n < b ^ k) (hj : 1 ≤ j) :
    (digits b k n).length ≤ j ↔ n < b ^ j := by
  induction k generalizing n j with
  | zero =>
    have hzero : n = 0 := by simpa using hn
    simp [digits, hzero, hb]
  | succ k ih =>
    obtain ⟨j, rfl⟩ : ∃ i, j = i + 1 := ⟨j - 1, by omega⟩
    have hlt : n / b < b ^ j ↔ n < b ^ (j + 1) := by
      rw [Nat.div_lt_iff_lt_mul hb, Nat.pow_succ]
    rw [digits, List.length_cons, Nat.add_le_add_iff_right, ← hlt]
    split
    · rename_i hdiv
      simp [hdiv, hb]
    · rename_i hdiv
      have hn' : n / b < b ^ k := by rwa [Nat.div_lt_iff_lt_mul hb, ← Nat.pow_succ]
      cases j with
      | zero =>
        -- one digit is not enough for a number with a quotient
        have hlen : (digits b k (n / b)).length ≠ 0 := by
          cases k with
          | zero => simp [hdiv] at hn'
          | succ k => simp [digits]
        simp [hlen, hdiv]
      | succ j => exact ih hn' (by omega)

/-- The number that the string `s` reads as, highest digit first; `value` gives the digits. -/
def read (value : α → Option ℕ) (b : ℕ) (s : List α) : Option ℕ :=
  s.foldlM (fun acc c => (value c).bind fun d => if d < b then some (b * acc + d) else none) 0

/-- Every character of a string that reads as a number is a digit. -/
theorem isSome_of_read {value : α → Option ℕ} {s : List α} (h : read value b s = some n) :
    ∀ c ∈ s, (value c).isSome := by
  rw [read] at h
  generalize 0 = m at h
  induction s generalizing m with
  | nil => simp
  | cons c s ih =>
    rw [List.foldlM_cons, Option.bind_eq_bind, Option.bind_eq_some_iff] at h
    obtain ⟨m', hm', h⟩ := h
    obtain ⟨d, hd, -⟩ := Option.bind_eq_some_iff.mp hm'
    intro c' hc'
    rcases List.mem_cons.mp hc' with rfl | hc'
    · simp [hd]
    · exact ih m' h c' hc'

/-- Digits written with symbols of their own read as the number that they are the digits of. -/
theorem read_reverse_map {value : α → Option ℕ} {symbol : ℕ → α} {l : List ℕ}
    (hsymbol : ∀ d ∈ l, value (symbol d) = some d) (hl : ∀ d ∈ l, d < b) :
    read value b (l.reverse.map symbol) = some (Nat.ofDigits b l) := by
  induction l with
  | nil => simp [read]
  | cons d l ih =>
    have htail : read value b (l.reverse.map symbol) = some (Nat.ofDigits b l) :=
      ih (fun d hd => hsymbol d (by simp [hd])) fun d hd => hl d (by simp [hd])
    rw [read] at htail ⊢
    have hd : value (symbol d) = some d := hsymbol d (by simp)
    have hlt : d < b := hl d (by simp)
    rw [List.reverse_cons, List.map_append, List.foldlM_append, htail]
    simp [hd, hlt, Nat.ofDigits_cons, Nat.add_comm]

end Numeral
