-- SUMMARY: Byte-addressed memory: little-endian loads and stores of any width, and how they interact.
import Mathlib.Tactic.Common

/-!
# Byte memory

A memory gives the byte at each address. Words are loaded and stored with the
lowest byte first. -/

/-- The byte at each address. -/
abbrev Bytes := ℕ → BitVec 8

namespace Bytes

variable {m m' : Bytes} {a b n k : ℕ}

/-- The word of `n` bytes at `a`. -/
def load (m : Bytes) (a : ℕ) : (n : ℕ) → BitVec (8 * n)
  | 0 => 0#0
  | n + 1 => m.load (a + 1) n ++ m a

/-- Write a word of `n` bytes at `a`. -/
def store (m : Bytes) (a : ℕ) (n : ℕ) (v : BitVec (8 * n)) : Bytes :=
  fun x => if a ≤ x ∧ x < a + n then v.extractLsb' (8 * (x - a)) 8 else m x

theorem store_of_lt {v : BitVec (8 * n)} {x : ℕ} (hx : x < a ∨ a + n ≤ x) :
    m.store a n v x = m x := by
  unfold store
  rw [if_neg (by omega)]

theorem getLsbD_load (m : Bytes) (a n i : ℕ) :
    (m.load a n).getLsbD i = (decide (i < 8 * n) && (m (a + i / 8)).getLsbD (i % 8)) := by
  induction n generalizing a i with
  | zero => simp [load]
  | succ n ih =>
    rw [load, BitVec.getLsbD_append]
    by_cases hi : i < 8
    · have hdiv : i / 8 = 0 := by omega
      have hmod : i % 8 = i := by omega
      have hlt : i < 8 * (n + 1) := by omega
      simp [hi, hdiv, hmod, hlt]
    · have haddr : a + 1 + (i - 8) / 8 = a + i / 8 := by omega
      have hmod : (i - 8) % 8 = i % 8 := by omega
      have hlt : (i - 8 < 8 * n) = (i < 8 * (n + 1)) := by
        apply propext
        omega
      rw [if_neg hi, ih, haddr, hmod]
      simp only [hlt]

/-- A word depends on its bytes only. -/
theorem load_congr (h : ∀ x, a ≤ x → x < a + n → m x = m' x) : m.load a n = m'.load a n := by
  induction n generalizing a with
  | zero => rfl
  | succ n ih =>
    rw [load, load, h a (by omega) (by omega), ih fun x hx hlt => h x (by omega) (by omega)]

/-- What has been stored is loaded. -/
@[simp] theorem load_store_self (m : Bytes) (a n : ℕ) (v : BitVec (8 * n)) :
    (m.store a n v).load a n = v := by
  refine BitVec.eq_of_getLsbD_eq fun i hi => ?_
  have hin : a ≤ a + i / 8 ∧ a + i / 8 < a + n := by omega
  have hbit : 8 * (a + i / 8 - a) + i % 8 = i := by omega
  have hmod : i % 8 < 8 := by omega
  rw [getLsbD_load, store, if_pos hin, BitVec.getLsbD_extractLsb', hbit]
  simp [hi, hmod]

/-- A store elsewhere changes nothing. -/
theorem load_store_of_disjoint {v : BitVec (8 * k)} (h : a + n ≤ b ∨ b + k ≤ a) :
    (m.store b k v).load a n = m.load a n :=
  load_congr fun _ hx hlt => store_of_lt (by omega)

end Bytes
