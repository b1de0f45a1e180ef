import Mathlib.Data.Nat.Log
import Mathlib.Algebra.Order.Ring.Nat

/-!
# The decimal logarithm of `log10.c`

* `log10Int32`, `log10Int64`: the binary logarithm divided by three, with a correction by the table
  of the powers of ten.
* `log10Int32_eq`, `log10Int64_eq`: they are exact.
-/

namespace CKern
namespace Log10

/-- `log2_int`: the index of the highest bit, and 0 for 0. -/
def log2Int (i : ℕ) : ℕ := Nat.log 2 i

/-- `s_pow10`. -/
def sPow10 (n : ℕ) : ℕ := if n = 0 then 0 else 10 ^ n

/-- `log10_int32`. -/
def log10Int32 (i : ℕ) : ℕ :=
  let lg10 := log2Int i / 3
  if sPow10 lg10 > i then lg10 - 1 else lg10

/-- `log10_int64`. -/
def log10Int64 (i : ℕ) : ℕ :=
  let lg10 := log2Int i / 3
  let lg10 := lg10 - if lg10 ≥ 10 then 1 else 0
  let lg10 := lg10 - if lg10 ≥ 20 then 1 else 0
  if sPow10 lg10 > i then lg10 - 1 else lg10

theorem corrected_eq {i lg10 : ℕ} (hi : i ≠ 0) (hlow : 10 ^ (lg10 - 1) ≤ 2 ^ Nat.log 2 i)
    (hhigh : 2 ^ (Nat.log 2 i + 1) ≤ 10 ^ (lg10 + 1)) :
    (if sPow10 lg10 > i then lg10 - 1 else lg10) = Nat.log 10 i := by
  have hpow : 2 ^ Nat.log 2 i ≤ i := Nat.pow_log_le_self 2 hi
  have hlt : i < 2 ^ (Nat.log 2 i + 1) := Nat.lt_pow_succ_log_self Nat.one_lt_two i
  rcases Nat.eq_zero_or_pos lg10 with rfl | hpos
  · rw [if_neg (show ¬sPow10 0 > i from Nat.not_lt_zero i)]
    exact (Nat.log_eq_of_pow_le_of_lt_pow (Nat.one_le_iff_ne_zero.mpr hi)
      (hlt.trans_le hhigh)).symm
  · rw [sPow10, if_neg hpos.ne']
    split
    · rename_i h
      refine (Nat.log_eq_of_pow_le_of_lt_pow (hlow.trans hpow) ?_).symm
      rwa [Nat.sub_add_cancel hpos]
    · rename_i h
      exact (Nat.log_eq_of_pow_le_of_lt_pow (not_lt.mp h) (hlt.trans_le hhigh)).symm

theorem log10Int32_eq {i : ℕ} (h : i < 2 ^ 32) : log10Int32 i = Nat.log 10 i := by
  rcases eq_or_ne i 0 with rfl | hi
  · rfl
  have hall : ∀ L < 32, 10 ^ (L / 3 - 1) ≤ 2 ^ L ∧ 2 ^ (L + 1) ≤ 10 ^ (L / 3 + 1) := by decide
  obtain ⟨hlow, hhigh⟩ := hall (Nat.log 2 i) (Nat.log_lt_of_lt_pow hi h)
  exact corrected_eq hi hlow hhigh

/-- The estimate of `log10_int64`. -/
def estimate64 (lg2 : ℕ) : ℕ :=
  lg2 / 3 - (if lg2 / 3 ≥ 10 then 1 else 0) -
    if lg2 / 3 - (if lg2 / 3 ≥ 10 then 1 else 0) ≥ 20 then 1 else 0

theorem log10Int64_eq {i : ℕ} (h : i < 2 ^ 64) : log10Int64 i = Nat.log 10 i := by
  rcases eq_or_ne i 0 with rfl | hi
  · rfl
  have hall : ∀ L < 64, 10 ^ (estimate64 L - 1) ≤ 2 ^ L ∧ 2 ^ (L + 1) ≤ 10 ^ (estimate64 L + 1) := by
    decide
  obtain ⟨hlow, hhigh⟩ := hall (Nat.log 2 i) (Nat.log_lt_of_lt_pow hi h)
  exact corrected_eq hi hlow hhigh

end Log10
end CKern
