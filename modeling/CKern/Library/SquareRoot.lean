import Mathlib.Order.Bounds.Basic
import Mathlib.Tactic.Ring
import Mathlib.Tactic.Linarith

/-!
# The square root digit by digit

* `Root`: the part of the root that is known, and what is left of the number.
* `Root.take`, `Root.skip`: the next binary digit is one or zero.
* `Root.isGreatest`: the root is complete.
* `Root.append`: a complete root is the start of the root of a number with more digits.
-/

namespace CKern
namespace SquareRoot

/-- The root of `n` is `p` up to the digits below `d`, and `r` is what is left of `n`. -/
structure Root (n p r d : ℕ) : Prop where
  dvd : d ∣ p
  sum : n = p * p + r
  lt : n < (p + d) * (p + d)

variable {n p r d : ℕ}

theorem root_init (h : n < d * d) : Root n 0 n d :=
  ⟨Nat.dvd_zero d, by rw [zero_mul, zero_add], by rwa [zero_add]⟩

/-- **The next digit is one.** -/
theorem Root.take (h : Root n p r (2 * d)) (hle : 2 * p * d + d * d ≤ r) :
    Root n (p + d) (r - (2 * p * d + d * d)) d := by
  refine ⟨(Nat.dvd_add_right ((Nat.dvd_mul_left d 2).trans h.dvd)).mpr (Nat.dvd_refl d), ?_, ?_⟩
  · have hsq : (p + d) * (p + d) = p * p + (2 * p * d + d * d) := by ring
    rw [h.sum, hsq, add_assoc, Nat.add_sub_cancel' hle]
  · have hlt := h.lt
    rwa [two_mul, ← add_assoc] at hlt

/-- **The next digit is zero.** -/
theorem Root.skip (h : Root n p r (2 * d)) (hlt : r < 2 * p * d + d * d) : Root n p r d := by
  refine ⟨(Nat.dvd_mul_left d 2).trans h.dvd, h.sum, ?_⟩
  calc n = p * p + r := h.sum
    _ < p * p + (2 * p * d + d * d) := Nat.add_lt_add_left hlt _
    _ = (p + d) * (p + d) := by ring

theorem Root.isGreatest (h : Root n p r 1) : IsGreatest {x | x * x ≤ n} p := by
  refine ⟨h.sum ▸ Nat.le_add_right _ _, fun x hx => ?_⟩
  by_contra hlt
  have hmul : (p + 1) * (p + 1) ≤ x * x := Nat.mul_self_le_mul_self (not_le.mp hlt)
  exact absurd (hmul.trans hx) (not_le.mpr h.lt)

theorem Root.add_le (h : Root n p r d) {m : ℕ} (hn : n < d * m * (d * m)) : p + d ≤ d * m := by
  obtain ⟨q, rfl⟩ := h.dvd
  have hlt : d * q < d * m := by
    by_contra hle
    have hmul := Nat.mul_self_le_mul_self (not_lt.mp hle)
    have hsum := h.sum
    omega
  have hq : q + 1 ≤ m := lt_of_mul_lt_mul_left' hlt
  calc d * q + d = d * (q + 1) := by ring
    _ ≤ d * m := Nat.mul_le_mul_left d hq

/-- **A number with more digits.** -/
theorem Root.append (h : Root n p r 1) {c low : ℕ} (hl : low < c * c) :
    Root (n * (c * c) + low) (p * c) (r * (c * c) + low) c := by
  refine ⟨Nat.dvd_mul_left c p, ?_, ?_⟩
  · rw [h.sum]
    ring
  · calc n * (c * c) + low < (n + 1) * (c * c) := by rw [add_mul, one_mul]; omega
      _ ≤ (p + 1) * (p + 1) * (c * c) := Nat.mul_le_mul_right _ h.lt
      _ = (p * c + c) * (p * c + c) := by ring

end SquareRoot
end CKern
