import Mathlib.Algebra.Order.Ring.Nat
import Mathlib.Data.Nat.GCD.Basic
import Mathlib.Tactic.Linarith
import Mathlib.Tactic.Ring

/-!
# Euclid's algorithm with unsigned cofactors

The cofactors of two successive remainders have alternating signs, and the signs are left away.

* `Cofactors`: what holds of two remainders and their cofactors at any time.
* `Cofactors.symm`: the two operands, and with them the two remainders, may change places.
* `Cofactors.step`: one division of the first remainder by the second one.
* `Cofactors.left_eq`, `Cofactors.right_eq`: Bézout's identity of both remainders.
* `Cofactors.gcd_eq`: the greatest common divisor is that of the remainders.
* `Cofactors.s₀_le`, `Cofactors.s₁_le`, `Cofactors.t₀_le`, `Cofactors.t₁_le`: no cofactor exceeds
  the other operand divided by the greatest common divisor.
-/

namespace CKern
namespace Euclid

/-- The remainder `r₀` is `a * s₀ - b * t₀`, and the remainder `r₁` is `b * t₁ - a * s₁`. -/
structure Cofactors (a b r₀ r₁ s₀ s₁ t₀ t₁ : ℕ) : Prop where
  left : a = r₀ * t₁ + r₁ * t₀
  right : b = r₀ * s₁ + r₁ * s₀
  det : s₀ * t₁ = s₁ * t₀ + 1

variable {a b r₀ r₁ s₀ s₁ t₀ t₁ : ℕ}

theorem cofactors_init (a b : ℕ) : Cofactors a b a b 1 0 0 1 :=
  ⟨by rw [mul_one, mul_zero, add_zero], by rw [mul_zero, mul_one, zero_add], rfl⟩

theorem Cofactors.symm (h : Cofactors a b r₀ r₁ s₀ s₁ t₀ t₁) :
    Cofactors b a r₁ r₀ t₁ t₀ s₁ s₀ := by
  refine ⟨?_, ?_, ?_⟩
  · rw [h.right, add_comm]
  · rw [h.left, add_comm]
  · rw [mul_comm, h.det, mul_comm]

/-- **A division with remainder.** -/
theorem Cofactors.step (h : Cofactors a b r₀ r₁ s₀ s₁ t₀ t₁) {q r : ℕ} (hr : r₀ = r + q * r₁) :
    Cofactors a b r r₁ (s₀ + q * s₁) s₁ (t₀ + q * t₁) t₁ := by
  refine ⟨?_, ?_, ?_⟩
  · rw [h.left, hr]
    ring
  · rw [h.right, hr]
    ring
  · rw [add_mul, h.det]
    ring

theorem Cofactors.left_eq (h : Cofactors a b r₀ r₁ s₀ s₁ t₀ t₁) : a * s₀ = b * t₀ + r₀ := by
  calc a * s₀ = r₀ * (s₀ * t₁) + r₁ * t₀ * s₀ := by rw [h.left]; ring
    _ = b * t₀ + r₀ := by rw [h.det, h.right]; ring

theorem Cofactors.right_eq (h : Cofactors a b r₀ r₁ s₀ s₁ t₀ t₁) : b * t₁ = a * s₁ + r₁ :=
  h.symm.left_eq

theorem Cofactors.gcd_eq (h : Cofactors a b r₀ r₁ s₀ s₁ t₀ t₁) : Nat.gcd a b = Nat.gcd r₀ r₁ := by
  refine Nat.dvd_antisymm (Nat.dvd_gcd ?_ ?_) (Nat.dvd_gcd ?_ ?_)
  · exact (Nat.dvd_add_right ((Nat.gcd_dvd_right a b).mul_right t₀)).mp
      (h.left_eq ▸ (Nat.gcd_dvd_left a b).mul_right s₀)
  · exact (Nat.dvd_add_right ((Nat.gcd_dvd_left a b).mul_right s₁)).mp
      (h.right_eq ▸ (Nat.gcd_dvd_right a b).mul_right t₁)
  · rw [h.left]
    exact Nat.dvd_add ((Nat.gcd_dvd_left r₀ r₁).mul_right t₁) ((Nat.gcd_dvd_right r₀ r₁).mul_right t₀)
  · rw [h.right]
    exact Nat.dvd_add ((Nat.gcd_dvd_left r₀ r₁).mul_right s₁) ((Nat.gcd_dvd_right r₀ r₁).mul_right s₀)

theorem Cofactors.s₀_pos (h : Cofactors a b r₀ r₁ s₀ s₁ t₀ t₁) : 0 < s₀ :=
  Nat.pos_of_ne_zero fun h0 =>
    Nat.succ_ne_zero (s₁ * t₀) (h.det.symm.trans (by rw [h0, zero_mul]))

theorem Cofactors.t₁_pos (h : Cofactors a b r₀ r₁ s₀ s₁ t₀ t₁) : 0 < t₁ := h.symm.s₀_pos

/-! ## Bounds -/

theorem Cofactors.s₁_le (h : Cofactors a b r₀ r₁ s₀ s₁ t₀ t₁) (hr : 0 < r₀) :
    s₁ ≤ b / Nat.gcd a b := by
  have hgcd : Nat.gcd a b ≤ r₀ := h.gcd_eq ▸ Nat.gcd_le_left r₁ hr
  have hpos : 0 < Nat.gcd a b := h.gcd_eq ▸ Nat.gcd_pos_of_pos_left r₁ hr
  rw [Nat.le_div_iff_mul_le hpos]
  calc s₁ * Nat.gcd a b ≤ r₀ * s₁ := by rw [mul_comm]; exact Nat.mul_le_mul_right s₁ hgcd
    _ ≤ b := h.right ▸ Nat.le_add_right _ _

theorem Cofactors.s₀_le (h : Cofactors a b r₀ r₁ s₀ s₁ t₀ t₁) (hr : 0 < r₁) :
    s₀ ≤ b / Nat.gcd a b := by
  have hgcd : Nat.gcd a b ≤ r₁ := h.gcd_eq ▸ Nat.gcd_le_right r₀ hr
  have hpos : 0 < Nat.gcd a b := h.gcd_eq ▸ Nat.gcd_pos_of_pos_right r₀ hr
  rw [Nat.le_div_iff_mul_le hpos]
  calc s₀ * Nat.gcd a b ≤ r₁ * s₀ := by rw [mul_comm]; exact Nat.mul_le_mul_right s₀ hgcd
    _ ≤ b := h.right ▸ Nat.le_add_left _ _

theorem Cofactors.t₀_le (h : Cofactors a b r₀ r₁ s₀ s₁ t₀ t₁) (hr : 0 < r₁) :
    t₀ ≤ a / Nat.gcd a b :=
  Nat.gcd_comm a b ▸ h.symm.s₁_le hr

theorem Cofactors.t₁_le (h : Cofactors a b r₀ r₁ s₀ s₁ t₀ t₁) (hr : 0 < r₀) :
    t₁ ≤ a / Nat.gcd a b :=
  Nat.gcd_comm a b ▸ h.symm.s₀_le hr

/-! ## The last division -/

theorem Cofactors.eq_div (h : Cofactors a b 0 r₁ s₀ s₁ t₀ t₁) (hr : 0 < r₁) :
    r₁ = Nat.gcd a b ∧ t₀ = a / Nat.gcd a b ∧ s₀ = b / Nat.gcd a b := by
  have hgcd : Nat.gcd a b = r₁ := h.gcd_eq.trans (Nat.gcd_zero_left r₁)
  have ha := h.left
  have hb := h.right
  rw [zero_mul, zero_add] at ha hb
  rw [hgcd]
  exact ⟨rfl, (Nat.div_eq_of_eq_mul_right hr ha).symm, (Nat.div_eq_of_eq_mul_right hr hb).symm⟩

theorem Cofactors.lt_of_step (h : Cofactors a b r₀ r₁ s₀ s₁ t₀ t₁) {q : ℕ} (hq : 0 < q) :
    s₁ < s₀ + q * s₁ ∧ t₁ ≤ t₀ + q * t₁ ∧ (t₁ = t₀ + q * t₁ → t₁ = 1) := by
  have hs := h.s₀_pos
  have ht := h.t₁_pos
  have hqs : s₁ ≤ q * s₁ := Nat.le_mul_of_pos_left s₁ hq
  have hqt : t₁ ≤ q * t₁ := Nat.le_mul_of_pos_left t₁ hq
  refine ⟨by omega, by omega, fun heq => ?_⟩
  obtain rfl : t₀ = 0 := by omega
  have hdet := h.det
  rw [mul_zero, zero_add] at hdet
  exact Nat.eq_one_of_mul_eq_one_left hdet

theorem lt_add_mul {x y q : ℕ} (hq : 0 < q) (h : 0 < x ∨ 0 < y ∧ 1 < q) : y < x + q * y := by
  rcases h with hx | ⟨hy, hq⟩
  · have hle : y ≤ q * y := Nat.le_mul_of_pos_left y hq
    omega
  · have hlt : 1 * y < q * y := Nat.mul_lt_mul_of_pos_right hq hy
    omega

end Euclid
end CKern
