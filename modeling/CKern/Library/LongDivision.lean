import Mathlib.Tactic.Linarith
import Mathlib.Tactic.Ring

/-!
# One digit of a long division

A divisor `a + p * D` and a remainder `w + p * u`, where `p` is a power of the base, `D` and `u` are
the leading parts, and `a` and `w` are what is below.

* `high_nonneg`, `high_le`: the leading part of a sum is bounded as the sum is.
* `estimate_bounds`: a digit that is estimated from the leading parts is at most one too large.
* `max_bounds`: if the leading parts are equal, then the largest digit is the right one.
-/

namespace CKern
namespace LongDivision

variable {p a w D : ℤ}

theorem high_nonneg {x e : ℤ} (hp : 0 < p) (hx : x < p) (h : 0 ≤ x + p * e) : 0 ≤ e := by
  by_contra hneg
  have := mul_le_mul_of_nonneg_left (show e ≤ -1 by omega) hp.le
  linarith

theorem high_le {x y e d : ℤ} (hp : 0 < p) (hx : 0 ≤ x) (hy : y < p)
    (h : x + p * e < y + p * d) : e ≤ d := by
  by_contra hlt
  have := mul_le_mul_of_nonneg_left (show d + 1 ≤ e by omega) hp.le
  linarith

/-- **The estimate**: with `u = q * D + r`, what the digit `q` leaves is less than the divisor, and
adding the divisor once makes it positive. -/
theorem estimate_bounds {q r : ℤ} (hp : 0 < p) (ha : 0 ≤ a) (hap : a < p) (hw : 0 ≤ w)
    (hwp : w < p) (hq : 0 ≤ q) (hqD : q ≤ D) (hr : 0 ≤ r) (hrD : r < D) :
    -(a + p * D) ≤ w + p * r - q * a ∧ w + p * r - q * a < a + p * D := by
  have hqa : 0 ≤ q * a := mul_nonneg hq ha
  have hqp : q * a ≤ D * p := mul_le_mul hqD hap.le ha (hq.trans hqD)
  have hpr : 0 ≤ p * r := mul_nonneg hp.le hr
  have hprD := mul_le_mul_of_nonneg_left (show r ≤ D - 1 by omega) hp.le
  constructor <;> linarith

theorem max_bounds {b n : ℤ} (hp : 0 < p) (hap : a < p) (hw : 0 ≤ w) (hb : 1 ≤ b)
    (hbD : b ≤ D) (hn : 0 ≤ n) (hlt : w + p * (D * b + n) < (a + p * D) * b) :
    0 ≤ w + p * (D + n) - (b - 1) * a ∧ w + p * (D + n) - (b - 1) * a < a + p * D := by
  have h1 : (b - 1) * a ≤ (b - 1) * p := mul_le_mul_of_nonneg_left hap.le (by omega)
  have h2 : p * b ≤ p * D := mul_le_mul_of_nonneg_left hbD hp.le
  have h3 : 0 ≤ p * n := mul_nonneg hp.le hn
  constructor <;> linarith

end LongDivision
end CKern
