import CKern.Math.Float.Decimal.AddSub
import Mathlib.Data.Sign.Basic
import Mathlib.Data.Int.ConditionallyCompleteOrder

/-!
# `math/float/decimal.c`: comparison

* `cmpDecimal`, `cmpmagnitudeDecimal`: the functions, with the loop over the common digits
  `cmpDigits` and the loop over the digits that only one operand has.
* `cmpmagnitudeDecimal_eq`, `cmpDecimal_eq`: they return the sign of the difference.
* `subDecimal_value_eq_zero_iff`: a difference that could be computed is zero exactly if the values
  are equal.
-/

namespace CKern
namespace Decimal

/-- `sign_int`. -/
def signInt (i : ℤ) : ℤ := (if i > 0 then 1 else 0) - if i < 0 then 1 else 0

/-- `sign_decimal`. -/
def signDecimal (dec : Decimal) : ℤ :=
  (if 0 < dec.signAndUsedDigits ∧ dec.signAndUsedDigits < 0x80 then 1 else 0) -
    if dec.signAndUsedDigits ≥ 0x80 then 1 else 0

/-- The loop over the digits that are left of one operand: one of them is not zero. -/
def anyDigit (digits : List ℕ) : ℕ → Bool
  | 0 => false
  | size + 1 => if digits.getD size 0 ≠ 0 then true else anyDigit digits size

/-- The loop over the common digits, and what follows it. -/
def cmpDigits (ldigits rdigits : List ℕ) (lsize rsize : ℕ) : ℕ → ℤ
  | 0 =>
    if rsize ≠ 0 then if anyDigit rdigits rsize then -1 else 0
    else if anyDigit ldigits lsize then 1 else 0
  | minsize + 1 =>
    let rdigit := rdigits.getD (rsize + minsize) 0
    let ldigit := ldigits.getD (lsize + minsize) 0
    if ldigit ≠ rdigit then if ldigit < rdigit then -1 else 1
    else cmpDigits ldigits rdigits lsize rsize minsize

/-- `cmpmagnitude_decimal`. -/
def cmpmagnitudeDecimal (ldec rdec : Decimal) : ℤ :=
  let lsize := ldec.sizeDecimal
  let rsize := rdec.sizeDecimal
  if lsize = 0 ∨ rsize = 0 then signInt (lsize - rsize)
  else
    let orderdiff := ldec.exponent + lsize - (rdec.exponent + rsize)
    if orderdiff ≠ 0 then signInt orderdiff
    else
      let minsize := if lsize < rsize then lsize else rsize
      cmpDigits ldec.valid rdec.valid (lsize - minsize) (rsize - minsize) minsize

/-- `cmp_decimal`. -/
def cmpDecimal (ldec rdec : Decimal) : ℤ :=
  let lsign := ldec.signDecimal
  let rsign := rdec.signDecimal
  if lsign ≠ rsign then signInt (lsign - rsign)
  else if lsign < 0 then cmpmagnitudeDecimal rdec ldec
  else cmpmagnitudeDecimal ldec rdec

/-! ## Signs -/

theorem signInt_eq (i : ℤ) : signInt i = SignType.sign i := by
  rw [signInt]
  rcases lt_trichotomy i 0 with h | rfl | h
  · rw [if_neg h.not_gt, if_pos h, sign_neg h]
    rfl
  · rfl
  · rw [if_pos h, if_neg h.not_gt, sign_pos h]
    rfl

variable {ldec rdec dec : Decimal}

theorem WellFormed.sign_magnitude (h : dec.WellFormed) :
    SignType.sign dec.magnitude = if dec.sizeDecimal = 0 then 0 else 1 := by
  split_ifs with h0
  · rw [magnitude_eq_zero h0, sign_zero]
  · exact sign_pos (h.magnitude_pos h0)

theorem signDecimal_eq (h : dec.WellFormed) : dec.signDecimal = SignType.sign dec.value := by
  have hall : ∀ (n : Fin 128) (b : Bool), ((n : ℕ) = 0 → b = false) →
      ((if 0 < signAndSize b n ∧ signAndSize b n < 0x80 then 1 else 0) -
        if signAndSize b n ≥ 0x80 then 1 else 0 : ℤ) =
          if (n : ℕ) = 0 then 0 else if b then -1 else 1 := by decide +kernel
  have hsize := dec.sizeDecimal_le
  have hbyte := hall ⟨dec.sizeDecimal, by omega⟩ dec.isnegativeDecimal h.zero_sign
  rw [← signAndUsedDigits_eq] at hbyte
  rw [signDecimal, hbyte, value, sign_mul, h.sign_magnitude]
  rcases dec.isnegativeDecimal <;> split_ifs <;> simp

/-! ## Magnitudes -/

theorem anyDigit_iff {ds : List ℕ} {n : ℕ} (h : n ≤ ds.length) :
    anyDigit ds n = true ↔ 0 < number (ds.take n) := by
  induction n with
  | zero => simp [anyDigit]
  | succ n ih =>
    have hpow := base_pow_pos n
    have hnonneg := number_nonneg (ds.take n)
    rw [anyDigit, number_take_succ h]
    split_ifs with hd
    · have hdigit : (0 : ℤ) < (ds.getD n 0 : ℕ) := Int.natCast_pos.mpr (Nat.pos_of_ne_zero hd)
      exact iff_of_true rfl (add_pos_of_nonneg_of_pos hnonneg (mul_pos hpow hdigit))
    · rw [not_not.mp hd, Nat.cast_zero, mul_zero, add_zero]
      exact ih (Nat.le_of_succ_le h)

theorem anyDigit_sign {x : Operand} {n : ℕ} (h : n ≤ x.digits.length) (e : ℤ) :
    (if anyDigit x.digits n then 1 else 0 : ℤ) = SignType.sign ((x.take n).valueAt e) := by
  have hpow := base_pow_pos (x.exponent - e).toNat
  change _ = ((SignType.sign (number (x.digits.take n) * base ^ (x.exponent - e).toNat) :
    SignType) : ℤ)
  rw [sign_mul, sign_pos hpow, mul_one]
  by_cases hany : anyDigit x.digits n = true
  · rw [if_pos hany, sign_pos ((anyDigit_iff h).mp hany)]
    rfl
  · rw [if_neg hany, (number_nonneg _).antisymm' (not_lt.mp ((anyDigit_iff h).not.mp hany)),
      sign_zero]
    rfl

theorem Operand.take_zero_valueAt (x : Operand) (e : ℤ) : (x.take 0).valueAt e = 0 := by
  rw [valueAt, take, List.take_zero, number_nil, zero_mul]

theorem Operand.take_succ_valueAt {x : Operand} {n : ℕ} (h : n < x.digits.length) {e : ℤ}
    (he : e ≤ x.exponent) : (x.take (n + 1)).valueAt e =
      (x.take n).valueAt e + base ^ (x.exponent + n - e).toNat * (x.digits.getD n 0 : ℕ) := by
  have hexp : (x.exponent + n - e).toNat = n + (x.exponent - e).toNat := by omega
  rw [valueAt, take, valueAt, take, number_take_succ h, hexp, pow_add]
  ring

/-- **The loops compare the digits that are left.** -/
theorem cmpDigits_eq {l r : Operand} {e : ℤ} (hl : e ≤ l.exponent) (hr : e ≤ r.exponent)
    (hld : Digits l.digits) (hrd : Digits r.digits) {lsize rsize minsize : ℕ}
    (h0 : lsize = 0 ∨ rsize = 0) (ho : l.exponent + lsize = r.exponent + rsize)
    (hlen : lsize + minsize ≤ l.digits.length) (hrlen : rsize + minsize ≤ r.digits.length) :
    cmpDigits l.digits r.digits lsize rsize minsize = SignType.sign
      ((l.take (lsize + minsize)).valueAt e - (r.take (rsize + minsize)).valueAt e) := by
  induction minsize with
  | zero =>
    rw [add_zero] at hlen hrlen
    rw [cmpDigits, add_zero, add_zero]
    by_cases hr0 : rsize = 0
    · rw [if_neg (not_not.mpr hr0), hr0, Operand.take_zero_valueAt, sub_zero]
      exact anyDigit_sign hlen e
    · have hneg : (if anyDigit r.digits rsize then -1 else 0 : ℤ) =
          -if anyDigit r.digits rsize then 1 else 0 := by split_ifs <;> rfl
      rw [if_pos hr0, h0.resolve_right hr0, Operand.take_zero_valueAt, zero_sub, Left.sign_neg,
        SignType.coe_neg, hneg, anyDigit_sign hrlen e]
  | succ m ih =>
    have ho' : l.exponent + (lsize + m : ℕ) = r.exponent + (rsize + m : ℕ) := by
      push_cast
      omega
    rw [← Nat.add_assoc] at hlen hrlen
    rw [cmpDigits, ← Nat.add_assoc, ← Nat.add_assoc]
    split_ifs with hne hlt
    · rw [sign_neg (sub_neg.mpr (Operand.take_lt_take hl hr hld hlen hrlen ho' hlt))]
      rfl
    · have hgt := lt_of_le_of_ne (not_lt.mp hlt) (Ne.symm hne)
      rw [sign_pos (sub_pos.mpr (Operand.take_lt_take hr hl hrd hrlen hlen ho'.symm hgt))]
      rfl
    · rw [ih (by omega) (by omega), Operand.take_succ_valueAt hlen hl,
        Operand.take_succ_valueAt hrlen hr, ho', not_not.mp hne, add_sub_add_right_eq_sub]

/-- The digits and the exponent of an object. -/
def whole (dec : Decimal) : Operand := ⟨dec.valid, dec.exponent⟩

theorem whole_value (dec : Decimal) : dec.whole.value = dec.magnitude := rfl

theorem WellFormed.whole_order (h : dec.WellFormed) :
    dec.whole.order = dec.exponent + dec.sizeDecimal := by
  rw [whole, Operand.order, h.length_valid]

theorem sign_magnitude_sub {e : ℤ} (hl : e ≤ ldec.exponent) (hr : e ≤ rdec.exponent) :
    SignType.sign (ldec.magnitude - rdec.magnitude) =
      SignType.sign (ldec.whole.valueAt e - rdec.whole.valueAt e) := by
  rw [← whole_value, ← whole_value, Operand.value_eq_valueAt (x := ldec.whole) hl,
    Operand.value_eq_valueAt (x := rdec.whole) hr, ← sub_mul, sign_mul, sign_pos (base_zpow_pos e),
    mul_one, ← Int.cast_sub, sign_intCast]

/-- **`cmpmagnitude_decimal`** returns the sign of the difference of the magnitudes. -/
theorem cmpmagnitudeDecimal_eq (hl : ldec.WellFormed) (hr : rdec.WellFormed) :
    cmpmagnitudeDecimal ldec rdec = SignType.sign (ldec.magnitude - rdec.magnitude) := by
  have hmin : (if ldec.sizeDecimal < rdec.sizeDecimal then ldec.sizeDecimal else
      rdec.sizeDecimal) = min ldec.sizeDecimal rdec.sizeDecimal := by
    rw [min_def]
    split_ifs <;> omega
  rw [cmpmagnitudeDecimal]
  dsimp only
  rw [hmin]
  split_ifs with h0 horder
  · rw [signInt_eq]
    rcases Nat.eq_zero_or_pos rdec.sizeDecimal with hr0 | hr0
    · rw [magnitude_eq_zero hr0, hr0, Nat.cast_zero, sub_zero, sub_zero, hl.sign_magnitude]
      split_ifs with hl0
      · rw [hl0, Nat.cast_zero, sign_zero]
      · rw [sign_pos (Int.natCast_pos.mpr (Nat.pos_of_ne_zero hl0))]
    · have hl0 := h0.resolve_right hr0.ne'
      rw [magnitude_eq_zero hl0, hl0, Nat.cast_zero, zero_sub, zero_sub,
        sign_neg (neg_neg_of_pos (Int.natCast_pos.mpr hr0)),
        sign_neg (neg_neg_of_pos (hr.magnitude_pos hr0.ne'))]
  · obtain ⟨hl0, hr0⟩ := not_or.mp h0
    have hle := min_le_left ldec.exponent rdec.exponent
    have hre := min_le_right ldec.exponent rdec.exponent
    rw [signInt_eq, sign_magnitude_sub hle hre]
    rcases lt_or_gt_of_ne horder with h | h
    · have horder' : ldec.whole.order < rdec.whole.order := by
        rw [hl.whole_order, hr.whole_order]
        omega
      rw [sign_neg h, sign_neg (sub_neg.mpr (Operand.valueAt_lt_of_order_lt hle hre horder'
        hl.digits hr.leading (hr.valid_ne_nil hr0)))]
    · have horder' : rdec.whole.order < ldec.whole.order := by
        rw [hl.whole_order, hr.whole_order]
        omega
      rw [sign_pos h, sign_pos (sub_pos.mpr (Operand.valueAt_lt_of_order_lt hre hle horder'
        hr.digits hl.leading (hl.valid_ne_nil hl0)))]
  · have hll : ldec.whole.digits.length = ldec.sizeDecimal := hl.length_valid
    have hrl : rdec.whole.digits.length = rdec.sizeDecimal := hr.length_valid
    have hle := min_le_left ldec.exponent rdec.exponent
    have hre := min_le_right ldec.exponent rdec.exponent
    have hlsum := Nat.sub_add_cancel (min_le_left ldec.sizeDecimal rdec.sizeDecimal)
    have hrsum := Nat.sub_add_cancel (min_le_right ldec.sizeDecimal rdec.sizeDecimal)
    have hcmp := @cmpDigits_eq ldec.whole rdec.whole _ hle hre hl.digits hr.digits
      (ldec.sizeDecimal - min ldec.sizeDecimal rdec.sizeDecimal)
      (rdec.sizeDecimal - min ldec.sizeDecimal rdec.sizeDecimal)
      (min ldec.sizeDecimal rdec.sizeDecimal) (by omega)
      (by change ldec.exponent + _ = rdec.exponent + _; omega) (by omega) (by omega)
    have htakel : ldec.whole.take ldec.sizeDecimal = ldec.whole := by
      rw [← hll, Operand.take, List.take_length]
    have htaker : rdec.whole.take rdec.sizeDecimal = rdec.whole := by
      rw [← hrl, Operand.take, List.take_length]
    rw [hlsum, hrsum, htakel, htaker] at hcmp
    rw [sign_magnitude_sub hle hre]
    exact hcmp

theorem sign_sub_sign {a b : ℚ} (h : SignType.sign a ≠ SignType.sign b) :
    SignType.sign ((SignType.sign a : ℤ) - (SignType.sign b : ℤ)) = SignType.sign (a - b) := by
  have hcast : ∀ s t : SignType, s < t → (s : ℤ) < t := by decide
  rcases lt_trichotomy a b with hab | rfl | hab
  · have hlt := hcast _ _ (lt_of_le_of_ne (SignType.sign.monotone hab.le) h)
    rw [sign_neg (sub_neg.mpr hlt), sign_neg (sub_neg.mpr hab)]
  · exact absurd rfl h
  · have hlt := hcast _ _ (lt_of_le_of_ne (SignType.sign.monotone hab.le) h.symm)
    rw [sign_pos (sub_pos.mpr hlt), sign_pos (sub_pos.mpr hab)]

theorem abs_value (dec : Decimal) : |dec.value| = dec.magnitude := by
  rw [value, abs_mul, abs_of_nonneg dec.magnitude_nonneg]
  split_ifs <;> simp

/-- **`cmp_decimal`** returns the sign of the difference of the values. -/
theorem cmpDecimal_eq (hl : ldec.WellFormed) (hr : rdec.WellFormed) :
    cmpDecimal ldec rdec = SignType.sign (ldec.value - rdec.value) := by
  have hcast : ∀ s t : SignType, (s : ℤ) = t ↔ s = t := by decide
  have hneg : ∀ s : SignType, (s : ℤ) < 0 ↔ s = -1 := by decide
  rw [cmpDecimal, signDecimal_eq hl, signDecimal_eq hr]
  by_cases hs : SignType.sign ldec.value = SignType.sign rdec.value
  · have hiff := (hneg (SignType.sign ldec.value)).trans sign_eq_neg_one_iff
    rw [if_neg (not_not.mpr ((hcast _ _).mpr hs))]
    by_cases hlneg : ldec.value < 0
    · have hrneg : rdec.value < 0 := by rwa [← sign_eq_neg_one_iff, ← hs, sign_eq_neg_one_iff]
      rw [if_pos (hiff.mpr hlneg), cmpmagnitudeDecimal_eq hr hl, ← abs_value, ← abs_value, abs_of_neg hlneg,
        abs_of_neg hrneg, neg_sub_neg]
    · have hrneg : ¬rdec.value < 0 := by rwa [← sign_eq_neg_one_iff, ← hs, sign_eq_neg_one_iff]
      rw [if_neg (hiff.not.mpr hlneg), cmpmagnitudeDecimal_eq hl hr, ← abs_value, ← abs_value,
        abs_of_nonneg (not_lt.mp hlneg), abs_of_nonneg (not_lt.mp hrneg)]
  · rw [if_pos ((hcast _ _).not.mpr hs), signInt_eq, sign_sub_sign hs]

/-! ## Differences -/

/-- **A difference is zero** exactly if the values are equal, also if its exponent does not fit. -/
theorem subDecimal_value_eq_zero_iff {result new : Decimal} (hl : ldec.WellFormed)
    (hr : rdec.WellFormed) (hnew : subDecimal result ldec rdec = .ok new) :
    new.value = 0 ↔ ldec.value - rdec.value = 0 := by
  by_cases hexact : Exact (subDecimal result ldec rdec) (ldec.value - rdec.value)
  · rw [(hexact new hnew).2]
  -- the exponent does not fit, and both operands have digits
  rw [(addDecimal_subDecimal_exact_iff hl hr).2, not_or, not_or, not_or] at hexact
  obtain ⟨hl0, hr0, hne, -⟩ := hexact
  have hl0' := hl.operand_eq_nil.not.mpr hl0
  have hr0' := hr.operand_eq_nil.not.mpr hr0
  have hstored : ∃ isNegSign exponent n, new.Stored isNegSign exponent n := by
    rw [subDecimal] at hnew
    split_ifs at hnew with hs
    · rcases subDecimalhelper_cases result hl hr hl0' hr0' with ⟨heq, -⟩ | ⟨isSwap, hstored, -⟩
      · rw [(value_of_eq hs).2, heq, sub_self, mul_zero] at hne
        exact absurd rfl hne
      · exact ⟨_, _, _, hstored new hnew⟩
    · exact ⟨_, _, _, ((addDecimalhelper_cases result hl hr hl0' hr0').1 new hnew).1⟩
  obtain ⟨isNegSign, exponent, n, hstored⟩ := hstored
  refine iff_of_false ?_ hne
  rw [hstored.wraps, sign_mul_eq_zero]
  exact mul_ne_zero (Int.cast_ne_zero.mpr hstored.pos.ne') (base_zpow_pos _).ne'

/-! ## The order -/

/-- What makes a comparison a total preorder on the objects that represent a number. -/
structure TotalPreorder (cmp : Decimal → Decimal → ℤ) : Prop where
  refl : ∀ x : Decimal, x.WellFormed → cmp x x ≤ 0
  trans : ∀ x y z : Decimal, x.WellFormed → y.WellFormed → z.WellFormed →
    cmp x y ≤ 0 → cmp y z ≤ 0 → cmp x z ≤ 0
  total : ∀ x y : Decimal, x.WellFormed → y.WellFormed → cmp x y ≤ 0 ∨ cmp y x ≤ 0

theorem totalPreorder_of_sign {cmp : Decimal → Decimal → ℤ} {f : Decimal → ℚ}
    (h : ∀ x y : Decimal, x.WellFormed → y.WellFormed → cmp x y = SignType.sign (f x - f y)) :
    TotalPreorder cmp := by
  have hle : ∀ x y : Decimal, x.WellFormed → y.WellFormed → (cmp x y ≤ 0 ↔ f x ≤ f y) := by
    intro x y hx hy
    have hcast : ∀ s : SignType, (s : ℤ) ≤ 0 ↔ s ≤ 0 := by decide
    rw [h x y hx hy, hcast, sign_nonpos_iff, sub_nonpos]
  refine ⟨fun x hx => (hle x x hx hx).mpr le_rfl, fun x y z hx hy hz hxy hyz => ?_,
    fun x y hx hy => ?_⟩
  · exact (hle x z hx hz).mpr (((hle x y hx hy).mp hxy).trans ((hle y z hy hz).mp hyz))
  · rw [hle x y hx hy, hle y x hy hx]
    exact le_total (f x) (f y)

/-- **Comparison agrees with the value**, also for different representations of one number: both
functions return the sign of a difference, and so they are total preorders. The values are equal
exactly if the difference, if it can be computed, is zero. -/
theorem cmpDecimal_sign (hl : ldec.WellFormed) (hr : rdec.WellFormed) :
    cmpDecimal ldec rdec = SignType.sign (ldec.value - rdec.value) ∧
      cmpmagnitudeDecimal ldec rdec = SignType.sign (|ldec.value| - |rdec.value|) ∧
      TotalPreorder cmpDecimal ∧ TotalPreorder cmpmagnitudeDecimal ∧
      ∀ result new, subDecimal result ldec rdec = .ok new →
        (cmpDecimal ldec rdec = 0 ↔ new.value = 0) := by
  refine ⟨cmpDecimal_eq hl hr, ?_, totalPreorder_of_sign fun x y => cmpDecimal_eq,
    totalPreorder_of_sign fun x y => cmpmagnitudeDecimal_eq, fun result new hnew => ?_⟩
  · rw [abs_value, abs_value, cmpmagnitudeDecimal_eq hl hr]
  · have hcast : ∀ s : SignType, (s : ℤ) = 0 ↔ s = 0 := by decide
    rw [cmpDecimal_eq hl hr, subDecimal_value_eq_zero_iff hl hr hnew, hcast, sign_eq_zero_iff]

/-- `10^9`, with a trailing zero digit and with an exponent. -/
theorem cmpDecimal_sign_trailing :
    cmpDecimal ⟨2, 2, 0, [0, 1], by decide⟩ ⟨1, 1, 1, [1], by decide⟩ = 0 ∧
      (⟨2, 2, 0, [0, 1], by decide⟩ : Decimal).value = (⟨1, 1, 1, [1], by decide⟩ : Decimal).value := by
  have h := @cmpDecimal_sign ⟨2, 2, 0, [0, 1], by decide⟩ ⟨1, 1, 1, [1], by decide⟩
    (by decide +kernel) (by decide +kernel)
  have hcast : ∀ s : SignType, (s : ℤ) = 0 ↔ s = 0 := by decide
  have hzero : cmpDecimal ⟨2, 2, 0, [0, 1], by decide⟩ ⟨1, 1, 1, [1], by decide⟩ = 0 := by decide
  refine ⟨hzero, ?_⟩
  rw [h.1, hcast, sign_eq_zero_iff, sub_eq_zero] at hzero
  exact hzero

end Decimal
end CKern
