import CKern.Math.Bigint.AddSub

/-!
# `math/int/bigint.c`: `cmp_bigint` and `cmpmagnitude_bigint`

The same value has many representations: trailing zero digits may be stored or counted in the
exponent.  Two numbers whose leading digits stand at the same place are compared from there; what
one of them has below the last digit of the other decides at last.

* `cmpmagnitudeBigint`, `cmpBigint`: the functions of the module.
* `cmpLoop_spec`: the loop decides, or the difference is that of the lower digits.
* `cmpBigint_exact`: both functions return the sign of the difference, so they are total preorders.
-/

namespace CKern
namespace Bigint

/-! ## The functions -/

/-- `sign_bigint`. -/
def signBigint (big : Bigint) : ℤ :=
  (decide (big.signAndUsedDigits > 0)).toNat - (decide (big.signAndUsedDigits < 0)).toNat

/-- The loop over the digits that both numbers have, from `ldigits[li]` and `rdigits[ri]` downwards:
the sign that is returned, or `0` if all of them are equal. -/
def cmpLoop (ldigits rdigits : List UInt32) : ℕ → ℕ → ℕ → ℤ
  | 0, _, _ => 0
  | mindigits + 1, li, ri =>
    let ld := ldigits.getD (li - 1) 0
    let rd := rdigits.getD (ri - 1) 0
    if ld ≠ rd then (if ld > rd then 1 else -1)
    else cmpLoop ldigits rdigits mindigits (li - 1) (ri - 1)

/-- The loop over the digits that only one of the numbers has: one that is not zero is found. -/
def findDigit (digits : List UInt32) : ℕ → Bool
  | 0 => false
  | mindigits + 1 => if digits.getD mindigits 0 ≠ 0 then true else findDigit digits mindigits

/-- The comparison of two numbers with leading digits at the same place. -/
def cmpDigits (lbig rbig : Bigint) : ℤ :=
  let lnrdigits := lbig.nrdigits
  let rnrdigits := rbig.nrdigits
  let cmp := cmpLoop lbig.digits rbig.digits (min lnrdigits rnrdigits) lnrdigits rnrdigits
  if cmp ≠ 0 then cmp
  else if lnrdigits < rnrdigits then
    (if findDigit rbig.digits (rnrdigits - lnrdigits) then -1 else 0)
  else if findDigit lbig.digits (lnrdigits - rnrdigits) then 1 else 0

/-- `cmpmagnitude_bigint`. -/
def cmpmagnitudeBigint (lbig rbig : Bigint) : ℤ :=
  let lmaxexp : ℤ := lbig.nrdigits + lbig.exponent
  let rmaxexp : ℤ := rbig.nrdigits + rbig.exponent
  if lbig.nrdigits = 0 ∨ rbig.nrdigits = 0 then ((lbig.nrdigits : ℤ) - rbig.nrdigits).sign
  else if lmaxexp ≠ rmaxexp then (lmaxexp - rmaxexp).sign
  else cmpDigits lbig rbig

/-- `cmp_bigint`. -/
def cmpBigint (lbig rbig : Bigint) : ℤ :=
  let lsign := signBigint lbig
  let rsign := signBigint rbig
  if lsign ≠ rsign then (lsign - rsign).sign
  else if 0 > lsign then cmpmagnitudeBigint rbig lbig
  else cmpmagnitudeBigint lbig rbig

/-! ## The magnitudes -/

theorem findDigit_iff {x : Operand} {n : ℕ} (h : n ≤ x.digits.length) :
    findDigit x.digits n = true ↔ 0 < (x.take n).value := by
  rw [Operand.value, Operand.take, mul_pos_iff_of_pos_right (base_pow_pos _)]
  induction n with
  | zero => simp [findDigit]
  | succ n ih =>
    have hlow := number_nonneg (x.digits.take n)
    have hd : (x.digits.getD n 0).toNat = 0 ↔ x.digits.getD n 0 = 0 := by
      rw [← UInt32.toNat_inj, UInt32.toNat_zero]
    rw [findDigit, number_take_succ h]
    split_ifs with h0
    · have hpos : (0 : ℤ) < (x.digits.getD n 0).toNat := by
        have := Nat.pos_of_ne_zero fun hz => h0 (hd.mp hz)
        exact_mod_cast this
      have := mul_pos (base_pow_pos n) hpos
      exact iff_of_true rfl (by linarith)
    · rw [ih (Nat.le_of_succ_le h), hd.mpr (not_not.mp h0), Nat.cast_zero, mul_zero, add_zero]

/-- **The loop decides**, or the lower digits make the difference. -/
theorem cmpLoop_spec {x y : Operand} (n : ℕ) {i j : ℕ} (hi : i ≤ x.digits.length)
    (hj : j ≤ y.digits.length) (ho : x.exponent + i = y.exponent + j) (hni : n ≤ i) (hnj : n ≤ j) :
    (cmpLoop x.digits y.digits n i j ≠ 0 →
        cmpLoop x.digits y.digits n i j = ((x.take i).value - (y.take j).value).sign) ∧
      (cmpLoop x.digits y.digits n i j = 0 →
        (x.take i).value - (y.take j).value =
          (x.take (i - n)).value - (y.take (j - n)).value) := by
  induction n generalizing i j with
  | zero => exact ⟨fun h => absurd rfl h, fun _ => rfl⟩
  | succ n ih =>
    obtain ⟨i, rfl⟩ : ∃ k, i = k + 1 := ⟨i - 1, by omega⟩
    obtain ⟨j, rfl⟩ : ∃ k, j = k + 1 := ⟨j - 1, by omega⟩
    have ho' : x.exponent + i = y.exponent + j := by omega
    rw [cmpLoop, Nat.add_sub_cancel, Nat.add_sub_cancel]
    by_cases hd : x.digits.getD i 0 = y.digits.getD j 0
    · have hdiff : (x.take (i + 1)).value - (y.take (j + 1)).value =
          (x.take i).value - (y.take j).value := by
        simp only [Operand.value, Operand.take]
        rw [number_take_succ hi, number_take_succ hj, hd, add_mul, add_mul, mul_right_comm,
          mul_right_comm (base ^ j), ← pow_add, ← pow_add, add_comm i, add_comm j, ho']
        ring
      rw [if_neg (not_not.mpr hd), hdiff, Nat.add_sub_add_right, Nat.add_sub_add_right]
      exact ih (Nat.le_of_succ_le hi) (Nat.le_of_succ_le hj) ho' (Nat.le_of_succ_le_succ hni)
        (Nat.le_of_succ_le_succ hnj)
    · rw [if_pos hd]
      split_ifs with hgt
      · have hlt := Operand.take_lt_take hj hi ho'.symm hgt
        exact ⟨fun _ => (Int.sign_eq_one_of_pos (by linarith)).symm, fun h => absurd h (by decide)⟩
      · have hlt := Operand.take_lt_take hi hj ho'
          (UInt32.lt_of_le_of_ne (UInt32.not_lt.mp hgt) hd)
        exact ⟨fun _ => (Int.sign_eq_neg_one_of_neg (by linarith)).symm,
          fun h => absurd h (by decide)⟩

theorem WellFormed.magnitude_pos {big : Bigint} (h : big.WellFormed) (h0 : big.nrdigits ≠ 0) :
    0 < big.magnitude :=
  mul_pos (number_pos h.leading (h.valid_ne_nil h0)) (base_pow_pos _)

theorem WellFormed.magnitude_lt {lbig rbig : Bigint} (hl : lbig.WellFormed) (hr : rbig.WellFormed)
    (h0 : rbig.nrdigits ≠ 0)
    (h : lbig.nrdigits + lbig.exponent < rbig.nrdigits + rbig.exponent) :
    lbig.magnitude < rbig.magnitude := by
  refine Operand.value_lt_of_order_lt (x := ⟨lbig.valid, lbig.exponent⟩)
    (y := ⟨rbig.valid, rbig.exponent⟩) ?_ hr.leading (hr.valid_ne_nil h0)
  rw [Operand.order, Operand.order, hl.length_valid, hr.length_valid, add_comm,
    add_comm _ rbig.nrdigits]
  exact h

theorem take_zero_value (x : Operand) : (x.take 0).value = 0 := by
  rw [Operand.value, Operand.take, List.take_zero, number_nil, zero_mul]

theorem cmpDigits_eq {lbig rbig : Bigint} (hl : lbig.WellFormed) (hr : rbig.WellFormed)
    (ho : lbig.exponent + lbig.nrdigits = rbig.exponent + rbig.nrdigits) :
    cmpDigits lbig rbig = (lbig.magnitude - rbig.magnitude).sign := by
  let x : Operand := ⟨lbig.digits, lbig.exponent⟩
  let y : Operand := ⟨rbig.digits, rbig.exponent⟩
  have hx : (x.take lbig.nrdigits).value = lbig.magnitude := rfl
  have hy : (y.take rbig.nrdigits).value = rbig.magnitude := rfl
  obtain ⟨hdecides, hlower⟩ := cmpLoop_spec (x := x) (y := y) (min lbig.nrdigits rbig.nrdigits)
    hl.stored hr.stored ho (min_le_left _ _) (min_le_right _ _)
  rw [hx, hy] at hdecides hlower
  rw [cmpDigits]
  split_ifs with hcmp hlt hfind hfind
  · exact hdecides hcmp
  · rw [hlower (not_not.mp hcmp), min_eq_left hlt.le, Nat.sub_self, take_zero_value, zero_sub]
    have hpos := (findDigit_iff (x := y) ((Nat.sub_le _ _).trans hr.stored)).mp hfind
    exact (Int.sign_eq_neg_one_of_neg (neg_lt_zero.mpr hpos)).symm
  · rw [hlower (not_not.mp hcmp), min_eq_left hlt.le, Nat.sub_self, take_zero_value, zero_sub]
    have hnot := mt (findDigit_iff (x := y) ((Nat.sub_le _ _).trans hr.stored)).mpr hfind
    rw [le_antisymm (not_lt.mp hnot) (Operand.value_nonneg _), neg_zero, Int.sign_zero]
  · rw [hlower (not_not.mp hcmp), min_eq_right (not_lt.mp hlt), Nat.sub_self, take_zero_value,
      sub_zero]
    have hpos := (findDigit_iff (x := x) ((Nat.sub_le _ _).trans hl.stored)).mp hfind
    exact (Int.sign_eq_one_of_pos hpos).symm
  · rw [hlower (not_not.mp hcmp), min_eq_right (not_lt.mp hlt), Nat.sub_self, take_zero_value,
      sub_zero]
    have hnot := mt (findDigit_iff (x := x) ((Nat.sub_le _ _).trans hl.stored)).mpr hfind
    rw [le_antisymm (not_lt.mp hnot) (Operand.value_nonneg _), Int.sign_zero]

theorem sign_nrdigits_sub {lbig rbig : Bigint} (hl : lbig.WellFormed) (hr : rbig.WellFormed)
    (h0 : lbig.nrdigits = 0 ∨ rbig.nrdigits = 0) :
    ((lbig.nrdigits : ℤ) - rbig.nrdigits).sign = (lbig.magnitude - rbig.magnitude).sign := by
  have hsign : ∀ {big : Bigint}, big.WellFormed → (big.nrdigits : ℤ).sign = big.magnitude.sign := by
    intro big h
    by_cases hz : big.nrdigits = 0
    · rw [magnitude_eq_zero hz, hz, Nat.cast_zero]
    · rw [Int.sign_eq_one_of_pos (h.magnitude_pos hz), Int.sign_eq_one_of_pos (by omega)]
  rcases h0 with h0 | h0
  · rw [h0, magnitude_eq_zero h0, Nat.cast_zero, zero_sub, zero_sub, Int.sign_neg, Int.sign_neg,
      hsign hr]
  · rw [h0, magnitude_eq_zero h0, Nat.cast_zero, sub_zero, sub_zero, hsign hl]

theorem cmpmagnitudeBigint_eq {lbig rbig : Bigint} (hl : lbig.WellFormed) (hr : rbig.WellFormed) :
    cmpmagnitudeBigint lbig rbig = (lbig.magnitude - rbig.magnitude).sign := by
  rw [cmpmagnitudeBigint]
  split_ifs with h0 ho
  · exact sign_nrdigits_sub hl hr h0
  · rw [not_or] at h0
    rcases lt_or_gt_of_ne ho with hlt | hgt
    · have := hl.magnitude_lt hr h0.2 (by exact_mod_cast hlt)
      rw [Int.sign_eq_neg_one_of_neg (by linarith), Int.sign_eq_neg_one_of_neg (by linarith)]
    · have := hr.magnitude_lt hl h0.1 (by exact_mod_cast hgt)
      rw [Int.sign_eq_one_of_pos (by linarith), Int.sign_eq_one_of_pos (by linarith)]
  · exact cmpDigits_eq hl hr (by omega)

/-! ## The values -/

theorem abs_value (big : Bigint) : |big.value| = big.magnitude := by
  have hnonneg : 0 ≤ big.magnitude := mul_nonneg (number_nonneg _) (base_pow_pos _).le
  rw [value_eq]
  split_ifs
  · rw [abs_neg, abs_of_nonneg hnonneg]
  · exact abs_of_nonneg hnonneg

theorem signBigint_eq {big : Bigint} (h : big.WellFormed) : signBigint big = big.value.sign := by
  have hsign : signBigint big = big.signAndUsedDigits.sign := by
    rw [signBigint]
    rcases lt_trichotomy big.signAndUsedDigits 0 with hlt | heq | hgt
    · simp [hlt, not_lt.mpr hlt.le, Int.sign_eq_neg_one_of_neg hlt]
    · simp [heq]
    · simp [hgt, not_lt.mpr hgt.le, Int.sign_eq_one_of_pos hgt]
  have hvalue : big.value = big.signAndUsedDigits.sign * big.magnitude := rfl
  rw [hsign, hvalue, Int.sign_mul, Int.sign_sign]
  by_cases h0 : big.nrdigits = 0
  · rw [Int.natAbs_eq_zero.mp h0, Int.sign_zero, zero_mul]
  · rw [Int.sign_eq_one_of_pos (h.magnitude_pos h0), mul_one]

theorem sign_sub_of_sign_ne {a b : ℤ} (h : a.sign ≠ b.sign) :
    (a.sign - b.sign).sign = (a - b).sign := by
  rcases lt_trichotomy a 0 with ha | rfl | ha <;> rcases lt_trichotomy b 0 with hb | rfl | hb
  · rw [Int.sign_eq_neg_one_of_neg ha, Int.sign_eq_neg_one_of_neg hb] at h
    exact absurd rfl h
  · simp [Int.sign_eq_neg_one_of_neg ha]
  · rw [Int.sign_eq_neg_one_of_neg ha, Int.sign_eq_one_of_pos hb,
      Int.sign_eq_neg_one_of_neg (a := a - b) (by linarith)]
    rfl
  · simp [Int.sign_eq_neg_one_of_neg hb]
  · exact absurd rfl h
  · simp [Int.sign_eq_one_of_pos hb]
  · rw [Int.sign_eq_one_of_pos ha, Int.sign_eq_neg_one_of_neg hb,
      Int.sign_eq_one_of_pos (a := a - b) (by linarith)]
    rfl
  · simp [Int.sign_eq_one_of_pos ha]
  · rw [Int.sign_eq_one_of_pos ha, Int.sign_eq_one_of_pos hb] at h
    exact absurd rfl h

theorem cmpBigint_eq {lbig rbig : Bigint} (hl : lbig.WellFormed) (hr : rbig.WellFormed) :
    cmpBigint lbig rbig = (lbig.value - rbig.value).sign := by
  rw [cmpBigint, signBigint_eq hl, signBigint_eq hr]
  split_ifs with hne hneg
  · exact sign_sub_of_sign_ne hne
  · -- both are negative, so the bigger magnitude is the smaller value
    have heq := not_not.mp hne
    have hlv : lbig.value < 0 := not_le.mp (mt Int.sign_nonneg_iff.mpr (not_le.mpr hneg))
    have hrv : rbig.value < 0 :=
      not_le.mp (mt Int.sign_nonneg_iff.mpr (not_le.mpr (heq ▸ hneg)))
    rw [cmpmagnitudeBigint_eq hr hl, ← abs_value, ← abs_value, abs_of_neg hlv, abs_of_neg hrv]
    congr 1
    ring
  · have heq := not_not.mp hne
    have hlv : 0 ≤ lbig.value := Int.sign_nonneg_iff.mp (not_lt.mp hneg)
    have hrv : 0 ≤ rbig.value := Int.sign_nonneg_iff.mp (heq ▸ not_lt.mp hneg)
    rw [cmpmagnitudeBigint_eq hl hr, ← abs_value, ← abs_value, abs_of_nonneg hlv,
      abs_of_nonneg hrv]

/-- A comparison whose negative and zero results are a total preorder of the numbers. -/
structure TotalPreorder (cmp : Bigint → Bigint → ℤ) : Prop where
  refl : ∀ l : Bigint, l.WellFormed → cmp l l ≤ 0
  total : ∀ l r : Bigint, l.WellFormed → r.WellFormed → cmp l r ≤ 0 ∨ cmp r l ≤ 0
  trans : ∀ l m r : Bigint, l.WellFormed → m.WellFormed → r.WellFormed →
    cmp l m ≤ 0 → cmp m r ≤ 0 → cmp l r ≤ 0

theorem totalPreorder_of_sign {cmp : Bigint → Bigint → ℤ} (f : Bigint → ℤ)
    (h : ∀ l r : Bigint, l.WellFormed → r.WellFormed → cmp l r = (f l - f r).sign) :
    TotalPreorder cmp := by
  have hle : ∀ l r : Bigint, l.WellFormed → r.WellFormed → (cmp l r ≤ 0 ↔ f l ≤ f r) := by
    intro l r hl hr
    rw [h l r hl hr, Int.sign_nonpos_iff]
    exact sub_nonpos
  refine ⟨fun l hl => (hle l l hl hl).mpr le_rfl, fun l r hl hr => ?_,
    fun l m r hl hm hr hlm hmr => ?_⟩
  · rw [hle l r hl hr, hle r l hr hl]
    exact le_total _ _
  · rw [hle l m hl hm] at hlm
    rw [hle m r hm hr] at hmr
    exact (hle l r hl hr).mpr (hlm.trans hmr)

/-- **The comparisons agree with the values**, in whatever way these are represented, so both are
total preorders. -/
theorem cmpBigint_exact :
    (∀ l r : Bigint, l.WellFormed → r.WellFormed →
      cmpBigint l r = (l.value - r.value).sign ∧
        cmpmagnitudeBigint l r = (|l.value| - |r.value|).sign) ∧
      TotalPreorder cmpBigint ∧ TotalPreorder cmpmagnitudeBigint := by
  have hmag : ∀ l r : Bigint, l.WellFormed → r.WellFormed →
      cmpmagnitudeBigint l r = (|l.value| - |r.value|).sign := by
    intro l r hl hr
    rw [cmpmagnitudeBigint_eq hl hr, abs_value, abs_value]
  exact ⟨fun l r hl hr => ⟨cmpBigint_eq hl hr, hmag l r hl hr⟩,
    totalPreorder_of_sign value fun l r hl hr => cmpBigint_eq hl hr,
    totalPreorder_of_sign (fun big => |big.value|) hmag⟩

/-- The same value with three zeros in the exponent, and with three zeros as digits. -/
theorem cmpBigint_exact_zeros :
    cmpBigint ⟨10, 3, 3, [1, 2, 3], by decide⟩ ⟨10, 6, 0, [0, 0, 0, 1, 2, 3], by decide⟩ =
      (value ⟨10, 3, 3, [1, 2, 3], by decide⟩ -
        value ⟨10, 6, 0, [0, 0, 0, 1, 2, 3], by decide⟩).sign :=
  (cmpBigint_exact.1 _ _ (by decide) (by decide)).1

end Bigint
end CKern
