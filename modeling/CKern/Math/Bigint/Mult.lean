import Mathlib.Data.Int.NatPrime
import CKern.Math.Bigint.AddSub

/-!
# `math/int/bigint.c`: `mult_bigint`

* `multBiginthelper`: the schoolbook algorithm, row by row.
* `addsplitBiginthelper`: the addition at an offset, in place.
* `multsplitBiginthelper`: operands of more than 48 digits are split into two halves and
  multiplied with three products.
* `multBigint_exact_iff`: a product that is returned is exact, if and only if the addition of the
  exponents at the very end does not leave the 16 bits of the field.
-/

namespace CKern
namespace Bigint

open Positional

/-! ## Double digits -/

/-- The halves of a double digit: `(uint32_t) product` and `(uint32_t) (product >> 32)`. -/
def split64 (product : UInt64) : UInt32 × UInt32 :=
  (product.toUInt32, (product >>> 32).toUInt32)

theorem split64_value (product : UInt64) :
    ((split64 product).1.toNat : ℤ) + base * (split64 product).2.toNat = product.toNat := by
  have h := product.toNat_lt
  rw [split64, base_eq]
  simp only [UInt64.toNat_toUInt32, UInt64.toNat_shiftRight, UInt64.reduceToNat,
    Nat.shiftRight_eq_div_pow, Nat.reduceMod]
  omega

theorem mul_add_add_lt (x y c d : UInt32) :
    x.toNat * y.toNat + c.toNat + d.toNat < 2 ^ 64 := by
  have hx := x.toNat_lt
  have hy := y.toNat_lt
  have hc := c.toNat_lt
  have hd := d.toNat_lt
  have h : x.toNat * y.toNat ≤ (2 ^ 32 - 1) * (2 ^ 32 - 1) :=
    Nat.mul_le_mul (by omega) (by omega)
  omega

theorem toNat_mul_add_add (x y c d : UInt32) :
    (x.toUInt64 * y.toUInt64 + c.toUInt64 + d.toUInt64).toNat =
      x.toNat * y.toNat + c.toNat + d.toNat := by
  have h := mul_add_add_lt x y c d
  simp only [UInt64.toNat_add, UInt64.toNat_mul, UInt32.toNat_toUInt64, Nat.mod_add_mod]
  exact Nat.mod_eq_of_lt h

/-! ## `mult_biginthelper` -/

/-- One digit of the first row. -/
def multDigit (factor carry : UInt32) (l : UInt32) : UInt32 × UInt32 :=
  split64 (l.toUInt64 * factor.toUInt64 + carry.toUInt64)

/-- One digit of the other rows: the product is added to the digit that is there already. -/
def multAddDigit (factor carry : UInt32) (d : UInt32 × UInt32) : UInt32 × UInt32 :=
  split64 (d.1.toUInt64 * factor.toUInt64 + d.2.toUInt64 + carry.toUInt64)

theorem multDigit_value (factor carry l : UInt32) :
    ((multDigit factor carry l).1.toNat : ℤ) + base * (multDigit factor carry l).2.toNat =
      (factor.toNat * l.toNat : ℤ) + carry.toNat := by
  have h := toNat_mul_add_add l factor carry 0
  have h0 : (0 : UInt32).toUInt64 = 0 := rfl
  rw [h0, UInt64.add_zero, UInt32.toNat_zero, Nat.add_zero] at h
  rw [multDigit, split64_value, h]
  push_cast
  ring

theorem multAddDigit_value (factor carry : UInt32) (d : UInt32 × UInt32) :
    ((multAddDigit factor carry d).1.toNat : ℤ) + base * (multAddDigit factor carry d).2.toNat =
      (factor.toNat * d.1.toNat + d.2.toNat : ℤ) + carry.toNat := by
  rw [multAddDigit, split64_value, toNat_mul_add_add]
  push_cast
  ring

/-- The first row, with the carry as its leading digit. -/
def multFirstRow (ldigits : List UInt32) (factor : UInt32) : List UInt32 :=
  if factor = 0 then List.replicate (1 + ldigits.length) 0
  else
    let row := chain (multDigit factor) 0 ldigits
    row.1 ++ [row.2]

/-- Another row, added to `digits`. -/
def multRow (ldigits : List UInt32) (factor : UInt32) (digits : List UInt32) : List UInt32 :=
  if factor = 0 then digits ++ [0]
  else
    let row := chain (multAddDigit factor) 0 (ldigits.zip digits)
    row.1 ++ [row.2]

/-- The loop over `ri`.  Every row starts one digit higher than the row before (`++ digits`). -/
def multRows (ldigits : List UInt32) : List UInt32 → List UInt32 → List UInt32
  | digits, [] => digits
  | digits, factor :: rdigits =>
    digits.take 1 ++ multRows ldigits (multRow ldigits factor (digits.drop 1)) rdigits

/-- All digits that `mult_biginthelper` writes. -/
def multDigits (ldigits rdigits : List UInt32) : List UInt32 :=
  multRows ldigits (multFirstRow ldigits (rdigits.headD 0)) rdigits.tail

/-- `mult_biginthelper`.  The carry of the last row is the last digit written. -/
def multBiginthelper (big : Bigint) (ldigits rdigits : List UInt32) (exponent : ℕ) : Bigint :=
  let digits := multDigits ldigits rdigits
  let carry := digits.getLastD 0
  big.assign false (ldigits.length + rdigits.length - if carry = 0 then 1 else 0) exponent digits

theorem multFirstRow_spec (ldigits : List UInt32) (factor : UInt32) :
    (multFirstRow ldigits factor).length = ldigits.length + 1 ∧
      number (multFirstRow ldigits factor) = factor.toNat * number ldigits := by
  rw [multFirstRow]
  split_ifs with h0
  · refine ⟨by rw [List.length_replicate, add_comm], ?_⟩
    rw [number_replicate_zero, h0, UInt32.toNat_zero, Nat.cast_zero, zero_mul]
  · have h := chain_eval' (multDigit factor) (b := base) (g := fun d => (d.toNat : ℤ))
      (f := fun l => (factor.toNat : ℤ) * l.toNat) (v := fun c => (c.toNat : ℤ))
      (fun c l => multDigit_value factor c l) 0 ldigits
    rw [eval_mul_left] at h
    refine ⟨by simp, ?_⟩
    rw [number_append, length_chain, number_cons, number_nil, mul_zero, add_zero]
    rw [UInt32.toNat_zero, Nat.cast_zero, add_zero] at h
    exact h

theorem multRow_spec {ldigits digits : List UInt32} (factor : UInt32)
    (h : digits.length = ldigits.length) :
    (multRow ldigits factor digits).length = ldigits.length + 1 ∧
      number (multRow ldigits factor digits) = factor.toNat * number ldigits + number digits := by
  rw [multRow]
  split_ifs with h0
  · refine ⟨by simp [h], ?_⟩
    rw [number_append, h0]
    simp
  · have hc := chain_eval' (multAddDigit factor) (b := base) (g := fun d => (d.toNat : ℤ))
      (f := fun d => (factor.toNat : ℤ) * d.1.toNat + d.2.toNat) (v := fun c => (c.toNat : ℤ))
      (fun c d => multAddDigit_value factor c d) 0 (ldigits.zip digits)
    rw [eval_zip_add base (fun l : UInt32 => (factor.toNat : ℤ) * l.toNat)
      (fun d : UInt32 => (d.toNat : ℤ)) h.symm, eval_mul_left, List.length_zip, h, min_self] at hc
    refine ⟨by simp [h], ?_⟩
    rw [number_append, length_chain, number_cons, number_nil, mul_zero, add_zero,
      List.length_zip, h, min_self]
    rw [UInt32.toNat_zero, Nat.cast_zero, add_zero] at hc
    exact hc

theorem multRows_spec {ldigits digits : List UInt32} (rdigits : List UInt32)
    (h : digits.length = ldigits.length + 1) :
    (multRows ldigits digits rdigits).length = ldigits.length + 1 + rdigits.length ∧
      number (multRows ldigits digits rdigits) =
        number digits + base * (number ldigits * number rdigits) := by
  induction rdigits generalizing digits with
  | nil => exact ⟨h, by rw [multRows, number_nil, mul_zero, mul_zero, add_zero]⟩
  | cons factor rdigits ih =>
    obtain ⟨d, ds, rfl⟩ := List.exists_cons_of_length_eq_add_one h
    have hds : ds.length = ldigits.length := by simpa using h
    obtain ⟨hlen, hnum⟩ := multRow_spec factor hds
    obtain ⟨hlen', hnum'⟩ := ih hlen
    rw [multRows]
    refine ⟨?_, ?_⟩
    · simp only [List.take_succ_cons, List.take_zero, List.drop_succ_cons, List.drop_zero,
        List.length_append, List.length_cons, List.length_nil, hlen']
      omega
    · simp only [List.take_succ_cons, List.take_zero, List.drop_succ_cons, List.drop_zero,
        List.cons_append, List.nil_append, number_cons, hnum', hnum]
      ring

theorem multDigits_spec (ldigits : List UInt32) {rdigits : List UInt32} (h : rdigits ≠ []) :
    (multDigits ldigits rdigits).length = ldigits.length + rdigits.length ∧
      number (multDigits ldigits rdigits) = number ldigits * number rdigits := by
  obtain ⟨factor, rdigits, rfl⟩ := List.exists_cons_of_ne_nil h
  obtain ⟨hlen, hnum⟩ := multFirstRow_spec ldigits factor
  obtain ⟨hlen', hnum'⟩ := multRows_spec rdigits hlen
  rw [multDigits, List.headD_cons, List.tail_cons]
  refine ⟨by rw [hlen', List.length_cons]; omega, ?_⟩
  rw [hnum', hnum, number_cons]
  ring

theorem pow_le_number_mul {xs ys : List UInt32} (hx : Leading xs) (hxne : xs ≠ [])
    (hy : Leading ys) (hyne : ys ≠ []) :
    base ^ (xs.length + ys.length - 2) ≤ number xs * number ys := by
  have hxpos := List.length_pos_iff.mpr hxne
  have hypos := List.length_pos_iff.mpr hyne
  have hpow : base ^ (xs.length + ys.length - 2) =
      base ^ (xs.length - 1) * base ^ (ys.length - 1) := by
    rw [← pow_add]
    congr 1
    omega
  rw [hpow]
  exact mul_le_mul (pow_le_number hx hxne) (pow_le_number hy hyne) (base_pow_pos _).le
    (number_nonneg xs)

theorem take_getLast_spec {ds : List UInt32} (hlen : 2 ≤ ds.length)
    (h : base ^ (ds.length - 2) ≤ number ds) :
    Leading (ds.take (ds.length - if ds.getLastD 0 = 0 then 1 else 0)) ∧
      number (ds.take (ds.length - if ds.getLastD 0 = 0 then 1 else 0)) = number ds := by
  rcases List.eq_nil_or_concat ds with rfl | ⟨xs, x, rfl⟩
  · simp at hlen
  · rw [List.concat_eq_append] at *
    rw [List.getLastD_concat]
    split_ifs with h0
    · subst h0
      have hnum : number (xs ++ [0]) = number xs := by rw [number_append]; simp
      rw [List.length_append, List.length_singleton] at h hlen
      rw [List.length_append, List.length_singleton, Nat.add_sub_cancel, List.take_left]
      refine ⟨leading_of_pow_le ?_, hnum.symm⟩
      rwa [hnum, show xs.length + 1 - 2 = xs.length - 1 by omega] at h
    · rw [Nat.sub_zero, List.take_length]
      exact ⟨Leading.append_left (by simpa [Leading] using h0) (List.cons_ne_nil _ _), rfl⟩

/-- A result that is positive: its sign, its exponent and its magnitude. -/
structure IsProduct (big : Bigint) (exponent : ℕ) (v : ℤ) : Prop where
  wellFormed : big.WellFormed
  positive : 0 < big.signAndUsedDigits
  exponent_eq : big.exponent = exponent
  magnitude_eq : big.magnitude = v

theorem assign_isProduct (big : Bigint) {size exponent : ℕ} {ds : List UInt32} {v : ℤ}
    (hs : size ≤ INT16_MAX) (hd : size ≤ ds.length) (he : exponent ≤ UINT16_MAX)
    (hl : Leading (ds.take size)) (hpos : 0 < size)
    (hv : number (ds.take size) * base ^ exponent = v) :
    (big.assign false size exponent ds).IsProduct exponent v := by
  obtain ⟨_, hvalid, hexp⟩ := assign_spec big false hs hd he
  refine ⟨assign_wellFormed big false hs hd he hl fun h => absurd h hpos.ne', ?_, hexp, ?_⟩
  · change 0 < int16 (size : ℤ)
    rw [int16_of_natAbs_le (by omega)]
    omega
  · rw [magnitude, hvalid, hexp, hv]

theorem multBiginthelper_isProduct (big : Bigint) {ldigits rdigits : List UInt32} {exponent : ℕ}
    (hl : Leading ldigits) (hlne : ldigits ≠ []) (hr : Leading rdigits) (hrne : rdigits ≠ [])
    (hs : ldigits.length + rdigits.length ≤ INT16_MAX) (he : exponent ≤ UINT16_MAX) :
    (multBiginthelper big ldigits rdigits exponent).IsProduct exponent
      (number ldigits * number rdigits * base ^ exponent) := by
  obtain ⟨hlen, hnum⟩ := multDigits_spec ldigits hrne
  have hlpos := List.length_pos_iff.mpr hlne
  have hrpos := List.length_pos_iff.mpr hrne
  have hpow := pow_le_number_mul hl hlne hr hrne
  rw [← hlen, ← hnum] at hpow
  obtain ⟨hlead, htake⟩ := take_getLast_spec (by omega) hpow
  rw [multBiginthelper, ← hlen]
  refine assign_isProduct big ?_ (Nat.sub_le _ _) he hlead ?_ (by rw [htake, hnum])
  · exact (Nat.sub_le _ _).trans (hlen ▸ hs)
  · split_ifs <;> omega

/-! ## `addsplit_biginthelper` -/

/-- The longer and the shorter one of two arrays of digits. -/
def longer (ldigits rdigits : List UInt32) : List UInt32 :=
  if ldigits.length < rdigits.length then rdigits else ldigits

def shorter (ldigits rdigits : List UInt32) : List UInt32 :=
  if ldigits.length < rdigits.length then ldigits else rdigits

/-- The digits of a sum, with the carry if there is one. -/
def addsplitDigits (ldigits rdigits : List UInt32) : List UInt32 :=
  let sum := addDigits (longer ldigits rdigits) (shorter ldigits rdigits)
  sum.1 ++ if sum.2 then [1] else []

/-- `addsplit_biginthelper`: the sum is written behind the first `digitsoffset` digits. -/
def addsplitBiginthelper (big : Bigint) (digitsoffset : ℕ) (ldigits rdigits : List UInt32) :
    Bigint :=
  let sum := addsplitDigits ldigits rdigits
  { big with
    signAndUsedDigits := int16 (uint16 (digitsoffset + sum.length : ℕ))
    digits := big.write (big.digits.take digitsoffset ++ sum) }

theorem shorter_length_le (ldigits rdigits : List UInt32) :
    (shorter ldigits rdigits).length ≤ (longer ldigits rdigits).length := by
  rw [shorter, longer]
  split_ifs <;> omega

theorem longer_length (ldigits rdigits : List UInt32) :
    (longer ldigits rdigits).length = max ldigits.length rdigits.length := by
  rw [longer]
  split_ifs <;> omega

theorem number_longer_add_shorter (ldigits rdigits : List UInt32) :
    number (longer ldigits rdigits) + number (shorter ldigits rdigits) =
      number ldigits + number rdigits := by
  rw [longer, shorter]
  split_ifs
  · exact add_comm _ _
  · rfl

theorem addsplitDigits_length_le (ldigits rdigits : List UInt32) :
    (addsplitDigits ldigits rdigits).length ≤ max ldigits.length rdigits.length + 1 := by
  have h := addDigits_length (shorter_length_le ldigits rdigits)
  rw [longer_length] at h
  simp only [addsplitDigits, List.length_append, h]
  split_ifs <;> simp

theorem addsplitDigits_number (ldigits rdigits : List UInt32) :
    number (addsplitDigits ldigits rdigits) = number ldigits + number rdigits := by
  have hle := shorter_length_le ldigits rdigits
  have h := addDigits_value hle
  rw [number_longer_add_shorter] at h
  rw [← h, addsplitDigits, number_append, addDigits_length hle]
  cases (addDigits (longer ldigits rdigits) (shorter ldigits rdigits)).2 <;> simp

theorem addsplitDigits_leading {ldigits rdigits : List UInt32} (hl : Leading ldigits)
    (hr : Leading rdigits) (hne : rdigits ≠ []) : Leading (addsplitDigits ldigits rdigits) := by
  have hle := shorter_length_le ldigits rdigits
  have h := addDigits_value hle
  have hlen := addDigits_length hle
  rw [addsplitDigits]
  cases hc : (addDigits (longer ldigits rdigits) (shorter ldigits rdigits)).2 with
  | true => exact Leading.append_left (by decide) (List.cons_ne_nil _ _)
  | false =>
    rw [hc, Bool.toNat_false, Nat.cast_zero, mul_zero, add_zero] at h
    have hlong : Leading (longer ldigits rdigits) ∧ longer ldigits rdigits ≠ [] := by
      rw [longer]
      split_ifs with hlt
      · exact ⟨hr, hne⟩
      · refine ⟨hl, fun hnil => hne (List.length_eq_zero_iff.mp ?_)⟩
        rw [hnil, List.length_nil] at hlt
        omega
    simp only [Bool.false_eq_true, if_false, List.append_nil]
    refine leading_of_pow_le ?_
    rw [h, hlen]
    linarith [pow_le_number hlong.1 hlong.2, number_nonneg (shorter ldigits rdigits)]

theorem natAbs_int16_le (n : ℕ) : (int16 (uint16 n)).natAbs ≤ n := by
  rw [int16, uint16]
  omega

theorem addsplit_valid_length_le (big : Bigint) (ldigits rdigits : List UInt32) :
    (addsplitBiginthelper big 0 ldigits rdigits).valid.length ≤
      max ldigits.length rdigits.length + 1 := by
  have h := natAbs_int16_le (0 + (addsplitDigits ldigits rdigits).length)
  rw [valid, List.length_take]
  refine (min_le_left _ _).trans (h.trans ?_)
  rw [Nat.zero_add]
  exact addsplitDigits_length_le ldigits rdigits

/-! ## `multsplit_biginthelper` -/

/-- The operands as `multsplit_biginthelper` uses them: without trailing zeros, the shorter one
first; and the number of zeros skipped. -/
structure Factors where
  ldigits : List UInt32
  rdigits : List UInt32
  exponent : ℕ

def factors (ldigits rdigits : List UInt32) : Factors :=
  let l := Operand.skipTrailingZero ldigits 0
  let r := Operand.skipTrailingZero rdigits 0
  ⟨shorter r.digits l.digits, longer r.digits l.digits, l.exponent + r.exponent⟩

theorem factors_length (ldigits rdigits : List UInt32) :
    (factors ldigits rdigits).ldigits.length + (factors ldigits rdigits).rdigits.length +
      (factors ldigits rdigits).exponent = ldigits.length + rdigits.length := by
  have hl := Operand.skipTrailingZero_order ldigits 0
  have hr := Operand.skipTrailingZero_order rdigits 0
  rw [Operand.order] at hl hr
  simp only [factors, shorter, longer]
  split_ifs <;> omega

theorem factors_le (ldigits rdigits : List UInt32) :
    (factors ldigits rdigits).ldigits.length ≤ (factors ldigits rdigits).rdigits.length :=
  shorter_length_le _ _

theorem skipLeadingZero_le (ds : List UInt32) (size : ℕ) : skipLeadingZero ds size ≤ size := by
  induction size with
  | zero => exact le_rfl
  | succ size ih =>
    rw [skipLeadingZero]
    split_ifs <;> omega

/-- `multsplit_biginthelper`.  With `X = base ^ split`, `l = l0 * X + l1` and `r = r0 * X + r1`:
`t0 = l0 * r0`, `t1 = l1 * r1`, `t2 = l0 + l1`, `t3 = r0 + r1`, `t4 = t2 * t3 - t0 - t1`, and the
result is `t0 * X * X + t4 * X + t1`. -/
def multsplitBiginthelper (result : Bigint) (ldigits rdigits : List UInt32) :
    Except Errno Bigint :=
  let l := (factors ldigits rdigits).ldigits
  let r := (factors ldigits rdigits).rdigits
  let exponent := (factors ldigits rdigits).exponent
  if _h : l.length ≤ 48 then .ok (multBiginthelper result l r (uint16 exponent))
  else
    let split := l.length / 2
    let lsplit := skipLeadingZero l split
    let rsplit := skipLeadingZero r split
    (allocateBigint none (l.length - split + (r.length - split))).bind fun new0 =>
    (multsplitBiginthelper new0 (l.drop split) (r.drop split)).bind fun t0 =>
    (allocateBigint none (lsplit + rsplit)).bind fun new1 =>
    (multsplitBiginthelper new1 (l.take lsplit) (r.take rsplit)).bind fun t1 =>
    (allocateBigint none (l.length - split + 1)).bind fun new2 =>
    let t2 := addsplitBiginthelper new2 0 (l.drop split) (l.take lsplit)
    (allocateBigint none (r.length - split + 1)).bind fun new3 =>
    let t3 := addsplitBiginthelper new3 0 (r.drop split) (r.take rsplit)
    (allocateBigint none (t2.nrdigits + t3.nrdigits)).bind fun new4 =>
    (multsplitBiginthelper new4 t2.valid t3.valid).bind fun t4 =>
    (subBigint result t4 t0).bind fun result =>
    (subBigint t4 result t1).bind fun t4 =>
    (addBigint result { t0 with exponent := uint16 (t0.exponent + 2 * split : ℕ) } t1).bind
      fun result =>
    let offset := uint16 (t4.exponent + split - result.exponent)
    let result := addsplitBiginthelper result offset (result.valid.drop offset) t4.valid
    .ok { result with exponent := uint16 (result.exponent + exponent : ℕ) }
termination_by ldigits.length + rdigits.length
decreasing_by
  all_goals
    have h48 : ¬(factors ldigits rdigits).ldigits.length ≤ 48 := _h
    have hlen := factors_length ldigits rdigits
    have hle := factors_le ldigits rdigits
    have hl := skipLeadingZero_le (factors ldigits rdigits).ldigits
      ((factors ldigits rdigits).ldigits.length / 2)
    have hr := skipLeadingZero_le (factors ldigits rdigits).rdigits
      ((factors ldigits rdigits).ldigits.length / 2)
  · simp only [List.length_drop]
    omega
  · simp only [List.length_take]
    omega
  · have h2 := addsplit_valid_length_le new2
      ((factors ldigits rdigits).ldigits.drop ((factors ldigits rdigits).ldigits.length / 2))
      ((factors ldigits rdigits).ldigits.take (skipLeadingZero (factors ldigits rdigits).ldigits
        ((factors ldigits rdigits).ldigits.length / 2)))
    have h3 := addsplit_valid_length_le new3
      ((factors ldigits rdigits).rdigits.drop ((factors ldigits rdigits).ldigits.length / 2))
      ((factors ldigits rdigits).rdigits.take (skipLeadingZero (factors ldigits rdigits).rdigits
        ((factors ldigits rdigits).ldigits.length / 2)))
    simp only [List.length_drop, List.length_take] at h2 h3
    omega

/-! ## What the split computes -/

theorem IsProduct.isnegative_eq {big : Bigint} {e : ℕ} {v : ℤ} (h : big.IsProduct e v) :
    big.isnegative = false := by
  rw [isnegative, decide_eq_false_iff_not]
  exact not_lt.mpr h.positive.le

theorem IsProduct.value_eq {big : Bigint} {e : ℕ} {v : ℤ} (h : big.IsProduct e v) :
    big.value = v := by
  rw [Bigint.value_eq, h.isnegative_eq, ← h.magnitude_eq]
  rfl

theorem IsProduct.nrdigits_pos {big : Bigint} {e : ℕ} {v : ℤ} (h : big.IsProduct e v) :
    0 < big.nrdigits := by
  have := h.positive
  rw [nrdigits]
  omega

theorem IsProduct.value_pos {big : Bigint} {e : ℕ} {v : ℤ} (h : big.IsProduct e v) :
    0 < big.value := by
  have hne := h.wellFormed.valid_ne_nil h.nrdigits_pos.ne'
  rw [value, Int.sign_eq_one_of_pos h.positive, one_mul]
  exact mul_pos (number_pos h.wellFormed.leading hne) (base_pow_pos _)

theorem magnitude_nonneg (big : Bigint) : 0 ≤ big.magnitude :=
  mul_nonneg (number_nonneg _) (base_pow_pos _).le

theorem isProduct_of_value_pos {big : Bigint} (h : big.WellFormed) (hpos : 0 < big.value) :
    big.IsProduct big.exponent big.value := by
  have hsign : 0 < big.signAndUsedDigits := by
    by_contra hneg
    have h1 := mul_nonneg_of_nonpos_of_nonpos (Int.sign_nonpos_iff.mpr (not_lt.mp hneg))
      (neg_nonpos.mpr big.magnitude_nonneg)
    rw [mul_neg] at h1
    change 0 < big.signAndUsedDigits.sign * big.magnitude at hpos
    omega
  refine ⟨h, hsign, rfl, ?_⟩
  rw [value, Int.sign_eq_one_of_pos hsign, one_mul]
  rfl

/-- The lowest digit. -/
def lowest (ds : List UInt32) : ℤ := (ds.headD 0).toNat

theorem number_eq_lowest_add (ds : List UInt32) :
    number ds = lowest ds + base * number ds.tail := by
  cases ds <;> simp [lowest]

theorem base_dvd_mul_iff (xs ys : List UInt32) :
    base ∣ number xs * number ys ↔ base ∣ lowest xs * lowest ys := by
  rw [number_eq_lowest_add xs, number_eq_lowest_add ys]
  have h : (lowest xs + base * number xs.tail) * (lowest ys + base * number ys.tail) =
      lowest xs * lowest ys + base * (number xs.tail * lowest ys + lowest xs * number ys.tail +
        base * (number xs.tail * number ys.tail)) := by ring
  rw [h]
  exact dvd_add_left (dvd_mul_right _ _)

theorem exists_two_pow_dvd {x : ℤ} (hx : ¬base ∣ x) :
    ∃ k ≤ 31, 2 ^ k ∣ x ∧ ¬(2 : ℤ) ^ (k + 1) ∣ x := by
  have hex : ∃ k : ℕ, ¬(2 : ℤ) ^ k ∣ x := ⟨32, hx⟩
  have hle : Nat.find hex ≤ 32 := Nat.find_le hx
  obtain ⟨k, hk⟩ := Nat.exists_eq_succ_of_ne_zero (n := Nat.find hex) fun h0 =>
    Nat.find_spec hex (by rw [h0, pow_zero]; exact one_dvd x)
  refine ⟨k, by omega, not_not.mp (Nat.find_min hex (by omega)), ?_⟩
  have := Nat.find_spec hex
  rwa [hk] at this

theorem not_base_sq_dvd_mul {x y : ℤ} (hx : ¬base ∣ x) (hy : ¬base ∣ y) :
    ¬base ^ 2 ∣ x * y := by
  obtain ⟨k, hk, hkx, hkx'⟩ := exists_two_pow_dvd hx
  obtain ⟨l, hl, hly, hly'⟩ := exists_two_pow_dvd hy
  intro h
  have h64 : (2 : ℤ) ^ 64 ∣ x * y := by
    rwa [base, ← pow_mul] at h
  rcases Int.succ_dvd_or_succ_dvd_of_succ_sum_dvd_mul Nat.prime_two
    (by exact_mod_cast hkx) (by exact_mod_cast hly)
    (by exact_mod_cast (pow_dvd_pow 2 (by omega : k + l + 1 ≤ 64)).trans h64) with h' | h'
  · exact hkx' (by exact_mod_cast h')
  · exact hly' (by exact_mod_cast h')

theorem not_base_dvd_number {ds : List UInt32} (hhead : ds.head? ≠ some 0) (hne : ds ≠ []) :
    ¬base ∣ number ds := by
  have h := Operand.pow_dvd_value_iff (x := ⟨ds, 0⟩) hhead hne 1
  rw [pow_one, Operand.value, pow_zero, mul_one] at h
  exact fun hd => Nat.not_succ_le_zero 0 (h.mp hd)

/-- The number of trailing zero digits of the product of two numbers that have none. -/
def productZeros (ldigits rdigits : List UInt32) : ℕ :=
  if base ∣ lowest ldigits * lowest rdigits then 1 else 0

theorem productZeros_le (ldigits rdigits : List UInt32) : productZeros ldigits rdigits ≤ 1 := by
  rw [productZeros]
  split_ifs <;> omega

theorem operand_exponent_of_mul {big : Bigint} (h : big.operand.digits ≠ [])
    {ldigits rdigits : List UInt32} (hl : ldigits.head? ≠ some 0) (hlne : ldigits ≠ [])
    (hr : rdigits.head? ≠ some 0) (hrne : rdigits ≠ [])
    (hv : big.magnitude = number ldigits * number rdigits) :
    big.operand.exponent = productZeros ldigits rdigits := by
  have hdvd := Operand.pow_dvd_value_iff big.operand_head h
  rw [operand_value, hv] at hdvd
  have h2 := not_base_sq_dvd_mul (not_base_dvd_number hl hlne) (not_base_dvd_number hr hrne)
  rw [hdvd] at h2
  have h1 := hdvd 1
  rw [pow_one, base_dvd_mul_iff] at h1
  rw [productZeros]
  split_ifs with hz
  · have := h1.mp hz
    omega
  · have : ¬1 ≤ big.operand.exponent := fun hc => hz (h1.mpr hc)
    omega

/-- Both operands of a product, as `multsplit_biginthelper` receives them. -/
structure Splittable (ldigits rdigits : List UInt32) : Prop where
  leading_l : Leading ldigits
  leading_r : Leading rdigits
  ne_nil_l : ldigits ≠ []
  ne_nil_r : rdigits ≠ []
  length_le : ldigits.length + rdigits.length ≤ INT16_MAX

/-- The exponent of the result: the zeros skipped, and behind a split those of the product of the
lower halves. -/
def splitExponent (ldigits rdigits : List UInt32) : ℕ :=
  let f := factors ldigits rdigits
  f.exponent + if f.ldigits.length ≤ 48 then 0 else productZeros f.ldigits f.rdigits

theorem factors_spec {ldigits rdigits : List UInt32} (h : Splittable ldigits rdigits) :
    Splittable (factors ldigits rdigits).ldigits (factors ldigits rdigits).rdigits ∧
      (factors ldigits rdigits).ldigits.head? ≠ some 0 ∧
      (factors ldigits rdigits).rdigits.head? ≠ some 0 ∧
      number ldigits * number rdigits =
        number (factors ldigits rdigits).ldigits * number (factors ldigits rdigits).rdigits *
          base ^ (factors ldigits rdigits).exponent := by
  have hlen := factors_length ldigits rdigits
  have hl1 := h.leading_l.of_suffix (Operand.skipTrailingZero_suffix ldigits 0)
  have hr1 := h.leading_r.of_suffix (Operand.skipTrailingZero_suffix rdigits 0)
  have hl2 := Operand.skipTrailingZero_ne_nil 0 h.leading_l h.ne_nil_l
  have hr2 := Operand.skipTrailingZero_ne_nil 0 h.leading_r h.ne_nil_r
  have hl3 := Operand.skipTrailingZero_head ldigits 0
  have hr3 := Operand.skipTrailingZero_head rdigits 0
  have hl4 := Operand.skipTrailingZero_value ldigits 0
  have hr4 := Operand.skipTrailingZero_value rdigits 0
  rw [pow_zero, mul_one, Operand.value] at hl4 hr4
  have hmax := h.length_le
  rw [← hl4, ← hr4]
  simp only [factors, shorter, longer] at hlen ⊢
  split_ifs with hlt
  · rw [if_pos hlt, if_pos hlt] at hlen
    exact ⟨⟨hr1, hl1, hr2, hl2, by omega⟩, hr3, hl3, by rw [pow_add]; ring⟩
  · rw [if_neg hlt, if_neg hlt] at hlen
    exact ⟨⟨hl1, hr1, hl2, hr2, by omega⟩, hl3, hr3, by rw [pow_add]; ring⟩

theorem IsProduct.operand_ne_nil {big : Bigint} {e : ℕ} {v : ℤ} (h : big.IsProduct e v) :
    big.operand.digits ≠ [] :=
  fun hnil => h.nrdigits_pos.ne' (h.wellFormed.operand_eq_nil.mp hnil)

theorem IsProduct.shift {big : Bigint} {e : ℕ} {v : ℤ} (h : big.IsProduct e v) {k : ℕ}
    (he : e + k ≤ UINT16_MAX) :
    ({ big with exponent := e + k } : Bigint).IsProduct (e + k) (v * base ^ k) := by
  refine ⟨⟨h.wellFormed.nrdigits_le, h.wellFormed.stored, he, h.wellFormed.leading,
    fun h0 => absurd h0 h.nrdigits_pos.ne'⟩, h.positive, rfl, ?_⟩
  rw [← h.magnitude_eq, magnitude, magnitude, h.exponent_eq]
  change number big.valid * base ^ (e + k) = _
  rw [pow_add]
  ring

theorem addsplitBiginthelper_isProduct {big : Bigint} {digitsoffset : ℕ}
    {ldigits rdigits : List UInt32} (ho : digitsoffset ≤ big.digits.length)
    (hlen : digitsoffset + (addsplitDigits ldigits rdigits).length ≤ INT16_MAX)
    (hl : Leading ldigits) (hr : Leading rdigits) (hne : rdigits ≠ [])
    (he : big.exponent ≤ UINT16_MAX) :
    (addsplitBiginthelper big digitsoffset ldigits rdigits).IsProduct big.exponent
      ((number (big.digits.take digitsoffset) +
        base ^ digitsoffset * (number ldigits + number rdigits)) * base ^ big.exponent) ∧
    (addsplitBiginthelper big digitsoffset ldigits rdigits).valid =
      big.digits.take digitsoffset ++ addsplitDigits ldigits rdigits := by
  have hlead := addsplitDigits_leading hl hr hne
  have hnum := addsplitDigits_number ldigits rdigits
  have hpos : addsplitDigits ldigits rdigits ≠ [] := by
    intro hnil
    rw [hnil, number_nil] at hnum
    linarith [number_pos hr hne, number_nonneg ldigits]
  have hpos' := List.length_pos_iff.mpr hpos
  have hdlen : (big.digits.take digitsoffset ++ addsplitDigits ldigits rdigits).length =
      digitsoffset + (addsplitDigits ldigits rdigits).length := by
    rw [List.length_append, List.length_take, min_eq_left ho]
  have hassign : addsplitBiginthelper big digitsoffset ldigits rdigits =
      big.assign false (digitsoffset + (addsplitDigits ldigits rdigits).length) big.exponent
        (big.digits.take digitsoffset ++ addsplitDigits ldigits rdigits) := by
    rw [addsplitBiginthelper, assign, uint16_of_le he, uint16_of_le (hlen.trans (by norm_num))]
    simp only [Bool.false_eq_true, if_false]
  have hspec := assign_spec big false hlen hdlen.ge he
  have hprod := assign_isProduct big hlen hdlen.ge he
    (by
      rw [← hdlen, List.take_length]
      exact Leading.append_left hlead hpos) (by omega) rfl
  rw [hassign, ← hdlen]
  rw [← hdlen, List.take_length] at hprod hspec
  refine ⟨?_, hspec.2.1⟩
  rw [number_append, List.length_take, min_eq_left ho, hnum] at hprod
  exact hprod

/-! ### The middle and the outer products -/

theorem subBigint_mixed {result t4 t0 t1 a b : Bigint} {e4 e0 e1 : ℕ} {x0 x1 y0 y1 : ℤ}
    (h4 : t4.IsProduct e4 ((x0 + x1) * (y0 + y1))) (h0 : t0.IsProduct e0 (x0 * y0))
    (h1 : t1.IsProduct e1 (x1 * y1)) (hpos : 0 < x0 * y1 + x1 * y0)
    (ha : subBigint result t4 t0 = .ok a) (hb : subBigint t4 a t1 = .ok b) :
    b.IsProduct b.exponent (x0 * y1 + x1 * y0) := by
  obtain ⟨hawf, hav⟩ := subBigint_spec h4.wellFormed h0.wellFormed ha
  obtain ⟨hbwf, hbv⟩ := subBigint_spec hawf h1.wellFormed hb
  have hv : b.value = x0 * y1 + x1 * y0 := by
    rw [hbv, hav, h4.value_eq, h0.value_eq, h1.value_eq]
    ring
  rw [← hv] at hpos ⊢
  exact isProduct_of_value_pos hbwf hpos

theorem addBigint_outer {result t0 t1 a : Bigint} {e0 e1 k : ℕ} {v0 : ℤ}
    {ldigits rdigits : List UInt32} (h0 : t0.IsProduct e0 v0)
    (h1 : t1.IsProduct e1 (number ldigits * number rdigits))
    (hl : ldigits.head? ≠ some 0) (hlne : ldigits ≠ []) (hr : rdigits.head? ≠ some 0)
    (hrne : rdigits ≠ []) (hv0 : 0 ≤ v0) (hk : 1 ≤ k) (he : e0 + k ≤ UINT16_MAX)
    (ha : addBigint result { t0 with exponent := uint16 (t0.exponent + k : ℕ) } t1 = .ok a) :
    a.IsProduct (productZeros ldigits rdigits)
      (v0 * base ^ k + number ldigits * number rdigits) := by
  have hshift := h0.shift he
  rw [h0.exponent_eq, uint16_of_le he] at ha
  obtain ⟨hwf, hv⟩ := addBigint_spec hshift.wellFormed h1.wellFormed ha
  rw [hshift.value_eq, h1.value_eq] at hv
  have hexp : a.exponent = productZeros ldigits rdigits := by
    have hz := operand_exponent_of_mul h1.operand_ne_nil hl hlne hr hrne h1.magnitude_eq
    have hz1 := productZeros_le ldigits rdigits
    have hle := Operand.le_skipTrailingZero_exponent
      ({ t0 with exponent := e0 + k } : Bigint).valid (e0 + k)
    have hsign : ({ t0 with exponent := e0 + k } : Bigint).isnegative = t1.isnegative := by
      rw [hshift.isnegative_eq, h1.isnegative_eq]
    rw [addBigint, if_pos hsign] at ha
    rw [addBiginthelper_exponent hshift.operand_ne_nil h1.operand_ne_nil ha, hz]
    change min (Operand.skipTrailingZero _ (e0 + k)).exponent _ = _
    omega
  have hpos : 0 < a.value := by
    rw [hv]
    have h1pos := h1.value_pos
    rw [h1.value_eq] at h1pos
    have := mul_nonneg hv0 (base_pow_pos k).le
    omega
  have hprod := isProduct_of_value_pos hwf hpos
  rwa [hexp, hv] at hprod

theorem pow_lt_pow_base_iff {m n : ℕ} : base ^ m < base ^ n ↔ m < n :=
  pow_lt_pow_iff_right₀ (by rw [base_eq]; norm_num)

theorem IsProduct.pow_exponent_le {big : Bigint} {e : ℕ} {v : ℤ} (h : big.IsProduct e v) :
    base ^ e ≤ v := by
  have hne := h.wellFormed.valid_ne_nil h.nrdigits_pos.ne'
  have hpos := number_pos h.wellFormed.leading hne
  rw [← h.magnitude_eq, magnitude, h.exponent_eq]
  exact le_mul_of_one_le_left (base_pow_pos e).le hpos

theorem IsProduct.lt_pow {big : Bigint} {e : ℕ} {v : ℤ} (h : big.IsProduct e v) :
    v < base ^ (big.nrdigits + e) := by
  rw [← h.magnitude_eq, magnitude, h.exponent_eq, ← h.wellFormed.length_valid, pow_add]
  exact mul_lt_mul_of_pos_right (number_lt _) (base_pow_pos e)

theorem mixed_offset {a b : Bigint} {z split n : ℕ} {v m : ℤ} (ha : a.IsProduct z v)
    (hb : b.IsProduct b.exponent m) (hz : z ≤ split) (hlt : v + m * base ^ split < base ^ n)
    (hn : n ≤ INT16_MAX) (hv : base ^ (n - 2) ≤ v) :
    ∃ k, uint16 (b.exponent + split - a.exponent) = k ∧ k ≤ a.nrdigits ∧
      (number (a.digits.take k) + base ^ k * (number (a.valid.drop k) + number b.valid)) *
        base ^ z = v + m * base ^ split ∧
      k + (addsplitDigits (a.valid.drop k) b.valid).length ≤ n := by
  have hnr := pow_lt_pow_base_iff.mp (hv.trans_lt ha.lt_pow)
  have hbe := hb.pow_exponent_le
  have hv0 := (base_pow_pos (n - 2)).le.trans hv
  have hbound : b.exponent + split < n := by
    refine pow_lt_pow_base_iff.mp (lt_of_le_of_lt ?_ hlt)
    rw [pow_add]
    linarith [mul_le_mul_of_nonneg_right hbe (base_pow_pos split).le]
  obtain ⟨k, hk⟩ : ∃ k, b.exponent + split = k + z := ⟨b.exponent + split - z, by omega⟩
  have hoff : uint16 (b.exponent + split - a.exponent) = k := by
    rw [ha.exponent_eq, show (b.exponent + split - z : ℤ) = (k : ℕ) by omega]
    exact uint16_of_le ((show k ≤ INT16_MAX by omega).trans (by norm_num))
  have hkn : k ≤ a.nrdigits := by omega
  have hvlen := ha.wellFormed.length_valid
  have htake : a.digits.take k = a.valid.take k := by
    rw [valid, List.take_take, min_eq_left hkn]
  have hsplit := number_take_add_drop k _ (hkn.trans hvlen.ge)
  have hlead := ha.wellFormed.leading.of_suffix (List.drop_suffix k a.valid)
  have hbne := hb.wellFormed.valid_ne_nil hb.nrdigits_pos.ne'
  -- the value does not depend on the size, and bounds it
  have hvalue : (number (a.digits.take k) + base ^ k * (number (a.valid.drop k) + number b.valid)) *
      base ^ z = v + m * base ^ split := by
    rw [htake, ← ha.magnitude_eq, ← hb.magnitude_eq, magnitude, magnitude, ha.exponent_eq,
      mul_assoc (number b.valid), ← pow_add, hk, ← hsplit, pow_add]
    ring
  refine ⟨k, hoff, hkn, hvalue, ?_⟩
  have hpos := addsplitDigits_leading hlead hb.wellFormed.leading hbne
  have hnum := addsplitDigits_number (a.valid.drop k) b.valid
  have hne : addsplitDigits (a.valid.drop k) b.valid ≠ [] := by
    intro hnil
    rw [hnil, number_nil] at hnum
    linarith [number_pos hb.wellFormed.leading hbne, number_nonneg (a.valid.drop k)]
  have hle := pow_le_number hpos hne
  rw [hnum] at hle
  have hchain : base ^ (k + ((addsplitDigits (a.valid.drop k) b.valid).length - 1)) <
      base ^ n := by
    refine lt_of_le_of_lt ?_ hlt
    rw [← hvalue, pow_add]
    have h1 := mul_le_mul_of_nonneg_left hle (base_pow_pos k).le
    have h2 := number_nonneg (a.digits.take k)
    refine le_trans (by linarith) (le_mul_of_one_le_right ?_ (base_pow_pos z))
    have h3 := mul_nonneg (base_pow_pos k).le
      (add_nonneg (number_nonneg (a.valid.drop k)) (number_nonneg b.valid))
    linarith
  have := pow_lt_pow_base_iff.mp hchain
  omega

theorem addsplit_mixed {a b : Bigint} {z split n : ℕ} {v m : ℤ} (ha : a.IsProduct z v)
    (hb : b.IsProduct b.exponent m) (hz : z ≤ split) (hlt : v + m * base ^ split < base ^ n)
    (hn : n ≤ INT16_MAX) (hv : base ^ (n - 2) ≤ v) :
    (addsplitBiginthelper a (uint16 (b.exponent + split - a.exponent))
      (a.valid.drop (uint16 (b.exponent + split - a.exponent))) b.valid).IsProduct z
        (v + m * base ^ split) := by
  obtain ⟨k, hoff, hkn, hvalue, hsize⟩ := mixed_offset ha hb hz hlt hn hv
  have hlead := ha.wellFormed.leading.of_suffix (List.drop_suffix k a.valid)
  have hbne := hb.wellFormed.valid_ne_nil hb.nrdigits_pos.ne'
  rw [hoff, ← hvalue]
  have h := (addsplitBiginthelper_isProduct (hkn.trans ha.wellFormed.stored) (hsize.trans hn) hlead
    hb.wellFormed.leading hbne ha.wellFormed.exponent_le).1
  rwa [ha.exponent_eq] at h

/-- The result of `multsplit_biginthelper`. -/
def SplitCorrect (ldigits rdigits : List UInt32) : Prop :=
  ∀ result new, multsplitBiginthelper result ldigits rdigits = .ok new →
    new.IsProduct (splitExponent ldigits rdigits) (number ldigits * number rdigits)

theorem splitExponent_le (ldigits rdigits : List UInt32) :
    splitExponent ldigits rdigits ≤ ldigits.length + rdigits.length + 1 := by
  have h := factors_length ldigits rdigits
  have hz := productZeros_le (factors ldigits rdigits).ldigits (factors ldigits rdigits).rdigits
  rw [splitExponent]
  split_ifs <;> omega

theorem lower_half {ds : List UInt32} (hhead : ds.head? ≠ some 0) {split : ℕ} (hs : split ≠ 0)
    (hlen : split ≤ ds.length) :
    Leading (ds.take (skipLeadingZero ds split)) ∧ ds.take (skipLeadingZero ds split) ≠ [] ∧
      (ds.take (skipLeadingZero ds split)).head? ≠ some 0 ∧
      number (ds.take (skipLeadingZero ds split)) = number (ds.take split) := by
  obtain ⟨_, hnum, hlead⟩ := skipLeadingZero_spec hlen
  have hpos := Operand.take_value_pos (x := ⟨ds, 0⟩) hhead hs hlen
  have hne : ds.take (skipLeadingZero ds split) ≠ [] := by
    intro hnil
    rw [hnil, number_nil] at hnum
    rw [Operand.value, Operand.take, ← hnum, zero_mul] at hpos
    exact lt_irrefl 0 hpos
  exact ⟨hlead, hne, Operand.take_head (x := ⟨ds, 0⟩) hhead _, hnum⟩

theorem upper_half {ds : List UInt32} (h : Leading ds) {split : ℕ} (hlen : split < ds.length) :
    Leading (ds.drop split) ∧ ds.drop split ≠ [] :=
  ⟨h.of_suffix (List.drop_suffix split ds), fun hnil => by
    rw [List.drop_eq_nil_iff] at hnil
    omega⟩

theorem lowest_take {ds : List UInt32} {n : ℕ} (h : ds.take n ≠ []) :
    lowest (ds.take n) = lowest ds := by
  cases ds with
  | nil => rw [List.take_nil]
  | cons d ds =>
    cases n with
    | zero => exact absurd (List.take_zero) h
    | succ n => rfl

theorem number_mul_lt (xs ys : List UInt32) :
    number xs * number ys < base ^ (xs.length + ys.length) := by
  rw [pow_add]
  exact mul_lt_mul'' (number_lt xs) (number_lt ys) (number_nonneg xs) (number_nonneg ys)

theorem multsplit_parts {ldigits rdigits : List UInt32} {split : ℕ}
    (h : Splittable ldigits rdigits) (hl : ldigits.head? ≠ some 0) (hr : rdigits.head? ≠ some 0)
    (hs : 1 ≤ split) (hsl : split < ldigits.length) (hsr : split < rdigits.length)
    {t0 t1 t4 a b c result : Bigint} {e0 e1 e4 : ℕ} (he0 : e0 + 2 * split ≤ UINT16_MAX)
    (h0 : t0.IsProduct e0 (number (ldigits.drop split) * number (rdigits.drop split)))
    (h1 : t1.IsProduct e1 (number (ldigits.take (skipLeadingZero ldigits split)) *
      number (rdigits.take (skipLeadingZero rdigits split))))
    (h4 : t4.IsProduct e4 ((number (ldigits.drop split) + number (ldigits.take split)) *
      (number (rdigits.drop split) + number (rdigits.take split))))
    (ha : subBigint result t4 t0 = .ok a) (hb : subBigint t4 a t1 = .ok b)
    (hc : addBigint a { t0 with exponent := uint16 (t0.exponent + 2 * split : ℕ) } t1 = .ok c) :
    ∃ v m, c.IsProduct (productZeros ldigits rdigits) v ∧ b.IsProduct b.exponent m ∧
      v + m * base ^ split = number ldigits * number rdigits ∧
      base ^ (ldigits.length + rdigits.length - 2) ≤ v := by
  obtain ⟨_, hl1ne, hl1h, hl1n⟩ := lower_half hl (by omega) hsl.le
  obtain ⟨_, hr1ne, hr1h, hr1n⟩ := lower_half hr (by omega) hsr.le
  obtain ⟨hl0l, hl0ne⟩ := upper_half h.leading_l hsl
  obtain ⟨hr0l, hr0ne⟩ := upper_half h.leading_r hsr
  have hlsplit := number_take_add_drop split _ hsl.le
  have hrsplit := number_take_add_drop split _ hsr.le
  have hl0 := number_pos hl0l hl0ne
  have hr0 := number_pos hr0l hr0ne
  have hl1 : 0 ≤ number (ldigits.take split) := number_nonneg _
  have hr1 : 0 < number (rdigits.take split) :=
    lt_of_le_of_ne (number_nonneg _) fun h0 => by
      rw [← hr1n] at h0
      have := not_base_dvd_number hr1h hr1ne
      rw [← h0] at this
      exact this (dvd_zero base)
  have hzeros : productZeros (ldigits.take (skipLeadingZero ldigits split))
      (rdigits.take (skipLeadingZero rdigits split)) = productZeros ldigits rdigits := by
    rw [productZeros, productZeros, lowest_take hl1ne, lowest_take hr1ne]
  have hout := addBigint_outer h0 h1 hl1h hl1ne hr1h hr1ne (mul_pos hl0 hr0).le (by omega) he0 hc
  rw [hl1n, hr1n] at h1
  rw [hzeros, hl1n, hr1n] at hout
  have hmix := subBigint_mixed h4 h0 h1 (by positivity) ha hb
  have htotal : number (ldigits.drop split) * number (rdigits.drop split) * base ^ (2 * split) +
      number (ldigits.take split) * number (rdigits.take split) +
        (number (ldigits.drop split) * number (rdigits.take split) +
          number (ldigits.take split) * number (rdigits.drop split)) * base ^ split =
        number ldigits * number rdigits := by
    rw [← hlsplit, ← hrsplit, two_mul, pow_add]
    ring
  have hlow : base ^ (ldigits.length + rdigits.length - 2) ≤
      number (ldigits.drop split) * number (rdigits.drop split) * base ^ (2 * split) := by
    have h2 := pow_le_number_mul hl0l hl0ne hr0l hr0ne
    rw [List.length_drop, List.length_drop] at h2
    refine le_trans (le_of_eq ?_) (mul_le_mul_of_nonneg_right h2 (base_pow_pos (2 * split)).le)
    rw [← pow_add]
    congr 1
    omega
  have hnn := mul_nonneg hl1 hr1.le
  exact ⟨_, _, hout, hmix, htotal, by linarith⟩

theorem multsplit_step {ldigits rdigits : List UInt32} {split : ℕ} {b c : Bigint} {v m : ℤ}
    (h : Splittable ldigits rdigits) (hs : 1 ≤ split)
    (hc : c.IsProduct (productZeros ldigits rdigits) v) (hb : b.IsProduct b.exponent m)
    (htotal : v + m * base ^ split = number ldigits * number rdigits)
    (hlow : base ^ (ldigits.length + rdigits.length - 2) ≤ v) :
    (addsplitBiginthelper c (uint16 (b.exponent + split - c.exponent))
      (c.valid.drop (uint16 (b.exponent + split - c.exponent))) b.valid).IsProduct
        (productZeros ldigits rdigits) (number ldigits * number rdigits) := by
  rw [← htotal]
  refine addsplit_mixed hc hb ((productZeros_le ldigits rdigits).trans hs) ?_ h.length_le hlow
  rw [htotal]
  exact number_mul_lt ldigits rdigits

theorem halves_sum {new : Bigint} {n : ℕ} {upper lower : List UInt32}
    (hnew : allocateBigint none n = .ok new) (hn : max upper.length lower.length + 1 ≤ n)
    (hu : Leading upper) (hl : Leading lower) (hlne : lower ≠ []) :
    Leading (addsplitBiginthelper new 0 upper lower).valid ∧
      (addsplitBiginthelper new 0 upper lower).valid ≠ [] ∧
      (addsplitBiginthelper new 0 upper lower).valid.length =
        (addsplitBiginthelper new 0 upper lower).nrdigits ∧
      number (addsplitBiginthelper new 0 upper lower).valid = number upper + number lower := by
  obtain ⟨halloc, _, hexp⟩ := allocateBigint_spec hnew
  have hlen := addsplitDigits_length_le upper lower
  obtain ⟨hprod, hvalid⟩ := addsplitBiginthelper_isProduct (Nat.zero_le new.digits.length)
    (by rw [Nat.zero_add]; exact (hlen.trans hn).trans (halloc.trans new.allocated_le)) hu hl hlne
    (hexp.trans_le (Nat.zero_le _))
  refine ⟨hprod.wellFormed.leading, hprod.wellFormed.valid_ne_nil hprod.nrdigits_pos.ne',
    hprod.wellFormed.length_valid, ?_⟩
  rw [hvalid, List.take_zero, List.nil_append, addsplitDigits_number]

/-- **The split multiplication is exact**, by induction on the number of digits of both operands:
every product of the recursion has fewer. -/
theorem multsplitBiginthelper_isProduct (n : ℕ) :
    ∀ {ldigits rdigits : List UInt32}, ldigits.length + rdigits.length ≤ n →
      Splittable ldigits rdigits → SplitCorrect ldigits rdigits := by
  induction n with
  | zero =>
    intro ldigits rdigits hn h
    have := List.length_pos_iff.mpr h.ne_nil_l
    omega
  | succ n ih =>
    intro ldigits rdigits hn h result new hnew
    have hlen := factors_length ldigits rdigits
    have hle := factors_le ldigits rdigits
    have hmax := h.length_le
    obtain ⟨hf, hlh, hrh, hprod⟩ := factors_spec h
    rw [multsplitBiginthelper] at hnew
    rw [hprod, splitExponent]
    set l := (factors ldigits rdigits).ldigits
    set r := (factors ldigits rdigits).rdigits
    set e := (factors ldigits rdigits).exponent
    have he : e ≤ UINT16_MAX := (show e ≤ INT16_MAX by omega).trans (by norm_num)
    dsimp only at hnew ⊢
    split_ifs at hnew ⊢ with h48
    · cases hnew
      rw [uint16_of_le he, Nat.add_zero]
      exact multBiginthelper_isProduct result hf.leading_l hf.ne_nil_l hf.leading_r hf.ne_nil_r
        hf.length_le he
    · obtain ⟨new0, ha0, hnew⟩ := bind_eq_ok hnew
      obtain ⟨t0, ht0, hnew⟩ := bind_eq_ok hnew
      obtain ⟨new1, ha1, hnew⟩ := bind_eq_ok hnew
      obtain ⟨t1, ht1, hnew⟩ := bind_eq_ok hnew
      obtain ⟨new2, ha2, hnew⟩ := bind_eq_ok hnew
      obtain ⟨new3, ha3, hnew⟩ := bind_eq_ok hnew
      obtain ⟨new4, ha4, hnew⟩ := bind_eq_ok hnew
      obtain ⟨t4, ht4, hnew⟩ := bind_eq_ok hnew
      obtain ⟨a, ha, hnew⟩ := bind_eq_ok hnew
      obtain ⟨b, hb, hnew⟩ := bind_eq_ok hnew
      obtain ⟨c, hc, hnew⟩ := bind_eq_ok hnew
      cases hnew
      have hs : 1 ≤ l.length / 2 := by omega
      have hsl : l.length / 2 < l.length := by omega
      have hsr : l.length / 2 < r.length := by omega
      obtain ⟨hl0, hl0ne⟩ := upper_half hf.leading_l hsl
      obtain ⟨hr0, hr0ne⟩ := upper_half hf.leading_r hsr
      obtain ⟨hl1, hl1ne, _, hl1n⟩ := lower_half hlh (by omega) hsl.le
      obtain ⟨hr1, hr1ne, _, hr1n⟩ := lower_half hrh (by omega) hsr.le
      have hlsp := skipLeadingZero_le l (l.length / 2)
      have hrsp := skipLeadingZero_le r (l.length / 2)
      obtain ⟨hl2, hl2ne, hl2len, hl2n⟩ := halves_sum ha2
        (by rw [List.length_drop, List.length_take]; omega) hl0 hl1 hl1ne
      obtain ⟨hr2, hr2ne, hr2len, hr2n⟩ := halves_sum ha3
        (by rw [List.length_drop, List.length_take]; omega) hr0 hr1 hr1ne
      have hl2le := addsplit_valid_length_le new2 (l.drop (l.length / 2))
        (l.take (skipLeadingZero l (l.length / 2)))
      have hr2le := addsplit_valid_length_le new3 (r.drop (l.length / 2))
        (r.take (skipLeadingZero r (l.length / 2)))
      have h4max := (allocateBigint_spec ha4).1.trans new4.allocated_le
      rw [← hl2len, ← hr2len] at h4max
      rw [List.length_drop, List.length_take] at hl2le hr2le
      have h0 := ih (by rw [List.length_drop, List.length_drop]; omega)
        ⟨hl0, hr0, hl0ne, hr0ne, by rw [List.length_drop, List.length_drop]; omega⟩ new0 t0 ht0
      have h1 := ih (by rw [List.length_take, List.length_take]; omega)
        ⟨hl1, hr1, hl1ne, hr1ne, by rw [List.length_take, List.length_take]; omega⟩ new1 t1 ht1
      have h4 := ih (by omega) ⟨hl2, hr2, hl2ne, hr2ne, h4max⟩ new4 t4 ht4
      rw [hl2n, hr2n, hl1n, hr1n] at h4
      have he0 := splitExponent_le (l.drop (l.length / 2)) (r.drop (l.length / 2))
      rw [List.length_drop, List.length_drop] at he0
      obtain ⟨v, m, hcv, hbm, htotal, hlow⟩ := multsplit_parts hf hlh hrh hs hsl hsr
        (le_trans (by omega) (by norm_num : 2 * INT16_MAX ≤ UINT16_MAX)) h0 h1 h4 ha hb hc
      have hstep := multsplit_step hf hs hcv hbm htotal hlow
      have hz := productZeros_le l r
      have hfin : productZeros l r + e ≤ UINT16_MAX :=
        le_trans (by omega) (by norm_num : INT16_MAX + 1 ≤ UINT16_MAX)
      rw [hstep.exponent_eq, uint16_of_le hfin, add_comm e]
      exact hstep.shift hfin

/-! ## `mult_bigint` -/

/-- `xorsign_biginthelper(lsign, rsign) < 0`: the sign bit of the bitwise xor. -/
def xorsignBiginthelper (lsign rsign : ℤ) : Bool := decide (lsign < 0) != decide (rsign < 0)

/-- `mult_bigint`. -/
def multBigint (result lbig rbig : Bigint) : Except Errno Bigint :=
  let l := lbig.operand
  let r := rbig.operand
  let exponent := l.exponent + r.exponent
  if r.digits = [] ∨ l.digits = [] then .ok (clearBigint result)
  else if UINT16_MAX < exponent then .error .EOVERFLOW
  else
    (reserve result (l.digits.length + r.digits.length)).bind fun result =>
    (multsplitBiginthelper result l.digits r.digits).map fun result =>
      { result with
        signAndUsedDigits :=
          int16 (if xorsignBiginthelper lbig.signAndUsedDigits rbig.signAndUsedDigits
            then -result.signAndUsedDigits else result.signAndUsedDigits)
        exponent := uint16 (result.exponent + exponent : ℕ) }

theorem skipTrailingZero_of_head {ds : List UInt32} (h : ds.head? ≠ some 0) (exp : ℕ) :
    Operand.skipTrailingZero ds exp = ⟨ds, exp⟩ := by
  cases ds with
  | nil => rfl
  | cons d ds => rw [Operand.skipTrailingZero, if_neg (by simpa using h)]

theorem productZeros_comm (ldigits rdigits : List UInt32) :
    productZeros ldigits rdigits = productZeros rdigits ldigits := by
  rw [productZeros, productZeros, mul_comm]

theorem splitExponent_of_head {ldigits rdigits : List UInt32} (hl : ldigits.head? ≠ some 0)
    (hr : rdigits.head? ≠ some 0) :
    splitExponent ldigits rdigits =
      if 48 < ldigits.length ∧ 48 < rdigits.length then productZeros ldigits rdigits else 0 := by
  simp only [splitExponent, factors, skipTrailingZero_of_head hl, skipTrailingZero_of_head hr,
    shorter, longer, Nat.zero_add]
  have hcomm := productZeros_comm ldigits rdigits
  split_ifs <;> omega

/-- The operands whose product does not get the right exponent: both have more than 48 digits, so
that the product is split; the product of the lowest digits has a zero digit, so that the split
returns an exponent of `1`; and the exponents of the operands add up to `UINT16_MAX`. -/
def ExponentWraps (lbig rbig : Bigint) : Prop :=
  48 < lbig.operand.digits.length ∧ 48 < rbig.operand.digits.length ∧
    lbig.operand.exponent + rbig.operand.exponent = UINT16_MAX ∧
      base ∣ lowest lbig.operand.digits * lowest rbig.operand.digits

instance (lbig rbig : Bigint) : Decidable (ExponentWraps lbig rbig) :=
  inferInstanceAs (Decidable (_ ∧ _ ∧ _ ∧ _))

theorem exponentWraps_iff {lbig rbig : Bigint}
    (h : lbig.operand.exponent + rbig.operand.exponent ≤ UINT16_MAX) :
    ExponentWraps lbig rbig ↔
      UINT16_MAX < splitExponent lbig.operand.digits rbig.operand.digits +
        (lbig.operand.exponent + rbig.operand.exponent) := by
  rw [splitExponent_of_head lbig.operand_head rbig.operand_head, ExponentWraps, productZeros]
  split_ifs with h48 hz
  · exact ⟨fun hw => by omega, fun _ => ⟨h48.1, h48.2, by omega, hz⟩⟩
  · exact ⟨fun hw => absurd hw.2.2.2 hz, fun _ => by omega⟩
  · exact ⟨fun hw => absurd ⟨hw.1, hw.2.1⟩ h48, fun _ => by omega⟩

theorem uint16_le (z : ℤ) : uint16 z ≤ UINT16_MAX := by
  rw [uint16, UINT16_MAX]
  omega

theorem uint16_eq_iff (n : ℕ) : uint16 n = n ↔ n ≤ UINT16_MAX :=
  ⟨fun h => h ▸ uint16_le n, uint16_of_le⟩

theorem value_mul (lbig rbig : Bigint) :
    lbig.value * rbig.value =
      (if xorsignBiginthelper lbig.signAndUsedDigits rbig.signAndUsedDigits then -1 else 1) *
        (lbig.magnitude * rbig.magnitude) := by
  rw [value_eq lbig, value_eq rbig, xorsignBiginthelper, isnegative, isnegative]
  by_cases hl : lbig.signAndUsedDigits < 0 <;> by_cases hr : rbig.signAndUsedDigits < 0 <;>
    simp [hl, hr]

theorem multBigint_spec {result lbig rbig new : Bigint} (hl : lbig.WellFormed)
    (hr : rbig.WellFormed) (h : multBigint result lbig rbig = .ok new) :
    new.WellFormed ∧
      ((lbig.operand.digits = [] ∨ rbig.operand.digits = []) ∧ new.value = 0 ∧
          lbig.value * rbig.value = 0 ∨
        lbig.operand.exponent + rbig.operand.exponent ≤ UINT16_MAX ∧
          ∃ s v e, s ≠ 0 ∧ 0 < v ∧
            e = splitExponent lbig.operand.digits rbig.operand.digits +
              (lbig.operand.exponent + rbig.operand.exponent) ∧
            new.value = s * (v * base ^ uint16 (e : ℕ)) ∧
            lbig.value * rbig.value = s * (v * base ^ e)) := by
  rw [multBigint] at h
  by_cases h0 : rbig.operand.digits = [] ∨ lbig.operand.digits = []
  · rw [if_pos h0] at h
    cases h
    refine ⟨clearBigint_wellFormed result, .inl ⟨h0.symm, clearBigint_value result, ?_⟩⟩
    rcases h0 with h0 | h0
    · rw [value_eq rbig, magnitude_eq_zero (hr.operand_eq_nil.mp h0)]
      simp
    · rw [value_eq lbig, magnitude_eq_zero (hl.operand_eq_nil.mp h0)]
      simp
  · rw [if_neg h0] at h
    push Not at h0
    by_cases hover : UINT16_MAX < lbig.operand.exponent + rbig.operand.exponent
    · rw [if_pos hover] at h
      cases h
    rw [if_neg hover] at h
    obtain ⟨big, hres, h⟩ := bind_eq_ok h
    obtain ⟨prod, hprod, rfl⟩ := map_eq_ok h
    have hsplit : Splittable lbig.operand.digits rbig.operand.digits :=
      ⟨hl.operand_leading, hr.operand_leading, h0.2, h0.1, reserve_le hres⟩
    have hp := multsplitBiginthelper_isProduct _ le_rfl hsplit big prod hprod
    set e := splitExponent lbig.operand.digits rbig.operand.digits +
      (lbig.operand.exponent + rbig.operand.exponent) with he
    have hpn := hp.nrdigits_pos
    have hvne := hp.wellFormed.valid_ne_nil hpn.ne'
    have hwf : ({ prod with exponent := uint16 (e : ℕ) } : Bigint).WellFormed :=
      { nrdigits_le := hp.wellFormed.nrdigits_le
        stored := hp.wellFormed.stored
        exponent_le := uint16_le (e : ℕ)
        leading := hp.wellFormed.leading
        exponent_zero := fun hz => absurd hz hpn.ne' }
    have hsign : int16
        (if xorsignBiginthelper lbig.signAndUsedDigits rbig.signAndUsedDigits then
          -prod.signAndUsedDigits else prod.signAndUsedDigits) =
        if xorsignBiginthelper lbig.signAndUsedDigits rbig.signAndUsedDigits then
          -(prod.nrdigits : ℤ) else prod.nrdigits := by
      have hpos := hp.positive
      rw [hp.wellFormed.int16_natAbs (by rw [nrdigits]; split_ifs <;> omega), nrdigits]
      split_ifs <;> omega
    have hrep := represents_of_sign hwf _ hsign
    rw [hp.exponent_eq]
    refine ⟨hrep.1, .inr ⟨not_lt.mp hover, _, number prod.valid, e, ?_, ?_, rfl, hrep.2, ?_⟩⟩
    · split_ifs <;> norm_num
    · exact number_pos hp.wellFormed.leading hvne
    · have hmag := hp.magnitude_eq
      rw [magnitude, hp.exponent_eq] at hmag
      rw [value_mul, ← operand_value, ← operand_value, Operand.value, Operand.value, he, pow_add,
        pow_add, ← mul_assoc (number prod.valid), hmag]
      ring

theorem multBigint_value_eq_iff {result lbig rbig new : Bigint} (hl : lbig.WellFormed)
    (hr : rbig.WellFormed) (h : multBigint result lbig rbig = .ok new) :
    new.value = lbig.value * rbig.value ↔ ¬ExponentWraps lbig rbig := by
  obtain ⟨_, ⟨h0, hnew, hmul⟩ | ⟨hle, s, v, e, hs, hv, he, hnew, hmul⟩⟩ := multBigint_spec hl hr h
  · refine ⟨fun _ hw => ?_, fun _ => hnew.trans hmul.symm⟩
    obtain ⟨hw1, hw2, _⟩ := hw
    rcases h0 with h0 | h0
    · rw [h0, List.length_nil] at hw1
      omega
    · rw [h0, List.length_nil] at hw2
      omega
  · have hinj : v * base ^ uint16 (e : ℕ) = v * base ^ e ↔ uint16 (e : ℕ) = e := by
      rw [mul_right_inj' hv.ne']
      exact pow_right_inj₀ base_pos (by rw [base_eq]; norm_num)
    rw [hnew, hmul, mul_right_inj' hs, hinj, uint16_eq_iff, exponentWraps_iff hle, ← he, not_lt]

/-- **A product is exact unless its exponent wraps**: the addition
`(uint16_t) ((*result)->exponent + exponent)` at the end of `mult_bigint` comes after the test for
an overflow, and the split may have returned an exponent of its own. -/
theorem multBigint_exact_iff {result lbig rbig new : Bigint} (hl : lbig.WellFormed)
    (hr : rbig.WellFormed) (h : multBigint result lbig rbig = .ok new) :
    (new.WellFormed ∧ new.value = lbig.value * rbig.value) ↔ ¬ExponentWraps lbig rbig := by
  rw [multBigint_value_eq_iff hl hr h]
  exact and_iff_right (multBigint_spec hl hr h).1

/-- `(2 ^ 32 + 3) * (-2) * base ^ 7`. -/
theorem multBigint_exact_small :
    ((⟨4, -2, 7, [6, 2, 0], by decide⟩ : Bigint).WellFormed ∧
      (⟨4, -2, 7, [6, 2, 0], by decide⟩ : Bigint).value =
        (⟨4, 2, 3, [3, 1], by decide⟩ : Bigint).value *
          (⟨4, -2, 3, [0, 2], by decide⟩ : Bigint).value) ↔
      ¬ExponentWraps ⟨4, 2, 3, [3, 1], by decide⟩ ⟨4, -2, 3, [0, 2], by decide⟩ :=
  @multBigint_exact_iff ⟨4, 0, 0, [], by decide⟩ _ _ _ (by decide) (by decide)
    (by decide +kernel)

/-- The smallest factor that reaches the wrap: 49 digits, the lowest one `2 ^ 16`. -/
def wrapFactor (exponent : ℕ) : Bigint :=
  ⟨49, 49, exponent, 65536 :: List.replicate 47 0 ++ [1], by norm_num⟩

/-- A product of factors with the exponents `65535` and `0` is returned without its exponent. -/
theorem multBigint_not_exact :
    ¬∀ result lbig rbig new : Bigint, lbig.WellFormed → rbig.WellFormed →
      multBigint result lbig rbig = .ok new →
        new.WellFormed ∧ new.value = lbig.value * rbig.value := by
  intro hall
  have hok : ((multBigint ⟨98, 0, 0, [], by norm_num⟩ (wrapFactor 65535) (wrapFactor 0)).map
      fun new => new.exponent) = .ok 0 := by decide +kernel
  obtain ⟨new, hnew, _⟩ := map_eq_ok hok
  have hl : (wrapFactor 65535).WellFormed := by decide +kernel
  have hr : (wrapFactor 0).WellFormed := by decide +kernel
  have hwraps : ExponentWraps (wrapFactor 65535) (wrapFactor 0) := by decide +kernel
  exact (multBigint_value_eq_iff hl hr hnew).mp (hall _ _ _ new hl hr hnew).2 hwraps

end Bigint
end CKern
