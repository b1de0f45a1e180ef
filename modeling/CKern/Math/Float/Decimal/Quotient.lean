import Mathlib.Data.Rat.Floor
import CKern.Math.Float.Decimal.Div

/-!
# `math/float/decimal.c`: `div_decimal`

* `divDecimalhelper`: a divisor with at least two digits.
* `divi32Decimalhelper`: a divisor with one digit.
* `Truncates`: an object that stores the leading digits of a number.
* `divDecimal_truncates`: the result is the exact quotient, cut off after `result_size` digits.

The first digit that is computed may be zero; then it is not stored, and the exponent is one less.
-/

namespace CKern
namespace Decimal

open Positional

/-! ## The loop over the digits of the quotient -/

/-- `while (state.size)`: the digits are written from the most significant one down. -/
def divLoop (rdigits : List ℕ) : ℕ → DivState → List ℕ → DivState × List ℕ
  | 0, state, resultdigits => (state, resultdigits)
  | size + 1, state, resultdigits =>
    let state := divStep rdigits state
    divLoop rdigits size state (state.nextdigit :: resultdigits)

theorem divLoop_spec {rdigits : List ℕ} (hlead : DIGITSBASE ≤ leadingDigits rdigits) (n : ℕ)
    {state : DivState} {resultdigits : List ℕ} (hd : Digits resultdigits)
    (h : DivInv rdigits state) :
    DivInv rdigits (divLoop rdigits n state resultdigits).1 ∧
      (divLoop rdigits n state resultdigits).1.ldigits.length = state.ldigits.length ∧
      Digits (divLoop rdigits n state resultdigits).2 ∧
      (divLoop rdigits n state resultdigits).2.length = n + resultdigits.length ∧
      number (divLoop rdigits n state resultdigits).2 *
            (number rdigits * base ^ state.place rdigits) +
          (divLoop rdigits n state resultdigits).1.total =
        base ^ n * (number resultdigits * (number rdigits * base ^ state.place rdigits) +
          state.total) := by
  induction n generalizing state resultdigits with
  | zero =>
    refine ⟨h, rfl, hd, (Nat.zero_add _).symm, ?_⟩
    rw [divLoop, pow_zero, one_mul]
  | succ n ih =>
    obtain ⟨hinv, hlen, hdigit, htotal⟩ := divStep_spec h hlead
    have hplace : (divStep rdigits state).place rdigits = state.place rdigits := by
      rw [DivState.place, DivState.place, hlen]
    obtain ⟨h1, h2, h3, h4, h5⟩ := ih (digits_cons.mpr ⟨hdigit, hd⟩) hinv
    rw [divLoop]
    refine ⟨h1, h2.trans hlen, h3, ?_, ?_⟩
    · rw [h4, List.length_cons]
      omega
    · rw [hplace] at h5
      rw [h5, number_cons, pow_succ]
      linear_combination -base ^ n * htotal

/-! ## The first digit -/

/-- The state at the start: the two leading digits are in `dividend`, and their cells are zero. -/
def divStart (ldigits : List ℕ) : DivState where
  dividend := leadingDigits ldigits
  nextdigit := 0
  loffset := if ldigits.length - 2 = 0 then ldigits.length else ldigits.length - 2
  ldigits := (ldigits.set (ldigits.length - 1) 0).set (ldigits.length - 2) 0

/-- The first digit, computed from the two leading digits alone. -/
def divFirst (rdigits : List ℕ) (state : DivState) : DivState :=
  if leadingDigits rdigits ≤ state.dividend then
    submulDecimalhelper rdigits
      { state with
        dividend := state.dividend % leadingDigits rdigits
        nextdigit := state.dividend / leadingDigits rdigits }
  else state

theorem divStart_window {ldigits : List ℕ} (h : 2 ≤ ldigits.length) :
    (divStart ldigits).window = [0, 0] ++ ldigits.take (ldigits.length - 2) := by
  obtain ⟨n, hn⟩ : ∃ n, n = ldigits.length - 2 := ⟨_, rfl⟩
  have hlen : (ldigits.take n).length = n := by
    rw [List.length_take]
    omega
  have hdrop : (ldigits.drop n).length = 2 := by
    rw [List.length_drop]
    omega
  obtain ⟨x, y, hxy⟩ := List.length_eq_two.mp hdrop
  have hcells : (ldigits.set (ldigits.length - 1) 0).set n 0 = ldigits.take n ++ [0, 0] := by
    have hsplit : ldigits = ldigits.take n ++ [x, y] := by rw [← hxy, List.take_append_drop]
    rw [show ldigits.length - 1 = n + 1 by omega]
    nth_rewrite 1 [hsplit]
    rw [List.set_append_right _ _ (by omega), hlen, List.set_append_right _ _ (by omega), hlen,
      Nat.sub_self, Nat.add_sub_cancel_left]
    rfl
  rw [DivState.window, divStart]
  dsimp only
  rw [← hn, hcells]
  split_ifs with h0
  · have hnil : ldigits.take n = [] := by rw [h0, List.take_zero]
    rw [hnil, show ldigits.length = 2 by omega]
    rfl
  · have hrotate := List.rotate_append_length_eq (ldigits.take n) [0, 0]
    rwa [hlen] at hrotate

theorem divStart_length (ldigits : List ℕ) :
    (divStart ldigits).ldigits.length = ldigits.length := by
  rw [divStart, List.length_set, List.length_set]

theorem divStart_fits {ldigits rdigits : List ℕ} (h2 : 2 ≤ rdigits.length)
    (hle : rdigits.length ≤ ldigits.length) (hl : Digits ldigits) (hr : Digits rdigits) :
    (divStart ldigits).Fits rdigits := by
  have hoff : 1 ≤ (divStart ldigits).loffset ∧ (divStart ldigits).loffset ≤ ldigits.length := by
    rw [divStart]
    dsimp only
    split_ifs <;> omega
  refine ⟨h2, (divStart_length ldigits).symm ▸ hle, hoff.1,
    (divStart_length ldigits).symm ▸ hoff.2, fun d hd => ?_, hr⟩
  rcases List.mem_or_eq_of_mem_set hd with hd | rfl
  · rcases List.mem_or_eq_of_mem_set hd with hd | rfl
    · exact hl d hd
    · norm_num
  · norm_num

theorem divStart_total {ldigits : List ℕ} (h : 2 ≤ ldigits.length) :
    (divStart ldigits).total = base ^ 2 * number ldigits := by
  have hpow : base ^ ldigits.length = base ^ 2 * base ^ (ldigits.length - 2) := by
    rw [← pow_add]
    congr 1
    omega
  rw [DivState.total, divStart_window h, divStart_length, number_append,
    number_eq_leadingDigits h, hpow]
  change number [0, 0] + base ^ 2 * _ + base ^ 2 * base ^ (ldigits.length - 2) *
    ((leadingDigits ldigits : ℕ) : ℤ) = _
  simp only [number_cons, number_nil, Nat.cast_zero, mul_zero, add_zero]
  ring

theorem divFirst_digitStep {ldigits rdigits : List ℕ} (h2 : 2 ≤ rdigits.length)
    (hle : rdigits.length ≤ ldigits.length) (hl : Digits ldigits) (hr : Digits rdigits)
    (hlead : DIGITSBASE ≤ leadingDigits rdigits) :
    DigitStep rdigits (divStart ldigits)
      (number ((divStart ldigits).top rdigits) +
        base ^ (rdigits.length - 2) * leadingDigits ldigits)
      (divFirst rdigits (divStart ldigits)) := by
  have hfits := divStart_fits h2 hle hl hr
  have hdividend : (divStart ldigits).dividend = leadingDigits ldigits := rfl
  have hdigit : (divStart ldigits).nextdigit = 0 := rfl
  rw [divFirst, hdividend]
  split_ifs with hge
  · exact digitStep_div hfits hlead hge
      ((leadingDigits_lt hl).trans_le (Nat.mul_le_mul_left _ hlead))
  · have hstep := digitStep_zero hfits (not_le.mp hge)
    rw [← hdigit, ← hdividend] at hstep
    exact hstep

/-! ## `div_decimalhelper` -/

/-- `div_decimalhelper`. -/
def divDecimalhelper (result : Decimal) (isNegSign : Bool) (exponent : ℤ)
    (ldigits rdigits : List ℕ) (resultSize : ℕ) : Except Errno Decimal :=
  let state := divFirst rdigits (divStart ldigits)
  let exponent := if state.nextdigit = 0 then exponent - 1 else exponent
  if INT16_MAX < exponent.natAbs then .error .EOVERFLOW
  else
    let digits :=
      if state.nextdigit ≠ 0 then (divLoop rdigits (resultSize - 1) state [state.nextdigit]).2
      else (divLoop rdigits resultSize state []).2
    .ok (result.assign isNegSign resultSize exponent digits)

/-! ## `divi32_decimalhelper` -/

/-- One digit: `digit` is what is left of the digits before. -/
def divi32Digit (divisor digit nextdigit : ℕ) : ℕ × ℕ :=
  if digit ≠ 0 then
    let dividend := digit * DIGITSBASE + nextdigit
    (dividend / divisor, dividend % divisor)
  else if divisor ≤ nextdigit then (nextdigit / divisor, nextdigit % divisor)
  else (0, nextdigit)

/-- `while (size)`: behind the last digit of the dividend zeros are read. -/
def divi32Loop (ldigits : List ℕ) (divisor : ℕ) : ℕ → ℕ → ℕ → List ℕ → List ℕ
  | 0, _, _, resultdigits => resultdigits
  | size + 1, loffset, digit, resultdigits =>
    let nextdigit := if loffset ≠ 0 then ldigits.getD (loffset - 1) 0 else 0
    let p := divi32Digit divisor digit nextdigit
    divi32Loop ldigits divisor size (loffset - 1) p.2 (p.1 :: resultdigits)

/-- `divi32_decimalhelper`. -/
def divi32Decimalhelper (result : Decimal) (isNegSign : Bool) (exponent : ℤ) (ldigits : List ℕ)
    (divisor resultSize : ℕ) : Except Errno Decimal :=
  let digit := ldigits.getD (ldigits.length - 1) 0
  let exponent := if divisor ≤ digit then exponent else exponent - 1
  if INT16_MAX < exponent.natAbs then .error .EOVERFLOW
  else
    let digits :=
      if divisor ≤ digit then
        divi32Loop ldigits divisor (resultSize - 1) (ldigits.length - 1) (digit % divisor)
          [digit / divisor]
      else divi32Loop ldigits divisor resultSize (ldigits.length - 1) digit []
    .ok (result.assign isNegSign resultSize exponent digits)

/-! ## `div_decimal` -/

/-- `sizemax_decimal`. -/
def sizemaxDecimal : ℕ := 0x7f

/-- `div_decimal`. -/
def divDecimal (result ldec rdec : Decimal) (resultSize : ℕ) : Except Errno Decimal :=
  let isNegSign := ldec.isnegativeDecimal ^^ rdec.isnegativeDecimal
  let exponent := ldec.exponent - rdec.exponent + ldec.sizeDecimal - rdec.sizeDecimal
  let resultSize := if resultSize = 0 then 1 else resultSize
  let resultSize := if sizemaxDecimal < resultSize then sizemaxDecimal else resultSize
  let ldigits := ldec.operand.digits
  let rdigits := rdec.operand.digits
  if rdigits = [] then .error .EINVAL
  else if ldigits = [] then .ok (clearDecimal result)
  else
    let exponent := exponent - (resultSize - 1 : ℕ)
    (allocateDecimalhelper result resultSize).bind fun result =>
    if rdigits.length = 1 then
      divi32Decimalhelper result isNegSign exponent ldigits (rdigits.getD 0 0) resultSize
    else
      -- a copy of the dividend that is at least as long as the divisor
      let maxsize := max ldigits.length rdigits.length
      divDecimalhelper result isNegSign exponent
        (List.replicate (maxsize - ldigits.length) 0 ++ ldigits) rdigits resultSize

/-! ## The leading digits of a number -/

/-- An object that stores the `size` leading digits of the positive number `v`, negated if
`isNegSign`: what its last digit does not reach is cut off. -/
structure Truncates (dec : Decimal) (isNegSign : Bool) (size : ℕ) (v : ℚ) : Prop where
  wellFormed : dec.WellFormed
  isnegative_eq : dec.isnegativeDecimal = isNegSign
  size_eq : dec.sizeDecimal = size
  number_eq : number dec.valid = ⌊v / (base : ℚ) ^ dec.exponent⌋

theorem floor_of_division {q m t x : ℤ} (hm : 0 < m) (h : q * m + t = x) (h0 : 0 ≤ t)
    (hlt : t < m) : ⌊(x : ℚ) / m⌋ = q := by
  have hm' : (0 : ℚ) < m := Int.cast_pos.mpr hm
  rw [Int.floor_eq_iff, le_div_iff₀ hm', div_lt_iff₀ hm']
  constructor
  · exact_mod_cast (show q * m ≤ x by omega)
  · have : x < (q + 1) * m := by linarith
    exact_mod_cast this

/-- **How both divisions end**: the digits are a quotient, and the dividend reaches the place of
the leading digit. -/
theorem assign_truncates (dec : Decimal) (isNegSign : Bool) {size n : ℕ} {exponent : ℤ}
    {ds : List ℕ} {m t x : ℤ} {v : ℚ} (hpos : 0 < size) (hs : size ≤ 0x7f)
    (he : exponent.natAbs ≤ INT16_MAX) (hlen : ds.length = size) (hd : Digits ds) (hm : 0 < m)
    (h0 : 0 ≤ t) (ht : t < m) (h : number ds * m + t = base ^ n * x)
    (hlow : base ^ (size - 1) * m ≤ base ^ n * x)
    (hv : v / (base : ℚ) ^ exponent = ((base ^ n * x : ℤ) : ℚ) / m) :
    (dec.assign isNegSign size exponent ds).Truncates isNegSign size v := by
  have hlead : Leading ds := by
    refine leading_of_pow_le hd ?_
    have hlt : base ^ (size - 1) * m < (number ds + 1) * m := by linarith
    have := lt_of_mul_lt_mul_right hlt hm.le
    rw [hlen]
    omega
  have htake : ds.take size = ds := List.take_of_length_le hlen.le
  obtain ⟨hsize, hneg, hvalid⟩ := assign_spec dec isNegSign exponent hs hlen.ge
  have hge : -32768 ≤ exponent := by
    rw [INT16_MAX] at he
    omega
  have hle : exponent ≤ INT16_MAX := by omega
  have hexp : (dec.assign isNegSign size exponent ds).exponent = exponent := int16_of_mem hge hle
  refine ⟨(assign_represents dec isNegSign hs hlen.ge hge hle (by rwa [htake]) (by rwa [htake])
    hpos rfl).1, hneg, hsize, ?_⟩
  rw [hvalid, htake, hexp, hv, floor_of_division hm h h0 ht]

theorem div_zpow_sub_one (v : ℚ) (e : ℤ) :
    v / (base : ℚ) ^ (e - 1) = base * (v / (base : ℚ) ^ e) := by
  have hb := cast_base_ne
  have he := (base_zpow_pos e).ne'
  rw [zpow_sub_one₀ hb]
  field_simp

theorem divDecimalhelper_truncates {result new : Decimal} {isNegSign : Bool} {exponent : ℤ}
    {ldigits rdigits : List ℕ} {size : ℕ} {v : ℚ} (h2 : 2 ≤ rdigits.length)
    (hle : rdigits.length ≤ ldigits.length) (hld : Digits ldigits) (hl : Leading ldigits)
    (hrd : Digits rdigits) (hr : Leading rdigits) (hpos : 0 < size) (hs : size ≤ 0x7f)
    (hv : v / (base : ℚ) ^ exponent = ((base ^ (size - 1) * (base ^ 2 * number ldigits) : ℤ) : ℚ) /
      (number rdigits * base ^ (ldigits.length - (rdigits.length - 2)) : ℤ))
    (hnew : divDecimalhelper result isNegSign exponent ldigits rdigits size = .ok new) :
    new.Truncates isNegSign size v := by
  have hrne : rdigits ≠ [] := List.length_pos_iff.mp (by omega)
  have hlne : ldigits ≠ [] := List.length_pos_iff.mp (by omega)
  have hlead := base_le_leadingDigits hr hrne
  have hfits := divStart_fits h2 hle hld hrd
  have hstep := divFirst_digitStep h2 hle hld hrd hlead
  have htotal := hstep.total_eq hfits
  have hstart : number (divStart ldigits).window + base ^ (divStart ldigits).ldigits.length *
      (leadingDigits ldigits : ℤ) = base ^ 2 * number ldigits := divStart_total (by omega)
  have hplace : (divStart ldigits).place rdigits = ldigits.length - (rdigits.length - 2) := by
    rw [DivState.place, divStart_length]
  have hplace' : (divFirst rdigits (divStart ldigits)).place rdigits =
      ldigits.length - (rdigits.length - 2) := by
    rw [DivState.place, hstep.length_eq, divStart_length]
  rw [hstart, hplace] at htotal
  have hinv : DivInv rdigits (divFirst rdigits (divStart ldigits)) := ⟨hstep.fits, hstep.lt⟩
  have hdigit := hstep.digit_lt
  have hnonneg := (divFirst rdigits (divStart ldigits)).total_nonneg
  have hm : 0 < number rdigits * base ^ (ldigits.length - (rdigits.length - 2)) :=
    mul_pos (number_pos hr hrne) (base_pow_pos _)
  rw [divDecimalhelper] at hnew
  dsimp only at hnew
  generalize divFirst rdigits (divStart ldigits) = state at *
  have hsize : base ^ size = base * base ^ (size - 1) := by
    rw [← pow_succ', Nat.sub_add_cancel hpos]
  by_cases hq : state.nextdigit = 0
  · -- the first digit is not stored
    rw [if_pos hq, if_neg (not_not.mpr hq)] at hnew
    rw [hq, Nat.cast_zero, zero_mul, zero_add] at htotal
    split_ifs at hnew with hover
    cases hnew
    obtain ⟨h3, h4, h5, h6, h7⟩ := divLoop_spec hlead size Digits.nil hinv
    rw [hplace', number_nil, zero_mul, zero_add, ← htotal] at h7
    have hlt := h3.total_lt
    rw [DivState.place, h4, ← DivState.place, hplace', mul_comm] at hlt
    refine assign_truncates result isNegSign hpos hs (not_lt.mp hover) h6 h5 hm
      (DivState.total_nonneg _) hlt h7 ?_ ?_
    · have hrlt := number_lt hrd
      have hlow := pow_le_number hl hlne
      have hb := base_pos.le
      have hpow : base ^ rdigits.length * base ^ (ldigits.length - (rdigits.length - 2)) =
          base * (base ^ 2 * base ^ (ldigits.length - 1)) := by
        rw [← pow_add, ← pow_add, ← pow_succ']
        congr 1
        omega
      rw [hsize, mul_comm base, mul_assoc]
      refine mul_le_mul_of_nonneg_left ?_ (base_pow_pos _).le
      calc number rdigits * base ^ (ldigits.length - (rdigits.length - 2))
          ≤ base ^ rdigits.length * base ^ (ldigits.length - (rdigits.length - 2)) :=
            mul_le_mul_of_nonneg_right hrlt.le (base_pow_pos _).le
        _ = base * (base ^ 2 * base ^ (ldigits.length - 1)) := hpow
        _ ≤ base * (base ^ 2 * number ldigits) := by gcongr
    · rw [div_zpow_sub_one, hv, hsize]
      push_cast
      ring
  · rw [if_neg hq, if_pos hq] at hnew
    split_ifs at hnew with hover
    cases hnew
    obtain ⟨h3, h4, h5, h6, h7⟩ := divLoop_spec hlead (size - 1)
      (digits_cons.mpr ⟨hdigit, Digits.nil⟩) hinv
    rw [hplace', number_cons, number_nil, mul_zero, add_zero, ← htotal] at h7
    have hlt := h3.total_lt
    rw [DivState.place, h4, ← DivState.place, hplace', mul_comm] at hlt
    refine assign_truncates result isNegSign hpos hs (not_lt.mp hover) ?_ h5 hm
      (DivState.total_nonneg _) hlt h7 ?_ hv
    · rw [h6, List.length_singleton]
      omega
    · refine mul_le_mul_of_nonneg_left ?_ (base_pow_pos _).le
      have h1 := mul_le_mul_of_nonneg_right (show (1 : ℤ) ≤ state.nextdigit by omega) hm.le
      linarith

/-! ## A divisor with one digit -/

theorem divi32Digit_spec {divisor digit nextdigit : ℕ} (h : digit < divisor)
    (hn : nextdigit < DIGITSBASE) :
    (divi32Digit divisor digit nextdigit).1 < DIGITSBASE ∧
      (divi32Digit divisor digit nextdigit).2 < divisor ∧
      digit * DIGITSBASE + nextdigit =
        (divi32Digit divisor digit nextdigit).1 * divisor +
          (divi32Digit divisor digit nextdigit).2 := by
  have hpos : 0 < divisor := by omega
  have hlt : digit * DIGITSBASE + nextdigit < DIGITSBASE * divisor := by
    have := Nat.mul_le_mul_right DIGITSBASE (show digit + 1 ≤ divisor by omega)
    linarith
  unfold divi32Digit
  split_ifs with h0 hle
  · exact ⟨(Nat.div_lt_iff_lt_mul hpos).mpr hlt, Nat.mod_lt _ hpos, (Nat.div_add_mod' _ _).symm⟩
  · rw [not_not] at h0
    rw [h0, zero_mul, zero_add]
    exact ⟨(Nat.div_le_self _ _).trans_lt hn, Nat.mod_lt _ hpos, (Nat.div_add_mod' _ _).symm⟩
  · rw [not_not] at h0
    rw [h0, zero_mul, zero_add]
    exact ⟨by norm_num, not_le.mp hle, by rw [zero_mul, zero_add]⟩

theorem divi32Loop_spec {ldigits : List ℕ} {divisor : ℕ} (hl : Digits ldigits) (n : ℕ)
    {loffset digit : ℕ} {resultdigits : List ℕ} (hd : Digits resultdigits)
    (hle : loffset ≤ ldigits.length) (h : digit < divisor) :
    Digits (divi32Loop ldigits divisor n loffset digit resultdigits) ∧
      (divi32Loop ldigits divisor n loffset digit resultdigits).length =
        n + resultdigits.length ∧
      ∃ rest : ℤ, 0 ≤ rest ∧ rest < divisor * base ^ loffset ∧
        number (divi32Loop ldigits divisor n loffset digit resultdigits) *
            (divisor * base ^ loffset) + rest =
          base ^ n * (number resultdigits * (divisor * base ^ loffset) +
            (number (ldigits.take loffset) + base ^ loffset * digit)) := by
  induction n generalizing loffset digit resultdigits with
  | zero =>
    refine ⟨hd, (Nat.zero_add _).symm, number (ldigits.take loffset) + base ^ loffset * digit, ?_,
      ?_, ?_⟩
    · exact add_nonneg (number_nonneg _) (mul_nonneg (base_pow_pos _).le (Int.natCast_nonneg _))
    · have hlow := number_lt (hl.take loffset)
      rw [List.length_take, min_eq_left hle] at hlow
      have hmul := mul_le_mul_of_nonneg_left (show (digit : ℤ) + 1 ≤ divisor by omega)
        (base_pow_pos loffset).le
      linarith
    · rw [divi32Loop, pow_zero, one_mul]
  | succ n ih =>
    rw [divi32Loop]
    cases loffset with
    | zero =>
      -- the digits are used up, and a zero is read
      rw [if_neg (show ¬(0 ≠ 0) from fun h0 => h0 rfl), Nat.zero_sub]
      obtain ⟨h1, h2, h3⟩ := divi32Digit_spec h (show 0 < DIGITSBASE by norm_num)
      rw [Nat.add_zero] at h3
      obtain ⟨h4, h5, rest, h6, h7, h8⟩ := ih (digits_cons.mpr ⟨h1, hd⟩) (Nat.zero_le _) h2
      refine ⟨h4, h5.trans (by rw [List.length_cons]; omega), rest, h6, h7, ?_⟩
      have h3' : (digit : ℤ) * base = (divi32Digit divisor digit 0).1 * divisor +
          (divi32Digit divisor digit 0).2 := by
        rw [← cast_DIGITSBASE]
        exact_mod_cast h3
      rw [number_cons, List.take_zero, number_nil, pow_zero] at h8
      rw [List.take_zero, number_nil, pow_zero, pow_succ]
      linear_combination h8 - base ^ n * h3'
    | succ loffset =>
      rw [if_pos (Nat.succ_ne_zero loffset), Nat.add_sub_cancel]
      obtain ⟨h1, h2, h3⟩ := divi32Digit_spec h (hl.getD_lt loffset)
      have hle' : loffset ≤ ldigits.length := by omega
      obtain ⟨h4, h5, rest, h6, h7, h8⟩ := ih (digits_cons.mpr ⟨h1, hd⟩) hle' h2
      have h3' : (digit : ℤ) * base + (ldigits.getD loffset 0 : ℕ) =
          (divi32Digit divisor digit (ldigits.getD loffset 0)).1 * divisor +
            (divi32Digit divisor digit (ldigits.getD loffset 0)).2 := by
        rw [← cast_DIGITSBASE]
        exact_mod_cast h3
      have htake := number_take_succ (show loffset < ldigits.length by omega)
      refine ⟨h4, by rw [h5, List.length_cons]; omega, base * rest, mul_nonneg base_pos.le h6, ?_,
        ?_⟩
      · rw [pow_succ]
        have := mul_lt_mul_of_pos_left h7 base_pos
        linarith
      · rw [number_cons] at h8
        rw [htake, pow_succ, pow_succ]
        linear_combination base * h8 - base ^ n * base * base ^ loffset * h3'

theorem divi32Decimalhelper_truncates {result new : Decimal} {isNegSign : Bool} {exponent : ℤ}
    {ldigits : List ℕ} {divisor size : ℕ} {v : ℚ} (hld : Digits ldigits) (hl : Leading ldigits)
    (hlne : ldigits ≠ []) (hd0 : 0 < divisor) (hdB : divisor < DIGITSBASE) (hpos : 0 < size)
    (hs : size ≤ 0x7f)
    (hv : v / (base : ℚ) ^ exponent = ((base ^ (size - 1) * number ldigits : ℤ) : ℚ) /
      (divisor * base ^ (ldigits.length - 1) : ℤ))
    (hnew : divi32Decimalhelper result isNegSign exponent ldigits divisor size = .ok new) :
    new.Truncates isNegSign size v := by
  have hlen := List.length_pos_iff.mpr hlne
  have hm : (0 : ℤ) < divisor * base ^ (ldigits.length - 1) :=
    mul_pos (by exact_mod_cast hd0) (base_pow_pos _)
  have htop := hld.getD_lt (ldigits.length - 1)
  have htake := number_take_succ (show ldigits.length - 1 < ldigits.length by omega)
  rw [Nat.sub_add_cancel hlen, List.take_length] at htake
  have hlow0 := number_nonneg (ldigits.take (ldigits.length - 1))
  rw [divi32Decimalhelper] at hnew
  dsimp only at hnew
  generalize ldigits.getD (ldigits.length - 1) 0 = top at *
  by_cases hle : divisor ≤ top
  · rw [if_pos hle, if_pos hle] at hnew
    split_ifs at hnew with hover
    cases hnew
    have hquot : top / divisor < DIGITSBASE := (Nat.div_le_self _ _).trans_lt htop
    obtain ⟨h1, h2, rest, h3, h4, h5⟩ := divi32Loop_spec hld (size - 1)
      (digits_cons.mpr ⟨hquot, Digits.nil⟩) (Nat.sub_le ldigits.length 1) (Nat.mod_lt top hd0)
    have hdm : (top : ℤ) = (top / divisor : ℕ) * divisor + (top % divisor : ℕ) := by
      exact_mod_cast (Nat.div_add_mod' top divisor).symm
    have hx : number [top / divisor] * (divisor * base ^ (ldigits.length - 1)) +
        (number (ldigits.take (ldigits.length - 1)) +
          base ^ (ldigits.length - 1) * (top % divisor : ℕ)) = number ldigits := by
      rw [htake, number_cons, number_nil, mul_zero, add_zero]
      linear_combination -base ^ (ldigits.length - 1) * hdm
    rw [hx] at h5
    refine assign_truncates result isNegSign hpos hs (not_lt.mp hover) ?_ h1 hm h3 h4 h5 ?_ hv
    · rw [h2, List.length_singleton]
      omega
    · refine mul_le_mul_of_nonneg_left ?_ (base_pow_pos _).le
      have := mul_le_mul_of_nonneg_right (show (divisor : ℤ) ≤ top by exact_mod_cast hle)
        (base_pow_pos (ldigits.length - 1)).le
      rw [htake]
      linarith
  · -- the leading digit is taken together with the next one
    rw [if_neg hle, if_neg hle] at hnew
    split_ifs at hnew with hover
    cases hnew
    have hsize : base ^ size = base * base ^ (size - 1) := by
      rw [← pow_succ', Nat.sub_add_cancel hpos]
    obtain ⟨h1, h2, rest, h3, h4, h5⟩ := divi32Loop_spec hld size Digits.nil
      (Nat.sub_le ldigits.length 1) (not_le.mp hle)
    rw [number_nil, zero_mul, zero_add, ← htake] at h5
    refine assign_truncates result isNegSign hpos hs (not_lt.mp hover) h2 h1 hm h3 h4 h5 ?_ ?_
    · have hdB' : (divisor : ℤ) ≤ base := by
        rw [← cast_DIGITSBASE]
        exact_mod_cast hdB.le
      rw [hsize, mul_comm base, mul_assoc]
      refine mul_le_mul_of_nonneg_left ?_ (base_pow_pos _).le
      exact mul_le_mul hdB' (pow_le_number hl hlne) (base_pow_pos _).le base_pos.le
    · rw [div_zpow_sub_one, hv, hsize]
      push_cast
      ring

/-! ## The quotient -/

theorem scale_eq {n r : ℚ} {el er e : ℤ} {s p : ℕ} (hr : r ≠ 0) (h : el + p = er + e + s) :
    n * (base : ℚ) ^ el / (r * (base : ℚ) ^ er) / (base : ℚ) ^ e =
      (base : ℚ) ^ s * n / (r * (base : ℚ) ^ p) := by
  have hpow : (base : ℚ) ^ el * (base : ℚ) ^ p =
      (base : ℚ) ^ er * (base : ℚ) ^ e * (base : ℚ) ^ s := by
    rw [← zpow_natCast, ← zpow_natCast, ← zpow_add₀ cast_base_ne, ← zpow_add₀ cast_base_ne,
      ← zpow_add₀ cast_base_ne, h]
  have her := (base_zpow_pos er).ne'
  have he := (base_zpow_pos e).ne'
  have hp := (pow_pos cast_base_pos p).ne'
  rw [div_div, div_eq_div_iff (mul_ne_zero (mul_ne_zero hr her) he) (mul_ne_zero hr hp)]
  linear_combination n * r * hpow

/-- **Division** by a number that is not zero: if there is a result, then it is the quotient, cut off
after its `result_size` leading digits; the quotient of zero is zero. -/
theorem divDecimal_truncates {result new ldec rdec : Decimal} {resultSize : ℕ}
    (hl : ldec.WellFormed) (hr : rdec.WellFormed) (hr0 : rdec.sizeDecimal ≠ 0)
    (h1 : 1 ≤ resultSize) (h2 : resultSize ≤ 0x7f)
    (hnew : divDecimal result ldec rdec resultSize = .ok new) :
    (ldec.sizeDecimal = 0 → new.WellFormed ∧ new.sizeDecimal = 0 ∧ new.value = 0) ∧
      (ldec.sizeDecimal ≠ 0 →
        new.Truncates (ldec.isnegativeDecimal ^^ rdec.isnegativeDecimal) resultSize
          (ldec.magnitude / rdec.magnitude)) := by
  have hrne : rdec.operand.digits ≠ [] := fun hnil => hr0 (hr.operand_eq_nil.mp hnil)
  have hsize : (if sizemaxDecimal < if resultSize = 0 then 1 else resultSize then sizemaxDecimal
      else if resultSize = 0 then 1 else resultSize) = resultSize := by
    rw [if_neg (show resultSize ≠ 0 by omega), sizemaxDecimal, if_neg (by omega)]
  rw [divDecimal] at hnew
  dsimp only at hnew
  rw [hsize, if_neg hrne] at hnew
  constructor
  · intro hl0
    rw [if_pos (hl.operand_eq_nil.mpr hl0)] at hnew
    cases hnew
    obtain ⟨hwf, hval⟩ := clearDecimal_represents result false
    have hzero : result.clearDecimal.sizeDecimal = 0 := by
      change ((0 : UInt8) &&& 0x7f).toNat = 0
      decide
    exact ⟨hwf, hzero, hval.trans (mul_zero _)⟩
  · intro hl0
    have hlne : ldec.operand.digits ≠ [] := fun hnil => hl0 (hl.operand_eq_nil.mp hnil)
    rw [if_neg hlne] at hnew
    obtain ⟨dec, -, hnew⟩ := Bigint.bind_eq_ok hnew
    have hlo := hl.operand_order
    have hro := hr.operand_order
    have hllen := List.length_pos_iff.mpr hlne
    have hrlen := List.length_pos_iff.mpr hrne
    have hRne : ((number rdec.operand.digits : ℤ) : ℚ) ≠ 0 := by
      exact_mod_cast (number_pos hr.operand_leading hrne).ne'
    rw [Operand.order] at hlo hro
    rw [← operand_value ldec, ← operand_value rdec, Operand.value, Operand.value]
    split_ifs at hnew with hone
    · obtain ⟨d, hd⟩ := List.length_eq_one_iff.mp hone
      have hdig := hr.operand_digits
      have hlead := hr.operand_leading
      rw [hd] at hnew hdig hlead hRne ⊢
      have hd0 : 0 < d := Nat.pos_of_ne_zero fun h0 => hlead (by rw [h0]; rfl)
      refine divi32Decimalhelper_truncates hl.operand_digits hl.operand_leading hlne hd0
        (hdig d (List.mem_singleton_self d)) h1 h2 ?_ hnew
      rw [scale_eq (s := resultSize - 1) (p := ldec.operand.digits.length - 1) hRne (by omega),
        number_cons, number_nil, mul_zero, add_zero]
      push_cast
      rfl
    · have hmax := le_max_left ldec.operand.digits.length rdec.operand.digits.length
      have hmax' := le_max_right ldec.operand.digits.length rdec.operand.digits.length
      have hlen : (List.replicate (max ldec.operand.digits.length rdec.operand.digits.length -
          ldec.operand.digits.length) 0 ++ ldec.operand.digits).length =
            max ldec.operand.digits.length rdec.operand.digits.length := by
        rw [List.length_append, List.length_replicate]
        omega
      refine divDecimalhelper_truncates (by omega) (by omega)
        (digits_append.mpr ⟨digits_replicate (by norm_num) _, hl.operand_digits⟩)
        (Leading.append_left hl.operand_leading hlne) hr.operand_digits hr.operand_leading h1 h2
        ?_ hnew
      rw [hlen, number_append, number_replicate_zero, List.length_replicate, zero_add,
        scale_eq (s := resultSize - 1 + 2 + (max ldec.operand.digits.length
          rdec.operand.digits.length - ldec.operand.digits.length))
          (p := max ldec.operand.digits.length rdec.operand.digits.length -
            (rdec.operand.digits.length - 2)) hRne (by omega)]
      push_cast
      ring

/-- `2 + 10⁹ + 5 · 10¹⁸ + 10²⁷` divided by `-(3 + 7 · 10¹⁸)`, cut off after three digits. -/
theorem divDecimal_truncates_three :
    (⟨4, 0x83, -2, [510204081, 571428571, 142857143], by decide⟩ : Decimal).Truncates true 3
      ((⟨4, 4, 0, [2, 1, 5, 1], by decide⟩ : Decimal).magnitude /
        (⟨3, 0x83, 0, [3, 0, 7], by decide⟩ : Decimal).magnitude) := by
  have h := (@divDecimal_truncates ⟨4, 0, 0, [], by decide⟩
    ⟨4, 0x83, -2, [510204081, 571428571, 142857143], by decide⟩ ⟨4, 4, 0, [2, 1, 5, 1], by decide⟩
    ⟨3, 0x83, 0, [3, 0, 7], by decide⟩ 3 (by decide +kernel) (by decide +kernel)
    (by decide +kernel) (by decide) (by decide) (by decide +kernel)).2 (by decide +kernel)
  have hsign : ((⟨4, 4, 0, [2, 1, 5, 1], by decide⟩ : Decimal).isnegativeDecimal ^^
      (⟨3, 0x83, 0, [3, 0, 7], by decide⟩ : Decimal).isnegativeDecimal) = true := by
    decide +kernel
  rwa [hsign] at h

end Decimal
end CKern
