import CKern.Math.Float.Decimal.Quotient

/-!
# `math/float/decimal.c`: division by a small integer

* `divi32Decimal`: `divi32_decimal` with the reads of its helper.  A digit that is not a valid one
  of the dividend is `none`.
* `Operand.eq_of_value`: an operand without trailing zeros is given by its value.
* `divi32Decimal_agrees_iff`: the result is that of `div_decimal`, exactly if the dividend is not
  zero.
-/

namespace CKern
namespace Decimal

/-! ## The code -/

/-- `while (size)` of `divi32_decimalhelper`. -/
def divi32ReadLoop (ldigits : List ℕ) (divisor : ℕ) :
    ℕ → ℕ → ℕ → List ℕ → Option (List ℕ)
  | 0, _, _, resultdigits => some resultdigits
  | size + 1, loffset, digit, resultdigits =>
    (if loffset ≠ 0 then ldigits[loffset - 1]? else some 0).bind fun nextdigit =>
      let p := divi32Digit divisor digit nextdigit
      divi32ReadLoop ldigits divisor size (loffset - 1) p.2 (p.1 :: resultdigits)

/-- `divi32_decimalhelper`.  The offset `--loffset` of the leading digit is a `uint8_t`. -/
def divi32Read (result : Decimal) (isNegSign : Bool) (exponent : ℤ) (ldigits : List ℕ)
    (divisor resultSize : ℕ) : Option (Except Errno Decimal) := do
  let loffset := (ldigits.length + 255) % 256
  let digit ← ldigits[loffset]?
  let exponent := if divisor ≤ digit then exponent else exponent - 1
  if INT16_MAX < exponent.natAbs then return .error .EOVERFLOW
  else
    let digits ←
      if divisor ≤ digit then
        divi32ReadLoop ldigits divisor (resultSize - 1) loffset (digit % divisor) [digit / divisor]
      else divi32ReadLoop ldigits divisor resultSize loffset digit []
    return .ok (result.assign isNegSign resultSize exponent digits)

/-- `divi32_decimal`. -/
def divi32Decimal (result ldec : Decimal) (rdivisor : ℤ) (resultSize : ℕ) :
    Option (Except Errno Decimal) :=
  let divisor := rdivisor.natAbs
  if divisor ≠ 0 ∧ divisor ≤ DIGITSBASE then
    let resultSize := if resultSize = 0 then 1 else resultSize
    let resultSize := if sizemaxDecimal < resultSize then sizemaxDecimal else resultSize
    let isNegSign := ldec.isnegativeDecimal ^^ decide (rdivisor < 0)
    let exponent := ldec.exponent + ldec.sizeDecimal - 1
    let ldigits := ldec.operand.digits
    let exponent := exponent - (resultSize - 1 : ℕ)
    let exponent := if divisor = DIGITSBASE then exponent - 1 else exponent
    let divisor := if divisor = DIGITSBASE then 1 else divisor
    match allocateDecimalhelper result resultSize with
    | .error err => some (.error err)
    | .ok result => divi32Read result isNegSign exponent ldigits divisor resultSize
  else some (.error .EINVAL)

/-- The same error code, or results of the same value, and all digits that were read are valid. -/
def Agrees : Option (Except Errno Decimal) → Except Errno Decimal → Prop
  | some (.ok x), .ok y => x.value = y.value
  | some (.error err), .error err' => err = err'
  | _, _ => False

theorem agrees_self (x : Except Errno Decimal) : Agrees (some x) x := by cases x <;> rfl

/-! ## The reads -/

variable {ldigits resultdigits xs ys : List ℕ} {divisor : ℕ}

theorem getElem?_eq_getD {i : ℕ} (h : i < ldigits.length) :
    ldigits[i]? = some (ldigits.getD i 0) := by
  rw [List.getElem?_eq_getElem h, List.getD_eq_getElem _ _ h]

theorem divi32ReadLoop_eq (n : ℕ) {loffset digit : ℕ} (h : loffset ≤ ldigits.length) :
    divi32ReadLoop ldigits divisor n loffset digit resultdigits =
      some (divi32Loop ldigits divisor n loffset digit resultdigits) := by
  induction n generalizing loffset digit resultdigits with
  | zero => rfl
  | succ n ih =>
    have hread : (if loffset ≠ 0 then ldigits[loffset - 1]? else some 0) =
        some (if loffset ≠ 0 then ldigits.getD (loffset - 1) 0 else 0) := by
      split_ifs with h0
      · rw [getElem?_eq_getD (by omega)]
      · rfl
    rw [divi32ReadLoop, hread, Option.bind_some, ih (by omega), divi32Loop]

theorem divi32Read_eq {result : Decimal} {isNegSign : Bool} {exponent : ℤ} {resultSize : ℕ}
    (hne : ldigits ≠ []) (hlen : ldigits.length ≤ 255) :
    divi32Read result isNegSign exponent ldigits divisor resultSize =
      some (divi32Decimalhelper result isNegSign exponent ldigits divisor resultSize) := by
  have hpos := List.length_pos_iff.mpr hne
  have hoff : (ldigits.length + 255) % 256 = ldigits.length - 1 := by omega
  rw [divi32Read, divi32Decimalhelper]
  dsimp only
  rw [hoff, getElem?_eq_getD (Nat.sub_one_lt hpos.ne'), Option.bind_eq_bind, Option.bind_some,
    divi32ReadLoop_eq _ (Nat.sub_le _ _), divi32ReadLoop_eq _ (Nat.sub_le _ _)]
  split_ifs <;> rfl

theorem divi32Read_nil {result : Decimal} {isNegSign : Bool} {exponent : ℤ} {resultSize : ℕ} :
    divi32Read result isNegSign exponent [] divisor resultSize = none := rfl

/-! ## The digits of a value -/

theorem digits_unique (hx : Digits xs) (hy : Digits ys) (hlx : Leading xs) (hly : Leading ys)
    (h : number xs = number ys) : xs = ys := by
  induction xs generalizing ys with
  | nil =>
    by_contra hne
    exact (number_pos hly (Ne.symm hne)).ne h
  | cons x xs ih =>
    rcases ys with _ | ⟨y, ys⟩
    · exact absurd h (number_pos hlx (List.cons_ne_nil x xs)).ne'
    rw [digits_cons] at hx hy
    rw [number_cons, number_cons, base_eq] at h
    have hx1 : x < 1000000000 := hx.1
    have hy1 : y < 1000000000 := hy.1
    obtain rfl : x = y := by omega
    rw [ih hx.2 hy.2 (hlx.of_suffix (List.suffix_cons x xs)) (hly.of_suffix (List.suffix_cons x ys))
      (by omega)]

theorem number_ne_mul {k : ℤ} (hx : Digits xs) (hne : xs ≠ []) (hhead : xs.head? ≠ some 0) :
    number xs ≠ base * k := by
  rcases xs with _ | ⟨x, xs⟩
  · exact absurd rfl hne
  have hx0 : x ≠ 0 := fun h0 => hhead (by rw [h0, List.head?_cons])
  have hlt : x < 1000000000 := (digits_cons.mp hx).1
  rw [number_cons, base_eq]
  omega

/-- The operands without zeros at their ends. -/
structure Operand.Stripped (x : Operand) : Prop where
  digits : Digits x.digits
  leading : Leading x.digits
  head : x.digits.head? ≠ some 0
  ne_nil : x.digits ≠ []

theorem Operand.exponent_le_of_value {x y : Operand} (hx : x.Stripped) (h : x.value = y.value) :
    y.exponent ≤ x.exponent := by
  by_contra hlt
  obtain ⟨k, hk⟩ : ∃ k : ℕ, y.exponent = x.exponent + 1 + k :=
    ⟨(y.exponent - x.exponent - 1).toNat, by omega⟩
  rw [value, value, hk, zpow_add₀ cast_base_ne, zpow_add_one₀ cast_base_ne, zpow_natCast] at h
  have hnum : (number x.digits : ℚ) = (base * (number y.digits * base ^ k) : ℤ) := by
    push_cast
    exact mul_right_cancel₀ (base_zpow_pos x.exponent).ne' (by linear_combination h)
  exact number_ne_mul hx.digits hx.ne_nil hx.head (by exact_mod_cast hnum)

/-- **An operand without zeros at its ends is given by its value.** -/
theorem Operand.eq_of_value {x y : Operand} (hx : x.Stripped) (hy : y.Stripped)
    (h : x.value = y.value) : x = y := by
  have hexp : x.exponent = y.exponent :=
    le_antisymm (exponent_le_of_value hy h.symm) (exponent_le_of_value hx h)
  rw [value, value, hexp] at h
  have hnum := mul_right_cancel₀ (base_zpow_pos y.exponent).ne' h
  have hdigits := digits_unique hx.digits hy.digits hx.leading hy.leading (by exact_mod_cast hnum)
  rcases x with ⟨_, _⟩
  rcases y with ⟨_, _⟩
  exact Operand.mk.injEq .. ▸ ⟨hdigits, hexp⟩

theorem WellFormed.operand_stripped {dec : Decimal} (h : dec.WellFormed)
    (h0 : dec.sizeDecimal ≠ 0) : dec.operand.Stripped where
  digits := h.operand_digits
  leading := h.operand_leading
  head := dec.operand_head
  ne_nil := fun hnil => h0 (h.operand_eq_nil.mp hnil)

/-! ## `divi32_decimal` and `div_decimal` -/

variable {result ldec rdec : Decimal} {d : ℤ}

/-- The digits of a divisor from 1 to `10⁹`, and the exponent of the first of them. -/
def divisorOperand (n : ℕ) : Operand := if n = DIGITSBASE then ⟨[1], 1⟩ else ⟨[n], 0⟩

theorem divisorOperand_stripped {n : ℕ} (h1 : 1 ≤ n) (h2 : n ≤ DIGITSBASE) :
    (divisorOperand n).Stripped ∧ (divisorOperand n).value = n := by
  rw [divisorOperand]
  split_ifs with hn
  · refine ⟨⟨by decide, by decide, by decide, by decide⟩, ?_⟩
    rw [Operand.value, hn, number_cons, number_nil, base]
    norm_num
  · have hn0 : n ≠ 0 := by omega
    refine ⟨⟨digits_cons.mpr ⟨lt_of_le_of_ne h2 hn, Digits.nil⟩, ?_, ?_, List.cons_ne_nil _ _⟩, ?_⟩
    · exact fun h => hn0 (Option.some.inj h)
    · exact fun h => hn0 (Option.some.inj h)
    · rw [Operand.value, number_cons, number_nil, mul_zero, add_zero, zpow_zero, mul_one,
        Int.cast_natCast]

theorem operand_of_value (hr : rdec.WellFormed) (hd : rdec.value = d) (h1 : 1 ≤ d.natAbs)
    (h2 : d.natAbs ≤ DIGITSBASE) :
    rdec.operand = divisorOperand d.natAbs ∧ rdec.isnegativeDecimal = decide (d < 0) := by
  have h0 : rdec.sizeDecimal ≠ 0 := by
    intro hsize
    rw [value, magnitude_eq_zero hsize, mul_zero] at hd
    have hzero : d = 0 := by exact_mod_cast hd.symm
    omega
  have hpos := hr.magnitude_pos h0
  have hsign : rdec.isnegativeDecimal = decide (d < 0) ∧ rdec.magnitude = d.natAbs := by
    rw [value] at hd
    by_cases hneg : rdec.isnegativeDecimal = true
    · rw [if_pos hneg, neg_one_mul] at hd
      have hlt : d < 0 := by
        have hcast : ((d : ℤ) : ℚ) < 0 := by rw [← hd]; exact neg_neg_of_pos hpos
        exact_mod_cast hcast
      refine ⟨by rw [hneg, decide_eq_true hlt], ?_⟩
      rw [Nat.cast_natAbs, abs_of_neg hlt, Int.cast_neg, ← hd, neg_neg]
    · rw [if_neg hneg, one_mul] at hd
      have hlt : 0 < d := by
        have hcast : (0 : ℚ) < d := hd ▸ hpos
        exact_mod_cast hcast
      refine ⟨by rw [Bool.eq_false_iff.mpr hneg, decide_eq_false hlt.not_gt], ?_⟩
      rw [Nat.cast_natAbs, abs_of_pos hlt, hd]
  obtain ⟨hstripped, hvalue⟩ := divisorOperand_stripped h1 h2
  refine ⟨Operand.eq_of_value (hr.operand_stripped h0) hstripped ?_, hsign.1⟩
  rw [operand_value, hsign.2, hvalue]

/-- **The two functions agree** on every dividend that is not zero. -/
theorem divi32Decimal_eq (hl : ldec.WellFormed) (hr : rdec.WellFormed) (hd : rdec.value = d)
    (h1 : 1 ≤ d.natAbs) (h2 : d.natAbs ≤ DIGITSBASE) (h0 : ldec.sizeDecimal ≠ 0)
    (resultSize : ℕ) :
    divi32Decimal result ldec d resultSize = some (divDecimal result ldec rdec resultSize) := by
  obtain ⟨hop, hneg⟩ := operand_of_value hr hd h1 h2
  have horder := hr.operand_order
  have hlne : ldec.operand.digits ≠ [] := fun hnil => h0 (hl.operand_eq_nil.mp hnil)
  have hlen : ldec.operand.digits.length ≤ 255 := by
    have hsuf := (Operand.skipTrailingZero_suffix ldec.valid ldec.exponent).length_le
    have hmax := ldec.sizeDecimal_le
    rw [hl.length_valid] at hsuf
    exact hsuf.trans (by omega)
  -- the divisor has one digit, and its order is 1 or 2
  have hone : rdec.operand.digits = [if d.natAbs = DIGITSBASE then 1 else d.natAbs] := by
    rw [hop, divisorOperand]
    split_ifs <;> rfl
  have hexp : rdec.exponent + rdec.sizeDecimal = if d.natAbs = DIGITSBASE then 2 else 1 := by
    rw [← horder, hop, divisorOperand]
    split_ifs <;> rfl
  rw [divi32Decimal, divDecimal]
  dsimp only
  generalize (if sizemaxDecimal < if resultSize = 0 then 1 else resultSize then sizemaxDecimal
    else if resultSize = 0 then 1 else resultSize) = size
  rw [if_pos ⟨by omega, h2⟩, hone, if_neg (List.cons_ne_nil _ _), if_neg hlne, hneg]
  rcases allocateDecimalhelper result size with err | dec
  · rfl
  · have hexponent : (if d.natAbs = DIGITSBASE then
        ldec.exponent + ldec.sizeDecimal - 1 - ((size - 1 : ℕ) : ℤ) - 1
        else ldec.exponent + ldec.sizeDecimal - 1 - ((size - 1 : ℕ) : ℤ)) =
          ldec.exponent - rdec.exponent + ldec.sizeDecimal - rdec.sizeDecimal -
            ((size - 1 : ℕ) : ℤ) := by
      split_ifs at hexp ⊢ <;> omega
    dsimp only
    rw [divi32Read_eq hlne hlen, hexponent]
    rfl

theorem divi32Decimal_zero (hl : ldec.WellFormed) (h1 : 1 ≤ d.natAbs) (h2 : d.natAbs ≤ DIGITSBASE)
    (h0 : ldec.sizeDecimal = 0) (resultSize : ℕ) :
    divi32Decimal result ldec d resultSize = none := by
  rw [divi32Decimal]
  dsimp only
  have hsize : 0 < (if sizemaxDecimal < if resultSize = 0 then 1 else resultSize then sizemaxDecimal
      else if resultSize = 0 then 1 else resultSize) ∧
      (if sizemaxDecimal < if resultSize = 0 then 1 else resultSize then sizemaxDecimal
        else if resultSize = 0 then 1 else resultSize) ≤ 0x7f := by
    rw [sizemaxDecimal]
    split_ifs <;> omega
  generalize (if sizemaxDecimal < if resultSize = 0 then 1 else resultSize then sizemaxDecimal
    else if resultSize = 0 then 1 else resultSize) = size at hsize ⊢
  obtain ⟨dec, hdec⟩ := exists_allocateDecimalhelper result size hsize.1 hsize.2
  rw [if_pos ⟨by omega, h2⟩, hdec, hl.operand_eq_nil.mpr h0]
  exact divi32Read_nil

/-- **Division by a small integer agrees with general division** and reads valid digits only,
exactly if the dividend is not zero. -/
theorem divi32Decimal_agrees_iff (hl : ldec.WellFormed) (hr : rdec.WellFormed)
    (hd : rdec.value = d) (h1 : 1 ≤ d.natAbs) (h2 : d.natAbs ≤ 10 ^ 9) (result : Decimal)
    (resultSize : ℕ) :
    Agrees (divi32Decimal result ldec d resultSize) (divDecimal result ldec rdec resultSize) ↔
      ldec.sizeDecimal ≠ 0 := by
  have h2' : d.natAbs ≤ DIGITSBASE := h2
  constructor
  · intro h h0
    rw [divi32Decimal_zero hl h1 h2' h0] at h
    exact h
  · intro h0
    rw [divi32Decimal_eq hl hr hd h1 h2' h0]
    exact agrees_self _

/-- `1 + 2 · 10⁹` divided by `-10⁹`, with two digits. -/
theorem divi32Decimal_agrees_iff_shift :
    Agrees (divi32Decimal ⟨2, 0, 0, [], by decide⟩ ⟨2, 2, 0, [1, 2], by decide⟩ (-10 ^ 9) 2)
        (divDecimal ⟨2, 0, 0, [], by decide⟩ ⟨2, 2, 0, [1, 2], by decide⟩
          ⟨2, 0x82, 0, [0, 1], by decide⟩ 2) ↔
      sizeDecimal ⟨2, 2, 0, [1, 2], by decide⟩ ≠ 0 := by
  refine divi32Decimal_agrees_iff (by decide +kernel) (by decide +kernel) ?_ (by decide) (by decide)
    _ _
  have hneg : isnegativeDecimal ⟨2, 0x82, 0, [0, 1], by decide⟩ = true := by decide
  have hvalid : valid ⟨2, 0x82, 0, [0, 1], by decide⟩ = [0, 1] := by decide
  rw [value, hneg, magnitude, hvalid, if_pos rfl, number_cons, number_cons, number_nil, base]
  norm_num

/-- Zero divided by 1: the helper reads the digit with index 255. -/
theorem divi32Decimal_not_agrees :
    ¬∀ (result ldec rdec : Decimal) (d : ℤ) (resultSize : ℕ), ldec.WellFormed → rdec.WellFormed →
      rdec.value = d → 1 ≤ d.natAbs → d.natAbs ≤ 10 ^ 9 →
        Agrees (divi32Decimal result ldec d resultSize)
          (divDecimal result ldec rdec resultSize) := by
  intro h
  have hvalue : value ⟨1, 1, 0, [1], by decide⟩ = (1 : ℤ) := by
    have hneg : isnegativeDecimal ⟨1, 1, 0, [1], by decide⟩ = false := by decide
    have hvalid : valid ⟨1, 1, 0, [1], by decide⟩ = [1] := by decide
    rw [value, hneg, magnitude, hvalid, number_cons, number_nil]
    norm_num
  have hwf : WellFormed ⟨1, 0, 0, [], by decide⟩ := by decide +kernel
  have hagrees := h ⟨1, 0, 0, [], by decide⟩ _ _ 1 1 hwf (by decide +kernel) hvalue (by decide)
    (by decide)
  rw [divi32Decimal_zero hwf (by decide) (by decide) (by decide)] at hagrees
  exact hagrees

end Decimal
end CKern
