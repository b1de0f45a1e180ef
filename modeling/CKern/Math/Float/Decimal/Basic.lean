import Mathlib.Algebra.Order.Field.Power
import Mathlib.Data.Rat.Cast.Order
import Mathlib.Tactic.FieldSimp
import Mathlib.Tactic.NormNum
import CKern.Library.Positional
import CKern.Math.Bigint.Basic

/-!
# `math/float/decimal.c`: the object `decimal_t`

A decimal is an array of digits to the base `10 ^ 9`, a sign and an exponent.

* `Decimal`: the fields of `decimal_t`.  The list `digits` is the storage; only its first
  `sizeDecimal` elements count.
* `Decimal.value`: the rational number that an object stands for.
* `Decimal.WellFormed`: the digits are below the base, the leading one is not zero, and zero has no
  sign.
* `allocateDecimalhelper`, `copyDecimal`, `setPi32Decimal`, `Operand.skipTrailingZero`: what the
  operations share.

A digit is a `uint32_t` below `10 ^ 9`.  Sums and differences of digits stay inside the types that
the code computes them in, so digits are natural numbers here.  The memory manager grants every
request.
-/

namespace CKern

open Positional

/-- `DIGITSBASE`. -/
abbrev DIGITSBASE : ℕ := 1000000000

/-- `struct decimal_t`. -/
structure Decimal where
  sizeAllocated : ℕ
  signAndUsedDigits : UInt8
  exponent : ℤ
  digits : List ℕ
  allocated_le : sizeAllocated ≤ 0x7f
  deriving DecidableEq, Repr

namespace Decimal

/-! ## Digits -/

/-- The base of the digits. -/
def base : ℤ := 10 ^ 9

theorem base_eq : base = 1000000000 := by norm_num [base]

theorem cast_DIGITSBASE : ((DIGITSBASE : ℕ) : ℤ) = base := base_eq.symm

/-- Every digit is a digit to the base. -/
def Digits (ds : List ℕ) : Prop := ∀ d ∈ ds, d < DIGITSBASE

instance (ds : List ℕ) : Decidable (Digits ds) :=
  inferInstanceAs (Decidable (∀ d ∈ ds, d < DIGITSBASE))

theorem Digits.nil : Digits [] := by
  intro d hd
  cases hd

theorem digits_cons {d : ℕ} {ds : List ℕ} : Digits (d :: ds) ↔ d < DIGITSBASE ∧ Digits ds := by
  simp [Digits]

theorem digits_append {xs ys : List ℕ} : Digits (xs ++ ys) ↔ Digits xs ∧ Digits ys := by
  constructor
  · intro h
    exact ⟨fun d hd => h d (by simp [hd]), fun d hd => h d (by simp [hd])⟩
  · rintro ⟨hx, hy⟩ d hd
    rcases List.mem_append.mp hd with hd | hd
    · exact hx d hd
    · exact hy d hd

theorem Digits.of_subset {xs ys : List ℕ} (h : Digits ys) (hs : xs ⊆ ys) : Digits xs :=
  fun d hd => h d (hs hd)

theorem Digits.take {ds : List ℕ} (h : Digits ds) (n : ℕ) : Digits (ds.take n) :=
  h.of_subset (List.take_subset n ds)

theorem Digits.drop {ds : List ℕ} (h : Digits ds) (n : ℕ) : Digits (ds.drop n) :=
  h.of_subset (List.drop_subset n ds)

theorem digits_replicate {d : ℕ} (h : d < DIGITSBASE) (n : ℕ) : Digits (List.replicate n d) := by
  intro x hx
  rw [List.eq_of_mem_replicate hx]
  exact h

/-- The number that an array of digits stores. -/
def number (ds : List ℕ) : ℤ := eval base (fun d : ℕ => (d : ℤ)) ds

theorem base_pos : (0 : ℤ) < base := by norm_num [base]

theorem base_pow_pos (n : ℕ) : 0 < base ^ n := pow_pos base_pos n

theorem Digits.cast_add_one_le {ds : List ℕ} (h : Digits ds) : ∀ d ∈ ds, (d : ℤ) + 1 ≤ base := by
  intro d hd
  have : d < 1000000000 := h d hd
  rw [base_eq]
  omega

@[simp]
theorem number_nil : number [] = 0 := rfl

@[simp]
theorem number_cons (d : ℕ) (ds : List ℕ) : number (d :: ds) = d + base * number ds := rfl

theorem number_append (xs ys : List ℕ) :
    number (xs ++ ys) = number xs + base ^ xs.length * number ys := eval_append _ _ xs ys

theorem number_replicate_zero (n : ℕ) : number (List.replicate n 0) = 0 :=
  eval_replicate _ _ (by simp) n

theorem number_nonneg (ds : List ℕ) : 0 ≤ number ds :=
  eval_nonneg base_pos.le (fun d => by positivity) ds

theorem number_lt {ds : List ℕ} (h : Digits ds) : number ds < base ^ ds.length :=
  eval_lt_pow_of_forall base_pos.le h.cast_add_one_le

theorem number_take_add_drop {n : ℕ} {ds : List ℕ} (h : n ≤ ds.length) :
    number (ds.take n) + base ^ n * number (ds.drop n) = number ds := by
  have := eval_take_add_drop base (fun d : ℕ => (d : ℤ)) n ds
  rwa [min_eq_left h] at this

/-- The leading digit, if there is one, is not zero. -/
def Leading (ds : List ℕ) : Prop := ds.getLast? ≠ some 0

instance (ds : List ℕ) : Decidable (Leading ds) :=
  inferInstanceAs (Decidable (ds.getLast? ≠ some 0))

theorem Leading.append_left {xs ys : List ℕ} (h : Leading ys) (hy : ys ≠ []) :
    Leading (xs ++ ys) := by
  rw [Leading, List.getLast?_append_of_ne_nil _ hy]
  exact h

theorem Leading.of_suffix {xs ys : List ℕ} (h : Leading ys) (hs : xs <:+ ys) : Leading xs := by
  obtain ⟨zs, rfl⟩ := hs
  cases xs with
  | nil => simp [Leading]
  | cons x xs =>
    rw [Leading, List.getLast?_append_of_ne_nil _ (by simp)] at h
    exact h

theorem pow_le_number {ds : List ℕ} (h : Leading ds) (hne : ds ≠ []) :
    base ^ (ds.length - 1) ≤ number ds := by
  rcases List.eq_nil_or_concat ds with rfl | ⟨xs, x, rfl⟩
  · exact absurd rfl hne
  · have hx : x ≠ 0 := by
      rintro rfl
      simp [Leading] at h
    rw [List.concat_eq_append, List.length_append, List.length_singleton, Nat.add_sub_cancel]
    exact pow_le_eval base_pos.le (fun d => by positivity) xs (by omega)

theorem number_pos {ds : List ℕ} (h : Leading ds) (hne : ds ≠ []) : 0 < number ds :=
  (base_pow_pos _).trans_le (pow_le_number h hne)

theorem leading_of_pow_le {ds : List ℕ} (hd : Digits ds)
    (h : base ^ (ds.length - 1) ≤ number ds) : Leading ds := by
  rcases List.eq_nil_or_concat ds with rfl | ⟨xs, x, rfl⟩
  · simp [Leading]
  · rw [List.concat_eq_append] at hd ⊢
    rw [List.concat_eq_append, List.length_append, List.length_singleton,
      Nat.add_sub_cancel] at h
    have hx := getLast_pos_of_forall base_pos.le (digits_append.mp hd).1.cast_add_one_le h
    rw [Leading, List.getLast?_concat]
    rintro ⟨rfl⟩
    simp at hx

/-! ## The sign and the size -/

/-- `size_decimal`. -/
def sizeDecimal (dec : Decimal) : ℕ := (dec.signAndUsedDigits &&& 0x7f).toNat

/-- `isnegative_decimal`. -/
def isnegativeDecimal (dec : Decimal) : Bool := dec.signAndUsedDigits &&& 0x80 ≠ 0

/-- `(uint8_t) (size | (isNegSign ? 0x80 : 0))` -/
def signAndSize (isNegSign : Bool) (size : ℕ) : UInt8 :=
  UInt8.ofNat size ||| if isNegSign then 0x80 else 0

theorem signAndSize_spec {size : ℕ} (h : size ≤ 0x7f) (isNegSign : Bool) :
    (signAndSize isNegSign size &&& 0x7f).toNat = size ∧
      decide (signAndSize isNegSign size &&& 0x80 ≠ 0) = isNegSign ∧
      (signAndSize isNegSign size = 0 ↔ size = 0 ∧ isNegSign = false) := by
  have hall : ∀ (n : Fin 128) (b : Bool), (signAndSize b n &&& 0x7f).toNat = n ∧
      decide (signAndSize b n &&& 0x80 ≠ 0) = b ∧
      (signAndSize b n = 0 ↔ (n : ℕ) = 0 ∧ b = false) := by decide +kernel
  exact hall ⟨size, by omega⟩ isNegSign

theorem sizeDecimal_le (dec : Decimal) : dec.sizeDecimal ≤ 0x7f := by
  rw [sizeDecimal, UInt8.toNat_and]
  exact Nat.and_le_right

theorem signAndUsedDigits_eq (dec : Decimal) :
    dec.signAndUsedDigits = signAndSize dec.isnegativeDecimal dec.sizeDecimal := by
  have hall : ∀ n : Fin 256, UInt8.ofNat n =
      signAndSize (decide (UInt8.ofNat n &&& 0x80 ≠ 0)) (UInt8.ofNat n &&& 0x7f).toNat := by
    decide +kernel
  have := hall ⟨dec.signAndUsedDigits.toNat, dec.signAndUsedDigits.toNat_lt⟩
  rwa [UInt8.ofNat_toNat] at this

/-! ## The value of an object -/

/-- The digits in use. -/
def valid (dec : Decimal) : List ℕ := dec.digits.take dec.sizeDecimal

/-- The sum of all `digits[i] * 10^(9 * (i + exponent))`. -/
def magnitude (dec : Decimal) : ℚ := number dec.valid * (base : ℚ) ^ dec.exponent

/-- The value: the magnitude with the sign. -/
def value (dec : Decimal) : ℚ := (if dec.isnegativeDecimal then -1 else 1) * dec.magnitude

/-- The objects that represent a number.  All functions keep zero without a sign. -/
structure WellFormed (dec : Decimal) : Prop where
  stored : dec.sizeDecimal ≤ dec.digits.length
  digits : Digits dec.valid
  leading : Leading dec.valid
  exponent_ge : -32768 ≤ dec.exponent
  exponent_le : dec.exponent ≤ INT16_MAX
  zero_sign : dec.sizeDecimal = 0 → dec.isnegativeDecimal = false

theorem wellFormed_iff (dec : Decimal) :
    dec.WellFormed ↔
      dec.sizeDecimal ≤ dec.digits.length ∧ Digits dec.valid ∧ Leading dec.valid ∧
        -32768 ≤ dec.exponent ∧ dec.exponent ≤ INT16_MAX ∧
        (dec.sizeDecimal = 0 → dec.isnegativeDecimal = false) :=
  ⟨fun ⟨h1, h2, h3, h4, h5, h6⟩ => ⟨h1, h2, h3, h4, h5, h6⟩,
    fun ⟨h1, h2, h3, h4, h5, h6⟩ => ⟨h1, h2, h3, h4, h5, h6⟩⟩

instance (dec : Decimal) : Decidable dec.WellFormed := decidable_of_iff' _ dec.wellFormed_iff

theorem WellFormed.length_valid {dec : Decimal} (h : dec.WellFormed) :
    dec.valid.length = dec.sizeDecimal := by
  rw [valid, List.length_take, min_eq_left h.stored]

theorem WellFormed.valid_ne_nil {dec : Decimal} (h : dec.WellFormed) (h0 : dec.sizeDecimal ≠ 0) :
    dec.valid ≠ [] := by
  rw [← List.length_pos_iff, h.length_valid]
  exact Nat.pos_of_ne_zero h0

theorem cast_base_pos : (0 : ℚ) < (base : ℚ) := by exact_mod_cast base_pos

theorem cast_base_ne : (base : ℚ) ≠ 0 := cast_base_pos.ne'

theorem base_zpow_pos (e : ℤ) : 0 < (base : ℚ) ^ e := zpow_pos cast_base_pos e

theorem magnitude_eq_zero {dec : Decimal} (h : dec.sizeDecimal = 0) : dec.magnitude = 0 := by
  rw [magnitude, valid, h, List.take_zero, number_nil, Int.cast_zero, zero_mul]

theorem magnitude_nonneg (dec : Decimal) : 0 ≤ dec.magnitude :=
  mul_nonneg (Int.cast_nonneg (number_nonneg _)) (base_zpow_pos _).le

theorem WellFormed.magnitude_pos {dec : Decimal} (h : dec.WellFormed) (h0 : dec.sizeDecimal ≠ 0) :
    0 < dec.magnitude :=
  mul_pos (Int.cast_pos.mpr (number_pos h.leading (h.valid_ne_nil h0))) (base_zpow_pos _)

/-! ## The functions that the operations share -/

/-- `clear_decimal`. -/
def clearDecimal (dec : Decimal) : Decimal := { dec with signAndUsedDigits := 0, exponent := 0 }

/-- The array `dec->digits` after the digits `ds` were written to its start. -/
def write (dec : Decimal) (ds : List ℕ) : List ℕ := ds ++ dec.digits.drop ds.length

/-- `allocate_decimalhelper` for an object that is there already. -/
def allocateDecimalhelper (dec : Decimal) (sizeAllocate : ℕ) : Except Errno Decimal :=
  if sizeAllocate ≤ dec.sizeAllocated then .ok dec
  else if h : sizeAllocate = 0 ∨ 0x7f < sizeAllocate then .error .EOVERFLOW
  else .ok { dec with sizeAllocated := sizeAllocate, allocated_le := by omega }

/-- `copy_decimal`. -/
def copyDecimal (dec copyfrom : Decimal) : Except Errno Decimal :=
  (allocateDecimalhelper dec copyfrom.sizeDecimal).map fun copy =>
    { copy with
      signAndUsedDigits := copyfrom.signAndUsedDigits
      exponent := copyfrom.exponent
      digits := copy.write copyfrom.valid }

/-- `setpositive_decimal`. -/
def setpositiveDecimal (dec : Decimal) : Decimal :=
  { dec with signAndUsedDigits := dec.signAndUsedDigits &&& 0x7f }

/-- `setnegative_decimal`. -/
def setnegativeDecimal (dec : Decimal) : Decimal :=
  { dec with
    signAndUsedDigits :=
      dec.signAndUsedDigits ||| if dec.signAndUsedDigits ≠ 0 then 0x80 else 0 }

/-- `expmax_decimal`. -/
def expmaxDecimal : ℕ := INT16_MAX * 9

/-- `alignexponent_decimalhelper`. -/
def alignexponentDecimalhelper (decimalExponent : ℤ) : Except Errno ℕ :=
  if expmaxDecimal < decimalExponent.natAbs then .error .EOVERFLOW
  else
    let aligndiff := decimalExponent.tmod 9
    .ok (if aligndiff < 0 then aligndiff + 9 else aligndiff).toNat

/-- `shiftleft10pX_decimalhelper`: the shifted digit, and the carry for the next one. -/
def shiftleft10pDecimalhelper (x shiftcarry shiftdigit : ℕ) : ℕ × ℕ :=
  (shiftcarry + shiftdigit % (1000000000 / 10 ^ x) * 10 ^ x, shiftdigit / (1000000000 / 10 ^ x))

/-- `setPi32_decimal`. -/
def setPi32Decimal (dec : Decimal) (value decimalExponent : ℤ) : Except Errno Decimal :=
  (alignexponentDecimalhelper decimalExponent).bind fun correction =>
    let alignedexp := int16 ((decimalExponent - correction).tdiv 9)
    let digit := shiftleft10pDecimalhelper correction 0 value.natAbs
    if digit.2 ≠ 0 then
      (allocateDecimalhelper dec 2).map fun dec =>
        { dec with
          signAndUsedDigits := signAndSize (value < 0) 2
          exponent := alignedexp
          digits := dec.write [digit.1, digit.2] }
    else if digit.1 ≠ 0 then
      .ok { dec with
        signAndUsedDigits := signAndSize (value < 0) 1
        exponent := alignedexp
        digits := dec.write [digit.1] }
    else .ok { dec with signAndUsedDigits := 0, exponent := 0 }

/-- How an operation ends that has written the digits `ds`: the assignment of the sign and the
size, and that of the exponent. -/
def assign (dec : Decimal) (isNegSign : Bool) (size : ℕ) (exponent : ℤ) (ds : List ℕ) : Decimal :=
  { dec with
    signAndUsedDigits := signAndSize isNegSign size
    exponent := int16 exponent
    digits := dec.write ds }

/-! ## What they do -/

theorem allocateDecimalhelper_spec {dec new : Decimal} {size : ℕ}
    (h : allocateDecimalhelper dec size = .ok new) : size ≤ new.sizeAllocated := by
  rw [allocateDecimalhelper] at h
  split_ifs at h with h1 h2
  · cases h
    exact h1
  · cases h
    exact le_rfl

theorem allocateDecimalhelper_le {dec new : Decimal} {size : ℕ}
    (h : allocateDecimalhelper dec size = .ok new) : size ≤ 0x7f :=
  (allocateDecimalhelper_spec h).trans new.allocated_le

theorem exists_allocateDecimalhelper (dec : Decimal) (size : ℕ) (h0 : 0 < size)
    (h : size ≤ 0x7f) : ∃ new, allocateDecimalhelper dec size = .ok new := by
  rw [allocateDecimalhelper]
  by_cases h1 : size ≤ dec.sizeAllocated
  · exact ⟨_, if_pos h1⟩
  · rw [if_neg h1, dif_neg (by omega)]
    exact ⟨_, rfl⟩

theorem take_write (dec : Decimal) {ds : List ℕ} {n : ℕ} (h : n ≤ ds.length) :
    (dec.write ds).take n = ds.take n := by
  rw [write, List.take_append_of_le_length h]

theorem length_le_write (dec : Decimal) (ds : List ℕ) : ds.length ≤ (dec.write ds).length := by
  rw [write, List.length_append]
  exact Nat.le_add_right _ _

/-- An object that stores the number `v`, negated if `isNegSign`. -/
def Represents (dec : Decimal) (isNegSign : Bool) (v : ℚ) : Prop :=
  dec.WellFormed ∧ dec.value = (if isNegSign then -1 else 1) * v

theorem Represents.not {dec : Decimal} {isNegSign : Bool} {v : ℚ}
    (h : dec.Represents (!isNegSign) v) : dec.Represents isNegSign (-v) := by
  refine ⟨h.1, h.2.trans ?_⟩
  cases isNegSign <;> simp

theorem represents_zero {dec : Decimal} (h : dec.signAndUsedDigits = 0)
    (he : dec.exponent = 0) (isNegSign : Bool) : dec.Represents isNegSign 0 := by
  have hsize : dec.sizeDecimal = 0 := by
    rw [sizeDecimal, h]
    rfl
  have hneg : dec.isnegativeDecimal = false := by
    rw [isnegativeDecimal, h]
    rfl
  have hvalid : dec.valid = [] := by rw [valid, hsize, List.take_zero]
  refine ⟨⟨by omega, ?_, ?_, by omega, by rw [he]; decide, fun _ => hneg⟩, ?_⟩
  · rw [hvalid]
    exact Digits.nil
  · rw [hvalid]
    simp [Leading]
  · rw [value, magnitude_eq_zero hsize, mul_zero, mul_zero]

theorem clearDecimal_represents (dec : Decimal) (isNegSign : Bool) :
    (clearDecimal dec).Represents isNegSign 0 := represents_zero rfl rfl isNegSign

theorem setPi32Decimal_zero_represents {dec new : Decimal} (h : setPi32Decimal dec 0 0 = .ok new)
    (isNegSign : Bool) : new.Represents isNegSign 0 := by
  have hnew : setPi32Decimal dec 0 0 = .ok { dec with signAndUsedDigits := 0, exponent := 0 } := rfl
  rw [hnew] at h
  cases h
  exact represents_zero rfl rfl isNegSign

theorem assign_spec (dec : Decimal) (isNegSign : Bool) {size : ℕ} (exponent : ℤ) {ds : List ℕ}
    (hs : size ≤ 0x7f) (hd : size ≤ ds.length) :
    (dec.assign isNegSign size exponent ds).sizeDecimal = size ∧
      (dec.assign isNegSign size exponent ds).isnegativeDecimal = isNegSign ∧
      (dec.assign isNegSign size exponent ds).valid = ds.take size := by
  obtain ⟨h1, h2, -⟩ := signAndSize_spec hs isNegSign
  refine ⟨h1, h2, ?_⟩
  rw [valid, sizeDecimal, assign]
  dsimp only
  rw [h1, take_write dec hd]

theorem assign_value (dec : Decimal) (isNegSign : Bool) {size : ℕ} (exponent : ℤ) {ds : List ℕ}
    (hs : size ≤ 0x7f) (hd : size ≤ ds.length) :
    (dec.assign isNegSign size exponent ds).value =
      (if isNegSign then -1 else 1) * (number (ds.take size) * (base : ℚ) ^ int16 exponent) := by
  obtain ⟨-, h2, h3⟩ := assign_spec dec isNegSign exponent hs hd
  rw [value, h2, magnitude, h3]
  rfl

theorem int16_of_mem {z : ℤ} (h1 : -32768 ≤ z) (h2 : z ≤ INT16_MAX) : int16 z = z := by
  rw [INT16_MAX] at h2
  rw [int16]
  omega

theorem assign_represents (dec : Decimal) (isNegSign : Bool) {size : ℕ} {exponent : ℤ}
    {ds : List ℕ} {v : ℚ} (hs : size ≤ 0x7f) (hd : size ≤ ds.length) (he : -32768 ≤ exponent)
    (he' : exponent ≤ INT16_MAX) (hdigits : Digits (ds.take size)) (hl : Leading (ds.take size))
    (hpos : 0 < size) (hv : number (ds.take size) * (base : ℚ) ^ exponent = v) :
    (dec.assign isNegSign size exponent ds).Represents isNegSign v := by
  obtain ⟨h1, h2, h3⟩ := assign_spec dec isNegSign exponent hs hd
  have h16 : (dec.assign isNegSign size exponent ds).exponent = exponent := int16_of_mem he he'
  refine ⟨⟨?_, ?_, ?_, ?_, ?_, ?_⟩, ?_⟩
  · rw [h1]
    exact hd.trans (length_le_write dec ds)
  · rwa [h3]
  · rwa [h3]
  · rwa [h16]
  · rwa [h16]
  · intro h0
    omega
  · rw [assign_value dec isNegSign exponent hs hd, int16_of_mem he he', hv]

/-! ## Copies -/

/-- Objects with the same fields, up to digits that are not in use. -/
structure Same (x y : Decimal) : Prop where
  sign : x.signAndUsedDigits = y.signAndUsedDigits
  exponent : x.exponent = y.exponent
  valid : x.valid = y.valid
  stored : y.sizeDecimal ≤ x.digits.length

theorem Same.sizeDecimal {x y : Decimal} (h : Same x y) : x.sizeDecimal = y.sizeDecimal := by
  rw [Decimal.sizeDecimal, h.sign, Decimal.sizeDecimal]

theorem Same.isnegativeDecimal {x y : Decimal} (h : Same x y) :
    x.isnegativeDecimal = y.isnegativeDecimal := by
  rw [Decimal.isnegativeDecimal, h.sign, Decimal.isnegativeDecimal]

theorem Same.magnitude {x y : Decimal} (h : Same x y) : x.magnitude = y.magnitude := by
  rw [Decimal.magnitude, Decimal.magnitude, h.exponent, h.valid]

theorem Same.wellFormed {x y : Decimal} (h : Same x y) (hy : y.WellFormed) : x.WellFormed where
  stored := by
    rw [h.sizeDecimal]
    exact h.stored
  digits := h.valid ▸ hy.digits
  leading := h.valid ▸ hy.leading
  exponent_ge := h.exponent ▸ hy.exponent_ge
  exponent_le := h.exponent ▸ hy.exponent_le
  zero_sign := by
    rw [h.sizeDecimal, h.isnegativeDecimal]
    exact hy.zero_sign

theorem copyDecimal_same {dec copyfrom new : Decimal} (hc : copyfrom.WellFormed)
    (h : copyDecimal dec copyfrom = .ok new) : Same new copyfrom := by
  obtain ⟨copy, _, rfl⟩ := Bigint.map_eq_ok h
  have hlen := hc.length_valid
  refine ⟨rfl, rfl, ?_, hlen.ge.trans (length_le_write copy _)⟩
  change (copy.write copyfrom.valid).take copyfrom.sizeDecimal = _
  rw [take_write _ hlen.ge, ← hlen, List.take_length]

theorem represents_of_copyDecimal {dec copyfrom new : Decimal} (hc : copyfrom.WellFormed)
    (h : copyDecimal dec copyfrom = .ok new) :
    new.Represents copyfrom.isnegativeDecimal copyfrom.magnitude := by
  have hs := copyDecimal_same hc h
  refine ⟨hs.wellFormed hc, ?_⟩
  rw [value, hs.isnegativeDecimal, hs.magnitude]

/-! ## A change of the sign -/

theorem represents_of_sign {dec : Decimal} (h : dec.WellFormed) {isNegSign : Bool} {b : UInt8}
    (hb : b = signAndSize isNegSign dec.sizeDecimal)
    (h0 : dec.sizeDecimal = 0 → isNegSign = false) :
    ({ dec with signAndUsedDigits := b } : Decimal).Represents isNegSign dec.magnitude := by
  obtain ⟨h1, h2, -⟩ := signAndSize_spec dec.sizeDecimal_le isNegSign
  rw [← hb] at h1 h2
  have hn : ({ dec with signAndUsedDigits := b } : Decimal).sizeDecimal = dec.sizeDecimal := h1
  have hneg : ({ dec with signAndUsedDigits := b } : Decimal).isnegativeDecimal = isNegSign := h2
  have hv : ({ dec with signAndUsedDigits := b } : Decimal).valid = dec.valid := by
    rw [valid, hn, valid]
  refine ⟨⟨?_, ?_, ?_, h.exponent_ge, h.exponent_le, ?_⟩, ?_⟩
  · rw [hn]
    exact h.stored
  · rw [hv]
    exact h.digits
  · rw [hv]
    exact h.leading
  · rw [hn, hneg]
    exact h0
  · rw [value, hneg, magnitude, hv]
    rfl

theorem setpositiveDecimal_represents {dec : Decimal} (h : dec.WellFormed) :
    (setpositiveDecimal dec).Represents false dec.magnitude := by
  have hall : ∀ n : Fin 256, UInt8.ofNat n &&& 0x7f =
      signAndSize false (UInt8.ofNat n &&& 0x7f).toNat := by decide +kernel
  have hb := hall ⟨dec.signAndUsedDigits.toNat, dec.signAndUsedDigits.toNat_lt⟩
  rw [UInt8.ofNat_toNat] at hb
  exact represents_of_sign h hb fun _ => rfl

theorem setnegativeDecimal_represents {dec : Decimal} (h : dec.WellFormed)
    (h0 : dec.sizeDecimal ≠ 0) : (setnegativeDecimal dec).Represents true dec.magnitude := by
  have hall : ∀ n : Fin 256, (UInt8.ofNat n &&& 0x7f).toNat ≠ 0 →
      (UInt8.ofNat n ||| if UInt8.ofNat n ≠ 0 then 0x80 else 0) =
        signAndSize true (UInt8.ofNat n &&& 0x7f).toNat := by decide +kernel
  have hb := hall ⟨dec.signAndUsedDigits.toNat, dec.signAndUsedDigits.toNat_lt⟩
  rw [UInt8.ofNat_toNat] at hb
  exact represents_of_sign h (hb h0) fun h => absurd h h0

/-! ## Operands -/

/-- The local variables that a function keeps of one operand: a pointer into its digits with
their number, and the exponent of the first of them. -/
structure Operand where
  digits : List ℕ
  exponent : ℤ
  deriving Repr

namespace Operand

/-- The order of the number: the exponent of the first digit that it does not have. -/
def order (x : Operand) : ℤ := x.exponent + x.digits.length

/-- The value of an operand in units of `base ^ e`. -/
def valueAt (e : ℤ) (x : Operand) : ℤ := number x.digits * base ^ (x.exponent - e).toNat

def value (x : Operand) : ℚ := number x.digits * (base : ℚ) ^ x.exponent

/-- `while (size && 0 == digits[0]) { --size; ++digits; ++exp; }` -/
def skipTrailingZero : List ℕ → ℤ → Operand
  | [], exp => ⟨[], exp⟩
  | d :: ds, exp => if d = 0 then skipTrailingZero ds (exp + 1) else ⟨d :: ds, exp⟩

theorem value_eq_valueAt {x : Operand} {e : ℤ} (h : e ≤ x.exponent) :
    x.value = x.valueAt e * (base : ℚ) ^ e := by
  have hexp : x.exponent = ((x.exponent - e).toNat : ℤ) + e := by omega
  rw [value, valueAt, Int.cast_mul, mul_assoc, Int.cast_pow, ← zpow_natCast,
    ← zpow_add₀ cast_base_ne, ← hexp]

theorem skipTrailingZero_cons (d : ℕ) (ds : List ℕ) (exp : ℤ) :
    skipTrailingZero (d :: ds) exp =
      if d = 0 then skipTrailingZero ds (exp + 1) else ⟨d :: ds, exp⟩ := rfl

theorem skipTrailingZero_value (ds : List ℕ) (exp : ℤ) :
    (skipTrailingZero ds exp).value = number ds * (base : ℚ) ^ exp := by
  induction ds generalizing exp with
  | nil => rfl
  | cons d ds ih =>
    rw [skipTrailingZero_cons]
    split_ifs with hd
    · rw [ih, hd, number_cons, zpow_add_one₀ cast_base_ne]
      push_cast
      ring
    · rfl

theorem skipTrailingZero_order (ds : List ℕ) (exp : ℤ) :
    (skipTrailingZero ds exp).order = exp + ds.length := by
  induction ds generalizing exp with
  | nil => rfl
  | cons d ds ih =>
    rw [skipTrailingZero_cons]
    split_ifs
    · rw [ih, List.length_cons]
      push_cast
      ring
    · rfl

theorem le_skipTrailingZero_exponent (ds : List ℕ) (exp : ℤ) :
    exp ≤ (skipTrailingZero ds exp).exponent := by
  induction ds generalizing exp with
  | nil => exact le_rfl
  | cons d ds ih =>
    rw [skipTrailingZero_cons]
    split_ifs
    · exact (Int.le_add_one le_rfl).trans (ih _)
    · exact le_rfl

theorem skipTrailingZero_suffix (ds : List ℕ) (exp : ℤ) :
    (skipTrailingZero ds exp).digits <:+ ds := by
  induction ds generalizing exp with
  | nil => exact List.suffix_rfl
  | cons d ds ih =>
    rw [skipTrailingZero_cons]
    split_ifs
    · exact (ih _).trans (List.suffix_cons d ds)
    · exact List.suffix_rfl

theorem skipTrailingZero_head (ds : List ℕ) (exp : ℤ) :
    (skipTrailingZero ds exp).digits.head? ≠ some 0 := by
  induction ds generalizing exp with
  | nil => exact (Option.some_ne_none _).symm
  | cons d ds ih =>
    rw [skipTrailingZero_cons]
    split_ifs with hd
    · exact ih _
    · simpa using hd

theorem skipTrailingZero_ne_nil {ds : List ℕ} (exp : ℤ) (h : Leading ds) (hne : ds ≠ []) :
    (skipTrailingZero ds exp).digits ≠ [] := by
  intro hnil
  have h1 := skipTrailingZero_value ds exp
  rw [value, hnil, number_nil, Int.cast_zero, zero_mul] at h1
  exact (mul_pos (Int.cast_pos.mpr (number_pos h hne)) (base_zpow_pos exp)).ne h1

theorem pow_order_le {x : Operand} {e : ℤ} (he : e ≤ x.exponent) (h : Leading x.digits)
    (hne : x.digits ≠ []) : base ^ (x.order - 1 - e).toNat ≤ x.valueAt e := by
  have hpos := List.length_pos_iff.mpr hne
  have hexp : (x.order - 1 - e).toNat = x.digits.length - 1 + (x.exponent - e).toNat := by
    rw [order]
    omega
  rw [hexp, pow_add, valueAt]
  exact mul_le_mul_of_nonneg_right (pow_le_number h hne) (base_pow_pos _).le

theorem valueAt_lt {x : Operand} {e : ℤ} (he : e ≤ x.exponent) (h : Digits x.digits) :
    x.valueAt e < base ^ (x.order - e).toNat := by
  have hexp : (x.order - e).toNat = x.digits.length + (x.exponent - e).toNat := by
    rw [order]
    omega
  rw [hexp, pow_add]
  exact mul_lt_mul_of_pos_right (number_lt h) (base_pow_pos _)

theorem valueAt_nonneg (e : ℤ) (x : Operand) : 0 ≤ x.valueAt e :=
  mul_nonneg (number_nonneg _) (base_pow_pos _).le

end Operand

/-- An operand as the functions read it: without its trailing zeros. -/
def operand (dec : Decimal) : Operand := Operand.skipTrailingZero dec.valid dec.exponent

theorem operand_value (dec : Decimal) : dec.operand.value = dec.magnitude :=
  Operand.skipTrailingZero_value _ _

theorem WellFormed.operand_leading {dec : Decimal} (h : dec.WellFormed) :
    Leading dec.operand.digits :=
  h.leading.of_suffix (Operand.skipTrailingZero_suffix _ _)

theorem WellFormed.operand_digits {dec : Decimal} (h : dec.WellFormed) :
    Digits dec.operand.digits :=
  h.digits.of_subset (Operand.skipTrailingZero_suffix _ _).subset

theorem WellFormed.operand_order {dec : Decimal} (h : dec.WellFormed) :
    dec.operand.order = dec.exponent + dec.sizeDecimal := by
  rw [operand, Operand.skipTrailingZero_order, h.length_valid]

theorem WellFormed.le_operand_exponent {dec : Decimal} (h : dec.WellFormed) :
    -32768 ≤ dec.operand.exponent :=
  h.exponent_ge.trans (Operand.le_skipTrailingZero_exponent _ _)

theorem operand_head (dec : Decimal) : dec.operand.digits.head? ≠ some 0 :=
  Operand.skipTrailingZero_head _ _

theorem WellFormed.operand_eq_nil {dec : Decimal} (h : dec.WellFormed) :
    dec.operand.digits = [] ↔ dec.sizeDecimal = 0 := by
  constructor
  · intro hnil
    by_contra h0
    exact Operand.skipTrailingZero_ne_nil _ h.leading (h.valid_ne_nil h0) hnil
  · intro h0
    rw [operand, valid, h0, List.take_zero]
    rfl

end Decimal
end CKern
