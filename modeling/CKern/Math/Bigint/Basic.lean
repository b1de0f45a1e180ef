import Mathlib.Data.Int.Order.Basic
import Mathlib.Algebra.BigOperators.Ring.Finset
import Mathlib.Tactic.Ring
import CKern.Library.Positional

/-!
# `math/int/bigint.c`: the object `bigint_t`

* `Bigint`: the fields of `bigint_t`.  The list `digits` is the storage; only its first
  `nrdigits` elements count.
* `Bigint.value`: the integer that an object stands for.
* `Bigint.WellFormed`: the leading digit is not zero, and the value `0` has no digits and no
  exponent.
* `allocateBigint`, `copyBigint`, `clearBigint`, `setPu32Bigint`, `Operand.skipTrailingZero`:
  what the operations share.

The memory manager grants every request.  A refused request ends every function with its error
code, so the runs that return `0` are all here.
-/

namespace CKern

open Positional

/-- `INT16_MAX`. -/
abbrev INT16_MAX : ℕ := 32767

/-- `UINT16_MAX`. -/
abbrev UINT16_MAX : ℕ := 65535

/-- The cast `(int16_t)`. -/
def int16 (z : ℤ) : ℤ := (z + 32768) % 65536 - 32768

/-- The cast `(uint16_t)`. -/
def uint16 (z : ℤ) : ℕ := (z % 65536).toNat

theorem int16_of_natAbs_le {z : ℤ} (h : z.natAbs ≤ INT16_MAX) : int16 z = z := by
  rw [INT16_MAX] at h
  rw [int16]
  omega

theorem uint16_natCast (n : ℕ) : uint16 n = n % 65536 := by
  rw [uint16]
  omega

theorem uint16_sub_one {n : ℕ} (h : 0 < n) : uint16 ((uint16 n : ℤ) - 1) = (n - 1) % 65536 := by
  rw [uint16_natCast, uint16]
  omega

theorem uint16_of_le {n : ℕ} (h : n ≤ UINT16_MAX) : uint16 n = n := by
  rw [UINT16_MAX] at h
  rw [uint16]
  omega

theorem toNat_toUInt32 (c : Bool) : c.toUInt32.toNat = c.toNat := by
  cases c <;> rfl

/-- The error codes of the module. -/
inductive Errno
  | EINVAL
  | EOVERFLOW
  deriving DecidableEq, Repr

/-- `struct bigint_t`.  An object of fixed size has `allocatedDigits = 0`; all others come from
`allocate_bigint`, which grants at most `INT16_MAX` digits. -/
structure Bigint where
  allocatedDigits : ℕ
  signAndUsedDigits : ℤ
  exponent : ℕ
  digits : List UInt32
  allocated_le : allocatedDigits ≤ INT16_MAX
  deriving DecidableEq, Repr

namespace Bigint

/-! ## Digits -/

/-- The base of the digits. -/
def base : ℤ := 2 ^ 32

theorem base_eq : base = 4294967296 := rfl

/-- The number that an array of digits stores. -/
def number (ds : List UInt32) : ℤ := eval base (fun d => (d.toNat : ℤ)) ds

theorem base_pos : (0 : ℤ) < base := by norm_num [base]

theorem base_pow_pos (n : ℕ) : 0 < base ^ n := pow_pos base_pos n

theorem toNat_add_one_le (d : UInt32) : (d.toNat : ℤ) + 1 ≤ base := by
  have := d.toNat_lt
  rw [base_eq]
  omega

@[simp]
theorem number_nil : number [] = 0 := rfl

@[simp]
theorem number_cons (d : UInt32) (ds : List UInt32) :
    number (d :: ds) = d.toNat + base * number ds := rfl

theorem number_append (xs ys : List UInt32) :
    number (xs ++ ys) = number xs + base ^ xs.length * number ys := eval_append _ _ xs ys

theorem number_replicate_zero (n : ℕ) : number (List.replicate n 0) = 0 :=
  eval_replicate _ _ (by simp) n

theorem number_nonneg (ds : List UInt32) : 0 ≤ number ds :=
  eval_nonneg base_pos.le (fun d => by positivity) ds

theorem number_lt (ds : List UInt32) : number ds < base ^ ds.length :=
  eval_lt_pow base_pos.le toNat_add_one_le ds

/-- The leading digit, if there is one, is not zero. -/
def Leading (ds : List UInt32) : Prop := ds.getLast? ≠ some 0

instance (ds : List UInt32) : Decidable (Leading ds) :=
  inferInstanceAs (Decidable (ds.getLast? ≠ some 0))

theorem Leading.append_left {xs ys : List UInt32} (h : Leading ys) (hy : ys ≠ []) :
    Leading (xs ++ ys) := by
  rw [Leading, List.getLast?_append_of_ne_nil _ hy]
  exact h

theorem Leading.of_suffix {xs ys : List UInt32} (h : Leading ys) (hs : xs <:+ ys) :
    Leading xs := by
  obtain ⟨zs, rfl⟩ := hs
  cases xs with
  | nil => simp [Leading]
  | cons x xs =>
    rw [Leading, List.getLast?_append_of_ne_nil _ (by simp)] at h
    exact h

theorem pow_le_number {ds : List UInt32} (h : Leading ds) (hne : ds ≠ []) :
    base ^ (ds.length - 1) ≤ number ds := by
  rcases List.eq_nil_or_concat ds with rfl | ⟨xs, x, rfl⟩
  · exact absurd rfl hne
  · have hx : x ≠ 0 := by
      rintro rfl
      simp [Leading] at h
    have hx' : x.toNat ≠ 0 := fun h0 => hx (UInt32.toNat_inj.mp h0)
    rw [List.concat_eq_append, List.length_append, List.length_singleton, Nat.add_sub_cancel]
    exact pow_le_eval base_pos.le (fun d => by positivity) xs (by omega)

theorem number_pos {ds : List UInt32} (h : Leading ds) (hne : ds ≠ []) : 0 < number ds :=
  (base_pow_pos _).trans_le (pow_le_number h hne)

theorem leading_of_pow_le {ds : List UInt32} (h : base ^ (ds.length - 1) ≤ number ds) :
    Leading ds := by
  rcases List.eq_nil_or_concat ds with rfl | ⟨xs, x, rfl⟩
  · simp [Leading]
  · rw [List.concat_eq_append, List.length_append, List.length_singleton,
      Nat.add_sub_cancel] at h
    have hx := getLast_pos base_pos.le toNat_add_one_le h
    rw [List.concat_eq_append, Leading, List.getLast?_concat]
    rintro ⟨rfl⟩
    simp at hx

/-! ## The value of an object -/

/-- `nrdigits_bigint(big)`. -/
def nrdigits (big : Bigint) : ℕ := big.signAndUsedDigits.natAbs

/-- `isnegative_bigint(big)`. -/
def isnegative (big : Bigint) : Bool := big.signAndUsedDigits < 0

/-- The digits in use. -/
def valid (big : Bigint) : List UInt32 := big.digits.take big.nrdigits

/-- The value: the sum of all `digit[i] * 2^(32 * (i + exponent))`, with the sign of
`sign_and_used_digits`. -/
def value (big : Bigint) : ℤ :=
  big.signAndUsedDigits.sign * (number big.valid * base ^ big.exponent)

/-- The objects that represent an integer. -/
structure WellFormed (big : Bigint) : Prop where
  nrdigits_le : big.nrdigits ≤ INT16_MAX
  stored : big.nrdigits ≤ big.digits.length
  exponent_le : big.exponent ≤ UINT16_MAX
  leading : Leading big.valid
  exponent_zero : big.nrdigits = 0 → big.exponent = 0

theorem wellFormed_iff (big : Bigint) :
    big.WellFormed ↔
      big.nrdigits ≤ INT16_MAX ∧ big.nrdigits ≤ big.digits.length ∧ big.exponent ≤ UINT16_MAX ∧
        Leading big.valid ∧ (big.nrdigits = 0 → big.exponent = 0) :=
  ⟨fun ⟨h1, h2, h3, h4, h5⟩ => ⟨h1, h2, h3, h4, h5⟩, fun ⟨h1, h2, h3, h4, h5⟩ => ⟨h1, h2, h3, h4, h5⟩⟩

instance (big : Bigint) : Decidable big.WellFormed := decidable_of_iff' _ big.wellFormed_iff

theorem WellFormed.length_valid {big : Bigint} (h : big.WellFormed) :
    big.valid.length = big.nrdigits := by
  rw [valid, List.length_take, min_eq_left h.stored]

/-- The magnitude of an object: its value without the sign. -/
def magnitude (big : Bigint) : ℤ := number big.valid * base ^ big.exponent

theorem value_eq (big : Bigint) :
    big.value = if big.isnegative then -big.magnitude else big.magnitude := by
  rw [value, magnitude, isnegative]
  rcases lt_trichotomy big.signAndUsedDigits 0 with h | h | h
  · simp [h, Int.sign_eq_neg_one_of_neg h]
  · simp [h, valid, nrdigits]
  · simp [not_lt.mpr h.le, Int.sign_eq_one_of_pos h]

/-! ## The functions that the operations share -/

/-- `clear_bigint`. -/
def clearBigint (big : Bigint) : Bigint :=
  { big with signAndUsedDigits := 0, exponent := 0 }

/-- The array `big->digits` after the digits `ds` were written to its start. -/
def write (big : Bigint) (ds : List UInt32) : List UInt32 := ds ++ big.digits.drop ds.length

/-- `allocate_bigint`.  `none` is the null pointer; at least `4` digits are allocated. -/
def allocateBigint (big : Option Bigint) (allocateDigits : ℕ) : Except Errno Bigint :=
  if h : INT16_MAX < max allocateDigits 4 then .error .EOVERFLOW
  else
    match big with
    | none => .ok ⟨max allocateDigits 4, 0, 0, [], not_lt.mp h⟩
    | some oldbig =>
      -- an object of fixed size can not be reallocated
      if oldbig.allocatedDigits = 0 then .error .EINVAL
      else .ok ⟨max allocateDigits 4, 0, 0, oldbig.digits, not_lt.mp h⟩

/-- The test for the size that stands before every computation of a result:
`if ((*big)->allocated_digits < size) allocate_bigint(big, size)`. -/
def reserve (big : Bigint) (size : ℕ) : Except Errno Bigint :=
  if big.allocatedDigits < size then allocateBigint (some big) size else .ok big

/-- `copy_bigint`. -/
def copyBigint (big copyfrom : Bigint) : Except Errno Bigint :=
  (reserve big copyfrom.nrdigits).map fun copy =>
    { copy with
      signAndUsedDigits := copyfrom.signAndUsedDigits
      exponent := copyfrom.exponent
      digits := copy.write copyfrom.valid }

/-- `setPu32_bigint(big, value)`. -/
def setPu32Bigint (big : Bigint) (value : UInt32) : Bigint :=
  if value = 0 then { big with signAndUsedDigits := 0, exponent := 0 }
  else { big with signAndUsedDigits := 1, exponent := 0, digits := big.write [value] }

/-- `setpositive_bigint`. -/
def setpositiveBigint (big : Bigint) : Bigint :=
  { big with
    signAndUsedDigits :=
      int16 (if big.signAndUsedDigits < 0 then -big.signAndUsedDigits
        else big.signAndUsedDigits) }

/-- `setnegative_bigint`. -/
def setnegativeBigint (big : Bigint) : Bigint :=
  { big with
    signAndUsedDigits :=
      int16 (if big.signAndUsedDigits < 0 then big.signAndUsedDigits
        else -big.signAndUsedDigits) }

/-- How an operation ends that has written the digits `ds`: the assignment of the sign and the
size, and that of the exponent. -/
def assign (big : Bigint) (isNegSign : Bool) (size exponent : ℕ) (ds : List UInt32) : Bigint :=
  { big with
    signAndUsedDigits := int16 (if isNegSign then -(size : ℤ) else size)
    exponent := uint16 exponent
    digits := big.write ds }

/-! ## What they do -/

theorem bind_eq_ok {α β : Type} {x : Except Errno α} {f : α → Except Errno β} {b : β}
    (h : x.bind f = .ok b) : ∃ a, x = .ok a ∧ f a = .ok b := by
  cases x with
  | error e => cases h
  | ok a => exact ⟨a, rfl, h⟩

theorem map_eq_ok {α β : Type} {x : Except Errno α} {f : α → β} {b : β}
    (h : x.map f = .ok b) : ∃ a, x = .ok a ∧ f a = b := by
  cases x with
  | error e => cases h
  | ok a =>
    cases h
    exact ⟨a, rfl, rfl⟩

theorem allocateBigint_spec {big : Option Bigint} {n : ℕ} {new : Bigint}
    (h : allocateBigint big n = .ok new) :
    n ≤ new.allocatedDigits ∧ new.signAndUsedDigits = 0 ∧ new.exponent = 0 := by
  rw [allocateBigint] at h
  split at h
  · cases h
  · cases big with
    | none =>
      cases h
      exact ⟨le_max_left n 4, rfl, rfl⟩
    | some oldbig =>
      dsimp only at h
      split at h
      · cases h
      · cases h
        exact ⟨le_max_left n 4, rfl, rfl⟩

theorem reserve_spec {big new : Bigint} {size : ℕ} (h : reserve big size = .ok new) :
    size ≤ new.allocatedDigits := by
  rw [reserve] at h
  split_ifs at h with hs
  · exact (allocateBigint_spec h).1
  · cases h
    exact not_lt.mp hs

theorem reserve_le {big new : Bigint} {size : ℕ} (h : reserve big size = .ok new) :
    size ≤ INT16_MAX :=
  (reserve_spec h).trans new.allocated_le

theorem take_write (big : Bigint) {ds : List UInt32} {n : ℕ} (h : n ≤ ds.length) :
    (big.write ds).take n = ds.take n := by
  rw [write, List.take_append_of_le_length h]

theorem length_le_write (big : Bigint) (ds : List UInt32) : ds.length ≤ (big.write ds).length := by
  rw [write, List.length_append]
  exact Nat.le_add_right _ _

theorem WellFormed.valid_ne_nil {big : Bigint} (h : big.WellFormed) (h0 : big.nrdigits ≠ 0) :
    big.valid ≠ [] := by
  rw [← List.length_pos_iff, h.length_valid]
  exact Nat.pos_of_ne_zero h0

theorem clearBigint_wellFormed (big : Bigint) : (clearBigint big).WellFormed where
  nrdigits_le := Nat.zero_le _
  stored := Nat.zero_le _
  exponent_le := Nat.zero_le _
  leading := by simp [Leading, valid, nrdigits, clearBigint]
  exponent_zero _ := rfl

theorem clearBigint_value (big : Bigint) : (clearBigint big).value = 0 := by
  simp [value, clearBigint]

theorem assign_spec (big : Bigint) (isNegSign : Bool) {size exponent : ℕ} {ds : List UInt32}
    (hs : size ≤ INT16_MAX) (hd : size ≤ ds.length) (he : exponent ≤ UINT16_MAX) :
    (big.assign isNegSign size exponent ds).nrdigits = size ∧
      (big.assign isNegSign size exponent ds).valid = ds.take size ∧
      (big.assign isNegSign size exponent ds).exponent = exponent := by
  have h16 : int16 (if isNegSign then -(size : ℤ) else size) =
      if isNegSign then -(size : ℤ) else size :=
    int16_of_natAbs_le (by split_ifs <;> omega)
  have hn : (big.assign isNegSign size exponent ds).nrdigits = size := by
    rw [nrdigits, assign]
    dsimp only
    rw [h16]
    split_ifs <;> omega
  refine ⟨hn, ?_, uint16_of_le he⟩
  rw [valid, hn]
  exact take_write big hd

theorem assign_value (big : Bigint) (isNegSign : Bool) {size exponent : ℕ} {ds : List UInt32}
    (hs : size ≤ INT16_MAX) (hd : size ≤ ds.length) (he : exponent ≤ UINT16_MAX) :
    (big.assign isNegSign size exponent ds).value =
      (if isNegSign then -1 else 1) * (number (ds.take size) * base ^ exponent) := by
  obtain ⟨_, hv, hx⟩ := assign_spec big isNegSign hs hd he
  rw [value, hv, hx]
  rcases Nat.eq_zero_or_pos size with rfl | hpos
  · simp
  · congr 1
    have h16 : (big.assign isNegSign size exponent ds).signAndUsedDigits =
        if isNegSign then -(size : ℤ) else size :=
      int16_of_natAbs_le (by split_ifs <;> omega)
    rw [h16]
    split_ifs
    · rw [Int.sign_neg, Int.sign_eq_one_of_pos (by omega)]
    · exact Int.sign_eq_one_of_pos (by omega)

theorem assign_wellFormed (big : Bigint) (isNegSign : Bool) {size exponent : ℕ}
    {ds : List UInt32} (hs : size ≤ INT16_MAX) (hd : size ≤ ds.length)
    (he : exponent ≤ UINT16_MAX) (hl : Leading (ds.take size)) (h0 : size = 0 → exponent = 0) :
    (big.assign isNegSign size exponent ds).WellFormed := by
  obtain ⟨hn, hv, hx⟩ := assign_spec big isNegSign hs hd he
  exact
    { nrdigits_le := hn.trans_le hs
      stored := by
        rw [hn]
        exact hd.trans (length_le_write big ds)
      exponent_le := hx.trans_le he
      leading := by rwa [hv]
      exponent_zero := fun h => by rw [hx, h0 (hn.symm.trans h)] }

/-- An object that stores the number `v`, negated if `isNegSign`. -/
def Represents (big : Bigint) (isNegSign : Bool) (v : ℤ) : Prop :=
  big.WellFormed ∧ big.value = (if isNegSign then -1 else 1) * v

theorem assign_represents (big : Bigint) (isNegSign : Bool) {size exponent : ℕ}
    {ds : List UInt32} {v : ℤ} (hs : size ≤ INT16_MAX) (hd : size ≤ ds.length)
    (he : exponent ≤ UINT16_MAX) (hl : Leading (ds.take size)) (hpos : 0 < size)
    (hv : number (ds.take size) * base ^ exponent = v) :
    (big.assign isNegSign size exponent ds).Represents isNegSign v :=
  ⟨assign_wellFormed big isNegSign hs hd he hl fun h => absurd h hpos.ne',
    by rw [assign_value big isNegSign hs hd he, hv]⟩

theorem Represents.not {big : Bigint} {isNegSign : Bool} {v : ℤ}
    (h : big.Represents (!isNegSign) v) : big.Represents isNegSign (-v) := by
  refine ⟨h.1, h.2.trans ?_⟩
  cases isNegSign <;> simp

/-! ## Copies -/

/-- Objects with the same fields, up to digits that are not in use. -/
structure Same (x y : Bigint) : Prop where
  sign : x.signAndUsedDigits = y.signAndUsedDigits
  exponent : x.exponent = y.exponent
  valid : x.valid = y.valid
  stored : y.nrdigits ≤ x.digits.length

theorem Same.value {x y : Bigint} (h : Same x y) : x.value = y.value := by
  rw [Bigint.value, Bigint.value, h.sign, h.exponent, h.valid]

theorem Same.magnitude {x y : Bigint} (h : Same x y) : x.magnitude = y.magnitude := by
  rw [Bigint.magnitude, Bigint.magnitude, h.exponent, h.valid]

theorem Same.wellFormed {x y : Bigint} (h : Same x y) (hy : y.WellFormed) : x.WellFormed where
  nrdigits_le := by
    rw [nrdigits, h.sign]
    exact hy.nrdigits_le
  stored := by
    rw [nrdigits, h.sign]
    exact h.stored
  exponent_le := h.exponent ▸ hy.exponent_le
  leading := h.valid ▸ hy.leading
  exponent_zero := by
    rw [nrdigits, h.sign, h.exponent]
    exact hy.exponent_zero

theorem copyBigint_same {big copyfrom new : Bigint} (hc : copyfrom.WellFormed)
    (h : copyBigint big copyfrom = .ok new) : Same new copyfrom := by
  obtain ⟨copy, _, rfl⟩ := map_eq_ok h
  have hlen := hc.length_valid
  refine ⟨rfl, rfl, ?_, hlen.ge.trans (length_le_write copy _)⟩
  change (copy.write copyfrom.valid).take copyfrom.nrdigits = _
  rw [take_write _ hlen.ge, ← hlen, List.take_length]

theorem represents_of_copyBigint {big copyfrom new : Bigint} (hc : copyfrom.WellFormed)
    (h : copyBigint big copyfrom = .ok new) :
    new.Represents copyfrom.isnegative copyfrom.magnitude := by
  have hs := copyBigint_same hc h
  refine ⟨hs.wellFormed hc, ?_⟩
  rw [hs.value, value_eq]
  split_ifs <;> ring

theorem setPu32Bigint_zero_represents (big : Bigint) (isNegSign : Bool) :
    (setPu32Bigint big 0).Represents isNegSign 0 := by
  refine ⟨clearBigint_wellFormed big, ?_⟩
  rw [mul_zero]
  exact clearBigint_value big

/-! ## Operands -/

/-- The local variables that a function keeps of one operand: a pointer into its digits with
their number, and the exponent of the first of them. -/
structure Operand where
  digits : List UInt32
  exponent : ℕ
  deriving Repr

namespace Operand

/-- The number of digits together with the zeros that the exponent stands for. -/
def order (x : Operand) : ℕ := x.exponent + x.digits.length

def value (x : Operand) : ℤ := number x.digits * base ^ x.exponent

/-- `while (nrdigits && 0 == digits[0]) { --nrdigits; ++digits; ++exp; }` -/
def skipTrailingZero : List UInt32 → ℕ → Operand
  | [], exp => ⟨[], exp⟩
  | d :: ds, exp => if d = 0 then skipTrailingZero ds (exp + 1) else ⟨d :: ds, exp⟩

theorem skipTrailingZero_cons (d : UInt32) (ds : List UInt32) (exp : ℕ) :
    skipTrailingZero (d :: ds) exp =
      if d = 0 then skipTrailingZero ds (exp + 1) else ⟨d :: ds, exp⟩ := rfl

theorem skipTrailingZero_value (ds : List UInt32) (exp : ℕ) :
    (skipTrailingZero ds exp).value = number ds * base ^ exp := by
  induction ds generalizing exp with
  | nil => rfl
  | cons d ds ih =>
    rw [skipTrailingZero_cons]
    split_ifs with hd
    · rw [ih, hd, number_cons, pow_succ]
      simp only [UInt32.toNat_zero, Nat.cast_zero]
      ring
    · rfl

theorem skipTrailingZero_order (ds : List UInt32) (exp : ℕ) :
    (skipTrailingZero ds exp).order = exp + ds.length := by
  induction ds generalizing exp with
  | nil => rfl
  | cons d ds ih =>
    rw [skipTrailingZero_cons]
    split_ifs
    · rw [ih, List.length_cons]
      omega
    · rfl

theorem le_skipTrailingZero_exponent (ds : List UInt32) (exp : ℕ) :
    exp ≤ (skipTrailingZero ds exp).exponent := by
  induction ds generalizing exp with
  | nil => exact le_rfl
  | cons d ds ih =>
    rw [skipTrailingZero_cons]
    split_ifs
    · exact (Nat.le_succ exp).trans (ih _)
    · exact le_rfl

theorem skipTrailingZero_suffix (ds : List UInt32) (exp : ℕ) :
    (skipTrailingZero ds exp).digits <:+ ds := by
  induction ds generalizing exp with
  | nil => exact List.suffix_rfl
  | cons d ds ih =>
    rw [skipTrailingZero_cons]
    split_ifs
    · exact (ih _).trans (List.suffix_cons d ds)
    · exact List.suffix_rfl

theorem skipTrailingZero_head (ds : List UInt32) (exp : ℕ) :
    (skipTrailingZero ds exp).digits.head? ≠ some 0 := by
  induction ds generalizing exp with
  | nil => exact (Option.some_ne_none _).symm
  | cons d ds ih =>
    rw [skipTrailingZero_cons]
    split_ifs with hd
    · exact ih _
    · simpa using hd

theorem skipTrailingZero_ne_nil {ds : List UInt32} (exp : ℕ) (h : Leading ds) (hne : ds ≠ []) :
    (skipTrailingZero ds exp).digits ≠ [] := by
  intro hnil
  have h1 := skipTrailingZero_value ds exp
  rw [value, hnil, number_nil, zero_mul] at h1
  exact (mul_pos (number_pos h hne) (base_pow_pos exp)).ne h1

theorem pow_order_le {x : Operand} (h : Leading x.digits) (hne : x.digits ≠ []) :
    base ^ (x.order - 1) ≤ x.value := by
  have hpos := List.length_pos_iff.mpr hne
  have hpow : base ^ (x.order - 1) = base ^ (x.digits.length - 1) * base ^ x.exponent := by
    rw [order, ← pow_add]
    congr 1
    omega
  rw [hpow, value]
  exact mul_le_mul_of_nonneg_right (pow_le_number h hne) (base_pow_pos _).le

theorem value_lt_pow_order (x : Operand) : x.value < base ^ x.order := by
  rw [order, add_comm, pow_add]
  exact mul_lt_mul_of_pos_right (number_lt _) (base_pow_pos _)

theorem value_nonneg (x : Operand) : 0 ≤ x.value :=
  mul_nonneg (number_nonneg _) (base_pow_pos _).le

theorem pow_dvd_value_iff {x : Operand} (hhead : x.digits.head? ≠ some 0) (hne : x.digits ≠ [])
    (n : ℕ) : base ^ n ∣ x.value ↔ n ≤ x.exponent := by
  refine ⟨fun h => ?_, fun h => (pow_dvd_pow base h).mul_left _⟩
  by_contra hlt
  obtain ⟨d, ds, hds⟩ := List.exists_cons_of_ne_nil hne
  have hd : d.toNat ≠ 0 := fun h0 => hhead (by
    rw [hds, UInt32.toNat_inj.mp (h0.trans UInt32.toNat_zero.symm)]
    rfl)
  have h1 : base * base ^ x.exponent ∣ number x.digits * base ^ x.exponent := by
    rw [← pow_succ']
    exact (pow_dvd_pow base (not_le.mp hlt)).trans h
  have h2 : base ∣ number x.digits := Int.dvd_of_mul_dvd_mul_right (base_pow_pos _).ne' h1
  rw [hds, number_cons, dvd_add_left (dvd_mul_right _ _)] at h2
  have h3 := Int.le_of_dvd (by omega) h2
  have h4 := toNat_add_one_le d
  omega

end Operand

/-- An operand as the functions read it: without its trailing zeros. -/
def operand (big : Bigint) : Operand := Operand.skipTrailingZero big.valid big.exponent

theorem operand_value (big : Bigint) : big.operand.value = big.magnitude :=
  Operand.skipTrailingZero_value _ _

theorem WellFormed.operand_leading {big : Bigint} (h : big.WellFormed) :
    Leading big.operand.digits :=
  h.leading.of_suffix (Operand.skipTrailingZero_suffix _ _)

theorem operand_order (big : Bigint) :
    big.operand.order = big.exponent + big.valid.length :=
  Operand.skipTrailingZero_order _ _

theorem operand_head (big : Bigint) : big.operand.digits.head? ≠ some 0 :=
  Operand.skipTrailingZero_head _ _

theorem WellFormed.operand_eq_nil {big : Bigint} (h : big.WellFormed) :
    big.operand.digits = [] ↔ big.nrdigits = 0 := by
  refine ⟨fun hnil => ?_, fun h0 => ?_⟩
  · by_contra h0
    exact Operand.skipTrailingZero_ne_nil _ h.leading (h.valid_ne_nil h0) hnil
  · rw [operand, valid, h0, List.take_zero]
    rfl

theorem magnitude_eq_zero {big : Bigint} (h : big.nrdigits = 0) :
    big.magnitude = 0 := by
  rw [magnitude, valid, h, List.take_zero, number_nil, zero_mul]

theorem isnegative_of_nrdigits {big : Bigint} (h : big.nrdigits = 0) : big.isnegative = false := by
  rw [nrdigits, Int.natAbs_eq_zero] at h
  rw [isnegative, h]
  rfl

/-! ## A change of the sign -/

theorem represents_of_sign {big : Bigint} (h : big.WellFormed) (isNegSign : Bool) {z : ℤ}
    (hz : z = if isNegSign then -(big.nrdigits : ℤ) else big.nrdigits) :
    ({ big with signAndUsedDigits := z } : Bigint).Represents isNegSign big.magnitude := by
  have hn : ({ big with signAndUsedDigits := z } : Bigint).nrdigits = big.nrdigits := by
    change z.natAbs = _
    rw [hz]
    split_ifs <;> omega
  have hv : ({ big with signAndUsedDigits := z } : Bigint).valid = big.valid := by
    rw [valid, hn]
    rfl
  refine ⟨⟨hn.trans_le h.nrdigits_le, hn.trans_le h.stored, h.exponent_le, by rw [hv]; exact h.leading,
    fun h0 => h.exponent_zero (hn ▸ h0)⟩, ?_⟩
  rw [value, hv]
  change z.sign * big.magnitude = _
  rcases Nat.eq_zero_or_pos big.nrdigits with h0 | hpos
  · rw [magnitude_eq_zero h0, mul_zero, mul_zero]
  · rw [hz]
    split_ifs
    · rw [Int.sign_neg, Int.sign_eq_one_of_pos (by omega)]
    · rw [Int.sign_eq_one_of_pos (by omega)]

theorem WellFormed.int16_natAbs {big : Bigint} (h : big.WellFormed) {z : ℤ}
    (hz : z.natAbs = big.nrdigits) : int16 z = z :=
  int16_of_natAbs_le (hz.trans_le h.nrdigits_le)

theorem setpositiveBigint_represents {big : Bigint} (h : big.WellFormed) :
    (setpositiveBigint big).Represents false big.magnitude := by
  refine represents_of_sign h false ?_
  rw [h.int16_natAbs (by rw [nrdigits]; split_ifs <;> omega), nrdigits]
  simp only [Bool.false_eq_true, if_false]
  split_ifs <;> omega

theorem setnegativeBigint_represents {big : Bigint} (h : big.WellFormed) :
    (setnegativeBigint big).Represents true big.magnitude := by
  refine represents_of_sign h true ?_
  rw [h.int16_natAbs (by rw [nrdigits]; split_ifs <;> omega), nrdigits]
  simp only [if_true]
  split_ifs <;> omega

end Bigint
end CKern
