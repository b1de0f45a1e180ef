import Mathlib.Data.List.GetD
import CKern.Math.Float.Decimal.Basic

/-!
# `math/float/decimal.c`: `add_decimal` and `sub_decimal`

Both helpers skip the trailing zero digits of the operands and align them by their exponents.  What
lies below the operand of the higher exponent is the trail; then come the digits that both operands
have, then the leading digits of the bigger one.

* `addDigits`, `subDigits`: the loops after the trail, which hand a carry from one segment to the
  next.
* `addTrail`, `subTrail`: the trail; the one of a difference is inverted and starts a borrow.
* `compareTop`: drops the leading digits that both operands of a difference share.
* `addDecimal_subDecimal_exact_iff`: the results are well formed and exact if and only if the
  exponent of the lowest digit that is not zero fits into the field that it is stored in.
-/

namespace CKern
namespace Decimal

open Positional

/-! ## The loops over the digits -/

/-- One digit of the overlapping part of a sum. -/
def addDigit (carry : Bool) (d : ℕ × ℕ) : ℕ × Bool :=
  let sum := d.1 + d.2 + carry.toNat
  let carry := decide (DIGITSBASE ≤ sum)
  (sum - DIGITSBASE * carry.toNat, carry)

/-- One digit of the leading part of a sum: it is copied when there is no carry any more. -/
def leadDigit (carry : Bool) (d : ℕ) : ℕ × Bool :=
  if carry then
    let sum := d + carry.toNat
    let carry := decide (DIGITSBASE ≤ sum)
    (sum - DIGITSBASE * carry.toNat, carry)
  else (d, false)

/-- One digit of the overlapping part of a difference. -/
def subDigit (carry : Bool) (d : ℕ × ℕ) : ℕ × Bool :=
  let diff : ℤ := d.1 - d.2 - carry.toNat
  let carry := decide (diff < 0)
  ((diff + DIGITSBASE * carry.toNat).toNat, carry)

/-- One digit of the leading part of a difference. -/
def borrowDigit (carry : Bool) (d : ℕ) : ℕ × Bool :=
  if carry then
    -- `diff - 1 + DIGITSBASE` for the digit zero, computed modulo `2^32`
    let carry2 := decide (d = 0)
    (if carry2 then DIGITSBASE - 1 else d - 1, carry2)
  else (d, false)

/-- The overlapping part and the leading part of a sum, from the lowest digit of the smaller
operand on. -/
def addDigits (ldigits rdigits : List ℕ) : List ℕ × Bool :=
  let overlap := chain addDigit false (ldigits.zip rdigits)
  let lead := chain leadDigit overlap.2 (ldigits.drop rdigits.length)
  (overlap.1 ++ lead.1, lead.2)

/-- The overlapping part and the leading part of a difference. -/
def subDigits (carry : Bool) (ldigits rdigits : List ℕ) : List ℕ × Bool :=
  let overlap := chain subDigit carry (ldigits.zip rdigits)
  let lead := chain borrowDigit overlap.2 (ldigits.drop rdigits.length)
  (overlap.1 ++ lead.1, lead.2)

theorem addDigit_value (carry : Bool) (d : ℕ × ℕ) :
    ((addDigit carry d).1 : ℤ) + base * (addDigit carry d).2.toNat =
      (d.1 : ℤ) + d.2 + carry.toNat := by
  unfold addDigit
  rw [base_eq]
  by_cases h : DIGITSBASE ≤ d.1 + d.2 + carry.toNat
  · simp only [h, decide_true, Bool.toNat_true, mul_one]
    rw [Nat.cast_sub h]
    push_cast
    ring
  · simp [h]

theorem addDigit_lt (carry : Bool) (d : ℕ × ℕ) (h : d.1 < DIGITSBASE ∧ d.2 < DIGITSBASE) :
    (addDigit carry d).1 < DIGITSBASE := by
  have hc := carry.toNat_le
  unfold addDigit
  by_cases hs : DIGITSBASE ≤ d.1 + d.2 + carry.toNat
  · simp only [hs, decide_true, Bool.toNat_true, mul_one]
    omega
  · simp only [hs, decide_false, Bool.toNat_false, mul_zero]
    omega

theorem leadDigit_value (carry : Bool) (d : ℕ) :
    ((leadDigit carry d).1 : ℤ) + base * (leadDigit carry d).2.toNat =
      (d : ℤ) + carry.toNat := by
  cases carry with
  | false => simp [leadDigit]
  | true =>
    have h := addDigit_value true (d, 0)
    simpa [addDigit, leadDigit] using h

theorem leadDigit_lt (carry : Bool) (d : ℕ) (h : d < DIGITSBASE) :
    (leadDigit carry d).1 < DIGITSBASE := by
  cases carry with
  | false => exact h
  | true =>
    have := addDigit_lt true (d, 0) ⟨h, by norm_num⟩
    simpa [addDigit, leadDigit] using this

theorem subDigit_value (carry : Bool) (d : ℕ × ℕ) (h : d.1 < DIGITSBASE ∧ d.2 < DIGITSBASE) :
    ((subDigit carry d).1 : ℤ) + base * -((subDigit carry d).2.toNat : ℤ) =
      (d.1 : ℤ) - d.2 + -(carry.toNat : ℤ) := by
  have hc := carry.toNat_le
  have hbase : DIGITSBASE = 1000000000 := rfl
  obtain ⟨h1, h2⟩ := h
  unfold subDigit
  rw [base_eq]
  by_cases hd : (d.1 : ℤ) - d.2 - carry.toNat < 0
  · simp only [hd, decide_true, Bool.toNat_true, Nat.cast_one, mul_one]
    omega
  · simp only [hd, decide_false, Bool.toNat_false, Nat.cast_zero, mul_zero]
    omega

theorem subDigit_lt (carry : Bool) (d : ℕ × ℕ) (h : d.1 < DIGITSBASE ∧ d.2 < DIGITSBASE) :
    (subDigit carry d).1 < DIGITSBASE := by
  obtain ⟨h1, h2⟩ := h
  unfold subDigit
  by_cases hd : (d.1 : ℤ) - d.2 - carry.toNat < 0
  · simp only [hd, decide_true, Bool.toNat_true, Nat.cast_one, mul_one]
    omega
  · simp only [hd, decide_false, Bool.toNat_false, Nat.cast_zero, mul_zero]
    omega

theorem borrowDigit_value (carry : Bool) (d : ℕ) :
    ((borrowDigit carry d).1 : ℤ) + base * -((borrowDigit carry d).2.toNat : ℤ) =
      (d : ℤ) + -(carry.toNat : ℤ) := by
  rw [base_eq]
  cases carry with
  | false => simp [borrowDigit]
  | true =>
    unfold borrowDigit
    by_cases h : d = 0
    · simp [h]
    · simp only [h, decide_false, if_true, Bool.false_eq_true, if_false, Bool.toNat_false,
        Bool.toNat_true]
      omega

theorem borrowDigit_lt (carry : Bool) (d : ℕ) (h : d < DIGITSBASE) :
    (borrowDigit carry d).1 < DIGITSBASE := by
  unfold borrowDigit
  dsimp only
  split_ifs <;> dsimp only <;> omega

theorem addDigits_length {ldigits rdigits : List ℕ} (h : rdigits.length ≤ ldigits.length) :
    (addDigits ldigits rdigits).1.length = ldigits.length := by
  simp only [addDigits, List.length_append, length_chain, List.length_zip, List.length_drop]
  omega

theorem subDigits_length (carry : Bool) {ldigits rdigits : List ℕ}
    (h : rdigits.length ≤ ldigits.length) :
    (subDigits carry ldigits rdigits).1.length = ldigits.length := by
  simp only [subDigits, List.length_append, length_chain, List.length_zip, List.length_drop]
  omega

theorem digits_zip {xs ys : List ℕ} (hx : Digits xs) (hy : Digits ys) :
    ∀ d ∈ xs.zip ys, d.1 < DIGITSBASE ∧ d.2 < DIGITSBASE := by
  intro d hd
  obtain ⟨h1, h2⟩ := List.of_mem_zip hd
  exact ⟨hx _ h1, hy _ h2⟩

theorem addDigits_digits {ldigits rdigits : List ℕ} (hl : Digits ldigits) (hr : Digits rdigits) :
    Digits (addDigits ldigits rdigits).1 :=
  digits_append.mpr ⟨chain_forall _ addDigit_lt _ (digits_zip hl hr),
    chain_forall _ leadDigit_lt _ (hl.drop _)⟩

theorem subDigits_digits (carry : Bool) {ldigits rdigits : List ℕ} (hl : Digits ldigits)
    (hr : Digits rdigits) : Digits (subDigits carry ldigits rdigits).1 :=
  digits_append.mpr ⟨chain_forall _ subDigit_lt _ (digits_zip hl hr),
    chain_forall _ borrowDigit_lt _ (hl.drop _)⟩

theorem number_zip {F : ℕ × ℕ → ℤ} {s : ℤ} (hF : ∀ d, F d = d.1 + s * d.2)
    {ldigits rdigits : List ℕ} (h : rdigits.length ≤ ldigits.length) :
    eval base F (ldigits.zip rdigits) =
      number (ldigits.take rdigits.length) + s * number rdigits := by
  have hlen : (ldigits.take rdigits.length).length = rdigits.length := by simp [h]
  have hzip : ldigits.zip rdigits = (ldigits.take rdigits.length).zip rdigits := by
    rw [List.zip_eq_zip_take_min, min_eq_right h, List.take_length]
  rw [hzip, number, number, ← eval_mul_left, ← eval_zip_add _ _ _ hlen]
  exact congrArg (eval base · _) (funext hF)

theorem addDigits_value {ldigits rdigits : List ℕ} (h : rdigits.length ≤ ldigits.length) :
    number (addDigits ldigits rdigits).1 +
        base ^ ldigits.length * (addDigits ldigits rdigits).2.toNat =
      number ldigits + number rdigits := by
  have hseam := chain_eval_seam addDigit leadDigit (b := base) (g := fun d : ℕ => (d : ℤ))
    (f := fun d => (d.1 : ℤ) + d.2) (v := fun c => (c.toNat : ℤ)) addDigit_value
    leadDigit_value false (ldigits.zip rdigits) (ldigits.drop rdigits.length)
  have hsplit := number_take_add_drop h
  rw [number_zip (s := 1) (fun d => by ring) h, List.length_zip, min_eq_right h,
    List.length_drop, Nat.add_sub_cancel' h] at hseam
  rw [← hsplit]
  simp only [Bool.toNat_false, Nat.cast_zero] at hseam
  rw [addDigits]
  simp only [number] at *
  linear_combination hseam

theorem subDigits_value (carry : Bool) {ldigits rdigits : List ℕ} (hl : Digits ldigits)
    (hr : Digits rdigits) (h : rdigits.length ≤ ldigits.length) :
    number (subDigits carry ldigits rdigits).1 -
        base ^ ldigits.length * (subDigits carry ldigits rdigits).2.toNat =
      number ldigits - number rdigits - carry.toNat := by
  have hoverlap := chain_eval_of_forall subDigit (b := base) (g := fun d : ℕ => (d : ℤ))
    (f := fun d => (d.1 : ℤ) - d.2) (v := fun c => -(c.toNat : ℤ)) (I := fun _ => True)
    (fun _ _ _ _ => True.intro) (fun c d _ => subDigit_value c d) (c := carry) True.intro
    (digits_zip hl hr)
  have hlead := chain_eval' borrowDigit (b := base) (g := fun d : ℕ => (d : ℤ))
    (f := fun d : ℕ => (d : ℤ)) (v := fun c => -(c.toNat : ℤ)) borrowDigit_value
    (chain subDigit carry (ldigits.zip rdigits)).2 (ldigits.drop rdigits.length)
  have hsplit := number_take_add_drop h
  have hlen : ldigits.length = rdigits.length + (ldigits.length - rdigits.length) := by omega
  rw [number_zip (s := -1) (fun d => by ring) h, List.length_zip, min_eq_right h] at hoverlap
  rw [List.length_drop] at hlead
  have hpow : base ^ ldigits.length =
      base ^ rdigits.length * base ^ (ldigits.length - rdigits.length) := by
    rw [← pow_add, ← hlen]
  rw [← hsplit, subDigits, number_append, length_chain, List.length_zip, min_eq_right h, hpow]
  simp only [number] at *
  linear_combination hoverlap + base ^ rdigits.length * hlead

/-! ## The trail of a sum -/

/-- What is left to do after the trail: the digits written, and the operands' other digits. -/
structure Trail where
  written : List ℕ
  carry : Bool
  ldigits : List ℕ
  rdigits : List ℕ

/-- The trail of `add_decimalhelper`: a copy of the digits below the other operand, filled with
zeros if the operands do not overlap. -/
def addTrail (l r : Operand) : Trail :=
  let expdiff := l.exponent - r.exponent
  if expdiff < 0 then
    ⟨l.digits.take (-expdiff).toNat, false, l.digits.drop (-expdiff).toNat, r.digits⟩
  else if r.digits.length < expdiff.toNat then
    ⟨r.digits ++ List.replicate (expdiff.toNat - r.digits.length) 0, false, l.digits, []⟩
  else ⟨r.digits.take expdiff.toNat, false, l.digits, r.digits.drop expdiff.toNat⟩

/-- What a trail must provide: it lies between the two exponents, what is left of the right
operand is not longer than what is left of the left one, all digits are digits, and nothing of the
value `v` is lost. -/
structure Trail.Splits (t : Trail) (l r : Operand) (s v : ℤ) : Prop where
  length_le : t.rdigits.length ≤ t.ldigits.length
  length_add : (t.written.length + t.ldigits.length : ℤ) = l.order - min l.exponent r.exponent
  written : Digits t.written
  ldigits : Digits t.ldigits
  rdigits : Digits t.rdigits
  value_eq : number t.written + base ^ t.written.length *
    (number t.ldigits + s * (number t.rdigits + t.carry.toNat)) = v

theorem Operand.length_of_order_le {l r : Operand} (h : r.order ≤ l.order)
    (he : l.exponent ≤ r.exponent) :
    (r.exponent - l.exponent).toNat + r.digits.length ≤ l.digits.length := by
  rw [order, order] at h
  omega

theorem Operand.valueAt_self (x : Operand) : x.valueAt x.exponent = number x.digits := by
  rw [valueAt, sub_self, Int.toNat_zero, pow_zero, mul_one]

theorem addTrail_splits {l r : Operand} (h : r.order ≤ l.order) (hl : Digits l.digits)
    (hr : Digits r.digits) :
    (addTrail l r).Splits l r 1
      (l.valueAt (min l.exponent r.exponent) + r.valueAt (min l.exponent r.exponent)) := by
  rw [addTrail]
  split_ifs with he hrl
  · have he' : l.exponent ≤ r.exponent := by omega
    have hlen := Operand.length_of_order_le h he'
    rw [neg_sub]
    have hsplit := number_take_add_drop
      (show (r.exponent - l.exponent).toNat ≤ l.digits.length by omega)
    refine ⟨?_, ?_, hl.take _, hl.drop _, hr, ?_⟩ <;> dsimp only
    · rw [List.length_drop]
      omega
    · rw [List.length_take, List.length_drop, Operand.order]
      omega
    · rw [min_eq_left he', Operand.valueAt_self, Operand.valueAt, ← hsplit, List.length_take,
        min_eq_left (by omega), Bool.toNat_false]
      push_cast
      ring
  · have he' : r.exponent ≤ l.exponent := by omega
    refine ⟨Nat.zero_le _, ?_, digits_append.mpr ⟨hr, digits_replicate (by norm_num) _⟩, hl,
      Digits.nil, ?_⟩ <;> dsimp only
    · rw [List.length_append, List.length_replicate, Operand.order]
      omega
    · rw [min_eq_right he', Operand.valueAt_self, Operand.valueAt, number_append,
        number_replicate_zero, List.length_append, List.length_replicate,
        Nat.add_sub_cancel' hrl.le, Bool.toNat_false, number_nil]
      push_cast
      ring
  · have he' : r.exponent ≤ l.exponent := by omega
    have hsplit := number_take_add_drop (not_lt.mp hrl)
    refine ⟨?_, ?_, hr.take _, hl, hr.drop _, ?_⟩ <;> dsimp only
    · rw [Operand.order, Operand.order] at h
      rw [List.length_drop]
      omega
    · rw [List.length_take, Operand.order]
      omega
    · rw [min_eq_right he', Operand.valueAt_self, Operand.valueAt, ← hsplit, List.length_take,
        min_eq_left (not_lt.mp hrl), Bool.toNat_false]
      push_cast
      ring

theorem addTrail_carry (l r : Operand) : (addTrail l r).carry = false := by
  unfold addTrail
  dsimp only
  split_ifs <;> rfl

/-! ## `add_decimalhelper` -/

/-- The part of `add_decimalhelper` behind the swap: `l` has the higher order. -/
def addOrdered (result : Decimal) (isNegSign : Bool) (l r : Operand) : Except Errno Decimal :=
  let size := l.digits.length + 1 + (l.exponent - r.exponent).toNat
  (allocateDecimalhelper result size).map fun result =>
    let trail := addTrail l r
    let sum := addDigits trail.ldigits trail.rdigits
    result.assign isNegSign (size - if sum.2 then 0 else 1) (min l.exponent r.exponent)
      (trail.written ++ sum.1 ++ [sum.2.toNat])

/-- `add_decimalhelper`. -/
def addDecimalhelper (result ldec rdec : Decimal) : Except Errno Decimal :=
  let l := ldec.operand
  let r := rdec.operand
  if r.digits = [] then copyDecimal result ldec
  else if l.digits = [] then (copyDecimal result rdec).map setpositiveDecimal
  -- the number of the higher order becomes the left one
  else if l.order < r.order then addOrdered result ldec.isnegativeDecimal r l
  else addOrdered result ldec.isnegativeDecimal l r

/-- How `assign` ends a sum or a difference: the stored exponent stands for `exponent` modulo
`2^16`, and everything else is as it should be. -/
structure Stored (new : Decimal) (isNegSign : Bool) (exponent n : ℤ) : Prop where
  pos : 0 < n
  exponent_eq : new.exponent = int16 exponent
  exact : exponent ≤ INT16_MAX → new.Represents isNegSign (n * (base : ℚ) ^ exponent)
  wraps : new.value = (if isNegSign then -1 else 1) * (n * (base : ℚ) ^ int16 exponent)

theorem assign_stored (dec : Decimal) (isNegSign : Bool) {size : ℕ} {exponent : ℤ} {ds : List ℕ}
    {n : ℤ} (hs : size ≤ 0x7f) (hd : size ≤ ds.length) (he : -32768 ≤ exponent)
    (hdigits : Digits (ds.take size)) (hl : Leading (ds.take size)) (hn : 0 < n)
    (hv : number (ds.take size) = n) :
    (dec.assign isNegSign size exponent ds).Stored isNegSign exponent n := by
  have hpos : 0 < size := by
    by_contra h0
    rw [Nat.eq_zero_of_not_pos h0, List.take_zero, number_nil] at hv
    omega
  refine ⟨hn, rfl, fun he' => ?_, ?_⟩
  · exact assign_represents dec isNegSign hs hd he he' hdigits hl hpos (by rw [hv])
  · rw [assign_value dec isNegSign exponent hs hd, hv]

theorem assign_carry_stored (dec : Decimal) (isNegSign carry : Bool) {size : ℕ} {exponent : ℤ}
    {ds : List ℕ} {n : ℤ} (hsize : size = ds.length + 1) (hs : size ≤ 0x7f)
    (he : -32768 ≤ exponent) (hdigits : Digits ds)
    (hv : number ds + base ^ ds.length * carry.toNat = n) (hlow : base ^ (ds.length - 1) ≤ n) :
    (dec.assign isNegSign (size - if carry then 0 else 1) exponent
      (ds ++ [carry.toNat])).Stored isNegSign exponent n := by
  have hn := (base_pow_pos _).trans_le hlow
  subst hsize
  cases carry with
  | false =>
    have htake : (ds ++ [false.toNat]).take ds.length = ds := List.take_left
    rw [Bool.toNat_false, Nat.cast_zero, mul_zero, add_zero] at hv
    simp only [Bool.false_eq_true, if_false, Nat.add_sub_cancel]
    refine assign_stored dec isNegSign (by omega) (by simp) he ?_ ?_ hn ?_
    · rwa [htake]
    · rw [htake]
      exact leading_of_pow_le hdigits (hv ▸ hlow)
    · rwa [htake]
  | true =>
    have htake : (ds ++ [true.toNat]).take (ds.length + 1) = ds ++ [true.toNat] :=
      List.take_of_length_le (by simp)
    simp only [if_true, Nat.sub_zero]
    refine assign_stored dec isNegSign hs (by simp) he ?_ ?_ hn ?_
    · rw [htake]
      exact digits_append.mpr ⟨hdigits, digits_cons.mpr ⟨by norm_num, Digits.nil⟩⟩
    · rw [htake]
      exact Leading.append_left (by decide) (List.cons_ne_nil _ _)
    · rw [htake, number_append, ← hv, number_cons, number_nil, mul_zero, add_zero]

theorem addOrdered_stored {result new : Decimal} {isNegSign : Bool} {l r : Operand}
    (h : r.order ≤ l.order) (hl : Leading l.digits) (hne : l.digits ≠ []) (hld : Digits l.digits)
    (hrd : Digits r.digits) (he : -32768 ≤ min l.exponent r.exponent)
    (hnew : addOrdered result isNegSign l r = .ok new) :
    new.Stored isNegSign (min l.exponent r.exponent)
      (l.valueAt (min l.exponent r.exponent) + r.valueAt (min l.exponent r.exponent)) := by
  obtain ⟨dec, hres, rfl⟩ := Bigint.map_eq_ok hnew
  have hsize := allocateDecimalhelper_le hres
  obtain ⟨hle, hlen, hw, hl', hr', hval⟩ := addTrail_splits h hld hrd
  have hadd := addDigits_value hle
  have hlen' := addDigits_length hle
  have hpos := List.length_pos_iff.mpr hne
  have hn : ((addTrail l r).written ++
      (addDigits (addTrail l r).ldigits (addTrail l r).rdigits).1).length =
        l.digits.length + (l.exponent - r.exponent).toNat := by
    rw [List.length_append, hlen']
    rw [Operand.order] at hlen
    omega
  refine assign_carry_stored dec isNegSign _ (by omega) hsize he
    (digits_append.mpr ⟨hw, addDigits_digits hl' hr'⟩) ?_ ?_
  · rw [← hval, number_append, List.length_append, hlen', pow_add, addTrail_carry,
      Bool.toNat_false]
    push_cast
    linear_combination base ^ (addTrail l r).written.length * hadd
  · have hexp : l.digits.length + (l.exponent - r.exponent).toNat - 1 =
        (l.order - 1 - min l.exponent r.exponent).toNat := by
      rw [Operand.order]
      omega
    rw [hn, hexp]
    linarith [Operand.pow_order_le (min_le_left l.exponent r.exponent) hl hne,
      Operand.valueAt_nonneg (min l.exponent r.exponent) r]

/-! ## The trail of a difference -/

/-- The trail of `sub_decimalhelper`: a copy of the digits of `l` below `r`, or the digits of `r`
below `l`, inverted.  The lowest of them is not zero, so its complement needs no carry; the
inversion starts the borrow. -/
def subTrail (l r : Operand) : Trail :=
  let expdiff := l.exponent - r.exponent
  if expdiff < 0 then
    ⟨l.digits.take (-expdiff).toNat, false, l.digits.drop (-expdiff).toNat, r.digits⟩
  else if 0 < expdiff then
    let first := DIGITSBASE - r.digits.headD 0
    if r.digits.length < expdiff.toNat then
      ⟨first :: (r.digits.tail.map (DIGITSBASE - 1 - ·) ++
        List.replicate (expdiff.toNat - r.digits.length) (DIGITSBASE - 1)), true, l.digits, []⟩
    else
      ⟨first :: (r.digits.tail.take (expdiff.toNat - 1)).map (DIGITSBASE - 1 - ·), true,
        l.digits, r.digits.drop expdiff.toNat⟩
  else ⟨[], false, l.digits, r.digits⟩

theorem digits_map_invert (ds : List ℕ) : Digits (ds.map (DIGITSBASE - 1 - ·)) := by
  intro d hd
  obtain ⟨x, -, rfl⟩ := List.mem_map.mp hd
  exact (Nat.sub_le _ _).trans_lt (by norm_num)

theorem number_map_invert {ds : List ℕ} (h : Digits ds) :
    number (ds.map (DIGITSBASE - 1 - ·)) = base ^ ds.length - 1 - number ds := by
  induction ds with
  | nil => simp
  | cons d ds ih =>
    obtain ⟨hd, hds⟩ := digits_cons.mp h
    have hcast : ((DIGITSBASE - 1 - d : ℕ) : ℤ) = base - 1 - d := by
      rw [base_eq, DIGITSBASE] at *
      omega
    rw [List.map_cons, number_cons, ih hds, hcast, number_cons, List.length_cons]
    ring

theorem number_replicate_max (n : ℕ) :
    number (List.replicate n (DIGITSBASE - 1)) = base ^ n - 1 := by
  have h := number_map_invert (digits_replicate (show 0 < DIGITSBASE by norm_num) n)
  rw [List.map_replicate, number_replicate_zero, List.length_replicate, Int.sub_zero] at h
  exact h

theorem number_invert {d : ℕ} {ds : List ℕ} (h : Digits (d :: ds)) :
    number ((DIGITSBASE - d) :: ds.map (DIGITSBASE - 1 - ·)) =
      base ^ (ds.length + 1) - number (d :: ds) := by
  obtain ⟨hd, hds⟩ := digits_cons.mp h
  have hcast : ((DIGITSBASE - d : ℕ) : ℤ) = base - d := by
    rw [base_eq, DIGITSBASE] at *
    omega
  rw [number_cons, number_map_invert hds, hcast, number_cons]
  ring

theorem number_invert_append {d : ℕ} {ds : List ℕ} (h : Digits (d :: ds)) (n : ℕ) :
    number ((DIGITSBASE - d) ::
        (ds.map (DIGITSBASE - 1 - ·) ++ List.replicate n (DIGITSBASE - 1))) =
      base ^ (ds.length + 1 + n) - number (d :: ds) := by
  rw [← List.cons_append, number_append, number_invert h, number_replicate_max, List.length_cons,
    List.length_map, pow_add]
  ring

theorem subTrail_splits {l r : Operand} (h : r.order ≤ l.order)
    (hr : r.exponent < l.exponent → r.digits ≠ []) (hhead : r.digits.head? ≠ some 0)
    (hld : Digits l.digits) (hrd : Digits r.digits) :
    (subTrail l r).Splits l r (-1)
      (l.valueAt (min l.exponent r.exponent) - r.valueAt (min l.exponent r.exponent)) := by
  have hbase : DIGITSBASE = 1000000000 := rfl
  rw [subTrail]
  split_ifs with he he' hlen
  · have he' : l.exponent ≤ r.exponent := by omega
    have hlen := Operand.length_of_order_le h he'
    rw [neg_sub]
    have hsplit := number_take_add_drop
      (show (r.exponent - l.exponent).toNat ≤ l.digits.length by omega)
    refine ⟨?_, ?_, hld.take _, hld.drop _, hrd, ?_⟩ <;> dsimp only
    · rw [List.length_drop]
      omega
    · rw [List.length_take, List.length_drop, Operand.order]
      omega
    · rw [min_eq_left he', Operand.valueAt_self, Operand.valueAt, ← hsplit, List.length_take,
        min_eq_left (by omega), Bool.toNat_false]
      push_cast
      ring
  · obtain ⟨d, ds, hds⟩ := List.exists_cons_of_ne_nil (hr (by omega))
    have hd : d ≠ 0 := by
      rintro rfl
      exact hhead (by rw [hds]; rfl)
    have hmin : min l.exponent r.exponent = r.exponent := min_eq_right (by omega)
    obtain ⟨k, hk⟩ : ∃ k, (l.exponent - r.exponent).toNat = ds.length + 1 + k := by
      refine ⟨(l.exponent - r.exponent).toNat - (ds.length + 1), ?_⟩
      rw [hds, List.length_cons] at hlen
      omega
    rw [hds] at hrd
    rw [hds, List.headD_cons, List.tail_cons, hk, List.length_cons, Nat.add_sub_cancel_left]
    refine ⟨Nat.zero_le _, ?_, ?_, hld, Digits.nil, ?_⟩ <;> dsimp only
    · rw [List.length_cons, List.length_append, List.length_map, List.length_replicate,
        Operand.order, hmin]
      omega
    · refine digits_cons.mpr ⟨by omega, digits_append.mpr ⟨digits_map_invert ds, ?_⟩⟩
      exact digits_replicate (by norm_num) k
    · rw [hmin, Operand.valueAt_self, Operand.valueAt, hk, number_invert_append hrd, hds,
        number_nil, Bool.toNat_true, List.length_cons, List.length_append, List.length_map,
        List.length_replicate, show ds.length + k + 1 = ds.length + 1 + k by omega]
      push_cast
      ring
  · obtain ⟨d, ds, hds⟩ := List.exists_cons_of_ne_nil (hr (by omega))
    have hd : d ≠ 0 := by
      rintro rfl
      exact hhead (by rw [hds]; rfl)
    have hmin : min l.exponent r.exponent = r.exponent := min_eq_right (by omega)
    obtain ⟨k, hk⟩ : ∃ k, (l.exponent - r.exponent).toNat = k + 1 :=
      ⟨(l.exponent - r.exponent).toNat - 1, by omega⟩
    have hdl : k ≤ ds.length := by
      rw [hds, List.length_cons] at hlen
      omega
    have hrd' : Digits (d :: ds.take k) := by
      rw [hds] at hrd
      exact digits_cons.mpr ⟨(digits_cons.mp hrd).1, (digits_cons.mp hrd).2.take k⟩
    rw [hk, Nat.add_sub_cancel]
    refine ⟨?_, ?_, ?_, hld, hrd.drop _, ?_⟩ <;> dsimp only
    · rw [Operand.order, Operand.order] at h
      rw [List.length_drop]
      omega
    · rw [hds, List.tail_cons, List.length_cons, List.length_map, List.length_take,
        min_eq_left hdl, Operand.order]
      omega
    · rw [hds, List.headD_cons]
      exact digits_cons.mpr ⟨by omega, digits_map_invert _⟩
    · have hsplit := number_take_add_drop hdl
      have hinv := number_invert hrd'
      rw [List.length_take, min_eq_left hdl] at hinv
      rw [hmin, Operand.valueAt_self, Operand.valueAt, hk, hds, List.headD_cons, List.tail_cons,
        List.drop_succ_cons, hinv, List.length_cons, List.length_map, List.length_take,
        min_eq_left hdl, number_cons, number_cons, ← hsplit, Bool.toNat_true]
      push_cast
      ring
  · have hee : l.exponent = r.exponent := by omega
    refine ⟨?_, ?_, Digits.nil, hld, hrd, ?_⟩ <;> dsimp only
    · rw [Operand.order, Operand.order] at h
      omega
    · rw [Operand.order, List.length_nil]
      omega
    · rw [hee, min_self, Operand.valueAt_self, ← hee, Operand.valueAt_self, Bool.toNat_false,
        number_nil, List.length_nil]
      push_cast
      ring

/-! ## The leading digits of a difference -/

/-- The loop that compares two operands of the same order from the top: which of them is the
smaller one, and how many digits of each are left when the equal ones are dropped.  `none` means
that the operands are equal. -/
def compareTop (ldigits rdigits : List ℕ) (lsize rsize : ℕ) : ℕ → Option (Bool × ℕ × ℕ)
  | 0 =>
    let isSwap := decide (rsize ≠ 0)
    if isSwap ∨ lsize ≠ 0 then some (isSwap, lsize, rsize) else none
  | minsize + 1 =>
    if ldigits.getD (lsize + minsize) 0 ≠ rdigits.getD (rsize + minsize) 0 then
      some (decide (ldigits.getD (lsize + minsize) 0 < rdigits.getD (rsize + minsize) 0),
        lsize + (minsize + 1), rsize + (minsize + 1))
    else compareTop ldigits rdigits lsize rsize minsize

/-- `while (0 == digits[-1]) { --digits; --size; }` -/
def skipLeadingZero (ds : List ℕ) : ℕ → ℕ
  | 0 => 0
  | size + 1 => if ds.getD size 0 = 0 then skipLeadingZero ds size else size + 1

theorem take_succ_getD {ds : List ℕ} {n : ℕ} (h : n < ds.length) :
    ds.take (n + 1) = ds.take n ++ [ds.getD n 0] := by
  rw [List.take_succ_eq_append_getElem h, List.getD_eq_getElem _ _ h]

theorem number_take_succ {ds : List ℕ} {n : ℕ} (h : n < ds.length) :
    number (ds.take (n + 1)) = number (ds.take n) + base ^ n * (ds.getD n 0 : ℕ) := by
  rw [take_succ_getD h, number_append, List.length_take, min_eq_left h.le, number_cons, number_nil,
    mul_zero, add_zero]

theorem skipLeadingZero_spec {ds : List ℕ} {size : ℕ} (h : size ≤ ds.length) :
    skipLeadingZero ds size ≤ size ∧
      number (ds.take (skipLeadingZero ds size)) = number (ds.take size) ∧
      Leading (ds.take (skipLeadingZero ds size)) := by
  induction size with
  | zero => simp [skipLeadingZero, Leading]
  | succ size ih =>
    rw [skipLeadingZero]
    split_ifs with h0
    · obtain ⟨hle, hnum, hlead⟩ := ih (by omega)
      refine ⟨by omega, ?_, hlead⟩
      rw [hnum, number_take_succ h, h0, Nat.cast_zero, mul_zero, add_zero]
    · refine ⟨le_rfl, rfl, ?_⟩
      rw [take_succ_getD h]
      exact Leading.append_left (by simpa [Leading] using h0) (List.cons_ne_nil _ _)

/-- The lower `n` digits of an operand. -/
def Operand.take (x : Operand) (n : ℕ) : Operand := { x with digits := x.digits.take n }

theorem Operand.take_order {x : Operand} {n : ℕ} (h : n ≤ x.digits.length) :
    (x.take n).order = x.exponent + n := by
  rw [order, take, List.length_take, min_eq_left h]

theorem Operand.take_valueAt_add {x : Operand} {n : ℕ} (h : n ≤ x.digits.length) {e : ℤ}
    (he : e ≤ x.exponent) :
    (x.take n).valueAt e + base ^ (x.exponent + n - e).toNat * number (x.digits.drop n) =
      x.valueAt e := by
  have hexp : (x.exponent + n - e).toNat = n + (x.exponent - e).toNat := by omega
  rw [valueAt, take, valueAt, ← number_take_add_drop h, hexp, pow_add]
  ring

theorem Operand.take_lt_take {x y : Operand} {n m : ℕ} {e : ℤ} (hex : e ≤ x.exponent)
    (hey : e ≤ y.exponent) (hxd : Digits x.digits) (hx : n < x.digits.length)
    (hy : m < y.digits.length) (ho : x.exponent + n = y.exponent + m)
    (hd : x.digits.getD n 0 < y.digits.getD m 0) :
    (x.take (n + 1)).valueAt e < (y.take (m + 1)).valueAt e := by
  have hlow : (x.take n).valueAt e < base ^ ((x.take n).order - e).toNat :=
    valueAt_lt hex (hxd.take n)
  have hnonneg := valueAt_nonneg e (y.take m)
  have hdig : ((x.digits.getD n 0 : ℕ) : ℤ) + 1 ≤ (y.digits.getD m 0 : ℕ) := by omega
  have hmul := mul_le_mul_of_nonneg_left hdig (base_pow_pos (x.exponent + n - e).toNat).le
  have hxe : (x.exponent + n - e).toNat = n + (x.exponent - e).toNat := by omega
  have hye : (x.exponent + n - e).toNat = m + (y.exponent - e).toNat := by omega
  rw [take_order hx.le] at hlow
  rw [valueAt, take] at hlow hnonneg
  rw [valueAt, take, valueAt, take, number_take_succ hx, number_take_succ hy]
  dsimp only at *
  calc (number (x.digits.take n) + base ^ n * ((x.digits.getD n 0 : ℕ) : ℤ))
          * base ^ (x.exponent - e).toNat
      = number (x.digits.take n) * base ^ (x.exponent - e).toNat
          + base ^ (x.exponent + n - e).toNat * (x.digits.getD n 0 : ℕ) := by
        rw [hxe, pow_add]
        ring
    _ < base ^ (x.exponent + n - e).toNat
          + base ^ (x.exponent + n - e).toNat * (x.digits.getD n 0 : ℕ) := by linarith
    _ ≤ number (y.digits.take m) * base ^ (y.exponent - e).toNat
          + base ^ (x.exponent + n - e).toNat * (y.digits.getD m 0 : ℕ) := by linarith
    _ = (number (y.digits.take m) + base ^ m * ((y.digits.getD m 0 : ℕ) : ℤ))
          * base ^ (y.exponent - e).toNat := by
        rw [hye, pow_add]
        ring

theorem drop_succ_eq {xs ys : List ℕ} {n m : ℕ} (hx : n < xs.length) (hy : m < ys.length)
    (h : xs.drop (n + 1) = ys.drop (m + 1)) (hd : xs.getD n 0 = ys.getD m 0) :
    xs.drop n = ys.drop m := by
  rw [List.drop_eq_getElem_cons hx, List.drop_eq_getElem_cons hy, h]
  rw [List.getD_eq_getElem _ _ hx, List.getD_eq_getElem _ _ hy] at hd
  rw [hd]

theorem Operand.take_valueAt_pos {x : Operand} (hhead : x.digits.head? ≠ some 0) {n : ℕ}
    (hn : n ≠ 0) (hlen : n ≤ x.digits.length) (e : ℤ) : 0 < (x.take n).valueAt e := by
  obtain ⟨d, ds, hds⟩ : ∃ d ds, x.digits = d :: ds := by
    cases hx : x.digits with
    | nil => simp [hx] at hlen; omega
    | cons d ds => exact ⟨d, ds, rfl⟩
  obtain ⟨k, rfl⟩ := Nat.exists_eq_succ_of_ne_zero hn
  have hd : d ≠ 0 := by
    rintro rfl
    exact hhead (by rw [hds]; rfl)
  refine mul_pos ?_ (base_pow_pos _)
  rw [take, hds, List.take_succ_cons, number_cons]
  have := mul_nonneg base_pos.le (number_nonneg (ds.take k))
  omega

/-- What `compareTop` has found: the digits that are left lie at the same order, the dropped ones
are equal, and the flag says which operand is smaller. -/
structure Compared (l r : Operand) (isSwap : Bool) (lsize rsize : ℕ) : Prop where
  lsize_le : lsize ≤ l.digits.length
  rsize_le : rsize ≤ r.digits.length
  order_eq : l.exponent + lsize = r.exponent + rsize
  dropped : l.digits.drop lsize = r.digits.drop rsize
  lt : ∀ e, e ≤ l.exponent → e ≤ r.exponent →
    if isSwap then (l.take lsize).valueAt e < (r.take rsize).valueAt e
    else (r.take rsize).valueAt e < (l.take lsize).valueAt e

theorem Compared.valueAt_sub {l r : Operand} {isSwap : Bool} {i j : ℕ}
    (h : Compared l r isSwap i j) {e : ℤ} (hl : e ≤ l.exponent) (hr : e ≤ r.exponent) :
    (l.take i).valueAt e - (r.take j).valueAt e = l.valueAt e - r.valueAt e := by
  rw [← Operand.take_valueAt_add h.lsize_le hl, ← Operand.take_valueAt_add h.rsize_le hr,
    h.order_eq, h.dropped]
  ring

theorem compareTop_spec {l r : Operand} (hl : l.digits.head? ≠ some 0)
    (hr : r.digits.head? ≠ some 0) (hld : Digits l.digits) (hrd : Digits r.digits)
    (lsize rsize minsize : ℕ) (h0 : lsize = 0 ∨ rsize = 0)
    (ho : l.exponent + lsize = r.exponent + rsize)
    (hlen : lsize + minsize ≤ l.digits.length) (hrlen : rsize + minsize ≤ r.digits.length)
    (hdrop : l.digits.drop (lsize + minsize) = r.digits.drop (rsize + minsize)) :
    match compareTop l.digits r.digits lsize rsize minsize with
    | none => l.value = r.value
    | some (isSwap, i, j) => Compared l r isSwap i j := by
  induction minsize with
  | zero =>
    rw [compareTop]
    split_ifs with hne
    · refine ⟨hlen, hrlen, ho, hdrop, fun e _ _ => ?_⟩
      by_cases hr0 : rsize = 0
      · have hl0 : lsize ≠ 0 := by simpa [hr0] using hne
        simp only [hr0, ne_eq, not_true, decide_false, Bool.false_eq_true, if_false]
        have := Operand.take_valueAt_pos hl hl0 hlen e
        rwa [Operand.valueAt, Operand.take, List.take_zero, number_nil, zero_mul]
      · have hl0 : lsize = 0 := by omega
        simp only [hl0, ne_eq, hr0, not_false_eq_true, decide_true, if_true]
        have := Operand.take_valueAt_pos hr hr0 hrlen e
        rwa [Operand.valueAt, Operand.take, List.take_zero, number_nil, zero_mul]
    · obtain ⟨rfl, rfl⟩ : rsize = 0 ∧ lsize = 0 := by simpa using hne
      simp only [Nat.add_zero, List.drop_zero] at hdrop
      simp only [Nat.cast_zero, add_zero] at ho
      rw [Operand.value, Operand.value, ho, hdrop]
  | succ m ih =>
    rw [compareTop]
    split_ifs with hd
    · have ho' : l.exponent + (lsize + m : ℕ) = r.exponent + (rsize + m : ℕ) := by
        push_cast
        omega
      refine ⟨hlen, hrlen, by push_cast; omega, hdrop, fun e hel her => ?_⟩
      by_cases hlt : l.digits.getD (lsize + m) 0 < r.digits.getD (rsize + m) 0
      · simp only [hlt, decide_true, if_true]
        exact Operand.take_lt_take hel her hld hlen hrlen ho' hlt
      · simp only [hlt, decide_false, Bool.false_eq_true, if_false]
        exact Operand.take_lt_take her hel hrd hrlen hlen ho'.symm
          (lt_of_le_of_ne (not_lt.mp hlt) (Ne.symm hd))
    · exact ih (by omega) (by omega) (drop_succ_eq hlen hrlen hdrop (not_not.mp hd))

theorem Operand.valueAt_lt_of_order_lt {x y : Operand} {e : ℤ} (hx : e ≤ x.exponent)
    (hey : e ≤ y.exponent) (h : x.order < y.order) (hxd : Digits x.digits)
    (hy : Leading y.digits) (hne : y.digits ≠ []) : x.valueAt e < y.valueAt e := by
  have hle : (x.order - e).toNat ≤ (y.order - 1 - e).toNat := by omega
  calc x.valueAt e < base ^ (x.order - e).toNat := valueAt_lt hx hxd
    _ ≤ base ^ (y.order - 1 - e).toNat := pow_le_pow_right₀ (by rw [base_eq]; norm_num) hle
    _ ≤ y.valueAt e := pow_order_le hey hy hne

/-! ## `sub_decimalhelper` -/

/-- The part of `sub_decimalhelper` behind the swap: `l` is bigger than `r`. -/
def subOrdered (result : Decimal) (isNegSign : Bool) (l r : Operand) : Except Errno Decimal :=
  let size := l.digits.length + (l.exponent - r.exponent).toNat
  (allocateDecimalhelper result size).map fun result =>
    let trail := subTrail l r
    let digits := trail.written ++ (subDigits trail.carry trail.ldigits trail.rdigits).1
    result.assign isNegSign (skipLeadingZero digits size) (min l.exponent r.exponent) digits

/-- `sub_decimalhelper`. -/
def subDecimalhelper (result ldec rdec : Decimal) : Except Errno Decimal :=
  let l := ldec.operand
  let r := rdec.operand
  let minsize := min l.digits.length r.digits.length
  if r.digits = [] then copyDecimal result ldec
  else if l.digits = [] then (copyDecimal result rdec).map setnegativeDecimal
  else if l.order = r.order then
    match compareTop l.digits r.digits (l.digits.length - minsize) (r.digits.length - minsize)
      minsize with
    | none => setPi32Decimal result 0 0
    | some (isSwap, lsize, rsize) =>
      if isSwap then subOrdered result (!ldec.isnegativeDecimal) (r.take rsize) (l.take lsize)
      else subOrdered result ldec.isnegativeDecimal (l.take lsize) (r.take rsize)
  else if l.order < r.order then subOrdered result (!ldec.isnegativeDecimal) r l
  else subOrdered result ldec.isnegativeDecimal l r

theorem subOrdered_stored {result new : Decimal} {isNegSign : Bool} {l r : Operand}
    (h : r.order ≤ l.order)
    (hlt : r.valueAt (min l.exponent r.exponent) < l.valueAt (min l.exponent r.exponent))
    (hhead : r.digits.head? ≠ some 0) (hr : r.exponent < l.exponent → r.digits ≠ [])
    (hld : Digits l.digits) (hrd : Digits r.digits) (he : -32768 ≤ min l.exponent r.exponent)
    (hnew : subOrdered result isNegSign l r = .ok new) :
    new.Stored isNegSign (min l.exponent r.exponent)
      (l.valueAt (min l.exponent r.exponent) - r.valueAt (min l.exponent r.exponent)) := by
  obtain ⟨dec, hres, rfl⟩ := Bigint.map_eq_ok hnew
  have hsize := allocateDecimalhelper_le hres
  obtain ⟨hle, hlen, hw, hl', hr', hval⟩ := subTrail_splits h hr hhead hld hrd
  have hsub := subDigits_value (subTrail l r).carry hl' hr' hle
  have hlen' := subDigits_length (subTrail l r).carry hle
  have hdig := subDigits_digits (subTrail l r).carry hl' hr'
  set sub := subDigits (subTrail l r).carry (subTrail l r).ldigits (subTrail l r).rdigits
  set digits := (subTrail l r).written ++ sub.1 with hdigits
  have hddigits : Digits digits := digits_append.mpr ⟨hw, hdig⟩
  have hn : digits.length = l.digits.length + (l.exponent - r.exponent).toNat := by
    rw [hdigits, List.length_append, hlen']
    rw [Operand.order] at hlen
    omega
  have hvalue : number digits - base ^ digits.length * sub.2.toNat =
      l.valueAt (min l.exponent r.exponent) - r.valueAt (min l.exponent r.exponent) := by
    rw [← hval, hdigits, number_append, List.length_append, hlen', pow_add]
    linear_combination base ^ (subTrail l r).written.length * hsub
  -- a borrow that is left would make the difference negative
  have hborrow : sub.2 = false := by
    by_contra hc
    rw [Bool.not_eq_false] at hc
    rw [hc, Bool.toNat_true, Nat.cast_one, mul_one] at hvalue
    linarith [number_lt hddigits]
  rw [hborrow, Bool.toNat_false, Nat.cast_zero, mul_zero, sub_zero] at hvalue
  obtain ⟨hskip, hnum, hlead⟩ := skipLeadingZero_spec hn.ge
  rw [← hn, List.take_length] at hnum
  rw [← hn] at hskip hsize
  change (dec.assign isNegSign (skipLeadingZero digits _) _ digits).Stored _ _ _
  rw [← hn] at hlead ⊢
  exact assign_stored dec isNegSign (by omega) hskip he (hddigits.take _) hlead (by omega)
    (by rw [hnum, hvalue])

theorem Operand.take_head {x : Operand} (h : x.digits.head? ≠ some 0) (n : ℕ) :
    (x.take n).digits.head? ≠ some 0 := by
  cases n with
  | zero => simp [take]
  | succ n => rwa [take, List.head?_take, if_neg (Nat.succ_ne_zero n)]

theorem subOrdered_take_stored {result new : Decimal} {isNegSign : Bool} {l r : Operand}
    {i j : ℕ} (hi : i ≤ l.digits.length) (hj : j ≤ r.digits.length)
    (ho : l.exponent + i = r.exponent + j)
    (hlt : (r.take j).valueAt (min l.exponent r.exponent) <
      (l.take i).valueAt (min l.exponent r.exponent))
    (hhead : r.digits.head? ≠ some 0) (hld : Digits l.digits) (hrd : Digits r.digits)
    (he : -32768 ≤ min l.exponent r.exponent)
    (hnew : subOrdered result isNegSign (l.take i) (r.take j) = .ok new) :
    new.Stored isNegSign (min l.exponent r.exponent)
      ((l.take i).valueAt (min l.exponent r.exponent) -
        (r.take j).valueAt (min l.exponent r.exponent)) := by
  refine subOrdered_stored (l := l.take i) (r := r.take j) ?_ hlt (Operand.take_head hhead j)
    (fun hexp hnil => ?_) (hld.take i) (hrd.take j) he hnew
  · rw [Operand.take_order hi, Operand.take_order hj, ho]
  · -- without digits the right operand ends where it starts, and the left one is not below
    have hj0 : (r.take j).digits.length = 0 := by rw [hnil, List.length_nil]
    rw [Operand.take, List.length_take] at hj0
    change r.exponent < l.exponent at hexp
    omega

/-! ## When the exponent fits -/

/-- If there is a result, then it represents the number `v`, negated if `isNegSign`. -/
def Yields (result : Except Errno Decimal) (isNegSign : Bool) (v : ℚ) : Prop :=
  ∀ new, result = .ok new → new.Represents isNegSign v

/-- The exponent that the result of a sum or a difference gets, the smaller one of those of the
lowest digits that are not zero, can be stored. -/
def ExponentFits (ldec rdec : Decimal) : Prop :=
  min ldec.operand.exponent rdec.operand.exponent ≤ INT16_MAX

instance (ldec rdec : Decimal) : Decidable (ExponentFits ldec rdec) :=
  inferInstanceAs (Decidable (min ldec.operand.exponent rdec.operand.exponent ≤ INT16_MAX))

theorem int16_le (z : ℤ) : int16 z ≤ INT16_MAX := by
  rw [int16, INT16_MAX]
  omega

theorem Stored.represents_iff {new : Decimal} {isNegSign : Bool} {e n : ℤ}
    (h : new.Stored isNegSign e n) :
    new.Represents isNegSign (n * (base : ℚ) ^ e) ↔ e ≤ INT16_MAX := by
  refine ⟨fun hrep => ?_, h.exact⟩
  have hvalue := hrep.2.symm.trans h.wraps
  have hsign : ((if isNegSign then -1 else 1 : ℤ) : ℚ) ≠ 0 := by split_ifs <;> norm_num
  push_cast at hsign
  have hn : (n : ℚ) ≠ 0 := by exact_mod_cast h.pos.ne'
  have hpow := mul_left_cancel₀ hn (mul_left_cancel₀ hsign hvalue)
  have hbase : (base : ℚ) ≠ 1 := by
    rw [base_eq]
    norm_num
  have heq := zpow_right_injective₀ cast_base_pos hbase hpow
  rw [heq]
  exact int16_le e

theorem magnitude_eq_valueAt (ldec rdec : Decimal) :
    ldec.magnitude = ldec.operand.valueAt (min ldec.operand.exponent rdec.operand.exponent) *
        (base : ℚ) ^ min ldec.operand.exponent rdec.operand.exponent ∧
      rdec.magnitude = rdec.operand.valueAt (min ldec.operand.exponent rdec.operand.exponent) *
        (base : ℚ) ^ min ldec.operand.exponent rdec.operand.exponent := by
  rw [← operand_value ldec, ← operand_value rdec]
  exact ⟨Operand.value_eq_valueAt (min_le_left _ _), Operand.value_eq_valueAt (min_le_right _ _)⟩

theorem exists_addOrdered (result : Decimal) (isNegSign : Bool) {l r : Operand}
    (h : l.order + 1 ≤ min l.exponent r.exponent + 0x7f) :
    ∃ new, addOrdered result isNegSign l r = .ok new := by
  rw [Operand.order] at h
  obtain ⟨dec, hdec⟩ := exists_allocateDecimalhelper result
    (l.digits.length + 1 + (l.exponent - r.exponent).toNat) (by omega) (by omega)
  rw [addOrdered, hdec]
  exact ⟨_, rfl⟩

theorem addOrdered_sizeAllocated {result new : Decimal} {isNegSign : Bool} {l r : Operand}
    (h : addOrdered result isNegSign l r = .ok new) :
    l.order + 1 ≤ min l.exponent r.exponent + new.sizeAllocated := by
  obtain ⟨dec, hres, rfl⟩ := Bigint.map_eq_ok h
  have hsize := allocateDecimalhelper_spec hres
  change l.order + 1 ≤ min l.exponent r.exponent + dec.sizeAllocated
  rw [Operand.order]
  omega

theorem exists_subOrdered (result : Decimal) (isNegSign : Bool) {l r : Operand}
    (hne : l.digits ≠ []) (h : l.order ≤ min l.exponent r.exponent + 0x7f) :
    ∃ new, subOrdered result isNegSign l r = .ok new := by
  have hpos := List.length_pos_iff.mpr hne
  rw [Operand.order] at h
  obtain ⟨dec, hdec⟩ := exists_allocateDecimalhelper result
    (l.digits.length + (l.exponent - r.exponent).toNat) (by omega) (by omega)
  rw [subOrdered, hdec]
  exact ⟨_, rfl⟩

theorem WellFormed.operand_order_le {dec : Decimal} (h : dec.WellFormed) {e : ℤ}
    (he : INT16_MAX < e) : dec.operand.order + 1 ≤ e + 0x7f := by
  have h1 := h.exponent_le
  have h2 := dec.sizeDecimal_le
  rw [h.operand_order]
  omega

theorem Operand.take_order_le {x : Operand} {n : ℕ} (h : n ≤ x.digits.length) :
    (x.take n).order ≤ x.order := by
  rw [take_order h, order]
  omega

theorem Operand.digits_ne_nil_of_lt {x y : Operand} {e : ℤ} (h : y.valueAt e < x.valueAt e) :
    x.digits ≠ [] := by
  intro hnil
  have h1 := valueAt_nonneg e y
  rw [valueAt, valueAt, hnil, number_nil, zero_mul] at h
  rw [valueAt] at h1
  omega

theorem addDecimalhelper_cases (result : Decimal) {ldec rdec : Decimal} (hl : ldec.WellFormed)
    (hr : rdec.WellFormed) (hl0 : ldec.operand.digits ≠ []) (hr0 : rdec.operand.digits ≠ []) :
    (∀ new, addDecimalhelper result ldec rdec = .ok new →
      new.Stored ldec.isnegativeDecimal (min ldec.operand.exponent rdec.operand.exponent)
        (ldec.operand.valueAt (min ldec.operand.exponent rdec.operand.exponent) +
          rdec.operand.valueAt (min ldec.operand.exponent rdec.operand.exponent)) ∧
      max ldec.operand.order rdec.operand.order + 1 ≤
        min ldec.operand.exponent rdec.operand.exponent + new.sizeAllocated) ∧
    (max ldec.operand.order rdec.operand.order + 1 ≤
        min ldec.operand.exponent rdec.operand.exponent + 0x7f →
      ∃ new, addDecimalhelper result ldec rdec = .ok new) := by
  have hge : -32768 ≤ min ldec.operand.exponent rdec.operand.exponent :=
    le_min hl.le_operand_exponent hr.le_operand_exponent
  rw [addDecimalhelper, if_neg hr0, if_neg hl0]
  by_cases horder : ldec.operand.order < rdec.operand.order
  · rw [if_pos horder, max_eq_right horder.le, min_comm]
    rw [min_comm] at hge
    refine ⟨fun new h => ⟨?_, addOrdered_sizeAllocated h⟩, exists_addOrdered result _⟩
    rw [add_comm]
    exact addOrdered_stored horder.le hr.operand_leading hr0 hr.operand_digits
      hl.operand_digits hge h
  · rw [if_neg horder, max_eq_left (not_lt.mp horder)]
    refine ⟨fun new h => ⟨?_, addOrdered_sizeAllocated h⟩, exists_addOrdered result _⟩
    exact addOrdered_stored (not_lt.mp horder) hl.operand_leading hl0 hl.operand_digits
      hr.operand_digits hge h

/-- **`add_decimalhelper`** adds the magnitudes and takes the sign of the left operand, if and only
if an operand is zero or the exponent fits. -/
theorem addDecimalhelper_yields_iff {result ldec rdec : Decimal} (hl : ldec.WellFormed)
    (hr : rdec.WellFormed) :
    Yields (addDecimalhelper result ldec rdec) ldec.isnegativeDecimal
        (ldec.magnitude + rdec.magnitude) ↔
      ldec.sizeDecimal = 0 ∨ rdec.sizeDecimal = 0 ∨ ExponentFits ldec rdec := by
  by_cases hr0 : rdec.operand.digits = []
  · have hr0' := hr.operand_eq_nil.mp hr0
    refine iff_of_true (fun new h => ?_) (Or.inr (Or.inl hr0'))
    rw [addDecimalhelper, if_pos hr0] at h
    rw [magnitude_eq_zero hr0', add_zero]
    exact represents_of_copyDecimal hl h
  by_cases hl0 : ldec.operand.digits = []
  · have hl0' := hl.operand_eq_nil.mp hl0
    refine iff_of_true (fun new h => ?_) (Or.inl hl0')
    rw [addDecimalhelper, if_neg hr0, if_pos hl0] at h
    obtain ⟨copy, hcopy, rfl⟩ := Bigint.map_eq_ok h
    have hs := copyDecimal_same hr hcopy
    rw [magnitude_eq_zero hl0', zero_add, hl.zero_sign hl0', ← hs.magnitude]
    exact setpositiveDecimal_represents (hs.wellFormed hr)
  -- both operands are left, and the stored exponent is the only thing that can go wrong
  obtain ⟨hlm, hrm⟩ := magnitude_eq_valueAt ldec rdec
  obtain ⟨hstored, hex⟩ := addDecimalhelper_cases result hl hr hl0 hr0
  rw [hlm, hrm, ← add_mul, ← Int.cast_add]
  constructor
  · intro hy
    by_contra hc
    have hover : INT16_MAX < min ldec.operand.exponent rdec.operand.exponent :=
      not_le.mp fun hfit => hc (Or.inr (Or.inr hfit))
    have h1 := hl.operand_order_le hover
    have h2 := hr.operand_order_le hover
    obtain ⟨new, hnew⟩ := hex (by omega)
    exact not_lt.mpr ((hstored new hnew).1.represents_iff.mp (hy new hnew)) hover
  · rintro (h0 | h0 | hfit)
    · exact absurd (hl.operand_eq_nil.mpr h0) hl0
    · exact absurd (hr.operand_eq_nil.mpr h0) hr0
    · exact fun new hnew => (hstored new hnew).1.represents_iff.mpr hfit

/-- What `sub_decimalhelper` does with operands that have digits: equal ones give zero, and of
others the smaller one is subtracted from the bigger one. -/
theorem subDecimalhelper_cases (result : Decimal) {ldec rdec : Decimal} (hl : ldec.WellFormed)
    (hr : rdec.WellFormed) (hl0 : ldec.operand.digits ≠ []) (hr0 : rdec.operand.digits ≠ []) :
    (ldec.magnitude = rdec.magnitude ∧
        subDecimalhelper result ldec rdec = setPi32Decimal result 0 0) ∨
      ∃ isSwap : Bool,
        (∀ new, subDecimalhelper result ldec rdec = .ok new →
          new.Stored (isSwap ^^ ldec.isnegativeDecimal)
            (min ldec.operand.exponent rdec.operand.exponent)
            ((if isSwap then -1 else 1) *
              (ldec.operand.valueAt (min ldec.operand.exponent rdec.operand.exponent) -
                rdec.operand.valueAt (min ldec.operand.exponent rdec.operand.exponent)))) ∧
        (ldec.operand.order ≤ min ldec.operand.exponent rdec.operand.exponent + 0x7f →
          rdec.operand.order ≤ min ldec.operand.exponent rdec.operand.exponent + 0x7f →
          ∃ new, subDecimalhelper result ldec rdec = .ok new) := by
  have hlh := ldec.operand_head
  have hrh := rdec.operand_head
  have hge : -32768 ≤ min ldec.operand.exponent rdec.operand.exponent :=
    le_min hl.le_operand_exponent hr.le_operand_exponent
  have hge' : -32768 ≤ min rdec.operand.exponent ldec.operand.exponent := by rwa [min_comm]
  have hlel := min_le_left ldec.operand.exponent rdec.operand.exponent
  have hler := min_le_right ldec.operand.exponent rdec.operand.exponent
  rw [subDecimalhelper, if_neg hr0, if_neg hl0]
  by_cases horder : ldec.operand.order = rdec.operand.order
  · rw [if_pos horder]
    have hcmp := compareTop_spec hlh hrh hl.operand_digits hr.operand_digits
      (ldec.operand.digits.length - min ldec.operand.digits.length rdec.operand.digits.length)
      (rdec.operand.digits.length - min ldec.operand.digits.length rdec.operand.digits.length)
      (min ldec.operand.digits.length rdec.operand.digits.length)
      (by omega) (by rw [Operand.order, Operand.order] at horder; omega) (by omega) (by omega)
      (by
        rw [Nat.sub_add_cancel (min_le_left _ _), Nat.sub_add_cancel (min_le_right _ _),
          List.drop_length, List.drop_length])
    split
    · rename_i hnone
      rw [hnone] at hcmp
      change ldec.operand.value = rdec.operand.value at hcmp
      rw [operand_value, operand_value] at hcmp
      exact Or.inl ⟨hcmp, rfl⟩
    · rename_i isSwap i j hsome
      rw [hsome] at hcmp
      have hlt := hcmp.lt _ hlel hler
      have hsub := hcmp.valueAt_sub hlel hler
      refine Or.inr ⟨isSwap, ?_⟩
      cases isSwap with
      | false =>
        refine ⟨fun new h => ?_, fun hfl hfr => exists_subOrdered result _ ?_ ?_⟩
        · have := subOrdered_take_stored hcmp.lsize_le hcmp.rsize_le hcmp.order_eq hlt hrh
            hl.operand_digits hr.operand_digits hge h
          rw [hsub] at this
          simpa using this
        · exact Operand.digits_ne_nil_of_lt hlt
        · exact (Operand.take_order_le hcmp.lsize_le).trans hfl
      | true =>
        rw [if_pos rfl] at hlt
        rw [min_comm] at hlt hsub
        refine ⟨fun new h => ?_, fun hfl hfr => exists_subOrdered result _ ?_ ?_⟩
        · have := subOrdered_take_stored hcmp.rsize_le hcmp.lsize_le hcmp.order_eq.symm hlt hlh
            hr.operand_digits hl.operand_digits hge' h
          rw [← neg_sub, hsub, min_comm] at this
          simpa using this
        · exact Operand.digits_ne_nil_of_lt hlt
        · rw [min_comm] at hfr
          exact (Operand.take_order_le hcmp.rsize_le).trans hfr
  · rw [if_neg horder]
    by_cases hlt : ldec.operand.order < rdec.operand.order
    · rw [if_pos hlt]
      refine Or.inr ⟨true, fun new h => ?_, fun _ hfr => exists_subOrdered result _ hr0 ?_⟩
      · have := subOrdered_stored hlt.le (Operand.valueAt_lt_of_order_lt (min_le_right _ _)
          (min_le_left _ _) hlt hl.operand_digits hr.operand_leading hr0) hlh (fun _ => hl0)
          hr.operand_digits hl.operand_digits hge' h
        rw [← neg_sub, min_comm] at this
        simpa using this
      · rwa [min_comm] at hfr
    · rw [if_neg hlt]
      have hlt' : rdec.operand.order < ldec.operand.order := by omega
      refine Or.inr ⟨false, fun new h => ?_, fun hfl _ => exists_subOrdered result _ hl0 hfl⟩
      · have := subOrdered_stored hlt'.le (Operand.valueAt_lt_of_order_lt (min_le_right _ _)
          (min_le_left _ _) hlt' hr.operand_digits hl.operand_leading hl0) hrh (fun _ => hr0)
          hl.operand_digits hr.operand_digits hge h
        simpa using this

theorem represents_xor {new : Decimal} {isSwap isNegSign : Bool} {v : ℚ} :
    new.Represents (isSwap ^^ isNegSign) ((if isSwap then -1 else 1) * v) ↔
      new.Represents isNegSign v := by
  unfold Represents
  cases isSwap <;> cases isNegSign <;> simp

/-- **`sub_decimalhelper`** subtracts the magnitudes and takes the sign of the left operand, or the
other sign if the left operand is the smaller one, if and only if an operand is zero or both are
equal or the exponent fits. -/
theorem subDecimalhelper_yields_iff {result ldec rdec : Decimal} (hl : ldec.WellFormed)
    (hr : rdec.WellFormed) :
    Yields (subDecimalhelper result ldec rdec) ldec.isnegativeDecimal
        (ldec.magnitude - rdec.magnitude) ↔
      ldec.sizeDecimal = 0 ∨ rdec.sizeDecimal = 0 ∨ ldec.magnitude = rdec.magnitude ∨
        ExponentFits ldec rdec := by
  by_cases hr0 : rdec.operand.digits = []
  · have hr0' := hr.operand_eq_nil.mp hr0
    refine iff_of_true (fun new h => ?_) (Or.inr (Or.inl hr0'))
    rw [subDecimalhelper, if_pos hr0] at h
    rw [magnitude_eq_zero hr0', sub_zero]
    exact represents_of_copyDecimal hl h
  by_cases hl0 : ldec.operand.digits = []
  · have hl0' := hl.operand_eq_nil.mp hl0
    refine iff_of_true (fun new h => ?_) (Or.inl hl0')
    rw [subDecimalhelper, if_neg hr0, if_pos hl0] at h
    obtain ⟨copy, hcopy, rfl⟩ := Bigint.map_eq_ok h
    have hs := copyDecimal_same hr hcopy
    have hsize : copy.sizeDecimal ≠ 0 := by
      rw [hs.sizeDecimal]
      exact fun h0 => hr0 (hr.operand_eq_nil.mpr h0)
    rw [magnitude_eq_zero hl0', zero_sub, hl.zero_sign hl0', ← hs.magnitude]
    exact (setnegativeDecimal_represents (hs.wellFormed hr) hsize).not
  rcases subDecimalhelper_cases result hl hr hl0 hr0 with ⟨heq, hzero⟩ | ⟨isSwap, hstored, hex⟩
  · refine iff_of_true (fun new h => ?_) (Or.inr (Or.inr (Or.inl heq)))
    rw [hzero] at h
    rw [heq, sub_self]
    exact setPi32Decimal_zero_represents h _
  obtain ⟨hlm, hrm⟩ := magnitude_eq_valueAt ldec rdec
  have hiff : ∀ new, subDecimalhelper result ldec rdec = .ok new →
      (new.Represents ldec.isnegativeDecimal (ldec.magnitude - rdec.magnitude) ↔
        ExponentFits ldec rdec) := by
    intro new hnew
    have := (hstored new hnew).represents_iff
    rw [Int.cast_mul, mul_assoc, Int.cast_sub, sub_mul, ← hlm, ← hrm] at this
    push_cast at this
    rwa [represents_xor] at this
  constructor
  · intro hy
    by_contra hc
    have hover : INT16_MAX < min ldec.operand.exponent rdec.operand.exponent :=
      not_le.mp fun hfit => hc (Or.inr (Or.inr (Or.inr hfit)))
    obtain ⟨new, hnew⟩ := hex (by linarith [hl.operand_order_le hover])
      (by linarith [hr.operand_order_le hover])
    exact not_lt.mpr ((hiff new hnew).mp (hy new hnew)) hover
  · rintro (h0 | h0 | heq | hfit)
    · exact absurd (hl.operand_eq_nil.mpr h0) hl0
    · exact absurd (hr.operand_eq_nil.mpr h0) hr0
    · -- equal operands have the difference zero, which is not stored as a number with digits
      intro new hnew
      have hpos := (hstored new hnew).pos
      rw [hlm, hrm] at heq
      have hv := mul_right_cancel₀ (base_zpow_pos _).ne' heq
      rw [Int.cast_inj.mp hv, sub_self, mul_zero] at hpos
      omega
    · exact fun new hnew => (hiff new hnew).mpr hfit

/-! ## The two operations -/

/-- `add_decimal`. -/
def addDecimal (result ldec rdec : Decimal) : Except Errno Decimal :=
  if ldec.isnegativeDecimal = rdec.isnegativeDecimal then addDecimalhelper result ldec rdec
  else subDecimalhelper result ldec rdec

/-- `sub_decimal`. -/
def subDecimal (result ldec rdec : Decimal) : Except Errno Decimal :=
  if ldec.isnegativeDecimal = rdec.isnegativeDecimal then subDecimalhelper result ldec rdec
  else addDecimalhelper result ldec rdec

/-- If there is a result, then it is well formed, and its value is `v`. -/
def Exact (result : Except Errno Decimal) (v : ℚ) : Prop :=
  ∀ new, result = .ok new → new.WellFormed ∧ new.value = v

theorem yields_iff_exact {result : Except Errno Decimal} {isNegSign : Bool} {v w : ℚ}
    (h : w = (if isNegSign then -1 else 1) * v) : Yields result isNegSign v ↔ Exact result w := by
  subst h
  exact Iff.rfl

theorem value_of_eq {ldec rdec : Decimal}
    (h : ldec.isnegativeDecimal = rdec.isnegativeDecimal) :
    ldec.value + rdec.value =
        (if ldec.isnegativeDecimal then -1 else 1) * (ldec.magnitude + rdec.magnitude) ∧
      ldec.value - rdec.value =
        (if ldec.isnegativeDecimal then -1 else 1) * (ldec.magnitude - rdec.magnitude) := by
  rw [value, value, ← h]
  constructor <;> ring

theorem value_of_ne {ldec rdec : Decimal}
    (h : ldec.isnegativeDecimal ≠ rdec.isnegativeDecimal) :
    ldec.value + rdec.value =
        (if ldec.isnegativeDecimal then -1 else 1) * (ldec.magnitude - rdec.magnitude) ∧
      ldec.value - rdec.value =
        (if ldec.isnegativeDecimal then -1 else 1) * (ldec.magnitude + rdec.magnitude) := by
  rw [value, value]
  cases hl : ldec.isnegativeDecimal <;> cases hr : rdec.isnegativeDecimal
  · exact absurd (hl.trans hr.symm) h
  · constructor
    · simp [sub_eq_add_neg]
    · simp
  · constructor
    · simp [sub_eq_add_neg, add_comm]
    · simp [sub_eq_add_neg, add_comm]
  · exact absurd (hl.trans hr.symm) h

theorem sign_mul_eq_zero {isNegSign : Bool} {v : ℚ} :
    (if isNegSign then -1 else 1) * v = 0 ↔ v = 0 := by
  cases isNegSign <;> simp

theorem WellFormed.sizeDecimal_of_add_eq_zero {ldec rdec : Decimal} (hl : ldec.WellFormed)
    (h : ldec.magnitude + rdec.magnitude = 0) : ldec.sizeDecimal = 0 := by
  by_contra h0
  have h1 := hl.magnitude_pos h0
  have h2 := rdec.magnitude_nonneg
  linarith

/-- **Addition and subtraction** return a well formed decimal with the exact value, or an error, if
and only if one of the operands is zero, or the exact value is zero, or the exponent of the lowest
digit of the two operands that is not zero fits into the field `exponent`. -/
theorem addDecimal_subDecimal_exact_iff {result ldec rdec : Decimal} (hl : ldec.WellFormed)
    (hr : rdec.WellFormed) :
    (Exact (addDecimal result ldec rdec) (ldec.value + rdec.value) ↔
      ldec.sizeDecimal = 0 ∨ rdec.sizeDecimal = 0 ∨ ldec.value + rdec.value = 0 ∨
        ExponentFits ldec rdec) ∧
    (Exact (subDecimal result ldec rdec) (ldec.value - rdec.value) ↔
      ldec.sizeDecimal = 0 ∨ rdec.sizeDecimal = 0 ∨ ldec.value - rdec.value = 0 ∨
        ExponentFits ldec rdec) := by
  have hzero : ldec.magnitude + rdec.magnitude = 0 → ldec.sizeDecimal = 0 :=
    hl.sizeDecimal_of_add_eq_zero
  rw [addDecimal, subDecimal]
  by_cases hs : ldec.isnegativeDecimal = rdec.isnegativeDecimal
  · obtain ⟨hadd, hsub⟩ := value_of_eq hs
    rw [if_pos hs, if_pos hs, ← yields_iff_exact hadd, ← yields_iff_exact hsub,
      addDecimalhelper_yields_iff hl hr, subDecimalhelper_yields_iff hl hr, hadd, hsub,
      sign_mul_eq_zero, sign_mul_eq_zero, sub_eq_zero]
    refine ⟨?_, Iff.rfl⟩
    tauto
  · obtain ⟨hadd, hsub⟩ := value_of_ne hs
    rw [if_neg hs, if_neg hs, ← yields_iff_exact hadd, ← yields_iff_exact hsub,
      addDecimalhelper_yields_iff hl hr, subDecimalhelper_yields_iff hl hr, hadd, hsub,
      sign_mul_eq_zero, sign_mul_eq_zero, sub_eq_zero]
    refine ⟨Iff.rfl, ?_⟩
    tauto

/-- `10^18 - (7 * 10^9 + 5)`: the left operand has an exponent and a trailing zero digit, and the
borrow of the inverted digit runs through both digits. -/
theorem addDecimal_exact_borrow :
    (⟨4, 2, 0, [999999995, 999999992, 0], by decide⟩ : Decimal).WellFormed ∧
      (⟨4, 2, 0, [999999995, 999999992, 0], by decide⟩ : Decimal).value =
        (⟨2, 2, 1, [0, 1], by decide⟩ : Decimal).value +
          (⟨2, 0x82, 0, [5, 7], by decide⟩ : Decimal).value :=
  (@addDecimal_subDecimal_exact_iff ⟨4, 0, 0, [], by decide⟩ _ _ (by decide +kernel)
    (by decide +kernel)).1.mpr (by decide +kernel) _ (by decide +kernel)

/-- Two operands with the largest exponent and a trailing zero digit: the exponent of their sum is
`INT16_MAX + 1`, which is stored as `INT16_MIN`. -/
theorem addDecimal_not_exact : ¬ ∀ result ldec rdec : Decimal, ldec.WellFormed → rdec.WellFormed →
    Exact (addDecimal result ldec rdec) (ldec.value + rdec.value) := by
  intro h
  have hwf : (⟨2, 2, 32767, [0, 1], by decide⟩ : Decimal).WellFormed := by decide +kernel
  have hexact := h ⟨4, 0, 0, [], by decide⟩ _ _ hwf hwf
  rw [addDecimal, if_pos rfl, ← yields_iff_exact (value_of_eq rfl).1,
    addDecimalhelper_yields_iff hwf hwf] at hexact
  have hnot : ¬ ExponentFits ⟨2, 2, 32767, [0, 1], by decide⟩ ⟨2, 2, 32767, [0, 1], by decide⟩ := by
    decide +kernel
  rcases hexact with h0 | h0 | hfit
  · exact absurd h0 (by decide +kernel)
  · exact absurd h0 (by decide +kernel)
  · exact hnot hfit

end Decimal
end CKern
