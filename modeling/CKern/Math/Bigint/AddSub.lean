import Mathlib.Data.List.GetD
import CKern.Math.Bigint.Basic

/-!
# `math/int/bigint.c`: `add_bigint` and `sub_bigint`

Both helpers align the operands by their exponents.  What lies below the operand of the higher
exponent is the trail; then come the digits that both operands have, then the leading digits of
the bigger one.

* `addDigits`, `subDigits`: the two loops after the trail, which hand a carry from one segment to
  the next.
* `addTrail`, `subTrail`: the trail; the one of a difference is inverted and starts a borrow.
* `compareTop`: drops the leading digits that both operands of a difference share.
* `addBigint_subBigint_exact`: the results are well formed and exact.
-/

namespace CKern
namespace Bigint

open Positional

/-! ## The loops over the digits -/

/-- One digit of the overlapping part of a sum. -/
def addDigit (carry : Bool) (d : UInt32 × UInt32) : UInt32 × Bool :=
  let dl := d.1 + carry.toUInt32
  let sum := d.2 + dl
  (sum, decide (sum < dl) || (carry && decide (dl = 0)))

/-- One digit of the leading part of a sum. -/
def carryDigit (carry : Bool) (d : UInt32) : UInt32 × Bool :=
  let dl := d + carry.toUInt32
  (dl, carry && decide (dl = 0))

/-- One digit of the overlapping part of a difference. -/
def subDigit (carry : Bool) (d : UInt32 × UInt32) : UInt32 × Bool :=
  let isUnderflow := decide (d.1 < d.2) || (decide (d.1 = d.2) && carry)
  (d.1 - d.2 - carry.toUInt32, isUnderflow)

/-- One digit of the leading part of a difference. -/
def borrowDigit (carry : Bool) (d : UInt32) : UInt32 × Bool :=
  (d - carry.toUInt32, decide (d < carry.toUInt32))

theorem addDigit_value (carry : Bool) (d : UInt32 × UInt32) :
    ((addDigit carry d).1.toNat : ℤ) + base * (addDigit carry d).2.toNat =
      (d.1.toNat + d.2.toNat) + carry.toNat := by
  have hl := d.1.toNat_lt
  have hr := d.2.toNat_lt
  rw [addDigit, base_eq, Bool.toNat, Bool.cond_eq_ite]
  simp only [Bool.or_eq_true, decide_eq_true_eq, Bool.and_eq_true, UInt32.lt_iff_toNat_lt,
    ← UInt32.toNat_inj, UInt32.toNat_add, toNat_toUInt32, UInt32.toNat_zero]
  cases carry <;>
    simp only [Bool.toNat_true, Bool.toNat_false, true_and, Bool.false_eq_true, false_and,
      or_false] <;>
    split_ifs <;> omega

theorem carryDigit_value (carry : Bool) (d : UInt32) :
    ((carryDigit carry d).1.toNat : ℤ) + base * (carryDigit carry d).2.toNat =
      d.toNat + carry.toNat := by
  have hd := d.toNat_lt
  rw [carryDigit, base_eq, Bool.toNat, Bool.cond_eq_ite]
  simp only [Bool.and_eq_true, decide_eq_true_eq, ← UInt32.toNat_inj, UInt32.toNat_add,
    toNat_toUInt32, UInt32.toNat_zero]
  cases carry with
  | false =>
    simp only [Bool.toNat_false, Bool.false_eq_true, false_and, if_false]
    omega
  | true =>
    simp only [Bool.toNat_true, true_and]
    split_ifs <;> omega

theorem subDigit_value (carry : Bool) (d : UInt32 × UInt32) :
    ((subDigit carry d).1.toNat : ℤ) + base * -((subDigit carry d).2.toNat : ℤ) =
      (d.1.toNat - d.2.toNat) + -(carry.toNat : ℤ) := by
  have hl := d.1.toNat_lt
  have hr := d.2.toNat_lt
  rw [subDigit, base_eq, Bool.toNat, Bool.cond_eq_ite]
  simp only [Bool.or_eq_true, decide_eq_true_eq, Bool.and_eq_true, UInt32.lt_iff_toNat_lt,
    ← UInt32.toNat_inj, UInt32.toNat_sub, toNat_toUInt32]
  cases carry <;>
    simp only [Bool.toNat_true, Bool.toNat_false, and_true, Bool.false_eq_true, and_false,
      or_false] <;>
    split_ifs <;> omega

theorem borrowDigit_value (carry : Bool) (d : UInt32) :
    ((borrowDigit carry d).1.toNat : ℤ) + base * -((borrowDigit carry d).2.toNat : ℤ) =
      d.toNat + -(carry.toNat : ℤ) := by
  have hd := d.toNat_lt
  rw [borrowDigit, base_eq, Bool.toNat, Bool.cond_eq_ite]
  simp only [decide_eq_true_eq, UInt32.lt_iff_toNat_lt, UInt32.toNat_sub, toNat_toUInt32]
  cases carry <;> simp only [Bool.toNat_true, Bool.toNat_false] <;> split_ifs <;> omega

/-- The overlapping part and the leading part of a sum: the digits written and the carry. -/
def addDigits (ldigits rdigits : List UInt32) : List UInt32 × Bool :=
  let overlap := chain addDigit false (ldigits.zip rdigits)
  let lead := chain carryDigit overlap.2 (ldigits.drop rdigits.length)
  (overlap.1 ++ lead.1, lead.2)

/-- The overlapping part and the leading part of a difference. -/
def subDigits (carry : Bool) (ldigits rdigits : List UInt32) : List UInt32 × Bool :=
  let overlap := chain subDigit carry (ldigits.zip rdigits)
  let lead := chain borrowDigit overlap.2 (ldigits.drop rdigits.length)
  (overlap.1 ++ lead.1, lead.2)

theorem addDigits_length {ldigits rdigits : List UInt32} (h : rdigits.length ≤ ldigits.length) :
    (addDigits ldigits rdigits).1.length = ldigits.length := by
  simp only [addDigits, List.length_append, length_chain, List.length_zip, List.length_drop]
  omega

theorem subDigits_length (carry : Bool) {ldigits rdigits : List UInt32}
    (h : rdigits.length ≤ ldigits.length) :
    (subDigits carry ldigits rdigits).1.length = ldigits.length := by
  simp only [subDigits, List.length_append, length_chain, List.length_zip, List.length_drop]
  omega

theorem number_zip {F : UInt32 × UInt32 → ℤ} {s : ℤ} (hF : ∀ d, F d = d.1.toNat + s * d.2.toNat)
    {ldigits rdigits : List UInt32} (h : rdigits.length ≤ ldigits.length) :
    eval base F (ldigits.zip rdigits) =
      number (ldigits.take rdigits.length) + s * number rdigits := by
  have hlen : (ldigits.take rdigits.length).length = rdigits.length := by simp [h]
  have hzip : ldigits.zip rdigits = (ldigits.take rdigits.length).zip rdigits := by
    rw [List.zip_eq_zip_take_min, min_eq_right h, List.take_length]
  rw [hzip, number, number, ← eval_mul_left, ← eval_zip_add _ _ _ hlen]
  exact congrArg (eval base · _) (funext hF)

theorem number_take_add_drop (n : ℕ) (ds : List UInt32) (h : n ≤ ds.length) :
    number (ds.take n) + base ^ n * number (ds.drop n) = number ds := by
  have := eval_take_add_drop base (fun d : UInt32 => (d.toNat : ℤ)) n ds
  rwa [min_eq_left h] at this

theorem addDigits_value {ldigits rdigits : List UInt32} (h : rdigits.length ≤ ldigits.length) :
    number (addDigits ldigits rdigits).1 +
        base ^ ldigits.length * (addDigits ldigits rdigits).2.toNat =
      number ldigits + number rdigits := by
  have hseam := chain_eval_seam addDigit carryDigit (b := base) (g := fun d => (d.toNat : ℤ))
    (f := fun d => (d.1.toNat : ℤ) + d.2.toNat) (v := fun c => (c.toNat : ℤ)) addDigit_value
    carryDigit_value false (ldigits.zip rdigits) (ldigits.drop rdigits.length)
  have hsplit := number_take_add_drop rdigits.length ldigits h
  rw [number_zip (s := 1) (fun d => by ring) h, List.length_zip, min_eq_right h,
    List.length_drop, Nat.add_sub_cancel' h] at hseam
  rw [← hsplit]
  simp only [Bool.toNat_false, Nat.cast_zero] at hseam
  rw [addDigits]
  simp only [number] at *
  linear_combination hseam

theorem subDigits_value (carry : Bool) {ldigits rdigits : List UInt32}
    (h : rdigits.length ≤ ldigits.length) :
    number (subDigits carry ldigits rdigits).1 -
        base ^ ldigits.length * (subDigits carry ldigits rdigits).2.toNat =
      number ldigits - number rdigits - carry.toNat := by
  have hseam := chain_eval_seam subDigit borrowDigit (b := base) (g := fun d => (d.toNat : ℤ))
    (f := fun d => (d.1.toNat : ℤ) - d.2.toNat) (v := fun c => -(c.toNat : ℤ)) subDigit_value
    borrowDigit_value carry (ldigits.zip rdigits) (ldigits.drop rdigits.length)
  have hsplit := number_take_add_drop rdigits.length ldigits h
  rw [number_zip (s := -1) (fun d => by ring) h, List.length_zip, min_eq_right h,
    List.length_drop, Nat.add_sub_cancel' h] at hseam
  rw [← hsplit, subDigits]
  simp only [number] at *
  linear_combination hseam

/-! ## The trail of a sum -/

/-- What is left to do after the trail: the digits written, and the operands' other digits. -/
structure Trail where
  written : List UInt32
  carry : Bool
  ldigits : List UInt32
  rdigits : List UInt32

/-- The trail of `add_biginthelper`: a copy of the digits below the other operand, filled with
zeros if the operands do not overlap. -/
def addTrail (l r : Operand) : Trail :=
  if l.exponent < r.exponent then
    ⟨l.digits.take (r.exponent - l.exponent), false, l.digits.drop (r.exponent - l.exponent),
      r.digits⟩
  else if r.digits.length < l.exponent - r.exponent then
    ⟨r.digits ++ List.replicate (l.exponent - r.exponent - r.digits.length) 0, false, l.digits, []⟩
  else
    ⟨r.digits.take (l.exponent - r.exponent), false, l.digits,
      r.digits.drop (l.exponent - r.exponent)⟩

/-- What a trail must provide: it lies between the two exponents, what is left of the right
operand is not longer than what is left of the left one, and nothing of the value `v` is lost. -/
structure Trail.Splits (t : Trail) (l r : Operand) (s v : ℤ) : Prop where
  length_le : t.rdigits.length ≤ t.ldigits.length
  length_add : t.written.length + t.ldigits.length = l.order - min l.exponent r.exponent
  value_eq : (number t.written + base ^ t.written.length *
    (number t.ldigits + s * (number t.rdigits + t.carry.toNat))) *
      base ^ min l.exponent r.exponent = v

theorem Operand.value_of_le {x : Operand} {e : ℕ} (h : e ≤ x.exponent) :
    x.value = base ^ (x.exponent - e) * number x.digits * base ^ e := by
  rw [value, mul_right_comm, ← pow_add, Nat.sub_add_cancel h, mul_comm]

theorem Operand.length_of_order_le {l r : Operand} (h : r.order ≤ l.order)
    (he : l.exponent ≤ r.exponent) :
    r.exponent - l.exponent + r.digits.length ≤ l.digits.length := by
  rw [order, order] at h
  omega

theorem addTrail_splits {l r : Operand} (h : r.order ≤ l.order) :
    (addTrail l r).Splits l r 1 (l.value + r.value) := by
  rw [addTrail]
  split_ifs with he hr
  · have hlen := Operand.length_of_order_le h he.le
    have hsplit := number_take_add_drop (r.exponent - l.exponent) l.digits (by omega)
    have hmin : min (r.exponent - l.exponent) l.digits.length = r.exponent - l.exponent := by omega
    refine ⟨?_, ?_, ?_⟩ <;> dsimp only
    · rw [List.length_drop]
      omega
    · rw [List.length_take, List.length_drop, Operand.order]
      omega
    · rw [Operand.value_of_le (x := r) he.le, Operand.value, min_eq_left he.le, List.length_take,
        hmin, ← hsplit, Bool.toNat_false]
      push_cast
      ring
  · have he' := not_lt.mp he
    refine ⟨Nat.zero_le _, ?_, ?_⟩ <;> dsimp only
    · rw [List.length_append, List.length_replicate, Operand.order]
      omega
    · rw [Operand.value_of_le (x := l) he', Operand.value, min_eq_right he', number_append,
        number_replicate_zero, List.length_append, List.length_replicate,
        Nat.add_sub_cancel' hr.le, Bool.toNat_false, number_nil]
      push_cast
      ring
  · have he' := not_lt.mp he
    have hr' := not_lt.mp hr
    have hsplit := number_take_add_drop (l.exponent - r.exponent) _ hr'
    refine ⟨?_, ?_, ?_⟩ <;> dsimp only
    · rw [Operand.order, Operand.order] at h
      rw [List.length_drop]
      omega
    · rw [List.length_take, Operand.order]
      omega
    · rw [Operand.value_of_le (x := l) he', Operand.value, min_eq_right he', ← hsplit,
        List.length_take, min_eq_left hr', Bool.toNat_false]
      push_cast
      ring

theorem addTrail_carry (l r : Operand) : (addTrail l r).carry = false := by
  rw [addTrail]
  split_ifs <;> rfl

/-! ## `add_biginthelper` -/

/-- The part of `add_biginthelper` behind the swap: `l` has the higher order. -/
def addOrdered (result : Bigint) (isNegSign : Bool) (l r : Operand) : Except Errno Bigint :=
  let size := l.digits.length + 1 + (l.exponent - r.exponent)
  (reserve result size).map fun result =>
    let trail := addTrail l r
    let sum := addDigits trail.ldigits trail.rdigits
    result.assign isNegSign (size - if sum.2 then 0 else 1) (min l.exponent r.exponent)
      (trail.written ++ sum.1 ++ [sum.2.toUInt32])

/-- `add_biginthelper`. -/
def addBiginthelper (result lbig rbig : Bigint) : Except Errno Bigint :=
  let l := lbig.operand
  let r := rbig.operand
  if UINT16_MAX < l.exponent ∧ UINT16_MAX < r.exponent then .error .EOVERFLOW
  else if r.digits = [] then copyBigint result lbig
  else if l.digits = [] then (copyBigint result rbig).map setpositiveBigint
  -- the number of the higher order becomes the left one
  else if l.order < r.order then addOrdered result lbig.isnegative r l
  else addOrdered result lbig.isnegative l r

theorem assign_carry_represents (big : Bigint) (isNegSign carry : Bool) {size exponent : ℕ}
    {ds : List UInt32} {v : ℤ} (hsize : size = ds.length + 1) (hs : size ≤ INT16_MAX)
    (he : exponent ≤ UINT16_MAX) (hpos : ds ≠ [])
    (hv : (number ds + base ^ ds.length * carry.toNat) * base ^ exponent = v)
    (hlow : base ^ (ds.length - 1) * base ^ exponent ≤ v) :
    (big.assign isNegSign (size - if carry then 0 else 1) exponent
      (ds ++ [carry.toUInt32])).Represents isNegSign v := by
  have hlen := List.length_pos_iff.mpr hpos
  subst hsize
  cases carry with
  | false =>
    have htake : (ds ++ [false.toUInt32]).take ds.length = ds := List.take_left
    rw [Bool.toNat_false, Nat.cast_zero, mul_zero, add_zero] at hv
    refine assign_represents big isNegSign (by simp; omega) (by simp) he ?_ (by simp; omega) ?_
    · simp only [Bool.false_eq_true, if_false, Nat.add_sub_cancel, htake]
      refine leading_of_pow_le (le_of_mul_le_mul_right ?_ (base_pow_pos exponent))
      rwa [hv]
    · simpa only [Bool.false_eq_true, if_false, Nat.add_sub_cancel, htake] using hv
  | true =>
    have htake : (ds ++ [true.toUInt32]).take (ds.length + 1) = ds ++ [true.toUInt32] :=
      List.take_of_length_le (by simp)
    simp only [if_true, Nat.sub_zero]
    refine assign_represents big isNegSign hs (by simp) he ?_ (Nat.succ_pos _) ?_
    · rw [htake]
      exact Leading.append_left (by decide) (List.cons_ne_nil _ _)
    · rw [htake, number_append, ← hv, number_cons, number_nil, toNat_toUInt32, mul_zero, add_zero]

theorem addOrdered_represents {result new : Bigint} {isNegSign : Bool} {l r : Operand}
    (h : r.order ≤ l.order) (hl : Leading l.digits) (hne : l.digits ≠ [])
    (he : min l.exponent r.exponent ≤ UINT16_MAX)
    (hnew : addOrdered result isNegSign l r = .ok new) :
    new.Represents isNegSign (l.value + r.value) := by
  obtain ⟨big, hres, rfl⟩ := map_eq_ok hnew
  have hsize := reserve_le hres
  obtain ⟨hle, hlen, hval⟩ := addTrail_splits h
  have hadd := addDigits_value hle
  have hlen' := addDigits_length hle
  have hpos := List.length_pos_iff.mpr hne
  have hn : ((addTrail l r).written ++
      (addDigits (addTrail l r).ldigits (addTrail l r).rdigits).1).length =
        l.digits.length + (l.exponent - r.exponent) := by
    rw [List.length_append, hlen', hlen, Operand.order]
    omega
  refine assign_carry_represents big isNegSign _ (by omega) hsize he ?_ ?_ ?_
  · rw [← List.length_pos_iff]
    omega
  · rw [← hval, number_append, List.length_append, hlen', pow_add, addTrail_carry,
      Bool.toNat_false]
    push_cast
    linear_combination
      base ^ (addTrail l r).written.length * base ^ min l.exponent r.exponent * hadd
  · have hexp : l.digits.length + (l.exponent - r.exponent) - 1 + min l.exponent r.exponent =
        l.order - 1 := by
      rw [Operand.order]
      omega
    rw [hn, ← pow_add, hexp]
    linarith [Operand.pow_order_le hl hne, r.value_nonneg]

theorem min_exponent_le {l r : Operand}
    (h : ¬(UINT16_MAX < l.exponent ∧ UINT16_MAX < r.exponent)) :
    min l.exponent r.exponent ≤ UINT16_MAX := by
  rw [min_le_iff]
  by_contra hc
  exact h ⟨by omega, by omega⟩

/-- **`add_biginthelper`** adds the magnitudes and takes the sign of the left operand. -/
theorem addBiginthelper_represents {result lbig rbig new : Bigint} (hl : lbig.WellFormed)
    (hr : rbig.WellFormed) (h : addBiginthelper result lbig rbig = .ok new) :
    new.Represents lbig.isnegative (lbig.magnitude + rbig.magnitude) := by
  rw [addBiginthelper] at h
  split_ifs at h with hover hr0 hl0 horder
  · rw [magnitude_eq_zero (hr.operand_eq_nil.mp hr0), add_zero]
    exact represents_of_copyBigint hl h
  · obtain ⟨copy, hcopy, rfl⟩ := map_eq_ok h
    have hs := copyBigint_same hr hcopy
    have hl0 := hl.operand_eq_nil.mp hl0
    rw [magnitude_eq_zero hl0, zero_add, isnegative_of_nrdigits hl0, ← hs.magnitude]
    exact setpositiveBigint_represents (hs.wellFormed hr)
  · rw [← operand_value, ← operand_value, add_comm]
    refine addOrdered_represents horder.le hr.operand_leading hr0 ?_ h
    rw [min_comm]
    exact min_exponent_le hover
  · rw [← operand_value, ← operand_value]
    exact addOrdered_represents (not_lt.mp horder) hl.operand_leading hl0
      (min_exponent_le hover) h

theorem addOrdered_exponent {result new : Bigint} {isNegSign : Bool} {l r : Operand}
    (he : min l.exponent r.exponent ≤ UINT16_MAX)
    (hnew : addOrdered result isNegSign l r = .ok new) :
    new.exponent = min l.exponent r.exponent := by
  obtain ⟨big, _, rfl⟩ := map_eq_ok hnew
  exact uint16_of_le he

theorem addBiginthelper_exponent {result lbig rbig new : Bigint} (hl : lbig.operand.digits ≠ [])
    (hr : rbig.operand.digits ≠ []) (h : addBiginthelper result lbig rbig = .ok new) :
    new.exponent = min lbig.operand.exponent rbig.operand.exponent := by
  rw [addBiginthelper] at h
  split_ifs at h with hover horder
  · have he := min_exponent_le hover
    rw [min_comm] at he ⊢
    exact addOrdered_exponent he h
  · exact addOrdered_exponent (min_exponent_le hover) h

/-! ## The trail of a difference -/

/-- `UINT32_MAX`. -/
def UINT32_MAX : UInt32 := 0xffffffff

/-- The trail of `sub_biginthelper`: a copy of the digits of `l` below `r`, or the digits of `r`
below `l`, inverted.  The lowest of them is not zero, so its complement needs no carry; the
inversion starts the borrow. -/
def subTrail (l r : Operand) : Trail :=
  if l.exponent < r.exponent then
    ⟨l.digits.take (r.exponent - l.exponent), false, l.digits.drop (r.exponent - l.exponent),
      r.digits⟩
  else if r.exponent < l.exponent then
    let first := UINT32_MAX - r.digits.headD 0 + 1
    if r.digits.length < l.exponent - r.exponent then
      ⟨first :: (r.digits.tail.map (UINT32_MAX - ·) ++
        List.replicate (l.exponent - r.exponent - r.digits.length) UINT32_MAX), true, l.digits, []⟩
    else
      ⟨first :: (r.digits.tail.take (l.exponent - r.exponent - 1)).map (UINT32_MAX - ·), true,
        l.digits, r.digits.drop (l.exponent - r.exponent)⟩
  else ⟨[], false, l.digits, r.digits⟩

theorem toNat_UINT32_MAX_sub (d : UInt32) : ((UINT32_MAX - d).toNat : ℤ) = base - 1 - d.toNat := by
  have hd := d.toNat_lt
  rw [UInt32.toNat_sub, UINT32_MAX, base_eq]
  simp only [UInt32.reduceToNat]
  omega

theorem toNat_complement {d : UInt32} (h : d ≠ 0) :
    ((UINT32_MAX - d + 1).toNat : ℤ) = base - d.toNat := by
  have hd := d.toNat_lt
  have h0 : d.toNat ≠ 0 := fun h0 => h (UInt32.toNat_inj.mp h0)
  rw [UInt32.toNat_add, UInt32.toNat_sub, UINT32_MAX, base_eq]
  simp only [UInt32.reduceToNat]
  omega

theorem number_map_invert (ds : List UInt32) :
    number (ds.map (UINT32_MAX - ·)) = base ^ ds.length - 1 - number ds := by
  induction ds with
  | nil => simp
  | cons d ds ih =>
    rw [List.map_cons, number_cons, ih, toNat_UINT32_MAX_sub, number_cons, List.length_cons]
    ring

theorem number_replicate_max (n : ℕ) :
    number (List.replicate n UINT32_MAX) = base ^ n - 1 := by
  have h := number_map_invert (List.replicate n 0)
  rw [List.map_replicate, number_replicate_zero, List.length_replicate] at h
  rw [Int.sub_zero] at h
  exact h

theorem number_invert {d : UInt32} (h : d ≠ 0) (ds : List UInt32) :
    number ((UINT32_MAX - d + 1) :: ds.map (UINT32_MAX - ·)) =
      base ^ (ds.length + 1) - number (d :: ds) := by
  rw [number_cons, number_map_invert, toNat_complement h, number_cons]
  ring

theorem number_invert_append {d : UInt32} (h : d ≠ 0) (ds : List UInt32) (n : ℕ) :
    number ((UINT32_MAX - d + 1) ::
        (ds.map (UINT32_MAX - ·) ++ List.replicate n UINT32_MAX)) =
      base ^ (ds.length + 1 + n) - number (d :: ds) := by
  rw [← List.cons_append, number_append, number_invert h, number_replicate_max, List.length_cons,
    List.length_map, pow_add]
  ring

theorem subTrail_splits {l r : Operand} (h : r.order ≤ l.order)
    (hr : r.exponent < l.exponent → r.digits ≠ []) (hhead : r.digits.head? ≠ some 0) :
    (subTrail l r).Splits l r (-1) (l.value - r.value) := by
  rw [subTrail]
  split_ifs with he he' hlen
  · have hlen := Operand.length_of_order_le h he.le
    have hsplit := number_take_add_drop (r.exponent - l.exponent) l.digits (by omega)
    have hmin : min (r.exponent - l.exponent) l.digits.length = r.exponent - l.exponent := by omega
    refine ⟨?_, ?_, ?_⟩ <;> dsimp only
    · rw [List.length_drop]
      omega
    · rw [List.length_take, List.length_drop, Operand.order]
      omega
    · rw [Operand.value_of_le (x := r) he.le, Operand.value, min_eq_left he.le, List.length_take,
        hmin, ← hsplit, Bool.toNat_false]
      push_cast
      ring
  · obtain ⟨d, ds, hds⟩ := List.exists_cons_of_ne_nil (hr he')
    have hd : d ≠ 0 := by
      rintro rfl
      exact hhead (by rw [hds]; rfl)
    have hdl : ds.length + 1 < l.exponent - r.exponent := by rwa [hds] at hlen
    refine ⟨Nat.zero_le _, ?_, ?_⟩ <;> dsimp only
    · rw [hds]
      simp only [List.length_cons, List.length_append, List.length_map, List.tail_cons,
        List.length_replicate, Operand.order]
      omega
    · have hw := number_invert_append hd ds (l.exponent - r.exponent - r.digits.length)
      have hk : ds.length + 1 + (l.exponent - r.exponent - r.digits.length) =
          l.exponent - r.exponent := by
        rw [hds, List.length_cons]
        omega
      rw [Operand.value_of_le (x := l) he'.le, Operand.value, min_eq_right he'.le, hds,
        List.headD_cons, List.tail_cons, ← hds, hw, hk, ← hds, number_nil, Bool.toNat_true,
        List.length_cons, List.length_append, List.length_map, List.length_replicate,
        show ds.length + (l.exponent - r.exponent - r.digits.length) + 1 =
          l.exponent - r.exponent by omega]
      push_cast
      ring
  · obtain ⟨d, ds, hds⟩ := List.exists_cons_of_ne_nil (hr he')
    have hd : d ≠ 0 := by
      rintro rfl
      exact hhead (by rw [hds]; rfl)
    obtain ⟨k, hk⟩ : ∃ k, l.exponent - r.exponent = k + 1 :=
      ⟨l.exponent - r.exponent - 1, by omega⟩
    have hdl : k ≤ ds.length := by
      rw [hds, List.length_cons] at hlen
      omega
    rw [hk, hds, List.headD_cons, List.tail_cons, Nat.add_sub_cancel, List.drop_succ_cons]
    refine ⟨?_, ?_, ?_⟩ <;> dsimp only
    · rw [Operand.order, Operand.order, hds, List.length_cons] at h
      rw [List.length_drop]
      omega
    · rw [List.length_cons, List.length_map, List.length_take, min_eq_left hdl, Operand.order]
      omega
    · have hsplit := number_take_add_drop k _ hdl
      rw [Operand.value_of_le (x := l) he'.le, Operand.value, min_eq_right he'.le, hk, hds,
        number_invert hd, List.length_cons, List.length_map, List.length_take, min_eq_left hdl,
        number_cons, number_cons, ← hsplit, Bool.toNat_true]
      push_cast
      ring
  · have hee : l.exponent = r.exponent := by omega
    refine ⟨?_, ?_, ?_⟩ <;> dsimp only
    · rw [Operand.order, Operand.order] at h
      omega
    · rw [Operand.order, List.length_nil]
      omega
    · rw [Operand.value, Operand.value, hee, min_self, Bool.toNat_false, number_nil,
        List.length_nil]
      push_cast
      ring

/-! ## The leading digits of a difference -/

/-- The loop that compares two operands of the same order from the top: which of them is the
smaller one, and how many digits of each are left when the equal ones are dropped.  `none` means
that the operands are equal. -/
def compareTop (ldigits rdigits : List UInt32) (lnrdigits rnrdigits : ℕ) :
    ℕ → Option (Bool × ℕ × ℕ)
  | 0 =>
    if rnrdigits ≠ 0 ∨ lnrdigits ≠ 0 then some (decide (rnrdigits ≠ 0), lnrdigits, rnrdigits)
    else none
  | minsize + 1 =>
    if ldigits.getD (lnrdigits + minsize) 0 ≠ rdigits.getD (rnrdigits + minsize) 0 then
      some (decide (ldigits.getD (lnrdigits + minsize) 0 < rdigits.getD (rnrdigits + minsize) 0),
        lnrdigits + (minsize + 1), rnrdigits + (minsize + 1))
    else compareTop ldigits rdigits lnrdigits rnrdigits minsize

/-- `while (0 == destdigits[-1]) { --destdigits; --size; }` -/
def skipLeadingZero (ds : List UInt32) : ℕ → ℕ
  | 0 => 0
  | size + 1 => if ds.getD size 0 = 0 then skipLeadingZero ds size else size + 1

theorem take_succ_getD {ds : List UInt32} {n : ℕ} (h : n < ds.length) :
    ds.take (n + 1) = ds.take n ++ [ds.getD n 0] := by
  rw [List.take_succ_eq_append_getElem h, List.getD_eq_getElem _ _ h]

theorem number_take_succ {ds : List UInt32} {n : ℕ} (h : n < ds.length) :
    number (ds.take (n + 1)) = number (ds.take n) + base ^ n * (ds.getD n 0).toNat := by
  rw [take_succ_getD h, number_append, List.length_take, min_eq_left h.le, number_cons, number_nil,
    mul_zero, add_zero]

theorem skipLeadingZero_spec {ds : List UInt32} {size : ℕ} (h : size ≤ ds.length) :
    skipLeadingZero ds size ≤ size ∧
      number (ds.take (skipLeadingZero ds size)) = number (ds.take size) ∧
      Leading (ds.take (skipLeadingZero ds size)) := by
  induction size with
  | zero => simp [skipLeadingZero, Leading]
  | succ size ih =>
    rw [skipLeadingZero]
    split_ifs with h0
    · obtain ⟨hle, hnum, hlead⟩ := ih (by omega)
      refine ⟨by omega, ?_, hlead⟩
      rw [hnum, number_take_succ h, h0, UInt32.toNat_zero, Nat.cast_zero, mul_zero, add_zero]
    · refine ⟨le_rfl, rfl, ?_⟩
      rw [take_succ_getD h]
      exact Leading.append_left (by simpa [Leading] using h0) (List.cons_ne_nil _ _)

/-- The lower `n` digits of an operand. -/
def Operand.take (x : Operand) (n : ℕ) : Operand := { x with digits := x.digits.take n }

theorem Operand.take_order {x : Operand} {n : ℕ} (h : n ≤ x.digits.length) :
    (x.take n).order = x.exponent + n := by
  rw [order, take, List.length_take, min_eq_left h]

theorem Operand.take_value_add {x : Operand} {n : ℕ} (h : n ≤ x.digits.length) :
    (x.take n).value + base ^ (x.exponent + n) * number (x.digits.drop n) = x.value := by
  rw [value, take, value, ← number_take_add_drop n _ h, pow_add]
  ring

theorem Operand.take_lt_take {x y : Operand} {n m : ℕ} (hx : n < x.digits.length)
    (hy : m < y.digits.length) (ho : x.exponent + n = y.exponent + m)
    (hd : x.digits.getD n 0 < y.digits.getD m 0) :
    (x.take (n + 1)).value < (y.take (m + 1)).value := by
  have hlow := (x.take n).value_lt_pow_order
  have hnonneg := (y.take m).value_nonneg
  have hdig : ((x.digits.getD n 0).toNat : ℤ) + 1 ≤ (y.digits.getD m 0).toNat := by
    have := UInt32.lt_iff_toNat_lt.mp hd
    omega
  have hmul := mul_le_mul_of_nonneg_left hdig (base_pow_pos (y.exponent + m)).le
  rw [take_order hx.le, ho] at hlow
  rw [value, take] at hlow hnonneg
  rw [value, take, value, take, number_take_succ hx, number_take_succ hy]
  dsimp only at *
  calc (number (x.digits.take n) + base ^ n * ((x.digits.getD n 0).toNat : ℤ)) * base ^ x.exponent
      = number (x.digits.take n) * base ^ x.exponent
          + base ^ (x.exponent + n) * (x.digits.getD n 0).toNat := by rw [pow_add]; ring
    _ < base ^ (y.exponent + m) + base ^ (y.exponent + m) * (x.digits.getD n 0).toNat := by
        rw [ho]
        linarith
    _ ≤ number (y.digits.take m) * base ^ y.exponent
          + base ^ (y.exponent + m) * (y.digits.getD m 0).toNat := by linarith
    _ = (number (y.digits.take m) + base ^ m * ((y.digits.getD m 0).toNat : ℤ))
          * base ^ y.exponent := by rw [pow_add]; ring

theorem drop_succ_eq {xs ys : List UInt32} {n m : ℕ} (hx : n < xs.length) (hy : m < ys.length)
    (h : xs.drop (n + 1) = ys.drop (m + 1)) (hd : xs.getD n 0 = ys.getD m 0) :
    xs.drop n = ys.drop m := by
  rw [List.drop_eq_getElem_cons hx, List.drop_eq_getElem_cons hy, h]
  rw [List.getD_eq_getElem _ _ hx, List.getD_eq_getElem _ _ hy] at hd
  rw [hd]

theorem Operand.take_value_pos {x : Operand} (hhead : x.digits.head? ≠ some 0) {n : ℕ}
    (hn : n ≠ 0) (hlen : n ≤ x.digits.length) : 0 < (x.take n).value := by
  obtain ⟨d, ds, hds⟩ : ∃ d ds, x.digits = d :: ds := by
    cases hx : x.digits with
    | nil => simp [hx] at hlen; omega
    | cons d ds => exact ⟨d, ds, rfl⟩
  obtain ⟨k, rfl⟩ := Nat.exists_eq_succ_of_ne_zero hn
  have hd : d.toNat ≠ 0 := fun h0 => hhead (by
    rw [hds, UInt32.toNat_inj.mp (h0.trans UInt32.toNat_zero.symm)]
    rfl)
  refine mul_pos ?_ (base_pow_pos _)
  rw [take, hds, List.take_succ_cons, number_cons]
  have := mul_nonneg base_pos.le (number_nonneg (ds.take k))
  omega

/-- What `compareTop` has found: the digits that are left lie at the same order, the dropped ones
are equal, and the flag says which operand is smaller. -/
structure Compared (l r : Operand) (isSwap : Bool) (lnrdigits rnrdigits : ℕ) : Prop where
  lnrdigits_le : lnrdigits ≤ l.digits.length
  rnrdigits_le : rnrdigits ≤ r.digits.length
  order_eq : l.exponent + lnrdigits = r.exponent + rnrdigits
  dropped : l.digits.drop lnrdigits = r.digits.drop rnrdigits
  lt : if isSwap then (l.take lnrdigits).value < (r.take rnrdigits).value
    else (r.take rnrdigits).value < (l.take lnrdigits).value

theorem Compared.value_sub {l r : Operand} {isSwap : Bool} {i j : ℕ}
    (h : Compared l r isSwap i j) :
    (l.take i).value - (r.take j).value = l.value - r.value := by
  rw [← Operand.take_value_add h.lnrdigits_le, ← Operand.take_value_add h.rnrdigits_le, h.order_eq,
    h.dropped]
  ring

theorem compareTop_spec {l r : Operand} (hl : l.digits.head? ≠ some 0)
    (hr : r.digits.head? ≠ some 0) (lnrdigits rnrdigits minsize : ℕ)
    (h0 : lnrdigits = 0 ∨ rnrdigits = 0) (ho : l.exponent + lnrdigits = r.exponent + rnrdigits)
    (hlen : lnrdigits + minsize ≤ l.digits.length) (hrlen : rnrdigits + minsize ≤ r.digits.length)
    (hdrop : l.digits.drop (lnrdigits + minsize) = r.digits.drop (rnrdigits + minsize)) :
    match compareTop l.digits r.digits lnrdigits rnrdigits minsize with
    | none => l.value = r.value
    | some (isSwap, i, j) => Compared l r isSwap i j := by
  induction minsize with
  | zero =>
    rw [compareTop]
    split_ifs with hne
    · refine ⟨hlen, hrlen, ho, hdrop, ?_⟩
      by_cases hr0 : rnrdigits = 0
      · have hl0 : lnrdigits ≠ 0 := by omega
        simp only [hr0, ne_eq, not_true, decide_false, Bool.false_eq_true, if_false]
        have := Operand.take_value_pos hl hl0 hlen
        rwa [Operand.value, Operand.take, List.take_zero, number_nil, zero_mul]
      · have hl0 : lnrdigits = 0 := by omega
        simp only [hl0, ne_eq, hr0, not_false_eq_true, decide_true, if_true]
        have := Operand.take_value_pos hr hr0 hrlen
        rwa [Operand.value, Operand.take, List.take_zero, number_nil, zero_mul]
    · obtain ⟨rfl, rfl⟩ : rnrdigits = 0 ∧ lnrdigits = 0 := by omega
      simp only [Nat.add_zero, List.drop_zero] at hdrop ho
      rw [Operand.value, Operand.value, ho, hdrop]
  | succ m ih =>
    rw [compareTop]
    split_ifs with hd
    · have ho' : l.exponent + (lnrdigits + m) = r.exponent + (rnrdigits + m) := by omega
      refine ⟨hlen, hrlen, by omega, hdrop, ?_⟩
      by_cases hlt : l.digits.getD (lnrdigits + m) 0 < r.digits.getD (rnrdigits + m) 0
      · simp only [hlt, decide_true, if_true]
        exact Operand.take_lt_take hlen hrlen ho' hlt
      · simp only [hlt, decide_false, Bool.false_eq_true, if_false]
        refine Operand.take_lt_take hrlen hlen ho'.symm ?_
        exact UInt32.lt_of_le_of_ne (UInt32.not_lt.mp hlt) (Ne.symm hd)
    · exact ih (by omega) (by omega) (drop_succ_eq hlen hrlen hdrop (not_not.mp hd))

theorem Operand.value_lt_of_order_lt {x y : Operand} (h : x.order < y.order)
    (hy : Leading y.digits) (hne : y.digits ≠ []) : x.value < y.value :=
  (x.value_lt_pow_order.trans_le
    (pow_le_pow_right₀ (by rw [base_eq]; norm_num) (Nat.le_sub_one_of_lt h))).trans_le
      (pow_order_le hy hne)

/-! ## `sub_biginthelper` -/

/-- The part of `sub_biginthelper` behind the swap: `l` is bigger than `r`. -/
def subOrdered (result : Bigint) (isNegSign : Bool) (l r : Operand) : Except Errno Bigint :=
  let size := l.digits.length + (l.exponent - r.exponent)
  (reserve result size).map fun result =>
    let trail := subTrail l r
    let digits := trail.written ++ (subDigits trail.carry trail.ldigits trail.rdigits).1
    result.assign isNegSign (skipLeadingZero digits size) (min l.exponent r.exponent) digits

/-- `sub_biginthelper`. -/
def subBiginthelper (result lbig rbig : Bigint) : Except Errno Bigint :=
  let l := lbig.operand
  let r := rbig.operand
  let minsize := min l.digits.length r.digits.length
  if UINT16_MAX < l.exponent ∧ UINT16_MAX < r.exponent then .error .EOVERFLOW
  else if r.digits = [] then copyBigint result lbig
  else if l.digits = [] then (copyBigint result rbig).map setnegativeBigint
  else if l.order = r.order then
    match compareTop l.digits r.digits (l.digits.length - minsize) (r.digits.length - minsize)
      minsize with
    | none => .ok (setPu32Bigint result 0)
    | some (isSwap, lnrdigits, rnrdigits) =>
      if isSwap then subOrdered result (!lbig.isnegative) (r.take rnrdigits) (l.take lnrdigits)
      else subOrdered result lbig.isnegative (l.take lnrdigits) (r.take rnrdigits)
  else if l.order < r.order then subOrdered result (!lbig.isnegative) r l
  else subOrdered result lbig.isnegative l r

theorem subOrdered_represents {result new : Bigint} {isNegSign : Bool} {l r : Operand}
    (h : r.order ≤ l.order) (hlt : r.value < l.value) (hhead : r.digits.head? ≠ some 0)
    (hr : r.exponent < l.exponent → r.digits ≠ []) (he : min l.exponent r.exponent ≤ UINT16_MAX)
    (hnew : subOrdered result isNegSign l r = .ok new) :
    new.Represents isNegSign (l.value - r.value) := by
  obtain ⟨big, hres, rfl⟩ := map_eq_ok hnew
  have hsize := reserve_le hres
  obtain ⟨hle, hlen, hval⟩ := subTrail_splits h hr hhead
  have hsub := subDigits_value (subTrail l r).carry hle
  have hlen' := subDigits_length (subTrail l r).carry hle
  set sub := subDigits (subTrail l r).carry (subTrail l r).ldigits (subTrail l r).rdigits
  set digits := (subTrail l r).written ++ sub.1 with hdigits
  have hbase := base_pow_pos (min l.exponent r.exponent)
  have hn : digits.length = l.digits.length + (l.exponent - r.exponent) := by
    rw [hdigits, List.length_append, hlen', hlen, Operand.order]
    omega
  have hvalue : (number digits - base ^ digits.length * sub.2.toNat) *
      base ^ min l.exponent r.exponent = l.value - r.value := by
    rw [← hval, hdigits, number_append, List.length_append, hlen', pow_add]
    linear_combination
      base ^ (subTrail l r).written.length * base ^ min l.exponent r.exponent * hsub
  -- a borrow that is left would make the difference negative
  have hborrow : sub.2 = false := by
    by_contra hc
    rw [Bool.not_eq_false] at hc
    rw [hc, Bool.toNat_true, Nat.cast_one, mul_one] at hvalue
    have hneg := mul_neg_of_neg_of_pos (sub_neg.mpr (number_lt digits)) hbase
    linarith
  rw [hborrow, Bool.toNat_false, Nat.cast_zero, mul_zero, sub_zero] at hvalue
  obtain ⟨hskip, hnum, hlead⟩ := skipLeadingZero_spec hn.ge
  rw [← hn, List.take_length] at hnum
  rw [← hn] at hskip hsize
  change (big.assign isNegSign (skipLeadingZero digits _) _ digits).Represents _ _
  rw [← hn] at hlead ⊢
  refine assign_represents big isNegSign (by omega) hskip he hlead ?_ (by rw [hnum, hvalue])
  by_contra h0
  rw [Nat.eq_zero_of_not_pos h0, List.take_zero, number_nil] at hnum
  rw [← hnum, zero_mul] at hvalue
  linarith

theorem Operand.take_head {x : Operand} (h : x.digits.head? ≠ some 0) (n : ℕ) :
    (x.take n).digits.head? ≠ some 0 := by
  cases n with
  | zero => simp [take]
  | succ n => rwa [take, List.head?_take, if_neg (Nat.succ_ne_zero n)]

theorem subOrdered_take_represents {result new : Bigint} {isNegSign : Bool} {l r : Operand}
    {i j : ℕ} (hi : i ≤ l.digits.length) (hj : j ≤ r.digits.length)
    (ho : l.exponent + i = r.exponent + j) (hlt : (r.take j).value < (l.take i).value)
    (hhead : r.digits.head? ≠ some 0) (he : min l.exponent r.exponent ≤ UINT16_MAX)
    (hnew : subOrdered result isNegSign (l.take i) (r.take j) = .ok new) :
    new.Represents isNegSign ((l.take i).value - (r.take j).value) := by
  refine subOrdered_represents ?_ hlt (Operand.take_head hhead j) (fun hexp hnil => ?_) he hnew
  · rw [Operand.take_order hi, Operand.take_order hj, ho]
  · -- without digits the right operand ends where it starts, and the left one is not below
    have hj0 : (r.take j).digits.length = 0 := by rw [hnil, List.length_nil]
    rw [Operand.take, List.length_take] at hj0
    change r.exponent < l.exponent at hexp
    omega

/-- **`sub_biginthelper`** subtracts the magnitudes and takes the sign of the left operand, or
the other sign if the left operand is the smaller one. -/
theorem subBiginthelper_represents {result lbig rbig new : Bigint} (hl : lbig.WellFormed)
    (hr : rbig.WellFormed) (h : subBiginthelper result lbig rbig = .ok new) :
    new.Represents lbig.isnegative (lbig.magnitude - rbig.magnitude) := by
  have hlh := lbig.operand_head
  have hrh := rbig.operand_head
  rw [subBiginthelper] at h
  split_ifs at h with hover hr0 hl0 horder hlt
  · rw [magnitude_eq_zero (hr.operand_eq_nil.mp hr0), sub_zero]
    exact represents_of_copyBigint hl h
  · obtain ⟨copy, hcopy, rfl⟩ := map_eq_ok h
    have hs := copyBigint_same hr hcopy
    have hl0 := hl.operand_eq_nil.mp hl0
    rw [magnitude_eq_zero hl0, isnegative_of_nrdigits hl0, ← hs.magnitude, zero_sub]
    exact (setnegativeBigint_represents (hs.wellFormed hr)).not
  · have he := min_exponent_le hover
    rw [← operand_value, ← operand_value]
    have hcmp := compareTop_spec hlh hrh
      (lbig.operand.digits.length - min lbig.operand.digits.length rbig.operand.digits.length)
      (rbig.operand.digits.length - min lbig.operand.digits.length rbig.operand.digits.length)
      (min lbig.operand.digits.length rbig.operand.digits.length)
      (by omega) (by rw [Operand.order, Operand.order] at horder; omega) (by omega) (by omega)
      (by
        rw [Nat.sub_add_cancel (min_le_left _ _), Nat.sub_add_cancel (min_le_right _ _),
          List.drop_length, List.drop_length])
    split at h
    · rename_i hnone
      cases h
      rw [hnone] at hcmp
      rw [hcmp, sub_self]
      exact setPu32Bigint_zero_represents result _
    · rename_i isSwap i j hsome
      rw [hsome] at hcmp
      rw [← hcmp.value_sub]
      have hlt := hcmp.lt
      cases isSwap with
      | false =>
        exact subOrdered_take_represents hcmp.lnrdigits_le hcmp.rnrdigits_le hcmp.order_eq hlt hrh
          he h
      | true =>
        rw [← neg_sub]
        rw [min_comm] at he
        exact (subOrdered_take_represents hcmp.rnrdigits_le hcmp.lnrdigits_le hcmp.order_eq.symm
          hlt hlh he h).not
  · rw [← operand_value, ← operand_value, ← neg_sub]
    have he := min_exponent_le hover
    rw [min_comm] at he
    exact (subOrdered_represents hlt.le (Operand.value_lt_of_order_lt hlt hr.operand_leading hr0)
      hlh (fun _ => hl0) he h).not
  · have hlt' : rbig.operand.order < lbig.operand.order := by omega
    rw [← operand_value, ← operand_value]
    exact subOrdered_represents hlt'.le (Operand.value_lt_of_order_lt hlt' hl.operand_leading hl0)
      hrh (fun _ => hr0) (min_exponent_le hover) h

/-! ## The two operations -/

/-- `add_bigint`. -/
def addBigint (result lbig rbig : Bigint) : Except Errno Bigint :=
  if lbig.isnegative = rbig.isnegative then addBiginthelper result lbig rbig
  else subBiginthelper result lbig rbig

/-- `sub_bigint`. -/
def subBigint (result lbig rbig : Bigint) : Except Errno Bigint :=
  if lbig.isnegative = rbig.isnegative then subBiginthelper result lbig rbig
  else addBiginthelper result lbig rbig

theorem value_add_of_ne {lbig rbig : Bigint} (h : lbig.isnegative ≠ rbig.isnegative) :
    lbig.value + rbig.value =
      (if lbig.isnegative then -1 else 1) * (lbig.magnitude - rbig.magnitude) := by
  rw [value_eq lbig, value_eq rbig]
  cases hl : lbig.isnegative <;> cases hr : rbig.isnegative
  · exact absurd (hl.trans hr.symm) h
  · simp [sub_eq_add_neg]
  · simp [sub_eq_add_neg, add_comm]
  · exact absurd (hl.trans hr.symm) h

theorem value_sub_of_ne {lbig rbig : Bigint} (h : lbig.isnegative ≠ rbig.isnegative) :
    lbig.value - rbig.value =
      (if lbig.isnegative then -1 else 1) * (lbig.magnitude + rbig.magnitude) := by
  rw [value_eq lbig, value_eq rbig]
  cases hl : lbig.isnegative <;> cases hr : rbig.isnegative
  · exact absurd (hl.trans hr.symm) h
  · simp
  · simp [sub_eq_add_neg, add_comm]
  · exact absurd (hl.trans hr.symm) h

theorem addBigint_spec {result lbig rbig new : Bigint} (hl : lbig.WellFormed)
    (hr : rbig.WellFormed) (h : addBigint result lbig rbig = .ok new) :
    new.WellFormed ∧ new.value = lbig.value + rbig.value := by
  rw [addBigint] at h
  split_ifs at h with hs
  · obtain ⟨hwf, hv⟩ := addBiginthelper_represents hl hr h
    refine ⟨hwf, hv.trans ?_⟩
    rw [value_eq lbig, value_eq rbig, ← hs]
    split_ifs <;> ring
  · obtain ⟨hwf, hv⟩ := subBiginthelper_represents hl hr h
    exact ⟨hwf, hv.trans (value_add_of_ne hs).symm⟩

theorem subBigint_spec {result lbig rbig new : Bigint} (hl : lbig.WellFormed)
    (hr : rbig.WellFormed) (h : subBigint result lbig rbig = .ok new) :
    new.WellFormed ∧ new.value = lbig.value - rbig.value := by
  rw [subBigint] at h
  split_ifs at h with hs
  · obtain ⟨hwf, hv⟩ := subBiginthelper_represents hl hr h
    refine ⟨hwf, hv.trans ?_⟩
    rw [value_eq lbig, value_eq rbig, ← hs]
    split_ifs <;> ring
  · obtain ⟨hwf, hv⟩ := addBiginthelper_represents hl hr h
    exact ⟨hwf, hv.trans (value_sub_of_ne hs).symm⟩

/-- **Exactness**: for all signs, numbers of digits and exponents, a sum or a difference that is
returned is well formed and exact. -/
theorem addBigint_subBigint_exact {result lbig rbig : Bigint} (hl : lbig.WellFormed)
    (hr : rbig.WellFormed) :
    (∀ new, addBigint result lbig rbig = .ok new →
      new.WellFormed ∧ new.value = lbig.value + rbig.value) ∧
    (∀ new, subBigint result lbig rbig = .ok new →
      new.WellFormed ∧ new.value = lbig.value - rbig.value) :=
  ⟨fun _ h => addBigint_spec hl hr h, fun _ h => subBigint_spec hl hr h⟩

/-- `2^64 - (7 * 2^32 + 5)`: the left operand has an exponent and a trailing zero digit, and the
borrow of the inverted digit runs through both digits. -/
theorem addBigint_exact_borrow :
    (⟨4, 2, 0, [4294967291, 4294967288, 0], by decide⟩ : Bigint).WellFormed ∧
      (⟨4, 2, 0, [4294967291, 4294967288, 0], by decide⟩ : Bigint).value =
        (⟨4, 2, 1, [0, 1], by decide⟩ : Bigint).value +
          (⟨0, -2, 0, [5, 7], by decide⟩ : Bigint).value :=
  (@addBigint_subBigint_exact ⟨4, 0, 0, [], by decide⟩ _ _ (by decide) (by decide)).1 _
    (by decide +kernel)

end Bigint
end CKern
