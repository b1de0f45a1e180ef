import CKern.Math.Bigint.DivMod
import CKern.Math.Bigint.Compare
import CKern.Math.Bigint.Shift

/-!
# `math/int/bigint.c`: calculations

* `setPi32Bigint` … `negateBigint`: numbers that are set from outside, and a change of the sign.
* `Op`, `perform`: the calls of the functions on some objects; a calculation ends with the first
  error.
* `Op.meaning`: the same on the integers.
* `Op.Proper`: the objects differ where the declarations demand it, and no call reaches one of the
  places where `mult_bigint`, `mod_bigint` and `shiftright_bigint` go wrong.
* `run_exact`: every calculation is exact.
-/

namespace CKern
namespace Bigint

/-! ## Numbers that are set -/

/-- `setPi32_bigint`. -/
def setPi32Bigint (big : Bigint) (value : Int32) : Bigint :=
  if value = 0 then { big with signAndUsedDigits := 0, exponent := 0 }
  else if value < 0 then
    { big with signAndUsedDigits := -1, exponent := 0, digits := big.write [-value.toUInt32] }
  else { big with signAndUsedDigits := 1, exponent := 0, digits := big.write [value.toUInt32] }

/-- `setPu64_bigint`. -/
def setPu64Bigint (big : Bigint) (value : UInt64) : Bigint :=
  if (value >>> 32).toUInt32 ≠ 0 then
    { big with
      signAndUsedDigits := 2
      exponent := 0
      digits := big.write [value.toUInt32, (value >>> 32).toUInt32] }
  else if value.toUInt32 ≠ 0 then
    { big with signAndUsedDigits := 1, exponent := 0, digits := big.write [value.toUInt32] }
  else { big with signAndUsedDigits := 0, exponent := 0 }

/-- `setbigfirst_bigint`. -/
def setbigfirstBigint (big : Bigint) (sign : ℤ) (numbers : List UInt32) (exponent : ℕ) :
    Except Errno Bigint :=
  if sign = 0 then .error .EINVAL
  else
    let x := Operand.skipTrailingZero numbers.reverse exponent
    if x.digits = [] then .ok (clearBigint big)
    else if UINT16_MAX < x.exponent then .error .EOVERFLOW
    else
      let size2 := skipLeadingZero x.digits x.digits.length
      (reserve big size2).map fun big2 =>
        big2.assign (sign < 0) size2 x.exponent (x.digits.take size2)

/-- `setlittlefirst_bigint`. -/
def setlittlefirstBigint (big : Bigint) (sign : ℤ) (numbers : List UInt32) (exponent : ℕ) :
    Except Errno Bigint :=
  if sign = 0 then .error .EINVAL
  else
    let size2 := skipLeadingZero numbers numbers.length
    if size2 = 0 then .ok (clearBigint big)
    else
      let x := Operand.skipTrailingZero (numbers.take size2) exponent
      if UINT16_MAX < x.exponent then .error .EOVERFLOW
      else (reserve big x.digits.length).map fun big2 =>
        big2.assign (sign < 0) x.digits.length x.exponent x.digits

/-- `negate_bigint`. -/
def negateBigint (big : Bigint) : Bigint :=
  { big with signAndUsedDigits := int16 (-big.signAndUsedDigits) }

theorem set_spec (big : Bigint) {z : ℤ} {ds : List UInt32} (hz : z.natAbs = ds.length)
    (hlen : ds.length ≤ INT16_MAX) (hlead : Leading ds) :
    ({ big with signAndUsedDigits := z, exponent := 0, digits := big.write ds } :
        Bigint).WellFormed ∧
      ({ big with signAndUsedDigits := z, exponent := 0, digits := big.write ds } : Bigint).value =
        z.sign * number ds := by
  have hvalid : ({ big with signAndUsedDigits := z, exponent := 0, digits := big.write ds } :
      Bigint).valid = ds :=
    (take_write big hz.le).trans (List.take_of_length_le hz.ge)
  refine ⟨⟨hz.trans_le hlen, hz.trans_le (length_le_write big ds), Nat.zero_le _,
    hvalid.symm ▸ hlead, fun _ => rfl⟩, ?_⟩
  rw [value, hvalid, pow_zero, mul_one]

theorem leading_singleton {d : UInt32} (hd : d ≠ 0) : Leading [d] := fun h => hd (Option.some.inj h)

theorem set_digit_spec (big : Bigint) {z : ℤ} {d : UInt32} (hz : z.natAbs = 1) (hd : d ≠ 0) :
    ({ big with signAndUsedDigits := z, exponent := 0, digits := big.write [d] } :
        Bigint).WellFormed ∧
      ({ big with signAndUsedDigits := z, exponent := 0, digits := big.write [d] } : Bigint).value =
        z.sign * d.toNat := by
  obtain ⟨hwf, hv⟩ := @set_spec big z [d] hz (show 1 ≤ INT16_MAX by decide)
    (leading_singleton hd)
  refine ⟨hwf, hv.trans ?_⟩
  rw [number_cons, number_nil, mul_zero, add_zero]

theorem setPu32Bigint_spec {big : Bigint} (value : UInt32) :
    (setPu32Bigint big value).WellFormed ∧ (setPu32Bigint big value).value = value.toNat := by
  rw [setPu32Bigint]
  split_ifs with h0
  · rw [h0]
    exact ⟨clearBigint_wellFormed big, clearBigint_value big⟩
  · obtain ⟨hwf, hv⟩ := set_digit_spec big (z := 1) rfl h0
    exact ⟨hwf, hv.trans (one_mul _)⟩

theorem setPi32Bigint_spec {big : Bigint} (value : Int32) :
    (setPi32Bigint big value).WellFormed ∧ (setPi32Bigint big value).value = value.toInt := by
  have hlt := value.toUInt32.toNat_lt
  have hcast : (value.toUInt32.toNat : ℤ) = value.toInt % 2 ^ 32 := by
    rw [← Int32.toInt_toBitVec, BitVec.toInt_eq_toNat_cond]
    have hnat : value.toUInt32.toNat = value.toBitVec.toNat := rfl
    split_ifs <;> omega
  have hge := value.le_toInt
  have hle := value.toInt_lt
  rw [setPi32Bigint]
  split_ifs with h0 hneg
  · rw [h0]
    exact ⟨clearBigint_wellFormed big, clearBigint_value big⟩
  · rw [Int32.lt_iff_toInt_lt, Int32.toInt_zero] at hneg
    have hdigit : ((-value.toUInt32).toNat : ℤ) = -value.toInt := by
      rw [UInt32.toNat_neg, UInt32.size]
      omega
    have hne : -value.toUInt32 ≠ 0 := fun hzero => by
      rw [hzero, UInt32.toNat_zero] at hdigit
      omega
    obtain ⟨hwf, hv⟩ := set_digit_spec big (z := -1) rfl hne
    refine ⟨hwf, hv.trans ?_⟩
    rw [hdigit]
    exact (neg_one_mul _).trans (neg_neg _)
  · have hdigit : (value.toUInt32.toNat : ℤ) = value.toInt := by
      rw [Int32.lt_iff_toInt_lt, Int32.toInt_zero] at hneg
      omega
    have hne : value.toUInt32 ≠ 0 := fun hzero => h0 (by
      rw [hzero, UInt32.toNat_zero] at hdigit
      exact Int32.toInt_inj.mp hdigit.symm)
    obtain ⟨hwf, hv⟩ := set_digit_spec big (z := 1) rfl hne
    exact ⟨hwf, hv.trans ((one_mul _).trans hdigit)⟩

theorem setPu64Bigint_spec {big : Bigint} (value : UInt64) :
    (setPu64Bigint big value).WellFormed ∧ (setPu64Bigint big value).value = value.toNat := by
  have hdigits :
      (value.toUInt32.toNat : ℤ) + base * (value >>> 32).toUInt32.toNat = value.toNat := by
    have hlt := value.toNat_lt
    rw [base_eq, UInt64.toNat_toUInt32, UInt64.toNat_toUInt32, UInt64.toNat_shiftRight,
      show (32 : UInt64).toNat % 64 = 32 from rfl, Nat.shiftRight_eq_div_pow]
    omega
  rw [setPu64Bigint]
  split_ifs with hhigh hlow
  · obtain ⟨hwf, hv⟩ := @set_spec big 2 [value.toUInt32, _] rfl
      (show 2 ≤ INT16_MAX by decide)
      (@Leading.append_left [value.toUInt32] _ (leading_singleton hhigh) (List.cons_ne_nil _ _))
    refine ⟨hwf, hv.trans ?_⟩
    rw [← hdigits, number_cons, number_cons, number_nil, mul_zero, add_zero]
    exact one_mul _
  · rw [not_not] at hhigh
    rw [hhigh, UInt32.toNat_zero, Nat.cast_zero, mul_zero, add_zero] at hdigits
    obtain ⟨hwf, hv⟩ := set_digit_spec big (z := 1) rfl hlow
    exact ⟨hwf, hv.trans ((one_mul _).trans hdigits)⟩
  · rw [not_not] at hhigh hlow
    rw [hhigh, hlow, UInt32.toNat_zero, Nat.cast_zero, mul_zero, add_zero] at hdigits
    exact ⟨clearBigint_wellFormed big, (clearBigint_value big).trans hdigits⟩

theorem Represents.of_sign {new : Bigint} {sign v : ℤ} (h0 : sign ≠ 0)
    (h : new.Represents (decide (sign < 0)) v) : new.WellFormed ∧ new.value = sign.sign * v := by
  refine ⟨h.1, h.2.trans ?_⟩
  rcases lt_or_gt_of_ne h0 with hneg | hpos
  · rw [if_pos (decide_eq_true hneg), Int.sign_eq_neg_one_of_neg hneg]
  · rw [if_neg (by simpa using hpos.le), Int.sign_eq_one_of_pos hpos]

theorem setbigfirstBigint_spec {big new : Bigint} {sign : ℤ} {numbers : List UInt32} {exponent : ℕ}
    (h : setbigfirstBigint big sign numbers exponent = .ok new) :
    new.WellFormed ∧ new.value = sign.sign * (number numbers.reverse * base ^ exponent) := by
  have hx := Operand.skipTrailingZero_value numbers.reverse exponent
  have hhead := Operand.skipTrailingZero_head numbers.reverse exponent
  rw [setbigfirstBigint] at h
  dsimp only at h
  generalize Operand.skipTrailingZero numbers.reverse exponent = x at *
  split_ifs at h with h0 hnil hexp
  · obtain rfl := Except.ok.inj h
    refine ⟨clearBigint_wellFormed big, (clearBigint_value big).trans ?_⟩
    rw [← hx, Operand.value, hnil, number_nil, zero_mul, mul_zero]
  · obtain ⟨big2, hres, rfl⟩ := map_eq_ok h
    obtain ⟨hle, hnum, hlead⟩ := skipLeadingZero_spec (le_refl x.digits.length)
    rw [List.take_length] at hnum
    have hpos : 0 < skipLeadingZero x.digits x.digits.length := by
      rw [Nat.pos_iff_ne_zero]
      intro hzero
      obtain ⟨d, ds, hds⟩ := List.exists_cons_of_ne_nil hnil
      have hnonneg := mul_nonneg base_pos.le (number_nonneg ds)
      rw [hzero, List.take_zero, number_nil, hds, number_cons] at hnum
      have hd : d.toNat = (0 : UInt32).toNat := by
        rw [UInt32.toNat_zero]
        omega
      exact hhead (by rw [hds, UInt32.toNat_inj.mp hd]; rfl)
    refine (assign_represents big2 _ (reserve_le hres) ?_ (not_lt.mp hexp) ?_ hpos ?_).of_sign h0
    · rw [List.length_take, min_eq_left hle]
    · rwa [List.take_take, min_self]
    · rw [List.take_take, min_self, hnum]
      exact hx

theorem setlittlefirstBigint_spec {big new : Bigint} {sign : ℤ} {numbers : List UInt32}
    {exponent : ℕ} (h : setlittlefirstBigint big sign numbers exponent = .ok new) :
    new.WellFormed ∧ new.value = sign.sign * (number numbers * base ^ exponent) := by
  obtain ⟨hle, hnum, hlead⟩ := skipLeadingZero_spec (le_refl numbers.length)
  rw [List.take_length] at hnum
  rw [setlittlefirstBigint] at h
  dsimp only at h
  generalize skipLeadingZero numbers numbers.length = size2 at *
  split_ifs at h with h0 hsize hexp
  · obtain rfl := Except.ok.inj h
    refine ⟨clearBigint_wellFormed big, (clearBigint_value big).trans ?_⟩
    rw [← hnum, hsize, List.take_zero, number_nil, zero_mul, mul_zero]
  · obtain ⟨big2, hres, rfl⟩ := map_eq_ok h
    have hne : numbers.take size2 ≠ [] := by
      rw [← List.length_pos_iff, List.length_take]
      omega
    refine (assign_represents big2 _ (reserve_le hres) le_rfl (not_lt.mp hexp) ?_ ?_ ?_).of_sign h0
    · rw [List.take_length]
      exact hlead.of_suffix (Operand.skipTrailingZero_suffix _ _)
    · exact List.length_pos_iff.mpr (Operand.skipTrailingZero_ne_nil exponent hlead hne)
    · rw [List.take_length, ← hnum]
      exact Operand.skipTrailingZero_value _ _

theorem negateBigint_spec {big : Bigint} (h : big.WellFormed) :
    (negateBigint big).WellFormed ∧ (negateBigint big).value = -big.value := by
  have hz : int16 (-big.signAndUsedDigits) =
      if !big.isnegative then -(big.nrdigits : ℤ) else big.nrdigits := by
    rw [h.int16_natAbs (Int.natAbs_neg _), nrdigits, isnegative]
    rcases lt_or_ge big.signAndUsedDigits 0 with hneg | hpos
    · rw [decide_eq_true hneg, if_neg (by simp)]
      omega
    · rw [decide_eq_false hpos.not_gt, Bool.not_false, if_pos rfl]
      omega
  obtain ⟨hwf, hv⟩ := represents_of_sign h (!big.isnegative) hz
  refine ⟨hwf, hv.trans ?_⟩
  rw [value_eq]
  cases big.isnegative <;> simp

/-! ## Calculations -/

variable {ι : Type*} [DecidableEq ι]

/-- A call of a function; the objects are given by their names. -/
inductive Op (ι : Type*)
  | setPi32 (big : ι) (value : Int32)
  | setPu32 (big : ι) (value : UInt32)
  | setPu64 (big : ι) (value : UInt64)
  | setbigfirst (big : ι) (sign : ℤ) (numbers : List UInt32) (exponent : UInt16)
  | setlittlefirst (big : ι) (sign : ℤ) (numbers : List UInt32) (exponent : UInt16)
  | negate (big : ι)
  | clear (big : ι)
  | setpositive (big : ι)
  | setnegative (big : ι)
  | copy (big copyfrom : ι)
  | add (result lbig rbig : ι)
  | sub (result lbig rbig : ι)
  | mult (result lbig rbig : ι)
  | divmod (divresult modresult lbig rbig : ι)
  | mod (result lbig rbig : ι)
  | shiftleft (mm : Resize) (result : ι) (shiftCount : UInt32)
  | shiftright (mm : Resize) (result : ι) (shiftCount : UInt32)

/-- The object `i` is set to the result of a call that returns no error. -/
def put (bigs : ι → Bigint) (i : ι) (result : Except Errno Bigint) : Option (ι → Bigint) :=
  result.toOption.map (Function.update bigs i)

/-- The call; there is no result if it returns an error. -/
def perform (bigs : ι → Bigint) : Op ι → Option (ι → Bigint)
  | .setPi32 big value => put bigs big (.ok (setPi32Bigint (bigs big) value))
  | .setPu32 big value => put bigs big (.ok (setPu32Bigint (bigs big) value))
  | .setPu64 big value => put bigs big (.ok (setPu64Bigint (bigs big) value))
  | .setbigfirst big sign numbers exponent =>
    put bigs big (setbigfirstBigint (bigs big) sign numbers exponent.toNat)
  | .setlittlefirst big sign numbers exponent =>
    put bigs big (setlittlefirstBigint (bigs big) sign numbers exponent.toNat)
  | .negate big => put bigs big (.ok (negateBigint (bigs big)))
  | .clear big => put bigs big (.ok (clearBigint (bigs big)))
  | .setpositive big => put bigs big (.ok (setpositiveBigint (bigs big)))
  | .setnegative big => put bigs big (.ok (setnegativeBigint (bigs big)))
  | .copy big copyfrom => put bigs big (copyBigint (bigs big) (bigs copyfrom))
  | .add result l r => put bigs result (addBigint (bigs result) (bigs l) (bigs r))
  | .sub result l r => put bigs result (subBigint (bigs result) (bigs l) (bigs r))
  | .mult result l r => put bigs result (multBigint (bigs result) (bigs l) (bigs r))
  | .divmod divresult modresult l r =>
    match divmodBigint (some (bigs divresult)) (some (bigs modresult)) (bigs l) (bigs r) with
    | .ok (some quot, some rem) =>
      some (Function.update (Function.update bigs divresult quot) modresult rem)
    | _ => none
  | .mod result l r =>
    match modBigint (bigs result) (bigs l) (bigs r) with
    | .ok (some rem) => put bigs result (.ok rem)
    | _ => none
  | .shiftleft mm result n =>
    match shiftleftBigint mm (bigs result) n.toNat with
    | .returned none new => put bigs result (.ok new)
    | _ => none
  | .shiftright mm result n =>
    match shiftrightBigint mm (bigs result) n.toNat with
    | .returned none new => put bigs result (.ok new)
    | _ => none

/-- What a call does to the integers. -/
def Op.meaning (v : ι → ℤ) : Op ι → ι → ℤ
  | .setPi32 big value => Function.update v big value.toInt
  | .setPu32 big value => Function.update v big value.toNat
  | .setPu64 big value => Function.update v big value.toNat
  | .setbigfirst big sign numbers exponent =>
    Function.update v big (sign.sign * (number numbers.reverse * base ^ exponent.toNat))
  | .setlittlefirst big sign numbers exponent =>
    Function.update v big (sign.sign * (number numbers * base ^ exponent.toNat))
  | .negate big => Function.update v big (-v big)
  | .clear big => Function.update v big 0
  | .setpositive big => Function.update v big |v big|
  | .setnegative big => Function.update v big (-|v big|)
  | .copy big copyfrom => Function.update v big (v copyfrom)
  | .add result l r => Function.update v result (v l + v r)
  | .sub result l r => Function.update v result (v l - v r)
  | .mult result l r => Function.update v result (v l * v r)
  | .divmod divresult modresult l r =>
    Function.update (Function.update v divresult ((v l).tdiv (v r))) modresult ((v l).tmod (v r))
  | .mod result l r => Function.update v result ((v l).tmod (v r))
  | .shiftleft _ result n => Function.update v result (v result * 2 ^ n.toNat)
  | .shiftright _ result n => Function.update v result ((v result).tdiv (2 ^ n.toNat))

/-- The results are not among the operands (`restrict`), and the call is none of those that are not
exact. -/
def Op.Proper (bigs : ι → Bigint) : Op ι → Prop
  | .copy big copyfrom => big ≠ copyfrom
  | .add result l r | .sub result l r => result ≠ l ∧ result ≠ r
  | .mult result l r => result ≠ l ∧ result ≠ r ∧ ¬ExponentWraps (bigs l) (bigs r)
  | .divmod divresult modresult l r =>
    divresult ≠ modresult ∧ divresult ≠ l ∧ divresult ≠ r ∧ modresult ≠ l ∧ modresult ≠ r
  | .mod result l r =>
    result ≠ l ∧ result ≠ r ∧ (QuotientFits (bigs l).operand (bigs r).operand ∨
      RemainderKept (bigs l).operand (bigs r).operand)
  | .shiftright mm result n => ¬MovesDigits mm (bigs result) n.toNat
  | _ => True

/-- All objects are well formed and have these values. -/
def Holds (bigs : ι → Bigint) (v : ι → ℤ) : Prop := ∀ i, (bigs i).WellFormed ∧ (bigs i).value = v i

variable {bigs bigs' : ι → Bigint} {v : ι → ℤ} {i : ι} {z : ℤ}

theorem Holds.update (h : Holds bigs v) {new : Bigint} (hnew : new.WellFormed ∧ new.value = z) :
    Holds (Function.update bigs i new) (Function.update v i z) := by
  intro j
  rcases eq_or_ne j i with rfl | hj
  · rwa [Function.update_self, Function.update_self]
  · rw [Function.update_of_ne hj, Function.update_of_ne hj]
    exact h j

theorem Holds.put (h : Holds bigs v) {result : Except Errno Bigint}
    (hput : Bigint.put bigs i result = some bigs')
    (hnew : ∀ new, result = .ok new → new.WellFormed ∧ new.value = z) :
    Holds bigs' (Function.update v i z) := by
  cases result with
  | error err => cases hput
  | ok new =>
    obtain rfl := Option.some.inj hput
    exact h.update (hnew new rfl)

theorem Holds.put_ok (h : Holds bigs v) {new : Bigint}
    (hput : Bigint.put bigs i (.ok new) = some bigs')
    (hnew : new.WellFormed ∧ new.value = z) : Holds bigs' (Function.update v i z) :=
  h.put hput fun _ heq => Except.ok.inj heq ▸ hnew

/-- **One call.** -/
theorem perform_holds (h : Holds bigs v) {op : Op ι} (hop : op.Proper bigs)
    (hperform : perform bigs op = some bigs') :
    Holds bigs' (op.meaning v) := by
  cases op with
  | setPi32 big value => exact h.put_ok hperform (setPi32Bigint_spec value)
  | setPu32 big value => exact h.put_ok hperform (setPu32Bigint_spec value)
  | setPu64 big value => exact h.put_ok hperform (setPu64Bigint_spec value)
  | setbigfirst big sign numbers exponent =>
    exact h.put hperform fun new hnew => setbigfirstBigint_spec hnew
  | setlittlefirst big sign numbers exponent =>
    exact h.put hperform fun new hnew => setlittlefirstBigint_spec hnew
  | negate big => exact h.put_ok hperform ((h big).2 ▸ negateBigint_spec (h big).1)
  | clear big => exact h.put_ok hperform ⟨clearBigint_wellFormed _, clearBigint_value _⟩
  | setpositive big =>
    obtain ⟨hwf, hv⟩ := setpositiveBigint_represents (h big).1
    refine h.put_ok hperform ⟨hwf, hv.trans ?_⟩
    rw [← (h big).2, abs_value, if_neg Bool.false_ne_true, one_mul]
  | setnegative big =>
    obtain ⟨hwf, hv⟩ := setnegativeBigint_represents (h big).1
    refine h.put_ok hperform ⟨hwf, hv.trans ?_⟩
    rw [← (h big).2, abs_value, if_pos rfl, neg_one_mul]
  | copy big copyfrom =>
    refine h.put hperform fun new hnew => ?_
    have hsame := copyBigint_same (h copyfrom).1 hnew
    exact ⟨hsame.wellFormed (h copyfrom).1, hsame.value.trans (h copyfrom).2⟩
  | add result l r =>
    refine h.put hperform fun new hnew => ?_
    rw [← (h l).2, ← (h r).2]
    exact addBigint_spec (h l).1 (h r).1 hnew
  | sub result l r =>
    refine h.put hperform fun new hnew => ?_
    rw [← (h l).2, ← (h r).2]
    exact subBigint_spec (h l).1 (h r).1 hnew
  | mult result l r =>
    refine h.put hperform fun new hnew => ?_
    rw [← (h l).2, ← (h r).2]
    exact ⟨(multBigint_spec (h l).1 (h r).1 hnew).1,
      (multBigint_value_eq_iff (h l).1 (h r).1 hnew).mpr hop.2.2⟩
  | divmod divresult modresult l r =>
    rw [perform] at hperform
    split at hperform
    · rename_i quot rem hout
      obtain rfl := Option.some.inj hperform
      obtain ⟨hquot, hrem, -, hq, hm⟩ := divmodBigint_spec (h l).1 (h r).1 hout
      rw [(h l).2, (h r).2] at hq hm
      exact (h.update ⟨hquot, hq⟩).update ⟨hrem, hm⟩
    · cases hperform
  | mod result l r =>
    rw [perform] at hperform
    split at hperform
    · rename_i rem hout
      obtain ⟨hwf, hrem⟩ := modBigint_spec (h l).1 (h r).1 hout
      refine h.put_ok hperform ⟨hwf, ?_⟩
      rw [hrem.mpr hop.2.2, (h l).2, (h r).2]
    · cases hperform
  | shiftleft mm result n =>
    have hexact := shiftleftBigint_exact mm (h result).1 n.toNat
    rw [perform] at hperform
    split at hperform
    · rename_i new hout
      rw [hout, (h result).2] at hexact
      exact h.put_ok hperform hexact
    · cases hperform
  | shiftright mm result n =>
    have hexact := shiftrightBigint_exact (h result).1 hop
    rw [perform] at hperform
    split at hperform
    · rename_i new hout
      rw [hout, (h result).2] at hexact
      exact h.put_ok hperform hexact
    · cases hperform

/-- All calls of a calculation are proper. -/
def ProperRun : (ι → Bigint) → List (Op ι) → Prop
  | _, [] => True
  | bigs, op :: ops =>
    op.Proper bigs ∧ ∀ bigs', perform bigs op = some bigs' → ProperRun bigs' ops

/-- **Every calculation is exact**: if it ends without an error, all objects are well formed and
have the values that the calculation has on the integers, and they compare like these. -/
theorem run_exact (hbigs : ∀ i, (bigs i).WellFormed) {ops : List (Op ι)}
    (hops : ProperRun bigs ops) (h : ops.foldlM perform bigs = some bigs') :
    (∀ i, (bigs' i).WellFormed ∧
      (bigs' i).value = ops.foldl Op.meaning (fun i => (bigs i).value) i) ∧
    ∀ i j, cmpBigint (bigs' i) (bigs' j) =
      (ops.foldl Op.meaning (fun i => (bigs i).value) i -
        ops.foldl Op.meaning (fun i => (bigs i).value) j).sign := by
  have hrun : ∀ (ops : List (Op ι)) {bigs : ι → Bigint} {v : ι → ℤ}, Holds bigs v →
      ProperRun bigs ops → ops.foldlM perform bigs = some bigs' →
      Holds bigs' (ops.foldl Op.meaning v) := by
    intro ops
    induction ops with
    | nil =>
      intro bigs v hv _ h
      obtain rfl := Option.some.inj h
      exact hv
    | cons op ops ih =>
      intro bigs v hv hops h
      rw [List.foldlM_cons] at h
      obtain ⟨next, hnext, h⟩ := Option.bind_eq_some_iff.mp h
      exact ih (perform_holds hv hops.1 hnext) (hops.2 next hnext) h
  have hv := hrun ops (fun i => ⟨hbigs i, rfl⟩) hops h
  refine ⟨hv, fun i j => ?_⟩
  rw [cmpBigint_eq (hv i).1 (hv j).1, (hv i).2, (hv j).2]

/-- `-7 + 5 * 2 ^ 32`. -/
theorem run_exact_sum : ∃ bigs', [.setPi32 0 (-7), .setlittlefirst 1 1 [0, 5] 0,
    .add 2 0 1].foldlM perform (fun _ : Fin 3 => ⟨4, 0, 0, [], by decide⟩) = some bigs' ∧
      (bigs' 2).value = 21474836473 := by
  let bigs : Fin 3 → Bigint := fun _ => ⟨4, 0, 0, [], by decide⟩
  let ops : List (Op (Fin 3)) := [.setPi32 0 (-7), .setlittlefirst 1 1 [0, 5] 0, .add 2 0 1]
  obtain ⟨bigs', h⟩ : ∃ bigs', ops.foldlM perform bigs = some bigs' :=
    Option.isSome_iff_exists.mp (by decide)
  have hproper : ProperRun bigs ops :=
    ⟨trivial, fun _ _ => ⟨trivial, fun _ _ => ⟨⟨by decide, by decide⟩, fun _ _ => trivial⟩⟩⟩
  exact ⟨bigs', h, ((run_exact (fun _ => by decide) hproper h).1 2).2.trans (by decide)⟩

end Bigint
end CKern
