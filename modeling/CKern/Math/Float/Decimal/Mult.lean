import CKern.Math.Float.Decimal.AddSub

/-!
# `math/float/decimal.c`: `mult_decimal`

* `multDecimalhelper`: the schoolbook algorithm, row by row.
* `addsplitDecimalhelper`: the addition at an offset, in place.
* `multsplitDecimalhelper`: operands of at least four digits are split into two halves and
  multiplied with three products.
* `splitFits`: the operands for which no offset of the recursion is negative.
* `multDecimal_faultless_iff`: the product is exact if and only if that holds and the exponent that
  the split returns can be added to that of the operands.

An access behind the end of an array of digits is an outcome of its own, `Failure.outOfBounds`.
-/

namespace CKern
namespace Decimal

open Positional

/-- How a function can fail: with an error code, or with an access outside of an array. -/
inductive Failure
  | errno (e : Errno)
  | outOfBounds
  deriving DecidableEq, Repr

/-- A call of a function that does not leave its arrays. -/
def checked {α : Type} (x : Except Errno α) : Except Failure α := x.mapError .errno

theorem checked_ok {α : Type} (a : α) : checked (.ok a : Except Errno α) = .ok a := rfl

theorem ok_bind {α β : Type} (a : α) (f : α → Except Failure β) :
    (Except.ok a : Except Failure α).bind f = f a := rfl

/-! ## `mult_decimalhelper` -/

/-- One digit of the first row. -/
def multDigit (factor carry : ℕ) (l : ℕ) : ℕ × ℕ :=
  let multdigit := l * factor + carry
  (multdigit % DIGITSBASE, multdigit / DIGITSBASE)

/-- One digit of the other rows: the product is added to the digit that is there already. -/
def multAddDigit (factor carry : ℕ) (d : ℕ × ℕ) : ℕ × ℕ :=
  let multdigit := d.1 * factor + (d.2 + carry)
  (multdigit % DIGITSBASE, multdigit / DIGITSBASE)

/-- The first row, with the carry as its leading digit. -/
def multFirstRow (ldigits : List ℕ) (factor : ℕ) : List ℕ :=
  if factor = 0 then List.replicate (1 + ldigits.length) 0
  else
    let row := chain (multDigit factor) 0 ldigits
    row.1 ++ [row.2]

/-- Another row, added to `digits`. -/
def multRow (ldigits : List ℕ) (factor : ℕ) (digits : List ℕ) : List ℕ :=
  if factor = 0 then digits ++ [0]
  else
    let row := chain (multAddDigit factor) 0 (ldigits.zip digits)
    row.1 ++ [row.2]

/-- The loop over `ri`.  Every row starts one digit higher than the row before (`++ digits`). -/
def multRows (ldigits : List ℕ) : List ℕ → List ℕ → List ℕ
  | digits, [] => digits
  | digits, factor :: rdigits =>
    digits.take 1 ++ multRows ldigits (multRow ldigits factor (digits.drop 1)) rdigits

/-- All digits that `mult_decimalhelper` writes. -/
def multDigits (ldigits rdigits : List ℕ) : List ℕ :=
  multRows ldigits (multFirstRow ldigits (rdigits.headD 0)) rdigits.tail

/-- `mult_decimalhelper`.  The carry of the last row is the last digit written. -/
def multDecimalhelper (dec : Decimal) (ldigits rdigits : List ℕ) (exponent : ℤ) :
    Except Failure Decimal :=
  let digits := multDigits ldigits rdigits
  let carry := digits.getLastD 0
  if dec.sizeAllocated < ldigits.length + rdigits.length then .error .outOfBounds
  else .ok (dec.assign false (ldigits.length + rdigits.length - if carry = 0 then 1 else 0)
    exponent digits)

theorem multDigit_value (factor carry l : ℕ) :
    ((multDigit factor carry l).1 : ℤ) + base * (multDigit factor carry l).2 =
      (factor * l : ℤ) + carry := by
  have h := Nat.mod_add_div (l * factor + carry) DIGITSBASE
  rw [← cast_DIGITSBASE, mul_comm (factor : ℤ)]
  exact_mod_cast h

theorem multAddDigit_value (factor carry : ℕ) (d : ℕ × ℕ) :
    ((multAddDigit factor carry d).1 : ℤ) + base * (multAddDigit factor carry d).2 =
      (factor * d.1 + d.2 : ℤ) + carry := by
  have h := Nat.mod_add_div (d.1 * factor + (d.2 + carry)) DIGITSBASE
  rw [← cast_DIGITSBASE, mul_comm (factor : ℤ), add_assoc]
  exact_mod_cast h

theorem multdigit_div_lt {x y c d : ℕ} (hx : x < DIGITSBASE) (hy : y < DIGITSBASE)
    (hc : c < DIGITSBASE) (hd : d < DIGITSBASE) : (x * y + (c + d)) / DIGITSBASE < DIGITSBASE := by
  rw [Nat.div_lt_iff_lt_mul (by norm_num)]
  have h : x * y ≤ (DIGITSBASE - 1) * (DIGITSBASE - 1) :=
    Nat.mul_le_mul (Nat.le_sub_one_of_lt hx) (Nat.le_sub_one_of_lt hy)
  have hbase : DIGITSBASE = 1000000000 := rfl
  have hsq : DIGITSBASE * DIGITSBASE = 1000000000000000000 := by norm_num
  norm_num at h
  omega

theorem multFirstRow_spec {ldigits : List ℕ} {factor : ℕ} (hl : Digits ldigits)
    (hf : factor < DIGITSBASE) :
    (multFirstRow ldigits factor).length = ldigits.length + 1 ∧
      Digits (multFirstRow ldigits factor) ∧
      number (multFirstRow ldigits factor) = factor * number ldigits := by
  rw [multFirstRow]
  split_ifs with h0
  · refine ⟨by rw [List.length_replicate, add_comm], digits_replicate (by norm_num) _, ?_⟩
    rw [number_replicate_zero, h0, Nat.cast_zero, zero_mul]
  · have h := chain_eval' (multDigit factor) (b := base) (g := fun d : ℕ => (d : ℤ))
      (f := fun l : ℕ => (factor : ℤ) * l) (v := fun c : ℕ => (c : ℤ))
      (fun c l => multDigit_value factor c l) 0 ldigits
    have hcarry := chain_carry_of_forall (multDigit factor) (I := fun c => c < DIGITSBASE)
      (Q := fun l => l < DIGITSBASE) (c := 0)
      (fun c l hc hl => multdigit_div_lt hl hf hc (by norm_num : 0 < DIGITSBASE)) (by norm_num) hl
    have hdigits : Digits (chain (multDigit factor) 0 ldigits).1 :=
      chain_forall _ (Q := fun _ => True) (P := fun d => d < DIGITSBASE)
        (fun _ _ _ => Nat.mod_lt _ (by norm_num)) 0 fun _ _ => True.intro
    rw [eval_mul_left] at h
    refine ⟨by simp, digits_append.mpr ⟨hdigits, digits_cons.mpr ⟨hcarry, Digits.nil⟩⟩, ?_⟩
    rw [number_append, length_chain, number_cons, number_nil, mul_zero, add_zero]
    rw [Nat.cast_zero, add_zero] at h
    exact h

theorem multRow_spec {ldigits digits : List ℕ} {factor : ℕ} (hl : Digits ldigits)
    (hd : Digits digits) (hf : factor < DIGITSBASE) (h : digits.length = ldigits.length) :
    (multRow ldigits factor digits).length = ldigits.length + 1 ∧
      Digits (multRow ldigits factor digits) ∧
      number (multRow ldigits factor digits) = factor * number ldigits + number digits := by
  rw [multRow]
  split_ifs with h0
  · refine ⟨by simp [h], digits_append.mpr ⟨hd, digits_cons.mpr ⟨by norm_num, Digits.nil⟩⟩, ?_⟩
    rw [number_append, h0]
    simp
  · have hc := chain_eval' (multAddDigit factor) (b := base) (g := fun d : ℕ => (d : ℤ))
      (f := fun d => (factor : ℤ) * d.1 + d.2) (v := fun c : ℕ => (c : ℤ))
      (fun c d => multAddDigit_value factor c d) 0 (ldigits.zip digits)
    have hcarry := chain_carry_of_forall (multAddDigit factor) (I := fun c => c < DIGITSBASE)
      (Q := fun d => d.1 < DIGITSBASE ∧ d.2 < DIGITSBASE) (c := 0)
      (fun c d hc hd => multdigit_div_lt hd.1 hf hd.2 hc) (by norm_num) (digits_zip hl hd)
    have hdigits : Digits (chain (multAddDigit factor) 0 (ldigits.zip digits)).1 :=
      chain_forall _ (Q := fun _ => True) (P := fun d => d < DIGITSBASE)
        (fun _ _ _ => Nat.mod_lt _ (by norm_num)) 0 fun _ _ => True.intro
    rw [eval_zip_add base (fun l : ℕ => (factor : ℤ) * l)
      (fun d : ℕ => (d : ℤ)) h.symm, eval_mul_left, List.length_zip, h, min_self] at hc
    refine ⟨by simp [h], digits_append.mpr ⟨hdigits, digits_cons.mpr ⟨hcarry, Digits.nil⟩⟩, ?_⟩
    rw [number_append, length_chain, number_cons, number_nil, mul_zero, add_zero,
      List.length_zip, h, min_self]
    rw [Nat.cast_zero, add_zero] at hc
    exact hc

theorem multRows_spec {ldigits digits rdigits : List ℕ} (hl : Digits ldigits) (hd : Digits digits)
    (hr : Digits rdigits) (h : digits.length = ldigits.length + 1) :
    (multRows ldigits digits rdigits).length = ldigits.length + 1 + rdigits.length ∧
      Digits (multRows ldigits digits rdigits) ∧
      number (multRows ldigits digits rdigits) =
        number digits + base * (number ldigits * number rdigits) := by
  induction rdigits generalizing digits with
  | nil => exact ⟨h, hd, by rw [multRows, number_nil, mul_zero, mul_zero, add_zero]⟩
  | cons factor rdigits ih =>
    obtain ⟨d, ds, rfl⟩ := List.exists_cons_of_length_eq_add_one h
    obtain ⟨hd0, hds⟩ := digits_cons.mp hd
    obtain ⟨hf, hr'⟩ := digits_cons.mp hr
    obtain ⟨hlen, hdig, hnum⟩ := multRow_spec hl hds hf (by simpa using h)
    obtain ⟨hlen', hdig', hnum'⟩ := ih hdig hr' hlen
    rw [multRows]
    refine ⟨?_, digits_cons.mpr ⟨hd0, hdig'⟩, ?_⟩
    · simp only [List.take_succ_cons, List.take_zero, List.drop_succ_cons, List.drop_zero,
        List.length_append, List.length_cons, List.length_nil, hlen']
      omega
    · simp only [List.take_succ_cons, List.take_zero, List.drop_succ_cons, List.drop_zero,
        List.cons_append, List.nil_append, number_cons, hnum', hnum]
      ring

theorem multDigits_spec {ldigits rdigits : List ℕ} (hl : Digits ldigits) (hr : Digits rdigits)
    (h : rdigits ≠ []) :
    (multDigits ldigits rdigits).length = ldigits.length + rdigits.length ∧
      Digits (multDigits ldigits rdigits) ∧
      number (multDigits ldigits rdigits) = number ldigits * number rdigits := by
  obtain ⟨factor, rdigits, rfl⟩ := List.exists_cons_of_ne_nil h
  obtain ⟨hf, hr'⟩ := digits_cons.mp hr
  obtain ⟨hlen, hdig, hnum⟩ := multFirstRow_spec hl hf
  obtain ⟨hlen', hdig', hnum'⟩ := multRows_spec hl hdig hr' hlen
  rw [multDigits, List.headD_cons, List.tail_cons]
  refine ⟨by rw [hlen', List.length_cons]; omega, hdig', ?_⟩
  rw [hnum', hnum, number_cons]
  ring

theorem pow_le_number_mul {xs ys : List ℕ} (hx : Leading xs) (hxne : xs ≠ []) (hy : Leading ys)
    (hyne : ys ≠ []) : base ^ (xs.length + ys.length - 2) ≤ number xs * number ys := by
  have hxpos := List.length_pos_iff.mpr hxne
  have hypos := List.length_pos_iff.mpr hyne
  have hpow : base ^ (xs.length + ys.length - 2) =
      base ^ (xs.length - 1) * base ^ (ys.length - 1) := by
    rw [← pow_add]
    congr 1
    omega
  rw [hpow]
  exact mul_le_mul (pow_le_number hx hxne) (pow_le_number hy hyne) (base_pow_pos _).le
    (number_nonneg xs)

theorem take_getLast_spec {ds : List ℕ} (hd : Digits ds) (hlen : 2 ≤ ds.length)
    (h : base ^ (ds.length - 2) ≤ number ds) :
    Leading (ds.take (ds.length - if ds.getLastD 0 = 0 then 1 else 0)) ∧
      number (ds.take (ds.length - if ds.getLastD 0 = 0 then 1 else 0)) = number ds := by
  rcases List.eq_nil_or_concat ds with rfl | ⟨xs, x, rfl⟩
  · simp at hlen
  · rw [List.concat_eq_append] at *
    rw [List.getLastD_concat]
    split_ifs with h0
    · subst h0
      have hnum : number (xs ++ [0]) = number xs := by rw [number_append]; simp
      rw [List.length_append, List.length_singleton] at h hlen
      rw [List.length_append, List.length_singleton, Nat.add_sub_cancel, List.take_left]
      refine ⟨leading_of_pow_le (digits_append.mp hd).1 ?_, hnum.symm⟩
      rwa [hnum, show xs.length + 1 - 2 = xs.length - 1 by omega] at h
    · rw [Nat.sub_zero, List.take_length]
      exact ⟨Leading.append_left (by simpa [Leading] using h0) (List.cons_ne_nil _ _), rfl⟩

/-- A result that is positive: its sign, its exponent and its magnitude, an integer. -/
structure IsProduct (dec : Decimal) (exponent : ℕ) (v : ℤ) : Prop where
  wellFormed : dec.WellFormed
  isnegative_eq : dec.isnegativeDecimal = false
  exponent_eq : dec.exponent = exponent
  number_eq : number dec.valid * base ^ exponent = v
  pos : 0 < v

theorem assign_isProduct (dec : Decimal) {size exponent : ℕ} {ds : List ℕ} {v : ℤ}
    (hs : size ≤ 0x7f) (hd : size ≤ ds.length) (he : exponent ≤ INT16_MAX)
    (hdigits : Digits (ds.take size)) (hl : Leading (ds.take size)) (hpos : 0 < v)
    (hv : number (ds.take size) * base ^ exponent = v) :
    (dec.assign false size exponent ds).IsProduct exponent v := by
  obtain ⟨_, hneg, hvalid⟩ := assign_spec dec false exponent hs hd
  have hsize : 0 < size := by
    by_contra h0
    rw [Nat.eq_zero_of_not_pos h0, List.take_zero, number_nil, zero_mul] at hv
    omega
  have he' : (exponent : ℤ) ≤ INT16_MAX := by exact_mod_cast he
  have hge : -32768 ≤ (exponent : ℤ) := by omega
  refine ⟨(assign_represents dec false hs hd hge he' hdigits hl hsize rfl).1, hneg,
    int16_of_mem hge he', ?_, hpos⟩
  rw [hvalid, hv]

theorem multDecimalhelper_isProduct {dec : Decimal} {ldigits rdigits : List ℕ} {exponent : ℕ}
    (hld : Digits ldigits) (hl : Leading ldigits) (hlne : ldigits ≠ []) (hrd : Digits rdigits)
    (hr : Leading rdigits) (hrne : rdigits ≠ [])
    (hs : ldigits.length + rdigits.length ≤ dec.sizeAllocated) (he : exponent ≤ INT16_MAX) :
    ∃ new, multDecimalhelper dec ldigits rdigits exponent = .ok new ∧ new.IsProduct exponent
      (number ldigits * number rdigits * base ^ exponent) := by
  obtain ⟨hlen, hdig, hnum⟩ := multDigits_spec hld hrd hrne
  have hlpos := List.length_pos_iff.mpr hlne
  have hrpos := List.length_pos_iff.mpr hrne
  have hpow := pow_le_number_mul hl hlne hr hrne
  rw [← hlen, ← hnum] at hpow
  obtain ⟨hlead, htake⟩ := take_getLast_spec hdig (by omega) hpow
  refine ⟨_, if_neg (not_lt.mpr hs), ?_⟩
  rw [← hlen]
  refine assign_isProduct dec ?_ (Nat.sub_le _ _) he (hdig.take _) hlead ?_ (by rw [htake, hnum])
  · exact (Nat.sub_le _ _).trans (hlen.le.trans (hs.trans dec.allocated_le))
  · exact mul_pos (mul_pos (number_pos hl hlne) (number_pos hr hrne)) (base_pow_pos _)

/-! ## `addsplit_decimalhelper` -/

/-- The longer and the shorter one of two arrays of digits. -/
def longer (ldigits rdigits : List ℕ) : List ℕ :=
  if rdigits.length < ldigits.length then ldigits else rdigits

def shorter (ldigits rdigits : List ℕ) : List ℕ :=
  if rdigits.length < ldigits.length then rdigits else ldigits

/-- The digits of a sum, with the carry if there is one. -/
def addsplitDigits (ldigits rdigits : List ℕ) : List ℕ :=
  let sum := addDigits (longer ldigits rdigits) (shorter ldigits rdigits)
  sum.1 ++ if sum.2 then [1] else []

/-- `addsplit_decimalhelper`: the sum is written behind the first `digitsoffset` digits. -/
def addsplitDecimalhelper (result : Decimal) (digitsoffset : ℕ) (ldigits rdigits : List ℕ) :
    Decimal :=
  let sum := addsplitDigits ldigits rdigits
  { result with
    signAndUsedDigits := UInt8.ofNat (digitsoffset + sum.length)
    digits := result.write (result.digits.take digitsoffset ++ sum) }

/-- A sum that is written behind the first `digitsoffset` digits must end inside the array. -/
def inside (result : Decimal) (digitsoffset : ℕ) (ldigits rdigits : List ℕ) :
    Except Failure Unit :=
  if result.sizeAllocated < digitsoffset + (addsplitDigits ldigits rdigits).length then
    .error .outOfBounds
  else .ok ()

theorem shorter_length_le (ldigits rdigits : List ℕ) :
    (shorter ldigits rdigits).length ≤ (longer ldigits rdigits).length := by
  rw [shorter, longer]
  split_ifs <;> omega

theorem longer_length (ldigits rdigits : List ℕ) :
    (longer ldigits rdigits).length = max ldigits.length rdigits.length := by
  rw [longer]
  split_ifs <;> omega

theorem number_longer_add_shorter (ldigits rdigits : List ℕ) :
    number (longer ldigits rdigits) + number (shorter ldigits rdigits) =
      number ldigits + number rdigits := by
  rw [longer, shorter]
  split_ifs
  · rfl
  · exact add_comm _ _

theorem addsplitDigits_length_le (ldigits rdigits : List ℕ) :
    (addsplitDigits ldigits rdigits).length ≤ max ldigits.length rdigits.length + 1 := by
  have h := addDigits_length (shorter_length_le ldigits rdigits)
  rw [longer_length] at h
  simp only [addsplitDigits, List.length_append, h]
  split_ifs <;> simp

theorem addsplitDigits_digits {ldigits rdigits : List ℕ} (hl : Digits ldigits)
    (hr : Digits rdigits) : Digits (addsplitDigits ldigits rdigits) := by
  have hlong : Digits (longer ldigits rdigits) := by
    rw [longer]
    split_ifs
    · exact hl
    · exact hr
  have hshort : Digits (shorter ldigits rdigits) := by
    rw [shorter]
    split_ifs
    · exact hr
    · exact hl
  refine digits_append.mpr ⟨addDigits_digits hlong hshort, ?_⟩
  split_ifs
  · exact digits_cons.mpr ⟨by norm_num, Digits.nil⟩
  · exact Digits.nil

theorem addsplitDigits_number (ldigits rdigits : List ℕ) :
    number (addsplitDigits ldigits rdigits) = number ldigits + number rdigits := by
  have hle := shorter_length_le ldigits rdigits
  have h := addDigits_value hle
  rw [number_longer_add_shorter] at h
  rw [← h, addsplitDigits, number_append, addDigits_length hle]
  cases (addDigits (longer ldigits rdigits) (shorter ldigits rdigits)).2 <;> simp

theorem addsplitDigits_leading {ldigits rdigits : List ℕ} (hld : Digits ldigits)
    (hrd : Digits rdigits) (hl : Leading ldigits) (hr : Leading rdigits) (hne : rdigits ≠ []) :
    Leading (addsplitDigits ldigits rdigits) ∧ addsplitDigits ldigits rdigits ≠ [] := by
  have hle := shorter_length_le ldigits rdigits
  have h := addDigits_value hle
  have hlen := addDigits_length hle
  have hdig := addsplitDigits_digits hld hrd
  have hnum := addsplitDigits_number ldigits rdigits
  refine ⟨?_, fun hnil => ?_⟩
  · rw [addsplitDigits] at hdig ⊢
    cases hc : (addDigits (longer ldigits rdigits) (shorter ldigits rdigits)).2 with
    | true => exact Leading.append_left (by decide) (List.cons_ne_nil _ _)
    | false =>
      rw [hc, Bool.toNat_false, Nat.cast_zero, mul_zero, add_zero] at h
      have hlong : Leading (longer ldigits rdigits) ∧ longer ldigits rdigits ≠ [] := by
        rw [longer]
        split_ifs with hlt
        · refine ⟨hl, fun hnil => ?_⟩
          rw [hnil, List.length_nil] at hlt
          omega
        · exact ⟨hr, hne⟩
      simp only [hc, Bool.false_eq_true, if_false, List.append_nil] at hdig ⊢
      refine leading_of_pow_le hdig ?_
      rw [h, hlen]
      linarith [pow_le_number hlong.1 hlong.2, number_nonneg (shorter ldigits rdigits)]
  · rw [hnil, number_nil] at hnum
    linarith [number_pos hr hne, number_nonneg ldigits]

theorem sizeDecimal_addsplit_le (result : Decimal) (digitsoffset : ℕ) (ldigits rdigits : List ℕ) :
    (addsplitDecimalhelper result digitsoffset ldigits rdigits).sizeDecimal ≤
      digitsoffset + (addsplitDigits ldigits rdigits).length := by
  rw [sizeDecimal, addsplitDecimalhelper]
  dsimp only
  rw [UInt8.toNat_and, UInt8.toNat_ofNat']
  exact Nat.and_le_left.trans (Nat.mod_le _ _)

theorem addsplit_valid_length_le (result : Decimal) (ldigits rdigits : List ℕ) :
    (addsplitDecimalhelper result 0 ldigits rdigits).valid.length ≤
      max ldigits.length rdigits.length + 1 := by
  have h := sizeDecimal_addsplit_le result 0 ldigits rdigits
  rw [valid, List.length_take]
  refine (min_le_left _ _).trans (h.trans ?_)
  rw [Nat.zero_add]
  exact addsplitDigits_length_le ldigits rdigits

/-! ## `multsplit_decimalhelper` -/

theorem le_of_not_overflow {n : ℕ} (h : ¬(n = 0 ∨ 0x7f < n)) : n ≤ 0x7f := by omega

/-- An object of `allocategroup_decimal`. -/
def newDecimal (size : ℕ) : Except Errno Decimal :=
  if h : size = 0 ∨ 0x7f < size then .error .EOVERFLOW else .ok ⟨size, 0, 0, [], le_of_not_overflow h⟩

/-- The operands as `multsplit_decimalhelper` uses them: without trailing zeros, the shorter one
first; and the number of zeros skipped. -/
structure Factors where
  ldigits : List ℕ
  rdigits : List ℕ
  exponent : ℤ

def factors (ldigits rdigits : List ℕ) : Factors :=
  let l := Operand.skipTrailingZero ldigits 0
  let r := Operand.skipTrailingZero rdigits 0
  ⟨shorter l.digits r.digits, longer l.digits r.digits, l.exponent + r.exponent⟩

theorem factors_length (ldigits rdigits : List ℕ) :
    ((factors ldigits rdigits).ldigits.length + (factors ldigits rdigits).rdigits.length : ℤ) +
      (factors ldigits rdigits).exponent = ldigits.length + rdigits.length := by
  have hl := Operand.skipTrailingZero_order ldigits 0
  have hr := Operand.skipTrailingZero_order rdigits 0
  rw [Operand.order] at hl hr
  simp only [factors, shorter, longer]
  split_ifs <;> omega

theorem factors_le (ldigits rdigits : List ℕ) :
    (factors ldigits rdigits).ldigits.length ≤ (factors ldigits rdigits).rdigits.length :=
  shorter_length_le _ _

theorem factors_exponent_nonneg (ldigits rdigits : List ℕ) :
    0 ≤ (factors ldigits rdigits).exponent :=
  add_nonneg (Operand.le_skipTrailingZero_exponent _ _) (Operand.le_skipTrailingZero_exponent _ _)

theorem factors_eq (ldigits rdigits : List ℕ) :
    factors ldigits rdigits = ⟨(factors ldigits rdigits).ldigits,
      (factors ldigits rdigits).rdigits, ((factors ldigits rdigits).exponent.toNat : ℕ)⟩ := by
  rw [Int.toNat_of_nonneg (factors_exponent_nonneg ldigits rdigits)]

theorem factors_length_le (ldigits rdigits : List ℕ) :
    (factors ldigits rdigits).ldigits.length + (factors ldigits rdigits).rdigits.length ≤
      ldigits.length + rdigits.length := by
  have h := factors_length ldigits rdigits
  have h0 := factors_exponent_nonneg ldigits rdigits
  omega

theorem skipLeadingZero_le (ds : List ℕ) (size : ℕ) : skipLeadingZero ds size ≤ size := by
  induction size with
  | zero => exact le_rfl
  | succ size ih =>
    rw [skipLeadingZero]
    split_ifs <;> omega

/-- The place where `multsplit_decimalhelper` divides the operands, `l` is the shorter one. -/
def split (l : List ℕ) : ℕ := (l.length + 1) / 2

theorem halves_length_lt {l r : List ℕ} (h4 : 4 ≤ l.length) (hle : l.length ≤ r.length) :
    (l.drop (split l)).length + (r.drop (split l)).length < l.length + r.length ∧
      (l.take (skipLeadingZero l (split l))).length +
        (r.take (skipLeadingZero r (split l))).length < l.length + r.length ∧
      ∀ {n m : ℕ}, n ≤ max (l.drop (split l)).length
          (l.take (skipLeadingZero l (split l))).length + 1 →
        m ≤ max (r.drop (split l)).length (r.take (skipLeadingZero r (split l))).length + 1 →
        n + m < l.length + r.length := by
  have hl := skipLeadingZero_le l (split l)
  have hr := skipLeadingZero_le r (split l)
  simp only [List.length_drop, List.length_take]
  rw [split] at *
  refine ⟨by omega, by omega, fun hn hm => by omega⟩

/-- `(uint8_t) z` -/
def uint8 (z : ℤ) : ℕ := (z % 256).toNat

/-- The end of `multsplit_decimalhelper`: `t4 = t4 - t0 - t1`, `result = t0 * X * X + t1`, and `t4`
is added to the result at the place where `X` has its digit. -/
def combine (result t0 t1 t4 : Decimal) (split : ℕ) (exponent : ℤ) : Except Failure Decimal :=
  (checked (subDecimal result t4 t0)).bind fun result =>
  (checked (subDecimal t4 result t1)).bind fun t4 =>
  (checked (addDecimal result { t0 with exponent := int16 (t0.exponent + (split + split)) }
    t1)).bind fun result =>
  let offset := uint8 (t4.exponent + split - result.exponent)
  -- an offset that was negative is larger than every array
  (inside result offset (result.valid.drop offset) t4.valid).bind fun _ =>
  let result := addsplitDecimalhelper result offset (result.valid.drop offset) t4.valid
  .ok { result with exponent := int16 (result.exponent + exponent) }

/-- `multsplit_decimalhelper`.  With `X = base ^ split`, `l = lh * X + ll` and `r = rh * X + rl`:
`t0 = lh * rh`, `t1 = ll * rl`, `t2 = lh + ll`, `t3 = rh + rl`, `t4 = t2 * t3`. -/
def multsplitDecimalhelper (result : Decimal) (ldigits rdigits : List ℕ) :
    Except Failure Decimal :=
  let l := (factors ldigits rdigits).ldigits
  let r := (factors ldigits rdigits).rdigits
  let exponent := (factors ldigits rdigits).exponent
  if _h : l.length < 4 then multDecimalhelper result l r (int16 exponent)
  else
    let split := split l
    let lsplit := skipLeadingZero l split
    let rsplit := skipLeadingZero r split
    (checked (newDecimal (r.length - split + (l.length - split)))).bind fun new0 =>
    (checked (newDecimal (lsplit + rsplit))).bind fun new1 =>
    (checked (newDecimal (1 + split))).bind fun new2 =>
    (checked (newDecimal (1 + if l.length < r.length then r.length - split else split))).bind
      fun new3 =>
    (checked (newDecimal (2 + r.length))).bind fun new4 =>
    (multsplitDecimalhelper new0 (l.drop split) (r.drop split)).bind fun t0 =>
    (multsplitDecimalhelper new1 (l.take lsplit) (r.take rsplit)).bind fun t1 =>
    (inside new2 0 (l.drop split) (l.take lsplit)).bind fun _ =>
    let t2 := addsplitDecimalhelper new2 0 (l.drop split) (l.take lsplit)
    (inside new3 0 (r.drop split) (r.take rsplit)).bind fun _ =>
    let t3 := addsplitDecimalhelper new3 0 (r.drop split) (r.take rsplit)
    (multsplitDecimalhelper new4 t2.valid t3.valid).bind fun t4 =>
    combine result t0 t1 t4 split exponent
termination_by ldigits.length + rdigits.length
decreasing_by
  all_goals
    have hlt := halves_length_lt (not_lt.mp _h) (factors_le ldigits rdigits)
    have hlen := factors_length_le ldigits rdigits
  · exact hlt.1.trans_le hlen
  · exact hlt.2.1.trans_le hlen
  · exact (hlt.2.2 (addsplit_valid_length_le new2 _ _)
      (addsplit_valid_length_le new3 _ _)).trans_le hlen

/-- `mult_decimal`. -/
def multDecimal (result ldec rdec : Decimal) : Except Failure Decimal :=
  let isNegSign := ldec.isnegativeDecimal ^^ rdec.isnegativeDecimal
  let l := ldec.operand
  let r := rdec.operand
  let exponent := l.exponent + r.exponent
  if r.digits = [] ∨ l.digits = [] then .ok (clearDecimal result)
  else if INT16_MAX < exponent.natAbs then .error (.errno .EOVERFLOW)
  else
    (checked (allocateDecimalhelper result (l.digits.length + r.digits.length))).bind fun result =>
    (multsplitDecimalhelper result l.digits r.digits).map fun result =>
      { result with
        signAndUsedDigits := result.signAndUsedDigits ||| if isNegSign then 0x80 else 0
        exponent := int16 (result.exponent + exponent) }

/-! ## Zeros at the end of a number -/

/-- The number of zeros at the end of `v`, if there are not more than `bound`. -/
def trailingZeros (bound : ℕ) (v : ℤ) : ℕ := Nat.findGreatest (fun k => base ^ k ∣ v) bound

/-- `v` has `n` zeros at its end. -/
def Zeros (v : ℤ) (n : ℕ) : Prop := ∀ k : ℕ, base ^ k ∣ v ↔ k ≤ n

theorem le_trailingZeros_iff {bound k : ℕ} {v : ℤ} (h : k ≤ bound) :
    k ≤ trailingZeros bound v ↔ base ^ k ∣ v := by
  constructor
  · intro hk
    have h0 : base ^ 0 ∣ v := by
      rw [pow_zero]
      exact one_dvd v
    exact (pow_dvd_pow base hk).trans
      (Nat.findGreatest_spec (P := fun k => base ^ k ∣ v) (Nat.zero_le bound) h0)
  · intro hdvd
    exact Nat.le_findGreatest (P := fun k => base ^ k ∣ v) h hdvd

theorem Zeros.dvd {v : ℤ} {n : ℕ} (h : Zeros v n) : base ^ n ∣ v := (h n).mpr le_rfl

theorem Zeros.lt_of_lt {v : ℤ} {n k : ℕ} (h : Zeros v n) (hpos : 0 < v) (hlt : v < base ^ k) :
    n < k := by
  by_contra hle
  have hdvd : base ^ k ∣ v := (h k).mpr (not_lt.mp hle)
  exact absurd (Int.le_of_dvd hpos hdvd) (not_le.mpr hlt)

theorem Zeros.trailingZeros_eq {v : ℤ} {n bound : ℕ} (h : Zeros v n) (hb : n ≤ bound) :
    trailingZeros bound v = n := by
  apply le_antisymm
  · exact (h _).mp ((le_trailingZeros_iff (Nat.findGreatest_le bound)).mp le_rfl)
  · exact (le_trailingZeros_iff hb).mpr h.dvd

theorem zeros_mul_pow {v : ℤ} {e : ℕ} (h : ¬ base ∣ v) : Zeros (v * base ^ e) e := by
  intro k
  constructor
  · intro hdvd
    by_contra hlt
    have hk : base ^ (e + 1) ∣ v * base ^ e := (pow_dvd_pow base (by omega)).trans hdvd
    rw [pow_succ', mul_dvd_mul_iff_right (base_pow_pos e).ne'] at hk
    exact h hk
  · intro hle
    exact (pow_dvd_pow base hle).trans (dvd_mul_left _ _)

theorem not_base_dvd_number {ds : List ℕ} (hd : Digits ds) (hhead : ds.head? ≠ some 0)
    (hne : ds ≠ []) : ¬ base ∣ number ds := by
  obtain ⟨d, ds, rfl⟩ := List.exists_cons_of_ne_nil hne
  obtain ⟨hlt, -⟩ := digits_cons.mp hd
  have hd0 : d ≠ 0 := by simpa using hhead
  rw [number_cons, Int.dvd_add_left (dvd_mul_right base _), ← cast_DIGITSBASE]
  intro hdvd
  exact absurd (Nat.le_of_dvd (Nat.pos_of_ne_zero hd0) (Int.natCast_dvd_natCast.mp hdvd))
    (not_le.mpr hlt)

/-! ## Results as operands -/

theorem IsProduct.magnitude_eq {dec : Decimal} {e : ℕ} {v : ℤ} (h : dec.IsProduct e v) :
    dec.magnitude = v := by
  rw [magnitude, h.exponent_eq, zpow_natCast, ← h.number_eq]
  push_cast
  rfl

theorem IsProduct.sizeDecimal_ne {dec : Decimal} {e : ℕ} {v : ℤ} (h : dec.IsProduct e v) :
    dec.sizeDecimal ≠ 0 := by
  intro h0
  have hv := h.magnitude_eq
  rw [magnitude_eq_zero h0] at hv
  exact h.pos.ne (by exact_mod_cast hv)

theorem IsProduct.operand_ne_nil {dec : Decimal} {e : ℕ} {v : ℤ} (h : dec.IsProduct e v) :
    dec.operand.digits ≠ [] :=
  fun hnil => h.sizeDecimal_ne (h.wellFormed.operand_eq_nil.mp hnil)

theorem IsProduct.le_operand_exponent {dec : Decimal} {e : ℕ} {v : ℤ} (h : dec.IsProduct e v) :
    (e : ℤ) ≤ dec.operand.exponent := by
  rw [← h.exponent_eq]
  exact Operand.le_skipTrailingZero_exponent dec.valid dec.exponent

theorem IsProduct.operand_exponent_nonneg {dec : Decimal} {e : ℕ} {v : ℤ}
    (h : dec.IsProduct e v) : 0 ≤ dec.operand.exponent :=
  (Int.natCast_nonneg e).trans h.le_operand_exponent

theorem IsProduct.valueAt_zero {dec : Decimal} {e : ℕ} {v : ℤ} (h : dec.IsProduct e v) :
    dec.operand.valueAt 0 = v := by
  have hv := Operand.value_eq_valueAt h.operand_exponent_nonneg
  rw [operand_value, h.magnitude_eq, zpow_zero, mul_one] at hv
  exact_mod_cast hv.symm

theorem IsProduct.exists_zeros {dec : Decimal} {e : ℕ} {v : ℤ} (h : dec.IsProduct e v) :
    ∃ n : ℕ, dec.operand.exponent = n ∧ Zeros v n := by
  obtain ⟨n, hn⟩ := Int.eq_ofNat_of_zero_le h.operand_exponent_nonneg
  refine ⟨n, hn, ?_⟩
  have hv := h.valueAt_zero
  rw [Operand.valueAt, Int.sub_zero, hn, Int.toNat_natCast] at hv
  rw [← hv]
  exact zeros_mul_pow
    (not_base_dvd_number h.wellFormed.operand_digits dec.operand_head h.operand_ne_nil)

theorem IsProduct.operand_exponent_eq {dec : Decimal} {e n : ℕ} {v : ℤ} (h : dec.IsProduct e v)
    (hz : Zeros v n) : dec.operand.exponent = n := by
  obtain ⟨m, hm, hzm⟩ := h.exists_zeros
  have h1 := (hzm n).mp hz.dvd
  have h2 := (hz m).mp hzm.dvd
  omega

theorem IsProduct.pow_order_le {dec : Decimal} {e : ℕ} {v : ℤ} (h : dec.IsProduct e v) :
    base ^ (dec.operand.order - 1).toNat ≤ v ∧ v < base ^ dec.operand.order.toNat ∧
      0 < dec.operand.order := by
  have h1 := Operand.pow_order_le h.operand_exponent_nonneg h.wellFormed.operand_leading
    h.operand_ne_nil
  have h2 := Operand.valueAt_lt h.operand_exponent_nonneg h.wellFormed.operand_digits
  have h3 := h.operand_exponent_nonneg
  have h4 := List.length_pos_iff.mpr h.operand_ne_nil
  rw [h.valueAt_zero, Int.sub_zero] at h1 h2
  refine ⟨h1, h2, ?_⟩
  rw [Operand.order]
  omega

theorem IsProduct.order_le {dec : Decimal} {e n : ℕ} {v : ℤ} (h : dec.IsProduct e v)
    (hlt : v < base ^ n) : dec.operand.order ≤ n := by
  obtain ⟨h1, -, -⟩ := h.pow_order_le
  have hlt' := (pow_lt_pow_iff_right₀ (by norm_num [base])).mp (h1.trans_lt hlt)
  omega

theorem IsProduct.lt_order {dec : Decimal} {e n : ℕ} {v : ℤ} (h : dec.IsProduct e v)
    (hle : base ^ n ≤ v) : (n : ℤ) < dec.operand.order := by
  obtain ⟨-, h2, -⟩ := h.pow_order_le
  have hlt := (pow_lt_pow_iff_right₀ (by norm_num [base])).mp (hle.trans_lt h2)
  omega

theorem IsProduct.valueAt_mul {dec : Decimal} {e n m : ℕ} {v : ℤ} (h : dec.IsProduct e v)
    (hz : Zeros v n) (hm : m ≤ n) : dec.operand.valueAt m * base ^ m = v := by
  have hv := h.valueAt_zero
  rw [Operand.valueAt, h.operand_exponent_eq hz] at *
  rw [← hv, mul_assoc, ← pow_add]
  congr 2
  omega

theorem Stored.isProduct {new : Decimal} {m : ℕ} {n : ℤ} (h : new.Stored false m n)
    (hm : m ≤ INT16_MAX) : new.IsProduct m (n * base ^ m) := by
  have hm' : (m : ℤ) ≤ INT16_MAX := by exact_mod_cast hm
  obtain ⟨hwf, hval⟩ := h.exact hm'
  have hexp : new.exponent = m := by rw [h.exponent_eq, int16_of_mem (by omega) hm']
  have hpos : 0 < n * base ^ m := mul_pos h.pos (base_pow_pos m)
  rw [if_neg (by simp), one_mul, zpow_natCast] at hval
  have hval' : new.value = ((n * base ^ m : ℤ) : ℚ) := by
    rw [hval]
    push_cast
    rfl
  have hneg : new.isnegativeDecimal = false := by
    by_contra hneg
    have h1 := new.magnitude_nonneg
    have h2 : (0 : ℚ) < ((n * base ^ m : ℤ) : ℚ) := Int.cast_pos.mpr hpos
    rw [← hval', value, if_pos (by simpa using hneg)] at h2
    linarith
  refine ⟨hwf, hneg, hexp, ?_, hpos⟩
  rw [value, hneg, if_neg (by simp), one_mul, magnitude, hexp, zpow_natCast] at hval'
  exact_mod_cast hval'

theorem Zeros.le_INT16_MAX {v : ℤ} {n : ℕ} (h : Zeros v n) (hpos : 0 < v)
    (hlt : v < base ^ 0x7f) : n ≤ INT16_MAX := by
  have hn := h.lt_of_lt hpos hlt
  rw [INT16_MAX]
  omega

theorem subDecimal_isProduct (result : Decimal) {x y : Decimal} {ex ey nx ny : ℕ} {vx vy : ℤ}
    (hx : x.IsProduct ex vx) (hy : y.IsProduct ey vy) (hzx : Zeros vx nx) (hzy : Zeros vy ny)
    (hlt : vy < vx) (hb : vx < base ^ 0x7f) :
    ∃ new, subDecimal result x y = .ok new ∧ new.IsProduct (min nx ny) (vx - vy) := by
  have hmin : min x.operand.exponent y.operand.exponent = (min nx ny : ℕ) := by
    rw [hx.operand_exponent_eq hzx, hy.operand_exponent_eq hzy]
    exact (Nat.cast_min nx ny).symm
  have hvx := hx.valueAt_mul hzx (min_le_left nx ny)
  have hvy := hy.valueAt_mul hzy (min_le_right nx ny)
  have hcases := subDecimalhelper_cases result hx.wellFormed hy.wellFormed hx.operand_ne_nil
    hy.operand_ne_nil
  rw [hmin, hx.magnitude_eq, hy.magnitude_eq, hx.isnegative_eq] at hcases
  rw [subDecimal, if_pos (hx.isnegative_eq.trans hy.isnegative_eq.symm)]
  rcases hcases with ⟨heq, -⟩ | ⟨isSwap, hstored, hex⟩
  · exact absurd (Int.cast_inj.mp heq) hlt.ne'
  · have hox := hx.order_le hb
    have hoy := hy.order_le (hlt.trans hb)
    obtain ⟨new, hnew⟩ := hex (by omega) (by omega)
    have hs := hstored new hnew
    cases isSwap with
    | true =>
      -- the left operand is the bigger one
      have hneg := mul_pos hs.pos (base_pow_pos (min nx ny))
      rw [if_pos rfl, mul_assoc, sub_mul, hvx, hvy] at hneg
      omega
    | false =>
      have hle : min nx ny ≤ INT16_MAX :=
        (min_le_left nx ny).trans (hzx.le_INT16_MAX hx.pos hb)
      have hp := hs.isProduct hle
      rw [if_neg (by simp), one_mul, sub_mul, hvx, hvy] at hp
      exact ⟨new, hnew, hp⟩

theorem addDecimal_isProduct (result : Decimal) {x y : Decimal} {ex ey nx ny : ℕ} {vx vy : ℤ}
    (hx : x.IsProduct ex vx) (hy : y.IsProduct ey vy) (hzx : Zeros vx nx) (hzy : Zeros vy ny)
    (hb : min nx ny ≤ INT16_MAX) :
    (∀ new, addDecimal result x y = .ok new → new.IsProduct (min nx ny) (vx + vy) ∧
        max x.operand.order y.operand.order + 1 ≤ (min nx ny : ℕ) + new.sizeAllocated) ∧
      (max x.operand.order y.operand.order + 1 ≤ (min nx ny : ℕ) + 0x7f →
        ∃ new, addDecimal result x y = .ok new) := by
  have hmin : min x.operand.exponent y.operand.exponent = (min nx ny : ℕ) := by
    rw [hx.operand_exponent_eq hzx, hy.operand_exponent_eq hzy]
    exact (Nat.cast_min nx ny).symm
  have hvx := hx.valueAt_mul hzx (min_le_left nx ny)
  have hvy := hy.valueAt_mul hzy (min_le_right nx ny)
  have hcases := addDecimalhelper_cases result hx.wellFormed hy.wellFormed hx.operand_ne_nil
    hy.operand_ne_nil
  rw [hmin, hx.isnegative_eq] at hcases
  rw [addDecimal, if_pos (hx.isnegative_eq.trans hy.isnegative_eq.symm)]
  refine ⟨fun new hnew => ?_, hcases.2⟩
  obtain ⟨hs, hsize⟩ := hcases.1 new hnew
  have hp := hs.isProduct hb
  rw [add_mul, hvx, hvy] at hp
  exact ⟨hp, hsize⟩

theorem IsProduct.shift {dec : Decimal} {e k : ℕ} {j v : ℤ} (h : dec.IsProduct e v) (hj : j = k)
    (hk : e + k ≤ INT16_MAX) :
    ({ dec with exponent := int16 (dec.exponent + j) } : Decimal).IsProduct (e + k)
      (v * base ^ k) := by
  have hk' : ((e + k : ℕ) : ℤ) ≤ INT16_MAX := by exact_mod_cast hk
  have hexp : int16 (dec.exponent + j) = ((e + k : ℕ) : ℤ) := by
    rw [h.exponent_eq, hj]
    exact int16_of_mem (by omega) (by exact_mod_cast hk')
  refine ⟨?_, h.isnegative_eq, hexp, ?_, mul_pos h.pos (base_pow_pos k)⟩
  · obtain ⟨hst, hd, hl, -, -, h0⟩ := h.wellFormed
    exact ⟨hst, hd, hl, by dsimp only; omega, by dsimp only; omega, h0⟩
  · rw [← h.number_eq, pow_add, ← mul_assoc]
    rfl

/-! ## The last addition -/

theorem addsplitDecimalhelper_eq_assign {c : Decimal} {offset : ℕ} (ho : offset ≤ c.sizeDecimal)
    (ldigits rdigits : List ℕ) (exponent : ℤ) :
    ({ addsplitDecimalhelper c offset ldigits rdigits with exponent := int16 exponent } : Decimal) =
      c.assign false (offset + (addsplitDigits ldigits rdigits).length) exponent
        (c.valid.take offset ++ addsplitDigits ldigits rdigits) := by
  have htake : c.valid.take offset = c.digits.take offset := by
    rw [valid, List.take_take, min_eq_left ho]
  rw [htake]
  simp [addsplitDecimalhelper, assign, signAndSize]

theorem addsplit_isProduct {c b : Decimal} {z m split offset exponent : ℕ} {vc vb : ℤ}
    (hc : c.IsProduct z vc) (hb : b.IsProduct m vb) (ho : offset ≤ c.sizeDecimal)
    (hplace : offset + z = m + split)
    (hlt : vc + vb * base ^ split < base ^ (c.sizeAllocated + z))
    (he : z + exponent ≤ INT16_MAX) :
    inside c offset (c.valid.drop offset) b.valid = .ok () ∧
      ({ addsplitDecimalhelper c offset (c.valid.drop offset) b.valid with
          exponent := int16 (c.exponent + exponent) } : Decimal).IsProduct (z + exponent)
        ((vc + vb * base ^ split) * base ^ exponent) := by
  have hbd := hb.wellFormed.digits
  have hcd := hc.wellFormed.digits
  have hlen := hc.wellFormed.length_valid
  have hbne := hb.wellFormed.valid_ne_nil hb.sizeDecimal_ne
  obtain ⟨hlead, hne⟩ := addsplitDigits_leading (hcd.drop offset) hbd
    (hc.wellFormed.leading.of_suffix (List.drop_suffix offset _)) hb.wellFormed.leading hbne
  have hsum := addsplitDigits_number (c.valid.drop offset) b.valid
  have hsumd := addsplitDigits_digits (hcd.drop offset) hbd
  rw [inside, addsplitDecimalhelper_eq_assign ho]
  generalize addsplitDigits (c.valid.drop offset) b.valid = sum at *
  have hlow : (c.valid.take offset).length = offset := by
    rw [List.length_take]
    omega
  have hnum : number (c.valid.take offset ++ sum) =
      number c.valid + base ^ offset * number b.valid := by
    rw [number_append, hlow, hsum, ← number_take_add_drop (show offset ≤ c.valid.length by omega)]
    ring
  have hv : number (c.valid.take offset ++ sum) * base ^ z = vc + vb * base ^ split := by
    rw [hnum, ← hc.number_eq, ← hb.number_eq, add_mul, mul_assoc (number b.valid), ← pow_add,
      ← hplace, pow_add]
    ring
  have hpos : 0 < vc + vb * base ^ split :=
    add_pos hc.pos (mul_pos hb.pos (base_pow_pos split))
  have hds : Leading (c.valid.take offset ++ sum) := Leading.append_left hlead hne
  have hdsne : c.valid.take offset ++ sum ≠ [] := by simp [hne]
  have hdslen : (c.valid.take offset ++ sum).length = offset + sum.length := by
    rw [List.length_append, hlow]
  -- the leading digit of the sum has a place inside the array
  have hfits : offset + sum.length ≤ c.sizeAllocated := by
    have hle := mul_le_mul_of_nonneg_right (pow_le_number hds hdsne) (base_pow_pos z).le
    rw [hv, ← pow_add] at hle
    have := (pow_lt_pow_iff_right₀ (by norm_num [base])).mp (hle.trans_lt hlt)
    omega
  have htake : (c.valid.take offset ++ sum).take (offset + sum.length) =
      c.valid.take offset ++ sum := List.take_of_length_le hdslen.le
  refine ⟨if_neg (not_lt.mpr hfits), ?_⟩
  rw [hc.exponent_eq, ← Nat.cast_add]
  refine assign_isProduct c (hfits.trans c.allocated_le) hdslen.ge he ?_ ?_
    (mul_pos hpos (base_pow_pos exponent)) ?_
  · rw [htake]
    exact digits_append.mpr ⟨hcd.take offset, hsumd⟩
  · rwa [htake]
  · rw [htake, pow_add, ← mul_assoc, hv]

/-- The halves `lh * X + ll` and `rh * X + rl` of two numbers, for which the last addition starts
inside the result: the product of the lower halves must not have more than `split` zeros more at its
end than what is added to it one half higher. -/
def OffsetFits (split : ℕ) (lh ll rh rl : ℤ) : Prop :=
  trailingZeros (2 * split) (ll * rl) ≤ split + trailingZeros (2 * split) (lh * rl + ll * rh)

instance (split : ℕ) (lh ll rh rl : ℤ) : Decidable (OffsetFits split lh ll rh rl) :=
  inferInstanceAs (Decidable (_ ≤ _))

theorem offsetFits_iff {split z n : ℕ} {lh ll rh rl : ℤ} (hz : Zeros (ll * rl) z)
    (hlt : z ≤ 2 * split) (hn : Zeros (lh * rl + ll * rh + ll * rl) n) :
    OffsetFits split lh ll rh rl ↔ z ≤ min n z + split := by
  have hk : z - split ≤ 2 * split := by omega
  have hdvd : base ^ (z - split) ∣ ll * rl := (hz _).mpr (Nat.sub_le z split)
  have htz := le_trailingZeros_iff (v := lh * rl + ll * rh) hk
  rw [← Int.dvd_add_left hdvd, hn] at htz
  rw [OffsetFits, hz.trailingZeros_eq hlt]
  omega

theorem mul_halves_lt {X lh ll rh rl : ℤ} (hlh : 0 < lh) (hll : 0 < ll) (hrh : 0 < rh)
    (hrl : 0 < rl) (hl : ll < X) (hr : rl < X) :
    (lh * X + ll) * (rh * X + rl) < 4 * (lh * rh * (X * X)) := by
  have hX : 0 < X := hll.trans hl
  have h1 : lh * X + ll < 2 * (lh * X) := by nlinarith
  have h2 : rh * X + rl < 2 * (rh * X) := by nlinarith
  calc (lh * X + ll) * (rh * X + rl) < 2 * (lh * X) * (2 * (rh * X)) := by
        apply mul_lt_mul'' h1 h2 <;> positivity
    _ = 4 * (lh * rh * (X * X)) := by ring

theorem mixed_lt {X lh ll rh rl : ℤ} (hlh : 0 < lh) (hrh : 0 < rh) (hl : ll < X) (hr : rl < X)
    (hX : 0 < X) : lh * rl + ll * rh < X * (lh * rh + 1) := by
  have h1 : lh * rl ≤ lh * (X - 1) := mul_le_mul_of_nonneg_left (by omega) hlh.le
  have h2 : ll * rh ≤ (X - 1) * rh := mul_le_mul_of_nonneg_right (by omega) hrh.le
  nlinarith [mul_nonneg (show 0 ≤ lh - 1 by omega) (show 0 ≤ rh - 1 by omega)]

/-- The halves of two numbers: all four are there, and the lower ones are below `X`. -/
structure Halves (split : ℕ) (lh ll rh rl : ℤ) : Prop where
  lh_pos : 0 < lh
  ll_pos : 0 < ll
  rh_pos : 0 < rh
  rl_pos : 0 < rl
  ll_lt : ll < base ^ split
  rl_lt : rl < base ^ split

theorem Halves.mixed_pos {split : ℕ} {lh ll rh rl : ℤ} (h : Halves split lh ll rh rl) :
    0 < lh * rl + ll * rh :=
  add_pos (mul_pos h.lh_pos h.rl_pos) (mul_pos h.ll_pos h.rh_pos)

theorem Halves.zeros_lt {split z : ℕ} {lh ll rh rl : ℤ} (h : Halves split lh ll rh rl)
    (hz : Zeros (ll * rl) z) : z < 2 * split := by
  refine hz.lt_of_lt (mul_pos h.ll_pos h.rl_pos) ?_
  rw [two_mul, pow_add]
  exact mul_lt_mul'' h.ll_lt h.rl_lt h.ll_pos.le h.rl_pos.le

theorem Halves.place_lt {split m d : ℕ} {lh ll rh rl : ℤ} (h : Halves split lh ll rh rl)
    (hd : lh * rh < base ^ d) (hm : base ^ m ∣ lh * rl + ll * rh) : m < split + d := by
  have hmixed := mixed_lt h.lh_pos h.rh_pos h.ll_lt h.rl_lt (base_pow_pos split)
  have hle : base ^ split * (lh * rh + 1) ≤ base ^ split * base ^ d :=
    mul_le_mul_of_nonneg_left hd (base_pow_pos split).le
  have hpow := Int.le_of_dvd h.mixed_pos hm
  rw [← pow_add] at hle
  exact (pow_lt_pow_iff_right₀ (by norm_num [base])).mp (hpow.trans_lt (hmixed.trans_le hle))

theorem Halves.product_lt {split d : ℕ} {lh ll rh rl : ℤ} (h : Halves split lh ll rh rl)
    (hd : lh * rh < base ^ d) :
    (lh * base ^ split + ll) * (rh * base ^ split + rl) < base ^ (d + 2 * split + 1) := by
  have hlt := mul_halves_lt h.lh_pos h.ll_pos h.rh_pos h.rl_pos h.ll_lt h.rl_lt
  rw [← pow_add, ← two_mul] at hlt
  have hle : lh * rh * base ^ (2 * split) < base ^ (d + 2 * split) := by
    rw [pow_add]
    exact mul_lt_mul_of_pos_right hd (base_pow_pos _)
  have hpos := base_pow_pos (d + 2 * split)
  rw [pow_succ, base_eq] at *
  omega

theorem uint8_of_neg {z : ℤ} (h : z < 0) (h' : -128 ≤ z) : 0x7f < uint8 z := by
  rw [uint8]
  omega

theorem uint8_of_mem {z : ℤ} {n : ℕ} (h : z = n) (h' : n ≤ 0x7f) : uint8 z = n := by
  rw [uint8]
  omega

/-- **The end of the split multiplication.**  If the offset is not negative then the products are
put together, unless the sum is longer than any object; and otherwise the addition is outside of
the result. -/
theorem combine_spec (result : Decimal) {t0 t1 t4 : Decimal} {e0 e1 e4 split z exponent : ℕ}
    {lh ll rh rl : ℤ} (h : Halves split lh ll rh rl) (h0 : t0.IsProduct e0 (lh * rh))
    (h1 : t1.IsProduct e1 (ll * rl)) (h4 : t4.IsProduct e4 ((lh + ll) * (rh + rl)))
    (hz : Zeros (ll * rl) z) (hb : (lh + ll) * (rh + rl) < base ^ 0x7f)
    (horder : t0.operand.order + 2 * split + exponent ≤ 0x7f) :
    (OffsetFits split lh ll rh rl →
      (∃ new, combine result t0 t1 t4 split exponent = .ok new ∧ new.IsProduct (z + exponent)
        ((lh * base ^ split + ll) * (rh * base ^ split + rl) * base ^ exponent)) ∨
      (0x7f ≤ t0.operand.order + 2 * split ∧ z = 0 ∧
        ∃ e, combine result t0 t1 t4 split exponent = .error (.errno e))) ∧
    (¬ OffsetFits split lh ll rh rl →
      combine result t0 t1 t4 split exponent = .error .outOfBounds) := by
  obtain ⟨n4, -, hz4⟩ := h4.exists_zeros
  obtain ⟨n0, hn0, hz0⟩ := h0.exists_zeros
  obtain ⟨-, hlt0, hopos⟩ := h0.pow_order_le
  have hmixed := h.mixed_pos
  have hzlt := h.zeros_lt hz
  have hmul0 := mul_pos h.lh_pos h.rh_pos
  have hmul1 := mul_pos h.ll_pos h.rl_pos
  have hsub0 : (lh + ll) * (rh + rl) - lh * rh = lh * rl + ll * rh + ll * rl := by ring
  have he0 := h0.le_operand_exponent
  have hord0 : t0.operand.exponent ≤ t0.operand.order := by
    rw [Operand.order]
    omega
  -- `t4 - t0`, then `- t1`
  obtain ⟨b0, hb0, hp0⟩ := subDecimal_isProduct result h4 h0 hz4 hz0 (by omega) hb
  rw [hsub0] at hp0
  obtain ⟨n, -, hzn⟩ := hp0.exists_zeros
  obtain ⟨b, hb1, hp⟩ := subDecimal_isProduct t4 hp0 h1 hzn hz (by omega) (by omega)
  rw [add_sub_cancel_right] at hp
  -- `t0 * X * X + t1`
  have hshift := h0.shift (j := split + split) (k := 2 * split) (by push_cast; ring)
    (by rw [INT16_MAX]; omega)
  have hordshift := hshift.wellFormed.operand_order
  rw [hshift.exponent_eq, Nat.cast_add, add_right_comm, ← h0.exponent_eq] at hordshift
  change _ = t0.exponent + t0.sizeDecimal + _ at hordshift
  rw [← h0.wellFormed.operand_order] at hordshift
  push_cast at hordshift
  obtain ⟨n0', -, hz0'⟩ := hshift.exists_zeros
  have hle0 : 2 * split ≤ n0' := (hz0' _).mp (dvd_mul_left _ _)
  have hmin : min n0' z = z := min_eq_right (by omega)
  have hadd := addDecimal_isProduct b0 hshift h1 hz0' hz (by rw [hmin, INT16_MAX]; omega)
  rw [hmin, hordshift] at hadd
  have hord1 : t1.operand.order ≤ 2 * split := by
    have hlt1 : ll * rl < base ^ (2 * split) := by
      rw [two_mul, pow_add]
      exact mul_lt_mul'' h.ll_lt h.rl_lt h.ll_pos.le h.rl_pos.le
    have := h1.order_le hlt1
    omega
  rw [offsetFits_iff hz hzlt.le hzn]
  cases hres : addDecimal b0 { t0 with exponent := int16 (t0.exponent + (split + split)) } t1 with
  | error e =>
    have hcomb : combine result t0 t1 t4 split exponent = .error (.errno e) := by
      simp only [combine, hb0, hb1, hres, checked, Except.mapError, Except.bind]
    have hz0 : ¬ t0.operand.order + 2 * split + 1 ≤ (z : ℤ) + 0x7f := by
      intro hle
      obtain ⟨new, hnew⟩ := hadd.2 (by omega)
      rw [hres] at hnew
      cases hnew
    constructor
    · exact fun _ => Or.inr ⟨by omega, by omega, e, hcomb⟩
    · intro hnot
      omega
  | ok c =>
    obtain ⟨hc, halloc⟩ := hadd.1 c hres
    have hcomb : combine result t0 t1 t4 split exponent =
        (inside c (uint8 (b.exponent + split - c.exponent))
          (c.valid.drop (uint8 (b.exponent + split - c.exponent))) b.valid).bind fun _ =>
          .ok { addsplitDecimalhelper c (uint8 (b.exponent + split - c.exponent))
            (c.valid.drop (uint8 (b.exponent + split - c.exponent))) b.valid with
            exponent := int16 (c.exponent + exponent) } := by
      simp only [combine, hb0, hb1, hres, checked, Except.mapError, Except.bind]
      rfl
    have hzlt' : (z : ℤ) < 2 * split := by exact_mod_cast hzlt
    rw [hcomb, hp.exponent_eq, hc.exponent_eq]
    constructor
    · intro hfit
      have hu : uint8 ((min n z : ℕ) + split - z) = min n z + split - z :=
        uint8_of_mem (by omega) (by omega)
      have hv : lh * rh * base ^ (2 * split) + ll * rl +
          (lh * rl + ll * rh) * base ^ split =
          (lh * base ^ split + ll) * (rh * base ^ split + rl) := by ring
      have hord := h.place_lt hlt0 (hp.number_eq ▸ dvd_mul_left _ _)
      have hlow : base ^ (t0.operand.order.toNat - 1 + 2 * split) ≤
          lh * rh * base ^ (2 * split) + ll * rl := by
        have hpow := h0.pow_order_le.1
        rw [show (t0.operand.order - 1).toNat = t0.operand.order.toNat - 1 by omega] at hpow
        have hle := mul_le_mul_of_nonneg_right hpow (base_pow_pos (2 * split)).le
        rw [pow_add]
        omega
      have hordc := hc.lt_order hlow
      rw [hc.wellFormed.operand_order, hc.exponent_eq] at hordc
      have hsum := addsplit_isProduct hc hp (by omega)
        (show min n z + split - z + z = min n z + split by omega) (by
          rw [hv]
          exact (h.product_lt hlt0).trans_le
            (pow_le_pow_right₀ (by norm_num [base]) (by omega)))
        (show z + exponent ≤ INT16_MAX by rw [INT16_MAX]; omega)
      rw [hv, hc.exponent_eq] at hsum
      rw [hu, hsum.1]
      exact Or.inl ⟨_, rfl, hsum.2⟩
    · intro hnot
      have hu : 0x7f < uint8 ((min n z : ℕ) + split - z) := uint8_of_neg (by omega) (by omega)
      have hout := c.allocated_le
      rw [inside, if_pos (by omega)]
      rfl

/-! ## The split multiplication as a whole -/

/-- The exponent that `multsplit_decimalhelper` returns: the zeros that were skipped, and those at
the end of the product of the lower halves. -/
def splitExponent (ldigits rdigits : List ℕ) : ℕ :=
  let l := (factors ldigits rdigits).ldigits
  let r := (factors ldigits rdigits).rdigits
  (factors ldigits rdigits).exponent.toNat +
    if l.length < 4 then 0
    else trailingZeros (2 * split l) (number (l.take (split l)) * number (r.take (split l)))

/-- **The operands that can be split.**  All offsets of the recursion are not negative. -/
def splitFits (ldigits rdigits : List ℕ) : Bool :=
  let l := (factors ldigits rdigits).ldigits
  let r := (factors ldigits rdigits).rdigits
  if _h : l.length < 4 then true
  else
    let lh := l.drop (split l)
    let ll := l.take (skipLeadingZero l (split l))
    let rh := r.drop (split l)
    let rl := r.take (skipLeadingZero r (split l))
    splitFits lh rh && splitFits ll rl && splitFits (addsplitDigits lh ll) (addsplitDigits rh rl) &&
      decide (OffsetFits (split l) (number lh) (number ll) (number rh) (number rl))
termination_by ldigits.length + rdigits.length
decreasing_by
  all_goals
    have hlt := halves_length_lt (not_lt.mp _h) (factors_le ldigits rdigits)
    have hlen := factors_length_le ldigits rdigits
  · exact hlt.1.trans_le hlen
  · exact hlt.2.1.trans_le hlen
  · exact (hlt.2.2 (addsplitDigits_length_le _ _) (addsplitDigits_length_le _ _)).trans_le hlen

/-- The digits of a positive number, the leading one is not zero. -/
structure IsNumber (ds : List ℕ) : Prop where
  digits : Digits ds
  leading : Leading ds
  ne_nil : ds ≠ []

theorem IsNumber.pos {ds : List ℕ} (h : IsNumber ds) : 0 < number ds :=
  number_pos h.leading h.ne_nil

theorem IsNumber.length_pos {ds : List ℕ} (h : IsNumber ds) : 0 < ds.length :=
  List.length_pos_iff.mpr h.ne_nil

theorem number_skipTrailingZero (ds : List ℕ) :
    number (Operand.skipTrailingZero ds 0).digits *
      base ^ (Operand.skipTrailingZero ds 0).exponent.toNat = number ds := by
  have h := Operand.value_eq_valueAt (Operand.le_skipTrailingZero_exponent ds 0)
  rw [Operand.skipTrailingZero_value, zpow_zero, mul_one, mul_one, Operand.valueAt,
    Int.sub_zero] at h
  exact_mod_cast h.symm

theorem IsNumber.skipTrailingZero {ds : List ℕ} (h : IsNumber ds) :
    IsNumber (Operand.skipTrailingZero ds 0).digits :=
  ⟨h.digits.of_subset (Operand.skipTrailingZero_suffix ds 0).subset,
    h.leading.of_suffix (Operand.skipTrailingZero_suffix ds 0),
    Operand.skipTrailingZero_ne_nil 0 h.leading h.ne_nil⟩

theorem factors_spec {ldigits rdigits : List ℕ} (hl : IsNumber ldigits) (hr : IsNumber rdigits) :
    IsNumber (factors ldigits rdigits).ldigits ∧ IsNumber (factors ldigits rdigits).rdigits ∧
      (factors ldigits rdigits).ldigits.head? ≠ some 0 ∧
      (factors ldigits rdigits).rdigits.head? ≠ some 0 ∧
      number (factors ldigits rdigits).ldigits * number (factors ldigits rdigits).rdigits *
        base ^ (factors ldigits rdigits).exponent.toNat = number ldigits * number rdigits := by
  have hl' := hl.skipTrailingZero
  have hr' := hr.skipTrailingZero
  have hlh := Operand.skipTrailingZero_head ldigits 0
  have hrh := Operand.skipTrailingZero_head rdigits 0
  have hexp : (factors ldigits rdigits).exponent.toNat =
      (Operand.skipTrailingZero ldigits 0).exponent.toNat +
        (Operand.skipTrailingZero rdigits 0).exponent.toNat :=
    Int.toNat_add (Operand.le_skipTrailingZero_exponent _ _)
      (Operand.le_skipTrailingZero_exponent _ _)
  rw [hexp, pow_add, ← number_skipTrailingZero ldigits, ← number_skipTrailingZero rdigits]
  simp only [factors, shorter, longer]
  split_ifs
  · exact ⟨hr', hl', hrh, hlh, by ring⟩
  · exact ⟨hl', hr', hlh, hrh, by ring⟩

theorem factors_rdigits_length_le (ldigits rdigits : List ℕ) :
    (factors ldigits rdigits).rdigits.length ≤ max ldigits.length rdigits.length := by
  have hl := (Operand.skipTrailingZero_suffix ldigits 0).length_le
  have hr := (Operand.skipTrailingZero_suffix rdigits 0).length_le
  simp only [factors, longer]
  split_ifs <;> omega

theorem lower_spec {ds : List ℕ} {n : ℕ} (h : IsNumber ds) (hhead : ds.head? ≠ some 0)
    (hn : 0 < n) (hle : n ≤ ds.length) :
    IsNumber (ds.take (skipLeadingZero ds n)) ∧
      number (ds.take (skipLeadingZero ds n)) = number (ds.take n) := by
  obtain ⟨-, hnum, hlead⟩ := skipLeadingZero_spec hle
  refine ⟨⟨h.digits.take _, hlead, fun hnil => ?_⟩, hnum⟩
  obtain ⟨d, ds, rfl⟩ := List.exists_cons_of_ne_nil h.ne_nil
  obtain ⟨n, rfl⟩ := Nat.exists_eq_succ_of_ne_zero hn.ne'
  have hd : d ≠ 0 := by simpa using hhead
  have hnonneg := mul_nonneg base_pos.le (number_nonneg (ds.take n))
  rw [hnil, number_nil, List.take_succ_cons, number_cons] at hnum
  omega

theorem upper_spec {ds : List ℕ} {n : ℕ} (h : IsNumber ds) (hlt : n < ds.length) :
    IsNumber (ds.drop n) := by
  refine ⟨h.digits.drop n, h.leading.of_suffix (List.drop_suffix n ds), fun hnil => ?_⟩
  have := congrArg List.length hnil
  rw [List.length_drop, List.length_nil] at this
  omega

theorem halves_spec {l r : List ℕ} (hl : IsNumber l) (hr : IsNumber r)
    (hlh : l.head? ≠ some 0) (hrh : r.head? ≠ some 0) (h4 : 4 ≤ l.length)
    (hle : l.length ≤ r.length) :
    Halves (split l) (number (l.drop (split l))) (number (l.take (split l)))
      (number (r.drop (split l))) (number (r.take (split l))) := by
  have hs : 0 < split l ∧ split l < l.length := by
    rw [split]
    omega
  obtain ⟨hll, hlnum⟩ := lower_spec hl hlh hs.1 hs.2.le
  obtain ⟨hrl, hrnum⟩ := lower_spec hr hrh hs.1 (hs.2.le.trans hle)
  have hllt := number_lt (hl.digits.take (split l))
  have hrlt := number_lt (hr.digits.take (split l))
  rw [List.length_take, min_eq_left (by omega)] at hllt hrlt
  exact ⟨(upper_spec hl hs.2).pos, hlnum ▸ hll.pos, (upper_spec hr (hs.2.trans_le hle)).pos,
    hrnum ▸ hrl.pos, hllt, hrlt⟩

/-- What becomes of the split multiplication: the exact product, or an error if it has more digits
than an object can have; and if the operands cannot be split, then an access outside of the
result. -/
def Outcome (res : Except Failure Decimal) (ldigits rdigits : List ℕ) : Prop :=
  (splitFits ldigits rdigits = true →
    (∃ new, res = .ok new ∧ new.IsProduct (splitExponent ldigits rdigits)
      (number ldigits * number rdigits)) ∨
    (ldigits.length + rdigits.length = 0x7f ∧ splitExponent ldigits rdigits = 0 ∧
      ∃ e, res = .error (.errno e))) ∧
  (splitFits ldigits rdigits = false → res = .error .outOfBounds)

theorem exists_newDecimal {size : ℕ} (h0 : 0 < size) (h : size ≤ 0x7f) :
    ∃ new, newDecimal size = .ok new ∧ new.sizeAllocated = size := by
  rw [newDecimal, dif_neg (by omega)]
  exact ⟨_, rfl, rfl⟩

theorem addsplit_zero_spec {dec : Decimal} {ldigits rdigits : List ℕ}
    (h : (addsplitDigits ldigits rdigits).length ≤ dec.sizeAllocated) :
    inside dec 0 ldigits rdigits = .ok () ∧
      (addsplitDecimalhelper dec 0 ldigits rdigits).valid = addsplitDigits ldigits rdigits := by
  have h7f := h.trans dec.allocated_le
  constructor
  · rw [inside, if_neg (by omega)]
  · have hs := assign_spec dec false 0 h7f le_rfl
    rw [List.take_length] at hs
    have heq := addsplitDecimalhelper_eq_assign (c := dec) (Nat.zero_le _) ldigits rdigits 0
    rw [Nat.zero_add, List.take_zero, List.nil_append] at heq
    rw [← hs.2.2, ← heq]
    rfl

theorem addsplit_isNumber {ldigits rdigits : List ℕ} (hl : IsNumber ldigits)
    (hr : IsNumber rdigits) : IsNumber (addsplitDigits ldigits rdigits) := by
  obtain ⟨hlead, hne⟩ := addsplitDigits_leading hl.digits hr.digits hl.leading hr.leading hr.ne_nil
  exact ⟨addsplitDigits_digits hl.digits hr.digits, hlead, hne⟩

theorem Outcome.of_lt {res : Except Failure Decimal} {ldigits rdigits : List ℕ}
    (h : Outcome res ldigits rdigits) (hlt : ldigits.length + rdigits.length < 0x7f) :
    (splitFits ldigits rdigits = true ∧ ∃ new e, res = .ok new ∧
      new.IsProduct e (number ldigits * number rdigits)) ∨
    (splitFits ldigits rdigits = false ∧ res = .error .outOfBounds) := by
  cases hfit : splitFits ldigits rdigits with
  | false => exact Or.inr ⟨rfl, h.2 hfit⟩
  | true =>
    rcases h.1 hfit with ⟨new, hres, hp⟩ | ⟨heq, -⟩
    · exact Or.inl ⟨rfl, new, _, hres, hp⟩
    · omega

/-- The array of a product is big enough for the digits that `mult_decimalhelper` writes. -/
def Room (result : Decimal) (ldigits rdigits : List ℕ) : Prop :=
  (factors ldigits rdigits).ldigits.length < 4 →
    (factors ldigits rdigits).ldigits.length + (factors ldigits rdigits).rdigits.length ≤
      result.sizeAllocated

theorem room_of_le {result : Decimal} {ldigits rdigits : List ℕ}
    (h : ldigits.length + rdigits.length ≤ result.sizeAllocated) : Room result ldigits rdigits :=
  fun _ => (factors_length_le ldigits rdigits).trans h

theorem room_sums {result : Decimal} {l r a b : List ℕ} (h4 : 4 ≤ l.length)
    (hle : l.length ≤ r.length) (ha : a.length ≤ split l + 1)
    (hb : b.length ≤ max (r.length - split l) (split l) + 1)
    (hsize : 2 + r.length ≤ result.sizeAllocated) : Room result a b := by
  intro hlt
  have h1 := factors_length_le a b
  have h2 := factors_rdigits_length_le a b
  rw [split] at *
  omega

theorem exists_of_short {result : Decimal} {ldigits rdigits : List ℕ} (hl : IsNumber ldigits)
    (hr : IsNumber rdigits) (hsize : ldigits.length + rdigits.length ≤ 0x7f)
    (hroom : Room result ldigits rdigits)
    (hshort : (factors ldigits rdigits).ldigits.length < 4) :
    ∃ new, multsplitDecimalhelper result ldigits rdigits = .ok new ∧
      new.IsProduct (splitExponent ldigits rdigits) (number ldigits * number rdigits) := by
  obtain ⟨hfl, hfr, -, -, hnum⟩ := factors_spec hl hr
  have hlen := factors_length ldigits rdigits
  have hnonneg := factors_exponent_nonneg ldigits rdigits
  have hexp : int16 (factors ldigits rdigits).exponent =
      ((factors ldigits rdigits).exponent.toNat : ℤ) := by
    rw [int16_of_mem (by omega) (by rw [INT16_MAX]; omega)]
    omega
  obtain ⟨new, hnew, hp⟩ := multDecimalhelper_isProduct hfl.digits hfl.leading hfl.ne_nil
    hfr.digits hfr.leading hfr.ne_nil (hroom hshort)
    (show (factors ldigits rdigits).exponent.toNat ≤ INT16_MAX by rw [INT16_MAX]; omega)
  have hsplit : splitExponent ldigits rdigits = (factors ldigits rdigits).exponent.toNat := by
    simp only [splitExponent, if_pos hshort, Nat.add_zero]
  rw [multsplitDecimalhelper, dif_pos hshort, hexp, hnew]
  rw [hnum] at hp
  exact ⟨new, rfl, hsplit ▸ hp⟩

theorem outcome_of_short {result : Decimal} {ldigits rdigits : List ℕ} (hl : IsNumber ldigits)
    (hr : IsNumber rdigits) (hsize : ldigits.length + rdigits.length ≤ 0x7f)
    (hroom : Room result ldigits rdigits)
    (hshort : (factors ldigits rdigits).ldigits.length < 4) :
    Outcome (multsplitDecimalhelper result ldigits rdigits) ldigits rdigits := by
  have hfit : splitFits ldigits rdigits = true := by rw [splitFits, dif_pos hshort]
  refine ⟨fun _ => Or.inl (exists_of_short hl hr hsize hroom hshort), fun hnot => ?_⟩
  rw [hfit] at hnot
  cases hnot

theorem products_outcome (result : Decimal) {m0 m1 m4 : Except Failure Decimal} {f0 f1 f4 : Bool}
    {split exponent d : ℕ} {lh ll rh rl : ℤ} (h : Halves split lh ll rh rl)
    (h0 : (f0 = true ∧ ∃ new e, m0 = .ok new ∧ new.IsProduct e (lh * rh)) ∨
      (f0 = false ∧ m0 = .error .outOfBounds))
    (h1 : (f1 = true ∧ ∃ new e, m1 = .ok new ∧ new.IsProduct e (ll * rl)) ∨
      (f1 = false ∧ m1 = .error .outOfBounds))
    (h4 : (f4 = true ∧ ∃ new e, m4 = .ok new ∧ new.IsProduct e ((lh + ll) * (rh + rl))) ∨
      (f4 = false ∧ m4 = .error .outOfBounds))
    (hb : (lh + ll) * (rh + rl) < base ^ 0x7f) (hd : lh * rh < base ^ d)
    (hsize : d + 2 * split + exponent ≤ 0x7f) :
    ((f0 && f1 && f4 && decide (OffsetFits split lh ll rh rl)) = true →
      (∃ new, (m0.bind fun t0 => m1.bind fun t1 => m4.bind fun t4 =>
          combine result t0 t1 t4 split exponent) = .ok new ∧
        new.IsProduct (exponent + trailingZeros (2 * split) (ll * rl))
          ((lh * base ^ split + ll) * (rh * base ^ split + rl) * base ^ exponent)) ∨
      (d + 2 * split + exponent = 0x7f ∧ exponent + trailingZeros (2 * split) (ll * rl) = 0 ∧
        ∃ e, (m0.bind fun t0 => m1.bind fun t1 => m4.bind fun t4 =>
          combine result t0 t1 t4 split exponent) = .error (.errno e))) ∧
    ((f0 && f1 && f4 && decide (OffsetFits split lh ll rh rl)) = false →
      (m0.bind fun t0 => m1.bind fun t1 => m4.bind fun t4 =>
        combine result t0 t1 t4 split exponent) = .error .outOfBounds) := by
  rcases h0 with ⟨rfl, t0, e0, rfl, hp0⟩ | ⟨rfl, rfl⟩
  · rcases h1 with ⟨rfl, t1, e1, rfl, hp1⟩ | ⟨rfl, rfl⟩
    · rcases h4 with ⟨rfl, t4, e4, rfl, hp4⟩ | ⟨rfl, rfl⟩
      · obtain ⟨z, -, hz⟩ := hp1.exists_zeros
        have hord := hp0.order_le hd
        obtain ⟨hfit, hnot⟩ := combine_spec result h hp0 hp1 hp4 hz hb
          (show t0.operand.order + 2 * split + exponent ≤ 0x7f by omega)
        rw [hz.trailingZeros_eq (h.zeros_lt hz).le, add_comm exponent z]
        simp only [Bool.true_and, decide_eq_true_eq, decide_eq_false_iff_not]
        refine ⟨fun ho => ?_, hnot⟩
        rcases hfit ho with hok | ⟨hord', hz0, herr⟩
        · exact Or.inl hok
        · exact Or.inr ⟨by omega, by omega, herr⟩
      · simp [Except.bind]
    · simp [Except.bind]
  · simp [Except.bind]

/-- What the products of the recursion do that have less than `n` digits. -/
def SplitOutcome (n : ℕ) : Prop :=
  ∀ {l r : List ℕ}, l.length + r.length < n → IsNumber l → IsNumber r →
    ∀ result : Decimal, l.length + r.length ≤ 0x7f → Room result l r →
      Outcome (multsplitDecimalhelper result l r) l r

/-- The three products of a split multiplication: whether they can be split, what becomes of them,
and how they make the result. -/
structure SplitProducts (result : Decimal) (ldigits rdigits l r : List ℕ) (exponent : ℕ)
    (m0 m1 m4 : Except Failure Decimal) (f0 f1 f4 : Bool) : Prop where
  upper : (f0 = true ∧ ∃ new e, m0 = .ok new ∧
      new.IsProduct e (number (l.drop (split l)) * number (r.drop (split l)))) ∨
    (f0 = false ∧ m0 = .error .outOfBounds)
  lower : (f1 = true ∧ ∃ new e, m1 = .ok new ∧
      new.IsProduct e (number (l.take (split l)) * number (r.take (split l)))) ∨
    (f1 = false ∧ m1 = .error .outOfBounds)
  sums : (f4 = true ∧ ∃ new e, m4 = .ok new ∧
      new.IsProduct e ((number (l.drop (split l)) + number (l.take (split l))) *
        (number (r.drop (split l)) + number (r.take (split l))))) ∨
    (f4 = false ∧ m4 = .error .outOfBounds)
  sums_lt : (number (l.drop (split l)) + number (l.take (split l))) *
    (number (r.drop (split l)) + number (r.take (split l))) < base ^ 0x7f
  run : multsplitDecimalhelper result ldigits rdigits =
    m0.bind fun t0 => m1.bind fun t1 => m4.bind fun t4 =>
      combine result t0 t1 t4 (split l) exponent
  fits : splitFits ldigits rdigits = (f0 && f1 && f4 &&
    decide (OffsetFits (split l) (number (l.drop (split l))) (number (l.take (split l)))
      (number (r.drop (split l))) (number (r.take (split l)))))

theorem exists_splitProducts (result : Decimal) {ldigits rdigits l r : List ℕ} {exponent : ℕ}
    (hf : factors ldigits rdigits = ⟨l, r, exponent⟩) (hfl : IsNumber l) (hfr : IsNumber r)
    (hlh : l.head? ≠ some 0) (hrh : r.head? ≠ some 0) (h4 : 4 ≤ l.length)
    (hle : l.length ≤ r.length) (hsize : l.length + r.length ≤ 0x7f)
    (ih : SplitOutcome (l.length + r.length)) :
    ∃ m0 m1 m4 f0 f1 f4, SplitProducts result ldigits rdigits l r exponent m0 m1 m4 f0 f1 f4 := by
  have hs : 0 < split l ∧ split l < l.length := by
    rw [split]
    omega
  have hlu := upper_spec hfl hs.2
  have hru := upper_spec hfr (hs.2.trans_le hle)
  obtain ⟨hll, hlnum⟩ := lower_spec hfl hlh hs.1 hs.2.le
  obtain ⟨hrl, hrnum⟩ := lower_spec hfr hrh hs.1 (hs.2.le.trans hle)
  obtain ⟨hlt0, hlt1, hlt4⟩ := halves_length_lt h4 hle
  have ha := addsplitDigits_length_le (l.drop (split l)) (l.take (skipLeadingZero l (split l)))
  have hb := addsplitDigits_length_le (r.drop (split l)) (r.take (skipLeadingZero r (split l)))
  have hlt4 := hlt4 ha hb
  have hskl := skipLeadingZero_le l (split l)
  have hskr := skipLeadingZero_le r (split l)
  have hlenll : (l.take (skipLeadingZero l (split l))).length = skipLeadingZero l (split l) := by
    rw [List.length_take]
    omega
  have hlenrl : (r.take (skipLeadingZero r (split l))).length = skipLeadingZero r (split l) := by
    rw [List.length_take]
    omega
  have hlenlu : (l.drop (split l)).length = l.length - split l := List.length_drop
  have hlenru : (r.drop (split l)).length = r.length - split l := List.length_drop
  have hllpos := hll.length_pos
  have hsplit : split l ≤ r.length - split l + 1 ∧ l.length - split l ≤ split l ∧
      (l.length < r.length → split l ≤ r.length - split l) := by
    rw [split]
    omega
  -- the temporary results
  obtain ⟨new0, hnew0, hsz0⟩ := exists_newDecimal
    (show 0 < r.length - split l + (l.length - split l) by omega) (by omega)
  obtain ⟨new1, hnew1, hsz1⟩ := exists_newDecimal
    (show 0 < skipLeadingZero l (split l) + skipLeadingZero r (split l) by omega) (by omega)
  obtain ⟨new2, hnew2, hsz2⟩ := exists_newDecimal (show 0 < 1 + split l by omega) (by omega)
  obtain ⟨new3, hnew3, hsz3⟩ := exists_newDecimal
    (show 0 < 1 + if l.length < r.length then r.length - split l else split l by omega)
    (by split_ifs <;> omega)
  obtain ⟨new4, hnew4, hsz4⟩ := exists_newDecimal (show 0 < 2 + r.length by omega) (by omega)
  obtain ⟨hin2, hval2⟩ := addsplit_zero_spec (show
    (addsplitDigits (l.drop (split l)) (l.take (skipLeadingZero l (split l)))).length ≤
      new2.sizeAllocated by omega)
  obtain ⟨hin3, hval3⟩ := addsplit_zero_spec (show
    (addsplitDigits (r.drop (split l)) (r.take (skipLeadingZero r (split l)))).length ≤
      new3.sizeAllocated by
    rw [hsz3]
    split_ifs <;> omega)
  -- the products
  have h0 := (ih hlt0 hlu hru new0 (by omega)
    (room_of_le (show _ ≤ new0.sizeAllocated by omega))).of_lt (by omega)
  have h1 := (ih hlt1 hll hrl new1 (by omega)
    (room_of_le (show _ ≤ new1.sizeAllocated by omega))).of_lt (by omega)
  have h4' := (ih hlt4 (addsplit_isNumber hlu hll) (addsplit_isNumber hru hrl) new4 (by omega)
    (room_sums h4 hle (by omega) (by omega) (show _ ≤ new4.sizeAllocated by omega))).of_lt
      (by omega)
  have hbu := mul_lt_mul'' (number_lt (addsplit_isNumber hlu hll).digits)
    (number_lt (addsplit_isNumber hru hrl).digits) (addsplit_isNumber hlu hll).pos.le
    (addsplit_isNumber hru hrl).pos.le
  rw [← pow_add] at hbu
  have hbu' := hbu.trans_le (pow_le_pow_right₀ (by norm_num [base]) (show _ ≤ 0x7f by omega))
  rw [addsplitDigits_number, addsplitDigits_number, hlnum, hrnum] at hbu' h4'
  rw [hlnum, hrnum] at h1
  refine ⟨_, _, _, _, _, _, h0, h1, h4', hbu', ?_, ?_⟩
  · have hshort : ¬(factors ldigits rdigits).ldigits.length < 4 := by
      rw [hf]
      exact not_lt.mpr h4
    rw [multsplitDecimalhelper, dif_neg hshort]
    simp only [hf, hnew0, hnew1, hnew2, hnew3, hnew4, checked_ok, ok_bind, hin2, hin3, hval2,
      hval3]
  · have hshort : ¬(factors ldigits rdigits).ldigits.length < 4 := by
      rw [hf]
      exact not_lt.mpr h4
    rw [splitFits.eq_def ldigits rdigits, dif_neg hshort]
    simp only [hf, hlnum, hrnum]

/-- **The split multiplication**, by induction on the number of digits. -/
theorem multsplitDecimalhelper_outcome {result : Decimal} {ldigits rdigits : List ℕ}
    (hl : IsNumber ldigits) (hr : IsNumber rdigits)
    (hsize : ldigits.length + rdigits.length ≤ 0x7f) (hroom : Room result ldigits rdigits) :
    Outcome (multsplitDecimalhelper result ldigits rdigits) ldigits rdigits := by
  induction hn : ldigits.length + rdigits.length using Nat.strong_induction_on
    generalizing result ldigits rdigits with
  | _ n ih =>
  subst hn
  by_cases hshort : (factors ldigits rdigits).ldigits.length < 4
  · exact outcome_of_short hl hr hsize hroom hshort
  have hlen := factors_length ldigits rdigits
  have hnonneg := factors_exponent_nonneg ldigits rdigits
  have hle := factors_le ldigits rdigits
  obtain ⟨hfl, hfr, hlh, hrh, hnum⟩ := factors_spec hl hr
  have hexp : splitExponent ldigits rdigits = (factors ldigits rdigits).exponent.toNat +
      trailingZeros (2 * split (factors ldigits rdigits).ldigits)
        (number ((factors ldigits rdigits).ldigits.take (split (factors ldigits rdigits).ldigits)) *
        number ((factors ldigits rdigits).rdigits.take
          (split (factors ldigits rdigits).ldigits))) := by
    simp only [splitExponent, if_neg hshort]
  have hcast := (Int.toNat_of_nonneg hnonneg).symm
  have hf := factors_eq ldigits rdigits
  rw [hcast] at hlen
  rw [Outcome, hexp, ← hnum]
  clear hexp hnum hcast
  generalize (factors ldigits rdigits).exponent.toNat = exponent at *
  generalize (factors ldigits rdigits).ldigits = l at *
  generalize (factors ldigits rdigits).rdigits = r at *
  have h4 := not_lt.mp hshort
  have hhalves := halves_spec hfl hfr hlh hrh h4 hle
  have hs : split l < l.length := by
    rw [split]
    omega
  have hfle : l.length + r.length ≤ ldigits.length + rdigits.length := by omega
  obtain ⟨m0, m1, m4, f0, f1, f4, h⟩ := exists_splitProducts result hf hfl hfr hlh hrh h4 hle
    (by omega) fun hlt hl hr result hsize hroom => ih _ (hlt.trans_le hfle) hl hr hsize hroom rfl
  have hdu := mul_lt_mul'' (number_lt (upper_spec hfl hs).digits)
    (number_lt (upper_spec hfr (hs.trans_le hle)).digits) (number_nonneg _) (number_nonneg _)
  rw [← pow_add, List.length_drop, List.length_drop] at hdu
  have hout := products_outcome result hhalves h.upper h.lower h.sums h.sums_lt hdu
    (show _ + 2 * split l + exponent ≤ 0x7f by omega)
  have hl' := number_take_add_drop (show split l ≤ l.length by omega)
  have hr' := number_take_add_drop (show split l ≤ r.length by omega)
  rw [add_comm, mul_comm] at hl' hr'
  rw [hl', hr'] at hout
  rw [h.run, h.fits]
  refine ⟨fun hfit => ?_, hout.2⟩
  rcases hout.1 hfit with hok | ⟨hd, hz, herr⟩
  · exact Or.inl hok
  · exact Or.inr ⟨by omega, hz, herr⟩

/-! ## `mult_decimal` -/

theorem IsProduct.stored {dec : Decimal} {e : ℕ} {v : ℤ} (h : dec.IsProduct e v) (isNegSign : Bool)
    {exponent : ℤ} (he : -32768 ≤ exponent) :
    ({ dec with
        signAndUsedDigits := dec.signAndUsedDigits ||| if isNegSign then 0x80 else 0
        exponent := int16 (dec.exponent + exponent) } : Decimal).Stored isNegSign (e + exponent)
      (number dec.valid) := by
  have hwf := h.wellFormed
  have h16 : -32768 ≤ int16 (dec.exponent + exponent) := by
    rw [int16]
    omega
  have hdec : ({ dec with exponent := int16 (dec.exponent + exponent) } : Decimal).WellFormed :=
    ⟨hwf.stored, hwf.digits, hwf.leading, h16, int16_le _, hwf.zero_sign⟩
  have hb : dec.signAndUsedDigits ||| (if isNegSign then 0x80 else 0) =
      signAndSize isNegSign dec.sizeDecimal := by
    rw [signAndUsedDigits_eq dec, h.isnegative_eq]
    simp [signAndSize]
  obtain ⟨hnew, hval⟩ := represents_of_sign hdec hb fun h0 => absurd h0 h.sizeDecimal_ne
  have hexp := h.exponent_eq
  refine ⟨number_pos hwf.leading (hwf.valid_ne_nil h.sizeDecimal_ne), ?_, fun hle => ⟨hnew, ?_⟩, ?_⟩
  · rw [← hexp]
  · refine hval.trans ?_
    rw [magnitude]
    dsimp only
    rw [hexp, int16_of_mem (by omega) hle]
    rfl
  · refine hval.trans ?_
    rw [magnitude, ← hexp]
    rfl

/-- Nothing outside of an array is accessed, and if there is a result, then it is well formed, and
its value is `v`. -/
def Faultless (result : Except Failure Decimal) (v : ℚ) : Prop :=
  result ≠ .error .outOfBounds ∧ ∀ new, result = .ok new → new.WellFormed ∧ new.value = v

theorem faultless_of_errno (e : Errno) (v : ℚ) :
    Faultless (.error (.errno e) : Except Failure Decimal) v := by
  constructor
  · intro h
    cases h
  · intro new h
    cases h

theorem value_mul_value (ldec rdec : Decimal) :
    ldec.value * rdec.value =
      (if ldec.isnegativeDecimal ^^ rdec.isnegativeDecimal then -1 else 1) *
        ((number ldec.operand.digits * number rdec.operand.digits : ℤ) *
          (base : ℚ) ^ (ldec.operand.exponent + rdec.operand.exponent)) := by
  rw [value, value, ← operand_value ldec, ← operand_value rdec, Operand.value, Operand.value,
    zpow_add₀ cast_base_ne]
  push_cast
  cases ldec.isnegativeDecimal <;> cases rdec.isnegativeDecimal <;> simp <;> ring

theorem WellFormed.operand_isNumber {dec : Decimal} (h : dec.WellFormed)
    (h0 : dec.sizeDecimal ≠ 0) : IsNumber dec.operand.digits :=
  ⟨h.operand_digits, h.operand_leading, fun hnil => h0 (h.operand_eq_nil.mp hnil)⟩

theorem multDecimal_split_iff (result : Decimal) {ldec rdec : Decimal} (hl : ldec.WellFormed)
    (hr : rdec.WellFormed) (hl0 : ldec.sizeDecimal ≠ 0) (hr0 : rdec.sizeDecimal ≠ 0)
    (hexp : (ldec.operand.exponent + rdec.operand.exponent).natAbs ≤ INT16_MAX)
    (hsize : ldec.operand.digits.length + rdec.operand.digits.length ≤ 0x7f) :
    Faultless (multDecimal result ldec rdec) (ldec.value * rdec.value) ↔
      splitFits ldec.operand.digits rdec.operand.digits = true ∧
        ldec.operand.exponent + rdec.operand.exponent +
          splitExponent ldec.operand.digits rdec.operand.digits ≤ INT16_MAX := by
  have hln := hl.operand_isNumber hl0
  have hrn := hr.operand_isNumber hr0
  obtain ⟨new, hnew⟩ := exists_allocateDecimalhelper result
    (ldec.operand.digits.length + rdec.operand.digits.length) (by have := hln.length_pos; omega)
    hsize
  obtain ⟨hfit, hnot⟩ := multsplitDecimalhelper_outcome hln hrn hsize
    (room_of_le (allocateDecimalhelper_spec hnew))
  rw [multDecimal, if_neg (not_or.mpr ⟨hrn.ne_nil, hln.ne_nil⟩), if_neg (not_lt.mpr hexp), hnew,
    checked_ok, ok_bind, value_mul_value]
  cases hs : splitFits ldec.operand.digits rdec.operand.digits with
  | false =>
    rw [hnot hs]
    refine iff_of_false (fun h => h.1 rfl) (fun h => ?_)
    cases h.1
  | true =>
    rcases hfit hs with ⟨dec, hdec, hp⟩ | ⟨-, hsplit, e, herr⟩
    · rw [hdec]
      have hst := hp.stored (ldec.isnegativeDecimal ^^ rdec.isnegativeDecimal)
        (show -32768 ≤ ldec.operand.exponent + rdec.operand.exponent by
          rw [INT16_MAX] at hexp
          omega)
      have hiff := hst.represents_iff
      have hv : ((number dec.valid : ℤ) : ℚ) * (base : ℚ) ^
          ((splitExponent ldec.operand.digits rdec.operand.digits : ℤ) +
            (ldec.operand.exponent + rdec.operand.exponent)) =
          ((number ldec.operand.digits * number rdec.operand.digits : ℤ) : ℚ) *
            (base : ℚ) ^ (ldec.operand.exponent + rdec.operand.exponent) := by
        rw [← hp.number_eq, zpow_add₀ cast_base_ne, zpow_natCast]
        push_cast
        ring
      rw [hv, add_comm ((splitExponent _ _ : ℕ) : ℤ)] at hiff
      rw [← hiff]
      constructor
      · intro h
        exact ⟨rfl, h.2 _ rfl⟩
      · rintro ⟨-, h⟩
        constructor
        · intro herr
          cases herr
        · intro new hok
          cases hok
          exact h
    · rw [herr, hsplit]
      refine iff_of_true (faultless_of_errno e _) ⟨rfl, ?_⟩
      rw [Nat.cast_zero, add_zero]
      omega

/-- **Multiplication** stays inside of its arrays and returns a well formed decimal with the exact
value, or an error, if and only if one of the operands is zero, or the checks of `mult_decimal`
fail, or the operands can be split and the exponent that the split returns can be added to that of the
operands. -/
theorem multDecimal_faultless_iff {result ldec rdec : Decimal} (hl : ldec.WellFormed)
    (hr : rdec.WellFormed) :
    Faultless (multDecimal result ldec rdec) (ldec.value * rdec.value) ↔
      ldec.sizeDecimal = 0 ∨ rdec.sizeDecimal = 0 ∨
        INT16_MAX < (ldec.operand.exponent + rdec.operand.exponent).natAbs ∨
        0x7f < ldec.operand.digits.length + rdec.operand.digits.length ∨
        (splitFits ldec.operand.digits rdec.operand.digits = true ∧
          ldec.operand.exponent + rdec.operand.exponent +
            splitExponent ldec.operand.digits rdec.operand.digits ≤ INT16_MAX) := by
  by_cases h0 : ldec.sizeDecimal = 0 ∨ rdec.sizeDecimal = 0
  · have hzero : ldec.value * rdec.value = 0 := by
      rw [value, value]
      rcases h0 with h0 | h0 <;> rw [magnitude_eq_zero h0] <;> simp
    have hnil : rdec.operand.digits = [] ∨ ldec.operand.digits = [] := by
      rw [hr.operand_eq_nil, hl.operand_eq_nil]
      exact h0.symm
    refine iff_of_true ?_ (by tauto)
    rw [multDecimal, if_pos hnil, hzero]
    constructor
    · intro h
      cases h
    · intro new h
      cases h
      obtain ⟨hwf, hval⟩ := clearDecimal_represents result false
      exact ⟨hwf, hval.trans (mul_zero _)⟩
  obtain ⟨hl0, hr0⟩ := not_or.mp h0
  have hln := hl.operand_isNumber hl0
  have hrn := hr.operand_isNumber hr0
  by_cases hexp : INT16_MAX < (ldec.operand.exponent + rdec.operand.exponent).natAbs
  · refine iff_of_true ?_ (by tauto)
    rw [multDecimal, if_neg (not_or.mpr ⟨hrn.ne_nil, hln.ne_nil⟩), if_pos hexp]
    exact faultless_of_errno _ _
  by_cases hsize : 0x7f < ldec.operand.digits.length + rdec.operand.digits.length
  · have hres := result.allocated_le
    refine iff_of_true ?_ (by tauto)
    rw [multDecimal, if_neg (not_or.mpr ⟨hrn.ne_nil, hln.ne_nil⟩), if_neg hexp,
      allocateDecimalhelper, if_neg (by omega), dif_pos (Or.inr hsize)]
    exact faultless_of_errno _ _
  rw [multDecimal_split_iff result hl hr hl0 hr0 (not_lt.mp hexp) (not_lt.mp hsize)]
  tauto

/-- `(10^27 + 2) * (10^27 + 5 * 10^8)`: the operands are split, and the product of the lower halves
ends with a zero digit. -/
theorem multDecimal_exact_split :
    (⟨8, 6, 1, [1, 0, 500000002, 0, 0, 1, 0], by decide⟩ : Decimal).WellFormed ∧
      (⟨8, 6, 1, [1, 0, 500000002, 0, 0, 1, 0], by decide⟩ : Decimal).value =
        (⟨4, 4, 0, [2, 0, 0, 1], by decide⟩ : Decimal).value *
          (⟨4, 4, 0, [500000000, 0, 0, 1], by decide⟩ : Decimal).value :=
  ((@multDecimal_faultless_iff ⟨8, 0, 0, [], by decide⟩ _ _ (by decide +kernel)
    (by decide +kernel)).mpr (by decide +kernel)).2 _ (by decide +kernel)

/-- The same product with the largest exponent for the left operand: that of the result is
`INT16_MAX + 1`, which is stored as `INT16_MIN`. -/
theorem multDecimal_not_exact : ¬ ∀ result ldec rdec : Decimal, ldec.WellFormed → rdec.WellFormed →
    ∀ new, multDecimal result ldec rdec = .ok new →
      new.WellFormed ∧ new.value = ldec.value * rdec.value := by
  intro h
  have hl : (⟨4, 4, 32767, [2, 0, 0, 1], by decide⟩ : Decimal).WellFormed := by decide +kernel
  have hr : (⟨4, 4, 0, [500000000, 0, 0, 1], by decide⟩ : Decimal).WellFormed := by decide +kernel
  have hok : multDecimal ⟨8, 0, 0, [], by decide⟩ ⟨4, 4, 32767, [2, 0, 0, 1], by decide⟩
      ⟨4, 4, 0, [500000000, 0, 0, 1], by decide⟩ =
        .ok ⟨8, 6, -32768, [1, 0, 500000002, 0, 0, 1, 0], by decide⟩ := by decide +kernel
  have hno : multDecimal ⟨8, 0, 0, [], by decide⟩ ⟨4, 4, 32767, [2, 0, 0, 1], by decide⟩
      ⟨4, 4, 0, [500000000, 0, 0, 1], by decide⟩ ≠ .error .outOfBounds := by
    rw [hok]
    intro herr
    cases herr
  have hfits := (multDecimal_split_iff ⟨8, 0, 0, [], by decide⟩ hl hr (by decide +kernel)
    (by decide +kernel) (by decide +kernel) (by decide +kernel)).mp ⟨hno, h _ _ _ hl hr⟩
  exact absurd hfits (by decide +kernel)

/-- Lower halves `2^38` and `5^38`, whose product has four zero digits at its end: the offset of the
last addition is `-1`. -/
example : multDecimal ⟨10, 0, 0, [], by decide⟩ ⟨5, 5, 0, [877906944, 274, 0, 1, 1], by decide⟩
    ⟨5, 5, 0, [166015625, 709171295, 363797880, 1, 1], by decide⟩ = .error .outOfBounds := by
  decide +kernel

end Decimal
end CKern
