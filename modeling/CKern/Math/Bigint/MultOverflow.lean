import CKern.Math.Bigint.Mult

/-!
# `math/int/bigint.c`: the overflow of `mult_bigint`

* `subBigint_ok`, `addBigint_outer`: which sizes the sums and differences inside
  `multsplit_biginthelper` ask for.
* `multsplit_upto_sum`: everything in front of the sum of the outer products succeeds.
* `multsplit_outcome`: that sum has room for a carry, which may be one digit too many.
* `multBigint_overflow_iff`: when `mult_bigint` returns `EOVERFLOW`, although the product has a size
  and an exponent that an object can hold.
-/

namespace CKern
namespace Bigint

open Positional

/-! ## The sizes that are asked for -/

theorem ok_bind {α β : Type} (a : α) (f : α → Except Errno β) : (Except.ok a).bind f = f a := rfl

theorem allocateBigint_ok {n : ℕ} (h : n ≤ INT16_MAX) :
    ∃ new, allocateBigint none n = .ok new ∧ new.allocatedDigits ≠ 0 := by
  rw [allocateBigint, dif_neg (not_lt.mpr (max_le h (by norm_num)))]
  exact ⟨_, rfl, (lt_of_lt_of_le (by norm_num) (le_max_right n 4)).ne'⟩

theorem reserve_ok {big : Bigint} {size : ℕ} (hbig : big.allocatedDigits ≠ 0)
    (h : size ≤ INT16_MAX) : ∃ new, reserve big size = .ok new ∧ new.allocatedDigits ≠ 0 := by
  rw [reserve]
  split_ifs
  · rw [allocateBigint, dif_neg (not_lt.mpr (max_le h (by norm_num)))]
    dsimp only
    rw [if_neg hbig]
    exact ⟨_, rfl, (lt_of_lt_of_le (by norm_num) (le_max_right size 4)).ne'⟩
  · exact ⟨big, rfl, hbig⟩

theorem reserve_overflow {big : Bigint} {size : ℕ} (h : INT16_MAX < size) :
    reserve big size = .error .EOVERFLOW := by
  rw [reserve, if_pos (big.allocated_le.trans_lt h), allocateBigint,
    dif_pos (h.trans_le (le_max_left size 4))]

theorem IsProduct.order_le {big : Bigint} {e n : ℕ} {v : ℤ} (h : big.IsProduct e v)
    (hv : v < base ^ n) : big.operand.order ≤ n := by
  have hpow := Operand.pow_order_le h.wellFormed.operand_leading h.operand_ne_nil
  rw [operand_value, h.magnitude_eq] at hpow
  have := pow_lt_pow_base_iff.mp (hpow.trans_lt hv)
  omega

theorem subOrdered_ok {result : Bigint} (isNegSign : Bool) {l r : Operand}
    (hres : result.allocatedDigits ≠ 0)
    (hsize : l.digits.length + (l.exponent - r.exponent) ≤ INT16_MAX) :
    ∃ new, subOrdered result isNegSign l r = .ok new ∧ new.allocatedDigits ≠ 0 := by
  obtain ⟨big, hbig, hbig0⟩ := reserve_ok hres hsize
  rw [subOrdered, hbig]
  exact ⟨_, rfl, hbig0⟩

/-- **A difference of products** needs no digit more than they have. -/
theorem subBigint_ok {result lbig rbig : Bigint} {e e' n : ℕ} {v v' : ℤ}
    (hres : result.allocatedDigits ≠ 0) (hl : lbig.IsProduct e v) (hr : rbig.IsProduct e' v')
    (hv : v < base ^ n) (hv' : v' < base ^ n) (hn : n ≤ INT16_MAX) :
    ∃ new, subBigint result lbig rbig = .ok new ∧ new.allocatedDigits ≠ 0 := by
  have hlo := hl.order_le hv
  have hro := hr.order_le hv'
  have hmax : INT16_MAX ≤ UINT16_MAX := by norm_num
  rw [Operand.order] at hlo hro
  rw [subBigint, if_pos (hl.isnegative_eq.trans hr.isnegative_eq.symm), subBiginthelper,
    if_neg (by omega), if_neg hr.operand_ne_nil, if_neg hl.operand_ne_nil]
  split_ifs
  · split
    · refine ⟨_, rfl, ?_⟩
      rw [setPu32Bigint, if_pos rfl]
      exact hres
    · split_ifs
      · refine subOrdered_ok _ hres ?_
        rw [Operand.take, Operand.take, List.length_take]
        dsimp only
        omega
      · refine subOrdered_ok _ hres ?_
        rw [Operand.take, Operand.take, List.length_take]
        dsimp only
        omega
  · exact subOrdered_ok _ hres (by omega)
  · exact subOrdered_ok _ hres (by omega)

/-- **A sum of products** has room for a carry. -/
theorem addBigint_outcome (result : Bigint) {lbig rbig : Bigint} {e e' : ℕ} {v v' : ℤ}
    (hl : lbig.IsProduct e v) (hr : rbig.IsProduct e' v')
    (horder : rbig.operand.order ≤ lbig.operand.order)
    (hexp : rbig.operand.exponent ≤ lbig.operand.exponent)
    (hmax : rbig.operand.exponent ≤ UINT16_MAX) :
    (lbig.operand.order + 1 ≤ INT16_MAX + rbig.operand.exponent → result.allocatedDigits ≠ 0 →
      ∃ new, addBigint result lbig rbig = .ok new ∧ new.allocatedDigits ≠ 0) ∧
    (INT16_MAX + rbig.operand.exponent < lbig.operand.order + 1 →
      addBigint result lbig rbig = .error .EOVERFLOW) := by
  have hsum : addBigint result lbig rbig =
      addOrdered result lbig.isnegative lbig.operand rbig.operand := by
    rw [addBigint, if_pos (hl.isnegative_eq.trans hr.isnegative_eq.symm), addBiginthelper,
      if_neg (by omega), if_neg hr.operand_ne_nil, if_neg hl.operand_ne_nil,
      if_neg (not_lt.mpr horder)]
  rw [hsum, addOrdered, Operand.order]
  constructor
  · intro hsize hres
    obtain ⟨big, hbig, hbig0⟩ := reserve_ok hres
      (show lbig.operand.digits.length + 1 + (lbig.operand.exponent - rbig.operand.exponent) ≤
        INT16_MAX by omega)
    rw [hbig]
    exact ⟨_, rfl, hbig0⟩
  · intro hsize
    rw [reserve_overflow (by omega)]
    rfl

/-! ## The split -/

/-- The number of digits of both halves of the shorter operand: `split`. -/
def splitOf (ldigits rdigits : List UInt32) : ℕ := min ldigits.length rdigits.length / 2

/-- The sum of the outer products has one digit too many: both operands are split, they have
`INT16_MAX` digits together, the product of their upper parts has all its digits, and the product of
their lowest digits has no zero at its end. -/
def SumOverflows (ldigits rdigits : List UInt32) : Prop :=
  48 < ldigits.length ∧ 48 < rdigits.length ∧ ldigits.length + rdigits.length = INT16_MAX ∧
    base ^ (INT16_MAX - 2 * splitOf ldigits rdigits - 1) ≤
      number (ldigits.drop (splitOf ldigits rdigits)) *
        number (rdigits.drop (splitOf ldigits rdigits)) ∧
    ¬base ∣ lowest ldigits * lowest rdigits

instance (ldigits rdigits : List UInt32) : Decidable (SumOverflows ldigits rdigits) :=
  inferInstanceAs (Decidable (_ ∧ _ ∧ _ ∧ _ ∧ _))

theorem sumOverflows_comm (ldigits rdigits : List UInt32) :
    SumOverflows ldigits rdigits ↔ SumOverflows rdigits ldigits := by
  have h : ∀ xs ys : List UInt32, SumOverflows xs ys → SumOverflows ys xs := by
    rintro xs ys ⟨h1, h2, h3, h4, h5⟩
    have hsplit : splitOf ys xs = splitOf xs ys := by rw [splitOf, splitOf, min_comm]
    refine ⟨h2, h1, by omega, ?_, by rwa [mul_comm]⟩
    rw [hsplit, mul_comm (number _)]
    exact h4
  exact ⟨h _ _, h _ _⟩

/-- What all products of the recursion do that have less digits than `n`. -/
def SplitSucceeds (n : ℕ) : Prop :=
  ∀ {ldigits rdigits : List UInt32}, ldigits.length + rdigits.length < n →
    ldigits.length + rdigits.length < INT16_MAX → Splittable ldigits rdigits →
      ∀ result : Bigint, result.allocatedDigits ≠ 0 →
        ∃ new, multsplitBiginthelper result ldigits rdigits = .ok new ∧ new.allocatedDigits ≠ 0

/-- The end of `multsplit_biginthelper`: `t4 * X` is added to the outer products. -/
def addMixed (t4 : Bigint) (split exponent : ℕ) (result : Bigint) : Bigint :=
  let offset := uint16 (t4.exponent + split - result.exponent)
  let result := addsplitBiginthelper result offset (result.valid.drop offset) t4.valid
  { result with exponent := uint16 (result.exponent + exponent : ℕ) }

theorem addMixed_allocatedDigits (t4 : Bigint) (split exponent : ℕ) (result : Bigint) :
    (addMixed t4 split exponent result).allocatedDigits = result.allocatedDigits := by
  rw [addMixed, addsplitBiginthelper]

theorem multBiginthelper_allocatedDigits (big : Bigint) (ldigits rdigits : List UInt32)
    (exponent : ℕ) :
    (multBiginthelper big ldigits rdigits exponent).allocatedDigits = big.allocatedDigits := by
  rw [multBiginthelper, assign]

/-- The outer products `t0` and `t1`. -/
structure Outer (l r : List UInt32) (split : ℕ) (t0 t1 : Bigint) : Prop where
  upper : ∃ e, e + 2 * split ≤ UINT16_MAX ∧
    t0.IsProduct e (number (l.drop split) * number (r.drop split))
  lower : ∃ e, t1.IsProduct e (number (l.take (skipLeadingZero l split)) *
    number (r.take (skipLeadingZero r split)))

theorem pow_le_pow_base {m n : ℕ} (h : m ≤ n) : base ^ m ≤ base ^ n :=
  pow_le_pow_right₀ (by rw [base_eq]; norm_num) h

section Split

variable {l r : List UInt32} {split : ℕ} (h : Splittable l r) (hlh : l.head? ≠ some 0)
  (hrh : r.head? ≠ some 0) (hs : 24 ≤ split) (hsl2 : 2 * split ≤ l.length)
  (hsr2 : 2 * split ≤ r.length) (ih : SplitSucceeds (l.length + r.length))

include h hlh hrh hs hsl2 hsr2 ih

theorem outer_products :
    ∃ new0 t0 new1 t1,
      allocateBigint none (l.length - split + (r.length - split)) = .ok new0 ∧
      multsplitBiginthelper new0 (l.drop split) (r.drop split) = .ok t0 ∧
      allocateBigint none (skipLeadingZero l split + skipLeadingZero r split) = .ok new1 ∧
      multsplitBiginthelper new1 (l.take (skipLeadingZero l split))
        (r.take (skipLeadingZero r split)) = .ok t1 ∧
      Outer l r split t0 t1 := by
  have hmax := h.length_le
  have hsl : split < l.length := by omega
  have hsr : split < r.length := by omega
  have hlsp := skipLeadingZero_le l split
  have hrsp := skipLeadingZero_le r split
  have hl0len := List.length_drop (i := split) (l := l)
  have hr0len := List.length_drop (i := split) (l := r)
  have hl1len := List.length_take_le (skipLeadingZero l split) l
  have hr1len := List.length_take_le (skipLeadingZero r split) r
  obtain ⟨hl0, hl0ne⟩ := upper_half h.leading_l hsl
  obtain ⟨hr0, hr0ne⟩ := upper_half h.leading_r hsr
  obtain ⟨hl1, hl1ne, -, -⟩ := lower_half hlh (by omega) hsl.le
  obtain ⟨hr1, hr1ne, -, -⟩ := lower_half hrh (by omega) hsr.le
  have hupper : Splittable (l.drop split) (r.drop split) := ⟨hl0, hr0, hl0ne, hr0ne, by omega⟩
  have hlower : Splittable (l.take (skipLeadingZero l split))
      (r.take (skipLeadingZero r split)) := ⟨hl1, hr1, hl1ne, hr1ne, by omega⟩
  obtain ⟨new0, ha0, hnew0⟩ :=
    allocateBigint_ok (show l.length - split + (r.length - split) ≤ INT16_MAX by omega)
  obtain ⟨t0, ht0, -⟩ := ih (by omega) (by omega) hupper new0 hnew0
  obtain ⟨new1, ha1, hnew1⟩ := allocateBigint_ok
    (show skipLeadingZero l split + skipLeadingZero r split ≤ INT16_MAX by omega)
  obtain ⟨t1, ht1, -⟩ := ih (by omega) (by omega) hlower new1 hnew1
  refine ⟨new0, t0, new1, t1, ha0, ht0, ha1, ht1, ⟨_, ?_,
    multsplitBiginthelper_isProduct _ le_rfl hupper new0 t0 ht0⟩, _,
    multsplitBiginthelper_isProduct _ le_rfl hlower new1 t1 ht1⟩
  have he := splitExponent_le (l.drop split) (r.drop split)
  exact le_trans (by omega) (by norm_num : 2 * INT16_MAX ≤ UINT16_MAX)

theorem mixed_product :
    ∃ new2 new3 new4 t4 e,
      allocateBigint none (l.length - split + 1) = .ok new2 ∧
      allocateBigint none (r.length - split + 1) = .ok new3 ∧
      allocateBigint none
        ((addsplitBiginthelper new2 0 (l.drop split) (l.take (skipLeadingZero l split))).nrdigits +
          (addsplitBiginthelper new3 0 (r.drop split)
            (r.take (skipLeadingZero r split))).nrdigits) = .ok new4 ∧
      multsplitBiginthelper new4
        (addsplitBiginthelper new2 0 (l.drop split) (l.take (skipLeadingZero l split))).valid
        (addsplitBiginthelper new3 0 (r.drop split) (r.take (skipLeadingZero r split))).valid =
          .ok t4 ∧
      t4.allocatedDigits ≠ 0 ∧
      t4.IsProduct e ((number (l.drop split) + number (l.take (skipLeadingZero l split))) *
        (number (r.drop split) + number (r.take (skipLeadingZero r split)))) ∧
      (number (l.drop split) + number (l.take (skipLeadingZero l split))) *
        (number (r.drop split) + number (r.take (skipLeadingZero r split))) <
          base ^ (l.length + r.length) := by
  have hmax := h.length_le
  have hsl : split < l.length := by omega
  have hsr : split < r.length := by omega
  have hlsp := skipLeadingZero_le l split
  have hrsp := skipLeadingZero_le r split
  have hl0len := List.length_drop (i := split) (l := l)
  have hr0len := List.length_drop (i := split) (l := r)
  have hl1len := List.length_take (i := skipLeadingZero l split) (l := l)
  have hr1len := List.length_take (i := skipLeadingZero r split) (l := r)
  obtain ⟨hl1, hl1ne, -, -⟩ := lower_half hlh (by omega) hsl.le
  obtain ⟨hr1, hr1ne, -, -⟩ := lower_half hrh (by omega) hsr.le
  obtain ⟨new2, ha2, -⟩ := allocateBigint_ok (show l.length - split + 1 ≤ INT16_MAX by omega)
  obtain ⟨new3, ha3, -⟩ := allocateBigint_ok (show r.length - split + 1 ≤ INT16_MAX by omega)
  obtain ⟨hl2, hl2ne, hl2len, hl2n⟩ :=
    halves_sum ha2 (by omega) (upper_half h.leading_l hsl).1 hl1 hl1ne
  obtain ⟨hr2, hr2ne, hr2len, hr2n⟩ :=
    halves_sum ha3 (by omega) (upper_half h.leading_r hsr).1 hr1 hr1ne
  have hl2le := addsplit_valid_length_le new2 (l.drop split) (l.take (skipLeadingZero l split))
  have hr2le := addsplit_valid_length_le new3 (r.drop split) (r.take (skipLeadingZero r split))
  generalize ht2 : addsplitBiginthelper new2 0 (l.drop split)
    (l.take (skipLeadingZero l split)) = t2 at hl2 hl2ne hl2len hl2n hl2le
  generalize ht3 : addsplitBiginthelper new3 0 (r.drop split)
    (r.take (skipLeadingZero r split)) = t3 at hr2 hr2ne hr2len hr2n hr2le
  have hl2le' : t2.valid.length ≤ l.length - split + 1 := by omega
  have hr2le' : t3.valid.length ≤ r.length - split + 1 := by omega
  have hlen : t2.valid.length + t3.valid.length + 48 ≤ l.length + r.length + 2 := by omega
  clear hl2le hr2le hl2le' hr2le' hl0len hr0len hl1len hr1len hlsp hrsp
  obtain ⟨new4, ha4, hnew4⟩ := allocateBigint_ok
    (show t2.nrdigits + t3.nrdigits ≤ INT16_MAX by omega)
  have hmixed : Splittable t2.valid t3.valid := ⟨hl2, hr2, hl2ne, hr2ne, by omega⟩
  obtain ⟨t4, ht4, halloc4⟩ := ih (by omega) (by omega) hmixed new4 hnew4
  have h4 := multsplitBiginthelper_isProduct _ le_rfl hmixed new4 t4 ht4
  have hlt := (number_mul_lt t2.valid t3.valid).trans_le
    (pow_le_pow_base (show _ ≤ l.length + r.length by omega))
  rw [hl2n, hr2n] at h4 hlt
  refine ⟨new2, new3, new4, t4, _, ha2, ha3, ?_, ?_, halloc4, h4, hlt⟩
  · rw [ht2, ht3, ha4]
  · rw [ht2, ht3, ht4]

omit ih in
theorem mixed_differences {result t0 t1 t4 : Bigint} {e : ℕ} (hres : result.allocatedDigits ≠ 0)
    (halloc4 : t4.allocatedDigits ≠ 0) (houter : Outer l r split t0 t1)
    (h4 : t4.IsProduct e ((number (l.drop split) + number (l.take (skipLeadingZero l split))) *
      (number (r.drop split) + number (r.take (skipLeadingZero r split)))))
    (hlt4 : (number (l.drop split) + number (l.take (skipLeadingZero l split))) *
      (number (r.drop split) + number (r.take (skipLeadingZero r split))) <
        base ^ (l.length + r.length)) :
    ∃ a b, subBigint result t4 t0 = .ok a ∧ subBigint t4 a t1 = .ok b ∧ a.allocatedDigits ≠ 0 := by
  have hsl : split < l.length := by omega
  have hsr : split < r.length := by omega
  obtain ⟨e0, -, h0⟩ := houter.upper
  obtain ⟨e1, h1⟩ := houter.lower
  obtain ⟨hl0, hl0ne⟩ := upper_half h.leading_l hsl
  obtain ⟨hr0, hr0ne⟩ := upper_half h.leading_r hsr
  obtain ⟨hl1, hl1ne, -, -⟩ := lower_half hlh (by omega) hsl.le
  obtain ⟨hr1, hr1ne, -, -⟩ := lower_half hrh (by omega) hsr.le
  have hx0 := number_pos hl0 hl0ne
  have hy0 := number_pos hr0 hr0ne
  have hx1 := number_pos hl1 hl1ne
  have hy1 := number_pos hr1 hr1ne
  set x0 := number (l.drop split)
  set y0 := number (r.drop split)
  set x1 := number (l.take (skipLeadingZero l split))
  set y1 := number (r.take (skipLeadingZero r split))
  have hsum : (x0 + x1) * (y0 + y1) = x0 * y0 + x1 * y1 + (x0 * y1 + x1 * y0) := by ring
  have h00 := mul_pos hx0 hy0
  have h11 := mul_pos hx1 hy1
  have h01 := add_pos (mul_pos hx0 hy1) (mul_pos hx1 hy0)
  obtain ⟨a, hsuba, halloca⟩ := subBigint_ok hres h4 h0 hlt4 (by linarith) h.length_le
  obtain ⟨hawf, hav⟩ := subBigint_spec h4.wellFormed h0.wellFormed hsuba
  rw [h4.value_eq, h0.value_eq] at hav
  have hapos : 0 < a.value := by linarith
  obtain ⟨b, hsubb, -⟩ := subBigint_ok halloc4 (isProduct_of_value_pos hawf hapos) h1
    (show _ < base ^ (l.length + r.length) by linarith) (by linarith) h.length_le
  exact ⟨a, b, hsuba, hsubb, halloca⟩

end Split

/-- **Everything in front of the sum of the outer products succeeds.** -/
theorem multsplit_upto_sum {ldigits rdigits : List UInt32} (h : Splittable ldigits rdigits)
    (h48 : 48 < (factors ldigits rdigits).ldigits.length)
    (ih : SplitSucceeds (ldigits.length + rdigits.length)) {result : Bigint}
    (hres : result.allocatedDigits ≠ 0) :
    ∃ a t0 t1 t4, a.allocatedDigits ≠ 0 ∧
      Outer (factors ldigits rdigits).ldigits (factors ldigits rdigits).rdigits
        ((factors ldigits rdigits).ldigits.length / 2) t0 t1 ∧
      multsplitBiginthelper result ldigits rdigits =
        (addBigint a
          { t0 with exponent :=
              uint16 (t0.exponent + 2 * ((factors ldigits rdigits).ldigits.length / 2) : ℕ) }
          t1).bind fun c => .ok (addMixed t4 ((factors ldigits rdigits).ldigits.length / 2)
              (factors ldigits rdigits).exponent c) := by
  have hlen := factors_length ldigits rdigits
  have hle := factors_le ldigits rdigits
  obtain ⟨hf, hlh, hrh, -⟩ := factors_spec h
  rw [multsplitBiginthelper]
  dsimp only
  rw [dif_neg (not_le.mpr h48)]
  have hs : 24 ≤ (factors ldigits rdigits).ldigits.length / 2 := by omega
  have hsl : 2 * ((factors ldigits rdigits).ldigits.length / 2) ≤
    (factors ldigits rdigits).ldigits.length := by omega
  have ih' : SplitSucceeds
      ((factors ldigits rdigits).ldigits.length + (factors ldigits rdigits).rdigits.length) :=
    fun hlt => ih (by omega)
  obtain ⟨new0, t0, new1, t1, ha0, ht0, ha1, ht1, houter⟩ :=
    outer_products hf hlh hrh hs hsl (hsl.trans hle) ih'
  obtain ⟨new2, new3, new4, t4, e, ha2, ha3, ha4, ht4, halloc4, h4, hlt4⟩ :=
    mixed_product hf hlh hrh hs hsl (hsl.trans hle) ih'
  obtain ⟨a, b, hsuba, hsubb, halloca⟩ :=
    mixed_differences hf hlh hrh hs hsl (hsl.trans hle) hres halloc4 houter h4 hlt4
  refine ⟨a, t0, t1, b, halloca, houter, ?_⟩
  rw [ha0, ok_bind, ht0, ok_bind, ha1, ok_bind, ht1, ok_bind, ha2, ok_bind, ha3, ok_bind, ha4,
    ok_bind, ht4, ok_bind, hsuba, ok_bind, hsubb, ok_bind]
  rfl

theorem Outer.order {l r : List UInt32} {split k : ℕ} {t0 : Bigint} {e : ℕ}
    (h : Splittable l r) (hsl : split < l.length) (hsr : split < r.length) (hk : k = 2 * split)
    (he : e + k ≤ UINT16_MAX)
    (h0 : t0.IsProduct e (number (l.drop split) * number (r.drop split))) :
    (({ t0 with exponent := e + k } : Bigint).operand.order = l.length + r.length ∧
        base ^ (l.length + r.length - k - 1) ≤ number (l.drop split) * number (r.drop split)) ∨
      (({ t0 with exponent := e + k } : Bigint).operand.order + 1 = l.length + r.length ∧
        number (l.drop split) * number (r.drop split) < base ^ (l.length + r.length - k - 1)) := by
  have hshift := h0.shift he
  obtain ⟨hl0, hl0ne⟩ := upper_half h.leading_l hsl
  obtain ⟨hr0, hr0ne⟩ := upper_half h.leading_r hsr
  have hlow := pow_le_number_mul hl0 hl0ne hr0 hr0ne
  have hlt := number_mul_lt (l.drop split) (r.drop split)
  rw [List.length_drop, List.length_drop] at hlow hlt
  set v := number (l.drop split) * number (r.drop split)
  set o := ({ t0 with exponent := e + k } : Bigint).operand.order
  have hpow := base_pow_pos k
  -- the order is that of the value
  have hval : ({ t0 with exponent := e + k } : Bigint).operand.value = v * base ^ k := by
    rw [operand_value]
    exact hshift.magnitude_eq
  have hle : base ^ (o - 1) ≤ v * base ^ k :=
    hval ▸ Operand.pow_order_le hshift.wellFormed.operand_leading hshift.operand_ne_nil
  have hge : v * base ^ k < base ^ o := hval ▸ Operand.value_lt_pow_order _
  have hscale : ∀ n, base ^ n ≤ v ↔ n + k < o := by
    intro n
    constructor
    · intro hn
      refine pow_lt_pow_base_iff.mp (lt_of_le_of_lt ?_ hge)
      rw [pow_add]
      exact mul_le_mul_of_nonneg_right hn hpow.le
    · intro hn
      refine le_of_mul_le_mul_right (le_trans ?_ hle) hpow
      rw [← pow_add]
      exact pow_le_pow_right₀ (by rw [base_eq]; norm_num) (by omega)
  have hupper : o ≤ l.length + r.length := by
    have hnot := mt (hscale (l.length - split + (r.length - split))).mpr (not_le.mpr hlt)
    omega
  have hlower := (hscale _).mp hlow
  rcases Nat.lt_or_ge o (l.length + r.length) with hlt' | hge'
  · exact Or.inr ⟨by omega, not_le.mp (mt (hscale _).mp (by omega))⟩
  · exact Or.inl ⟨le_antisymm hupper hge', (hscale _).mpr (by omega)⟩

/-- **The sum of the outer products** fits, or is one digit too long. -/
theorem Outer.sum {l r : List UInt32} {t0 t1 a : Bigint} (h : Splittable l r)
    (hlh : l.head? ≠ some 0) (hrh : r.head? ≠ some 0) (hle : l.length ≤ r.length)
    (h48 : 48 < l.length) (houter : Outer l r (l.length / 2) t0 t1) :
    let sum := addBigint a
      { t0 with exponent := uint16 (t0.exponent + 2 * (l.length / 2) : ℕ) } t1
    (¬SumOverflows l r → a.allocatedDigits ≠ 0 → ∃ c, sum = .ok c ∧ c.allocatedDigits ≠ 0) ∧
      (SumOverflows l r → sum = .error .EOVERFLOW) := by
  obtain ⟨e, he, h0⟩ := houter.upper
  obtain ⟨e1, h1⟩ := houter.lower
  have hmax := h.length_le
  have hsplit : splitOf l r = l.length / 2 := by rw [splitOf, min_eq_left hle]
  have hsl : l.length / 2 < l.length := by omega
  have hsr : l.length / 2 < r.length := by omega
  obtain ⟨-, hl1ne, hl1h, -⟩ := lower_half hlh (by omega) hsl.le
  obtain ⟨-, hr1ne, hr1h, -⟩ := lower_half hrh (by omega) hsr.le
  have hz := operand_exponent_of_mul h1.operand_ne_nil hl1h hl1ne hr1h hr1ne h1.magnitude_eq
  have hzeros : productZeros (l.take (skipLeadingZero l (l.length / 2)))
      (r.take (skipLeadingZero r (l.length / 2))) = productZeros l r := by
    rw [productZeros, productZeros, lowest_take hl1ne, lowest_take hr1ne]
  rw [hzeros] at hz
  have hz1 := productZeros_le l r
  have hlsp := skipLeadingZero_le l (l.length / 2)
  have hrsp := skipLeadingZero_le r (l.length / 2)
  have horder1 : t1.operand.order ≤ 2 * (l.length / 2) := by
    have hlt := number_mul_lt (l.take (skipLeadingZero l (l.length / 2)))
      (r.take (skipLeadingZero r (l.length / 2)))
    have := h1.order_le hlt
    rw [List.length_take, List.length_take] at this
    omega
  have hexp : e + 2 * (l.length / 2) ≤
      ({ t0 with exponent := e + 2 * (l.length / 2) } : Bigint).operand.exponent :=
    Operand.le_skipTrailingZero_exponent _ _
  have horder := Outer.order h hsl hsr rfl he h0
  dsimp only
  rw [h0.exponent_eq, uint16_of_le he]
  obtain ⟨hok, hover⟩ := addBigint_outcome a (h0.shift he) h1 (by omega) (by omega)
    (hz.trans_le (hz1.trans (by norm_num)))
  rw [hz] at hok hover
  constructor
  · intro hnot halloc
    refine hok ?_ halloc
    rcases horder with ⟨ho, hfull⟩ | ⟨ho, -⟩
    · by_contra hsize
      have hdigits : l.length + r.length = INT16_MAX := by omega
      refine hnot ⟨h48, by omega, hdigits, ?_, fun hdvd => ?_⟩
      · rwa [hsplit, ← hdigits]
      · rw [productZeros, if_pos hdvd] at hsize
        omega
    · omega
  · rintro ⟨-, -, hdigits, hfull, hlow⟩
    refine hover ?_
    rw [hsplit, ← hdigits] at hfull
    rw [productZeros, if_neg hlow]
    rcases horder with ⟨ho, -⟩ | ⟨-, hnot⟩
    · omega
    · exact absurd hfull (not_le.mpr hnot)

/-- **The split multiplication succeeds** unless the sum of the outer products is too long. -/
theorem multsplit_outcome {ldigits rdigits : List UInt32} (h : Splittable ldigits rdigits)
    (ih : SplitSucceeds (ldigits.length + rdigits.length)) {result : Bigint}
    (hres : result.allocatedDigits ≠ 0) :
    (¬SumOverflows (factors ldigits rdigits).ldigits (factors ldigits rdigits).rdigits →
      ∃ new, multsplitBiginthelper result ldigits rdigits = .ok new ∧ new.allocatedDigits ≠ 0) ∧
    (SumOverflows (factors ldigits rdigits).ldigits (factors ldigits rdigits).rdigits →
      multsplitBiginthelper result ldigits rdigits = .error .EOVERFLOW) := by
  obtain ⟨hf, hlh, hrh, -⟩ := factors_spec h
  rcases Nat.lt_or_ge 48 (factors ldigits rdigits).ldigits.length with h48 | h48
  · obtain ⟨a, t0, t1, t4, halloc, houter, heq⟩ := multsplit_upto_sum h h48 ih hres
    obtain ⟨hok, hover⟩ := houter.sum (a := a) hf hlh hrh (factors_le _ _) h48
    rw [heq]
    constructor
    · intro hnot
      obtain ⟨c, hc, hc0⟩ := hok hnot halloc
      rw [hc, ok_bind]
      exact ⟨_, rfl, (addMixed_allocatedDigits _ _ _ c).trans_ne hc0⟩
    · intro hsum
      rw [hover hsum]
      rfl
  · constructor
    · intro _
      rw [multsplitBiginthelper]
      dsimp only
      rw [dif_pos h48]
      exact ⟨_, rfl, (multBiginthelper_allocatedDigits result _ _ _).trans_ne hres⟩
    · intro hsum
      exact absurd hsum.1 (not_lt.mpr h48)

theorem splitSucceeds (n : ℕ) : SplitSucceeds n := by
  induction n with
  | zero => exact fun hn => absurd hn (Nat.not_lt_zero _)
  | succ n ih =>
    intro ldigits rdigits hn hmax h result hres
    have hsmall : SplitSucceeds (ldigits.length + rdigits.length) := fun hlt => ih (by omega)
    refine (multsplit_outcome h hsmall hres).1 fun hsum => ?_
    have hlen := factors_length ldigits rdigits
    have := hsum.2.2.1
    omega

/-! ## `mult_bigint` -/

theorem sumOverflows_factors {ldigits rdigits : List UInt32} (hl : ldigits.head? ≠ some 0)
    (hr : rdigits.head? ≠ some 0) :
    SumOverflows (factors ldigits rdigits).ldigits (factors ldigits rdigits).rdigits ↔
      SumOverflows ldigits rdigits := by
  simp only [factors, skipTrailingZero_of_head hl, skipTrailingZero_of_head hr, shorter, longer]
  split_ifs
  · exact sumOverflows_comm _ _
  · rfl

theorem multBigint_outcome {result lbig rbig : Bigint} (hl : lbig.WellFormed)
    (hr : rbig.WellFormed) (hl0 : lbig.value ≠ 0) (hr0 : rbig.value ≠ 0)
    (hlen : lbig.operand.digits.length + rbig.operand.digits.length ≤ INT16_MAX)
    (hexp : lbig.operand.exponent + rbig.operand.exponent ≤ UINT16_MAX) :
    (result.allocatedDigits ≠ 0 ∧ SumOverflows lbig.operand.digits rbig.operand.digits →
      multBigint result lbig rbig = .error .EOVERFLOW) ∧
    (¬(result.allocatedDigits ≠ 0 ∧ SumOverflows lbig.operand.digits rbig.operand.digits) →
      multBigint result lbig rbig ≠ .error .EOVERFLOW) := by
  have hne : ∀ {big : Bigint}, big.WellFormed → big.value ≠ 0 → big.operand.digits ≠ [] := by
    intro big hbig hval hnil
    rw [value_eq, magnitude_eq_zero (hbig.operand_eq_nil.mp hnil), neg_zero, ite_self] at hval
    exact hval rfl
  have hlne := hne hl hl0
  have hrne := hne hr hr0
  have hsplit : Splittable lbig.operand.digits rbig.operand.digits :=
    ⟨hl.operand_leading, hr.operand_leading, hlne, hrne, hlen⟩
  have hpos := List.length_pos_iff.mpr hlne
  rw [multBigint, if_neg (by simp only [hlne, hrne, or_self, not_false_eq_true]),
    if_neg (not_lt.mpr hexp)]
  by_cases hres : result.allocatedDigits = 0
  · -- an object of fixed size
    have hreserve : reserve result (lbig.operand.digits.length + rbig.operand.digits.length) =
        .error .EINVAL := by
      rw [reserve, if_pos (by omega), allocateBigint,
        dif_neg (not_lt.mpr (max_le hlen (by norm_num)))]
      exact if_pos hres
    rw [hreserve]
    exact ⟨fun h => absurd hres h.1, fun _ h => by cases h⟩
  · obtain ⟨big, hbig, hbig0⟩ := reserve_ok hres hlen
    rw [hbig, ok_bind]
    obtain ⟨hok, hover⟩ := multsplit_outcome hsplit (splitSucceeds _) hbig0
    rw [sumOverflows_factors lbig.operand_head rbig.operand_head] at hok hover
    constructor
    · intro h
      rw [hover h.2]
      rfl
    · intro hnot
      obtain ⟨new, hnew, -⟩ := hok fun hsum => hnot ⟨hres, hsum⟩
      rw [hnew]
      rintro ⟨⟩

/-- **`mult_bigint` returns `EOVERFLOW` for a product that an object can hold**, if and only if the
carry that the sum of the outer products has room for is one digit too many. -/
theorem multBigint_overflow_iff {result lbig rbig : Bigint} (hl : lbig.WellFormed)
    (hr : rbig.WellFormed) (hl0 : lbig.value ≠ 0) (hr0 : rbig.value ≠ 0)
    (hlen : lbig.operand.digits.length + rbig.operand.digits.length ≤ INT16_MAX)
    (hexp : lbig.operand.exponent + rbig.operand.exponent ≤ UINT16_MAX) :
    multBigint result lbig rbig ≠ .error .EOVERFLOW ↔
      ¬(result.allocatedDigits ≠ 0 ∧ SumOverflows lbig.operand.digits rbig.operand.digits) := by
  obtain ⟨hover, hok⟩ := @multBigint_outcome result lbig rbig hl hr hl0 hr0 hlen hexp
  exact ⟨fun h hsum => h (hover hsum), hok⟩

/-- Two digits times one digit. -/
theorem multBigint_overflow_small :
    multBigint ⟨4, 0, 0, [], by decide⟩ ⟨4, 2, 0, [3, 1], by decide⟩
      ⟨4, -1, 0, [2], by decide⟩ ≠ .error .EOVERFLOW ↔
      ¬((⟨4, 0, 0, [], by decide⟩ : Bigint).allocatedDigits ≠ 0 ∧
        SumOverflows (⟨4, 2, 0, [3, 1], by decide⟩ : Bigint).operand.digits
          (⟨4, -1, 0, [2], by decide⟩ : Bigint).operand.digits) :=
  multBigint_overflow_iff (by decide) (by decide) (by decide) (by decide) (by decide) (by decide)

/-- `base ^ n - 1`. -/
def allOnes (n : ℕ) (h : n ≤ INT16_MAX) : Bigint :=
  ⟨n, n, 0, List.replicate n UINT32_MAX, h⟩

theorem allOnes_valid (n : ℕ) (h : n ≤ INT16_MAX) :
    (allOnes n h).valid = List.replicate n UINT32_MAX := by
  rw [valid, nrdigits, allOnes]
  exact (congrArg (List.take · _) (Int.natAbs_natCast n)).trans (by simp)

theorem allOnes_operand (n : ℕ) (h : n ≤ INT16_MAX) :
    (allOnes n h).operand = ⟨List.replicate n UINT32_MAX, 0⟩ := by
  rw [operand, allOnes_valid]
  refine skipTrailingZero_of_head ?_ 0
  rw [List.head?_replicate]
  split_ifs <;> decide

theorem allOnes_wellFormed {n : ℕ} (h : n ≤ INT16_MAX) (hn : n ≠ 0) : (allOnes n h).WellFormed := by
  have hnr : (allOnes n h).nrdigits = n := Int.natAbs_natCast n
  refine ⟨hnr.trans_le h, ?_, Nat.zero_le _, ?_, fun h0 => absurd (hnr.symm.trans h0) hn⟩
  · rw [hnr]
    exact List.length_replicate.ge
  · rw [allOnes_valid, Leading, List.getLast?_replicate, if_neg hn]
    decide

theorem allOnes_value_ne_zero {n : ℕ} (h : n ≤ INT16_MAX) (hn : n ≠ 0) :
    (allOnes n h).value ≠ 0 := by
  have hwf := allOnes_wellFormed h hn
  have hpos : 0 < (allOnes n h).magnitude :=
    mul_pos (number_pos hwf.leading (hwf.valid_ne_nil ((Int.natAbs_natCast n).trans_ne hn)))
      (base_pow_pos _)
  rw [value_eq]
  split_ifs <;> omega

theorem sumOverflows_allOnes {n m : ℕ} (hn : 48 < n) (hm : 48 < m) (h : n + m = INT16_MAX) :
    SumOverflows (List.replicate n UINT32_MAX) (List.replicate m UINT32_MAX) := by
  have hs : splitOf (List.replicate n UINT32_MAX) (List.replicate m UINT32_MAX) = min n m / 2 := by
    rw [splitOf, List.length_replicate, List.length_replicate]
  have hlow : ∀ k, 0 < k → lowest (List.replicate k UINT32_MAX) = base - 1 := by
    intro k hk
    rw [← Nat.succ_pred_eq_of_pos hk, List.replicate_succ]
    rfl
  have hbig : ∀ k, 0 < k → 2 ^ 31 * base ^ (k - 1) ≤ base ^ k - 1 := by
    intro k hk
    have hpow : base ^ k = 4294967296 * base ^ (k - 1) := by
      rw [← base_eq, ← pow_succ', Nat.sub_add_cancel hk]
    have hpos := base_pow_pos (k - 1)
    linarith
  refine ⟨?_, ?_, ?_, ?_, ?_⟩
  · rwa [List.length_replicate]
  · rwa [List.length_replicate]
  · rwa [List.length_replicate, List.length_replicate]
  · rw [hs, List.drop_replicate, List.drop_replicate, number_replicate_max, number_replicate_max]
    generalize hsplit : min n m / 2 = split
    have hmul := mul_le_mul (hbig (n - split) (by omega)) (hbig (m - split) (by omega))
      (by have := base_pow_pos (m - split - 1); positivity)
      (sub_nonneg.mpr (base_pow_pos (n - split)))
    refine le_trans ?_ hmul
    have hexp : INT16_MAX - 2 * split - 1 = n - split - 1 + (m - split - 1) + 1 := by omega
    have hpos := mul_pos (base_pow_pos (n - split - 1)) (base_pow_pos (m - split - 1))
    rw [hexp, pow_succ, pow_add]
    calc base ^ (n - split - 1) * base ^ (m - split - 1) * base
        ≤ base ^ (n - split - 1) * base ^ (m - split - 1) * 2 ^ 62 :=
          mul_le_mul_of_nonneg_left (by rw [base_eq]; norm_num) hpos.le
      _ = 2 ^ 31 * base ^ (n - split - 1) * (2 ^ 31 * base ^ (m - split - 1)) := by ring
  · rw [hlow n (by omega), hlow m (by omega), base_eq]
    norm_num

theorem multBigint_allOnes {n m : ℕ} (hn : 48 < n) (hm : 48 < m) (h : n + m = INT16_MAX) :
    ¬∀ result lbig rbig : Bigint, lbig.WellFormed → rbig.WellFormed → lbig.value ≠ 0 →
      rbig.value ≠ 0 → lbig.operand.digits.length + rbig.operand.digits.length ≤ INT16_MAX →
      lbig.operand.exponent + rbig.operand.exponent ≤ UINT16_MAX →
        multBigint result lbig rbig ≠ .error .EOVERFLOW := by
  intro hall
  have hlsize : n ≤ INT16_MAX := by omega
  have hrsize : m ≤ INT16_MAX := by omega
  have hlwf := allOnes_wellFormed hlsize (by omega)
  have hrwf := allOnes_wellFormed hrsize (by omega)
  have hl0 := allOnes_value_ne_zero hlsize (by omega)
  have hr0 := allOnes_value_ne_zero hrsize (by omega)
  have hlen : (allOnes n hlsize).operand.digits.length +
      (allOnes m hrsize).operand.digits.length ≤ INT16_MAX := by
    rw [allOnes_operand, allOnes_operand, List.length_replicate, List.length_replicate, h]
  have hexp : (allOnes n hlsize).operand.exponent + (allOnes m hrsize).operand.exponent ≤
      UINT16_MAX := by
    rw [allOnes_operand, allOnes_operand]
    exact Nat.zero_le _
  refine hall ⟨4, 0, 0, [], by norm_num⟩ _ _ hlwf hrwf hl0 hr0 hlen hexp ?_
  refine (multBigint_outcome hlwf hrwf hl0 hr0 hlen hexp).1 ⟨four_ne_zero, ?_⟩
  rw [allOnes_operand, allOnes_operand]
  exact sumOverflows_allOnes hn hm h

/-- `(base ^ 49 - 1) * (base ^ 32718 - 1)` has 32767 digits, and is not returned. -/
theorem multBigint_overflows :
    ¬∀ result lbig rbig : Bigint, lbig.WellFormed → rbig.WellFormed → lbig.value ≠ 0 →
      rbig.value ≠ 0 → lbig.operand.digits.length + rbig.operand.digits.length ≤ INT16_MAX →
      lbig.operand.exponent + rbig.operand.exponent ≤ UINT16_MAX →
        multBigint result lbig rbig ≠ .error .EOVERFLOW :=
  @multBigint_allOnes 49 32718 (by norm_num) (by norm_num) (by norm_num)

end Bigint
end CKern
