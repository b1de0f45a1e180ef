import CKern.Math.Float.Decimal.Mult

/-!
# `math/float/decimal.c`: the overflow of `mult_decimal`

* `SumOverflows`: the sum of the outer products, which has room for a carry, asks for one digit more
  than an object can have.
* `multsplit_no_overflow`, `multsplit_overflows`: otherwise the split multiplication returns no
  error, and in this case it has no result.
* `multDecimal_no_overflow`: `mult_decimal` returns `EOVERFLOW` only for this reason, if the sizes
  and the exponents of the operands are not too big.
-/

namespace CKern
namespace Decimal

variable {result ldec rdec : Decimal} {ldigits rdigits : List ℕ}

/-- The sum of the outer products has one digit too many: the operands are split, they have all
digits of the largest object together, the product of their upper parts has all its digits, and that
of their lower ones has no zero at its end. -/
def SumOverflows (ldigits rdigits : List ℕ) : Prop :=
  let l := (factors ldigits rdigits).ldigits
  let r := (factors ldigits rdigits).rdigits
  4 ≤ l.length ∧ l.length + r.length = 0x7f ∧
    base ^ (0x7f - 2 * split l - 1) ≤ number (l.drop (split l)) * number (r.drop (split l)) ∧
    ¬base ∣ number (l.take (split l)) * number (r.take (split l))

instance (ldigits rdigits : List ℕ) : Decidable (SumOverflows ldigits rdigits) :=
  inferInstanceAs (Decidable (_ ∧ _ ∧ _ ∧ _))

/-! ## The split multiplication -/

theorem upper_product_lt {l r : List ℕ} {n : ℕ} (hl : IsNumber l) (hr : IsNumber r)
    (hn : n < l.length) (hnr : n < r.length) :
    number (l.drop n) * number (r.drop n) < base ^ (l.length + r.length - 2 * n) := by
  have hlt := mul_lt_mul'' (number_lt (upper_spec hl hn).digits)
    (number_lt (upper_spec hr hnr).digits) (number_nonneg _) (number_nonneg _)
  rw [← pow_add, List.length_drop, List.length_drop] at hlt
  rwa [show l.length + r.length - 2 * n = l.length - n + (r.length - n) by omega]

/-- **The split multiplication** returns no error, unless the sum of the outer products is too
long. -/
theorem multsplit_no_overflow (hl : IsNumber ldigits) (hr : IsNumber rdigits)
    (hsize : ldigits.length + rdigits.length ≤ 0x7f) (hroom : Room result ldigits rdigits)
    (hsum : ¬SumOverflows ldigits rdigits) (err : Errno) :
    multsplitDecimalhelper result ldigits rdigits ≠ .error (.errno err) := by
  by_cases hshort : (factors ldigits rdigits).ldigits.length < 4
  · obtain ⟨new, hnew, -⟩ := exists_of_short hl hr hsize hroom hshort
    rw [hnew]
    exact nofun
  have hlen := factors_length ldigits rdigits
  have hnonneg := factors_exponent_nonneg ldigits rdigits
  have hle := factors_le ldigits rdigits
  obtain ⟨hfl, hfr, hlh, hrh, -⟩ := factors_spec hl hr
  have hcast := (Int.toNat_of_nonneg hnonneg).symm
  have hf := factors_eq ldigits rdigits
  rw [hcast] at hlen
  rw [SumOverflows] at hsum
  clear hcast
  generalize (factors ldigits rdigits).exponent.toNat = exponent at *
  generalize (factors ldigits rdigits).ldigits = l at *
  generalize (factors ldigits rdigits).rdigits = r at *
  have h4 := not_lt.mp hshort
  have hhalves := halves_spec hfl hfr hlh hrh h4 hle
  have hs : split l < l.length ∧ 2 * split l ≤ l.length + 1 ∧ 1 ≤ 2 * split l := by
    rw [split]
    omega
  have hupper := upper_product_lt hfl hfr hs.1 (hs.1.trans_le hle)
  obtain ⟨m0, m1, m4, f0, f1, f4, h⟩ := exists_splitProducts result hf hfl hfr hlh hrh h4 hle
    (by omega) fun _ hl hr result hsize hroom => multsplitDecimalhelper_outcome hl hr hsize hroom
  rw [h.run]
  intro herr
  have hfit : (f0 && f1 && f4 && decide (OffsetFits (split l) (number (l.drop (split l)))
      (number (l.take (split l))) (number (r.drop (split l)))
        (number (r.take (split l))))) = true := by
    by_contra hnot
    rw [(products_outcome result hhalves h.upper h.lower h.sums h.sums_lt hupper
      (show _ + 2 * split l + exponent ≤ 0x7f by omega)).2 (Bool.eq_false_iff.mpr hnot)] at herr
    cases herr
  by_cases hfull : base ^ (l.length + r.length - 2 * split l - 1) ≤
      number (l.drop (split l)) * number (r.drop (split l))
  · rcases (products_outcome result hhalves h.upper h.lower h.sums h.sums_lt hupper
      (show _ + 2 * split l + exponent ≤ 0x7f by omega)).1 hfit with ⟨new, hok, -⟩ | ⟨hd, hz, -⟩
    · rw [hok] at herr
      cases herr
    · have hall : l.length + r.length = 0x7f := by omega
      rw [hall] at hfull
      refine hsum ⟨h4, hall, hfull, fun hdvd => ?_⟩
      have hz1 := (le_trailingZeros_iff (k := 1)
        (v := number (l.take (split l)) * number (r.take (split l)))
        hs.2.2).mpr (by rwa [pow_one])
      omega
  · rcases (products_outcome result hhalves h.upper h.lower h.sums h.sums_lt (not_le.mp hfull)
      (show _ + 2 * split l + exponent ≤ 0x7f by omega)).1 hfit with ⟨new, hok, -⟩ | ⟨hd, -⟩
    · rw [hok] at herr
      cases herr
    · omega

theorem combine_overflows {t0 t1 t4 new : Decimal} {e0 e1 e4 split exponent : ℕ}
    {lh ll rh rl : ℤ} (h : Halves split lh ll rh rl) (h0 : t0.IsProduct e0 (lh * rh))
    (h1 : t1.IsProduct e1 (ll * rl)) (h4 : t4.IsProduct e4 ((lh + ll) * (rh + rl)))
    (hb : (lh + ll) * (rh + rl) < base ^ 0x7f) (hz : ¬base ∣ ll * rl)
    (horder : 0x7f ≤ t0.operand.order + 2 * split)
    (hmax : t0.operand.order + 2 * split ≤ INT16_MAX) :
    combine result t0 t1 t4 split exponent ≠ .ok new := by
  obtain ⟨n4, -, hz4⟩ := h4.exists_zeros
  obtain ⟨n0, hn0, hz0⟩ := h0.exists_zeros
  have hmixed := h.mixed_pos
  have hmul0 := mul_pos h.lh_pos h.rh_pos
  have hmul1 := mul_pos h.ll_pos h.rl_pos
  have hsub0 : (lh + ll) * (rh + rl) - lh * rh = lh * rl + ll * rh + ll * rl := by ring
  have hz1 : Zeros (ll * rl) 0 := by simpa using zeros_mul_pow (e := 0) hz
  obtain ⟨b0, hb0, hp0⟩ := subDecimal_isProduct result h4 h0 hz4 hz0 (by omega) hb
  rw [hsub0] at hp0
  obtain ⟨n, -, hzn⟩ := hp0.exists_zeros
  obtain ⟨b, hb1, -⟩ := subDecimal_isProduct t4 hp0 h1 hzn hz1 (by omega) (by omega)
  have hord0 : t0.operand.exponent ≤ t0.operand.order := by
    rw [Operand.order]
    omega
  have he0 := h0.le_operand_exponent
  have hshift := h0.shift (j := split + split) (k := 2 * split) (by push_cast; ring) (by omega)
  have hordshift := hshift.wellFormed.operand_order
  rw [hshift.exponent_eq, Nat.cast_add, add_right_comm, ← h0.exponent_eq] at hordshift
  change _ = t0.exponent + t0.sizeDecimal + _ at hordshift
  rw [← h0.wellFormed.operand_order] at hordshift
  push_cast at hordshift
  obtain ⟨n0', -, hz0'⟩ := hshift.exists_zeros
  have hadd := (addDecimal_isProduct b0 hshift h1 hz0' hz1 (by omega)).1
  rw [Nat.min_zero, hordshift] at hadd
  intro hnew
  rw [combine, hb0, checked_ok, ok_bind, hb1, checked_ok, ok_bind] at hnew
  cases hres : addDecimal b0 { t0 with exponent := int16 (t0.exponent + (split + split)) } t1 with
  | error e =>
    rw [hres] at hnew
    cases hnew
  | ok c =>
    have halloc := (hadd c hres).2
    have hc := c.allocated_le
    omega

theorem multsplit_overflows (hl : IsNumber ldigits) (hr : IsNumber rdigits)
    (hsum : SumOverflows ldigits rdigits) (new : Decimal) :
    multsplitDecimalhelper result ldigits rdigits ≠ .ok new := by
  have hlen := factors_length ldigits rdigits
  have hnonneg := factors_exponent_nonneg ldigits rdigits
  have hle := factors_le ldigits rdigits
  obtain ⟨hfl, hfr, hlh, hrh, -⟩ := factors_spec hl hr
  have hf := factors_eq ldigits rdigits
  obtain ⟨h4, hall, hfull, hlow⟩ := hsum
  generalize (factors ldigits rdigits).exponent.toNat = exponent at *
  generalize (factors ldigits rdigits).ldigits = l at *
  generalize (factors ldigits rdigits).rdigits = r at *
  have hhalves := halves_spec hfl hfr hlh hrh h4 hle
  have hs : split l < l.length ∧ 2 * split l ≤ l.length + 1 := by
    rw [split]
    omega
  have hupper := upper_product_lt hfl hfr hs.1 (hs.1.trans_le hle)
  obtain ⟨m0, m1, m4, f0, f1, f4, h⟩ := exists_splitProducts result hf hfl hfr hlh hrh h4 hle
    (by omega) fun _ hl hr result hsize hroom => multsplitDecimalhelper_outcome hl hr hsize hroom
  rw [h.run]
  rcases h.upper with ⟨-, t0, e0, rfl, h0⟩ | ⟨-, rfl⟩
  · rcases h.lower with ⟨-, t1, e1, rfl, h1⟩ | ⟨-, rfl⟩
    · rcases h.sums with ⟨-, t4, e4, rfl, h4⟩ | ⟨-, rfl⟩
      · have horder := h0.lt_order hfull
        have hmax := h0.order_le hupper
        have hbig : (0x7f + 1 : ℤ) ≤ INT16_MAX := by norm_num
        exact combine_overflows hhalves h0 h1 h4 h.sums_lt hlow (by omega) (by omega)
      · rintro ⟨⟩
    · rintro ⟨⟩
  · rintro ⟨⟩

/-! ## `mult_decimal` -/

theorem value_eq_zero {dec : Decimal} (h : dec.sizeDecimal = 0) : dec.value = 0 := by
  rw [value, magnitude_eq_zero h, mul_zero]

theorem WellFormed.value_ne_zero {dec : Decimal} (h : dec.WellFormed)
    (h0 : dec.sizeDecimal ≠ 0) : dec.value ≠ 0 := by
  rw [value]
  refine mul_ne_zero ?_ (h.magnitude_pos h0).ne'
  split_ifs <;> norm_num

/-- **`mult_decimal` reports an overflow only if it must**, or if the sum of the outer products has
one digit too many. -/
theorem multDecimal_no_overflow (hl : ldec.WellFormed) (hr : rdec.WellFormed)
    (hl0 : ldec.value ≠ 0) (hr0 : rdec.value ≠ 0)
    (hsize : ldec.operand.digits.length + rdec.operand.digits.length ≤ 0x7f)
    (hexp : -INT16_MAX ≤ ldec.operand.exponent + rdec.operand.exponent)
    (hexp' : ldec.operand.exponent + rdec.operand.exponent ≤ INT16_MAX)
    (hsum : ¬SumOverflows ldec.operand.digits rdec.operand.digits) (result : Decimal) :
    multDecimal result ldec rdec ≠ .error (.errno .EOVERFLOW) := by
  have hln := hl.operand_isNumber fun h0 => hl0 (value_eq_zero h0)
  have hrn := hr.operand_isNumber fun h0 => hr0 (value_eq_zero h0)
  obtain ⟨new, hnew⟩ := exists_allocateDecimalhelper result
    (ldec.operand.digits.length + rdec.operand.digits.length) (by have := hln.length_pos; omega)
    hsize
  have hsplit := multsplit_no_overflow hln hrn hsize
    (room_of_le (allocateDecimalhelper_spec hnew)) hsum .EOVERFLOW
  rw [multDecimal, if_neg (not_or.mpr ⟨hrn.ne_nil, hln.ne_nil⟩), if_neg (by omega), hnew,
    checked_ok, ok_bind]
  intro herr
  cases hres : multsplitDecimalhelper new ldec.operand.digits rdec.operand.digits with
  | error e =>
    rw [hres] at hsplit herr
    exact hsplit herr
  | ok c =>
    rw [hres] at herr
    cases herr

theorem multDecimal_overflows (hl : ldec.WellFormed) (hr : rdec.WellFormed)
    (hl0 : ldec.value ≠ 0) (hr0 : rdec.value ≠ 0)
    (hsum : SumOverflows ldec.operand.digits rdec.operand.digits) (new : Decimal) :
    multDecimal result ldec rdec ≠ .ok new := by
  have hln := hl.operand_isNumber fun h0 => hl0 (value_eq_zero h0)
  have hrn := hr.operand_isNumber fun h0 => hr0 (value_eq_zero h0)
  rw [multDecimal, if_neg (not_or.mpr ⟨hrn.ne_nil, hln.ne_nil⟩)]
  by_cases hexp : INT16_MAX < (ldec.operand.exponent + rdec.operand.exponent).natAbs
  · rw [if_pos hexp]
    rintro ⟨⟩
  · rw [if_neg hexp]
    intro hok
    rcases hdec : allocateDecimalhelper result
        (ldec.operand.digits.length + rdec.operand.digits.length) with err | dec
    · rw [hdec] at hok
      cases hok
    · rw [hdec, checked_ok, ok_bind] at hok
      rcases hres : multsplitDecimalhelper dec ldec.operand.digits rdec.operand.digits with
        err | c
      · rw [hres] at hok
        cases hok
      · exact multsplit_overflows hln hrn hsum c hres

/-- `4` and `123` digits: their sum has one digit too many. -/
theorem multDecimal_overflows_carry :
    multDecimal ⟨127, 0, 0, [], by decide⟩ ⟨4, 4, 0, [1, 0, 0, 999999999], by decide⟩
      ⟨123, 123, 0, 1 :: List.replicate 121 0 ++ [999999999], by decide⟩ ≠
        .ok ⟨127, 0, 0, [], by decide⟩ := by
  have hl : (⟨4, 4, 0, [1, 0, 0, 999999999], by decide⟩ : Decimal).WellFormed := by decide
  have hr : (⟨123, 123, 0, 1 :: List.replicate 121 0 ++ [999999999], by decide⟩ :
      Decimal).WellFormed := by decide +kernel
  exact multDecimal_overflows hl hr (hl.value_ne_zero (by decide)) (hr.value_ne_zero (by decide))
    (by decide +kernel) _
/-- `(10^27 + 2) * (10^27 + 5 * 10^8)`: the operands are split. -/
theorem multDecimal_no_overflow_split :
    multDecimal ⟨8, 0, 0, [], by decide⟩ ⟨4, 4, 0, [2, 0, 0, 1], by decide⟩
      ⟨4, 4, 0, [500000000, 0, 0, 1], by decide⟩ ≠ .error (.errno .EOVERFLOW) := by
  have hl : (⟨4, 4, 0, [2, 0, 0, 1], by decide⟩ : Decimal).WellFormed := by decide
  have hr : (⟨4, 4, 0, [500000000, 0, 0, 1], by decide⟩ : Decimal).WellFormed := by decide
  exact multDecimal_no_overflow hl hr (hl.value_ne_zero (by decide)) (hr.value_ne_zero (by decide))
    (by decide) (by decide) (by decide) (by decide) _

/-- Both exponents are `-16384`: their sum `-32768` is an `int16_t`, but not a valid exponent. -/
theorem multDecimal_overflow_lowest :
    ¬∀ result ldec rdec : Decimal, ldec.WellFormed → rdec.WellFormed → ldec.value ≠ 0 →
      rdec.value ≠ 0 → ldec.operand.digits.length + rdec.operand.digits.length ≤ 0x7f →
        -32768 ≤ ldec.operand.exponent + rdec.operand.exponent →
          ldec.operand.exponent + rdec.operand.exponent ≤ 32767 →
            multDecimal result ldec rdec ≠ .error (.errno .EOVERFLOW) := by
  intro h
  have hwf : (⟨1, 1, -16384, [1], by decide⟩ : Decimal).WellFormed := by decide
  have hne := hwf.value_ne_zero (by decide)
  exact h ⟨2, 0, 0, [], by decide⟩ _ _ hwf hwf hne hne (by decide) (by decide) (by decide)
    (by decide)

end Decimal
end CKern
