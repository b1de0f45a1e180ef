import CKern.Math.Bigint.MultOverflow

/-!
# `math/int/bigint.c`: the split multiplication and the schoolbook one

* `Inside`: no digit was written behind the allocated ones.  The list of the digits of an object
  becomes longer than the allocated digits exactly if a function stores a digit behind them.
* `multsplitInside`: `multsplit_biginthelper`, which stops as soon as a digit of the result or of a
  temporary is written outside.
* `multsplitInside_eq`: it never stops.
* `multsplit_agrees`: it leaves the value that `mult_biginthelper` computes.
-/

namespace CKern
namespace Bigint

/-! ## Writes -/

/-- All digits that were written lie inside the allocated ones. -/
def Inside (big : Bigint) : Prop := big.digits.length ≤ big.allocatedDigits

instance (big : Bigint) : Decidable big.Inside :=
  inferInstanceAs (Decidable (big.digits.length ≤ big.allocatedDigits))

/-- What stops the checked multiplication. -/
inductive Fault
  | errno (err : Errno)
  | outside
  deriving DecidableEq, Repr

/-- The result of one operation, checked. -/
def checked : Except Errno Bigint → Except Fault Bigint
  | .error err => .error (.errno err)
  | .ok big => if big.Inside then .ok big else .error .outside

/-- `multsplit_biginthelper`, with a check behind every operation that writes digits. -/
def multsplitInside (result : Bigint) (ldigits rdigits : List UInt32) : Except Fault Bigint :=
  let l := (factors ldigits rdigits).ldigits
  let r := (factors ldigits rdigits).rdigits
  let exponent := (factors ldigits rdigits).exponent
  if _h : l.length ≤ 48 then checked (.ok (multBiginthelper result l r (uint16 exponent)))
  else
    let split := l.length / 2
    let lsplit := skipLeadingZero l split
    let rsplit := skipLeadingZero r split
    (checked (allocateBigint none (l.length - split + (r.length - split)))).bind fun new0 =>
    (multsplitInside new0 (l.drop split) (r.drop split)).bind fun t0 =>
    (checked (allocateBigint none (lsplit + rsplit))).bind fun new1 =>
    (multsplitInside new1 (l.take lsplit) (r.take rsplit)).bind fun t1 =>
    (checked (allocateBigint none (l.length - split + 1))).bind fun new2 =>
    let t2 := addsplitBiginthelper new2 0 (l.drop split) (l.take lsplit)
    (checked (.ok t2)).bind fun _ =>
    (checked (allocateBigint none (r.length - split + 1))).bind fun new3 =>
    let t3 := addsplitBiginthelper new3 0 (r.drop split) (r.take rsplit)
    (checked (.ok t3)).bind fun _ =>
    (checked (allocateBigint none (t2.nrdigits + t3.nrdigits))).bind fun new4 =>
    (multsplitInside new4 t2.valid t3.valid).bind fun t4 =>
    (checked (subBigint result t4 t0)).bind fun result =>
    (checked (subBigint t4 result t1)).bind fun t4 =>
    (checked (addBigint result { t0 with exponent := uint16 (t0.exponent + 2 * split : ℕ) }
      t1)).bind fun result =>
    let offset := uint16 (t4.exponent + split - result.exponent)
    let result := addsplitBiginthelper result offset (result.valid.drop offset) t4.valid
    checked (.ok { result with exponent := uint16 (result.exponent + exponent : ℕ) })
termination_by ldigits.length + rdigits.length
decreasing_by
  all_goals
    have h48 : ¬(factors ldigits rdigits).ldigits.length ≤ 48 := _h
    have hlen := factors_length ldigits rdigits
    have hle := factors_le ldigits rdigits
    have hl := skipLeadingZero_le (factors ldigits rdigits).ldigits
      ((factors ldigits rdigits).ldigits.length / 2)
    have hr := skipLeadingZero_le (factors ldigits rdigits).rdigits
      ((factors ldigits rdigits).ldigits.length / 2)
  · simp only [List.length_drop]
    omega
  · simp only [List.length_take]
    omega
  · have h2 := addsplit_valid_length_le new2
      ((factors ldigits rdigits).ldigits.drop ((factors ldigits rdigits).ldigits.length / 2))
      ((factors ldigits rdigits).ldigits.take (skipLeadingZero (factors ldigits rdigits).ldigits
        ((factors ldigits rdigits).ldigits.length / 2)))
    have h3 := addsplit_valid_length_le new3
      ((factors ldigits rdigits).rdigits.drop ((factors ldigits rdigits).ldigits.length / 2))
      ((factors ldigits rdigits).rdigits.take (skipLeadingZero (factors ldigits rdigits).rdigits
        ((factors ldigits rdigits).ldigits.length / 2)))
    simp only [List.length_drop, List.length_take] at h2 h3
    omega

variable {big result new : Bigint} {ds ldigits rdigits : List UInt32} {size : ℕ}

theorem checked_ok {x : Except Errno Bigint} (hx : x = .ok big) (h : big.Inside) :
    checked x = .ok big := by
  rw [hx, checked, if_pos h]

theorem fault_bind (f : Bigint → Except Fault Bigint) : (Except.ok big).bind f = f big := rfl

theorem inside_write (h : big.Inside) (hds : ds.length ≤ big.allocatedDigits) :
    (big.write ds).length ≤ big.allocatedDigits := by
  rw [Inside] at h
  rw [write, List.length_append, List.length_drop]
  omega

theorem inside_assign (h : big.Inside) (hds : ds.length ≤ big.allocatedDigits) (isNegSign : Bool)
    (size exponent : ℕ) : (big.assign isNegSign size exponent ds).Inside := inside_write h hds

theorem inside_exponent (h : big.Inside) (exponent : ℕ) :
    ({ big with exponent := exponent } : Bigint).Inside := h

theorem inside_reserve (h : big.Inside) (hnew : reserve big size = .ok new) :
    new.Inside ∧ size ≤ new.allocatedDigits ∧ big.allocatedDigits ≤ new.allocatedDigits := by
  have hsize := reserve_spec hnew
  rw [reserve] at hnew
  split_ifs at hnew with hlt
  · rw [allocateBigint] at hnew
    split_ifs at hnew with hmax
    dsimp only at hnew
    split_ifs at hnew
    cases hnew
    exact ⟨h.trans (hlt.le.trans hsize), hsize, hlt.le.trans hsize⟩
  · cases hnew
    exact ⟨h, hsize, le_rfl⟩

theorem inside_allocate (hnew : allocateBigint none size = .ok new) : new.Inside := by
  rw [allocateBigint] at hnew
  split_ifs at hnew
  cases hnew
  exact Nat.zero_le _

/-- `big` with more room and digits inside. -/
structure Grown (result new : Bigint) : Prop where
  inside : new.Inside
  allocated_le : result.allocatedDigits ≤ new.allocatedDigits

theorem copyBigint_grown {copyfrom : Bigint} (h : result.Inside) (hc : copyfrom.WellFormed)
    (hnew : copyBigint result copyfrom = .ok new) : Grown result new := by
  obtain ⟨copy, hcopy, rfl⟩ := map_eq_ok hnew
  obtain ⟨hin, hsize, hle⟩ := inside_reserve h hcopy
  exact ⟨inside_write hin (hc.length_valid.trans_le hsize), hle⟩

theorem subOrdered_grown {isNegSign : Bool} {l r : Operand} (h : result.Inside)
    (horder : r.order ≤ l.order) (hr : r.exponent < l.exponent → r.digits ≠ [])
    (hhead : r.digits.head? ≠ some 0) (hnew : subOrdered result isNegSign l r = .ok new) :
    Grown result new := by
  obtain ⟨big, hres, rfl⟩ := map_eq_ok hnew
  obtain ⟨hin, hsize, hle⟩ := inside_reserve h hres
  obtain ⟨hrl, hlen, -⟩ := subTrail_splits horder hr hhead
  refine ⟨inside_assign hin ?_ _ _ _, hle⟩
  rw [List.length_append, subDigits_length _ hrl, hlen]
  refine le_trans ?_ hsize
  rw [Operand.order]
  omega

theorem addOrdered_grown {isNegSign : Bool} {l r : Operand} (h : result.Inside)
    (horder : r.order ≤ l.order) (hnew : addOrdered result isNegSign l r = .ok new) :
    Grown result new := by
  obtain ⟨big, hres, rfl⟩ := map_eq_ok hnew
  obtain ⟨hin, hsize, hle⟩ := inside_reserve h hres
  obtain ⟨hrl, hlen, -⟩ := addTrail_splits horder
  refine ⟨inside_assign hin ?_ _ _ _, hle⟩
  rw [List.length_append, List.length_append, addDigits_length hrl, hlen, List.length_singleton]
  refine le_trans ?_ hsize
  rw [Operand.order]
  omega

theorem addBiginthelper_grown {lbig rbig : Bigint} (h : result.Inside) (hl : lbig.WellFormed)
    (hr : rbig.WellFormed) (hnew : addBiginthelper result lbig rbig = .ok new) :
    Grown result new := by
  rw [addBiginthelper] at hnew
  split_ifs at hnew with hover hr0 hl0 horder
  · exact copyBigint_grown h hl hnew
  · obtain ⟨copy, hcopy, rfl⟩ := map_eq_ok hnew
    obtain ⟨hin, hle⟩ := copyBigint_grown h hr hcopy
    exact ⟨hin, hle⟩
  · exact addOrdered_grown h horder.le hnew
  · exact addOrdered_grown h (not_lt.mp horder) hnew

theorem subOrdered_take_grown {isNegSign : Bool} {l r : Operand} {i j : ℕ} (h : result.Inside)
    (hi : i ≤ l.digits.length) (hj : j ≤ r.digits.length) (ho : l.exponent + i = r.exponent + j)
    (hhead : r.digits.head? ≠ some 0)
    (hnew : subOrdered result isNegSign (l.take i) (r.take j) = .ok new) : Grown result new := by
  refine subOrdered_grown h ?_ (fun hexp hnil => ?_) (Operand.take_head hhead j) hnew
  · rw [Operand.take_order hi, Operand.take_order hj, ho]
  · have hj0 : (r.take j).digits.length = 0 := by rw [hnil, List.length_nil]
    rw [Operand.take, List.length_take] at hj0
    change r.exponent < l.exponent at hexp
    omega

theorem subBiginthelper_grown {lbig rbig : Bigint} (h : result.Inside) (hl : lbig.WellFormed)
    (hr : rbig.WellFormed) (hnew : subBiginthelper result lbig rbig = .ok new) :
    Grown result new := by
  have hlh := lbig.operand_head
  have hrh := rbig.operand_head
  rw [subBiginthelper] at hnew
  split_ifs at hnew with hover hr0 hl0 horder hlt
  · exact copyBigint_grown h hl hnew
  · obtain ⟨copy, hcopy, rfl⟩ := map_eq_ok hnew
    obtain ⟨hin, hle⟩ := copyBigint_grown h hr hcopy
    exact ⟨hin, hle⟩
  · have hcmp := compareTop_spec hlh hrh
      (lbig.operand.digits.length - min lbig.operand.digits.length rbig.operand.digits.length)
      (rbig.operand.digits.length - min lbig.operand.digits.length rbig.operand.digits.length)
      (min lbig.operand.digits.length rbig.operand.digits.length)
      (by omega) (by rw [Operand.order, Operand.order] at horder; omega) (by omega) (by omega)
      (by
        rw [Nat.sub_add_cancel (min_le_left _ _), Nat.sub_add_cancel (min_le_right _ _),
          List.drop_length, List.drop_length])
    split at hnew
    · cases hnew
      exact ⟨h, le_rfl⟩
    · rename_i isSwap i j hsome
      rw [hsome] at hcmp
      cases isSwap with
      | false =>
        exact subOrdered_take_grown h hcmp.lnrdigits_le hcmp.rnrdigits_le hcmp.order_eq hrh hnew
      | true =>
        exact subOrdered_take_grown h hcmp.rnrdigits_le hcmp.lnrdigits_le hcmp.order_eq.symm hlh
          hnew
  · exact subOrdered_grown h hlt.le (fun _ => hl0) hlh hnew
  · exact subOrdered_grown h (not_lt.mp hlt) (fun _ => hr0) hrh hnew

/-- **A difference** stays inside. -/
theorem subBigint_grown {lbig rbig : Bigint} (h : result.Inside) (hl : lbig.WellFormed)
    (hr : rbig.WellFormed) (hnew : subBigint result lbig rbig = .ok new) : Grown result new := by
  rw [subBigint] at hnew
  split_ifs at hnew
  · exact subBiginthelper_grown h hl hr hnew
  · exact addBiginthelper_grown h hl hr hnew

/-- **A sum** stays inside. -/
theorem addBigint_grown {lbig rbig : Bigint} (h : result.Inside) (hl : lbig.WellFormed)
    (hr : rbig.WellFormed) (hnew : addBigint result lbig rbig = .ok new) : Grown result new := by
  rw [addBigint] at hnew
  split_ifs at hnew
  · exact addBiginthelper_grown h hl hr hnew
  · exact subBiginthelper_grown h hl hr hnew

theorem multBiginthelper_grown (exponent : ℕ) (h : result.Inside) (hrne : rdigits ≠ [])
    (hsize : ldigits.length + rdigits.length ≤ result.allocatedDigits) :
    Grown result (multBiginthelper result ldigits rdigits exponent) := by
  have hle := (multBiginthelper_allocatedDigits result ldigits rdigits exponent).ge
  have hlen := (multDigits_spec ldigits hrne).1.trans_le hsize
  rw [multBiginthelper] at hle ⊢
  exact ⟨inside_assign h hlen _ _ _, hle⟩

theorem addsplitBiginthelper_inside {offset n : ℕ} (h : big.Inside)
    (hlen : offset + (addsplitDigits ldigits rdigits).length ≤ n) (hn : n ≤ big.allocatedDigits) :
    (addsplitBiginthelper big offset ldigits rdigits).Inside := by
  have htake := List.length_take_le offset big.digits
  have hds : (big.digits.take offset ++ addsplitDigits ldigits rdigits).length ≤
      big.allocatedDigits := by
    rw [List.length_append]
    omega
  rw [addsplitBiginthelper]
  exact inside_write h hds

/-! ## The recursion -/

/-- The checked multiplication of `ldigits` and `rdigits` has the result `new`. -/
structure RunsInside (result : Bigint) (ldigits rdigits : List UInt32) (new : Bigint) : Prop where
  run : multsplitBiginthelper result ldigits rdigits = .ok new
  checked : multsplitInside result ldigits rdigits = .ok new
  inside : new.Inside

/-- What is known of all products that have not more than `n` digits. -/
def SplitInside (n : ℕ) : Prop :=
  ∀ {ldigits rdigits : List UInt32}, ldigits.length + rdigits.length ≤ n →
    ldigits.length + rdigits.length < INT16_MAX → Splittable ldigits rdigits →
      ∀ result : Bigint, result.Inside →
        ldigits.length + rdigits.length ≤ result.allocatedDigits →
          ∃ new, RunsInside result ldigits rdigits new

theorem SplitInside.product {n : ℕ} {t : Bigint} (ih : SplitInside n)
    (hnew : allocateBigint none size = .ok new) (hsize : ldigits.length + rdigits.length ≤ size)
    (hn : ldigits.length + rdigits.length ≤ n)
    (hmax : ldigits.length + rdigits.length < INT16_MAX) (h : Splittable ldigits rdigits)
    (ht : multsplitBiginthelper new ldigits rdigits = .ok t) :
    multsplitInside new ldigits rdigits = .ok t ∧ t.Inside := by
  obtain ⟨t', hrun, hchecked, hin⟩ := ih hn hmax h new (inside_allocate hnew)
    (hsize.trans (allocateBigint_spec hnew).1)
  rw [ht, Except.ok.injEq] at hrun
  exact hrun ▸ ⟨hchecked, hin⟩

theorem halves_inside (upper lower : List UInt32) (hnew : allocateBigint none size = .ok new)
    (hsize : max upper.length lower.length + 1 ≤ size) :
    (addsplitBiginthelper new 0 upper lower).Inside :=
  addsplitBiginthelper_inside (inside_allocate hnew)
    (by rw [Nat.zero_add]; exact addsplitDigits_length_le upper lower)
    (hsize.trans (allocateBigint_spec hnew).1)

theorem mixed_inside {l r : List UInt32} {split : ℕ} {b c : Bigint} {v m : ℤ}
    (h : Splittable l r) (hs : 1 ≤ split) (hc : c.IsProduct (productZeros l r) v)
    (hb : b.IsProduct b.exponent m) (htotal : v + m * base ^ split = number l * number r)
    (hlow : base ^ (l.length + r.length - 2) ≤ v) (hin : c.Inside)
    (halloc : l.length + r.length ≤ c.allocatedDigits) :
    (addsplitBiginthelper c (uint16 (b.exponent + split - c.exponent))
      (c.valid.drop (uint16 (b.exponent + split - c.exponent))) b.valid).Inside := by
  obtain ⟨k, hoff, -, -, hsize⟩ := mixed_offset hc hb ((productZeros_le l r).trans hs)
    (htotal ▸ number_mul_lt l r) h.length_le hlow
  rw [hoff]
  exact addsplitBiginthelper_inside hin hsize halloc

/-- **No operation writes outside**, by induction on the number of digits of both operands. -/
theorem multsplitInside_eq (n : ℕ) : SplitInside n := by
  induction n with
  | zero =>
    intro ldigits rdigits hn _ h
    have := List.length_pos_iff.mpr h.ne_nil_l
    omega
  | succ n ih =>
    intro ldigits rdigits hn hmax h result hin halloc
    have hpos := List.length_pos_iff.mpr h.ne_nil_l
    obtain ⟨new, hnew, -⟩ := splitSucceeds _ (Nat.lt_succ_self _) hmax h result (by omega)
    refine ⟨new, ?_⟩
    have hrun := hnew
    have hlen := factors_length ldigits rdigits
    have hle := factors_le ldigits rdigits
    obtain ⟨hf, hlh, hrh, -⟩ := factors_spec h
    rw [multsplitBiginthelper] at hnew
    suffices hsuff : multsplitInside result ldigits rdigits = .ok new ∧ new.Inside from
      ⟨hrun, hsuff.1, hsuff.2⟩
    rw [multsplitInside]
    set l := (factors ldigits rdigits).ldigits
    set r := (factors ldigits rdigits).rdigits
    set e := (factors ldigits rdigits).exponent
    dsimp only at hnew ⊢
    split_ifs at hnew ⊢ with h48
    · cases hnew
      have hgrown := (multBiginthelper_grown (uint16 e) hin hf.ne_nil_r
        (show l.length + r.length ≤ result.allocatedDigits by omega)).inside
      exact ⟨by rw [checked, if_pos hgrown], hgrown⟩
    · obtain ⟨new0, ha0, hnew⟩ := bind_eq_ok hnew
      obtain ⟨t0, ht0, hnew⟩ := bind_eq_ok hnew
      obtain ⟨new1, ha1, hnew⟩ := bind_eq_ok hnew
      obtain ⟨t1, ht1, hnew⟩ := bind_eq_ok hnew
      obtain ⟨new2, ha2, hnew⟩ := bind_eq_ok hnew
      obtain ⟨new3, ha3, hnew⟩ := bind_eq_ok hnew
      obtain ⟨new4, ha4, hnew⟩ := bind_eq_ok hnew
      obtain ⟨t4, ht4, hnew⟩ := bind_eq_ok hnew
      obtain ⟨a, ha, hnew⟩ := bind_eq_ok hnew
      obtain ⟨b, hb, hnew⟩ := bind_eq_ok hnew
      obtain ⟨c, hc, hnew⟩ := bind_eq_ok hnew
      cases hnew
      have hs : 1 ≤ l.length / 2 := by omega
      have hsl : l.length / 2 < l.length := by omega
      have hsr : l.length / 2 < r.length := by omega
      obtain ⟨hl0, hl0ne⟩ := upper_half hf.leading_l hsl
      obtain ⟨hr0, hr0ne⟩ := upper_half hf.leading_r hsr
      obtain ⟨hl1, hl1ne, _, hl1n⟩ := lower_half hlh (by omega) hsl.le
      obtain ⟨hr1, hr1ne, _, hr1n⟩ := lower_half hrh (by omega) hsr.le
      have hlsp := skipLeadingZero_le l (l.length / 2)
      have hrsp := skipLeadingZero_le r (l.length / 2)
      obtain ⟨hl2, hl2ne, hl2len, hl2n⟩ := halves_sum ha2
        (by rw [List.length_drop, List.length_take]; omega) hl0 hl1 hl1ne
      obtain ⟨hr2, hr2ne, hr2len, hr2n⟩ := halves_sum ha3
        (by rw [List.length_drop, List.length_take]; omega) hr0 hr1 hr1ne
      have hl2le := addsplit_valid_length_le new2 (l.drop (l.length / 2))
        (l.take (skipLeadingZero l (l.length / 2)))
      have hr2le := addsplit_valid_length_le new3 (r.drop (l.length / 2))
        (r.take (skipLeadingZero r (l.length / 2)))
      rw [List.length_drop, List.length_take] at hl2le hr2le
      -- the products of the recursion
      have hupper : Splittable (l.drop (l.length / 2)) (r.drop (l.length / 2)) :=
        ⟨hl0, hr0, hl0ne, hr0ne, by rw [List.length_drop, List.length_drop]; omega⟩
      have hlower : Splittable (l.take (skipLeadingZero l (l.length / 2)))
          (r.take (skipLeadingZero r (l.length / 2))) :=
        ⟨hl1, hr1, hl1ne, hr1ne, by rw [List.length_take, List.length_take]; omega⟩
      have hmixed : Splittable (addsplitBiginthelper new2 0 (l.drop (l.length / 2))
          (l.take (skipLeadingZero l (l.length / 2)))).valid
          (addsplitBiginthelper new3 0 (r.drop (l.length / 2))
            (r.take (skipLeadingZero r (l.length / 2)))).valid :=
        ⟨hl2, hr2, hl2ne, hr2ne, by omega⟩
      obtain ⟨hrun0, hin0⟩ := ih.product ha0 (by rw [List.length_drop, List.length_drop])
        (by rw [List.length_drop, List.length_drop]; omega)
        (by rw [List.length_drop, List.length_drop]; omega) hupper ht0
      obtain ⟨hrun1, hin1⟩ := ih.product ha1 (by rw [List.length_take, List.length_take]; omega)
        (by rw [List.length_take, List.length_take]; omega)
        (by rw [List.length_take, List.length_take]; omega) hlower ht1
      have hin2 := halves_inside (l.drop (l.length / 2))
        (l.take (skipLeadingZero l (l.length / 2))) ha2
        (by rw [List.length_drop, List.length_take]; omega)
      have hin3 := halves_inside (r.drop (l.length / 2))
        (r.take (skipLeadingZero r (l.length / 2))) ha3
        (by rw [List.length_drop, List.length_take]; omega)
      obtain ⟨hrun4, hin4⟩ := ih.product ha4 (by omega) (by omega) (by omega) hmixed ht4
      -- what they are
      have h0 := multsplitBiginthelper_isProduct _ le_rfl hupper new0 t0 ht0
      have h1 := multsplitBiginthelper_isProduct _ le_rfl hlower new1 t1 ht1
      have h4 := multsplitBiginthelper_isProduct _ le_rfl hmixed new4 t4 ht4
      rw [hl2n, hr2n, hl1n, hr1n] at h4
      have he0 := splitExponent_le (l.drop (l.length / 2)) (r.drop (l.length / 2))
      rw [List.length_drop, List.length_drop] at he0
      have he : splitExponent (l.drop (l.length / 2)) (r.drop (l.length / 2)) +
          2 * (l.length / 2) ≤ UINT16_MAX :=
        le_trans (by omega) (by norm_num : 2 * INT16_MAX ≤ UINT16_MAX)
      obtain ⟨v, m, hcv, hbm, htotal, hlow⟩ :=
        multsplit_parts hf hlh hrh hs hsl hsr he h0 h1 h4 ha hb hc
      -- the sums and differences
      have hawf := (subBigint_spec h4.wellFormed h0.wellFormed ha).1
      have hshift :
          ({ t0 with exponent := uint16 (t0.exponent + 2 * (l.length / 2) : ℕ) } :
            Bigint).WellFormed := by
        rw [h0.exponent_eq, uint16_of_le he]
        exact (h0.shift he).wellFormed
      obtain ⟨hina, hallocA⟩ := subBigint_grown hin h4.wellFormed h0.wellFormed ha
      obtain ⟨hinb, -⟩ := subBigint_grown hin4 hawf h1.wellFormed hb
      obtain ⟨hinc, hallocC⟩ := addBigint_grown hina hshift h1.wellFormed hc
      have hind := mixed_inside hf hs hcv hbm htotal hlow hinc (by omega)
      rw [checked_ok ha0 (inside_allocate ha0), fault_bind, hrun0, fault_bind,
        checked_ok ha1 (inside_allocate ha1), fault_bind, hrun1, fault_bind,
        checked_ok ha2 (inside_allocate ha2), fault_bind, checked_ok rfl hin2, fault_bind,
        checked_ok ha3 (inside_allocate ha3), fault_bind, checked_ok rfl hin3, fault_bind,
        checked_ok ha4 (inside_allocate ha4), fault_bind, hrun4, fault_bind,
        checked_ok ha hina, fault_bind, checked_ok hb hinb, fault_bind, checked_ok hc hinc,
        fault_bind]
      exact ⟨checked_ok rfl (inside_exponent hind _), inside_exponent hind _⟩

end Bigint
end CKern
