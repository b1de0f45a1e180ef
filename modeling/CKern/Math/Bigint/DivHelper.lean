import CKern.Math.Bigint.Div

/-!
# `math/int/bigint.c`: the two long divisions

* `divmodBiginthelper`: a divisor with at least two digits.
* `divmodui32Biginthelper`: a divisor with one digit.

Both are given the number of digits of the quotient as a 16 bit value, and the digits of the
dividend may stand for a number with more zeros behind it.  What they compute is told by the
equations `divideDigits_spec` and `divideui32_spec`.
-/

namespace CKern
namespace Bigint

open Positional Cyclic

/-! ## The loop over the digits of the quotient -/

/-- `for (; divnrdigits; --divnrdigits)`: the digits are written from the most significant one
down. -/
def divLoop (rdigits : List UInt32) : ℕ → DivState → List UInt32 → DivState × List UInt32
  | 0, state, divdigits => (state, divdigits)
  | divnrdigits + 1, state, divdigits =>
    let state := divStep rdigits state
    divLoop rdigits divnrdigits state (state.nextdigit :: divdigits)

theorem divLoop_spec {rdigits : List UInt32} (hlead : 2 ^ 32 ≤ (leadingDigits rdigits).toNat)
    (n : ℕ) {state : DivState} (divdigits : List UInt32) (h : DivInv rdigits state) :
    DivInv rdigits (divLoop rdigits n state divdigits).1 ∧
      (divLoop rdigits n state divdigits).1.ldigits.length = state.ldigits.length ∧
      (∃ ds, (divLoop rdigits n state divdigits).2 = ds ++ divdigits ∧ ds.length = n) ∧
      number (divLoop rdigits n state divdigits).2 *
            (number rdigits * base ^ state.place rdigits) +
          (divLoop rdigits n state divdigits).1.total =
        base ^ n * (number divdigits * (number rdigits * base ^ state.place rdigits) +
          state.total) := by
  induction n generalizing state divdigits with
  | zero =>
    refine ⟨h, rfl, ⟨[], rfl, rfl⟩, ?_⟩
    rw [divLoop, pow_zero, one_mul]
  | succ n ih =>
    obtain ⟨hinv, hlen, htotal⟩ := divStep_spec h hlead
    have hplace : (divStep rdigits state).place rdigits = state.place rdigits := by
      rw [DivState.place, DivState.place, hlen]
    obtain ⟨h1, h2, ⟨ds, hds, hdslen⟩, h4⟩ :=
      ih ((divStep rdigits state).nextdigit :: divdigits) hinv
    rw [divLoop]
    refine ⟨h1, h2.trans hlen, ⟨ds ++ [(divStep rdigits state).nextdigit], ?_, ?_⟩, ?_⟩
    · rw [hds, List.append_assoc]
      rfl
    · rw [List.length_append, hdslen]
      rfl
    · rw [hplace] at h4
      rw [h4, number_cons, pow_succ]
      linear_combination -base ^ n * htotal

/-! ## The first digit -/

/-- The state at the start: the two leading digits are in `dividend`, and their cells are zero. -/
def divStart (ldigits : List UInt32) : DivState where
  dividend := leadingDigits ldigits
  nextdigit := 0
  loffset := if ldigits.length - 2 = 0 then ldigits.length else ldigits.length - 2
  ldigits := (ldigits.set (ldigits.length - 1) 0).set (ldigits.length - 2) 0

/-- The first digit, computed from the two leading digits alone; the flag tells if `divnrdigits` is
decremented. -/
def divFirst (rdigits : List UInt32) (state : DivState) : DivState × Bool :=
  if leadingDigits rdigits < state.dividend then
    (submulBiginthelper rdigits
      { state with
        nextdigit := (state.dividend / leadingDigits rdigits).toUInt32
        dividend := state.dividend % leadingDigits rdigits }, false)
  else if leadingDigits rdigits = state.dividend then
    let state := submulBiginthelper rdigits { state with nextdigit := 1, dividend := 0 }
    (state, state.nextdigit = 0)
  else (state, true)

theorem divStart_window {ldigits : List UInt32} (h : 2 ≤ ldigits.length) :
    (divStart ldigits).window = [0, 0] ++ ldigits.take (ldigits.length - 2) := by
  set n := ldigits.length - 2 with hn
  have hlen : (ldigits.take n).length = n := by
    rw [List.length_take]
    omega
  have hdrop : (ldigits.drop n).length = 2 := by
    rw [List.length_drop]
    omega
  obtain ⟨x, y, hxy⟩ := List.length_eq_two.mp hdrop
  have hcells : (ldigits.set (ldigits.length - 1) 0).set n 0 = ldigits.take n ++ [0, 0] := by
    have hsplit : ldigits = ldigits.take n ++ [x, y] := by rw [← hxy, List.take_append_drop]
    rw [show ldigits.length - 1 = n + 1 by omega]
    nth_rewrite 1 [hsplit]
    rw [List.set_append_right _ _ (by omega), hlen, List.set_append_right _ _ (by omega), hlen,
      Nat.sub_self, Nat.add_sub_cancel_left]
    rfl
  rw [DivState.window, divStart]
  dsimp only
  rw [hcells]
  split_ifs with h0
  · have hnil : ldigits.take n = [] := by rw [hn, h0, List.take_zero]
    rw [hnil, show ldigits.length = 2 by omega]
    rfl
  · have hrotate := List.rotate_append_length_eq (ldigits.take n) [0, 0]
    rwa [hlen] at hrotate

theorem divStart_length (ldigits : List UInt32) :
    (divStart ldigits).ldigits.length = ldigits.length := by
  rw [divStart, List.length_set, List.length_set]

theorem divStart_fits {ldigits rdigits : List UInt32} (h2 : 2 ≤ rdigits.length)
    (hle : rdigits.length ≤ ldigits.length) : (divStart ldigits).Fits rdigits := by
  refine ⟨h2, (divStart_length ldigits).symm ▸ hle, ?_, ?_⟩
  all_goals
    rw [divStart]
    dsimp only
    split_ifs
  · omega
  · omega
  · rw [List.length_set, List.length_set]
  · rw [List.length_set, List.length_set]
    omega

theorem divStart_total {ldigits : List UInt32} (h : 2 ≤ ldigits.length) :
    (divStart ldigits).total = base ^ 2 * number ldigits := by
  rw [DivState.total, divStart_window h, divStart_length, number_append,
    number_eq_leadingDigits h]
  obtain ⟨n, hn⟩ := Nat.exists_eq_add_of_le h
  rw [show ldigits.length - 2 = n by omega, hn, pow_add]
  change number [0, 0] + base ^ 2 * _ + base ^ 2 * base ^ n * ((leadingDigits ldigits).toNat : ℤ) = _
  simp only [number_cons, number_nil, UInt32.toNat_zero, Nat.cast_zero, mul_zero, add_zero]
  ring

theorem divFirst_digitStep {ldigits rdigits : List UInt32} (h2 : 2 ≤ rdigits.length)
    (hle : rdigits.length ≤ ldigits.length) (hlead : 2 ^ 32 ≤ (leadingDigits rdigits).toNat) :
    DigitStep rdigits (divStart ldigits) (leadingDigits ldigits).toNat
        (divFirst rdigits (divStart ldigits)).1 ∧
      ((divFirst rdigits (divStart ldigits)).2 =
        decide ((divFirst rdigits (divStart ldigits)).1.nextdigit = 0)) := by
  have hfits := divStart_fits h2 hle
  have hdividend : (divStart ldigits).dividend = leadingDigits ldigits := rfl
  rw [divFirst, hdividend]
  split_ifs with hlt heq
  · have hlt' := UInt64.lt_iff_toNat_lt.mp hlt
    have hstep := digitStep_div hfits hlead (UInt64.le_iff_toNat_le.mpr hlt'.le)
    refine ⟨hstep, ?_⟩
    -- the quotient is not corrected down to zero
    have hne : (submulBiginthelper rdigits
        { divStart ldigits with
          nextdigit := (leadingDigits ldigits / leadingDigits rdigits).toUInt32
          dividend := leadingDigits ldigits % leadingDigits rdigits }).nextdigit ≠ 0 := by
      intro h0
      have hvalue := hstep.value
      rw [h0, UInt32.toNat_zero, Nat.cast_zero, zero_mul, zero_add] at hvalue
      have hless := hstep.lt
      rw [← hvalue, number_eq_leadingDigits h2] at hless
      have hlow := number_lt (rdigits.take (rdigits.length - 2))
      rw [List.length_take, min_eq_left (by omega)] at hlow
      have := high_le (base_pow_pos (rdigits.length - 2))
        (number_nonneg ((divStart ldigits).top rdigits)) hlow hless
      omega
    exact (decide_eq_false hne).symm
  · have hone : leadingDigits ldigits / leadingDigits rdigits = 1 := by
      rw [← heq, ← UInt64.toNat_inj, UInt64.toNat_div]
      exact Nat.div_self (by omega)
    have hzero : leadingDigits ldigits % leadingDigits rdigits = 0 := by
      rw [← heq, ← UInt64.toNat_inj, UInt64.toNat_mod, Nat.mod_self]
      rfl
    have hstep := digitStep_div hfits hlead
      (show leadingDigits rdigits ≤ leadingDigits ldigits from UInt64.le_iff_toNat_le.mpr (by rw [heq]))
    rw [hone, hzero] at hstep
    exact ⟨hstep, rfl⟩
  · have hge : (leadingDigits ldigits).toNat < (leadingDigits rdigits).toNat := by
      have h1 := mt UInt64.lt_iff_toNat_lt.mpr hlt
      have h3 : (leadingDigits rdigits).toNat ≠ (leadingDigits ldigits).toNat := fun hc =>
        heq (UInt64.toNat_inj.mp hc)
      omega
    exact ⟨digitStep_zero hfits hge, rfl⟩

/-! ## The digits of the remainder -/

/-- `while (modnrdigits2 > 0 && 0 == ldigits[loffset-1])`: the leading zeros in the ring. -/
def skipRing (ldigits : List UInt32) : ℕ → ℕ → ℕ × ℕ
  | 0, loffset => (0, loffset)
  | modnrdigits + 1, loffset =>
    if ldigits.getD (loffset - 1) 0 = 0 then
      skipRing ldigits modnrdigits (if loffset - 1 = 0 then ldigits.length else loffset - 1)
    else (modnrdigits + 1, loffset)

/-- The number of digits of the remainder without the leading zeros, and the offset of the first
one in the ring. -/
def modSize (modnrdigits : ℕ) (state : DivState) : ℕ × ℕ :=
  if (state.dividend >>> 32).toUInt32 = 0 ∧ modnrdigits ≠ 0 then
    if state.dividend.toUInt32 = 0 ∧ modnrdigits - 1 ≠ 0 then
      skipRing state.ldigits (modnrdigits - 2) state.loffset
    else (modnrdigits - 1, state.loffset)
  else (modnrdigits, state.loffset)

/-- The two calls of `memcpy`: the leading `modnrdigits` digits of the ring. -/
def copyRing (ldigits : List UInt32) (modnrdigits loffset : ℕ) : List UInt32 :=
  if loffset < modnrdigits then
    ldigits.drop (ldigits.length - (modnrdigits - loffset)) ++ ldigits.take loffset
  else (ldigits.take loffset).drop (loffset - modnrdigits)

/-- The digits of the remainder as they are stored. -/
def modDigits (modnrdigits : ℕ) (state : DivState) : List UInt32 :=
  let size := modSize modnrdigits state
  if (state.dividend >>> 32).toUInt32 ≠ 0 then
    copyRing state.ldigits (size.1 - 2) size.2 ++
      [state.dividend.toUInt32, (state.dividend >>> 32).toUInt32]
  else if state.dividend.toUInt32 ≠ 0 then
    copyRing state.ldigits (size.1 - 1) size.2 ++ [state.dividend.toUInt32]
  else copyRing state.ldigits size.1 size.2

theorem copyRing_eq {ldigits : List UInt32} {m loffset : ℕ} (hm : m ≤ ldigits.length)
    (hle : loffset ≤ ldigits.length) :
    copyRing ldigits m loffset = (ldigits.rotate loffset).drop (ldigits.length - m) := by
  have hlen : (ldigits.drop loffset).length = ldigits.length - loffset := List.length_drop
  rw [copyRing, List.rotate_eq_drop_append_take hle]
  split_ifs with h
  · rw [List.drop_append_of_le_length (by omega), List.drop_drop]
    congr 2
    omega
  · rw [List.drop_append, List.drop_of_length_le (l := ldigits.drop loffset) (by omega),
      List.nil_append, hlen]
    congr 1
    omega

theorem skipRing_spec {ldigits : List UInt32} {m loffset : ℕ} (hm : m ≤ ldigits.length)
    (hpos : 1 ≤ loffset) (hle : loffset ≤ ldigits.length) :
    (skipRing ldigits m loffset).1 ≤ m ∧ (skipRing ldigits m loffset).2 ≤ ldigits.length ∧
      number (copyRing ldigits (skipRing ldigits m loffset).1 (skipRing ldigits m loffset).2) =
        number (copyRing ldigits m loffset) ∧
      Leading (copyRing ldigits (skipRing ldigits m loffset).1 (skipRing ldigits m loffset).2) := by
  induction m generalizing loffset with
  | zero =>
    rw [skipRing]
    refine ⟨le_rfl, hle, rfl, ?_⟩
    rw [copyRing_eq hm hle, List.drop_of_length_le (by rw [List.length_rotate]; omega)]
    simp [Leading]
  | succ m ih =>
    have hcopy : copyRing ldigits (m + 1) loffset =
        ((ldigits.rotate loffset).dropLast).drop (ldigits.length - (m + 1)) ++
          [ldigits.getD (loffset - 1) 0] := by
      rw [copyRing_eq hm hle]
      nth_rewrite 1 [(rotate_pred hpos hle (0 : UInt32)).1]
      rw [List.drop_append_of_le_length
        (by rw [List.length_dropLast, List.length_rotate]; omega)]
    rw [skipRing]
    by_cases h0 : ldigits.getD (loffset - 1) 0 = 0
    · rw [if_pos h0]
      have hnext := (rotate_pred hpos hle (0 : UInt32)).2
      set next := if loffset - 1 = 0 then ldigits.length else loffset - 1 with hdef
      have hbounds : 1 ≤ next ∧ next ≤ ldigits.length := by
        rw [hdef]
        split_ifs <;> omega
      have hlast : copyRing ldigits m next =
          ((ldigits.rotate loffset).dropLast).drop (ldigits.length - (m + 1)) := by
        rw [copyRing_eq (by omega) hbounds.2, hnext, show ldigits.length - m =
          ldigits.length - (m + 1) + 1 by omega, List.drop_succ_cons]
      obtain ⟨h2, h3, h4, h5⟩ := ih (by omega) hbounds.1 hbounds.2
      refine ⟨by omega, h3, ?_, h5⟩
      rw [h4, hlast, hcopy, h0, number_append]
      simp
    · rw [if_neg h0]
      refine ⟨le_rfl, hle, rfl, ?_⟩
      rw [hcopy, Leading, List.getLast?_concat]
      simpa using h0

theorem length_copyRing {ldigits : List UInt32} {m loffset : ℕ} (hm : m ≤ ldigits.length)
    (hle : loffset ≤ ldigits.length) : (copyRing ldigits m loffset).length = m := by
  rw [copyRing_eq hm hle, List.length_drop, List.length_rotate]
  omega

theorem modDigits_number {m : ℕ} {state : DivState} (h2 : 2 ≤ m)
    (hm : m ≤ state.ldigits.length + 2) (hpos : 1 ≤ state.loffset)
    (hle : state.loffset ≤ state.ldigits.length) :
    (modDigits m state).length = (modSize m state).1 ∧ (modSize m state).1 ≤ m ∧
      Leading (modDigits m state) ∧
      number (modDigits m state) =
        number (copyRing state.ldigits (m - 2) state.loffset) +
          base ^ (m - 2) * state.dividend.toNat := by
  have hsplit := split64_value state.dividend
  rw [split64] at hsplit
  have hcopy : ∀ k ≤ state.ldigits.length,
      (copyRing state.ldigits k state.loffset).length = k := fun k hk => length_copyRing hk hle
  by_cases hhigh : (state.dividend >>> 32).toUInt32 = 0
  · rw [hhigh, UInt32.toNat_zero, Nat.cast_zero, mul_zero, add_zero] at hsplit
    by_cases hlow : state.dividend.toUInt32 = 0
    · have hsize : modSize m state = skipRing state.ldigits (m - 2) state.loffset := by
        rw [modSize, if_pos ⟨hhigh, by omega⟩]
        split_ifs with h
        · rfl
        · exact absurd ⟨hlow, by omega⟩ h
      rw [modDigits, if_neg (not_not.mpr hhigh), if_neg (not_not.mpr hlow), hsize]
      obtain ⟨h3, h4, h5, h6⟩ := skipRing_spec (m := m - 2) (by omega) hpos hle
      refine ⟨length_copyRing (by omega) h4, by omega, h6, ?_⟩
      rw [h5, ← hsplit, hlow, UInt32.toNat_zero, Nat.cast_zero, mul_zero, add_zero]
    · have hsize : modSize m state = (m - 1, state.loffset) := by
        rw [modSize, if_pos ⟨hhigh, by omega⟩, if_neg fun h => hlow h.1]
      rw [modDigits, if_neg (not_not.mpr hhigh), if_pos hlow, hsize, show m - 1 - 1 = m - 2 by omega]
      refine ⟨?_, by omega, ?_, ?_⟩
      · rw [List.length_append, hcopy _ (by omega), List.length_singleton]
        omega
      · rw [Leading, List.getLast?_concat]
        simpa using hlow
      · rw [number_append, hcopy _ (by omega), ← hsplit]
        simp
  · have hsize : modSize m state = (m, state.loffset) := by
      rw [modSize, if_neg fun h => hhigh h.1]
    rw [modDigits, if_pos hhigh, hsize]
    refine ⟨?_, le_rfl, ?_, ?_⟩
    · rw [List.length_append, hcopy _ (by omega)]
      simp only [List.length_cons, List.length_nil]
      omega
    · rw [Leading, List.getLast?_append_of_ne_nil _ (by simp)]
      simpa using hhigh
    · rw [number_append, hcopy _ (by omega), ← hsplit]
      simp

theorem modDigits_total {rdigits : List UInt32} {m : ℕ} {state : DivState}
    (h : state.Fits rdigits) (h2 : 2 ≤ m) (hm : m ≤ state.ldigits.length) :
    number (modDigits m state) = state.total / base ^ (state.ldigits.length + 2 - m) := by
  set n := state.ldigits.length with hn
  have hcells := number_take_add_drop (n - (m - 2)) state.window
    (by rw [DivState.length_window]; omega)
  have hlow : number (state.window.take (n - (m - 2))) < base ^ (n - (m - 2)) := by
    refine (number_lt _).trans_le (pow_le_pow_right₀ (by rw [base_eq]; norm_num) ?_)
    rw [List.length_take]
    exact min_le_left _ _
  have hexp : n + 2 - m = n - (m - 2) := by omega
  have htotal : state.total = number (state.window.take (n - (m - 2))) +
      base ^ (n - (m - 2)) * number (modDigits m state) := by
    rw [(modDigits_number h2 (by omega) h.loffset_pos h.loffset_le).2.2.2,
      copyRing_eq (by omega) h.loffset_le, DivState.total, ← hcells, ← hn,
      show n = n - (m - 2) + (m - 2) by omega, pow_add]
    rw [show n - (m - 2) + (m - 2) - (m - 2) = n - (m - 2) by omega]
    change number _ + _ * number (state.window.drop _) + _ =
      number _ + _ * (number (state.window.drop _) + _)
    ring
  rw [hexp, htotal, Int.add_mul_ediv_left _ _ (base_pow_pos _).ne',
    Int.ediv_eq_zero_of_lt (number_nonneg _) hlow, zero_add]

/-! ## `divmod_biginthelper` -/

/-- How a result is stored: without digits it is cleared, and its exponent is kept otherwise. -/
def store (big : Bigint) (isNegSign : Bool) (nrdigits : ℕ) (ds : List UInt32) : Bigint :=
  if nrdigits = 0 then clearBigint big
  else
    { big with
      signAndUsedDigits := int16 (if isNegSign then -(nrdigits : ℤ) else nrdigits)
      digits := big.write ds }

/-- The digits of the quotient with their number, and the state at the end.  Both counters are of
type `uint16_t`. -/
def divDigits (divnrdigits : ℕ) (ldigits rdigits : List UInt32) : ℕ × DivState × List UInt32 :=
  let first := divFirst rdigits (divStart ldigits)
  let divnrdigits := if first.2 then uint16 ((divnrdigits : ℤ) - 1) else divnrdigits
  if first.1.nextdigit ≠ 0 then
    (divnrdigits,
      divLoop rdigits (uint16 ((divnrdigits : ℤ) - 1)) first.1 [first.1.nextdigit])
  else (divnrdigits, divLoop rdigits divnrdigits first.1 [])

/-- `divmod_biginthelper`. -/
def divmodBiginthelper (divresult modresult : Option Bigint) (divnrdigits modnrdigits : ℕ)
    (divsign lsign : Bool) (ldigits rdigits : List UInt32) : Option Bigint × Option Bigint :=
  let (divnrdigits, state, divdigits) := divDigits divnrdigits ldigits rdigits
  (divresult.map fun big => big.store divsign divnrdigits divdigits,
    modresult.map fun big =>
      big.store lsign (modSize modnrdigits state).1 (modDigits modnrdigits state))

theorem store_represents {big : Bigint} (isNegSign : Bool) {ds : List UInt32}
    (he : big.exponent ≤ UINT16_MAX) (hs : ds.length ≤ INT16_MAX) (hl : Leading ds) :
    (big.store isNegSign ds.length ds).Represents isNegSign
      (number ds * base ^ big.exponent) := by
  rw [store]
  by_cases h0 : ds.length = 0
  · rw [if_pos h0, List.length_eq_zero_iff.mp h0, number_nil, zero_mul]
    exact ⟨clearBigint_wellFormed big, by rw [clearBigint_value, mul_zero]⟩
  · rw [if_neg h0]
    have h := assign_represents big isNegSign hs le_rfl he (by rwa [List.take_length])
      (Nat.pos_of_ne_zero h0) (by rw [List.take_length])
    rwa [assign, uint16_of_le he] at h

theorem divDigits_spec {ldigits rdigits : List UInt32} (h2 : 2 ≤ rdigits.length)
    (hle : rdigits.length ≤ ldigits.length) (hr : Leading rdigits) {divnrdigits k : ℕ}
    (hk : k = uint16 ((divnrdigits : ℤ) - 1)) (hnr : divnrdigits ≤ UINT16_MAX) :
    let r := divDigits divnrdigits ldigits rdigits
    let y := number rdigits * base ^ (ldigits.length - (rdigits.length - 2))
    r.2.1.Fits rdigits ∧ r.2.1.ldigits.length = ldigits.length ∧
      base ^ (k + 2) * number ldigits = number r.2.2 * y + r.2.1.total ∧ r.2.1.total < y ∧
      (r.2.2.length = k ∨ r.2.2.length = k + 1 ∧ Leading r.2.2) ∧
      (divnrdigits ≠ 0 → r.1 = r.2.2.length) := by
  have hlead := base_le_leadingDigits hr h2
  obtain ⟨hstep, hflag⟩ := divFirst_digitStep h2 hle hlead
  have hlen := hstep.length_eq.trans (divStart_length ldigits)
  have hplace : (divFirst rdigits (divStart ldigits)).1.place rdigits =
      ldigits.length - (rdigits.length - 2) := by rw [DivState.place, hlen]
  have hfirst : base ^ 2 * number ldigits =
      (divFirst rdigits (divStart ldigits)).1.nextdigit.toNat *
        (number rdigits * base ^ (ldigits.length - (rdigits.length - 2))) +
          (divFirst rdigits (divStart ldigits)).1.total := by
    rw [← divStart_total (h2.trans hle), ← mul_assoc]
    have h := hstep.total_eq (divStart_fits h2 hle)
    rw [DivState.place, divStart_length] at h
    rw [DivState.total, divStart_length]
    exact h
  dsimp only
  rw [divDigits, hflag]
  set first := (divFirst rdigits (divStart ldigits)).1 with hdef
  have hinv : DivInv rdigits first := ⟨hstep.fits, hstep.lt⟩
  have htotal_lt : ∀ {state : DivState}, DivInv rdigits state →
      state.ldigits.length = ldigits.length →
      state.total < number rdigits * base ^ (ldigits.length - (rdigits.length - 2)) := by
    intro state h hl
    have := h.total_lt
    rwa [DivState.place, hl, mul_comm] at this
  by_cases h0 : first.nextdigit = 0
  · simp only [h0, decide_true, if_true, ne_eq, not_true, if_false, ← hk]
    obtain ⟨h1, h3, ⟨ds, hds, hdslen⟩, h4⟩ := divLoop_spec hlead k [] hinv
    rw [List.append_nil] at hds
    rw [hplace, number_nil, zero_mul, zero_add] at h4
    rw [h0, UInt32.toNat_zero, Nat.cast_zero, zero_mul, zero_add] at hfirst
    refine ⟨h1.fits, h3.trans hlen, ?_, htotal_lt h1 (h3.trans hlen), .inl (hds ▸ hdslen),
      fun _ => (hds ▸ hdslen).symm⟩
    rw [pow_add, mul_assoc, hfirst, h4]
  · simp only [h0, decide_false, Bool.false_eq_true, if_false, ne_eq, not_false_iff, if_true, ← hk]
    obtain ⟨h1, h3, ⟨ds, hds, hdslen⟩, h4⟩ := divLoop_spec hlead k [first.nextdigit] hinv
    have hlength : (divLoop rdigits k first [first.nextdigit]).2.length = k + 1 := by
      rw [hds, List.length_append, hdslen, List.length_singleton]
    rw [hplace, number_cons, number_nil, mul_zero, add_zero] at h4
    refine ⟨h1.fits, h3.trans hlen, ?_, htotal_lt h1 (h3.trans hlen), .inr ⟨hlength, ?_⟩, ?_⟩
    · rw [pow_add, mul_assoc, hfirst, h4]
    · rw [hds, Leading, List.getLast?_concat]
      simpa using h0
    · intro hne
      rw [hlength, hk, uint16]
      rw [UINT16_MAX] at hnr
      omega

/-! ## `divmodui32_biginthelper` -/

/-- Two digits divided by one. -/
def divui32Digit (divisor dhigh digit : UInt32) : UInt32 × UInt32 :=
  let d := (dhigh.toUInt64 <<< 32) + digit.toUInt64
  ((d / divisor.toUInt64).toUInt32, (d % divisor.toUInt64).toUInt32)

/-- `while (minnrdigits--)`: the digits from the most significant one down.  The result is the
quotient, and `dhigh` at the end. -/
def divui32Digits (divisor dhigh : UInt32) : List UInt32 → List UInt32 × UInt32
  | [] => ([], dhigh)
  | digit :: ldigits =>
    let high := divui32Digits divisor dhigh ldigits
    let d := divui32Digit divisor high.2 digit
    (d.1 :: high.1, d.2)

/-- `for (; dhigh && nrzerodigits; --nrzerodigits)`, and the zeros of `memset`. -/
def divui32Zeros (divisor : UInt32) : ℕ → UInt32 → List UInt32 → List UInt32 × UInt32
  | 0, dhigh, divdigits => (divdigits, dhigh)
  | nrzerodigits + 1, dhigh, divdigits =>
    if dhigh = 0 then (List.replicate (nrzerodigits + 1) 0 ++ divdigits, 0)
    else
      let d := divui32Digit divisor dhigh 0
      divui32Zeros divisor nrzerodigits d.2 (d.1 :: divdigits)

/-- The number of digits of the quotient, and the number of digits of the dividend that are left,
if the leading one is smaller than the divisor. -/
def divui32Size (divnrdigits : ℕ) (ldigits : List UInt32) (divisor : UInt32) : ℕ × ℕ :=
  if ldigits.getD (ldigits.length - 1) 0 < divisor then
    (uint16 ((divnrdigits : ℤ) - 1), ldigits.length - 1)
  else (divnrdigits, ldigits.length)

/-- The size and the digits of the quotient, and the digits of the remainder. -/
def divui32 (divnrdigits : ℕ) (ldigits : List UInt32) (divisor : UInt32) :
    ℕ × List UInt32 × List UInt32 :=
  let top := ldigits.getD (ldigits.length - 1) 0
  let dhigh := if top < divisor then top else 0
  let size := divui32Size divnrdigits ldigits divisor
  let minnrdigits := min size.1 size.2
  let quot := divui32Digits divisor dhigh
    ((ldigits.take size.2).drop (size.2 - minnrdigits))
  let zeros := divui32Zeros divisor (size.1 - minnrdigits) quot.2 quot.1
  (size.1, zeros.1,
    if zeros.2 = 0 then ldigits.take (skipLeadingZero ldigits (size.2 - minnrdigits))
    else ldigits.take (size.2 - minnrdigits) ++ [zeros.2])

/-- `divmodui32_biginthelper`. -/
def divmodui32Biginthelper (divresult modresult : Option Bigint) (divnrdigits : ℕ)
    (divsign lsign : Bool) (ldigits : List UInt32) (divisor : UInt32) :
    Option Bigint × Option Bigint :=
  let (divnrdigits, divdigits, moddigits) := divui32 divnrdigits ldigits divisor
  (divresult.map fun big => big.store divsign divnrdigits divdigits,
    modresult.map fun big => big.store lsign moddigits.length moddigits)

theorem divui32Digit_spec {divisor dhigh : UInt32} (digit : UInt32)
    (h : dhigh.toNat < divisor.toNat) :
    (divui32Digit divisor dhigh digit).2.toNat < divisor.toNat ∧
      (dhigh.toNat : ℤ) * base + digit.toNat =
        (divui32Digit divisor dhigh digit).1.toNat * divisor.toNat +
          (divui32Digit divisor dhigh digit).2.toNat := by
  have hd := divisor.toNat_lt
  have hx := digit.toNat_lt
  have hvalue := toNat_leadingDigits dhigh digit
  rw [divui32Digit]
  generalize (dhigh.toUInt64 <<< 32) + digit.toUInt64 = d at hvalue ⊢
  have hmod := Nat.mod_lt d.toNat (show 0 < divisor.toNat by omega)
  have hquot : d.toNat / divisor.toNat < 2 ^ 32 := by
    rw [Nat.div_lt_iff_lt_mul (by omega), hvalue]
    calc dhigh.toNat * 2 ^ 32 + digit.toNat < (dhigh.toNat + 1) * 2 ^ 32 := by omega
      _ ≤ divisor.toNat * 2 ^ 32 := Nat.mul_le_mul_right _ h
      _ = 2 ^ 32 * divisor.toNat := mul_comm _ _
  have h1 : (d / divisor.toUInt64).toUInt32.toNat = d.toNat / divisor.toNat := by
    rw [UInt64.toNat_toUInt32, UInt64.toNat_div, UInt32.toNat_toUInt64, Nat.mod_eq_of_lt hquot]
  have h2 : (d % divisor.toUInt64).toUInt32.toNat = d.toNat % divisor.toNat := by
    rw [UInt64.toNat_toUInt32, UInt64.toNat_mod, UInt32.toNat_toUInt64]
    exact Nat.mod_eq_of_lt (by omega)
  dsimp only
  rw [h1, h2]
  refine ⟨hmod, ?_⟩
  have hdiv := Nat.div_add_mod' d.toNat divisor.toNat
  rw [hvalue] at hdiv
  rw [base_eq, hvalue]
  exact_mod_cast hdiv.symm

theorem divui32Digits_spec {divisor dhigh : UInt32} (ldigits : List UInt32)
    (h : dhigh.toNat < divisor.toNat) :
    (divui32Digits divisor dhigh ldigits).2.toNat < divisor.toNat ∧
      (divui32Digits divisor dhigh ldigits).1.length = ldigits.length ∧
      number ldigits + base ^ ldigits.length * dhigh.toNat =
        number (divui32Digits divisor dhigh ldigits).1 * divisor.toNat +
          (divui32Digits divisor dhigh ldigits).2.toNat := by
  induction ldigits with
  | nil => exact ⟨h, rfl, by simp [divui32Digits]⟩
  | cons digit ldigits ih =>
    obtain ⟨h1, h2, h3⟩ := ih
    obtain ⟨h4, h5⟩ := divui32Digit_spec digit h1
    rw [divui32Digits]
    refine ⟨h4, by rw [List.length_cons, List.length_cons, h2], ?_⟩
    dsimp only
    rw [number_cons, number_cons, List.length_cons, pow_succ]
    linear_combination base * h3 + h5

theorem divui32Zeros_spec {divisor dhigh : UInt32} (n : ℕ) (divdigits : List UInt32)
    (h : dhigh.toNat < divisor.toNat) :
    (divui32Zeros divisor n dhigh divdigits).2.toNat < divisor.toNat ∧
      (divui32Zeros divisor n dhigh divdigits).1.length = divdigits.length + n ∧
      base ^ n * (number divdigits * divisor.toNat + dhigh.toNat) =
        number (divui32Zeros divisor n dhigh divdigits).1 * divisor.toNat +
          (divui32Zeros divisor n dhigh divdigits).2.toNat := by
  induction n generalizing dhigh divdigits with
  | zero => exact ⟨h, rfl, by rw [divui32Zeros, pow_zero, one_mul]⟩
  | succ n ih =>
    rw [divui32Zeros]
    split_ifs with h0
    · refine ⟨by rw [UInt32.toNat_zero]; omega, ?_, ?_⟩
      · rw [List.length_append, List.length_replicate, add_comm]
      · dsimp only
        rw [number_append, number_replicate_zero, List.length_replicate, h0]
        simp only [UInt32.toNat_zero]
        push_cast
        ring
    · obtain ⟨h1, h2⟩ := divui32Digit_spec 0 h
      obtain ⟨h3, h4, h5⟩ := ih ((divui32Digit divisor dhigh 0).1 :: divdigits) h1
      refine ⟨h3, by rw [h4, List.length_cons]; omega, ?_⟩
      dsimp only
      rw [← h5, number_cons, pow_succ]
      rw [UInt32.toNat_zero, Nat.cast_zero, add_zero] at h2
      linear_combination base ^ n * h2

theorem leading_getD {ds : List UInt32} (h : Leading ds) (hne : ds ≠ []) :
    0 < (ds.getD (ds.length - 1) 0).toNat := by
  have hlen := List.length_pos_iff.mpr hne
  rw [List.getD_eq_getElem _ _ (by omega), ← List.getLast_eq_getElem hne]
  refine Nat.pos_of_ne_zero fun h0 => h ?_
  rw [List.getLast?_eq_some_getLast hne]
  exact congrArg some (UInt32.toNat_inj.mp (h0.trans UInt32.toNat_zero.symm))

theorem leading_of_dividend {q : List UInt32} {x d m : ℤ} {j k : ℕ} (hd : 0 < d)
    (hx : x = number q * (d * base ^ j) + m) (hm : m < d * base ^ j)
    (hk : q.length = k + 1) (hle : d * base ^ (k + j) ≤ x) : Leading q := by
  refine leading_of_pow_le ?_
  rw [hk, Nat.add_sub_cancel]
  have hpos : 0 < d * base ^ j := mul_pos hd (base_pow_pos j)
  have h1 : base ^ k * (d * base ^ j) < (number q + 1) * (d * base ^ j) := by
    rw [pow_add] at hle
    linarith
  have := lt_of_mul_lt_mul_right h1 hpos.le
  omega

theorem divui32_number (divnrdigits : ℕ) {ldigits : List UInt32} {divisor : UInt32}
    (hne : ldigits ≠ []) (hd : 0 < divisor.toNat) :
    let r := divui32 divnrdigits ldigits divisor
    let size := divui32Size divnrdigits ldigits divisor
    r.1 = size.1 ∧ r.2.1.length = size.1 ∧ Leading r.2.2 ∧
      base ^ (size.1 - size.2) * number ldigits =
        number r.2.1 * (divisor.toNat * base ^ (size.2 - size.1)) + number r.2.2 ∧
      number r.2.2 < divisor.toNat * base ^ (size.2 - size.1) := by
  dsimp only
  rw [divui32]
  dsimp only
  set top := ldigits.getD (ldigits.length - 1) 0 with htop
  set size := divui32Size divnrdigits ldigits divisor with hsize
  set dhigh : UInt32 := if top < divisor then top else 0 with hdhigh
  have hdhigh_lt : dhigh.toNat < divisor.toNat := by
    rw [hdhigh]
    split_ifs with h
    · exact UInt32.lt_iff_toNat_lt.mp h
    · exact hd
  have hlen := List.length_pos_iff.mpr hne
  have hle : size.2 ≤ ldigits.length := by
    rw [hsize, divui32Size]
    split_ifs <;> omega
  have hnumber : number ldigits = number (ldigits.take size.2) + base ^ size.2 * dhigh.toNat := by
    rw [hsize, divui32Size, ← htop, hdhigh]
    split_ifs with h
    · have := number_take_succ (show ldigits.length - 1 < ldigits.length by omega)
      rwa [Nat.sub_add_cancel hlen, List.take_length] at this
    · rw [List.take_length, UInt32.toNat_zero]
      simp
  obtain ⟨j, hj⟩ : ∃ j, j = size.2 - size.1 := ⟨_, rfl⟩
  obtain ⟨z, hz⟩ : ∃ z, z = size.1 - size.2 := ⟨_, rfl⟩
  rw [← hj, ← hz, show size.2 - min size.1 size.2 = j by omega,
    show size.1 - min size.1 size.2 = z by omega]
  have htake : (ldigits.take size.2).take j = ldigits.take j := by
    rw [List.take_take, min_eq_left (by omega)]
  have hsize2 : (ldigits.take size.2).length = size.2 := by
    rw [List.length_take, min_eq_left hle]
  have hdrop : ((ldigits.take size.2).drop j).length = size.2 - j := by
    rw [List.length_drop, hsize2]
  have hsplit := number_take_add_drop j (ldigits.take size.2) (by omega)
  rw [htake] at hsplit
  obtain ⟨h1, h2, h3⟩ := divui32Digits_spec ((ldigits.take size.2).drop j) hdhigh_lt
  obtain ⟨h4, h5, h6⟩ := divui32Zeros_spec z
    (divui32Digits divisor dhigh ((ldigits.take size.2).drop j)).1 h1
  rw [← h3, hdrop] at h6
  rw [h2, hdrop] at h5
  set zeros := divui32Zeros divisor z
    (divui32Digits divisor dhigh ((ldigits.take size.2).drop j)).2
    (divui32Digits divisor dhigh ((ldigits.take size.2).drop j)).1 with hzeros
  -- the low digits are left for the remainder, and then no zero is read
  have hlow : base ^ z * number (ldigits.take j) = number (ldigits.take j) := by
    rcases Nat.eq_zero_or_pos z with hz0 | hzpos
    · rw [hz0, pow_zero, one_mul]
    · rw [show j = 0 by omega, List.take_zero, number_nil, mul_zero]
  have hdividend : base ^ z * number ldigits =
      number zeros.1 * (divisor.toNat * base ^ j) +
        (number (ldigits.take j) + base ^ j * zeros.2.toNat) := by
    have hpow : (base ^ size.2 : ℤ) = base ^ j * base ^ (size.2 - j) := by
      rw [← pow_add, Nat.add_sub_cancel' (by omega)]
    rw [hnumber, ← hsplit, hpow]
    linear_combination hlow + base ^ j * h6
  have hlt : number (ldigits.take j) + base ^ j * zeros.2.toNat < divisor.toNat * base ^ j := by
    have hlow_lt := number_lt (ldigits.take j)
    rw [List.length_take, min_eq_left (by omega)] at hlow_lt
    have := mul_le_mul_of_nonneg_left
      (show (zeros.2.toNat : ℤ) + 1 ≤ divisor.toNat by omega) (base_pow_pos j).le
    linarith
  refine ⟨rfl, by omega, ?_⟩
  split_ifs with h0
  · obtain ⟨_, hnum, hlead⟩ := skipLeadingZero_spec (show j ≤ ldigits.length by omega)
    rw [h0, UInt32.toNat_zero, Nat.cast_zero, mul_zero, add_zero] at hdividend hlt
    rw [hnum]
    exact ⟨hlead, hdividend, hlt⟩
  · have hnum : number (ldigits.take j ++ [zeros.2]) =
        number (ldigits.take j) + base ^ j * zeros.2.toNat := by
      rw [number_append, List.length_take, min_eq_left (by omega), number_cons, number_nil,
        mul_zero, add_zero]
    rw [hnum]
    refine ⟨?_, hdividend, hlt⟩
    rw [Leading, List.getLast?_concat]
    simpa using h0

theorem divui32Size_le (divnrdigits : ℕ) {ldigits : List UInt32} (divisor : UInt32)
    (hl : Leading ldigits) (hne : ldigits ≠ []) :
    (divisor.toNat : ℤ) * base ^ (divui32Size divnrdigits ldigits divisor).2 ≤
      base * number ldigits := by
  have hlen := List.length_pos_iff.mpr hne
  rw [divui32Size]
  split_ifs with h
  · have hd := toNat_add_one_le divisor
    exact mul_le_mul (by omega) (pow_le_number hl hne) (base_pow_pos _).le base_pos.le
  · have htop := number_take_succ (show ldigits.length - 1 < ldigits.length by omega)
    rw [Nat.sub_add_cancel hlen, List.take_length] at htop
    have hle := not_lt.mp fun hlt => h (UInt32.lt_iff_toNat_lt.mpr hlt)
    have hle' : (divisor.toNat : ℤ) ≤ (ldigits.getD (ldigits.length - 1) 0).toNat := by
      exact_mod_cast hle
    have hlow := number_nonneg (ldigits.take (ldigits.length - 1))
    have hpow : (base ^ ldigits.length : ℤ) = base * base ^ (ldigits.length - 1) := by
      rw [← pow_succ', Nat.sub_add_cancel hlen]
    have hmul := mul_le_mul_of_nonneg_left hle' (base_pow_pos (ldigits.length - 1)).le
    dsimp only
    rw [hpow]
    calc (divisor.toNat : ℤ) * (base * base ^ (ldigits.length - 1))
        = base * (base ^ (ldigits.length - 1) * divisor.toNat) := by ring
      _ ≤ base * number ldigits := mul_le_mul_of_nonneg_left (by linarith) base_pos.le

theorem divui32_leading {divnrdigits : ℕ} {ldigits : List UInt32} {divisor : UInt32}
    (hl : Leading ldigits) (hne : ldigits ≠ []) (hd : 0 < divisor.toNat) :
    Leading (divui32 divnrdigits ldigits divisor).2.1 := by
  obtain ⟨_, hqlen, _, hx, hm⟩ := divui32_number divnrdigits hne hd
  have hle := divui32Size_le divnrdigits divisor hl hne
  generalize divui32Size divnrdigits ldigits divisor = size at hqlen hx hm hle
  rcases Nat.eq_zero_or_pos size.1 with h0 | hpos
  · rw [List.length_eq_zero_iff.mp (hqlen.trans h0)]
    simp [Leading]
  · refine leading_of_dividend (k := size.1 - 1) (by exact_mod_cast hd) hx hm (by omega) ?_
    refine le_of_mul_le_mul_left ?_ base_pos
    have hplaces : size.1 - 1 + (size.2 - size.1) + 1 = size.2 + (size.1 - size.2) := by omega
    calc base * (divisor.toNat * base ^ (size.1 - 1 + (size.2 - size.1)))
        = base ^ (size.1 - size.2) * (divisor.toNat * base ^ size.2) := by
          rw [mul_left_comm base, ← pow_succ', hplaces, pow_add]
          ring
      _ ≤ base ^ (size.1 - size.2) * (base * number ldigits) :=
          mul_le_mul_of_nonneg_left hle (base_pow_pos _).le
      _ = base * (base ^ (size.1 - size.2) * number ldigits) := by ring

end Bigint
end CKern
