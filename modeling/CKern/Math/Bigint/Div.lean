import Mathlib.Data.Nat.Bitwise
import CKern.Library.Cyclic
import CKern.Math.Bigint.Mult

/-!
# `math/int/bigint.c`: one digit of a quotient

The long division keeps the two leading digits of the remainder in `dividend` and the others in
an array that is read as a ring.

* `div3by2digitsBiginthelper`: three digits divided by two, bit by bit.
* `submulBiginthelper`: the multiple of the divisor is subtracted, and the digit is corrected if
  it was one too large.
* `divStep`: the digit that one turn of the loop computes, with all special cases.
* `divStep_spec`: every digit is the right one.
-/

namespace CKern
namespace Bigint

open Positional Cyclic

/-- `struct bigint_divstate_t`, without the fields that do not change. -/
structure DivState where
  dividend : UInt64
  nextdigit : UInt32
  loffset : ℕ
  ldigits : List UInt32
  deriving Repr

/-! ## `div3by2digits_biginthelper` -/

/-- One bit of the quotient: `(quot, dividend, nextdigit)`. -/
def div3by2Bit (divisor : UInt64) (s : UInt32 × UInt64 × UInt32) : UInt32 × UInt64 × UInt32 :=
  let quot := s.1 <<< 1
  let isHighbit := s.2.1 &&& 0x8000000000000000 ≠ 0
  let dividend := s.2.1 <<< 1 + if s.2.2 &&& 0x80000000 ≠ 0 then 1 else 0
  let nextdigit := s.2.2 <<< 1
  if isHighbit ∨ divisor ≤ dividend then (quot + 1, dividend - divisor, nextdigit)
  else (quot, dividend, nextdigit)

/-- `div3by2digits_biginthelper`: 32 bits of the quotient. -/
def div3by2digitsBiginthelper (divisor : UInt64) (state : DivState) : DivState :=
  let s := (div3by2Bit divisor)^[32] (0, state.dividend, state.nextdigit)
  { state with dividend := s.2.1, nextdigit := s.1 }

theorem and_high32 (x : UInt32) : x &&& 0x80000000 ≠ 0 ↔ 2 ^ 31 ≤ x.toNat := by
  have hx := x.toNat_lt
  rw [Ne, ← UInt32.toNat_inj, UInt32.toNat_and]
  have h : (0x80000000 : UInt32).toNat = 2 ^ 31 := rfl
  rw [h, Nat.and_two_pow, Nat.testBit_eq_decide_div_mod_eq]
  by_cases hb : x.toNat / 2 ^ 31 % 2 = 1
  · simp only [hb, decide_true, Bool.toNat_true, UInt32.toNat_zero]
    omega
  · simp only [hb, decide_false, Bool.toNat_false, UInt32.toNat_zero]
    omega

theorem and_high64 (x : UInt64) : x &&& 0x8000000000000000 ≠ 0 ↔ 2 ^ 63 ≤ x.toNat := by
  have hx := x.toNat_lt
  rw [Ne, ← UInt64.toNat_inj, UInt64.toNat_and]
  have h : (0x8000000000000000 : UInt64).toNat = 2 ^ 63 := rfl
  rw [h, Nat.and_two_pow, Nat.testBit_eq_decide_div_mod_eq]
  by_cases hb : x.toNat / 2 ^ 63 % 2 = 1
  · simp only [hb, decide_true, Bool.toNat_true, UInt64.toNat_zero]
    omega
  · simp only [hb, decide_false, Bool.toNat_false, UInt64.toNat_zero]
    omega

/-- The invariant of the bit loop after `i` bits: `v` is the three digit number at the start. -/
structure BitInv (d v : ℕ) (i : ℕ) (s : UInt32 × UInt64 × UInt32) : Prop where
  lt : s.2.1.toNat < d
  quot_lt : s.1.toNat < 2 ^ i
  value : s.2.1.toNat * 2 ^ 32 + s.2.2.toNat + s.1.toNat * d * 2 ^ 32 = 2 ^ i * v
  shifted : 2 ^ i ∣ s.2.2.toNat

theorem div3by2Bit_eq (divisor : UInt64) (s : UInt32 × UInt64 × UInt32)
    (hq : s.1.toNat < 2 ^ 31) (hlt : s.2.1.toNat < divisor.toNat) :
    ∃ b : ℕ, b ≤ 1 ∧ (div3by2Bit divisor s).2.2.toNat + b * 2 ^ 32 = 2 * s.2.2.toNat ∧
      (if divisor.toNat ≤ 2 * s.2.1.toNat + b then
        (div3by2Bit divisor s).1.toNat = 2 * s.1.toNat + 1 ∧
          (div3by2Bit divisor s).2.1.toNat + divisor.toNat = 2 * s.2.1.toNat + b
      else (div3by2Bit divisor s).1.toNat = 2 * s.1.toNat ∧
          (div3by2Bit divisor s).2.1.toNat = 2 * s.2.1.toNat + b) := by
  obtain ⟨q, a, n⟩ := s
  dsimp only at hq hlt ⊢
  have ha := a.toNat_lt
  have hn := n.toNat_lt
  have hd := divisor.toNat_lt
  have hn' : (n <<< 1).toNat = 2 * n.toNat % 2 ^ 32 := by
    rw [UInt32.toNat_shiftLeft, Nat.shiftLeft_eq, mul_comm]
    rfl
  have hq' : (q <<< 1).toNat = 2 * q.toNat := by
    rw [UInt32.toNat_shiftLeft, Nat.shiftLeft_eq, mul_comm]
    exact Nat.mod_eq_of_lt (by change 2 * q.toNat < 2 ^ 32; omega)
  have hbit : (if n &&& 0x80000000 ≠ 0 then (1 : UInt64) else 0).toNat =
      if 2 ^ 31 ≤ n.toNat then 1 else 0 := by
    simp only [and_high32]
    split_ifs <;> rfl
  have ha' : (a <<< 1).toNat = 2 * a.toNat % 2 ^ 64 := by
    rw [UInt64.toNat_shiftLeft, Nat.shiftLeft_eq, mul_comm]
    rfl
  have hdiv : (a <<< 1 + if n &&& 0x80000000 ≠ 0 then 1 else 0).toNat =
      2 * a.toNat % 2 ^ 64 + if 2 ^ 31 ≤ n.toNat then 1 else 0 := by
    rw [UInt64.toNat_add, ha', hbit]
    exact Nat.mod_eq_of_lt (by split_ifs <;> omega)
  refine ⟨if 2 ^ 31 ≤ n.toNat then 1 else 0, by split_ifs <;> omega, ?_, ?_⟩
  · have : (div3by2Bit divisor (q, a, n)).2.2 = n <<< 1 := by
      simp only [div3by2Bit]
      split_ifs <;> rfl
    rw [this, hn']
    split_ifs <;> omega
  · have hcond : (a &&& 0x8000000000000000 ≠ 0 ∨
        divisor ≤ a <<< 1 + if n &&& 0x80000000 ≠ 0 then 1 else 0) ↔
          divisor.toNat ≤ 2 * a.toNat + if 2 ^ 31 ≤ n.toNat then 1 else 0 := by
      rw [and_high64, UInt64.le_iff_toNat_le, hdiv]
      split_ifs <;> omega
    by_cases hc : divisor.toNat ≤ 2 * a.toNat + if 2 ^ 31 ≤ n.toNat then 1 else 0
    · rw [if_pos hc]
      simp only [div3by2Bit]
      rw [if_pos (hcond.mpr hc)]
      refine ⟨?_, ?_⟩
      · rw [UInt32.toNat_add, hq']
        exact Nat.mod_eq_of_lt (by change 2 * q.toNat + 1 < 2 ^ 32; omega)
      · rw [UInt64.toNat_sub, hdiv]
        split_ifs at hc ⊢ <;> omega
    · rw [if_neg hc]
      simp only [div3by2Bit]
      rw [if_neg (fun h => hc (hcond.mp h))]
      refine ⟨hq', ?_⟩
      rw [hdiv]
      split_ifs at hc ⊢ <;> omega

theorem div3by2Bit_inv {divisor : UInt64} {v i : ℕ} {s : UInt32 × UInt64 × UInt32} (hi : i < 32)
    (h : BitInv divisor.toNat v i s) : BitInv divisor.toNat v (i + 1) (div3by2Bit divisor s) := by
  have hpow' : 2 ^ (i + 1) * v = 2 * (2 ^ i * v) := by ring
  have hpow : 2 ^ i ≤ 2 ^ 31 := Nat.pow_le_pow_right (by norm_num) (by omega)
  obtain ⟨b, hb, hnext, hcase⟩ := div3by2Bit_eq divisor s (h.quot_lt.trans_le hpow) h.lt
  have hq := h.quot_lt
  have hv := h.value
  have hlt := h.lt
  have hdvd : 2 ^ (i + 1) ∣ (div3by2Bit divisor s).2.2.toNat := by
    have h1 : 2 ^ (i + 1) ∣ 2 * s.2.2.toNat := by
      rw [pow_succ']
      exact Nat.mul_dvd_mul_left 2 h.shifted
    have h2 : 2 ^ (i + 1) ∣ b * 2 ^ 32 := (pow_dvd_pow 2 (by omega)).mul_left b
    rw [← hnext] at h1
    exact (Nat.dvd_add_left h2).mp h1
  split_ifs at hcase with hc
  · obtain ⟨hq', ha'⟩ := hcase
    refine ⟨by omega, by rw [hq', pow_succ]; omega, ?_, hdvd⟩
    have h1 : (div3by2Bit divisor s).1.toNat * divisor.toNat =
        2 * (s.1.toNat * divisor.toNat) + divisor.toNat := by
      rw [hq']
      ring
    linarith
  · obtain ⟨hq', ha'⟩ := hcase
    refine ⟨by omega, by rw [hq', pow_succ]; omega, ?_, hdvd⟩
    have h1 : (div3by2Bit divisor s).1.toNat * divisor.toNat =
        2 * (s.1.toNat * divisor.toNat) := by
      rw [hq']
      ring
    linarith

/-- **Three digits by two**: quotient and remainder. -/
theorem div3by2digitsBiginthelper_spec {divisor : UInt64} {s : DivState}
    (h : s.dividend.toNat < divisor.toNat) :
    (div3by2digitsBiginthelper divisor s).dividend.toNat < divisor.toNat ∧
      s.dividend.toNat * 2 ^ 32 + s.nextdigit.toNat =
        (div3by2digitsBiginthelper divisor s).nextdigit.toNat * divisor.toNat +
          (div3by2digitsBiginthelper divisor s).dividend.toNat := by
  have hinv : ∀ i ≤ 32, BitInv divisor.toNat (s.dividend.toNat * 2 ^ 32 + s.nextdigit.toNat) i
      ((div3by2Bit divisor)^[i] (0, s.dividend, s.nextdigit)) := by
    intro i
    induction i with
    | zero => exact fun _ => ⟨h, by simp, by simp, by simp⟩
    | succ i ih =>
      intro hi
      rw [Function.iterate_succ_apply']
      exact div3by2Bit_inv (by omega) (ih (by omega))
  have h32 := hinv 32 le_rfl
  rw [div3by2digitsBiginthelper]
  generalize (div3by2Bit divisor)^[32] (0, s.dividend, s.nextdigit) = s' at h32 ⊢
  obtain ⟨hlt, _, hv, hdvd⟩ := h32
  have hzero : s'.2.2.toNat = 0 := Nat.eq_zero_of_dvd_of_lt hdvd s'.2.2.toNat_lt
  refine ⟨hlt, Nat.eq_of_mul_eq_mul_left (Nat.two_pow_pos 32) ?_⟩
  simp only [hzero] at hv ⊢
  linarith

/-! ## The digits of `submul_biginthelper` -/

/-- `nextdigit > 1`: a multiple is subtracted. -/
def submulDigit (nextdigit carry : UInt32) (d : UInt32 × UInt32) : UInt32 × UInt32 :=
  let product := d.2.toUInt64 * nextdigit.toUInt64 + carry.toUInt64
  (d.1 - product.toUInt32,
    (if d.1 < product.toUInt32 then (1 : UInt32) else 0) + (product >>> 32).toUInt32)

/-- `nextdigit == 1`: no multiplication is needed; the difference is of type `int64_t`. -/
def subOneDigit (carry : UInt32) (d : UInt32 × UInt32) : UInt32 × UInt32 :=
  let diff : ℤ := d.1.toNat - d.2.toNat - carry.toNat
  (UInt32.ofNat (diff % 2 ^ 32).toNat, if diff < 0 then 1 else 0)

/-- `nextdigit == 0`: the multiple with `UINT32_MAX` is subtracted.  The state is the signed carry,
increased by one, and the last digit of the divisor. -/
def submaxDigit (c : UInt32 × UInt32) (d : UInt32 × UInt32) : UInt32 × (UInt32 × UInt32) :=
  let diff := d.1.toUInt64 + d.2.toUInt64 - c.2.toUInt64 + c.1.toUInt64 - 1
  (diff.toUInt32, ((diff >>> 32).toUInt32 + 1, d.2))

/-- The correction: the divisor is added once. -/
def correctDigit (carry : UInt32) (d : UInt32 × UInt32) : UInt32 × UInt32 :=
  split64 (d.1.toUInt64 + d.2.toUInt64 + carry.toUInt64)

theorem submulDigit_value (nextdigit carry : UInt32) (d : UInt32 × UInt32) :
    ((submulDigit nextdigit carry d).1.toNat : ℤ) +
        base * -((submulDigit nextdigit carry d).2.toNat : ℤ) =
      (d.1.toNat - nextdigit.toNat * d.2.toNat) + -(carry.toNat : ℤ) := by
  obtain ⟨l, r⟩ := d
  have h := toNat_mul_add_add r nextdigit carry 0
  have h0 : (0 : UInt32).toUInt64 = 0 := rfl
  rw [h0, UInt64.add_zero, UInt32.toNat_zero, Nat.add_zero] at h
  have hsplit := split64_value (r.toUInt64 * nextdigit.toUInt64 + carry.toUInt64)
  have hl := l.toNat_lt
  have hr : r.toNat * nextdigit.toNat ≤ (2 ^ 32 - 1) * (2 ^ 32 - 1) :=
    Nat.mul_le_mul (by have := r.toNat_lt; omega) (by have := nextdigit.toNat_lt; omega)
  have hc := carry.toNat_lt
  simp only [submulDigit, split64] at *
  generalize r.toUInt64 * nextdigit.toUInt64 + carry.toUInt64 = product at h hsplit ⊢
  have hlow := product.toUInt32.toNat_lt
  have hhigh := (product >>> 32).toUInt32.toNat_lt
  rw [h, base_eq] at hsplit
  rw [base_eq, UInt32.toNat_sub, UInt32.toNat_add]
  push_cast at hsplit
  have hcomm : (nextdigit.toNat : ℤ) * r.toNat = r.toNat * nextdigit.toNat := mul_comm _ _
  have hprod : ((r.toNat * nextdigit.toNat : ℕ) : ℤ) = r.toNat * nextdigit.toNat := by push_cast; rfl
  rw [hcomm, ← hprod]
  rw [← hprod] at hsplit
  generalize r.toNat * nextdigit.toNat = p at hsplit hr ⊢
  have hif : (if l < product.toUInt32 then (1 : UInt32) else 0).toNat =
      if l.toNat < product.toUInt32.toNat then 1 else 0 := by
    simp only [UInt32.lt_iff_toNat_lt]
    split_ifs <;> rfl
  rw [hif]
  split_ifs <;> omega

theorem toNat_sub_digits {x : ℤ} (h1 : -(2 ^ 32 : ℤ) ≤ x) (h2 : x < 2 ^ 32) :
    ((UInt32.ofNat (x % 2 ^ 32).toNat).toNat : ℤ) = if x < 0 then x + 2 ^ 32 else x := by
  rw [UInt32.toNat_ofNat']
  split_ifs <;> omega

theorem subOneDigit_value {carry : UInt32} (hc : carry.toNat ≤ 1) (d : UInt32 × UInt32) :
    ((subOneDigit carry d).1.toNat : ℤ) + base * -((subOneDigit carry d).2.toNat : ℤ) =
      (d.1.toNat - (1 : ℕ) * d.2.toNat) + -(carry.toNat : ℤ) := by
  have hl := d.1.toNat_lt
  have hr := d.2.toNat_lt
  rw [subOneDigit, base_eq]
  dsimp only
  rw [toNat_sub_digits (by omega) (by omega)]
  split_ifs <;> simp only [UInt32.toNat_one, UInt32.toNat_zero] <;> omega

theorem subOneDigit_carry (carry : UInt32) (d : UInt32 × UInt32) :
    (subOneDigit carry d).2.toNat ≤ 1 := by
  rw [subOneDigit]
  dsimp only
  split_ifs <;> decide

theorem correctDigit_value (carry : UInt32) (d : UInt32 × UInt32) :
    ((correctDigit carry d).1.toNat : ℤ) + base * (correctDigit carry d).2.toNat =
      (d.1.toNat + d.2.toNat) + carry.toNat := by
  have hl := d.1.toNat_lt
  have hr := d.2.toNat_lt
  have hc := carry.toNat_lt
  rw [correctDigit, split64_value, UInt64.toNat_add, UInt64.toNat_add, UInt32.toNat_toUInt64,
    UInt32.toNat_toUInt64, UInt32.toNat_toUInt64]
  omega

theorem submaxDigit_value {c : UInt32 × UInt32} (hc : c.1.toNat ≤ 2) (d : UInt32 × UInt32) :
    ((submaxDigit c d).1.toNat : ℤ) +
        base * (((submaxDigit c d).2.1.toNat : ℤ) - 1 - (submaxDigit c d).2.2.toNat) =
      (d.1.toNat - (2 ^ 32 - 1 : ℕ) * d.2.toNat) + ((c.1.toNat : ℤ) - 1 - c.2.toNat) ∧
    (submaxDigit c d).2.1.toNat ≤ 2 := by
  have hl := d.1.toNat_lt
  have hr := d.2.toNat_lt
  have hlast := c.2.toNat_lt
  have hdiff : (d.1.toUInt64 + d.2.toUInt64 - c.2.toUInt64 + c.1.toUInt64 - 1).toNat =
      (d.1.toNat + d.2.toNat + (2 ^ 64 - c.2.toNat) + c.1.toNat + (2 ^ 64 - 1)) % 2 ^ 64 := by
    rw [UInt64.toNat_sub, UInt64.toNat_add, UInt64.toNat_sub, UInt64.toNat_add,
      UInt32.toNat_toUInt64, UInt32.toNat_toUInt64, UInt32.toNat_toUInt64, UInt32.toNat_toUInt64,
      UInt64.toNat_one]
    omega
  have hsplit := split64_value (d.1.toUInt64 + d.2.toUInt64 - c.2.toUInt64 + c.1.toUInt64 - 1)
  simp only [submaxDigit, split64] at *
  generalize d.1.toUInt64 + d.2.toUInt64 - c.2.toUInt64 + c.1.toUInt64 - 1 = diff at *
  have hlow := diff.toUInt32.toNat_lt
  have hhigh := (diff >>> 32).toUInt32.toNat_lt
  rw [hdiff, base_eq] at hsplit
  rw [base_eq, UInt32.toNat_add, UInt32.toNat_one]
  omega

/-! ## `submul_biginthelper` -/

/-- The two leading digits of an array. -/
def leadingDigits (digits : List UInt32) : UInt64 :=
  ((digits.getD (digits.length - 1) 0).toUInt64 <<< 32) +
    (digits.getD (digits.length - 2) 0).toUInt64

namespace DivState

/-- The digits of the ring, the least significant one first: the digit that is read next is the
last one. -/
def window (state : DivState) : List UInt32 := state.ldigits.rotate state.loffset

/-- The index where the loops of `submul_biginthelper` start. -/
def firstIndex (state : DivState) (rnrdigits : ℕ) : ℕ :=
  if state.loffset + 2 < rnrdigits then state.loffset + 2 + state.ldigits.length - rnrdigits
  else state.loffset + 2 - rnrdigits

/-- The loops of `submul_biginthelper`: they end at `loffset`, after `rnrdigits - 2` digits. -/
def pass {κ : Type} (step : κ → UInt32 × UInt32 → UInt32 × κ) (c : κ) (rdigits : List UInt32)
    (state : DivState) : DivState × κ :=
  let p := ringPass 0 step state.ldigits (state.firstIndex rdigits.length) c
    (rdigits.take (rdigits.length - 2))
  ({ state with ldigits := p.1 }, p.2)

/-- The end of `submul_biginthelper`: the carry is subtracted, or the digit is corrected. -/
def correct (rdigits : List UInt32) (carry : UInt32) (state : DivState) : DivState :=
  if carry.toUInt64 ≤ state.dividend then
    { state with dividend := state.dividend - carry.toUInt64 }
  else
    let p := { state with nextdigit := state.nextdigit - 1 }.pass correctDigit 0 rdigits
    { p.1 with
      dividend := state.dividend - carry.toUInt64 + leadingDigits rdigits + p.2.toUInt64 }

end DivState

/-- `submul_biginthelper`. -/
def submulBiginthelper (rdigits : List UInt32) (state : DivState) : DivState :=
  if 2 < rdigits.length then
    if 1 < state.nextdigit then
      let p := state.pass (submulDigit state.nextdigit) 0 rdigits
      p.1.correct rdigits p.2
    else if state.nextdigit ≠ 0 then
      let p := state.pass subOneDigit 0 rdigits
      p.1.correct rdigits p.2
    else
      -- no correction is needed
      let p := state.pass submaxDigit (1, 0) rdigits
      { p.1 with
        dividend := p.1.dividend - p.2.2.toUInt64 - 1 + p.2.1.toUInt64
        nextdigit := p.1.nextdigit - 1 }.correct rdigits 0
  else state

/-- The number of digits of the divisor below its two leading ones fits into the ring. -/
structure DivState.Fits (state : DivState) (rdigits : List UInt32) : Prop where
  two_le : 2 ≤ rdigits.length
  le_length : rdigits.length ≤ state.ldigits.length
  loffset_pos : 1 ≤ state.loffset
  loffset_le : state.loffset ≤ state.ldigits.length

/-- The digits of the ring that belong to the remainder. -/
def DivState.top (state : DivState) (rdigits : List UInt32) : List UInt32 :=
  state.window.drop (state.ldigits.length - (rdigits.length - 2))

/-- The digits of the ring that were not read yet, and the zeros behind them. -/
def DivState.low (state : DivState) (rdigits : List UInt32) : List UInt32 :=
  state.window.take (state.ldigits.length - (rdigits.length - 2))

theorem DivState.length_window (state : DivState) :
    state.window.length = state.ldigits.length := List.length_rotate _ _

theorem DivState.length_top {state : DivState} {rdigits : List UInt32}
    (h : state.Fits rdigits) : (state.top rdigits).length = rdigits.length - 2 := by
  have := h.le_length
  have := h.two_le
  rw [top, List.length_drop, length_window]
  omega

theorem DivState.pass_spec {κ : Type} (step : κ → UInt32 × UInt32 → UInt32 × κ) (c : κ)
    {rdigits : List UInt32} {state : DivState} (h : state.Fits rdigits) :
    (state.pass step c rdigits).1.Fits rdigits ∧
      (state.pass step c rdigits).1.low rdigits = state.low rdigits ∧
      (state.pass step c rdigits).1.top rdigits =
        (chain step c ((state.top rdigits).zip (rdigits.take (rdigits.length - 2)))).1 ∧
      (state.pass step c rdigits).2 =
        (chain step c ((state.top rdigits).zip (rdigits.take (rdigits.length - 2)))).2 := by
  obtain ⟨h2, hle, hpos, hoff⟩ := h
  have hlen : (state.ldigits.length - (rdigits.length - 2)) +
      (rdigits.take (rdigits.length - 2)).length = state.ldigits.length := by
    rw [List.length_take]
    omega
  have hidx : state.firstIndex rdigits.length % state.ldigits.length =
      (state.ldigits.length - (rdigits.length - 2) + state.loffset) % state.ldigits.length := by
    rw [firstIndex]
    split_ifs with hlt
    · congr 1
      omega
    · rw [← Nat.add_mod_right (state.loffset + 2 - rdigits.length)]
      congr 1
      omega
  have hile : state.firstIndex rdigits.length ≤ state.ldigits.length := by
    rw [firstIndex]
    split_ifs <;> omega
  obtain ⟨hw, hc⟩ := ringPass_rotate 0 step c hlen hidx hile
  have hlen' : (state.pass step c rdigits).1.ldigits.length = state.ldigits.length :=
    ringPass_length _ _ _ _ _ _
  have htake : (state.ldigits.rotate state.loffset).take
      (state.ldigits.length - (rdigits.length - 2)) = state.low rdigits := rfl
  have hlow : (state.low rdigits).length = state.ldigits.length - (rdigits.length - 2) := by
    rw [low, List.length_take, length_window]
    omega
  refine ⟨⟨h2, hlen'.symm ▸ hle, hpos, hlen'.symm ▸ hoff⟩, ?_, ?_, hc⟩
  · rw [low, hlen']
    change ((ringPass 0 step state.ldigits _ c _).1.rotate state.loffset).take _ = _
    rw [hw, htake, List.take_append_of_le_length hlow.ge, ← hlow, List.take_length]
  · rw [top, hlen']
    change ((ringPass 0 step state.ldigits _ c _).1.rotate state.loffset).drop _ = _
    rw [hw, htake, List.drop_append_of_le_length hlow.ge, ← hlow, List.drop_length, List.nil_append,
      hlow]
    rfl

/-! ## The next digit is right -/

theorem toNat_leadingDigits (a b : UInt32) :
    ((a.toUInt64 <<< 32) + b.toUInt64).toNat = a.toNat * 2 ^ 32 + b.toNat := by
  have ha := a.toNat_lt
  have hb := b.toNat_lt
  rw [UInt64.toNat_add, UInt64.toNat_shiftLeft, UInt32.toNat_toUInt64, UInt32.toNat_toUInt64,
    Nat.shiftLeft_eq]
  have h32 : (32 : UInt64).toNat % 64 = 32 := rfl
  rw [h32]
  omega

theorem toNat_shiftLeft_add {x : UInt64} (h : x.toNat < 2 ^ 32) (d : UInt32) :
    ((x <<< 32) + d.toUInt64).toNat = x.toNat * 2 ^ 32 + d.toNat := by
  have hd := d.toNat_lt
  have h32 : (32 : UInt64).toNat % 64 = 32 := rfl
  rw [UInt64.toNat_add, UInt64.toNat_shiftLeft, UInt32.toNat_toUInt64, h32, Nat.shiftLeft_eq]
  omega

theorem number_eq_leadingDigits {ds : List UInt32} (h : 2 ≤ ds.length) :
    number ds = number (ds.take (ds.length - 2)) +
      base ^ (ds.length - 2) * (leadingDigits ds).toNat := by
  have h1 := number_take_succ (show ds.length - 2 < ds.length by omega)
  have h2 := number_take_succ (show ds.length - 2 + 1 < ds.length by omega)
  rw [show ds.length - 2 + 1 + 1 = ds.length by omega, List.take_length, h1,
    show ds.length - 2 + 1 = ds.length - 1 by omega] at h2
  rw [h2, leadingDigits, toNat_leadingDigits, show ds.length - 1 = ds.length - 2 + 1 by omega,
    pow_succ, base_eq]
  push_cast
  ring

theorem base_le_leadingDigits {ds : List UInt32} (h : Leading ds) (hlen : 2 ≤ ds.length) :
    2 ^ 32 ≤ (leadingDigits ds).toNat := by
  have hne : ds ≠ [] := fun hnil => by simp [hnil] at hlen
  have hlast : ds.getD (ds.length - 1) 0 ≠ 0 := by
    rw [List.getD_eq_getElem _ _ (by omega), ← List.getLast_eq_getElem hne]
    intro h0
    exact h (by rw [List.getLast?_eq_some_getLast hne, h0])
  have hpos : (ds.getD (ds.length - 1) 0).toNat ≠ 0 := fun h0 =>
    hlast (UInt32.toNat_inj.mp (h0.trans UInt32.toNat_zero.symm))
  rw [leadingDigits, toNat_leadingDigits]
  omega

theorem high_nonneg {p x e : ℤ} (hp : 0 < p) (hx : x < p) (h : 0 ≤ x + p * e) : 0 ≤ e := by
  by_contra hneg
  have := mul_le_mul_of_nonneg_left (show e ≤ -1 by omega) hp.le
  linarith

theorem high_le {p x y e d : ℤ} (hp : 0 < p) (hx : 0 ≤ x) (hy : y < p)
    (h : x + p * e < y + p * d) : e ≤ d := by
  by_contra hlt
  have := mul_le_mul_of_nonneg_left (show d + 1 ≤ e by omega) hp.le
  linarith

/-- What one turn of the loop does to the digits that belong to the remainder: `u` is the number
in front of the ring, and the remainder that is left is smaller than the divisor. -/
structure DigitStep (rdigits : List UInt32) (state : DivState) (u : ℤ) (next : DivState) :
    Prop where
  fits : next.Fits rdigits
  length_eq : next.ldigits.length = state.ldigits.length
  low_eq : next.low rdigits = state.low rdigits
  value : number (state.top rdigits) + base ^ (rdigits.length - 2) * u =
    next.nextdigit.toNat * number rdigits +
      (number (next.top rdigits) + base ^ (rdigits.length - 2) * next.dividend.toNat)
  lt : number (next.top rdigits) + base ^ (rdigits.length - 2) * next.dividend.toNat <
    number rdigits

theorem DivState.number_top_lt {state : DivState} {rdigits : List UInt32}
    (h : state.Fits rdigits) : number (state.top rdigits) < base ^ (rdigits.length - 2) := by
  have := number_lt (state.top rdigits)
  rwa [length_top h] at this

theorem DivState.pass_value {κ : Type} (step : κ → UInt32 × UInt32 → UInt32 × κ) (c : κ)
    {rdigits : List UInt32} {state : DivState} (h : state.Fits rdigits) {v : κ → ℤ} {m : ℤ}
    {I : κ → Prop} (hI : ∀ c d, I c → I (step c d).2) (hc : I c)
    (hstep : ∀ c d, I c → ((step c d).1.toNat : ℤ) + base * v (step c d).2 =
      (d.1.toNat + m * d.2.toNat) + v c) :
    number ((state.pass step c rdigits).1.top rdigits) +
        base ^ (rdigits.length - 2) * v (state.pass step c rdigits).2 =
      number (state.top rdigits) + m * number (rdigits.take (rdigits.length - 2)) + v c := by
  obtain ⟨_, _, htop, hcarry⟩ := state.pass_spec step c h
  have hlen := length_top h
  have hkle : (rdigits.take (rdigits.length - 2)).length = rdigits.length - 2 := by
    rw [List.length_take]
    omega
  have heval := chain_eval step (b := base) (g := fun d => (d.toNat : ℤ))
    (f := fun d => (d.1.toNat : ℤ) + m * d.2.toNat) (v := v) hI hstep hc
    ((state.top rdigits).zip (rdigits.take (rdigits.length - 2)))
  rw [number_zip (s := m) (fun d => rfl) (by rw [hlen, hkle]), List.length_zip, hlen, hkle,
    min_self, List.take_of_length_le hlen.le] at heval
  rw [htop, hcarry]
  exact heval

theorem DivState.correct_step {rdigits : List UInt32} {carry : UInt32} {state : DivState} {z : ℤ}
    (hfits : state.Fits rdigits) (hnext : state.nextdigit ≠ 0)
    (hz : z = number (state.top rdigits) +
      base ^ (rdigits.length - 2) * ((state.dividend.toNat : ℤ) - carry.toNat))
    (hlt : z < number rdigits) (hge : -number rdigits ≤ z) :
    (state.correct rdigits carry).Fits rdigits ∧
      (state.correct rdigits carry).ldigits.length = state.ldigits.length ∧
      (state.correct rdigits carry).low rdigits = state.low rdigits ∧
      state.nextdigit.toNat * number rdigits + z =
        (state.correct rdigits carry).nextdigit.toNat * number rdigits +
          (number ((state.correct rdigits carry).top rdigits) +
            base ^ (rdigits.length - 2) * (state.correct rdigits carry).dividend.toNat) ∧
      number ((state.correct rdigits carry).top rdigits) +
        base ^ (rdigits.length - 2) * (state.correct rdigits carry).dividend.toNat <
          number rdigits := by
  have hbase := base_pow_pos (rdigits.length - 2)
  rw [correct]
  split_ifs with hc
  · have hsub : ((state.dividend - carry.toUInt64).toNat : ℤ) =
        (state.dividend.toNat : ℤ) - carry.toNat := by
      have hc' := UInt64.le_iff_toNat_le.mp hc
      rw [UInt64.toNat_sub_of_le _ _ hc]
      rw [UInt32.toNat_toUInt64] at hc' ⊢
      omega
    refine ⟨⟨hfits.two_le, hfits.le_length, hfits.loffset_pos, hfits.loffset_le⟩, rfl, rfl, ?_, ?_⟩
    · dsimp only
      rw [hsub, hz]
      rfl
    · dsimp only
      rw [hsub]
      exact hz ▸ hlt
  · have hc' := mt UInt64.le_iff_toNat_le.mpr hc
    rw [UInt32.toNat_toUInt64] at hc'
    have hcarry := carry.toNat_lt
    have hnext' : (state.nextdigit - 1).toNat + 1 = state.nextdigit.toNat := by
      have hne : state.nextdigit.toNat ≠ 0 := fun h0 =>
        hnext (UInt32.toNat_inj.mp (h0.trans UInt32.toNat_zero.symm))
      have hlt32 := state.nextdigit.toNat_lt
      rw [UInt32.toNat_sub, UInt32.toNat_one]
      omega
    have hfits' : ({ state with nextdigit := state.nextdigit - 1 } : DivState).Fits rdigits :=
      ⟨hfits.two_le, hfits.le_length, hfits.loffset_pos, hfits.loffset_le⟩
    obtain ⟨hpf, hplow, _, _⟩ := DivState.pass_spec correctDigit 0 hfits'
    have hadd := DivState.pass_value correctDigit 0 hfits'
      (v := fun c => (c.toNat : ℤ)) (m := 1) (I := fun _ => True) (fun _ _ _ => trivial) trivial
      (fun c d _ => by rw [correctDigit_value]; ring)
    have htop := DivState.number_top_lt hfits
    have htop' := DivState.number_top_lt hpf
    have hlead := number_eq_leadingDigits hfits.two_le
    have hrlow := number_lt (rdigits.take (rdigits.length - 2))
    rw [List.length_take, min_eq_left (by omega)] at hrlow
    have hsame : ({ state with nextdigit := state.nextdigit - 1 } : DivState).top rdigits =
        state.top rdigits := rfl
    rw [hsame, UInt32.toNat_zero, Nat.cast_zero, add_zero, one_mul] at hadd
    generalize hp : ({ state with nextdigit := state.nextdigit - 1 } : DivState).pass correctDigit 0
      rdigits = p at *
    -- the sum, as an integer, has the high part `e`
    have hsum : z + number rdigits = number (p.1.top rdigits) + base ^ (rdigits.length - 2) *
        ((state.dividend.toNat : ℤ) - carry.toNat + (leadingDigits rdigits).toNat + p.2.toNat) := by
      rw [hz, hlead]
      linear_combination -hadd
    have hzneg : z < 0 := by
      have := mul_le_mul_of_nonneg_left
        (show (state.dividend.toNat : ℤ) - carry.toNat ≤ -1 by omega) hbase.le
      rw [hz]
      linarith
    have he0 := high_nonneg hbase htop' (by rw [← hsum]; linarith)
    have heD := high_le hbase (number_nonneg _) hrlow (hsum.symm.trans_lt (by rw [← hlead]; linarith))
    have hdividend : ((state.dividend - carry.toUInt64 + leadingDigits rdigits +
        p.2.toUInt64).toNat : ℤ) =
          (state.dividend.toNat : ℤ) - carry.toNat + (leadingDigits rdigits).toNat +
            p.2.toNat := by
      have hd := state.dividend.toNat_lt
      have hD := (leadingDigits rdigits).toNat_lt
      have hp2 := p.2.toNat_lt
      rw [UInt64.toNat_add, UInt64.toNat_add, UInt64.toNat_sub, UInt32.toNat_toUInt64,
        UInt32.toNat_toUInt64]
      omega
    have hlenp : p.1.ldigits.length = state.ldigits.length := by
      rw [← hp]
      exact ringPass_length _ _ _ _ _ _
    have hnd : p.1.nextdigit = state.nextdigit - 1 := by rw [← hp]; rfl
    refine ⟨⟨hpf.two_le, hpf.le_length, hpf.loffset_pos, hpf.loffset_le⟩, hlenp, hplow, ?_, ?_⟩
    · dsimp only
      rw [hnd, hdividend, ← hnext']
      change _ = _ + (number (p.1.top rdigits) + _)
      push_cast
      linear_combination hsum
    · dsimp only
      rw [hdividend]
      change number (p.1.top rdigits) + _ < _
      rw [← hsum]
      linarith

theorem submulBiginthelper_step {rdigits : List UInt32} {state : DivState} {u : ℤ}
    (hfits : state.Fits rdigits) (hbase : 2 ^ 32 ≤ (leadingDigits rdigits).toNat)
    (hnext : state.nextdigit ≠ 0) (hlt : state.dividend.toNat < (leadingDigits rdigits).toNat)
    (hu : u = state.nextdigit.toNat * (leadingDigits rdigits).toNat + state.dividend.toNat) :
    DigitStep rdigits state u (submulBiginthelper rdigits state) := by
  have hpow := base_pow_pos (rdigits.length - 2)
  have hlead := number_eq_leadingDigits hfits.two_le
  have hrlow := number_lt (rdigits.take (rdigits.length - 2))
  rw [List.length_take, min_eq_left (by omega)] at hrlow
  have hrlow0 := number_nonneg (rdigits.take (rdigits.length - 2))
  have htop := DivState.number_top_lt hfits
  have htop0 := number_nonneg (state.top rdigits)
  have hn32 := state.nextdigit.toNat_lt
  -- the difference that the digit leaves
  set z := number (state.top rdigits) + base ^ (rdigits.length - 2) * state.dividend.toNat -
    state.nextdigit.toNat * number (rdigits.take (rdigits.length - 2)) with hz
  have hzlt : z < number rdigits := by
    have h1 := mul_le_mul_of_nonneg_left
      (show (state.dividend.toNat : ℤ) ≤ (leadingDigits rdigits).toNat - 1 by omega) hpow.le
    have h2 : 0 ≤ (state.nextdigit.toNat : ℤ) * number (rdigits.take (rdigits.length - 2)) :=
      mul_nonneg (by omega) hrlow0
    rw [hlead]
    linarith
  have hzge : -number rdigits ≤ z := by
    have h1 : (state.nextdigit.toNat : ℤ) * number (rdigits.take (rdigits.length - 2)) ≤
        (leadingDigits rdigits).toNat * base ^ (rdigits.length - 2) :=
      mul_le_mul (by omega) hrlow.le hrlow0 (by omega)
    have h2 : 0 ≤ base ^ (rdigits.length - 2) * (state.dividend.toNat : ℤ) :=
      mul_nonneg hpow.le (by omega)
    rw [hlead]
    linarith
  have huz : number (state.top rdigits) + base ^ (rdigits.length - 2) * u =
      state.nextdigit.toNat * number rdigits + z := by
    rw [hz, hu, hlead]
    ring
  -- both loops hand their carry to the correction
  have hfinish : ∀ p : DivState × UInt32, p.1.Fits rdigits →
      p.1.ldigits.length = state.ldigits.length → p.1.low rdigits = state.low rdigits →
      p.1.dividend = state.dividend → p.1.nextdigit = state.nextdigit →
      number (p.1.top rdigits) + base ^ (rdigits.length - 2) * -(p.2.toNat : ℤ) =
        number (state.top rdigits) +
          -(state.nextdigit.toNat : ℤ) * number (rdigits.take (rdigits.length - 2)) +
            -((0 : UInt32).toNat : ℤ) →
      DigitStep rdigits state u (p.1.correct rdigits p.2) := by
    intro p hpf hplen hplow hpd hpn hvalue
    rw [UInt32.toNat_zero, Nat.cast_zero, neg_zero, add_zero] at hvalue
    obtain ⟨h1, h2, h3, h4, h5⟩ := @DivState.correct_step rdigits p.2 p.1 z hpf
      (by rwa [hpn]) (by rw [hz, hpd]; linear_combination -hvalue) hzlt hzge
    rw [hpn] at h4
    exact ⟨h1, h2.trans hplen, h3.trans hplow, huz.trans h4, h5⟩
  rw [submulBiginthelper]
  split_ifs with h2 h1
  · obtain ⟨hpf, hplow, _, _⟩ := state.pass_spec (submulDigit state.nextdigit) 0 hfits
    refine hfinish _ hpf (ringPass_length _ _ _ _ _ _) hplow rfl rfl ?_
    exact DivState.pass_value _ _ hfits (v := fun c : UInt32 => -(c.toNat : ℤ))
      (m := -(state.nextdigit.toNat : ℤ)) (I := fun _ => True) (fun _ _ _ => trivial) trivial
      (fun c d _ => by rw [submulDigit_value]; ring)
  · have hone : state.nextdigit.toNat = 1 := by
      have hne : state.nextdigit.toNat ≠ 0 := fun h0 =>
        hnext (UInt32.toNat_inj.mp (h0.trans UInt32.toNat_zero.symm))
      have := UInt32.lt_iff_toNat_lt.not.mp h1
      rw [UInt32.toNat_one] at this
      omega
    obtain ⟨hpf, hplow, _, _⟩ := state.pass_spec subOneDigit 0 hfits
    refine hfinish _ hpf (ringPass_length _ _ _ _ _ _) hplow rfl rfl ?_
    refine DivState.pass_value _ _ hfits (v := fun c : UInt32 => -(c.toNat : ℤ))
      (m := -(state.nextdigit.toNat : ℤ)) (I := fun c : UInt32 => c.toNat ≤ 1)
      (fun c d _ => subOneDigit_carry c d) (by decide) (fun c d hc => ?_)
    rw [subOneDigit_value hc, hone]
    ring
  · have hlen2 : rdigits.length - 2 = 0 := by omega
    refine ⟨hfits, rfl, rfl, ?_, ?_⟩
    · rw [huz, hz, hlen2, List.take_zero, number_nil, mul_zero, sub_zero]
    · have : z = number (state.top rdigits) + base ^ (rdigits.length - 2) * state.dividend.toNat := by
        rw [hz, hlen2, List.take_zero, number_nil, mul_zero, sub_zero]
      rw [← this]
      exact hzlt

theorem submulBiginthelper_step_max {rdigits : List UInt32} {state : DivState} {u : ℤ}
    (hfits : state.Fits rdigits) (h2 : 2 < rdigits.length)
    (hbase : 2 ^ 32 ≤ (leadingDigits rdigits).toNat) (hnext : state.nextdigit = 0) {n : ℕ}
    (hdividend : state.dividend.toNat = ((leadingDigits rdigits).toNat + n) % 2 ^ 64)
    (hu : u = (leadingDigits rdigits).toNat * 2 ^ 32 + n)
    (hlt : number (state.top rdigits) + base ^ (rdigits.length - 2) * u <
      number rdigits * base) :
    DigitStep rdigits state u (submulBiginthelper rdigits state) := by
  have hpow := base_pow_pos (rdigits.length - 2)
  have hlead := number_eq_leadingDigits hfits.two_le
  have hrlow := number_lt (rdigits.take (rdigits.length - 2))
  rw [List.length_take, min_eq_left (by omega)] at hrlow
  have hrlow0 := number_nonneg (rdigits.take (rdigits.length - 2))
  have htop0 := number_nonneg (state.top rdigits)
  obtain ⟨hpf, hplow, _, _⟩ := state.pass_spec submaxDigit (1, 0) hfits
  have hvalue := DivState.pass_value submaxDigit (1, 0) hfits
    (v := fun c : UInt32 × UInt32 => (c.1.toNat : ℤ) - 1 - c.2.toNat) (m := -(2 ^ 32 - 1 : ℤ))
    (I := fun c : UInt32 × UInt32 => c.1.toNat ≤ 2) (fun c d hc => (submaxDigit_value hc d).2) (by decide)
    (fun c d hc => by rw [(submaxDigit_value hc d).1]; push_cast; ring)
  have hptop := DivState.number_top_lt hpf
  have hplen : (state.pass submaxDigit (1, 0) rdigits).1.ldigits.length = state.ldigits.length :=
    ringPass_length _ _ _ _ _ _
  have hpd : (state.pass submaxDigit (1, 0) rdigits).1.dividend = state.dividend := rfl
  have hpn : (state.pass submaxDigit (1, 0) rdigits).1.nextdigit = 0 := hnext
  rw [submulBiginthelper, if_pos h2, if_neg (by rw [hnext]; decide), if_neg (by simp [hnext])]
  generalize state.pass submaxDigit (1, 0) rdigits = p at *
  simp only [UInt32.toNat_one, UInt32.toNat_zero] at hvalue
  -- what is left, as an integer, has the high part `e`
  set z := number (state.top rdigits) + base ^ (rdigits.length - 2) * u -
    (2 ^ 32 - 1) * number rdigits with hz
  have hsum : z = number (p.1.top rdigits) + base ^ (rdigits.length - 2) *
      ((leadingDigits rdigits).toNat + n + p.2.1.toNat - 1 - p.2.2.toNat) := by
    rw [hz, hu, hlead]
    push_cast at hvalue
    linear_combination -hvalue
  have hzlt : z < number rdigits := by
    have hmul : number rdigits * base = number rdigits * 2 ^ 32 := rfl
    rw [hmul] at hlt
    rw [hz]
    linarith
  have hz0 : 0 ≤ z := by
    have h3 := mul_le_mul_of_nonneg_left
      (show (2 ^ 32 : ℤ) + n ≤ (leadingDigits rdigits).toNat + n by
        have : ((2 ^ 32 : ℕ) : ℤ) ≤ (leadingDigits rdigits).toNat := by exact_mod_cast hbase
        push_cast at this
        linarith) hpow.le
    have h4 : (0 : ℤ) ≤ base ^ (rdigits.length - 2) * n := mul_nonneg hpow.le (by omega)
    rw [hz, hu, hlead]
    linarith
  have he0 := high_nonneg hpow hptop (hsum ▸ hz0)
  have heD := high_le hpow (number_nonneg _) hrlow (hsum.symm.trans_lt (hlead ▸ hzlt))
  have hnew : ((p.1.dividend - p.2.2.toUInt64 - 1 + p.2.1.toUInt64).toNat : ℤ) =
      (leadingDigits rdigits).toNat + n + p.2.1.toNat - 1 - p.2.2.toNat := by
    have hD := (leadingDigits rdigits).toNat_lt
    have h22 := p.2.2.toNat_lt
    have h21 := p.2.1.toNat_lt
    rw [UInt64.toNat_add, UInt64.toNat_sub, UInt64.toNat_sub, UInt32.toNat_toUInt64,
      UInt32.toNat_toUInt64, UInt64.toNat_one, hpd, hdividend]
    omega
  have hzero : (0 : UInt32).toUInt64 ≤ p.1.dividend - p.2.2.toUInt64 - 1 + p.2.1.toUInt64 := by
    rw [UInt64.le_iff_toNat_le]
    exact Nat.zero_le _
  have hsub0 : p.1.dividend - p.2.2.toUInt64 - 1 + p.2.1.toUInt64 - (0 : UInt32).toUInt64 =
      p.1.dividend - p.2.2.toUInt64 - 1 + p.2.1.toUInt64 := UInt64.sub_zero _
  rw [DivState.correct, if_pos hzero]
  refine ⟨⟨hpf.two_le, hpf.le_length, hpf.loffset_pos, hpf.loffset_le⟩, hplen, hplow, ?_, ?_⟩
  · dsimp only
    rw [hsub0, hnew, hpn]
    have hmax : (((0 : UInt32) - 1).toNat : ℤ) = 2 ^ 32 - 1 := by decide
    rw [hmax]
    change _ = _ + (number (p.1.top rdigits) + _)
    rw [← hsum, hz]
    ring
  · dsimp only
    rw [hsub0, hnew]
    change number (p.1.top rdigits) + _ < _
    rwa [← hsum]

/-! ## One turn of the loop -/

/-- `nextdigit = ldigits[--loffset]; ldigits[loffset] = 0; if (!loffset) loffset = lnrdigits;` -/
def DivState.readDigit (state : DivState) : DivState :=
  let loffset := state.loffset - 1
  { state with
    nextdigit := state.ldigits.getD loffset 0
    ldigits := state.ldigits.set loffset 0
    loffset := if loffset = 0 then state.ldigits.length else loffset }

/-- One turn of the loop of `divmod_biginthelper`; the digit is left in `nextdigit`. -/
def divStep (rdigits : List UInt32) (state : DivState) : DivState :=
  let state := state.readDigit
  if (state.dividend >>> 32).toUInt32 ≠ 0 then
    if state.dividend = leadingDigits rdigits then
      -- the estimate does not fit into 32 bits
      submulBiginthelper rdigits
        { state with dividend := state.dividend + state.nextdigit.toUInt64, nextdigit := 0 }
    else submulBiginthelper rdigits (div3by2digitsBiginthelper (leadingDigits rdigits) state)
  else if state.dividend.toUInt32 ≠ 0 then
    let dividend := (state.dividend <<< 32) + state.nextdigit.toUInt64
    if leadingDigits rdigits ≤ dividend then
      submulBiginthelper rdigits
        { state with
          dividend := dividend % leadingDigits rdigits
          nextdigit := (dividend / leadingDigits rdigits).toUInt32 }
    else { state with dividend := dividend, nextdigit := 0 }
  else { state with dividend := state.nextdigit.toUInt64, nextdigit := 0 }

theorem DivState.readDigit_spec {state : DivState} {rdigits : List UInt32}
    (h : state.Fits rdigits) :
    state.readDigit.Fits rdigits ∧ state.readDigit.ldigits.length = state.ldigits.length ∧
      ∃ ds, state.window = ds ++ [state.readDigit.nextdigit] ∧
        state.readDigit.window = 0 :: ds := by
  obtain ⟨h2, hle, hpos, hoff⟩ := h
  set n := state.ldigits.length with hn
  have hlen : state.readDigit.ldigits.length = n := List.length_set
  have hoff' : 1 ≤ state.readDigit.loffset ∧ state.readDigit.loffset ≤ n := by
    rw [readDigit]
    dsimp only
    split_ifs <;> omega
  refine ⟨⟨h2, hlen.symm ▸ hle, hoff'.1, hlen.symm ▸ hoff'.2⟩, hlen, ?_⟩
  have hidx : state.loffset - 1 = (n - 1 + state.loffset) % n := by
    rw [show n - 1 + state.loffset = state.loffset - 1 + n by omega, Nat.add_mod_right,
      Nat.mod_eq_of_lt (by omega)]
  have hsnoc : state.window =
      state.window.dropLast ++ [state.ldigits.getD (state.loffset - 1) 0] :=
    (rotate_pred hpos hoff (0 : UInt32)).1
  refine ⟨state.window.dropLast, hsnoc, ?_⟩
  have hlast : n - 1 = state.window.dropLast.length := by
    rw [List.length_dropLast, length_window]
  have hset : (state.ldigits.set (state.loffset - 1) 0).rotate state.loffset =
      state.window.dropLast ++ [0] := by
    rw [hidx, rotate_set (by omega)]
    change state.window.set (n - 1) 0 = _
    nth_rewrite 1 [hsnoc]
    rw [List.set_append_right _ _ hlast.ge, hlast, Nat.sub_self]
    rfl
  have hturn := (rotate_pred (l := state.ldigits.set (state.loffset - 1) 0) hpos
    (by rwa [List.length_set]) (0 : UInt32)).2
  have hcell : (state.ldigits.set (state.loffset - 1) (0 : UInt32)).getD
      (state.loffset - 1) 0 = 0 := by
    rw [List.getD_eq_getElem _ _ (by rw [List.length_set]; omega), List.getElem_set_self]
  rw [hset, List.dropLast_concat, hcell, List.length_set] at hturn
  exact hturn

/-- The digits of the remainder, with the two that are kept in `dividend`. -/
def DivState.remainder (state : DivState) (rdigits : List UInt32) : ℤ :=
  number (state.top rdigits) + base ^ (rdigits.length - 2) * state.dividend.toNat

/-- All digits that are left: those of the remainder, and those that were not read. -/
def DivState.total (state : DivState) : ℤ :=
  number state.window + base ^ state.ldigits.length * state.dividend.toNat

/-- The place of the last digit of the remainder. -/
def DivState.place (state : DivState) (rdigits : List UInt32) : ℕ :=
  state.ldigits.length - (rdigits.length - 2)

theorem DivState.place_add {state : DivState} {rdigits : List UInt32} (h : state.Fits rdigits) :
    state.place rdigits + (rdigits.length - 2) = state.ldigits.length := by
  have := h.le_length
  rw [place]
  omega

theorem DivState.number_window (state : DivState) (rdigits : List UInt32) :
    number state.window = number (state.low rdigits) +
      base ^ state.place rdigits * number (state.top rdigits) :=
  (number_take_add_drop _ _ (by rw [length_window]; exact Nat.sub_le _ _)).symm

theorem DivState.total_eq {state : DivState} {rdigits : List UInt32} (h : state.Fits rdigits) :
    state.total = number (state.low rdigits) +
      base ^ state.place rdigits * state.remainder rdigits := by
  rw [total, remainder, number_window state rdigits, ← place_add h, pow_add]
  ring

theorem DivState.number_low_lt (state : DivState) (rdigits : List UInt32) :
    number (state.low rdigits) < base ^ state.place rdigits := by
  refine (number_lt _).trans_le (pow_le_pow_right₀ (by rw [base_eq]; norm_num) ?_)
  rw [low, List.length_take]
  exact min_le_left _ _

/-- The invariant of the loop: the remainder is smaller than the divisor. -/
structure DivInv (rdigits : List UInt32) (state : DivState) : Prop where
  fits : state.Fits rdigits
  lt : state.remainder rdigits < number rdigits

theorem DivInv.total_lt {rdigits : List UInt32} {state : DivState} (h : DivInv rdigits state) :
    state.total < base ^ state.place rdigits * number rdigits := by
  have h1 := mul_le_mul_of_nonneg_left (show state.remainder rdigits + 1 ≤ number rdigits from h.lt)
    (base_pow_pos (state.place rdigits)).le
  have h2 := DivState.number_low_lt state rdigits
  rw [DivState.total_eq h.fits]
  linarith

theorem DigitStep.total_eq {rdigits : List UInt32} {state next : DivState} {u : ℤ}
    (h : DigitStep rdigits state u next) (hfits : state.Fits rdigits) :
    number state.window + base ^ state.ldigits.length * u =
      next.nextdigit.toNat * number rdigits * base ^ state.place rdigits + next.total := by
  have hplace : next.place rdigits = state.place rdigits := by
    rw [DivState.place, DivState.place, h.length_eq]
  rw [DivState.total_eq h.fits, DivState.remainder, h.low_eq, hplace,
    DivState.number_window state rdigits, ← DivState.place_add hfits, pow_add]
  linear_combination base ^ state.place rdigits * h.value

theorem digitStep_zero {rdigits : List UInt32} {state : DivState} {dividend : UInt64}
    (hfits : state.Fits rdigits) (hlt : dividend.toNat < (leadingDigits rdigits).toNat) :
    DigitStep rdigits state dividend.toNat
      { state with dividend := dividend, nextdigit := 0 } := by
  refine ⟨⟨hfits.two_le, hfits.le_length, hfits.loffset_pos, hfits.loffset_le⟩, rfl, rfl, ?_, ?_⟩
  · rw [UInt32.toNat_zero, Nat.cast_zero, zero_mul, zero_add]
    rfl
  · change number (state.top rdigits) + base ^ (rdigits.length - 2) * (dividend.toNat : ℤ) < _
    have h1 := DivState.number_top_lt hfits
    have h2 := mul_le_mul_of_nonneg_left
      (show (dividend.toNat : ℤ) + 1 ≤ (leadingDigits rdigits).toNat by omega)
      (base_pow_pos (rdigits.length - 2)).le
    have h3 := number_nonneg (rdigits.take (rdigits.length - 2))
    rw [number_eq_leadingDigits hfits.two_le]
    linarith

theorem digitStep_div {rdigits : List UInt32} {state : DivState} {dividend : UInt64}
    (hfits : state.Fits rdigits) (hbase : 2 ^ 32 ≤ (leadingDigits rdigits).toNat)
    (hle : leadingDigits rdigits ≤ dividend) :
    DigitStep rdigits state dividend.toNat
      (submulBiginthelper rdigits
        { state with
          dividend := dividend % leadingDigits rdigits
          nextdigit := (dividend / leadingDigits rdigits).toUInt32 }) := by
  have hle' := UInt64.le_iff_toNat_le.mp hle
  have hd := dividend.toNat_lt
  have hquot : dividend.toNat / (leadingDigits rdigits).toNat < 2 ^ 32 := by
    rw [Nat.div_lt_iff_lt_mul (by omega)]
    calc dividend.toNat < 2 ^ 32 * 2 ^ 32 := by omega
      _ ≤ 2 ^ 32 * (leadingDigits rdigits).toNat := Nat.mul_le_mul_left _ hbase
  have hnext : ((dividend / leadingDigits rdigits).toUInt32).toNat =
      dividend.toNat / (leadingDigits rdigits).toNat := by
    rw [UInt64.toNat_toUInt32, UInt64.toNat_div, Nat.mod_eq_of_lt hquot]
  have hpos : 0 < dividend.toNat / (leadingDigits rdigits).toNat :=
    Nat.div_pos hle' (by omega)
  have hfits' : ({ state with
      dividend := dividend % leadingDigits rdigits
      nextdigit := (dividend / leadingDigits rdigits).toUInt32 } : DivState).Fits rdigits :=
    ⟨hfits.two_le, hfits.le_length, hfits.loffset_pos, hfits.loffset_le⟩
  have h := submulBiginthelper_step (u := dividend.toNat) hfits' hbase
    (fun h0 => by
      have h0' := congrArg UInt32.toNat h0
      rw [hnext] at h0'
      simp only [UInt32.toNat_zero] at h0'
      omega)
    (by
      rw [UInt64.toNat_mod]
      exact Nat.mod_lt _ (by omega))
    (by
      dsimp only
      rw [hnext, UInt64.toNat_mod]
      exact_mod_cast (Nat.div_add_mod' dividend.toNat (leadingDigits rdigits).toNat).symm)
  exact ⟨h.fits, h.length_eq, h.low_eq, h.value, h.lt⟩

theorem toUInt32_shiftRight_ne_zero (x : UInt64) :
    (x >>> 32).toUInt32 ≠ 0 ↔ 2 ^ 32 ≤ x.toNat := by
  have hx := x.toNat_lt
  have h32 : (32 : UInt64).toNat % 64 = 32 := rfl
  rw [Ne, ← UInt32.toNat_inj, UInt64.toNat_toUInt32, UInt64.toNat_shiftRight, h32,
    Nat.shiftRight_eq_div_pow, UInt32.toNat_zero]
  omega

theorem toUInt32_ne_zero (x : UInt64) : x.toUInt32 ≠ 0 ↔ x.toNat % 2 ^ 32 ≠ 0 := by
  rw [Ne, ← UInt32.toNat_inj, UInt64.toNat_toUInt32, UInt32.toNat_zero]

theorem divStep_digitStep {rdigits : List UInt32} {state : DivState} (h : DivInv rdigits state)
    (hlead : 2 ^ 32 ≤ (leadingDigits rdigits).toNat) {u : ℤ}
    (hu : u = state.dividend.toNat * 2 ^ 32 + state.readDigit.nextdigit.toNat)
    (hlt : number (state.readDigit.top rdigits) + base ^ (rdigits.length - 2) * u <
      number rdigits * base) :
    DigitStep rdigits state.readDigit u (divStep rdigits state) := by
  obtain ⟨hfits, hlen, _⟩ := state.readDigit_spec h.fits
  have hpow := base_pow_pos (rdigits.length - 2)
  have hd : state.readDigit.dividend = state.dividend := rfl
  have hx := state.readDigit.nextdigit.toNat_lt
  have hdD : (state.dividend.toNat : ℤ) ≤ (leadingDigits rdigits).toNat := by
    have hrlow := number_lt (rdigits.take (rdigits.length - 2))
    rw [List.length_take, min_eq_left (by omega)] at hrlow
    refine high_le hpow (number_nonneg (state.top rdigits)) hrlow ?_
    rw [← number_eq_leadingDigits h.fits.two_le]
    exact h.lt
  rw [divStep]
  dsimp only
  rw [hd]
  split_ifs with hhigh heq hlow hle
  · -- the leading digits are equal, so that the divisor has more digits
    have h2 : 2 < rdigits.length := by
      by_contra hc
      have hk : rdigits.length - 2 = 0 := by omega
      have hlt' := h.lt
      rw [DivState.remainder, number_eq_leadingDigits h.fits.two_le, hk, heq, List.take_zero,
        number_nil] at hlt'
      linarith [number_nonneg (state.top rdigits)]
    have hfits' : ({ state.readDigit with
        dividend := state.dividend + state.readDigit.nextdigit.toUInt64
        nextdigit := 0 } : DivState).Fits rdigits :=
      ⟨hfits.two_le, hfits.le_length, hfits.loffset_pos, hfits.loffset_le⟩
    have hstep := submulBiginthelper_step_max (u := u) hfits' h2 hlead rfl
      (n := state.readDigit.nextdigit.toNat)
      (by
        dsimp only
        rw [UInt64.toNat_add, UInt32.toNat_toUInt64, heq])
      (by rw [hu, heq]) hlt
    exact ⟨hstep.fits, hstep.length_eq, hstep.low_eq, hstep.value, hstep.lt⟩
  · have hlt' : state.readDigit.dividend.toNat < (leadingDigits rdigits).toNat := by
      rw [hd]
      have : state.dividend.toNat ≠ (leadingDigits rdigits).toNat := fun hc =>
        heq (UInt64.toNat_inj.mp hc)
      omega
    obtain ⟨hrem, hquot⟩ := div3by2digitsBiginthelper_spec hlt'
    have hhigh' := (toUInt32_shiftRight_ne_zero _).mp hhigh
    rw [hd] at hquot
    set div := div3by2digitsBiginthelper (leadingDigits rdigits) state.readDigit with hdiv
    have hfits' : div.Fits rdigits :=
      ⟨hfits.two_le, hfits.le_length, hfits.loffset_pos, hfits.loffset_le⟩
    have hstep := submulBiginthelper_step (u := u) hfits' hlead
      (fun h0 => by
        rw [h0, UInt32.toNat_zero, zero_mul, zero_add] at hquot
        have hD := (leadingDigits rdigits).toNat_lt
        omega)
      hrem (by rw [hu]; exact_mod_cast hquot)
    exact ⟨hstep.fits, hstep.length_eq, hstep.low_eq, hstep.value, hstep.lt⟩
  all_goals
    rw [toUInt32_shiftRight_ne_zero, not_le] at hhigh
  · have hdividend : u =
        ((state.dividend <<< 32) + state.readDigit.nextdigit.toUInt64).toNat := by
      rw [hu, toNat_shiftLeft_add hhigh]
      push_cast
      ring
    rw [hdividend]
    exact digitStep_div hfits hlead hle
  · have hdividend : u =
        ((state.dividend <<< 32) + state.readDigit.nextdigit.toUInt64).toNat := by
      rw [hu, toNat_shiftLeft_add hhigh]
      push_cast
      ring
    rw [hdividend]
    exact digitStep_zero hfits (not_le.mp (mt UInt64.le_iff_toNat_le.mpr hle))
  · rw [toUInt32_ne_zero, not_not, Nat.mod_eq_of_lt hhigh] at hlow
    have hdividend : u = state.readDigit.nextdigit.toUInt64.toNat := by
      rw [hu, hlow, UInt32.toNat_toUInt64]
      push_cast
      ring
    rw [hdividend]
    exact digitStep_zero hfits (by rw [UInt32.toNat_toUInt64]; omega)

/-- **One turn**: the remainder stays smaller than the divisor, and the digit accounts for all that
is taken away. -/
theorem divStep_spec {rdigits : List UInt32} {state : DivState} (h : DivInv rdigits state)
    (hlead : 2 ^ 32 ≤ (leadingDigits rdigits).toNat) :
    DivInv rdigits (divStep rdigits state) ∧
      (divStep rdigits state).ldigits.length = state.ldigits.length ∧
      base * state.total = (divStep rdigits state).nextdigit.toNat * number rdigits *
        base ^ state.place rdigits + (divStep rdigits state).total := by
  obtain ⟨hfits, hlen, ds, hds, hds'⟩ := state.readDigit_spec h.fits
  have hpos : 0 < state.ldigits.length := by
    have := h.fits.two_le
    have := h.fits.le_length
    omega
  have hplace : state.readDigit.place rdigits = state.place rdigits := by
    rw [DivState.place, DivState.place, hlen]
  have hdslen : ds.length + 1 = state.ldigits.length := by
    have := congrArg List.length hds
    rw [DivState.length_window, List.length_append, List.length_singleton] at this
    exact this.symm
  set u : ℤ := state.dividend.toNat * 2 ^ 32 + state.readDigit.nextdigit.toNat with hu
  have hu' : u = state.dividend.toNat * base + state.readDigit.nextdigit.toNat := hu
  -- the digits move up by one place
  have hshift : base * state.total =
      number state.readDigit.window + base ^ state.readDigit.ldigits.length * u := by
    rw [DivState.total, hds, hds', number_append, number_cons, number_cons, number_nil, hlen,
      ← hdslen, pow_succ, hu', UInt32.toNat_zero]
    push_cast
    ring
  have hlt : number (state.readDigit.top rdigits) + base ^ (rdigits.length - 2) * u <
      number rdigits * base := by
    refine lt_of_mul_lt_mul_left ?_ (base_pow_pos (state.place rdigits)).le
    have h1 := mul_lt_mul_of_pos_left h.total_lt base_pos
    rw [hshift, DivState.number_window _ rdigits, hplace, hlen,
      ← DivState.place_add h.fits, pow_add] at h1
    have h2 := number_nonneg (state.readDigit.low rdigits)
    linarith
  have hstep := divStep_digitStep h hlead hu hlt
  refine ⟨⟨hstep.fits, hstep.lt⟩, hstep.length_eq.trans hlen, ?_⟩
  rw [hshift, hstep.total_eq hfits, hplace]

end Bigint
end CKern
