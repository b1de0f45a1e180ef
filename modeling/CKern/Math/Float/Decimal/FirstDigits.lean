import CKern.Math.Float.Decimal.Compare
import CKern.Math.Int.Log10

/-!
# `math/float/decimal.c`: the leading decimal digits

* `first9digitsDecimal`, `first18digitsDecimal`: the functions. A value that does not fit into the
  type of its variable stops them.
* `FirstDigits`: what the returned number and the returned exponent say about the value.
* `firstDigits_of_lead`: the digits that are missing in the first blocks are cut from the next one.
* `firstdigitsDecimal_spec`: both functions return the leading digits, and nothing overflows.
-/

namespace CKern
namespace Decimal

open Log10

/-! ## The functions -/

/-- A value of type `uint32_t`. -/
def u32 (n : ℕ) : Option ℕ := if n < 2 ^ 32 then some n else none

/-- A value of type `uint64_t`. -/
def u64 (n : ℕ) : Option ℕ := if n < 2 ^ 64 then some n else none

/-- A value of type `int32_t`, or of type `int`. -/
def i32 (z : ℤ) : Option ℤ := if -2 ^ 31 ≤ z ∧ z < 2 ^ 31 then some z else none

/-- A value of type `int64_t`. -/
def i64 (z : ℤ) : Option ℤ := if -2 ^ 63 ≤ z ∧ z < 2 ^ 63 then some z else none

/-- A difference of unsigned numbers. -/
def unsignedSub (a b : ℕ) : Option ℕ := if b ≤ a then some (a - b) else none

/-- `digitsperint_decimal`. -/
def digitsperintDecimal : ℕ := 9

/-- `exponent_decimal`. -/
def exponentDecimal (dec : Decimal) : Option ℤ := i32 (dec.exponent * digitsperintDecimal)

/-- `power10_decimalhelper`. -/
def power10Decimalhelper (exponent : ℕ) : ℕ := if exponent ≤ 9 then 10 ^ exponent else 0

/-- `first9digits_decimal`: the digits with the sign, and the exponent. -/
def first9digitsDecimal (dec : Decimal) : Option (ℤ × ℤ) := do
  let nrblocks := dec.sizeDecimal
  let decExpo ← exponentDecimal dec
  let (digits, decExpo) ←
    (if nrblocks ≠ 0 then do
      let nrblocks := nrblocks - 1
      let digits := dec.digits.getD nrblocks 0
      if nrblocks ≠ 0 then do
        let decExpo ← i32 (decExpo + digitsperintDecimal * nrblocks)
        if digits < DIGITSBASE / 10 then do
          let l10 := log10Int32 digits + 1
          let missing ← unsignedSub digitsperintDecimal l10
          let decExpo ← i32 (decExpo - missing)
          let digits ← u32 (digits * power10Decimalhelper missing)
          let digits ← u32 (digits + dec.digits.getD (nrblocks - 1) 0 / power10Decimalhelper l10)
          some (digits, decExpo)
        else some (digits, decExpo)
      else some (digits, decExpo)
    else some (0, decExpo))
  let digits ← i32 digits
  let digits ← (if dec.isnegativeDecimal then i32 (-digits) else some digits)
  some (digits, decExpo)

/-- `first18digits_decimal`: the digits with the sign, and the exponent. -/
def first18digitsDecimal (dec : Decimal) : Option (ℤ × ℤ) := do
  let nrblocks := dec.sizeDecimal
  let decExpo ← exponentDecimal dec
  let (digits, decExpo) ←
    (if nrblocks ≠ 0 then do
      let nrblocks := nrblocks - 1
      let digits := dec.digits.getD nrblocks 0
      if nrblocks ≠ 0 then do
        let nrblocks := nrblocks - 1
        let l10 := log10Int64 digits + 1
        let digits ← u64 (digits * DIGITSBASE)
        let digits ← u64 (digits + dec.digits.getD nrblocks 0)
        if nrblocks ≠ 0 then do
          let decExpo ← i32 (decExpo + digitsperintDecimal * nrblocks)
          if l10 < digitsperintDecimal then do
            let missing ← unsignedSub digitsperintDecimal l10
            let decExpo ← i32 (decExpo - missing)
            let digits ← u64 (digits * power10Decimalhelper missing)
            let digits ← u64 (digits + dec.digits.getD (nrblocks - 1) 0 / power10Decimalhelper l10)
            some (digits, decExpo)
          else some (digits, decExpo)
        else some (digits, decExpo)
      else some (digits, decExpo)
    else some (0, decExpo))
  let digits ← i64 digits
  let digits ← (if dec.isnegativeDecimal then i64 (-digits) else some digits)
  some (digits, decExpo)

/-! ## Leading digits -/

/-- `m` and `e` are the leading decimal digits of a decimal, whose first `n` blocks are exact. -/
structure FirstDigits (dec : Decimal) (n : ℕ) (m e : ℤ) : Prop where
  sign_eq : SignType.sign m = SignType.sign dec.value
  le_abs : ((|m| : ℤ) : ℚ) * 10 ^ e ≤ |dec.value|
  abs_lt : |dec.value| < (((|m| : ℤ) : ℚ) + 1) * 10 ^ e
  nrdigits : n < dec.sizeDecimal → 10 ^ (9 * n - 1) ≤ |m| ∧ |m| < 10 ^ (9 * n)
  exact : dec.sizeDecimal ≤ n → (m : ℚ) * 10 ^ e = dec.value

/-- A number with the sign of the decimal. -/
def signed (dec : Decimal) (n : ℕ) : ℤ := if dec.isnegativeDecimal then -n else n

variable {dec : Decimal} {D next k n t : ℕ} {m : ℕ} {e : ℤ}

theorem abs_signed (dec : Decimal) (n : ℕ) : |dec.signed n| = n := by
  rw [signed]
  split_ifs
  · rw [abs_neg, Nat.abs_cast]
  · rw [Nat.abs_cast]

theorem firstDigits_of_magnitude (h : dec.WellFormed) (hle : (m : ℚ) * 10 ^ e ≤ dec.magnitude)
    (hlt : dec.magnitude < (m + 1 : ℚ) * 10 ^ e) (hm : m = 0 → dec.sizeDecimal = 0)
    (hdigits : n < dec.sizeDecimal → 10 ^ (9 * n - 1) ≤ m ∧ m < 10 ^ (9 * n))
    (hexact : dec.sizeDecimal ≤ n → (m : ℚ) * 10 ^ e = dec.magnitude) :
    FirstDigits dec n (dec.signed m) e := by
  have hpow : (0 : ℚ) < 10 ^ e := zpow_pos (by norm_num) e
  have habs : ((|dec.signed m| : ℤ) : ℚ) = m := by rw [abs_signed, Int.cast_natCast]
  have hsign : SignType.sign (m : ℤ) = SignType.sign dec.magnitude := by
    rw [h.sign_magnitude]
    split_ifs with h0
    · rw [magnitude_eq_zero h0] at hle
      have hm0 : (m : ℚ) ≤ 0 := le_of_mul_le_mul_right (by rwa [zero_mul]) hpow
      rw [Nat.cast_nonpos.mp hm0, Nat.cast_zero, sign_zero]
    · exact sign_pos (Int.natCast_pos.mpr (Nat.pos_of_ne_zero (mt hm h0)))
  have hvalue : dec.sizeDecimal ≤ n → (dec.signed m : ℚ) * 10 ^ e = dec.value := by
    intro hn
    rw [value, ← hexact hn, signed]
    split_ifs <;> push_cast <;> ring
  refine ⟨?_, ?_, ?_, fun hn => ?_, hvalue⟩
  · rw [value, sign_mul, signed, ← hsign]
    split_ifs
    · rw [Left.sign_neg, sign_neg (by norm_num : (-1 : ℚ) < 0), neg_one_mul]
    · rw [sign_one, one_mul]
  · rwa [habs, abs_value]
  · rwa [habs, abs_value]
  · rw [abs_signed]
    exact_mod_cast hdigits hn

theorem lead_eq (hk : k ≤ 9) :
    D * 10 ^ (9 - k) + next / 10 ^ k = (next + DIGITSBASE * D) / 10 ^ k := by
  have hbase : DIGITSBASE * D = D * 10 ^ (9 - k) * 10 ^ k := by
    rw [mul_assoc, ← pow_add, Nat.sub_add_cancel hk, mul_comm, DIGITSBASE]
    norm_num
  rw [hbase, Nat.add_mul_div_right _ _ (Nat.pow_pos (by decide)), add_comm]

theorem base_zpow (z : ℤ) : (base : ℚ) ^ z = 10 ^ (9 * z) := by
  rw [zpow_mul, base_eq]
  norm_num

/-- **The missing digits are cut from the next block**, where the blocks `D` have `9 * n` digits
without the `9 - k` ones that their first block does not have. -/
theorem firstDigits_of_lead (h : dec.WellFormed) (hn : 0 < n) (hsize : dec.sizeDecimal = t + 1 + n)
    (hD : number (dec.digits.take dec.sizeDecimal) =
      number (dec.digits.take t) + base ^ t * (next + DIGITSBASE * D : ℕ))
    (hnext : next < DIGITSBASE) (hk : 0 < k) (hk9 : k ≤ 9)
    (hlow : 10 ^ (k - 1) * 10 ^ (9 * (n - 1)) ≤ D) (hhigh : D < 10 ^ k * 10 ^ (9 * (n - 1))) :
    FirstDigits dec n (dec.signed (D * 10 ^ (9 - k) + next / 10 ^ k))
      (dec.exponent * 9 + 9 * (t + 1) - (9 - k : ℕ)) ∧
    D * 10 ^ (9 - k) + next / 10 ^ k < 10 ^ (9 * n) := by
  rw [lead_eq hk9]
  set Q := next + DIGITSBASE * D with hQ
  have hpowk : 0 < 10 ^ k := Nat.pow_pos (by decide)
  have hbase : DIGITSBASE = 10 ^ 9 := by norm_num
  -- the number of decimal digits
  have hmin : 10 ^ (9 * n - 1) ≤ Q / 10 ^ k := by
    rw [Nat.le_div_iff_mul_le hpowk, hQ, hbase]
    have hexp : 10 ^ (9 * n - 1) * 10 ^ k = 10 ^ 9 * (10 ^ (k - 1) * 10 ^ (9 * (n - 1))) := by
      rw [← pow_add, ← pow_add, ← pow_add]
      congr 1
      omega
    rw [hexp]
    exact (Nat.mul_le_mul_left _ hlow).trans (Nat.le_add_left _ _)
  have hmax : Q / 10 ^ k < 10 ^ (9 * n) := by
    rw [Nat.div_lt_iff_lt_mul hpowk]
    have hexp : 10 ^ (9 * n) * 10 ^ k = 10 ^ 9 * (10 ^ k * 10 ^ (9 * (n - 1))) := by
      rw [← pow_add, ← pow_add, ← pow_add]
      congr 1
      omega
    have hstep : 10 ^ 9 * (D + 1) ≤ 10 ^ 9 * (10 ^ k * 10 ^ (9 * (n - 1))) :=
      Nat.mul_le_mul_left _ hhigh
    rw [hexp, hQ]
    rw [hbase] at hnext ⊢
    omega
  have hQle : Q / 10 ^ k * 10 ^ k ≤ Q := Nat.div_mul_le_self Q _
  have hQlt : Q + 1 ≤ 10 ^ k * (Q / 10 ^ k + 1) := Nat.lt_mul_div_succ Q hpowk
  generalize Q / 10 ^ k = m at hmin hmax hQle hQlt ⊢
  -- the digits behind the block `next` do not matter
  have hstored := h.stored
  have hlen : (dec.digits.take t).length = t := by
    rw [List.length_take]
    omega
  have hlow0 := number_nonneg (dec.digits.take t)
  have hlowt : number (dec.digits.take t) < base ^ t := by
    have hsub : dec.digits.take t ⊆ dec.valid := List.take_subset_take_left _ (by omega)
    have hlt := number_lt (h.digits.of_subset hsub)
    rwa [hlen] at hlt
  have hle : (m : ℤ) * 10 ^ k * base ^ t ≤ number dec.valid := by
    have hcast : (m : ℤ) * 10 ^ k ≤ Q := by exact_mod_cast hQle
    have hmul := mul_le_mul_of_nonneg_left hcast (base_pow_pos t).le
    rw [valid, hD]
    linarith
  have hlt : number dec.valid < ((m : ℤ) + 1) * 10 ^ k * base ^ t := by
    have hcast : (Q : ℤ) + 1 ≤ 10 ^ k * ((m : ℤ) + 1) := by exact_mod_cast hQlt
    have hmul := mul_le_mul_of_nonneg_left hcast (base_pow_pos t).le
    rw [valid, hD]
    linarith
  have hexp : (0 : ℚ) < (base : ℚ) ^ dec.exponent := base_zpow_pos _
  have hpow : (10 : ℚ) ^ (dec.exponent * 9 + 9 * (t + 1) - (9 - k : ℕ) : ℤ) =
      10 ^ k * (base : ℚ) ^ t * (base : ℚ) ^ dec.exponent := by
    have heq : (dec.exponent * 9 + 9 * (t + 1) - (9 - k : ℕ) : ℤ) =
        k + 9 * (t : ℤ) + 9 * dec.exponent := by
      push_cast [hk9]
      ring
    rw [heq, zpow_add₀ (by norm_num), zpow_add₀ (by norm_num), ← base_zpow, ← base_zpow,
      zpow_natCast, zpow_natCast]
  refine ⟨firstDigits_of_magnitude h ?_ ?_ (fun h0 => ?_) (fun _ => ⟨hmin, hmax⟩)
    (fun hle => absurd hle (by omega)), hmax⟩
  · rw [hpow, magnitude]
    refine le_of_eq_of_le ?_ (mul_le_mul_of_nonneg_right (Int.cast_le.mpr hle) hexp.le)
    push_cast
    ring
  · rw [hpow, magnitude]
    refine lt_of_lt_of_eq (mul_lt_mul_of_pos_right (Int.cast_lt.mpr hlt) hexp) ?_
    push_cast
    ring
  · rw [h0] at hmin
    exact absurd hmin (Nat.not_le.mpr (Nat.pow_pos (by decide)))

theorem firstDigits_of_exact (h : dec.WellFormed) (hn : dec.sizeDecimal ≤ n)
    (hm : number dec.valid = m) : FirstDigits dec n (dec.signed m) (dec.exponent * 9) := by
  have hexp : (0 : ℚ) < 10 ^ (dec.exponent * 9) := zpow_pos (by norm_num) _
  have hmag : dec.magnitude = m * 10 ^ (dec.exponent * 9) := by
    rw [magnitude, hm, base_zpow, mul_comm 9, Int.cast_natCast]
  refine firstDigits_of_magnitude h hmag.ge ?_ (fun h0 => ?_) (fun hlt => absurd hlt hn.not_gt)
    fun _ => hmag.symm
  · rw [hmag]
    exact mul_lt_mul_of_pos_right (lt_add_one _) hexp
  · by_contra hsize
    have hpos := h.magnitude_pos hsize
    rw [hmag, h0, Nat.cast_zero, zero_mul] at hpos
    exact hpos.false

/-! ## Values that fit -/

theorem i32_eq {z : ℤ} (h : -2 ^ 31 ≤ z ∧ z < 2 ^ 31) : i32 z = some z := if_pos h

theorem u32_eq (h : m < 2 ^ 32) : u32 m = some m := if_pos h

theorem u64_eq (h : m < 2 ^ 64) : u64 m = some m := if_pos h

theorem power10_eq (h : k ≤ 9) : power10Decimalhelper k = 10 ^ k := if_pos h

theorem i64_eq {z : ℤ} (h : -2 ^ 63 ≤ z ∧ z < 2 ^ 63) : i64 z = some z := if_pos h

theorem WellFormed.exponentDecimal_eq (h : dec.WellFormed) :
    exponentDecimal dec = some (dec.exponent * 9) := by
  have hge := h.exponent_ge
  have hle := h.exponent_le
  rw [INT16_MAX] at hle
  refine i32_eq ?_
  rw [digitsperintDecimal]
  push_cast
  constructor <;> omega

theorem WellFormed.exponent_add (h : dec.WellFormed) (ht : t < 256) :
    i32 (dec.exponent * 9 + (digitsperintDecimal : ℕ) * (t + 1 : ℕ)) =
      some (dec.exponent * 9 + 9 * (t + 1)) := by
  have hge := h.exponent_ge
  have hle := h.exponent_le
  rw [INT16_MAX] at hle
  refine (i32_eq ?_).trans ?_
  · rw [digitsperintDecimal]
    constructor <;> omega
  · rw [digitsperintDecimal]
    push_cast
    rfl

theorem two_blocks_lt {top mid : ℕ} (ht : top < DIGITSBASE) (hm : mid < DIGITSBASE) :
    top * DIGITSBASE + mid < 2 ^ 64 := by
  rw [DIGITSBASE] at *
  omega

theorem signed32_eq (hm : m < 2 ^ 31) :
    (if dec.isnegativeDecimal then i32 (-m) else some (m : ℤ)) = some (dec.signed m) := by
  rw [signed]
  split_ifs
  · exact i32_eq ⟨by omega, by omega⟩
  · rfl

theorem signed64_eq (hm : m < 2 ^ 63) :
    (if dec.isnegativeDecimal then i64 (-m) else some (m : ℤ)) = some (dec.signed m) := by
  rw [signed]
  split_ifs
  · exact i64_eq ⟨by omega, by omega⟩
  · rfl

/-! ## Blocks -/

theorem WellFormed.getD_lt (h : dec.WellFormed) (ht : t < dec.sizeDecimal) :
    dec.digits.getD t 0 < DIGITSBASE := by
  have hstored := h.stored
  rw [List.getD_eq_getElem _ _ (by omega)]
  refine h.digits _ ?_
  rw [valid, List.mem_take_iff_getElem]
  exact ⟨t, by omega, rfl⟩

theorem WellFormed.first_block (h : dec.WellFormed) (hsize : dec.sizeDecimal = t + 1) :
    10 ^ Nat.log 10 (dec.digits.getD t 0) ≤ dec.digits.getD t 0 ∧
      dec.digits.getD t 0 < 10 ^ (Nat.log 10 (dec.digits.getD t 0) + 1) ∧
      Nat.log 10 (dec.digits.getD t 0) + 1 ≤ 9 := by
  have hstored := h.stored
  have hlt := h.getD_lt (t := t) (by omega)
  have hlead := h.leading
  rw [Leading, valid, hsize, take_succ_getD (by omega), List.getLast?_concat] at hlead
  have hne : dec.digits.getD t 0 ≠ 0 := fun h0 => hlead (congrArg some h0)
  refine ⟨Nat.pow_log_le_self 10 hne, Nat.lt_pow_succ_log_self (by decide) _, ?_⟩
  exact Nat.log_lt_of_lt_pow hne (by rwa [DIGITSBASE] at hlt)

theorem WellFormed.number_first (h : dec.WellFormed) (hsize : dec.sizeDecimal = t + 2) :
    number (dec.digits.take dec.sizeDecimal) = number (dec.digits.take t) +
      base ^ t * (dec.digits.getD t 0 + DIGITSBASE * dec.digits.getD (t + 1) 0 : ℕ) := by
  have hstored := h.stored
  rw [hsize, number_take_succ (by omega), number_take_succ (by omega)]
  push_cast [← cast_DIGITSBASE]
  ring

/-! ## Both functions -/

theorem first9digitsDecimal_spec (h : dec.WellFormed) :
    ∃ m e, first9digitsDecimal dec = some (m, e) ∧ FirstDigits dec 1 m e := by
  have hle := dec.sizeDecimal_le
  have hge := h.exponent_ge
  have hle' := h.exponent_le
  rw [INT16_MAX] at hle'
  rw [first9digitsDecimal]
  simp only [h.exponentDecimal_eq, Option.bind_eq_bind, Option.bind_some]
  rcases hsize : dec.sizeDecimal with _ | _ | t
  · have hvalid : number dec.valid = (0 : ℕ) := by rw [valid, hsize, List.take_zero]; rfl
    simp only [ne_eq, not_true_eq_false, if_false, Option.bind_some]
    rw [i32_eq (by norm_num)]
    refine ⟨_, _, ?_, firstDigits_of_exact h (by omega) hvalid⟩
    rw [Option.bind_some, signed32_eq (by norm_num), Option.bind_some]
  · have hvalid : number dec.valid = (dec.digits.getD 0 0 : ℕ) := by
      rw [valid, hsize, number_take_succ (by have := h.stored; omega), List.take_zero, number_nil,
        pow_zero, zero_add, one_mul]
    have hlt : dec.digits.getD 0 0 < 2 ^ 31 :=
      (h.getD_lt (t := 0) (by omega)).trans (by norm_num)
    rw [if_pos (show 0 + 1 ≠ 0 by decide), if_neg (show ¬(0 + 1 - 1 ≠ 0) by decide),
      Option.bind_some]
    change ∃ m e, ((i32 (dec.digits.getD 0 0 : ℕ)).bind fun digits => _) = some (m, e) ∧ _
    generalize dec.digits.getD 0 0 = d at hvalid hlt ⊢
    rw [i32_eq ⟨by omega, by exact_mod_cast hlt⟩]
    refine ⟨_, _, ?_, firstDigits_of_exact h (by omega) hvalid⟩
    rw [Option.bind_some, signed32_eq hlt, Option.bind_some]
  · obtain ⟨hlow, hhigh, hk⟩ := h.first_block hsize
    have hD := h.number_first hsize
    have hnext := h.getD_lt (t := t) (by omega)
    have hlt := h.getD_lt (t := t + 1) (by omega)
    have hlog : log10Int32 (dec.digits.getD (t + 1) 0) = Nat.log 10 (dec.digits.getD (t + 1) 0) :=
      log10Int32_eq (hlt.trans (by norm_num))
    simp only [ne_eq, Nat.add_one_ne_zero, not_false_eq_true, if_true, Nat.add_sub_cancel,
      hlog]
    generalize dec.digits.getD t 0 = next at hD hnext ⊢
    generalize dec.digits.getD (t + 1) 0 = D at hlow hhigh hk hD hlt ⊢
    generalize hkeq : Nat.log 10 D + 1 = k at hhigh hk ⊢
    have hk0 : Nat.log 10 D = k - 1 := by omega
    rw [hk0] at hlow
    obtain ⟨hfirst, hmax⟩ := firstDigits_of_lead (n := 1) h one_pos hsize hD hnext (by omega) hk
      (by rwa [Nat.sub_self, Nat.mul_zero, pow_zero, mul_one])
      (by rwa [Nat.sub_self, Nat.mul_zero, pow_zero, mul_one])
    rw [h.exponent_add (by omega), Option.bind_some]
    by_cases hsmall : D < DIGITSBASE / 10
    · rw [if_pos hsmall, show unsignedSub digitsperintDecimal k = some (9 - k) from if_pos hk,
        Option.bind_some, i32_eq ⟨by omega, by omega⟩, Option.bind_some,
        power10_eq (Nat.sub_le 9 k), power10_eq hk]
      generalize D * 10 ^ (9 - k) = shifted at hfirst hmax ⊢
      generalize next / 10 ^ k = cut at hfirst hmax ⊢
      rw [u32_eq (by omega), Option.bind_some, u32_eq (by omega), Option.bind_some,
        Option.bind_some, i32_eq ⟨by omega, by omega⟩, Option.bind_some,
        signed32_eq (by omega), Option.bind_some]
      exact ⟨_, _, rfl, hfirst⟩
    · have hk9 : k = 9 := by
        refine le_antisymm hk (not_lt.mp fun hlt9 => hsmall (hhigh.trans_le ?_))
        exact Nat.pow_le_pow_right (by norm_num) (Nat.le_of_lt_succ hlt9)
      have hcut : D * 10 ^ (9 - k) + next / 10 ^ k = D := by
        rw [hk9, Nat.sub_self, pow_zero, mul_one,
          Nat.div_eq_of_lt (hnext.trans_eq (by norm_num)), add_zero]
      rw [hcut, hk9, Nat.sub_self, Nat.cast_zero, sub_zero] at hfirst
      rw [hcut] at hmax
      rw [if_neg hsmall, Option.bind_some, i32_eq ⟨by omega, by omega⟩, Option.bind_some,
        signed32_eq (by omega), Option.bind_some]
      exact ⟨_, _, rfl, hfirst⟩

theorem first18digitsDecimal_spec (h : dec.WellFormed) :
    ∃ m e, first18digitsDecimal dec = some (m, e) ∧ FirstDigits dec 2 m e := by
  have hle := dec.sizeDecimal_le
  have hge := h.exponent_ge
  have hle' := h.exponent_le
  rw [INT16_MAX] at hle'
  rw [first18digitsDecimal]
  simp only [h.exponentDecimal_eq, Option.bind_eq_bind, Option.bind_some]
  rcases hsize : dec.sizeDecimal with _ | _ | _ | t
  · have hvalid : number dec.valid = (0 : ℕ) := by rw [valid, hsize, List.take_zero]; rfl
    simp only [ne_eq, not_true_eq_false, if_false, Option.bind_some]
    rw [i64_eq (by norm_num)]
    refine ⟨_, _, ?_, firstDigits_of_exact h (by omega) hvalid⟩
    rw [Option.bind_some, signed64_eq (by norm_num), Option.bind_some]
  · have hvalid : number dec.valid = (dec.digits.getD 0 0 : ℕ) := by
      rw [valid, hsize, number_take_succ (by have := h.stored; omega), List.take_zero, number_nil,
        pow_zero, zero_add, one_mul]
    have hlt : dec.digits.getD 0 0 < 2 ^ 63 :=
      (h.getD_lt (t := 0) (by omega)).trans (by norm_num)
    rw [if_pos (show 0 + 1 ≠ 0 by decide), if_neg (show ¬(0 + 1 - 1 ≠ 0) by decide),
      Option.bind_some]
    change ∃ m e, ((i64 (dec.digits.getD 0 0 : ℕ)).bind fun digits => _) = some (m, e) ∧ _
    generalize dec.digits.getD 0 0 = d at hvalid hlt ⊢
    rw [i64_eq ⟨by omega, by exact_mod_cast hlt⟩]
    refine ⟨_, _, ?_, firstDigits_of_exact h (by omega) hvalid⟩
    rw [Option.bind_some, signed64_eq hlt, Option.bind_some]
  · have hvalid : number dec.valid =
        (dec.digits.getD 1 0 * DIGITSBASE + dec.digits.getD 0 0 : ℕ) := by
      rw [valid, h.number_first hsize, List.take_zero, number_nil, pow_zero, zero_add, one_mul,
        add_comm, mul_comm]
    have hlt := h.getD_lt (t := 1) (by omega)
    have hlt0 := h.getD_lt (t := 0) (by omega)
    rw [if_pos (show 0 + 1 + 1 ≠ 0 by decide), if_pos (show 0 + 1 + 1 - 1 ≠ 0 by decide)]
    change ∃ m e, (((u64 (dec.digits.getD 1 0 * DIGITSBASE)).bind fun digits =>
      (u64 (digits + dec.digits.getD 0 0)).bind fun digits => _).bind _) = some (m, e) ∧ _
    generalize dec.digits.getD 0 0 = next at hvalid hlt0 ⊢
    generalize dec.digits.getD 1 0 = top at hvalid hlt ⊢
    rw [DIGITSBASE] at *
    rw [u64_eq (by omega), Option.bind_some, u64_eq (by omega), Option.bind_some,
      if_neg (show ¬(0 + 1 + 1 - 1 - 1 ≠ 0) by decide), Option.bind_some]
    generalize hD : top * 1000000000 + next = D at hvalid ⊢
    rw [i64_eq ⟨by omega, by omega⟩, Option.bind_some, signed64_eq (by omega), Option.bind_some]
    exact ⟨_, _, rfl, firstDigits_of_exact h (by omega) hvalid⟩
  · obtain ⟨hlow, hhigh, hk⟩ := h.first_block hsize
    have hD := h.number_first hsize
    have hnext := h.getD_lt (t := t) (by omega)
    have hmid := h.getD_lt (t := t + 1) (by omega)
    have hlt := h.getD_lt (t := t + 2) (by omega)
    have hnumber : number (dec.digits.take dec.sizeDecimal) = number (dec.digits.take t) +
        base ^ t * (dec.digits.getD t 0 + DIGITSBASE *
          (dec.digits.getD (t + 2) 0 * DIGITSBASE + dec.digits.getD (t + 1) 0) : ℕ) := by
      have hstored := h.stored
      rw [hD, number_take_succ (by omega)]
      push_cast [← cast_DIGITSBASE]
      ring
    have hlog : log10Int64 (dec.digits.getD (t + 2) 0) = Nat.log 10 (dec.digits.getD (t + 2) 0) :=
      log10Int64_eq (hlt.trans (by norm_num))
    simp only [ne_eq, Nat.add_one_ne_zero, not_false_eq_true, if_true, Nat.add_sub_cancel, hlog]
    generalize dec.digits.getD t 0 = next at hnumber hnext ⊢
    generalize dec.digits.getD (t + 1) 0 = mid at hnumber hmid ⊢
    generalize dec.digits.getD (t + 2) 0 = top at hlow hhigh hk hnumber hlt ⊢
    generalize hkeq : Nat.log 10 top + 1 = k at hhigh hk ⊢
    have hk0 : Nat.log 10 top = k - 1 := by omega
    rw [hk0] at hlow
    have hD18 : top * DIGITSBASE + mid < 10 ^ k * 10 ^ (9 * (2 - 1)) := by
      have hstep : (top + 1) * DIGITSBASE ≤ 10 ^ k * DIGITSBASE := Nat.mul_le_mul_right _ hhigh
      rw [DIGITSBASE] at *
      omega
    obtain ⟨hfirst, hmax⟩ := firstDigits_of_lead (n := 2) h two_pos (by omega) hnumber hnext
      (by omega) hk ((Nat.mul_le_mul_right _ hlow).trans (Nat.le_add_right _ _)) hD18
    have htwo : top * DIGITSBASE + mid < 2 ^ 64 := two_blocks_lt hlt hmid
    rw [u64_eq ((Nat.le_add_right _ _).trans_lt htwo), Option.bind_some, u64_eq htwo,
      Option.bind_some, h.exponent_add (by omega), Option.bind_some]
    generalize top * DIGITSBASE + mid = D at hfirst hmax hD18 ⊢
    by_cases hsmall : k < digitsperintDecimal
    · rw [if_pos hsmall, show unsignedSub digitsperintDecimal k = some (9 - k) from if_pos hk,
        Option.bind_some, i32_eq ⟨by omega, by omega⟩, Option.bind_some,
        power10_eq (Nat.sub_le 9 k), power10_eq hk]
      generalize D * 10 ^ (9 - k) = shifted at hfirst hmax ⊢
      generalize next / 10 ^ k = cut at hfirst hmax ⊢
      rw [u64_eq (by omega), Option.bind_some, u64_eq (by omega), Option.bind_some,
        Option.bind_some, i64_eq ⟨by omega, by omega⟩, Option.bind_some,
        signed64_eq (by omega), Option.bind_some]
      exact ⟨_, _, rfl, hfirst⟩
    · have hk9 : k = 9 := le_antisymm hk (not_lt.mp hsmall)
      have hcut : D * 10 ^ (9 - k) + next / 10 ^ k = D := by
        rw [hk9, Nat.sub_self, pow_zero, mul_one,
          Nat.div_eq_of_lt (hnext.trans_eq (by norm_num)), add_zero]
      rw [hcut, hk9, Nat.sub_self, Nat.cast_zero, sub_zero] at hfirst
      rw [hcut] at hmax
      rw [if_neg hsmall, Option.bind_some, i64_eq ⟨by omega, by omega⟩, Option.bind_some,
        signed64_eq (by omega), Option.bind_some]
      exact ⟨_, _, rfl, hfirst⟩

/-- **The leading decimal digits are exact**, and no value exceeds its type. -/
theorem firstdigitsDecimal_spec (h : dec.WellFormed) :
    (∃ m e, first9digitsDecimal dec = some (m, e) ∧ FirstDigits dec 1 m e) ∧
      ∃ m e, first18digitsDecimal dec = some (m, e) ∧ FirstDigits dec 2 m e :=
  ⟨first9digitsDecimal_spec h, first18digitsDecimal_spec h⟩

/-- `-(7 * 10^18 + 123456789 * 10^9 + 5)`: one digit of the first block, eight of the second. -/
theorem firstdigitsDecimal_spec_one_digit :
    FirstDigits ⟨3, 131, 0, [5, 123456789, 7], by decide⟩ 1 (-712345678) 10 ∧
      FirstDigits ⟨3, 131, 0, [5, 123456789, 7], by decide⟩ 2 (-712345678900000000) 1 := by
  obtain ⟨⟨m, e, hrun, hfirst⟩, m', e', hrun', hfirst'⟩ :=
    @firstdigitsDecimal_spec ⟨3, 131, 0, [5, 123456789, 7], by decide⟩ (by decide +kernel)
  have heval : first9digitsDecimal ⟨3, 131, 0, [5, 123456789, 7], by decide⟩ =
      some (-712345678, 10) := by decide +kernel
  have heval' : first18digitsDecimal ⟨3, 131, 0, [5, 123456789, 7], by decide⟩ =
      some (-712345678900000000, 1) := by decide +kernel
  obtain ⟨rfl, rfl⟩ := Prod.mk.inj (Option.some.inj (hrun.symm.trans heval))
  obtain ⟨rfl, rfl⟩ := Prod.mk.inj (Option.some.inj (hrun'.symm.trans heval'))
  exact ⟨hfirst, hfirst'⟩

end Decimal
end CKern
