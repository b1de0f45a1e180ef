import CKern.Math.Bigint.Mult

/-!
# `math/int/bigint.c`: `shiftleft_bigint` and `shiftright_bigint`

Whole digits are shifted by the exponent, as far as there is one; the rest of at most 31 bits is
shifted in place.

* `shlDigit`: one digit of a shift to the left.  A shift to the right by `s` bits shifts all digits
  but the first one to the left by `32 - s` bits, and starts with what is left of the first one.
* `shiftleftBigint`, `shiftrightBigint`: the functions of the module.  `shiftright_bigint` takes the
  address of the digits in front of the allocation that may move them.
* `shiftBigint_exact_iff`: the shifts are exact, and an error changes nothing, if and only if no
  block is moved behind the back of `shiftright_bigint`.
-/

namespace CKern
namespace Bigint

open Positional

/-! ## The functions -/

/-- What the memory manager does if a block has to grow. -/
inductive Resize
  | inPlace
  | moved
  | fails
  deriving DecidableEq, Repr

/-- The error codes, with that of the memory manager. -/
inductive Err
  | errno (err : Errno)
  | ENOMEM
  deriving DecidableEq, Repr

/-- What a call does: it returns, with an error code or without, and the object is as given; or it
writes to memory that was freed. -/
inductive Outcome
  | returned (err : Option Err) (big : Bigint)
  | undefined
  deriving DecidableEq, Repr

/-- `allocate_bigint` for an object that exists. -/
def resizeBigint (mm : Resize) (big : Bigint) (allocateDigits : ℕ) : Except Err Bigint :=
  match allocateBigint (some big) allocateDigits with
  | .error err => .error (.errno err)
  | .ok new => if mm = .fails then .error .ENOMEM else .ok new

/-- `if ((*result)->allocated_digits < size) allocate_bigint(result, size)`. -/
def resize (mm : Resize) (big : Bigint) (size : ℕ) : Except Err Bigint :=
  if big.allocatedDigits < size then resizeBigint mm big size else .ok big

/-- One digit that is shifted to the left, with the bits that come from below and those that leave
it. -/
def shlDigit (digitShift : ℕ) (overflow digit : UInt32) : UInt32 × UInt32 :=
  split64 ((digit.toUInt64 <<< UInt64.ofNat digitShift) ||| overflow.toUInt64)

/-- `shiftleft_bigint`. -/
def shiftleftBigint (mm : Resize) (result : Bigint) (shiftCount : ℕ) : Outcome :=
  let nrdigits := result.nrdigits
  let incrExpont := shiftCount / 32
  let digitShift := shiftCount % 32
  let newExponent := incrExpont + result.exponent
  if nrdigits = 0 then .returned none result
  else if newExponent > UINT16_MAX then .returned (some (.errno .EOVERFLOW)) result
  else if digitShift = 0 then .returned none { result with exponent := uint16 newExponent }
  else
    let overflow := (shlDigit digitShift 0 (result.digits.getD (nrdigits - 1) 0)).2
    let shifted := (chain (shlDigit digitShift) 0 result.valid).1
    if overflow = 0 then
      .returned none { result with exponent := uint16 newExponent, digits := result.write shifted }
    else
      match resize mm result (1 + nrdigits) with
      | .error err => .returned (some err) result
      | .ok new =>
        .returned none
          (new.assign result.isnegative (1 + nrdigits) newExponent (shifted ++ [overflow]))

/-- The digits of a shift to the right, without the first `skipDigits`. -/
def shrDigits (digitShift skipDigits : ℕ) (ds : List UInt32) : List UInt32 :=
  let digit := ds.getD skipDigits 0 >>> UInt32.ofNat digitShift
  let shifted := chain (shlDigit (32 - digitShift)) digit (ds.drop (skipDigits + 1))
  shifted.1 ++ [shifted.2]

/-- `new_nrdigits -= (0 == digit)`, where `digit` is the last one of `ds`. -/
def dropZero (newNrdigits : ℕ) (ds : List UInt32) : ℕ :=
  newNrdigits - (decide (ds.getLastD 0 = 0)).toNat

/-- `shiftright_bigint`. -/
def shiftrightBigint (mm : Resize) (result : Bigint) (shiftCount : ℕ) : Outcome :=
  let nrdigits := result.nrdigits
  let decrExpont := shiftCount / 32
  let digitShift := shiftCount % 32
  -- one of these is 0
  let skipDigits := decrExpont - result.exponent
  let newExponent := result.exponent - decrExpont
  let newNrdigits := nrdigits - skipDigits
  if result.exponent ≤ decrExpont ∧ nrdigits ≤ skipDigits then
    .returned none { result with signAndUsedDigits := 0, exponent := 0 }
  else if digitShift = 0 then
    .returned none
      (result.assign result.isnegative newNrdigits newExponent (result.valid.drop skipDigits))
  else
    let ds := shrDigits digitShift skipDigits result.valid
    let rightbitsdigit := result.digits.getD 0 0 <<< UInt32.ofNat (32 - digitShift)
    if newExponent ≠ 0 ∧ rightbitsdigit ≠ 0 then
      -- the bits on the right are shifted into a new digit
      match resize mm result (newNrdigits + 1) with
      | .error err => .returned (some err) result
      | .ok new =>
        -- `destdigits` is the address of the digits in front of `allocate_bigint`
        if result.allocatedDigits < newNrdigits + 1 ∧ mm = .moved then .undefined
        else
          .returned none (new.assign result.isnegative (dropZero (newNrdigits + 1) ds)
            (newExponent - 1) (rightbitsdigit :: ds))
    else
      .returned none (result.assign result.isnegative (dropZero newNrdigits ds) newExponent ds)

/-! ## One digit -/

theorem toNat_shl_or {s : ℕ} (hs : s < 32) {c : UInt32} (hc : c.toNat < 2 ^ s) (d : UInt32) :
    ((d.toUInt64 <<< UInt64.ofNat s) ||| c.toUInt64).toNat = d.toNat * 2 ^ s + c.toNat := by
  have hd := d.toNat_lt
  have hlt : d.toNat * 2 ^ s < 2 ^ 64 := by
    calc d.toNat * 2 ^ s < 2 ^ 32 * 2 ^ s := Nat.mul_lt_mul_of_pos_right hd (Nat.two_pow_pos s)
      _ ≤ 2 ^ 32 * 2 ^ 32 := Nat.mul_le_mul_left _ (Nat.pow_le_pow_right Nat.two_pos hs.le)
      _ = 2 ^ 64 := by norm_num
  have hs64 : (UInt64.ofNat s).toNat % 64 = s := by
    rw [UInt64.toNat_ofNat', Nat.mod_eq_of_lt (show s < 2 ^ 64 by omega),
      Nat.mod_eq_of_lt (by omega)]
  rw [UInt64.toNat_or, UInt64.toNat_shiftLeft, UInt32.toNat_toUInt64, UInt32.toNat_toUInt64, hs64,
    Nat.mod_eq_of_lt (by rwa [Nat.shiftLeft_eq]), ← Nat.shiftLeft_add_eq_or_of_lt hc,
    Nat.shiftLeft_eq]

theorem shlDigit_value {s : ℕ} (hs : s < 32) {c : UInt32} (hc : c.toNat < 2 ^ s) (d : UInt32) :
    ((shlDigit s c d).1.toNat : ℤ) + base * (shlDigit s c d).2.toNat =
      2 ^ s * d.toNat + c.toNat := by
  rw [shlDigit, split64_value, toNat_shl_or hs hc]
  push_cast
  ring

theorem shlDigit_snd {s : ℕ} (hs : s < 32) {c : UInt32} (hc : c.toNat < 2 ^ s) (d : UInt32) :
    (shlDigit s c d).2.toNat = d.toNat / 2 ^ (32 - s) := by
  have h := (d.toUInt64 <<< UInt64.ofNat s ||| c.toUInt64).toNat_lt
  have hpow : 2 ^ 32 = 2 ^ s * 2 ^ (32 - s) := by
    rw [← Nat.pow_add, Nat.add_sub_cancel' hs.le]
  rw [shlDigit, split64, UInt64.toNat_toUInt32, UInt64.toNat_shiftRight, Nat.shiftRight_eq_div_pow]
  rw [toNat_shl_or hs hc] at h ⊢
  change (_ / 2 ^ 32) % 2 ^ 32 = _
  rw [Nat.mod_eq_of_lt (by omega), hpow, ← Nat.div_div_eq_div_mul, Nat.mul_comm d.toNat,
    Nat.mul_add_div (Nat.two_pow_pos s), Nat.div_eq_of_lt hc, Nat.add_zero]

theorem shlDigit_carry {s : ℕ} (hs : s < 32) {c : UInt32} (hc : c.toNat < 2 ^ s) (d : UInt32) :
    (shlDigit s c d).2.toNat < 2 ^ s := by
  rw [shlDigit_snd hs hc, Nat.div_lt_iff_lt_mul (Nat.two_pow_pos _), ← Nat.pow_add,
    Nat.add_sub_cancel' hs.le]
  exact d.toNat_lt

/-! ## All digits -/

variable {s : ℕ} {c : UInt32} {ds : List UInt32}

theorem shlDigits_value (hs : s < 32) (hc : c.toNat < 2 ^ s) (ds : List UInt32) :
    number (chain (shlDigit s) c ds).1 + base ^ ds.length * (chain (shlDigit s) c ds).2.toNat =
      2 ^ s * number ds + c.toNat := by
  have h := chain_eval (shlDigit s) (b := base) (g := fun d => (d.toNat : ℤ))
    (f := fun d => (2 ^ s * d.toNat : ℤ)) (v := fun c => (c.toNat : ℤ))
    (I := fun c => c.toNat < 2 ^ s) (fun c d hc => shlDigit_carry hs hc d)
    (fun c d hc => shlDigit_value hs hc d) hc ds
  rw [eval_mul_left] at h
  exact h

theorem chain_concat_snd {α κ β : Type*} (step : κ → α → β × κ) (c : κ) (xs : List α) (x : α) :
    (chain step c (xs ++ [x])).2 = (step (chain step c xs).2 x).2 := by
  induction xs generalizing c with
  | nil => rfl
  | cons y xs ih => exact ih _

theorem shlDigits_snd (hs : s < 32) (hne : ds ≠ []) :
    (chain (shlDigit s) 0 ds).2 = (shlDigit s 0 (ds.getD (ds.length - 1) 0)).2 := by
  have hzero : (0 : UInt32).toNat < 2 ^ s := Nat.two_pow_pos s
  obtain ⟨xs, x, rfl⟩ : ∃ xs x, ds = xs ++ [x] :=
    ⟨ds.dropLast, ds.getLast hne, (List.dropLast_append_getLast hne).symm⟩
  have hlast : (xs ++ [x]).getD ((xs ++ [x]).length - 1) 0 = x := by
    simp [List.getD_eq_getElem?_getD]
  rw [chain_concat_snd, hlast, ← UInt32.toNat_inj, shlDigit_snd hs hzero, shlDigit_snd hs]
  exact chain_carry (shlDigit s) (I := fun c => c.toNat < 2 ^ s)
    (fun c d hc => shlDigit_carry hs hc d) hzero xs

theorem base_eq_pow (hs : s ≤ 32) : base = 2 ^ s * 2 ^ (32 - s) := by
  rw [base, ← pow_add, Nat.add_sub_cancel' hs]

theorem toNat_shr (hs : s < 32) (d : UInt32) :
    (d >>> UInt32.ofNat s).toNat = d.toNat / 2 ^ s := by
  rw [UInt32.toNat_shiftRight, UInt32.toNat_ofNat', Nat.mod_eq_of_lt (show s < 2 ^ 32 by omega),
    Nat.mod_eq_of_lt hs, Nat.shiftRight_eq_div_pow]

/-- **A shift to the right**: the digits are the quotient. -/
theorem shrDigits_value (hs0 : 0 < s) (hs : s < 32) {k : ℕ} (hk : k < ds.length) :
    number (shrDigits s k ds) = number (ds.drop k) / 2 ^ s ∧
      (shrDigits s k ds).length = ds.length - k := by
  have hd : (ds.getD k 0 >>> UInt32.ofNat s).toNat < 2 ^ (32 - s) := by
    rw [toNat_shr hs, Nat.div_lt_iff_lt_mul (Nat.two_pow_pos s), ← Nat.pow_add,
      Nat.sub_add_cancel hs.le]
    exact (ds.getD k 0).toNat_lt
  have hdrop : ds.drop k = ds.getD k 0 :: ds.drop (k + 1) := by
    rw [List.drop_eq_getElem_cons hk, List.getD_eq_getElem _ _ hk]
  constructor
  · have hval := shlDigits_value (s := 32 - s) (by omega) hd (ds.drop (k + 1))
    rw [toNat_shr hs] at hval
    rw [shrDigits, hdrop, number_append, number_cons, number_nil, mul_zero, add_zero, length_chain,
      hval, number_cons, base_eq_pow hs.le, mul_assoc,
      Int.add_mul_ediv_left _ _ (pow_ne_zero s two_ne_zero)]
    push_cast
    ring
  · rw [shrDigits, List.length_append, length_chain, List.length_drop, List.length_singleton]
    omega

theorem toNat_rightbits (hs0 : 0 < s) (hs : s < 32) (d : UInt32) :
    ((d <<< UInt32.ofNat (32 - s)).toNat : ℤ) = (d.toNat : ℤ) % 2 ^ s * 2 ^ (32 - s) := by
  rw [UInt32.toNat_shiftLeft, UInt32.toNat_ofNat',
    Nat.mod_eq_of_lt (show 32 - s < 2 ^ 32 by omega), Nat.mod_eq_of_lt (show 32 - s < 32 by omega),
    Nat.shiftLeft_eq,
    show 2 ^ 32 = 2 ^ s * 2 ^ (32 - s) by rw [← pow_add, Nat.add_sub_cancel' hs.le],
    Nat.mul_mod_mul_right]
  push_cast
  rfl

theorem take_dropZero {ds : List UInt32} {n : ℕ} (hlen : ds.length = n + 1)
    (h : n = 0 ∨ base ^ (n - 1) ≤ number ds) :
    Leading (ds.take (dropZero (n + 1) ds)) ∧
      number (ds.take (dropZero (n + 1) ds)) = number ds ∧ n ≤ dropZero (n + 1) ds := by
  have hne : ds ≠ [] := List.ne_nil_of_length_eq_add_one hlen
  obtain ⟨xs, x, rfl⟩ : ∃ xs x, ds = xs ++ [x] :=
    ⟨ds.dropLast, ds.getLast hne, (List.dropLast_append_getLast hne).symm⟩
  have hxs : xs.length = n := by
    rw [List.length_append, List.length_singleton] at hlen
    omega
  have hlast : (xs ++ [x]).getLastD 0 = x := by
    rw [List.getLastD_eq_getLast?, List.getLast?_concat, Option.getD_some]
  rw [dropZero, hlast]
  by_cases hx : x = 0
  · have hnum : number (xs ++ [x]) = number xs := by
      rw [number_append, hx, number_cons, number_nil]
      simp
    rw [decide_eq_true hx, Bool.toNat_true, Nat.add_sub_cancel, List.take_left' hxs, hnum]
    refine ⟨?_, rfl, le_rfl⟩
    rw [hnum] at h
    rcases h with h | h
    · rw [List.eq_nil_of_length_eq_zero (hxs.trans h)]
      simp [Leading]
    · exact leading_of_pow_le (by rwa [hxs])
  · rw [decide_eq_false hx, Bool.toNat_false, Nat.sub_zero, ← hlen, List.take_length]
    exact ⟨Leading.append_left (by simpa [Leading] using hx) (List.cons_ne_nil _ _), rfl, by omega⟩

/-! ## The results -/

/-- What a shift shall do: it returns the value, or an error and the object as it was. -/
def Outcome.Exact (outcome : Outcome) (big : Bigint) (v : ℤ) : Prop :=
  match outcome with
  | .returned none new => new.WellFormed ∧ new.value = v
  | .returned (some _) new => new = big
  | .undefined => False

theorem resize_le {mm : Resize} {big new : Bigint} {size : ℕ} (h : resize mm big size = .ok new) :
    size ≤ INT16_MAX := by
  rw [resize] at h
  split_ifs at h with hlt
  · rw [resizeBigint] at h
    split at h
    · cases h
    · rename_i new' hnew
      exact (allocateBigint_spec hnew).1.trans new'.allocated_le
  · exact (not_lt.mp hlt).trans big.allocated_le

theorem assign_exact {big result : Bigint} {size exponent : ℕ} {ds : List UInt32} {v : ℤ}
    (hs : size ≤ INT16_MAX) (hd : size ≤ ds.length) (he : exponent ≤ UINT16_MAX)
    (hl : Leading (ds.take size)) (h0 : size = 0 → exponent = 0)
    (hv : number (ds.take size) * base ^ exponent = v) :
    (big.assign result.isnegative size exponent ds).WellFormed ∧
      (big.assign result.isnegative size exponent ds).value =
        if result.isnegative then -v else v := by
  refine ⟨assign_wellFormed big result.isnegative hs hd he hl h0, ?_⟩
  rw [assign_value big result.isnegative hs hd he, hv]
  split_ifs
  · exact neg_one_mul v
  · exact one_mul v

theorem WellFormed.sign_eq {big : Bigint} (h : big.WellFormed) :
    int16 (if big.isnegative then -(big.nrdigits : ℤ) else big.nrdigits) =
      big.signAndUsedDigits := by
  have hsign : (if big.isnegative then -(big.nrdigits : ℤ) else big.nrdigits) =
      big.signAndUsedDigits := by
    rw [isnegative, nrdigits]
    split_ifs with hneg
    · have := of_decide_eq_true hneg
      omega
    · have := mt decide_eq_true hneg
      omega
  rw [hsign]
  exact h.int16_natAbs rfl

theorem pow_shift (n : ℕ) : (2 : ℤ) ^ n = base ^ (n / 32) * 2 ^ (n % 32) := by
  rw [base, ← pow_mul, ← pow_add, Nat.div_add_mod]

theorem value_mul_pow (big : Bigint) (z : ℤ) :
    big.value * z = if big.isnegative then -(big.magnitude * z) else big.magnitude * z := by
  rw [value_eq]
  split_ifs
  · exact neg_mul _ _
  · rfl

theorem WellFormed.pow_le_valid {big : Bigint} (h : big.WellFormed) (h0 : big.nrdigits ≠ 0) :
    base ^ (big.nrdigits - 1) ≤ number big.valid := by
  have hle := pow_le_number h.leading (h.valid_ne_nil h0)
  rwa [h.length_valid] at hle

theorem one_le_two_pow (n : ℕ) : (1 : ℤ) ≤ 2 ^ n := one_le_pow₀ one_le_two

theorem getD_valid {big : Bigint} {i : ℕ} (h : i < big.nrdigits) :
    big.valid.getD i 0 = big.digits.getD i 0 := by
  rw [valid, List.getD_eq_getElem?_getD, List.getD_eq_getElem?_getD, List.getElem?_take_of_lt h]

theorem shlDigits_valid {big : Bigint} (h : big.WellFormed) (h0 : big.nrdigits ≠ 0) (hs : s < 32) :
    number (chain (shlDigit s) 0 big.valid).1 + base ^ big.nrdigits *
        (shlDigit s 0 (big.digits.getD (big.nrdigits - 1) 0)).2.toNat =
      2 ^ s * number big.valid := by
  have hlen := h.length_valid
  have hval := shlDigits_value (c := 0) hs (Nat.two_pow_pos s) big.valid
  rw [shlDigits_snd hs (h.valid_ne_nil h0), hlen, getD_valid (Nat.sub_one_lt h0),
    UInt32.toNat_zero, Nat.cast_zero, add_zero] at hval
  exact hval

/-- **A shift to the left is exact.** -/
theorem shiftleftBigint_exact (mm : Resize) {result : Bigint} (h : result.WellFormed) (n : ℕ) :
    (shiftleftBigint mm result n).Exact result (result.value * 2 ^ n) := by
  rw [shiftleftBigint]
  dsimp only
  have hlen := h.length_valid
  have hmag : result.magnitude * 2 ^ n =
      2 ^ (n % 32) * number result.valid * base ^ (n / 32 + result.exponent) := by
    rw [magnitude, pow_shift n, pow_add]
    ring
  split_ifs with h0 hexp hs hov
  · refine ⟨h, ?_⟩
    rw [value_eq, magnitude_eq_zero h0]
    simp
  · rfl
  · have heq : ({ result with exponent := uint16 (n / 32 + result.exponent : ℕ) } : Bigint) =
        { result with exponent := n / 32 + result.exponent } := by
      rw [uint16_of_le (not_lt.mp hexp)]
    rw [heq]
    refine ⟨⟨h.nrdigits_le, h.stored, not_lt.mp hexp, h.leading, fun hz => absurd hz h0⟩, ?_⟩
    rw [value_mul_pow, hmag, hs, pow_zero, one_mul, value_eq]
    rfl
  · have hds := shlDigits_valid h h0 (s := n % 32) (Nat.mod_lt n (by norm_num))
    rw [hov, UInt32.toNat_zero, Nat.cast_zero, mul_zero, add_zero] at hds
    set shifted := (chain (shlDigit (n % 32)) 0 result.valid).1 with hshifted
    have hslen : shifted.length = result.nrdigits := by rw [hshifted, length_chain, hlen]
    have heq : ({ result with
          exponent := uint16 (n / 32 + result.exponent : ℕ)
          digits := result.write shifted } : Bigint) =
        result.assign result.isnegative result.nrdigits (n / 32 + result.exponent) shifted := by
      rw [assign, h.sign_eq]
    have htake : shifted.take result.nrdigits = shifted := by rw [← hslen, List.take_length]
    have hle : base ^ (shifted.length - 1) ≤ number shifted := by
      rw [hds, hslen]
      exact (h.pow_le_valid h0).trans (le_mul_of_one_le_left (number_nonneg _) (one_le_two_pow _))
    rw [heq, value_mul_pow, hmag]
    exact assign_exact h.nrdigits_le hslen.ge (not_lt.mp hexp)
      (by rw [htake]; exact leading_of_pow_le hle) (fun hz => absurd hz h0) (by rw [htake, hds])
  · have hds := shlDigits_valid h h0 (s := n % 32) (Nat.mod_lt n (by norm_num))
    set shifted := (chain (shlDigit (n % 32)) 0 result.valid).1 with hshifted
    set overflow := (shlDigit (n % 32) 0 (result.digits.getD (result.nrdigits - 1) 0)).2
    have hslen : (shifted ++ [overflow]).length = 1 + result.nrdigits := by
      rw [List.length_append, hshifted, length_chain, hlen, List.length_singleton, add_comm]
    have hnum : number (shifted ++ [overflow]) = 2 ^ (n % 32) * number result.valid := by
      rw [number_append, hshifted, length_chain, hlen, number_cons, number_nil, mul_zero, add_zero,
        hds]
    have htake : (shifted ++ [overflow]).take (1 + result.nrdigits) = shifted ++ [overflow] := by
      rw [← hslen, List.take_length]
    cases hnew : resize mm result (1 + result.nrdigits) with
    | error err => rfl
    | ok new =>
      dsimp only
      rw [value_mul_pow, hmag]
      exact assign_exact (resize_le hnew) hslen.ge (not_lt.mp hexp)
        (by
          rw [htake]
          exact Leading.append_left (by simpa [Leading] using hov) (List.cons_ne_nil _ _))
        (fun hz => by omega) (by rw [htake, hnum])

theorem number_div_pow (ds : List UInt32) (k : ℕ) :
    number ds / base ^ k = number (ds.drop k) := by
  induction k generalizing ds with
  | zero => rw [pow_zero, Int.ediv_one, List.drop_zero]
  | succ k ih =>
    cases ds with
    | nil => rw [List.drop_nil, number_nil, Int.zero_ediv]
    | cons d ds =>
      have hd : (d.toNat : ℤ) / base = 0 :=
        Int.ediv_eq_zero_of_lt (Int.natCast_nonneg _) (by linarith [toNat_add_one_le d])
      rw [pow_succ', ← Int.ediv_ediv_of_nonneg base_pos.le, number_cons,
        Int.add_mul_ediv_left _ _ base_pos.ne', hd, zero_add, ih, List.drop_succ_cons]

theorem magnitude_div (big : Bigint) (n : ℕ) :
    big.magnitude / 2 ^ n =
      number (big.valid.drop (n / 32 - big.exponent)) * base ^ (big.exponent - n / 32) /
        2 ^ (n % 32) := by
  rw [magnitude, pow_shift n, ← Int.ediv_ediv_of_nonneg (base_pow_pos _).le]
  congr 1
  rcases Nat.le_total big.exponent (n / 32) with hle | hle
  · obtain ⟨k, hk⟩ := Nat.exists_eq_add_of_le hle
    rw [hk, Nat.add_sub_cancel_left, Nat.sub_eq_zero_of_le (Nat.le_add_right _ _), pow_zero,
      mul_one, pow_add, Int.mul_comm (number _), Int.mul_ediv_mul_of_pos _ _ (base_pow_pos _),
      number_div_pow]
  · obtain ⟨k, hk⟩ := Nat.exists_eq_add_of_le hle
    rw [hk, Nat.add_sub_cancel_left, Nat.sub_eq_zero_of_le (Nat.le_add_right _ _), List.drop_zero,
      pow_add, mul_left_comm, Int.mul_ediv_cancel_left _ (base_pow_pos _).ne']

theorem tdiv_value (big : Bigint) (n : ℕ) :
    big.value.tdiv (2 ^ n) =
      if big.isnegative then -(big.magnitude / 2 ^ n) else big.magnitude / 2 ^ n := by
  have hnonneg : 0 ≤ big.magnitude := mul_nonneg (number_nonneg _) (base_pow_pos _).le
  rw [value_eq]
  split_ifs
  · rw [Int.neg_tdiv, Int.tdiv_eq_ediv_of_nonneg hnonneg]
  · rw [Int.tdiv_eq_ediv_of_nonneg hnonneg]

theorem pow_le_shrDigits (hs0 : 0 < s) (hs : s < 32) {k : ℕ} (hk : k < ds.length)
    (hl : Leading ds) :
    ds.length - k - 1 = 0 ∨ base ^ (ds.length - k - 1 - 1) ≤ number (shrDigits s k ds) := by
  rcases Nat.eq_zero_or_pos (ds.length - k - 1) with h0 | hpos
  · exact Or.inl h0
  · refine Or.inr ?_
    have hne : ds.drop k ≠ [] := fun hnil => by
      rw [List.drop_eq_nil_iff] at hnil
      omega
    have hle := pow_le_number (hl.of_suffix (List.drop_suffix k ds)) hne
    have h2 : (2 : ℤ) ^ s ≤ base := pow_le_pow_right₀ one_le_two hs.le
    rw [List.length_drop] at hle
    rw [(shrDigits_value hs0 hs hk).1]
    refine Int.le_ediv_of_mul_le (pow_pos two_pos s) (le_trans ?_ hle)
    calc base ^ (ds.length - k - 1 - 1) * 2 ^ s
        ≤ base ^ (ds.length - k - 1 - 1) * base :=
          mul_le_mul_of_nonneg_left h2 (base_pow_pos _).le
      _ = base ^ (ds.length - k - 1) := by rw [← pow_succ, Nat.sub_add_cancel hpos]

/-- The block is moved while `shiftright_bigint` holds the address of its digits. -/
def MovesDigits (mm : Resize) (big : Bigint) (n : ℕ) : Prop :=
  mm = .moved ∧ n / 32 < big.exponent ∧ n % 32 ≠ 0 ∧
    big.digits.getD 0 0 <<< UInt32.ofNat (32 - n % 32) ≠ 0 ∧
    big.allocatedDigits < big.nrdigits + 1 ∧ big.allocatedDigits ≠ 0 ∧ big.nrdigits < INT16_MAX

instance (mm : Resize) (big : Bigint) (n : ℕ) : Decidable (MovesDigits mm big n) :=
  inferInstanceAs (Decidable (_ ∧ _))

theorem number_eq_shrDigits (hs0 : 0 < s) (hs : s < 32) (hds : 0 < ds.length) :
    2 ^ s * number (shrDigits s 0 ds) + ((ds.getD 0 0).toNat : ℤ) % 2 ^ s = number ds := by
  rw [(shrDigits_value hs0 hs hds).1, List.drop_zero]
  cases ds with
  | nil => exact absurd hds (lt_irrefl 0)
  | cons d ds =>
    have hmod : number (d :: ds) % 2 ^ s = (d.toNat : ℤ) % 2 ^ s := by
      rw [number_cons, base_eq_pow hs.le, mul_assoc, Int.add_mul_emod_self_left]
    rw [List.getD_cons_zero, ← hmod]
    exact Int.mul_ediv_add_emod _ _

theorem shift_with_exponent (hs0 : 0 < s) (hs : s < 32) (hds : 0 < ds.length) {e : ℕ} (he : e ≠ 0) :
    number ds * base ^ e / 2 ^ s =
      (number (shrDigits s 0 ds) * base +
        (((ds.getD 0 0) <<< UInt32.ofNat (32 - s)).toNat : ℤ)) * base ^ (e - 1) := by
  obtain ⟨e, rfl⟩ := Nat.exists_eq_succ_of_ne_zero he
  rw [← number_eq_shrDigits hs0 hs hds, toNat_rightbits hs0 hs, Nat.succ_sub_one,
    Nat.succ_eq_add_one, pow_succ]
  refine Int.ediv_eq_of_eq_mul_right (pow_ne_zero s two_ne_zero) ?_
  rw [base_eq_pow hs.le]
  ring

theorem WellFormed.skip_lt {big : Bigint} (h : big.WellFormed) {n : ℕ}
    (hzero : ¬(big.exponent ≤ n / 32 ∧ big.nrdigits ≤ n / 32 - big.exponent)) :
    n / 32 - big.exponent < big.nrdigits := by
  by_contra hle
  rcases Nat.le_total big.exponent (n / 32) with he | he
  · exact hzero ⟨he, not_lt.mp hle⟩
  · have hexp := h.exponent_zero (by omega)
    exact hzero ⟨by omega, not_lt.mp hle⟩

theorem shiftright_digits {result : Bigint} (h : result.WellFormed) {n : ℕ} (hs : n % 32 = 0)
    (hskip : n / 32 - result.exponent < result.nrdigits) :
    (Outcome.returned none (result.assign result.isnegative
      (result.nrdigits - (n / 32 - result.exponent)) (result.exponent - n / 32)
      (result.valid.drop (n / 32 - result.exponent)))).Exact result
      (result.value.tdiv (2 ^ n)) := by
  have hdrop : (result.valid.drop (n / 32 - result.exponent)).length =
      result.nrdigits - (n / 32 - result.exponent) := by
    rw [List.length_drop, h.length_valid]
  have hle := h.nrdigits_le
  rw [tdiv_value, magnitude_div, hs, pow_zero, Int.ediv_one]
  refine assign_exact (by omega) hdrop.ge ((Nat.sub_le _ _).trans h.exponent_le) ?_
    (fun hz => by omega) ?_
  · rw [← hdrop, List.take_length]
    exact h.leading.of_suffix (List.drop_suffix _ _)
  · rw [← hdrop, List.take_length]

theorem shiftright_quotient {result : Bigint} {n : ℕ} (hs : n % 32 ≠ 0)
    (hskip : n / 32 - result.exponent < result.valid.length)
    (hbits : result.exponent - n / 32 ≠ 0 →
      result.valid.getD 0 0 <<< UInt32.ofNat (32 - n % 32) = 0) :
    number (shrDigits (n % 32) (n / 32 - result.exponent) result.valid) *
        base ^ (result.exponent - n / 32) = result.magnitude / 2 ^ n := by
  have hs32 : n % 32 < 32 := Nat.mod_lt n (by norm_num)
  rw [magnitude_div]
  by_cases he : result.exponent - n / 32 = 0
  · rw [he, pow_zero, mul_one, mul_one, (shrDigits_value (Nat.pos_of_ne_zero hs) hs32 hskip).1]
  · have hk : n / 32 - result.exponent = 0 := by omega
    rw [hk] at hskip ⊢
    rw [List.drop_zero, shift_with_exponent (Nat.pos_of_ne_zero hs) hs32 hskip he, hbits he,
      UInt32.toNat_zero, Nat.cast_zero, add_zero, mul_assoc, ← pow_succ', Nat.sub_one_add_one he]

theorem shiftright_bits {result : Bigint} (h : result.WellFormed) {n : ℕ} (hs : n % 32 ≠ 0)
    (hskip : n / 32 - result.exponent < result.nrdigits)
    (hbits : result.exponent - n / 32 ≠ 0 →
      result.digits.getD 0 0 <<< UInt32.ofNat (32 - n % 32) = 0) :
    (Outcome.returned none (result.assign result.isnegative
      (dropZero (result.nrdigits - (n / 32 - result.exponent))
        (shrDigits (n % 32) (n / 32 - result.exponent) result.valid))
      (result.exponent - n / 32)
      (shrDigits (n % 32) (n / 32 - result.exponent) result.valid))).Exact result
      (result.value.tdiv (2 ^ n)) := by
  have hlen := h.length_valid
  have hs32 : n % 32 < 32 := Nat.mod_lt n (by norm_num)
  have hk : n / 32 - result.exponent < result.valid.length := hlen.symm ▸ hskip
  rw [← getD_valid (by omega)] at hbits
  have hquot := shiftright_quotient hs hk hbits
  obtain ⟨-, hdslen⟩ := shrDigits_value (Nat.pos_of_ne_zero hs) hs32 hk
  have hlow := pow_le_shrDigits (Nat.pos_of_ne_zero hs) hs32 hk h.leading
  rw [hlen] at hdslen hlow
  obtain ⟨m, hm⟩ : ∃ m, result.nrdigits - (n / 32 - result.exponent) = m + 1 :=
    Nat.exists_eq_succ_of_ne_zero (by omega)
  rw [hm] at hdslen hlow ⊢
  obtain ⟨hlead, hnum, -⟩ := take_dropZero hdslen hlow
  have hle := h.nrdigits_le
  have hdle : dropZero (m + 1)
      (shrDigits (n % 32) (n / 32 - result.exponent) result.valid) ≤ m + 1 := Nat.sub_le _ _
  rw [tdiv_value]
  refine assign_exact (by omega) (hdle.trans hdslen.ge) ((Nat.sub_le _ _).trans h.exponent_le)
    hlead (fun hz => ?_) (by rw [hnum, hquot])
  -- no digit is left only if the number was smaller than the power of two
  by_contra he
  have hk0 : n / 32 - result.exponent = 0 := by omega
  rw [hz, List.take_zero, number_nil] at hnum
  rw [hk0] at hnum hk
  have hback := number_eq_shrDigits (Nat.pos_of_ne_zero hs) hs32 hk
  have hrb := toNat_rightbits (Nat.pos_of_ne_zero hs) hs32 (result.valid.getD 0 0)
  rw [hbits he, UInt32.toNat_zero, Nat.cast_zero, eq_comm,
    mul_eq_zero_iff_right (pow_ne_zero _ two_ne_zero)] at hrb
  rw [← hnum, hrb] at hback
  have hpos := number_pos h.leading (List.ne_nil_of_length_pos hk)
  omega

theorem shiftright_newdigit {result new : Bigint} (h : result.WellFormed) {n : ℕ}
    (hs : n % 32 ≠ 0) (hskip : n / 32 - result.exponent < result.nrdigits)
    (he : result.exponent - n / 32 ≠ 0)
    (hbits : result.digits.getD 0 0 <<< UInt32.ofNat (32 - n % 32) ≠ 0)
    (hsize : result.nrdigits - (n / 32 - result.exponent) + 1 ≤ INT16_MAX) :
    (Outcome.returned none (new.assign result.isnegative
      (dropZero (result.nrdigits - (n / 32 - result.exponent) + 1)
        (shrDigits (n % 32) (n / 32 - result.exponent) result.valid))
      (result.exponent - n / 32 - 1)
      (result.digits.getD 0 0 <<< UInt32.ofNat (32 - n % 32) ::
        shrDigits (n % 32) (n / 32 - result.exponent) result.valid))).Exact result
      (result.value.tdiv (2 ^ n)) := by
  have hlen := h.length_valid
  have hs32 : n % 32 < 32 := Nat.mod_lt n (by norm_num)
  have hk0 : n / 32 - result.exponent = 0 := by omega
  rw [hk0] at hskip hsize ⊢
  rw [Nat.sub_zero] at hsize ⊢
  have hk : 0 < result.valid.length := hlen.symm ▸ hskip
  rw [← getD_valid hskip] at hbits ⊢
  obtain ⟨-, hdslen⟩ := shrDigits_value (Nat.pos_of_ne_zero hs) hs32 hk
  have hlow := pow_le_shrDigits (Nat.pos_of_ne_zero hs) hs32 hk h.leading
  rw [Nat.sub_zero] at hdslen hlow
  rw [hlen] at hdslen hlow
  obtain ⟨m, hm⟩ : ∃ m, result.nrdigits = m + 1 := Nat.exists_eq_succ_of_ne_zero hskip.ne'
  rw [hm] at hdslen hlow hsize ⊢
  obtain ⟨hlead, hnum, -⟩ := take_dropZero hdslen hlow
  have hone : dropZero (m + 1 + 1) (shrDigits (n % 32) 0 result.valid) =
      dropZero (m + 1) (shrDigits (n % 32) 0 result.valid) + 1 := by
    have := Bool.toNat_le (decide ((shrDigits (n % 32) 0 result.valid).getLastD 0 = 0))
    rw [dropZero, dropZero]
    omega
  have hdle : dropZero (m + 1) (shrDigits (n % 32) 0 result.valid) ≤ m + 1 := Nat.sub_le _ _
  have hexp := h.exponent_le
  rw [tdiv_value, magnitude_div, hk0, List.drop_zero,
    shift_with_exponent (Nat.pos_of_ne_zero hs) hs32 hk he, hone]
  refine assign_exact (by omega) ?_ (by omega) ?_ (fun hz => by omega) ?_
  · rw [List.length_cons, hdslen]
    omega
  · rw [List.take_succ_cons]
    by_cases hnil : (shrDigits (n % 32) 0 result.valid).take
        (dropZero (m + 1) (shrDigits (n % 32) 0 result.valid)) = []
    · rw [hnil]
      simpa [Leading] using hbits
    · exact @Leading.append_left [_] _ hlead hnil
  · rw [List.take_succ_cons, number_cons, hnum]
    ring

theorem resize_of_lt {mm : Resize} {big new : Bigint} {size : ℕ} (h : resize mm big size = .ok new)
    (hlt : big.allocatedDigits < size) : big.allocatedDigits ≠ 0 := by
  intro h0
  obtain ⟨err, herr⟩ : ∃ err, allocateBigint (some big) size = .error err := by
    rw [allocateBigint]
    split_ifs
    · exact ⟨_, rfl⟩
    · exact ⟨.EINVAL, by dsimp only; rw [if_pos h0]⟩
  rw [resize, if_pos hlt, resizeBigint, herr] at h
  cases h

theorem resize_moved {big : Bigint} {size : ℕ} (hsize : size ≤ INT16_MAX)
    (h0 : big.allocatedDigits ≠ 0) : ∃ new, resize .moved big size = .ok new := by
  rw [resize]
  split_ifs
  · rw [resizeBigint, allocateBigint, dif_neg (not_lt.mpr (max_le hsize (by norm_num)))]
    dsimp only
    rw [if_neg h0]
    exact ⟨_, rfl⟩
  · exact ⟨_, rfl⟩

/-- **A shift to the right is exact**, if the digits stay where they are. -/
theorem shiftrightBigint_exact {mm : Resize} {result : Bigint} (h : result.WellFormed) {n : ℕ}
    (hmm : ¬MovesDigits mm result n) :
    (shiftrightBigint mm result n).Exact result (result.value.tdiv (2 ^ n)) := by
  rw [shiftrightBigint]
  dsimp only
  split_ifs with hzero hs hbits hmoved
  · refine ⟨⟨Nat.zero_le _, Nat.zero_le _, Nat.zero_le _, by simp [Leading, valid, nrdigits],
      fun _ => rfl⟩, ?_⟩
    rw [tdiv_value, magnitude_div, List.drop_of_length_le (by rw [h.length_valid]; exact hzero.2)]
    simp [value]
  · exact shiftright_digits h hs (h.skip_lt hzero)
  · cases hnew : resize mm result (result.nrdigits - (n / 32 - result.exponent) + 1) with
    | error err => rfl
    | ok new =>
      -- this is the case in which the digits do not stay where they are
      have hle := resize_le hnew
      have hk : n / 32 - result.exponent = 0 := by omega
      rw [hk, Nat.sub_zero] at hle hmoved hnew
      exact absurd ⟨hmoved.2, by omega, hs, hbits.2, hmoved.1, resize_of_lt hnew hmoved.1, hle⟩ hmm
  · cases hnew : resize mm result (result.nrdigits - (n / 32 - result.exponent) + 1) with
    | error err => rfl
    | ok new =>
      exact shiftright_newdigit h hs (h.skip_lt hzero) hbits.1 hbits.2 (resize_le hnew)
  · exact shiftright_bits h hs (h.skip_lt hzero) fun he => by
      by_contra hne
      exact hbits ⟨he, hne⟩

theorem shiftrightBigint_moves {mm : Resize} {result : Bigint} {n : ℕ}
    (h : MovesDigits mm result n) : shiftrightBigint mm result n = .undefined := by
  obtain ⟨rfl, hlt, hs, hbits, halloc, h0, hmax⟩ := h
  have hk : n / 32 - result.exponent = 0 := by omega
  obtain ⟨new, hnew⟩ := @resize_moved result _ (Nat.succ_le_of_lt hmax) h0
  rw [shiftrightBigint]
  dsimp only
  rw [if_neg (fun hz => absurd hz.1 (not_le.mpr hlt)), if_neg hs, if_pos ⟨by omega, hbits⟩, hk,
    Nat.sub_zero, hnew]
  dsimp only
  rw [if_pos ⟨halloc, rfl⟩]

/-- **The shifts are exact**, and an error changes nothing, exactly if the digits are not moved
while `shiftright_bigint` uses their old address. -/
theorem shiftBigint_exact_iff (mm : Resize) {big : Bigint} (h : big.WellFormed)
    (shiftCount : UInt32) :
    ((shiftleftBigint mm big shiftCount.toNat).Exact big (big.value * 2 ^ shiftCount.toNat) ∧
      (shiftrightBigint mm big shiftCount.toNat).Exact big
        (big.value.tdiv (2 ^ shiftCount.toNat))) ↔
      ¬MovesDigits mm big shiftCount.toNat := by
  refine ⟨fun hexact hmoves => ?_, fun hmoves =>
    ⟨shiftleftBigint_exact mm h _, shiftrightBigint_exact h hmoves⟩⟩
  rw [shiftrightBigint_moves hmoves] at hexact
  exact hexact.2

/-- A number that is shifted by 33 bits in both directions. -/
theorem shiftBigint_exact_iff_small :
    ((shiftleftBigint .moved ⟨4, -2, 2, [7, 1], by decide⟩ (33 : UInt32).toNat).Exact
        ⟨4, -2, 2, [7, 1], by decide⟩
        (value ⟨4, -2, 2, [7, 1], by decide⟩ * 2 ^ (33 : UInt32).toNat) ∧
      (shiftrightBigint .moved ⟨4, -2, 2, [7, 1], by decide⟩ (33 : UInt32).toNat).Exact
        ⟨4, -2, 2, [7, 1], by decide⟩
        ((value ⟨4, -2, 2, [7, 1], by decide⟩).tdiv (2 ^ (33 : UInt32).toNat))) ↔
      ¬MovesDigits .moved ⟨4, -2, 2, [7, 1], by decide⟩ (33 : UInt32).toNat :=
  shiftBigint_exact_iff .moved (by decide) 33

/-- Four digits in an object that has room for four: the bit that leaves the lowest digit needs a
fifth one, and its block is moved. -/
theorem shiftBigint_not_exact :
    ¬∀ (mm : Resize) (big : Bigint), big.WellFormed → ∀ shiftCount : UInt32,
      (shiftleftBigint mm big shiftCount.toNat).Exact big (big.value * 2 ^ shiftCount.toNat) ∧
        (shiftrightBigint mm big shiftCount.toNat).Exact big
          (big.value.tdiv (2 ^ shiftCount.toNat)) := by
  intro h
  have hwf : WellFormed ⟨4, 4, 1, [1, 0, 0, 2], by decide⟩ := by decide
  have hmoves : MovesDigits .moved ⟨4, 4, 1, [1, 0, 0, 2], by decide⟩ (1 : UInt32).toNat := by
    decide
  have hexact := (h .moved _ hwf 1).2
  rw [shiftrightBigint_moves hmoves] at hexact
  exact hexact

end Bigint
end CKern
