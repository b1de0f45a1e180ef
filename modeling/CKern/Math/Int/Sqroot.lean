import CKern.Library.SquareRoot
import Mathlib.Data.BitVec
import Mathlib.Logic.Function.Iterate

/-!
# The integer square root of `sqroot.c`

* `first32`, `next32`, `sqroot_int32`: sixteen binary digits of the root of 32 bits.
* `first64`, `next64`, `sqroot_int64`: the first sixteen digits are those of the upper 32 bits, and
  the additions of the other sixteen are bitwise or.
* `Inv`: the variables hold a part of the root and what is left of the number, both shifted.
* `sqroot_isGreatest`: the result is the largest number whose square is not larger, and nothing
  overflows on the way to it.
-/

namespace CKern
namespace Sqroot

open SquareRoot

/-! ## The code -/

/-- The variables of `sqroot_int32` (with `w = 32`), and of the two halves of `sqroot_int64`. -/
structure Vars (w : ℕ) where
  one : BitVec 32
  a : BitVec w
  r : BitVec w

/-- The first digit. -/
def first32 (v : Vars 32) : Vars 32 :=
  let a4_plus_1 := v.one
  if a4_plus_1 ≤ v.r then { v with a := v.a + v.one, r := v.r - a4_plus_1 } else v

/-- The macro `NEXT` that adds. -/
def next32 (v : Vars 32) : Vars 32 :=
  let one := v.one >>> 2
  let a4_plus_1 := v.a + one
  let a := v.a >>> 1
  if a4_plus_1 ≤ v.r then ⟨one, a + one, v.r - a4_plus_1⟩ else ⟨one, a, v.r⟩

/-- The variables after `j` uses of `NEXT`. -/
def digits32 (number : BitVec 32) (j : ℕ) : Vars 32 :=
  next32^[j] (first32 ⟨0x40000000, 0, number⟩)

def sqroot_int32 (number : BitVec 32) : BitVec 16 := (digits32 number 15).a.setWidth 16

/-- The first digit of the second half. -/
def first64 (v : Vars 64) : Vars 64 :=
  let a4_plus_1 := v.a ||| v.one.setWidth 64
  let a := v.a >>> 1
  if a4_plus_1 ≤ v.r then ⟨v.one, a ||| v.one.setWidth 64, v.r - a4_plus_1⟩ else ⟨v.one, a, v.r⟩

/-- The first line of `NEXT`. -/
def nextPair (v : Vars 64) : Vars 64 := { v with one := v.one >>> 2 }

/-- The macro `NEXT` of the second half. -/
def next64 (v : Vars 64) : Vars 64 := first64 (nextPair v)

/-- The upper half of the number, whose root is computed with 32 bits. -/
def upper (number : BitVec 64) : BitVec 32 := (number >>> 32).setWidth 32

/-- The variables between the two halves. -/
def glue (number : BitVec 64) (v : Vars 32) : Vars 64 where
  one := 0x40000000
  a := v.a.setWidth 64 <<< 32
  r := (v.r.setWidth 64 <<< 32) + (number.setWidth 32).setWidth 64

/-- The variables after `j` uses of the second `NEXT`. -/
def digits64 (number : BitVec 64) (j : ℕ) : Vars 64 :=
  next64^[j] (first64 (glue number (digits32 (upper number) 15)))

def sqroot_int64 (number : BitVec 64) : BitVec 32 :=
  if upper number = 0 then (sqroot_int32 (number.setWidth 32)).setWidth 32
  else (digits64 number 15).a.setWidth 32

/-! ## One digit -/

variable {w n d p : ℕ}

/-- The root of `n` is known down to the digit `d`. -/
def Inv (n d : ℕ) (v : Vars w) : Prop :=
  ∃ p, Root n p v.r.toNat d ∧ v.a.toNat = p * d ∧ v.one.toNat = d * d

theorem inv_digit {r a4_plus_1 a a' : BitVec w} {one : BitVec 32} (h : Root n p r.toNat (2 * d))
    (hone : one.toNat = d * d) (h4 : a4_plus_1.toNat = 2 * p * d + d * d)
    (ha : a.toNat = p * d) (ha' : a'.toNat = p * d + d * d) :
    Inv n d (if a4_plus_1 ≤ r then ⟨one, a', r - a4_plus_1⟩ else ⟨one, a, r⟩) := by
  split
  case isTrue hle =>
    rw [BitVec.le_def, h4] at hle
    refine ⟨p + d, ?_, ?_, hone⟩
    · rw [BitVec.toNat_sub_of_le (BitVec.le_def.mpr (h4 ▸ hle)), h4]
      exact h.take hle
    · rw [ha', add_mul]
  case isFalse hlt =>
    rw [BitVec.le_def, h4, not_le] at hlt
    exact ⟨p, h.skip hlt, ha, hone⟩

theorem toNat_shiftRight_two {one : BitVec 32} (h : one.toNat = 2 * d * (2 * d)) :
    (one >>> 2).toNat = d * d := by
  rw [BitVec.toNat_ushiftRight, h, Nat.shiftRight_eq_div_pow]
  exact Nat.div_eq_of_eq_mul_right (by decide) (by ring)

theorem toNat_shiftRight_one {a : BitVec w} (h : a.toNat = p * (2 * d)) :
    (a >>> 1).toNat = p * d := by
  rw [BitVec.toNat_ushiftRight, h, Nat.shiftRight_eq_div_pow]
  exact Nat.div_eq_of_eq_mul_right (by decide) (by ring)

theorem sums_le {m e : ℕ} (hp : p + 2 * d ≤ m) (hd : 2 * d ≤ e) :
    2 * p * d + d * d ≤ m * e ∧ p * d + d * d ≤ m * e := by
  have hmul : (p + 2 * d) * (2 * d) ≤ m * e := Nat.mul_le_mul hp hd
  have hexp : (p + 2 * d) * (2 * d) = 2 * p * d + d * d + 3 * (d * d) := by ring
  have hpd : 2 * p * d = p * d + p * d := by ring
  omega

theorem and_eq_zero {x y : BitVec w} {k : ℕ} (hx : 2 ^ (k + 1) ∣ x.toNat) (hy : y.toNat = 2 ^ k) :
    x &&& y = 0 := by
  obtain ⟨q, hq⟩ := hx
  refine BitVec.eq_of_toNat_eq (Nat.eq_of_testBit_eq fun j => ?_)
  rw [BitVec.toNat_and, hq, hy, Nat.testBit_and, Nat.testBit_two_pow_mul, Nat.testBit_two_pow]
  rcases Nat.lt_or_ge j (k + 1) with hj | hj
  · rw [decide_eq_false (Nat.not_le.mpr hj), Bool.false_and, Bool.false_and]
    exact (Nat.zero_testBit j).symm
  · rw [decide_eq_false (by omega : ¬k = j), Bool.and_false]
    exact (Nat.zero_testBit j).symm

/-! ## 32 bits -/

/-- No sum of `NEXT` overflows. -/
structure NoCarry (v : Vars 32) : Prop where
  a4_plus_1 : v.a.toNat + (v.one >>> 2).toNat < 2 ^ 32
  a : (v.a >>> 1).toNat + (v.one >>> 2).toNat < 2 ^ 32

theorem toNat_add_of_noCarry {x y : BitVec w} (h : x.toNat + y.toNat < 2 ^ w) :
    (x + y).toNat = x.toNat + y.toNat := by
  rw [BitVec.toNat_add]
  exact Nat.mod_eq_of_lt h

/-- **One digit with additions.** -/
theorem next32_inv {v : Vars 32} {m : ℕ} (h : Inv n (2 * d) v) (hm : 2 * d * m = 2 ^ 16)
    (hd : 2 * d ≤ 2 ^ 15) (hn : n < 2 ^ 32) : NoCarry v ∧ Inv n d (next32 v) := by
  obtain ⟨p, hroot, ha, hone⟩ := h
  have hp : p + 2 * d ≤ 2 ^ 16 := hm ▸ hroot.add_le (m := m) (by rw [hm]; exact hn)
  obtain ⟨hsum, hsum'⟩ := sums_le hp hd
  have hone' := toNat_shiftRight_two hone
  have ha1 := toNat_shiftRight_one ha
  have h4 : v.a.toNat + (v.one >>> 2).toNat = 2 * p * d + d * d := by
    rw [ha, hone']
    ring
  have hcarry : NoCarry v := by
    refine ⟨?_, ?_⟩
    · rw [h4]
      exact hsum.trans_lt (by norm_num)
    · rw [ha1, hone']
      exact hsum'.trans_lt (by norm_num)
  refine ⟨hcarry, inv_digit hroot hone' ?_ ha1 ?_⟩
  · rw [toNat_add_of_noCarry hcarry.a4_plus_1, h4]
  · rw [toNat_add_of_noCarry hcarry.a, ha1, hone']

theorem first32_inv (number : BitVec 32) :
    Inv number.toNat (2 ^ 15) (first32 ⟨0x40000000, 0, number⟩) := by
  have hroot : Root number.toNat 0 number.toNat (2 * 2 ^ 15) :=
    root_init (number.isLt.trans_le (by norm_num))
  have h : Inv number.toNat (2 ^ 15) (if (0x40000000 : BitVec 32) ≤ number then
      (⟨0x40000000, 0 + 0x40000000, number - 0x40000000⟩ : Vars 32) else ⟨0x40000000, 0, number⟩) :=
    inv_digit hroot rfl rfl rfl rfl
  exact h

theorem digits32_step (number : BitVec 32) {j : ℕ} (hj : j < 15)
    (h : Inv number.toNat (2 ^ (15 - j)) (digits32 number j)) :
    NoCarry (digits32 number j) ∧
      Inv number.toNat (2 ^ (15 - (j + 1))) (digits32 number (j + 1)) := by
  have hpow : 2 ^ (15 - j) = 2 * 2 ^ (15 - (j + 1)) := by
    rw [← pow_succ']
    congr 1
    omega
  have hm : 2 ^ (15 - j) * 2 ^ (j + 1) = 2 ^ 16 := by
    rw [← pow_add]
    congr 1
    omega
  have hd : 2 ^ (15 - j) ≤ 2 ^ 15 := Nat.pow_le_pow_right (by decide) (Nat.sub_le 15 j)
  rw [hpow] at h hm hd
  obtain ⟨hcarry, hinv⟩ := next32_inv h hm hd number.isLt
  refine ⟨hcarry, ?_⟩
  rw [digits32, Function.iterate_succ_apply']
  exact hinv

/-- **The first sixteen digits.** -/
theorem digits32_inv (number : BitVec 32) {j : ℕ} (hj : j ≤ 15) :
    Inv number.toNat (2 ^ (15 - j)) (digits32 number j) := by
  induction j with
  | zero => exact first32_inv number
  | succ j ih => exact (digits32_step number hj (ih (Nat.le_of_succ_le hj))).2

theorem toNat_sqroot_int32 (number : BitVec 32) :
    (sqroot_int32 number).toNat = (digits32 number 15).a.toNat ∧
      Root number.toNat (sqroot_int32 number).toNat (digits32 number 15).r.toNat 1 := by
  obtain ⟨p, hroot, ha, -⟩ := digits32_inv number (le_refl 15)
  rw [Nat.sub_self, pow_zero] at hroot
  rw [Nat.sub_self, pow_zero, mul_one] at ha
  have hlt : p + 1 ≤ 1 * 2 ^ 16 := hroot.add_le number.isLt
  have hcast : (sqroot_int32 number).toNat = (digits32 number 15).a.toNat := by
    rw [sqroot_int32, BitVec.toNat_setWidth, ha]
    exact Nat.mod_eq_of_lt (by omega)
  exact ⟨hcast, by rwa [hcast, ha]⟩

/-! ## 64 bits -/

/-- The operands of bitwise or in `NEXT` share no bit. -/
structure NoShare (v : Vars 64) : Prop where
  a4_plus_1 : v.a &&& v.one.setWidth 64 = 0
  a : (v.a >>> 1) &&& v.one.setWidth 64 = 0

/-- **One digit with bitwise or.** -/
theorem first64_inv {v : Vars 64} {k : ℕ} (hroot : Root n p v.r.toNat (2 * 2 ^ k))
    (ha : v.a.toNat = p * (2 * 2 ^ k)) (hone : v.one.toNat = 2 ^ k * 2 ^ k) (hk : k ≤ 15)
    (hn : n < 2 ^ 64) : NoShare v ∧ Inv n (2 ^ k) (first64 v) := by
  have ha1 := toNat_shiftRight_one ha
  have hone64 : (v.one.setWidth 64).toNat = 2 ^ k * 2 ^ k := by
    rw [BitVec.toNat_setWidth_of_le (by decide), hone]
  have hshare : NoShare v := by
    obtain ⟨q, hq⟩ := hroot.dvd
    refine ⟨and_eq_zero (k := k + k) ?_ (by rw [hone64, pow_add]),
      and_eq_zero (k := k + k) ?_ (by rw [hone64, pow_add])⟩
    · rw [ha, hq]
      exact ⟨2 * q, by ring⟩
    · rw [ha1, hq]
      exact ⟨q, by ring⟩
  have hm : 2 * 2 ^ k * 2 ^ (31 - k) = 2 ^ 32 := by
    rw [← pow_succ', ← pow_add]
    congr 1
    omega
  have hp : p + 2 * 2 ^ k ≤ 2 ^ 32 := hm ▸ hroot.add_le (m := 2 ^ (31 - k)) (by rw [hm]; exact hn)
  have hd : 2 * 2 ^ k ≤ 2 ^ 16 := by
    rw [← pow_succ']
    exact Nat.pow_le_pow_right (by decide) (by omega)
  obtain ⟨hsum, hsum'⟩ := sums_le hp hd
  refine ⟨hshare, inv_digit hroot hone ?_ ha1 ?_⟩
  · rw [← BitVec.add_eq_or_of_and_eq_zero _ _ hshare.a4_plus_1, toNat_add_of_noCarry, ha, hone64]
    · ring
    · rw [ha, hone64, show p * (2 * 2 ^ k) = 2 * p * 2 ^ k by ring]
      exact hsum.trans_lt (by norm_num)
  · rw [← BitVec.add_eq_or_of_and_eq_zero _ _ hshare.a, toNat_add_of_noCarry, ha1, hone64]
    rw [ha1, hone64]
    exact hsum'.trans_lt (by norm_num)

theorem toNat_upper (number : BitVec 64) : (upper number).toNat = number.toNat / 2 ^ 32 := by
  have hlt := number.isLt
  rw [upper, BitVec.toNat_setWidth, BitVec.toNat_ushiftRight, Nat.shiftRight_eq_div_pow]
  omega

/-- Neither shift and neither sum between the two halves loses a bit. -/
structure GlueExact (number : BitVec 64) (v : Vars 32) : Prop where
  a : (glue number v).a.toNat = v.a.toNat * 2 ^ 32
  r : (glue number v).r.toNat = v.r.toNat * 2 ^ 32 + number.toNat % 2 ^ 32

theorem toNat_setWidth_shiftLeft (x : BitVec 32) :
    (x.setWidth 64 <<< 32).toNat = x.toNat * 2 ^ 32 := by
  have hlt := x.isLt
  rw [BitVec.toNat_shiftLeft, BitVec.toNat_setWidth_of_le (by decide), Nat.shiftLeft_eq]
  omega

theorem glueExact (number : BitVec 64) (v : Vars 32) : GlueExact number v := by
  refine ⟨toNat_setWidth_shiftLeft v.a, ?_⟩
  have hlow : ((number.setWidth 32).setWidth 64).toNat = number.toNat % 2 ^ 32 := by
    rw [BitVec.toNat_setWidth_of_le (by decide), BitVec.toNat_setWidth]
  have hlt := v.r.isLt
  rw [glue, toNat_add_of_noCarry, toNat_setWidth_shiftLeft, hlow]
  rw [toNat_setWidth_shiftLeft, hlow]
  omega

theorem glue_first64_inv (number : BitVec 64) :
    NoShare (glue number (digits32 (upper number) 15)) ∧
      Inv number.toNat (2 ^ 15) (first64 (glue number (digits32 (upper number) 15))) := by
  obtain ⟨hcast, hroot⟩ := toNat_sqroot_int32 (upper number)
  have hglue := glueExact number (digits32 (upper number) 15)
  have hmod : number.toNat % 2 ^ 32 < 2 ^ 16 * 2 ^ 16 := Nat.mod_lt _ (by decide)
  have happ := hroot.append hmod
  rw [toNat_upper, show 2 ^ 16 * 2 ^ 16 = 2 ^ 32 from rfl, Nat.div_add_mod', ← hglue.r] at happ
  refine first64_inv happ ?_ rfl (le_refl 15) number.isLt
  rw [hglue.a, ← hcast, mul_assoc, ← pow_succ', ← pow_add]

theorem digits64_step (number : BitVec 64) {j : ℕ} (hj : j < 15)
    (h : Inv number.toNat (2 ^ (15 - j)) (digits64 number j)) :
    NoShare (nextPair (digits64 number j)) ∧
      Inv number.toNat (2 ^ (15 - (j + 1))) (digits64 number (j + 1)) := by
  obtain ⟨p, hroot, ha, hone⟩ := h
  rw [show 15 - j = 15 - (j + 1) + 1 by omega, pow_succ'] at hroot ha hone
  have hnext : digits64 number (j + 1) = first64 (nextPair (digits64 number j)) := by
    rw [digits64, Function.iterate_succ_apply']
    rfl
  rw [hnext]
  exact first64_inv (v := nextPair (digits64 number j)) hroot ha (toNat_shiftRight_two hone)
    (Nat.sub_le 15 (j + 1)) number.isLt

/-- **The other sixteen digits.** -/
theorem digits64_inv (number : BitVec 64) {j : ℕ} (hj : j ≤ 15) :
    Inv number.toNat (2 ^ (15 - j)) (digits64 number j) := by
  induction j with
  | zero => exact (glue_first64_inv number).2
  | succ j ih => exact (digits64_step number hj (ih (Nat.le_of_succ_le hj))).2

theorem digits64_root (number : BitVec 64) :
    Root number.toNat (digits64 number 15).a.toNat (digits64 number 15).r.toNat 1 := by
  obtain ⟨p, hroot, ha, -⟩ := digits64_inv number (le_refl 15)
  rw [Nat.sub_self, pow_zero] at hroot
  rw [Nat.sub_self, pow_zero, mul_one] at ha
  rwa [ha]

theorem digits64_a_lt (number : BitVec 64) : (digits64 number 15).a.toNat < 2 ^ 32 := by
  have hlt : (digits64 number 15).a.toNat + 1 ≤ 1 * 2 ^ 32 :=
    (digits64_root number).add_le number.isLt
  omega

theorem sqroot_int64_isGreatest (number : BitVec 64) :
    IsGreatest {x | x * x ≤ number.toNat} (sqroot_int64 number).toNat := by
  rw [sqroot_int64]
  split
  case isTrue h0 =>
    have hup := toNat_upper number
    rw [h0] at hup
    have hlow : (number.setWidth 32).toNat = number.toNat := by
      rw [BitVec.toNat_setWidth]
      exact Nat.mod_eq_of_lt (Nat.lt_of_div_eq_zero (by decide) hup.symm)
    rw [BitVec.toNat_setWidth_of_le (by decide), ← hlow]
    exact (toNat_sqroot_int32 (number.setWidth 32)).2.isGreatest
  case isFalse =>
    rw [BitVec.toNat_setWidth, Nat.mod_eq_of_lt (digits64_a_lt number)]
    exact (digits64_root number).isGreatest

/-! ## The functions -/

/-- Nothing overflows in `sqroot_int32`, and the last conversion loses no bit. -/
structure Exact32 (number : BitVec 32) : Prop where
  next : ∀ j < 15, NoCarry (digits32 number j)
  result : (sqroot_int32 number).toNat = (digits32 number 15).a.toNat

/-- Nothing overflows in `sqroot_int64`, no conversion loses a bit, and bitwise or adds. -/
structure Exact64 (number : BitVec 64) : Prop where
  upper : Exact32 (upper number)
  glue : GlueExact number (digits32 (Sqroot.upper number) 15)
  first : NoShare (Sqroot.glue number (digits32 (Sqroot.upper number) 15))
  next : ∀ j < 15, NoShare (nextPair (digits64 number j))
  result : (digits64 number 15).a.toNat < 2 ^ 32

theorem exact32 (number : BitVec 32) : Exact32 number :=
  ⟨fun _ hj => (digits32_step number hj (digits32_inv number hj.le)).1,
    (toNat_sqroot_int32 number).1⟩

theorem exact64 (number : BitVec 64) : Exact64 number :=
  ⟨exact32 (upper number), glueExact number _, (glue_first64_inv number).1,
    fun _ hj => (digits64_step number hj (digits64_inv number hj.le)).1, digits64_a_lt number⟩

/-- **The integer square root is exact**, for 32 and for 64 bits. -/
theorem sqroot_isGreatest :
    (∀ number : BitVec 32, Exact32 number ∧
      IsGreatest {x | x * x ≤ number.toNat} (sqroot_int32 number).toNat) ∧
    (∀ number : BitVec 64, Exact64 number ∧
      IsGreatest {x | x * x ≤ number.toNat} (sqroot_int64 number).toNat) :=
  ⟨fun number => ⟨exact32 number, (toNat_sqroot_int32 number).2.isGreatest⟩,
    fun number => ⟨exact64 number, sqroot_int64_isGreatest number⟩⟩

end Sqroot
end CKern
