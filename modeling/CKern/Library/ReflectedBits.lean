import Mathlib.Algebra.CharP.Two
import Mathlib.RingTheory.Polynomial.Basic
import Mathlib.RingTheory.AdjoinRoot
import Mathlib.Data.ZMod.Basic
import Mathlib.Algebra.Polynomial.Degree.Operations
import Mathlib.Data.BitVec
import Mathlib.Algebra.Field.ZMod

/-!
# Polynomials over the field with two elements, and reflected bit vectors

* `ofBits`: the polynomial whose coefficients are given by a list of bits, the highest one first.
* `reflectPoly`: the polynomial of a bit vector whose lowest bit is the highest coefficient.
* `shiftStep`: one step of a division with reflected bits, which multiplies by `X`.
* `mk_reflectPoly_iterate`: some steps.
* `iterate_shiftStep_eq`: some steps at once, with a table for the bits that are shifted out.
* `eq_modByMonic`: the end of a division.
-/

namespace CKern
namespace ReflectedBits

open Polynomial

/-- A bit as a coefficient. -/
noncomputable def bit (b : Bool) : (ZMod 2)[X] := if b then 1 else 0

theorem bit_xor (a b : Bool) : bit (a ^^ b) = bit a + bit b := by
  cases a
  · cases b
    · exact (add_zero _).symm
    · exact (zero_add _).symm
  · cases b
    · exact (add_zero _).symm
    · exact (CharTwo.add_self_eq_zero (1 : (ZMod 2)[X])).symm

theorem bit_not (b : Bool) : bit (!b) = bit b + 1 := by
  cases b
  · exact (zero_add _).symm
  · exact (CharTwo.add_self_eq_zero (1 : (ZMod 2)[X])).symm

theorem eq_of_coeff_bit {a b : Bool} (h : (bit a).coeff 0 = (bit b).coeff 0) : a = b := by
  have hne : (1 : (ZMod 2)[X]).coeff 0 ≠ (0 : (ZMod 2)[X]).coeff 0 := by
    rw [coeff_one_zero, coeff_zero]
    exact one_ne_zero
  cases a
  · cases b
    · rfl
    · exact absurd h.symm hne
  · cases b
    · exact absurd h hne
    · rfl

/-! ## Lists of bits -/

/-- The polynomial with the given coefficients, the highest one first. -/
noncomputable def ofBits (l : List Bool) : (ZMod 2)[X] := l.foldl (fun p b => p * X + bit b) 0

theorem ofBits_concat (l : List Bool) (b : Bool) : ofBits (l ++ [b]) = ofBits l * X + bit b :=
  List.foldl_concat _ _ _ _

theorem ofBits_append (l l' : List Bool) :
    ofBits (l ++ l') = ofBits l * X ^ l'.length + ofBits l' := by
  induction l' using List.reverseRecOn with
  | nil =>
    rw [List.append_nil, List.length_nil, pow_zero, mul_one]
    exact (add_zero _).symm
  | append_singleton l' b ih =>
    rw [← List.append_assoc, ofBits_concat, ofBits_concat, ih, List.length_append,
      List.length_singleton, pow_succ]
    ring

theorem ofBits_cons (b : Bool) (l : List Bool) :
    ofBits (b :: l) = bit b * X ^ l.length + ofBits l := by
  have hone : ofBits [b] = bit b := by
    rw [← List.nil_append [b], ofBits_concat]
    exact (congrArg (· + bit b) (zero_mul X)).trans (zero_add _)
  rw [← List.singleton_append, ofBits_append, hone]

theorem degree_ofBits_lt (l : List Bool) : (ofBits l).degree < l.length := by
  induction l using List.reverseRecOn with
  | nil => exact degree_zero.trans_lt (WithBot.bot_lt_coe 0)
  | append_singleton l b ih =>
    rw [degree_lt_iff_coeff_zero] at ih ⊢
    rintro (_ | k) hk
    · rw [List.length_append, List.length_singleton] at hk
      omega
    · rw [List.length_append, List.length_singleton] at hk
      rw [ofBits_concat, coeff_add, coeff_mul_X, ih k (by omega), zero_add]
      cases b
      · exact coeff_zero _
      · exact coeff_one.trans (if_neg (Nat.succ_ne_zero k))

theorem ofBits_injective {l l' : List Bool} (hlen : l.length = l'.length)
    (h : ofBits l = ofBits l') : l = l' := by
  induction l using List.reverseRecOn generalizing l' with
  | nil => exact (List.length_eq_zero_iff.mp hlen.symm).symm
  | append_singleton l b ih =>
    induction l' using List.reverseRecOn with
    | nil => exact List.length_eq_zero_iff.mp hlen
    | append_singleton l' b' =>
      rw [List.length_append, List.length_append, List.length_singleton, List.length_singleton,
        Nat.add_right_cancel_iff] at hlen
      rw [ofBits_concat, ofBits_concat] at h
      have h0 := congrArg (coeff · 0) h
      simp only [coeff_add, mul_coeff_zero, coeff_X_zero, mul_zero, zero_add] at h0
      obtain rfl : b = b' := eq_of_coeff_bit h0
      have hmul := add_right_cancel h
      have hinit : ofBits l = ofBits l' := Polynomial.ext fun n => by
        rw [← coeff_mul_X, hmul, coeff_mul_X]
      rw [ih hlen hinit]

theorem ofBits_replicate_false (n : ℕ) : ofBits (List.replicate n false) = 0 := by
  induction n with
  | zero => rfl
  | succ n ih =>
    rw [List.replicate_succ', ofBits_concat, ih, zero_mul, zero_add]
    rfl

theorem ofBits_map_not (l : List Bool) :
    ofBits (l.map (!·)) = ofBits l + ofBits (List.replicate l.length true) := by
  induction l using List.reverseRecOn with
  | nil => exact (add_zero _).symm
  | append_singleton l b ih =>
    rw [List.map_append, List.map_singleton, ofBits_concat, ofBits_concat, ih, bit_not,
      List.length_append, List.length_singleton, List.replicate_succ', ofBits_concat]
    rw [show bit true = 1 from rfl]
    ring

/-! ## Reflected bit vectors -/

variable {w : ℕ}

/-- The polynomial of a bit vector. -/
noncomputable def poly (v : BitVec w) : (ZMod 2)[X] := ofBits ((List.range w).map v.getMsbD)

/-- The polynomial of a bit vector whose lowest bit is the highest coefficient. -/
noncomputable def reflectPoly (v : BitVec w) : (ZMod 2)[X] := ofBits ((List.range w).map v.getLsbD)

theorem poly_injective {v v' : BitVec w} (h : poly v = poly v') : v = v' := by
  have hlist := ofBits_injective (by rw [List.length_map, List.length_map]) h
  refine BitVec.eq_of_getMsbD_eq fun i hi => ?_
  exact List.map_inj_left.mp hlist i (List.mem_range.mpr hi)

theorem poly_reverse (v : BitVec w) : poly v.reverse = reflectPoly v := by
  rw [poly, reflectPoly]
  congr 2
  funext i
  exact BitVec.getMsbD_reverse

theorem ofBits_xor (f g : ℕ → Bool) (n : ℕ) :
    ofBits ((List.range n).map fun i => f i ^^ g i) =
      ofBits ((List.range n).map f) + ofBits ((List.range n).map g) := by
  induction n with
  | zero => exact (add_zero _).symm
  | succ n ih =>
    rw [List.range_succ, List.map_append, List.map_append, List.map_append, List.map_singleton,
      List.map_singleton, List.map_singleton, ofBits_concat, ofBits_concat, ofBits_concat, ih,
      bit_xor]
    ring

theorem reflectPoly_xor (a b : BitVec w) : reflectPoly (a ^^^ b) = reflectPoly a + reflectPoly b := by
  rw [reflectPoly, reflectPoly, reflectPoly, ← ofBits_xor]
  congr 2
  funext i
  exact BitVec.getLsbD_xor

theorem X_mul_reflectPoly (v : BitVec (w + 1)) :
    X * reflectPoly v = bit (v.getLsbD 0) * X ^ (w + 1) + reflectPoly (v >>> 1) := by
  have hshift : (List.range (w + 1)).map (v >>> 1).getLsbD =
      (List.range w).map (fun i => v.getLsbD (i + 1)) ++ [false] := by
    rw [List.range_succ, List.map_append, List.map_singleton, BitVec.getLsbD_ushiftRight,
      BitVec.getLsbD_of_ge v (1 + w) (Nat.add_comm _ _).le]
    congr 2
    funext i
    rw [BitVec.getLsbD_ushiftRight, Nat.add_comm 1 i]
  have hbits : (List.range (w + 1)).map v.getLsbD =
      v.getLsbD 0 :: (List.range w).map (fun i => v.getLsbD (i + 1)) := by
    rw [List.range_succ_eq_map, List.map_cons, List.map_map]
    rfl
  rw [reflectPoly, reflectPoly, hshift, hbits, ofBits_concat, ofBits_cons, List.length_map,
    List.length_range, pow_succ]
  rw [show bit false = 0 from rfl]
  ring

/-! ## Division -/

/-- One step of a division by the polynomial `X ^ w + reflectPoly g`. -/
def shiftStep (g v : BitVec w) : BitVec w := (v >>> 1) ^^^ (if v.getLsbD 0 then g else 0)

theorem reflectPoly_ite (b : Bool) (g : BitVec w) :
    reflectPoly (if b then g else 0) = bit b * reflectPoly g := by
  cases b
  · have hbits : (List.range w).map (0 : BitVec w).getLsbD = List.replicate w false := by
      have hmap : ∀ i ∈ List.range w, (0 : BitVec w).getLsbD i = false := fun _ _ =>
        BitVec.getLsbD_zero
      rw [List.map_eq_replicate_iff.mpr hmap, List.length_range]
    rw [if_neg Bool.false_ne_true, reflectPoly, hbits, ofBits_replicate_false]
    exact (zero_mul _).symm
  · exact (one_mul _).symm

/-- **A step multiplies by `X`**, up to a multiple of the divisor. -/
theorem mk_reflectPoly_shiftStep (hw : 0 < w) (g v : BitVec w) :
    AdjoinRoot.mk (X ^ w + reflectPoly g) (reflectPoly (shiftStep g v)) =
      AdjoinRoot.mk (X ^ w + reflectPoly g) (X * reflectPoly v) := by
  obtain ⟨w, rfl⟩ : ∃ k, w = k + 1 := Nat.exists_eq_add_one.mpr hw
  rw [AdjoinRoot.mk_eq_mk]
  refine ⟨bit (v.getLsbD 0), ?_⟩
  rw [shiftStep, reflectPoly_xor, reflectPoly_ite, X_mul_reflectPoly, CharTwo.sub_eq_add]
  have htwo := CharTwo.add_self_eq_zero (reflectPoly (v >>> 1))
  linear_combination htwo

theorem mk_reflectPoly_iterate (hw : 0 < w) (g v : BitVec w) (n : ℕ) :
    AdjoinRoot.mk (X ^ w + reflectPoly g) (reflectPoly ((shiftStep g)^[n] v)) =
      AdjoinRoot.mk (X ^ w + reflectPoly g) (X ^ n * reflectPoly v) := by
  induction n with
  | zero => rw [Function.iterate_zero_apply, pow_zero, one_mul]
  | succ n ih =>
    rw [Function.iterate_succ_apply', mk_reflectPoly_shiftStep hw, map_mul, ih, ← map_mul,
      ← mul_assoc, ← pow_succ']

/-- **The end of a division.** -/
theorem eq_modByMonic {g v : BitVec w} {p : (ZMod 2)[X]}
    (h : AdjoinRoot.mk (X ^ w + reflectPoly g) (reflectPoly v) = AdjoinRoot.mk (X ^ w + reflectPoly g) p) :
    reflectPoly v = p %ₘ (X ^ w + reflectPoly g) := by
  have hlt : ∀ u : BitVec w, (reflectPoly u).degree < w := fun u =>
    (degree_ofBits_lt _).trans_eq (by rw [List.length_map, List.length_range])
  have hmonic : (X ^ w + reflectPoly g).Monic := monic_X_pow_add (hlt g)
  have hdeg : (reflectPoly v).degree < (X ^ w + reflectPoly g).degree := by
    rw [degree_add_eq_left_of_degree_lt ((hlt g).trans_eq (degree_X_pow w).symm), degree_X_pow]
    exact hlt v
  have hmod : reflectPoly v %ₘ (X ^ w + reflectPoly g) = reflectPoly v :=
    (modByMonic_eq_self_iff hmonic).mpr hdeg
  exact hmod.symm.trans (modByMonic_eq_of_dvd_sub hmonic (AdjoinRoot.mk_eq_mk.mp h))

/-! ## Some steps at once -/

theorem shiftStep_xor (g a b : BitVec w) :
    shiftStep g (a ^^^ b) = shiftStep g a ^^^ shiftStep g b := by
  rw [shiftStep, shiftStep, shiftStep, BitVec.ushiftRight_xor_distrib, BitVec.getLsbD_xor]
  have hite : (if (a.getLsbD 0 ^^ b.getLsbD 0) = true then g else 0) =
      (if a.getLsbD 0 = true then g else 0) ^^^ (if b.getLsbD 0 = true then g else 0) := by
    cases a.getLsbD 0
    · simp
    · cases b.getLsbD 0
      · simp
      · simp
  rw [hite]
  ac_rfl

theorem iterate_shiftStep_xor (g a b : BitVec w) (n : ℕ) :
    (shiftStep g)^[n] (a ^^^ b) = (shiftStep g)^[n] a ^^^ (shiftStep g)^[n] b := by
  induction n with
  | zero => rfl
  | succ n ih =>
    rw [Function.iterate_succ_apply', Function.iterate_succ_apply', Function.iterate_succ_apply',
      ih, shiftStep_xor]

theorem iterate_shiftStep_of_low {g v : BitVec w} {n : ℕ} (hlow : ∀ i < n, v.getLsbD i = false) :
    (shiftStep g)^[n] v = v >>> n := by
  induction n with
  | zero => exact (BitVec.ushiftRight_zero v).symm
  | succ n ih =>
    rw [Function.iterate_succ_apply', ih fun i hi => hlow i (Nat.lt_succ_of_lt hi), shiftStep,
      BitVec.getLsbD_ushiftRight, hlow (n + 0) (Nat.lt_succ_self n), if_neg Bool.false_ne_true,
      ← BitVec.shiftRight_add]
    exact BitVec.xor_zero

/-- The low bits of a vector. -/
def low (n : ℕ) (v : BitVec w) : BitVec w := (v.setWidth n).setWidth w

theorem getLsbD_low (n : ℕ) (v : BitVec w) (i : ℕ) :
    (low n v).getLsbD i = (decide (i < n) && v.getLsbD i) := by
  rw [low, BitVec.getLsbD_setWidth, BitVec.getLsbD_setWidth]
  rcases Nat.lt_or_ge i w with hi | hi
  · rw [decide_eq_true hi, Bool.true_and]
  · rw [BitVec.getLsbD_of_ge v i hi, Bool.and_false, Bool.and_false]

/-- **A table for the low bits** replaces `n` steps. -/
theorem iterate_shiftStep_eq (g v : BitVec w) (n : ℕ) :
    (shiftStep g)^[n] v = (v >>> n) ^^^ (shiftStep g)^[n] (low n v) := by
  have hlow : ∀ i < n, (v ^^^ low n v).getLsbD i = false := by
    intro i hi
    rw [BitVec.getLsbD_xor, getLsbD_low, decide_eq_true hi, Bool.true_and, Bool.xor_self]
  have hhigh : (v ^^^ low n v) >>> n = v >>> n := by
    refine BitVec.eq_of_getLsbD_eq fun i _ => ?_
    rw [BitVec.getLsbD_ushiftRight, BitVec.getLsbD_ushiftRight, BitVec.getLsbD_xor, getLsbD_low,
      decide_eq_false (Nat.not_lt.mpr (Nat.le_add_right n i)), Bool.false_and, Bool.xor_false]
  have hsplit : v = (v ^^^ low n v) ^^^ low n v := by
    rw [BitVec.xor_assoc, BitVec.xor_self, BitVec.xor_zero]
  calc (shiftStep g)^[n] v = (shiftStep g)^[n] (v ^^^ low n v) ^^^ (shiftStep g)^[n] (low n v) := by
        rw [← iterate_shiftStep_xor, ← hsplit]
    _ = (v >>> n) ^^^ (shiftStep g)^[n] (low n v) := by
        rw [iterate_shiftStep_of_low hlow, hhigh]

end ReflectedBits
end CKern
