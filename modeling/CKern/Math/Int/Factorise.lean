import CKern.Library.Cofactors
import Mathlib.Data.BitVec
import Mathlib.Data.List.Chain

/-!
# The extended Euclidean algorithm of `factorise.c`

The functions exist for 32 and for 64 bits. Both are the same code, which is modelled for every
number of bits.

* `commonfactors`, `extCommonfactors`: the functions of the module. The second one also lists the
  values that its variables take.
* `reduce0_reduced`, `reduce1_reduced`: one half of a round, in which nothing wraps around.
* `Inv`: the variables hold two remainders and their cofactors.
* `extLoop_spec`: the loop from any values that keep the invariant.
* `extCommonfactors_correct`: the result is the greatest common divisor, with the smallest positive
  cofactors.
-/

namespace CKern
namespace Factorise

open Euclid

variable {w : ℕ}

/-! ## Division -/

theorem toNat_div_mul (r0 r1 : BitVec w) :
    (r0 / r1 * r1).toNat = r0.toNat / r1.toNat * r1.toNat := by
  rw [BitVec.toNat_mul, BitVec.toNat_udiv]
  exact Nat.mod_eq_of_lt ((Nat.div_mul_le_self _ _).trans_lt r0.isLt)

theorem toNat_sub_div_mul (r0 r1 : BitVec w) :
    (r0 - r0 / r1 * r1).toNat = r0.toNat % r1.toNat := by
  have hle : r0 / r1 * r1 ≤ r0 := by
    rw [BitVec.le_def, toNat_div_mul]
    exact Nat.div_mul_le_self _ _
  rw [BitVec.toNat_sub_of_le hle, toNat_div_mul]
  exact Nat.sub_eq_of_eq_add (by rw [mul_comm, Nat.mod_add_div])

theorem toNat_pos_of_ne_zero {r : BitVec w} (h : ¬r = 0) : 0 < r.toNat :=
  Nat.pos_of_ne_zero fun h0 => h (BitVec.eq_of_toNat_eq (by rw [h0]; rfl))

/-! ## The code -/

/-- The loop of `commonfactors_int32` and `commonfactors_int64`. -/
def commonfactorsLoop (r0 r1 : BitVec w) : BitVec w :=
  if h : r1 = 0 then r0
  else
    let q := r0 / r1
    let r2 := r0 - q * r1
    commonfactorsLoop r1 r2
termination_by r1.toNat
decreasing_by
  rw [toNat_sub_div_mul]
  exact Nat.mod_lt _ (toNat_pos_of_ne_zero h)

/-- `commonfactors_int32` and `commonfactors_int64`. -/
def commonfactors (a b : BitVec w) : BitVec w := commonfactorsLoop a b

/-- The variables of `extCommonfactors_int32` and `extCommonfactors_int64`. -/
structure Vars (w : ℕ) where
  r0 : BitVec w
  r1 : BitVec w
  s0 : BitVec w
  s1 : BitVec w
  t0 : BitVec w
  t1 : BitVec w

/-- The first half of a round. -/
def reduce0 (v : Vars w) : Vars w :=
  let q := v.r0 / v.r1
  { v with r0 := v.r0 - q * v.r1, s0 := v.s0 + q * v.s1, t0 := v.t0 + q * v.t1 }

/-- The second half of a round. -/
def reduce1 (v : Vars w) : Vars w :=
  let q := v.r1 / v.r0
  { v with r1 := v.r1 - q * v.r0, s1 := v.s1 + q * v.s0, t1 := v.t1 + q * v.t0 }

/-- What the functions return, and what they store into their two parameters. -/
structure Solution (w : ℕ) where
  c : BitVec w
  s : BitVec w
  t : BitVec w

/-- The code after the loop. -/
def complement (v : Vars w) : Solution w :=
  if v.s1 > v.s0 then ⟨v.r0, v.s1 - v.s0, v.t1 - v.t0⟩ else ⟨v.r0, v.s0, v.t0⟩

/-- The loop, with its two exits. The list holds the values of the variables at the start and after
each half of a round. -/
def extLoop (v : Vars w) : List (Vars w) × Solution w :=
  if h : v.r1 = 0 then ([v], complement v)
  else
    let v' := reduce0 v
    if h' : v'.r0 = 0 then ([v, v'], ⟨v'.r1, v'.s1, v'.t1⟩)
    else
      let (l, x) := extLoop (reduce1 v')
      (v :: v' :: l, x)
termination_by v.r1.toNat
decreasing_by
  have hlt : v.r0.toNat % v.r1.toNat < v.r1.toNat := Nat.mod_lt _ (toNat_pos_of_ne_zero h)
  change (v.r1 - v.r1 / (reduce0 v).r0 * (reduce0 v).r0).toNat < v.r1.toNat
  rw [toNat_sub_div_mul]
  refine (Nat.mod_lt _ (toNat_pos_of_ne_zero h')).trans ?_
  rwa [show (reduce0 v).r0 = v.r0 - v.r0 / v.r1 * v.r1 from rfl, toNat_sub_div_mul]

/-- `extCommonfactors_int32` and `extCommonfactors_int64`. -/
def extCommonfactors (a b : BitVec w) : List (Vars w) × Solution w := extLoop ⟨a, b, 1, 0, 0, 1⟩

def commonfactors_int32 (a b : BitVec 32) : BitVec 32 := commonfactors a b

def commonfactors_int64 (a b : BitVec 64) : BitVec 64 := commonfactors a b

def extCommonfactors_int32 (a b : BitVec 32) : List (Vars 32) × Solution 32 :=
  extCommonfactors a b

def extCommonfactors_int64 (a b : BitVec 64) : List (Vars 64) × Solution 64 :=
  extCommonfactors a b

/-! ## The greatest common divisor -/

theorem toNat_commonfactorsLoop (r0 r1 : BitVec w) :
    (commonfactorsLoop r0 r1).toNat = Nat.gcd r0.toNat r1.toNat := by
  induction r0, r1 using commonfactorsLoop.induct with
  | case1 r0 =>
      rw [commonfactorsLoop, dif_pos rfl]
      exact (Nat.gcd_zero_right r0.toNat).symm
  | case2 r0 r1 h q r2 ih =>
      rw [commonfactorsLoop, dif_neg h]
      refine ih.trans ?_
      rw [toNat_sub_div_mul, Nat.gcd_comm, ← Nat.gcd_rec, Nat.gcd_comm]

theorem toNat_commonfactors (a b : BitVec w) :
    (commonfactors a b).toNat = Nat.gcd a.toNat b.toNat :=
  toNat_commonfactorsLoop a b

/-! ## One half of a round -/

/-- The two remainders, and with them the two operands, change places. -/
def Vars.swap (v : Vars w) : Vars w := ⟨v.r1, v.r0, v.t1, v.t0, v.s1, v.s0⟩

/-- The first half of a round, computed with natural numbers. -/
structure Reduced (v v' : Vars w) : Prop where
  r0 : v.r0.toNat = v'.r0.toNat + v.r0.toNat / v.r1.toNat * v.r1.toNat
  s0 : v'.s0.toNat = v.s0.toNat + v.r0.toNat / v.r1.toNat * v.s1.toNat
  t0 : v'.t0.toNat = v.t0.toNat + v.r0.toNat / v.r1.toNat * v.t1.toNat
  r1 : v'.r1 = v.r1
  s1 : v'.s1 = v.s1
  t1 : v'.t1 = v.t1

/-- One of the two halves of a round, computed with natural numbers. -/
def Exact (v v' : Vars w) : Prop := Reduced v v' ∨ Reduced v.swap v'.swap

/-- The variables hold two remainders of `a` and `b`, and their cofactors. -/
def Inv (a b : ℕ) (v : Vars w) : Prop :=
  Cofactors a b v.r0.toNat v.r1.toNat v.s0.toNat v.s1.toNat v.t0.toNat v.t1.toNat

/-- No cofactor exceeds the other operand divided by the greatest common divisor. -/
structure Bounded (a b : ℕ) (v : Vars w) : Prop where
  s0 : v.s0.toNat ≤ b / Nat.gcd a b
  s1 : v.s1.toNat ≤ b / Nat.gcd a b
  t0 : v.t0.toNat ≤ a / Nat.gcd a b
  t1 : v.t1.toNat ≤ a / Nat.gcd a b

variable {a b : ℕ} {v v' : Vars w}

theorem Inv.swap (h : Inv a b v) : Inv b a v.swap := h.symm

theorem Bounded.swap (h : Bounded a b v) : Bounded b a v.swap := by
  have hcomm := Nat.gcd_comm a b
  exact ⟨hcomm ▸ h.t1, hcomm ▸ h.t0, hcomm ▸ h.s1, hcomm ▸ h.s0⟩

theorem Inv.bounded (h : Inv a b v) (h0 : 0 < v.r0.toNat) (h1 : 0 < v.r1.toNat) :
    Bounded a b v :=
  ⟨h.s₀_le h1, h.s₁_le h0, h.t₀_le h1, h.t₁_le h0⟩

theorem Inv.of_reduced (h : Inv a b v) (hv : Reduced v v') : Inv a b v' := by
  have hstep := Cofactors.step h hv.r0
  rw [← hv.s0, ← hv.t0, ← hv.r1, ← hv.s1, ← hv.t1] at hstep
  exact hstep

theorem Bounded.of_reduced (h : Bounded a b v) (hv : Reduced v v') (hi : Inv a b v')
    (h1 : 0 < v.r1.toNat) : Bounded a b v' := by
  have h1' : 0 < v'.r1.toNat := hv.r1 ▸ h1
  exact ⟨hi.s₀_le h1', hv.s1 ▸ h.s1, hi.t₀_le h1', hv.t1 ▸ h.t1⟩

theorem toNat_add_mul {s q s' : BitVec w} (h : s.toNat + q.toNat * s'.toNat < 2 ^ w) :
    (s + q * s').toNat = s.toNat + q.toNat * s'.toNat := by
  have hmul : (q * s').toNat = q.toNat * s'.toNat := by
    rw [BitVec.toNat_mul]
    exact Nat.mod_eq_of_lt ((Nat.le_add_left _ _).trans_lt h)
  rw [BitVec.toNat_add, hmul]
  exact Nat.mod_eq_of_lt h

/-- **Nothing wraps around** in the first half of a round. -/
theorem reduce0_reduced (h : Inv a b v) (h1 : 0 < v.r1.toNat) (ha : a < 2 ^ w) (hb : b < 2 ^ w) :
    Reduced v (reduce0 v) := by
  have hr : v.r0.toNat = v.r0.toNat % v.r1.toNat + v.r0.toNat / v.r1.toNat * v.r1.toNat := by
    rw [mul_comm, Nat.mod_add_div]
  have hstep := Cofactors.step h hr
  have hs := ((hstep.s₀_le h1).trans (Nat.div_le_self _ _)).trans_lt hb
  have ht := ((hstep.t₀_le h1).trans (Nat.div_le_self _ _)).trans_lt ha
  refine ⟨?_, ?_, ?_, rfl, rfl, rfl⟩
  · rw [show (reduce0 v).r0 = v.r0 - v.r0 / v.r1 * v.r1 from rfl, toNat_sub_div_mul]
    exact hr
  · rw [← BitVec.toNat_udiv] at hs ⊢
    exact toNat_add_mul hs
  · rw [← BitVec.toNat_udiv] at ht ⊢
    exact toNat_add_mul ht

theorem reduce1_reduced (h : Inv a b v) (h0 : 0 < v.r0.toNat) (ha : a < 2 ^ w) (hb : b < 2 ^ w) :
    Reduced v.swap (reduce1 v).swap :=
  reduce0_reduced h.swap h0 hb ha

/-! ## The loop -/

/-- What the solution of `extCommonfactors_int32` and `extCommonfactors_int64` is good for. -/
structure Bezout (a b : ℕ) (x : Solution w) : Prop where
  gcd : x.c.toNat = Nat.gcd a b
  eq : (b : ℤ) * x.t.toNat - a * x.s.toNat = x.c.toNat
  t_pos : 0 < x.t.toNat
  t_le : x.t.toNat ≤ a / x.c.toNat
  t_eq : x.t.toNat = a / x.c.toNat → a / x.c.toNat = 1
  s_lt : x.s.toNat < b / x.c.toNat

theorem bezout_of_r0_eq_zero (h : Inv a b v) (hv : Reduced v v') (h0 : 0 < v.r0.toNat)
    (h1 : 0 < v.r1.toNat) (hr : v'.r0 = 0) : Bezout a b ⟨v'.r1, v'.s1, v'.t1⟩ := by
  have hi' := h.of_reduced hv
  have hr0 : v'.r0.toNat = 0 := by rw [hr]; rfl
  have hlast : Cofactors a b 0 v'.r1.toNat v'.s0.toNat v'.s1.toNat v'.t0.toNat v'.t1.toNat :=
    hr0 ▸ hi'
  have hq : 0 < v.r0.toNat / v.r1.toNat := by
    refine Nat.pos_of_ne_zero fun hq => h0.ne' ?_
    rw [hv.r0, hr0, hq, zero_mul, zero_add]
  obtain ⟨hc, ht, hs⟩ := hlast.eq_div (hv.r1 ▸ h1)
  obtain ⟨hslt, htle, hteq⟩ := Cofactors.lt_of_step h hq
  rw [← hv.s0, hs] at hslt
  rw [← hv.t0, ht] at htle hteq
  refine ⟨hc, ?_, hv.t1 ▸ h.t₁_pos, ?_, ?_, ?_⟩
  · have heq : (b : ℤ) * v'.t1.toNat = a * v'.s1.toNat + v'.r1.toNat :=
      mod_cast hi'.right_eq
    exact sub_eq_of_eq_add' heq
  · rw [hc, hv.t1]
    exact htle
  · rw [hc, hv.t1]
    exact fun heq => heq ▸ hteq heq
  · rw [hc, hv.s1]
    exact hslt

theorem bezout_complement (h : Inv a b v) (h0 : 0 < v.r0.toNat) (hr : v.r1 = 0)
    (hs : v.s0.toNat < v.s1.toNat) (ht : v.t0.toNat < v.t1.toNat) :
    Bezout a b (complement v) := by
  have hlast : Cofactors b a 0 v.r0.toNat v.t1.toNat v.t0.toNat v.s1.toNat v.s0.toNat := by
    have hr1 : v.r1.toNat = 0 := by rw [hr]; rfl
    exact hr1 ▸ h.symm
  obtain ⟨hc, hs1, ht1⟩ := hlast.eq_div h0
  have hsub : (v.s1 - v.s0).toNat = v.s1.toNat - v.s0.toNat :=
    BitVec.toNat_sub_of_le hs.le
  have htub : (v.t1 - v.t0).toNat = v.t1.toNat - v.t0.toNat :=
    BitVec.toNat_sub_of_le ht.le
  have hspos := h.s₀_pos
  rw [Nat.gcd_comm] at hc hs1 ht1
  rw [complement, if_pos (BitVec.lt_def.mpr hs)]
  refine ⟨hc, ?_, ?_, ?_, ?_, ?_⟩
  · have hl : (a : ℤ) * v.s0.toNat = b * v.t0.toNat + v.r0.toNat := mod_cast h.left_eq
    have hr' : (b : ℤ) * v.t1.toNat = a * v.s1.toNat := mod_cast hlast.left_eq
    dsimp only
    rw [hsub, htub, Nat.cast_sub hs.le, Nat.cast_sub ht.le, mul_sub, mul_sub, hr', hl]
    ring
  · dsimp only
    omega
  · dsimp only
    rw [htub, hc, ← ht1]
    exact Nat.sub_le _ _
  · dsimp only
    rw [htub, hc, ← ht1]
    intro heq
    have ht0 : v.t0.toNat = 0 := by omega
    have hdet := h.det
    rw [ht0, mul_zero, zero_add] at hdet
    exact Nat.eq_one_of_mul_eq_one_left hdet
  · dsimp only
    rw [hsub, hc, ← hs1]
    omega

/-- What holds at the head of the loop. -/
structure LoopInv (a b : ℕ) (v : Vars w) : Prop where
  inv : Inv a b v
  r0_pos : 0 < v.r0.toNat
  bounded : Bounded a b v
  last : v.r1 = 0 → v.s0.toNat < v.s1.toNat ∧ v.t0.toNat < v.t1.toNat

theorem LoopInv.round (h : LoopInv a b v) (ha : a < 2 ^ w) (hb : b < 2 ^ w) (h1 : ¬v.r1 = 0)
    (h0 : ¬(reduce0 v).r0 = 0) :
    Reduced (reduce0 v).swap (reduce1 (reduce0 v)).swap ∧
      LoopInv a b (reduce1 (reduce0 v)) := by
  have h1pos := toNat_pos_of_ne_zero h1
  have h0pos := toNat_pos_of_ne_zero h0
  have hv := reduce0_reduced h.inv h1pos ha hb
  have hi := h.inv.of_reduced hv
  have hv' := reduce1_reduced hi h0pos ha hb
  have hi' : Inv a b (reduce1 (reduce0 v)) := (hi.swap.of_reduced hv').swap
  have hbd := h.bounded.of_reduced hv hi h1pos
  refine ⟨hv', hi', h0pos, (hbd.swap.of_reduced hv' hi'.swap h0pos).swap, fun hr => ?_⟩
  -- the first remainder is smaller than the second one, and divides it: the quotient is at least 2
  have hlt : (reduce0 v).r0.toNat < v.r1.toNat := by
    rw [show (reduce0 v).r0 = v.r0 - v.r0 / v.r1 * v.r1 from rfl, toNat_sub_div_mul]
    exact Nat.mod_lt _ h1pos
  have hr1 : (reduce1 (reduce0 v)).r1.toNat = 0 := by rw [hr]; rfl
  have hdiv : v.r1.toNat = v.r1.toNat / (reduce0 v).r0.toNat * (reduce0 v).r0.toNat := by
    have hr0 := hv'.r0
    rwa [show (reduce1 (reduce0 v)).swap.r0.toNat = 0 from hr1, zero_add] at hr0
  have hq : 1 < v.r1.toNat / (reduce0 v).r0.toNat := by
    by_contra hq
    have hle := Nat.mul_le_mul_right (reduce0 v).r0.toNat (not_lt.mp hq)
    omega
  have hqpos := Nat.zero_lt_of_lt hq
  constructor
  · exact (lt_add_mul hqpos (Or.inr ⟨hi.s₀_pos, hq⟩)).trans_eq hv'.t0.symm
  · exact (lt_add_mul hqpos (Or.inl hi.t₁_pos)).trans_eq hv'.s0.symm

theorem extLoop_head (v : Vars w) : (extLoop v).1.head? = some v := by
  rw [extLoop]
  split
  · rfl
  · dsimp only
    split
    · rfl
    · rfl

/-- **A run of the loop.** -/
theorem extLoop_spec (v : Vars w) (h : LoopInv a b v) (ha : a < 2 ^ w) (hb : b < 2 ^ w) :
    Bezout a b (extLoop v).2 ∧ (∀ v' ∈ (extLoop v).1, Bounded a b v') ∧
      (extLoop v).1.IsChain Exact := by
  induction v using extLoop.induct with
  | case1 v h1 =>
      rw [extLoop, dif_pos h1]
      obtain ⟨hs, ht⟩ := h.last h1
      refine ⟨bezout_complement h.inv h.r0_pos h1 hs ht, ?_, List.isChain_singleton v⟩
      intro v' hv'
      exact List.mem_singleton.mp hv' ▸ h.bounded
  | case2 v h1 v' h0 =>
      have h1pos := toNat_pos_of_ne_zero h1
      have hv := reduce0_reduced h.inv h1pos ha hb
      rw [extLoop, dif_neg h1]
      dsimp only
      rw [dif_pos h0]
      refine ⟨bezout_of_r0_eq_zero h.inv hv h.r0_pos h1pos h0, ?_, ?_⟩
      · intro x hx
        rcases List.mem_pair.mp hx with rfl | rfl
        · exact h.bounded
        · exact h.bounded.of_reduced hv (h.inv.of_reduced hv) h1pos
      · exact List.isChain_pair.mpr (Or.inl hv)
  | case3 v h1 v' h0 l x hrun ih =>
      have h1pos := toNat_pos_of_ne_zero h1
      have hv := reduce0_reduced h.inv h1pos ha hb
      obtain ⟨hv', hinv⟩ := h.round ha hb h1 h0
      obtain ⟨hbez, hbd, hchain⟩ := ih hinv
      have hhead := extLoop_head (reduce1 v')
      rw [extLoop, dif_neg h1]
      dsimp only
      rw [dif_neg h0]
      dsimp only
      refine ⟨hbez, ?_, ?_⟩
      · intro y hy
        rcases List.mem_cons.mp hy with rfl | hy
        · exact h.bounded
        rcases List.mem_cons.mp hy with rfl | hy
        · exact h.bounded.of_reduced hv (h.inv.of_reduced hv) h1pos
        · exact hbd y hy
      · refine List.isChain_cons_cons.mpr ⟨Or.inl hv, hchain.cons fun y hy => ?_⟩
        rw [hhead] at hy
        exact Option.mem_some_iff.mp hy ▸ Or.inr hv'

/-! ## The functions -/

/-- What the functions return for `a` and `b`: the solution of Bézout's equation, without a value
that wraps around on the way to it. -/
structure Correct (a b : BitVec w) (run : List (Vars w) × Solution w) (c : BitVec w) : Prop where
  bezout : Bezout a.toNat b.toNat run.2
  c_eq : run.2.c = c
  start : run.1.head? = some ⟨a, b, 1, 0, 0, 1⟩
  exact : run.1.IsChain Exact
  bounded : ∀ v ∈ run.1, Bounded a.toNat b.toNat v

theorem inv_init (hw : 0 < w) (a b : BitVec w) :
    Inv a.toNat b.toNat (⟨a, b, 1, 0, 0, 1⟩ : Vars w) := by
  have h1 : (1 : BitVec w).toNat = 1 := Nat.mod_eq_of_lt (Nat.one_lt_two_pow hw.ne')
  have h0 : (0 : BitVec w).toNat = 0 := rfl
  have h := cofactors_init a.toNat b.toNat
  simp only [Inv, h0, h1]
  exact h

theorem extCommonfactors_correct (a b : BitVec w) (ha : a ≠ 0) (hb : b ≠ 0) :
    Correct a b (extCommonfactors a b) (commonfactors a b) := by
  have hapos := toNat_pos_of_ne_zero ha
  have hbpos := toNat_pos_of_ne_zero hb
  have hw : 0 < w := Nat.pos_of_ne_zero fun h0 => by
    subst h0
    exact ha (Subsingleton.elim a 0)
  have hinv := inv_init hw a b
  obtain ⟨hbez, hbd, hchain⟩ := extLoop_spec (⟨a, b, 1, 0, 0, 1⟩ : Vars w)
    ⟨hinv, hapos, hinv.bounded hapos hbpos, fun h => absurd h hb⟩ a.isLt b.isLt
  refine ⟨hbez, BitVec.eq_of_toNat_eq ?_, extLoop_head _, hchain, hbd⟩
  exact hbez.gcd.trans (toNat_commonfactors a b).symm

/-- **The extended greatest common divisor**, of 32 and of 64 bits. -/
theorem extCommonfactors_bezout :
    (∀ a b : BitVec 32, a ≠ 0 → b ≠ 0 →
      Correct a b (extCommonfactors_int32 a b) (commonfactors_int32 a b)) ∧
    (∀ a b : BitVec 64, a ≠ 0 → b ≠ 0 →
      Correct a b (extCommonfactors_int64 a b) (commonfactors_int64 a b)) :=
  ⟨extCommonfactors_correct, extCommonfactors_correct⟩

theorem extCommonfactors_bezout_twelve :
    Correct 12 18 (extCommonfactors_int32 12 18) (commonfactors_int32 12 18) ∧
      Correct 35 64 (extCommonfactors_int64 35 64) (commonfactors_int64 35 64) :=
  ⟨extCommonfactors_bezout.1 12 18 (by decide) (by decide),
    extCommonfactors_bezout.2 35 64 (by decide) (by decide)⟩

end Factorise
end CKern
