import Mathlib.Data.Int.ModEq
import CKern.Math.Bigint.DivHelper

/-!
# `math/int/bigint.c`: division with remainder

* `divmodBigint`: the quotient and the remainder, either of which may be left out.
* `divmodBigint_exact`: if both are requested, then they are right.
* `modBigint_exact_iff`: the remainder alone is right if the number of digits of the quotient fits
  into 16 bits, and only by chance otherwise.
-/

namespace CKern
namespace Bigint

open Positional

/-! ## `divmod_bigint` -/

/-- `divisorisbigger_biginthelper`. -/
def divisorisbiggerBiginthelper (divresult modresult : Option Bigint) (lbig : Bigint) :
    Except Errno (Option Bigint × Option Bigint) :=
  match modresult with
  | none => .ok (divresult.map clearBigint, none)
  | some big =>
    if lbig.nrdigits = 0 then .ok (divresult.map clearBigint, some (clearBigint big))
    else (copyBigint big lbig).map fun copy => (divresult.map clearBigint, some copy)

/-- A result that is requested is made big enough, and its exponent is set. -/
def prepare (result : Option Bigint) (size exponent : ℕ) : Except Errno (Option Bigint) :=
  match result with
  | none => .ok none
  | some big => (reserve big size).map fun big => some { big with exponent := exponent }

/-- `divmod_bigint`.  A result that is not requested is `none`, the null pointer. -/
def divmodBigint (divresult modresult : Option Bigint) (lbig rbig : Bigint) :
    Except Errno (Option Bigint × Option Bigint) :=
  let divsign := xorsignBiginthelper lbig.signAndUsedDigits rbig.signAndUsedDigits
  let lsize := lbig.nrdigits + lbig.exponent
  let rsize := rbig.nrdigits + rbig.exponent
  if rbig.nrdigits = 0 then .error .EINVAL
  else if lsize < rsize then divisorisbiggerBiginthelper divresult modresult lbig
  else
    let l := lbig.operand
    let r := rbig.operand
    let divnrdigits := 1 + lsize - rsize
    let modexpo := uint16 (min r.exponent l.exponent : ℕ)
    let modnrdigits := rsize - modexpo
    (prepare divresult divnrdigits 0).bind fun divresult =>
    (prepare modresult modnrdigits modexpo).bind fun modresult =>
    if r.digits.length = 1 then
      .ok (divmodui32Biginthelper divresult modresult (uint16 divnrdigits) divsign lbig.isnegative
        l.digits (r.digits.getD 0 0))
    else
      let maxnrdigits := max l.digits.length r.digits.length
      (allocateBigint none maxnrdigits).map fun _ =>
        -- `lbig` is copied into `diff` with additional digits set to 0
        divmodBiginthelper divresult modresult (uint16 divnrdigits) (uint16 modnrdigits) divsign
          lbig.isnegative (List.replicate (maxnrdigits - l.digits.length) 0 ++ l.digits) r.digits

/-- `mod_bigint`. -/
def modBigint (result lbig rbig : Bigint) : Except Errno (Option Bigint) :=
  (divmodBigint none (some result) lbig rbig).map Prod.snd

/-! ## The operands in units of their common place -/

namespace Operand

/-- The value of `x`, in units of the lowest place of both operands. -/
def scaled (x y : Operand) : ℤ :=
  number x.digits * base ^ (x.exponent - min x.exponent y.exponent)

theorem scaled_mul (x y : Operand) :
    x.scaled y * base ^ min x.exponent y.exponent = x.value := by
  rw [scaled, value, mul_assoc, ← pow_add, Nat.sub_add_cancel (min_le_left _ _)]

theorem scaled_mul' (x y : Operand) :
    y.scaled x * base ^ min x.exponent y.exponent = y.value := by
  rw [min_comm, scaled_mul]

theorem scaled_pos {x : Operand} (h : Leading x.digits) (hne : x.digits ≠ []) (y : Operand) :
    0 < x.scaled y := mul_pos (number_pos h hne) (base_pow_pos _)

end Operand

theorem ediv_emod_of_eq {z x r p b q t : ℤ} (hp : 0 < p) (hb : 0 < b) (hr : 0 < r)
    (hz : z * b = x * p) (h : z = q * (r * p) + t) (h0 : 0 ≤ t) (ht : t < r * p) :
    q = x / b / r ∧ t / p = x / b % r := by
  have hx : x / b = z / p := by
    rw [← Int.mul_ediv_mul_of_pos_left x b hp, ← hz, mul_comm b p,
      Int.mul_ediv_mul_of_pos_left z p hb]
  have hzp : z / p = t / p + r * q := by
    rw [h, show q * (r * p) + t = t + p * (r * q) by ring, Int.add_mul_ediv_left _ _ hp.ne']
  have h1 : 0 ≤ t / p := Int.ediv_nonneg h0 hp.le
  have h2 : t / p < r := Int.ediv_lt_of_lt_mul hp ht
  rw [hx, hzp, Int.add_mul_ediv_left _ _ hr.ne', Int.ediv_eq_zero_of_lt h1 h2, zero_add,
    Int.add_mul_emod_self_left, Int.emod_eq_of_lt h1 h2]
  exact ⟨rfl, rfl⟩

/-! ## The digits, as quotient and remainder -/

theorem number_replicate_append (n : ℕ) (ds : List UInt32) :
    number (List.replicate n 0 ++ ds) = base ^ n * number ds := by
  rw [number_append, number_replicate_zero, List.length_replicate, zero_add]

theorem DivState.total_nonneg (state : DivState) : 0 ≤ state.total :=
  add_nonneg (number_nonneg _) (mul_nonneg (base_pow_pos _).le (Int.natCast_nonneg _))

theorem divDigits_scaled {l r : Operand} (hr : Leading r.digits) (h2 : 2 ≤ r.digits.length)
    {divnrdigits k s m n : ℕ} (hk : k = uint16 ((divnrdigits : ℤ) - 1))
    (hnr : divnrdigits ≤ UINT16_MAX) (hs : k + s + r.order = l.order)
    (hm : m + min l.exponent r.exponent = r.order)
    (hn : n = max l.digits.length r.digits.length) :
    let run := divDigits divnrdigits (List.replicate (n - l.digits.length) 0 ++ l.digits) r.digits
    number run.2.2 = l.scaled r / base ^ s / r.scaled l ∧
      number (modDigits m run.2.1) = l.scaled r / base ^ s % r.scaled l := by
  have hrne : r.digits ≠ [] := fun hnil => by simp [hnil] at h2
  have hlo : l.order = l.exponent + l.digits.length := rfl
  have hro : r.order = r.exponent + r.digits.length := rfl
  set diff := List.replicate (n - l.digits.length) 0 ++ l.digits with hdiff
  have hlen : diff.length = n := by
    rw [hdiff, List.length_append, List.length_replicate]
    omega
  obtain ⟨hfits, hlength, hvalue, hlt, -, -⟩ :=
    divDigits_spec h2 (show r.digits.length ≤ diff.length by omega) hr hk hnr
  dsimp only at hfits hlength hvalue hlt ⊢
  set run := divDigits divnrdigits diff r.digits with hrun
  have htotal := modDigits_total (m := m) hfits (by omega) (by omega)
  have hel := min_le_left l.exponent r.exponent
  have her := min_le_right l.exponent r.exponent
  have hnl : l.digits.length ≤ n := hn ▸ le_max_left _ _
  have hnr' : r.digits.length ≤ n := hn ▸ le_max_right _ _
  have hmn : m ≤ n := by
    clear hn hvalue hlt hlength hel her
    omega
  clear hn
  have hplaces : number r.digits * base ^ (diff.length - (r.digits.length - 2)) =
      r.scaled l * base ^ (n + 2 - m) := by
    have hexp : diff.length - (r.digits.length - 2) =
        r.exponent - min l.exponent r.exponent + (n + 2 - m) := by
      generalize min l.exponent r.exponent = e at hm hel her
      clear hlength hvalue hlt hs hel hnl
      omega
    rw [Operand.scaled, mul_assoc, ← pow_add, min_comm, hexp]
  have hz : base ^ (k + 2) * number diff * base ^ s = l.scaled r * base ^ (n + 2 - m) := by
    have hexp : k + 2 + (n - l.digits.length) + s =
        l.exponent - min l.exponent r.exponent + (n + 2 - m) := by
      generalize min l.exponent r.exponent = e at hm hel her
      clear hlength hvalue hlt her hnr'
      omega
    rw [hdiff, number_replicate_append, Operand.scaled]
    calc base ^ (k + 2) * (base ^ (n - l.digits.length) * number l.digits) * base ^ s
        = number l.digits * base ^ (k + 2 + (n - l.digits.length) + s) := by
          rw [pow_add, pow_add]
          ring
      _ = number l.digits * base ^ (l.exponent - min l.exponent r.exponent) *
          base ^ (n + 2 - m) := by rw [hexp, pow_add, mul_assoc]
  rw [hplaces] at hvalue hlt
  obtain ⟨hq, ht⟩ := ediv_emod_of_eq (base_pow_pos _) (base_pow_pos s)
    (Operand.scaled_pos hr hrne l) hz hvalue (DivState.total_nonneg _) hlt
  exact ⟨hq, by rw [htotal, hlength, hlen, ht]⟩

theorem divui32_scaled {l r : Operand} (hl : l.digits ≠ []) (hr : Leading r.digits)
    (h1 : r.digits.length = 1) {divnrdigits s : ℕ} {size : ℕ × ℕ}
    (hsize : size = divui32Size divnrdigits l.digits (r.digits.getD 0 0))
    (hs : size.1 + s + r.exponent = size.2 + l.exponent) (hend : s = 0 ∨ size.2 ≤ size.1) :
    let run := divui32 divnrdigits l.digits (r.digits.getD 0 0)
    number run.2.1 = l.scaled r / base ^ s / r.scaled l ∧
      number run.2.2 = l.scaled r / base ^ s % r.scaled l := by
  obtain ⟨d, hd⟩ := List.length_eq_one_iff.mp h1
  have hpos : 0 < d.toNat := by
    refine Nat.pos_of_ne_zero fun h0 => hr ?_
    rw [hd, UInt32.toNat_inj.mp (h0.trans UInt32.toNat_zero.symm)]
    rfl
  have hgetD : r.digits.getD 0 0 = d := by rw [hd]; rfl
  rw [hgetD] at hsize ⊢
  obtain ⟨-, -, -, hvalue, hlt⟩ := divui32_number divnrdigits hl hpos
  dsimp only at hvalue hlt ⊢
  rw [← hsize] at hvalue hlt
  have hdivisor : (d.toNat : ℤ) * base ^ (size.2 - size.1) = r.scaled l * 1 := by
    rw [Operand.scaled, hd, number_cons, number_nil, mul_zero, add_zero, mul_one]
    congr 2
    omega
  have hdividend : base ^ (size.1 - size.2) * number l.digits * base ^ s = l.scaled r * 1 := by
    have hexp : size.1 - size.2 + s = l.exponent - min l.exponent r.exponent := by omega
    rw [Operand.scaled, mul_one, ← hexp, pow_add]
    ring
  rw [hdivisor] at hvalue hlt
  have h := ediv_emod_of_eq one_pos (base_pow_pos s)
    (Operand.scaled_pos hr (by simp [hd]) l) hdividend hvalue (number_nonneg _) hlt
  rwa [Int.ediv_one] at h

/-! ## One run of `divmod_bigint` -/

/-- The sizes and the digits of quotient and remainder, computed by one of the two helpers. -/
def runDigits (divnrdigits modnrdigits : ℕ) (l r : Operand) :
    (ℕ × List UInt32) × (ℕ × List UInt32) :=
  if r.digits.length = 1 then
    let run := divui32 divnrdigits l.digits (r.digits.getD 0 0)
    ((run.1, run.2.1), (run.2.2.length, run.2.2))
  else
    let n := max l.digits.length r.digits.length
    let run := divDigits divnrdigits (List.replicate (n - l.digits.length) 0 ++ l.digits) r.digits
    ((run.1, run.2.2), ((modSize modnrdigits run.2.1).1, modDigits modnrdigits run.2.1))

theorem WellFormed.operand_order_eq {big : Bigint} (h : big.WellFormed) :
    big.operand.order = big.nrdigits + big.exponent := by
  rw [operand_order, h.length_valid, add_comm]

theorem WellFormed.operand_length_le {big : Bigint} (h : big.WellFormed) :
    big.operand.digits.length ≤ INT16_MAX :=
  (Operand.skipTrailingZero_suffix big.valid big.exponent).length_le.trans
    (h.length_valid.trans_le h.nrdigits_le)

theorem prepare_some {big : Bigint} {size exponent : ℕ} {out : Option Bigint}
    (h : prepare (some big) size exponent = .ok out) :
    size ≤ INT16_MAX ∧ ∃ big', out = some big' ∧ big'.exponent = exponent := by
  obtain ⟨big', hres, rfl⟩ := map_eq_ok h
  exact ⟨reserve_le hres, _, rfl, rfl⟩

/-- The operands of a division whose dividend is not too small. -/
structure Dividable (lbig rbig : Bigint) : Prop where
  left : lbig.WellFormed
  right : rbig.WellFormed
  divisor : rbig.nrdigits ≠ 0
  size : rbig.nrdigits + rbig.exponent ≤ lbig.nrdigits + lbig.exponent

section Dividable

variable {lbig rbig : Bigint} (h : Dividable lbig rbig)

include h

theorem Dividable.order_le : rbig.operand.order ≤ lbig.operand.order := by
  rw [h.left.operand_order_eq, h.right.operand_order_eq]
  exact h.size

theorem Dividable.dividend_ne_nil : lbig.operand.digits ≠ [] := by
  rw [Ne, h.left.operand_eq_nil]
  intro h0
  have h1 := h.left.exponent_zero h0
  have h2 := h.size
  have h3 := h.divisor
  omega

theorem Dividable.divisor_ne_nil : rbig.operand.digits ≠ [] := by
  rw [Ne, h.right.operand_eq_nil]
  exact h.divisor

theorem Dividable.divnrdigits_le :
    1 + lbig.operand.order - rbig.operand.order ≤ 2 * UINT16_MAX := by
  have h1 := h.left.nrdigits_le
  have h2 := h.left.exponent_le
  have h3 := h.divisor
  rw [INT16_MAX] at h1
  rw [UINT16_MAX] at h2 ⊢
  rw [h.left.operand_order_eq, h.right.operand_order_eq]
  omega

theorem Dividable.modexpo_eq {m e : ℕ}
    (he : e = uint16 (min rbig.operand.exponent lbig.operand.exponent : ℕ))
    (hm : m = rbig.operand.order - e) (hle : m ≤ INT16_MAX) :
    e = min lbig.operand.exponent rbig.operand.exponent ∧
      m + min lbig.operand.exponent rbig.operand.exponent = rbig.operand.order ∧
      e ≤ UINT16_MAX := by
  have h1 := h.left.nrdigits_le
  have h2 := h.left.exponent_le
  have h3 := h.left.operand_order_eq
  have h4 := h.right.operand_order_eq
  have h5 : lbig.operand.order = lbig.operand.exponent + lbig.operand.digits.length := rfl
  have h6 : rbig.operand.order = rbig.operand.exponent + rbig.operand.digits.length := rfl
  have h7 := List.length_pos_iff.mpr h.divisor_ne_nil
  rw [INT16_MAX] at h1 hle
  rw [UINT16_MAX] at h2 ⊢
  rw [uint16] at he
  omega

end Dividable

theorem Dividable.divmodBigint_run {lbig rbig : Bigint} (hd : Dividable lbig rbig)
    {divresult modresult : Option Bigint} {out : Option Bigint × Option Bigint}
    (h : divmodBigint divresult modresult lbig rbig = .ok out) {n m e : ℕ}
    (hn : n = 1 + lbig.operand.order - rbig.operand.order)
    (he : e = uint16 (min rbig.operand.exponent lbig.operand.exponent : ℕ))
    (hm : m = rbig.operand.order - e) :
    ∃ div mod, prepare divresult n 0 = .ok div ∧ prepare modresult m e = .ok mod ∧
      out =
        (div.map fun big =>
          let run := runDigits (uint16 (n : ℕ)) (uint16 (m : ℕ)) lbig.operand rbig.operand
          big.store (xorsignBiginthelper lbig.signAndUsedDigits rbig.signAndUsedDigits)
            run.1.1 run.1.2,
        mod.map fun big =>
          let run := runDigits (uint16 (n : ℕ)) (uint16 (m : ℕ)) lbig.operand rbig.operand
          big.store lbig.isnegative run.2.1 run.2.2) := by
  rw [divmodBigint] at h
  dsimp only at h
  rw [if_neg hd.divisor, if_neg (not_lt.mpr hd.size), ← hd.left.operand_order_eq,
    ← hd.right.operand_order_eq, ← he, ← hn, ← hm] at h
  obtain ⟨div, hdiv, h⟩ := bind_eq_ok h
  obtain ⟨mod, hmod, h⟩ := bind_eq_ok h
  refine ⟨div, mod, hdiv, hmod, ?_⟩
  dsimp only
  by_cases h1 : rbig.operand.digits.length = 1
  · rw [if_pos h1] at h
    rw [← Except.ok.inj h, divmodui32Biginthelper, runDigits, if_pos h1]
  · rw [if_neg h1] at h
    obtain ⟨_, _, rfl⟩ := map_eq_ok h
    rw [divmodBiginthelper, runDigits, if_neg h1]

/-- The number of digits of the quotient fits into the 16 bits of the counters: the first digit is
computed before the loop, unless a single digit of the dividend is not smaller than the divisor. -/
def QuotientFits (l r : Operand) : Prop :=
  1 + l.order - r.order ≤ UINT16_MAX ∨
    1 + l.order - r.order = UINT16_MAX + 1 ∧
      (r.digits.length ≠ 1 ∨ l.digits.getD (l.digits.length - 1) 0 < r.digits.getD 0 0)

instance (l r : Operand) : Decidable (QuotientFits l r) :=
  inferInstanceAs (Decidable (_ ∨ _))

theorem runDigits_scaled {l r : Operand} (hlne : l.digits ≠ []) (hr : Leading r.digits)
    (hrne : r.digits ≠ []) {n m s : ℕ} (hm : m + min l.exponent r.exponent = r.order)
    (hmulti : r.digits.length ≠ 1 →
      uint16 ((uint16 (n : ℕ) : ℤ) - 1) + s + r.order = l.order)
    (hsingle : r.digits.length = 1 →
      (divui32Size (uint16 (n : ℕ)) l.digits (r.digits.getD 0 0)).1 + s + r.exponent =
          (divui32Size (uint16 (n : ℕ)) l.digits (r.digits.getD 0 0)).2 + l.exponent ∧
        (s = 0 ∨ (divui32Size (uint16 (n : ℕ)) l.digits (r.digits.getD 0 0)).2 ≤
          (divui32Size (uint16 (n : ℕ)) l.digits (r.digits.getD 0 0)).1)) :
    number (runDigits (uint16 (n : ℕ)) m l r).1.2 = l.scaled r / base ^ s / r.scaled l ∧
      number (runDigits (uint16 (n : ℕ)) m l r).2.2 = l.scaled r / base ^ s % r.scaled l := by
  by_cases h1 : r.digits.length = 1
  · obtain ⟨hs, hend⟩ := hsingle h1
    rw [runDigits, if_pos h1]
    dsimp only
    exact divui32_scaled hlne hr h1 rfl hs hend
  · have h2 : 2 ≤ r.digits.length := by
      have := List.length_pos_iff.mpr hrne
      omega
    rw [runDigits, if_neg h1]
    dsimp only
    exact divDigits_scaled hr h2 rfl (uint16_le _) (hmulti h1) hm rfl

theorem QuotientFits.le {l r : Operand} (hfits : QuotientFits l r) {n : ℕ}
    (hn : n = 1 + l.order - r.order) : n ≤ 65536 := by
  rw [QuotientFits, ← hn, UINT16_MAX] at hfits
  exact hfits.elim (fun h => h.trans (Nat.le_succ _)) fun h => h.1.le

theorem runDigits_exact {l r : Operand} (hlne : l.digits ≠ []) (hr : Leading r.digits)
    (hrne : r.digits ≠ []) (hge : r.order ≤ l.order) {n m : ℕ} (hn : n = 1 + l.order - r.order)
    (hm : m + min l.exponent r.exponent = r.order) (hfits : QuotientFits l r) :
    number (runDigits (uint16 (n : ℕ)) m l r).1.2 = l.scaled r / r.scaled l ∧
      number (runDigits (uint16 (n : ℕ)) m l r).2.2 = l.scaled r % r.scaled l := by
  have hlo : l.order = l.exponent + l.digits.length := rfl
  have hro : r.order = r.exponent + r.digits.length := rfl
  have hlpos := List.length_pos_iff.mpr hlne
  have h := runDigits_scaled (s := 0) hlne hr hrne (n := n) hm ?_ ?_
  · rwa [pow_zero, Int.ediv_one] at h
  · intro _
    have hle : n ≤ 65536 := hfits.le hn
    rw [uint16_sub_one (by omega), Nat.mod_eq_of_lt (by omega)]
    omega
  · intro h1
    have hle : n ≤ 65536 := hfits.le hn
    refine ⟨?_, .inl rfl⟩
    rw [divui32Size]
    split_ifs with hlt
    · rw [uint16_sub_one (by omega), Nat.mod_eq_of_lt (by omega)]
      omega
    · rw [QuotientFits, ← hn, UINT16_MAX] at hfits
      have hle' : n ≤ 65535 :=
        hfits.elim id fun h => absurd (h.2.resolve_left (not_not.mpr h1)) hlt
      rw [uint16_natCast, Nat.mod_eq_of_lt (by omega)]
      omega

theorem runDigits_wrapped {l r : Operand} (hlne : l.digits ≠ []) (hr : Leading r.digits)
    (hrne : r.digits ≠ []) {n m : ℕ} (hn : n = 1 + l.order - r.order)
    (hm : m + min l.exponent r.exponent = r.order) (hwrap : UINT16_MAX + 1 < n)
    (hle : n ≤ 2 * UINT16_MAX) (hend : r.digits.length = 1 → r.exponent + 65536 ≤ l.exponent) :
    number (runDigits (uint16 (n : ℕ)) m l r).2.2 =
      l.scaled r / base ^ 65536 % r.scaled l := by
  have hlo : l.order = l.exponent + l.digits.length := rfl
  have hro : r.order = r.exponent + r.digits.length := rfl
  have hlpos := List.length_pos_iff.mpr hlne
  rw [UINT16_MAX] at hwrap hle
  refine (runDigits_scaled (s := 65536) hlne hr hrne (n := n) hm (fun _ => ?_) fun h1 => ?_).2
  · rw [uint16_sub_one (by omega), Nat.mod_eq_sub_mod (by omega), Nat.mod_eq_of_lt (by omega)]
    omega
  · have hend' := hend h1
    rw [divui32Size]
    split_ifs
    · rw [uint16_sub_one (by omega), Nat.mod_eq_sub_mod (by omega), Nat.mod_eq_of_lt (by omega)]
      dsimp only
      omega
    · rw [uint16_natCast, Nat.mod_eq_sub_mod (by omega), Nat.mod_eq_of_lt (by omega)]
      dsimp only
      omega

/-! ## The stored digits -/

theorem length_le_of_lt {ds : List UInt32} {n : ℕ} (h : Leading ds) (hlt : number ds < base ^ n) :
    ds.length ≤ n := by
  by_contra hn
  have hne : ds ≠ [] := fun hnil => by simp [hnil] at hn
  have h1 := pow_le_number h hne
  have h2 : base ^ n ≤ base ^ (ds.length - 1) :=
    pow_le_pow_right₀ (by rw [base_eq]; norm_num) (by omega)
  linarith

theorem runDigits_mod {l r : Operand} (hlne : l.digits ≠ []) (hr : Leading r.digits)
    (hrne : r.digits ≠ []) (hge : r.order ≤ l.order) {n m : ℕ} (hn : n ≤ UINT16_MAX)
    (hm : m + min l.exponent r.exponent = r.order) :
    (runDigits n m l r).2.1 = (runDigits n m l r).2.2.length ∧
      (runDigits n m l r).2.2.length ≤ max m l.digits.length ∧
      Leading (runDigits n m l r).2.2 := by
  have hlo : l.order = l.exponent + l.digits.length := rfl
  have hro : r.order = r.exponent + r.digits.length := rfl
  by_cases h1 : r.digits.length = 1
  · rw [runDigits, if_pos h1]
    have hpos := leading_getD hr hrne
    rw [h1] at hpos
    obtain ⟨-, -, hlead, hvalue, hlt⟩ := divui32_number n hlne hpos
    dsimp only
    refine ⟨rfl, (length_le_of_lt hlead ?_).trans (le_max_right _ _), hlead⟩
    generalize divui32Size n l.digits (r.digits.getD 0 0) = size at hvalue hlt
    set d := r.digits.getD 0 0 with hd
    rcases Nat.le_total size.1 size.2 with hle | hle
    · rw [Nat.sub_eq_zero_of_le hle, pow_zero, one_mul] at hvalue
      have hq := mul_nonneg (number_nonneg (divui32 n l.digits d).2.1)
        (mul_nonneg (Int.natCast_nonneg d.toNat) (base_pow_pos (size.2 - size.1)).le)
      linarith [number_lt l.digits]
    · rw [Nat.sub_eq_zero_of_le hle, pow_zero, mul_one] at hlt
      have hbase : base ^ 1 ≤ base ^ l.digits.length :=
        pow_le_pow_right₀ (by rw [base_eq]; norm_num) (List.length_pos_iff.mpr hlne)
      have hd32 := toNat_add_one_le d
      rw [pow_one] at hbase
      linarith
  · rw [runDigits, if_neg h1]
    have hpos := List.length_pos_iff.mpr hrne
    set diff := List.replicate (max l.digits.length r.digits.length - l.digits.length) 0 ++ l.digits
      with hdiff
    have hlen : diff.length = max l.digits.length r.digits.length := by
      rw [hdiff, List.length_append, List.length_replicate]
      omega
    obtain ⟨hfits, hlength, -⟩ :=
      divDigits_spec (show 2 ≤ r.digits.length by omega)
        (show r.digits.length ≤ diff.length by omega) hr rfl hn
    dsimp only at hfits hlength ⊢
    rw [← hdiff]
    obtain ⟨hsize, hle, hlead, -⟩ := modDigits_number (m := m) (by omega)
      (show m ≤ (divDigits n diff r.digits).2.1.ldigits.length + 2 by omega) hfits.loffset_pos
      hfits.loffset_le
    exact ⟨hsize.symm, hsize.trans_le (hle.trans (le_max_left _ _)), hlead⟩

theorem runDigits_div {l r : Operand} (hl : Leading l.digits) (hlne : l.digits ≠ [])
    (hr : Leading r.digits) (hrne : r.digits ≠ []) (hge : r.order ≤ l.order) {n m : ℕ}
    (hn : n = 1 + l.order - r.order) (hle : n ≤ UINT16_MAX)
    (hm : m + min l.exponent r.exponent = r.order) :
    (runDigits n m l r).1.1 = (runDigits n m l r).1.2.length ∧
      (runDigits n m l r).1.2.length ≤ n ∧ Leading (runDigits n m l r).1.2 := by
  have hlo : l.order = l.exponent + l.digits.length := rfl
  have hro : r.order = r.exponent + r.digits.length := rfl
  have hlpos := List.length_pos_iff.mpr hlne
  have hn' : uint16 ((n : ℤ) - 1) = n - 1 := by
    rw [UINT16_MAX] at hle
    rw [uint16]
    omega
  by_cases h1 : r.digits.length = 1
  · rw [runDigits, if_pos h1]
    have hpos := leading_getD hr hrne
    rw [h1] at hpos
    obtain ⟨hsize, hqlen, -⟩ := divui32_number n hlne hpos
    refine ⟨hsize.trans hqlen.symm, hqlen.trans_le ?_, divui32_leading hl hlne hpos⟩
    rw [divui32Size]
    split_ifs
    · dsimp only
      omega
    · exact le_rfl
  · have hfits : QuotientFits l r := .inl (hn ▸ hle)
    have hvalue := (runDigits_exact (n := n) hlne hr hrne hge hn hm hfits).1
    rw [uint16_of_le hle] at hvalue
    rw [runDigits, if_neg h1] at hvalue ⊢
    have hpos := List.length_pos_iff.mpr hrne
    set diff := List.replicate (max l.digits.length r.digits.length - l.digits.length) 0 ++ l.digits
      with hdiff
    have hlen : diff.length = max l.digits.length r.digits.length := by
      rw [hdiff, List.length_append, List.length_replicate]
      omega
    obtain ⟨-, -, -, -, hqlen, hsize⟩ :=
      divDigits_spec (show 2 ≤ r.digits.length by omega)
        (show r.digits.length ≤ diff.length by omega) hr rfl hle
    dsimp only at hqlen hsize hvalue ⊢
    rw [← hdiff] at hvalue ⊢
    rw [hn'] at hqlen
    refine ⟨hsize (by omega), by omega, ?_⟩
    rcases hqlen with hqlen | ⟨-, hlead⟩
    · -- the first digit was zero: the quotient is large enough for the other ones
      rcases Nat.lt_or_ge n 2 with hn1 | hn2
      · rw [List.length_eq_zero_iff.mp (hqlen.trans (by omega))]
        simp [Leading]
      · refine leading_of_pow_le ?_
        rw [hvalue, hqlen]
        refine Int.le_ediv_of_mul_le (Operand.scaled_pos hr hrne l) ?_
        refine le_of_mul_le_mul_right ?_ (base_pow_pos (min l.exponent r.exponent))
        have hexp : n - 1 - 1 + r.order = l.order - 1 := by omega
        rw [mul_assoc, l.scaled_mul' r, l.scaled_mul r]
        calc base ^ (n - 1 - 1) * r.value
            ≤ base ^ (n - 1 - 1) * base ^ r.order :=
              mul_le_mul_of_nonneg_left r.value_lt_pow_order.le (base_pow_pos _).le
          _ = base ^ (l.order - 1) := by rw [← pow_add, hexp]
          _ ≤ l.value := Operand.pow_order_le hl hlne
    · exact hlead

/-! ## Both results -/

theorem tdiv_tmod_value (lbig rbig : Bigint) :
    lbig.value.tdiv rbig.value =
        (if xorsignBiginthelper lbig.signAndUsedDigits rbig.signAndUsedDigits then -1 else 1) *
          (lbig.magnitude / rbig.magnitude) ∧
      lbig.value.tmod rbig.value =
        (if lbig.isnegative then -1 else 1) * (lbig.magnitude % rbig.magnitude) := by
  have hl : 0 ≤ lbig.magnitude := mul_nonneg (number_nonneg _) (base_pow_pos _).le
  rw [value_eq lbig, value_eq rbig, xorsignBiginthelper, isnegative, isnegative]
  by_cases h1 : lbig.signAndUsedDigits < 0 <;> by_cases h2 : rbig.signAndUsedDigits < 0 <;>
    simp [h1, h2, Int.neg_tdiv, Int.tdiv_neg, Int.neg_tmod, Int.tmod_neg,
      Int.tdiv_eq_ediv_of_nonneg hl, Int.tmod_eq_emod_of_nonneg hl]

theorem magnitude_div_mod (lbig rbig : Bigint) :
    lbig.magnitude / rbig.magnitude =
        lbig.operand.scaled rbig.operand / rbig.operand.scaled lbig.operand ∧
      lbig.magnitude % rbig.magnitude =
        lbig.operand.scaled rbig.operand % rbig.operand.scaled lbig.operand *
          base ^ min lbig.operand.exponent rbig.operand.exponent := by
  have hpow := base_pow_pos (min lbig.operand.exponent rbig.operand.exponent)
  rw [← operand_value, ← operand_value, ← lbig.operand.scaled_mul rbig.operand,
    ← lbig.operand.scaled_mul' rbig.operand, mul_comm _ (base ^ _), mul_comm _ (base ^ _),
    Int.mul_ediv_mul_of_pos _ _ hpow, Int.mul_emod_mul_of_pos _ _ hpow, mul_comm (base ^ _)]
  exact ⟨rfl, rfl⟩

theorem magnitude_lt_of_size_lt {lbig rbig : Bigint} (hl : lbig.WellFormed) (hr : rbig.WellFormed)
    (h0 : rbig.nrdigits ≠ 0)
    (h : lbig.nrdigits + lbig.exponent < rbig.nrdigits + rbig.exponent) :
    lbig.magnitude < rbig.magnitude := by
  have hne := mt hr.operand_eq_nil.mp h0
  have horder : lbig.operand.order ≤ rbig.operand.order - 1 := by
    rw [hl.operand_order_eq, hr.operand_order_eq]
    omega
  rw [← operand_value, ← operand_value]
  calc lbig.operand.value < base ^ lbig.operand.order := Operand.value_lt_pow_order _
    _ ≤ base ^ (rbig.operand.order - 1) := pow_le_pow_right₀ (by rw [base_eq]; norm_num) horder
    _ ≤ rbig.operand.value := Operand.pow_order_le hr.operand_leading hne

theorem divisorisbiggerBiginthelper_spec {divresult : Option Bigint} {modresult lbig : Bigint}
    {out : Option Bigint × Option Bigint} (hl : lbig.WellFormed)
    (h : divisorisbiggerBiginthelper divresult (some modresult) lbig = .ok out) :
    out.1 = divresult.map clearBigint ∧
      ∃ rem, out.2 = some rem ∧ rem.WellFormed ∧ rem.value = lbig.value := by
  rw [divisorisbiggerBiginthelper] at h
  split_ifs at h with h0
  · cases h
    refine ⟨rfl, _, rfl, clearBigint_wellFormed _, ?_⟩
    rw [clearBigint_value, value_eq, magnitude_eq_zero h0]
    simp
  · obtain ⟨copy, hcopy, rfl⟩ := map_eq_ok h
    have hsame := copyBigint_same hl hcopy
    exact ⟨rfl, copy, rfl, hsame.wellFormed hl, hsame.value⟩

theorem divmodBigint_spec {divresult modresult lbig rbig quot rem : Bigint}
    (hl : lbig.WellFormed) (hr : rbig.WellFormed)
    (h : divmodBigint (some divresult) (some modresult) lbig rbig = .ok (some quot, some rem)) :
    quot.WellFormed ∧ rem.WellFormed ∧ rbig.nrdigits ≠ 0 ∧
      quot.value = lbig.value.tdiv rbig.value ∧ rem.value = lbig.value.tmod rbig.value := by
  obtain ⟨htdiv, htmod⟩ := tdiv_tmod_value lbig rbig
  have h0 : rbig.nrdigits ≠ 0 := fun h0 => by
    rw [divmodBigint] at h
    dsimp only at h
    rw [if_pos h0] at h
    cases h
  by_cases hlt : lbig.nrdigits + lbig.exponent < rbig.nrdigits + rbig.exponent
  · rw [divmodBigint] at h
    dsimp only at h
    rw [if_neg h0, if_pos hlt] at h
    obtain ⟨hq, rem', hrem, hwf, hvalue⟩ := divisorisbiggerBiginthelper_spec hl h
    cases hq
    cases hrem
    have hmag := magnitude_lt_of_size_lt hl hr h0 hlt
    have hpos : 0 ≤ lbig.magnitude := mul_nonneg (number_nonneg _) (base_pow_pos _).le
    refine ⟨clearBigint_wellFormed _, hwf, h0, ?_, ?_⟩
    · rw [clearBigint_value, htdiv, Int.ediv_eq_zero_of_lt hpos hmag, mul_zero]
    · rw [hvalue, htmod, Int.emod_eq_of_lt hpos hmag, value_eq]
      split_ifs <;> ring
  · have hd : Dividable lbig rbig := ⟨hl, hr, h0, not_lt.mp hlt⟩
    obtain ⟨n, hn⟩ : ∃ n, n = 1 + lbig.operand.order - rbig.operand.order := ⟨_, rfl⟩
    obtain ⟨e, he⟩ : ∃ e, e = uint16 (min rbig.operand.exponent lbig.operand.exponent : ℕ) :=
      ⟨_, rfl⟩
    obtain ⟨m, hm⟩ : ∃ m, m = rbig.operand.order - e := ⟨_, rfl⟩
    obtain ⟨div, mod, hdiv, hmod, hout⟩ := hd.divmodBigint_run h hn he hm
    obtain ⟨hnle, div', rfl, hdexp⟩ := prepare_some hdiv
    obtain ⟨hmle, mod', rfl, hmexp⟩ := prepare_some hmod
    obtain ⟨hmin, hmo, hele⟩ := hd.modexpo_eq he hm hmle
    have hn16 : n ≤ UINT16_MAX := hnle.trans (by norm_num)
    obtain ⟨hq, hrem⟩ := runDigits_exact hd.dividend_ne_nil hr.operand_leading hd.divisor_ne_nil
      hd.order_le hn hmo (.inl (hn ▸ hn16))
    obtain ⟨hqsize, hqlen, hqlead⟩ := runDigits_div hl.operand_leading hd.dividend_ne_nil
      hr.operand_leading hd.divisor_ne_nil hd.order_le hn hn16 hmo
    obtain ⟨hmsize, hmlen, hmlead⟩ := runDigits_mod (n := n) hd.dividend_ne_nil hr.operand_leading
      hd.divisor_ne_nil hd.order_le hn16 hmo
    rw [uint16_of_le hn16] at hq hrem hout
    rw [uint16_of_le (hmle.trans (by norm_num))] at hout
    set run := runDigits n m lbig.operand rbig.operand with hrun
    simp only [Option.map_some, Prod.mk.injEq, Option.some.injEq] at hout
    obtain ⟨rfl, rfl⟩ := hout
    rw [hqsize, hmsize]
    have hquot := store_represents
      (xorsignBiginthelper lbig.signAndUsedDigits rbig.signAndUsedDigits)
      (hdexp.trans_le (Nat.zero_le _)) (hqlen.trans hnle) hqlead
    have hremainder := store_represents lbig.isnegative (hmexp.trans_le hele)
      (hmlen.trans (max_le hmle hl.operand_length_le)) hmlead
    obtain ⟨hdivmag, hmodmag⟩ := magnitude_div_mod lbig rbig
    refine ⟨hquot.1, hremainder.1, h0, ?_, ?_⟩
    · rw [hquot.2, htdiv, hdivmag, hq, hdexp, pow_zero, mul_one]
    · rw [hremainder.2, htmod, hmodmag, hrem, hmexp, hmin]

/-- **Quotient and remainder are exact**: whenever both are returned, the quotient is truncated
toward zero, and the remainder has the sign of the dividend. -/
theorem divmodBigint_exact {divresult modresult lbig rbig quot rem : Bigint}
    (hl : lbig.WellFormed) (hr : rbig.WellFormed)
    (h : divmodBigint (some divresult) (some modresult) lbig rbig = .ok (some quot, some rem)) :
    lbig.value = quot.value * rbig.value + rem.value ∧ |rem.value| < |rbig.value| ∧
      quot.value = lbig.value.tdiv rbig.value ∧
      (rem.value = 0 ∨ rem.value.sign = lbig.value.sign) ∧ quot.WellFormed ∧ rem.WellFormed := by
  obtain ⟨hq, hm, h0, hquot, hrem⟩ := divmodBigint_spec hl hr h
  have hne : rbig.value ≠ 0 := by
    have hpos := number_pos hr.leading (hr.valid_ne_nil h0)
    rw [value]
    refine mul_ne_zero (mt Int.sign_eq_zero_iff_zero.mp fun hs => h0 ?_)
      (mul_pos hpos (base_pow_pos _)).ne'
    rw [nrdigits, hs]
    rfl
  refine ⟨?_, ?_, hquot, ?_, hq, hm⟩
  · rw [hquot, hrem, Int.tdiv_mul_add_tmod]
  · rw [hrem, Int.abs_eq_natAbs, Int.abs_eq_natAbs, Int.natAbs_tmod]
    exact_mod_cast Nat.mod_lt _ (Int.natAbs_pos.mpr hne)
  · rw [hrem]
    by_cases hdvd : rbig.value ∣ lbig.value
    · exact .inl (Int.dvd_iff_tmod_eq_zero.mp hdvd)
    · rw [Int.sign_tmod, if_neg hdvd]
      exact .inr rfl

/-- `-3 * base - 2`, moved up by two places, divided by a number with two digits. -/
theorem divmodBigint_exact_negative :
    (⟨4, -3, 1, [0, 2, 3], by decide⟩ : Bigint).value =
        (⟨4, -2, 0, [2980181389, 1840700269], by decide⟩ : Bigint).value *
          (⟨4, 2, 0, [5, 7], by decide⟩ : Bigint).value +
        (⟨4, -1, 0, [2278962239], by decide⟩ : Bigint).value ∧
      |(⟨4, -1, 0, [2278962239], by decide⟩ : Bigint).value| <
        |(⟨4, 2, 0, [5, 7], by decide⟩ : Bigint).value| ∧
      (⟨4, -2, 0, [2980181389, 1840700269], by decide⟩ : Bigint).value =
        (⟨4, -3, 1, [0, 2, 3], by decide⟩ : Bigint).value.tdiv
          (⟨4, 2, 0, [5, 7], by decide⟩ : Bigint).value ∧
      ((⟨4, -1, 0, [2278962239], by decide⟩ : Bigint).value = 0 ∨
        (⟨4, -1, 0, [2278962239], by decide⟩ : Bigint).value.sign =
          (⟨4, -3, 1, [0, 2, 3], by decide⟩ : Bigint).value.sign) ∧
      (⟨4, -2, 0, [2980181389, 1840700269], by decide⟩ : Bigint).WellFormed ∧
      (⟨4, -1, 0, [2278962239], by decide⟩ : Bigint).WellFormed :=
  @divmodBigint_exact ⟨4, 0, 0, [], by decide⟩ ⟨4, 0, 0, [], by decide⟩ _ _ _ _ (by decide)
    (by decide) (by decide +kernel)

/-! ## The remainder alone -/

/-- The digits that the counters have lost make no difference for the remainder.  A single digit of
the divisor may not even reach the end of the dividend; the low digits are then kept as they are. -/
def RemainderKept (l r : Operand) : Prop :=
  UINT16_MAX + 1 < 1 + l.order - r.order ∧
    if r.digits.length = 1 ∧ l.exponent < r.exponent + 65536 then
      number (l.digits.take (r.exponent + 65536 - l.exponent)) < number r.digits ∧
        number r.digits ∣ number (l.digits.drop (r.exponent + 65536 - l.exponent)) ∧
        number r.digits ∣ number (l.digits.take (r.exponent + 65536 - l.exponent)) *
          (base ^ (l.exponent - r.exponent) - 1)
    else r.scaled l ∣ l.scaled r - l.scaled r / base ^ 65536

theorem low_digits_eq_emod_iff {x y p d q m e : ℤ} (hx : 0 ≤ x) (hxp : x < p) (hd : 0 < d)
    (hdp : d ≤ p) (h : x + p * y = q * (d * p) + m) (hm0 : 0 ≤ m) (hm : m < d * p) :
    m = (x + p * y) * e % d ↔ x < d ∧ d ∣ y ∧ d ∣ x * (e - 1) := by
  have hp : 0 < p := hd.trans_le hdp
  have hmod : (x + p * y) * e = x + (x * (e - 1) + p * e * y) := by ring
  refine ⟨fun heq => ?_, fun ⟨hlt, hdy, hde⟩ => ?_⟩
  · have hmd : m < d := heq ▸ Int.emod_lt_of_pos _ hd
    have ht : m = x + p * (y - q * d) := by linarith
    have hy : y = q * d := by
      rcases lt_trichotomy (y - q * d) 0 with h1 | h1 | h1
      · have := mul_le_mul_of_nonneg_left (show y - q * d ≤ -1 by omega) hp.le
        linarith
      · linarith
      · have := mul_le_mul_of_nonneg_left (show 1 ≤ y - q * d by omega) hp.le
        linarith
    have hmx : m = x := by rw [ht, hy, sub_self, mul_zero, add_zero]
    have hdy : d ∣ y := hy ▸ dvd_mul_left d q
    refine ⟨hmx ▸ hmd, hdy, ?_⟩
    have hdvd : d ∣ x * (e - 1) + p * e * y := by
      have h1 := Int.dvd_self_sub_of_emod_eq (heq.symm.trans hmx)
      rwa [hmod, add_sub_cancel_left] at h1
    exact (dvd_add_left (hdy.mul_left (p * e))).mp hdvd
  · obtain ⟨c, rfl⟩ := hdy
    have hdp' : 0 < d * p := mul_pos hd hp
    have ht : m = x + d * p * (c - q) := by linarith
    have hxdp : x < d * p := by
      have := mul_le_mul_of_nonneg_right (show 1 ≤ d by omega) hp.le
      linarith
    have hc : c - q = 0 := by
      rcases lt_trichotomy (c - q) 0 with h1 | h1 | h1
      · have := mul_le_mul_of_nonneg_left (show c - q ≤ -1 by omega) hdp'.le
        linarith
      · exact h1
      · have := mul_le_mul_of_nonneg_left (show 1 ≤ c - q by omega) hdp'.le
        linarith
    obtain ⟨f, hf⟩ := hde
    rw [ht, hc, mul_zero, add_zero, hmod, hf,
      show x + (d * f + p * e * (d * c)) = x + d * (f + p * e * c) by ring,
      Int.add_mul_emod_self_left, Int.emod_eq_of_lt hx hlt]

theorem scaled_of_length_one {l r : Operand} {d : UInt32} (hd : r.digits = [d])
    (hexp : r.exponent ≤ l.exponent) :
    r.scaled l = d.toNat ∧ l.scaled r = number l.digits * base ^ (l.exponent - r.exponent) := by
  constructor
  · rw [Operand.scaled, hd, number_cons, number_nil, min_eq_left hexp, Nat.sub_self, pow_zero]
    ring
  · rw [Operand.scaled, min_eq_right hexp]

theorem divui32Size_sub {l r : Operand} {n : ℕ} (h1 : r.digits.length = 1)
    (hn : n = 1 + l.order - r.order) (hbig : 65536 < n) (hle : n ≤ 131070)
    (hexp : l.exponent < r.exponent + 65536) (d : UInt32) :
    (divui32Size (uint16 (n : ℕ)) l.digits d).2 - (divui32Size (uint16 (n : ℕ)) l.digits d).1 =
        r.exponent + 65536 - l.exponent ∧
      (divui32Size (uint16 (n : ℕ)) l.digits d).1 -
        (divui32Size (uint16 (n : ℕ)) l.digits d).2 = 0 := by
  have hlo : l.order = l.exponent + l.digits.length := rfl
  have hro : r.order = r.exponent + r.digits.length := rfl
  have hcount : n = 1 + l.exponent + l.digits.length - (r.exponent + 1) := by
    rw [hn, hlo, hro, h1, Nat.add_assoc]
  have hsub : (n - 1) % 65536 = n - 1 - 65536 := by
    rw [Nat.mod_eq_sub_mod (by omega), Nat.mod_eq_of_lt (by omega)]
  have hmod : n % 65536 = n - 65536 := by
    rw [Nat.mod_eq_sub_mod (by omega), Nat.mod_eq_of_lt (by omega)]
  rw [divui32Size]
  split_ifs
  · rw [uint16_sub_one (by omega), hsub]
    dsimp only
    clear hn hlo hro hsub hmod
    omega
  · rw [uint16_natCast, hmod]
    dsimp only
    clear hn hlo hro hsub hmod
    omega

theorem divui32_remainder_ne {l : Operand} (hl : Leading l.digits) (hlne : l.digits ≠ [])
    {d : UInt32} (hd : 0 < d.toNat) (htop : ¬l.digits.getD (l.digits.length - 1) 0 < d) (k : ℕ) :
    number (divui32 0 l.digits d).2.2 ≠ number l.digits * base ^ k % d.toNat := by
  intro heq
  obtain ⟨-, hqlen, -, hvalue, -⟩ := divui32_number 0 hlne hd
  have hsize : divui32Size 0 l.digits d = (0, l.digits.length) := if_neg htop
  have hlead := divui32Size_le 0 d hl hlne
  rw [hsize] at hqlen hvalue hlead
  rw [List.length_eq_zero_iff.mp hqlen, number_nil, zero_mul, zero_add, Nat.zero_sub, pow_zero,
    one_mul] at hvalue
  have hmod := Int.emod_lt_of_pos (number l.digits * base ^ k)
    (show (0 : ℤ) < d.toNat by exact_mod_cast hd)
  rw [← heq, ← hvalue] at hmod
  have hpow : base * 1 ≤ base ^ l.digits.length := by
    rw [mul_one, ← pow_one base]
    exact pow_le_pow_right₀ (by rw [base_eq]; norm_num) (List.length_pos_iff.mpr hlne)
  have h2 := mul_le_mul_of_nonneg_left hpow (show (0 : ℤ) ≤ d.toNat by positivity)
  have h3 := mul_lt_mul_of_pos_left hmod base_pos
  linarith

theorem divui32_remainder_iff {ds : List UInt32} (hne : ds ≠ []) {d : UInt32} (hd : 0 < d.toNat)
    {divnrdigits j : ℕ} (hj : (divui32Size divnrdigits ds d).2 - (divui32Size divnrdigits ds d).1 = j)
    (hzero : (divui32Size divnrdigits ds d).1 - (divui32Size divnrdigits ds d).2 = 0)
    (hpos : 1 ≤ j) (hle : j ≤ ds.length) (k : ℕ) :
    number (divui32 divnrdigits ds d).2.2 = number ds * base ^ k % d.toNat ↔
      number (ds.take j) < d.toNat ∧ (d.toNat : ℤ) ∣ number (ds.drop j) ∧
        (d.toNat : ℤ) ∣ number (ds.take j) * (base ^ k - 1) := by
  obtain ⟨-, -, -, hvalue, hlt⟩ := divui32_number divnrdigits hne hd
  rw [hj, hzero, pow_zero, one_mul, ← number_take_add_drop j _ hle] at hvalue
  rw [hj] at hlt
  have hlow := number_lt (ds.take j)
  rw [List.length_take, min_eq_left hle] at hlow
  have hdj : (d.toNat : ℤ) ≤ base ^ j := by
    have hbase : base ^ 1 ≤ base ^ j := pow_le_pow_right₀ (by rw [base_eq]; norm_num) hpos
    have hd32 := toNat_add_one_le d
    rw [pow_one] at hbase
    linarith
  have hiff := low_digits_eq_emod_iff (e := base ^ k) (number_nonneg _) hlow
    (by exact_mod_cast hd) hdj hvalue (number_nonneg _) hlt
  rwa [number_take_add_drop j _ hle] at hiff

theorem runDigits_remainder_single {l r : Operand} (hl : Leading l.digits) (hlne : l.digits ≠ [])
    (hr : Leading r.digits) (h1 : r.digits.length = 1)
    (hexp : l.exponent < r.exponent + 65536) (hlen : l.digits.length ≤ INT16_MAX) {n : ℕ}
    (m : ℕ) (hn : n = 1 + l.order - r.order) (hbig : UINT16_MAX < n) (hle : n ≤ 2 * UINT16_MAX)
    (hfits : ¬QuotientFits l r) :
    number (runDigits (uint16 (n : ℕ)) m l r).2.2 = l.scaled r % r.scaled l ↔
      RemainderKept l r := by
  rw [INT16_MAX] at hlen
  rw [UINT16_MAX] at hbig hle
  have hcount : n = 1 + l.exponent + l.digits.length - (r.exponent + 1) := by
    rw [hn, Operand.order, Operand.order, h1, Nat.add_assoc]
  obtain ⟨d, hd⟩ := List.length_eq_one_iff.mp h1
  have hgetD : r.digits.getD 0 0 = d := by rw [hd]; rfl
  have hnum : number r.digits = d.toNat := by rw [hd, number_cons, number_nil]; ring
  have hdpos : 0 < d.toNat := by
    have := number_pos hr (List.ne_nil_of_length_pos (h1 ▸ Nat.one_pos))
    rw [hnum] at this
    exact_mod_cast this
  obtain ⟨hscaled, hscaled'⟩ := scaled_of_length_one hd
    (show r.exponent ≤ l.exponent by clear hn; omega)
  rw [RemainderKept, if_pos ⟨h1, hexp⟩, ← hn, hscaled, hscaled', hnum, runDigits, if_pos h1, hgetD]
  dsimp only
  by_cases hn1 : n = UINT16_MAX + 1
  · -- the counter is zero, and nothing is divided
    have htop : ¬l.digits.getD (l.digits.length - 1) 0 < d := fun hc =>
      hfits (.inr ⟨hn ▸ hn1, .inr (hgetD.symm ▸ hc)⟩)
    refine iff_of_false ?_ fun hc => hc.1.ne' hn1
    rw [hn1]
    exact divui32_remainder_ne hl hlne hdpos htop _
  · rw [UINT16_MAX] at hn1
    have hwrap : 65536 < n := by omega
    obtain ⟨hplaces, hzero⟩ := divui32Size_sub h1 hn hwrap hle hexp d
    rw [divui32_remainder_iff hlne hdpos hplaces hzero (by omega) (by clear hn; omega)]
    exact (and_iff_right hwrap).symm

theorem runDigits_remainder_iff {l r : Operand} (hl : Leading l.digits) (hlne : l.digits ≠ [])
    (hr : Leading r.digits) (hrne : r.digits ≠ []) (hge : r.order ≤ l.order)
    (hlen : l.digits.length ≤ INT16_MAX) {n m : ℕ} (hn : n = 1 + l.order - r.order)
    (hle : n ≤ 2 * UINT16_MAX) (hm : m + min l.exponent r.exponent = r.order) :
    number (runDigits (uint16 (n : ℕ)) m l r).2.2 = l.scaled r % r.scaled l ↔
      QuotientFits l r ∨ RemainderKept l r := by
  by_cases hfits : QuotientFits l r
  · exact iff_of_true (runDigits_exact hlne hr hrne hge hn hm hfits).2 (.inl hfits)
  rw [or_iff_right hfits]
  have hbig : UINT16_MAX < n := by
    by_contra hc
    exact hfits (.inl (hn ▸ not_lt.mp hc))
  by_cases hend : r.digits.length = 1 ∧ l.exponent < r.exponent + 65536
  · exact runDigits_remainder_single hl hlne hr hend.1 hend.2 hlen m hn hbig hle hfits
  · have hrest : RemainderKept l r ↔ UINT16_MAX + 1 < n ∧
        r.scaled l ∣ l.scaled r - l.scaled r / base ^ 65536 := by
      rw [RemainderKept, if_neg hend, ← hn]
    have hwrap : UINT16_MAX + 1 < n := by
      refine lt_of_le_of_ne hbig fun hn1 => hfits (.inr ⟨hn ▸ hn1.symm, .inl fun h1 => ?_⟩)
      have hcount : n = 1 + l.exponent + l.digits.length - (r.exponent + 1) := by
        rw [hn, Operand.order, Operand.order, h1, Nat.add_assoc]
      have hlpos := List.length_pos_iff.mpr hlne
      rw [UINT16_MAX] at hn1
      exact hend ⟨h1, by clear hn hm hle hbig; omega⟩
    rw [hrest, and_iff_right hwrap, runDigits_wrapped hlne hr hrne hn hm hwrap hle fun h1 =>
      not_lt.mp fun hc => hend ⟨h1, hc⟩, eq_comm, Int.emod_eq_emod_iff_emod_sub_eq_zero,
      Int.dvd_iff_emod_eq_zero]

theorem modBigint_spec {result lbig rbig rem : Bigint} (hl : lbig.WellFormed)
    (hr : rbig.WellFormed) (h : modBigint result lbig rbig = .ok (some rem)) :
    rem.WellFormed ∧ (rem.value = lbig.value.tmod rbig.value ↔
      QuotientFits lbig.operand rbig.operand ∨ RemainderKept lbig.operand rbig.operand) := by
  obtain ⟨-, htmod⟩ := tdiv_tmod_value lbig rbig
  obtain ⟨out, h, hout⟩ := map_eq_ok h
  have h0 : rbig.nrdigits ≠ 0 := fun h0 => by
    rw [divmodBigint] at h
    dsimp only at h
    rw [if_pos h0] at h
    cases h
  by_cases hlt : lbig.nrdigits + lbig.exponent < rbig.nrdigits + rbig.exponent
  · rw [divmodBigint] at h
    dsimp only at h
    rw [if_neg h0, if_pos hlt] at h
    obtain ⟨-, rem', hrem, hwf, hvalue⟩ := divisorisbiggerBiginthelper_spec hl h
    rw [hrem] at hout
    cases hout
    have hmag := magnitude_lt_of_size_lt hl hr h0 hlt
    have hpos : 0 ≤ lbig.magnitude := mul_nonneg (number_nonneg _) (base_pow_pos _).le
    refine ⟨hwf, iff_of_true ?_ (.inl (.inl ?_))⟩
    · rw [hvalue, htmod, Int.emod_eq_of_lt hpos hmag, value_eq]
      split_ifs <;> ring
    · rw [hl.operand_order_eq, hr.operand_order_eq, UINT16_MAX]
      omega
  · have hd : Dividable lbig rbig := ⟨hl, hr, h0, not_lt.mp hlt⟩
    obtain ⟨n, hn⟩ : ∃ n, n = 1 + lbig.operand.order - rbig.operand.order := ⟨_, rfl⟩
    obtain ⟨e, he⟩ : ∃ e, e = uint16 (min rbig.operand.exponent lbig.operand.exponent : ℕ) :=
      ⟨_, rfl⟩
    obtain ⟨m, hm⟩ : ∃ m, m = rbig.operand.order - e := ⟨_, rfl⟩
    obtain ⟨div, mod, hdiv, hmod, hrun⟩ := hd.divmodBigint_run h hn he hm
    obtain ⟨hmle, mod', rfl, hmexp⟩ := prepare_some hmod
    obtain ⟨hmin, hmo, hele⟩ := hd.modexpo_eq he hm hmle
    have hiff := runDigits_remainder_iff hl.operand_leading hd.dividend_ne_nil hr.operand_leading
      hd.divisor_ne_nil hd.order_le hl.operand_length_le hn (hn ▸ hd.divnrdigits_le) hmo
    obtain ⟨hmsize, hmlen, hmlead⟩ := runDigits_mod (n := uint16 (n : ℕ)) hd.dividend_ne_nil
      hr.operand_leading hd.divisor_ne_nil hd.order_le (uint16_le _) hmo
    rw [uint16_of_le (hmle.trans (by norm_num))] at hrun
    set run := runDigits (uint16 (n : ℕ)) m lbig.operand rbig.operand with hdef
    rw [hrun] at hout
    simp only [Option.map_some, Option.some.injEq] at hout
    subst hout
    rw [hmsize]
    have hremainder := store_represents lbig.isnegative (hmexp.trans_le hele)
      (hmlen.trans (max_le hmle hl.operand_length_le)) hmlead
    refine ⟨hremainder.1, ?_⟩
    rw [← hiff, hremainder.2, htmod, (magnitude_div_mod lbig rbig).2, hmexp, hmin,
      mul_right_inj' (by split_ifs <;> norm_num), mul_left_inj' (base_pow_pos _).ne']

/-- **The remainder alone**: it is right if the number of digits of the quotient fits into the
counters of type `uint16_t`, which no size of a quotient limits here; otherwise only if the lost
digits make no difference. -/
theorem modBigint_exact_iff {result lbig rbig rem : Bigint} (hl : lbig.WellFormed)
    (hr : rbig.WellFormed) (h : modBigint result lbig rbig = .ok (some rem)) :
    rem.value = lbig.value - rbig.value * lbig.value.tdiv rbig.value ↔
      QuotientFits lbig.operand rbig.operand ∨ RemainderKept lbig.operand rbig.operand := by
  rw [← Int.tmod_def]
  exact (modBigint_spec hl hr h).2

/-- `7 * base ^ 2` modulo `-3 * base`. -/
theorem modBigint_exact_small :
    (⟨4, 1, 1, [1], by decide⟩ : Bigint).value =
        (⟨4, 1, 2, [7], by decide⟩ : Bigint).value -
          (⟨4, -2, 0, [0, 3], by decide⟩ : Bigint).value *
            (⟨4, 1, 2, [7], by decide⟩ : Bigint).value.tdiv
              (⟨4, -2, 0, [0, 3], by decide⟩ : Bigint).value ↔
      QuotientFits (⟨4, 1, 2, [7], by decide⟩ : Bigint).operand
          (⟨4, -2, 0, [0, 3], by decide⟩ : Bigint).operand ∨
        RemainderKept (⟨4, 1, 2, [7], by decide⟩ : Bigint).operand
          (⟨4, -2, 0, [0, 3], by decide⟩ : Bigint).operand :=
  @modBigint_exact_iff ⟨4, 0, 0, [], by decide⟩ _ _ _ (by decide) (by decide)
    (by decide +kernel)

/-- `3 * base ^ 65535` modulo `2` is returned as `3`: the quotient has 65536 digits. -/
theorem modBigint_not_exact :
    ¬∀ result lbig rbig rem : Bigint, lbig.WellFormed → rbig.WellFormed →
      modBigint result lbig rbig = .ok (some rem) →
        rem.value = lbig.value - rbig.value * lbig.value.tdiv rbig.value := by
  intro hall
  have hl : (⟨4, 1, 65535, [3], by decide⟩ : Bigint).WellFormed := by decide
  have hr : (⟨4, 1, 0, [2], by decide⟩ : Bigint).WellFormed := by decide
  have hok : modBigint ⟨4, 0, 0, [], by decide⟩ ⟨4, 1, 65535, [3], by decide⟩
      ⟨4, 1, 0, [2], by decide⟩ = .ok (some ⟨4, 1, 0, [3], by decide⟩) := by decide +kernel
  have hvalue := hall _ _ _ _ hl hr hok
  rw [← Int.tmod_def] at hvalue
  rcases (modBigint_spec hl hr hok).2.mp hvalue with hfits | hkept
  · revert hfits
    decide +kernel
  · exact absurd hkept.1 (by decide +kernel)

end Bigint
end CKern
