import CKern.Library.Cyclic
import CKern.Library.LongDivision
import CKern.Math.Float.Decimal.AddSub

/-!
# `math/float/decimal.c`: one digit of a quotient

As in `bigint.c` the two leading digits of the remainder are kept in `dividend`, and the others in
an array that is read as a ring; but the base is not a power of two.

* `div3by2digitsDecimalhelper`: three digits divided by two, bit by bit.
* `submulDecimalhelper`: the multiple of the divisor is subtracted, with loops of their own for the
  digits `1` and `DIGITSBASE - 1`, and the digit is corrected if it was one too large.
* `divStep`, `divFirst`: the digit that one turn of the loop computes, and the first digit.
* `divStep_spec`: every digit is the right one.

The double words stay below `2 ^ 64`, except where a negative remainder waits for the correction.
-/

namespace CKern
namespace Decimal

open Positional Cyclic LongDivision

/-- `struct decimal_divstate_t`, without the fields that do not change. -/
structure DivState where
  dividend : ℕ
  nextdigit : ℕ
  loffset : ℕ
  ldigits : List ℕ
  deriving Repr

/-! ## `div3by2digits_decimalhelper` -/

/-- One bit of the quotient: `(quot, dividend, nextdigit)`. -/
def div3by2Bit (divisor : ℕ) (s : ℕ × ℕ × ℕ) : ℕ × ℕ × ℕ :=
  let quot := 2 * s.1
  let dividend := 2 * s.2.1 + if 2 ^ 31 ≤ s.2.2 then 1 else 0
  let nextdigit := 2 * s.2.2 % 2 ^ 32
  if divisor ≤ dividend then (quot + 1, dividend - divisor, nextdigit)
  else (quot, dividend, nextdigit)

/-- `div3by2digits_decimalhelper`: the three digits are multiplied by four, and then 30 bits of the
quotient are left. -/
def div3by2digitsDecimalhelper (divisor : ℕ) (state : DivState) : DivState :=
  let carry := state.dividend / 2 ^ 32
  let dividend := state.dividend % 2 ^ 32 * (4 * DIGITSBASE) + 4 * state.nextdigit
  let nextdigit := dividend % 2 ^ 32
  let dividend := carry * (4 * DIGITSBASE) + dividend / 2 ^ 32
  let s := (div3by2Bit divisor)^[30] (0, dividend, nextdigit)
  { state with dividend := s.2.1, nextdigit := s.1 }

/-- The invariant of the bit loop after `i` bits: `v` is the three digit number at the start. -/
structure BitInv (d v : ℕ) (i : ℕ) (s : ℕ × ℕ × ℕ) : Prop where
  lt : s.2.1 < d
  word : s.2.2 < 2 ^ 32
  value : s.2.1 * 2 ^ 32 + s.2.2 + s.1 * d * 2 ^ 32 = 2 ^ i * v
  shifted : 2 ^ (i + 2) ∣ s.2.2

theorem div3by2Bit_inv {d v i : ℕ} {s : ℕ × ℕ × ℕ} (hi : i < 30) (h : BitInv d v i s) :
    BitInv d v (i + 1) (div3by2Bit d s) := by
  obtain ⟨q, a, n⟩ := s
  obtain ⟨hlt, hword, hv, hdvd⟩ := h
  dsimp only at hlt hword hv hdvd
  have hpow : 2 ^ (i + 1) * v = 2 * (2 ^ i * v) := by ring
  -- the bit that moves from `nextdigit` to `dividend`
  obtain ⟨b, hb⟩ : ∃ b, b = if 2 ^ 31 ≤ n then 1 else 0 := ⟨_, rfl⟩
  have hnext : 2 * n % 2 ^ 32 + b * 2 ^ 32 = 2 * n := by
    rw [hb]
    split_ifs <;> omega
  have hble : b ≤ 1 := by
    rw [hb]
    split_ifs <;> omega
  have hdvd' : 2 ^ (i + 1 + 2) ∣ 2 * n % 2 ^ 32 := by
    have h1 : 2 ^ (i + 1 + 2) ∣ 2 * n := by
      rw [show i + 1 + 2 = i + 2 + 1 by ring, pow_succ']
      exact Nat.mul_dvd_mul_left 2 hdvd
    have h2 : 2 ^ (i + 1 + 2) ∣ b * 2 ^ 32 := (pow_dvd_pow 2 (by omega)).mul_left b
    rw [← hnext] at h1
    exact (Nat.dvd_add_left h2).mp h1
  have hmod := Nat.mod_lt (2 * n) (show 0 < 2 ^ 32 by norm_num)
  have h2q : 2 * q * d = 2 * (q * d) := by ring
  have h2q1 : (2 * q + 1) * d = 2 * (q * d) + d := by ring
  unfold div3by2Bit
  dsimp only
  rw [← hb]
  generalize 2 * n % 2 ^ 32 = n' at *
  generalize 2 ^ i * v = v' at *
  generalize q * d = m at *
  by_cases hc : d ≤ 2 * a + b
  · rw [if_pos hc]
    refine ⟨?_, hmod, ?_, hdvd'⟩
    · change 2 * a + b - d < d
      omega
    · change (2 * a + b - d) * 2 ^ 32 + n' + (2 * q + 1) * d * 2 ^ 32 = _
      have hsub : 2 * a + b - d + d = 2 * a + b := Nat.sub_add_cancel hc
      rw [h2q1, hpow]
      linarith
  · rw [if_neg hc]
    refine ⟨not_le.mp hc, hmod, ?_, hdvd'⟩
    change (2 * a + b) * 2 ^ 32 + n' + 2 * q * d * 2 ^ 32 = _
    rw [h2q, hpow]
    linarith

theorem div3by2digitsDecimalhelper_eq (divisor : ℕ) (state : DivState) :
    div3by2digitsDecimalhelper divisor state =
      { state with
        dividend := (div3by2digitsDecimalhelper divisor state).dividend
        nextdigit := (div3by2digitsDecimalhelper divisor state).nextdigit } := by
  rw [div3by2digitsDecimalhelper]

/-- **Three digits by two**: quotient and remainder. -/
theorem div3by2digitsDecimalhelper_spec {divisor : ℕ} {s : DivState} (h : s.dividend < divisor)
    (hn : s.nextdigit < DIGITSBASE) :
    (div3by2digitsDecimalhelper divisor s).dividend < divisor ∧
      s.dividend * DIGITSBASE + s.nextdigit =
        (div3by2digitsDecimalhelper divisor s).nextdigit * divisor +
          (div3by2digitsDecimalhelper divisor s).dividend := by
  have hbase : 4 * DIGITSBASE = 4000000000 := rfl
  rw [div3by2digitsDecimalhelper, hbase]
  dsimp only
  obtain ⟨low, hlow⟩ : ∃ low, low = s.dividend % 2 ^ 32 * 4000000000 + 4 * s.nextdigit :=
    ⟨_, rfl⟩
  rw [← hlow]
  have hstart : BitInv divisor (4 * (s.dividend * DIGITSBASE + s.nextdigit)) 0
      (0, s.dividend / 2 ^ 32 * 4000000000 + low / 2 ^ 32, low % 2 ^ 32) := by
    have hpos : 0 < 2 ^ 32 := by norm_num
    refine ⟨?_, Nat.mod_lt low hpos, ?_, ?_⟩
    · change s.dividend / 2 ^ 32 * 4000000000 + low / 2 ^ 32 < divisor
      omega
    · change (s.dividend / 2 ^ 32 * 4000000000 + low / 2 ^ 32) * 2 ^ 32 + low % 2 ^ 32 +
        0 * divisor * 2 ^ 32 = 2 ^ 0 * (4 * (s.dividend * 1000000000 + s.nextdigit))
      omega
    · change 2 ^ 2 ∣ low % 2 ^ 32
      omega
  have hinv : ∀ i ≤ 30, BitInv divisor (4 * (s.dividend * DIGITSBASE + s.nextdigit)) i
      ((div3by2Bit divisor)^[i]
        (0, s.dividend / 2 ^ 32 * 4000000000 + low / 2 ^ 32, low % 2 ^ 32)) := by
    intro i
    induction i with
    | zero => exact fun _ => hstart
    | succ i ih =>
      intro hi
      rw [Function.iterate_succ_apply']
      exact div3by2Bit_inv (by omega) (ih (by omega))
  have h30 := hinv 30 le_rfl
  generalize (div3by2Bit divisor)^[30] (0, s.dividend / 2 ^ 32 * 4000000000 + low / 2 ^ 32,
    low % 2 ^ 32) = s' at h30 ⊢
  obtain ⟨hlt, hword, hv, hdvd⟩ := h30
  have hzero : s'.2.2 = 0 := Nat.eq_zero_of_dvd_of_lt hdvd hword
  refine ⟨hlt, ?_⟩
  rw [hzero] at hv
  linarith

/-! ## The digits of `submul_decimalhelper` -/

/-- `nextdigit == DIGITSBASE-1`: the multiple is subtracted as `ldigits + rdigits - DIGITSBASE *
rdigits`.  The state is the signed carry and the last digit of the divisor. -/
def submaxDigit (c : ℤ × ℕ) (d : ℕ × ℕ) : ℕ × (ℤ × ℕ) :=
  let diff : ℤ := d.1 + d.2 - c.2 + c.1
  if diff < 0 then ((diff + DIGITSBASE).toNat, (-1, d.2))
  else if DIGITSBASE ≤ diff then ((diff - DIGITSBASE).toNat, (1, d.2))
  else (diff.toNat, (0, d.2))

/-- The other digits: a multiple is subtracted. -/
def submulDigit (nextdigit carry : ℕ) (d : ℕ × ℕ) : ℕ × ℕ :=
  let multdigit := d.2 * nextdigit + carry
  let diff : ℤ := d.1 - (multdigit % DIGITSBASE : ℕ)
  if diff < 0 then ((diff + DIGITSBASE).toNat, multdigit / DIGITSBASE + 1)
  else (diff.toNat, multdigit / DIGITSBASE)

theorem submulDigit_value (nextdigit carry : ℕ) (d : ℕ × ℕ) :
    ((submulDigit nextdigit carry d).1 : ℤ) + base * -((submulDigit nextdigit carry d).2 : ℤ) =
      (d.1 + -(nextdigit : ℤ) * d.2) + -(carry : ℤ) := by
  have hdiv := Nat.mod_add_div (d.2 * nextdigit + carry) DIGITSBASE
  have hmod := Nat.mod_lt (d.2 * nextdigit + carry) (show 0 < DIGITSBASE by norm_num)
  have hprod : (nextdigit : ℤ) * d.2 = ((d.2 * nextdigit : ℕ) : ℤ) := by
    push_cast
    ring
  rw [submulDigit, base_eq, neg_mul, hprod]
  generalize d.2 * nextdigit = m at *
  simp only [DIGITSBASE] at *
  split_ifs <;> dsimp only <;> omega

theorem submulDigit_lt (nextdigit carry : ℕ) (d : ℕ × ℕ) (h : d.1 < DIGITSBASE) :
    (submulDigit nextdigit carry d).1 < DIGITSBASE := by
  have hmod := Nat.mod_lt (d.2 * nextdigit + carry) (show 0 < DIGITSBASE by norm_num)
  unfold submulDigit
  dsimp only
  split_ifs <;> dsimp only <;> omega

/-- The carry is a sign, and it is not positive if there is no last digit to pay for it. -/
def MaxCarry (c : ℤ × ℕ) : Prop := -1 ≤ c.1 ∧ c.1 ≤ 1 ∧ c.2 < DIGITSBASE ∧ (c.2 = 0 → c.1 ≤ 0)

theorem submaxDigit_spec {c : ℤ × ℕ} {d : ℕ × ℕ} (hc : MaxCarry c)
    (h : d.1 < DIGITSBASE ∧ d.2 < DIGITSBASE) :
    (submaxDigit c d).1 < DIGITSBASE ∧ MaxCarry (submaxDigit c d).2 ∧
      ((submaxDigit c d).1 : ℤ) + base * ((submaxDigit c d).2.1 - (submaxDigit c d).2.2) =
        (d.1 + -(DIGITSBASE - 1 : ℤ) * d.2) + (c.1 - c.2) := by
  obtain ⟨h1, h2, h3, h4⟩ := hc
  have hbase : ((DIGITSBASE : ℕ) : ℤ) = 1000000000 := rfl
  rw [submaxDigit, base_eq, hbase]
  split_ifs with hneg hge
  · refine ⟨?_, ⟨?_, ?_, h.2, ?_⟩, ?_⟩ <;> dsimp only <;> omega
  · refine ⟨?_, ⟨?_, ?_, h.2, ?_⟩, ?_⟩ <;> dsimp only <;> omega
  · refine ⟨?_, ⟨?_, ?_, h.2, ?_⟩, ?_⟩ <;> dsimp only <;> omega

/-! ## `submul_decimalhelper` -/

/-- `(uint32_t) z` -/
def uint32 (z : ℤ) : ℕ := (z % 2 ^ 32).toNat

/-- `(uint64_t) z` -/
def uint64 (z : ℤ) : ℕ := (z % 2 ^ 64).toNat

/-- The two leading digits of an array. -/
def leadingDigits (digits : List ℕ) : ℕ :=
  digits.getD (digits.length - 1) 0 * DIGITSBASE + digits.getD (digits.length - 2) 0

namespace DivState

/-- The digits of the ring, the least significant one first: the digit that is read next is the
last one. -/
def window (state : DivState) : List ℕ := state.ldigits.rotate state.loffset

/-- The index where the loops of `submul_decimalhelper` start. -/
def firstIndex (state : DivState) (rsize : ℕ) : ℕ :=
  if state.loffset + 2 < rsize then state.loffset + 2 + state.ldigits.length - rsize
  else state.loffset + 2 - rsize

/-- The loops of `submul_decimalhelper`: they end at `loffset`, after `rsize - 2` digits. -/
def pass {κ : Type} (step : κ → ℕ × ℕ → ℕ × κ) (c : κ) (rdigits : List ℕ) (state : DivState) :
    DivState × κ :=
  let p := ringPass 0 step state.ldigits (state.firstIndex rdigits.length) c
    (rdigits.take (rdigits.length - 2))
  ({ state with ldigits := p.1 }, p.2)

/-- The end of `submul_decimalhelper`: the carry is subtracted, or the digit is corrected. -/
def correct (rdigits : List ℕ) (carry : ℕ) (state : DivState) : DivState :=
  if carry ≤ state.dividend then { state with dividend := state.dividend - carry }
  else
    let dividend := uint64 (state.dividend - carry)
    let p := { state with nextdigit := state.nextdigit - 1 }.pass addDigit false rdigits
    { p.1 with dividend := uint64 (uint64 (dividend + leadingDigits rdigits) + p.2.toNat) }

end DivState

/-- `submul_decimalhelper`. -/
def submulDecimalhelper (rdigits : List ℕ) (state : DivState) : DivState :=
  if 2 < rdigits.length then
    if state.nextdigit = 1 then
      let p := state.pass subDigit false rdigits
      p.1.correct rdigits p.2.toNat
    else if state.nextdigit = DIGITSBASE - 1 then
      let p := state.pass submaxDigit (0, 0) rdigits
      p.1.correct rdigits (uint32 (p.2.2 - p.2.1))
    else
      let p := state.pass (submulDigit state.nextdigit) 0 rdigits
      p.1.correct rdigits p.2
  else state

namespace DivState

/-- The digits of the divisor below its two leading ones fit into the ring. -/
structure Fits (state : DivState) (rdigits : List ℕ) : Prop where
  two_le : 2 ≤ rdigits.length
  le_length : rdigits.length ≤ state.ldigits.length
  loffset_pos : 1 ≤ state.loffset
  loffset_le : state.loffset ≤ state.ldigits.length
  ring : Digits state.ldigits
  divisor : Digits rdigits

theorem Fits.with {state : DivState} {rdigits : List ℕ} (h : state.Fits rdigits)
    (dividend nextdigit : ℕ) :
    ({ state with dividend := dividend, nextdigit := nextdigit } : DivState).Fits rdigits :=
  ⟨h.two_le, h.le_length, h.loffset_pos, h.loffset_le, h.ring, h.divisor⟩

/-- The place of the last digit of the remainder. -/
def place (state : DivState) (rdigits : List ℕ) : ℕ := state.ldigits.length - (rdigits.length - 2)

/-- The digits of the ring that belong to the remainder. -/
def top (state : DivState) (rdigits : List ℕ) : List ℕ := state.window.drop (state.place rdigits)

/-- The digits of the ring that were not read yet, and the zeros behind them. -/
def low (state : DivState) (rdigits : List ℕ) : List ℕ := state.window.take (state.place rdigits)

variable {state : DivState} {rdigits : List ℕ}

theorem length_window (state : DivState) : state.window.length = state.ldigits.length :=
  List.length_rotate _ _

theorem Fits.window (h : state.Fits rdigits) : Digits state.window :=
  fun d hd => h.ring d (List.mem_rotate.mp hd)

theorem Fits.place_add (h : state.Fits rdigits) :
    state.place rdigits + (rdigits.length - 2) = state.ldigits.length := by
  have := h.le_length
  rw [place]
  omega

theorem Fits.length_low (h : state.Fits rdigits) :
    (state.low rdigits).length = state.place rdigits := by
  have := h.place_add
  rw [low, List.length_take, length_window]
  omega

theorem Fits.length_top (h : state.Fits rdigits) :
    (state.top rdigits).length = rdigits.length - 2 := by
  have := h.place_add
  rw [top, List.length_drop, length_window]
  omega

theorem Fits.number_top_lt (h : state.Fits rdigits) :
    number (state.top rdigits) < base ^ (rdigits.length - 2) := by
  rw [← h.length_top]
  exact number_lt (h.window.drop _)

theorem Fits.number_window (h : state.Fits rdigits) :
    number state.window = number (state.low rdigits) +
      base ^ state.place rdigits * number (state.top rdigits) := by
  have := h.place_add
  exact (number_take_add_drop (by rw [length_window]; omega)).symm

/-- **A loop of `submul_decimalhelper`** whose steps add the multiple `m` of the divisor's digits. -/
theorem pass_spec {κ : Type} (step : κ → ℕ × ℕ → ℕ × κ) (c : κ) {v : κ → ℤ} {m : ℤ}
    {I : κ → Prop} (h : state.Fits rdigits) (hc : I c)
    (hstep : ∀ c d, I c → d.1 < DIGITSBASE ∧ d.2 < DIGITSBASE →
      (step c d).1 < DIGITSBASE ∧ I (step c d).2 ∧
        ((step c d).1 : ℤ) + base * v (step c d).2 = (d.1 + m * d.2) + v c) :
    (state.pass step c rdigits).1.Fits rdigits ∧
      (state.pass step c rdigits).1.ldigits.length = state.ldigits.length ∧
      (state.pass step c rdigits).1.low rdigits = state.low rdigits ∧
      I (state.pass step c rdigits).2 ∧
      number ((state.pass step c rdigits).1.top rdigits) +
          base ^ (rdigits.length - 2) * v (state.pass step c rdigits).2 =
        number (state.top rdigits) + m * number (rdigits.take (rdigits.length - 2)) + v c := by
  have h2 := h.two_le
  have hle := h.le_length
  have hplace := h.place_add
  have htop := h.length_top
  have hys : (rdigits.take (rdigits.length - 2)).length = rdigits.length - 2 := by
    rw [List.length_take]
    omega
  have hdrop : state.ldigits.length - (rdigits.take (rdigits.length - 2)).length =
      state.place rdigits := by rw [hys, place]
  obtain ⟨hw, hcarry⟩ := ringPass_last 0 step c h.loffset_pos h.loffset_le
    (show (rdigits.take (rdigits.length - 2)).length ≤ state.ldigits.length by omega)
    (show state.firstIndex rdigits.length = _ by rw [firstIndex, hys]; split_ifs <;> omega)
  rw [hdrop] at hw hcarry
  have hlen : (state.pass step c rdigits).1.ldigits.length = state.ldigits.length :=
    ringPass_length _ _ _ _ _ _
  have hzip := digits_zip (h.window.drop (state.place rdigits)) (h.divisor.take (rdigits.length - 2))
  have hdigits : Digits (chain step c ((state.top rdigits).zip
      (rdigits.take (rdigits.length - 2)))).1 :=
    chain_forall_of_carry step (fun c d hc hd => (hstep c d hc hd).2.1)
      (fun c d hc hd => (hstep c d hc hd).1) hc hzip
  have hlow := h.length_low
  have hwindow : (state.pass step c rdigits).1.window = state.low rdigits ++
      (chain step c ((state.top rdigits).zip (rdigits.take (rdigits.length - 2)))).1 := hw
  have hplace' : (state.pass step c rdigits).1.place rdigits = state.place rdigits := by
    rw [place, hlen, place]
  have htop' : (state.pass step c rdigits).1.top rdigits =
      (chain step c ((state.top rdigits).zip (rdigits.take (rdigits.length - 2)))).1 := by
    rw [top, hplace', hwindow, List.drop_append_of_le_length hlow.ge, ← hlow, List.drop_length,
      List.nil_append]
  have heval := chain_eval_of_forall step (b := base) (g := fun d : ℕ => (d : ℤ))
    (f := fun d => (d.1 : ℤ) + m * d.2) (v := v) (fun c d hc hd => (hstep c d hc hd).2.1)
    (fun c d hc hd => (hstep c d hc hd).2.2) hc hzip
  rw [List.length_zip] at heval
  change eval base _ _ + base ^ min (state.top rdigits).length _ * _ =
    eval base _ ((state.top rdigits).zip _) + _ at heval
  rw [number_zip (s := m) (fun d => rfl) (by rw [htop, hys]), htop, hys, min_self,
    List.take_of_length_le htop.le] at heval
  refine ⟨⟨h2, hlen.symm ▸ hle, h.loffset_pos, hlen.symm ▸ h.loffset_le, fun d hd => ?_,
    h.divisor⟩, hlen, ?_, ?_, ?_⟩
  · have hmem : d ∈ (state.pass step c rdigits).1.window := List.mem_rotate.mpr hd
    rw [hwindow, List.mem_append] at hmem
    rcases hmem with hmem | hmem
    · exact h.window.take _ d hmem
    · exact hdigits d hmem
  · rw [low, hplace', hwindow, List.take_append_of_le_length hlow.ge, ← hlow, List.take_length]
  · change I (ringPass 0 step state.ldigits _ c _).2
    rw [hcarry]
    exact chain_carry_of_forall step (fun c d hc hd => (hstep c d hc hd).2.1) hc hzip
  · rw [htop']
    change _ + _ * v (ringPass 0 step state.ldigits _ c _).2 = _
    rw [hcarry]
    exact heval

end DivState

/-! ## The next digit is right -/

theorem Digits.getD_lt {ds : List ℕ} (h : Digits ds) (i : ℕ) : ds.getD i 0 < DIGITSBASE := by
  by_cases hi : i < ds.length
  · rw [List.getD_eq_getElem _ _ hi]
    exact h _ (List.getElem_mem hi)
  · rw [List.getD_eq_default _ _ (not_lt.mp hi)]
    norm_num

theorem leadingDigits_lt {ds : List ℕ} (h : Digits ds) :
    leadingDigits ds < DIGITSBASE * DIGITSBASE := by
  have h1 := h.getD_lt (ds.length - 1)
  have h2 := h.getD_lt (ds.length - 2)
  rw [leadingDigits]
  simp only [DIGITSBASE] at *
  omega

theorem number_eq_leadingDigits {ds : List ℕ} (h : 2 ≤ ds.length) :
    number ds = number (ds.take (ds.length - 2)) + base ^ (ds.length - 2) * leadingDigits ds := by
  have h1 := number_take_succ (show ds.length - 2 < ds.length by omega)
  have h2 := number_take_succ (show ds.length - 2 + 1 < ds.length by omega)
  rw [show ds.length - 2 + 1 + 1 = ds.length by omega, List.take_length, h1,
    show ds.length - 2 + 1 = ds.length - 1 by omega] at h2
  rw [h2, leadingDigits, show ds.length - 1 = ds.length - 2 + 1 by omega, pow_succ,
    ← cast_DIGITSBASE]
  push_cast
  ring

theorem base_le_leadingDigits {ds : List ℕ} (h : Leading ds) (hne : ds ≠ []) :
    DIGITSBASE ≤ leadingDigits ds := by
  have hlen := List.length_pos_iff.mpr hne
  have hlast : ds.getD (ds.length - 1) 0 ≠ 0 := by
    rw [List.getD_eq_getElem _ _ (by omega), ← List.getLast_eq_getElem hne]
    intro h0
    exact h (by rw [List.getLast?_eq_some_getLast hne, h0])
  rw [leadingDigits]
  exact (Nat.le_mul_of_pos_left _ (Nat.pos_of_ne_zero hlast)).trans (Nat.le_add_right _ _)

/-- The digits of the remainder, with the two that are kept in `dividend`. -/
def DivState.remainder (state : DivState) (rdigits : List ℕ) : ℤ :=
  number (state.top rdigits) + base ^ (rdigits.length - 2) * state.dividend

theorem DivState.low_with (state : DivState) (rdigits : List ℕ) (dividend nextdigit : ℕ) :
    ({ state with dividend := dividend, nextdigit := nextdigit } : DivState).low rdigits =
      state.low rdigits := rfl

theorem DivState.top_with (state : DivState) (rdigits : List ℕ) (dividend nextdigit : ℕ) :
    ({ state with dividend := dividend, nextdigit := nextdigit } : DivState).top rdigits =
      state.top rdigits := rfl

theorem DivState.remainder_with (state : DivState) (rdigits : List ℕ) (dividend nextdigit : ℕ) :
    ({ state with dividend := dividend, nextdigit := nextdigit } : DivState).remainder rdigits =
      number (state.top rdigits) + base ^ (rdigits.length - 2) * dividend := rfl

/-- What one turn of the loop does to the number `x`, whose last digit has the place of the last
digit of the remainder: it is divided, and the remainder that is left is smaller than the divisor. -/
structure DigitStep (rdigits : List ℕ) (state : DivState) (x : ℤ) (next : DivState) : Prop where
  fits : next.Fits rdigits
  length_eq : next.ldigits.length = state.ldigits.length
  low_eq : next.low rdigits = state.low rdigits
  digit_lt : next.nextdigit < DIGITSBASE
  value : x = next.nextdigit * number rdigits + next.remainder rdigits
  lt : next.remainder rdigits < number rdigits

theorem corrected_dividend {x d c : ℤ} (h0 : 0 ≤ x + d + c) (hlt : x + d + c < 2 ^ 64) :
    (uint64 (uint64 (uint64 x + d) + c) : ℤ) = x + d + c := by
  simp only [uint64]
  omega

theorem DivState.correct_step {rdigits : List ℕ} {carry : ℕ} {state : DivState} {z : ℤ}
    (hfits : state.Fits rdigits) (hnext : 1 ≤ state.nextdigit)
    (hdigit : state.nextdigit < DIGITSBASE)
    (hz : z = number (state.top rdigits) +
      base ^ (rdigits.length - 2) * ((state.dividend : ℤ) - carry))
    (hge : -number rdigits ≤ z) (hlt : z < number rdigits) :
    DigitStep rdigits state (state.nextdigit * number rdigits + z)
      (state.correct rdigits carry) := by
  have hbase := base_pow_pos (rdigits.length - 2)
  rw [correct]
  split_ifs with hc
  · have hsub : ((state.dividend - carry : ℕ) : ℤ) = (state.dividend : ℤ) - carry :=
      Nat.cast_sub hc
    have hrem : ({ state with dividend := state.dividend - carry } : DivState).remainder rdigits =
        z := by rw [remainder_with, hsub, hz]
    exact ⟨hfits.with _ _, rfl, rfl, hdigit, by rw [hrem], by rwa [hrem]⟩
  · obtain ⟨hpf, hplen, hplow, -, hadd⟩ := pass_spec addDigit false
      (v := fun c => (c.toNat : ℤ)) (m := 1) (I := fun _ => True)
      (hfits.with state.dividend (state.nextdigit - 1)) trivial
      (fun c d _ h => ⟨addDigit_lt c d h, trivial, by rw [addDigit_value]; ring⟩)
    have htop := hfits.number_top_lt
    have htop' := hpf.number_top_lt
    have hlead := number_eq_leadingDigits hfits.two_le
    have hleadlt := leadingDigits_lt hfits.divisor
    have hrlow := number_lt (hfits.divisor.take (rdigits.length - 2))
    rw [List.length_take, min_eq_left (by omega)] at hrlow
    rw [low_with state] at hplow
    rw [top_with state] at hadd
    have hnd : (({ state with nextdigit := state.nextdigit - 1 } :
      DivState).pass addDigit false rdigits).1.nextdigit = state.nextdigit - 1 := rfl
    dsimp only at hplen ⊢
    generalize ({ state with nextdigit := state.nextdigit - 1 } : DivState).pass addDigit false
      rdigits = p at *
    rw [one_mul, Bool.toNat_false, Nat.cast_zero, add_zero] at hadd
    -- the sum, as an integer, has the high part `e`
    have hsum : z + number rdigits = number (p.1.top rdigits) + base ^ (rdigits.length - 2) *
        ((state.dividend : ℤ) - carry + leadingDigits rdigits + p.2.toNat) := by
      rw [hz, hlead]
      linear_combination -hadd
    have hzneg : z < 0 := by
      have := mul_le_mul_of_nonneg_left
        (show (state.dividend : ℤ) - carry ≤ -1 by omega) hbase.le
      rw [hz]
      linarith
    have he0 := high_nonneg hbase htop' (by rw [← hsum]; linarith)
    have heD := high_le hbase (number_nonneg _) hrlow
      (hsum.symm.trans_lt (by rw [← hlead]; linarith))
    have hdividend := corrected_dividend he0 (heD.trans_lt (by
      simp only [DIGITSBASE] at hleadlt
      omega))
    generalize uint64 (uint64 (uint64 (state.dividend - carry) + leadingDigits rdigits) +
      p.2.toNat) = dividend at *
    have hrem : ({ p.1 with dividend := dividend } : DivState).remainder rdigits =
        z + number rdigits := by rw [remainder_with, hdividend, hsum]
    refine ⟨hpf.with _ p.1.nextdigit, hplen, (low_with p.1 _ _ p.1.nextdigit).trans hplow, ?_, ?_, ?_⟩
    · change p.1.nextdigit < DIGITSBASE
      omega
    · rw [hrem]
      change _ = (p.1.nextdigit : ℤ) * _ + _
      rw [hnd, Nat.cast_sub hnext]
      push_cast
      ring
    · rw [hrem]
      omega

theorem DigitStep.of_low_eq {rdigits : List ℕ} {state state' next : DivState} {x : ℤ}
    (h : DigitStep rdigits state' x next) (hlen : state'.ldigits.length = state.ldigits.length)
    (hlow : state'.low rdigits = state.low rdigits) : DigitStep rdigits state x next :=
  ⟨h.fits, h.length_eq.trans hlen, h.low_eq.trans hlow, h.digit_lt, h.value, h.lt⟩

/-- **`submul_decimalhelper`** subtracts the multiple of the divisor, and corrects a digit that is
one too large. -/
theorem submulDecimalhelper_step {rdigits : List ℕ} {state : DivState} {z : ℤ}
    (hfits : state.Fits rdigits) (hnext : 1 ≤ state.nextdigit)
    (hdigit : state.nextdigit < DIGITSBASE)
    (hz : z = number (state.top rdigits) + base ^ (rdigits.length - 2) * state.dividend -
      state.nextdigit * number (rdigits.take (rdigits.length - 2)))
    (hge : -number rdigits ≤ z) (hlt : z < number rdigits) :
    DigitStep rdigits state (state.nextdigit * number rdigits + z)
      (submulDecimalhelper rdigits state) := by
  -- all loops hand their carry to the correction
  have hfinish : ∀ (p : DivState) (carry : ℕ), p.Fits rdigits →
      p.ldigits.length = state.ldigits.length → p.low rdigits = state.low rdigits →
      p.dividend = state.dividend → p.nextdigit = state.nextdigit →
      number (p.top rdigits) + base ^ (rdigits.length - 2) * -(carry : ℤ) =
        number (state.top rdigits) +
          -(state.nextdigit : ℤ) * number (rdigits.take (rdigits.length - 2)) →
      DigitStep rdigits state (state.nextdigit * number rdigits + z) (p.correct rdigits carry) := by
    intro p carry hpf hplen hplow hpd hpn hvalue
    have hstep : DigitStep rdigits p (p.nextdigit * number rdigits + z) (p.correct rdigits carry) :=
      DivState.correct_step hpf (by rwa [hpn]) (by rwa [hpn])
        (by rw [hz, hpd]; linear_combination -hvalue) hge hlt
    rw [hpn] at hstep
    exact hstep.of_low_eq hplen hplow
  rw [submulDecimalhelper]
  split_ifs with h2 hone hmax
  · obtain ⟨hpf, hplen, hplow, -, hvalue⟩ := DivState.pass_spec subDigit false
      (v := fun c => -(c.toNat : ℤ)) (m := -1) (I := fun _ => True) hfits trivial
      (fun c d _ h => ⟨subDigit_lt c d h, trivial, by rw [subDigit_value c d h]; ring⟩)
    refine hfinish _ _ hpf hplen hplow rfl rfl ?_
    rw [hvalue, hone]
    simp
  · obtain ⟨hpf, hplen, hplow, hI, hvalue⟩ := DivState.pass_spec submaxDigit ((0 : ℤ), 0)
      (v := fun c => c.1 - c.2) (m := -(DIGITSBASE - 1 : ℤ)) (I := MaxCarry) hfits
      ⟨by norm_num, by norm_num, by norm_num, fun _ => le_rfl⟩ (fun c d hc h => submaxDigit_spec hc h)
    refine hfinish _ _ hpf hplen hplow rfl rfl ?_
    obtain ⟨h1, h2, h3, h4⟩ := hI
    have hcarry : (uint32 ((state.pass submaxDigit (0, 0) rdigits).2.2 -
        (state.pass submaxDigit (0, 0) rdigits).2.1) : ℤ) =
          (state.pass submaxDigit (0, 0) rdigits).2.2 -
            (state.pass submaxDigit (0, 0) rdigits).2.1 := by
      generalize (state.pass submaxDigit (0, 0) rdigits).2 = c at *
      rw [uint32]
      simp only [DIGITSBASE] at h3
      omega
    rw [hcarry, neg_sub, hvalue, hmax]
    push_cast
    ring
  · obtain ⟨hpf, hplen, hplow, -, hvalue⟩ := DivState.pass_spec
      (submulDigit state.nextdigit) 0 (v := fun c => -(c : ℤ))
      (m := -(state.nextdigit : ℤ)) (I := fun _ => True) hfits trivial
      (fun c d _ h => ⟨submulDigit_lt _ c d h.1, trivial, submulDigit_value _ c d⟩)
    refine hfinish _ _ hpf hplen hplow rfl rfl ?_
    rw [hvalue]
    simp
  · have hnil : rdigits.take (rdigits.length - 2) = [] := by
      rw [show rdigits.length - 2 = 0 by omega, List.take_zero]
    have hrem : state.remainder rdigits = z := by
      rw [hz, hnil, number_nil, mul_zero, sub_zero]
      rfl
    exact ⟨hfits, rfl, rfl, hdigit, by rw [hrem], by rwa [hrem]⟩

theorem number_pos_of_base_le {rdigits : List ℕ} (h2 : 2 ≤ rdigits.length)
    (hlead : DIGITSBASE ≤ leadingDigits rdigits) : 0 < number rdigits := by
  have hnonneg := number_nonneg (rdigits.take (rdigits.length - 2))
  have hpos : (0 : ℤ) < leadingDigits rdigits := by
    exact_mod_cast lt_of_lt_of_le (by norm_num) hlead
  rw [number_eq_leadingDigits h2]
  linarith [mul_pos (base_pow_pos (rdigits.length - 2)) hpos]

theorem digitStep_zero {rdigits : List ℕ} {state : DivState} {dividend : ℕ}
    (hfits : state.Fits rdigits) (hlt : dividend < leadingDigits rdigits) :
    DigitStep rdigits state (number (state.top rdigits) + base ^ (rdigits.length - 2) * dividend)
      { state with dividend := dividend, nextdigit := 0 } := by
  refine ⟨hfits.with _ _, rfl, rfl, by norm_num, ?_, ?_⟩
  · rw [DivState.remainder_with, Nat.cast_zero, zero_mul, zero_add]
  · have h1 := hfits.number_top_lt
    have h2 := mul_le_mul_of_nonneg_left
      (show (dividend : ℤ) + 1 ≤ leadingDigits rdigits by omega)
      (base_pow_pos (rdigits.length - 2)).le
    have h3 := number_nonneg (rdigits.take (rdigits.length - 2))
    rw [DivState.remainder_with, number_eq_leadingDigits hfits.two_le]
    linarith

theorem digitStep_estimate {rdigits : List ℕ} {state : DivState} {q r u : ℕ}
    (hfits : state.Fits rdigits) (hbase : DIGITSBASE ≤ leadingDigits rdigits) (hq : 1 ≤ q)
    (hqB : q < DIGITSBASE) (hr : r < leadingDigits rdigits)
    (hu : u = q * leadingDigits rdigits + r) :
    DigitStep rdigits state (number (state.top rdigits) + base ^ (rdigits.length - 2) * u)
      (submulDecimalhelper rdigits { state with dividend := r, nextdigit := q }) := by
  have hrlow := number_lt (hfits.divisor.take (rdigits.length - 2))
  rw [List.length_take, min_eq_left (by omega)] at hrlow
  have hlead := number_eq_leadingDigits hfits.two_le
  have hbounds := estimate_bounds (base_pow_pos (rdigits.length - 2)) (number_nonneg _) hrlow
    (number_nonneg (state.top rdigits)) hfits.number_top_lt (Int.natCast_nonneg q)
    (show (q : ℤ) ≤ leadingDigits rdigits by omega) (Int.natCast_nonneg r)
    (show (r : ℤ) < leadingDigits rdigits by omega)
  rw [← hlead] at hbounds
  have hstep := submulDecimalhelper_step (hfits.with r q) hq hqB rfl hbounds.1 hbounds.2
  rw [DivState.top_with state] at hstep
  have hx : number (state.top rdigits) + base ^ (rdigits.length - 2) * (u : ℤ) =
      q * number rdigits + (number (state.top rdigits) + base ^ (rdigits.length - 2) * r -
        q * number (rdigits.take (rdigits.length - 2))) := by
    rw [hu, hlead]
    push_cast
    ring
  rw [hx]
  exact hstep.of_low_eq rfl (DivState.low_with _ _ _ _)

theorem digitStep_div {rdigits : List ℕ} {state : DivState} {dividend : ℕ}
    (hfits : state.Fits rdigits) (hbase : DIGITSBASE ≤ leadingDigits rdigits)
    (hle : leadingDigits rdigits ≤ dividend) (hlt : dividend < DIGITSBASE * leadingDigits rdigits) :
    DigitStep rdigits state (number (state.top rdigits) + base ^ (rdigits.length - 2) * dividend)
      (submulDecimalhelper rdigits
        { state with
          dividend := dividend % leadingDigits rdigits
          nextdigit := dividend / leadingDigits rdigits }) := by
  have hpos : 0 < leadingDigits rdigits := lt_of_lt_of_le (by norm_num) hbase
  exact digitStep_estimate hfits hbase (Nat.div_pos hle hpos)
    ((Nat.div_lt_iff_lt_mul hpos).mpr hlt) (Nat.mod_lt _ hpos) (Nat.div_add_mod' _ _).symm

/-! ## One turn of the loop -/

/-- `nextdigit = ldigits[--loffset]; ldigits[loffset] = 0; if (!loffset) loffset = lsize;` -/
def DivState.readDigit (state : DivState) : DivState :=
  let loffset := state.loffset - 1
  { state with
    nextdigit := state.ldigits.getD loffset 0
    ldigits := state.ldigits.set loffset 0
    loffset := if loffset = 0 then state.ldigits.length else loffset }

/-- One turn of the loop of `div_decimalhelper`; the digit is left in `nextdigit`. -/
def divStep (rdigits : List ℕ) (state : DivState) : DivState :=
  let state := state.readDigit
  if state.dividend = leadingDigits rdigits then
    -- the estimate would be `DIGITSBASE`
    submulDecimalhelper rdigits
      { state with dividend := state.dividend + state.nextdigit, nextdigit := DIGITSBASE - 1 }
  else if state.dividend / 2 ^ 32 ≠ 0 then
    submulDecimalhelper rdigits (div3by2digitsDecimalhelper (leadingDigits rdigits) state)
  else if state.dividend % 2 ^ 32 ≠ 0 then
    let dividend := state.dividend % 2 ^ 32 * DIGITSBASE + state.nextdigit
    if leadingDigits rdigits ≤ dividend then
      submulDecimalhelper rdigits
        { state with
          dividend := dividend % leadingDigits rdigits
          nextdigit := dividend / leadingDigits rdigits }
    else { state with dividend := dividend, nextdigit := 0 }
  else { state with dividend := state.nextdigit, nextdigit := 0 }

theorem DivState.readDigit_spec {state : DivState} {rdigits : List ℕ}
    (h : state.Fits rdigits) :
    state.readDigit.Fits rdigits ∧ state.readDigit.ldigits.length = state.ldigits.length ∧
      ∃ ds, state.window = ds ++ [state.readDigit.nextdigit] ∧
        state.readDigit.window = 0 :: ds := by
  have hlen : state.readDigit.ldigits.length = state.ldigits.length := List.length_set
  have hpos := h.loffset_pos
  have hle := h.loffset_le
  have hoff : 1 ≤ state.readDigit.loffset ∧
      state.readDigit.loffset ≤ state.ldigits.length := by
    rw [readDigit]
    dsimp only
    split_ifs <;> omega
  refine ⟨⟨h.two_le, hlen.symm ▸ h.le_length, hoff.1, hlen.symm ▸ hoff.2, ?_, h.divisor⟩, hlen,
    rotate_read hpos hle 0 0⟩
  intro d hd
  rcases List.mem_or_eq_of_mem_set hd with hd | rfl
  · exact h.ring d hd
  · norm_num

/-- All digits that are left: those of the remainder, and those that were not read. -/
def DivState.total (state : DivState) : ℤ :=
  number state.window + base ^ state.ldigits.length * state.dividend

theorem DivState.Fits.total_eq {state : DivState} {rdigits : List ℕ} (h : state.Fits rdigits) :
    state.total = number (state.low rdigits) +
      base ^ state.place rdigits * state.remainder rdigits := by
  rw [total, remainder, h.number_window, ← h.place_add, pow_add]
  ring

/-- The invariant of the loop: the remainder is smaller than the divisor. -/
structure DivInv (rdigits : List ℕ) (state : DivState) : Prop where
  fits : state.Fits rdigits
  lt : state.remainder rdigits < number rdigits

theorem DivInv.total_lt {rdigits : List ℕ} {state : DivState} (h : DivInv rdigits state) :
    state.total < base ^ state.place rdigits * number rdigits := by
  have h1 := mul_le_mul_of_nonneg_left (show state.remainder rdigits + 1 ≤ number rdigits from h.lt)
    (base_pow_pos (state.place rdigits)).le
  have h2 := number_lt (h.fits.window.take (state.place rdigits))
  change number (state.low rdigits) < base ^ (state.low rdigits).length at h2
  rw [h.fits.length_low] at h2
  rw [h.fits.total_eq]
  linarith

theorem DivState.total_nonneg (state : DivState) : 0 ≤ state.total :=
  add_nonneg (number_nonneg _) (mul_nonneg (base_pow_pos _).le (Int.natCast_nonneg _))

theorem DigitStep.total_eq {rdigits : List ℕ} {state next : DivState} {u : ℕ}
    (h : DigitStep rdigits state
      (number (state.top rdigits) + base ^ (rdigits.length - 2) * u) next)
    (hfits : state.Fits rdigits) :
    number state.window + base ^ state.ldigits.length * u =
      next.nextdigit * (number rdigits * base ^ state.place rdigits) + next.total := by
  have hplace : next.place rdigits = state.place rdigits := by
    rw [DivState.place, DivState.place, h.length_eq]
  rw [h.fits.total_eq, h.low_eq, hplace, hfits.number_window, ← hfits.place_add, pow_add]
  linear_combination base ^ state.place rdigits * h.value

theorem divStep_digitStep {rdigits : List ℕ} {state : DivState} (h : DivInv rdigits state)
    (hlead : DIGITSBASE ≤ leadingDigits rdigits) {u : ℕ}
    (hu : u = state.dividend * DIGITSBASE + state.readDigit.nextdigit)
    (hlt : number (state.readDigit.top rdigits) + base ^ (rdigits.length - 2) * u <
      number rdigits * base) :
    DigitStep rdigits state.readDigit
      (number (state.readDigit.top rdigits) + base ^ (rdigits.length - 2) * u)
      (divStep rdigits state) := by
  obtain ⟨hfits, hlen, ds, hds, -⟩ := state.readDigit_spec h.fits
  have hpow := base_pow_pos (rdigits.length - 2)
  have hnext : state.readDigit.nextdigit < DIGITSBASE := by
    refine h.fits.window _ ?_
    rw [hds]
    exact List.mem_append_right ds (List.mem_singleton_self _)
  have hrlow := number_lt (h.fits.divisor.take (rdigits.length - 2))
  rw [List.length_take, min_eq_left (by omega)] at hrlow
  have hleq := number_eq_leadingDigits h.fits.two_le
  have hD : (state.dividend : ℤ) ≤ leadingDigits rdigits := by
    refine high_le hpow (number_nonneg (state.top rdigits)) hrlow ?_
    rw [← hleq]
    exact h.lt
  have hd : state.readDigit.dividend = state.dividend := rfl
  rw [divStep]
  dsimp only
  rw [hd]
  split_ifs with heq hhigh hlow hle
  · -- the leading digits are equal, and nothing has to be corrected
    have hbounds := max_bounds hpow hrlow (number_nonneg (state.readDigit.top rdigits))
      (show 1 ≤ base by rw [base_eq]; norm_num)
      (show base ≤ leadingDigits rdigits by rw [← cast_DIGITSBASE]; exact_mod_cast hlead)
      (Int.natCast_nonneg state.readDigit.nextdigit) (by
        rw [← hleq]
        rw [hu, heq] at hlt
        push_cast at hlt
        rwa [← cast_DIGITSBASE])
    rw [← hleq] at hbounds
    have hmax : ((DIGITSBASE - 1 : ℕ) : ℤ) = base - 1 := by
      rw [base_eq]
      rfl
    have hstep := submulDecimalhelper_step
      (hfits.with (state.dividend + state.readDigit.nextdigit) (DIGITSBASE - 1))
      (by norm_num) (by norm_num) rfl (by
        rw [DivState.top_with state.readDigit, hmax, heq]
        push_cast
        linarith [hbounds.1, number_pos_of_base_le h.fits.two_le hlead]) (by
        rw [DivState.top_with state.readDigit, hmax, heq]
        push_cast
        exact hbounds.2)
    rw [DivState.top_with state.readDigit] at hstep
    have hx : number (state.readDigit.top rdigits) + base ^ (rdigits.length - 2) * (u : ℤ) =
        (DIGITSBASE - 1 : ℕ) * number rdigits + (number (state.readDigit.top rdigits) +
          base ^ (rdigits.length - 2) * (state.dividend + state.readDigit.nextdigit : ℕ) -
            (DIGITSBASE - 1 : ℕ) * number (rdigits.take (rdigits.length - 2))) := by
      rw [hu, hleq, heq, hmax, ← cast_DIGITSBASE]
      push_cast
      ring
    rw [hx]
    exact hstep.of_low_eq rfl (DivState.low_with _ _ _ _)
  · have hlt' : state.readDigit.dividend < leadingDigits rdigits := by
      rw [hd]
      omega
    obtain ⟨hr, hq⟩ := div3by2digitsDecimalhelper_spec hlt' hnext
    rw [hd, ← hu] at hq
    have hlt : u < DIGITSBASE * leadingDigits rdigits := by
      have h1 := Nat.mul_le_mul_right DIGITSBASE (show state.dividend + 1 ≤ leadingDigits rdigits by omega)
      rw [hu, mul_comm DIGITSBASE]
      linarith
    have hD64 := leadingDigits_lt h.fits.divisor
    -- the dividend has more than 32 bits, so that the quotient is not zero
    have hq1 : 1 ≤ (div3by2digitsDecimalhelper (leadingDigits rdigits) state.readDigit).nextdigit := by
      by_contra h0
      rw [Nat.lt_one_iff.mp (not_le.mp h0), zero_mul, zero_add] at hq
      simp only [DIGITSBASE] at *
      omega
    have hqB : (div3by2digitsDecimalhelper (leadingDigits rdigits) state.readDigit).nextdigit <
        DIGITSBASE := by
      by_contra hge
      have := Nat.mul_le_mul_right (leadingDigits rdigits) (not_lt.mp hge)
      omega
    rw [div3by2digitsDecimalhelper_eq]
    exact digitStep_estimate hfits hlead hq1 hqB hr hq
  all_goals
    rw [not_not] at hhigh
    have hmod : state.dividend % 2 ^ 32 = state.dividend := by omega
    have hltD : state.dividend < leadingDigits rdigits := by omega
  · rw [hmod, ← hu] at hle ⊢
    refine digitStep_div hfits hlead hle ?_
    have h1 := Nat.mul_le_mul_right DIGITSBASE (show state.dividend + 1 ≤ leadingDigits rdigits by omega)
    rw [hu, mul_comm DIGITSBASE]
    linarith
  · rw [hmod, ← hu] at hle ⊢
    exact digitStep_zero hfits (not_le.mp hle)
  · have hzero : u = state.readDigit.nextdigit := by
      rw [not_not, hmod] at hlow
      rw [hu, hlow, zero_mul, zero_add]
    rw [hzero]
    exact digitStep_zero hfits (hnext.trans_le hlead)

/-- **One turn**: the remainder stays smaller than the divisor, and the digit accounts for all that
is taken away. -/
theorem divStep_spec {rdigits : List ℕ} {state : DivState} (h : DivInv rdigits state)
    (hlead : DIGITSBASE ≤ leadingDigits rdigits) :
    DivInv rdigits (divStep rdigits state) ∧
      (divStep rdigits state).ldigits.length = state.ldigits.length ∧
      (divStep rdigits state).nextdigit < DIGITSBASE ∧
      base * state.total = (divStep rdigits state).nextdigit *
        (number rdigits * base ^ state.place rdigits) + (divStep rdigits state).total := by
  obtain ⟨hfits, hlen, ds, hds, hds'⟩ := state.readDigit_spec h.fits
  have hplace : state.readDigit.place rdigits = state.place rdigits := by
    rw [DivState.place, DivState.place, hlen]
  have hdslen : ds.length + 1 = state.ldigits.length := by
    have := congrArg List.length hds
    rw [DivState.length_window, List.length_append, List.length_singleton] at this
    exact this.symm
  obtain ⟨u, hu⟩ : ∃ u, u = state.dividend * DIGITSBASE + state.readDigit.nextdigit := ⟨_, rfl⟩
  have hu' : (u : ℤ) = state.dividend * base + state.readDigit.nextdigit := by
    rw [hu, ← cast_DIGITSBASE]
    push_cast
    rfl
  -- the digits move up by one place
  have hshift : base * state.total =
      number state.readDigit.window + base ^ state.readDigit.ldigits.length * u := by
    rw [DivState.total, hds, hds', number_append, number_cons, number_cons, number_nil, hlen,
      ← hdslen, pow_succ, hu']
    push_cast
    ring
  have hlt : number (state.readDigit.top rdigits) + base ^ (rdigits.length - 2) * u <
      number rdigits * base := by
    refine lt_of_mul_lt_mul_left ?_ (base_pow_pos (state.place rdigits)).le
    have h1 := mul_lt_mul_of_pos_left h.total_lt base_pos
    rw [hshift, hfits.number_window, hplace, hlen, ← h.fits.place_add, pow_add] at h1
    have h2 := number_nonneg (state.readDigit.low rdigits)
    linarith
  have hstep := divStep_digitStep h hlead hu hlt
  refine ⟨⟨hstep.fits, hstep.lt⟩, hstep.length_eq.trans hlen, hstep.digit_lt, ?_⟩
  rw [hshift, hstep.total_eq hfits, hplace]

end Decimal
end CKern
