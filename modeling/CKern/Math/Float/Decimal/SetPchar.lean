import CKern.Library.Numeral
import CKern.Math.Float.Decimal.Basic
import Mathlib.Data.List.TakeWhile

/-!
# `setPchar_decimal`: reading a decimal

The text is read twice.  The first pass counts the digits of the mantissa with the zeros at its two
ends, and computes the exponent.  The second pass begins behind the leading zeros and groups the
digits by nine; the last group is filled up with as many zeros as the alignment of the exponent
needs.

* `Denotes`: the grammar of the texts, and the number that a text denotes.
* `scanMantissa`, `scanExponentpart`, `readDigits`, `setPcharDecimal`: the two passes, and the whole
  function.  Reading outside of the text has no result.
* `scanMantissa_eq`: the counts of the first pass on a text whose parts are known.
* `readDigits_spec`: the digits to the base `10 ^ 9` of the second pass.
* `setPcharDecimal_exact`: what is stored is the number that the text denotes.
-/

namespace CKern
namespace Decimal

open Numeral

/-! ## The characters -/

def charZero : UInt8 := 48
def charMinus : UInt8 := 45
def charPlus : UInt8 := 43
def charPoint : UInt8 := 46
def charE : UInt8 := 101

/-! ## The grammar -/

/-- The fractional part: nothing, or a point and the digits behind it. -/
inductive FractionText : List UInt8 → List UInt8 → Prop where
  | absent : FractionText [] []
  | point {ds : List UInt8} (h : Numeral.Digits ds) : FractionText (charPoint :: ds) ds

/-- The exponent part: nothing, or an `e`, a sign that may be missing, and at least one digit. -/
inductive ExponentText : List UInt8 → ℤ → Prop where
  | absent : ExponentText [] 0
  | plain {ds : List UInt8} (hne : ds ≠ []) (h : Numeral.Digits ds) :
      ExponentText (charE :: ds) (numeral ds)
  | plus {ds : List UInt8} (hne : ds ≠ []) (h : Numeral.Digits ds) :
      ExponentText (charE :: charPlus :: ds) (numeral ds)
  | minus {ds : List UInt8} (hne : ds ≠ []) (h : Numeral.Digits ds) :
      ExponentText (charE :: charMinus :: ds) (-(numeral ds))

/-- The sign of the mantissa. -/
def signText (isNegSign : Bool) : List UInt8 := if isNegSign then [charMinus] else []

/-- **The number that a text denotes**: `[-] digits [. digits] [e [+-] digits]` with at least one
digit in the mantissa and at least one behind the `e`. -/
inductive Denotes : List UInt8 → ℚ → Prop where
  | intro (isNegSign : Bool) {int fract ftext etext : List UInt8} {e : ℤ}
      (hint : Numeral.Digits int) (hfract : FractionText ftext fract)
      (hexp : ExponentText etext e) (hne : int ++ fract ≠ []) :
      Denotes (signText isNegSign ++ (int ++ (ftext ++ etext)))
        ((if isNegSign then -1 else 1) *
          (numeral (int ++ fract) * (10 : ℚ) ^ (e - fract.length)))

/-! ## The first pass -/

/-- `nrdigitsmax_decimal`. -/
def nrdigitsmaxDecimal : ℕ := 9 * 0x7f

/-- `(int32_t) z` -/
def int32 (z : ℤ) : ℤ := (z + 2 ^ 31) % 2 ^ 32 - 2 ^ 31

/-- The loop that counts zeros. -/
def leadzeros : List UInt8 → ℕ
  | [] => 0
  | c :: cs => if c = charZero then leadzeros cs + 1 else 0

/-- The loop over digits: how many there are, and how many zeros stand at the end. -/
def scanDigits : List UInt8 → ℕ → ℕ × ℕ
  | [], trailzero => (0, trailzero)
  | c :: cs, trailzero =>
    if isDigit c then
      let rest := scanDigits cs (if c = charZero then trailzero + 1 else 0)
      (rest.1 + 1, rest.2)
    else (0, trailzero)

/-- The local variables after the mantissa has been scanned. -/
structure Mantissa where
  isNegSign : Bool
  nrintdigits : ℕ
  nrfractdigits : ℕ
  leadzero : ℕ
  trailzero : ℕ
  offset : ℕ
  deriving DecidableEq, Repr

/-- The first part of `setPchar_decimal`, up to `nrfractdigits`. -/
def scanMantissa (decimalstr : List UInt8) : Mantissa :=
  let isNegSign := decide (decimalstr.head? = some charMinus)
  let startoffset := isNegSign.toNat
  let leadzero := leadzeros (decimalstr.drop startoffset)
  let offset := startoffset + leadzero
  let scanned := scanDigits (decimalstr.drop offset) 0
  let offset := offset + scanned.1
  let nrintdigits := offset - startoffset
  let isFractionalPart := decide ((decimalstr.drop offset).head? = some charPoint)
  let offset := offset + isFractionalPart.toNat
  let startoffset := offset
  let zeros := if nrintdigits = leadzero then leadzeros (decimalstr.drop offset) else 0
  let leadzero := leadzero + zeros
  let offset := offset + zeros
  let scanned := scanDigits (decimalstr.drop offset) scanned.2
  let offset := offset + scanned.1
  { isNegSign := isNegSign
    nrintdigits := nrintdigits
    nrfractdigits := offset - startoffset
    leadzero := leadzero
    trailzero := scanned.2
    offset := offset }

/-- The loop over the digits of the exponent.  They count only if the number is not 0. -/
def scanExponent (nrdigits : ℕ) : List UInt8 → ℤ → Except Errno (ℕ × ℤ)
  | [], exponent => .ok (0, exponent)
  | c :: cs, exponent =>
    if isDigit c then
      let next := if nrdigits ≠ 0 then exponent * 10 + (c.toNat - 48 : ℕ) else exponent
      if nrdigits ≠ 0 ∧ ((expmaxDecimal + nrdigitsmaxDecimal : ℕ) : ℤ) < next then .error .EOVERFLOW
      else (scanExponent nrdigits cs next).map fun rest => (rest.1 + 1, rest.2)
    else .ok (0, exponent)

/-- The local variables after the exponent has been scanned. -/
structure Exponentpart where
  isExponentPart : Bool
  nrexponentdigits : ℕ
  exponent : ℤ
  offset : ℕ
  deriving DecidableEq, Repr

/-- The part of `setPchar_decimal` for the exponent. -/
def scanExponentpart (decimalstr : List UInt8) (nrdigits offset : ℕ) : Except Errno Exponentpart :=
  let isExponentPart := decide ((decimalstr.drop offset).head? = some charE)
  let offset := offset + isExponentPart.toNat
  if isExponentPart then
    let isNegExponent := decide ((decimalstr.drop offset).head? = some charMinus)
    let isPosExponent := decide ((decimalstr.drop offset).head? = some charPlus)
    let offset := offset + (isNegExponent.toNat + isPosExponent.toNat)
    (scanExponent nrdigits (decimalstr.drop offset) 0).map fun scanned =>
      { isExponentPart := true
        nrexponentdigits := scanned.1
        exponent := if isNegExponent then -scanned.2 else scanned.2
        offset := offset + scanned.1 }
  else .ok { isExponentPart := false, nrexponentdigits := 0, exponent := 0, offset := offset }

/-! ## The second pass -/

/-- The inner loop: a group of `nrcharsdigit` digits.  A point between them is skipped. -/
def readDigit : List UInt8 → ℕ → ℕ → Option (ℕ × List UInt8)
  | rest, 0, digitvalue => some (digitvalue, rest)
  | [], _ + 1, _ => none
  | c :: cs, n + 1, digitvalue =>
    if c ≠ charPoint then readDigit cs n (digitvalue * 10 + (c.toNat - 48))
    else readDigit cs (n + 1) digitvalue

/-- The outer loop, from the digit below `digitindex` down to digit 0.  The digits are returned with
the lowest one first. -/
def readDigits (additional : ℕ) : ℕ → ℕ → List UInt8 → Option (List ℕ)
  | 0, _, _ => some []
  | digitindex + 1, nrcharsdigit, rest => do
    let n := if digitindex = 0 then nrcharsdigit - additional else nrcharsdigit
    let (digitvalue, rest) ← readDigit rest n 0
    let digit :=
      if digitindex = 0 ∧ additional ≠ 0 then digitvalue * 10 ^ additional else digitvalue
    let lower ← readDigits additional digitindex 9 rest
    return lower ++ [digit]

/-- The part of `setPchar_decimal` for a number that is not 0. -/
def storeDigits (dec : Decimal) (decimalstr : List UInt8) (m : Mantissa) (nrdigits : ℕ)
    (exponent : ℤ) : Option (Except Errno Unit × Decimal) :=
  let exponent :=
    if m.trailzero ≤ m.nrfractdigits then
      int32 (exponent - int32 (m.nrfractdigits - m.trailzero : ℕ))
    else int32 (exponent + int32 (m.trailzero - m.nrfractdigits : ℕ))
  match alignexponentDecimalhelper exponent with
  | .error err => some (.error err, dec)
  | .ok additional =>
    let exponent := (exponent - additional).tdiv 9
    let nrdigits := nrdigits + additional
    let size := (nrdigits + 8) / 9
    match allocateDecimalhelper dec size with
    | .error err => some (.error err, dec)
    | .ok dec =>
      let offset := m.isNegSign.toNat + m.leadzero + (decide (m.nrintdigits ≤ m.leadzero)).toNat
      let nrcharsdigit := if nrdigits % 9 = 0 then 9 else nrdigits % 9
      (readDigits additional size nrcharsdigit (decimalstr.drop offset)).map fun ds =>
        (.ok (), dec.assign (size ≠ 0 && m.isNegSign) size exponent ds)

/-- `setPchar_decimal`: the error code, and `*dec` afterwards. -/
def setPcharDecimal (dec : Decimal) (decimalstr : List UInt8) :
    Option (Except Errno Unit × Decimal) :=
  let m := scanMantissa decimalstr
  let nrdigits := m.nrfractdigits + m.nrintdigits - m.leadzero - m.trailzero
  if nrdigitsmaxDecimal < nrdigits then some (.error .EOVERFLOW, dec)
  else
    match scanExponentpart decimalstr nrdigits m.offset with
    | .error err => some (.error err, dec)
    | .ok x =>
      if m.nrfractdigits + m.nrintdigits = 0 ∨ (x.nrexponentdigits = 0 ∧ x.isExponentPart) ∨
          x.offset ≠ decimalstr.length then
        some (.error .EINVAL, dec)
      else if nrdigits ≠ 0 then storeDigits dec decimalstr m nrdigits x.exponent
      else some (.ok (), dec.assign false 0 x.exponent [])

/-! ## Counting digits and zeros -/

/-- The zeros at the end of a row, after `trailzero` zeros in front of it. -/
def trailing (ds : List UInt8) (trailzero : ℕ) : ℕ :=
  ds.foldl (fun n c => if c = charZero then n + 1 else 0) trailzero

theorem isDigit_charZero : isDigit charZero = true := by decide

theorem head_ne_of_stops {r : List UInt8} (hr : Stops isDigit r) {c : UInt8}
    (hc : isDigit c = true) : r.head? ≠ some c := by
  intro heq
  have := hr c heq
  rw [hc] at this
  cases this

theorem leadzeros_cons (c : UInt8) (cs : List UInt8) :
    leadzeros (c :: cs) = if c = charZero then leadzeros cs + 1 else 0 := rfl

theorem leadzeros_of_stops {r : List UInt8} (hr : Stops isDigit r) : leadzeros r = 0 := by
  cases r with
  | nil => rfl
  | cons c cs =>
    have hc : c ≠ charZero := by
      rintro rfl
      exact head_ne_of_stops hr isDigit_charZero rfl
    rw [leadzeros_cons, if_neg hc]

theorem leadzeros_le (ds : List UInt8) : leadzeros ds ≤ ds.length := by
  induction ds with
  | nil => exact le_rfl
  | cons c cs ih =>
    rw [leadzeros_cons, List.length_cons]
    split_ifs <;> omega

theorem leadzeros_append (xs ys : List UInt8) :
    leadzeros (xs ++ ys) =
      leadzeros xs + if xs.length = leadzeros xs then leadzeros ys else 0 := by
  induction xs with
  | nil => simp [leadzeros]
  | cons x xs ih =>
    rw [List.cons_append, leadzeros_cons, leadzeros_cons, List.length_cons]
    by_cases hx : x = charZero
    · rw [if_pos hx, if_pos hx, ih]
      simp only [Nat.add_right_cancel_iff]
      omega
    · rw [if_neg hx, if_neg hx, if_neg (by omega)]

theorem take_leadzeros (ds : List UInt8) :
    ds.take (leadzeros ds) = List.replicate (leadzeros ds) charZero := by
  induction ds with
  | nil => rfl
  | cons c cs ih =>
    rw [leadzeros_cons]
    split_ifs with hc
    · rw [List.take_succ_cons, ih, List.replicate_succ, hc]
    · rfl

theorem head_drop_leadzeros (ds : List UInt8) : (ds.drop (leadzeros ds)).head? ≠ some charZero := by
  induction ds with
  | nil => simp [leadzeros]
  | cons c cs ih =>
    rw [leadzeros_cons]
    split_ifs with hc
    · rwa [List.drop_succ_cons]
    · simpa using hc

theorem scanDigits_append {ds r : List UInt8} (hds : Numeral.Digits ds) (hr : Stops isDigit r)
    (trailzero : ℕ) : scanDigits (ds ++ r) trailzero = (ds.length, trailing ds trailzero) := by
  induction ds generalizing trailzero with
  | nil =>
    cases r with
    | nil => rfl
    | cons c cs =>
      have hc : isDigit c = false := hr c rfl
      rw [List.nil_append, scanDigits, hc]
      rfl
  | cons d ds ih =>
    obtain ⟨hd, hds⟩ := Numeral.digits_cons.mp hds
    rw [List.cons_append, scanDigits, if_pos hd, ih hds]
    rfl

theorem trailing_append (xs ys : List UInt8) (n : ℕ) :
    trailing (xs ++ ys) n = trailing ys (trailing xs n) := List.foldl_append

theorem eq_append_trailing (ds : List UInt8) :
    ∃ front, ds = front ++ List.replicate (trailing ds 0) charZero := by
  induction ds using List.reverseRecOn with
  | nil => exact ⟨[], rfl⟩
  | append_singleton ds c ih =>
    obtain ⟨front, hfront⟩ := ih
    rw [trailing_append]
    by_cases hc : c = charZero
    · refine ⟨front, ?_⟩
      have hnext : trailing [c] (trailing ds 0) = trailing ds 0 + 1 := by
        rw [trailing, List.foldl_cons, List.foldl_nil, if_pos hc]
      rw [hnext, List.replicate_succ', ← List.append_assoc, ← hfront, hc]
    · refine ⟨ds ++ [c], ?_⟩
      have hnext : trailing [c] (trailing ds 0) = 0 := by
        rw [trailing, List.foldl_cons, List.foldl_nil, if_neg hc]
      rw [hnext, List.replicate_zero, List.append_nil]

/-- The digits of the mantissa without the zeros at its two ends. -/
def significant (ds : List UInt8) : List UInt8 :=
  (ds.drop (leadzeros ds)).take
    (ds.length - leadzeros ds - trailing (ds.drop (leadzeros ds)) 0)

theorem eq_significant (ds : List UInt8) :
    ds = List.replicate (leadzeros ds) charZero ++ (significant ds ++
      List.replicate (trailing (ds.drop (leadzeros ds)) 0) charZero) := by
  obtain ⟨front, hfront⟩ := eq_append_trailing (ds.drop (leadzeros ds))
  have hlen := congrArg List.length hfront
  rw [List.length_drop, List.length_append, List.length_replicate] at hlen
  have hsig : significant ds = front := by
    rw [significant, hlen, Nat.add_sub_cancel]
    conv_lhs => rw [hfront]
    exact List.take_left
  rw [hsig, ← hfront, ← take_leadzeros, List.take_append_drop]

theorem length_significant (ds : List UInt8) :
    (significant ds).length =
      ds.length - leadzeros ds - trailing (ds.drop (leadzeros ds)) 0 := by
  have hlen := congrArg List.length (eq_significant ds)
  simp only [List.length_append, List.length_replicate] at hlen
  omega

theorem head_significant (ds : List UInt8) : (significant ds).head? ≠ some charZero := by
  intro hhead
  have hdrop := head_drop_leadzeros ds
  have heq := congrArg (List.drop (leadzeros ds)) (eq_significant ds)
  rw [List.drop_left' (List.length_replicate ..)] at heq
  rw [heq, List.head?_append, hhead] at hdrop
  exact hdrop rfl

theorem numeral_eq_significant (ds : List UInt8) :
    numeral ds =
      numeral (significant ds) * 10 ^ trailing (ds.drop (leadzeros ds)) 0 := by
  conv_lhs => rw [eq_significant ds]
  rw [numeral_append, numeral_append]
  have hzero : ∀ n, numeral (List.replicate n charZero) = 0 := numeral_replicate_zero
  rw [hzero, hzero, List.length_replicate, Nat.zero_mul, Nat.zero_add, Nat.add_zero]

theorem digits_significant {ds : List UInt8} (h : Numeral.Digits ds) :
    Numeral.Digits (significant ds) := (h.drop _).take _

/-! ## The first pass -/

/-- A text with its parts: the sign, the digits of the mantissa, and the rest. -/
structure Parts (decimalstr : List UInt8) (isNegSign : Bool) (int fract ftext rest : List UInt8) :
    Prop where
  eq : decimalstr = signText isNegSign ++ (int ++ (ftext ++ rest))
  int_digits : Numeral.Digits int
  fraction : FractionText ftext fract
  stops : Stops isDigit rest
  point : ftext = [] → rest.head? ≠ some charPoint
  sign : isNegSign = false → decimalstr.head? ≠ some charMinus

theorem length_signText (isNegSign : Bool) : (signText isNegSign).length = isNegSign.toNat := by
  cases isNegSign <;> rfl

theorem Parts.fract_digits {decimalstr : List UInt8} {isNegSign : Bool}
    {int fract ftext rest : List UInt8} (h : Parts decimalstr isNegSign int fract ftext rest) :
    Numeral.Digits fract := by
  cases h.fraction with
  | absent => exact digits_nil
  | point hds => exact hds

theorem Parts.stops_fraction {decimalstr : List UInt8} {isNegSign : Bool}
    {int fract ftext rest : List UInt8} (h : Parts decimalstr isNegSign int fract ftext rest) :
    Stops isDigit (ftext ++ rest) := by
  obtain ⟨-, -, hftext, hrest, -, -⟩ := h
  cases hftext with
  | absent => exact hrest
  | point hds =>
    intro c hc
    obtain rfl : charPoint = c := Option.some.inj hc
    decide

theorem Parts.drop {decimalstr : List UInt8} {isNegSign : Bool} {int fract ftext rest : List UInt8}
    (h : Parts decimalstr isNegSign int fract ftext rest) (n : ℕ) :
    decimalstr.drop (isNegSign.toNat + n) = (int ++ (ftext ++ rest)).drop n := by
  rw [h.eq, ← length_signText, List.drop_append, List.drop_of_length_le (by omega),
    Nat.add_sub_cancel_left, List.nil_append]

theorem Parts.isNegSign_eq {decimalstr : List UInt8} {isNegSign : Bool}
    {int fract ftext rest : List UInt8} (h : Parts decimalstr isNegSign int fract ftext rest) :
    decide (decimalstr.head? = some charMinus) = isNegSign := by
  cases isNegSign with
  | true =>
    rw [h.eq]
    rfl
  | false => exact decide_eq_false (h.sign rfl)

theorem exists_parts (decimalstr : List UInt8) :
    ∃ isNegSign int fract ftext rest, Parts decimalstr isNegSign int fract ftext rest := by
  obtain ⟨isNegSign, text, heq, hsign⟩ : ∃ isNegSign text, decimalstr = signText isNegSign ++ text ∧
      (isNegSign = false → decimalstr.head? ≠ some charMinus) := by
    by_cases hminus : decimalstr.head? = some charMinus
    · obtain ⟨text, rfl⟩ : ∃ text, decimalstr = charMinus :: text := by
        cases decimalstr with
        | nil => cases hminus
        | cons c cs => exact ⟨cs, by rw [Option.some.inj hminus]⟩
      exact ⟨true, text, rfl, fun h => by cases h⟩
    · exact ⟨false, decimalstr, rfl, fun _ => hminus⟩
  have hrun : ∀ cs : List UInt8, Numeral.Digits (cs.takeWhile isDigit) := fun cs c hc =>
    List.mem_takeWhile_imp hc
  have hcut : ∀ cs : List UInt8, cs = cs.takeWhile isDigit ++ cs.dropWhile isDigit := fun cs =>
    List.takeWhile_append_dropWhile.symm
  have hstop := Numeral.stops_dropWhile isDigit text
  by_cases hpoint : (text.dropWhile isDigit).head? = some charPoint
  · obtain ⟨more, hmore⟩ : ∃ more, text.dropWhile isDigit = charPoint :: more := by
      cases htext : text.dropWhile isDigit with
      | nil =>
        rw [htext] at hpoint
        cases hpoint
      | cons c cs =>
        rw [htext] at hpoint
        exact ⟨cs, by rw [Option.some.inj hpoint]⟩
    refine ⟨isNegSign, text.takeWhile isDigit, more.takeWhile isDigit,
      charPoint :: more.takeWhile isDigit, more.dropWhile isDigit, ?_, hrun _, .point (hrun _),
      Numeral.stops_dropWhile isDigit more, fun h => (by cases h), hsign⟩
    rw [List.cons_append, ← hcut more, ← hmore, ← hcut text, heq]
  · refine ⟨isNegSign, text.takeWhile isDigit, [], [], text.dropWhile isDigit, ?_, hrun _, .absent,
      hstop, fun _ => hpoint, hsign⟩
    rw [List.nil_append, ← hcut text, heq]

/-- **The first pass** counts the digits of both parts, and the zeros at the two ends of the
mantissa. -/
theorem scanMantissa_eq {decimalstr : List UInt8} {isNegSign : Bool}
    {int fract ftext rest : List UInt8} (h : Parts decimalstr isNegSign int fract ftext rest) :
    scanMantissa decimalstr =
      { isNegSign := isNegSign
        nrintdigits := int.length
        nrfractdigits := fract.length
        leadzero := leadzeros (int ++ fract)
        trailzero := trailing ((int ++ fract).drop (leadzeros (int ++ fract))) 0
        offset := isNegSign.toNat + (int.length + ftext.length) } := by
  have hstop := h.stops_fraction
  have hneg := h.isNegSign_eq
  have hdrop := h.drop
  obtain ⟨heq, hint, hftext, hrest, hpoint, hsign⟩ := h
  -- the integer part
  have hlead : leadzeros (decimalstr.drop isNegSign.toNat) = leadzeros int := by
    have h0 := hdrop 0
    rw [Nat.add_zero, List.drop_zero] at h0
    rw [h0, leadzeros_append, leadzeros_of_stops hstop, ite_self, Nat.add_zero]
  have hle := leadzeros_le int
  have hscan : scanDigits (decimalstr.drop (isNegSign.toNat + leadzeros int)) 0 =
      (int.length - leadzeros int, trailing (int.drop (leadzeros int)) 0) := by
    rw [hdrop, List.drop_append_of_le_length hle, scanDigits_append (hint.drop _) hstop,
      List.length_drop]
  have hoff : isNegSign.toNat + leadzeros int + (int.length - leadzeros int) =
      isNegSign.toNat + int.length := by omega
  -- the point
  have hafter : decimalstr.drop (isNegSign.toNat + int.length) = ftext ++ rest := by
    rw [hdrop, List.drop_left]
  have hisfract : (decide ((ftext ++ rest).head? = some charPoint)).toNat + fract.length =
      ftext.length := by
    cases hftext with
    | absent =>
      rw [List.nil_append, decide_eq_false (hpoint rfl)]
      rfl
    | point hds =>
      rw [List.cons_append, List.head?_cons, decide_eq_true rfl, Bool.toNat_true, List.length_cons,
        Nat.add_comm]
  have hfractdrop : ∀ n, n ≤ fract.length →
      decimalstr.drop (isNegSign.toNat + int.length +
        (decide ((ftext ++ rest).head? = some charPoint)).toNat + n) = fract.drop n ++ rest := by
    intro n hn
    rw [Nat.add_assoc, ← List.drop_drop, hafter]
    cases hftext with
    | absent =>
      rw [List.nil_append, decide_eq_false (hpoint rfl), List.drop_nil]
      rw [Nat.le_zero.mp hn]
      rfl
    | point hds =>
      rw [List.cons_append, List.head?_cons, decide_eq_true rfl, Bool.toNat_true, Nat.add_comm 1 n,
        List.drop_succ_cons, List.drop_append_of_le_length hn]
  -- the fractional part
  obtain ⟨zeros, hzeros⟩ : ∃ n, n = if int.length = leadzeros int then leadzeros fract else 0 :=
    ⟨_, rfl⟩
  have hzle : zeros ≤ fract.length := by
    have := leadzeros_le fract
    rw [hzeros]
    split_ifs <;> omega
  have hleadall : leadzeros (int ++ fract) = leadzeros int + zeros := by
    rw [leadzeros_append, hzeros]
  have hdropall : (int ++ fract).drop (leadzeros (int ++ fract)) =
      int.drop (leadzeros int) ++ fract.drop zeros := by
    rw [hleadall]
    by_cases hall : int.length = leadzeros int
    · rw [← hall, List.drop_append, List.drop_of_length_le (by omega), List.drop_length,
        Nat.add_sub_cancel_left]
    · have hz : zeros = 0 := by rw [hzeros, if_neg hall]
      rw [hz, Nat.add_zero, List.drop_append_of_le_length hle, List.drop_zero]
  have hzerosdrop : leadzeros (decimalstr.drop (isNegSign.toNat + int.length +
      (decide ((ftext ++ rest).head? = some charPoint)).toNat)) = leadzeros fract := by
    have h0 := hfractdrop 0 (Nat.zero_le _)
    rw [Nat.add_zero, List.drop_zero] at h0
    rw [h0, leadzeros_append, leadzeros_of_stops hrest, ite_self, Nat.add_zero]
  have hscan2 : ∀ n, scanDigits (decimalstr.drop (isNegSign.toNat + int.length +
      (decide ((ftext ++ rest).head? = some charPoint)).toNat + zeros)) n =
      (fract.length - zeros, trailing (fract.drop zeros) n) := by
    intro n
    have hfract : Numeral.Digits fract := by
      cases hftext with
      | absent => exact digits_nil
      | point hds => exact hds
    rw [hfractdrop zeros hzle, scanDigits_append (hfract.drop _) hrest, List.length_drop]
  rw [hdropall, trailing_append, hleadall, scanMantissa]
  simp only [hneg, hlead, hscan, hoff, hafter, hzerosdrop, Nat.add_sub_cancel_left, ← hzeros,
    hscan2, Mantissa.mk.injEq, true_and]
  omega

/-! ## The exponent -/

/-- The largest exponent that is read. -/
def expLimit : ℤ := (expmaxDecimal + nrdigitsmaxDecimal : ℕ)

theorem scanExponent_spec {ds r : List UInt8} (hds : Numeral.Digits ds) (hr : Stops isDigit r)
    (k : ℕ) {e : ℤ} (he : 0 ≤ e) (hle : e ≤ expLimit) :
    scanExponent k (ds ++ r) e = .error .EOVERFLOW ∨
      ∃ e', scanExponent k (ds ++ r) e = .ok (ds.length, e') ∧ 0 ≤ e' ∧ e' ≤ expLimit ∧
        e' = if k ≠ 0 then e * 10 ^ ds.length + numeral ds else e := by
  induction ds generalizing e with
  | nil =>
    refine .inr ⟨e, ?_, he, hle, ?_⟩
    · cases r with
      | nil => rfl
      | cons c cs =>
        have hc : isDigit c = false := hr c rfl
        rw [List.nil_append, scanExponent, hc]
        rfl
    · simp
  | cons d ds ih =>
    obtain ⟨hd, hds⟩ := Numeral.digits_cons.mp hds
    rw [List.cons_append, scanExponent, if_pos hd]
    by_cases hk : k ≠ 0
    · simp only [if_pos hk]
      by_cases hover : ((expmaxDecimal + nrdigitsmaxDecimal : ℕ) : ℤ) <
          e * 10 + ((d.toNat - 48 : ℕ) : ℤ)
      · rw [if_pos ⟨hk, hover⟩]
        exact .inl rfl
      · rw [if_neg fun h => hover h.2]
        rcases ih hds (by positivity) (not_lt.mp hover) with herr | ⟨e', hok, h0, hmax, heq⟩
        · rw [herr]
          exact .inl rfl
        · refine .inr ⟨e', by rw [hok]; rfl, h0, hmax, ?_⟩
          rw [heq, if_pos hk, numeral_cons, digitVal, List.length_cons]
          push_cast
          ring
    · simp only [if_neg hk]
      rw [if_neg fun h => hk h.1]
      rcases ih hds he hle with herr | ⟨e', hok, h0, hmax, heq⟩
      · rw [herr]
        exact .inl rfl
      · exact .inr ⟨e', by rw [hok]; rfl, h0, hmax, by rw [heq, if_neg hk]⟩

/-- What the checks at the end say of the exponent part: it has digits, and it ends the text. -/
def Exponentpart.Passes (x : Exponentpart) (decimalstr : List UInt8) : Prop :=
  ¬ (x.nrexponentdigits = 0 ∧ x.isExponentPart = true) ∧ x.offset = decimalstr.length

/-- An exponent part that passes the checks is one of the grammar.  The exponent of the number 0 is
not computed. -/
def Exponentpart.Reads (x : Exponentpart) (decimalstr rest : List UInt8) (k : ℕ) : Prop :=
  x.Passes decimalstr → ∃ e, ExponentText rest e ∧ (k ≠ 0 → x.exponent = e) ∧
    (k = 0 → x.exponent = 0) ∧ -expLimit ≤ x.exponent ∧ x.exponent ≤ expLimit

theorem scanExponentpart_of_sign {decimalstr : List UInt8} {offset k : ℕ} (sgn t : List UInt8)
    (neg pos : Bool) (hdrop : decimalstr.drop offset = charE :: (sgn ++ t))
    (hneg : decide ((sgn ++ t).head? = some charMinus) = neg)
    (hpos : decide ((sgn ++ t).head? = some charPlus) = pos)
    (hsgn : neg.toNat + pos.toNat = sgn.length)
    (htext : ∀ ds, ds ≠ [] → Numeral.Digits ds →
      ExponentText (charE :: (sgn ++ ds)) (if neg then -(numeral ds) else numeral ds)) :
    scanExponentpart decimalstr k offset = .error .EOVERFLOW ∨
      ∃ x, scanExponentpart decimalstr k offset = .ok x ∧
        x.Reads decimalstr (charE :: (sgn ++ t)) k := by
  have hnext : decimalstr.drop (offset + 1) = sgn ++ t := by
    rw [← List.drop_drop, hdrop, List.drop_succ_cons, List.drop_zero]
  have hdigits : decimalstr.drop (offset + 1 + (neg.toNat + pos.toNat)) =
      t.takeWhile isDigit ++ t.dropWhile isDigit := by
    rw [← List.drop_drop, hnext, hsgn, List.drop_left, List.takeWhile_append_dropWhile]
  have hds : Numeral.Digits (t.takeWhile isDigit) := fun c hc => List.mem_takeWhile_imp hc
  have hunfold : scanExponentpart decimalstr k offset =
      (scanExponent k (t.takeWhile isDigit ++ t.dropWhile isDigit) 0).map fun scanned =>
        { isExponentPart := true
          nrexponentdigits := scanned.1
          exponent := if neg then -scanned.2 else scanned.2
          offset := offset + 1 + (neg.toNat + pos.toNat) + scanned.1 } := by
    simp only [scanExponentpart, hdrop, List.head?_cons, decide_true, Bool.toNat_true, if_true,
      hnext, hneg, hpos, hdigits]
  rw [hunfold]
  rcases scanExponent_spec hds (stops_dropWhile isDigit t) k le_rfl (by decide : 0 ≤ expLimit) with
    herr | ⟨e', hok, h0, hmax, heq⟩
  · rw [herr]
    exact .inl rfl
  · rw [hok]
    refine .inr ⟨_, rfl, fun ⟨hdig, hend⟩ => ?_⟩
    dsimp only at hdig hend
    have hne : t.takeWhile isDigit ≠ [] := fun hnil => hdig ⟨by rw [hnil]; rfl, rfl⟩
    -- nothing is left behind the digits
    have hlen := congrArg List.length hdrop
    have htlen := congrArg List.length (List.takeWhile_append_dropWhile (p := isDigit) (l := t))
    rw [List.length_drop, List.length_cons, List.length_append] at hlen
    rw [List.length_append] at htlen
    have hnil : t.dropWhile isDigit = [] := List.eq_nil_of_length_eq_zero (by omega)
    have ht : t.takeWhile isDigit = t := by
      conv_rhs => rw [← List.takeWhile_append_dropWhile (p := isDigit) (l := t), hnil,
        List.append_nil]
    rw [ht] at hne hds heq
    refine ⟨_, htext t hne hds, fun hk => ?_, fun hk => ?_, ?_, ?_⟩
    · rw [if_pos hk, Int.zero_mul, Int.zero_add] at heq
      rw [heq]
    · rw [if_neg (by omega)] at heq
      rw [heq]
      cases neg <;> rfl
    · cases neg <;> simp only [Bool.false_eq_true, if_true, if_false] <;> omega
    · cases neg <;> simp only [Bool.false_eq_true, if_true, if_false] <;> omega

/-- **The exponent part.** -/
theorem scanExponentpart_spec {decimalstr rest : List UInt8} {offset : ℕ} (k : ℕ)
    (hdrop : decimalstr.drop offset = rest) :
    scanExponentpart decimalstr k offset = .error .EOVERFLOW ∨
      ∃ x, scanExponentpart decimalstr k offset = .ok x ∧ x.Reads decimalstr rest k := by
  by_cases he : rest.head? = some charE
  · obtain ⟨t, rfl⟩ : ∃ t, rest = charE :: t := by
      cases rest with
      | nil => cases he
      | cons c cs => exact ⟨cs, by rw [Option.some.inj he]⟩
    by_cases hminus : t.head? = some charMinus
    · obtain ⟨u, rfl⟩ : ∃ u, t = [charMinus] ++ u := by
        cases t with
        | nil => cases hminus
        | cons c cs => exact ⟨cs, by rw [Option.some.inj hminus]; rfl⟩
      exact scanExponentpart_of_sign _ u true false hdrop (decide_eq_true rfl)
        (decide_eq_false (by simp [charMinus, charPlus])) rfl fun ds hne hds => .minus hne hds
    · by_cases hplus : t.head? = some charPlus
      · obtain ⟨u, rfl⟩ : ∃ u, t = [charPlus] ++ u := by
          cases t with
          | nil => cases hplus
          | cons c cs => exact ⟨cs, by rw [Option.some.inj hplus]; rfl⟩
        exact scanExponentpart_of_sign _ u false true hdrop
          (decide_eq_false (by simp [charMinus, charPlus])) (decide_eq_true rfl) rfl
          fun ds hne hds => .plus hne hds
      · exact scanExponentpart_of_sign [] t false false hdrop (decide_eq_false hminus)
          (decide_eq_false hplus) rfl fun ds hne hds => .plain hne hds
  · have hunfold : scanExponentpart decimalstr k offset = .ok
        { isExponentPart := false, nrexponentdigits := 0, exponent := 0, offset := offset } := by
      simp only [scanExponentpart, hdrop, decide_eq_false he]
      rfl
    refine .inr ⟨_, hunfold, fun ⟨_, hend⟩ => ?_⟩
    have hnil : rest = [] := by
      rw [← hdrop, List.drop_eq_nil_iff]
      exact hend.ge
    rw [hnil]
    exact ⟨0, .absent, fun _ => rfl, fun _ => rfl, (by decide : -expLimit ≤ 0),
      (by decide : 0 ≤ expLimit)⟩

/-! ## The second pass -/

/-- What the second pass reads: the text without the point. -/
def withoutPoint (rest : List UInt8) : List UInt8 := rest.filter (· ≠ charPoint)

theorem readDigit_spec (rest : List UInt8) (n digitvalue : ℕ)
    (hn : n ≤ (withoutPoint rest).length) :
    ∃ rest', readDigit rest n digitvalue =
        some (digitvalue * 10 ^ n + numeral ((withoutPoint rest).take n), rest') ∧
      withoutPoint rest' = (withoutPoint rest).drop n := by
  induction rest generalizing n digitvalue with
  | nil =>
    obtain rfl : n = 0 := Nat.le_zero.mp hn
    exact ⟨[], by simp [readDigit], rfl⟩
  | cons c cs ih =>
    cases n with
    | zero => exact ⟨c :: cs, by simp [readDigit], rfl⟩
    | succ n =>
      rw [readDigit]
      by_cases hc : c ≠ charPoint
      · have hcons : withoutPoint (c :: cs) = c :: withoutPoint cs :=
          List.filter_cons_of_pos (by simpa using hc)
        rw [hcons, List.length_cons] at hn
        obtain ⟨rest', hread, hrest⟩ := ih n (digitvalue * 10 + (c.toNat - 48)) (by omega)
        have hlen : ((withoutPoint cs).take n).length = n := List.length_take_of_le (by omega)
        refine ⟨rest', ?_, by rw [hcons, hrest, List.drop_succ_cons]⟩
        rw [if_pos hc, hread, hcons, List.take_succ_cons, numeral_cons, hlen, digitVal]
        ring_nf
      · have hcons : withoutPoint (c :: cs) = withoutPoint cs :=
          List.filter_cons_of_neg (by simpa using hc)
        rw [hcons] at hn ⊢
        rw [if_neg hc]
        exact ih (n + 1) digitvalue hn

theorem fill_eq (additional digitvalue : ℕ) (p : Prop) [Decidable p] (hp : p) :
    (if p ∧ additional ≠ 0 then digitvalue * 10 ^ additional else digitvalue) =
      digitvalue * 10 ^ additional := by
  by_cases h0 : additional = 0
  · rw [if_neg fun h => h.2 h0, h0, Nat.pow_zero, Nat.mul_one]
  · rw [if_pos ⟨hp, h0⟩]

/-- **The second pass**: the groups are the digits to the base `10 ^ 9` of what is read. -/
theorem readDigits_spec (additional : ℕ) (i : ℕ) :
    ∀ (n : ℕ) (rest : List UInt8), n ≤ 9 → additional ≤ n + 9 * i →
      (0 < i → additional ≤ 9) →
      n + 9 * i - additional ≤ (withoutPoint rest).length →
      Numeral.Digits ((withoutPoint rest).take (n + 9 * i - additional)) →
      ∃ ds, readDigits additional (i + 1) n rest = some ds ∧ ds.length = i + 1 ∧ Digits ds ∧
        number ds =
          ((numeral ((withoutPoint rest).take (n + 9 * i - additional)) * 10 ^ additional : ℕ) :
            ℤ) := by
  induction i with
  | zero =>
    intro n rest hn hadd _ hlen hdigits
    rw [Nat.mul_zero, Nat.add_zero] at hadd hlen hdigits ⊢
    obtain ⟨rest', hread, -⟩ := readDigit_spec rest (n - additional) 0 hlen
    rw [Nat.zero_mul, Nat.zero_add] at hread
    have hlt : numeral ((withoutPoint rest).take (n - additional)) * 10 ^ additional <
        DIGITSBASE := by
      have h1 := numeral_lt hdigits
      rw [List.length_take_of_le hlen] at h1
      calc numeral ((withoutPoint rest).take (n - additional)) * 10 ^ additional
          < 10 ^ (n - additional) * 10 ^ additional :=
            Nat.mul_lt_mul_of_pos_right h1 (by positivity)
        _ = 10 ^ n := by rw [← pow_add, Nat.sub_add_cancel hadd]
        _ ≤ 10 ^ 9 := Nat.pow_le_pow_right (by norm_num) hn
        _ = DIGITSBASE := by norm_num
    refine ⟨[_], ?_, rfl, digits_cons.mpr ⟨hlt, Digits.nil⟩, ?_⟩
    · simp only [readDigits, if_true, hread, Option.bind_eq_bind, Option.bind_some,
        fill_eq additional _ True trivial]
      rfl
    · rw [number_cons, number_nil, mul_zero, add_zero]
      rfl
  | succ i ih =>
    intro n rest hn hadd hadd9 hlen hdigits
    have hadd9 : additional ≤ 9 := hadd9 i.succ_pos
    have hcut : n + 9 * (i + 1) - additional = n + (9 + 9 * i - additional) := by omega
    rw [hcut] at hlen hdigits ⊢
    obtain ⟨rest', hread, hrest⟩ := readDigit_spec rest n 0 (by omega)
    rw [Nat.zero_mul, Nat.zero_add] at hread
    have htake : (withoutPoint rest).take (n + (9 + 9 * i - additional)) =
        (withoutPoint rest).take n ++ (withoutPoint rest').take (9 + 9 * i - additional) := by
      rw [List.take_add, hrest]
    rw [htake] at hdigits ⊢
    obtain ⟨hfirst, hothers⟩ := Numeral.digits_append.mp hdigits
    have hlen' : 9 + 9 * i - additional ≤ (withoutPoint rest').length := by
      rw [hrest, List.length_drop]
      omega
    obtain ⟨lower, hlower, hlowerlen, hlowerdigits, hnumber⟩ :=
      ih 9 rest' le_rfl (by omega) (fun _ => hadd9) hlen' hothers
    have hlt : numeral ((withoutPoint rest).take n) < DIGITSBASE := by
      have h1 := numeral_lt hfirst
      rw [List.length_take_of_le (by omega)] at h1
      exact h1.trans_le ((Nat.pow_le_pow_right (by norm_num) hn).trans (by norm_num))
    refine ⟨lower ++ [numeral ((withoutPoint rest).take n)], ?_, ?_, ?_, ?_⟩
    · rw [readDigits]
      simp only [Nat.succ_ne_zero, if_false, false_and, hread, Option.bind_eq_bind,
        Option.bind_some, hlower]
      rfl
    · rw [List.length_append, hlowerlen, List.length_singleton]
    · exact digits_append.mpr ⟨hlowerdigits, digits_cons.mpr ⟨hlt, Digits.nil⟩⟩
    · rw [number_append, hnumber, hlowerlen, number_cons, number_nil, mul_zero, add_zero,
        numeral_append, List.length_take_of_le hlen']
      have hpow : base ^ (i + 1) = 10 ^ (9 + 9 * i - additional) * 10 ^ additional := by
        rw [base, ← pow_mul, ← pow_add]
        congr 1
        omega
      rw [hpow]
      push_cast
      ring

/-! ## Where the second pass begins -/

theorem isDigit_charPoint : isDigit charPoint = false := by decide

theorem withoutPoint_append {ds : List UInt8} (h : Numeral.Digits ds) (r : List UInt8) :
    withoutPoint (ds ++ r) = ds ++ withoutPoint r := by
  rw [withoutPoint, List.filter_append, withoutPoint]
  congr 1
  rw [List.filter_eq_self]
  intro c hc
  have hne : c ≠ charPoint := by
    rintro rfl
    have := h _ hc
    rw [isDigit_charPoint] at this
    cases this
  simpa using hne

theorem Parts.second_pass {decimalstr : List UInt8} {isNegSign : Bool}
    {int fract ftext rest : List UInt8} (h : Parts decimalstr isNegSign int fract ftext rest)
    (hne : significant (int ++ fract) ≠ []) :
    ∃ more, withoutPoint (decimalstr.drop (isNegSign.toNat + leadzeros (int ++ fract) +
      (decide (int.length ≤ leadzeros (int ++ fract))).toNat)) =
        significant (int ++ fract) ++ more := by
  have hfract := h.fract_digits
  have hdrop := h.drop
  obtain ⟨-, hint, hftext, -, -, -⟩ := h
  have hsig : (int ++ fract).drop (leadzeros (int ++ fract)) =
      significant (int ++ fract) ++
        List.replicate (trailing ((int ++ fract).drop (leadzeros (int ++ fract))) 0) charZero := by
    have := congrArg (List.drop (leadzeros (int ++ fract))) (eq_significant (int ++ fract))
    rwa [List.drop_left' (List.length_replicate ..)] at this
  have hpos := List.length_pos_iff.mpr hne
  rw [length_significant, List.length_append] at hpos
  rcases Nat.lt_or_ge (leadzeros (int ++ fract)) int.length with hlt | hge
  · have hcut : (int ++ fract).drop (leadzeros (int ++ fract)) =
        int.drop (leadzeros (int ++ fract)) ++ fract := List.drop_append_of_le_length hlt.le
    have hwithout : withoutPoint (ftext ++ rest) = fract ++ withoutPoint rest := by
      cases hftext with
      | absent => rfl
      | point hds =>
        rw [← withoutPoint_append hds]
        rfl
    rw [decide_eq_false (by omega), Bool.toNat_false, Nat.add_zero, hdrop,
      List.drop_append_of_le_length hlt.le, withoutPoint_append (hint.drop _), hwithout,
      ← List.append_assoc, ← hcut, hsig, List.append_assoc]
    exact ⟨_, rfl⟩
  · cases hftext with
    | absent =>
      rw [List.length_nil] at hpos
      omega
    | point hds =>
      obtain ⟨k, hk⟩ := Nat.exists_eq_add_of_le hge
      have hcut : (int ++ fract).drop (leadzeros (int ++ fract)) = fract.drop k := by
        rw [hk, List.drop_append, List.drop_of_length_le (by omega), Nat.add_sub_cancel_left,
          List.nil_append]
      have hkle : k ≤ fract.length := by omega
      rw [decide_eq_true hge, Bool.toNat_true, Nat.add_assoc, hdrop, hk, Nat.add_assoc,
        List.drop_append, List.drop_of_length_le (by omega), Nat.add_sub_cancel_left,
        List.nil_append, List.cons_append, List.drop_succ_cons,
        List.drop_append_of_le_length hkle, withoutPoint_append (hds.drop _), ← hcut, hsig,
        List.append_assoc]
      exact ⟨_, rfl⟩

/-! ## What is stored -/

theorem alignexponentDecimalhelper_spec {e : ℤ} {additional : ℕ}
    (h : alignexponentDecimalhelper e = .ok additional) :
    e.natAbs ≤ expmaxDecimal ∧ additional ≤ 8 ∧ ∃ q, e = 9 * q + additional := by
  rw [alignexponentDecimalhelper] at h
  split_ifs at h with hmax
  have hadd := Except.ok.inj h
  have hmod := Int.tmod_add_mul_tdiv e 9
  have hlt := Int.tmod_lt_of_pos e (by norm_num : (0 : ℤ) < 9)
  have hgt := Int.lt_tmod_of_pos e (by norm_num : (0 : ℤ) < 9)
  refine ⟨not_lt.mp hmax, ?_, ?_⟩
  · split_ifs at hadd <;> omega
  · split_ifs at hadd with hneg
    · exact ⟨e.tdiv 9 - 1, by omega⟩
    · exact ⟨e.tdiv 9, by omega⟩

theorem alignexponentDecimalhelper_error {e : ℤ} {err : Errno}
    (h : alignexponentDecimalhelper e = .error err) : err = .EOVERFLOW := by
  rw [alignexponentDecimalhelper] at h
  split_ifs at h
  exact (Except.error.inj h).symm

theorem allocateDecimalhelper_error {dec : Decimal} {size : ℕ} {err : Errno}
    (h : allocateDecimalhelper dec size = .error err) : err = .EOVERFLOW := by
  rw [allocateDecimalhelper] at h
  split_ifs at h
  exact (Except.error.inj h).symm

theorem int32_of_le {z : ℤ} (hlo : -(2 ^ 31) - expLimit ≤ z) (hhi : z ≤ 2 ^ 31 + expLimit)
    (hmax : (int32 z).natAbs ≤ expmaxDecimal) : int32 z = z := by
  have hlimit : expLimit = 296046 := by decide
  have hexp : expmaxDecimal = 294903 := by decide
  rw [int32] at hmax ⊢
  omega

theorem int32_natCast {n : ℕ} (hn : n < 2 ^ 31) : int32 n = n := by
  rw [int32]
  omega

theorem readDigits_significant {ds more text : List UInt8} {additional : ℕ}
    (hdigits : Numeral.Digits ds) (hhead : ds.head? ≠ some charZero) (hne : ds ≠ [])
    (hadd : additional ≤ 8) (htext : withoutPoint text = ds ++ more) :
    ∃ out, readDigits additional ((ds.length + additional + 8) / 9)
        (if (ds.length + additional) % 9 = 0 then 9 else (ds.length + additional) % 9) text =
          some out ∧
      out.length = (ds.length + additional + 8) / 9 ∧ Digits out ∧ Leading out ∧
      number out = ((numeral ds * 10 ^ additional : ℕ) : ℤ) := by
  obtain ⟨c, cs, rfl⟩ := List.exists_cons_of_ne_nil hne
  obtain ⟨i, hi⟩ : ∃ i, ((c :: cs).length + additional + 8) / 9 = i + 1 := by
    refine ⟨((c :: cs).length + additional + 8) / 9 - 1, ?_⟩
    rw [List.length_cons]
    omega
  obtain ⟨n, hn⟩ : ∃ n, n = if ((c :: cs).length + additional) % 9 = 0 then 9
      else ((c :: cs).length + additional) % 9 := ⟨_, rfl⟩
  have htotal : n + 9 * i = (c :: cs).length + additional ∧ n ≤ 9 := by
    rw [List.length_cons] at hi hn ⊢
    split_ifs at hn <;> omega
  have hcount : n + 9 * i - additional = (c :: cs).length := by omega
  have htake : (withoutPoint text).take (n + 9 * i - additional) = c :: cs := by
    rw [hcount, htext, List.take_left]
  obtain ⟨out, hread, hlen, hout, hnumber⟩ := readDigits_spec additional i n text htotal.2
    (by omega) (fun _ => by omega) (by rw [hcount, htext, List.length_append]; omega)
    (by rwa [htake])
  rw [htake] at hnumber
  rw [← hn, hi]
  refine ⟨out, hread, hlen, hout, leading_of_pow_le hout ?_, hnumber⟩
  -- the first digit is not zero, so the number fills all of its digits
  obtain ⟨hc, -⟩ := Numeral.digits_cons.mp hdigits
  have hle : 10 ^ cs.length ≤ numeral (c :: cs) :=
    le_numeral hc fun h0 => hhead (by rw [h0]; rfl)
  rw [hnumber, hlen, Nat.add_sub_cancel, base, ← pow_mul]
  have hpow : 9 * i ≤ cs.length + additional := by
    rw [List.length_cons] at htotal
    have hn0 : 0 < n := by split_ifs at hn <;> omega
    omega
  calc (10 : ℤ) ^ (9 * i) ≤ 10 ^ (cs.length + additional) :=
        pow_le_pow_right₀ (by norm_num) hpow
    _ = ((10 ^ cs.length * 10 ^ additional : ℕ) : ℤ) := by
        rw [pow_add]
        push_cast
        rfl
    _ ≤ ((numeral (c :: cs) * 10 ^ additional : ℕ) : ℤ) :=
        Int.ofNat_le.mpr (Nat.mul_le_mul_right _ hle)

/-- **The number that is stored**, if there is no overflow. -/
theorem storeDigits_spec (dec : Decimal) {decimalstr : List UInt8} {isNegSign : Bool}
    {int fract ftext rest : List UInt8} (h : Parts decimalstr isNegSign int fract ftext rest)
    (hlen : decimalstr.length < 2 ^ 31) (hne : significant (int ++ fract) ≠ []) {exponent : ℤ}
    (hlo : -expLimit ≤ exponent) (hhi : exponent ≤ expLimit) :
    storeDigits dec decimalstr (scanMantissa decimalstr) (significant (int ++ fract)).length
        exponent = some (.error .EOVERFLOW, dec) ∨
      ∃ new, storeDigits dec decimalstr (scanMantissa decimalstr)
          (significant (int ++ fract)).length exponent = some (.ok (), new) ∧
        new.Represents isNegSign
          (numeral (int ++ fract) * (10 : ℚ) ^ (exponent - fract.length)) := by
  obtain ⟨more, hmore⟩ := h.second_pass hne
  have hdigits : Numeral.Digits (significant (int ++ fract)) :=
    digits_significant (Numeral.digits_append.mpr ⟨h.int_digits, h.fract_digits⟩)
  have hlensig := length_significant (int ++ fract)
  have hpos := List.length_pos_iff.mpr hne
  obtain ⟨trailzero, htrail⟩ : ∃ n, n = trailing ((int ++ fract).drop
      (leadzeros (int ++ fract))) 0 := ⟨_, rfl⟩
  have hnumeral := numeral_eq_significant (int ++ fract)
  rw [← htrail] at hlensig hnumeral
  have hlens : fract.length < 2 ^ 31 ∧ trailzero < 2 ^ 31 := by
    have hfract : fract.length ≤ ftext.length := by
      cases h.fraction with
      | absent => exact le_rfl
      | point hds => exact Nat.le_succ _
    have hall := congrArg List.length h.eq
    simp only [List.length_append] at hall hlensig
    omega
  -- the exponent of the last significant digit
  have hexp : (if trailzero ≤ fract.length then
        int32 (exponent - int32 (fract.length - trailzero : ℕ))
      else int32 (exponent + int32 (trailzero - fract.length : ℕ))) =
      int32 (exponent - fract.length + trailzero) := by
    split_ifs with hle
    · rw [int32_natCast (by omega), Nat.cast_sub hle]
      congr 1
      ring
    · rw [int32_natCast (by omega), Nat.cast_sub (by omega)]
      congr 1
      ring
  simp only [storeDigits, scanMantissa_eq h, ← htrail, hexp]
  cases halign : alignexponentDecimalhelper (int32 (exponent - fract.length + trailzero)) with
  | error err =>
    left
    rw [alignexponentDecimalhelper_error halign]
  | ok additional =>
    obtain ⟨hmax, hadd, q, hq⟩ := alignexponentDecimalhelper_spec halign
    have hwrap : int32 (exponent - fract.length + trailzero) =
        exponent - fract.length + trailzero := int32_of_le (by omega) (by omega) hmax
    rw [hwrap] at hmax hq
    have haligned : (exponent - fract.length + trailzero - additional).tdiv 9 = q := by
      rw [hq, add_sub_cancel_right, Int.mul_tdiv_cancel_left _ (by norm_num)]
    have hbounds : -32768 ≤ q ∧ q ≤ INT16_MAX := by
      have hexpmax : expmaxDecimal = 294903 := by decide
      rw [INT16_MAX]
      omega
    dsimp only
    rw [hwrap, haligned]
    cases halloc : allocateDecimalhelper dec (((significant (int ++ fract)).length +
        additional + 8) / 9) with
    | error err =>
      left
      rw [allocateDecimalhelper_error halloc]
    | ok new =>
      right
      obtain ⟨out, hread, hout, hdigs, hlead, hnumber⟩ := readDigits_significant hdigits
        (head_significant (int ++ fract)) hne hadd hmore
      have hsize := allocateDecimalhelper_le halloc
      have htake : out.take (((significant (int ++ fract)).length + additional + 8) / 9) = out := by
        rw [← hout, List.take_length]
      have hsign : (decide (((significant (int ++ fract)).length + additional + 8) / 9 ≠ 0) &&
          isNegSign) = isNegSign := by
        rw [decide_eq_true (by omega), Bool.true_and]
      refine ⟨_, by rw [hread, hsign]; rfl, ?_⟩
      refine assign_represents new isNegSign hsize hout.ge hbounds.1 hbounds.2 (by rwa [htake])
        (by rwa [htake]) (by omega) ?_
      rw [htake, hnumber, hnumeral, base]
      have hten : (10 : ℚ) ≠ 0 := by norm_num
      have hsplit : exponent - fract.length = 9 * q + additional - trailzero := by omega
      rw [hsplit, zpow_sub₀ hten, zpow_add₀ hten, zpow_mul, zpow_natCast, zpow_natCast]
      push_cast
      field_simp

/-! ## The text determines the number -/

theorem ExponentText.stops {etext : List UInt8} {e : ℤ} (h : ExponentText etext e) :
    Stops isDigit etext ∧ etext.head? ≠ some charPoint := by
  cases h with
  | absent => exact ⟨fun c hc => (by cases hc), by simp⟩
  | plain hne hds | plus hne hds | minus hne hds =>
    refine ⟨fun c hc => ?_, by simp [charE, charPoint]⟩
    obtain rfl : charE = c := Option.some.inj hc
    decide

theorem not_digits_cons {c : UInt8} {ds : List UInt8} (hc : isDigit c = false) :
    ¬ Numeral.Digits (c :: ds) := by
  rw [Numeral.digits_cons, hc]
  simp

theorem ExponentText.unique {etext etext' : List UInt8} {e e' : ℤ} (h : ExponentText etext e)
    (h' : ExponentText etext' e') (heq : etext = etext') : e = e' := by
  cases h with
  | absent =>
    cases h' with
    | absent => rfl
    | plain | plus | minus => cases heq
  | plain hne hds =>
    cases h' with
    | absent => cases heq
    | plain hne' hds' => rw [List.tail_eq_of_cons_eq heq]
    | plus hne' hds' | minus hne' hds' =>
      rw [List.tail_eq_of_cons_eq heq] at hds
      exact absurd hds (not_digits_cons (by decide))
  | plus hne hds =>
    cases h' with
    | absent => cases heq
    | plain hne' hds' =>
      rw [← List.tail_eq_of_cons_eq heq] at hds'
      exact absurd hds' (not_digits_cons (by decide))
    | plus hne' hds' => rw [List.tail_eq_of_cons_eq (List.tail_eq_of_cons_eq heq)]
    | minus hne' hds' =>
      exact absurd (List.head_eq_of_cons_eq (List.tail_eq_of_cons_eq heq)) (by decide)
  | minus hne hds =>
    cases h' with
    | absent => cases heq
    | plain hne' hds' =>
      rw [← List.tail_eq_of_cons_eq heq] at hds'
      exact absurd hds' (not_digits_cons (by decide))
    | plus hne' hds' =>
      exact absurd (List.head_eq_of_cons_eq (List.tail_eq_of_cons_eq heq)) (by decide)
    | minus hne' hds' => rw [List.tail_eq_of_cons_eq (List.tail_eq_of_cons_eq heq)]

theorem parts_of_text (isNegSign : Bool) {int fract ftext etext : List UInt8} {e : ℤ}
    (hint : Numeral.Digits int) (hfract : FractionText ftext fract) (hexp : ExponentText etext e)
    (hne : int ++ fract ≠ []) :
    Parts (signText isNegSign ++ (int ++ (ftext ++ etext))) isNegSign int fract ftext etext := by
  refine ⟨rfl, hint, hfract, hexp.stops.1, fun _ => hexp.stops.2, ?_⟩
  rintro rfl hminus
  rw [signText, if_neg (by simp), List.nil_append] at hminus
  cases int with
  | nil =>
    cases hfract with
    | absent => exact hne rfl
    | point hds =>
      exact absurd (Option.some.inj hminus) (by decide)
  | cons c cs =>
    obtain rfl : c = charMinus := Option.some.inj hminus
    exact not_digits_cons (by decide) hint

theorem Parts.unique {decimalstr : List UInt8} {b b' : Bool}
    {int fract ftext rest int' fract' ftext' rest' : List UInt8}
    (h : Parts decimalstr b int fract ftext rest)
    (h' : Parts decimalstr b' int' fract' ftext' rest') :
    b = b' ∧ int = int' ∧ fract = fract' ∧ rest = rest' := by
  obtain rfl : b = b' := h.isNegSign_eq.symm.trans h'.isNegSign_eq
  have htext := (h.drop 0).symm.trans (h'.drop 0)
  rw [List.drop_zero, List.drop_zero] at htext
  obtain ⟨rfl, htail⟩ := append_inj_of_stops h.int_digits h.stops_fraction h'.int_digits
    h'.stops_fraction htext
  refine ⟨rfl, rfl, ?_⟩
  have hpoint := h.point
  have hpoint' := h'.point
  cases h.fraction with
  | absent =>
    cases h'.fraction with
    | absent => exact ⟨rfl, htail⟩
    | point hds' =>
      rw [List.nil_append] at htail
      exact absurd (by rw [htail]; rfl) (hpoint rfl)
  | point hds =>
    cases h'.fraction with
    | absent =>
      rw [List.nil_append] at htail
      exact absurd (by rw [← htail]; rfl) (hpoint' rfl)
    | point hds' =>
      rw [List.cons_append, List.cons_append] at htail
      exact append_inj_of_stops hds h.stops hds' h'.stops (List.tail_eq_of_cons_eq htail)

/-- **The grammar is unambiguous.** -/
theorem Denotes.unique {decimalstr : List UInt8} {v v' : ℚ} (h : Denotes decimalstr v)
    (h' : Denotes decimalstr v') : v = v' := by
  obtain ⟨b, hint, hfract, hexp, hne⟩ := h
  generalize htext : signText b ++ _ = decimalstr at h'
  obtain ⟨b', hint', hfract', hexp', hne'⟩ := h'
  have hp := parts_of_text b hint hfract hexp hne
  rw [htext] at hp
  obtain ⟨rfl, rfl, rfl, heq⟩ := hp.unique (parts_of_text b' hint' hfract' hexp' hne')
  rw [hexp.unique hexp' heq]

/-! ## Reading a decimal -/

theorem setPcharDecimal_cases (dec : Decimal) {decimalstr : List UInt8}
    (hlen : decimalstr.length < 2 ^ 31) :
    (∃ err, setPcharDecimal dec decimalstr = some (.error err, dec)) ∨
      ∃ new v, setPcharDecimal dec decimalstr = some (.ok (), new) ∧ Denotes decimalstr v ∧
        new.WellFormed ∧ new.value = v := by
  obtain ⟨isNegSign, int, fract, ftext, rest, h⟩ := exists_parts decimalstr
  have hm := scanMantissa_eq h
  have hcount : fract.length + int.length - leadzeros (int ++ fract) -
      trailing ((int ++ fract).drop (leadzeros (int ++ fract))) 0 =
        (significant (int ++ fract)).length := by
    rw [length_significant, List.length_append, Nat.add_comm]
  have hoff : decimalstr.drop (isNegSign.toNat + (int.length + ftext.length)) = rest := by
    rw [h.drop, ← List.append_assoc, List.drop_left' (List.length_append ..)]
  rw [setPcharDecimal]
  simp only [hm, hcount]
  by_cases hover : nrdigitsmaxDecimal < (significant (int ++ fract)).length
  · rw [if_pos hover]
    exact .inl ⟨_, rfl⟩
  · rw [if_neg hover]
    rcases scanExponentpart_spec (significant (int ++ fract)).length hoff with
      herr | ⟨x, hok, hreads⟩
    · rw [herr]
      exact .inl ⟨_, rfl⟩
    · rw [hok]
      dsimp only
      by_cases hcheck : fract.length + int.length = 0 ∨
          (x.nrexponentdigits = 0 ∧ x.isExponentPart = true) ∨ x.offset ≠ decimalstr.length
      · rw [if_pos hcheck]
        exact .inl ⟨_, rfl⟩
      · rw [if_neg hcheck]
        simp only [not_or, ne_eq, not_not] at hcheck
        obtain ⟨hmantissa, hdig, hend⟩ := hcheck
        obtain ⟨e, hexp, hpos, hzero, hlo, hhi⟩ := hreads ⟨hdig, hend⟩
        have hne : int ++ fract ≠ [] := by
          intro hnil
          have := congrArg List.length hnil
          rw [List.length_append, List.length_nil] at this
          omega
        have hden := Denotes.intro isNegSign h.int_digits h.fraction hexp hne
        rw [← h.eq] at hden
        by_cases hsig : (significant (int ++ fract)).length ≠ 0
        · have hstore := storeDigits_spec dec h hlen (fun hnil => hsig (by rw [hnil]; rfl)) hlo hhi
          rw [hm, hpos hsig] at hstore
          rw [if_pos hsig, hpos hsig]
          rcases hstore with herr | ⟨new, hnew, hwf, hvalue⟩
          · exact .inl ⟨_, herr⟩
          · exact .inr ⟨new, _, hnew, hden, hwf, hvalue⟩
        · have hnil : significant (int ++ fract) = [] :=
            List.eq_nil_of_length_eq_zero (not_not.mp hsig)
          have hx : x.exponent = 0 := hzero (not_not.mp hsig)
          rw [if_neg hsig, hx]
          rw [numeral_eq_significant, hnil, numeral_nil, Nat.zero_mul, Nat.cast_zero,
            zero_mul] at hden
          obtain ⟨hwf, hvalue⟩ := @represents_zero (dec.assign false 0 0 [])
            (by decide : signAndSize false 0 = 0) (by decide : int16 0 = 0) isNegSign
          exact .inr ⟨_, _, rfl, hden, hwf, hvalue⟩

/-- **Reading a decimal is exact.**  The function ends without an access outside of the text.  A
text that is not of the grammar is refused with an error; a text that is not refused is of the
grammar, and the object stores the number that it denotes.  After an error the object is as
before. -/
theorem setPcharDecimal_exact (dec : Decimal) {decimalstr : List UInt8}
    (hlen : decimalstr.length < 2 ^ 31) :
    ∃ err new, setPcharDecimal dec decimalstr = some (err, new) ∧
      ((∀ v, ¬ Denotes decimalstr v) → err = .error .EINVAL ∨ err = .error .EOVERFLOW) ∧
      (err = .ok () → (∃ v, Denotes decimalstr v) ∧
        ∀ v, Denotes decimalstr v → new.WellFormed ∧ new.value = v) ∧
      (err ≠ .ok () → new = dec) := by
  rcases setPcharDecimal_cases dec hlen with ⟨err, herr⟩ | ⟨new, v, hok, hden, hwf, hvalue⟩
  · refine ⟨_, _, herr, fun _ => ?_, fun h => (by cases h), fun _ => rfl⟩
    cases err
    · exact .inl rfl
    · exact .inr rfl
  · refine ⟨_, _, hok, fun hno => absurd hden (hno v), fun _ => ⟨⟨v, hden⟩, fun w hw => ?_⟩,
      fun h => absurd rfl h⟩
    exact ⟨hwf, hvalue.trans (hden.unique hw)⟩

/-- The text `-1.5e1`. -/
theorem setPcharDecimal_exact_small :
    ∃ err new, setPcharDecimal ⟨1, 0, 0, [], by decide⟩ [45, 49, 46, 53, 101, 49] =
        some (err, new) ∧
      ((∀ v, ¬ Denotes [45, 49, 46, 53, 101, 49] v) →
        err = .error .EINVAL ∨ err = .error .EOVERFLOW) ∧
      (err = .ok () → (∃ v, Denotes [45, 49, 46, 53, 101, 49] v) ∧
        ∀ v, Denotes [45, 49, 46, 53, 101, 49] v → new.WellFormed ∧ new.value = v) ∧
      (err ≠ .ok () → new = ⟨1, 0, 0, [], by decide⟩) :=
  setPcharDecimal_exact ⟨1, 0, 0, [], by decide⟩ (by decide)

example : setPcharDecimal ⟨1, 0, 0, [], by decide⟩ [45, 49, 46, 53, 101, 49] =
    some (.ok (), ⟨1, 0x81, 0, [15], by decide⟩) := by decide

end Decimal
end CKern
