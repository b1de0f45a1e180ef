import Mathlib.Algebra.BigOperators.Group.List.Basic
import Mathlib.Tactic.Ring

/-!
# Decimal numerals in a text

* `isDigit`, `Digits`: the characters `0` to `9`, and the texts that have no others.
* `numeral`: the number that a row of digits stands for.
* `numeral_append`: the number of a row that is cut in two.
* `numeral_lt`, `le_numeral`: the bounds that the length of the row gives.
* `numeral_replicate_zero`: leading zeros count nothing.
* `Stops`: a run of characters ends here, as `List.dropWhile` leaves it; `append_inj_of_stops`: the
  text determines its runs.
-/

namespace CKern
namespace Numeral

/-- The digits are the characters 48 to 57. -/
def isDigit (c : UInt8) : Bool := 48 ≤ c && c ≤ 57

/-- The value of a digit. -/
def digitVal (c : UInt8) : ℕ := c.toNat - 48

/-- The text has only digits. -/
def Digits (ds : List UInt8) : Prop := ∀ c ∈ ds, isDigit c = true

instance (ds : List UInt8) : Decidable (Digits ds) :=
  inferInstanceAs (Decidable (∀ c ∈ ds, isDigit c = true))

/-- The number that a row of digits stands for, read from left to right. -/
def numeral (ds : List UInt8) : ℕ := ds.foldl (fun v c => v * 10 + digitVal c) 0

theorem digitVal_lt {c : UInt8} (h : isDigit c = true) : digitVal c < 10 := by
  rw [isDigit, Bool.and_eq_true, decide_eq_true_eq, decide_eq_true_eq, UInt8.le_iff_toNat_le,
    UInt8.le_iff_toNat_le] at h
  have h57 : (57 : UInt8).toNat = 57 := rfl
  rw [digitVal]
  omega

theorem digitVal_pos {c : UInt8} (h : isDigit c = true) (h0 : c ≠ 48) : 0 < digitVal c := by
  rw [isDigit, Bool.and_eq_true, decide_eq_true_eq, UInt8.le_iff_toNat_le] at h
  have h48 : (48 : UInt8).toNat = 48 := rfl
  have hne : c.toNat ≠ 48 := fun heq => h0 (UInt8.toNat_inj.mp heq)
  rw [digitVal]
  omega

theorem digits_nil : Digits [] := by
  intro c hc
  cases hc

theorem digits_cons {c : UInt8} {ds : List UInt8} :
    Digits (c :: ds) ↔ isDigit c = true ∧ Digits ds := by
  simp [Digits]

theorem digits_append {xs ys : List UInt8} : Digits (xs ++ ys) ↔ Digits xs ∧ Digits ys := by
  simp only [Digits, List.mem_append]
  exact ⟨fun h => ⟨fun c hc => h c (.inl hc), fun c hc => h c (.inr hc)⟩,
    fun h c hc => hc.elim (h.1 c) (h.2 c)⟩

theorem Digits.take {ds : List UInt8} (h : Digits ds) (n : ℕ) : Digits (ds.take n) :=
  fun c hc => h c (List.mem_of_mem_take hc)

theorem Digits.drop {ds : List UInt8} (h : Digits ds) (n : ℕ) : Digits (ds.drop n) :=
  fun c hc => h c (List.mem_of_mem_drop hc)

@[simp] theorem numeral_nil : numeral [] = 0 := rfl

theorem foldl_numeral (ds : List UInt8) (v : ℕ) :
    ds.foldl (fun v c => v * 10 + digitVal c) v = v * 10 ^ ds.length + numeral ds := by
  induction ds generalizing v with
  | nil => simp
  | cons c ds ih =>
    have hcons : numeral (c :: ds) = (0 * 10 + digitVal c) * 10 ^ ds.length + numeral ds := ih _
    rw [List.foldl_cons, ih, hcons, List.length_cons]
    ring

theorem numeral_cons (c : UInt8) (ds : List UInt8) :
    numeral (c :: ds) = digitVal c * 10 ^ ds.length + numeral ds := by
  rw [numeral, List.foldl_cons, foldl_numeral, Nat.zero_mul, Nat.zero_add]

theorem numeral_append (xs ys : List UInt8) :
    numeral (xs ++ ys) = numeral xs * 10 ^ ys.length + numeral ys := by
  rw [numeral, List.foldl_append, foldl_numeral]
  rfl

theorem numeral_lt {ds : List UInt8} (h : Digits ds) : numeral ds < 10 ^ ds.length := by
  induction ds with
  | nil => simp
  | cons c ds ih =>
    obtain ⟨hc, hds⟩ := digits_cons.mp h
    have h1 : digitVal c ≤ 9 := Nat.le_of_lt_succ (digitVal_lt hc)
    have h2 := Nat.mul_le_mul_right (10 ^ ds.length) h1
    have h3 := ih hds
    rw [numeral_cons, List.length_cons, pow_succ]
    omega

theorem le_numeral {c : UInt8} {ds : List UInt8} (h : isDigit c = true) (h0 : c ≠ 48) :
    10 ^ ds.length ≤ numeral (c :: ds) := by
  rw [numeral_cons]
  exact (Nat.le_mul_of_pos_left _ (digitVal_pos h h0)).trans (Nat.le_add_right ..)

theorem numeral_replicate_zero (n : ℕ) : numeral (List.replicate n 48) = 0 := by
  induction n with
  | zero => rfl
  | succ n ih =>
    rw [List.replicate_succ, numeral_cons, ih]
    simp [digitVal]

/-! ## Runs of characters -/

/-- What follows does not begin with a character of the run. -/
def Stops (p : UInt8 → Bool) (ys : List UInt8) : Prop := ∀ c ∈ ys.head?, p c = false

theorem stops_dropWhile (p : UInt8 → Bool) (xs : List UInt8) : Stops p (xs.dropWhile p) := by
  induction xs with
  | nil =>
    intro c hc
    cases hc
  | cons x xs ih =>
    rw [List.dropWhile_cons]
    split_ifs with hx
    · exact ih
    · intro c hc
      obtain rfl : x = c := Option.some.inj hc
      exact Bool.eq_false_iff.mpr hx

theorem takeWhile_append_of_stops {p : UInt8 → Bool} {xs ys : List UInt8}
    (hxs : ∀ c ∈ xs, p c = true) (hys : Stops p ys) : (xs ++ ys).takeWhile p = xs := by
  induction xs with
  | nil =>
    cases ys with
    | nil => rfl
    | cons y ys => exact List.takeWhile_cons_of_neg (Bool.eq_false_iff.mp (hys y rfl))
  | cons x xs ih =>
    rw [List.cons_append, List.takeWhile_cons_of_pos (hxs x List.mem_cons_self),
      ih fun c hc => hxs c (List.mem_cons_of_mem x hc)]

theorem append_inj_of_stops {p : UInt8 → Bool} {xs xs' ys ys' : List UInt8}
    (hxs : ∀ c ∈ xs, p c = true) (hys : Stops p ys) (hxs' : ∀ c ∈ xs', p c = true)
    (hys' : Stops p ys') (h : xs ++ ys = xs' ++ ys') : xs = xs' ∧ ys = ys' := by
  have heq : xs = xs' := by
    rw [← takeWhile_append_of_stops hxs hys, h, takeWhile_append_of_stops hxs' hys']
  subst heq
  exact ⟨rfl, List.append_cancel_left h⟩

end Numeral
end CKern
