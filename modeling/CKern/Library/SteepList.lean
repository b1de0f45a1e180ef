import Mathlib.Data.Nat.Notation
import Mathlib.Order.Nat
import Mathlib.Algebra.Order.Ring.Nat

/-!
# Lists that grow like the Fibonacci numbers

A list is steep if every entry is bigger than the sum of the two entries in front of it, and the
second one bigger than the first.

* `steep_iff`: the definition, said with indices.
* `fibSum`, `Steep.fibSum_le`: the sum of a steep list is at least that of a Fibonacci sequence that starts
  with the bounds of its first two entries.
-/

namespace CKern

/-- Every entry is bigger than the sum of the two in front of it. -/
def Steep : List ℕ → Prop
  | a :: b :: l => a < b ∧ (∀ c ∈ l.head?, a + b < c) ∧ Steep (b :: l)
  | _ => True

namespace Steep

variable {a b c : ℕ} {l : List ℕ}

theorem nil : Steep [] := True.intro

theorem single (a : ℕ) : Steep [a] := True.intro

theorem tail (h : Steep l) : Steep l.tail := by
  match l with
  | [] => exact nil
  | [a] => exact nil
  | a :: b :: l => exact h.2.2

theorem drop (h : Steep l) (n : ℕ) : Steep (l.drop n) := by
  induction n with
  | zero => exact h
  | succ n ih =>
    rw [← List.tail_drop]
    exact ih.tail

theorem cons_cons (hab : a < b) (hbc : ∀ c ∈ l.head?, a + b < c) (h : Steep (b :: l)) :
    Steep (a :: b :: l) :=
  ⟨hab, hbc, h⟩

end Steep

theorem steep_iff (l : List ℕ) :
    Steep l ↔ (∀ i, i + 2 < l.length → l.getD i 0 + l.getD (i + 1) 0 < l.getD (i + 2) 0) ∧
      (1 < l.length → l.getD 0 0 < l.getD 1 0) := by
  induction l with
  | nil => exact ⟨fun _ => ⟨fun _ h => absurd h (Nat.not_lt_zero _),
      fun h => absurd h (Nat.not_lt_zero _)⟩, fun _ => True.intro⟩
  | cons a l ih =>
    match l with
    | [] => exact ⟨fun _ => ⟨fun _ h => absurd (Nat.lt_of_succ_lt_succ h) (Nat.not_lt_zero _),
        fun h => absurd (Nat.lt_of_succ_lt_succ h) (Nat.not_lt_zero _)⟩, fun _ => True.intro⟩
    | [b] =>
      refine ⟨fun h => ⟨fun i hi => ?_, fun _ => h.1⟩, fun h => ⟨h.2 Nat.one_lt_two, ?_, True.intro⟩⟩
      · simp only [List.length_cons, List.length_nil] at hi
        omega
      · rintro c ⟨⟩
    | b :: c :: l =>
      constructor
      · rintro ⟨hab, hbc, hrest⟩
        refine ⟨fun i hi => ?_, fun _ => hab⟩
        cases i with
        | zero => exact hbc c rfl
        | succ i => exact (ih.mp hrest).1 i (Nat.lt_of_succ_lt_succ hi)
      · rintro ⟨hall, hab⟩
        have h0 : a + b < c := hall 0 (by simp)
        refine ⟨hab (by simp), ?_, ih.mpr ⟨fun i hi => hall (i + 1) (Nat.succ_lt_succ hi), fun _ => ?_⟩⟩
        · rintro d ⟨⟩
          exact h0
        · exact (Nat.le_add_left b a).trans_lt h0

/-- The sum of the first `n` numbers of the Fibonacci sequence that starts with `p` and `q`. -/
def fibSum : ℕ → ℕ → ℕ → ℕ
  | _, _, 0 => 0
  | p, q, n + 1 => p + fibSum q (p + q) n

theorem fibSum_mono (p q : ℕ) {n m : ℕ} (h : n ≤ m) : fibSum p q n ≤ fibSum p q m := by
  induction n generalizing p q m with
  | zero => exact Nat.zero_le _
  | succ n ih =>
    obtain ⟨k, rfl⟩ : ∃ k, m = k + 1 := ⟨m - 1, by omega⟩
    exact Nat.add_le_add_left (ih q (p + q) (Nat.le_of_succ_le_succ h)) p

/-- **A steep list has a big sum.**  The entries are one more than those of a Fibonacci sequence
would have to be. -/
theorem Steep.fibSum_le {l : List ℕ} (h : Steep l) {p q : ℕ} (hp : ∀ a ∈ l.head?, p ≤ a + 1)
    (hq : ∀ b ∈ l.tail.head?, q ≤ b + 1) : fibSum p q l.length ≤ l.sum + l.length := by
  induction l generalizing p q with
  | nil => exact le_refl 0
  | cons a l ih =>
    have hpa := hp a rfl
    have hrest : fibSum q (p + q) l.length ≤ l.sum + l.length := by
      refine ih h.tail hq fun c hc => ?_
      match l with
      | [] => cases hc
      | b :: l =>
        have hbc := h.2.1 c hc
        have hqb := hq b rfl
        omega
    rw [List.length_cons, fibSum, List.sum_cons]
    omega

end CKern
