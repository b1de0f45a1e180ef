import Mathlib.Data.Fintype.Card
import Mathlib.Data.Finset.Card

/-!
# The children of a multiway branch

* `numSet`: the number of children that are set.
* `numSet_update`: that number when one child is replaced.
* `exists_set_ne`, `eq_of_numSet_le_two`: a branch with at least two children that are set has
  another one besides any given one, and a branch with at most two has no third one.
-/

namespace CKern
namespace Multiway

open Function

variable {ι β : Type*} [Fintype ι] (isSet : β → Bool)

/-- The number of children that are set. -/
def numSet (child : ι → β) : ℕ := (Finset.univ.filter fun i => isSet (child i)).card

variable {isSet}

theorem exists_set_ne {child : ι → β} (h : 2 ≤ numSet isSet child) (i : ι) :
    ∃ j, j ≠ i ∧ isSet (child j) = true := by
  obtain ⟨j, hj, hji⟩ := Finset.exists_mem_ne (show 1 < numSet isSet child from h) i
  exact ⟨j, hji, (Finset.mem_filter.mp hj).2⟩

variable [DecidableEq ι]

theorem numSet_update (child : ι → β) (i : ι) (b : β) :
    numSet isSet (update child i b) =
      (Finset.univ.filter fun j => j ≠ i ∧ isSet (child j)).card + if isSet b then 1 else 0 := by
  unfold numSet
  by_cases hb : isSet b = true
  · have hinsert : (Finset.univ.filter fun j => isSet (update child i b j)) =
        insert i (Finset.univ.filter fun j => j ≠ i ∧ isSet (child j)) := by
      ext j
      by_cases hj : j = i
      · subst hj
        simp [hb]
      · simp [hj]
    rw [hinsert, if_pos hb, Finset.card_insert_of_notMem (by simp)]
  · have hsame : (Finset.univ.filter fun j => isSet (update child i b j)) =
        (Finset.univ.filter fun j => j ≠ i ∧ isSet (child j)) := by
      ext j
      by_cases hj : j = i
      · subst hj
        simp [hb]
      · simp [hj]
    rw [hsame, if_neg hb, Nat.add_zero]

theorem numSet_eq (child : ι → β) (i : ι) :
    numSet isSet child = (Finset.univ.filter fun j => j ≠ i ∧ isSet (child j)).card +
      if isSet (child i) then 1 else 0 := by
  rw [← numSet_update, update_eq_self]

theorem eq_of_numSet_le_two {child : ι → β} (h : numSet isSet child ≤ 2) {i j k : ι}
    (hi : isSet (child i) = true) (hj : j ≠ i ∧ isSet (child j) = true)
    (hk : k ≠ i ∧ isSet (child k) = true) : j = k := by
  rw [numSet_eq child i, if_pos hi] at h
  exact Finset.card_le_one.mp (Nat.le_of_succ_le_succ h) j (by simpa using hj) k (by simpa using hk)

theorem numSet_update_set {child : ι → β} {i : ι} {b : β} (h : isSet (child i) = false)
    (hb : isSet b = true) : numSet isSet (update child i b) = numSet isSet child + 1 := by
  rw [numSet_update, numSet_eq child i, hb, h]
  rfl

theorem numSet_update_unset {child : ι → β} {i : ι} {b : β} (h : isSet (child i) = true)
    (hb : isSet b = false) : numSet isSet (update child i b) + 1 = numSet isSet child := by
  rw [numSet_update, numSet_eq child i, hb, h]
  rfl

theorem numSet_two {child : ι → β} {i j : ι} (hij : i ≠ j) {b c : β}
    (hnone : ∀ k, isSet (child k) = false) (hb : isSet b = true) (hc : isSet c = true) :
    numSet isSet (update (update child i b) j c) = 2 := by
  have hzero : numSet isSet child = 0 := by
    unfold numSet
    rw [Finset.card_eq_zero, Finset.filter_eq_empty_iff]
    intro k _
    rw [hnone k]
    exact Bool.false_ne_true
  have hfree : isSet (update child i b j) = false := by
    rw [update_of_ne hij.symm]
    exact hnone j
  rw [numSet_update_set hfree hc, numSet_update_set (hnone i) hb, hzero]

end Multiway
end CKern
