import Mathlib.Data.List.Rotate
import Mathlib.Data.List.GetD
import Mathlib.Data.Nat.ModEq
import CKern.Library.Positional

/-!
# A list read as a ring

An array of fixed length whose indices wrap around, seen from an offset: the rotated list.

* `getD_rotate`, `rotate_set`: reading and writing a cell of the ring.
* `ringPass`: a pass with a carry that starts at some cell and wraps at the end of the array.
  `ringPass_rotate` says that it is a pass over consecutive cells of the rotated list.
-/

namespace CKern
namespace Cyclic

open Positional

variable {α β κ : Type*}

/-! ## Cells -/

theorem getD_rotate {l : List α} {o j : ℕ} (hj : j < l.length) (d : α) :
    (l.rotate o).getD j d = l.getD ((j + o) % l.length) d := by
  have hpos : 0 < l.length := by omega
  rw [List.getD_eq_getElem _ _ (by rwa [List.length_rotate]), List.getElem_rotate,
    List.getD_eq_getElem _ _ (Nat.mod_lt _ hpos)]

theorem add_mod_inj {n o i j : ℕ} (hi : i < n) (hj : j < n) (h : (i + o) % n = (j + o) % n) :
    i = j := by
  have h1 : Nat.ModEq n i j := Nat.ModEq.add_right_cancel' o h
  rwa [Nat.ModEq, Nat.mod_eq_of_lt hi, Nat.mod_eq_of_lt hj] at h1

theorem rotate_set {l : List α} {o j : ℕ} (hj : j < l.length) (x : α) :
    (l.set ((j + o) % l.length) x).rotate o = (l.rotate o).set j x := by
  refine List.ext_getElem (by simp) fun k hk hk' => ?_
  have hkl : k < l.length := by simpa using hk'
  rw [List.getElem_rotate, List.getElem_set, List.getElem_set, List.getElem_rotate]
  simp only [List.length_set]
  by_cases hkj : j = k
  · subst hkj
    simp
  · rw [if_neg fun h => hkj (add_mod_inj hj hkl h), if_neg hkj]

theorem rotate_pred {l : List α} {o : ℕ} (hpos : 1 ≤ o) (hle : o ≤ l.length) (d : α) :
    l.rotate o = (l.rotate o).dropLast ++ [l.getD (o - 1) d] ∧
      l.rotate (if o - 1 = 0 then l.length else o - 1) =
        l.getD (o - 1) d :: (l.rotate o).dropLast := by
  have hidx : o - 1 < l.length := by omega
  have htail : l.rotate (if o - 1 = 0 then l.length else o - 1) = l.drop (o - 1) ++ l.take (o - 1) := by
    split_ifs with h0
    · rw [List.rotate_length, h0, List.drop_zero, List.take_zero, List.append_nil]
    · exact List.rotate_eq_drop_append_take hidx.le
  have hdrop : l.drop (o - 1) = l.getD (o - 1) d :: l.drop o := by
    rw [List.drop_eq_getElem_cons hidx, List.getD_eq_getElem _ _ hidx, Nat.sub_add_cancel hpos]
  have htake : l.take o = l.take (o - 1) ++ [l.getD (o - 1) d] := by
    rw [List.getD_eq_getElem _ _ hidx, ← List.take_succ_eq_append_getElem hidx,
      Nat.sub_add_cancel hpos]
  have hrot : l.rotate o = (l.drop o ++ l.take (o - 1)) ++ [l.getD (o - 1) d] := by
    rw [List.rotate_eq_drop_append_take hle, htake, List.append_assoc]
  rw [hrot, List.dropLast_concat]
  exact ⟨rfl, by rw [htail, hdrop, List.cons_append]⟩

theorem rotate_read {l : List α} {o : ℕ} (hpos : 1 ≤ o) (hle : o ≤ l.length) (x d : α) :
    ∃ ds, l.rotate o = ds ++ [l.getD (o - 1) d] ∧
      (l.set (o - 1) x).rotate (if o - 1 = 0 then l.length else o - 1) = x :: ds := by
  have hidx : o - 1 = (l.length - 1 + o) % l.length := by
    rw [show l.length - 1 + o = o - 1 + l.length by omega, Nat.add_mod_right,
      Nat.mod_eq_of_lt (by omega)]
  have hsnoc := (rotate_pred hpos hle d).1
  refine ⟨(l.rotate o).dropLast, hsnoc, ?_⟩
  have hlast : l.length - 1 = (l.rotate o).dropLast.length := by
    rw [List.length_dropLast, List.length_rotate]
  have hset : (l.set (o - 1) x).rotate o = (l.rotate o).dropLast ++ [x] := by
    rw [hidx, rotate_set (by omega)]
    nth_rewrite 1 [hsnoc]
    rw [List.set_append_right _ _ hlast.ge, hlast, Nat.sub_self]
    rfl
  have hturn := (rotate_pred (l := l.set (o - 1) x) hpos (by rwa [List.length_set]) d).2
  have hcell : (l.set (o - 1) x).getD (o - 1) d = x := by
    rw [List.getD_eq_getElem _ _ (by rw [List.length_set]; omega), List.getElem_set_self]
  rwa [hset, List.dropLast_concat, hcell, List.length_set] at hturn

/-! ## A pass that wraps -/

variable (d : α) (step : κ → α × β → α × κ)

/-- A pass from the cell `i` on, with one step for every element of `ys`; behind the last cell the
pass goes on with the first one. -/
def ringPass : List α → ℕ → κ → List β → List α × κ
  | ring, _, c, [] => (ring, c)
  | ring, i, c, y :: ys =>
    let i := if i = ring.length then 0 else i
    let p := step c (ring.getD i d, y)
    ringPass (ring.set i p.1) (i + 1) p.2 ys

theorem ringPass_length (ring : List α) (i : ℕ) (c : κ) (ys : List β) :
    (ringPass d step ring i c ys).1.length = ring.length := by
  induction ys generalizing ring i c with
  | nil => rfl
  | cons y ys ih =>
    rw [ringPass]
    rw [ih, List.length_set]

/-- **The pass over the ring is a pass over the end of the rotated list.** -/
theorem ringPass_rotate {ring : List α} {o i j : ℕ} (c : κ) {ys : List β}
    (hj : j + ys.length = ring.length) (hi : i % ring.length = (j + o) % ring.length)
    (hle : i ≤ ring.length) :
    (ringPass d step ring i c ys).1.rotate o =
        (ring.rotate o).take j ++ (chain step c (((ring.rotate o).drop j).zip ys)).1 ∧
      (ringPass d step ring i c ys).2 = (chain step c (((ring.rotate o).drop j).zip ys)).2 := by
  induction ys generalizing ring i j c with
  | nil =>
    have hlen : (ring.rotate o).length = j := by simpa using hj.symm
    simp only [ringPass, List.zip_nil_right, chain_nil, List.append_nil, and_true]
    rw [← hlen, List.take_length]
  | cons y ys ih =>
    rw [List.length_cons] at hj
    have hjl : j < ring.length := by omega
    have hjr : j < (ring.rotate o).length := by rwa [List.length_rotate]
    have hcell : (if i = ring.length then 0 else i) = (j + o) % ring.length := by
      rw [← hi]
      split_ifs with h
      · rw [h, Nat.mod_self]
      · exact (Nat.mod_eq_of_lt (by omega)).symm
    have hlt := Nat.mod_lt (j + o) (show 0 < ring.length by omega)
    rw [ringPass]
    rw [hcell, ← getD_rotate hjl]
    set p := step c ((ring.rotate o).getD j d, y) with hp
    have hdrop : (ring.rotate o).drop j =
        (ring.rotate o).getD j d :: (ring.rotate o).drop (j + 1) := by
      rw [List.drop_eq_getElem_cons hjr, List.getD_eq_getElem _ _ hjr]
    obtain ⟨h1, h2⟩ := ih (i := (j + o) % ring.length + 1) (j := j + 1) p.2
      (show j + 1 + ys.length = (ring.set ((j + o) % ring.length) p.1).length by
        rw [List.length_set]; omega)
      (by
        rw [List.length_set, show j + 1 + o = j + o + 1 by ring, Nat.add_mod, Nat.mod_mod,
          ← Nat.add_mod])
      (by rw [List.length_set]; omega)
    rw [rotate_set hjl] at h1 h2
    have hdrop' : ((ring.rotate o).set j p.1).drop (j + 1) = (ring.rotate o).drop (j + 1) := by
      rw [List.drop_set_of_lt (Nat.lt_succ_self j)]
    have htake' : ((ring.rotate o).set j p.1).take (j + 1) = (ring.rotate o).take j ++ [p.1] := by
      rw [List.take_succ_eq_append_getElem (by rwa [List.length_set]), List.take_set_of_le le_rfl,
        List.getElem_set_self]
    rw [hdrop', htake'] at h1
    rw [hdrop'] at h2
    refine ⟨?_, ?_⟩
    · rw [h1, hdrop, List.zip_cons_cons, chain_cons, List.append_assoc]
      rfl
    · rw [h2, hdrop, List.zip_cons_cons, chain_cons]

theorem ringPass_last {ring : List α} {o i : ℕ} (c : κ) {ys : List β} (hpos : 1 ≤ o)
    (hle : o ≤ ring.length) (hys : ys.length ≤ ring.length)
    (hi : i = if o < ys.length then o + ring.length - ys.length else o - ys.length) :
    (ringPass d step ring i c ys).1.rotate o =
        (ring.rotate o).take (ring.length - ys.length) ++
          (chain step c (((ring.rotate o).drop (ring.length - ys.length)).zip ys)).1 ∧
      (ringPass d step ring i c ys).2 =
        (chain step c (((ring.rotate o).drop (ring.length - ys.length)).zip ys)).2 := by
  refine ringPass_rotate d step c (by omega) ?_ ?_
  · subst hi
    split_ifs with hlt
    · congr 1
      omega
    · rw [← Nat.add_mod_right (o - ys.length)]
      congr 1
      omega
  · subst hi
    split_ifs <;> omega

end Cyclic
end CKern
