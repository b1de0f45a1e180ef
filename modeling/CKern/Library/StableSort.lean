import Mathlib.Data.List.Sort
import Mathlib.Order.Compare

/-!
# Stable sorts and merges

A stable sort of a list is a permutation in ascending order in which the elements of every class of
equal elements stand as they did.  There is only one, so that an algorithm is right as soon as it
keeps the three properties.

* `IsStableSort.merge`, `IsStableSort.reverse`, `IsStableSort.of_descending`: how stable sorts are
  put together.
* `IsStableSort.eq_mergeSort`: a stable sort is the one of the standard library.
* `merge_block_left`, `merge_block_right`: a merge that moves blocks.
* `merge_swap`: the two lists of a merge are exchanged.
-/

namespace CKern

variable {α : Type*}

/-! ## Merging -/

section Merge

variable (le : α → α → Bool)

theorem merge_block_left {p : List α} {y : α} (h : ∀ x ∈ p, le x y = true) (X Y : List α) :
    List.merge (p ++ X) (y :: Y) le = p ++ List.merge X (y :: Y) le := by
  induction p with
  | nil => rfl
  | cons x p ih =>
    rw [List.cons_append, List.cons_merge_cons_pos _ _ _ (h x List.mem_cons_self),
      ih fun a ha => h a (List.mem_cons_of_mem x ha), List.cons_append]

theorem merge_block_right {q : List α} {x : α} (h : ∀ y ∈ q, ¬le x y = true) (X Y : List α) :
    List.merge (x :: X) (q ++ Y) le = q ++ List.merge (x :: X) Y le := by
  induction q with
  | nil => rfl
  | cons y q ih =>
    rw [List.cons_append, List.cons_merge_cons_neg _ _ _ (h y List.mem_cons_self),
      ih fun a ha => h a (List.mem_cons_of_mem y ha), List.cons_append]

/-- A block from the left list and an element from the right one. -/
theorem merge_split_left {p s : List α} {y : α} (hp : ∀ x ∈ p, le x y = true)
    (hs : ∀ x ∈ s.head?, le x y = false) (hne : s ≠ []) (Y : List α) :
    List.merge (p ++ s) (y :: Y) le = p ++ y :: List.merge s Y le := by
  rw [merge_block_left le hp]
  obtain ⟨x, s, rfl⟩ := List.exists_cons_of_ne_nil hne
  rw [List.cons_merge_cons_neg _ _ _ (by rw [hs x rfl]; exact Bool.false_ne_true)]

theorem merge_split_right {q s : List α} {x : α} (hq : ∀ y ∈ q, le x y = false)
    (hs : ∀ y ∈ s.head?, le x y = true) (hne : s ≠ []) (X : List α) :
    List.merge (x :: X) (q ++ s) le = q ++ x :: List.merge X s le := by
  rw [merge_block_right le fun y hy => by rw [hq y hy]; exact Bool.false_ne_true]
  obtain ⟨y, s, rfl⟩ := List.exists_cons_of_ne_nil hne
  rw [List.cons_merge_cons_pos _ _ _ (hs y rfl)]

theorem merge_swap (X Y : List α) :
    List.merge X Y le = List.merge Y X fun y x => !le x y := by
  induction X generalizing Y with
  | nil => rw [List.nil_merge, List.merge_right]
  | cons x X ihx =>
    induction Y with
    | nil => rw [List.nil_merge, List.merge_right]
    | cons y Y ihy =>
      rw [List.cons_merge_cons, List.cons_merge_cons]
      cases le x y with
      | true => rw [if_pos rfl, ihx (y :: Y)]; rfl
      | false => rw [if_neg Bool.false_ne_true, ihy]; rfl

end Merge

/-! ## Stable sorts -/

/-- The list `out` is a stable sort of `l`. -/
structure IsStableSort (cmp : α → α → Ordering) (out l : List α) : Prop where
  perm : out.Perm l
  ascending : out.Pairwise fun a b => (cmp a b).isLE = true
  stable : ∀ k, out.filter (fun a => cmp k a == .eq) = l.filter fun a => cmp k a == .eq

variable {cmp : α → α → Ordering}

namespace IsStableSort

theorem nil : IsStableSort cmp ([] : List α) [] :=
  ⟨List.Perm.nil, List.Pairwise.nil, fun _ => rfl⟩

theorem singleton (a : α) : IsStableSort cmp [a] [a] :=
  ⟨List.Perm.refl _, List.pairwise_singleton _ a, fun _ => rfl⟩

theorem of_ascending {l : List α} (h : l.Pairwise fun a b => (cmp a b).isLE = true) :
    IsStableSort cmp l l :=
  ⟨List.Perm.refl l, h, fun _ => rfl⟩

variable [Std.TransCmp cmp]

theorem isLE_total (a b : α) : ((cmp a b).isLE || (cmp b a).isLE) = true := by
  rw [@Std.OrientedCmp.eq_swap α cmp _ b a]
  cases cmp a b <;> rfl

/-- The class of an element in a strictly descending list has one element at most. -/
theorem of_descending {l : List α} (h : l.Pairwise fun a b => cmp b a = .lt) :
    IsStableSort cmp l.reverse l := by
  refine ⟨l.reverse_perm, List.pairwise_reverse.mpr (h.imp fun h => by rw [h]; rfl), fun k => ?_⟩
  have hclass : (l.filter fun a => cmp k a == .eq).Pairwise fun _ _ => False := by
    rw [List.pairwise_filter]
    refine h.imp fun {a b} hab ha hb => ?_
    have ha' : cmp k a = .eq := eq_of_beq ha
    have hb' : cmp k b = .eq := eq_of_beq hb
    rw [← Std.TransCmp.congr_left hb', ha'] at hab
    exact absurd hab (by decide)
  rw [List.filter_reverse]
  match l.filter fun a => cmp k a == .eq, hclass with
  | [], _ => rfl
  | [_], _ => rfl
  | _ :: _ :: _, h => exact absurd (List.rel_of_pairwise_cons h List.mem_cons_self) id

theorem filter_merge {X : List α} (hX : X.Pairwise fun a b => (cmp a b).isLE = true) (Y : List α)
    (k : α) :
    (List.merge X Y fun a b => (cmp a b).isLE).filter (fun a => cmp k a == .eq) =
      X.filter (fun a => cmp k a == .eq) ++ Y.filter fun a => cmp k a == .eq := by
  induction X generalizing Y with
  | nil => rw [List.nil_merge]; rfl
  | cons x X ihx =>
    induction Y with
    | nil => rw [List.merge_right]; exact (List.append_nil _).symm
    | cons y Y ihy =>
      by_cases hle : (cmp x y).isLE = true
      · rw [List.cons_merge_cons_pos _ _ _ hle, List.filter_cons, List.filter_cons (x := x),
          ihx hX.of_cons]
        split_ifs <;> rfl
      · rw [List.cons_merge_cons_neg _ _ _ hle, List.filter_cons, ihy]
        by_cases hk : (cmp k y == .eq) = true
        · -- the elements of the first list are greater than `y`
          have hnone : (x :: X).filter (fun a => cmp k a == .eq) = [] := by
            refine List.filter_eq_nil_iff.mpr fun a ha hka => hle ?_
            have hxa : (cmp x a).isLE = true := by
              rcases List.mem_cons.mp ha with rfl | ha
              · exact Std.ReflCmp.isLE_rfl
              · exact List.rel_of_pairwise_cons hX ha
            have hay : cmp a y = .eq :=
              (Std.TransCmp.congr_left (eq_of_beq hka)).symm.trans (eq_of_beq hk)
            rwa [Std.TransCmp.congr_right hay] at hxa
          rw [if_pos hk, hnone, List.nil_append, List.nil_append]
          exact (List.filter_cons_of_pos (p := fun a => cmp k a == .eq) hk).symm
        · rw [if_neg hk, List.filter_cons_of_neg (a := y) hk]

/-- **Two stable sorts are merged.** -/
theorem merge {out out' l l' : List α} (h : IsStableSort cmp out l)
    (h' : IsStableSort cmp out' l') :
    IsStableSort cmp (List.merge out out' fun a b => (cmp a b).isLE) (l ++ l') where
  perm := (List.merge_perm_append _).trans (h.perm.append h'.perm)
  ascending := List.pairwise_merge (fun _ _ _ => Std.TransCmp.isLE_trans) isLE_total _ _
    h.ascending h'.ascending
  stable k := by
    rw [filter_merge h.ascending, h.stable, h'.stable, List.filter_append]

theorem reverse {out l : List α} (h : IsStableSort (fun a b => cmp b a) out l) :
    IsStableSort cmp out.reverse l.reverse where
  perm := (out.reverse_perm.trans h.perm).trans l.reverse_perm.symm
  ascending := List.pairwise_reverse.mpr h.ascending
  stable k := by
    have hk := h.stable k
    simp only [fun a => @Std.OrientedCmp.eq_swap α cmp _ a k] at hk
    rw [List.filter_reverse, List.filter_reverse]
    refine congrArg List.reverse ?_
    convert hk using 3 <;> cases cmp k _ <;> rfl

/-- **There is only one stable sort.** -/
theorem unique {out out' l : List α} (h : IsStableSort cmp out l) (h' : IsStableSort cmp out' l) :
    out = out' := by
  have hperm := h.perm.trans h'.perm.symm
  have hstable := fun k => (h.stable k).trans (h'.stable k).symm
  have hasc := h.ascending
  have hasc' := h'.ascending
  clear h h'
  induction out generalizing out' with
  | nil => exact hperm.nil_eq
  | cons x t ih =>
    match out', hperm with
    | [], hperm => exact hperm.eq_nil
    | y :: t', hperm =>
      -- each of the heads is less than or equal to the other one
      have hxy : (cmp x y).isLE = true := by
        rcases List.mem_cons.mp (hperm.mem_iff.mpr List.mem_cons_self) with rfl | hy
        · exact Std.ReflCmp.isLE_rfl
        · exact List.rel_of_pairwise_cons hasc hy
      have hyx : (cmp y x).isLE = true := by
        rcases List.mem_cons.mp (hperm.mem_iff.mp List.mem_cons_self) with rfl | hx
        · exact Std.ReflCmp.isLE_rfl
        · exact List.rel_of_pairwise_cons hasc' hx
      have heq : cmp x y = .eq := Std.OrientedCmp.isLE_antisymm hxy hyx
      have hhead := hstable x
      rw [List.filter_cons_of_pos (p := fun a => cmp x a == .eq)
          (beq_iff_eq.mpr Std.ReflCmp.compare_self),
        List.filter_cons_of_pos (p := fun a => cmp x a == .eq) (beq_iff_eq.mpr heq)] at hhead
      obtain rfl : x = y := (List.cons.inj hhead).1
      refine congrArg (x :: ·) (ih (hperm.cons_inv) (fun k => ?_) hasc.of_cons hasc'.of_cons)
      have hk := hstable k
      rw [List.filter_cons, List.filter_cons] at hk
      split_ifs at hk with hkx
      · exact (List.cons.inj hk).2
      · exact hk

/-- A merge from the ends of the lists. -/
theorem merge_reverse {X Y : List α} (hX : X.Pairwise fun a b => (cmp a b).isLE = true)
    (hY : Y.Pairwise fun a b => (cmp a b).isLE = true) :
    (List.merge Y.reverse X.reverse fun a b => (cmp b a).isLE).reverse =
      List.merge X Y fun a b => (cmp a b).isLE := by
  have : Std.TransCmp fun a b => cmp b a := Std.TransCmp.opposite
  refine unique ?_ (merge (of_ascending hX) (of_ascending hY))
  have h := @reverse α cmp _ _ _ (merge (of_ascending (List.pairwise_reverse.mpr hY))
    (of_ascending (List.pairwise_reverse.mpr hX)))
  rwa [List.reverse_append, List.reverse_reverse, List.reverse_reverse] at h

theorem mergeSort (l : List α) : IsStableSort cmp (l.mergeSort fun a b => (cmp a b).isLE) l where
  perm := List.mergeSort_perm l _
  ascending := List.pairwise_mergeSort (fun _ _ _ => Std.TransCmp.isLE_trans) isLE_total l
  stable k := by
    have hclass : (l.filter fun a => cmp k a == .eq).Pairwise fun a b => (cmp a b).isLE = true := by
      refine List.pairwise_of_forall_mem_list fun a ha b hb => ?_
      have ha' : cmp k a = .eq := eq_of_beq (List.mem_filter.mp ha).2
      have hb' : cmp k b = .eq := eq_of_beq (List.mem_filter.mp hb).2
      rw [← Std.TransCmp.congr_left ha', hb']
      rfl
    have hsub := List.sublist_mergeSort (fun _ _ _ => Std.TransCmp.isLE_trans) isLE_total hclass
      List.filter_sublist
    have hsub' := hsub.filter fun a => cmp k a == .eq
    rw [List.filter_filter] at hsub'
    simp only [Bool.and_self] at hsub'
    exact (hsub'.eq_of_length ((List.mergeSort_perm l _).filter _).length_eq.symm).symm

theorem eq_mergeSort {out l : List α} (h : IsStableSort cmp out l) :
    out = l.mergeSort fun a b => (cmp a b).isLE :=
  h.unique (mergeSort l)

end IsStableSort
end CKern
