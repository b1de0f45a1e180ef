import CKern.Ds.Sort.Mergesort
import CKern.Library.StableSort

/-!
# `ds/sort/mergesort_generic_impl.h`: two slices are merged

The three instances of the file differ only in how an element is copied, so that `α` is the type of
the elements of any of them.  A part of the array is a list; where the source goes from higher to
lower addresses, it is the reversed list.  What `dest` points to in a merge is always in front of
what is still to be read, with as many free places between them as there are elements left in
`temp`.

* `search`, `rsearch`: the first element that stops the search, by doubling steps and halving.
* `mergeLoop`: the merge of two slices with its two ways to copy, single elements and blocks.
* `mergeLoop_eq`: both ways together do what the one for single elements does.
* `mergeAdjacentSlices_spec`, `rmergeAdjacentSlices_spec`: the two slices are replaced by the merged
  one, or the temporary memory was refused.
-/

namespace CKern
namespace Mergesort

variable {α : Type*}

/-! ## Searching -/

/-- The first loop of `search_greatequal` and `search_greater`; `stop` compares the element with
this index, which has to be one of the array. -/
def searchDouble (stop : ℕ → Option Bool) (n idx : ℕ) : Option (ℕ × ℕ) :=
  if 0 < idx ∧ idx ≤ n >>> 1 then -- `idx` is a power of two
    (stop idx).bind fun c =>
      if c then some (idx >>> 1, idx) else searchDouble stop n (idx <<< 1)
  else some (idx >>> 1, n)
termination_by n + 1 - idx
decreasing_by
  rw [Nat.shiftRight_one] at *
  rw [Nat.shiftLeft_eq]
  omega

/-- The second loop, between `lastidx` and `idx`. -/
def searchBinary (stop : ℕ → Option Bool) (lastidx idx : ℕ) : Option ℕ :=
  if lastidx < idx then
    let mid := lastidx + (idx - lastidx) >>> 1
    (stop mid).bind fun c =>
      if c then searchBinary stop lastidx mid else searchBinary stop (mid + 1) idx
  else some idx
termination_by idx - lastidx
decreasing_by
  all_goals
    rw [Nat.shiftRight_one] at *
    omega

/-- What `search_greatequal` and `search_greater` have in common. -/
def search (stop : ℕ → Option Bool) (n : ℕ) : Option ℕ :=
  (stop 0).bind fun c =>
    if c then some 0 else (searchDouble stop n 1).bind fun p => searchBinary stop (p.1 + 1) p.2

/-- The first loop of `rsearch_greatequal` and `rsearch_greater`; the indices count from the end of
the array. -/
def rsearchDouble (stop : ℕ → Option Bool) (n idx : ℕ) : Option (ℕ × ℕ) :=
  if 0 < idx ∧ idx ≤ n >>> 1 then
    (stop (idx - 1)).bind fun c =>
      if c then some (idx >>> 1, idx) else rsearchDouble stop n (idx <<< 1)
  else some (idx >>> 1, n + 1)
termination_by n + 1 - idx
decreasing_by
  rw [Nat.shiftRight_one] at *
  rw [Nat.shiftLeft_eq]
  omega

/-- The second loop. -/
def rsearchBinary (stop : ℕ → Option Bool) (lastidx idx : ℕ) : Option ℕ :=
  if lastidx < idx then
    let mid := lastidx + (idx - lastidx + 1) >>> 1
    (stop (mid - 1)).bind fun c =>
      if c then rsearchBinary stop lastidx (mid - 1) else rsearchBinary stop mid idx
  else some idx
termination_by idx - lastidx
decreasing_by
  all_goals
    rw [Nat.shiftRight_one] at *
    omega

/-- What `rsearch_greatequal` and `rsearch_greater` have in common. -/
def rsearch (stop : ℕ → Option Bool) (n : ℕ) : Option ℕ :=
  (stop 0).bind fun c =>
    if c then some 0 else (rsearchDouble stop n 2).bind fun p => rsearchBinary stop p.1 (p.2 - 1)

/-- `search_greatequal`. -/
def searchGreatequal (cmp : α → α → Ordering) (key : α) (a : List α) : Option ℕ :=
  search (fun i => a[i]?.map fun x => (cmp x key).isGE) a.length

/-- `rsearch_greatequal`, for the reversed array. -/
def rsearchGreatequal (cmp : α → α → Ordering) (key : α) (a : List α) : Option ℕ :=
  rsearch (fun i => a[i]?.map fun x => (cmp x key).isLT) a.length

/-- `search_greater`. -/
def searchGreater (cmp : α → α → Ordering) (key : α) (a : List α) : Option ℕ :=
  search (fun i => a[i]?.map fun x => (cmp x key).isGT) a.length

/-- `rsearch_greater`, for the reversed array. -/
def rsearchGreater (cmp : α → α → Ordering) (key : α) (a : List α) : Option ℕ :=
  rsearch (fun i => a[i]?.map fun x => (cmp x key).isLE) a.length

/-- `x` is the first index that stops, or the length of the array. -/
structure IsFirst (p : ℕ → Bool) (n x : ℕ) : Prop where
  le : x ≤ n
  before : ∀ i < x, p i = false
  stops : x < n → p x = true

section Search

variable {stop : ℕ → Option Bool} {p : ℕ → Bool} {n : ℕ} (hstop : ∀ i < n, stop i = some (p i))

include hstop

theorem searchDouble_spec {idx : ℕ} (hidx : 0 < idx) (hlast : idx / 2 ≤ n / 2) (hn : 0 < n)
    (hp : p (idx / 2) = false) :
    ∃ last next, searchDouble stop n idx = some (last, next) ∧ last < next ∧ next ≤ n ∧
      p last = false ∧ (next < n → p next = true) := by
  induction idx using searchDouble.induct n with
  | case1 idx h ih =>
    rw [Nat.shiftRight_one] at h
    rw [searchDouble, if_pos (by rwa [Nat.shiftRight_one]), hstop idx (by omega), Option.bind_some,
      Nat.shiftRight_one]
    cases hc : p idx with
    | true => exact ⟨idx / 2, idx, rfl, by omega, by omega, hp, fun _ => hc⟩
    | false =>
      have hdouble : idx <<< 1 / 2 = idx := by rw [Nat.shiftLeft_eq]; omega
      exact ih (by rw [Nat.shiftLeft_eq]; omega) (hdouble.symm ▸ h.2) (hdouble.symm ▸ hc)
  | case2 idx h =>
    rw [searchDouble, if_neg h, Nat.shiftRight_one]
    exact ⟨idx / 2, n, rfl, by omega, le_refl n, hp, fun h => absurd h (lt_irrefl n)⟩

variable (hmono : ∀ i j, i ≤ j → j < n → p i = true → p j = true)

include hmono

theorem searchBinary_spec {last next : ℕ} (hle : last ≤ next) (hn : next ≤ n)
    (hlast : ∀ i < last, p i = false) (hnext : next < n → p next = true) :
    ∃ x, searchBinary stop last next = some x ∧ IsFirst p n x := by
  induction last, next using searchBinary.induct with
  | case1 last next h mid ihl ihr =>
    have hmid : mid = last + (next - last) / 2 := by simp only [mid, Nat.shiftRight_one]
    rw [searchBinary, if_pos h]
    simp only
    rw [hstop _ (by omega), Option.bind_some]
    cases hc : p mid with
    | true => exact ihl (by omega) (by omega) hlast fun _ => hc
    | false =>
      refine ihr (by omega) hn (fun i hi => ?_) hnext
      by_contra hpi
      rw [hmono i mid (by omega) (by omega) (Bool.eq_true_of_not_eq_false hpi)] at hc
      exact absurd hc (by decide)
  | case2 last next h =>
    obtain rfl : last = next := by omega
    rw [searchBinary, if_neg h]
    exact ⟨last, rfl, hn, hlast, hnext⟩

theorem search_spec (hn : 0 < n) : ∃ x, search stop n = some x ∧ IsFirst p n x := by
  rw [search, hstop 0 hn, Option.bind_some]
  cases hc : p 0 with
  | true => exact ⟨0, rfl, hn.le, fun i hi => absurd hi (Nat.not_lt_zero i), fun _ => hc⟩
  | false =>
    obtain ⟨last, next, h, hlt, hle, hlast, hnext⟩ :=
      searchDouble_spec hstop Nat.one_pos (Nat.zero_le _) hn hc
    rw [if_neg Bool.false_ne_true, h, Option.bind_some]
    refine searchBinary_spec hstop hmono (by exact hlt) hle (fun i hi => ?_) hnext
    by_contra hpi
    rw [hmono i last (by omega) (by omega) (Bool.eq_true_of_not_eq_false hpi)] at hlast
    exact absurd hlast (by decide)

omit hmono in
theorem rsearchDouble_spec {idx : ℕ} (hidx : 1 < idx) (hlast : idx / 2 ≤ max 1 (n / 2)) (hn : 0 < n)
    (hp : p (idx / 2 - 1) = false) :
    ∃ last next, rsearchDouble stop n idx = some (last, next) ∧ 0 < last ∧ last < next ∧
      next ≤ n + 1 ∧ p (last - 1) = false ∧ (next ≤ n → p (next - 1) = true) := by
  induction idx using rsearchDouble.induct n with
  | case1 idx h ih =>
    rw [Nat.shiftRight_one] at h
    rw [rsearchDouble, if_pos (by rwa [Nat.shiftRight_one]), hstop (idx - 1) (by omega),
      Option.bind_some, Nat.shiftRight_one]
    cases hc : p (idx - 1) with
    | true => exact ⟨idx / 2, idx, rfl, by omega, by omega, by omega, hp, fun _ => hc⟩
    | false =>
      have hdouble : idx <<< 1 / 2 = idx := by rw [Nat.shiftLeft_eq]; omega
      exact ih (by rw [Nat.shiftLeft_eq]; omega) (by omega) (hdouble.symm ▸ hc)
  | case2 idx h =>
    rw [rsearchDouble, if_neg h, Nat.shiftRight_one]
    exact ⟨idx / 2, n + 1, rfl, by omega, by omega, le_refl _, hp, fun h => by omega⟩

theorem rsearchBinary_spec {last next : ℕ} (h0 : 0 < last) (hle : last ≤ next) (hn : next ≤ n)
    (hlast : p (last - 1) = false) (hnext : next < n → p next = true) :
    ∃ x, rsearchBinary stop last next = some x ∧ IsFirst p n x := by
  induction last, next using rsearchBinary.induct with
  | case1 last next h mid ihl ihr =>
    have hmid : mid = last + (next - last + 1) / 2 := by simp only [mid, Nat.shiftRight_one]
    rw [rsearchBinary, if_pos h]
    simp only
    rw [hstop _ (by omega), Option.bind_some]
    cases hc : p (mid - 1) with
    | true => exact ihl h0 (by omega) (by omega) hlast fun _ => hc
    | false => exact ihr (by omega) (by omega) hn hc hnext
  | case2 last next h =>
    obtain rfl : last = next := by omega
    rw [rsearchBinary, if_neg h]
    refine ⟨last, rfl, hn, fun i hi => ?_, hnext⟩
    by_contra hpi
    rw [hmono i (last - 1) (by omega) (by omega) (Bool.eq_true_of_not_eq_false hpi)] at hlast
    exact absurd hlast (by decide)

theorem rsearch_spec (hn : 0 < n) : ∃ x, rsearch stop n = some x ∧ IsFirst p n x := by
  rw [rsearch, hstop 0 hn, Option.bind_some]
  cases hc : p 0 with
  | true => exact ⟨0, rfl, hn.le, fun i hi => absurd hi (Nat.not_lt_zero i), fun _ => hc⟩
  | false =>
    obtain ⟨last, next, h, h0, hlt, hle, hlast, hnext⟩ :=
      rsearchDouble_spec hstop Nat.one_lt_two (le_max_left 1 _) hn hc
    rw [if_neg Bool.false_ne_true, h, Option.bind_some]
    exact rsearchBinary_spec hstop hmono h0 (by simp only; omega) (by simp only; omega) hlast
      fun h => hnext (by simp only at h; omega)

end Search

/-- The search splits the list: the elements in front do not stop it, the one behind them does. -/
structure Splits (q : α → Bool) (xs : List α) (n : ℕ) : Prop where
  before : ∀ a ∈ xs.take n, q a = false
  stops : ∀ a ∈ (xs.drop n).head?, q a = true

theorem splits_of_isFirst {q : α → Bool} (xs : List α) {p : ℕ → Bool}
    (hp : ∀ (i : ℕ) (a : α), xs[i]? = some a → p i = q a) {n : ℕ} (h : IsFirst p xs.length n) :
    Splits q xs n where
  before a ha := by
    obtain ⟨i, hi⟩ := List.mem_iff_getElem?.mp ha
    rw [List.getElem?_take] at hi
    split_ifs at hi with hlt
    rw [← hp i a hi]
    exact h.before i hlt
  stops a ha := by
    rw [Option.mem_def, List.head?_drop] at ha
    rw [← hp n a ha]
    exact h.stops (List.getElem?_eq_some_iff.mp ha).1

section Splits

variable {R : α → α → Prop} {q : α → Bool} (hq : ∀ a b, R a b → q a = true → q b = true)
  {xs : List α} (hxs : xs.Pairwise R)

include hq hxs

/-- The searches are asked about the elements of the list, whose order is one in which what stops
them once does so ever after. -/
theorem stops_at : ∃ p : ℕ → Bool, (∀ i < xs.length, xs[i]?.map q = some (p i)) ∧
    (∀ i j, i ≤ j → j < xs.length → p i = true → p j = true) ∧
    ∀ (i : ℕ) (a : α), xs[i]? = some a → p i = q a := by
  refine ⟨fun i => (xs[i]?.map q).getD false, fun i hi => ?_, fun i j hij hj hi => ?_,
    fun i a hi => ?_⟩
  · beta_reduce
    rw [List.getElem?_eq_getElem hi]
    rfl
  · beta_reduce at hi ⊢
    rcases hij.eq_or_lt with rfl | hlt
    · exact hi
    · rw [List.getElem?_eq_getElem (hlt.trans hj)] at hi
      rw [List.getElem?_eq_getElem hj]
      exact hq _ _ (List.pairwise_iff_getElem.mp hxs i j _ hj hlt) hi
  · beta_reduce
    rw [hi]
    rfl

/-- **Both ways to search split the array.** -/
theorem search_splits (hne : xs ≠ []) :
    (∃ n, search (fun i => xs[i]?.map q) xs.length = some n ∧ Splits q xs n) ∧
      ∃ n, rsearch (fun i => xs[i]?.map q) xs.length = some n ∧ Splits q xs n := by
  have hn := List.length_pos_iff.mpr hne
  obtain ⟨p, hstop, hmono, hp⟩ := stops_at hq hxs
  obtain ⟨n, h, hfirst⟩ := search_spec hstop hmono hn
  obtain ⟨n', h', hfirst'⟩ := rsearch_spec hstop hmono hn
  exact ⟨⟨n, h, splits_of_isFirst xs hp hfirst⟩, ⟨n', h', splits_of_isFirst xs hp hfirst'⟩⟩

theorem searchBinary_splits :
    ∃ n, searchBinary (fun i => xs[i]?.map q) 0 xs.length = some n ∧ Splits q xs n := by
  obtain ⟨p, hstop, hmono, hp⟩ := stops_at hq hxs
  obtain ⟨n, h, hfirst⟩ := searchBinary_spec hstop hmono (Nat.zero_le _) (le_refl _)
    (fun i hi => absurd hi (Nat.not_lt_zero i)) fun h => absurd h (lt_irrefl _)
  exact ⟨n, h, splits_of_isFirst xs hp hfirst⟩

end Splits

/-! ## Merging -/

/-- `MIN_BLK_LEN`. -/
def minBlkLen : ℕ := 7

/-- Where a merge is: in its loop for single elements with the numbers of elements that were taken
from one side without a break, or in front of a block from the left or from the right one. -/
inductive Mode
  | single (lblklen rblklen : ℕ)
  | left
  | right (lblklen : ℕ)

/-- What `merge_adjacent_slices` and `rmerge_adjacent_slices` do in different ways: which of two
elements is copied, the searches for the blocks, and the decrement of `minblklen`. -/
structure Direction (α : Type*) where
  takesRight : α → α → Bool
  searchLeft : α → List α → Option ℕ
  searchRight : α → List α → Option ℕ
  lower : ℕ → ℕ

/-- The loops of a merge, for the elements that are left on both sides; the result is what they
write at `dest`, with the elements that are copied at `DONE` or stay where they are. -/
def mergeLoop (d : Direction α) (mode : Mode) (minblklen : ℕ) : List α → List α → Option (List α)
  | [], right => some right
  | x :: left, [] => some (x :: left)
  | x :: left, y :: right =>
    match mode with
    | .single lblklen rblklen =>
      if d.takesRight x y then
        (mergeLoop d (if minblklen ≤ rblklen + 1 then .left else .single 0 (rblklen + 1)) minblklen
          (x :: left) right).map (y :: ·)
      else
        (mergeLoop d (if minblklen ≤ lblklen + 1 then .left else .single (lblklen + 1) 0) minblklen
          left (y :: right)).map (x :: ·)
    | .left =>
      (d.searchLeft y (x :: left)).bind fun lblklen =>
        if (x :: left).drop lblklen = [] then some (x :: left ++ y :: right)
        else (mergeLoop d (.right lblklen) (d.lower minblklen) ((x :: left).drop lblklen)
          right).map ((x :: left).take lblklen ++ y :: ·)
    | .right lblklen =>
      (d.searchRight x (y :: right)).bind fun rblklen =>
        if (y :: right).drop rblklen = [] then some (y :: right ++ x :: left)
        else if minBlkLen ≤ lblklen ∨ minBlkLen ≤ rblklen then
          (mergeLoop d .left minblklen left ((y :: right).drop rblklen)).map
            ((y :: right).take rblklen ++ x :: ·)
        else
          (mergeLoop d (.single 0 0) (sizeT (minblklen + 2)) left ((y :: right).drop rblklen)).map
            ((y :: right).take rblklen ++ x :: ·)
termination_by left right => left.length + right.length
decreasing_by
  all_goals
    simp only [List.length_cons, List.length_drop]
    omega

/-- The searches of a direction are right for lists in these orders. -/
structure Direction.Right (d : Direction α) (R : α → α → Prop) : Prop where
  left : ∀ y xs, xs.Pairwise R → xs ≠ [] →
    ∃ n, d.searchLeft y xs = some n ∧ Splits (fun x => d.takesRight x y) xs n
  right : ∀ x ys, ys.Pairwise R → ys ≠ [] →
    ∃ n, d.searchRight x ys = some n ∧ Splits (fun y => !d.takesRight x y) ys n

/-- **The loops merge** in the way in which the loop for single elements does. -/
theorem mergeLoop_eq {d : Direction α} {R : α → α → Prop} (hd : d.Right R) (mode : Mode)
    (minblklen : ℕ) (xs ys : List α) (hxs : xs.Pairwise R) (hys : ys.Pairwise R) :
    mergeLoop d mode minblklen xs ys = some (List.merge xs ys fun x y => !d.takesRight x y) := by
  induction mode, minblklen, xs, ys using mergeLoop.induct d with
  | case1 => rw [mergeLoop, List.nil_merge]
  | case2 => rw [mergeLoop, List.merge_right]
  | case3 minblklen x left y right l r h ih =>
    rw [mergeLoop]
    simp only [h, if_true, dite_eq_ite] at ih ⊢
    rw [ih hxs hys.of_cons, Option.map_some,
      List.cons_merge_cons_neg _ _ _ (by rw [h]; exact Bool.false_ne_true)]
  | case4 minblklen x left y right l r h ih =>
    rw [mergeLoop]
    simp only [h, dite_eq_ite] at ih ⊢
    rw [if_neg Bool.false_ne_true, ih hxs.of_cons hys, Option.map_some,
      List.cons_merge_cons_pos _ _ _ (by simp only [h]; rfl)]
  | case5 minblklen x left y right ih =>
    obtain ⟨n, hn, hs⟩ := hd.left y _ hxs (List.cons_ne_nil x left)
    have hp : ∀ a ∈ (x :: left).take n, (!d.takesRight a y) = true :=
      fun a ha => congrArg not (hs.before a ha)
    have hsplit := List.take_append_drop n (x :: left)
    rw [mergeLoop]
    simp only [hn, Option.bind_some]
    split_ifs with hdrop
    · rw [hdrop, List.append_nil] at hsplit
      have hmerge := merge_block_left (fun x y => !d.takesRight x y) hp [] right
      rw [List.append_nil, List.nil_merge, hsplit] at hmerge
      rw [hmerge]
    · rw [ih n (hxs.sublist (List.drop_sublist n _)) hys.of_cons, Option.map_some,
        ← merge_split_left _ hp (fun a ha => congrArg not (hs.stops a ha)) hdrop, hsplit]
  | case6 minblklen x left y right l ih ih' =>
    obtain ⟨n, hn, hs⟩ := hd.right x _ hys (List.cons_ne_nil y right)
    have hq : ∀ a ∈ (y :: right).take n, (!d.takesRight x a) = false := hs.before
    have hsplit := List.take_append_drop n (y :: right)
    have hys' := hys.sublist (List.drop_sublist n _)
    rw [mergeLoop]
    simp only [hn, Option.bind_some]
    split_ifs with hdrop hlen
    · rw [hdrop, List.append_nil] at hsplit
      have hmerge := merge_block_right (fun x y => !d.takesRight x y)
        (fun a ha => Bool.not_eq_true _ ▸ hq a ha) left []
      rw [List.append_nil, List.merge_right, hsplit] at hmerge
      rw [hmerge]
    · rw [ih n hxs.of_cons hys', Option.map_some,
        ← merge_split_right (fun x y => !d.takesRight x y) hq hs.stops hdrop, hsplit]
    · rw [ih' n hxs.of_cons hys', Option.map_some,
        ← merge_split_right (fun x y => !d.takesRight x y) hq hs.stops hdrop, hsplit]

/-- `merge_adjacent_slices`. -/
def forward (cmp : α → α → Ordering) : Direction α where
  takesRight x y := (cmp y x).isLT
  searchLeft y left := searchGreater cmp y left
  searchRight x right := searchGreatequal cmp x right
  lower n := sizeT (n + (2 ^ 64 - 1))

/-- `rmerge_adjacent_slices`, which goes from the ends of the slices to their starts. -/
def backward (cmp : α → α → Ordering) : Direction α where
  takesRight x y := !(cmp y x).isLT
  searchLeft y left := rsearchGreater cmp y left
  searchRight x right := rsearchGreatequal cmp x right
  lower n := if n = 1 then n else sizeT (n + (2 ^ 64 - 1))

variable {cmp : α → α → Ordering} [Std.TransCmp cmp]

theorem forward_right : (forward cmp).Right fun a b => (cmp a b).isLE = true where
  left y xs hxs hne := by
    simp only [forward, ← Std.OrientedCmp.isGT_eq_isLT]
    refine (search_splits (q := fun x => (cmp x y).isGT) (fun a b hab ha => ?_) hxs hne).1
    rw [Ordering.isGT_iff_eq_gt] at ha ⊢
    exact Std.TransCmp.gt_of_isGE_of_gt (by rwa [Std.OrientedCmp.isGE_iff_isLE]) ha
  right x ys hys hne := by
    have hq : (fun y => !(forward cmp).takesRight x y) = fun y => (cmp y x).isGE := by
      funext y
      simp only [forward]
      cases cmp y x <;> rfl
    rw [hq]
    refine (search_splits (q := fun y => (cmp y x).isGE) (fun a b hab ha => ?_) hys hne).1
    exact Std.TransCmp.isGE_trans (by rwa [Std.OrientedCmp.isGE_iff_isLE]) ha

theorem backward_right : (backward cmp).Right fun a b => (cmp b a).isLE = true where
  left y xs hxs hne := by
    have hq : (fun x => (backward cmp).takesRight x y) = fun x => (cmp x y).isLE := by
      funext x
      simp only [backward, ← Std.OrientedCmp.isGT_eq_isLT]
      cases cmp x y <;> rfl
    rw [hq]
    exact (search_splits (q := fun x => (cmp x y).isLE)
      (fun a b hab ha => Std.TransCmp.isLE_trans hab ha) hxs hne).2
  right x ys hys hne := by
    have hq : (fun y => !(backward cmp).takesRight x y) = fun y => (cmp y x).isLT := by
      funext y
      exact Bool.not_not _
    rw [hq]
    refine (search_splits (q := fun y => (cmp y x).isLT) (fun a b hab ha => ?_) hys hne).2
    rw [Ordering.isLT_iff_eq_lt] at ha ⊢
    exact Std.TransCmp.lt_of_isLE_of_lt hab ha

/-! ## The temporary memory -/

/-- The errors of the sort; `sys` is one that `free_vmpage` or `init_vmpage` returns. -/
inductive Errno
  | EINVAL
  | sys (err : ℕ)
  deriving DecidableEq, Repr

/-- What `free_vmpage` and `init_vmpage` return in one call of `alloctemp_mergesort`; a page is not
smaller than it was asked for. -/
structure Vm where
  free : Option Errno
  init : (size : ℕ) → Except Errno {n : ℕ // size ≤ n}

/-- `temp` and `tempsize`, with the number of calls of `alloctemp_mergesort` until now. -/
structure Temp where
  isTempmem : Bool
  size : ℕ
  calls : ℕ

/-- `sizeof(sort->tempmem)`. -/
def sizeofTempmem : ℕ := 256 * 8

/-- `temp` is set to `tempmem`, if it is not. -/
def Temp.reset (t : Temp) : Temp :=
  ⟨true, if t.isTempmem then t.size else sizeofTempmem, t.calls + 1⟩

/-- `alloctemp_mergesort`. -/
def alloctempMergesort (vm : ℕ → Vm) (t : Temp) (tempsize : ℕ) : Option Errno × Temp :=
  match (if t.isTempmem then none else (vm t.calls).free) with
  | some err => (some err, t.reset)
  | none =>
    if tempsize = 0 then (none, t.reset)
    else match (vm t.calls).init tempsize with
      | .error err => (some err, t.reset)
      | .ok n => (none, ⟨false, n.1, t.calls + 1⟩)

/-- `ensuretempsize`. -/
def ensuretempsize (vm : ℕ → Vm) (t : Temp) (tempsize : ℕ) : Option Errno × Temp :=
  if tempsize ≤ t.size then (none, t) else alloctempMergesort vm t tempsize

/-- The memory is never refused to a sort that needs so many bytes. -/
def Grants (vm : ℕ → Vm) (bytes : ℕ) : Prop :=
  ∀ c, (vm c).free = none ∧ ∀ size ≤ bytes, ∃ n, (vm c).init size = .ok n

theorem ensuretempsize_spec (vm : ℕ → Vm) (t : Temp) (tempsize : ℕ) :
    ∃ err t', ensuretempsize vm t tempsize = (err, t') ∧ (err = none → tempsize ≤ t'.size) ∧
      ∀ bytes, tempsize ≤ bytes → Grants vm bytes → err = none := by
  rw [ensuretempsize]
  split_ifs with hsize
  · exact ⟨none, t, rfl, fun _ => hsize, fun _ _ _ => rfl⟩
  · rw [alloctempMergesort, if_neg (by omega : ¬tempsize = 0)]
    cases hfree : (if t.isTempmem then none else (vm t.calls).free) with
    | some err =>
      refine ⟨some err, _, rfl, fun h => absurd h (by simp), fun bytes _ hg => ?_⟩
      rw [(hg t.calls).1, ite_self] at hfree
      exact absurd hfree (by simp)
    | none =>
      cases hinit : (vm t.calls).init tempsize with
      | error err =>
        refine ⟨some err, _, rfl, fun h => absurd h (by simp), fun bytes hb hg => ?_⟩
        obtain ⟨n, hn⟩ := (hg t.calls).2 tempsize hb
        exact absurd (hn.symm.trans hinit) (by simp)
      | ok n => exact ⟨none, _, rfl, fun _ => n.2, fun _ _ _ => rfl⟩

/-! ## Two slices of the array -/

/-- The fields of `mergesort_t` that a sort only reads, and the system. -/
structure Env (α : Type*) where
  compare : α → α → Ordering
  elemsize : ℕ
  vm : ℕ → Vm

/-- The other fields of `mergesort_t`, and the array. -/
structure SortState (α : Type*) where
  array : List α
  stack : List Slice
  temp : Temp

/-- The elements `m` are written from the index `base` on. -/
def splice (a : List α) (base : ℕ) (m : List α) : List α :=
  a.take base ++ m ++ a.drop (base + m.length)

/-- `merge_adjacent_slices`; `left` is the array from the index `base` on. -/
def mergeAdjacentSlices (E : Env α) (sort : SortState α) (base llen rlen : ℕ) :
    Option (Option Errno × SortState α) :=
  let left := (sort.array.drop base).take llen
  match (sort.array.drop (base + llen)).take rlen with
  | [] => none
  | y :: right =>
    (searchGreater E.compare y left).bind fun lblklen =>
      if llen - lblklen = 0 then some (none, sort)
      else
        let nrofbytes := (llen - lblklen) * E.elemsize
        match ensuretempsize E.vm sort.temp nrofbytes with
        | (some err, temp) => some (some err, { sort with temp := temp })
        | (none, temp) =>
          if nrofbytes ≤ temp.size then
            (mergeLoop (forward E.compare) (.single 0 0) (2 * minBlkLen) (left.drop lblklen)
              right).map fun out =>
                (none, { sort with array := splice sort.array (base + lblklen) (y :: out)
                                   temp := temp })
          else none

/-- `rmerge_adjacent_slices`. -/
def rmergeAdjacentSlices (E : Env α) (sort : SortState α) (base llen rlen : ℕ) :
    Option (Option Errno × SortState α) :=
  let right := (sort.array.drop (base + llen)).take rlen
  match ((sort.array.drop base).take llen).reverse with
  | [] => none
  | x :: left =>
    (rsearchGreatequal E.compare x right.reverse).bind fun rblklen =>
      if rlen - rblklen = 0 then some (none, sort)
      else
        let nrofbytes := (rlen - rblklen) * E.elemsize
        match ensuretempsize E.vm sort.temp nrofbytes with
        | (some err, temp) => some (some err, { sort with temp := temp })
        | (none, temp) =>
          if nrofbytes ≤ temp.size then
            (mergeLoop (backward E.compare) (.single 0 0) (2 * minBlkLen) left
              (right.reverse.drop rblklen)).map fun out =>
                (none, { sort with array := splice sort.array base (x :: out).reverse
                                   temp := temp })
          else none

/-- The result of a merge of two slices: they are replaced by `m`, or the memory was refused. -/
def Merges (E : Env α) (sort : SortState α) (base : ℕ) (m : List α) (bytes : ℕ)
    (r : Option (Option Errno × SortState α)) : Prop :=
  ∃ err temp, r = some (err, { sort with
      array := if err = none then splice sort.array base m else sort.array
      temp := temp }) ∧ (Grants E.vm bytes → err = none)

theorem splice_append_left (a : List α) (base n : ℕ) (m : List α) (hn : base + n ≤ a.length) :
    splice a (base + n) m = splice a base ((a.drop base).take n ++ m) := by
  rw [splice, splice, List.take_add, List.length_append, List.length_take, List.length_drop,
    Nat.min_eq_left (by omega), Nat.add_assoc]
  simp only [List.append_assoc]

theorem splice_append_right {a : List α} {base : ℕ} {m t : List α}
    (h : (a.drop (base + m.length)).take t.length = t) :
    splice a base m = splice a base (m ++ t) := by
  have hdrop := List.take_append_drop t.length (a.drop (base + m.length))
  rw [h, List.drop_drop] at hdrop
  rw [splice, splice, ← hdrop, List.length_append, ← Nat.add_assoc]
  simp only [List.append_assoc]

theorem splice_self {a : List α} {base : ℕ} {m : List α} (h : (a.drop base).take m.length = m) :
    splice a base m = a := by
  have hnil := splice_append_right (a := a) (m := []) (t := m) h
  rw [List.nil_append] at hnil
  rw [← hnil, splice, List.append_nil, List.length_nil, Nat.add_zero, List.take_append_drop]

section Adjacent

variable (E : Env α) [Std.TransCmp E.compare] (sort : SortState α) {base llen rlen : ℕ}
  (hlen : base + llen + rlen ≤ sort.array.length) (hl : 0 < llen) (hr : 0 < rlen)
  (hleft : ((sort.array.drop base).take llen).Pairwise fun a b => (E.compare a b).isLE = true)
  (hright : ((sort.array.drop (base + llen)).take rlen).Pairwise
    fun a b => (E.compare a b).isLE = true)

include hlen hl hr hleft hright

theorem mergeAdjacentSlices_spec :
    Merges E sort base (List.merge ((sort.array.drop base).take llen)
      ((sort.array.drop (base + llen)).take rlen) fun a b => (E.compare a b).isLE)
      (llen * E.elemsize) (mergeAdjacentSlices E sort base llen rlen) := by
  have hlleft : ((sort.array.drop base).take llen).length = llen := by
    rw [List.length_take, List.length_drop]
    omega
  obtain ⟨y, right, hy⟩ := List.exists_cons_of_ne_nil
    (List.ne_nil_of_length_pos (l := (sort.array.drop (base + llen)).take rlen) (by
      rw [List.length_take, List.length_drop]
      omega))
  obtain ⟨n, hn, hs⟩ := forward_right.left y _ hleft (List.ne_nil_of_length_pos (by omega))
  have hp : ∀ a ∈ ((sort.array.drop base).take llen).take n, (E.compare a y).isLE = true := by
    intro a ha
    have h := hs.before a ha
    simp only [forward, ← Std.OrientedCmp.isGT_eq_isLT] at h
    cases hc : E.compare a y <;> rw [hc] at h <;> first | rfl | exact absurd h (by decide)
  have hle : (fun x y => !(forward E.compare).takesRight x y) =
      fun x y => (E.compare x y).isLE := by
    funext x y
    simp only [forward, ← Std.OrientedCmp.isGT_eq_isLT]
    cases E.compare x y <;> rfl
  have hsplit := List.take_append_drop n ((sort.array.drop base).take llen)
  rw [mergeAdjacentSlices]
  simp only [hy]
  rw [show searchGreater E.compare y _ = some n from hn, Option.bind_some]
  split_ifs with hfull
  · -- no element of the left slice is greater than one of the right slice
    rw [List.take_of_length_le (by omega)] at hp
    have hmerge := merge_block_left (fun x y => (E.compare x y).isLE) hp [] right
    rw [List.append_nil, List.nil_merge] at hmerge
    refine ⟨none, sort.temp, ?_, fun _ => rfl⟩
    rw [if_pos rfl, hmerge, ← hy, ← List.drop_drop, ← List.take_add, splice_self]
    rw [List.length_take, List.length_drop, Nat.min_eq_left (by omega)]
  · obtain ⟨err, t, hens, hsize, hgrants⟩ :=
      ensuretempsize_spec E.vm sort.temp ((llen - n) * E.elemsize)
    have hg : Grants E.vm (llen * E.elemsize) → err = none :=
      hgrants _ (Nat.mul_le_mul_right _ (Nat.sub_le llen n))
    rw [hens]
    cases err with
    | some err => exact ⟨some err, t, rfl, hg⟩
    | none =>
      rw [hy] at hright
      simp only
      rw [if_pos (hsize rfl), mergeLoop_eq forward_right _ _ _ _
        (hleft.sublist (List.drop_sublist n _)) hright.of_cons, Option.map_some, hle]
      refine ⟨none, t, ?_, hg⟩
      rw [if_pos rfl, splice_append_left _ _ _ _ (by omega)]
      have hne : ((sort.array.drop base).take llen).drop n ≠ [] :=
        List.ne_nil_of_length_pos (by rw [List.length_drop]; omega)
      have hmerge := merge_split_left (fun x y => (E.compare x y).isLE) hp (fun a ha =>
        (congrFun (congrFun hle a) y).symm.trans (congrArg not (hs.stops a ha))) hne right
      rw [hsplit, List.take_take, Nat.min_eq_left (by omega)] at hmerge
      rw [hmerge]

theorem rmergeAdjacentSlices_spec :
    Merges E sort base (List.merge ((sort.array.drop base).take llen)
      ((sort.array.drop (base + llen)).take rlen) fun a b => (E.compare a b).isLE)
      (rlen * E.elemsize) (rmergeAdjacentSlices E sort base llen rlen) := by
  have hllen : ((sort.array.drop base).take llen).length = llen := by
    rw [List.length_take, List.length_drop]
    omega
  have hrlen : ((sort.array.drop (base + llen)).take rlen).length = rlen := by
    rw [List.length_take, List.length_drop]
    omega
  rw [← IsStableSort.merge_reverse hleft hright]
  obtain ⟨x, left, hx⟩ := List.exists_cons_of_ne_nil
    (List.ne_nil_of_length_pos (l := ((sort.array.drop base).take llen).reverse) (by
      rw [List.length_reverse, hllen]
      exact hl))
  have hleft' := List.pairwise_reverse.mpr hleft
  have hright' := List.pairwise_reverse.mpr hright
  have hxlen : left.length + 1 = llen := by
    rw [← List.length_cons (a := x), ← hx, List.length_reverse, hllen]
  obtain ⟨n, hn, hs⟩ := backward_right.right x _ hright' (List.ne_nil_of_length_pos (by
    rw [List.length_reverse, hrlen]
    exact hr))
  have hle : (fun y x => !!(backward E.compare).takesRight x y) =
      fun y x => (E.compare x y).isLE := by
    funext y x
    simp only [backward, ← Std.OrientedCmp.isGT_eq_isLT]
    cases E.compare x y <;> rfl
  have hp : ∀ a ∈ ((sort.array.drop (base + llen)).take rlen).reverse.take n,
      (fun y x => (E.compare x y).isLE) a x = true := by
    intro a ha
    rw [← hle]
    exact congrArg not (hs.before a ha)
  have hsplit := List.take_append_drop n ((sort.array.drop (base + llen)).take rlen).reverse
  rw [rmergeAdjacentSlices]
  simp only [hx]
  rw [show rsearchGreatequal E.compare x _ = some n from hn, Option.bind_some]
  split_ifs with hfull
  · -- no element of the right slice is less than one of the left slice
    rw [List.take_of_length_le (by rw [List.length_reverse]; omega)] at hp
    have hmerge := merge_block_left (fun y x => (E.compare x y).isLE) hp [] left
    rw [List.append_nil, List.nil_merge, ← hx] at hmerge
    refine ⟨none, sort.temp, ?_, fun _ => rfl⟩
    rw [if_pos rfl, ← hx, hmerge, List.reverse_append, List.reverse_reverse, List.reverse_reverse,
      ← List.drop_drop, ← List.take_add, splice_self]
    rw [List.length_take, List.length_drop, Nat.min_eq_left (by omega)]
  · obtain ⟨err, t, hens, hsize, hgrants⟩ :=
      ensuretempsize_spec E.vm sort.temp ((rlen - n) * E.elemsize)
    have hg : Grants E.vm (rlen * E.elemsize) → err = none :=
      hgrants _ (Nat.mul_le_mul_right _ (Nat.sub_le rlen n))
    rw [hens]
    cases err with
    | some err => exact ⟨some err, t, rfl, hg⟩
    | none =>
      rw [hx] at hleft'
      simp only
      rw [if_pos (hsize rfl), mergeLoop_eq backward_right _ _ _ _ hleft'.of_cons
        (hright'.sublist (List.drop_sublist n _)), Option.map_some,
        merge_swap fun x y => !(backward E.compare).takesRight x y, hle]
      refine ⟨none, t, ?_, hg⟩
      have hne : ((sort.array.drop (base + llen)).take rlen).reverse.drop n ≠ [] :=
        List.ne_nil_of_length_pos (by rw [List.length_drop, List.length_reverse]; omega)
      have hmerge := merge_split_left (fun y x => (E.compare x y).isLE) hp (fun a ha =>
        (congrFun (congrFun hle a) x).symm.trans (congrArg not (hs.stops a ha))) hne left
      rw [hsplit] at hmerge
      rw [if_pos rfl, hmerge, List.reverse_append, splice_append_right]
      -- the elements that are in place
      rw [List.take_reverse, List.reverse_reverse, hrlen, List.drop_take, List.drop_drop,
        List.length_reverse, List.length_cons, List.length_merge, List.length_drop,
        List.length_reverse, hrlen, List.length_take, Nat.add_assoc, Nat.add_assoc, hxlen,
        Nat.add_comm _ llen, ← List.take_eq_take_min]

end Adjacent

end Mergesort
end CKern
