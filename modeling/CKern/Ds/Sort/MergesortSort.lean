import CKern.Ds.Sort.MergesortMerge

/-!
# `ds/sort/mergesort_generic_impl.h`: the array is sorted

* `presort`, `insertsort`, `nextSlice`: the next slice of the array is sorted.
* `mergeTop`, `establishSort`, `mergeAll`, `sortLoop`, `sortMergesort`: the loops of the sort, with
  the errors of the temporary memory.
* `Inv`: each slice on the stack is the stable sort of its part of the array.
* `sortMergesort_exact`: the result is the stable sort of the array, or an error of the memory that
  leaves a permutation.
-/

namespace CKern
namespace Mergesort

variable {α : Type*} {cmp : α → α → Ordering} [Std.TransCmp cmp]

/-! ## The next slice -/

/-- The comparison of the element behind the element `i` with this one. -/
def lessAt (compare : α → α → Ordering) (a : List α) (i : ℕ) : Bool :=
  match a[i]?, a[i + 1]? with
  | some x, some y => (compare y x).isLT
  | _, _ => false -- `count_presorted` does not compare there

/-- `count_presorted` with the elements that it reverses. -/
def presort (compare : α → α → Ordering) (a : List α) : ℕ × List α :=
  let n := countPresorted (lessAt compare a) a.length
  if lessAt compare a 0 then (n, (a.take n).reverse ++ a.drop n) else (n, a)

/-- `insertsort`, for the sorted elements and the next ones; it looks at the elements in the middle
that `searchBinary` looks at. -/
def insertsort (compare : α → α → Ordering) : List α → List α → Option (List α)
  | a, [] => some a
  | a, next :: rest =>
    (searchBinary (fun i => a[i]?.map fun x => (compare next x).isLT) 0 a.length).bind fun l =>
      insertsort compare (a.take l ++ next :: a.drop l) rest

/-- The next slice of the sort, in the array from its start on. -/
def nextSlice (compare : α → α → Ordering) (minlen : ℕ) (a : List α) : Option (ℕ × List α) :=
  let (n, a) := presort compare a
  if n < minlen then
    let extlen := (if a.length ≤ minlen then a.length else minlen) % 2 ^ 8
    (insertsort compare (a.take n) ((a.take extlen).drop n)).map fun out =>
      (extlen, out ++ a.drop extlen)
  else some (n, a)

theorem skipRun_goesOn (goesOn : ℕ → Bool) (n next : ℕ) :
    ∀ i, next ≤ i → i < next + (n - skipRun goesOn n next) → goesOn i = true := by
  induction n generalizing next with
  | zero => exact fun i hi hlt => by omega
  | succ n ih =>
    intro i hi hlt
    rw [skipRun] at hlt
    split_ifs at hlt with h
    · rcases hi.eq_or_lt with rfl | hi
      · exact h
      · have := skipRun_le goesOn n (next + 1)
        exact ih (next + 1) i hi (by omega)
    · omega

theorem countPresorted_run (less : ℕ → Bool) {len i : ℕ} (hi : i + 1 < countPresorted less len) :
    less i = less 0 := by
  rw [countPresorted] at hi
  split_ifs at hi with hlen h0
  · omega
  · rcases Nat.eq_zero_or_pos i with rfl | hpos
    · rfl
    · rw [h0]
      exact skipRun_goesOn less (len - 2) 1 i hpos (by omega)
  · rcases Nat.eq_zero_or_pos i with rfl | hpos
    · rfl
    · rw [eq_false_of_ne_true h0, ← Bool.not_eq_true']
      exact skipRun_goesOn (fun i => !less i) (len - 2) 1 i hpos (by omega)

/-- What becomes of the first elements of the rest of the array. -/
structure Presorted (compare : α → α → Ordering) (a : List α) (n : ℕ) (a' : List α) : Prop where
  pos : 0 < n
  le : n ≤ a.length
  sorted : IsStableSort compare (a'.take n) (a.take n)
  rest : a'.drop n = a.drop n

omit [Std.TransCmp cmp] in
theorem Presorted.length_eq {a a' : List α} {n : ℕ} (h : Presorted cmp a n a') :
    a'.length = a.length := by
  have hlen := h.sorted.perm.length_eq
  have hrest := congrArg List.length h.rest
  have := h.le
  rw [List.length_take, List.length_take] at hlen
  rw [List.length_drop, List.length_drop] at hrest
  omega

theorem pairwise_of_adjacent {R : α → α → Prop} (htrans : ∀ {a b c}, R a b → R b c → R a c)
    {l : List α} (h : ∀ i x y, l[i]? = some x → l[i + 1]? = some y → R x y) : l.Pairwise R := by
  have : IsTrans α R := ⟨fun _ _ _ => htrans⟩
  refine List.isChain_iff_pairwise.mp (List.isChain_iff_getElem.mpr fun i hi => ?_)
  exact h i _ _ (List.getElem?_eq_getElem (by omega)) (List.getElem?_eq_getElem hi)

theorem presort_spec {a : List α} (hne : a ≠ []) :
    ∃ n a', presort cmp a = (n, a') ∧ Presorted cmp a n a' := by
  obtain ⟨hpos, hle⟩ := countPresorted_spec (lessAt cmp a) (List.length_pos_iff.mpr hne)
  have hrun : ∀ i x y, (a.take (countPresorted (lessAt cmp a) a.length))[i]? = some x →
      (a.take (countPresorted (lessAt cmp a) a.length))[i + 1]? = some y →
      (cmp y x).isLT = lessAt cmp a 0 := by
    intro i x y hx hy
    rw [List.getElem?_take] at hx hy
    split_ifs at hx hy with hi hi'
    rw [← countPresorted_run (lessAt cmp a) hi', lessAt, hx, hy]
  rw [presort]
  split_ifs with h0
  · refine ⟨_, _, rfl, hpos, hle, ?_, ?_⟩
    · rw [List.take_left' (by rw [List.length_reverse, List.length_take, Nat.min_eq_left hle])]
      refine IsStableSort.of_descending (pairwise_of_adjacent (R := fun x y => cmp y x = .lt)
        (fun hab hbc => Std.TransCmp.lt_trans hbc hab) fun i x y hx hy => ?_)
      rw [← Ordering.isLT_iff_eq_lt, hrun i x y hx hy, h0]
    · rw [List.drop_left' (by rw [List.length_reverse, List.length_take, Nat.min_eq_left hle])]
  · refine ⟨_, _, rfl, hpos, hle, ?_, rfl⟩
    refine IsStableSort.of_ascending (pairwise_of_adjacent Std.TransCmp.isLE_trans
      fun i x y hx hy => ?_)
    have hlt := hrun i x y hx hy
    rw [eq_false_of_ne_true h0, ← Std.OrientedCmp.isGT_eq_isLT] at hlt
    cases hc : cmp x y <;> rw [hc] at hlt <;> first | rfl | exact absurd hlt (by decide)

theorem insertsort_spec (rest : List α) {a l : List α} (h : IsStableSort cmp a l) :
    ∃ out, insertsort cmp a rest = some out ∧ IsStableSort cmp out (l ++ rest) := by
  induction rest generalizing a l with
  | nil => exact ⟨a, rfl, (List.append_nil l).symm ▸ h⟩
  | cons x rest ih =>
    have hswap : ∀ b, (cmp x b).isLT = !(cmp b x).isLE := fun b => by
      rw [← Std.OrientedCmp.isGT_eq_isLT]
      cases cmp b x <;> rfl
    obtain ⟨n, hn, hs⟩ := searchBinary_splits (q := fun b => (cmp x b).isLT) (fun b c hbc hb => by
      rw [Ordering.isLT_iff_eq_lt] at hb ⊢
      exact Std.TransCmp.lt_of_lt_of_isLE hb hbc) h.ascending
    -- to insert an element behind the equal ones is to merge it
    have hinsert : a.take n ++ x :: a.drop n = List.merge a [x] fun a b => (cmp a b).isLE := by
      have hblock := merge_block_left (fun a b => (cmp a b).isLE) (p := a.take n) (y := x)
        (fun b hb => by rw [← Bool.not_eq_false', ← hswap, hs.before b hb]) (a.drop n) []
      rw [List.take_append_drop] at hblock
      rw [hblock]
      cases hdrop : a.drop n with
      | nil => rw [List.nil_merge]
      | cons b t =>
        have hb := hs.stops b (by rw [hdrop]; rfl)
        rw [hswap, Bool.not_eq_true'] at hb
        rw [List.cons_merge_cons_neg _ _ _ (by rw [hb]; exact Bool.false_ne_true),
          List.merge_right]
    rw [insertsort, hn, Option.bind_some, hinsert]
    have hrest := ih (h.merge (IsStableSort.singleton x))
    rwa [List.append_assoc] at hrest

theorem nextSlice_spec {minlen : ℕ} (hmin : minlen ≤ 64) {a : List α} (hne : a ≠ []) :
    ∃ n a', nextSlice cmp minlen a = some (n, a') ∧ Presorted cmp a n a' := by
  obtain ⟨n, b, hb, h⟩ := @presort_spec α cmp _ a hne
  have hlen := h.length_eq
  have hle := h.le
  rw [nextSlice, hb]
  simp only
  by_cases hlt : n < minlen
  · obtain ⟨e, he, hne, hea⟩ : ∃ e, (if b.length ≤ minlen then b.length else minlen) % 2 ^ 8 = e ∧
        n ≤ e ∧ e ≤ a.length := by
      refine ⟨_, rfl, ?_⟩
      split_ifs <;> rw [Nat.mod_eq_of_lt (by omega)] <;> omega
    rw [if_pos hlt, he]
    have htake : a.take n ++ (b.take e).drop n = a.take e := by
      rw [List.drop_take, h.rest, ← List.take_add, Nat.add_sub_cancel' hne]
    obtain ⟨out, hout, hsorted⟩ := insertsort_spec ((b.take e).drop n) h.sorted
    rw [htake] at hsorted
    have houtlen : out.length = e := by
      rw [hsorted.perm.length_eq, List.length_take, Nat.min_eq_left hea]
    rw [hout, Option.map_some]
    refine ⟨e, _, rfl, h.pos.trans_le hne, hea, ?_, ?_⟩
    · rwa [List.take_left' houtlen]
    · rw [List.drop_left' houtlen, ← Nat.add_sub_cancel' hne, ← List.drop_drop, h.rest,
        List.drop_drop]
  · rw [if_neg hlt]
    exact ⟨n, b, rfl, h⟩

/-! ## The whole array -/

/-- What goes on if there is no error. -/
def andThen (r : Option (Option Errno × SortState α))
    (f : SortState α → Option (Option Errno × SortState α)) : Option (Option Errno × SortState α) :=
  r.bind fun p =>
    match p with
    | (some err, sort) => some (some err, sort)
    | (none, sort) => f sort

/-- `merge_topofstack`. -/
def mergeTop (E : Env α) (isSecondTop : Bool) (sort : SortState α) :
    Option (Option Errno × SortState α) :=
  match sort.stack.drop isSecondTop.toNat with
  | right :: left :: _ =>
    let sort := { sort with stack := mergeTopofstack isSecondTop sort.stack }
    if left.len ≤ right.len then mergeAdjacentSlices E sort left.base left.len right.len
    else rmergeAdjacentSlices E sort left.base left.len right.len
  | _ => none -- there are at least two slices

/-- `establish_stack_invariant`; each of its rounds makes the stack shorter. -/
def establishSort (E : Env α) : ℕ → SortState α → Option (Option Errno × SortState α)
  | 0, _ => none
  | turns + 1, sort =>
    if sort.stack.length > 1 then
      if (sort.stack.length > 2 ∧ len sort.stack 2 ≤ sizeT (len sort.stack 1 + len sort.stack 0)) ∨
          (sort.stack.length > 3 ∧
            len sort.stack 3 ≤ sizeT (len sort.stack 2 + len sort.stack 1)) then
        andThen (mergeTop E (len sort.stack 2 ≤ len sort.stack 0) sort) (establishSort E turns)
      else if len sort.stack 1 > len sort.stack 0 then some (none, sort)
      else andThen (mergeTop E false sort) (establishSort E turns)
    else some (none, sort)

/-- `merge_all`. -/
def mergeAll (E : Env α) : ℕ → SortState α → Option (Option Errno × SortState α)
  | 0, _ => none
  | turns + 1, sort =>
    if sort.stack.length > 1 then andThen (mergeTop E false sort) (mergeAll E turns)
    else some (none, sort)

/-- The loop of `sortptr_mergesort`, `sortlong_mergesort` and `sortbytes_mergesort`, from the index
`next` on. -/
def sortLoop (E : Env α) (minlen : ℕ) :
    ℕ → ℕ → SortState α → Option (Option Errno × SortState α)
  | 0, _, _ => none
  | turns + 1, next, sort =>
    (nextSlice E.compare minlen (sort.array.drop next)).bind fun p =>
      let sort := { sort with array := sort.array.take next ++ p.2 }
      -- stack size chosen too small for size_t type
      andThen (if sort.stack.length = stackMax then mergeTop E false sort else some (none, sort))
        fun sort => andThen
          (establishSort E (sort.stack.length + 2)
            { sort with stack := ⟨next, p.1⟩ :: sort.stack })
          fun sort =>
            if sort.array.length - (next + p.1) = 0 then some (none, sort)
            else sortLoop E minlen turns (next + p.1) sort

/-- `sortptr_mergesort` and `sortblob_mergesort`, with `setsortstate`. -/
def sortMergesort (compare : Option (α → α → Ordering)) (elemsize : ℕ) (vm : ℕ → Vm) (temp : Temp)
    (a : List α) : Option (Option Errno × SortState α) :=
  if a.length < 2 then some (none, ⟨a, [], temp⟩)
  else match compare with
    | none => some (some .EINVAL, ⟨a, [], temp⟩)
    | some compare =>
      if elemsize = 0 ∨ (2 ^ 64 - 1) / elemsize < a.length then
        some (some .EINVAL, ⟨a, [], temp⟩)
      else
        andThen (sortLoop ⟨compare, elemsize, vm⟩ (computeMinslicelen a.length) a.length 0
          ⟨a, [], temp⟩) fun sort => mergeAll ⟨compare, elemsize, vm⟩ (sort.stack.length + 1) sort

/-- The elements of a slice. -/
def seg (a : List α) (s : Slice) : List α := (a.drop s.base).take s.len

/-- The slices of the stack are neighbours in the first `n` elements. -/
def Tiled : List Slice → ℕ → Prop
  | [], n => n = 0
  | s :: rest, n => 0 < s.len ∧ s.base + s.len = n ∧ Tiled rest s.base

/-- What holds while the array `orig` is sorted: each slice on the stack is sorted, the elements
from `next` on are as they were. -/
structure Inv (compare : α → α → Ordering) (orig : List α) (sort : SortState α) (next : ℕ) :
    Prop where
  tiled : Tiled sort.stack next
  le : next ≤ orig.length
  sorted : ∀ s ∈ sort.stack, IsStableSort compare (seg sort.array s) (seg orig s)
  rest : sort.array.drop next = orig.drop next
  length_eq : sort.array.length = orig.length

theorem Tiled.end_le {stack : List Slice} {n : ℕ} (h : Tiled stack n) :
    ∀ s ∈ stack, s.base + s.len ≤ n := by
  induction stack generalizing n with
  | nil => exact fun s hs => absurd hs List.not_mem_nil
  | cons t rest ih =>
    obtain ⟨-, hn, hrest⟩ := h
    intro s hs
    rcases List.mem_cons.mp hs with rfl | hs
    · exact hn.le
    · have := ih hrest s hs
      omega

/-- The slices around the two that are merged. -/
theorem Tiled.two {pre rest : List Slice} {right left : Slice} {n : ℕ}
    (h : Tiled (pre ++ right :: left :: rest) n) (hpre : pre.length ≤ 1) :
    0 < left.len ∧ 0 < right.len ∧ right.base = left.base + left.len ∧
      right.base + right.len ≤ n ∧ (∀ s ∈ pre, right.base + right.len ≤ s.base) ∧
      (∀ s ∈ rest, s.base + s.len ≤ left.base) ∧
      Tiled (pre ++ ⟨left.base, left.len + right.len⟩ :: rest) n := by
  match pre, hpre with
  | [], _ =>
    obtain ⟨hr, hn, hl, hb, hrest⟩ := h
    exact ⟨hl, hr, hb.symm, hn.le, fun s hs => absurd hs List.not_mem_nil, hrest.end_le,
      Nat.add_pos_left hl _, by simp only; omega, hrest⟩
  | [top], _ =>
    obtain ⟨ht, htn, hr, hn, hl, hb, hrest⟩ := h
    refine ⟨hl, hr, hb.symm, by omega, fun s hs => ?_, hrest.end_le, ht, htn,
      Nat.add_pos_left hl _, by simp only; omega, hrest⟩
    rw [List.mem_singleton.mp hs, hn]

theorem seg_take (a : List α) (s : Slice) : seg a s = (a.take (s.base + s.len)).drop s.base := by
  rw [seg, List.drop_take, Nat.add_sub_cancel_left]

theorem seg_append (a : List α) (base l r : ℕ) :
    seg a ⟨base, l + r⟩ = seg a ⟨base, l⟩ ++ seg a ⟨base + l, r⟩ := by
  rw [seg, seg, seg, ← List.drop_drop, ← List.take_add]

section Splice

variable {a m : List α} {base n : ℕ}

theorem splice_take (hn : n ≤ base) (hb : base ≤ a.length) :
    (splice a base m).take n = a.take n := by
  rw [splice, List.append_assoc, List.take_append_of_le_length
    (by rw [List.length_take]; omega), List.take_take, Nat.min_eq_left hn]

theorem splice_drop (hn : base + m.length ≤ n) (ha : base + m.length ≤ a.length) :
    (splice a base m).drop n = a.drop n := by
  have hlen : (a.take base ++ m).length = base + m.length := by
    rw [List.length_append, List.length_take, Nat.min_eq_left (by omega)]
  rw [splice, List.drop_append, List.drop_of_length_le (by omega), List.nil_append,
    List.drop_drop, hlen, Nat.add_sub_cancel' hn]

theorem seg_splice (ha : base ≤ a.length) : seg (splice a base m) ⟨base, m.length⟩ = m := by
  have hlen : (a.take base).length = base := by rw [List.length_take, Nat.min_eq_left ha]
  rw [seg, splice, List.append_assoc, List.drop_left' hlen, List.take_left' rfl]

theorem length_splice (ha : base + m.length ≤ a.length) : (splice a base m).length = a.length := by
  rw [splice, List.length_append, List.length_append, List.length_take, List.length_drop]
  omega

end Splice

section Inv

variable {orig : List α} {sort : SortState α} {next : ℕ}

theorem Inv.perm_take {stack : List Slice} (ht : Tiled stack next)
    (hs : ∀ s ∈ stack, (seg sort.array s).Perm (seg orig s)) :
    (sort.array.take next).Perm (orig.take next) := by
  induction stack generalizing next with
  | nil =>
    rw [show next = 0 from ht]
    exact List.Perm.refl _
  | cons s rest ih =>
    obtain ⟨-, rfl, hrest⟩ := ht
    rw [List.take_add, List.take_add]
    exact (ih hrest fun t ht => hs t (List.mem_cons_of_mem s ht)).append (hs s List.mem_cons_self)

omit [Std.TransCmp cmp] in
theorem Inv.perm (h : Inv cmp orig sort next) : sort.array.Perm orig := by
  have hp := (Inv.perm_take h.tiled fun s hs => (h.sorted s hs).perm).append_right
    (orig.drop next)
  rwa [List.take_append_drop, ← h.rest, List.take_append_drop] at hp

omit [Std.TransCmp cmp] in
/-- Two slices are replaced by one. -/
theorem Inv.splice (h : Inv cmp orig sort next) {pre rest : List Slice} {right left : Slice}
    (hstack : sort.stack = pre ++ right :: left :: rest) (hpre : pre.length ≤ 1) {m : List α}
    (hm : IsStableSort cmp m (seg orig left ++ seg orig right)) (temp : Temp) :
    Inv cmp orig ⟨Mergesort.splice sort.array left.base m,
      pre ++ ⟨left.base, left.len + right.len⟩ :: rest, temp⟩ next := by
  obtain ⟨-, -, hright, hend, habove, hbelow, htiled⟩ := (hstack ▸ h.tiled).two hpre
  have hle := h.le
  have hlen := h.length_eq
  have hm' : m.length = left.len + right.len := by
    rw [hm.perm.length_eq, List.length_append, seg, seg, List.length_take, List.length_take,
      List.length_drop, List.length_drop]
    omega
  refine ⟨htiled, hle, fun s hs => ?_, ?_, ?_⟩
  · rcases List.mem_append.mp hs with hs | hs
    · have hs' := habove s hs
      rw [seg, splice_drop (by omega) (by omega)]
      exact h.sorted s (hstack ▸ List.mem_append_left _ hs)
    · rcases List.mem_cons.mp hs with rfl | hs
      · have hseg := @seg_splice α sort.array m left.base (by omega)
        rw [hm'] at hseg
        rw [hseg, seg_append, ← hright]
        exact hm
      · rw [seg_take, splice_take (hbelow s hs) (by omega), ← seg_take]
        exact h.sorted s (hstack ▸ List.mem_append_right _
          (List.mem_cons_of_mem _ (List.mem_cons_of_mem _ hs)))
  · rw [splice_drop (by omega) (by omega)]
    exact h.rest
  · rw [length_splice (by omega)]
    exact hlen

/-- The outcome of a part of the sort: the array is a permutation of `orig`; if there is no error,
the invariant holds and the stack is one of `P`.  Half of the array is enough memory. -/
def Good (E : Env α) (orig : List α) (next : ℕ) (P : List Slice → Prop)
    (r : Option (Option Errno × SortState α)) : Prop :=
  ∃ err sort, r = some (err, sort) ∧ sort.array.Perm orig ∧
    (err = none → Inv E.compare orig sort next ∧ P sort.stack) ∧
    (Grants E.vm (orig.length / 2 * E.elemsize) → err = none)

variable {E : Env α} {P Q : List Slice → Prop}

theorem Inv.good (h : Inv E.compare orig sort next) [Std.TransCmp E.compare] (hP : P sort.stack) :
    Good E orig next P (some (none, sort)) :=
  ⟨none, sort, rfl, h.perm, fun _ => ⟨h, hP⟩, fun _ => rfl⟩

omit [Std.TransCmp cmp] in
theorem Good.andThen {orig' : List α} {r : Option (Option Errno × SortState α)}
    (h : Good E orig' next P r) (horig : orig'.Perm orig)
    {f : SortState α → Option (Option Errno × SortState α)} {n : ℕ}
    (hf : ∀ sort, Inv E.compare orig' sort next → P sort.stack → Good E orig n Q (f sort)) :
    Good E orig n Q (andThen r f) := by
  obtain ⟨err, sort, rfl, hperm, hinv, hg⟩ := h
  rw [horig.length_eq] at hg
  cases err with
  | some err => exact ⟨some err, sort, rfl, hperm.trans horig, fun h => absurd h (by simp), hg⟩
  | none =>
    obtain ⟨err, sort', hr, hperm', hinv', hg'⟩ := hf sort (hinv rfl).1 (hinv rfl).2
    exact ⟨err, sort', hr, hperm', hinv', hg'⟩

theorem mergeTop_good [Std.TransCmp E.compare] (h : Inv E.compare orig sort next)
    (horig : orig.length < 2 ^ 64) {isSecondTop : Bool}
    (hlen : isSecondTop.toNat + 1 < sort.stack.length) :
    Good E orig next (fun stack => stack.length + 1 = sort.stack.length)
      (mergeTop E isSecondTop sort) := by
  obtain ⟨pre, right, left, rest, hstack, hpre, hdrop, hmerge⟩ : ∃ pre right left rest,
      sort.stack = pre ++ right :: left :: rest ∧ pre.length ≤ 1 ∧
      sort.stack.drop isSecondTop.toNat = right :: left :: rest ∧
      mergeTopofstack isSecondTop sort.stack =
        pre ++ ⟨left.base, sizeT (left.len + right.len)⟩ :: rest := by
    match isSecondTop, sort.stack, hlen with
    | false, right :: left :: rest, _ => exact ⟨[], right, left, rest, rfl, Nat.zero_le 1, rfl, rfl⟩
    | true, top :: right :: left :: rest, _ =>
      exact ⟨[top], right, left, rest, rfl, le_refl 1, rfl, rfl⟩
    | true, [_, _], h => exact absurd h (by simp)
    | true, [_], h => exact absurd h (by simp)
    | false, [_], h => exact absurd h (by simp)
  have hr := h.sorted right (by rw [hstack]; simp)
  have hl := h.sorted left (by rw [hstack]; simp)
  have hsorted := hl.merge hr
  obtain ⟨hlpos, hrpos, hbase, hend, -⟩ := (hstack ▸ h.tiled).two hpre
  have hle := h.le
  have harray := h.length_eq
  have hsize : sizeT (left.len + right.len) = left.len + right.len := sizeT_of_lt (by omega)
  rw [mergeTop, hdrop, hmerge, hsize]
  simp only
  have hgood : ∀ bytes r, bytes ≤ orig.length / 2 → Merges E
      { sort with stack := pre ++ ⟨left.base, left.len + right.len⟩ :: rest } left.base
      (List.merge (seg sort.array left) (seg sort.array right) fun a b => (E.compare a b).isLE)
      (bytes * E.elemsize) r →
      Good E orig next (fun stack => stack.length + 1 = sort.stack.length) r := by
    rintro bytes r hbytes ⟨err, temp, rfl, hg⟩
    have hinv := h.splice hstack hpre hsorted temp
    refine ⟨err, _, rfl, ?_, fun herr => ?_, fun hgrants => hg fun c => ⟨(hgrants c).1,
      fun size hsize => (hgrants c).2 size (hsize.trans (Nat.mul_le_mul_right _ hbytes))⟩⟩
    · split_ifs with herr
      · exact hinv.perm
      · exact h.perm
    · rw [if_pos herr]
      refine ⟨hinv, ?_⟩
      rw [hstack]
      simp only [List.length_append, List.length_cons]
      omega
  have hseg : seg sort.array right = (sort.array.drop (left.base + left.len)).take right.len := by
    rw [seg, hbase]
  rw [hseg] at hgood
  have hasc : ((sort.array.drop (left.base + left.len)).take right.len).Pairwise
      fun a b => (E.compare a b).isLE = true := hseg ▸ hr.ascending
  split_ifs with hcmp
  · exact hgood left.len _ (by omega) (mergeAdjacentSlices_spec E
      { sort with stack := pre ++ ⟨left.base, left.len + right.len⟩ :: rest }
      (by simp only; omega) hlpos hrpos hl.ascending hasc)
  · exact hgood right.len _ (by omega) (rmergeAdjacentSlices_spec E
      { sort with stack := pre ++ ⟨left.base, left.len + right.len⟩ :: rest }
      (by simp only; omega) hlpos hrpos hl.ascending hasc)

/-- The loop of `establish_stack_invariant` ends. -/
theorem establishSort_good [Std.TransCmp E.compare] (horig : orig.length < 2 ^ 64) {turns : ℕ}
    (h : Inv E.compare orig sort next) (hturns : sort.stack.length < turns) :
    Good E orig next (fun _ => True) (establishSort E turns sort) := by
  induction turns generalizing sort with
  | zero => exact absurd hturns (Nat.not_lt_zero _)
  | succ turns ih =>
    rw [establishSort]
    split_ifs with h1 h3 h2
    · refine (mergeTop_good h horig ?_).andThen (List.Perm.refl orig) fun s hs hlen =>
        ih hs (by omega)
      have := Bool.toNat_le (decide (len sort.stack 2 ≤ len sort.stack 0))
      omega
    · exact h.good trivial
    · exact (@mergeTop_good α orig sort next E _ h horig false h1).andThen (List.Perm.refl orig)
        fun s hs hlen => ih hs (by omega)
    · exact h.good trivial

theorem mergeAll_good [Std.TransCmp E.compare] (horig : orig.length < 2 ^ 64) {turns : ℕ}
    (h : Inv E.compare orig sort next) (hturns : sort.stack.length < turns) :
    Good E orig next (fun stack => stack.length ≤ 1) (mergeAll E turns sort) := by
  induction turns generalizing sort with
  | zero => exact absurd hturns (Nat.not_lt_zero _)
  | succ turns ih =>
    rw [mergeAll]
    split_ifs with h1
    · exact (@mergeTop_good α orig sort next E _ h horig false h1).andThen (List.Perm.refl orig)
        fun s hs hlen => ih hs (by omega)
    · exact h.good (not_lt.mp h1)

omit [Std.TransCmp cmp] in
/-- The next slice has been sorted in the array. -/
theorem Inv.change (h : Inv cmp orig sort next) {a : List α} (ha : a.length = orig.length - next) :
    Inv cmp (orig.take next ++ a) { sort with array := sort.array.take next ++ a } next := by
  have hle := h.le
  have hlen := h.length_eq
  have htake : (sort.array.take next).length = next := by rw [List.length_take]; omega
  have htake' : (orig.take next).length = next := by rw [List.length_take]; omega
  refine ⟨h.tiled, by rw [List.length_append]; omega, fun s hs => ?_, ?_, ?_⟩
  · have hend := h.tiled.end_le s hs
    rw [seg_take, seg_take, List.take_append_of_le_length (by omega), List.take_take,
      List.take_append_of_le_length (by omega), List.take_take, Nat.min_eq_left hend, ← seg_take,
      ← seg_take]
    exact h.sorted s hs
  · rw [List.drop_left' htake, List.drop_left' htake']
  · rw [List.length_append, List.length_append, htake, htake']

omit [Std.TransCmp cmp] in
/-- The slice is pushed on the stack. -/
theorem Inv.push {a : List α} {n : ℕ} (h : Inv cmp (orig.take next ++ a) sort next)
    (hnext : next ≤ orig.length) (ha : Presorted cmp (orig.drop next) n a) :
    Inv cmp orig { sort with stack := ⟨next, n⟩ :: sort.stack } (next + n) := by
  have hle := ha.le
  rw [List.length_drop] at hle
  have hrest := h.rest
  have htake : (orig.take next).length = next := by rw [List.length_take]; omega
  rw [List.drop_left' htake] at hrest
  refine ⟨⟨ha.pos, rfl, h.tiled⟩, by omega, fun s hs => ?_, ?_, ?_⟩
  · rcases List.mem_cons.mp hs with rfl | hs
    · rw [seg, seg, hrest]
      exact ha.sorted
    · have hsorted := h.sorted s hs
      have hend := h.tiled.end_le s hs
      rwa [seg_take (orig.take next ++ a), List.take_append_of_le_length (by omega), List.take_take,
        Nat.min_eq_left hend, ← seg_take] at hsorted
  · rw [← List.drop_drop, hrest, ha.rest, List.drop_drop]
  · rw [h.length_eq, List.length_append, ha.length_eq, htake, List.length_drop]
    omega

theorem sortLoop_good [Std.TransCmp E.compare] (horig : orig.length < 2 ^ 64) {minlen turns : ℕ}
    (hmin : minlen ≤ 64) (h : Inv E.compare orig sort next) (hnext : next < orig.length)
    (hturns : orig.length - next ≤ turns) :
    Good E orig orig.length (fun _ => True) (sortLoop E minlen turns next sort) := by
  induction turns generalizing sort next with
  | zero => omega
  | succ turns ih =>
    obtain ⟨n, a, hslice, ha⟩ := @nextSlice_spec α E.compare _ minlen hmin (orig.drop next)
      (List.ne_nil_of_length_pos (by rw [List.length_drop]; omega))
    have hlen := ha.length_eq
    have hpos := ha.pos
    have hperm : (orig.take next ++ a).Perm orig := by
      have hp := (ha.sorted.perm.append_right (a.drop n)).append_left (orig.take next)
      rwa [List.take_append_drop, ha.rest, List.take_append_drop, List.take_append_drop] at hp
    rw [List.length_drop] at hlen
    rw [sortLoop, h.rest, hslice, Option.bind_some]
    refine @Good.andThen α orig next E (fun _ => True) _ _ _ ?_ hperm _ _ fun s hs _ => ?_
    · split_ifs with hfull
      · obtain ⟨err, s, hs, hp, hi, hg⟩ := @mergeTop_good α _ _ next E _ (h.change hlen)
          (by rwa [hperm.length_eq]) false (by rw [hfull]; decide)
        exact ⟨err, s, hs, hp, fun h => ⟨(hi h).1, trivial⟩, hg⟩
      · exact (h.change hlen).good trivial
    · refine (establishSort_good horig (hs.push hnext.le ha) (by simp)).andThen
        (List.Perm.refl orig) fun s' hs' _ => ?_
      have hlen' := hs'.length_eq
      have hle := hs'.le
      split_ifs with hend
      · rw [show orig.length = next + n by omega]
        exact hs'.good trivial
      · exact ih hs' (by omega) (by omega)

end Inv

/-- **The sort is stable and sorts**: without an error the array is the stable sort of what it was;
it is a permutation of it in any case, and half of its size is enough temporary memory. -/
theorem sortMergesort_exact (compare : α → α → Ordering) [Std.TransCmp compare] (elemsize : ℕ)
    (vm : ℕ → Vm) (temp : Temp) (a : List α) :
    ∃ err sort, sortMergesort (some compare) elemsize vm temp a = some (err, sort) ∧
      sort.array.Perm a ∧
      (err = none → sort.array = a.mergeSort fun x y => (compare x y).isLE) ∧
      (0 < elemsize → a.length * elemsize < 2 ^ 64 → Grants vm (a.length / 2 * elemsize) →
        err = none) := by
  rw [sortMergesort]
  split_ifs with hshort hsize
  · refine ⟨none, _, rfl, List.Perm.refl a, fun _ => ?_, fun _ _ _ => rfl⟩
    match a, hshort with
    | [], _ => exact List.mergeSort_nil.symm
    | [x], _ => exact (List.mergeSort_singleton x).symm
  · refine ⟨_, _, rfl, List.Perm.refl a, fun h => absurd h (by simp), fun hpos hlt => ?_⟩
    have := (Nat.le_div_iff_mul_le hpos).mpr (Nat.le_sub_one_of_lt hlt)
    omega
  · have hlen : a.length < 2 ^ 64 := by
      have := Nat.div_le_self (2 ^ 64 - 1) elemsize
      omega
    have hinit : Inv compare a ⟨a, [], temp⟩ 0 :=
      ⟨rfl, Nat.zero_le _, fun s hs => absurd hs List.not_mem_nil, rfl, rfl⟩
    obtain ⟨err, sort, hsort, hperm, hinv, hg⟩ := (@sortLoop_good α a _ 0
      ⟨compare, elemsize, vm⟩ _ hlen _ _ (computeMinslicelen_spec a.length).2 hinit (by omega)
      (Nat.sub_le _ _)).andThen (List.Perm.refl a) fun s hs _ =>
        mergeAll_good hlen hs (Nat.lt_succ_self _)
    refine ⟨err, sort, hsort, hperm, fun herr => ?_, fun _ _ => hg⟩
    obtain ⟨h, hone⟩ := hinv herr
    -- the only slice is the array
    have htiled := h.tiled
    have hsorted := h.sorted
    match sort.stack, htiled, hone, hsorted with
    | [], ht, _, _ => exact absurd (show a.length = 0 from ht) (by omega)
    | [s], ht, _, hs =>
      obtain ⟨-, hn, hb⟩ := ht
      have hwhole : ∀ l : List α, l.length = a.length → seg l s = l := by
        intro l hl
        rw [seg, show s.base = 0 from hb, List.drop_zero, List.take_of_length_le]
        rw [hl, ← hn, show s.base = 0 from hb, Nat.zero_add]
      have hs' := hs s List.mem_cons_self
      rw [hwhole _ h.length_eq, hwhole _ rfl] at hs'
      exact hs'.eq_mergeSort

/-- Three numbers, with memory for everything. -/
theorem sortMergesort_exact_three :
    ∃ sort, sortMergesort (some (compare : ℕ → ℕ → Ordering)) 8
        (fun _ => ⟨none, fun n => .ok ⟨n, le_refl n⟩⟩) ⟨true, sizeofTempmem, 0⟩ [30, 10, 20] =
          some (none, sort) ∧
      sort.array = [10, 20, 30] := by
  obtain ⟨err, sort, h, -, hsorted, hok⟩ := sortMergesort_exact (compare : ℕ → ℕ → Ordering) 8
    (fun _ => ⟨none, fun n => .ok ⟨n, le_refl n⟩⟩) ⟨true, sizeofTempmem, 0⟩ [30, 10, 20]
  obtain rfl := hok (by decide) (by decide) fun _ => ⟨rfl, fun n _ => ⟨_, rfl⟩⟩
  have hstable (x : ℕ) : [10, 20, 30].filter (fun y => compare x y == .eq) =
      [30, 10, 20].filter fun y => compare x y == .eq := by
    simp only [List.filter_cons, List.filter_nil, beq_iff_eq, compare_eq_iff_eq]
    split_ifs <;> first | rfl | omega
  have hsort : IsStableSort compare [10, 20, 30] [30, 10, 20] := ⟨by decide, by decide, hstable⟩
  exact ⟨sort, h, (hsorted rfl).trans hsort.eq_mergeSort.symm⟩

end Mergesort
end CKern
