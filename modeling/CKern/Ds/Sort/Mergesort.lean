import Mathlib.Data.List.GetD
import Mathlib.Data.List.Induction
import Mathlib.Data.Nat.Bitwise
import Mathlib.Algebra.Order.BigOperators.Group.List
import Mathlib.Algebra.Group.Action.Defs
import Mathlib.Algebra.Order.Ring.Nat
import CKern.Library.SteepList

/-!
# `ds/sort/mergesort.c`: the stack of the sorted slices

The elements are not part of the model: which slices the sort finds depends on what the
comparisons return, and these are arbitrary.  The stack is a list with the top in front, so that
`slice[n - 1 - k]` is its entry `k`.

* `mergeTopofstack`, `establishStackInvariant`, `pushSlice`: a slice is pushed and the invariant
  established.
* `computeMinslicelen`, `countPresorted`, `sliceLen`: the length of the next slice.
* `establishStackInvariant_spec`: the loop needs only that the invariant holds below the two topmost
  slices, and a merge never spoils that.
* `length_lt_of_steep`: the slices of a full stack would have more elements than `size_t` counts.
* `stack_never_full`: the invariant holds behind every push, and the stack is never full in front
  of one.
-/

namespace CKern
namespace Mergesort

/-! ## The stack -/

/-- `mergesort_sortedslice_t`; the address is that of the element with this index. -/
structure Slice where
  base : ℕ
  len : ℕ
  deriving DecidableEq, Repr

/-- A value of type `size_t`. -/
def sizeT (n : ℕ) : ℕ := n % 2 ^ 64

/-- `lengthof(sort->stack)`. -/
def stackMax : ℕ := 85

/-- `slice[n - 1 - k].len`. -/
def len (stack : List Slice) (k : ℕ) : ℕ := (stack.map Slice.len).getD k 0

/-- `merge_topofstack`. -/
def mergeTopofstack (isSecondTop : Bool) (stack : List Slice) : List Slice :=
  match isSecondTop, stack with
  | false, right :: left :: rest => ⟨left.base, sizeT (left.len + right.len)⟩ :: rest
  | true, top :: right :: left :: rest => top :: ⟨left.base, sizeT (left.len + right.len)⟩ :: rest
  | _, stack => stack -- the callers ensure that there are enough slices

theorem length_mergeTopofstack {isSecondTop : Bool} {stack : List Slice}
    (h : isSecondTop.toNat + 1 < stack.length) :
    (mergeTopofstack isSecondTop stack).length + 1 = stack.length := by
  match isSecondTop, stack, h with
  | false, _ :: _ :: _, _ => rfl
  | true, _ :: _ :: _ :: _, _ => rfl
  | true, [_, _], h => exact absurd h (by simp)
  | true, [_], h => exact absurd h (by simp)
  | false, [_], h => exact absurd h (by simp)

/-- `establish_stack_invariant`. -/
def establishStackInvariant (stack : List Slice) : List Slice :=
  if _hn : stack.length > 1 then
    if _h3 : (stack.length > 2 ∧ len stack 2 ≤ sizeT (len stack 1 + len stack 0)) ∨
        (stack.length > 3 ∧ len stack 3 ≤ sizeT (len stack 2 + len stack 1)) then
      establishStackInvariant (mergeTopofstack (len stack 2 ≤ len stack 0) stack)
    else if len stack 1 > len stack 0 then stack
    else establishStackInvariant (mergeTopofstack false stack)
  else stack
termination_by stack.length
decreasing_by
  · have h := @length_mergeTopofstack (decide (len stack 2 ≤ len stack 0)) stack
      (by have := Bool.toNat_le (decide (len stack 2 ≤ len stack 0)); omega)
    omega
  · have h := @length_mergeTopofstack false stack _hn
    omega

/-- A slice is pushed and the invariant established. -/
def pushSlice (stack : List Slice) (next sliceLen : ℕ) : List Slice :=
  -- stack size chosen too small for size_t type
  let stack := if stack.length = stackMax then mergeTopofstack false stack else stack
  establishStackInvariant (⟨next, sliceLen⟩ :: stack)

/-- The stack behind slices of these lengths. -/
def pushSlices (lens : List ℕ) : List Slice :=
  (lens.foldl (fun s n => (pushSlice s.1 s.2 n, s.2 + n)) ([], 0)).1

/-! ## The slices -/

/-- The loop of `compute_minslicelen`. -/
def minslicelenLoop (n r : ℕ) : ℕ :=
  if 64 ≤ n then minslicelenLoop (n >>> 1) (r ||| n &&& 1) else (n + r) % 2 ^ 8
termination_by n
decreasing_by
  rw [Nat.shiftRight_one]
  omega

/-- `compute_minslicelen`. -/
def computeMinslicelen (n : ℕ) : ℕ := minslicelenLoop n 0

/-- The loops of `count_presorted`, with the number of elements that they leave; `goesOn i` tells if
the element behind the element `i` continues the slice. -/
def skipRun (goesOn : ℕ → Bool) : ℕ → ℕ → ℕ
  | 0, _ => 0
  | n + 1, next => if goesOn next then skipRun goesOn n (next + 1) else n + 1

/-- `count_presorted`, where `less i` tells if `compare` returns a negative value for the elements
`i + 1` and `i`. -/
def countPresorted (less : ℕ → Bool) (len : ℕ) : ℕ :=
  if len ≤ 1 then len
  else if less 0 then len - skipRun less (len - 2) 1
  else len - skipRun (fun i => !less i) (len - 2) 1

/-- The length of the next slice, of the `nextlen` elements that are left. -/
def sliceLen (less : ℕ → Bool) (minlen nextlen : ℕ) : ℕ :=
  let slicelen := countPresorted less nextlen
  if slicelen < minlen then (if nextlen ≤ minlen then nextlen else minlen) % 2 ^ 8 else slicelen

/-- The variables of `sortptr_mergesort`. -/
structure State where
  stack : List Slice
  next : ℕ
  nextlen : ℕ

/-- A round of the loop of `sortptr_mergesort`. -/
def round (minlen : ℕ) (less : ℕ → Bool) (s : State) : State :=
  let slicelen := sliceLen less minlen s.nextlen
  { stack := pushSlice s.stack s.next slicelen
    next := s.next + slicelen
    nextlen := s.nextlen - slicelen }

/-- The first `k` rounds for an array with `len` elements; `less j` are the comparisons of round
`j`. -/
def rounds (less : ℕ → ℕ → Bool) (len : ℕ) : ℕ → State
  | 0 => ⟨[], 0, len⟩
  | k + 1 => round (computeMinslicelen len) (less k) (rounds less len k)

/-- The rounds that the loop reaches: there are elements left in front of each of them. -/
def Reaches (less : ℕ → ℕ → Bool) (len k : ℕ) : Prop := ∀ j ≤ k, (rounds less len j).nextlen ≠ 0

/-- The lengths of slices that the sort of `len` elements can push: all but the last are at least
the minimum. -/
structure Pushable (len : ℕ) (lens : List ℕ) : Prop where
  sum_le : lens.sum ≤ len
  pos : ∀ n ∈ lens, 0 < n
  min_le : ∀ n ∈ lens.dropLast, computeMinslicelen len ≤ n

/-- The size invariant, as `establish_stack_invariant` states it. -/
def StackInvariant (stack : List Slice) : Prop :=
  (∀ i, i + 2 < stack.length → len stack (i + 2) > len stack (i + 1) + len stack i) ∧
    (1 < stack.length → len stack 1 > len stack 0)

theorem stackInvariant_iff (stack : List Slice) :
    StackInvariant stack ↔ Steep (stack.map Slice.len) := by
  rw [steep_iff, List.length_map, StackInvariant]
  simp only [len, gt_iff_lt, Nat.add_comm]

/-! ## The invariant is established -/

/-- The lengths of the slices. -/
def lens (stack : List Slice) : List ℕ := stack.map Slice.len

/-- What a merge leaves: all elements, slices that are not shorter, and all slices below. -/
structure Merged (stack stack' : List Slice) : Prop where
  sum_eq : (lens stack').sum = (lens stack).sum
  le_of_forall : ∀ m, (∀ n ∈ lens stack, m ≤ n) → ∀ n ∈ lens stack', m ≤ n

theorem Merged.rfl {stack : List Slice} : Merged stack stack := ⟨Eq.refl _, fun _ h => h⟩

theorem Merged.trans {s s' s'' : List Slice} (h : Merged s s') (h' : Merged s' s'') :
    Merged s s'' :=
  ⟨h'.sum_eq.trans h.sum_eq, fun m hm => h'.le_of_forall m (h.le_of_forall m hm)⟩

theorem sizeT_of_lt {n : ℕ} (h : n < 2 ^ 64) : sizeT n = n := Nat.mod_eq_of_lt h

theorem mergeTopofstack_spec {isSecondTop : Bool} {stack : List Slice}
    (h : isSecondTop.toNat + 1 < stack.length) (hsum : (lens stack).sum < 2 ^ 64) :
    Merged stack (mergeTopofstack isSecondTop stack) ∧
      (lens (mergeTopofstack isSecondTop stack)).drop 2 = (lens stack).drop 3 := by
  match isSecondTop, stack, h with
  | false, right :: left :: rest, _ =>
    simp only [lens, List.map_cons, List.sum_cons] at hsum
    have hlen : sizeT (left.len + right.len) = left.len + right.len := sizeT_of_lt (by omega)
    refine ⟨⟨?_, fun m hm n hn => ?_⟩, Eq.refl _⟩
    · simp only [mergeTopofstack, hlen, lens, List.map_cons, List.sum_cons]
      omega
    · simp only [mergeTopofstack, hlen, lens, List.map_cons, List.mem_cons] at hn
      have hleft := hm left.len (by simp [lens])
      rcases hn with rfl | hn
      · omega
      · exact hm n (by simp only [lens, List.map_cons, List.mem_cons]; exact Or.inr (Or.inr hn))
  | true, top :: right :: left :: rest, _ =>
    simp only [lens, List.map_cons, List.sum_cons] at hsum
    have hlen : sizeT (left.len + right.len) = left.len + right.len := sizeT_of_lt (by omega)
    refine ⟨⟨?_, fun m hm n hn => ?_⟩, Eq.refl _⟩
    · simp only [mergeTopofstack, hlen, lens, List.map_cons, List.sum_cons]
      omega
    · simp only [mergeTopofstack, hlen, lens, List.map_cons, List.mem_cons] at hn
      have hleft := hm left.len (by simp [lens])
      rcases hn with rfl | rfl | hn
      · exact hm _ (by simp [lens])
      · omega
      · exact hm n (by
          simp only [lens, List.map_cons, List.mem_cons]
          exact Or.inr (Or.inr (Or.inr hn)))
  | true, [_, _], h => exact absurd h (by simp)
  | true, [_], h => exact absurd h (by simp)
  | false, [_], h => exact absurd h (by simp)

theorem steep_of_tests {stack : List Slice} (hsum : (lens stack).sum < 2 ^ 64)
    (h : Steep ((lens stack).drop 2))
    (h3 : ¬((stack.length > 2 ∧ len stack 2 ≤ sizeT (len stack 1 + len stack 0)) ∨
      (stack.length > 3 ∧ len stack 3 ≤ sizeT (len stack 2 + len stack 1))))
    (h2 : len stack 1 > len stack 0) : Steep (lens stack) := by
  match stack with
  | [] => exact Steep.nil
  | [a] => exact Steep.single _
  | [a, b] => exact Steep.cons_cons h2 (by rintro c ⟨⟩) (Steep.single _)
  | [a, b, c] =>
    simp only [lens, List.map_cons, List.sum_cons] at hsum
    have hsize : sizeT (b.len + a.len) = b.len + a.len := sizeT_of_lt (by omega)
    have habc : ¬c.len ≤ b.len + a.len := fun hle => h3 (Or.inl ⟨by simp, hsize.symm ▸ hle⟩)
    have hab : a.len < b.len := h2
    refine Steep.cons_cons hab ?_ (Steep.cons_cons (by omega) (by rintro d ⟨⟩) (Steep.single _))
    rintro d ⟨⟩
    omega
  | a :: b :: c :: d :: rest =>
    simp only [lens, List.map_cons, List.sum_cons] at hsum
    have hsize : sizeT (b.len + a.len) = b.len + a.len := sizeT_of_lt (by omega)
    have hsize' : sizeT (c.len + b.len) = c.len + b.len := sizeT_of_lt (by omega)
    have habc : ¬c.len ≤ b.len + a.len := fun hle => h3 (Or.inl ⟨by simp, hsize.symm ▸ hle⟩)
    have hbcd : ¬d.len ≤ c.len + b.len := fun hle => h3 (Or.inr ⟨by simp, hsize'.symm ▸ hle⟩)
    have hab : a.len < b.len := h2
    refine Steep.cons_cons hab ?_ (Steep.cons_cons (by omega) ?_ h)
    · rintro e ⟨⟩
      omega
    · rintro e ⟨⟩
      omega

theorem merge_step {isSecondTop : Bool} {stack : List Slice}
    (hlen : isSecondTop.toNat + 1 < stack.length) (hsum : (lens stack).sum < 2 ^ 64)
    (h : Steep ((lens stack).drop 2)) :
    Merged stack (mergeTopofstack isSecondTop stack) ∧
      (lens (mergeTopofstack isSecondTop stack)).sum < 2 ^ 64 ∧
      Steep ((lens (mergeTopofstack isSecondTop stack)).drop 2) := by
  obtain ⟨hm, hdrop⟩ := mergeTopofstack_spec hlen hsum
  refine ⟨hm, hm.sum_eq ▸ hsum, ?_⟩
  rw [hdrop, ← List.tail_drop]
  exact h.tail

/-- **The loop establishes the invariant** if it holds below the two topmost slices. -/
theorem establishStackInvariant_spec (stack : List Slice) (hsum : (lens stack).sum < 2 ^ 64)
    (h : Steep ((lens stack).drop 2)) :
    Steep (lens (establishStackInvariant stack)) ∧
      Merged stack (establishStackInvariant stack) := by
  induction stack using establishStackInvariant.induct with
  | case1 stack hn h3 ih =>
    obtain ⟨hm, hs, hd⟩ := @merge_step (decide (len stack 2 ≤ len stack 0)) stack
      (by have := Bool.toNat_le (decide (len stack 2 ≤ len stack 0)); omega) hsum h
    rw [establishStackInvariant, dif_pos hn, dif_pos h3]
    exact ⟨(ih hs hd).1, hm.trans (ih hs hd).2⟩
  | case2 stack hn h3 h2 =>
    rw [establishStackInvariant, dif_pos hn, dif_neg h3, if_pos h2]
    exact ⟨steep_of_tests hsum h h3 h2, Merged.rfl⟩
  | case3 stack hn h3 h2 ih =>
    obtain ⟨hm, hs, hd⟩ := @merge_step false stack hn hsum h
    rw [establishStackInvariant, dif_pos hn, dif_neg h3, if_neg h2]
    exact ⟨(ih hs hd).1, hm.trans (ih hs hd).2⟩
  | case4 stack hn =>
    rw [establishStackInvariant, dif_neg hn]
    refine ⟨?_, Merged.rfl⟩
    match stack, hn with
    | [], _ => exact Steep.nil
    | [a], _ => exact Steep.single _
    | a :: b :: rest, hn => exact absurd (by simp) hn

/-! ## The stack is never full -/

theorem length_lt_of_steep {stack : List Slice} (h : Steep (lens stack))
    (hmin : ∀ n ∈ lens stack, 32 ≤ n) (hsum : (lens stack).sum < 2 ^ 64) :
    stack.length < stackMax := by
  by_contra hlen
  have hfib : fibSum 33 34 85 ≤ fibSum 33 34 (lens stack).length := by
    refine fibSum_mono 33 34 ?_
    rw [lens, List.length_map]
    exact not_lt.mp hlen
  have hall : fibSum 33 34 (lens stack).length ≤ (lens stack).sum + (lens stack).length := by
    refine h.fibSum_le (fun a ha => ?_) fun b hb => ?_
    · exact Nat.succ_le_succ (hmin a (List.mem_of_mem_head? ha))
    · -- the second entry is bigger than the first
      match lens stack, h, hmin, hb with
      | a :: b :: l, h, hmin, rfl =>
        have hab := h.1
        have ha := hmin a List.mem_cons_self
        omega
  have hcard := List.card_nsmul_le_sum (lens stack) 32 hmin
  rw [smul_eq_mul] at hcard
  have hvalue : 20000000000000000000 ≤ fibSum 33 34 85 := by decide
  omega

theorem minslicelenLoop_spec (n r : ℕ) (hr : r < 2) :
    min n 32 ≤ minslicelenLoop n r ∧ minslicelenLoop n r ≤ 64 := by
  induction n, r using minslicelenLoop.induct with
  | case1 n r hn ih =>
    have hbit : n &&& 1 < 2 ^ 1 := by
      rw [Nat.and_one_is_mod]
      exact Nat.mod_lt n Nat.two_pos
    have h := ih (Nat.or_lt_two_pow (n := 1) hr hbit)
    rw [minslicelenLoop, if_pos hn]
    rw [Nat.shiftRight_one] at h ⊢
    omega
  | case2 n r hn =>
    rw [minslicelenLoop, if_neg hn, Nat.mod_eq_of_lt (by omega)]
    omega

theorem computeMinslicelen_spec (n : ℕ) :
    min n 32 ≤ computeMinslicelen n ∧ computeMinslicelen n ≤ 64 :=
  minslicelenLoop_spec n 0 Nat.two_pos

/-- What holds behind slices that are not the last one. -/
structure Pushed (len : ℕ) (stack : List Slice) (n : ℕ) : Prop where
  steep : Steep (lens stack)
  sum_eq : (lens stack).sum = n
  min_le : ∀ m ∈ lens stack, computeMinslicelen len ≤ m

theorem Pushed.length_lt {len n : ℕ} {stack : List Slice} (h : Pushed len stack n)
    (hlen : len < 2 ^ 64) (hn : n < len) : stack.length < stackMax := by
  have hmin := (computeMinslicelen_spec len).1
  rcases Nat.lt_or_ge len 32 with hlt | hge
  · -- the minimum is the number of all elements, so nothing was pushed yet
    match stack, h with
    | [], _ => exact Nat.succ_pos 84
    | a :: rest, h =>
      have ha := h.min_le a.len (by simp [lens])
      have hsum := h.sum_eq
      simp only [lens, List.map_cons, List.sum_cons] at hsum
      omega
  · exact length_lt_of_steep h.steep (fun m hm => le_trans (by omega) (h.min_le m hm))
      (by rw [h.sum_eq]; omega)

theorem pushSlice_spec {len n k : ℕ} {stack : List Slice} (h : Pushed len stack n)
    (hlen : len < 2 ^ 64) (hk : 0 < k) (hn : n + k ≤ len) (next : ℕ) :
    stack.length < stackMax ∧ Steep (lens (pushSlice stack next k)) ∧
      (computeMinslicelen len ≤ k → Pushed len (pushSlice stack next k) (n + k)) := by
  have hlt := h.length_lt hlen (by omega)
  have hsum : (lens (⟨next, k⟩ :: stack)).sum = n + k := by
    rw [lens, List.map_cons, List.sum_cons, Nat.add_comm n k, ← h.sum_eq]
    rfl
  obtain ⟨hsteep, hmerged⟩ := establishStackInvariant_spec (⟨next, k⟩ :: stack)
    (by rw [hsum]; omega) (h.steep.drop 1)
  rw [pushSlice, if_neg hlt.ne]
  refine ⟨hlt, hsteep, fun hmin => ⟨hsteep, hmerged.sum_eq.trans hsum, ?_⟩⟩
  refine hmerged.le_of_forall _ fun m hm => ?_
  rcases List.mem_cons.mp hm with rfl | hm
  · exact hmin
  · exact h.min_le m hm

theorem foldl_push_snd (ns : List ℕ) (s : List Slice × ℕ) :
    (ns.foldl (fun s n => (pushSlice s.1 s.2 n, s.2 + n)) s).2 = s.2 + ns.sum := by
  induction ns generalizing s with
  | nil => rfl
  | cons n ns ih =>
    rw [List.foldl_cons, ih, List.sum_cons]
    exact Nat.add_assoc s.2 n ns.sum

theorem pushSlices_concat (ns : List ℕ) (k : ℕ) :
    pushSlices (ns ++ [k]) = pushSlice (pushSlices ns) ns.sum k := by
  have hnext := foldl_push_snd ns ([], 0)
  rw [Nat.zero_add] at hnext
  rw [pushSlices, List.foldl_append, List.foldl_cons, List.foldl_nil, hnext, pushSlices]

theorem Pushable.pushed {len : ℕ} {ns : List ℕ} {k : ℕ} (hlen : len < 2 ^ 64)
    (h : Pushable len (ns ++ [k])) : Pushed len (pushSlices ns) ns.sum := by
  induction ns using List.reverseRecOn generalizing k with
  | nil => exact ⟨Steep.nil, rfl, fun m hm => absurd hm (by simp [pushSlices, lens])⟩
  | append_singleton ns m ih =>
    have hmin := h.min_le
    have hsum := h.sum_le
    rw [List.dropLast_concat] at hmin
    have hm : Pushable len (ns ++ [m]) :=
      ⟨by rw [List.sum_append] at hsum; omega, fun n hn => h.pos n (List.mem_append_left _ hn),
        fun n hn => hmin n (List.dropLast_subset _ hn)⟩
    have hle := hm.sum_le
    rw [List.sum_append, List.sum_singleton] at hle
    rw [pushSlices_concat, List.sum_append, List.sum_singleton]
    exact (pushSlice_spec (ih hm) hlen (hm.pos m (by simp)) hle ns.sum).2.2 (hmin m (by simp))

/-! ## The slices of the sort -/

theorem skipRun_le (goesOn : ℕ → Bool) (n next : ℕ) : skipRun goesOn n next ≤ n := by
  induction n generalizing next with
  | zero => exact le_refl 0
  | succ n ih =>
    rw [skipRun]
    split_ifs
    · exact (ih (next + 1)).trans (Nat.le_succ n)
    · exact le_refl _

theorem countPresorted_spec (less : ℕ → Bool) {n : ℕ} (hn : 0 < n) :
    0 < countPresorted less n ∧ countPresorted less n ≤ n := by
  have hdown := skipRun_le less (n - 2) 1
  have hup := skipRun_le (fun i => !less i) (n - 2) 1
  rw [countPresorted]
  split_ifs <;> omega

theorem sliceLen_spec (less : ℕ → Bool) {minlen nextlen : ℕ} (hmin : minlen ≤ 64)
    (hn : 0 < nextlen) :
    0 < sliceLen less minlen nextlen ∧ sliceLen less minlen nextlen ≤ nextlen ∧
      (sliceLen less minlen nextlen < nextlen → minlen ≤ sliceLen less minlen nextlen) := by
  have hcount := countPresorted_spec less hn
  rw [sliceLen]
  split_ifs with hshort hle
  · rw [Nat.mod_eq_of_lt (by omega)]
    omega
  · rw [Nat.mod_eq_of_lt (by omega)]
    omega
  · omega

/-- What the rounds have done: the slices that were pushed, and the elements that are left. -/
structure Sliced (n : ℕ) (s : State) (ns : List ℕ) : Prop where
  stack_eq : s.stack = pushSlices ns
  next_eq : s.next = ns.sum
  sum_eq : ns.sum + s.nextlen = n
  pos : ∀ m ∈ ns, 0 < m
  min_le : s.nextlen ≠ 0 → ∀ m ∈ ns, computeMinslicelen n ≤ m

theorem Sliced.round {n : ℕ} {s : State} {ns : List ℕ} (h : Sliced n s ns) (hs : s.nextlen ≠ 0)
    (less : ℕ → Bool) :
    Pushable n (ns ++ [sliceLen less (computeMinslicelen n) s.nextlen]) ∧
      Sliced n (round (computeMinslicelen n) less s)
        (ns ++ [sliceLen less (computeMinslicelen n) s.nextlen]) := by
  obtain ⟨hpos, hle, hmin⟩ := sliceLen_spec less (computeMinslicelen_spec n).2
    (Nat.pos_of_ne_zero hs)
  have hsum := h.sum_eq
  have hpos' : ∀ m ∈ ns ++ [sliceLen less (computeMinslicelen n) s.nextlen], 0 < m := by
    intro m hm
    rcases List.mem_append.mp hm with hm | hm
    · exact h.pos m hm
    · rw [List.mem_singleton.mp hm]
      exact hpos
  refine ⟨⟨?_, hpos', ?_⟩, ?_, ?_, ?_, hpos', ?_⟩
  · rw [List.sum_append, List.sum_singleton]
    omega
  · rw [List.dropLast_concat]
    exact h.min_le hs
  · rw [pushSlices_concat, ← h.stack_eq, ← h.next_eq]
    rfl
  · rw [List.sum_append, List.sum_singleton, ← h.next_eq]
    rfl
  · rw [List.sum_append, List.sum_singleton]
    change _ + (s.nextlen - _) = n
    omega
  · intro hleft m hm
    rcases List.mem_append.mp hm with hm | hm
    · exact h.min_le hs m hm
    · rw [List.mem_singleton.mp hm]
      exact hmin (Nat.lt_of_sub_ne_zero hleft)

theorem rounds_sliced {less : ℕ → ℕ → Bool} {n k : ℕ} (h : ∀ j < k, (rounds less n j).nextlen ≠ 0) :
    ∃ ns, Sliced n (rounds less n k) ns := by
  induction k with
  | zero =>
    exact ⟨[], rfl, rfl, Nat.zero_add n, fun m hm => absurd hm List.not_mem_nil,
      fun _ m hm => absurd hm List.not_mem_nil⟩
  | succ k ih =>
    obtain ⟨ns, hns⟩ := ih fun j hj => h j (Nat.lt_succ_of_lt hj)
    exact ⟨_, (hns.round (h k (Nat.lt_succ_self k)) (less k)).2⟩

theorem Pushable.never_full {n k : ℕ} {ns : List ℕ} (hn : n < 2 ^ 64)
    (h : Pushable n (ns ++ [k])) :
    (pushSlices ns).length < stackMax ∧ StackInvariant (pushSlices (ns ++ [k])) := by
  have hsum := h.sum_le
  rw [List.sum_append, List.sum_singleton] at hsum
  obtain ⟨hlt, hsteep, -⟩ := pushSlice_spec (h.pushed hn) hn (h.pos k (by simp)) hsum ns.sum
  rw [pushSlices_concat]
  exact ⟨hlt, (stackInvariant_iff _).mpr hsteep⟩

/-- **The stack is never full**, and the size invariant holds behind every push: for all lengths of
slices that the sort can push, and for the slices that it pushes. -/
theorem stack_never_full {n : ℕ} (hn : n < 2 ^ 64) :
    (∀ ns k, Pushable n (ns ++ [k]) →
      (pushSlices ns).length < stackMax ∧ StackInvariant (pushSlices (ns ++ [k]))) ∧
    ∀ less k, Reaches less n k →
      (rounds less n k).stack.length < stackMax ∧ StackInvariant (rounds less n (k + 1)).stack := by
  refine ⟨fun ns k h => h.never_full hn, fun less k h => ?_⟩
  obtain ⟨ns, hns⟩ := rounds_sliced fun j hj => h j (Nat.le_of_lt hj)
  obtain ⟨hpush, hnext⟩ := hns.round (h k (Nat.le_refl k)) (less k)
  have hfull := hpush.never_full hn
  rw [← hns.stack_eq, ← hnext.stack_eq] at hfull
  exact hfull

/-- Slices with 80, 64, 40 and 90 elements. -/
theorem stack_never_full_slices :
    (274 < 2 ^ 64 ∧ Pushable 274 ([80, 64, 40] ++ [90])) ∧
      (pushSlices [80, 64, 40]).length < stackMax ∧
      StackInvariant (pushSlices ([80, 64, 40] ++ [90])) := by
  have hmin : computeMinslicelen 274 ≤ 40 := by
    simp [computeMinslicelen, minslicelenLoop]
  have h : Pushable 274 ([80, 64, 40] ++ [90]) := by
    refine ⟨by decide, by decide, fun n hn => hmin.trans ?_⟩
    revert n
    decide
  exact ⟨⟨by decide, h⟩, (stack_never_full (by decide)).1 [80, 64, 40] 90 h⟩

end Mergesort
end CKern
