import Mathlib.Data.Tree.Basic
import Mathlib.Data.List.Basic
import Mathlib.Data.Set.Basic

/-!
# Binary search trees

* `toList`: the values of a tree from left to right.
* `Ordered`: the values grow from left to right.
* `Cut`: a search for a place in an order.
* `last`: the value at the end of the path of a search, which is next to that place.
* `leftmost`, `rightmost`: the ends of a tree.
-/

namespace CKern
namespace SearchTree

open BinaryTree

variable {α : Type*}

/-- The values from left to right. -/
def toList : BinaryTree α → List α
  | nil => []
  | node a l r => toList l ++ a :: toList r

@[simp] theorem toList_nil : toList (nil : BinaryTree α) = [] := rfl

@[simp] theorem toList_node (a : α) (l r : BinaryTree α) :
    toList (node a l r) = toList l ++ a :: toList r := rfl

theorem toList_eq_nil {t : BinaryTree α} : toList t = [] ↔ t = nil := by
  cases t with
  | nil => simp
  | node a l r => simp

/-- The values grow from left to right. -/
def Ordered (cmp : α → α → Ordering) (t : BinaryTree α) : Prop :=
  (toList t).Pairwise fun x y => cmp x y = .lt

/-- A search: it goes to the left of some values, and to the right of those below the others. -/
def Cut (cmp : α → α → Ordering) (search : α → Ordering) : Prop :=
  ∀ x y, cmp x y = .lt → search x = .gt ∨ search y = .lt

theorem cut_cmp {cmp : α → α → Ordering} [Std.TransCmp cmp] (a : α) : Cut cmp (cmp a) := by
  intro x y hxy
  cases hx : cmp a x with
  | gt => exact Or.inl rfl
  | eq => exact Or.inr (Std.TransCmp.lt_of_eq_of_lt hx hxy)
  | lt => exact Or.inr (Std.TransCmp.lt_trans hx hxy)

section Order

variable {cmp : α → α → Ordering} {search : α → Ordering} {a : α} {l r t : BinaryTree α}

theorem Ordered.left (h : Ordered cmp (node a l r)) : Ordered cmp l :=
  (List.pairwise_append.mp h).1

theorem Ordered.right (h : Ordered cmp (node a l r)) : Ordered cmp r :=
  (List.pairwise_cons.mp (List.pairwise_append.mp h).2.1).2

theorem Ordered.left_lt (h : Ordered cmp (node a l r)) {x : α} (hx : x ∈ toList l) :
    cmp x a = .lt :=
  (List.pairwise_append.mp h).2.2 x hx a List.mem_cons_self

theorem Ordered.lt_right (h : Ordered cmp (node a l r)) {x : α} (hx : x ∈ toList r) :
    cmp a x = .lt :=
  (List.pairwise_cons.mp (List.pairwise_append.mp h).2.1).1 x hx

theorem Ordered.node [Std.TransCmp cmp] (hl : Ordered cmp l) (hr : Ordered cmp r)
    (hla : ∀ x ∈ toList l, cmp x a = .lt) (har : ∀ x ∈ toList r, cmp a x = .lt) :
    Ordered cmp (node a l r) := by
  refine List.pairwise_append.mpr ⟨hl, List.pairwise_cons.mpr ⟨har, hr⟩, fun x hx y hy => ?_⟩
  rcases List.mem_cons.mp hy with rfl | hy
  · exact hla x hx
  · exact Std.TransCmp.lt_trans (hla x hx) (har y hy)

theorem Ordered.lt_or_eq_or_lt (h : Ordered cmp t) {x y : α} (hx : x ∈ toList t)
    (hy : y ∈ toList t) : cmp x y = .lt ∨ x = y ∨ cmp y x = .lt := by
  induction t with
  | nil => exact absurd hx List.not_mem_nil
  | node a l r ihl ihr =>
    have hcross : ∀ x ∈ toList l, ∀ y ∈ toList r, cmp x y = .lt := fun x hx y hy =>
      (List.pairwise_append.mp h).2.2 x hx y (List.mem_cons_of_mem a hy)
    rw [toList_node, List.mem_append, List.mem_cons] at hx hy
    rcases hx with hx | rfl | hx <;> rcases hy with hy | rfl | hy
    · exact ihl h.left hx hy
    · exact Or.inl (h.left_lt hx)
    · exact Or.inl (hcross x hx y hy)
    · exact Or.inr (Or.inr (h.left_lt hy))
    · exact Or.inr (Or.inl rfl)
    · exact Or.inl (h.lt_right hy)
    · exact Or.inr (Or.inr (hcross y hy x hx))
    · exact Or.inr (Or.inr (h.lt_right hx))
    · exact ihr h.right hx hy

theorem Ordered.eq_of_search_eq (h : Ordered cmp t) (hcut : Cut cmp search) {x y : α}
    (hx : x ∈ toList t) (hy : y ∈ toList t) (hsx : search x = .eq) (hsy : search y = .eq) :
    x = y := by
  have hno : ∀ x y, search x = .eq → search y = .eq → cmp x y ≠ .lt := by
    intro x y hsx hsy hlt
    rcases hcut x y hlt with h | h
    · rw [hsx] at h
      cases h
    · rw [hsy] at h
      cases h
  rcases h.lt_or_eq_or_lt hx hy with hlt | heq | hlt
  · exact absurd hlt (hno x y hsx hsy)
  · exact heq
  · exact absurd hlt (hno y x hsy hsx)

end Order

/-! ## The end of a search -/

/-- The value at the end of the path of a search, or `a` if the path is empty. -/
def last (search : α → Ordering) : α → BinaryTree α → α
  | a, nil => a
  | _, node b l r =>
    match search b with
    | .lt => last search b l
    | .eq => b
    | .gt => last search b r

section Last

variable {search : α → Ordering} (a : α) {b : α} (l r : BinaryTree α)

theorem last_node (search : α → Ordering) (b : α) : last search a (node b l r) =
    match search b with
    | .lt => last search b l
    | .eq => b
    | .gt => last search b r := rfl

theorem last_of_lt (h : search b = .lt) : last search a (node b l r) = last search b l := by
  rw [last_node, h]

theorem last_of_gt (h : search b = .gt) : last search a (node b l r) = last search b r := by
  rw [last_node, h]

theorem last_of_eq (h : search b = .eq) : last search a (node b l r) = b := by
  rw [last_node, h]

end Last

theorem last_mem_or_eq (search : α → Ordering) (a : α) (t : BinaryTree α) :
    last search a t ∈ toList t ∨ t = nil ∧ last search a t = a := by
  induction t generalizing a with
  | nil => exact Or.inr ⟨rfl, rfl⟩
  | node b l r ihl ihr =>
    refine Or.inl ?_
    rw [last_node, toList_node]
    cases search b with
    | eq => exact List.mem_append_right _ List.mem_cons_self
    | lt =>
      rcases ihl b with h | ⟨-, h⟩
      · exact List.mem_append_left _ h
      · dsimp only
        rw [h]
        exact List.mem_append_right _ List.mem_cons_self
    | gt =>
      rcases ihr b with h | ⟨-, h⟩
      · exact List.mem_append_right _ (List.mem_cons_of_mem b h)
      · dsimp only
        rw [h]
        exact List.mem_append_right _ List.mem_cons_self

/-- What the end `x` of a search is to a value `y` of the tree: no value lies between the place that
is searched and `x`, and if the place is that of a value, then it is that of `x`. -/
structure Next (cmp : α → α → Ordering) (search : α → Ordering) (x y : α) : Prop where
  left : search x = .lt → cmp y x = .lt → search y = .gt
  right : search x = .gt → cmp x y = .lt → search y = .lt
  exact : search y = .eq → search x = .eq

/-- **A search ends next to the place that is searched.** -/
theorem last_next {cmp : α → α → Ordering} [Std.TransCmp cmp] {search : α → Ordering}
    (hcut : Cut cmp search) {t : BinaryTree α} (h : Ordered cmp t) (a : α) {y : α}
    (hy : y ∈ toList t) : Next cmp search (last search a t) y := by
  have hirr : ∀ x, cmp x x ≠ .lt := by
    intro x hx
    rw [(Std.ReflCmp.compare_self : cmp x x = .eq)] at hx
    cases hx
  have hasymm : ∀ {x y}, cmp x y = .lt → cmp y x ≠ .lt := by
    intro x y hxy hyx
    exact hirr x (Std.TransCmp.lt_trans hxy hyx)
  induction t generalizing a with
  | nil => exact absurd hy List.not_mem_nil
  | node b l r ihl ihr =>
    rw [last_node]
    rw [toList_node, List.mem_append, List.mem_cons] at hy
    cases hb : search b with
    | eq => exact ⟨fun h => by simp [hb] at h, fun h => by simp [hb] at h, fun _ => hb⟩
    | lt =>
      -- `b` and what is to its right are above the place
      have habove : y = b ∨ y ∈ toList r → search y = .lt ∧ (cmp y b ≠ .lt) := by
        rintro (rfl | hr)
        · exact ⟨hb, hirr y⟩
        · refine ⟨(hcut b y (h.lt_right hr)).resolve_left ?_, hasymm (h.lt_right hr)⟩
          rw [hb]
          exact fun h => by cases h
      rcases last_mem_or_eq search b l with hmem | ⟨rfl, hlast⟩
      · rcases hy with hy | hy
        · exact ihl h.left b hy
        · obtain ⟨hsy, hyb⟩ := habove hy
          refine ⟨fun _ hlt => ?_, fun _ _ => hsy, fun heq => ?_⟩
          · exact absurd (Std.TransCmp.lt_trans hlt (h.left_lt hmem)) hyb
          · rw [hsy] at heq
            cases heq
      · obtain ⟨hsy, hyb⟩ := habove (hy.resolve_left List.not_mem_nil)
        dsimp only
        rw [hlast]
        refine ⟨fun _ hlt => absurd hlt hyb, fun _ _ => hsy, fun heq => ?_⟩
        rw [hsy] at heq
        cases heq
    | gt =>
      -- `b` and what is to its left are below the place
      have hbelow : y ∈ toList l ∨ y = b → search y = .gt ∧ (cmp b y ≠ .lt) := by
        rintro (hl | rfl)
        · refine ⟨(hcut y b (h.left_lt hl)).resolve_right ?_, hasymm (h.left_lt hl)⟩
          rw [hb]
          exact fun h => by cases h
        · exact ⟨hb, hirr y⟩
      rw [← or_assoc] at hy
      rcases last_mem_or_eq search b r with hmem | ⟨rfl, hlast⟩
      · rcases hy with hy | hy
        · obtain ⟨hsy, hyb⟩ := hbelow hy
          refine ⟨fun _ _ => hsy, fun _ hlt => ?_, fun heq => ?_⟩
          · exact absurd (Std.TransCmp.lt_trans (h.lt_right hmem) hlt) hyb
          · rw [hsy] at heq
            cases heq
        · exact ihr h.right b hy
      · obtain ⟨hsy, hyb⟩ := hbelow (hy.resolve_right List.not_mem_nil)
        dsimp only
        rw [hlast]
        refine ⟨fun _ _ => hsy, fun _ hlt => absurd hlt hyb, fun heq => ?_⟩
        rw [hsy] at heq
        cases heq

/-! ## The ends of a tree -/

/-- The value at the end of the way to the left. -/
def leftmost : BinaryTree α → Option α
  | nil => none
  | node a nil _ => some a
  | node _ l _ => leftmost l

/-- The value at the end of the way to the right. -/
def rightmost : BinaryTree α → Option α
  | nil => none
  | node a _ nil => some a
  | node _ _ r => rightmost r

theorem leftmost_eq_head? (t : BinaryTree α) : leftmost t = (toList t).head? := by
  fun_induction leftmost with
  | case1 => rfl
  | case2 => rfl
  | case3 a l r hl ih =>
    have hne : toList l ≠ [] := fun h => hl (toList_eq_nil.mp h)
    rw [ih, toList_node, List.head?_append_of_ne_nil _ hne]

theorem rightmost_eq_getLast? (t : BinaryTree α) : rightmost t = (toList t).getLast? := by
  fun_induction rightmost with
  | case1 => rfl
  | case2 a l =>
    rw [toList_node, toList_nil, List.getLast?_concat]
  | case3 a l r hr ih =>
    have hne : toList r ≠ [] := fun h => hr (toList_eq_nil.mp h)
    rw [ih, toList_node, List.getLast?_append_of_ne_nil _ (List.cons_ne_nil a _),
      List.getLast?_cons_of_ne_nil hne]

/-- The value `first` is the least one of a set, if there is one. -/
def IsFirst (cmp : α → α → Ordering) (s : Set α) (first : Option α) : Prop :=
  (∀ x ∈ first, x ∈ s ∧ ∀ y ∈ s, y = x ∨ cmp x y = .lt) ∧ (first = none → s = ∅)

/-- The value `last` is the greatest one of a set, if there is one. -/
def IsLast (cmp : α → α → Ordering) (s : Set α) (last : Option α) : Prop :=
  (∀ x ∈ last, x ∈ s ∧ ∀ y ∈ s, y = x ∨ cmp y x = .lt) ∧ (last = none → s = ∅)

theorem isFirst_leftmost {cmp : α → α → Ordering} {t : BinaryTree α} (h : Ordered cmp t) :
    IsFirst cmp {x | x ∈ toList t} (leftmost t) := by
  rw [leftmost_eq_head?]
  unfold Ordered at h
  cases hlist : toList t with
  | nil => exact ⟨fun x hx => by simp at hx, fun _ =>
      Set.eq_empty_iff_forall_notMem.mpr fun x hx => List.not_mem_nil hx⟩
  | cons a as =>
    rw [hlist] at h
    refine ⟨fun x hx => ?_, fun hnone => by simp at hnone⟩
    obtain rfl : a = x := by simpa using hx
    refine ⟨List.mem_cons_self, fun y hy => ?_⟩
    rcases List.mem_cons.mp hy with rfl | hy
    · exact Or.inl rfl
    · exact Or.inr ((List.pairwise_cons.mp h).1 y hy)

theorem isLast_rightmost {cmp : α → α → Ordering} {t : BinaryTree α} (h : Ordered cmp t) :
    IsLast cmp {x | x ∈ toList t} (rightmost t) := by
  rw [rightmost_eq_getLast?]
  unfold Ordered at h
  rcases List.eq_nil_or_concat (toList t) with hlist | ⟨as, a, hlist⟩
  · rw [hlist]
    exact ⟨fun x hx => by simp at hx, fun _ =>
      Set.eq_empty_iff_forall_notMem.mpr fun x hx => List.not_mem_nil hx⟩
  · rw [hlist] at h ⊢
    rw [List.concat_eq_append] at h ⊢
    refine ⟨fun x hx => ?_, fun hnone => by simp at hnone⟩
    obtain rfl : a = x := by simpa using hx
    refine ⟨List.mem_append_right _ List.mem_cons_self, fun y hy => ?_⟩
    rcases List.mem_append.mp hy with hy | hy
    · exact Or.inr ((List.pairwise_append.mp h).2.2 y hy a List.mem_cons_self)
    · exact Or.inl (List.mem_singleton.mp hy)

end SearchTree
end CKern
