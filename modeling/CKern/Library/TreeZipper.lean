import CKern.Library.SearchTree

/-!
# Places in a binary tree

* `Frame`: a node on the way from a subtree to the root; a list of frames, the nearest one first, is
  the way to the root, and `fill` puts a subtree at its end.
* `lower`, `upper`: the values to the left and to the right of the place.
* `descend`: the way of a search that ends below the tree.
* `locate`: the way to a value that is given by a property.
* `takeLeftmost`, `firstAbove`: the two places of the successor of a value.
-/

namespace CKern
namespace TreeZipper

open BinaryTree SearchTree

variable {α : Type*}

/-- A node on the way to a subtree: which child of the node leads there, its value, and its other
child. -/
structure Frame (α : Type*) where
  isLeft : Bool
  value : α
  sibling : BinaryTree α
  deriving DecidableEq, Repr

/-- A node whose one child is `child`, which is the left one if `isLeft`. -/
def link (isLeft : Bool) (a : α) (child sibling : BinaryTree α) : BinaryTree α :=
  match isLeft with
  | true => node a child sibling
  | false => node a sibling child

/-- The tree with a subtree at the end of a way. -/
def fill : BinaryTree α → List (Frame α) → BinaryTree α
  | t, [] => t
  | t, f :: context => fill (link f.isLeft f.value t f.sibling) context

theorem fill_append (t : BinaryTree α) (inner outer : List (Frame α)) :
    fill t (inner ++ outer) = fill (fill t inner) outer := by
  induction inner generalizing t with
  | nil => rfl
  | cons f inner ih => exact ih _

/-- The values to the left of a place. -/
def lower : List (Frame α) → List α
  | [] => []
  | f :: context =>
    match f.isLeft with
    | true => lower context
    | false => lower context ++ (toList f.sibling ++ [f.value])

/-- The values to the right of a place. -/
def upper : List (Frame α) → List α
  | [] => []
  | f :: context =>
    match f.isLeft with
    | true => f.value :: toList f.sibling ++ upper context
    | false => upper context

theorem toList_fill (t : BinaryTree α) (context : List (Frame α)) :
    toList (fill t context) = lower context ++ (toList t ++ upper context) := by
  induction context generalizing t with
  | nil => exact (List.append_nil _).symm
  | cons f context ih =>
    rw [fill, ih]
    rcases f with ⟨isLeft, a, s⟩
    cases isLeft <;> simp [link, lower, upper]

/-! ## The place of a search -/

/-- The way of a search that does not find a value; no way if it finds one. -/
def descend (search : α → Ordering) :
    BinaryTree α → List (Frame α) → Option (List (Frame α))
  | nil, context => some context
  | node a l r, context =>
    match search a with
    | .eq => none
    | .lt => descend search l (⟨true, a, r⟩ :: context)
    | .gt => descend search r (⟨false, a, l⟩ :: context)

theorem descend_node (search : α → Ordering) (a : α) (l r : BinaryTree α)
    (context : List (Frame α)) : descend search (node a l r) context =
      match search a with
      | .eq => none
      | .lt => descend search l (⟨true, a, r⟩ :: context)
      | .gt => descend search r (⟨false, a, l⟩ :: context) := rfl

theorem fill_descend {search : α → Ordering} {t : BinaryTree α} {context found : List (Frame α)}
    (h : descend search t context = some found) : fill nil found = fill t context := by
  induction t generalizing context with
  | nil =>
    cases h
    rfl
  | node a l r ihl ihr =>
    rw [descend_node] at h
    cases hs : search a with
    | eq =>
      rw [hs] at h
      cases h
    | lt =>
      rw [hs] at h
      exact ihl h
    | gt =>
      rw [hs] at h
      exact ihr h

theorem descend_between {cmp : α → α → Ordering} {search : α → Ordering}
    (hcut : Cut cmp search) {t : BinaryTree α} {context found : List (Frame α)}
    (hord : Ordered cmp t)
    (hlower : ∀ x ∈ lower context, search x = .gt) (hupper : ∀ x ∈ upper context, search x = .lt)
    (h : descend search t context = some found) :
    (∀ x ∈ lower found, search x = .gt) ∧ ∀ x ∈ upper found, search x = .lt := by
  induction t generalizing context with
  | nil =>
    cases h
    exact ⟨hlower, hupper⟩
  | node a l r ihl ihr =>
    rw [descend_node] at h
    cases hs : search a with
    | eq =>
      rw [hs] at h
      cases h
    | lt =>
      rw [hs] at h
      refine ihl hord.left ?_ ?_ h
      · exact hlower
      · intro x hx
        have hx' : x = a ∨ x ∈ toList r ∨ x ∈ upper context := by simpa [upper] using hx
        rcases hx' with rfl | hx | hx
        · exact hs
        · refine (hcut a x (hord.lt_right hx)).resolve_left fun hgt => ?_
          rw [hs] at hgt
          cases hgt
        · exact hupper x hx
    | gt =>
      rw [hs] at h
      refine ihr hord.right ?_ ?_ h
      · intro x hx
        have hx' : x ∈ lower context ∨ x ∈ toList l ∨ x = a := by simpa [lower] using hx
        rcases hx' with hx | hx | rfl
        · exact hlower x hx
        · refine (hcut x a (hord.left_lt hx)).resolve_right fun hlt => ?_
          rw [hs] at hlt
          cases hlt
        · exact hs
      · exact hupper

theorem exists_eq_of_descend_eq_none {search : α → Ordering} {t : BinaryTree α}
    {context : List (Frame α)} (h : descend search t context = none) :
    ∃ x ∈ toList t, search x = .eq := by
  induction t generalizing context with
  | nil => cases h
  | node a l r ihl ihr =>
    rw [descend_node] at h
    cases hs : search a with
    | eq => exact ⟨a, by simp, hs⟩
    | lt =>
      rw [hs] at h
      obtain ⟨x, hx, hsx⟩ := ihl h
      exact ⟨x, by simp [hx], hsx⟩
    | gt =>
      rw [hs] at h
      obtain ⟨x, hx, hsx⟩ := ihr h
      exact ⟨x, by simp [hx], hsx⟩

/-! ## The place of a value -/

/-- The subtree whose root has the property, and the way from it to the root. -/
def locate (p : α → Bool) :
    BinaryTree α → List (Frame α) → Option (BinaryTree α × List (Frame α))
  | nil, _ => none
  | node a l r, context =>
    if p a then some (node a l r, context)
    else (locate p l (⟨true, a, r⟩ :: context)).or (locate p r (⟨false, a, l⟩ :: context))

theorem locate_eq_some {p : α → Bool} {t s : BinaryTree α} {context found : List (Frame α)}
    (h : locate p t context = some (s, found)) :
    (∃ a l r, s = node a l r ∧ p a = true) ∧ fill s found = fill t context := by
  induction t generalizing context with
  | nil => cases h
  | node a l r ihl ihr =>
    rw [locate] at h
    split at h
    next hp =>
      cases h
      exact ⟨⟨a, l, r, rfl, hp⟩, rfl⟩
    next hp =>
      rcases Option.or_eq_some_iff.mp h with h | ⟨-, h⟩
      · exact ihl h
      · exact ihr h

theorem locate_eq_none {p : α → Bool} {t : BinaryTree α} {context : List (Frame α)} :
    locate p t context = none ↔ ∀ x ∈ toList t, p x = false := by
  induction t generalizing context with
  | nil => simp [locate]
  | node a l r ihl ihr =>
    rw [locate]
    cases hp : p a with
    | true =>
      rw [if_pos rfl]
      constructor
      · intro h
        cases h
      · intro h
        rw [h a (by simp)] at hp
        cases hp
    | false =>
      simp only [Bool.false_eq_true, if_false, Option.or_eq_none_iff, ihl, ihr, toList_node,
        List.mem_append, List.mem_cons]
      constructor
      · rintro ⟨hl, hr⟩ x (hx | rfl | hx)
        · exact hl x hx
        · exact hp
        · exact hr x hx
      · intro h
        exact ⟨fun x hx => h x (Or.inl hx), fun x hx => h x (Or.inr (Or.inr hx))⟩

/-! ## The successor -/

/-- The way to the left from a node: the last value, its right child, and the way to it. -/
def takeLeftmost : α → BinaryTree α → BinaryTree α → List (Frame α) →
    α × BinaryTree α × List (Frame α)
  | a, nil, r, context => (a, r, context)
  | a, node b l lr, r, context => takeLeftmost b l lr (⟨true, a, r⟩ :: context)

theorem takeLeftmost_node (a b : α) (l lr r : BinaryTree α) (context : List (Frame α)) :
    takeLeftmost a (node b l lr) r context = takeLeftmost b l lr (⟨true, a, r⟩ :: context) := rfl

theorem fill_takeLeftmost (a : α) (l r : BinaryTree α) (context : List (Frame α)) :
    fill (node (takeLeftmost a l r context).1 nil (takeLeftmost a l r context).2.1)
      (takeLeftmost a l r context).2.2 = fill (node a l r) context := by
  induction l generalizing a r context with
  | nil => rfl
  | node b l lr ihl ihr =>
    rw [takeLeftmost_node, ihl]
    rfl

theorem lower_takeLeftmost (a : α) (l r : BinaryTree α) (context : List (Frame α)) :
    lower (takeLeftmost a l r context).2.2 = lower context := by
  induction l generalizing a r context with
  | nil => rfl
  | node b l lr ihl ihr => rw [takeLeftmost_node, ihl, lower]

theorem toList_takeLeftmost (a : α) (l r : BinaryTree α) :
    toList (node a l r) = (takeLeftmost a l r []).1 ::
      toList (fill (takeLeftmost a l r []).2.1 (takeLeftmost a l r []).2.2) := by
  have hfill := fill_takeLeftmost a l r []
  rw [fill] at hfill
  rw [← hfill, toList_fill, toList_fill, lower_takeLeftmost]
  rfl

/-- The nearest node to which the way leads from the left. -/
def firstAbove : List (Frame α) → Option α
  | [] => none
  | f :: context => if f.isLeft then some f.value else firstAbove context

theorem firstAbove_eq_head? (context : List (Frame α)) :
    firstAbove context = (upper context).head? := by
  induction context with
  | nil => rfl
  | cons f context ih =>
    rcases f with ⟨isLeft, a, s⟩
    cases isLeft with
    | true => rfl
    | false => exact ih

end TreeZipper
end CKern
