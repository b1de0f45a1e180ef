import CKern.Library.SearchTree
import CKern.Library.Refinement

/-!
# `ds/inmem/splaytree.c`: splay trees

* `Typeadapt`: the callbacks that compare keys and objects.
* `recursivesplay`: the reference for the splay operation.
* `splaykeySplaytree`, `splaynodeSplaytree`: the operation from top to down, with the nodes below and
  above the key on two lists.
* `insertSplaytree`, `removeSplaytree`, `findSplaytree` and the iterators.
* `splayLoop_eq_recursivesplay`: both versions of the operation build the same tree.
* `splaytree_exact`: the tree is an ordered set of nodes.
-/

namespace CKern

open BinaryTree Refinement SearchTree

/-- The comparator of `typeadapt_t`. -/
structure Typeadapt (κ ν : Type*) where
  cmpKeyObject : κ → ν → Ordering
  cmpObject : ν → ν → Ordering

/-- `splaytree_t`. The nodes are known by their addresses, which are of type `ν`. -/
structure Splaytree (ν : Type*) where
  root : BinaryTree ν
  deriving DecidableEq, Repr

namespace Splaytree

/-- The error codes of the module. -/
inductive Errno
  | EEXIST
  | ESRCH
  deriving DecidableEq, Repr

variable {κ ν : Type*}

/-- A pointer that is not null. -/
def isSet : BinaryTree ν → Bool
  | nil => false
  | node _ _ _ => true

/-- The comparison with a node; it is not called with the null pointer. -/
def compareNode (search : ν → Ordering) : BinaryTree ν → Ordering
  | nil => .eq
  | node n _ _ => search n

/-! ## Splaying -/

/-- `recursivesplay_splaytree`, where `search` is `KEYCOMPARE` with the key. -/
def recursivesplay (search : ν → Ordering) : BinaryTree ν → BinaryTree ν
  | nil => nil
  | node n l r =>
    if search n = .gt then
      match r with
      | nil => node n l nil
      | node rn rl rr =>
        if search rn = .gt ∧ isSet rr then
          match recursivesplay search rr with
          | nil => nil
          | node x xl xr => node x (node rn (node n l rl) xl) xr
        else if search rn = .lt ∧ isSet rl then
          match recursivesplay search rl with
          | nil => nil
          | node x xl xr => node x (node n l xl) (node rn xr rr)
        else node rn (node n l rl) rr
    else if search n = .lt then
      match l with
      | nil => node n nil r
      | node ln ll lr =>
        if search ln = .lt ∧ isSet ll then
          match recursivesplay search ll with
          | nil => nil
          | node x xl xr => node x xl (node ln xr (node n lr r))
        else if search ln = .gt ∧ isSet lr then
          match recursivesplay search lr with
          | nil => nil
          | node x xl xr => node x (node ln ll xl) (node n xr r)
        else node ln ll (node n lr r)
    else node n l r

/-- The end of both splay functions: what is linked to `lowerAsKey` and `higherAsKey`, the nearest
node first, goes below the new root. -/
def finish (n : ν) (l r : BinaryTree ν) (lowerAsKey higherAsKey : List (ν × BinaryTree ν)) :
    BinaryTree ν :=
  node n (lowerAsKey.foldl (fun t link => node link.1 link.2 t) l)
    (higherAsKey.foldl (fun t link => node link.1 t link.2) r)

/-- The loop of `splaykey_splaytree` and `splaynode_splaytree`, with the variable `cmp`. A node on
one of the lists stands with the child that is known, and the next node of its list is its other
child. -/
def splayLoop (search : ν → Ordering) :
    Ordering → BinaryTree ν → List (ν × BinaryTree ν) → List (ν × BinaryTree ν) →
      BinaryTree ν × Ordering
  | cmp, nil, _, _ => (nil, cmp)
  | cmp, node n l r, lowerAsKey, higherAsKey =>
    if cmp = .gt then
      match r with
      | nil => (finish n l nil lowerAsKey higherAsKey, cmp)
      | node rn rl rr =>
        let cmp := search rn
        if cmp = .gt ∧ isSet rr then
          splayLoop search (compareNode search rr) rr ((rn, node n l rl) :: lowerAsKey) higherAsKey
        else if cmp = .lt ∧ isSet rl then
          splayLoop search (compareNode search rl) rl ((n, l) :: lowerAsKey)
            ((rn, rr) :: higherAsKey)
        else splayLoop search cmp (node rn rl rr) ((n, l) :: lowerAsKey) higherAsKey
    else if cmp = .lt then
      match l with
      | nil => (finish n nil r lowerAsKey higherAsKey, cmp)
      | node ln ll lr =>
        let cmp := search ln
        if cmp = .lt ∧ isSet ll then
          splayLoop search (compareNode search ll) ll lowerAsKey ((ln, node n lr r) :: higherAsKey)
        else if cmp = .gt ∧ isSet lr then
          splayLoop search (compareNode search lr) lr ((ln, ll) :: lowerAsKey)
            ((n, r) :: higherAsKey)
        else splayLoop search cmp (node ln ll lr) lowerAsKey ((n, r) :: higherAsKey)
    else (finish n l r lowerAsKey higherAsKey, cmp)

/-- `recursivesplay_splaytree`, from the root on. -/
def recursivesplaySplaytree (typeadp : Typeadapt κ ν) (tree : Splaytree ν) (key : κ) :
    Splaytree ν := ⟨recursivesplay (typeadp.cmpKeyObject key) tree.root⟩

/-- `splaykey_splaytree`. -/
def splaykeySplaytree (typeadp : Typeadapt κ ν) (tree : Splaytree ν) (key : κ) : Splaytree ν :=
  let search := typeadp.cmpKeyObject key
  ⟨(splayLoop search (compareNode search tree.root) tree.root [] []).1⟩

/-- `splaynode_splaytree`: the tree, and `rootcmp`. -/
def splaynodeSplaytree (typeadp : Typeadapt κ ν) (tree : Splaytree ν) (keynode : ν) :
    Splaytree ν × Ordering :=
  let search := typeadp.cmpObject keynode
  let result := splayLoop search (compareNode search tree.root) tree.root [] []
  (⟨result.1⟩, result.2)

/-! ## Both versions of the operation -/

section Splay

variable (search : ν → Ordering)

theorem eq_nil_of_not_isSet {t : BinaryTree ν} (h : ¬ isSet t = true) : t = nil := by
  cases t with
  | nil => rfl
  | node n l r => exact absurd rfl h

theorem compareNode_node (n : ν) (l r : BinaryTree ν) :
    compareNode search (node n l r) = search n := rfl

theorem isSet_recursivesplay (t : BinaryTree ν) : isSet (recursivesplay search t) = isSet t := by
  fun_induction recursivesplay search t <;> simp_all [isSet]

theorem splayLoop_stop {n : ν} {l r : BinaryTree ν} (lower higher : List (ν × BinaryTree ν))
    (hgt : search n = .gt → r = nil) (hlt : search n = .lt → l = nil) :
    splayLoop search (search n) (node n l r) lower higher =
      (finish n l r lower higher, search n) := by
  rw [splayLoop.eq_def]
  dsimp only
  by_cases h : search n = .gt
  · rw [if_pos h, hgt h]
  rw [if_neg h]
  by_cases h' : search n = .lt
  · rw [if_pos h', hlt h']
  · rw [if_neg h']

/-- **The loop and the recursion**: the lists of the loop end up as the spines that the recursion
builds around what it has splayed. -/
theorem splayLoop_eq_recursivesplay {t : BinaryTree ν} (ht : isSet t)
    (lower higher : List (ν × BinaryTree ν)) :
    ∃ x xl xr, recursivesplay search t = node x xl xr ∧
      splayLoop search (compareNode search t) t lower higher =
        (finish x xl xr lower higher, search x) := by
  have hnil : ∀ {t : BinaryTree ν}, isSet t = true → recursivesplay search t ≠ nil := by
    intro t ht h
    have := isSet_recursivesplay search t
    rw [h, ht] at this
    cases this
  fun_induction recursivesplay search t generalizing lower higher with
  | case1 => cases ht
  | case2 n l hn =>
    exact ⟨n, l, nil, rfl, splayLoop_stop search lower higher (fun _ => rfl) (by simp [hn])⟩
  | case3 n l hn rn rl rr hrn hx ih => exact absurd hx (hnil hrn.2)
  | case4 n l hn rn rl rr hrn x xl xr hx ih =>
    -- zig-zig: the node and its right child turn, and the right child is linked
    obtain ⟨y, yl, yr, hy, hloop⟩ := ih hrn.2 ((rn, node n l rl) :: lower) higher
    rw [hx] at hy
    cases hy
    refine ⟨x, node rn (node n l rl) xl, xr, rfl, ?_⟩
    rw [splayLoop.eq_def, compareNode_node]
    dsimp only
    rw [if_pos hn, if_pos hrn, hloop]
    rfl
  | case5 n l hn rn rl rr hrn hrn' hx ih => exact absurd hx (hnil hrn'.2)
  | case6 n l hn rn rl rr hrn hrn' x xl xr hx ih =>
    -- zig-zag: the node goes to one list, and its right child to the other one
    obtain ⟨y, yl, yr, hy, hloop⟩ := ih hrn'.2 ((n, l) :: lower) ((rn, rr) :: higher)
    rw [hx] at hy
    cases hy
    refine ⟨x, node n l xl, node rn xr rr, rfl, ?_⟩
    rw [splayLoop.eq_def, compareNode_node]
    dsimp only
    rw [if_pos hn, if_neg hrn, if_pos hrn', hloop]
    rfl
  | case7 n l hn rn rl rr hrn hrn' =>
    -- zig: the loop ends at the right child
    refine ⟨rn, node n l rl, rr, rfl, ?_⟩
    rw [splayLoop.eq_def, compareNode_node]
    dsimp only
    rw [if_pos hn, if_neg hrn, if_neg hrn', splayLoop_stop]
    · rfl
    · exact fun h => eq_nil_of_not_isSet fun hset => hrn ⟨h, hset⟩
    · exact fun h => eq_nil_of_not_isSet fun hset => hrn' ⟨h, hset⟩
  | case8 n r hn hn' =>
    exact ⟨n, nil, r, rfl, splayLoop_stop search lower higher (fun h => absurd h hn) fun _ => rfl⟩
  | case9 n r hn hn' ln ll lr hln hx ih => exact absurd hx (hnil hln.2)
  | case10 n r hn hn' ln ll lr hln x xl xr hx ih =>
    obtain ⟨y, yl, yr, hy, hloop⟩ := ih hln.2 lower ((ln, node n lr r) :: higher)
    rw [hx] at hy
    cases hy
    refine ⟨x, xl, node ln xr (node n lr r), rfl, ?_⟩
    rw [splayLoop.eq_def, compareNode_node]
    dsimp only
    rw [if_neg hn, if_pos hn', if_pos hln, hloop]
    rfl
  | case11 n r hn hn' ln ll lr hln hln' hx ih => exact absurd hx (hnil hln'.2)
  | case12 n r hn hn' ln ll lr hln hln' x xl xr hx ih =>
    obtain ⟨y, yl, yr, hy, hloop⟩ := ih hln'.2 ((ln, ll) :: lower) ((n, r) :: higher)
    rw [hx] at hy
    cases hy
    refine ⟨x, node ln ll xl, node n xr r, rfl, ?_⟩
    rw [splayLoop.eq_def, compareNode_node]
    dsimp only
    rw [if_neg hn, if_pos hn', if_neg hln, if_pos hln', hloop]
    rfl
  | case13 n r hn hn' ln ll lr hln hln' =>
    refine ⟨ln, ll, node n lr r, rfl, ?_⟩
    rw [splayLoop.eq_def, compareNode_node]
    dsimp only
    rw [if_neg hn, if_pos hn', if_neg hln, if_neg hln', splayLoop_stop]
    · rfl
    · exact fun h => eq_nil_of_not_isSet fun hset => hln' ⟨h, hset⟩
    · exact fun h => eq_nil_of_not_isSet fun hset => hln ⟨h, hset⟩
  | case14 n l r hn hn' =>
    exact ⟨n, l, r, rfl, splayLoop_stop search lower higher (fun h => absurd h hn)
      fun h => absurd h hn'⟩

theorem toList_recursivesplay (t : BinaryTree ν) :
    toList (recursivesplay search t) = toList t := by
  have hnil : ∀ {t : BinaryTree ν}, isSet t = true → recursivesplay search t = nil → False := by
    intro t ht h
    have := isSet_recursivesplay search t
    rw [h, ht] at this
    cases this
  fun_induction recursivesplay search t with
  | case3 n l hn rn rl rr hrn hx ih => exact (hnil hrn.2 hx).elim
  | case5 n l hn rn rl rr hrn hrn' hx ih => exact (hnil hrn'.2 hx).elim
  | case9 n r hn hn' ln ll lr hln hx ih => exact (hnil hln.2 hx).elim
  | case11 n r hn hn' ln ll lr hln hln' hx ih => exact (hnil hln'.2 hx).elim
  | case4 n l hn rn rl rr hrn x xl xr hx ih => simp [← ih, hx]
  | case6 n l hn rn rl rr hrn hrn' x xl xr hx ih => simp [← ih, hx]
  | case10 n r hn hn' ln ll lr hln x xl xr hx ih => simp [← ih, hx]
  | case12 n r hn hn' ln ll lr hln hln' x xl xr hx ih => simp [← ih, hx]
  | _ => simp

theorem recursivesplay_root {t : BinaryTree ν} (ht : isSet t) (a : ν) :
    ∃ xl xr, recursivesplay search t = node (last search a t) xl xr := by
  have hvalue : ∀ {x y : ν} {l r : BinaryTree ν}, x = y →
      ∃ xl xr, node x l r = node y xl xr := by
    rintro x y l r rfl
    exact ⟨l, r, rfl⟩
  have hlt : ∀ {n}, ¬ search n = .gt → ¬ search n = .lt → search n = .eq := by
    intro n h h'
    cases hs : search n with
    | eq => rfl
    | lt => exact absurd hs h'
    | gt => exact absurd hs h
  fun_induction recursivesplay search t generalizing a with
  | case1 => cases ht
  | case2 n l hn => exact hvalue (last_of_gt a l nil hn).symm
  | case3 n l hn rn rl rr hrn hx ih =>
    obtain ⟨xl, xr, h⟩ := ih hrn.2 rn
    rw [hx] at h
    cases h
  | case4 n l hn rn rl rr hrn x xl xr hx ih =>
    obtain ⟨yl, yr, h⟩ := ih hrn.2 rn
    rw [hx] at h
    cases h
    exact hvalue (by rw [last_of_gt a _ _ hn, last_of_gt n _ _ hrn.1])
  | case5 n l hn rn rl rr hrn hrn' hx ih =>
    obtain ⟨xl, xr, h⟩ := ih hrn'.2 rn
    rw [hx] at h
    cases h
  | case6 n l hn rn rl rr hrn hrn' x xl xr hx ih =>
    obtain ⟨yl, yr, h⟩ := ih hrn'.2 rn
    rw [hx] at h
    cases h
    exact hvalue (by rw [last_of_gt a _ _ hn, last_of_lt n _ _ hrn'.1])
  | case7 n l hn rn rl rr hrn hrn' =>
    refine hvalue ?_
    rw [last_of_gt a _ _ hn]
    cases hs : search rn with
    | eq => rw [last_of_eq n _ _ hs]
    | gt => rw [last_of_gt n _ _ hs, eq_nil_of_not_isSet fun h => hrn ⟨hs, h⟩, last]
    | lt => rw [last_of_lt n _ _ hs, eq_nil_of_not_isSet fun h => hrn' ⟨hs, h⟩, last]
  | case8 n r hn hn' => exact hvalue (last_of_lt a nil r hn').symm
  | case9 n r hn hn' ln ll lr hln hx ih =>
    obtain ⟨xl, xr, h⟩ := ih hln.2 ln
    rw [hx] at h
    cases h
  | case10 n r hn hn' ln ll lr hln x xl xr hx ih =>
    obtain ⟨yl, yr, h⟩ := ih hln.2 ln
    rw [hx] at h
    cases h
    exact hvalue (by rw [last_of_lt a _ _ hn', last_of_lt n _ _ hln.1])
  | case11 n r hn hn' ln ll lr hln hln' hx ih =>
    obtain ⟨xl, xr, h⟩ := ih hln'.2 ln
    rw [hx] at h
    cases h
  | case12 n r hn hn' ln ll lr hln hln' x xl xr hx ih =>
    obtain ⟨yl, yr, h⟩ := ih hln'.2 ln
    rw [hx] at h
    cases h
    exact hvalue (by rw [last_of_lt a _ _ hn', last_of_gt n _ _ hln'.1])
  | case13 n r hn hn' ln ll lr hln hln' =>
    refine hvalue ?_
    rw [last_of_lt a _ _ hn']
    cases hs : search ln with
    | eq => rw [last_of_eq n _ _ hs]
    | gt => rw [last_of_gt n _ _ hs, eq_nil_of_not_isSet fun h => hln' ⟨hs, h⟩, last]
    | lt => rw [last_of_lt n _ _ hs, eq_nil_of_not_isSet fun h => hln ⟨hs, h⟩, last]
  | case14 n l r hn hn' => exact hvalue (last_of_eq a l r (hlt hn hn')).symm

/-- **What splaying does to an ordered tree**: the nodes stay in order, and the new root is next to
the place that is searched. -/
theorem splayLoop_spec {cmp : ν → ν → Ordering} [Std.TransCmp cmp] {t : BinaryTree ν}
    (ht : isSet t) (hord : Ordered cmp t) (hcut : Cut cmp search) :
    ∃ x l r, splayLoop search (compareNode search t) t [] [] = (node x l r, search x) ∧
      toList (node x l r) = toList t ∧ ∀ y ∈ toList t, Next cmp search x y := by
  obtain ⟨x, l, r, hrec, hloop⟩ := splayLoop_eq_recursivesplay search ht [] []
  obtain ⟨l', r', hroot⟩ := recursivesplay_root search ht x
  rw [hrec] at hroot
  refine ⟨x, l, r, hloop, by rw [← hrec, toList_recursivesplay], fun y hy => ?_⟩
  have hx : x = last search x t := (BinaryTree.node.inj hroot).1
  rw [hx]
  exact last_next hcut hord x hy

end Splay

/-- **The splay operation from top to down is the recursive one**, for a key and for a node that
carries it; the latter also tells how the key compares with the new root. -/
theorem splay_eq_recursivesplay (typeadp : Typeadapt κ ν) {tree : Splaytree ν}
    (h : tree.root ≠ nil) (key : κ) :
    splaykeySplaytree typeadp tree key = recursivesplaySplaytree typeadp tree key ∧
      ∀ keynode, (∀ n, typeadp.cmpObject keynode n = typeadp.cmpKeyObject key n) →
        (splaynodeSplaytree typeadp tree keynode).1 = recursivesplaySplaytree typeadp tree key ∧
          ∃ root l r, (recursivesplaySplaytree typeadp tree key).root = node root l r ∧
            (splaynodeSplaytree typeadp tree keynode).2 = typeadp.cmpKeyObject key root := by
  have hset : isSet tree.root = true := by
    by_contra hnot
    exact h (eq_nil_of_not_isSet hnot)
  obtain ⟨x, xl, xr, hrec, hloop⟩ :=
    splayLoop_eq_recursivesplay (typeadp.cmpKeyObject key) hset [] []
  unfold splaykeySplaytree recursivesplaySplaytree splaynodeSplaytree
  dsimp only
  refine ⟨by rw [hloop, hrec]; rfl, fun keynode hkey => ?_⟩
  rw [show typeadp.cmpObject keynode = typeadp.cmpKeyObject key from funext hkey, hloop, hrec]
  exact ⟨rfl, x, xl, xr, rfl, rfl⟩

/-- A key that is not stored, and zig-zag steps to the right and to the left. -/
theorem splay_eq_recursivesplay_six :
    (splaynodeSplaytree ⟨compare, compare⟩
      ⟨node 1 nil (node 9 (node 2 nil (node 8 (node 5 nil nil) nil)) nil)⟩ 6).1 =
    recursivesplaySplaytree ⟨compare, (compare : ℕ → ℕ → Ordering)⟩
      ⟨node 1 nil (node 9 (node 2 nil (node 8 (node 5 nil nil) nil)) nil)⟩ 6 :=
  ((splay_eq_recursivesplay ⟨compare, (compare : ℕ → ℕ → Ordering)⟩ (by simp) 6).2 6
    fun _ => rfl).1

/-! ## The operations -/

section Operations

variable [DecidableEq ν] (typeadp : Typeadapt κ ν)

/-- `insert_splaytree`. -/
def insertSplaytree (tree : Splaytree ν) (newNode : ν) : Option Errno × Splaytree ν :=
  match tree.root with
  | nil => (none, ⟨node newNode nil nil⟩)
  | node _ _ _ =>
    let splayed := splaynodeSplaytree typeadp tree newNode
    if splayed.2 = .eq then (some .EEXIST, splayed.1)
    else
      match splayed.1.root with
      | nil => (none, splayed.1)
      | node root l r =>
        if splayed.2 = .lt then (none, ⟨node newNode l (node root nil r)⟩)
        else (none, ⟨node newNode (node root l nil) r⟩)

/-- The loop of `remove_splaytree` that takes the leftmost node out of a tree: this node, and what
is left. -/
def takeLeftmost : ν → BinaryTree ν → BinaryTree ν → ν × BinaryTree ν
  | child, nil, r => (child, r)
  | child, node ln ll lr, r =>
    ((takeLeftmost ln ll lr).1, node child (takeLeftmost ln ll lr).2 r)

/-- The tree without its root. -/
def joinChildren (l r : BinaryTree ν) : BinaryTree ν :=
  match l, r with
  | nil, r => r
  | l, nil => l
  | l, node child cl cr =>
    match cl with
    | nil => node child l cr
    | node _ _ _ => node (takeLeftmost child cl cr).1 l (takeLeftmost child cl cr).2

/-- `remove_splaytree`. -/
def removeSplaytree (tree : Splaytree ν) (delnode : ν) : Option Errno × Splaytree ν :=
  match tree.root with
  | nil => (some .ESRCH, tree)
  | node _ _ _ =>
    let splayed := (splaynodeSplaytree typeadp tree delnode).1
    match splayed.root with
    | nil => (some .ESRCH, splayed)
    | node root l r =>
      if root ≠ delnode then (some .ESRCH, splayed) else (none, ⟨joinChildren l r⟩)

omit [DecidableEq ν] in
/-- `find_splaytree`. -/
def findSplaytree (tree : Splaytree ν) (key : κ) : Except Errno ν × Splaytree ν :=
  match tree.root with
  | nil => (.error .ESRCH, tree)
  | node _ _ _ =>
    let splayed := splaykeySplaytree typeadp tree key
    match splayed.root with
    | nil => (.error .ESRCH, splayed)
    | node root _ _ =>
      if typeadp.cmpKeyObject key root ≠ .eq then (.error .ESRCH, splayed)
      else (.ok root, splayed)

/-- `initfirst_splaytreeiterator`: the field `next` of the iterator. -/
def initfirstSplaytreeiterator (tree : Splaytree ν) : Option ν := leftmost tree.root

/-- `initlast_splaytreeiterator`. -/
def initlastSplaytreeiterator (tree : Splaytree ν) : Option ν := rightmost tree.root

/-- `next_splaytreeiterator`, for an iterator whose field `next` is not null: the node that is
returned, and the new field `next`. There is no result if the assertion of `splaynode_splaytree`
that the tree has a root fails. -/
def nextSplaytreeiterator (tree : Splaytree ν) (next : ν) : Option (ν × Option ν) × Splaytree ν :=
  let splayed := (splaynodeSplaytree typeadp tree next).1
  match splayed.root with
  | nil => (none, splayed)
  | node root _ r => (some (root, leftmost r), splayed)

/-- `prev_splaytreeiterator`, likewise. -/
def prevSplaytreeiterator (tree : Splaytree ν) (next : ν) : Option (ν × Option ν) × Splaytree ν :=
  let splayed := (splaynodeSplaytree typeadp tree next).1
  match splayed.root with
  | nil => (none, splayed)
  | node root l _ => (some (root, rightmost l), splayed)

end Operations

/-! ## What the operations do -/

/-- The callbacks agree on a total order: that of the objects, and the places of the keys in it. -/
structure Lawful (typeadp : Typeadapt κ ν) : Prop where
  trans : Std.TransCmp typeadp.cmpObject
  cut : ∀ key, Cut typeadp.cmpObject (typeadp.cmpKeyObject key)

/-- The nodes of the tree. -/
def nodes (tree : Splaytree ν) : Set ν := {n | n ∈ toList tree.root}

theorem mem_nodes {tree : Splaytree ν} {n : ν} : n ∈ nodes tree ↔ n ∈ toList tree.root := Iff.rfl

section Specs

variable {typeadp : Typeadapt κ ν} {tree : Splaytree ν}

theorem splaynodeSplaytree_spec (h : Lawful typeadp) (hord : Ordered typeadp.cmpObject tree.root)
    (hset : tree.root ≠ nil) (keynode : ν) :
    ∃ x l r, splaynodeSplaytree typeadp tree keynode =
        (⟨node x l r⟩, typeadp.cmpObject keynode x) ∧
      Ordered typeadp.cmpObject (node x l r) ∧
      nodes ⟨node x l r⟩ = nodes tree ∧
      ∀ y ∈ nodes tree, Next typeadp.cmpObject (typeadp.cmpObject keynode) x y := by
  have := h.trans
  have hisSet : isSet tree.root = true := by
    by_contra hnot
    exact hset (eq_nil_of_not_isSet hnot)
  obtain ⟨x, l, r, hloop, hlist, hnext⟩ :=
    splayLoop_spec (typeadp.cmpObject keynode) hisSet hord (cut_cmp keynode)
  refine ⟨x, l, r, ?_, ?_, ?_, hnext⟩
  · unfold splaynodeSplaytree
    dsimp only
    rw [hloop]
  · unfold Ordered
    rwa [hlist]
  · unfold nodes
    rw [hlist]

theorem splaykeySplaytree_spec (h : Lawful typeadp) (hord : Ordered typeadp.cmpObject tree.root)
    (hset : tree.root ≠ nil) (key : κ) :
    ∃ x l r, splaykeySplaytree typeadp tree key = ⟨node x l r⟩ ∧
      Ordered typeadp.cmpObject (node x l r) ∧
      nodes ⟨node x l r⟩ = nodes tree ∧
      ∀ y ∈ nodes tree, Next typeadp.cmpObject (typeadp.cmpKeyObject key) x y := by
  have := h.trans
  have hisSet : isSet tree.root = true := by
    by_contra hnot
    exact hset (eq_nil_of_not_isSet hnot)
  obtain ⟨x, l, r, hloop, hlist, hnext⟩ :=
    splayLoop_spec (typeadp.cmpKeyObject key) hisSet hord (h.cut key)
  refine ⟨x, l, r, ?_, ?_, ?_, hnext⟩
  · unfold splaykeySplaytree
    dsimp only
    rw [hloop]
  · unfold Ordered
    rwa [hlist]
  · unfold nodes
    rw [hlist]

theorem root_mem {x : ν} {l r : BinaryTree ν} {S : Set ν} (h : nodes ⟨node x l r⟩ = S) : x ∈ S := by
  rw [← h, mem_nodes, toList_node]
  exact List.mem_append_right _ List.mem_cons_self

theorem left_mem {x y : ν} {l r : BinaryTree ν} {S : Set ν} (h : nodes ⟨node x l r⟩ = S)
    (hy : y ∈ toList l) : y ∈ S := by
  rw [← h, mem_nodes, toList_node]
  exact List.mem_append_left _ hy

theorem right_mem {x y : ν} {l r : BinaryTree ν} {S : Set ν} (h : nodes ⟨node x l r⟩ = S)
    (hy : y ∈ toList r) : y ∈ S := by
  rw [← h, mem_nodes, toList_node]
  exact List.mem_append_right _ (List.mem_cons_of_mem x hy)

theorem nodes_nil : nodes (⟨nil⟩ : Splaytree ν) = ∅ :=
  Set.eq_empty_iff_forall_notMem.mpr fun _ h => List.not_mem_nil h

/-- **Insertion** fails if there is an equal node, and adds the node otherwise. -/
theorem insertSplaytree_spec (h : Lawful typeadp) (hord : Ordered typeadp.cmpObject tree.root)
    (newNode : ν) :
    Ordered typeadp.cmpObject (insertSplaytree typeadp tree newNode).2.root ∧
      ((insertSplaytree typeadp tree newNode).1 = some .EEXIST ∧
          (∃ m ∈ nodes tree, typeadp.cmpObject newNode m = .eq) ∧
          nodes (insertSplaytree typeadp tree newNode).2 = nodes tree ∨
        (insertSplaytree typeadp tree newNode).1 = none ∧
          (∀ m ∈ nodes tree, typeadp.cmpObject newNode m ≠ .eq) ∧
          nodes (insertSplaytree typeadp tree newNode).2 = insert newNode (nodes tree)) := by
  have := h.trans
  rcases tree with ⟨- | ⟨a, tl, tr⟩⟩
  · rw [nodes_nil]
    refine ⟨List.pairwise_singleton _ _, Or.inr ⟨rfl, fun m hm => hm.elim, ?_⟩⟩
    ext m
    simp [insertSplaytree, nodes]
  · obtain ⟨x, l, r, hsplay, hord', hnodes, hnext⟩ :=
      splaynodeSplaytree_spec h hord (by simp) newNode
    unfold insertSplaytree
    dsimp only
    rw [hsplay]
    dsimp only
    by_cases heq : typeadp.cmpObject newNode x = .eq
    · rw [if_pos heq]
      exact ⟨hord', Or.inl ⟨rfl, ⟨x, root_mem hnodes, heq⟩, hnodes⟩⟩
    rw [if_neg heq]
    have hne : ∀ m ∈ nodes ⟨node a tl tr⟩, typeadp.cmpObject newNode m ≠ .eq :=
      fun m hm hm' => heq ((hnext m hm).exact hm')
    by_cases hlt : typeadp.cmpObject newNode x = .lt
    · -- the new node goes between the left part and the old root
      rw [if_pos hlt]
      refine ⟨Ordered.node hord'.left (Ordered.node (List.Pairwise.nil) hord'.right ?_ ?_) ?_ ?_,
        Or.inr ⟨rfl, hne, ?_⟩⟩
      · exact fun y hy => absurd hy List.not_mem_nil
      · exact fun y hy => hord'.lt_right hy
      · exact fun y hy => Std.OrientedCmp.lt_of_gt
          ((hnext y (left_mem hnodes hy)).left hlt (hord'.left_lt hy))
      · intro y hy
        rw [toList_node, toList_nil, List.nil_append, List.mem_cons] at hy
        rcases hy with rfl | hy
        · exact hlt
        · exact Std.TransCmp.lt_trans hlt (hord'.lt_right hy)
      · rw [← hnodes]
        ext y
        simp only [nodes, toList_node, toList_nil, List.nil_append, Set.mem_ofPred_eq,
          Set.mem_insert_iff, List.mem_append, List.mem_cons]
        tauto
    · rw [if_neg hlt]
      have hgt : typeadp.cmpObject newNode x = .gt := by
        cases hs : typeadp.cmpObject newNode x with
        | eq => exact absurd hs heq
        | lt => exact absurd hs hlt
        | gt => rfl
      refine ⟨Ordered.node (Ordered.node hord'.left (List.Pairwise.nil) ?_ ?_) hord'.right ?_ ?_,
        Or.inr ⟨rfl, hne, ?_⟩⟩
      · exact fun y hy => hord'.left_lt hy
      · exact fun y hy => absurd hy List.not_mem_nil
      · intro y hy
        rw [toList_node, toList_nil, List.mem_append, List.mem_singleton] at hy
        rcases hy with hy | rfl
        · exact Std.TransCmp.lt_trans (hord'.left_lt hy) (Std.OrientedCmp.lt_of_gt hgt)
        · exact Std.OrientedCmp.lt_of_gt hgt
      · exact fun y hy => (hnext y (right_mem hnodes hy)).right hgt (hord'.lt_right hy)
      · rw [← hnodes]
        ext y
        simp only [nodes, toList_node, toList_nil, Set.mem_ofPred_eq, Set.mem_insert_iff,
          List.mem_append, List.mem_cons, List.not_mem_nil]
        tauto

theorem toList_takeLeftmost (child : ν) (l r : BinaryTree ν) :
    (takeLeftmost child l r).1 :: toList (takeLeftmost child l r).2 = toList (node child l r) := by
  induction l generalizing child r with
  | nil => rfl
  | node ln ll lr ihl ihr =>
    rw [takeLeftmost]
    dsimp only
    rw [toList_node, ← List.cons_append, ihl, ← toList_node]

theorem toList_joinChildren (l r : BinaryTree ν) :
    toList (joinChildren l r) = toList l ++ toList r := by
  cases l with
  | nil => rfl
  | node n ll lr =>
    cases r with
    | nil => exact (List.append_nil _).symm
    | node child cl cr =>
      cases cl with
      | nil => rfl
      | node cn cll clr =>
        rw [← toList_takeLeftmost child (node cn cll clr) cr]
        rfl

/-- **Removal** fails if the node is not in the tree, and takes it out otherwise. -/
theorem removeSplaytree_spec [DecidableEq ν] (h : Lawful typeadp)
    (hord : Ordered typeadp.cmpObject tree.root) (delnode : ν) :
    Ordered typeadp.cmpObject (removeSplaytree typeadp tree delnode).2.root ∧
      ((removeSplaytree typeadp tree delnode).1 = some .ESRCH ∧ delnode ∉ nodes tree ∧
          nodes (removeSplaytree typeadp tree delnode).2 = nodes tree ∨
        (removeSplaytree typeadp tree delnode).1 = none ∧ delnode ∈ nodes tree ∧
          nodes (removeSplaytree typeadp tree delnode).2 = nodes tree \ {delnode}) := by
  have := h.trans
  rcases tree with ⟨- | ⟨a, tl, tr⟩⟩
  · exact ⟨List.Pairwise.nil, Or.inl ⟨rfl, List.not_mem_nil, rfl⟩⟩
  · obtain ⟨x, l, r, hsplay, hord', hnodes, hnext⟩ :=
      splaynodeSplaytree_spec h hord (by simp) delnode
    unfold removeSplaytree
    dsimp only
    rw [hsplay]
    dsimp only
    by_cases hx : x = delnode
    · subst hx
      rw [if_neg (not_not.mpr rfl)]
      refine ⟨?_, Or.inr ⟨rfl, root_mem hnodes, ?_⟩⟩
      · unfold Ordered
        rw [toList_joinChildren]
        exact (List.pairwise_append.mpr ⟨hord'.left, hord'.right, fun y hy z hz =>
          Std.TransCmp.lt_trans (hord'.left_lt hy) (hord'.lt_right hz)⟩)
      · have hirr : typeadp.cmpObject x x ≠ .lt := by
          rw [(Std.ReflCmp.compare_self : typeadp.cmpObject x x = .eq)]
          exact fun h => by cases h
        have hxl : x ∉ toList l := fun hmem => hirr (hord'.left_lt hmem)
        have hxr : x ∉ toList r := fun hmem => hirr (hord'.lt_right hmem)
        rw [← hnodes]
        ext y
        simp only [nodes, toList_joinChildren, toList_node, Set.mem_ofPred_eq, Set.mem_sdiff,
          Set.mem_singleton_iff, List.mem_append, List.mem_cons]
        constructor
        · rintro (hy | hy)
          · exact ⟨Or.inl hy, fun heq => hxl (heq ▸ hy)⟩
          · exact ⟨Or.inr (Or.inr hy), fun heq => hxr (heq ▸ hy)⟩
        · rintro ⟨hy | hy | hy, hne⟩
          · exact Or.inl hy
          · exact absurd hy hne
          · exact Or.inr hy
    · rw [if_pos hx]
      refine ⟨hord', Or.inl ⟨rfl, fun hmem => hx ?_, hnodes⟩⟩
      -- the search for a node of the tree ends at that node
      have hself : typeadp.cmpObject delnode delnode = .eq := Std.ReflCmp.compare_self
      exact hord.eq_of_search_eq (cut_cmp delnode) (mem_nodes.mp (root_mem hnodes)) hmem
        ((hnext delnode hmem).exact hself) hself

/-- **The search** finds a node with the key, if there is one. -/
theorem findSplaytree_spec (h : Lawful typeadp) (hord : Ordered typeadp.cmpObject tree.root)
    (key : κ) :
    Ordered typeadp.cmpObject (findSplaytree typeadp tree key).2.root ∧
      nodes (findSplaytree typeadp tree key).2 = nodes tree ∧
      ((findSplaytree typeadp tree key).1 = .error .ESRCH ∧
          (∀ m ∈ nodes tree, typeadp.cmpKeyObject key m ≠ .eq) ∨
        ∃ m ∈ nodes tree, typeadp.cmpKeyObject key m = .eq ∧
          (findSplaytree typeadp tree key).1 = .ok m) := by
  rcases tree with ⟨- | ⟨a, tl, tr⟩⟩
  · exact ⟨List.Pairwise.nil, rfl, Or.inl ⟨rfl, fun m hm => absurd hm List.not_mem_nil⟩⟩
  · obtain ⟨x, l, r, hsplay, hord', hnodes, hnext⟩ := splaykeySplaytree_spec h hord (by simp) key
    unfold findSplaytree
    dsimp only
    rw [hsplay]
    dsimp only
    by_cases heq : typeadp.cmpKeyObject key x = .eq
    · rw [if_neg (not_not.mpr heq)]
      exact ⟨hord', hnodes, Or.inr ⟨x, root_mem hnodes, heq, rfl⟩⟩
    · rw [if_pos heq]
      exact ⟨hord', hnodes, Or.inl ⟨rfl, fun m hm hm' => heq ((hnext m hm).exact hm')⟩⟩

theorem splaynode_eq_root (h : Lawful typeadp) (hord : Ordered typeadp.cmpObject tree.root)
    {keynode x : ν} (hmem : keynode ∈ nodes tree) (hx : x ∈ nodes tree)
    (hnext : Next typeadp.cmpObject (typeadp.cmpObject keynode) x keynode) : x = keynode := by
  have := h.trans
  have hself : typeadp.cmpObject keynode keynode = .eq := Std.ReflCmp.compare_self
  exact hord.eq_of_search_eq (cut_cmp keynode) hx hmem (hnext.exact hself) hself

/-- **A step of an iterator** keeps the nodes; if the node to which it points is in the tree, then
that node is returned, and the next one is the least of those above. -/
theorem nextSplaytreeiterator_spec (h : Lawful typeadp)
    (hord : Ordered typeadp.cmpObject tree.root) (next : ν) :
    Ordered typeadp.cmpObject (nextSplaytreeiterator typeadp tree next).2.root ∧
      nodes (nextSplaytreeiterator typeadp tree next).2 = nodes tree ∧
      (next ∈ nodes tree → ∃ next', (nextSplaytreeiterator typeadp tree next).1 =
          some (next, next') ∧
        IsFirst typeadp.cmpObject {m | m ∈ nodes tree ∧ typeadp.cmpObject next m = .lt} next') := by
  have := h.trans
  rcases tree with ⟨- | ⟨a, tl, tr⟩⟩
  · exact ⟨List.Pairwise.nil, rfl, fun hmem => absurd hmem List.not_mem_nil⟩
  · obtain ⟨x, l, r, hsplay, hord', hnodes, hnext⟩ := splaynodeSplaytree_spec h hord (by simp) next
    unfold nextSplaytreeiterator
    dsimp only
    rw [hsplay]
    refine ⟨hord', hnodes, fun hmem => ?_⟩
    obtain rfl := splaynode_eq_root h hord hmem (root_mem hnodes) (hnext next hmem)
    refine ⟨leftmost r, rfl, ?_⟩
    have hset : {m | m ∈ nodes ⟨node a tl tr⟩ ∧ typeadp.cmpObject x m = .lt} =
        {m | m ∈ toList r} := by
      ext m
      constructor
      · rintro ⟨hm, hlt⟩
        rw [← hnodes, mem_nodes, toList_node, List.mem_append, List.mem_cons] at hm
        rcases hm with hm | rfl | hm
        · rw [Std.OrientedCmp.gt_of_lt (hord'.left_lt hm)] at hlt
          cases hlt
        · rw [(Std.ReflCmp.compare_self : typeadp.cmpObject m m = .eq)] at hlt
          cases hlt
        · exact hm
      · exact fun hm => ⟨right_mem hnodes hm, hord'.lt_right hm⟩
    rw [hset]
    exact isFirst_leftmost hord'.right

theorem prevSplaytreeiterator_spec (h : Lawful typeadp)
    (hord : Ordered typeadp.cmpObject tree.root) (next : ν) :
    Ordered typeadp.cmpObject (prevSplaytreeiterator typeadp tree next).2.root ∧
      nodes (prevSplaytreeiterator typeadp tree next).2 = nodes tree ∧
      (next ∈ nodes tree → ∃ next', (prevSplaytreeiterator typeadp tree next).1 =
          some (next, next') ∧
        IsLast typeadp.cmpObject {m | m ∈ nodes tree ∧ typeadp.cmpObject m next = .lt} next') := by
  have := h.trans
  rcases tree with ⟨- | ⟨a, tl, tr⟩⟩
  · exact ⟨List.Pairwise.nil, rfl, fun hmem => absurd hmem List.not_mem_nil⟩
  · obtain ⟨x, l, r, hsplay, hord', hnodes, hnext⟩ := splaynodeSplaytree_spec h hord (by simp) next
    unfold prevSplaytreeiterator
    dsimp only
    rw [hsplay]
    refine ⟨hord', hnodes, fun hmem => ?_⟩
    obtain rfl := splaynode_eq_root h hord hmem (root_mem hnodes) (hnext next hmem)
    refine ⟨rightmost l, rfl, ?_⟩
    have hset : {m | m ∈ nodes ⟨node a tl tr⟩ ∧ typeadp.cmpObject m x = .lt} =
        {m | m ∈ toList l} := by
      ext m
      constructor
      · rintro ⟨hm, hlt⟩
        rw [← hnodes, mem_nodes, toList_node, List.mem_append, List.mem_cons] at hm
        rcases hm with hm | rfl | hm
        · exact hm
        · rw [(Std.ReflCmp.compare_self : typeadp.cmpObject m m = .eq)] at hlt
          cases hlt
        · rw [Std.OrientedCmp.gt_of_lt (hord'.lt_right hm)] at hlt
          cases hlt
      · exact fun hm => ⟨left_mem hnodes hm, hord'.left_lt hm⟩
    rw [hset]
    exact isLast_rightmost hord'.left

end Specs

/-! ## An ordered set -/

/-- The calls on a tree, and the steps of the iterators over it. -/
inductive Op (κ ν : Type*)
  | insert (newNode : ν)
  | remove (delnode : ν)
  | find (key : κ)
  | initfirst
  | initlast
  | next (iternext : Option ν)
  | prev (iternext : Option ν)

/-- What a call returns: success or an error, the node that was found, the field `next` of an
iterator, the node and the new field `next` after a step, or the end of the iteration; or an
assertion fails. -/
inductive Result (ν : Type*)
  | done
  | error (e : Errno)
  | found (n : ν)
  | iterator (next : Option ν)
  | node (n : ν) (next : Option ν)
  | stop
  | assertion

/-- The result of a call without output parameter. -/
def resultOf : Option Errno → Result ν
  | none => .done
  | some e => .error e

/-- The result of a step of an iterator. -/
def resultOfStep : Option (ν × Option ν) → Result ν
  | none => .assertion
  | some (n, next) => .node n next

section Runs

variable [DecidableEq ν] (typeadp : Typeadapt κ ν)

/-- A call. -/
def step (tree : Splaytree ν) : Op κ ν → Result ν × Splaytree ν
  | .insert newNode =>
    (resultOf (insertSplaytree typeadp tree newNode).1, (insertSplaytree typeadp tree newNode).2)
  | .remove delnode =>
    (resultOf (removeSplaytree typeadp tree delnode).1, (removeSplaytree typeadp tree delnode).2)
  | .find key =>
    match (findSplaytree typeadp tree key).1 with
    | .error e => (.error e, (findSplaytree typeadp tree key).2)
    | .ok n => (.found n, (findSplaytree typeadp tree key).2)
  | .initfirst => (.iterator (initfirstSplaytreeiterator tree), tree)
  | .initlast => (.iterator (initlastSplaytreeiterator tree), tree)
  | .next none => (.stop, tree)
  | .next (some n) =>
    (resultOfStep (nextSplaytreeiterator typeadp tree n).1, (nextSplaytreeiterator typeadp tree n).2)
  | .prev none => (.stop, tree)
  | .prev (some n) =>
    (resultOfStep (prevSplaytreeiterator typeadp tree n).1, (prevSplaytreeiterator typeadp tree n).2)

omit [DecidableEq ν] in
/-- The nodes of an ordered set after a call. -/
def nodesAfter (S : Set ν) : Op κ ν → Set ν
  | .insert newNode => {n | n ∈ S ∨ n = newNode ∧ ∀ m ∈ S, typeadp.cmpObject newNode m ≠ .eq}
  | .remove delnode => S \ {delnode}
  | _ => S

omit [DecidableEq ν] in
/-- What an ordered set with the nodes `S` returns. Of a step of an iterator this is said only if the
iterator points to one of the nodes. -/
def Answer (S : Set ν) : Op κ ν → Result ν → Prop
  | .insert newNode, out =>
    out = .error .EEXIST ∧ (∃ m ∈ S, typeadp.cmpObject newNode m = .eq) ∨
      out = .done ∧ ∀ m ∈ S, typeadp.cmpObject newNode m ≠ .eq
  | .remove delnode, out =>
    out = .error .ESRCH ∧ delnode ∉ S ∨ out = .done ∧ delnode ∈ S
  | .find key, out =>
    out = .error .ESRCH ∧ (∀ m ∈ S, typeadp.cmpKeyObject key m ≠ .eq) ∨
      ∃ m ∈ S, typeadp.cmpKeyObject key m = .eq ∧ out = .found m
  | .initfirst, out => ∃ next, out = .iterator next ∧ IsFirst typeadp.cmpObject S next
  | .initlast, out => ∃ next, out = .iterator next ∧ IsLast typeadp.cmpObject S next
  | .next none, out => out = .stop
  | .next (some n), out => n ∈ S → ∃ next, out = .node n next ∧
      IsFirst typeadp.cmpObject {m | m ∈ S ∧ typeadp.cmpObject n m = .lt} next
  | .prev none, out => out = .stop
  | .prev (some n), out => n ∈ S → ∃ next, out = .node n next ∧
      IsLast typeadp.cmpObject {m | m ∈ S ∧ typeadp.cmpObject m n = .lt} next

variable {typeadp}

/-- **A call** on a tree is one on the set of its nodes. -/
theorem step_spec (h : Lawful typeadp) {tree : Splaytree ν}
    (hord : Ordered typeadp.cmpObject tree.root) (op : Op κ ν) :
    Ordered typeadp.cmpObject (step typeadp tree op).2.root ∧
      nodes (step typeadp tree op).2 = nodesAfter typeadp (nodes tree) op ∧
      Answer typeadp (nodes tree) op (step typeadp tree op).1 := by
  cases op with
  | insert newNode =>
    obtain ⟨hord', ⟨hout, hex, hnodes⟩ | ⟨hout, hno, hnodes⟩⟩ := insertSplaytree_spec h hord newNode
    · refine ⟨hord', hnodes.trans ?_, Or.inl ⟨by rw [step, hout]; rfl, hex⟩⟩
      obtain ⟨m, hm, heq⟩ := hex
      ext n
      exact ⟨Or.inl, fun hn => hn.resolve_right fun hnew => hnew.2 m hm heq⟩
    · refine ⟨hord', hnodes.trans ?_, Or.inr ⟨by rw [step, hout]; rfl, hno⟩⟩
      ext n
      rw [Set.mem_insert_iff, or_comm]
      exact or_congr_right (and_iff_left hno).symm
  | remove delnode =>
    obtain ⟨hord', ⟨hout, hmem, hnodes⟩ | ⟨hout, hmem, hnodes⟩⟩ :=
      removeSplaytree_spec h hord delnode
    · refine ⟨hord', hnodes.trans ?_, Or.inl ⟨by rw [step, hout]; rfl, hmem⟩⟩
      exact (Set.sdiff_singleton_eq_self hmem).symm
    · exact ⟨hord', hnodes, Or.inr ⟨by rw [step, hout]; rfl, hmem⟩⟩
  | find key =>
    obtain ⟨hord', hnodes, ⟨hout, hno⟩ | ⟨m, hm, heq, hout⟩⟩ := findSplaytree_spec h hord key
    · rw [step, hout]
      exact ⟨hord', hnodes, Or.inl ⟨rfl, hno⟩⟩
    · rw [step, hout]
      exact ⟨hord', hnodes, Or.inr ⟨m, hm, heq, rfl⟩⟩
  | initfirst => exact ⟨hord, rfl, _, rfl, isFirst_leftmost hord⟩
  | initlast => exact ⟨hord, rfl, _, rfl, isLast_rightmost hord⟩
  | next iternext =>
    cases iternext with
    | none => exact ⟨hord, rfl, rfl⟩
    | some n =>
      obtain ⟨hord', hnodes, hstep⟩ := nextSplaytreeiterator_spec h hord n
      refine ⟨hord', hnodes, fun hn => ?_⟩
      obtain ⟨next, hout, hfirst⟩ := hstep hn
      exact ⟨next, by rw [step, hout]; rfl, hfirst⟩
  | prev iternext =>
    cases iternext with
    | none => exact ⟨hord, rfl, rfl⟩
    | some n =>
      obtain ⟨hord', hnodes, hstep⟩ := prevSplaytreeiterator_spec h hord n
      refine ⟨hord', hnodes, fun hn => ?_⟩
      obtain ⟨next, hout, hlast⟩ := hstep hn
      exact ⟨next, by rw [step, hout]; rfl, hlast⟩

/-- **Runs** keep the order, and the nodes are those that a set has. -/
theorem run_spec (h : Lawful typeadp) {tree : Splaytree ν}
    (hord : Ordered typeadp.cmpObject tree.root) (ops : List (Op κ ν)) :
    Ordered typeadp.cmpObject (run (step typeadp) tree ops).2.root ∧
      nodes (run (step typeadp) tree ops).2 = ops.foldl (nodesAfter typeadp) (nodes tree) := by
  induction ops generalizing tree with
  | nil => exact ⟨hord, rfl⟩
  | cons op ops ih =>
    obtain ⟨hord', hnodes, -⟩ := step_spec h hord op
    obtain ⟨hord'', hnodes'⟩ := ih hord'
    rw [hnodes] at hnodes'
    exact ⟨hord'', hnodes'⟩

/-- **`splaytree.c` is an ordered set.** After every sequence of calls on an empty tree, the nodes
from left to right grow and none is there twice, they are those that were inserted and not removed
again, and every call returns what it returns for the set of these nodes. -/
theorem splaytree_exact (h : Lawful typeadp) (ops : List (Op κ ν)) :
    Ordered typeadp.cmpObject (run (step typeadp) ⟨nil⟩ ops).2.root ∧
      (toList (run (step typeadp) ⟨nil⟩ ops).2.root).Nodup ∧
      nodes (run (step typeadp) ⟨nil⟩ ops).2 = ops.foldl (nodesAfter typeadp) ∅ ∧
      ∀ op, Answer typeadp (nodes (run (step typeadp) ⟨nil⟩ ops).2) op
        (step typeadp (run (step typeadp) ⟨nil⟩ ops).2 op).1 := by
  have := h.trans
  obtain ⟨hord, hnodes⟩ := @run_spec _ _ _ _ h ⟨nil⟩ List.Pairwise.nil ops
  rw [nodes_nil] at hnodes
  refine ⟨hord, List.Pairwise.imp (fun {x y} hlt => ?_) hord, hnodes,
    fun op => (step_spec h hord op).2.2⟩
  rintro rfl
  rw [(Std.ReflCmp.compare_self : typeadp.cmpObject x x = .eq)] at hlt
  cases hlt

/-- The numbers in their order, with an insertion that fails, an iterator that is at the node that is
removed, and a search. -/
theorem splaytree_exact_two : nodes (run (step ⟨compare, (compare : ℕ → ℕ → Ordering)⟩) ⟨nil⟩
      [.insert 5, .insert 2, .insert 5, .initfirst, .next (some 2), .remove 2, .next (some 5),
        .insert 7, .find 6]).2 = {5, 7} := by
  have hlawful : Lawful (⟨compare, compare⟩ : Typeadapt ℕ ℕ) :=
    ⟨inferInstanceAs (Std.TransCmp (compare : ℕ → ℕ → Ordering)), fun key => cut_cmp key⟩
  refine (splaytree_exact hlawful _).2.2.1.trans ?_
  ext n
  simp [nodesAfter]
  omega

end Runs

end Splaytree
end CKern
