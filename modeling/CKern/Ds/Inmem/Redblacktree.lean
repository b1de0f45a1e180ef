import CKern.Library.TreeZipper
import CKern.Ds.Inmem.Splaytree

/-!
# `ds/inmem/redblacktree.c`: red-black trees

* `rotateLeft`, `rotateRight`, `rebalanceAfterInsert`, `rebalanceAfterRemove`.
* `insertRedblacktree`, `removeRedblacktree`, `findRedblacktree` and the iterators.
* `nodes_insertRedblacktree`, `nodes_removeRedblacktree`, `findRedblacktree_spec`: what the
  operations do to the nodes from left to right.

A function of the source and its dual case are one definition here. It has the parameter `isLeft`,
and its comments and variables have the names of the case where `isLeft` is true.
-/

namespace CKern

open BinaryTree SearchTree TreeZipper

namespace Redblacktree

/-- The lowest bit of the field `parent` of a node. -/
inductive Color
  | red
  | black
  deriving DecidableEq, Repr

/-- The error codes of the module. -/
inductive Errno
  | EEXIST
  | ESRCH
  deriving DecidableEq, Repr

/-- The field `root` of `redblacktree_t`. The nodes are known by their addresses, which are of type
`ν`, and stand together with their colors. -/
abbrev Tree (ν : Type*) := BinaryTree (ν × Color)

/-- The way from a node to the root along the fields `parent`. -/
abbrev Context (ν : Type*) := List (Frame (ν × Color))

variable {κ ν : Type*}

/-! ## Rotations and colors -/

/-- `!node || ISBLACK(node)`. -/
def isBlack : Tree ν → Bool
  | nil => true
  | node n _ _ => n.2 = .black

/-- `SETBLACK` and `SETRED`. -/
def setColor (color : Color) : Tree ν → Tree ν
  | nil => nil
  | node n l r => node (n.1, color) l r

/-- The field `left` or the field `right` of a node. -/
def child (isLeft : Bool) : Tree ν → Tree ν
  | nil => nil
  | node _ l r => match isLeft with
    | true => l
    | false => r

/-- A node with another left or right child. -/
def setChild (isLeft : Bool) (t : Tree ν) (c : Tree ν) : Tree ν :=
  match t with
  | nil => nil
  | node n l r => match isLeft with
    | true => node n c r
    | false => node n l c

/-- `rotateLeft`; the assertion is that there is a right child. -/
def rotateLeft : Tree ν → Tree ν
  | node n l (node right rl rr) => node right (node n l rl) rr
  | t => t

/-- `rotateRight`; the assertion is that there is a left child. -/
def rotateRight : Tree ν → Tree ν
  | node n (node left ll lr) r => node left ll (node n lr r)
  | t => t

/-- `rotateLeft`, or `rotateRight` in a dual case. -/
def rotate (isLeft : Bool) : Tree ν → Tree ν :=
  match isLeft with
  | true => rotateLeft
  | false => rotateRight

/-! ## Insertion -/

/-- The loop of `rebalanceAfterInsert`, where `child` is red and the place of `child` is given by the
frames of `node`, of `parent`, and of the nodes above. -/
def rebalanceAfterInsert : Tree ν → Context ν → Tree ν
  | child, f :: g :: context =>
    if isBlack g.sibling then
      -- uncle is BLACK => rotation, after the child was made a left child
      let node := link f.isLeft f.value child f.sibling
      let node := if f.isLeft = g.isLeft then node else rotate g.isLeft node
      let parent := link g.isLeft (g.value.1, Color.red) (setColor .black node) g.sibling
      fill (rotate (!g.isLeft) parent) context
    else
      -- uncle is RED => propagate red
      let node := link f.isLeft (f.value.1, Color.black) child f.sibling
      let child := link g.isLeft (g.value.1, Color.red) node (setColor .black g.sibling)
      match context with
      | [] => setColor .black child
      | h :: _ =>
        if h.value.2 = .black then fill child context else rebalanceAfterInsert child context
  | child, context => fill child context

/-- `insert_redblacktree`. -/
def insertRedblacktree (typeadp : Typeadapt κ ν) (tree : Tree ν) (newNode : ν) :
    Option Errno × Tree ν :=
  match descend (fun n => typeadp.cmpObject newNode n.1) tree [] with
  | none => (some .EEXIST, tree)
  | some [] => (none, node (newNode, .black) nil nil)
  | some (f :: context) =>
    let newTree := node (newNode, Color.red) nil nil
    if f.value.2 = .red then (none, rebalanceAfterInsert newTree (f :: context))
    else (none, fill newTree (f :: context))

/-! ## Removal -/

/-- The cases II, III and IV of `rebalanceAfterRemove`, where `f` is the frame of `parent`: the tree
below `parent`, and whether the loop ends. -/
def rebalanceStep (removed : Tree ν) (f : Frame (ν × Color)) : Tree ν × Bool :=
  let right := f.sibling
  if isBlack (child f.isLeft right) && isBlack (child (!f.isLeft) right) then
    -- case II.1, or II.2 where the loop goes on above
    if f.value.2 = .red then
      (link f.isLeft (f.value.1, .black) removed (setColor .red right), true)
    else (link f.isLeft f.value removed (setColor .red right), false)
  else
    let right := if isBlack (child (!f.isLeft) right) then
        -- case III
        rotate (!f.isLeft) (setChild f.isLeft right (setColor .black (child f.isLeft right)))
      else right
    -- case IV
    let right := if f.value.2 = .red then setColor .red right else right
    let right := setChild (!f.isLeft) right (setColor .black (child (!f.isLeft) right))
    (rotate f.isLeft (link f.isLeft (f.value.1, .black) removed right), true)

/-- The loop of `rebalanceAfterRemove`, where the first frame is that of `parent`. -/
def rebalanceAfterRemove : Tree ν → Context ν → Tree ν
  | removed, [] => removed
  | removed, f :: context =>
    if isBlack f.sibling then
      let result := rebalanceStep removed f
      if result.2 then fill result.1 context else rebalanceAfterRemove result.1 context
    else
      -- case I: after the rotation the red `parent` is below `right`, and the loop ends
      match f.sibling with
      | nil => fill removed (f :: context)
      | node right rl rr =>
        let sibling := node right rl rr
        let result := rebalanceStep removed ⟨f.isLeft, (f.value.1, .red), child f.isLeft sibling⟩
        fill result.1 (⟨f.isLeft, (right.1, .black), child (!f.isLeft) sibling⟩ :: context)

/-- The end of `remove_redblacktree`: a node of the color `color`, which has at most the child
`nodeChild`, is taken out at a place. -/
def unlinkNode (color : Color) (nodeChild : Tree ν) : Context ν → Tree ν
  | [] => setColor .black nodeChild
  | f :: context =>
    if color = .black then
      match nodeChild with
      | nil => rebalanceAfterRemove nil (f :: context)
      | node n l r => fill (node (n.1, .black) l r) (f :: context)
    else fill nodeChild (f :: context)

section Nodes

variable [DecidableEq ν]

/-- `remove_redblacktree`. The place of a node is known by its address; nothing is said about a node
that is not in the tree. -/
def removeRedblacktree (tree : Tree ν) (delnode : ν) : Tree ν :=
  match locate (fun n => n.1 = delnode) tree [] with
  | some (node n l r, context) =>
    match l, r with
    | nil, _ => unlinkNode n.2 r context
    | _, nil => unlinkNode n.2 l context
    | _, node rn rl rr =>
      -- the successor has no left child, and moves to the place of the node
      let replace := takeLeftmost rn rl rr []
      unlinkNode replace.1.2 replace.2.1
        (replace.2.2 ++ ⟨false, (replace.1.1, n.2), l⟩ :: context)
  | _ => tree

/-- `find_redblacktree`. -/
def findRedblacktree (typeadp : Typeadapt κ ν) (key : κ) : Tree ν → Except Errno ν
  | nil => .error .ESRCH
  | node n l r =>
    match typeadp.cmpKeyObject key n.1 with
    | .eq => .ok n.1
    | .lt => findRedblacktree typeadp key l
    | .gt => findRedblacktree typeadp key r

/-- `initfirst_redblacktreeiterator`: the field `next` of the iterator. -/
def initfirstRedblacktreeiterator (tree : Tree ν) : Option ν := (leftmost tree).map Prod.fst

/-- The field `next` of the iterator after `next_redblacktreeiterator` has returned `next`. -/
def nextRedblacktreeiterator (tree : Tree ν) (next : ν) : Option ν :=
  match locate (fun n => n.1 = next) tree [] with
  | some (node _ _ nil, context) => (firstAbove context).map Prod.fst
  | some (node _ _ r, _) => (leftmost r).map Prod.fst
  | _ => none

end Nodes

/-! ## The nodes from left to right -/

/-- The nodes of a tree from left to right. -/
def nodes (tree : Tree ν) : List ν := (toList tree).map Prod.fst

@[simp] theorem nodes_nil : nodes (nil : Tree ν) = [] := rfl

@[simp] theorem nodes_node (n : ν × Color) (l r : Tree ν) :
    nodes (node n l r) = nodes l ++ n.1 :: nodes r := by
  simp [nodes]

/-- The nodes to the left of a place. -/
def nodesBelow (context : Context ν) : List ν := (lower context).map Prod.fst

/-- The nodes to the right of a place. -/
def nodesAbove (context : Context ν) : List ν := (upper context).map Prod.fst

theorem nodes_fill (t : Tree ν) (context : Context ν) :
    nodes (fill t context) = nodesBelow context ++ (nodes t ++ nodesAbove context) := by
  unfold nodes nodesBelow nodesAbove
  rw [toList_fill, List.map_append, List.map_append]

theorem nodes_fill_congr {t t' : Tree ν} (h : nodes t = nodes t') (context : Context ν) :
    nodes (fill t context) = nodes (fill t' context) := by
  rw [nodes_fill, nodes_fill, h]

theorem nodes_link_congr {a a' : ν × Color} {t t' s s' : Tree ν} (isLeft : Bool)
    (ha : a.1 = a'.1) (ht : nodes t = nodes t') (hs : nodes s = nodes s') :
    nodes (link isLeft a t s) = nodes (link isLeft a' t' s') := by
  cases isLeft with
  | true => simp [link, ha, ht, hs]
  | false => simp [link, ha, ht, hs]

@[simp] theorem nodes_setColor (color : Color) (t : Tree ν) :
    nodes (setColor color t) = nodes t := by
  cases t with
  | nil => rfl
  | node n l r => simp [setColor]

theorem nodes_rotateLeft (t : Tree ν) : nodes (rotateLeft t) = nodes t := by
  fun_cases rotateLeft with
  | case1 n l right rl rr => simp
  | case2 => rfl

theorem nodes_rotateRight (t : Tree ν) : nodes (rotateRight t) = nodes t := by
  fun_cases rotateRight with
  | case1 n left ll lr r => simp
  | case2 => rfl

@[simp] theorem nodes_rotate (isLeft : Bool) (t : Tree ν) :
    nodes (rotate isLeft t) = nodes t := by
  cases isLeft with
  | true => exact nodes_rotateLeft t
  | false => exact nodes_rotateRight t

theorem nodes_setChild_setColor (isLeft : Bool) (t : Tree ν) (color : Color) :
    nodes (setChild isLeft t (setColor color (child isLeft t))) = nodes t := by
  cases t with
  | nil => rfl
  | node n l r =>
    cases isLeft with
    | true => simp [setChild, child]
    | false => simp [setChild, child]

theorem nodes_propagate (t : Tree ν) (f g : Frame (ν × Color)) :
    nodes (link g.isLeft (g.value.1, .red) (link f.isLeft (f.value.1, .black) t f.sibling)
      (setColor .black g.sibling)) =
      nodes (link g.isLeft g.value (link f.isLeft f.value t f.sibling) g.sibling) :=
  nodes_link_congr g.isLeft rfl (nodes_link_congr f.isLeft rfl rfl rfl) (nodes_setColor _ _)

theorem nodes_rebalanceAfterInsert (t : Tree ν) (context : Context ν) :
    nodes (rebalanceAfterInsert t context) = nodes (fill t context) := by
  fun_induction rebalanceAfterInsert t context with
  | case1 t f g context hblack node node' parent =>
    refine nodes_fill_congr ?_ context
    have hnode : nodes node' = nodes node := by
      unfold node'
      split
      · rfl
      · exact nodes_rotate _ _
    rw [nodes_rotate]
    exact nodes_link_congr g.isLeft rfl (by rw [nodes_setColor, hnode]) rfl
  | case2 t f g hred node child =>
    rw [nodes_setColor]
    exact nodes_propagate t f g
  | case3 t f g hred node child h context hcolor =>
    exact nodes_fill_congr (nodes_propagate t f g) (h :: context)
  | case4 t f g hred node child h context hcolor ih =>
    rw [ih]
    exact nodes_fill_congr (nodes_propagate t f g) (h :: context)
  | case5 t context hshort => rfl

theorem nodes_rebalanceStep (removed : Tree ν) (f : Frame (ν × Color)) :
    nodes (rebalanceStep removed f).1 = nodes (link f.isLeft f.value removed f.sibling) := by
  fun_cases rebalanceStep removed f with
  | case1 right hblack hred => exact nodes_link_congr f.isLeft rfl rfl (nodes_setColor _ _)
  | case2 right hblack hred => exact nodes_link_congr f.isLeft rfl rfl (nodes_setColor _ _)
  | case3 right hblack right1 right2 right3 =>
    have h1 : nodes right1 = nodes right := by
      unfold right1
      split
      · rw [nodes_rotate, nodes_setChild_setColor]
      · rfl
    have h2 : nodes right2 = nodes right1 := by
      unfold right2
      split
      · exact nodes_setColor _ _
      · rfl
    have h3 : nodes right3 = nodes right2 := nodes_setChild_setColor _ _ _
    rw [nodes_rotate]
    exact nodes_link_congr f.isLeft rfl rfl (h3.trans (h2.trans h1))

theorem nodes_rebalanceAfterRemove (removed : Tree ν) (context : Context ν) :
    nodes (rebalanceAfterRemove removed context) = nodes (fill removed context) := by
  fun_induction rebalanceAfterRemove removed context with
  | case1 removed => rfl
  | case2 removed f context hblack result hdone =>
    exact nodes_fill_congr (nodes_rebalanceStep removed f) context
  | case3 removed f context hblack result hdone ih =>
    rw [ih]
    exact nodes_fill_congr (nodes_rebalanceStep removed f) context
  | case4 removed f context hblack hnil => rfl
  | case5 removed f context hblack right rl rr hsibling sibling result =>
    refine nodes_fill_congr ?_ context
    rw [hsibling]
    rcases f with ⟨isLeft, a, s⟩
    cases isLeft with
    | true =>
      have hstep : nodes result.1 = nodes removed ++ a.1 :: nodes rl :=
        (nodes_rebalanceStep removed ⟨true, (a.1, .red), rl⟩).trans (nodes_node _ _ _)
      simp [link, child, sibling, hstep]
    | false =>
      have hstep : nodes result.1 = nodes rr ++ a.1 :: nodes removed :=
        (nodes_rebalanceStep removed ⟨false, (a.1, .red), rr⟩).trans (nodes_node _ _ _)
      simp [link, child, sibling, hstep]

theorem nodes_unlinkNode (color : Color) (nodeChild : Tree ν) (context : Context ν) :
    nodes (unlinkNode color nodeChild context) = nodes (fill nodeChild context) := by
  fun_cases unlinkNode color nodeChild context with
  | case1 => exact nodes_setColor _ _
  | case2 f context hblack => exact nodes_rebalanceAfterRemove nil (f :: context)
  | case3 f context hblack n l r =>
    exact nodes_fill_congr (by rw [nodes_node, nodes_node]) (f :: context)
  | case4 f context hred => rfl

/-! ## What the operations do to the nodes -/

section Specs

variable {typeadp : Typeadapt κ ν} {tree : Tree ν}

/-- The nodes grow from left to right. -/
def Sorted (typeadp : Typeadapt κ ν) (tree : Tree ν) : Prop :=
  (nodes tree).Pairwise fun x y => typeadp.cmpObject x y = .lt

theorem Sorted.ordered (h : Sorted typeadp tree) :
    Ordered (fun x y : ν × Color => typeadp.cmpObject x.1 y.1) tree :=
  List.pairwise_map.mp h

theorem Sorted.nodup (hlawful : Splaytree.Lawful typeadp) (h : Sorted typeadp tree) :
    (nodes tree).Nodup := by
  have := hlawful.trans
  refine List.Pairwise.imp (fun {x y} hlt => ?_) h
  rintro rfl
  rw [(Std.ReflCmp.compare_self : typeadp.cmpObject x x = .eq)] at hlt
  cases hlt

/-- **Insertion** fails if there is an equal node, and puts the node between the nodes below and
above it otherwise. -/
theorem insertRedblacktree_spec (hlawful : Splaytree.Lawful typeadp) (h : Sorted typeadp tree)
    (newNode : ν) :
    ((∃ m ∈ nodes tree, typeadp.cmpObject newNode m = .eq) ∧
        insertRedblacktree typeadp tree newNode = (some .EEXIST, tree)) ∨
      ((insertRedblacktree typeadp tree newNode).1 = none ∧ ∃ xs ys, nodes tree = xs ++ ys ∧
        nodes (insertRedblacktree typeadp tree newNode).2 = xs ++ newNode :: ys ∧
        (∀ x ∈ xs, typeadp.cmpObject newNode x = .gt) ∧
        ∀ y ∈ ys, typeadp.cmpObject newNode y = .lt) := by
  have := hlawful.trans
  have hcut : Cut (fun x y : ν × Color => typeadp.cmpObject x.1 y.1)
      (fun n => typeadp.cmpObject newNode n.1) := fun x y => cut_cmp newNode x.1 y.1
  unfold insertRedblacktree
  cases hd : descend (fun n : ν × Color => typeadp.cmpObject newNode n.1) tree [] with
  | none =>
    obtain ⟨x, hx, heq⟩ := exists_eq_of_descend_eq_none hd
    exact Or.inl ⟨⟨x.1, List.mem_map_of_mem hx, heq⟩, rfl⟩
  | some found =>
    obtain ⟨hbelow, habove⟩ := descend_between hcut h.ordered (by simp [lower]) (by simp [upper]) hd
    have htree : nodes tree = nodesBelow found ++ nodesAbove found := by
      have hfill := congrArg nodes (fill_descend hd)
      rw [nodes_fill] at hfill
      exact hfill.symm
    have hnew : nodes (fill (node (newNode, Color.red) nil nil) found) =
        nodesBelow found ++ newNode :: nodesAbove found := nodes_fill _ _
    refine Or.inr ⟨?_, nodesBelow found, nodesAbove found, htree, ?_, ?_, ?_⟩
    · rcases found with - | ⟨f, context⟩
      · rfl
      · dsimp only
        split
        · rfl
        · rfl
    · rcases found with - | ⟨f, context⟩
      · rfl
      · dsimp only
        split
        · exact (nodes_rebalanceAfterInsert _ _).trans hnew
        · exact hnew
    · intro x hx
      obtain ⟨n, hn, rfl⟩ := List.mem_map.mp hx
      exact hbelow n hn
    · intro y hy
      obtain ⟨n, hn, rfl⟩ := List.mem_map.mp hy
      exact habove n hn

theorem sorted_insertRedblacktree (hlawful : Splaytree.Lawful typeadp) (h : Sorted typeadp tree)
    (newNode : ν) : Sorted typeadp (insertRedblacktree typeadp tree newNode).2 := by
  have := hlawful.trans
  rcases insertRedblacktree_spec hlawful h newNode with
    ⟨-, heq⟩ | ⟨-, xs, ys, htree, hnew, hbelow, habove⟩
  · rw [heq]
    exact h
  · unfold Sorted at h ⊢
    rw [htree, List.pairwise_append] at h
    rw [hnew, List.pairwise_append, List.pairwise_cons]
    refine ⟨h.1, ⟨habove, h.2.1⟩, fun x hx y hy => ?_⟩
    rcases List.mem_cons.mp hy with rfl | hy
    · exact Std.OrientedCmp.lt_of_gt (hbelow x hx)
    · exact h.2.2 x hx y hy

/-- **The search** finds a node with the key, if there is one. -/
theorem findRedblacktree_spec (hlawful : Splaytree.Lawful typeadp) (h : Sorted typeadp tree)
    (key : κ) :
    (findRedblacktree typeadp key tree = .error .ESRCH ∧
        ∀ m ∈ nodes tree, typeadp.cmpKeyObject key m ≠ .eq) ∨
      ∃ m ∈ nodes tree, typeadp.cmpKeyObject key m = .eq ∧
        findRedblacktree typeadp key tree = .ok m := by
  have hcut := hlawful.cut key
  induction tree with
  | nil => exact Or.inl ⟨rfl, fun m hm => absurd hm List.not_mem_nil⟩
  | node n l r ihl ihr =>
    unfold Sorted at h ihl ihr
    rw [nodes_node, List.pairwise_append, List.pairwise_cons] at h
    obtain ⟨hl, ⟨hnr, hr⟩, hlnr⟩ := h
    rw [findRedblacktree, nodes_node]
    cases hs : typeadp.cmpKeyObject key n.1 with
    | eq => exact Or.inr ⟨n.1, by simp, hs, rfl⟩
    | lt =>
      -- the node and those to its right are above the key
      rcases ihl hl with ⟨hout, hno⟩ | ⟨m, hm, heq, hout⟩
      · refine Or.inl ⟨hout, fun m hm => ?_⟩
        rcases List.mem_append.mp hm with hm | hm
        · exact hno m hm
        rcases List.mem_cons.mp hm with rfl | hm
        · rw [hs]
          exact fun h => by cases h
        · have hlt := (hcut n.1 m (hnr m hm)).resolve_left fun hgt => by
            rw [hs] at hgt
            cases hgt
          rw [hlt]
          exact fun h => by cases h
      · exact Or.inr ⟨m, by simp [hm], heq, hout⟩
    | gt =>
      rcases ihr hr with ⟨hout, hno⟩ | ⟨m, hm, heq, hout⟩
      · refine Or.inl ⟨hout, fun m hm => ?_⟩
        rcases List.mem_append.mp hm with hm | hm
        · have hgt := (hcut m n.1 (hlnr m hm n.1 List.mem_cons_self)).resolve_right fun hlt => by
            rw [hs] at hlt
            cases hlt
          rw [hgt]
          exact fun h => by cases h
        rcases List.mem_cons.mp hm with rfl | hm
        · rw [hs]
          exact fun h => by cases h
        · exact hno m hm
      · exact Or.inr ⟨m, by simp [hm], heq, hout⟩

section Place

variable [DecidableEq ν]

theorem locate_node {n : ν} {xs ys : List ν} (htree : nodes tree = xs ++ n :: ys)
    (hnodup : (nodes tree).Nodup) :
    ∃ a l r context, locate (fun m : ν × Color => m.1 = n) tree [] = some (node a l r, context) ∧
      xs = nodesBelow context ++ nodes l ∧ ys = nodes r ++ nodesAbove context := by
  cases hloc : locate (fun m : ν × Color => m.1 = n) tree [] with
  | none =>
    exfalso
    have hmem : n ∈ nodes tree := by simp [htree]
    obtain ⟨m, hm, rfl⟩ := List.mem_map.mp hmem
    simpa using locate_eq_none.mp hloc m hm
  | some place =>
    obtain ⟨s, context⟩ := place
    obtain ⟨⟨a, l, r, rfl, ha⟩, hfill⟩ := locate_eq_some hloc
    obtain rfl : a.1 = n := by simpa using ha
    refine ⟨a, l, r, context, rfl, ?_⟩
    have hsplit : xs ++ a.1 :: ys =
        (nodesBelow context ++ nodes l) ++ a.1 :: (nodes r ++ nodesAbove context) := by
      have hnodes := congrArg nodes hfill
      rw [nodes_fill, nodes_node, List.append_assoc, List.cons_append, ← List.append_assoc] at hnodes
      exact htree.symm.trans hnodes.symm
    rw [htree] at hnodup
    have hxs : a.1 ∉ xs := fun hmem =>
      (List.nodup_append.mp hnodup).2.2 a.1 hmem a.1 List.mem_cons_self rfl
    have hys : a.1 ∉ ys := (List.nodup_cons.mp (List.nodup_append.mp hnodup).2.1).1
    obtain ⟨h1, -, h2⟩ := (List.append_cons_inj_of_notMem hxs hys).mp hsplit
    exact ⟨h1, h2⟩

/-- **Removal** takes the node out. -/
theorem nodes_removeRedblacktree {n : ν} {xs ys : List ν} (htree : nodes tree = xs ++ n :: ys)
    (hnodup : (nodes tree).Nodup) : nodes (removeRedblacktree tree n) = xs ++ ys := by
  obtain ⟨a, l, r, context, hloc, rfl, rfl⟩ := locate_node htree hnodup
  have hjoin : (nodesBelow context ++ nodes l) ++ (nodes r ++ nodesAbove context) =
      nodesBelow context ++ ((nodes l ++ nodes r) ++ nodesAbove context) := by
    rw [List.append_assoc, List.append_assoc]
  unfold removeRedblacktree
  rw [hloc, hjoin]
  dsimp only
  split
  · rw [nodes_unlinkNode, nodes_fill]
    rfl
  · rw [nodes_unlinkNode, nodes_fill, nodes_nil, List.append_nil]
  next rn rl rr _ =>
    -- the successor is the first node of the right subtree
    have hr := congrArg (List.map Prod.fst) (toList_takeLeftmost rn rl rr)
    rw [List.map_cons] at hr
    rw [nodes_unlinkNode, fill_append, fill, nodes_fill]
    refine congrArg (fun zs => nodesBelow context ++ (zs ++ nodesAbove context)) ?_
    exact (nodes_node _ _ _).trans (congrArg (nodes l ++ ·) hr.symm)

/-- **The iterator** goes on to the next node. -/
theorem nextRedblacktreeiterator_spec {n : ν} {xs ys : List ν}
    (htree : nodes tree = xs ++ n :: ys) (hnodup : (nodes tree).Nodup) :
    nextRedblacktreeiterator tree n = ys.head? := by
  obtain ⟨a, l, r, context, hloc, rfl, rfl⟩ := locate_node htree hnodup
  unfold nextRedblacktreeiterator
  rw [hloc]
  cases r with
  | nil =>
    dsimp only
    rw [firstAbove_eq_head?, ← List.head?_map]
    rfl
  | node b rl rr =>
    have hne : nodes (node b rl rr) ≠ [] := by simp
    dsimp only
    rw [leftmost_eq_head?, ← List.head?_map, List.head?_append_of_ne_nil _ hne]
    rfl

omit [DecidableEq ν] in
theorem initfirstRedblacktreeiterator_spec :
    initfirstRedblacktreeiterator tree = (nodes tree).head? := by
  unfold initfirstRedblacktreeiterator nodes
  rw [leftmost_eq_head?, List.head?_map]

end Place

end Specs

end Redblacktree
end CKern
