import CKern.Library.Iteration
import CKern.Ds.Inmem.Splaytree

/-!
# `ds/inmem/splaytree.c`: iteration

* `nextCall`, `prevCall`: the steps of the iterators, each of which splays the tree.
* `Interleaved`: between two steps, the caller searches for keys and removes the node that was
  returned.
* `next_returns`, `prev_returns`: the iterators return the nodes from left to right, or from right
  to left.
-/

namespace CKern
namespace Splaytree

open BinaryTree Refinement SearchTree Iteration

variable {κ ν : Type*}

/-! ## The nodes from left to right -/

section Lists

variable {typeadp : Typeadapt κ ν} {tree : Splaytree ν}

theorem nodup_of_ordered (h : Lawful typeadp) {t : BinaryTree ν}
    (hord : Ordered typeadp.cmpObject t) : (toList t).Nodup := by
  have := h.trans
  refine List.Pairwise.imp (fun {x y} hlt => ?_) hord
  rintro rfl
  rw [(Std.ReflCmp.compare_self : typeadp.cmpObject x x = .eq)] at hlt
  cases hlt

theorem splaynode_of_mem (h : Lawful typeadp) (hord : Ordered typeadp.cmpObject tree.root) {n : ν}
    (hn : n ∈ toList tree.root) :
    ∃ l r, (splaynodeSplaytree typeadp tree n).1 = ⟨node n l r⟩ ∧
      toList (node n l r) = toList tree.root := by
  have := h.trans
  have hset : isSet tree.root = true := by
    cases htree : tree.root with
    | nil => simp [htree] at hn
    | node a l r => rfl
  obtain ⟨x, l, r, hloop, hlist, hnext⟩ :=
    splayLoop_spec (typeadp.cmpObject n) hset hord (cut_cmp n)
  have hx : x ∈ nodes tree := by
    rw [mem_nodes, ← hlist]
    simp
  obtain rfl := splaynode_eq_root h hord hn hx (hnext n hn)
  exact ⟨l, r, by unfold splaynodeSplaytree; dsimp only; rw [hloop], hlist⟩

theorem toList_splaynode (h : Lawful typeadp) (hord : Ordered typeadp.cmpObject tree.root) (n : ν)
    (hset : isSet tree.root = true) :
    ∃ x l r, (splaynodeSplaytree typeadp tree n).1 = ⟨node x l r⟩ ∧
      toList (node x l r) = toList tree.root := by
  have := h.trans
  obtain ⟨x, l, r, hloop, hlist, -⟩ :=
    splayLoop_spec (typeadp.cmpObject n) hset hord (cut_cmp n)
  exact ⟨x, l, r, by unfold splaynodeSplaytree; dsimp only; rw [hloop], hlist⟩

theorem toList_find (h : Lawful typeadp) (hord : Ordered typeadp.cmpObject tree.root) (key : κ) :
    toList (findSplaytree typeadp tree key).2.root = toList tree.root := by
  have := h.trans
  unfold findSplaytree
  cases htree : tree.root with
  | nil => simp [htree]
  | node a tl tr =>
    have hset : isSet tree.root = true := by
      rw [htree]
      rfl
    obtain ⟨x, l, r, hloop, hlist, -⟩ :=
      splayLoop_spec (typeadp.cmpKeyObject key) hset hord (h.cut key)
    have hsplay : splaykeySplaytree typeadp tree key = ⟨node x l r⟩ := by
      unfold splaykeySplaytree
      dsimp only
      rw [hloop]
    dsimp only
    rw [hsplay, ← htree, ← hlist]
    dsimp only
    split <;> rfl

variable [DecidableEq ν]

theorem toList_remove (h : Lawful typeadp) (hord : Ordered typeadp.cmpObject tree.root) {n : ν}
    {xs ys : List ν} (hlist : toList tree.root = xs ++ n :: ys) :
    toList (removeSplaytree typeadp tree n).2.root = xs ++ ys := by
  have hn : n ∈ toList tree.root := by simp [hlist]
  obtain ⟨l, r, hsplay, hsame⟩ := splaynode_of_mem h hord hn
  have hnodup := nodup_of_ordered h hord
  rw [← hsame, toList_node] at hnodup
  have hl : n ∉ toList l := fun hmem =>
    (List.nodup_append.mp hnodup).2.2 n hmem n List.mem_cons_self rfl
  have hr : n ∉ toList r := (List.nodup_cons.mp (List.nodup_append.mp hnodup).2.1).1
  rw [hlist, toList_node] at hsame
  obtain ⟨rfl, -, rfl⟩ := (List.append_cons_inj_of_notMem hl hr).mp hsame
  unfold removeSplaytree
  cases htree : tree.root with
  | nil => simp [htree] at hn
  | node a tl tr =>
    dsimp only
    rw [hsplay]
    dsimp only
    rw [if_neg (not_not_intro rfl), toList_joinChildren]

theorem toList_remove_of_notMem (h : Lawful typeadp) (hord : Ordered typeadp.cmpObject tree.root)
    {n : ν} (hn : n ∉ toList tree.root) :
    toList (removeSplaytree typeadp tree n).2.root = toList tree.root := by
  unfold removeSplaytree
  cases htree : tree.root with
  | nil => simp [htree]
  | node a tl tr =>
    obtain ⟨x, l, r, hsplay, hsame⟩ := toList_splaynode h hord n (by rw [htree]; rfl)
    dsimp only
    rw [hsplay, ← htree, ← hsame]
    dsimp only
    have hx : x ≠ n := by
      rintro rfl
      rw [← hsame] at hn
      simp at hn
    rw [if_pos hx]

end Lists

/-! ## Iteration -/

section Iterate

variable [DecidableEq ν] (typeadp : Typeadapt κ ν)

/-- A call of `next_splaytreeiterator`, with the field `next` of the iterator and the tree. -/
def nextCall (state : Option ν × Splaytree ν) : Option ν × Option ν × Splaytree ν :=
  match state.1 with
  | none => (none, state)
  | some n =>
    match nextSplaytreeiterator typeadp state.2 n with
    | (none, tree) => (none, some n, tree)
    | (some (found, next), tree) => (some found, next, tree)

/-- A call of `prev_splaytreeiterator`. -/
def prevCall (state : Option ν × Splaytree ν) : Option ν × Option ν × Splaytree ν :=
  match state.1 with
  | none => (none, state)
  | some n =>
    match prevSplaytreeiterator typeadp state.2 n with
    | (none, tree) => (none, some n, tree)
    | (some (found, next), tree) => (some found, next, tree)

/-- What the caller does between two steps when the iterator has returned the node `n`: it searches
for keys, and it removes `n`. -/
inductive Interleaved (n : ν) : Splaytree ν → Splaytree ν → Prop
  | refl (tree) : Interleaved n tree tree
  | find {tree tree'} (h : Interleaved n tree tree') (key : κ) :
      Interleaved n tree (findSplaytree typeadp tree' key).2
  | remove {tree tree'} (h : Interleaved n tree tree') :
      Interleaved n tree (removeSplaytree typeadp tree' n).2

/-- The caller does not change the iterator. -/
def Caller (n : ν) (state state' : Option ν × Splaytree ν) : Prop :=
  state'.1 = state.1 ∧ Interleaved typeadp n state.2 state'.2

variable {typeadp}

/-- **Between two steps** the nodes on both sides of the one that was returned stay in their
order. -/
theorem Interleaved.kept (h : Lawful typeadp) {n : ν} {tree tree' : Splaytree ν}
    (hint : Interleaved typeadp n tree tree') (hord : Ordered typeadp.cmpObject tree.root)
    {xs ys : List ν} (hlist : toList tree.root = xs ++ n :: ys) :
    Ordered typeadp.cmpObject tree'.root ∧
      (toList tree'.root = xs ++ n :: ys ∨ toList tree'.root = xs ++ ys) := by
  induction hint with
  | refl => exact ⟨hord, Or.inl hlist⟩
  | find hint key ih =>
    obtain ⟨hord', hkept⟩ := ih
    exact ⟨(findSplaytree_spec h hord' key).1, by rwa [toList_find h hord' key]⟩
  | remove hint ih =>
    obtain ⟨hord', hkept⟩ := ih
    refine ⟨(removeSplaytree_spec h hord' n).1, Or.inr ?_⟩
    rcases hkept with hkept | hkept
    · exact toList_remove h hord' hkept
    · rw [toList_remove_of_notMem h hord', hkept]
      have hnodup := nodup_of_ordered h hord
      rw [hlist] at hnodup
      rw [hkept]
      have := List.nodup_middle.mp hnodup
      exact (List.nodup_cons.mp this).1

variable {tree : Splaytree ν}

omit [DecidableEq ν] in
theorem nextCall_eq (h : Lawful typeadp) (hord : Ordered typeadp.cmpObject tree.root) {n : ν}
    {xs ys : List ν} (hlist : toList tree.root = xs ++ n :: ys) :
    ∃ tree', nextCall typeadp (some n, tree) = (some n, ys.head?, tree') ∧
      Ordered typeadp.cmpObject tree'.root ∧ toList tree'.root = xs ++ n :: ys := by
  have hn : n ∈ toList tree.root := by simp [hlist]
  obtain ⟨l, r, hsplay, hsame⟩ := splaynode_of_mem h hord hn
  have hord' : Ordered typeadp.cmpObject (node n l r) := by
    unfold Ordered
    rwa [hsame]
  have hnodup := nodup_of_ordered h hord'
  rw [toList_node] at hnodup
  have hl : n ∉ toList l := fun hmem =>
    (List.nodup_append.mp hnodup).2.2 n hmem n List.mem_cons_self rfl
  have hr : n ∉ toList r := (List.nodup_cons.mp (List.nodup_append.mp hnodup).2.1).1
  rw [hlist] at hsame
  obtain ⟨-, -, hys⟩ :=
    (List.append_cons_inj_of_notMem hl hr).mp ((toList_node n l r).symm.trans hsame)
  refine ⟨⟨node n l r⟩, ?_, hord', hsame⟩
  unfold nextCall nextSplaytreeiterator
  dsimp only
  rw [hsplay]
  dsimp only
  rw [leftmost_eq_head?, hys]

omit [DecidableEq ν] in
theorem prevCall_eq (h : Lawful typeadp) (hord : Ordered typeadp.cmpObject tree.root) {n : ν}
    {xs ys : List ν} (hlist : toList tree.root = xs ++ n :: ys) :
    ∃ tree', prevCall typeadp (some n, tree) = (some n, xs.getLast?, tree') ∧
      Ordered typeadp.cmpObject tree'.root ∧ toList tree'.root = xs ++ n :: ys := by
  have hn : n ∈ toList tree.root := by simp [hlist]
  obtain ⟨l, r, hsplay, hsame⟩ := splaynode_of_mem h hord hn
  have hord' : Ordered typeadp.cmpObject (node n l r) := by
    unfold Ordered
    rwa [hsame]
  have hnodup := nodup_of_ordered h hord'
  rw [toList_node] at hnodup
  have hl : n ∉ toList l := fun hmem =>
    (List.nodup_append.mp hnodup).2.2 n hmem n List.mem_cons_self rfl
  have hr : n ∉ toList r := (List.nodup_cons.mp (List.nodup_append.mp hnodup).2.1).1
  rw [hlist] at hsame
  obtain ⟨hxs, -, -⟩ :=
    (List.append_cons_inj_of_notMem hl hr).mp ((toList_node n l r).symm.trans hsame)
  refine ⟨⟨node n l r⟩, ?_, hord', hsame⟩
  unfold prevCall prevSplaytreeiterator
  dsimp only
  rw [hsplay]
  dsimp only
  rw [rightmost_eq_getLast?, hxs]

/-- **Iteration from left to right**, whatever searches and removals of the returned nodes come
between the steps. -/
theorem next_returns (h : Lawful typeadp) (hord : Ordered typeadp.cmpObject tree.root) :
    Returns (nextCall typeadp) (Caller typeadp) (initfirstSplaytreeiterator tree, tree)
      (toList tree.root) := by
  let Pending (l : List ν) (state : Option ν × Splaytree ν) : Prop :=
    Ordered typeadp.cmpObject state.2.root ∧ state.1 = l.head? ∧
      ∃ xs, toList state.2.root = xs ++ l
  have hnext : ∀ l state, Pending l state → (nextCall typeadp state).1 = l.head? := by
    rintro l ⟨next, tree⟩ ⟨hord, hhead, xs, hlist⟩
    dsimp only at hord hhead hlist
    subst hhead
    cases l with
    | nil => rfl
    | cons a l =>
      obtain ⟨tree', hcall, -⟩ := nextCall_eq h hord hlist
      rw [List.head?_cons, hcall]
  refine returns_of_step hnext ?_ ⟨hord, leftmost_eq_head? _, [], rfl⟩
  rintro a l ⟨next, tree⟩ ⟨next', tree''⟩ ⟨hord, hhead, xs, hlist⟩ ⟨hsame, hint⟩
  dsimp only at hord hhead hlist
  subst hhead
  obtain ⟨tree', hcall, hord', hlist'⟩ := nextCall_eq h hord hlist
  rw [List.head?_cons, hcall] at hsame hint
  obtain ⟨hord'', hkept⟩ := hint.kept h hord' hlist'
  refine ⟨hord'', hsame, ?_⟩
  rcases hkept with hkept | hkept
  · exact ⟨xs ++ [a], by rw [hkept, List.append_assoc]; rfl⟩
  · exact ⟨xs, hkept⟩

/-- **Iteration from right to left.** -/
theorem prev_returns (h : Lawful typeadp) (hord : Ordered typeadp.cmpObject tree.root) :
    Returns (prevCall typeadp) (Caller typeadp) (initlastSplaytreeiterator tree, tree)
      (toList tree.root).reverse := by
  let Pending (l : List ν) (state : Option ν × Splaytree ν) : Prop :=
    Ordered typeadp.cmpObject state.2.root ∧ state.1 = l.head? ∧
      ∃ ys, toList state.2.root = l.reverse ++ ys
  have hreverse : ∀ (a : ν) (l ys : List ν), (a :: l).reverse ++ ys = l.reverse ++ a :: ys := by
    intro a l ys
    rw [List.reverse_cons, List.append_assoc]
    rfl
  have hnext : ∀ l state, Pending l state → (prevCall typeadp state).1 = l.head? := by
    rintro l ⟨next, tree⟩ ⟨hord, hhead, ys, hlist⟩
    dsimp only at hord hhead hlist
    subst hhead
    cases l with
    | nil => rfl
    | cons a l =>
      rw [hreverse] at hlist
      obtain ⟨tree', hcall, -⟩ := prevCall_eq h hord hlist
      rw [List.head?_cons, hcall]
  refine returns_of_step hnext ?_ ⟨hord, ?_, [], by simp⟩
  · rintro a l ⟨next, tree⟩ ⟨next', tree''⟩ ⟨hord, hhead, ys, hlist⟩ ⟨hsame, hint⟩
    dsimp only at hord hhead hlist
    subst hhead
    rw [hreverse] at hlist
    obtain ⟨tree', hcall, hord', hlist'⟩ := prevCall_eq h hord hlist
    rw [List.head?_cons, hcall] at hsame hint
    obtain ⟨hord'', hkept⟩ := hint.kept h hord' hlist'
    refine ⟨hord'', ?_, ?_⟩
    · dsimp only at hsame ⊢
      rw [hsame, List.getLast?_reverse]
    · rcases hkept with hkept | hkept
      · exact ⟨a :: ys, hkept⟩
      · exact ⟨ys, hkept⟩
  · dsimp only
    rw [initlastSplaytreeiterator, rightmost_eq_getLast?, List.head?_reverse]

end Iterate

end Splaytree
end CKern
