import CKern.Library.Iteration
import CKern.Ds.Inmem.Exthash

/-!
# `ds/inmem/exthash.c`: the iterator

* `initfirstExthashiterator`, `nextExthashiterator`: the iterator goes through the trees of the
  entries that are neither empty nor shared.
* `Pending`: the nodes that are still to come.
* `Removes`: between two calls, the caller removes the node that was returned, or nothing.
* `iteratesExactly_iff_nonempty`: the iterator returns every node once, unless the table is empty
  and the iterator held something before.
-/

namespace CKern
namespace Exthash

open BinaryTree Redblacktree Directory Iteration Refinement

variable {κ ν : Type*} [DecidableEq ν]

/-! ## The iterator -/

/-- `exthash_iterator_t`, with the address of the table. -/
structure Iterator (ν : Type*) where
  next : Option ν
  htable : ℕ
  tableindex : ℕ
  deriving DecidableEq

/-- The loop over the entries from `i` on, which ends at the first one with a tree that is not
empty. -/
def bucketLoop (hashtable : List (Entry ν)) : ℕ → ℕ → Option (ℕ × Redblacktree.Tree ν)
  | 0, _ => none
  | turns + 1, i =>
    match hashtable[i]? with
    | some (.bucket (node n l r)) => some (i, node n l r)
    | _ => bucketLoop hashtable turns (i + 1)

/-- `initfirst_exthashiterator` for the table at the address `p`; `iter` is what the iterator
contains before. -/
def initfirstExthashiterator (tables : ℕ → Exthash ν) (p : ℕ) (iter : Iterator ν) : Iterator ν :=
  let endindex := lengthoftableExthash (tables p).level
  match bucketLoop (tables p).hashtable endindex 0 with
  | none => iter
  | some (i, tree) => ⟨initfirstRedblacktreeiterator tree, p, i⟩

/-- The node after `n`, if `n` is in the tree of the entry. -/
def after (n : ν) : Entry ν → Option (Option ν)
  | .bucket tree => if n ∈ nodes tree then some (nextRedblacktreeiterator tree n) else none
  | .shared => none

/-- The node after `n` in the tree to which it is linked. -/
def successor (htable : Exthash ν) (n : ν) : Option ν :=
  (htable.hashtable.findSome? (after n)).getD none

/-- `next_exthashiterator`. -/
def nextExthashiterator (state : (ℕ → Exthash ν) × Iterator ν) :
    Option ν × (ℕ → Exthash ν) × Iterator ν :=
  let iter := state.2
  let htable := state.1 iter.htable
  match iter.next with
  | none => (none, state)
  | some n =>
    match successor htable n with
    | some next => (some n, state.1, { iter with next := some next })
    | none =>
      let endindex := lengthoftableExthash htable.level
      match bucketLoop htable.hashtable (endindex - (iter.tableindex + 1)) (iter.tableindex + 1) with
      | none => (some n, state.1, { iter with next := none })
      | some (i, tree) =>
        (some n, state.1,
          { iter with next := initfirstRedblacktreeiterator tree, tableindex := i })

/-- The caller removes the node that was returned from the table at `p`, or it does nothing. -/
def Removes (nodeadp : HashAdapt κ ν) (p : ℕ) (n : ν)
    (state state' : (ℕ → Exthash ν) × Iterator ν) : Prop :=
  state' = state ∨ ∃ htable', removeExthash nodeadp (state.1 p) n = some htable' ∧
    state' = (Function.update state.1 p htable', state.2)

/-! ## The entries -/

/-- The nodes of the entries from `i` on. -/
def nodesFrom (htable : Exthash ν) (i : ℕ) : List ν :=
  (List.range' i (2 ^ htable.level - i)).flatMap (bucketNodes htable)

section Entries

variable {nodeadp : HashAdapt κ ν} {htable : Exthash ν}

omit [DecidableEq ν] in
theorem nodesFrom_of_lt {i : ℕ} (h : i < 2 ^ htable.level) :
    nodesFrom htable i = bucketNodes htable i ++ nodesFrom htable (i + 1) := by
  rw [nodesFrom, show 2 ^ htable.level - i = (2 ^ htable.level - (i + 1)) + 1 by omega,
    List.range'_succ, List.flatMap_cons, nodesFrom]

omit [DecidableEq ν] in
theorem nodesFrom_of_le {i : ℕ} (h : 2 ^ htable.level ≤ i) : nodesFrom htable i = [] := by
  rw [nodesFrom, Nat.sub_eq_zero_of_le h]
  rfl

omit [DecidableEq ν] in
/-- **The loop over the entries** finds the next nodes. -/
theorem bucketLoop_spec (htable : Exthash ν) {turns : ℕ} (i : ℕ)
    (hturns : turns = 2 ^ htable.level - i) :
    (bucketLoop htable.hashtable turns i = none ∧ nodesFrom htable i = []) ∨
      ∃ j tree, bucketLoop htable.hashtable turns i = some (j, tree) ∧ i ≤ j ∧
        bucketNodes htable j = nodes tree ∧ nodes tree ≠ [] ∧
        nodesFrom htable i = nodes tree ++ nodesFrom htable (j + 1) := by
  induction turns generalizing i with
  | zero => exact Or.inl ⟨rfl, nodesFrom_of_le (by omega)⟩
  | succ turns ih =>
    have hlt : i < 2 ^ htable.level := by omega
    rw [bucketLoop, nodesFrom_of_lt hlt]
    split
    next n l r hentry =>
      have hnodes : bucketNodes htable i = nodes (node n l r) :=
        bucketNodes_eq (treeAt_eq_some.mpr hentry)
      refine Or.inr ⟨i, node n l r, rfl, Nat.le_refl i, hnodes, by simp, by rw [hnodes]⟩
    next hno =>
      have hempty : bucketNodes htable i = [] := by
        unfold bucketNodes
        split
        next root hroot =>
          cases root with
          | nil => rfl
          | node n l r => exact absurd (treeAt_eq_some.mp hroot) (hno n l r)
        next => rfl
      rw [hempty, List.nil_append]
      rcases ih (i + 1) (by omega) with ⟨hloop, hnil⟩ | ⟨j, tree, hloop, hle, hrest⟩
      · exact Or.inl ⟨hloop, hnil⟩
      · exact Or.inr ⟨j, tree, hloop, by omega, hrest⟩

theorem successor_eq (h : Lawful nodeadp) (hinv : Inv nodeadp htable) {t : ℕ} {n : ν}
    {xs ys : List ν} (hbucket : bucketNodes htable t = xs ++ n :: ys) :
    successor htable n = ys.head? := by
  have hmem : n ∈ bucketNodes htable t := by simp [hbucket]
  obtain ⟨tree, htree⟩ := Option.isSome_iff_exists.mp (owns_of_mem_bucketNodes hmem)
  -- no other tree has the node
  have hentry : ∀ entry ∈ htable.hashtable, ∀ b, after n entry = some b → b = ys.head? := by
    intro entry hentry b hb
    obtain ⟨i, hi⟩ := List.getElem?_of_mem hentry
    cases entry with
    | shared => cases hb
    | bucket tree' =>
      rw [after] at hb
      have htree' : treeAt htable i = some tree' := treeAt_eq_some.mpr hi
      split_ifs at hb with hn
      cases hb
      obtain rfl : i = t := by
        rw [← bucketNodes_eq htree'] at hn
        exact (hinv.owner i n hn).unique (hinv.owner t n hmem)
      rw [bucketNodes_eq htree'] at hbucket
      exact nextRedblacktreeiterator_spec hbucket ((hinv.sorted _ _ htree').nodup h.order)
  unfold successor
  cases hfind : htable.hashtable.findSome? (after n) with
  | some b =>
    obtain ⟨entry, hentry', hb⟩ := List.exists_of_findSome?_eq_some hfind
    exact hentry entry hentry' b hb
  | none =>
    exfalso
    rw [List.findSome?_eq_none_iff] at hfind
    have := hfind _ (List.mem_of_getElem? (treeAt_eq_some.mp htree))
    rw [bucketNodes_eq htree] at hmem
    rw [after, if_pos hmem] at this
    cases this

theorem removeExthash_buckets (h : Lawful nodeadp) (hinv : Inv nodeadp htable) {t : ℕ} {n : ν}
    {xs ys : List ν} (hbucket : bucketNodes htable t = xs ++ n :: ys) {htable' : Exthash ν}
    (hremove : removeExthash nodeadp htable n = some htable') :
    Inv nodeadp htable' ∧ htable'.level = htable.level ∧ bucketNodes htable' t = xs ++ ys ∧
      ∀ i, i ≠ t → bucketNodes htable' i = bucketNodes htable i := by
  have hmem : n ∈ bucketNodes htable t := by simp [hbucket]
  have hstored : n ∈ stored htable := ⟨t, hmem⟩
  obtain ⟨htable'', hremove', hinv', -⟩ := removeExthash_spec h hinv hstored
  obtain rfl : htable'' = htable' := Option.some_inj.mp (hremove'.symm.trans hremove)
  obtain ⟨t', s, tree, hidx, -, ht, hown, -⟩ :=
    unsharedtableindexExthash_spec hinv (nodeadp.hashobject n)
  obtain rfl : t' = t := hown.unique (hinv.owner t n hmem)
  rw [bucketNodes_eq ht] at hbucket
  unfold removeExthash at hremove
  rw [hidx] at hremove
  dsimp only at hremove
  rw [ht] at hremove
  cases hremove
  refine ⟨hinv', rfl, ?_, fun i hi => ?_⟩
  · change bucketNodes (setTree htable t' _) t' = _
    rw [bucketNodes_setTree hown.1.lt, if_pos rfl]
    exact nodes_removeRedblacktree hbucket ((hinv.sorted _ _ ht).nodup h.order)
  · change bucketNodes (setTree htable t' _) i = _
    rw [bucketNodes_setTree hown.1.lt, if_neg hi]

end Entries

/-! ## The iteration -/

section Iterate

variable {nodeadp : HashAdapt κ ν} {p : ℕ} {l : List ν}
  {state state' : (ℕ → Exthash ν) × Iterator ν}

/-- The iterator is at the first of the nodes `ys` of its entry, and then the nodes of the later
entries follow. -/
def At (p : ℕ) (ys l : List ν) (state : (ℕ → Exthash ν) × Iterator ν) : Prop :=
  state.2.htable = p ∧ ys ≠ [] ∧ state.2.next = ys.head? ∧
    l = ys ++ nodesFrom (state.1 p) (state.2.tableindex + 1)

/-- The nodes `l` are still to come. -/
def Pending (nodeadp : HashAdapt κ ν) (p : ℕ) (l : List ν)
    (state : (ℕ → Exthash ν) × Iterator ν) : Prop :=
  Inv nodeadp (state.1 p) ∧ ((state.2.next = none ∧ l = []) ∨
    ∃ xs ys, bucketNodes (state.1 p) state.2.tableindex = xs ++ ys ∧ At p ys l state)

/-- The iterator has returned the node `a` of the entry `t`: it is at the end, or behind `a` in this
entry, or at the start of a later one. -/
def Returned (p : ℕ) (a : ν) (l : List ν) (state : (ℕ → Exthash ν) × Iterator ν) : Prop :=
  ∃ t xs ys, bucketNodes (state.1 p) t = xs ++ a :: ys ∧
    ((state.2.next = none ∧ l = []) ∨ (state.2.tableindex = t ∧ At p ys l state) ∨
      (t < state.2.tableindex ∧ At p (bucketNodes (state.1 p) state.2.tableindex) l state))

/-- **A call** returns the first node that is still to come. -/
theorem next_spec (h : Lawful nodeadp) (hp : Pending nodeadp p l state) :
    (nextExthashiterator state).1 = l.head? ∧ (nextExthashiterator state).2.1 = state.1 ∧
      ∀ a l', l = a :: l' → Returned p a l' (nextExthashiterator state).2 := by
  obtain ⟨tables, iter⟩ := state
  obtain ⟨hinv, ⟨hnone, rfl⟩ | ⟨xs, ys, hbucket, htable, hne, hnext, rfl⟩⟩ := hp
  · unfold nextExthashiterator
    dsimp only at hnone ⊢
    rw [hnone]
    exact ⟨rfl, rfl, fun a l' hl => absurd hl (List.cons_ne_nil a l').symm⟩
  · dsimp only at hbucket htable hnext hinv ⊢
    subst htable
    cases ys with
    | nil => exact absurd rfl hne
    | cons a ys =>
      have hsucc := successor_eq h hinv hbucket
      unfold nextExthashiterator
      dsimp only
      rw [hnext, List.head?_cons]
      dsimp only
      rw [hsucc]
      cases ys with
      | cons b ys =>
        refine ⟨rfl, rfl, fun a' l' hl => ?_⟩
        cases hl
        exact ⟨_, xs, b :: ys, hbucket, Or.inr (Or.inl ⟨rfl, rfl, List.cons_ne_nil b ys, rfl,
          rfl⟩)⟩
      | nil =>
        dsimp only [List.head?_nil]
        have hlen : lengthoftableExthash (tables iter.htable).level =
            2 ^ (tables iter.htable).level := Nat.one_shiftLeft _
        rw [hlen]
        rcases bucketLoop_spec (tables iter.htable) (iter.tableindex + 1) rfl with
          ⟨hloop, hnil⟩ | ⟨j, tree, hloop, hle, hnodes, hne', hfrom⟩
        · rw [hloop]
          refine ⟨rfl, rfl, fun a' l' hl => ?_⟩
          rw [hnil] at hl
          cases hl
          exact ⟨_, xs, [], hbucket, Or.inl ⟨rfl, rfl⟩⟩
        · rw [hloop]
          refine ⟨rfl, rfl, fun a' l' hl => ?_⟩
          rw [hfrom] at hl
          cases hl
          refine ⟨_, xs, [], hbucket, Or.inr (Or.inr ⟨hle, rfl, ?_, ?_, ?_⟩)⟩
          · dsimp only
            rwa [hnodes]
          · dsimp only
            rw [hnodes, initfirstRedblacktreeiterator_spec]
          · exact congrArg (· ++ nodesFrom (tables iter.htable) (j + 1)) hnodes.symm

omit [DecidableEq ν] in
theorem nodesFrom_congr {htable htable' : Exthash ν} {i : ℕ} (hlevel : htable'.level = htable.level)
    (h : ∀ j, i ≤ j → bucketNodes htable' j = bucketNodes htable j) :
    nodesFrom htable' i = nodesFrom htable i := by
  rw [nodesFrom, nodesFrom, hlevel]
  refine List.flatMap_congr fun j hj => h j ?_
  exact (List.mem_range'_1.mp hj).1

/-- **The caller** may remove the node that was returned. -/
theorem Returned.pending (h : Lawful nodeadp) (hinv : Inv nodeadp (state.1 p)) {a : ν}
    (hret : Returned p a l state) (hact : Removes nodeadp p a state state') :
    Pending nodeadp p l state' := by
  obtain ⟨tables, iter⟩ := state
  obtain ⟨t, xs, ys, hbucket, hplace⟩ := hret
  dsimp only at hinv hbucket hplace
  rcases hact with rfl | ⟨htable', hremove, rfl⟩
  · refine ⟨hinv, hplace.imp_right ?_⟩
    rintro (⟨rfl, hat⟩ | ⟨-, hat⟩)
    · exact ⟨xs ++ [a], ys, by simp [hbucket], hat⟩
    · exact ⟨[], _, rfl, hat⟩
  · obtain ⟨hinv', hlevel, hself, hother⟩ := removeExthash_buckets h hinv hbucket hremove
    have htables : Function.update tables p htable' p = htable' := Function.update_self _ _ _
    dsimp only at hremove hlevel hself hother
    have hinv' : Inv nodeadp (Function.update tables p htable' p) := by rwa [htables]
    refine ⟨hinv', hplace.imp_right ?_⟩
    dsimp only
    have hfrom : ∀ i, t < i → nodesFrom htable' i = nodesFrom (tables p) i := fun i hi =>
      nodesFrom_congr hlevel fun j hj => hother j (by omega)
    rintro (⟨rfl, htable, hne, hnext, hl⟩ | ⟨hlt, htable, hne, hnext, hl⟩)
    · refine ⟨xs, ys, by rw [htables, hself], htable, hne, hnext, ?_⟩
      dsimp only at hl ⊢
      rw [htables, hfrom _ (Nat.lt_succ_self _), hl]
    · have hsame := hother iter.tableindex (Nat.ne_of_gt hlt)
      refine ⟨[], bucketNodes htable' iter.tableindex, by rw [htables]; rfl, htable, ?_, ?_, ?_⟩
      · rwa [hsame]
      · rwa [hsame]
      · dsimp only at hl ⊢
        rw [htables, hfrom _ (Nat.lt_succ_of_lt hlt), hsame, hl]

theorem Pending.returns (h : Lawful nodeadp) (hp : Pending nodeadp p l state) :
    Returns nextExthashiterator (Removes nodeadp p) state l := by
  have hnext : ∀ l s, Pending nodeadp p l s → (nextExthashiterator s).1 = l.head? :=
    fun l s hp => (next_spec h hp).1
  refine returns_of_step hnext (fun a l s s' hp hact => ?_) hp
  obtain ⟨-, htables, hret⟩ := next_spec h hp
  refine (hret a l rfl).pending h ?_ hact
  rw [htables]
  exact hp.1

omit [DecidableEq ν] in
theorem mem_nodesFrom_zero {htable : Exthash ν} (hinv : Inv nodeadp htable) {n : ν} :
    n ∈ nodesFrom htable 0 ↔ n ∈ stored htable := by
  rw [nodesFrom, List.mem_flatMap]
  constructor
  · rintro ⟨i, -, hn⟩
    exact ⟨i, hn⟩
  · rintro ⟨i, hn⟩
    have hlt := (owns_of_mem_bucketNodes hn).lt
    rw [hinv.length_eq] at hlt
    exact ⟨i, List.mem_range'_1.mpr ⟨Nat.zero_le i, by omega⟩, hn⟩

omit [DecidableEq ν] in
theorem nodup_nodesFrom {htable : Exthash ν} (h : Lawful nodeadp) (hinv : Inv nodeadp htable)
    (i : ℕ) : (nodesFrom htable i).Nodup := by
  refine List.nodup_flatMap.mpr ⟨fun j _ => ?_, ?_⟩
  · unfold bucketNodes
    split
    next root hroot => exact (hinv.sorted j root hroot).nodup h.order
    next => exact List.nodup_nil
  · refine (List.pairwise_lt_range' 1).imp fun {j k} hjk n hj hk => ?_
    exact absurd ((hinv.owner j n hj).unique (hinv.owner k n hk)) (Nat.ne_of_lt hjk)

/-- **What is claimed.** Whatever the iterator contains before, it returns every node of the table
once and no other, and then none, and this also if the nodes are removed as they are returned. -/
def IteratesExactly (nodeadp : HashAdapt κ ν) (tables : ℕ → Exthash ν) (p : ℕ)
    (iter : Iterator ν) : Prop :=
  ∃ l, Returns nextExthashiterator (Removes nodeadp p)
      (tables, initfirstExthashiterator tables p iter) l ∧
    l.Nodup ∧ ∀ n, n ∈ l ↔ n ∈ stored (tables p)

theorem not_iteratesExactly {tables : ℕ → Exthash ν} {iter : Iterator ν}
    (hinit : initfirstExthashiterator tables p iter = iter) (hempty : stored (tables p) = ∅) {n : ν}
    (hnext : iter.next = some n) : ¬ IteratesExactly nodeadp tables p iter := by
  rintro ⟨l, hl, -, hmem⟩
  rw [hinit] at hl
  have hsome : (nextExthashiterator (tables, iter)).1 = some n := by
    unfold nextExthashiterator
    dsimp only
    rw [hnext]
    dsimp only
    split
    · rfl
    · split <;> rfl
  cases hl with
  | done hnone => exact absurd (hsome.symm.trans hnone) (Option.some_ne_none n)
  | more hsome' _ =>
    have := (hmem _).mp List.mem_cons_self
    rw [hempty] at this
    exact this

/-- **The iterator of `exthash.c`** returns every node once if and only if there is a node or the
iterator did not point to one before. -/
theorem iteratesExactly_iff_nonempty (h : Lawful nodeadp) {tables : ℕ → Exthash ν}
    (hreach : Reachable nodeadp (tables p)) (iter : Iterator ν) :
    IteratesExactly nodeadp tables p iter ↔ (stored (tables p)).Nonempty ∨ iter.next = none := by
  have hinv := hreach.inv h
  have hlen : lengthoftableExthash (tables p).level = 2 ^ (tables p).level := Nat.one_shiftLeft _
  rcases bucketLoop_spec (tables p) 0 (Nat.sub_zero _).symm with
    ⟨hloop, hnil⟩ | ⟨j, tree, hloop, -, hnodes, hne, hfrom⟩
  · -- the table is empty, and the iterator is left as it is
    have hinit : initfirstExthashiterator tables p iter = iter := by
      unfold initfirstExthashiterator
      rw [hlen]
      dsimp only
      rw [hloop]
    have hempty : stored (tables p) = ∅ := by
      ext n
      rw [← mem_nodesFrom_zero hinv, hnil]
      simp
    rw [hempty]
    simp only [Set.not_nonempty_empty, false_or]
    constructor
    · intro hiter
      cases hnext : iter.next with
      | none => rfl
      | some n => exact absurd hiter (not_iteratesExactly hinit hempty hnext)
    · intro hnext
      refine ⟨[], .done ?_, List.nodup_nil, fun n => by simp [hempty]⟩
      rw [hinit]
      unfold nextExthashiterator
      dsimp only
      rw [hnext]
  · have hinit : initfirstExthashiterator tables p iter =
        ⟨initfirstRedblacktreeiterator tree, p, j⟩ := by
      unfold initfirstExthashiterator
      rw [hlen]
      dsimp only
      rw [hloop]
    obtain ⟨n, hn⟩ := List.exists_mem_of_ne_nil _ hne
    refine iff_of_true ⟨nodesFrom (tables p) 0, ?_, nodup_nodesFrom h hinv 0,
      fun n => mem_nodesFrom_zero hinv⟩ (Or.inl ⟨n, j, by rwa [hnodes]⟩)
    rw [hinit]
    refine Pending.returns h ⟨hinv, Or.inr ⟨[], nodes tree, hnodes, rfl, hne, ?_, hfrom⟩⟩
    exact initfirstRedblacktreeiterator_spec

end Iterate

/-- A table with two nodes, and an iterator that has been used before. -/
theorem iteratesExactly_iff_nonempty_two :
    IteratesExactly natAdapt
        (fun _ => (run (step natAdapt) ⟨[.bucket nil], 0, 0, 2⟩ [.insert 5, .insert 7]).2) 0
        ⟨some 9, 3, 1⟩ ↔
      (stored (run (step natAdapt) ⟨[.bucket nil], 0, 0, 2⟩ [.insert 5, .insert 7]).2).Nonempty ∨
        (some 9 : Option ℕ) = none :=
  have hinit : initExthash 1 4 = some (⟨[.bucket nil], 0, 0, 2⟩ : Exthash ℕ) := by decide +kernel
  iteratesExactly_iff_nonempty lawful_natAdapt
    ⟨1, 4, _, [.insert 5, .insert 7], hinit, ⟨True.intro, True.intro, True.intro⟩, rfl⟩
    ⟨some 9, 3, 1⟩

/-- A new table, and an iterator that pointed to the node 7 of another one: this node is
returned. -/
theorem iteration_of_empty : ∃ tables : ℕ → Exthash ℕ, Reachable natAdapt (tables 0) ∧
    stored (tables 0) = ∅ ∧
    (nextExthashiterator (tables, initfirstExthashiterator tables 0 ⟨some 7, 1, 0⟩)).1 = some 7 ∧
    ¬ IteratesExactly natAdapt tables 0 ⟨some 7, 1, 0⟩ := by
  have hinit : initExthash 1 4 = some (⟨[.bucket nil], 0, 0, 2⟩ : Exthash ℕ) := by decide +kernel
  obtain ⟨-, hempty⟩ : Inv natAdapt _ ∧ _ := initExthash_spec hinit
  refine ⟨fun _ => ⟨[.bucket nil], 0, 0, 2⟩, ⟨1, 4, _, [], hinit, True.intro, rfl⟩, hempty,
    by decide, ?_⟩
  exact not_iteratesExactly rfl hempty rfl

end Exthash
end CKern
