import CKern.Ds.Inmem.Redblacktree
import CKern.Library.Directory
import Mathlib.Data.Set.Finite.Lattice

/-!
# `ds/inmem/exthash.c`: extendible hashing

* `Exthash`: the table, whose entries are roots of red-black trees or marked as shared.
* `unsharedtableindexExthash`, `doubletablesizeExthash`, `unsharebucketExthash`.
* `initExthash`, `findExthash`, `insertExthash`, `removeExthash`.
* `Inv`: the invariant of the table.
* `exthash_directory`: every table that is reached keeps it, and its loops end.
* `exthash_exact`: the table is a set of nodes.
-/

namespace CKern

open BinaryTree Refinement TreeZipper Redblacktree Directory

/-- The services of `typeadapt_t` for keys and objects; a hash value has the type `size_t`. -/
structure HashAdapt (κ ν : Type*) extends Typeadapt κ ν where
  hashobject : ν → UInt64
  hashkey : κ → UInt64

/-- The objects as keys. -/
def HashAdapt.objects {κ ν : Type*} (nodeadp : HashAdapt κ ν) : HashAdapt ν ν where
  cmpKeyObject := nodeadp.cmpObject
  cmpObject := nodeadp.cmpObject
  hashobject := nodeadp.hashobject
  hashkey := nodeadp.hashobject

/-- An entry of the table: the mark `(void*)-1`, or the root of a tree. -/
inductive Entry (ν : Type*)
  | shared
  | bucket (root : Redblacktree.Tree ν)
  deriving DecidableEq

/-- `exthash_t`. -/
structure Exthash (ν : Type*) where
  hashtable : List (Entry ν)
  nrNodes : ℕ
  level : ℕ
  maxlevel : ℕ
  deriving DecidableEq

namespace Exthash

variable {κ ν : Type*}

/-- `lengthoftable_exthash`. -/
def lengthoftableExthash (level : ℕ) : ℕ := 1 <<< level

/-- `init_exthash`; no table is initialized if the sizes are not valid. -/
def initExthash (initialSize maxSize : ℕ) : Option (Exthash ν) :=
  if initialSize ≤ maxSize ∧ maxSize < (2 ^ 64 - 1) / 8 then
    let level := Nat.log2 initialSize
    some ⟨List.replicate (lengthoftableExthash level) (.bucket nil), 0, level, Nat.log2 maxSize⟩
  else none

/-! ## Search -/

/-- `tableindex_exthash`, for the hash value of a node or of a key. -/
def tableindexExthash (htable : Exthash ν) (hashvalue : UInt64) : ℕ :=
  hashvalue.toNat &&& (lengthoftableExthash htable.level - 1)

/-- The loop of `unsharedtableindex_exthash`: the values of `tabidx` and `shridx` at its end, unless
it goes beyond the table or does not end within the given number of turns. -/
def unsharedtableindexLoop (hashtable : List (Entry ν)) : ℕ → ℕ → ℕ → Option (ℕ × ℕ)
  | 0, _, _ => none
  | turns + 1, tabidx, shridx =>
    match hashtable[tabidx]? with
    | none => none
    | some (.bucket _) => some (tabidx, shridx)
    | some .shared => unsharedtableindexLoop hashtable turns (tabidx ^^^ (1 <<< tabidx.log2)) tabidx

/-- `unsharedtableindex_exthash`: the table index and `sharedidx`. -/
def unsharedtableindexExthash (htable : Exthash ν) (hashvalue : UInt64) : Option (ℕ × ℕ) :=
  unsharedtableindexLoop htable.hashtable (htable.level + 1) (tableindexExthash htable hashvalue) 0

/-- The tree of an entry that is not shared. -/
def treeAt (htable : Exthash ν) (tabidx : ℕ) : Option (Redblacktree.Tree ν) :=
  match htable.hashtable[tabidx]? with
  | some (.bucket root) => some root
  | _ => none

/-- An entry gets another tree. -/
def setTree (htable : Exthash ν) (tabidx : ℕ) (root : Redblacktree.Tree ν) : Exthash ν :=
  { htable with hashtable := htable.hashtable.set tabidx (.bucket root) }

/-- `find_exthash`. -/
def findExthash (nodeadp : HashAdapt κ ν) (htable : Exthash ν) (key : κ) :
    Option (Except Errno ν) :=
  match unsharedtableindexExthash htable (nodeadp.hashkey key) with
  | none => none
  | some (tabidx, _) =>
    (treeAt htable tabidx).map (findRedblacktree nodeadp.toTypeadapt key)

/-! ## Change -/

/-- `doubletablesize_exthash`. -/
def doubletablesizeExthash (htable : Exthash ν) : Exthash ν :=
  if htable.level < htable.maxlevel then
    { htable with
      level := htable.level + 1
      hashtable := htable.hashtable ++
        List.replicate (lengthoftableExthash (htable.level + 1) - lengthoftableExthash htable.level)
          .shared }
  else htable

/-- The first loop of `unsharebucket_exthash`: the values of `splitidx` and `highbit` at its end,
unless it goes beyond the table or does not end within the given number of turns. -/
def splitidxLoop (hashtable : List (Entry ν)) (tabidx : ℕ) : ℕ → ℕ → Option (ℕ × ℕ)
  | 0, _ => none
  | turns + 1, highbit =>
    match hashtable[tabidx ||| highbit]? with
    | none => none
    | some .shared => some (tabidx ||| highbit, highbit)
    | some (.bucket _) => splitidxLoop hashtable tabidx turns (highbit <<< 1)

section Change

variable [DecidableEq ν] (nodeadp : HashAdapt κ ν)

/-- The loop of `unsharebucket_exthash` over the nodes of a tree, where the iterator is at `next`:
`tree`, `tree2` and `err` at its end, unless it does not end within the given number of turns. -/
def distributeLoop (highbit : ℕ) :
    ℕ → Option ν → Redblacktree.Tree ν → Redblacktree.Tree ν → Option Errno →
      Option (Redblacktree.Tree ν × Redblacktree.Tree ν × Option Errno)
  | _, none, tree, tree2, err => some (tree, tree2, err)
  | 0, some _, _, _, _ => none
  | turns + 1, some current, tree, tree2, err =>
    -- the iterator is moved before the body of the loop
    let next := nextRedblacktreeiterator tree current
    if (nodeadp.hashobject current).toNat &&& highbit ≠ 0 then
      let result := insertRedblacktree nodeadp.toTypeadapt tree2 current
      distributeLoop highbit turns next (removeRedblacktree tree current) result.2 (result.1.or err)
    else distributeLoop highbit turns next tree tree2 err

/-- `unsharebucket_exthash`. -/
def unsharebucketExthash (htable : Exthash ν) (tabidx : ℕ) : Option (Option Errno × Exthash ν) :=
  let highbit := if tabidx ≠ 0 then 2 <<< tabidx.log2 else 1
  match splitidxLoop htable.hashtable tabidx (htable.level + 1) highbit, treeAt htable tabidx with
  | some (splitidx, highbit), some tree =>
    match distributeLoop nodeadp highbit (nodes tree).length (initfirstRedblacktreeiterator tree)
        tree nil none with
    | none => none
    | some (tree, tree2, err) => some (err, setTree (setTree htable tabidx tree) splitidx tree2)
  | _, _ => none

/-- A tree whose root has two children. -/
def isFull : Redblacktree.Tree ν → Bool
  | node _ (node _ _ _) (node _ _ _) => true
  | _ => false

/-- The end of `insert_exthash`. -/
def insertAt (htable : Exthash ν) (tabidx : ℕ) (newNode : ν) : Option (Option Errno × Exthash ν) :=
  match treeAt htable tabidx with
  | none => none
  | some tree =>
    let result := insertRedblacktree nodeadp.toTypeadapt tree newNode
    match result.1 with
    | some err => some (some err, htable)
    | none =>
      some (none, { setTree htable tabidx result.2 with nrNodes := htable.nrNodes + 1 })

/-- `insert_exthash`. -/
def insertExthash (htable : Exthash ν) (newNode : ν) : Option (Option Errno × Exthash ν) :=
  match unsharedtableindexExthash htable (nodeadp.hashobject newNode) with
  | none => none
  | some (tabidx, sharedidx) =>
    if sharedidx ≠ 0 then
      match unsharebucketExthash nodeadp htable tabidx with
      | none => none
      | some (some err, htable) => some (some err, htable)
      | some (none, htable) =>
        -- sharedidx is unshared ==> it was the bucket at the next higher level
        if (treeAt htable sharedidx).isSome then insertAt nodeadp htable sharedidx newNode
        else insertAt nodeadp htable tabidx newNode
    else
      match treeAt htable tabidx with
      | none => none
      | some tree =>
        if isFull tree then insertAt nodeadp (doubletablesizeExthash htable) tabidx newNode
        else insertAt nodeadp htable tabidx newNode

/-- `remove_exthash`. -/
def removeExthash (htable : Exthash ν) (delnode : ν) : Option (Exthash ν) :=
  match unsharedtableindexExthash htable (nodeadp.hashobject delnode) with
  | none => none
  | some (tabidx, _) =>
    match treeAt htable tabidx with
    | none => none
    | some tree =>
      some { setTree htable tabidx (removeRedblacktree tree delnode) with
        nrNodes := htable.nrNodes - 1 }

theorem distributeLoop_objects : distributeLoop nodeadp = distributeLoop nodeadp.objects := by
  funext highbit turns next tree tree2 err
  induction turns generalizing next tree tree2 err with
  | zero => cases next <;> rfl
  | succ turns ih =>
    cases next with
    | none => rfl
    | some current =>
      rw [distributeLoop, distributeLoop]
      dsimp only
      rw [ih, ih]
      rfl

/-- **An insertion does not use the keys.** -/
theorem insertExthash_objects (htable : Exthash ν) (newNode : ν) :
    insertExthash nodeadp htable newNode = insertExthash nodeadp.objects htable newNode := by
  have hunshare : ∀ htable tabidx, unsharebucketExthash nodeadp htable tabidx =
      unsharebucketExthash nodeadp.objects htable tabidx := by
    intro htable tabidx
    rw [unsharebucketExthash, unsharebucketExthash, distributeLoop_objects]
  rw [insertExthash, insertExthash]
  simp only [hunshare]
  rfl

end Change

/-! ## The loops -/

/-- The entry of an index is not shared. -/
def Owns (htable : Exthash ν) (i : ℕ) : Prop := (treeAt htable i).isSome

instance instDecidableOwns (htable : Exthash ν) (i : ℕ) : Decidable (Owns htable i) :=
  inferInstanceAs (Decidable ((treeAt htable i).isSome = true))

section Loops

variable {htable : Exthash ν} {i t k : ℕ}

theorem owns_iff : Owns htable i ↔ ∃ root, htable.hashtable[i]? = some (.bucket root) := by
  unfold Owns treeAt
  split
  next root hroot => simp [hroot]
  next hno =>
    constructor
    · intro h
      cases h
    · rintro ⟨root, hroot⟩
      exact absurd hroot (hno root)

theorem treeAt_eq_some {root : Redblacktree.Tree ν} :
    treeAt htable i = some root ↔ htable.hashtable[i]? = some (.bucket root) := by
  unfold treeAt
  split
  next root' hroot => simp [hroot]
  next hno =>
    constructor
    · intro h
      cases h
    · intro hroot
      exact absurd hroot (hno root)

theorem Owns.lt (h : Owns htable i) : i < htable.hashtable.length := by
  obtain ⟨root, hroot⟩ := owns_iff.mp h
  exact (List.getElem?_eq_some_iff.mp hroot).1

theorem treeAt_setTree (ht : t < htable.hashtable.length) (root : Redblacktree.Tree ν) (i : ℕ) :
    treeAt (setTree htable t root) i = if i = t then some root else treeAt htable i := by
  unfold treeAt setTree
  by_cases hi : i = t
  · subst hi
    rw [if_pos rfl, List.getElem?_set_self ht]
  · rw [if_neg hi, List.getElem?_set_ne (Ne.symm hi)]

theorem length_setTree (t : ℕ) (root : Redblacktree.Tree ν) :
    (setTree htable t root).hashtable.length = htable.hashtable.length := List.length_set

theorem eq_shared_of_not_owns (hi : i < htable.hashtable.length) (h : ¬ Owns htable i) :
    htable.hashtable[i]? = some .shared := by
  cases hentry : htable.hashtable[i]? with
  | none =>
    rw [List.getElem?_eq_none_iff] at hentry
    omega
  | some entry =>
    cases entry with
    | shared => rfl
    | bucket root => exact absurd (owns_iff.mpr ⟨root, hentry⟩) h

/-- **The search loop** ends at the first entry of the chain that is not shared, and the index before
it is that of a shared entry. -/
theorem unsharedtableindexLoop_spec (h0 : Owns htable 0) {turns : ℕ}
    (hi : i < htable.hashtable.length) (hturns : i < 2 ^ turns) (shridx : ℕ) :
    ∃ t s, (chain i).find? (Owns htable) = some t ∧
      unsharedtableindexLoop htable.hashtable (turns + 1) i shridx = some (t, s) ∧
      (s = shridx ∧ t = i ∨ s ≠ 0 ∧ s ∈ chain i ∧ ¬ Owns htable s ∧ clearHighest s = t) := by
  induction turns generalizing i shridx with
  | zero =>
    obtain rfl : i = 0 := by simpa using hturns
    obtain ⟨root, hroot⟩ := owns_iff.mp h0
    refine ⟨0, shridx, ?_, by simp [unsharedtableindexLoop, hroot], Or.inl ⟨rfl, rfl⟩⟩
    rw [chain_zero, List.find?_singleton, if_pos (by simpa using h0)]
  | succ turns ih =>
    rw [unsharedtableindexLoop]
    by_cases hown : Owns htable i
    · obtain ⟨root, hroot⟩ := owns_iff.mp hown
      refine ⟨i, shridx, ?_, by rw [hroot], Or.inl ⟨rfl, rfl⟩⟩
      by_cases hzero : i = 0
      · rw [hzero, chain_zero, List.find?_singleton, if_pos (by simpa using h0)]
      · rw [chain_of_ne_zero hzero, List.find?_cons_of_pos (by simpa using hown)]
    · have hne : i ≠ 0 := fun hzero => hown (hzero ▸ h0)
      have hclear : i ^^^ 1 <<< i.log2 = clearHighest i := by
        rw [Nat.one_shiftLeft, clearHighest]
      rw [eq_shared_of_not_owns hi hown, chain_of_ne_zero hne,
        List.find?_cons_of_neg (by simpa using hown)]
      dsimp only
      rw [hclear]
      obtain ⟨t, s, hfind, hloop, hs⟩ := ih (Nat.lt_trans (clearHighest_lt hne) hi)
        (clearHighest_lt_two_pow hne hturns) i
      refine ⟨t, s, hfind, hloop, Or.inr ?_⟩
      rcases hs with ⟨rfl, rfl⟩ | ⟨hs0, hmem, hshared, hst⟩
      · exact ⟨hne, List.mem_cons_self, hown, rfl⟩
      · exact ⟨hs0, List.mem_cons_of_mem _ hmem, hshared, hst⟩

/-- **The loop for the split index** ends at the first shared entry whose index has one bit more. -/
theorem splitidxLoop_spec {a b turns : ℕ} (hab : a ≤ b) (ht : t < 2 ^ a)
    (hb : htable.hashtable[t + 2 ^ b]? = some .shared) (hturns : b - a < turns) :
    ∃ k, a ≤ k ∧ k ≤ b ∧ splitidxLoop htable.hashtable t turns (2 ^ a) = some (t + 2 ^ k, 2 ^ k) ∧
      htable.hashtable[t + 2 ^ k]? = some .shared ∧
      ∀ m, a ≤ m → m < k → Owns htable (t + 2 ^ m) := by
  induction turns generalizing a with
  | zero => omega
  | succ turns ih =>
    have hor : t ||| 2 ^ a = t + 2 ^ a := by
      rw [Nat.add_comm, Nat.or_comm]
      simpa using (Nat.two_pow_add_eq_or_of_lt ht 1).symm
    rw [splitidxLoop, hor]
    have hlen := (List.getElem?_eq_some_iff.mp hb).1
    have hpow : 2 ^ a ≤ 2 ^ b := Nat.pow_le_pow_right (by omega) hab
    by_cases hown : Owns htable (t + 2 ^ a)
    · have hlt : a < b := by
        refine Nat.lt_of_le_of_ne hab fun heq => ?_
        obtain ⟨root, hroot⟩ := owns_iff.mp hown
        rw [heq, hb] at hroot
        cases hroot
      obtain ⟨root, hroot⟩ := owns_iff.mp hown
      rw [hroot]
      dsimp only
      have hshift : 2 ^ a <<< 1 = 2 ^ (a + 1) := by
        rw [Nat.shiftLeft_eq, Nat.pow_one, Nat.pow_succ]
      rw [hshift]
      obtain ⟨k, hak, hkb, hloop, hshared, hbefore⟩ :=
        ih hlt (by rw [Nat.pow_succ]; omega) (by omega)
      refine ⟨k, by omega, hkb, hloop, hshared, fun m hm hmk => ?_⟩
      rcases Nat.lt_or_eq_of_le hm with hlt | rfl
      · exact hbefore m hlt hmk
      · exact hown
    · have hshared := eq_shared_of_not_owns (by omega) hown
      refine ⟨a, Nat.le_refl a, hab, by rw [hshared], hshared, fun m hm hma => ?_⟩
      omega

end Loops

/-- What the callbacks have to satisfy: they compare keys and objects in one order, and equal ones
have the same hash value. -/
structure Lawful (nodeadp : HashAdapt κ ν) : Prop where
  order : Splaytree.Lawful nodeadp.toTypeadapt
  hash_object : ∀ x y, nodeadp.cmpObject x y = .eq → nodeadp.hashobject x = nodeadp.hashobject y
  hash_key : ∀ key x, nodeadp.cmpKeyObject key x = .eq →
    nodeadp.hashkey key = nodeadp.hashobject x

section Distribute

variable [DecidableEq ν] {nodeadp : HashAdapt κ ν}

/-- The node has the bit of its hash value that decides about the bucket. -/
def hasBit (nodeadp : HashAdapt κ ν) (highbit : ℕ) (n : ν) : Bool :=
  (nodeadp.hashobject n).toNat &&& highbit ≠ 0

/-- **The loop over the nodes** moves those that have the bit to the second tree, and keeps the
others. -/
theorem distributeLoop_spec (h : Lawful nodeadp) (highbit : ℕ) {turns : ℕ} {xs ys : List ν}
    {tree tree2 : Redblacktree.Tree ν} (htree : nodes tree = xs ++ ys)
    (hsorted : Sorted nodeadp.toTypeadapt tree) (hsorted2 : Sorted nodeadp.toTypeadapt tree2)
    (hturns : ys.length ≤ turns)
    (hne : ∀ y ∈ ys, ∀ z ∈ nodes tree2, nodeadp.cmpObject y z ≠ .eq) (err : Option Errno) :
    ∃ tree' tree2', distributeLoop nodeadp highbit turns ys.head? tree tree2 err =
        some (tree', tree2', err) ∧
      nodes tree' = xs ++ ys.filter (fun n => !hasBit nodeadp highbit n) ∧
      Sorted nodeadp.toTypeadapt tree' ∧ Sorted nodeadp.toTypeadapt tree2' ∧
      ∀ n, n ∈ nodes tree2' ↔ n ∈ nodes tree2 ∨ n ∈ ys ∧ hasBit nodeadp highbit n = true := by
  have := h.order.trans
  induction ys generalizing turns xs tree tree2 with
  | nil =>
    refine ⟨tree, tree2, by simp [distributeLoop], by simpa using htree, hsorted, hsorted2, ?_⟩
    simp
  | cons y ys ih =>
    obtain ⟨turns, rfl⟩ : ∃ n, turns = n + 1 := ⟨turns - 1, by simp at hturns; omega⟩
    have hnodup := hsorted.nodup h.order
    rw [List.length_cons, Nat.add_le_add_iff_right] at hturns
    rw [List.head?_cons, distributeLoop]
    dsimp only
    rw [nextRedblacktreeiterator_spec htree hnodup]
    cases hbit : hasBit nodeadp highbit y with
    | true =>
      have hremove := nodes_removeRedblacktree htree hnodup
      have hsub : (xs ++ ys).Sublist (nodes tree) := by
        rw [htree]
        exact List.Sublist.append_left (List.sublist_cons_self y ys) xs
      have hsorted' : Sorted nodeadp.toTypeadapt (removeRedblacktree tree y) := by
        unfold Sorted
        rw [hremove]
        exact List.Pairwise.sublist hsub hsorted
      rcases insertRedblacktree_spec h.order hsorted2 y with
        ⟨⟨z, hz, heq⟩, -⟩ | ⟨hout, as, bs, hnodes2, hinsert, -, -⟩
      · exact absurd heq (hne y List.mem_cons_self z hz)
      have hmem2 : ∀ n, n ∈ nodes (insertRedblacktree nodeadp.toTypeadapt tree2 y).2 ↔
          n = y ∨ n ∈ nodes tree2 := by
        intro n
        rw [hinsert, hnodes2, List.mem_append, List.mem_cons, List.mem_append]
        tauto
      have hlt : ∀ y' ∈ ys, nodeadp.cmpObject y y' = .lt := by
        intro y' hy'
        have hpair : (nodes tree).Pairwise _ := hsorted
        rw [htree, List.pairwise_append, List.pairwise_cons] at hpair
        exact hpair.2.1.1 y' hy'
      have hbit' : (nodeadp.hashobject y).toNat &&& highbit ≠ 0 := by
        simpa [hasBit] using hbit
      rw [if_pos hbit', hout, Option.none_or]
      obtain ⟨tree', tree2', hloop, hnodes, hs1, hs2, hmem⟩ := ih hremove hsorted'
        (sorted_insertRedblacktree h.order hsorted2 y) hturns (fun y' hy' z hz => by
          rcases (hmem2 z).mp hz with rfl | hz
          · rw [Std.OrientedCmp.gt_of_lt (hlt y' hy')]
            exact fun h => by cases h
          · exact hne y' (List.mem_cons_of_mem y hy') z hz)
      refine ⟨tree', tree2', hloop, ?_, hs1, hs2, fun n => ?_⟩
      · rw [hnodes, List.filter_cons_of_neg (by simp [hbit])]
      · rw [hmem, hmem2, List.mem_cons]
        constructor
        · rintro ((rfl | hn) | ⟨hn, hb⟩)
          · exact Or.inr ⟨Or.inl rfl, hbit⟩
          · exact Or.inl hn
          · exact Or.inr ⟨Or.inr hn, hb⟩
        · rintro (hn | ⟨rfl | hn, hb⟩)
          · exact Or.inl (Or.inr hn)
          · exact Or.inl (Or.inl rfl)
          · exact Or.inr ⟨hn, hb⟩
    | false =>
      have hbit' : ¬ (nodeadp.hashobject y).toNat &&& highbit ≠ 0 := by
        simpa [hasBit] using hbit
      rw [if_neg hbit']
      have htree' : nodes tree = (xs ++ [y]) ++ ys := by
        rw [htree, List.append_assoc, List.singleton_append]
      obtain ⟨tree', tree2', hloop, hnodes, hs1, hs2, hmem⟩ := ih htree' hsorted hsorted2 hturns
        (fun y' hy' => hne y' (List.mem_cons_of_mem y hy'))
      refine ⟨tree', tree2', hloop, ?_, hs1, hs2, fun n => ?_⟩
      · rw [hnodes, List.filter_cons_of_pos (by simp [hbit]), List.append_assoc,
          List.singleton_append]
      · rw [hmem, List.mem_cons]
        constructor
        · rintro (hn | ⟨hn, hb⟩)
          · exact Or.inl hn
          · exact Or.inr ⟨Or.inr hn, hb⟩
        · rintro (hn | ⟨rfl | hn, hb⟩)
          · exact Or.inl hn
          · rw [hbit] at hb
            cases hb
          · exact Or.inr ⟨hn, hb⟩

end Distribute

/-! ## The invariant of the directory -/

/-- The nodes in the tree of an entry. -/
def bucketNodes (htable : Exthash ν) (i : ℕ) : List ν :=
  match treeAt htable i with
  | some root => nodes root
  | none => []

/-- The nodes of the table. -/
def stored (htable : Exthash ν) : Set ν := {n | ∃ i, n ∈ bucketNodes htable i}

/-- The invariant: the table has an entry for each index of the level, the first one is not shared,
the trees are ordered, and every node is in the tree of the owner of its hash value. -/
structure Inv (nodeadp : HashAdapt κ ν) (htable : Exthash ν) : Prop where
  length_eq : htable.hashtable.length = 2 ^ htable.level
  owns_zero : Owns htable 0
  sorted : ∀ i root, treeAt htable i = some root → Sorted nodeadp.toTypeadapt root
  owner : ∀ i, ∀ n ∈ bucketNodes htable i,
    IsOwner (Owns htable) htable.level (nodeadp.hashobject n).toNat i
  nr_nodes : htable.nrNodes = (stored htable).ncard

section Specs

variable {nodeadp : HashAdapt κ ν} {htable : Exthash ν} {t : ℕ} {tree : Redblacktree.Tree ν}

theorem bucketNodes_eq (ht : treeAt htable t = some tree) : bucketNodes htable t = nodes tree := by
  rw [bucketNodes, ht]

theorem owns_of_mem_bucketNodes {n : ν} {i : ℕ} (hn : n ∈ bucketNodes htable i) :
    Owns htable i := by
  unfold bucketNodes at hn
  split at hn
  next root hroot => exact Option.isSome_iff_exists.mpr ⟨root, hroot⟩
  next => exact absurd hn List.not_mem_nil

theorem finite_stored (htable : Exthash ν) : (stored htable).Finite := by
  have hsub : stored htable ⊆
      ⋃ i ∈ Finset.range htable.hashtable.length, {n | n ∈ bucketNodes htable i} := by
    rintro n ⟨i, hn⟩
    simp only [Set.mem_iUnion, Finset.mem_range]
    exact ⟨i, (owns_of_mem_bucketNodes hn).lt, hn⟩
  exact Set.Finite.subset (Set.Finite.biUnion (Finset.finite_toSet _) fun i _ =>
    List.finite_toSet (bucketNodes htable i)) hsub

theorem Inv.mem_stored_iff (hinv : Inv nodeadp htable) (ht : treeAt htable t = some tree) {n : ν}
    (hown : IsOwner (Owns htable) htable.level (nodeadp.hashobject n).toNat t) :
    n ∈ stored htable ↔ n ∈ nodes tree := by
  rw [← bucketNodes_eq ht]
  constructor
  · rintro ⟨i, hn⟩
    exact (hinv.owner i n hn).unique hown ▸ hn
  · intro hn
    exact ⟨t, hn⟩

/-- **The index of a hash value** is found, and it is that of the owner; if a shared entry is on the
way to it, then `sharedidx` is the last one. -/
theorem unsharedtableindexExthash_spec (hinv : Inv nodeadp htable) (hashvalue : UInt64) :
    ∃ t s tree, unsharedtableindexExthash htable hashvalue = some (t, s) ∧
      (chain (hashvalue.toNat &&& (2 ^ htable.level - 1))).find? (Owns htable) = some t ∧
      treeAt htable t = some tree ∧
      IsOwner (Owns htable) htable.level hashvalue.toNat t ∧
      (s = 0 ∨ ∃ b m, s = t + 2 ^ b ∧ t < 2 ^ b ∧ m ≤ htable.level ∧
        hashvalue.toNat % 2 ^ m = s ∧ ¬ Owns htable s) := by
  have hidx : tableindexExthash htable hashvalue = hashvalue.toNat % 2 ^ htable.level := by
    unfold tableindexExthash lengthoftableExthash
    rw [Nat.one_shiftLeft, Nat.and_two_pow_sub_one_eq_mod]
  have hlt := Nat.mod_lt hashvalue.toNat (Nat.two_pow_pos htable.level)
  obtain ⟨t, s, hfind, hloop, hs⟩ := unsharedtableindexLoop_spec hinv.owns_zero
    (hinv.length_eq ▸ hlt) hlt 0
  obtain ⟨t', hfind', hown⟩ := find?_chain hinv.owns_zero htable.level hashvalue.toNat
  obtain rfl : t = t' := by
    rw [hfind] at hfind'
    exact Option.some_inj.mp hfind'
  obtain ⟨tree, htree⟩ := Option.isSome_iff_exists.mp hown.1
  refine ⟨t, s, tree, ?_, ?_, htree, hown, ?_⟩
  · rw [unsharedtableindexExthash, hidx, hloop]
  · rw [Nat.and_two_pow_sub_one_eq_mod, hfind]
  · rcases hs with ⟨hs0, -⟩ | ⟨hs0, hmem, hshared, hclear⟩
    · exact Or.inl hs0
    · obtain ⟨m, hm, hms⟩ := exists_mod_of_mem_chain hmem
      refine Or.inr ⟨s.log2, m, ?_, ?_, hm, hms, hshared⟩
      · rw [← hclear, clearHighest_add_two_pow hs0]
      · rw [← hclear]
        exact clearHighest_lt_log2 hs0

theorem Inv.shared_of_mod_eq (hinv : Inv nodeadp htable) {h m s : ℕ} (hm : m ≤ htable.level)
    (hms : h % 2 ^ m = s) (hshared : ¬ Owns htable s) : htable.hashtable[s]? = some .shared := by
  refine eq_shared_of_not_owns ?_ hshared
  rw [hinv.length_eq, ← hms]
  exact Nat.lt_of_lt_of_le (Nat.mod_lt _ (Nat.two_pow_pos m)) (Nat.pow_le_pow_right (by omega) hm)

/-- **The search** finds a node with the key, if there is one. -/
theorem findExthash_spec (h : Lawful nodeadp) (hinv : Inv nodeadp htable) (key : κ) :
    (findExthash nodeadp htable key = some (.error .ESRCH) ∧
        ∀ m ∈ stored htable, nodeadp.cmpKeyObject key m ≠ .eq) ∨
      ∃ m ∈ stored htable, nodeadp.cmpKeyObject key m = .eq ∧
        findExthash nodeadp htable key = some (.ok m) := by
  obtain ⟨t, s, tree, hidx, -, htree, hown, -⟩ :=
    unsharedtableindexExthash_spec hinv (nodeadp.hashkey key)
  unfold findExthash
  rw [hidx]
  dsimp only
  rw [htree, Option.map_some]
  rcases findRedblacktree_spec h.order (hinv.sorted t tree htree) key with
    ⟨hout, hno⟩ | ⟨m, hm, heq, hout⟩
  · refine Or.inl ⟨by rw [hout], fun m hm heq => ?_⟩
    rw [h.hash_key key m heq] at hown
    exact hno m ((hinv.mem_stored_iff htree hown).mp hm) heq
  · exact Or.inr ⟨m, ⟨t, bucketNodes_eq htree ▸ hm⟩, heq, by rw [hout]⟩

/-! ## What a change does to the directory -/

theorem owns_setTree (ht : Owns htable t) (tree' : Redblacktree.Tree ν) :
    Owns (setTree htable t tree') = Owns htable := by
  ext i
  unfold Owns
  rw [treeAt_setTree ht.lt]
  by_cases hi : i = t
  · rw [if_pos hi, hi]
    exact iff_of_true rfl ht
  · rw [if_neg hi]

theorem bucketNodes_setTree (ht : t < htable.hashtable.length) (tree' : Redblacktree.Tree ν)
    (i : ℕ) :
    bucketNodes (setTree htable t tree') i = if i = t then nodes tree' else bucketNodes htable i := by
  unfold bucketNodes
  rw [treeAt_setTree ht]
  by_cases hi : i = t
  · rw [if_pos hi, if_pos hi]
  · rw [if_neg hi, if_neg hi]

theorem mem_stored_setTree (ht : t < htable.hashtable.length) (tree' : Redblacktree.Tree ν) (n : ν) :
    n ∈ stored (setTree htable t tree') ↔
      n ∈ nodes tree' ∨ ∃ i, i ≠ t ∧ n ∈ bucketNodes htable i := by
  constructor
  · rintro ⟨i, hn⟩
    rw [bucketNodes_setTree ht] at hn
    split at hn
    next => exact Or.inl hn
    next hi => exact Or.inr ⟨i, hi, hn⟩
  · rintro (hn | ⟨i, hi, hn⟩)
    · exact ⟨t, by rwa [bucketNodes_setTree ht, if_pos rfl]⟩
    · exact ⟨i, by rwa [bucketNodes_setTree ht, if_neg hi]⟩

theorem mem_stored_iff_or (ht : treeAt htable t = some tree) (n : ν) :
    n ∈ stored htable ↔ n ∈ nodes tree ∨ ∃ i, i ≠ t ∧ n ∈ bucketNodes htable i := by
  constructor
  · rintro ⟨i, hn⟩
    by_cases hi : i = t
    · exact Or.inl (by rwa [hi, bucketNodes_eq ht] at hn)
    · exact Or.inr ⟨i, hi, hn⟩
  · rintro (hn | ⟨i, -, hn⟩)
    · exact ⟨t, by rwa [bucketNodes_eq ht]⟩
    · exact ⟨i, hn⟩

theorem Inv.setTree (hinv : Inv nodeadp htable) (ht : Owns htable t) {tree' : Redblacktree.Tree ν}
    (hsorted : Sorted nodeadp.toTypeadapt tree')
    (howner : ∀ n ∈ nodes tree',
      IsOwner (Owns htable) htable.level (nodeadp.hashobject n).toNat t) {count : ℕ}
    (hcount : count = (stored (Exthash.setTree htable t tree')).ncard) :
    Inv nodeadp { Exthash.setTree htable t tree' with nrNodes := count } := by
  have howns := owns_setTree ht tree'
  refine ⟨(length_setTree t tree').trans hinv.length_eq, ?_, ?_, ?_, hcount⟩
  · exact (congrFun howns 0).mpr hinv.owns_zero
  · intro i root hroot
    have hroot' : treeAt (Exthash.setTree htable t tree') i = some root := hroot
    rw [treeAt_setTree ht.lt] at hroot'
    split at hroot'
    next =>
      cases hroot'
      exact hsorted
    next => exact hinv.sorted i root hroot'
  · intro i n hn
    have hn' : n ∈ bucketNodes (Exthash.setTree htable t tree') i := hn
    have hgoal : IsOwner (Owns (Exthash.setTree htable t tree')) htable.level
        (nodeadp.hashobject n).toNat i := by
      rw [howns]
      rw [bucketNodes_setTree ht.lt] at hn'
      split at hn'
      next hi => exact hi ▸ howner n hn'
      next => exact hinv.owner i n hn'
    exact hgoal

theorem treeAt_doubletablesizeExthash (i : ℕ) :
    treeAt (doubletablesizeExthash htable) i = treeAt htable i := by
  unfold doubletablesizeExthash
  split
  · ext root
    rw [treeAt_eq_some, treeAt_eq_some, List.getElem?_append]
    split
    · rfl
    next hi =>
      constructor
      · intro hentry
        cases List.eq_of_mem_replicate (List.mem_of_getElem? hentry)
      · intro hentry
        exact absurd (List.getElem?_eq_some_iff.mp hentry).1 hi
  · rfl

theorem owns_doubletablesizeExthash : Owns (doubletablesizeExthash htable) = Owns htable := by
  ext i
  unfold Owns
  rw [treeAt_doubletablesizeExthash]

theorem bucketNodes_doubletablesizeExthash (i : ℕ) :
    bucketNodes (doubletablesizeExthash htable) i = bucketNodes htable i := by
  unfold bucketNodes
  rw [treeAt_doubletablesizeExthash]

theorem stored_doubletablesizeExthash : stored (doubletablesizeExthash htable) = stored htable := by
  ext n
  unfold stored
  rw [Set.mem_ofPred_eq, Set.mem_ofPred_eq]
  exact exists_congr fun i => by rw [bucketNodes_doubletablesizeExthash]

theorem Inv.lt_of_owns (hinv : Inv nodeadp htable) {i : ℕ} (hi : Owns htable i) :
    i < 2 ^ htable.level := hinv.length_eq ▸ hi.lt

/-- **Doubling** leaves every hash value its owner. -/
theorem isOwner_doubletablesizeExthash (hinv : Inv nodeadp htable) {h : ℕ}
    (ht : IsOwner (Owns htable) htable.level h t) :
    IsOwner (Owns (doubletablesizeExthash htable)) (doubletablesizeExthash htable).level h t := by
  rw [owns_doubletablesizeExthash]
  unfold doubletablesizeExthash
  split
  · exact isOwner_succ (fun i hi => hinv.lt_of_owns hi) ht
  · exact ht

theorem inv_doubletablesizeExthash (hinv : Inv nodeadp htable) :
    Inv nodeadp (doubletablesizeExthash htable) := by
  refine ⟨?_, ?_, fun i root hroot => ?_, fun i n hn => ?_, ?_⟩
  · unfold doubletablesizeExthash
    split
    · rw [List.length_append, List.length_replicate, hinv.length_eq]
      unfold lengthoftableExthash
      rw [Nat.one_shiftLeft, Nat.one_shiftLeft, Nat.pow_succ]
      omega
    · exact hinv.length_eq
  · rw [owns_doubletablesizeExthash]
    exact hinv.owns_zero
  · rw [treeAt_doubletablesizeExthash] at hroot
    exact hinv.sorted i root hroot
  · rw [bucketNodes_doubletablesizeExthash] at hn
    exact isOwner_doubletablesizeExthash hinv (hinv.owner i n hn)
  · rw [stored_doubletablesizeExthash, ← hinv.nr_nodes]
    unfold doubletablesizeExthash
    split
    · rfl
    · rfl

theorem hasBit_eq_testBit (k : ℕ) (n : ν) :
    hasBit nodeadp (2 ^ k) n = (nodeadp.hashobject n).toNat.testBit k := by
  unfold hasBit
  rw [Nat.and_two_pow]
  cases (nodeadp.hashobject n).toNat.testBit k with
  | true => simp
  | false => simp

/-- What `unsharebucket_exthash` does to a table: the entry `t + 2 ^ k` is shared before, and gets
the nodes of the tree of `t` that have the bit `k`. -/
structure Split (nodeadp : HashAdapt κ ν) (htable htable' : Exthash ν) (t k : ℕ) : Prop where
  lt_two_pow : t < 2 ^ k
  shared : htable.hashtable[t + 2 ^ k]? = some .shared
  owns : ∀ i, Owns htable' i ↔ Owns htable i ∨ i = t + 2 ^ k
  level_eq : htable'.level = htable.level
  stay : ∀ n, n ∈ bucketNodes htable' t ↔ n ∈ bucketNodes htable t ∧ ¬ hasBit nodeadp (2 ^ k) n
  move : ∀ n, n ∈ bucketNodes htable' (t + 2 ^ k) ↔
    n ∈ bucketNodes htable t ∧ hasBit nodeadp (2 ^ k) n
  others : ∀ i, i ≠ t → i ≠ t + 2 ^ k → bucketNodes htable' i = bucketNodes htable i
  owner : ∀ h s, IsOwner (Owns htable) htable.level h s →
    IsOwner (Owns htable') htable'.level h (if s = t ∧ h.testBit k then t + 2 ^ k else s)

theorem split_setTree (hinv : Inv nodeadp htable) (ht : treeAt htable t = some tree) {k : ℕ}
    (htk : t < 2 ^ k) (hshared : htable.hashtable[t + 2 ^ k]? = some .shared)
    (hmin : ∀ m < k, t < 2 ^ m → Owns htable (t + 2 ^ m)) {tree1 tree2 : Redblacktree.Tree ν}
    (h1 : nodes tree1 = (nodes tree).filter fun n => !hasBit nodeadp (2 ^ k) n)
    (h2 : ∀ n, n ∈ nodes tree2 ↔ n ∈ nodes tree ∧ hasBit nodeadp (2 ^ k) n = true) :
    Split nodeadp htable (setTree (setTree htable t tree1) (t + 2 ^ k) tree2) t k := by
  have hown : Owns htable t := Option.isSome_iff_exists.mpr ⟨tree, ht⟩
  have hlen := (List.getElem?_eq_some_iff.mp hshared).1
  have hlen1 : t + 2 ^ k < (setTree htable t tree1).hashtable.length := by
    rwa [length_setTree]
  have hne : t ≠ t + 2 ^ k := by
    have := Nat.two_pow_pos k
    omega
  have hfree : ¬ Owns htable (t + 2 ^ k) := by
    intro hfull
    obtain ⟨root, hroot⟩ := owns_iff.mp hfull
    rw [hshared] at hroot
    cases hroot
  have howns : ∀ i, Owns (setTree (setTree htable t tree1) (t + 2 ^ k) tree2) i ↔
      Owns htable i ∨ i = t + 2 ^ k := by
    intro i
    unfold Owns
    rw [treeAt_setTree hlen1]
    by_cases hi : i = t + 2 ^ k
    · rw [if_pos hi]
      exact iff_of_true rfl (Or.inr hi)
    · rw [if_neg hi]
      exact (iff_of_eq (congrFun (owns_setTree hown tree1) i)).trans (or_iff_left hi).symm
  have hkL : k < htable.level := by
    rw [hinv.length_eq] at hlen
    exact (Nat.pow_lt_pow_iff_right (Nat.lt_succ_self 1)).mp
      (Nat.lt_of_le_of_lt (Nat.le_add_left _ _) hlen)
  refine ⟨htk, hshared, howns, rfl, fun n => ?_, fun n => ?_, fun i hit hik => ?_, fun h s hs => ?_⟩
  · rw [bucketNodes_setTree hlen1, if_neg hne, bucketNodes_setTree hown.lt, if_pos rfl, h1,
      bucketNodes_eq ht, List.mem_filter]
    simp
  · rw [bucketNodes_setTree hlen1, if_pos rfl, h2, bucketNodes_eq ht]
  · rw [bucketNodes_setTree hlen1, if_neg hik, bucketNodes_setTree hown.lt, if_neg hit]
  · have hpred : Owns (setTree (setTree htable t tree1) (t + 2 ^ k) tree2) =
        fun i => Owns htable i ∨ i = t + 2 ^ k := by
      ext i
      exact howns i
    rw [hpred]
    exact isOwner_split hown htk hkL hmin hfree hs

theorem Split.stored_eq {htable' : Exthash ν} {k : ℕ} (hsplit : Split nodeadp htable htable' t k) :
    stored htable' = stored htable := by
  ext n
  constructor
  · rintro ⟨i, hn⟩
    by_cases hit : i = t
    · subst hit
      exact ⟨i, ((hsplit.stay n).mp hn).1⟩
    by_cases hik : i = t + 2 ^ k
    · subst hik
      exact ⟨t, ((hsplit.move n).mp hn).1⟩
    · exact ⟨i, hsplit.others i hit hik ▸ hn⟩
  · rintro ⟨i, hn⟩
    by_cases hit : i = t
    · subst hit
      by_cases hbit : hasBit nodeadp (2 ^ k) n
      · exact ⟨i + 2 ^ k, (hsplit.move n).mpr ⟨hn, hbit⟩⟩
      · exact ⟨i, (hsplit.stay n).mpr ⟨hn, hbit⟩⟩
    · refine ⟨i, ?_⟩
      rw [hsplit.others i hit fun hik => ?_]
      · exact hn
      · -- a shared entry has no nodes
        subst hik
        obtain ⟨root, hroot⟩ := owns_iff.mp (owns_of_mem_bucketNodes hn)
        rw [hsplit.shared] at hroot
        cases hroot

/-- **A split keeps the invariant**: the bit decides for every node which of the entries owns it. -/
theorem Split.inv {htable' : Exthash ν} {k : ℕ} (hsplit : Split nodeadp htable htable' t k)
    (hinv : Inv nodeadp htable) (hlen : htable'.hashtable.length = htable.hashtable.length)
    (hsorted : ∀ i root, treeAt htable' i = some root → Sorted nodeadp.toTypeadapt root)
    (hcount : htable'.nrNodes = htable.nrNodes) : Inv nodeadp htable' := by
  refine ⟨?_, (hsplit.owns 0).mpr (Or.inl hinv.owns_zero), hsorted, fun i n hn => ?_, ?_⟩
  · rw [hlen, hsplit.level_eq, hinv.length_eq]
  · by_cases hit : i = t
    · subst hit
      obtain ⟨hmem, hbit⟩ := (hsplit.stay n).mp hn
      have howner := hsplit.owner _ i (hinv.owner i n hmem)
      rw [hasBit_eq_testBit] at hbit
      rwa [if_neg fun hand => hbit hand.2] at howner
    by_cases hik : i = t + 2 ^ k
    · subst hik
      obtain ⟨hmem, hbit⟩ := (hsplit.move n).mp hn
      have howner := hsplit.owner _ t (hinv.owner t n hmem)
      rw [hasBit_eq_testBit] at hbit
      rwa [if_pos ⟨rfl, hbit⟩] at howner
    · rw [hsplit.others i hit hik] at hn
      have howner := hsplit.owner _ i (hinv.owner i n hn)
      rwa [if_neg fun hand => hit hand.1] at howner
  · rw [hcount, hsplit.stored_eq, hinv.nr_nodes]

section Changes

variable [DecidableEq ν]

/-- **Unsharing** a bucket with a shared entry above it: the loops end within the table, and the tree
is split. -/
theorem unsharebucketExthash_spec (h : Lawful nodeadp) (hinv : Inv nodeadp htable)
    (ht : treeAt htable t = some tree) {b : ℕ} (htb : t < 2 ^ b)
    (hb : htable.hashtable[t + 2 ^ b]? = some .shared) :
    ∃ k htable', k ≤ b ∧ unsharebucketExthash nodeadp htable t = some (none, htable') ∧
      splitidxLoop htable.hashtable t (htable.level + 1) (if t ≠ 0 then 2 <<< t.log2 else 1) =
        some (t + 2 ^ k, 2 ^ k) ∧
      Split nodeadp htable htable' t k ∧ Inv nodeadp htable' := by
  have hbL : b < htable.level := by
    have hlen := (List.getElem?_eq_some_iff.mp hb).1
    rw [hinv.length_eq] at hlen
    exact (Nat.pow_lt_pow_iff_right (Nat.lt_succ_self 1)).mp
      (Nat.lt_of_le_of_lt (Nat.le_add_left _ _) hlen)
  -- the loop for the split index starts above the highest bit of `t`
  obtain ⟨a, hstart, hta, hamin⟩ : ∃ a, (if t ≠ 0 then 2 <<< t.log2 else 1) = 2 ^ a ∧ t < 2 ^ a ∧
      ∀ m, t < 2 ^ m → a ≤ m := by
    by_cases hzero : t = 0
    · exact ⟨0, by rw [if_neg (not_not.mpr hzero), Nat.pow_zero], by simp [hzero],
        fun m _ => Nat.zero_le m⟩
    · refine ⟨t.log2 + 1, ?_, Nat.lt_log2_self, fun m hm => (Nat.log2_lt hzero).mpr hm⟩
      rw [if_pos hzero, Nat.shiftLeft_eq, Nat.pow_succ, Nat.mul_comm]
  obtain ⟨k, hak, hkb, hloop, hshared, hbefore⟩ :=
    @splitidxLoop_spec _ _ _ _ _ (htable.level + 1) (hamin b htb) hta hb (by omega)
  have htk : t < 2 ^ k := Nat.lt_of_lt_of_le hta (Nat.pow_le_pow_right (by omega) hak)
  obtain ⟨tree1, tree2, hdistribute, h1, hsorted1, hsorted2, h2⟩ :=
    @distributeLoop_spec _ _ _ _ h (2 ^ k) (nodes tree).length [] (nodes tree) tree nil rfl
      (hinv.sorted t tree ht) List.Pairwise.nil (Nat.le_refl _)
      (fun y _ z hz => absurd hz List.not_mem_nil) none
  have h2' : ∀ n, n ∈ nodes tree2 ↔ n ∈ nodes tree ∧ hasBit nodeadp (2 ^ k) n = true :=
    fun n => (h2 n).trans (or_iff_right List.not_mem_nil)
  have hsplit :=
    split_setTree hinv ht htk hshared (fun m hm htm => hbefore m (hamin m htm) hm) h1 h2'
  refine ⟨k, _, hkb, ?_, hstart ▸ hloop, hsplit, hsplit.inv hinv ?_ ?_ rfl⟩
  · unfold unsharebucketExthash
    dsimp only
    rw [hstart, hloop, ht]
    dsimp only
    rw [initfirstRedblacktreeiterator_spec, hdistribute]
  · rw [length_setTree, length_setTree]
  · intro i root hroot
    have hlen := (List.getElem?_eq_some_iff.mp hshared).1
    have hown : Owns htable t := Option.isSome_iff_exists.mpr ⟨tree, ht⟩
    rw [treeAt_setTree (by rwa [length_setTree]), treeAt_setTree hown.lt] at hroot
    split at hroot
    next =>
      cases hroot
      exact hsorted2
    split at hroot
    next =>
      cases hroot
      exact hsorted1
    next => exact hinv.sorted i root hroot

/-- What an insertion returns and does to the nodes. -/
def InsertSpec (nodeadp : HashAdapt κ ν) (htable : Exthash ν) (newNode : ν)
    (result : Option (Option Errno × Exthash ν)) : Prop :=
  ∃ out htable', result = some (out, htable') ∧ Inv nodeadp htable' ∧
    (out = some .EEXIST ∧ (∃ m ∈ stored htable, nodeadp.cmpObject newNode m = .eq) ∧
        stored htable' = stored htable ∨
      out = none ∧ (∀ m ∈ stored htable, nodeadp.cmpObject newNode m ≠ .eq) ∧
        stored htable' = insert newNode (stored htable))

omit [DecidableEq ν] in
theorem insertAt_spec (h : Lawful nodeadp) (hinv : Inv nodeadp htable) {newNode : ν}
    (hown : IsOwner (Owns htable) htable.level (nodeadp.hashobject newNode).toNat t) :
    InsertSpec nodeadp htable newNode (insertAt nodeadp htable t newNode) := by
  have := h.order.trans
  obtain ⟨tree, ht⟩ := Option.isSome_iff_exists.mp hown.1
  have hsorted := hinv.sorted t tree ht
  unfold insertAt
  rw [ht]
  dsimp only
  rcases insertRedblacktree_spec h.order hsorted newNode with
    ⟨⟨m, hm, heq⟩, hout⟩ | ⟨hout, xs, ys, hnodes, hnew, hbelow, habove⟩
  · rw [hout]
    exact ⟨_, _, rfl, hinv,
      Or.inl ⟨rfl, ⟨m, (mem_stored_iff_or ht m).mpr (Or.inl hm), heq⟩, rfl⟩⟩
  · rw [hout]
    -- an equal node would be in the same tree
    have hne : ∀ m ∈ stored htable, nodeadp.cmpObject newNode m ≠ .eq := by
      intro m hm heq
      rw [h.hash_object newNode m heq] at hown
      have hmem := (hinv.mem_stored_iff ht hown).mp hm
      rw [hnodes] at hmem
      rcases List.mem_append.mp hmem with hx | hy
      · rw [hbelow m hx] at heq
        cases heq
      · rw [habove m hy] at heq
        cases heq
    have hmem : ∀ n, n ∈ nodes (insertRedblacktree nodeadp.toTypeadapt tree newNode).2 ↔
        n = newNode ∨ n ∈ nodes tree := by
      intro n
      rw [hnew, hnodes, List.mem_append, List.mem_cons, List.mem_append]
      tauto
    have hstored : stored (setTree htable t
        (insertRedblacktree nodeadp.toTypeadapt tree newNode).2) =
          insert newNode (stored htable) := by
      ext n
      rw [mem_stored_setTree hown.1.lt, hmem, Set.mem_insert_iff, mem_stored_iff_or ht, or_assoc]
    have hnotMem : newNode ∉ stored htable := fun hn => hne newNode hn Std.ReflCmp.compare_self
    refine ⟨_, _, rfl, hinv.setTree hown.1 (sorted_insertRedblacktree h.order hsorted newNode)
      (fun n hn => ?_) ?_, Or.inr ⟨rfl, hne, hstored⟩⟩
    · rcases (hmem n).mp hn with rfl | hn
      · exact hown
      · exact hinv.owner t n (bucketNodes_eq ht ▸ hn)
    · rw [hstored, Set.ncard_insert_of_notMem hnotMem (finite_stored htable), hinv.nr_nodes]

/-- **Insertion** ends; it fails if there is an equal node, and adds the node otherwise. -/
theorem insertExthash_spec (h : Lawful nodeadp) (hinv : Inv nodeadp htable) (newNode : ν) :
    InsertSpec nodeadp htable newNode (insertExthash nodeadp htable newNode) := by
  obtain ⟨t, s, tree, hidx, -, ht, hown, hs⟩ :=
    unsharedtableindexExthash_spec hinv (nodeadp.hashobject newNode)
  unfold insertExthash
  rw [hidx]
  dsimp only
  rcases hs with rfl | ⟨b, m, hsb, htb, hm, hms, hshared⟩
  · -- the table may be doubled
    rw [if_neg (by simp), ht]
    dsimp only
    split
    · have hspec := insertAt_spec h (inv_doubletablesizeExthash hinv)
        (isOwner_doubletablesizeExthash hinv hown)
      unfold InsertSpec at hspec ⊢
      rwa [stored_doubletablesizeExthash] at hspec
    · exact insertAt_spec h hinv hown
  · have hs0 : s ≠ 0 := by
      have := Nat.two_pow_pos b
      omega
    have hb := hinv.shared_of_mod_eq hm hms hshared
    rw [hsb] at hb
    obtain ⟨k, htable', hkb, hunshare, -, hsplit, hinv'⟩ :=
      unsharebucketExthash_spec h hinv ht htb hb
    have hown' := hsplit.owner _ t hown
    -- `sharedidx` has got its own tree exactly if the new node has the bit
    have hbit : Owns htable' s ↔ (nodeadp.hashobject newNode).toNat.testBit k = true := by
      rw [hsplit.owns, or_iff_right hshared, hsb]
      obtain ⟨-, hset, hclear⟩ := testBit_of_mod_eq htb (hms.trans hsb)
      rcases Nat.lt_or_eq_of_le hkb with hlt | rfl
      · rw [hclear k hlt hsplit.lt_two_pow]
        have := Nat.pow_lt_pow_right (by omega : 1 < 2) hlt
        refine iff_of_false (fun heq => ?_) (by simp)
        omega
      · exact iff_of_true rfl hset
    rw [if_pos hs0, hunshare]
    dsimp only
    have hspec : ∀ i, IsOwner (Owns htable') htable'.level (nodeadp.hashobject newNode).toNat i →
        InsertSpec nodeadp htable newNode (insertAt nodeadp htable' i newNode) := by
      intro i hi
      have hspec := insertAt_spec h hinv' hi
      unfold InsertSpec at hspec ⊢
      rwa [hsplit.stored_eq] at hspec
    split
    next hsome =>
      rw [if_pos ⟨rfl, hbit.mp hsome⟩] at hown'
      rw [((hsplit.owns s).mp hsome).resolve_left hshared]
      exact hspec _ hown'
    next hnone =>
      rw [if_neg fun hand => hnone (hbit.mpr hand.2)] at hown'
      exact hspec t hown'

/-- **Removal** of a node of the table takes it out. -/
theorem removeExthash_spec (h : Lawful nodeadp) (hinv : Inv nodeadp htable) {delnode : ν}
    (hmem : delnode ∈ stored htable) :
    ∃ htable', removeExthash nodeadp htable delnode = some htable' ∧ Inv nodeadp htable' ∧
      stored htable' = stored htable \ {delnode} := by
  obtain ⟨t, s, tree, hidx, -, ht, hown, -⟩ :=
    unsharedtableindexExthash_spec hinv (nodeadp.hashobject delnode)
  have hsorted := hinv.sorted t tree ht
  have hnodup := hsorted.nodup h.order
  obtain ⟨xs, ys, hnodes⟩ := List.append_of_mem ((hinv.mem_stored_iff ht hown).mp hmem)
  have hremove := nodes_removeRedblacktree hnodes hnodup
  have hsub : (xs ++ ys).Sublist (nodes tree) := by
    rw [hnodes]
    exact List.Sublist.append_left (List.sublist_cons_self delnode ys) xs
  have hstored : stored (setTree htable t (removeRedblacktree tree delnode)) =
      stored htable \ {delnode} := by
    ext n
    rw [mem_stored_setTree hown.1.lt, hremove, Set.mem_sdiff, mem_stored_iff_or ht, hnodes,
      Set.mem_singleton_iff]
    rw [hnodes, List.nodup_append, List.nodup_cons] at hnodup
    constructor
    · rintro (hn | ⟨i, hi, hn⟩)
      · refine ⟨Or.inl ?_, ?_⟩
        · rw [List.mem_append] at hn ⊢
          exact hn.imp_right (List.mem_cons_of_mem delnode)
        · rintro rfl
          rcases List.mem_append.mp hn with hn | hn
          · exact hnodup.2.2 n hn n List.mem_cons_self rfl
          · exact hnodup.2.1.1 hn
      · refine ⟨Or.inr ⟨i, hi, hn⟩, ?_⟩
        rintro rfl
        exact hi ((hinv.owner i n hn).unique hown)
    · rintro ⟨hn | hn, hne⟩
      · refine Or.inl ?_
        rw [List.mem_append, List.mem_cons] at hn
        rw [List.mem_append]
        exact hn.imp_right fun hn => hn.resolve_left hne
      · exact Or.inr hn
  refine ⟨{ setTree htable t (removeRedblacktree tree delnode) with nrNodes := htable.nrNodes - 1 },
    ?_, hinv.setTree hown.1 ?_ (fun n hn => ?_) ?_, hstored⟩
  · unfold removeExthash
    rw [hidx]
    dsimp only
    rw [ht]
  · unfold Sorted
    rw [hremove]
    exact List.Pairwise.sublist hsub hsorted
  · rw [hremove] at hn
    exact hinv.owner t n (bucketNodes_eq ht ▸ hsub.subset hn)
  · have hcard := Set.ncard_sdiff_singleton_add_one hmem (finite_stored htable)
    rw [hstored, hinv.nr_nodes]
    omega

end Changes

/-- **A new table** is empty. -/
theorem initExthash_spec {initialSize maxSize : ℕ}
    (hinit : initExthash initialSize maxSize = some htable) :
    Inv nodeadp htable ∧ stored htable = ∅ := by
  unfold initExthash at hinit
  split at hinit
  swap
  · cases hinit
  have hhtable := Option.some_inj.mp hinit
  have htable_eq : htable.hashtable =
      List.replicate (lengthoftableExthash (Nat.log2 initialSize)) (.bucket nil) := by rw [← hhtable]
  have hlevel : htable.level = Nat.log2 initialSize := by rw [← hhtable]
  have hnr : htable.nrNodes = 0 := by rw [← hhtable]
  have htree : ∀ i root, treeAt htable i = some root → root = nil := by
    intro i root hroot
    rw [treeAt_eq_some, htable_eq] at hroot
    have hentry := List.eq_of_mem_replicate (List.mem_of_getElem? hroot)
    cases hentry
    rfl
  have hnodes : ∀ i n, n ∉ bucketNodes htable i := by
    intro i n hn
    obtain ⟨root, hroot⟩ := Option.isSome_iff_exists.mp (owns_of_mem_bucketNodes hn)
    rw [bucketNodes_eq hroot, htree i root hroot] at hn
    exact absurd hn List.not_mem_nil
  have hstored : stored htable = ∅ :=
    Set.eq_empty_iff_forall_notMem.mpr fun n ⟨i, hn⟩ => hnodes i n hn
  refine ⟨⟨?_, ?_, fun i root hroot => ?_, fun i n hn => absurd hn (hnodes i n), ?_⟩, hstored⟩
  · rw [htable_eq, hlevel, List.length_replicate, lengthoftableExthash, Nat.one_shiftLeft]
  · refine owns_iff.mpr ⟨nil, ?_⟩
    rw [htable_eq, List.getElem?_replicate_of_lt]
    rw [lengthoftableExthash, Nat.one_shiftLeft]
    exact Nat.two_pow_pos _
  · rw [htree i root hroot]
    exact List.Pairwise.nil
  · rw [hstored, Set.ncard_empty, hnr]

theorem Inv.eq_of_cmp_eq (h : Lawful nodeadp) (hinv : Inv nodeadp htable) {x y : ν}
    (hx : x ∈ stored htable) (hy : y ∈ stored htable) (heq : nodeadp.cmpObject x y = .eq) :
    x = y := by
  have := h.order.trans
  obtain ⟨i, hx⟩ := hx
  have hown := hinv.owner i x hx
  obtain ⟨tree, ht⟩ := Option.isSome_iff_exists.mp hown.1
  rw [h.hash_object x y heq] at hown
  rw [hinv.mem_stored_iff ht hown] at hy
  rw [bucketNodes_eq ht] at hx
  obtain ⟨a, ha, rfl⟩ := List.mem_map.mp hx
  obtain ⟨b, hb, rfl⟩ := List.mem_map.mp hy
  rcases (hinv.sorted i tree ht).ordered.lt_or_eq_or_lt ha hb with hlt | hab | hlt
  · rw [heq] at hlt
    cases hlt
  · rw [hab]
  · rw [Std.OrientedCmp.eq_symm heq] at hlt
    cases hlt

end Specs

/-! ## A set of nodes -/

/-- The calls on a table. -/
inductive Op (κ ν : Type*)
  | insert (newNode : ν)
  | remove (delnode : ν)
  | find (key : κ)

/-- What a call returns: success, an error, or the node that was found; or it does not return, or
goes beyond the table. -/
inductive Result (ν : Type*)
  | done
  | error (e : Errno)
  | found (n : ν)
  | undefined
  deriving DecidableEq

section Runs

variable [DecidableEq ν] (nodeadp : HashAdapt κ ν)

/-- A call. -/
def step (htable : Exthash ν) : Op κ ν → Result ν × Exthash ν
  | .insert newNode =>
    match insertExthash nodeadp htable newNode with
    | none => (.undefined, htable)
    | some (some err, htable) => (.error err, htable)
    | some (none, htable) => (.done, htable)
  | .remove delnode =>
    match removeExthash nodeadp htable delnode with
    | none => (.undefined, htable)
    | some htable => (.done, htable)
  | .find key =>
    match findExthash nodeadp htable key with
    | none => (.undefined, htable)
    | some (.error err) => (.error err, htable)
    | some (.ok n) => (.found n, htable)

omit [DecidableEq ν] in
/-- Only nodes of the table are removed. -/
def Allowed (htable : Exthash ν) : Op κ ν → Prop
  | .remove delnode => delnode ∈ stored htable
  | _ => True

omit [DecidableEq ν] in
/-- The nodes of a set after a call. -/
def nodesAfter (S : Set ν) : Op κ ν → Set ν
  | .insert newNode => {n | n ∈ S ∨ n = newNode ∧ ∀ m ∈ S, nodeadp.cmpObject newNode m ≠ .eq}
  | .remove delnode => S \ {delnode}
  | .find _ => S

omit [DecidableEq ν] in
/-- What a set with the nodes `S` returns; of a removal this is said only if the node is in the
set. -/
def Answer (S : Set ν) : Op κ ν → Result ν → Prop
  | .insert newNode, out =>
    out = .error .EEXIST ∧ (∃ m ∈ S, nodeadp.cmpObject newNode m = .eq) ∨
      out = .done ∧ ∀ m ∈ S, nodeadp.cmpObject newNode m ≠ .eq
  | .remove delnode, out => delnode ∈ S → out = .done
  | .find key, out =>
    out = .error .ESRCH ∧ (∀ m ∈ S, nodeadp.cmpKeyObject key m ≠ .eq) ∨
      ∃ m ∈ S, nodeadp.cmpKeyObject key m = .eq ∧ out = .found m

variable {nodeadp} {htable : Exthash ν}

theorem answer_step (h : Lawful nodeadp) (hinv : Inv nodeadp htable) (op : Op κ ν) :
    Answer nodeadp (stored htable) op (step nodeadp htable op).1 := by
  cases op with
  | insert newNode =>
    obtain ⟨out, htable', hout, -, ⟨rfl, hex, -⟩ | ⟨rfl, hno, -⟩⟩ :=
      insertExthash_spec h hinv newNode
    · exact Or.inl ⟨by rw [step, hout], hex⟩
    · exact Or.inr ⟨by rw [step, hout], hno⟩
  | remove delnode =>
    intro hmem
    obtain ⟨htable', hout, -, -⟩ := removeExthash_spec h hinv hmem
    rw [step, hout]
  | find key =>
    rcases findExthash_spec h hinv key with ⟨hout, hno⟩ | ⟨m, hm, heq, hout⟩
    · exact Or.inl ⟨by rw [step, hout], hno⟩
    · exact Or.inr ⟨m, hm, heq, by rw [step, hout]⟩

/-- **A call** keeps the invariant, and changes the nodes as it changes a set. -/
theorem step_spec (h : Lawful nodeadp) (hinv : Inv nodeadp htable) {op : Op κ ν}
    (hop : Allowed htable op) : Inv nodeadp (step nodeadp htable op).2 ∧
      stored (step nodeadp htable op).2 = nodesAfter nodeadp (stored htable) op := by
  cases op with
  | insert newNode =>
    obtain ⟨out, htable', hout, hinv', ⟨rfl, ⟨m, hm, heq⟩, hstored⟩ | ⟨rfl, hno, hstored⟩⟩ :=
      insertExthash_spec h hinv newNode
    · rw [step, hout]
      refine ⟨hinv', hstored.trans ?_⟩
      ext n
      exact ⟨Or.inl, fun hn => hn.resolve_right fun hnew => hnew.2 m hm heq⟩
    · rw [step, hout]
      refine ⟨hinv', hstored.trans ?_⟩
      ext n
      rw [Set.mem_insert_iff, or_comm]
      exact or_congr_right (and_iff_left hno).symm
  | remove delnode =>
    obtain ⟨htable', hout, hinv', hstored⟩ := removeExthash_spec h hinv hop
    rw [step, hout]
    exact ⟨hinv', hstored⟩
  | find key =>
    have hsame : (step nodeadp htable (.find key)).2 = htable := by
      rw [step]
      split
      · rfl
      · rfl
      · rfl
    rw [hsame]
    exact ⟨hinv, rfl⟩

/-- **Runs** keep the invariant, and the nodes are those that a set has. -/
theorem run_spec (h : Lawful nodeadp) (hinv : Inv nodeadp htable) {ops : List (Op κ ν)}
    (hok : Along (step nodeadp) Allowed htable ops) :
    Inv nodeadp (run (step nodeadp) htable ops).2 ∧
      stored (run (step nodeadp) htable ops).2 = ops.foldl (nodesAfter nodeadp) (stored htable) := by
  induction ops generalizing htable with
  | nil => exact ⟨hinv, rfl⟩
  | cons op ops ih =>
    obtain ⟨hinv', hstored⟩ := step_spec h hinv hok.1
    obtain ⟨hinv'', hstored'⟩ := ih hinv' hok.2
    rw [hstored] at hstored'
    exact ⟨hinv'', hstored'⟩

/-- A table that is initialized and then changed by calls. -/
def Reachable (nodeadp : HashAdapt κ ν) (htable : Exthash ν) : Prop :=
  ∃ initialSize maxSize start ops, initExthash initialSize maxSize = some start ∧
    Along (step nodeadp) Allowed start ops ∧ (run (step nodeadp) start ops).2 = htable

theorem Reachable.inv (h : Lawful nodeadp) (hreach : Reachable nodeadp htable) :
    Inv nodeadp htable := by
  obtain ⟨initialSize, maxSize, start, ops, hinit, hok, rfl⟩ := hreach
  exact (run_spec h (initExthash_spec hinit).1 hok).1

/-- **`exthash.c` is a set of nodes** with different keys. After every sequence of calls on a new
table the nodes are those that were inserted and not removed again, they are counted, and every call
returns what it returns for the set of these nodes. -/
theorem exthash_exact (h : Lawful nodeadp) {initialSize maxSize : ℕ}
    (hinit : initExthash initialSize maxSize = some htable) {ops : List (Op κ ν)}
    (hok : Along (step nodeadp) Allowed htable ops) :
    stored (run (step nodeadp) htable ops).2 = ops.foldl (nodesAfter nodeadp) ∅ ∧
      (run (step nodeadp) htable ops).2.nrNodes =
        (stored (run (step nodeadp) htable ops).2).ncard ∧
      (∀ x ∈ stored (run (step nodeadp) htable ops).2,
        ∀ y ∈ stored (run (step nodeadp) htable ops).2, nodeadp.cmpObject x y = .eq → x = y) ∧
      ∀ op, Answer nodeadp (stored (run (step nodeadp) htable ops).2) op
        (step nodeadp (run (step nodeadp) htable ops).2 op).1 := by
  obtain ⟨hinv, hempty⟩ := initExthash_spec hinit
  obtain ⟨hinv', hstored⟩ := run_spec h hinv hok
  rw [hempty] at hstored
  exact ⟨hstored, hinv'.nr_nodes, fun x hx y hy => hinv'.eq_of_cmp_eq h hx hy,
    fun op => answer_step h hinv' op⟩

/-- The numbers in their order, with themselves as hash values. -/
def natAdapt : HashAdapt ℕ ℕ where
  cmpKeyObject := compare
  cmpObject := compare
  hashobject := UInt64.ofNat
  hashkey := UInt64.ofNat

theorem lawful_natAdapt : Lawful natAdapt where
  order := ⟨show Std.TransCmp (compare : ℕ → ℕ → Ordering) from inferInstance,
    show ∀ key : ℕ, SearchTree.Cut compare (compare key) from SearchTree.cut_cmp⟩
  hash_object := fun _ _ heq => congrArg UInt64.ofNat (Nat.compare_eq_eq.mp heq)
  hash_key := fun _ _ heq => congrArg UInt64.ofNat (Nat.compare_eq_eq.mp heq)

/-- A table of one entry grows to four: the insertion of 1 doubles it, that of 3 unshares the second
entry, that of 2 doubles it again, and that of 6 unshares the third entry. -/
def growing : List (Op ℕ ℕ) :=
  [.insert 0, .insert 4, .insert 8, .insert 1, .insert 3, .insert 2, .insert 6, .insert 4, .remove 4,
    .find 9]

/-- A table that is doubled twice, with an insertion that fails and a removal. -/
theorem exthash_exact_growing :
    (stored (run (step natAdapt) ⟨[.bucket nil], 0, 0, 2⟩ growing).2).ncard = 6 := by
  have hinit : initExthash 1 4 = some (⟨[.bucket nil], 0, 0, 2⟩ : Exthash ℕ) := by decide +kernel
  have hok : Along (step natAdapt) Allowed ⟨[.bucket nil], 0, 0, 2⟩ growing :=
    ⟨True.intro, True.intro, True.intro, True.intro, True.intro, True.intro, True.intro, True.intro,
      ⟨0, by decide +kernel⟩, True.intro, True.intro⟩
  have hcount : (run (step natAdapt) ⟨[.bucket nil], 0, 0, 2⟩ growing).2.nrNodes = 6 := by
    decide +kernel
  exact (exthash_exact lawful_natAdapt hinit hok).2.1.symm.trans hcount

/-- **The directory**: the first entry is not shared, every node is in the tree of the first entry of
its chain that is not shared and in no other one, the search for this entry ends, and if it meets a
shared entry, then the loop of `unsharebucket_exthash` ends at a shared entry of the table, which
shares the nodes with the old one. -/
theorem exthash_directory (h : Lawful nodeadp) (hreach : Reachable nodeadp htable) :
    htable.hashtable.length = 2 ^ htable.level ∧ htable.hashtable[0]? ≠ some .shared ∧
      (∀ n ∈ stored htable, ∃ i, n ∈ bucketNodes htable i) ∧
      (∀ n i, n ∈ bucketNodes htable i →
        (chain ((nodeadp.hashobject n).toNat &&& (2 ^ htable.level - 1))).find? (Owns htable) =
          some i) ∧
      (∀ hashvalue, ∃ tabidx sharedidx,
        unsharedtableindexExthash htable hashvalue = some (tabidx, sharedidx)) ∧
      ∀ newNode tabidx sharedidx,
        unsharedtableindexExthash htable (nodeadp.hashobject newNode) = some (tabidx, sharedidx) →
        sharedidx ≠ 0 → ∃ splitidx highbit htable',
          splitidxLoop htable.hashtable tabidx (htable.level + 1)
            (if tabidx ≠ 0 then 2 <<< tabidx.log2 else 1) = some (splitidx, highbit) ∧
          htable.hashtable[splitidx]? = some .shared ∧
          unsharebucketExthash nodeadp htable tabidx = some (none, htable') ∧
          (∀ n, n ∈ bucketNodes htable tabidx ↔
            n ∈ bucketNodes htable' tabidx ∨ n ∈ bucketNodes htable' splitidx) ∧
          ∀ n ∈ bucketNodes htable' tabidx, n ∉ bucketNodes htable' splitidx := by
  have hinv := hreach.inv h
  refine ⟨hinv.length_eq, fun hshared => ?_, fun n hn => hn, fun n i hn => ?_, fun hashvalue => ?_,
    fun newNode tabidx sharedidx hidx hs0 => ?_⟩
  · obtain ⟨root, hroot⟩ := owns_iff.mp hinv.owns_zero
    rw [hshared] at hroot
    cases hroot
  · obtain ⟨t, s, tree, -, hfind, -, hown, -⟩ :=
      unsharedtableindexExthash_spec hinv (nodeadp.hashobject n)
    rw [hfind, (hinv.owner i n hn).unique hown]
  · obtain ⟨t, s, tree, hidx, -⟩ := unsharedtableindexExthash_spec hinv hashvalue
    exact ⟨t, s, hidx⟩
  · obtain ⟨t, s, tree, hidx', -, ht, hown, hs⟩ :=
      unsharedtableindexExthash_spec hinv (nodeadp.hashobject newNode)
    rw [hidx] at hidx'
    obtain ⟨rfl, rfl⟩ := Prod.ext_iff.mp (Option.some_inj.mp hidx')
    obtain ⟨b, m, hsb, htb, hm, hms, hshared⟩ := hs.resolve_left hs0
    have hb := hinv.shared_of_mod_eq hm hms hshared
    rw [hsb] at hb
    obtain ⟨k, htable', -, hunshare, hloop, hsplit, -⟩ := unsharebucketExthash_spec h hinv ht htb hb
    refine ⟨tabidx + 2 ^ k, 2 ^ k, htable', hloop, hsplit.shared, hunshare, fun n => ?_,
      fun n hn hn' => ?_⟩
    · rw [hsplit.stay, hsplit.move, ← and_or_left]
      exact (and_iff_left (em' _)).symm
    · exact ((hsplit.stay n).mp hn).2 ((hsplit.move n).mp hn').2

/-- The table before the insertion of 6: the third entry is shared with the first one. -/
theorem exthash_directory_growing : ∃ htable, Reachable natAdapt htable ∧ htable.level = 2 ∧
    htable.hashtable[2]? = some .shared ∧
      unsharedtableindexExthash htable 6 = some (0, 2) ∧ htable.hashtable[0]? ≠ some .shared := by
  have hreach : Reachable natAdapt
      (run (step natAdapt) ⟨[.bucket nil], 0, 0, 2⟩ (growing.take 6)).2 :=
    ⟨1, 4, ⟨[.bucket nil], 0, 0, 2⟩, growing.take 6, by decide +kernel,
      ⟨True.intro, True.intro, True.intro, True.intro, True.intro, True.intro, True.intro⟩, rfl⟩
  exact ⟨_, hreach, by decide +kernel, by decide +kernel, by decide +kernel,
    (exthash_directory lawful_natAdapt hreach).2.1⟩

end Runs

end Exthash
end CKern
