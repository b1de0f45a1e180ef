import CKern.Ds.Inmem.ArraysfIter
import CKern.Ds.Inmem.Arraystf

/-!
# `ds/inmem/arraystf.c`: the iterator

It is the one of `arraysf.c` with other nodes.

* `trees`: the nodes of the array as trees for the walk.
* `nextArraystfiterator`: the iterator is the walk over the entries of `root`.
* `Represents.iterates`: the iterator returns every stored node once.
* `iterators_exact`: this and the same for `arraysf.c`, all along the runs.
* `not_ascending`: a lost prefix puts the positions out of order.
-/

namespace CKern
namespace Arraystf

open Function Refinement Unode TreeWalk Iteration

variable {α : Type*}

attribute [local instance] neZero_four

/-! ## The nodes as trees -/

namespace Unode

/-- The cases of `isbranchtype_arraystfunode`. -/
def view : Unode α → View (Unode α) (Node α) 4
  | null => .empty
  | node n => .node n
  | branch _ _ _ child => .branch child

/-- The nodes that are stored, from left to right. -/
def leaves : Unode α → List (Node α)
  | null => []
  | node n => [n]
  | branch _ _ _ child => (List.ofFn fun i => leaves (child i)).flatten

/-- The number of the branches and children. -/
def size : Unode α → ℕ
  | branch _ _ _ child => (List.ofFn fun i => size (child i) + 1).sum
  | _ => 0

/-- The number of the branches on the longest way down. -/
def depth : Unode α → ℕ
  | branch _ _ _ child =>
    max (max (depth (child 0)) (depth (child 1))) (max (depth (child 2)) (depth (child 3))) + 1
  | _ => 0

theorem depth_child_lt (o s used : ℕ) (child : Fin 4 → Unode α) (i : Fin 4) :
    depth (child i) < depth (branch o s used child) := by
  rw [depth]
  fin_cases i <;> simp only [Fin.reduceFinMk, Fin.zero_eta, Fin.mk_one] <;> omega

end Unode

/-- The nodes of the array as trees for the walk. -/
def trees (α : Type*) : Trees (Unode α) (Node α) 4 where
  view := view
  leaves := leaves
  size := size
  depth := depth
  leaves_empty t h := by
    cases t with
    | null => rfl
    | node n => cases h
    | branch o s used child => cases h
  leaves_node t a h := by
    cases t with
    | null => cases h
    | node n =>
      cases h
      rfl
    | branch o s used child => cases h
  leaves_branch t child h := by
    cases t with
    | null => cases h
    | node n => cases h
    | branch o s used child' =>
      cases h
      rw [leaves, List.flatMap_def, List.map_ofFn]
      rfl
  size_branch t child h := by
    cases t with
    | null => cases h
    | node n => cases h
    | branch o s used child' =>
      cases h
      rw [List.map_ofFn, size]
      exact Nat.le_refl _
  depth_branch t child h i := by
    cases t with
    | null => cases h
    | node n => cases h
    | branch o s used child' =>
      cases h
      exact depth_child_lt o s used child i

/-! ## The iterator -/

/-- `initfirst_arraystfiterator`. -/
def initfirstArraystfiterator : Walk (Unode α) 4 := ⟨[], 0⟩

/-- `next_arraystfiterator`, if there is memory for `avail` positions on the stack. -/
def nextArraystfiterator (avail : ℕ) (array : Arraystf α) (iter : Walk (Unode α) 4) :
    Option (Node α) × Walk (Unode α) 4 :=
  Walk.next (trees α) avail array.toplevelsize array.root iter

/-! ## What is below a node -/

namespace Unode

theorem mem_leaves {t : Unode α} {n : Node α} : n ∈ leaves t ↔ Stores t n := by
  induction t with
  | null => simp [leaves]
  | node m =>
    rw [leaves, List.mem_singleton, stores_node]
    exact eq_comm
  | branch o s used child ih =>
    rw [leaves, List.mem_flatten, stores_branch]
    constructor
    · rintro ⟨l, hl, hn⟩
      obtain ⟨i, rfl⟩ := List.mem_ofFn.mp hl
      exact ⟨i, (ih i).mp hn⟩
    · rintro ⟨i, hi⟩
      exact ⟨leaves (child i), List.mem_ofFn.mpr ⟨i, rfl⟩, (ih i).mpr hi⟩

theorem Wf.nodup {t : Unode α} (h : Wf t) :
    (leaves t).Pairwise fun m n => m.addr ≠ n.addr := by
  induction t with
  | null => exact List.Pairwise.nil
  | node m => exact List.pairwise_singleton _ _
  | branch o s used child ih =>
    rw [leaves, List.pairwise_flatten]
    refine ⟨fun l hl => ?_, ?_⟩
    · obtain ⟨i, rfl⟩ := List.mem_ofFn.mp hl
      exact ih i (h.2 i)
    · rw [List.pairwise_ofFn]
      intro i j hij m hm n hn heq
      -- the digit that the branch tests tells the child
      have hm := h.1.index i m (mem_leaves.mp hm)
      have hn := h.1.index j n (mem_leaves.mp hn)
      rw [heq, hn] at hm
      exact absurd hm.symm (Fin.ne_of_lt hij)

end Unode

/-! ## The entries of the root -/

/-- Every node is stored below the entry of the root to which its key leads. -/
def Indexed (array : Arraystf α) : Prop :=
  ∀ i n, Stores (array.root i) n → rootindex array n.addr = i

section Step

variable {array : Arraystf α} {m : List UInt8 → Option (Node α)} (h : Represents array m)

include h

theorem Represents.stores_tryinsert (new : Node α) (nodeadp : Option (α → α)) {i : ℕ} {n : Node α}
    (hn : Stores ((Arraystf.tryinsertArraystf array new nodeadp).2.root i) n) :
    Stores (array.root i) n ∨ i = rootindex array new.addr ∧ n.addr = new.addr := by
  unfold Arraystf.tryinsertArraystf at hn
  by_cases hsmall : new.addr.length < SIZE_MAX
  swap
  · rw [findArraystf_of_not_lt hsmall] at hn
    exact Or.inl hn
  cases hm : m new.addr with
  | some n' =>
    rw [h.find_some hm] at hn
    exact Or.inl hn
  | none =>
    rw [h.find_none hm hsmall] at hn
    dsimp only at hn
    have hfree : ∀ n, Stores (array.root (rootindex array new.addr)) n → n.addr ≠ new.addr := by
      intro n hst ha
      have := (h.stores new.addr n).mpr ⟨ha, hst⟩
      rw [hm] at this
      exact Option.some_ne_none n this.symm
    obtain ⟨t, hok, -, hst⟩ := insertTree_spec
      (⟨new.addr, (nodeadp.getD id) new.object⟩ : Node α) (h.wf (rootindex array new.addr))
      (h.small _) hsmall hfree (firstKeyval_eq new.addr) rfl
    rw [hok] at hn
    by_cases hi : i = rootindex array new.addr
    · subst hi
      dsimp only at hn
      rw [update_self] at hn
      rcases (hst n).mp hn with hold | rfl
      · exact Or.inl hold
      · exact Or.inr ⟨rfl, rfl⟩
    · dsimp only at hn
      rw [update_of_ne hi] at hn
      exact Or.inl hn

theorem Represents.stores_tryremove (addr : List UInt8) {i : ℕ} {n : Node α}
    (hn : Stores ((Arraystf.tryremoveArraystf array addr).2.root i) n) :
    Stores (array.root i) n := by
  unfold Arraystf.tryremoveArraystf at hn
  by_cases hsmall : addr.length < SIZE_MAX
  swap
  · rw [findArraystf_of_not_lt hsmall] at hn
    exact hn
  cases hm : m addr with
  | none =>
    rw [h.find_none hm hsmall] at hn
    exact hn
  | some n' =>
    rw [h.find_some hm] at hn
    dsimp only at hn
    obtain ⟨ha, hn'⟩ := (h.stores addr n').mp hm
    obtain ⟨t, hok, -, hst⟩ := removeTree_spec (h.wf _) hn' ha (firstKeyval_eq addr) rfl
    rw [hok] at hn
    by_cases hi : i = rootindex array addr
    · subst hi
      dsimp only at hn
      rw [update_self] at hn
      exact ((hst n).mp hn).1
    · dsimp only at hn
      rw [update_of_ne hi] at hn
      exact hn

end Step

theorem step_root (array : Arraystf α) (op : Op α) :
    (step array op).2.toplevelsize = array.toplevelsize ∧
      (step array op).2.rootidxshift = array.rootidxshift := by
  have hinsert : ∀ new nodeadp,
      (tryinsertArraystf array new nodeadp).2.toplevelsize = array.toplevelsize ∧
        (tryinsertArraystf array new nodeadp).2.rootidxshift = array.rootidxshift := by
    intro new nodeadp
    unfold tryinsertArraystf
    split
    · exact ⟨rfl, rfl⟩
    · dsimp only
      split <;> exact ⟨rfl, rfl⟩
    · exact ⟨rfl, rfl⟩
  have hremove : ∀ addr, (tryremoveArraystf array addr).2.toplevelsize = array.toplevelsize ∧
      (tryremoveArraystf array addr).2.rootidxshift = array.rootidxshift := by
    intro addr
    unfold tryremoveArraystf
    split
    · exact ⟨rfl, rfl⟩
    · split <;> exact ⟨rfl, rfl⟩
  cases op with
  | tryinsert new nodeadp => exact hinsert new nodeadp
  | insert new nodeadp => exact hinsert new nodeadp
  | tryremove addr => exact hremove addr
  | remove addr => exact hremove addr

theorem Represents.indexed_step {array : Arraystf α} {m : List UInt8 → Option (Node α)}
    (h : Represents array m) (hi : Indexed array) (op : Op α) : Indexed (step array op).2 := by
  obtain ⟨htop, hshift⟩ := step_root array op
  intro i n hn
  have hindex : rootindex (step array op).2 n.addr = rootindex array n.addr := by
    unfold rootindex
    rw [hshift]
  rw [hindex]
  have hinsert : ∀ new : Node α, Stores (array.root i) n ∨ i = rootindex array new.addr ∧
      n.addr = new.addr → rootindex array n.addr = i := by
    rintro new (hold | ⟨rfl, ha⟩)
    · exact hi i n hold
    · rw [ha]
  cases op with
  | tryinsert new nodeadp => exact hinsert new (h.stores_tryinsert new nodeadp hn)
  | insert new nodeadp => exact hinsert new (h.stores_tryinsert new nodeadp hn)
  | tryremove addr => exact hi i n (h.stores_tryremove addr hn)
  | remove addr => exact hi i n (h.stores_tryremove addr hn)

theorem exists_toplevelsize {toplevelsize : ℕ} {array : Arraystf α}
    (h : newArraystf α toplevelsize = .ok array) :
    ∃ k ≤ 23, array.toplevelsize = 2 ^ k ∧ array.rootidxshift = 24 - k := by
  obtain ⟨size, hne, hsize⟩ : ∃ size, size ≠ 0 ∧
      (if toplevelsize = 0 then 1 else toplevelsize) = size := by
    by_cases h0 : toplevelsize = 0
    · exact ⟨1, Nat.one_ne_zero, if_pos h0⟩
    · exact ⟨toplevelsize, h0, if_neg h0⟩
  unfold newArraystf at h
  dsimp only at h
  rw [hsize] at h
  split_ifs at h with hbig
  cases h
  rw [Nat.not_lt, show 0x00800000 = 2 ^ 23 from rfl] at hbig
  have hpow : ∃ k, makepowerof2 size = 2 ^ k := by
    unfold makepowerof2 at hbig ⊢
    split_ifs at hbig ⊢ with hcond
    · exact ⟨_, rfl⟩
    · have hzero : size &&& (size - 1) = 0 := by
        by_contra hne'
        have : size < 2 ^ 31 := by omega
        exact hcond ⟨hne', this⟩
      exact (Nat.and_sub_one_eq_zero_iff_isPowerOfTwo hne).mp hzero
  obtain ⟨k, hk⟩ := hpow
  refine ⟨k, ?_, hk, ?_⟩
  · rw [hk] at hbig
    exact (Nat.pow_le_pow_iff_right (by norm_num)).mp hbig
  · rw [hk, Nat.log2_two_pow]

theorem rootindex_lt {array : Arraystf α} {k : ℕ} (hk : k ≤ 23)
    (hsize : array.toplevelsize = 2 ^ k) (hshift : array.rootidxshift = 24 - k)
    (addr : List UInt8) : rootindex array addr < array.toplevelsize := by
  have hpow : 2 ^ 24 = 2 ^ (24 - k) * 2 ^ k := by
    rw [← Nat.pow_add]
    congr 1
    omega
  have hthree : ∀ a b c : UInt8,
      ((a.toNat <<< 8 + b.toNat) <<< 8) + c.toNat < 2 ^ 24 := by
    intro a b c
    have := a.toNat_lt
    have := b.toNat_lt
    have := c.toNat_lt
    rw [Nat.shiftLeft_eq, Nat.shiftLeft_eq]
    omega
  unfold rootindex
  rw [hsize, hshift, Nat.shiftRight_eq_div_pow]
  refine Nat.div_lt_of_lt_mul ?_
  rw [← hpow]
  match addr with
  | b0 :: b1 :: b2 :: _ => exact hthree b0 b1 b2
  | [b0, b1] => exact hthree b0 b1 0
  | [b0] =>
    have := b0.toNat_lt
    simp only [Nat.shiftLeft_eq]
    omega
  | [] => exact Nat.two_pow_pos 24

/-! ## The iteration -/

/-- The iterator returns every node of the map once, and no other, and then none. -/
def IteratesExactly (avail : ℕ) (array : Arraystf α) (m : List UInt8 → Option (Node α))
    (l : List (Node α)) : Prop :=
  Yields (nextArraystfiterator avail array) initfirstArraystfiterator l ∧
    (l.map Node.addr).Nodup ∧ ∀ n, n ∈ l ↔ m n.addr = some n

/-- **The iterator returns every stored node once**, if there is memory for its stack. -/
theorem Represents.iterates {array : Arraystf α} {m : List UInt8 → Option (Node α)}
    (h : Represents array m) (hi : Indexed array) {k : ℕ} (hk : k ≤ 23)
    (hsize : array.toplevelsize = 2 ^ k) (hshift : array.rootidxshift = 24 - k) {avail : ℕ}
    (havail : ∀ i, depth (array.root i) ≤ avail) : ∃ l, IteratesExactly avail array m l := by
  refine ⟨_, yields_leaves array.toplevelsize array.root fun i _ => havail i, ?_, fun n => ?_⟩
  · -- nodes with one key are below one entry, and there the keys are different
    refine List.pairwise_map.mpr (List.pairwise_flatMap.mpr ⟨fun t ht => ?_, ?_⟩)
    · obtain ⟨i, -, rfl⟩ := List.mem_map.mp ht
      exact (h.wf i).nodup
    · refine List.pairwise_map.mpr (List.pairwise_lt_range.imp fun {i j} hij n hn n' hn' heq => ?_)
      have hn := hi i n (mem_leaves.mp hn)
      have hn' := hi j n' (mem_leaves.mp hn')
      rw [heq] at hn
      omega
  · rw [h.stores, List.mem_flatMap]
    constructor
    · rintro ⟨t, ht, hn⟩
      obtain ⟨i, -, rfl⟩ := List.mem_map.mp ht
      have hn : Stores (array.root i) n := mem_leaves.mp hn
      rw [hi i n hn]
      exact ⟨rfl, hn⟩
    · rintro ⟨-, hn⟩
      exact ⟨_, List.mem_map.mpr
        ⟨_, List.mem_range.mpr (rootindex_lt hk hsize hshift n.addr), rfl⟩, mem_leaves.mpr hn⟩

theorem run_iterates {toplevelsize : ℕ} {array : Arraystf α}
    (h : newArraystf α toplevelsize = .ok array) (ops : List (Op α)) {avail : ℕ}
    (havail : ∀ i, depth ((run step array ops).2.root i) ≤ avail) :
    ∃ l, IteratesExactly avail (run step array ops).2 (run specStep (fun _ => none) ops).2 l := by
  let R (a : Arraystf α) (m : List UInt8 → Option (Node α)) : Prop :=
    Represents a m ∧ Indexed a ∧ a.toplevelsize = array.toplevelsize ∧
      a.rootidxshift = array.rootidxshift
  have hstep : ∀ (a : Arraystf α) (m : List UInt8 → Option (Node α)) (op : Op α), R a m →
      True → (step a op).1 = (specStep m op).1 ∧ R (step a op).2 (specStep m op).2 := by
    rintro a m op ⟨hrep, hi, htop, hshift⟩ -
    obtain ⟨hout, hrep'⟩ := represents_step hrep
    obtain ⟨htop', hshift'⟩ := step_root a op
    exact ⟨hout, hrep', hrep.indexed_step hi op, htop'.trans htop, hshift'.trans hshift⟩
  have hempty : Indexed array := by
    intro i n hn
    unfold newArraystf at h
    dsimp only at h
    generalize makepowerof2 _ = size at h
    split_ifs at h
    cases h
    exact hn.elim
  obtain ⟨-, hrep, hi, htop, hshift⟩ := run_refines hstep
    ⟨represents_newArraystf h, hempty, rfl, rfl⟩ (Along.trivial array ops)
  obtain ⟨k, hk, hsize, hidx⟩ := exists_toplevelsize h
  exact hrep.iterates hi hk (htop.trans hsize) (hshift.trans hidx) havail

/-- **The iterators of `arraysf.c` and `arraystf.c`** return every stored node once.  Those of an
array whose root tests the upper bits of the position come in ascending order.  For `arraysf.c` this
holds all along the runs in which no insertion loses a prefix; for `arraystf.c` there has to be
memory for the stack. -/
theorem iterators_exact {β : Type*} {toplevelsize posshift toplevelsize' : ℕ}
    {array : Arraysf α} (h : Arraysf.newArraysf α toplevelsize posshift = .ok array)
    (ops : List (Arraysf.Op α)) (hops : Along Arraysf.step Arraysf.KeepsPrefix array ops)
    {array' : Arraystf β} (h' : newArraystf β toplevelsize' = .ok array') (ops' : List (Op β))
    {avail : ℕ} (hpage : Arraysf.firstPage ≤ avail)
    (hdepth : ∀ i, depth ((run step array' ops').2.root i) ≤ avail) :
    (∃ l, Arraysf.IteratesExactly avail (run Arraysf.step array ops).2
        (run Arraysf.specStep (fun _ => none) ops).2 l ∧
      (array.posshift + Nat.log2 array.toplevelsize = 64 →
        l.Pairwise fun n n' => n.pos < n'.pos)) ∧
    ∃ l, IteratesExactly avail (run step array' ops').2 (run specStep (fun _ => none) ops').2 l :=
  ⟨Arraysf.run_iterates h ops hops hpage, run_iterates h' ops' hdepth⟩

/-- Three nodes in an array whose root tests the highest bit, and two keys with the same digits. -/
theorem iterators_exact_two :
    (∃ l, Arraysf.IteratesExactly Arraysf.firstPage
        (run Arraysf.step ⟨0, 2, 63, fun _ => Arraysf.Unode.null⟩ [.insert ⟨2 ^ 63, 7⟩ none,
          .insert ⟨5, 8⟩ none, .insert ⟨4, 9⟩ none]).2
        (run Arraysf.specStep (fun _ => none) [.insert ⟨2 ^ 63, 7⟩ none,
          .insert ⟨5, 8⟩ none, .insert ⟨4, 9⟩ none]).2 l ∧
      (63 + Nat.log2 2 = 64 → l.Pairwise fun n n' => n.pos < n'.pos)) ∧
    ∃ l, IteratesExactly Arraysf.firstPage
      (run step ⟨0, 1, 24, fun _ => null⟩ [.insert ⟨[], 7⟩ none, .insert ⟨[0], 8⟩ none]).2
      (run specStep (fun _ => none) [.insert ⟨[], 7⟩ none, .insert ⟨[0], 8⟩ none]).2 l := by
  have h : Arraysf.newArraysf ℕ 2 63 = .ok ⟨0, 2, 63, fun _ => Arraysf.Unode.null⟩ := rfl
  have h' : newArraystf ℕ 1 = .ok ⟨0, 1, 24, fun _ => null⟩ := rfl
  refine iterators_exact h _ (by decide +kernel) h' _ (Nat.le_refl _) fun i => ?_
  cases i with
  | zero => decide +kernel
  | succ i => exact Nat.zero_le _

/-- The branch on the bits of 0 and 1 takes the position `2 ^ 32 + 2` at its third child, and then
the position 3 at its fourth one. -/
theorem not_ascending : ∃ (array : Arraysf Unit) (ops : List (Arraysf.Op Unit)),
    Arraysf.newArraysf Unit 2 63 = .ok array ∧
      array.posshift + Nat.log2 array.toplevelsize = 64 ∧
      ∀ l, Yields (Arraysf.nextArraysfiterator Arraysf.firstPage (run Arraysf.step array ops).2)
          Arraysf.initfirstArraysfiterator l → ¬ l.Pairwise fun n n' => n.pos < n'.pos := by
  refine ⟨⟨0, 2, 63, fun _ => Arraysf.Unode.null⟩, [.insert ⟨0, ()⟩ none, .insert ⟨1, ()⟩ none,
    .insert ⟨2 ^ 32 + 2, ()⟩ none, .insert ⟨3, ()⟩ none], rfl, by decide, fun l hl => ?_⟩
  rw [hl.unique (yields_leaves 2 _ (by decide +kernel))]
  decide +kernel

end Arraystf
end CKern
