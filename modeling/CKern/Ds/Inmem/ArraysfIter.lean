import CKern.Library.TreeWalk
import CKern.Ds.Inmem.Arraysf

/-!
# `ds/inmem/arraysf.c`: the iterator

* `trees`: the nodes of the array as trees for the walk.
* `nextArraysfiterator`: the iterator is the walk over the entries of `root`.
* `Indexed`: a node is stored below the entry of the root to which its position leads.
* `Represents.iterates`: the iterator returns every stored node once, and in ascending order if the
  root tests the upper bits of the position.
* `run_iterates`: all along a run that loses no prefix.
-/

namespace CKern
namespace Arraysf

open Function Refinement Unode TreeWalk Iteration

variable {α : Type*}

/-- The number of children of a branch. -/
local instance neZero_four : NeZero 4 := ⟨by decide⟩

/-! ## The nodes as trees -/

namespace Unode

/-- The cases of `isbranchtype_arraysfunode`. -/
def view : Unode α → View (Unode α) (Node α) 4
  | null => .empty
  | node n => .node n
  | branch _ _ child => .branch child

/-- The nodes that are stored, from left to right. -/
def leaves : Unode α → List (Node α)
  | null => []
  | node n => [n]
  | branch _ _ child => (List.ofFn fun i => leaves (child i)).flatten

/-- The number of the branches and children. -/
def size : Unode α → ℕ
  | branch _ _ child => (List.ofFn fun i => size (child i) + 1).sum
  | _ => 0

/-- The number of the branches on the longest way down. -/
def depth : Unode α → ℕ
  | branch _ _ child =>
    max (max (depth (child 0)) (depth (child 1))) (max (depth (child 2)) (depth (child 3))) + 1
  | _ => 0

theorem depth_child_lt (s used : ℕ) (child : Fin 4 → Unode α) (i : Fin 4) :
    depth (child i) < depth (branch s used child) := by
  rw [depth]
  fin_cases i <;> simp only [Fin.reduceFinMk, Fin.zero_eta, Fin.mk_one] <;> omega

end Unode

/-- The nodes of the array as trees for the walk. -/
def trees (α : Type*) : Trees (Unode α) (Node α) 4 where
  view := view
  leaves := leaves
  size := size
  depth := depth
  leaves_empty t h := by
    cases t with
    | null => rfl
    | node n => cases h
    | branch s used child => cases h
  leaves_node t a h := by
    cases t with
    | null => cases h
    | node n =>
      cases h
      rfl
    | branch s used child => cases h
  leaves_branch t child h := by
    cases t with
    | null => cases h
    | node n => cases h
    | branch s used child' =>
      cases h
      rw [leaves, List.flatMap_def, List.map_ofFn]
      rfl
  size_branch t child h := by
    cases t with
    | null => cases h
    | node n => cases h
    | branch s used child' =>
      cases h
      rw [List.map_ofFn, size]
      exact Nat.le_refl _
  depth_branch t child h i := by
    cases t with
    | null => cases h
    | node n => cases h
    | branch s used child' =>
      cases h
      exact depth_child_lt s used child i

/-! ## The iterator -/

/-- `initfirst_arraysfiterator`. -/
def initfirstArraysfiterator : Walk (Unode α) 4 := ⟨[], 0⟩

/-- The positions for which the page has room that `initfirst_arraysfiterator` allocates for the
stack: a position has 16 bytes, and the header of the page has 24. -/
def firstPage : ℕ := (65536 - 24) / 16

/-- `next_arraysfiterator`, if there is memory for `avail` positions on the stack. -/
def nextArraysfiterator (avail : ℕ) (array : Arraysf α) (iter : Walk (Unode α) 4) :
    Option (Node α) × Walk (Unode α) 4 :=
  Walk.next (trees α) avail array.toplevelsize array.root iter

/-! ## What is below a node -/

namespace Unode

theorem mem_leaves {t : Unode α} {n : Node α} : n ∈ leaves t ↔ Stores t n := by
  induction t with
  | null => simp [leaves]
  | node m =>
    rw [leaves, List.mem_singleton, stores_node]
    exact eq_comm
  | branch s used child ih =>
    rw [leaves, List.mem_flatten, stores_branch]
    constructor
    · rintro ⟨l, hl, hn⟩
      obtain ⟨i, rfl⟩ := List.mem_ofFn.mp hl
      exact ⟨i, (ih i).mp hn⟩
    · rintro ⟨i, hi⟩
      exact ⟨leaves (child i), List.mem_ofFn.mpr ⟨i, rfl⟩, (ih i).mpr hi⟩

theorem Wf.two_mul_depth_le {k x : ℕ} {t : Unode α} (h : Wf k x t) : 2 * depth t ≤ k := by
  induction h with
  | null => exact Nat.zero_le _
  | node h => exact Nat.zero_le _
  | branch y hs hk hy hused h2 hchild ih =>
    rw [depth]
    have h0 := ih 0
    have h1 := ih 1
    have h2 := ih 2
    have h3 := ih 3
    omega

theorem lt_of_shiftRight_lt {m n k : ℕ} (h : m >>> k < n >>> k) : m < n := by
  rw [Nat.shiftRight_eq_div_pow, Nat.shiftRight_eq_div_pow] at h
  exact Nat.lt_of_div_lt_div h

theorem Wf.ascending {k x : ℕ} {t : Unode α} (h : Wf k x t) :
    (leaves t).Pairwise fun m n => m.pos < n.pos := by
  induction h with
  | null => exact List.Pairwise.nil
  | node h => exact List.pairwise_singleton _ _
  | @branch k x s used child y hs hk hy hused h2 hchild ih =>
    rw [leaves, List.pairwise_flatten]
    refine ⟨fun l hl => ?_, ?_⟩
    · obtain ⟨i, rfl⟩ := List.mem_ofFn.mp hl
      exact ih i
    · rw [List.pairwise_ofFn]
      intro i j hij m hm n hn
      -- the two bits tell the order
      have hm := (hchild i).stores (mem_leaves.mp hm)
      have hn := (hchild j).stores (mem_leaves.mp hn)
      have hlt : (i : ℕ) < j := hij
      exact UInt64.lt_iff_toNat_lt.mpr (lt_of_shiftRight_lt (k := s) (by omega))

end Unode

/-! ## The entries of the root -/

/-- Every node is stored below the entry of the root to which its position leads. -/
def Indexed (array : Arraysf α) : Prop :=
  ∀ i n, Stores (array.root i) n → rootindex array n.pos = i

section Step

variable {array : Arraysf α} {m : UInt64 → Option (Node α)} (h : Represents array m)

include h

theorem Represents.stores_tryinsert (new : Node α) (nodeadp : Option (α → α))
    (hlost : ¬ PrefixLost new.pos (findArraysf array new.pos)) {i : ℕ} {n : Node α}
    (hn : Stores ((Arraysf.tryinsertArraysf array new nodeadp).2.root i) n) :
    Stores (array.root i) n ∨ i = rootindex array new.pos ∧ n.pos = new.pos := by
  unfold Arraysf.tryinsertArraysf at hn
  dsimp only at hn
  cases hm : m new.pos with
  | some n' =>
    rw [h.atArraysf_eq, hm] at hn
    exact Or.inl hn
  | none =>
    rw [h.atArraysf_eq, hm] at hn
    have hfree : ∀ n, Stores (array.root (rootindex array new.pos)) n → n.pos ≠ new.pos := by
      intro n hst hpos
      have := (h.stores new.pos n).mpr ⟨hpos, hst⟩
      rw [hm] at this
      exact Option.some_ne_none n this.symm
    obtain ⟨-, hst⟩ := insertTree_spec (⟨new.pos, (nodeadp.getD id) new.object⟩ : Node α)
      (h.wf _) hfree rfl hlost
    by_cases hi : i = rootindex array new.pos
    · subst hi
      dsimp only at hn
      rw [update_self] at hn
      rcases (hst n).mp hn with hold | rfl
      · exact Or.inl hold
      · exact Or.inr ⟨rfl, rfl⟩
    · dsimp only at hn
      rw [update_of_ne hi] at hn
      exact Or.inl hn

theorem Represents.stores_tryremove (pos : UInt64) {i : ℕ} {n : Node α}
    (hn : Stores ((Arraysf.tryremoveArraysf array pos).2.root i) n) :
    Stores (array.root i) n := by
  unfold Arraysf.tryremoveArraysf at hn
  cases hm : m pos with
  | none =>
    rw [h.atArraysf_eq, hm] at hn
    exact hn
  | some n' =>
    rw [h.atArraysf_eq, hm] at hn
    obtain ⟨hpos, hn'⟩ := (h.stores pos n').mp hm
    obtain ⟨t, hok, -, hst⟩ := removeTree_spec (h.wf _) hn' hpos
    unfold findArraysf at hn
    rw [hok] at hn
    by_cases hi : i = rootindex array pos
    · subst hi
      dsimp only at hn
      rw [update_self] at hn
      exact ((hst n).mp hn).1
    · dsimp only at hn
      rw [update_of_ne hi] at hn
      exact hn

end Step

theorem step_root (array : Arraysf α) (op : Op α) :
    (step array op).2.toplevelsize = array.toplevelsize ∧
      (step array op).2.posshift = array.posshift := by
  have hinsert : ∀ new nodeadp,
      (tryinsertArraysf array new nodeadp).2.toplevelsize = array.toplevelsize ∧
        (tryinsertArraysf array new nodeadp).2.posshift = array.posshift := by
    intro new nodeadp
    unfold tryinsertArraysf
    dsimp only
    cases atArraysf array new.pos <;> exact ⟨rfl, rfl⟩
  have hremove : ∀ pos, (tryremoveArraysf array pos).2.toplevelsize = array.toplevelsize ∧
      (tryremoveArraysf array pos).2.posshift = array.posshift := by
    intro pos
    unfold tryremoveArraysf
    cases atArraysf array pos with
    | none => exact ⟨rfl, rfl⟩
    | some n =>
      dsimp only
      cases removeTree (findArraysf array pos).1 <;> exact ⟨rfl, rfl⟩
  cases op with
  | tryinsert new nodeadp => exact hinsert new nodeadp
  | insert new nodeadp => exact hinsert new nodeadp
  | tryremove pos => exact hremove pos
  | remove pos => exact hremove pos

theorem Represents.indexed_step {array : Arraysf α} {m : UInt64 → Option (Node α)}
    (h : Represents array m) (hi : Indexed array) {op : Op α} (hop : KeepsPrefix array op) :
    Indexed (step array op).2 := by
  obtain ⟨htop, hshift⟩ := step_root array op
  intro i n hn
  have hindex : rootindex (step array op).2 n.pos = rootindex array n.pos := by
    rw [rootindex, rootindex, htop, hshift]
  rw [hindex]
  have hinsert : ∀ new : Node α, Stores (array.root i) n ∨ i = rootindex array new.pos ∧
      n.pos = new.pos → rootindex array n.pos = i := by
    rintro new (hold | ⟨rfl, hpos⟩)
    · exact hi i n hold
    · rw [hpos]
  cases op with
  | tryinsert new nodeadp => exact hinsert new (h.stores_tryinsert new nodeadp hop hn)
  | insert new nodeadp => exact hinsert new (h.stores_tryinsert new nodeadp hop hn)
  | tryremove pos => exact hi i n (h.stores_tryremove pos hn)
  | remove pos => exact hi i n (h.stores_tryremove pos hn)

theorem exists_toplevelsize {toplevelsize posshift : ℕ} {array : Arraysf α}
    (h : newArraysf α toplevelsize posshift = .ok array) :
    ∃ k ≤ 23, array.toplevelsize = 2 ^ k := by
  obtain ⟨size, hne, hsize⟩ : ∃ size, size ≠ 0 ∧
      (if toplevelsize = 0 then 1 else toplevelsize) = size := by
    by_cases h0 : toplevelsize = 0
    · exact ⟨1, Nat.one_ne_zero, if_pos h0⟩
    · exact ⟨toplevelsize, h0, if_neg h0⟩
  unfold newArraysf at h
  dsimp only at h
  rw [hsize] at h
  split_ifs at h with hbig hshift
  cases h
  rw [Nat.not_lt, show 0x00800000 = 2 ^ 23 from rfl] at hbig
  have hpow : ∃ k, makepowerof2 size = 2 ^ k := by
    unfold makepowerof2 at hbig ⊢
    split_ifs at hbig ⊢ with hcond
    · exact ⟨_, rfl⟩
    · have hzero : size &&& (size - 1) = 0 := by
        by_contra hne'
        have : size < 2 ^ 31 := by omega
        exact hcond ⟨hne', this⟩
      exact (Nat.and_sub_one_eq_zero_iff_isPowerOfTwo hne).mp hzero
  obtain ⟨k, hk⟩ := hpow
  refine ⟨k, ?_, hk⟩
  rw [hk] at hbig
  exact (Nat.pow_le_pow_iff_right (by norm_num)).mp hbig

/-! ## The iteration -/

/-- The iterator returns every node of the map once, and no other, and then none. -/
def IteratesExactly (avail : ℕ) (array : Arraysf α) (m : UInt64 → Option (Node α))
    (l : List (Node α)) : Prop :=
  Yields (nextArraysfiterator avail array) initfirstArraysfiterator l ∧ (l.map Node.pos).Nodup ∧
    ∀ n, n ∈ l ↔ m n.pos = some n

section Iterate

variable {array : Arraysf α} {k : ℕ} (hsize : array.toplevelsize = 2 ^ k) (hk : k ≤ 23)

include hsize

theorem rootindex_lt (pos : UInt64) : rootindex array pos < array.toplevelsize := by
  have hpos : 0 < array.toplevelsize := hsize ▸ Nat.two_pow_pos k
  have : rootindex array pos ≤ array.toplevelsize - 1 := Nat.and_le_right
  omega

include hk

theorem rootindex_eq (hupper : array.posshift + Nat.log2 array.toplevelsize = 64)
    (pos : UInt64) : rootindex array pos = pos.toNat >>> array.posshift := by
  rw [hsize, Nat.log2_two_pow] at hupper
  have hlt : pos.toNat >>> array.posshift < 2 ^ k := by
    rw [Nat.shiftRight_eq_div_pow]
    refine Nat.div_lt_of_lt_mul ?_
    rw [← Nat.pow_add, hupper]
    exact pos.toNat_lt
  have hsmall : pos.toNat >>> array.posshift < 2 ^ 32 :=
    hlt.trans_le (Nat.pow_le_pow_right (by norm_num) (hk.trans (by norm_num)))
  rw [rootindex, unsigned, hsize, Nat.and_two_pow_sub_one_eq_mod, Nat.mod_eq_of_lt hsmall,
    Nat.mod_eq_of_lt hlt]

/-- **The iterator returns every stored node once**, in ascending order if the root tests the upper
bits of the position. -/
theorem Represents.iterates {m : UInt64 → Option (Node α)} (h : Represents array m)
    (hi : Indexed array) {avail : ℕ} (havail : firstPage ≤ avail) :
    ∃ l, IteratesExactly avail array m l ∧
      (array.posshift + Nat.log2 array.toplevelsize = 64 →
        l.Pairwise fun n n' => n.pos < n'.pos) := by
  have hdepth : ∀ i < array.toplevelsize, (trees α).depth (array.root i) ≤ avail := by
    intro i _
    have hle : 2 * depth (array.root i) ≤ 64 := (h.wf i).two_mul_depth_le
    have hpage : 32 ≤ firstPage := by decide
    change depth (array.root i) ≤ avail
    omega
  have hmem : ∀ n, n ∈ ((List.range array.toplevelsize).map array.root).flatMap leaves ↔
      m n.pos = some n := by
    intro n
    rw [h.stores, List.mem_flatMap]
    constructor
    · rintro ⟨t, ht, hn⟩
      obtain ⟨i, -, rfl⟩ := List.mem_map.mp ht
      rw [mem_leaves] at hn
      rw [hi i n hn]
      exact ⟨rfl, hn⟩
    · rintro ⟨-, hn⟩
      exact ⟨_, List.mem_map.mpr ⟨_, List.mem_range.mpr (rootindex_lt hsize n.pos), rfl⟩,
        mem_leaves.mpr hn⟩
  refine ⟨_, ⟨yields_leaves array.toplevelsize array.root hdepth, ?_, hmem⟩, fun hupper => ?_⟩
  · -- nodes at one position are below one entry, and there they are in ascending order
    refine List.pairwise_map.mpr (List.pairwise_flatMap.mpr ⟨fun t ht => ?_, ?_⟩)
    · obtain ⟨i, -, rfl⟩ := List.mem_map.mp ht
      refine (h.wf i).ascending.imp fun {n n'} hlt heq => ?_
      rw [heq] at hlt
      exact UInt64.lt_irrefl _ hlt
    · refine List.pairwise_map.mpr (List.pairwise_lt_range.imp fun {i j} hij n hn n' hn' heq => ?_)
      have hn := hi i n (mem_leaves.mp hn)
      have hn' := hi j n' (mem_leaves.mp hn')
      rw [heq] at hn
      omega
  · refine List.pairwise_flatMap.mpr ⟨fun t ht => ?_, ?_⟩
    · obtain ⟨i, -, rfl⟩ := List.mem_map.mp ht
      exact (h.wf i).ascending
    · refine List.pairwise_map.mpr (List.pairwise_lt_range.imp fun {i j} hij n hn n' hn' => ?_)
      have hn := hi i n (mem_leaves.mp hn)
      have hn' := hi j n' (mem_leaves.mp hn')
      rw [rootindex_eq hsize hk hupper] at hn hn'
      exact UInt64.lt_iff_toNat_lt.mpr (lt_of_shiftRight_lt (by rwa [hn, hn']))

end Iterate

/-- **Iteration all along a run** that does not lose a prefix. -/
theorem run_iterates {toplevelsize posshift : ℕ} {array : Arraysf α}
    (h : newArraysf α toplevelsize posshift = .ok array) (ops : List (Op α))
    (hops : Along step KeepsPrefix array ops) {avail : ℕ} (havail : firstPage ≤ avail) :
    ∃ l, IteratesExactly avail (run step array ops).2 (run specStep (fun _ => none) ops).2 l ∧
      (array.posshift + Nat.log2 array.toplevelsize = 64 →
        l.Pairwise fun n n' => n.pos < n'.pos) := by
  let R (a : Arraysf α) (m : UInt64 → Option (Node α)) : Prop :=
    Represents a m ∧ Indexed a ∧ a.toplevelsize = array.toplevelsize ∧ a.posshift = array.posshift
  have hstep : ∀ (a : Arraysf α) (m : UInt64 → Option (Node α)) (op : Op α), R a m →
      KeepsPrefix a op → (step a op).1 = (specStep m op).1 ∧ R (step a op).2 (specStep m op).2 := by
    rintro a m op ⟨hrep, hi, htop, hshift⟩ hop
    obtain ⟨hout, hrep'⟩ := represents_step hrep hop
    obtain ⟨htop', hshift'⟩ := step_root a op
    exact ⟨hout, hrep', hrep.indexed_step hi hop, htop'.trans htop, hshift'.trans hshift⟩
  have hempty : Indexed array := by
    intro i n hn
    unfold newArraysf at h
    dsimp only at h
    generalize makepowerof2 _ = size at h
    split_ifs at h
    cases h
    exact hn.elim
  obtain ⟨-, hrep, hi, htop, hshift⟩ :=
    run_refines hstep ⟨represents_newArraysf h, hempty, rfl, rfl⟩ hops
  obtain ⟨k, hk, hsize⟩ := exists_toplevelsize h
  obtain ⟨l, hl, hasc⟩ := hrep.iterates (htop.trans hsize) hk hi havail
  refine ⟨l, hl, fun hupper => hasc ?_⟩
  rwa [htop, hshift]

end Arraysf
end CKern
