import CKern.Library.RadixTree
import CKern.Library.Refinement
import Mathlib.Data.Nat.Bitwise
import Mathlib.Order.Interval.Set.Disjoint
import Mathlib.Order.CompletePartialOrder

/-!
# `ds/inmem/blockarray.c`: arrays of blocks in a radix tree

* `Blockarray`, `Memory`: the fields of an array, and the blocks in memory.
* `initBlockarray`, `adaptdepthBlockarray`, `assign2Blockarray`: the calls, with the shifts and the
  pointers of the source.
* `locate_eq`: the shift and the division give the same block and the same element.
* `cell`: the address of an element, by the digits of the number of its block.
* `Extends`: what may happen to the cells when a block is added.
* `blockarray_exact`: every index has a cell of its own, which does not move.
-/

namespace CKern

open Refinement RadixTree

/-- `blockarray_t`. -/
structure Blockarray where
  elementsPerBlock : ℕ
  root : ℕ
  elementsize : ℕ
  log2elementsPerBlock : ℕ
  depth : ℕ
  log2ptrPerBlock : ℕ
  pagesize : ℕ
  deriving DecidableEq, Repr

namespace Blockarray

/-- The memory: the pointers in the blocks of type `ptrblock_t`, where `none` is the null pointer,
the bytes in the other ones, and what `allocpage_pagecache` is going to return, where `none` is an
error. -/
structure Memory where
  childs : Links ℕ
  bytes : ℕ → UInt8
  answers : List (Option ℕ)

/-- What a call returns: the address of an element, the null pointer, or an error. -/
inductive Result
  | elem (elemaddr : ℕ)
  | null
  | error
  deriving DecidableEq, Repr

/-- `pagesize__NROF`. -/
def pagesizeNrof : ℕ := 13

/-- `pagesizeinbytes_pagecache`. -/
def pagesizeinbytesPagecache (pagesize : ℕ) : ℕ := 256 <<< (pagesize &&& 0x1f)

/-- `sizeof(void*)`. -/
def sizeofPtr : ℕ := 8

/-- `new_memoryblock`: the new block is filled with null pointers or bytes. -/
def newMemoryblock (mem : Memory) (pagesize : ℕ) : Option ℕ × Memory :=
  match mem.answers with
  | [] => (none, mem)
  | none :: answers => (none, { mem with answers })
  | some block :: answers =>
    (some block,
      { childs := Function.update mem.childs block fun _ => none
        bytes := fun a =>
          if block ≤ a ∧ a < block + pagesizeinbytesPagecache pagesize then 0 else mem.bytes a
        answers })

/-- `init_blockarray`, or an error. -/
def initBlockarray (mem : Memory) (pagesize elementsize : ℕ) : Option Blockarray × Memory :=
  let blocksizeInBytes := pagesizeinbytesPagecache pagesize
  if ¬ pagesize < pagesizeNrof then (none, mem)
  else if ¬ (0 < elementsize ∧ elementsize ≤ blocksizeInBytes) then (none, mem)
  else
    match newMemoryblock mem pagesize with
    | (none, mem) => (none, mem)
    | (some datablock, mem) =>
      let ptrPerBlock := blocksizeInBytes / sizeofPtr
      let elementsPerBlock := blocksizeInBytes / elementsize
      (some
        { elementsPerBlock
          root := datablock
          elementsize
          log2elementsPerBlock :=
            if (elementsPerBlock - 1) &&& elementsPerBlock = 0 then
              (1 + Nat.log2 elementsPerBlock) % 2 ^ 8
            else 0
          depth := 0
          log2ptrPerBlock := Nat.log2 ptrPerBlock
          pagesize }, mem)

/-- `adaptdepth_blockarray`: whether all roots have been allocated, the array and the memory. -/
def adaptdepthBlockarray (depth : ℕ) (barray : Blockarray) (mem : Memory) :
    Bool × Blockarray × Memory :=
  match newMemoryblock mem barray.pagesize with
  | (none, mem) => (false, barray, mem)
  | (some block, mem) =>
    let mem := { mem with childs := link mem.childs block 0 barray.root }
    if _h : barray.depth + 1 ≥ depth then
      (true, { barray with root := block, depth := barray.depth + 1 }, mem)
    else
      adaptdepthBlockarray depth { barray with root := block, depth := barray.depth + 1 } mem
termination_by depth - barray.depth
decreasing_by omega

/-- The number of the block, and the place of the element in it, for an index behind the first
block. -/
def locate (barray : Blockarray) (arrayindex : ℕ) : ℕ × ℕ :=
  if barray.log2elementsPerBlock ≠ 0 then
    let mask := 1 <<< (barray.log2elementsPerBlock - 1)
    (arrayindex >>> (barray.log2elementsPerBlock - 1), arrayindex &&& (mask - 1))
  else (arrayindex / barray.elementsPerBlock, arrayindex % barray.elementsPerBlock)

/-- The loop that sets `shiftright` and `depth`. It is left after at most `bitsof(size_t)` steps. -/
def adaptShift (log2ptrPerBlock blockindex : ℕ) : ℕ → ℕ → ℕ → ℕ × ℕ
  | 0, shiftright, depth => (shiftright, depth)
  | fuel + 1, shiftright, depth =>
    if shiftright < 64 ∧ blockindex ≥ 1 <<< shiftright then
      adaptShift log2ptrPerBlock blockindex fuel (shiftright + log2ptrPerBlock) (depth + 1)
    else (shiftright, depth)

/-- The path from a `ptrblock_t` down to the data block, with `n` more blocks of this type. -/
def followPath (barray : Blockarray) (blockindex : ℕ) (isAllocate : Bool) :
    ℕ → ℕ → ℕ → ℕ → Memory → Result × Memory
  | 0, ptrblock, childindex, _, mem =>
    match mem.childs ptrblock childindex with
    | some datablock => (.elem datablock, mem)
    | none =>
      if !isAllocate then (.null, mem)
      else
        match newMemoryblock mem barray.pagesize with
        | (none, mem) => (.error, mem)
        | (some datablock, mem) =>
          (.elem datablock, { mem with childs := link mem.childs ptrblock childindex datablock })
  | n + 1, ptrblock, childindex, shiftright, mem =>
    let indexmask := 1 <<< barray.log2ptrPerBlock - 1
    let shiftright := shiftright - barray.log2ptrPerBlock
    match mem.childs ptrblock childindex with
    | some child =>
      followPath barray blockindex isAllocate n child ((blockindex >>> shiftright) &&& indexmask)
        shiftright mem
    | none =>
      if !isAllocate then (.null, mem)
      else
        match newMemoryblock mem barray.pagesize with
        | (none, mem) => (.error, mem)
        | (some child, mem) =>
          followPath barray blockindex isAllocate n child
            ((blockindex >>> shiftright) &&& indexmask) shiftright
            { mem with childs := link mem.childs ptrblock childindex child }

/-- The part of `assign2_blockarray` that begins with the comment "follow path". -/
def follow (barray : Blockarray) (mem : Memory) (blockindex elementindex shiftright depth : ℕ)
    (isAllocate : Bool) : Result × Blockarray × Memory :=
  match depth with
  | 0 => (.elem (barray.root + elementindex * barray.elementsize), barray, mem)
  | n + 1 =>
    match followPath barray blockindex isAllocate n barray.root (blockindex >>> shiftright)
        shiftright mem with
    | (.elem datablock, mem) =>
      (.elem (datablock + elementindex * barray.elementsize), barray, mem)
    | (result, mem) => (result, barray, mem)

/-- `assign2_blockarray`. -/
def assign2Blockarray (barray : Blockarray) (mem : Memory) (arrayindex : ℕ) (isAllocate : Bool) :
    Result × Blockarray × Memory :=
  let shiftright := barray.log2ptrPerBlock * barray.depth
  if arrayindex < barray.elementsPerBlock then
    let shiftright := shiftright - if shiftright ≠ 0 then barray.log2ptrPerBlock else 0
    follow barray mem 0 arrayindex shiftright barray.depth isAllocate
  else
    let place := locate barray arrayindex
    let adapted := adaptShift barray.log2ptrPerBlock place.1 64 shiftright barray.depth
    let shiftright := adapted.1 - barray.log2ptrPerBlock
    if adapted.2 > barray.depth then
      if !isAllocate then (.null, barray, mem)
      else
        match adaptdepthBlockarray adapted.2 barray mem with
        | (false, barray, mem) => (.error, barray, mem)
        | (true, barray, mem) =>
          follow barray mem place.1 place.2 shiftright adapted.2 isAllocate
    else follow barray mem place.1 place.2 shiftright adapted.2 isAllocate

/-- `at_blockarray`. -/
def atBlockarray (barray : Blockarray) (mem : Memory) (arrayindex : ℕ) :
    Result × Blockarray × Memory := assign2Blockarray barray mem arrayindex false

/-- `assign_blockarray`. -/
def assignBlockarray (barray : Blockarray) (mem : Memory) (arrayindex : ℕ) :
    Result × Blockarray × Memory := assign2Blockarray barray mem arrayindex true

/-! ## Arithmetic -/

/-- The fields that `init_blockarray` sets and no call changes. -/
structure Params (barray : Blockarray) (size : ℕ) : Prop where
  size_eq : pagesizeinbytesPagecache barray.pagesize = size
  elementsize_pos : 0 < barray.elementsize
  elementsize_le : barray.elementsize ≤ size
  elementsPerBlock_eq : barray.elementsPerBlock = size / barray.elementsize
  log2elementsPerBlock_eq : barray.log2elementsPerBlock ≠ 0 →
    barray.elementsPerBlock = 2 ^ (barray.log2elementsPerBlock - 1)
  log2ptrPerBlock_pos : 0 < barray.log2ptrPerBlock

section Arithmetic

variable {barray : Blockarray} {size : ℕ}

theorem Params.elementsPerBlock_pos (h : Params barray size) : 0 < barray.elementsPerBlock := by
  rw [h.elementsPerBlock_eq]
  exact Nat.div_pos h.elementsize_le h.elementsize_pos

/-- **Both ways to locate an element** are a division by the number of elements of a block. -/
theorem locate_eq (h : Params barray size) (arrayindex : ℕ) :
    locate barray arrayindex =
      (arrayindex / barray.elementsPerBlock, arrayindex % barray.elementsPerBlock) := by
  unfold locate
  by_cases hlog : barray.log2elementsPerBlock = 0
  · rw [if_neg (not_not_intro hlog)]
  · rw [if_pos hlog, h.log2elementsPerBlock_eq hlog]
    dsimp only
    rw [Nat.one_shiftLeft, Nat.shiftRight_eq_div_pow, Nat.and_two_pow_sub_one_eq_mod]

theorem Params.elem_le (h : Params barray size) {i : ℕ} (hi : i < barray.elementsPerBlock) :
    i * barray.elementsize + barray.elementsize ≤ size := by
  have hle : (i + 1) * barray.elementsize ≤ barray.elementsPerBlock * barray.elementsize :=
    Nat.mul_le_mul_right _ hi
  have hsize : barray.elementsPerBlock * barray.elementsize ≤ size := by
    rw [h.elementsPerBlock_eq]
    exact Nat.div_mul_le_self _ _
  rw [Nat.succ_mul] at hle
  exact hle.trans hsize

theorem log2elementsPerBlock_spec {n : ℕ} (hpos : 0 < n) (hlt : n < 2 ^ 255)
    (h : (if (n - 1) &&& n = 0 then (1 + Nat.log2 n) % 2 ^ 8 else 0) ≠ 0) :
    n = 2 ^ ((if (n - 1) &&& n = 0 then (1 + Nat.log2 n) % 2 ^ 8 else 0) - 1) := by
  by_cases hzero : (n - 1) &&& n = 0
  · rw [Nat.and_comm] at hzero
    obtain ⟨j, rfl⟩ := (Nat.and_sub_one_eq_zero_iff_isPowerOfTwo hpos.ne').mp hzero
    have hj : j < 255 := (Nat.pow_lt_pow_iff_right (by omega : 1 < 2)).mp hlt
    rw [if_pos (by rwa [Nat.and_comm]), Nat.log2_two_pow, Nat.mod_eq_of_lt (by omega)]
    rw [Nat.add_sub_cancel_left]
  · rw [if_neg hzero] at h
    exact absurd rfl h

theorem pagesizeinbytesPagecache_spec {pagesize : ℕ} (h : pagesize < pagesizeNrof) :
    pagesizeinbytesPagecache pagesize ≤ 2 ^ 20 ∧
      0 < Nat.log2 (pagesizeinbytesPagecache pagesize / sizeofPtr) := by
  have hall : ∀ p < 13, pagesizeinbytesPagecache p ≤ 2 ^ 20 ∧
      0 < Nat.log2 (pagesizeinbytesPagecache p / sizeofPtr) := by decide +kernel
  exact hall pagesize h

theorem adaptShift_spec {k blockindex : ℕ} (hk : 0 < k) (fuel depth : ℕ)
    (hfuel : 64 ≤ k * depth + fuel) :
    ∃ d, adaptShift k blockindex fuel (k * depth) depth = (k * d, d) ∧ depth ≤ d ∧
      (64 ≤ k * d ∨ blockindex < 2 ^ (k * d)) ∧
      (depth < d → k * (d - 1) < 64 ∧ 2 ^ (k * depth) ≤ blockindex) := by
  induction fuel generalizing depth with
  | zero => exact ⟨depth, rfl, Nat.le_refl _, Or.inl hfuel, fun h => absurd h (Nat.lt_irrefl _)⟩
  | succ fuel ih =>
    rw [adaptShift, Nat.one_shiftLeft]
    by_cases hloop : k * depth < 64 ∧ blockindex ≥ 2 ^ (k * depth)
    · rw [if_pos hloop, ← Nat.mul_succ]
      obtain ⟨d, heq, hle, hend, hgrown⟩ := ih (depth + 1) (by rw [Nat.mul_succ]; omega)
      refine ⟨d, heq, by omega, hend, fun _ => ⟨?_, hloop.2⟩⟩
      rcases Nat.lt_or_ge (depth + 1) d with hlt | hge
      · exact (hgrown hlt).1
      · obtain rfl : d = depth + 1 := by omega
        exact hloop.1
    · rw [if_neg hloop]
      exact ⟨depth, rfl, Nat.le_refl _, by omega, fun h => absurd h (Nat.lt_irrefl _)⟩

end Arithmetic

/-! ## Cells -/

/-- The address of an element: the block whose number has the given digits, and the place in it. -/
def cell (barray : Blockarray) (mem : Memory) (i : ℕ) : Option ℕ :=
  if i / barray.elementsPerBlock < 2 ^ (barray.log2ptrPerBlock * barray.depth) then
    (walk mem.childs barray.root
      (digits barray.log2ptrPerBlock barray.depth (i / barray.elementsPerBlock))).map
        fun block => block + i % barray.elementsPerBlock * barray.elementsize
  else none

/-- Two blocks do not overlap. -/
def Apart (size : ℕ) (a b : ℕ) : Prop := a + size ≤ b ∨ b + size ≤ a

/-- The blocks of the array are `pages`. With those that are going to be allocated they are the
blocks `all`, which do not overlap, and no block is below two others. -/
structure Inv (all : List ℕ) (size : ℕ) (pages : List ℕ) (barray : Blockarray) (mem : Memory) :
    Prop where
  params : Params barray size
  depth_lt : barray.log2ptrPerBlock * (barray.depth - 1) < 64
  separate : Separate mem.childs barray.root
  reached : ∀ b, Reached mem.childs barray.root b → b ∈ pages
  all_eq : pages ++ mem.answers.filterMap id = all
  apart : all.Pairwise (Apart size)

/-- What a call may do: it keeps the cells and what they contain, and new cells are filled with
zeros. -/
structure Extends (barray : Blockarray) (mem : Memory) (barray' : Blockarray) (mem' : Memory) :
    Prop where
  elementsPerBlock_eq : barray'.elementsPerBlock = barray.elementsPerBlock
  elementsize_eq : barray'.elementsize = barray.elementsize
  cell_eq : ∀ i a, cell barray mem i = some a → cell barray' mem' i = some a
  bytes_eq : ∀ i a, cell barray mem i = some a →
    ∀ off < barray.elementsize, mem'.bytes (a + off) = mem.bytes (a + off)
  zero : ∀ i a, cell barray mem i = none → cell barray' mem' i = some a →
    ∀ off < barray.elementsize, mem'.bytes (a + off) = 0
  answers_suffix : mem'.answers <:+ mem.answers

section Cells

variable {barray barray' barray'' : Blockarray} {mem mem' mem'' : Memory} {all pages : List ℕ}
  {size : ℕ}

theorem cell_eq_some_iff {i a : ℕ} : cell barray mem i = some a ↔
    i / barray.elementsPerBlock < 2 ^ (barray.log2ptrPerBlock * barray.depth) ∧
      ∃ b, walk mem.childs barray.root
          (digits barray.log2ptrPerBlock barray.depth (i / barray.elementsPerBlock)) = some b ∧
        b + i % barray.elementsPerBlock * barray.elementsize = a := by
  unfold cell
  by_cases hlt : i / barray.elementsPerBlock < 2 ^ (barray.log2ptrPerBlock * barray.depth)
  · rw [if_pos hlt, Option.map_eq_some_iff]
    exact (and_iff_right hlt).symm
  · rw [if_neg hlt]
    simp [hlt]

theorem Extends.refl (barray : Blockarray) (mem : Memory) : Extends barray mem barray mem where
  elementsPerBlock_eq := rfl
  elementsize_eq := rfl
  cell_eq _ _ h := h
  bytes_eq _ _ _ _ _ := rfl
  zero i a hnone hsome := by
    rw [hnone] at hsome
    cases hsome
  answers_suffix := List.suffix_refl _

theorem Extends.trans (h : Extends barray mem barray' mem')
    (h' : Extends barray' mem' barray'' mem'') : Extends barray mem barray'' mem'' where
  elementsPerBlock_eq := h'.elementsPerBlock_eq.trans h.elementsPerBlock_eq
  elementsize_eq := h'.elementsize_eq.trans h.elementsize_eq
  cell_eq i a ha := h'.cell_eq i a (h.cell_eq i a ha)
  bytes_eq i a ha off hoff := by
    rw [h'.bytes_eq i a (h.cell_eq i a ha) off (by rwa [h.elementsize_eq]),
      h.bytes_eq i a ha off hoff]
  zero i a hnone hsome off hoff := by
    have hoff' : off < barray'.elementsize := by rwa [h.elementsize_eq]
    cases hcell : cell barray' mem' i with
    | none => exact h'.zero i a hcell hsome off hoff'
    | some a' =>
      have hsame := h'.cell_eq i a' hcell
      rw [hsome] at hsame
      obtain rfl := Option.some_inj.mp hsame
      rw [h'.bytes_eq i a hcell off hoff', h.zero i a hnone hcell off hoff]
  answers_suffix := h'.answers_suffix.trans h.answers_suffix

theorem Inv.cell_within (h : Inv all size pages barray mem) {i a : ℕ}
    (ha : cell barray mem i = some a) :
    ∃ b ∈ pages, b ≤ a ∧ a + barray.elementsize ≤ b + size := by
  obtain ⟨-, b, hb, rfl⟩ := cell_eq_some_iff.mp ha
  have hle := h.params.elem_le (Nat.mod_lt i h.params.elementsPerBlock_pos)
  exact ⟨b, h.reached b ⟨_, hb⟩, Nat.le_add_right _ _, by omega⟩

theorem Inv.mem_all (h : Inv all size pages barray mem) {b : ℕ} (hb : b ∈ pages) : b ∈ all := by
  rw [← h.all_eq]
  exact List.mem_append_left _ hb

theorem Inv.apart_of_ne (h : Inv all size pages barray mem) {x y : ℕ} (hx : x ∈ all) (hy : y ∈ all)
    (hne : x ≠ y) : Apart size x y := by
  have : Std.Symm (Apart size) := ⟨fun _ _ hxy => Or.symm hxy⟩
  exact h.apart.forall hx hy hne

/-- **Different indices** have cells that do not overlap. -/
theorem Inv.disjoint (h : Inv all size pages barray mem) {i j a b : ℕ} (hij : i ≠ j)
    (ha : cell barray mem i = some a) (hb : cell barray mem j = some b) :
    Disjoint (Set.Ico a (a + barray.elementsize)) (Set.Ico b (b + barray.elementsize)) := by
  obtain ⟨hi, x, hx, rfl⟩ := cell_eq_some_iff.mp ha
  obtain ⟨hj, y, hy, rfl⟩ := cell_eq_some_iff.mp hb
  rw [Set.Ico_disjoint_Ico]
  by_cases hblock : i / barray.elementsPerBlock = j / barray.elementsPerBlock
  · rw [hblock] at hx
    obtain rfl := Option.some_inj.mp (hx.symm.trans hy)
    have hmod : i % barray.elementsPerBlock ≠ j % barray.elementsPerBlock := fun hmod =>
      hij (by rw [← Nat.div_add_mod i barray.elementsPerBlock, hblock, hmod, Nat.div_add_mod])
    rcases Nat.lt_or_gt_of_ne hmod with hlt | hlt
    · have hle := Nat.mul_le_mul_right barray.elementsize hlt
      rw [Nat.succ_mul] at hle
      omega
    · have hle := Nat.mul_le_mul_right barray.elementsize hlt
      rw [Nat.succ_mul] at hle
      omega
  · have hne : x ≠ y := by
      rintro rfl
      exact hblock (digits_inj hi hj (h.separate _ _ x hx hy))
    have hapart := h.apart_of_ne (h.mem_all (h.reached x ⟨_, hx⟩))
      (h.mem_all (h.reached y ⟨_, hy⟩)) hne
    have hxle := h.params.elem_le (Nat.mod_lt i h.params.elementsPerBlock_pos)
    have hyle := h.params.elem_le (Nat.mod_lt j h.params.elementsPerBlock_pos)
    unfold Apart at hapart
    omega

end Cells

/-! ## A new block -/

/-- The memory after the allocation of a block. -/
def Memory.withBlock (mem : Memory) (size block : ℕ) (answers : List (Option ℕ)) : Memory where
  childs := Function.update mem.childs block fun _ => none
  bytes := fun a => if block ≤ a ∧ a < block + size then 0 else mem.bytes a
  answers

theorem newMemoryblock_cases (mem : Memory) (pagesize : ℕ) :
    (newMemoryblock mem pagesize = (none, { mem with answers := mem.answers.tail }) ∧
      (mem.answers = [] ∨ ∃ answers, mem.answers = none :: answers)) ∨
    ∃ block answers, mem.answers = some block :: answers ∧
      newMemoryblock mem pagesize =
        (some block, mem.withBlock (pagesizeinbytesPagecache pagesize) block answers) := by
  obtain ⟨childs, bytes, answers⟩ := mem
  rcases answers with - | ⟨- | block, answers⟩
  · exact Or.inl ⟨rfl, Or.inl rfl⟩
  · exact Or.inl ⟨rfl, Or.inr ⟨answers, rfl⟩⟩
  · exact Or.inr ⟨block, answers, rfl, rfl⟩

section NewBlock

variable {barray : Blockarray} {mem : Memory} {all pages p : List ℕ} {size b f c : ℕ}
  {answers : List (Option ℕ)}

theorem Inv.fail (h : Inv all size pages barray mem)
    (hfail : mem.answers = [] ∨ ∃ answers, mem.answers = none :: answers) :
    Inv all size pages barray { mem with answers := mem.answers.tail } ∧
      Extends barray mem barray { mem with answers := mem.answers.tail } := by
  refine ⟨⟨h.params, h.depth_lt, h.separate, h.reached, ?_, h.apart⟩,
    { Extends.refl barray mem with answers_suffix := List.tail_suffix _ }⟩
  have hall := h.all_eq
  rcases hfail with hnil | ⟨answers, hcons⟩
  · rw [hnil] at hall ⊢
    exact hall
  · rw [hcons] at hall ⊢
    exact hall

theorem Inv.fresh (h : Inv all size pages barray mem) (hanswers : mem.answers = some f :: answers) :
    f ∈ all ∧ f ∉ pages ∧ ¬ Reached mem.childs barray.root f := by
  have hall : pages ++ f :: answers.filterMap id = all := by
    rw [← h.all_eq, hanswers]
    rfl
  have hf : f ∈ all := by
    rw [← hall]
    simp
  have hpages : f ∉ pages := by
    intro hmem
    have hapart := h.apart
    rw [← hall, List.pairwise_append] at hapart
    have hself := hapart.2.2 f hmem f List.mem_cons_self
    have hpos := h.params.elementsize_pos
    have hle := h.params.elementsize_le
    unfold Apart at hself
    omega
  exact ⟨hf, hpages, fun hreached => hpages (h.reached f hreached)⟩

theorem Inv.bytes_withBlock (h : Inv all size pages barray mem)
    (hanswers : mem.answers = some f :: answers) {i a off : ℕ} (ha : cell barray mem i = some a)
    (hoff : off < barray.elementsize) :
    (mem.withBlock size f answers).bytes (a + off) = mem.bytes (a + off) := by
  obtain ⟨b, hb, hlower, hupper⟩ := h.cell_within ha
  obtain ⟨hf, hpages, -⟩ := h.fresh hanswers
  have hapart := h.apart_of_ne (h.mem_all hb) hf (ne_of_mem_of_not_mem hb hpages)
  unfold Apart at hapart
  unfold Memory.withBlock
  dsimp only
  rw [if_neg (by omega)]

theorem Inv.walk_withBlock (h : Inv all size pages barray mem)
    (hanswers : mem.answers = some f :: answers) (q : List ℕ) :
    walk (mem.withBlock size f answers).childs barray.root q = walk mem.childs barray.root q :=
  walk_congr (fun x hx => Function.update_of_ne
    (ne_of_mem_of_not_mem (h.reached x hx) (h.fresh hanswers).2.1) _ _) q

/-- **A new block below a block of the array.** -/
theorem Inv.link (h : Inv all size pages barray mem) (hanswers : mem.answers = some f :: answers)
    (hp : walk mem.childs barray.root p = some b) (hnone : mem.childs b c = none) :
    let mem' := mem.withBlock size f answers
    let mem'' := { mem' with childs := RadixTree.link mem'.childs b c f }
    Inv all size (pages ++ [f]) barray mem'' ∧ Extends barray mem barray mem'' ∧
      ∀ q x, walk mem''.childs barray.root q = some x ↔
        walk mem.childs barray.root q = some x ∨ q = p ++ [c] ∧ x = f := by
  intro mem' mem''
  obtain ⟨hf, hpages, hfresh⟩ := h.fresh hanswers
  have hwalk := h.walk_withBlock hanswers
  have hsep : Separate mem'.childs barray.root := by
    intro q q' x hq hq'
    rw [hwalk] at hq hq'
    exact h.separate q q' x hq hq'
  have hreached : ∀ x, Reached mem'.childs barray.root x ↔ Reached mem.childs barray.root x :=
    fun x => exists_congr fun q => by rw [hwalk]
  have hfresh' : ¬ Reached mem'.childs barray.root f := by rwa [hreached]
  have hp' : walk mem'.childs barray.root p = some b := by rwa [hwalk]
  have hbf : b ≠ f := ne_of_mem_of_not_mem (h.reached b ⟨p, hp⟩) hpages
  have hnone' : mem'.childs b c = none := by
    rwa [show mem'.childs b = mem.childs b from Function.update_of_ne hbf _ _]
  have hblank : ∀ d, mem'.childs f d = none := fun d => by
    rw [show mem'.childs = Function.update mem.childs f fun _ => none from rfl,
      Function.update_self]
  have hiff : ∀ q x, walk mem''.childs barray.root q = some x ↔
      walk mem.childs barray.root q = some x ∨ q = p ++ [c] ∧ x = f := by
    intro q x
    rw [← hwalk]
    exact walk_link_iff hsep hp' hnone' hfresh' hblank
  have hold : ∀ i a, cell barray mem i = some a → cell barray mem'' i = some a := by
    intro i a ha
    obtain ⟨hi, x, hx, rfl⟩ := cell_eq_some_iff.mp ha
    exact cell_eq_some_iff.mpr ⟨hi, x, (hiff _ x).mpr (Or.inl hx), rfl⟩
  refine ⟨⟨h.params, h.depth_lt, hsep.link hp' hnone' hfresh' hblank, ?_, ?_, h.apart⟩,
    ⟨rfl, rfl, hold, fun i a ha off hoff => h.bytes_withBlock hanswers ha hoff, ?_, ?_⟩, hiff⟩
  · rintro x ⟨q, hq⟩
    rw [hiff] at hq
    rcases hq with hq | ⟨-, rfl⟩
    · exact List.mem_append_left _ (h.reached x ⟨q, hq⟩)
    · exact List.mem_append_right _ (List.mem_singleton_self x)
  · rw [← h.all_eq, hanswers, List.append_assoc]
    rfl
  · intro i a hno ha off hoff
    obtain ⟨hi, x, hx, rfl⟩ := cell_eq_some_iff.mp ha
    rw [hiff] at hx
    rcases hx with hx | ⟨-, rfl⟩
    · rw [cell_eq_some_iff.mpr ⟨hi, x, hx, rfl⟩] at hno
      cases hno
    · have hle := h.params.elem_le (Nat.mod_lt i h.params.elementsPerBlock_pos)
      exact if_pos ⟨by omega, by omega⟩
  · rw [hanswers]
    exact List.suffix_cons _ _

/-- **A new root.** -/
theorem Inv.grow (h : Inv all size pages barray mem) (hanswers : mem.answers = some f :: answers)
    (hdepth : barray.log2ptrPerBlock * barray.depth < 64) :
    let barray' := { barray with root := f, depth := barray.depth + 1 }
    let mem' := mem.withBlock size f answers
    let mem'' := { mem' with childs := RadixTree.link mem'.childs f 0 barray.root }
    Inv all size (pages ++ [f]) barray' mem'' ∧ Extends barray mem barray' mem'' := by
  intro barray' mem' mem''
  obtain ⟨hf, hpages, hfresh⟩ := h.fresh hanswers
  have hwalk : ∀ q, walk mem'.childs barray.root q = walk mem.childs barray.root q :=
    h.walk_withBlock hanswers
  have hsep : Separate mem'.childs barray.root := by
    intro q q' x hq hq'
    rw [hwalk] at hq hq'
    exact h.separate q q' x hq hq'
  have hfresh' : ¬ Reached mem'.childs barray.root f := by
    rintro ⟨q, hq⟩
    rw [hwalk] at hq
    exact hfresh ⟨q, hq⟩
  have hblank : ∀ d, mem'.childs f d = none := fun d => by
    rw [show mem'.childs = Function.update mem.childs f fun _ => none from rfl,
      Function.update_self]
  have hiff : ∀ q x, walk mem''.childs f q = some x ↔
      q = [] ∧ x = f ∨ ∃ p, q = 0 :: p ∧ walk mem.childs barray.root p = some x := by
    intro q x
    rw [walk_grow_iff hfresh' hblank]
    simp only [hwalk]
  have hold : ∀ i a, cell barray mem i = some a → cell barray' mem'' i = some a := by
    intro i a ha
    obtain ⟨hi, x, hx, rfl⟩ := cell_eq_some_iff.mp ha
    refine cell_eq_some_iff.mpr ⟨?_, x, ?_, rfl⟩
    · exact hi.trans_le (Nat.pow_le_pow_right (by omega) (Nat.mul_le_mul_left _ (Nat.le_succ _)))
    · exact (hiff _ x).mpr (Or.inr ⟨_, digits_succ_of_lt hi, hx⟩)
  obtain ⟨hsize, hpos, hle, hper, hlog, hptr⟩ := h.params
  refine ⟨⟨⟨hsize, hpos, hle, hper, hlog, hptr⟩, hdepth, hsep.grow hfresh' hblank, ?_, ?_, h.apart⟩,
    ⟨rfl, rfl, hold, fun i a ha off hoff => h.bytes_withBlock hanswers ha hoff, ?_, ?_⟩⟩
  · rintro x ⟨q, hq⟩
    rw [hiff] at hq
    rcases hq with ⟨-, rfl⟩ | ⟨p, -, hp⟩
    · exact List.mem_append_right _ (List.mem_singleton_self x)
    · exact List.mem_append_left _ (h.reached x ⟨p, hp⟩)
  · rw [← h.all_eq, hanswers, List.append_assoc]
    rfl
  · -- a cell below the new root has a leading zero, so that it was there before
    intro i a hno ha off hoff
    obtain ⟨hi, x, hx, rfl⟩ := cell_eq_some_iff.mp ha
    rw [hiff] at hx
    obtain ⟨p, hp, hx⟩ := hx.resolve_left (by simp [barray', digits_succ])
    obtain ⟨hzero, rfl⟩ := List.cons_eq_cons.mp (digits_succ.symm.trans hp)
    dsimp only [barray'] at hi hzero hx hno
    rw [Nat.mul_succ, Nat.pow_add] at hi
    rw [Nat.mod_eq_of_lt (Nat.div_lt_of_lt_mul hi)] at hzero
    have hlt := (Nat.div_eq_zero_iff.mp hzero).resolve_left (Nat.two_pow_pos _).ne'
    rw [cell_eq_some_iff.mpr ⟨hlt, x, hx, rfl⟩] at hno
    cases hno
  · rw [hanswers]
    exact List.suffix_cons _ _

end NewBlock

/-! ## The calls -/

section Calls

variable {barray : Blockarray} {mem : Memory} {all pages : List ℕ} {size : ℕ}

/-- The result of an allocation that fails: what is going to be returned had an error in it, or has
come to an end. -/
def Failed (mem mem' : Memory) : Prop := none ∈ mem.answers ∨ mem'.answers = []

theorem Inv.newMemoryblock (h : Inv all size pages barray mem) :
    (∃ mem', Blockarray.newMemoryblock mem barray.pagesize = (none, mem') ∧
      Inv all size pages barray mem' ∧ Extends barray mem barray mem' ∧ Failed mem mem') ∨
    ∃ block answers, mem.answers = some block :: answers ∧
      Blockarray.newMemoryblock mem barray.pagesize =
        (some block, mem.withBlock size block answers) := by
  rcases newMemoryblock_cases mem barray.pagesize with
    ⟨heq, hfail⟩ | ⟨block, answers, hanswers, heq⟩
  · obtain ⟨hinv, hext⟩ := h.fail hfail
    refine Or.inl ⟨_, heq, hinv, hext, ?_⟩
    rcases hfail with hnil | ⟨answers, hcons⟩
    · exact Or.inr (by simp [hnil])
    · exact Or.inl (by simp [hcons])
  · rw [h.params.size_eq] at heq
    exact Or.inr ⟨block, answers, hanswers, heq⟩

theorem Failed.of_extends {barray' : Blockarray} {mem' mem'' : Memory}
    (hext : Extends barray mem barray' mem') (h : Failed mem' mem'') : Failed mem mem'' :=
  h.imp_left fun hnone => hext.answers_suffix.subset hnone

/-- **The depth is adapted**, or an allocation fails. -/
theorem adaptdepthBlockarray_spec (h : Inv all size pages barray mem) {depth : ℕ}
    (hlt : barray.depth < depth) (hdepth : barray.log2ptrPerBlock * (depth - 1) < 64) :
    ∃ pages' ok barray' mem', adaptdepthBlockarray depth barray mem = (ok, barray', mem') ∧
      Inv all size pages' barray' mem' ∧ Extends barray mem barray' mem' ∧
      barray'.log2ptrPerBlock = barray.log2ptrPerBlock ∧
      (ok = false → Failed mem mem') ∧ (ok = true → barray'.depth = depth) := by
  fun_induction adaptdepthBlockarray depth barray mem generalizing pages with
  | case1 barray mem mem' hnew =>
    rcases h.newMemoryblock with ⟨_, heq, hinv, hext, hfailed⟩ | ⟨block, answers, -, heq⟩
    · obtain ⟨-, rfl⟩ := Prod.mk.inj (hnew.symm.trans heq)
      exact ⟨pages, false, barray, _, rfl, hinv, hext, rfl, fun _ => hfailed,
        fun h => absurd h (by simp)⟩
    · cases (Prod.mk.inj (hnew.symm.trans heq)).1
  | case2 barray mem block mem' hnew mem'' =>
    rcases h.newMemoryblock with ⟨_, heq, -⟩ | ⟨_, answers, hanswers, heq⟩
    · cases (Prod.mk.inj (hnew.symm.trans heq)).1
    · obtain ⟨hblock, rfl⟩ := Prod.mk.inj (hnew.symm.trans heq)
      obtain rfl := Option.some_inj.mp hblock
      obtain rfl : depth = barray.depth + 1 := by omega
      obtain ⟨hinv, hext⟩ := h.grow hanswers hdepth
      exact ⟨_, true, _, _, rfl, hinv, hext, rfl, fun h => absurd h (by simp), fun _ => rfl⟩
  | case3 barray mem block mem' hnew mem'' =>
    rename_i hge ih
    rcases h.newMemoryblock with ⟨_, heq, -⟩ | ⟨_, answers, hanswers, heq⟩
    · cases (Prod.mk.inj (hnew.symm.trans heq)).1
    · obtain ⟨hblock, rfl⟩ := Prod.mk.inj (hnew.symm.trans heq)
      obtain rfl := Option.some_inj.mp hblock
      have hmul : barray.log2ptrPerBlock * barray.depth ≤ barray.log2ptrPerBlock * (depth - 1) :=
        Nat.mul_le_mul_left _ (by omega)
      obtain ⟨hinv, hext⟩ := h.grow hanswers (hmul.trans_lt hdepth)
      obtain ⟨pages', ok, barray', mem', heq', hinv', hext', hlog, hfailed, hok⟩ :=
        ih hinv (by dsimp only; omega) hdepth
      exact ⟨pages', ok, barray', mem', heq', hinv', hext.trans hext', hlog,
        fun h => (hfailed h).of_extends hext, hok⟩

theorem childindex_eq (k n blockindex : ℕ) :
    (blockindex >>> (k * (n + 1) - k)) &&& (1 <<< k - 1) = blockindex / 2 ^ (k * n) % 2 ^ k := by
  rw [Nat.mul_succ, Nat.add_sub_cancel, Nat.one_shiftLeft, Nat.and_two_pow_sub_one_eq_mod,
    Nat.shiftRight_eq_div_pow]

theorem followPath_false (barray : Blockarray) (mem : Memory) (blockindex n ptrblock c : ℕ) :
    followPath barray blockindex false n ptrblock c (barray.log2ptrPerBlock * n) mem =
      (match walk mem.childs ptrblock (c :: digits barray.log2ptrPerBlock n blockindex) with
        | some datablock => .elem datablock
        | none => .null, mem) := by
  induction n generalizing ptrblock c with
  | zero =>
    rw [followPath, walk_cons]
    cases mem.childs ptrblock c with
    | none => rfl
    | some datablock => rfl
  | succ n ih =>
    rw [followPath, walk_cons, childindex_eq]
    cases mem.childs ptrblock c with
    | none => rfl
    | some child =>
      dsimp only
      rw [Nat.mul_succ, Nat.add_sub_cancel, ih]
      rfl

theorem followPath_of_walk (barray : Blockarray) (blockindex : ℕ) (isAllocate : Bool)
    {n ptrblock c b : ℕ}
    (h : walk mem.childs ptrblock (c :: digits barray.log2ptrPerBlock n blockindex) = some b) :
    followPath barray blockindex isAllocate n ptrblock c (barray.log2ptrPerBlock * n) mem =
      (.elem b, mem) := by
  induction n generalizing ptrblock c with
  | zero =>
    obtain ⟨child, hchild, hb⟩ := Option.bind_eq_some_iff.mp h
    obtain rfl := Option.some_inj.mp hb
    rw [followPath, hchild]
  | succ n ih =>
    obtain ⟨child, hchild, hb⟩ := Option.bind_eq_some_iff.mp h
    rw [followPath, childindex_eq, hchild]
    dsimp only
    rw [Nat.mul_succ, Nat.add_sub_cancel, ih hb]

/-- **The path with allocation** leads to the block with the given digits, unless an allocation
fails. -/
theorem followPath_true (h : Inv all size pages barray mem) (blockindex n ptrblock c : ℕ)
    {p : List ℕ} (hp : walk mem.childs barray.root p = some ptrblock) :
    ∃ pages' r mem', followPath barray blockindex true n ptrblock c
        (barray.log2ptrPerBlock * n) mem = (r, mem') ∧
      Inv all size pages' barray mem' ∧ Extends barray mem barray mem' ∧
      (r = .error ∧ Failed mem mem' ∨ ∃ b, r = .elem b ∧ walk mem'.childs barray.root
        (p ++ c :: digits barray.log2ptrPerBlock n blockindex) = some b) := by
  induction n generalizing pages mem ptrblock c p with
  | zero =>
    rw [followPath]
    cases hchild : mem.childs ptrblock c with
    | some datablock =>
      exact ⟨pages, _, mem, rfl, h, .refl barray mem,
        Or.inr ⟨datablock, rfl, walk_concat_eq_some_iff.mpr ⟨ptrblock, hp, hchild⟩⟩⟩
    | none =>
      dsimp only
      rcases h.newMemoryblock with ⟨mem', heq, hinv, hext, hfailed⟩ | ⟨f, answers, hanswers, heq⟩
      · rw [heq]
        exact ⟨pages, _, mem', rfl, hinv, hext, Or.inl ⟨rfl, hfailed⟩⟩
      · rw [heq]
        obtain ⟨hinv, hext, hwalk⟩ := h.link hanswers hp hchild
        exact ⟨_, _, _, rfl, hinv, hext,
          Or.inr ⟨f, rfl, (hwalk _ _).mpr (Or.inr ⟨rfl, rfl⟩)⟩⟩
  | succ n ih =>
    rw [followPath, childindex_eq, digits_succ]
    cases hchild : mem.childs ptrblock c with
    | some child =>
      dsimp only
      rw [Nat.mul_succ, Nat.add_sub_cancel]
      have hp' := walk_concat_eq_some_iff.mpr ⟨ptrblock, hp, hchild⟩
      obtain ⟨pages', r, mem', heq, hinv, hext, hresult⟩ := ih h child _ hp'
      rw [List.append_assoc] at hresult
      exact ⟨pages', r, mem', heq, hinv, hext, hresult⟩
    | none =>
      dsimp only
      rcases h.newMemoryblock with ⟨mem', heq, hinv, hext, hfailed⟩ | ⟨f, answers, hanswers, heq⟩
      · rw [heq]
        exact ⟨pages, _, mem', rfl, hinv, hext, Or.inl ⟨rfl, hfailed⟩⟩
      · rw [heq]
        obtain ⟨hinv, hext, hwalk⟩ := h.link hanswers hp hchild
        have hp' := (hwalk (p ++ [c]) f).mpr (Or.inr ⟨rfl, rfl⟩)
        dsimp only
        rw [Nat.mul_succ, Nat.add_sub_cancel]
        obtain ⟨pages', r, mem', heq', hinv', hext', hresult⟩ := ih hinv f _ hp'
        rw [List.append_assoc] at hresult
        exact ⟨pages', r, mem', heq', hinv', hext.trans hext',
          hresult.imp_left fun ⟨hr, hfailed⟩ => ⟨hr, hfailed.of_extends hext⟩⟩

/-- What `at_blockarray` returns for a cell. -/
def ofCell : Option ℕ → Result
  | some elemaddr => .elem elemaddr
  | none => .null

theorem digits_of_lt {k n blockindex : ℕ} (hlt : blockindex < 2 ^ (k * (n + 1))) :
    digits k (n + 1) blockindex = blockindex >>> (k * n) :: digits k n blockindex := by
  rw [Nat.mul_succ, Nat.pow_add] at hlt
  rw [digits_succ, Nat.mod_eq_of_lt (Nat.div_lt_of_lt_mul hlt), Nat.shiftRight_eq_div_pow]

theorem follow_false {i : ℕ}
    (hlt : i / barray.elementsPerBlock < 2 ^ (barray.log2ptrPerBlock * barray.depth)) :
    follow barray mem (i / barray.elementsPerBlock) (i % barray.elementsPerBlock)
      (barray.log2ptrPerBlock * (barray.depth - 1)) barray.depth false =
        (ofCell (cell barray mem i), barray, mem) := by
  unfold follow cell
  rw [if_pos hlt]
  cases hdepth : barray.depth with
  | zero => rfl
  | succ n =>
    rw [hdepth] at hlt
    dsimp only
    rw [Nat.add_sub_cancel, followPath_false, digits_of_lt hlt]
    cases walk mem.childs barray.root (_ :: digits barray.log2ptrPerBlock n _) with
    | none => rfl
    | some b => rfl

theorem follow_true (h : Inv all size pages barray mem) {i : ℕ}
    (hlt : i / barray.elementsPerBlock < 2 ^ (barray.log2ptrPerBlock * barray.depth)) :
    ∃ pages' r mem', follow barray mem (i / barray.elementsPerBlock) (i % barray.elementsPerBlock)
        (barray.log2ptrPerBlock * (barray.depth - 1)) barray.depth true = (r, barray, mem') ∧
      Inv all size pages' barray mem' ∧ Extends barray mem barray mem' ∧
      (r = .error ∧ Failed mem mem' ∨ ∃ a, r = .elem a ∧ cell barray mem' i = some a) := by
  unfold follow
  cases hdepth : barray.depth with
  | zero =>
    refine ⟨pages, _, mem, rfl, h, .refl barray mem, Or.inr ⟨_, rfl, cell_eq_some_iff.mpr ?_⟩⟩
    exact ⟨hlt, barray.root, by rw [hdepth]; rfl, rfl⟩
  | succ n =>
    have hdigits := hlt
    rw [hdepth] at hdigits
    dsimp only
    rw [Nat.add_sub_cancel]
    obtain ⟨pages', r, mem', heq, hinv, hext, hresult⟩ :=
      followPath_true h (i / barray.elementsPerBlock) n barray.root
        ((i / barray.elementsPerBlock) >>> (barray.log2ptrPerBlock * n)) (p := []) rfl
    rw [heq]
    rcases hresult with ⟨rfl, hfailed⟩ | ⟨b, rfl, hb⟩
    · exact ⟨pages', _, mem', rfl, hinv, hext, Or.inl ⟨rfl, hfailed⟩⟩
    · refine ⟨pages', _, mem', rfl, hinv, hext, Or.inr ⟨_, rfl, cell_eq_some_iff.mpr ?_⟩⟩
      refine ⟨hlt, b, ?_, rfl⟩
      rw [hdepth, digits_of_lt hdigits]
      exact hb

theorem follow_of_cell {i a : ℕ} (isAllocate : Bool) (h : cell barray mem i = some a) :
    follow barray mem (i / barray.elementsPerBlock) (i % barray.elementsPerBlock)
      (barray.log2ptrPerBlock * (barray.depth - 1)) barray.depth isAllocate =
        (.elem a, barray, mem) := by
  obtain ⟨hlt, b, hb, rfl⟩ := cell_eq_some_iff.mp h
  unfold follow
  cases hdepth : barray.depth with
  | zero =>
    rw [hdepth] at hb
    obtain rfl := Option.some_inj.mp hb
    rfl
  | succ n =>
    rw [hdepth] at hlt hb
    rw [digits_of_lt hlt] at hb
    dsimp only
    rw [Nat.add_sub_cancel, followPath_of_walk barray _ isAllocate hb]

theorem shiftright_first (k depth : ℕ) (hk : 0 < k) :
    k * depth - (if k * depth ≠ 0 then k else 0) = k * (depth - 1) := by
  cases depth with
  | zero => simp
  | succ depth =>
    rw [if_pos (Nat.mul_pos hk (Nat.succ_pos depth)).ne', Nat.mul_succ, Nat.add_sub_cancel,
      Nat.add_sub_cancel]

theorem adaptShift_block (h : Inv all size pages barray mem) {i : ℕ} (hi : i < 2 ^ 64) :
    ∃ d, adaptShift barray.log2ptrPerBlock (i / barray.elementsPerBlock) 64
        (barray.log2ptrPerBlock * barray.depth) barray.depth =
          (barray.log2ptrPerBlock * d, d) ∧
      barray.depth ≤ d ∧ i / barray.elementsPerBlock < 2 ^ (barray.log2ptrPerBlock * d) ∧
      (barray.depth < d → barray.log2ptrPerBlock * (d - 1) < 64 ∧
        2 ^ (barray.log2ptrPerBlock * barray.depth) ≤ i / barray.elementsPerBlock) := by
  obtain ⟨d, heq, hle, hend, hgrown⟩ := @adaptShift_spec barray.log2ptrPerBlock
    (i / barray.elementsPerBlock) h.params.log2ptrPerBlock_pos 64 barray.depth
    (Nat.le_add_left _ _)
  refine ⟨d, heq, hle, ?_, hgrown⟩
  rcases hend with hend | hend
  · have hdiv : i / barray.elementsPerBlock ≤ i := Nat.div_le_self _ _
    exact (hdiv.trans_lt hi).trans_le (Nat.pow_le_pow_right (by omega) hend)
  · exact hend

/-- **`at_blockarray`** returns the address of the cell, and changes nothing. -/
theorem atBlockarray_eq (h : Inv all size pages barray mem) {i : ℕ} (hi : i < 2 ^ 64) :
    atBlockarray barray mem i = (ofCell (cell barray mem i), barray, mem) := by
  unfold atBlockarray assign2Blockarray
  dsimp only
  by_cases hfirst : i < barray.elementsPerBlock
  · have hfollow := @follow_false barray mem i
    rw [Nat.div_eq_of_lt hfirst, Nat.mod_eq_of_lt hfirst] at hfollow
    rw [if_pos hfirst, shiftright_first _ _ h.params.log2ptrPerBlock_pos]
    exact hfollow (Nat.two_pow_pos _)
  · rw [if_neg hfirst, locate_eq h.params]
    dsimp only
    obtain ⟨d, heq, hle, hlt, hgrown⟩ := adaptShift_block h hi
    rw [heq]
    dsimp only
    by_cases hd : d > barray.depth
    · rw [if_pos hd]
      have hcell : cell barray mem i = none :=
        if_neg (Nat.not_lt.mpr (hgrown hd).2)
      rw [hcell]
      rfl
    · obtain rfl : d = barray.depth := by omega
      rw [if_neg hd, ← Nat.mul_sub_one]
      exact follow_false hlt

theorem assign2Blockarray_of_cell (h : Inv all size pages barray mem) {i a : ℕ} (hi : i < 2 ^ 64)
    (isAllocate : Bool) (hcell : cell barray mem i = some a) :
    assign2Blockarray barray mem i isAllocate = (.elem a, barray, mem) := by
  have hfollow := follow_of_cell isAllocate hcell
  unfold assign2Blockarray
  dsimp only
  by_cases hfirst : i < barray.elementsPerBlock
  · rw [Nat.div_eq_of_lt hfirst, Nat.mod_eq_of_lt hfirst] at hfollow
    rw [if_pos hfirst, shiftright_first _ _ h.params.log2ptrPerBlock_pos]
    exact hfollow
  · rw [if_neg hfirst, locate_eq h.params]
    dsimp only
    obtain ⟨d, heq, hle, hlt, hgrown⟩ := adaptShift_block h hi
    rw [heq]
    dsimp only
    by_cases hd : d > barray.depth
    · exact absurd (cell_eq_some_iff.mp hcell).1 (Nat.not_lt.mpr (hgrown hd).2)
    · obtain rfl : d = barray.depth := by omega
      rw [if_neg hd, ← Nat.mul_sub_one]
      exact hfollow

/-- **`assign_blockarray`** returns the address of the cell, or an allocation fails. -/
theorem assignBlockarray_spec (h : Inv all size pages barray mem) {i : ℕ} (hi : i < 2 ^ 64) :
    ∃ pages' r barray' mem', assignBlockarray barray mem i = (r, barray', mem') ∧
      Inv all size pages' barray' mem' ∧ Extends barray mem barray' mem' ∧
      (r = .error ∧ Failed mem mem' ∨ ∃ a, r = .elem a ∧ cell barray' mem' i = some a) := by
  unfold assignBlockarray assign2Blockarray
  dsimp only
  by_cases hfirst : i < barray.elementsPerBlock
  · have hfollow := follow_true h (i := i)
    rw [Nat.div_eq_of_lt hfirst, Nat.mod_eq_of_lt hfirst] at hfollow
    rw [if_pos hfirst, shiftright_first _ _ h.params.log2ptrPerBlock_pos]
    obtain ⟨pages', r, mem', heq, hrest⟩ := hfollow (Nat.two_pow_pos _)
    exact ⟨pages', r, barray, mem', heq, hrest⟩
  · rw [if_neg hfirst, locate_eq h.params]
    dsimp only
    obtain ⟨d, heq, hle, hlt, hgrown⟩ := adaptShift_block h hi
    rw [heq]
    dsimp only
    rw [← Nat.mul_sub_one]
    by_cases hd : d > barray.depth
    · rw [if_pos hd]
      obtain ⟨pages', ok, barray', mem', hadapt, hinv, hext, hlog, hfailed, hok⟩ :=
        adaptdepthBlockarray_spec h hd (hgrown hd).1
      rw [hadapt]
      cases ok with
      | false => exact ⟨pages', _, barray', mem', rfl, hinv, hext, Or.inl ⟨rfl, hfailed rfl⟩⟩
      | true =>
        obtain rfl := hok rfl
        rw [← hext.elementsPerBlock_eq, ← hlog] at hlt ⊢
        obtain ⟨pages'', r, mem'', hfollow, hinv', hext', hresult⟩ := follow_true hinv hlt
        exact ⟨pages'', r, barray', mem'', hfollow, hinv', hext.trans hext',
          hresult.imp_left fun ⟨hr, hfailed'⟩ => ⟨hr, hfailed'.of_extends hext⟩⟩
    · obtain rfl : d = barray.depth := by omega
      rw [if_neg hd]
      obtain ⟨pages', r, mem', hfollow, hrest⟩ := follow_true h hlt
      exact ⟨pages', r, barray, mem', hfollow, hrest⟩

end Calls

/-! ## Runs -/

/-- The calls on an array, and a write of the caller to a byte of an element. -/
inductive Op
  | assign (arrayindex : ℕ)
  | atIndex (arrayindex : ℕ)
  | store (arrayindex offset : ℕ) (byte : UInt8)

/-- The caller writes to the address that `at_blockarray` returns. -/
def store (barray : Blockarray) (mem : Memory) (arrayindex offset : ℕ) (byte : UInt8) :
    Result × Blockarray × Memory :=
  match (atBlockarray barray mem arrayindex).1 with
  | .elem elemaddr =>
    (.elem elemaddr, barray,
      { mem with bytes := Function.update mem.bytes (elemaddr + offset) byte })
  | result => (result, barray, mem)

/-- A call. -/
def call (s : Blockarray × Memory) : Op → Result × (Blockarray × Memory)
  | .assign arrayindex => assignBlockarray s.1 s.2 arrayindex
  | .atIndex arrayindex => atBlockarray s.1 s.2 arrayindex
  | .store arrayindex offset byte => store s.1 s.2 arrayindex offset byte

/-- The bytes that the caller has written last, by index and offset. -/
abbrev Content := ℕ → ℕ → UInt8

/-- What is written after a call with the given result. -/
def contentAfter (content : Content) : Op → Result → Content
  | .store arrayindex offset byte, .elem _ =>
    Function.update content arrayindex (Function.update (content arrayindex) offset byte)
  | _, _ => content

/-- A call on an array whose contents are recorded. -/
def step (s : (Blockarray × Memory) × Content) (op : Op) :
    Result × ((Blockarray × Memory) × Content) :=
  ((call s.1 op).1, (call s.1 op).2, contentAfter s.2 op (call s.1 op).1)

/-- An index has 64 bits, and the caller writes only to bytes of the element. -/
def Allowed (s : (Blockarray × Memory) × Content) : Op → Prop
  | .assign arrayindex | .atIndex arrayindex => arrayindex < 2 ^ 64
  | .store arrayindex offset _ => arrayindex < 2 ^ 64 ∧ offset < s.1.1.elementsize

/-- The cells contain what was written last, or zeros. -/
structure Rep (all : List ℕ) (size : ℕ) (s : (Blockarray × Memory) × Content) : Prop where
  inv : ∃ pages, Inv all size pages s.1.1 s.1.2
  bytes_eq : ∀ i a, cell s.1.1 s.1.2 i = some a →
    ∀ off < s.1.1.elementsize, s.1.2.bytes (a + off) = s.2 i off
  zero : ∀ i, cell s.1.1 s.1.2 i = none → ∀ off < s.1.1.elementsize, s.2 i off = 0

section Runs

variable {all : List ℕ} {size : ℕ} {s : (Blockarray × Memory) × Content} {op : Op}

theorem Rep.extends (h : Rep all size s) {pages : List ℕ} {barray : Blockarray} {mem : Memory}
    (hinv : Inv all size pages barray mem) (hext : Extends s.1.1 s.1.2 barray mem) :
    Rep all size ((barray, mem), s.2) := by
  refine ⟨⟨pages, hinv⟩, fun i a ha off hoff => ?_, fun i hnone off hoff => ?_⟩
  · dsimp only at ha hoff ⊢
    rw [hext.elementsize_eq] at hoff
    cases hcell : cell s.1.1 s.1.2 i with
    | none => rw [hext.zero i a hcell ha off hoff, h.zero i hcell off hoff]
    | some a' =>
      obtain rfl := Option.some_inj.mp ((hext.cell_eq i a' hcell).symm.trans ha)
      rw [hext.bytes_eq i _ hcell off hoff, h.bytes_eq i _ hcell off hoff]
  · dsimp only at hnone hoff ⊢
    rw [hext.elementsize_eq] at hoff
    cases hcell : cell s.1.1 s.1.2 i with
    | none => exact h.zero i hcell off hoff
    | some a' =>
      rw [hext.cell_eq i a' hcell] at hnone
      cases hnone

/-- **A call** keeps the cells and their contents, and a write changes one byte. -/
theorem step_spec (h : Rep all size s) (hop : Allowed s op) :
    Rep all size (step s op).2 ∧ (step s op).2.1.1.elementsize = s.1.1.elementsize ∧
      ∀ i a, cell s.1.1 s.1.2 i = some a →
        cell (step s op).2.1.1 (step s op).2.1.2 i = some a := by
  obtain ⟨pages, hinv⟩ := h.inv
  cases op with
  | assign arrayindex =>
    obtain ⟨pages', r, barray', mem', heq, hinv', hext, -⟩ := assignBlockarray_spec hinv hop
    have hcall : call s.1 (.assign arrayindex) = (r, barray', mem') := heq
    unfold step
    rw [hcall]
    exact ⟨h.extends hinv' hext, hext.elementsize_eq, hext.cell_eq⟩
  | atIndex arrayindex =>
    have hcall : call s.1 (.atIndex arrayindex) =
        (ofCell (cell s.1.1 s.1.2 arrayindex), s.1.1, s.1.2) := atBlockarray_eq hinv hop
    unfold step
    rw [hcall]
    exact ⟨h, rfl, fun _ _ ha => ha⟩
  | store arrayindex offset byte =>
    cases hcell : cell s.1.1 s.1.2 arrayindex with
    | none =>
      have hcall : call s.1 (.store arrayindex offset byte) = (.null, s.1.1, s.1.2) := by
        rw [call, store, atBlockarray_eq hinv hop.1, hcell]
        rfl
      unfold step
      rw [hcall]
      exact ⟨h, rfl, fun _ _ ha => ha⟩
    | some a =>
      have hcall : call s.1 (.store arrayindex offset byte) = (.elem a, s.1.1,
          { s.1.2 with bytes := Function.update s.1.2.bytes (a + offset) byte }) := by
        rw [call, store, atBlockarray_eq hinv hop.1, hcell]
        rfl
      unfold step
      rw [hcall]
      refine ⟨⟨⟨pages, ?_⟩, fun i b hb off hoff => ?_, fun i hnone off hoff => ?_⟩, rfl,
        fun _ _ ha => ha⟩
      · exact ⟨hinv.params, hinv.depth_lt, hinv.separate, hinv.reached, hinv.all_eq, hinv.apart⟩
      · have hb' : cell s.1.1 s.1.2 i = some b := hb
        have hoff' : off < s.1.1.elementsize := hoff
        have hold := h.bytes_eq i b hb' off hoff'
        dsimp only [contentAfter]
        by_cases hi : i = arrayindex
        · subst hi
          obtain rfl := Option.some_inj.mp (hcell.symm.trans hb')
          rw [Function.update_self]
          by_cases hsame : off = offset
          · rw [hsame, Function.update_self, Function.update_self]
          · rw [Function.update_of_ne (by omega), Function.update_of_ne hsame, hold]
        · have hapart := Set.disjoint_left.mp (hinv.disjoint hi hb' hcell)
            (show b + off ∈ Set.Ico b (b + s.1.1.elementsize) from ⟨by omega, by omega⟩)
          have hne : b + off ≠ a + offset := by
            intro heq
            have hlt : offset < s.1.1.elementsize := hop.2
            exact hapart ⟨by omega, by omega⟩
          rw [Function.update_of_ne hne, Function.update_of_ne hi, hold]
      · have hi : i ≠ arrayindex := by
          rintro rfl
          exact absurd (hcell.symm.trans hnone) (Option.some_ne_none a)
        dsimp only [contentAfter]
        rw [Function.update_of_ne hi]
        exact h.zero i hnone off hoff

/-- **Runs** keep the cells and their contents. -/
theorem run_spec (h : Rep all size s) {ops : List Op} (hok : Along step Allowed s ops) :
    Rep all size (run step s ops).2 ∧ (run step s ops).2.1.1.elementsize = s.1.1.elementsize ∧
      ∀ i a, cell s.1.1 s.1.2 i = some a →
        cell (run step s ops).2.1.1 (run step s ops).2.1.2 i = some a := by
  induction ops generalizing s with
  | nil => exact ⟨h, rfl, fun _ _ ha => ha⟩
  | cons op ops ih =>
    obtain ⟨hrep, hsize, hcell⟩ := step_spec h hok.1
    obtain ⟨hrep', hsize', hcell'⟩ := ih hrep hok.2
    exact ⟨hrep', hsize'.trans hsize, fun i a ha => hcell' i a (hcell i a ha)⟩

theorem content_eq {i off : ℕ} {ops : List Op} (h : ∀ byte, Op.store i off byte ∉ ops) :
    (run step s ops).2.2 i off = s.2 i off := by
  induction ops generalizing s with
  | nil => rfl
  | cons op ops ih =>
    have hrest := @ih (step s op).2 fun byte hmem => h byte (List.mem_cons_of_mem _ hmem)
    refine hrest.trans ?_
    change contentAfter s.2 op (call s.1 op).1 i off = s.2 i off
    cases op with
    | assign j => rfl
    | atIndex j => rfl
    | store j offset byte =>
      cases (call s.1 (.store j offset byte)).1 with
      | null => rfl
      | error => rfl
      | elem a =>
        rw [contentAfter]
        by_cases hi : i = j
        · subst hi
          have hne : off ≠ offset := by
            rintro rfl
            exact h byte List.mem_cons_self
          rw [Function.update_self, Function.update_of_ne hne]
        · rw [Function.update_of_ne hi]

/-- **A new array** has one block, which is filled with zeros. -/
theorem initBlockarray_spec {mem mem' : Memory} {pagesize elementsize : ℕ} {barray : Blockarray}
    (hinit : initBlockarray mem pagesize elementsize = (some barray, mem'))
    (happart : (mem.answers.filterMap id).Pairwise (Apart (pagesizeinbytesPagecache pagesize))) :
    Rep (mem.answers.filterMap id) (pagesizeinbytesPagecache pagesize)
      ((barray, mem'), fun _ _ => 0) ∧ barray.elementsize = elementsize ∧
      barray.elementsPerBlock = pagesizeinbytesPagecache pagesize / elementsize := by
  unfold initBlockarray at hinit
  dsimp only at hinit
  by_cases hpage : pagesize < pagesizeNrof
  swap
  · rw [if_pos hpage] at hinit
    cases (Prod.mk.inj hinit).1
  rw [if_neg (not_not_intro hpage)] at hinit
  by_cases helem : 0 < elementsize ∧ elementsize ≤ pagesizeinbytesPagecache pagesize
  swap
  · rw [if_pos helem] at hinit
    cases (Prod.mk.inj hinit).1
  rw [if_neg (not_not_intro helem)] at hinit
  rcases newMemoryblock_cases mem pagesize with ⟨heq, -⟩ | ⟨block, answers, hanswers, heq⟩
  · rw [heq] at hinit
    cases (Prod.mk.inj hinit).1
  rw [heq] at hinit
  obtain ⟨hbarray, rfl⟩ := Prod.mk.inj hinit
  have hbarray := Option.some_inj.mp hbarray
  obtain ⟨hle, hlog⟩ := pagesizeinbytesPagecache_spec hpage
  have hparams : Params barray (pagesizeinbytesPagecache pagesize) := by
    rw [← hbarray]
    refine ⟨rfl, helem.1, helem.2, rfl, log2elementsPerBlock_spec ?_ ?_, hlog⟩
    · exact Nat.div_pos helem.2 helem.1
    · exact ((Nat.div_le_self _ _).trans hle).trans_lt (by decide)
  obtain ⟨hroot, hdepth, helementsize⟩ :
      barray.root = block ∧ barray.depth = 0 ∧ barray.elementsize = elementsize := by
    rw [← hbarray]
    exact ⟨rfl, rfl, rfl⟩
  have hwalk : ∀ p x,
      walk (mem.withBlock (pagesizeinbytesPagecache pagesize) block answers).childs barray.root p =
        some x → p = [] ∧ x = block := by
    intro p x hp
    rw [hroot] at hp
    cases p with
    | nil => exact ⟨rfl, (Option.some_inj.mp hp).symm⟩
    | cons c p =>
      have hblank : (mem.withBlock (pagesizeinbytesPagecache pagesize) block answers).childs block =
          fun _ => none := Function.update_self _ _ _
      rw [walk_cons, hblank] at hp
      cases hp
  refine ⟨⟨⟨[block], hparams, by simp [hdepth], ?_, ?_, ?_, happart⟩, ?_, fun _ _ _ _ => rfl⟩,
    helementsize, by rw [hparams.elementsPerBlock_eq, helementsize]⟩
  · intro p q x hp hq
    rw [(hwalk p x hp).1, (hwalk q x hq).1]
  · rintro x ⟨p, hp⟩
    rw [(hwalk p x hp).2]
    exact List.mem_singleton_self block
  · rw [hanswers]
    rfl
  · intro i a ha off hoff
    obtain ⟨hi, x, hx, rfl⟩ := cell_eq_some_iff.mp ha
    obtain rfl := (hwalk _ x hx).2
    have hmod := hparams.elem_le (Nat.mod_lt i hparams.elementsPerBlock_pos)
    dsimp only at hoff ⊢
    exact if_pos ⟨by omega, by omega⟩

theorem ofCell_eq_elem_iff {o : Option ℕ} {a : ℕ} : ofCell o = .elem a ↔ o = some a := by
  cases o with
  | none => simp [ofCell]
  | some b => simp [ofCell]

/-- **Every index has a cell of its own.** After any calls on a new array, where the allocator may
fail at any time and otherwise returns blocks that do not overlap:

* `at_blockarray` returns a cell or the null pointer, and changes nothing;
* a cell lies within one of the blocks, and does not overlap the cell of another index;
* it contains what was written to it last, or zeros;
* `assign_blockarray` returns the cell, or an allocation fails; in both cases all cells and their
  contents stay as they are;
* the cell does not move, whatever calls follow;
* the shift and the division give the same block and the same element. -/
theorem blockarray_exact {pagesize elementsize : ℕ} {mem mem' : Memory} {barray : Blockarray}
    (hinit : initBlockarray mem pagesize elementsize = (some barray, mem'))
    (happart : (mem.answers.filterMap id).Pairwise (Apart (pagesizeinbytesPagecache pagesize)))
    {ops : List Op} (hok : Along step Allowed ((barray, mem'), fun _ _ => 0) ops) :
    let s := (run step ((barray, mem'), fun _ _ => 0) ops).2
    let elem (s : (Blockarray × Memory) × Content) (i a : ℕ) : Prop :=
      (atBlockarray s.1.1 s.1.2 i).1 = .elem a
    (∀ i < 2 ^ 64, (∃ a, atBlockarray s.1.1 s.1.2 i = (.elem a, s.1)) ∨
        atBlockarray s.1.1 s.1.2 i = (.null, s.1)) ∧
      (∀ i < 2 ^ 64, ∀ a, elem s i a → ∃ block ∈ mem.answers.filterMap id,
        block ≤ a ∧ a + elementsize ≤ block + pagesizeinbytesPagecache pagesize) ∧
      (∀ i < 2 ^ 64, ∀ j < 2 ^ 64, ∀ a b, i ≠ j → elem s i a → elem s j b →
        Disjoint (Set.Ico a (a + elementsize)) (Set.Ico b (b + elementsize))) ∧
      (∀ i < 2 ^ 64, ∀ a, elem s i a → ∀ off < elementsize, s.1.2.bytes (a + off) = s.2 i off) ∧
      (∀ i off, (∀ byte, Op.store i off byte ∉ ops) → s.2 i off = 0) ∧
      (∀ i < 2 ^ 64, ((∃ a, (step s (.assign i)).1 = .elem a ∧ elem (step s (.assign i)).2 i a) ∨
          (step s (.assign i)).1 = .error ∧ Failed s.1.2 (step s (.assign i)).2.1.2) ∧
        ∀ j < 2 ^ 64, ∀ a, elem s j a → elem (step s (.assign i)).2 j a ∧
          ∀ off < elementsize, (step s (.assign i)).2.1.2.bytes (a + off) = s.1.2.bytes (a + off)) ∧
      (∀ ops', Along step Allowed s ops' → ∀ i < 2 ^ 64, ∀ a, elem s i a →
        elem (run step s ops').2 i a ∧
          (step (run step s ops').2 (.assign i)).1 = .elem a) ∧
      ∀ i, locate s.1.1 i = (i / (pagesizeinbytesPagecache pagesize / elementsize),
        i % (pagesizeinbytesPagecache pagesize / elementsize)) := by
  intro s elem
  obtain ⟨hnew, helementsize, -⟩ := initBlockarray_spec hinit happart
  obtain ⟨hrep, hsize, -⟩ := run_spec hnew hok
  have hes : s.1.1.elementsize = elementsize := hsize.trans helementsize
  have helem : ∀ {s : (Blockarray × Memory) × Content}, Rep (mem.answers.filterMap id)
      (pagesizeinbytesPagecache pagesize) s → ∀ i < 2 ^ 64, ∀ a,
        elem s i a ↔ cell s.1.1 s.1.2 i = some a := by
    intro s hrep i hi a
    obtain ⟨pages, hinv⟩ := hrep.inv
    dsimp only [elem]
    rw [atBlockarray_eq hinv hi]
    exact ofCell_eq_elem_iff
  obtain ⟨pages, hinv⟩ := hrep.inv
  refine ⟨fun i hi => ?_, fun i hi a ha => ?_, fun i hi j hj a b hij ha hb => ?_,
    fun i hi a ha off hoff => ?_, fun i off hno => content_eq hno, fun i hi => ⟨?_, ?_⟩,
    fun ops' hok' i hi a ha => ?_, fun i => ?_⟩
  · rw [atBlockarray_eq hinv hi]
    cases cell s.1.1 s.1.2 i with
    | none => exact Or.inr rfl
    | some a => exact Or.inl ⟨a, rfl⟩
  · obtain ⟨block, hblock, hwithin⟩ := hinv.cell_within ((helem hrep i hi a).mp ha)
    exact ⟨block, hinv.mem_all hblock, by rwa [← hes]⟩
  · rw [← hes]
    exact hinv.disjoint hij ((helem hrep i hi a).mp ha) ((helem hrep j hj b).mp hb)
  · exact hrep.bytes_eq i a ((helem hrep i hi a).mp ha) off (by rwa [hes])
  · obtain ⟨pages', r, barray', mem', heq, hinv', hext, hresult⟩ := assignBlockarray_spec hinv hi
    have hcall : call s.1 (.assign i) = (r, barray', mem') := heq
    have hrep' := (@step_spec _ _ s (.assign i) hrep hi).1
    rw [step, hcall] at hrep' ⊢
    rcases hresult with ⟨rfl, hfailed⟩ | ⟨a, rfl, ha⟩
    · exact Or.inr ⟨rfl, hfailed⟩
    · exact Or.inl ⟨a, rfl, (helem hrep' i hi a).mpr ha⟩
  · intro j hj a ha
    have ha' := (helem hrep j hj a).mp ha
    obtain ⟨pages', r, barray', mem', heq, hinv', hext, -⟩ := assignBlockarray_spec hinv hi
    have hcall : call s.1 (.assign i) = (r, barray', mem') := heq
    have hrep' := (@step_spec _ _ s (.assign i) hrep hi).1
    rw [step, hcall] at hrep' ⊢
    exact ⟨(helem hrep' j hj a).mpr (hext.cell_eq j a ha'),
      fun off hoff => hext.bytes_eq j a ha' off (by rwa [hes])⟩
  · obtain ⟨hrep', -, hcell⟩ := run_spec hrep hok'
    have ha' := hcell i a ((helem hrep i hi a).mp ha)
    obtain ⟨pages', hinv'⟩ := hrep'.inv
    refine ⟨(helem hrep' i hi a).mpr ha', ?_⟩
    exact congrArg Prod.fst (assign2Blockarray_of_cell hinv' hi true ha')
  · rw [locate_eq hinv.params, hinv.params.elementsPerBlock_eq, hes]

/-- A memory with a block at 256, in which the allocator fails after that. -/
def oneBlock : Memory := ⟨fun _ _ => none, fun _ => 1, [some 256, none]⟩

/-- An element of three bytes is written, and it keeps its bytes when the array cannot grow. -/
theorem blockarray_exact_oneBlock :
    ∃ barray mem', initBlockarray oneBlock 0 3 = (some barray, mem') ∧
      (run step ((barray, mem'), fun _ _ => 0)
        [.assign 5, .store 5 1 7, .assign 100]).2.1.2.bytes 272 = 7 := by
  have hinit : initBlockarray oneBlock 0 3 = (some ⟨85, 256, 3, 0, 0, 5, 0⟩,
      oneBlock.withBlock 256 256 [none]) := by rfl
  have happart : (oneBlock.answers.filterMap id).Pairwise (Apart (pagesizeinbytesPagecache 0)) :=
    List.pairwise_singleton _ _
  have hok : Along step Allowed ((⟨85, 256, 3, 0, 0, 5, 0⟩, oneBlock.withBlock 256 256 [none]),
      fun _ _ => 0) [.assign 5, .store 5 1 7, .assign 100] :=
    ⟨show 5 < 2 ^ 64 by decide, ⟨by decide, by decide⟩, show 100 < 2 ^ 64 by decide, True.intro⟩
  refine ⟨_, _, hinit, ?_⟩
  obtain ⟨-, -, -, -, -, -, hfixed, -⟩ := @blockarray_exact _ _ _ _ _ hinit happart [] True.intro
  obtain ⟨-, -, -, hbytes, -⟩ := blockarray_exact hinit happart hok
  have hcell := (hfixed _ hok 5 (by decide) 271 rfl).1
  exact hbytes 5 (by decide) 271 hcell 1 (by decide)

end Runs

end Blockarray
end CKern
