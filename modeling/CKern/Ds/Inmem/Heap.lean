import Mathlib.Data.List.GetD
import Mathlib.Data.Multiset.AddSub
import Mathlib.Tactic.Ring
import CKern.Library.BinaryHeap
import CKern.Library.Refinement

/-!
# `ds/inmem/heap.c`: a priority queue in an array of bytes

* `elemAt`, `copy`, `swap`: the elements in the array, which are addressed by byte offsets and moved
  long by long or byte by byte.
* `initHeap`, `insertHeap`, `removeHeap`, `invariantHeap`: the operations.
* `elems`: the array as a sequence of elements, on which the offsets act as indices.
* `heap_exact`: the heap is a bounded priority queue.
-/

namespace CKern

open Function Refinement BinaryHeap

/-! ## Elements in an array of bytes -/

namespace Heap

/-- The bytes of an element. -/
abbrev Elem (elemsize : ℕ) := Vector UInt8 elemsize

/-- The byte at an offset. -/
def byte (array : List UInt8) (k : ℕ) : UInt8 := array.getD k 0

/-- `len` bytes, from an offset on. -/
def read (array : List UInt8) (off len : ℕ) : List UInt8 :=
  (List.range len).map fun i => byte array (off + i)

/-- The array with the bytes from an offset on replaced. -/
def write (array : List UInt8) (off : ℕ) (bytes : List UInt8) : List UInt8 :=
  array.mapIdx fun k b => if off ≤ k ∧ k < off + bytes.length then byte bytes (k - off) else b

/-- `sizeof(long)`. -/
def sizeofLong : ℕ := 8

/-- `INITCOPYTYPE`. -/
def copytype (elemsize : ℕ) : ℕ :=
  if elemsize = sizeofLong then 0 else if elemsize % sizeofLong ≠ 0 then 2 else 1

/-- The loop of `COPY`, for units of `unit` bytes. -/
def copyLoop (unit dest src : ℕ) : ℕ → List UInt8 → List UInt8
  | 0, array => array
  | i + 1, array =>
    let array := copyLoop unit dest src i array
    write array (dest + i * unit) (read array (src + i * unit) unit)

/-- `COPY`, within the array. -/
def copy (elemsize : ℕ) (array : List UInt8) (dest src : ℕ) : List UInt8 :=
  if copytype elemsize = 0 then write array dest (read array src sizeofLong)
  else if copytype elemsize = 1 then
    copyLoop sizeofLong dest src (elemsize / sizeofLong) array
  else copyLoop 1 dest src elemsize array

/-- The loop of `SWAP`, for units of `unit` bytes. -/
def swapLoop (unit parent child : ℕ) : ℕ → List UInt8 → List UInt8
  | 0, array => array
  | i + 1, array =>
    let array := swapLoop unit parent child i array
    let temp := read array (parent + i * unit) unit
    let array := write array (parent + i * unit) (read array (child + i * unit) unit)
    write array (child + i * unit) temp

/-- `SWAP`. -/
def swap (elemsize : ℕ) (array : List UInt8) (parent child : ℕ) : List UInt8 :=
  if copytype elemsize = 0 then
    let temp := read array parent sizeofLong
    let array := write array parent (read array child sizeofLong)
    write array child temp
  else if copytype elemsize = 1 then
    swapLoop sizeofLong parent child (elemsize / sizeofLong) array
  else swapLoop 1 parent child elemsize array

/-- The element at an offset. -/
def elemAt {elemsize : ℕ} (array : List UInt8) (off : ℕ) : Elem elemsize :=
  Vector.ofFn fun i => byte array (off + i)

/-- `COPY`, from an object outside of the array. -/
def store {elemsize : ℕ} (array : List UInt8) (dest : ℕ) (elem : Elem elemsize) : List UInt8 :=
  write array dest elem.toList

/-! ## The loops -/

section Loops

variable {elemsize : ℕ} (cmp : Elem elemsize → Elem elemsize → Ordering)

/-- `ISSWAP`, of two elements of the array. -/
def IsSwap (array : List UInt8) (parent child : ℕ) : Prop :=
  cmp (elemAt array parent) (elemAt array child) = .lt

instance (array : List UInt8) (parent child : ℕ) : Decidable (IsSwap cmp array parent child) :=
  inferInstanceAs (Decidable (_ = _))

/-- The offset `swapelem` of the greatest of a parent and its children. -/
def swapelemOf (cmaxoff : ℕ) (array : List UInt8) (parent : ℕ) : ℕ :=
  let child := 2 * (parent + elemsize)
  let swapelem := if child < cmaxoff ∧ IsSwap cmp array parent child then child else parent
  let child := child - elemsize
  if IsSwap cmp array swapelem child then child else swapelem

theorem le_swapelemOf (cmaxoff : ℕ) (array : List UInt8) (parent : ℕ) :
    parent ≤ swapelemOf cmp cmaxoff array parent := by
  unfold swapelemOf
  dsimp only
  split_ifs <;> omega

/-- The inner loop of `build_heap`. -/
def siftLoop (cmaxoff pmaxoff : ℕ) (array : List UInt8) (parent2 swapelem : ℕ)
    (_h : parent2 ≤ swapelem) : List UInt8 :=
  if _hne : parent2 = swapelem then array
  else
    let array := swap elemsize array parent2 swapelem
    if _hend : pmaxoff ≤ swapelem then array
    else
      siftLoop cmaxoff pmaxoff array swapelem (swapelemOf cmp cmaxoff array swapelem)
        (le_swapelemOf cmp cmaxoff array swapelem)
  termination_by pmaxoff - parent2
  decreasing_by omega

/-- `swapelem` in the outer loop of `build_heap`, where the right child is known to be there. -/
def swapelemOfBoth (array : List UInt8) (parent : ℕ) : ℕ :=
  let child := 2 * parent
  let parent := parent - elemsize
  let swapelem := if IsSwap cmp array parent child then child else parent
  let child := child - elemsize
  if IsSwap cmp array swapelem child then child else swapelem

theorem le_swapelemOfBoth (array : List UInt8) (parent : ℕ) :
    parent - elemsize ≤ swapelemOfBoth cmp array parent := by
  unfold swapelemOfBoth
  dsimp only
  split_ifs <;> omega

/-- The outer loop of `build_heap`. -/
def buildLoop (hpos : 0 < elemsize) (cmaxoff pmaxoff : ℕ) (array : List UInt8) (parent : ℕ) :
    List UInt8 :=
  if _h : parent = 0 then array
  else
    buildLoop hpos cmaxoff pmaxoff
      (siftLoop cmp cmaxoff pmaxoff array (parent - elemsize) (swapelemOfBoth cmp array parent)
        (le_swapelemOfBoth cmp array parent)) (parent - elemsize)
  termination_by parent
  decreasing_by omega

/-- `build_heap`. -/
def buildHeap (hpos : 0 < elemsize) (nrofelem : ℕ) (array : List UInt8) : List UInt8 :=
  if nrofelem ≤ 1 then array
  else
    let cmaxoff := nrofelem * elemsize
    let pmaxoff := nrofelem / 2 * elemsize
    let parent := pmaxoff - elemsize
    let swapelem := swapelemOf cmp cmaxoff array parent
    let array := if parent ≠ swapelem then swap elemsize array parent swapelem else array
    buildLoop cmp hpos cmaxoff pmaxoff array parent

/-- The loop of `insert_heap`: the array, and the offset of the new element. -/
def insertLoop (elem : Elem elemsize) (array : List UInt8) (i child : ℕ) : List UInt8 × ℕ :=
  if _h : i = 0 then (array, child)
  else
    let i' := i - 1
    let parent := child - elemsize
    let parent := if i' &&& 1 ≠ 0 then parent - elemsize else parent
    let i' := i' / 2
    let parent := parent / 2
    if cmp (elemAt array parent) elem ≠ .lt then (array, child)
    else insertLoop elem (copy elemsize array child parent) i' parent
  termination_by i
  decreasing_by omega

/-- `swapelem` in the loop of `remove_heap`: the offset of the greatest of the last element, which is
to take the place of the parent, and the children of the parent. -/
def swapelemOfLast (cmaxoff : ℕ) (array : List UInt8) (parent : ℕ) : ℕ :=
  let child := 2 * parent + elemsize
  let swapelem := if IsSwap cmp array cmaxoff child then child else cmaxoff
  let child := child + elemsize
  if child < cmaxoff ∧ IsSwap cmp array swapelem child then child else swapelem

theorem lt_swapelemOfLast (hpos : 0 < elemsize) {cmaxoff : ℕ} {array : List UInt8} {parent : ℕ}
    (hne : swapelemOfLast cmp cmaxoff array parent ≠ cmaxoff) :
    parent < swapelemOfLast cmp cmaxoff array parent := by
  unfold swapelemOfLast at hne ⊢
  dsimp only at hne ⊢
  split_ifs at hne ⊢ <;> omega

/-- The loop of `remove_heap`: the array, and the offset that is free. -/
def removeLoop (hpos : 0 < elemsize) (cmaxoff pmaxoff : ℕ) (array : List UInt8) (parent : ℕ) :
    List UInt8 × ℕ :=
  if _h : parent < pmaxoff then
    if _hne : swapelemOfLast cmp cmaxoff array parent = cmaxoff then (array, parent)
    else
      removeLoop hpos cmaxoff pmaxoff
        (copy elemsize array parent (swapelemOfLast cmp cmaxoff array parent))
        (swapelemOfLast cmp cmaxoff array parent)
  else (array, parent)
  termination_by pmaxoff - parent
  decreasing_by
    have hlt := lt_swapelemOfLast cmp hpos _hne
    omega

/-- The loop of `invariant_heap`: the heap condition holds for the parents in front of `parent`. -/
def invariantLoop (hpos : 0 < elemsize) (array : List UInt8) (parent : ℕ) : Bool :=
  if _h : parent = 0 then true
  else
    let child := 2 * parent
    let parent' := parent - elemsize
    if IsSwap cmp array parent' child then false
    else
      let child := child - elemsize
      if IsSwap cmp array parent' child then false
      else invariantLoop hpos array parent'
  termination_by parent
  decreasing_by omega

end Loops

/-! ## Bytes and elements -/

section Bytes

variable {array : List UInt8}

theorem length_write (array : List UInt8) (off : ℕ) (bytes : List UInt8) :
    (write array off bytes).length = array.length := List.length_mapIdx

theorem length_read (array : List UInt8) (off len : ℕ) : (read array off len).length = len := by
  rw [read, List.length_map, List.length_range]

theorem byte_read {off len i : ℕ} (h : i < len) : byte (read array off len) i = byte array (off + i) := by
  simp [byte, read, List.getD_eq_getElem?_getD, h]

theorem byte_write {off : ℕ} {bytes : List UInt8} (h : off + bytes.length ≤ array.length) (k : ℕ) :
    byte (write array off bytes) k =
      if off ≤ k ∧ k < off + bytes.length then byte bytes (k - off) else byte array k := by
  unfold write byte
  by_cases hk : k < array.length
  · rw [List.getD_eq_getElem _ _ (by rwa [List.length_mapIdx]), List.getElem_mapIdx,
      List.getD_eq_getElem array _ hk]
  · rw [List.getD_eq_default _ _ (by rw [List.length_mapIdx]; omega), if_neg (by omega),
      List.getD_eq_default _ _ (by omega)]

theorem byte_move {dest src unit : ℕ} (h : dest + unit ≤ array.length) (k : ℕ) :
    byte (write array dest (read array src unit)) k =
      if dest ≤ k ∧ k < dest + unit then byte array (src + (k - dest)) else byte array k := by
  rw [byte_write (by rwa [length_read]), length_read]
  split_ifs with hk
  · rw [byte_read (by omega)]
  · rfl

theorem length_copyLoop (unit dest src n : ℕ) (array : List UInt8) :
    (copyLoop unit dest src n array).length = array.length := by
  induction n with
  | zero => rfl
  | succ n ih => rw [copyLoop, length_write, ih]

theorem byte_copyLoop {unit dest src n : ℕ} (h : dest + n * unit ≤ array.length)
    (hdisj : dest + n * unit ≤ src ∨ src + n * unit ≤ dest) (k : ℕ) :
    byte (copyLoop unit dest src n array) k =
      if dest ≤ k ∧ k < dest + n * unit then byte array (src + (k - dest)) else byte array k := by
  induction n generalizing k with
  | zero => rw [copyLoop, if_neg (by omega)]
  | succ n ih =>
    rw [Nat.succ_mul] at h hdisj
    have hih := ih (by omega) (by omega)
    rw [copyLoop, byte_move (by rw [length_copyLoop]; omega), hih, hih, Nat.succ_mul]
    by_cases hnew : dest + n * unit ≤ k ∧ k < dest + n * unit + unit
    · -- what is read has not been written yet
      rw [if_pos hnew, if_neg (by omega), if_pos (by omega)]
      congr 1
      omega
    · rw [if_neg hnew]
      by_cases hold : dest ≤ k ∧ k < dest + n * unit
      · rw [if_pos hold, if_pos (by omega)]
      · rw [if_neg hold, if_neg (by omega)]

theorem length_swapLoop (unit parent child n : ℕ) (array : List UInt8) :
    (swapLoop unit parent child n array).length = array.length := by
  induction n with
  | zero => rfl
  | succ n ih => rw [swapLoop, length_write, length_write, ih]

theorem byte_exchange {parent child unit : ℕ} (h : child + unit ≤ array.length)
    (hle : parent + unit ≤ child) (k : ℕ) :
    byte (write (write array parent (read array child unit)) child (read array parent unit)) k =
      if parent ≤ k ∧ k < parent + unit then byte array (child + (k - parent))
      else if child ≤ k ∧ k < child + unit then byte array (parent + (k - child))
      else byte array k := by
  rw [byte_write (by rw [length_read, length_write]; exact h), length_read, byte_move (by omega)]
  by_cases hc : child ≤ k ∧ k < child + unit
  · rw [if_pos hc, if_neg (by omega), if_pos hc, byte_read (by omega)]
  · rw [if_neg hc, if_neg hc]

theorem byte_swapLoop {unit parent child n : ℕ} (h : child + n * unit ≤ array.length)
    (hle : parent + n * unit ≤ child) (k : ℕ) :
    byte (swapLoop unit parent child n array) k =
      if parent ≤ k ∧ k < parent + n * unit then byte array (child + (k - parent))
      else if child ≤ k ∧ k < child + n * unit then byte array (parent + (k - child))
      else byte array k := by
  induction n generalizing k with
  | zero => rw [swapLoop, if_neg (by omega), if_neg (by omega)]
  | succ n ih =>
    rw [Nat.succ_mul] at h hle
    have hih := ih (by omega) (by omega)
    rw [swapLoop, byte_exchange (by rw [length_swapLoop]; omega) (by omega), hih, hih, hih,
      Nat.succ_mul]
    by_cases hp : parent + n * unit ≤ k ∧ k < parent + n * unit + unit
    · rw [if_pos hp, if_neg (by omega), if_neg (by omega), if_pos (by omega)]
      congr 1
      omega
    rw [if_neg hp]
    by_cases hc : child + n * unit ≤ k ∧ k < child + n * unit + unit
    · rw [if_pos hc, if_neg (by omega), if_neg (by omega), if_neg (by omega), if_pos (by omega)]
      congr 1
      omega
    rw [if_neg hc]
    by_cases hp' : parent ≤ k ∧ k < parent + n * unit
    · rw [if_pos hp', if_pos (by omega)]
    rw [if_neg hp', if_neg (show ¬ (parent ≤ k ∧ k < parent + (n * unit + unit)) by omega)]
    by_cases hc' : child ≤ k ∧ k < child + n * unit
    · rw [if_pos hc', if_pos (by omega)]
    · rw [if_neg hc', if_neg (by omega)]

theorem copytype_cases (elemsize : ℕ) :
    copytype elemsize = 0 ∧ elemsize = sizeofLong ∨
      copytype elemsize = 1 ∧ elemsize / sizeofLong * sizeofLong = elemsize ∨
        copytype elemsize = 2 := by
  unfold copytype
  by_cases h0 : elemsize = sizeofLong
  · exact Or.inl ⟨if_pos h0, h0⟩
  rw [if_neg h0]
  by_cases h2 : elemsize % sizeofLong ≠ 0
  · exact Or.inr (Or.inr (if_pos h2))
  · rw [if_neg h2]
    rw [not_not] at h2
    exact Or.inr (Or.inl ⟨rfl, Nat.div_mul_cancel (Nat.dvd_of_mod_eq_zero h2)⟩)

/-- **The choice of the unit does not matter**: an element is copied as a whole. -/
theorem copy_eq (elemsize : ℕ) (array : List UInt8) (dest src : ℕ) :
    ∃ unit n, n * unit = elemsize ∧ copy elemsize array dest src = copyLoop unit dest src n array := by
  unfold copy
  rcases copytype_cases elemsize with ⟨h, hsize⟩ | ⟨h, hsize⟩ | h
  · refine ⟨sizeofLong, 1, by rw [hsize, one_mul], ?_⟩
    rw [h, if_pos rfl, copyLoop, copyLoop, zero_mul, Nat.add_zero, Nat.add_zero]
  · refine ⟨sizeofLong, elemsize / sizeofLong, hsize, ?_⟩
    rw [h, if_neg one_ne_zero, if_pos rfl]
  · refine ⟨1, elemsize, mul_one _, ?_⟩
    rw [h, if_neg two_ne_zero, if_neg (show ¬ 2 = 1 by omega)]

theorem swap_eq (elemsize : ℕ) (array : List UInt8) (parent child : ℕ) :
    ∃ unit n, n * unit = elemsize ∧
      swap elemsize array parent child = swapLoop unit parent child n array := by
  unfold swap
  rcases copytype_cases elemsize with ⟨h, hsize⟩ | ⟨h, hsize⟩ | h
  · refine ⟨sizeofLong, 1, by rw [hsize, one_mul], ?_⟩
    rw [h, if_pos rfl, swapLoop, swapLoop, zero_mul, Nat.add_zero, Nat.add_zero]
  · refine ⟨sizeofLong, elemsize / sizeofLong, hsize, ?_⟩
    rw [h, if_neg one_ne_zero, if_pos rfl]
  · refine ⟨1, elemsize, mul_one _, ?_⟩
    rw [h, if_neg two_ne_zero, if_neg (show ¬ 2 = 1 by omega)]

theorem length_copy (elemsize : ℕ) (array : List UInt8) (dest src : ℕ) :
    (copy elemsize array dest src).length = array.length := by
  obtain ⟨unit, n, -, heq⟩ := copy_eq elemsize array dest src
  rw [heq, length_copyLoop]

theorem length_swap (elemsize : ℕ) (array : List UInt8) (parent child : ℕ) :
    (swap elemsize array parent child).length = array.length := by
  obtain ⟨unit, n, -, heq⟩ := swap_eq elemsize array parent child
  rw [heq, length_swapLoop]

theorem mem_slot_iff {elemsize i k t : ℕ} (ht : t < elemsize) :
    i * elemsize ≤ k * elemsize + t ∧ k * elemsize + t < i * elemsize + elemsize ↔ k = i := by
  constructor
  · rintro ⟨h1, h2⟩
    rcases lt_trichotomy k i with hlt | heq | hlt
    · have := Nat.mul_le_mul_right elemsize (Nat.succ_le_of_lt hlt)
      rw [Nat.succ_mul] at this
      omega
    · exact heq
    · have := Nat.mul_le_mul_right elemsize (Nat.succ_le_of_lt hlt)
      rw [Nat.succ_mul] at this
      omega
  · rintro rfl
    omega

theorem slot_disjoint (elemsize : ℕ) {i j : ℕ} (h : i < j) :
    i * elemsize + elemsize ≤ j * elemsize := by
  have := Nat.mul_le_mul_right elemsize (Nat.succ_le_of_lt h)
  rwa [Nat.succ_mul] at this

variable {elemsize : ℕ}

/-- The elements of the array. -/
def elems (array : List UInt8) (i : ℕ) : Elem elemsize := elemAt array (i * elemsize)

theorem elemAt_congr {b : List UInt8} {off off' : ℕ}
    (h : ∀ t, t < elemsize → byte array (off + t) = byte b (off' + t)) :
    (elemAt array off : Elem elemsize) = elemAt b off' := by
  refine Vector.ext fun t ht => ?_
  rw [elemAt, elemAt, Vector.getElem_ofFn, Vector.getElem_ofFn]
  exact h t ht

theorem elems_copy {i j : ℕ} (hi : (i + 1) * elemsize ≤ array.length) (hne : i ≠ j) :
    (elems (copy elemsize array (i * elemsize) (j * elemsize)) : ℕ → Elem elemsize) =
      update (elems array) i (elems array j) := by
  obtain ⟨unit, n, hsize, heq⟩ := copy_eq elemsize array (i * elemsize) (j * elemsize)
  rw [Nat.succ_mul] at hi
  have hdisj : i * elemsize + n * unit ≤ j * elemsize ∨ j * elemsize + n * unit ≤ i * elemsize := by
    rw [hsize]
    rcases Nat.lt_or_gt_of_ne hne with hlt | hlt
    · exact Or.inl (slot_disjoint elemsize hlt)
    · exact Or.inr (slot_disjoint elemsize hlt)
  have hbyte := @byte_copyLoop array unit (i * elemsize) (j * elemsize) n (by rwa [hsize]) hdisj
  rw [← heq, hsize] at hbyte
  ext1 k
  by_cases hk : k = i
  · subst hk
    rw [update_self]
    refine elemAt_congr fun t ht => ?_
    rw [hbyte, if_pos (by omega)]
    congr 1
    omega
  · rw [update_of_ne hk]
    refine elemAt_congr fun t ht => ?_
    rw [hbyte, if_neg fun h => hk ((mem_slot_iff ht).mp h)]

theorem elems_swap {i j : ℕ} (hj : (j + 1) * elemsize ≤ array.length) (hlt : i < j) :
    (elems (swap elemsize array (i * elemsize) (j * elemsize)) : ℕ → Elem elemsize) =
      elems array ∘ Equiv.swap i j := by
  obtain ⟨unit, n, hsize, heq⟩ := swap_eq elemsize array (i * elemsize) (j * elemsize)
  rw [Nat.succ_mul] at hj
  have hbyte := @byte_swapLoop array unit (i * elemsize) (j * elemsize) n (by rwa [hsize])
    (by rw [hsize]; exact slot_disjoint elemsize hlt)
  rw [← heq, hsize] at hbyte
  ext1 k
  rw [comp_apply]
  by_cases hki : k = i
  · subst hki
    rw [Equiv.swap_apply_left]
    refine elemAt_congr fun t ht => ?_
    rw [hbyte, if_pos (by omega)]
    congr 1
    omega
  by_cases hkj : k = j
  · subst hkj
    rw [Equiv.swap_apply_right]
    refine elemAt_congr fun t ht => ?_
    rw [hbyte, if_neg fun h => hki ((mem_slot_iff ht).mp h), if_pos (by omega)]
    congr 1
    omega
  · rw [Equiv.swap_apply_of_ne_of_ne hki hkj]
    refine elemAt_congr fun t ht => ?_
    rw [hbyte, if_neg fun h => hki ((mem_slot_iff ht).mp h),
      if_neg fun h => hkj ((mem_slot_iff ht).mp h)]

theorem length_store (array : List UInt8) (off : ℕ) (elem : Elem elemsize) :
    (store array off elem).length = array.length := length_write array off elem.toList

theorem elems_store {i : ℕ} (hi : (i + 1) * elemsize ≤ array.length) (elem : Elem elemsize) :
    elems (store array (i * elemsize) elem) = update (elems array) i elem := by
  rw [Nat.succ_mul] at hi
  have hlen : elem.toList.length = elemsize := Vector.length_toList
  have hbyte := @byte_write array (i * elemsize) elem.toList (by rwa [hlen])
  rw [hlen] at hbyte
  ext1 k
  by_cases hk : k = i
  · subst hk
    rw [update_self]
    refine Vector.ext fun t ht => ?_
    rw [elems, elemAt, Vector.getElem_ofFn, store, hbyte, if_pos (by omega), byte,
      List.getD_eq_getElem _ _ (by omega), Vector.getElem_toList]
    simp only [Nat.add_sub_cancel_left]
  · rw [update_of_ne hk]
    refine elemAt_congr fun t ht => ?_
    rw [store, hbyte, if_neg fun h => hk ((mem_slot_iff ht).mp h)]

end Bytes

/-! ## What the loops do -/

section LoopSpecs

variable {elemsize n : ℕ} {cmp : Elem elemsize → Elem elemsize → Ordering} {array : List UInt8}

theorem ite_isSwap (i j a b : ℕ) :
    (if IsSwap cmp array (i * elemsize) (j * elemsize) then a * elemsize else b * elemsize) =
      (if cmp (elems array i) (elems array j) = .lt then a else b) * elemsize := by
  by_cases h : cmp (elems array i) (elems array j) = .lt
  · rw [if_pos h]
    exact if_pos h
  · rw [if_neg h]
    exact if_neg h

theorem ite_lt_and_isSwap (hpos : 0 < elemsize) (i j a b : ℕ) :
    (if j * elemsize < n * elemsize ∧ IsSwap cmp array (i * elemsize) (j * elemsize) then
        a * elemsize else b * elemsize) =
      (if j < n ∧ cmp (elems array i) (elems array j) = .lt then a else b) * elemsize := by
  by_cases h : j < n ∧ cmp (elems array i) (elems array j) = .lt
  · rw [if_pos h]
    exact if_pos ⟨Nat.mul_lt_mul_of_pos_right h.1 hpos, h.2⟩
  · rw [if_neg h]
    exact if_neg fun hand => h ⟨Nat.lt_of_mul_lt_mul_right hand.1, hand.2⟩

theorem two_mul_add_eq (p elemsize : ℕ) :
    2 * (p * elemsize + elemsize) = (2 * p + 2) * elemsize := by ring

theorem right_sub_eq (p elemsize : ℕ) :
    (2 * p + 2) * elemsize - elemsize = (2 * p + 1) * elemsize := by
  rw [show (2 * p + 2) * elemsize = (2 * p + 1) * elemsize + elemsize by ring, Nat.add_sub_cancel]

theorem swapelemOf_eq (hpos : 0 < elemsize) (p : ℕ) :
    swapelemOf cmp (n * elemsize) array (p * elemsize) =
      largest cmp n (elems array) p * elemsize := by
  unfold swapelemOf
  dsimp only
  rw [two_mul_add_eq, right_sub_eq, ite_lt_and_isSwap hpos, ite_isSwap]
  rfl

theorem swapelemOfBoth_eq {p : ℕ} (h : 2 * p + 2 < n) :
    swapelemOfBoth cmp array ((p + 1) * elemsize) = largest cmp n (elems array) p * elemsize := by
  unfold swapelemOfBoth
  dsimp only
  rw [Nat.succ_mul, two_mul_add_eq, right_sub_eq, Nat.add_sub_cancel, ite_isSwap, ite_isSwap,
    largest]
  simp only [h, true_and]

theorem swapelemOfLast_eq (hpos : 0 < elemsize) (p : ℕ) :
    swapelemOfLast cmp (n * elemsize) array (p * elemsize) =
      largestOfLast cmp n (elems array) p * elemsize := by
  unfold swapelemOfLast
  dsimp only
  have hleft : 2 * (p * elemsize) + elemsize = (2 * p + 1) * elemsize := by ring
  have hright : (2 * p + 1) * elemsize + elemsize = (2 * p + 2) * elemsize := by ring
  rw [hleft, hright, ite_isSwap, ite_lt_and_isSwap hpos]
  rfl

theorem slot_le (hlen : n * elemsize ≤ array.length) {i : ℕ} (h : i < n) :
    (i + 1) * elemsize ≤ array.length :=
  (Nat.mul_le_mul_right elemsize (Nat.succ_le_of_lt h)).trans hlen

/-- The array `array'` has the same elements, and from the node `k` on they are in order. -/
structure Rearranged (cmp : Elem elemsize → Elem elemsize → Ordering) (k n : ℕ)
    (array array' : List UInt8) : Prop where
  length_eq : array'.length = array.length
  ordered : OrderedFrom cmp k n (elems array')
  contents_eq : contents n (elems array' : ℕ → Elem elemsize) = contents n (elems array)

theorem downReady_swap (hlen : n * elemsize ≤ array.length) {k p m : ℕ}
    (hready : DownReady cmp k n (elems array) p) (hk : k ≤ p)
    (hl : Largest cmp n (elems array) p m) (hne : m ≠ p) :
    p < m ∧ m < n ∧
      DownReady cmp k n (elems (swap elemsize array (p * elemsize) (m * elemsize))) m ∧
      contents n (elems (swap elemsize array (p * elemsize) (m * elemsize)) : ℕ → Elem elemsize) =
        contents n (elems array) := by
  obtain ⟨hm, hmn, hmp⟩ := hl.mem.resolve_left hne
  have hpm : p < m := hmp ▸ parent_lt hm
  rw [elems_swap (slot_le hlen hmn) hpm]
  exact ⟨hpm, hmn, hready.swap hk hl hne, contents_swap _ (hpm.trans hmn) hmn⟩

variable [Std.TransCmp cmp]

/-- **Sifting down** an element restores the order. -/
theorem siftLoop_spec (hpos : 0 < elemsize) {k p m parent2 swapelem : ℕ}
    (hlen : n * elemsize ≤ array.length) (hready : DownReady cmp k n (elems array) p) (hk : k ≤ p)
    (hl : Largest cmp n (elems array) p m) (ha : parent2 = p * elemsize)
    (hb : swapelem = m * elemsize) (h : parent2 ≤ swapelem) :
    Rearranged cmp k n array
      (siftLoop cmp (n * elemsize) (n / 2 * elemsize) array parent2 swapelem h) := by
  induction hd : n - p using Nat.strong_induction_on generalizing array p m parent2 swapelem with
  | h d ih =>
    rw [siftLoop]
    by_cases heq : parent2 = swapelem
    · rw [dif_pos heq]
      have hmp : m = p := Nat.eq_of_mul_eq_mul_right hpos (by rw [← ha, ← hb, heq])
      exact ⟨rfl, hready.orderedFrom (hmp ▸ hl), rfl⟩
    · rw [dif_neg heq]
      have hne : m ≠ p := by
        rintro rfl
        exact heq (ha.trans hb.symm)
      obtain ⟨hpm, hmn, hready', hcontents⟩ := downReady_swap hlen hready hk hl hne
      rw [← ha, ← hb] at hready' hcontents
      have hlength := length_swap elemsize array parent2 swapelem
      dsimp only
      by_cases hend : n / 2 * elemsize ≤ swapelem
      · rw [dif_pos hend]
        have hleaf : n / 2 ≤ m := Nat.le_of_mul_le_mul_right (hb ▸ hend) hpos
        exact ⟨hlength, hready'.orderedFrom_of_leaf hleaf, hcontents⟩
      · rw [dif_neg hend]
        have hmhalf : m < n / 2 := Nat.lt_of_mul_lt_mul_right (hb ▸ not_le.mp hend)
        obtain ⟨h1, h2, h3⟩ := ih (n - m) (by omega) (by rwa [hlength]) hready' (hk.trans hpm.le)
          (largest_spec (by omega)) hb (by rw [hb, swapelemOf_eq hpos])
          (le_swapelemOf cmp (n * elemsize) (swap elemsize array parent2 swapelem) swapelem) rfl
        exact ⟨h1.trans hlength, h2, h3.trans hcontents⟩

/-- **The outer loop of `build_heap`**: one parent after the other, from the last but one on. -/
theorem buildLoop_spec (hpos : 0 < elemsize) {p parent : ℕ} (hlen : n * elemsize ≤ array.length)
    (hp : p + 1 ≤ n / 2) (hord : OrderedFrom cmp p n (elems array))
    (hparent : parent = p * elemsize) :
    Rearranged cmp 0 n array
      (buildLoop cmp hpos (n * elemsize) (n / 2 * elemsize) array parent) := by
  induction p generalizing array parent with
  | zero =>
    rw [buildLoop, dif_pos (by rw [hparent, zero_mul])]
    exact ⟨rfl, hord, rfl⟩
  | succ p ih =>
    have hne : parent ≠ 0 := by
      rw [hparent]
      exact Nat.mul_ne_zero (Nat.succ_ne_zero p) hpos.ne'
    have hsub : parent - elemsize = p * elemsize := by
      rw [hparent, Nat.succ_mul, Nat.add_sub_cancel]
    have hboth : swapelemOfBoth cmp array parent = largest cmp n (elems array) p * elemsize := by
      rw [hparent]
      exact swapelemOfBoth_eq (by omega)
    obtain ⟨h1, h2, h3⟩ := siftLoop_spec hpos hlen hord.downReady (le_refl p)
      (largest_spec (by omega)) hsub hboth (le_swapelemOfBoth cmp array parent)
    obtain ⟨h4, h5, h6⟩ := ih (by rwa [h1]) (by omega) h2 hsub
    rw [buildLoop, dif_neg hne]
    exact ⟨h4.trans h1, h5, h6.trans h3⟩

/-- **`build_heap`** puts any elements in order. -/
theorem buildHeap_spec (hpos : 0 < elemsize) (hlen : n * elemsize ≤ array.length) :
    Rearranged cmp 0 n array (buildHeap cmp hpos n array) := by
  rw [buildHeap]
  by_cases hn : n ≤ 1
  · rw [if_pos hn]
    refine ⟨rfl, fun c hc hcn _ => ?_, rfl⟩
    omega
  · rw [if_neg hn]
    dsimp only
    obtain ⟨p, hp⟩ : ∃ p, n / 2 = p + 1 := ⟨n / 2 - 1, by omega⟩
    have hparent : n / 2 * elemsize - elemsize = p * elemsize := by
      rw [hp, Nat.succ_mul, Nat.add_sub_cancel]
    rw [hparent, swapelemOf_eq hpos]
    have hready : DownReady cmp p n (elems array) p :=
      OrderedFrom.downReady (hp ▸ orderedFrom_half cmp n (elems array))
    have hl : Largest cmp n (elems array) p (largest cmp n (elems array) p) :=
      largest_spec (by omega)
    generalize largest cmp n (elems array) p = m at hl ⊢
    by_cases hne : m = p
    · subst hne
      rw [if_neg (not_not.mpr rfl)]
      exact buildLoop_spec hpos hlen hp.ge (hready.orderedFrom hl) rfl
    · have hoff : p * elemsize ≠ m * elemsize := fun heq =>
        hne (Nat.eq_of_mul_eq_mul_right hpos heq).symm
      rw [if_pos hoff]
      obtain ⟨hpm, hmn, hready', hcontents⟩ := downReady_swap hlen hready (le_refl p) hl hne
      have hlength := length_swap elemsize array (p * elemsize) (m * elemsize)
      -- the children of the last parent have no children
      have hleaf : n / 2 ≤ m := by omega
      obtain ⟨h1, h2, h3⟩ := buildLoop_spec hpos (by rwa [hlength]) hp.ge
        (hready'.orderedFrom_of_leaf hleaf) rfl
      exact ⟨h1.trans hlength, h2, h3.trans hcontents⟩

omit [Std.TransCmp cmp] in
theorem parent_offset (i elemsize : ℕ) :
    (if i &&& 1 ≠ 0 then i * elemsize - elemsize else i * elemsize) / 2 = i / 2 * elemsize := by
  rw [Nat.and_one_is_mod]
  have hdiv : i / 2 * 2 + i % 2 = i := Nat.div_add_mod' i 2
  by_cases h : i % 2 = 0
  · have hi : i * elemsize = i / 2 * elemsize * 2 := by
      rw [mul_right_comm, show i / 2 * 2 = i by omega]
    rw [if_neg (not_not.mpr h), hi, Nat.mul_div_cancel _ (by norm_num)]
  · have hi : i * elemsize = i / 2 * elemsize * 2 + elemsize := by
      rw [mul_right_comm, ← Nat.succ_mul, show (i / 2 * 2).succ = i by omega]
    rw [if_pos h, hi, Nat.add_sub_cancel, Nat.mul_div_cancel _ (by norm_num)]

/-- What the loops of `insert_heap` and `remove_heap` keep: if the element `x` is put to the index
`i`, then the elements are those of `f`. -/
structure HoleAt (f : ℕ → Elem elemsize) (n len : ℕ) (array : List UInt8) (i : ℕ)
    (x : Elem elemsize) : Prop where
  lt : i < n
  length_eq : array.length = len
  contents_eq : contents n (update (elems array) i x) = contents n f

omit [Std.TransCmp cmp] in
theorem HoleAt.move {f : ℕ → Elem elemsize} {len i j : ℕ} {x : Elem elemsize}
    (h : HoleAt f n len array i x) (hlen : n * elemsize ≤ len) (hj : j < n) (hne : i ≠ j) :
    update (elems (copy elemsize array (i * elemsize) (j * elemsize))) j x =
        update (elems array) i x ∘ Equiv.swap i j ∧
      HoleAt f n len (copy elemsize array (i * elemsize) (j * elemsize)) j x := by
  have heq : update (elems (copy elemsize array (i * elemsize) (j * elemsize))) j x =
      update (elems array) i x ∘ Equiv.swap i j := by
    rw [elems_copy (slot_le (by rwa [h.length_eq]) h.lt) hne, update_comp_swap _ _ hne]
  refine ⟨heq, hj, by rw [length_copy, h.length_eq], ?_⟩
  rw [heq, contents_swap _ h.lt hj, h.contents_eq]

/-- **The loop of `insert_heap`** finds a place for the element. -/
theorem insertLoop_spec {f : ℕ → Elem elemsize} {len i child : ℕ} {elem : Elem elemsize}
    (hlen : (n + 1) * elemsize ≤ len) (hhole : HoleAt f (n + 1) len array i elem)
    (hready : UpReady cmp (n + 1) (update (elems array) i elem) i) (hchild : child = i * elemsize) :
    ∃ array' j, insertLoop cmp elem array i child = (array', j * elemsize) ∧
      HoleAt f (n + 1) len array' j elem ∧
      OrderedFrom cmp 0 (n + 1) (update (elems array') j elem) := by
  induction i using Nat.strong_induction_on generalizing array child with
  | h i ih =>
    rw [insertLoop]
    by_cases hi : i = 0
    · rw [dif_pos hi]
      exact ⟨array, i, by rw [hchild], hhole,
        hready.orderedFrom fun hpos => absurd hi hpos.ne'⟩
    · have hipos := Nat.pos_of_ne_zero hi
      have hp := parent_lt hipos
      have hsub : child - elemsize = (i - 1) * elemsize := by
        rw [hchild, Nat.sub_mul, one_mul]
      have hcmp : (elemAt array (parent i * elemsize) : Elem elemsize) = elems array (parent i) :=
        rfl
      rw [dif_neg hi]
      dsimp only
      rw [hsub, parent_offset, show (i - 1) / 2 = parent i from rfl, hcmp]
      have hself : update (elems array) i elem i = elem := update_self ..
      have hpar : update (elems array) i elem (parent i) = elems array (parent i) :=
        update_of_ne hp.ne ..
      by_cases hlt : cmp (elems array (parent i)) elem ≠ .lt
      · rw [if_pos hlt]
        refine ⟨array, i, by rw [hchild], hhole, hready.orderedFrom fun _ => ?_⟩
        rw [hself, hpar]
        exact Ordering.isGE_iff_ne_lt.mpr hlt
      · rw [if_neg hlt, hchild]
        rw [not_not] at hlt
        obtain ⟨heq, hhole'⟩ := hhole.move hlen (hp.trans hhole.lt) hp.ne'
        have hready' := hready.swap hipos hhole.lt (by rwa [hself, hpar])
        rw [Equiv.swap_comm, ← heq] at hready'
        exact ih (parent i) hp hhole' hready' rfl

/-- **The loop of `remove_heap`** finds a place for the last element. -/
theorem removeLoop_spec (hpos : 0 < elemsize) {f : ℕ → Elem elemsize} {len p parent : ℕ}
    (hlen : (n + 1) * elemsize ≤ len) (hhole : HoleAt f n len array p (elems array n))
    (hready : DownReady cmp 0 n (update (elems array) p (elems array n)) p)
    (hparent : parent = p * elemsize) :
    ∃ array' q, removeLoop cmp hpos (n * elemsize) (n / 2 * elemsize) array parent =
        (array', q * elemsize) ∧
      (elems array' n : Elem elemsize) = elems array n ∧
      HoleAt f n len array' q (elems array n) ∧
      OrderedFrom cmp 0 n (update (elems array') q (elems array n)) := by
  induction hd : n - p using Nat.strong_induction_on generalizing array p parent with
  | h d ih =>
    rw [removeLoop]
    by_cases hend : parent < n / 2 * elemsize
    · have hphalf : p < n / 2 := Nat.lt_of_mul_lt_mul_right (hparent ▸ hend)
      rw [dif_pos hend]
      obtain ⟨hstop, hgo⟩ := @largestOfLast_spec _ cmp n (elems array) _ p (by omega)
      have heq : swapelemOfLast cmp (n * elemsize) array parent =
          largestOfLast cmp n (elems array) p * elemsize := by
        rw [hparent, swapelemOfLast_eq hpos]
      have hgt := @lt_largestOfLast _ cmp n (elems array) p
      rw [heq]
      generalize largestOfLast cmp n (elems array) p = m at hstop hgo hgt ⊢
      by_cases hmn : m = n
      · rw [dif_pos (by rw [hmn])]
        exact ⟨array, p, by rw [hparent], rfl, hhole, hready.orderedFrom (hstop hmn)⟩
      · rw [dif_neg fun h => hmn (Nat.eq_of_mul_eq_mul_right hpos h)]
        have hl := hgo hmn
        have hmp : m ≠ p := (hgt hmn).ne'
        obtain ⟨hm, hmlt, hpar⟩ := hl.mem.resolve_left hmp
        have hpm : p < m := hpar ▸ parent_lt hm
        obtain ⟨hcopy, hhole'⟩ := hhole.move ((Nat.mul_le_mul_right _ (Nat.le_succ n)).trans hlen)
          hmlt hpm.ne
        have hready' := hready.swap (Nat.zero_le p) hl hmp
        have hlast : (elems (copy elemsize array (p * elemsize) (m * elemsize)) n :
            Elem elemsize) = elems array n := by
          rw [elems_copy (slot_le (by rwa [hhole.length_eq]) (by omega)) hpm.ne,
            update_of_ne (by omega)]
        rw [← hcopy, ← hlast] at hready'
        rw [← hlast] at hhole'
        rw [hparent]
        obtain ⟨array', q, h1, h2, h3, h4⟩ := ih (n - m) (by omega) hhole' hready' rfl rfl
        rw [hlast] at h2 h3 h4
        exact ⟨array', q, h1, h2, h3, h4⟩
    · rw [dif_neg hend]
      have hleaf : n / 2 ≤ p := Nat.le_of_mul_le_mul_right (hparent ▸ not_lt.mp hend) hpos
      exact ⟨array, p, by rw [hparent], rfl, hhole, hready.orderedFrom_of_leaf hleaf⟩

end LoopSpecs

theorem length_siftLoop {elemsize : ℕ} (cmp : Elem elemsize → Elem elemsize → Ordering)
    (cmaxoff pmaxoff : ℕ) (array : List UInt8) (parent2 swapelem : ℕ) (h : parent2 ≤ swapelem) :
    (siftLoop cmp cmaxoff pmaxoff array parent2 swapelem h).length = array.length := by
  fun_induction siftLoop with
  | case1 => rfl
  | case2 => exact length_swap ..
  | case3 array parent2 swapelem h hne array' hend ih => exact ih.trans (length_swap ..)

theorem length_buildLoop {elemsize : ℕ} (cmp : Elem elemsize → Elem elemsize → Ordering)
    (hpos : 0 < elemsize) (cmaxoff pmaxoff : ℕ) (array : List UInt8) (parent : ℕ) :
    (buildLoop cmp hpos cmaxoff pmaxoff array parent).length = array.length := by
  fun_induction buildLoop with
  | case1 => rfl
  | case2 array parent hne ih => exact ih.trans (length_siftLoop ..)

theorem length_buildHeap {elemsize : ℕ} (cmp : Elem elemsize → Elem elemsize → Ordering)
    (hpos : 0 < elemsize) (nrofelem : ℕ) (array : List UInt8) :
    (buildHeap cmp hpos nrofelem array).length = array.length := by
  rw [buildHeap]
  split_ifs with h
  · rfl
  · dsimp only
    rw [length_buildLoop]
    split_ifs
    · exact length_swap ..
    · rfl

theorem length_insertLoop {elemsize : ℕ} (cmp : Elem elemsize → Elem elemsize → Ordering)
    (elem : Elem elemsize) (array : List UInt8) (i child : ℕ) :
    (insertLoop cmp elem array i child).1.length = array.length := by
  fun_induction insertLoop with
  | case1 => rfl
  | case2 => rfl
  | case3 array i child hne i' parent parent' i'' parent'' hlt ih =>
    exact ih.trans (length_copy ..)

theorem length_removeLoop {elemsize : ℕ} (cmp : Elem elemsize → Elem elemsize → Ordering)
    (hpos : 0 < elemsize) (cmaxoff pmaxoff : ℕ) (array : List UInt8) (parent : ℕ) :
    (removeLoop cmp hpos cmaxoff pmaxoff array parent).1.length = array.length := by
  fun_induction removeLoop with
  | case1 => rfl
  | case2 array parent hlt hne ih => exact ih.trans (length_copy ..)
  | case3 => rfl

end Heap

open Heap

/-! ## The operations -/

/-- `heap_t`, whose array has `maxnrofelem` elements of `elemsize` bytes; their number of bytes is a
`size_t`, and so are all offsets. -/
structure Heap (elemsize : ℕ) where
  cmp : Elem elemsize → Elem elemsize → Ordering
  array : List UInt8
  nrofelem : ℕ
  maxnrofelem : ℕ
  elemsize_pos : 0 < elemsize
  nrofelem_le : nrofelem ≤ maxnrofelem
  length_array : array.length = maxnrofelem * elemsize
  size_lt : maxnrofelem * elemsize < 2 ^ 64

namespace Heap

/-- The error codes of the module. -/
inductive Errno
  | EINVAL
  | ENOMEM
  | ENODATA
  | EINVARIANT
  deriving DecidableEq, Repr

variable {elemsize : ℕ}

/-- `init_heap`, for an array at the address `addr`. -/
def initHeap (elemsize nrofelem maxnrofelem addr : ℕ)
    (array : Vector UInt8 (maxnrofelem * elemsize))
    (cmp : Option (Elem elemsize → Elem elemsize → Ordering)) : Except Errno (Heap elemsize) :=
  match cmp with
  | none => .error .EINVAL
  | some cmp =>
    if h : 0 < elemsize ∧ nrofelem ≤ maxnrofelem ∧ 0 < maxnrofelem then
      if h' : maxnrofelem ≤ (2 ^ 64 - 1) / elemsize ∧
          addr < (addr + maxnrofelem * elemsize) % 2 ^ 64 then
        .ok {
          cmp := cmp
          array := buildHeap cmp h.1 nrofelem array.toList
          nrofelem := nrofelem
          maxnrofelem := maxnrofelem
          elemsize_pos := h.1
          nrofelem_le := h.2.1
          length_array := by rw [length_buildHeap, Vector.length_toList]
          size_lt := by
            have := Nat.mul_le_of_le_div _ _ _ h'.1
            omega }
      else .error .EINVAL
    else .error .EINVAL

/-- `invariant_heap`. -/
def invariantHeap (heap : Heap elemsize) : Option Errno :=
  if heap.maxnrofelem < heap.nrofelem then some .EINVARIANT
  else if heap.nrofelem ≤ 1 then none
  else
    let cmaxoff := heap.nrofelem * elemsize
    let pmaxoff := heap.nrofelem / 2 * elemsize
    let parent := pmaxoff - elemsize
    let child := 2 * (parent + elemsize)
    if child < cmaxoff ∧ IsSwap heap.cmp heap.array parent child then some .EINVARIANT
    else
      let child := child - elemsize
      if IsSwap heap.cmp heap.array parent child then some .EINVARIANT
      else if invariantLoop heap.cmp heap.elemsize_pos heap.array parent then none
      else some .EINVARIANT

/-- `insert_heap`. -/
def insertHeap (heap : Heap elemsize) (elem : Elem elemsize) : Option Errno × Heap elemsize :=
  if h : heap.nrofelem = heap.maxnrofelem then (some .ENOMEM, heap)
  else
    let found := insertLoop heap.cmp elem heap.array heap.nrofelem (heap.nrofelem * elemsize)
    (none,
      { heap with
        array := store found.1 found.2 elem
        nrofelem := heap.nrofelem + 1
        nrofelem_le := Nat.lt_of_le_of_ne heap.nrofelem_le h
        length_array := by rw [length_store, length_insertLoop, heap.length_array] })

/-- The array after the removal of the first of `nrofelem + 1` elements. -/
def removeArray (heap : Heap elemsize) (nrofelem : ℕ) : List UInt8 :=
  if nrofelem ≠ 0 then
    let cmaxoff := nrofelem * elemsize
    let pmaxoff := nrofelem / 2 * elemsize
    let found := removeLoop heap.cmp heap.elemsize_pos cmaxoff pmaxoff heap.array 0
    copy elemsize found.1 found.2 cmaxoff
  else heap.array

/-- `remove_heap`. -/
def removeHeap (heap : Heap elemsize) : Except Errno (Elem elemsize) × Heap elemsize :=
  if heap.nrofelem = 0 then (.error .ENODATA, heap)
  else
    (.ok (elemAt heap.array 0),
      { heap with
        array := heap.removeArray (heap.nrofelem - 1)
        nrofelem := heap.nrofelem - 1
        nrofelem_le := (Nat.sub_le _ _).trans heap.nrofelem_le
        length_array := by
          unfold removeArray
          split_ifs
          · rw [length_copy, length_removeLoop, heap.length_array]
          · exact heap.length_array })

/-! ## Order and contents of a heap -/

/-- The stored elements. -/
def stored (heap : Heap elemsize) : Multiset (Elem elemsize) :=
  contents heap.nrofelem (elems heap.array)

/-- The heap condition: no parent is lower than one of its children. -/
def Ordered (heap : Heap elemsize) : Prop :=
  OrderedFrom heap.cmp 0 heap.nrofelem (elems heap.array)

theorem card_stored (heap : Heap elemsize) : Multiset.card heap.stored = heap.nrofelem :=
  card_contents ..

theorem nrofelem_mul_le (heap : Heap elemsize) :
    heap.nrofelem * elemsize ≤ heap.array.length := by
  rw [heap.length_array]
  exact Nat.mul_le_mul_right _ heap.nrofelem_le

theorem invariantLoop_iff {cmp : Elem elemsize → Elem elemsize → Ordering} (hpos : 0 < elemsize)
    {array : List UInt8} {p parent : ℕ} (hparent : parent = p * elemsize) :
    invariantLoop cmp hpos array parent = true ↔
      ∀ c, 0 < c → BinaryHeap.parent c < p →
        (cmp (elems array (BinaryHeap.parent c)) (elems array c)).isGE := by
  induction p generalizing parent with
  | zero =>
    rw [invariantLoop, dif_pos (by rw [hparent, zero_mul])]
    exact ⟨fun _ c _ h => absurd h (Nat.not_lt_zero _), fun _ => rfl⟩
  | succ p ih =>
    have hne : parent ≠ 0 := by
      rw [hparent]
      exact Nat.mul_ne_zero (Nat.succ_ne_zero p) hpos.ne'
    have hsub : parent - elemsize = p * elemsize := by
      rw [hparent, Nat.succ_mul, Nat.add_sub_cancel]
    have hright : 2 * parent = (2 * p + 2) * elemsize := by
      rw [hparent]
      ring
    rw [invariantLoop, dif_neg hne]
    dsimp only
    rw [hsub, hright, right_sub_eq]
    constructor
    · intro h c hc hcp
      split_ifs at h with h1 h2
      by_cases hcp' : BinaryHeap.parent c < p
      · exact (ih rfl).mp h c hc hcp'
      · have hcp'' : BinaryHeap.parent c = p := by omega
        rw [hcp'']
        rcases (parent_eq_iff hc).mp hcp'' with rfl | rfl
        · exact Ordering.isGE_iff_ne_lt.mpr h2
        · exact Ordering.isGE_iff_ne_lt.mpr h1
    · intro h
      have h1 := h (2 * p + 1) (Nat.succ_pos _) (by rw [parent_left]; omega)
      have h2 := h (2 * p + 2) (Nat.succ_pos _) (by rw [parent_right]; omega)
      rw [parent_left, Ordering.isGE_iff_ne_lt] at h1
      rw [parent_right, Ordering.isGE_iff_ne_lt] at h2
      have h1' : ¬ IsSwap cmp array (p * elemsize) ((2 * p + 1) * elemsize) := h1
      have h2' : ¬ IsSwap cmp array (p * elemsize) ((2 * p + 2) * elemsize) := h2
      rw [if_neg h2', if_neg h1', ih rfl]
      exact fun c hc hcp => h c hc (hcp.trans (Nat.lt_succ_self p))

/-- **`invariant_heap`** checks the heap condition. -/
theorem invariantHeap_eq_none_iff (heap : Heap elemsize) :
    invariantHeap heap = none ↔ heap.Ordered := by
  unfold invariantHeap Ordered
  rw [if_neg (not_lt.mpr heap.nrofelem_le)]
  by_cases hn : heap.nrofelem ≤ 1
  · rw [if_pos hn]
    refine ⟨fun _ c hc hcn _ => ?_, fun _ => rfl⟩
    omega
  rw [if_neg hn]
  dsimp only
  obtain ⟨p, hp⟩ : ∃ p, heap.nrofelem / 2 = p + 1 := ⟨heap.nrofelem / 2 - 1, by omega⟩
  have hparent : heap.nrofelem / 2 * elemsize - elemsize = p * elemsize := by
    rw [hp, Nat.succ_mul, Nat.add_sub_cancel]
  rw [hparent, two_mul_add_eq, right_sub_eq]
  constructor
  · intro h c hc hcn _
    split_ifs at h with h1 h2 h3
    have hhalf := parent_lt_half hc hcn
    by_cases hcp : BinaryHeap.parent c < p
    · exact (invariantLoop_iff heap.elemsize_pos rfl).mp h3 c hc hcp
    · have hcp' : BinaryHeap.parent c = p := by omega
      rw [hcp', Ordering.isGE_iff_ne_lt]
      rcases (parent_eq_iff hc).mp hcp' with rfl | rfl
      · exact h2
      · exact fun hlt => h1 ⟨Nat.mul_lt_mul_of_pos_right hcn heap.elemsize_pos, hlt⟩
  · intro h
    have h1 := h (2 * p + 1) (Nat.succ_pos _) (by omega) (Nat.zero_le _)
    rw [parent_left, Ordering.isGE_iff_ne_lt] at h1
    have h1' : ¬ IsSwap heap.cmp heap.array (p * elemsize) ((2 * p + 1) * elemsize) := h1
    rw [if_neg, if_neg h1', if_pos]
    · rw [invariantLoop_iff heap.elemsize_pos rfl]
      refine fun c hc hcp => h c hc ?_ (Nat.zero_le _)
      rw [BinaryHeap.parent] at hcp
      omega
    · rintro ⟨hlt, hswap⟩
      have h2 := h (2 * p + 2) (Nat.succ_pos _)
        (Nat.lt_of_mul_lt_mul_right hlt) (Nat.zero_le _)
      rw [parent_right, Ordering.isGE_iff_ne_lt] at h2
      exact h2 hswap

theorem initHeap_spec {nrofelem maxnrofelem addr : ℕ}
    {array : Vector UInt8 (maxnrofelem * elemsize)} {cmp : Elem elemsize → Elem elemsize → Ordering}
    [Std.TransCmp cmp] {heap : Heap elemsize}
    (h : initHeap elemsize nrofelem maxnrofelem addr array (some cmp) = .ok heap) :
    heap.cmp = cmp ∧ heap.maxnrofelem = maxnrofelem ∧ heap.Ordered ∧
      heap.stored = contents nrofelem (elems array.toList) := by
  unfold initHeap at h
  dsimp only at h
  split_ifs at h with h1 h2
  cases h
  have hlen : nrofelem * elemsize ≤ array.toList.length := by
    rw [Vector.length_toList]
    exact Nat.mul_le_mul_right _ h1.2.1
  have hbuild : Rearranged cmp 0 nrofelem array.toList _ := buildHeap_spec h1.1 hlen
  obtain ⟨-, hord, hcontents⟩ := hbuild
  exact ⟨rfl, rfl, hord, hcontents⟩

theorem insertHeap_spec {heap : Heap elemsize} [Std.TransCmp heap.cmp] (h : heap.Ordered)
    (elem : Elem elemsize) (hne : heap.nrofelem ≠ heap.maxnrofelem) :
    (insertHeap heap elem).1 = none ∧ (insertHeap heap elem).2.Ordered ∧
      (insertHeap heap elem).2.stored = elem ::ₘ heap.stored := by
  have hlt := Nat.lt_of_le_of_ne heap.nrofelem_le hne
  have hlen : (heap.nrofelem + 1) * elemsize ≤ heap.array.length := by
    rw [heap.length_array]
    exact Nat.mul_le_mul_right _ hlt
  have hhole : HoleAt (update (elems heap.array) heap.nrofelem elem) (heap.nrofelem + 1)
      heap.array.length heap.array heap.nrofelem elem := ⟨Nat.lt_succ_self _, rfl, rfl⟩
  obtain ⟨array', j, hfound, hhole', hord⟩ :=
    insertLoop_spec hlen hhole (h.upReady_update elem) rfl
  have helems : (elems (store array' (j * elemsize) elem) : ℕ → Elem elemsize) =
      update (elems array') j elem := by
    refine elems_store (slot_le ?_ hhole'.lt) elem
    rwa [hhole'.length_eq]
  unfold insertHeap
  rw [dif_neg hne]
  refine ⟨rfl, ?_, ?_⟩
  · unfold Ordered
    dsimp only
    rw [hfound, helems]
    exact hord
  · unfold stored
    dsimp only
    rw [hfound, helems, hhole'.contents_eq]
    exact contents_succ_update ..

theorem removeHeap_spec {heap : Heap elemsize} [Std.TransCmp heap.cmp] (h : heap.Ordered)
    (hne : heap.nrofelem ≠ 0) :
    ∃ elem, (removeHeap heap).1 = .ok elem ∧ (removeHeap heap).2.Ordered ∧
      heap.stored = elem ::ₘ (removeHeap heap).2.stored ∧
      ∀ x ∈ heap.stored, (heap.cmp elem x).isGE := by
  obtain ⟨n, hn⟩ := Nat.exists_eq_succ_of_ne_zero hne
  have hlen := heap.nrofelem_mul_le
  rw [hn] at hlen
  have hord : OrderedFrom heap.cmp 0 n (elems heap.array) := h.mono (le_refl 0) (by omega)
  have hmax : ∀ x ∈ heap.stored, (heap.cmp (elems heap.array 0) x).isGE := by
    intro x hx
    obtain ⟨i, hi, rfl⟩ := mem_contents.mp hx
    exact h.root_isGE hi
  have hfirst : (elemAt heap.array 0 : Elem elemsize) = elems heap.array 0 := by
    rw [elems, zero_mul]
  have hstored : heap.stored =
      elems heap.array 0 ::ₘ contents n (update (elems heap.array) 0 (elems heap.array n)) := by
    rw [stored, hn, contents_succ_eq_cons]
  unfold removeHeap
  rw [if_neg hne]
  refine ⟨elems heap.array 0, by rw [hfirst], ?_⟩
  suffices hremove : OrderedFrom heap.cmp 0 n (elems (heap.removeArray n)) ∧
      contents n (elems (heap.removeArray n) : ℕ → Elem elemsize) =
        contents n (update (elems heap.array) 0 (elems heap.array n)) by
    unfold Ordered
    rw [hstored]
    unfold stored
    dsimp only
    rw [show heap.nrofelem - 1 = n by omega, hremove.2, ← hstored]
    exact ⟨hremove.1, rfl, hmax⟩
  by_cases hn0 : n = 0
  · subst hn0
    exact ⟨fun c _ hc => absurd hc (Nat.not_lt_zero c), rfl⟩
  · have hhole : HoleAt (update (elems heap.array) 0 (elems heap.array n)) n heap.array.length
        heap.array 0 (elems heap.array n : Elem elemsize) := ⟨Nat.pos_of_ne_zero hn0, rfl, rfl⟩
    obtain ⟨array', q, hfound, hlast, hhole', hord'⟩ := removeLoop_spec heap.elemsize_pos hlen
      hhole (hord.downReady_update (elems heap.array n)) (zero_mul elemsize).symm
    have helems : (elems (copy elemsize array' (q * elemsize) (n * elemsize)) :
        ℕ → Elem elemsize) = update (elems array') q (elems heap.array n) := by
      rw [elems_copy _ hhole'.lt.ne, hlast]
      refine slot_le ?_ (hhole'.lt.trans (Nat.lt_succ_self n))
      rwa [hhole'.length_eq]
    unfold removeArray
    rw [if_pos hn0]
    dsimp only
    rw [hfound, helems]
    exact ⟨hord', hhole'.contents_eq⟩

/-! ## A bounded priority queue -/

/-- The calls that change the heap. -/
inductive Op (elemsize : ℕ)
  | insert (elem : Elem elemsize)
  | remove

/-- A call on the heap: the error code, and the element that was taken out. -/
def step (heap : Heap elemsize) :
    Op elemsize → (Option Errno × Option (Elem elemsize)) × Heap elemsize
  | .insert elem => (((insertHeap heap elem).1, none), (insertHeap heap elem).2)
  | .remove =>
    match (removeHeap heap).1 with
    | .error e => ((some e, none), (removeHeap heap).2)
    | .ok elem => ((none, some elem), (removeHeap heap).2)

/-- What a bounded priority queue with the elements `M` may do: which element comes out is open if
there are several greatest ones. -/
def Allowed (cmp : Elem elemsize → Elem elemsize → Ordering) (maxnrofelem : ℕ)
    (M : Multiset (Elem elemsize)) :
    Op elemsize → Option Errno × Option (Elem elemsize) → Multiset (Elem elemsize) → Prop
  | .insert elem, out, M' =>
    Multiset.card M = maxnrofelem ∧ out = (some .ENOMEM, none) ∧ M' = M ∨
      Multiset.card M < maxnrofelem ∧ out = (none, none) ∧ M' = elem ::ₘ M
  | .remove, out, M' =>
    M = 0 ∧ out = (some .ENODATA, none) ∧ M' = M ∨
      ∃ elem, out = (none, some elem) ∧ M = elem ::ₘ M' ∧ ∀ x ∈ M, cmp elem x ≠ .lt

/-- The elements that were inserted by a sequence of calls with these results. -/
def inserted : List (Op elemsize) → List (Option Errno × Option (Elem elemsize)) →
    Multiset (Elem elemsize)
  | .insert elem :: ops, (none, _) :: outs => elem ::ₘ inserted ops outs
  | _ :: ops, _ :: outs => inserted ops outs
  | _, _ => 0

/-- The elements that were taken out by a sequence of calls with these results. -/
def removed (outs : List (Option Errno × Option (Elem elemsize))) : Multiset (Elem elemsize) :=
  outs.filterMap Prod.snd

/-- The state of a heap between two calls. -/
structure Valid (cmp : Elem elemsize → Elem elemsize → Ordering) (maxnrofelem : ℕ)
    (heap : Heap elemsize) : Prop where
  cmp_eq : heap.cmp = cmp
  maxnrofelem_eq : heap.maxnrofelem = maxnrofelem
  ordered : heap.Ordered

section Runs

variable {cmp : Elem elemsize → Elem elemsize → Ordering} {maxnrofelem : ℕ} {heap : Heap elemsize}

/-- **A call** does what a bounded priority queue may do, and nothing in the case of an error. -/
theorem Valid.step [Std.TransCmp cmp] (h : Valid cmp maxnrofelem heap) (op : Op elemsize) :
    Valid cmp maxnrofelem (step heap op).2 ∧
      Allowed cmp maxnrofelem heap.stored op (step heap op).1 (step heap op).2.stored ∧
      ((step heap op).1.1 ≠ none → (step heap op).2 = heap) := by
  obtain ⟨rfl, rfl, hord⟩ := h
  cases op with
  | insert elem =>
    by_cases hfull : heap.nrofelem = heap.maxnrofelem
    · have heq : insertHeap heap elem = (some .ENOMEM, heap) := dif_pos hfull
      have hstep : Heap.step heap (.insert elem) = ((some .ENOMEM, none), heap) := by
        rw [Heap.step, heq]
      rw [hstep]
      exact ⟨⟨rfl, rfl, hord⟩, Or.inl ⟨heap.card_stored.trans hfull, rfl, rfl⟩, fun _ => rfl⟩
    · obtain ⟨hout, hord', hstored⟩ := insertHeap_spec hord elem hfull
      have hframe : (insertHeap heap elem).2.cmp = heap.cmp ∧
          (insertHeap heap elem).2.maxnrofelem = heap.maxnrofelem := by
        unfold insertHeap
        rw [dif_neg hfull]
        exact ⟨rfl, rfl⟩
      simp only [Heap.step, hout]
      refine ⟨⟨hframe.1, hframe.2, hord'⟩, Or.inr ⟨?_, rfl, hstored⟩, fun h => absurd rfl h⟩
      rw [card_stored]
      exact Nat.lt_of_le_of_ne heap.nrofelem_le hfull
  | remove =>
    by_cases hempty : heap.nrofelem = 0
    · have heq : removeHeap heap = (.error .ENODATA, heap) := if_pos hempty
      have hzero : heap.stored = 0 := by
        rw [← Multiset.card_eq_zero, card_stored, hempty]
      have hstep : Heap.step heap .remove = ((some .ENODATA, none), heap) := by
        rw [Heap.step, heq]
      rw [hstep]
      exact ⟨⟨rfl, rfl, hord⟩, Or.inl ⟨hzero, rfl, rfl⟩, fun _ => rfl⟩
    · obtain ⟨elem, hout, hord', hstored, hmax⟩ := removeHeap_spec hord hempty
      have hframe : (removeHeap heap).2.cmp = heap.cmp ∧
          (removeHeap heap).2.maxnrofelem = heap.maxnrofelem := by
        unfold removeHeap
        rw [if_neg hempty]
        exact ⟨rfl, rfl⟩
      simp only [Heap.step, hout]
      refine ⟨⟨hframe.1, hframe.2, hord'⟩, Or.inr ⟨elem, rfl, hstored, fun x hx => ?_⟩,
        fun h => absurd rfl h⟩
      exact Ordering.isGE_iff_ne_lt.mp (hmax x hx)

theorem stored_step {M M' : Multiset (Elem elemsize)} {op : Op elemsize}
    {out : Option Errno × Option (Elem elemsize)} (h : Allowed cmp maxnrofelem M op out M') :
    M' + removed [out] = M + inserted [op] [out] := by
  cases op with
  | insert elem =>
    rcases h with ⟨-, rfl, rfl⟩ | ⟨-, rfl, rfl⟩
    · rfl
    · rw [show removed [((none, none) : Option Errno × Option (Elem elemsize))] = 0 from rfl,
        add_zero, ← Multiset.singleton_add, add_comm]
      rfl
  | remove =>
    rcases h with ⟨-, rfl, rfl⟩ | ⟨elem, rfl, rfl, -⟩
    · rfl
    · rw [show inserted [Op.remove] [((none, some elem) : Option Errno × Option (Elem elemsize))] = 0
        from rfl, add_zero, ← Multiset.singleton_add, add_comm]
      rfl

theorem inserted_cons (op : Op elemsize) (ops : List (Op elemsize))
    (out : Option Errno × Option (Elem elemsize))
    (outs : List (Option Errno × Option (Elem elemsize))) :
    inserted (op :: ops) (out :: outs) = inserted [op] [out] + inserted ops outs := by
  rcases op with elem | -
  · rcases out with ⟨- | e, x⟩
    · rfl
    · exact (zero_add _).symm
  · exact (zero_add _).symm

theorem removed_cons (out : Option Errno × Option (Elem elemsize))
    (outs : List (Option Errno × Option (Elem elemsize))) :
    removed (out :: outs) = removed [out] + removed outs := by
  rcases out with ⟨e, - | elem⟩
  · exact (zero_add _).symm
  · rfl

/-- **Runs** keep the state valid, and no element is lost or made up. -/
theorem Valid.run [Std.TransCmp cmp] (h : Valid cmp maxnrofelem heap) (ops : List (Op elemsize)) :
    Valid cmp maxnrofelem (run Heap.step heap ops).2 ∧
      (run Heap.step heap ops).2.stored + removed (run Heap.step heap ops).1 =
        heap.stored + inserted ops (run Heap.step heap ops).1 := by
  induction ops generalizing heap with
  | nil => exact ⟨h, rfl⟩
  | cons op ops ih =>
    obtain ⟨hvalid, hallowed, -⟩ := h.step op
    obtain ⟨hvalid', hsum⟩ := ih hvalid
    refine ⟨hvalid', ?_⟩
    have hone := stored_step hallowed
    rw [Refinement.run, removed_cons, inserted_cons, add_left_comm, hsum, ← add_assoc,
      ← add_assoc, ← hone, add_comm (removed _)]

end Runs

/-- **`heap.c` is a bounded priority queue.** After every sequence of calls on a heap that
`init_heap` has built from any elements, `invariant_heap` finds no error and no parent is lower than
its children, the elements are those at the start and the inserted ones without those taken out, and
the next call does what a bounded priority queue does. -/
theorem heap_exact {nrofelem maxnrofelem addr : ℕ}
    {array : Vector UInt8 (maxnrofelem * elemsize)} {cmp : Elem elemsize → Elem elemsize → Ordering}
    [Std.TransCmp cmp] {heap : Heap elemsize}
    (h : initHeap elemsize nrofelem maxnrofelem addr array (some cmp) = .ok heap)
    (ops : List (Op elemsize)) :
    invariantHeap (run step heap ops).2 = none ∧
      (∀ c, 0 < c → c < (run step heap ops).2.nrofelem →
        cmp (elems (run step heap ops).2.array ((c - 1) / 2))
          (elems (run step heap ops).2.array c) ≠ .lt) ∧
      (run step heap ops).2.stored + removed (run step heap ops).1 =
        contents nrofelem (elems array.toList) + inserted ops (run step heap ops).1 ∧
      Multiset.card (run step heap ops).2.stored = (run step heap ops).2.nrofelem ∧
      ∀ op, Allowed cmp maxnrofelem (run step heap ops).2.stored op
          (step (run step heap ops).2 op).1 (step (run step heap ops).2 op).2.stored ∧
        ((step (run step heap ops).2 op).1.1 ≠ none →
          (step (run step heap ops).2 op).2 = (run step heap ops).2) := by
  obtain ⟨hcmp, hmax, hord, hstored⟩ := initHeap_spec h
  obtain ⟨hvalid, hsum⟩ := (Valid.mk hcmp hmax hord).run ops
  rw [hstored] at hsum
  refine ⟨(invariantHeap_eq_none_iff _).mpr hvalid.ordered, fun c hc hcn => ?_, hsum,
    card_stored _, fun op => (hvalid.step op).2⟩
  rw [← hvalid.cmp_eq]
  exact Ordering.isGE_iff_ne_lt.mp (hvalid.ordered c hc hcn (Nat.zero_le _))

/-- Elements of two bytes that are compared by the first one: two of them at the start, then two
insertions, one of which finds the heap full, and a removal. -/
theorem heap_exact_two : ∃ heap, initHeap 2 2 3 4096 #v[1, 0, 7, 1, 0, 0]
      (some (compareOn fun elem : Elem 2 => elem[0])) = .ok heap ∧
    invariantHeap (run step heap [.insert #v[7, 2], .insert #v[9, 3], .remove]).2 = none :=
  ⟨_, rfl, (@heap_exact 2 2 3 4096 #v[1, 0, 7, 1, 0, 0] (compareOn fun elem : Elem 2 => elem[0])
    inferInstance _ rfl _).1⟩

/-! ## Sorting -/

theorem drain_of_valid {cmp : Elem elemsize → Elem elemsize → Ordering} {maxnrofelem : ℕ}
    [Std.TransCmp cmp] (n : ℕ) : ∀ {heap : Heap elemsize}, Valid cmp maxnrofelem heap →
      heap.nrofelem = n → ∃ l : List (Elem elemsize),
        (run step heap (List.replicate n .remove)).1 = l.map (fun elem => (none, some elem)) ∧
        (l : Multiset (Elem elemsize)) = heap.stored ∧ l.Pairwise (fun a b => cmp a b ≠ .lt) ∧
        (run step heap (List.replicate n .remove)).2.nrofelem = 0 := by
  induction n with
  | zero =>
    intro heap _ hn
    have hzero : heap.stored = 0 := by rw [← Multiset.card_eq_zero, card_stored, hn]
    exact ⟨[], rfl, hzero.symm, List.Pairwise.nil, hn⟩
  | succ n ih =>
    intro heap h hn
    obtain ⟨hvalid, hallowed, -⟩ := h.step .remove
    rcases hallowed with ⟨hzero, -, -⟩ | ⟨elem, hout, hstored, hmax⟩
    · rw [← Multiset.card_eq_zero, card_stored, hn] at hzero
      cases hzero
    · have hcard := congrArg Multiset.card hstored
      rw [card_stored, hn, Multiset.card_cons, card_stored] at hcard
      obtain ⟨l, houts, hl, hsorted, hempty⟩ := ih hvalid (Nat.succ.inj hcard).symm
      refine ⟨elem :: l, congrArg₂ List.cons hout houts, ?_, List.pairwise_cons.mpr
        ⟨fun x hx => hmax x ?_, hsorted⟩, hempty⟩
      · rw [hstored, ← hl]
        rfl
      · rw [hstored, ← hl]
        exact Multiset.mem_cons_of_mem hx

/-- **Heapsort.** After any calls on a heap that `init_heap` has built, as many calls of
`remove_heap` as there are elements take out all of them, none is greater than the one before it,
and the heap is empty then. -/
theorem drain_sorts {nrofelem maxnrofelem addr : ℕ} {array : Vector UInt8 (maxnrofelem * elemsize)}
    {cmp : Elem elemsize → Elem elemsize → Ordering} [Std.TransCmp cmp] {heap : Heap elemsize}
    (h : initHeap elemsize nrofelem maxnrofelem addr array (some cmp) = .ok heap)
    (ops : List (Op elemsize)) :
    ∃ l : List (Elem elemsize), (run step (run step heap ops).2
        (List.replicate (run step heap ops).2.nrofelem .remove)).1 =
          l.map (fun elem => (none, some elem)) ∧
      (l : Multiset (Elem elemsize)) + removed (run step heap ops).1 =
        contents nrofelem (elems array.toList) + inserted ops (run step heap ops).1 ∧
      l.Pairwise (fun a b => cmp a b ≠ .lt) ∧
      (run step (run step heap ops).2
        (List.replicate (run step heap ops).2.nrofelem .remove)).2.nrofelem = 0 := by
  obtain ⟨hcmp, hmax, hord, hstored⟩ := initHeap_spec h
  obtain ⟨hvalid, hsum⟩ := (Valid.mk hcmp hmax hord).run ops
  obtain ⟨l, houts, hl, hsorted, hempty⟩ := drain_of_valid _ hvalid rfl
  rw [hstored, ← hl] at hsum
  exact ⟨l, houts, hsum, hsorted, hempty⟩

/-- Two elements at the start, and one that is inserted. -/
theorem drain_sorts_three : ∃ (heap : Heap 2) (l : List (Elem 2)),
    initHeap 2 2 3 4096 #v[1, 0, 7, 1, 0, 0] (some (compareOn fun elem : Elem 2 => elem[0])) =
      .ok heap ∧
    (run step (run step heap [.insert #v[3, 2]]).2 (List.replicate 3 .remove)).1 =
      l.map (fun elem => (none, some elem)) ∧
    l.Pairwise (fun a b => compareOn (fun elem : Elem 2 => elem[0]) a b ≠ .lt) := by
  obtain ⟨l, houts, -, hsorted, -⟩ := @drain_sorts 2 2 3 4096 #v[1, 0, 7, 1, 0, 0]
    (compareOn fun elem : Elem 2 => elem[0]) inferInstance _ rfl [.insert #v[3, 2]]
  exact ⟨_, l, rfl, houts, hsorted⟩

end Heap
end CKern
