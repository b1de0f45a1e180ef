import Mathlib.Data.Nat.Bitwise
import Mathlib.Data.Fintype.Card
import Mathlib.Data.Finset.Basic
import Mathlib.Tactic.FinCases
import Mathlib.Tactic.Linarith
import Mathlib.Tactic.NormNum
import CKern.Library.Refinement
import Mathlib.Data.UInt

/-!
# `ds/inmem/arraysf.c`: a sparse array as a 4-way radix tree

* `Unode`: the nodes, either one that the user has stored or a branch on two bits of the position.
* `findArraysf`, `tryinsertArraysf`, `tryremoveArraysf`: the operations.
* `Unode.Wf`: all positions below a branch agree above the two bits that it tests.
* `arraysf_exact`: the array is a map from positions to nodes, as long as no insertion takes a
  position to have a prefix from which it differs only in bits that the cast to `unsigned` drops.
* `branchInvariant_iff`: all along a run every branch is in order exactly if there is no such
  insertion.
-/

namespace CKern

open Function Refinement

/-! ## The data -/

namespace Arraysf

/-- The error codes of the module. -/
inductive Errno
  | EINVAL
  | EEXIST
  | ESRCH
  deriving DecidableEq, Repr

/-- `arraysf_node_t`, embedded in an object of the user. -/
structure Node (α : Type*) where
  pos : UInt64
  object : α
  deriving DecidableEq, Repr

/-- `arraysf_unode_t`, or the null pointer. -/
inductive Unode (α : Type*)
  | null
  | node (n : Node α)
  | branch (shift used : ℕ) (child : Fin 4 → Unode α)

end Arraysf

/-- `arraysf_t`. -/
structure Arraysf (α : Type*) where
  length : ℕ
  toplevelsize : ℕ
  posshift : ℕ
  root : ℕ → Arraysf.Unode α

namespace Arraysf

variable {α : Type*}

/-- The cast `(unsigned)`. -/
def unsigned (n : ℕ) : ℕ := n % 2 ^ 32

/-- `log2_int(posdiff) & ~0x01u`. -/
def branchShift (posdiff : ℕ) : ℕ := Nat.log2 posdiff / 2 * 2

/-- `pos ^ pos2`. -/
def posdiff (pos pos2 : UInt64) : ℕ := (pos ^^^ pos2).toNat

/-- `childindex_arraysfmwaybranch`. -/
def childindex (shift : ℕ) (pos : UInt64) : Fin 4 :=
  ⟨unsigned (pos.toNat >>> shift) % 4, Nat.mod_lt _ (by norm_num)⟩

namespace Unode

/-- A pointer that is not null. -/
def isSet : Unode α → Bool
  | null => false
  | _ => true

/-- `init_arraysfmwaybranch`. -/
def initBranch (shift : ℕ) (pos1 : UInt64) (childnode1 : Unode α) (pos2 : UInt64)
    (childnode2 : Unode α) : Unode α :=
  branch shift 2
    (update (update (fun _ => null) (childindex shift pos1) childnode1)
      (childindex shift pos2) childnode2)

/-- A branch on the way from the root, with the index of the child that was taken. -/
structure Frame (α : Type*) where
  shift : ℕ
  used : ℕ
  child : Fin 4 → Unode α
  index : Fin 4

/-- The branches above a node, the nearest one first, and the node that takes its place. -/
def plug : List (Frame α) → Unode α → Unode α
  | [], t => t
  | f :: fs, t => plug fs (branch f.shift f.used (update f.child f.index t))

/-- The loop of `find_arraysf`: the branches that were passed, and the node at the end. -/
def locate (pos : UInt64) : Unode α → List (Frame α) → List (Frame α) × Unode α
  | branch shift used child, fs =>
    locate pos (child (childindex shift pos))
      (⟨shift, used, child, childindex shift pos⟩ :: fs)
  | t, fs => (fs, t)

/-- The loop of `tryinsert_arraysf` that looks for the place of a branch on `shift`. -/
def descend (shift : ℕ) (pos : UInt64) : Unode α → List (Frame α) → List (Frame α) × Unode α
  | branch s used child, fs =>
    if shift < s then
      descend shift pos (child (childindex s pos)) (⟨s, used, child, childindex s pos⟩ :: fs)
    else (fs, branch s used child)
  | t, fs => (fs, t)

/-- The loop of `tryinsert_arraysf` that looks for a stored node: always the last child. -/
def sample : Unode α → Option (Node α)
  | null => none
  | node n => some n
  | branch _ _ child =>
    if (child 3).isSet then sample (child 3)
    else if (child 2).isSet then sample (child 2)
    else if (child 1).isSet then sample (child 1)
    else sample (child 0)

end Unode

open Unode

/-! ## The operations -/

/-- `makepowerof2_int`. -/
def makepowerof2 (i : ℕ) : ℕ :=
  if i &&& (i - 1) ≠ 0 ∧ i < 2 ^ 31 then 2 ^ (Nat.log2 i + 1) else i

/-- `new_arraysf`. -/
def newArraysf (α : Type*) (toplevelsize posshift : ℕ) : Except Errno (Arraysf α) :=
  let toplevelsize := makepowerof2 (if toplevelsize = 0 then 1 else toplevelsize)
  if 0x00800000 < toplevelsize then .error .EINVAL
  else if 64 - Nat.log2 (max toplevelsize 2) < posshift then .error .EINVAL
  else .ok ⟨0, toplevelsize, posshift, fun _ => null⟩

/-- The index into `root`. -/
def rootindex (array : Arraysf α) (pos : UInt64) : ℕ :=
  unsigned (pos.toNat >>> array.posshift) &&& (array.toplevelsize - 1)

/-- `find_arraysf`: the branches above the node that was found, and that node. -/
def findArraysf (array : Arraysf α) (pos : UInt64) : List (Frame α) × Unode α :=
  locate pos (array.root (rootindex array pos)) []

/-- `at_arraysf`. -/
def atArraysf (array : Arraysf α) (pos : UInt64) : Option (Node α) :=
  match (findArraysf array pos).2 with
  | node n => if n.pos = pos then some n else none
  | _ => none

/-- `unsigned prefix = ~0x03u & (unsigned)(posdiff >> found.parent->shift)` -/
def prefixOf (posdiff shift : ℕ) : ℕ := unsigned (posdiff >>> shift) / 4 * 4

/-- The new tree of `tryinsert_arraysf`, if `fs` are the branches above `found`. -/
def insertTree (root : Unode α) (fs : List (Frame α)) (found : Unode α) (new : Node α)
    (pos : UInt64) : Unode α :=
  -- not so simple case prefix differs (add new branch layer between root and found.parent)
  let above (pos2 : UInt64) :=
    let shift := branchShift (posdiff pos pos2)
    let d := descend shift pos root []
    plug d.1 (initBranch shift pos2 d.2 pos (node new))
  match found, fs with
  | node n, fs =>
    if fs.head?.all fun f => posdiff pos n.pos >>> f.shift = 0 then
      -- prefix matches (add new branch layer after found.parent)
      plug fs (initBranch (branchShift (posdiff pos n.pos)) n.pos (node n) pos (node new))
    else above n.pos
  | _, [] => node new
  | _, f :: fs =>
    let pos2 := (sample (branch f.shift f.used f.child)).elim pos Node.pos
    if prefixOf (posdiff pos pos2) f.shift = 0 then
      -- prefix does match
      plug ({ f with used := f.used + 1 } :: fs) (node new)
    else above pos2

/-- `tryinsert_arraysf`: the error code, if there is one, the parameter
`inserted_or_existing_node`, and the array. -/
def tryinsertArraysf (array : Arraysf α) (new : Node α) (nodeadp : Option (α → α)) :
    (Option Errno × Option (Node α)) × Arraysf α :=
  let pos := new.pos
  match atArraysf array pos with
  | some n => ((some .EEXIST, some n), array)
  | none =>
    let new : Node α := { new with object := (nodeadp.getD id) new.object }
    let i := rootindex array pos
    let found := findArraysf array pos
    ((none, some new),
      { array with
        length := array.length + 1
        root := update array.root i (insertTree (array.root i) found.1 found.2 new pos) })

/-- The new tree of `tryremove_arraysf`. -/
def removeTree (fs : List (Frame α)) : Except Errno (Unode α) :=
  match fs with
  | [] => .ok null
  | f :: fs =>
    if 2 < f.used then .ok (plug ({ f with used := f.used - 1 } :: fs) null)
    else
      -- delete parent (only one more entry) and adapt parent of parent
      match [3, 2, 1, 0].find? fun i => i ≠ f.index ∧ (f.child i).isSet with
      | some i => .ok (plug fs (f.child i))
      | none => .error .EINVAL

/-- The out parameter is set only if there is no error. -/
def unlessError {β : Type*} (result : (Option Errno × Option (Node α)) × β) :
    (Option Errno × Option (Node α)) × β :=
  ((result.1.1, if result.1.1.isSome then none else result.1.2), result.2)

/-- `insert_arraysf`. -/
def insertArraysf (array : Arraysf α) (new : Node α) (nodeadp : Option (α → α)) :
    (Option Errno × Option (Node α)) × Arraysf α :=
  unlessError (tryinsertArraysf array new nodeadp)

/-- `tryremove_arraysf`. -/
def tryremoveArraysf (array : Arraysf α) (pos : UInt64) :
    (Option Errno × Option (Node α)) × Arraysf α :=
  match atArraysf array pos with
  | none => ((some .ESRCH, none), array)
  | some n =>
    match removeTree (findArraysf array pos).1 with
    | .error e => ((some e, none), array)
    | .ok t =>
      ((none, some n),
        { array with
          length := array.length - 1
          root := update array.root (rootindex array pos) t })

/-- `remove_arraysf`, which differs from the former in nothing but the log. -/
def removeArraysf (array : Arraysf α) (pos : UInt64) :
    (Option Errno × Option (Node α)) × Arraysf α :=
  tryremoveArraysf array pos

/-- `length_arraysf`. -/
def lengthArraysf (array : Arraysf α) : ℕ := array.length

/-! ## Bits of a position -/

theorem val_childindex (shift : ℕ) (pos : UInt64) :
    (childindex shift pos : ℕ) = (pos.toNat >>> shift) % 4 := by
  unfold childindex unsigned
  exact Nat.mod_mod_of_dvd _ (by norm_num)

theorem shiftRight_eq (pos : UInt64) (shift : ℕ) :
    pos.toNat >>> shift = 4 * (pos.toNat >>> (shift + 2)) + childindex shift pos := by
  rw [val_childindex, Nat.shiftRight_add, Nat.shiftRight_eq_div_pow (pos.toNat >>> shift) 2]
  omega

theorem shiftRight_shiftRight (n : ℕ) {k l : ℕ} (h : k ≤ l) : n >>> k >>> (l - k) = n >>> l := by
  rw [← Nat.shiftRight_add, Nat.add_sub_cancel' h]

theorem shiftRight_64 (pos : UInt64) : pos.toNat >>> 64 = 0 := by
  rw [Nat.shiftRight_eq_div_pow]
  exact Nat.div_eq_of_lt pos.toNat_lt

theorem posdiff_shiftRight (pos pos2 : UInt64) (k : ℕ) :
    posdiff pos pos2 >>> k = 0 ↔ pos.toNat >>> k = pos2.toNat >>> k := by
  rw [posdiff, UInt64.toNat_xor, Nat.shiftRight_xor_distrib]
  exact Nat.xor_eq_zero_iff

theorem posdiff_ne_zero {pos pos2 : UInt64} (h : pos ≠ pos2) : posdiff pos pos2 ≠ 0 := by
  intro h0
  have := (posdiff_shiftRight pos pos2 0).mp (by rw [h0]; rfl)
  exact h (UInt64.toNat_inj.mp this)

theorem branchShift_spec {pos pos2 : UInt64} (h : pos ≠ pos2) :
    2 ∣ branchShift (posdiff pos pos2) ∧ branchShift (posdiff pos pos2) + 2 ≤ 64 ∧
      pos.toNat >>> (branchShift (posdiff pos pos2) + 2) =
        pos2.toNat >>> (branchShift (posdiff pos pos2) + 2) ∧
      childindex (branchShift (posdiff pos pos2)) pos ≠
        childindex (branchShift (posdiff pos pos2)) pos2 := by
  have hne := posdiff_ne_zero h
  set d := posdiff pos pos2 with hd
  set s := branchShift d with hs
  have hlog : Nat.log2 d < 64 := (Nat.log2_lt hne).mpr (UInt64.toNat_lt _)
  have hle : s ≤ Nat.log2 d := Nat.div_mul_le_self _ _
  have hlt : Nat.log2 d < s + 2 := by
    rw [hs, branchShift]
    omega
  have hdvd : 2 ∣ s := Dvd.intro_left _ rfl
  have hagree : pos.toNat >>> (s + 2) = pos2.toNat >>> (s + 2) := by
    rw [← posdiff_shiftRight, ← hd, Nat.shiftRight_eq_div_pow]
    exact Nat.div_eq_of_lt ((Nat.log2_lt hne).mp hlt)
  refine ⟨hdvd, by omega, hagree, fun hc => ?_⟩
  have heq : pos.toNat >>> s = pos2.toNat >>> s := by
    rw [shiftRight_eq pos, shiftRight_eq pos2, hagree, hc]
  rw [← posdiff_shiftRight, ← hd, Nat.shiftRight_eq_div_pow] at heq
  have hpow : 2 ^ s ≤ d := (Nat.pow_le_pow_right (by norm_num) hle).trans (Nat.log2_self_le hne)
  have := Nat.div_pos hpow (Nat.two_pow_pos s)
  omega

/-! ## The invariant of a tree -/

namespace Unode

/-- Every position below the node has the bits `x` from bit `k` on, and the branches test lower
bits.  A branch tests an even bit, and it has at least two children. -/
inductive Wf : ℕ → ℕ → Unode α → Prop
  | null {k x} : Wf k x null
  | node {k x n} (h : n.pos.toNat >>> k = x) : Wf k x (node n)
  | branch {k x s used child} (y : ℕ) (hs : 2 ∣ s) (hk : s + 2 ≤ k) (hy : y >>> (k - (s + 2)) = x)
      (hused : used = (Finset.univ.filter fun i => (child i).isSet).card) (h2 : 2 ≤ used)
      (hchild : ∀ i : Fin 4, Wf s (4 * y + i) (child i)) : Wf k x (branch s used child)

/-- The node `n` is stored below a node. -/
def Stores : Unode α → Node α → Prop
  | null, _ => False
  | node m, n => m = n
  | branch _ _ child, n => ∃ i, Stores (child i) n

@[simp] theorem not_stores_null (n : Node α) : ¬ Stores null n := id

@[simp] theorem stores_node {m n : Node α} : Stores (node m) n ↔ m = n := Iff.rfl

theorem stores_branch {s used : ℕ} {child : Fin 4 → Unode α} {n : Node α} :
    Stores (branch s used child) n ↔ ∃ i, Stores (child i) n := Iff.rfl

theorem Stores.isSet {t : Unode α} {n : Node α} (h : Stores t n) : t.isSet = true := by
  cases t with
  | null => exact h.elim
  | node m => rfl
  | branch s used child => rfl

theorem stores_update {s used : ℕ} {child : Fin 4 → Unode α} {i : Fin 4} {t : Unode α}
    {n : Node α} :
    Stores (branch s used (update child i t)) n ↔
      (∃ j, j ≠ i ∧ Stores (child j) n) ∨ Stores t n := by
  rw [stores_branch]
  constructor
  · rintro ⟨j, hj⟩
    by_cases hji : j = i
    · subst hji
      exact Or.inr (by rwa [update_self] at hj)
    · exact Or.inl ⟨j, hji, by rwa [update_of_ne hji] at hj⟩
  · rintro (⟨j, hji, hj⟩ | ht)
    · exact ⟨j, by rwa [update_of_ne hji]⟩
    · exact ⟨i, by rwa [update_self]⟩

theorem stores_branch_index {s used : ℕ} {child : Fin 4 → Unode α} (i : Fin 4) {n : Node α} :
    Stores (branch s used child) n ↔
      (∃ j, j ≠ i ∧ Stores (child j) n) ∨ Stores (child i) n := by
  rw [← @stores_update _ s used, update_eq_self]

theorem Wf.stores {k x : ℕ} {t : Unode α} (h : Wf k x t) {n : Node α} (hn : Stores t n) :
    n.pos.toNat >>> k = x := by
  induction h with
  | null => exact hn.elim
  | node h =>
    cases hn
    exact h
  | @branch k x s used child y hs hk hy hused h2 hchild ih =>
    obtain ⟨i, hi⟩ := hn
    have := shiftRight_eq n.pos s
    rw [ih i hi] at this
    have hy' : n.pos.toNat >>> (s + 2) = y := by
      have := (childindex s n.pos).isLt
      have := i.isLt
      omega
    rw [← hy, ← hy', shiftRight_shiftRight _ hk]

theorem childindex_eq {s y : ℕ} {t : Unode α} {i : Fin 4} (h : Wf s (4 * y + i) t) {n : Node α}
    (hn : Stores t n) : childindex s n.pos = i ∧ n.pos.toNat >>> (s + 2) = y := by
  have h1 := h.stores hn
  have h2 := shiftRight_eq n.pos s
  have h3 := (childindex s n.pos).isLt
  have h4 := i.isLt
  refine ⟨Fin.ext ?_, ?_⟩ <;> omega

theorem Wf.mono {k k' x : ℕ} {t : Unode α} (h : Wf k x t) (hk : k ≤ k') :
    Wf k' (x >>> (k' - k)) t := by
  cases h with
  | null => exact Wf.null
  | node h => exact Wf.node (by rw [← h, shiftRight_shiftRight _ hk])
  | branch y hs hks hy hused h2 hchild =>
    refine Wf.branch y hs (hks.trans hk) ?_ hused h2 hchild
    rw [← hy, ← Nat.shiftRight_add]
    congr 1
    omega

theorem Wf.child {k x s used : ℕ} {child : Fin 4 → Unode α}
    (h : Wf k x (Unode.branch s used child)) (i : Fin 4) : Wf k x (child i) := by
  cases h with
  | branch y hs hk hy hused h2 hchild =>
    have := (hchild i).mono (show s ≤ k by omega)
    rwa [show k - s = 2 + (k - (s + 2)) by omega, Nat.shiftRight_add,
      Nat.shiftRight_eq_div_pow _ 2, show (4 * y + (i : ℕ)) / 2 ^ 2 = y by omega, hy] at this

theorem Wf.rebase {k k' x s used : ℕ} {child : Fin 4 → Unode α}
    (h : Wf k x (Unode.branch s used child)) (hk : s + 2 ≤ k') {n : Node α}
    (hn : Stores (Unode.branch s used child) n) :
    Wf k' (n.pos.toNat >>> k') (Unode.branch s used child) := by
  cases h with
  | branch y hs _ _ hused h2 hchild =>
    obtain ⟨i, hi⟩ := hn
    refine Wf.branch y hs hk ?_ hused h2 hchild
    rw [← (childindex_eq (hchild i) hi).2, shiftRight_shiftRight _ hk]

theorem exists_isSet_ne {k x s used : ℕ} {child : Fin 4 → Unode α}
    (h : Wf k x (branch s used child)) (i : Fin 4) : ∃ j, j ≠ i ∧ (child j).isSet = true := by
  cases h with
  | branch y hs hk hy hused h2 hchild =>
    have hcard : 1 < (Finset.univ.filter fun i => (child i).isSet).card := by omega
    obtain ⟨j, hj, hji⟩ := Finset.exists_mem_ne hcard i
    exact ⟨j, hji, (Finset.mem_filter.mp hj).2⟩

theorem Wf.update {k x s used used' : ℕ} {child : Fin 4 → Unode α} {i : Fin 4} {t : Unode α}
    (h : Wf k x (Unode.branch s used child))
    (hused : used' = (Finset.univ.filter fun j => (Function.update child i t j).isSet).card)
    (h2 : 2 ≤ used')
    (ht : ∀ y : ℕ, (∀ j : Fin 4, Wf s (4 * y + j) (child j)) → Wf s (4 * y + i) t) :
    Wf k x (Unode.branch s used' (Function.update child i t)) := by
  cases h with
  | branch y hs hk hy _ _ hchild =>
    refine Wf.branch y hs hk hy hused h2 fun j => ?_
    by_cases hj : j = i
    · subst hj
      rw [update_self]
      exact ht y hchild
    · rw [update_of_ne hj]
      exact hchild j

theorem sample_spec {k x : ℕ} {t : Unode α} (h : Wf k x t) (hset : t.isSet = true) :
    ∃ n, sample t = some n ∧ Stores t n := by
  induction h with
  | null => exact absurd hset (by simp [isSet])
  | @node k x n h => exact ⟨n, rfl, rfl⟩
  | @branch k x s used child y hs hk hy hused h2 hchild ih =>
    have step : ∀ i, (child i).isSet = true → ∃ n, sample (child i) = some n ∧
        Stores (branch s used child) n := by
      intro i hi
      obtain ⟨n, hn, hst⟩ := ih i hi
      exact ⟨n, hn, i, hst⟩
    rw [sample]
    by_cases h3 : (child 3).isSet = true
    · rw [if_pos h3]
      exact step 3 h3
    rw [if_neg h3]
    by_cases h2' : (child 2).isSet = true
    · rw [if_pos h2']
      exact step 2 h2'
    rw [if_neg h2']
    by_cases h1 : (child 1).isSet = true
    · rw [if_pos h1]
      exact step 1 h1
    rw [if_neg h1]
    refine step 0 ?_
    obtain ⟨j, hj0, hj⟩ := exists_isSet_ne (Wf.branch y hs hk hy hused h2 hchild) 0
    fin_cases j
    · exact absurd rfl hj0
    · exact absurd hj h1
    · exact absurd hj h2'
    · exact absurd hj h3

/-! ## The branches above a node -/

/-- The branches `fs` are above a node that is set, and that has the bits `x` from bit `k` on. -/
inductive Ctx : ℕ → ℕ → List (Frame α) → Prop
  | nil : Ctx 64 0 []
  | cons {k x f fs} (h : Ctx k x fs) (y : ℕ) (hs : 2 ∣ f.shift) (hk : f.shift + 2 ≤ k)
      (hy : y >>> (k - (f.shift + 2)) = x)
      (hused : f.used = (Finset.univ.filter fun i => i ≠ f.index ∧ (f.child i).isSet).card + 1)
      (h2 : 2 ≤ f.used) (hchild : ∀ i : Fin 4, i ≠ f.index → Wf f.shift (4 * y + i) (f.child i)) :
      Ctx f.shift (4 * y + f.index) (f :: fs)

/-- The node `n` is stored below one of the branches, but not below the node under them. -/
def Outside (fs : List (Frame α)) (n : Node α) : Prop :=
  ∃ f ∈ fs, ∃ i, i ≠ f.index ∧ Stores (f.child i) n

@[simp] theorem not_outside_nil (n : Node α) : ¬ Outside [] n := by
  rintro ⟨f, hf, -⟩
  exact absurd hf List.not_mem_nil

theorem outside_cons {f : Frame α} {fs : List (Frame α)} {n : Node α} :
    Outside (f :: fs) n ↔ (∃ i, i ≠ f.index ∧ Stores (f.child i) n) ∨ Outside fs n := by
  simp [Outside]

theorem stores_plug {fs : List (Frame α)} {t : Unode α} {n : Node α} :
    Stores (plug fs t) n ↔ Outside fs n ∨ Stores t n := by
  induction fs generalizing t with
  | nil => simp [plug]
  | cons f fs ih =>
    rw [plug, ih, stores_update, outside_cons, or_left_comm, or_assoc]

theorem card_isSet_update (child : Fin 4 → Unode α) (i : Fin 4) (t : Unode α) :
    (Finset.univ.filter fun j => (update child i t j).isSet).card =
      (Finset.univ.filter fun j => j ≠ i ∧ (child j).isSet).card + if t.isSet then 1 else 0 := by
  by_cases ht : t.isSet = true
  · have hinsert : (Finset.univ.filter fun j => (update child i t j).isSet) =
        insert i (Finset.univ.filter fun j => j ≠ i ∧ (child j).isSet) := by
      ext j
      by_cases hj : j = i
      · subst hj
        simp [ht]
      · simp [hj]
    rw [hinsert, if_pos ht, Finset.card_insert_of_notMem (by simp)]
  · have hsame : (Finset.univ.filter fun j => (update child i t j).isSet) =
        (Finset.univ.filter fun j => j ≠ i ∧ (child j).isSet) := by
      ext j
      by_cases hj : j = i
      · subst hj
        simp [ht]
      · simp [hj]
    rw [hsame, if_neg ht, add_zero]

theorem Ctx.wf_plug {k x : ℕ} {fs : List (Frame α)} (h : Ctx k x fs) {t : Unode α} (ht : Wf k x t)
    (hset : t.isSet = true) : Wf 64 0 (plug fs t) := by
  induction h generalizing t with
  | nil => exact ht
  | @cons k x f fs h y hs hk hy hused h2 hchild ih =>
    refine ih (Wf.branch y hs hk hy ?_ h2 fun i => ?_) rfl
    · rw [card_isSet_update, if_pos hset, hused]
    · by_cases hi : i = f.index
      · subst hi
        rwa [update_self]
      · rw [update_of_ne hi]
        exact hchild i hi

theorem Ctx.outside {k x : ℕ} {fs : List (Frame α)} (h : Ctx k x fs) {n : Node α}
    (hn : Outside fs n) : n.pos.toNat >>> k ≠ x := by
  induction h with
  | nil => exact absurd hn (not_outside_nil n)
  | @cons k x f fs h y hs hk hy hused h2 hchild ih =>
    rw [outside_cons] at hn
    intro heq
    have hbits := shiftRight_eq n.pos f.shift
    have h3 := (childindex f.shift n.pos).isLt
    have h4 := f.index.isLt
    rcases hn with ⟨i, hi, hst⟩ | hout
    · refine hi (Fin.ext ?_)
      have := (hchild i hi).stores hst
      omega
    · refine ih hout ?_
      have hy' : n.pos.toNat >>> (f.shift + 2) = y := by omega
      rw [← hy, ← hy', shiftRight_shiftRight _ hk]

theorem Ctx.push {k x s used : ℕ} {child : Fin 4 → Unode α} {fs : List (Frame α)}
    (h : Ctx k x fs) (hwf : Wf k x (branch s used child)) (i : Fin 4)
    (hset : (child i).isSet = true) :
    ∃ y : ℕ, Ctx s (4 * y + i) (⟨s, used, child, i⟩ :: fs) ∧ Wf s (4 * y + i) (child i) := by
  cases hwf with
  | branch y hs hk hy hused h2 hchild =>
    refine ⟨y, Ctx.cons (f := ⟨s, used, child, i⟩) h y hs hk hy ?_ h2 fun j _ => hchild j,
      hchild i⟩
    have := card_isSet_update child i (child i)
    rw [update_eq_self, if_pos hset] at this
    exact hused.trans this

/-! ## Looking for a position -/

/-- What the loop of `find_arraysf` leaves behind when it has passed at least one branch: the
branches above the last one, that branch, and the node below it. -/
structure Located (pos : UInt64) (t : Unode α) (f : Frame α) (fs : List (Frame α))
    (found : Unode α) : Prop where
  ctx : ∃ k x, Ctx k x fs ∧ Wf k x (branch f.shift f.used f.child)
  index : f.index = childindex f.shift pos
  child : f.child f.index = found
  leaf : ∀ s used child, found ≠ branch s used child
  whole : plug fs (branch f.shift f.used f.child) = t

theorem locate_branch (pos : UInt64) {k x s used : ℕ} {child : Fin 4 → Unode α}
    {fs : List (Frame α)} (hctx : Ctx k x fs) (hwf : Wf k x (branch s used child)) :
    ∃ f gs found, locate pos (branch s used child) fs = (f :: gs, found) ∧
      Located pos (plug fs (branch s used child)) f gs found := by
  generalize ht : branch s used child = t at hwf
  induction t generalizing k x s used child fs with
  | null => simp at ht
  | node n => simp at ht
  | branch s' used' child' ih =>
    obtain ⟨rfl, rfl, rfl⟩ := Unode.branch.inj ht
    rw [locate]
    set i := childindex s pos with hi
    have hdone : (∀ s' used' child', child i ≠ branch s' used' child') →
        Located pos (plug fs (branch s used child)) ⟨s, used, child, i⟩ fs (child i) :=
      fun hleaf => ⟨⟨k, x, hctx, hwf⟩, hi, rfl, hleaf, rfl⟩
    cases hc : child i with
    | null => exact ⟨_, _, _, rfl, hc ▸ hdone (by simp [hc])⟩
    | node n => exact ⟨_, _, _, rfl, hc ▸ hdone (by simp [hc])⟩
    | branch s' used' child' =>
      obtain ⟨y, hpush, hbelow⟩ := hctx.push hwf i (by rw [hc]; rfl)
      obtain ⟨f, gs, found, hloc, hlocated⟩ := ih i hpush hc.symm hbelow
      rw [hc] at hloc
      refine ⟨f, gs, found, hloc, ?_⟩
      rwa [plug, update_eq_self] at hlocated

theorem locate_stores {pos : UInt64} {k x : ℕ} {t : Unode α} (h : Wf k x t) {n : Node α}
    (hn : Stores t n) (hpos : n.pos = pos) (fs : List (Frame α)) :
    (locate pos t fs).2 = node n := by
  induction h generalizing fs with
  | null => exact hn.elim
  | node h =>
    cases hn
    rfl
  | @branch k x s used child y hs hk hy hused h2 hchild ih =>
    obtain ⟨i, hi⟩ := hn
    have hindex := (childindex_eq (hchild i) hi).1
    rw [hpos] at hindex
    rw [locate, hindex]
    exact ih i hi _

theorem stores_of_locate {pos : UInt64} {t : Unode α} {fs : List (Frame α)} {n : Node α}
    (h : (locate pos t fs).2 = node n) : Stores t n := by
  induction t generalizing fs with
  | null => simp [locate] at h
  | node m =>
    rw [locate] at h
    cases h
    rfl
    simp
  | branch s used child ih => exact ⟨_, ih _ h⟩

theorem stores_of_locate_branch {pos : UInt64} {s used : ℕ} {child : Fin 4 → Unode α}
    {fs gs : List (Frame α)} {f : Frame α} {found : Unode α}
    (h : locate pos (branch s used child) fs = (f :: gs, found)) {n : Node α}
    (hn : Stores (branch f.shift f.used f.child) n) : Stores (branch s used child) n := by
  generalize ht : branch s used child = t at h
  induction t generalizing s used child fs with
  | null => simp at ht
  | node n => simp at ht
  | branch s' used' child' ih =>
    obtain ⟨rfl, rfl, rfl⟩ := Unode.branch.inj ht
    rw [locate] at h
    set i := childindex s pos with hi
    cases hc : child i with
    | null =>
      rw [hc] at h
      cases h
      exact hn
    | node n =>
      rw [hc] at h
      cases h
      exact hn
    | branch s' used' child' =>
      exact ⟨i, ih i hc.symm h⟩

/-! ## A new branch -/

theorem wf_initBranch {k x s : ℕ} {pos1 pos : UInt64} {t : Unode α} {new : Node α}
    (hs : 2 ∣ s) (hk : s + 2 ≤ k) (hx : pos.toNat >>> k = x)
    (hagree : pos.toNat >>> (s + 2) = pos1.toNat >>> (s + 2))
    (hdiff : childindex s pos ≠ childindex s pos1) (ht : Wf s (pos1.toNat >>> s) t)
    (hset : t.isSet = true) (hnew : new.pos = pos) :
    Wf k x (initBranch s pos1 t pos (node new)) := by
  refine Wf.branch (pos.toNat >>> (s + 2)) hs hk ?_ ?_ (le_refl 2) fun i => ?_
  · rw [shiftRight_shiftRight _ hk, hx]
  · have hone : (Finset.univ.filter fun j => j ≠ childindex s pos ∧
        (update (fun _ => null) (childindex s pos1) t j).isSet) = {childindex s pos1} := by
      ext j
      rw [Finset.mem_filter, Finset.mem_singleton]
      constructor
      · rintro ⟨-, -, hj⟩
        by_contra hne
        rw [update_of_ne hne] at hj
        exact absurd hj (by simp [isSet])
      · rintro rfl
        exact ⟨Finset.mem_univ _, hdiff.symm, by rwa [update_self]⟩
    rw [card_isSet_update, hone, Finset.card_singleton]
    rfl
  · by_cases hi : i = childindex s pos
    · subst hi
      rw [update_self]
      exact Wf.node (by rw [hnew, ← shiftRight_eq])
    · rw [update_of_ne hi]
      by_cases hi1 : i = childindex s pos1
      · subst hi1
        rwa [update_self, hagree, ← shiftRight_eq]
      · rw [update_of_ne hi1]
        exact Wf.null

theorem stores_initBranch {s : ℕ} {pos1 pos : UInt64} {t : Unode α} {new m : Node α}
    (hdiff : childindex s pos ≠ childindex s pos1) :
    Stores (initBranch s pos1 t pos (node new)) m ↔ Stores t m ∨ new = m := by
  rw [initBranch, stores_update, stores_node]
  refine or_congr_left ⟨?_, fun ht => ⟨childindex s pos1, hdiff.symm, by rwa [update_self]⟩⟩
  rintro ⟨j, hj, hst⟩
  by_cases hj1 : j = childindex s pos1
  · subst hj1
    rwa [update_self] at hst
  · rw [update_of_ne hj1] at hst
    exact hst.elim

theorem descend_spec {shift : ℕ} {pos : UInt64} {n : Node α} (hshift : 2 ∣ shift)
    (hagree : pos.toNat >>> (shift + 2) = n.pos.toNat >>> (shift + 2))
    (hdiff : childindex shift pos ≠ childindex shift n.pos) {f : Frame α}
    {gs : List (Frame α)} {found : Unode α} (hf : f.shift < shift)
    (hn : Stores (branch f.shift f.used f.child) n) {k x s used : ℕ} {child : Fin 4 → Unode α}
    {fs : List (Frame α)} (hctx : Ctx k x fs) (hwf : Wf k x (branch s used child))
    (hk : shift + 2 ≤ k) (hloc : locate pos (branch s used child) fs = (f :: gs, found)) :
    ∃ ds t k' x', descend shift pos (branch s used child) fs = (ds, t) ∧ Ctx k' x' ds ∧
      shift + 2 ≤ k' ∧ pos.toNat >>> k' = x' ∧ Wf shift (n.pos.toNat >>> shift) t ∧ t.isSet ∧
      Stores t n ∧ plug ds t = plug fs (branch s used child) := by
  generalize ht : branch s used child = t at hwf hloc
  induction t generalizing k x s used child fs with
  | null => simp at ht
  | node n => simp at ht
  | branch s' used' child' ih =>
    obtain ⟨rfl, rfl, rfl⟩ := Unode.branch.inj ht
    have hst := stores_of_locate_branch hloc hn
    rw [locate] at hloc
    set i := childindex s pos with hi
    have hs : 2 ∣ s := by
      cases hwf
      assumption
    have hbelow : s ≠ f.shift → ∃ s' used' child', child i = branch s' used' child' := by
      intro hne
      cases hc : child i with
      | branch s' used' child' => exact ⟨s', used', child', rfl⟩
      | _ =>
        rw [hc] at hloc
        cases hloc
        exact absurd rfl hne
    have hchild : s ≠ f.shift → ∃ s' used' child', child i = branch s' used' child' ∧
        Stores (child i) n := by
      intro hne
      obtain ⟨s', used', child', hc⟩ := hbelow hne
      rw [hc] at hloc
      exact ⟨s', used', child', hc, hc ▸ stores_of_locate_branch hloc hn⟩
    rw [descend]
    by_cases hlt : shift < s
    · rw [if_pos hlt]
      obtain ⟨s', used', child', hc, hnc⟩ := hchild (by omega)
      obtain ⟨y, hpush, hwfc⟩ := hctx.push hwf i (by rw [hc]; rfl)
      obtain ⟨ds, t, k', x', hd, h1, h2, h3, h4, h5, h6, h7⟩ :=
        ih i hpush (by omega) hc.symm hwfc hloc
      refine ⟨ds, t, k', x', hd, h1, h2, h3, h4, h5, h6, ?_⟩
      rw [h7, plug, update_eq_self]
    · rw [if_neg hlt]
      -- a branch on `shift` itself would tell `pos` from `n`, which is stored on the way
      have hne : s ≠ shift := by
        rintro rfl
        obtain ⟨s', used', child', hc, hnc⟩ := hchild (by omega)
        cases hwf with
        | branch y _ _ _ _ _ hw =>
          exact hdiff (childindex_eq (hw i) hnc).1.symm
      refine ⟨fs, branch s used child, k, x, rfl, hctx, hk, ?_, hwf.rebase (by omega) hst, rfl,
        hst, rfl⟩
      rw [← hwf.stores hst, ← shiftRight_shiftRight pos.toNat hk, hagree,
        shiftRight_shiftRight _ hk]

theorem le_branchShift {d k : ℕ} (hk : 2 ∣ k) (h : d >>> k ≠ 0) : k ≤ branchShift d := by
  rw [Nat.shiftRight_eq_div_pow] at h
  have hd : d ≠ 0 := by
    rintro rfl
    exact h (Nat.zero_div _)
  have hle : 2 ^ k ≤ d := by
    by_contra hlt
    exact h (Nat.div_eq_of_lt (not_le.mp hlt))
  have hlog : k ≤ Nat.log2 d := (Nat.le_log2 hd).mpr hle
  rw [branchShift]
  omega

theorem branchShift_add_two_le {d k : ℕ} (hk : 2 ∣ k) (hd : d ≠ 0) (h : d >>> k = 0) :
    branchShift d + 2 ≤ k := by
  rw [Nat.shiftRight_eq_div_pow, Nat.div_eq_zero_iff_lt (Nat.two_pow_pos k)] at h
  have hlog : Nat.log2 d < k := (Nat.log2_lt hd).mpr h
  rw [branchShift]
  omega

/-! ## Insertion into a tree and removal from it -/

/-- **The defect.** The loop of `find_arraysf` has ended at a null pointer, and the position
differs from the sample only in bits above those that the cast to `unsigned` keeps. -/
def PrefixLost (pos : UInt64) (found : List (Frame α) × Unode α) : Prop :=
  match found with
  | (f :: _, null) =>
    let pos2 := (sample (branch f.shift f.used f.child)).elim pos Node.pos
    2 ^ 32 ≤ posdiff pos pos2 >>> f.shift ∧ (posdiff pos pos2 >>> f.shift) % 2 ^ 32 < 4
  | _ => False

instance (pos : UInt64) (found : List (Frame α) × Unode α) : Decidable (PrefixLost pos found) :=
  match found with
  | (_ :: _, null) => inferInstanceAs (Decidable (_ ∧ _))
  | ([], _) => isFalse id
  | (_ :: _, node _) => isFalse id
  | (_ :: _, branch _ _ _) => isFalse id

theorem prefixOf_eq_zero {d k : ℕ} (h : ¬ (2 ^ 32 ≤ d >>> k ∧ (d >>> k) % 2 ^ 32 < 4)) :
    prefixOf d k = 0 ↔ d >>> (k + 2) = 0 := by
  rw [prefixOf, unsigned, Nat.shiftRight_add]
  generalize d >>> k = x at h
  rw [Nat.shiftRight_eq_div_pow]
  omega

/-- A tree in which a node has been added. -/
def Inserted (t : Unode α) (new : Node α) (t' : Unode α) : Prop :=
  Wf 64 0 t' ∧ ∀ m, Stores t' m ↔ Stores t m ∨ new = m

theorem inserted_plug (new : Node α) {k x s : ℕ} {fs : List (Frame α)} {pos1 pos : UInt64}
    {t : Unode α} (hctx : Ctx k x fs) (hs : 2 ∣ s) (hk : s + 2 ≤ k) (hx : pos.toNat >>> k = x)
    (hagree : pos.toNat >>> (s + 2) = pos1.toNat >>> (s + 2))
    (hdiff : childindex s pos ≠ childindex s pos1) (ht : Wf s (pos1.toNat >>> s) t)
    (hset : t.isSet = true) (hnew : new.pos = pos) :
    Inserted (plug fs t) new (plug fs (initBranch s pos1 t pos (node new))) := by
  refine ⟨hctx.wf_plug (wf_initBranch hs hk hx hagree hdiff ht hset hnew) rfl, fun m => ?_⟩
  rw [stores_plug, stores_plug, stores_initBranch hdiff, or_assoc]

theorem inserted_above {pos : UInt64} {t : Unode α} {f : Frame α} {gs : List (Frame α)}
    {found : Unode α} {n new : Node α} (hwf : Wf 64 0 t)
    (hloc : locate pos t [] = (f :: gs, found)) (hs : 2 ∣ f.shift)
    (hn : Stores (branch f.shift f.used f.child) n)
    (hne : pos.toNat >>> (f.shift + 2) ≠ n.pos.toNat >>> (f.shift + 2)) (hnew : new.pos = pos) :
    Inserted t new
      (plug (descend (branchShift (posdiff pos n.pos)) pos t []).1
        (initBranch (branchShift (posdiff pos n.pos)) n.pos
          (descend (branchShift (posdiff pos n.pos)) pos t []).2 pos (node new))) := by
  have hpos : pos ≠ n.pos := by
    rintro rfl
    exact hne rfl
  obtain ⟨hshift, hle, hagree, hdiff⟩ := branchShift_spec hpos
  have hlt : f.shift < branchShift (posdiff pos n.pos) := by
    have := le_branchShift (d := posdiff pos n.pos) (k := f.shift + 2) (by omega)
      (by rwa [ne_eq, posdiff_shiftRight])
    omega
  cases t with
  | null => simp [locate] at hloc
  | node m => simp [locate] at hloc
  | branch s used child =>
    obtain ⟨ds, t', k', x', hd, hctx, hk, hx, ht, hset, hst, hwhole⟩ :=
      descend_spec hshift hagree hdiff hlt hn Ctx.nil hwf hle hloc
    have hins := inserted_plug new hctx hshift hk hx hagree hdiff ht hset hnew
    rw [hwhole] at hins
    rw [hd]
    exact hins

/-- **Insertion.** A position that is free gets its node, and nothing else changes. -/
theorem insertTree_spec (new : Node α) {pos : UInt64} {t : Unode α} (hwf : Wf 64 0 t)
    (hfree : ∀ m, Stores t m → m.pos ≠ pos) (hnew : new.pos = pos)
    (hlost : ¬ PrefixLost pos (locate pos t [])) :
    Inserted t new (insertTree t (locate pos t []).1 (locate pos t []).2 new pos) := by
  cases ht : t with
  | null =>
    refine ⟨Wf.node ?_, fun m => ?_⟩
    · exact shiftRight_64 new.pos
    · simp [locate, insertTree]
  | node n =>
    subst ht
    have hpos : pos ≠ n.pos := fun h => hfree n rfl h.symm
    obtain ⟨hshift, hle, hagree, hdiff⟩ := branchShift_spec hpos
    exact inserted_plug new Ctx.nil hshift hle (shiftRight_64 pos) hagree hdiff (Wf.node rfl) rfl
      hnew
  | branch s used child =>
    subst ht
    obtain ⟨f, gs, found, hloc, hlocated⟩ := locate_branch pos Ctx.nil hwf
    obtain ⟨⟨k, x, hctx, hwff⟩, hindex, hchild, hleaf, hwhole⟩ := hlocated
    obtain ⟨y, hs, hk, hy, hused, h2, hwfc⟩ : ∃ y : ℕ, 2 ∣ f.shift ∧ f.shift + 2 ≤ k ∧
        y >>> (k - (f.shift + 2)) = x ∧
        f.used = (Finset.univ.filter fun i => (f.child i).isSet).card ∧ 2 ≤ f.used ∧
        ∀ i : Fin 4, Wf f.shift (4 * y + i) (f.child i) := by
      cases hwff with
      | branch y hs hk hy hused h2 hchild => exact ⟨y, hs, hk, hy, hused, h2, hchild⟩
    change plug gs _ = branch s used child at hwhole
    rw [hloc] at hlost ⊢
    cases found with
    | branch s' used' child' => exact absurd rfl (hleaf s' used' child')
    | node n =>
      have hn : Stores (branch f.shift f.used f.child) n := ⟨f.index, by rw [hchild]; rfl⟩
      by_cases hdiff : posdiff pos n.pos >>> f.shift = 0
      · -- the position ends up between the branch and the node
        have hpos : pos ≠ n.pos := by
          rintro rfl
          exact hfree n (stores_of_locate_branch hloc hn) rfl
        obtain ⟨hshift, -, hagree, hdiff'⟩ := branchShift_spec hpos
        obtain ⟨y', hpush, hwfn⟩ := hctx.push hwff f.index (by rw [hchild]; rfl)
        have hbits := (posdiff_shiftRight pos n.pos f.shift).mp hdiff
        have hins := inserted_plug new hpush hshift
          (branchShift_add_two_le hs (posdiff_ne_zero hpos) hdiff)
          (hbits.trans (hwfn.stores (by rw [hchild]; rfl))) hagree hdiff'
          (Wf.node (n := n) rfl) rfl hnew
        rw [plug, ← hchild, update_eq_self, hwhole, hchild] at hins
        simp only [insertTree, List.head?_cons, Option.all_some, hdiff, decide_true, if_true]
        exact hins
      · simp only [insertTree, List.head?_cons, Option.all_some, hdiff, decide_false,
          Bool.false_eq_true, if_false]
        refine inserted_above hwf hloc hs hn (fun heq => hdiff ?_) hnew
        -- the two bits that the branch tests are the same
        obtain ⟨hi, -⟩ := childindex_eq (hwfc f.index) (n := n) (by rw [hchild]; rfl)
        rw [posdiff_shiftRight, shiftRight_eq pos, shiftRight_eq n.pos, heq, hi, hindex]
    | null =>
      obtain ⟨n, hsample, hn⟩ := sample_spec hwff rfl
      simp only [PrefixLost, hsample, Option.elim_some] at hlost
      simp only [insertTree, hsample, Option.elim_some]
      by_cases hprefix : prefixOf (posdiff pos n.pos) f.shift = 0
      · -- the child of the branch is free
        rw [if_pos hprefix]
        rw [prefixOf_eq_zero hlost, posdiff_shiftRight] at hprefix
        have hcard := card_isSet_update f.child f.index null
        rw [← hchild, update_eq_self, ← hused, hchild] at hcard
        have hwf' : Wf k x (branch f.shift (f.used + 1) (update f.child f.index (node new))) := by
          refine hwff.update ?_ (by omega) fun y hy => Wf.node ?_
          · rw [card_isSet_update, hcard]
            rfl
          · obtain ⟨i, hi⟩ := hn
            rw [hnew, shiftRight_eq, hprefix, (childindex_eq (hy i) hi).2, hindex]
        refine ⟨hctx.wf_plug hwf' rfl, fun m => ?_⟩
        rw [plug, stores_plug, stores_update, stores_node, ← hwhole, stores_plug,
          stores_branch_index f.index, hchild]
        simp [or_assoc]
      · rw [if_neg hprefix]
        rw [prefixOf_eq_zero hlost, posdiff_shiftRight] at hprefix
        exact inserted_above hwf hloc hs hn hprefix hnew

/-- A tree from which the node at a position has been removed. -/
def Removed (t : Unode α) (pos : UInt64) (t' : Unode α) : Prop :=
  Wf 64 0 t' ∧ ∀ m, Stores t' m ↔ Stores t m ∧ m.pos ≠ pos

theorem exists_other {f : Frame α} {k x : ℕ} (h : Wf k x (branch f.shift f.used f.child))
    (hset : (f.child f.index).isSet = true) :
    ∃ i, ([3, 2, 1, 0].find? fun i => i ≠ f.index ∧ (f.child i).isSet) = some i ∧
      i ≠ f.index ∧ (f.child i).isSet = true ∧
      (f.used ≤ 2 → ∀ j, j ≠ f.index → (f.child j).isSet = true → j = i) := by
  obtain ⟨j, hj, hjset⟩ := exists_isSet_ne h f.index
  have hmem : ∀ j : Fin 4, j ∈ ([3, 2, 1, 0] : List (Fin 4)) := by decide
  cases hfind : [3, 2, 1, 0].find? fun i => i ≠ f.index ∧ (f.child i).isSet with
  | none =>
    have := List.find?_eq_none.mp hfind j (hmem j)
    simp [hj, hjset] at this
  | some i =>
    have hi := List.find?_some hfind
    rw [decide_eq_true_eq] at hi
    refine ⟨i, rfl, hi.1, hi.2, fun hused j' hj' hj'set => ?_⟩
    have hcard := card_isSet_update f.child f.index (f.child f.index)
    rw [update_eq_self, if_pos hset] at hcard
    have hle : (Finset.univ.filter fun j => j ≠ f.index ∧ (f.child j).isSet).card ≤ 1 := by
      cases h with
      | branch y hs hk hy hused' h2 hchild => omega
    exact Finset.card_le_one.mp hle j' (by simp [hj', hj'set]) i (by simp [hi])

/-- **Removal.** The position that is searched becomes free, and nothing else changes. -/
theorem removeTree_spec {pos : UInt64} {t : Unode α} {n : Node α} (hwf : Wf 64 0 t)
    (hn : Stores t n) (hpos : n.pos = pos) :
    ∃ t', removeTree (locate pos t []).1 = .ok t' ∧ Removed t pos t' := by
  have hfound := locate_stores hwf hn hpos []
  cases ht : t with
  | null =>
    subst ht
    exact hn.elim
  | node m =>
    subst ht
    cases hn
    refine ⟨null, rfl, Wf.null, fun m => ⟨fun h => h.elim, ?_⟩⟩
    rintro ⟨rfl, hne⟩
    exact hne hpos
  | branch s used child =>
    subst ht
    obtain ⟨f, gs, found, hloc, ⟨k, x, hctx, hwff⟩, hindex, hchild, -, hwhole⟩ :=
      locate_branch pos Ctx.nil hwf
    change plug gs _ = branch s used child at hwhole
    rw [hloc] at hfound ⊢
    change found = node n at hfound
    rw [hfound] at hchild
    have hset : (f.child f.index).isSet = true := by rw [hchild]; rfl
    have hnf : Stores (branch f.shift f.used f.child) n := ⟨f.index, by rw [hchild]; rfl⟩
    -- what else is stored has another position
    have hbelow : ∀ m, (∃ j, j ≠ f.index ∧ Stores (f.child j) m) → m.pos ≠ pos := by
      rintro m ⟨j, hj, hst⟩ rfl
      cases hwff with
      | branch y _ _ _ _ _ hwfc =>
        exact hj ((childindex_eq (hwfc j) hst).1.symm.trans hindex.symm)
    have houtside : ∀ m, Outside gs m → m.pos ≠ pos := by
      rintro m hout rfl
      refine hctx.outside hout ?_
      rw [← hpos]
      exact hwff.stores hnf
    have hstores : ∀ m, (Outside gs m ∨ ∃ j, j ≠ f.index ∧ Stores (f.child j) m) ↔
        Stores (branch s used child) m ∧ m.pos ≠ pos := by
      intro m
      rw [← hwhole, stores_plug, stores_branch_index f.index, hchild, stores_node]
      constructor
      · rintro (hout | hother)
        · exact ⟨Or.inl hout, houtside m hout⟩
        · exact ⟨Or.inr (Or.inl hother), hbelow m hother⟩
      · rintro ⟨hout | hother | rfl, hne⟩
        · exact Or.inl hout
        · exact Or.inr hother
        · exact absurd hpos hne
    obtain ⟨i, hfind, hi, hiset, honly⟩ := exists_other hwff hset
    by_cases hused : 2 < f.used
    · refine ⟨_, if_pos hused, ?_, fun m => ?_⟩
      · refine hctx.wf_plug (hwff.update ?_ (Nat.le_sub_one_of_lt hused) fun y hy => Wf.null) rfl
        have hcard := card_isSet_update f.child f.index (f.child f.index)
        rw [update_eq_self, if_pos hset] at hcard
        rw [card_isSet_update]
        cases hwff with
        | branch y hs hk hy hused' h2 hchild =>
          rw [hused', hcard]
          rfl
      · rw [← hstores, plug, stores_plug, stores_update]
        simp
    · have hfi : ∀ m, (∃ j, j ≠ f.index ∧ Stores (f.child j) m) ↔ Stores (f.child i) m := by
        intro m
        refine ⟨?_, fun h => ⟨i, hi, h⟩⟩
        rintro ⟨j, hj, hst⟩
        rwa [← honly (by omega) j hj hst.isSet]
      refine ⟨plug gs (f.child i), ?_, ?_, fun m => ?_⟩
      · rw [removeTree, if_neg hused, hfind]
      · exact hctx.wf_plug (hwff.child i) hiset
      · rw [← hstores, stores_plug, hfi]

end Unode

/-! ## The array as a map -/

/-- The array stands for the map `m`. -/
structure Represents (array : Arraysf α) (m : UInt64 → Option (Node α)) : Prop where
  wf : ∀ i, Wf 64 0 (array.root i)
  stores : ∀ p n, m p = some n ↔ n.pos = p ∧ Stores (array.root (rootindex array p)) n
  finite : (MapSpec.keys m).Finite
  length : array.length = (MapSpec.keys m).ncard

theorem represents_newArraysf {toplevelsize posshift : ℕ} {array : Arraysf α}
    (h : newArraysf α toplevelsize posshift = .ok array) : Represents array fun _ => none := by
  obtain ⟨hlength, hroot⟩ : array.length = 0 ∧ array.root = fun _ => null := by
    simp only [newArraysf] at h
    generalize makepowerof2 _ = size at h
    split_ifs at h
    cases h
    exact ⟨rfl, rfl⟩
  have hkeys : MapSpec.keys (fun _ => none : UInt64 → Option (Node α)) = ∅ := by
    ext p
    simp [MapSpec.keys]
  refine ⟨fun i => ?_, fun p n => ?_, ?_, ?_⟩
  · rw [hroot]
    exact Wf.null
  · rw [hroot]
    simp
  · rw [hkeys]
    exact Set.finite_empty
  · rw [hkeys, hlength, Set.ncard_empty]

theorem Represents.atArraysf_eq {array : Arraysf α} {m : UInt64 → Option (Node α)}
    (h : Represents array m) (p : UInt64) : atArraysf array p = m p := by
  cases hm : m p with
  | some n =>
    obtain ⟨hpos, hst⟩ := (h.stores p n).mp hm
    rw [atArraysf, findArraysf, locate_stores (h.wf _) hst hpos]
    exact if_pos hpos
  | none =>
    cases hfound : (findArraysf array p).2 with
    | node n =>
      have hne : n.pos ≠ p := by
        intro hpos
        have := (h.stores p n).mpr ⟨hpos, stores_of_locate hfound⟩
        rw [hm] at this
        exact Option.some_ne_none n this.symm
      rw [atArraysf, hfound]
      exact if_neg hne
    | null => rw [atArraysf, hfound]
    | branch s used child => rw [atArraysf, hfound]

theorem Represents.update {array : Arraysf α} {m : UInt64 → Option (Node α)}
    (h : Represents array m) {pos : UInt64} {v : Option (Node α)} {t : Unode α} {length : ℕ}
    (hwf : Wf 64 0 t)
    (hv : ∀ n, v = some n ↔ n.pos = pos ∧ Stores t n)
    (hother : ∀ n, n.pos ≠ pos → (Stores t n ↔ Stores (array.root (rootindex array pos)) n))
    (hfinite : (MapSpec.keys (Function.update m pos v)).Finite)
    (hlength : length = (MapSpec.keys (Function.update m pos v)).ncard) :
    Represents { array with
      length := length
      root := Function.update array.root (rootindex array pos) t } (Function.update m pos v) := by
  refine ⟨fun i => ?_, fun p n => ?_, hfinite, hlength⟩
  · by_cases hi : i = rootindex array pos
    · subst hi
      change Wf 64 0 (Function.update array.root (rootindex array pos) t (rootindex array pos))
      rwa [update_self]
    · change Wf 64 0 (Function.update array.root (rootindex array pos) t i)
      rw [update_of_ne hi]
      exact h.wf i
  · change _ ↔ n.pos = p ∧
      Stores (Function.update array.root (rootindex array pos) t (rootindex array p)) n
    by_cases hp : p = pos
    · subst hp
      rw [update_self, update_self]
      exact hv n
    · rw [update_of_ne hp, h.stores p n]
      refine and_congr_right fun hpos => ?_
      by_cases hi : rootindex array p = rootindex array pos
      · rw [hi, update_self]
        exact (hother n (hpos ▸ hp)).symm
      · rw [update_of_ne hi]

/-- The insertion into the map. -/
def specTryinsert (m : UInt64 → Option (Node α)) (new : Node α) (nodeadp : Option (α → α)) :
    (Option Errno × Option (Node α)) × (UInt64 → Option (Node α)) :=
  match m new.pos with
  | some n => ((some .EEXIST, some n), m)
  | none =>
    let stored : Node α := { new with object := (nodeadp.getD id) new.object }
    ((none, some stored), update m new.pos (some stored))

/-- The removal from the map. -/
def specTryremove (m : UInt64 → Option (Node α)) (pos : UInt64) :
    (Option Errno × Option (Node α)) × (UInt64 → Option (Node α)) :=
  match m pos with
  | none => ((some .ESRCH, none), m)
  | some n => ((none, some n), update m pos none)

theorem Represents.tryinsertArraysf {array : Arraysf α} {m : UInt64 → Option (Node α)}
    (h : Represents array m) (new : Node α) (nodeadp : Option (α → α))
    (hlost : ¬ PrefixLost new.pos (findArraysf array new.pos)) :
    (tryinsertArraysf array new nodeadp).1 = (specTryinsert m new nodeadp).1 ∧
      Represents (tryinsertArraysf array new nodeadp).2 (specTryinsert m new nodeadp).2 := by
  unfold Arraysf.tryinsertArraysf specTryinsert findArraysf
  dsimp only
  rw [h.atArraysf_eq]
  cases hm : m new.pos with
  | some n => exact ⟨rfl, h⟩
  | none =>
    set stored : Node α := ⟨new.pos, (nodeadp.getD id) new.object⟩
    have hfree : ∀ n, Stores (array.root (rootindex array new.pos)) n → n.pos ≠ new.pos := by
      intro n hst hpos
      have := (h.stores new.pos n).mpr ⟨hpos, hst⟩
      rw [hm] at this
      exact Option.some_ne_none n this.symm
    obtain ⟨hwf, hst⟩ := insertTree_spec stored (h.wf _) hfree rfl hlost
    refine ⟨rfl, h.update hwf (fun n => ?_) (fun n hn => ?_) ?_ ?_⟩
    · rw [hst, Option.some_inj]
      constructor
      · rintro rfl
        exact ⟨rfl, Or.inr rfl⟩
      · rintro ⟨hpos, hold | heq⟩
        · exact absurd hpos (hfree n hold)
        · exact heq
    · rw [hst]
      refine or_iff_left ?_
      rintro rfl
      exact hn rfl
    · rw [MapSpec.keys_insert]
      exact h.finite.insert _
    · rw [MapSpec.ncard_insert h.finite hm, h.length]

theorem Represents.tryremoveArraysf {array : Arraysf α} {m : UInt64 → Option (Node α)}
    (h : Represents array m) (pos : UInt64) :
    (tryremoveArraysf array pos).1 = (specTryremove m pos).1 ∧
      Represents (tryremoveArraysf array pos).2 (specTryremove m pos).2 := by
  unfold Arraysf.tryremoveArraysf specTryremove
  rw [h.atArraysf_eq]
  cases hm : m pos with
  | none => exact ⟨rfl, h⟩
  | some n =>
    obtain ⟨hpos, hn⟩ := (h.stores pos n).mp hm
    obtain ⟨t, hok, hwf, hst⟩ := removeTree_spec (h.wf _) hn hpos
    unfold findArraysf
    rw [hok]
    refine ⟨rfl, h.update hwf (fun n' => ?_) (fun n' hn' => ?_) ?_ ?_⟩
    · rw [hst]
      constructor
      · intro hnone
        exact absurd hnone.symm (Option.some_ne_none n')
      · rintro ⟨hpos', -, hne⟩
        exact absurd hpos' hne
    · rw [hst]
      exact and_iff_left hn'
    · rw [MapSpec.keys_erase]
      exact h.finite.sdiff
    · have := MapSpec.ncard_erase h.finite hm
      rw [← h.length] at this
      exact Nat.sub_eq_of_eq_add this.symm

/-! ## Runs -/

/-- The calls that change the array. -/
inductive Op (α : Type*)
  | tryinsert (new : Node α) (nodeadp : Option (α → α))
  | insert (new : Node α) (nodeadp : Option (α → α))
  | tryremove (pos : UInt64)
  | remove (pos : UInt64)

/-- A call on the array. -/
def step (array : Arraysf α) : Op α → (Option Errno × Option (Node α)) × Arraysf α
  | .tryinsert new nodeadp => tryinsertArraysf array new nodeadp
  | .insert new nodeadp => insertArraysf array new nodeadp
  | .tryremove pos => tryremoveArraysf array pos
  | .remove pos => removeArraysf array pos

/-- The call on the map. -/
def specStep (m : UInt64 → Option (Node α)) :
    Op α → (Option Errno × Option (Node α)) × (UInt64 → Option (Node α))
  | .tryinsert new nodeadp => specTryinsert m new nodeadp
  | .insert new nodeadp => unlessError (specTryinsert m new nodeadp)
  | .tryremove pos => specTryremove m pos
  | .remove pos => specTryremove m pos

/-- The call does not lose a prefix. -/
def KeepsPrefix (array : Arraysf α) : Op α → Prop
  | .tryinsert new _ => ¬ PrefixLost new.pos (findArraysf array new.pos)
  | .insert new _ => ¬ PrefixLost new.pos (findArraysf array new.pos)
  | .tryremove _ => True
  | .remove _ => True

instance (array : Arraysf α) (op : Op α) : Decidable (KeepsPrefix array op) :=
  match op with
  | .tryinsert new _ => inferInstanceAs (Decidable (¬ PrefixLost new.pos _))
  | .insert new _ => inferInstanceAs (Decidable (¬ PrefixLost new.pos _))
  | .tryremove _ => isTrue True.intro
  | .remove _ => isTrue True.intro

theorem represents_step {array : Arraysf α} {m : UInt64 → Option (Node α)} {op : Op α}
    (h : Represents array m) (hop : KeepsPrefix array op) :
    (step array op).1 = (specStep m op).1 ∧ Represents (step array op).2 (specStep m op).2 := by
  cases op with
  | tryinsert new nodeadp => exact h.tryinsertArraysf new nodeadp hop
  | insert new nodeadp =>
    obtain ⟨hout, hrep⟩ := h.tryinsertArraysf new nodeadp hop
    refine ⟨?_, hrep⟩
    simp only [step, specStep, insertArraysf, unlessError, hout]
  | tryremove pos => exact h.tryremoveArraysf pos
  | remove pos => exact h.tryremoveArraysf pos

/-- **`arraysf.c` is a map.** In every run in which no insertion loses a prefix, all calls return
what they return for a map, `at_arraysf` returns the node at every position, and `length_arraysf` is
the number of the positions that are occupied. -/
theorem arraysf_exact {toplevelsize posshift : ℕ} {array : Arraysf α}
    (h : newArraysf α toplevelsize posshift = .ok array) (ops : List (Op α))
    (hops : Along step KeepsPrefix array ops) :
    (run step array ops).1 = (run specStep (fun _ => none) ops).1 ∧
      (∀ p, atArraysf (run step array ops).2 p = (run specStep (fun _ => none) ops).2 p) ∧
      lengthArraysf (run step array ops).2 =
        (MapSpec.keys (run specStep (fun _ => none) ops).2).ncard := by
  have hstep : ∀ (a : Arraysf α) (m : UInt64 → Option (Node α)) (op : Op α), Represents a m →
      KeepsPrefix a op → (step a op).1 = (specStep m op).1 ∧
        Represents (step a op).2 (specStep m op).2 := fun _ _ _ => represents_step
  obtain ⟨hout, hrep⟩ := run_refines hstep (represents_newArraysf h) hops
  exact ⟨hout, hrep.atArraysf_eq, hrep.length⟩

/-- Insertions beside a branch and above it, one of them at a position that is occupied, and a
removal. -/
theorem arraysf_exact_five : ∃ array, newArraysf ℕ 1 0 = .ok array ∧
    atArraysf (run step array [.tryinsert ⟨0, 7⟩ none, .tryinsert ⟨1, 8⟩ (some (· + 1)),
      .insert ⟨2 ^ 40 + 4, 9⟩ none, .insert ⟨1, 5⟩ none, .tryremove 0]).2 1 = some ⟨1, 9⟩ := by
  have hnew : newArraysf ℕ 1 0 = .ok ⟨0, 1, 0, fun _ => null⟩ := rfl
  exact ⟨_, hnew, ((arraysf_exact hnew _ (by decide +kernel)).2.1 1).trans (by decide +kernel)⟩

/-- The branch on the bits of 0 and 1 takes the position `2 ^ 40 + 2`, and the branch that the next
insertion puts above it hides that position. -/
theorem arraysf_not_exact : ¬ ∀ (array : Arraysf Unit) (ops : List (Op Unit)),
    newArraysf Unit 1 0 = .ok array →
      ∀ p, atArraysf (run step array ops).2 p = (run specStep (fun _ => none) ops).2 p := by
  intro h
  have := h _ [.insert ⟨0, ()⟩ none, .insert ⟨1, ()⟩ none, .insert ⟨2 ^ 40 + 2, ()⟩ none,
    .insert ⟨2 ^ 40 + 4, ()⟩ none] rfl (2 ^ 40 + 2)
  revert this
  decide +kernel

/-! ## The branches of the reachable trees -/

namespace Unode

/-- A node of a tree. -/
inductive Part (u : Unode α) : Unode α → Prop
  | refl : Part u u
  | child {s used child} (i : Fin 4) (h : Part u (child i)) : Part u (branch s used child)

/-- What is to hold for a branch: `used` counts the children, the positions below it agree from bit
`shift + 2` on, the two bits at `shift` tell the child, and the branches below it test lower
bits. -/
structure BranchOk (shift used : ℕ) (child : Fin 4 → Unode α) : Prop where
  used_eq : used = (Finset.univ.filter fun i => (child i).isSet).card
  two_le : 2 ≤ used
  agree : ∀ m n, Stores (branch shift used child) m → Stores (branch shift used child) n →
    ∀ j, shift + 2 ≤ j → m.pos.toNat.testBit j = n.pos.toNat.testBit j
  index : ∀ i n, Stores (child i) n → (n.pos.toNat >>> shift) % 4 = i
  below : ∀ i s u c, Part (branch s u c) (child i) → s < shift

theorem part_plug {fs : List (Frame α)} {t : Unode α} : Part t (plug fs t) := by
  suffices h : ∀ u, Part t u → Part t (plug fs u) from h t Part.refl
  induction fs with
  | nil => exact fun u hu => hu
  | cons f fs ih =>
    intro u hu
    refine ih _ (Part.child f.index ?_)
    rwa [update_self]

theorem testBit_eq_of_shiftRight_eq {m n k j : ℕ} (h : m >>> k = n >>> k) (hj : k ≤ j) :
    m.testBit j = n.testBit j := by
  obtain ⟨i, rfl⟩ := Nat.exists_eq_add_of_le hj
  rw [← Nat.testBit_shiftRight, h, Nat.testBit_shiftRight]

theorem Wf.shift_lt {k x : ℕ} {t : Unode α} (h : Wf k x t) {s used : ℕ} {child : Fin 4 → Unode α}
    (hp : Part (Unode.branch s used child) t) : s < k := by
  induction h with
  | null => cases hp
  | node h => cases hp
  | @branch k x s' used' child' y hs hk hy hused h2 hchild ih =>
    cases hp with
    | refl => omega
    | child i hp => exact (ih i hp).trans (by omega)

theorem Wf.branchOk {k x : ℕ} {t : Unode α} (h : Wf k x t) {s used : ℕ}
    {child : Fin 4 → Unode α} (hp : Part (Unode.branch s used child) t) : BranchOk s used child := by
  induction h with
  | null => cases hp
  | node h => cases hp
  | @branch k x s' used' child' y hs hk hy hused h2 hchild ih =>
    cases hp with
    | child i hp => exact ih i hp
    | refl =>
      have hbits : ∀ n, Stores (Unode.branch s used child) n → n.pos.toNat >>> (s + 2) = y := by
        rintro n ⟨i, hi⟩
        exact (childindex_eq (hchild i) hi).2
      refine ⟨hused, h2, fun m n hm hn j hj => ?_, fun i n hn => ?_, fun i s' u c hp => ?_⟩
      · exact testBit_eq_of_shiftRight_eq ((hbits m hm).trans (hbits n hn).symm) hj
      · rw [← val_childindex, (childindex_eq (hchild i) hn).1]
      · exact (hchild i).shift_lt hp

/-- **What the defect does**: the branch that takes the new node has positions below it that differ
above the bits that it tests. -/
theorem not_branchOk_of_prefixLost (new : Node α) {pos : UInt64} {t : Unode α} (hwf : Wf 64 0 t)
    (hnew : new.pos = pos) (hlost : PrefixLost pos (locate pos t [])) :
    ∃ s used child, Part (branch s used child)
      (insertTree t (locate pos t []).1 (locate pos t []).2 new pos) ∧
        ¬ BranchOk s used child := by
  cases t with
  | null => exact hlost.elim
  | node n => exact hlost.elim
  | branch s used child =>
    obtain ⟨f, gs, found, hloc, ⟨k, x, -, hwff⟩, -, hchild, -, -⟩ := locate_branch pos Ctx.nil hwf
    rw [hloc] at hlost ⊢
    cases found with
    | node n => exact hlost.elim
    | branch s' used' child' => exact hlost.elim
    | null =>
      obtain ⟨n, hsample, hn⟩ := sample_spec hwff rfl
      obtain ⟨hbig, hsmall⟩ := hlost
      rw [hsample, Option.elim_some] at hbig hsmall
      have hprefix : prefixOf (posdiff pos n.pos) f.shift = 0 := by
        rw [prefixOf, unsigned]
        omega
      simp only [insertTree, hsample, Option.elim_some, hprefix, if_true]
      refine ⟨f.shift, f.used + 1, update f.child f.index (node new), part_plug,
        fun hok => ?_⟩
      -- the sample is still there, as the child that is set was null
      rw [stores_branch_index f.index, hchild] at hn
      have hsame := hok.agree new n (stores_update.mpr (Or.inr rfl))
        (stores_update.mpr (Or.inl (hn.resolve_right (not_stores_null n))))
      have heq : pos.toNat >>> (f.shift + 2) = n.pos.toNat >>> (f.shift + 2) := by
        refine Nat.eq_of_testBit_eq fun j => ?_
        rw [Nat.testBit_shiftRight, Nat.testBit_shiftRight, ← hnew]
        exact hsame _ (Nat.le_add_right _ _)
      rw [← posdiff_shiftRight, Nat.shiftRight_add, Nat.shiftRight_eq_div_pow _ 2] at heq
      omega

end Unode

/-- Every branch of the array is in order. -/
def BranchInvariant (array : Arraysf α) : Prop :=
  ∀ i s used child, Part (branch s used child) (array.root i) → BranchOk s used child

theorem Represents.branchInvariant {array : Arraysf α} {m : UInt64 → Option (Node α)}
    (h : Represents array m) : BranchInvariant array :=
  fun i _ _ _ hp => (h.wf i).branchOk hp

theorem Represents.not_branchInvariant {array : Arraysf α} {m : UInt64 → Option (Node α)}
    (h : Represents array m) (new : Node α) (nodeadp : Option (α → α))
    (hlost : PrefixLost new.pos (findArraysf array new.pos)) :
    ¬ BranchInvariant (Arraysf.tryinsertArraysf array new nodeadp).2 := by
  have hat : atArraysf array new.pos = none := by
    unfold atArraysf
    rcases hf : findArraysf array new.pos with ⟨fs, found⟩
    rw [hf] at hlost
    cases found with
    | null => rfl
    | branch s used child => rfl
    | node n => cases fs <;> exact hlost.elim
  obtain ⟨s, used, child, hp, hnot⟩ := not_branchOk_of_prefixLost
    ⟨new.pos, (nodeadp.getD id) new.object⟩ (h.wf (rootindex array new.pos)) rfl hlost
  intro hinv
  refine hnot (hinv (rootindex array new.pos) s used child ?_)
  unfold Arraysf.tryinsertArraysf
  dsimp only
  rw [hat]
  dsimp only
  rwa [update_self]

/-- **The invariant of the branches.** It holds in every state of a run exactly if no insertion of
the run loses a prefix. -/
theorem branchInvariant_iff {toplevelsize posshift : ℕ} {array : Arraysf α}
    (h : newArraysf α toplevelsize posshift = .ok array) (ops : List (Op α)) :
    (∀ k, BranchInvariant (run step array (ops.take k)).2) ↔ Along step KeepsPrefix array ops := by
  refine forall_run_take_iff (R := fun a => ∃ m, Represents a m) ?_ ?_ ?_
    ⟨_, represents_newArraysf h⟩ ops
  · rintro a ⟨m, hm⟩
    exact hm.branchInvariant
  · rintro a op ⟨m, hm⟩ hop
    exact ⟨_, (represents_step hm hop).2⟩
  · rintro a op ⟨m, hm⟩ hop
    cases op with
    | tryinsert new nodeadp => exact hm.not_branchInvariant new nodeadp (not_not.mp hop)
    | insert new nodeadp => exact hm.not_branchInvariant new nodeadp (not_not.mp hop)
    | tryremove pos => exact absurd True.intro hop
    | remove pos => exact absurd True.intro hop

/-- A branch over another one, and its removal. -/
theorem branchInvariant_three : ∃ array, newArraysf ℕ 1 0 = .ok array ∧
    ∀ k, BranchInvariant (run step array ([.tryinsert ⟨0, 7⟩ none, .insert ⟨1, 8⟩ none,
      .insert ⟨2 ^ 40 + 4, 9⟩ none, .tryremove 0].take k)).2 := by
  have hnew : newArraysf ℕ 1 0 = .ok ⟨0, 1, 0, fun _ => null⟩ := rfl
  exact ⟨_, hnew, (branchInvariant_iff hnew _).mpr (by decide +kernel)⟩

/-- The position `2 ^ 40 + 2` is stored below the branch on the bits of 0 and 1, although it differs
from them in bit 40. -/
theorem branchInvariant_not : ¬ ∀ (array : Arraysf Unit) (ops : List (Op Unit)),
    newArraysf Unit 1 0 = .ok array → BranchInvariant (run step array ops).2 := by
  intro h
  have hinv := h _ [.insert ⟨0, ()⟩ none, .insert ⟨1, ()⟩ none, .insert ⟨2 ^ 40 + 2, ()⟩ none] rfl
  obtain ⟨child, hroot, h0, h2⟩ : ∃ child, (run step (⟨0, 1, 0, fun _ => null⟩ : Arraysf Unit)
      [.insert ⟨0, ()⟩ none, .insert ⟨1, ()⟩ none, .insert ⟨2 ^ 40 + 2, ()⟩ none]).2.root 0 =
        branch 0 3 child ∧ child 0 = node ⟨0, ()⟩ ∧ child 2 = node ⟨2 ^ 40 + 2, ()⟩ :=
    ⟨_, rfl, rfl, rfl⟩
  have hok := hinv 0 0 3 child (hroot ▸ Part.refl)
  have := hok.agree ⟨0, ()⟩ ⟨2 ^ 40 + 2, ()⟩ ⟨0, by rw [h0]; rfl⟩ ⟨2, by rw [h2]; rfl⟩ 40
    (by norm_num)
  revert this
  decide +kernel

end Arraysf
end CKern
