import Mathlib.Data.Nat.Bitwise
import Mathlib.Data.Fintype.Card
import Mathlib.Tactic.FinCases
import Mathlib.Tactic.NormNum
import CKern.Library.Multiway
import CKern.Library.Refinement

/-!
# `ds/inmem/arraystf.c`: a 4-way trie with byte strings as keys

* `value`: the digits of a key, which is extended by zeros, with its length at `SIZE_MAX`.
* `Agree`, `Differ`: two keys agree up to a position, or differ at a position for the first time.
* `findArraystf`, `tryinsertArraystf`, `tryremoveArraystf`: the operations.
* `BranchOk`, `Wf`: the keys below a branch agree up to its position, the child tells the digit at
  this position, and the branches below test later positions.
* `arraystf_exact`: the array is a map from byte strings to nodes.
-/

namespace CKern

open Function Refinement Multiway

/-! ## The data -/

namespace Arraystf

/-- The error codes of the module. -/
inductive Errno
  | EINVAL
  | EEXIST
  | ESRCH
  deriving DecidableEq, Repr

/-- `SIZE_MAX`. -/
def SIZE_MAX : ℕ := 2 ^ 64 - 1

/-- `arraystf_node_t`, embedded in an object of the user. -/
structure Node (α : Type*) where
  addr : List UInt8
  object : α
  deriving DecidableEq, Repr

/-- `arraystf_unode_t`, or the null pointer. -/
inductive Unode (α : Type*)
  | null
  | node (n : Node α)
  | branch (offset shift used : ℕ) (child : Fin 4 → Unode α)

/-- `arraystf_keyval_t`. -/
structure Keyval where
  data : ℕ
  offset : ℕ
  deriving DecidableEq, Repr

end Arraystf

/-- `arraystf_t`. -/
structure Arraystf (α : Type*) where
  length : ℕ
  toplevelsize : ℕ
  rootidxshift : ℕ
  root : ℕ → Arraystf.Unode α

namespace Arraystf

/-- The number of children of a branch. -/
local instance neZero_four : NeZero 4 := ⟨by decide⟩

variable {α : Type*}

/-! ## Keys -/

/-- `init_arraystfkeyval`. -/
def initKeyval (offset : ℕ) (addr : List UInt8) : Keyval :=
  if offset < addr.length then ⟨(addr.getD offset 0).toNat, offset⟩
  else if offset = SIZE_MAX then ⟨addr.length, offset⟩
  else ⟨0, offset⟩

/-- The loops of `initdiff_arraystfkeyval` for the end of the longer key. -/
def firstNonzero : List UInt8 → ℕ → Option Keyval
  | [], _ => none
  | b :: bs, offset => if b = 0 then firstNonzero bs (offset + 1) else some ⟨b.toNat, offset⟩

/-- The loops of `initdiff_arraystfkeyval`. -/
def firstDiff : List UInt8 → List UInt8 → ℕ → Option Keyval
  | b1 :: bs1, b2 :: bs2, offset =>
    if b1 = b2 then firstDiff bs1 bs2 (offset + 1) else some ⟨(b1 ^^^ b2).toNat, offset⟩
  | bs1, [], offset => firstNonzero bs1 offset
  | [], bs2, offset => firstNonzero bs2 offset

/-- `initdiff_arraystfkeyval`. -/
def initdiff (addr1 addr2 : List UInt8) : Except Errno Keyval :=
  match firstDiff addr1 addr2 0 with
  | some keyval => .ok keyval
  | none =>
    if addr1.length = addr2.length then .error .EINVAL
    else .ok ⟨addr1.length ^^^ addr2.length, SIZE_MAX⟩

/-- The cast `(unsigned)`. -/
def unsigned (n : ℕ) : ℕ := n % 2 ^ 32

/-- `log2_int(keydiff.data) & ~0x01u`. -/
def branchShift (data : ℕ) : ℕ := Nat.log2 data / 2 * 2

/-- `childindex_arraystfmwaybranch`. -/
def childindex (shift data : ℕ) : Fin 4 :=
  ⟨unsigned (data >>> shift) % 4, Nat.mod_lt _ (by norm_num)⟩

namespace Unode

/-- A pointer that is not null. -/
def isSet : Unode α → Bool
  | null => false
  | _ => true

/-- `isbranchtype_arraystfunode`. -/
def isBranchtype : Unode α → Bool
  | branch _ _ _ _ => true
  | _ => false

/-- `cast2node_arraystfunode`. -/
def toNode : Unode α → Option (Node α)
  | node n => some n
  | _ => none

/-- `init_arraystfmwaybranch`. -/
def initBranch (offset shift data1 : ℕ) (childnode1 : Unode α) (data2 : ℕ)
    (childnode2 : Unode α) : Unode α :=
  branch offset shift 2
    (update (update (fun _ => null) (childindex shift data1) childnode1)
      (childindex shift data2) childnode2)

/-- A branch on the way from the root, with the index of the child that was taken. -/
structure Frame (α : Type*) where
  offset : ℕ
  shift : ℕ
  used : ℕ
  child : Fin 4 → Unode α
  index : Fin 4

/-- The branches above a node, the nearest one first, and the node that takes its place. -/
def plug : List (Frame α) → Unode α → Unode α
  | [], t => t
  | f :: fs, t => plug fs (branch f.offset f.shift f.used (update f.child f.index t))

/-- The loop of `find_arraystf`: the branches that were passed, and the node at the end.  The value
of the key is read again only if the offset has grown. -/
def locate (addr : List UInt8) : Unode α → Keyval → List (Frame α) → List (Frame α) × Unode α
  | branch offset shift used child, keyval, fs =>
    let keyval := if keyval.offset < offset then initKeyval offset addr else keyval
    let i := childindex shift keyval.data
    locate addr (child i) keyval (⟨offset, shift, used, child, i⟩ :: fs)
  | t, _, fs => (fs, t)

/-- The branch is on the way to a new branch for `keydiff`. -/
def Before (offset shift : ℕ) (keydiff : Keyval) (shift2 : ℕ) : Prop :=
  offset < keydiff.offset ∨ (offset = keydiff.offset ∧ shift2 < shift)

instance (offset shift : ℕ) (keydiff : Keyval) (shift2 : ℕ) :
    Decidable (Before offset shift keydiff shift2) :=
  inferInstanceAs (Decidable (_ ∨ _))

/-- The loop of `tryinsert_arraystf` that looks for the place of a new branch. -/
def descend (keydiff : Keyval) (shift2 : ℕ) (addr : List UInt8) :
    Unode α → List (Frame α) → List (Frame α) × Unode α
  | branch offset shift used child, fs =>
    if Before offset shift keydiff shift2 then
      let i := childindex shift (initKeyval offset addr).data
      descend keydiff shift2 addr (child i) (⟨offset, shift, used, child, i⟩ :: fs)
    else (fs, branch offset shift used child)
  | t, fs => (fs, t)

/-- The loop of `tryinsert_arraystf` that looks for a stored node: always the last child. -/
def sample : Unode α → Option (Node α)
  | null => none
  | node n => some n
  | branch _ _ _ child =>
    if (child 3).isSet then sample (child 3)
    else if (child 2).isSet then sample (child 2)
    else if (child 1).isSet then sample (child 1)
    else sample (child 0)

end Unode

open Unode

/-! ## The operations -/

/-- `makepowerof2_int`. -/
def makepowerof2 (i : ℕ) : ℕ :=
  if i &&& (i - 1) ≠ 0 ∧ i < 2 ^ 31 then 2 ^ (Nat.log2 i + 1) else i

/-- `new_arraystf`. -/
def newArraystf (α : Type*) (toplevelsize : ℕ) : Except Errno (Arraystf α) :=
  let toplevelsize := makepowerof2 (if toplevelsize = 0 then 1 else toplevelsize)
  if 0x00800000 < toplevelsize then .error .EINVAL
  else .ok ⟨0, toplevelsize, 24 - Nat.log2 toplevelsize, fun _ => null⟩

/-- The index into `root`: the upper bits of the first three bytes. -/
def rootindex (array : Arraystf α) (addr : List UInt8) : ℕ :=
  let rootindex :=
    match addr with
    | b0 :: b1 :: b2 :: _ => ((b0.toNat <<< 8 + b1.toNat) <<< 8) + b2.toNat
    | [b0, b1] => (b0.toNat <<< 8 + b1.toNat) <<< 8
    | [b0] => b0.toNat <<< 16
    | [] => 0
  rootindex >>> array.rootidxshift

/-- `find_arraystf`: the error code, the branches above the node that was found, and that node. -/
def findArraystf (array : Arraystf α) (addr : List UInt8) :
    Option Errno × List (Frame α) × Unode α :=
  if addr.length < SIZE_MAX then
    let keyval : Keyval := ⟨(addr.headD 0).toNat, 0⟩
    let found := locate addr (array.root (rootindex array addr)) keyval []
    match found.2 with
    | node n => (if addr = n.addr then none else some .ESRCH, found)
    | _ => (some .ESRCH, found)
  else (some .EINVAL, [], null)

/-- `at_arraystf`. -/
def atArraystf (array : Arraystf α) (addr : List UInt8) : Option (Node α) :=
  match findArraystf array addr with
  | (some _, _) => none
  | (none, _, found) => found.toNode

/-- A new branch over the node `t` and the new node. -/
def newBranch (keydiff : Keyval) (shift : ℕ) (t : Unode α) (new : Node α) : Unode α :=
  let keynode := initKeyval keydiff.offset new.addr
  initBranch keydiff.offset shift (keydiff.data ^^^ keynode.data) t keynode.data (node new)

/-- The new tree of `tryinsert_arraystf`, if `fs` are the branches above `found`. -/
def insertTree (root : Unode α) (fs : List (Frame α)) (found : Unode α) (new : Node α) :
    Except Errno (Unode α) :=
  -- not so simple case prefix differs (add new branch layer between root and found.parent)
  let above (keydiff : Keyval) :=
    let shift := branchShift keydiff.data
    let d := descend keydiff shift new.addr root []
    plug d.1 (newBranch keydiff shift d.2 new)
  match found, fs with
  | node n, fs =>
    match initdiff n.addr new.addr with
    | .error e => .error e
    | .ok keydiff =>
      let shift := branchShift keydiff.data
      if fs.head?.all fun f => Before f.offset f.shift keydiff shift then
        -- prefix matches (add new branch layer after found.parent)
        .ok (plug fs (newBranch keydiff shift (node n) new))
      else .ok (above keydiff)
  | _, [] => .ok (node new)
  | _, f :: fs =>
    match sample (branch f.offset f.shift f.used f.child) with
    | none => .error .EINVAL
    | some n =>
      match initdiff n.addr new.addr with
      | .error e => .error e
      | .ok keydiff =>
        if f.offset = keydiff.offset ∧ f.shift = branchShift keydiff.data then
          -- prefix does match
          .ok (plug ({ f with used := f.used + 1 } :: fs) (node new))
        else .ok (above keydiff)

/-- `tryinsert_arraystf`: the error code, if there is one, the parameter
`inserted_or_existing_node`, and the array. -/
def tryinsertArraystf (array : Arraystf α) (new : Node α) (nodeadp : Option (α → α)) :
    (Option Errno × Option (Node α)) × Arraystf α :=
  match findArraystf array new.addr with
  | (none, _, found) => ((some .EEXIST, found.toNode), array)
  | (some .ESRCH, fs, found) =>
    let new : Node α := { new with object := (nodeadp.getD id) new.object }
    let i := rootindex array new.addr
    match insertTree (array.root i) fs found new with
    | .error e => ((some e, none), array)
    | .ok t =>
      ((none, some new),
        { array with length := array.length + 1, root := update array.root i t })
  | (some e, _) => ((some e, none), array)

/-- The out parameter is set only if there is no error. -/
def unlessError {β : Type*} (result : (Option Errno × Option (Node α)) × β) :
    (Option Errno × Option (Node α)) × β :=
  ((result.1.1, if result.1.1.isSome then none else result.1.2), result.2)

/-- `insert_arraystf`. -/
def insertArraystf (array : Arraystf α) (new : Node α) (nodeadp : Option (α → α)) :
    (Option Errno × Option (Node α)) × Arraystf α :=
  unlessError (tryinsertArraystf array new nodeadp)

/-- The new tree of `tryremove_arraystf`. -/
def removeTree (fs : List (Frame α)) : Except Errno (Unode α) :=
  match fs with
  | [] => .ok null
  | f :: fs =>
    if 2 < f.used then .ok (plug ({ f with used := f.used - 1 } :: fs) null)
    else
      -- delete parent (only one more entry) and adapt parent of parent
      match [3, 2, 1, 0].find? fun i => i ≠ f.index ∧ (f.child i).isSet with
      | some i => .ok (plug fs (f.child i))
      | none => .error .EINVAL

/-- `tryremove_arraystf`. -/
def tryremoveArraystf (array : Arraystf α) (addr : List UInt8) :
    (Option Errno × Option (Node α)) × Arraystf α :=
  match findArraystf array addr with
  | (some e, _) => ((some e, none), array)
  | (none, fs, found) =>
    match removeTree fs with
    | .error e => ((some e, none), array)
    | .ok t =>
      ((none, found.toNode),
        { array with
          length := array.length - 1
          root := update array.root (rootindex array addr) t })

/-- `remove_arraystf`, which differs from the former in nothing but the log. -/
def removeArraystf (array : Arraystf α) (addr : List UInt8) :
    (Option Errno × Option (Node α)) × Arraystf α :=
  tryremoveArraystf array addr

/-- `length_arraystf`. -/
def lengthArraystf (array : Arraystf α) : ℕ := array.length

/-! ## The digits of a key -/

/-- The digit of a key at an offset. -/
def value (addr : List UInt8) (offset : ℕ) : ℕ := (initKeyval offset addr).data

@[simp] theorem data_initKeyval (offset : ℕ) (addr : List UInt8) :
    (initKeyval offset addr).data = value addr offset := rfl

@[simp] theorem offset_initKeyval (offset : ℕ) (addr : List UInt8) :
    (initKeyval offset addr).offset = offset := by
  unfold initKeyval
  split_ifs <;> rfl

theorem value_of_lt {addr : List UInt8} {offset : ℕ} (h : offset < SIZE_MAX) :
    value addr offset = (addr.getD offset 0).toNat := by
  unfold value initKeyval
  split_ifs with hlt heq
  · rfl
  · omega
  · rw [List.getD_eq_default _ _ (Nat.le_of_not_lt hlt)]
    rfl

theorem value_sizeMax {addr : List UInt8} (h : addr.length < SIZE_MAX) :
    value addr SIZE_MAX = addr.length := by
  unfold value initKeyval
  rw [if_neg (Nat.not_lt_of_lt h), if_pos rfl]

theorem firstNonzero_spec (bs : List UInt8) (offset : ℕ) :
    match firstNonzero bs offset with
    | none => ∀ j, bs.getD j 0 = 0
    | some keyval => ∃ j, keyval = ⟨(bs.getD j 0).toNat, offset + j⟩ ∧ j < bs.length ∧
        bs.getD j 0 ≠ 0 ∧ ∀ i < j, bs.getD i 0 = 0 := by
  induction bs generalizing offset with
  | nil => simp [firstNonzero]
  | cons b bs ih =>
    rw [firstNonzero]
    by_cases hb : b = 0
    · rw [if_pos hb]
      have := ih (offset + 1)
      cases hf : firstNonzero bs (offset + 1) with
      | none =>
        rw [hf] at this
        intro j
        cases j with
        | zero => exact hb
        | succ j => exact this j
      | some keyval =>
        rw [hf] at this
        obtain ⟨j, hkey, hj, hne, hlt⟩ := this
        refine ⟨j + 1, ?_, Nat.succ_lt_succ hj, hne, fun i hi => ?_⟩
        · rw [hkey, Nat.add_right_comm, Nat.add_assoc]
          rfl
        · cases i with
          | zero => exact hb
          | succ i => exact hlt i (Nat.lt_of_succ_lt_succ hi)
    · rw [if_neg hb]
      exact ⟨0, rfl, Nat.succ_pos _, hb, fun i hi => absurd hi (Nat.not_lt_zero i)⟩

theorem firstDiff_spec (bs1 bs2 : List UInt8) (offset : ℕ) :
    match firstDiff bs1 bs2 offset with
    | none => ∀ j, bs1.getD j 0 = bs2.getD j 0
    | some keyval => ∃ j, keyval = ⟨(bs1.getD j 0 ^^^ bs2.getD j 0).toNat, offset + j⟩ ∧
        (j < bs1.length ∨ j < bs2.length) ∧ bs1.getD j 0 ≠ bs2.getD j 0 ∧
        ∀ i < j, bs1.getD i 0 = bs2.getD i 0 := by
  induction bs1, bs2, offset using firstDiff.induct with
  | case1 bs1 b bs2 offset ih =>
    rw [firstDiff, if_pos rfl]
    cases hf : firstDiff bs1 bs2 (offset + 1) with
    | none =>
      rw [hf] at ih
      intro j
      cases j with
      | zero => rfl
      | succ j => exact ih j
    | some keyval =>
      rw [hf] at ih
      obtain ⟨j, hkey, hj, hne, hlt⟩ := ih
      refine ⟨j + 1, ?_, ?_, hne, fun i hi => ?_⟩
      · rw [hkey, Nat.add_right_comm, Nat.add_assoc]
        rfl
      · exact hj.imp Nat.succ_lt_succ Nat.succ_lt_succ
      · cases i with
        | zero => rfl
        | succ i => exact hlt i (Nat.lt_of_succ_lt_succ hi)
  | case2 b1 bs1 b2 bs2 offset hne =>
    rw [firstDiff, if_neg hne]
    exact ⟨0, rfl, Or.inl (Nat.succ_pos _), hne, fun i hi => absurd hi (Nat.not_lt_zero i)⟩
  | case3 bs1 offset =>
    have := firstNonzero_spec bs1 offset
    rw [show firstDiff bs1 [] offset = firstNonzero bs1 offset by cases bs1 <;> rfl]
    cases hf : firstNonzero bs1 offset with
    | none =>
      rw [hf] at this
      exact this
    | some keyval =>
      rw [hf] at this
      obtain ⟨j, hkey, hj, hne, hlt⟩ := this
      exact ⟨j, by simpa using hkey, Or.inl hj, hne, hlt⟩
  | case4 bs2 offset hne =>
    have := firstNonzero_spec bs2 offset
    rw [show firstDiff [] bs2 offset = firstNonzero bs2 offset by cases bs2 <;> rfl]
    cases hf : firstNonzero bs2 offset with
    | none =>
      rw [hf] at this
      exact fun j => (this j).symm
    | some keyval =>
      rw [hf] at this
      obtain ⟨j, hkey, hj, hne, hlt⟩ := this
      exact ⟨j, by simpa using hkey, Or.inr hj, hne.symm, fun i hi => (hlt i hi).symm⟩

theorem initdiff_spec {a b : List UInt8} (ha : a.length < SIZE_MAX) (hb : b.length < SIZE_MAX)
    (hne : a ≠ b) : ∃ o, initdiff a b = .ok ⟨value a o ^^^ value b o, o⟩ ∧
      value a o ≠ value b o ∧ ∀ i < o, value a i = value b i := by
  have hspec := firstDiff_spec a b 0
  unfold initdiff
  cases hf : firstDiff a b 0 with
  | some keyval =>
    rw [hf] at hspec
    obtain ⟨j, hkey, hj, hdiff, hlt⟩ := hspec
    have hmax : j < SIZE_MAX := by omega
    rw [Nat.zero_add] at hkey
    refine ⟨j, ?_, ?_, fun i hi => ?_⟩
    · rw [hkey, value_of_lt hmax, value_of_lt hmax, UInt8.toNat_xor]
    · rw [value_of_lt hmax, value_of_lt hmax]
      exact fun h => hdiff (UInt8.toNat_inj.mp h)
    · rw [value_of_lt (hi.trans hmax), value_of_lt (hi.trans hmax), hlt i hi]
  | none =>
    rw [hf] at hspec
    have hlen : a.length ≠ b.length := by
      intro hlen
      refine hne (List.ext_getElem hlen fun i h1 h2 => ?_)
      have := hspec i
      rwa [List.getD_eq_getElem _ _ h1, List.getD_eq_getElem _ _ h2] at this
    refine ⟨SIZE_MAX, ?_, ?_, fun i hi => ?_⟩
    · rw [value_sizeMax ha, value_sizeMax hb]
      exact if_neg hlen
    · rwa [value_sizeMax ha, value_sizeMax hb]
    · rw [value_of_lt hi, value_of_lt hi, hspec i]

/-! ## Positions -/

/-- The position `(o', s')` comes after `(o, s)`: it is a later digit, or it has the lower bits of
the same one. -/
def Precedes (o s o' s' : ℕ) : Prop := o < o' ∨ (o = o' ∧ s' + 2 ≤ s)

/-- Two keys agree up to the bits from `s` on of the digit at `o`. -/
def Agree (o s : ℕ) (a b : List UInt8) : Prop :=
  (∀ i < o, value a i = value b i) ∧ value a o >>> s = value b o >>> s

/-- Two keys differ for the first time in the two bits at `s` of the digit at `o`. -/
structure Differ (o s : ℕ) (a b : List UInt8) : Prop where
  even : 2 ∣ s
  agree : Agree o (s + 2) a b
  index : childindex s (value a o) ≠ childindex s (value b o)

theorem val_childindex (shift data : ℕ) : (childindex shift data : ℕ) = (data >>> shift) % 4 := by
  unfold childindex unsigned
  exact Nat.mod_mod_of_dvd _ (by norm_num)

theorem shiftRight_eq (data shift : ℕ) :
    data >>> shift = 4 * (data >>> (shift + 2)) + childindex shift data := by
  rw [val_childindex, Nat.shiftRight_add, Nat.shiftRight_eq_div_pow (data >>> shift) 2]
  omega

theorem shiftRight_congr {m n k l : ℕ} (h : m >>> k = n >>> k) (hkl : k ≤ l) :
    m >>> l = n >>> l := by
  obtain ⟨d, rfl⟩ := Nat.exists_eq_add_of_le hkl
  rw [Nat.shiftRight_add, h, ← Nat.shiftRight_add]

theorem Agree.refl (o s : ℕ) (a : List UInt8) : Agree o s a a := ⟨fun _ _ => rfl, rfl⟩

theorem Agree.symm {o s : ℕ} {a b : List UInt8} (h : Agree o s a b) : Agree o s b a :=
  ⟨fun i hi => (h.1 i hi).symm, h.2.symm⟩

theorem Agree.trans {o s : ℕ} {a b c : List UInt8} (h : Agree o s a b) (h' : Agree o s b c) :
    Agree o s a c :=
  ⟨fun i hi => (h.1 i hi).trans (h'.1 i hi), h.2.trans h'.2⟩

theorem Agree.mono {o s s' : ℕ} {a b : List UInt8} (h : Agree o s a b) (hs : s ≤ s') :
    Agree o s' a b :=
  ⟨h.1, shiftRight_congr h.2 hs⟩

theorem Agree.of_precedes {o s o' s' : ℕ} {a b : List UInt8} (h : Agree o' (s' + 2) a b)
    (hp : Precedes o s o' s') : Agree o s a b := by
  rcases hp with hlt | ⟨rfl, hle⟩
  · exact ⟨fun i hi => h.1 i (hi.trans hlt), by rw [h.1 o hlt]⟩
  · exact h.mono hle

theorem Agree.childindex_eq {o s : ℕ} {a b : List UInt8} (h : Agree o s a b) :
    childindex s (value a o) = childindex s (value b o) := by
  refine Fin.ext ?_
  rw [val_childindex, val_childindex, h.2]

theorem precedes_trichotomy {o s o' s' : ℕ} (hs : 2 ∣ s) (hs' : 2 ∣ s') :
    Precedes o s o' s' ∨ (o = o' ∧ s = s') ∨ Precedes o' s' o s := by
  unfold Precedes
  omega

theorem Precedes.trans {o s o' s' o'' s'' : ℕ} (h : Precedes o s o' s')
    (h' : Precedes o' s' o'' s'') : Precedes o s o'' s'' := by
  unfold Precedes at *
  omega

theorem before_iff {o s : ℕ} {keydiff : Keyval} {shift : ℕ} (hs : 2 ∣ s) (hshift : 2 ∣ shift) :
    Before o s keydiff shift ↔ Precedes o s keydiff.offset shift := by
  unfold Before Precedes
  omega

theorem Differ.not_precedes {o s p q : ℕ} {a b : List UInt8} (h : Differ p q a b)
    (hi : childindex s (value a o) ≠ childindex s (value b o)) : ¬ Precedes o s p q :=
  fun hp => hi (h.agree.of_precedes hp).childindex_eq

theorem differ_branchShift {a b : List UInt8} {o : ℕ} (hne : value a o ≠ value b o)
    (hlt : ∀ i < o, value a i = value b i) :
    Differ o (branchShift (value a o ^^^ value b o)) a b := by
  have hxor : ∀ k, (value a o ^^^ value b o) >>> k = 0 ↔ value a o >>> k = value b o >>> k := by
    intro k
    rw [Nat.shiftRight_xor_distrib]
    exact Nat.xor_eq_zero_iff
  have hd : value a o ^^^ value b o ≠ 0 := fun h => hne (Nat.xor_eq_zero_iff.mp h)
  generalize value a o ^^^ value b o = d at hxor hd
  set s := branchShift d with hs
  have hle : s ≤ Nat.log2 d := Nat.div_mul_le_self _ _
  have hlt' : Nat.log2 d < s + 2 := by
    rw [hs, branchShift]
    omega
  have hagree : value a o >>> (s + 2) = value b o >>> (s + 2) := by
    rw [← hxor, Nat.shiftRight_eq_div_pow]
    exact Nat.div_eq_of_lt ((Nat.log2_lt hd).mp hlt')
  refine ⟨Dvd.intro_left _ rfl, ⟨hlt, hagree⟩, fun hc => ?_⟩
  have heq : value a o >>> s = value b o >>> s := by
    rw [shiftRight_eq (value a o), shiftRight_eq (value b o), hagree, hc]
  rw [← hxor, Nat.shiftRight_eq_div_pow] at heq
  have hpow : 2 ^ s ≤ d := (Nat.pow_le_pow_right (by norm_num) hle).trans (Nat.log2_self_le hd)
  have := Nat.div_pos hpow (Nat.two_pow_pos s)
  omega

/-! ## The invariant of a tree -/

namespace Unode

/-- The node `n` is stored below a node. -/
def Stores : Unode α → Node α → Prop
  | null, _ => False
  | node m, n => m = n
  | branch _ _ _ child, n => ∃ i, Stores (child i) n

@[simp] theorem not_stores_null (n : Node α) : ¬ Stores null n := id

@[simp] theorem stores_node {m n : Node α} : Stores (node m) n ↔ m = n := Iff.rfl

theorem stores_branch {o s used : ℕ} {child : Fin 4 → Unode α} {n : Node α} :
    Stores (branch o s used child) n ↔ ∃ i, Stores (child i) n := Iff.rfl

theorem Stores.isSet {t : Unode α} {n : Node α} (h : Stores t n) : t.isSet = true := by
  cases t with
  | null => exact h.elim
  | node m => rfl
  | branch o s used child => rfl

theorem stores_update {o s used : ℕ} {child : Fin 4 → Unode α} {i : Fin 4} {t : Unode α}
    {n : Node α} :
    Stores (branch o s used (update child i t)) n ↔
      (∃ j, j ≠ i ∧ Stores (child j) n) ∨ Stores t n := by
  rw [stores_branch]
  constructor
  · rintro ⟨j, hj⟩
    by_cases hji : j = i
    · subst hji
      exact Or.inr (by rwa [update_self] at hj)
    · exact Or.inl ⟨j, hji, by rwa [update_of_ne hji] at hj⟩
  · rintro (⟨j, hji, hj⟩ | ht)
    · exact ⟨j, by rwa [update_of_ne hji]⟩
    · exact ⟨i, by rwa [update_self]⟩

/-- A branch at the top of the node comes after the position `(o, s)`. -/
def Later (o s : ℕ) : Unode α → Prop
  | branch o' s' _ _ => Precedes o s o' s'
  | _ => True

/-- What is to hold for a branch: `used` counts the children, the keys below it agree up to its
position, the child tells the two bits there, and the branches below come after it. -/
structure BranchOk (o s used : ℕ) (child : Fin 4 → Unode α) : Prop where
  even : 2 ∣ s
  used_eq : used = numSet isSet child
  two_le : 2 ≤ used
  agree : ∀ m n, Stores (branch o s used child) m → Stores (branch o s used child) n →
    Agree o (s + 2) m.addr n.addr
  index : ∀ i n, Stores (child i) n → childindex s (value n.addr o) = i
  later : ∀ i, Later o s (child i)

/-- Every branch of the tree is in order. -/
def Wf : Unode α → Prop
  | branch o s used child => BranchOk o s used child ∧ ∀ i, Wf (child i)
  | _ => True

theorem later_trans {o s o' s' : ℕ} {t : Unode α} (h : Later o' s' t) (hp : Precedes o s o' s') :
    Later o s t := by
  cases t with
  | branch o'' s'' used child => exact hp.trans h
  | _ => exact True.intro

theorem agree_of_later {o s : ℕ} {t : Unode α} (hwf : Wf t) (hl : Later o s t) {m n : Node α}
    (hm : Stores t m) (hn : Stores t n) : Agree o s m.addr n.addr := by
  cases t with
  | null => exact hm.elim
  | node k =>
    rw [stores_node] at hm hn
    rw [← hm, ← hn]
    exact Agree.refl o s k.addr
  | branch o' s' used child => exact (hwf.1.agree m n hm hn).of_precedes hl

theorem sample_spec {t : Unode α} (h : Wf t) (hset : t.isSet = true) :
    ∃ n, sample t = some n ∧ Stores t n := by
  induction t with
  | null => exact absurd hset (by simp [isSet])
  | node n => exact ⟨n, rfl, rfl⟩
  | branch o s used child ih =>
    have step : ∀ i, (child i).isSet = true → ∃ n, sample (child i) = some n ∧
        Stores (branch o s used child) n := by
      intro i hi
      obtain ⟨n, hn, hst⟩ := ih i (h.2 i) hi
      exact ⟨n, hn, i, hst⟩
    rw [sample]
    by_cases h3 : (child 3).isSet = true
    · rw [if_pos h3]
      exact step 3 h3
    rw [if_neg h3]
    by_cases h2 : (child 2).isSet = true
    · rw [if_pos h2]
      exact step 2 h2
    rw [if_neg h2]
    by_cases h1 : (child 1).isSet = true
    · rw [if_pos h1]
      exact step 1 h1
    rw [if_neg h1]
    refine step 0 ?_
    obtain ⟨j, hj0, hj⟩ := exists_set_ne (h.1.used_eq ▸ h.1.two_le) 0
    fin_cases j
    · exact absurd rfl hj0
    · exact absurd hj h1
    · exact absurd hj h2
    · exact absurd hj h3

/-! ## The branches above a node -/

/-- The node `n` is stored below one of the branches, but not below the node under them. -/
def Outside (fs : List (Frame α)) (n : Node α) : Prop :=
  ∃ f ∈ fs, ∃ i, i ≠ f.index ∧ Stores (f.child i) n

/-- The branches are those that the key `a` passes. -/
def OnPath (a : List UInt8) (fs : List (Frame α)) : Prop :=
  ∀ f ∈ fs, childindex f.shift (value a f.offset) = f.index

theorem outside_cons {f : Frame α} {fs : List (Frame α)} {n : Node α} :
    Outside (f :: fs) n ↔ (∃ i, i ≠ f.index ∧ Stores (f.child i) n) ∨ Outside fs n := by
  simp [Outside]

theorem onPath_cons {a : List UInt8} {f : Frame α} {fs : List (Frame α)} :
    OnPath a (f :: fs) ↔ childindex f.shift (value a f.offset) = f.index ∧ OnPath a fs := by
  simp [OnPath]

theorem stores_plug {fs : List (Frame α)} {t : Unode α} {n : Node α} :
    Stores (plug fs t) n ↔ Outside fs n ∨ Stores t n := by
  induction fs generalizing t with
  | nil => simp [plug, Outside]
  | cons f fs ih => rw [plug, ih, stores_update, outside_cons, or_left_comm, or_assoc]

theorem wf_of_plug (fs : List (Frame α)) {t : Unode α} (h : Wf (plug fs t)) : Wf t := by
  induction fs generalizing t with
  | nil => exact h
  | cons f fs ih =>
    have := (ih h).2 f.index
    rwa [update_self] at this

theorem branchOk_of_plug {f : Frame α} {fs : List (Frame α)} {t : Unode α}
    (h : Wf (plug (f :: fs) t)) : BranchOk f.offset f.shift f.used (update f.child f.index t) :=
  (wf_of_plug fs h).1

theorem later_of_plug {fs : List (Frame α)} {t : Unode α} (h : Wf (plug fs t)) :
    ∀ f ∈ fs.head?, Later f.offset f.shift t := by
  intro f hf
  cases fs with
  | nil => exact absurd hf (by simp)
  | cons g gs =>
    cases hf
    have := (branchOk_of_plug h).later f.index
    rwa [update_self] at this

theorem not_onPath_of_outside {fs : List (Frame α)} {t : Unode α} (h : Wf (plug fs t))
    {n : Node α} (hn : Outside fs n) : ¬ OnPath n.addr fs := by
  induction fs generalizing t with
  | nil =>
    obtain ⟨f, hf, -⟩ := hn
    exact absurd hf List.not_mem_nil
  | cons f fs ih =>
    rw [onPath_cons]
    rintro ⟨hindex, hpath⟩
    rw [outside_cons] at hn
    rcases hn with ⟨i, hi, hst⟩ | hout
    · refine hi (Eq.trans ?_ hindex)
      refine ((branchOk_of_plug h).index i n ?_).symm
      rwa [update_of_ne hi]
    · exact ih h hout hpath

/-- **Replacing a node.** The branches above it stay in order if every key below the new node
agrees, up to the nearest branch, with one below the old node. -/
theorem wf_plug {fs : List (Frame α)} {t u : Unode α} (h : Wf (plug fs t)) (hu : Wf u)
    (hset : u.isSet = t.isSet) (hlater : ∀ f ∈ fs.head?, Later f.offset f.shift u)
    (hlike : ∀ m, Stores u m → ∃ n, Stores t n ∧
      ∀ f ∈ fs.head?, Agree f.offset f.shift m.addr n.addr) : Wf (plug fs u) := by
  induction fs generalizing t u with
  | nil => exact hu
  | cons f fs ih =>
    have hok := branchOk_of_plug h
    have hwf := (wf_of_plug fs h).2
    have hhead : ∀ g ∈ fs.head?, Precedes g.offset g.shift f.offset f.shift :=
      later_of_plug (t := branch f.offset f.shift f.used (update f.child f.index t)) h
    -- every key below the new branch agrees with one below the old branch
    have hsame : ∀ m, Stores (branch f.offset f.shift f.used (update f.child f.index u)) m →
        ∃ n, Stores (branch f.offset f.shift f.used (update f.child f.index t)) n ∧
          Agree f.offset (f.shift + 2) m.addr n.addr := by
      intro m hm
      rw [stores_update] at hm
      rcases hm with hother | hm
      · exact ⟨m, stores_update.mpr (Or.inl hother), Agree.refl _ _ _⟩
      · obtain ⟨n, hn, hagree⟩ := hlike m hm
        exact ⟨n, stores_update.mpr (Or.inr hn), (hagree f rfl).mono (Nat.le_add_right _ _)⟩
    refine ih h ⟨⟨hok.even, ?_, hok.two_le, fun m n hm hn => ?_, fun i m hm => ?_, fun i => ?_⟩,
      fun i => ?_⟩ rfl hhead fun m hm => ?_
    · rw [hok.used_eq, numSet_update, numSet_update, hset]
    · obtain ⟨m', hm', hagree⟩ := hsame m hm
      obtain ⟨n', hn', hagree'⟩ := hsame n hn
      exact (hagree.trans (hok.agree m' n' hm' hn')).trans hagree'.symm
    · by_cases hi : i = f.index
      · subst hi
        rw [update_self] at hm
        obtain ⟨n, hn, hagree⟩ := hlike m hm
        rw [(hagree f rfl).childindex_eq]
        exact hok.index f.index n (by rwa [update_self])
      · rw [update_of_ne hi] at hm
        exact hok.index i m (by rwa [update_of_ne hi])
    · by_cases hi : i = f.index
      · subst hi
        rw [update_self]
        exact hlater f rfl
      · rw [update_of_ne hi]
        have := hok.later i
        rwa [update_of_ne hi] at this
    · by_cases hi : i = f.index
      · subst hi
        rwa [update_self]
      · have := hwf i
        rwa [update_of_ne hi] at this ⊢
    · obtain ⟨n, hn, hagree⟩ := hsame m hm
      exact ⟨n, hn, fun g hg => hagree.of_precedes (hhead g hg)⟩

/-! ## Looking for a key -/

/-- The branch or node `w` is on the way of the key `a` below a node. -/
inductive Reach (a : List UInt8) (w : Unode α) : Unode α → Prop
  | refl : Reach a w w
  | step {o s used child} (h : Reach a w (child (childindex s (value a o)))) :
      Reach a w (branch o s used child)

theorem Reach.stores {a : List UInt8} {w t : Unode α} (h : Reach a w t) {n : Node α}
    (hn : Stores w n) : Stores t n := by
  induction h with
  | refl => exact hn
  | step h ih => exact ⟨_, ih⟩

/-- What the loop of `find_arraystf` leaves behind when it has passed at least one branch: the
nearest branch, those above it, and the node below it. -/
structure Located (a : List UInt8) (t : Unode α) (f : Frame α) (fs : List (Frame α))
    (found : Unode α) : Prop where
  child : f.child f.index = found
  leaf : found.isBranchtype = false
  reach : Reach a (branch f.offset f.shift f.used f.child) t

theorem locate_branch (a : List UInt8) {o s used : ℕ} {child : Fin 4 → Unode α}
    (hwf : Wf (branch o s used child)) {keyval : Keyval}
    (hkey : keyval = initKeyval keyval.offset a) (hle : keyval.offset ≤ o) (fs : List (Frame α))
    (hpath : OnPath a fs) :
    ∃ f gs found, locate a (branch o s used child) keyval fs = (f :: gs, found) ∧
      plug gs (branch f.offset f.shift f.used f.child) = plug fs (branch o s used child) ∧
      OnPath a (f :: gs) ∧ Located a (branch o s used child) f gs found := by
  generalize ht : branch o s used child = t at hwf
  induction t generalizing o s used child keyval fs with
  | null => simp at ht
  | node n => simp at ht
  | branch o' s' used' child' ih =>
    obtain ⟨rfl, rfl, rfl, rfl⟩ := Unode.branch.inj ht
    rw [locate]
    -- the value is read again if the branch has a larger offset
    obtain ⟨keyval', hkeyval', hkey', hoffset⟩ : ∃ keyval' : Keyval,
        (if keyval.offset < o then initKeyval o a else keyval) = keyval' ∧
          keyval' = initKeyval keyval'.offset a ∧ keyval'.offset = o := by
      refine ⟨_, rfl, ?_⟩
      split_ifs with hlt
      · rw [offset_initKeyval]
        exact ⟨rfl, rfl⟩
      · exact ⟨hkey, by omega⟩
    have hdata : keyval'.data = value a o := by rw [hkey', hoffset, data_initKeyval]
    rw [hkeyval', hdata]
    set i := childindex s (value a o) with hi
    have hpath' : OnPath a (⟨o, s, used, child, i⟩ :: fs) := onPath_cons.mpr ⟨rfl, hpath⟩
    cases hc : child i with
    | null => exact ⟨_, _, _, rfl, rfl, hpath', hc, rfl, Reach.refl⟩
    | node n => exact ⟨_, _, _, rfl, rfl, hpath', hc, rfl, Reach.refl⟩
    | branch o' s' used' child' =>
      have hbelow := hwf.2 i
      have hlater := hwf.1.later i
      rw [hc] at hbelow hlater
      have hle' : keyval'.offset ≤ o' := by
        rw [hoffset]
        rcases hlater with hlt | ⟨heq, -⟩
        · exact hlt.le
        · exact heq.le
      obtain ⟨f, gs, found, hloc, hwhole, hpath'', hchild, hleaf, hreach⟩ :=
        ih i hkey' hle' _ hpath' hc.symm (hwf.2 i)
      rw [hc] at hloc
      refine ⟨f, gs, found, hloc, ?_, hpath'', hchild, hleaf, Reach.step ?_⟩
      · rwa [plug, update_eq_self] at hwhole
      · rwa [← hi]

theorem descend_spec {keydiff : Keyval} {shift : ℕ} {a : List UInt8} {p q u : ℕ}
    {c : Fin 4 → Unode α} (hnot : ¬ Before p q keydiff shift) {t : Unode α}
    (h : Reach a (branch p q u c) t) (fs : List (Frame α)) (hpath : OnPath a fs)
    (hfs : ∀ f ∈ fs, Before f.offset f.shift keydiff shift) :
    ∃ ds o s used child, descend keydiff shift a t fs = (ds, branch o s used child) ∧
      plug ds (branch o s used child) = plug fs t ∧ OnPath a ds ∧
      (∀ f ∈ ds, Before f.offset f.shift keydiff shift) ∧ ¬ Before o s keydiff shift ∧
      ∀ n, Stores (branch p q u c) n → Stores (branch o s used child) n ∧
        ((o = p ∧ s = q) ∨ Stores (child (childindex s (value a o))) n) := by
  induction h generalizing fs with
  | refl =>
    refine ⟨fs, p, q, u, c, ?_, rfl, hpath, hfs, hnot, fun n hn => ⟨hn, Or.inl ⟨rfl, rfl⟩⟩⟩
    rw [descend, if_neg hnot]
  | @step o s used child h ih =>
    by_cases hbefore : Before o s keydiff shift
    · obtain ⟨ds, o', s', used', child', hd, hwhole, hpath', hds, hnot', hst⟩ :=
        @ih (⟨o, s, used, child, childindex s (value a o)⟩ :: fs)
          (onPath_cons.mpr ⟨rfl, hpath⟩) (List.forall_mem_cons.mpr ⟨hbefore, hfs⟩)
      refine ⟨ds, o', s', used', child', ?_, ?_, hpath', hds, hnot', hst⟩
      · rw [descend, if_pos hbefore]
        exact hd
      · rw [hwhole, plug, update_eq_self]
    · refine ⟨fs, o, s, used, child, ?_, rfl, hpath, hfs, hbefore, fun n hn =>
        ⟨⟨_, h.stores hn⟩, Or.inr (h.stores hn)⟩⟩
      rw [descend, if_neg hbefore]

theorem precedes_of_before {fs : List (Frame α)} {t : Unode α} (h : Wf (plug fs t))
    {keydiff : Keyval} {shift : ℕ} (hshift : 2 ∣ shift)
    (hfs : ∀ f ∈ fs.head?, Before f.offset f.shift keydiff shift) :
    ∀ f ∈ fs.head?, Precedes f.offset f.shift keydiff.offset shift := by
  intro f hf
  cases fs with
  | nil => exact absurd hf (by simp)
  | cons g gs =>
    cases hf
    exact (before_iff (branchOk_of_plug h).even hshift).mp (hfs f rfl)

/-! ## A new branch -/

/-- A tree in which a node has been added. -/
def Inserted (t : Unode α) (new : Node α) (t' : Unode α) : Prop :=
  Wf t' ∧ ∀ m, Stores t' m ↔ Stores t m ∨ new = m

section NewBranch

variable {o s : ℕ} {t : Unode α} {n new : Node α} (hd : Differ o s n.addr new.addr)
  (hwf : Wf t) (hl : Later o s t) (hn : Stores t n)

include hd

theorem stores_initBranch {m : Node α} :
    Stores (initBranch o s (value n.addr o) t (value new.addr o) (node new)) m ↔
      Stores t m ∨ new = m := by
  rw [initBranch, stores_update, stores_node]
  refine or_congr_left ⟨?_, fun ht => ⟨_, hd.index, by rwa [update_self]⟩⟩
  rintro ⟨j, hj, hst⟩
  by_cases hj1 : j = childindex s (value n.addr o)
  · subst hj1
    rwa [update_self] at hst
  · rw [update_of_ne hj1] at hst
    exact hst.elim

include hwf hl hn

theorem agree_initBranch {m : Node α}
    (hm : Stores (initBranch o s (value n.addr o) t (value new.addr o) (node new)) m) :
    Agree o (s + 2) m.addr n.addr := by
  rw [stores_initBranch hd] at hm
  rcases hm with hm | rfl
  · exact (agree_of_later hwf hl hm hn).mono (Nat.le_add_right _ _)
  · exact hd.agree.symm

theorem wf_initBranch :
    Wf (initBranch o s (value n.addr o) t (value new.addr o) (node new)) := by
  have hcases : ∀ (P : Fin 4 → Unode α → Prop), P (childindex s (value n.addr o)) t →
      P (childindex s (value new.addr o)) (node new) → (∀ i, P i null) → ∀ i, P i
        (update (update (fun _ => null) (childindex s (value n.addr o)) t)
          (childindex s (value new.addr o)) (node new) i) := by
    intro P h1 h2 h0 i
    by_cases hi : i = childindex s (value new.addr o)
    · subst hi
      rwa [update_self]
    · rw [update_of_ne hi]
      by_cases hi1 : i = childindex s (value n.addr o)
      · subst hi1
        rwa [update_self]
      · rw [update_of_ne hi1]
        exact h0 i
  refine ⟨⟨hd.even, ?_, le_refl 2, fun m m' hm hm' => ?_, ?_, ?_⟩, ?_⟩
  · exact (numSet_two hd.index (fun _ => rfl) hn.isSet rfl).symm
  · exact (agree_initBranch hd hwf hl hn hm).trans (agree_initBranch hd hwf hl hn hm').symm
  · refine hcases (fun i u => ∀ m, Stores u m → childindex s (value m.addr o) = i) ?_ ?_ ?_
    · intro m hm
      exact (agree_of_later hwf hl hm hn).childindex_eq
    · rintro m rfl
      rfl
    · intro i m hm
      exact hm.elim
  · exact hcases (fun _ u => Later o s u) hl True.intro fun _ => True.intro
  · exact hcases (fun _ u => Wf u) hwf True.intro fun _ => True.intro

end NewBranch

theorem newBranch_eq {o s : ℕ} {t : Unode α} {n new : Node α} :
    newBranch ⟨value n.addr o ^^^ value new.addr o, o⟩ s t new =
      initBranch o s (value n.addr o) t (value new.addr o) (node new) := by
  unfold newBranch
  dsimp only
  rw [data_initKeyval, Nat.xor_assoc, Nat.xor_self, Nat.xor_zero]

theorem inserted_plug {o s : ℕ} {fs : List (Frame α)} {t : Unode α} {n new : Node α}
    (h : Wf (plug fs t)) (hd : Differ o s n.addr new.addr) (hl : Later o s t) (hn : Stores t n)
    (hfs : ∀ f ∈ fs.head?, Precedes f.offset f.shift o s) :
    Inserted (plug fs t) new
      (plug fs (newBranch ⟨value n.addr o ^^^ value new.addr o, o⟩ s t new)) := by
  have hwf := wf_of_plug _ h
  rw [newBranch_eq]
  refine ⟨wf_plug h (wf_initBranch hd hwf hl hn) hn.isSet.symm hfs fun m hm => ?_, fun m => ?_⟩
  · exact ⟨n, hn, fun f hf => (agree_initBranch hd hwf hl hn hm).of_precedes (hfs f hf)⟩
  · rw [stores_plug, stores_plug, stores_initBranch hd, or_assoc]

theorem inserted_above {o s p q u : ℕ} {c : Fin 4 → Unode α} {t : Unode α} {n new : Node α}
    (hwf : Wf t) (hreach : Reach new.addr (branch p q u c) t) (hn : Stores (branch p q u c) n)
    (hd : Differ o s n.addr new.addr) {keydiff : Keyval}
    (hkey : keydiff = ⟨value n.addr o ^^^ value new.addr o, o⟩) (hnot : ¬ Before p q keydiff s)
    (hne : ¬ (p = o ∧ q = s)) :
    Inserted t new (plug (descend keydiff s new.addr t []).1
      (newBranch keydiff s (descend keydiff s new.addr t []).2 new)) := by
  obtain ⟨ds, o', s', used, child, hdesc, hwhole, hpath, hds, hnot', hst⟩ :=
    descend_spec hnot hreach [] (fun f hf => absurd hf List.not_mem_nil)
      (fun f hf => absurd hf List.not_mem_nil)
  rw [hdesc]
  change plug ds _ = t at hwhole
  subst hwhole
  obtain ⟨hok, -⟩ := wf_of_plug _ hwf
  obtain ⟨hstored, hway⟩ := hst n hn
  have hlater : Precedes o s o' s' := by
    rw [before_iff hok.even hd.even, hkey] at hnot'
    have horder : Precedes o s o' s' ∨ (o = o' ∧ s = s') ∨ Precedes o' s' o s :=
      precedes_trichotomy hd.even hok.even
    rcases horder with h | ⟨rfl, rfl⟩ | h
    · exact h
    · -- at this position the two keys go different ways
      rcases hway with ⟨rfl, rfl⟩ | hway
      · exact absurd ⟨rfl, rfl⟩ hne
      · exact absurd (hok.index _ n hway) hd.index
    · exact absurd h hnot'
  have hpre := precedes_of_before hwf hd.even fun f hf => hds f (List.mem_of_mem_head? hf)
  subst hkey
  exact inserted_plug hwf hd hlater hstored hpre

/-! ## Insertion into a tree and removal from it -/

theorem stores_branch_index {o s used : ℕ} {child : Fin 4 → Unode α} (i : Fin 4) {n : Node α} :
    Stores (branch o s used child) n ↔
      (∃ j, j ≠ i ∧ Stores (child j) n) ∨ Stores (child i) n := by
  rw [← @stores_update _ o s used, update_eq_self]

theorem inserted_child {f : Frame α} {fs : List (Frame α)} {n new : Node α}
    (h : Wf (plug fs (branch f.offset f.shift f.used f.child))) (hnull : f.child f.index = null)
    (hn : Stores (branch f.offset f.shift f.used f.child) n)
    (hd : Differ f.offset f.shift n.addr new.addr)
    (hindex : childindex f.shift (value new.addr f.offset) = f.index) :
    Inserted (plug fs (branch f.offset f.shift f.used f.child)) new
      (plug ({ f with used := f.used + 1 } :: fs) (node new)) := by
  obtain ⟨hok, hwf⟩ := wf_of_plug _ h
  have hstores : ∀ m, Stores (branch f.offset f.shift (f.used + 1)
      (update f.child f.index (node new))) m ↔
        Stores (branch f.offset f.shift f.used f.child) m ∨ new = m := by
    intro m
    rw [stores_update, stores_branch_index f.index, hnull, stores_node]
    simp
  have hlike : ∀ m, Stores (branch f.offset f.shift (f.used + 1)
      (update f.child f.index (node new))) m → Agree f.offset (f.shift + 2) m.addr n.addr := by
    intro m hm
    rw [hstores] at hm
    rcases hm with hm | rfl
    · exact hok.agree m n hm hn
    · exact hd.agree.symm
  have hhead : ∀ g ∈ fs.head?, Precedes g.offset g.shift f.offset f.shift := later_of_plug h
  change Inserted _ new (plug fs
    (branch f.offset f.shift (f.used + 1) (update f.child f.index (node new))))
  refine ⟨wf_plug h ⟨⟨hok.even, ?_, ?_, fun m m' hm hm' => ?_, fun i m hm => ?_, fun i => ?_⟩,
    fun i => ?_⟩ rfl hhead fun m hm => ⟨n, hn, fun g hg => (hlike m hm).of_precedes (hhead g hg)⟩,
    fun m => ?_⟩
  · rw [numSet_update_set (by rw [hnull]; rfl) rfl, ← hok.used_eq]
  · exact hok.two_le.trans (Nat.le_succ _)
  · exact (hlike m hm).trans (hlike m' hm').symm
  · by_cases hi : i = f.index
    · subst hi
      rw [update_self, stores_node] at hm
      rw [← hm, hindex]
    · rw [update_of_ne hi] at hm
      exact hok.index i m hm
  · by_cases hi : i = f.index
    · subst hi
      rw [update_self]
      exact True.intro
    · rw [update_of_ne hi]
      exact hok.later i
  · by_cases hi : i = f.index
    · subst hi
      rw [update_self]
      exact True.intro
    · rw [update_of_ne hi]
      exact hwf i
  · rw [stores_plug, stores_plug, hstores, or_assoc]

/-- **Insertion.** A key that is not stored gets its node, and nothing else changes. -/
theorem insertTree_spec (new : Node α) {t : Unode α} (hwf : Wf t)
    (hsmall : ∀ m, Stores t m → m.addr.length < SIZE_MAX) (hnew : new.addr.length < SIZE_MAX)
    (hfree : ∀ m, Stores t m → m.addr ≠ new.addr) {keyval : Keyval}
    (hkey : keyval = initKeyval keyval.offset new.addr) (hzero : keyval.offset = 0) :
    ∃ t', insertTree t (locate new.addr t keyval []).1 (locate new.addr t keyval []).2 new =
      .ok t' ∧ Inserted t new t' := by
  have hdiff : ∀ n, Stores t n → ∃ o, initdiff n.addr new.addr =
      .ok ⟨value n.addr o ^^^ value new.addr o, o⟩ ∧
        Differ o (branchShift (value n.addr o ^^^ value new.addr o)) n.addr new.addr := by
    intro n hn
    obtain ⟨o, hinit, hne, hlt⟩ := initdiff_spec (hsmall n hn) hnew (hfree n hn)
    exact ⟨o, hinit, differ_branchShift hne hlt⟩
  cases t with
  | null => exact ⟨node new, rfl, True.intro, fun m => by simp⟩
  | node n =>
    obtain ⟨o, hinit, hd⟩ := hdiff n rfl
    have hwf : Wf (plug [] (node n)) := hwf
    have hins := inserted_plug hwf hd True.intro rfl (by simp)
    refine ⟨_, ?_, hins⟩
    rw [locate, insertTree, hinit]
    · rfl
    · simp
  | branch o₀ s₀ used₀ child₀ =>
    obtain ⟨f, gs, found, hloc, hwhole, hpath, hchild, hleaf, hreach⟩ :=
      locate_branch new.addr hwf hkey (hzero.le.trans (Nat.zero_le _)) []
        (fun f hf => absurd hf List.not_mem_nil)
    change plug gs _ = branch o₀ s₀ used₀ child₀ at hwhole
    rw [onPath_cons] at hpath
    rw [hloc]
    cases found with
    | branch o' s' used' child' => exact absurd hleaf (by simp [isBranchtype])
    | node n =>
      have hn : Stores (branch f.offset f.shift f.used f.child) n := ⟨f.index, by rw [hchild]; rfl⟩
      obtain ⟨o, hinit, hd⟩ := hdiff n (hreach.stores hn)
      by_cases hbefore : Before f.offset f.shift ⟨value n.addr o ^^^ value new.addr o, o⟩
          (branchShift (value n.addr o ^^^ value new.addr o))
      · have hplug : plug (f :: gs) (node n) = branch o₀ s₀ used₀ child₀ := by
          rw [plug, ← hchild, update_eq_self, hwhole]
        rw [← hplug] at hwf ⊢
        refine ⟨_, ?_, inserted_plug hwf hd True.intro rfl
          (precedes_of_before hwf hd.even fun g hg => by cases hg; exact hbefore)⟩
        simp only [insertTree, hinit, List.head?_cons, Option.all_some, hbefore, decide_true,
          if_true]
      · refine ⟨_, ?_, inserted_above hwf hreach hn hd rfl hbefore ?_⟩
        · simp only [insertTree, hinit, List.head?_cons, Option.all_some, hbefore, decide_false,
            Bool.false_eq_true, if_false]
        · -- the branch takes both keys to the same child
          rintro ⟨rfl, hs⟩
          rw [← hwhole] at hwf
          have := (wf_of_plug _ hwf).1.index f.index n (by rw [hchild]; rfl)
          rw [← hpath.1, hs] at this
          exact hd.index this
    | null =>
      have hwff := hwf
      rw [← hwhole] at hwff
      obtain ⟨n, hsample, hn⟩ := sample_spec (wf_of_plug _ hwff) rfl
      obtain ⟨o, hinit, hd⟩ := hdiff n (hreach.stores hn)
      by_cases hsame : f.offset = o ∧ f.shift = branchShift (value n.addr o ^^^ value new.addr o)
      · rw [← hsame.2, ← hsame.1] at hd
        have hins := inserted_child hwff hchild hn hd hpath.1
        rw [hwhole] at hins
        refine ⟨_, ?_, hins⟩
        simp only [insertTree, hsample, hinit]
        exact if_pos hsame
      · refine ⟨_, ?_, inserted_above hwf hreach hn hd rfl ?_ hsame⟩
        · simp only [insertTree, hsample, hinit]
          exact if_neg hsame
        · -- the sample is below another child
          rw [before_iff (wf_of_plug _ hwff).1.even hd.even]
          refine hd.not_precedes fun heq => ?_
          obtain ⟨j, hj⟩ := hn
          have := (wf_of_plug _ hwff).1.index j n hj
          rw [heq, hpath.1] at this
          subst this
          rw [hchild] at hj
          exact hj

/-- A tree from which the node with a key has been removed. -/
def Removed (t : Unode α) (addr : List UInt8) (t' : Unode α) : Prop :=
  Wf t' ∧ ∀ m, Stores t' m ↔ Stores t m ∧ m.addr ≠ addr

theorem locate_spec {a : List UInt8} {t : Unode α} (hwf : Wf t) {keyval : Keyval}
    (hkey : keyval = initKeyval keyval.offset a) (hzero : keyval.offset = 0) :
    (∀ n, (locate a t keyval []).2 = node n → Stores t n) ∧
      ∀ n, Stores t n → n.addr = a → (locate a t keyval []).2 = node n := by
  cases t with
  | null => simp [locate]
  | node m => simp [locate]
  | branch o s used child =>
    obtain ⟨f, gs, found, hloc, hwhole, hpath, hchild, hleaf, hreach⟩ :=
      locate_branch a hwf hkey (hzero.le.trans (Nat.zero_le _)) []
        (fun f hf => absurd hf List.not_mem_nil)
    change plug gs _ = branch o s used child at hwhole
    have hplug : plug (f :: gs) found = branch o s used child := by
      rw [plug, ← hchild, update_eq_self, hwhole]
    rw [hloc]
    constructor
    · rintro n rfl
      rw [← hplug, stores_plug]
      exact Or.inr rfl
    · rintro n hn rfl
      rw [← hplug] at hwf hn
      rcases stores_plug.mp hn with hout | hst
      · exact absurd hpath (not_onPath_of_outside hwf hout)
      · cases found with
        | null => exact hst.elim
        | node m =>
          rw [stores_node] at hst
          rw [hst]
        | branch o' s' used' child' => exact absurd hleaf (by simp [isBranchtype])

theorem exists_other {f : Frame α} (hok : BranchOk f.offset f.shift f.used f.child)
    (hset : (f.child f.index).isSet = true) :
    ∃ i, ([3, 2, 1, 0].find? fun i => i ≠ f.index ∧ (f.child i).isSet) = some i ∧
      i ≠ f.index ∧ (f.child i).isSet = true ∧
      (f.used ≤ 2 → ∀ j, j ≠ f.index → (f.child j).isSet = true → j = i) := by
  obtain ⟨j, hj, hjset⟩ := exists_set_ne (hok.used_eq ▸ hok.two_le) f.index
  have hmem : ∀ j : Fin 4, j ∈ ([3, 2, 1, 0] : List (Fin 4)) := by decide
  cases hfind : [3, 2, 1, 0].find? fun i => i ≠ f.index ∧ (f.child i).isSet with
  | none =>
    have := List.find?_eq_none.mp hfind j (hmem j)
    simp [hj, hjset] at this
  | some i =>
    have hi := List.find?_some hfind
    rw [decide_eq_true_eq] at hi
    refine ⟨i, rfl, hi.1, hi.2, fun hused j' hj' hj'set => ?_⟩
    rw [hok.used_eq] at hused
    exact eq_of_numSet_le_two hused hset ⟨hj', hj'set⟩ hi

theorem wf_removeChild {f : Frame α} {fs : List (Frame α)}
    (h : Wf (plug fs (branch f.offset f.shift f.used f.child)))
    (hset : (f.child f.index).isSet = true) (hused : 2 < f.used) :
    Wf (plug ({ f with used := f.used - 1 } :: fs) null) := by
  obtain ⟨hok, hwf⟩ := wf_of_plug _ h
  have hsub : ∀ m, Stores (branch f.offset f.shift (f.used - 1)
      (update f.child f.index null)) m → Stores (branch f.offset f.shift f.used f.child) m := by
    intro m hm
    rw [stores_update] at hm
    obtain ⟨j, -, hj⟩ := hm.resolve_right (not_stores_null m)
    exact ⟨j, hj⟩
  have hhead : ∀ g ∈ fs.head?, Precedes g.offset g.shift f.offset f.shift := later_of_plug h
  change Wf (plug fs (branch f.offset f.shift (f.used - 1) (update f.child f.index null)))
  refine wf_plug h ⟨⟨hok.even, ?_, Nat.le_sub_one_of_lt hused, fun m m' hm hm' => ?_,
    fun i m hm => ?_, fun i => ?_⟩, fun i => ?_⟩ rfl hhead fun m hm =>
      ⟨m, hsub m hm, fun g _ => Agree.refl _ _ _⟩
  · have hcard : numSet isSet (update f.child f.index null) + 1 = numSet isSet f.child :=
      numSet_update_unset hset rfl
    rw [hok.used_eq]
    omega
  · exact hok.agree m m' (hsub m hm) (hsub m' hm')
  · by_cases hi : i = f.index
    · subst hi
      rw [update_self] at hm
      exact hm.elim
    · rw [update_of_ne hi] at hm
      exact hok.index i m hm
  · by_cases hi : i = f.index
    · subst hi
      rw [update_self]
      exact True.intro
    · rw [update_of_ne hi]
      exact hok.later i
  · by_cases hi : i = f.index
    · subst hi
      rw [update_self]
      exact True.intro
    · rw [update_of_ne hi]
      exact hwf i

/-- **Removal.** The key that is searched becomes free, and nothing else changes. -/
theorem removeTree_spec {a : List UInt8} {t : Unode α} {n : Node α} (hwf : Wf t)
    (hn : Stores t n) (ha : n.addr = a) {keyval : Keyval}
    (hkey : keyval = initKeyval keyval.offset a) (hzero : keyval.offset = 0) :
    ∃ t', removeTree (locate a t keyval []).1 = .ok t' ∧ Removed t a t' := by
  have hfound := (locate_spec hwf hkey hzero).2 n hn ha
  cases t with
  | null => exact hn.elim
  | node m =>
    rw [stores_node] at hn
    subst hn
    refine ⟨null, by rw [locate, removeTree]; simp, True.intro, fun m' => ⟨fun h => h.elim, ?_⟩⟩
    rintro ⟨rfl, hne⟩
    exact hne ha
  | branch o s used child =>
    obtain ⟨f, gs, found, hloc, hwhole, hpath, hchild, hleaf, hreach⟩ :=
      locate_branch a hwf hkey (hzero.le.trans (Nat.zero_le _)) []
        (fun f hf => absurd hf List.not_mem_nil)
    change plug gs _ = branch o s used child at hwhole
    rw [hloc] at hfound ⊢
    change found = node n at hfound
    subst hfound
    have hset : (f.child f.index).isSet = true := by rw [hchild]; rfl
    have hplug : plug (f :: gs) (node n) = branch o s used child := by
      rw [plug, ← hchild, update_eq_self, hwhole]
    -- what else is stored has another key
    have hstores : ∀ m, (Outside gs m ∨ ∃ j, j ≠ f.index ∧ Stores (f.child j) m) ↔
        Stores (branch o s used child) m ∧ m.addr ≠ a := by
      intro m
      rw [← hplug] at hwf ⊢
      rw [stores_plug, outside_cons, stores_node, or_comm]
      constructor
      · intro hout
        refine ⟨Or.inl hout, ?_⟩
        rintro rfl
        exact not_onPath_of_outside hwf (outside_cons.mpr hout) hpath
      · rintro ⟨hout | rfl, hne⟩
        · exact hout
        · exact absurd ha hne
    rw [← hwhole] at hwf
    obtain ⟨hok, hwfc⟩ := wf_of_plug _ hwf
    obtain ⟨i, hfind, hi, hiset, honly⟩ := exists_other hok hset
    by_cases hused : 2 < f.used
    · refine ⟨_, if_pos hused, wf_removeChild hwf hset hused, fun m => ?_⟩
      rw [← hstores, plug, stores_plug, stores_update]
      simp
    · have hfi : ∀ m, (∃ j, j ≠ f.index ∧ Stores (f.child j) m) ↔ Stores (f.child i) m := by
        intro m
        refine ⟨?_, fun h => ⟨i, hi, h⟩⟩
        rintro ⟨j, hj, hst⟩
        rwa [← honly (by omega) j hj hst.isSet]
      refine ⟨plug gs (f.child i), ?_, ?_, fun m => ?_⟩
      · rw [removeTree, if_neg hused, hfind]
      · exact wf_plug hwf (hwfc i) hiset
          (fun g hg => later_trans (hok.later i) (later_of_plug hwf g hg)) fun m hm =>
            ⟨m, ⟨i, hm⟩, fun g _ => Agree.refl _ _ _⟩
      · rw [← hstores, stores_plug, hfi]

end Unode

/-! ## The array as a map -/

/-- The array stands for the map `m`. -/
structure Represents (array : Arraystf α) (m : List UInt8 → Option (Node α)) : Prop where
  wf : ∀ i, Wf (array.root i)
  small : ∀ i n, Stores (array.root i) n → n.addr.length < SIZE_MAX
  stores : ∀ a n, m a = some n ↔ n.addr = a ∧ Stores (array.root (rootindex array a)) n
  finite : (MapSpec.keys m).Finite
  length : array.length = (MapSpec.keys m).ncard

theorem represents_newArraystf {toplevelsize : ℕ} {array : Arraystf α}
    (h : newArraystf α toplevelsize = .ok array) : Represents array fun _ => none := by
  obtain ⟨hlength, hroot⟩ : array.length = 0 ∧ array.root = fun _ => null := by
    simp only [newArraystf] at h
    generalize makepowerof2 _ = size at h
    split_ifs at h
    cases h
    exact ⟨rfl, rfl⟩
  have hkeys : MapSpec.keys (fun _ => none : List UInt8 → Option (Node α)) = ∅ := by
    ext a
    simp [MapSpec.keys]
  refine ⟨fun i => ?_, fun i n hn => ?_, fun a n => ?_, ?_, ?_⟩
  · rw [hroot]
    exact True.intro
  · rw [hroot] at hn
    exact hn.elim
  · rw [hroot]
    simp
  · rw [hkeys]
    exact Set.finite_empty
  · rw [hkeys, hlength, Set.ncard_empty]

/-- The value with which the loop of `find_arraystf` starts. -/
def firstKeyval (addr : List UInt8) : Keyval := ⟨(addr.headD 0).toNat, 0⟩

theorem firstKeyval_eq (addr : List UInt8) :
    firstKeyval addr = initKeyval (firstKeyval addr).offset addr := by
  cases addr with
  | nil => rfl
  | cons b bs => rfl

theorem findArraystf_of_not_lt {array : Arraystf α} {a : List UInt8}
    (h : ¬ a.length < SIZE_MAX) : findArraystf array a = (some .EINVAL, [], null) := if_neg h

section Find

variable {array : Arraystf α} {m : List UInt8 → Option (Node α)} (h : Represents array m)
  {a : List UInt8}

include h

theorem Represents.find_some {n : Node α} (hm : m a = some n) :
    findArraystf array a = (none,
      (locate a (array.root (rootindex array a)) (firstKeyval a) []).1, node n) := by
  obtain ⟨rfl, hst⟩ := (h.stores a n).mp hm
  have hfound := (locate_spec (h.wf _) (firstKeyval_eq n.addr) rfl).2 n hst rfl
  rw [firstKeyval] at hfound ⊢
  unfold findArraystf
  rw [if_pos (h.small _ n hst)]
  dsimp only
  rw [hfound]
  dsimp only
  rw [if_pos rfl, ← hfound]

theorem Represents.find_none (hm : m a = none) (hsmall : a.length < SIZE_MAX) :
    findArraystf array a =
      (some .ESRCH, locate a (array.root (rootindex array a)) (firstKeyval a) []) := by
  have hne : ∀ n, Stores (array.root (rootindex array a)) n → n.addr ≠ a := by
    intro n hst ha
    have := (h.stores a n).mpr ⟨ha, hst⟩
    rw [hm] at this
    exact Option.some_ne_none n this.symm
  have hfound := (locate_spec (h.wf (rootindex array a)) (firstKeyval_eq a) rfl).1
  rw [firstKeyval] at hfound ⊢
  unfold findArraystf
  rw [if_pos hsmall]
  dsimp only
  cases hloc : (locate a (array.root (rootindex array a)) ⟨(a.headD 0).toNat, 0⟩ []).2 with
  | null => rfl
  | branch o s used child => rfl
  | node n =>
    dsimp only
    rw [if_neg fun heq => hne n (hfound n hloc) heq.symm]

theorem Represents.atArraystf_eq (a : List UInt8) : atArraystf array a = m a := by
  unfold atArraystf
  cases hm : m a with
  | some n =>
    rw [h.find_some hm]
    rfl
  | none =>
    by_cases hsmall : a.length < SIZE_MAX
    · rw [h.find_none hm hsmall]
    · rw [findArraystf_of_not_lt hsmall]

end Find

theorem Represents.update {array : Arraystf α} {m : List UInt8 → Option (Node α)}
    (h : Represents array m) {a : List UInt8} {v : Option (Node α)} {t : Unode α} {length : ℕ}
    (hwf : Wf t) (hsmall : ∀ n, Stores t n → n.addr.length < SIZE_MAX)
    (hv : ∀ n, v = some n ↔ n.addr = a ∧ Stores t n)
    (hother : ∀ n, n.addr ≠ a → (Stores t n ↔ Stores (array.root (rootindex array a)) n))
    (hfinite : (MapSpec.keys (Function.update m a v)).Finite)
    (hlength : length = (MapSpec.keys (Function.update m a v)).ncard) :
    Represents { array with
      length := length
      root := Function.update array.root (rootindex array a) t } (Function.update m a v) := by
  have hroot : ∀ (P : Unode α → Prop), P t → (∀ i, P (array.root i)) →
      ∀ i, P (Function.update array.root (rootindex array a) t i) := by
    intro P ht hold i
    by_cases hi : i = rootindex array a
    · subst hi
      rwa [update_self]
    · rw [update_of_ne hi]
      exact hold i
  refine ⟨hroot Wf hwf h.wf,
    hroot (fun t => ∀ n, Stores t n → n.addr.length < SIZE_MAX) hsmall h.small, fun b n => ?_,
    hfinite, hlength⟩
  change _ ↔ n.addr = b ∧
    Stores (Function.update array.root (rootindex array a) t (rootindex array b)) n
  by_cases hb : b = a
  · subst hb
    rw [update_self, update_self]
    exact hv n
  · rw [update_of_ne hb, h.stores b n]
    refine and_congr_right fun hn => ?_
    by_cases hi : rootindex array b = rootindex array a
    · rw [hi, update_self]
      exact (hother n (hn ▸ hb)).symm
    · rw [update_of_ne hi]

/-- The insertion into the map, which rejects a key of the length `SIZE_MAX`. -/
def specTryinsert (m : List UInt8 → Option (Node α)) (new : Node α) (nodeadp : Option (α → α)) :
    (Option Errno × Option (Node α)) × (List UInt8 → Option (Node α)) :=
  if new.addr.length < SIZE_MAX then
    match m new.addr with
    | some n => ((some .EEXIST, some n), m)
    | none =>
      let stored : Node α := { new with object := (nodeadp.getD id) new.object }
      ((none, some stored), update m new.addr (some stored))
  else ((some .EINVAL, none), m)

/-- The removal from the map. -/
def specTryremove (m : List UInt8 → Option (Node α)) (addr : List UInt8) :
    (Option Errno × Option (Node α)) × (List UInt8 → Option (Node α)) :=
  if addr.length < SIZE_MAX then
    match m addr with
    | none => ((some .ESRCH, none), m)
    | some n => ((none, some n), update m addr none)
  else ((some .EINVAL, none), m)

theorem Represents.tryinsertArraystf {array : Arraystf α} {m : List UInt8 → Option (Node α)}
    (h : Represents array m) (new : Node α) (nodeadp : Option (α → α)) :
    (tryinsertArraystf array new nodeadp).1 = (specTryinsert m new nodeadp).1 ∧
      Represents (tryinsertArraystf array new nodeadp).2 (specTryinsert m new nodeadp).2 := by
  unfold Arraystf.tryinsertArraystf specTryinsert
  by_cases hsmall : new.addr.length < SIZE_MAX
  · rw [if_pos hsmall]
    cases hm : m new.addr with
    | some n =>
      rw [h.find_some hm]
      exact ⟨rfl, h⟩
    | none =>
      rw [h.find_none hm hsmall]
      dsimp only
      set stored : Node α := ⟨new.addr, (nodeadp.getD id) new.object⟩
      have hfree : ∀ n, Stores (array.root (rootindex array new.addr)) n → n.addr ≠ new.addr := by
        intro n hst ha
        have := (h.stores new.addr n).mpr ⟨ha, hst⟩
        rw [hm] at this
        exact Option.some_ne_none n this.symm
      obtain ⟨t, hok, hwf, hst⟩ := insertTree_spec stored (h.wf (rootindex array new.addr))
        (h.small _) hsmall hfree (firstKeyval_eq new.addr) rfl
      rw [hok]
      refine ⟨rfl, h.update hwf (fun n hn => ?_) (fun n => ?_) (fun n hn => ?_) ?_ ?_⟩
      · rcases (hst n).mp hn with hold | rfl
        · exact h.small _ n hold
        · exact hsmall
      · rw [hst, Option.some_inj]
        constructor
        · rintro rfl
          exact ⟨rfl, Or.inr rfl⟩
        · rintro ⟨ha, hold | heq⟩
          · exact absurd ha (hfree n hold)
          · exact heq
      · rw [hst]
        refine or_iff_left ?_
        rintro rfl
        exact hn rfl
      · rw [MapSpec.keys_insert]
        exact h.finite.insert _
      · rw [MapSpec.ncard_insert h.finite hm, h.length]
  · rw [if_neg hsmall, findArraystf_of_not_lt hsmall]
    exact ⟨rfl, h⟩

theorem Represents.tryremoveArraystf {array : Arraystf α} {m : List UInt8 → Option (Node α)}
    (h : Represents array m) (a : List UInt8) :
    (tryremoveArraystf array a).1 = (specTryremove m a).1 ∧
      Represents (tryremoveArraystf array a).2 (specTryremove m a).2 := by
  unfold Arraystf.tryremoveArraystf specTryremove
  by_cases hsmall : a.length < SIZE_MAX
  · rw [if_pos hsmall]
    cases hm : m a with
    | none =>
      rw [h.find_none hm hsmall]
      exact ⟨rfl, h⟩
    | some n =>
      rw [h.find_some hm]
      dsimp only
      obtain ⟨ha, hn⟩ := (h.stores a n).mp hm
      obtain ⟨t, hok, hwf, hst⟩ := removeTree_spec (h.wf _) hn ha (firstKeyval_eq a) rfl
      rw [hok]
      refine ⟨rfl, h.update hwf (fun n' hn' => ?_) (fun n' => ?_) (fun n' hn' => ?_) ?_ ?_⟩
      · exact h.small _ n' ((hst n').mp hn').1
      · rw [hst]
        constructor
        · intro hnone
          exact absurd hnone.symm (Option.some_ne_none n')
        · rintro ⟨ha', -, hne⟩
          exact absurd ha' hne
      · rw [hst]
        exact and_iff_left hn'
      · rw [MapSpec.keys_erase]
        exact h.finite.sdiff
      · have := MapSpec.ncard_erase h.finite hm
        rw [← h.length] at this
        exact Nat.sub_eq_of_eq_add this.symm
  · rw [if_neg hsmall, findArraystf_of_not_lt hsmall]
    exact ⟨rfl, h⟩

/-! ## Runs -/

/-- The calls that change the array. -/
inductive Op (α : Type*)
  | tryinsert (new : Node α) (nodeadp : Option (α → α))
  | insert (new : Node α) (nodeadp : Option (α → α))
  | tryremove (addr : List UInt8)
  | remove (addr : List UInt8)

/-- A call on the array. -/
def step (array : Arraystf α) : Op α → (Option Errno × Option (Node α)) × Arraystf α
  | .tryinsert new nodeadp => tryinsertArraystf array new nodeadp
  | .insert new nodeadp => insertArraystf array new nodeadp
  | .tryremove addr => tryremoveArraystf array addr
  | .remove addr => removeArraystf array addr

/-- The call on the map. -/
def specStep (m : List UInt8 → Option (Node α)) :
    Op α → (Option Errno × Option (Node α)) × (List UInt8 → Option (Node α))
  | .tryinsert new nodeadp => specTryinsert m new nodeadp
  | .insert new nodeadp => unlessError (specTryinsert m new nodeadp)
  | .tryremove addr => specTryremove m addr
  | .remove addr => specTryremove m addr

theorem represents_step {array : Arraystf α} {m : List UInt8 → Option (Node α)} {op : Op α}
    (h : Represents array m) :
    (step array op).1 = (specStep m op).1 ∧ Represents (step array op).2 (specStep m op).2 := by
  cases op with
  | tryinsert new nodeadp => exact h.tryinsertArraystf new nodeadp
  | insert new nodeadp =>
    obtain ⟨hout, hrep⟩ := h.tryinsertArraystf new nodeadp
    refine ⟨?_, hrep⟩
    simp only [step, specStep, insertArraystf, unlessError, hout]
  | tryremove addr => exact h.tryremoveArraystf addr
  | remove addr => exact h.tryremoveArraystf addr

/-- **`arraystf.c` is a map.** In every run all calls return what they return for a map,
`at_arraystf` returns the node under every key, and `length_arraystf` is the number of the keys that
are stored. -/
theorem arraystf_exact {toplevelsize : ℕ} {array : Arraystf α}
    (h : newArraystf α toplevelsize = .ok array) (ops : List (Op α)) :
    (run step array ops).1 = (run specStep (fun _ => none) ops).1 ∧
      (∀ a, atArraystf (run step array ops).2 a = (run specStep (fun _ => none) ops).2 a) ∧
      lengthArraystf (run step array ops).2 =
        (MapSpec.keys (run specStep (fun _ => none) ops).2).ncard := by
  have hstep : ∀ (a : Arraystf α) (m : List UInt8 → Option (Node α)) (op : Op α),
      Represents a m → True → (step a op).1 = (specStep m op).1 ∧
        Represents (step a op).2 (specStep m op).2 := fun _ _ _ hrep _ => represents_step hrep
  obtain ⟨hout, hrep⟩ :=
    run_refines hstep (represents_newArraystf h) (Along.trivial array ops)
  exact ⟨hout, hrep.atArraystf_eq, hrep.length⟩

/-- Keys that differ in nothing but trailing zeros, a branch above the one on their lengths, and
the removal of one of them. -/
theorem arraystf_exact_zeros : ∃ array, newArraystf ℕ 1 = .ok array ∧
    atArraystf (run step array [.tryinsert ⟨[], 7⟩ none, .tryinsert ⟨[0, 0], 8⟩ (some (· + 1)),
      .insert ⟨[0, 5], 3⟩ none, .insert ⟨[0, 0], 5⟩ none, .tryinsert ⟨[0], 6⟩ none,
      .tryremove [], .tryremove [1]]).2 [0, 0] = some ⟨[0, 0], 9⟩ := by
  have hnew : newArraystf ℕ 1 = .ok ⟨0, 1, 24, fun _ => null⟩ := rfl
  exact ⟨_, hnew, ((arraystf_exact hnew _).2.1 [0, 0]).trans (by decide +kernel)⟩

end Arraystf
end CKern
