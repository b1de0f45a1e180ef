import CKern.Ds.Inmem.Arraystf

/-!
# `ds/inmem/arraystf.c`: the cleanup of `tryinsert_arraystf`

The function may make a copy of the node, and it may allocate a branch.  If a step fails, then the
code at `ONERR` decides from the local variable `copied_node` whether there is a copy to delete.
The variable has no initial value.

* `Adapter`: the services of the parameter `nodeadp` that are used.
* `tryinsertCall`: `tryinsert_arraystf` with the copy service, the allocator and the value that
  `copied_node` happens to hold.
* `NoBranch`: the key gets its place without a new branch.
* `AtomicOnError`: a call that fails changes nothing and deletes the copy and nothing else.
* `atomicOnError_iff`: when this is so.
-/

namespace CKern
namespace Arraystf

open Function Unode

/-! ## The call -/

/-- A pointer; zero is the null pointer. -/
abbrev Ptr := UInt64

/-- What `tryinsert_arraystf` returns as an error: that of the module, `ENOMEM`, or whatever the
copy service returns. -/
inductive Error
  | errno (e : Errno)
  | ENOMEM
  | other (code : ℕ)
  deriving DecidableEq, Repr

/-- How a call of `newcopy_object` ends.  If it fails, then `destobject` holds what the service has
written, if it has written anything. -/
inductive Copied
  | ok (destobject : Ptr) (hne : destobject ≠ 0)
  | failed (err : Error) (destobject : Option Ptr)

/-- `typeadapt_member_t` with the service `newcopy_object`.  A copy has the key of the original. -/
structure Adapter where
  nodeoff : UInt16
  newcopy : Ptr → Copied

/-- `cast2object_typeadaptmember`. -/
def Adapter.toObject (nodeadp : Adapter) (node : Ptr) : Ptr := node - nodeadp.nodeoff.toUInt64

/-- `cast2member_typeadaptmember`. -/
def Adapter.toMember (nodeadp : Adapter) (object : Ptr) : Ptr := object + nodeadp.nodeoff.toUInt64

/-- What a call leaves behind: the error code, `inserted_or_existing_node`, the copies that were
made, the objects for which the delete service was called, and the array. -/
structure Outcome where
  err : Option Error
  out : Option (Node Ptr)
  copied : List Ptr
  deleted : List Ptr
  array : Arraystf Ptr

/-- The new tree of `tryinsert_arraystf`, if the allocator has a branch or if it has none. -/
def insertTreeAlloc (alloc : Bool) (root : Unode Ptr) (fs : List (Frame Ptr)) (found : Unode Ptr)
    (new : Node Ptr) : Except Error (Unode Ptr) :=
  -- not so simple case prefix differs (add new branch layer between root and found.parent)
  let above (keydiff : Keyval) :=
    let shift := branchShift keydiff.data
    let d := descend keydiff shift new.addr root []
    if alloc then .ok (plug d.1 (newBranch keydiff shift d.2 new)) else .error .ENOMEM
  match found, fs with
  | node n, fs =>
    match initdiff n.addr new.addr with
    | .error e => .error (.errno e)
    | .ok keydiff =>
      let shift := branchShift keydiff.data
      if fs.head?.all fun f => Before f.offset f.shift keydiff shift then
        -- prefix matches (add new branch layer after found.parent)
        if alloc then .ok (plug fs (newBranch keydiff shift (node n) new)) else .error .ENOMEM
      else above keydiff
  | _, [] => .ok (node new)
  | _, f :: fs =>
    match sample (branch f.offset f.shift f.used f.child) with
    | none => .error (.errno .EINVAL)
    | some n =>
      match initdiff n.addr new.addr with
      | .error e => .error (.errno e)
      | .ok keydiff =>
        if f.offset = keydiff.offset ∧ f.shift = branchShift keydiff.data then
          -- prefix does match
          .ok (plug ({ f with used := f.used + 1 } :: fs) (node new))
        else above keydiff

/-- The code at `ONERR`.  Without an adapter the call of the delete service reads the null
pointer. -/
def onError (array : Arraystf Ptr) (err : Error) (copied : List Ptr) (copied_node : Ptr) :
    Outcome :=
  ⟨some err, none, copied, if copied_node ≠ 0 then [copied_node] else [], array⟩

/-- `tryinsert_arraystf` after the copy has been made. -/
def insertNode (array : Arraystf Ptr) (fs : List (Frame Ptr)) (found : Unode Ptr) (new : Node Ptr)
    (alloc : Bool) (copied : List Ptr) (copied_node : Ptr) : Outcome :=
  if new.object &&& 1 ≠ 0 then onError array (.errno .EINVAL) copied copied_node
  else
    let i := rootindex array new.addr
    match insertTreeAlloc alloc (array.root i) fs found new with
    | .error e => onError array e copied copied_node
    | .ok t =>
      ⟨none, some new, copied, [],
        { array with length := array.length + 1, root := update array.root i t }⟩

/-- `tryinsert_arraystf`: `object` is the address of the node, `alloc` tells whether the allocator
has memory for a branch, and `copied_node` is the value of the local variable before it is set. -/
def tryinsertCall (array : Arraystf Ptr) (new : Node Ptr) (nodeadp : Option Adapter) (alloc : Bool)
    (copied_node : Ptr) : Outcome :=
  match findArraystf array new.addr with
  | (none, _, found) => ⟨some (.errno .EEXIST), found.toNode, [], [], array⟩
  | (some .ESRCH, fs, found) =>
    match nodeadp with
    | none => insertNode array fs found new alloc [] copied_node
    | some nodeadp =>
      match nodeadp.newcopy (nodeadp.toObject new.object) with
      | .failed err destobject => onError array err [] (destobject.getD copied_node)
      | .ok destobject _ =>
        insertNode array fs found { new with object := nodeadp.toMember destobject } alloc
          [destobject] destobject
  | (some e, _) => ⟨some (.errno e), none, [], [], array⟩

/-! ## Runs -/

/-- The calls that change the array. -/
inductive Call
  | tryinsert (new : Node Ptr) (nodeadp : Option Adapter) (alloc : Bool) (copied_node : Ptr)
  | tryremove (addr : List UInt8)

/-- The array after a call. -/
def call (array : Arraystf Ptr) : Call → Arraystf Ptr
  | .tryinsert new nodeadp alloc copied_node =>
    (tryinsertCall array new nodeadp alloc copied_node).array
  | .tryremove addr => (tryremoveArraystf array addr).2

/-- The array is what a run of calls, some of which may have failed, has made of a new one. -/
def Reachable (array : Arraystf Ptr) : Prop :=
  ∃ toplevelsize array₀ calls, newArraystf Ptr toplevelsize = .ok array₀ ∧
    array = List.foldl call array₀ calls

/-! ## What is claimed of a call that fails -/

/-- A call that fails with another error than `EEXIST` leaves the array as it is, returns no node,
and deletes the copy that it has made and nothing else, whatever `copied_node` holds. -/
def AtomicOnError (array : Arraystf Ptr) (new : Node Ptr) (nodeadp : Option Adapter)
    (alloc : Bool) : Prop :=
  ∀ copied_node err, (tryinsertCall array new nodeadp alloc copied_node).err = some err →
    err ≠ .errno .EEXIST →
    (tryinsertCall array new nodeadp alloc copied_node).array = array ∧
    (tryinsertCall array new nodeadp alloc copied_node).out = none ∧
    (tryinsertCall array new nodeadp alloc copied_node).deleted =
      (tryinsertCall array new nodeadp alloc copied_node).copied

/-- A key gets its place below `t` without a new branch: nothing is there, or the key agrees with
the keys of the last branch on its way up to the digit that this branch tests. -/
def NoBranch (t : Unode Ptr) (addr : List UInt8) : Prop :=
  match locate addr t (firstKeyval addr) [] with
  | ([], null) => True
  | (f :: _, null) => ∀ n, Stores (branch f.offset f.shift f.used f.child) n →
      Agree f.offset (f.shift + 2) n.addr addr
  | _ => False

/-- The code at `ONERR` is not reached without a value in `copied_node`: a key that is new needs a
copy service that does not fail unless it sets the copy to null, or without an adapter a node that
is aligned and memory for the branch. -/
def CleanupKnows (array : Arraystf Ptr) (new : Node Ptr) (nodeadp : Option Adapter)
    (alloc : Bool) : Prop :=
  (findArraystf array new.addr).1 = some .ESRCH →
    match nodeadp with
    | none => new.object &&& 1 = 0 ∧
        (alloc = true ∨ NoBranch (array.root (rootindex array new.addr)) new.addr)
    | some nodeadp => ∀ err destobject,
        nodeadp.newcopy (nodeadp.toObject new.object) = .failed err destobject →
          destobject = some 0 ∨ err = .errno .EEXIST

/-! ## When a branch is needed -/

theorem Differ.unique {o s p q : ℕ} {a b : List UInt8} (h : Differ o s a b) (h' : Differ p q a b) :
    o = p ∧ s = q := by
  rcases precedes_trichotomy h.even h'.even with hp | heq | hp
  · exact absurd hp (h'.not_precedes h.index)
  · exact heq
  · exact absurd hp (h.not_precedes h'.index)

section NoBranch

variable {t : Unode Ptr} {new : Node Ptr} (hwf : Wf t)
  (hsmall : ∀ m, Stores t m → m.addr.length < SIZE_MAX) (hnew : new.addr.length < SIZE_MAX)
  (hfree : ∀ m, Stores t m → m.addr ≠ new.addr)

include hsmall hnew hfree

theorem initdiff_of_stores {n : Node Ptr} (hn : Stores t n) :
    ∃ o, initdiff n.addr new.addr = .ok ⟨value n.addr o ^^^ value new.addr o, o⟩ ∧
      Differ o (branchShift (value n.addr o ^^^ value new.addr o)) n.addr new.addr := by
  obtain ⟨o, hinit, hne, hlt⟩ := initdiff_spec (hsmall n hn) hnew (hfree n hn)
  exact ⟨o, hinit, differ_branchShift hne hlt⟩

include hwf

theorem empty_place {f : Frame Ptr} {gs : List (Frame Ptr)}
    (hloc : locate new.addr t (firstKeyval new.addr) [] = (f :: gs, null)) :
    ∃ n keydiff, sample (branch f.offset f.shift f.used f.child) = some n ∧
      initdiff n.addr new.addr = .ok keydiff ∧
      (NoBranch t new.addr ↔ f.offset = keydiff.offset ∧ f.shift = branchShift keydiff.data) := by
  cases t with
  | null => simp [locate] at hloc
  | node m => simp [locate] at hloc
  | branch o₀ s₀ used₀ child₀ =>
    have hloc' := locate_branch new.addr hwf (firstKeyval_eq new.addr)
      (Nat.zero_le o₀) [] (fun f hf => absurd hf List.not_mem_nil)
    rw [hloc] at hloc'
    obtain ⟨f', gs', found, heq, hwhole, hpath, hchild, hleaf, hreach⟩ := hloc'
    obtain ⟨⟨rfl, rfl⟩, rfl⟩ : (f = f' ∧ gs = gs') ∧ null = found := by
      simpa using heq
    change plug gs _ = branch o₀ s₀ used₀ child₀ at hwhole
    rw [onPath_cons] at hpath
    have hwff : Wf (branch f.offset f.shift f.used f.child) := by
      rw [← hwhole] at hwf
      exact wf_of_plug gs hwf
    obtain ⟨n, hsample, hn⟩ := sample_spec hwff rfl
    obtain ⟨o, hinit, hd⟩ := initdiff_of_stores hsmall hnew hfree (hreach.stores hn)
    refine ⟨n, _, hsample, hinit, ?_⟩
    rw [NoBranch, hloc]
    constructor
    · intro hagree
      -- the node is below another child of the branch
      have hindex : childindex f.shift (value n.addr f.offset) ≠
          childindex f.shift (value new.addr f.offset) := by
        obtain ⟨j, hj⟩ := hn
        rw [hwff.1.index j n hj, hpath.1]
        rintro rfl
        rw [hchild] at hj
        exact hj
      exact Differ.unique ⟨hwff.1.even, hagree n hn, hindex⟩ hd
    · rintro ⟨ho, hs⟩ m hm
      have hagree : Agree f.offset (f.shift + 2) n.addr new.addr := by
        rw [ho, hs]
        exact hd.agree
      exact (hwff.1.agree m n hm hn).trans hagree

/-- **The allocator decides only where a branch is needed.** -/
theorem insertTreeAlloc_eq (alloc : Bool) :
    (alloc = true ∨ NoBranch t new.addr →
      insertTreeAlloc alloc t (locate new.addr t (firstKeyval new.addr) []).1
          (locate new.addr t (firstKeyval new.addr) []).2 new =
        (insertTree t (locate new.addr t (firstKeyval new.addr) []).1
          (locate new.addr t (firstKeyval new.addr) []).2 new).mapError .errno) ∧
    (¬ (alloc = true ∨ NoBranch t new.addr) →
      insertTreeAlloc alloc t (locate new.addr t (firstKeyval new.addr) []).1
        (locate new.addr t (firstKeyval new.addr) []).2 new = .error .ENOMEM) := by
  obtain ⟨⟨fs, found⟩, hloc⟩ : ∃ found, locate new.addr t (firstKeyval new.addr) [] = found :=
    ⟨_, rfl⟩
  have hstored := (locate_spec hwf (firstKeyval_eq new.addr) rfl).1
  rw [hloc] at hstored ⊢
  have hleaf : found.isBranchtype = false := by
    cases t with
    | null =>
      simp only [locate, Prod.mk.injEq] at hloc
      rw [← hloc.2]
      rfl
    | node m =>
      simp only [locate, Prod.mk.injEq] at hloc
      rw [← hloc.2]
      rfl
    | branch o₀ s₀ used₀ child₀ =>
      obtain ⟨f, gs, found', heq, -, -, -, hleaf, -⟩ :=
        locate_branch new.addr hwf (firstKeyval_eq new.addr) (Nat.zero_le o₀) []
          (fun f hf => absurd hf List.not_mem_nil)
      rw [hloc, Prod.mk.injEq] at heq
      rw [heq.2]
      exact hleaf
  cases found with
  | branch o s used child => exact absurd hleaf (by simp [isBranchtype])
  | node n =>
    obtain ⟨o, hinit, -⟩ := initdiff_of_stores hsmall hnew hfree (hstored n rfl)
    have hneeds : ¬ NoBranch t new.addr := by
      rw [NoBranch, hloc]
      cases fs <;> exact id
    simp only [insertTreeAlloc, insertTree, hinit, hneeds, or_false]
    cases alloc with
    | true =>
      refine ⟨fun _ => ?_, fun h => absurd rfl h⟩
      split_ifs <;> rfl
    | false =>
      refine ⟨fun h => absurd h Bool.false_ne_true, fun _ => ?_⟩
      split_ifs <;> simp_all
  | null =>
    cases fs with
    | nil =>
      refine ⟨fun _ => rfl, fun h => absurd (Or.inr ?_) h⟩
      rw [NoBranch, hloc]
      exact True.intro
    | cons f gs =>
      obtain ⟨n, keydiff, hsample, hinit, hiff⟩ := empty_place hwf hsmall hnew hfree hloc
      simp only [insertTreeAlloc, insertTree, hsample, hinit, hiff]
      by_cases hsame : f.offset = keydiff.offset ∧ f.shift = branchShift keydiff.data
      · rw [if_pos hsame, if_pos hsame]
        exact ⟨fun _ => rfl, fun h => absurd (Or.inr hsame) h⟩
      · rw [if_neg hsame, if_neg hsame]
        cases alloc with
        | true => exact ⟨fun _ => rfl, fun h => absurd (Or.inl rfl) h⟩
        | false => exact ⟨fun h => absurd h (by simp [hsame]), fun _ => rfl⟩

end NoBranch

/-! ## The call and the map -/

section Call

variable {array : Arraystf Ptr} {m : List UInt8 → Option (Node Ptr)} (h : Represents array m)
  {new : Node Ptr}

include h

theorem Represents.insertNode_cases (hm : m new.addr = none) (hsmall : new.addr.length < SIZE_MAX)
    (alloc : Bool) (copied : List Ptr) (copied_node : Ptr) :
    ((new.object &&& 1 = 0 ∧
        (alloc = true ∨ NoBranch (array.root (rootindex array new.addr)) new.addr)) ∧
      insertNode array (locate new.addr (array.root (rootindex array new.addr))
          (firstKeyval new.addr) []).1 (locate new.addr (array.root (rootindex array new.addr))
          (firstKeyval new.addr) []).2 new alloc copied copied_node =
        ⟨none, some new, copied, [], (Arraystf.tryinsertArraystf array new none).2⟩) ∨
    (¬ (new.object &&& 1 = 0 ∧
        (alloc = true ∨ NoBranch (array.root (rootindex array new.addr)) new.addr)) ∧
      ∃ err, err ≠ .errno .EEXIST ∧
        insertNode array (locate new.addr (array.root (rootindex array new.addr))
          (firstKeyval new.addr) []).1 (locate new.addr (array.root (rootindex array new.addr))
          (firstKeyval new.addr) []).2 new alloc copied copied_node =
        onError array err copied copied_node) := by
  have hfree : ∀ n, Stores (array.root (rootindex array new.addr)) n → n.addr ≠ new.addr := by
    intro n hst ha
    have := (h.stores new.addr n).mpr ⟨ha, hst⟩
    rw [hm] at this
    exact Option.some_ne_none n this.symm
  obtain ⟨hplace, hnomem⟩ := insertTreeAlloc_eq (h.wf (rootindex array new.addr)) (h.small _)
    hsmall hfree alloc
  obtain ⟨t, hok, -⟩ := insertTree_spec new (h.wf (rootindex array new.addr)) (h.small _) hsmall
    hfree (firstKeyval_eq new.addr) rfl
  unfold insertNode
  by_cases halign : new.object &&& 1 = 0
  · rw [if_neg (not_not_intro halign)]
    by_cases hroom : alloc = true ∨ NoBranch (array.root (rootindex array new.addr)) new.addr
    · refine Or.inl ⟨⟨halign, hroom⟩, ?_⟩
      have hinsert : (Arraystf.tryinsertArraystf array new none).2 = { array with
          length := array.length + 1
          root := Function.update array.root (rootindex array new.addr) t } := by
        unfold Arraystf.tryinsertArraystf
        rw [h.find_none hm hsmall]
        dsimp only
        rw [Option.getD_none, id_eq, hok]
      rw [hinsert]
      dsimp only
      rw [hplace hroom, hok]
      rfl
    · refine Or.inr ⟨fun hcond => hroom hcond.2, .ENOMEM, by simp, ?_⟩
      dsimp only
      rw [hnomem hroom]
  · rw [if_pos halign]
    exact Or.inr ⟨fun hcond => halign hcond.1, .errno .EINVAL, by simp, rfl⟩

theorem Represents.call (c : Call) : ∃ m', Represents (call array c) m' := by
  cases c with
  | tryremove addr => exact ⟨_, (h.tryremoveArraystf addr).2⟩
  | tryinsert new nodeadp alloc copied_node =>
    have hnode : ∀ (new : Node Ptr) copied copied_node, m new.addr = none →
        new.addr.length < SIZE_MAX → ∃ m', Represents (insertNode array
          (locate new.addr (array.root (rootindex array new.addr)) (firstKeyval new.addr) []).1
          (locate new.addr (array.root (rootindex array new.addr)) (firstKeyval new.addr) []).2
          new alloc copied copied_node).array m' := by
      intro new copied copied_node hm hsmall
      rcases h.insertNode_cases hm hsmall alloc copied copied_node with
        ⟨-, heq⟩ | ⟨-, err, -, heq⟩
      · rw [heq]
        exact ⟨_, (h.tryinsertArraystf new none).2⟩
      · rw [heq]
        exact ⟨m, h⟩
    rw [Arraystf.call, tryinsertCall]
    by_cases hsmall : new.addr.length < SIZE_MAX
    · cases hm : m new.addr with
      | some n =>
        rw [h.find_some hm]
        exact ⟨m, h⟩
      | none =>
        rw [h.find_none hm hsmall]
        cases nodeadp with
        | none => exact hnode new [] copied_node hm hsmall
        | some nodeadp =>
          dsimp only
          cases nodeadp.newcopy (nodeadp.toObject new.object) with
          | failed err destobject => exact ⟨m, h⟩
          | ok destobject hne =>
            exact hnode { new with object := nodeadp.toMember destobject } _ _ hm hsmall
    · rw [findArraystf_of_not_lt hsmall]
      exact ⟨m, h⟩

end Call

theorem Reachable.represents {array : Arraystf Ptr} (h : Reachable array) :
    ∃ m, Represents array m := by
  obtain ⟨toplevelsize, array₀, calls, hnew, rfl⟩ := h
  have hrun : ∀ (calls : List Call) (array : Arraystf Ptr), (∃ m, Represents array m) →
      ∃ m, Represents (List.foldl call array calls) m := by
    intro calls
    induction calls with
    | nil => exact fun array hrep => hrep
    | cons c calls ih =>
      rintro array ⟨m, hrep⟩
      exact ih _ (hrep.call c)
  exact hrun calls array₀ ⟨_, represents_newArraystf hnew⟩

/-! ## The cleanup -/

theorem atomicOnError_of_found {array : Arraystf Ptr} {new : Node Ptr}
    (hfind : (findArraystf array new.addr).1 ≠ some .ESRCH) (nodeadp : Option Adapter)
    (alloc : Bool) : AtomicOnError array new nodeadp alloc := by
  intro copied_node err herr hne
  unfold tryinsertCall at herr ⊢
  rcases hf : findArraystf array new.addr with ⟨e, fs, found⟩
  rw [hf] at herr hfind
  cases e with
  | none =>
    cases herr
    exact absurd rfl hne
  | some e =>
    cases e with
    | ESRCH => exact absurd rfl hfind
    | _ => exact ⟨rfl, rfl, rfl⟩

theorem deleted_onError (array : Arraystf Ptr) (err : Error) (copied : List Ptr)
    {copied_node : Ptr} (hne : copied_node ≠ 0) :
    (onError array err copied copied_node).deleted = [copied_node] := if_pos hne

theorem deleted_onError_zero (array : Arraystf Ptr) (err : Error) (copied : List Ptr) :
    (onError array err copied 0).deleted = [] := rfl

/-- **The cleanup of `tryinsert_arraystf`.** A call that fails is atomic for every value of the
local variable `copied_node` if and only if the code at `ONERR` is not reached before this variable
is set. -/
theorem atomicOnError_iff {array : Arraystf Ptr} (h : Reachable array) (new : Node Ptr)
    (nodeadp : Option Adapter) (alloc : Bool) :
    AtomicOnError array new nodeadp alloc ↔ CleanupKnows array new nodeadp alloc := by
  obtain ⟨m, hrep⟩ := h.represents
  by_cases hfind : (findArraystf array new.addr).1 = some .ESRCH
  swap
  · exact iff_of_true (atomicOnError_of_found hfind nodeadp alloc) fun h => absurd h hfind
  obtain ⟨hsmall, hm⟩ : new.addr.length < SIZE_MAX ∧ m new.addr = none := by
    by_cases hsmall : new.addr.length < SIZE_MAX
    · cases hm : m new.addr with
      | none => exact ⟨hsmall, rfl⟩
      | some n =>
        rw [hrep.find_some hm] at hfind
        cases hfind
    · rw [findArraystf_of_not_lt hsmall] at hfind
      cases hfind
  cases nodeadp with
  | none =>
    have hcall : ∀ copied_node, tryinsertCall array new none alloc copied_node =
        insertNode array (locate new.addr (array.root (rootindex array new.addr))
          (firstKeyval new.addr) []).1 (locate new.addr (array.root (rootindex array new.addr))
          (firstKeyval new.addr) []).2 new alloc [] copied_node := by
      intro copied_node
      rw [tryinsertCall, hrep.find_none hm hsmall]
    constructor
    · intro hatomic _
      rcases hrep.insertNode_cases hm hsmall alloc [] 1 with ⟨hcond, -⟩ | ⟨-, err, hne, heq⟩
      · exact hcond
      · -- the value 1 is taken for a copy
        rw [← hcall] at heq
        have hdel := (hatomic 1 err (by rw [heq]; rfl) hne).2.2
        rw [heq, deleted_onError array err [] (by decide)] at hdel
        cases hdel
    · intro hknows copied_node err herr hne
      rcases hrep.insertNode_cases hm hsmall alloc [] copied_node with
        ⟨-, heq⟩ | ⟨hcond, -⟩
      · rw [hcall, heq] at herr
        cases herr
      · exact absurd (hknows hfind) hcond
  | some nodeadp =>
    cases hcopy : nodeadp.newcopy (nodeadp.toObject new.object) with
    | failed err destobject =>
      have hcall : ∀ copied_node, tryinsertCall array new (some nodeadp) alloc copied_node =
          onError array err [] (destobject.getD copied_node) := by
        intro copied_node
        rw [tryinsertCall, hrep.find_none hm hsmall]
        dsimp only
        rw [hcopy]
      constructor
      · intro hatomic _ err' destobject' hcopy'
        cases hcopy.symm.trans hcopy'
        by_cases hexist : err = .errno .EEXIST
        · exact Or.inr hexist
        · have hdel := (hatomic 1 err (by rw [hcall]; rfl) hexist).2.2
          rw [hcall] at hdel
          by_cases hzero : destobject.getD 1 = 0
          · cases destobject with
            | none => cases hzero
            | some p => exact Or.inl (congrArg some hzero)
          · rw [deleted_onError array err [] hzero] at hdel
            cases hdel
      · intro hknows copied_node err' herr hne
        rw [hcall] at herr ⊢
        cases herr
        rcases hknows hfind err destobject hcopy with rfl | hexist
        · exact ⟨rfl, rfl, deleted_onError_zero array err []⟩
        · exact absurd hexist hne
    | ok destobject hne =>
      have hcall : ∀ copied_node, tryinsertCall array new (some nodeadp) alloc copied_node =
          insertNode array (locate new.addr (array.root (rootindex array new.addr))
            (firstKeyval new.addr) []).1 (locate new.addr (array.root (rootindex array new.addr))
            (firstKeyval new.addr) []).2 { new with object := nodeadp.toMember destobject } alloc
            [destobject] destobject := by
        intro copied_node
        rw [tryinsertCall, hrep.find_none hm hsmall]
        dsimp only
        rw [hcopy]
      refine iff_of_true (fun copied_node err herr _ => ?_) fun _ err destobject' hcopy' => ?_
      · have hm' : m ({ new with object := nodeadp.toMember destobject } : Node Ptr).addr = none :=
          hm
        rcases hrep.insertNode_cases hm' hsmall alloc [destobject] destobject with
          ⟨-, heq⟩ | ⟨-, err', -, heq⟩
        · rw [hcall, heq] at herr
          cases herr
        · rw [hcall, heq]
          exact ⟨rfl, rfl, deleted_onError array err' [destobject] hne⟩
      · cases hcopy.symm.trans hcopy'

/-- The node of a second key is at an odd address, and there is no adapter. -/
theorem atomicOnError_iff_odd :
    AtomicOnError (call ⟨0, 1, 24, fun _ => null⟩ (.tryinsert ⟨[1], 16⟩ none true 0)) ⟨[2], 17⟩
        none true ↔
      CleanupKnows (call ⟨0, 1, 24, fun _ => null⟩ (.tryinsert ⟨[1], 16⟩ none true 0)) ⟨[2], 17⟩
        none true :=
  atomicOnError_iff ⟨1, _, [.tryinsert ⟨[1], 16⟩ none true 0], rfl, rfl⟩ _ _ _

/-- A misaligned node, without an adapter: the delete service is called for whatever `copied_node`
holds. -/
theorem atomicOnError_not :
    ∃ array, Reachable array ∧ ¬ AtomicOnError array ⟨[1], 17⟩ none true ∧
      (tryinsertCall array ⟨[1], 17⟩ none true 1).err = some (.errno .EINVAL) ∧
      (tryinsertCall array ⟨[1], 17⟩ none true 1).copied = [] ∧
      (tryinsertCall array ⟨[1], 17⟩ none true 1).deleted = [1] := by
  refine ⟨⟨0, 1, 24, fun _ => null⟩, ⟨1, _, [], rfl, rfl⟩, fun hatomic => ?_, by decide,
    by decide, by decide⟩
  have := (hatomic 1 (.errno .EINVAL) (by decide) (by simp)).2.2
  exact absurd this (by decide)

end Arraystf
end CKern
