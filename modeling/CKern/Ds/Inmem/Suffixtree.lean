import Mathlib.Data.List.GetD
import Mathlib.Data.List.Infix
import Mathlib.Data.List.TakeDrop
import Mathlib.Logic.Function.Basic
import CKern.Library.CompactTrie
import Mathlib.Algebra.Order.Ring.Nat

/-!
# `ds/inmem/suffixtree.c`: the construction of a suffix tree

* `Suffixtree`: the tree, with its nodes in a memory that is addressed by numbers.
* `addcharSuffixtree`, `buildSuffixtree`: the construction.
* `Inv`: the tree is the compact trie of the first `j` suffixes, each of them with an end-marker.
* `Ready`: the position in the tree is that of the part of suffix `j` that has been read.
* `IsSuffixTree`, `build_isSuffixTree`: what a suffix tree is, and that one is built.
-/

namespace CKern

open Function CompactTrie Trie

/-! ## The data -/

namespace Suffixtree

/-- The error codes of the module. -/
inductive Errno
  | EINVAL
  | ESRCH
  deriving DecidableEq, Repr

/-- Why there is no result: an error code, or a null pointer that is read or a loop that takes more
turns than it has been given. -/
inductive Failure
  | errno (err : Errno)
  | undefined
  deriving DecidableEq, Repr

/-- `suffixtree_node_t`, or `suffixtree_leaf_t`, which has no children and no suffix link.  The
lowest bit of `strSize` tells them apart, and `strStart` is an offset into the text. -/
structure Node where
  strStart : ℕ
  strSize : ℕ
  childs : List ℕ
  suffixLink : Option ℕ
  deriving DecidableEq, Repr

/-- `suffixtree_pos_t`. -/
structure Pos where
  matchedLen : ℕ
  node : Option ℕ
  parent : Option ℕ
  deriving DecidableEq, Repr

end Suffixtree

/-- `suffixtree_t`, with the memory of its nodes, of which those below `used` are allocated.  The
root is the null pointer. -/
structure Suffixtree where
  childs : List ℕ
  maxlength : ℕ
  nodes : ℕ → Suffixtree.Node
  used : ℕ

namespace Suffixtree

/-- `SIZE_MAX`. -/
def SIZE_MAX : ℕ := 2 ^ 64 - 1

/-- `suffixtree_FREE`. -/
def free : Suffixtree := ⟨[], 0, fun _ => ⟨0, 0, [], none⟩, 0⟩

namespace Node

/-- `ISLEAF`. -/
def isLeaf (n : Node) : Bool := n.strSize % 2 = 1

/-- `STR_SIZE`. -/
def size (n : Node) : ℕ := n.strSize / 2

/-- `INIT_AS_NODE`. -/
def initAsNode (len start : ℕ) (childs : List ℕ) (suffixLink : Option ℕ) : Node :=
  ⟨start, 2 * len, childs, suffixLink⟩

/-- `INIT_AS_LEAF`. -/
def initAsLeaf (len start : ℕ) : Node := ⟨start, 2 * len + 1, [], none⟩

/-- `SKIP_STR_BYTES`. -/
def skipStrBytes (n : Node) (add : ℕ) : Node :=
  { n with strStart := n.strStart + add, strSize := n.strSize - 2 * add }

end Node

variable (text : List UInt8)

/-- A byte of the text. -/
def charAt (addr : ℕ) : ℕ := (text.getD addr 0).toNat

/-- The first character of a node, or the end-marker. -/
def firstChar (n : Node) : ℕ := if n.size ≠ 0 then charAt text n.strStart else 256

/-! ## The construction -/

/-- The list of the children of a node, or of the root. -/
def childsOf (tree : Suffixtree) : Option ℕ → List ℕ
  | none => tree.childs
  | some v => (tree.nodes v).childs

/-- A new list of children. -/
def setChilds (tree : Suffixtree) (parent : Option ℕ) (childs : List ℕ) : Suffixtree :=
  match parent with
  | none => { tree with childs := childs }
  | some v => { tree with nodes := update tree.nodes v { tree.nodes v with childs := childs } }

/-- A new suffix link of a node; `none` is the dummy node. -/
def setSuffixLink (tree : Suffixtree) (node : Option ℕ) (link : Option ℕ) : Suffixtree :=
  match node with
  | none => tree
  | some v => { tree with nodes := update tree.nodes v { tree.nodes v with suffixLink := link } }

/-- `new_suffixtreenode`, `new_suffixtreeleaf`: a node at the address `used`. -/
def newNode (tree : Suffixtree) (n : Node) : Suffixtree :=
  { tree with nodes := update tree.nodes tree.used n, used := tree.used + 1 }

/-- `findchild_suffixtree`, where `none` is `ESRCH`. -/
def findchildSuffixtree (tree : Suffixtree) (parent : Option ℕ) (c : ℕ) : Option ℕ :=
  (childsOf tree parent).find? fun child => firstChar text (tree.nodes child) = c

/-- `insertchild_suffixtree`. -/
def insertchildSuffixtree (tree : Suffixtree) (parent : Option ℕ) (node : ℕ) : Suffixtree :=
  setChilds tree parent (node :: childsOf tree parent)

/-- The loop of `replacechild_suffixtree`. -/
def replaceIn (oldChild newChild : ℕ) : List ℕ → Option (List ℕ)
  | [] => none
  | node :: childs =>
    if node = oldChild then some (newChild :: childs)
    else (replaceIn oldChild newChild childs).map (node :: ·)

/-- `replacechild_suffixtree`. -/
def replacechildSuffixtree (tree : Suffixtree) (parent : Option ℕ) (oldChild newChild : ℕ) :
    Except Failure Suffixtree :=
  match replaceIn oldChild newChild (childsOf tree parent) with
  | none => .error (.errno .EINVAL)
  | some childs => .ok (setChilds tree parent childs)

/-- `splitnode_suffixtree`. -/
def splitnodeSuffixtree (tree : Suffixtree) (pos : Pos) : Except Failure (Suffixtree × Pos) :=
  match pos.node with
  | none => .error .undefined
  | some old =>
    let node := tree.used
    let tree := newNode tree (.initAsNode pos.matchedLen (tree.nodes old).strStart [old] none)
    match replacechildSuffixtree tree pos.parent old node with
    | .error err => .error err
    | .ok tree =>
      .ok ({ tree with
          nodes := update tree.nodes old ((tree.nodes old).skipStrBytes pos.matchedLen) },
        ⟨0, some node, pos.parent⟩)

/-- The first part of a turn of the loop of `addchar_suffixtree`: the tree, the position, the node
that was created last, and whether the character has been found. -/
def matchChar (nextChar : ℕ) (tree : Suffixtree) (pos : Pos) (lastCreated : Option ℕ) :
    Except Failure (Suffixtree × Pos × Option ℕ × Bool) :=
  if pos.matchedLen = 0 then
    let tree := setSuffixLink tree lastCreated pos.node
    match findchildSuffixtree text tree pos.node nextChar with
    | some child =>
      .ok (tree, ⟨if 1 < (tree.nodes child).size then 1 else 0, some child, pos.node⟩, none, true)
    | none =>
      -- no child: parent is wrong
      .ok (tree, ⟨0, pos.node, none⟩, none, false)
  else
    match pos.node with
    | none => .error .undefined
    | some v =>
      if nextChar = charAt text ((tree.nodes v).strStart + pos.matchedLen) then
        let matchedLen := pos.matchedLen + 1
        .ok (tree,
          { pos with matchedLen := if matchedLen = (tree.nodes v).size then 0 else matchedLen },
          lastCreated, true)
      else
        match splitnodeSuffixtree tree pos with
        | .error err => .error err
        | .ok (tree, pos) => .ok (setSuffixLink tree lastCreated pos.node, pos, pos.node, false)

/-- The second part of a turn: the leaf for the rest of the text, which starts at `addr`. -/
def createLeaf (tree : Suffixtree) (size addr : ℕ) (parent : Option ℕ) : Suffixtree :=
  -- except if root and end-marker
  if parent.isSome ∨ size ≠ 0 then
    insertchildSuffixtree (newNode tree (.initAsLeaf size addr)) parent tree.used
  else tree

/-- The loop of `addchar_suffixtree` that goes down the tree until `size` bytes are matched. -/
def goDown (tree : Suffixtree) (pos : Pos) : ℕ → Option ℕ → ℕ → ℕ → Except Failure Pos
  | 0, _, _, _ => .error .undefined
  | turns + 1, parent, size, addr =>
    match findchildSuffixtree text tree parent (charAt text addr) with
    | none => .error (.errno .ESRCH)
    | some node =>
      let nodelen := (tree.nodes node).size
      if (tree.nodes node).isLeaf ∨ size < nodelen then .ok ⟨size, some node, parent⟩
      else if nodelen = size then .ok ⟨pos.matchedLen, some node, parent⟩
      else goDown tree pos turns (some node) (size - nodelen) (addr + nodelen)

/-- The third part of a turn: the position of the next suffix, where `node` is that of this one. -/
def nextSuffix (turns : ℕ) (tree : Suffixtree) (pos : Pos) (node : ℕ) : Except Failure Pos :=
  match (tree.nodes node).suffixLink with
  | some link => .ok { pos with node := some link }
  | none =>
    let size := (tree.nodes node).size
    let addr := (tree.nodes node).strStart
    match pos.parent with
    | some parent => goDown text tree pos turns (tree.nodes parent).suffixLink size addr
    | none =>
      -- search from root
      if size - 1 = 0 then .ok { pos with node := none }
      else goDown text tree pos turns none (size - 1) (addr + 1)

/-- The loop of `addchar_suffixtree`. -/
def addcharLoop (nextChar size addr loopTurns : ℕ) :
    ℕ → Suffixtree → Pos → Option ℕ → Except Failure (Suffixtree × Pos)
  | 0, _, _, _ => .error .undefined
  | turns + 1, tree, pos, lastCreated =>
    match matchChar text nextChar tree pos lastCreated with
    | .error err => .error err
    | .ok (tree, pos, lastCreated, found) =>
      if found then .ok (tree, pos)
      else
        let tree := createLeaf tree size addr pos.node
        match pos.node with
        | none => .ok (tree, pos)
        | some node =>
          match nextSuffix text loopTurns tree pos node with
          | .error err => .error err
          | .ok pos => addcharLoop nextChar size addr loopTurns turns tree pos lastCreated

/-- `addchar_suffixtree` with the suffix of `size` bytes at `addr`. -/
def addcharSuffixtree (turns : ℕ) (tree : Suffixtree) (pos : Pos) (size addr : ℕ) :
    Except Failure (Suffixtree × Pos) :=
  let nextChar := if size ≠ 0 then charAt text addr else 256
  addcharLoop text nextChar size addr turns turns tree pos none

/-- The loop of `build_suffixtree`. -/
def buildLoop (turns : ℕ) : ℕ → ℕ → Suffixtree → Pos → Except Failure (Suffixtree × Pos)
  | 0, _, tree, pos => .ok (tree, pos)
  | size + 1, addr, tree, pos =>
    match addcharSuffixtree text turns tree pos (size + 1) addr with
    | .error err => .error err
    | .ok (tree, pos) => buildLoop turns size (addr + 1) tree pos

/-- `build_suffixtree`, where every loop is given a number of turns.  The nodes of the tree that
was there before are freed, and after an error the tree is empty. -/
def buildSuffixtree (turns : ℕ) : Except Failure Suffixtree :=
  if text.length = 0 ∨ SIZE_MAX / 2 < text.length then .error (.errno .EINVAL)
  else
    match buildLoop text turns text.length 0 free ⟨0, none, none⟩ with
    | .error err => .error err
    | .ok (tree, pos) =>
      if pos.node.isSome then
        -- add end-marker so all positions of suffixes are remembered in leaf nodes
        match addcharSuffixtree text turns tree pos 0 text.length with
        | .error err => .error err
        | .ok (tree, _) => .ok { tree with maxlength := text.length }
      else .ok { tree with maxlength := text.length }

/-! ## The strings of the nodes -/

/-- The text with the end-marker. -/
def marked : List ℕ := text.map UInt8.toNat ++ [256]

/-- The string of a node, with the end-marker if it is a leaf. -/
def label (n : Node) : List ℕ :=
  ((text.drop n.strStart).take n.size).map UInt8.toNat ++ if n.isLeaf then [256] else []

/-- The node is that of a piece of the text, which is its end if it is a leaf. -/
structure Node.Fits (n : Node) : Prop where
  le : n.strStart + n.size ≤ text.length
  leaf : n.isLeaf = true → n.strStart + n.size = text.length

@[simp] theorem Node.isLeaf_initAsNode (len start : ℕ) (childs : List ℕ) (link : Option ℕ) :
    (Node.initAsNode len start childs link).isLeaf = false := by
  simp [Node.isLeaf, Node.initAsNode]

@[simp] theorem Node.size_initAsNode (len start : ℕ) (childs : List ℕ) (link : Option ℕ) :
    (Node.initAsNode len start childs link).size = len := by
  simp [Node.size, Node.initAsNode]

@[simp] theorem Node.isLeaf_initAsLeaf (len start : ℕ) :
    (Node.initAsLeaf len start).isLeaf = true := by
  simp [Node.isLeaf, Node.initAsLeaf]

@[simp] theorem Node.size_initAsLeaf (len start : ℕ) : (Node.initAsLeaf len start).size = len := by
  simp only [Node.size, Node.initAsLeaf]
  omega

@[simp] theorem Node.isLeaf_skipStrBytes (n : Node) {add : ℕ} (h : add ≤ n.size) :
    (n.skipStrBytes add).isLeaf = n.isLeaf := by
  have hmod : (n.strSize - 2 * add) % 2 = n.strSize % 2 := by
    simp only [Node.size] at h
    omega
  simp only [Node.isLeaf, Node.skipStrBytes, hmod]

@[simp] theorem Node.size_skipStrBytes (n : Node) (add : ℕ) :
    (n.skipStrBytes add).size = n.size - add := by
  simp only [Node.size, Node.skipStrBytes]
  omega

variable {text}

theorem length_marked : (marked text).length = text.length + 1 := by
  simp [marked]

theorem drop_marked {k : ℕ} (h : k ≤ text.length) :
    (marked text).drop k = (text.drop k).map UInt8.toNat ++ [256] := by
  rw [marked, List.drop_append_of_le_length (by simpa using h), List.map_drop]

theorem length_drop_marked (k : ℕ) :
    ((marked text).drop k).length = text.length + 1 - k := by
  rw [List.length_drop, length_marked]

theorem eq_of_prefix_drop {k l : ℕ} (hk : k ≤ text.length) (hl : l ≤ text.length)
    (h : (marked text).drop k <+: (marked text).drop l) : k = l := by
  by_contra hne
  have hlen := h.length_le
  rw [length_drop_marked, length_drop_marked] at hlen
  -- the marker is the last symbol of the shorter one, and no byte of the longer one
  obtain ⟨y, hy⟩ := h
  rw [drop_marked hk, drop_marked hl, List.append_assoc] at hy
  have hlt : text.length - k < ((text.drop l).map UInt8.toNat).length := by
    rw [List.length_map, List.length_drop]
    omega
  have h1 : ((text.drop l).map UInt8.toNat ++ [256])[text.length - k]? = some 256 := by
    rw [← hy, List.getElem?_append_right (by simp)]
    simp
  rw [List.getElem?_append_left hlt, List.getElem?_map] at h1
  obtain ⟨b, -, hb⟩ := Option.map_eq_some_iff.mp h1
  have := b.toNat_lt
  omega

theorem charAt_eq {i : ℕ} (h : i < text.length) :
    (marked text)[i]? = some (charAt text i) := by
  rw [marked, List.getElem?_append_left (by simpa using h), List.getElem?_map,
    List.getElem?_eq_getElem h, charAt, List.getD_eq_getElem _ _ h]
  rfl

theorem length_label (n : Node) (h : n.Fits text) :
    (label text n).length = n.size + if n.isLeaf then 1 else 0 := by
  have := h.le
  rw [label, List.length_append, List.length_map, List.length_take, List.length_drop,
    Nat.min_eq_left (by omega)]
  split_ifs <;> rfl

theorem label_eq (n : Node) (h : n.Fits text) :
    label text n = ((marked text).drop n.strStart).take (n.size + if n.isLeaf then 1 else 0) := by
  have hle := h.le
  rw [label, drop_marked (by omega), List.map_take]
  split_ifs with hleaf
  · have := h.leaf hleaf
    rw [List.take_of_length_le (by simp; omega), List.take_of_length_le (by simp; omega)]
  · rw [List.append_nil, Nat.add_zero, List.take_append_of_le_length (by simp; omega)]

theorem head_label (n : Node) (h : n.Fits text) {s : ℕ} {y : List ℕ} (hs : label text n = s :: y) :
    firstChar text n = s := by
  have hle := h.le
  by_cases hsize : n.size = 0
  · rw [label, hsize, List.take_zero, List.map_nil, List.nil_append] at hs
    rw [firstChar, if_neg (not_not.mpr hsize)]
    split_ifs at hs
    cases hs
    rfl
  · rw [firstChar, if_pos hsize]
    rw [label_eq n h] at hs
    have h0 : (s :: y)[0]? = (marked text)[n.strStart]? := by
      rw [← hs, List.getElem?_take_of_lt (by omega), List.getElem?_drop, Nat.add_zero]
    rw [charAt_eq (by omega)] at h0
    exact (Option.some_inj.mp h0).symm

theorem label_initAsNode (n : Node) {len : ℕ} (h : len ≤ n.size) (hf : n.Fits text)
    (childs : List ℕ) (link : Option ℕ) :
    label text (.initAsNode len n.strStart childs link) = (label text n).take len := by
  have hle := hf.le
  rw [label, Node.isLeaf_initAsNode, Node.size_initAsNode, if_neg Bool.false_ne_true,
    List.append_nil, label, List.take_append_of_le_length (by simp; omega), ← List.map_take,
    List.take_take, Nat.min_eq_left h]
  rfl

theorem label_skipStrBytes (n : Node) {add : ℕ} (h : add ≤ n.size) (hf : n.Fits text) :
    label text (n.skipStrBytes add) = (label text n).drop add := by
  have hle := hf.le
  rw [label, Node.isLeaf_skipStrBytes n h, Node.size_skipStrBytes, label,
    List.drop_append_of_le_length (by simp; omega), ← List.map_drop, List.drop_take,
    List.drop_drop]
  rfl

theorem Node.Fits.skipStrBytes {n : Node} {add : ℕ} (h : add ≤ n.size) (hf : n.Fits text) :
    (n.skipStrBytes add).Fits text := by
  have hle := hf.le
  refine ⟨?_, fun hleaf => ?_⟩
  · rw [Node.size_skipStrBytes]
    change n.strStart + add + (n.size - add) ≤ text.length
    omega
  · rw [Node.isLeaf_skipStrBytes n h] at hleaf
    have := hf.leaf hleaf
    rw [Node.size_skipStrBytes]
    change n.strStart + add + (n.size - add) = text.length
    omega

theorem label_initAsLeaf {i : ℕ} (hi : i ≤ text.length) :
    label text (.initAsLeaf (text.length - i) i) = (marked text).drop i := by
  rw [label, Node.isLeaf_initAsLeaf, Node.size_initAsLeaf, if_pos rfl, drop_marked hi]
  change ((text.drop i).take (text.length - i)).map UInt8.toNat ++ [256] = _
  rw [List.take_of_length_le (by simp)]

theorem fits_initAsLeaf {i : ℕ} (hi : i ≤ text.length) :
    (Node.initAsLeaf (text.length - i) i).Fits text := by
  refine ⟨?_, fun _ => ?_⟩
  · rw [Node.size_initAsLeaf]
    exact (Nat.add_sub_cancel' hi).le
  · rw [Node.size_initAsLeaf]
    exact Nat.add_sub_cancel' hi

/-! ## The operations on the tree -/

/-- The tree, if `path` is the string that leads to each node. -/
def trieOf (tree : Suffixtree) (path : Option ℕ → List ℕ) : Trie ℕ ℕ :=
  ⟨{v | v < tree.used}, childsOf tree, path⟩

@[simp] theorem childsOf_setSuffixLink (tree : Suffixtree) (node link q : Option ℕ) :
    childsOf (setSuffixLink tree node link) q = childsOf tree q := by
  cases node with
  | none => rfl
  | some v =>
    cases q with
    | none => rfl
    | some w =>
      by_cases hw : w = v
      · subst hw
        simp [childsOf, setSuffixLink]
      · simp [childsOf, setSuffixLink, hw]

@[simp] theorem used_setSuffixLink (tree : Suffixtree) (node link : Option ℕ) :
    (setSuffixLink tree node link).used = tree.used := by
  cases node <;> rfl

theorem nodes_setSuffixLink (tree : Suffixtree) (node link : Option ℕ) (v : ℕ) :
    ∃ l, (setSuffixLink tree node link).nodes v = { tree.nodes v with suffixLink := l } ∧
      l = if node = some v then link else (tree.nodes v).suffixLink := by
  cases node with
  | none => exact ⟨(tree.nodes v).suffixLink, rfl, by simp⟩
  | some w =>
    by_cases hv : v = w
    · subst hv
      exact ⟨link, by simp [setSuffixLink], by simp⟩
    · exact ⟨(tree.nodes v).suffixLink, by simp [setSuffixLink, hv], by simp [Ne.symm hv]⟩

theorem trieOf_setSuffixLink (tree : Suffixtree) (node link : Option ℕ)
    (path : Option ℕ → List ℕ) : trieOf (setSuffixLink tree node link) path = trieOf tree path := by
  have : childsOf (setSuffixLink tree node link) = childsOf tree :=
    funext fun q => childsOf_setSuffixLink tree node link q
  rw [trieOf, trieOf, used_setSuffixLink, this]

/-- The root or an allocated node. -/
def Allocated (tree : Suffixtree) (v : Option ℕ) : Prop := ∀ d, v = some d → d < tree.used

theorem mem_trieOf {tree : Suffixtree} {path : Option ℕ → List ℕ} {v : Option ℕ} :
    (trieOf tree path).Mem v ↔ Allocated tree v := by
  cases v with
  | none => exact ⟨fun _ d hd => absurd hd (by simp), fun _ => True.intro⟩
  | some d => exact ⟨fun h e he => Option.some_inj.mp he ▸ h, fun h => h d rfl⟩

theorem childsOf_setChilds (tree : Suffixtree) (parent q : Option ℕ) (childs : List ℕ) :
    childsOf (setChilds tree parent childs) q = update (childsOf tree) parent childs q := by
  cases parent with
  | none =>
    cases q with
    | none => rfl
    | some w => rfl
  | some v =>
    cases q with
    | none => rfl
    | some w =>
      by_cases hw : w = v
      · subst hw
        simp [childsOf, setChilds]
      · simp [childsOf, setChilds, hw]

theorem childsOf_newNode (tree : Suffixtree) (n : Node) (q : Option ℕ) :
    childsOf (newNode tree n) q = update (childsOf tree) (some tree.used) n.childs q := by
  cases q with
  | none => rfl
  | some w =>
    by_cases hw : w = tree.used
    · subst hw
      simp [childsOf, newNode]
    · simp [childsOf, newNode, hw]

theorem nodes_setChilds (tree : Suffixtree) (parent : Option ℕ) (childs : List ℕ) (v : ℕ) :
    ∃ cs, (setChilds tree parent childs).nodes v = { tree.nodes v with childs := cs } := by
  cases parent with
  | none => exact ⟨(tree.nodes v).childs, rfl⟩
  | some w =>
    by_cases hv : v = w
    · subst hv
      exact ⟨childs, by simp [setChilds]⟩
    · exact ⟨(tree.nodes v).childs, by simp [setChilds, hv]⟩

theorem used_setChilds (tree : Suffixtree) (parent : Option ℕ) (childs : List ℕ) :
    (setChilds tree parent childs).used = tree.used := by
  cases parent <;> rfl

/-- What `createLeaf` does unless it is called for the root and the end-marker. -/
structure LeafCreated (tree : Suffixtree) (size addr : ℕ) (parent : Option ℕ)
    (tree' : Suffixtree) : Prop where
  used : tree'.used = tree.used + 1
  trie : ∀ path w, trieOf tree' (update path (some tree.used) w) =
    (trieOf tree path).addLeaf parent tree.used w
  leaf : tree'.nodes tree.used = .initAsLeaf size addr
  nodes : ∀ v < tree.used, ∃ cs, tree'.nodes v = { tree.nodes v with childs := cs }

theorem createLeaf_spec {tree : Suffixtree} {size : ℕ} (addr : ℕ) {parent : Option ℕ}
    (hp : Allocated tree parent) (h : parent.isSome ∨ size ≠ 0) :
    LeafCreated tree size addr parent (createLeaf tree size addr parent) := by
  rw [createLeaf, if_pos h, insertchildSuffixtree]
  have hne : parent ≠ some tree.used := fun heq => Nat.lt_irrefl _ (hp _ heq)
  refine ⟨?_, fun path w => ?_, ?_, fun v hv => ?_⟩
  · rw [used_setChilds]
    rfl
  · refine congrArg₂ (fun s c => Trie.mk s c (update path (some tree.used) w)) ?_ (funext fun q => ?_)
    · rw [used_setChilds]
      ext v
      change v < tree.used + 1 ↔ v = tree.used ∨ v < tree.used
      omega
    · rw [childsOf_setChilds, childsOf_newNode, update_of_ne hne]
      change update (childsOf (newNode tree _)) parent _ q =
        update (update (childsOf tree) (some tree.used) []) parent _ q
      rw [show childsOf (newNode tree _) = update (childsOf tree) (some tree.used) [] from
        funext fun r => childsOf_newNode tree (.initAsLeaf size addr) r]
      rfl
  · cases parent with
    | none => exact update_self _ _ _
    | some p =>
      have hp' : tree.used ≠ p := (hp p rfl).ne'
      change update (newNode tree _).nodes p _ tree.used = _
      rw [update_of_ne hp']
      exact update_self _ _ _
  · obtain ⟨cs, hcs⟩ := nodes_setChilds (newNode tree (.initAsLeaf size addr)) parent
      (tree.used :: childsOf (newNode tree (.initAsLeaf size addr)) parent) v
    refine ⟨cs, hcs.trans ?_⟩
    rw [show (newNode tree (.initAsLeaf size addr)).nodes v = tree.nodes v from
      update_of_ne hv.ne _ _]

theorem replaceIn_eq {old : ℕ} (new : ℕ) {l : List ℕ} (hmem : old ∈ l) (hnodup : l.Nodup) :
    replaceIn old new l = some (l.map fun c => if c = old then new else c) := by
  induction l with
  | nil => exact absurd hmem List.not_mem_nil
  | cons c l ih =>
    rw [replaceIn, List.map_cons]
    rw [List.nodup_cons] at hnodup
    by_cases hc : c = old
    · subst hc
      rw [if_pos rfl, if_pos rfl]
      have hrest : (l.map fun d => if d = c then new else d) = l.map id := by
        refine List.map_congr_left fun d hd => if_neg ?_
        rintro rfl
        exact hnodup.1 hd
      rw [hrest, List.map_id]
    · rw [if_neg hc, if_neg hc, ih ((List.mem_cons.mp hmem).resolve_left (Ne.symm hc)) hnodup.2]
      rfl

/-- What `splitnode_suffixtree` does. -/
structure NodeSplit (tree : Suffixtree) (matchedLen old : ℕ) (parent : Option ℕ)
    (tree' : Suffixtree) : Prop where
  used : tree'.used = tree.used + 1
  trie : ∀ path x, trieOf tree' (update path (some tree.used) x) =
    (trieOf tree path).split parent old tree.used x
  node : ∃ cs, tree'.nodes tree.used =
    .initAsNode matchedLen (tree.nodes old).strStart cs none
  child : ∃ cs, tree'.nodes old = { (tree.nodes old).skipStrBytes matchedLen with childs := cs }
  nodes : ∀ v < tree.used, v ≠ old → ∃ cs, tree'.nodes v = { tree.nodes v with childs := cs }

theorem splitnode_spec {tree : Suffixtree} (matchedLen : ℕ) {old : ℕ} {parent : Option ℕ}
    (hp : Allocated tree parent) (hold : old < tree.used) (hmem : old ∈ childsOf tree parent)
    (hnodup : (childsOf tree parent).Nodup) :
    ∃ tree', splitnodeSuffixtree tree ⟨matchedLen, some old, parent⟩ =
        .ok (tree', ⟨0, some tree.used, parent⟩) ∧
      NodeSplit tree matchedLen old parent tree' := by
  have hne : parent ≠ some tree.used := fun heq => Nat.lt_irrefl _ (hp _ heq)
  set n := Node.initAsNode matchedLen (tree.nodes old).strStart [old] none with hn
  have hchilds : childsOf (newNode tree n) parent = childsOf tree parent := by
    rw [childsOf_newNode, update_of_ne hne]
  have hreplace := replaceIn_eq tree.used hmem hnodup
  set childs := (childsOf tree parent).map fun c => if c = old then tree.used else c
  set tree₁ := setChilds (newNode tree n) parent childs with htree₁
  have hnode₁ : ∀ v < tree.used, ∃ cs, tree₁.nodes v = { tree.nodes v with childs := cs } := by
    intro v hv
    obtain ⟨cs, hcs⟩ := nodes_setChilds (newNode tree n) parent childs v
    exact ⟨cs, hcs.trans (by rw [show (newNode tree n).nodes v = tree.nodes v from
      update_of_ne hv.ne _ _])⟩
  refine ⟨{ tree₁ with
    nodes := update tree₁.nodes old ((tree₁.nodes old).skipStrBytes matchedLen) }, ?_, ?_, ?_, ?_,
      ?_, ?_⟩
  · simp only [splitnodeSuffixtree, replacechildSuffixtree]
    rw [← hn, hchilds, hreplace]
  · change tree₁.used = _
    rw [htree₁, used_setChilds]
    rfl
  · intro path x
    refine congrArg₂ (fun s c => Trie.mk s c (update path (some tree.used) x)) ?_ (funext fun q => ?_)
    · ext v
      change v < tree₁.used ↔ v = tree.used ∨ v < tree.used
      rw [htree₁, used_setChilds]
      change v < tree.used + 1 ↔ _
      omega
    · have hskip : childsOf { tree₁ with
          nodes := update tree₁.nodes old ((tree₁.nodes old).skipStrBytes matchedLen) } q =
            childsOf tree₁ q := by
        cases q with
        | none => rfl
        | some w =>
          by_cases hw : w = old
          · subst hw
            simp [childsOf, Node.skipStrBytes]
          · simp [childsOf, hw]
      rw [hskip, htree₁, childsOf_setChilds,
        show childsOf (newNode tree n) = update (childsOf tree) (some tree.used) [old] from
          funext fun r => childsOf_newNode tree n r, update_comm hne]
      rfl
  · have hne' : tree.used ≠ old := hold.ne'
    obtain ⟨cs, hcs⟩ := nodes_setChilds (newNode tree n) parent childs tree.used
    refine ⟨cs, ?_⟩
    change update tree₁.nodes old _ tree.used = _
    rw [update_of_ne hne', htree₁, hcs]
    rw [show (newNode tree n).nodes tree.used = n from update_self _ _ _]
    rfl
  · obtain ⟨cs, hcs⟩ := hnode₁ old hold
    refine ⟨cs, ?_⟩
    change update tree₁.nodes old _ old = _
    rw [update_self, hcs]
    rfl
  · intro v hv hvo
    obtain ⟨cs, hcs⟩ := hnode₁ v hv
    refine ⟨cs, ?_⟩
    change update tree₁.nodes old _ v = _
    rw [update_of_ne hvo, hcs]

/-! ## The invariant of the tree -/

/-- The root or an allocated node that is no leaf. -/
def IsInner (tree : Suffixtree) (v : Option ℕ) : Prop :=
  ∀ d, v = some d → d < tree.used ∧ (tree.nodes d).isLeaf = false

theorem isInner_none (tree : Suffixtree) : IsInner tree none := fun d hd => absurd hd (by simp)

theorem isInner_some {tree : Suffixtree} {d : ℕ} (hd : d < tree.used)
    (hinner : (tree.nodes d).isLeaf = false) : IsInner tree (some d) := by
  intro e he
  cases he
  exact ⟨hd, hinner⟩

theorem IsInner.allocated {tree : Suffixtree} {v : Option ℕ} (h : IsInner tree v) :
    Allocated tree v := fun d hd => (h d hd).1

variable (text)

/-- The tree is the compact trie of the first `j` suffixes, where `path` leads to a node.  The node
`half` has just been made, and it may have one child only. -/
structure Inv (tree : Suffixtree) (path : Option ℕ → List ℕ) (j : ℕ) (half : Option ℕ) :
    Prop where
  valid : (trieOf tree path).Valid
  label : ∀ p c, Allocated tree p → c ∈ childsOf tree p →
    path (some c) = path p ++ label text (tree.nodes c)
  fits : ∀ v < tree.used, (tree.nodes v).Fits text
  leaf_childs : ∀ v < tree.used, (tree.nodes v).isLeaf = true → childsOf tree (some v) = []
  two_le : ∀ v < tree.used, (tree.nodes v).isLeaf = false → some v ≠ half →
    2 ≤ (childsOf tree (some v)).length
  half_childs : ∀ v, half = some v → childsOf tree (some v) ≠ []
  leaf : ∀ v < tree.used, (tree.nodes v).isLeaf = true →
    ∃ k < j, path (some v) = (marked text).drop k
  leaves : ∀ k < j, ∃ v < tree.used, (tree.nodes v).isLeaf = true ∧
    path (some v) = (marked text).drop k
  sound : ∀ v < tree.used, ∃ k < j, path (some v) <+: (marked text).drop k
  le : j ≤ text.length

variable {text}

namespace Inv

variable {tree : Suffixtree} {path : Option ℕ → List ℕ} {j : ℕ} {half : Option ℕ}
  (h : Inv text tree path j half)

include h

theorem path_none : path none = [] := h.valid.root

theorem lt_used {p : Option ℕ} {c : ℕ} (hp : Allocated tree p) (hc : c ∈ childsOf tree p) :
    c < tree.used := h.valid.mem p c (mem_trieOf.mpr hp) hc

theorem snoc_prefix_iff {p : Option ℕ} {c s : ℕ} (hp : Allocated tree p)
    (hc : c ∈ childsOf tree p) :
    path p ++ [s] <+: path (some c) ↔ firstChar text (tree.nodes c) = s := by
  obtain ⟨r, y, hy⟩ := h.valid.extend p c (mem_trieOf.mpr hp) hc
  change path p ++ [r] ++ y = path (some c) at hy
  have hlabel := h.label p c hp hc
  rw [← hy, List.append_assoc] at hlabel
  have hhead := head_label _ (h.fits c (h.lt_used hp hc)) (List.append_cancel_left hlabel).symm
  rw [hhead]
  constructor
  · intro hs
    exact (snoc_prefix_unique hs ⟨y, hy⟩).symm
  · rintro rfl
    exact ⟨y, hy⟩

theorem of_findchild {p : Option ℕ} {c s : ℕ} (hp : Allocated tree p)
    (hfind : findchildSuffixtree text tree p s = some c) :
    c ∈ childsOf tree p ∧ path p ++ [s] <+: path (some c) := by
  have hc := List.mem_of_find?_eq_some hfind
  refine ⟨hc, (h.snoc_prefix_iff hp hc).mpr ?_⟩
  have := List.find?_some hfind
  rwa [decide_eq_true_eq] at this

theorem findchild_eq {p : Option ℕ} {c s : ℕ} (hp : Allocated tree p) (hc : c ∈ childsOf tree p)
    (hs : path p ++ [s] <+: path (some c)) : findchildSuffixtree text tree p s = some c := by
  cases hfind : findchildSuffixtree text tree p s with
  | none =>
    have := List.find?_eq_none.mp hfind c hc
    rw [decide_eq_true_eq] at this
    exact absurd ((h.snoc_prefix_iff hp hc).mp hs) this
  | some d =>
    obtain ⟨hd, hsd⟩ := h.of_findchild hp hfind
    rw [h.valid.distinct p c d s (mem_trieOf.mpr hp) hc hd hs hsd]

theorem of_findchild_none {p : Option ℕ} {s : ℕ} (hp : Allocated tree p)
    (hfind : findchildSuffixtree text tree p s = none) :
    ∀ q < tree.used, ¬ path p ++ [s] <+: path (some q) := by
  intro q hq hs
  obtain ⟨c, hc, hsc, -⟩ := h.valid.exists_child (mem_trieOf.mpr hp) hq hs
  rw [h.findchild_eq hp hc hsc] at hfind
  exact absurd hfind (by simp)

theorem path_ne_nil {v : ℕ} (hv : v < tree.used) : path (some v) ≠ [] := by
  obtain ⟨p, hp, hc⟩ := h.valid.parent v hv
  obtain ⟨s, hs⟩ := h.valid.extend p v hp hc
  intro hnil
  have := length_lt_of_snoc hs
  change _ < (path (some v)).length at this
  rw [hnil] at this
  exact Nat.not_lt_zero _ this

theorem isInner {p : Option ℕ} {c : ℕ} (hp : Allocated tree p) (hc : c ∈ childsOf tree p) :
    IsInner tree p := by
  rintro d rfl
  refine ⟨hp d rfl, ?_⟩
  cases hleaf : (tree.nodes d).isLeaf with
  | false => rfl
  | true =>
    rw [h.leaf_childs d (hp d rfl) hleaf] at hc
    exact absurd hc List.not_mem_nil

theorem relink (node link : Option ℕ) :
    Inv text (setSuffixLink tree node link) path j half := by
  have hnodes : ∀ v, ((setSuffixLink tree node link).nodes v).isLeaf = (tree.nodes v).isLeaf ∧
      Suffixtree.label text ((setSuffixLink tree node link).nodes v) =
        Suffixtree.label text (tree.nodes v) ∧
      (((setSuffixLink tree node link).nodes v).Fits text ↔ (tree.nodes v).Fits text) := by
    intro v
    obtain ⟨l, hl, -⟩ := nodes_setSuffixLink tree node link v
    rw [hl]
    exact ⟨rfl, rfl, fun hf => ⟨hf.le, hf.leaf⟩, fun hf => ⟨hf.le, hf.leaf⟩⟩
  have hchilds := childsOf_setSuffixLink tree node link
  have hused := used_setSuffixLink tree node link
  refine ⟨?_, fun p c hp hc => ?_, fun v hv => ?_, fun v hv => ?_, fun v hv => ?_, fun v hv => ?_,
    fun v hv => ?_, fun k hk => ?_, fun v hv => ?_, h.le⟩
  · rw [trieOf_setSuffixLink]
    exact h.valid
  · rw [(hnodes c).2.1]
    rw [hchilds] at hc
    exact h.label p c (fun d hd => hused ▸ hp d hd) hc
  · exact (hnodes v).2.2.mpr (h.fits v (hused ▸ hv))
  · rw [(hnodes v).1, hchilds]
    exact h.leaf_childs v (hused ▸ hv)
  · rw [(hnodes v).1, hchilds]
    exact h.two_le v (hused ▸ hv)
  · rw [hchilds]
    exact h.half_childs v hv
  · rw [(hnodes v).1]
    exact h.leaf v (hused ▸ hv)
  · obtain ⟨v, hv, hleaf, hpath⟩ := h.leaves k hk
    exact ⟨v, hused.symm ▸ hv, (hnodes v).1.trans hleaf, hpath⟩
  · exact h.sound v (hused ▸ hv)

end Inv

/-- **A new leaf.** Where suffix `j` leaves the tree, it gets a leaf. -/
theorem Inv.createLeaf {tree tree' : Suffixtree} {path : Option ℕ → List ℕ} {i j s : ℕ}
    {u half : Option ℕ} (h : Inv text tree path j half)
    (hcreated : LeafCreated tree (text.length - i) i u tree') (hu : IsInner tree u)
    (hhalf : half = none ∨ half = u) (hi : i ≤ text.length)
    (hpath : (marked text).drop j = path u ++ (marked text).drop i)
    (hs : (marked text)[i]? = some s) (hle : j + 1 ≤ text.length)
    (hfree : ∀ q < tree.used, ¬ path u ++ [s] <+: path (some q)) :
    Inv text tree' (update path (some tree.used) ((marked text).drop j)) (j + 1) none := by
  set w := (marked text).drop j with hw
  have hmemu : (trieOf tree path).Mem u := mem_trieOf.mpr hu.allocated
  have hnew : tree.used ∉ (trieOf tree path).nodes := fun hlt => Nat.lt_irrefl _ hlt
  have htrie := hcreated.trie path w
  have hsw : path u ++ [s] <+: w := by
    have hdrop : (marked text).drop i = s :: (marked text).drop (i + 1) := by
      obtain ⟨hlt, hget⟩ := List.getElem?_eq_some_iff.mp hs
      rw [List.drop_eq_getElem_cons hlt, hget]
    rw [hpath, hdrop]
    exact ⟨(marked text).drop (i + 1), by simp⟩
  have hvalid := h.valid.addLeaf hmemu hnew hsw hfree
  -- the children of the new tree
  have hchildsleaf : childsOf tree' (some tree.used) = [] :=
    (congrFun (congrArg Trie.childs htrie) _).trans
      (childs_addLeaf_leaf _ w (ne_of_mem hnew hmemu))
  have hchildsu : childsOf tree' u = tree.used :: childsOf tree u :=
    (congrFun (congrArg Trie.childs htrie) u).trans (childs_addLeaf_self _ w)
  have hchilds : ∀ {p}, Allocated tree p → p ≠ u → childsOf tree' p = childsOf tree p :=
    fun hp hpu => (congrFun (congrArg Trie.childs htrie) _).trans
      (childs_addLeaf _ w hnew (mem_trieOf.mpr hp) hpu)
  have hold : ∀ {p : Option ℕ}, Allocated tree p → update path (some tree.used) w p = path p :=
    fun hp => update_of_ne (ne_of_mem hnew (mem_trieOf.mpr hp)) _ _
  have holdv : ∀ {v}, v < tree.used → update path (some tree.used) w (some v) = path (some v) :=
    fun hv => hold fun d hd => Option.some_inj.mp hd ▸ hv
  have hself : update path (some tree.used) w (some tree.used) = w := update_self _ _ _
  have hnode : ∀ {v}, v < tree.used → (tree'.nodes v).isLeaf = (tree.nodes v).isLeaf ∧
      Suffixtree.label text (tree'.nodes v) = Suffixtree.label text (tree.nodes v) ∧
      (tree'.nodes v).Fits text := by
    intro v hv
    obtain ⟨cs, hcs⟩ := hcreated.nodes v hv
    rw [hcs]
    exact ⟨rfl, rfl, ⟨(h.fits v hv).le, (h.fits v hv).leaf⟩⟩
  have hleaf := hcreated.leaf
  have hcases : ∀ {v}, v < tree'.used → v = tree.used ∨ v < tree.used := by
    intro v hv
    rw [hcreated.used] at hv
    omega
  have hcasesp : ∀ {p}, Allocated tree' p → p = some tree.used ∨ Allocated tree p := by
    intro p hp
    have hmem : (trieOf tree' (update path (some tree.used) w)).Mem p := mem_trieOf.mpr hp
    rw [htrie, mem_addLeaf] at hmem
    exact hmem.imp_right mem_trieOf.mp
  refine ⟨htrie ▸ hvalid, fun p c hp hc => ?_, fun v hv => ?_, fun v hv hvl => ?_,
    fun v hv hvl _ => ?_, fun v hv => absurd hv (by simp), fun v hv hvl => ?_, fun k hk => ?_,
    fun v hv => ?_, hle⟩
  · rcases hcasesp hp with rfl | hp
    · rw [hchildsleaf] at hc
      exact absurd hc List.not_mem_nil
    · rw [hold hp]
      by_cases hcu : c ∈ childsOf tree p
      · have hlt := h.lt_used hp hcu
        rw [holdv hlt, (hnode hlt).2.1]
        exact h.label p c hp hcu
      · obtain rfl : p = u := by
          by_contra hpu
          rw [hchilds hp hpu] at hc
          exact hcu hc
        rw [hchildsu] at hc
        obtain rfl := (List.mem_cons.mp hc).resolve_right hcu
        rw [hself, hleaf, label_initAsLeaf hi]
        exact hpath
  · rcases hcases hv with rfl | hv
    · rw [hleaf]
      exact fits_initAsLeaf hi
    · exact (hnode hv).2.2
  · rcases hcases hv with rfl | hv
    · exact hchildsleaf
    · rw [(hnode hv).1] at hvl
      rw [hchilds (fun d hd => Option.some_inj.mp hd ▸ hv), h.leaf_childs v hv hvl]
      rintro rfl
      rw [(hu v rfl).2] at hvl
      exact absurd hvl Bool.false_ne_true
  · rcases hcases hv with rfl | hv
    · rw [hleaf, Node.isLeaf_initAsLeaf] at hvl
      exact absurd hvl (by simp)
    · rw [(hnode hv).1] at hvl
      by_cases hvu : some v = u
      · subst hvu
        rw [hchildsu, List.length_cons]
        by_cases hv' : some v = half
        · exact Nat.succ_le_succ (List.length_pos_of_ne_nil (h.half_childs v hv'.symm))
        · exact (h.two_le v hv hvl hv').trans (Nat.le_succ _)
      · rw [hchilds (fun d hd => Option.some_inj.mp hd ▸ hv) hvu]
        refine h.two_le v hv hvl fun hv' => ?_
        rcases hhalf with rfl | rfl
        · exact absurd hv' (by simp)
        · exact hvu hv'
  · rcases hcases hv with rfl | hv
    · exact ⟨j, Nat.lt_succ_self j, hself⟩
    · rw [(hnode hv).1] at hvl
      obtain ⟨k, hk, hkv⟩ := h.leaf v hv hvl
      exact ⟨k, Nat.lt_succ_of_lt hk, (holdv hv).trans hkv⟩
  · rcases Nat.lt_succ_iff_lt_or_eq.mp hk with hk | rfl
    · obtain ⟨v, hv, hvl, hkv⟩ := h.leaves k hk
      refine ⟨v, ?_, (hnode hv).1.trans hvl, (holdv hv).trans hkv⟩
      rw [hcreated.used]
      exact Nat.lt_succ_of_lt hv
    · refine ⟨tree.used, ?_, ?_, hself⟩
      · rw [hcreated.used]
        exact Nat.lt_succ_self _
      · rw [hleaf, Node.isLeaf_initAsLeaf]
  · rcases hcases hv with rfl | hv
    · exact ⟨j, Nat.lt_succ_self j, by rw [hself]⟩
    · obtain ⟨k, hk, hkv⟩ := h.sound v hv
      exact ⟨k, Nat.lt_succ_of_lt hk, by rwa [holdv hv]⟩

/-- **A new node.** A node in the middle of an edge keeps the tree in order, but for the number of
its children. -/
theorem Inv.splitnode {tree tree' : Suffixtree} {path : Option ℕ → List ℕ} {j m old : ℕ}
    {p : Option ℕ} (h : Inv text tree path j none) (hp : IsInner tree p)
    (hold : old ∈ childsOf tree p) (hm : 0 < m) (hlt : m < (tree.nodes old).size)
    (hsplit : NodeSplit tree m old p tree') :
    Inv text tree' (update path (some tree.used)
      (path p ++ (Suffixtree.label text (tree.nodes old)).take m)) j (some tree.used) := by
  have holdlt := h.lt_used hp.allocated hold
  have hfits := h.fits old holdlt
  have hlabel := h.label p old hp.allocated hold
  set l := Suffixtree.label text (tree.nodes old) with hl
  set x := path p ++ l.take m with hx
  have hlen : m < l.length := by
    rw [hl, length_label _ hfits]
    omega
  have hmemp : (trieOf tree path).Mem p := mem_trieOf.mpr hp.allocated
  have hnew : tree.used ∉ (trieOf tree path).nodes := fun hlt => Nat.lt_irrefl _ hlt
  have htrie := hsplit.trie path x
  obtain ⟨s, hs⟩ : ∃ s, path p ++ [s] <+: x := by
    refine exists_snoc (List.prefix_append _ _) ?_
    rw [hx, List.length_append, List.length_take]
    omega
  have hxold : x <+: path (some old) := by
    rw [hlabel]
    exact (List.prefix_append_right_inj _).mpr (List.take_prefix _ _)
  have hxlt : x.length < (path (some old)).length := by
    rw [hlabel, hx, List.length_append, List.length_append, List.length_take]
    omega
  have hvalid := h.valid.split hmemp hold hnew hs hxold hxlt
  have hchildsnode : childsOf tree' (some tree.used) = [old] :=
    (congrFun (congrArg Trie.childs htrie) _).trans (childs_split_node _ x)
  have hmem : ∀ {q c}, Allocated tree q → (c ∈ childsOf tree' q ↔
      (q = p ∧ c = tree.used) ∨ (c ∈ childsOf tree q ∧ c ≠ old)) := by
    intro q c hq
    have := h.valid.mem_childs_split x hmemp hold hnew (mem_trieOf.mpr hq) (c := c)
    rw [← htrie] at this
    exact this
  have hlength : ∀ {q}, Allocated tree q →
      (childsOf tree' q).length = (childsOf tree q).length := by
    intro q hq
    have := length_childs_split (trieOf tree path) (p := p) (v := old) x hnew (mem_trieOf.mpr hq)
    rw [← htrie] at this
    exact this
  have hpath : ∀ {q : Option ℕ}, Allocated tree q → update path (some tree.used) x q = path q :=
    fun hq => update_of_ne (ne_of_mem hnew (mem_trieOf.mpr hq)) _ _
  have hpathv : ∀ {v}, v < tree.used → update path (some tree.used) x (some v) = path (some v) :=
    fun hv => hpath fun d hd => Option.some_inj.mp hd ▸ hv
  have hself : update path (some tree.used) x (some tree.used) = x := update_self _ _ _
  obtain ⟨cs, hnode⟩ := hsplit.node
  obtain ⟨cs', hchild⟩ := hsplit.child
  have hnodes : ∀ {v}, v < tree.used → v ≠ old →
      Suffixtree.label text (tree'.nodes v) = Suffixtree.label text (tree.nodes v) := by
    intro v hv hvo
    obtain ⟨cs, hcs⟩ := hsplit.nodes v hv hvo
    rw [hcs]
    rfl
  have hisLeaf : ∀ {v}, v < tree.used → (tree'.nodes v).isLeaf = (tree.nodes v).isLeaf := by
    intro v hv
    by_cases hvo : v = old
    · subst hvo
      rw [hchild]
      exact Node.isLeaf_skipStrBytes _ hlt.le
    · obtain ⟨cs, hcs⟩ := hsplit.nodes v hv hvo
      rw [hcs]
      rfl
  have hcases : ∀ {v}, v < tree'.used → v = tree.used ∨ v < tree.used := by
    intro v hv
    rw [hsplit.used] at hv
    omega
  have hcasesp : ∀ {q}, Allocated tree' q → q = some tree.used ∨ Allocated tree q := by
    intro q hq
    have hmem : (trieOf tree' (update path (some tree.used) x)).Mem q := mem_trieOf.mpr hq
    rw [htrie, mem_split] at hmem
    exact hmem.imp_right mem_trieOf.mp
  have hleafnode : (tree'.nodes tree.used).isLeaf = false := by
    rw [hnode]
    exact Node.isLeaf_initAsNode _ _ _ _
  refine ⟨htrie ▸ hvalid, fun q c hq hc => ?_, fun v hv => ?_, fun v hv hvl => ?_,
    fun v hv hvl hne => ?_, fun v hv => ?_, fun v hv hvl => ?_, fun k hk => ?_, fun v hv => ?_,
    h.le⟩
  · rcases hcasesp hq with rfl | hq
    · rw [hchildsnode, List.mem_singleton] at hc
      subst hc
      rw [hself, hpathv holdlt, hchild, hlabel]
      change path p ++ l = x ++ Suffixtree.label text ((tree.nodes c).skipStrBytes m)
      rw [label_skipStrBytes _ hlt.le hfits, hx, List.append_assoc, List.take_append_drop]
    · rw [hpath hq]
      rcases (hmem hq).mp hc with ⟨rfl, rfl⟩ | ⟨hc, hco⟩
      · rw [hself, hnode, label_initAsNode _ hlt.le hfits]
      · have hclt := h.lt_used hq hc
        rw [hpathv hclt, hnodes hclt hco]
        exact h.label q c hq hc
  · rcases hcases hv with rfl | hv
    · rw [hnode]
      refine ⟨?_, fun hleaf => absurd hleaf (by simp)⟩
      rw [Node.size_initAsNode]
      have := hfits.le
      change (tree.nodes old).strStart + m ≤ text.length
      omega
    · by_cases hvo : v = old
      · subst hvo
        rw [hchild]
        have := hfits.skipStrBytes hlt.le
        exact ⟨this.le, this.leaf⟩
      · obtain ⟨cs, hcs⟩ := hsplit.nodes v hv hvo
        rw [hcs]
        exact ⟨(h.fits v hv).le, (h.fits v hv).leaf⟩
  · rcases hcases hv with rfl | hv
    · rw [hleafnode] at hvl
      exact absurd hvl Bool.false_ne_true
    · rw [hisLeaf hv] at hvl
      have := hlength (q := some v) fun d hd => Option.some_inj.mp hd ▸ hv
      rw [h.leaf_childs v hv hvl] at this
      exact List.eq_nil_of_length_eq_zero this
  · rcases hcases hv with rfl | hv
    · exact absurd rfl hne
    · rw [hisLeaf hv] at hvl
      rw [hlength fun d hd => Option.some_inj.mp hd ▸ hv]
      exact h.two_le v hv hvl (by simp)
  · cases hv
    rw [hchildsnode]
    exact List.cons_ne_nil _ _
  · rcases hcases hv with rfl | hv
    · rw [hleafnode] at hvl
      exact absurd hvl Bool.false_ne_true
    · rw [hisLeaf hv] at hvl
      rw [hpathv hv]
      exact h.leaf v hv hvl
  · obtain ⟨v, hv, hvl, hkv⟩ := h.leaves k hk
    refine ⟨v, ?_, (hisLeaf hv).trans hvl, (hpathv hv).trans hkv⟩
    rw [hsplit.used]
    exact Nat.lt_succ_of_lt hv
  · rcases hcases hv with rfl | hv
    · obtain ⟨k, hk, hkv⟩ := h.sound old holdlt
      exact ⟨k, hk, by rw [hself]; exact hxold.trans hkv⟩
    · rw [hpathv hv]
      exact h.sound v hv

/-! ## Suffix links -/

/-- The suffix links of all inner nodes apart from those in `E` drop the first character. -/
def Links (tree : Suffixtree) (path : Option ℕ → List ℕ) (E : Set ℕ) : Prop :=
  ∀ c < tree.used, (tree.nodes c).isLeaf = false → c ∉ E →
    IsInner tree (tree.nodes c).suffixLink ∧
      path (tree.nodes c).suffixLink = (path (some c)).tail

/-- The old nodes keep their type and their suffix link. -/
structure Extends (tree tree' : Suffixtree) : Prop where
  used : tree.used ≤ tree'.used
  isLeaf : ∀ v < tree.used, (tree'.nodes v).isLeaf = (tree.nodes v).isLeaf
  suffixLink : ∀ v < tree.used, (tree'.nodes v).suffixLink = (tree.nodes v).suffixLink

theorem LeafCreated.extends {tree tree' : Suffixtree} {size addr : ℕ} {u : Option ℕ}
    (h : LeafCreated tree size addr u tree') : Extends tree tree' := by
  refine ⟨?_, fun v hv => ?_, fun v hv => ?_⟩
  · rw [h.used]
    exact Nat.le_succ _
  · obtain ⟨cs, hcs⟩ := h.nodes v hv
    rw [hcs]
    rfl
  · obtain ⟨cs, hcs⟩ := h.nodes v hv
    rw [hcs]

theorem NodeSplit.extends {tree tree' : Suffixtree} {m old : ℕ} {p : Option ℕ}
    (h : NodeSplit tree m old p tree') (hm : m ≤ (tree.nodes old).size) : Extends tree tree' := by
  have hcases : ∀ v < tree.used, (tree'.nodes v).isLeaf = (tree.nodes v).isLeaf ∧
      (tree'.nodes v).suffixLink = (tree.nodes v).suffixLink := by
    intro v hv
    by_cases hvo : v = old
    · subst hvo
      obtain ⟨cs, hcs⟩ := h.child
      rw [hcs]
      exact ⟨Node.isLeaf_skipStrBytes _ hm, rfl⟩
    · obtain ⟨cs, hcs⟩ := h.nodes v hv hvo
      rw [hcs]
      exact ⟨rfl, rfl⟩
  refine ⟨?_, fun v hv => (hcases v hv).1, fun v hv => (hcases v hv).2⟩
  rw [h.used]
  exact Nat.le_succ _

theorem IsInner.extends {tree tree' : Suffixtree} (h : Extends tree tree') {v : Option ℕ}
    (hv : IsInner tree v) : IsInner tree' v := by
  intro d hd
  obtain ⟨hlt, hinner⟩ := hv d hd
  exact ⟨hlt.trans_le h.used, (h.isLeaf d hlt).trans hinner⟩

theorem Links.extends {tree tree' : Suffixtree} {path path' : Option ℕ → List ℕ} {E E' : Set ℕ}
    (hlinks : Links tree path E) (h : Extends tree tree')
    (hpath : ∀ p, Allocated tree p → path' p = path p) (hE : E ⊆ E')
    (hnew : ∀ c < tree'.used, tree.used ≤ c → (tree'.nodes c).isLeaf = false → c ∈ E') :
    Links tree' path' E' := by
  intro c hc hinner hcE
  have hlt : c < tree.used := by
    by_contra hle
    exact hcE (hnew c hc (Nat.le_of_not_lt hle) hinner)
  rw [h.isLeaf c hlt] at hinner
  obtain ⟨hlink, heq⟩ := hlinks c hlt hinner fun h => hcE (hE h)
  rw [h.suffixLink c hlt, hpath _ hlink.allocated,
    hpath (some c) fun d hd => Option.some_inj.mp hd ▸ hlt]
  exact ⟨hlink.extends h, heq⟩

theorem isInner_setSuffixLink {tree : Suffixtree} {node link v : Option ℕ} :
    IsInner (setSuffixLink tree node link) v ↔ IsInner tree v := by
  refine forall_congr' fun d => imp_congr_right fun _ => ?_
  obtain ⟨l, hl, -⟩ := nodes_setSuffixLink tree node link d
  rw [used_setSuffixLink, hl]
  rfl

theorem Links.relink {tree : Suffixtree} {path : Option ℕ → List ℕ} {E : Set ℕ}
    (hlinks : Links tree path E) (node link : Option ℕ)
    (hlink : ∀ u, node = some u → IsInner tree link ∧ path link = (path (some u)).tail) :
    Links (setSuffixLink tree node link) path {c | c ∈ E ∧ node ≠ some c} := by
  intro c hc hinner hcE
  obtain ⟨l, hl, hl'⟩ := nodes_setSuffixLink tree node link c
  rw [used_setSuffixLink] at hc
  rw [hl] at hinner ⊢
  rw [isInner_setSuffixLink]
  dsimp only
  rw [hl']
  by_cases hnode : node = some c
  · rw [if_pos hnode]
    exact hlink c hnode
  · rw [if_neg hnode]
    exact hlinks c hc hinner fun hE => hcE ⟨hE, hnode⟩

/-! ## Positions -/

variable (text) in
/-- The part of suffix `j` before `i`. -/
def part (j i : ℕ) : List ℕ := ((marked text).drop j).take (i - j)

theorem tail_part (j i : ℕ) : (part text j i).tail = part text (j + 1) i := by
  rw [part, part, ← List.drop_one, List.drop_take, List.drop_drop, Nat.sub_sub]

theorem length_part {j i : ℕ} (hi : i ≤ text.length) : (part text j i).length = i - j := by
  rw [part, List.length_take, length_drop_marked]
  omega

theorem part_append_drop {j i : ℕ} (hj : j ≤ i) :
    part text j i ++ (marked text).drop i = (marked text).drop j := by
  have := List.take_append_drop (i - j) ((marked text).drop j)
  rwa [List.drop_drop, Nat.add_sub_cancel' hj] at this

theorem part_succ {j i s : ℕ} (hj : j ≤ i) (hs : (marked text)[i]? = some s) :
    part text j (i + 1) = part text j i ++ [s] := by
  obtain ⟨hlt, hget⟩ := List.getElem?_eq_some_iff.mp hs
  rw [part, part, Nat.succ_sub hj, List.take_add_one, List.getElem?_drop, Nat.add_sub_cancel' hj, hs]
  rfl

theorem bytes_eq_cons {addr size : ℕ} (h : 0 < size) (haddr : addr + size ≤ text.length) :
    ((text.drop addr).take size).map UInt8.toNat =
      charAt text addr :: ((text.drop (addr + 1)).take (size - 1)).map UInt8.toNat := by
  obtain ⟨k, rfl⟩ := Nat.exists_eq_succ_of_ne_zero h.ne'
  rw [List.drop_eq_getElem_cons (by omega), List.take_succ_cons, List.map_cons, charAt,
    List.getD_eq_getElem _ _ (by omega)]
  rfl

theorem tail_prefix_drop {w : List ℕ} {k : ℕ} (h : w <+: (marked text).drop k) (hw : w ≠ []) :
    w.tail <+: (marked text).drop (k + 1) := by
  obtain ⟨y, hy⟩ := h
  cases w with
  | nil => exact absurd rfl hw
  | cons a w =>
    refine ⟨y, ?_⟩
    rw [← List.tail_drop, ← hy]
    rfl

variable (text) in
/-- The position is that of the string `w`: a node, or the middle of an edge. -/
def At (tree : Suffixtree) (path : Option ℕ → List ℕ) (pos : Pos) (w : List ℕ) : Prop :=
  (pos.matchedLen = 0 ∧ IsInner tree pos.node ∧ path pos.node = w) ∨
    ∃ v, pos.node = some v ∧ IsInner tree pos.parent ∧ v ∈ childsOf tree pos.parent ∧
      0 < pos.matchedLen ∧ pos.matchedLen < (tree.nodes v).size ∧
      w = path pos.parent ++ (label text (tree.nodes v)).take pos.matchedLen

theorem length_label_inner {n : Node} (hf : n.Fits text) (h : n.isLeaf = false) :
    (label text n).length = n.size := by
  rw [length_label n hf, h]
  rfl

theorem Inv.lt_size_leaf {tree : Suffixtree} {path : Option ℕ → List ℕ} {j : ℕ}
    {half p : Option ℕ} (h : Inv text tree path j half) (hp : Allocated tree p) {c : ℕ}
    (hc : c ∈ childsOf tree p) (hleaf : (tree.nodes c).isLeaf = true) :
    text.length < j + (path p).length + (tree.nodes c).size := by
  have hlt := h.lt_used hp hc
  obtain ⟨k, hk, hpath⟩ := h.leaf c hlt hleaf
  have hlabel := congrArg List.length (h.label p c hp hc)
  rw [List.length_append, length_label _ (h.fits c hlt), hleaf, hpath, length_drop_marked] at hlabel
  have := h.le
  simp only [if_true] at hlabel
  omega

theorem Inv.label_ne_nil {tree : Suffixtree} {path : Option ℕ → List ℕ} {j : ℕ}
    {half p : Option ℕ} (h : Inv text tree path j half) (hp : Allocated tree p) {c : ℕ}
    (hc : c ∈ childsOf tree p) : Suffixtree.label text (tree.nodes c) ≠ [] := by
  obtain ⟨s, hs⟩ := h.valid.extend p c (mem_trieOf.mpr hp) hc
  intro hnil
  have hlabel := h.label p c hp hc
  rw [hnil, List.append_nil] at hlabel
  have := length_lt_of_snoc hs
  change (path p).length < (path (some c)).length at this
  rw [hlabel] at this
  exact Nat.lt_irrefl _ this

/-- **The way down.** The loop finds the position of a string that begins like a suffix that is in
the tree. -/
theorem goDown_spec {tree : Suffixtree} {path : Option ℕ → List ℕ} {j q : ℕ} {w : List ℕ}
    (h : Inv text tree path j none) (hlen : w.length + j ≤ text.length) (hq : q < tree.used)
    (hwq : w <+: path (some q)) {pos : Pos} (hpos : pos.matchedLen = 0) (turns : ℕ)
    {parent : Option ℕ} {size addr : ℕ} (hp : IsInner tree parent) (hsize : 0 < size)
    (haddr : addr + size ≤ text.length) (hturns : size < turns)
    (hw : path parent ++ ((text.drop addr).take size).map UInt8.toNat = w) :
    ∃ pos', goDown text tree pos turns parent size addr = .ok pos' ∧
      At text tree path pos' w := by
  induction turns generalizing parent size addr with
  | zero => exact absurd hturns (Nat.not_lt_zero _)
  | succ turns ih =>
    set y := ((text.drop addr).take size).map UInt8.toNat with hy
    have hylen : y.length = size := by
      rw [hy, List.length_map, List.length_take, List.length_drop]
      omega
    -- the child on the way to `q`
    have hs : path parent ++ [charAt text addr] <+: w := by
      rw [← hw, List.prefix_append_right_inj, hy, bytes_eq_cons hsize haddr]
      exact ⟨_, rfl⟩
    obtain ⟨c, hc, hsc, hcq⟩ := h.valid.exists_child (mem_trieOf.mpr hp.allocated) hq (hs.trans hwq)
    change c ∈ childsOf tree parent at hc
    change path (some c) <+: path (some q) at hcq
    have hclt := h.lt_used hp.allocated hc
    have hfits := h.fits c hclt
    have hlabel := h.label parent c hp.allocated hc
    rw [goDown, h.findchild_eq hp.allocated hc hsc]
    dsimp only
    have hlabellen := length_label _ hfits
    -- the string and the node are on the way to `q`
    have hcomp : y <+: label text (tree.nodes c) ∨ label text (tree.nodes c) <+: y := by
      rw [← hw] at hwq
      rw [hlabel] at hcq
      rcases List.prefix_or_prefix_of_prefix hwq hcq with h1 | h1
      · exact Or.inl ((List.prefix_append_right_inj _).mp h1)
      · exact Or.inr ((List.prefix_append_right_inj _).mp h1)
    have hmiddle : size < (tree.nodes c).size →
        At text tree path ⟨size, some c, parent⟩ w := by
      intro hlt
      refine Or.inr ⟨c, rfl, hp, hc, hsize, hlt, ?_⟩
      have hpre : y <+: label text (tree.nodes c) := by
        refine hcomp.resolve_right fun h1 => ?_
        have := h1.length_le
        rw [hlabellen, hylen] at this
        omega
      rw [← hw, List.prefix_iff_eq_take.mp hpre, hylen]
    cases hleaf : (tree.nodes c).isLeaf with
    | true =>
      rw [if_pos (Or.inl rfl)]
      refine ⟨_, rfl, hmiddle ?_⟩
      have := h.lt_size_leaf hp.allocated hc hleaf
      rw [← hw, List.length_append, hylen] at hlen
      omega
    | false =>
      rw [hleaf] at hlabellen
      change _ = (tree.nodes c).size at hlabellen
      by_cases hlt : size < (tree.nodes c).size
      · rw [if_pos (Or.inr hlt)]
        exact ⟨_, rfl, hmiddle hlt⟩
      · rw [if_neg (by simpa using Nat.le_of_not_lt hlt)]
        have hpre : label text (tree.nodes c) <+: y := by
          refine hcomp.elim (fun h1 => ?_) id
          rw [h1.eq_of_length_le (by omega)]
        have hinner : IsInner tree (some c) := isInner_some hclt hleaf
        by_cases heq : (tree.nodes c).size = size
        · rw [if_pos heq]
          refine ⟨_, rfl, Or.inl ⟨hpos, hinner, ?_⟩⟩
          rw [hlabel, hpre.eq_of_length (by omega), hw]
        · rw [if_neg heq]
          have hpos : 0 < (tree.nodes c).size := by
            rw [← hlabellen]
            exact List.length_pos_of_ne_nil (h.label_ne_nil hp.allocated hc)
          refine ih hinner (by omega) (by omega) (by omega) ?_
          obtain ⟨z, hz⟩ := hpre
          have hzy : ((text.drop (addr + (tree.nodes c).size)).take
              (size - (tree.nodes c).size)).map UInt8.toNat = z := by
            rw [← List.drop_drop, ← List.drop_take, List.map_drop, ← hy, ← hz, ← hlabellen]
            exact List.drop_left
          rw [hzy, hlabel, List.append_assoc, hz, hw]

/-! ## A turn of the loop -/

variable (text) in
/-- The inner node `u` branches at `i`: it goes on with another symbol too, in a suffix before the
one before `j`. -/
def BranchesAt (i : ℕ) (path : Option ℕ → List ℕ) (j u : ℕ) : Prop :=
  ∃ k x, k < j ∧ (marked text)[i]? ≠ some x ∧ path (some u) ++ [x] <+: (marked text).drop k

variable (text) in
/-- The state of the loop before symbol `i` is added: `j` suffixes are in the tree, the position is
that of the part of suffix `j` before `i`, and only the node that was created last misses its
suffix link, which is to lead to this position. -/
structure Ready (i : ℕ) (tree : Suffixtree) (path : Option ℕ → List ℕ) (j : ℕ) (pos : Pos)
    (lastCreated : Option ℕ) : Prop where
  inv : Inv text tree path j none
  le : j ≤ i
  links : Links tree path {u | lastCreated = some u}
  last : ∀ u, lastCreated = some u → u < tree.used ∧
    (path (some u)).tail = part text j i ∧ BranchesAt text i path (j - 1) u
  at_part : At text tree path pos (part text j i)

variable (text) in
/-- The state of the loop if suffix `j` leaves the tree with symbol `i`, before it gets its
leaf. -/
structure Missing (i s : ℕ) (tree : Suffixtree) (path : Option ℕ → List ℕ) (j : ℕ) (pos : Pos)
    (lastCreated half : Option ℕ) : Prop where
  inv : Inv text tree path j half
  half : half = none ∨ half = pos.node
  le : j ≤ i
  matchedLen : pos.matchedLen = 0
  inner : IsInner tree pos.node
  path_node : path pos.node = part text j i
  free : ∀ q < tree.used, ¬ path pos.node ++ [s] <+: path (some q)
  links : Links tree path {u | lastCreated = some u}
  way : (lastCreated = none ∧ pos.parent = none) ∨
    ∃ u, lastCreated = some u ∧ pos.node = some u ∧ (tree.nodes u).suffixLink = none ∧
      IsInner tree pos.parent ∧ u ∈ childsOf tree pos.parent ∧ BranchesAt text i path j u

theorem lt_of_charAt {i a : ℕ} (hi : i ≤ text.length) (h : (marked text)[i]? = some (charAt text a)) :
    i < text.length := by
  by_contra hle
  have heq : i = text.length := by omega
  subst heq
  rw [marked, List.getElem?_append_right (by simp)] at h
  have hbyte := (text.getD a 0).toNat_lt
  simp only [List.length_map, Nat.sub_self, List.getElem?_cons_zero, Option.some_inj, charAt] at h
  omega

variable {i s j : ℕ} {tree : Suffixtree} {path : Option ℕ → List ℕ} {pos : Pos}
  {lastCreated : Option ℕ}

theorem ready_of_child (hi : i ≤ text.length) (hs : (marked text)[i]? = some s)
    (h : Ready text i tree path j pos lastCreated) (hinner : IsInner tree pos.node)
    (hpath : path pos.node = part text j i) {c : ℕ}
    (hfind : findchildSuffixtree text tree pos.node s = some c) :
    i < text.length ∧ At text tree path
      ⟨if 1 < (tree.nodes c).size then 1 else 0, some c, pos.node⟩ (part text j (i + 1)) := by
  obtain ⟨hc, hsc⟩ := h.inv.of_findchild hinner.allocated hfind
  have hclt := h.inv.lt_used hinner.allocated hc
  have hfits := h.inv.fits c hclt
  have hlabel := h.inv.label _ c hinner.allocated hc
  have hle := h.inv.le
  have hlt : i < text.length := by
    by_contra hge
    have heq : i = text.length := by omega
    -- with the end-marker it would be the whole suffix
    obtain ⟨k, hk, hck⟩ := h.inv.sound c hclt
    have hdrop : (marked text).drop j = part text j i ++ [s] := by
      rw [← part_append_drop h.le, drop_marked hi, heq, List.drop_length]
      rw [marked, heq, List.getElem?_append_right (by simp)] at hs
      simpa using hs
    rw [hpath, ← hdrop] at hsc
    have := eq_of_prefix_drop hle (by omega) (hsc.trans hck)
    omega
  refine ⟨hlt, ?_⟩
  have hsl : [s] <+: label text (tree.nodes c) := by
    rw [hlabel] at hsc
    exact (List.prefix_append_right_inj _).mp hsc
  rw [part_succ h.le hs]
  by_cases hsize : 1 < (tree.nodes c).size
  · rw [if_pos hsize]
    refine Or.inr ⟨c, rfl, hinner, hc, Nat.one_pos, hsize, ?_⟩
    rw [hpath, List.prefix_iff_eq_take.mp hsl]
    rfl
  · rw [if_neg hsize]
    -- a leaf would be longer
    have hleaf : (tree.nodes c).isLeaf = false := by
      cases hleaf : (tree.nodes c).isLeaf with
      | false => rfl
      | true =>
        have := h.inv.lt_size_leaf hinner.allocated hc hleaf
        rw [hpath, length_part hi] at this
        have := h.le
        omega
    refine Or.inl ⟨rfl, isInner_some hclt hleaf, ?_⟩
    have hlen := length_label_inner hfits hleaf
    rw [hlabel, hpath, ← hsl.eq_of_length_le (by rw [hlen]; simpa using hsize)]

theorem ready_of_match (hi : i ≤ text.length) {v : ℕ} (h : Ready text i tree path j pos lastCreated)
    (hp : IsInner tree pos.parent) (hv : v ∈ childsOf tree pos.parent)
    (hnode : pos.node = some v) (hlt : pos.matchedLen < (tree.nodes v).size)
    (hw : part text j i = path pos.parent ++ (label text (tree.nodes v)).take pos.matchedLen)
    (hs : (marked text)[i]? = some s)
    (hchar : s = charAt text ((tree.nodes v).strStart + pos.matchedLen)) :
    i < text.length ∧ At text tree path
      { pos with matchedLen :=
          if pos.matchedLen + 1 = (tree.nodes v).size then 0 else pos.matchedLen + 1 }
      (part text j (i + 1)) := by
  have hvlt := h.inv.lt_used hp.allocated hv
  have hfits := h.inv.fits v hvlt
  have hlabel := h.inv.label _ v hp.allocated hv
  have hle := hfits.le
  have hi' : i < text.length := lt_of_charAt hi (hs.trans (congrArg some hchar))
  refine ⟨hi', ?_⟩
  have htake : (label text (tree.nodes v)).take (pos.matchedLen + 1) =
      (label text (tree.nodes v)).take pos.matchedLen ++ [s] := by
    have hget : (label text (tree.nodes v))[pos.matchedLen]? = some s := by
      rw [label_eq _ hfits, List.getElem?_take_of_lt (by omega), List.getElem?_drop,
        charAt_eq (by omega), hchar]
    rw [List.take_add_one, hget]
    rfl
  rw [part_succ h.le hs, hw, List.append_assoc, ← htake]
  by_cases hfull : pos.matchedLen + 1 = (tree.nodes v).size
  · rw [if_pos hfull]
    have hleaf : (tree.nodes v).isLeaf = false := by
      cases hleaf : (tree.nodes v).isLeaf with
      | false => rfl
      | true =>
        have h1 := h.inv.lt_size_leaf hp.allocated hv hleaf
        have h2 := congrArg List.length hw
        rw [length_part hi, List.length_append, List.length_take, length_label _ hfits,
          Nat.min_eq_left (by omega)] at h2
        have := h.le
        omega
    refine Or.inl ⟨rfl, hnode ▸ isInner_some hvlt hleaf, ?_⟩
    change path pos.node = _
    rw [hnode, hlabel, List.take_of_length_le (by rw [length_label_inner hfits hleaf]; omega)]
  · rw [if_neg hfull]
    exact Or.inr ⟨v, hnode, hp, hv, Nat.succ_pos _, by change _ + 1 < _; omega, rfl⟩

theorem lastCreated_eq_none (h : Ready text i tree path j pos lastCreated) {v : ℕ}
    (hp : IsInner tree pos.parent) (hv : v ∈ childsOf tree pos.parent)
    (hm : 0 < pos.matchedLen) (hlt : pos.matchedLen < (tree.nodes v).size)
    (hw : part text j i = path pos.parent ++ (label text (tree.nodes v)).take pos.matchedLen)
    (hs : (marked text)[i]? = some s)
    (hchar : s = charAt text ((tree.nodes v).strStart + pos.matchedLen)) :
    lastCreated = none := by
  cases hlast : lastCreated with
  | none => rfl
  | some u =>
    exfalso
    obtain ⟨hu, htail, k, x, hk, hx, hux⟩ := h.last u hlast
    obtain ⟨q, hq, -, hqpath⟩ := h.inv.leaves (k + 1) (by omega)
    have hne := h.inv.path_ne_nil hu
    have hvlt := h.inv.lt_used hp.allocated hv
    have hfits := h.inv.fits v hvlt
    have hlabel := h.inv.label _ v hp.allocated hv
    have hlen : pos.matchedLen < (label text (tree.nodes v)).length := by
      rw [length_label _ hfits]
      omega
    have hxq : part text j i ++ [x] <+: path (some q) := by
      rw [hqpath, ← htail, ← List.tail_append_of_ne_nil hne]
      exact tail_prefix_drop hux (by simp)
    have hle := hfits.le
    have hsv : part text j i ++ [s] <+: path (some v) := by
      rw [hlabel, hw, List.append_assoc, List.prefix_append_right_inj]
      have hget : (label text (tree.nodes v))[pos.matchedLen]? = some s := by
        rw [label_eq _ hfits, List.getElem?_take_of_lt (by omega), List.getElem?_drop,
          charAt_eq (by omega), hchar]
      have := List.take_prefix (pos.matchedLen + 1) (label text (tree.nodes v))
      rwa [List.take_add_one, hget] at this
    -- the edge is on the way to `q`
    obtain ⟨r, hr⟩ : ∃ r, path pos.parent ++ [r] <+: part text j i := by
      refine exists_snoc (hw ▸ List.prefix_append _ _) ?_
      rw [hw, List.length_append, List.length_take]
      omega
    have hvq := h.inv.valid.forced (mem_trieOf.mpr hp.allocated) hv
      (hr.trans (prefix_of_snoc hsv)) hq (hr.trans (prefix_of_snoc hxq))
    have : s = x := snoc_prefix_unique (hsv.trans hvq) hxq
    rw [this] at hs
    exact hx hs

theorem At.setSuffixLink {node link : Option ℕ} {w : List ℕ} (h : At text tree path pos w) :
    At text (setSuffixLink tree node link) path pos w := by
  rcases h with ⟨hm, hinner, hpath⟩ | ⟨v, hnode, hp, hv, hm, hlt, hw⟩
  · exact Or.inl ⟨hm, isInner_setSuffixLink.mpr hinner, hpath⟩
  · obtain ⟨l, hl, -⟩ := nodes_setSuffixLink tree node link v
    refine Or.inr ⟨v, hnode, isInner_setSuffixLink.mpr hp, ?_, hm, ?_, ?_⟩
    · rwa [childsOf_setSuffixLink]
    · rw [hl]
      exact hlt
    · rw [hl]
      exact hw

theorem findchild_setSuffixLink (node link p : Option ℕ) (c : ℕ) :
    findchildSuffixtree text (setSuffixLink tree node link) p c =
      findchildSuffixtree text tree p c := by
  rw [findchildSuffixtree, findchildSuffixtree, childsOf_setSuffixLink]
  congr 1
  funext v
  obtain ⟨l, hl, -⟩ := nodes_setSuffixLink tree node link v
  rw [hl]
  rfl

theorem missing_of_node (h : Ready text i tree path j pos lastCreated) (hinner : IsInner tree pos.node)
    (hpath : path pos.node = part text j i)
    (hfind : findchildSuffixtree text tree pos.node s = none) :
    Missing text i s (setSuffixLink tree lastCreated pos.node) path j ⟨0, pos.node, none⟩ none
      none := by
  have hlinks := h.links.relink lastCreated pos.node fun u hu =>
    ⟨hinner, hpath.trans (h.last u hu).2.1.symm⟩
  refine ⟨h.inv.relink _ _, Or.inl rfl, h.le, rfl, isInner_setSuffixLink.mpr hinner, hpath,
    fun q hq => ?_, fun c hc hcl hcE => hlinks c hc hcl fun hE => hE.2 hE.1,
    Or.inl ⟨rfl, rfl⟩⟩
  rw [used_setSuffixLink] at hq
  exact h.inv.of_findchild_none hinner.allocated hfind q hq

theorem missing_of_split {v : ℕ}
    (h : Ready text i tree path j pos lastCreated) (hp : IsInner tree pos.parent)
    (hv : v ∈ childsOf tree pos.parent) (hm : 0 < pos.matchedLen)
    (hlt : pos.matchedLen < (tree.nodes v).size)
    (hw : part text j i = path pos.parent ++ (label text (tree.nodes v)).take pos.matchedLen)
    (hs : (marked text)[i]? = some s)
    (hchar : s ≠ charAt text ((tree.nodes v).strStart + pos.matchedLen)) {tree' : Suffixtree}
    (hsplit : NodeSplit tree pos.matchedLen v pos.parent tree') :
    Missing text i s (setSuffixLink tree' lastCreated (some tree.used))
      (update path (some tree.used) (part text j i)) j ⟨0, some tree.used, pos.parent⟩
      (some tree.used) (some tree.used) := by
  have hvlt := h.inv.lt_used hp.allocated hv
  have hfits := h.inv.fits v hvlt
  have hlabel := h.inv.label _ v hp.allocated hv
  have hle := hfits.le
  have hlen : pos.matchedLen < (label text (tree.nodes v)).length := by
    rw [length_label _ hfits]
    omega
  have hinv := h.inv.splitnode hp hv hm hlt hsplit
  rw [← hw] at hinv
  have hext := hsplit.extends hlt.le
  have hself : update path (some tree.used) (part text j i) (some tree.used) = part text j i :=
    update_self _ _ _
  have hold : ∀ p, Allocated tree p → update path (some tree.used) (part text j i) p = path p :=
    fun p hp => update_of_ne (fun heq => Nat.lt_irrefl _ (hp _ heq)) _ _
  have holdv : ∀ {v}, v < tree.used →
      update path (some tree.used) (part text j i) (some v) = path (some v) :=
    fun hv => hold _ fun d hd => Option.some_inj.mp hd ▸ hv
  have hinner : IsInner tree' (some tree.used) := by
    refine isInner_some (hsplit.used.symm ▸ Nat.lt_succ_self _) ?_
    obtain ⟨cs, hcs⟩ := hsplit.node
    rw [hcs]
    exact Node.isLeaf_initAsNode _ _ _ _
  -- the symbol with which the edge goes on
  set x := charAt text ((tree.nodes v).strStart + pos.matchedLen) with hx
  have hxv : part text j i ++ [x] <+: path (some v) := by
    rw [hlabel, hw, List.append_assoc, List.prefix_append_right_inj]
    have hget : (label text (tree.nodes v))[pos.matchedLen]? = some x := by
      rw [label_eq _ hfits, List.getElem?_take_of_lt (by omega), List.getElem?_drop,
        charAt_eq (by omega)]
    have := List.take_prefix (pos.matchedLen + 1) (label text (tree.nodes v))
    rwa [List.take_add_one, hget] at this
  obtain ⟨r, hr⟩ : ∃ r, path pos.parent ++ [r] <+: part text j i := by
    refine exists_snoc (hw ▸ List.prefix_append _ _) ?_
    rw [hw, List.length_append, List.length_take]
    omega
  have hlinks : Links (setSuffixLink tree' lastCreated (some tree.used))
      (update path (some tree.used) (part text j i)) {u | some tree.used = some u} := by
    have hstep := h.links.extends hext hold (Set.subset_union_left (t := {u | u = tree.used}))
      fun c hc hge _ => by
        rw [hsplit.used] at hc
        exact Or.inr (by change c = tree.used; omega)
    have hlink := hstep.relink lastCreated (some tree.used) fun u hu =>
      ⟨hinner, by rw [hself, holdv (h.last u hu).1, (h.last u hu).2.1]⟩
    refine fun c hc hcl hcE => hlink c hc hcl ?_
    rintro ⟨hE | hE, hne⟩
    · exact hne hE
    · exact hcE (congrArg some (show c = tree.used from hE).symm)
  refine ⟨hinv.relink _ _, Or.inr rfl, h.le, rfl, isInner_setSuffixLink.mpr hinner, hself,
    fun q hq hqs => ?_, hlinks, Or.inr ⟨tree.used, rfl, rfl, ?_, ?_, ?_, ?_⟩⟩
  · rw [used_setSuffixLink, hsplit.used] at hq
    rw [hself] at hqs
    rcases Nat.lt_succ_iff_lt_or_eq.mp hq with hq | rfl
    · rw [holdv hq] at hqs
      have hvq := h.inv.valid.forced (mem_trieOf.mpr hp.allocated) hv
        (hr.trans (prefix_of_snoc hxv)) hq (hr.trans (prefix_of_snoc hqs))
      exact hchar (snoc_prefix_unique hqs (hxv.trans hvq))
    · rw [hself] at hqs
      exact Nat.lt_irrefl _ (length_lt_of_snoc hqs)
  · obtain ⟨l, hl, hl'⟩ := nodes_setSuffixLink tree' lastCreated (some tree.used) tree.used
    obtain ⟨cs, hcs⟩ := hsplit.node
    rw [hl]
    dsimp only
    rw [hl', if_neg fun heq => Nat.lt_irrefl _ (h.last _ heq).1, hcs]
    rfl
  · exact isInner_setSuffixLink.mpr (hp.extends hext)
  · rw [childsOf_setSuffixLink]
    have := h.inv.valid.mem_childs_split (part text j i) (mem_trieOf.mpr hp.allocated) hv
      (fun hlt => Nat.lt_irrefl _ hlt) (mem_trieOf.mpr hp.allocated) (c := tree.used)
    rw [← hsplit.trie path (part text j i)] at this
    exact this.mpr (Or.inl ⟨rfl, rfl⟩)
  · obtain ⟨k, hk, hvk⟩ := h.inv.sound v hvlt
    refine ⟨k, x, hk, ?_, ?_⟩
    · rw [hs]
      exact fun heq => hchar (Option.some_inj.mp heq)
    · rw [hself]
      exact hxv.trans hvk

/-- **The first part of a turn.** Either the symbol is there, or suffix `j` leaves the tree. -/
theorem matchChar_spec (hi : i ≤ text.length) (hs : (marked text)[i]? = some s)
    (h : Ready text i tree path j pos lastCreated) :
    (∃ tree' pos' last', matchChar text s tree pos lastCreated = .ok (tree', pos', last', true) ∧
      i < text.length ∧ Ready text (i + 1) tree' path j pos' none) ∨
    ∃ tree' path' pos' last' half, matchChar text s tree pos lastCreated =
      .ok (tree', pos', last', false) ∧ Missing text i s tree' path' j pos' last' half := by
  have hready : ∀ {tree' : Suffixtree} {pos' : Pos}, Inv text tree' path j none →
      Links tree' path ∅ → At text tree' path pos' (part text j (i + 1)) →
      Ready text (i + 1) tree' path j pos' none := fun hinv hlinks hat =>
    ⟨hinv, h.le.trans (Nat.le_succ i), fun c hc hcl _ => hlinks c hc hcl (Set.notMem_empty c),
      fun u hu => absurd hu (by simp), hat⟩
  rcases h.at_part with ⟨hm, hinner, hpath⟩ | ⟨v, hnode, hp, hv, hm, hlt, hw⟩
  · cases hfind : findchildSuffixtree text tree pos.node s with
    | some c =>
      left
      obtain ⟨hlt, hat⟩ := ready_of_child hi hs h hinner hpath hfind
      have hlinks := h.links.relink lastCreated pos.node fun u hu =>
        ⟨hinner, hpath.trans (h.last u hu).2.1.symm⟩
      obtain ⟨l, hl, -⟩ := nodes_setSuffixLink tree lastCreated pos.node c
      refine ⟨_, _, none, ?_, hlt, hready (h.inv.relink lastCreated pos.node) ?_ hat.setSuffixLink⟩
      · rw [matchChar, if_pos hm]
        dsimp only
        rw [findchild_setSuffixLink, hfind]
        dsimp only
        rw [hl]
        rfl
      · exact fun c hc hcl _ => hlinks c hc hcl fun hE => hE.2 hE.1
    | none =>
      right
      refine ⟨_, path, _, _, none, ?_, missing_of_node h hinner hpath hfind⟩
      rw [matchChar, if_pos hm]
      dsimp only
      rw [findchild_setSuffixLink, hfind]
  · by_cases hchar : s = charAt text ((tree.nodes v).strStart + pos.matchedLen)
    · left
      obtain ⟨hlt', hat⟩ := ready_of_match hi h hp hv hnode hlt hw hs hchar
      have hlast := lastCreated_eq_none h hp hv hm hlt hw hs hchar
      refine ⟨tree, _, lastCreated, ?_, hlt', hready h.inv ?_ hat⟩
      · rw [matchChar, if_neg hm.ne', hnode]
        dsimp only
        rw [if_pos hchar]
      · intro c hc hcl _
        refine h.links c hc hcl fun hE => ?_
        rw [Set.mem_ofPred_eq, hlast] at hE
        exact absurd hE (by simp)
    · right
      obtain ⟨tree', hsplit, hspec⟩ := splitnode_spec pos.matchedLen hp.allocated
        (h.inv.lt_used hp.allocated hv) hv (h.inv.valid.nodup _ (mem_trieOf.mpr hp.allocated))
      refine ⟨_, _, _, _, _, ?_, missing_of_split h hp hv hm hlt hw hs hchar hspec⟩
      rw [matchChar, if_neg hm.ne', hnode]
      dsimp only
      rw [if_neg hchar, show pos = ⟨pos.matchedLen, some v, pos.parent⟩ by rw [← hnode], hsplit]

theorem Missing.createLeaf {half : Option ℕ} (hi : i ≤ text.length)
    (hs : (marked text)[i]? = some s) (h : Missing text i s tree path j pos lastCreated half)
    (hleaf : pos.node.isSome ∨ text.length - i ≠ 0) :
    LeafCreated tree (text.length - i) i pos.node
        (Suffixtree.createLeaf tree (text.length - i) i pos.node) ∧
      Inv text (Suffixtree.createLeaf tree (text.length - i) i pos.node)
        (update path (some tree.used) ((marked text).drop j)) (j + 1) none := by
  have hcreated := createLeaf_spec i h.inner.allocated hleaf
  refine ⟨hcreated, h.inv.createLeaf hcreated h.inner h.half hi ?_ hs ?_ h.free⟩
  · rw [h.path_node, part_append_drop h.le]
  · rcases hleaf with hsome | hlt
    · obtain ⟨u, hu⟩ := Option.isSome_iff_exists.mp hsome
      have hne := h.inv.path_ne_nil (h.inner u hu).1
      rw [← hu, h.path_node] at hne
      have := List.length_pos_of_ne_nil hne
      rw [length_part hi] at this
      omega
    · have := h.le
      omega

/-- **The last part of a turn.** The position of the next suffix is found. -/
theorem nextSuffix_spec {half : Option ℕ} (hi : i ≤ text.length)
    (hs : (marked text)[i]? = some s) (h : Missing text i s tree path j pos lastCreated half)
    {u : ℕ} (hu : pos.node = some u) {turns : ℕ} (hturns : text.length < turns) :
    ∃ pos', nextSuffix text turns (createLeaf tree (text.length - i) i pos.node) pos u =
        .ok pos' ∧
      Ready text i (createLeaf tree (text.length - i) i pos.node)
        (update path (some tree.used) ((marked text).drop j)) (j + 1) pos' lastCreated := by
  obtain ⟨hcreated, hinv⟩ := h.createLeaf hi hs (Or.inl (by rw [hu]; rfl))
  set tree' := createLeaf tree (text.length - i) i pos.node with htree'
  set path' := update path (some tree.used) ((marked text).drop j) with hpath'
  have hext := hcreated.extends
  have hult := (h.inner u hu).1
  have hult' := hult.trans_le hext.used
  have hold : ∀ p, Allocated tree p → path' p = path p :=
    fun p hp => update_of_ne (fun heq => Nat.lt_irrefl _ (hp _ heq)) _ _
  have hpu : path' (some u) = part text j i := by
    rw [hold _ fun d hd => Option.some_inj.mp hd ▸ hult, ← hu, h.path_node]
  have hinner : (tree'.nodes u).isLeaf = false := (hext.isLeaf u hult).trans (h.inner u hu).2
  have hlinks : Links tree' path' {c | lastCreated = some c} :=
    h.links.extends hext hold subset_rfl fun c hc hge hcl => by
      rw [hcreated.used] at hc
      obtain rfl : c = tree.used := by omega
      rw [hcreated.leaf, Node.isLeaf_initAsLeaf] at hcl
      exact absurd hcl (by simp)
  have hne := hinv.path_ne_nil hult'
  have hlenu : (path' (some u)).length = i - j := by rw [hpu, length_part hi]
  have hj : j < i := by
    have := List.length_pos_of_ne_nil hne
    omega
  have hready : ∀ {pos' : Pos}, At text tree' path' pos' (part text (j + 1) i) →
      Ready text i tree' path' (j + 1) pos' lastCreated := by
    intro pos' hat
    refine ⟨hinv, hj, hlinks, fun c hc => ?_, hat⟩
    rcases h.way with ⟨hnone, -⟩ | ⟨u', hlast, hnode, -, -, -, k, x, hk, hx, hux⟩
    · rw [hnone] at hc
      exact absurd hc (by simp)
    · obtain rfl : u' = c := Option.some_inj.mp (hlast.symm.trans hc)
      obtain rfl : u' = u := Option.some_inj.mp (hnode.symm.trans hu)
      refine ⟨hult', by rw [hpu, tail_part], k, x, hk, hx, ?_⟩
      rw [hold _ fun d hd => Option.some_inj.mp hd ▸ hult]
      exact hux
  -- the edge to `u`
  obtain ⟨p, hp, hup⟩ := hinv.valid.parent u hult'
  rw [mem_trieOf] at hp
  change u ∈ childsOf tree' p at hup
  have hlabel := hinv.label p u hp hup
  have hfits := hinv.fits u hult'
  have hlabelne := hinv.label_ne_nil hp hup
  have hlabellen := length_label_inner hfits hinner
  have hsize := List.length_pos_of_ne_nil hlabelne
  rw [hlabellen] at hsize
  rcases h.way with ⟨hnone, hparent⟩ | ⟨u', hlast, hnode, hlink, hpinner, hchild, hbranch⟩
  · obtain ⟨hlinner, hlpath⟩ := hlinks u hult' hinner (by simp [hnone])
    rw [hpu, tail_part] at hlpath
    cases hlink : (tree'.nodes u).suffixLink with
    | some d =>
      rw [hlink] at hlinner hlpath
      refine ⟨{ pos with node := some d }, ?_, hready (Or.inl ⟨h.matchedLen, hlinner, hlpath⟩)⟩
      rw [nextSuffix, hlink]
    | none =>
      -- only a node with one character has no link
      rw [hlink, hinv.path_none, ← tail_part] at hlpath
      have hone : i - j = 1 := by
        have := congrArg List.length hlpath
        rw [List.length_nil, List.length_tail, length_part hi] at this
        omega
      refine ⟨{ pos with node := none }, ?_, hready (Or.inl ⟨h.matchedLen, isInner_none _, ?_⟩)⟩
      · have hle : (tree'.nodes u).size ≤ 1 := by
          rw [← hlabellen, ← hone, ← hlenu, hlabel, List.length_append]
          exact Nat.le_add_left _ _
        rw [nextSuffix, hlink]
        dsimp only
        rw [hparent, if_pos (by omega)]
      · rw [← tail_part, ← hlpath]
        exact hinv.path_none
  · obtain rfl : u' = u := Option.some_inj.mp (hnode.symm.trans hu)
    have hlink' : (tree'.nodes u').suffixLink = none := (hext.suffixLink u' hult).trans hlink
    have hpinner' := hpinner.extends hext
    have hchild' : u' ∈ childsOf tree' pos.parent := by
      have := (mem_childs_addLeaf (trieOf tree path) ((marked text).drop j)
        (fun hlt => Nat.lt_irrefl _ hlt) (mem_trieOf.mpr hpinner.allocated) (c := u')
        (u := pos.node) (l := tree.used)).mpr (Or.inr hchild)
      rw [← hcreated.trie path ((marked text).drop j)] at this
      exact this
    obtain rfl : p = pos.parent := hinv.valid.unique p pos.parent u' (mem_trieOf.mpr hp)
      (mem_trieOf.mpr hpinner'.allocated) hup hchild'
    have hbytes : label text (tree'.nodes u') =
        ((text.drop (tree'.nodes u').strStart).take (tree'.nodes u').size).map UInt8.toNat := by
      rw [label, hinner]
      exact List.append_nil _
    have haddr := hfits.le
    -- the next suffix is in the tree
    obtain ⟨k, x, hk, -, hux⟩ := hbranch
    obtain ⟨q, hq, -, hqpath⟩ := hinv.leaves (k + 1) (Nat.succ_lt_succ hk)
    have hwq : part text (j + 1) i <+: path' (some q) := by
      rw [hqpath, ← tail_part, ← hpu]
      refine tail_prefix_drop ?_ hne
      rw [hold _ fun d hd => Option.some_inj.mp hd ▸ hult]
      exact prefix_of_snoc hux
    have hlen : (part text (j + 1) i).length + (j + 1) ≤ text.length := by
      rw [length_part hi]
      omega
    cases hpar : pos.parent with
    | some p =>
      rw [hpar] at hlabel hpinner'
      obtain ⟨hplt, hpl⟩ := hpinner' p rfl
      have hpne := hinv.path_ne_nil hplt
      obtain ⟨hlinner, hlpath⟩ := hlinks p hplt hpl fun hE => by
        obtain rfl : u' = p := Option.some_inj.mp (hlast.symm.trans hE)
        have := congrArg List.length hlabel
        rw [List.length_append, hlabellen] at this
        omega
      obtain ⟨pos', hgo, hat⟩ := goDown_spec hinv hlen hq hwq h.matchedLen turns hlinner hsize haddr
        (by omega) (by rw [← hbytes, hlpath, ← List.tail_append_of_ne_nil hpne, ← hlabel, hpu,
          tail_part])
      refine ⟨pos', ?_, hready hat⟩
      rw [nextSuffix, hlink']
      dsimp only
      rw [hpar]
      exact hgo
    | none =>
      rw [hpar, hinv.path_none, List.nil_append] at hlabel
      have htail : ((text.drop ((tree'.nodes u').strStart + 1)).take
          ((tree'.nodes u').size - 1)).map UInt8.toNat = part text (j + 1) i := by
        rw [← tail_part, ← hpu, hlabel, hbytes, bytes_eq_cons hsize haddr]
        rfl
      by_cases hone : (tree'.nodes u').size - 1 = 0
      · refine ⟨{ pos with node := none }, ?_,
          hready (Or.inl ⟨h.matchedLen, isInner_none _, ?_⟩)⟩
        · rw [nextSuffix, hlink']
          dsimp only
          rw [hpar]
          exact if_pos hone
        · rw [← htail, hone, List.take_zero]
          exact hinv.path_none
      · obtain ⟨pos', hgo, hat⟩ := goDown_spec hinv hlen hq hwq h.matchedLen turns
          (isInner_none tree') (Nat.pos_of_ne_zero hone)
          (show (tree'.nodes u').strStart + 1 + _ ≤ _ by omega) (by omega)
          (by rw [htail, hinv.path_none, List.nil_append])
        refine ⟨pos', ?_, hready hat⟩
        rw [nextSuffix, hlink']
        dsimp only
        rw [hpar]
        exact (if_neg hone).trans hgo

/-! ## The loops -/

variable (text) in
/-- What adding symbol `i` leads to: the state before the next one, or the whole tree. -/
def Added (i : ℕ) (tree : Suffixtree) (path : Option ℕ → List ℕ) (j : ℕ) (pos : Pos) : Prop :=
  (i < text.length ∧ Ready text (i + 1) tree path j pos none) ∨
    (i = text.length ∧ Inv text tree path text.length none ∧ Links tree path ∅)

theorem added_of_root {half : Option ℕ} (hi : i ≤ text.length) (hs : (marked text)[i]? = some s)
    (h : Missing text i s tree path j pos lastCreated half) (hnode : pos.node = none) :
    ∃ path' j', Added text i (createLeaf tree (text.length - i) i pos.node) path' j' pos := by
  have hpath := h.path_node
  rw [hnode, h.inv.path_none] at hpath
  have hj : j = i := by
    have := congrArg List.length hpath
    rw [length_part hi, List.length_nil] at this
    have := h.le
    omega
  subst hj
  have hlast : lastCreated = none := by
    rcases h.way with ⟨hlast, -⟩ | ⟨u, -, hu, -⟩
    · exact hlast
    · rw [hnode] at hu
      exact absurd hu (by simp)
  have hlinks : Links tree path ∅ := fun c hc hcl _ => h.links c hc hcl (by simp [hlast])
  rcases Nat.lt_or_eq_of_le hi with hlt | heq
  · obtain ⟨hcreated, hinv⟩ := h.createLeaf hi hs (Or.inr (by omega))
    refine ⟨_, j + 1, Or.inl ⟨hlt, hinv, le_refl _, ?_, fun u hu => absurd hu (by simp), ?_⟩⟩
    · refine hlinks.extends hcreated.extends
        (fun p hp => update_of_ne (fun heq => Nat.lt_irrefl _ (hp _ heq)) _ _)
        (Set.empty_subset _) fun c hc hge hcl => ?_
      rw [hcreated.used] at hc
      obtain rfl : c = tree.used := by omega
      rw [hcreated.leaf, Node.isLeaf_initAsLeaf] at hcl
      exact absurd hcl (by simp)
    · refine Or.inl ⟨h.matchedLen, hnode ▸ isInner_none _, ?_⟩
      rw [hnode, hinv.path_none, part, Nat.sub_self, List.take_zero]
  · subst heq
    have hhalf : half = none := h.half.elim id fun hh => hh.trans hnode
    refine ⟨path, text.length, Or.inr ⟨rfl, ?_, ?_⟩⟩
    · rw [Suffixtree.createLeaf, if_neg (by simp [hnode])]
      exact hhalf ▸ h.inv
    · rw [Suffixtree.createLeaf, if_neg (by simp [hnode])]
      exact hlinks

/-- **The loop of `addchar_suffixtree`** ends without an error: every turn puts a suffix into the
tree. -/
theorem addcharLoop_spec (hi : i ≤ text.length) (hs : (marked text)[i]? = some s) (loopTurns : ℕ)
    (hloop : text.length < loopTurns) (turns : ℕ) (hturns : text.length + 1 < turns + j)
    (h : Ready text i tree path j pos lastCreated) :
    ∃ tree' path' j' pos', addcharLoop text s (text.length - i) i loopTurns turns tree pos
      lastCreated = .ok (tree', pos') ∧ Added text i tree' path' j' pos' := by
  induction turns generalizing tree path j pos lastCreated with
  | zero =>
    have := h.le
    omega
  | succ turns ih =>
    rw [addcharLoop]
    rcases matchChar_spec hi hs h with ⟨tree', pos', last', hmatch, hlt, hready⟩ |
      ⟨tree', path', pos', last', half, hmatch, hmissing⟩
    · rw [hmatch]
      exact ⟨tree', path, j, pos', rfl, Or.inl ⟨hlt, hready⟩⟩
    · rw [hmatch]
      dsimp only
      rw [if_neg Bool.false_ne_true]
      cases hnode : pos'.node with
      | none =>
        obtain ⟨path'', j', hadded⟩ := added_of_root hi hs hmissing hnode
        rw [hnode] at hadded
        exact ⟨_, path'', j', pos', rfl, hadded⟩
      | some u =>
        obtain ⟨pos'', hnext, hready⟩ := nextSuffix_spec hi hs hmissing hnode hloop
        rw [hnode] at hnext hready
        dsimp only
        rw [hnext]
        exact ih (by omega) hready

theorem buildLoop_spec {turns : ℕ} (hturns : text.length + 1 < turns) (size : ℕ) {addr : ℕ}
    (haddr : addr + size = text.length) (h : Ready text addr tree path j pos none) :
    ∃ tree' path' j' pos', buildLoop text turns size addr tree pos = .ok (tree', pos') ∧
      Ready text text.length tree' path' j' pos' none := by
  induction size generalizing addr tree path j pos with
  | zero =>
    obtain rfl : addr = text.length := haddr
    exact ⟨tree, path, j, pos, rfl, h⟩
  | succ size ih =>
    have hsize : size + 1 = text.length - addr := by omega
    obtain ⟨tree', path', j', pos', hadd, hadded⟩ := addcharLoop_spec (by omega)
      (charAt_eq (show addr < text.length by omega)) turns (by omega) turns (by omega) h
    rw [buildLoop, addcharSuffixtree, if_pos (Nat.succ_ne_zero size), hsize, hadd]
    rcases hadded with ⟨-, hready⟩ | ⟨heq, -⟩
    · exact ih (by omega) hready
    · omega

theorem inv_free : Inv text free (fun _ => []) 0 none := by
  have hno : ∀ {p c}, Allocated free p → c ∈ childsOf free p → False := by
    intro p c hp hc
    cases p with
    | none => exact absurd hc List.not_mem_nil
    | some d => exact absurd (hp d rfl) (Nat.not_lt_zero d)
  have hnot : ∀ {v}, v < free.used → False := fun hv => Nat.not_lt_zero _ hv
  refine ⟨⟨rfl, fun p c hp hc => (hno (mem_trieOf.mp hp) hc).elim, fun c hc => (hnot hc).elim,
    fun p q c hp _ hc => (hno (mem_trieOf.mp hp) hc).elim, fun p hp => ?_,
    fun p c hp hc => (hno (mem_trieOf.mp hp) hc).elim,
    fun p c d s hp hc => (hno (mem_trieOf.mp hp) hc).elim, fun p q s _ hq => (hnot hq).elim⟩,
    fun p c hp hc => (hno hp hc).elim, fun v hv => (hnot hv).elim, fun v hv => (hnot hv).elim,
    fun v hv => (hnot hv).elim, fun v hv => absurd hv (by simp), fun v hv => (hnot hv).elim,
    fun k hk => absurd hk (Nat.not_lt_zero k), fun v hv => (hnot hv).elim, Nat.zero_le _⟩
  cases p with
  | none => exact List.nodup_nil
  | some d => exact (hnot hp).elim

theorem Inv.setMaxlength {half : Option ℕ} (h : Inv text tree path j half) (m : ℕ) :
    Inv text { tree with maxlength := m } path j half := by
  have hchilds : childsOf { tree with maxlength := m } = childsOf tree := by
    funext p
    cases p <;> rfl
  have hvalid : (trieOf { tree with maxlength := m } path).Valid := by
    rw [trieOf, hchilds]
    exact h.valid
  exact ⟨hvalid, fun p c hp hc => h.label p c hp (hchilds ▸ hc), h.fits, h.leaf_childs, h.two_le,
    h.half_childs, h.leaf, h.leaves, h.sound, h.le⟩

/-- **The construction** ends without an error, with all suffixes in the tree. -/
theorem build_spec (hne : text ≠ []) (hmax : text.length ≤ SIZE_MAX / 2) {turns : ℕ}
    (hturns : text.length + 1 < turns) :
    ∃ tree path, buildSuffixtree text turns = .ok tree ∧ tree.maxlength = text.length ∧
      Inv text tree path text.length none ∧ Links tree path ∅ := by
  have hzero : Ready text 0 free (fun _ => []) 0 ⟨0, none, none⟩ none := by
    refine ⟨inv_free, le_refl 0, fun c hc => absurd hc (Nat.not_lt_zero c),
      fun u hu => absurd hu (by simp), Or.inl ⟨rfl, isInner_none _, ?_⟩⟩
    rw [part, List.take_zero]
  obtain ⟨tree, path, j, pos, hbuild, hready⟩ :=
    buildLoop_spec hturns text.length (Nat.zero_add _) hzero
  have hlen : ¬ (text.length = 0 ∨ SIZE_MAX / 2 < text.length) := by
    rw [List.length_eq_zero_iff]
    exact fun h => h.elim hne (Nat.not_lt_of_le hmax)
  rw [buildSuffixtree, if_neg hlen, hbuild]
  dsimp only
  cases hnode : pos.node with
  | none =>
    -- the position is the root, so that the last suffix is in the tree
    refine ⟨_, path, rfl, rfl, Inv.setMaxlength ?_ _,
      fun c hc hcl _ => hready.links c hc hcl (by simp)⟩
    rcases hready.at_part with ⟨-, -, hpath⟩ | ⟨v, hv, -⟩
    · rw [hnode, hready.inv.path_none] at hpath
      have hj := congrArg List.length hpath
      rw [List.length_nil, length_part (le_refl _)] at hj
      obtain rfl : j = text.length := by
        have := hready.le
        omega
      exact hready.inv
    · rw [hnode] at hv
      exact absurd hv (by simp)
  | some u =>
    have hs : (marked text)[text.length]? = some 256 := by
      rw [marked, List.getElem?_append_right (by simp)]
      simp
    obtain ⟨tree', path', j', pos', hadd, hadded⟩ := addcharLoop_spec (le_refl _) hs turns
      (by omega) turns (by omega) hready
    rw [Nat.sub_self] at hadd
    rcases hadded with ⟨hlt, -⟩ | ⟨-, hinv, hlinks⟩
    · exact absurd hlt (Nat.lt_irrefl _)
    · refine ⟨_, path', ?_, rfl, hinv.setMaxlength text.length, hlinks⟩
      rw [if_pos (by rfl), addcharSuffixtree, if_neg (not_not.mpr rfl), hadd]

/-! ## The suffix tree -/

variable (text)

/-- The bytes of a node. -/
def string (n : Node) : List UInt8 := (text.drop n.strStart).take n.size

/-- The bytes on the way from the root to a node. -/
inductive Spells (tree : Suffixtree) : Option ℕ → List UInt8 → Prop
  | root : Spells tree none []
  | child {p c w} (h : Spells tree p w) (hc : c ∈ childsOf tree p) :
      Spells tree (some c) (w ++ string text (tree.nodes c))

/-- **What a suffix tree is**: an inner node has at least two children, which begin with different
characters, and it is not empty; the ways to the leaves spell the suffixes, each of them once; and
the suffix link of an inner node leads to the inner node without the first character. -/
structure IsSuffixTree (tree : Suffixtree) : Prop where
  two_le : ∀ v w, Spells text tree (some v) w → (tree.nodes v).isLeaf = false →
    2 ≤ (tree.nodes v).childs.length
  leaf_childs : ∀ v w, Spells text tree (some v) w → (tree.nodes v).isLeaf = true →
    (tree.nodes v).childs = []
  distinct : ∀ p w, Spells text tree p w →
    (childsOf tree p).Pairwise fun c d =>
      firstChar text (tree.nodes c) ≠ firstChar text (tree.nodes d)
  nonempty : ∀ v w, Spells text tree (some v) w → (tree.nodes v).isLeaf = false →
    string text (tree.nodes v) ≠ []
  unique : ∀ p q c w z, Spells text tree p w → Spells text tree q z → c ∈ childsOf tree p →
    c ∈ childsOf tree q → p = q
  leaf_suffix : ∀ v w, Spells text tree (some v) w → (tree.nodes v).isLeaf = true →
    ∃ k < text.length, w = text.drop k
  suffix_leaf : ∀ k < text.length, ∃! v, (tree.nodes v).isLeaf = true ∧
    Spells text tree (some v) (text.drop k)
  link_nil : ∀ v c, Spells text tree (some v) [c] → (tree.nodes v).isLeaf = false →
    (tree.nodes v).suffixLink = none
  link_cons : ∀ v c w, Spells text tree (some v) (c :: w) → (tree.nodes v).isLeaf = false →
    w ≠ [] → ∃ d, (tree.nodes v).suffixLink = some d ∧ (tree.nodes d).isLeaf = false ∧
      Spells text tree (some d) w

variable {text}

theorem label_eq_string (n : Node) :
    label text n = (string text n).map UInt8.toNat ++ if n.isLeaf then [256] else [] := rfl

theorem map_toNat_inj {w z : List UInt8} (h : w.map UInt8.toNat = z.map UInt8.toNat) : w = z :=
  List.map_injective_iff.mpr (fun _ _ => UInt8.toNat_inj.mp) h

/-- The end-marker of a node. -/
def markOf (tree : Suffixtree) : Option ℕ → List ℕ
  | none => []
  | some v => if (tree.nodes v).isLeaf then [256] else []

theorem markOf_inner {p : Option ℕ} (h : IsInner tree p) : markOf tree p = [] := by
  cases p with
  | none => rfl
  | some v =>
    rw [markOf, (h v rfl).2]
    rfl

namespace Inv

variable (h : Inv text tree path j none)

include h

theorem of_spells {p : Option ℕ} {w : List UInt8} (hw : Spells text tree p w) :
    Allocated tree p ∧ path p = w.map UInt8.toNat ++ markOf tree p := by
  induction hw with
  | root => exact ⟨(isInner_none tree).allocated, h.path_none⟩
  | @child p c w hp hc ih =>
    obtain ⟨halloc, hpath⟩ := ih
    refine ⟨fun d hd => Option.some_inj.mp hd ▸ h.lt_used halloc hc, ?_⟩
    rw [h.label p c halloc hc, hpath, markOf_inner (h.isInner halloc hc), label_eq_string,
      List.append_nil, List.map_append, List.append_assoc]
    rfl

theorem exists_spells {v : ℕ} (hv : v < tree.used) : ∃ w, Spells text tree (some v) w := by
  generalize hn : (path (some v)).length = n
  induction n using Nat.strong_induction_on generalizing v with
  | _ n ih =>
    obtain ⟨p, hp, hc⟩ := h.valid.parent v hv
    obtain ⟨s, hs⟩ := h.valid.extend p v hp hc
    have hlt := length_lt_of_snoc hs
    cases p with
    | none => exact ⟨_, Spells.child Spells.root hc⟩
    | some p =>
      obtain ⟨w, hw⟩ := ih _ (hn ▸ hlt) hp rfl
      exact ⟨_, Spells.child hw hc⟩

theorem spells_inj {p q : Option ℕ} {w : List UInt8} (hp : Spells text tree p w)
    (hq : Spells text tree q w) (hmark : markOf tree p = markOf tree q) : p = q := by
  obtain ⟨hpa, hpp⟩ := h.of_spells hp
  obtain ⟨hqa, hqp⟩ := h.of_spells hq
  exact h.valid.inj (mem_trieOf.mpr hpa) (mem_trieOf.mpr hqa) (by
    change path p = path q
    rw [hpp, hqp, hmark])

theorem spells_of_path {v : ℕ} {w : List UInt8} (hv : v < tree.used)
    (hpath : path (some v) = w.map UInt8.toNat ++ markOf tree (some v)) :
    Spells text tree (some v) w := by
  obtain ⟨z, hz⟩ := h.exists_spells hv
  have := (h.of_spells hz).2
  rw [hpath] at this
  rwa [map_toNat_inj (List.append_cancel_right this)]

end Inv

theorem Inv.isSuffixTree (h : Inv text tree path text.length none) (hlinks : Links tree path ∅) :
    IsSuffixTree text tree := by
  have hlt : ∀ {v w}, Spells text tree (some v) w → v < tree.used :=
    fun hw => (h.of_spells hw).1 _ rfl
  -- the suffix link of an inner node, with the rest of its string
  have hlink : ∀ {v c w}, Spells text tree (some v) (c :: w) → (tree.nodes v).isLeaf = false →
      IsInner tree (tree.nodes v).suffixLink ∧
        path (tree.nodes v).suffixLink = w.map UInt8.toNat := by
    intro v c w hw hleaf
    obtain ⟨hinner, hpath⟩ := hlinks v (hlt hw) hleaf (Set.notMem_empty v)
    refine ⟨hinner, hpath.trans ?_⟩
    rw [(h.of_spells hw).2, markOf, hleaf]
    exact List.append_nil _
  refine ⟨fun v w hw hleaf => h.two_le v (hlt hw) hleaf (by simp),
    fun v w hw hleaf => h.leaf_childs v (hlt hw) hleaf, fun p w hw => ?_, fun v w hw hleaf => ?_,
    fun p q c w z hw hz hcp hcq => ?_, fun v w hw hleaf => ?_, fun k hk => ?_,
    fun v c hw hleaf => ?_, fun v c w hw hleaf hne => ?_⟩
  · have hp := (h.of_spells hw).1
    refine (h.valid.nodup p (mem_trieOf.mpr hp)).imp_of_mem fun hc hd hcd heq => hcd ?_
    exact h.valid.distinct p _ _ _ (mem_trieOf.mpr hp) hc hd
      ((h.snoc_prefix_iff hp hc).mpr heq) ((h.snoc_prefix_iff hp hd).mpr rfl)
  · cases hw with
    | child hp hc =>
      have hne := h.label_ne_nil (h.of_spells hp).1 hc
      rw [label_eq_string, hleaf] at hne
      exact fun hnil => hne (by rw [hnil]; rfl)
  · exact h.valid.unique p q c (mem_trieOf.mpr (h.of_spells hw).1)
      (mem_trieOf.mpr (h.of_spells hz).1) hcp hcq
  · obtain ⟨k, hk, hpath⟩ := h.leaf v (hlt hw) hleaf
    refine ⟨k, hk, map_toNat_inj ?_⟩
    rw [(h.of_spells hw).2, markOf, hleaf, drop_marked hk.le] at hpath
    exact List.append_cancel_right hpath
  · obtain ⟨v, hv, hleaf, hpath⟩ := h.leaves k hk
    rw [drop_marked hk.le] at hpath
    have hspells : Spells text tree (some v) (text.drop k) :=
      h.spells_of_path hv (by rw [hpath, markOf, hleaf]; rfl)
    refine ⟨v, ⟨hleaf, hspells⟩, ?_⟩
    rintro u ⟨huleaf, hu⟩
    exact Option.some_inj.mp (h.spells_inj hu hspells (by rw [markOf, markOf, hleaf, huleaf]))
  · obtain ⟨hinner, hpath⟩ := hlink hw hleaf
    cases hl : (tree.nodes v).suffixLink with
    | none => rfl
    | some d =>
      rw [hl] at hinner hpath
      exact absurd hpath (h.path_ne_nil (hinner d rfl).1)
  · obtain ⟨hinner, hpath⟩ := hlink hw hleaf
    cases hl : (tree.nodes v).suffixLink with
    | none =>
      rw [hl, h.path_none] at hpath
      exact absurd (List.map_eq_nil_iff.mp hpath.symm) hne
    | some d =>
      rw [hl] at hinner hpath
      refine ⟨d, rfl, (hinner d rfl).2, h.spells_of_path (hinner d rfl).1 ?_⟩
      rw [hpath, markOf_inner hinner, List.append_nil]

/-- **`build_suffixtree` builds the suffix tree** of every text that is not empty and not too
long for the sizes of the nodes. -/
theorem build_isSuffixTree {text : List UInt8} (hne : text ≠ [])
    (hmax : text.length ≤ SIZE_MAX / 2) {turns : ℕ} (hturns : text.length + 1 < turns) :
    ∃ tree, buildSuffixtree text turns = .ok tree ∧ IsSuffixTree text tree := by
  obtain ⟨tree, path, hbuild, -, hinv, hlinks⟩ := build_spec hne hmax hturns
  exact ⟨tree, hbuild, hinv.isSuffixTree hlinks⟩

/-- A text with repeats and zeros. -/
theorem build_isSuffixTree_zeros :
    ∃ tree, buildSuffixtree [0, 0, 1, 0, 0, 1, 0, 0, 0] 11 = .ok tree ∧
      IsSuffixTree [0, 0, 1, 0, 0, 1, 0, 0, 0] tree :=
  build_isSuffixTree (by decide) (by decide) (by decide)

end Suffixtree
end CKern
