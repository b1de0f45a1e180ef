import CKern.Library.BlockHeap
import Mathlib.Data.List.Nodup
import Mathlib.Data.Fin.VecNotation

/-!
# Freeing a trie without a stack

`free_trie` gives back all nodes of a trie.  It has no stack: while it is in the children of a node,
the first slot of the child array holds the parent of this node, and the byte before the array the
index of the child.  If the children are in a subnode, its first slot and the number of children in
the node take these places.

* `childoff4Trienode`, `nodesizeTrienode`, `deleteTrienode`: the layout of a node, and how one node
  is given back.
* `step1`, `step3`, `step`, `run`: the loop of `free_trie`, with the numbers that its comments give
  to the steps.  A step that accesses a block which is not there has no result.
* `Subtrie`, `Subtrie.WellFormed`: the nodes that a heap holds for a trie.
* `Site`: what the overwritten bytes are for a node, whether it has a subnode or not.  The layout of
  the node can still be read when they have been overwritten (`Site.At.setCursor`).
* `Subtrie.freed`: the run gives a whole subtrie back and is at its parent again.
* `freeTrie_frees_all`: the run ends, and has given back every block exactly once and with its size.
-/

namespace CKern
namespace FreeTrie

open BlockHeap

/-! ## The layout of a node -/

def headerKeylenMask : UInt8 := 7
def headerKeylenByte : UInt8 := 7
def headerSubnode : UInt8 := 16
def headerSizeMask : UInt8 := 32 + 64 + 128
def headerSizeShift : UInt8 := 5

/-- The size of a pointer, and its alignment in a node. -/
def ptrAlign : Nat := 8

/-- The number of slots in a subnode. -/
def lengthofChild : Nat := 256

/-- The size of a subnode. -/
def sizeofSubnode : Nat := ptrAlign * lengthofChild

def needkeylenbyteHeader (keylen : UInt8) : Nat := if headerKeylenByte ≤ keylen then 1 else 0

def keylenHeader (header : UInt8) : UInt8 := header &&& headerKeylenMask

def sizeflagsHeader (header : UInt8) : UInt8 := (header &&& headerSizeMask) >>> headerSizeShift

def issubnodeHeader (header : UInt8) : Bool := header &&& headerSubnode != 0

/-- `alignoffset_trienode`: the offset at or behind the given one where a pointer can be. -/
def alignoffsetTrienode (offset : Nat) : Nat := (offset + (ptrAlign - 1)) / ptrAlign * ptrAlign

def off1KeylenTrienode : Nat := 2

def off2KeyTrienode (islenbyte : Nat) : Nat := off1KeylenTrienode + islenbyte

def off3DigitTrienode (off2Key keylen : Nat) : Nat := off2Key + keylen

def off4ChildTrienode (off3Digit digitsize : Nat) : Nat :=
  alignoffsetTrienode (off3Digit + digitsize)

def digitsizeTrienode (issubnode : Bool) (nrchild : UInt8) : Nat :=
  if issubnode then 0 else nrchild.toNat

section Layout

variable (h : Heap) (node : Addr)

def headerTrienode : Option UInt8 := h.byte node 0

def nrchildTrienode : Option UInt8 := h.byte node 1

def issubnodeTrienode : Option Bool := (headerTrienode h node).map issubnodeHeader

def nodesizeTrienode : Option Nat :=
  (headerTrienode h node).map fun header => (2 * ptrAlign) <<< (sizeflagsHeader header).toNat

def keylenTrienode : Option UInt8 :=
  (headerTrienode h node).bind fun header =>
    if keylenHeader header = headerKeylenByte then h.byte node off1KeylenTrienode
    else some (keylenHeader header)

/-- `childoff4_trienode`: where the child array or the pointer to the subnode is. -/
def childoff4Trienode : Option Nat := do
  let keylen ← keylenTrienode h node
  let off2 := off2KeyTrienode (needkeylenbyteHeader keylen)
  let off3 := off3DigitTrienode off2 keylen.toNat
  let issubnode ← issubnodeTrienode h node
  let nrchild ← nrchildTrienode h node
  return off4ChildTrienode off3 (digitsizeTrienode issubnode nrchild)

/-- `subnode_trienode`, for a pointer that is followed. -/
def subnodeTrienode (off4Child : Nat) : Option Addr := (h.ptr node off4Child).join

end Layout

theorem childoff4_eq_some_iff {h : Heap} {q : Addr} {off4 : Nat} :
    childoff4Trienode h q = some off4 ↔ ∃ keylen issub nrchild, keylenTrienode h q = some keylen ∧
      issubnodeTrienode h q = some issub ∧ nrchildTrienode h q = some nrchild ∧
      off4ChildTrienode (off3DigitTrienode (off2KeyTrienode (needkeylenbyteHeader keylen))
        keylen.toNat) (digitsizeTrienode issub nrchild) = off4 := by
  simp [childoff4Trienode, Option.bind_eq_some_iff]

theorem le_childoff4 {h : Heap} {q : Addr} {off4 : Nat}
    (hoff : childoff4Trienode h q = some off4) : ptrAlign ≤ off4 := by
  obtain ⟨keylen, issub, nrchild, -, -, -, rfl⟩ := childoff4_eq_some_iff.mp hoff
  simp only [off4ChildTrienode, alignoffsetTrienode, off3DigitTrienode, off2KeyTrienode,
    off1KeylenTrienode, ptrAlign]
  omega

/-! ## Giving back one node -/

/-- What the memory manager returns for a call that gives back memory: it may depend on all the
calls so far.  The result is an error unless it is 0. -/
abbrev Manager := List (Addr × Nat) → Int

section Delete

variable (mm : Manager) (h : Heap)

/-- `FREE_ERR_MM`: the memory is given back, and then there may be an error. -/
def freememoryTrienode (memaddr : Addr) (memsize : Nat) : Option (Heap × Int) :=
  (h.free memaddr memsize).map fun h => (h, mm h.freed)

def deleteTriesubnode (subnode : Option Addr) : Option (Heap × Int) :=
  match subnode with
  | some delnode => freememoryTrienode mm h delnode sizeofSubnode
  | none => some (h, 0)

def deleteTrienode (delnode : Addr) : Option (Heap × Int) := do
  let (h, err) ← match ← issubnodeTrienode h delnode with
    | true => do
      let subnode ← h.ptr delnode (← childoff4Trienode h delnode)
      deleteTriesubnode mm h subnode
    | false => some (h, 0)
  let (h, err2) ← freememoryTrienode mm h delnode (← nodesizeTrienode h delnode)
  return (h, if err2 ≠ 0 then err2 else err)

end Delete

/-! ## The loop -/

/-- The search for a child in `n` slots from slot `i` on. -/
def findChild (h : Heap) (table : Addr) (base : Nat) : Nat → Nat → Option (Option (Nat × Addr))
  | _, 0 => some none
  | i, n + 1 =>
    match h.ptr table (base + ptrAlign * i) with
    | some (some child) => some (some (i, child))
    | some none => findChild h table base (i + 1) n
    | none => none

/-- Where the loop is: a node is encountered for the first time, or its children are all given back,
or the loop is back at `parent` after one of its children was given back. -/
inductive Control where
  | step1 (parent : Option Addr) (delnode : Addr)
  | step2 (parent : Option Addr) (delnode : Addr)
  | step3 (parent : Option Addr)
  | leave

/-- The memory, `trie->root`, the variable `err` and the place in the loop. -/
structure State where
  heap : Heap
  root : Option Addr
  err : Int
  control : Control

/-- Step 1: the parent goes into the first slot and the loop descends into the first child. -/
def step1 (h : Heap) (parent : Option Addr) (delnode : Addr) : Option (Heap × Control) := do
  match ← issubnodeTrienode h delnode with
  | false =>
    let off4 ← childoff4Trienode h delnode
    match ← findChild h delnode off4 0 (← nrchildTrienode h delnode).toNat with
    | some (i, firstchild) =>
      -- the last index, over a digit or over the padding
      let h ← h.setByte delnode (off4 - 1) (UInt8.ofNat i)
      let h ← h.setPtr delnode off4 parent
      return (h, .step1 (some delnode) firstchild)
    | none => return (h, .step2 parent delnode)
  | true =>
    let subnode ← subnodeTrienode h delnode (← childoff4Trienode h delnode)
    match ← findChild h subnode 0 0 lengthofChild with
    | some (i, firstchild) =>
      let h ← h.setByte delnode 1 (UInt8.ofNat i)
      let h ← h.setPtr subnode 0 parent
      return (h, .step1 (some delnode) firstchild)
    | none => return (h, .step2 parent delnode)

/-- Step 3: the next child of the parent, or the parent itself when there is no other child. -/
def step3 (h : Heap) (delnode : Addr) : Option (Heap × Control) := do
  match ← issubnodeTrienode h delnode with
  | false =>
    let off4 ← childoff4Trienode h delnode
    let last ← h.byte delnode (off4 - 1)
    let nrchild ← nrchildTrienode h delnode
    match ← findChild h delnode off4 (1 + last.toNat) (nrchild.toNat - (1 + last.toNat)) with
    | some (i, child) =>
      let h ← h.setByte delnode (off4 - 1) (UInt8.ofNat i)
      return (h, .step1 (some delnode) child)
    | none =>
      let parent ← h.ptr delnode off4
      return (h, .step2 parent delnode)
  | true =>
    let subnode ← subnodeTrienode h delnode (← childoff4Trienode h delnode)
    let last ← nrchildTrienode h delnode
    match ← findChild h subnode 0 (1 + last.toNat) (lengthofChild - (1 + last.toNat)) with
    | some (i, child) =>
      let h ← h.setByte delnode 1 (UInt8.ofNat i)
      return (h, .step1 (some delnode) child)
    | none =>
      let parent ← h.ptr subnode 0
      return (h, .step2 parent delnode)

/-- One step of `free_trie`. -/
def step (mm : Manager) (s : State) : Option State :=
  match s.control with
  | .step1 parent delnode =>
    (step1 s.heap parent delnode).map fun (h, c) => { s with heap := h, control := c }
  | .step2 parent delnode =>
    (deleteTrienode mm s.heap delnode).map fun (h, err2) =>
      { s with heap := h, err := if err2 ≠ 0 then err2 else s.err, control := .step3 parent }
  | .step3 (some parent) =>
    (step3 s.heap parent).map fun (h, c) => { s with heap := h, control := c }
  | .step3 none => some { s with root := none, control := .leave }
  | .leave => some s

/-- `n` steps. -/
def run (mm : Manager) : Nat → State → Option State
  | 0, s => some s
  | n + 1, s => (step mm s).bind (run mm n)

/-- Where `free_trie` begins. -/
def freeTrie (h : Heap) (root : Option Addr) : State where
  heap := h
  root := root
  err := 0
  control :=
    match root with
    | some delnode => .step1 none delnode
    | none => .leave

/-! ## The nodes of a trie -/

/-- Where a node has its children: in an array from `off4` on, or in the subnode at `sub`, in
`limit` slots. -/
structure Site where
  sub : Option Addr
  off4 : Nat
  limit : Nat

namespace Site

/-- The byte that holds the last index. -/
def cursor (s : Site) : Nat :=
  match s.sub with
  | none => s.off4 - 1
  | some _ => 1

/-- The block of the slots. -/
def table (s : Site) (q : Addr) : Addr := s.sub.getD q

/-- The first slot. -/
def base (s : Site) : Nat :=
  match s.sub with
  | none => s.off4
  | some _ => 0

/-- The blocks of a node. -/
def own (s : Site) (q : Addr) : List Addr := q :: s.sub.toList

/-- The heap holds a node of this size at `q`, with its slots at the site: its header names its
size and whether there is a subnode, and its lengths lead to the slots. -/
structure At (s : Site) (h : Heap) (q : Addr) (size : Nat) : Prop where
  allocated : h.size q = some size
  nodesize : nodesizeTrienode h q = some size
  issubnode : issubnodeTrienode h q = some s.sub.isSome
  childoff4 : childoff4Trienode h q = some s.off4
  cursor : ∃ v, h.byte q s.cursor = some v
  nrchild : s.sub = none → ∃ n, nrchildTrienode h q = some n ∧ n.toNat = s.limit
  subnode : ∀ a, s.sub = some a → a ≠ q ∧ h.ptr q s.off4 = some (some a) ∧
    h.size a = some sizeofSubnode ∧ s.limit = lengthofChild

end Site

mutual

/-- A node with all nodes below it: where it is, its size, its subnode if it has one. -/
inductive Subtrie where
  | node (addr : Addr) (size : Nat) (sub : Option Addr) (childs : Childs)

/-- The slots of a node.  A slot can be null. -/
inductive Childs where
  | nil
  | null (rest : Childs)
  | child (t : Subtrie) (rest : Childs)

end

def Subtrie.addr : Subtrie → Addr
  | .node addr _ _ _ => addr

/-- What the slots hold. -/
def Childs.slots : Childs → List (Option Addr)
  | .nil => []
  | .null rest => none :: rest.slots
  | .child t rest => some t.addr :: rest.slots

mutual

/-- The blocks of all nodes and subnodes, with their sizes. -/
def Subtrie.blocks : Subtrie → List (Addr × Nat)
  | .node addr size sub childs =>
    (addr, size) :: (sub.toList.map fun a => (a, sizeofSubnode)) ++ childs.blocks

def Childs.blocks : Childs → List (Addr × Nat)
  | .nil => []
  | .null rest => rest.blocks
  | .child t rest => t.blocks ++ rest.blocks

end

/-- The slots from slot `i` on hold the given pointers. -/
def SlotsFrom (h : Heap) (table : Addr) (base i : Nat) (slots : List (Option Addr)) : Prop :=
  ∀ k p, slots[k]? = some p → h.ptr table (base + ptrAlign * (i + k)) = some p

mutual

/-- The heap holds the node and all nodes below it. -/
def Subtrie.Stored (h : Heap) : Subtrie → Prop
  | .node addr size sub childs =>
    (∃ s : Site, s.sub = sub ∧ s.At h addr size ∧ s.limit = childs.slots.length ∧
      SlotsFrom h (s.table addr) s.base 0 childs.slots) ∧
    childs.Stored h

def Childs.Stored (h : Heap) : Childs → Prop
  | .nil => True
  | .null rest => rest.Stored h
  | .child t rest => t.Stored h ∧ rest.Stored h

end

/-- **A well formed trie**: the heap holds its nodes, each one in a block of its own. -/
structure Subtrie.WellFormed (h : Heap) (t : Subtrie) : Prop where
  stored : t.Stored h
  nodup : (t.blocks.map Prod.fst).Nodup

/-! ## The layout does not depend on the overwritten bytes -/

section Congr

variable {h h' : Heap} {q : Addr}

theorem issubnode_congr (h0 : h'.byte q 0 = h.byte q 0) :
    issubnodeTrienode h' q = issubnodeTrienode h q := by
  rw [issubnodeTrienode, issubnodeTrienode, headerTrienode, headerTrienode, h0]

theorem nodesize_congr (h0 : h'.byte q 0 = h.byte q 0) :
    nodesizeTrienode h' q = nodesizeTrienode h q := by
  rw [nodesizeTrienode, nodesizeTrienode, headerTrienode, headerTrienode, h0]

theorem keylen_congr (h0 : h'.byte q 0 = h.byte q 0) (h2 : h'.byte q 2 = h.byte q 2) :
    keylenTrienode h' q = keylenTrienode h q := by
  rw [keylenTrienode, keylenTrienode, headerTrienode, headerTrienode, h0, off1KeylenTrienode, h2]

theorem childoff4_congr {off4 : Nat} (h0 : h'.byte q 0 = h.byte q 0)
    (h2 : h'.byte q 2 = h.byte q 2) {n : UInt8} (hn : nrchildTrienode h' q = some n)
    (hdigits : issubnodeTrienode h q = some true ∨ nrchildTrienode h q = some n)
    (hoff : childoff4Trienode h q = some off4) : childoff4Trienode h' q = some off4 := by
  obtain ⟨keylen, issub, nrchild, hkey, hsub, hnr, heq⟩ := childoff4_eq_some_iff.mp hoff
  refine childoff4_eq_some_iff.mpr ⟨keylen, issub, n, ?_, ?_, hn, ?_⟩
  · rw [keylen_congr h0 h2, hkey]
  · rw [issubnode_congr h0, hsub]
  · rcases hdigits with htrue | hsame
    · obtain rfl : issub = true := Option.some.inj (hsub.symm.trans htrue)
      exact heq
    · obtain rfl : nrchild = n := Option.some.inj (hnr.symm.trans hsame)
      exact heq

end Congr

namespace Site

variable {s : Site} {h h' : Heap} {q : Addr} {size : Nat}

theorem mem_own_self (s : Site) (q : Addr) : q ∈ s.own q := List.mem_cons_self ..

theorem mem_own_table (s : Site) (q : Addr) : s.table q ∈ s.own q := by
  unfold table own
  cases s.sub <;> simp

theorem At.cursor_ne (hs : s.At h q size) :
    s.cursor ≠ 0 ∧ s.cursor ≠ 2 ∧ (s.sub = none → s.cursor ≠ 1) := by
  have hle : 8 ≤ s.off4 := le_childoff4 hs.childoff4
  unfold Site.cursor
  cases s.sub with
  | none => simp only [forall_const]; omega
  | some a => simp

theorem At.congr (hs : s.At h q size) (hown : ∀ a ∈ s.own q, h'.block a = h.block a) :
    s.At h' q size := by
  have hq := hown q (s.mem_own_self q)
  have h0 := Heap.byte_congr hq 0
  have h1 : nrchildTrienode h' q = nrchildTrienode h q := Heap.byte_congr hq 1
  obtain ⟨keylen, issub, n, -, -, hn, -⟩ := childoff4_eq_some_iff.mp hs.childoff4
  constructor
  · rw [Heap.size_congr hq, hs.allocated]
  · rw [nodesize_congr h0, hs.nodesize]
  · rw [issubnode_congr h0, hs.issubnode]
  · exact childoff4_congr h0 (Heap.byte_congr hq 2) (h1.trans hn) (.inr hn) hs.childoff4
  · rw [Heap.byte_congr hq]
    exact hs.cursor
  · rw [h1]
    exact hs.nrchild
  · intro a ha
    have hmem : a ∈ s.own q := by simp [own, ha]
    rw [Heap.ptr_congr hq, Heap.size_congr (hown a hmem)]
    exact hs.subnode a ha

/-- **The last index may be written**: the layout can be read as before. -/
theorem At.setCursor (hs : s.At h q size) {v : UInt8} (hset : h.setByte q s.cursor v = some h') :
    s.At h' q size := by
  obtain ⟨hc0, hc2, hc1⟩ := hs.cursor_ne
  have h0 : h'.byte q 0 = h.byte q 0 := Heap.byte_setByte_of_ne hset hc0.symm
  have h2 : h'.byte q 2 = h.byte q 2 := Heap.byte_setByte_of_ne hset hc2.symm
  constructor
  · rw [Heap.size_setByte hset, hs.allocated]
  · rw [nodesize_congr h0, hs.nodesize]
  · rw [issubnode_congr h0, hs.issubnode]
  · cases hsub : s.sub with
    | none =>
      have h1 : nrchildTrienode h' q = nrchildTrienode h q :=
        Heap.byte_setByte_of_ne hset (hc1 hsub).symm
      obtain ⟨n, hn, -⟩ := hs.nrchild hsub
      exact childoff4_congr h0 h2 (h1.trans hn) (.inr hn) hs.childoff4
    | some a =>
      have hcur : s.cursor = 1 := by rw [Site.cursor, hsub]
      have hn : nrchildTrienode h' q = some v := by
        rw [hcur] at hset
        exact Heap.byte_setByte hset
      have htrue : issubnodeTrienode h q = some true := by rw [hs.issubnode, hsub]; rfl
      exact childoff4_congr h0 h2 hn (.inl htrue) hs.childoff4
  · exact ⟨v, Heap.byte_setByte hset⟩
  · intro hsub
    have h1 : nrchildTrienode h' q = nrchildTrienode h q :=
      Heap.byte_setByte_of_ne hset (hc1 hsub).symm
    rw [h1]
    exact hs.nrchild hsub
  · intro a ha
    rw [Heap.ptr_setByte hset, Heap.size_setByte hset]
    exact hs.subnode a ha

/-- **The first slot may be written.** -/
theorem At.setFirst (hs : s.At h q size) {p : Option Addr}
    (hset : h.setPtr (s.table q) s.base p = some h') : s.At h' q size := by
  have hbyte : ∀ i, h'.byte q i = h.byte q i := Heap.byte_setPtr hset q
  have h1 : nrchildTrienode h' q = nrchildTrienode h q := hbyte 1
  obtain ⟨keylen, issub, n, -, -, hn, -⟩ := childoff4_eq_some_iff.mp hs.childoff4
  constructor
  · rw [Heap.size_setPtr hset, hs.allocated]
  · rw [nodesize_congr (hbyte 0), hs.nodesize]
  · rw [issubnode_congr (hbyte 0), hs.issubnode]
  · exact childoff4_congr (hbyte 0) (hbyte 2) (h1.trans hn) (.inr hn) hs.childoff4
  · rw [hbyte]
    exact hs.cursor
  · rw [h1]
    exact hs.nrchild
  · intro a ha
    obtain ⟨hne, hptr, hsize, hlimit⟩ := hs.subnode a ha
    have htable : q ≠ s.table q := by
      rw [table, ha, Option.getD_some]
      exact hne.symm
    rw [Heap.ptr_setPtr_of_ne hset (.inl htable), Heap.size_setPtr hset]
    exact ⟨hne, hptr, hsize, hlimit⟩

end Site

/-! ## The steps on a site -/

section Steps

variable {s : Site} {h h' : Heap} {q : Addr} {size : Nat}

theorem findChild_null {table : Addr} {base i : Nat} (n : Nat)
    (hp : h.ptr table (base + ptrAlign * i) = some none) :
    findChild h table base i (n + 1) = findChild h table base (i + 1) n := by
  rw [findChild, hp]

theorem findChild_child {table c : Addr} {base i : Nat} (n : Nat)
    (hp : h.ptr table (base + ptrAlign * i) = some (some c)) :
    findChild h table base i (n + 1) = some (some (i, c)) := by
  rw [findChild, hp]

theorem exists_ptr_of_findChild {table : Addr} {base n : Nat} {r : Nat × Addr}
    (hfind : findChild h table base 0 n = some (some r)) : ∃ p, h.ptr table base = some p := by
  cases n with
  | zero => cases hfind
  | succ n =>
    rw [findChild, Nat.mul_zero, Nat.add_zero] at hfind
    cases hp : h.ptr table base with
    | none => simp [hp] at hfind
    | some p => exact ⟨p, rfl⟩

theorem Site.At.subnodeTrienode_eq (hs : s.At h q size) {a : Addr} (hsub : s.sub = some a) :
    subnodeTrienode h q s.off4 = some a := by
  rw [subnodeTrienode, (hs.subnode a hsub).2.1, Option.join_some]

theorem step1_of_child (hs : s.At h q size) {p : Option Addr} {i : Nat} {c : Addr}
    (hfind : findChild h (s.table q) s.base 0 s.limit = some (some (i, c))) {h1 h2 : Heap}
    (hcursor : h.setByte q s.cursor (UInt8.ofNat i) = some h1)
    (hfirst : h1.setPtr (s.table q) s.base p = some h2) :
    step1 h p q = some (h2, .step1 (some q) c) := by
  obtain ⟨sub, off4, limit⟩ := s
  cases sub with
  | none =>
    obtain ⟨n, hn, rfl⟩ := hs.nrchild rfl
    simp only [Site.table, Site.base, Site.cursor, Option.getD_none] at hfind hcursor hfirst
    simp [step1, hs.issubnode, hs.childoff4, hn, hfind, hcursor, hfirst]
  | some a =>
    obtain ⟨-, -, -, rfl⟩ := hs.subnode a rfl
    simp only [Site.table, Site.base, Site.cursor, Option.getD_some] at hfind hcursor hfirst
    simp [step1, hs.issubnode, hs.childoff4, hs.subnodeTrienode_eq rfl, hfind, hcursor, hfirst]

theorem step1_of_none (hs : s.At h q size) (p : Option Addr)
    (hfind : findChild h (s.table q) s.base 0 s.limit = some none) :
    step1 h p q = some (h, .step2 p q) := by
  obtain ⟨sub, off4, limit⟩ := s
  cases sub with
  | none =>
    obtain ⟨n, hn, rfl⟩ := hs.nrchild rfl
    simp only [Site.table, Site.base, Option.getD_none] at hfind
    simp [step1, hs.issubnode, hs.childoff4, hn, hfind]
  | some a =>
    obtain ⟨-, -, -, rfl⟩ := hs.subnode a rfl
    simp only [Site.table, Site.base, Option.getD_some] at hfind
    simp [step1, hs.issubnode, hs.childoff4, hs.subnodeTrienode_eq rfl, hfind]

theorem step3_of_child (hs : s.At h q size) {last : UInt8} (hlast : h.byte q s.cursor = some last)
    {i : Nat} {c : Addr} (hfind : findChild h (s.table q) s.base (1 + last.toNat)
      (s.limit - (1 + last.toNat)) = some (some (i, c))) {h1 : Heap}
    (hcursor : h.setByte q s.cursor (UInt8.ofNat i) = some h1) :
    step3 h q = some (h1, .step1 (some q) c) := by
  obtain ⟨sub, off4, limit⟩ := s
  cases sub with
  | none =>
    obtain ⟨n, hn, rfl⟩ := hs.nrchild rfl
    simp only [Site.table, Site.base, Site.cursor, Option.getD_none] at hfind hcursor hlast
    simp [step3, hs.issubnode, hs.childoff4, hn, hlast, hfind, hcursor]
  | some a =>
    obtain ⟨-, -, -, rfl⟩ := hs.subnode a rfl
    simp only [Site.table, Site.base, Site.cursor, Option.getD_some] at hfind hcursor hlast
    simp [step3, hs.issubnode, hs.childoff4, hs.subnodeTrienode_eq rfl, nrchildTrienode, hlast,
      hfind, hcursor]

theorem step3_of_none (hs : s.At h q size) {last : UInt8} (hlast : h.byte q s.cursor = some last)
    (hfind : findChild h (s.table q) s.base (1 + last.toNat) (s.limit - (1 + last.toNat)) =
      some none) {p : Option Addr} (hp : h.ptr (s.table q) s.base = some p) :
    step3 h q = some (h, .step2 p q) := by
  obtain ⟨sub, off4, limit⟩ := s
  cases sub with
  | none =>
    obtain ⟨n, hn, rfl⟩ := hs.nrchild rfl
    simp only [Site.table, Site.base, Site.cursor, Option.getD_none] at hfind hp hlast
    simp [step3, hs.issubnode, hs.childoff4, hn, hlast, hfind, hp]
  | some a =>
    obtain ⟨-, -, -, rfl⟩ := hs.subnode a rfl
    simp only [Site.table, Site.base, Site.cursor, Option.getD_some] at hfind hp hlast
    simp [step3, hs.issubnode, hs.childoff4, hs.subnodeTrienode_eq rfl, nrchildTrienode, hlast,
      hfind, hp]

theorem exists_block {a : Addr} (ha : h.size a = some size) : ∃ b, h.block a = some b := by
  obtain ⟨b, hb, -⟩ := Option.map_eq_some_iff.mp ha
  exact ⟨b, hb⟩

theorem exists_deleteTrienode (mm : Manager) (hs : s.At h q size) :
    ∃ h' err, deleteTrienode mm h q = some (h', err) ∧
      Frees ((q, size) :: s.sub.toList.map fun a => (a, sizeofSubnode)) [] h h' := by
  obtain ⟨b, hb⟩ := exists_block hs.allocated
  obtain ⟨sub, off4, limit⟩ := s
  cases sub with
  | none =>
    obtain ⟨h1, hfree, hfrees⟩ := Heap.exists_free hb size
    refine ⟨h1, if mm h1.freed ≠ 0 then mm h1.freed else 0, ?_, hfrees⟩
    simp [deleteTrienode, hs.issubnode, hs.nodesize, freememoryTrienode, hfree]
  | some a =>
    obtain ⟨hne, hptr, hsize, -⟩ := hs.subnode a rfl
    obtain ⟨sb, hsb⟩ := exists_block hsize
    obtain ⟨h1, hfree1, hfrees1⟩ := Heap.exists_free hsb sizeofSubnode
    have hq : h1.block q = h.block q := hfrees1.frame q (by simpa using hne.symm) (by simp)
    have hnodesize : nodesizeTrienode h1 q = some size := by
      rw [nodesize_congr (Heap.byte_congr hq 0), hs.nodesize]
    obtain ⟨h2, hfree2, hfrees2⟩ := Heap.exists_free (hq.trans hb) size
    refine ⟨h2, if mm h2.freed ≠ 0 then mm h2.freed else mm h1.freed, ?_, ?_⟩
    · simp [deleteTrienode, hs.issubnode, hs.childoff4, hptr, deleteTriesubnode,
        freememoryTrienode, hfree1, hnodesize, hfree2]
    · have hboth := hfrees1.trans hfrees2 (by simpa using hne)
      exact hboth.perm (List.Perm.swap ..)

end Steps

/-! ## Runs -/

section Step

variable (mm : Manager) {h h' : Heap} (root : Option Addr) (err : Int) {q : Addr} {c : Control}

theorem step_step1 {p : Option Addr} (hstep : step1 h p q = some (h', c)) :
    step mm ⟨h, root, err, .step1 p q⟩ = some ⟨h', root, err, c⟩ := by
  simp only [step, hstep, Option.map_some]

theorem step_step2 {err2 : Int} (p : Option Addr) (hdel : deleteTrienode mm h q = some (h', err2)) :
    step mm ⟨h, root, err, .step2 p q⟩ =
      some ⟨h', root, if err2 ≠ 0 then err2 else err, .step3 p⟩ := by
  simp only [step, hdel, Option.map_some]

theorem step_step3 (hstep : step3 h q = some (h', c)) :
    step mm ⟨h, root, err, .step3 (some q)⟩ = some ⟨h', root, err, c⟩ := by
  simp only [step, hstep, Option.map_some]

end Step

/-- The run from one state comes to another one. -/
def Reaches (mm : Manager) (s s' : State) : Prop := ∃ n, run mm n s = some s'

namespace Reaches

variable {mm : Manager} {s s₁ s₂ : State}

theorem refl (s : State) : Reaches mm s s := ⟨0, rfl⟩

theorem of_step (hstep : step mm s = some s₁) (h : Reaches mm s₁ s₂) : Reaches mm s s₂ := by
  obtain ⟨n, hn⟩ := h
  exact ⟨n + 1, by rw [run, hstep, Option.bind_some, hn]⟩

end Reaches

theorem run_add (mm : Manager) (m n : Nat) (s : State) :
    run mm (m + n) s = (run mm m s).bind (run mm n) := by
  induction m generalizing s with
  | zero => rw [Nat.zero_add, run, Option.bind_some]
  | succ m ih =>
    rw [Nat.succ_add, run, run, Option.bind_assoc]
    exact congrArg _ (funext ih)

theorem Reaches.trans {mm : Manager} {s s₁ s₂ : State} (h1 : Reaches mm s s₁)
    (h2 : Reaches mm s₁ s₂) : Reaches mm s s₂ := by
  obtain ⟨m, hm⟩ := h1
  obtain ⟨n, hn⟩ := h2
  exact ⟨m + n, by rw [run_add, hm, Option.bind_some, hn]⟩

theorem run_of_leave (mm : Manager) (n : Nat) {s : State} (hs : s.control = .leave) :
    run mm n s = some s := by
  induction n with
  | zero => rfl
  | succ n ih =>
    have hstep : step mm s = some s := by rw [step, hs]
    rw [run, hstep, Option.bind_some, ih]

/-! ## A whole subtrie -/

mutual

theorem Subtrie.Stored.congr {h h' : Heap} : ∀ {t : Subtrie}, t.Stored h →
    (∀ a ∈ t.blocks.map Prod.fst, h'.block a = h.block a) → t.Stored h'
  | .node addr size sub childs, ht, hsame => by
    rw [Subtrie.Stored] at ht ⊢
    obtain ⟨⟨s, hsub, hs, hlimit, hslots⟩, hchilds⟩ := ht
    have hown : ∀ a ∈ s.own addr, h'.block a = h.block a := by
      intro a ha
      refine hsame a ?_
      rw [Site.own, hsub] at ha
      simp only [Subtrie.blocks, List.cons_append, List.map_cons, List.map_append, List.map_map,
        List.mem_cons, List.mem_append] at ha ⊢
      rcases ha with ha | ha
      · exact .inl ha
      · exact .inr (.inl (by simpa using ha))
    refine ⟨⟨s, hsub, hs.congr hown, hlimit, ?_⟩, hchilds.congr fun a ha => hsame a ?_⟩
    · intro k p hk
      rw [Heap.ptr_congr (hown _ (s.mem_own_table addr)), hslots k p hk]
    · rw [Subtrie.blocks, List.map_append]
      exact List.mem_append_right _ ha

theorem Childs.Stored.congr {h h' : Heap} : ∀ {ks : Childs}, ks.Stored h →
    (∀ a ∈ ks.blocks.map Prod.fst, h'.block a = h.block a) → ks.Stored h'
  | .nil, _, _ => by
    rw [Childs.Stored]
    trivial
  | .null rest, hks, hsame => by
    rw [Childs.Stored] at hks ⊢
    exact hks.congr hsame
  | .child t rest, hks, hsame => by
    rw [Childs.Stored] at hks ⊢
    rw [Childs.blocks, List.map_append] at hsame
    exact ⟨hks.1.congr fun a ha => hsame a (List.mem_append_left _ ha),
      hks.2.congr fun a ha => hsame a (List.mem_append_right _ ha)⟩

end

/-- The node at `q` is left for the child with index `last`: the index and the parent are noted. -/
structure Marked (h : Heap) (q : Addr) (size : Nat) (s : Site) (last : Nat) (p : Option Addr) :
    Prop where
  at_site : s.At h q size
  cursor : h.byte q s.cursor = some (UInt8.ofNat last)
  first : h.ptr (s.table q) s.base = some p

/-- From its root on, the subtrie is given back, and the run is at the parent again. -/
def Subtrie.Freed (mm : Manager) (t : Subtrie) : Prop :=
  ∀ {h : Heap} (root : Option Addr) (err : Int) (p : Option Addr), t.WellFormed h →
    ∃ h' err', Reaches mm ⟨h, root, err, .step1 p t.addr⟩ ⟨h', root, err', .step3 p⟩ ∧
      Frees t.blocks [] h h'

/-- The slots are what is left of the slots of the node at `q` from slot `j` on. -/
structure Pending (h : Heap) (q : Addr) (s : Site) (j : Nat) (ks : Childs) : Prop where
  stored : ks.Stored h
  nodup : (ks.blocks.map Prod.fst).Nodup
  disjoint : ∀ a ∈ ks.blocks.map Prod.fst, a ∉ s.own q
  slots : SlotsFrom h (s.table q) s.base j ks.slots
  length : j + ks.slots.length = s.limit

/-- The children in the slots are given back, and then the node is ready to be given back. -/
def GivesBack (mm : Manager) (start : State) (p : Option Addr) (q : Addr) (size : Nat) (s : Site)
    (ks : Childs) : Prop :=
  ∃ h' err', Reaches mm start ⟨h', start.root, err', .step2 p q⟩ ∧ s.At h' q size ∧
    Frees ks.blocks (s.own q) start.heap h'

/-- From the return out of the child before slot `j` on, the children from this slot on are given
back. -/
def Childs.FreedNext (mm : Manager) (ks : Childs) : Prop :=
  ∀ {h : Heap} {q : Addr} {size : Nat} {s : Site} {last j : Nat} {p : Option Addr}
    (root : Option Addr) (err : Int), Marked h q size s last p → last < lengthofChild →
    Pending h q s j ks →
    findChild h (s.table q) s.base (1 + last) (s.limit - (1 + last)) =
      findChild h (s.table q) s.base j ks.slots.length →
    GivesBack mm ⟨h, root, err, .step3 (some q)⟩ p q size s ks

/-- The same from the first visit of a node, when the slots before slot `j` are null. -/
def Childs.FreedFirst (mm : Manager) (ks : Childs) : Prop :=
  ∀ {h : Heap} {q : Addr} {size : Nat} {s : Site} {j : Nat} (root : Option Addr) (err : Int)
    (p : Option Addr), s.At h q size → Pending h q s j ks →
    findChild h (s.table q) s.base 0 s.limit = findChild h (s.table q) s.base j ks.slots.length →
    GivesBack mm ⟨h, root, err, .step1 p q⟩ p q size s ks

section Pending

variable {mm : Manager} {h h' : Heap} {q : Addr} {size : Nat} {s : Site} {j : Nat}
  {p : Option Addr} {t : Subtrie} {rest ks : Childs}

theorem Marked.congr {last : Nat} (hm : Marked h q size s last p)
    (hown : ∀ a ∈ s.own q, h'.block a = h.block a) : Marked h' q size s last p where
  at_site := hm.at_site.congr hown
  cursor := (Heap.byte_congr (hown q (s.mem_own_self q)) _).trans hm.cursor
  first := (Heap.ptr_congr (hown _ (s.mem_own_table q)) _).trans hm.first

theorem Site.At.limit_le (hs : s.At h q size) : s.limit ≤ lengthofChild := by
  cases hsub : s.sub with
  | none =>
    obtain ⟨n, -, hn⟩ := hs.nrchild hsub
    have hlt : n.toNat < 256 := n.toNat_lt
    rw [lengthofChild]
    omega
  | some a => exact Nat.le_of_eq (hs.subnode a hsub).2.2.2

theorem Subtrie.WellFormed.congr (ht : t.WellFormed h)
    (hsame : ∀ a ∈ t.blocks.map Prod.fst, h'.block a = h.block a) : t.WellFormed h' :=
  ⟨ht.stored.congr hsame, ht.nodup⟩

theorem Pending.congr (hp : Pending h q s j ks)
    (hsame : ∀ a ∈ ks.blocks.map Prod.fst, h'.block a = h.block a)
    (hslots : ∀ k, j ≤ k → h'.ptr (s.table q) (s.base + ptrAlign * k) =
      h.ptr (s.table q) (s.base + ptrAlign * k)) : Pending h' q s j ks where
  stored := hp.stored.congr hsame
  nodup := hp.nodup
  disjoint := hp.disjoint
  slots := fun k r hk => (hslots (j + k) (Nat.le_add_right ..)).trans (hp.slots k r hk)
  length := hp.length

theorem Pending.null (hp : Pending h q s j (.null rest)) :
    h.ptr (s.table q) (s.base + ptrAlign * j) = some none ∧ Pending h q s (j + 1) rest := by
  obtain ⟨hstored, hnodup, hdisj, hslots, hlength⟩ := hp
  rw [Childs.Stored] at hstored
  rw [Childs.blocks] at hnodup hdisj
  rw [Childs.slots] at hslots hlength
  refine ⟨hslots 0 none rfl, hstored, hnodup, hdisj, fun k r hk => ?_, ?_⟩
  · rw [Nat.add_assoc, Nat.add_comm 1 k]
    exact hslots (k + 1) r hk
  · rw [List.length_cons] at hlength
    omega

theorem Pending.child (hp : Pending h q s j (.child t rest)) :
    h.ptr (s.table q) (s.base + ptrAlign * j) = some (some t.addr) ∧ t.WellFormed h ∧
      (∀ a ∈ t.blocks.map Prod.fst, a ∉ rest.blocks.map Prod.fst ∧ a ∉ s.own q) ∧
      Pending h q s (j + 1) rest := by
  obtain ⟨hstored, hnodup, hdisj, hslots, hlength⟩ := hp
  rw [Childs.Stored] at hstored
  rw [Childs.blocks, List.map_append] at hnodup hdisj
  rw [Childs.slots] at hslots hlength
  obtain ⟨hnt, hnrest, hapart⟩ := List.nodup_append.mp hnodup
  refine ⟨hslots 0 _ rfl, ⟨hstored.1, hnt⟩, fun a ha => ⟨fun hr => hapart a ha a hr rfl, ?_⟩,
    hstored.2, hnrest, fun a ha => hdisj a (List.mem_append_right _ ha), fun k r hk => ?_, ?_⟩
  · exact hdisj a (List.mem_append_left _ ha)
  · rw [Nat.add_assoc, Nat.add_comm 1 k]
    exact hslots (k + 1) r hk
  · rw [List.length_cons] at hlength
    omega

theorem GivesBack.of_step {start mid : State} (hstep : step mm start = some mid)
    (hroot : mid.root = start.root) (hown : Frees [] (s.own q) start.heap mid.heap)
    (hmid : GivesBack mm mid p q size s ks) : GivesBack mm start p q size s ks := by
  obtain ⟨h1, err1, hreach, hsite, hfrees⟩ := hmid
  rw [hroot] at hreach
  exact ⟨h1, err1, hreach.of_step hstep, hsite, hown.trans hfrees (by simp)⟩

theorem givesBack_child (ht : t.Freed mm) (hnext : rest.FreedNext mm) (root : Option Addr)
    (err : Int) (hm : Marked h q size s j p) (hj : j < lengthofChild) (hwf : t.WellFormed h)
    (hapart : ∀ a ∈ t.blocks.map Prod.fst, a ∉ rest.blocks.map Prod.fst ∧ a ∉ s.own q)
    (hrest : Pending h q s (j + 1) rest) :
    GivesBack mm ⟨h, root, err, .step1 (some q) t.addr⟩ p q size s (.child t rest) := by
  obtain ⟨h1, err1, hreach1, hfrees1⟩ := ht root err (some q) hwf
  have hown : ∀ a ∈ s.own q, h1.block a = h.block a := fun a ha =>
    hfrees1.frame a (fun hmem => (hapart a hmem).2 ha) List.not_mem_nil
  have hrest1 : Pending h1 q s (j + 1) rest := by
    refine hrest.congr (fun a ha => hfrees1.frame a (fun hmem => (hapart a hmem).1 ha) ?_) ?_
    · exact List.not_mem_nil
    · exact fun k _ => Heap.ptr_congr (hown _ (s.mem_own_table q)) _
  have hlen : s.limit - (1 + j) = rest.slots.length := by
    have := hrest.length
    omega
  obtain ⟨h2, err2, hreach2, hsite2, hfrees2⟩ :=
    hnext root err1 (hm.congr hown) hj hrest1 (by rw [hlen, Nat.add_comm])
  refine ⟨h2, err2, hreach1.trans hreach2, hsite2, ?_⟩
  exact (hfrees1.mono (by simp)).trans hfrees2 hapart

end Pending

/-! ## The three cases of the slots -/

section Slots

variable {mm : Manager} {t : Subtrie} {rest : Childs}

theorem freedFirst_nil : Childs.nil.FreedFirst mm := by
  intro h q size s j root err p hs hpend hsearch
  have hfind : findChild h (s.table q) s.base 0 s.limit = some none := by
    rw [hsearch, Childs.slots, List.length_nil, findChild]
  refine ⟨h, err, Reaches.of_step ?_ (Reaches.refl _), hs, Frees.refl _ h⟩
  exact step_step1 mm root err (step1_of_none hs p hfind)

theorem freedFirst_null (hrest : rest.FreedFirst mm) : (Childs.null rest).FreedFirst mm := by
  intro h q size s j root err p hs hpend hsearch
  obtain ⟨hnull, hpend⟩ := hpend.null
  rw [Childs.slots, List.length_cons, findChild_null _ hnull] at hsearch
  exact hrest root err p hs hpend hsearch

theorem freedFirst_child (ht : t.Freed mm) (hrest : rest.FreedNext mm) :
    (Childs.child t rest).FreedFirst mm := by
  intro h q size s j root err p hs hpend hsearch
  have hj : j < lengthofChild := by
    have hlen := hpend.length
    have hle := hs.limit_le
    rw [Childs.slots, List.length_cons] at hlen
    omega
  obtain ⟨hchild, hwf, hapart, hpend⟩ := hpend.child
  rw [Childs.slots, List.length_cons, findChild_child _ hchild] at hsearch
  -- the index and the parent are written
  obtain ⟨v, hv⟩ := hs.cursor
  obtain ⟨h1, hset1⟩ := Heap.exists_setByte hv (UInt8.ofNat j)
  obtain ⟨r, hr⟩ := exists_ptr_of_findChild hsearch
  obtain ⟨h2, hset2⟩ := Heap.exists_setPtr ((Heap.ptr_setByte hset1 _ _).trans hr) p
  have hblock : ∀ a, a ∉ s.own q → h2.block a = h.block a := by
    intro a ha
    have hq : a ≠ q := fun heq => ha (heq ▸ s.mem_own_self q)
    have htable : a ≠ s.table q := fun heq => ha (heq ▸ s.mem_own_table q)
    rw [Heap.block_setPtr_of_ne hset2 htable, Heap.block_setByte_of_ne hset1 hq]
  have hmark : Marked h2 q size s j p := by
    refine ⟨(hs.setCursor hset1).setFirst hset2, ?_, Heap.ptr_setPtr hset2⟩
    rw [Heap.byte_setPtr hset2, Heap.byte_setByte hset1]
  have hrest2 : Pending h2 q s (j + 1) rest := by
    refine hpend.congr (fun a ha => hblock a (hpend.disjoint a ha)) fun k hk => ?_
    have hne : s.base + ptrAlign * k ≠ s.base := by
      rw [ptrAlign]
      omega
    rw [Heap.ptr_setPtr_of_ne hset2 (.inr hne), Heap.ptr_setByte hset1]
  have hstep : step mm ⟨h, root, err, .step1 p q⟩ =
      some ⟨h2, root, err, .step1 (some q) t.addr⟩ :=
    step_step1 mm root err (step1_of_child hs hsearch hset1 hset2)
  refine GivesBack.of_step hstep rfl (Frees.of_write hblock ?_) ?_
  · rw [Heap.freed_setPtr hset2, Heap.freed_setByte hset1]
  · exact givesBack_child ht hrest root err hmark hj
      (hwf.congr fun a ha => hblock a (hapart a ha).2) hapart hrest2

theorem freedNext_nil : Childs.nil.FreedNext mm := by
  intro h q size s last j p root err hm hlast hpend hsearch
  have hlt : (UInt8.ofNat last).toNat = last := UInt8.toNat_ofNat_of_lt hlast
  have hfind : findChild h (s.table q) s.base (1 + (UInt8.ofNat last).toNat)
      (s.limit - (1 + (UInt8.ofNat last).toNat)) = some none := by
    rw [hlt, hsearch, Childs.slots, List.length_nil, findChild]
  refine ⟨h, err, Reaches.of_step ?_ (Reaches.refl _), hm.at_site, Frees.refl _ h⟩
  exact step_step3 mm root err (step3_of_none hm.at_site hm.cursor hfind hm.first)

theorem freedNext_null (hrest : rest.FreedNext mm) : (Childs.null rest).FreedNext mm := by
  intro h q size s last j p root err hm hlast hpend hsearch
  obtain ⟨hnull, hpend⟩ := hpend.null
  rw [Childs.slots, List.length_cons, findChild_null _ hnull] at hsearch
  exact hrest root err hm hlast hpend hsearch

theorem freedNext_child (ht : t.Freed mm) (hrest : rest.FreedNext mm) :
    (Childs.child t rest).FreedNext mm := by
  intro h q size s last j p root err hm hlast hpend hsearch
  have hj : j < lengthofChild := by
    have hlen := hpend.length
    have hle := hm.at_site.limit_le
    rw [Childs.slots, List.length_cons] at hlen
    omega
  have hlt : (UInt8.ofNat last).toNat = last := UInt8.toNat_ofNat_of_lt hlast
  obtain ⟨hchild, hwf, hapart, hpend⟩ := hpend.child
  rw [Childs.slots, List.length_cons, findChild_child _ hchild, ← hlt] at hsearch
  -- only the index is written, the parent is there already
  obtain ⟨h1, hset⟩ := Heap.exists_setByte hm.cursor (UInt8.ofNat j)
  have hblock : ∀ a, a ∉ s.own q → h1.block a = h.block a := by
    intro a ha
    have hq : a ≠ q := fun heq => ha (heq ▸ s.mem_own_self q)
    exact Heap.block_setByte_of_ne hset hq
  have hmark : Marked h1 q size s j p :=
    ⟨hm.at_site.setCursor hset, Heap.byte_setByte hset, (Heap.ptr_setByte hset _ _).trans hm.first⟩
  have hrest1 : Pending h1 q s (j + 1) rest :=
    hpend.congr (fun a ha => hblock a (hpend.disjoint a ha)) fun k _ => Heap.ptr_setByte hset _ _
  have hstep : step mm ⟨h, root, err, .step3 (some q)⟩ =
      some ⟨h1, root, err, .step1 (some q) t.addr⟩ :=
    step_step3 mm root err (step3_of_child hm.at_site hm.cursor hsearch hset)
  refine GivesBack.of_step hstep rfl (Frees.of_write hblock (Heap.freed_setByte hset)) ?_
  exact givesBack_child ht hrest root err hmark hj
    (hwf.congr fun a ha => hblock a (hapart a ha).2) hapart hrest1

theorem freed_node {addr : Addr} {size : Nat} {sub : Option Addr} {childs : Childs}
    (hchilds : childs.FreedFirst mm) : (Subtrie.node addr size sub childs).Freed mm := by
  intro h root err p hwf
  obtain ⟨hstored, hnodup⟩ := hwf
  rw [Subtrie.Stored] at hstored
  obtain ⟨⟨s, rfl, hs, hlimit, hslots⟩, hchildren⟩ := hstored
  have hownblocks : (((addr, size) :: s.sub.toList.map fun a => (a, sizeofSubnode)).map
      Prod.fst) = s.own addr := by
    simp [Site.own, Function.comp_def]
  rw [Subtrie.blocks, List.map_append, hownblocks] at hnodup
  obtain ⟨-, hnchilds, hapart⟩ := List.nodup_append.mp hnodup
  have hpend : Pending h addr s 0 childs :=
    ⟨hchildren, hnchilds, fun a ha hown => hapart a hown a ha rfl, hslots, by omega⟩
  obtain ⟨h1, err1, hreach, hs1, hfrees1⟩ := hchilds root err p hs hpend (by rw [hlimit])
  obtain ⟨h2, err2, hdel, hfrees2⟩ := exists_deleteTrienode mm hs1
  have hlast : Reaches mm ⟨h1, root, err1, .step2 p addr⟩
      ⟨h2, root, if err2 ≠ 0 then err2 else err1, .step3 p⟩ :=
    Reaches.of_step (step_step2 mm root err1 p hdel) (Reaches.refl _)
  have hfrees : Frees (childs.blocks ++ _) (s.own addr) h h2 :=
    hfrees1.trans (hfrees2.mono (by simp)) fun a ha => by
      rw [hownblocks]
      exact ⟨fun hown => hapart a hown a ha rfl, fun hown => hapart a hown a ha rfl⟩
  refine ⟨h2, _, hreach.trans hlast, (hfrees.perm List.perm_append_comm).drop_own fun a ha => ?_⟩
  rw [List.map_append, hownblocks]
  exact List.mem_append_left _ ha

end Slots

/-! ## The whole trie -/

mutual

/-- **Every subtrie is given back**, and then the run is at its parent. -/
theorem Subtrie.freed (mm : Manager) : ∀ t : Subtrie, t.Freed mm
  | .node _ _ _ childs => freed_node (childs.freedFirst mm)

theorem Childs.freedFirst (mm : Manager) : ∀ ks : Childs, ks.FreedFirst mm
  | .nil => freedFirst_nil
  | .null rest => freedFirst_null (rest.freedFirst mm)
  | .child t rest => freedFirst_child (t.freed mm) (rest.freedNext mm)

theorem Childs.freedNext (mm : Manager) : ∀ ks : Childs, ks.FreedNext mm
  | .nil => freedNext_nil
  | .null rest => freedNext_null (rest.freedNext mm)
  | .child t rest => freedNext_child (t.freed mm) (rest.freedNext mm)

end

theorem run_ne_none {mm : Manager} {n : Nat} {s s' : State} (hrun : run mm n s = some s')
    (hleave : s'.control = .leave) (k : Nat) : run mm k s ≠ none := by
  intro hnone
  rcases Nat.le_total k n with hle | hle
  · rw [← Nat.add_sub_of_le hle, run_add, hnone] at hrun
    cases hrun
  · rw [← Nat.add_sub_of_le hle, run_add, hrun, Option.bind_some, run_of_leave mm _ hleave] at hnone
    cases hnone

/-- The blocks of a trie, which can be empty. -/
def blocks (t : Option Subtrie) : List (Addr × Nat) := t.elim [] Subtrie.blocks

/-- **`free_trie` ends** for every well formed trie, and whatever the memory manager returns.  No
step accesses a block that has been given back: it would have no result.  The memory manager has got
every block of the trie exactly once, with its size, and no other block. -/
theorem freeTrie_frees_all (mm : Manager) {h : Heap} {t : Option Subtrie}
    (ht : ∀ u ∈ t, u.WellFormed h) :
    ∃ n h' err, run mm n (freeTrie h (t.map Subtrie.addr)) = some ⟨h', none, err, .leave⟩ ∧
      (∀ k, run mm k (freeTrie h (t.map Subtrie.addr)) ≠ none) ∧ Frees (blocks t) [] h h' := by
  rcases t with - | t
  · exact ⟨0, h, 0, rfl, run_ne_none (n := 0) rfl rfl, Frees.refl [] h⟩
  · obtain ⟨h', err, hreach, hfrees⟩ := t.freed mm (some t.addr) 0 none (ht t rfl)
    have hleave : Reaches mm ⟨h', some t.addr, err, .step3 none⟩ ⟨h', none, err, .leave⟩ :=
      Reaches.of_step rfl (Reaches.refl _)
    obtain ⟨n, hn⟩ := hreach.trans hleave
    exact ⟨n, h', err, hn, run_ne_none hn rfl, hfrees⟩

/-- A root of 32 bytes with two slots, and a leaf of 16 bytes with a value. -/
def smallHeap : Heap where
  block := fun a =>
    match a with
    | 1 => some [.bytes ![32, 2, 97, 98, 0, 0, 0, 0], .ptr none, .ptr (some 2), .ptr none]
    | 2 => some [.bytes ![8, 0, 0, 0, 0, 0, 0, 0], .ptr none]
    | _ => none
  freed := []

/-- The first slot of the root is null. -/
def smallTrie : Subtrie :=
  .node 1 32 none (.null (.child (.node 2 16 none .nil) .nil))

theorem smallTrie_wellFormed : smallTrie.WellFormed smallHeap := by
  have hroot : (Site.mk none 8 2).At smallHeap 1 32 :=
    ⟨rfl, rfl, rfl, rfl, ⟨0, rfl⟩, fun _ => ⟨2, rfl, rfl⟩, fun a ha => by cases ha⟩
  have hleaf : (Site.mk none 8 0).At smallHeap 2 16 :=
    ⟨rfl, rfl, rfl, rfl, ⟨0, rfl⟩, fun _ => ⟨0, rfl, rfl⟩, fun a ha => by cases ha⟩
  refine ⟨?_, by decide⟩
  simp only [smallTrie, Subtrie.Stored, Childs.Stored, and_true]
  refine ⟨⟨_, rfl, hroot, rfl, ?_⟩, _, rfl, hleaf, rfl, ?_⟩
  · intro k p hk
    rcases k with - | - | k
    · exact congrArg some (Option.some.inj hk)
    · exact congrArg some (Option.some.inj hk)
    · cases hk
  · intro k p hk
    cases hk

theorem freeTrie_frees_all_small :
    ∃ n h' err, run (fun _ => 5) n (freeTrie smallHeap (some 1)) = some ⟨h', none, err, .leave⟩ ∧
      (∀ k, run (fun _ => 5) k (freeTrie smallHeap (some 1)) ≠ none) ∧
      Frees [(1, 32), (2, 16)] [] smallHeap h' :=
  freeTrie_frees_all (fun _ => 5) (t := some smallTrie) fun u hu => by
    obtain rfl : smallTrie = u := Option.some.inj hu
    exact smallTrie_wellFormed

/-- The leaf is given back before the root. -/
example : ((run (fun _ => 0) 7 (freeTrie smallHeap (some 1))).map fun s => s.heap.freed) =
    some [(2, 16), (1, 32)] := by decide

end FreeTrie
end CKern
