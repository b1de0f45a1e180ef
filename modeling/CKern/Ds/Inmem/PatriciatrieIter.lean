import CKern.Ds.Inmem.PatriciatrieChange

/-!
# Iterating over a patricia trie

An iterator holds the next node.  The node after it is found by a new search with its key, which
remembers the last branch that leads to the other side.

* `initfirstPatriciatrieiterator`, `nextPatriciatrieiterator` and their mirror images; the prefix
  iterator.
* `collect`: the nodes that an iterator yields.
* `neighbour_succ`: the next node is the next one in the order.
* `neighbour_single`: with a single node, one of the two directions never ends.
* `prefixed_eq`: the prefix iterator yields the objects below a branch, or nothing.
* `iteratesExactly_iff`: when the iterators yield what they should.
-/

namespace CKern
namespace Patricia

open CritBit CritBit.BitTree

/-! ## The iterators -/

section Model

variable {Addr : Type} (A : GetkeyAdapter Addr)

def Node.child (n : Node Addr) (right : Bool) : Option Addr := if right then n.right else n.left

/-- The loop `while (node->bit_offset > parent->bit_offset)` that goes down on one side. -/
def descend (mem : Addr → Node Addr) (side : Bool) : ℕ → Addr → Addr → Option Addr
  | 0, _, _ => none
  | fuel + 1, parent, node =>
    if isDown mem parent node then do
      let child ← (mem node).child side
      descend mem side fuel node child
    else some node

variable (fuel : ℕ) (tree : Patriciatrie Addr)

/-- The first node of an iteration that goes away from a side. -/
def initIterator (side : Bool) : Option (Option Addr) :=
  match tree.root with
  | none => some none
  | some root => do
    let node ← (tree.mem root).child side
    let node ← descend tree.mem side fuel root node
    some (some node)

def initfirstPatriciatrieiterator : Option (Option Addr) := initIterator fuel tree false

def initlastPatriciatrieiterator : Option (Option Addr) := initIterator fuel tree true

/-- The node after a given one, if the bit of the branch between them is accepted. -/
def neighbour (side : Bool) (accept : ℕ → Bool) (node : Addr) : Option (Option Addr) := do
  let root ← tree.root
  let nextk := init1Getkeydata A.getkey node
  let (_, _, _, branchParent) ← walk A tree.mem (isDown tree.mem)
    (fun branchParent parent bit => if bit = side then some parent else branchParent) fuel nextk
    root none
  match branchParent with
  | none => some none
  | some parent =>
    if accept (tree.mem parent).bitOffset then do
      let next ← (tree.mem parent).child (!side)
      let next ← descend tree.mem side fuel parent next
      some (some next)
    else some none

/-- A step of an iterator: nothing at the end, else the present node and the next one. -/
def iterate (side : Bool) (accept : ℕ → Bool) :
    Option Addr → Option (Option (Addr × Option Addr))
  | none => some none
  | some node => (neighbour A fuel tree side accept node).map fun next => some (node, next)

def nextPatriciatrieiterator : Option Addr → Option (Option (Addr × Option Addr)) :=
  iterate A fuel tree false fun _ => true

def prevPatriciatrieiterator : Option Addr → Option (Option (Addr × Option Addr)) :=
  iterate A fuel tree true fun _ => true

def nextPatriciatrieprefixiter (prefixBits : ℕ) :
    Option Addr → Option (Option (Addr × Option Addr)) :=
  iterate A fuel tree false fun bit => prefixBits ≤ bit

/-- The loop that compares a key with the prefix. -/
def comparePrefix : List UInt8 → ℕ → Cursor Addr → Option Bool
  | [], _, _ => some true
  | b :: rest, offset, key2 => do
    let key2 := if offset = key2.key.endoffset then key2.refill A offset else key2
    let b2 ← key2.byte
    if b ≠ b2 then some false else comparePrefix rest (offset + 1) key2.next

/-- `initfirst_patriciatrieprefixiter`, with the number of bits of the prefix.  For a prefix that is
too long the iterator starts at the root. -/
def initfirstPatriciatrieprefixiter (prefixkey : List UInt8) : Option (Option Addr × ℕ) :=
  let prefixBits := 8 * prefixkey.length % 2 ^ 64
  match tree.root with
  | none => some (none, prefixBits)
  | some root =>
    if prefixkey.length < keyLimit then do
      let prefk := initfullkeyGetkeydata prefixkey
      let (parent, node) ← (if (tree.mem root).bitOffset < prefixBits then
          (search A tree.mem (fun parent node =>
            isDown tree.mem parent node && decide ((tree.mem node).bitOffset < prefixBits))
            fuel prefk root).map Prod.snd
        else (tree.mem root).left.map fun node => (root, node))
      let node ← descend tree.mem false fuel parent node
      let key := init1Getkeydata A.getkey node
      let equal ← (if prefk.streamsize ≤ key.streamsize then comparePrefix A prefixkey 0 ⟨key, 0⟩
        else some false)
      some (if equal then some node else none, prefixBits)
    else some (some root, prefixBits)

/-- What an iterator yields until it returns false. -/
def collect {σ : Type} (iter : σ → Option (Option (Addr × σ))) : ℕ → σ → Option (List Addr)
  | 0, _ => none
  | fuel + 1, it => do
    match ← iter it with
    | none => some []
    | some (node, it) =>
      let rest ← collect iter fuel it
      some (node :: rest)

def forward : Option (List Addr) := do
  let it ← initfirstPatriciatrieiterator fuel tree
  collect (nextPatriciatrieiterator A fuel tree) fuel it

def backward : Option (List Addr) := do
  let it ← initlastPatriciatrieiterator fuel tree
  collect (prevPatriciatrieiterator A fuel tree) fuel it

def prefixed (prefixkey : List UInt8) : Option (List Addr) := do
  let (it, prefixBits) ← initfirstPatriciatrieprefixiter A fuel tree prefixkey
  collect (nextPatriciatrieprefixiter A fuel tree prefixBits) fuel it

end Model

/-! ## Going down on one side -/

section Descend

variable {Addr : Type} {A : GetkeyAdapter Addr} {mem : Addr → Node Addr} {t s : BitTree Addr}
  {f : Frame Addr} {c : List (Frame Addr)} {side : Bool} {fuel : ℕ}

theorem descend_eq (side : Bool) (h : Shape A mem (fill s (f :: c)))
    (hfuel : s.branches.length < fuel) :
    descend mem side fuel f.label s.label = some (edgeLeaf side s) := by
  induction s generalizing f c fuel with
  | leaf a =>
    obtain ⟨fuel, rfl⟩ : ∃ n, fuel = n + 1 := ⟨fuel - 1, by omega⟩
    have hstop : ¬isDown mem f.label a = true := by
      intro hdown
      obtain ⟨_, _, _, _, heq⟩ := h.isDown_iff.mp hdown
      cases heq
    rw [descend, show (leaf a).label = a from rfl, if_neg hstop]
    cases side <;> rfl
  | branch a bit l r ihl ihr =>
    obtain ⟨fuel, rfl⟩ : ∃ n, fuel = n + 1 := ⟨fuel - 1, by omega⟩
    have hdown : isDown mem f.label (branch a bit l r).label = true :=
      h.isDown_iff.mpr ⟨a, bit, l, r, rfl⟩
    rw [branches, List.length_cons, List.length_append] at hfuel
    rw [descend, if_pos hdown]
    change ((mem a).child side >>= fun child => descend mem side fuel a child) = _
    rw [h.repCtx.1.1]
    cases side with
    | true => exact ihr (f := ⟨a, bit, true, l⟩) (c := f :: c) h (by omega)
    | false => exact ihl (f := ⟨a, bit, false, r⟩) (c := f :: c) h (by omega)

theorem initIterator_eq {tree : Patriciatrie Addr} (h : Shape A tree.mem t)
    (hroot : tree.root = some t.label) (hfuel : t.leaves.length ≤ fuel) :
    initIterator fuel tree side = some (some (edgeLeaf side t)) := by
  have hlength := h.length_branches
  unfold initIterator
  simp only [hroot]
  cases t with
  | leaf a =>
    obtain ⟨fuel, rfl⟩ : ∃ n, fuel = n + 1 := ⟨fuel - 1, by simp [leaves] at hfuel; omega⟩
    have hchild : (tree.mem a).child side = some a := by
      rw [show tree.mem a = bottomNode a from Shape.mem_leaf h]
      cases side <;> rfl
    have hstop : ¬isDown tree.mem a a = true := by simp [isDown]
    simp only [show (leaf a).label = a from rfl, hchild, Option.bind_eq_bind, Option.bind_some,
      descend, if_neg hstop]
    cases side <;> rfl
  | branch a bit l r =>
    have hsub : l.branches.length < fuel ∧ r.branches.length < fuel := by
      rw [branches, List.length_cons, List.length_append] at hlength
      omega
    simp only [show (branch a bit l r).label = a from rfl, h.rep.1]
    cases side with
    | true =>
      have := descend_eq true (f := ⟨a, bit, true, l⟩) (c := []) h hsub.2
      change descend tree.mem true fuel a r.label = _ at this
      simp only [Node.child, if_true, Option.bind_eq_bind, Option.bind_some, this]
      rfl
    | false =>
      have := descend_eq false (f := ⟨a, bit, false, r⟩) (c := []) h hsub.1
      change descend tree.mem false fuel a l.label = _ at this
      simp only [Node.child, Bool.false_eq_true, if_false, Option.bind_eq_bind, Option.bind_some,
        this]
      rfl

end Descend

/-! ## The next node -/

section Neighbour

variable {Addr : Type} {A : GetkeyAdapter Addr} {tree : Patriciatrie Addr} {t s : BitTree Addr}
  {c : List (Frame Addr)} {side : Bool} {fuel : ℕ} {accept : ℕ → Bool} {a : Addr}

theorem foldr_branchParent (side : Bool) (c : List (Frame Addr)) :
    c.foldr (fun f branchParent => if f.right = side then some f.label else branchParent) none =
      (c.find? fun f => f.right == side).map Frame.label := by
  induction c with
  | nil => rfl
  | cons f c ih =>
    rw [List.foldr_cons, ih, List.find?_cons]
    by_cases hright : f.right = side
    · simp [hright]
    · have : (f.right == side) = false := by simpa using hright
      simp [hright, this]

theorem Shape.walk_self {σ : Type} (h : Shape A tree.mem (fill (leaf a) c))
    (note : σ → Addr → Bool → σ) (hfuel : (fill (leaf a) c).leaves.length ≤ fuel)
    (acc : σ) :
    ∃ key, walk A tree.mem (isDown tree.mem) note fuel (init1Getkeydata A.getkey a)
        (fill (leaf a) c).label acc =
      some (key, parentOf a c, a, noted note (extBit (A.key a) 0) a acc c) := by
  obtain ⟨key, hwalk, -⟩ := h.walk_eq note
    (follows_of_mem h.ctx.2 (List.mem_singleton.mpr rfl)) (reads_init1 (A := A) a)
    (offset_init1 a) hfuel acc
  exact ⟨key, hwalk⟩

/-- **The node after a given one** is the outermost one of the nearest sibling on the other side. -/
theorem neighbour_eq (h : Shape A tree.mem (fill (leaf a) c))
    (hroot : tree.root = some (fill (leaf a) c).label) (hne : c ≠ [])
    (hfuel : (fill (leaf a) c).leaves.length ≤ fuel) :
    neighbour A fuel tree side accept a =
      some ((c.find? fun f => f.right == side).bind fun g =>
        if accept g.bit then some (edgeLeaf side g.sibling) else none) := by
  obtain ⟨key, hwalk⟩ := h.walk_self
    (fun branchParent parent bit => if bit = side then some parent else branchParent) hfuel none
  have hnoted : noted (fun branchParent parent bit =>
      if bit = side then some parent else branchParent) (extBit (A.key a) 0) a none c =
      (c.find? fun f => f.right == side).map Frame.label := by
    cases c with
    | nil => exact absurd rfl hne
    | cons f c => exact foldr_branchParent side (f :: c)
  rw [hnoted] at hwalk
  unfold neighbour
  simp only [hroot, Option.bind_eq_bind, Option.bind_some, hwalk]
  cases hfind : c.find? fun f => f.right == side with
  | none => rfl
  | some g =>
    obtain ⟨inner, outer, hc⟩ := List.append_of_mem (List.mem_of_find?_eq_some hfind)
    have hright : g.right = side := by simpa using List.find?_some hfind
    obtain ⟨child, hnode⟩ := h.mem_frame (List.mem_of_find?_eq_some hfind)
    simp only [Option.map_some, Option.bind_some, hnode, bitOffset_frameNode]
    by_cases haccept : accept g.bit = true
    · rw [if_pos haccept, if_pos haccept]
      have hchild : (frameNode g child).child (!side) = some g.sibling.label := by
        rw [← hright]
        unfold frameNode Node.child
        cases g.right <;> rfl
      -- the sibling is the subtree at the end of another way
      have hflip : fill (leaf a) c = fill g.sibling (g.flip (fill (leaf a) inner) :: outer) := by
        rw [hc, fill_append, fill, fill, Frame.link_flip]
      have hshape : Shape A tree.mem (fill g.sibling (g.flip (fill (leaf a) inner) :: outer)) :=
        hflip ▸ h
      have hlength : g.sibling.branches.length < fuel := by
        have h1 := hshape.length_branches
        rw [(branches_fill _ _).length_eq, List.length_append, ← hflip] at h1
        omega
      have hdescend := descend_eq side hshape hlength
      change descend tree.mem side fuel g.label g.sibling.label = _ at hdescend
      rw [hchild]
      simp only [Option.bind_some, hdescend]
    · rw [if_neg haccept, if_neg haccept]

/-- **A single node** is its own neighbour, on the side to which its first bit leads. -/
theorem neighbour_single (h : Shape A tree.mem (leaf a)) (hroot : tree.root = some a)
    (hfuel : 1 ≤ fuel) :
    neighbour A fuel tree side accept a =
      some (if extBit (A.key a) 0 = side ∧ accept 0 = true then some a else none) := by
  have hmem : tree.mem a = bottomNode a := Shape.mem_leaf h
  obtain ⟨key, hwalk⟩ := Shape.walk_self (c := []) h
    (fun branchParent parent bit => if bit = side then some parent else branchParent) hfuel none
  change walk A tree.mem (isDown tree.mem) _ fuel _ a none = _ at hwalk
  unfold neighbour
  simp only [hroot, Option.bind_eq_bind, Option.bind_some, hwalk]
  by_cases hbit : extBit (A.key a) 0 = side
  · simp only [noted, if_pos hbit, hmem]
    have hchild : (bottomNode a).child (!side) = some a := by
      cases side <;> rfl
    obtain ⟨fuel, rfl⟩ : ∃ n, fuel = n + 1 := ⟨fuel - 1, by omega⟩
    have hstop : ¬isDown tree.mem a a = true := by simp [isDown]
    rw [hchild]
    simp only [Option.bind_some, descend, if_neg hstop, bottomNode, hbit, true_and]
    split_ifs <;> rfl
  · simp only [noted, hbit, false_and, if_false]

/-- **The next node in the order**, for the nodes of a subtree whose branches are accepted, while
those above it are not. -/
theorem neighbour_succ (h : Shape A tree.mem (fill s c)) (hroot : tree.root = some (fill s c).label)
    (hlen : 1 < (fill s c).leaves.length) (hfuel : (fill s c).leaves.length ≤ fuel)
    (hin : ∀ a inner, s = fill (leaf a) inner → ∀ f ∈ inner, accept f.bit = true)
    (hout : ∀ f ∈ c, ¬accept f.bit = true) {pre post : List Addr}
    (hL : inOrder side s.leaves = pre ++ a :: post) :
    neighbour A fuel tree side accept a = some post.head? := by
  have has : a ∈ s.leaves := by
    rw [← mem_inOrder side, hL]
    exact List.mem_append_right _ List.mem_cons_self
  have hnodup := nodup_inOrder side (nodup_leaves h.ctx.1)
  obtain ⟨inner, rfl⟩ := exists_fill h.ctx.1 has
  obtain ⟨pre', hpre'⟩ := exists_inOrder_fill side a inner
  have hpost : post = beyond side inner := by
    rw [hpre'] at hL hnodup
    obtain ⟨-, hcons, hdisj⟩ := List.nodup_append.mp hnodup
    have ha : a ∉ pre' := fun ha => hdisj a ha a List.mem_cons_self rfl
    exact ((List.append_cons_inj_of_notMem ha (List.nodup_cons.mp hcons).1).mp hL).2.2.symm
  have hne : inner ++ c ≠ [] := by
    intro hnil
    obtain ⟨rfl, rfl⟩ := List.append_eq_nil_iff.mp hnil
    exact Nat.lt_irrefl 1 hlen
  rw [← fill_append] at h hroot hfuel
  rw [neighbour_eq h hroot hne hfuel, hpost, head?_beyond, List.find?_append]
  cases hfind : inner.find? fun f => f.right == side with
  | some g =>
    have haccept := hin a inner rfl g (List.mem_of_find?_eq_some hfind)
    simp [haccept]
  | none =>
    -- the branch above the subtree is not accepted
    cases hfind' : c.find? fun f => f.right == side with
    | none => rfl
    | some g =>
      have haccept := hout g (List.mem_of_find?_eq_some hfind')
      simp [haccept]

/-- **An iteration** that always goes on to the next node of a list yields the rest of the list. -/
theorem collect_eq {L : List Addr}
    (hsucc : ∀ pre a post, L = pre ++ a :: post →
      neighbour A fuel tree side accept a = some post.head?)
    {n : ℕ} (pre : List Addr) {post : List Addr} (hL : L = pre ++ post) (hn : post.length < n) :
    collect (iterate A fuel tree side accept) n post.head? = some post := by
  induction post generalizing pre n with
  | nil =>
    obtain ⟨n, rfl⟩ : ∃ m, n = m + 1 := ⟨n - 1, by omega⟩
    rfl
  | cons a post ih =>
    obtain ⟨n, rfl⟩ : ∃ m, n = m + 1 := ⟨n - 1, by omega⟩
    have hrest := ih (pre ++ [a]) (n := n) (by rw [hL]; simp)
      (by rw [List.length_cons] at hn; omega)
    rw [List.head?_cons, collect]
    simp only [iterate, hsucc pre a post hL, Option.map_some, Option.bind_eq_bind,
      Option.bind_some, hrest]

theorem collect_subtree (side : Bool) (h : Shape A tree.mem (fill s c))
    (hroot : tree.root = some (fill s c).label) (hlen : 1 < (fill s c).leaves.length)
    (hfuel : (fill s c).leaves.length < fuel)
    (hin : ∀ a inner, s = fill (leaf a) inner → ∀ f ∈ inner, accept f.bit = true)
    (hout : ∀ f ∈ c, ¬accept f.bit = true) :
    collect (iterate A fuel tree side accept) fuel (some (edgeLeaf side s)) =
      some (inOrder side s.leaves) := by
  rw [← head?_inOrder]
  refine collect_eq (fun pre a post hL =>
    neighbour_succ h hroot hlen (Nat.le_of_lt hfuel) hin hout hL) [] rfl ?_
  have hle : s.leaves.length ≤ (fill s c).leaves.length := by
    rw [leaves_fill, around, List.length_append, List.length_append]
    omega
  cases side with
  | true =>
    rw [inOrder, if_pos rfl, List.length_reverse]
    omega
  | false => exact Nat.lt_of_le_of_lt hle hfuel

/-- **A single node** is yielded for ever, by one of the two iterators. -/
theorem collect_single (h : Shape A tree.mem (leaf a)) (hroot : tree.root = some a)
    (hfuel : 1 ≤ fuel) (hbit : extBit (A.key a) 0 = side) (haccept : accept 0 = true) (n : ℕ) :
    collect (iterate A fuel tree side accept) n (some a) = none := by
  induction n with
  | zero => rfl
  | succ n ih =>
    rw [collect]
    simp only [iterate, neighbour_single h hroot hfuel, hbit, haccept, and_self, if_true,
      Option.map_some, Option.bind_eq_bind, Option.bind_some, ih, Option.bind_none]

theorem forward_eq (h : Shape A tree.mem t) (hroot : tree.root = some t.label)
    (hlen : 1 < t.leaves.length) (hfuel : t.leaves.length < fuel) :
    forward A fuel tree = some t.leaves := by
  rw [forward, initfirstPatriciatrieiterator, initIterator_eq h hroot (Nat.le_of_lt hfuel)]
  exact collect_subtree false (c := []) h hroot hlen hfuel (fun _ _ _ _ _ => rfl) (by simp)

theorem backward_eq (h : Shape A tree.mem t) (hroot : tree.root = some t.label)
    (hlen : 1 < t.leaves.length) (hfuel : t.leaves.length < fuel) :
    backward A fuel tree = some t.leaves.reverse := by
  rw [backward, initlastPatriciatrieiterator, initIterator_eq h hroot (Nat.le_of_lt hfuel)]
  exact collect_subtree true (c := []) h hroot hlen hfuel (fun _ _ _ _ _ => rfl) (by simp)

theorem forward_or_backward_single (h : Shape A tree.mem (leaf a)) (hroot : tree.root = some a)
    (hfuel : 1 ≤ fuel) : forward A fuel tree = none ∨ backward A fuel tree = none := by
  have hinit : ∀ side, initIterator fuel tree side = some (some a) := by
    intro side
    rw [initIterator_eq (t := leaf a) h hroot hfuel]
    cases side <;> rfl
  cases hbit : extBit (A.key a) 0 with
  | false =>
    refine .inl ?_
    rw [forward, initfirstPatriciatrieiterator, hinit]
    exact collect_single h hroot hfuel hbit rfl fuel
  | true =>
    refine .inr ?_
    rw [backward, initlastPatriciatrieiterator, hinit]
    exact collect_single h hroot hfuel hbit rfl fuel

end Neighbour

/-! ## The prefix iterator -/

section Prefix

variable {Addr : Type} {A : GetkeyAdapter Addr} {tree : Patriciatrie Addr} {t s : BitTree Addr}
  {c : List (Frame Addr)} {fuel : ℕ} {prefixkey : List UInt8}

theorem comparePrefix_eq {bytes ps : List UInt8} {offset : ℕ} {key2 : Cursor Addr}
    (h : key2.At A bytes offset) (hlen : offset + ps.length ≤ bytes.length) :
    comparePrefix A ps offset key2 = some (ps.isPrefixOf (bytes.drop offset)) := by
  induction ps generalizing offset key2 with
  | nil => rw [comparePrefix, List.isPrefixOf_nil_left]
  | cons b ps ih =>
    rw [List.length_cons] at hlen
    have hlt : offset < bytes.length := by omega
    obtain ⟨hat, hend⟩ := h.refill (Nat.ne_of_lt hlt)
    have hdrop : bytes.drop offset = extByte bytes offset :: bytes.drop (offset + 1) := by
      rw [List.drop_eq_getElem_cons hlt]
      have := extByte_of_lt hlt
      rw [List.getElem?_eq_getElem hlt] at this
      rw [Option.some.inj this]
    rw [comparePrefix]
    simp only [hat.byte hend, Option.bind_eq_bind, Option.bind_some]
    rw [ih (hat.next hend) (by omega), hdrop, List.isPrefixOf_cons_cons]
    by_cases hb : b = extByte bytes offset
    · rw [if_neg (not_not.mpr hb), hb, beq_self_eq_true, Bool.true_and]
    · rw [if_pos hb, beq_false_of_ne hb, Bool.false_and]

/-- The way that the prefix leads, as far as it goes. -/
structure PrefixWay (prefixkey : List UInt8) (t s : BitTree Addr) (c : List (Frame Addr)) :
    Prop where
  eq_fill : t = fill s c
  follows : Follows (extBit prefixkey) c
  bit_lt : ∀ f ∈ c, f.bit < 8 * prefixkey.length
  stop : ∀ a bit l r, s = branch a bit l r → 8 * prefixkey.length ≤ bit

theorem exists_prefixWay (prefixkey : List UInt8) (t : BitTree Addr) :
    ∃ s c, PrefixWay prefixkey t s c := by
  obtain ⟨s, c, hfill, hfollows, hlt, hend⟩ :=
    exists_way (extBit prefixkey) (· < 8 * prefixkey.length) t
  refine ⟨s, c, hfill, hfollows, hlt, ?_⟩
  rintro a bit l r rfl
  rcases hend with ⟨x, hx⟩ | ⟨a', bit', l', r', heq, hbit⟩
  · cases hx
  · cases heq
    exact Nat.le_of_not_lt hbit

theorem search_prefix (h : Shape A tree.mem (fill s c)) (hway : PrefixWay prefixkey (fill s c) s c)
    (hne : c ≠ []) (hfuel : (fill s c).leaves.length ≤ fuel) :
    ∃ key, search A tree.mem (fun parent node => isDown tree.mem parent node &&
        decide ((tree.mem node).bitOffset < 8 * prefixkey.length)) fuel
        (initfullkeyGetkeydata prefixkey) (fill s c).label =
      some (key, (c.head hne).label, s.label) := by
  have hgrow := h.ctx.2.pairwise (leaves_ne_nil _)
  obtain ⟨key, hwalk, -⟩ := walk_spec (fun parent node => isDown tree.mem parent node &&
        decide ((tree.mem node).bitOffset < 8 * prefixkey.length)) (fun _ _ _ => ()) h.repCtx.2
    hne (reads_full (A := A) prefixkey) (fun _ _ => Nat.zero_le _) hgrow hway.follows
    (by
      intro inner f outer hc
      subst hc
      rw [fill_append] at h
      have hdown := h.isDown_iff
      rw [label_fill] at hdown
      rw [Bool.and_eq_true, hdown, decide_eq_true_iff]
      constructor
      · rintro ⟨⟨a, bit, l, r, heq⟩, hlt⟩ rfl
        change s = _ at heq
        subst heq
        change (tree.mem a).bitOffset < _ at hlt
        rw [h.repCtx.1.1] at hlt
        exact Nat.not_lt.mpr (hway.stop a bit l r rfl) hlt
      · intro hinner
        refine ⟨exists_branch_fill s hinner, ?_⟩
        rw [List.pairwise_append] at hgrow
        obtain ⟨k, hk, htop, -⟩ := top_bit hgrow.1 hinner s.label
        rw [← fill_append] at h
        obtain ⟨child, hchild⟩ := h.mem_frame (List.mem_append_left (f :: outer) hk)
        rw [htop, hchild, bitOffset_frameNode]
        exact hway.bit_lt k (List.mem_append_left _ hk))
    (Nat.le_of_lt (Nat.lt_of_lt_of_le h.length_lt hfuel)) ()
  refine ⟨key, ?_⟩
  rw [search, label_fill, hwalk]
  rfl

theorem prefixNode_eq (h : Shape A tree.mem (fill s c)) (hway : PrefixWay prefixkey (fill s c) s c)
    (hfuel : (fill s c).leaves.length ≤ fuel) :
    ∃ parent node, (if (tree.mem (fill s c).label).bitOffset < 8 * prefixkey.length then
          (search A tree.mem (fun parent node => isDown tree.mem parent node &&
            decide ((tree.mem node).bitOffset < 8 * prefixkey.length)) fuel
            (initfullkeyGetkeydata prefixkey) (fill s c).label).map Prod.snd
        else (tree.mem (fill s c).label).left.map fun node => ((fill s c).label, node)) =
        some (parent, node) ∧
      descend tree.mem false fuel parent node = some s.firstLeaf := by
  have hbranches := h.length_branches
  cases hc : c with
  | cons g c' =>
    have hne : c ≠ [] := by rw [hc]; exact List.cons_ne_nil _ _
    obtain ⟨key, hsearch⟩ := search_prefix h hway hne hfuel
    obtain ⟨k, hk, htop, -⟩ :=
      top_bit (h.ctx.2.pairwise (leaves_ne_nil _)) hne s.label
    have hroot : (tree.mem (fill s c).label).bitOffset < 8 * prefixkey.length := by
      obtain ⟨child, hchild⟩ := h.mem_frame hk
      rw [label_fill, htop, hchild, bitOffset_frameNode]
      exact hway.bit_lt k hk
    rw [← hc, if_pos hroot, hsearch]
    subst hc
    refine ⟨g.label, s.label, rfl, ?_⟩
    rw [(branches_fill _ _).length_eq, List.length_append] at hbranches
    exact descend_eq false h (by omega)
  | nil =>
    subst hc
    change Shape A tree.mem s at h
    cases s with
    | leaf x =>
      have hmem : tree.mem x = bottomNode x := Shape.mem_leaf h
      obtain ⟨fuel, rfl⟩ : ∃ n, fuel = n + 1 := ⟨fuel - 1, by simp [fill, leaves] at hfuel; omega⟩
      have hstop : isDown tree.mem x x = false := by simp [isDown]
      have hdescend : descend tree.mem false (fuel + 1) x x = some x := by
        rw [descend, hstop]
        rfl
      refine ⟨x, x, ?_, hdescend⟩
      change (if (tree.mem x).bitOffset < _ then Option.map Prod.snd (search A tree.mem _ _ _ x)
        else Option.map _ (tree.mem x).left) = _
      by_cases hbit : (tree.mem x).bitOffset < 8 * prefixkey.length
      · rw [if_pos hbit, search, walk, getbit_full]
        simp [hmem, bottomNode, hstop]
      · rw [if_neg hbit, hmem]
        rfl
    | branch a bit l r =>
      have hnode : tree.mem a = ⟨bit, some l.label, some r.label⟩ := h.rep.1
      have hstop := hway.stop a bit l r rfl
      refine ⟨a, l.label, ?_, ?_⟩
      · change (if (tree.mem a).bitOffset < _ then _ else Option.map _ (tree.mem a).left) = _
        rw [hnode, if_neg (Nat.not_lt.mpr hstop)]
        rfl
      · refine descend_eq false (f := ⟨a, bit, false, r⟩) (c := []) h ?_
        refine Nat.lt_of_lt_of_le ?_ hfuel
        change (a :: (l.branches ++ r.branches)).length < _ at hbranches
        rw [List.length_cons, List.length_append] at hbranches
        omega

/-- **The first step of the prefix iterator** looks at the first node below the place where the
prefix ends. -/
theorem initfirst_prefix_eq (h : Shape A tree.mem (fill s c))
    (hroot : tree.root = some (fill s c).label) (hway : PrefixWay prefixkey (fill s c) s c)
    (hlimit : prefixkey.length < keyLimit) (hfuel : (fill s c).leaves.length ≤ fuel) :
    initfirstPatriciatrieprefixiter A fuel tree prefixkey =
      some (if prefixkey.isPrefixOf (A.key s.firstLeaf) then some s.firstLeaf else none,
        8 * prefixkey.length) := by
  have hbits : 8 * prefixkey.length % 2 ^ 64 = 8 * prefixkey.length := by
    refine Nat.mod_eq_of_lt ?_
    unfold keyLimit at hlimit
    omega
  obtain ⟨parent, node, hnode, hdescend⟩ := prefixNode_eq h hway hfuel
  have hfirst := reads_init1 (A := A) s.firstLeaf
  have hequal : (if prefixkey.length ≤ (A.key s.firstLeaf).length then
        comparePrefix A prefixkey 0 ⟨init1Getkeydata A.getkey s.firstLeaf, 0⟩
      else some false) = some (prefixkey.isPrefixOf (A.key s.firstLeaf)) := by
    by_cases hlen : prefixkey.length ≤ (A.key s.firstLeaf).length
    · rw [if_pos hlen]
      exact comparePrefix_eq (Cursor.at_start hfirst (offset_init1 _)) (by omega)
    · rw [if_neg hlen]
      cases hp : prefixkey.isPrefixOf (A.key s.firstLeaf) with
      | false => rfl
      | true => exact absurd (List.isPrefixOf_iff_prefix.mp hp).length_le hlen
  unfold initfirstPatriciatrieprefixiter
  simp only [hroot, hbits, if_pos hlimit, hnode, Option.bind_eq_bind, Option.bind_some, hdescend,
    hfirst.streamsize, (reads_full (A := A) prefixkey).streamsize, hequal]

theorem PrefixWay.le_bit (h : Shape A tree.mem (fill s c))
    (hway : PrefixWay prefixkey (fill s c) s c) {a : Addr} {inner : List (Frame Addr)}
    (hs : s = fill (leaf a) inner) {f : Frame Addr} (hf : f ∈ inner) :
    8 * prefixkey.length ≤ f.bit := by
  obtain ⟨b, bit, l, r, heq⟩ := exists_branch_fill (leaf a) (List.ne_nil_of_mem hf)
  have hbit := hway.stop b bit l r (hs.trans heq)
  have hok : Ok (bits A) (fill (leaf a) inner) := hs ▸ h.ctx.1
  obtain ⟨k, hk, htop, hmin⟩ :=
    top_bit ((ok_fill.mp hok).2.pairwise (leaves_ne_nil _)) (List.ne_nil_of_mem hf) a
  -- the first branch of the subtree
  have hnode : (tree.mem b).bitOffset = bit := by
    have hrep : Rep tree.mem (branch b bit l r) := hs.trans heq ▸ h.repCtx.1
    rw [hrep.1]
  have hlabel : b = k.label := by
    rw [← htop, ← show (fill (leaf a) inner).label = top a inner from label_fill _ _, heq]
    rfl
  rw [hs, ← fill_append] at h
  obtain ⟨child, hchild⟩ := h.mem_frame (List.mem_append_left c hk)
  rw [hlabel, hchild, bitOffset_frameNode] at hnode
  exact (hbit.trans hnode.ge).trans (hmin f hf)

/-- **The prefix iterator** yields the nodes below the place where the prefix ends, if the first one
has the prefix. -/
theorem prefixed_eq (h : Shape A tree.mem (fill s c)) (hroot : tree.root = some (fill s c).label)
    (hway : PrefixWay prefixkey (fill s c) s c) (hlimit : prefixkey.length < keyLimit)
    (hlen : 1 < (fill s c).leaves.length) (hfuel : (fill s c).leaves.length < fuel) :
    prefixed A fuel tree prefixkey =
      some (if prefixkey.isPrefixOf (A.key s.firstLeaf) then s.leaves else []) := by
  rw [prefixed, initfirst_prefix_eq h hroot hway hlimit (Nat.le_of_lt hfuel)]
  simp only [Option.bind_eq_bind, Option.bind_some]
  by_cases hp : prefixkey.isPrefixOf (A.key s.firstLeaf) = true
  · rw [if_pos hp, if_pos hp]
    refine collect_subtree false h hroot hlen hfuel (fun a inner hs f hf => ?_)
      fun f hf => ?_
    · exact decide_eq_true (hway.le_bit h hs hf)
    · rw [decide_eq_true_iff]
      exact Nat.not_le.mpr (hway.bit_lt f hf)
  · rw [if_neg hp, if_neg hp]
    obtain ⟨fuel, rfl⟩ : ∃ n, fuel = n + 1 := ⟨fuel - 1, by omega⟩
    rfl

end Prefix

/-! ## Prefixes and bits -/

section PrefixBits

variable {key prefixkey : List UInt8}

theorem isPrefixOf_iff : prefixkey.isPrefixOf key = true ↔ prefixkey.length ≤ key.length ∧
    ∀ j < 8 * prefixkey.length, extBit key j = extBit prefixkey j := by
  rw [List.isPrefixOf_iff_prefix, extBit_agree_iff]
  constructor
  · rintro ⟨rest, rfl⟩
    refine ⟨by simp, fun i hi => Option.some.inj ?_⟩
    rw [← extByte_of_lt hi, ← extByte_of_lt (by rw [List.length_append]; omega),
      List.getElem?_append_left hi]
  · rintro ⟨hlen, hbytes⟩
    rw [List.prefix_iff_getElem?]
    intro i hi
    rw [extByte_of_lt (Nat.lt_of_lt_of_le hi hlen), hbytes i hi, ← extByte_of_lt hi,
      List.getElem?_eq_getElem hi]

theorem eq_marker_iff : (∃ n, prefixkey = key ++ 0xFF :: List.replicate n 0) ↔
    key.length < prefixkey.length ∧
      ∀ j < 8 * prefixkey.length, extBit key j = extBit prefixkey j := by
  rw [extBit_agree_iff]
  constructor
  · rintro ⟨n, rfl⟩
    refine ⟨by simp, fun i hi => ?_⟩
    have hi' := extByte_of_lt hi
    rcases Nat.lt_trichotomy i key.length with hlt | rfl | hlt
    · rw [List.getElem?_append_left hlt, extByte_of_lt hlt] at hi'
      exact Option.some.inj hi'
    · rw [List.getElem?_append_right le_rfl, Nat.sub_self] at hi'
      rw [extByte_length]
      exact Option.some.inj hi'
    · rw [List.getElem?_append_right (Nat.le_of_lt hlt),
        show i - key.length = (i - key.length - 1) + 1 by omega, List.getElem?_cons_succ,
        List.getElem?_replicate] at hi'
      rw [extByte_of_gt hlt]
      split_ifs at hi'
      exact Option.some.inj hi'
  · rintro ⟨hlen, hbytes⟩
    refine ⟨prefixkey.length - key.length - 1, List.ext_getElem? fun i => ?_⟩
    rcases Nat.lt_or_ge i prefixkey.length with hi | hi
    · rw [extByte_of_lt hi, ← hbytes i hi]
      rcases Nat.lt_trichotomy i key.length with hlt | rfl | hlt
      · rw [List.getElem?_append_left hlt, extByte_of_lt hlt]
      · rw [List.getElem?_append_right le_rfl, Nat.sub_self, extByte_length]
        rfl
      · rw [List.getElem?_append_right (Nat.le_of_lt hlt),
          show i - key.length = (i - key.length - 1) + 1 by omega, List.getElem?_cons_succ,
          List.getElem?_replicate, if_pos (by omega), extByte_of_gt hlt]
    · rw [List.getElem?_eq_none hi, List.getElem?_eq_none (by simp; omega)]

theorem extBit_behind {j : ℕ} (hj : 8 * (key.length + 1) ≤ j) : extBit key j = false := by
  rw [extBit, extByte_of_gt (by omega), keyBit_zero]

end PrefixBits

/-! ## When the prefix iterator is exact -/

section Exact

variable {Addr : Type} {A : GetkeyAdapter Addr} {tree : Patriciatrie Addr} {t s : BitTree Addr}
  {c : List (Frame Addr)} {fuel : ℕ} {prefixkey : List UInt8} {objects : List Addr}

/-- If there are objects with the prefix, then the prefix is no key with an end marker and zeros. -/
def PrefixClear (A : GetkeyAdapter Addr) (objects : List Addr) (prefixkey : List UInt8) : Prop :=
  (∃ a ∈ objects, prefixkey.isPrefixOf (A.key a)) →
    ∀ b ∈ objects, ¬∃ n, prefixkey = A.key b ++ 0xFF :: List.replicate n 0

theorem PrefixWay.mem (h : Shape A tree.mem (fill s c))
    (hway : PrefixWay prefixkey (fill s c) s c) {a : Addr} (ha : a ∈ (fill s c).leaves)
    (hbits : ∀ j < 8 * prefixkey.length, extBit (A.key a) j = extBit prefixkey j) :
    a ∈ s.leaves := by
  refine mem_of_follows h.ctx.2 ha fun f hf => ?_
  rw [hway.follows f hf]
  exact (hbits f.bit (hway.bit_lt f hf)).symm

theorem PrefixWay.agree (h : Shape A tree.mem (fill s c))
    (hway : PrefixWay prefixkey (fill s c) s c) {a b : Addr} (ha : a ∈ s.leaves)
    (hb : b ∈ s.leaves) {j : ℕ} (hj : j < 8 * prefixkey.length) :
    extBit (A.key a) j = extBit (A.key b) j := by
  cases s with
  | leaf x => rw [List.mem_singleton.mp ha, List.mem_singleton.mp hb]
  | branch x bit l r =>
    exact agree_of_branch h.ctx.1 ha hb (Nat.lt_of_lt_of_le hj (hway.stop x bit l r rfl))

theorem PrefixWay.isPrefixOf (h : Shape A tree.mem (fill s c))
    (hway : PrefixWay prefixkey (fill s c) s c)
    (hfirst : prefixkey.isPrefixOf (A.key s.firstLeaf) = true) {a : Addr} (ha : a ∈ s.leaves) :
    prefixkey.isPrefixOf (A.key a) = true := by
  obtain ⟨-, hbits⟩ := isPrefixOf_iff.mp hfirst
  refine isPrefixOf_iff.mpr ⟨?_, fun j hj =>
    (hway.agree h ha s.firstLeaf_mem hj).trans (hbits j hj)⟩
  by_contra hlen
  obtain ⟨rest, hrest⟩ : ∃ rest, s.leaves = s.firstLeaf :: rest := by
    have hhead := s.head?_leaves
    cases hs : s.leaves with
    | nil => exact absurd hs (leaves_ne_nil s)
    | cons b rest =>
      rw [hs, List.head?_cons] at hhead
      exact ⟨rest, by rw [Option.some.inj hhead]⟩
  have hsorted := pairwise_leaves h.ctx.1
  rw [hrest] at ha hsorted
  rcases List.mem_cons.mp ha with rfl | ha'
  · exact hlen (isPrefixOf_iff.mp hfirst).1
  · obtain ⟨i, -, hzero, hone⟩ := (List.pairwise_cons.mp hsorted).1 a ha'
    rcases Nat.lt_or_ge i (8 * prefixkey.length) with hi | hi
    · have := hway.agree h (hrest ▸ ha) s.firstLeaf_mem hi
      rw [bits] at hzero hone
      rw [hzero, hone] at this
      cases this
    · rw [bits, extBit_behind (by omega)] at hone
      cases hone

/-- **The prefix iterator is exact** if and only if no key with its end marker is in the way. -/
theorem prefixed_exact_iff (h : Shape A tree.mem (fill s c))
    (hway : PrefixWay prefixkey (fill s c) s c) :
    (if prefixkey.isPrefixOf (A.key s.firstLeaf) then s.leaves else []) =
        (fill s c).leaves.filter (fun a => prefixkey.isPrefixOf (A.key a)) ↔
      PrefixClear A (fill s c).leaves prefixkey := by
  have hsub : ∀ a ∈ s.leaves, a ∈ (fill s c).leaves := fun a ha => by
    rw [leaves_fill, mem_around]
    exact .inr (.inl ha)
  have hmem : ∀ a ∈ (fill s c).leaves, prefixkey.isPrefixOf (A.key a) = true → a ∈ s.leaves :=
    fun a ha hp => hway.mem h ha (isPrefixOf_iff.mp hp).2
  by_cases hfirst : prefixkey.isPrefixOf (A.key s.firstLeaf) = true
  · rw [if_pos hfirst]
    have hnodup := nodup_leaves h.ok
    rw [leaves_fill, around] at hnodup
    obtain ⟨-, hnodup', hdisj⟩ := List.nodup_append.mp hnodup
    obtain ⟨-, -, hdisj'⟩ := List.nodup_append.mp hnodup'
    have hfilter : (fill s c).leaves.filter (fun a => prefixkey.isPrefixOf (A.key a)) =
        s.leaves := by
      have hlower : (lower c).filter (fun a => prefixkey.isPrefixOf (A.key a)) = [] := by
        refine List.filter_eq_nil_iff.mpr fun a ha hp => ?_
        refine hdisj a ha a (List.mem_append_left _ (hmem a ?_ hp)) rfl
        rw [leaves_fill, mem_around]
        exact .inl ha
      have hupper : (upper c).filter (fun a => prefixkey.isPrefixOf (A.key a)) = [] := by
        refine List.filter_eq_nil_iff.mpr fun a ha hp => ?_
        refine hdisj' a (hmem a ?_ hp) a ha rfl
        rw [leaves_fill, mem_around]
        exact .inr (.inr ha)
      rw [leaves_fill, around, List.filter_append, List.filter_append, hlower, hupper,
        List.nil_append, List.append_nil]
      exact List.filter_eq_self.mpr fun a ha => hway.isPrefixOf h hfirst ha
    refine ⟨fun _ _ b hb hmarker => ?_, fun _ => hfilter.symm⟩
    obtain ⟨hlen, hbits⟩ := eq_marker_iff.mp hmarker
    have := (isPrefixOf_iff.mp (hway.isPrefixOf h hfirst (hway.mem h hb hbits))).1
    omega
  · rw [if_neg hfirst, eq_comm, List.filter_eq_nil_iff]
    constructor
    · rintro hnone ⟨a, ha, hp⟩
      exact absurd hp (hnone a ha)
    · -- the first object has the bits of the prefix
      intro hclear a ha hp
      refine hclear ⟨a, ha, hp⟩ s.firstLeaf (hsub _ s.firstLeaf_mem) (eq_marker_iff.mpr ?_)
      have hbits : ∀ j < 8 * prefixkey.length,
          extBit (A.key s.firstLeaf) j = extBit prefixkey j := fun j hj =>
        (hway.agree h s.firstLeaf_mem (hmem a ha hp) hj).trans ((isPrefixOf_iff.mp hp).2 j hj)
      refine ⟨Nat.lt_of_not_le fun hlen => hfirst ?_, hbits⟩
      exact isPrefixOf_iff.mpr ⟨hlen, hbits⟩

end Exact

/-! ## When the iterators are exact -/

section Iteration

variable {Addr : Type}

/-- The iterators yield all objects in ascending order of the keys with their end markers, the same
in reverse, and those with a prefix in the same order. -/
def IterationExact (A : GetkeyAdapter Addr) (tree : Patriciatrie Addr) (objects : List Addr)
    (prefixkey : List UInt8) : Prop :=
  ∃ L, L.Pairwise (Precedes (bits A)) ∧ L.Perm objects ∧ ∃ n, ∀ fuel ≥ n,
    forward A fuel tree = some L ∧ backward A fuel tree = some L.reverse ∧
    prefixed A fuel tree prefixkey = some (L.filter fun a => prefixkey.isPrefixOf (A.key a))

/-- The condition on the stored objects and the prefix. -/
def IterationClear (A : GetkeyAdapter Addr) (objects : List Addr) (prefixkey : List UInt8) : Prop :=
  objects = [] ∨
    objects.length ≠ 1 ∧ prefixkey.length < keyLimit ∧ PrefixClear A objects prefixkey

variable {A : GetkeyAdapter Addr} {tree : Patriciatrie Addr} {objects : List Addr}
  {prefixkey : List UInt8}

theorem PrefixClear.perm {L : List Addr} (hperm : L.Perm objects) :
    PrefixClear A L prefixkey ↔ PrefixClear A objects prefixkey := by
  unfold PrefixClear
  simp only [hperm.mem_iff]

theorem exact_of_empty (hroot : tree.root = none) : IterationExact A tree [] prefixkey := by
  refine ⟨[], List.Pairwise.nil, List.Perm.refl _, 1, fun fuel hfuel => ?_⟩
  obtain ⟨fuel, rfl⟩ : ∃ n, fuel = n + 1 := ⟨fuel - 1, by omega⟩
  unfold forward backward prefixed initfirstPatriciatrieiterator initlastPatriciatrieiterator
    initIterator initfirstPatriciatrieprefixiter
  simp only [hroot]
  exact ⟨rfl, rfl, rfl⟩

theorem prefixed_long {root : Addr} {fuel : ℕ} (hroot : tree.root = some root)
    (hlimit : ¬prefixkey.length < keyLimit) : prefixed A fuel tree prefixkey ≠ some [] := by
  unfold prefixed initfirstPatriciatrieprefixiter
  simp only [hroot, if_neg hlimit, Option.bind_eq_bind, Option.bind_some]
  cases fuel with
  | zero => exact fun h => by cases h
  | succ fuel =>
    rw [collect]
    simp only [nextPatriciatrieprefixiter, iterate, Option.bind_eq_bind]
    cases hnext : neighbour A (fuel + 1) tree false _ root with
    | none => exact fun h => by cases h
    | some next =>
      simp only [Option.map_some, Option.bind_some]
      intro h
      obtain ⟨rest, -, hrest⟩ := Option.bind_eq_some_iff.mp h
      cases hrest

/-- **The iterators on a trie** with at least two objects. -/
theorem exact_iff_of_shape {t : BitTree Addr} (h : Shape A tree.mem t)
    (hroot : tree.root = some t.label) (hlen : 1 < t.leaves.length)
    (hkeys : ∀ a ∈ t.leaves, (A.key a).length < keyLimit) :
    IterationExact A tree t.leaves prefixkey ↔
      prefixkey.length < keyLimit ∧ PrefixClear A t.leaves prefixkey := by
  by_cases hlimit : prefixkey.length < keyLimit
  · obtain ⟨s, c, hway⟩ := exists_prefixWay prefixkey t
    obtain rfl := hway.eq_fill
    rw [← prefixed_exact_iff h hway]
    have hprefixed : ∀ fuel, (fill s c).leaves.length < fuel → prefixed A fuel tree prefixkey =
        some (if prefixkey.isPrefixOf (A.key s.firstLeaf) then s.leaves else []) := fun fuel =>
      prefixed_eq h hroot hway hlimit hlen
    constructor
    · rintro ⟨L, -, -, n, hn⟩
      obtain ⟨hforward, -, hp⟩ := hn (n + (fill s c).leaves.length + 1) (by omega)
      rw [forward_eq h hroot hlen (by omega)] at hforward
      rw [hprefixed _ (by omega), ← Option.some.inj hforward] at hp
      exact ⟨hlimit, Option.some.inj hp⟩
    · rintro ⟨-, hp⟩
      refine ⟨_, pairwise_leaves h.ok, List.Perm.refl _, (fill s c).leaves.length + 1,
        fun fuel hfuel => ⟨forward_eq h hroot hlen hfuel, backward_eq h hroot hlen hfuel, ?_⟩⟩
      rw [hprefixed fuel hfuel, hp]
  · refine ⟨?_, fun hclear => absurd hclear.1 hlimit⟩
    rintro ⟨L, -, hperm, n, hn⟩
    -- no key can be as long as the prefix
    have hnil : L.filter (fun a => prefixkey.isPrefixOf (A.key a)) = [] := by
      refine List.filter_eq_nil_iff.mpr fun a ha hp => ?_
      have := hkeys a (hperm.mem_iff.mp ha)
      have := (isPrefixOf_iff.mp hp).1
      omega
    have hp := (hn n le_rfl).2.2
    rw [hnil] at hp
    exact absurd hp (prefixed_long hroot hlimit)

/-- **The iterators** yield what they should, if and only if the trie is empty, or it has at least
two objects and the prefix is clear. -/
theorem Holds.exact_iff (h : Holds A tree objects)
    (hkeys : ∀ a ∈ objects, (A.key a).length < keyLimit) :
    IterationExact A tree objects prefixkey ↔ IterationClear A objects prefixkey := by
  rcases h with ⟨hroot, rfl⟩ | ⟨t, hroot, hshape, hperm⟩
  · exact ⟨fun _ => .inl rfl, fun _ => exact_of_empty hroot⟩
  · have hpos : 0 < objects.length := by
      rw [← hperm.length_eq]
      exact List.length_pos_of_ne_nil (leaves_ne_nil t)
    have hne : objects ≠ [] := List.ne_nil_of_length_pos hpos
    have hexact : IterationExact A tree objects prefixkey ↔
        IterationExact A tree t.leaves prefixkey := by
      unfold IterationExact
      simp only [show ∀ L : List Addr, L.Perm objects ↔ L.Perm t.leaves from fun L =>
        ⟨fun h => h.trans hperm.symm, fun h => h.trans hperm⟩]
    rw [hexact, IterationClear, or_iff_right hne, ← PrefixClear.perm hperm, ← hperm.length_eq]
    rcases Nat.eq_or_lt_of_le (show 1 ≤ t.leaves.length by rw [hperm.length_eq]; exact hpos)
      with hone | hlen
    · refine ⟨?_, fun hclear => absurd hone.symm hclear.1⟩
      -- one of the two iterators does not end
      rintro ⟨L, -, -, n, hn⟩
      obtain ⟨a, rfl⟩ : ∃ a, t = leaf a := by
        cases t with
        | leaf a => exact ⟨a, rfl⟩
        | branch a bit l r =>
          rw [leaves, List.length_append] at hone
          have hl := List.length_pos_of_ne_nil (leaves_ne_nil l)
          have hr := List.length_pos_of_ne_nil (leaves_ne_nil r)
          omega
      obtain ⟨hforward, hbackward, -⟩ := hn (n + 1) (Nat.le_succ n)
      rcases forward_or_backward_single hshape hroot
          (show 1 ≤ n + 1 by omega) with hno | hno
      · rw [hno] at hforward
        cases hforward
      · rw [hno] at hbackward
        cases hbackward
    · rw [exact_iff_of_shape hshape hroot hlen fun a ha => hkeys a (hperm.mem_iff.mp ha)]
      exact ⟨fun h => ⟨Nat.ne_of_gt hlen, h⟩, fun h => h.2⟩

section Run

variable [DecidableEq Addr]

/-- A run of calls on an empty trie ends with a trie whose iterators are exact for a prefix. -/
def IteratesExactly (A : GetkeyAdapter Addr) (mem : Addr → Node Addr) (ops : List (Op Addr))
    (prefixkey : List UInt8) : Prop :=
  ∃ n, ∀ fuel ≥ n, ∃ tree results, run A fuel ⟨mem, none⟩ ops = some (tree, results) ∧
    IterationExact A tree (specRun A [] ops).1 prefixkey

theorem exists_run (A : GetkeyAdapter Addr) (mem : Addr → Node Addr) (ops : List (Op Addr))
    (prefixkey : List UInt8) :
    ∃ n, ∀ fuel ≥ n, ∃ tree results, run A fuel ⟨mem, none⟩ ops = some (tree, results) ∧
      (IterationExact A tree (specRun A [] ops).1 prefixkey ↔
        IterationClear A (specRun A [] ops).1 prefixkey) := by
  obtain ⟨n, hn⟩ := exists_enough A (ops.flatMap Op.inserts ++ [])
  refine ⟨n, fun fuel hfuel => ?_⟩
  obtain ⟨tree, hrun, hholds⟩ := run_eq (holds_empty A mem) ops (hn fuel hfuel)
  exact ⟨tree, _, hrun, hholds.exact_iff (specRun_length ops (by simp))⟩

theorem IteratesExactly.clear {mem : Addr → Node Addr} {ops : List (Op Addr)}
    (h : IteratesExactly A mem ops prefixkey) :
    IterationClear A (specRun A [] ops).1 prefixkey := by
  obtain ⟨n, hn⟩ := h
  obtain ⟨m, hm⟩ := exists_run A mem ops prefixkey
  obtain ⟨tree, results, hrun, hexact⟩ := hn (max n m) (le_max_left n m)
  obtain ⟨tree', results', hrun', hiff⟩ := hm (max n m) (le_max_right n m)
  rw [hrun] at hrun'
  cases hrun'
  exact hiff.mp hexact

/-- **When the iteration is exact.**  After every run of insertions and removals, the iterators
yield the stored objects in order, in reverse and those with the prefix, if and only if the trie is
empty, or it holds at least two objects, the prefix is not too long, and it is not a stored key with
its end marker and zeros when objects have it. -/
theorem iteratesExactly_iff (A : GetkeyAdapter Addr) (mem : Addr → Node Addr)
    (ops : List (Op Addr)) (prefixkey : List UInt8) :
    IteratesExactly A mem ops prefixkey ↔ IterationClear A (specRun A [] ops).1 prefixkey := by
  refine ⟨fun h => h.clear, fun hclear => ?_⟩
  obtain ⟨n, hn⟩ := exists_run A mem ops prefixkey
  refine ⟨n, fun fuel hfuel => ?_⟩
  obtain ⟨tree, results, hrun, hiff⟩ := hn fuel hfuel
  exact ⟨tree, results, hrun, hiff.mpr hclear⟩

end Run

/-- A trie with the single key `"a"` is iterated for ever.  With the keys `""` and `"\xFF"`, nothing
has the prefix `"\xFF"`, since only the first key is compared with it. -/
theorem iteration_not_exact :
    ¬IteratesExactly (blockwise 0 fun _ : ℕ => [0x61]) (fun _ => ⟨0, none, none⟩) [.insert 0] [] ∧
    ¬IteratesExactly (blockwise 0 fun a : ℕ => if a = 0 then [] else [0xFF])
      (fun _ => ⟨0, none, none⟩) [.insert 0, .insert 1] [0xFF] := by
  constructor
  · intro h
    have hrun : (specRun (blockwise 0 fun _ : ℕ => [0x61]) [] [.insert 0]).1 = [0] := by decide
    have hclear := h.clear
    rw [hrun] at hclear
    rcases hclear with hnil | ⟨hone, -⟩
    · cases hnil
    · exact hone rfl
  · intro h
    have hrun : (specRun (blockwise 0 fun a : ℕ => if a = 0 then [] else [0xFF]) []
        [.insert 0, .insert 1]).1 = [1, 0] := by decide
    have hclear := h.clear
    rw [hrun] at hclear
    rcases hclear with hnil | ⟨-, -, hclear⟩
    · cases hnil
    · exact hclear ⟨1, List.mem_cons_self, rfl⟩ 0 (List.mem_cons_of_mem 1 List.mem_cons_self)
        ⟨0, rfl⟩

end Iteration

end Patricia
end CKern
