import CKern.Ds.Inmem.PatriciatrieKey
import CKern.Library.CritBit
import Mathlib.Data.List.Induction
import Mathlib.Logic.Function.Basic

/-!
# The patricia trie

A node of the trie tests one bit of a key and points to two other nodes.  A pointer to a node that
tests a later bit goes down; any other pointer ends the search at the object of that node.  One node
of the trie, at the bottom, tests no bit and points to itself.

* `walk`: the loop that all searches have in common.
* `findPatriciatrie`, `insertPatriciatrie`, `removePatriciatrie`: the operations, as in the source.
  A null pointer that is followed has no result.
* `Rep`, `RepCtx`, `Shape`: the crit-bit tree for the nodes in memory.
* `Shape.insert`, `Shape.remove`: what the operations do to the tree.
* `run_eq`: the results of every sequence of calls are those of a list of objects with different
  keys.
-/

namespace CKern
namespace Patricia

open CritBit CritBit.BitTree

/-! ## Nodes and searches -/

/-- `patriciatrie_node_t` -/
structure Node (Addr : Type) where
  bitOffset : ℕ
  left : Option Addr
  right : Option Addr
  deriving DecidableEq

/-- `patriciatrie_t`, with the memory for the nodes. -/
structure Patriciatrie (Addr : Type) where
  mem : Addr → Node Addr
  root : Option Addr

inductive Errno
  | EINVAL
  | EEXIST
  | ESRCH
  deriving DecidableEq, Repr

/-- `((size_t)-1)/8`, the limit for the length of a key. -/
def keyLimit : ℕ := (2 ^ 64 - 1) / 8

section Model

variable {Addr : Type} (A : GetkeyAdapter Addr)

section Walk

variable {σ : Type} (mem : Addr → Node Addr) (cont : Addr → Addr → Bool)
  (note : σ → Addr → Bool → σ)

/-- The loop `do { parent = node; node = ... } while (...)` of a search: the state of the key, the
last two nodes, and what the loop has noted on the way. -/
def walk : ℕ → GetkeyData Addr → Addr → σ → Option (GetkeyData Addr × Addr × Addr × σ)
  | 0, _, _, _ => none
  | fuel + 1, key, parent, acc => do
    let (key, bit) ← getbit A key (mem parent).bitOffset
    let node ← (if bit then (mem parent).right else (mem parent).left)
    let acc := note acc parent bit
    if cont parent node then walk fuel key node acc else some (key, parent, node, acc)

end Walk

/-- The condition of a search that ends at an object. -/
def isDown (mem : Addr → Node Addr) (parent node : Addr) : Bool :=
  (mem parent).bitOffset < (mem node).bitOffset

/-- The part of a search that notes nothing. -/
def search (mem : Addr → Node Addr) (cont : Addr → Addr → Bool) (fuel : ℕ)
    (key : GetkeyData Addr) (node : Addr) : Option (GetkeyData Addr × Addr × Addr) :=
  (walk A mem cont (fun _ _ _ => ()) fuel key node ()).map fun r => (r.1, r.2.1, r.2.2.1)

/-- The parent and the node where the search ends. -/
def findnode (mem : Addr → Node Addr) (fuel : ℕ) (key : GetkeyData Addr) (root : Addr) :
    Option (GetkeyData Addr × Addr × Addr) :=
  search A mem (isDown mem) fuel key root

variable [DecidableEq Addr] (fuel : ℕ) (tree : Patriciatrie Addr)

def findPatriciatrie (key : List UInt8) : Option (Except Errno Addr) :=
  if key.length < keyLimit then
    match tree.root with
    | none => some (.error .ESRCH)
    | some root => do
      let (fullkey, _, node) ← findnode A tree.mem fuel (initfullkeyGetkeydata key) root
      let (_, equal) ← isKeyEqual A fuel node fullkey
      if equal then some (.ok node) else some (.error .ESRCH)
  else some (.error .EINVAL)

/-! ## Changes -/

/-- A node that points to itself, at the bottom of the trie. -/
def bottomNode (a : Addr) : Node Addr := ⟨0, some a, some a⟩

/-- A pointer of a node is replaced; the right one is tested first. -/
def repointRight (n : Node Addr) (old : Addr) (new : Option Addr) : Node Addr :=
  if n.right = some old then { n with right := new } else { n with left := new }

/-- A pointer of a node is replaced; the left one is tested first. -/
def repointLeft (n : Node Addr) (old : Addr) (new : Option Addr) : Node Addr :=
  if n.left = some old then { n with left := new } else { n with right := new }

/-- The loop that searches the position for a new bit. -/
def searchPosition (mem : Addr → Node Addr) (newBitoffset : ℕ) :
    ℕ → GetkeyData Addr → Option Addr → Addr → Option (Option Addr × Addr)
  | 0, _, _, _ => none
  | fuel + 1, key, parent, node =>
    if (mem node).bitOffset < newBitoffset then do
      let (key, bit) ← getbit A key (mem node).bitOffset
      let child ← (if bit then (mem node).right else (mem node).left)
      searchPosition mem newBitoffset fuel key (some node) child
    else some (parent, node)

/-- The last part of `insert_patriciatrie`: the new node at its position in the trie. -/
def linkNode (newnode : Addr) (parent : Option Addr) (node : Addr) (newBitoffset : ℕ)
    (newBitvalue : Bool) : Patriciatrie Addr :=
  if (tree.mem node).right = (tree.mem node).left then
    -- the node is at the bottom, where the new node takes its place
    let mem := Function.update tree.mem newnode (bottomNode newnode)
    let n := { mem node with bitOffset := newBitoffset }
    let n := if newBitvalue then { n with right := some newnode }
      else { n with left := some newnode }
    { tree with mem := Function.update mem node n }
  else
    let mem := Function.update tree.mem newnode
      (if newBitvalue then ⟨newBitoffset, some node, some newnode⟩
        else ⟨newBitoffset, some newnode, some node⟩)
    match parent with
    | some parent =>
      { tree with mem := Function.update mem parent (repointRight (mem parent) node newnode) }
    | none => ⟨mem, some newnode⟩

/-- `insert_patriciatrie`: an error comes with the pointer to an existing node, if there is one. -/
def insertPatriciatrie (newnode : Addr) :
    Option (Patriciatrie Addr × Except (Errno × Option Addr) Unit) :=
  let newkey := init1Getkeydata A.getkey newnode
  if newkey.streamsize < keyLimit then
    match tree.root with
    | none =>
      some (⟨Function.update tree.mem newnode (bottomNode newnode), some newnode⟩, .ok ())
    | some root => do
      let (newkey, parent, node) ← findnode A tree.mem fuel newkey root
      if node = newnode then some (tree, .error (.EEXIST, some node))
      else
        let foundkey := init1Getkeydata A.getkey node
        let (newkey, d) ← getFirstDifferentBit A fuel foundkey newkey
        match d with
        | none => some (tree, .error (.EEXIST, some node))
        | some (newBitoffset, newBitvalue) =>
          let (parent, node) ← (if newBitoffset < (tree.mem parent).bitOffset then
              searchPosition A tree.mem newBitoffset fuel
                (getbitinit A newkey (tree.mem root).bitOffset) none root
            else some (some parent, node))
          some (linkNode tree newnode parent node newBitoffset newBitvalue, .ok ())
  else some (tree, .error (.EINVAL, none))

/-- The first part of the removal: the trie without the upward pointer to the node, and the node
that still has to be replaced, with the one to replace it. -/
def unlinkNode (fullkey : GetkeyData Addr) (parent node : Addr) :
    Option (Patriciatrie Addr × Option (Addr × Option Addr)) :=
  let mem := tree.mem
  if (mem node).right = (mem node).left then
    -- the node is at the bottom
    if tree.root = some node then some ({ tree with root := none }, none)
    else if (mem parent).left = some parent ∨ (mem parent).right = some parent then
      some ({ tree with mem := Function.update mem parent (bottomNode parent) }, none)
    else
      let replacedwith :=
        if (mem parent).left = some node then (mem parent).right else (mem parent).left
      some ({ tree with mem := Function.update mem parent (bottomNode parent) },
        some (parent, replacedwith))
  else if (mem node).left = some node ∨ (mem node).right = some node then
    let replacedwith := if (mem node).left = some node then (mem node).right else (mem node).left
    some (tree, some (node, replacedwith))
  else do
    let replacednode := node
    let replacedwith := parent
    let (_, parent, node) ← search A mem (fun _ node => node ≠ replacedwith) fuel fullkey node
    let other :=
      if (mem node).left = some replacednode then (mem node).right else (mem node).left
    let mem := Function.update mem parent (repointLeft (mem parent) node other)
    let mem := Function.update mem node (mem replacednode)
    some ({ tree with mem := mem }, some (replacednode, some replacedwith))

/-- The second part of the removal: the parent of a node points to the one that replaces it. -/
def replaceNode (fullkey : GetkeyData Addr) (replacednode : Addr) (replacedwith : Option Addr) :
    Option (Patriciatrie Addr) := do
  let root ← tree.root
  if root = replacednode then some { tree with root := replacedwith }
  else
    let (_, parent, _) ← search A tree.mem (fun _ node => node ≠ replacednode) fuel fullkey root
    some { tree with
      mem := Function.update tree.mem parent
        (repointLeft (tree.mem parent) replacednode replacedwith) }

def removePatriciatrie (key : List UInt8) : Option (Patriciatrie Addr × Except Errno Addr) :=
  if key.length < keyLimit then
    match tree.root with
    | none => some (tree, .error .ESRCH)
    | some root => do
      let (fullkey, parent, node) ← findnode A tree.mem fuel (initfullkeyGetkeydata key) root
      let (fullkey, equal) ← isKeyEqual A fuel node fullkey
      if equal then
        let delnode := node
        let (tree, replaced) ← unlinkNode A fuel tree fullkey parent node
        let tree ← match replaced with
          | none => some tree
          | some (replacednode, replacedwith) =>
            replaceNode A fuel tree fullkey replacednode replacedwith
        some ({ tree with mem := Function.update tree.mem delnode ⟨0, none, none⟩ }, .ok delnode)
      else some (tree, .error .ESRCH)
  else some (tree, .error .EINVAL)

end Model

/-! ## The tree in memory -/

section Rep

variable {Addr : Type}

/-- The memory holds the branches of a tree. -/
def Rep (mem : Addr → Node Addr) : BitTree Addr → Prop
  | leaf _ => True
  | branch a bit l r => mem a = ⟨bit, some l.label, some r.label⟩ ∧ Rep mem l ∧ Rep mem r

/-- The node for a branch on the way to a place with the label `child`. -/
def frameNode (f : Frame Addr) (child : Addr) : Node Addr :=
  match f.right with
  | true => ⟨f.bit, some f.sibling.label, some child⟩
  | false => ⟨f.bit, some child, some f.sibling.label⟩

/-- The memory holds the branches on the way to a place and beside it. -/
def RepCtx (mem : Addr → Node Addr) : Addr → List (Frame Addr) → Prop
  | _, [] => True
  | child, f :: c => mem f.label = frameNode f child ∧ Rep mem f.sibling ∧ RepCtx mem f.label c

variable {mem mem' : Addr → Node Addr} {s : BitTree Addr} {c inner outer : List (Frame Addr)}
  {child : Addr}

theorem rep_fill : Rep mem (fill s c) ↔ Rep mem s ∧ RepCtx mem s.label c := by
  induction c generalizing s with
  | nil => exact ⟨fun h => ⟨h, trivial⟩, fun h => h.1⟩
  | cons f c ih =>
    rw [fill, ih, f.label_link, RepCtx]
    unfold Frame.link frameNode
    cases f.right <;> simp only [Rep] <;> tauto

theorem repCtx_append : RepCtx mem child (inner ++ outer) ↔
    RepCtx mem child inner ∧ RepCtx mem (top child inner) outer := by
  induction inner generalizing child with
  | nil => simp [RepCtx, top]
  | cons f inner ih =>
    rw [List.cons_append, RepCtx, RepCtx, ih, top]
    tauto

theorem Rep.congr (h : Rep mem s) (hmem : ∀ a ∈ s.branches, mem' a = mem a) : Rep mem' s := by
  induction s with
  | leaf a => trivial
  | branch a bit l r ihl ihr =>
    obtain ⟨ha, hl, hr⟩ := h
    refine ⟨(hmem a List.mem_cons_self).trans ha, ihl hl fun x hx => hmem x ?_,
      ihr hr fun x hx => hmem x ?_⟩
    · exact List.mem_cons_of_mem a (List.mem_append_left _ hx)
    · exact List.mem_cons_of_mem a (List.mem_append_right _ hx)

theorem RepCtx.congr (h : RepCtx mem child c) (hmem : ∀ a ∈ ctxBranches c, mem' a = mem a) :
    RepCtx mem' child c := by
  induction c generalizing child with
  | nil => trivial
  | cons f c ih =>
    obtain ⟨hf, hsib, hrest⟩ := h
    rw [ctxBranches_cons] at hmem
    refine ⟨(hmem _ List.mem_cons_self).trans hf, hsib.congr fun x hx => hmem x ?_,
      ih hrest fun x hx => hmem x ?_⟩
    · exact List.mem_cons_of_mem _ (List.mem_append_left _ hx)
    · exact List.mem_cons_of_mem _ (List.mem_append_right _ hx)

theorem RepCtx.repoint {f : Frame Addr} {child' : Addr} (h : RepCtx mem child (f :: c))
    (hf : mem' f.label = frameNode f child')
    (hmem : ∀ a ∈ f.sibling.branches ++ ctxBranches c, mem' a = mem a) :
    RepCtx mem' child' (f :: c) :=
  ⟨hf, h.2.1.congr fun x hx => hmem x (List.mem_append_left _ hx),
    h.2.2.congr fun x hx => hmem x (List.mem_append_right _ hx)⟩

@[simp] theorem bitOffset_frameNode (f : Frame Addr) (child : Addr) :
    (frameNode f child).bitOffset = f.bit := by
  unfold frameNode
  cases f.right <;> rfl

theorem child_frameNode (f : Frame Addr) (child : Addr) :
    (if f.right then (frameNode f child).right else (frameNode f child).left) = some child := by
  unfold frameNode
  cases f.right <;> rfl

theorem points_frameNode {f : Frame Addr} {child a : Addr} :
    (frameNode f child).left = some a ∨ (frameNode f child).right = some a ↔
      a = child ∨ a = f.sibling.label := by
  unfold frameNode
  cases f.right <;> simp [eq_comm, or_comm]

variable [DecidableEq Addr]

theorem repointRight_frameNode {f : Frame Addr} {old : Addr} (hne : f.sibling.label ≠ old)
    (new : Addr) : repointRight (frameNode f old) old (some new) = frameNode f new := by
  unfold repointRight frameNode
  cases f.right <;> simp [hne]

theorem repointLeft_frameNode {f : Frame Addr} {old : Addr} (hne : f.sibling.label ≠ old)
    (new : Addr) : repointLeft (frameNode f old) old (some new) = frameNode f new := by
  unfold repointLeft frameNode
  cases f.right <;> simp [hne]

theorem other_frameNode {f : Frame Addr} {child : Addr} (hne : f.sibling.label ≠ child) :
    (if (frameNode f child).left = some child then (frameNode f child).right
      else (frameNode f child).left) = some f.sibling.label := by
  unfold frameNode
  cases f.right <;> simp [hne]

end Rep

/-! ## The invariant -/

section Shape

variable {Addr : Type} (A : GetkeyAdapter Addr)

/-- The bits of the keys of the objects. -/
def bits (a : Addr) (j : ℕ) : Bool := extBit (A.key a) j

/-- **The trie is a crit-bit tree**: all objects are leaves, and all but the one at the bottom are
branches too. -/
structure Shape (mem : Addr → Node Addr) (t : BitTree Addr) : Prop where
  ok : Ok (bits A) t
  rep : Rep mem t
  bottom : ∃ x, mem x = bottomNode x ∧ t.leaves.Perm (x :: t.branches)

variable {A} {mem : Addr → Node Addr} {t s : BitTree Addr} {c : List (Frame Addr)}

theorem Shape.nodup (h : Shape A mem t) : t.branches.Nodup := by
  obtain ⟨x, -, hperm⟩ := h.bottom
  exact (List.nodup_cons.mp (hperm.nodup_iff.mp (nodup_leaves h.ok))).2

theorem Shape.bottom_notMem (h : Shape A mem t) {x : Addr}
    (hperm : t.leaves.Perm (x :: t.branches)) : x ∉ t.branches :=
  (List.nodup_cons.mp (hperm.nodup_iff.mp (nodup_leaves h.ok))).1

theorem Shape.length_branches (h : Shape A mem t) : t.branches.length < t.leaves.length := by
  obtain ⟨x, -, hperm⟩ := h.bottom
  rw [hperm.length_eq]
  exact Nat.lt_succ_self _

theorem Shape.ctx (h : Shape A mem (fill s c)) : Ok (bits A) s ∧ OkCtx (bits A) c s.leaves :=
  ok_fill.mp h.ok

theorem Shape.repCtx (h : Shape A mem (fill s c)) : Rep mem s ∧ RepCtx mem s.label c :=
  rep_fill.mp h.rep

theorem Shape.nodup_ctx (h : Shape A mem (fill s c)) : (s.branches ++ ctxBranches c).Nodup :=
  (branches_fill s c).nodup_iff.mp h.nodup

theorem Shape.length_lt (h : Shape A mem (fill s c)) : c.length < (fill s c).leaves.length := by
  refine Nat.lt_of_le_of_lt ?_ h.length_branches
  rw [(branches_fill s c).length_eq, List.length_append]
  exact (length_le_ctxBranches c).trans (Nat.le_add_left _ _)

theorem Shape.mem_frame (h : Shape A mem (fill s c)) {f : Frame Addr} (hf : f ∈ c) :
    ∃ child, mem f.label = frameNode f child := by
  obtain ⟨inner, outer, rfl⟩ := List.append_of_mem hf
  exact ⟨_, (repCtx_append.mp h.repCtx.2).2.1⟩

theorem Shape.leaf_bit_le {x : Addr} {f : Frame Addr} (h : Shape A mem (fill (leaf x) (f :: c))) :
    (mem x).bitOffset ≤ f.bit := by
  obtain ⟨b, hb, hperm⟩ := h.bottom
  have hctx := h.ctx.2
  have hx : x ∈ (fill (leaf x) (f :: c)).leaves := by
    rw [leaves_fill, mem_around]
    exact .inr (.inl (List.mem_singleton.mpr rfl))
  rcases List.mem_cons.mp (hperm.mem_iff.mp hx) with rfl | hbranch
  · rw [hb]
    exact Nat.zero_le _
  · -- the branch is on the way to the leaf
    have hmem : x ∈ ctxBranches (f :: c) := by
      rcases List.mem_append.mp ((branches_fill _ _).mem_iff.mp hbranch) with hx | hx
      · cases hx
      · exact hx
    obtain ⟨g, hg, rfl⟩ := hctx.exists_frame (List.mem_singleton.mpr rfl) hmem
    obtain ⟨child, hchild⟩ := h.mem_frame hg
    rw [hchild, bitOffset_frameNode]
    rcases List.mem_cons.mp hg with rfl | hg
    · exact le_rfl
    · exact Nat.le_of_lt (hctx.bit_lt (List.cons_ne_nil _ _) hg)

/-- **The pointer to a subtree goes down** if and only if the subtree is a branch. -/
theorem Shape.isDown_iff {f : Frame Addr} (h : Shape A mem (fill s (f :: c))) :
    isDown mem f.label s.label = true ↔ ∃ a bit l r, s = branch a bit l r := by
  have hf : (mem f.label).bitOffset = f.bit := by
    rw [h.repCtx.2.1, bitOffset_frameNode]
  unfold isDown
  rw [decide_eq_true_iff, hf]
  cases s with
  | leaf x =>
    constructor
    · intro hlt
      exact absurd hlt (Nat.not_lt.mpr h.leaf_bit_le)
    · rintro ⟨a, bit, l, r, heq⟩
      cases heq
  | branch a bit l r =>
    refine ⟨fun _ => ⟨a, bit, l, r, rfl⟩, fun _ => ?_⟩
    rw [show (branch a bit l r).label = a from rfl, h.repCtx.1.1]
    exact h.ctx.2.bit_lt_branch h.ctx.1 List.mem_cons_self

theorem Shape.right_eq_left_iff (h : Shape A mem t) {a : Addr} (ha : a ∈ t.leaves) :
    (mem a).right = (mem a).left ↔ a ∉ t.branches := by
  obtain ⟨x, hx, hperm⟩ := h.bottom
  rcases List.mem_cons.mp (hperm.mem_iff.mp ha) with rfl | hbranch
  · exact ⟨fun _ => h.bottom_notMem hperm, fun _ => by rw [hx]; rfl⟩
  · refine ⟨fun heq => ?_, fun hno => absurd hbranch hno⟩
    have hne : ∀ {s : BitTree Addr}, Ok (bits A) s → Rep mem s → a ∈ s.branches →
        (mem a).right ≠ (mem a).left := by
      intro s hok hrep hmem
      induction s with
      | leaf b => cases hmem
      | branch b bit l r ihl ihr =>
        rcases List.mem_cons.mp hmem with rfl | hmem
        · rw [hrep.1]
          exact fun heq => label_ne hok (Option.some.inj heq).symm
        · rcases List.mem_append.mp hmem with hmem | hmem
          · exact ihl hok.2.1 hrep.2.1 hmem
          · exact ihr hok.2.2 hrep.2.2 hmem
    exact absurd heq (hne h.ok h.rep hbranch)

end Shape

/-! ## Searches -/

section Search

variable {Addr : Type} {A : GetkeyAdapter Addr} {mem : Addr → Node Addr} {bytes : List UInt8}
  {key : GetkeyData Addr} {fuel : ℕ}

theorem walk_full {σ : Type} {cont : Addr → Addr → Bool} {note : σ → Addr → Bool → σ} {a : Addr}
    {acc : σ} {r : GetkeyData Addr × Addr × Addr × σ}
    (h : walk A mem cont note fuel (initfullkeyGetkeydata bytes) a acc = some r) :
    r.1 = initfullkeyGetkeydata bytes := by
  induction fuel generalizing a acc with
  | zero => cases h
  | succ fuel ih =>
    rw [walk, getbit_full] at h
    simp only [Option.bind_eq_bind, Option.bind_some, Option.bind_eq_some_iff] at h
    obtain ⟨node, -, h⟩ := h
    by_cases hcont : cont a node = true
    · rw [if_pos hcont] at h
      exact ih h
    · rw [if_neg hcont] at h
      rw [← Option.some.inj h]

/-- **The loop of a search** follows a way that the bits of the key lead, up to the place where its
condition fails. -/
theorem walk_spec {σ : Type} (cont : Addr → Addr → Bool) (note : σ → Addr → Bool → σ)
    {c : List (Frame Addr)} {child : Addr} (hrep : RepCtx mem child c) (hne : c ≠ [])
    (hreads : Reads A bytes key) (hkey : ∀ f ∈ c, key.offset ≤ f.bit / 8)
    (hgrow : c.Pairwise fun f g => g.bit < f.bit) (hfollows : Follows (extBit bytes) c)
    (hcont : ∀ inner f outer, c = inner ++ f :: outer →
      (cont f.label (top child inner) = true ↔ inner ≠ []))
    (hfuel : c.length ≤ fuel) (acc : σ) :
    ∃ key', walk A mem cont note fuel key (top child c) acc =
        some (key', (c.head hne).label, child,
          c.foldr (fun f acc => note acc f.label f.right) acc) ∧
      Reads A bytes key' := by
  induction c using List.reverseRecOn generalizing fuel key acc with
  | nil => exact absurd rfl hne
  | append_singleton inner f ih =>
    cases fuel with
    | zero => simp at hfuel
    | succ fuel =>
      obtain ⟨hinner, hf, -⟩ := repCtx_append.mp hrep
      have htop : top child (inner ++ [f]) = f.label := by
        rw [top_append]
        rfl
      have hmem : f ∈ inner ++ [f] := List.mem_append_right _ (List.mem_singleton.mpr rfl)
      obtain ⟨key', hbit, hreads', hoffset⟩ := getbit_reads hreads (hkey f hmem)
      have hright : extBit bytes f.bit = f.right := (hfollows f hmem).symm
      have hcont' := hcont inner f [] rfl
      rw [htop, walk, hf, bitOffset_frameNode, hbit, hright]
      simp only [Option.bind_eq_bind, Option.bind_some, child_frameNode]
      by_cases hne' : inner = []
      · subst hne'
        rw [if_neg fun h => hcont'.mp h rfl]
        exact ⟨key', rfl, hreads'⟩
      · rw [if_pos (hcont'.mpr hne')]
        have hlt : ∀ g ∈ inner, f.bit < g.bit := fun g hg =>
          (List.pairwise_append.mp hgrow).2.2 g hg f (List.mem_singleton.mpr rfl)
        obtain ⟨key'', hwalk, hreads''⟩ := ih hinner hne' hreads'
          (fun g hg => hoffset.trans (Nat.div_le_div_right (Nat.le_of_lt (hlt g hg))))
          (List.pairwise_append.mp hgrow).1 (fun g hg => hfollows g (List.mem_append_left _ hg))
          (fun i g o hio => hcont i g (o ++ [f]) (by rw [hio]; simp))
          (by simp at hfuel; omega) (note acc f.label f.right)
        refine ⟨key'', ?_, hreads''⟩
        rw [hwalk, List.head_append_of_ne_nil hne', List.foldr_append]
        rfl

variable {t s : BitTree Addr} {c : List (Frame Addr)}

theorem Shape.isDown_way {x : Addr} (h : Shape A mem (fill (leaf x) c)) (inner : List (Frame Addr))
    (f : Frame Addr) (outer : List (Frame Addr)) (hc : c = inner ++ f :: outer) :
    isDown mem f.label (top x inner) = true ↔ inner ≠ [] := by
  subst hc
  rw [fill_append] at h
  rw [show top x inner = (fill (leaf x) inner).label from (label_fill (leaf x) inner).symm,
    h.isDown_iff]
  constructor
  · rintro ⟨a, bit, l, r, heq⟩ rfl
    cases heq
  · exact exists_branch_fill (leaf x)

theorem Shape.mem_leaf {x : Addr} (h : Shape A mem (leaf x)) : mem x = bottomNode x := by
  obtain ⟨b, hb, hperm⟩ := h.bottom
  rw [show b = x from List.mem_singleton.mp (hperm.mem_iff.mpr List.mem_cons_self)] at hb
  exact hb

/-- The parent of the leaf at the end of a way. -/
def parentOf (x : Addr) : List (Frame Addr) → Addr
  | [] => x
  | f :: _ => f.label

/-- What a search for an object has noted at the end of the way. -/
def noted {σ : Type} (note : σ → Addr → Bool → σ) (bit : Bool) (x : Addr) (acc : σ) :
    List (Frame Addr) → σ
  | [] => note acc x bit
  | f :: c => (f :: c).foldr (fun f acc => note acc f.label f.right) acc

theorem Shape.walk_eq {σ : Type} {x : Addr} (h : Shape A mem (fill (leaf x) c))
    (note : σ → Addr → Bool → σ) (hfollows : Follows (extBit bytes) c)
    (hreads : Reads A bytes key) (hkey : key.offset = 0)
    (hfuel : (fill (leaf x) c).leaves.length ≤ fuel) (acc : σ) :
    ∃ key', walk A mem (isDown mem) note fuel key (fill (leaf x) c).label acc =
        some (key', parentOf x c, x, noted note (extBit bytes 0) x acc c) ∧
      Reads A bytes key' := by
  cases c with
  | nil =>
    -- the only node points to itself
    have hmem : mem x = bottomNode x := Shape.mem_leaf h
    obtain ⟨fuel, rfl⟩ : ∃ n, fuel = n + 1 := ⟨fuel - 1, by simp [fill, leaves] at hfuel; omega⟩
    obtain ⟨key', hbit, hreads', -⟩ := getbit_reads (j := 0) hreads (by rw [hkey])
    refine ⟨key', ?_, hreads'⟩
    have hstop : isDown mem x x = false := by simp [isDown]
    change walk A mem (isDown mem) note (fuel + 1) key x acc = _
    rw [walk, hmem, bottomNode]
    simp only [hbit, Option.bind_eq_bind, Option.bind_some, ite_self, hstop]
    rfl
  | cons f c =>
    rw [label_fill]
    exact walk_spec _ _ h.repCtx.2 (List.cons_ne_nil f c) hreads
      (fun f _ => by rw [hkey]; exact Nat.zero_le _)
      (h.ctx.2.pairwise (leaves_ne_nil _)) hfollows h.isDown_way
      ((Nat.le_of_lt h.length_lt).trans hfuel) acc

/-- **The search for a key** ends at a leaf to which its bits lead. -/
theorem Shape.findnode_eq (h : Shape A mem t) (hreads : Reads A bytes key) (hkey : key.offset = 0)
    (hfuel : t.leaves.length ≤ fuel) :
    ∃ key' x c, findnode A mem fuel key t.label = some (key', parentOf x c, x) ∧
      t = fill (leaf x) c ∧ Follows (extBit bytes) c ∧ Reads A bytes key' := by
  obtain ⟨x, c, rfl, hfollows⟩ := exists_leaf_way (extBit bytes) t
  obtain ⟨key', hwalk, hreads'⟩ :=
    h.walk_eq (fun _ _ _ => ()) hfollows hreads hkey hfuel ()
  refine ⟨key', x, c, ?_, rfl, hfollows, hreads'⟩
  rw [findnode, search, hwalk]
  rfl

theorem search_full {cont : Addr → Addr → Bool} {a : Addr} {r : GetkeyData Addr × Addr × Addr}
    (h : search A mem cont fuel (initfullkeyGetkeydata bytes) a = some r) :
    r.1 = initfullkeyGetkeydata bytes := by
  rw [search, Option.map_eq_some_iff] at h
  obtain ⟨r', hr', rfl⟩ := h
  exact walk_full hr'

theorem Shape.eq_of_key {x z : Addr} (h : Shape A mem (fill (leaf x) c))
    (hfollows : Follows (extBit bytes) c) (hz : z ∈ (fill (leaf x) c).leaves)
    (hkey : A.key z = bytes) : z = x := by
  refine List.mem_singleton.mp (mem_of_follows h.ctx.2 hz ?_)
  intro f hf
  rw [hfollows f hf, bits, hkey]

theorem searchPosition_spec {child : Addr} {d : ℕ} (hrep : RepCtx mem child c)
    (hreads : Reads A bytes key) (hkey : ∀ f ∈ c, key.offset ≤ f.bit / 8)
    (hgrow : c.Pairwise fun f g => g.bit < f.bit) (hfollows : Follows (extBit bytes) c)
    (hbit : ∀ f ∈ c, f.bit < d) (hchild : d ≤ (mem child).bitOffset) (hfuel : c.length < fuel)
    (parent : Option Addr) :
    searchPosition A mem d fuel key parent (top child c) =
      some ((c.head?.map Frame.label).or parent, child) := by
  induction c using List.reverseRecOn generalizing fuel key parent with
  | nil =>
    obtain ⟨fuel, rfl⟩ : ∃ n, fuel = n + 1 := ⟨fuel - 1, by simp at hfuel; omega⟩
    rw [searchPosition, top, if_neg (Nat.not_lt.mpr hchild)]
    rfl
  | append_singleton inner f ih =>
    obtain ⟨fuel, rfl⟩ : ∃ n, fuel = n + 1 := ⟨fuel - 1, by simp at hfuel; omega⟩
    obtain ⟨hinner, hf, -⟩ := repCtx_append.mp hrep
    have htop : top child (inner ++ [f]) = f.label := by
      rw [top_append]
      rfl
    have hmem : f ∈ inner ++ [f] := List.mem_append_right _ (List.mem_singleton.mpr rfl)
    obtain ⟨key', hgetbit, hreads', hoffset⟩ := getbit_reads hreads (hkey f hmem)
    rw [htop, searchPosition, hf, bitOffset_frameNode, if_pos (hbit f hmem), hgetbit,
      ← hfollows f hmem]
    simp only [Option.bind_eq_bind, Option.bind_some, child_frameNode]
    have hlt : ∀ g ∈ inner, f.bit < g.bit := fun g hg =>
      (List.pairwise_append.mp hgrow).2.2 g hg f (List.mem_singleton.mpr rfl)
    rw [ih hinner hreads'
      (fun g hg => hoffset.trans (Nat.div_le_div_right (Nat.le_of_lt (hlt g hg))))
      (List.pairwise_append.mp hgrow).1 (fun g hg => hfollows g (List.mem_append_left _ hg))
      (fun g hg => hbit g (List.mem_append_left _ hg)) (by simp at hfuel; omega)]
    cases inner <;> rfl

end Search

end Patricia
end CKern
