import CKern.Ds.Inmem.SplaytreeIter

/-!
# `ds/inmem/splaytree.c`: the removal of all nodes

`removenodes_splaytree` takes the tree apart without a stack: on the way down, the field `left` of a
node holds its parent.

* `removenodesStep`, `removenodesSplaytree`: the loop, on the links in memory.  A node that was
  deleted has no links, and the loop is stuck if it reads them.
* `Rep`, `Chain`: the links of a subtree, and those of the nodes above it.
* `removenodesStep_spec`: a step goes down, or it visits the leftmost node of what is left.
* `removenodesSplaytree_spec`: the loop visits the nodes from left to right.
* `iterates_and_removes`: the iterators and the removal, on every tree that the operations build.
-/

namespace CKern
namespace Splaytree

open BinaryTree Refinement SearchTree Iteration

variable {κ ν : Type*}

/-! ## The loop -/

/-- The fields `left` and `right` of a `splaytree_node_t`. -/
structure Links (ν : Type*) where
  left : Option ν
  right : Option ν
  deriving DecidableEq, Repr

/-- The links of the nodes in memory. A node that was deleted has none. -/
abbrev Heap (ν : Type*) := ν → Option (Links ν)

/-- The delete service of the object type: its error code, which may depend on the objects that it
was called with before. -/
abbrev Delete (ν : Type*) := List ν → ν → ℕ

/-- The nodes that were visited, those that the delete service was called with, and `err`. -/
structure Log (ν : Type*) where
  visited : List ν
  deleted : List ν
  err : ℕ
  deriving DecidableEq, Repr

/-- The end of an iteration: the object of `delnode` is deleted if the type has that service. -/
def Log.visit (delete : Option (Delete ν)) (log : Log ν) (delnode : ν) : Log ν :=
  match delete with
  | none => { log with visited := log.visited ++ [delnode] }
  | some calldelete =>
    let err2 := calldelete log.deleted delnode
    { visited := log.visited ++ [delnode]
      deleted := log.deleted ++ [delnode]
      err := if err2 ≠ 0 then err2 else log.err }

/-- The variables of `removenodes_splaytree`. -/
structure Removal (ν : Type*) where
  heap : Heap ν
  parent : Option ν
  node : Option ν
  log : Log ν

section Loop

variable [DecidableEq ν] (delete : Option (Delete ν))

/-- The object of `delnode` is deleted, whatever error the service reports. -/
def Removal.visit (s : Removal ν) (delnode : ν) : Removal ν :=
  { s with
    heap := if delete.isSome then Function.update s.heap delnode none else s.heap
    log := s.log.visit delete delnode }

/-- A step of the loops of `removenodes_splaytree` at the node `n`: the inner one goes to the left,
and the outer one visits a node without left child. -/
def removenodesStep (s : Removal ν) (n : ν) : Option (Removal ν) :=
  match s.heap n with
  | none => none
  | some links =>
    match links.left with
    | some nodeleft =>
      some { s with
        heap := Function.update s.heap n (some { links with left := s.parent })
        parent := some n
        node := some nodeleft }
    | none =>
      match links.right with
      | some right =>
        let heap := Function.update s.heap n (some { links with right := none })
        some (Removal.visit delete { s with heap, node := some right } n)
      | none =>
        match s.parent with
        | none => some (Removal.visit delete { s with node := none } n)
        | some up =>
          match s.heap up with
          | none => none
          | some uplinks =>
            let heap := Function.update s.heap up (some { uplinks with left := none })
            some (Removal.visit delete
              { s with heap, parent := uplinks.left, node := some up } n)

/-- The loops of `removenodes_splaytree`. -/
def removenodesLoop : ℕ → Removal ν → Option (Removal ν)
  | 0, _ => none
  | fuel + 1, s =>
    match s.node with
    | none => some s
    | some n => (removenodesStep delete s n).bind (removenodesLoop fuel)

/-- `removenodes_splaytree`, where `root` points to the root of the tree. The pointer to the root is
null afterwards. -/
def removenodesSplaytree (fuel : ℕ) (heap : Heap ν) (root : Option ν) : Option (Removal ν) :=
  removenodesLoop delete fuel ⟨heap, none, root, ⟨[], [], 0⟩⟩

end Loop

/-! ## What is left to do -/

/-- The pointer and the links in memory are those of the tree. -/
def Rep (heap : Heap ν) : BinaryTree ν → Option ν → Prop
  | nil, p => p = none
  | node n l r, p =>
    p = some n ∧ ∃ left right, heap n = some ⟨left, right⟩ ∧ Rep heap l left ∧ Rep heap r right

/-- The pointer leads to a chain of nodes that have been passed on the way down, the last one first.
Each of them stands with its right subtree, and its field `left` points to the next one. -/
def Chain (heap : Heap ν) : List (ν × BinaryTree ν) → Option ν → Prop
  | [], p => p = none
  | up :: stack, p =>
    p = some up.1 ∧ ∃ left right, heap up.1 = some ⟨left, right⟩ ∧
      Chain heap stack left ∧ Rep heap up.2 right

/-- The nodes that are still there, from left to right. -/
def remaining (t : BinaryTree ν) (stack : List (ν × BinaryTree ν)) : List ν :=
  toList t ++ stack.flatMap fun up => up.1 :: toList up.2

/-- The steps that a subtree takes: one for each node, and one for each step down. -/
def steps : BinaryTree ν → ℕ
  | nil => 0
  | node _ l r => (if isSet l then steps l + 1 else 0) + 1 + steps r

/-- The steps that are left. -/
def remainingSteps (t : BinaryTree ν) (stack : List (ν × BinaryTree ν)) : ℕ :=
  steps t + (stack.map fun up => 1 + steps up.2).sum

@[simp] theorem remaining_nil : remaining (nil : BinaryTree ν) [] = [] := rfl

theorem remaining_down (a : ν) (l r : BinaryTree ν) (stack : List (ν × BinaryTree ν)) :
    remaining l ((a, r) :: stack) = remaining (node a l r) stack := by
  simp [remaining]

theorem remaining_right (a : ν) (r : BinaryTree ν) (stack : List (ν × BinaryTree ν)) :
    a :: remaining r stack = remaining (node a nil r) stack := by
  simp [remaining]

theorem remaining_up (a up : ν) (r : BinaryTree ν) (stack : List (ν × BinaryTree ν)) :
    a :: remaining (node up nil r) stack = remaining (node a nil nil) ((up, r) :: stack) := by
  simp [remaining]

theorem mem_remaining {n : ν} {t : BinaryTree ν} {stack : List (ν × BinaryTree ν)} :
    n ∈ remaining t stack ↔ n ∈ toList t ∨ ∃ up ∈ stack, n = up.1 ∨ n ∈ toList up.2 := by
  simp [remaining]

theorem Rep.congr {heap heap' : Heap ν} {t : BinaryTree ν} {p : Option ν} (h : Rep heap t p)
    (hsame : ∀ n ∈ toList t, heap' n = heap n) : Rep heap' t p := by
  induction t generalizing p with
  | nil => exact h
  | node n l r ihl ihr =>
    obtain ⟨hp, left, right, hn, hl, hr⟩ := h
    refine ⟨hp, left, right, ?_, ihl hl fun m hm => ?_, ihr hr fun m hm => ?_⟩
    · rw [hsame n (by simp), hn]
    · exact hsame m (by simp [hm])
    · exact hsame m (by simp [hm])

theorem Chain.congr {heap heap' : Heap ν} {stack : List (ν × BinaryTree ν)} {p : Option ν}
    (h : Chain heap stack p)
    (hsame : ∀ n, (∃ up ∈ stack, n = up.1 ∨ n ∈ toList up.2) → heap' n = heap n) :
    Chain heap' stack p := by
  induction stack generalizing p with
  | nil => exact h
  | cons up stack ih =>
    obtain ⟨hp, left, right, hn, hstack, hr⟩ := h
    refine ⟨hp, left, right, ?_, ih hstack fun n hup => ?_, hr.congr fun n hup => ?_⟩
    · rw [hsame up.1 ⟨up, List.mem_cons_self, Or.inl rfl⟩, hn]
    · obtain ⟨up', hmem, h⟩ := hup
      exact hsame n ⟨up', List.mem_cons_of_mem _ hmem, h⟩
    · exact hsame n ⟨up, List.mem_cons_self, Or.inr hup⟩

theorem notMem_of_nodup {a : ν} {l r : BinaryTree ν} {stack : List (ν × BinaryTree ν)}
    (h : (remaining (node a l r) stack).Nodup) :
    a ∉ toList l ∧ a ∉ toList r ∧ ∀ up ∈ stack, a ≠ up.1 ∧ a ∉ toList up.2 := by
  rw [← remaining_down, remaining] at h
  have hnot : a ∉ toList l ++ (toList r ++ stack.flatMap fun up => up.1 :: toList up.2) :=
    (List.nodup_cons.mp (List.nodup_middle.mp h)).1
  simp only [List.mem_append, List.mem_flatMap, List.mem_cons, not_or, not_exists, not_and] at hnot
  exact ⟨hnot.1, hnot.2.1, hnot.2.2⟩

/-- The subtree `t` and the chain of its parents are still to be removed. -/
structure Pending (s : Removal ν) (t : BinaryTree ν) (stack : List (ν × BinaryTree ν)) : Prop where
  rep : Rep s.heap t s.node
  chain : Chain s.heap stack s.parent
  nodup : (remaining t stack).Nodup
  ended : t = nil → stack = []

/-! ## A step -/

section Step

variable [DecidableEq ν] {delete : Option (Delete ν)} {s : Removal ν}

theorem Rep.update {heap : Heap ν} {t : BinaryTree ν} {p : Option ν} (h : Rep heap t p) {a : ν}
    (ha : a ∉ toList t) (x : Option (Links ν)) : Rep (Function.update heap a x) t p :=
  h.congr fun _ hn => Function.update_of_ne (ne_of_mem_of_not_mem hn ha) _ _

theorem Chain.update {heap : Heap ν} {stack : List (ν × BinaryTree ν)} {p : Option ν}
    (h : Chain heap stack p) {a : ν} (ha : ∀ up ∈ stack, a ≠ up.1 ∧ a ∉ toList up.2)
    (x : Option (Links ν)) : Chain (Function.update heap a x) stack p := by
  refine h.congr fun n hn => Function.update_of_ne ?_ _ _
  rintro rfl
  obtain ⟨up, hup, rfl | hmem⟩ := hn
  · exact (ha up hup).1 rfl
  · exact (ha up hup).2 hmem

/-- The links of a node that was visited. -/
def visitedLinks (delete : Option (Delete ν)) : Option (Links ν) :=
  if delete.isSome then none else some ⟨none, none⟩

variable (delete) in
theorem Removal.heap_visit {a : ν} (h : s.heap a = some ⟨none, none⟩) :
    (s.visit delete a).heap = Function.update s.heap a (visitedLinks delete) := by
  unfold Removal.visit visitedLinks
  dsimp only
  split
  · rfl
  · rw [← h, Function.update_eq_self]

/-- What a step does to a state in which `remaining` nodes are left: it goes down, or it visits the
first of them. -/
structure Stepped (delete : Option (Delete ν)) (s s' : Removal ν) (a : ν) (before after : List ν) :
    Prop where
  kept : ∀ n ∉ before, s'.heap n = s.heap n
  cases : (after = before ∧ s'.log = s.log) ∨
    (a :: after = before ∧ s'.log = s.log.visit delete a ∧ s'.heap a = visitedLinks delete)

variable (delete) in
theorem Removal.visit_spec (s s' : Removal ν) {a : ν} {t : BinaryTree ν}
    {stack : List (ν × BinaryTree ν)} {before : List ν}
    (hbefore : a :: remaining t stack = before) (hnodup : before.Nodup) (hlog : s'.log = s.log)
    (ha : s'.heap a = some ⟨none, none⟩) (hkept : ∀ n ∉ before, s'.heap n = s.heap n)
    (hrep : Rep s'.heap t s'.node) (hchain : Chain s'.heap stack s'.parent)
    (hended : t = nil → stack = []) :
    Pending (s'.visit delete a) t stack ∧
      Stepped delete s (s'.visit delete a) a before (remaining t stack) := by
  subst hbefore
  obtain ⟨hnot, hnodup'⟩ := List.nodup_cons.mp hnodup
  have hheap := Removal.heap_visit delete ha
  refine ⟨⟨?_, ?_, hnodup', hended⟩, fun n hn => ?_, Or.inr ⟨rfl, ?_, ?_⟩⟩
  · rw [hheap]
    exact hrep.update (fun hmem => hnot (mem_remaining.mpr (Or.inl hmem))) _
  · rw [hheap]
    refine hchain.update (fun up hup => ⟨?_, fun hmem => ?_⟩) _
    · rintro rfl
      exact hnot (mem_remaining.mpr (Or.inr ⟨up, hup, Or.inl rfl⟩))
    · exact hnot (mem_remaining.mpr (Or.inr ⟨up, hup, Or.inr hmem⟩))
  · rw [hheap, Function.update_of_ne (List.ne_of_not_mem_cons hn), hkept n hn]
  · rw [← hlog]
    rfl
  · rw [hheap, Function.update_self]

variable (delete) in
/-- **A step** goes down to the left, or it visits the first of the nodes that are left. -/
theorem removenodesStep_spec {a : ν} {l r : BinaryTree ν} {stack : List (ν × BinaryTree ν)}
    (h : Pending s (node a l r) stack) :
    ∃ s' t' stack', removenodesStep delete s a = some s' ∧ Pending s' t' stack' ∧
      remainingSteps (node a l r) stack = remainingSteps t' stack' + 1 ∧
      Stepped delete s s' a (remaining (node a l r) stack) (remaining t' stack') := by
  obtain ⟨⟨hnode, left, right, ha, hl, hr⟩, hchain, hnodup, -⟩ := h
  obtain ⟨hal, har, hastack⟩ := notMem_of_nodup hnodup
  have hmem : a ∈ remaining (node a l r) stack := mem_remaining.mpr (Or.inl (by simp))
  have hkept : ∀ x, ∀ n ∉ remaining (node a l r) stack,
      Function.update s.heap a x n = s.heap n := fun x n hn =>
    Function.update_of_ne (ne_of_mem_of_not_mem hmem hn).symm _ _
  unfold removenodesStep
  rw [ha]
  dsimp only
  cases l with
  | node b ll lr =>
    obtain rfl : left = some b := hl.1
    refine ⟨_, node b ll lr, (a, r) :: stack, rfl, ⟨?_, ?_, ?_, ?_⟩, ?_, hkept _,
      Or.inl ⟨?_, rfl⟩⟩
    · exact hl.update hal _
    · exact ⟨rfl, s.parent, right, Function.update_self _ _ _, hchain.update hastack _,
        hr.update har _⟩
    · rwa [remaining_down]
    · exact fun h => absurd h (by simp)
    · simp [remainingSteps, steps, isSet]
      omega
    · exact remaining_down a _ r stack
  | nil =>
    obtain rfl : left = none := hl
    dsimp only
    cases r with
    | node b rl rr =>
      obtain rfl : right = some b := hr.1
      obtain ⟨hpending, hstepped⟩ := Removal.visit_spec delete s
        { s with heap := Function.update s.heap a (some ⟨none, none⟩), node := some b }
        (remaining_right a (node b rl rr) stack) hnodup rfl (Function.update_self _ _ _) (hkept _)
        (hr.update har _) (hchain.update hastack _) (fun h => absurd h (by simp))
      refine ⟨_, _, _, rfl, hpending, ?_, hstepped⟩
      simp [remainingSteps, steps, isSet]
      omega
    | nil =>
      obtain rfl : right = none := hr
      dsimp only
      cases stack with
      | nil =>
        have hparent : s.parent = none := hchain
        obtain ⟨hpending, hstepped⟩ := Removal.visit_spec delete s
          { s with parent := none, node := none } (remaining_right a nil []) hnodup rfl ha
          (fun n _ => rfl) rfl rfl (fun _ => rfl)
        rw [hparent]
        exact ⟨_, _, _, rfl, hpending, rfl, hstepped⟩
      | cons up stack =>
        obtain ⟨up, rt⟩ := up
        obtain ⟨hparent, grand, right, hup, hstack, hright⟩ := hchain
        rw [hparent]
        dsimp only at hup hright ⊢
        rw [hup]
        dsimp only
        have hbefore := remaining_up a up rt stack
        have hrest : (remaining (node up nil rt) stack).Nodup :=
          (List.nodup_cons.mp (hbefore ▸ hnodup)).2
        obtain ⟨-, hupr, hupstack⟩ := notMem_of_nodup hrest
        have hne : a ≠ up := (hastack (up, rt) List.mem_cons_self).1
        have hmem' : up ∈ remaining (node a nil nil) ((up, rt) :: stack) :=
          mem_remaining.mpr (Or.inr ⟨(up, rt), List.mem_cons_self, Or.inl rfl⟩)
        obtain ⟨hpending, hstepped⟩ := Removal.visit_spec delete s
          { s with
            heap := Function.update s.heap up (some ⟨none, right⟩)
            parent := grand
            node := some up }
          hbefore hnodup rfl ((Function.update_of_ne hne _ _).trans ha)
          (fun n hn => Function.update_of_ne (ne_of_mem_of_not_mem hmem' hn).symm _ _)
          ⟨rfl, none, right, Function.update_self _ _ _, rfl, hright.update hupr _⟩
          (hstack.update hupstack _) (fun h => absurd h (by simp))
        refine ⟨_, _, _, rfl, hpending, ?_, hstepped⟩
        simp only [remainingSteps, steps, isSet, List.map_cons, List.sum_cons]
        simp
        omega

end Step

/-! ## The run -/

section Run

variable [DecidableEq ν] {delete : Option (Delete ν)}

variable (delete) in
/-- **The run** of the loop: the nodes that are left are visited in their order. -/
theorem removenodesLoop_spec {s : Removal ν} {t : BinaryTree ν} {stack : List (ν × BinaryTree ν)}
    (h : Pending s t stack) {fuel : ℕ} (hfuel : remainingSteps t stack < fuel) :
    ∃ s', removenodesLoop delete fuel s = some s' ∧
      s'.log = (remaining t stack).foldl (Log.visit delete) s.log ∧
      (∀ n ∈ remaining t stack, s'.heap n = visitedLinks delete) ∧
      ∀ n ∉ remaining t stack, s'.heap n = s.heap n := by
  induction fuel generalizing s t stack with
  | zero => omega
  | succ fuel ih =>
    cases t with
    | nil =>
      obtain rfl := h.ended rfl
      have hnode : s.node = none := h.rep
      refine ⟨s, ?_, rfl, by simp, fun _ _ => rfl⟩
      rw [removenodesLoop, hnode]
    | node a l r =>
      have hnode : s.node = some a := h.rep.1
      obtain ⟨s₁, t', stack', hstep, hpending, hsteps, hkept, hcases⟩ :=
        removenodesStep_spec delete h
      obtain ⟨s', hloop, hlog, hvisited, hkept'⟩ := ih hpending (by omega)
      refine ⟨s', ?_, ?_⟩
      · rw [removenodesLoop, hnode]
        dsimp only
        rw [hstep, Option.bind_some, hloop]
      · rcases hcases with ⟨hsame, hlog₁⟩ | ⟨hbefore, hlog₁, ha⟩
        · rw [hsame] at hlog hvisited hkept'
          refine ⟨by rw [hlog, hlog₁], hvisited, fun n hn => ?_⟩
          rw [hkept' n hn, hkept n hn]
        · have hnot : a ∉ remaining t' stack' := (List.nodup_cons.mp (hbefore ▸ h.nodup)).1
          rw [← hbefore] at hkept ⊢
          refine ⟨by rw [hlog, hlog₁, List.foldl_cons], fun n hn => ?_, fun n hn => ?_⟩
          · rcases List.mem_cons.mp hn with rfl | hn
            · rw [hkept' n hnot, ha]
            · exact hvisited n hn
          · rw [hkept' n (List.not_mem_of_not_mem_cons hn), hkept n hn]

variable (delete) in
omit [DecidableEq ν] in
theorem foldl_visit (l : List ν) (log : Log ν) :
    (l.foldl (Log.visit delete) log).visited = log.visited ++ l ∧
      (l.foldl (Log.visit delete) log).deleted =
        log.deleted ++ if delete.isSome then l else [] := by
  induction l generalizing log with
  | nil => simp
  | cons n l ih =>
    obtain ⟨hvisited, hdeleted⟩ := ih (log.visit delete n)
    rw [List.foldl_cons, hvisited, hdeleted]
    cases delete with
    | none => simp [Log.visit]
    | some calldelete => simp [Log.visit]

/-- **The removal of all nodes** of a tree in memory. -/
theorem removenodesSplaytree_spec {heap : Heap ν} {t : BinaryTree ν} {root : Option ν}
    (h : Rep heap t root) (hnodup : (toList t).Nodup) {fuel : ℕ} (hfuel : steps t < fuel) :
    ∃ s, removenodesSplaytree delete fuel heap root = some s ∧
      s.log.visited = toList t ∧ s.log.deleted = (if delete.isSome then toList t else []) ∧
      (∀ n ∈ toList t, s.heap n = if delete.isSome then none else some ⟨none, none⟩) ∧
      ∀ n ∉ toList t, s.heap n = heap n := by
  have hremaining : remaining t [] = toList t := by simp [remaining]
  have hpending : Pending ⟨heap, none, root, ⟨[], [], 0⟩⟩ t [] :=
    ⟨h, rfl, by rwa [hremaining], fun _ => rfl⟩
  obtain ⟨s, hloop, hlog, hvisited, hkept⟩ :=
    removenodesLoop_spec delete hpending (by simpa [remainingSteps] using hfuel)
  rw [hremaining] at hlog hvisited hkept
  obtain ⟨hlogged, hdeleted⟩ := foldl_visit delete (toList t) ⟨[], [], 0⟩
  exact ⟨s, hloop, by rw [hlog, hlogged]; rfl, by rw [hlog, hdeleted]; rfl, hvisited, hkept⟩

/-- **Every tree is iterated, and taken apart, in its order.** In a tree that was built by any
calls, the nodes from left to right grow. The iterators return them in this order and in the
reversed one, whatever searches and removals of the returned nodes come between the steps. The
removal of all nodes visits each of them once, in this order, and deletes it then, whatever errors
are reported; it is not stuck, so that it never reads a node that was deleted. -/
theorem iterates_and_removes {typeadp : Typeadapt κ ν} (h : Lawful typeadp) (ops : List (Op κ ν)) :
    let tree := (run (step typeadp) ⟨nil⟩ ops).2
    (toList tree.root).Pairwise (fun m n => typeadp.cmpObject m n = .lt) ∧
      (toList tree.root).Nodup ∧
      Returns (nextCall typeadp) (Caller typeadp) (initfirstSplaytreeiterator tree, tree)
        (toList tree.root) ∧
      Returns (prevCall typeadp) (Caller typeadp) (initlastSplaytreeiterator tree, tree)
        (toList tree.root).reverse ∧
      ∀ (delete : Option (Delete ν)) (heap : Heap ν) (root : Option ν), Rep heap tree.root root →
        ∀ fuel > steps tree.root, ∃ s, removenodesSplaytree delete fuel heap root = some s ∧
          s.log.visited = toList tree.root ∧
          s.log.deleted = (if delete.isSome then toList tree.root else []) ∧
          (∀ n ∈ toList tree.root,
            s.heap n = if delete.isSome then none else some ⟨none, none⟩) ∧
          ∀ n ∉ toList tree.root, s.heap n = heap n := by
  have hord := (@run_spec _ _ _ _ h ⟨nil⟩ List.Pairwise.nil ops).1
  have hnodup := nodup_of_ordered h hord
  exact ⟨hord, hnodup, next_returns h hord, prev_returns h hord,
    fun _ _ _ hrep _ hfuel => removenodesSplaytree_spec hrep hnodup hfuel⟩

/-- Three nodes in memory. -/
def threeNodes : Heap ℕ
  | 2 => some ⟨none, none⟩
  | 5 => some ⟨some 2, none⟩
  | 7 => some ⟨some 5, none⟩
  | _ => none

/-- Three numbers are removed, although the deletion fails each time. -/
theorem iterates_and_removes_three :
    ∃ s, removenodesSplaytree (some fun _ n => n) 6 threeNodes (some 7) = some s ∧
      s.log.visited = [2, 5, 7] ∧ s.log.deleted = [2, 5, 7] := by
  have hlawful : Lawful (⟨compare, compare⟩ : Typeadapt ℕ ℕ) :=
    ⟨inferInstanceAs (Std.TransCmp (compare : ℕ → ℕ → Ordering)), fun key => cut_cmp key⟩
  have htree : (run (step ⟨compare, (compare : ℕ → ℕ → Ordering)⟩) ⟨nil⟩
      [.insert 5, .insert 2, .insert 7]).2 = ⟨node 7 (node 5 (node 2 nil nil) nil) nil⟩ := by
    decide
  obtain ⟨-, -, -, -, hremove⟩ :=
    iterates_and_removes hlawful [.insert 5, .insert 2, .insert 7]
  rw [htree] at hremove
  obtain ⟨s, hs, hvisited, hdeleted, -⟩ := hremove (some fun _ n => n) threeNodes (some 7)
    ⟨rfl, some 5, none, rfl, ⟨rfl, some 2, none, rfl, ⟨rfl, none, none, rfl, rfl, rfl⟩, rfl⟩, rfl⟩
    6 (by decide)
  exact ⟨s, hs, hvisited, hdeleted⟩

end Run

end Splaytree
end CKern
