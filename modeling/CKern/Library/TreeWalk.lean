import Mathlib.Data.List.FinRange
import Mathlib.Data.List.Basic
import Mathlib.Tactic.Linarith
import CKern.Library.Iteration

/-!
# A walk over a forest with a stack of positions

The trees are branches with a fixed number of children, nodes, and empty ones.  The walk goes
through an array of trees.  A position is a branch with the index of the child that is next.  It is
popped off the stack before its last child is visited, so that the stack holds only branches that
are not exhausted.

* `Trees`: what the walk needs to know of a tree.
* `Position`, `Walk`: the state of the walk.
* `Walk.next`: the walk to the next node.
* `Walk.todo`: the trees that are still to be visited.
* `yields_leaves`: the walk returns every leaf once, from left to right.
-/

namespace CKern
namespace TreeWalk

open Iteration

/-! ## Trees -/

/-- What is at the top of a tree. -/
inductive View (T ν : Type*) (n : ℕ)
  | empty
  | node (a : ν)
  | branch (child : Fin n → T)

/-- The trees of a type: what is at the top, the nodes from left to right, and a bound for the
number of the branches on a way down. -/
structure Trees (T ν : Type*) (n : ℕ) where
  view : T → View T ν n
  leaves : T → List ν
  size : T → ℕ
  depth : T → ℕ
  leaves_empty : ∀ t, view t = .empty → leaves t = []
  leaves_node : ∀ t a, view t = .node a → leaves t = [a]
  leaves_branch : ∀ t child, view t = .branch child → leaves t = (List.ofFn child).flatMap leaves
  size_branch : ∀ t child, view t = .branch child →
    ((List.ofFn child).map fun c => size c + 1).sum ≤ size t
  depth_branch : ∀ t child, view t = .branch child → ∀ i, depth (child i) < depth t

variable {T ν : Type*} {n : ℕ}

/-- A branch, and the index of the child that is visited next. -/
structure Position (T : Type*) (n : ℕ) where
  child : Fin n → T
  ci : Fin n

/-- The children that are still to be visited. -/
def Position.rest (pos : Position T n) : List T := (List.ofFn pos.child).drop pos.ci

/-- The position after a child has been read: it is popped if this was the last one. -/
def Position.advance (pos : Position T n) (stack : List (Position T n)) : List (Position T n) :=
  if h : pos.ci + 1 < n then ⟨pos.child, ⟨pos.ci + 1, h⟩⟩ :: stack else stack

/-- The state of the walk: the stack of positions, and the index of the next tree of the array. -/
structure Walk (T : Type*) (n : ℕ) where
  stack : List (Position T n)
  ri : ℕ

/-- The trees that are still to be visited. -/
def Walk.todo (nroot : ℕ) (root : ℕ → T) (iter : Walk T n) : List T :=
  iter.stack.flatMap Position.rest ++ (List.range' iter.ri (nroot - iter.ri)).map root

theorem Position.rest_eq (pos : Position T n) (stack : List (Position T n)) :
    (pos :: stack).flatMap Position.rest =
      pos.child pos.ci :: (pos.advance stack).flatMap Position.rest := by
  have hlt : (pos.ci : ℕ) < (List.ofFn pos.child).length := by
    rw [List.length_ofFn]
    exact pos.ci.isLt
  have hdrop : pos.rest = pos.child pos.ci :: (List.ofFn pos.child).drop (pos.ci + 1) := by
    rw [rest, List.drop_eq_getElem_cons hlt, List.getElem_ofFn]
  rw [List.flatMap_cons, hdrop, advance]
  split_ifs with h
  · rw [List.flatMap_cons]
    rfl
  · rw [List.drop_eq_nil_of_le (by rw [List.length_ofFn]; omega)]
    rfl

theorem rest_zero [NeZero n] (child : Fin n → T) :
    (Position.mk child 0).rest = List.ofFn child := rfl

theorem Walk.todo_stack (nroot : ℕ) (root : ℕ → T) (pos : Position T n)
    (stack : List (Position T n)) (ri : ℕ) :
    Walk.todo nroot root ⟨pos :: stack, ri⟩ =
      pos.child pos.ci :: Walk.todo nroot root ⟨pos.advance stack, ri⟩ := by
  rw [todo, Position.rest_eq]
  rfl

theorem Walk.todo_root {nroot ri : ℕ} (root : ℕ → T) (h : ri < nroot) :
    Walk.todo nroot root (⟨[], ri⟩ : Walk T n) =
      root ri :: Walk.todo nroot root (⟨[], ri + 1⟩ : Walk T n) := by
  rw [todo, show nroot - ri = (nroot - (ri + 1)) + 1 by omega, List.range'_succ]
  rfl

theorem Walk.todo_push [NeZero n] (nroot : ℕ) (root : ℕ → T) (child : Fin n → T)
    (stack : List (Position T n)) (ri : ℕ) :
    Walk.todo nroot root ⟨⟨child, 0⟩ :: stack, ri⟩ =
      List.ofFn child ++ Walk.todo nroot root ⟨stack, ri⟩ := by
  rw [todo, todo, List.flatMap_cons, rest_zero, List.append_assoc]

theorem Walk.todo_end {nroot ri : ℕ} (root : ℕ → T) (h : nroot ≤ ri) :
    Walk.todo nroot root (⟨[], ri⟩ : Walk T n) = [] := by
  rw [todo, Nat.sub_eq_zero_of_le h]
  rfl

/-! ## The walk -/

variable (W : Trees T ν n)

/-- The work that the trees of a list still make. -/
def Trees.work (ts : List T) : ℕ := (ts.map fun t => W.size t + 1).sum

theorem Trees.work_cons (t : T) (ts : List T) : W.work (t :: ts) = W.size t + 1 + W.work ts := by
  rw [work, List.map_cons, List.sum_cons, work]

theorem Trees.work_branch {t : T} {child : Fin n → T} (h : W.view t = .branch child)
    (ts : List T) : W.work (List.ofFn child ++ ts) < W.work (t :: ts) := by
  rw [work, List.map_append, List.sum_append, work_cons, work]
  have := W.size_branch t child h
  omega

variable [NeZero n] (avail nroot : ℕ) (root : ℕ → T)

/-- The walk to the next node.  There is memory for `avail` positions; if a position finds no room,
then the walk is moved to the end. -/
def Walk.next (iter : Walk T n) : Option ν × Walk T n :=
  match iter with
  | ⟨[], ri⟩ =>
    if _h : ri < nroot then
      match _hv : W.view (root ri) with
      | .empty => Walk.next ⟨[], ri + 1⟩
      | .node a => (some a, ⟨[], ri + 1⟩)
      | .branch child =>
        if 0 < avail then Walk.next ⟨[⟨child, 0⟩], ri + 1⟩ else (none, ⟨[], nroot⟩)
    else (none, ⟨[], ri⟩)
  | ⟨pos :: stack, ri⟩ =>
    match _hv : W.view (pos.child pos.ci) with
    | .empty => Walk.next ⟨pos.advance stack, ri⟩
    | .node a => (some a, ⟨pos.advance stack, ri⟩)
    | .branch child =>
      if (pos.advance stack).length < avail then Walk.next ⟨⟨child, 0⟩ :: pos.advance stack, ri⟩
      else (none, ⟨[], nroot⟩)
termination_by W.work (iter.todo nroot root)
decreasing_by
  · rw [Walk.todo_root root _h, W.work_cons]
    omega
  · rw [Walk.todo_root root _h, Walk.todo_push]
    exact W.work_branch _hv _
  · rw [Walk.todo_stack, W.work_cons]
    omega
  · rw [Walk.todo_push, Walk.todo_stack]
    exact W.work_branch _hv _

/-- There is memory for the positions below the trees that are still to be visited: the one at the
height `k` of the stack has at most as many branches below it as positions are left. -/
def Fits : List (Position T n) → Prop
  | [] => True
  | pos :: stack => (∀ c ∈ pos.rest, stack.length + 1 + W.depth c ≤ avail) ∧ Fits stack

variable {W avail}

omit [NeZero n] in
theorem Fits.advance {pos : Position T n} {stack : List (Position T n)}
    (h : Fits W avail (pos :: stack)) : Fits W avail (pos.advance stack) := by
  unfold Position.advance
  split_ifs with hlt
  · refine ⟨fun c hc => h.1 c ?_, h.2⟩
    exact List.mem_of_mem_drop (i := 1) (by rwa [Position.rest, List.drop_drop])
  · exact h.2

theorem Fits.push {pos : Position T n} {stack : List (Position T n)}
    (h : Fits W avail (pos :: stack)) {child : Fin n → T}
    (hv : W.view (pos.child pos.ci) = .branch child) :
    (pos.advance stack).length < avail ∧ Fits W avail (⟨child, 0⟩ :: pos.advance stack) := by
  have hlen : (pos.advance stack).length ≤ stack.length + 1 := by
    unfold Position.advance
    split_ifs <;> simp
  have hmem : pos.child pos.ci ∈ pos.rest := by
    have := Position.rest_eq pos []
    rw [List.flatMap_cons, List.flatMap_nil, List.append_nil] at this
    rw [this]
    exact List.mem_cons_self
  have hroom := h.1 _ hmem
  have hdepth := W.depth_branch _ child hv
  refine ⟨?_, fun c hc => ?_, h.advance⟩
  · have := hdepth 0
    omega
  · rw [rest_zero, List.mem_ofFn] at hc
    obtain ⟨i, rfl⟩ := hc
    have := hdepth i
    omega

/-- **A call returns the first leaf that is still to come.** -/
theorem Walk.next_spec (hroot : ∀ i < nroot, W.depth (root i) ≤ avail) (iter : Walk T n)
    (hfits : Fits W avail iter.stack) :
    Fits W avail (Walk.next W avail nroot root iter).2.stack ∧
      (iter.todo nroot root).flatMap W.leaves =
        (Walk.next W avail nroot root iter).1.toList ++
          ((Walk.next W avail nroot root iter).2.todo nroot root).flatMap W.leaves ∧
      ((Walk.next W avail nroot root iter).1 = none →
        ((Walk.next W avail nroot root iter).2.todo nroot root).flatMap W.leaves = []) := by
  fun_induction Walk.next W avail nroot root iter with
  | case1 ri h hv ih =>
    rw [todo_root root h, List.flatMap_cons, W.leaves_empty _ hv]
    exact ih True.intro
  | case2 ri h a hv =>
    refine ⟨True.intro, ?_, fun hnone => absurd hnone (Option.some_ne_none a)⟩
    rw [todo_root root h, List.flatMap_cons, W.leaves_node _ a hv]
    rfl
  | case3 ri h child hv hpos ih =>
    rw [todo_root root h, List.flatMap_cons, W.leaves_branch _ child hv, ← List.flatMap_append,
      ← todo_push]
    refine ih ⟨fun c hc => ?_, True.intro⟩
    rw [rest_zero, List.mem_ofFn] at hc
    obtain ⟨i, rfl⟩ := hc
    have := hroot ri h
    have := W.depth_branch _ child hv i
    simp only [List.length_nil]
    omega
  | case4 ri h child hv hpos =>
    have := hroot ri h
    have := W.depth_branch _ child hv 0
    omega
  | case5 ri h =>
    rw [todo_end root (Nat.le_of_not_lt h)]
    exact ⟨True.intro, rfl, fun _ => rfl⟩
  | case6 pos stack ri hv ih =>
    rw [todo_stack, List.flatMap_cons, W.leaves_empty _ hv]
    exact ih (Fits.advance hfits)
  | case7 pos stack ri a hv =>
    refine ⟨Fits.advance hfits, ?_, fun hnone => absurd hnone (Option.some_ne_none a)⟩
    rw [todo_stack, List.flatMap_cons, W.leaves_node _ a hv]
    rfl
  | case8 pos stack ri child hv hlt ih =>
    rw [todo_stack, List.flatMap_cons, W.leaves_branch _ child hv, ← List.flatMap_append,
      ← todo_push]
    exact ih (Fits.push hfits hv).2
  | case9 pos stack ri child hv hlt => exact absurd (Fits.push hfits hv).1 hlt

/-- **The walk from the start.** The calls return every leaf once, from left to right, and then
none. -/
theorem yields_leaves (hroot : ∀ i < nroot, W.depth (root i) ≤ avail) :
    Yields (Walk.next W avail nroot root) ⟨[], 0⟩
      (((List.range nroot).map root).flatMap W.leaves) := by
  have hstart : Fits W avail ([] : List (Position T n)) := True.intro
  let Pending (l : List ν) (iter : Walk T n) : Prop :=
    Fits W avail iter.stack ∧ (iter.todo nroot root).flatMap W.leaves = l
  refine returns_of_step (show ∀ l iter, Pending l iter → _ from ?_) ?_ ⟨hstart, ?_⟩
  · rintro _ iter ⟨hfits, rfl⟩
    obtain ⟨-, hleaves, hend⟩ := Walk.next_spec nroot root hroot iter hfits
    cases hnext : (Walk.next W avail nroot root iter).1 with
    | none =>
      rw [hleaves, hend hnext, hnext]
      rfl
    | some a =>
      rw [hleaves, hnext]
      rfl
  · rintro a l iter _ ⟨hfits, hl⟩ rfl
    obtain ⟨hfits', hleaves, hend⟩ := Walk.next_spec nroot root hroot iter hfits
    rw [hl] at hleaves
    refine ⟨hfits', ?_⟩
    cases hnext : (Walk.next W avail nroot root iter).1 with
    | none =>
      rw [hend hnext, hnext] at hleaves
      cases hleaves
    | some b =>
      rw [hnext] at hleaves
      exact (List.cons.inj hleaves).2.symm
  · rw [Walk.todo, List.flatMap_nil, List.nil_append, Nat.sub_zero, List.range_eq_range']

end TreeWalk
end CKern
