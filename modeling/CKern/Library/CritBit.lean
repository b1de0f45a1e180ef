import Mathlib.Data.Nat.Basic
import Mathlib.Data.List.Basic
import Mathlib.Data.List.Nodup
import Mathlib.Data.List.Perm.Basic

/-!
# Crit-bit trees

The values at the leaves stand for infinite sequences of bits.  A branch names the bit at which its
two subtrees differ, and it has a label of its own.

* `BitTree`, `leaves`, `branches`: the trees, their leaves from left to right, and the labels of
  their branches.
* `Diff`, `Precedes`: two values agree up to a bit where the first one has 0 and the second one 1;
  this orders the values like words.
* `Ok`: every branch is at the first bit that separates its subtrees, and its label is one of its
  leaves.
* `pairwise_leaves`: the leaves are in ascending order.
* `Frame`, `fill`: the way from the root to a subtree, the nearest branch first.
* `mem_of_follows`: a value is found on the way that its own bits lead.
* `ok_insert`, `OkCtx.erase`, `OkCtx.relabel`: a leaf more or less at the end of a way.
* `head?_upper`, `getLast?_lower`: the neighbours of a leaf are the outermost leaves of the nearest
  sibling on their side.
-/

namespace CKern
namespace CritBit

variable {α : Type*}

/-- A tree with labelled branches. -/
inductive BitTree (α : Type*) where
  | leaf (a : α)
  | branch (a : α) (bit : ℕ) (l r : BitTree α)

namespace BitTree

/-- What stands at the root. -/
def label : BitTree α → α
  | leaf a => a
  | branch a _ _ _ => a

/-- The leaves from left to right. -/
def leaves : BitTree α → List α
  | leaf a => [a]
  | branch _ _ l r => l.leaves ++ r.leaves

/-- The labels of the branches. -/
def branches : BitTree α → List α
  | leaf _ => []
  | branch a _ l r => a :: (l.branches ++ r.branches)

/-- The leaf where all branches are left to the left. -/
def firstLeaf : BitTree α → α
  | leaf a => a
  | branch _ _ l _ => l.firstLeaf

def lastLeaf : BitTree α → α
  | leaf a => a
  | branch _ _ _ r => r.lastLeaf

theorem head?_leaves (t : BitTree α) : t.leaves.head? = some t.firstLeaf := by
  induction t with
  | leaf a => rfl
  | branch a bit l r ihl ihr =>
    rw [leaves, List.head?_append, ihl]
    rfl

theorem getLast?_leaves (t : BitTree α) : t.leaves.getLast? = some t.lastLeaf := by
  induction t with
  | leaf a => rfl
  | branch a bit l r ihl ihr =>
    rw [leaves, List.getLast?_append, ihr]
    rfl

theorem firstLeaf_mem (t : BitTree α) : t.firstLeaf ∈ t.leaves :=
  List.mem_of_mem_head? t.head?_leaves

theorem leaves_ne_nil (t : BitTree α) : t.leaves ≠ [] := List.ne_nil_of_mem t.firstLeaf_mem

end BitTree

open BitTree

/-! ## The order of the values -/

section Order

variable (β : α → ℕ → Bool)

/-- The values agree below a bit, where the first one has 0 and the second one 1. -/
def Diff (x y : α) (i : ℕ) : Prop := (∀ j < i, β x j = β y j) ∧ β x i = false ∧ β y i = true

/-- The order of words. -/
def Precedes (x y : α) : Prop := ∃ i, Diff β x y i

variable {β}

theorem Precedes.ne {x y : α} (h : Precedes β x y) : x ≠ y := by
  obtain ⟨i, -, hx, hy⟩ := h
  rintro rfl
  rw [hx] at hy
  cases hy

theorem Diff.agree_left {x x' y : α} {i : ℕ} (h : Diff β x y i) (h' : Diff β x' y i) {j : ℕ}
    (hj : j ≤ i) : β x j = β x' j := by
  rcases Nat.lt_or_eq_of_le hj with hlt | rfl
  · rw [h.1 j hlt, h'.1 j hlt]
  · rw [h.2.1, h'.2.1]

theorem Diff.agree_right {x y y' : α} {i : ℕ} (h : Diff β x y i) (h' : Diff β x y' i) {j : ℕ}
    (hj : j ≤ i) : β y j = β y' j := by
  rcases Nat.lt_or_eq_of_le hj with hlt | rfl
  · rw [← h.1 j hlt, ← h'.1 j hlt]
  · rw [h.2.2, h'.2.2]

theorem Diff.congr_left {x x' y : α} {i : ℕ} (h : Diff β x y i)
    (hagree : ∀ j ≤ i, β x' j = β x j) : Diff β x' y i :=
  ⟨fun j hj => (hagree j (Nat.le_of_lt hj)).trans (h.1 j hj), (hagree i le_rfl).trans h.2.1, h.2.2⟩

theorem Diff.congr_right {x y y' : α} {i : ℕ} (h : Diff β x y i)
    (hagree : ∀ j ≤ i, β y' j = β y j) : Diff β x y' i :=
  ⟨fun j hj => (h.1 j hj).trans (hagree j (Nat.le_of_lt hj)).symm, h.2.1,
    (hagree i le_rfl).trans h.2.2⟩

end Order

/-! ## Well formed trees -/

section Ok

variable (β : α → ℕ → Bool)

/-- A branch with the leaves `L` to its left and `R` to its right. -/
def BranchOk (a : α) (bit : ℕ) (L R : List α) : Prop :=
  a ∈ L ++ R ∧ ∀ x ∈ L, ∀ y ∈ R, Diff β x y bit

/-- Every branch separates its leaves, and its label is one of them. -/
def Ok : BitTree α → Prop
  | leaf _ => True
  | branch a bit l r => BranchOk β a bit l.leaves r.leaves ∧ Ok l ∧ Ok r

variable {β} {t : BitTree α}

/-- **The leaves are in ascending order.** -/
theorem pairwise_leaves (ht : Ok β t) : t.leaves.Pairwise (Precedes β) := by
  induction t with
  | leaf a => exact List.pairwise_singleton ..
  | branch a bit l r ihl ihr =>
    obtain ⟨hbranch, hl, hr⟩ := ht
    exact List.pairwise_append.mpr
      ⟨ihl hl, ihr hr, fun x hx y hy => ⟨bit, hbranch.2 x hx y hy⟩⟩

theorem nodup_leaves (ht : Ok β t) : t.leaves.Nodup :=
  (pairwise_leaves ht).imp fun h => h.ne

theorem label_mem_leaves (ht : Ok β t) : t.label ∈ t.leaves := by
  cases t with
  | leaf a => exact List.mem_singleton.mpr rfl
  | branch a bit l r => exact ht.1.1

theorem branches_subset_leaves (ht : Ok β t) : t.branches ⊆ t.leaves := by
  induction t with
  | leaf a => exact List.nil_subset _
  | branch a bit l r ihl ihr =>
    obtain ⟨hbranch, hl, hr⟩ := ht
    intro x hx
    rcases List.mem_cons.mp hx with rfl | hx
    · exact hbranch.1
    · rcases List.mem_append.mp hx with hx | hx
      · exact List.mem_append_left _ (ihl hl hx)
      · exact List.mem_append_right _ (ihr hr hx)

theorem label_ne {a : α} {bit : ℕ} {l r : BitTree α} (ht : Ok β (branch a bit l r)) :
    l.label ≠ r.label := by
  obtain ⟨hbranch, hl, hr⟩ := ht
  have := hbranch.2 _ (label_mem_leaves hl) _ (label_mem_leaves hr)
  exact Precedes.ne (β := β) ⟨bit, this⟩

theorem agree_of_branch {a : α} {bit : ℕ} {l r : BitTree α} (ht : Ok β (branch a bit l r))
    {x y : α} (hx : x ∈ (branch a bit l r).leaves) (hy : y ∈ (branch a bit l r).leaves) {j : ℕ}
    (hj : j < bit) : β x j = β y j := by
  have hdiff := ht.1.2
  have hcommon : ∀ z ∈ l.leaves ++ r.leaves, β z j = β l.firstLeaf j := by
    intro z hz
    have hlr := hdiff _ l.firstLeaf_mem _ r.firstLeaf_mem
    rcases List.mem_append.mp hz with hz | hz
    · exact (hdiff z hz _ r.firstLeaf_mem).agree_left hlr (Nat.le_of_lt hj)
    · rw [(hdiff _ l.firstLeaf_mem z hz).agree_right hlr (Nat.le_of_lt hj), hlr.1 j hj]
  rw [hcommon x hx, hcommon y hy]

end Ok

/-! ## The way to a subtree -/

/-- A branch on the way to a subtree: whether the way goes to the right, and the other subtree. -/
structure Frame (α : Type*) where
  label : α
  bit : ℕ
  right : Bool
  sibling : BitTree α

namespace Frame

/-- The branch with a subtree at the end of the way. -/
def link (f : Frame α) (s : BitTree α) : BitTree α :=
  match f.right with
  | true => branch f.label f.bit f.sibling s
  | false => branch f.label f.bit s f.sibling

/-- The leaves of the branch, when the leaves at the end of the way are `L`. -/
def around (f : Frame α) (L : List α) : List α :=
  match f.right with
  | true => f.sibling.leaves ++ L
  | false => L ++ f.sibling.leaves

/-- A value on the way and one beside it are separated by the branch. -/
def Parts (β : α → ℕ → Bool) (f : Frame α) (x y : α) : Prop :=
  match f.right with
  | true => Diff β y x f.bit
  | false => Diff β x y f.bit

@[simp] theorem label_link (f : Frame α) (s : BitTree α) : (f.link s).label = f.label := by
  unfold link
  cases f.right <;> rfl

@[simp] theorem leaves_link (f : Frame α) (s : BitTree α) :
    (f.link s).leaves = f.around s.leaves := by
  unfold link around
  cases f.right <;> rfl

@[simp] theorem mem_around {f : Frame α} {L : List α} {x : α} :
    x ∈ f.around L ↔ x ∈ L ∨ x ∈ f.sibling.leaves := by
  unfold around
  cases f.right <;> simp [or_comm]

theorem around_perm (f : Frame α) (L : List α) :
    (f.around L).Perm (f.sibling.leaves ++ L) := by
  unfold around
  cases f.right with
  | true => exact List.Perm.refl _
  | false => exact List.perm_append_comm

theorem branches_link (f : Frame α) (s : BitTree α) :
    (f.link s).branches.Perm (s.branches ++ f.label :: f.sibling.branches) := by
  unfold link
  cases f.right with
  | true =>
    refine List.Perm.trans ?_ List.perm_middle.symm
    exact List.Perm.cons _ List.perm_append_comm
  | false => exact List.perm_middle.symm

variable {β : α → ℕ → Bool} {f : Frame α} {x y : α}

theorem Parts.bit_left (h : f.Parts β x y) : β x f.bit = f.right := by
  unfold Parts at h
  cases hf : f.right with
  | true =>
    rw [hf] at h
    exact h.2.2
  | false =>
    rw [hf] at h
    exact h.2.1

theorem Parts.bit_right (h : f.Parts β x y) : β y f.bit = !f.right := by
  unfold Parts at h
  cases hf : f.right with
  | true =>
    rw [hf] at h
    exact h.2.1
  | false =>
    rw [hf] at h
    exact h.2.2

theorem Parts.ne (h : f.Parts β x y) : x ≠ y := by
  rintro rfl
  have hbit := h.bit_right
  rw [h.bit_left] at hbit
  cases hf : f.right <;> simp [hf] at hbit

theorem Parts.below (h : f.Parts β x y) {j : ℕ} (hj : j < f.bit) : β x j = β y j := by
  unfold Parts at h
  cases hf : f.right with
  | true =>
    rw [hf] at h
    exact (h.1 j hj).symm
  | false =>
    rw [hf] at h
    exact h.1 j hj

theorem Parts.congr (h : f.Parts β x y) {x' : α} (hagree : ∀ j ≤ f.bit, β x' j = β x j) :
    f.Parts β x' y := by
  unfold Parts at h ⊢
  cases hf : f.right with
  | true =>
    rw [hf] at h
    exact h.congr_right hagree
  | false =>
    rw [hf] at h
    exact h.congr_left hagree

end Frame

/-- The tree with a subtree at the end of a way; the nearest branch comes first. -/
def fill : BitTree α → List (Frame α) → BitTree α
  | s, [] => s
  | s, f :: c => fill (f.link s) c

/-- The leaves to the left of a place. -/
def lower : List (Frame α) → List α
  | [] => []
  | f :: c =>
    match f.right with
    | true => lower c ++ f.sibling.leaves
    | false => lower c

/-- The leaves to the right of a place. -/
def upper : List (Frame α) → List α
  | [] => []
  | f :: c =>
    match f.right with
    | true => upper c
    | false => f.sibling.leaves ++ upper c

/-- The leaves of the tree, when those at the end of the way are `L`. -/
def around (c : List (Frame α)) (L : List α) : List α := lower c ++ (L ++ upper c)

/-- The labels on the way and beside it. -/
def ctxBranches (c : List (Frame α)) : List α := c.flatMap fun f => f.label :: f.sibling.branches

theorem fill_append (s : BitTree α) (inner outer : List (Frame α)) :
    fill s (inner ++ outer) = fill (fill s inner) outer := by
  induction inner generalizing s with
  | nil => rfl
  | cons f inner ih => exact ih _

theorem around_cons (f : Frame α) (c : List (Frame α)) (L : List α) :
    around (f :: c) L = around c (f.around L) := by
  unfold around Frame.around
  cases hf : f.right <;> simp [lower, upper, hf]

theorem leaves_fill (s : BitTree α) (c : List (Frame α)) :
    (fill s c).leaves = around c s.leaves := by
  induction c generalizing s with
  | nil => simp [fill, around, lower, upper]
  | cons f c ih => rw [fill, ih, f.leaves_link, around_cons]

theorem branches_fill (s : BitTree α) (c : List (Frame α)) :
    (fill s c).branches.Perm (s.branches ++ ctxBranches c) := by
  induction c generalizing s with
  | nil => simp [fill, ctxBranches]
  | cons f c ih =>
    refine (ih _).trans (((f.branches_link s).append_right _).trans ?_)
    rw [List.append_assoc]
    rfl

theorem exists_branch_fill (s : BitTree α) {c : List (Frame α)} (hne : c ≠ []) :
    ∃ a bit l r, fill s c = branch a bit l r := by
  induction c generalizing s with
  | nil => exact absurd rfl hne
  | cons f c ih =>
    by_cases hnil : c = []
    · subst hnil
      unfold fill fill Frame.link
      cases f.right <;> exact ⟨_, _, _, _, rfl⟩
    · exact ih _ hnil

/-- What stands at the root of the tree, when `a` stands at the end of the way. -/
def top : α → List (Frame α) → α
  | a, [] => a
  | _, f :: c => top f.label c

theorem label_fill (s : BitTree α) (c : List (Frame α)) : (fill s c).label = top s.label c := by
  induction c generalizing s with
  | nil => rfl
  | cons f c ih => rw [fill, ih, f.label_link, top]

theorem top_append (a : α) (inner outer : List (Frame α)) :
    top a (inner ++ outer) = top (top a inner) outer := by
  induction inner generalizing a with
  | nil => rfl
  | cons f inner ih => exact ih _

theorem mem_around {c : List (Frame α)} {L : List α} {x : α} :
    x ∈ around c L ↔ x ∈ lower c ∨ x ∈ L ∨ x ∈ upper c := by
  simp [around]

theorem around_perm {c : List (Frame α)} {L L' : List α} {x : α} (h : L.Perm (x :: L')) :
    (around c L).Perm (x :: around c L') :=
  (List.Perm.append_left _ (h.append_right _)).trans List.perm_middle

theorem ctxBranches_append (inner outer : List (Frame α)) :
    ctxBranches (inner ++ outer) = ctxBranches inner ++ ctxBranches outer :=
  List.flatMap_append

theorem ctxBranches_cons (f : Frame α) (c : List (Frame α)) :
    ctxBranches (f :: c) = f.label :: (f.sibling.branches ++ ctxBranches c) :=
  rfl

theorem label_mem_ctxBranches {f : Frame α} {c : List (Frame α)} (hf : f ∈ c) :
    f.label ∈ ctxBranches c :=
  List.mem_flatMap.mpr ⟨f, hf, List.mem_cons_self⟩

theorem length_le_ctxBranches (c : List (Frame α)) : c.length ≤ (ctxBranches c).length := by
  induction c with
  | nil => exact le_rfl
  | cons f c ih =>
    rw [ctxBranches_cons, List.length_cons, List.length_cons, List.length_append]
    omega

/-! ## Well formed ways -/

/-- What a well formed tree says about the way to a subtree with the leaves `L`. -/
def OkCtx (β : α → ℕ → Bool) : List (Frame α) → List α → Prop
  | [], _ => True
  | f :: c, L => (f.label ∈ f.around L ∧ ∀ x ∈ L, ∀ y ∈ f.sibling.leaves, f.Parts β x y) ∧
      Ok β f.sibling ∧ OkCtx β c (f.around L)

section OkCtx

variable {β : α → ℕ → Bool} {s : BitTree α} {c : List (Frame α)} {L L' : List α}

theorem ok_link {f : Frame α} : Ok β (f.link s) ↔
    (f.label ∈ f.around s.leaves ∧ ∀ x ∈ s.leaves, ∀ y ∈ f.sibling.leaves, f.Parts β x y) ∧
      Ok β f.sibling ∧ Ok β s := by
  unfold Frame.link Frame.around Frame.Parts
  cases hf : f.right with
  | true =>
    constructor
    · rintro ⟨⟨hlabel, hdiff⟩, hsib, hs⟩
      exact ⟨⟨hlabel, fun x hx y hy => hdiff y hy x hx⟩, hsib, hs⟩
    · rintro ⟨⟨hlabel, hdiff⟩, hsib, hs⟩
      exact ⟨⟨hlabel, fun y hy x hx => hdiff x hx y hy⟩, hsib, hs⟩
  | false =>
    constructor
    · rintro ⟨hbranch, hs, hsib⟩
      exact ⟨hbranch, hsib, hs⟩
    · rintro ⟨hbranch, hsib, hs⟩
      exact ⟨hbranch, hs, hsib⟩

theorem ok_fill : Ok β (fill s c) ↔ Ok β s ∧ OkCtx β c s.leaves := by
  induction c generalizing s with
  | nil => exact ⟨fun h => ⟨h, True.intro⟩, fun h => h.1⟩
  | cons f c ih =>
    rw [fill, ih, ok_link, f.leaves_link, OkCtx]
    tauto

theorem okCtx_append {inner outer : List (Frame α)} :
    OkCtx β (inner ++ outer) L ↔ OkCtx β inner L ∧ OkCtx β outer (around inner L) := by
  induction inner generalizing L with
  | nil => simp [OkCtx, around, lower, upper]
  | cons f inner ih =>
    rw [List.cons_append, OkCtx, OkCtx, ih, around_cons]
    tauto

theorem OkCtx.parts (h : OkCtx β c L) {f : Frame α} (hf : f ∈ c) {x y : α} (hx : x ∈ L)
    (hy : y ∈ f.sibling.leaves) : f.Parts β x y := by
  induction c generalizing L with
  | nil => cases hf
  | cons g c ih =>
    obtain ⟨⟨-, hparts⟩, -, hrest⟩ := h
    rcases List.mem_cons.mp hf with rfl | hf
    · exact hparts x hx y hy
    · exact ih hrest hf (Frame.mem_around.mpr (.inl hx))

theorem OkCtx.agree (h : OkCtx β c L) {f : Frame α} (hf : f ∈ c) {x z : α} (hx : x ∈ L)
    (hz : z ∈ L) {j : ℕ} (hj : j ≤ f.bit) : β x j = β z j := by
  have h1 := h.parts hf hx f.sibling.firstLeaf_mem
  have h2 := h.parts hf hz f.sibling.firstLeaf_mem
  rcases Nat.lt_or_eq_of_le hj with hlt | rfl
  · rw [h1.below hlt, h2.below hlt]
  · rw [h1.bit_left, h2.bit_left]

theorem OkCtx.bit_lt {f : Frame α} (h : OkCtx β (f :: c) L) (hL : L ≠ []) {g : Frame α}
    (hg : g ∈ c) : g.bit < f.bit := by
  obtain ⟨x, hx⟩ := List.exists_mem_of_ne_nil L hL
  obtain ⟨⟨-, hparts⟩, -, hrest⟩ := h
  have hpart := hparts x hx _ f.sibling.firstLeaf_mem
  by_contra hle
  have hagree := hrest.agree hg (Frame.mem_around.mpr (.inl hx))
    (Frame.mem_around.mpr (.inr f.sibling.firstLeaf_mem)) (Nat.le_of_not_lt hle)
  rw [hpart.bit_left, hpart.bit_right] at hagree
  cases hf : f.right <;> simp [hf] at hagree

theorem OkCtx.bit_lt_branch {a : α} {bit : ℕ} {l r : BitTree α} (hs : Ok β (branch a bit l r))
    (h : OkCtx β c (branch a bit l r).leaves) {f : Frame α} (hf : f ∈ c) : f.bit < bit := by
  have hdiff := hs.1.2 _ l.firstLeaf_mem _ r.firstLeaf_mem
  by_contra hle
  have hagree := h.agree hf (List.mem_append_left r.leaves l.firstLeaf_mem)
    (List.mem_append_right l.leaves r.firstLeaf_mem) (Nat.le_of_not_lt hle)
  rw [hdiff.2.1, hdiff.2.2] at hagree
  cases hagree

theorem OkCtx.of_parts (h : OkCtx β c L) (hlabel : ∀ f ∈ c, f.label ∈ L → f.label ∈ L')
    (hparts : ∀ f ∈ c, ∀ x ∈ L', ∀ y ∈ f.sibling.leaves, f.Parts β x y) : OkCtx β c L' := by
  induction c generalizing L L' with
  | nil => trivial
  | cons f c ih =>
    obtain ⟨⟨hmem, -⟩, hsib, hrest⟩ := h
    refine ⟨⟨?_, hparts f List.mem_cons_self⟩, hsib, ih hrest ?_ ?_⟩
    · rw [Frame.mem_around] at hmem ⊢
      exact hmem.imp_left (hlabel f List.mem_cons_self)
    · intro g hg hg'
      rw [Frame.mem_around] at hg' ⊢
      exact hg'.imp_left (hlabel g (List.mem_cons_of_mem f hg))
    · intro g hg x hx y hy
      rcases Frame.mem_around.mp hx with hx | hx
      · exact hparts g (List.mem_cons_of_mem f hg) x hx y hy
      · exact hrest.parts hg (Frame.mem_around.mpr (.inr hx)) hy

/-- **A new leaf** that agrees with a leaf at the end of the way on all bits of the way. -/
theorem OkCtx.insert (h : OkCtx β c L) {x z : α} (hx : x ∈ L)
    (hagree : ∀ f ∈ c, ∀ j ≤ f.bit, β z j = β x j) (hsub : L ⊆ L')
    (hnew : ∀ y ∈ L', y = z ∨ y ∈ L) : OkCtx β c L' := by
  refine h.of_parts (fun f _ hf => hsub hf) fun f hf y hy v hv => ?_
  rcases hnew y hy with rfl | hy
  · exact (h.parts hf hx hv).congr (hagree f hf)
  · exact h.parts hf hy hv

/-- **One leaf less**, if it is not the label of a branch on the way. -/
theorem OkCtx.erase (h : OkCtx β c L) {d : α} (hsub : L' ⊆ L) (hkeep : ∀ y ∈ L, y ≠ d → y ∈ L')
    (hlabel : ∀ f ∈ c, f.label ≠ d) : OkCtx β c L' :=
  h.of_parts (fun f hf hmem => hkeep _ hmem (hlabel f hf)) fun _ hf _ hx _ hy =>
    h.parts hf (hsub hx) hy

theorem OkCtx.ok_sibling (h : OkCtx β c L) {f : Frame α} (hf : f ∈ c) : Ok β f.sibling := by
  induction c generalizing L with
  | nil => cases hf
  | cons g c ih =>
    rcases List.mem_cons.mp hf with rfl | hf
    · exact h.2.1
    · exact ih h.2.2 hf

theorem OkCtx.exists_frame (h : OkCtx β c L) {x : α} (hx : x ∈ L) (hmem : x ∈ ctxBranches c) :
    ∃ f ∈ c, f.label = x := by
  obtain ⟨f, hf, hxf⟩ := List.mem_flatMap.mp hmem
  rcases List.mem_cons.mp hxf with rfl | hsib
  · exact ⟨f, hf, rfl⟩
  · exact absurd rfl (h.parts hf hx (branches_subset_leaves (h.ok_sibling hf) hsib)).ne

theorem OkCtx.sibling_label_ne (h : OkCtx β c L) {f : Frame α} (hf : f ∈ c) {x : α} (hx : x ∈ L) :
    f.sibling.label ≠ x :=
  (h.parts hf hx (label_mem_leaves (h.ok_sibling hf))).ne.symm

theorem OkCtx.label_ne {f : Frame α} (hs : Ok β s) (h : OkCtx β (f :: c) s.leaves) :
    f.sibling.label ≠ s.label := h.sibling_label_ne List.mem_cons_self (label_mem_leaves hs)

theorem OkCtx.pairwise (h : OkCtx β c L) (hL : L ≠ []) :
    c.Pairwise fun f g => g.bit < f.bit := by
  induction c generalizing L with
  | nil => exact List.Pairwise.nil
  | cons f c ih =>
    refine List.pairwise_cons.mpr ⟨fun g hg => h.bit_lt hL hg, ih h.2.2 ?_⟩
    obtain ⟨x, hx⟩ := List.exists_mem_of_ne_nil L hL
    exact List.ne_nil_of_mem (Frame.mem_around.mpr (.inl hx))

theorem OkCtx.agree_around (h : OkCtx β c L) {d : ℕ} {x : α} (hx : x ∈ L)
    (hagree : ∀ y ∈ L, ∀ j ≤ d, β y j = β x j) (hc : ∀ f ∈ c, d < f.bit) {y : α}
    (hy : y ∈ around c L) : ∀ j ≤ d, β y j = β x j := by
  induction c generalizing L with
  | nil =>
    rw [mem_around] at hy
    rcases hy with hy | hy | hy
    · cases hy
    · exact hagree y hy
    · cases hy
  | cons f c ih =>
    rw [around_cons] at hy
    refine ih h.2.2 (Frame.mem_around.mpr (.inl hx)) ?_
      (fun g hg => hc g (List.mem_cons_of_mem f hg)) hy
    intro z hz j hj
    rcases Frame.mem_around.mp hz with hz | hz
    · exact hagree z hz j hj
    · exact ((h.parts List.mem_cons_self hx hz).below
        (Nat.lt_of_le_of_lt hj (hc f List.mem_cons_self))).symm

theorem top_bit {c : List (Frame α)} (hgrow : c.Pairwise fun f g => g.bit < f.bit) (hne : c ≠ [])
    (a : α) : ∃ g ∈ c, top a c = g.label ∧ ∀ f ∈ c, g.bit ≤ f.bit := by
  induction c generalizing a with
  | nil => exact absurd rfl hne
  | cons f c ih =>
    obtain ⟨hf, hrest⟩ := List.pairwise_cons.mp hgrow
    by_cases hnil : c = []
    · subst hnil
      exact ⟨f, List.mem_cons_self, rfl, fun g hg => by rw [List.mem_singleton.mp hg]⟩
    · obtain ⟨g, hg, htop, hmin⟩ := ih hrest hnil f.label
      refine ⟨g, List.mem_cons_of_mem f hg, htop, fun k hk => ?_⟩
      rcases List.mem_cons.mp hk with rfl | hk
      · exact Nat.le_of_lt (hf g hg)
      · exact hmin k hk

theorem exists_split {c : List (Frame α)} (hgrow : c.Pairwise fun f g => g.bit < f.bit) (d : ℕ) :
    ∃ inner outer, c = inner ++ outer ∧ (∀ f ∈ inner, d < f.bit) ∧ ∀ f ∈ outer, f.bit ≤ d := by
  induction c with
  | nil => exact ⟨[], [], rfl, by simp, by simp⟩
  | cons f c ih =>
    obtain ⟨hf, hrest⟩ := List.pairwise_cons.mp hgrow
    by_cases hlt : d < f.bit
    · obtain ⟨inner, outer, hc, hinner, houter⟩ := ih hrest
      refine ⟨f :: inner, outer, by rw [hc, List.cons_append], fun g hg => ?_, houter⟩
      rcases List.mem_cons.mp hg with rfl | hg
      · exact hlt
      · exact hinner g hg
    · refine ⟨[], f :: c, rfl, by simp, fun g hg => ?_⟩
      rcases List.mem_cons.mp hg with rfl | hg
      · exact Nat.le_of_not_lt hlt
      · exact Nat.le_trans (Nat.le_of_lt (hf g hg)) (Nat.le_of_not_lt hlt)

/-- **A branch on the way gets the label of another leaf**, when its own one is no longer there. -/
theorem OkCtx.relabel {inner outer : List (Frame α)} {g : Frame α}
    (h : OkCtx β (inner ++ g :: outer) L) {d q : α} (hsub : L' ⊆ L)
    (hkeep : ∀ y ∈ L, y ≠ d → y ∈ L') (hq : q ∈ L') (hinner : ∀ f ∈ inner, f.label ≠ d)
    (houter : ∀ f ∈ outer, f.label ≠ d) :
    OkCtx β (inner ++ { g with label := q } :: outer) L' := by
  have haround : ∀ {y}, y ∈ around inner L' → y ∈ around inner L := by
    intro y hy
    rw [mem_around] at hy ⊢
    exact hy.imp_right (Or.imp_left fun hy => hsub hy)
  obtain ⟨hi, ⟨-, hparts⟩, hsib, ho⟩ := okCtx_append.mp h
  refine okCtx_append.mpr ⟨hi.erase hsub hkeep hinner, ⟨?_, ?_⟩, hsib, ?_⟩
  · exact Frame.mem_around.mpr (.inl (mem_around.mpr (.inr (.inl hq))))
  · exact fun x hx y hy => hparts x (haround hx) y hy
  · refine ho.erase (d := d) ?_ ?_ houter
    · intro y hy
      rw [Frame.mem_around] at hy ⊢
      exact hy.imp_left haround
    · intro y hy hne
      rw [Frame.mem_around, mem_around] at hy
      change y ∈ g.around _
      rw [Frame.mem_around, mem_around]
      rcases hy with (hy | hy | hy) | hy
      · exact .inl (.inl hy)
      · exact .inl (.inr (.inl (hkeep y hy hne)))
      · exact .inl (.inr (.inr hy))
      · exact .inr hy

/-- **A branch for a new leaf**, at the first bit where it differs from the subtree. -/
theorem ok_insert (hs : Ok β s) (hc : OkCtx β c s.leaves) {z w : α} {d : ℕ}
    (hw : w = z ∨ w ∈ s.leaves) (hbelow : ∀ x ∈ s.leaves, ∀ j < d, β z j = β x j)
    (hdiff : ∀ x ∈ s.leaves, β z d ≠ β x d) (hbit : ∀ f ∈ c, f.bit < d) :
    Ok β (fill s (⟨w, d, !β z d, leaf z⟩ :: c)) := by
  refine ok_fill.mpr ⟨hs, ⟨?_, ?_⟩, trivial, ?_⟩
  · rw [Frame.mem_around]
    exact hw.symm.imp_right fun h => List.mem_singleton.mpr h
  · intro x hx y hy
    obtain rfl := List.mem_singleton.mp hy
    have hne := hdiff x hx
    unfold Frame.Parts
    cases hz : β y d with
    | true =>
      refine ⟨fun j hj => (hbelow x hx j hj).symm, ?_, hz⟩
      rw [hz] at hne
      simpa using hne.symm
    | false =>
      refine ⟨hbelow x hx, hz, ?_⟩
      rw [hz] at hne
      simpa using hne.symm
  · refine hc.insert (x := s.firstLeaf) (z := z) s.firstLeaf_mem ?_ ?_ ?_
    · exact fun f hf j hj => hbelow _ s.firstLeaf_mem j (Nat.lt_of_le_of_lt hj (hbit f hf))
    · exact fun y hy => Frame.mem_around.mpr (.inl hy)
    · intro y hy
      rcases Frame.mem_around.mp hy with hy | hy
      · exact .inr hy
      · exact .inl (List.mem_singleton.mp hy)

end OkCtx

/-! ## The way of a search -/

/-- The way goes where the bits lead. -/
def Follows (b : ℕ → Bool) (c : List (Frame α)) : Prop := ∀ f ∈ c, f.right = b f.bit

section Follows

variable {β : α → ℕ → Bool} {s : BitTree α} {c : List (Frame α)}

/-- **A leaf is where its own bits lead.** -/
theorem mem_of_follows {x : α} (h : OkCtx β c s.leaves) (hx : x ∈ (fill s c).leaves)
    (hfollows : Follows (β x) c) : x ∈ s.leaves := by
  induction c generalizing s with
  | nil => exact hx
  | cons f c ih =>
    have hmem := ih (s := f.link s) (by rw [f.leaves_link]; exact h.2.2) hx
      fun g hg => hfollows g (List.mem_cons_of_mem f hg)
    rw [f.leaves_link, Frame.mem_around] at hmem
    refine hmem.resolve_right fun hsib => ?_
    have hbit := (h.parts List.mem_cons_self s.firstLeaf_mem hsib).bit_right
    rw [← hfollows f List.mem_cons_self] at hbit
    cases hf : f.right <;> simp [hf] at hbit

theorem follows_of_mem {L : List α} {x : α} (h : OkCtx β c L) (hx : x ∈ L) :
    Follows (β x) c := fun f hf => (h.parts hf hx f.sibling.firstLeaf_mem).bit_left.symm

/-- **A search** goes on as long as the bits of the branches fulfil a condition. -/
theorem exists_way (b : ℕ → Bool) (p : ℕ → Prop) [DecidablePred p] (t : BitTree α) :
    ∃ s c, t = fill s c ∧ Follows b c ∧ (∀ f ∈ c, p f.bit) ∧
      ((∃ x, s = leaf x) ∨ ∃ a bit l r, s = branch a bit l r ∧ ¬p bit) := by
  induction t with
  | leaf x => exact ⟨leaf x, [], rfl, by simp [Follows], by simp, .inl ⟨x, rfl⟩⟩
  | branch a bit l r ihl ihr =>
    by_cases hbit : p bit
    · -- the way in the child, and then this branch
      have hstep : ∀ {t' s : BitTree α} {c : List (Frame α)} (f : Frame α), f.bit = bit →
          f.right = b bit → branch a bit l r = f.link t' → t' = fill s c → Follows b c →
          (∀ g ∈ c, p g.bit) → branch a bit l r = fill s (c ++ [f]) ∧ Follows b (c ++ [f]) ∧
            ∀ g ∈ c ++ [f], p g.bit := by
        intro t' s c f hfbit hright hlink hfill hfollows hp
        refine ⟨by rw [fill_append, ← hfill, hlink]; rfl, fun g hg => ?_, fun g hg => ?_⟩
        · rcases List.mem_append.mp hg with hg | hg
          · exact hfollows g hg
          · rw [List.mem_singleton.mp hg, hright, hfbit]
        · rcases List.mem_append.mp hg with hg | hg
          · exact hp g hg
          · rw [List.mem_singleton.mp hg, hfbit]
            exact hbit
      cases hb : b bit with
      | true =>
        obtain ⟨s, c, hfill, hfollows, hp, hend⟩ := ihr
        obtain ⟨h1, h2, h3⟩ := hstep ⟨a, bit, true, l⟩ rfl hb.symm rfl hfill hfollows hp
        exact ⟨s, _, h1, h2, h3, hend⟩
      | false =>
        obtain ⟨s, c, hfill, hfollows, hp, hend⟩ := ihl
        obtain ⟨h1, h2, h3⟩ := hstep ⟨a, bit, false, r⟩ rfl hb.symm rfl hfill hfollows hp
        exact ⟨s, _, h1, h2, h3, hend⟩
    · exact ⟨_, [], rfl, by simp [Follows], by simp, .inr ⟨a, bit, l, r, rfl, hbit⟩⟩

theorem exists_leaf_way (b : ℕ → Bool) (t : BitTree α) :
    ∃ x c, t = fill (leaf x) c ∧ Follows b c := by
  obtain ⟨s, c, hfill, hfollows, -, hend⟩ := exists_way b (fun _ => True) t
  rcases hend with ⟨x, rfl⟩ | ⟨_, _, _, _, -, hno⟩
  · exact ⟨x, c, hfill, hfollows⟩
  · exact absurd trivial hno

end Follows

/-! ## The neighbours of a place -/

theorem head?_upper (c : List (Frame α)) :
    (upper c).head? = (c.find? fun f => !f.right).map fun f => f.sibling.firstLeaf := by
  induction c with
  | nil => rfl
  | cons f c ih =>
    unfold upper
    cases hf : f.right with
    | true => simpa [hf] using ih
    | false => simp [hf, List.head?_append, f.sibling.head?_leaves]

theorem getLast?_lower (c : List (Frame α)) :
    (lower c).getLast? = (c.find? fun f => f.right).map fun f => f.sibling.lastLeaf := by
  induction c with
  | nil => rfl
  | cons f c ih =>
    unfold lower
    cases hf : f.right with
    | false => simpa [hf] using ih
    | true => simp [hf, List.getLast?_append, f.sibling.getLast?_leaves]

section Side

variable (side : Bool)

/-- The outermost leaf on a side. -/
def edgeLeaf (t : BitTree α) : α := if side then t.lastLeaf else t.firstLeaf

/-- A list from left to right, or from right to left. -/
def inOrder (L : List α) : List α := if side then L.reverse else L

/-- The leaves that come after a place in the order. -/
def beyond (c : List (Frame α)) : List α := if side then (lower c).reverse else upper c

theorem head?_inOrder (t : BitTree α) : (inOrder side t.leaves).head? = some (edgeLeaf side t) := by
  cases side with
  | true => exact (List.head?_reverse).trans t.getLast?_leaves
  | false => exact t.head?_leaves

theorem head?_beyond (c : List (Frame α)) :
    (beyond side c).head? =
      (c.find? fun f => f.right == side).map fun f => edgeLeaf side f.sibling := by
  cases side with
  | true => simpa [beyond, edgeLeaf] using getLast?_lower c
  | false => simpa [beyond, edgeLeaf] using head?_upper c

theorem exists_inOrder_fill (a : α) (c : List (Frame α)) :
    ∃ pre, inOrder side (fill (leaf a) c).leaves = pre ++ a :: beyond side c := by
  rw [leaves_fill]
  cases side with
  | true => exact ⟨(upper c).reverse, by simp [inOrder, around, beyond, leaves]⟩
  | false => exact ⟨lower c, rfl⟩

@[simp] theorem mem_inOrder {L : List α} {x : α} : x ∈ inOrder side L ↔ x ∈ L := by
  cases side <;> simp [inOrder]

theorem nodup_inOrder {L : List α} (h : L.Nodup) : (inOrder side L).Nodup := by
  cases side with
  | true => exact List.nodup_reverse.mpr h
  | false => exact h

end Side

/-- The branch seen from the sibling. -/
def Frame.flip (f : Frame α) (s : BitTree α) : Frame α := ⟨f.label, f.bit, !f.right, s⟩

theorem Frame.link_flip (f : Frame α) (s : BitTree α) : (f.flip s).link f.sibling = f.link s := by
  unfold flip link
  cases f.right <;> rfl

theorem exists_fill {β : α → ℕ → Bool} {t : BitTree α} (ht : Ok β t) {a : α} (ha : a ∈ t.leaves) :
    ∃ c, t = fill (leaf a) c := by
  obtain ⟨x, c, rfl, hfollows⟩ := exists_leaf_way (β a) t
  have := mem_of_follows (ok_fill.mp ht).2 ha hfollows
  exact ⟨c, by rw [List.mem_singleton.mp this]⟩

end CritBit
end CKern
