import Mathlib.Logic.Function.Basic
import Mathlib.Data.List.Basic
import Mathlib.Data.List.Induction
import Mathlib.Data.Nat.Basic
import Mathlib.Algebra.Order.Ring.Nat

/-!
# Trees of linked blocks, and the digits that lead to a block

* `Links`, `walk`: the children of the blocks, and the block at the end of a path.
* `Separate`: no block is at the end of two paths.
* `walk_link_iff`: a new block below a block of the tree adds one path.
* `walk_grow_iff`: a new root adds a step to all paths.
* `digits`: the digits of a number of `k` bits each, the highest one first.
-/

namespace CKern
namespace RadixTree

variable {β : Type*}

/-- The children of the blocks. -/
abbrev Links (β : Type*) := β → ℕ → Option β

/-- The block at the end of a path. -/
def walk (links : Links β) : β → List ℕ → Option β
  | b, [] => some b
  | b, c :: cs => (links b c).bind fun b' => walk links b' cs

/-- No block is at the end of two paths that begin at the root. -/
def Separate (links : Links β) (root : β) : Prop :=
  ∀ p q b, walk links root p = some b → walk links root q = some b → p = q

/-- The block is at the end of a path. -/
def Reached (links : Links β) (root b : β) : Prop := ∃ p, walk links root p = some b

/-- The links with a further child of the block `b`. -/
def link [DecidableEq β] (links : Links β) (b : β) (c : ℕ) (b' : β) : Links β :=
  Function.update links b (Function.update (links b) c (some b'))

variable {links links' : Links β} {root b b' : β} {p q : List ℕ} {c : ℕ}

@[simp] theorem walk_nil : walk links b [] = some b := rfl

theorem walk_cons : walk links b (c :: p) = (links b c).bind fun b' => walk links b' p := rfl

theorem walk_append :
    walk links b (p ++ q) = (walk links b p).bind fun b' => walk links b' q := by
  induction p generalizing b with
  | nil => rfl
  | cons c p ih =>
    rw [List.cons_append, walk_cons, walk_cons, Option.bind_assoc]
    exact congrArg _ (funext fun b' => ih)

theorem walk_concat_eq_some_iff :
    walk links root (p ++ [c]) = some b' ↔
      ∃ b, walk links root p = some b ∧ links b c = some b' := by
  rw [walk_append, Option.bind_eq_some_iff]
  refine exists_congr fun b => and_congr_right fun _ => ?_
  rw [walk_cons, Option.bind_eq_some_iff]
  constructor
  · rintro ⟨x, hx, h⟩
    rw [hx, ← h]
    rfl
  · intro h
    exact ⟨b', h, rfl⟩

theorem walk_congr (h : ∀ b, Reached links root b → links' b = links b) (p : List ℕ) :
    walk links' root p = walk links root p := by
  induction p using List.reverseRecOn with
  | nil => rfl
  | append_singleton p c ih =>
    rw [walk_append, walk_append, ih]
    cases hp : walk links root p with
    | none => rfl
    | some b =>
      rw [Option.bind_some, Option.bind_some, walk_cons, walk_cons, h b ⟨p, hp⟩]
      rfl

section Change

variable [DecidableEq β]

theorem link_self : link links b c b' b c = some b' := by
  rw [link, Function.update_self, Function.update_self]

theorem link_of_ne {x : β} (h : x ≠ b) : link links b c b' x = links x := by
  rw [link, Function.update_of_ne h]

theorem link_eq_some_iff (hnone : links b c = none) {x y : β} {d : ℕ} :
    link links b c b' x d = some y ↔ links x d = some y ∨ x = b ∧ d = c ∧ y = b' := by
  by_cases hx : x = b
  · subst hx
    rw [link, Function.update_self]
    by_cases hd : d = c
    · subst hd
      rw [Function.update_self, hnone]
      simp [eq_comm]
    · rw [Function.update_of_ne hd]
      simp [hd]
  · rw [link_of_ne hx]
    simp [hx]

/-- **A new block below a block of the tree** adds one path. -/
theorem walk_link_iff (hsep : Separate links root) (hp : walk links root p = some b)
    (hnone : links b c = none) (hfresh : ¬ Reached links root b') (hblank : ∀ d, links b' d = none)
    {x : β} :
    walk (link links b c b') root q = some x ↔
      walk links root q = some x ∨ q = p ++ [c] ∧ x = b' := by
  induction q using List.reverseRecOn generalizing x with
  | nil => simp
  | append_singleton q d ih =>
    rw [walk_concat_eq_some_iff, walk_concat_eq_some_iff]
    constructor
    · rintro ⟨y, hy, hyx⟩
      rw [ih] at hy
      rw [link_eq_some_iff hnone] at hyx
      rcases hy with hy | ⟨rfl, rfl⟩
      · rcases hyx with hyx | ⟨rfl, rfl, rfl⟩
        · exact Or.inl ⟨y, hy, hyx⟩
        · rw [hsep q p y hy hp]
          exact Or.inr ⟨rfl, rfl⟩
      · rcases hyx with hyx | ⟨rfl, -, -⟩
        · rw [hblank] at hyx
          cases hyx
        · exact absurd ⟨p, hp⟩ hfresh
    · rintro (⟨y, hy, hyx⟩ | ⟨heq, rfl⟩)
      · exact ⟨y, ih.mpr (Or.inl hy), (link_eq_some_iff hnone).mpr (Or.inl hyx)⟩
      · obtain ⟨rfl, hd⟩ := List.append_inj' heq rfl
        obtain rfl : d = c := by simpa using hd
        exact ⟨b, ih.mpr (Or.inl hp), link_self⟩

theorem Separate.link (hsep : Separate links root) (hp : walk links root p = some b)
    (hnone : links b c = none) (hfresh : ¬ Reached links root b')
    (hblank : ∀ d, links b' d = none) : Separate (RadixTree.link links b c b') root := by
  intro q q' x hq hq'
  rw [walk_link_iff hsep hp hnone hfresh hblank] at hq hq'
  rcases hq with hq | ⟨rfl, rfl⟩
  · rcases hq' with hq' | ⟨rfl, rfl⟩
    · exact hsep q q' x hq hq'
    · exact absurd ⟨q, hq⟩ hfresh
  · rcases hq' with hq' | ⟨rfl, -⟩
    · exact absurd ⟨q', hq'⟩ hfresh
    · rfl

/-- **A new root** adds a step to all paths. -/
theorem walk_grow_iff (hfresh : ¬ Reached links root b) (hblank : ∀ d, links b d = none) {x : β} :
    walk (link links b c root) b q = some x ↔
      q = [] ∧ x = b ∨ ∃ p, q = c :: p ∧ walk links root p = some x := by
  have hold : ∀ p, walk (link links b c root) root p = walk links root p :=
    walk_congr fun y hy => link_of_ne (by rintro rfl; exact hfresh hy)
  cases q with
  | nil => simp [eq_comm]
  | cons d q =>
    rw [walk_cons, Option.bind_eq_some_iff]
    constructor
    · rintro ⟨y, hy, hx⟩
      rw [link_eq_some_iff (hblank c), hblank d] at hy
      obtain ⟨-, rfl, rfl⟩ := hy.resolve_left (by simp)
      exact Or.inr ⟨q, rfl, by rwa [hold] at hx⟩
    · rintro (⟨h, -⟩ | ⟨p, hq, hx⟩)
      · cases h
      · obtain ⟨rfl, rfl⟩ := List.cons_eq_cons.mp hq
        exact ⟨root, link_self, by rwa [hold]⟩

theorem Separate.grow (hsep : Separate links root) (hfresh : ¬ Reached links root b)
    (hblank : ∀ d, links b d = none) : Separate (RadixTree.link links b c root) b := by
  intro q q' x hq hq'
  rw [walk_grow_iff hfresh hblank] at hq hq'
  rcases hq with ⟨rfl, rfl⟩ | ⟨p, rfl, hp⟩
  · rcases hq' with ⟨rfl, -⟩ | ⟨p', rfl, hp'⟩
    · rfl
    · exact absurd ⟨p', hp'⟩ hfresh
  · rcases hq' with ⟨rfl, rfl⟩ | ⟨p', rfl, hp'⟩
    · exact absurd ⟨p, hp⟩ hfresh
    · rw [hsep p p' x hp hp']

end Change

/-! ## Digits -/

/-- The lowest `d` digits of a number, which have `k` bits each, the highest one first. -/
def digits (k : ℕ) : ℕ → ℕ → List ℕ
  | 0, _ => []
  | d + 1, n => n / 2 ^ (k * d) % 2 ^ k :: digits k d n

variable {k d n m : ℕ}

theorem digits_succ : digits k (d + 1) n = n / 2 ^ (k * d) % 2 ^ k :: digits k d n := rfl

theorem mod_eq_of_digits_eq (h : digits k d n = digits k d m) :
    n % 2 ^ (k * d) = m % 2 ^ (k * d) := by
  induction d with
  | zero => simp [Nat.mod_one]
  | succ d ih =>
    obtain ⟨hhigh, hlow⟩ := List.cons_eq_cons.mp h
    rw [Nat.mul_succ, Nat.pow_add, Nat.mod_mul, Nat.mod_mul, ih hlow, hhigh]

theorem digits_inj (hn : n < 2 ^ (k * d)) (hm : m < 2 ^ (k * d))
    (h : digits k d n = digits k d m) : n = m := by
  have hmod := mod_eq_of_digits_eq h
  rwa [Nat.mod_eq_of_lt hn, Nat.mod_eq_of_lt hm] at hmod

theorem digits_succ_of_lt (hn : n < 2 ^ (k * d)) : digits k (d + 1) n = 0 :: digits k d n := by
  rw [digits_succ, Nat.div_eq_of_lt hn, Nat.zero_mod]

end RadixTree
end CKern
