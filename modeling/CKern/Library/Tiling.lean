import Mathlib.Data.List.Basic
import Mathlib.Algebra.BigOperators.Group.List.Basic
import Mathlib.Algebra.Order.Ring.Nat

/-!
# Blocks without gaps

* `Block`: a range of addresses.
* `Tiles`: blocks that follow each other from one address to another one.
* `Block.Apart`: blocks that do not overlap.
-/

namespace CKern
namespace Tiling

/-- A range of addresses. -/
structure Block where
  start : ℕ
  size : ℕ
  deriving DecidableEq, Repr

/-- Two blocks do not overlap. -/
def Block.Apart (x y : Block) : Prop := x.start + x.size ≤ y.start ∨ y.start + y.size ≤ x.start

/-- The blocks are not empty, and follow each other from `a` to `b`. -/
def Tiles : ℕ → List Block → ℕ → Prop
  | a, [], b => a = b
  | a, n :: ns, b => n.start = a ∧ 0 < n.size ∧ Tiles (a + n.size) ns b

variable {a b c : ℕ} {n : Block} {ns ms : List Block}

theorem tiles_append : Tiles a (ns ++ ms) c ↔ ∃ b, Tiles a ns b ∧ Tiles b ms c := by
  induction ns generalizing a with
  | nil => simp [Tiles]
  | cons n ns ih =>
    rw [List.cons_append, Tiles, ih]
    constructor
    · rintro ⟨hstart, hsize, b, hns, hms⟩
      exact ⟨b, ⟨hstart, hsize, hns⟩, hms⟩
    · rintro ⟨b, ⟨hstart, hsize, hns⟩, hms⟩
      exact ⟨hstart, hsize, b, hns, hms⟩

theorem tiles_concat :
    Tiles a (ns ++ [n]) c ↔ Tiles a ns n.start ∧ 0 < n.size ∧ n.start + n.size = c := by
  rw [tiles_append]
  constructor
  · rintro ⟨b, hns, rfl, hsize, hend⟩
    exact ⟨hns, hsize, hend⟩
  · rintro ⟨hns, hsize, hend⟩
    exact ⟨n.start, hns, rfl, hsize, hend⟩

theorem Tiles.sum_size (h : Tiles a ns b) : a + (ns.map Block.size).sum = b := by
  induction ns generalizing a with
  | nil => exact h
  | cons n ns ih =>
    rw [List.map_cons, List.sum_cons, ← Nat.add_assoc]
    exact ih h.2.2

theorem Tiles.le (h : Tiles a ns b) : a ≤ b := by
  have := h.sum_size
  omega

theorem Tiles.lt (h : Tiles a ns b) (hne : ns ≠ []) : a < b := by
  cases ns with
  | nil => exact absurd rfl hne
  | cons n ns =>
    have hle := h.2.2.le
    have hpos := h.2.1
    omega

theorem Tiles.within (h : Tiles a ns b) (hn : n ∈ ns) : a ≤ n.start ∧ n.start + n.size ≤ b := by
  obtain ⟨xs, ys, rfl⟩ := List.append_of_mem hn
  obtain ⟨c, hxs, rfl, hsize, hys⟩ := tiles_append.mp h
  exact ⟨hxs.le, hys.le⟩

theorem Tiles.pairwise (h : Tiles a ns b) : ns.Pairwise Block.Apart := by
  induction ns generalizing a with
  | nil => exact List.Pairwise.nil
  | cons n ns ih =>
    obtain ⟨rfl, -, hns⟩ := h
    exact List.pairwise_cons.mpr ⟨fun m hm => Or.inl (hns.within hm).1, ih hns⟩

end Tiling
end CKern
