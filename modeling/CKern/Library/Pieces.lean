import Mathlib.Data.List.Basic
import Mathlib.Data.List.GetD
import Mathlib.Data.Nat.Basic

/-!
# A list cut in pieces, and a memory of bytes

* `piece`: the pieces of length `P` of a list, the last one possibly shorter.
* `flatten_pieces`: the first pieces together are a part of the list from its start.
* `Memory`: bytes at addresses, with reading and writing of a whole range.  A range is not changed
  by writing to one that it does not meet (`read_write_of_disjoint`).
-/

namespace CKern
namespace Pieces

variable {α : Type*}

/-- The `k`-th piece of length `P`. -/
def piece (P : ℕ) (l : List α) (k : ℕ) : List α := (l.drop (k * P)).take P

theorem length_piece (P : ℕ) (l : List α) (k : ℕ) :
    (piece P l k).length = min P (l.length - k * P) := by
  rw [piece, List.length_take, List.length_drop]

theorem flatten_pieces (P : ℕ) (l : List α) (n : ℕ) :
    ((List.range n).map (piece P l)).flatten = l.take (n * P) := by
  induction n with
  | zero => simp
  | succ n ih =>
    rw [List.range_succ, List.map_append, List.flatten_append, ih, List.map_singleton,
      List.flatten_singleton, piece, Nat.succ_mul, List.take_add]

theorem place_succ {P k n : ℕ} (h : k * P < n) :
    min ((k + 1) * P) n = min (k * P) n + min P (n - k * P) := by
  have hmul : (k + 1) * P = k * P + P := Nat.succ_mul k P
  omega

theorem mul_lt_of_lt {P k j n : ℕ} (h : k * P < n) (hj : j ≤ k) : j * P < n :=
  Nat.lt_of_le_of_lt (Nat.mul_le_mul_right P hj) h

theorem mul_eq_zero_of_lt {P k : ℕ} (h : k * P < P) : k * P = 0 := by
  rcases Nat.eq_zero_or_pos k with rfl | hpos
  · exact Nat.zero_mul P
  · exact absurd (Nat.le_mul_of_pos_left P hpos) (Nat.not_le_of_lt h)

/-! ## Memory -/

/-- Bytes at addresses. -/
def Memory := ℕ → UInt8

/-- The `n` bytes from the address `addr` on. -/
def Memory.read (mem : Memory) (addr n : ℕ) : List UInt8 :=
  (List.range n).map fun i => mem (addr + i)

/-- The memory with `bytes` written from the address `addr` on. -/
def Memory.write (mem : Memory) (addr : ℕ) (bytes : List UInt8) : Memory := fun a =>
  if addr ≤ a then bytes.getD (a - addr) (mem a) else mem a

theorem Memory.length_read (mem : Memory) (addr n : ℕ) : (mem.read addr n).length = n := by
  rw [read, List.length_map, List.length_range]

theorem Memory.read_congr {mem mem' : Memory} {addr n : ℕ}
    (h : ∀ a, addr ≤ a → a < addr + n → mem' a = mem a) : mem'.read addr n = mem.read addr n :=
  List.map_congr_left fun i hi =>
    h _ (Nat.le_add_right addr i) (Nat.add_lt_add_left (List.mem_range.mp hi) addr)

theorem Memory.read_add (mem : Memory) (addr m n : ℕ) :
    mem.read addr (m + n) = mem.read addr m ++ mem.read (addr + m) n := by
  rw [read, read, read, List.range_add, List.map_append, List.map_map]
  congr 1
  refine List.map_congr_left fun i _ => ?_
  rw [Function.comp_apply, Nat.add_assoc]

theorem Memory.take_read (mem : Memory) (addr : ℕ) {m n : ℕ} (h : m ≤ n) :
    (mem.read addr n).take m = mem.read addr m := by
  obtain ⟨k, rfl⟩ := Nat.exists_eq_add_of_le h
  rw [read_add, List.take_left' (length_read mem addr m)]

theorem Memory.drop_read (mem : Memory) (addr m n : ℕ) :
    (mem.read addr n).drop m = mem.read (addr + m) (n - m) := by
  rcases Nat.le_total m n with h | h
  · obtain ⟨k, rfl⟩ := Nat.exists_eq_add_of_le h
    rw [read_add, List.drop_left' (length_read mem addr m), Nat.add_sub_cancel_left]
  · rw [List.drop_eq_nil_of_le (by rw [length_read]; exact h), Nat.sub_eq_zero_of_le h]
    rfl

theorem Memory.read_write (mem : Memory) (addr : ℕ) (bytes : List UInt8) :
    (mem.write addr bytes).read addr bytes.length = bytes := by
  refine List.ext_getElem (by simp [read]) fun i hi hi' => ?_
  have hwrite : mem.write addr bytes (addr + i) = bytes.getD i (mem (addr + i)) := by
    rw [write, if_pos (Nat.le_add_right addr i), Nat.add_sub_cancel_left]
  simp only [read, List.getElem_map, List.getElem_range]
  rw [hwrite, List.getD_eq_getElem _ _ hi']

theorem Memory.write_of_disjoint (mem : Memory) {addr a : ℕ} {bytes : List UInt8}
    (h : a < addr ∨ addr + bytes.length ≤ a) : mem.write addr bytes a = mem a := by
  rw [write]
  split_ifs with hle
  · exact List.getD_eq_default _ _ (by omega)
  · rfl

theorem Memory.read_write_of_disjoint (mem : Memory) {addr a n : ℕ} {bytes : List UInt8}
    (h : a + n ≤ addr ∨ addr + bytes.length ≤ a) :
    (mem.write addr bytes).read a n = mem.read a n :=
  read_congr fun _ hle hlt => mem.write_of_disjoint (by omega)

theorem Memory.read_write_append (mem : Memory) (addr k : ℕ) (bytes : List UInt8) :
    (mem.write (addr + k) bytes).read addr (k + bytes.length) = mem.read addr k ++ bytes := by
  rw [read_add, read_write, read_write_of_disjoint mem (Or.inl (Nat.le_refl (addr + k)))]

end Pieces
end CKern
