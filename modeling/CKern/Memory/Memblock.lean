import Mathlib.Data.List.Basic
import Mathlib.Data.List.TakeDrop
import Mathlib.Algebra.Order.Group.Nat

/-!
# `memory/memblock.h`, `memory/mm/mm.h`: blocks of memory, and who allocates them

* `Memblock`: a block of bytes, `Memblock.store`: writing into it.
* `Memblock.written_take`, `Memblock.written_getElem?`: what a write changes, and what it does not.
* `Mm`: a memory manager. A block that grows keeps its bytes, and may move to another address.
-/

namespace CKern

/-- `memblock_t`, together with the bytes it points to. -/
structure Memblock where
  addr : ℕ
  bytes : List UInt8

namespace Memblock

/-- `size_memblock`. -/
def size (m : Memblock) : ℕ := m.bytes.length

/-- `memblock_FREE`. -/
def free : Memblock := ⟨0, []⟩

/-- The block with `bs` written from the offset `off` on. -/
def written (m : Memblock) (off : ℕ) (bs : List UInt8) : Memblock :=
  { m with bytes := m.bytes.take off ++ (bs ++ m.bytes.drop (off + bs.length)) }

/-- Writing into a block. There is no result for a write beyond its end. -/
def store (m : Memblock) (off : ℕ) (bs : List UInt8) : Option Memblock :=
  if off + bs.length ≤ m.size then some (m.written off bs) else none

theorem store_eq {m : Memblock} {off : ℕ} {bs : List UInt8} (h : off + bs.length ≤ m.size) :
    m.store off bs = some (m.written off bs) :=
  if_pos h

theorem written_size {m : Memblock} {off : ℕ} {bs : List UInt8} (h : off + bs.length ≤ m.size) :
    (m.written off bs).size = m.size := by
  rw [size] at h
  rw [size, size, written, List.length_append, List.length_append, List.length_take,
    List.length_drop]
  omega

theorem written_take {m : Memblock} {off : ℕ} {bs : List UInt8} (h : off ≤ m.size) :
    (m.written off bs).bytes.take (off + bs.length) = m.bytes.take off ++ bs := by
  have hlen : (m.bytes.take off ++ bs).length = off + bs.length := by
    rw [List.length_append, List.length_take_of_le h]
  rw [written, ← List.append_assoc, ← hlen, List.take_left]

theorem written_take_of_le {m : Memblock} {off n : ℕ} {bs : List UInt8} (h : off ≤ m.size)
    (hn : n ≤ off) : (m.written off bs).bytes.take n = m.bytes.take n := by
  have hlen : n ≤ (m.bytes.take off).length := by
    rwa [List.length_take_of_le h]
  rw [written, List.take_append_of_le_length hlen, List.take_take, Nat.min_eq_left hn]

theorem written_getElem?_of_lt {m : Memblock} {off i : ℕ} {bs : List UInt8} (h : off ≤ m.size)
    (hi : i < off) : (m.written off bs).bytes[i]? = m.bytes[i]? := by
  have hlen : i < (m.bytes.take off).length := by
    rwa [List.length_take_of_le h]
  rw [written, List.getElem?_append_left hlen, List.getElem?_take_of_lt hi]

theorem written_getElem? {m : Memblock} {off i : ℕ} {bs : List UInt8} (h : off ≤ m.size)
    (hi : off + bs.length ≤ i) : (m.written off bs).bytes[i]? = m.bytes[i]? := by
  have hlen : (m.bytes.take off).length = off := List.length_take_of_le h
  rw [written, List.getElem?_append_right (by omega), List.getElem?_append_right (by omega),
    List.getElem?_drop, hlen]
  congr 1
  omega

theorem written_append {m : Memblock} {off : ℕ} {xs ys : List UInt8} (h : off ≤ m.size) :
    m.written off (xs ++ ys) = (m.written off xs).written (off + xs.length) ys := by
  have hdrop : (m.written off xs).bytes.drop (off + xs.length + ys.length) =
      m.bytes.drop (off + xs.length + ys.length) := by
    refine List.ext_getElem? fun i => ?_
    rw [List.getElem?_drop, List.getElem?_drop]
    exact written_getElem? h (by omega)
  have hbytes : ((m.written off xs).written (off + xs.length) ys).bytes =
      m.bytes.take off ++ (xs ++ (ys ++ m.bytes.drop (off + xs.length + ys.length))) := by
    rw [← hdrop, ← List.append_assoc, ← written_take h]
    rfl
  rw [written, List.length_append, List.append_assoc, ← Nat.add_assoc, ← hbytes]
  rfl

/-- A free block, or one that does not reach beyond the last address. -/
def Valid (m : Memblock) : Prop := m = free ∨ 0 < m.addr ∧ m.addr + m.size ≤ 2 ^ 64

theorem Valid.size_lt {m : Memblock} (h : m.Valid) : m.size < 2 ^ 64 := by
  rcases h with rfl | ⟨hpos, hfits⟩
  · exact Nat.two_pow_pos 64
  · omega

theorem written_free {off : ℕ} {bs : List UInt8} (h : off + bs.length ≤ free.size) :
    free.written off bs = free := by
  have h0 : bs.length = 0 := Nat.le_zero.mp ((Nat.le_add_left _ _).trans h)
  rw [List.length_eq_zero_iff.mp h0, written, show free.bytes = [] from rfl, List.take_nil,
    List.drop_nil]
  rfl

theorem Valid.written {m : Memblock} (h : m.Valid) {off : ℕ} {bs : List UInt8}
    (hle : off + bs.length ≤ m.size) : (m.written off bs).Valid := by
  rcases h with rfl | ⟨hpos, hfits⟩
  · exact Or.inl (written_free hle)
  · exact Or.inr ⟨hpos, (congrArg (m.addr + ·) (written_size hle)).trans_le hfits⟩

theorem written_getElem?_cons {m : Memblock} {off : ℕ} {b : UInt8} {bs : List UInt8}
    (h : off ≤ m.size) : (m.written off (b :: bs)).bytes[off]? = some b := by
  have hlen : (m.bytes.take off).length = off := List.length_take_of_le h
  rw [written, List.getElem?_append_right (Nat.le_of_eq hlen), hlen, Nat.sub_self]
  rfl

end Memblock

/-- What a memory manager promises for a block that is resized to at least its own size. -/
structure Grown (newsize : ℕ) (m m' : Memblock) : Prop where
  addr_pos : 0 < m'.addr
  size_le : newsize ≤ m'.size
  fits : m'.addr + m'.size ≤ 2 ^ 64
  keeps : m.bytes <+: m'.bytes

/-- A memory manager: the answers of `RESIZE_MM`, and of `ALLOC_MM` for the free block. -/
structure Mm where
  resize : ℕ → Memblock → Option Memblock
  grown : ∀ {newsize m m'}, m.size ≤ newsize → resize newsize m = some m' → Grown newsize m m'

theorem Grown.valid {newsize : ℕ} {m m' : Memblock} (h : Grown newsize m m') : m'.Valid :=
  Or.inr ⟨h.addr_pos, h.fits⟩

theorem Grown.take {newsize n : ℕ} {m m' : Memblock} (h : Grown newsize m m') (hn : n ≤ m.size) :
    m'.bytes.take n = m.bytes.take n := by
  obtain ⟨l, hl⟩ := h.keeps
  rw [← hl, List.take_append_of_le_length hn]

theorem Grown.getElem? {newsize i : ℕ} {m m' : Memblock} (h : Grown newsize m m')
    (hi : i < m.size) : m'.bytes[i]? = m.bytes[i]? := by
  obtain ⟨l, hl⟩ := h.keeps
  rw [← hl, List.getElem?_append_left hi]

end CKern
