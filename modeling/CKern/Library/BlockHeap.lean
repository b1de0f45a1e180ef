import Mathlib.Logic.Function.Basic
import Mathlib.Data.List.Basic

/-!
# A heap of blocks

* `Word`, `Block`: a block of memory is a row of words of eight bytes, and a word holds bytes or one
  pointer.  `none` is the null pointer.
* `Block.byte`, `Block.ptr`, `Block.setByte`, `Block.setPtr`: the accesses to one block.  An access
  that leaves the block, or takes a pointer for bytes or bytes for a pointer, has no result.
* `Heap`: the blocks that are allocated, and what has been given back so far, with the size that was
  named for it.
* `Heap.byte`, `Heap.ptr`, `Heap.setByte`, `Heap.setPtr`: the accesses to a block of the heap.  A
  block that has been given back cannot be accessed any more.
* `Heap.free`: a block is given back.  Without the block there is no result.
* `Frees`: all blocks of a list are given back, each one once and with its own size.
-/

namespace CKern
namespace BlockHeap

/-- The place of a block. -/
abbrev Addr := Nat

/-- Eight bytes of memory. -/
inductive Word where
  | bytes (b : Fin 8 → UInt8)
  | ptr (p : Option Addr)

/-- The words of a block. -/
abbrev Block := List Word

namespace Block

/-- The size in bytes. -/
def size (b : Block) : Nat := 8 * b.length

/-- The byte at an offset. -/
def byte (b : Block) (off : Nat) : Option UInt8 :=
  match b[off / 8]? with
  | some (.bytes w) => some (w (Fin.ofNat 8 off))
  | _ => none

/-- The pointer at an offset. -/
def ptr (b : Block) (off : Nat) : Option (Option Addr) :=
  if off % 8 = 0 then
    match b[off / 8]? with
    | some (.ptr p) => some p
    | _ => none
  else none

/-- Writes a byte. -/
def setByte (b : Block) (off : Nat) (v : UInt8) : Option Block :=
  match b[off / 8]? with
  | some (.bytes w) => some (b.set (off / 8) (.bytes (Function.update w (Fin.ofNat 8 off) v)))
  | _ => none

/-- Writes a pointer. -/
def setPtr (b : Block) (off : Nat) (p : Option Addr) : Option Block :=
  match b.ptr off with
  | some _ => some (b.set (off / 8) (.ptr p))
  | none => none

variable {b b' : Block} {off : Nat}

theorem byte_eq_some_iff {v : UInt8} :
    b.byte off = some v ↔ ∃ w, b[off / 8]? = some (.bytes w) ∧ w (Fin.ofNat 8 off) = v := by
  unfold byte
  split
  · next w hw => simp [hw]
  · next hno =>
    simp only [reduceCtorEq, false_iff]
    rintro ⟨w, hw, -⟩
    exact hno w hw

theorem ptr_eq_some_iff {p : Option Addr} :
    b.ptr off = some p ↔ off % 8 = 0 ∧ b[off / 8]? = some (.ptr p) := by
  unfold ptr
  split_ifs with hoff
  · split
    · next q hq => simp [hoff, hq]
    · next hno =>
      simp only [reduceCtorEq, hoff, true_and, false_iff]
      exact hno p
  · simp [hoff]

theorem exists_setByte {u : UInt8} (h : b.byte off = some u) (v : UInt8) :
    ∃ b', b.setByte off v = some b' := by
  obtain ⟨w, hw, -⟩ := byte_eq_some_iff.mp h
  exact ⟨_, by rw [setByte, hw]⟩

theorem exists_setPtr {q : Option Addr} (h : b.ptr off = some q) (p : Option Addr) :
    ∃ b', b.setPtr off p = some b' :=
  ⟨_, by rw [setPtr, h]⟩

theorem exists_of_setByte {v : UInt8} (h : b.setByte off v = some b') :
    ∃ w, b[off / 8]? = some (.bytes w) ∧
      b' = b.set (off / 8) (.bytes (Function.update w (Fin.ofNat 8 off) v)) := by
  unfold setByte at h
  split at h
  · next w hw => exact ⟨w, hw, (Option.some.inj h).symm⟩
  · cases h

theorem exists_of_setPtr {p : Option Addr} (h : b.setPtr off p = some b') :
    ∃ q, b.ptr off = some q ∧ b' = b.set (off / 8) (.ptr p) := by
  unfold setPtr at h
  split at h
  · next q hq => exact ⟨q, hq, (Option.some.inj h).symm⟩
  · cases h

theorem size_setByte {v : UInt8} (h : b.setByte off v = some b') : b'.size = b.size := by
  obtain ⟨w, -, rfl⟩ := exists_of_setByte h
  rw [size, size, List.length_set]

theorem size_setPtr {p : Option Addr} (h : b.setPtr off p = some b') : b'.size = b.size := by
  obtain ⟨q, -, rfl⟩ := exists_of_setPtr h
  rw [size, size, List.length_set]

theorem byte_setByte {v : UInt8} (h : b.setByte off v = some b') : b'.byte off = some v := by
  obtain ⟨w, hw, rfl⟩ := exists_of_setByte h
  have hlt := (List.getElem?_eq_some_iff.mp hw).1
  rw [byte_eq_some_iff]
  exact ⟨_, by rw [List.getElem?_set_self hlt], Function.update_self ..⟩

theorem byte_setByte_of_ne {v : UInt8} (h : b.setByte off v = some b') {i : Nat} (hi : i ≠ off) :
    b'.byte i = b.byte i := by
  obtain ⟨w, hw, rfl⟩ := exists_of_setByte h
  have hlt := (List.getElem?_eq_some_iff.mp hw).1
  by_cases hdiv : off / 8 = i / 8
  · have hne : Fin.ofNat 8 i ≠ Fin.ofNat 8 off := by
      intro heq
      have : i % 8 = off % 8 := congrArg Fin.val heq
      omega
    rw [byte, byte, ← hdiv, List.getElem?_set_self hlt, hw]
    simp only [Function.update_of_ne hne]
  · rw [byte, byte, List.getElem?_set_ne hdiv]

theorem ptr_setByte {v : UInt8} (h : b.setByte off v = some b') (i : Nat) :
    b'.ptr i = b.ptr i := by
  obtain ⟨w, hw, rfl⟩ := exists_of_setByte h
  have hlt := (List.getElem?_eq_some_iff.mp hw).1
  by_cases hdiv : off / 8 = i / 8
  · rw [ptr, ptr, ← hdiv, List.getElem?_set_self hlt, hw]
  · rw [ptr, ptr, List.getElem?_set_ne hdiv]

theorem ptr_setPtr {p : Option Addr} (h : b.setPtr off p = some b') : b'.ptr off = some p := by
  obtain ⟨q, hq, rfl⟩ := exists_of_setPtr h
  obtain ⟨hmod, hq⟩ := ptr_eq_some_iff.mp hq
  have hlt := (List.getElem?_eq_some_iff.mp hq).1
  rw [ptr_eq_some_iff]
  exact ⟨hmod, List.getElem?_set_self hlt⟩

theorem ptr_setPtr_of_ne {p : Option Addr} (h : b.setPtr off p = some b') {i : Nat}
    (hi : i ≠ off) : b'.ptr i = b.ptr i := by
  obtain ⟨q, hq, rfl⟩ := exists_of_setPtr h
  have hmod := (ptr_eq_some_iff.mp hq).1
  by_cases hdiv : off / 8 = i / 8
  · have hi : i % 8 ≠ 0 := by omega
    rw [ptr, ptr, if_neg hi, if_neg hi]
  · rw [ptr, ptr, List.getElem?_set_ne hdiv]

theorem byte_setPtr {p : Option Addr} (h : b.setPtr off p = some b') (i : Nat) :
    b'.byte i = b.byte i := by
  obtain ⟨q, hq, rfl⟩ := exists_of_setPtr h
  obtain ⟨-, hq⟩ := ptr_eq_some_iff.mp hq
  have hlt := (List.getElem?_eq_some_iff.mp hq).1
  by_cases hdiv : off / 8 = i / 8
  · rw [byte, byte, ← hdiv, List.getElem?_set_self hlt, hq]
  · rw [byte, byte, List.getElem?_set_ne hdiv]

end Block

/-- The allocated blocks, and the calls that gave a block back. -/
structure Heap where
  block : Addr → Option Block
  freed : List (Addr × Nat)

namespace Heap

/-- The byte at an offset of the block at an address. -/
def byte (h : Heap) (a : Addr) (off : Nat) : Option UInt8 := (h.block a).bind fun b => b.byte off

/-- The pointer at an offset of the block at an address. -/
def ptr (h : Heap) (a : Addr) (off : Nat) : Option (Option Addr) :=
  (h.block a).bind fun b => b.ptr off

/-- Stores new words in the place of a block. -/
def write (h : Heap) (a : Addr) (b : Block) : Heap :=
  { h with block := Function.update h.block a (some b) }

def setByte (h : Heap) (a : Addr) (off : Nat) (v : UInt8) : Option Heap :=
  (h.block a).bind fun b => (b.setByte off v).map (h.write a)

def setPtr (h : Heap) (a : Addr) (off : Nat) (p : Option Addr) : Option Heap :=
  (h.block a).bind fun b => (b.setPtr off p).map (h.write a)

/-- Gives a block back.  It has to be there; the size is only noted. -/
def free (h : Heap) (a : Addr) (size : Nat) : Option Heap :=
  if (h.block a).isSome then
    some { block := Function.update h.block a none, freed := h.freed ++ [(a, size)] }
  else none

/-- The size of an allocated block. -/
def size (h : Heap) (a : Addr) : Option Nat := (h.block a).map Block.size

variable {h h' : Heap} {a c : Addr} {off : Nat}

theorem exists_of_setByte {v : UInt8} (hset : h.setByte a off v = some h') :
    ∃ b b', h.block a = some b ∧ b.setByte off v = some b' ∧ h' = h.write a b' := by
  obtain ⟨b, hb, hmap⟩ := Option.bind_eq_some_iff.mp hset
  obtain ⟨b', hb', rfl⟩ := Option.map_eq_some_iff.mp hmap
  exact ⟨b, b', hb, hb', rfl⟩

theorem exists_of_setPtr {p : Option Addr} (hset : h.setPtr a off p = some h') :
    ∃ b b', h.block a = some b ∧ b.setPtr off p = some b' ∧ h' = h.write a b' := by
  obtain ⟨b, hb, hmap⟩ := Option.bind_eq_some_iff.mp hset
  obtain ⟨b', hb', rfl⟩ := Option.map_eq_some_iff.mp hmap
  exact ⟨b, b', hb, hb', rfl⟩

theorem block_write_self (h : Heap) (a : Addr) (b : Block) : (h.write a b).block a = some b :=
  Function.update_self ..

theorem block_write_of_ne (h : Heap) (b : Block) (hne : c ≠ a) :
    (h.write a b).block c = h.block c :=
  Function.update_of_ne hne ..

theorem byte_congr (hb : h'.block a = h.block a) (i : Nat) : h'.byte a i = h.byte a i := by
  rw [byte, byte, hb]

theorem ptr_congr (hb : h'.block a = h.block a) (i : Nat) : h'.ptr a i = h.ptr a i := by
  rw [ptr, ptr, hb]

theorem size_congr (hb : h'.block a = h.block a) : h'.size a = h.size a := by
  rw [size, size, hb]

theorem exists_setByte {u : UInt8} (hget : h.byte a off = some u) (v : UInt8) :
    ∃ h', h.setByte a off v = some h' := by
  obtain ⟨b, hb, hbyte⟩ := Option.bind_eq_some_iff.mp hget
  obtain ⟨b', hb'⟩ := Block.exists_setByte hbyte v
  exact ⟨h.write a b', by rw [setByte, hb, Option.bind_some, hb', Option.map_some]⟩

theorem exists_setPtr {q : Option Addr} (hget : h.ptr a off = some q) (p : Option Addr) :
    ∃ h', h.setPtr a off p = some h' := by
  obtain ⟨b, hb, hptr⟩ := Option.bind_eq_some_iff.mp hget
  obtain ⟨b', hb'⟩ := Block.exists_setPtr hptr p
  exact ⟨h.write a b', by rw [setPtr, hb, Option.bind_some, hb', Option.map_some]⟩

/-! ## After a byte is written -/

section SetByte

variable {v : UInt8} (hset : h.setByte a off v = some h')
include hset

theorem freed_setByte : h'.freed = h.freed := by
  obtain ⟨b, b', -, -, rfl⟩ := exists_of_setByte hset
  rfl

theorem block_setByte_of_ne (hne : c ≠ a) : h'.block c = h.block c := by
  obtain ⟨b, b', -, -, rfl⟩ := exists_of_setByte hset
  exact block_write_of_ne h b' hne

theorem size_setByte (c : Addr) : h'.size c = h.size c := by
  by_cases hne : c = a
  · obtain ⟨b, b', hb, hb', rfl⟩ := exists_of_setByte hset
    rw [hne, size, size, hb, block_write_self, Option.map_some, Option.map_some,
      Block.size_setByte hb']
  · exact size_congr (block_setByte_of_ne hset hne)

theorem byte_setByte : h'.byte a off = some v := by
  obtain ⟨b, b', -, hb', rfl⟩ := exists_of_setByte hset
  rw [byte, block_write_self, Option.bind_some, Block.byte_setByte hb']

theorem byte_setByte_of_ne {i : Nat} (hi : i ≠ off) : h'.byte c i = h.byte c i := by
  by_cases hne : c = a
  · obtain ⟨b, b', hb, hb', rfl⟩ := exists_of_setByte hset
    rw [hne, byte, byte, hb, block_write_self, Option.bind_some, Option.bind_some,
      Block.byte_setByte_of_ne hb' hi]
  · exact byte_congr (block_setByte_of_ne hset hne) i

theorem ptr_setByte (c : Addr) (i : Nat) : h'.ptr c i = h.ptr c i := by
  by_cases hne : c = a
  · obtain ⟨b, b', hb, hb', rfl⟩ := exists_of_setByte hset
    rw [hne, ptr, ptr, hb, block_write_self, Option.bind_some, Option.bind_some,
      Block.ptr_setByte hb']
  · exact ptr_congr (block_setByte_of_ne hset hne) i

end SetByte

/-! ## After a pointer is written -/

section SetPtr

variable {p : Option Addr} (hset : h.setPtr a off p = some h')
include hset

theorem freed_setPtr : h'.freed = h.freed := by
  obtain ⟨b, b', -, -, rfl⟩ := exists_of_setPtr hset
  rfl

theorem block_setPtr_of_ne (hne : c ≠ a) : h'.block c = h.block c := by
  obtain ⟨b, b', -, -, rfl⟩ := exists_of_setPtr hset
  exact block_write_of_ne h b' hne

theorem size_setPtr (c : Addr) : h'.size c = h.size c := by
  by_cases hne : c = a
  · obtain ⟨b, b', hb, hb', rfl⟩ := exists_of_setPtr hset
    rw [hne, size, size, hb, block_write_self, Option.map_some, Option.map_some,
      Block.size_setPtr hb']
  · exact size_congr (block_setPtr_of_ne hset hne)

theorem ptr_setPtr : h'.ptr a off = some p := by
  obtain ⟨b, b', -, hb', rfl⟩ := exists_of_setPtr hset
  rw [ptr, block_write_self, Option.bind_some, Block.ptr_setPtr hb']

theorem ptr_setPtr_of_ne {i : Nat} (hi : c ≠ a ∨ i ≠ off) : h'.ptr c i = h.ptr c i := by
  by_cases hne : c = a
  · obtain ⟨b, b', hb, hb', rfl⟩ := exists_of_setPtr hset
    rw [hne, ptr, ptr, hb, block_write_self, Option.bind_some, Option.bind_some,
      Block.ptr_setPtr_of_ne hb' (hi.resolve_left fun h => h hne)]
  · exact ptr_congr (block_setPtr_of_ne hset hne) i

theorem byte_setPtr (c : Addr) (i : Nat) : h'.byte c i = h.byte c i := by
  by_cases hne : c = a
  · obtain ⟨b, b', hb, hb', rfl⟩ := exists_of_setPtr hset
    rw [hne, byte, byte, hb, block_write_self, Option.bind_some, Option.bind_some,
      Block.byte_setPtr hb']
  · exact byte_congr (block_setPtr_of_ne hset hne) i

end SetPtr

end Heap

/-- Between the two heaps the blocks of the list are given back, each one once and with the size in
the list.  Otherwise only the blocks at `own` may have changed. -/
structure Frees (l : List (Addr × Nat)) (own : List Addr) (h h' : Heap) : Prop where
  gone : ∀ a ∈ l.map Prod.fst, h'.block a = none
  frame : ∀ a, a ∉ l.map Prod.fst → a ∉ own → h'.block a = h.block a
  freed : ∃ calls, h'.freed = h.freed ++ calls ∧ calls.Perm l

namespace Frees

variable {l l₁ l₂ : List (Addr × Nat)} {own : List Addr} {h h₁ h₂ : Heap}

theorem of_write (hblock : ∀ a, a ∉ own → h₁.block a = h.block a) (hfreed : h₁.freed = h.freed) :
    Frees [] own h h₁ where
  gone := by simp
  frame := fun a _ ha => hblock a ha
  freed := ⟨[], by rw [hfreed, List.append_nil], List.Perm.nil⟩

theorem refl (own : List Addr) (h : Heap) : Frees [] own h h :=
  of_write (fun _ _ => rfl) rfl

/-- **Two runs in a row** give back what each of them gives back. -/
theorem trans (h12 : Frees l₁ own h h₁) (h23 : Frees l₂ own h₁ h₂)
    (hdisj : ∀ a ∈ l₁.map Prod.fst, a ∉ l₂.map Prod.fst ∧ a ∉ own) :
    Frees (l₁ ++ l₂) own h h₂ where
  gone := by
    intro a ha
    rw [List.map_append, List.mem_append] at ha
    by_cases ha2 : a ∈ l₂.map Prod.fst
    · exact h23.gone a ha2
    · have ha1 := ha.resolve_right ha2
      rw [h23.frame a ha2 (hdisj a ha1).2, h12.gone a ha1]
  frame := by
    intro a ha hown
    rw [List.map_append, List.mem_append, not_or] at ha
    rw [h23.frame a ha.2 hown, h12.frame a ha.1 hown]
  freed := by
    obtain ⟨calls₁, heq₁, hperm₁⟩ := h12.freed
    obtain ⟨calls₂, heq₂, hperm₂⟩ := h23.freed
    exact ⟨calls₁ ++ calls₂, by rw [heq₂, heq₁, List.append_assoc], hperm₁.append hperm₂⟩

theorem mono {own' : List Addr} (hf : Frees l own h h₁) (hsub : ∀ a ∈ own, a ∈ own') :
    Frees l own' h h₁ where
  gone := hf.gone
  frame := fun a ha hown => hf.frame a ha fun hmem => hown (hsub a hmem)
  freed := hf.freed

theorem drop_own (hf : Frees l own h h₁) (hown : ∀ a ∈ own, a ∈ l.map Prod.fst) :
    Frees l [] h h₁ where
  gone := hf.gone
  frame := fun a ha _ => hf.frame a ha fun hmem => ha (hown a hmem)
  freed := hf.freed

theorem perm (hf : Frees l₁ own h h₁) (hperm : l₁.Perm l₂) : Frees l₂ own h h₁ where
  gone := fun a ha => hf.gone a ((hperm.map Prod.fst).mem_iff.mpr ha)
  frame := fun a ha => hf.frame a fun hmem => ha ((hperm.map Prod.fst).mem_iff.mp hmem)
  freed := by
    obtain ⟨calls, heq, hcalls⟩ := hf.freed
    exact ⟨calls, heq, hcalls.trans hperm⟩

end Frees

theorem Heap.exists_free {h : Heap} {a : Addr} {b : Block} (hb : h.block a = some b) (size : Nat) :
    ∃ h', h.free a size = some h' ∧ Frees [(a, size)] [] h h' := by
  have hfree : h.free a size =
      some { block := Function.update h.block a none, freed := h.freed ++ [(a, size)] } :=
    if_pos (by rw [hb, Option.isSome_some])
  refine ⟨_, hfree, ?_, ?_, ⟨_, rfl, List.Perm.refl _⟩⟩
  · simp
  · intro c hc _
    have hne : c ≠ a := by simpa using hc
    exact Function.update_of_ne hne ..

end BlockHeap
end CKern
