import Mathlib.Data.Nat.Bits
import Mathlib.Data.Nat.Bitwise
import Mathlib.Data.List.Basic
import Mathlib.Tactic.IntervalCases

/-!
# The keys of a patricia trie

A key is read in blocks that a callback of the owner delivers.  Behind its last byte a key has an
end marker of eight ones, and then zeros.

* `extByte`, `extBit`: the bytes and the bits of a key with its end marker.
* `GetkeyData`, `GetkeyAdapter`: a block of a key, and the callback with its contract.
* `getbit`, `getFirstDifferentBit`, `isKeyEqual`: what the trie asks of a key.  A read outside of a
  block has no result.
* `blockwise`: a callback that fulfils the contract.
* `Reads`: a block from which the key can be read on.
* `getbit_reads`, `getFirstDifferentBit_eq`, `isKeyEqual_eq`: the three answers, however the key is
  cut into blocks.
-/

namespace CKern
namespace Patricia

/-! ## Bits -/

/-- The bit of a byte under the mask `0x80>>i`. -/
def keyBit (b : UInt8) (i : ℕ) : Bool := (b &&& ((0x80 : UInt8) >>> UInt8.ofNat i)) != 0

/-- A byte of the key with its end marker. -/
def extByte (bytes : List UInt8) (n : ℕ) : UInt8 := (bytes ++ [0xFF]).getD n 0

def extBit (bytes : List UInt8) (j : ℕ) : Bool := keyBit (extByte bytes (j / 8)) (j % 8)

theorem keyBit_eq_testBit (b : UInt8) {i : ℕ} (hi : i < 8) :
    keyBit b i = b.toNat.testBit (7 - i) := by
  have hmask : ((0x80 : UInt8) >>> UInt8.ofNat i).toNat = 2 ^ (7 - i) := by
    interval_cases i <;> rfl
  have hzero : (b &&& ((0x80 : UInt8) >>> UInt8.ofNat i)) = 0 ↔
      b.toNat.testBit (7 - i) = false := by
    rw [← UInt8.toNat_inj, UInt8.toNat_and, hmask, Nat.and_two_pow]
    cases b.toNat.testBit (7 - i) <;> simp
  unfold keyBit
  cases hbit : b.toNat.testBit (7 - i) with
  | false => simp [hzero.mpr hbit]
  | true =>
    have : (b &&& ((0x80 : UInt8) >>> UInt8.ofNat i)) ≠ 0 := fun h => by simp [hzero.mp h] at hbit
    simpa using this

theorem keyBit_xor (a b : UInt8) {i : ℕ} (hi : i < 8) :
    keyBit (a ^^^ b) i = (keyBit a i ^^ keyBit b i) := by
  rw [keyBit_eq_testBit _ hi, keyBit_eq_testBit _ hi, keyBit_eq_testBit _ hi, UInt8.toNat_xor,
    Nat.testBit_xor]

theorem eq_of_keyBit {a b : UInt8} (h : ∀ i < 8, keyBit a i = keyBit b i) : a = b := by
  rw [← UInt8.toNat_inj]
  refine Nat.eq_of_testBit_eq fun k => ?_
  rcases Nat.lt_or_ge k 8 with hk | hk
  · have := h (7 - k) (by omega)
    rwa [keyBit_eq_testBit _ (by omega), keyBit_eq_testBit _ (by omega),
      show 7 - (7 - k) = k by omega] at this
  · have hpow : 2 ^ 8 ≤ 2 ^ k := Nat.pow_le_pow_right (by decide) hk
    rw [Nat.testBit_lt_two_pow (lt_of_lt_of_le a.toNat_lt hpow),
      Nat.testBit_lt_two_pow (lt_of_lt_of_le b.toNat_lt hpow)]

theorem keyBit_marker {i : ℕ} (hi : i < 8) : keyBit 0xFF i = true := by
  interval_cases i <;> rfl

theorem keyBit_zero (i : ℕ) : keyBit 0 i = false := by
  simp [keyBit]

theorem extByte_of_lt {bytes : List UInt8} {n : ℕ} (h : n < bytes.length) :
    bytes[n]? = some (extByte bytes n) := by
  simp [extByte, List.getElem?_append_left h, h]

@[simp] theorem extByte_length (bytes : List UInt8) : extByte bytes bytes.length = 0xFF := by
  simp [extByte]

theorem extByte_of_gt {bytes : List UInt8} {n : ℕ} (h : bytes.length < n) :
    extByte bytes n = 0 := by
  rw [extByte, List.getD_eq_getElem?_getD, List.getElem?_eq_none (by simp; omega)]
  rfl

theorem extBit_agree_iff {x y : List UInt8} {n : ℕ} :
    (∀ j < 8 * n, extBit x j = extBit y j) ↔ ∀ i < n, extByte x i = extByte y i := by
  constructor
  · intro h i hi
    refine eq_of_keyBit fun k hk => ?_
    have := h (8 * i + k) (by omega)
    rwa [extBit, extBit, show (8 * i + k) / 8 = i by omega,
      show (8 * i + k) % 8 = k by omega] at this
  · intro h j hj
    rw [extBit, extBit, h (j / 8) (by omega)]

/-! ## Blocks of a key -/

variable {Addr : Type}

/-- `getkey_data_t`: a block of a key.  The bytes from `offset` to `endoffset` are at `addr`, which
is never null here. -/
structure GetkeyData (Addr : Type) where
  addr : List UInt8
  offset : ℕ
  endoffset : ℕ
  streamsize : ℕ
  object : Option Addr
  implPtr : ℕ
  deriving DecidableEq

/-- `initfullkey_getkeydata`: a key in a single block, for which the callback is not needed. -/
def initfullkeyGetkeydata (addr : List UInt8) : GetkeyData Addr where
  addr := addr
  offset := 0
  endoffset := addr.length
  streamsize := addr.length
  object := none
  implPtr := 0

/-- `init1_getkeydata`: the first block of the key of an object.  The callback does not read the
fields other than `object` and `implPtr`. -/
def init1Getkeydata (getkey : GetkeyData Addr → ℕ → GetkeyData Addr) (obj : Addr) :
    GetkeyData Addr :=
  getkey ⟨[], 0, 0, 0, some obj, 0⟩ 0

/-- What the callback has delivered for a key so far, if it was asked for offset 0 or for one inside
of the key. -/
inductive Served (getkey : GetkeyData Addr → ℕ → GetkeyData Addr) : GetkeyData Addr → Prop
  | first (obj : Addr) : Served getkey (init1Getkeydata getkey obj)
  | again {key : GetkeyData Addr} {offset : ℕ} (hkey : Served getkey key)
      (hoffset : offset = 0 ∨ offset < key.streamsize) : Served getkey (getkey key offset)

/-- The postcondition of the callback: a block of the key with the byte at the given offset. -/
structure Block (bytes : List UInt8) (offset : ℕ) (key : GetkeyData Addr) : Prop where
  streamsize : key.streamsize = bytes.length
  offset_le : key.offset ≤ offset
  lt_endoffset : bytes ≠ [] → offset < key.endoffset
  endoffset_le : key.endoffset ≤ bytes.length
  byte : ∀ i, key.offset ≤ i → i < key.endoffset → key.addr[i - key.offset]? = bytes[i]?

/-- `getkey_adapter_t`: the callback that delivers the keys of the objects, block by block.  Asked
for the end of a block, it delivers one that starts there. -/
structure GetkeyAdapter (Addr : Type) where
  getkey : GetkeyData Addr → ℕ → GetkeyData Addr
  /-- The key that an object has. -/
  key : Addr → List UInt8
  object_first : ∀ obj, (init1Getkeydata getkey obj).object = some obj
  block_first : ∀ obj, Block (key obj) 0 (init1Getkeydata getkey obj)
  object_again : ∀ k offset, Served getkey k → (offset = 0 ∨ offset < k.streamsize) →
    (getkey k offset).object = k.object
  block_again : ∀ k offset obj, Served getkey k → k.object = some obj →
    (offset = 0 ∨ offset < k.streamsize) → Block (key obj) offset (getkey k offset)
  offset_again : ∀ k, Served getkey k → k.endoffset < k.streamsize →
    (getkey k k.endoffset).offset = k.endoffset

section Blockwise

variable (n : ℕ) (key : Addr → List UInt8)

/-- A callback that delivers `n + 1` bytes at once. -/
def blockwiseGetkey (k : GetkeyData Addr) (offset : ℕ) : GetkeyData Addr :=
  let bytes := (k.object.map key).getD []
  ⟨(bytes.drop offset).take (n + 1), offset, min (offset + (n + 1)) bytes.length, bytes.length,
    k.object, k.implPtr⟩

theorem streamsize_blockwise {k : GetkeyData Addr} (h : Served (blockwiseGetkey n key) k) :
    k.streamsize = ((k.object.map key).getD []).length := by
  cases h <;> rfl

theorem block_blockwise {k : GetkeyData Addr} {obj : Addr} (hobj : k.object = some obj) {offset : ℕ}
    (hoffset : offset = 0 ∨ offset < (key obj).length) :
    Block (key obj) offset (blockwiseGetkey n key k offset) := by
  unfold blockwiseGetkey
  rw [hobj]
  refine ⟨rfl, le_rfl, fun hne => ?_, min_le_right _ _, fun i hlo hhi => ?_⟩
  · have := List.length_pos_of_ne_nil hne
    simp only [Option.map_some, Option.getD_some]
    omega
  · simp only [Option.map_some, Option.getD_some] at hlo hhi ⊢
    rw [List.getElem?_take_of_lt (by omega), List.getElem?_drop,
      show offset + (i - offset) = i by omega]

/-- The contract of the callback can be met for all keys, in blocks of any size. -/
def blockwise : GetkeyAdapter Addr where
  getkey := blockwiseGetkey n key
  key := key
  object_first _ := rfl
  block_first obj := block_blockwise n key rfl (.inl rfl)
  object_again _ _ _ _ := rfl
  block_again k offset obj hk hobj hoffset := by
    refine block_blockwise n key hobj (hoffset.imp_right fun h => ?_)
    rw [streamsize_blockwise n key hk, hobj] at h
    exact h
  offset_again _ _ _ := rfl

end Blockwise

/-- The byte of the key at an offset, which must be inside of the block. -/
def GetkeyData.byteAt (key : GetkeyData Addr) (byteoffset : ℕ) : Option UInt8 :=
  if key.offset ≤ byteoffset then key.addr[byteoffset - key.offset]? else none

variable (A : GetkeyAdapter Addr)

def getbitinit (key : GetkeyData Addr) (bitoffset : ℕ) : GetkeyData Addr :=
  let byteoffset := bitoffset / 8
  -- go back in stream
  if byteoffset < key.offset then A.getkey key byteoffset else key

def getbit (key : GetkeyData Addr) (bitoffset : ℕ) : Option (GetkeyData Addr × Bool) :=
  let byteoffset := bitoffset / 8
  if key.endoffset ≤ byteoffset then
    if key.streamsize ≤ byteoffset then some (key, byteoffset == key.streamsize)
    else
      -- go forward in stream
      let key := A.getkey key byteoffset
      (key.byteAt byteoffset).map fun b => (key, keyBit b (bitoffset % 8))
  else (key.byteAt byteoffset).map fun b => (key, keyBit b (bitoffset % 8))

/-! ## Comparing two keys -/

/-- A block and the place in it where a pointer stands. -/
structure Cursor (Addr : Type) where
  key : GetkeyData Addr
  pos : ℕ

namespace Cursor

/-- The byte under the pointer. -/
def byte (c : Cursor Addr) : Option UInt8 := c.key.addr[c.pos]?

def next (c : Cursor Addr) : Cursor Addr := { c with pos := c.pos + 1 }

/-- The pointer at the start of another block. -/
def refill (c : Cursor Addr) (offset : ℕ) : Cursor Addr := ⟨A.getkey c.key offset, 0⟩

end Cursor

/-- The loop over `n` bytes of two keys from an offset on, up to a pair of different bytes. -/
def compareBytes : ℕ → ℕ → Cursor Addr → Cursor Addr →
    Option (ℕ × Cursor Addr × Cursor Addr × Option (UInt8 × UInt8))
  | 0, offset, f, n => some (offset, f, n, none)
  | k + 1, offset, f, n => do
    let bf ← f.byte
    let bn ← n.byte
    if bf ≠ bn then some (offset, f, n, some (bf, bn))
    else compareBytes k (offset + 1) f.next n.next

/-- The loop over `n` bytes of a key from an offset on, up to one that is not zero. -/
def skipZeros : ℕ → ℕ → Cursor Addr → Option (ℕ × Cursor Addr × Option UInt8)
  | 0, offset, c => some (offset, c, none)
  | k + 1, offset, c => do
    let b ← c.byte
    if b ≠ 0 then some (offset, c, some b) else skipZeros k (offset + 1) c.next

/-- The loop over the rest of the longer key, when the other one is extended by zeros. -/
def compareZeros : ℕ → ℕ → Cursor Addr → Option (ℕ × UInt8 × GetkeyData Addr)
  | 0, _, _ => none
  | fuel + 1, offset, c => do
    let (offset, c, b) ← skipZeros (c.key.endoffset - offset) offset c
    match b with
    | some b => some (offset, b, c.key)
    | none =>
      if offset = c.key.streamsize then some (offset, 0xFF, c.key)
      else compareZeros fuel offset (c.refill A offset)

/-- The comparison of the longer key with the end marker of the other one, and with the zeros behind
it: the offset, the byte of the longer key and the one of the other. -/
def compareEnd (fuel offset : ℕ) (c : Cursor Addr) :
    Option (ℕ × UInt8 × UInt8 × GetkeyData Addr) := do
  let b ← c.byte
  if b ≠ 0xFF then some (offset, b, 0xFF, c.key)
  else
    let (offset, b, key) ← compareZeros A fuel (offset + 1) c.next
    some (offset, b, 0, key)

/-- The loop of `get_first_different_bit` over the blocks: the block where the new key stands at the
end, and if the keys are different, the offset and the two bytes. -/
def compareKeys : ℕ → ℕ → Cursor Addr → Cursor Addr →
    Option (GetkeyData Addr × Option (ℕ × UInt8 × UInt8))
  | 0, _, _, _ => none
  | fuel + 1, offset, f, n => do
    let (offset, f, n, d) ←
      compareBytes (min f.key.endoffset n.key.endoffset - offset) offset f n
    match d with
    | some (bf, bn) => some (n.key, some (offset, bf, bn))
    | none =>
      if offset = n.key.endoffset ∧ offset = n.key.streamsize then
        if offset = f.key.endoffset ∧ offset = f.key.streamsize then some (n.key, none)
        else
          let f := if offset = f.key.endoffset then f.refill A offset else f
          let (offset, bf, bn, _) ← compareEnd A fuel offset f
          some (n.key, some (offset, bf, bn))
      else
        let n := if offset = n.key.endoffset then n.refill A offset else n
        if offset = f.key.endoffset ∧ offset = f.key.streamsize then
          let (offset, bn, bf, key) ← compareEnd A fuel offset n
          some (key, some (offset, bf, bn))
        else
          let f := if offset = f.key.endoffset then f.refill A offset else f
          compareKeys fuel offset f n

/-- The loop over the masks: the offset of the first bit that is set, and its mask. -/
def firstBit : ℕ → UInt8 → UInt8 → ℕ → Option (ℕ × UInt8)
  | 0, _, _, _ => none
  | k + 1, mask, b, offset =>
    if mask &&& b = 0 then firstBit k (mask >>> 1) b (offset + 1) else some (offset, mask)

/-- `get_first_different_bit`: the block where the new key stands at the end, and the offset of the
bit with its value in the new key.  There is no bit if the keys are equal (`EEXIST`). -/
def getFirstDifferentBit (fuel : ℕ) (foundkey newkey : GetkeyData Addr) :
    Option (GetkeyData Addr × Option (ℕ × Bool)) := do
  let foundkey := if foundkey.offset ≠ 0 then A.getkey foundkey 0 else foundkey
  let newkey := if newkey.offset ≠ 0 then A.getkey newkey 0 else newkey
  let (newkey, d) ← compareKeys A fuel 0 ⟨foundkey, 0⟩ ⟨newkey, 0⟩
  match d with
  | none => some (newkey, none)
  | some (offset, bf, bn) =>
    let (offset, mask) ← firstBit 8 0x80 (bf ^^^ bn) (offset * 8)
    some (newkey, some (offset, bn &&& mask != 0))

/-- The loop of `is_key_equal` for a key in a single block. -/
def equalFull : ℕ → ℕ → Cursor Addr → Cursor Addr → Option (GetkeyData Addr × Bool)
  | 0, _, _, _ => none
  | fuel + 1, offset, f, c => do
    let (offset, f, c, d) ← compareBytes (f.key.endoffset - offset) offset f c
    match d with
    | some _ => some (c.key, false)
    | none =>
      if offset = f.key.streamsize then some (c.key, true)
      else equalFull fuel offset (f.refill A offset) c

/-- The loop of `is_key_equal` for a key in several blocks. -/
def equalBlocks : ℕ → ℕ → Cursor Addr → Cursor Addr → Option (GetkeyData Addr × Bool)
  | 0, _, _, _ => none
  | fuel + 1, offset, f, c => do
    let (offset, f, c, d) ←
      compareBytes (min f.key.endoffset c.key.endoffset - offset) offset f c
    match d with
    | some _ => some (c.key, false)
    | none =>
      if offset = f.key.endoffset ∧ offset = f.key.streamsize then some (c.key, true)
      else
        let f := if offset = f.key.endoffset then f.refill A offset else f
        let c := if offset = c.key.endoffset then c.refill A offset else c
        equalBlocks fuel offset f c

/-- `is_key_equal`, with the block where the key stands at the end. -/
def isKeyEqual (fuel : ℕ) (foundnode : Addr) (cmpkey : GetkeyData Addr) :
    Option (GetkeyData Addr × Bool) :=
  let foundkey := init1Getkeydata A.getkey foundnode
  if foundkey.streamsize = cmpkey.streamsize then
    let cmpkey := if cmpkey.offset ≠ 0 then A.getkey cmpkey 0 else cmpkey
    if cmpkey.endoffset = cmpkey.streamsize then equalFull A fuel 0 ⟨foundkey, 0⟩ ⟨cmpkey, 0⟩
    else equalBlocks A fuel 0 ⟨foundkey, 0⟩ ⟨cmpkey, 0⟩
  else some (cmpkey, false)

/-! ## Reading a key on -/

/-- A block of a key from which the other blocks can be reached. -/
structure Reads (bytes : List UInt8) (key : GetkeyData Addr) : Prop where
  streamsize : key.streamsize = bytes.length
  offset_le : key.offset ≤ key.endoffset
  offset_lt : bytes ≠ [] → key.offset < key.endoffset
  endoffset_le : key.endoffset ≤ bytes.length
  byte : ∀ i, key.offset ≤ i → i < key.endoffset → key.addr[i - key.offset]? = bytes[i]?
  /-- The block is the whole key, or the callback has delivered it. -/
  source : (key.offset = 0 ∧ key.endoffset = bytes.length) ∨
    ∃ obj, key.object = some obj ∧ A.key obj = bytes ∧ Served A.getkey key

section Reads

variable {A} {bytes : List UInt8} {key : GetkeyData Addr}

theorem reads_full (bytes : List UInt8) : Reads A bytes (initfullkeyGetkeydata bytes) where
  streamsize := rfl
  offset_le := Nat.zero_le _
  offset_lt := List.length_pos_of_ne_nil
  endoffset_le := le_rfl
  byte _ _ _ := rfl
  source := .inl ⟨rfl, rfl⟩

theorem Block.reads {offset : ℕ} (h : Block bytes offset key)
    (hoffset : offset = 0 ∨ offset < bytes.length) {obj : Addr} (hobj : key.object = some obj)
    (hbytes : A.key obj = bytes) (hserved : Served A.getkey key) : Reads A bytes key where
  streamsize := h.streamsize
  offset_le := by
    have hle := h.offset_le
    by_cases hnil : bytes = []
    · subst hnil
      simp only [List.length_nil] at hoffset
      omega
    · exact Nat.le_of_lt (Nat.lt_of_le_of_lt hle (h.lt_endoffset hnil))
  offset_lt hnil := Nat.lt_of_le_of_lt h.offset_le (h.lt_endoffset hnil)
  endoffset_le := h.endoffset_le
  byte := h.byte
  source := .inr ⟨obj, hobj, hbytes, hserved⟩

theorem reads_init1 (obj : Addr) : Reads A (A.key obj) (init1Getkeydata A.getkey obj) :=
  (A.block_first obj).reads (.inl rfl) (A.object_first obj) rfl (.first obj)

theorem offset_init1 (obj : Addr) : (init1Getkeydata A.getkey obj).offset = 0 :=
  Nat.le_zero.mp (A.block_first obj).offset_le

theorem Reads.seek (h : Reads A bytes key) {offset : ℕ}
    (hoffset : offset < key.offset ∨ key.endoffset ≤ offset ∧ offset < bytes.length) :
    Reads A bytes (A.getkey key offset) ∧ (A.getkey key offset).offset ≤ offset ∧
      offset < (A.getkey key offset).endoffset ∧
      (offset = key.endoffset → (A.getkey key offset).offset = offset) := by
  have hoffset_le := h.offset_le
  have hend_le := h.endoffset_le
  have hlt : offset < bytes.length := by omega
  rcases h.source with ⟨hzero, hend⟩ | ⟨obj, hobj, hbytes, hserved⟩
  · omega
  · have hsize : offset < key.streamsize := h.streamsize ▸ hlt
    have hblock := A.block_again key offset obj hserved hobj (.inr hsize)
    rw [hbytes] at hblock
    have hobj' := (A.object_again key offset hserved (.inr hsize)).trans hobj
    refine ⟨hblock.reads (.inr hlt) hobj' hbytes (.again hserved (.inr hsize)), hblock.offset_le,
      hblock.lt_endoffset (by rintro rfl; cases hlt), ?_⟩
    rintro rfl
    exact A.offset_again key hserved hsize

theorem Reads.byteAt (h : Reads A bytes key) {i : ℕ} (hlo : key.offset ≤ i)
    (hhi : i < key.endoffset) : key.byteAt i = some (extByte bytes i) := by
  unfold GetkeyData.byteAt
  rw [if_pos hlo, h.byte i hlo hhi]
  exact extByte_of_lt (Nat.lt_of_lt_of_le hhi h.endoffset_le)

theorem getbitinit_reads (h : Reads A bytes key) (j : ℕ) :
    Reads A bytes (getbitinit A key j) ∧ (getbitinit A key j).offset ≤ j / 8 := by
  unfold getbitinit
  by_cases hlt : j / 8 < key.offset
  · obtain ⟨hreads, hle, -⟩ := h.seek (.inl hlt)
    simp only [hlt, if_true]
    exact ⟨hreads, hle⟩
  · simp only [hlt, if_false]
    exact ⟨h, Nat.le_of_not_lt hlt⟩

/-- **A bit of a key**, when the block does not start behind it. -/
theorem getbit_reads (h : Reads A bytes key) {j : ℕ} (hj : key.offset ≤ j / 8) :
    ∃ key', getbit A key j = some (key', extBit bytes j) ∧ Reads A bytes key' ∧
      key'.offset ≤ j / 8 := by
  unfold getbit
  by_cases hend : key.endoffset ≤ j / 8
  · simp only [if_pos hend]
    by_cases hsize : key.streamsize ≤ j / 8
    · refine ⟨key, ?_, h, hj⟩
      rw [if_pos hsize, h.streamsize]
      rw [h.streamsize] at hsize
      rcases Nat.eq_or_lt_of_le hsize with heq | hlt
      · simp [extBit, ← heq, keyBit_marker (Nat.mod_lt j (by decide))]
      · simp [extBit, extByte_of_gt hlt, keyBit_zero, Nat.ne_of_gt hlt]
    · have hlt : j / 8 < bytes.length := h.streamsize ▸ Nat.lt_of_not_le hsize
      obtain ⟨hreads, hle, hlt', -⟩ := h.seek (.inr ⟨hend, hlt⟩)
      refine ⟨_, ?_, hreads, hle⟩
      rw [if_neg hsize, hreads.byteAt hle hlt']
      rfl
  · refine ⟨key, ?_, h, hj⟩
    simp only [if_neg hend]
    rw [h.byteAt hj (Nat.lt_of_not_le hend)]
    rfl

theorem getbit_full (bytes : List UInt8) (j : ℕ) :
    getbit A (initfullkeyGetkeydata bytes) j =
      some (initfullkeyGetkeydata bytes, extBit bytes j) := by
  obtain ⟨key', hkey', -⟩ := getbit_reads (reads_full (A := A) bytes) (j := j) (Nat.zero_le _)
  have hsame : ∀ b, getbit A (initfullkeyGetkeydata bytes) j = some (key', b) →
      key' = initfullkeyGetkeydata bytes := by
    intro b hb
    unfold getbit at hb
    by_cases hend : (initfullkeyGetkeydata bytes : GetkeyData Addr).endoffset ≤ j / 8
    · have hsize : (initfullkeyGetkeydata bytes : GetkeyData Addr).streamsize ≤ j / 8 := hend
      simp only [if_pos hend, if_pos hsize, Option.some.injEq, Prod.mk.injEq] at hb
      exact hb.1.symm
    · simp only [if_neg hend, Option.map_eq_some_iff, Prod.mk.injEq] at hb
      obtain ⟨_, -, hkey, -⟩ := hb
      exact hkey.symm
  rw [hkey', hsame _ hkey']

end Reads

/-! ## The first different bit -/

/-- The keys have the same bytes from one offset to another. -/
def Agree (x y : List UInt8) (lo hi : ℕ) : Prop := ∀ i, lo ≤ i → i < hi → extByte x i = extByte y i

/-- The first different byte from an offset on. -/
structure FirstDiff (x y : List UInt8) (lo i : ℕ) : Prop where
  le : lo ≤ i
  ne : extByte x i ≠ extByte y i
  below : Agree x y lo i

theorem FirstDiff.extend {x y : List UInt8} {lo mid i : ℕ} (h : FirstDiff x y mid i)
    (hle : lo ≤ mid) (hagree : Agree x y lo mid) : FirstDiff x y lo i where
  le := hle.trans h.le
  ne := h.ne
  below j hlo hhi := by
    rcases Nat.lt_or_ge j mid with hj | hj
    · exact hagree j hlo hj
    · exact h.below j hj hhi

theorem FirstDiff.swap {x y : List UInt8} {lo i : ℕ} (h : FirstDiff x y lo i) :
    FirstDiff y x lo i where
  le := h.le
  ne := h.ne.symm
  below j hlo hhi := (h.below j hlo hhi).symm

theorem firstDiff_self {x y : List UInt8} {i : ℕ} (h : extByte x i ≠ extByte y i) :
    FirstDiff x y i i where
  le := le_rfl
  ne := h
  below _ hlo hhi := absurd hhi (Nat.not_lt.mpr hlo)

theorem Agree.succ {x y : List UInt8} {lo hi : ℕ} (h : Agree x y (lo + 1) hi)
    (hlo : extByte x lo = extByte y lo) : Agree x y lo hi := by
  intro i hle hlt
  rcases Nat.eq_or_lt_of_le hle with rfl | hlt'
  · exact hlo
  · exact h i hlt' hlt

theorem eq_of_agree {x y : List UInt8} (hlen : x.length = y.length)
    (h : Agree x y 0 x.length) : x = y := by
  refine List.ext_getElem? fun i => ?_
  rcases Nat.lt_or_ge i x.length with hi | hi
  · rw [extByte_of_lt hi, extByte_of_lt (hlen ▸ hi), h i (Nat.zero_le i) hi]
  · rw [List.getElem?_eq_none hi, List.getElem?_eq_none (hlen ▸ hi)]

/-- A pointer that stands at an offset of a key, or at the end of a block. -/
structure Cursor.At (bytes : List UInt8) (offset : ℕ) (c : Cursor Addr) : Prop where
  reads : Reads A bytes c.key
  pos : c.key.offset + c.pos = offset
  le : offset ≤ c.key.endoffset

section Compare

variable {A} {x y : List UInt8} {offset fuel : ℕ} {f n c : Cursor Addr}

theorem Cursor.at_start {key : GetkeyData Addr} (h : Reads A x key) (hzero : key.offset = 0) :
    Cursor.At A x 0 ⟨key, 0⟩ := ⟨h, hzero, Nat.zero_le _⟩

theorem Cursor.At.byte (h : c.At A x offset) (hlt : offset < c.key.endoffset) :
    c.byte = some (extByte x offset) := by
  have hpos := h.pos
  have hbyte := h.reads.byte offset (by omega) hlt
  rw [show offset - c.key.offset = c.pos by omega] at hbyte
  rw [Cursor.byte, hbyte]
  exact extByte_of_lt (Nat.lt_of_lt_of_le hlt h.reads.endoffset_le)

theorem Cursor.At.next (h : c.At A x offset) (hlt : offset < c.key.endoffset) :
    c.next.At A x (offset + 1) where
  reads := h.reads
  pos := by
    have := h.pos
    simp only [Cursor.next]
    omega
  le := hlt

theorem Cursor.At.le_length (h : c.At A x offset) : offset ≤ x.length :=
  h.le.trans h.reads.endoffset_le

/-- The pointer stands before the end of a block, or at the end of the key. -/
def Cursor.Ready (x : List UInt8) (offset : ℕ) (c : Cursor Addr) : Prop :=
  offset < c.key.endoffset ∨ offset = x.length

theorem Cursor.At.refill (h : c.At A x offset) (hsize : offset ≠ x.length) :
    (if offset = c.key.endoffset then c.refill A offset else c).At A x offset ∧
      offset < (if offset = c.key.endoffset then c.refill A offset else c).key.endoffset := by
  have hlen := h.le_length
  have hle := h.le
  by_cases hend : offset = c.key.endoffset
  · obtain ⟨hreads, -, hlt, hoffset⟩ :=
      h.reads.seek (.inr ⟨hend.symm.le, Nat.lt_of_le_of_ne hlen hsize⟩)
    rw [if_pos hend]
    exact ⟨⟨hreads, hoffset hend, hlt.le⟩, hlt⟩
  · rw [if_neg hend]
    exact ⟨h, Nat.lt_of_le_of_ne hle hend⟩

theorem compareBytes_spec (k : ℕ) (hf : f.At A x offset) (hn : n.At A y offset)
    (hkf : offset + k ≤ f.key.endoffset) (hkn : offset + k ≤ n.key.endoffset) :
    ∃ i f' n' d, compareBytes k offset f n = some (i, f', n', d) ∧
      f'.At A x i ∧ n'.At A y i ∧ f'.key = f.key ∧ n'.key = n.key ∧
      ((d = none ∧ i = offset + k ∧ Agree x y offset i) ∨
        (d = some (extByte x i, extByte y i) ∧ FirstDiff x y offset i)) := by
  induction k generalizing offset f n with
  | zero =>
    refine ⟨offset, f, n, none, rfl, hf, hn, rfl, rfl, .inl ⟨rfl, rfl, ?_⟩⟩
    intro i hlo hhi
    omega
  | succ k ih =>
    have hltf : offset < f.key.endoffset := by omega
    have hltn : offset < n.key.endoffset := by omega
    rw [compareBytes, hf.byte hltf, hn.byte hltn]
    simp only [Option.bind_eq_bind, Option.bind_some]
    by_cases hne : extByte x offset = extByte y offset
    · rw [if_neg (not_not.mpr hne)]
      obtain ⟨i, f', n', d, heq, hf', hn', hkeyf, hkeyn, hd⟩ :=
        ih (hf.next hltf) (hn.next hltn) (by simp only [Cursor.next]; omega)
          (by simp only [Cursor.next]; omega)
      refine ⟨i, f', n', d, heq, hf', hn', hkeyf, hkeyn, ?_⟩
      rcases hd with ⟨rfl, rfl, hagree⟩ | ⟨rfl, hdiff⟩
      · exact .inl ⟨rfl, by omega, hagree.succ hne⟩
      · refine .inr ⟨rfl, hdiff.extend (Nat.le_succ offset) ?_⟩
        intro j hlo hhi
        rwa [show j = offset by omega]
    · rw [if_pos hne]
      exact ⟨offset, f, n, _, rfl, hf, hn, rfl, rfl, .inr ⟨rfl, firstDiff_self hne⟩⟩

theorem skipZeros_spec (k : ℕ) (hc : c.At A x offset) (hk : offset + k ≤ c.key.endoffset) :
    ∃ i c' b, skipZeros k offset c = some (i, c', b) ∧ c'.At A x i ∧ c'.key = c.key ∧
      offset ≤ i ∧ (∀ j, offset ≤ j → j < i → extByte x j = 0) ∧
      ((b = none ∧ i = offset + k) ∨ (b = some (extByte x i) ∧ extByte x i ≠ 0)) := by
  induction k generalizing offset c with
  | zero =>
    refine ⟨offset, c, none, rfl, hc, rfl, le_rfl, fun j hlo hhi => by omega, .inl ⟨rfl, rfl⟩⟩
  | succ k ih =>
    have hlt : offset < c.key.endoffset := by omega
    rw [skipZeros, hc.byte hlt]
    simp only [Option.bind_eq_bind, Option.bind_some]
    by_cases hzero : extByte x offset = 0
    · rw [if_neg (not_not.mpr hzero)]
      obtain ⟨i, c', b, heq, hc', hkey, hle, hbelow, hb⟩ :=
        ih (hc.next hlt) (by simp only [Cursor.next]; omega)
      refine ⟨i, c', b, heq, hc', hkey, by omega, ?_, hb.imp_left fun h => ⟨h.1, by omega⟩⟩
      intro j hlo hhi
      rcases Nat.eq_or_lt_of_le hlo with rfl | hlt'
      · exact hzero
      · exact hbelow j hlt' hhi
    · rw [if_pos hzero]
      exact ⟨offset, c, _, rfl, hc, rfl, le_rfl, fun j hlo hhi => by omega, .inr ⟨rfl, hzero⟩⟩

theorem compareZeros_spec (hc : c.At A x offset) (hy : y.length < offset)
    (hfuel : x.length + 2 ≤ offset + fuel ∨
      x.length + 1 ≤ offset + fuel ∧ c.Ready x offset) :
    ∃ i key, compareZeros A fuel offset c = some (i, extByte x i, key) ∧ Reads A x key ∧
      FirstDiff x y offset i ∧ extByte y i = 0 := by
  have hzero : ∀ {j}, offset ≤ j → extByte y j = 0 := fun hj =>
    extByte_of_gt (Nat.lt_of_lt_of_le hy hj)
  induction fuel generalizing offset c with
  | zero =>
    have := hc.le_length
    omega
  | succ fuel ih =>
    have hle := hc.le
    obtain ⟨i, c', b, heq, hc', hkey, hlei, hbelow, hb⟩ :=
      skipZeros_spec (c.key.endoffset - offset) hc (by omega)
    have hagree : Agree x y offset i := fun j hlo hhi => by rw [hbelow j hlo hhi, hzero hlo]
    rw [compareZeros, heq]
    simp only [Option.bind_eq_bind, Option.bind_some]
    rcases hb with ⟨rfl, hi⟩ | ⟨rfl, hne⟩
    · have hiend : i = c'.key.endoffset := by
        rw [hkey]
        omega
      by_cases hsize : i = c'.key.streamsize
      · rw [hc'.reads.streamsize] at hsize
        refine ⟨i, c'.key, ?_, hc'.reads, ?_, hzero hlei⟩
        · simp [hc'.reads.streamsize, hsize]
        · refine ⟨hlei, ?_, hagree⟩
          rw [hzero hlei, hsize, extByte_length]
          decide
      · simp only [if_neg hsize]
        rw [hc'.reads.streamsize] at hsize
        obtain ⟨hat, hlt⟩ := hc'.refill hsize
        rw [if_pos hiend] at hat hlt
        have hlen := hc'.le_length
        obtain ⟨k, key, heq', hreads, hdiff, hzero'⟩ := ih hat (by omega)
          (.inr ⟨by
            rcases hfuel with h | ⟨h, hready | hready⟩
            · omega
            · omega
            · omega, .inl hlt⟩) (fun hj => hzero (hlei.trans hj))
        exact ⟨k, key, heq', hreads, hdiff.extend hlei hagree, hzero'⟩
    · refine ⟨i, c'.key, rfl, hc'.reads, ⟨hlei, ?_, hagree⟩, hzero hlei⟩
      rwa [hzero hlei]

theorem compareEnd_spec (hc : c.At A x offset) (hlt : offset < c.key.endoffset)
    (hy : y.length = offset) (hfuel : x.length + 1 ≤ offset + fuel) :
    ∃ i key, compareEnd A fuel offset c = some (i, extByte x i, extByte y i, key) ∧
      Reads A x key ∧ FirstDiff x y offset i := by
  have hmarker : extByte y offset = 0xFF := hy ▸ extByte_length y
  rw [compareEnd, hc.byte hlt]
  simp only [Option.bind_eq_bind, Option.bind_some]
  by_cases hne : extByte x offset = 0xFF
  · rw [if_neg (not_not.mpr hne)]
    obtain ⟨i, key, heq, hreads, hdiff, hzero⟩ :=
      compareZeros_spec (y := y) (hc.next hlt) (by omega)
        (.inl (show x.length + 2 ≤ offset + 1 + fuel by omega))
    rw [heq]
    refine ⟨i, key, ?_, hreads, hdiff.extend (Nat.le_succ offset) ?_⟩
    · simp [hzero]
    · intro j hlo hhi
      rw [show j = offset by omega, hne, hmarker]
  · rw [if_pos hne]
    refine ⟨offset, c.key, ?_, hc.reads, firstDiff_self ?_⟩
    · rw [hmarker]
    · rwa [hmarker]

/-- **The loop over the blocks** finds the first different byte, if there is one. -/
theorem compareKeys_spec (hf : f.At A x offset) (hn : n.At A y offset) (hrf : f.Ready x offset)
    (hrn : n.Ready y offset) (hfuelx : x.length + 2 ≤ offset + fuel)
    (hfuely : y.length + 2 ≤ offset + fuel) :
    ∃ key d, compareKeys A fuel offset f n = some (key, d) ∧ Reads A y key ∧
      ((d = none ∧ x.length = y.length ∧ Agree x y offset x.length) ∨
        ∃ i, d = some (i, extByte x i, extByte y i) ∧ FirstDiff x y offset i) := by
  induction fuel generalizing offset f n with
  | zero =>
    have := hf.le_length
    omega
  | succ fuel ih =>
    have hlef := hf.le
    have hlen := hn.le
    obtain ⟨i, f', n', d, heq, hf', hn', hkeyf, hkeyn, hd⟩ :=
      compareBytes_spec (min f.key.endoffset n.key.endoffset - offset) hf hn (by omega) (by omega)
    rw [compareKeys, heq]
    simp only [Option.bind_eq_bind, Option.bind_some]
    rcases hd with ⟨rfl, hi, hagree⟩ | ⟨rfl, hdiff⟩
    · have hei := hf'.reads.endoffset_le
      have hei' := hn'.reads.endoffset_le
      have hlei : offset ≤ i := by omega
      have hsizef := hf'.reads.streamsize
      have hsizen := hn'.reads.streamsize
      rw [← hkeyf, ← hkeyn] at hi
      simp only [hsizef, hsizen]
      by_cases hny : i = y.length
      · -- the new key ends here
        have hendn : i = n'.key.endoffset := by
          have := hn'.le
          omega
        rw [if_pos ⟨hendn, hny⟩]
        by_cases hfx : i = x.length
        · have hendf : i = f'.key.endoffset := by
            have := hf'.le
            omega
          rw [if_pos ⟨hendf, hfx⟩]
          exact ⟨_, _, rfl, hn'.reads, .inl ⟨rfl, hfx.symm.trans hny, hfx ▸ hagree⟩⟩
        · rw [if_neg fun h => hfx h.2]
          obtain ⟨hat, hlt⟩ := hf'.refill hfx
          obtain ⟨k, key, heq', -, hdiff⟩ :=
            compareEnd_spec (y := y) hat hlt hny.symm (show x.length + 1 ≤ i + fuel by omega)
          rw [heq']
          exact ⟨_, _, rfl, hn'.reads, .inr ⟨k, rfl, hdiff.extend hlei hagree⟩⟩
      · rw [if_neg fun h => hny h.2]
        obtain ⟨hatn, hltn⟩ := hn'.refill hny
        by_cases hfx : i = x.length
        · -- the key in the trie ends here
          have hendf : i = f'.key.endoffset := by
            have := hf'.le
            omega
          rw [if_pos ⟨hendf, hfx⟩]
          obtain ⟨k, key, heq', hreads, hdiff⟩ :=
            compareEnd_spec (y := x) hatn hltn hfx.symm (show y.length + 1 ≤ i + fuel by omega)
          rw [heq']
          exact ⟨_, _, rfl, hreads, .inr ⟨k, rfl, hdiff.swap.extend hlei hagree⟩⟩
        · rw [if_neg fun h => hfx h.2]
          obtain ⟨hatf, hltf⟩ := hf'.refill hfx
          -- both pointers were ready, so the loop has read at least one byte
          have hprogress : offset < i := by
            rw [Cursor.Ready, ← hkeyf] at hrf
            rw [Cursor.Ready, ← hkeyn] at hrn
            have := hf'.le
            omega
          obtain ⟨key, d, heq', hreads, hd⟩ := ih hatf hatn (.inl hltf) (.inl hltn) (by omega)
            (by omega)
          rw [heq']
          refine ⟨key, d, rfl, hreads, ?_⟩
          rcases hd with ⟨rfl, hlen', hagree'⟩ | ⟨k, rfl, hdiff⟩
          · refine .inl ⟨rfl, hlen', fun j hlo hhi => ?_⟩
            rcases Nat.lt_or_ge j i with hj | hj
            · exact hagree j hlo hj
            · exact hagree' j hj hhi
          · exact .inr ⟨k, rfl, hdiff.extend hlei hagree⟩
    · exact ⟨_, _, rfl, hn'.reads, .inr ⟨i, rfl, hdiff⟩⟩

end Compare

theorem firstBit_spec {b : UInt8} {i k : ℕ} (hik : i + k = 8) (offset : ℕ)
    (hset : ∃ j, i ≤ j ∧ j < 8 ∧ keyBit b j = true) :
    ∃ j, firstBit k ((0x80 : UInt8) >>> UInt8.ofNat i) b offset =
        some (offset + (j - i), (0x80 : UInt8) >>> UInt8.ofNat j) ∧
      i ≤ j ∧ j < 8 ∧ keyBit b j = true ∧ ∀ l, i ≤ l → l < j → keyBit b l = false := by
  induction k generalizing i offset with
  | zero =>
    obtain ⟨j, hij, hj, -⟩ := hset
    omega
  | succ k ih =>
    have hi : i < 8 := by omega
    have hmask : ((0x80 : UInt8) >>> UInt8.ofNat i &&& b = 0) ↔ keyBit b i = false := by
      rw [keyBit, UInt8.and_comm, bne_eq_false_iff_eq]
    rw [firstBit]
    by_cases hbit : keyBit b i = false
    · rw [if_pos (hmask.mpr hbit)]
      obtain ⟨j, hij, hj, hjset⟩ := hset
      have hne : j ≠ i := by
        rintro rfl
        rw [hbit] at hjset
        cases hjset
      have hshift : ((0x80 : UInt8) >>> UInt8.ofNat i) >>> 1 =
          (0x80 : UInt8) >>> UInt8.ofNat (i + 1) := by
        have : i < 7 := by omega
        interval_cases i <;> rfl
      rw [hshift]
      obtain ⟨m, heq, him, hm, hmset, hbelow⟩ :=
        ih (i := i + 1) (by omega) (offset + 1) ⟨j, by omega, hj, hjset⟩
      refine ⟨m, ?_, by omega, hm, hmset, ?_⟩
      · rw [heq, show offset + 1 + (m - (i + 1)) = offset + (m - i) by omega]
      · intro l hil hlm
        rcases Nat.eq_or_lt_of_le hil with rfl | hlt
        · exact hbit
        · exact hbelow l hlt hlm
    · rw [if_neg (fun h => hbit (hmask.mp h))]
      refine ⟨i, by simp, le_rfl, hi, by simpa using hbit, fun l hil hli => by omega⟩

section Answers

variable {A} {x y : List UInt8} {fuel : ℕ} {key : GetkeyData Addr}

theorem Reads.reset (h : Reads A x key) :
    Cursor.At A x 0 ⟨if key.offset ≠ 0 then A.getkey key 0 else key, 0⟩ ∧
      Cursor.Ready x 0 ⟨if key.offset ≠ 0 then A.getkey key 0 else key, 0⟩ := by
  have hready : ∀ {k : GetkeyData Addr}, Reads A x k → k.offset = 0 → Cursor.Ready x 0 ⟨k, 0⟩ := by
    intro k hk hzero
    by_cases hnil : x = []
    · exact .inr (by rw [hnil]; rfl)
    · have := hk.offset_lt hnil
      rw [hzero] at this
      exact .inl this
  by_cases hzero : key.offset ≠ 0
  · obtain ⟨hreads, hle, -⟩ := h.seek (.inl (Nat.pos_of_ne_zero hzero))
    rw [if_pos hzero]
    exact ⟨Cursor.at_start hreads (Nat.le_zero.mp hle), hready hreads (Nat.le_zero.mp hle)⟩
  · rw [if_neg hzero]
    exact ⟨Cursor.at_start h (not_not.mp hzero), hready h (not_not.mp hzero)⟩

/-- **The first different bit** of two keys, with its value in the new one. -/
theorem getFirstDifferentBit_eq {foundkey newkey : GetkeyData Addr} (hfound : Reads A x foundkey)
    (hnew : Reads A y newkey) (hfuelx : x.length + 2 ≤ fuel) (hfuely : y.length + 2 ≤ fuel) :
    ∃ key d, getFirstDifferentBit A fuel foundkey newkey = some (key, d) ∧ Reads A y key ∧
      ((d = none ∧ x = y) ∨
        ∃ j, d = some (j, extBit y j) ∧ extBit x j ≠ extBit y j ∧
          ∀ l < j, extBit x l = extBit y l) := by
  obtain ⟨hatf, hreadyf⟩ := hfound.reset
  obtain ⟨hatn, hreadyn⟩ := hnew.reset
  obtain ⟨key, d, heq, hreads, hd⟩ :=
    compareKeys_spec hatf hatn hreadyf hreadyn (show x.length + 2 ≤ 0 + fuel by omega) (by omega)
  rw [getFirstDifferentBit]
  simp only [heq, Option.bind_eq_bind, Option.bind_some]
  rcases hd with ⟨rfl, hlen, hagree⟩ | ⟨i, rfl, hdiff⟩
  · exact ⟨key, none, rfl, hreads, .inl ⟨rfl, eq_of_agree hlen hagree⟩⟩
  · have hset : ∃ j, 0 ≤ j ∧ j < 8 ∧ keyBit (extByte x i ^^^ extByte y i) j = true := by
      by_contra hnone
      refine hdiff.ne (eq_of_keyBit fun j hj => ?_)
      by_contra hbit
      refine hnone ⟨j, Nat.zero_le j, hj, ?_⟩
      rw [keyBit_xor _ _ hj]
      simpa using hbit
    obtain ⟨j, hj, -, hlt, hbit, hbelow⟩ := firstBit_spec (i := 0) (k := 8) rfl (i * 8) hset
    rw [show ((0x80 : UInt8) >>> UInt8.ofNat 0) = 0x80 from rfl] at hj
    simp only [hj, Option.bind_some]
    have hdiv : (i * 8 + (j - 0)) / 8 = i := by omega
    have hmod : (i * 8 + (j - 0)) % 8 = j := by omega
    refine ⟨key, _, rfl, hreads, .inr ⟨i * 8 + (j - 0), ?_, ?_, ?_⟩⟩
    · rw [extBit, hdiv, hmod, keyBit]
    · rw [extBit, extBit, hdiv, hmod]
      rw [keyBit_xor _ _ hlt] at hbit
      simpa using hbit
    · intro l hl
      rw [extBit, extBit]
      rcases Nat.lt_or_ge (l / 8) i with hlt' | hge
      · rw [hdiff.below _ (Nat.zero_le _) hlt']
      · have heqi : l / 8 = i := by omega
        have := hbelow (l % 8) (Nat.zero_le _) (by omega)
        rw [keyBit_xor _ _ (Nat.mod_lt l (by decide))] at this
        rw [heqi]
        simpa using this

theorem equalFull_spec {offset : ℕ} {f c : Cursor Addr} (hf : f.At A x offset)
    (hc : c.At A y offset) (hready : f.Ready x offset) (hlen : x.length = y.length)
    (hfull : c.key.endoffset = y.length) (hagree : Agree x y 0 offset)
    (hfuel : x.length + 1 ≤ offset + fuel) :
    equalFull A fuel offset f c = some (c.key, decide (x = y)) := by
  induction fuel generalizing offset f c with
  | zero =>
    have := hf.le_length
    omega
  | succ fuel ih =>
    have hle := hf.le
    have hend := hf.reads.endoffset_le
    obtain ⟨i, f', c', d, heq, hf', hc', hkeyf, hkeyc, hd⟩ :=
      compareBytes_spec (f.key.endoffset - offset) hf hc (by omega) (by omega)
    rw [equalFull, heq]
    simp only [Option.bind_eq_bind, Option.bind_some]
    rcases hd with ⟨rfl, hi, hagree'⟩ | ⟨rfl, hdiff⟩
    · have hagreei : Agree x y 0 i := by
        intro j hlo hhi
        rcases Nat.lt_or_ge j offset with hj | hj
        · exact hagree j hlo hj
        · exact hagree' j hj hhi
      simp only [hf'.reads.streamsize]
      by_cases hsize : i = x.length
      · rw [if_pos hsize, hkeyc, decide_eq_true (eq_of_agree hlen (hsize ▸ hagreei))]
      · rw [if_neg hsize]
        obtain ⟨hat, hlt⟩ := hf'.refill hsize
        rw [if_pos (by rw [hkeyf]; omega)] at hat hlt
        have hprogress : offset < i := by
          rw [Cursor.Ready] at hready
          omega
        rw [ih hat hc' (.inl hlt) (hkeyc ▸ hfull) hagreei (by omega), hkeyc]
    · have hne : x ≠ y := by
        rintro rfl
        exact hdiff.ne rfl
      rw [hkeyc, decide_eq_false hne]

/-- **The comparison of a key** in a single block with the key of an object. -/
theorem isKeyEqual_eq (foundnode : Addr) (bytes : List UInt8)
    (hfuel : (A.key foundnode).length + 1 ≤ fuel) :
    isKeyEqual A fuel foundnode (initfullkeyGetkeydata bytes) =
      some (initfullkeyGetkeydata bytes, decide (A.key foundnode = bytes)) := by
  have hfound := reads_init1 (A := A) foundnode
  have hfull := reads_full (A := A) bytes
  obtain ⟨hat, hready⟩ := hfound.reset
  rw [if_neg (not_not.mpr (offset_init1 foundnode))] at hat hready
  unfold isKeyEqual
  simp only [hfound.streamsize, hfull.streamsize]
  by_cases hlen : (A.key foundnode).length = bytes.length
  · have hzero : ¬(initfullkeyGetkeydata bytes : GetkeyData Addr).offset ≠ 0 := not_not.mpr rfl
    have hwhole : (initfullkeyGetkeydata bytes : GetkeyData Addr).endoffset =
        (initfullkeyGetkeydata bytes : GetkeyData Addr).streamsize := rfl
    simp only [if_pos hlen, if_neg hzero, if_pos hwhole]
    exact equalFull_spec hat (Cursor.at_start hfull rfl) hready hlen rfl
      (fun i _ hi => absurd hi (Nat.not_lt_zero i)) (by omega)
  · rw [if_neg hlen, decide_eq_false fun h => hlen (congrArg List.length h)]

end Answers

end Patricia
end CKern
