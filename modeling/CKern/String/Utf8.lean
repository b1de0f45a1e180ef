import Mathlib.Data.List.Basic
import Mathlib.Tactic.IntervalCases

/-!
# `string/utf8.c`: the byte classes of UTF-8

The encoding of the library is the original one, with sequences of one to six bytes for the
values up to `0x7fffffff`.

* `bytesPerChar`: the table `g_utf8_bytesperchar`, read by `sizePfirst`.
* `IsSequence`: a well formed sequence that is not overlong, stated by value and not by the byte
  ranges that the code compares with.
-/

namespace CKern
namespace Utf8

/-- `maxsize_utf8()`. -/
def maxsize : Nat := 6

/-- `maxchar_utf8()`. -/
def maxchar : Nat := 0x7fffffff

/-- The table `g_utf8_bytesperchar`.  The bytes `128 .. 191` start no sequence but are mapped
to `1`, and `254`, `255` share the entry of `252`, `253`. -/
def bytesPerChar : List Nat :=
  [1, 1, 1, 1, 1, 1, 1, 1, 1, 1, 1, 1, 1, 1, 1, 1, 1, 1, 1, 1, 1, 1, 1, 1, 1, 1, 1, 1, 1, 1, 1, 1,
   1, 1, 1, 1, 1, 1, 1, 1, 1, 1, 1, 1, 1, 1, 1, 1,
   2, 2, 2, 2, 2, 2, 2, 2,
   3, 3, 3, 3,
   4, 4,
   5,
   6]

/-- `sizePfirst_utf8(firstbyte)`. -/
def sizePfirst (firstbyte : UInt8) : Nat := bytesPerChar.getD (firstbyte.toNat / 4) 0

theorem bytesPerChar_getD :
    ∀ n < 64, bytesPerChar.getD n 0 =
      if n < 48 then 1 else if n < 56 then 2 else if n < 60 then 3 else if n < 62 then 4
      else if n < 63 then 5 else 6 := by
  decide

theorem sizePfirst_eq (b : UInt8) :
    sizePfirst b =
      if b.toNat < 192 then 1 else if b.toNat < 224 then 2 else if b.toNat < 240 then 3
      else if b.toNat < 248 then 4 else if b.toNat < 252 then 5 else 6 := by
  have hb := b.toNat_lt
  rw [sizePfirst, bytesPerChar_getD _ (by omega)]
  split_ifs <;> omega

theorem sizePfirst_pos (b : UInt8) : 0 < sizePfirst b := by
  rw [sizePfirst_eq]
  split_ifs <;> omega

theorem sizePfirst_le_maxsize (b : UInt8) : sizePfirst b ≤ maxsize := by
  rw [sizePfirst_eq, maxsize]
  split_ifs <;> omega

/-! ## Following bytes -/

/-- The test of the code on a following byte: `(byte & 0xC0) == 0x80`. -/
def isFollow (b : UInt8) : Bool := (b &&& 0xC0) == 0x80

theorem land_0xC0_eq : ∀ n < 256, (n &&& 0xC0 = 0x80 ↔ 128 ≤ n ∧ n < 192) := by
  decide +kernel

theorem isFollow_iff (b : UInt8) : isFollow b = true ↔ 128 ≤ b.toNat ∧ b.toNat < 192 := by
  rw [isFollow, beq_iff_eq, ← UInt8.toNat_inj, UInt8.toNat_and]
  exact land_0xC0_eq _ b.toNat_lt

/-! ## Well formed sequences -/

/-- The least value that needs a sequence of `n` bytes. -/
def minValue : Nat → Nat
  | 2 => 0x80
  | 3 => 0x800
  | 4 => 0x10000
  | 5 => 0x200000
  | 6 => 0x4000000
  | _ => 0

/-- The first byte of a sequence of `n` bytes without any payload bit. -/
def leadByte : Nat → Nat
  | 2 => 0xC0
  | 3 => 0xE0
  | 4 => 0xF0
  | 5 => 0xF8
  | 6 => 0xFC
  | _ => 0

/-- The number of values of the payload of a first byte of a sequence of `n` bytes. -/
def leadCount : Nat → Nat
  | 2 => 32
  | 3 => 16
  | 4 => 8
  | 5 => 4
  | 6 => 2
  | _ => 128

/-- The payload of the following bytes, appended to the payload `acc` read so far. -/
def payload (acc : Nat) (bs : List UInt8) : Nat :=
  bs.foldl (fun acc b => acc * 64 + (b.toNat - 0x80)) acc

@[simp] theorem payload_nil (acc : Nat) : payload acc [] = acc := rfl

@[simp] theorem payload_cons (acc : Nat) (b : UInt8) (bs : List UInt8) :
    payload acc (b :: bs) = payload (acc * 64 + (b.toNat - 0x80)) bs :=
  List.foldl_cons ..

/-- A well formed sequence: a first byte that announces its length, following bytes in
`0x80 .. 0xBF`, and a value that no shorter sequence encodes. -/
def IsSequence : List UInt8 → Prop
  | [] => False
  | b :: bs =>
      bs.length < maxsize ∧
      leadByte (bs.length + 1) ≤ b.toNat ∧
      b.toNat < leadByte (bs.length + 1) + leadCount (bs.length + 1) ∧
      (∀ c ∈ bs, 0x80 ≤ c.toNat ∧ c.toNat < 0xC0) ∧
      minValue (bs.length + 1) ≤ payload (b.toNat - leadByte (bs.length + 1)) bs

/-- A text: well formed sequences one after the other. -/
inductive IsText : List UInt8 → Prop
  | nil : IsText []
  | append {s t : List UInt8} : IsSequence s → IsText t → IsText (s ++ t)

end Utf8
end CKern
