import CKern.Library.ReflectedBits
import Mathlib.Algebra.Polynomial.Inductions
import Mathlib.Tactic.LinearCombination

/-!
# `math/hash/crc32.c`: the cyclic redundancy check

* `precomputed`, `update2`, `update`, `value`, `calculate`: the table and the functions.
* `messagePoly`: the message as a polynomial, with its first bits complemented.
* `mk_reflectPoly_update2`: the running remainder after any part of the message.
* `value_eq_remainder`: the value is the reversed and complemented remainder of a division, whatever
  blocks the message is cut into.
-/

namespace CKern

open Polynomial ReflectedBits

namespace Crc32

/-! ## The code -/

/-- `s_crc32_precomputed`. -/
def precomputed : List (BitVec 32) :=
   [0x00000000, 0x77073096, 0xee0e612c, 0x990951ba, 0x076dc419, 0x706af48f, 0xe963a535, 0x9e6495a3,
    0x0edb8832, 0x79dcb8a4, 0xe0d5e91e, 0x97d2d988, 0x09b64c2b, 0x7eb17cbd, 0xe7b82d07, 0x90bf1d91,
    0x1db71064, 0x6ab020f2, 0xf3b97148, 0x84be41de, 0x1adad47d, 0x6ddde4eb, 0xf4d4b551, 0x83d385c7,
    0x136c9856, 0x646ba8c0, 0xfd62f97a, 0x8a65c9ec, 0x14015c4f, 0x63066cd9, 0xfa0f3d63, 0x8d080df5,
    0x3b6e20c8, 0x4c69105e, 0xd56041e4, 0xa2677172, 0x3c03e4d1, 0x4b04d447, 0xd20d85fd, 0xa50ab56b,
    0x35b5a8fa, 0x42b2986c, 0xdbbbc9d6, 0xacbcf940, 0x32d86ce3, 0x45df5c75, 0xdcd60dcf, 0xabd13d59,
    0x26d930ac, 0x51de003a, 0xc8d75180, 0xbfd06116, 0x21b4f4b5, 0x56b3c423, 0xcfba9599, 0xb8bda50f,
    0x2802b89e, 0x5f058808, 0xc60cd9b2, 0xb10be924, 0x2f6f7c87, 0x58684c11, 0xc1611dab, 0xb6662d3d,
    0x76dc4190, 0x01db7106, 0x98d220bc, 0xefd5102a, 0x71b18589, 0x06b6b51f, 0x9fbfe4a5, 0xe8b8d433,
    0x7807c9a2, 0x0f00f934, 0x9609a88e, 0xe10e9818, 0x7f6a0dbb, 0x086d3d2d, 0x91646c97, 0xe6635c01,
    0x6b6b51f4, 0x1c6c6162, 0x856530d8, 0xf262004e, 0x6c0695ed, 0x1b01a57b, 0x8208f4c1, 0xf50fc457,
    0x65b0d9c6, 0x12b7e950, 0x8bbeb8ea, 0xfcb9887c, 0x62dd1ddf, 0x15da2d49, 0x8cd37cf3, 0xfbd44c65,
    0x4db26158, 0x3ab551ce, 0xa3bc0074, 0xd4bb30e2, 0x4adfa541, 0x3dd895d7, 0xa4d1c46d, 0xd3d6f4fb,
    0x4369e96a, 0x346ed9fc, 0xad678846, 0xda60b8d0, 0x44042d73, 0x33031de5, 0xaa0a4c5f, 0xdd0d7cc9,
    0x5005713c, 0x270241aa, 0xbe0b1010, 0xc90c2086, 0x5768b525, 0x206f85b3, 0xb966d409, 0xce61e49f,
    0x5edef90e, 0x29d9c998, 0xb0d09822, 0xc7d7a8b4, 0x59b33d17, 0x2eb40d81, 0xb7bd5c3b, 0xc0ba6cad,
    0xedb88320, 0x9abfb3b6, 0x03b6e20c, 0x74b1d29a, 0xead54739, 0x9dd277af, 0x04db2615, 0x73dc1683,
    0xe3630b12, 0x94643b84, 0x0d6d6a3e, 0x7a6a5aa8, 0xe40ecf0b, 0x9309ff9d, 0x0a00ae27, 0x7d079eb1,
    0xf00f9344, 0x8708a3d2, 0x1e01f268, 0x6906c2fe, 0xf762575d, 0x806567cb, 0x196c3671, 0x6e6b06e7,
    0xfed41b76, 0x89d32be0, 0x10da7a5a, 0x67dd4acc, 0xf9b9df6f, 0x8ebeeff9, 0x17b7be43, 0x60b08ed5,
    0xd6d6a3e8, 0xa1d1937e, 0x38d8c2c4, 0x4fdff252, 0xd1bb67f1, 0xa6bc5767, 0x3fb506dd, 0x48b2364b,
    0xd80d2bda, 0xaf0a1b4c, 0x36034af6, 0x41047a60, 0xdf60efc3, 0xa867df55, 0x316e8eef, 0x4669be79,
    0xcb61b38c, 0xbc66831a, 0x256fd2a0, 0x5268e236, 0xcc0c7795, 0xbb0b4703, 0x220216b9, 0x5505262f,
    0xc5ba3bbe, 0xb2bd0b28, 0x2bb45a92, 0x5cb36a04, 0xc2d7ffa7, 0xb5d0cf31, 0x2cd99e8b, 0x5bdeae1d,
    0x9b64c2b0, 0xec63f226, 0x756aa39c, 0x026d930a, 0x9c0906a9, 0xeb0e363f, 0x72076785, 0x05005713,
    0x95bf4a82, 0xe2b87a14, 0x7bb12bae, 0x0cb61b38, 0x92d28e9b, 0xe5d5be0d, 0x7cdcefb7, 0x0bdbdf21,
    0x86d3d2d4, 0xf1d4e242, 0x68ddb3f8, 0x1fda836e, 0x81be16cd, 0xf6b9265b, 0x6fb077e1, 0x18b74777,
    0x88085ae6, 0xff0f6a70, 0x66063bca, 0x11010b5c, 0x8f659eff, 0xf862ae69, 0x616bffd3, 0x166ccf45,
    0xa00ae278, 0xd70dd2ee, 0x4e048354, 0x3903b3c2, 0xa7672661, 0xd06016f7, 0x4969474d, 0x3e6e77db,
    0xaed16a4a, 0xd9d65adc, 0x40df0b66, 0x37d83bf0, 0xa9bcae53, 0xdebb9ec5, 0x47b2cf7f, 0x30b5ffe9,
    0xbdbdf21c, 0xcabac28a, 0x53b39330, 0x24b4a3a6, 0xbad03605, 0xcdd70693, 0x54de5729, 0x23d967bf,
    0xb3667a2e, 0xc4614ab8, 0x5d681b02, 0x2a6f2b94, 0xb40bbe37, 0xc30c8ea1, 0x5a05df1b, 0x2d02ef8d]

/-- The body of the loop of `update2_crc32`. -/
def updateByte (value : BitVec 32) (next : UInt8) : BitVec 32 :=
  (value >>> 8) ^^^
    precomputed.getD ((next.toBitVec.setWidth 32 ^^^ value).setWidth 8 : BitVec 8).toNat 0

/-- `update2_crc32`. -/
def update2 (crcvalue : BitVec 32) (datablock : List UInt8) : BitVec 32 :=
  datablock.foldl updateByte crcvalue

/-- `calculate_crc32`. -/
def calculate (datablock : List UInt8) : BitVec 32 := update2 (-1) datablock ^^^ (-1)

end Crc32

/-- `crc32_t`. -/
structure Crc32 where
  value : BitVec 32

namespace Crc32

/-- `crc32_INIT`. -/
def init : Crc32 := ⟨-1⟩

/-- `update_crc32`. -/
def update (crc : Crc32) (datablock : List UInt8) : Crc32 := ⟨update2 crc.value datablock⟩

/-- `value_crc32`. -/
def valueCrc32 (crc : Crc32) : BitVec 32 := crc.value ^^^ (-1)

/-! ## The message as a polynomial -/

/-- The bits of the message. Those of a byte are reversed. -/
def messageBits (msg : List UInt8) : List Bool :=
  msg.flatMap fun b => (List.range 8).map b.toBitVec.getLsbD

/-- The bits with the first `n` ones complemented. -/
def complementFirst (n : ℕ) (l : List Bool) : List Bool := (l.take n).map (!·) ++ l.drop n

/-- The polynomial that is divided: 32 zero bits are appended to the message, and the first 32 bits
are complemented. -/
noncomputable def messagePoly (msg : List UInt8) : (ZMod 2)[X] :=
  ofBits (complementFirst 32 (messageBits msg ++ List.replicate 32 false))

/-- The polynomial that it is divided by. -/
noncomputable def divisor : (ZMod 2)[X] := poly 0x104C11DB7#33

/-- The divisor without its highest bit, reflected. -/
def reflected : BitVec 32 := 0xEDB88320

theorem divisor_eq : divisor = X ^ 32 + reflectPoly reflected := by
  have hbits : (List.range 33).map (0x104C11DB7#33).getMsbD =
      true :: (List.range 32).map reflected.getLsbD := by decide
  rw [divisor, poly, hbits, ofBits_cons, List.length_map, List.length_range]
  exact congrArg (· + reflectPoly reflected) (one_mul _)

theorem precomputed_eq :
    precomputed = (List.range 256).map fun n => (shiftStep reflected)^[8] (BitVec.ofNat 32 n) := by
  decide +kernel

/-! ## The loop -/

theorem getD_precomputed (i : BitVec 8) :
    precomputed.getD i.toNat 0 = (shiftStep reflected)^[8] (BitVec.ofNat 32 i.toNat) := by
  rw [precomputed_eq, List.getD_eq_getElem?_getD, List.getElem?_map,
    List.getElem?_range i.isLt]
  rfl

/-- **A byte** makes eight steps, after its bits have been added. -/
theorem updateByte_eq (v : BitVec 32) (b : UInt8) :
    updateByte v b = (shiftStep reflected)^[8] (v ^^^ b.toBitVec.setWidth 32) := by
  have hhigh : (v ^^^ b.toBitVec.setWidth 32) >>> 8 = v >>> 8 := by
    refine BitVec.eq_of_getLsbD_eq fun i _ => ?_
    rw [BitVec.getLsbD_ushiftRight, BitVec.getLsbD_ushiftRight, BitVec.getLsbD_xor,
      BitVec.getLsbD_setWidth, BitVec.getLsbD_of_ge b.toBitVec (8 + i) (Nat.le_add_right 8 i),
      Bool.and_false, Bool.xor_false]
  rw [updateByte, getD_precomputed, iterate_shiftStep_eq _ (v ^^^ _), hhigh, low,
    BitVec.xor_comm v, BitVec.ofNat_toNat]

theorem reflectPoly_setWidth (b : UInt8) :
    reflectPoly (b.toBitVec.setWidth 32 : BitVec 32) = X ^ 24 * ofBits (messageBits [b]) := by
  have hbits : (List.range 32).map (b.toBitVec.setWidth 32 : BitVec 32).getLsbD =
      messageBits [b] ++ List.replicate 24 false := by
    have hrange : List.range 32 = List.range 8 ++ (List.range 24).map (8 + ·) := rfl
    have hlow : (List.range 8).map (b.toBitVec.setWidth 32 : BitVec 32).getLsbD =
        messageBits [b] := by
      rw [messageBits, List.flatMap_singleton]
      refine List.map_congr_left fun i hi => ?_
      have hlt : i < 32 := (List.mem_range.mp hi).trans (by decide)
      rw [BitVec.getLsbD_setWidth, decide_eq_true hlt, Bool.true_and]
    have hhigh : ∀ i ∈ List.range 24,
        ((b.toBitVec.setWidth 32 : BitVec 32).getLsbD ∘ (8 + ·)) i = false := by
      intro i _
      rw [Function.comp_apply, BitVec.getLsbD_setWidth,
        BitVec.getLsbD_of_ge b.toBitVec (8 + i) (Nat.le_add_right 8 i), Bool.and_false]
    rw [hrange, List.map_append, hlow, List.map_map, List.map_eq_replicate_iff.mpr hhigh,
      List.length_range]
  rw [reflectPoly, hbits, ofBits_append, ofBits_replicate_false, List.length_replicate, add_zero,
    mul_comm]

theorem mk_reflectPoly_updateByte (v : BitVec 32) (b : UInt8) :
    AdjoinRoot.mk divisor (reflectPoly (updateByte v b)) =
      AdjoinRoot.mk divisor (X ^ 8 * reflectPoly v + X ^ 32 * ofBits (messageBits [b])) := by
  have hpoly : X ^ 8 * reflectPoly (v ^^^ b.toBitVec.setWidth 32) =
      X ^ 8 * reflectPoly v + X ^ 32 * ofBits (messageBits [b]) := by
    rw [reflectPoly_xor, reflectPoly_setWidth]
    ring
  rw [divisor_eq, updateByte_eq, mk_reflectPoly_iterate (by decide), hpoly]

theorem length_messageBits (msg : List UInt8) : (messageBits msg).length = 8 * msg.length := by
  induction msg with
  | nil => rfl
  | cons b msg ih =>
    rw [messageBits, List.flatMap_cons, List.length_append, List.length_map, List.length_range]
    rw [messageBits] at ih
    rw [ih, List.length_cons]
    ring

/-- **The running remainder.** -/
theorem mk_reflectPoly_update2 (v : BitVec 32) (msg : List UInt8) :
    AdjoinRoot.mk divisor (reflectPoly (update2 v msg)) =
      AdjoinRoot.mk divisor
        (X ^ (8 * msg.length) * reflectPoly v + X ^ 32 * ofBits (messageBits msg)) := by
  induction msg generalizing v with
  | nil =>
    rw [List.length_nil, mul_zero, pow_zero, one_mul, show ofBits (messageBits []) = 0 from rfl,
      mul_zero, add_zero]
    rfl
  | cons b msg ih =>
    have hbits : messageBits (b :: msg) = messageBits [b] ++ messageBits msg := rfl
    have hstep := mk_reflectPoly_updateByte v b
    rw [show update2 v (b :: msg) = update2 (updateByte v b) msg from rfl, ih, map_add, map_mul, hstep, ← map_mul, ← map_add, hbits, ofBits_append,
      length_messageBits, List.length_cons]
    refine congrArg _ ?_
    ring

theorem ofBits_complementFirst {n : ℕ} {l : List Bool} (h : n ≤ l.length) :
    ofBits (complementFirst n l) =
      ofBits l + ofBits (List.replicate n true) * X ^ (l.length - n) := by
  have hsplit : ofBits l = ofBits (l.take n) * X ^ (l.length - n) + ofBits (l.drop n) := by
    rw [← List.length_drop, ← ofBits_append, List.take_append_drop]
  rw [complementFirst, ofBits_append, ofBits_map_not, List.length_take_of_le h, List.length_drop,
    hsplit]
  ring

theorem messagePoly_eq (msg : List UInt8) :
    messagePoly msg = X ^ (8 * msg.length) * reflectPoly (-1 : BitVec 32) +
      X ^ 32 * ofBits (messageBits msg) := by
  have hones : (List.range 32).map (-1 : BitVec 32).getLsbD = List.replicate 32 true := by decide
  have hlen : (messageBits msg ++ List.replicate 32 false).length = 8 * msg.length + 32 := by
    rw [List.length_append, length_messageBits, List.length_replicate]
  rw [messagePoly, ofBits_complementFirst (hlen ▸ Nat.le_add_left 32 _), hlen,
    Nat.add_sub_cancel, ofBits_append, ofBits_replicate_false, List.length_replicate, reflectPoly,
    hones]
  ring

/-! ## The functions -/

theorem foldl_update (crc : Crc32) (blocks : List (List UInt8)) :
    blocks.foldl update crc = ⟨update2 crc.value blocks.flatten⟩ := by
  induction blocks generalizing crc with
  | nil => rfl
  | cons block blocks ih =>
    rw [List.foldl_cons, ih, List.flatten_cons, update2, update2, List.foldl_append]
    rfl

/-- **The value is a reversed and complemented remainder**, and that of a message in one block,
whatever blocks the message is cut into. -/
theorem value_eq_remainder (blocks : List (List UInt8)) :
    (∃ r : BitVec 32, (∀ r', poly r' = messagePoly blocks.flatten %ₘ divisor ↔ r' = r) ∧
        valueCrc32 (blocks.foldl update init) = ~~~r.reverse) ∧
      valueCrc32 (blocks.foldl update init) = calculate blocks.flatten := by
  rw [foldl_update]
  refine ⟨⟨(update2 (-1) blocks.flatten).reverse, ?_, ?_⟩, rfl⟩
  · have hmod : poly (update2 (-1) blocks.flatten).reverse =
        messagePoly blocks.flatten %ₘ divisor := by
      rw [poly_reverse, divisor_eq]
      refine eq_modByMonic ?_
      rw [← divisor_eq, mk_reflectPoly_update2, messagePoly_eq]
    intro r'
    rw [← hmod]
    exact ⟨fun h => poly_injective h, fun h => congrArg poly h⟩
  · have hones : (-1 : BitVec 32) = BitVec.allOnes 32 := by decide
    rw [BitVec.reverse_reverse_eq]
    exact (congrArg (update2 (-1) blocks.flatten ^^^ ·) hones).trans BitVec.xor_allOnes

/-! ## Errors in the message -/

theorem divisor_coprime_X : IsCoprime divisor X := by
  have hbits : (List.range 33).map (0x104C11DB7#33).getMsbD =
      (List.range 32).map (0x104C11DB7#33).getMsbD ++ [true] := by decide
  have hdiv := divX_mul_X_add divisor
  have hcoeff : divisor.coeff 0 = 1 := by
    rw [divisor, poly, hbits, ofBits_concat, coeff_add, mul_coeff_zero, coeff_X_zero, mul_zero,
      zero_add]
    exact coeff_one_zero
  rw [hcoeff, C_1] at hdiv
  refine ⟨1, -divX divisor, ?_⟩
  linear_combination (-1 : (ZMod 2)[X]) * hdiv

theorem degree_divisor : divisor.degree = 32 := by
  have hlow : (reflectPoly reflected).degree < (32 : ℕ) :=
    (degree_ofBits_lt _).trans_eq (by rw [List.length_map, List.length_range])
  rw [divisor_eq, degree_add_eq_left_of_degree_lt (hlow.trans_eq (degree_X_pow 32).symm),
    degree_X_pow]
  rfl

/-- Messages of the same length have the same value if and only if their difference is a multiple of
the divisor. -/
theorem calculate_eq_iff {msg msg' : List UInt8} (hlen : msg.length = msg'.length) :
    calculate msg = calculate msg' ↔
      divisor ∣ ofBits (messageBits msg) - ofBits (messageBits msg') := by
  have hsub : X ^ (8 * msg.length) * reflectPoly (-1 : BitVec 32) +
      X ^ 32 * ofBits (messageBits msg) - (X ^ (8 * msg'.length) * reflectPoly (-1 : BitVec 32) +
        X ^ 32 * ofBits (messageBits msg')) =
      X ^ 32 * (ofBits (messageBits msg) - ofBits (messageBits msg')) := by
    rw [hlen]
    ring
  have hmk := mk_reflectPoly_update2 (-1) msg
  have hmk' := mk_reflectPoly_update2 (-1) msg'
  rw [calculate, calculate, BitVec.xor_left_inj]
  constructor
  · intro h
    rw [h] at hmk
    have hdvd := AdjoinRoot.mk_eq_mk.mp (hmk.symm.trans hmk')
    rw [hsub] at hdvd
    exact divisor_coprime_X.pow_right.dvd_of_dvd_mul_left hdvd
  · intro h
    have hdvd := h.mul_left (X ^ 32)
    rw [← hsub] at hdvd
    have heq := hmk.trans (AdjoinRoot.mk_eq_mk.mpr hdvd)
    rw [divisor_eq] at heq hmk'
    have hpoly := (eq_modByMonic heq).trans (eq_modByMonic hmk').symm
    rw [← poly_reverse, ← poly_reverse] at hpoly
    have hrev := congrArg BitVec.reverse (poly_injective hpoly)
    rwa [BitVec.reverse_reverse_eq, BitVec.reverse_reverse_eq] at hrev

/-- **A burst of errors is detected**: two messages whose bits differ, and only within 32 of them in
a row, do not have the same value. -/
theorem calculate_ne_of_burst {msg msg' : List UInt8} {before burst burst' behind : List Bool}
    (h : messageBits msg = before ++ burst ++ behind)
    (h' : messageBits msg' = before ++ burst' ++ behind) (hlen : burst.length = burst'.length)
    (h32 : burst.length ≤ 32) (hne : burst ≠ burst') : calculate msg ≠ calculate msg' := by
  have hbits := length_messageBits msg
  have hbits' := length_messageBits msg'
  rw [h, List.length_append, List.length_append] at hbits
  rw [h', List.length_append, List.length_append] at hbits'
  have hdiff : ofBits (messageBits msg) - ofBits (messageBits msg') =
      X ^ behind.length * (ofBits burst - ofBits burst') := by
    rw [h, h', ofBits_append, ofBits_append, ofBits_append, ofBits_append, hlen]
    ring
  rw [Ne, calculate_eq_iff (by omega), hdiff]
  intro hdvd
  -- the divisor would divide a polynomial of a lower degree
  have hdvd' := divisor_coprime_X.pow_right.dvd_of_dvd_mul_left hdvd
  have hmonic : divisor.Monic := by
    rw [divisor_eq]
    exact monic_X_pow_add ((degree_ofBits_lt _).trans_eq (by
      rw [List.length_map, List.length_range]))
  have hlow : ∀ l : List Bool, l.length ≤ 32 → (ofBits l).degree < divisor.degree := fun l hl => by
    rw [degree_divisor]
    exact (degree_ofBits_lt l).trans_le (by exact_mod_cast hl)
  refine hmonic.not_dvd_of_degree_lt (fun h0 => hne (ofBits_injective hlen (sub_eq_zero.mp h0)))
    ((degree_sub_le _ _).trans_lt (max_lt (hlow _ h32) (hlow _ (hlen ▸ h32)))) hdvd'

/-- One bit of `abc`. -/
theorem calculate_ne_of_burst_bit :
    messageBits [97, 98, 99] = (messageBits [97, 98, 99]).take 9 ++ [true] ++
        (messageBits [97, 98, 99]).drop 10 ∧
      calculate [97, 98, 99] ≠ calculate [97, 96, 99] :=
  ⟨by decide, @calculate_ne_of_burst _ _ ((messageBits [97, 98, 99]).take 9) [true] [false]
    ((messageBits [97, 98, 99]).drop 10) (by decide) (by decide) rfl (by decide) (by decide)⟩

end Crc32
end CKern
