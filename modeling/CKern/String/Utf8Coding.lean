import CKern.String.Utf8Validator
import Mathlib.Data.Nat.Bitwise
import Mathlib.Order.Nat

/-!
# `string/utf8.c`: coding and counting characters

* `encodechar`, `decodechar`, `lengthUtf8`: the functions of the module.  A read outside of the string
  is `none`.
* `encodechar_spec`, `encodechar_value`, `decodechar_of_isSequence`: the three agree with the
  sequences that are accepted by the validator.
* `lengthUtf8_eq`: the number of pieces, if a string is cut by `sizePfirst`.
* `codingAgrees_iff`: bytes that can start no character are counted too.
-/

namespace CKern
namespace Utf8

/-! ## The code -/

/-- `sizechar_utf8`. -/
def sizechar (uchar : ℕ) : ℕ :=
  1 + (if uchar > 0x7f then 1 else 0) + (if uchar > 0x7ff then 1 else 0) +
    (if uchar > 0xffff then 1 else 0) + (if uchar > 0x1fffff then 1 else 0) +
    (if uchar > 0x3FFFFFF then 1 else 0)

/-- A following byte with six bits of a character. -/
def followByte (uchar shift : ℕ) : UInt8 := UInt8.ofNat (0x80 ||| (uchar >>> shift &&& 0x3f))

/-- `encodechar_utf8`: the bytes that are written, whose number is the return value. -/
def encodechar (uchar strsize : ℕ) : List UInt8 :=
  if uchar ≤ 0xffff then
    if uchar ≤ 0x7f then
      if strsize < 1 then [] else [UInt8.ofNat uchar]
    else if uchar ≤ 0x7ff then
      if strsize < 2 then [] else [UInt8.ofNat (0xC0 ||| uchar >>> 6), followByte uchar 0]
    else
      if strsize < 3 then []
      else [UInt8.ofNat (0xE0 ||| uchar >>> 12), followByte uchar 6, followByte uchar 0]
  else if uchar ≤ 0x1fffff then
    if strsize < 4 then []
    else [UInt8.ofNat (0xF0 ||| uchar >>> 18), followByte uchar 12, followByte uchar 6,
      followByte uchar 0]
  else if uchar ≤ 0x3FFFFFF then
    if strsize < 5 then []
    else [UInt8.ofNat (0xF8 ||| uchar >>> 24), followByte uchar 18, followByte uchar 12,
      followByte uchar 6, followByte uchar 0]
  else if uchar ≤ 0x7FFFFFFF then
    if strsize < 6 then []
    else [UInt8.ofNat (0xFC ||| uchar >>> 30), followByte uchar 24, followByte uchar 18,
      followByte uchar 12, followByte uchar 6, followByte uchar 0]
  else []

/-- `decodechar_utf8`: the return value and `*uchar`, which is not written if the first byte is not
valid. -/
def decodechar (str : ℕ → Option UInt8) (uchar : ℕ) : Option (ℕ × ℕ) := do
  let firstbyte ← str 0
  let first := firstbyte.toNat
  if first ≤ 127 then return (1, first)
  else if first ≤ 193 then return (0, uchar)
  else if first ≤ 223 then
    let uchr := (first &&& 0x1F) <<< 6
    let b1 ← str 1
    return (2, uchr ||| (b1.toNat ^^^ 0x80))
  else if first ≤ 239 then
    let uchr := (first &&& 0xF) <<< 12
    let b1 ← str 1
    let uchr := uchr ^^^ b1.toNat <<< 6
    let b2 ← str 2
    let uchr := uchr ^^^ b2.toNat
    return (3, uchr ^^^ (0x80 <<< 6 ||| 0x80))
  else if first ≤ 247 then
    let uchr := (first &&& 0x7) <<< 18
    let b1 ← str 1
    let uchr := uchr ^^^ b1.toNat <<< 12
    let b2 ← str 2
    let uchr := uchr ^^^ b2.toNat <<< 6
    let b3 ← str 3
    let uchr := uchr ^^^ b3.toNat
    return (4, uchr ^^^ ((0x80 <<< 6 ||| 0x80) <<< 6 ||| 0x80))
  else if first ≤ 251 then
    let uchr := (first &&& 0x3) <<< 24
    let b1 ← str 1
    let uchr := uchr ^^^ b1.toNat <<< 18
    let b2 ← str 2
    let uchr := uchr ^^^ b2.toNat <<< 12
    let b3 ← str 3
    let uchr := uchr ^^^ b3.toNat <<< 6
    let b4 ← str 4
    let uchr := uchr ^^^ b4.toNat
    return (5, uchr ^^^ (((0x80 <<< 6 ||| 0x80) <<< 6 ||| 0x80) <<< 6 ||| 0x80))
  else if first ≤ 253 then
    let uchr := (first &&& 0x1) <<< 30
    let b1 ← str 1
    let uchr := uchr ^^^ b1.toNat <<< 24
    let b2 ← str 2
    let uchr := uchr ^^^ b2.toNat <<< 18
    let b3 ← str 3
    let uchr := uchr ^^^ b3.toNat <<< 12
    let b4 ← str 4
    let uchr := uchr ^^^ b4.toNat <<< 6
    let b5 ← str 5
    let uchr := uchr ^^^ b5.toNat
    return (6, uchr ^^^ ((((0x80 <<< 6 ||| 0x80) <<< 6 ||| 0x80) <<< 6 ||| 0x80) <<< 6 ||| 0x80))
  else return (0, uchar)

/-- The fast loop of `length_utf8`, with `next` as an offset: the offset behind it, and the number of
characters. -/
def fastLoop (str : List UInt8) (stop : ℕ) : ℕ → ℕ → ℕ → Option (ℕ × ℕ)
  | 0, _, _ => none
  | fuel + 1, next, len => do
    let b ← str[next]?
    let next := next + sizePfirst b
    let len := len + 1
    if next ≤ stop then fastLoop str stop fuel next len else return (next, len)

/-- The slow loop of `length_utf8`. -/
def slowLoop (str : List UInt8) : ℕ → ℕ → ℕ → Option (ℕ × ℕ)
  | 0, _, _ => none
  | fuel + 1, next, len =>
    if next < str.length then do
      let b ← str[next]?
      let next := if str.length - next < sizePfirst b then str.length else next + sizePfirst b
      slowLoop str fuel next (len + 1)
    else return (next, len)

/-- The loops of `length_utf8`.  Every round goes on by a byte or more. -/
def lengthLoops (str : List UInt8) : Option (ℕ × ℕ) := do
  if 0 < str.length then
    let (next, len) ←
      if str.length ≥ maxsize then fastLoop str (str.length - maxsize) (str.length + 1) 0 0
      else pure (0, 0)
    slowLoop str (str.length + 1) next len
  else return (0, 0)

/-- `length_utf8`. -/
def lengthUtf8 (str : List UInt8) : Option ℕ := (lengthLoops str).map (·.2)

/-! ## What is said about them -/

/-- The byte can be the first one of a character. -/
def canStart (b : UInt8) : Bool := b.toNat ≤ 127 || (194 ≤ b.toNat && b.toNat ≤ 253)

/-- The pieces of a string that is cut by `sizePfirst`; bytes of the last one may be missing. -/
def cut : List UInt8 → List (List UInt8)
  | [] => []
  | b :: str => (b :: str.take (sizePfirst b - 1)) :: cut (str.drop (sizePfirst b - 1))
termination_by str => str.length
decreasing_by
  rw [List.length_drop, List.length_cons]
  omega

/-- The documented number of characters: a byte that can start no character is skipped. -/
def charCount : List UInt8 → ℕ
  | [] => 0
  | b :: str => (if canStart b then 1 else 0) + charCount (str.drop (sizePfirst b - 1))
termination_by str => str.length
decreasing_by
  rw [List.length_drop, List.length_cons]
  omega

/-- A character that is encoded into a buffer of `n` bytes. -/
structure EncodeSpec (c n : ℕ) : Prop where
  small : n < sizechar c → encodechar c n = []
  size : sizechar c ≤ n → (encodechar c n).length = sizechar c
  first : sizechar c ≤ n → ∃ b, (encodechar c n).head? = some b ∧ sizePfirst b = sizechar c
  accepted : sizechar c ≤ n →
    ∃ v, feed Validator.init [encodechar c n] = some (.ok v) ∧ v.free = true
  decoded : sizechar c ≤ n →
    ∀ uchar, decodechar (fun i => (encodechar c n)[i]?) uchar = some (sizechar c, c)

/-- A string whose pieces are decoded and encoded again. -/
structure RecodeSpec (str : List UInt8) : Prop where
  flatten : (cut str).flatten = str
  recode : ∀ p ∈ cut str, ∀ uchar, ∃ c, decodechar (fun i => p[i]?) uchar = some (p.length, c) ∧
    encodechar c p.length = p
  number : lengthUtf8 str = some (cut str).length

/-- A string whose characters are counted. -/
structure LengthSpec (str : List UInt8) : Prop where
  inside : ∃ len, lengthLoops str = some (str.length, len)
  count : lengthUtf8 str = some (charCount str)

/-- Everything that is said about the coding. -/
structure CodingAgrees (str : List UInt8) : Prop where
  encode : ∀ c ≤ maxchar, ∀ n, EncodeSpec c n
  recode : ∀ blocks v, blocks.flatten = str → feed Validator.init blocks = some (.ok v) →
    v.free = true → RecodeSpec str
  length : LengthSpec str

/-- All pieces start with a byte that can start a character. -/
def AllStart (str : List UInt8) : Prop :=
  ∀ p ∈ cut str, ∀ b, p.head? = some b → canStart b = true

/-! ## Payloads -/

variable {bs bs' s str : List UInt8} {acc acc' c n : ℕ}

/-- The character of a sequence. -/
def value : List UInt8 → ℕ
  | [] => 0
  | b :: bs => payload (b.toNat - leadByte (bs.length + 1)) bs

theorem payload_inj (hlen : bs.length = bs'.length)
    (h : ∀ b ∈ bs, 0x80 ≤ b.toNat ∧ b.toNat < 0xC0) (h' : ∀ b ∈ bs', 0x80 ≤ b.toNat ∧ b.toNat < 0xC0)
    (heq : payload acc bs = payload acc' bs') : acc = acc' ∧ bs = bs' := by
  induction bs generalizing acc acc' bs' with
  | nil =>
    rw [List.eq_nil_of_length_eq_zero hlen.symm] at heq ⊢
    exact ⟨heq, rfl⟩
  | cons b bs ih =>
    rcases bs' with _ | ⟨b', bs'⟩
    · exact absurd hlen nofun
    · rw [payload_cons, payload_cons] at heq
      obtain ⟨hacc, rfl⟩ := ih (Nat.succ.inj hlen) (fun x hx => h x (List.mem_cons_of_mem _ hx))
        (fun x hx => h' x (List.mem_cons_of_mem _ hx)) heq
      have hb := h b List.mem_cons_self
      have hb' := h' b' List.mem_cons_self
      have hbyte : b.toNat = b'.toNat := by omega
      rw [UInt8.toNat_inj.mp hbyte]
      exact ⟨by omega, rfl⟩

theorem isSequence_inj (hs : IsSequence s) (hs' : IsSequence str) (hlen : s.length = str.length)
    (hvalue : value s = value str) : s = str := by
  rcases s with _ | ⟨b, bs⟩
  · exact hs.elim
  rcases str with _ | ⟨b', bs'⟩
  · exact hs'.elim
  obtain ⟨-, hlo, -, hfol, -⟩ := hs
  obtain ⟨-, hlo', -, hfol', -⟩ := hs'
  have hlen' : bs.length = bs'.length := Nat.succ.inj hlen
  rw [value, value, hlen'] at hvalue
  obtain ⟨hlead, rfl⟩ := payload_inj hlen' hfol hfol' hvalue
  have hbyte : b.toNat = b'.toNat := by omega
  rw [UInt8.toNat_inj.mp hbyte]

theorem sizechar_of_bounds {k v : ℕ} (hk : k < maxsize) (hmin : minValue (k + 1) ≤ v)
    (hlt : v < 2 ^ (6 * k) * leadCount (k + 1)) : sizechar v = k + 1 := by
  rw [maxsize] at hk
  rw [sizechar]
  interval_cases k
  · have hlt : v < 0x80 := hlt
    rw [if_neg (show ¬v > 0x7f by omega), if_neg (show ¬v > 0x7ff by omega),
      if_neg (show ¬v > 0xffff by omega), if_neg (show ¬v > 0x1fffff by omega),
      if_neg (show ¬v > 0x3FFFFFF by omega)]
  · have hmin : 0x80 ≤ v := hmin
    have hlt : v < 0x800 := hlt
    rw [if_pos (show v > 0x7f by omega), if_neg (show ¬v > 0x7ff by omega),
      if_neg (show ¬v > 0xffff by omega), if_neg (show ¬v > 0x1fffff by omega),
      if_neg (show ¬v > 0x3FFFFFF by omega)]
  · have hmin : 0x800 ≤ v := hmin
    have hlt : v < 0x10000 := hlt
    rw [if_pos (show v > 0x7f by omega), if_pos (show v > 0x7ff by omega),
      if_neg (show ¬v > 0xffff by omega), if_neg (show ¬v > 0x1fffff by omega),
      if_neg (show ¬v > 0x3FFFFFF by omega)]
  · have hmin : 0x10000 ≤ v := hmin
    have hlt : v < 0x200000 := hlt
    rw [if_pos (show v > 0x7f by omega), if_pos (show v > 0x7ff by omega),
      if_pos (show v > 0xffff by omega), if_neg (show ¬v > 0x1fffff by omega),
      if_neg (show ¬v > 0x3FFFFFF by omega)]
  · have hmin : 0x200000 ≤ v := hmin
    have hlt : v < 0x4000000 := hlt
    rw [if_pos (show v > 0x7f by omega), if_pos (show v > 0x7ff by omega),
      if_pos (show v > 0xffff by omega), if_pos (show v > 0x1fffff by omega),
      if_neg (show ¬v > 0x3FFFFFF by omega)]
  · have hmin : 0x4000000 ≤ v := hmin
    have hlt : v < 0x80000000 := hlt
    rw [if_pos (show v > 0x7f by omega), if_pos (show v > 0x7ff by omega),
      if_pos (show v > 0xffff by omega), if_pos (show v > 0x1fffff by omega),
      if_pos (show v > 0x3FFFFFF by omega)]

theorem leadCount_le : ∀ k < maxsize, 2 ^ (6 * k) * leadCount (k + 1) ≤ maxchar + 1 := by decide

theorem sizechar_value (hs : IsSequence s) : sizechar (value s) = s.length ∧ value s ≤ maxchar := by
  rcases s with _ | ⟨b, bs⟩
  · exact hs.elim
  obtain ⟨hlen, hlo, hhi, hfol, hmin⟩ := hs
  have hlt := payload_lt (b.toNat - leadByte (bs.length + 1)) hfol
  have hpow : 64 ^ bs.length = 2 ^ (6 * bs.length) := (pow_mul 2 6 bs.length).symm
  rw [hpow, Nat.mul_comm] at hlt
  have hlead : b.toNat - leadByte (bs.length + 1) + 1 ≤ leadCount (bs.length + 1) := by omega
  have hbound := hlt.trans_le (Nat.mul_le_mul_left (2 ^ (6 * bs.length)) hlead)
  exact ⟨sizechar_of_bounds hlen hmin hbound,
    Nat.le_of_lt_succ (hbound.trans_le (leadCount_le bs.length hlen))⟩

/-! ## Encoding -/

theorem land_0x3f (x : ℕ) : x &&& 0x3f = x % 64 := Nat.and_two_pow_sub_one_eq_mod x 6

theorem toNat_followByte (uchar shift : ℕ) :
    (followByte uchar shift).toNat = 0x80 + uchar / 2 ^ shift % 64 := by
  have hlt : uchar / 2 ^ shift % 64 < 2 ^ 7 := by omega
  have hor : 0x80 ||| uchar / 2 ^ shift % 64 = 0x80 + uchar / 2 ^ shift % 64 :=
    (Nat.two_pow_add_eq_or_of_lt hlt 1).symm
  rw [followByte, land_0x3f, Nat.shiftRight_eq_div_pow, hor, UInt8.toNat_ofNat']
  omega

theorem followByte_bounds (uchar shift : ℕ) :
    0x80 ≤ (followByte uchar shift).toNat ∧ (followByte uchar shift).toNat < 0xC0 := by
  rw [toNat_followByte]
  omega

/-- The last `k` bytes of a sequence. -/
def followBytes (uchar : ℕ) : ℕ → List UInt8
  | 0 => []
  | k + 1 => followByte uchar (6 * k) :: followBytes uchar k

theorem length_followBytes (uchar k : ℕ) : (followBytes uchar k).length = k := by
  induction k with
  | zero => rfl
  | succ k ih => rw [followBytes, List.length_cons, ih]

theorem followBytes_bounds {uchar k : ℕ} :
    ∀ b ∈ followBytes uchar k, 0x80 ≤ b.toNat ∧ b.toNat < 0xC0 := by
  induction k with
  | zero => exact fun b hb => absurd hb List.not_mem_nil
  | succ k ih =>
    intro b hb
    rcases List.mem_cons.mp hb with rfl | hb
    · exact followByte_bounds _ _
    · exact ih b hb

theorem payload_followBytes (uchar k : ℕ) :
    payload (uchar / 2 ^ (6 * k)) (followBytes uchar k) = uchar := by
  induction k with
  | zero => exact Nat.div_one uchar
  | succ k ih =>
    have hpow : 2 ^ (6 * (k + 1)) = 2 ^ (6 * k) * 64 := by rw [Nat.mul_succ, Nat.pow_add]
    rw [followBytes, payload_cons, toNat_followByte, hpow, ← Nat.div_div_eq_div_mul,
      Nat.add_sub_cancel_left, Nat.div_add_mod', ih]

theorem isSequence_encode {k : ℕ} {b : UInt8} (hk : k < maxsize)
    (hb : b.toNat = leadByte (k + 1) + c / 2 ^ (6 * k)) (hc : c < 2 ^ (6 * k) * leadCount (k + 1))
    (hmin : minValue (k + 1) ≤ c) :
    IsSequence (b :: followBytes c k) ∧ value (b :: followBytes c k) = c := by
  have hlt : c / 2 ^ (6 * k) < leadCount (k + 1) := Nat.div_lt_of_lt_mul hc
  have hval : payload (b.toNat - leadByte (k + 1)) (followBytes c k) = c := by
    rw [hb, Nat.add_sub_cancel_left, payload_followBytes]
  rw [IsSequence, value, length_followBytes, hval, hb]
  exact ⟨⟨hk, Nat.le_add_right _ _, Nat.add_lt_add_left hlt _, followBytes_bounds, hmin⟩, rfl⟩

theorem toNat_lead (lead i m : ℕ) (hlead : lead = 2 ^ i * m) (hbyte : lead + 2 ^ i ≤ 256) {x : ℕ}
    (hx : x < 2 ^ i) : (UInt8.ofNat (lead ||| x)).toNat = lead + x := by
  rw [hlead, ← Nat.two_pow_add_eq_or_of_lt hx, UInt8.toNat_ofNat', ← hlead]
  exact Nat.mod_eq_of_lt (by omega)

/-- The sequence of a character: its first byte, and the number of the bytes behind. -/
structure Encodes (c k : ℕ) (b : UInt8) : Prop where
  lt : k < maxsize
  lead : b.toNat = leadByte (k + 1) + c / 2 ^ (6 * k)
  bound : c < 2 ^ (6 * k) * leadCount (k + 1)
  min : minValue (k + 1) ≤ c
  code : ∀ n, encodechar c n = if n < k + 1 then [] else b :: followBytes c k

/-- **Every character has a sequence**, which is written if there is room. -/
theorem exists_encodes (hc : c ≤ maxchar) : ∃ k b, Encodes c k b := by
  rw [maxchar] at hc
  by_cases h16 : c ≤ 0xffff
  · by_cases h7 : c ≤ 0x7f
    · have hbyte : (UInt8.ofNat c).toNat = leadByte 1 + c / 2 ^ 0 := by
        rw [UInt8.toNat_ofNat', Nat.pow_zero, Nat.div_one, Nat.mod_eq_of_lt (by omega)]
        exact (Nat.zero_add c).symm
      refine ⟨0, UInt8.ofNat c, by decide, hbyte, ?_, Nat.zero_le _, fun n => ?_⟩
      · change c < 1 * 128
        omega
      · rw [encodechar, if_pos h16, if_pos h7]
        rfl
    by_cases h11 : c ≤ 0x7ff
    · refine ⟨1, _, by decide, toNat_lead 0xC0 5 6 rfl (by decide) (x := c / 2 ^ 6) ?_, ?_, ?_,
        fun n => ?_⟩
      · omega
      · change c < 2 ^ 6 * 32
        omega
      · change 0x80 ≤ c
        omega
      · rw [encodechar, if_pos h16, if_neg h7, if_pos h11, Nat.shiftRight_eq_div_pow]
        rfl
    · refine ⟨2, _, by decide, toNat_lead 0xE0 4 14 rfl (by decide) (x := c / 2 ^ 12) ?_, ?_, ?_,
        fun n => ?_⟩
      · omega
      · change c < 2 ^ 12 * 16
        omega
      · change 0x800 ≤ c
        omega
      · rw [encodechar, if_pos h16, if_neg h7, if_neg h11, Nat.shiftRight_eq_div_pow]
        rfl
  by_cases h21 : c ≤ 0x1fffff
  · refine ⟨3, _, by decide, toNat_lead 0xF0 3 30 rfl (by decide) (x := c / 2 ^ 18) ?_, ?_, ?_,
      fun n => ?_⟩
    · omega
    · change c < 2 ^ 18 * 8
      omega
    · change 0x10000 ≤ c
      omega
    · rw [encodechar, if_neg h16, if_pos h21, Nat.shiftRight_eq_div_pow]
      rfl
  by_cases h26 : c ≤ 0x3FFFFFF
  · refine ⟨4, _, by decide, toNat_lead 0xF8 2 62 rfl (by decide) (x := c / 2 ^ 24) ?_, ?_, ?_,
      fun n => ?_⟩
    · omega
    · change c < 2 ^ 24 * 4
      omega
    · change 0x200000 ≤ c
      omega
    · rw [encodechar, if_neg h16, if_neg h21, if_pos h26, Nat.shiftRight_eq_div_pow]
      rfl
  · refine ⟨5, _, by decide, toNat_lead 0xFC 1 126 rfl (by decide) (x := c / 2 ^ 30) ?_, ?_, ?_,
      fun n => ?_⟩
    · omega
    · change c < 2 ^ 30 * 2
      omega
    · change 0x4000000 ≤ c
      omega
    · rw [encodechar, if_neg h16, if_neg h21, if_neg h26, if_pos hc, Nat.shiftRight_eq_div_pow]
      rfl

theorem encodechar_small (h : n < sizechar c) : encodechar c n = [] := by
  rcases Nat.lt_or_ge maxchar c with hc | hc
  · rw [maxchar] at hc
    rw [encodechar, if_neg (by omega), if_neg (by omega), if_neg (by omega), if_neg (by omega)]
  · obtain ⟨k, b, henc⟩ := exists_encodes hc
    rw [sizechar_of_bounds henc.lt henc.min henc.bound] at h
    rw [henc.code, if_pos h]

/-- **A character is encoded as a sequence**, with as many bytes as it needs. -/
theorem encodechar_spec (hc : c ≤ maxchar) (hn : sizechar c ≤ n) :
    IsSequence (encodechar c n) ∧ value (encodechar c n) = c := by
  obtain ⟨k, b, henc⟩ := exists_encodes hc
  rw [sizechar_of_bounds henc.lt henc.min henc.bound] at hn
  rw [henc.code, if_neg (Nat.not_lt.2 hn)]
  exact isSequence_encode henc.lt henc.lead henc.bound henc.min

/-- **A sequence is the code of its character.** -/
theorem encodechar_value (hs : IsSequence s) : encodechar (value s) s.length = s := by
  obtain ⟨hsize, hmax⟩ := sizechar_value hs
  obtain ⟨hseq, hvalue⟩ := encodechar_spec hmax hsize.le
  have hlen := (sizechar_value hseq).1
  rw [hvalue, hsize] at hlen
  exact isSequence_inj hseq hs hlen.symm hvalue

/-! ## Decoding -/

theorem shiftLeft_xor {a x i : ℕ} (hx : x < 2 ^ i) : a <<< i ^^^ x = a * 2 ^ i + x := by
  have hdiv : (a <<< i ^^^ x) / 2 ^ i = a := by
    rw [Nat.xor_div_two_pow, Nat.shiftLeft_eq, Nat.mul_div_cancel _ (Nat.two_pow_pos i),
      Nat.div_eq_of_lt hx, Nat.xor_zero]
  have hmod : (a <<< i ^^^ x) % 2 ^ i = x := by
    rw [Nat.xor_mod_two_pow, Nat.shiftLeft_eq, Nat.mul_mod_left, Nat.mod_eq_of_lt hx, Nat.zero_xor]
  have h := Nat.div_add_mod' (a <<< i ^^^ x) (2 ^ i)
  rw [hdiv, hmod] at h
  exact h.symm

theorem xor_0x80 {x : ℕ} (h : 0x80 ≤ x ∧ x < 0xC0) : x ^^^ 0x80 = x - 0x80 := by
  have hx := shiftLeft_xor (a := 1) (x := x - 0x80) (i := 7) (by omega)
  have heq : 1 * 2 ^ 7 + (x - 0x80) = x := by omega
  have hpow : 1 <<< 7 = 0x80 := rfl
  rw [heq, hpow] at hx
  calc x ^^^ 0x80 = 0x80 ^^^ (x - 0x80) ^^^ 0x80 := by rw [hx]
    _ = x - 0x80 := by rw [Nat.xor_comm, ← Nat.xor_assoc, Nat.xor_self, Nat.zero_xor]

/-- The bytes of a payload with their markers, as the code reads them. -/
def xorSum (acc : ℕ) (bs : List UInt8) : ℕ := bs.foldl (fun acc b => acc <<< 6 ^^^ b.toNat) acc

/-- The markers of `k` bytes. -/
def markers (acc : ℕ) : ℕ → ℕ
  | 0 => acc
  | k + 1 => markers (acc <<< 6 ^^^ 0x80) k

theorem payload_xor (bs : List UInt8) :
    ∀ acc mark : ℕ, (∀ b ∈ bs, 0x80 ≤ b.toNat ∧ b.toNat < 0xC0) →
      payload (acc ^^^ mark) bs = xorSum acc bs ^^^ markers mark bs.length := by
  induction bs with
  | nil => exact fun _ _ _ => rfl
  | cons b bs ih =>
    intro acc mark h
    have hb := h b List.mem_cons_self
    have hlt : b.toNat - 0x80 < 2 ^ 6 := by omega
    have hstep : (acc ^^^ mark) * 64 + (b.toNat - 0x80) =
        acc <<< 6 ^^^ b.toNat ^^^ (mark <<< 6 ^^^ 0x80) :=
      calc (acc ^^^ mark) * 64 + (b.toNat - 0x80) = (acc ^^^ mark) <<< 6 ^^^ (b.toNat ^^^ 0x80) := by
            rw [xor_0x80 hb, shiftLeft_xor hlt]
            rfl
        _ = acc <<< 6 ^^^ b.toNat ^^^ (mark <<< 6 ^^^ 0x80) := by
            rw [Nat.shiftLeft_xor_distrib, Nat.xor_assoc, Nat.xor_assoc, ← Nat.xor_assoc (mark <<< 6),
              Nat.xor_comm (mark <<< 6), Nat.xor_assoc]
    rw [payload_cons, hstep, ih _ _ fun x hx => h x (List.mem_cons_of_mem _ hx)]
    rfl

theorem land_lead {first lead i : ℕ} (m : ℕ) (hlead : lead = 2 ^ i * m) (hlo : lead ≤ first)
    (hhi : first < lead + 2 ^ i) : first &&& (2 ^ i - 1) = first - lead := by
  obtain ⟨x, rfl⟩ := Nat.exists_eq_add_of_le hlo
  rw [Nat.and_two_pow_sub_one_eq_mod, hlead, Nat.mul_add_mod, Nat.add_sub_cancel_left,
    Nat.mod_eq_of_lt (by omega)]

/-- **A sequence is decoded to its character.** -/
theorem decodechar_of_isSequence (hs : IsSequence s) (uchar : ℕ) :
    decodechar (fun i => s[i]?) uchar = some (s.length, value s) := by
  rcases s with _ | ⟨b, bs⟩
  · exact hs.elim
  obtain ⟨hlen, hlo, hhi, hfol, hmin⟩ := hs
  have hvalue : value (b :: bs) = xorSum (b.toNat - leadByte (bs.length + 1)) bs ^^^
      markers 0 bs.length := by
    rw [value, ← payload_xor bs _ 0 hfol, Nat.xor_zero]
  rw [maxsize] at hlen
  rw [hvalue]
  rcases bs with _ | ⟨b1, _ | ⟨b2, _ | ⟨b3, _ | ⟨b4, _ | ⟨b5, _ | ⟨b6, bs⟩⟩⟩⟩⟩⟩
  · change b.toNat < 0 + 128 at hhi
    simp only [decodechar, List.getElem?_cons_zero, Option.bind_eq_bind, Option.bind_some]
    rw [if_pos (by omega)]
    exact congrArg (fun uchr => some (1, uchr)) (Nat.xor_zero b.toNat).symm
  · change 0xC0 ≤ b.toNat at hlo
    change b.toNat < 0xC0 + 32 at hhi
    change 0x80 ≤ (b.toNat - 0xC0) * 64 + (b1.toNat - 0x80) at hmin
    have hlead : b.toNat &&& 0x1F = b.toNat - 0xC0 := land_lead (i := 5) 6 rfl hlo hhi
    have hb1 := hfol b1 List.mem_cons_self
    have hlt : b1.toNat ^^^ 0x80 < 2 ^ 6 := by
      rw [xor_0x80 hb1]
      omega
    simp only [decodechar, List.getElem?_cons_zero, List.getElem?_cons_succ, Option.bind_eq_bind,
      Option.bind_some]
    rw [if_neg (by omega), if_neg (by omega), if_pos (by omega), hlead,
      ← Nat.shiftLeft_add_eq_or_of_lt hlt, Nat.shiftLeft_eq, ← shiftLeft_xor hlt, ← Nat.xor_assoc]
    rfl
  · change 0xE0 ≤ b.toNat at hlo
    change b.toNat < 0xE0 + 16 at hhi
    have hlead : b.toNat &&& 0xF = b.toNat - 0xE0 := land_lead (i := 4) 14 rfl hlo hhi
    simp only [decodechar, List.getElem?_cons_zero, List.getElem?_cons_succ, Option.bind_eq_bind,
      Option.bind_some, xorSum, List.foldl_cons, List.foldl_nil, Nat.shiftLeft_xor_distrib,
      ← Nat.shiftLeft_add, Nat.reduceAdd]
    rw [if_neg (by omega), if_neg (by omega), if_neg (by omega), if_pos (by omega), hlead]
    rfl
  · change 0xF0 ≤ b.toNat at hlo
    change b.toNat < 0xF0 + 8 at hhi
    have hlead : b.toNat &&& 0x7 = b.toNat - 0xF0 := land_lead (i := 3) 30 rfl hlo hhi
    simp only [decodechar, List.getElem?_cons_zero, List.getElem?_cons_succ, Option.bind_eq_bind,
      Option.bind_some, xorSum, List.foldl_cons, List.foldl_nil, Nat.shiftLeft_xor_distrib,
      ← Nat.shiftLeft_add, Nat.reduceAdd]
    rw [if_neg (by omega), if_neg (by omega), if_neg (by omega), if_neg (by omega),
      if_pos (by omega), hlead]
    rfl
  · change 0xF8 ≤ b.toNat at hlo
    change b.toNat < 0xF8 + 4 at hhi
    have hlead : b.toNat &&& 0x3 = b.toNat - 0xF8 := land_lead (i := 2) 62 rfl hlo hhi
    simp only [decodechar, List.getElem?_cons_zero, List.getElem?_cons_succ, Option.bind_eq_bind,
      Option.bind_some, xorSum, List.foldl_cons, List.foldl_nil, Nat.shiftLeft_xor_distrib,
      ← Nat.shiftLeft_add, Nat.reduceAdd]
    rw [if_neg (by omega), if_neg (by omega), if_neg (by omega), if_neg (by omega),
      if_neg (by omega), if_pos (by omega), hlead]
    rfl
  · change 0xFC ≤ b.toNat at hlo
    change b.toNat < 0xFC + 2 at hhi
    have hlead : b.toNat &&& 0x1 = b.toNat - 0xFC := land_lead (i := 1) 126 rfl hlo hhi
    simp only [decodechar, List.getElem?_cons_zero, List.getElem?_cons_succ, Option.bind_eq_bind,
      Option.bind_some, xorSum, List.foldl_cons, List.foldl_nil, Nat.shiftLeft_xor_distrib,
      ← Nat.shiftLeft_add, Nat.reduceAdd]
    rw [if_neg (by omega), if_neg (by omega), if_neg (by omega), if_neg (by omega),
      if_neg (by omega), if_neg (by omega), if_pos (by omega), hlead]
    rfl
  · exact absurd hlen (by simp only [List.length_cons]; omega)

theorem bind_ne_zero {x : Option UInt8} {f : UInt8 → Option (ℕ × ℕ)}
    (h : ∀ b v, f b ≠ some (0, v)) (v : ℕ) : x.bind f ≠ some (0, v) := by
  rcases x with _ | b
  · exact nofun
  · exact h b v

theorem some_succ_ne_zero {k uchr : ℕ} (v : ℕ) : some (k + 1, uchr) ≠ some (0, v) :=
  fun h => absurd (congrArg Prod.fst (Option.some.inj h)) (Nat.succ_ne_zero k)

theorem decodechar_eq_zero_iff {read : ℕ → Option UInt8} {b : UInt8} (hb : read 0 = some b)
    (uchar : ℕ) : (∃ v, decodechar read uchar = some (0, v)) ↔ canStart b = false := by
  have hstart : canStart b = false ↔ ¬(b.toNat ≤ 127 ∨ 194 ≤ b.toNat ∧ b.toNat ≤ 253) := by
    rw [canStart, ← Bool.not_eq_true, Bool.or_eq_true, Bool.and_eq_true, decide_eq_true_eq,
      decide_eq_true_eq, decide_eq_true_eq]
  have hbyte := b.toNat_lt
  rw [hstart]
  simp only [decodechar, hb, Option.bind_eq_bind, Option.bind_some]
  by_cases h1 : b.toNat ≤ 127
  · rw [if_pos h1]
    exact iff_of_false (fun ⟨v, h⟩ => some_succ_ne_zero v h) (by omega)
  rw [if_neg h1]
  by_cases h2 : b.toNat ≤ 193
  · rw [if_pos h2]
    exact iff_of_true ⟨uchar, rfl⟩ (by omega)
  rw [if_neg h2]
  by_cases h3 : b.toNat ≤ 223
  · rw [if_pos h3]
    exact iff_of_false (fun ⟨v, h⟩ => bind_ne_zero (fun _ => some_succ_ne_zero) v h)
      (by omega)
  rw [if_neg h3]
  by_cases h4 : b.toNat ≤ 239
  · rw [if_pos h4]
    exact iff_of_false (fun ⟨v, h⟩ => bind_ne_zero (fun _ => bind_ne_zero fun _ => some_succ_ne_zero) v h)
      (by omega)
  rw [if_neg h4]
  by_cases h5 : b.toNat ≤ 247
  · rw [if_pos h5]
    exact iff_of_false (fun ⟨v, h⟩ => bind_ne_zero (fun _ => bind_ne_zero fun _ =>
      bind_ne_zero fun _ => some_succ_ne_zero) v h) (by omega)
  rw [if_neg h5]
  by_cases h6 : b.toNat ≤ 251
  · rw [if_pos h6]
    exact iff_of_false (fun ⟨v, h⟩ => bind_ne_zero (fun _ => bind_ne_zero fun _ =>
      bind_ne_zero fun _ => bind_ne_zero fun _ => some_succ_ne_zero) v h) (by omega)
  rw [if_neg h6]
  by_cases h7 : b.toNat ≤ 253
  · rw [if_pos h7]
    exact iff_of_false (fun ⟨v, h⟩ => bind_ne_zero (fun _ => bind_ne_zero fun _ =>
      bind_ne_zero fun _ => bind_ne_zero fun _ => bind_ne_zero fun _ => some_succ_ne_zero) v h) (by omega)
  rw [if_neg h7]
  exact iff_of_true ⟨uchar, rfl⟩ (by omega)

theorem bind_size {str : List UInt8} {i k : ℕ} {f : UInt8 → Option (ℕ × ℕ)} (hi : i < str.length)
    (hf : ∀ b, ∃ v, f b = some (k, v)) : ∃ v, str[i]?.bind f = some (k, v) := by
  rw [List.getElem?_eq_getElem hi]
  exact hf _

theorem decodechar_size {b : UInt8} (hstart : canStart b = true) {bs : List UInt8}
    (hlen : sizePfirst b ≤ (b :: bs).length) (uchar : ℕ) :
    ∃ v, decodechar (fun i => (b :: bs)[i]?) uchar = some (sizePfirst b, v) := by
  rw [canStart, Bool.or_eq_true, Bool.and_eq_true, decide_eq_true_eq, decide_eq_true_eq,
    decide_eq_true_eq] at hstart
  simp only [decodechar, List.getElem?_cons_zero, Option.bind_eq_bind, Option.bind_some]
  by_cases h1 : b.toNat ≤ 127
  · have hsize : sizePfirst b = 1 := by rw [sizePfirst_eq, if_pos (by omega)]
    rw [if_pos h1, hsize]
    exact ⟨_, rfl⟩
  have h2 : ¬b.toNat ≤ 193 := by omega
  rw [if_neg h1, if_neg h2]
  by_cases h3 : b.toNat ≤ 223
  · have hsize : sizePfirst b = 2 := sizePfirst_of_lead (by decide) (by decide)
      (show 0xC0 ≤ b.toNat by omega) (show b.toNat < 0xC0 + 32 by omega)
    rw [hsize] at hlen ⊢
    rw [if_pos h3]
    exact bind_size (by omega) fun _ => ⟨_, rfl⟩
  rw [if_neg h3]
  by_cases h4 : b.toNat ≤ 239
  · have hsize : sizePfirst b = 3 := sizePfirst_of_lead (by decide) (by decide)
      (show 0xE0 ≤ b.toNat by omega) (show b.toNat < 0xE0 + 16 by omega)
    rw [hsize] at hlen ⊢
    rw [if_pos h4]
    exact bind_size (by omega) fun _ => bind_size (by omega) fun _ => ⟨_, rfl⟩
  rw [if_neg h4]
  by_cases h5 : b.toNat ≤ 247
  · have hsize : sizePfirst b = 4 := sizePfirst_of_lead (by decide) (by decide)
      (show 0xF0 ≤ b.toNat by omega) (show b.toNat < 0xF0 + 8 by omega)
    rw [hsize] at hlen ⊢
    rw [if_pos h5]
    exact bind_size (by omega) fun _ => bind_size (by omega) fun _ => bind_size (by omega)
      fun _ => ⟨_, rfl⟩
  rw [if_neg h5]
  by_cases h6 : b.toNat ≤ 251
  · have hsize : sizePfirst b = 5 := sizePfirst_of_lead (by decide) (by decide)
      (show 0xF8 ≤ b.toNat by omega) (show b.toNat < 0xF8 + 4 by omega)
    rw [hsize] at hlen ⊢
    rw [if_pos h6]
    exact bind_size (by omega) fun _ => bind_size (by omega) fun _ => bind_size (by omega)
      fun _ => bind_size (by omega) fun _ => ⟨_, rfl⟩
  rw [if_neg h6]
  by_cases h7 : b.toNat ≤ 253
  · have hsize : sizePfirst b = 6 := sizePfirst_of_lead (by decide) (by decide)
      (show 0xFC ≤ b.toNat by omega) (show b.toNat < 0xFC + 2 by omega)
    rw [hsize] at hlen ⊢
    rw [if_pos h7]
    exact bind_size (by omega) fun _ => bind_size (by omega) fun _ => bind_size (by omega)
      fun _ => bind_size (by omega) fun _ => bind_size (by omega) fun _ => ⟨_, rfl⟩
  · omega

/-! ## Counting -/

theorem cut_cons (b : UInt8) (str : List UInt8) :
    cut (b :: str) = (b :: str.take (sizePfirst b - 1)) :: cut (str.drop (sizePfirst b - 1)) := by
  rw [cut]

theorem flatten_cut (str : List UInt8) : (cut str).flatten = str := by
  fun_induction cut str with
  | case1 => rfl
  | case2 b str ih => rw [List.flatten_cons, ih, List.cons_append, List.take_append_drop]

theorem length_cut_drop {next : ℕ} {b : UInt8} (hb : str[next]? = some b) :
    (cut (str.drop next)).length = (cut (str.drop (next + sizePfirst b))).length + 1 := by
  obtain ⟨hlt, rfl⟩ := List.getElem?_eq_some_iff.mp hb
  have hpos := sizePfirst_pos str[next]
  have hadd : next + 1 + (sizePfirst str[next] - 1) = next + sizePfirst str[next] := by omega
  rw [List.drop_eq_getElem_cons hlt, cut_cons, List.length_cons, List.drop_drop, hadd]

theorem slowLoop_eq (str : List UInt8) :
    ∀ fuel next len : ℕ, next ≤ str.length → str.length - next < fuel →
      slowLoop str fuel next len = some (str.length, len + (cut (str.drop next)).length) := by
  intro fuel
  induction fuel with
  | zero => exact fun _ _ _ h => absurd h (Nat.not_lt_zero _)
  | succ fuel ih =>
    intro next len hnext hfuel
    rw [slowLoop]
    split_ifs with hlt
    · have hb : str[next]? = some str[next] := List.getElem?_eq_getElem hlt
      have hpos := sizePfirst_pos str[next]
      have hend : str.length - next < sizePfirst str[next] →
          (cut (str.drop (next + sizePfirst str[next]))).length = (cut (str.drop str.length)).length := by
        intro h
        rw [List.drop_length, List.drop_eq_nil_of_le (by omega)]
      rw [hb, Option.bind_eq_bind, Option.bind_some, length_cut_drop hb]
      split_ifs with h
      · rw [ih _ _ le_rfl (by omega), hend h, Nat.add_assoc, Nat.add_comm 1]
      · rw [ih _ _ (by omega) (by omega), Nat.add_assoc, Nat.add_comm 1]
    · rw [List.drop_eq_nil_of_le (by omega), cut]
      have heq : next = str.length := by omega
      rw [heq]
      rfl

theorem fastLoop_eq (hlen : maxsize ≤ str.length) :
    ∀ fuel next len : ℕ, next ≤ str.length - maxsize → str.length - next < fuel →
      ∃ next' len', fastLoop str (str.length - maxsize) fuel next len = some (next', len') ∧
        next' ≤ str.length ∧
        len' + (cut (str.drop next')).length = len + (cut (str.drop next)).length := by
  intro fuel
  induction fuel with
  | zero => exact fun _ _ _ h => absurd h (Nat.not_lt_zero _)
  | succ fuel ih =>
    intro next len hnext hfuel
    have hmax : 0 < maxsize := by decide
    have hlt : next < str.length := by omega
    have hb : str[next]? = some str[next] := List.getElem?_eq_getElem hlt
    have hpos := sizePfirst_pos str[next]
    have hle := sizePfirst_le_maxsize str[next]
    rw [fastLoop, hb, Option.bind_eq_bind, Option.bind_some, length_cut_drop hb]
    dsimp only
    split_ifs with h
    · obtain ⟨next', len', hrun, hnext', hsum⟩ := ih _ (len + 1) h (by omega)
      exact ⟨next', len', hrun, hnext', by omega⟩
    · exact ⟨_, _, rfl, by omega, by omega⟩

theorem lengthLoops_eq (str : List UInt8) : lengthLoops str = some (str.length, (cut str).length) := by
  rw [lengthLoops]
  split_ifs with h0 h6
  · obtain ⟨next, len, hrun, hnext, hsum⟩ := fastLoop_eq h6 (str.length + 1) 0 0 (Nat.zero_le _)
      (by omega)
    rw [List.drop_zero, Nat.zero_add] at hsum
    rw [hrun, Option.bind_eq_bind, Option.bind_some]
    dsimp only
    rw [slowLoop_eq str _ _ _ hnext (by omega), hsum]
  · rw [Option.bind_eq_bind]
    exact (slowLoop_eq str _ _ _ (Nat.zero_le _) (by omega)).trans (by rw [List.drop_zero, Nat.zero_add])
  · rw [List.eq_nil_of_length_eq_zero (by omega : str.length = 0), cut]
    rfl

/-- **The length is the number of pieces.** -/
theorem lengthUtf8_eq (str : List UInt8) : lengthUtf8 str = some (cut str).length := by
  rw [lengthUtf8, lengthLoops_eq]
  rfl

theorem charCount_le (str : List UInt8) : charCount str ≤ (cut str).length := by
  fun_induction charCount str with
  | case1 => exact Nat.zero_le _
  | case2 b str ih =>
    rw [cut_cons, List.length_cons]
    split_ifs <;> omega

theorem charCount_eq_iff (str : List UInt8) : (cut str).length = charCount str ↔ AllStart str := by
  fun_induction charCount str with
  | case1 =>
    rw [AllStart, cut]
    exact ⟨fun _ _ hp => absurd hp List.not_mem_nil, fun _ => rfl⟩
  | case2 b str ih =>
    have hle := charCount_le (str.drop (sizePfirst b - 1))
    have hall : AllStart (b :: str) ↔ canStart b = true ∧ AllStart (str.drop (sizePfirst b - 1)) := by
      rw [AllStart, AllStart, cut_cons, List.forall_mem_cons]
      refine and_congr_left fun _ => ?_
      rw [List.head?_cons]
      exact ⟨fun h => h b rfl, fun h _ hb => Option.some.inj hb ▸ h⟩
    rw [hall, ← ih, cut_cons, List.length_cons]
    split_ifs with h
    · simp only [h, true_and]
      omega
    · simp only [h, Bool.false_eq_true, false_and, iff_false]
      omega

/-! ## Texts -/

theorem sizePfirst_of_isSequence {b : UInt8} (hs : IsSequence (b :: bs)) :
    sizePfirst b = bs.length + 1 := by
  obtain ⟨hlen, hlo, hhi, -, -⟩ := hs
  rw [maxsize] at hlen
  exact sizePfirst_of_lead (by omega) (by omega) hlo hhi

theorem isSequence_of_mem_cut (h : IsText str) : ∀ p ∈ cut str, IsSequence p := by
  induction h with
  | nil =>
    rw [cut]
    exact fun _ hp => absurd hp List.not_mem_nil
  | @append s t hs _ ih =>
    rcases s with _ | ⟨b, bs⟩
    · exact hs.elim
    have hsize : sizePfirst b - 1 = bs.length := by
      rw [sizePfirst_of_isSequence hs, Nat.add_sub_cancel]
    rw [List.cons_append, cut_cons, hsize, List.take_left, List.drop_left, List.forall_mem_cons]
    exact ⟨hs, ih⟩

theorem isText_of_accepted {blocks : List (List UInt8)} {v : Validator}
    (h : feed Validator.init blocks = some (.ok v)) (hv : v.free = true) : IsText blocks.flatten := by
  obtain ⟨_, chunked, -, hchunked, hiff, -⟩ := feed_blocks_iff_isText blocks
  rw [h, Option.some.injEq] at hchunked
  exact hiff.mp (hchunked ▸ hv)

theorem accepted_of_isSequence (hs : IsSequence s) :
    ∃ v, feed Validator.init [s] = some (.ok v) ∧ v.free = true := by
  obtain ⟨_, chunked, -, hchunked, hiff, -⟩ := feed_blocks_iff_isText [s]
  have htext : IsText [s].flatten := by
    rw [List.flatten_singleton, ← List.append_nil s]
    exact .append hs .nil
  rcases chunked with _ | v
  · exact (hiff.mpr htext).elim
  · exact ⟨v, hchunked, hiff.mpr htext⟩

theorem sizePfirst_head (hs : IsSequence s) (hn : s.length = n) :
    ∃ b, s.head? = some b ∧ sizePfirst b = n := by
  rcases s with _ | ⟨b, bs⟩
  · exact hs.elim
  · exact ⟨b, rfl, (sizePfirst_of_isSequence hs).trans hn⟩

theorem encodeSpec (hc : c ≤ maxchar) (n : ℕ) : EncodeSpec c n where
  small := encodechar_small
  size hn := by
    obtain ⟨hs, hvalue⟩ := encodechar_spec hc hn
    rw [← (sizechar_value hs).1, hvalue]
  first hn := by
    obtain ⟨hs, hvalue⟩ := encodechar_spec hc hn
    have hsize := (sizechar_value hs).1
    rw [hvalue] at hsize
    exact sizePfirst_head hs hsize.symm
  accepted hn := accepted_of_isSequence (encodechar_spec hc hn).1
  decoded hn uchar := by
    obtain ⟨hs, hvalue⟩ := encodechar_spec hc hn
    rw [decodechar_of_isSequence hs, ← (sizechar_value hs).1, hvalue]

theorem recodeSpec (h : IsText str) : RecodeSpec str where
  flatten := flatten_cut str
  recode p hp uchar := by
    have hs := isSequence_of_mem_cut h p hp
    exact ⟨value p, decodechar_of_isSequence hs uchar, encodechar_value hs⟩
  number := lengthUtf8_eq str

/-- **Coding agrees with counting except for bytes that start no character.**  Characters are encoded
and decoded one to one and as the validator accepts them, and no byte behind a string is read, but a
byte that can start no character is counted: nothing in `length_utf8` skips it. -/
theorem codingAgrees_iff (str : List UInt8) : CodingAgrees str ↔ AllStart str := by
  have hlength : LengthSpec str ↔ AllStart str := by
    rw [← charCount_eq_iff]
    constructor
    · intro h
      exact Option.some.inj ((lengthUtf8_eq str).symm.trans h.count)
    · exact fun h => ⟨⟨_, lengthLoops_eq str⟩, (lengthUtf8_eq str).trans (congrArg some h)⟩
  refine ⟨fun h => hlength.mp h.length, fun h => ⟨fun c hc n => encodeSpec hc n, ?_, hlength.mpr h⟩⟩
  rintro blocks v rfl hfeed hv
  exact recodeSpec (isText_of_accepted hfeed hv)

/-- The byte `0x80` is counted. -/
theorem not_codingAgrees_0x80 : ¬CodingAgrees [0x80] := by
  intro h
  have hcount : lengthUtf8 [0x80] = some (charCount [0x80]) := h.length.count
  have hlen : lengthUtf8 [0x80] = some 1 := rfl
  have hzero : charCount [0x80] = 0 := by simp [charCount, canStart]
  rw [hlen, hzero] at hcount
  exact absurd hcount (by decide)

end Utf8
end CKern
