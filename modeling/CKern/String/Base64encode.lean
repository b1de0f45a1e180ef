import Mathlib.Data.List.Basic
import Mathlib.Data.List.Induction
import Mathlib.Data.List.TakeDrop
import Mathlib.Data.Nat.Bitwise

/-!
# `string/base64encode.c`: the Base64 encoding

* `base64encodeString`, `base64decodeString`, `sizebase64decodeString`: the functions of the module,
  with the size of a string as a number below `2 ^ 64`.
* `encode`: what is appended by the encoder.
* `base64_inverse_iff`: the strings for which encoder and decoder are inverse.
-/

namespace CKern
namespace Base64

/-! ## The functions -/

/-- The error codes of the module. -/
inductive Errno
  | EINVAL
  | ENOMEM
  | EOVERFLOW
  deriving DecidableEq, Repr

/-- Why there is no result: an error code, where the result buffer is shrunken to its old size, or
bytes that are read or written outside of the strings, or that are not written. -/
inductive Failure
  | errno (err : Errno)
  | undefined
  deriving DecidableEq, Repr

/-- The table `s_base64chars`. -/
def base64chars : List UInt8 :=
  "ABCDEFGHIJKLMNOPQRSTUVWXYZabcdefghijklmnopqrstuvwxyz0123456789+/".toList.map fun c =>
    UInt8.ofNat c.toNat

/-- The table `s_base64values`. -/
def base64values : List ℤ :=
  [-1, -1, -1, -1, -1, -1, -1, -1, -1, -1,
   -1, -1, -1, -1, -1, -1, -1, -1, -1, -1,
   -1, -1, -1, -1, -1, -1, -1, -1, -1, -1,
   -1, -1, -1, -1, -1, -1, -1, -1, -1, -1,
   -1, -1, -1, 62, -1, -1, -1, 63, 52, 53,
   54, 55, 56, 57, 58, 59, 60, 61, -1, -1,
   -1, -1, -1, 62, -1,  0,  1,  2,  3,  4,
    5,  6,  7,  8,  9, 10, 11, 12, 13, 14,
   15, 16, 17, 18, 19, 20, 21, 22, 23, 24,
   25, -1, -1, -1, -1, -1, -1, 26, 27, 28,
   29, 30, 31, 32, 33, 34, 35, 36, 37, 38,
   39, 40, 41, 42, 43, 44, 45, 46, 47, 48,
   49, 50, 51, -1, -1, -1, -1, -1, -1, -1,
   -1, -1, -1, -1, -1, -1, -1, -1, -1, -1,
   -1, -1, -1, -1, -1, -1, -1, -1, -1, -1,
   -1, -1, -1, -1, -1, -1, -1, -1, -1, -1,
   -1, -1, -1, -1, -1, -1, -1, -1, -1, -1,
   -1, -1, -1, -1, -1, -1, -1, -1, -1, -1,
   -1, -1, -1, -1, -1, -1, -1, -1, -1, -1,
   -1, -1, -1, -1, -1, -1, -1, -1, -1, -1,
   -1, -1, -1, -1, -1, -1, -1, -1, -1, -1,
   -1, -1, -1, -1, -1, -1, -1, -1, -1, -1,
   -1, -1, -1, -1, -1, -1, -1, -1, -1, -1,
   -1, -1, -1, -1, -1, -1, -1, -1, -1, -1,
   -1, -1, -1, -1, -1, -1, -1, -1, -1, -1,
   -1, -1, -1, -1, -1, -1]

/-- A character of the encoding. -/
def char (i : ℕ) : UInt8 := base64chars.getD i 0

/-- The value of a character, converted to `uint32_t`. -/
def value (c : UInt8) : ℕ := (base64values.getD c.toNat 0 % 2 ^ 32).toNat

/-- The character `=`. -/
def pad : UInt8 := 61

/-- `sizebase64decode_string`. -/
def sizebase64decodeString (str : List UInt8) : ℕ :=
  let size := str.length / 4
  if size ≠ 0 then
    let size := size * 3
    if str.getD (str.length - 1) 0 = pad then
      if str.getD (str.length - 2) 0 = pad then size - 1 - 1 else size - 1
    else size
  else size

/-- `appendbytes_wbuffer` of `size` bytes, all of which have to be written. -/
def appendbytes (result : List UInt8) (size : ℕ) (written : List UInt8) :
    Except Failure (List UInt8) :=
  if written.length = size then .ok (result ++ written) else .error .undefined

/-- The loop of `base64encode_string`: what is written and what is left of the string. -/
def encodeLoop : ℕ → List UInt8 → Except Failure (List UInt8 × List UInt8)
  | 0, next => .ok ([], next)
  | count + 1, a :: b :: c :: next =>
    let tripple := ((a.toNat <<< 8) + b.toNat) <<< 8 + c.toNat
    match encodeLoop count next with
    | .error err => .error err
    | .ok (dest, next) =>
      .ok (char (tripple >>> 6 >>> 6 >>> 6) :: char (tripple >>> 6 >>> 6 &&& 63) ::
        char (tripple >>> 6 &&& 63) :: char (tripple &&& 63) :: dest, next)
  | _, _ => .error .undefined

/-- The last one or two bytes. -/
def encodeRest (mod3 : ℕ) (next : List UInt8) : Except Failure (List UInt8) :=
  match mod3, next with
  | 0, _ => .ok []
  | 1, a :: _ =>
    let tripple := a.toNat <<< 4
    .ok [char (tripple >>> 6), char (tripple &&& 63), pad, pad]
  | 2, a :: b :: _ =>
    let tripple := ((a.toNat <<< 8) + b.toNat) <<< 2
    .ok [char (tripple >>> 6 >>> 6), char (tripple >>> 6 &&& 63), char (tripple &&& 63), pad]
  | _, _ => .error .undefined

/-- `base64encode_string`: the content of the result buffer, which is always able to grow. -/
def base64encodeString (str result : List UInt8) : Except Failure (List UInt8) :=
  let count := str.length / 3
  let mod3 := str.length % 3
  let quadruples := count + if mod3 ≠ 0 then 1 else 0
  let resultSize := 4 * quadruples % 2 ^ 64
  if resultSize ≤ quadruples then .error (.errno .EOVERFLOW)
  else
    match encodeLoop count str with
    | .error err => .error err
    | .ok (dest, next) =>
      match encodeRest mod3 next with
      | .error err => .error err
      | .ok rest => appendbytes result resultSize (dest ++ rest)

/-- The bits of the next values, where a value of `-1` sets all bits that are not shifted out. -/
def quadr (values : List ℕ) : ℕ := values.foldl (fun quadr v => quadr <<< 6 % 2 ^ 32 ||| v) 0

/-- A value of `-1` was there. -/
def invalid (quadr : ℕ) : Bool := quadr &&& 0x80000000 ≠ 0

/-- The loop of `base64decode_string`. -/
def decodeLoop : ℕ → List UInt8 → Except Failure (List UInt8 × List UInt8)
  | 0, next => .ok ([], next)
  | count + 1, a :: b :: c :: d :: next =>
    let quadr := quadr [value a, value b, value c, value d]
    if invalid quadr then .error (.errno .EINVAL)
    else
      match decodeLoop count next with
      | .error err => .error err
      | .ok (dest, next) =>
        .ok (UInt8.ofNat (quadr >>> 8 >>> 8) :: UInt8.ofNat (quadr >>> 8) :: UInt8.ofNat quadr ::
          dest, next)
  | _, _ => .error .undefined

/-- The last group if it is padded. -/
def decodeRest (mod3 : ℕ) (next : List UInt8) : Except Failure (List UInt8) :=
  match mod3, next with
  | 0, _ => .ok []
  | 1, a :: b :: c :: _ =>
    let quadr := quadr [value a, value b, value c]
    if invalid quadr then .error (.errno .EINVAL)
    else .ok [UInt8.ofNat (quadr >>> 2 >>> 8), UInt8.ofNat (quadr >>> 2)]
  | 2, a :: b :: _ =>
    let quadr := quadr [value a, value b]
    if invalid quadr then .error (.errno .EINVAL)
    else .ok [UInt8.ofNat (quadr >>> 4)]
  | _, _ => .error .undefined

/-- `base64decode_string`. -/
def base64decodeString (str result : List UInt8) : Except Failure (List UInt8) :=
  let count := str.length / 4
  if str.length % 4 ≠ 0 then .error (.errno .EINVAL)
  else if count = 0 then .ok result
  else
    let mod3 := (if str.getD (str.length - 1) 0 = pad then 1 else 0) +
      if str.getD (str.length - 2) 0 = pad then 1 else 0
    let resultSize := 3 * count - mod3
    match decodeLoop (count - if mod3 ≠ 0 then 1 else 0) str with
    | .error err => .error err
    | .ok (dest, next) =>
      match decodeRest mod3 next with
      | .error err => .error err
      | .ok rest => appendbytes result resultSize (dest ++ rest)

/-! ## Characters and values -/

/-- The characters, read as the ranges that they are taken from. -/
def charOf (v : ℕ) : ℕ :=
  if v < 26 then v + 65 else if v < 52 then v + 71 else if v < 62 then v - 4
  else if v = 62 then 43 else 47

/-- The values, read as the ranges of their characters. -/
def valueOf (c : ℕ) : ℕ :=
  if c = 43 ∨ c = 63 then 62 else if c = 47 then 63 else if 48 ≤ c ∧ c < 58 then c + 4
  else if 65 ≤ c ∧ c < 91 then c - 65 else if 97 ≤ c ∧ c < 123 then c - 71 else 2 ^ 32 - 1

theorem tables_eq :
    (base64chars.map UInt8.toNat = (List.range 64).map charOf ∧
      base64values.map (fun v => (v % 2 ^ 32).toNat) = (List.range 256).map valueOf) ∧
    (∀ v < 64, valueOf (charOf v) = v ∧ charOf v ≠ pad.toNat ∧ charOf v ≠ 63) ∧
    ∀ n < 256, (valueOf n < 64 → n ≠ 63 → charOf (valueOf n) = n) ∧
      (valueOf n < 64 ∨ valueOf n = 2 ^ 32 - 1) := by
  decide +kernel

theorem entry_eq {α : Type*} {l : List α} {f : α → ℕ} {g : ℕ → ℕ} {n : ℕ}
    (h : l.map f = (List.range n).map g) {i : ℕ} (hi : i < n) (d : α) : f (l.getD i d) = g i := by
  have hlen : i < l.length := by
    have := congrArg List.length h
    rw [List.length_map, List.length_map, List.length_range] at this
    omega
  have hget := congrArg (fun l => l[i]?) h
  simp only [List.getElem?_map, List.getElem?_range hi, List.getElem?_eq_getElem hlen,
    Option.map_some, Option.some_inj] at hget
  rw [List.getD_eq_getElem _ _ hlen, hget]

theorem toNat_char {v : ℕ} (h : v < 64) : (char v).toNat = charOf v :=
  entry_eq tables_eq.1.1 h 0

theorem value_eq (c : UInt8) : value c = valueOf c.toNat :=
  entry_eq tables_eq.1.2 c.toNat_lt 0

theorem value_char {v : ℕ} (h : v < 64) : value (char v) = v := by
  rw [value_eq, toNat_char h, (tables_eq.2.1 v h).1]

theorem char_ne_pad {v : ℕ} (h : v < 64) : char v ≠ pad := by
  rw [Ne, ← UInt8.toNat_inj, toNat_char h]
  exact (tables_eq.2.1 v h).2.1

theorem char_ne_question {v : ℕ} (h : v < 64) : char v ≠ 63 := by
  rw [Ne, ← UInt8.toNat_inj, toNat_char h]
  exact (tables_eq.2.1 v h).2.2

theorem char_value {c : UInt8} (h : value c < 64) (hc : c ≠ 63) : char (value c) = c := by
  have hne : c.toNat ≠ 63 := fun heq => hc (UInt8.toNat_inj.mp heq)
  rw [← UInt8.toNat_inj, toNat_char h]
  rw [value_eq] at h ⊢
  exact (tables_eq.2.2 _ c.toNat_lt).1 h hne

theorem value_pad : value pad = 2 ^ 32 - 1 := value_eq pad

theorem value_lt_or (c : UInt8) : value c < 64 ∨ value c = 2 ^ 32 - 1 := by
  rw [value_eq]
  exact (tables_eq.2.2 _ c.toNat_lt).2

/-- The number with the given digits. -/
def number (values : List ℕ) : ℕ := values.foldl (fun n v => n * 64 + v) 0

theorem number_lt {values : List ℕ} (h : ∀ v ∈ values, v < 64) :
    number values < 64 ^ values.length := by
  induction values using List.reverseRecOn with
  | nil => exact Nat.one_pos
  | append_singleton values v ih =>
    have hlt := ih fun w hw => h w (List.mem_append_left _ hw)
    have hv := h v (List.mem_append_right _ (List.mem_singleton_self v))
    rw [number, List.foldl_append, List.length_append, List.length_singleton, pow_succ]
    change number values * 64 + v < _
    omega

theorem quadr_snoc (values : List ℕ) (v : ℕ) :
    quadr (values ++ [v]) = quadr values <<< 6 % 2 ^ 32 ||| v := by
  rw [quadr, List.foldl_append]
  rfl

theorem quadr_eq {values : List ℕ} (h : ∀ v ∈ values, v < 64) (hlen : values.length ≤ 4) :
    quadr values = number values := by
  induction values using List.reverseRecOn with
  | nil => rfl
  | append_singleton values v ih =>
    rw [List.length_append, List.length_singleton] at hlen
    have hvalues := fun w hw => h w (List.mem_append_left [v] hw)
    have hv := h v (List.mem_append_right _ (List.mem_singleton_self v))
    have hlt := number_lt hvalues
    have hpow : (64 : ℕ) ^ values.length ≤ 64 ^ 3 := Nat.pow_le_pow_right (by decide) (by omega)
    have hshift : number values <<< 6 < 2 ^ 32 := by
      rw [Nat.shiftLeft_eq]
      omega
    rw [quadr_snoc, ih hvalues (by omega), Nat.mod_eq_of_lt hshift,
      ← Nat.shiftLeft_add_eq_or_of_lt hv, Nat.shiftLeft_eq, number, number, List.foldl_append]
    rfl

theorem testBit_quadr {values : List ℕ} (h : 2 ^ 32 - 1 ∈ values) {i : ℕ} (hi : i < 32)
    (hlen : 6 * values.length ≤ i + 6) : (quadr values).testBit i = true := by
  induction values using List.reverseRecOn generalizing i with
  | nil => exact absurd h List.not_mem_nil
  | append_singleton values v ih =>
    rw [List.length_append, List.length_singleton] at hlen
    rw [quadr_snoc, Nat.testBit_or, Nat.testBit_mod_two_pow, Nat.testBit_shiftLeft]
    rcases List.mem_append.mp h with hmem | hmem
    · have hpos := List.length_pos_of_mem hmem
      rw [ih hmem (by omega) (by omega)]
      simp only [hi, show 6 ≤ i by omega, decide_true, Bool.and_true, Bool.true_or]
    · rw [← List.mem_singleton.mp hmem, Nat.testBit_two_pow_sub_one, decide_eq_true hi,
        Bool.or_true]

/-- **The test of the highest bit** finds the characters without a value. -/
theorem invalid_iff (cs : List UInt8) (hlen : cs.length ≤ 4) :
    invalid (quadr (cs.map value)) = false ↔ ∀ c ∈ cs, value c < 64 := by
  have hbit : invalid (quadr (cs.map value)) = (quadr (cs.map value)).testBit 31 := by
    rw [invalid, show 0x80000000 = 2 ^ 31 from rfl, Nat.and_two_pow]
    cases (quadr (cs.map value)).testBit 31 <;> rfl
  rw [hbit]
  constructor
  · intro hfalse c hc
    refine (value_lt_or c).resolve_right fun hmax => ?_
    have hmem : 2 ^ 32 - 1 ∈ cs.map value := List.mem_map.mpr ⟨c, hc, hmax⟩
    rw [testBit_quadr hmem (by decide) (by rw [List.length_map]; omega)] at hfalse
    exact absurd hfalse (by decide)
  · intro hall
    have hvalues : ∀ v ∈ cs.map value, v < 64 := by
      intro v hv
      obtain ⟨c, hc, rfl⟩ := List.mem_map.mp hv
      exact hall c hc
    rw [quadr_eq hvalues (by rwa [List.length_map])]
    refine Nat.testBit_eq_false_of_lt ((number_lt hvalues).trans_le ?_)
    rw [List.length_map]
    exact (Nat.pow_le_pow_right (by decide) hlen).trans (by decide)

/-! ## The encoder -/

/-- The encoding of a string. -/
def encode : List UInt8 → List UInt8
  | a :: b :: c :: s =>
    let n := (a.toNat * 256 + b.toNat) * 256 + c.toNat
    char (n / 64 / 64 / 64) :: char (n / 64 / 64 % 64) :: char (n / 64 % 64) :: char (n % 64) ::
      encode s
  | [a, b] =>
    let n := (a.toNat * 256 + b.toNat) * 4
    [char (n / 64 / 64), char (n / 64 % 64), char (n % 64), pad]
  | [a] =>
    let n := a.toNat * 16
    [char (n / 64), char (n % 64), pad, pad]
  | [] => []

theorem exists_cons_three {s : List UInt8} {count : ℕ} (h : s.length = 3 * (count + 1)) :
    ∃ a b c s', s = a :: b :: c :: s' ∧ s'.length = 3 * count := by
  match s, h with
  | a :: b :: c :: s', h =>
    refine ⟨a, b, c, s', rfl, ?_⟩
    simp only [List.length_cons] at h
    omega
  | [_, _], h => simp only [List.length_cons, List.length_nil] at h; omega
  | [_], h => simp only [List.length_cons, List.length_nil] at h; omega
  | [], h => simp only [List.length_nil] at h; omega

theorem encode_append {count : ℕ} {s t : List UInt8} (h : s.length = 3 * count) :
    encode (s ++ t) = encode s ++ encode t := by
  induction count generalizing s with
  | zero =>
    obtain rfl : s = [] := List.length_eq_zero_iff.mp h
    rfl
  | succ count ih =>
    obtain ⟨a, b, c, s, rfl, hs⟩ := exists_cons_three h
    rw [List.cons_append, List.cons_append, List.cons_append, encode, encode, ih hs,
      List.cons_append, List.cons_append, List.cons_append, List.cons_append]

theorem length_encode (s : List UInt8) : (encode s).length = 4 * ((s.length + 2) / 3) := by
  match s with
  | a :: b :: c :: s =>
    have ih := length_encode s
    rw [encode]
    simp only [List.length_cons, ih]
    omega
  | [a, b] => simp [encode]
  | [a] => simp [encode]
  | [] => simp [encode]

theorem encodeLoop_eq {count : ℕ} {s t : List UInt8} (h : s.length = 3 * count) :
    encodeLoop count (s ++ t) = .ok (encode s, t) := by
  induction count generalizing s with
  | zero =>
    obtain rfl : s = [] := List.length_eq_zero_iff.mp h
    rfl
  | succ count ih =>
    obtain ⟨a, b, c, s, rfl, hs⟩ := exists_cons_three h
    rw [List.cons_append, List.cons_append, List.cons_append, encodeLoop, ih hs, encode]
    simp only [Nat.shiftLeft_eq, Nat.shiftRight_eq_div_pow, Nat.and_two_pow_sub_one_eq_mod _ 6,
      show (63 : ℕ) = 2 ^ 6 - 1 from rfl, Nat.reducePow]

theorem encodeRest_eq {s : List UInt8} (h : s.length < 3) :
    encodeRest s.length s = .ok (encode s) := by
  match s, h with
  | [], _ => rfl
  | [a], _ =>
    rw [List.length_singleton, encodeRest, encode]
    simp only [Nat.shiftLeft_eq, Nat.shiftRight_eq_div_pow, Nat.and_two_pow_sub_one_eq_mod _ 6,
      show (63 : ℕ) = 2 ^ 6 - 1 from rfl, Nat.reducePow]
  | [a, b], _ =>
    rw [show [a, b].length = 2 from rfl, encodeRest, encode]
    simp only [Nat.shiftLeft_eq, Nat.shiftRight_eq_div_pow, Nat.and_two_pow_sub_one_eq_mod _ 6,
      show (63 : ℕ) = 2 ^ 6 - 1 from rfl, Nat.reducePow]

theorem exists_groups (s : List UInt8) :
    ∃ front rest, s = front ++ rest ∧ front.length = 3 * (s.length / 3) ∧
      rest.length = s.length % 3 := by
  refine ⟨s.take (3 * (s.length / 3)), s.drop (3 * (s.length / 3)),
    (List.take_append_drop _ _).symm, ?_, ?_⟩
  · rw [List.length_take]
    omega
  · rw [List.length_drop]
    omega

/-- **The encoder**: an empty string is taken for one that is too long. -/
theorem base64encode_eq (s result : List UInt8) (hs : s.length < 2 ^ 64) :
    base64encodeString s result =
      if s ≠ [] ∧ 4 * ((s.length + 2) / 3) < 2 ^ 64 then .ok (result ++ encode s)
      else .error (.errno .EOVERFLOW) := by
  have hquad : (s.length / 3 + if s.length % 3 ≠ 0 then 1 else 0) = (s.length + 2) / 3 := by
    split_ifs <;> omega
  have hnil : s = [] ↔ s.length = 0 := List.length_eq_zero_iff.symm
  rw [base64encodeString, hquad]
  by_cases hok : s ≠ [] ∧ 4 * ((s.length + 2) / 3) < 2 ^ 64
  · rw [if_pos hok, if_neg (by rw [Nat.mod_eq_of_lt hok.2]; have := hnil.not.mp hok.1; omega)]
    obtain ⟨front, rest, rfl, hfront, hrest⟩ := exists_groups s
    have hlen := length_encode (front ++ rest)
    rw [encode_append hfront] at hlen ⊢
    rw [encodeLoop_eq hfront]
    dsimp only
    rw [← hrest, encodeRest_eq (by rw [hrest]; exact Nat.mod_lt _ (by decide))]
    dsimp only
    rw [appendbytes, if_pos (by rw [hlen, Nat.mod_eq_of_lt hok.2])]
  · rw [if_neg hok, if_pos]
    rw [not_and_or, not_not, hnil] at hok
    omega

/-! ## The decoder -/

/-- The character that the encoder writes for the value of a character. -/
def canon (c : UInt8) : UInt8 := char (value c)

theorem encode_group {n : ℕ} (h : n < 64 ^ 4) (s : List UInt8) :
    encode (UInt8.ofNat (n >>> 8 >>> 8) :: UInt8.ofNat (n >>> 8) :: UInt8.ofNat n :: s) =
      char (n / 64 / 64 / 64) :: char (n / 64 / 64 % 64) :: char (n / 64 % 64) :: char (n % 64) ::
        encode s := by
  have hn : (n / 2 ^ 8 / 2 ^ 8 % 2 ^ 8 * 256 + n / 2 ^ 8 % 2 ^ 8) * 256 + n % 2 ^ 8 = n := by omega
  rw [encode]
  simp only [UInt8.toNat_ofNat', Nat.shiftRight_eq_div_pow, hn]

theorem quadr_four {a b c d : UInt8}
    (h : invalid (quadr [value a, value b, value c, value d]) = false) :
    value a < 64 ∧ value b < 64 ∧ value c < 64 ∧ value d < 64 ∧
      quadr [value a, value b, value c, value d] =
        ((value a * 64 + value b) * 64 + value c) * 64 + value d := by
  have hall := (invalid_iff [a, b, c, d] (by simp)).mp h
  have hvalues : ∀ v ∈ [value a, value b, value c, value d], v < 64 := by
    simpa using hall
  refine ⟨hall a (by simp), hall b (by simp), hall c (by simp), hall d (by simp), ?_⟩
  rw [quadr_eq hvalues (by simp), number]
  simp

theorem of_decodeLoop {count : ℕ} {e s t : List UInt8} (h : decodeLoop count e = .ok (s, t)) :
    ∃ front, e = front ++ t ∧ front.length = 4 * count ∧ s.length = 3 * count ∧
      (∀ c ∈ front, value c < 64) ∧ encode s = front.map canon := by
  induction count generalizing e s with
  | zero =>
    rw [decodeLoop] at h
    obtain ⟨rfl, rfl⟩ := Prod.mk.inj (Except.ok.inj h)
    exact ⟨[], rfl, rfl, rfl, fun c hc => absurd hc List.not_mem_nil, rfl⟩
  | succ count ih =>
    match e, h with
    | a :: b :: c :: d :: e, h =>
      rw [decodeLoop] at h
      cases hinv : invalid (quadr [value a, value b, value c, value d]) with
      | true =>
        rw [hinv] at h
        exact absurd h (by simp)
      | false =>
        obtain ⟨ha, hb, hc, hd, hq⟩ := quadr_four hinv
        rw [hinv, if_neg Bool.false_ne_true] at h
        cases hloop : decodeLoop count e with
        | error err =>
          rw [hloop] at h
          exact absurd h (by simp)
        | ok r =>
          obtain ⟨s', t'⟩ := r
          rw [hloop] at h
          obtain ⟨rfl, rfl⟩ := Prod.mk.inj (Except.ok.inj h)
          obtain ⟨front, rfl, hfront, hs', hvalues, henc⟩ := ih hloop
          refine ⟨a :: b :: c :: d :: front, rfl, ?_, ?_, ?_, ?_⟩
          · simp only [List.length_cons, hfront]
            omega
          · simp only [List.length_cons, hs']
            omega
          · intro x hx
            simp only [List.mem_cons] at hx
            rcases hx with rfl | rfl | rfl | rfl | hx
            · exact ha
            · exact hb
            · exact hc
            · exact hd
            · exact hvalues x hx
          · rw [encode_group (by rw [hq]; omega), henc, hq]
            simp only [List.map_cons, canon]
            congr <;> omega
    | [_, _, _], h => exact absurd h (by simp [decodeLoop])
    | [_, _], h => exact absurd h (by simp [decodeLoop])
    | [_], h => exact absurd h (by simp [decodeLoop])
    | [], h => exact absurd h (by simp [decodeLoop])

theorem decodeLoop_encode {count : ℕ} {s t : List UInt8} (h : s.length = 3 * count) :
    decodeLoop count (encode s ++ t) = .ok (s, t) := by
  induction count generalizing s with
  | zero =>
    obtain rfl : s = [] := List.length_eq_zero_iff.mp h
    rfl
  | succ count ih =>
    obtain ⟨a, b, c, s, rfl, hs⟩ := exists_cons_three h
    have ha := a.toNat_lt
    have hb := b.toNat_lt
    have hc := c.toNat_lt
    set n := (a.toNat * 256 + b.toNat) * 256 + c.toNat with hn
    have hv := fun v (hv : v < 64) => value_char hv
    have hall : ∀ x ∈ [char (n / 64 / 64 / 64), char (n / 64 / 64 % 64), char (n / 64 % 64),
        char (n % 64)], value x < 64 := by
      intro x hx
      simp only [List.mem_cons, List.not_mem_nil, or_false] at hx
      rcases hx with rfl | rfl | rfl | rfl <;> rw [hv _ (by omega)] <;> omega
    have hinv := (invalid_iff _ (by simp)).mpr hall
    obtain ⟨-, -, -, -, hq⟩ := quadr_four hinv
    rw [hv _ (by omega), hv _ (by omega), hv _ (by omega), hv _ (by omega)] at hq
    have hqn : (((n / 64 / 64 / 64 * 64 + n / 64 / 64 % 64) * 64 + n / 64 % 64) * 64 + n % 64) = n := by
      omega
    simp only [List.map_cons, List.map_nil] at hinv
    rw [encode, List.cons_append, List.cons_append, List.cons_append, List.cons_append, decodeLoop]
    rw [← hn, hinv, if_neg Bool.false_ne_true, ih hs]
    dsimp only
    rw [hv _ (by omega), hv _ (by omega), hv _ (by omega), hv _ (by omega), hq, hqn]
    simp only [Nat.shiftRight_eq_div_pow]
    have h1 : UInt8.ofNat (n / 2 ^ 8 / 2 ^ 8) = a := by
      rw [← UInt8.toNat_inj, UInt8.toNat_ofNat']
      omega
    have h2 : UInt8.ofNat (n / 2 ^ 8) = b := by
      rw [← UInt8.toNat_inj, UInt8.toNat_ofNat']
      omega
    have h3 : UInt8.ofNat n = c := by
      rw [← UInt8.toNat_inj, UInt8.toNat_ofNat']
      omega
    rw [h1, h2, h3]

theorem of_decodeRest_one {a b c d : UInt8} {s : List UInt8}
    (h : decodeRest 1 [a, b, c, d] = .ok s) :
    value a < 64 ∧ value b < 64 ∧ value c < 64 ∧ s.length = 2 ∧
      encode s = [canon a, canon b, char (value c / 4 * 4), pad] := by
  rw [decodeRest] at h
  cases hinv : invalid (quadr [value a, value b, value c]) with
  | true =>
    rw [hinv] at h
    exact absurd h (by simp)
  | false =>
    rw [hinv, if_neg Bool.false_ne_true] at h
    have hall := (invalid_iff [a, b, c] (by simp)).mp hinv
    have hvalues : ∀ v ∈ [value a, value b, value c], v < 64 := by simpa using hall
    have ha := hall a (by simp)
    have hb := hall b (by simp)
    have hc := hall c (by simp)
    have hq : quadr [value a, value b, value c] = (value a * 64 + value b) * 64 + value c := by
      rw [quadr_eq hvalues (by simp), number]
      simp
    refine ⟨ha, hb, hc, ?_, ?_⟩
    · rw [← Except.ok.inj h]
      rfl
    · rw [← Except.ok.inj h, hq, encode]
      simp only [Nat.shiftRight_eq_div_pow, UInt8.toNat_ofNat', canon]
      congr <;> omega

theorem of_decodeRest_two {a b c d : UInt8} {s : List UInt8}
    (h : decodeRest 2 [a, b, c, d] = .ok s) :
    value a < 64 ∧ value b < 64 ∧ s.length = 1 ∧
      encode s = [canon a, char (value b / 16 * 16), pad, pad] := by
  rw [decodeRest] at h
  cases hinv : invalid (quadr [value a, value b]) with
  | true =>
    rw [hinv] at h
    exact absurd h (by simp)
  | false =>
    rw [hinv, if_neg Bool.false_ne_true] at h
    have hall := (invalid_iff [a, b] (by simp)).mp hinv
    have hvalues : ∀ v ∈ [value a, value b], v < 64 := by simpa using hall
    have ha := hall a (by simp)
    have hb := hall b (by simp)
    have hq : quadr [value a, value b] = value a * 64 + value b := by
      rw [quadr_eq hvalues (by simp), number]
      simp
    refine ⟨ha, hb, ?_, ?_⟩
    · rw [← Except.ok.inj h]
      rfl
    · rw [← Except.ok.inj h, hq, encode]
      simp only [Nat.shiftRight_eq_div_pow, UInt8.toNat_ofNat', canon]
      congr <;> omega

theorem decodeRest_encode {s : List UInt8} (h : s.length < 3) :
    decodeRest (if s.length = 0 then 0 else 3 - s.length) (encode s) = .ok s := by
  match s, h with
  | [], _ => rfl
  | [a], _ =>
    have ha := a.toNat_lt
    have hv1 := value_char (show a.toNat * 16 / 64 < 64 by omega)
    have hv2 := value_char (show a.toNat * 16 % 64 < 64 by omega)
    have hall : ∀ c ∈ [char (a.toNat * 16 / 64), char (a.toNat * 16 % 64)], value c < 64 := by
      simp only [List.mem_cons, List.not_mem_nil, or_false, forall_eq_or_imp, forall_eq, hv1, hv2]
      omega
    have hinv := (invalid_iff _ (by simp)).mpr hall
    have hq := quadr_eq (show ∀ v ∈ [a.toNat * 16 / 64, a.toNat * 16 % 64], v < 64 by
      simp only [List.mem_cons, List.not_mem_nil, or_false, forall_eq_or_imp, forall_eq]
      omega) (by simp)
    simp only [List.map_cons, List.map_nil, hv1, hv2] at hinv
    rw [show (if [a].length = 0 then 0 else 3 - [a].length) = 2 from rfl, encode,
      decodeRest]
    rw [hv1, hv2, hinv, if_neg Bool.false_ne_true, hq]
    congr 2
    rw [← UInt8.toNat_inj, UInt8.toNat_ofNat', Nat.shiftRight_eq_div_pow, number]
    simp only [List.foldl_cons, List.foldl_nil]
    omega
  | [a, b], _ =>
    have ha := a.toNat_lt
    have hb := b.toNat_lt
    set n := (a.toNat * 256 + b.toNat) * 4 with hn
    have hv1 := value_char (show n / 64 / 64 < 64 by omega)
    have hv2 := value_char (show n / 64 % 64 < 64 by omega)
    have hv3 := value_char (show n % 64 < 64 by omega)
    have hall : ∀ c ∈ [char (n / 64 / 64), char (n / 64 % 64), char (n % 64)], value c < 64 := by
      simp only [List.mem_cons, List.not_mem_nil, or_false, forall_eq_or_imp, forall_eq, hv1, hv2,
        hv3]
      omega
    have hinv := (invalid_iff _ (by simp)).mpr hall
    have hq := quadr_eq (show ∀ v ∈ [n / 64 / 64, n / 64 % 64, n % 64], v < 64 by
      simp only [List.mem_cons, List.not_mem_nil, or_false, forall_eq_or_imp, forall_eq]
      omega) (by simp)
    simp only [List.map_cons, List.map_nil, hv1, hv2, hv3] at hinv
    have hnum : number [n / 64 / 64, n / 64 % 64, n % 64] = n := by
      rw [number]
      simp only [List.foldl_cons, List.foldl_nil]
      omega
    rw [show (if [a, b].length = 0 then 0 else 3 - [a, b].length) = 1 from rfl, encode,
      ← hn, decodeRest]
    rw [hv1, hv2, hv3, hinv, if_neg Bool.false_ne_true, hq, hnum]
    simp only [Nat.shiftRight_eq_div_pow]
    have h1 : UInt8.ofNat (n / 2 ^ 2 / 2 ^ 8) = a := by
      rw [← UInt8.toNat_inj, UInt8.toNat_ofNat']
      omega
    have h2 : UInt8.ofNat (n / 2 ^ 2) = b := by
      rw [← UInt8.toNat_inj, UInt8.toNat_ofNat']
      omega
    rw [h1, h2]

theorem ne_pad_of_mem {count : ℕ} {s : List UInt8} (h : s.length = 3 * count) {c : UInt8}
    (hc : c ∈ encode s) : c ≠ pad := by
  induction count generalizing s with
  | zero =>
    obtain rfl : s = [] := List.length_eq_zero_iff.mp h
    exact absurd hc (by simp [encode])
  | succ count ih =>
    obtain ⟨x, y, z, s, rfl, hs⟩ := exists_cons_three h
    have hx := x.toNat_lt
    rw [encode] at hc
    simp only [List.mem_cons] at hc
    rcases hc with rfl | rfl | rfl | rfl | hc
    · exact char_ne_pad (by have := y.toNat_lt; have := z.toNat_lt; omega)
    · exact char_ne_pad (by omega)
    · exact char_ne_pad (by omega)
    · exact char_ne_pad (by omega)
    · exact ih hs hc

theorem getD_last (front : List UInt8) (a b c d : UInt8) :
    (front ++ [a, b, c, d]).getD ((front ++ [a, b, c, d]).length - 1) 0 = d ∧
      (front ++ [a, b, c, d]).getD ((front ++ [a, b, c, d]).length - 2) 0 = c := by
  rw [List.length_append, show [a, b, c, d].length = 4 from rfl]
  constructor
  · rw [List.getD_append_right _ _ _ _ (by omega),
      show front.length + 4 - 1 - front.length = 3 by omega]
    rfl
  · rw [List.getD_append_right _ _ _ _ (by omega),
      show front.length + 4 - 2 - front.length = 2 by omega]
    rfl

theorem getD_ne_pad {e : List UInt8} (h : ∀ c ∈ e, c ≠ pad) (hne : e ≠ []) {k : ℕ} (hk : 0 < k) :
    e.getD (e.length - k) 0 ≠ pad := by
  have hpos := List.length_pos_of_ne_nil hne
  rw [List.getD_eq_getElem _ _ (by omega)]
  exact h _ (List.getElem_mem _)

theorem padding_encode {s : List UInt8} (hs : s ≠ []) :
    ((encode s).getD ((encode s).length - 1) 0 = pad ↔ s.length % 3 ≠ 0) ∧
      ((encode s).getD ((encode s).length - 2) 0 = pad ↔ s.length % 3 = 1) := by
  obtain ⟨front, rest, rfl, hfront, hrest⟩ := exists_groups s
  rw [encode_append hfront, ← hrest]
  have hlt : rest.length < 3 := by
    rw [hrest]
    exact Nat.mod_lt _ (by decide)
  match rest, hlt with
  | [], _ =>
    have hne : encode front ≠ [] := by
      intro hnil
      have := congrArg List.length hnil
      have := List.length_pos_of_ne_nil hs
      rw [length_encode] at *
      simp only [List.append_nil, List.length_nil] at *
      omega
    have hpad := fun k hk => getD_ne_pad (fun c hc => ne_pad_of_mem hfront hc) hne (k := k) hk
    rw [show encode [] = [] from rfl, List.append_nil]
    exact ⟨⟨fun h => absurd h (hpad 1 (by decide)), fun h => absurd rfl h⟩,
      ⟨fun h => absurd h (hpad 2 (by decide)), fun h => absurd h (by decide)⟩⟩
  | [a], _ =>
    rw [encode]
    obtain ⟨h1, h2⟩ := getD_last (encode front) (char (a.toNat * 16 / 64))
      (char (a.toNat * 16 % 64)) pad pad
    exact ⟨⟨fun _ => by simp, fun _ => h1⟩, ⟨fun _ => rfl, fun _ => h2⟩⟩
  | [a, b], _ =>
    rw [encode]
    obtain ⟨h1, h2⟩ := getD_last (encode front) (char ((a.toNat * 256 + b.toNat) * 4 / 64 / 64))
      (char ((a.toNat * 256 + b.toNat) * 4 / 64 % 64))
      (char ((a.toNat * 256 + b.toNat) * 4 % 64)) pad
    refine ⟨⟨fun _ => by simp, fun _ => h1⟩, ⟨fun h => ?_, fun h => absurd h (by simp)⟩⟩
    rw [h2] at h
    exact absurd h (char_ne_pad (Nat.mod_lt _ (by decide)))

/-- **The decoder** reads back every encoding. -/
theorem base64decode_encode (s result : List UInt8) :
    base64decodeString (encode s) result = .ok (result ++ s) := by
  by_cases hs : s = []
  · subst hs
    rw [List.append_nil]
    rfl
  · obtain ⟨hpad1, hpad2⟩ := padding_encode hs
    have hlen := length_encode s
    have hpos := List.length_pos_of_ne_nil hs
    have hmod3 : ((if (encode s).getD ((encode s).length - 1) 0 = pad then 1 else 0) +
        if (encode s).getD ((encode s).length - 2) 0 = pad then 1 else 0) =
          if s.length % 3 = 0 then 0 else 3 - s.length % 3 := by
      have hlt := Nat.mod_lt s.length (show 0 < 3 by decide)
      simp only [hpad1, hpad2]
      split_ifs <;> omega
    rw [base64decodeString, if_neg (by rw [hlen]; omega), if_neg (by rw [hlen]; omega), hmod3]
    obtain ⟨front, rest, rfl, hfront, hrest⟩ := exists_groups s
    have hcount : (encode (front ++ rest)).length / 4 -
        (if (if (front ++ rest).length % 3 = 0 then 0 else 3 - (front ++ rest).length % 3) ≠ 0
          then 1 else 0) = (front ++ rest).length / 3 := by
      rw [hlen]
      split_ifs <;> omega
    dsimp only
    rw [hcount]
    have henc := encode_append hfront (t := rest)
    rw [henc, decodeLoop_encode hfront]
    dsimp only
    rw [← hrest, decodeRest_encode (by rw [hrest]; exact Nat.mod_lt _ (by decide))]
    dsimp only
    rw [appendbytes, if_pos]
    rw [← henc, hlen, hrest]
    split_ifs <;> omega

theorem sizebase64decode_encode (s : List UInt8) :
    sizebase64decodeString (encode s) = s.length := by
  by_cases hs : s = []
  · subst hs
    rfl
  · obtain ⟨hpad1, hpad2⟩ := padding_encode hs
    have hlen := length_encode s
    have hpos := List.length_pos_of_ne_nil hs
    have hlt := Nat.mod_lt s.length (show 0 < 3 by decide)
    rw [sizebase64decodeString]
    simp only [hpad1, hpad2]
    rw [hlen]
    split_ifs <;> omega

/-! ## Encoding what has been decoded -/

/-- The encodings differ in the unused low bits of the last character before the padding only. -/
inductive SameUpToUnused : List UInt8 → List UInt8 → Prop
  | same (e : List UInt8) : SameUpToUnused e e
  | last (front : List UInt8) {v w k : ℕ} (hv : v < 64) (hw : w < 64) (hk : k = 1 ∨ k = 2)
      (h : v / 4 ^ k = w / 4 ^ k) :
      SameUpToUnused (front ++ char v :: List.replicate k pad)
        (front ++ char w :: List.replicate k pad)

theorem SameUpToUnused.question {e e' : List UInt8} (h : SameUpToUnused e e') (he : 63 ∉ e') :
    63 ∉ e := by
  cases h with
  | same => exact he
  | last front hv hw hk =>
    simp only [List.mem_append, List.mem_cons, not_or] at he ⊢
    exact ⟨he.1, (char_ne_question hv).symm, he.2.2⟩

theorem question_notMem_encode (s : List UInt8) : 63 ∉ encode s := by
  have hpad : pad ≠ 63 := by decide
  match s with
  | a :: b :: c :: s =>
    have ih := question_notMem_encode s
    have ha := a.toNat_lt
    have hb := b.toNat_lt
    have hc := c.toNat_lt
    rw [encode]
    simp only [List.mem_cons, not_or]
    exact ⟨(char_ne_question (by omega)).symm, (char_ne_question (by omega)).symm,
      (char_ne_question (by omega)).symm, (char_ne_question (by omega)).symm, ih⟩
  | [a, b] =>
    have ha := a.toNat_lt
    have hb := b.toNat_lt
    rw [encode]
    simp only [List.mem_cons, not_or, List.not_mem_nil, not_false_iff, and_true]
    exact ⟨(char_ne_question (by omega)).symm, (char_ne_question (by omega)).symm,
      (char_ne_question (by omega)).symm, hpad.symm⟩
  | [a] =>
    have ha := a.toNat_lt
    rw [encode]
    simp only [List.mem_cons, not_or, List.not_mem_nil, not_false_iff, and_true]
    exact ⟨(char_ne_question (by omega)).symm, (char_ne_question (by omega)).symm, hpad.symm,
      hpad.symm⟩
  | [] => exact List.not_mem_nil

theorem map_canon {e : List UInt8} (hvalues : ∀ c ∈ e, value c < 64) (h : 63 ∉ e) :
    e.map canon = e := by
  refine (List.map_congr_left fun c hc => ?_).trans (List.map_id e)
  exact char_value (hvalues c hc) fun heq => h (heq ▸ hc)

theorem exists_last_four {e : List UInt8} {count : ℕ} (h : e.length = 4 * (count + 1)) :
    ∃ front a b c d, e = front ++ [a, b, c, d] ∧ front.length = 4 * count := by
  have hlen : (e.drop (4 * count)).length = 4 := by
    rw [List.length_drop]
    omega
  obtain ⟨a, b, c, d, hd⟩ := List.length_eq_four.mp hlen
  refine ⟨e.take (4 * count), a, b, c, d, ?_, ?_⟩
  · rw [← hd, List.take_append_drop]
  · rw [List.length_take]
    omega

theorem of_decoded {count mod3 resultSize : ℕ} {e result r : List UInt8}
    (h : (match decodeLoop count e with
      | .error err => Except.error err
      | .ok (dest, next) =>
        match decodeRest mod3 next with
        | .error err => Except.error err
        | .ok rest => appendbytes result resultSize (dest ++ rest)) = .ok r) :
    ∃ dest next rest, decodeLoop count e = .ok (dest, next) ∧ decodeRest mod3 next = .ok rest ∧
      r = result ++ (dest ++ rest) := by
  cases hloop : decodeLoop count e with
  | error err =>
    rw [hloop] at h
    exact absurd h (by simp)
  | ok p =>
    obtain ⟨dest, next⟩ := p
    rw [hloop] at h
    dsimp only at h
    cases hrest : decodeRest mod3 next with
    | error err =>
      rw [hrest] at h
      exact absurd h (by simp)
    | ok rest =>
      rw [hrest] at h
      dsimp only at h
      rw [appendbytes] at h
      split_ifs at h with hlen
      exact ⟨dest, next, rest, rfl, hrest, (Except.ok.inj h).symm⟩

theorem of_base64decode {e result r : List UInt8} (h : base64decodeString e result = .ok r)
    (hne : e ≠ []) :
    ∃ s, r = result ++ s ∧ s ≠ [] ∧ (encode s).length = e.length ∧
      (63 ∉ e → SameUpToUnused e (encode s)) := by
  rw [base64decodeString] at h
  have hpos := List.length_pos_of_ne_nil hne
  by_cases hmod : e.length % 4 = 0
  swap
  · rw [if_pos hmod] at h
    exact absurd h (by simp)
  rw [if_neg (not_not.mpr hmod), if_neg (by omega)] at h
  obtain ⟨count, hcount⟩ : ∃ count, e.length = 4 * (count + 1) := ⟨e.length / 4 - 1, by omega⟩
  obtain ⟨front, a, b, c, d, rfl, hfront⟩ := exists_last_four hcount
  obtain ⟨hlast, hlast2⟩ := getD_last front a b c d
  rw [hlast, hlast2, hcount, Nat.mul_div_cancel_left _ (show 0 < 4 by decide)] at h
  -- the loop stops before a padded group, and the rest follows
  have hsplit : ∀ {dest next : List UInt8}, decodeLoop count (front ++ [a, b, c, d]) =
      .ok (dest, next) → next = [a, b, c, d] ∧ dest.length = 3 * count ∧
        (∀ x ∈ front, value x < 64) ∧ encode dest = front.map canon := by
    intro dest next hloop
    obtain ⟨front', heq, hlen, hdest, hvalues, henc⟩ := of_decodeLoop hloop
    obtain ⟨rfl, rfl⟩ := List.append_inj heq (hfront.trans hlen.symm)
    exact ⟨rfl, hdest, hvalues, henc⟩
  by_cases hd : d = pad
  · by_cases hc : c = pad
    · rw [if_pos hd, if_pos hc] at h
      obtain ⟨dest, next, rest, hloop, hrest, rfl⟩ := of_decoded h
      obtain ⟨rfl, hdest, hvalues, henc⟩ := hsplit hloop
      obtain ⟨ha, hb, hlen, hlast⟩ := of_decodeRest_two hrest
      have hs := encode_append hdest (t := rest)
      rw [henc, hlast] at hs
      refine ⟨dest ++ rest, rfl, ?_, ?_, fun hq => ?_⟩
      · intro hnil
        have := congrArg List.length hnil
        rw [List.length_append, hlen] at this
        simp at this
      · simp [hs]
      · simp only [List.mem_append, List.mem_cons, not_or] at hq
        rw [hs, map_canon hvalues hq.1, canon, char_value ha (Ne.symm hq.2.1), hd, hc]
        have hsame := SameUpToUnused.last (front ++ [a]) hb
          (show value b / 16 * 16 < 64 by omega) (Or.inr rfl)
          (show value b / 4 ^ 2 = value b / 16 * 16 / 4 ^ 2 by omega)
        rw [char_value hb (Ne.symm hq.2.2.1), List.append_assoc, List.append_assoc] at hsame
        exact hsame
    · rw [if_pos hd, if_neg hc] at h
      obtain ⟨dest, next, rest, hloop, hrest, rfl⟩ := of_decoded h
      obtain ⟨rfl, hdest, hvalues, henc⟩ := hsplit hloop
      obtain ⟨ha, hb, hvc, hlen, hlast⟩ := of_decodeRest_one hrest
      have hs := encode_append hdest (t := rest)
      rw [henc, hlast] at hs
      refine ⟨dest ++ rest, rfl, ?_, ?_, fun hq => ?_⟩
      · intro hnil
        have := congrArg List.length hnil
        rw [List.length_append, hlen] at this
        simp at this
      · simp [hs]
      · simp only [List.mem_append, List.mem_cons, not_or] at hq
        rw [hs, map_canon hvalues hq.1, canon, canon, char_value ha (Ne.symm hq.2.1),
          char_value hb (Ne.symm hq.2.2.1), hd]
        have hsame := SameUpToUnused.last (front ++ [a, b]) hvc
          (show value c / 4 * 4 < 64 by omega) (Or.inl rfl)
          (show value c / 4 ^ 1 = value c / 4 * 4 / 4 ^ 1 by omega)
        rw [char_value hvc (Ne.symm hq.2.2.2.1), List.append_assoc, List.append_assoc] at hsame
        exact hsame
  · by_cases hc : c = pad
    · rw [if_neg hd, if_pos hc] at h
      obtain ⟨dest, next, rest, hloop, hrest, rfl⟩ := of_decoded h
      obtain ⟨rfl, -, -, -⟩ := hsplit hloop
      obtain ⟨-, -, hvc, -⟩ := of_decodeRest_one hrest
      rw [hc, value_pad] at hvc
      exact absurd hvc (by decide)
    · rw [if_neg hd, if_neg hc] at h
      obtain ⟨dest, next, rest, hloop, hrest, rfl⟩ :
          ∃ dest next rest, decodeLoop (count + 1) (front ++ [a, b, c, d]) = .ok (dest, next) ∧
            decodeRest 0 next = .ok rest ∧ r = result ++ (dest ++ rest) := of_decoded h
      obtain ⟨front', heq, hlen, hdest, hvalues, henc⟩ := of_decodeLoop hloop
      have hnext : next = [] := by
        have := congrArg List.length heq
        rw [hcount, List.length_append, hlen] at this
        exact List.length_eq_zero_iff.mp (by omega)
      obtain rfl : rest = [] := (Except.ok.inj hrest).symm
      subst hnext
      rw [List.append_nil] at heq
      subst heq
      refine ⟨dest ++ [], rfl, ?_, ?_, fun hq => ?_⟩
      · rw [List.append_nil]
        exact List.ne_nil_of_length_pos (by omega)
      · rw [List.append_nil, henc, List.length_map]
      · rw [List.append_nil, henc, map_canon hvalues hq]
        exact SameUpToUnused.same _

/-! ## When encoder and decoder are inverse -/

/-- The encoding has the right size, and it is decoded to the string. -/
def Inverse (s : List UInt8) : Prop :=
  ∀ result, ∃ e, base64encodeString s result = .ok (result ++ e) ∧
    e.length = 4 * ((s.length + 2) / 3) ∧ sizebase64decodeString e = s.length ∧
      ∀ result', base64decodeString e result' = .ok (result' ++ s)

theorem inverse_iff {s : List UInt8} (hs : s.length < 2 ^ 64) :
    Inverse s ↔ s ≠ [] ∧ 4 * ((s.length + 2) / 3) < 2 ^ 64 := by
  constructor
  · intro h
    obtain ⟨e, he, -⟩ := h []
    rw [base64encode_eq s [] hs] at he
    split_ifs at he with hok
    exact hok
  · intro hok result
    refine ⟨encode s, ?_, length_encode s, sizebase64decode_encode s, base64decode_encode s⟩
    rw [base64encode_eq s result hs, if_pos hok]

theorem reencode_iff {e s : List UInt8} (he : e.length < 2 ^ 64)
    (h : base64decodeString e [] = .ok s) :
    (∃ e', base64encodeString s [] = .ok e' ∧ SameUpToUnused e e') ↔ e ≠ [] ∧ 63 ∉ e := by
  by_cases hne : e = []
  · -- nothing is decoded to nothing, which is not encoded
    subst hne
    obtain rfl : [] = s := Except.ok.inj h
    refine ⟨?_, fun hnil => absurd rfl hnil.1⟩
    rintro ⟨e', he', -⟩
    exact absurd he' (by simp [base64encodeString])
  · obtain ⟨s', hs', hsne, hlen, hsame⟩ := of_base64decode h hne
    rw [List.nil_append] at hs'
    subst hs'
    rw [length_encode] at hlen
    rw [base64encode_eq s [] (by omega), if_pos ⟨hsne, by omega⟩, List.nil_append]
    constructor
    · rintro ⟨e', he', hsame'⟩
      rw [← Except.ok.inj he'] at hsame'
      exact ⟨hne, hsame'.question (question_notMem_encode s)⟩
    · rintro ⟨-, hq⟩
      exact ⟨_, rfl, hsame hq⟩

/-- **Encoder and decoder are inverse** for every string but the empty one, if the size of its
encoding is a `size_t`; and encoding gives back what has been decoded, if it is not empty and holds
no question mark. -/
theorem base64_inverse_iff (s e : List UInt8) (hs : s.length < 2 ^ 64) (he : e.length < 2 ^ 64) :
    (Inverse s ↔ s ≠ [] ∧ 4 * ((s.length + 2) / 3) < 2 ^ 64) ∧
    ∀ t, base64decodeString e [] = .ok t →
      ((∃ e', base64encodeString t [] = .ok e' ∧ SameUpToUnused e e') ↔ e ≠ [] ∧ 63 ∉ e) :=
  ⟨inverse_iff hs, fun _ h => reencode_iff he h⟩

/-- Two bytes, and an encoding with unused bits. -/
theorem base64_inverse_two :
    Inverse [88, 89] ∧ ∃ s e', base64decodeString [87, 70, 108, 61] [] = .ok s ∧
      base64encodeString s [] = .ok e' ∧ SameUpToUnused [87, 70, 108, 61] e' := by
  obtain ⟨hinverse, hencode⟩ :=
    base64_inverse_iff [88, 89] [87, 70, 108, 61] (by decide) (by decide)
  obtain ⟨e', he', hsame⟩ := (hencode [88, 89] (by decide +kernel)).mpr (by decide)
  exact ⟨hinverse.mpr (by decide), [88, 89], e', by decide +kernel, he', hsame⟩

/-- The empty string is not encoded, and a question mark is decoded. -/
theorem base64_not_inverse :
    base64encodeString [] [] = .error (.errno .EOVERFLOW) ∧
      base64decodeString [63, 63, 63, 63] [] = .ok [251, 239, 190] ∧
      base64encodeString [251, 239, 190] [] = .ok [43, 43, 43, 43] := by
  decide +kernel

end Base64
end CKern
