import CKern.String.Utf8
import Mathlib.Tactic.Ring

/-!
# `string/utf8.c`: the chunked validator

`validate_utf8validator` reads one block of a text.  A sequence that the block cuts off is kept
as a prefix, padded with zero bytes, and is completed by the next blocks.

The code is a loop with two labels, the loop head and `VALIDATE`, over two pointers into either
the block or the prefix.  Here the pointers are a `Cursor`, every read is an `Option` that is
`none` outside of the buffer, and the loop is `run` with the number of its rounds as fuel.  So a
result `some _` also says that no byte outside of the two buffers is read.

* `scan`: the validation of a whole text, without blocks and without padding.
* `validate_eq_scan`: one block validated after a pending prefix is `scan` of both.
* `feed_eq_scan`: any cutting into blocks is `scan` of the whole text.
-/

namespace CKern
namespace Utf8

/-! ## The code -/

/-- `utf8validator_t`.  The array `prefix` has `maxsize` bytes. -/
structure Validator where
  sizeprefix : Nat
  pfx : List UInt8
  deriving DecidableEq, Repr

/-- `utf8validator_INIT`. -/
def Validator.init : Validator := ⟨0, List.replicate maxsize 0⟩

/-- `free_utf8validator`: `false` stands for `EILSEQ`. -/
def Validator.free (v : Validator) : Bool := v.sizeprefix == 0

/-- The tests of the following bytes `next[i] .. next[i+k-1]`.  The result is the size of the
sequence, or the offset of the first byte that is no following byte. -/
def checkFollowBytes (next : Nat → Option UInt8) : Nat → Nat → Option (Except Nat Nat)
  | i, 0 => some (.ok i)
  | i, k + 1 => do
      let b ← next i
      if isFollow b then checkFollowBytes next (i + 1) k else some (.error i)

/-- The cases `224`, `240`, `248` and `252`: the least first byte of a sequence of `n` bytes,
whose second byte must not be below `low`. -/
def checkLowest (next : Nat → Option UInt8) (low n : Nat) : Option (Except Nat Nat) := do
  let b ← next 1
  if isFollow b then
    if b.toNat < low then some (.error 1) else checkFollowBytes next 2 (n - 2)
  else some (.error 1)

/-- The cases of the `switch (next[0])` at the label `VALIDATE`. -/
def checkCase (next : Nat → Option UInt8) (b : Nat) : Option (Except Nat Nat) :=
  if b ≤ 127 then some (.ok 1)
  else if b ≤ 193 then some (.error 0)
  else if b ≤ 223 then checkFollowBytes next 1 1
  else if b = 224 then checkLowest next 0xA0 3
  else if b ≤ 239 then checkFollowBytes next 1 2
  else if b = 240 then checkLowest next 0x90 4
  else if b ≤ 247 then checkFollowBytes next 1 3
  else if b = 248 then checkLowest next 0x88 5
  else if b ≤ 251 then checkFollowBytes next 1 4
  else if b = 252 then checkLowest next 0x84 6
  else if b = 253 then checkFollowBytes next 1 5
  else some (.error 0)

/-- The `switch`: the size of the sequence at `next`, or `erroff`. -/
def checkSequence (next : Nat → Option UInt8) : Option (Except Nat Nat) := do
  let b ← next 0
  checkCase next b.toNat

/-- The local variables: the pointers `next` and `endnext`, which point both into the prefix or
both into the block, `size_missing`, and the validator. -/
structure Cursor where
  inPrefix : Bool
  next : Nat
  endnext : Nat
  sizeMissing : Nat
  v : Validator

/-- `next[i]`. -/
def Cursor.read (data : List UInt8) (c : Cursor) (i : Nat) : Option UInt8 :=
  if c.inPrefix then c.v.pfx[c.next + i]? else data[c.next + i]?

/-- A loop that stores `bytes` one after the other, from index `off` on. -/
def storeBytes : List UInt8 → Nat → List UInt8 → List UInt8
  | pfx, _, [] => pfx
  | pfx, off, b :: bytes => storeBytes (pfx.set off b) (off + 1) bytes

/-- The result of a call: the error offset if the return value is `EILSEQ`, and the validator
after the call. -/
abbrev Result := Option Nat × Validator

/-- The end of the loop head: the block is done, or the last sequence is moved into the prefix if
the block cuts it off. -/
def tail (data : List UInt8) (c : Cursor) : Option (Result ⊕ Cursor) :=
  if data.length < c.next then none
  else
    let nrbytes := data.length - c.next
    if nrbytes = 0 then some (.inl (none, c.v))
    else do
      let b ← c.read data 0
      if nrbytes < sizePfirst b then
        some (.inr { c with
          inPrefix := true, next := 0, endnext := 0
          v := ⟨nrbytes, storeBytes c.v.pfx 0
            (data.drop c.next ++ List.replicate (maxsize - nrbytes) 0)⟩ })
      else some (.inr { c with endnext := c.next })

/-- The loop head, up to the label `VALIDATE`. -/
def head (data : List UInt8) (c : Cursor) : Option (Result ⊕ Cursor) :=
  if c.endnext ≤ c.next then
    if c.v.sizeprefix ≠ 0 then
      -- the completed prefix was valid: go on with the rest of the block
      let c' : Cursor :=
        { inPrefix := false, next := c.sizeMissing, endnext := data.length, sizeMissing := 0
          v := { c.v with sizeprefix := 0 } }
      if maxsize ≤ data.length - c'.next then
        some (.inr { c' with endnext := data.length - maxsize })
      else tail data c'
    else tail data c
  else some (.inr c)

/-- The label `ONERR`. -/
def onerr (data : List UInt8) (c : Cursor) (erroff : Nat) : Result :=
  if c.v.sizeprefix ≠ 0 then
    if c.v.sizeprefix ≤ erroff then (none, c.v)
    else if c.sizeMissing ≠ 0 then
      (some (erroff - (c.v.sizeprefix - c.sizeMissing)), { c.v with sizeprefix := 0 })
    else
      (some (erroff + (data.length - c.v.sizeprefix)), { c.v with sizeprefix := 0 })
  else (some (erroff + c.next), c.v)

/-- The loop from the label `VALIDATE` on. -/
def run (data : List UInt8) : Nat → Cursor → Option Result
  | 0, _ => none
  | fuel + 1, c => do
      match ← checkSequence (c.read data) with
      | .error erroff => some (onerr data c erroff)
      | .ok n =>
          match ← head data { c with next := c.next + n } with
          | .inl r => some r
          | .inr c' => run data fuel c'

/-- `validate_utf8validator`.  Every round but the first and the last one consumes a byte of the
block. -/
def validate (v : Validator) (data : List UInt8) : Option Result :=
  let fuel := data.length + 2
  if data.length = 0 then some (none, v)
  else if v.sizeprefix ≠ 0 then do
    let b ← v.pfx[0]?
    let sizeMissing := min data.length (sizePfirst b - v.sizeprefix)
    run data fuel
      { inPrefix := true, next := 0, endnext := 0, sizeMissing := sizeMissing
        v := ⟨v.sizeprefix + sizeMissing,
          storeBytes v.pfx v.sizeprefix (data.take sizeMissing)⟩ }
  else do
    let c : Cursor :=
      { inPrefix := false, next := 0, endnext := data.length - maxsize, sizeMissing := 0, v := v }
    match ← head data c with
    | .inl r => some r
    | .inr c' => run data fuel c'

/-- The calls for a list of blocks, stopped by the first error.  An error is reported with the
number of the failing block and the offset in it. -/
def feed (v : Validator) : List (List UInt8) → Option (Except (Nat × Nat) Validator)
  | [] => some (.ok v)
  | data :: blocks => do
      match ← validate v data with
      | (some off, _) => some (.error (0, off))
      | (none, v') =>
          match ← feed v' blocks with
          | .error (i, off) => some (.error (i + 1, off))
          | .ok v'' => some (.ok v'')


/-! ## What a check reads -/

section Check

variable {next next' : Nat → Option UInt8}

theorem checkFollowBytes_mono (h : ∀ i b, next i = some b → next' i = some b) {k i : Nat}
    {r : Except Nat Nat} (hr : checkFollowBytes next i k = some r) :
    checkFollowBytes next' i k = some r := by
  induction k generalizing i with
  | zero => exact hr
  | succ k ih =>
    rw [checkFollowBytes, Option.bind_eq_bind, Option.bind_eq_some_iff] at hr ⊢
    obtain ⟨b, hb, hr⟩ := hr
    refine ⟨b, h i b hb, ?_⟩
    split_ifs at hr ⊢
    · exact ih hr
    · exact hr

theorem checkFollowBytes_eq_ok {k i n : Nat} (h : checkFollowBytes next i k = some (.ok n)) :
    n = i + k ∧ ∀ j, i ≤ j → j < i + k → ∃ b, next j = some b ∧ isFollow b = true := by
  induction k generalizing i with
  | zero =>
    rw [checkFollowBytes] at h
    simp only [Option.some.injEq, Except.ok.injEq] at h
    exact ⟨by omega, fun j h1 h2 => by omega⟩
  | succ k ih =>
    rw [checkFollowBytes, Option.bind_eq_bind, Option.bind_eq_some_iff] at h
    obtain ⟨b, hb, h⟩ := h
    split_ifs at h with hf
    · obtain ⟨hn, hall⟩ := ih h
      refine ⟨by omega, fun j h1 h2 => ?_⟩
      rcases Nat.eq_or_lt_of_le h1 with rfl | h1
      · exact ⟨b, hb, hf⟩
      · exact hall j h1 (by omega)
    · simp at h

theorem checkFollowBytes_of_follow {k i : Nat}
    (h : ∀ j, i ≤ j → j < i + k → ∃ b, next j = some b ∧ isFollow b = true) :
    checkFollowBytes next i k = some (.ok (i + k)) := by
  induction k generalizing i with
  | zero => rfl
  | succ k ih =>
    obtain ⟨b, hb, hf⟩ := h i (le_refl i) (by omega)
    rw [checkFollowBytes, hb, Option.bind_eq_bind, Option.bind_some, if_pos hf,
      ih fun j h1 h2 => h j (by omega) (by omega)]
    congr 2
    omega

theorem checkFollowBytes_eq_error {k i e : Nat}
    (h : checkFollowBytes next i k = some (.error e)) : ∃ b, next e = some b := by
  induction k generalizing i with
  | zero => simp [checkFollowBytes] at h
  | succ k ih =>
    rw [checkFollowBytes, Option.bind_eq_bind, Option.bind_eq_some_iff] at h
    obtain ⟨b, hb, h⟩ := h
    split_ifs at h
    · exact ih h
    · simp only [Option.some.injEq, Except.error.injEq] at h
      exact ⟨b, h ▸ hb⟩

theorem checkFollowBytes_eq_none {k i : Nat} (h : checkFollowBytes next i k = none) :
    ∃ j, i ≤ j ∧ j < i + k ∧ next j = none := by
  induction k generalizing i with
  | zero => simp [checkFollowBytes] at h
  | succ k ih =>
    rw [checkFollowBytes, Option.bind_eq_bind, Option.bind_eq_none_iff] at h
    cases hb : next i with
    | none => exact ⟨i, le_refl i, by omega, hb⟩
    | some b =>
      have h := h b hb
      split_ifs at h
      obtain ⟨j, h1, h2, h3⟩ := ih h
      exact ⟨j, by omega, by omega, h3⟩

theorem sizePfirst_of_lead {n : Nat} {c : UInt8} (h1 : 1 ≤ n) (h6 : n ≤ 6)
    (hlo : leadByte n ≤ c.toNat) (hhi : c.toNat < leadByte n + leadCount n) :
    sizePfirst c = n := by
  rw [sizePfirst_eq]
  interval_cases n
  · have hhi : c.toNat < 0 + 128 := hhi
    rw [if_pos (by omega)]
  · have hlo : 0xC0 ≤ c.toNat := hlo
    have hhi : c.toNat < 0xC0 + 32 := hhi
    rw [if_neg (by omega), if_pos (by omega)]
  · have hlo : 0xE0 ≤ c.toNat := hlo
    have hhi : c.toNat < 0xE0 + 16 := hhi
    rw [if_neg (by omega), if_neg (by omega), if_pos (by omega)]
  · have hlo : 0xF0 ≤ c.toNat := hlo
    have hhi : c.toNat < 0xF0 + 8 := hhi
    rw [if_neg (by omega), if_neg (by omega), if_neg (by omega), if_pos (by omega)]
  · have hlo : 0xF8 ≤ c.toNat := hlo
    have hhi : c.toNat < 0xF8 + 4 := hhi
    rw [if_neg (by omega), if_neg (by omega), if_neg (by omega), if_neg (by omega),
      if_pos (by omega)]
  · have hlo : 0xFC ≤ c.toNat := hlo
    have hhi : c.toNat < 0xFC + 2 := hhi
    rw [if_neg (by omega), if_neg (by omega), if_neg (by omega), if_neg (by omega),
      if_neg (by omega)]

/-- **The shapes of the `switch`.**  A first byte is a sequence of its own, or starts no sequence,
or announces a sequence of `n` bytes.  In the third shape every second byte is allowed, in the
last one the second byte decides whether the sequence is overlong. -/
theorem checkCase_shape (c : UInt8) :
    (c.toNat ≤ 127 ∧ sizePfirst c = 1 ∧ ∀ next, checkCase next c.toNat = some (.ok 1)) ∨
    ((128 ≤ c.toNat ∧ c.toNat ≤ 193 ∨ 254 ≤ c.toNat) ∧
      ∀ next, checkCase next c.toNat = some (.error 0)) ∨
    (∃ n, 2 ≤ n ∧ n ≤ 6 ∧ sizePfirst c = n ∧
      leadByte n ≤ c.toNat ∧ c.toNat < leadByte n + leadCount n ∧
      ((n = 2 ∧ leadByte n + 2 ≤ c.toNat) ∨ (3 ≤ n ∧ leadByte n + 1 ≤ c.toNat)) ∧
      ∀ next, checkCase next c.toNat = checkFollowBytes next 1 (n - 1)) ∨
    (∃ n low, 3 ≤ n ∧ n ≤ 6 ∧ sizePfirst c = n ∧ c.toNat = leadByte n ∧ 128 ≤ low ∧
      (low - 128) * 64 ^ (n - 2) = minValue n ∧
      ∀ next, checkCase next c.toNat = checkLowest next low n) := by
  have hc := c.toNat_lt
  simp only [checkCase]
  by_cases h1 : c.toNat ≤ 127
  · refine Or.inl ⟨h1, ?_, fun _ => if_pos h1⟩
    rw [sizePfirst_eq, if_pos (by omega)]
  refine Or.inr ?_
  simp only [if_neg h1]
  by_cases h2 : c.toNat ≤ 193
  · exact Or.inl ⟨by omega, fun _ => if_pos h2⟩
  simp only [if_neg h2]
  by_cases h3 : c.toNat ≤ 223
  · have hlo : leadByte 2 + 2 ≤ c.toNat := show 0xC0 + 2 ≤ c.toNat by omega
    have hhi : c.toNat < leadByte 2 + leadCount 2 := show c.toNat < 0xC0 + 32 by omega
    have hlead : leadByte 2 ≤ c.toNat := (Nat.le_add_right _ _).trans hlo
    exact Or.inr (Or.inl ⟨2, by decide, by decide,
      sizePfirst_of_lead (by decide) (by decide) hlead hhi, hlead, hhi, Or.inl ⟨rfl, hlo⟩, fun _ => if_pos h3⟩)
  simp only [if_neg h3]
  by_cases h4 : c.toNat = 224
  · have hlead : c.toNat = leadByte 3 := h4
    have hhi : c.toNat < leadByte 3 + leadCount 3 := hlead ▸ Nat.lt_add_of_pos_right (by decide)
    exact Or.inr (Or.inr ⟨3, 0xA0, by decide, by decide,
      sizePfirst_of_lead (by decide) (by decide) hlead.ge hhi, hlead, by decide, rfl,
      fun _ => if_pos h4⟩)
  simp only [if_neg h4]
  by_cases h5 : c.toNat ≤ 239
  · have hlo : leadByte 3 + 1 ≤ c.toNat := show 0xE0 + 1 ≤ c.toNat by omega
    have hhi : c.toNat < leadByte 3 + leadCount 3 := show c.toNat < 0xE0 + 16 by omega
    have hlead : leadByte 3 ≤ c.toNat := (Nat.le_add_right _ _).trans hlo
    exact Or.inr (Or.inl ⟨3, by decide, by decide,
      sizePfirst_of_lead (by decide) (by decide) hlead hhi, hlead, hhi, Or.inr ⟨by decide, hlo⟩, fun _ => if_pos h5⟩)
  simp only [if_neg h5]
  by_cases h6 : c.toNat = 240
  · have hlead : c.toNat = leadByte 4 := h6
    have hhi : c.toNat < leadByte 4 + leadCount 4 := hlead ▸ Nat.lt_add_of_pos_right (by decide)
    exact Or.inr (Or.inr ⟨4, 0x90, by decide, by decide,
      sizePfirst_of_lead (by decide) (by decide) hlead.ge hhi, hlead, by decide, rfl,
      fun _ => if_pos h6⟩)
  simp only [if_neg h6]
  by_cases h7 : c.toNat ≤ 247
  · have hlo : leadByte 4 + 1 ≤ c.toNat := show 0xF0 + 1 ≤ c.toNat by omega
    have hhi : c.toNat < leadByte 4 + leadCount 4 := show c.toNat < 0xF0 + 8 by omega
    have hlead : leadByte 4 ≤ c.toNat := (Nat.le_add_right _ _).trans hlo
    exact Or.inr (Or.inl ⟨4, by decide, by decide,
      sizePfirst_of_lead (by decide) (by decide) hlead hhi, hlead, hhi, Or.inr ⟨by decide, hlo⟩, fun _ => if_pos h7⟩)
  simp only [if_neg h7]
  by_cases h8 : c.toNat = 248
  · have hlead : c.toNat = leadByte 5 := h8
    have hhi : c.toNat < leadByte 5 + leadCount 5 := hlead ▸ Nat.lt_add_of_pos_right (by decide)
    exact Or.inr (Or.inr ⟨5, 0x88, by decide, by decide,
      sizePfirst_of_lead (by decide) (by decide) hlead.ge hhi, hlead, by decide, rfl,
      fun _ => if_pos h8⟩)
  simp only [if_neg h8]
  by_cases h9 : c.toNat ≤ 251
  · have hlo : leadByte 5 + 1 ≤ c.toNat := show 0xF8 + 1 ≤ c.toNat by omega
    have hhi : c.toNat < leadByte 5 + leadCount 5 := show c.toNat < 0xF8 + 4 by omega
    have hlead : leadByte 5 ≤ c.toNat := (Nat.le_add_right _ _).trans hlo
    exact Or.inr (Or.inl ⟨5, by decide, by decide,
      sizePfirst_of_lead (by decide) (by decide) hlead hhi, hlead, hhi, Or.inr ⟨by decide, hlo⟩, fun _ => if_pos h9⟩)
  simp only [if_neg h9]
  by_cases h10 : c.toNat = 252
  · have hlead : c.toNat = leadByte 6 := h10
    have hhi : c.toNat < leadByte 6 + leadCount 6 := hlead ▸ Nat.lt_add_of_pos_right (by decide)
    exact Or.inr (Or.inr ⟨6, 0x84, by decide, by decide,
      sizePfirst_of_lead (by decide) (by decide) hlead.ge hhi, hlead, by decide, rfl,
      fun _ => if_pos h10⟩)
  simp only [if_neg h10]
  by_cases h11 : c.toNat = 253
  · have hlo : leadByte 6 + 1 ≤ c.toNat := show 0xFC + 1 ≤ c.toNat by omega
    have hhi : c.toNat < leadByte 6 + leadCount 6 := show c.toNat < 0xFC + 2 by omega
    have hlead : leadByte 6 ≤ c.toNat := (Nat.le_add_right _ _).trans hlo
    exact Or.inr (Or.inl ⟨6, by decide, by decide,
      sizePfirst_of_lead (by decide) (by decide) hlead hhi, hlead, hhi, Or.inr ⟨by decide, hlo⟩, fun _ => if_pos h11⟩)
  exact Or.inl ⟨by omega, fun _ => if_neg h11⟩

theorem exists_read_zero {r : Except Nat Nat} (hr : checkSequence next = some r) :
    ∃ c, next 0 = some c := by
  cases h : next 0 with
  | none => simp [checkSequence, h] at hr
  | some c => exact ⟨c, rfl⟩

theorem checkSequence_eq {c : UInt8} (h : next 0 = some c) :
    checkSequence next = checkCase next c.toNat := by
  rw [checkSequence, h, Option.bind_eq_bind, Option.bind_some]

theorem checkLowest_eq {low n : Nat} {b : UInt8} (h : next 1 = some b) :
    checkLowest next low n =
      if isFollow b then
        if b.toNat < low then some (.error 1) else checkFollowBytes next 2 (n - 2)
      else some (.error 1) := by
  rw [checkLowest, h, Option.bind_eq_bind, Option.bind_some]

theorem checkLowest_mono (h : ∀ i b, next i = some b → next' i = some b) {low n : Nat}
    {r : Except Nat Nat} (hr : checkLowest next low n = some r) :
    checkLowest next' low n = some r := by
  cases hb : next 1 with
  | none => simp [checkLowest, hb] at hr
  | some b =>
    rw [checkLowest_eq hb] at hr
    rw [checkLowest_eq (h 1 b hb)]
    split_ifs at hr ⊢
    · exact hr
    · exact checkFollowBytes_mono h hr
    · exact hr

theorem checkSequence_mono (h : ∀ i b, next i = some b → next' i = some b)
    {r : Except Nat Nat} (hr : checkSequence next = some r) : checkSequence next' = some r := by
  obtain ⟨c, h0⟩ := exists_read_zero hr
  rw [checkSequence_eq h0] at hr
  rw [checkSequence_eq (h 0 c h0)]
  rcases checkCase_shape c with ⟨-, -, hs⟩ | ⟨-, hs⟩ | ⟨n, -, -, -, -, -, -, hs⟩ |
    ⟨n, low, -, -, -, -, -, -, hs⟩
  · rwa [hs] at hr ⊢
  · rwa [hs] at hr ⊢
  · rw [hs] at hr ⊢
    exact checkFollowBytes_mono h hr
  · rw [hs] at hr ⊢
    exact checkLowest_mono h hr

theorem checkLowest_eq_ok {low m n : Nat} (hm : 3 ≤ m)
    (h : checkLowest next low m = some (.ok n)) :
    n = m ∧ (∃ b, next 1 = some b ∧ low ≤ b.toNat) ∧
      ∀ j, 1 ≤ j → j < m → ∃ b, next j = some b ∧ isFollow b = true := by
  cases hb : next 1 with
  | none => simp [checkLowest, hb] at h
  | some b =>
    rw [checkLowest_eq hb] at h
    split_ifs at h with hf hlow
    · simp at h
    · obtain ⟨hn, hall⟩ := checkFollowBytes_eq_ok h
      refine ⟨by omega, ⟨b, rfl, by omega⟩, fun j h1 h2 => ?_⟩
      rcases Nat.eq_or_lt_of_le h1 with rfl | h1
      · exact ⟨b, hb, hf⟩
      · exact hall j h1 (by omega)
    · simp at h

theorem checkSequence_eq_ok {c : UInt8} (h0 : next 0 = some c) {n : Nat}
    (h : checkSequence next = some (.ok n)) :
    n = sizePfirst c ∧ ∀ i < n, ∃ b, next i = some b := by
  have hall : (∀ j, 1 ≤ j → j < n → ∃ b, next j = some b ∧ isFollow b = true) →
      ∀ i < n, ∃ b, next i = some b := by
    intro hf i hi
    rcases Nat.eq_zero_or_pos i with rfl | hpos
    · exact ⟨c, h0⟩
    · exact (hf i hpos hi).imp fun _ h => h.1
  rw [checkSequence_eq h0] at h
  rcases checkCase_shape c with ⟨-, hsize, hs⟩ | ⟨-, hs⟩ | ⟨m, h2, -, hsize, -, -, -, hs⟩ |
    ⟨m, low, h3, -, hsize, -, -, -, hs⟩
  · rw [hs] at h
    simp only [Option.some.injEq, Except.ok.injEq] at h
    exact ⟨by omega, hall fun j h1 h2 => by omega⟩
  · rw [hs] at h
    simp at h
  · rw [hs] at h
    obtain ⟨hn, hf⟩ := checkFollowBytes_eq_ok h
    exact ⟨by omega, hall fun j h1 h2 => hf j h1 (by omega)⟩
  · rw [hs] at h
    obtain ⟨rfl, -, hf⟩ := checkLowest_eq_ok h3 h
    exact ⟨hsize.symm, hall hf⟩

theorem checkSequence_eq_error {e : Nat} (h : checkSequence next = some (.error e)) :
    ∃ b, next e = some b := by
  obtain ⟨c, h0⟩ := exists_read_zero h
  rw [checkSequence_eq h0] at h
  rcases checkCase_shape c with ⟨-, -, hs⟩ | ⟨-, hs⟩ | ⟨n, -, -, -, -, -, -, hs⟩ |
    ⟨n, low, -, -, -, -, -, -, hs⟩
  · simp [hs] at h
  · rw [hs] at h
    simp only [Option.some.injEq, Except.error.injEq] at h
    exact ⟨c, h ▸ h0⟩
  · rw [hs] at h
    exact checkFollowBytes_eq_error h
  · rw [hs] at h
    cases hb : next 1 with
    | none => simp [checkLowest, hb] at h
    | some b =>
      rw [checkLowest_eq hb] at h
      split_ifs at h
      · simp only [Option.some.injEq, Except.error.injEq] at h
        exact ⟨b, h ▸ hb⟩
      · exact checkFollowBytes_eq_error h
      · simp only [Option.some.injEq, Except.error.injEq] at h
        exact ⟨b, h ▸ hb⟩

theorem checkSequence_eq_none {c : UInt8} (h0 : next 0 = some c) (h : checkSequence next = none) :
    ∃ i < sizePfirst c, next i = none := by
  rw [checkSequence_eq h0] at h
  rcases checkCase_shape c with ⟨-, -, hs⟩ | ⟨-, hs⟩ | ⟨m, h2, -, hsize, -, -, -, hs⟩ |
    ⟨m, low, h3, -, hsize, -, -, -, hs⟩
  · simp [hs] at h
  · simp [hs] at h
  · rw [hs] at h
    obtain ⟨j, h1, h2, hj⟩ := checkFollowBytes_eq_none h
    exact ⟨j, by omega, hj⟩
  · rw [hs] at h
    cases hb : next 1 with
    | none => exact ⟨1, by omega, hb⟩
    | some b =>
      rw [checkLowest_eq hb] at h
      split_ifs at h
      obtain ⟨j, h1, h2, hj⟩ := checkFollowBytes_eq_none h
      exact ⟨j, by omega, hj⟩

theorem checkFollowBytes_pad {m : Nat} (hsome : ∀ i < m, ∃ b, next i = some b)
    (h : ∀ i b, next i = some b → next' i = some b) (hpad : next' m = some 0) {k i : Nat}
    (hi : checkFollowBytes next i k = none) (him : i ≤ m) :
    checkFollowBytes next' i k = some (.error m) := by
  induction k generalizing i with
  | zero => simp [checkFollowBytes] at hi
  | succ k ih =>
    rcases Nat.lt_or_eq_of_le him with him | rfl
    · obtain ⟨b, hb⟩ := hsome i him
      rw [checkFollowBytes, hb, Option.bind_eq_bind, Option.bind_some] at hi
      rw [checkFollowBytes, h i b hb, Option.bind_eq_bind, Option.bind_some]
      split_ifs at hi ⊢
      exact ih hi him
    · rw [checkFollowBytes, hpad, Option.bind_eq_bind, Option.bind_some, if_neg (by decide)]

/-- **The padding reports the cut.**  A sequence whose bytes from `m` on are missing, read with a
zero byte at `m`, is an error at offset `m`: a zero byte is no following byte. -/
theorem checkSequence_pad {m : Nat} (hm : 0 < m) (hsome : ∀ i < m, ∃ b, next i = some b)
    (h : ∀ i b, next i = some b → next' i = some b) (hpad : next' m = some 0)
    (hr : checkSequence next = none) : checkSequence next' = some (.error m) := by
  obtain ⟨c, h0⟩ := hsome 0 hm
  rw [checkSequence_eq h0] at hr
  rw [checkSequence_eq (h 0 c h0)]
  rcases checkCase_shape c with ⟨-, -, hs⟩ | ⟨-, hs⟩ | ⟨n, -, -, -, -, -, -, hs⟩ |
    ⟨n, low, -, -, -, -, -, -, hs⟩
  · simp [hs] at hr
  · simp [hs] at hr
  · rw [hs] at hr ⊢
    exact checkFollowBytes_pad hsome h hpad hr hm
  · rw [hs] at hr ⊢
    rcases Nat.lt_or_eq_of_le hm with hm | rfl
    · obtain ⟨b, hb⟩ := hsome 1 hm
      rw [checkLowest_eq hb] at hr
      rw [checkLowest_eq (h 1 b hb)]
      split_ifs at hr ⊢
      exact checkFollowBytes_pad hsome h hpad hr hm
    · rw [checkLowest_eq hpad, if_neg (by decide)]

theorem checkFollowBytes_error_local {e k i : Nat}
    (h : ∀ j ≤ e, ∀ b, next j = some b → next' j = some b)
    (hr : checkFollowBytes next i k = some (.error e)) :
    i ≤ e ∧ checkFollowBytes next' i k = some (.error e) := by
  induction k generalizing i with
  | zero => simp [checkFollowBytes] at hr
  | succ k ih =>
    rw [checkFollowBytes, Option.bind_eq_bind, Option.bind_eq_some_iff] at hr
    obtain ⟨b, hb, hr⟩ := hr
    split_ifs at hr with hf
    · obtain ⟨h1, h2⟩ := ih hr
      refine ⟨by omega, ?_⟩
      rwa [checkFollowBytes, h i (by omega) b hb, Option.bind_eq_bind, Option.bind_some, if_pos hf]
    · simp only [Option.some.injEq, Except.error.injEq] at hr
      refine ⟨by omega, ?_⟩
      rw [checkFollowBytes, h i (by omega) b hb, Option.bind_eq_bind, Option.bind_some, if_neg hf,
        hr]

theorem checkSequence_error_local {e : Nat}
    (h : ∀ j ≤ e, ∀ b, next j = some b → next' j = some b)
    (hr : checkSequence next = some (.error e)) : checkSequence next' = some (.error e) := by
  obtain ⟨c, h0⟩ := exists_read_zero hr
  rw [checkSequence_eq h0] at hr
  rw [checkSequence_eq (h 0 (by omega) c h0)]
  rcases checkCase_shape c with ⟨-, -, hs⟩ | ⟨-, hs⟩ | ⟨n, -, -, -, -, -, -, hs⟩ |
    ⟨n, low, -, -, -, -, -, -, hs⟩
  · rwa [hs] at hr ⊢
  · rwa [hs] at hr ⊢
  · rw [hs] at hr ⊢
    exact (checkFollowBytes_error_local h hr).2
  · rw [hs] at hr ⊢
    cases hb : next 1 with
    | none => simp [checkLowest, hb] at hr
    | some b =>
      rw [checkLowest_eq hb] at hr
      have he : 1 ≤ e := by
        split_ifs at hr
        · simp only [Option.some.injEq, Except.error.injEq] at hr
          omega
        · have := (checkFollowBytes_error_local h hr).1
          omega
        · simp only [Option.some.injEq, Except.error.injEq] at hr
          omega
      rw [checkLowest_eq (h 1 he b hb)]
      split_ifs at hr ⊢
      · exact hr
      · exact (checkFollowBytes_error_local h hr).2
      · exact hr

end Check

/-! ## The verdict on a sequence is the definition of a sequence -/

theorem le_payload (acc : Nat) (bs : List UInt8) : acc * 64 ^ bs.length ≤ payload acc bs := by
  induction bs generalizing acc with
  | nil => simp
  | cons b bs ih =>
    have hstep := ih (acc * 64 + (b.toNat - 0x80))
    have hmul : acc * 64 * 64 ^ bs.length ≤
        (acc * 64 + (b.toNat - 0x80)) * 64 ^ bs.length :=
      Nat.mul_le_mul_right _ (Nat.le_add_right _ _)
    rw [payload_cons, List.length_cons, pow_succ', ← Nat.mul_assoc]
    exact le_trans hmul hstep

theorem payload_lt (acc : Nat) {bs : List UInt8} (h : ∀ c ∈ bs, 0x80 ≤ c.toNat ∧ c.toNat < 0xC0) :
    payload acc bs < (acc + 1) * 64 ^ bs.length := by
  induction bs generalizing acc with
  | nil => simp
  | cons b bs ih =>
    have hb := h b List.mem_cons_self
    have hstep := ih (acc * 64 + (b.toNat - 0x80)) fun c hc => h c (List.mem_cons_of_mem _ hc)
    have hmul : (acc * 64 + (b.toNat - 0x80) + 1) * 64 ^ bs.length ≤
        (acc + 1) * 64 * 64 ^ bs.length :=
      Nat.mul_le_mul_right _ (by omega)
    rw [payload_cons, List.length_cons, pow_succ', ← Nat.mul_assoc]
    exact lt_of_lt_of_le hstep hmul

theorem follow_getElem? {c : UInt8} {bs : List UInt8}
    (h : ∀ b ∈ bs, 0x80 ≤ b.toNat ∧ b.toNat < 0xC0) (j : Nat) (h1 : 1 ≤ j)
    (h2 : j < bs.length + 1) : ∃ b, (c :: bs)[j]? = some b ∧ isFollow b = true := by
  obtain ⟨i, rfl⟩ : ∃ i, j = i + 1 := ⟨j - 1, by omega⟩
  refine ⟨bs[i], ?_, ?_⟩
  · rw [List.getElem?_cons_succ, List.getElem?_eq_getElem (by omega)]
  · rw [isFollow_iff]
    exact h _ (List.getElem_mem _)

theorem forall_follow {c : UInt8} {bs : List UInt8}
    (h : ∀ j, 1 ≤ j → j < bs.length + 1 → ∃ b, (c :: bs)[j]? = some b ∧ isFollow b = true) :
    ∀ b ∈ bs, 0x80 ≤ b.toNat ∧ b.toNat < 0xC0 := by
  intro b hb
  obtain ⟨i, hi, rfl⟩ := List.getElem_of_mem hb
  obtain ⟨b', hb', hf⟩ := h (i + 1) (by omega) (by omega)
  rw [List.getElem?_cons_succ, List.getElem?_eq_getElem hi, Option.some.injEq] at hb'
  rw [hb']
  exact (isFollow_iff b').mp hf

theorem minValue_le_payload_iff {n low : Nat} {b : UInt8} {bs : List UInt8} (hlow : 128 ≤ low)
    (hmul : (low - 128) * 64 ^ bs.length = minValue n) (hb : 0x80 ≤ b.toNat)
    (hfol : ∀ c ∈ bs, 0x80 ≤ c.toNat ∧ c.toNat < 0xC0) :
    minValue n ≤ payload 0 (b :: bs) ↔ low ≤ b.toNat := by
  rw [payload_cons, Nat.zero_mul, Nat.zero_add, ← hmul]
  constructor
  · intro h
    by_contra hlt
    have hup := payload_lt (b.toNat - 0x80) hfol
    have hmono := Nat.mul_le_mul_right (64 ^ bs.length)
      (show b.toNat - 0x80 + 1 ≤ low - 128 by omega)
    omega
  · intro h
    exact le_trans (Nat.mul_le_mul_right _ (by omega)) (le_payload _ bs)

theorem minValue_le_payload {n acc : Nat} {bs : List UInt8} (hn : n = bs.length + 1)
    (h6 : n ≤ 6) (hacc : (n = 2 ∧ 2 ≤ acc) ∨ (3 ≤ n ∧ 1 ≤ acc)) :
    minValue n ≤ payload acc bs := by
  refine le_trans ?_ (le_payload acc bs)
  rw [show bs.length = n - 1 by omega]
  rcases hacc with ⟨rfl, h⟩ | ⟨h3, h⟩
  · simp only [minValue]
    omega
  · refine le_trans ?_ (Nat.mul_le_mul_right _ h)
    interval_cases n <;> simp [minValue]

/-- The verdict on the sequence at the start of `l`. -/
def checkList (l : List UInt8) : Option (Except Nat Nat) := checkSequence fun i => l[i]?

theorem checkList_cons (c : UInt8) (bs : List UInt8) :
    checkList (c :: bs) = checkCase (fun i => (c :: bs)[i]?) c.toNat :=
  checkSequence_eq rfl

theorem checkList_of_isSequence {s : List UInt8} (h : IsSequence s) :
    checkList s = some (.ok s.length) := by
  cases s with
  | nil => exact h.elim
  | cons c bs =>
    obtain ⟨hlen, hlo, hhi, hfol, hmin⟩ := h
    rw [maxsize] at hlen
    have hsize := sizePfirst_of_lead (by omega) (by omega) hlo hhi
    rw [checkList_cons, List.length_cons]
    rcases checkCase_shape c with ⟨-, h1, hs⟩ | ⟨hbad, hs⟩ | ⟨n, h2, -, hn, -, -, -, hs⟩ |
      ⟨n, low, h3, -, hn, hlead, hlow, hmul, hs⟩
    · rw [hs, show bs.length + 1 = 1 by omega]
    · -- the bytes 192 and 193 announce two bytes, but no value that needs them
      exfalso
      have hup := payload_lt (c.toNat - leadByte (bs.length + 1)) hfol
      rcases Nat.lt_or_ge bs.length 2 with h2 | h2
      · interval_cases bs.length <;> simp only [leadByte, leadCount, minValue] at * <;> omega
      · interval_cases bs.length <;> simp only [leadByte, leadCount] at * <;> omega
    · obtain rfl : n = bs.length + 1 := by omega
      rw [hs, checkFollowBytes_of_follow (fun j hj1 hj2 => follow_getElem? hfol j hj1 (by omega)),
        show 1 + (bs.length + 1 - 1) = bs.length + 1 by omega]
    · obtain rfl : n = bs.length + 1 := by omega
      cases bs with
      | nil => simp at h3
      | cons b bs =>
        have hb := hfol b List.mem_cons_self
        rw [hlead, Nat.sub_self, minValue_le_payload_iff hlow (by rw [← hmul]; simp) hb.1
          fun c hc => hfol c (List.mem_cons_of_mem _ hc)] at hmin
        rw [List.length_cons] at h3 ⊢
        have hf : checkFollowBytes (fun i => (c :: b :: bs)[i]?) 2 (bs.length + 1 + 1 - 2) =
            some (.ok (2 + (bs.length + 1 + 1 - 2))) :=
          checkFollowBytes_of_follow fun j hj1 hj2 =>
            follow_getElem? hfol j (by omega) (by rw [List.length_cons]; omega)
        rw [hs, checkLowest_eq (b := b) rfl, if_pos ((isFollow_iff b).mpr hb),
          if_neg (by omega), List.length_cons, hf]
        congr 2
        omega

theorem isSequence_of_checkList {s : List UInt8} (h : checkList s = some (.ok s.length)) :
    IsSequence s := by
  cases s with
  | nil => simp [checkList, checkSequence] at h
  | cons c bs =>
    rw [checkList_cons, List.length_cons] at h
    rcases checkCase_shape c with ⟨h1, -, hs⟩ | ⟨-, hs⟩ | ⟨n, h2, h6, -, hlo, hhi, hmin, hs⟩ |
      ⟨n, low, h3, h6, -, hlead, hlow, hmul, hs⟩
    · rw [hs] at h
      simp only [Option.some.injEq, Except.ok.injEq] at h
      obtain rfl : bs = [] := List.length_eq_zero_iff.mp (by omega)
      simp [IsSequence, maxsize, leadByte, leadCount, minValue]
      omega
    · simp [hs] at h
    · rw [hs] at h
      obtain ⟨hn, hf⟩ := checkFollowBytes_eq_ok h
      obtain rfl : n = bs.length + 1 := by omega
      exact ⟨by rw [maxsize]; omega, hlo, hhi, forall_follow fun j h1 h2 => hf j h1 (by omega),
        minValue_le_payload rfl h6 (by omega)⟩
    · rw [hs] at h
      obtain ⟨rfl, ⟨b, hb, hblow⟩, hf⟩ := checkLowest_eq_ok h3 h
      have hfol := forall_follow hf
      have hcount : ∀ n ≤ 6, 0 < leadCount n := by decide
      have hpos := hcount _ h6
      refine ⟨by rw [maxsize]; omega, by omega, by omega, hfol, ?_⟩
      cases bs with
      | nil => simp at h3
      | cons b' bs =>
        obtain rfl : b' = b := by simpa using hb
        rw [hlead, Nat.sub_self, minValue_le_payload_iff hlow (by rw [← hmul]; simp)
          (hfol b' List.mem_cons_self).1 fun c hc => hfol c (List.mem_cons_of_mem _ hc)]
        exact hblow

/-! ## The validation of a whole text -/

theorem checkList_eq_ok {l : List UInt8} {n : Nat} (h : checkList l = some (.ok n)) :
    0 < n ∧ n ≤ l.length := by
  obtain ⟨c, hc⟩ := exists_read_zero h
  obtain ⟨hn, hall⟩ := checkSequence_eq_ok hc h
  have hpos : 0 < n := hn ▸ sizePfirst_pos c
  obtain ⟨b, hb⟩ := hall (n - 1) (by omega)
  have := (List.getElem?_eq_some_iff.mp hb).1
  omega

theorem checkList_eq_error {l : List UInt8} {e : Nat} (h : checkList l = some (.error e)) :
    e < l.length := by
  obtain ⟨b, hb⟩ := checkSequence_eq_error h
  exact (List.getElem?_eq_some_iff.mp hb).1

theorem checkList_append {l m : List UInt8} {r : Except Nat Nat} (h : checkList l = some r) :
    checkList (l ++ m) = some r := by
  refine checkSequence_mono (fun i b hb => ?_) h
  rw [List.getElem?_append_left (List.getElem?_eq_some_iff.mp hb).1, hb]

theorem checkList_take {l : List UInt8} {n : Nat} (h : checkList l = some (.ok n)) :
    checkList (l.take n) = some (.ok (l.take n).length) := by
  obtain ⟨hpos, hle⟩ := checkList_eq_ok h
  have hlen : (l.take n).length = n := List.length_take_of_le hle
  obtain ⟨c, hc⟩ := exists_read_zero h
  have hsize := (checkSequence_eq_ok hc h).1
  rw [hlen]
  cases ht : checkList (l.take n) with
  | none =>
    have hc' : (fun i => (l.take n)[i]?) 0 = some c := by
      rw [← hc]
      exact List.getElem?_take_of_lt hpos
    obtain ⟨i, hi, hnone⟩ := checkSequence_eq_none hc' ht
    have := List.getElem?_eq_none_iff.mp hnone
    omega
  | some r =>
    have hr := checkList_append (m := l.drop n) ht
    rw [List.take_append_drop] at hr
    exact hr.symm.trans h

/-- The validation of a text: the offset of the first bad byte, or the bytes of an incomplete
last sequence. -/
def scan (l : List UInt8) : Except Nat (List UInt8) :=
  match _h : checkList l with
  | none => .ok l
  | some (.error e) => .error e
  | some (.ok n) => (scan (l.drop n)).mapError (· + n)
termination_by l.length
decreasing_by
  have := checkList_eq_ok _h
  rw [List.length_drop]
  omega

theorem scan_of_none {l : List UInt8} (h : checkList l = none) : scan l = .ok l := by
  rw [scan]
  split <;> simp_all

theorem scan_of_error {l : List UInt8} {e : Nat} (h : checkList l = some (.error e)) :
    scan l = .error e := by
  rw [scan]
  split <;> simp_all

theorem scan_of_ok {l : List UInt8} {n : Nat} (h : checkList l = some (.ok n)) :
    scan l = (scan (l.drop n)).mapError (· + n) := by
  rw [scan]
  split <;> simp_all

@[simp] theorem scan_nil : scan [] = .ok [] := scan_of_none rfl

/-- **A text that ends without a pending byte is one sequence after the other.** -/
theorem scan_eq_ok_nil_iff (l : List UInt8) : scan l = .ok [] ↔ IsText l := by
  constructor
  · intro h
    induction l using scan.induct with
    | case1 l hl =>
      rw [scan_of_none hl, Except.ok.injEq] at h
      rw [h]
      exact IsText.nil
    | case2 l e hl => simp [scan_of_error hl] at h
    | case3 l n hl ih =>
      have htake := checkList_take hl
      rw [← List.take_append_drop n l]
      refine IsText.append (isSequence_of_checkList htake) (ih ?_)
      rw [scan_of_ok hl] at h
      cases hd : scan (l.drop n) with
      | error e => simp [hd, Except.mapError] at h
      | ok q' => simpa [hd, Except.mapError] using h
  · intro h
    induction h with
    | nil => exact scan_nil
    | @append s t hs ht ih =>
      rw [scan_of_ok (checkList_append (checkList_of_isSequence hs)), List.drop_left, ih]
      rfl

/-! ## One block -/

/-- What the validator stores between two blocks: the bytes `q` of a sequence that is not
complete yet, followed by zero bytes. -/
structure Pending (v : Validator) (q : List UInt8) : Prop where
  size : v.sizeprefix = q.length
  length : v.pfx.length = maxsize
  open_ : checkList q = none
  pfx : q ≠ [] → v.pfx = q ++ List.replicate (maxsize - q.length) 0

theorem pending_init : Pending Validator.init [] :=
  ⟨rfl, rfl, rfl, fun h => absurd rfl h⟩

/-- The result `r` of a call is the verdict on the text `l`, with its offset moved by `off`. -/
def Answers (off : Nat) (l : List UInt8) (r : Result) : Prop :=
  match scan l with
  | .ok q => r.1 = none ∧ Pending r.2 q
  | .error e => r.1 = some (off + e)

theorem length_lt_sizePfirst {c : UInt8} {q : List UInt8} (h : checkList (c :: q) = none) :
    (c :: q).length < sizePfirst c := by
  obtain ⟨i, hi, hnone⟩ := checkSequence_eq_none (c := c) rfl h
  have := List.getElem?_eq_none_iff.mp hnone
  omega

theorem storeBytes_eq (a b c bs : List UInt8) (h : bs.length = b.length) :
    storeBytes (a ++ b ++ c) a.length bs = a ++ bs ++ c := by
  induction bs generalizing a b with
  | nil =>
    obtain rfl : b = [] := List.length_eq_zero_iff.mp h.symm
    rfl
  | cons x bs ih =>
    cases b with
    | nil => simp at h
    | cons y b =>
      have := ih (a ++ [x]) b (by simpa using h)
      rw [storeBytes]
      simpa using this

theorem run_prefix_round {data q : List UInt8} {c : Cursor} {fuel : Nat} (hin : c.inPrefix = true)
    (hnext : c.next = 0) (hq : q ≠ []) (hsize : c.v.sizeprefix = q.length)
    (hpfx : c.v.pfx = q ++ List.replicate (maxsize - q.length) 0) :
    run data (fuel + 1) c =
      match checkList q with
      | none => some (none, c.v)
      | some (.error e) => some (onerr data c e)
      | some (.ok n) =>
          (head data { c with next := n }).bind fun
            | .inl r => some r
            | .inr c' => run data fuel c' := by
  have hpos : 0 < q.length := List.length_pos_iff.mpr hq
  have hread : c.read data = fun i => (q ++ List.replicate (maxsize - q.length) 0)[i]? := by
    funext i
    rw [Cursor.read, hin, if_pos rfl, hnext, hpfx, Nat.zero_add]
  have hcheck : checkSequence (c.read data) =
      checkList (q ++ List.replicate (maxsize - q.length) 0) := by rw [hread, checkList]
  rw [run, hcheck]
  cases hr : checkList q with
  | none =>
    have hlt : q.length < maxsize := by
      cases q with
      | nil => exact absurd rfl hq
      | cons b q => exact lt_of_lt_of_le (length_lt_sizePfirst hr) (sizePfirst_le_maxsize b)
    have hpad : checkList (q ++ List.replicate (maxsize - q.length) 0) = some (.error q.length) := by
      refine checkSequence_pad hpos (fun i hi => ⟨q[i], List.getElem?_eq_getElem hi⟩)
        (fun i b hb => ?_) ?_ hr
      · rw [List.getElem?_append_left (List.getElem?_eq_some_iff.mp hb).1, hb]
      · rw [List.getElem?_append_right (le_refl _), Nat.sub_self, List.getElem?_replicate,
          if_pos (by omega)]
    rw [hpad]
    simp only [Option.bind_eq_bind, Option.bind_some, onerr]
    rw [if_pos (by omega), if_pos (by omega)]
  | some r =>
    rw [checkList_append hr]
    cases r with
    | error e => rfl
    | ok n =>
      simp only [Option.bind_eq_bind, Option.bind_some, hnext, Nat.zero_add]

/-- A pointer into the block, with no stored prefix. -/
structure InBlock (data : List UInt8) (c : Cursor) : Prop where
  inPrefix : c.inPrefix = false
  next : c.next ≤ data.length
  sizeMissing : c.sizeMissing = 0
  size : c.v.sizeprefix = 0
  length : c.v.pfx.length = maxsize

theorem InBlock.read {data : List UInt8} {c : Cursor} (h : InBlock data c) (i : Nat) :
    c.read data i = (data.drop c.next)[i]? := by
  rw [Cursor.read, h.inPrefix, if_neg (by decide), List.getElem?_drop]

/-- A pointer into the block at a sequence that does not cross the end of the block. -/
structure Ready (data : List UInt8) (c : Cursor) : Prop extends InBlock data c where
  room : ∀ b, data[c.next]? = some b → sizePfirst b ≤ data.length - c.next
  lt : c.next < data.length
  endnext : c.next < c.endnext → c.endnext + maxsize ≤ data.length

/-- What the code before the label `VALIDATE` leads to: the result, a pointer at a whole sequence,
or the prefix of a sequence that the block cuts off, whose round ends the call. -/
def Leads (data : List UInt8) (next : Nat) : Option (Result ⊕ Cursor) → Prop
  | none => False
  | some (.inl r) => Answers next (data.drop next) r
  | some (.inr c) => (c.next = next ∧ Ready data c) ∨
      ∀ fuel, ∃ r, run data (fuel + 1) c = some r ∧ Answers next (data.drop next) r

theorem leads_tail {data : List UInt8} {c : Cursor} (h : InBlock data c) :
    Leads data c.next (tail data c) := by
  rw [tail, if_neg (by have := h.next; omega)]
  rcases Nat.eq_zero_or_pos (data.length - c.next) with h0 | hpos
  · rw [if_pos h0]
    have hdrop : data.drop c.next = [] := List.drop_eq_nil_of_le (by omega)
    simp only [Leads, Answers, hdrop, scan_nil]
    exact ⟨trivial, h.size, h.length, rfl, fun hne => absurd rfl hne⟩
  · rw [if_neg (by omega)]
    have hlt : c.next < data.length := by omega
    have hdrop : data.drop c.next = data[c.next] :: data.drop (c.next + 1) :=
      List.drop_eq_getElem_cons hlt
    have hread : c.read data 0 = some data[c.next] := by
      rw [h.read, hdrop]
      rfl
    rw [hread, Option.bind_eq_bind, Option.bind_some]
    split_ifs with hcut
    · -- the block ends inside of the sequence
      refine Or.inr fun fuel => ?_
      have hqlen : (data.drop c.next).length = data.length - c.next := List.length_drop
      have hmax := sizePfirst_le_maxsize data[c.next]
      have hstore : storeBytes c.v.pfx 0 (data.drop c.next ++
          List.replicate (maxsize - (data.length - c.next)) 0) =
          data.drop c.next ++ List.replicate (maxsize - (data.drop c.next).length) 0 := by
        have hall := storeBytes_eq [] c.v.pfx [] (data.drop c.next ++
          List.replicate (maxsize - (data.length - c.next)) 0) (by
            rw [List.length_append, List.length_replicate, hqlen, h.length]
            omega)
        rw [hqlen]
        simpa using hall
      have hne : data.drop c.next ≠ [] := by
        rw [hdrop]
        exact List.cons_ne_nil _ _
      rw [run_prefix_round rfl rfl hne (by rw [hqlen]) hstore]
      cases hr : checkList (data.drop c.next) with
      | none =>
        refine ⟨_, rfl, ?_⟩
        rw [Answers, scan_of_none hr]
        refine ⟨rfl, hqlen.symm, ?_, hr, fun _ => hstore⟩
        rw [hstore, List.length_append, List.length_replicate, hqlen]
        omega
      | some r =>
        cases r with
        | error e =>
          have he := checkList_eq_error hr
          refine ⟨_, rfl, ?_⟩
          rw [Answers, scan_of_error hr]
          simp only [onerr, h.sizeMissing]
          rw [if_pos (by omega), if_neg (by omega), if_neg (by decide)]
          simp only [Option.some.injEq]
          omega
        | ok n =>
          have hn := checkList_eq_ok hr
          obtain ⟨hs, -⟩ := checkSequence_eq_ok (c := data[c.next]) (by rw [hdrop]; rfl) hr
          omega
    · refine Or.inl ⟨rfl, ⟨h.inPrefix, h.next, h.sizeMissing, h.size, h.length⟩, ?_, hlt, ?_⟩
      · intro b hb
        rw [List.getElem?_eq_getElem hlt, Option.some.injEq] at hb
        rw [← hb]
        exact Nat.le_of_not_lt hcut
      · intro hlt'
        exact absurd hlt' (lt_irrefl _)

theorem leads_head {data : List UInt8} {c : Cursor} (h : InBlock data c)
    (hend : c.next < c.endnext → c.endnext + maxsize ≤ data.length) :
    Leads data c.next (head data c) := by
  rw [head]
  by_cases hle : c.endnext ≤ c.next
  · rw [if_pos hle, if_neg (fun hne => hne h.size)]
    exact leads_tail h
  · rw [if_neg hle]
    refine Or.inl ⟨rfl, h, fun b _ => ?_, ?_, hend⟩
    · have := sizePfirst_le_maxsize b
      have := hend (by omega)
      omega
    · have := hend (by omega)
      have : 0 < maxsize := by decide
      omega

/-- **The loop in the block is the scan of the rest of the block.** -/
theorem run_ready {data : List UInt8} {fuel : Nat} {c : Cursor} (h : Ready data c)
    (hfuel : data.length - c.next < fuel) :
    ∃ r, run data fuel c = some r ∧ Answers c.next (data.drop c.next) r := by
  induction fuel generalizing c with
  | zero => omega
  | succ fuel ih =>
    have hread : checkSequence (c.read data) = checkList (data.drop c.next) := by
      rw [checkList, funext h.toInBlock.read]
    have hdrop : data.drop c.next = data.get ⟨c.next, h.lt⟩ :: data.drop (c.next + 1) :=
      List.drop_eq_getElem_cons h.lt
    have hroom := h.room _ (List.getElem?_eq_getElem h.lt)
    have hlen : (data.drop c.next).length = data.length - c.next := List.length_drop
    rw [run, hread]
    cases hr : checkList (data.drop c.next) with
    | none =>
      have hlt := length_lt_sizePfirst (c := data.get ⟨c.next, h.lt⟩) (hdrop ▸ hr)
      rw [← hdrop, List.get_eq_getElem] at hlt
      dsimp only at hlt
      omega
    | some v =>
      cases v with
      | error e =>
        refine ⟨_, rfl, ?_⟩
        rw [Answers, scan_of_error hr]
        simp only [onerr]
        rw [if_neg (fun hne => hne h.size), Nat.add_comm]
      | ok n =>
        have hn := checkList_eq_ok hr
        have hin : InBlock data { c with next := c.next + n } :=
          ⟨h.inPrefix, by dsimp only; omega, h.sizeMissing, h.size, h.length⟩
        have hleads := leads_head hin fun hlt => h.endnext (by dsimp only at hlt; omega)
        simp only [Option.bind_eq_bind, Option.bind_some]
        -- the verdict on the rest is the verdict on the whole, moved by the sequence
        have hmove : ∀ r, Answers (c.next + n) (data.drop (c.next + n)) r →
            Answers c.next (data.drop c.next) r := by
          intro r hr'
          rw [Answers, scan_of_ok hr, List.drop_drop]
          rw [Answers] at hr'
          cases hs : scan (data.drop (c.next + n)) with
          | error e =>
            rw [hs] at hr'
            simp only [Except.mapError] at hr' ⊢
            rw [hr']
            congr 1
            omega
          | ok q =>
            rw [hs] at hr'
            exact hr'
        cases hh : head data { c with next := c.next + n } with
        | none => simp [hh, Leads] at hleads
        | some x =>
          rw [hh] at hleads
          cases x with
          | inl r => exact ⟨r, rfl, hmove r hleads⟩
          | inr c' =>
            rcases hleads with ⟨hc', hready⟩ | hprefix
            · have hc'' : c'.next = c.next + n := hc'
              obtain ⟨r, hr1, hr2⟩ := ih hready (by omega)
              rw [hc''] at hr2
              exact ⟨r, hr1, hmove r hr2⟩
            · obtain ⟨fuel', rfl⟩ : ∃ f, fuel = f + 1 := ⟨fuel - 1, by omega⟩
              obtain ⟨r, hr1, hr2⟩ := hprefix fuel'
              exact ⟨r, hr1, hmove r hr2⟩

theorem Leads.exists_result {data : List UInt8} {next fuel : Nat} {x : Option (Result ⊕ Cursor)}
    (h : Leads data next x) (hfuel : data.length - next < fuel) :
    ∃ r, (x.bind fun
        | .inl r => some r
        | .inr c' => run data fuel c') = some r ∧ Answers next (data.drop next) r := by
  cases x with
  | none => exact h.elim
  | some x =>
    cases x with
    | inl r => exact ⟨r, rfl, h⟩
    | inr c' =>
      rcases h with ⟨rfl, hready⟩ | hprefix
      · exact run_ready hready hfuel
      · obtain ⟨fuel', rfl⟩ : ∃ f, fuel = f + 1 := ⟨fuel - 1, by omega⟩
        exact hprefix fuel'

theorem lt_of_scan_eq_error {l : List UInt8} {e : Nat} (h : scan l = .error e) :
    e < l.length := by
  induction l using scan.induct generalizing e with
  | case1 l hl => simp [scan_of_none hl] at h
  | case2 l e' hl =>
    rw [scan_of_error hl, Except.error.injEq] at h
    exact h ▸ checkList_eq_error hl
  | case3 l n hl ih =>
    have hn := checkList_eq_ok hl
    rw [scan_of_ok hl] at h
    cases hd : scan (l.drop n) with
    | ok q => simp [hd, Except.mapError] at h
    | error e' =>
      have := ih hd
      rw [hd] at h
      simp only [Except.mapError, Except.error.injEq] at h
      rw [List.length_drop] at this
      omega

/-- **One block.**  The call reads no byte outside of the block and of the stored prefix, and its
result is the verdict on the pending bytes followed by the block.  The offset of an error is
relative to the block. -/
theorem validate_eq_scan {v : Validator} {q : List UInt8} (hv : Pending v q) (data : List UInt8) :
    ∃ r, validate v data = some r ∧
      match scan (q ++ data) with
      | .ok q' => r.1 = none ∧ Pending r.2 q'
      | .error e => q.length ≤ e ∧ e < q.length + data.length ∧ r.1 = some (e - q.length) := by
  rw [validate]
  rcases Nat.eq_zero_or_pos data.length with h0 | hpos
  · obtain rfl : data = [] := List.length_eq_zero_iff.mp h0
    refine ⟨(none, v), rfl, ?_⟩
    rw [List.append_nil, scan_of_none hv.open_]
    exact ⟨rfl, hv⟩
  rw [if_neg (by omega)]
  cases q with
  | nil =>
    rw [if_neg (fun hne => hne hv.size)]
    have hin : InBlock data ⟨false, 0, data.length - maxsize, 0, v⟩ :=
      ⟨rfl, Nat.zero_le _, rfl, hv.size, hv.length⟩
    obtain ⟨r, hr, hans⟩ := (leads_head hin fun hlt => by
      dsimp only at hlt ⊢; omega).exists_result
      (show data.length - 0 < data.length + 2 by omega)
    refine ⟨r, hr, ?_⟩
    rw [Answers, List.drop_zero] at hans
    rw [List.nil_append]
    cases hs : scan data with
    | ok q' =>
      rw [hs] at hans
      exact hans
    | error e =>
      rw [hs] at hans
      have := lt_of_scan_eq_error hs
      refine ⟨Nat.zero_le _, by rw [List.length_nil]; omega, ?_⟩
      rw [hans, List.length_nil, Nat.sub_zero, Nat.zero_add]
  | cons b q =>
    have hlt := length_lt_sizePfirst hv.open_
    have hmax := sizePfirst_le_maxsize b
    have hvpfx := hv.pfx (List.cons_ne_nil _ _)
    have hb : v.pfx[0]? = some b := by rw [hvpfx]; rfl
    rw [if_pos (by rw [hv.size]; exact Nat.succ_ne_zero _), hb, Option.bind_eq_bind,
      Option.bind_some, hv.size]
    -- `p` is the prefix with the bytes taken from the block
    generalize hm : min data.length (sizePfirst b - (b :: q).length) = m
    have hmlen : (data.take m).length = m := List.length_take_of_le (by omega)
    have hp : (b :: q ++ data.take m).length = (b :: q).length + m := by
      rw [List.length_append, hmlen]
    have hsplit : b :: q ++ data = b :: q ++ data.take m ++ data.drop m := by
      rw [List.append_assoc, List.take_append_drop]
    have hstore : storeBytes v.pfx (b :: q).length (data.take m) = b :: q ++ data.take m ++
        List.replicate (maxsize - (b :: q ++ data.take m).length) 0 := by
      have hrep : List.replicate (maxsize - (b :: q).length) (0 : UInt8) =
          List.replicate m 0 ++ List.replicate (maxsize - (b :: q ++ data.take m).length) 0 := by
        rw [List.replicate_append_replicate, hp]
        congr 1
        omega
      rw [hvpfx, hrep, ← List.append_assoc]
      exact storeBytes_eq _ _ _ _ (by rw [hmlen, List.length_replicate])
    have hround := @run_prefix_round data (b :: q ++ data.take m)
      ⟨true, 0, 0, m, ⟨(b :: q).length + m, storeBytes v.pfx (b :: q).length (data.take m)⟩⟩
      (data.length + 1) rfl rfl (by simp) hp.symm hstore
    rw [hround]
    cases hr : checkList (b :: q ++ data.take m) with
    | none =>
      -- the block is used up and the sequence is still open
      have hopen : (b :: q ++ data.take m).length < sizePfirst b :=
        length_lt_sizePfirst (c := b) hr
      have hall : data.take m = data := List.take_of_length_le (by omega)
      refine ⟨_, rfl, ?_⟩
      rw [hall] at hr
      rw [scan_of_none hr]
      rw [hall] at hstore
      refine ⟨rfl, ?_, ?_, hr, fun _ => ?_⟩
      · rw [← hall, hp]
      · rw [hall, hstore, List.length_append, List.length_replicate]
        rw [hall] at hp
        omega
      · rw [hall, hstore]
    | some x =>
      cases x with
      | error e =>
        have he := checkList_eq_error hr
        -- the pending bytes alone were open, so the bad byte is one of the block
        have hge : (b :: q).length ≤ e := by
          by_contra hlt'
          have hbad : checkList (b :: q) = some (.error e) := by
            refine checkSequence_error_local (fun j hj c hc => ?_) hr
            rwa [List.getElem?_append_left (by omega)] at hc
          rw [hv.open_] at hbad
          exact absurd hbad (by simp)
        refine ⟨_, rfl, ?_⟩
        rw [hsplit, scan_of_error (checkList_append hr)]
        refine ⟨hge, by omega, ?_⟩
        simp only [onerr]
        rw [if_pos (by omega), if_neg (by omega), if_pos (by omega), Nat.add_sub_cancel]
      | ok n =>
        obtain ⟨hn0, hnle⟩ := checkList_eq_ok hr
        obtain ⟨hns, -⟩ := checkSequence_eq_ok (c := b) rfl hr
        have hnm : n = (b :: q).length + m := by omega
        have hin : InBlock data ⟨false, m, data.length, 0,
            ⟨0, storeBytes v.pfx (b :: q).length (data.take m)⟩⟩ :=
          ⟨rfl, by dsimp only; omega, rfl, rfl, by
            rw [hstore, List.length_append, List.length_replicate]
            omega⟩
        -- the loop head moves the pointer from the prefix to the rest of the block
        have hleads : Leads data m (head data ⟨true, n, 0, m,
            ⟨(b :: q).length + m, storeBytes v.pfx (b :: q).length (data.take m)⟩⟩) := by
          rw [head, if_pos (Nat.zero_le _), if_pos (by dsimp only; omega)]
          dsimp only
          split_ifs with hroom
          · refine Or.inl ⟨rfl, ⟨rfl, hin.next, rfl, rfl, hin.length⟩, fun c _ => ?_, ?_, fun _ => ?_⟩
            · exact le_trans (sizePfirst_le_maxsize c) hroom
            · have : 0 < maxsize := by decide
              dsimp only
              omega
            · dsimp only
              omega
          · exact leads_tail hin
        obtain ⟨r, hr1, hr2⟩ := hleads.exists_result (show _ < data.length + 1 by omega)
        refine ⟨r, hr1, ?_⟩
        have hdrop : (b :: q ++ data.take m ++ data.drop m).drop n = data.drop m :=
          List.drop_left' (by rw [hp]; omega)
        rw [hsplit, scan_of_ok (checkList_append hr), hdrop]
        rw [Answers] at hr2
        cases hs : scan (data.drop m) with
        | ok q' =>
          rw [hs] at hr2
          exact hr2
        | error e =>
          rw [hs] at hr2
          have := lt_of_scan_eq_error hs
          rw [List.length_drop] at this
          dsimp only [Except.mapError]
          refine ⟨by omega, by omega, hr2.trans (congrArg some ?_)⟩
          omega

/-! ## Any number of blocks -/

theorem scan_append {l m q : List UInt8} (h : scan l = .ok q) :
    q.length ≤ l.length ∧
      scan (l ++ m) = (scan (q ++ m)).mapError (· + (l.length - q.length)) := by
  induction l using scan.induct generalizing q with
  | case1 l hl =>
    rw [scan_of_none hl, Except.ok.injEq] at h
    rw [← h, Nat.sub_self]
    refine ⟨le_refl _, ?_⟩
    cases scan (l ++ m) <;> rfl
  | case2 l e hl => simp [scan_of_error hl] at h
  | case3 l n hl ih =>
    obtain ⟨hn0, hn⟩ := checkList_eq_ok hl
    rw [scan_of_ok hl] at h
    cases hd : scan (l.drop n) with
    | error e => simp [hd, Except.mapError] at h
    | ok q' =>
      rw [hd] at h
      simp only [Except.mapError, Except.ok.injEq] at h
      obtain ⟨hle, ih⟩ := ih (hd.trans (congrArg _ h))
      rw [List.length_drop] at hle ih
      refine ⟨by omega, ?_⟩
      rw [scan_of_ok (checkList_append hl), List.drop_append_of_le_length hn, ih]
      cases scan (q ++ m) with
      | ok q'' => rfl
      | error e =>
        simp only [Except.mapError, Except.error.injEq]
        omega

theorem scan_append_error {l m : List UInt8} {e : Nat} (h : scan l = .error e) :
    scan (l ++ m) = .error e := by
  induction l using scan.induct generalizing e with
  | case1 l hl => simp [scan_of_none hl] at h
  | case2 l e' hl =>
    rw [scan_of_error hl] at h
    rw [scan_of_error (checkList_append hl), h]
  | case3 l n hl ih =>
    obtain ⟨-, hn⟩ := checkList_eq_ok hl
    rw [scan_of_ok hl] at h
    rw [scan_of_ok (checkList_append hl), List.drop_append_of_le_length hn, ← h]
    cases hd : scan (l.drop n) with
    | ok q => simp [hd, Except.mapError] at h
    | error e' => rw [ih hd]

/-- **Any cutting.**  Feeding the blocks one after the other is the scan of the whole text: the
same pending bytes, or an error in the block that holds the bad byte, with the offset of that byte
in the block. -/
theorem feed_eq_scan {v : Validator} {q : List UInt8} (hv : Pending v q)
    (blocks : List (List UInt8)) :
    ∃ x, feed v blocks = some x ∧
      match x with
      | .ok v' => ∃ q', scan (q ++ blocks.flatten) = .ok q' ∧ Pending v' q'
      | .error (i, off) =>
          scan (q ++ blocks.flatten) = .error (q.length + (blocks.take i).flatten.length + off) ∧
          ∃ block, blocks[i]? = some block ∧ off < block.length := by
  induction blocks generalizing v q with
  | nil =>
    refine ⟨.ok v, rfl, q, ?_, hv⟩
    rw [List.flatten_nil, List.append_nil, scan_of_none hv.open_]
  | cons data blocks ih =>
    obtain ⟨⟨off, v'⟩, hr, hscan⟩ := validate_eq_scan hv data
    rw [feed, hr, Option.bind_eq_bind, Option.bind_some]
    cases hs : scan (q ++ data) with
    | error e =>
      rw [hs] at hscan
      obtain ⟨hle, hlt, hoff⟩ := hscan
      dsimp only at hoff
      subst hoff
      refine ⟨_, rfl, ?_, data, rfl, by omega⟩
      rw [List.flatten_cons, ← List.append_assoc, scan_append_error hs, List.take_zero,
        List.flatten_nil, List.length_nil]
      congr 1
      omega
    | ok q' =>
      rw [hs] at hscan
      obtain ⟨hoff, hv'⟩ := hscan
      dsimp only at hoff hv'
      subst hoff
      obtain ⟨hle, happ⟩ := scan_append (m := blocks.flatten) hs
      obtain ⟨x, hx, hspec⟩ := ih hv'
      rw [List.append_assoc, ← List.flatten_cons] at happ
      rw [List.length_append] at hle happ
      dsimp only
      rw [hx, Option.bind_eq_bind, Option.bind_some]
      cases x with
      | ok v'' =>
        obtain ⟨q'', hq'', hv''⟩ := hspec
        refine ⟨.ok v'', rfl, q'', ?_, hv''⟩
        rw [happ, hq'']
        rfl
      | error x =>
        obtain ⟨i, off⟩ := x
        obtain ⟨hq'', hblock⟩ := hspec
        refine ⟨.error (i + 1, off), rfl, ?_, hblock⟩
        rw [happ, hq'', List.take_succ_cons, List.flatten_cons, List.length_append]
        simp only [Except.mapError, Except.error.injEq]
        omega

/-- The text is reported as valid: no call fails, and `free_utf8validator` finds no pending
prefix. -/
def Accepted : Except (Nat × Nat) Validator → Prop
  | .ok v => v.free = true
  | .error _ => False

/-- **Chunked validation is whole validation.**  For every cutting of a text into blocks, the calls
read no byte outside of the blocks, they accept exactly the texts of well formed sequences, they
fail exactly if the validation in one block fails, and the byte that they report is the same. -/
theorem feed_blocks_iff_isText (blocks : List (List UInt8)) :
    ∃ whole chunked, feed Validator.init [blocks.flatten] = some whole ∧
      feed Validator.init blocks = some chunked ∧
      (Accepted chunked ↔ IsText blocks.flatten) ∧
      ((∃ off, whole = .error (0, off)) ↔ ∃ i off, chunked = .error (i, off)) ∧
      ∀ i off, chunked = .error (i, off) →
        (∃ block, blocks[i]? = some block ∧ off < block.length) ∧
        whole = .error (0, (blocks.take i).flatten.length + off) := by
  obtain ⟨whole, hwhole, hw⟩ := feed_eq_scan pending_init [blocks.flatten]
  obtain ⟨chunked, hchunked, hc⟩ := feed_eq_scan pending_init blocks
  refine ⟨whole, chunked, hwhole, hchunked, ?_⟩
  rw [List.flatten_singleton, List.nil_append] at hw
  rw [List.nil_append] at hc
  rw [← scan_eq_ok_nil_iff]
  cases chunked with
  | ok v =>
    obtain ⟨q, hq, hv⟩ := hc
    rw [hq]
    refine ⟨?_, ?_, fun i off h => absurd h (by simp)⟩
    · rw [Accepted, Validator.free, beq_iff_eq, hv.size, List.length_eq_zero_iff, Except.ok.injEq]
    · cases whole with
      | ok v' => simp
      | error x => simp [hq] at hw
  | error x =>
    obtain ⟨i, off⟩ := x
    obtain ⟨hbad, hblock⟩ := hc
    rw [hbad]
    cases whole with
    | ok v' => simp [hbad] at hw
    | error y =>
      obtain ⟨i', off'⟩ := y
      obtain ⟨hw, block, hblock', hlt⟩ := hw
      have hi' : i' = 0 := by
        by_contra hne
        rw [List.getElem?_eq_none (by rw [List.length_singleton]; omega)] at hblock'
        simp at hblock'
      subst hi'
      rw [hbad, Except.error.injEq, List.take_zero] at hw
      simp only [List.length_nil, List.flatten_nil, Nat.zero_add] at hw
      refine ⟨by simp [Accepted], by simp, ?_⟩
      intro i₂ off₂ heq
      simp only [Except.error.injEq, Prod.mk.injEq] at heq
      obtain ⟨rfl, rfl⟩ := heq
      exact ⟨hblock, by rw [hw]⟩

end Utf8
end CKern
