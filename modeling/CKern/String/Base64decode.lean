import CKern.String.Base64encode

/-!
# `string/base64encode.c`: what the decoder accepts

* `Wbuffer`, `appendbytesWbuffer`, `shrinkWbuffer`: the result buffer of `memory/wbuffer.c`.
* `base64decodeStringWbuffer`: the decoder with its buffer, which it fills while it still checks the
  string.
* `base64decodeStringWbuffer_cases`: it appends what `base64decodeString` decodes, or leaves the
  bytes in use as they were.
* `Padded`: a string of characters with at most two `=` behind them.
* `decodes_grammar_iff`: when the decoder accepts exactly the strings of the alphabet.
-/

namespace CKern
namespace Base64

/-! ## The result buffer -/

/-- `wbuffer_t`: the bytes that are in use, and the unused ones up to `end`. -/
structure Wbuffer where
  used : List UInt8
  free : List UInt8
  deriving DecidableEq, Repr

/-- The function `alloc` of `wbuffer_it`: it fails, or there are at least so many unused bytes. The
bytes in use are kept. -/
abbrev Alloc := (freesize : ℕ) → Option {free : List UInt8 // freesize ≤ free.length}

/-- `size_wbuffer`. -/
def sizeWbuffer (wbuf : Wbuffer) : ℕ := wbuf.used.length

/-- `sizefree_wbuffer`. -/
def sizefreeWbuffer (wbuf : Wbuffer) : ℕ := wbuf.free.length

/-- `appendbytes_wbuffer`. -/
def appendbytesWbuffer (alloc : Alloc) (wbuf : Wbuffer) (size : ℕ) : Option Wbuffer :=
  if size ≤ sizefreeWbuffer wbuf then
    some ⟨wbuf.used ++ wbuf.free.take size, wbuf.free.drop size⟩
  else
    (alloc size).map fun free => ⟨wbuf.used ++ free.1.take size, free.1.drop size⟩

/-- `shrink_wbuffer`. -/
def shrinkWbuffer (wbuf : Wbuffer) (newsize : ℕ) : Wbuffer :=
  if sizeWbuffer wbuf < newsize then wbuf
  else ⟨wbuf.used.take newsize, wbuf.used.drop newsize ++ wbuf.free⟩

/-- A byte is written to memory that is in use. -/
def store (wbuf : Wbuffer) (dest : ℕ) (byte : UInt8) : Wbuffer :=
  { wbuf with used := wbuf.used.set dest byte }

/-! ## The decoder -/

/-- `mod3`: the number of `=` among the last two characters. -/
def padding (str : List UInt8) : ℕ :=
  (if str.getD (str.length - 1) 0 = pad then 1 else 0) +
    if str.getD (str.length - 2) 0 = pad then 1 else 0

/-- The loop: `next` and `dest` behind it, and the buffer. -/
def decodeGroups : ℕ → List UInt8 → ℕ → Wbuffer → Except Failure (List UInt8 × ℕ) × Wbuffer
  | 0, next, dest, wbuf => (.ok (next, dest), wbuf)
  | count + 1, a :: b :: c :: d :: next, dest, wbuf =>
    let quadr := quadr [value a, value b, value c, value d]
    if invalid quadr then (.error (.errno .EINVAL), wbuf)
    else
      let wbuf := store wbuf (dest + 2) (UInt8.ofNat quadr)
      let wbuf := store wbuf (dest + 1) (UInt8.ofNat (quadr >>> 8))
      let wbuf := store wbuf dest (UInt8.ofNat (quadr >>> 8 >>> 8))
      decodeGroups count next (dest + 3) wbuf
  | _, _, _, wbuf => (.error .undefined, wbuf)

/-- The last group if it is padded. -/
def decodePadded (mod3 : ℕ) (next : List UInt8) (dest : ℕ) (wbuf : Wbuffer) :
    Except Failure Unit × Wbuffer :=
  match mod3, next with
  | 0, _ => (.ok (), wbuf)
  | 1, a :: b :: c :: _ =>
    let quadr := quadr [value a, value b, value c]
    if invalid quadr then (.error (.errno .EINVAL), wbuf)
    else
      let wbuf := store wbuf (dest + 1) (UInt8.ofNat (quadr >>> 2))
      (.ok (), store wbuf dest (UInt8.ofNat (quadr >>> 2 >>> 8)))
  | 2, a :: b :: _ =>
    let quadr := quadr [value a, value b]
    if invalid quadr then (.error (.errno .EINVAL), wbuf)
    else (.ok (), store wbuf dest (UInt8.ofNat (quadr >>> 4)))
  | _, _ => (.error .undefined, wbuf)

/-- `base64decode_string` with its result buffer. -/
def base64decodeStringWbuffer (alloc : Alloc) (str : List UInt8) (result : Wbuffer) :
    Except Failure Unit × Wbuffer :=
  let count := str.length / 4
  let oldsize := sizeWbuffer result
  if str.length % 4 ≠ 0 then (.error (.errno .EINVAL), shrinkWbuffer result oldsize)
  else if count = 0 then (.ok (), result)
  else
    let mod3 := padding str
    match appendbytesWbuffer alloc result (3 * count - mod3) with
    | none => (.error (.errno .ENOMEM), shrinkWbuffer result oldsize)
    | some wbuf =>
      match decodeGroups (count - if mod3 ≠ 0 then 1 else 0) str oldsize wbuf with
      | (.error err, wbuf) => (.error err, shrinkWbuffer wbuf oldsize)
      | (.ok (next, dest), wbuf) =>
        match decodePadded mod3 next dest wbuf with
        | (.error err, wbuf) => (.error err, shrinkWbuffer wbuf oldsize)
        | (.ok (), wbuf) => (.ok (), wbuf)

/-! ## The memory that is written -/

variable {used room free e : List UInt8}

theorem shrinkWbuffer_append (used room free : List UInt8) :
    shrinkWbuffer ⟨used ++ room, free⟩ used.length = ⟨used, room ++ free⟩ := by
  rw [shrinkWbuffer, if_neg (by simp [sizeWbuffer])]
  simp

theorem store_three (used room free : List UInt8) (x y z a b c : UInt8) :
    store (store (store ⟨used ++ x :: y :: z :: room, free⟩ (used.length + 2) c)
      (used.length + 1) b) used.length a = ⟨used ++ [a, b, c] ++ room, free⟩ := by
  simp [store, List.set_append_right]

/-- **The loop**: if all characters have a value, then it stores what they decode to, and otherwise
it stops with an error. It writes nowhere else. -/
theorem decodeGroups_cases (used room free next : List UInt8) {count : ℕ} {front : List UInt8}
    (h : front.length = 4 * count) (hroom : 3 * count ≤ room.length) :
    ((∀ c ∈ front, value c < 64) ∧ ∃ s, s.length = 3 * count ∧
        decodeLoop count (front ++ next) = .ok (s, next) ∧
        decodeGroups count (front ++ next) used.length ⟨used ++ room, free⟩ =
          (.ok (next, (used ++ s).length), ⟨used ++ s ++ room.drop (3 * count), free⟩)) ∨
      ((¬ ∀ c ∈ front, value c < 64) ∧
        decodeLoop count (front ++ next) = .error (.errno .EINVAL) ∧
        ∃ room', decodeGroups count (front ++ next) used.length ⟨used ++ room, free⟩ =
          (.error (.errno .EINVAL), ⟨used ++ room', free⟩)) := by
  induction count generalizing front used room with
  | zero =>
    obtain rfl : front = [] := List.length_eq_zero_iff.mp h
    refine Or.inl ⟨fun c hc => absurd hc List.not_mem_nil, [], rfl, rfl, ?_⟩
    rw [List.append_nil, List.drop_zero]
    rfl
  | succ count ih =>
    obtain ⟨a, b, c, d, front, rfl⟩ : ∃ a b c d front', front = a :: b :: c :: d :: front' := by
      match front, h with
      | a :: b :: c :: d :: front', _ => exact ⟨a, b, c, d, front', rfl⟩
    obtain ⟨x, y, z, room, rfl⟩ : ∃ x y z room', room = x :: y :: z :: room' := by
      match room, hroom with
      | x :: y :: z :: room', _ => exact ⟨x, y, z, room', rfl⟩
    have hfront : front.length = 4 * count := by
      simp only [List.length_cons] at h
      omega
    have hroom' : 3 * count ≤ room.length := by
      simp only [List.length_cons] at hroom
      omega
    have hall := invalid_iff [a, b, c, d] (by simp)
    simp only [List.map_cons, List.map_nil] at hall
    have hmem : (∀ x ∈ a :: b :: c :: d :: front, value x < 64) ↔
        (∀ x ∈ [a, b, c, d], value x < 64) ∧ ∀ x ∈ front, value x < 64 := by
      simp [and_assoc]
    rw [hmem, ← hall]
    simp only [List.cons_append, decodeLoop, decodeGroups]
    cases hinv : invalid (quadr [value a, value b, value c, value d]) with
    | true =>
      refine Or.inr ⟨fun hf => absurd hf.1 (by decide), rfl, x :: y :: z :: room, rfl⟩
    | false =>
      set q := quadr [value a, value b, value c, value d]
      rw [store_three, if_neg Bool.false_ne_true, if_neg Bool.false_ne_true]
      set bytes := [UInt8.ofNat (q >>> 8 >>> 8), UInt8.ofNat (q >>> 8), UInt8.ofNat q]
      have hlen : used.length + 3 = (used ++ bytes).length := by simp [bytes]
      rw [hlen]
      rcases ih (used ++ bytes) room hfront hroom' with
        ⟨hvalues, s, hs, hloop, hgroups⟩ | ⟨hvalues, hloop, room', hgroups⟩
      · refine Or.inl ⟨⟨rfl, hvalues⟩, bytes ++ s, ?_, by rw [hloop]; rfl, ?_⟩
        · rw [List.length_append, hs, show bytes.length = 3 from rfl]
          omega
        · rw [hgroups]
          simp [Nat.mul_add]
      · refine Or.inr ⟨fun hf => hvalues hf.2, by rw [hloop], bytes ++ room', ?_⟩
        rw [hgroups, List.append_assoc]

/-- **The last group**, for which there is just enough room. -/
theorem decodePadded_cases (used free : List UInt8) {k : ℕ} {rest : List UInt8} (hk : k ≤ 2)
    (hrest : rest.length = if k = 0 then 0 else 4)
    (hroom : room.length = if k = 0 then 0 else 3 - k) :
    ((∀ c ∈ rest.take (4 - k), value c < 64) ∧ ∃ s, s.length = room.length ∧
        decodeRest k rest = .ok s ∧
        decodePadded k rest used.length ⟨used ++ room, free⟩ = (.ok (), ⟨used ++ s, free⟩)) ∨
      ((¬ ∀ c ∈ rest.take (4 - k), value c < 64) ∧ decodeRest k rest = .error (.errno .EINVAL) ∧
        decodePadded k rest used.length ⟨used ++ room, free⟩ =
          (.error (.errno .EINVAL), ⟨used ++ room, free⟩)) := by
  match k, hk with
  | 0, _ =>
    obtain rfl : rest = [] := List.length_eq_zero_iff.mp hrest
    obtain rfl : room = [] := List.length_eq_zero_iff.mp hroom
    exact Or.inl ⟨fun c hc => absurd hc List.not_mem_nil, [], rfl, rfl, rfl⟩
  | 1, _ =>
    obtain ⟨a, b, c, d, rfl⟩ := List.length_eq_four.mp hrest
    obtain ⟨x, y, rfl⟩ := List.length_eq_two.mp hroom
    have hall := invalid_iff [a, b, c] (by simp)
    simp only [List.map_cons, List.map_nil] at hall
    rw [show [a, b, c, d].take (4 - 1) = [a, b, c] from rfl, ← hall, decodeRest, decodePadded]
    set q := quadr [value a, value b, value c]
    cases invalid q with
    | true => exact Or.inr ⟨by decide, rfl, rfl⟩
    | false =>
      refine Or.inl ⟨rfl, [UInt8.ofNat (q >>> 2 >>> 8), UInt8.ofNat (q >>> 2)], rfl, rfl, ?_⟩
      simp [store, List.set_append_right]
  | 2, _ =>
    obtain ⟨a, b, c, d, rfl⟩ := List.length_eq_four.mp hrest
    obtain ⟨x, rfl⟩ := List.length_eq_one_iff.mp hroom
    have hall := invalid_iff [a, b] (by simp)
    simp only [List.map_cons, List.map_nil] at hall
    rw [show [a, b, c, d].take (4 - 2) = [a, b] from rfl, ← hall, decodeRest, decodePadded]
    set q := quadr [value a, value b]
    cases invalid q with
    | true => exact Or.inr ⟨by decide, rfl, rfl⟩
    | false =>
      refine Or.inl ⟨rfl, [UInt8.ofNat (q >>> 4)], rfl, rfl, ?_⟩
      simp [store, List.set_append_right]

theorem padding_le (str : List UInt8) : padding str ≤ 2 := by
  rw [padding]
  split_ifs <;> decide

theorem appendbytesWbuffer_spec {alloc : Alloc} {result wbuf : Wbuffer} {size : ℕ}
    (h : appendbytesWbuffer alloc result size = some wbuf) :
    ∃ room, room.length = size ∧ wbuf.used = result.used ++ room := by
  rw [appendbytesWbuffer] at h
  split_ifs at h with hsize
  · obtain rfl := Option.some.inj h
    exact ⟨_, List.length_take_of_le hsize, rfl⟩
  · obtain ⟨free, -, rfl⟩ := Option.map_eq_some_iff.mp h
    exact ⟨_, List.length_take_of_le free.2, rfl⟩

theorem base64decodeString_eq {dest : List UInt8} {n k : ℕ} (hmod : e.length % 4 = 0)
    (hcount : ¬ e.length / 4 = 0) (hk : padding e = k)
    (hn : e.length / 4 - (if k ≠ 0 then 1 else 0) = n) :
    base64decodeString e dest =
      match decodeLoop n e with
      | .error err => .error err
      | .ok (s, next) =>
        match decodeRest k next with
        | .error err => .error err
        | .ok t => appendbytes dest (3 * (e.length / 4) - k) (s ++ t) := by
  rw [base64decodeString, if_neg (not_not.mpr hmod), if_neg hcount, ← hn, ← hk]
  rfl

theorem base64decodeStringWbuffer_eq {alloc : Alloc} {result wbuf : Wbuffer} {n k : ℕ}
    (hmod : e.length % 4 = 0) (hcount : ¬ e.length / 4 = 0) (hk : padding e = k)
    (hn : e.length / 4 - (if k ≠ 0 then 1 else 0) = n)
    (halloc : appendbytesWbuffer alloc result (3 * (e.length / 4) - k) = some wbuf) :
    base64decodeStringWbuffer alloc e result =
      match decodeGroups n e result.used.length wbuf with
      | (.error err, wbuf) => (.error err, shrinkWbuffer wbuf result.used.length)
      | (.ok (next, dest), wbuf) =>
        match decodePadded k next dest wbuf with
        | (.error err, wbuf) => (.error err, shrinkWbuffer wbuf result.used.length)
        | (.ok (), wbuf) => (.ok (), wbuf) := by
  rw [base64decodeStringWbuffer, if_neg (not_not.mpr hmod), if_neg hcount]
  dsimp only
  rw [hk, halloc, hn]
  rfl

/-- **The decoder with its buffer**: if there is memory for the decoded bytes, then it appends what
is decoded, or it returns an error and leaves the bytes that were in use. -/
theorem base64decodeStringWbuffer_cases {alloc : Alloc} {result wbuf : Wbuffer}
    (hmod : e.length % 4 = 0) (hne : e ≠ [])
    (halloc : appendbytesWbuffer alloc result (3 * (e.length / 4) - padding e) = some wbuf) :
    ((∀ c ∈ e.take (e.length - padding e), value c < 64) ∧ ∃ s free,
        base64decodeString e result.used = .ok (result.used ++ s) ∧
        base64decodeStringWbuffer alloc e result = (.ok (), ⟨result.used ++ s, free⟩)) ∨
      ((¬ ∀ c ∈ e.take (e.length - padding e), value c < 64) ∧
        base64decodeString e result.used = .error (.errno .EINVAL) ∧ ∃ free,
        base64decodeStringWbuffer alloc e result =
          (.error (.errno .EINVAL), ⟨result.used, free⟩)) := by
  have hpos := List.length_pos_of_ne_nil hne
  have hcount : ¬ e.length / 4 = 0 := by omega
  have hk := padding_le e
  obtain ⟨room, hroom, hused⟩ := appendbytesWbuffer_spec halloc
  obtain ⟨used, free⟩ := wbuf
  obtain rfl : used = result.used ++ room := hused
  -- the groups that are not padded, and the last one
  obtain ⟨n, hn⟩ : ∃ n, e.length / 4 - (if padding e ≠ 0 then 1 else 0) = n := ⟨_, rfl⟩
  obtain ⟨front, rest, rfl, hfront, hrest⟩ : ∃ front rest, e = front ++ rest ∧
      front.length = 4 * n ∧ rest.length = if padding e = 0 then 0 else 4 := by
    refine ⟨e.take (4 * n), e.drop (4 * n), (List.take_append_drop _ e).symm, ?_, ?_⟩
    · rw [List.length_take_of_le]
      split_ifs at hn <;> omega
    · rw [List.length_drop]
      split_ifs at hn ⊢ <;> omega
  set k := padding (front ++ rest)
  have hlen : front.length + rest.length = (front ++ rest).length := List.length_append.symm
  have hsize : 3 * ((front ++ rest).length / 4) - k = 3 * n + if k = 0 then 0 else 3 - k := by
    split_ifs at hn hrest ⊢ <;> omega
  have htake : (front ++ rest).take ((front ++ rest).length - k) = front ++ rest.take (4 - k) := by
    split_ifs at hrest with hk0
    · rw [hk0, List.length_eq_zero_iff.mp hrest]
      simp
    · rw [List.take_append, List.take_of_length_le (by omega)]
      congr 2
      omega
  have hall : (∀ c ∈ (front ++ rest).take ((front ++ rest).length - k), value c < 64) ↔
      (∀ c ∈ front, value c < 64) ∧ ∀ c ∈ rest.take (4 - k), value c < 64 := by
    rw [htake, List.forall_mem_append]
  have hroom' : (room.drop (3 * n)).length = if k = 0 then 0 else 3 - k := by
    rw [List.length_drop]
    omega
  rw [hall, base64decodeString_eq hmod hcount rfl hn,
    base64decodeStringWbuffer_eq hmod hcount rfl hn halloc]
  rcases decodeGroups_cases result.used room free rest hfront (by omega) with
    ⟨hvalues, s, hs, hloop, hgroups⟩ | ⟨hvalues, hloop, room', hgroups⟩
  · rw [hloop, hgroups]
    dsimp only
    rcases decodePadded_cases (result.used ++ s) free hk hrest hroom' with
      ⟨hlast, t, ht, hdec, hpadded⟩ | ⟨hlast, hdec, hpadded⟩
    · rw [hdec, hpadded]
      refine Or.inl ⟨⟨hvalues, hlast⟩, s ++ t, free, ?_, by rw [List.append_assoc]⟩
      exact if_pos (by rw [List.length_append, hs, ht, hroom', hsize])
    · rw [hdec, hpadded]
      refine Or.inr ⟨fun hf => hlast hf.2, rfl, s ++ room.drop (3 * n) ++ free, ?_⟩
      dsimp only
      rw [List.append_assoc result.used, shrinkWbuffer_append]
  · rw [hloop, hgroups]
    refine Or.inr ⟨fun hf => hvalues hf.1, rfl, room' ++ free, ?_⟩
    dsimp only
    rw [shrinkWbuffer_append]

/-! ## The grammar -/

/-- Groups of four characters with the property `P`, the last one or two of which may be `=`. -/
def Padded (P : UInt8 → Prop) (e : List UInt8) : Prop :=
  e.length % 4 = 0 ∧ ∃ body k, k ≤ 2 ∧ (∀ c ∈ body, P c) ∧ e = body ++ List.replicate k pad

/-- The characters `A` to `Z`, `a` to `z`, `0` to `9`, `+` and `/`. -/
def IsBase64char (c : UInt8) : Prop :=
  65 ≤ c.toNat ∧ c.toNat ≤ 90 ∨ 97 ≤ c.toNat ∧ c.toNat ≤ 122 ∨ 48 ≤ c.toNat ∧ c.toNat ≤ 57 ∨
    c.toNat = 43 ∨ c.toNat = 47

instance (c : UInt8) : Decidable (IsBase64char c) := by unfold IsBase64char; infer_instance

theorem value_lt_iff (c : UInt8) : value c < 64 ↔ IsBase64char c ∨ c = 63 := by
  have hlt := c.toNat_lt
  have h63 : c = 63 ↔ c.toNat = 63 := by rw [← UInt8.toNat_inj]; rfl
  rw [value_eq, valueOf, IsBase64char, h63]
  split_ifs <;> omega

variable {P : UInt8 → Prop}

theorem padded_iff (hP : ¬ P pad) (hmod : e.length % 4 = 0) (hne : e ≠ []) :
    Padded P e ↔ ∀ c ∈ e.take (e.length - padding e), P c := by
  have hpos := List.length_pos_of_ne_nil hne
  obtain ⟨front, a, b, c, d, rfl, -⟩ :=
    exists_last_four (show e.length = 4 * (e.length / 4 - 1 + 1) by omega)
  obtain ⟨hd, hc⟩ := getD_last front a b c d
  have htake : ∀ k ≤ 2, (front ++ [a, b, c, d]).take ((front ++ [a, b, c, d]).length - k) =
      front ++ [a, b, c, d].take (4 - k) := by
    intro k hk
    have hlen : (front ++ [a, b, c, d]).length = front.length + 4 := by simp
    rw [List.take_append, List.take_of_length_le (by omega)]
    congr 2
    omega
  rw [htake _ (padding_le _), padding, hd, hc]
  constructor
  · rintro ⟨-, body, k, hk, hbody, he⟩
    have hnot : pad ∉ body := fun hmem => hP (hbody pad hmem)
    match k, hk with
    | 0, _ =>
      rw [List.replicate_zero, List.append_nil] at he
      subst he
      rw [if_neg (by rintro rfl; simp at hnot), if_neg (by rintro rfl; simp at hnot)]
      exact hbody
    | 1, _ =>
      obtain ⟨rfl, hdpad⟩ := List.append_inj' ((List.append_assoc front [a, b, c] [d]).trans he) rfl
      rw [if_pos (List.singleton_inj.mp hdpad), if_neg (by rintro rfl; simp at hnot)]
      exact hbody
    | 2, _ =>
      obtain ⟨rfl, hcd⟩ := List.append_inj' ((List.append_assoc front [a, b] [c, d]).trans he) rfl
      obtain ⟨rfl, rfl⟩ : c = pad ∧ d = pad := by simpa [List.replicate] using hcd
      rw [if_pos rfl]
      exact hbody
  · intro h
    refine ⟨hmod, ?_⟩
    by_cases hdpad : d = pad
    · subst hdpad
      by_cases hcpad : c = pad
      · subst hcpad
        exact ⟨front ++ [a, b], 2, le_rfl, by simpa using h, by simp [List.replicate]⟩
      · rw [if_pos rfl, if_neg hcpad] at h
        exact ⟨front ++ [a, b, c], 1, by decide, h, by simp⟩
    · rw [if_neg hdpad] at h
      by_cases hcpad : c = pad
      · rw [if_pos hcpad] at h
        exact absurd (h c (by simp)) (hcpad ▸ hP)
      · rw [if_neg hcpad] at h
        exact ⟨front ++ [a, b, c, d], 0, by decide, h, (List.append_nil _).symm⟩

theorem padded_nil (P : UInt8 → Prop) : Padded P [] :=
  ⟨rfl, [], 0, by decide, fun _ hc => absurd hc List.not_mem_nil, rfl⟩

theorem padded_map {Q : UInt8 → Prop} {f : UInt8 → UInt8} (hpad : ∀ c, f c = pad ↔ c = pad)
    (hP : ∀ c, P (f c) ↔ Q c) : Padded P (e.map f) ↔ Padded Q e := by
  rw [Padded, Padded, List.length_map]
  refine and_congr_right fun _ => ⟨?_, ?_⟩
  · rintro ⟨body, k, hk, hbody, he⟩
    obtain ⟨l, m, rfl, rfl, hm⟩ := List.map_eq_append_iff.mp he
    obtain ⟨hlen, hall⟩ := List.eq_replicate_iff.mp hm
    refine ⟨l, k, hk, fun c hc => (hP c).mp (hbody _ (List.mem_map_of_mem hc)), ?_⟩
    rw [List.length_map] at hlen
    rw [List.eq_replicate_iff.mpr ⟨hlen, fun c hc => (hpad c).mp (hall _ (List.mem_map_of_mem hc))⟩]
  · rintro ⟨body, k, hk, hbody, rfl⟩
    refine ⟨body.map f, k, hk, fun x hx => ?_, ?_⟩
    · obtain ⟨c, hc, rfl⟩ := List.mem_map.mp hx
      exact (hP c).mpr (hbody c hc)
    · rw [List.map_append, List.map_replicate, (hpad pad).mpr rfl]

/-- A question mark is read as a plus sign, whose value it has. -/
def readQuestion (c : UInt8) : UInt8 := if c = 63 then 43 else c

theorem readQuestion_eq_pad (c : UInt8) : readQuestion c = pad ↔ c = pad := by
  rw [readQuestion]
  split_ifs with h
  · rw [h]
    decide
  · exact Iff.rfl

theorem isBase64char_readQuestion (c : UInt8) : IsBase64char (readQuestion c) ↔ value c < 64 := by
  rw [value_lt_iff, readQuestion]
  split_ifs with h
  · rw [h]
    decide
  · exact ⟨Or.inl, fun hc => hc.resolve_right h⟩

theorem padded_value_iff :
    Padded IsBase64char e ↔ Padded (fun c => value c < 64) e ∧ 63 ∉ e := by
  constructor
  · rintro ⟨hmod, body, k, hk, hbody, rfl⟩
    refine ⟨⟨hmod, body, k, hk, fun c hc => (value_lt_iff c).mpr (Or.inl (hbody c hc)), rfl⟩, ?_⟩
    intro hmem
    rcases List.mem_append.mp hmem with hmem | hmem
    · exact absurd (hbody 63 hmem) (by decide)
    · exact absurd (List.eq_of_mem_replicate hmem) (by decide)
  · rintro ⟨⟨hmod, body, k, hk, hbody, rfl⟩, hnot⟩
    refine ⟨hmod, body, k, hk, fun c hc => ((value_lt_iff c).mp (hbody c hc)).resolve_right ?_, rfl⟩
    rintro rfl
    exact hnot (List.mem_append_left _ hc)

/-- There are not enough unused bytes for what is decoded, and no more memory. -/
def Refused (alloc : Alloc) (e : List UInt8) (result : Wbuffer) : Prop :=
  e.length % 4 = 0 ∧ e ≠ [] ∧ sizefreeWbuffer result < 3 * (e.length / 4) - padding e ∧
    alloc (3 * (e.length / 4) - padding e) = none

theorem refused_iff {alloc : Alloc} {result : Wbuffer} (hmod : e.length % 4 = 0) (hne : e ≠ []) :
    Refused alloc e result ↔
      appendbytesWbuffer alloc result (3 * (e.length / 4) - padding e) = none := by
  rw [Refused, appendbytesWbuffer]
  split_ifs with hsize
  · exact iff_of_false (fun h => absurd h.2.2.1 (Nat.not_lt.mpr hsize)) not_false
  · rw [Option.map_eq_none_iff]
    exact ⟨fun h => h.2.2.2, fun h => ⟨hmod, hne, Nat.lt_of_not_le hsize, h⟩⟩

/-- **The decoder accepts exactly its grammar**, and leaves the result buffer alone otherwise,
unless the decoded bytes are refused memory, or the string holds question marks that make a string
of the grammar when they are read as plus signs. -/
theorem decodes_grammar_iff (alloc : Alloc) (e : List UInt8) (result : Wbuffer) :
    (((base64decodeStringWbuffer alloc e result).1 = .ok () ↔ Padded IsBase64char e) ∧
      (¬ Padded IsBase64char e →
        (base64decodeStringWbuffer alloc e result).1 = .error (.errno .EINVAL) ∧
        (base64decodeStringWbuffer alloc e result).2.used = result.used ∧
        sizeWbuffer (base64decodeStringWbuffer alloc e result).2 = sizeWbuffer result)) ↔
    ¬ Refused alloc e result ∧ (63 ∉ e ∨ ¬ Padded IsBase64char (e.map readQuestion)) := by
  rw [padded_map readQuestion_eq_pad isBase64char_readQuestion, padded_value_iff]
  by_cases hmod : e.length % 4 = 0
  swap
  · have hnot : ¬ Padded (fun c => value c < 64) e := fun h => hmod h.1
    have hshrink := shrinkWbuffer_append result.used [] result.free
    rw [List.append_nil] at hshrink
    rw [base64decodeStringWbuffer, if_pos hmod]
    refine iff_of_true ⟨iff_of_false (by simp) fun h => hnot h.1, fun _ => ?_⟩
      ⟨fun h => hmod h.1, Or.inr hnot⟩
    rw [sizeWbuffer, hshrink]
    exact ⟨rfl, rfl, rfl⟩
  by_cases hne : e = []
  · subst hne
    refine iff_of_true ⟨iff_of_true rfl ⟨padded_nil _, List.not_mem_nil⟩, fun h => ?_⟩
      ⟨fun h => h.2.1 rfl, Or.inl List.not_mem_nil⟩
    exact absurd ⟨padded_nil _, List.not_mem_nil⟩ h
  rw [refused_iff hmod hne]
  cases halloc : appendbytesWbuffer alloc result (3 * (e.length / 4) - padding e) with
  | none =>
    have hbuffer : base64decodeStringWbuffer alloc e result =
        (.error (.errno .ENOMEM), shrinkWbuffer result (sizeWbuffer result)) := by
      have hpos := List.length_pos_of_ne_nil hne
      rw [base64decodeStringWbuffer, if_neg (not_not.mpr hmod),
        if_neg (show ¬ e.length / 4 = 0 by omega)]
      dsimp only
      rw [halloc]
    rw [hbuffer]
    refine iff_of_false (fun h => ?_) fun h => h.1 rfl
    have hok := fun hgrammar => h.1.mpr hgrammar
    have hfail := (h.2 fun hgrammar => by simpa using hok hgrammar).1
    exact absurd hfail (by simp)
  | some wbuf =>
    have hP : ¬ value pad < 64 := by rw [value_pad]; decide
    rw [padded_iff hP hmod hne]
    rcases base64decodeStringWbuffer_cases hmod hne halloc with
      ⟨hvalues, s, free, -, hdecode⟩ | ⟨hvalues, -, free, hdecode⟩ <;>
      generalize (∀ c ∈ e.take (e.length - padding e), value c < 64) = valid at hvalues ⊢
    · rw [hdecode]
      simp [hvalues]
    · rw [hdecode]
      simp [hvalues, sizeWbuffer]

/-- A question mark is decoded like a plus sign. -/
theorem decodes_question :
    base64decodeStringWbuffer (fun _ => none) [63, 63, 63, 63] ⟨[], [0, 0, 0]⟩ =
      (.ok (), ⟨[251, 239, 190], []⟩) ∧ ¬ Padded IsBase64char [63, 63, 63, 63] := by
  refine ⟨by decide +kernel, fun h => ?_⟩
  exact (padded_value_iff.mp h).2 List.mem_cons_self

end Base64
end CKern
