import CKern.String.Utf8Coding

/-!
# `string/utf8.c`: searching a character

* `findUtf8`: the function with its call of `memchr`.  A read outside of the buffer is `none`.
* `search_outcome`: what is found in sequences of which the last one may be truncated.
* `findUtf8_exact_iff`: the first occurrence is found and no byte outside of the buffer is read,
  exactly if the search does not meet the rest of a truncated sequence.
-/

namespace CKern
namespace Utf8

/-! ## The code -/

/-- `memchr` for `n` bytes from the offset `pos` on: the offset of the first byte that is `ch`. -/
def memchr (str : List UInt8) (ch : UInt8) : ℕ → ℕ → Option (Option ℕ)
  | 0, _ => some none
  | n + 1, pos => do
    let b ← str[pos]?
    if b = ch then return some pos else memchr str ch n (pos + 1)

/-- The inner loop of `find_utf8`: whether the encoded bytes stand at the offset `pos`. -/
def compareLoop (str : List UInt8) : List UInt8 → ℕ → Option Bool
  | [], _ => some true
  | c :: utf8, pos => do
    let b ← str[pos]?
    if c ≠ b then return false else compareLoop str utf8 (pos + 1)

/-- `(size_t) (str + size - found)`. -/
def sizeLeft (str : List UInt8) (found : ℕ) : ℕ := (2 ^ 64 + str.length - found) % 2 ^ 64

/-- The outer loop of `find_utf8`, for an encoding with the first byte `ch` and the other bytes
`utf8`. -/
def findLoop (str : List UInt8) (ch : UInt8) (utf8 : List UInt8) :
    ℕ → Option ℕ → Option (Option ℕ)
  | _, none => some none
  | 0, some _ => none
  | fuel + 1, some found => do
    if ← compareLoop str utf8 (found + 1) then return some found
    else
      let found := found + (utf8.length + 1)
      let next ← memchr str ch (sizeLeft str found) found
      findLoop str ch utf8 fuel next

/-- `find_utf8`: the offset of the returned address, if it is not 0.  Every round goes on by a byte
or more. -/
def findUtf8 (str : List UInt8) (uchar : ℕ) : Option (Option ℕ) :=
  match encodechar uchar maxsize with
  | [] => some none
  | ch :: utf8 => do
    let found ← memchr str ch str.length 0
    findLoop str ch utf8 (str.length + 1) found

/-! ## What is said about it -/

/-- Well formed sequences one after the other, the last one possibly truncated. -/
inductive IsPartText : List UInt8 → Prop
  | nil : IsPartText []
  | part {s t : List UInt8} : IsSequence (s ++ t) → s ≠ [] → t ≠ [] → IsPartText s
  | append {s t : List UInt8} : IsSequence s → IsPartText t → IsPartText (s ++ t)

/-- The offsets at which the complete encoding of a character occurs. -/
def occurrences (str : List UInt8) (uchar : ℕ) : Set ℕ :=
  {p | ∃ s, IsSequence s ∧ value s = uchar ∧ s <+: str.drop p}

/-- The first occurrence is returned, and every byte that is read is inside of the buffer. -/
def FindsFirst (str : List UInt8) (uchar : ℕ) : Prop :=
  (∃ p, IsLeast (occurrences str uchar) p ∧ findUtf8 str uchar = some (some p)) ∨
    occurrences str uchar = ∅ ∧ findUtf8 str uchar = some none

/-- The first byte of the sequence `s` is one of the last bytes, and too few bytes follow. -/
def EndsPartly (s str : List UInt8) : Prop :=
  ∃ part, part <:+ str ∧ part.length < s.length ∧ part.head? = s.head?

/-- The search comes to the rest of a truncated sequence that could be the one it searches. -/
def RunsOut (str : List UInt8) (uchar : ℕ) : Prop :=
  occurrences str uchar = ∅ ∧ ∃ s, IsSequence s ∧ value s = uchar ∧ EndsPartly s str

/-! ## First bytes -/

variable {str rest s t q utf8 bs : List UInt8} {b ch : UInt8} {fuel n pos uchar : ℕ}

theorem first_ne_follow (hs : IsSequence (ch :: utf8)) (hb : 0x80 ≤ b.toNat ∧ b.toNat < 0xC0) :
    b ≠ ch := by
  rintro rfl
  have hsize := sizePfirst_of_isSequence hs
  obtain ⟨-, hlo, hhi, -, -⟩ := hs
  rw [sizePfirst_eq, if_pos (by omega)] at hsize
  rw [← hsize] at hhi
  have hone : leadByte 1 + leadCount 1 = 128 := rfl
  omega

theorem length_eq_of_first (hs : IsSequence (ch :: utf8)) (hq : IsSequence (ch :: bs)) :
    bs.length = utf8.length := by
  have hsize := sizePfirst_of_isSequence hs
  rw [sizePfirst_of_isSequence hq] at hsize
  exact Nat.succ.inj hsize

theorem forall_ne (hs : IsSequence (ch :: utf8)) (hq : IsSequence (b :: bs ++ t)) (hb : b ≠ ch) :
    ∀ x ∈ b :: bs, x ≠ ch := by
  obtain ⟨-, -, -, hfol, -⟩ := hq
  intro x hx
  rcases List.mem_cons.mp hx with rfl | hx
  · exact hb
  · exact first_ne_follow hs (hfol x (List.mem_append_left _ hx))

theorem encodechar_eq (hs : IsSequence s) : encodechar (value s) maxsize = s := by
  obtain ⟨hsize, hmax⟩ := sizechar_value hs
  have hlen : s.length ≤ maxsize := by
    rcases s with _ | ⟨b, bs⟩
    · exact hs.elim
    · exact hs.1
  obtain ⟨hseq, hvalue⟩ := encodechar_spec hmax (hsize.trans_le hlen)
  have hlen := (sizechar_value hseq).1
  rw [hvalue, hsize] at hlen
  exact isSequence_inj hseq hs hlen.symm hvalue

theorem isSequence_eq (ht : IsSequence t) (hs : IsSequence s) (hvalue : value t = value s) :
    t = s := by
  rw [← encodechar_eq ht, hvalue, encodechar_eq hs]

/-! ## The calls and the inner loop -/

theorem getElem?_of_drop (h : str.drop pos = b :: t) : str[pos]? = some b := by
  rw [← List.head?_drop, h, List.head?_cons]

theorem drop_succ_of_drop (h : str.drop pos = b :: t) : str.drop (pos + 1) = t := by
  rw [← List.drop_drop, h, List.drop_one, List.tail_cons]

theorem memchr_first (h : str.drop pos = ch :: t) :
    memchr str ch (n + 1) pos = some (some pos) := by
  rw [memchr, getElem?_of_drop h]
  exact if_pos rfl

theorem memchr_skip (h : str.drop pos = q ++ t) (hq : ∀ b ∈ q, b ≠ ch) :
    memchr str ch (q.length + n) pos = memchr str ch n (pos + q.length) := by
  induction q generalizing pos with
  | nil => rw [List.length_nil, Nat.zero_add, Nat.add_zero]
  | cons b q ih =>
    have hrest : memchr str ch (q.length + n) (pos + 1) = memchr str ch n (pos + 1 + q.length) :=
      ih (drop_succ_of_drop h) fun x hx => hq x (List.mem_cons_of_mem _ hx)
    rw [List.length_cons, Nat.add_right_comm, memchr, getElem?_of_drop h, Option.bind_eq_bind,
      Option.bind_some, if_neg (hq b List.mem_cons_self), hrest, Nat.add_assoc,
      Nat.add_comm 1 q.length]

theorem memchr_outside (h : str.length ≤ pos) (hn : n ≠ 0) : memchr str ch n pos = none := by
  obtain ⟨n, rfl⟩ := Nat.exists_eq_succ_of_ne_zero hn
  rw [memchr, List.getElem?_eq_none h]
  rfl

theorem compareLoop_eq (h : str.drop pos = t) :
    compareLoop str utf8 pos =
      if utf8 <+: t then some true else if t <+: utf8 then none else some false := by
  induction utf8 generalizing pos t with
  | nil =>
    rw [if_pos List.nil_prefix]
    rfl
  | cons c utf8 ih =>
    rcases t with _ | ⟨b, t⟩
    · have hout : str[pos]? = none := by rw [← List.head?_drop, h, List.head?_nil]
      rw [if_neg (by simp), if_pos List.nil_prefix, compareLoop, hout]
      rfl
    rw [compareLoop, getElem?_of_drop h, Option.bind_eq_bind, Option.bind_some,
      ih (drop_succ_of_drop h)]
    by_cases hb : c = b
    · simp only [hb, ne_eq, not_true_eq_false, if_false, List.cons_prefix_cons, true_and]
    · rw [if_pos hb, if_neg (fun hpre => hb (List.cons_prefix_cons.mp hpre).1),
        if_neg (fun hpre => hb (List.cons_prefix_cons.mp hpre).1.symm)]
      rfl

theorem sizeLeft_inside (hsize : str.length < 2 ^ 64) (hpos : pos ≤ str.length) :
    sizeLeft str pos = str.length - pos := by
  rw [sizeLeft, Nat.add_sub_assoc hpos, Nat.add_mod_left,
    Nat.mod_eq_of_lt ((Nat.sub_le _ _).trans_lt hsize)]

theorem sizeLeft_outside (hpos : str.length < pos)
    (hle : pos ≤ str.length + maxsize) : sizeLeft str pos ≠ 0 := by
  rw [sizeLeft]
  rw [maxsize] at hle
  omega

/-! ## Occurrences in a text -/

/-- The offsets at which bytes occur. -/
def places (s str : List UInt8) : Set ℕ := {p | s <+: str.drop p}

theorem places_empty_of_length (h : str.length < s.length) : places s str = ∅ := by
  refine Set.eq_empty_of_forall_notMem fun p (hp : s <+: str.drop p) => ?_
  have hle := hp.length_le
  rw [List.length_drop] at hle
  omega

theorem occurrences_eq (hs : IsSequence s) : occurrences str (value s) = places s str :=
  Set.ext fun _ => ⟨fun ⟨_, hs', hvalue, hp⟩ => isSequence_eq hs' hs hvalue ▸ hp,
    fun hp => ⟨s, hs, rfl, hp⟩⟩

/-- The bytes `q` are no occurrence of `ch :: utf8`: only the first one can be `ch`, and then
another byte is different. -/
def IsOther (ch : UInt8) (utf8 q : List UInt8) : Prop :=
  ∀ p, q[p]? = some ch → p = 0 ∧ q.length = utf8.length + 1 ∧ q ≠ ch :: utf8

theorem IsOther.of_ne (hq : ∀ x ∈ q, x ≠ ch) : IsOther ch utf8 q := fun _ hp =>
  absurd rfl (hq ch (List.mem_of_getElem? hp))

theorem IsOther.of_first (hbs : ∀ x ∈ bs, x ≠ ch) (hlen : bs.length = utf8.length)
    (hne : bs ≠ utf8) : IsOther ch utf8 (ch :: bs) := by
  rintro (_ | p) hp
  · exact ⟨rfl, congrArg Nat.succ hlen, fun heq => hne (List.cons.inj heq).2⟩
  · exact absurd rfl (hbs ch (List.mem_of_getElem? hp))

theorem IsOther.not_prefix (hq : IsOther ch utf8 q) {p : ℕ} (hp : p < q.length) :
    ¬ch :: utf8 <+: (q ++ t).drop p := by
  intro hpre
  have hhead : q[p]? = some ch := by
    rw [List.drop_append_of_le_length hp.le, List.drop_eq_getElem_cons hp, List.cons_append,
      List.cons_prefix_cons] at hpre
    rw [List.getElem?_eq_getElem hp, hpre.1]
  obtain ⟨rfl, hlen, hne⟩ := hq p hhead
  rw [List.drop_zero] at hpre
  exact hne (List.IsPrefix.eq_of_length
    (List.prefix_of_prefix_length_le (List.prefix_append q t) hpre hlen.le) hlen)

theorem places_append (hq : IsOther ch utf8 q) :
    places (ch :: utf8) (q ++ t) = (fun p => q.length + p) '' places (ch :: utf8) t := by
  refine Set.ext fun p => ⟨fun hp => ?_, ?_⟩
  · have hle : q.length ≤ p := not_lt.mp fun hlt => hq.not_prefix hlt hp
    obtain ⟨k, rfl⟩ := Nat.exists_eq_add_of_le hle
    refine ⟨k, ?_, rfl⟩
    change _ <+: (q ++ t).drop _ at hp
    rwa [← List.drop_drop, List.drop_left] at hp
  · rintro ⟨k, hk, rfl⟩
    change _ <+: (q ++ t).drop (q.length + k)
    rwa [← List.drop_drop, List.drop_left]

theorem endsPartly_append (hq : IsOther ch utf8 q) :
    EndsPartly (ch :: utf8) (q ++ t) ↔ EndsPartly (ch :: utf8) t := by
  refine ⟨fun ⟨part, hsuf, hlen, hhead⟩ => ⟨part, ?_, hlen, hhead⟩,
    fun ⟨part, hsuf, h⟩ => ⟨part, hsuf.trans (List.suffix_append q t), h⟩⟩
  rcases le_or_gt part.length t.length with hle | hgt
  · exact List.suffix_of_suffix_length_le hsuf (List.suffix_append q t) hle
  · obtain ⟨pre, hpre⟩ := hsuf
    have hsum := congrArg List.length hpre
    rw [List.length_append, List.length_append] at hsum
    have hlt : pre.length < q.length := by omega
    have hpart : part = (q ++ t).drop pre.length := by rw [← hpre, List.drop_left]
    rw [hpart, List.head?_drop, List.getElem?_append_left hlt, List.head?_cons] at hhead
    obtain ⟨hzero, hfull, -⟩ := hq _ hhead
    rw [List.length_cons] at hlen
    omega

/-! ## The search -/

/-- A result of the search in the bytes `rest`, which start at the offset `pos`. -/
def Outcome (s rest : List UInt8) (pos : ℕ) (r : Option (Option ℕ)) : Prop :=
  (∃ p, IsLeast (places s rest) p ∧ r = some (some (pos + p))) ∨
    places s rest = ∅ ∧ (EndsPartly s rest ∧ r = none ∨ ¬EndsPartly s rest ∧ r = some none)

theorem Outcome.append {r : Option (Option ℕ)} (hq : IsOther ch utf8 q)
    (h : Outcome (ch :: utf8) t (pos + q.length) r) : Outcome (ch :: utf8) (q ++ t) pos r := by
  rw [Outcome, places_append hq, endsPartly_append hq]
  rcases h with ⟨p, hp, hr⟩ | ⟨hempty, h⟩
  · refine .inl ⟨q.length + p, ?_, by rw [hr, Nat.add_assoc]⟩
    exact ⟨⟨p, hp.1, rfl⟩, by rintro _ ⟨k, hk, rfl⟩; exact Nat.add_le_add_left (hp.2 hk) _⟩
  · exact .inr ⟨by rw [hempty, Set.image_empty], h⟩

/-- `memchr` and the rounds that follow. -/
def search (str : List UInt8) (ch : UInt8) (utf8 : List UInt8) (fuel n pos : ℕ) :
    Option (Option ℕ) :=
  (memchr str ch n pos).bind (findLoop str ch utf8 fuel)

theorem search_zero : search str ch utf8 fuel 0 pos = some none := by cases fuel <;> rfl

theorem search_skip (h : str.drop pos = q ++ t) (hq : ∀ b ∈ q, b ≠ ch) :
    search str ch utf8 fuel (q.length + n) pos = search str ch utf8 fuel n (pos + q.length) := by
  rw [search, memchr_skip h hq, search]

theorem search_first (h : str.drop pos = ch :: t) :
    search str ch utf8 (fuel + 1) (n + 1) pos =
      if utf8 <+: t then some (some pos)
      else if t <+: utf8 then none
      else
        search str ch utf8 fuel (sizeLeft str (pos + (utf8.length + 1)))
          (pos + (utf8.length + 1)) := by
  rw [search, memchr_first h, Option.bind_some, findLoop, compareLoop_eq (drop_succ_of_drop h)]
  split_ifs <;> rfl

theorem outcome_nil (s : List UInt8) (hs : s ≠ []) : Outcome s [] pos (some none) := by
  have hlen := List.length_pos_iff.mpr hs
  refine .inr ⟨places_empty_of_length hlen, .inr ⟨?_, rfl⟩⟩
  rintro ⟨part, hsuf, -, hhead⟩
  rw [List.suffix_nil.mp hsuf, List.head?_nil] at hhead
  exact hs (List.head?_eq_none_iff.mp hhead.symm)

theorem outcome_part (hs : IsSequence (ch :: utf8)) (hrest : IsSequence (rest ++ t))
    (hne : rest ≠ []) (ht : t ≠ []) (hdrop : str.drop pos = rest)
    (hpos : pos + rest.length = str.length) :
    Outcome (ch :: utf8) rest pos (search str ch utf8 (fuel + 1) rest.length pos) := by
  rcases rest with _ | ⟨b, bs⟩
  · exact absurd rfl hne
  by_cases hb : b = ch
  · subst hb
    have hlen : (bs ++ t).length = utf8.length := length_eq_of_first hs hrest
    have htpos := List.length_pos_iff.mpr ht
    rw [List.length_append] at hlen
    have hshort : (b :: bs).length < (b :: utf8).length := by
      rw [List.length_cons, List.length_cons]
      omega
    refine .inr ⟨places_empty_of_length hshort, .inl ⟨⟨_, List.suffix_rfl, hshort, rfl⟩, ?_⟩⟩
    rw [List.length_cons] at hpos
    have hmax := hs.1
    rw [List.length_cons, search_first hdrop,
      if_neg (fun hpre => absurd hpre.length_le (by omega)), ite_eq_left_iff]
    intro _
    rw [search, memchr_outside (by omega) (sizeLeft_outside (by omega) (by omega))]
    rfl
  · have hother := forall_ne hs hrest hb
    have hdrop' : str.drop pos = b :: bs ++ [] := by rw [hdrop, List.append_nil]
    have hskip : search str ch utf8 (fuel + 1) (b :: bs).length pos = some none :=
      search_skip (n := 0) hdrop' hother
    rw [hskip, ← List.append_nil (b :: bs)]
    exact Outcome.append (IsOther.of_ne hother) (outcome_nil _ nofun)

theorem outcome_append (hsize : str.length < 2 ^ 64) (hs : IsSequence (ch :: utf8))
    (hq : IsSequence q) (hdrop : str.drop pos = q ++ t) (hpos : pos + (q ++ t).length = str.length)
    (ih : ∀ fuel', t.length < fuel' →
      Outcome (ch :: utf8) t (pos + q.length)
        (search str ch utf8 fuel' t.length (pos + q.length)))
    (hfuel : (q ++ t).length < fuel) :
    Outcome (ch :: utf8) (q ++ t) pos (search str ch utf8 fuel (q ++ t).length pos) := by
  rcases q with _ | ⟨b, bs⟩
  · exact hq.elim
  rw [List.length_append] at hpos hfuel ⊢
  by_cases hb : b = ch
  · subst hb
    have hlen := length_eq_of_first hs hq
    obtain ⟨fuel, rfl⟩ := Nat.exists_eq_succ_of_ne_zero (Nat.ne_zero_of_lt hfuel)
    have hnum : (b :: bs).length + t.length = bs.length + t.length + 1 := by
      rw [List.length_cons, Nat.add_right_comm]
    rw [hnum] at hpos hfuel ⊢
    rw [List.cons_append] at hdrop
    rw [Nat.succ_eq_add_one, search_first hdrop]
    by_cases hbs : bs = utf8
    · subst hbs
      rw [if_pos (List.prefix_append bs t)]
      exact .inl ⟨0, ⟨List.prefix_append (b :: bs) t, fun _ _ => Nat.zero_le _⟩, rfl⟩
    · have hno : ¬utf8 <+: bs ++ t := fun hpre => hbs (List.IsPrefix.eq_of_length
        (List.prefix_of_prefix_length_le (List.prefix_append bs t) hpre hlen.le) hlen)
      have hno' : ¬bs ++ t <+: utf8 := fun hpre => hbs (List.IsPrefix.eq_of_length
        ((List.prefix_append bs t).trans hpre) hlen)
      have hleft : sizeLeft str (pos + (bs.length + 1)) = t.length := by
        rw [sizeLeft_inside hsize (by omega)]
        omega
      have hother : ∀ x ∈ bs, x ≠ b := fun x hx => first_ne_follow hs (hq.2.2.2.1 x hx)
      rw [if_neg hno, if_neg hno', ← hlen, hleft]
      exact Outcome.append (IsOther.of_first hother hlen hbs) (ih fuel (by omega))
  · have hother := forall_ne hs ((List.append_nil (b :: bs)).symm ▸ hq) hb
    rw [search_skip hdrop hother]
    exact Outcome.append (IsOther.of_ne hother) (ih fuel (by omega))

/-- **What is found from the start of a sequence on.** -/
theorem search_outcome (hsize : str.length < 2 ^ 64) (hs : IsSequence (ch :: utf8))
    (hrest : IsPartText rest) (hdrop : str.drop pos = rest) (hpos : pos + rest.length = str.length)
    (hfuel : rest.length < fuel) :
    Outcome (ch :: utf8) rest pos (search str ch utf8 fuel rest.length pos) := by
  induction hrest generalizing pos fuel with
  | nil =>
    rw [List.length_nil, search_zero]
    exact outcome_nil (ch :: utf8) (List.cons_ne_nil _ _)
  | part hseq hne ht =>
    obtain ⟨fuel, rfl⟩ := Nat.exists_eq_succ_of_ne_zero (Nat.ne_zero_of_lt hfuel)
    exact outcome_part hs hseq hne ht hdrop hpos
  | @append q t hq ht ih =>
    refine outcome_append hsize hs hq hdrop hpos (fun fuel' hfuel' => ih ?_ ?_ hfuel') hfuel
    · rw [← List.drop_drop, hdrop, List.drop_left]
    · rw [List.length_append] at hpos
      omega

/-! ## `find_utf8` -/

theorem encodechar_eq_nil (h : ¬uchar ≤ maxchar) : encodechar uchar maxsize = [] := by
  rw [maxchar] at h
  rw [encodechar, if_neg (by omega), if_neg (by omega), if_neg (by omega), if_neg (by omega)]

theorem occurrences_eq_empty (h : ¬uchar ≤ maxchar) : occurrences str uchar = ∅ :=
  Set.eq_empty_of_forall_notMem fun _ ⟨_, hs, hvalue, _⟩ => h (hvalue ▸ (sizechar_value hs).2)

/-- **The search of `find_utf8`** for a character that has an encoding. -/
theorem findUtf8_outcome (hsize : str.length < 2 ^ 64) (htext : IsPartText str)
    (hs : IsSequence s) : Outcome s str 0 (findUtf8 str (value s)) := by
  rcases s with _ | ⟨ch, utf8⟩
  · exact hs.elim
  rw [findUtf8, encodechar_eq hs]
  exact search_outcome hsize hs htext List.drop_zero (Nat.zero_add _) (Nat.lt_succ_self _)

theorem exists_isSequence (h : uchar ≤ maxchar) : ∃ s, IsSequence s ∧ value s = uchar := by
  obtain ⟨k, b, henc⟩ := exists_encodes h
  exact ⟨_, isSequence_encode henc.lt henc.lead henc.bound henc.min⟩

theorem runsOut_iff (hs : IsSequence s) :
    RunsOut str (value s) ↔ places s str = ∅ ∧ EndsPartly s str := by
  rw [RunsOut, occurrences_eq hs]
  exact and_congr_right' ⟨fun ⟨_, hs', hvalue, hend⟩ => isSequence_eq hs' hs hvalue ▸ hend,
    fun hend => ⟨s, hs, rfl, hend⟩⟩

/-- **`find_utf8` is exact and stays inside of the buffer**, exactly if the search does not come to
the rest of a truncated sequence that starts like the encoding. -/
theorem findUtf8_exact_iff (hsize : str.length < 2 ^ 64) (htext : IsPartText str) (uchar : ℕ) :
    FindsFirst str uchar ↔ ¬RunsOut str uchar := by
  by_cases hmax : uchar ≤ maxchar
  · obtain ⟨s, hs, rfl⟩ := exists_isSequence hmax
    rw [FindsFirst, occurrences_eq hs, runsOut_iff hs]
    rcases findUtf8_outcome hsize htext hs with
      ⟨p, hp, hr⟩ | ⟨hempty, ⟨hend, hr⟩ | ⟨hend, hr⟩⟩
    · refine iff_of_true (.inl ⟨p, hp, by rw [hr, Nat.zero_add]⟩) fun h => ?_
      exact Set.notMem_empty p (h.1 ▸ hp.1)
    · rw [hr]
      exact iff_of_false (by simp) (not_not.mpr ⟨hempty, hend⟩)
    · exact iff_of_true (.inr ⟨hempty, hr⟩) fun h => hend h.2
  · have hnone : findUtf8 str uchar = some none := by rw [findUtf8, encodechar_eq_nil hmax]
    refine iff_of_true (.inr ⟨occurrences_eq_empty hmax, hnone⟩) ?_
    rintro ⟨-, s, hs, hvalue, -⟩
    exact hmax (hvalue ▸ (sizechar_value hs).2)

theorem isSequence_euro : IsSequence [0xE2, 0x82, 0xAC] :=
  (encodechar_spec (c := 0x20AC) (n := 3) (by decide) (by decide)).1

/-- A euro sign behind a letter and before a truncated sequence. -/
theorem findUtf8_exact_iff_euro :
    FindsFirst [0x61, 0xE2, 0x82, 0xAC, 0xE2] 0x20AC ↔
      ¬RunsOut [0x61, 0xE2, 0x82, 0xAC, 0xE2] 0x20AC := by
  have htext : IsPartText [0x61, 0xE2, 0x82, 0xAC, 0xE2] :=
    .append (s := [0x61]) (encodechar_spec (c := 0x61) (n := 1) (by decide) (by decide)).1
      (.append isSequence_euro (.part (t := [0x82, 0xAC]) isSequence_euro nofun nofun))
  exact findUtf8_exact_iff (by decide) htext 0x20AC

/-- The first byte of a euro sign is all of the buffer: the second one is read behind it. -/
theorem findUtf8_not_exact :
    ¬∀ str : List UInt8, str.length < 2 ^ 64 → IsPartText str → ∀ uchar, FindsFirst str uchar := by
  intro h
  have htext : IsPartText [0xE2] := .part (t := [0x82, 0xAC]) isSequence_euro nofun nofun
  have hnone : findUtf8 [0xE2] 0x20AC = none := by decide
  rcases h _ (by decide) htext 0x20AC with ⟨p, -, hr⟩ | ⟨-, hr⟩
  · exact absurd (hnone.symm.trans hr) nofun
  · exact absurd (hnone.symm.trans hr) nofun

end Utf8
end CKern
