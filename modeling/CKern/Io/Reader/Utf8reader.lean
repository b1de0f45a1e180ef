import Mathlib.Data.List.Infix
import Mathlib.Order.Bounds.Basic

/-!
# Matching bytes with `utf8reader_t`

* `matchbytes`: compares the unread text with a string of bytes.
* `commonPrefix`: what two strings have in common at their start.
* `strncmp_eq_zero_iff`: two strings are equal for `strncmp` if they are equal up to a 0 byte.
* `Matches`: what the function promises for whole strings of bytes.
* `matches_iff`: the promise is kept but for two strings that differ behind a common 0 byte.
-/

namespace CKern
namespace Utf8reader

/-! ## The code -/

/-- The error codes of `matchbytes_utf8reader`. -/
inductive Errno
  | ENODATA
  | EMSGSIZE
  deriving DecidableEq, Repr

/-- `textpos_t`. -/
structure Textpos where
  column : BitVec 64
  line : BitVec 64
  deriving DecidableEq, Repr

def addcolumn (txtpos : Textpos) (increment : BitVec 64) : Textpos :=
  { txtpos with column := txtpos.column + increment }

end Utf8reader

/-- `utf8reader_t`: the text up to its end, and the index of the next byte. -/
structure Utf8reader where
  text : List UInt8
  next : ℕ
  pos : Utf8reader.Textpos
  next_le : next ≤ text.length

namespace Utf8reader

def unread (utfread : Utf8reader) : List UInt8 := utfread.text.drop utfread.next

def unreadsize (utfread : Utf8reader) : ℕ := utfread.text.length - utfread.next

def skipbytes (utfread : Utf8reader) (nrbytes : ℕ) (nrchars : BitVec 64) : Utf8reader :=
  if h : nrbytes ≤ utfread.unreadsize then
    { text := utfread.text
      next := utfread.next + nrbytes
      pos := addcolumn utfread.pos nrchars
      next_le := by
        have hle := utfread.next_le
        rw [unreadsize] at h
        omega }
  else utfread

/-- `strncmp` of the standard library: the difference of the first two bytes that differ, among the
first `n` bytes and up to a 0 byte. -/
def strncmp : List UInt8 → List UInt8 → ℕ → ℤ
  | c1 :: s1, c2 :: s2, n + 1 =>
      if c1 ≠ c2 then (c1.toNat : ℤ) - c2.toNat
      else if c1 = 0 then 0
      else strncmp s1 s2 n
  | _, _, _ => 0

/-- The loop of `matchbytes_utf8reader`. -/
def matchLoop (unread bytes : List UInt8) (maxi i : ℕ) : ℕ :=
  if i < maxi then
    if unread.getD i 0 ≠ bytes.getD i 0 then i else matchLoop unread bytes maxi (i + 1)
  else i
termination_by maxi - i

/-- `matchbytes_utf8reader`, with the value that is written to `matchedsize`. -/
def matchbytes (utfread : Utf8reader) (colnr : BitVec 64) (bytes : List UInt8) :
    Option Errno × Option ℕ × Utf8reader :=
  let nrbytes := bytes.length
  if utfread.unreadsize < nrbytes ∨ strncmp utfread.unread bytes nrbytes ≠ 0 then
    let maxi := if nrbytes < utfread.unreadsize then nrbytes else utfread.unreadsize
    let i := matchLoop utfread.unread bytes maxi 0
    let utfread := skipbytes utfread i 0
    (some (if utfread.unreadsize = 0 then .ENODATA else .EMSGSIZE), some i, utfread)
  else
    (none, none, skipbytes utfread nrbytes colnr)

/-! ## Common prefixes -/

/-- The longest common prefix. -/
def commonPrefix : List UInt8 → List UInt8 → List UInt8
  | x :: xs, y :: ys => if x = y then x :: commonPrefix xs ys else []
  | _, _ => []

theorem commonPrefix_cons (x y : UInt8) (xs ys : List UInt8) :
    commonPrefix (x :: xs) (y :: ys) = if x = y then x :: commonPrefix xs ys else [] :=
  rfl

theorem commonPrefix_left : ∀ xs ys, commonPrefix xs ys <+: xs
  | [], _ => List.nil_prefix
  | _ :: _, [] => List.nil_prefix
  | x :: xs, y :: ys => by
      rw [commonPrefix_cons]
      split
      · exact List.cons_prefix_cons.mpr ⟨rfl, commonPrefix_left xs ys⟩
      · exact List.nil_prefix

theorem commonPrefix_right : ∀ xs ys, commonPrefix xs ys <+: ys
  | [], _ => List.nil_prefix
  | _ :: _, [] => List.nil_prefix
  | x :: xs, y :: ys => by
      rw [commonPrefix_cons]
      split
      case isTrue heq => exact List.cons_prefix_cons.mpr ⟨heq, commonPrefix_right xs ys⟩
      case isFalse => exact List.nil_prefix

theorem prefix_commonPrefix : ∀ {p xs ys : List UInt8}, p <+: xs → p <+: ys →
    p <+: commonPrefix xs ys
  | [], _, _, _, _ => List.nil_prefix
  | a :: p, [], _, hxs, _ => absurd (List.prefix_nil.mp hxs) (List.cons_ne_nil a p)
  | a :: p, _ :: _, [], _, hys => absurd (List.prefix_nil.mp hys) (List.cons_ne_nil a p)
  | a :: p, x :: xs, y :: ys, hxs, hys => by
      obtain ⟨rfl, hxs'⟩ := List.cons_prefix_cons.mp hxs
      obtain ⟨rfl, hys'⟩ := List.cons_prefix_cons.mp hys
      rw [commonPrefix_cons, if_pos rfl]
      exact List.cons_prefix_cons.mpr ⟨rfl, prefix_commonPrefix hxs' hys'⟩

theorem isGreatest_commonPrefix (xs ys : List UInt8) :
    IsGreatest {k | ∃ p : List UInt8, p.length = k ∧ p <+: xs ∧ p <+: ys}
      (commonPrefix xs ys).length := by
  refine ⟨⟨commonPrefix xs ys, rfl, commonPrefix_left xs ys, commonPrefix_right xs ys⟩, ?_⟩
  rintro k ⟨p, rfl, hxs, hys⟩
  exact (prefix_commonPrefix hxs hys).length_le

/-! ## The two comparisons -/

theorem strncmp_cons (c1 c2 : UInt8) (s1 s2 : List UInt8) (n : ℕ) :
    strncmp (c1 :: s1) (c2 :: s2) (n + 1) =
      if c1 ≠ c2 then (c1.toNat : ℤ) - c2.toNat else if c1 = 0 then 0 else strncmp s1 s2 n :=
  rfl

theorem strncmp_zero (s1 s2 : List UInt8) : strncmp s1 s2 0 = 0 := by
  cases s1
  · rfl
  · cases s2
    · rfl
    · rfl

/-- **What `strncmp` compares**, if the first string is long enough. -/
theorem strncmp_eq_zero_iff : ∀ {xs ys : List UInt8}, ys.length ≤ xs.length →
    (strncmp xs ys ys.length = 0 ↔ ys <+: xs ∨ 0 ∈ commonPrefix xs ys)
  | _, [], _ => iff_of_true (strncmp_zero _ _) (Or.inl List.nil_prefix)
  | x :: xs, y :: ys, hle => by
      rw [List.length_cons, strncmp_cons, commonPrefix_cons]
      rcases eq_or_ne x y with rfl | hne
      · rw [if_neg (not_not.mpr rfl), if_pos rfl, List.cons_prefix_cons, List.mem_cons]
        rcases eq_or_ne x 0 with rfl | h0
        · rw [if_pos rfl]
          exact iff_of_true rfl (Or.inr (Or.inl rfl))
        · rw [if_neg h0, strncmp_eq_zero_iff (Nat.le_of_succ_le_succ hle)]
          exact ⟨Or.imp (⟨rfl, ·⟩) Or.inr, Or.imp And.right (Or.resolve_left · h0.symm)⟩
      · rw [if_pos hne, if_neg hne, List.cons_prefix_cons]
        have hsub : (x.toNat : ℤ) - y.toNat ≠ 0 := fun h =>
          hne (UInt8.toNat_inj.mp (by omega))
        refine iff_of_false hsub ?_
        rintro (hpre | hmem)
        · exact hne hpre.1.symm
        · exact List.not_mem_nil hmem

theorem matchLoop_cons (x y : UInt8) (xs ys : List UInt8) (maxi i : ℕ) :
    matchLoop (x :: xs) (y :: ys) (maxi + 1) (i + 1) = matchLoop xs ys maxi i + 1 := by
  induction i using matchLoop.induct xs ys maxi with
  | case1 i hlt hne =>
      rw [matchLoop, if_pos (Nat.succ_lt_succ hlt), List.getD_cons_succ, List.getD_cons_succ,
        if_pos hne, matchLoop, if_pos hlt, if_pos hne]
  | case2 i hlt heq ih =>
      rw [matchLoop, if_pos (Nat.succ_lt_succ hlt), List.getD_cons_succ, List.getD_cons_succ,
        if_neg heq, ih]
      conv_rhs => rw [matchLoop, if_pos hlt, if_neg heq]
  | case3 i hge =>
      rw [matchLoop, if_neg (fun h => hge (Nat.lt_of_succ_lt_succ h)), matchLoop, if_neg hge]

/-- **What the loop counts.** -/
theorem matchLoop_eq : ∀ xs ys : List UInt8,
    matchLoop xs ys (min ys.length xs.length) 0 = (commonPrefix xs ys).length
  | [], ys => by
      rw [matchLoop, List.length_nil, Nat.min_zero, if_neg (Nat.lt_irrefl 0)]
      rfl
  | x :: xs, [] => by
      rw [matchLoop, List.length_nil, Nat.zero_min, if_neg (Nat.lt_irrefl 0)]
      rfl
  | x :: xs, y :: ys => by
      rw [List.length_cons, List.length_cons, Nat.succ_min_succ, matchLoop,
        if_pos (Nat.succ_pos _), List.getD_cons_zero, List.getD_cons_zero, matchLoop_cons,
        matchLoop_eq xs ys, commonPrefix_cons]
      rcases eq_or_ne x y with heq | hne
      · rw [if_neg (not_not.mpr heq), if_pos heq, List.length_cons]
      · rw [if_pos hne, if_neg hne, List.length_nil]

/-! ## The function -/

theorem length_unread (utfread : Utf8reader) : utfread.unread.length = utfread.unreadsize :=
  List.length_drop

theorem skipbytes_next {utfread : Utf8reader} {nrbytes : ℕ} {nrchars : BitVec 64}
    (h : nrbytes ≤ utfread.unreadsize) :
    (skipbytes utfread nrbytes nrchars).next = utfread.next + nrbytes := by
  rw [skipbytes, dif_pos h]

theorem skipbytes_text (utfread : Utf8reader) (nrbytes : ℕ) (nrchars : BitVec 64) :
    (skipbytes utfread nrbytes nrchars).text = utfread.text := by
  rw [skipbytes]
  split
  · rfl
  · rfl

/-- What `matchbytes_utf8reader` promises for a string of bytes. -/
structure Matches (utfread : Utf8reader) (bytes : List UInt8)
    (out : Option Errno × Option ℕ × Utf8reader) : Prop where
  ok_iff : out.1 = none ↔ bytes <+: utfread.unread
  text : out.2.2.text = utfread.text
  next : out.1 = none → out.2.2.next = utfread.next + bytes.length
  fail : ∀ err, out.1 = some err → ∃ matchedsize, out.2.1 = some matchedsize ∧
    IsGreatest {k | ∃ p : List UInt8, p.length = k ∧ p <+: utfread.unread ∧ p <+: bytes}
      matchedsize ∧
    out.2.2.next = utfread.next + matchedsize ∧
    err = if out.2.2.unread = [] then .ENODATA else .EMSGSIZE

theorem matchbytes_of_ne {utfread : Utf8reader} {colnr : BitVec 64} {bytes : List UInt8}
    (h : utfread.unreadsize < bytes.length ∨ strncmp utfread.unread bytes bytes.length ≠ 0) :
    matchbytes utfread colnr bytes =
      let matched := skipbytes utfread (commonPrefix utfread.unread bytes).length 0
      (some (if matched.unreadsize = 0 then .ENODATA else .EMSGSIZE),
        some (commonPrefix utfread.unread bytes).length, matched) := by
  have hmin : (if bytes.length < utfread.unreadsize then bytes.length else utfread.unreadsize) =
      min bytes.length utfread.unread.length := by
    rw [length_unread]
    split
    · omega
    · omega
  rw [matchbytes]
  dsimp only
  rw [if_pos h, hmin, matchLoop_eq]

theorem matchbytes_of_eq {utfread : Utf8reader} {colnr : BitVec 64} {bytes : List UInt8}
    (hle : bytes.length ≤ utfread.unreadsize)
    (h : strncmp utfread.unread bytes bytes.length = 0) :
    matchbytes utfread colnr bytes = (none, none, skipbytes utfread bytes.length colnr) := by
  rw [matchbytes]
  dsimp only
  rw [if_neg (not_or.mpr ⟨not_lt.mpr hle, not_not.mpr h⟩)]

/-- **Whole strings are compared** but for two that differ behind a 0 byte of both. -/
theorem matches_iff (utfread : Utf8reader) (colnr : BitVec 64) (bytes : List UInt8) :
    Matches utfread bytes (matchbytes utfread colnr bytes) ↔
      utfread.unreadsize < bytes.length ∨ bytes <+: utfread.unread ∨
        0 ∉ commonPrefix utfread.unread bytes := by
  by_cases h : utfread.unreadsize < bytes.length ∨ strncmp utfread.unread bytes bytes.length ≠ 0
  · have hnot : ¬bytes <+: utfread.unread := fun hpre => by
      have hlen := hpre.length_le
      rw [length_unread] at hlen
      rcases h with hlt | hne
      · omega
      · exact hne ((strncmp_eq_zero_iff hpre.length_le).mpr (Or.inl hpre))
    have hcond : utfread.unreadsize < bytes.length ∨ bytes <+: utfread.unread ∨
        0 ∉ commonPrefix utfread.unread bytes := by
      rcases Nat.lt_or_ge utfread.unreadsize bytes.length with hlt | hge
      · exact Or.inl hlt
      · have hne := h.resolve_left (not_lt.mpr hge)
        rw [ne_eq, strncmp_eq_zero_iff (by rwa [length_unread]), not_or] at hne
        exact Or.inr (Or.inr hne.2)
    have hle : (commonPrefix utfread.unread bytes).length ≤ utfread.unreadsize :=
      length_unread utfread ▸ (commonPrefix_left _ _).length_le
    rw [matchbytes_of_ne h]
    refine iff_of_true ⟨iff_of_false (Option.some_ne_none _) hnot, skipbytes_text _ _ _, ?_, ?_⟩
      hcond
    · intro hnone
      cases hnone
    · rintro err ⟨⟩
      refine ⟨_, rfl, isGreatest_commonPrefix _ _, skipbytes_next hle, ?_⟩
      exact if_congr (by rw [← length_unread, List.length_eq_zero_iff]) rfl rfl
  · obtain ⟨hge, heq⟩ := not_or.mp h
    rw [not_lt] at hge
    rw [not_not] at heq
    rw [matchbytes_of_eq hge heq]
    constructor
    · intro hm
      exact Or.inr (Or.inl (hm.ok_iff.mp rfl))
    · intro hcond
      have hpre : bytes <+: utfread.unread := by
        rcases (strncmp_eq_zero_iff (by rwa [length_unread])).mp heq with hpre | hmem
        · exact hpre
        · rcases hcond with hlt | hpre | h0
          · exact absurd hlt (not_lt.mpr hge)
          · exact hpre
          · exact absurd hmem h0
      refine ⟨iff_of_true rfl hpre, skipbytes_text _ _ _, fun _ => skipbytes_next hge, ?_⟩
      intro err herr
      cases herr

/-- The bytes behind the 0 byte differ, and the function reports a match. -/
theorem not_matches_zero :
    ¬Matches ⟨[0, 1], 0, ⟨0, 1⟩, Nat.zero_le 2⟩ [0, 2]
      (matchbytes ⟨[0, 1], 0, ⟨0, 1⟩, Nat.zero_le 2⟩ 2 [0, 2]) := by
  intro hm
  have hpre : [0, 2] <+: [(0 : UInt8), 1] := hm.ok_iff.mp rfl
  exact absurd hpre (by decide)

end Utf8reader
end CKern
