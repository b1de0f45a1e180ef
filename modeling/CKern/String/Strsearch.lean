import CKern.Library.Matching

/-!
# `string/strsearch.c`: searching a string in a string

* `buildtableRsearchkmp`, `buildtableStrsearch`, `init`, `find`, `strsearch`: the functions of the
  module.  There is no result if a byte outside of an array or a byte that was not written is read,
  or if a loop does not end.
* `rsearchkmp_spec`, `buildtable_spec`: what the two tables contain.
* `strsearch_exact`: the lowest address of an occurrence is found, and every read is inside.
-/

namespace CKern
namespace Strsearch

open Matching

/-! ## The functions -/

/-- An array of bytes, of which only some are written. -/
abbrev Table := List (Option ℕ)

/-- Reading a byte of a table. -/
def Table.get (table : Table) (i : ℕ) : Option ℕ := table.getD i none

/-- Writing a byte of a table. -/
def Table.put (table : Table) (i value : ℕ) : Option Table :=
  if i < table.length then some (table.set i (some (value % 256))) else none

/-- The loop that follows the table `sidx` from the index `i2` on to a character of the pattern that
is equal to `c`, or to the end marker. -/
def nextIndex (findstr : List UInt8) (sidx : Table) (c : UInt8) : ℕ → ℕ → Option ℕ
  | 0, _ => none
  | fuel + 1, i2 =>
    if i2 < findstr.length then
      findstr[i2]?.bind fun c2 =>
        if c ≠ c2 then (sidx.get i2).bind fun i2 => nextIndex findstr sidx c fuel i2 else some i2
    else some i2

/-- The loop of `buildtable_rsearchkmp` from the index `i` down. -/
def rsearchkmpLoop (findstr : List UInt8) : ℕ → ℕ → Table → Option Table
  | 0, _, sidx => some sidx
  | i + 1, i2, sidx =>
    findstr[i + 1]?.bind fun c =>
      (nextIndex findstr sidx c (findstr.length + 1) i2).bind fun i2 =>
        (sidx.put i (i2 - 1)).bind fun sidx => rsearchkmpLoop findstr i (i2 - 1) sidx

/-- `buildtable_rsearchkmp`. -/
def buildtableRsearchkmp (findstr : List UInt8) : Option Table :=
  let findsize := findstr.length
  let sidx : Table := List.replicate findsize none
  (sidx.put (findsize - 1) findsize).bind fun sidx =>
    rsearchkmpLoop findstr (findsize - 1) findsize sidx

/-- The loop over `dpos` in `buildtable_strsearch`. -/
def dposLoop (findstr : List UInt8) (sidx : Table) (nrmatched : ℕ) : ℕ → ℕ → Option (ℕ × ℕ)
  | 0, spos => some (0, spos)
  | dpos + 1, spos =>
    let spos := spos - 1
    findstr[spos]?.bind fun c2 => findstr[dpos]?.bind fun c =>
      let spos := if c2 ≠ c then
          (sidx.get spos).bind fun spos => nextIndex findstr sidx c (findstr.length + 1) spos
        else some spos
      spos.bind fun spos =>
        if nrmatched = findstr.length - spos then some (dpos, spos)
        else dposLoop findstr sidx nrmatched dpos spos

/-- The new value of `lastoff` for a number of matched characters. -/
def nextLastoff (findstr : List UInt8) (sidx : Table) (nrmatched lastoff : ℕ) : Option ℕ :=
  let findsize := findstr.length
  if lastoff ≥ nrmatched then
    (dposLoop findstr sidx nrmatched (lastoff - nrmatched + 1) (findsize - nrmatched + 1)).map
      fun (dpos, spos) => if spos < findsize then dpos + (findsize - spos) else 0
  else some lastoff

/-- The loop over `nrmatched` in `buildtable_strsearch`, with the number of rounds that are left. -/
def shiftLoop (findstr : List UInt8) (sidx : Table) : ℕ → ℕ → ℕ → Table → Option Table
  | 0, _, _, shift => some shift
  | rounds + 1, nrmatched, lastoff, shift =>
    (nextLastoff findstr sidx nrmatched lastoff).bind fun lastoff =>
      (shift.put nrmatched (findstr.length - lastoff)).bind fun shift =>
        shiftLoop findstr sidx rounds (nrmatched + 1) lastoff shift

/-- `buildtable_strsearch`. -/
def buildtableStrsearch (findstr : List UInt8) (shift : Table) : Option Table :=
  let findsize := findstr.length
  (buildtableRsearchkmp findstr).bind fun sidx =>
    (shift.put 0 1).bind fun shift =>
      shiftLoop findstr sidx (findsize - 1) 1 (findsize - 1) shift

/-- `strsearch_t`; the field `findsize` is the length of `findstr`. -/
structure StrsearchT where
  shift : Table
  findstr : List UInt8

/-- `init_strsearch` with a table of `findsize` bytes that are not written. -/
def init (findstr : List UInt8) : Option StrsearchT :=
  let shift : Table := List.replicate findstr.length none
  if findstr.length > 1 then
    (buildtableStrsearch findstr shift).map fun shift => ⟨shift, findstr⟩
  else some ⟨shift, findstr⟩

/-- How the comparison of the pattern with the data ends. -/
inductive Compared
  | found
  | differs (off : ℕ)
  deriving DecidableEq, Repr

/-- The inner loop of the search: the comparison at the address `pos` from the index `off` down. -/
def compareLoop (findstr data : List UInt8) (pos skip : ℕ) : ℕ → ℕ → ℕ → Option Compared
  | 0, _, _ => none
  | fuel + 1, off, eoff =>
    findstr[off]?.bind fun c => data[pos + off]?.bind fun b =>
      if c = b then
        if off = eoff then
          if off ≤ skip then some .found
          else compareLoop findstr data pos skip fuel (off - skip - 1) 0
        else compareLoop findstr data pos skip fuel (off - 1) eoff
      else some (.differs off)

/-- The outer loop of the search. -/
def searchLoop (findstr data : List UInt8) (shift : Table) : ℕ → ℕ → ℕ → ℕ → Option (Option ℕ)
  | 0, _, _, _ => none
  | fuel + 1, pos, eoff, skip =>
    let findsize := findstr.length
    let findsize1 := findsize - 1
    let endpos := data.length - findsize1
    (compareLoop findstr data pos skip findsize findsize1 eoff).bind fun
      | .found => some (some pos)
      | .differs off =>
        let nrmatched := findsize1 - off
        (shift.get nrmatched).bind fun pincr =>
          if pos + pincr < endpos then
            searchLoop findstr data shift fuel (pos + pincr) (findsize - pincr) nrmatched
          else some none

/-- `memchr`, with the index of the first byte that is found. -/
def memchr (data : List UInt8) (c : UInt8) : Option ℕ := data.findIdx? (· == c)

/-- `find_strsearch`: the index of the address in `data`, or `none` for the address 0. -/
def find (strsrch : StrsearchT) (data : List UInt8) : Option (Option ℕ) :=
  let findstr := strsrch.findstr
  if findstr.length > data.length then some none
  else if findstr.length ≤ 1 then
    if findstr.length = 0 then some none else findstr[0]?.map fun c => memchr data c
  else searchLoop findstr data strsrch.shift (data.length + 1) 0 0 0

/-- `strsearch`. -/
def strsearch (data findstr : List UInt8) : Option (Option ℕ) :=
  if findstr.length > data.length then some none
  else if findstr.length ≤ 1 then
    if findstr.length = 0 then some none else findstr[0]?.map fun c => memchr data c
  else
    let shift : Table := List.replicate findstr.length none
    (buildtableStrsearch findstr shift).bind fun shift =>
      searchLoop findstr data shift (data.length + 1) 0 0 0

/-! ## Tables -/

variable {P T : List UInt8} {sidx shift : Table} {c : UInt8}

theorem get_put {table table' : Table} {i value : ℕ} (h : table.put i value = some table') (k : ℕ) :
    table'.get k = if k = i then some (value % 256) else table.get k := by
  rw [Table.put] at h
  split_ifs at h with hlt
  obtain rfl := Option.some.inj h
  rw [Table.get, Table.get, List.getD_eq_getElem?_getD, List.getD_eq_getElem?_getD,
    List.getElem?_set]
  by_cases hki : k = i
  · subst hki
    rw [if_pos rfl, if_pos hlt, if_pos rfl, Option.getD_some]
  · rw [if_neg fun hik => hki hik.symm, if_neg hki]

theorem exists_put {table : Table} {i : ℕ} (h : i < table.length) (value : ℕ) :
    ∃ table', table.put i value = some table' ∧ table'.length = table.length := by
  rw [Table.put, if_pos h]
  exact ⟨_, rfl, List.length_set⟩

/-- The table `sidx` is written from the index `lo` on. -/
def SidxFrom (P : List UInt8) (sidx : Table) (lo : ℕ) : Prop :=
  ∀ k, lo ≤ k → k < P.length → ∃ j, sidx.get k = some j ∧ IsFallback P k j

/-- **Following the chain** ends at the first candidate with the wanted character. -/
theorem nextIndex_spec {lo d : ℕ} (htab : SidxFrom P sidx lo) (hc : T[d]? = some c) :
    ∀ (fuel j : ℕ), P.length < fuel + j → j ∈ candidates P T lo d →
      (∀ i ∈ candidates P T lo d, i < j → P[i]? ≠ T[d]?) →
      ∃ r, nextIndex P sidx c fuel j = some r ∧ IsLeast (suffixes P T lo d) r := by
  intro fuel
  induction fuel with
  | zero =>
    intro j hfuel hj
    have hle : j ≤ P.length := hj.2.1
    omega
  | succ fuel ih =>
    intro j hfuel hj hbefore
    rw [nextIndex]
    by_cases hlt : j < P.length
    · rw [if_pos hlt, List.getElem?_eq_getElem hlt, Option.bind_some]
      by_cases hchar : c = P[j]
      · rw [if_neg (not_not.mpr hchar)]
        refine ⟨j, rfl, isLeast_suffixes hj (Or.inr ?_) hbefore⟩
        rw [List.getElem?_eq_getElem hlt, hc, hchar]
      · obtain ⟨r, hget, hfall⟩ := htab j hj.1 hlt
        obtain ⟨hr, hnext⟩ := fallback_mem_candidates hj hfall
        have hjr : j + 1 ≤ r := hfall.1.1
        rw [if_pos hchar, hget, Option.bind_some]
        refine ih r (by omega) hr fun i hi hir => ?_
        rcases Nat.lt_trichotomy i j with hij | rfl | hij
        · exact hbefore i hi hij
        · rw [List.getElem?_eq_getElem hlt, hc]
          exact fun heq => hchar (Option.some.inj heq).symm
        · exact absurd (hnext i hi hij) (by omega)
    · rw [if_neg hlt]
      have hlen : j = P.length := Nat.le_antisymm hj.2.1 (Nat.le_of_not_lt hlt)
      exact ⟨j, rfl, isLeast_suffixes hj (Or.inl hlen) hbefore⟩

/-! ## The table of the search from the right -/

theorem rsearchkmpLoop_spec (hsize : P.length < 256) :
    ∀ (i i2 : ℕ) (sidx : Table), i < P.length → sidx.length = P.length → SidxFrom P sidx i →
      IsFallback P i i2 → ∃ sidx', rsearchkmpLoop P i i2 sidx = some sidx' ∧ SidxFrom P sidx' 0 := by
  intro i
  induction i with
  | zero => exact fun i2 sidx _ _ htab _ => ⟨sidx, rfl, htab⟩
  | succ i ih =>
    intro i2 sidx hi hlen htab hfall
    have hafter : SidxFrom P sidx (i + 2) := fun k hk hkn => htab k (by omega) hkn
    have hchar : P[i + 1]? = some P[i + 1] := List.getElem?_eq_getElem hi
    obtain ⟨r, hnext, hleast⟩ := nextIndex_spec hafter hchar (P.length + 1) i2 (by omega) hfall.1
      fun j hj hlt => absurd (hfall.2 hj) (by omega)
    have hfall' : IsFallback P i (r - 1) := isLeast_candidates hleast
    have hr : r - 1 ≤ P.length := hfall'.1.2.1
    obtain ⟨sidx', hput, hlen'⟩ := exists_put (show i < sidx.length by omega) (r - 1)
    rw [rsearchkmpLoop, hchar, Option.bind_some, hnext, Option.bind_some, hput, Option.bind_some]
    refine ih (r - 1) sidx' (by omega) (by omega) (fun k hk hkn => ?_) hfall'
    rw [get_put hput k]
    by_cases hki : k = i
    · subst hki
      rw [if_pos rfl, Nat.mod_eq_of_lt (by omega)]
      exact ⟨r - 1, rfl, hfall'⟩
    · rw [if_neg hki]
      exact htab k (by omega) hkn

/-- **`buildtable_rsearchkmp`**: every entry is the index to compare next. -/
theorem rsearchkmp_spec (hpos : 0 < P.length) (hsize : P.length < 256) :
    ∃ sidx, buildtableRsearchkmp P = some sidx ∧ SidxFrom P sidx 0 := by
  have hlast : P.length - 1 < (List.replicate P.length none : Table).length := by
    rw [List.length_replicate]
    omega
  obtain ⟨sidx, hput, hlen⟩ := exists_put hlast P.length
  rw [List.length_replicate] at hlen
  have hfall : IsFallback P (P.length - 1) P.length := by
    refine ⟨⟨by omega, le_refl _, stands_of_length_le (by omega)⟩, ?_⟩
    rintro j ⟨hj, -, -⟩
    omega
  rw [buildtableRsearchkmp, hput, Option.bind_some]
  refine rsearchkmpLoop_spec hsize _ _ sidx (by omega) hlen (fun k hk hkn => ?_) hfall
  have hkeq : k = P.length - 1 := by omega
  rw [get_put hput k, if_pos hkeq, Nat.mod_eq_of_lt hsize, hkeq]
  exact ⟨P.length, rfl, hfall⟩

/-! ## The table of the moves -/

theorem dposLoop_spec (htab : SidxFrom P sidx 0) {m : ℕ} (hm : 0 < m) :
    ∀ (dpos spos : ℕ), dpos + m ≤ P.length →
      IsLeast (suffixes P P (P.length - m + 1) dpos) spos →
      (∀ e < P.length, Fits P m e → e < dpos + m) →
      ∃ dpos' spos', dposLoop P sidx m dpos spos = some (dpos', spos') ∧
        IsLastFit P m (if spos' < P.length then dpos' + (P.length - spos') else 0) := by
  intro dpos
  induction dpos with
  | zero =>
    intro spos hle hleast hbound
    obtain ⟨⟨hlo, hlen, hs⟩, hmin⟩ := hleast
    refine ⟨0, spos, rfl, ?_⟩
    have hoff : (if spos < P.length then 0 + (P.length - spos) else 0) = P.length - spos := by
      split_ifs <;> omega
    rw [hoff]
    refine ⟨⟨by omega, ?_⟩, fun e he => ?_⟩
    · have hstart : P.length - min m (P.length - spos) = spos := by omega
      have hplace : P.length - spos - m = 0 := by omega
      rw [Fits, hstart, hplace]
      exact hs
    · have hem : e < 0 + m := hbound e he.1 he.2
      have hfits : Fits P m e := he.2
      have hstart : P.length - min m e = P.length - e := by omega
      have hplace : e - m = 0 := by omega
      rw [Fits, hstart, hplace] at hfits
      have hse : spos ≤ P.length - e := hmin ⟨by omega, by omega, hfits⟩
      have helt : e < P.length := he.1
      omega
  | succ dpos ih =>
    intro spos hle hleast hbound
    have hcand : IsLeast (candidates P P (P.length - m) dpos) (spos - 1) :=
      isLeast_candidates hleast
    have hspos : spos ≤ P.length := hleast.1.2.1
    have hs : spos - 1 < P.length := by omega
    have hd : dpos < P.length := by omega
    have hchar : P[dpos]? = some P[dpos] := List.getElem?_eq_getElem hd
    have htab' : SidxFrom P sidx (P.length - m) := fun k _ hkn => htab k (Nat.zero_le k) hkn
    obtain ⟨r, hnext, hr⟩ := nextIndex_spec htab' hchar (P.length + 2) (spos - 1) (by omega) hcand.1
      fun j hj hlt => absurd (hcand.2 hj) (by omega)
    have hrlen : r ≤ P.length := hr.1.2.1
    rw [nextIndex, if_pos hs, List.getElem?_eq_getElem hs, Option.bind_some] at hnext
    rw [dposLoop, List.getElem?_eq_getElem hs, Option.bind_some, hchar, Option.bind_some]
    simp only [ne_comm (a := P[dpos])] at hnext
    rw [hnext, Option.bind_some]
    by_cases hbreak : m = P.length - r
    · rw [if_pos hbreak]
      refine ⟨dpos, r, rfl, ?_⟩
      have hoff : (if r < P.length then dpos + (P.length - r) else 0) = dpos + m := by
        rw [if_pos (by omega), ← hbreak]
      rw [hoff]
      refine ⟨⟨by omega, ?_⟩, fun e he => ?_⟩
      · have hstart : P.length - min m (dpos + m) = r := by omega
        have hplace : dpos + m - m = dpos := Nat.add_sub_cancel dpos m
        rw [Fits, hstart, hplace]
        exact hr.1.2.2
      · have hlt := hbound e he.1 he.2
        omega
    · rw [if_neg hbreak]
      have hrlo : P.length - m ≤ r := hr.1.1
      refine ih r (by omega) ⟨⟨by omega, hrlen, hr.1.2.2⟩, ?_⟩ fun e he hfits => ?_
      · rintro j ⟨hj, hjlen, hjs⟩
        exact hr.2 ⟨by omega, hjlen, hjs⟩
      · have hlt := hbound e he hfits
        by_contra hge
        have heq : e = dpos + m := by omega
        have hstart : P.length - min m (dpos + m) = P.length - m := by omega
        have hplace : dpos + m - m = dpos := Nat.add_sub_cancel dpos m
        rw [heq, Fits, hstart, hplace] at hfits
        have hrm : r ≤ P.length - m := hr.2 ⟨le_refl _, by omega, hfits⟩
        omega

theorem nextLastoff_spec (htab : SidxFrom P sidx 0) {m e : ℕ} (h : IsLastFit P m e) :
    ∃ e', nextLastoff P sidx (m + 1) e = some e' ∧ IsLastFit P (m + 1) e' := by
  obtain ⟨⟨hlt, hfits⟩, hgreatest⟩ := h
  rw [nextLastoff]
  by_cases hge : e ≥ m + 1
  · rw [if_pos hge]
    have hstart : P.length - min m e = P.length - (m + 1) + 1 := by omega
    have hplace : e - m = e - (m + 1) + 1 := by omega
    have hs : Stands P P (P.length - (m + 1) + 1) (e - (m + 1) + 1) := by
      rw [← hstart, ← hplace]
      exact hfits
    obtain ⟨dpos, spos, hloop, hlast⟩ := dposLoop_spec htab (Nat.succ_pos m) (e - (m + 1) + 1)
      (P.length - (m + 1) + 1) (by omega) ⟨⟨le_refl _, by omega, hs⟩, fun j hj => hj.1⟩
      fun e' he' hfits' => by
        have hle : e' ≤ e := hgreatest ⟨he', hfits'.mono he'⟩
        omega
    rw [hloop]
    exact ⟨_, rfl, hlast⟩
  · rw [if_neg hge]
    exact ⟨e, rfl, IsLastFit.succ ⟨⟨hlt, hfits⟩, hgreatest⟩ (by omega)⟩

/-- The entry of the table `shift` for `k` matched characters. -/
def ShiftAt (P : List UInt8) (shift : Table) (k : ℕ) : Prop :=
  ∃ e, shift.get k = some (P.length - e) ∧ IsLastFit P k e

theorem ShiftAt.put {shift' : Table} {i e : ℕ} (hsize : P.length < 256)
    (hput : shift.put i (P.length - e) = some shift') (hlast : IsLastFit P i e)
    (hbefore : ∀ k < i, ShiftAt P shift k) : ∀ k < i + 1, ShiftAt P shift' k := by
  intro k hk
  by_cases hki : k = i
  · subst hki
    refine ⟨e, ?_, hlast⟩
    rw [get_put hput, if_pos rfl, Nat.mod_eq_of_lt (by omega)]
  · obtain ⟨e', hget, hlast'⟩ := hbefore k (by omega)
    refine ⟨e', ?_, hlast'⟩
    rw [get_put hput, if_neg hki, hget]

theorem shiftLoop_spec (hsize : P.length < 256) (htab : SidxFrom P sidx 0) :
    ∀ (rounds m e : ℕ) (shift : Table), rounds + (m + 1) = P.length → shift.length = P.length →
      IsLastFit P m e → (∀ k < m + 1, ShiftAt P shift k) →
      ∃ shift', shiftLoop P sidx rounds (m + 1) e shift = some shift' ∧
        ∀ k < P.length, ShiftAt P shift' k := by
  intro rounds
  induction rounds with
  | zero =>
    intro m e shift hrounds hlen hlast hbefore
    exact ⟨shift, rfl, fun k hk => hbefore k (by omega)⟩
  | succ rounds ih =>
    intro m e shift hrounds hlen hlast hbefore
    obtain ⟨e', hnext, hlast'⟩ := nextLastoff_spec htab hlast
    obtain ⟨shift', hput, hlen'⟩ := exists_put (show m + 1 < shift.length by omega) (P.length - e')
    rw [shiftLoop, hnext, Option.bind_some, hput, Option.bind_some]
    exact ih (m + 1) e' shift' (by omega) (by omega) hlast' (ShiftAt.put hsize hput hlast' hbefore)

/-- **`buildtable_strsearch`**: every entry is the move to the last fit of the matched part. -/
theorem buildtable_spec (hpos : 0 < P.length) (hsize : P.length < 256) (hlen : shift.length = P.length) :
    ∃ shift', buildtableStrsearch P shift = some shift' ∧ ∀ k < P.length, ShiftAt P shift' k := by
  obtain ⟨sidx, hsidx, htab⟩ := rsearchkmp_spec hpos hsize
  obtain ⟨shift', hput, hlen'⟩ := exists_put (show 0 < shift.length by omega) 1
  have hone : P.length - (P.length - 1) = 1 := by omega
  have hput' : shift.put 0 (P.length - (P.length - 1)) = some shift' := by rw [hone, hput]
  rw [buildtableStrsearch, hsidx, Option.bind_some, hput, Option.bind_some]
  exact shiftLoop_spec hsize htab (P.length - 1) 0 (P.length - 1) shift' (by omega) (by omega)
    (isLastFit_zero hpos)
    (ShiftAt.put hsize hput' (isLastFit_zero hpos) fun k hk => absurd hk (Nat.not_lt_zero k))

/-! ## The search -/

/-- The characters at the indices from `eoff - skip` to `eoff` are known to match. -/
def Known (P T : List UInt8) (pos eoff skip : ℕ) : Prop :=
  ∀ j, eoff - skip ≤ j → j < eoff → T[pos + j]? = P[j]?

theorem compareLoop_spec {pos skip : ℕ} (hin : pos + P.length ≤ T.length) :
    ∀ (fuel off eoff : ℕ), off < fuel → off < P.length → eoff ≤ off → Known P T pos eoff skip →
      Stands P T (off + 1) (pos + off + 1) →
      (compareLoop P T pos skip fuel off eoff = some .found ∧ Stands P T 0 pos) ∨
      ∃ off', compareLoop P T pos skip fuel off eoff = some (.differs off') ∧ off' < P.length ∧
        Stands P T (off' + 1) (pos + off' + 1) ∧ T[pos + off']? ≠ P[off']? := by
  intro fuel
  induction fuel with
  | zero => exact fun off eoff hoff => absurd hoff (Nat.not_lt_zero off)
  | succ fuel ih =>
    intro off eoff hfuel hoff hle hknown hmatch
    have hoffT : pos + off < T.length := by omega
    rw [compareLoop, List.getElem?_eq_getElem hoff, Option.bind_some,
      List.getElem?_eq_getElem hoffT, Option.bind_some]
    by_cases hchar : P[off] = T[pos + off]
    · have hat : T[pos + off]? = P[off]? := by
        rw [List.getElem?_eq_getElem hoff, List.getElem?_eq_getElem hoffT, hchar]
      have hmatch' : Stands P T off (pos + off) := (stands_succ_iff hoff).mpr ⟨hat, hmatch⟩
      rw [if_pos hchar]
      by_cases heoff : off = eoff
      · subst heoff
        -- from here on the known characters below `off` count as compared
        have hbelow : ∀ s, off - skip ≤ s → s ≤ off → Stands P T s (pos + s) := by
          intro s hs hso k hk
          rcases Nat.lt_or_ge (s + k) off with hlt | hge
          · have hk' := hknown (s + k) (by omega) hlt
            rwa [← Nat.add_assoc] at hk'
          · have hk' := hmatch' (s + k - off) (by omega)
            have h1 : pos + off + (s + k - off) = pos + s + k := by omega
            have h2 : off + (s + k - off) = s + k := by omega
            rwa [h1, h2] at hk'
        rw [if_pos rfl]
        by_cases hskip : off ≤ skip
        · rw [if_pos hskip]
          exact Or.inl ⟨rfl, hbelow 0 (by omega) (Nat.zero_le off)⟩
        · rw [if_neg hskip]
          have hnext : off - skip - 1 + 1 = off - skip := by omega
          refine ih (off - skip - 1) 0 (by omega) (by omega) (Nat.zero_le _)
            (fun j _ hj => absurd hj (Nat.not_lt_zero j)) ?_
          rw [Nat.add_assoc, hnext]
          exact hbelow (off - skip) (le_refl _) (Nat.sub_le off skip)
      · rw [if_neg heoff]
        have hnext : off - 1 + 1 = off := by omega
        refine ih (off - 1) eoff (by omega) (by omega) (by omega) hknown ?_
        rw [Nat.add_assoc, hnext]
        exact hmatch'
    · rw [if_neg hchar]
      refine Or.inr ⟨off, rfl, hoff, hmatch, ?_⟩
      rw [List.getElem?_eq_getElem hoff, List.getElem?_eq_getElem hoffT]
      exact fun heq => hchar (Option.some.inj heq).symm

/-- The result of a search: the first index where the pattern stands. -/
def First (P T : List UInt8) : Option ℕ → Prop
  | none => ∀ q, ¬ Stands P T 0 q
  | some p => Stands P T 0 p ∧ ∀ q < p, ¬ Stands P T 0 q

/-- **The search** visits every place where the pattern can stand. -/
theorem searchLoop_spec (hpos : 0 < P.length) (htab : ∀ k < P.length, ShiftAt P shift k) :
    ∀ (fuel pos eoff skip : ℕ), T.length < fuel + pos → pos + P.length ≤ T.length →
      eoff < P.length → Known P T pos eoff skip → (∀ q < pos, ¬ Stands P T 0 q) →
      ∃ r, searchLoop P T shift fuel pos eoff skip = some r ∧ First P T r := by
  intro fuel
  induction fuel with
  | zero =>
    intro pos eoff skip hfuel hin
    omega
  | succ fuel ih =>
    intro pos eoff skip hfuel hin heoff hknown hbefore
    have hend : pos + (P.length - 1) + 1 = pos + P.length := by omega
    have hcompare := compareLoop_spec hin P.length (P.length - 1) eoff (by omega) (by omega)
      (by omega) hknown (stands_of_length_le (by omega))
    rw [searchLoop]
    rcases hcompare with ⟨hfound, hstands⟩ | ⟨off, hdiffers, hoff, hmatch, hne⟩
    · rw [hfound]
      exact ⟨some pos, rfl, hstands, hbefore⟩
    rw [hdiffers]
    obtain ⟨e, hget, ⟨hlt, hfits⟩, hgreatest⟩ := htab (P.length - 1 - off) (by omega)
    have hm : P.length - (P.length - 1 - off) = off + 1 := by omega
    have hmle : P.length - 1 - off ≤ P.length := by omega
    have hmatch' : Stands P T (P.length - (P.length - 1 - off))
        (pos + (P.length - (P.length - 1 - off))) := by
      rw [hm]
      exact hmatch
    -- an occurrence before the next place would be a fit behind the last one
    have hbefore' : ∀ q < pos + (P.length - e), ¬ Stands P T 0 q := by
      intro q hq hocc
      rcases Nat.lt_trichotomy q pos with hqp | rfl | hqp
      · exact hbefore q hqp hocc
      · have hat := hocc off (by omega)
        rw [Nat.zero_add] at hat
        exact hne hat
      · obtain ⟨t, rfl⟩ : ∃ t, q = pos + t := ⟨q - pos, by omega⟩
        have hfit := fits_of_stands hmle hmatch' (by omega : t ≤ P.length) hocc
        have hle : P.length - t ≤ e := hgreatest ⟨by omega, hfit⟩
        omega
    rw [Option.bind_some]
    dsimp only
    rw [hget, Option.bind_some]
    by_cases hnext : pos + (P.length - e) < T.length - (P.length - 1)
    · rw [if_pos hnext]
      have heoff' : P.length - (P.length - e) = e := by omega
      rw [heoff']
      refine ih _ e _ (by omega) (by omega) hlt (fun j hlo hj => ?_) hbefore'
      exact known_of_fits hmle hmatch' hlt hfits hlo hj
    · rw [if_neg hnext]
      refine ⟨none, rfl, fun q hocc => ?_⟩
      have hq := length_le_of_stands_zero hocc hpos
      exact hbefore' q (by omega) hocc

/-- What a search returns: the first index at which the string occurs, if it is not empty. -/
def IsLowest (findstr data : List UInt8) : Option ℕ → Prop
  | none => findstr = [] ∨ ∀ p, ¬ findstr <+: data.drop p
  | some p => findstr ≠ [] ∧ findstr <+: data.drop p ∧ ∀ q < p, ¬ findstr <+: data.drop q

theorem isLowest_of_first (hpos : 0 < P.length) {r : Option ℕ} (h : First P T r) :
    IsLowest P T r := by
  cases r with
  | none => exact Or.inr fun p hp => h p (stands_zero_iff.mpr hp)
  | some p =>
    exact ⟨List.ne_nil_of_length_pos hpos, stands_zero_iff.mp h.1,
      fun q hq hocc => h.2 q hq (stands_zero_iff.mpr hocc)⟩

theorem singleton_prefix_drop {q : ℕ} : [c] <+: T.drop q ↔ T[q]? = some c := by
  rw [← stands_zero_iff]
  constructor
  · exact fun h => h 0 Nat.zero_lt_one
  · intro h k hk
    obtain rfl : k = 0 := by
      rw [List.length_singleton] at hk
      omega
    exact h

theorem isLowest_memchr (c : UInt8) (data : List UInt8) : IsLowest [c] data (memchr data c) := by
  cases hfind : memchr data c with
  | none =>
    refine Or.inr fun p hp => ?_
    have hat := singleton_prefix_drop.mp hp
    have hall := List.findIdx?_eq_none_iff.mp hfind c (List.mem_of_getElem? hat)
    simp at hall
  | some p =>
    obtain ⟨hlt, hat, hbefore⟩ := List.findIdx?_eq_some_iff_getElem.mp hfind
    refine ⟨List.cons_ne_nil c [], singleton_prefix_drop.mpr ?_, fun q hq hocc => ?_⟩
    · rw [List.getElem?_eq_getElem hlt, beq_iff_eq.mp hat]
    · have hqc := singleton_prefix_drop.mp hocc
      obtain ⟨hqlt, hqeq⟩ := List.getElem?_eq_some_iff.mp hqc
      exact hbefore q hq (beq_iff_eq.mpr hqeq)

theorem isLowest_of_length_lt (h : T.length < P.length) : IsLowest P T none := by
  refine Or.inr fun p hp => ?_
  have hin := length_le_of_stands_zero (stands_zero_iff.mpr hp) (by omega)
  omega

/-- **Boyer-Moore search is exact**: the table is built with moves by one place at least, and with it
`find_strsearch`, for any data, returns what `strsearch` returns, the lowest index at which the
string occurs. -/
theorem strsearch_exact (findstr : List UInt8) (h : findstr.length ≤ 255) :
    ∃ strsrch, init findstr = some strsrch ∧
      (1 < findstr.length → ∀ k < findstr.length, ∃ s, strsrch.shift.get k = some s ∧ 1 ≤ s) ∧
      ∀ data, ∃ r, find strsrch data = some r ∧ strsearch data findstr = some r ∧
        IsLowest findstr data r := by
  rcases Nat.lt_or_ge 1 findstr.length with hlong | hshort
  · have hpos : 0 < findstr.length := by omega
    have hreplicate : (List.replicate findstr.length none : Table).length = findstr.length :=
      List.length_replicate
    obtain ⟨shift, hbuild, htab⟩ := buildtable_spec hpos (by omega) hreplicate
    refine ⟨⟨shift, findstr⟩, by rw [init, if_pos hlong, hbuild]; rfl, fun _ k hk => ?_,
      fun data => ?_⟩
    · obtain ⟨e, hget, hlast⟩ := htab k hk
      have hlt : e < findstr.length := hlast.1.1
      exact ⟨_, hget, by omega⟩
    · rw [find, strsearch]
      by_cases hlen : findstr.length > data.length
      · rw [if_pos hlen, if_pos hlen]
        exact ⟨none, rfl, rfl, isLowest_of_length_lt hlen⟩
      · rw [if_neg hlen, if_neg hlen, if_neg (Nat.not_le_of_lt hlong),
          if_neg (Nat.not_le_of_lt hlong)]
        dsimp only
        rw [hbuild, Option.bind_some]
        have hin : 0 + findstr.length ≤ data.length := by omega
        obtain ⟨r, hsearch, hfirst⟩ := searchLoop_spec hpos htab (data.length + 1) 0 0 0
          (Nat.lt_succ_self data.length) hin hpos (fun j _ hj => absurd hj (Nat.not_lt_zero j))
          fun q hq => absurd hq (Nat.not_lt_zero q)
        exact ⟨r, hsearch, hsearch, isLowest_of_first hpos hfirst⟩
  · refine ⟨⟨List.replicate findstr.length none, findstr⟩,
      by rw [init, if_neg (Nat.not_lt_of_le hshort)], fun hlt => absurd hlt (Nat.not_lt_of_le hshort),
      fun data => ?_⟩
    rw [find, strsearch]
    by_cases hlen : findstr.length > data.length
    · rw [if_pos hlen, if_pos hlen]
      exact ⟨none, rfl, rfl, isLowest_of_length_lt hlen⟩
    · rw [if_neg hlen, if_neg hlen, if_pos hshort, if_pos hshort]
      match findstr, hshort with
      | [], _ => exact ⟨none, rfl, rfl, Or.inl rfl⟩
      | [c], _ => exact ⟨memchr data c, rfl, rfl, isLowest_memchr c data⟩

/-- The string of the comment in the source, and a shift that finds its second half. -/
theorem strsearch_exact_abcabc : ∃ strsrch, init [65, 66, 67, 65, 66, 67] = some strsrch ∧
    (1 < 6 → ∀ k < 6, ∃ s, strsrch.shift.get k = some s ∧ 1 ≤ s) ∧
    ∀ data, ∃ r, find strsrch data = some r ∧ strsearch data [65, 66, 67, 65, 66, 67] = some r ∧
      IsLowest [65, 66, 67, 65, 66, 67] data r :=
  strsearch_exact [65, 66, 67, 65, 66, 67] (by decide)

example : strsearch [65, 66, 67, 67, 66, 67, 65, 66, 67, 65, 66, 67] [65, 66, 67, 65, 66, 67] =
    some (some 6) := by decide +kernel

end Strsearch
end CKern
