import CKern.Io.Www.UriPath

/-!
# `io/www/uri.c`: `normalize_path` on its memory

* `NormalizePath`, `normalizePathStep`, `normalizePathInPlace`: the loop of `normalize_path` on its
  memory, with the positions for reading, writing and the fixed start.
* `normalizePathStep_eq`: one round. The bytes that are still to be read are not overwritten, since
  the writing position never passes the reading position.
* `normalizePathInPlace_eq`: the loop computes `normalizePath`.
-/

namespace CKern
namespace Uri

/-! ## The loop on its memory -/

/-- The variables of `normalize_path`: the bytes `path[0..size-1]` and the offsets of `rpos`, `wpos`
and `prefixpos`. -/
structure NormalizePath where
  path : List UInt8
  rpos : ℕ
  wpos : ℕ
  prefixpos : ℕ
  deriving DecidableEq, Repr

/-- `memchr` for the next slash, or the end of the path. -/
def nextSlash (path : List UInt8) (rpos : ℕ) : ℕ :=
  rpos + ((path.drop rpos).takeWhile (· ≠ charSlash)).length

/-- `memrchr` for the last slash among the first `n` bytes. -/
def lastSlash (path : List UInt8) (n : ℕ) : Option ℕ :=
  match (path.take n).reverse.dropWhile (· ≠ charSlash) with
  | [] => none
  | _ :: l => some l.length

/-- `memmove` of `n` bytes from `src` to `dest`. -/
def memmove (path : List UInt8) (dest src n : ℕ) : List UInt8 :=
  path.take dest ++ (path.drop src).take n ++ path.drop (dest + n)

/-- `APPEND_PATH`. -/
def appendPath (s : NormalizePath) (slash : ℕ) : NormalizePath :=
  let slash := if slash < s.path.length then slash + 1 else slash
  let appendLen := slash - s.rpos
  { s with
    path := if s.wpos ≠ s.rpos then memmove s.path s.wpos s.rpos appendLen else s.path
    wpos := s.wpos + appendLen
    rpos := slash }

/-- The body of the loop. -/
def normalizePathStep (s : NormalizePath) : NormalizePath :=
  let slash := nextSlash s.path s.rpos
  let more := if slash ≠ s.path.length then 1 else 0
  if slash = s.rpos then
    if s.rpos = 0 then { s with rpos := s.rpos + 1, wpos := 1, prefixpos := 1 }
    else { s with rpos := s.rpos + 1 }
  else if s.rpos + 1 = slash ∧ s.path.getD s.rpos 0 = charDot then
    { s with rpos := s.rpos + 1 + more }
  else if s.rpos + 2 = slash ∧ s.path.getD s.rpos 0 = charDot ∧
      s.path.getD (s.rpos + 1) 0 = charDot then
    if s.wpos ≠ s.prefixpos then
      { s with
        rpos := s.rpos + 2 + more
        wpos := ((lastSlash s.path (s.wpos - 1)).map (· + 1)).getD 0 }
    else if s.prefixpos = 1 then { s with rpos := s.rpos + 2 + more }
    else appendPath { s with prefixpos := s.prefixpos + 2 + more } slash
  else appendPath s slash

/-- The loop, of at most `fuel` rounds. -/
def normalizePathLoop : ℕ → NormalizePath → Option NormalizePath
  | 0, s => if s.rpos = s.path.length then some s else none
  | fuel + 1, s =>
    if s.rpos = s.path.length then some s else normalizePathLoop fuel (normalizePathStep s)

/-- `normalize_path`: the memory, `pathlen` and `prefixlen`. -/
def normalizePathInPlace (path : List UInt8) : Option (List UInt8 × ℕ × ℕ) :=
  (normalizePathLoop path.length ⟨path, 0, 0, 0⟩).map fun s => (s.path, s.wpos, s.prefixpos)

/-! ## The loop computes what `normalizePath` does -/

variable {front comp slash rest out : List UInt8} {wpos prefixpos : ℕ}

theorem nextSlash_append (front rest : List UInt8) (hc : charSlash ∉ comp)
    (hs : slash ++ rest = [] ∨ slash = [charSlash]) :
    nextSlash (front ++ (comp ++ slash ++ rest)) front.length = front.length + comp.length := by
  have hall : ∀ c ∈ comp, decide (c ≠ charSlash) = true := fun c hc' =>
    decide_eq_true fun heq => hc (heq ▸ hc')
  rw [nextSlash, List.drop_left, List.append_assoc, List.takeWhile_append_of_pos hall]
  rcases hs with hs | rfl
  · rw [hs]
    simp
  · simp

theorem lastSlash_eq (path : List UInt8) (n : ℕ) :
    ((lastSlash path n).map (· + 1)).getD 0 =
      ((path.take n).reverse.dropWhile (· ≠ charSlash)).length := by
  rw [lastSlash]
  cases (path.take n).reverse.dropWhile (· ≠ charSlash) <;> rfl

theorem skipPrevPath_isPrefix (out : List UInt8) : skipPrevPath out <+: out := by
  have hsuffix := List.dropWhile_suffix (l := out.dropLast.reverse) (· ≠ charSlash)
  rw [skipPrevPath, ← List.reverse_suffix, List.reverse_reverse]
  exact hsuffix.trans (List.reverse_suffix.mpr (List.dropLast_prefix out))

theorem memmove_eq (front word rest : List UInt8) (hw : wpos ≤ front.length) :
    memmove (front ++ (word ++ rest)) wpos front.length word.length =
      front.take wpos ++ word ++ (front ++ word).drop (wpos + word.length) ++ rest := by
  have hlen : wpos + word.length ≤ (front ++ word).length := by
    rw [List.length_append]
    omega
  rw [memmove, List.take_append_of_le_length hw, List.drop_left, List.take_left,
    ← List.append_assoc front word rest, List.drop_append_of_le_length hlen]
  simp only [List.append_assoc]

theorem appendPath_eq (hs : slash = [] ∧ rest = [] ∧ comp ≠ [] ∨ slash = [charSlash])
    (hw : wpos ≤ front.length) :
    ∃ front', front'.length = (front ++ (comp ++ slash)).length ∧
      appendPath ⟨front ++ (comp ++ slash ++ rest), front.length, wpos, prefixpos⟩
          (front.length + comp.length) =
        ⟨front' ++ rest, front'.length, (front.take wpos ++ comp ++ slash).length, prefixpos⟩ ∧
      front.take wpos ++ comp ++ slash <+: front' := by
  have hend : (if front.length + comp.length < (front ++ (comp ++ slash ++ rest)).length
      then front.length + comp.length + 1 else front.length + comp.length) =
        front.length + (comp ++ slash).length := by
    rcases hs with ⟨rfl, rfl, -⟩ | rfl
    · rw [if_neg (by simp), List.append_nil]
    · rw [if_pos (by simp), List.length_append, List.length_singleton, Nat.add_assoc]
  have hmove : (if wpos ≠ front.length then
        memmove (front ++ (comp ++ slash ++ rest)) wpos front.length (comp ++ slash).length
      else front ++ (comp ++ slash ++ rest)) = front.take wpos ++ (comp ++ slash) ++
        (front ++ (comp ++ slash)).drop (wpos + (comp ++ slash).length) ++ rest := by
    split_ifs with heq
    · exact memmove_eq front (comp ++ slash) rest hw
    · obtain rfl : wpos = front.length := not_not.mp heq
      rw [List.take_length, ← List.length_append, List.drop_length, List.append_nil,
        List.append_assoc front]
  refine ⟨front.take wpos ++ (comp ++ slash) ++
    (front ++ (comp ++ slash)).drop (wpos + (comp ++ slash).length), ?_, ?_, ?_⟩
  · simp only [List.length_append, List.length_take, List.length_drop]
    omega
  · rw [appendPath]
    dsimp only
    rw [hend, Nat.add_sub_cancel_left, hmove]
    congr 1 <;> simp only [List.length_append, List.length_take, List.length_drop] <;> omega
  · rw [List.append_assoc (front.take wpos)]
    exact List.prefix_append _ _

theorem isDots_iff (front slash rest comp : List UInt8) :
    (front.length + 1 = front.length + comp.length ∧
        (front ++ (comp ++ slash ++ rest)).getD front.length 0 = charDot ↔ comp = [charDot]) ∧
      (front.length + 2 = front.length + comp.length ∧
        (front ++ (comp ++ slash ++ rest)).getD front.length 0 = charDot ∧
        (front ++ (comp ++ slash ++ rest)).getD (front.length + 1) 0 = charDot ↔
          comp = [charDot, charDot]) := by
  have hget : ∀ i < comp.length,
      (front ++ (comp ++ slash ++ rest)).getD (front.length + i) 0 = comp.getD i 0 := by
    intro i hi
    rw [List.getD_append_right _ _ _ _ (Nat.le_add_right _ _), Nat.add_sub_cancel_left,
      List.append_assoc, List.getD_append _ _ _ _ hi]
  constructor
  · constructor
    · rintro ⟨hlen, hdot⟩
      obtain ⟨c, rfl⟩ := List.length_eq_one_iff.mp (by omega : comp.length = 1)
      rw [← hdot]
      exact congrArg (· :: []) (hget 0 (by simp)).symm
    · rintro rfl
      exact ⟨rfl, hget 0 (by simp)⟩
  · constructor
    · rintro ⟨hlen, hdot, hdot'⟩
      obtain ⟨c, d, rfl⟩ := List.length_eq_two.mp (by omega : comp.length = 2)
      have h0 : c = charDot := (hget 0 (by simp)).symm.trans hdot
      have h1 : d = charDot := (hget 1 (by simp)).symm.trans hdot'
      rw [h0, h1]
    · rintro rfl
      exact ⟨rfl, hget 0 (by simp), hget 1 (by simp)⟩

/-- **One round**: the part of the memory that has been read starts with the output, and the part
that is still to be read is left alone. -/
theorem normalizePathStep_eq (rest : List UInt8) (prefixpos : ℕ) (hc : charSlash ∉ comp)
    (hs : slash = [] ∧ rest = [] ∧ comp ≠ [] ∨ slash = [charSlash]) (hw : wpos ≤ front.length) :
    ∃ front', front'.length = (front ++ (comp ++ slash)).length ∧
      normalizePathStep ⟨front ++ (comp ++ slash ++ rest), front.length, wpos, prefixpos⟩ =
        ⟨front' ++ rest, front'.length,
          (normalizeStep (decide (front = [])) (front.take wpos) prefixpos comp slash).1.length,
          (normalizeStep (decide (front = [])) (front.take wpos) prefixpos comp slash).2⟩ ∧
      (normalizeStep (decide (front = [])) (front.take wpos) prefixpos comp slash).1 <+:
        front' := by
  have hslash := nextSlash_append front rest hc
    (hs.imp_left fun h => by rw [h.1, h.2.1]; rfl)
  have hlen : (front.take wpos).length = wpos := List.length_take_of_le hw
  have hmore : (if front.length + comp.length ≠ (front ++ (comp ++ slash ++ rest)).length
      then 1 else 0) = slash.length := by
    rcases hs with ⟨rfl, rfl, -⟩ | rfl
    · rw [if_neg (by simp)]
      rfl
    · rw [if_pos (by simp)]
      rfl
  have hpath : front ++ (comp ++ slash ++ rest) = front ++ (comp ++ slash) ++ rest := by simp
  have hpos : (front ++ (comp ++ slash)).length = front.length + comp.length + slash.length := by
    simp [Nat.add_assoc]
  have hout : front.take wpos <+: front ++ (comp ++ slash) :=
    (List.take_prefix wpos front).trans (List.prefix_append _ _)
  obtain ⟨hdot, hdots⟩ := isDots_iff front slash rest comp
  rw [normalizePathStep, normalizeStep]
  dsimp only
  rw [hslash, hmore]
  by_cases hnil : comp = []
  · obtain rfl : slash = [charSlash] := hs.resolve_left fun h => h.2.2 hnil
    subst hnil
    rw [if_pos (show front.length + ([] : List UInt8).length = front.length from rfl), if_pos rfl]
    by_cases hfront : front = []
    · subst hfront
      exact ⟨[charSlash], rfl, rfl, List.prefix_rfl⟩
    · rw [if_neg (by simpa using hfront), if_neg (by simpa using hfront)]
      exact ⟨_, rfl, by rw [hpath, hlen, hpos]; rfl, hout⟩
  rw [if_neg (by simpa using hnil), if_neg hnil]
  by_cases hd : comp = [charDot]
  · rw [if_pos (hdot.mpr hd), if_pos hd]
    exact ⟨_, rfl, by rw [hpath, hlen, hpos, hd]; rfl, hout⟩
  rw [if_neg fun h => hd (hdot.mp h), if_neg hd]
  by_cases hdd : comp = [charDot, charDot]
  · rw [if_pos (hdots.mpr hdd), if_pos hdd, hlen]
    by_cases hw' : wpos = prefixpos
    · rw [if_neg (not_not.mpr hw'), if_neg (not_not.mpr hw')]
      by_cases hone : prefixpos = 1
      · rw [if_pos hone, if_pos hone]
        exact ⟨_, rfl, by rw [hpath, hlen, hpos, hdd]; rfl, hout⟩
      · rw [if_neg hone, if_neg hone]
        exact appendPath_eq hs hw
    · rw [if_pos hw', if_pos hw', lastSlash_eq]
      refine ⟨front ++ (comp ++ slash), rfl, ?_, (skipPrevPath_isPrefix _).trans hout⟩
      have htake : (front ++ (comp ++ slash ++ rest)).take (wpos - 1) =
          (front.take wpos).dropLast := by
        rw [List.dropLast_eq_take, hlen, List.take_take, Nat.min_eq_left (Nat.sub_le wpos 1),
          List.take_append_of_le_length (by omega)]
      rw [htake, skipPrevPath, List.length_reverse, hpath, hpos, hdd]
      rfl
  · rw [if_neg fun h => hdd (hdots.mp h), if_neg hdd]
    exact appendPath_eq hs hw

theorem normalizePathLoop_end {fuel : ℕ} {s : NormalizePath} (h : s.rpos = s.path.length) :
    normalizePathLoop fuel s = some s := by
  cases fuel <;> exact if_pos h

/-- **The loop** on the part that is still to be read. -/
theorem normalizePathLoop_eq (rest : List UInt8) :
    ∀ (front : List UInt8) (wpos prefixpos fuel : ℕ), wpos ≤ front.length → rest.length ≤ fuel →
      ∃ mem, mem.length = (front ++ rest).length ∧
        normalizePathLoop fuel ⟨front ++ rest, front.length, wpos, prefixpos⟩ =
          some ⟨mem, mem.length,
            (normalizeFrom (decide (front = [])) (front.take wpos) prefixpos rest).1.length,
            (normalizeFrom (decide (front = [])) (front.take wpos) prefixpos rest).2⟩ ∧
        (normalizeFrom (decide (front = [])) (front.take wpos) prefixpos rest).1 <+: mem := by
  induction rest using pathInduction with
  | nil =>
    intro front wpos prefixpos fuel hw _
    refine ⟨front, by rw [List.append_nil], ?_, List.take_prefix wpos front⟩
    rw [normalizePathLoop_end (by rw [List.append_nil]), normalizeFrom_nil, List.append_nil,
      List.length_take_of_le hw]
  | slash comp rest hc ih =>
    intro front wpos prefixpos fuel hw hfuel
    obtain ⟨front', hlen, hstep, hprefix⟩ := normalizePathStep_eq rest prefixpos hc
      (Or.inr rfl) hw
    have hpath : comp ++ charSlash :: rest = comp ++ [charSlash] ++ rest := by simp
    rw [hpath, List.length_append, List.length_append, List.length_singleton] at hfuel
    obtain ⟨k, rfl⟩ : ∃ k, fuel = k + 1 := ⟨fuel - 1, by omega⟩
    have hne : front' ≠ [] := by
      refine List.ne_nil_of_length_pos ?_
      rw [hlen, ← List.append_assoc, List.length_append, List.length_singleton]
      exact Nat.succ_pos _
    obtain ⟨mem, hmem, hloop, hout⟩ := ih front' _ _ k hprefix.length_le (by omega)
    rw [decide_eq_false hne, ← List.prefix_iff_eq_take.mp hprefix] at hloop hout
    rw [normalizeFrom_slash _ _ _ hc]
    refine ⟨mem, ?_, ?_, hout⟩
    · rw [hmem, hpath, List.length_append, hlen, ← List.length_append, List.append_assoc]
    · have hmore : front.length ≠ (front ++ (comp ++ [charSlash] ++ rest)).length := by
        simp only [List.length_append, List.length_singleton]
        omega
      rw [hpath, normalizePathLoop, if_neg hmore, hstep, hloop]
  | last comp hne hc =>
    intro front wpos prefixpos fuel hw hfuel
    obtain ⟨front', hlen, hstep, hprefix⟩ := normalizePathStep_eq [] prefixpos hc
      (Or.inl ⟨rfl, rfl, hne⟩) hw
    have hpos := List.length_pos_of_ne_nil hne
    obtain ⟨k, rfl⟩ : ∃ k, fuel = k + 1 := ⟨fuel - 1, by omega⟩
    rw [List.append_nil, List.append_nil, List.append_nil] at hstep
    rw [List.append_nil] at hlen
    rw [normalizeFrom_last hc hne]
    refine ⟨front', hlen, ?_, hprefix⟩
    rw [normalizePathLoop, if_neg (by simpa using hne), hstep]
    exact normalizePathLoop_end rfl

/-- **In place** the path is normalized, and it is not longer than it was. -/
theorem normalizePathInPlace_eq (path : List UInt8) :
    ∃ mem, normalizePathInPlace path =
        some (mem, (normalizePath path).1.length, (normalizePath path).2) ∧
      mem.length = path.length ∧ (normalizePath path).1 <+: mem := by
  obtain ⟨mem, hlen, hloop, hout⟩ := normalizePathLoop_eq path [] 0 0 path.length (Nat.zero_le _)
    le_rfl
  refine ⟨mem, ?_, hlen, hout⟩
  rw [normalizePathInPlace]
  exact congrArg (Option.map _) hloop

end Uri
end CKern
