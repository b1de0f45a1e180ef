import CKern.Io.Www.UriInPlace

/-!
# `io/www/uri.c`: the normalized path as a stack of segments

* `reduceSegment`, `normalSegments`: the segments between the slashes of a path are put on a stack
  one after another, and the stack is written with slashes between its segments.
* `Stands`: the output path and the fixed start of it, and the stack that they stand for.
* `Normalized.exists_ups`: the fixed start of a relative path is its leading row of `../`.
* `normalizePathInPlace_segments`: `normalize_path` returns the path of the stack.
-/

namespace CKern
namespace Uri

/-! ## The stack -/

/-- A path is absolute if it starts with a slash. -/
def isAbsolute (path : List UInt8) : Bool := path.head? = some charSlash

/-- A segment is put on the stack, the top of which is its end. Empty segments and `.` are dropped,
and `..` removes the segment on top unless that is a `..` itself. -/
def reduceSegment (absolute : Bool) (stack : List (List UInt8)) (seg : List UInt8) :
    List (List UInt8) :=
  if seg = [] ∨ seg = [charDot] then stack
  else if seg = [charDot, charDot] then
    match stack.getLast? with
    | none => if absolute then stack else stack ++ [seg]
    | some top => if top = [charDot, charDot] then stack ++ [seg] else stack.dropLast
  else stack ++ [seg]

/-- The segments with a slash behind each of them, and one before them in an absolute path. -/
def joinSegments (absolute : Bool) (stack : List (List UInt8)) : List UInt8 :=
  (if absolute then [charSlash] else []) ++ stack.flatMap (· ++ [charSlash])

/-- The path of the segments `segs` on top of a stack. The slash at the end is missing if the last
segment is one that is put on the stack. -/
def resolveSegments (absolute : Bool) (stack segs : List (List UInt8)) : List UInt8 :=
  let stack := segs.dropLast.foldl (reduceSegment absolute) stack
  let last := segs.getLastD []
  if reduceSegment absolute stack last = stack ++ [last] then joinSegments absolute stack ++ last
  else joinSegments absolute (reduceSegment absolute stack last)

/-- **The normalized path**: the segments between the slashes, resolved. -/
def normalSegments (path : List UInt8) : List UInt8 :=
  resolveSegments (isAbsolute path) [] (path.splitOn charSlash)

variable {absolute : Bool} {stack segs : List (List UInt8)} {path out comp rest : List UInt8}
  {prefixpos : ℕ}

theorem splitOn_slash (hc : charSlash ∉ comp) (rest : List UInt8) :
    (comp ++ charSlash :: rest).splitOn charSlash = comp :: rest.splitOn charSlash :=
  List.splitOnP_append_cons_of_forall_mem
    (fun _ hx => beq_eq_false_iff_ne.mpr (ne_of_mem_of_not_mem hx hc)) _ (beq_self_eq_true _) _

theorem splitOn_last (hc : charSlash ∉ comp) : comp.splitOn charSlash = [comp] :=
  List.splitOn_eq_singleton_of_beq_eq_false fun _ hx =>
    beq_eq_false_iff_ne.mpr (ne_of_mem_of_not_mem hx hc)

theorem resolveSegments_cons (seg : List UInt8) (hne : segs ≠ []) :
    resolveSegments absolute stack (seg :: segs) =
      resolveSegments absolute (reduceSegment absolute stack seg) segs := by
  obtain ⟨s, segs, rfl⟩ := List.exists_cons_of_ne_nil hne
  rfl

theorem joinSegments_concat (absolute : Bool) (stack : List (List UInt8)) (seg : List UInt8) :
    joinSegments absolute (stack ++ [seg]) = joinSegments absolute stack ++ seg ++ [charSlash] := by
  simp [joinSegments]

/-! ## The output stands for the stack -/

/-- The output path between two components, the length of its fixed start, and the stack. -/
inductive Stands : Bool → List (List UInt8) → List UInt8 → ℕ → Prop
  | relative : Stands false [] [] 0
  | root : Stands true [] [charSlash] 1
  | up {stack : List (List UInt8)} {out : List UInt8} : Stands false stack out out.length →
      Stands false (stack ++ [[charDot, charDot]]) (out ++ [charDot, charDot] ++ [charSlash])
        (out.length + 3)
  | dir {absolute : Bool} {stack : List (List UInt8)} {out comp : List UInt8} {prefixpos : ℕ} :
      Stands absolute stack out prefixpos → IsName comp →
      Stands absolute (stack ++ [comp]) (out ++ comp ++ [charSlash]) prefixpos

theorem Stands.join_eq (h : Stands absolute stack out prefixpos) :
    joinSegments absolute stack = out := by
  induction h with
  | relative => rfl
  | root => rfl
  | up _ ih => rw [joinSegments_concat, ih]
  | dir _ _ ih => rw [joinSegments_concat, ih]

theorem Stands.prefixpos_eq_one_iff (h : Stands absolute stack out prefixpos) :
    prefixpos = 1 ↔ absolute = true := by
  induction h with
  | relative => simp
  | root => simp
  | up _ _ => simp
  | dir _ _ ih => exact ih

theorem Stands.normal (h : Stands absolute stack out prefixpos) : Normal out prefixpos := by
  induction h with
  | relative => exact .nil
  | root => exact .root
  | up h ih =>
    rw [List.append_assoc]
    refine .up ih fun hone => ?_
    exact absurd (h.prefixpos_eq_one_iff.mp hone) Bool.false_ne_true
  | dir _ hc ih => exact .dir ih hc

theorem Stands.exists_dir (h : Stands absolute stack out prefixpos) (hne : out.length ≠ prefixpos) :
    ∃ s o comp, stack = s ++ [comp] ∧ out = o ++ comp ++ [charSlash] ∧
      Stands absolute s o prefixpos ∧ IsName comp := by
  cases h with
  | relative => exact absurd rfl hne
  | root => exact absurd rfl hne
  | up _ => exact absurd (by simp) hne
  | dir h hc => exact ⟨_, _, _, rfl, rfl, h, hc⟩

theorem Stands.getLast?_eq (h : Stands absolute stack out out.length) :
    stack = [] ∨ absolute = false ∧ stack.getLast? = some [charDot, charDot] := by
  generalize hlen : out.length = prefixpos at h
  cases h with
  | relative => exact Or.inl rfl
  | root => exact Or.inl rfl
  | up _ => exact Or.inr ⟨rfl, List.getLast?_concat⟩
  | dir h _ =>
    have hle := h.normal.prefixpos_le
    simp only [List.length_append, List.length_singleton] at hlen
    omega

/-- **One component**: it is put on the stack and appended to the output, or the output stands for
the stack without it. -/
theorem Stands.step (h : Stands absolute stack out prefixpos) (hc : charSlash ∉ comp)
    (slash : List UInt8) :
    (reduceSegment absolute stack comp ≠ stack ++ [comp] ∧
        Stands absolute (reduceSegment absolute stack comp)
          (normalizeStep false out prefixpos comp slash).1
          (normalizeStep false out prefixpos comp slash).2) ∨
      (reduceSegment absolute stack comp = stack ++ [comp] ∧
        (normalizeStep false out prefixpos comp slash).1 = out ++ comp ++ slash ∧
        ((normalizeStep false out prefixpos comp slash).2 = 1 ↔ absolute = true) ∧
        Stands absolute (stack ++ [comp]) (normalizeStep false out prefixpos comp [charSlash]).1
          (normalizeStep false out prefixpos comp [charSlash]).2) := by
  have hgrow : ∀ s : List (List UInt8), s.length ≤ stack.length → s ≠ stack ++ [comp] := by
    intro s hs heq
    rw [heq, List.length_append, List.length_singleton] at hs
    omega
  by_cases hskip : comp = [] ∨ comp = [charDot]
  · -- nothing changes
    have hreduce : reduceSegment absolute stack comp = stack := by rw [reduceSegment, if_pos hskip]
    have hstep : normalizeStep false out prefixpos comp slash = (out, prefixpos) := by
      rcases hskip with rfl | rfl <;> rfl
    rw [hreduce, hstep]
    exact Or.inl ⟨hgrow stack le_rfl, h⟩
  obtain ⟨hnil, hdot⟩ := not_or.mp hskip
  by_cases hdd : comp = [charDot, charDot]
  · subst hdd
    have hstep : ∀ slash, normalizeStep false out prefixpos [charDot, charDot] slash =
        if out.length ≠ prefixpos then (skipPrevPath out, prefixpos)
        else if prefixpos = 1 then (out, prefixpos)
        else (out ++ [charDot, charDot] ++ slash, prefixpos + 2 + slash.length) := fun _ => rfl
    have hreduce : reduceSegment absolute stack [charDot, charDot] = match stack.getLast? with
        | none => if absolute then stack else stack ++ [[charDot, charDot]]
        | some top => if top = [charDot, charDot] then stack ++ [[charDot, charDot]]
          else stack.dropLast := rfl
    by_cases hlen : out.length = prefixpos
    · subst hlen
      rw [hstep, hstep, if_neg (not_not.mpr rfl), if_neg (not_not.mpr rfl)]
      by_cases habs : absolute = true
      · -- dropped behind the root
        subst habs
        obtain rfl : stack = [] := h.getLast?_eq.resolve_right fun hf => absurd hf.1 (by decide)
        rw [if_pos (h.prefixpos_eq_one_iff.mpr rfl)]
        exact Or.inl ⟨hgrow [] le_rfl, h⟩
      · -- kept at the start of a relative path
        obtain rfl : absolute = false := Bool.eq_false_iff.mpr habs
        have hone : out.length ≠ 1 := fun hone => habs (h.prefixpos_eq_one_iff.mp hone)
        have hkept : reduceSegment false stack [charDot, charDot] =
            stack ++ [[charDot, charDot]] := by
          rw [hreduce]
          rcases h.getLast?_eq with hnil | ⟨-, hlast⟩
          · rw [hnil]
            rfl
          · rw [hlast]
            exact if_pos rfl
        rw [if_neg hone, if_neg hone]
        refine Or.inr ⟨hkept, rfl, iff_of_false (fun he => ?_) Bool.false_ne_true, h.up⟩
        have he' : out.length + 2 + slash.length = 1 := he
        omega
    · -- the segment on top is removed
      obtain ⟨s, o, c, rfl, rfl, ho, hname⟩ := h.exists_dir hlen
      have hdropped : reduceSegment absolute (s ++ [c]) [charDot, charDot] = s := by
        rw [hreduce, List.getLast?_concat]
        exact (if_neg hname.2.2.2).trans List.dropLast_concat
      rw [hdropped, hstep, if_pos hlen, ho.normal.skipPrevPath_dir hname.2.1]
      exact Or.inl ⟨hgrow s (by simp), ho⟩
  · -- a name
    have hreduce : reduceSegment absolute stack comp = stack ++ [comp] := by
      rw [reduceSegment, if_neg hskip, if_neg hdd]
    have hstep : ∀ slash, normalizeStep false out prefixpos comp slash =
        (out ++ comp ++ slash, prefixpos) := by
      intro slash
      rw [normalizeStep, if_neg hnil, if_neg hdot, if_neg hdd]
    rw [hstep, hstep]
    exact Or.inr ⟨hreduce, rfl, h.prefixpos_eq_one_iff, h.dir ⟨hnil, hc, hdot, hdd⟩⟩

theorem Stands.normalizeFrom (path : List UInt8) :
    ∀ {absolute : Bool} {stack : List (List UInt8)} {out : List UInt8} {prefixpos : ℕ},
      Stands absolute stack out prefixpos →
      (normalizeFrom false out prefixpos path).1 =
          resolveSegments absolute stack (path.splitOn charSlash) ∧
        ((normalizeFrom false out prefixpos path).2 = 1 ↔ absolute = true) := by
  induction path using pathInduction with
  | nil =>
    intro absolute stack out prefixpos h
    have hreduce : reduceSegment absolute stack [] = stack := if_pos (Or.inl rfl)
    have hne : reduceSegment absolute stack [] ≠ stack ++ [[]] := by
      intro heq
      have hlen := congrArg List.length (hreduce.symm.trans heq)
      rw [List.length_append, List.length_singleton] at hlen
      omega
    have hresolve : resolveSegments absolute stack [[]] = joinSegments absolute stack :=
      (if_neg hne).trans (congrArg _ hreduce)
    rw [normalizeFrom_nil, List.splitOn_nil, hresolve, h.join_eq]
    exact ⟨rfl, h.prefixpos_eq_one_iff⟩
  | slash comp rest hc ih =>
    intro absolute stack out prefixpos h
    rw [normalizeFrom_slash _ _ _ hc, splitOn_slash hc,
      resolveSegments_cons comp (List.splitOn_ne_nil _ _)]
    rcases h.step hc [charSlash] with ⟨-, hstands⟩ | ⟨hreduce, -, -, hstands⟩
    · exact ih hstands
    · rw [hreduce]
      exact ih hstands
  | last comp hne hc =>
    intro absolute stack out prefixpos h
    rw [normalizeFrom_last hc hne, splitOn_last hc]
    rcases h.step hc [] with ⟨hreduce, hstands⟩ | ⟨hreduce, hout, hone, -⟩
    · refine ⟨?_, hstands.prefixpos_eq_one_iff⟩
      exact hstands.join_eq.symm.trans (if_neg hreduce).symm
    · refine ⟨?_, hone⟩
      rw [hout, List.append_nil, ← h.join_eq]
      exact (if_pos hreduce).symm

theorem normalizeFrom_start (h : isAbsolute path ≠ true) :
    normalizeFrom true [] 0 path = normalizeFrom false [] 0 path := by
  have hstep : ∀ comp slash, comp ≠ [] →
      normalizeStep true [] 0 comp slash = normalizeStep false [] 0 comp slash := by
    intro comp slash hne
    rw [normalizeStep, normalizeStep, if_neg hne, if_neg hne]
  induction path using pathInduction with
  | nil => rfl
  | slash comp rest hc _ =>
    have hne : comp ≠ [] := by
      rintro rfl
      exact h (by simp [isAbsolute])
    rw [normalizeFrom_slash _ _ _ hc, normalizeFrom_slash _ _ _ hc, hstep comp _ hne]
  | last comp hne hc => rw [normalizeFrom_last hc hne, normalizeFrom_last hc hne, hstep comp _ hne]

/-- **The normalized path is that of the stack.** -/
theorem normalizePath_segments (path : List UInt8) :
    (normalizePath path).1 = normalSegments path ∧
      ((normalizePath path).2 = 1 ↔ isAbsolute path = true) := by
  rw [normalSegments]
  by_cases habs : isAbsolute path = true
  · obtain ⟨rest, rfl⟩ : ∃ rest, path = charSlash :: rest := by
      rcases path with _ | ⟨c, rest⟩
      · exact absurd habs (by decide)
      · have hc : c = charSlash := by simpa [isAbsolute] using habs
        exact ⟨rest, by rw [hc]⟩
    have hroot : normalizePath (charSlash :: rest) =
        CKern.Uri.normalizeFrom false [charSlash] 1 rest :=
      normalizeFrom_slash true [] 0 List.not_mem_nil rest
    have hsplit := splitOn_slash (List.not_mem_nil : charSlash ∉ []) rest
    rw [List.nil_append] at hsplit
    rw [hroot, habs, hsplit, resolveSegments_cons [] (List.splitOn_ne_nil _ _)]
    exact Stands.root.normalizeFrom rest
  · rw [normalizePath_eq, normalizeFrom_start habs, Bool.eq_false_iff.mpr habs]
    exact Stands.relative.normalizeFrom path

/-! ## The fixed start -/

/-- `n` times `../`. -/
def ups (n : ℕ) : List UInt8 := (List.replicate n [charDot, charDot, charSlash]).flatten

theorem length_ups (n : ℕ) : (ups n).length = 3 * n := by
  simp [ups, List.length_flatten, Nat.mul_comm]

theorem ups_succ (n : ℕ) : ups (n + 1) = ups n ++ [charDot, charDot, charSlash] := by
  rw [ups, List.replicate_succ', List.flatten_append]
  rfl

theorem eq_nil_of_ups {n : ℕ} (h : out = ups n ++ rest) (hn : out.length = 3 * n) : rest = [] := by
  have hlength := congrArg List.length h
  rw [List.length_append, length_ups, hn] at hlength
  exact List.eq_nil_of_length_eq_zero (by omega)

/-- Nothing, or a name with a slash behind it at the start. -/
def StartsWithName (rest : List UInt8) : Prop :=
  rest = [] ∨ ∃ name tail, IsName name ∧ rest = name ++ charSlash :: tail

theorem Normal.exists_ups (h : Normal out prefixpos) (hone : prefixpos ≠ 1) :
    ∃ n rest, out = ups n ++ rest ∧ prefixpos = 3 * n ∧ StartsWithName rest := by
  induction h with
  | nil => exact ⟨0, [], rfl, rfl, Or.inl rfl⟩
  | root => exact absurd rfl hone
  | @up out _ hlen ih =>
    obtain ⟨n, rest, hout, hn, -⟩ := ih hlen
    obtain rfl := eq_nil_of_ups hout hn
    rw [List.append_nil] at hout
    exact ⟨n + 1, [], by rw [ups_succ, List.append_nil, hout], by rw [hn]; rfl, Or.inl rfl⟩
  | @dir out comp _ _ hc ih =>
    obtain ⟨n, rest, rfl, hn, hrest⟩ := ih hone
    refine ⟨n, rest ++ comp ++ [charSlash], by simp, hn, Or.inr ?_⟩
    rcases hrest with rfl | ⟨name, tail, hname, rfl⟩
    · exact ⟨comp, [], hc, rfl⟩
    · exact ⟨name, tail ++ comp ++ [charSlash], hname, by simp⟩

theorem StartsWithName.append {comp : List UInt8} (h : StartsWithName rest)
    (hc : comp = [] ∨ IsName comp) :
    ¬ [charDot, charDot, charSlash] <+: rest ++ comp ∧ rest ++ comp ≠ [charDot, charDot] := by
  rcases h with rfl | ⟨name, tail, hname, rfl⟩
  · rcases hc with rfl | hc
    · decide
    · refine ⟨fun hprefix => hc.2.1 ?_, hc.2.2.2⟩
      exact hprefix.subset (by simp)
  · rw [List.append_assoc, List.cons_append]
    constructor
    · rintro ⟨u, hu⟩
      have hsplit := congrArg (List.splitOn charSlash)
        (show [charDot, charDot] ++ charSlash :: u = name ++ charSlash :: (tail ++ comp) from hu)
      rw [splitOn_slash slash_not_mem_dots, splitOn_slash hname.2.1] at hsplit
      exact hname.2.2.2 (List.cons.inj hsplit).1.symm
    · intro heq
      exact slash_not_mem_dots (heq ▸ List.mem_append_right name List.mem_cons_self)

/-- **The fixed start** is the slash of an absolute path, or the row of `../` at the start of a
relative one. The path may end with its last two dots. -/
theorem Normalized.exists_ups (h : Normalized out prefixpos) (hone : prefixpos ≠ 1) :
    ∃ n rest, out = ups n ++ rest ∧ ¬ [charDot, charDot, charSlash] <+: rest ∧
      prefixpos = if rest = [charDot, charDot] then 3 * (n + 1) - 1 else 3 * n := by
  cases h with
  | dir h =>
    obtain ⟨n, rest, hout, hn, hrest⟩ := h.exists_ups hone
    obtain ⟨hno, hne⟩ := hrest.append (Or.inl rfl)
    rw [List.append_nil] at hno hne
    exact ⟨n, rest, hout, hno, by rw [if_neg hne, hn]⟩
  | @up out h hlen =>
    obtain ⟨n, rest, hout, hn, -⟩ := h.exists_ups hlen
    obtain rfl := eq_nil_of_ups hout hn
    refine ⟨n, [charDot, charDot], by rw [hout, List.append_nil], by decide, ?_⟩
    rw [if_pos rfl, hn]
    omega
  | file h hc =>
    obtain ⟨n, rest, rfl, hn, hrest⟩ := h.exists_ups hone
    obtain ⟨hno, hne⟩ := hrest.append (Or.inr hc)
    exact ⟨n, _, List.append_assoc _ _ _, hno, by rw [if_neg hne, hn]⟩

/-- **`normalize_path`** returns the path of the stack of segments, which is not longer than the
path it is given and which it returns again. The length of the fixed start is 1 for an absolute
path, and else that of the row of `../` at the start, the last slash of which is missing if the path
ends in `..`. -/
theorem normalizePathInPlace_segments (path : List UInt8) :
    ∃ mem prefixlen,
      normalizePathInPlace path = some (mem, (normalSegments path).length, prefixlen) ∧
      mem.take (normalSegments path).length = normalSegments path ∧
      (normalSegments path).length ≤ path.length ∧
      normalizePathInPlace (normalSegments path) =
        some (normalSegments path, (normalSegments path).length, prefixlen) ∧
      (prefixlen = 1 ↔ path.head? = some charSlash) ∧
      (path.head? ≠ some charSlash → ∃ n rest, normalSegments path = ups n ++ rest ∧
        ¬ [charDot, charDot, charSlash] <+: rest ∧
        prefixlen = if rest = [charDot, charDot] then 3 * (n + 1) - 1 else 3 * n) := by
  obtain ⟨hsegments, hone⟩ := normalizePath_segments path
  obtain ⟨mem, hrun, hlen, hout⟩ := normalizePathInPlace_eq path
  obtain ⟨mem', hrun', hlen', hout'⟩ := normalizePathInPlace_eq (normalSegments path)
  have hnormal := normalizePath_normalized path
  rw [← hsegments] at hrun' hlen' hout'
  rw [normalizePath_idem] at hrun' hout'
  rw [← hsegments]
  have habs : (normalizePath path).2 = 1 ↔ path.head? = some charSlash := by
    rw [hone, isAbsolute, decide_eq_true_iff]
  refine ⟨mem, _, hrun, (List.prefix_iff_eq_take.mp hout).symm, ?_, ?_, habs, fun hrel => ?_⟩
  · rw [← hlen]
    exact hout.length_le
  · rw [hrun', ← hout'.eq_of_length hlen'.symm]
  · exact hnormal.exists_ups fun h => hrel (habs.mp h)

end Uri
end CKern
