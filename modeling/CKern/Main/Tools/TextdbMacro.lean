import CKern.Main.Tools.Textdb

/-!
# `main/tools/textdb.c`: the macros of a source text

* `find_macro`, `process_macro`: the text is copied, and what stands between a macro and its end is
  replaced by the rows of a table.
* `Expands`: the same on the lines of a text.
* `outside`: the lines of a text that do not stand between a macro and its end.
* `process_macro_ok_iff`: the two scans for line ends find the lines.
* `Expands.again`, `Expands.outside_eq_iff`: a text is expanded once more, and the lines outside.
* `process_macro_iff`: when the expansion is stable.
-/

namespace CKern
namespace Textdb

/-! ## The code -/

/-- `strncmp(s, t, n) == 0` -/
def strncmpEqual : ℕ → List UInt8 → List UInt8 → Bool
  | 0, _, _ => true
  | n + 1, s, t =>
    s.headD 0 == t.headD 0 && (s.headD 0 == 0 || strncmpEqual n s.tail t.tail)

/-- The text `// TEXTDB:`. -/
def textdbStart : List UInt8 := [47, 47, 32, 84, 69, 88, 84, 68, 66, 58]

/-- The text `// TEXTDB:END`. -/
def textdbEnd : List UInt8 := textdbStart ++ [69, 78, 68]

/-- The text `// TEXTDB:SELECT`. -/
def textdbSelect : List UInt8 := textdbStart ++ [83, 69, 76, 69, 67, 84]

/-- The inner loop of `find_macro`: the number of bytes up to the end of the line. -/
def lineLength : List UInt8 → ℕ
  | [] => 0
  | c :: input => if c = charNewline then 0 else lineLength input + 1

/-- The positions that `find_macro` has found, counted from a place that lies `n` bytes before. -/
def shiftFound (n : ℕ) (found : ℕ × ℕ × ℕ) : ℕ × ℕ × ℕ :=
  (found.1 + n, found.2.1 + n, found.2.2)

/-- `find_macro`: `start_pos` and `end_pos`, counted from `next_input`, and the new line number. -/
def find_macro : ℕ → List UInt8 → Option (ℕ × ℕ × ℕ)
  | _, [] => none
  | line_number, c :: input =>
    if c = charNewline then
      if 10 < input.length + 1 ∧ strncmpEqual 10 input textdbStart then
        some (1, 11 + lineLength (input.drop 10), line_number + 1)
      else ( find_macro (line_number + 1) input).map (shiftFound 1)
    else ( find_macro line_number input).map (shiftFound 1)

/-- What the macro of `process_selectcmd` and its table tell: the number of rows with the header,
the order, which rows match, and the value that is written for a row. -/
structure Selection where
  row_count : ℕ
  ascending : Bool
  ismatch : ℕ → Bool
  value : ℕ → List UInt8

/-- The loop of `process_selectcmd` that writes the rows, of which `n` are left. -/
def writeRows (sel : Selection) : ℕ → List UInt8
  | 0 => []
  | n + 1 =>
    let i := sel.row_count - (n + 1)
    let row := if sel.ascending then i else sel.row_count - i
    (if sel.ismatch row then sel.value row ++ [charNewline] else []) ++ writeRows sel n

/-- What `process_selectcmd` writes: the header is skipped. -/
def rowsText (sel : Selection) : List UInt8 := writeRows sel (sel.row_count - 1)

/-- The messages of `process_macro`; those of `process_selectcmd` are one. -/
inductive MacroMessage
  | endWithoutBegin (line_number : ℕ)
  | noEnd (line_number : ℕ)
  | unknownMacro (name : List UInt8) (line_number : ℕ)
  | selectcmd (line_number : ℕ)
  deriving DecidableEq, Repr

/-- The loop of `process_macro`, with the bytes that it writes.  `select` reads a macro and its
table: `process_selectcmd` prints the line number only, and behind the macro it looks at no byte but
the line end. -/
def processLoop (select : List UInt8 → Option Selection) :
    ℕ → ℕ → List UInt8 → Option (Except MacroMessage (List UInt8))
  | 0, _, _ => none
  | fuel + 1, line_number, input =>
    match find_macro line_number input with
    | none => some (.ok input)
    | some ( start_macro, end_macro, start_linenr) =>
      let macroText := (input.take end_macro).drop start_macro
      let next_input := input.drop end_macro
      if macroText.length = 13 ∧ ¬strncmpEqual 13 macroText textdbEnd then
        some (.error (.endWithoutBegin start_linenr))
      else
        match find_macro start_linenr next_input with
        | none => some (.error (.noEnd start_linenr))
        | some (start_macro2, end_macro2, line_number) =>
          let macroText2 := (next_input.take end_macro2).drop start_macro2
          if ¬strncmpEqual macroText2.length macroText2 textdbEnd then
            some (.error (.noEnd start_linenr))
          else if macroText.length > 17 ∧ strncmpEqual 16 macroText textdbSelect then
            match select macroText with
            | none => some (.error (.selectcmd start_linenr))
            | some sel =>
              (processLoop select fuel line_number (next_input.drop end_macro2)).map fun out =>
                out.map fun out => input.take end_macro ++ [charNewline] ++ rowsText sel ++
                  textdbEnd ++ out
          else some (.error (.unknownMacro (macroText.take 16) start_linenr))

/-- `process_macro` -/
def process_macro (select : List UInt8 → Option Selection) (str : List UInt8) :
    Option (Except MacroMessage (List UInt8)) :=
  processLoop select (str.length + 1) 1 str

/-! ## Lines -/

/-- A text of a first line and the lines behind it. -/
def joinLines (line : List UInt8) (lines : List (List UInt8)) : List UInt8 :=
  line ++ lines.flatMap fun line => charNewline :: line

/-- A line that `find_macro` finds. -/
def isMarker (line : List UInt8) : Bool := textdbStart.isPrefixOf line

section Lines

variable {line rest t u : List UInt8} {lines pre post : List (List UInt8)} {line_number n : ℕ}

theorem joinLines_append (line : List UInt8) (pre post : List (List UInt8)) :
    joinLines line (pre ++ post) = joinLines line pre ++ joinLines [] post := by
  rw [joinLines, joinLines, joinLines, List.flatMap_append, List.append_assoc, List.nil_append]

theorem joinLines_cons (line line' : List UInt8) (lines : List (List UInt8)) :
    joinLines line (line' :: lines) = line ++ charNewline :: joinLines line' lines := by
  rw [joinLines, joinLines, List.flatMap_cons, List.cons_append]

theorem joinLines_concat (line line' : List UInt8) (lines : List (List UInt8)) :
    joinLines line (lines ++ [line']) = joinLines line lines ++ charNewline :: line' := by
  rw [joinLines_append, joinLines_cons]
  simp [joinLines]

theorem joinLines_splitOn (text : List UInt8) :
    ∃ line lines, text.splitOn charNewline = line :: lines ∧ text = joinLines line lines ∧
      charNewline ∉ line ∧ ∀ line ∈ lines, charNewline ∉ line := by
  induction text with
  | nil => exact ⟨[], [], rfl, rfl, List.not_mem_nil, fun _ h => absurd h List.not_mem_nil⟩
  | cons c text ih =>
    obtain ⟨line, lines, hsplit, htext, hline, hlines⟩ := ih
    rw [List.splitOn_cons_eq_if_modifyHead, hsplit]
    by_cases hc : c = charNewline
    · rw [if_pos (beq_iff_eq.mpr hc)]
      refine ⟨[], line :: lines, rfl, ?_, List.not_mem_nil,
        List.forall_mem_cons.mpr ⟨hline, hlines⟩⟩
      rw [joinLines_cons, ← htext, hc, List.nil_append]
    · rw [if_neg (fun h => hc (beq_iff_eq.mp h))]
      refine ⟨c :: line, lines, rfl, ?_, ?_, hlines⟩
      · rw [htext]
        rfl
      · exact fun h => (List.mem_cons.mp h).elim (fun h => hc h.symm) hline

theorem splitOn_joinLines (hline : charNewline ∉ line)
    (hlines : ∀ line ∈ lines, charNewline ∉ line) :
    (joinLines line lines).splitOn charNewline = line :: lines := by
  induction lines generalizing line with
  | nil => rw [joinLines, List.flatMap_nil, List.append_nil, List.splitOn_eq_singleton hline]
  | cons line' lines ih =>
    obtain ⟨hline', hlines⟩ := List.forall_mem_cons.mp hlines
    rw [joinLines_cons, List.splitOn_append_cons_self_of_not_mem hline, ih hline' hlines]

theorem newline_cons (text : List UInt8) :
    charNewline :: text = joinLines [] (text.splitOn charNewline) := by
  obtain ⟨line, lines, hsplit, htext, -, -⟩ := joinLines_splitOn text
  rw [hsplit, joinLines_cons, List.nil_append, ← htext]

theorem strncmpEqual_iff (ht : 0 ∉ t) (hn : n ≤ t.length) :
    strncmpEqual n u t = true ↔ t.take n <+: u := by
  induction n generalizing t u with
  | zero => exact iff_of_true rfl (by rw [List.take_zero]; exact List.nil_prefix)
  | succ n ih =>
    rcases t with _ | ⟨c, t⟩
    · exact absurd hn (Nat.not_succ_le_zero n)
    · have hc : c ≠ 0 := (List.ne_of_not_mem_cons ht).symm
      have ih := @ih t u.tail (List.not_mem_of_not_mem_cons ht) (Nat.le_of_succ_le_succ hn)
      rw [strncmpEqual, List.headD_cons, List.tail_cons, List.take_succ_cons, Bool.and_eq_true,
        Bool.or_eq_true, beq_iff_eq, beq_iff_eq, ih]
      rcases u with _ | ⟨d, u⟩
      · exact iff_of_false (fun h => hc h.1.symm) (by simp)
      · rw [List.headD_cons, List.tail_cons, List.cons_prefix_cons]
        constructor
        · rintro ⟨rfl, h⟩
          exact ⟨rfl, h.resolve_left hc⟩
        · rintro ⟨rfl, h⟩
          exact ⟨rfl, Or.inr h⟩

theorem isMarker_iff : isMarker line = true ↔ textdbStart <+: line := List.isPrefixOf_iff_prefix

theorem isMarker_joinLines (line : List UInt8) (lines : List (List UInt8)) :
    (10 < (joinLines line lines).length + 1 ∧
      strncmpEqual 10 (joinLines line lines) textdbStart = true) ↔ isMarker line = true := by
  rw [strncmpEqual_iff (by decide) (by decide), isMarker_iff,
    show textdbStart.take 10 = textdbStart from rfl]
  have hprefix : textdbStart <+: joinLines line lines ↔ textdbStart <+: line := by
    refine ⟨fun h => ?_, fun h => h.trans (List.prefix_append _ _)⟩
    rcases List.prefix_or_prefix_of_prefix h (List.prefix_append line _) with h' | ⟨u, hu⟩
    · exact h'
    · -- a line end is no byte of `// TEXTDB:`
      rcases u with _ | ⟨c, u⟩
      · exact ⟨[], by rw [← hu, List.append_nil, List.append_nil]⟩
      · rcases lines with _ | ⟨line', lines⟩
        · rw [joinLines, List.flatMap_nil, List.append_nil] at h
          exact h
        · rw [← hu, joinLines_cons, List.prefix_append_right_inj] at h
          obtain ⟨rfl, -⟩ := List.cons_prefix_cons.mp h
          have hmem : charNewline ∈ textdbStart := hu ▸ List.mem_append_right _ List.mem_cons_self
          exact absurd hmem (by decide)
  rw [ hprefix]
  refine and_iff_right_of_imp fun h => ?_
  have hlen := ( hprefix.mpr h).length_le
  exact Nat.lt_succ_of_le hlen

theorem lineLength_joinLines (hline : charNewline ∉ line) (lines : List (List UInt8)) :
    lineLength (joinLines line lines) = line.length := by
  induction line with
  | nil =>
    cases lines with
    | nil => rfl
    | cons line' lines => rw [joinLines_cons, List.nil_append]; exact if_pos rfl
  | cons c line ih =>
    have hc : c ≠ charNewline := (List.ne_of_not_mem_cons hline).symm
    have hjoin : joinLines (c :: line) lines = c :: joinLines line lines := rfl
    rw [hjoin, lineLength, if_neg hc, ih (List.not_mem_of_not_mem_cons hline), List.length_cons]

theorem find_macro_line (hline : charNewline ∉ line) (rest : List UInt8) :
    find_macro line_number (line ++ rest) =
      ( find_macro line_number rest).map (shiftFound line.length) := by
  induction line with
  | nil =>
    rw [List.nil_append]
    cases find_macro line_number rest <;> rfl
  | cons c line ih =>
    have hc : c ≠ charNewline := (List.ne_of_not_mem_cons hline).symm
    rw [List.cons_append, find_macro, if_neg hc, ih (List.not_mem_of_not_mem_cons hline),
      Option.map_map]
    rfl

theorem find_macro_eq_none (hline : charNewline ∉ line)
    (hlines : ∀ line ∈ lines, charNewline ∉ line) (hno : ∀ line ∈ lines, isMarker line = false) :
    find_macro line_number (joinLines line lines) = none := by
  induction lines generalizing line line_number with
  | nil =>
    rw [joinLines, find_macro_line hline]
    rfl
  | cons line' lines ih =>
    obtain ⟨hline', hlines⟩ := List.forall_mem_cons.mp hlines
    obtain ⟨hno', hno⟩ := List.forall_mem_cons.mp hno
    rw [joinLines_cons, find_macro_line hline, find_macro, if_pos rfl,
      if_neg (fun h => Bool.eq_false_iff.mp hno' ((isMarker_joinLines _ _).mp h)),
      ih hline' hlines hno]
    rfl

theorem find_macro_eq_some (hline : charNewline ∉ line) (hpre : ∀ line ∈ pre, charNewline ∉ line)
    (hno : ∀ line ∈ pre, isMarker line = false) {marker : List UInt8}
    (hmarker : isMarker marker = true) (hnew : charNewline ∉ marker) :
    find_macro line_number (joinLines line (pre ++ marker :: post)) =
      some ((joinLines line pre).length + 1, (joinLines line (pre ++ [marker])).length,
        line_number + pre.length + 1) := by
  induction pre generalizing line line_number with
  | nil =>
    obtain ⟨tail, htail⟩ := isMarker_iff.mp hmarker
    have hnewtail : charNewline ∉ tail := fun h => hnew (htail ▸ List.mem_append_right _ h)
    have hdrop : (joinLines marker post).drop 10 = joinLines tail post := by
      rw [← htail]
      rfl
    rw [List.nil_append, joinLines_cons, find_macro_line hline, find_macro, if_pos rfl,
      if_pos ((isMarker_joinLines _ _).mpr hmarker), hdrop, lineLength_joinLines hnewtail,
      Option.map_some, shiftFound]
    have hlen : marker.length = 10 + tail.length := by
      rw [← htail, List.length_append]
      rfl
    rw [joinLines_concat, List.length_append, List.length_cons, hlen]
    simp only [joinLines, List.flatMap_nil, List.append_nil, List.length_nil]
    refine congrArg some (Prod.ext ?_ (Prod.ext ?_ rfl))
    · exact Nat.add_comm 1 _
    · dsimp only
      omega
  | cons line' pre ih =>
    obtain ⟨hline', hpre⟩ := List.forall_mem_cons.mp hpre
    obtain ⟨hno', hno⟩ := List.forall_mem_cons.mp hno
    rw [List.cons_append, joinLines_cons, find_macro_line hline, find_macro, if_pos rfl,
      if_neg (fun h => Bool.eq_false_iff.mp hno' ((isMarker_joinLines _ _).mp h)),
      ih hline' hpre hno, Option.map_some, Option.map_some, shiftFound, shiftFound]
    have hstart : (joinLines line (line' :: pre)).length =
        (joinLines line' pre).length + 1 + line.length := by
      rw [joinLines_cons, List.length_append, List.length_cons]
      omega
    have hend : (joinLines line (line' :: pre ++ [marker])).length =
        (joinLines line' (pre ++ [marker])).length + 1 + line.length := by
      rw [List.cons_append, joinLines_cons, List.length_append, List.length_cons]
      omega
    rw [hstart, hend, List.length_cons]
    refine congrArg some (Prod.ext (by dsimp only; omega) (Prod.ext rfl ?_))
    dsimp only
    omega

end Lines

/-! ## The lines that are written -/

section Rows

variable {sel : Selection} {l : List UInt8}

theorem writeRows_eq (sel : Selection) (n : ℕ) :
    writeRows sel n = [] ∨ ∃ rows, writeRows sel n = rows ++ [charNewline] := by
  induction n with
  | zero => exact Or.inl rfl
  | succ n ih =>
    obtain ⟨row, hrow⟩ : ∃ row, writeRows sel (n + 1) =
        (if sel.ismatch row then sel.value row ++ [charNewline] else []) ++ writeRows sel n :=
      ⟨_, rfl⟩
    rw [hrow]
    rcases ih with h | ⟨rows, h⟩
    · rw [h, List.append_nil]
      split
      · exact Or.inr ⟨_, rfl⟩
      · exact Or.inl rfl
    · rw [h, ← List.append_assoc]
      exact Or.inr ⟨_, rfl⟩

theorem splitOn_newline (l l' : List UInt8) : (l ++ charNewline :: l').splitOn charNewline =
    l.splitOn charNewline ++ l'.splitOn charNewline :=
  List.splitOnP_append_cons (p := (· == charNewline)) l l' (beq_self_eq_true _)

theorem splitOn_rows (sel : Selection) : ∃ rows : List (List UInt8),
    (rowsText sel ++ textdbEnd).splitOn charNewline = rows ++ [textdbEnd] ∧
      ∀ line ∈ rows, line ∈ (rowsText sel).splitOn charNewline := by
  rcases writeRows_eq sel (sel.row_count - 1) with h | ⟨rows, h⟩
  · rw [rowsText, h]
    exact ⟨[], by decide, fun _ h => absurd h List.not_mem_nil⟩
  · refine ⟨rows.splitOn charNewline, ?_, fun line hline => ?_⟩
    · rw [rowsText, h, List.append_assoc, List.singleton_append, splitOn_newline]
      exact congrArg _ (by decide)
    · rw [rowsText, h, splitOn_newline]
      exact List.mem_append_left _ hline

end Rows

/-! ## The expansion of lines -/

/-- A macro that `process_macro` knows. -/
def IsSelect (macroText : List UInt8) : Prop :=
  17 < macroText.length ∧ strncmpEqual 16 macroText textdbSelect = true

instance (macroText : List UInt8) : Decidable (IsSelect macroText) :=
  inferInstanceAs (Decidable (_ ∧ _))

/-- A line that `process_macro` takes for the end of a macro. -/
def ClosesMacro (line : List UInt8) : Prop := strncmpEqual line.length line textdbEnd = true

instance (line : List UInt8) : Decidable (ClosesMacro line) :=
  inferInstanceAs (Decidable (_ = true))

/-- The lines behind the first one, before and after the expansion. -/
inductive Expands (select : List UInt8 → Option Selection) :
    List (List UInt8) → List (List UInt8) → Prop
  | done {lines : List (List UInt8)} : (∀ line ∈ lines, isMarker line = false) →
      Expands select lines lines
  | region {pre body post out : List (List UInt8)} {macroText closing : List UInt8}
      {sel : Selection} : (∀ line ∈ pre, isMarker line = false) → isMarker macroText = true →
      (∀ line ∈ body, isMarker line = false) → isMarker closing = true → ClosesMacro closing →
      IsSelect macroText → select macroText = some sel → Expands select post out →
      Expands select (pre ++ macroText :: (body ++ closing :: post))
        (pre ++ macroText :: ((rowsText sel ++ textdbEnd).splitOn charNewline ++ out))

theorem exists_first_marker (lines : List (List UInt8)) :
    (∀ line ∈ lines, isMarker line = false) ∨ ∃ pre marker post, lines = pre ++ marker :: post ∧
      (∀ line ∈ pre, isMarker line = false) ∧ isMarker marker = true := by
  induction lines with
  | nil => exact Or.inl fun _ h => absurd h List.not_mem_nil
  | cons line lines ih =>
    by_cases hline : isMarker line = true
    · exact Or.inr ⟨[], line, lines, rfl, fun _ h => absurd h List.not_mem_nil, hline⟩
    · rw [Bool.not_eq_true] at hline
      rcases ih with h | ⟨pre, marker, post, rfl, hpre, hmarker⟩
      · exact Or.inl (List.forall_mem_cons.mpr ⟨hline, h⟩)
      · exact Or.inr ⟨line :: pre, marker, post, rfl, List.forall_mem_cons.mpr ⟨hline, hpre⟩,
          hmarker⟩

section Loop

variable {select : List UInt8 → Option Selection} {line out text : List UInt8}
  {lines lines' pre post : List (List UInt8)} {fuel line_number : ℕ}

theorem take_joinLines (line : List UInt8) (pre post : List (List UInt8)) (marker : List UInt8) :
    (joinLines line (pre ++ marker :: post)).take (joinLines line (pre ++ [marker])).length =
        joinLines line (pre ++ [marker]) ∧
      (joinLines line (pre ++ marker :: post)).drop (joinLines line (pre ++ [marker])).length =
        joinLines [] post ∧
      (joinLines line (pre ++ [marker])).drop ((joinLines line pre).length + 1) = marker := by
  have hsplit : joinLines line (pre ++ marker :: post) =
      joinLines line (pre ++ [marker]) ++ joinLines [] post := by
    rw [List.append_cons, joinLines_append]
  rw [hsplit]
  refine ⟨List.take_left, List.drop_left, ?_⟩
  rw [joinLines_concat, List.drop_length_add_append]
  rfl

theorem processLoop_region (hline : charNewline ∉ line) {body : List (List UInt8)}
    {macroText closing : List UInt8}
    (hpre : ∀ line ∈ pre, charNewline ∉ line) (hnpre : ∀ line ∈ pre, isMarker line = false)
    ( hmacro : isMarker macroText = true) (hnew : charNewline ∉ macroText)
    (hbody : ∀ line ∈ body, charNewline ∉ line) (hnbody : ∀ line ∈ body, isMarker line = false)
    (hclosing : isMarker closing = true) (hnew' : charNewline ∉ closing) :
    processLoop select (fuel + 1) line_number
        (joinLines line (pre ++ macroText :: (body ++ closing :: post))) =
      if macroText.length = 13 ∧ ¬strncmpEqual 13 macroText textdbEnd then
        some (.error (.endWithoutBegin (line_number + pre.length + 1)))
      else if ¬ClosesMacro closing then some (.error (.noEnd (line_number + pre.length + 1)))
      else if IsSelect macroText then
        match select macroText with
        | none => some (.error (.selectcmd (line_number + pre.length + 1)))
        | some sel =>
          (processLoop select fuel (line_number + pre.length + 1 + body.length + 1)
            (joinLines [] post)).map fun out => out.map fun out =>
              joinLines line (pre ++ [macroText]) ++ [charNewline] ++ rowsText sel ++
                textdbEnd ++ out
      else some (.error (.unknownMacro (macroText.take 16) (line_number + pre.length + 1))) := by
  obtain ⟨htake, hdrop, hmacroText⟩ := take_joinLines line pre (body ++ closing :: post) macroText
  obtain ⟨htake', hdrop', hclosingText⟩ := take_joinLines [] body post closing
  rw [processLoop, find_macro_eq_some hline hpre hnpre hmacro hnew]
  dsimp only
  rw [htake, hdrop, hmacroText, find_macro_eq_some List.not_mem_nil hbody hnbody hclosing hnew']
  dsimp only
  rw [htake', hdrop', hclosingText]
  rfl

theorem joinLines_region (line : List UInt8) (pre out : List (List UInt8)) (macroText : List UInt8)
    (sel : Selection) :
    joinLines line (pre ++ macroText :: ((rowsText sel ++ textdbEnd).splitOn charNewline ++ out)) =
      joinLines line (pre ++ [macroText]) ++ [charNewline] ++ rowsText sel ++ textdbEnd ++
        joinLines [] out := by
  have hrows : joinLines [] ((rowsText sel ++ textdbEnd).splitOn charNewline ++ out) =
      charNewline :: (rowsText sel ++ textdbEnd) ++ joinLines [] out := by
    rw [joinLines_append, newline_cons]
  rw [List.append_cons, joinLines_append, hrows]
  simp only [List.append_assoc, List.nil_append, List.cons_append]

theorem expands_of_processLoop (hline : charNewline ∉ line)
    (hlines : ∀ line ∈ lines, charNewline ∉ line)
    (h : processLoop select fuel line_number (joinLines line lines) = some (.ok out)) :
    ∃ lines', Expands select lines lines' ∧ out = joinLines line lines' := by
  induction fuel generalizing line lines line_number out with
  | zero => cases h
  | succ fuel ih =>
    rcases exists_first_marker lines with hno | ⟨pre, macroText, post, rfl, hnpre, hmacro⟩
    · rw [processLoop, find_macro_eq_none hline hlines hno] at h
      exact ⟨lines, .done hno, (Except.ok.inj (Option.some.inj h)).symm⟩
    · obtain ⟨hpre, hlines⟩ := List.forall_mem_append.mp hlines
      obtain ⟨hnew, hpost⟩ := List.forall_mem_cons.mp hlines
      rcases exists_first_marker post with hno | ⟨body, closing, post, rfl, hnbody, hclosing⟩
      · -- there is no end
        obtain ⟨htake, hdrop, hmacroText⟩ := take_joinLines line pre post macroText
        rw [processLoop, find_macro_eq_some hline hpre hnpre hmacro hnew] at h
        dsimp only at h
        rw [hdrop, find_macro_eq_none List.not_mem_nil hpost hno] at h
        split at h <;> cases h
      · obtain ⟨hbody, hpost⟩ := List.forall_mem_append.mp hpost
        obtain ⟨hnew', hpost⟩ := List.forall_mem_cons.mp hpost
        rw [processLoop_region hline hpre hnpre hmacro hnew hbody hnbody hclosing hnew'] at h
        by_cases hbegin : macroText.length = 13 ∧ ¬strncmpEqual 13 macroText textdbEnd
        · rw [if_pos hbegin] at h
          cases h
        rw [if_neg hbegin] at h
        by_cases hcloses : ¬ClosesMacro closing
        · rw [if_pos hcloses] at h
          cases h
        rw [if_neg hcloses] at h
        by_cases hselect : ¬IsSelect macroText
        · rw [if_neg hselect] at h
          cases h
        rw [if_pos (not_not.mp hselect)] at h
        cases hsel : select macroText with
        | none =>
          rw [hsel] at h
          cases h
        | some sel =>
          rw [hsel] at h
          obtain ⟨r, hr, hrout⟩ := Option.map_eq_some_iff.mp h
          cases r with
          | error message => cases hrout
          | ok rest =>
            obtain ⟨out', hout', rfl⟩ := ih List.not_mem_nil hpost hr
            refine ⟨_, .region hnpre hmacro hnbody hclosing (not_not.mp hcloses)
              (not_not.mp hselect) hsel hout', ?_⟩
            rw [joinLines_region]
            exact (Except.ok.inj hrout).symm

theorem processLoop_of_expands (h : Expands select lines lines')
    (hline : charNewline ∉ line) (hlines : ∀ line ∈ lines, charNewline ∉ line)
    (hfuel : (joinLines line lines).length < fuel) :
    processLoop select fuel line_number (joinLines line lines) =
      some (.ok (joinLines line lines')) := by
  induction h generalizing fuel line line_number with
  | done hno =>
    obtain ⟨fuel, rfl⟩ := Nat.exists_eq_add_of_lt hfuel
    rw [Nat.add_assoc, ← Nat.add_assoc, processLoop, find_macro_eq_none hline hlines hno]
  | @region pre body post out macroText closing sel hnpre hmacro hnbody hclosing hcloses hselect
      hsel _ ih =>
    obtain ⟨hpre, hlines⟩ := List.forall_mem_append.mp hlines
    obtain ⟨hnew, hlines⟩ := List.forall_mem_cons.mp hlines
    obtain ⟨hbody, hlines⟩ := List.forall_mem_append.mp hlines
    obtain ⟨hnew', hpost⟩ := List.forall_mem_cons.mp hlines
    obtain ⟨fuel, rfl⟩ : ∃ n, fuel = n + 1 := ⟨fuel - 1, by omega⟩
    have hshort : (joinLines [] post).length < fuel := by
      rw [List.append_cons, joinLines_append, joinLines_concat, List.append_cons body,
        joinLines_append, List.length_append, List.length_append, List.length_append,
        List.length_cons] at hfuel
      omega
    rw [processLoop_region hline hpre hnpre hmacro hnew hbody hnbody hclosing hnew',
      if_neg (fun h => by have := hselect.1; omega), if_neg (not_not.mpr hcloses),
      if_pos hselect, hsel]
    dsimp only
    rw [ih List.not_mem_nil hpost hshort, joinLines_region]
    rfl

/-- **The runs of `process_macro`** that succeed, on the lines of the text. -/
theorem process_macro_ok_iff (hline : charNewline ∉ line)
    (hlines : ∀ line ∈ lines, charNewline ∉ line) :
    process_macro select (joinLines line lines) = some (.ok out) ↔
      ∃ lines', Expands select lines lines' ∧ out = joinLines line lines' := by
  constructor
  · exact expands_of_processLoop hline hlines
  · rintro ⟨lines', h, rfl⟩
    exact processLoop_of_expands h hline hlines (Nat.lt_succ_self _)

end Loop

/-! ## Lines outside of the regions -/

/-- The lines that do not stand between a macro and its end, where the end is the next line
`// TEXTDB:END`; with `true` the first line stands there. -/
def outside : Bool → List (List UInt8) → List (List UInt8)
  | _, [] => []
  | false, line :: lines => line :: outside (isMarker line && textdbEnd ∈ lines) lines
  | true, line :: lines =>
    if line = textdbEnd then line :: outside false lines else outside true lines

/-- The lines of a text that stand outside.  The first line of a text is no macro. -/
def outsideText (text : List UInt8) : List (List UInt8) :=
  match text.splitOn charNewline with
  | [] => []
  | line :: lines => line :: outside false lines

/-- Every other element of a list, from the first one or from the second one. -/
def evens {α : Type*} : List α → List α
  | a :: _ :: l => a :: evens l
  | l => l

def odds {α : Type*} : List α → List α
  | _ :: b :: l => b :: odds l
  | _ => []

/-- The lines that `find_macro` finds in a text. -/
def markers (text : List UInt8) : List (List UInt8) :=
  (text.splitOn charNewline).tail.filter isMarker

/-- The macros of a text, and the line behind each of them that should be its end. -/
def macrosOf (text : List UInt8) : List (List UInt8) := evens (markers text)

def closingsOf (text : List UInt8) : List (List UInt8) := odds (markers text)

/-- What should happen with a text: its lines outside of the regions are kept, and the output is
expanded to itself. -/
structure Stable (select : List UInt8 → Option Selection) (text out : List UInt8) : Prop where
  outside_eq : outsideText out = outsideText text
  again : process_macro select out = some (.ok out)

section Outside

variable {select : List UInt8 → Option Selection} {lines lines' pre post body : List (List UInt8)}
  {b : Bool}

theorem isMarker_textdbEnd : isMarker textdbEnd = true := by decide

theorem outside_append (hpre : ∀ line ∈ pre, isMarker line = false) :
    outside false (pre ++ post) = pre ++ outside false post := by
  induction pre with
  | nil => rfl
  | cons line pre ih =>
    obtain ⟨hline, hpre⟩ := List.forall_mem_cons.mp hpre
    rw [List.cons_append, outside, hline, Bool.false_and, ih hpre, List.cons_append]

theorem outside_skip (hbody : ∀ line ∈ body, isMarker line = false) :
    outside true (body ++ post) = outside true post := by
  induction body with
  | nil => rfl
  | cons line body ih =>
    obtain ⟨hline, hbody⟩ := List.forall_mem_cons.mp hbody
    have hne : line ≠ textdbEnd := fun h =>
      Bool.false_ne_true (hline.symm.trans (h ▸ isMarker_textdbEnd))
    rw [List.cons_append, outside, if_neg hne, ih hbody]

theorem outside_region (hpre : ∀ line ∈ pre, isMarker line = false) {macroText : List UInt8}
    ( hmacro : isMarker macroText = true) (hbody : ∀ line ∈ body, isMarker line = false) :
    outside false (pre ++ macroText :: (body ++ textdbEnd :: post)) =
      pre ++ macroText :: textdbEnd :: outside false post := by
  have hmem : textdbEnd ∈ body ++ textdbEnd :: post :=
    List.mem_append_right _ List.mem_cons_self
  rw [outside_append hpre, outside, hmacro, Bool.true_and, decide_eq_true hmem,
    outside_skip hbody, outside, if_pos rfl]

theorem outside_sublist (b : Bool) (lines : List (List UInt8)) :
    (outside b lines).Sublist lines := by
  induction lines generalizing b with
  | nil => cases b <;> exact List.Sublist.refl _
  | cons line lines ih =>
    cases b with
    | false => exact (ih _).cons_cons line
    | true =>
      rw [outside]
      split
      · exact (ih false).cons_cons line
      · exact (ih true).cons line

theorem filter_isMarker_eq_nil (h : ∀ line ∈ lines, isMarker line = false) :
    lines.filter isMarker = [] :=
  List.filter_eq_nil_iff.mpr fun line hline => Bool.eq_false_iff.mp (h line hline)

theorem markers_region (hpre : ∀ line ∈ pre, isMarker line = false) {macroText closing : List UInt8}
    ( hmacro : isMarker macroText = true) (hbody : ∀ line ∈ body, isMarker line = false)
    (hclosing : isMarker closing = true) :
    (pre ++ macroText :: (body ++ closing :: post)).filter isMarker =
      macroText :: closing :: post.filter isMarker := by
  rw [List.filter_append, filter_isMarker_eq_nil hpre, List.nil_append,
    List.filter_cons_of_pos hmacro, List.filter_append, filter_isMarker_eq_nil hbody,
    List.nil_append, List.filter_cons_of_pos hclosing]

/-- No row that is written for one of the macros starts with `// TEXTDB:`. -/
def Clean (select : List UInt8 → Option Selection) (macros : List (List UInt8)) : Prop :=
  ∀ macroText ∈ macros, ∀ sel, select macroText = some sel →
    ∀ line ∈ (rowsText sel).splitOn charNewline, isMarker line = false

theorem textdbEnd_notMem (h : ∀ line ∈ lines, isMarker line = false) : textdbEnd ∉ lines :=
  fun hmem => Bool.false_ne_true ((h _ hmem).symm.trans isMarker_textdbEnd)

theorem IsSelect.ne_textdbEnd {macroText : List UInt8} (h : IsSelect macroText) :
    macroText ≠ textdbEnd := by
  rintro rfl
  exact absurd h.1 (by decide)

theorem Expands.newline_notMem (h : Expands select lines lines')
    (hlines : ∀ line ∈ lines, charNewline ∉ line) : ∀ line ∈ lines', charNewline ∉ line := by
  induction h with
  | done => exact hlines
  | @region pre body post out macroText closing sel _ _ _ _ _ _ _ _ ih =>
    obtain ⟨hpre, hlines⟩ := List.forall_mem_append.mp hlines
    obtain ⟨hnew, hlines⟩ := List.forall_mem_cons.mp hlines
    obtain ⟨-, hlines⟩ := List.forall_mem_append.mp hlines
    obtain ⟨-, hpost⟩ := List.forall_mem_cons.mp hlines
    obtain ⟨line, rows, hsplit, -, hline, hrows⟩ := joinLines_splitOn (rowsText sel ++ textdbEnd)
    rw [hsplit]
    exact List.forall_mem_append.mpr ⟨hpre, List.forall_mem_cons.mpr ⟨hnew,
      List.forall_mem_append.mpr ⟨List.forall_mem_cons.mpr ⟨hline, hrows⟩, ih hpost⟩⟩⟩

theorem Clean.rows {macroText : List UInt8} {macros : List (List UInt8)} {sel : Selection}
    (h : Clean select (macroText :: macros)) (hsel : select macroText = some sel)
    (out : List (List UInt8)) : ∃ rows : List (List UInt8),
      (rowsText sel ++ textdbEnd).splitOn charNewline ++ out = rows ++ textdbEnd :: out ∧
        ∀ line ∈ rows, isMarker line = false := by
  obtain ⟨rows, hsplit, hrows⟩ := splitOn_rows sel
  refine ⟨rows, by rw [hsplit, List.append_assoc, List.singleton_append], fun line hline => ?_⟩
  exact h macroText List.mem_cons_self sel hsel line (hrows line hline)

/-- **The output is expanded to itself.** -/
theorem Expands.again (h : Expands select lines lines')
    (hclean : Clean select (evens (lines.filter isMarker))) : Expands select lines' lines' := by
  induction h with
  | done hno => exact .done hno
  | @region pre body post out macroText closing sel hpre hmacro hbody hclosing _ hselect hsel _
      ih =>
    rw [markers_region hpre hmacro hbody hclosing] at hclean
    have hout := ih fun m hm => hclean m (List.mem_cons_of_mem _ hm)
    obtain ⟨rows, hsplit, hrows⟩ := hclean.rows hsel out
    have hregion := Expands.region hpre hmacro hrows isMarker_textdbEnd (by decide) hselect hsel
      hout
    rw [hsplit] at hregion ⊢
    exact hregion

theorem Expands.count_outside (h : Expands select lines lines')
    (hclean : Clean select (evens (lines.filter isMarker))) :
    (outside false lines').count textdbEnd = (odds (lines.filter isMarker)).length := by
  induction h with
  | @done lines hno =>
    have hout : outside false lines = lines := by
      rw [← List.append_nil lines, outside_append hno]
      rfl
    rw [hout, filter_isMarker_eq_nil hno, List.count_eq_zero_of_not_mem (textdbEnd_notMem hno)]
    rfl
  | @region pre body post out macroText closing sel hpre hmacro hbody hclosing _ hselect hsel _
      ih =>
    rw [markers_region hpre hmacro hbody hclosing] at hclean ⊢
    obtain ⟨rows, hsplit, hrows⟩ := hclean.rows hsel out
    rw [hsplit, outside_region hpre hmacro hrows, List.count_append,
      List.count_eq_zero_of_not_mem (textdbEnd_notMem hpre), List.count_cons_of_ne
        hselect.ne_textdbEnd, List.count_cons_self,
      ih fun m hm => hclean m (List.mem_cons_of_mem _ hm), Nat.zero_add]
    rfl

theorem Expands.count_lines (h : Expands select lines lines') :
    lines.count textdbEnd = (odds (lines.filter isMarker)).count textdbEnd := by
  induction h with
  | @done lines hno =>
    rw [filter_isMarker_eq_nil hno, List.count_eq_zero_of_not_mem (textdbEnd_notMem hno)]
    rfl
  | @region pre body post out macroText closing sel hpre hmacro hbody hclosing _ hselect _ _ ih =>
    rw [markers_region hpre hmacro hbody hclosing, odds, List.count_append,
      List.count_eq_zero_of_not_mem (textdbEnd_notMem hpre), Nat.zero_add, List.count_cons_of_ne
        hselect.ne_textdbEnd, List.count_append,
      List.count_eq_zero_of_not_mem (textdbEnd_notMem hbody), Nat.zero_add, List.count_cons,
      List.count_cons, ih]

/-- **The lines outside are kept** if each macro is closed by the line `// TEXTDB:END`, and only
then. -/
theorem Expands.outside_eq_iff (h : Expands select lines lines')
    (hclean : Clean select (evens (lines.filter isMarker))) :
    outside false lines' = outside false lines ↔
      ∀ line ∈ odds (lines.filter isMarker), line = textdbEnd := by
  constructor
  · intro heq
    -- an end that is not the right one is missing in the input
    have hcount : (odds (lines.filter isMarker)).count textdbEnd =
        (odds (lines.filter isMarker)).length := by
      refine Nat.le_antisymm (List.count_le_length) ?_
      rw [← h.count_outside hclean, heq, ← h.count_lines]
      exact (outside_sublist false lines).count_le _
    exact fun line hline => (List.count_eq_length.mp hcount line hline).symm
  · intro hends
    induction h with
    | done => rfl
    | @region pre body post out macroText closing sel hpre hmacro hbody hclosing _ _ hsel _ ih =>
      rw [markers_region hpre hmacro hbody hclosing] at hclean hends
      rw [odds] at hends
      obtain ⟨hend, hends⟩ := List.forall_mem_cons.mp hends
      obtain ⟨rows, hsplit, hrows⟩ := hclean.rows hsel out
      rw [hend, hsplit, outside_region hpre hmacro hrows, outside_region hpre hmacro hbody,
        ih (fun m hm => hclean m (List.mem_cons_of_mem _ hm)) hends]

/-- **The expansion of a source text**, for each content of the tables: it is stable if and only if
the line that closes a macro is always `// TEXTDB:END`. -/
theorem process_macro_iff {text out : List UInt8} (h : process_macro select text = some (.ok out))
    (hclean : Clean select (macrosOf text)) :
    Stable select text out ↔ ∀ line ∈ closingsOf text, line = textdbEnd := by
  obtain ⟨line, lines, hsplit, rfl, hline, hlines⟩ := joinLines_splitOn text
  obtain ⟨lines', hexpands, rfl⟩ := (process_macro_ok_iff hline hlines).mp h
  have hlines' := hexpands.newline_notMem hlines
  have hmarkers : markers (joinLines line lines) = lines.filter isMarker := by
    rw [markers, hsplit, List.tail_cons]
  rw [macrosOf, hmarkers] at hclean
  rw [closingsOf, hmarkers, ← hexpands.outside_eq_iff hclean]
  have houtside : outsideText (joinLines line lines') = outsideText (joinLines line lines) ↔
      outside false lines' = outside false lines := by
    rw [outsideText, outsideText, hsplit, splitOn_joinLines hline hlines']
    exact ⟨fun h => (List.cons.inj h).2, fun h => congrArg _ h⟩
  refine ⟨fun h => houtside.mp h.outside_eq, fun h => ⟨houtside.mpr h, ?_⟩⟩
  exact (process_macro_ok_iff hline hlines').mpr ⟨lines', hexpands.again hclean, rfl⟩

end Outside

section Example

/-- The macro `// TEXTDB:SELECT(a)FROM(f)`. -/
def selectMacro : List UInt8 := textdbSelect ++ [40, 97, 41, 70, 82, 79, 77, 40, 102, 41]

/-- A table `f` of which the column `a` has the only value `x`. -/
def selectTable (macroText : List UInt8) : Option Selection :=
  if macroText = selectMacro then some ⟨2, true, fun _ => true, fun _ => [120]⟩ else none

/-- The macro in the second line of a text, with a line that closes it. -/
def macroLines (closing : List UInt8) : List UInt8 := joinLines [] [selectMacro, closing]

theorem clean_selectTable (macros : List (List UInt8)) : Clean selectTable macros := by
  intro macroText _ sel hsel
  rw [selectTable] at hsel
  split at hsel
  · cases hsel
    decide
  · cases hsel

theorem process_macro_iff_select :
    Stable selectTable (macroLines textdbEnd) (joinLines [] [selectMacro, [120], textdbEnd]) ↔
      ∀ line ∈ closingsOf (macroLines textdbEnd), line = textdbEnd :=
  process_macro_iff (by decide +kernel) (clean_selectTable _)

/-- The line `// TEXTDB:E` closes a macro. -/
theorem process_macro_short_end :
    process_macro selectTable (macroLines (textdbStart ++ [69])) =
        some (.ok (joinLines [] [selectMacro, [120], textdbEnd])) ∧
      Clean selectTable (macrosOf (macroLines (textdbStart ++ [69]))) ∧
        ¬Stable selectTable (macroLines (textdbStart ++ [69]))
          (joinLines [] [selectMacro, [120], textdbEnd]) := by
  refine ⟨by decide +kernel, clean_selectTable _, fun h => ?_⟩
  exact absurd h.outside_eq (by decide +kernel)

end Example

end Textdb
end CKern
