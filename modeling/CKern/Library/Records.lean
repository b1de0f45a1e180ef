import Mathlib.Data.List.Basic
import Mathlib.Data.List.Forall2

/-!
# Tables written as lines of fields

A text of tokens: fields, commas, line ends and anything else.

* `lines`: the lines that are not empty, and `record`: the fields of a line that are separated by
  single commas.
* `IsTable`: all lines are records with the same number of fields.
* `takeRow` with `takeRest`, and `countRow`: the two ways in which a parser reads a row, with a known and with an unknown
  number of fields.  `takeRow_iff` and `countRow_iff` compare them with the first line.
-/

namespace CKern
namespace Records

variable {α : Type*}

/-- The tokens of a text. -/
inductive Token (α : Type*)
  | field (value : α)
  | comma
  | newline
  | other
  deriving DecidableEq, Repr

/-- Is the token a line end? -/
def Token.isNewline : Token α → Bool
  | .newline => true
  | _ => false

/-- The lines that are not empty. -/
def lines (ts : List (Token α)) : List (List (Token α)) :=
  (ts.splitOnP Token.isNewline).filter fun line => !line.isEmpty

/-- The fields of a line. -/
def record : List (Token α) → Option (List α)
  | [.field v] => some [v]
  | .field v :: .comma :: rest => (record rest).map fun row => v :: row
  | _ => none

@[simp] theorem record_field_comma (v : α) (ts : List (Token α)) :
    record (.field v :: .comma :: ts) = (record ts).map fun row => v :: row := by
  rw [record]

/-- The text is a table of `rows` with `n` columns. -/
structure IsTable (ts : List (Token α)) (n : ℕ) (rows : List (List α)) : Prop where
  records : List.Forall₂ (fun line row => record line = some row) (lines ts) rows
  width : ∀ row ∈ rows, row.length = n
  empty : rows = [] → n = 0

/-- The first line of a text. -/
def firstLine (ts : List (Token α)) : List (Token α) := ts.takeWhile fun t => !t.isNewline

/-- What follows the first line. -/
def afterLine (ts : List (Token α)) : List (Token α) := ts.dropWhile fun t => !t.isNewline

/-! ## Lines -/

@[simp] theorem firstLine_nil : firstLine ([] : List (Token α)) = [] := rfl

@[simp] theorem firstLine_newline (ts : List (Token α)) : firstLine (.newline :: ts) = [] := rfl

@[simp] theorem firstLine_field (v : α) (ts : List (Token α)) :
    firstLine (.field v :: ts) = .field v :: firstLine ts := rfl

@[simp] theorem firstLine_comma (ts : List (Token α)) :
    firstLine (.comma :: ts) = .comma :: firstLine ts := rfl

@[simp] theorem firstLine_other (ts : List (Token α)) :
    firstLine (.other :: ts) = .other :: firstLine ts := rfl

@[simp] theorem afterLine_newline (ts : List (Token α)) :
    afterLine (.newline :: ts) = .newline :: ts := rfl

@[simp] theorem lines_nil : lines ([] : List (Token α)) = [] := rfl

@[simp] theorem lines_newline (ts : List (Token α)) : lines (.newline :: ts) = lines ts := by
  rw [lines, List.splitOnP_cons_eq_if_modifyHead]
  simp [Token.isNewline, lines]

theorem splitOnP_eq (ts : List (Token α)) :
    ∃ L, ts.splitOnP Token.isNewline = firstLine ts :: L ∧
      L.filter (fun line => !line.isEmpty) = lines (afterLine ts) := by
  induction ts with
  | nil => exact ⟨[], rfl, rfl⟩
  | cons t ts ih =>
    obtain ⟨L, hsplit, hlines⟩ := ih
    cases t with
    | newline =>
      refine ⟨ts.splitOnP Token.isNewline, ?_, ?_⟩
      · rw [List.splitOnP_cons_eq_if_modifyHead, if_pos (show (Token.newline : Token α).isNewline from rfl),
          firstLine_newline]
      · rw [afterLine_newline, lines_newline, lines]
    | field v =>
      refine ⟨L, ?_, hlines⟩
      rw [List.splitOnP_cons_eq_if_modifyHead, if_neg (by simp [Token.isNewline]), hsplit,
        List.modifyHead_cons, firstLine_field]
    | comma =>
      refine ⟨L, ?_, hlines⟩
      rw [List.splitOnP_cons_eq_if_modifyHead, if_neg (by simp [Token.isNewline]), hsplit,
        List.modifyHead_cons, firstLine_comma]
    | other =>
      refine ⟨L, ?_, hlines⟩
      rw [List.splitOnP_cons_eq_if_modifyHead, if_neg (by simp [Token.isNewline]), hsplit,
        List.modifyHead_cons, firstLine_other]

theorem lines_eq_cons {ts : List (Token α)} (h : firstLine ts ≠ []) :
    lines ts = firstLine ts :: lines (afterLine ts) := by
  obtain ⟨L, hsplit, hlines⟩ := splitOnP_eq ts
  rw [lines, hsplit, List.filter_cons, hlines, if_pos]
  simpa using h

/-! ## Rows -/

/-- A row of `n + 1` fields at the start of a text, and what follows it. -/
def takeRow : ℕ → List (Token α) → Option (List α × List (Token α))
  | 0, .field v :: rest => some ([v], rest)
  | n + 1, .field v :: .comma :: rest => (takeRow n rest).map fun (row, rest) => (v :: row, rest)
  | _, _ => none

/-- The rest of a row behind a field: `m` times a comma and a field. -/
def takeRest : ℕ → List (Token α) → Option (List α × List (Token α))
  | 0, ts => some ([], ts)
  | m + 1, .comma :: ts => takeRow m ts
  | _, _ => none

/-- The number of fields of the first line. -/
def countRow : List (Token α) → Option ℕ
  | .field _ :: .comma :: rest => (countRow rest).map (· + 1)
  | [.field _] => some 1
  | .field _ :: .newline :: _ => some 1
  | _ => none

/-- The text is at the end of a line. -/
def AtEnd (ts : List (Token α)) : Prop := firstLine ts = []

theorem record_ne_nil {line : List (Token α)} {row : List α} (h : record line = some row) :
    row ≠ [] := by
  fun_cases record line with
  | case1 v =>
    simp only [record, Option.some.injEq] at h
    rw [← h]
    exact List.cons_ne_nil v []
  | case2 v rest =>
    simp only [record] at h
    obtain ⟨row', -, rfl⟩ := Option.map_eq_some_iff.mp h
    exact List.cons_ne_nil v row'
  | case3 => simp_all [record]

theorem record_field_eq {v : α} {ts : List (Token α)} {row : List α}
    (h : record (.field v :: ts) = some row) (hcomma : ∀ rest, ts ≠ .comma :: rest) :
    ts = [] ∧ row = [v] := by
  match ts with
  | [] =>
    cases h
    exact ⟨rfl, rfl⟩
  | .comma :: rest => exact absurd rfl (hcomma rest)
  | .field _ :: _ => cases h
  | .newline :: _ => cases h
  | .other :: _ => cases h

theorem exists_field_of_record {ts : List (Token α)} {row : List α}
    (h : record (firstLine ts) = some row) :
    ∃ v rest, ts = .field v :: rest ∧ record (.field v :: firstLine rest) = some row := by
  match ts with
  | .field v :: rest => exact ⟨v, rest, rfl, h⟩
  | [] => cases h
  | .newline :: _ => cases h
  | .comma :: _ => cases h
  | .other :: _ => cases h

theorem record_firstLine_field {v : α} {rest : List (Token α)} {row : List α}
    (h : record (.field v :: firstLine rest) = some row) :
    (AtEnd rest ∧ row = [v]) ∨
      ∃ rest' row', rest = .comma :: rest' ∧ record (firstLine rest') = some row' ∧
        row = v :: row' := by
  match rest with
  | .comma :: rest' =>
    rw [firstLine_comma, record_field_comma] at h
    obtain ⟨row', hrow', rfl⟩ := Option.map_eq_some_iff.mp h
    exact Or.inr ⟨rest', row', rfl, hrow', rfl⟩
  | [] => exact Or.inl (record_field_eq h (by simp))
  | .newline :: _ => exact Or.inl (record_field_eq h (by simp))
  | .field _ :: _ => exact Or.inl (record_field_eq h (by simp))
  | .other :: _ => exact Or.inl (record_field_eq h (by simp))

theorem record_singleton_of_atEnd {v : α} {rest : List (Token α)} (h : AtEnd rest) :
    record (firstLine (.field v :: rest)) = some [v] := by
  rw [firstLine_field, h, record]

/-- **Counting the fields** of the first line. -/
theorem countRow_iff {ts : List (Token α)} {n : ℕ} :
    countRow ts = some n ↔ ∃ row, record (firstLine ts) = some row ∧ row.length = n := by
  induction ts using countRow.induct generalizing n with
  | case1 v rest ih =>
    rw [countRow, Option.map_eq_some_iff, firstLine_field, firstLine_comma, record_field_comma]
    constructor
    · rintro ⟨m, hm, rfl⟩
      obtain ⟨row, hrow, hlen⟩ := ih.mp hm
      exact ⟨v :: row, by rw [hrow]; rfl, by rw [List.length_cons, hlen]⟩
    · rintro ⟨row, hrow, rfl⟩
      obtain ⟨row', hrow', rfl⟩ := Option.map_eq_some_iff.mp hrow
      exact ⟨row'.length, ih.mpr ⟨row', hrow', rfl⟩, rfl⟩
  | case2 v => simp [countRow, record]
  | case3 v rest => simp [countRow, record]
  | case4 ts hcomma hsingle hnewline =>
    have hcount : countRow ts = none := by
      rw [countRow]
      · exact hcomma
      · exact hsingle
      · exact hnewline
    rw [hcount]
    refine ⟨fun h => absurd h (by simp), ?_⟩
    rintro ⟨row, hrow, -⟩
    obtain ⟨v, rest, rfl, hrow⟩ := exists_field_of_record hrow
    rcases record_firstLine_field hrow with ⟨hend, -⟩ | ⟨rest', row', rfl, -, -⟩
    · match rest with
      | [] => exact absurd rfl (hsingle v)
      | .newline :: rest' => exact absurd rfl (hnewline v rest')
      | .comma :: _ => exact absurd hend (by simp [AtEnd])
      | .field _ :: _ => exact absurd hend (by simp [AtEnd])
      | .other :: _ => exact absurd hend (by simp [AtEnd])
    · exact absurd rfl (hcomma v rest')

theorem countRow_of_ne_field {ts : List (Token α)} (h : ∀ v rest, ts ≠ .field v :: rest) :
    countRow ts = none := by
  match ts with
  | .field v :: rest => exact absurd rfl (h v rest)
  | [] => rfl
  | .newline :: _ => rfl
  | .comma :: _ => rfl
  | .other :: _ => rfl

theorem countRow_of_atEnd {v : α} {ts : List (Token α)} (h : AtEnd ts) :
    countRow (.field v :: ts) = some 1 :=
  countRow_iff.mpr ⟨[v], record_singleton_of_atEnd h, rfl⟩

theorem countRow_of_ne_comma {v : α} {ts : List (Token α)} (h : ¬ AtEnd ts)
    (hcomma : ∀ rest, ts ≠ .comma :: rest) : countRow (.field v :: ts) = none := by
  match ts with
  | .comma :: rest => exact absurd rfl (hcomma rest)
  | [] => exact absurd rfl h
  | .newline :: _ => exact absurd rfl h
  | .field _ :: _ => rfl
  | .other :: _ => rfl

theorem afterLine_of_atEnd {ts : List (Token α)} (h : AtEnd ts) : afterLine ts = ts := by
  match ts with
  | [] => rfl
  | .newline :: _ => rfl
  | .comma :: _ => exact absurd h (by simp [AtEnd])
  | .field _ :: _ => exact absurd h (by simp [AtEnd])
  | .other :: _ => exact absurd h (by simp [AtEnd])

theorem atEnd_afterLine (ts : List (Token α)) : AtEnd (afterLine ts) := by
  induction ts with
  | nil => rfl
  | cons t ts ih =>
    cases t with
    | newline => rfl
    | field v => exact ih
    | comma => exact ih
    | other => exact ih

/-- **A row of known length**: it ends at the end of a line exactly if it is the first line. -/
theorem takeRow_iff {n : ℕ} {ts rest : List (Token α)} {row : List α} :
    takeRow n ts = some (row, rest) ∧ AtEnd rest ↔
      record (firstLine ts) = some row ∧ row.length = n + 1 ∧ rest = afterLine ts := by
  induction n generalizing ts row with
  | zero =>
    constructor
    · rintro ⟨hrow, hend⟩
      match ts with
      | .field v :: ts =>
        simp only [takeRow, Option.some.injEq, Prod.mk.injEq] at hrow
        obtain ⟨rfl, rfl⟩ := hrow
        exact ⟨record_singleton_of_atEnd hend, rfl, (afterLine_of_atEnd hend).symm⟩
    · rintro ⟨hrow, hlen, rfl⟩
      obtain ⟨v, rest, rfl, hrow⟩ := exists_field_of_record hrow
      rcases record_firstLine_field hrow with ⟨hend, rfl⟩ | ⟨rest', row', rfl, hrow', rfl⟩
      · have hafter : afterLine (.field v :: rest) = rest := afterLine_of_atEnd hend
        rw [hafter]
        exact ⟨rfl, hend⟩
      · rw [List.length_cons, Nat.add_right_cancel_iff, List.length_eq_zero_iff] at hlen
        exact absurd hlen (record_ne_nil hrow')
  | succ n ih =>
    constructor
    · rintro ⟨hrow, hend⟩
      match ts with
      | .field v :: .comma :: ts =>
        rw [takeRow, Option.map_eq_some_iff] at hrow
        obtain ⟨⟨row', rest'⟩, hrow', heq⟩ := hrow
        obtain ⟨rfl, rfl⟩ := Prod.mk.inj heq
        obtain ⟨hrec, hlen, hafter⟩ := ih.mp ⟨hrow', hend⟩
        refine ⟨?_, by rw [List.length_cons, hlen], hafter⟩
        rw [firstLine_field, firstLine_comma, record_field_comma, hrec]
        rfl
    · rintro ⟨hrow, hlen, rfl⟩
      obtain ⟨v, rest, rfl, hrow⟩ := exists_field_of_record hrow
      rcases record_firstLine_field hrow with ⟨hend, rfl⟩ | ⟨rest', row', rfl, hrow', rfl⟩
      · simp at hlen
      · rw [List.length_cons, Nat.add_right_cancel_iff] at hlen
        obtain ⟨htake, hend⟩ := ih.mpr ⟨hrow', hlen, rfl⟩
        refine ⟨?_, hend⟩
        rw [takeRow, htake]
        rfl

theorem takeRow_field (m : ℕ) (v : α) (ts : List (Token α)) :
    takeRow m (.field v :: ts) = (takeRest m ts).map fun (row, rest) => (v :: row, rest) := by
  cases m with
  | zero => rfl
  | succ m =>
    match ts with
    | .comma :: ts => rfl
    | [] => rfl
    | .newline :: _ => rfl
    | .field _ :: _ => rfl
    | .other :: _ => rfl

theorem takeRest_of_ne_comma {m : ℕ} {ts : List (Token α)} (h : ∀ rest, ts ≠ .comma :: rest) :
    takeRest (m + 1) ts = none := by
  match ts with
  | .comma :: rest => exact absurd rfl (h rest)
  | [] => rfl
  | .newline :: _ => rfl
  | .field _ :: _ => rfl
  | .other :: _ => rfl

theorem takeRow_of_ne_field {m : ℕ} {ts : List (Token α)} (h : ∀ v rest, ts ≠ .field v :: rest) :
    takeRow m ts = none := by
  match ts with
  | .field v :: rest => exact absurd rfl (h v rest)
  | [] => cases m <;> rfl
  | .newline :: _ => cases m <;> rfl
  | .comma :: _ => cases m <;> rfl
  | .other :: _ => cases m <;> rfl

end Records
end CKern
