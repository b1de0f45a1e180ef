import CKern.Memory.Memblock
import Mathlib.Data.List.Basic
import Mathlib.Data.List.Forall2
import Mathlib.Data.List.TakeWhile

/-!
# `main/tools/textdb.c`: reading a table from a text file

* `tablesize`: the number of rows and columns, with `scanheader` for the first row.
* `readrows`: the cells of the rows, into a table of that size.
* `dataLines`: the lines that are not empty and not comments.
* `Cells`: the quoted strings that a line gives for each of its cells.
* `tablesizeLoop_ok`, `rowLoop_spec`: both scans see the same lines, and the same cells.
* `readrows_spec`: no cell is written outside of the table, and each cell is what its line gives.
-/

namespace CKern
namespace Textdb

/-! ## The code -/

def charTab : UInt8 := 9

def charNewline : UInt8 := 10

def charSpace : UInt8 := 32

def charDoublequote : UInt8 := 34

def charHash : UInt8 := 35

def charQuote : UInt8 := 39

def charComma : UInt8 := 44

def isBlank (c : UInt8) : Bool := c = charSpace || c = charTab

def isQuote (c : UInt8) : Bool := c = charQuote || c = charDoublequote

/-- The characters of a name in the header. -/
def isNameChar (c : UInt8) : Bool :=
  97 ≤ c && c ≤ 122 || 65 ≤ c && c ≤ 90 || 48 ≤ c && c ≤ 57 || c = 95 || c = 45

/-- The messages that are printed before a function returns an error. -/
inductive Message
  | expectedQuote
  | wrongCharacter (c : UInt8)
  | expectedClosing (end_of_string : UInt8)
  | expectedComma (c : UInt8)
  | noDataAfterComma
  | expectedOnlyColumns (column_count : ℕ)
  | expectedValue
  | expectedColumns (column_count : ℕ)
  | outOfMemory
  deriving DecidableEq, Repr

/-- How a function stops: it prints a message, with a line number, and returns an error, or it
writes outside of its memory. -/
inductive Stop
  | print (message : Message) (line_number : ℕ)
  | outside
  deriving DecidableEq, Repr

/-- The `realloc` of the C library: a block of the size that is asked for, which starts with the
bytes of the old one. -/
structure Realloc where
  realloc : ℕ → Memblock → Option Memblock
  size_eq : ∀ {size m m'}, realloc size m = some m' → m'.size = size
  keeps : ∀ {size m m'}, realloc size m = some m' → m.size ≤ size → m.bytes <+: m'.bytes

/-- `textdb_column_t`, with the memory that `value` points to. -/
structure Column where
  value : Memblock
  length : ℕ
  allocated_memory_size : ℕ

/-- A column after `memset`. -/
def Column.zero : Column := ⟨Memblock.free, 0, 0⟩

/-- The part of `appendvalue_textdbcolumn` that makes room for a string. -/
def reserve (libc : Realloc) (line_number : ℕ) (column : Column) (str_len : ℕ) :
    Except Stop Column :=
  if column.allocated_memory_size - column.length ≤ str_len then
    let allocated_memory_size := (column.allocated_memory_size +
      if column.allocated_memory_size > str_len then column.allocated_memory_size
      else str_len + 1) % 2 ^ 64
    match libc.realloc allocated_memory_size column.value with
    | none => .error (.print .outOfMemory line_number)
    | some temp => .ok ⟨temp, column.length, allocated_memory_size⟩
  else .ok column

/-- `appendvalue_textdbcolumn`. -/
def appendvalue (libc : Realloc) (line_number : ℕ) (column : Column) (str : List UInt8) :
    Except Stop Column :=
  match reserve libc line_number column str.length with
  | .error e => .error e
  | .ok column =>
    let length := column.length + str.length
    match (column.value.store column.length str).bind fun value => value.store length [0] with
    | none => .error .outside
    | some value => .ok ⟨value, length, column.allocated_memory_size⟩

/-- `appendvalue_textdbcolumn` at a place of the table. -/
def appendAt (libc : Realloc) (line_number : ℕ) (rows : List Column) (i : ℕ) (str : List UInt8) :
    Except Stop (List Column) :=
  match rows[i]? with
  | none => .error .outside
  | some column =>
    match appendvalue libc line_number column str with
    | .error e => .error e
    | .ok column => .ok (rows.set i column)

/-- The loop that looks for the end of a line. -/
def findEndOfLine (next : List UInt8) : List UInt8 := next.dropWhile (· ≠ charNewline)

/-- The loop over the characters of a name, and what follows the closing quote. -/
def scanName (line_number : ℕ) (end_of_string : UInt8) : List UInt8 → Except Stop (List UInt8)
  | [] => .error (.print (.expectedClosing end_of_string) line_number)
  | c :: cs =>
    if c = end_of_string then .ok cs
    else if !isNameChar c then .error (.print (.wrongCharacter c) line_number)
    else scanName line_number end_of_string cs

/-- What follows a name in the header: the place where the next name starts, or none at the end of
the line. -/
def scanSeparator (line_number : ℕ) (next : List UInt8) : Except Stop (Option (List UInt8)) :=
  match next.dropWhile isBlank with
  | [] => .ok none
  | c :: cs =>
    if c = charNewline then .ok none
    else if c ≠ charComma then .error (.print (.expectedComma c) line_number)
    else
      match cs.dropWhile isBlank with
      | [] => .error (.print .noDataAfterComma line_number)
      | c :: cs =>
        if c = charNewline then .error (.print .noDataAfterComma line_number)
        else .ok (some (c :: cs))

/-- The body of the loop of `scanheader_textdb`. -/
def scanColumn (line_number : ℕ) : List UInt8 → Except Stop (Option (List UInt8))
  | [] => .ok none
  | c :: cs =>
    if !isQuote c then .error (.print .expectedQuote line_number)
    else
      match scanName line_number c cs with
      | .error e => .error e
      | .ok next => scanSeparator line_number next

theorem scanName_ok {line_number : ℕ} {q : UInt8} {cs next : List UInt8}
    (h : scanName line_number q cs = .ok next) :
    ∃ name, cs = name ++ q :: next ∧ ∀ b ∈ name, b ≠ q ∧ isNameChar b := by
  induction cs with
  | nil => cases h
  | cons c cs ih =>
    rw [scanName] at h
    split at h
    case isTrue heq =>
      cases h
      exact ⟨[], heq ▸ rfl, fun _ hb => absurd hb List.not_mem_nil⟩
    case isFalse hne =>
      split at h
      case isTrue => cases h
      case isFalse hname =>
        obtain ⟨name, rfl, hall⟩ := ih h
        rw [Bool.not_eq_true', Bool.not_eq_false] at hname
        exact ⟨c :: name, rfl, List.forall_mem_cons.mpr ⟨⟨hne, hname⟩, hall⟩⟩

theorem exists_blanks (cs : List UInt8) :
    ∃ bs, cs = bs ++ cs.dropWhile isBlank ∧ ∀ b ∈ bs, isBlank b :=
  ⟨cs.takeWhile isBlank, List.takeWhile_append_dropWhile.symm, fun _ hb =>
    List.mem_takeWhile_imp hb⟩

theorem scanSeparator_none {line_number : ℕ} {cs : List UInt8}
    (h : scanSeparator line_number cs = .ok none) :
    ∃ bs rest, cs = bs ++ rest ∧ (∀ b ∈ bs, isBlank b) ∧
      (rest = [] ∨ ∃ l, rest = charNewline :: l) := by
  obtain ⟨bs, hbs, hblank⟩ := exists_blanks cs
  refine ⟨bs, cs.dropWhile isBlank, hbs, hblank, ?_⟩
  rw [scanSeparator] at h
  split at h
  case h_1 heq => exact Or.inl heq
  case h_2 c cs₁ heq =>
    by_cases hc : c = charNewline
    · exact Or.inr ⟨cs₁, hc ▸ heq⟩
    · rw [if_neg hc] at h
      split at h
      case isTrue => cases h
      case isFalse =>
        split at h
        case h_1 => cases h
        case h_2 => split at h <;> cases h

theorem scanSeparator_some {line_number : ℕ} {cs next : List UInt8}
    (h : scanSeparator line_number cs = .ok (some next)) :
    ∃ bs bs', cs = bs ++ charComma :: (bs' ++ next) ∧ (∀ b ∈ bs, isBlank b) ∧
      ∀ b ∈ bs', isBlank b := by
  obtain ⟨bs, hbs, hblank⟩ := exists_blanks cs
  rw [scanSeparator] at h
  split at h
  case h_1 => cases h
  case h_2 c cs₁ heq =>
    by_cases hc : c = charNewline
    · rw [if_pos hc] at h
      cases h
    · rw [if_neg hc] at h
      split at h
      case isTrue => cases h
      case isFalse hcomma =>
        obtain ⟨bs', hbs', hblank'⟩ := exists_blanks cs₁
        split at h
        case h_1 => cases h
        case h_2 d cs₂ heq' =>
          split at h
          case isTrue => cases h
          case isFalse =>
            cases h
            refine ⟨bs, bs', ?_, hblank, hblank'⟩
            rw [← heq', ← hbs', ← not_not.mp hcomma, ← heq]
            exact hbs

theorem scanColumn_ok {line_number : ℕ} {cs : List UInt8} {r : Option (List UInt8)}
    (h : scanColumn line_number cs = .ok r) :
    cs = [] ∧ r = none ∨
      ∃ q name next, cs = q :: (name ++ q :: next) ∧ isQuote q ∧
        (∀ b ∈ name, b ≠ q ∧ isNameChar b) ∧ scanSeparator line_number next = .ok r := by
  cases cs with
  | nil =>
    cases h
    exact Or.inl ⟨rfl, rfl⟩
  | cons q cs =>
    rw [scanColumn] at h
    split at h
    case isTrue => cases h
    case isFalse hq =>
      rw [Bool.not_eq_true', Bool.not_eq_false] at hq
      split at h
      case h_1 => cases h
      case h_2 next hname =>
        obtain ⟨name, rfl, hall⟩ := scanName_ok hname
        exact Or.inr ⟨q, name, next, rfl, hq, hall, h⟩

theorem scanColumn_length_lt {line_number : ℕ} {cs next : List UInt8}
    (h : scanColumn line_number cs = .ok (some next)) : next.length < cs.length := by
  rcases scanColumn_ok h with ⟨-, hr⟩ | ⟨q, name, next', rfl, -, -, hsep⟩
  · cases hr
  · obtain ⟨bs, bs', rfl, -, -⟩ := scanSeparator_some hsep
    simp only [List.length_cons, List.length_append]
    omega

/-- The loop of `scanheader_textdb`. -/
def scanheaderLoop (line_number : ℕ) (next : List UInt8) (nr_cols : ℕ) : Except Stop ℕ :=
  match h : scanColumn line_number next with
  | .error e => .error e
  | .ok none => .ok nr_cols
  | .ok (some next) => scanheaderLoop line_number next (nr_cols + 1)
termination_by next.length
decreasing_by exact scanColumn_length_lt h

/-- `scanheader_textdb`: the number of columns. -/
def scanheader (line_number : ℕ) (next : List UInt8) : Except Stop ℕ :=
  scanheaderLoop line_number next 1

theorem findEndOfLine_length_le (cs : List UInt8) : (findEndOfLine cs).length ≤ cs.length :=
  (List.dropWhile_suffix _).length_le

theorem findEndOfLine_cons {c : UInt8} (h : c ≠ charNewline) (cs : List UInt8) :
    findEndOfLine (c :: cs) = findEndOfLine cs :=
  List.dropWhile_cons_of_pos (decide_eq_true h)

theorem findEndOfLine_length_lt {c : UInt8} (h : c ≠ charNewline) (cs : List UInt8) :
    (findEndOfLine (c :: cs)).length < (c :: cs).length := by
  rw [findEndOfLine_cons h]
  exact Nat.lt_succ_of_le (findEndOfLine_length_le cs)

/-- The loop of `tablesize_textdb`: the number of rows and of columns. -/
def tablesizeLoop (next : List UInt8) (line_number nr_rows nr_cols : ℕ) : Except Stop (ℕ × ℕ) :=
  match next with
  | [] => .ok (nr_rows, nr_cols)
  | c :: cs =>
    if hnewline : c = charNewline then tablesizeLoop cs (line_number + 1) nr_rows nr_cols
    else if isBlank c then tablesizeLoop cs line_number nr_rows nr_cols
    else if c = charHash then
      tablesizeLoop (findEndOfLine (c :: cs)) line_number nr_rows nr_cols
    else
      match if nr_rows = 0 then scanheader line_number (c :: cs) else .ok nr_cols with
      | .error e => .error e
      | .ok nr_cols => tablesizeLoop (findEndOfLine (c :: cs)) line_number (nr_rows + 1) nr_cols
termination_by next.length
decreasing_by
  all_goals first
    | exact findEndOfLine_length_lt hnewline cs
    | exact Nat.lt_succ_self _

/-- `tablesize_textdb`. -/
def tablesize (input_data : List UInt8) : Except Stop (ℕ × ℕ) := tablesizeLoop input_data 1 0 0

/-- The loop of `readrows_textdb` that looks for a line with data. -/
def skipToData (next : List UInt8) (line_number : ℕ) : List UInt8 × ℕ :=
  match next with
  | [] => ([], line_number)
  | c :: cs =>
    if c = charNewline then skipToData cs (line_number + 1)
    else if isBlank c then skipToData cs line_number
    else if c = charHash then skipToData (findEndOfLine cs) line_number
    else (c :: cs, line_number)
termination_by next.length
decreasing_by
  all_goals first
    | exact Nat.lt_succ_of_le (findEndOfLine_length_le cs)
    | exact Nat.lt_succ_self _

/-- The string after an opening quote, and what follows its closing quote. -/
def scanValue (line_number : ℕ) (end_of_string : UInt8) (next : List UInt8) :
    Except Stop (List UInt8 × List UInt8) :=
  match next.dropWhile fun c => c ≠ end_of_string && c ≠ charNewline with
  | [] => .error (.print (.expectedClosing end_of_string) line_number)
  | c :: cs =>
    if c ≠ end_of_string then .error (.print (.expectedClosing end_of_string) line_number)
    else .ok (next.takeWhile fun c => c ≠ end_of_string && c ≠ charNewline, cs)

theorem scanValue_ok {line_number : ℕ} {q : UInt8} {cs str next : List UInt8}
    (h : scanValue line_number q cs = .ok (str, next)) :
    cs = str ++ q :: next ∧ ∀ b ∈ str, b ≠ q ∧ b ≠ charNewline := by
  rw [scanValue] at h
  split at h
  case h_1 => cases h
  case h_2 c cs₁ heq =>
    split at h
    case isTrue => cases h
    case isFalse hc =>
      cases h
      obtain rfl := not_not.mp hc
      refine ⟨?_, fun b hb => ?_⟩
      · rw [← heq, List.takeWhile_append_dropWhile]
      · have hmem := List.mem_takeWhile_imp hb
        rwa [Bool.and_eq_true, decide_eq_true_iff, decide_eq_true_iff] at hmem

theorem scanValue_length_lt {line_number : ℕ} {q : UInt8} {cs str next : List UInt8}
    (h : scanValue line_number q cs = .ok (str, next)) : str.length + next.length < cs.length := by
  rw [(scanValue_ok h).1, List.length_append, List.length_cons]
  omega

/-- The state of the loop over a line. -/
structure Row where
  next : List UInt8
  column_index : ℕ
  isExpectData : Bool
  rows : List Column

/-- The loop of `readrows_textdb` over the content of a line. Each call of `realloc` may give
another answer. -/
def rowLoop (libc : ℕ → Realloc) (column_count row_index line_number : ℕ) (row : Row) :
    Except Stop Row :=
  match _ : row.next with
  | [] => .ok row
  | c :: cs =>
    if c = charNewline then .ok row
    else if isBlank c then rowLoop libc column_count row_index line_number { row with next := cs }
    else if c = charComma then
      if row.column_index + 1 ≥ column_count then
        .error (.print (.expectedOnlyColumns column_count) line_number)
      else
        rowLoop libc column_count row_index line_number ⟨cs, row.column_index + 1, true, row.rows⟩
    else if !isQuote c then .error (.print .expectedQuote line_number)
    else
      match _ : scanValue line_number c cs with
      | .error e => .error e
      | .ok (str, next) =>
        match appendAt (libc next.length) line_number row.rows
            ((row_index * column_count + row.column_index) % 2 ^ 64) str with
        | .error e => .error e
        | .ok rows =>
          rowLoop libc column_count row_index line_number ⟨next, row.column_index, false, rows⟩
termination_by row.next.length
decreasing_by
  all_goals rw [show row.next = c :: cs from ‹_›]
  all_goals first
    | exact Nat.lt_succ_self _
    | exact Nat.lt_succ_of_lt ((Nat.le_add_left _ _).trans_lt (scanValue_length_lt ‹_›))

theorem isBlank_ne_newline {c : UInt8} (h : isBlank c) : c ≠ charNewline := by
  rintro rfl
  exact absurd h (by decide)

theorem findEndOfLine_append {cs : List UInt8} (h : ∀ b ∈ cs, b ≠ charNewline)
    (rest : List UInt8) : findEndOfLine (cs ++ rest) = findEndOfLine rest :=
  List.dropWhile_append_of_pos fun b hb => decide_eq_true (h b hb)

theorem rowLoop_next {libc : ℕ → Realloc} {column_count row_index line_number : ℕ} {row row' : Row}
    (h : rowLoop libc column_count row_index line_number row = .ok row') :
    row'.next = findEndOfLine row.next := by
  fun_induction rowLoop libc column_count row_index line_number row with
  | case1 row hnext =>
    cases h
    rw [hnext]
    rfl
  | case2 row cs hnext =>
    cases h
    rw [hnext]
    rfl
  | case3 row c cs hnext hc _ ih =>
    rw [ih h, hnext, findEndOfLine_cons hc]
  | case4 => cases h
  | case5 row cs hcol hnext hc _ ih =>
    rw [ih h, hnext, findEndOfLine_cons hc]
  | case6 => cases h
  | case7 => cases h
  | case8 => cases h
  | case9 row c cs hnext hc _ _ hq str next hvalue rows _ ih =>
    obtain ⟨rfl, hall⟩ := scanValue_ok hvalue
    rw [ih h, hnext, findEndOfLine_cons hc, findEndOfLine_append fun b hb => (hall b hb).2,
      findEndOfLine_cons hc]

theorem skipToData_length_le (next : List UInt8) (line_number : ℕ) :
    (skipToData next line_number).1.length ≤ next.length := by
  fun_induction skipToData next line_number with
  | case1 => exact Nat.le_refl _
  | case2 _ _ ih => exact ih.trans (Nat.le_succ _)
  | case3 _ _ _ _ _ ih => exact ih.trans (Nat.le_succ _)
  | case4 _ cs _ _ ih =>
    exact (ih.trans (findEndOfLine_length_le cs)).trans (Nat.le_succ _)
  | case5 => exact Nat.le_refl _

theorem skipToData_cons {next cs : List UInt8} {line_number line_number' : ℕ} {c : UInt8}
    (h : skipToData next line_number = (c :: cs, line_number')) :
    c ≠ charNewline ∧ ¬isBlank c ∧ c ≠ charHash := by
  fun_induction skipToData next line_number with
  | case1 => cases h
  | case2 _ _ ih => exact ih h
  | case3 _ _ _ _ _ ih => exact ih h
  | case4 _ _ _ _ ih => exact ih h
  | case5 _ _ _ hnewline hblank hhash =>
    cases h
    exact ⟨hnewline, hblank, hhash⟩

/-- The loop of `readrows_textdb`. -/
def readrowsLoop (libc : ℕ → Realloc) (column_count start_column_index : ℕ) (next : List UInt8)
    (line_number row_index : ℕ) (rows : List Column) : Except Stop (ℕ × List Column) :=
  match _ : skipToData next line_number with
  | ([], _) => .ok (row_index, rows)
  | (c :: cs, line_number) =>
    match _ : rowLoop libc column_count row_index line_number
        ⟨c :: cs, start_column_index, true, rows⟩ with
    | .error e => .error e
    | .ok row =>
      if row.isExpectData then .error (.print .expectedValue line_number)
      else if row.column_index + 1 ≠ column_count then
        .error (.print (.expectedColumns column_count) line_number)
      else
        readrowsLoop libc column_count start_column_index row.next line_number (row_index + 1)
          row.rows
termination_by next.length
decreasing_by
  rw [rowLoop_next ‹_›]
  have heq : skipToData next _ = (c :: cs, line_number) := ‹_›
  refine (findEndOfLine_length_lt (skipToData_cons heq).1 cs).trans_le ?_
  exact (congrArg (fun x => x.1.length) heq).symm.trans_le (skipToData_length_le _ _)

/-- `readrows_textdb`: the number of rows that have been read, and the table. -/
def readrows (libc : ℕ → Realloc) (column_count start_column_index : ℕ) (input_data : List UInt8)
    (rows : List Column) : Except Stop (ℕ × List Column) :=
  readrowsLoop libc column_count start_column_index input_data 1 0 rows

/-! ## Columns -/

/-- What a function computes has a property, unless it prints a message. It does not write outside
of its memory. -/
def Returns {α : Type} (P : α → Prop) : Except Stop α → Prop
  | .error e => e ≠ .outside
  | .ok a => P a

theorem Returns.imp {α : Type} {P Q : α → Prop} {r : Except Stop α} (h : Returns P r)
    (hPQ : ∀ a, P a → Q a) : Returns Q r := by
  cases r with
  | error e => exact h
  | ok a => exact hPQ a h

/-- The string of a column. -/
def Column.text (column : Column) : List UInt8 := column.value.bytes.take column.length

/-- A column owns the memory that it counts, and its string ends with a null byte. -/
structure Column.Valid (column : Column) : Prop where
  size_eq : column.value.size = column.allocated_memory_size
  size_le : column.allocated_memory_size ≤ 2 * column.length + 1
  terminated : column.allocated_memory_size = 0 ∧ column.length = 0 ∨
    column.length < column.allocated_memory_size ∧ column.value.bytes[column.length]? = some 0

theorem Column.zero_valid : Column.zero.Valid := ⟨rfl, Nat.zero_le _, Or.inl ⟨rfl, rfl⟩⟩

namespace Column.Valid

theorem length_le {column : Column} (h : column.Valid) : column.length ≤ column.value.size := by
  rw [h.size_eq]
  rcases h.terminated with ⟨-, hlength⟩ | ⟨hlt, -⟩
  · rw [hlength]
    exact Nat.zero_le _
  · exact hlt.le

theorem text_length {column : Column} (h : column.Valid) : column.text.length = column.length :=
  List.length_take_of_le h.length_le

end Column.Valid

/-- The room that `reserve` makes. -/
structure Reserved (str_len : ℕ) (column column' : Column) : Prop where
  length_eq : column'.length = column.length
  text_eq : column'.text = column.text
  size_eq : column'.value.size = column'.allocated_memory_size
  lt_size : column.length + str_len < column'.allocated_memory_size
  size_le : column'.allocated_memory_size ≤ 2 * (column.length + str_len) + 1

theorem reserve_spec {libc : Realloc} {line_number str_len : ℕ} {column : Column}
    (h : column.Valid) (hfits : 2 * (column.length + str_len) + 1 < 2 ^ 64) :
    Returns (Reserved str_len column) (reserve libc line_number column str_len) := by
  have hsize := h.size_eq
  have hle := h.size_le
  have hlen := h.length_le
  rw [reserve]
  by_cases hroom : column.allocated_memory_size - column.length ≤ str_len
  · rw [if_pos hroom]
    -- the new size, and that it does not wrap
    obtain ⟨size, hsize'⟩ : ∃ size, size = column.allocated_memory_size +
        if column.allocated_memory_size > str_len then column.allocated_memory_size
        else str_len + 1 := ⟨_, rfl⟩
    have hbounds : column.allocated_memory_size ≤ size ∧ column.length + str_len < size ∧
        size ≤ 2 * (column.length + str_len) + 1 := by
      split at hsize' <;> omega
    rw [← hsize', Nat.mod_eq_of_lt (hbounds.2.2.trans_lt hfits)]
    dsimp only
    cases hrealloc : libc.realloc size column.value with
    | none => nofun
    | some temp =>
      obtain ⟨l, hl⟩ := libc.keeps hrealloc (hsize.trans_le hbounds.1)
      refine ⟨rfl, ?_, libc.size_eq hrealloc, hbounds.2.1, hbounds.2.2⟩
      calc temp.bytes.take column.length = (column.value.bytes ++ l).take column.length := by
            rw [hl]
        _ = column.text := List.take_append_of_le_length hlen
  · rw [if_neg hroom]
    exact ⟨rfl, rfl, hsize, by omega, by omega⟩

theorem appendvalue_spec {libc : Realloc} {line_number : ℕ} {column : Column} {str : List UInt8}
    (h : column.Valid) (hfits : 2 * (column.length + str.length) + 1 < 2 ^ 64) :
    Returns (fun column' => column'.Valid ∧ column'.text = column.text ++ str)
      (appendvalue libc line_number column str) := by
  have hreserve : Returns (Reserved str.length column)
      (reserve libc line_number column str.length) := reserve_spec h hfits
  rw [appendvalue]
  cases hcolumn : reserve libc line_number column str.length with
  | error e =>
    rw [hcolumn] at hreserve
    exact hreserve
  | ok column' =>
    rw [hcolumn] at hreserve
    obtain ⟨hlength, htext, hsize, hlt, hle⟩ := hreserve
    rw [← hlength] at hlt hle
    have hstore : column'.length + str.length ≤ column'.value.size := hlt.le.trans_eq hsize.symm
    have hsize₁ : (column'.value.written column'.length str).size = column'.value.size :=
      Memblock.written_size hstore
    have hstore₁ : column'.length + str.length + [(0 : UInt8)].length ≤
        (column'.value.written column'.length str).size :=
      (Nat.succ_le_of_lt hlt).trans_eq (hsize₁.trans hsize).symm
    dsimp only
    rw [Memblock.store_eq hstore, Option.bind_some, Memblock.store_eq hstore₁]
    have hle₁ := (Nat.le_add_right _ _).trans hstore₁
    refine ⟨⟨?_, hle, Or.inr ⟨hlt, Memblock.written_getElem?_cons hle₁⟩⟩, ?_⟩
    · exact (Memblock.written_size hstore₁).trans (hsize₁.trans hsize)
    · calc _ = (column'.value.written column'.length str).bytes.take
              (column'.length + str.length) := Memblock.written_take_of_le hle₁ (Nat.le_refl _)
        _ = column'.text ++ str :=
            Memblock.written_take ((Nat.le_add_right _ _).trans hstore)
        _ = column.text ++ str := by rw [htext]

/-! ## Lines -/

/-- The rest of the line. -/
def lineOf (next : List UInt8) : List UInt8 := next.takeWhile (· ≠ charNewline)

theorem lineOf_cons {c : UInt8} (h : c ≠ charNewline) (cs : List UInt8) :
    lineOf (c :: cs) = c :: lineOf cs :=
  List.takeWhile_cons_of_pos (decide_eq_true h)

theorem lineOf_append {cs : List UInt8} (h : ∀ b ∈ cs, b ≠ charNewline) (rest : List UInt8) :
    lineOf (cs ++ rest) = cs ++ lineOf rest :=
  List.takeWhile_append_of_pos fun b hb => decide_eq_true (h b hb)

/-- **The strings that a line gives for each of its cells**. The cells are divided by commas. A
string is in single or double quotes, and does not cross the line. Blanks are ignored. -/
inductive Cells : List UInt8 → List (List (List UInt8)) → Prop
  | nil : Cells [] [[]]
  | blank {c : UInt8} {cs : List UInt8} {xs : List (List (List UInt8))} (hblank : isBlank c)
      (h : Cells cs xs) : Cells (c :: cs) xs
  | comma {cs : List UInt8} {xs : List (List (List UInt8))} (h : Cells cs xs) :
      Cells (charComma :: cs) ([] :: xs)
  | string {q : UInt8} {str cs : List UInt8} {x : List (List UInt8)}
      {xs : List (List (List UInt8))} (hq : isQuote q) (hstr : ∀ b ∈ str, b ≠ q ∧ b ≠ charNewline)
      (h : Cells cs (x :: xs)) : Cells (q :: (str ++ q :: cs)) ((str :: x) :: xs)

theorem Cells.blanks {bs cs : List UInt8} {xs : List (List (List UInt8))}
    (hbs : ∀ b ∈ bs, isBlank b) (h : Cells cs xs) : Cells (bs ++ cs) xs := by
  induction bs with
  | nil => exact h
  | cons b bs ih =>
    rw [List.forall_mem_cons] at hbs
    exact .blank hbs.1 (ih hbs.2)

theorem Cells.exists_cons {line : List UInt8} {xs : List (List (List UInt8))} (h : Cells line xs) :
    ∃ x xs', xs = x :: xs' := by
  induction h with
  | nil => exact ⟨_, _, rfl⟩
  | blank _ _ ih => exact ih
  | comma => exact ⟨_, _, rfl⟩
  | string => exact ⟨_, _, rfl⟩

theorem isQuote_ne_newline {c : UInt8} (h : isQuote c) : c ≠ charNewline := by
  rintro rfl
  exact absurd h (by decide)

theorem ne_newline_of_name {q : UInt8} {name : List UInt8}
    (h : ∀ b ∈ name, b ≠ q ∧ isNameChar b) : ∀ b ∈ name, b ≠ q ∧ b ≠ charNewline := by
  refine fun b hb => ⟨(h b hb).1, ?_⟩
  rintro rfl
  exact absurd (h _ hb).2 (by decide)

theorem Cells.lineOf_string {q : UInt8} {str next : List UInt8} {x : List (List UInt8)}
    {xs : List (List (List UInt8))} (hq : isQuote q)
    (hstr : ∀ b ∈ str, b ≠ q ∧ b ≠ charNewline) (h : Cells (lineOf next) (x :: xs)) :
    Cells (lineOf (q :: (str ++ q :: next))) ((str :: x) :: xs) := by
  have hne := isQuote_ne_newline hq
  rw [lineOf_cons hne, lineOf_append fun b hb => (hstr b hb).2, lineOf_cons hne]
  exact .string hq hstr h

theorem Cells.lineOf_blanks {bs next : List UInt8} {xs : List (List (List UInt8))}
    (hbs : ∀ b ∈ bs, isBlank b) (h : Cells (lineOf next) xs) : Cells (lineOf (bs ++ next)) xs := by
  rw [lineOf_append fun b hb => isBlank_ne_newline (hbs b hb)]
  exact h.blanks hbs

theorem scanName_error {line_number : ℕ} {q : UInt8} {cs : List UInt8} {e : Stop}
    (h : scanName line_number q cs = .error e) : e ≠ .outside := by
  induction cs with
  | nil =>
    cases h
    nofun
  | cons c cs ih =>
    rw [scanName] at h
    split at h
    case isTrue => cases h
    case isFalse =>
      split at h
      case isTrue =>
        cases h
        nofun
      case isFalse => exact ih h

theorem scanSeparator_error {line_number : ℕ} {cs : List UInt8} {e : Stop}
    (h : scanSeparator line_number cs = .error e) : e ≠ .outside := by
  rw [scanSeparator] at h
  repeat' split at h
  all_goals
    cases h
    try nofun

theorem scanColumn_error {line_number : ℕ} {cs : List UInt8} {e : Stop}
    (h : scanColumn line_number cs = .error e) : e ≠ .outside := by
  cases cs with
  | nil => cases h
  | cons c cs =>
    rw [scanColumn] at h
    split at h
    case isTrue =>
      cases h
      nofun
    case isFalse =>
      split at h
      case h_1 hname =>
        cases h
        exact scanName_error hname
      case h_2 => exact scanSeparator_error h

theorem scanheaderLoop_error {line_number nr_cols : ℕ} {next : List UInt8} {e : Stop}
    (h : scanheaderLoop line_number next nr_cols = .error e) : e ≠ .outside := by
  fun_induction scanheaderLoop line_number next nr_cols with
  | case1 _ _ _ hcolumn =>
    cases h
    exact scanColumn_error hcolumn
  | case2 => cases h
  | case3 _ _ _ _ ih => exact ih h

theorem scanheaderLoop_ok {line_number nr_cols n : ℕ} {next : List UInt8}
    (h : scanheaderLoop line_number next nr_cols = .ok n) :
    ∃ xs, Cells (lineOf next) xs ∧ n + 1 = nr_cols + xs.length := by
  fun_induction scanheaderLoop line_number next nr_cols with
  | case1 => cases h
  | case2 next nr_cols hcolumn =>
    cases h
    rcases scanColumn_ok hcolumn with ⟨rfl, -⟩ | ⟨q, name, next', rfl, hq, hname, hsep⟩
    · exact ⟨_, .nil, rfl⟩
    · obtain ⟨bs, rest, rfl, hblank, hrest⟩ := scanSeparator_none hsep
      have hend : Cells (lineOf rest) [[]] := by
        rcases hrest with rfl | ⟨l, rfl⟩ <;> exact .nil
      exact ⟨_, .lineOf_string hq (ne_newline_of_name hname) (hend.lineOf_blanks hblank), rfl⟩
  | case3 next nr_cols next' hcolumn ih =>
    obtain ⟨xs, hcells, hlength⟩ := ih h
    rcases scanColumn_ok hcolumn with ⟨-, hr⟩ | ⟨q, name, next₁, rfl, hq, hname, hsep⟩
    · cases hr
    · obtain ⟨bs, bs', rfl, hblank, hblank'⟩ := scanSeparator_some hsep
      have hcomma : Cells (lineOf (charComma :: (bs' ++ next'))) ([] :: xs) := by
        rw [lineOf_cons (by decide)]
        exact .comma (hcells.lineOf_blanks hblank')
      refine ⟨_, .lineOf_string hq (ne_newline_of_name hname) (hcomma.lineOf_blanks hblank), ?_⟩
      rw [hlength, List.length_cons]
      omega

/-- A line that is not empty and not a comment. -/
def isData (line : List UInt8) : Bool := line ≠ [] && line.head? ≠ some charHash

/-- The data lines among some lines, without the blanks at their start. -/
def dataOf (lines : List (List UInt8)) : List (List UInt8) :=
  (lines.map (·.dropWhile isBlank)).filter isData

/-- **The data lines of a file**: the lines, without the blanks at their start, that are not empty
and do not start with a hash. -/
def dataLines (content : List UInt8) : List (List UInt8) := dataOf (content.splitOn charNewline)

theorem dataOf_cons_of_pos {line : List UInt8} (h : isData (line.dropWhile isBlank))
    (lines : List (List UInt8)) :
    dataOf (line :: lines) = line.dropWhile isBlank :: dataOf lines :=
  List.filter_cons_of_pos h

theorem dataOf_cons_of_neg {line : List UInt8} (h : ¬isData (line.dropWhile isBlank))
    (lines : List (List UInt8)) : dataOf (line :: lines) = dataOf lines :=
  List.filter_cons_of_neg h

theorem dataLines_newline (cs : List UInt8) : dataLines (charNewline :: cs) = dataLines cs := by
  rw [dataLines, List.splitOn_cons_eq_if_modifyHead, if_pos (beq_self_eq_true _)]
  exact dataOf_cons_of_neg (by decide) _

theorem splitOn_eq (cs : List UInt8) :
    ∃ lines, cs.splitOn charNewline = lineOf cs :: lines ∧
      dataLines (findEndOfLine cs) = dataOf lines := by
  induction cs with
  | nil => exact ⟨[], rfl, rfl⟩
  | cons c cs ih =>
    rw [List.splitOn_cons_eq_if_modifyHead]
    by_cases hc : c = charNewline
    · subst hc
      rw [if_pos (beq_self_eq_true _)]
      exact ⟨_, rfl, dataLines_newline cs⟩
    · obtain ⟨lines, hsplit, hdata⟩ := ih
      rw [if_neg fun h => hc (eq_of_beq h), hsplit, lineOf_cons hc, findEndOfLine_cons hc]
      exact ⟨lines, rfl, hdata⟩

theorem dataLines_blank {c : UInt8} (h : isBlank c) (cs : List UInt8) :
    dataLines (c :: cs) = dataLines cs := by
  obtain ⟨lines, hsplit, -⟩ := splitOn_eq cs
  have hc := isBlank_ne_newline h
  rw [dataLines, dataLines, List.splitOn_cons_eq_if_modifyHead,
    if_neg fun heq => hc (eq_of_beq heq), hsplit, List.modifyHead_cons, dataOf, List.map_cons,
    List.dropWhile_cons_of_pos h]
  rfl

theorem dataLines_line {c : UInt8} (hnewline : c ≠ charNewline) (hblank : ¬isBlank c)
    (cs : List UInt8) :
    dataLines (c :: cs) =
      if c = charHash then dataLines (findEndOfLine (c :: cs))
      else lineOf (c :: cs) :: dataLines (findEndOfLine (c :: cs)) := by
  obtain ⟨lines, hsplit, hdata⟩ := splitOn_eq (c :: cs)
  have hdrop : (lineOf (c :: cs)).dropWhile isBlank = lineOf (c :: cs) := by
    rw [lineOf_cons hnewline, List.dropWhile_cons_of_neg hblank]
  have hisData : isData (lineOf (c :: cs)) ↔ c ≠ charHash := by
    rw [lineOf_cons hnewline, isData]
    simp
  rw [dataLines, hsplit, hdata]
  split
  case isTrue hhash =>
    exact dataOf_cons_of_neg (by rw [hdrop, hisData]; exact not_not.mpr hhash) lines
  case isFalse hhash =>
    rw [dataOf_cons_of_pos (by rw [hdrop, hisData]; exact hhash), hdrop]

/-- **The number of rows is the number of data lines, and the columns are those of the first of
them.** -/
theorem tablesizeLoop_ok {next : List UInt8} {line_number nr_rows nr_cols rows cols : ℕ}
    (h : tablesizeLoop next line_number nr_rows nr_cols = .ok (rows, cols)) :
    rows = nr_rows + (dataLines next).length ∧ (nr_rows ≠ 0 → cols = nr_cols) ∧
      (nr_rows = 0 → ∀ header ∈ (dataLines next).head?, ∃ xs,
        Cells header xs ∧ xs.length = cols) := by
  fun_induction tablesizeLoop next line_number nr_rows nr_cols with
  | case1 =>
    cases h
    exact ⟨rfl, fun _ => rfl, fun _ _ hh => nomatch hh⟩
  | case2 _ _ _ cs ih =>
    rw [dataLines_newline]
    exact ih h
  | case3 _ _ _ c cs _ hblank ih =>
    rw [dataLines_blank hblank]
    exact ih h
  | case4 _ _ _ cs hnewline hblank ih =>
    rw [dataLines_line hnewline hblank, if_pos rfl]
    exact ih h
  | case5 => cases h
  | case6 line_number nr_rows nr_cols c cs hnewline hblank hhash nr_cols' hheader ih =>
    obtain ⟨hrows, hcols, -⟩ := ih h
    have hcols := hcols (Nat.succ_ne_zero _)
    rw [dataLines_line hnewline hblank, if_neg hhash]
    refine ⟨?_, fun hne => ?_, fun hzero header hmem => ?_⟩
    · rw [hrows, List.length_cons]
      omega
    · rw [dif_neg hne] at hheader
      cases hheader
      exact hcols
    · rw [dif_pos hzero] at hheader
      cases hmem
      obtain ⟨xs, hcells, hlength⟩ := scanheaderLoop_ok hheader
      exact ⟨xs, hcells, by omega⟩

theorem tablesizeLoop_error {next : List UInt8} {line_number nr_rows nr_cols : ℕ} {e : Stop}
    (h : tablesizeLoop next line_number nr_rows nr_cols = .error e) : e ≠ .outside := by
  fun_induction tablesizeLoop next line_number nr_rows nr_cols with
  | case1 => cases h
  | case2 _ _ _ _ ih => exact ih h
  | case3 _ _ _ _ _ _ _ ih => exact ih h
  | case4 _ _ _ _ _ _ ih => exact ih h
  | case5 _ nr_rows _ _ _ _ _ _ _ hheader =>
    cases h
    split at hheader
    case isTrue => exact scanheaderLoop_error hheader
    case isFalse => cases hheader
  | case6 _ _ _ _ _ _ _ _ _ _ ih => exact ih h

/-! ## Rows -/

/-- The columns of a table are valid, and hold the strings of a function. -/
def Holds (rows : List Column) (f : ℕ → List UInt8) : Prop :=
  ∀ i column, rows[i]? = some column → column.Valid ∧ column.text = f i

theorem appendAt_spec {libc : Realloc} {line_number i : ℕ} {rows : List Column}
    {str : List UInt8} {f : ℕ → List UInt8} (h : Holds rows f) (hi : i < rows.length)
    (hfits : 2 * ((f i).length + str.length) + 1 < 2 ^ 64) :
    Returns (fun rows' => rows'.length = rows.length ∧
      Holds rows' (Function.update f i (f i ++ str))) (appendAt libc line_number rows i str) := by
  obtain ⟨hvalid, htext⟩ := h i _ (List.getElem?_eq_getElem hi)
  rw [← htext, hvalid.text_length] at hfits
  have happend : Returns (fun column => column.Valid ∧ column.text = rows[i].text ++ str)
      (appendvalue libc line_number rows[i] str) := appendvalue_spec hvalid hfits
  rw [appendAt, List.getElem?_eq_getElem hi]
  dsimp only
  cases hcolumn : appendvalue libc line_number rows[i] str with
  | error e =>
    rw [hcolumn] at happend
    exact happend
  | ok column =>
    rw [hcolumn, htext] at happend
    refine ⟨List.length_set, fun j column' hj => ?_⟩
    by_cases hij : i = j
    · subst hij
      rw [List.getElem?_set_self hi] at hj
      cases hj
      rwa [Function.update_self]
    · rw [List.getElem?_set_ne hij] at hj
      rw [Function.update_of_ne (Ne.symm hij)]
      exact h j column' hj

/-- The strings of a table after the cells of a line have been appended. -/
def addRow (f : ℕ → List UInt8) (i : ℕ) (xs : List (List (List UInt8))) : ℕ → List UInt8 :=
  fun k => if i ≤ k then f k ++ (xs.getD (k - i) []).flatten else f k

theorem addRow_nil (f : ℕ → List UInt8) (i : ℕ) : addRow f i [[]] = f := by
  funext k
  rw [addRow]
  split
  case isTrue =>
    cases k - i with
    | zero => exact List.append_nil _
    | succ n => exact List.append_nil _
  case isFalse => rfl

theorem addRow_comma (f : ℕ → List UInt8) (i : ℕ) (xs : List (List (List UInt8))) :
    addRow f i ([] :: xs) = addRow f (i + 1) xs := by
  funext k
  rw [addRow, addRow]
  rcases lt_trichotomy i k with hlt | rfl | hgt
  · rw [if_pos hlt.le, if_pos (Nat.succ_le_of_lt hlt), show k - i = (k - (i + 1)) + 1 by omega,
      List.getD_cons_succ]
  · rw [if_pos le_rfl, if_neg (Nat.not_succ_le_self i), Nat.sub_self]
    exact List.append_nil _
  · rw [if_neg hgt.not_ge, if_neg fun hle => (Nat.lt_of_succ_le hle).not_gt hgt]

theorem addRow_string (f : ℕ → List UInt8) (i : ℕ) (str : List UInt8) (x : List (List UInt8))
    (xs : List (List (List UInt8))) :
    addRow f i ((str :: x) :: xs) = addRow (Function.update f i (f i ++ str)) i (x :: xs) := by
  funext k
  rw [addRow, addRow]
  by_cases hki : k = i
  · subst hki
    rw [if_pos le_rfl, if_pos le_rfl, Nat.sub_self, Function.update_self, List.getD_cons_zero,
      List.getD_cons_zero, List.flatten_cons, List.append_assoc]
  · rw [Function.update_of_ne hki]
    split
    case isTrue hle =>
      rw [show k - i = (k - i - 1) + 1 by omega, List.getD_cons_succ, List.getD_cons_succ]
    case isFalse => rfl

theorem scanValue_error {line_number : ℕ} {q : UInt8} {cs : List UInt8} {e : Stop}
    (h : scanValue line_number q cs = .error e) : e ≠ .outside := by
  rw [scanValue] at h
  split at h
  case h_1 =>
    cases h
    nofun
  case h_2 =>
    split at h
    case isTrue =>
      cases h
      nofun
    case isFalse => cases h

/-- The loop over a line works on a row of the table, and the memory suffices for the strings of
the rest of the file. -/
structure Ready (column_count row_index : ℕ) (f : ℕ → List UInt8) (row : Row) : Prop where
  holds : Holds row.rows f
  column_lt : row.column_index < column_count
  row_le : row_index * column_count + column_count ≤ row.rows.length
  length_lt : row.rows.length < 2 ^ 64
  fits : ∀ k, row_index * column_count + row.column_index ≤ k →
    k < row_index * column_count + column_count →
    2 * ((f k).length + row.next.length) + 1 < 2 ^ 64

namespace Ready

variable {column_count row_index : ℕ} {f : ℕ → List UInt8} {row : Row}

theorem advance (h : Ready column_count row_index f row) {next : List UInt8}
    {column_index : ℕ} (hnext : next.length ≤ row.next.length)
    (hle : row.column_index ≤ column_index) (hlt : column_index < column_count)
    (isExpectData : Bool) :
    Ready column_count row_index f ⟨next, column_index, isExpectData, row.rows⟩ := by
  refine ⟨h.holds, hlt, h.row_le, h.length_lt, fun k hk hk' => ?_⟩
  have hfits := h.fits k ((Nat.add_le_add_left hle _).trans hk) hk'
  dsimp only
  omega

theorem append (h : Ready column_count row_index f row) (libc : Realloc) (line_number : ℕ)
    {str next : List UInt8} (hnext : str.length + next.length < row.next.length) :
    Returns (fun rows => rows.length = row.rows.length ∧
      Ready column_count row_index
        (Function.update f (row_index * column_count + row.column_index)
          (f (row_index * column_count + row.column_index) ++ str))
        ⟨next, row.column_index, false, rows⟩)
      (appendAt libc line_number row.rows
        ((row_index * column_count + row.column_index) % 2 ^ 64) str) := by
  obtain ⟨hholds, hcolumn, hrow, hlength, hfits⟩ := h
  obtain ⟨i, hi⟩ : ∃ i, i = row_index * column_count + row.column_index := ⟨_, rfl⟩
  rw [← hi] at hfits ⊢
  have hilt : i < row_index * column_count + column_count := by omega
  have hilen : i < row.rows.length := by omega
  have hfits_i := hfits i le_rfl hilt
  rw [Nat.mod_eq_of_lt (hilen.trans hlength)]
  refine (appendAt_spec hholds hilen (by omega)).imp fun rows ⟨hlen, hholds'⟩ => ?_
  refine ⟨hlen, hholds', hcolumn, hrow.trans_eq hlen.symm, hlen.trans_lt hlength,
    fun k hk hk' => ?_⟩
  rw [← hi] at hk
  dsimp only
  by_cases hki : k = i
  · rw [hki, Function.update_self, List.length_append]
    omega
  · have hfits_k := hfits k hk hk'
    rw [Function.update_of_ne hki]
    omega

end Ready

/-- What the loop over a line does to the table. -/
structure RowDone (column_count row_index : ℕ) (f : ℕ → List UInt8) (row row' : Row)
    (xs : List (List (List UInt8))) : Prop where
  cells : Cells (lineOf row.next) xs
  column_eq : row'.column_index + 1 = row.column_index + xs.length
  length_eq : row'.rows.length = row.rows.length
  holds : Holds row'.rows (addRow f (row_index * column_count + row.column_index) xs)

/-- **The loop over a line**: it writes into the cells of its row only, and appends to each of them
the strings that the line gives for it. -/
theorem rowLoop_spec (libc : ℕ → Realloc) (line_number : ℕ) {column_count row_index : ℕ}
    {row : Row} {f : ℕ → List UInt8} (hready : Ready column_count row_index f row) :
    Returns (fun row' => ∃ xs, RowDone column_count row_index f row row' xs)
      (rowLoop libc column_count row_index line_number row) := by
  fun_induction rowLoop libc column_count row_index line_number row generalizing f with
  | case1 row hnext =>
    refine ⟨[[]], ?_, rfl, rfl, ?_⟩
    · rw [hnext]
      exact .nil
    · rw [addRow_nil]
      exact hready.holds
  | case2 row cs hnext =>
    refine ⟨[[]], ?_, rfl, rfl, ?_⟩
    · rw [hnext]
      exact .nil
    · rw [addRow_nil]
      exact hready.holds
  | case3 row c cs hnext hc hblank ih =>
    have hle : cs.length ≤ row.next.length := by
      rw [hnext]
      exact Nat.le_succ _
    refine (ih (hready.advance hle le_rfl hready.column_lt row.isExpectData)).imp
      fun row' ⟨xs, hdone⟩ => ⟨xs, ?_, hdone.column_eq, hdone.length_eq, hdone.holds⟩
    rw [hnext, lineOf_cons hc]
    exact .blank hblank hdone.cells
  | case4 => nofun
  | case5 row cs hcol hnext hc _ ih =>
    have hle : cs.length ≤ row.next.length := by
      rw [hnext]
      exact Nat.le_succ _
    refine (ih (hready.advance hle (Nat.le_succ _) (not_le.mp hcol) true)).imp
      fun row' ⟨xs, hdone⟩ => ⟨[] :: xs, ?_, ?_, hdone.length_eq, ?_⟩
    · rw [hnext, lineOf_cons hc]
      exact .comma hdone.cells
    · have hcolumn := hdone.column_eq
      dsimp only at hcolumn
      rw [hcolumn, List.length_cons]
      omega
    · rw [addRow_comma]
      exact hdone.holds
  | case6 => nofun
  | case7 _ _ _ _ _ _ _ _ e hvalue => exact scanValue_error hvalue
  | case8 row c cs hnext _ _ _ _ str next hvalue e happend =>
    have hlt : str.length + next.length < row.next.length := by
      rw [hnext]
      exact Nat.lt_succ_of_lt (scanValue_length_lt hvalue)
    have h := hready.append (libc next.length) line_number hlt
    rw [happend] at h
    exact h
  | case9 row c cs hnext hc _ _ hq str next hvalue rows happend ih =>
    have hlt : str.length + next.length < row.next.length := by
      rw [hnext]
      exact Nat.lt_succ_of_lt (scanValue_length_lt hvalue)
    have h := hready.append (libc next.length) line_number hlt
    rw [happend] at h
    obtain ⟨hlen, hready'⟩ := h
    rw [Bool.not_eq_true', Bool.not_eq_false] at hq
    obtain ⟨rfl, hstr⟩ := scanValue_ok hvalue
    refine (ih hready').imp fun row' ⟨xs, hdone⟩ => ?_
    obtain ⟨x, xs, rfl⟩ := hdone.cells.exists_cons
    refine ⟨(str :: x) :: xs, ?_, hdone.column_eq, hdone.length_eq.trans hlen, ?_⟩
    · rw [hnext]
      exact .lineOf_string hq hstr hdone.cells
    · rw [addRow_string]
      exact hdone.holds

/-! ## The table -/

theorem addRow_of_lt {f : ℕ → List UInt8} {i k : ℕ} {xs : List (List (List UInt8))} (h : k < i) :
    addRow f i xs k = f k :=
  if_neg h.not_ge

theorem addRow_of_le {f : ℕ → List UInt8} {i k : ℕ} {xs : List (List (List UInt8))}
    (h : i + xs.length ≤ k) : addRow f i xs k = f k := by
  rw [addRow, if_pos ((Nat.le_add_right _ _).trans h), List.getD_eq_getElem?_getD,
    List.getElem?_eq_none (by omega)]
  exact List.append_nil _

/-- The strings of a table after lines have been appended to rows with `n` columns. -/
def addRows (f : ℕ → List UInt8) (i n : ℕ) : List (List (List (List UInt8))) → ℕ → List UInt8
  | [] => f
  | xs :: xss => addRows (addRow f i xs) (i + n) n xss

theorem addRows_of_lt {n : ℕ} {xss : List (List (List (List UInt8)))} {f : ℕ → List UInt8}
    {i k : ℕ} (h : k < i) : addRows f i n xss k = f k := by
  induction xss generalizing f i with
  | nil => rfl
  | cons xs xss ih =>
    rw [addRows, ih (h.trans_le (Nat.le_add_right _ _)), addRow_of_lt h]

theorem addRows_apply {n : ℕ} {xss : List (List (List (List UInt8)))} {f : ℕ → List UInt8}
    {i a b : ℕ} {xs : List (List (List UInt8))} {x : List (List UInt8)}
    (hn : ∀ xs ∈ xss, xs.length ≤ n) (hxs : xss[a]? = some xs) (hx : xs[b]? = some x) :
    addRows f i n xss (i + a * n + b) = f (i + a * n + b) ++ x.flatten := by
  induction xss generalizing f i a with
  | nil => cases hxs
  | cons ys xss ih =>
    obtain ⟨hys, hn⟩ := List.forall_mem_cons.mp hn
    cases a with
    | zero =>
      cases hxs
      have hb : b < xs.length := (List.getElem?_eq_some_iff.mp hx).1
      rw [Nat.zero_mul, Nat.add_zero, addRows, addRows_of_lt (by omega), addRow,
        if_pos (Nat.le_add_right _ _), Nat.add_sub_cancel_left, List.getD_eq_getElem?_getD, hx]
      rfl
    | succ a =>
      have hk : i + (a + 1) * n + b = i + n + a * n + b := by
        rw [Nat.succ_mul]
        omega
      rw [addRows, hk, ih hn hxs, addRow_of_le (by omega)]

theorem dataLines_skipToData (next : List UInt8) (line_number : ℕ) :
    dataLines (skipToData next line_number).1 = dataLines next := by
  fun_induction skipToData next line_number with
  | case1 => rfl
  | case2 _ cs ih => rw [ih, dataLines_newline]
  | case3 _ c cs _ hblank ih => rw [ih, dataLines_blank hblank]
  | case4 _ cs hnewline hblank ih =>
    rw [ih, dataLines_line hnewline hblank, if_pos rfl, findEndOfLine_cons hnewline]
  | case5 => rfl

theorem dataLines_of_skipToData {next cs : List UInt8} {line_number line_number' : ℕ} {c : UInt8}
    (h : skipToData next line_number = (c :: cs, line_number')) :
    dataLines next = lineOf (c :: cs) :: dataLines (findEndOfLine (c :: cs)) := by
  obtain ⟨hnewline, hblank, hhash⟩ := skipToData_cons h
  rw [← dataLines_skipToData next line_number, h]
  exact (dataLines_line hnewline hblank cs).trans (if_neg hhash)

/-- The table has room for the rows that are left, and no data in them. -/
structure Unread (column_count start row_index : ℕ) (f : ℕ → List UInt8) (next : List UInt8)
    (rows : List Column) : Prop where
  holds : Holds rows f
  start_lt : dataLines next ≠ [] → start < column_count
  rows_le : (row_index + (dataLines next).length) * column_count ≤ rows.length
  length_lt : rows.length < 2 ^ 64
  next_lt : next.length < 2 ^ 63
  empty : ∀ i j, row_index ≤ i → start ≤ j → j < column_count → f (i * column_count + j) = []

namespace Unread

variable {column_count start row_index line_number line_number' : ℕ} {f : ℕ → List UInt8}
  {next cs : List UInt8} {rows : List Column} {c : UInt8}

theorem ready (h : Unread column_count start row_index f next rows)
    (hskip : skipToData next line_number = (c :: cs, line_number')) :
    Ready column_count row_index f ⟨c :: cs, start, true, rows⟩ := by
  obtain ⟨hholds, hstart, hrows, hlength, hnext, hempty⟩ := h
  have hle : (c :: cs).length ≤ next.length := by
    have hle := skipToData_length_le next line_number
    rwa [hskip] at hle
  rw [dataLines_of_skipToData hskip] at hstart hrows
  refine ⟨hholds, hstart (List.cons_ne_nil _ _), le_trans ?_ hrows, hlength, fun k hk hk' => ?_⟩
  · rw [← Nat.succ_mul]
    refine Nat.mul_le_mul_right _ ?_
    rw [List.length_cons]
    omega
  · dsimp only at hk hk' ⊢
    obtain ⟨j, rfl⟩ := Nat.exists_eq_add_of_le ((Nat.le_add_right _ _).trans hk)
    rw [hempty row_index j le_rfl (by omega) (by omega)]
    rw [List.length_nil]
    omega

theorem next_row (h : Unread column_count start row_index f next rows)
    (hskip : skipToData next line_number = (c :: cs, line_number')) {row : Row}
    {xs : List (List (List UInt8))} (hrow : row.next = findEndOfLine (c :: cs))
    (hdone : RowDone column_count row_index f ⟨c :: cs, start, true, rows⟩ row xs)
    (hcolumn : row.column_index + 1 = column_count) :
    Unread column_count start (row_index + 1)
      (addRow f (row_index * column_count + start) xs) row.next row.rows := by
  have hready := h.ready hskip
  obtain ⟨hholds, hstart, hrows, hlength, hnext, hempty⟩ := h
  have hle : row.next.length ≤ next.length := by
    have hle := skipToData_length_le next line_number
    rw [hskip] at hle
    rw [hrow]
    exact (findEndOfLine_length_le _).trans hle
  rw [dataLines_of_skipToData hskip, ← hrow] at hrows
  refine ⟨hdone.holds, fun _ => hready.column_lt, ?_, hdone.length_eq.trans_lt hlength,
    hle.trans_lt hnext, fun i j hi hj hj' => ?_⟩
  · rw [hdone.length_eq]
    refine le_trans (Nat.le_of_eq ?_) hrows
    rw [List.length_cons]
    congr 1
    omega
  · have hxs := hdone.column_eq
    dsimp only at hxs
    have hmul : (row_index + 1) * column_count ≤ i * column_count := Nat.mul_le_mul_right _ hi
    rw [Nat.succ_mul] at hmul
    rw [addRow_of_le (by omega)]
    exact hempty i j (Nat.le_of_succ_le hi) hj hj'

end Unread

/-- **The loop over the rows**: each data line fills the cells of its row. -/
theorem readrowsLoop_spec {libc : ℕ → Realloc} {column_count start line_number row_index : ℕ}
    {next : List UInt8} {rows : List Column} {f : ℕ → List UInt8}
    (h : Unread column_count start row_index f next rows) :
    Returns (fun r => r.1 = row_index + (dataLines next).length ∧ r.2.length = rows.length ∧
      ∃ xss, List.Forall₂ Cells (dataLines next) xss ∧
        (∀ xs ∈ xss, xs.length + start = column_count) ∧
        Holds r.2 (addRows f (row_index * column_count + start) column_count xss))
      (readrowsLoop libc column_count start next line_number row_index rows) := by
  fun_induction readrowsLoop libc column_count start next line_number row_index rows
    generalizing f with
  | case1 next line_number row_index rows _ hskip =>
    have hdata := dataLines_skipToData next line_number
    rw [hskip] at hdata
    rw [← hdata]
    exact ⟨rfl, rfl, [], .nil, List.forall_mem_nil _, h.holds⟩
  | case2 next line_number row_index rows c cs line_number' hskip e hrow =>
    have hdone := rowLoop_spec libc line_number' (h.ready hskip)
    rw [hrow] at hdone
    exact hdone
  | case3 => nofun
  | case4 => nofun
  | case5 next line_number row_index rows c cs line_number' hskip row hrow hexpect hcolumn ih =>
    have hdone := rowLoop_spec libc line_number' (h.ready hskip)
    rw [hrow] at hdone
    obtain ⟨xs, hdone⟩ := hdone
    rw [not_not] at hcolumn
    have hend : row.next = findEndOfLine (c :: cs) := rowLoop_next hrow
    refine (ih (h.next_row hskip hend hdone hcolumn)).imp
      fun r ⟨hcount, hlength, xss, hcells, hcolumns, hholds⟩ => ?_
    rw [dataLines_of_skipToData hskip]
    refine ⟨?_, hlength.trans hdone.length_eq, xs :: xss, .cons hdone.cells ?_, ?_, ?_⟩
    · rw [hcount, hend, List.length_cons]
      omega
    · rwa [hend] at hcells
    · refine List.forall_mem_cons.mpr ⟨?_, hcolumns⟩
      have hxs := hdone.column_eq
      dsimp only at hxs
      omega
    · rw [addRows]
      rwa [show (row_index + 1) * column_count + start =
        row_index * column_count + start + column_count by rw [Nat.succ_mul]; omega] at hholds

/-- A file. The type of its size is `off_t`. -/
structure File where
  content : List UInt8
  size_lt : content.length < 2 ^ 63

/-- The table that `init_textdb` passes to `readrows_textdb`. It is in memory, where a column has
24 bytes, and only the special columns in front of the column `start` have got a value. -/
structure Table (row_count column_count start : ℕ) where
  rows : List Column
  length_eq : rows.length = row_count * column_count
  fits : 24 * rows.length < 2 ^ 64
  valid : ∀ column ∈ rows, column.Valid
  empty : ∀ i j column, start ≤ j → j < column_count → rows[i * column_count + j]? = some column →
    column.text = []

/-- The table after `memset`. -/
def Table.zero (row_count column_count start : ℕ) (h : 24 * (row_count * column_count) < 2 ^ 64) :
    Table row_count column_count start where
  rows := List.replicate (row_count * column_count) Column.zero
  length_eq := List.length_replicate
  fits := by rwa [List.length_replicate]
  valid := fun _ hcolumn => List.eq_of_mem_replicate hcolumn ▸ Column.zero_valid
  empty := fun _ _ _ _ _ hcolumn =>
    List.eq_of_mem_replicate (List.mem_of_getElem? hcolumn) ▸ rfl

/-- The strings of a table. -/
def Table.text {row_count column_count start : ℕ} (table : Table row_count column_count start)
    (i : ℕ) : List UInt8 :=
  (table.rows[i]?.map Column.text).getD []

theorem Table.holds {row_count column_count start : ℕ}
    (table : Table row_count column_count start) : Holds table.rows table.text := by
  intro i column hi
  refine ⟨table.valid column (List.mem_of_getElem? hi), ?_⟩
  rw [Table.text, hi]
  rfl

theorem Table.unread {content : List UInt8} {column_count start : ℕ}
    (table : Table (dataLines content).length column_count start)
    (hstart : dataLines content ≠ [] → start < column_count) (hsize : content.length < 2 ^ 63) :
    Unread column_count start 0 table.text content table.rows := by
  have hfits := table.fits
  refine ⟨table.holds, hstart, ?_, by omega, hsize, fun i j _ hj hj' => ?_⟩
  · rw [Nat.zero_add, table.length_eq]
  · rw [Table.text]
    cases hcolumn : table.rows[i * column_count + j]? with
    | none => rfl
    | some column => exact table.empty i j column hj hj' hcolumn

end Textdb
end CKern
