import Mathlib.Order.Nat
import CKern.Library.Records
import Mathlib.Algebra.Order.Ring.Nat

/-!
# `io/reader/csvfilereader.c`: reading a table of quoted fields

* `init`, `colvalue`: the functions of the module, on the content of a file.  Reading or writing
  outside of the data or of the table fails, and so does a loop that does not end.  The texts of the
  error log, and the column numbers that are computed for them, are left out.
* `tokens`: the fields, commas and line ends of a text, without blanks and comments.
* `init_exact`: a file is read exactly if its lines form a table, and the values are its fields.
-/

namespace CKern
namespace Csvfilereader

open Records

/-! ## The functions -/

/-- The error codes of the module. -/
inductive Errno
  | EINVAL
  | EOVERFLOW
  deriving DecidableEq, Repr

/-- Why there is no result: an error code, or an access outside of the data or the table. -/
inductive Failure
  | errno (err : Errno)
  | undefined
  deriving DecidableEq, Repr

/-- The characters with a meaning outside of fields. -/
def charNewline : UInt8 := 10
def charQuote : UInt8 := 34
def charHash : UInt8 := 35
def charComma : UInt8 := 44

/-- A blank, a tab or a carriage return. -/
def isBlank (c : UInt8) : Bool := c == 32 || c == 9 || c == 13

/-- `string_t`, with the address as an offset into the data. -/
structure StringT where
  addr : ℕ
  size : ℕ
  deriving DecidableEq, Repr

/-- The bytes of a string. -/
def StringT.bytes (data : List UInt8) (s : StringT) : List UInt8 := (data.drop s.addr).take s.size

/-- `sizeof(string_t)`. -/
def sizeofString : ℕ := 16

/-- `csvparser_t`; the entries of the table that are not written yet are `none`. -/
structure Csvparser where
  data : List UInt8
  offset : ℕ
  linenr : ℕ
  nrcolumns : ℕ
  nrrows : ℕ
  allocatedRows : ℕ
  tablevalues : List (Option StringT)
  deriving DecidableEq, Repr

/-- `csvparser_INIT`. -/
def csvparserInit (data : List UInt8) : Csvparser := ⟨data, 0, 1, 0, 0, 0, []⟩

/-- Reading a byte of the data. -/
def readData (data : List UInt8) (offset : ℕ) : Except Failure UInt8 :=
  match data[offset]? with
  | some c => .ok c
  | none => .error .undefined

/-- `tablesize_csvparser`, a value of type `size_t`. -/
def tablesize (st : Csvparser) (nrAllocatedRows : ℕ) : ℕ :=
  nrAllocatedRows * st.nrcolumns * sizeofString % 2 ^ 64

/-- `resizetable_csvparser`. -/
def resizetable (st : Csvparser) (nrrows : ℕ) : Except Failure Csvparser :=
  if st.allocatedRows < nrrows then
    let newsize := tablesize st nrrows
    if newsize / tablesize st 1 ≠ nrrows then .error (.errno .EOVERFLOW)
    else .ok { st with
      allocatedRows := nrrows
      tablevalues := st.tablevalues ++
        List.replicate (newsize / sizeofString - st.tablevalues.length) none }
  else .ok st

/-- The loop that skips a comment from the index of the character `#` on. -/
def skipcomment (data : List UInt8) : ℕ → ℕ → Except Failure ℕ
  | 0, _ => .error .undefined
  | fuel + 1, offset =>
    if offset + 1 < data.length then do
      let c ← readData data (offset + 1)
      if c = charNewline then .ok (offset + 1) else skipcomment data fuel (offset + 1)
    else .ok (offset + 1)

/-- The loop of `skipempty_csvparser`. -/
def skipemptyLoop : ℕ → Csvparser → Except Failure Csvparser
  | 0, _ => .error .undefined
  | fuel + 1, st =>
    if st.offset < st.data.length then do
      let c ← readData st.data st.offset
      if c = charNewline then
        skipemptyLoop fuel { st with offset := st.offset + 1, linenr := st.linenr + 1 }
      else if isBlank c then skipemptyLoop fuel { st with offset := st.offset + 1 }
      else if c = charHash then do
        let offset ← skipcomment st.data (st.data.length + 1) st.offset
        skipemptyLoop fuel { st with offset := offset }
      else .ok st
    else .ok st

/-- `skipempty_csvparser`. -/
def skipempty (st : Csvparser) : Except Failure Csvparser := skipemptyLoop (st.data.length + 1) st

/-- `parsechar_csvparser`. -/
def parsechar (st : Csvparser) (chr : UInt8) : Except Failure Csvparser :=
  if st.offset ≥ st.data.length then .error (.errno .EINVAL)
  else do
    let c ← readData st.data st.offset
    if c ≠ chr then .error (.errno .EINVAL) else .ok { st with offset := st.offset + 1 }

/-- The loop of `parsedatafield_csvparser`, which looks for the end of the value. -/
def skipvalue (data : List UInt8) : ℕ → ℕ → Except Failure ℕ
  | 0, _ => .error .undefined
  | fuel + 1, offset =>
    if offset < data.length then do
      let c ← readData data offset
      if c ≠ charQuote ∧ c ≠ charNewline then skipvalue data fuel (offset + 1) else .ok offset
    else .ok offset

/-- `parsedatafield_csvparser`. -/
def parsedatafield (st : Csvparser) : Except Failure (StringT × Csvparser) := do
  let st ← parsechar st charQuote
  let start := st.offset
  let stop ← skipvalue st.data (st.data.length + 1) start
  let st ← parsechar { st with offset := stop } charQuote
  .ok (⟨start, stop - start⟩, st)

/-- The loop of `parsenrcolumns_csvparser`, where `linenr` is the number of the first line. -/
def nrcolumnsLoop (linenr : ℕ) : ℕ → Csvparser → ℕ → Except Failure ℕ
  | 0, _, _ => .error .undefined
  | fuel + 1, st, nrc => do
    let (_, st) ← parsedatafield st
    let st ← skipempty st
    if st.offset ≥ st.data.length ∨ linenr ≠ st.linenr then .ok (nrc + 1)
    else do
      let st ← parsechar st charComma
      let st ← skipempty st
      if st.offset ≥ st.data.length ∨ linenr ≠ st.linenr then .error (.errno .EINVAL)
      else nrcolumnsLoop linenr fuel st (nrc + 1)

/-- `parsenrcolumns_csvparser`. -/
def parsenrcolumns (st : Csvparser) : Except Failure Csvparser := do
  let st ← skipempty st
  if st.offset < st.data.length then do
    let nrc ← nrcolumnsLoop st.linenr (st.data.length + 1) st 0
    .ok { st with nrcolumns := nrc }
  else .ok { st with nrcolumns := 0 }

/-- Writing an entry of the table. -/
def setvalue (st : Csvparser) (tableindex : ℕ) (value : StringT) : Except Failure Csvparser :=
  if tableindex < st.tablevalues.length then
    .ok { st with tablevalues := st.tablevalues.set tableindex (some value) }
  else .error .undefined

/-- The loop over the columns in `parsedata_csvparser`, with the number of columns that are left. -/
def columnsLoop (oldlinenr : ℕ) : ℕ → Csvparser → ℕ → Except Failure (Csvparser × ℕ)
  | 0, st, tableindex => .ok (st, tableindex)
  | columns + 1, st, tableindex => do
    let st ← skipempty st
    if oldlinenr ≠ st.linenr then .error (.errno .EINVAL)
    else do
      let st ← parsechar st charComma
      let st ← skipempty st
      if oldlinenr ≠ st.linenr then .error (.errno .EINVAL)
      else do
        let (value, st) ← parsedatafield st
        let st ← setvalue st tableindex value
        columnsLoop oldlinenr columns st (tableindex + 1)

/-- The table is made larger if there is no place for the row with the number `nrrows`. -/
def growtable (st : Csvparser) (nrrows : ℕ) : Except Failure Csvparser :=
  if nrrows > st.allocatedRows then
    if 2 * st.allocatedRows % 2 ^ 64 > nrrows then resizetable st (2 * st.allocatedRows % 2 ^ 64)
    else resizetable st nrrows
  else .ok st

/-- The loop of `parsedata_csvparser`. -/
def rowsLoop : ℕ → Csvparser → ℕ → ℕ → ℕ → Except Failure Csvparser
  | 0, _, _, _, _ => .error .undefined
  | fuel + 1, st, nrrows, tableindex, oldlinenr => do
    let st ← growtable st (nrrows + 1)
    if oldlinenr = st.linenr then .error (.errno .EINVAL)
    else do
      let oldlinenr := st.linenr
      let (value, st) ← parsedatafield st
      let st ← setvalue st tableindex value
      let (st, tableindex) ← columnsLoop oldlinenr (st.nrcolumns - 1) st (tableindex + 1)
      let st ← skipempty st
      if st.offset < st.data.length then rowsLoop fuel st (nrrows + 1) tableindex oldlinenr
      else .ok { st with nrrows := nrrows + 1 }

/-- `parsedata_csvparser`. -/
def parsedata (st : Csvparser) : Except Failure Csvparser :=
  rowsLoop (st.data.length + 1) st 0 0 (st.linenr - 1)

/-- `csvfilereader_t`. -/
structure CsvfilereaderT where
  data : List UInt8
  nrcolumns : ℕ
  nrrows : ℕ
  tablesize : ℕ
  tablevalues : List (Option StringT)
  deriving DecidableEq, Repr

/-- `init_csvfilereader` for a file with the bytes `data`. -/
def init (data : List UInt8) : Except Failure CsvfilereaderT := do
  let st ← parsenrcolumns (csvparserInit data)
  let st ← if st.nrcolumns ≠ 0 then
      if tablesize st 1 / st.nrcolumns ≠ sizeofString then .error (.errno .EOVERFLOW)
      else parsedata st
    else .ok st
  .ok ⟨data, st.nrcolumns, st.nrrows, tablesize st st.allocatedRows, st.tablevalues⟩

/-- `colvalue_csvfilereader`. -/
def colvalue (csvfile : CsvfilereaderT) (row column : ℕ) : Except Failure StringT :=
  if ¬ column < csvfile.nrcolumns then .error (.errno .EINVAL)
  else if ¬ row < csvfile.nrrows then .error (.errno .EINVAL)
  else
    match csvfile.tablevalues[csvfile.nrcolumns * row + column]? with
    | some (some value) => .ok value
    | _ => .error .undefined

/-! ## The tokens of a text -/

/-- What the characters are read as: outside of a field, in a comment, or in a field after the
characters `value`. -/
inductive Mode
  | plain
  | comment
  | quoted (value : List UInt8)

/-- The tokens of a text, without blanks and comments. -/
def scan : Mode → List UInt8 → List (Token (List UInt8))
  | .plain, [] => []
  | .comment, [] => []
  | .quoted _, [] => [.other]
  | .plain, c :: cs =>
    if c = charNewline then .newline :: scan .plain cs
    else if isBlank c then scan .plain cs
    else if c = charHash then scan .comment cs
    else if c = charComma then .comma :: scan .plain cs
    else if c = charQuote then scan (.quoted []) cs
    else .other :: scan .plain cs
  | .comment, c :: cs => if c = charNewline then .newline :: scan .plain cs else scan .comment cs
  | .quoted value, c :: cs =>
    if c = charQuote then .field value :: scan .plain cs
    else if c = charNewline then .other :: .newline :: scan .plain cs
    else scan (.quoted (value ++ [c])) cs

/-- The tokens of a file. -/
def tokens (data : List UInt8) : List (Token (List UInt8)) := scan .plain data

example : (init ("# c\n\"a\", \"b\"\n\n \"\" , \"d,#\" # x\n".toList.map fun c => UInt8.ofNat c.toNat)).map
    (fun csvfile => (csvfile.nrrows, csvfile.nrcolumns, csvfile.tablevalues)) =
    .ok (2, 2, [some ⟨5, 1⟩, some ⟨10, 1⟩, some ⟨16, 0⟩, some ⟨21, 3⟩]) := by
  decide +kernel

/-! ## Scanning -/

variable {data : List UInt8} {st : Csvparser} {o n : ℕ} {c : UInt8}

theorem ok_bind {α β : Type} (a : α) (f : α → Except Failure β) : (Except.ok a >>= f) = f a := rfl

theorem error_bind {α β : Type} (err : Failure) (f : α → Except Failure β) :
    (Except.error err >>= f) = Except.error err := rfl

theorem readData_of_lt (h : o < data.length) : readData data o = .ok data[o] := by
  rw [readData, List.getElem?_eq_getElem h]

/-- The tokens from an offset on. -/
def tokensAt (data : List UInt8) (o : ℕ) : List (Token (List UInt8)) := scan .plain (data.drop o)

theorem tokensAt_length (data : List UInt8) : tokensAt data data.length = [] := by
  rw [tokensAt, List.drop_length, scan]

theorem tokensAt_of_lt (h : o < data.length) :
    tokensAt data o =
      if data[o] = charNewline then .newline :: tokensAt data (o + 1)
      else if isBlank data[o] then tokensAt data (o + 1)
      else if data[o] = charHash then scan .comment (data.drop (o + 1))
      else if data[o] = charComma then .comma :: tokensAt data (o + 1)
      else if data[o] = charQuote then scan (.quoted []) (data.drop (o + 1))
      else .other :: tokensAt data (o + 1) := by
  rw [tokensAt, List.drop_eq_getElem_cons h, scan]
  rfl

theorem skipcomment_spec (data : List UInt8) :
    ∀ (fuel o : ℕ), o < data.length → data.length < fuel + o →
      ∃ o', skipcomment data fuel o = .ok o' ∧ o < o' ∧ o' ≤ data.length ∧
        scan .comment (data.drop (o + 1)) = tokensAt data o' := by
  intro fuel
  induction fuel with
  | zero =>
    intro o hlt hfuel
    omega
  | succ fuel ih =>
    intro o hlt hfuel
    rw [skipcomment]
    by_cases hnext : o + 1 < data.length
    · rw [if_pos hnext, readData_of_lt hnext, ok_bind]
      by_cases hchar : data[o + 1] = charNewline
      · rw [if_pos hchar]
        refine ⟨o + 1, rfl, Nat.lt_succ_self o, hnext.le, ?_⟩
        rw [tokensAt_of_lt hnext, if_pos hchar, List.drop_eq_getElem_cons hnext, scan, if_pos hchar,
          tokensAt]
      · rw [if_neg hchar]
        obtain ⟨o', hskip, hlo, hle, hscan⟩ := ih (o + 1) hnext (by omega)
        refine ⟨o', hskip, by omega, hle, ?_⟩
        rw [List.drop_eq_getElem_cons hnext, scan, if_neg hchar, hscan]
    · rw [if_neg hnext]
      have hlen : o + 1 = data.length := by omega
      refine ⟨o + 1, rfl, Nat.lt_succ_self o, hlen.le, ?_⟩
      rw [hlen, tokensAt_length, List.drop_length, scan]

/-- The offset is at the end of the data, or at a character that is not skipped. -/
def Stops (data : List UInt8) (o : ℕ) : Prop :=
  o = data.length ∨ ∃ c, data[o]? = some c ∧ c ≠ charNewline ∧ isBlank c = false ∧ c ≠ charHash

/-- **`skipempty_csvparser`** consumes the line ends before the next other token, and counts them. -/
theorem skipemptyLoop_spec :
    ∀ (fuel : ℕ) (st : Csvparser), st.offset ≤ st.data.length →
      st.data.length < fuel + st.offset →
      ∃ o' k, skipemptyLoop fuel st = .ok { st with offset := o', linenr := st.linenr + k } ∧
        st.offset ≤ o' ∧ o' ≤ st.data.length ∧ Stops st.data o' ∧
        tokensAt st.data st.offset = List.replicate k .newline ++ tokensAt st.data o' := by
  intro fuel
  induction fuel with
  | zero =>
    intro st hle hfuel
    omega
  | succ fuel ih =>
    intro st hle hfuel
    rw [skipemptyLoop]
    by_cases hlt : st.offset < st.data.length
    · rw [if_pos hlt, readData_of_lt hlt, ok_bind, tokensAt_of_lt hlt]
      by_cases hnl : st.data[st.offset] = charNewline
      · rw [if_pos hnl, if_pos hnl]
        obtain ⟨o', k, hskip, hlo, hle', hstops, htok⟩ :=
          ih { st with offset := st.offset + 1, linenr := st.linenr + 1 } hlt
            (by dsimp only; omega)
        refine ⟨o', k + 1, ?_, by dsimp only at hlo; omega, hle', hstops, ?_⟩
        · rw [hskip, Nat.add_assoc, Nat.add_comm 1 k]
        · rw [List.replicate_succ, List.cons_append]
          exact congrArg _ htok
      rw [if_neg hnl, if_neg hnl]
      by_cases hblank : isBlank st.data[st.offset] = true
      · rw [if_pos hblank, if_pos hblank]
        obtain ⟨o', k, hskip, hlo, hle', hstops, htok⟩ :=
          ih { st with offset := st.offset + 1 } hlt (by dsimp only; omega)
        exact ⟨o', k, hskip, by dsimp only at hlo; omega, hle', hstops, htok⟩
      rw [if_neg hblank, if_neg hblank]
      by_cases hhash : st.data[st.offset] = charHash
      · rw [if_pos hhash, if_pos hhash]
        obtain ⟨o1, hcomment, hlo1, hle1, hscan⟩ :=
          skipcomment_spec st.data (st.data.length + 1) st.offset hlt (by omega)
        rw [hcomment, ok_bind]
        obtain ⟨o', k, hskip, hlo, hle', hstops, htok⟩ :=
          ih { st with offset := o1 } hle1 (by dsimp only; omega)
        refine ⟨o', k, hskip, by dsimp only at hlo; omega, hle', hstops, ?_⟩
        rw [hscan]
        exact htok
      · rw [if_neg hhash, if_neg hhash]
        refine ⟨st.offset, 0, rfl, le_refl _, hle, Or.inr ⟨_, List.getElem?_eq_getElem hlt, hnl, ?_,
          hhash⟩, ?_⟩
        · simpa using hblank
        · rw [tokensAt_of_lt hlt, if_neg hnl, if_neg hblank, if_neg hhash]
          rfl
    · rw [if_neg hlt]
      exact ⟨st.offset, 0, rfl, le_refl _, hle, Or.inl (by omega), rfl⟩

theorem skipempty_spec (h : st.offset ≤ st.data.length) :
    ∃ o' k, skipempty st = .ok { st with offset := o', linenr := st.linenr + k } ∧
      st.offset ≤ o' ∧ o' ≤ st.data.length ∧ Stops st.data o' ∧
      tokensAt st.data st.offset = List.replicate k .newline ++ tokensAt st.data o' :=
  skipemptyLoop_spec _ st h (by omega)

theorem tokensAt_of_stops (h : Stops data o) :
    (o = data.length ∧ tokensAt data o = []) ∨
      (o < data.length ∧ data[o]? = some charComma ∧
        tokensAt data o = .comma :: tokensAt data (o + 1)) ∨
      (o < data.length ∧ data[o]? = some charQuote ∧
        tokensAt data o = scan (.quoted []) (data.drop (o + 1))) ∨
      (o < data.length ∧ data[o]? ≠ some charComma ∧ data[o]? ≠ some charQuote ∧
        tokensAt data o = .other :: tokensAt data (o + 1)) := by
  rcases h with rfl | ⟨c, hc, hnl, hblank, hhash⟩
  · exact Or.inl ⟨rfl, tokensAt_length data⟩
  · obtain ⟨hlt, rfl⟩ := List.getElem?_eq_some_iff.mp hc
    have hblank' : ¬ isBlank data[o] = true := by
      rw [hblank]
      exact Bool.false_ne_true
    have htok := tokensAt_of_lt hlt
    rw [if_neg hnl, if_neg hblank', if_neg hhash] at htok
    rw [hc]
    by_cases hcomma : data[o] = charComma
    · rw [if_pos hcomma] at htok
      exact Or.inr (Or.inl ⟨hlt, congrArg some hcomma, htok⟩)
    rw [if_neg hcomma] at htok
    by_cases hquote : data[o] = charQuote
    · rw [if_pos hquote] at htok
      exact Or.inr (Or.inr (Or.inl ⟨hlt, congrArg some hquote, htok⟩))
    · rw [if_neg hquote] at htok
      exact Or.inr (Or.inr (Or.inr ⟨hlt, fun heq => hcomma (Option.some.inj heq),
        fun heq => hquote (Option.some.inj heq), htok⟩))

/-! ## A field -/

theorem parsechar_of_eq {chr : UInt8} (h : st.data[st.offset]? = some chr) :
    parsechar st chr = .ok { st with offset := st.offset + 1 } := by
  obtain ⟨hlt, hchar⟩ := List.getElem?_eq_some_iff.mp h
  rw [parsechar, if_neg (Nat.not_le_of_lt hlt), readData_of_lt hlt, ok_bind,
    if_neg (not_not.mpr hchar)]

theorem parsechar_of_ne {chr : UInt8} (h : st.data[st.offset]? ≠ some chr) :
    parsechar st chr = .error (.errno .EINVAL) := by
  rw [parsechar]
  by_cases hlt : st.offset < st.data.length
  · rw [if_neg (Nat.not_le_of_lt hlt), readData_of_lt hlt, ok_bind, if_pos]
    exact fun heq => h (by rw [List.getElem?_eq_getElem hlt, heq])
  · rw [if_pos (Nat.le_of_not_lt hlt)]

theorem skipvalue_spec (data : List UInt8) :
    ∀ (fuel o : ℕ) (value : List UInt8), o ≤ data.length → data.length < fuel + o →
      ∃ o', skipvalue data fuel o = .ok o' ∧ o ≤ o' ∧ o' ≤ data.length ∧
        ((data[o']? = some charQuote ∧ scan (.quoted value) (data.drop o) =
            .field (value ++ (data.drop o).take (o' - o)) :: tokensAt data (o' + 1)) ∨
          (data[o']? ≠ some charQuote ∧ ∃ rest, scan (.quoted value) (data.drop o) = .other :: rest)) := by
  intro fuel
  induction fuel with
  | zero =>
    intro o value hle hfuel
    omega
  | succ fuel ih =>
    intro o value hle hfuel
    rw [skipvalue]
    by_cases hlt : o < data.length
    · rw [if_pos hlt, readData_of_lt hlt, ok_bind, List.drop_eq_getElem_cons hlt, scan]
      by_cases hquote : data[o] = charQuote
      · rw [if_neg (fun h => h.1 hquote), if_pos hquote]
        refine ⟨o, rfl, le_refl o, hle, Or.inl ⟨?_, ?_⟩⟩
        · rw [List.getElem?_eq_getElem hlt, hquote]
        · rw [Nat.sub_self, List.take_zero, List.append_nil, tokensAt]
      rw [if_neg hquote]
      by_cases hnl : data[o] = charNewline
      · rw [if_neg (fun h => h.2 hnl), if_pos hnl]
        refine ⟨o, rfl, le_refl o, hle, Or.inr ⟨?_, _, rfl⟩⟩
        rw [List.getElem?_eq_getElem hlt]
        exact fun heq => hquote (Option.some.inj heq)
      · rw [if_pos ⟨hquote, hnl⟩, if_neg hnl]
        obtain ⟨o', hskip, hlo, hle', hscan⟩ := ih (o + 1) (value ++ [data[o]]) hlt (by omega)
        refine ⟨o', hskip, by omega, hle', ?_⟩
        have hsub : o' - o = o' - (o + 1) + 1 := by omega
        rwa [hsub, List.take_succ_cons,
          List.append_cons value data[o] ((data.drop (o + 1)).take (o' - (o + 1)))]
    · rw [if_neg hlt]
      have hlen : o = data.length := by omega
      refine ⟨o, rfl, le_refl o, hle, Or.inr ⟨?_, [], ?_⟩⟩
      · rw [List.getElem?_eq_none (by omega)]
        nofun
      · rw [hlen, List.drop_length, scan]

/-- **`parsedatafield_csvparser`** reads a field, or there is none. -/
theorem parsedatafield_spec (st : Csvparser) (hstops : Stops st.data st.offset) :
    (∃ value o', parsedatafield st = .ok (value, { st with offset := o' }) ∧ st.offset < o' ∧
        o' ≤ st.data.length ∧
        tokensAt st.data st.offset = .field (value.bytes st.data) :: tokensAt st.data o') ∨
      (parsedatafield st = .error (.errno .EINVAL) ∧
        ∀ v rest, tokensAt st.data st.offset ≠ .field v :: rest) := by
  rw [parsedatafield]
  rcases tokensAt_of_stops hstops with ⟨hlen, htok⟩ | ⟨hlt, hc, htok⟩ | ⟨hlt, hc, htok⟩ |
    ⟨hlt, -, hc, htok⟩
  · rw [parsechar_of_ne, error_bind]
    · exact Or.inr ⟨rfl, fun v rest => by rw [htok]; nofun⟩
    · rw [List.getElem?_eq_none hlen.ge]
      nofun
  · rw [parsechar_of_ne, error_bind]
    · exact Or.inr ⟨rfl, fun v rest => by rw [htok]; simp⟩
    · rw [hc]
      decide
  · rw [parsechar_of_eq hc, ok_bind]
    dsimp only
    obtain ⟨o', hskip, hlo, hle, hcases⟩ :=
      skipvalue_spec st.data (st.data.length + 1) (st.offset + 1) [] hlt (by omega)
    rw [hskip, ok_bind, htok]
    rcases hcases with ⟨hquote, hscan⟩ | ⟨hquote, rest, hscan⟩
    · rw [parsechar_of_eq hquote, ok_bind]
      obtain ⟨hlt', -⟩ := List.getElem?_eq_some_iff.mp hquote
      exact Or.inl ⟨_, o' + 1, rfl, by omega, hlt', hscan⟩
    · rw [parsechar_of_ne hquote, error_bind]
      exact Or.inr ⟨rfl, fun v rest' => by rw [hscan]; simp⟩
  · rw [parsechar_of_ne hc, error_bind]
    exact Or.inr ⟨rfl, fun v rest => by rw [htok]; simp⟩

theorem parsechar_comma_spec (st : Csvparser) (hstops : Stops st.data st.offset) :
    (parsechar st charComma = .ok { st with offset := st.offset + 1 } ∧
        st.offset < st.data.length ∧
        tokensAt st.data st.offset = .comma :: tokensAt st.data (st.offset + 1)) ∨
      (parsechar st charComma = .error (.errno .EINVAL) ∧
        ∀ rest, tokensAt st.data st.offset ≠ .comma :: rest) := by
  rcases tokensAt_of_stops hstops with ⟨hlen, htok⟩ | ⟨hlt, hc, htok⟩ | ⟨hlt, hc, htok⟩ |
    ⟨hlt, hc, -, htok⟩
  · refine Or.inr ⟨parsechar_of_ne ?_, fun rest => by rw [htok]; nofun⟩
    rw [List.getElem?_eq_none hlen.ge]
    nofun
  · exact Or.inl ⟨parsechar_of_eq hc, hlt, htok⟩
  · refine Or.inr ⟨parsechar_of_ne ?_, fun rest => ?_⟩
    · rw [hc]
      decide
    · obtain ⟨o', -, -, -, hcases⟩ :=
        skipvalue_spec st.data (st.data.length + 1) (st.offset + 1) [] hlt (by omega)
      rw [htok]
      rcases hcases with ⟨-, hscan⟩ | ⟨-, rest', hscan⟩
      · rw [hscan]
        simp
      · rw [hscan]
        simp
  · exact Or.inr ⟨parsechar_of_ne hc, fun rest => by rw [htok]; simp⟩

/-! ## The first line -/

theorem scan_quoted (cs value : List UInt8) :
    ∃ rest, (∃ v, scan (.quoted value) cs = .field v :: rest) ∨
      scan (.quoted value) cs = .other :: rest := by
  induction cs generalizing value with
  | nil => exact ⟨[], Or.inr rfl⟩
  | cons c cs ih =>
    rw [scan]
    split_ifs
    · exact ⟨_, Or.inl ⟨_, rfl⟩⟩
    · exact ⟨_, Or.inr rfl⟩
    · exact ih _

theorem atEnd_iff_of_stops (h : Stops data o) : AtEnd (tokensAt data o) ↔ o = data.length := by
  rcases tokensAt_of_stops h with ⟨hlen, htok⟩ | ⟨hlt, -, htok⟩ | ⟨hlt, -, htok⟩ | ⟨hlt, -, -, htok⟩
  · rw [htok]
    exact iff_of_true rfl hlen
  · rw [htok]
    exact iff_of_false (by simp [AtEnd]) hlt.ne
  · rw [htok]
    refine iff_of_false ?_ hlt.ne
    obtain ⟨rest, ⟨v, hscan⟩ | hscan⟩ := scan_quoted (data.drop (o + 1)) []
    · rw [hscan]
      simp [AtEnd]
    · rw [hscan]
      simp [AtEnd]
  · rw [htok]
    exact iff_of_false (by simp [AtEnd]) hlt.ne

theorem lines_replicate (k : ℕ) (ts : List (Token (List UInt8))) :
    lines (List.replicate k .newline ++ ts) = lines ts := by
  induction k with
  | zero => rfl
  | succ k ih => rw [List.replicate_succ, List.cons_append, lines_newline, ih]

/-- **Skipping, seen from the tokens**: the line has ended if a line end was counted or the data is at
its end. -/
theorem skipempty_cases (st : Csvparser) (h : st.offset ≤ st.data.length) :
    ∃ o' k, skipempty st = .ok { st with offset := o', linenr := st.linenr + k } ∧
      st.offset ≤ o' ∧ o' ≤ st.data.length ∧ Stops st.data o' ∧
      lines (tokensAt st.data st.offset) = lines (tokensAt st.data o') ∧
      (AtEnd (tokensAt st.data st.offset) ↔ 0 < k ∨ o' = st.data.length) ∧
      (k = 0 → tokensAt st.data st.offset = tokensAt st.data o') := by
  obtain ⟨o', k, hskip, hlo, hle, hstops, htok⟩ := skipempty_spec h
  refine ⟨o', k, hskip, hlo, hle, hstops, ?_, ?_, ?_⟩
  · rw [htok, lines_replicate]
  · rw [htok, ← atEnd_iff_of_stops hstops]
    cases k with
    | zero => simp
    | succ k => exact iff_of_true rfl (Or.inl k.succ_pos)
  · rintro rfl
    exact htok

/-- **The number of columns** is the number of fields of the first line. -/
theorem nrcolumnsLoop_spec :
    ∀ (fuel : ℕ) (st : Csvparser) (nrc : ℕ), Stops st.data st.offset →
      st.offset ≤ st.data.length → st.data.length < fuel + st.offset →
      (∃ m, countRow (tokensAt st.data st.offset) = some m ∧
        nrcolumnsLoop st.linenr fuel st nrc = .ok (nrc + m) ∧ st.offset + m ≤ st.data.length ∧
        0 < m) ∨
      (countRow (tokensAt st.data st.offset) = none ∧
        nrcolumnsLoop st.linenr fuel st nrc = .error (.errno .EINVAL)) := by
  intro fuel
  induction fuel with
  | zero =>
    intro st nrc hstops hle hfuel
    omega
  | succ fuel ih =>
    intro st nrc hstops hle hfuel
    rw [nrcolumnsLoop]
    rcases parsedatafield_spec st hstops with ⟨value, o1, hfield, hlt1, hle1, htok⟩ | ⟨hfield, hne⟩
    swap
    · rw [hfield, error_bind]
      exact Or.inr ⟨countRow_of_ne_field hne, rfl⟩
    rw [hfield, ok_bind, htok]
    obtain ⟨o2, k2, hskip, hlo2, hle2, hstops2, -, hend2, htok2⟩ :=
      skipempty_cases { st with offset := o1 } hle1
    dsimp only at hskip hlo2 hle2 hstops2 hend2 htok2 ⊢
    rw [hskip, ok_bind]
    dsimp only
    by_cases hline : AtEnd (tokensAt st.data o1)
    · have hcond : o2 ≥ st.data.length ∨ st.linenr ≠ st.linenr + k2 := by
        rcases hend2.mp hline with hk | hlen
        · exact Or.inr (by omega)
        · exact Or.inl hlen.ge
      rw [if_pos hcond]
      exact Or.inl ⟨1, countRow_of_atEnd hline, rfl, by omega, Nat.one_pos⟩
    obtain ⟨hk2, hlen2⟩ := not_or.mp (mt hend2.mpr hline)
    have hk0 : k2 = 0 := by omega
    subst hk0
    rw [if_neg (by omega), htok2 rfl]
    rw [htok2 rfl] at hline
    rcases parsechar_comma_spec { st with offset := o2, linenr := st.linenr + 0 } hstops2 with
      ⟨hcomma, hlt2, htok3⟩ | ⟨hcomma, hne⟩
    swap
    · rw [hcomma, error_bind]
      exact Or.inr ⟨countRow_of_ne_comma hline hne, rfl⟩
    dsimp only at hcomma hlt2 htok3
    rw [hcomma, ok_bind, htok3, countRow]
    obtain ⟨o4, k4, hskip4, hlo4, hle4, hstops4, -, hend4, htok4⟩ :=
      skipempty_cases { st with offset := o2 + 1, linenr := st.linenr + 0 } hlt2
    dsimp only at hskip4 hlo4 hle4 hstops4 hend4 htok4
    rw [hskip4, ok_bind]
    dsimp only
    by_cases hline4 : AtEnd (tokensAt st.data (o2 + 1))
    · have hcond : o4 ≥ st.data.length ∨ st.linenr ≠ st.linenr + 0 + k4 := by
        rcases hend4.mp hline4 with hk | hlen
        · exact Or.inr (by omega)
        · exact Or.inl hlen.ge
      rw [if_pos hcond]
      have hnone : countRow (tokensAt st.data (o2 + 1)) = none := by
        refine countRow_of_ne_field fun v rest heq => ?_
        rw [heq] at hline4
        exact absurd hline4 (by simp [AtEnd])
      rw [hnone]
      exact Or.inr ⟨rfl, rfl⟩
    · obtain ⟨hk4, hlen4⟩ := not_or.mp (mt hend4.mpr hline4)
      have hk0 : k4 = 0 := by omega
      subst hk0
      rw [if_neg (by omega), htok4 rfl]
      rcases ih { st with offset := o4 } (nrc + 1) hstops4 hle4 (by dsimp only; omega) with
        ⟨m, hcount, hloop, hbound, -⟩ | ⟨hcount, hloop⟩
      · dsimp only at hcount hloop hbound
        rw [hcount]
        refine Or.inl ⟨m + 1, rfl, ?_, by omega, m.succ_pos⟩
        rw [Nat.add_comm m 1, ← Nat.add_assoc]
        exact hloop
      · dsimp only at hcount hloop
        rw [hcount]
        exact Or.inr ⟨rfl, hloop⟩

/-! ## The table -/

/-- The first entries of the table are the strings of `vals`. -/
def Stored (data : List UInt8) (table : List (Option StringT)) (vals : List (List UInt8)) : Prop :=
  ∃ strs : List StringT, strs.map some <+: table ∧ strs.map (StringT.bytes data) = vals

theorem setvalue_spec (st : Csvparser) {vals : List (List UInt8)} (hlt : vals.length < st.tablevalues.length)
    (h : Stored st.data st.tablevalues vals) (value : StringT) :
    ∃ table, setvalue st vals.length value = .ok { st with tablevalues := table } ∧
      table.length = st.tablevalues.length ∧
      Stored st.data table (vals ++ [value.bytes st.data]) := by
  obtain ⟨strs, ⟨rest, htable⟩, hvals⟩ := h
  have hlen : vals.length = strs.length := by rw [← hvals, List.length_map]
  refine ⟨_, by rw [setvalue, if_pos hlt], List.length_set, strs ++ [value], ?_, ?_⟩
  · have hrest : rest ≠ [] := by
      rintro rfl
      rw [← htable, List.append_nil, List.length_map] at hlt
      omega
    obtain ⟨x, rest', rfl⟩ := List.exists_cons_of_ne_nil hrest
    have hset : (strs.map some ++ x :: rest').set strs.length (some value) =
        strs.map some ++ some value :: rest' := by
      have hidx : strs.length = (strs.map some).length := by rw [List.length_map]
      rw [hidx, List.set_append_right _ _ (le_refl _), Nat.sub_self, List.set_cons_zero]
    rw [← htable, hlen, hset]
    exact ⟨rest', by rw [List.map_append, List.append_assoc]; rfl⟩
  · rw [List.map_append, hvals]
    rfl

/-- **The columns of a row** behind its first field. -/
theorem columnsLoop_spec :
    ∀ (m : ℕ) (st : Csvparser) (vals : List (List UInt8)), st.offset ≤ st.data.length →
      vals.length + m ≤ st.tablevalues.length → Stored st.data st.tablevalues vals →
      (∃ row o' table, columnsLoop st.linenr m st vals.length =
          .ok ({ st with offset := o', tablevalues := table }, vals.length + m) ∧
        st.offset + m ≤ o' ∧ o' ≤ st.data.length ∧ table.length = st.tablevalues.length ∧
        Stored st.data table (vals ++ row) ∧ row.length = m ∧
        takeRest m (tokensAt st.data st.offset) = some (row, tokensAt st.data o')) ∨
      (columnsLoop st.linenr m st vals.length = .error (.errno .EINVAL) ∧
        takeRest m (tokensAt st.data st.offset) = none) := by
  intro m
  induction m with
  | zero =>
    intro st vals hle hlen hstored
    refine Or.inl ⟨[], st.offset, st.tablevalues, rfl, le_refl _, hle, rfl, ?_, rfl, rfl⟩
    rw [List.append_nil]
    exact hstored
  | succ m ih =>
    intro st vals hle hlen hstored
    rw [columnsLoop]
    obtain ⟨o1, k1, hskip, hlo1, hle1, hstops1, -, hend1, htok1⟩ := skipempty_cases st hle
    rw [hskip, ok_bind]
    dsimp only
    by_cases hk1 : k1 = 0
    swap
    · rw [if_pos (by omega)]
      refine Or.inr ⟨rfl, takeRest_of_ne_comma fun rest heq => ?_⟩
      have hline := hend1.mpr (Or.inl (by omega))
      rw [heq] at hline
      exact absurd hline (by simp [AtEnd])
    subst hk1
    rw [if_neg (by omega), htok1 rfl]
    rcases parsechar_comma_spec { st with offset := o1, linenr := st.linenr + 0 } hstops1 with
      ⟨hcomma, hlt1, htok⟩ | ⟨hcomma, hne⟩
    swap
    · rw [hcomma, error_bind]
      exact Or.inr ⟨rfl, takeRest_of_ne_comma hne⟩
    dsimp only at hcomma hlt1 htok
    rw [hcomma, ok_bind, htok, takeRest]
    obtain ⟨o2, k2, hskip2, hlo2, hle2, hstops2, -, hend2, htok2⟩ :=
      skipempty_cases { st with offset := o1 + 1, linenr := st.linenr + 0 } hlt1
    dsimp only at hskip2 hlo2 hle2 hstops2 hend2 htok2
    rw [hskip2, ok_bind]
    dsimp only
    by_cases hk2 : k2 = 0
    swap
    · rw [if_pos (by omega)]
      refine Or.inr ⟨rfl, takeRow_of_ne_field fun v rest heq => ?_⟩
      have hline := hend2.mpr (Or.inl (by omega))
      rw [heq] at hline
      exact absurd hline (by simp [AtEnd])
    subst hk2
    rw [if_neg (by omega), htok2 rfl]
    rcases parsedatafield_spec { st with offset := o2 } hstops2 with
      ⟨value, o3, hfield, hlt3, hle3, htok3⟩ | ⟨hfield, hne⟩
    swap
    · have hfield' : parsedatafield { st with offset := o2, linenr := st.linenr + 0 + 0 } = _ := hfield
      rw [hfield', error_bind]
      exact Or.inr ⟨rfl, takeRow_of_ne_field hne⟩
    have hfield' : parsedatafield { st with offset := o2, linenr := st.linenr + 0 + 0 } = _ := hfield
    dsimp only at hlt3 hle3 htok3
    rw [hfield', ok_bind]
    obtain ⟨table, hset, htable, hstored'⟩ :=
      setvalue_spec { st with offset := o3 } (show vals.length < st.tablevalues.length by omega)
        hstored value
    dsimp only at hset htable hstored' ⊢
    rw [hset, ok_bind, htok3, takeRow_field]
    have hvals : (vals ++ [value.bytes st.data]).length = vals.length + 1 := by
      rw [List.length_append, List.length_singleton]
    rcases ih { st with offset := o3, tablevalues := table } (vals ++ [value.bytes st.data]) hle3
      (by dsimp only; omega) hstored' with
      ⟨row, o4, table4, hloop, hlo4, hle4, htable4, hstored4, hrow, htake⟩ | ⟨hloop, htake⟩
    · dsimp only at hloop hlo4 hle4 htable4 hstored4 htake
      rw [hvals] at hloop
      refine Or.inl ⟨value.bytes st.data :: row, o4, table4, ?_, by omega, hle4, by omega, ?_, ?_, ?_⟩
      · rw [hloop, Nat.add_assoc, Nat.add_comm 1 m]
      · rwa [List.append_cons]
      · rw [List.length_cons, hrow]
      · rw [htake]
        rfl
    · dsimp only at hloop htake
      rw [hvals] at hloop
      rw [hloop, htake]
      exact Or.inr ⟨rfl, rfl⟩

/-- The state of the parser before a row: `nrrows` rows with the fields `vals` are read. -/
structure Ready (st : Csvparser) (nrrows : ℕ) (vals : List (List UInt8)) : Prop where
  small : st.data.length < 2 ^ 59
  columns_pos : 0 < st.nrcolumns
  columns_le : st.nrcolumns ≤ st.data.length
  offset_le : st.offset ≤ st.data.length
  consumed : nrrows * st.nrcolumns ≤ st.offset
  table_length : st.tablevalues.length = st.allocatedRows * st.nrcolumns
  table_le : st.allocatedRows * st.nrcolumns ≤ 2 * st.data.length
  vals_length : vals.length = nrrows * st.nrcolumns
  stored : Stored st.data st.tablevalues vals

theorem tablesize_eq {m : ℕ} (h : m * st.nrcolumns ≤ 2 * st.data.length)
    (hsmall : st.data.length < 2 ^ 59) : tablesize st m = m * st.nrcolumns * 16 := by
  rw [tablesize, sizeofString, Nat.mod_eq_of_lt (by omega)]

theorem resizetable_spec {nrrows m : ℕ} {vals : List (List UInt8)} (h : Ready st nrrows vals)
    (hm : st.allocatedRows < m) (hle : m * st.nrcolumns ≤ 2 * st.data.length) :
    ∃ table, resizetable st m = .ok { st with allocatedRows := m, tablevalues := table } ∧
      Ready { st with allocatedRows := m, tablevalues := table } nrrows vals := by
  have hone : 1 * st.nrcolumns ≤ 2 * st.data.length := by
    have hcols := h.columns_le
    omega
  have hnew := tablesize_eq hle h.small
  have hdiv : tablesize st m / tablesize st 1 = m := by
    rw [hnew, tablesize_eq hone h.small, Nat.one_mul, Nat.mul_assoc]
    exact Nat.mul_div_cancel m (Nat.mul_pos h.columns_pos (by omega))
  have hentries : tablesize st m / sizeofString = m * st.nrcolumns := by
    rw [hnew, sizeofString]
    exact Nat.mul_div_cancel _ (by omega)
  have hmono : st.allocatedRows * st.nrcolumns ≤ m * st.nrcolumns :=
    Nat.mul_le_mul_right st.nrcolumns hm.le
  have hlen := h.table_length
  obtain ⟨strs, hprefix, hvals⟩ := h.stored
  rw [resizetable, if_pos hm]
  dsimp only
  rw [if_neg (not_not.mpr hdiv), hentries]
  refine ⟨_, rfl, { h with table_length := ?_, table_le := hle, stored := ?_ }⟩
  · rw [List.length_append, List.length_replicate]
    dsimp only
    omega
  · exact ⟨strs, hprefix.trans (List.prefix_append _ _), hvals⟩

theorem growtable_spec {nrrows : ℕ} {vals : List (List UInt8)} (h : Ready st nrrows vals) :
    ∃ rows table, growtable st (nrrows + 1) =
        .ok { st with allocatedRows := rows, tablevalues := table } ∧
      Ready { st with allocatedRows := rows, tablevalues := table } nrrows vals ∧
      nrrows + 1 ≤ rows := by
  have hconsumed := h.consumed
  have hoffset := h.offset_le
  have hcols := h.columns_le
  rw [growtable]
  by_cases hfull : nrrows + 1 > st.allocatedRows
  · rw [if_pos hfull]
    have hle : 2 * st.allocatedRows * st.nrcolumns ≤ 2 * st.data.length := by
      have hrows : st.allocatedRows * st.nrcolumns ≤ nrrows * st.nrcolumns :=
        Nat.mul_le_mul_right st.nrcolumns (by omega)
      rw [Nat.mul_assoc]
      omega
    have hmod : 2 * st.allocatedRows % 2 ^ 64 = 2 * st.allocatedRows := by
      have hrows : 2 * st.allocatedRows ≤ 2 * st.allocatedRows * st.nrcolumns :=
        Nat.le_mul_of_pos_right _ h.columns_pos
      have hsmall := h.small
      exact Nat.mod_eq_of_lt (by omega)
    rw [hmod]
    by_cases hdouble : 2 * st.allocatedRows > nrrows + 1
    · rw [if_pos hdouble]
      obtain ⟨table, hresize, hready⟩ := resizetable_spec h (by omega) hle
      exact ⟨_, table, hresize, hready, by omega⟩
    · rw [if_neg hdouble]
      have hle' : (nrrows + 1) * st.nrcolumns ≤ 2 * st.data.length := by
        rw [Nat.succ_mul]
        omega
      obtain ⟨table, hresize, hready⟩ := resizetable_spec h hfull hle'
      exact ⟨_, table, hresize, hready, le_refl _⟩
  · rw [if_neg hfull]
    exact ⟨st.allocatedRows, st.tablevalues, rfl, h, by omega⟩

/-! ## The rows -/

/-- The lines from an offset on are records with `n` fields. -/
def RowsAt (data : List UInt8) (o n : ℕ) (rows : List (List (List UInt8))) : Prop :=
  List.Forall₂ (fun line row => record line = some row) (lines (tokensAt data o)) rows ∧
    ∀ row ∈ rows, row.length = n

theorem rowsLoop_same_line (fuel : ℕ) {nrrows : ℕ} {vals : List (List UInt8)} (h : Ready st nrrows vals)
    (tableindex : ℕ) :
    rowsLoop (fuel + 1) st nrrows tableindex st.linenr = .error (.errno .EINVAL) := by
  obtain ⟨rows, table, hgrow, -, -⟩ := growtable_spec h
  rw [rowsLoop, hgrow, ok_bind, if_pos rfl]

theorem takeRow_of_rowsAt {rows : List (List (List UInt8))} (hn : 0 < n)
    (hline : ¬ AtEnd (tokensAt data o)) (h : RowsAt data o n rows) :
    ∃ row rows', rows = row :: rows' ∧
      takeRow (n - 1) (tokensAt data o) = some (row, afterLine (tokensAt data o)) := by
  obtain ⟨hrecords, hwidth⟩ := h
  obtain ⟨m, rfl⟩ : ∃ m, n = m + 1 := ⟨n - 1, by omega⟩
  rw [lines_eq_cons hline] at hrecords
  cases hrecords with
  | cons hrow hrest =>
    rename_i row rows'
    exact ⟨row, rows', rfl, (takeRow_iff.mpr ⟨hrow, hwidth row List.mem_cons_self, rfl⟩).1⟩

/-- **A row more**: the row that was read is the first line, and the others follow. -/
theorem rowsAt_cons {o' : ℕ} {row : List (List UInt8)} {rest : List (Token (List UInt8))}
    {rows : List (List (List UInt8))} (hn : 0 < n)
    (htake : takeRow (n - 1) (tokensAt data o) = some (row, rest)) (hend : AtEnd rest)
    (hlines : lines rest = lines (tokensAt data o')) :
    RowsAt data o n (row :: rows) ↔ RowsAt data o' n rows := by
  obtain ⟨m, rfl⟩ : ∃ m, n = m + 1 := ⟨n - 1, by omega⟩
  obtain ⟨hrow, hlen, hafter⟩ := takeRow_iff.mp ⟨htake, hend⟩
  have hne : firstLine (tokensAt data o) ≠ [] := by
    intro hnil
    rw [hnil, record] at hrow
    · exact absurd hrow (by simp)
    · simp
    · simp
  rw [RowsAt, RowsAt, lines_eq_cons hne, ← hafter, hlines, List.forall₂_cons]
  constructor
  · rintro ⟨⟨-, hrest⟩, hwidth⟩
    exact ⟨hrest, fun row' hrow' => hwidth row' (List.mem_cons_of_mem _ hrow')⟩
  · rintro ⟨hrest, hwidth⟩
    exact ⟨⟨hrow, hrest⟩, List.forall_mem_cons.mpr ⟨hlen, hwidth⟩⟩

/-- **The rows** from an offset on are read if they are records of the right length. -/
theorem rowsLoop_spec :
    ∀ (fuel : ℕ) (st : Csvparser) (nrrows oldlinenr : ℕ) (vals : List (List UInt8)),
      Ready st nrrows vals → Stops st.data st.offset → st.offset < st.data.length →
      st.data.length < fuel + st.offset → oldlinenr ≠ st.linenr →
      (∃ rows st', rowsLoop fuel st nrrows vals.length oldlinenr = .ok st' ∧
        RowsAt st.data st.offset st.nrcolumns rows ∧ rows ≠ [] ∧ st'.nrcolumns = st.nrcolumns ∧
        st'.nrrows = nrrows + rows.length ∧ Stored st.data st'.tablevalues (vals ++ rows.flatten)) ∨
      (rowsLoop fuel st nrrows vals.length oldlinenr = .error (.errno .EINVAL) ∧
        ∀ rows, ¬ RowsAt st.data st.offset st.nrcolumns rows) := by
  intro fuel
  induction fuel with
  | zero =>
    intro st nrrows oldlinenr vals hready hstops hlt hfuel
    omega
  | succ fuel ih =>
    intro st nrrows oldlinenr vals hready hstops hlt hfuel hold
    obtain ⟨allocated, table, hgrow, hready, hplace⟩ := growtable_spec hready
    have hpos : 0 < st.nrcolumns := hready.columns_pos
    have hline : ¬ AtEnd (tokensAt st.data st.offset) := fun hend =>
      hlt.ne ((atEnd_iff_of_stops hstops).mp hend)
    rw [rowsLoop, hgrow, ok_bind, if_neg hold]
    dsimp only
    rcases parsedatafield_spec { st with allocatedRows := allocated, tablevalues := table } hstops with
      ⟨value, o1, hfield, hlt1, hle1, htok⟩ | ⟨hfield, hne⟩
    swap
    · rw [hfield, error_bind]
      refine Or.inr ⟨rfl, fun rows hrows => ?_⟩
      obtain ⟨row, rows', -, htake⟩ := takeRow_of_rowsAt hpos hline hrows
      rw [takeRow_of_ne_field hne] at htake
      exact absurd htake (by simp)
    dsimp only at hlt1 hle1 htok
    have hmul : (nrrows + 1) * st.nrcolumns ≤ table.length := by
      have hlen : table.length = allocated * st.nrcolumns := hready.table_length
      rw [hlen]
      exact Nat.mul_le_mul_right st.nrcolumns hplace
    have hvals : vals.length = nrrows * st.nrcolumns := hready.vals_length
    have hsucc : (nrrows + 1) * st.nrcolumns = nrrows * st.nrcolumns + st.nrcolumns := Nat.succ_mul _ _
    obtain ⟨table1, hset, htable1, hstored1⟩ :=
      setvalue_spec { st with offset := o1, allocatedRows := allocated, tablevalues := table }
        (show vals.length < table.length by omega) hready.stored value
    dsimp only at hset htable1 hstored1
    rw [hfield, ok_bind]
    dsimp only
    rw [hset, ok_bind]
    have hvals1 : (vals ++ [value.bytes st.data]).length = vals.length + 1 := by
      rw [List.length_append, List.length_singleton]
    have hcolumns := columnsLoop_spec (st.nrcolumns - 1)
      { st with offset := o1, allocatedRows := allocated, tablevalues := table1 }
      (vals ++ [value.bytes st.data]) hle1 (by dsimp only; omega) hstored1
    dsimp only at hcolumns ⊢
    rw [hvals1] at hcolumns
    rcases hcolumns with ⟨row, o2, table2, hloop, hlo2, hle2, htable2, hstored2, hrow, htake⟩ |
      ⟨hloop, htake⟩
    swap
    · rw [hloop, error_bind]
      refine Or.inr ⟨rfl, fun rows hrows => ?_⟩
      obtain ⟨row, rows', -, htake'⟩ := takeRow_of_rowsAt hpos hline hrows
      rw [htok, takeRow_field, htake] at htake'
      exact absurd htake' (by simp)
    rw [hloop, ok_bind]
    dsimp only
    have htake' : takeRow (st.nrcolumns - 1) (tokensAt st.data st.offset) =
        some (value.bytes st.data :: row, tokensAt st.data o2) := by
      rw [htok, takeRow_field, htake]
      rfl
    obtain ⟨o3, k, hskip, hlo3, hle3, hstops3, hlines, hend, -⟩ := skipempty_cases
      { st with offset := o2, allocatedRows := allocated, tablevalues := table2 } hle2
    dsimp only at hskip hlo3 hle3 hstops3 hlines hend
    rw [hskip, ok_bind]
    dsimp only
    have hflat : vals ++ [value.bytes st.data] ++ row = vals ++ (value.bytes st.data :: row) :=
      (List.append_cons vals _ row).symm
    rw [hflat] at hstored2
    by_cases hmore : o3 < st.data.length
    · rw [if_pos hmore]
      have hready3 : Ready { st with
          offset := o3, linenr := st.linenr + k, allocatedRows := allocated, tablevalues := table2 }
          (nrrows + 1) (vals ++ (value.bytes st.data :: row)) := by
        have hconsumed : nrrows * st.nrcolumns ≤ st.offset := hready.consumed
        have hlen : table.length = allocated * st.nrcolumns := hready.table_length
        refine { hready with offset_le := hle3, consumed := ?_, table_length := ?_,
                             vals_length := ?_, stored := hstored2 }
        · dsimp only
          omega
        · dsimp only
          omega
        · rw [List.length_append, List.length_cons]
          dsimp only
          omega
      have hvals3 : (vals ++ (value.bytes st.data :: row)).length = vals.length + 1 + (st.nrcolumns - 1) := by
        rw [List.length_append, List.length_cons]
        omega
      by_cases hk : k = 0
      · subst hk
        obtain ⟨fuel, rfl⟩ : ∃ f, fuel = f + 1 := ⟨fuel - 1, by omega⟩
        have hsame := rowsLoop_same_line fuel hready3 (vals.length + 1 + (st.nrcolumns - 1))
        refine Or.inr ⟨hsame, fun rows hrows => ?_⟩
        obtain ⟨row', rows', -, htake2⟩ := takeRow_of_rowsAt hpos hline hrows
        rw [htake'] at htake2
        obtain ⟨-, hafter⟩ := Prod.mk.inj (Option.some.inj htake2)
        have hat : AtEnd (tokensAt st.data o2) := by
          rw [hafter]
          exact atEnd_afterLine _
        rcases hend.mp hat with hk | hlen
        · omega
        · omega
      · have hat : AtEnd (tokensAt st.data o2) := hend.mpr (Or.inl (by omega))
        have hnext := ih { st with
          offset := o3, linenr := st.linenr + k, allocatedRows := allocated, tablevalues := table2 }
          (nrrows + 1) st.linenr (vals ++ (value.bytes st.data :: row)) hready3 hstops3 hmore
          (by dsimp only; omega) (by dsimp only; omega)
        dsimp only at hnext
        rw [hvals3] at hnext
        rcases hnext with ⟨rows, st', hrec, hrows, -, hcols, hnr, hstored⟩ | ⟨hrec, hno⟩
        · refine Or.inl ⟨(value.bytes st.data :: row) :: rows, st', hrec, ?_, by simp, hcols, ?_, ?_⟩
          · exact (rowsAt_cons hpos htake' hat hlines).mpr hrows
          · rw [hnr, List.length_cons]
            omega
          · rwa [List.flatten_cons, ← List.append_assoc]
        · refine Or.inr ⟨hrec, fun rows hrows => ?_⟩
          obtain ⟨row', rows', rfl, htake2⟩ := takeRow_of_rowsAt hpos hline hrows
          rw [htake'] at htake2
          obtain ⟨rfl, -⟩ := Prod.mk.inj (Option.some.inj htake2)
          exact hno rows' ((rowsAt_cons hpos htake' hat hlines).mp hrows)
    · rw [if_neg hmore]
      have hlen : o3 = st.data.length := by omega
      have hat : AtEnd (tokensAt st.data o2) := hend.mpr (Or.inr hlen)
      refine Or.inl ⟨[value.bytes st.data :: row], _, rfl, ?_, by simp, rfl, rfl, ?_⟩
      · refine (rowsAt_cons hpos htake' hat hlines).mpr ⟨?_, by simp⟩
        rw [hlen, tokensAt_length]
        exact List.Forall₂.nil
      · rw [List.flatten_singleton]
        exact hstored2

/-! ## The whole file -/

theorem getElem?_flatten {α : Type} {rows : List (List α)} (hwidth : ∀ row ∈ rows, row.length = n)
    {i j : ℕ} (hj : j < n) : rows.flatten[n * i + j]? = rows[i]?.bind fun row => row[j]? := by
  induction rows generalizing i with
  | nil => simp
  | cons row rows ih =>
    have hlen : row.length = n := hwidth row List.mem_cons_self
    rw [List.flatten_cons]
    cases i with
    | zero =>
      rw [Nat.mul_zero, Nat.zero_add, List.getElem?_append_left (by omega), List.getElem?_cons_zero]
      rfl
    | succ i =>
      have hidx : n * (i + 1) + j - row.length = n * i + j := by
        rw [Nat.mul_succ]
        omega
      have hge : row.length ≤ n * (i + 1) + j := by
        rw [Nat.mul_succ]
        omega
      rw [List.getElem?_append_right hge, hidx, List.getElem?_cons_succ]
      exact ih fun row' hrow' => hwidth row' (List.mem_cons_of_mem _ hrow')

theorem Stored.getElem? {table : List (Option StringT)} {vals : List (List UInt8)}
    (h : Stored data table vals) {i : ℕ} {v : List UInt8} (hv : vals[i]? = some v) :
    ∃ value : StringT, table[i]? = some (some value) ∧ value.bytes data = v := by
  obtain ⟨strs, ⟨rest, rfl⟩, rfl⟩ := h
  rw [List.getElem?_map, Option.map_eq_some_iff] at hv
  obtain ⟨value, hvalue, rfl⟩ := hv
  obtain ⟨hlt, -⟩ := List.getElem?_eq_some_iff.mp hvalue
  refine ⟨value, ?_, rfl⟩
  rw [List.getElem?_append_left (by rwa [List.length_map]), List.getElem?_map, hvalue]
  rfl

/-- The reader has the rows and columns of a table, and the bytes of its fields. -/
structure Holds (data : List UInt8) (csvfile : CsvfilereaderT) (n : ℕ)
    (rows : List (List (List UInt8))) : Prop where
  nrrows : csvfile.nrrows = rows.length
  nrcolumns : csvfile.nrcolumns = n
  colvalue : ∀ row column, row < rows.length → column < n → ∃ value,
    colvalue csvfile row column = .ok value ∧
      (rows[row]?.bind fun fields => fields[column]?) = some (value.bytes data)

theorem holds_of_stored {csvfile : CsvfilereaderT} {rows : List (List (List UInt8))}
    (hnrrows : csvfile.nrrows = rows.length) (hnrcolumns : csvfile.nrcolumns = n)
    (hwidth : ∀ row ∈ rows, row.length = n) (hstored : Stored data csvfile.tablevalues rows.flatten) :
    Holds data csvfile n rows := by
  refine ⟨hnrrows, hnrcolumns, fun row column hrow hcolumn => ?_⟩
  have hlen : rows[row].length = n := hwidth _ (List.getElem_mem hrow)
  have hflat := getElem?_flatten hwidth (i := row) hcolumn
  rw [List.getElem?_eq_getElem hrow, Option.bind_some,
    List.getElem?_eq_getElem (by omega : column < rows[row].length)] at hflat
  obtain ⟨value, htable, hbytes⟩ := hstored.getElem? hflat
  refine ⟨value, ?_, ?_⟩
  · rw [Csvfilereader.colvalue, hnrcolumns, hnrrows, if_neg (not_not.mpr hcolumn),
      if_neg (not_not.mpr hrow), htable]
  · rw [List.getElem?_eq_getElem hrow, Option.bind_some,
      List.getElem?_eq_getElem (by omega : column < rows[row].length), hbytes]

theorem parsenrcolumns_spec (st : Csvparser) (h : st.offset ≤ st.data.length) :
    ∃ o k, o ≤ st.data.length ∧ Stops st.data o ∧
      lines (tokensAt st.data st.offset) = lines (tokensAt st.data o) ∧
      ((o = st.data.length ∧ parsenrcolumns st =
          .ok { st with offset := o, linenr := st.linenr + k, nrcolumns := 0 }) ∨
        (o < st.data.length ∧ ∃ m, countRow (tokensAt st.data o) = some m ∧ 0 < m ∧
          o + m ≤ st.data.length ∧ parsenrcolumns st =
            .ok { st with offset := o, linenr := st.linenr + k, nrcolumns := m }) ∨
        (o < st.data.length ∧ countRow (tokensAt st.data o) = none ∧
          parsenrcolumns st = .error (.errno .EINVAL))) := by
  obtain ⟨o, k, hskip, -, hle, hstops, hlines, -, -⟩ := skipempty_cases st h
  refine ⟨o, k, hle, hstops, hlines, ?_⟩
  rw [parsenrcolumns, hskip, ok_bind]
  dsimp only
  by_cases hlt : o < st.data.length
  · rw [if_pos hlt]
    have hfuel : st.data.length < st.data.length + 1 + o := by omega
    rcases nrcolumnsLoop_spec (st.data.length + 1) { st with offset := o, linenr := st.linenr + k } 0
      hstops hle hfuel with ⟨m, hcount, hloop, hbound, hpos⟩ | ⟨hcount, hloop⟩
    · dsimp only at hcount hloop hbound
      rw [hloop, Nat.zero_add]
      exact Or.inr (Or.inl ⟨hlt, m, hcount, hpos, hbound, rfl⟩)
    · dsimp only at hcount hloop
      rw [hloop]
      exact Or.inr (Or.inr ⟨hlt, hcount, rfl⟩)
  · rw [if_neg hlt]
    exact Or.inl ⟨by omega, rfl⟩

theorem parsenrcolumns_init (data : List UInt8) (hsmall : data.length < 2 ^ 59) :
    ∃ o, Stops data o ∧ lines (tokens data) = lines (tokensAt data o) ∧
      ((o = data.length ∧ ∃ st, parsenrcolumns (csvparserInit data) = .ok st ∧
          st.nrcolumns = 0 ∧ st.nrrows = 0) ∨
        (o < data.length ∧ ∃ st, parsenrcolumns (csvparserInit data) = .ok st ∧ Ready st 0 [] ∧
          st.data = data ∧ st.offset = o ∧ 0 < st.linenr ∧
          countRow (tokensAt data o) = some st.nrcolumns) ∨
        (o < data.length ∧ countRow (tokensAt data o) = none ∧
          parsenrcolumns (csvparserInit data) = .error (.errno .EINVAL))) := by
  obtain ⟨o, k, hle, hstops, hlines, ⟨hlen, hparse⟩ | ⟨hlt, m, hcount, hpos, hbound, hparse⟩ | hnone⟩ :=
    parsenrcolumns_spec (csvparserInit data) (Nat.zero_le _)
  · exact ⟨o, hstops, hlines, Or.inl ⟨hlen, _, hparse, rfl, rfl⟩⟩
  · refine ⟨o, hstops, hlines, Or.inr (Or.inl ⟨hlt, _, hparse, ?_, rfl, rfl, ?_, hcount⟩)⟩
    · have hzero : 0 * m = 0 := Nat.zero_mul m
      exact
        { small := hsmall
          columns_pos := hpos
          columns_le := (Nat.le_add_left m o).trans hbound
          offset_le := hle
          consumed := hzero.trans_le (Nat.zero_le o)
          table_length := hzero.symm
          table_le := hzero.trans_le (Nat.zero_le _)
          vals_length := hzero.symm
          stored := ⟨[], List.nil_prefix, rfl⟩ }
    · exact Nat.lt_of_lt_of_le Nat.one_pos (Nat.le_add_right 1 k)
  · exact ⟨o, hstops, hlines, Or.inr (Or.inr hnone)⟩

theorem tablesize_div {nrrows : ℕ} {vals : List (List UInt8)} (h : Ready st nrrows vals) :
    tablesize st 1 / st.nrcolumns = sizeofString := by
  have hcols := h.columns_le
  rw [tablesize_eq (by omega) h.small, Nat.one_mul, sizeofString]
  exact Nat.mul_div_cancel_left 16 h.columns_pos

/-- **A file is read exactly if it is a table**: then the reader has its rows, its columns and the
bytes between the quotes of its fields, and otherwise the error is `EINVAL`. -/
theorem init_exact (data : List UInt8) (hsmall : data.length < 2 ^ 59) :
    (∃ n rows csvfile, IsTable (tokens data) n rows ∧ init data = .ok csvfile ∧
      Holds data csvfile n rows) ∨
    ((∀ n rows, ¬ IsTable (tokens data) n rows) ∧ init data = .error (.errno .EINVAL)) := by
  obtain ⟨o, hstops, hlines, hcases⟩ := parsenrcolumns_init data hsmall
  have hrowsAt : ∀ n rows, IsTable (tokens data) n rows → RowsAt data o n rows :=
    fun n rows htable => ⟨hlines ▸ htable.records, htable.width⟩
  rcases hcases with ⟨hlen, st, hparse, hcols, hrows⟩ |
    ⟨hlt, st, hparse, hready, hdata, hoffset, hlinenr, hcount⟩ | ⟨hlt, hcount, hparse⟩
  · rw [init, hparse, ok_bind, if_neg (not_not.mpr hcols), ok_bind]
    refine Or.inl ⟨0, [], _, ⟨?_, by simp, fun _ => rfl⟩, rfl, hrows, hcols, ?_⟩
    · rw [hlines, hlen, tokensAt_length]
      exact List.Forall₂.nil
    · intro row column hrow
      exact absurd hrow (Nat.not_lt_zero row)
  · have hline : ¬ AtEnd (tokensAt data o) := fun hend => hlt.ne ((atEnd_iff_of_stops hstops).mp hend)
    subst hdata hoffset
    have hloop := rowsLoop_spec (st.data.length + 1) st 0 (st.linenr - 1) [] hready hstops hlt
      (by omega) (by omega)
    rw [init, hparse, ok_bind, if_pos hready.columns_pos.ne', if_neg (not_not.mpr (tablesize_div hready)),
      parsedata]
    rcases hloop with ⟨rows, st', hloop, hrows, hne, hcols, hnr, hstored⟩ | ⟨hloop, hno⟩
    · rw [List.length_nil] at hloop
      rw [hloop, ok_bind]
      refine Or.inl ⟨st.nrcolumns, rows, _,
        ⟨hlines ▸ hrows.1, hrows.2, fun hnil => absurd hnil hne⟩, rfl, ?_⟩
      refine holds_of_stored ?_ hcols hrows.2 hstored
      rw [← Nat.zero_add rows.length]
      exact hnr
    · rw [List.length_nil] at hloop
      rw [hloop, error_bind]
      refine Or.inr ⟨fun n rows htable => ?_, rfl⟩
      -- the number of columns of a table is the number of fields of its first line
      have hrows := hrowsAt n rows htable
      have hrecords := hrows.1
      rw [lines_eq_cons hline] at hrecords
      cases hrecords with
      | cons hrow hrest =>
        obtain ⟨row', hrow', hlen⟩ := countRow_iff.mp hcount
        rw [hrow] at hrow'
        obtain rfl := Option.some.inj hrow'
        have hn : n = st.nrcolumns := by rw [← hlen, hrows.2 _ List.mem_cons_self]
        exact hno _ (hn ▸ hrows)
  · have hline : ¬ AtEnd (tokensAt data o) := fun hend => hlt.ne ((atEnd_iff_of_stops hstops).mp hend)
    refine Or.inr ⟨fun n rows htable => ?_, by rw [init, hparse]; rfl⟩
    have hrecords := (hrowsAt n rows htable).1
    rw [lines_eq_cons hline] at hrecords
    cases hrecords with
    | cons hrow hrest =>
      rw [countRow_iff.mpr ⟨_, hrow, rfl⟩] at hcount
      exact absurd hcount (by simp)

/-- A table with a comment, an empty line and an empty field. -/
theorem init_exact_comment :
    (∃ n rows csvfile, IsTable (tokens [35, 10, 34, 97, 34, 44, 34, 34, 10]) n rows ∧
      init [35, 10, 34, 97, 34, 44, 34, 34, 10] = .ok csvfile ∧
      Holds [35, 10, 34, 97, 34, 44, 34, 34, 10] csvfile n rows) ∨
    ((∀ n rows, ¬ IsTable (tokens [35, 10, 34, 97, 34, 44, 34, 34, 10]) n rows) ∧
      init [35, 10, 34, 97, 34, 44, 34, 34, 10] = .error (.errno .EINVAL)) :=
  init_exact [35, 10, 34, 97, 34, 44, 34, 34, 10] (by decide)

end Csvfilereader
end CKern
