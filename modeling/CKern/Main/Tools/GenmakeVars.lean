import CKern.Main.Tools.GenmakeIndex

/-!
# `main/tools/genmake.c`: the variables of a line

* `replace_vars`: the function, with its buffer.  It stops if a byte is written outside of the buffer
  or if an assertion fails.
* `scan`: the characters and the references of a line.
* `Substitutes`: a reference to each stored variable is replaced by its value, and every other line
  is refused.
* `copyText_spec`, `replaceLoop_spec`: one pass of the loop, and all of them.
* `replace_vars_iff`: which lines are substituted as they should be.
-/

namespace CKern
namespace Genmake

open Exthash Redblacktree BinaryTree SearchTree

/-! ## The buffer -/

/-- A string that ends with a 0 byte. -/
abbrev CString := {s : List UInt8 // 0 ∉ s}

/-- `result`, `size` and `resultOffset`.  A byte of the buffer that was not written has no value. -/
structure Buffer where
  result : List (Option UInt8)
  size : ℕ
  resultOffset : ℕ
  deriving DecidableEq

/-- A byte is written to the buffer. -/
def Buffer.write (buf : Buffer) (i : ℕ) (c : UInt8) : Option Buffer :=
  if i < buf.result.length then some { buf with result := buf.result.set i (some c) } else none

/-- `resultOffset` is moved, and `assert( resultOffset < size )`. -/
def Buffer.advance (buf : Buffer) (n : ℕ) : Option Buffer :=
  if buf.resultOffset + n < buf.size then some { buf with resultOffset := buf.resultOffset + n }
  else none

def strcpy (buf : Buffer) (i : ℕ) : List UInt8 → Option Buffer
  | [] => buf.write i 0
  | c :: src => (buf.write i c).bind fun buf => strcpy buf (i + 1) src

/-! ## The function -/

/-- The messages of `replace_vars`. -/
inductive Message
  | expectedNonEmpty
  | expectedClose
  | undefinedValue (name : List UInt8)
  | outOfMemory
  deriving DecidableEq, Repr

/-- The first loop copies the bytes up to a reference, and returns `varStart`; `n` bytes of the line
are left. -/
def copyText (linebuffer : List UInt8) : ℕ → Buffer → Option (ℕ × Buffer)
  | 0, buf => some (linebuffer.length, buf)
  | n + 1, buf =>
    let len := linebuffer.length
    let i := len - (n + 1)
    if linebuffer.getD i 0 = 36 ∧ i < len - 1 ∧ linebuffer.getD (i + 1) 0 = 40 then
      some (i + 2, buf)
    else
      (buf.write buf.resultOffset (linebuffer.getD i 0)).bind fun buf =>
        (buf.advance 1).bind fun buf => copyText linebuffer n buf

/-- The second loop returns `varEnd`. -/
def findVarEnd (linebuffer : List UInt8) : ℕ → ℕ
  | 0 => linebuffer.length
  | n + 1 =>
    let i := linebuffer.length - (n + 1)
    if linebuffer.getD i 0 = 41 then i else findVarEnd linebuffer n

/-- The value of a variable is appended, in place of a reference of `reflen` bytes.  `malloc` tells
for which sizes there is memory. -/
def copyValue (malloc : ℕ → Bool) (buf : Buffer) (data : Option CString) (reflen : ℕ) :
    Option (Option Buffer) :=
  let datalen := (data.map fun data => data.1.length).getD 0
  if datalen ≠ 0 then
    let size := if datalen > reflen then buf.size + (datalen - reflen) else buf.size
    if datalen > reflen ∧ ¬malloc size then some none
    else
      let buf := { buf with
        size   := size
        result := buf.result ++ List.replicate (size - buf.size) none }
      (strcpy buf buf.resultOffset ((data.map fun data => data.1).getD [])).bind fun buf =>
        (buf.advance datalen).map some
  else some (some buf)

/-- The loop: the buffer or a message, and the entries of which `isUsed` is set, one after the
other. -/
def replaceLoop (malloc : ℕ → Bool) (hashindex : Exthash HashEntry)
    (data : HashEntry → Option CString) (linebuffer : List UInt8) :
    ℕ → ℕ → Buffer → List HashEntry → Option (Except Message Buffer × List HashEntry)
  | 0, _, _, _ => none
  | fuel + 1, bufferOffset, buf, isUsed =>
    let len := linebuffer.length
    (copyText linebuffer (len - bufferOffset) buf).bind fun (varStart, buf) =>
      if varStart = len then some (.ok buf, isUsed)
      else
        let varEnd := findVarEnd linebuffer (len - varStart)
        if varStart = varEnd then some (.error .expectedNonEmpty, isUsed)
        else if varEnd = len then some (.error .expectedClose, isUsed)
        else
          let hashkey := (linebuffer.drop varStart).take (varEnd - varStart)
          (findExthash s_hashadapt hashindex hashkey).bind fun found =>
            match found with
            | .error _ => some (.error (.undefinedValue hashkey), isUsed)
            | .ok hash_entry =>
              (copyValue malloc buf (data hash_entry) (varEnd - varStart + 3)).bind fun copied =>
                match copied with
                | none => some (.error .outOfMemory, isUsed ++ [hash_entry])
                | some buf =>
                  replaceLoop malloc hashindex data linebuffer fuel (varEnd + 1) buf
                    (isUsed ++ [hash_entry])

/-- What `replace_vars` returns, what it prints, and the entries that it marks as used. -/
structure Replaced where
  result : Option (List (Option UInt8))
  printed : Option (Message × ℤ × List UInt8)
  isUsed : List HashEntry
  deriving DecidableEq

def replace_vars (malloc : ℕ → Bool) (hashindex : Exthash HashEntry)
    (data : HashEntry → Option CString) (lineNr : ℤ) (linebuffer : Option (List UInt8))
    (filename : List UInt8) : Option Replaced :=
  match linebuffer with
  | none => some ⟨none, none, []⟩
  | some linebuffer =>
    let len := linebuffer.length
    -- `((int)len) < 0`
    if 2 ^ 31 ≤ len % 2 ^ 32 then some ⟨none, none, []⟩
    else
      let size := len + 1
      if malloc size then
        (replaceLoop malloc hashindex data linebuffer (len + 1) 0
          ⟨List.replicate size none, size, 0⟩ []).bind fun (out, isUsed) =>
            match out with
            | .error message => some ⟨none, some (message, lineNr, filename), isUsed⟩
            | .ok buf =>
              if buf.resultOffset < buf.size then
                (buf.write buf.resultOffset 0).map fun buf => ⟨some buf.result, none, isUsed⟩
              else none
      else some ⟨none, some (.outOfMemory, lineNr, filename), []⟩

/-! ## The references of a line -/

inductive Piece
  | char (c : UInt8)
  | ref (name : List UInt8)
  deriving DecidableEq, Repr

/-- How a line ends: without an open reference, with the two bytes `$(`, with `$()`, or with a name
that is not closed. -/
inductive Ending
  | complete
  | atEnd
  | emptyName
  | unclosed
  deriving DecidableEq, Repr

/-- The pieces of a line from left to right, up to the first reference without a name or without an
end; a name that was begun, and the bytes that follow. -/
def scan : Option (List UInt8) → List UInt8 → List Piece × Ending
  | none, [] => ([], .complete)
  | none, [c] => ([.char c], .complete)
  | none, c :: d :: line =>
    if c = 36 ∧ d = 40 then scan (some []) line
    else (.char c :: (scan none (d :: line)).1, (scan none (d :: line)).2)
  | some name, [] => ([], if name = [] then .atEnd else .unclosed)
  | some name, c :: line =>
    if c = 41 then
      if name = [] then ([], .emptyName)
      else (.ref name :: (scan none line).1, (scan none line).2)
    else scan (some (name ++ [c])) line

def Piece.name? : Piece → Option (List UInt8)
  | .char _ => none
  | .ref name => some name

/-- The names of the references of a line. -/
def names (line : List UInt8) : List (List UInt8) := (scan none line).1.filterMap Piece.name?

/-- The value of a variable, which is empty if it has none. -/
def valueOf (data : HashEntry → Option CString) (e : HashEntry) : List UInt8 :=
  ((data e).map fun data => data.1).getD []

/-- The pieces, with the value of an entry in place of each reference. -/
def substituted (data : HashEntry → Option CString) : List Piece → List HashEntry → List UInt8
  | [], _ => []
  | .char c :: pieces, es => c :: substituted data pieces es
  | .ref _ :: _, [] => []
  | .ref _ :: pieces, e :: es => valueOf data e ++ substituted data pieces es

/-- Each `$(` of the line is followed by the name of a variable and by `)`, and `es` are these
variables. -/
structure Resolves (vars : List HashEntry) (line : List UInt8) (es : List HashEntry) : Prop where
  complete : (scan none line).2 = .complete
  named : List.Forall₂ (fun name e => e ∈ vars ∧ e.name = name) (names line) es

/-- **The substitution**: each variable of the line is used, and the result is the line with their
values, closed by a 0 byte; every other line is refused. -/
structure Substitutes (vars : List HashEntry) (data : HashEntry → Option CString)
    (line : List UInt8) (out : Replaced) : Prop where
  replaced : ∀ es, Resolves vars line es → out.isUsed = es ∧ ∃ result, out.result = some result ∧
    (substituted data (scan none line).1 es ++ [0]).map some <+: result
  refused : (¬∃ es, Resolves vars line es) → out.result = none

/-! ## What the buffer holds -/

/-- The buffer begins with `text`, and there is room for so many further bytes and for a 0 byte. -/
structure Holds (buf : Buffer) (text : List UInt8) (room : ℕ) : Prop where
  length_eq : buf.result.length = buf.size
  offset_eq : buf.resultOffset = text.length
  written : text.map some <+: buf.result
  room_le : text.length + room + 1 ≤ buf.size

section Buffer

variable {buf : Buffer} {text src : List UInt8} {c : UInt8} {room n : ℕ}

theorem prefix_set {α : Type*} {l l' : List α} (a : α) (h : l <+: l') (hlen : l.length < l'.length) :
    l ++ [a] <+: l'.set l.length a := by
  obtain ⟨t, rfl⟩ := h
  rcases t with _ | ⟨b, t⟩
  · rw [List.append_nil] at hlen
    exact absurd hlen (Nat.lt_irrefl _)
  · rw [List.set_append_right _ _ le_rfl, Nat.sub_self, List.set_cons_zero]
    exact ⟨t, by rw [List.append_assoc, List.singleton_append]⟩

theorem Buffer.write_eq (h : text.map some <+: buf.result) (hlen : text.length < buf.result.length)
    (c : UInt8) : ∃ result, buf.write text.length c = some { buf with result := result } ∧
      result.length = buf.result.length ∧ (text ++ [c]).map some <+: result := by
  refine ⟨_, if_pos hlen, List.length_set .., ?_⟩
  have hset := prefix_set (some c) h (by rwa [List.length_map])
  rwa [List.length_map, ← List.map_singleton, ← List.map_append] at hset

theorem Holds.put (h : Holds buf text (room + 1)) (c : UInt8) :
    ∃ buf', ((buf.write buf.resultOffset c).bind fun buf => buf.advance 1) = some buf' ∧
      Holds buf' (text ++ [c]) room := by
  have hroom := h.room_le
  have hlen := h.length_eq
  obtain ⟨result, hwrite, hresult, hprefix⟩ := Buffer.write_eq h.written (by omega) c
  rw [h.offset_eq, hwrite]
  refine ⟨_, if_pos ?_, ⟨hresult.trans hlen, ?_, hprefix, ?_⟩⟩
  · change buf.resultOffset + 1 < buf.size
    rw [h.offset_eq]
    omega
  · rw [List.length_append, List.length_singleton]
    exact congrArg (· + 1) h.offset_eq
  · rw [List.length_append, List.length_singleton]
    change _ ≤ buf.size
    omega

theorem strcpy_eq (src : List UInt8) (h : text.map some <+: buf.result)
    (hlen : text.length + src.length < buf.result.length) :
    ∃ result, strcpy buf text.length src = some { buf with result := result } ∧
      result.length = buf.result.length ∧ (text ++ src).map some <+: result := by
  induction src generalizing buf text with
  | nil =>
    obtain ⟨result, hwrite, hresult, hprefix⟩ := Buffer.write_eq h hlen 0
    refine ⟨result, hwrite, hresult, ?_⟩
    rw [List.append_nil]
    rw [List.map_append] at hprefix
    exact (List.prefix_append _ _).trans hprefix
  | cons c src ih =>
    rw [List.length_cons] at hlen
    obtain ⟨result, hwrite, hresult, hprefix⟩ := Buffer.write_eq h (by omega) c
    have hlen' : (text ++ [c]).length + src.length < result.length := by
      rw [List.length_append, List.length_singleton, hresult]
      omega
    obtain ⟨result', hcopy, hresult', hprefix'⟩ := @ih { buf with result := result } _ hprefix hlen'
    rw [List.length_append, List.length_singleton] at hcopy
    refine ⟨result', ?_, hresult'.trans hresult, ?_⟩
    · rw [strcpy, hwrite]
      exact hcopy
    · rwa [List.append_assoc] at hprefix'

/-- **A value is appended** in place of a reference, if there is memory for it. -/
theorem copyValue_spec (malloc : ℕ → Bool) (data : Option CString) {reflen : ℕ}
    (h : Holds buf text (reflen + room)) :
    (copyValue malloc buf data reflen = some none ∧ ∃ size, malloc size = false) ∨
      ∃ buf', copyValue malloc buf data reflen = some (some buf') ∧
        Holds buf' (text ++ (data.map fun data => data.1).getD []) room := by
  have hroom := h.room_le
  rcases data with _ | value
  · refine Or.inr ⟨buf, rfl, ?_⟩
    change Holds buf (text ++ []) room
    rw [List.append_nil]
    exact ⟨h.length_eq, h.offset_eq, h.written, by omega⟩
  · change (copyValue malloc buf (some value) reflen = some none ∧ _) ∨
      ∃ buf', _ ∧ Holds buf' (text ++ value.1) room
    unfold copyValue
    dsimp only [Option.map_some, Option.getD_some]
    by_cases hnil : value.1.length = 0
    · rw [if_neg (not_not.mpr hnil), List.length_eq_zero_iff.mp hnil, List.append_nil]
      exact Or.inr ⟨buf, rfl, h.length_eq, h.offset_eq, h.written, by omega⟩
    · rw [if_pos hnil]
      set size := if value.1.length > reflen then buf.size + (value.1.length - reflen) else buf.size
        with hsize
      have hge : buf.size ≤ size ∧ text.length + value.1.length + room + 1 ≤ size := by
        rw [hsize]
        split_ifs <;> omega
      by_cases hmalloc : value.1.length > reflen ∧ ¬malloc size
      · rw [if_pos hmalloc]
        exact Or.inl ⟨rfl, size, Bool.eq_false_of_not_eq_true hmalloc.2⟩
      · rw [if_neg hmalloc]
        have hlen : (buf.result ++ List.replicate (size - buf.size) (none : Option UInt8)).length =
            size := by
          rw [List.length_append, List.length_replicate, h.length_eq]
          omega
        obtain ⟨result, hcopy, hresult, hprefix⟩ := @strcpy_eq ⟨_, size, buf.resultOffset⟩ text
          value.1 (h.written.trans (List.prefix_append _ (List.replicate (size - buf.size) none)))
          (by rw [hlen]; omega)
        refine Or.inr ⟨⟨result, size, buf.resultOffset + value.1.length⟩, ?_, hresult.trans hlen,
          ?_, hprefix, ?_⟩
        · rw [← h.offset_eq] at hcopy
          rw [hcopy, Option.bind_some, Buffer.advance, if_pos]
          · rfl
          · change buf.resultOffset + value.1.length < size
            rw [h.offset_eq]
            omega
        · rw [List.length_append]
          exact congrArg (· + value.1.length) h.offset_eq
        · rw [List.length_append]
          exact hge.2

end Buffer

/-! ## The two inner loops -/

section Loops

variable {line text acc : List UInt8} {buf : Buffer} {c : UInt8} {n : ℕ}

theorem scan_char (h : ¬(c = 36 ∧ line.head? = some 40)) :
    scan none (c :: line) = (.char c :: (scan none line).1, (scan none line).2) := by
  rcases line with _ | ⟨d, line⟩
  · rfl
  · rw [List.head?_cons, Option.some_inj] at h
    rw [scan, if_neg h]

theorem scan_name (name : List UInt8) (hname : 41 ∉ name) (acc line : List UInt8) :
    scan (some acc) (name ++ line) = scan (some (acc ++ name)) line := by
  induction name generalizing acc with
  | nil => rw [List.nil_append, List.append_nil]
  | cons c name ih =>
    rw [List.mem_cons, not_or] at hname
    rw [List.cons_append, scan, if_neg (Ne.symm hname.1), ih hname.2, List.append_assoc,
      List.singleton_append]

theorem drop_eq_getD_cons {i : ℕ} (h : i < line.length) :
    line.drop i = line.getD i 0 :: line.drop (i + 1) := by
  rw [List.drop_eq_getElem_cons h, List.getD_eq_getElem _ _ h]

/-- **The first loop** ends at the end of the line, or behind the next `$(`; it does not tell a `$(`
at the end of the line from the end. -/
theorem copyText_spec (hn : n ≤ line.length) (h : Holds buf text n) :
    ∃ varStart buf' chars, copyText line n buf = some (varStart, buf') ∧
      ((varStart = line.length ∧ Holds buf' (text ++ chars) 0 ∧
          ∃ ending, (ending = .complete ∨ ending = .atEnd) ∧
            scan none (line.drop (line.length - n)) = (chars.map .char, ending)) ∨
        line.length - n < varStart ∧ varStart < line.length ∧
          Holds buf' (text ++ chars) (line.length - varStart + 2) ∧
            scan none (line.drop (line.length - n)) =
              (chars.map .char ++ (scan (some []) (line.drop varStart)).1,
                (scan (some []) (line.drop varStart)).2)) := by
  induction n generalizing buf text with
  | zero =>
    refine ⟨_, buf, [], rfl, Or.inl ⟨rfl, ?_, .complete, Or.inl rfl, ?_⟩⟩
    · rwa [List.append_nil]
    · rw [Nat.sub_zero, List.drop_length]
      rfl
  | succ n ih =>
    rw [copyText]
    generalize hi : line.length - (n + 1) = i
    have hlen : i + (n + 1) = line.length := by omega
    have hin : line.length - n = i + 1 := by omega
    have hhead : (line.drop (i + 1)).head? = some 40 ↔
        i < line.length - 1 ∧ line.getD (i + 1) 0 = 40 := by
      by_cases hlast : i < line.length - 1
      · rw [drop_eq_getD_cons (by omega), List.head?_cons, Option.some_inj]
        exact (and_iff_right hlast).symm
      · rw [List.drop_of_length_le (by omega)]
        exact iff_of_false nofun fun h => hlast h.1
    rw [drop_eq_getD_cons (by omega)]
    by_cases href : line.getD i 0 = 36 ∧ i < line.length - 1 ∧ line.getD (i + 1) 0 = 40
    · rw [if_pos href]
      have hlast := href.2.1
      rw [drop_eq_getD_cons (i := i + 1) (by omega), scan, if_pos ⟨href.1, href.2.2⟩]
      refine ⟨i + 2, buf, [], rfl, ?_⟩
      rw [List.append_nil]
      rcases Nat.lt_or_ge (i + 2) line.length with hlt | hge
      · refine Or.inr ⟨by omega, hlt, ?_, rfl⟩
        rwa [show line.length - (i + 2) + 2 = n + 1 by omega]
      · have hend : i + 2 = line.length := by omega
        refine Or.inl ⟨hend, ?_, .atEnd, Or.inr rfl, ?_⟩
        · exact ⟨h.length_eq, h.offset_eq, h.written, by have := h.room_le; omega⟩
        · rw [hend, List.drop_length]
          rfl
    · rw [if_neg href]
      obtain ⟨buf₁, hput, hold₁⟩ := h.put (line.getD i 0)
      obtain ⟨buf₂, hwrite, hadv⟩ := Option.bind_eq_some_iff.mp hput
      obtain ⟨varStart, buf', chars, hcopy, hout⟩ := ih (by omega) hold₁
      rw [hwrite, Option.bind_some, hadv, Option.bind_some]
      rw [scan_char (by rwa [hhead])]
      refine ⟨varStart, buf', line.getD i 0 :: chars, hcopy, ?_⟩
      rw [List.append_assoc, List.singleton_append, hin] at hout
      rcases hout with ⟨hend, hold, ending, hending, hscan⟩ | ⟨hgt, hlt, hold, hscan⟩
      · exact Or.inl ⟨hend, hold, ending, hending, by rw [hscan]; rfl⟩
      · exact Or.inr ⟨by omega, hlt, hold, by rw [hscan]; rfl⟩

/-- **The second loop** finds the end of a name. -/
theorem findVarEnd_spec (hn : n ≤ line.length) :
    (findVarEnd line n = line.length ∧ 41 ∉ line.drop (line.length - n)) ∨
      line.length - n ≤ findVarEnd line n ∧ findVarEnd line n < line.length ∧
        ∃ name, 41 ∉ name ∧ name.length = findVarEnd line n - (line.length - n) ∧
          line.drop (line.length - n) = name ++ 41 :: line.drop (findVarEnd line n + 1) := by
  induction n with
  | zero =>
    refine Or.inl ⟨rfl, ?_⟩
    rw [Nat.sub_zero, List.drop_length]
    exact List.not_mem_nil
  | succ n ih =>
    rw [findVarEnd]
    generalize hi : line.length - (n + 1) = i
    have hin : line.length - n = i + 1 := by omega
    rw [hin] at ih
    rw [drop_eq_getD_cons (i := i) (by omega)]
    by_cases hc : line.getD i 0 = 41
    · rw [if_pos hc, hc]
      exact Or.inr ⟨le_rfl, by omega, [], List.not_mem_nil, (Nat.sub_self i).symm, rfl⟩
    · rw [if_neg hc]
      rcases ih (by omega) with ⟨hend, hno⟩ | ⟨hle, hlt, name, hno, hlen, hdrop⟩
      · exact Or.inl ⟨hend, List.not_mem_cons_of_ne_of_not_mem (Ne.symm hc) hno⟩
      · refine Or.inr ⟨by omega, hlt, line.getD i 0 :: name, ?_, ?_, ?_⟩
        · exact List.not_mem_cons_of_ne_of_not_mem (Ne.symm hc) hno
        · rw [List.length_cons]
          omega
        · rw [hdrop]
          rfl

end Loops

/-! ## The outer loop -/

section Replace

variable {malloc : ℕ → Bool} {index : Exthash HashEntry} {data : HashEntry → Option CString}
variable {line text : List UInt8} {buf : Buffer} {isUsed : List HashEntry} {fuel bufferOffset : ℕ}

/-- How the loop ends: with the values of the entries that are found for the references, also if the
line ends with `$(`, or with a message. -/
inductive LoopResult (malloc : ℕ → Bool) (index : Exthash HashEntry)
    (data : HashEntry → Option CString) (pieces : List Piece) (ending : Ending)
    (text : List UInt8) (isUsed : List HashEntry) : Except Message Buffer × List HashEntry → Prop
  | copied (buf : Buffer) (es : List HashEntry)
      (found : List.Forall₂ (fun name e => findExthash s_hashadapt index name = some (.ok e))
        (pieces.filterMap Piece.name?) es)
      (ending_eq : ending = .complete ∨ ending = .atEnd)
      (holds : Holds buf (text ++ substituted data pieces es) 0) :
      LoopResult malloc index data pieces ending text isUsed (.ok buf, isUsed ++ es)
  | stopped (message : Message) (isUsed' : List HashEntry)
      (reason : ending = .emptyName ∨ ending = .unclosed ∨
        (∃ name ∈ pieces.filterMap Piece.name?, ∃ err,
          findExthash s_hashadapt index name = some (.error err)) ∨
        ∃ size, malloc size = false) :
      LoopResult malloc index data pieces ending text isUsed (.error message, isUsed')

theorem find_total (hinv : Inv s_hashadapt.objects index) (key : List UInt8) :
    ∃ out, findExthash s_hashadapt index key = some out := by
  obtain ⟨t, s, tree, hidx, -, htree, -, -⟩ :=
    unsharedtableindexExthash_spec hinv (s_hashadapt.hashkey key)
  rw [findExthash, hidx]
  dsimp only
  rw [htree]
  exact ⟨_, rfl⟩

theorem substituted_chars (chars : List UInt8) (pieces : List Piece) (es : List HashEntry) :
    substituted data (chars.map .char ++ pieces) es = chars ++ substituted data pieces es := by
  induction chars with
  | nil => rfl
  | cons c chars ih =>
    rw [List.map_cons, List.cons_append, substituted, ih]
    rfl

theorem names_chars (chars : List UInt8) (pieces : List Piece) :
    (chars.map Piece.char ++ pieces).filterMap Piece.name? = pieces.filterMap Piece.name? := by
  have hnil : (chars.map Piece.char).filterMap Piece.name? = [] := by
    rw [List.filterMap_map]
    exact List.filterMap_eq_nil_iff.mpr fun c _ => rfl
  rw [List.filterMap_append, hnil, List.nil_append]

/-- **The loop** comes to its end, and no byte is written outside of the buffer. -/
theorem replaceLoop_spec (hinv : Inv s_hashadapt.objects index)
    (hoffset : bufferOffset ≤ line.length) (hfuel : line.length - bufferOffset < fuel)
    (h : Holds buf text (line.length - bufferOffset)) :
    ∃ out, replaceLoop malloc index data line fuel bufferOffset buf isUsed = some out ∧
      LoopResult malloc index data (scan none (line.drop bufferOffset)).1
        (scan none (line.drop bufferOffset)).2 text isUsed out := by
  induction fuel generalizing bufferOffset buf text isUsed with
  | zero => exact absurd hfuel (Nat.not_lt_zero _)
  | succ fuel ih =>
    rw [replaceLoop]
    obtain ⟨varStart, buf₁, chars, hcopy, hout⟩ := copyText_spec (Nat.sub_le _ _) h
    rw [Nat.sub_sub_self hoffset] at hout
    rw [hcopy, Option.bind_some]
    dsimp only
    rcases hout with ⟨hend, hold, ending, hending, hscan⟩ | ⟨hgt, hlt, hold, hscan⟩
    · rw [if_pos hend, hscan]
      refine ⟨_, rfl, ?_⟩
      have hcopied := @LoopResult.copied malloc index data (chars.map .char) ending text isUsed
        buf₁ [] (by rw [← List.append_nil (chars.map _), names_chars]; exact .nil) hending
        (by rwa [← List.append_nil (chars.map _), substituted_chars, substituted, List.append_nil])
      rwa [List.append_nil] at hcopied
    · rw [if_neg hlt.ne]
      have hvar := @findVarEnd_spec line (line.length - varStart) (Nat.sub_le _ _)
      rw [Nat.sub_sub_self hlt.le] at hvar
      generalize findVarEnd line (line.length - varStart) = varEnd at hvar ⊢
      rw [hscan]
      rcases hvar with ⟨hend, hno⟩ | ⟨hle, hltEnd, name, hno, hlen, hdrop⟩
      · -- the name is not closed
        have hne : line.drop varStart ≠ [] := List.drop_eq_nil_iff.not.mpr hlt.not_ge
        have hopen := scan_name _ hno [] []
        rw [List.append_nil, List.nil_append, scan, if_neg hne] at hopen
        rw [if_neg (by omega), if_pos hend, hopen]
        exact ⟨_, rfl, .stopped _ _ (Or.inr (Or.inl rfl))⟩
      · rw [hdrop, scan_name _ hno, List.nil_append, scan, if_pos rfl]
        by_cases hnil : name = []
        · rw [if_pos hnil, if_pos (by rw [hnil, List.length_nil] at hlen; omega)]
          exact ⟨_, rfl, .stopped _ _ (Or.inl rfl)⟩
        · have hpos : 0 < name.length := List.length_pos_of_ne_nil hnil
          have hkey : (name ++ 41 :: line.drop (varEnd + 1)).take (varEnd - varStart) = name := by
            rw [← hlen, List.take_left']
            rfl
          rw [if_neg hnil, if_neg (by omega), if_neg hltEnd.ne, hkey]
          dsimp only
          obtain ⟨found, hfind⟩ := find_total hinv name
          rw [hfind, Option.bind_some]
          have hnames : ∀ pieces, (chars.map Piece.char ++ Piece.ref name :: pieces).filterMap
              Piece.name? = name :: pieces.filterMap Piece.name? := fun pieces => names_chars _ _
          rcases found with err | e
          · refine ⟨_, rfl, .stopped _ _ (Or.inr (Or.inr (Or.inl ⟨name, ?_, err, hfind⟩)))⟩
            rw [hnames]
            exact List.mem_cons_self
          · have hroom : line.length - varStart + 2 =
                varEnd - varStart + 3 + (line.length - (varEnd + 1)) := by omega
            rw [hroom] at hold
            dsimp only
            rcases copyValue_spec malloc (data e) hold with ⟨hvalue, hmem⟩ | ⟨buf₂, hvalue, hold₂⟩
            · rw [hvalue]
              exact ⟨_, rfl, .stopped _ _ (Or.inr (Or.inr (Or.inr hmem)))⟩
            · rw [hvalue]
              obtain ⟨out, hloop, hresult⟩ := @ih (text ++ chars ++ valueOf data e) buf₂
                (isUsed ++ [e]) (varEnd + 1) hltEnd (by omega) hold₂
              refine ⟨out, hloop, ?_⟩
              cases hresult with
              | copied buf' es hfound hending hholds =>
                rw [List.append_assoc]
                refine .copied buf' ([e] ++ es) ?_ hending ?_
                · rw [hnames]
                  exact .cons hfind hfound
                · rw [substituted_chars, List.singleton_append, substituted]
                  rwa [List.append_assoc, List.append_assoc] at hholds
              | stopped message isUsed' hreason =>
                refine .stopped message isUsed' ?_
                rw [hnames]
                exact hreason.imp_right (Or.imp_right (Or.imp_left fun ⟨key, hkey, herr⟩ =>
                  ⟨key, List.mem_cons_of_mem _ hkey, herr⟩))

theorem found_of_mem {α β : Type*} {R : α → β → Prop} {l : List α} {l' : List β}
    (h : List.Forall₂ R l l') : ∀ a ∈ l, ∃ b, R a b := by
  induction h with
  | nil => exact fun _ h => absurd h List.not_mem_nil
  | cons hab _ ih => exact List.forall_mem_cons.mpr ⟨⟨_, hab⟩, ih⟩

theorem not_shadowed_iff (hinv : Inv s_hashadapt.objects index) {e : HashEntry}
    (he : e ∈ stored index) :
    ¬Shadowed index e.name ↔ findExthash s_hashadapt index e.name = some (.ok e) := by
  rw [← find_exact_of_inv hinv]
  refine ⟨fun h => (h e).mpr ⟨he, rfl⟩, fun hfind e' => ?_⟩
  rw [hfind]
  constructor
  · intro heq
    obtain rfl : e = e' := Except.ok.inj (Option.some.inj heq)
    exact ⟨he, rfl⟩
  · rintro ⟨he', hname⟩
    rw [hinv.eq_of_cmp_eq lawful_objects he he' (strcmp_eq_iff.mpr hname.symm)]

theorem found_iff_not_shadowed (hinv : Inv s_hashadapt.objects index) {vars es : List HashEntry}
    {keys : List (List UInt8)} (hvars : ∀ e ∈ vars, e ∈ stored index)
    (h : List.Forall₂ (fun name e => e ∈ vars ∧ e.name = name) keys es) :
    List.Forall₂ (fun name e => findExthash s_hashadapt index name = some (.ok e)) keys es ↔
      ∀ name ∈ keys, ¬Shadowed index name := by
  induction h with
  | nil => exact iff_of_true .nil fun _ h => absurd h List.not_mem_nil
  | cons hnamed _ ih =>
    obtain ⟨he, rfl⟩ := hnamed
    rw [List.forall₂_cons, List.forall_mem_cons, ih, not_shadowed_iff hinv (hvars _ he)]

/-- **The condition.** A line with a reference to a variable each is not longer than an `int` can
tell, and no variable is shadowed; and of each other line the code sees that it is wrong: it does not
end with `$(`, or the index finds no entry for a name, or the length is refused anyway. -/
structure Substitutable (vars : List HashEntry) (index : Exthash HashEntry) (line : List UInt8) :
    Prop where
  resolved : ∀ es, Resolves vars line es →
    ¬2 ^ 31 ≤ line.length % 2 ^ 32 ∧ ∀ name ∈ names line, ¬Shadowed index name
  unresolved : (¬∃ es, Resolves vars line es) →
    2 ^ 31 ≤ line.length % 2 ^ 32 ∨ (scan none line).2 = .emptyName ∨
      (scan none line).2 = .unclosed ∨
        ∃ name ∈ names line, ∃ err, findExthash s_hashadapt index name = some (.error err)

theorem replace_vars_spec (hinv : Inv s_hashadapt.objects index) (lineNr : ℤ)
    (filename : List UInt8) (hlen : ¬2 ^ 31 ≤ line.length % 2 ^ 32) :
    ∃ out, replace_vars malloc index data lineNr (some line) filename = some out ∧
      ((∃ result es, out = ⟨some result, none, es⟩ ∧
          List.Forall₂ (fun name e => findExthash s_hashadapt index name = some (.ok e))
            (names line) es ∧
          ((scan none line).2 = .complete ∨ (scan none line).2 = .atEnd) ∧
          (substituted data (scan none line).1 es ++ [0]).map some <+: result) ∨
        out.result = none ∧ ((scan none line).2 = .emptyName ∨ (scan none line).2 = .unclosed ∨
          (∃ name ∈ names line, ∃ err, findExthash s_hashadapt index name = some (.error err)) ∨
          ∃ size, malloc size = false)) := by
  rw [replace_vars]
  dsimp only
  rw [if_neg hlen]
  by_cases hmalloc : malloc (line.length + 1)
  · rw [if_pos hmalloc]
    have hold : Holds ⟨List.replicate (line.length + 1) none, line.length + 1, 0⟩ []
        (line.length - 0) :=
      ⟨List.length_replicate .., rfl, List.nil_prefix, by rw [List.length_nil, zero_add]; rfl⟩
    obtain ⟨out, hloop, hresult⟩ := @replaceLoop_spec malloc index data line [] _ []
      (line.length + 1) 0 hinv (Nat.zero_le _) (by omega) hold
    rw [hloop, Option.bind_some]
    cases hresult with
    | copied buf es hfound hending hholds =>
      have hroom := hholds.room_le
      have hlt : buf.resultOffset < buf.size := by rw [hholds.offset_eq]; omega
      obtain ⟨result, hwrite, -, hprefix⟩ := Buffer.write_eq hholds.written
        (by rw [← hholds.offset_eq, hholds.length_eq]; exact hlt) 0
      dsimp only
      rw [if_pos hlt, hholds.offset_eq, hwrite, Option.map_some]
      exact ⟨_, rfl, Or.inl ⟨result, es, rfl, hfound, hending, hprefix⟩⟩
    | stopped message isUsed' hreason => exact ⟨_, rfl, Or.inr ⟨rfl, hreason⟩⟩
  · rw [if_neg hmalloc]
    exact ⟨_, rfl, Or.inr ⟨rfl, Or.inr (Or.inr (Or.inr ⟨_, Bool.eq_false_of_not_eq_true hmalloc⟩))⟩⟩

theorem substitutes_iff (hinv : Inv s_hashadapt.objects index) {vars : List HashEntry}
    (hvars : ∀ e, e ∈ stored index ↔ e ∈ vars) (lineNr : ℤ) (filename : List UInt8) :
    ∃ out, replace_vars malloc index data lineNr (some line) filename = some out ∧
      ((∀ size, malloc size = true) →
        (Substitutes vars data line out ↔ Substitutable vars index line)) := by
  have hstored : ∀ e ∈ vars, e ∈ stored index := fun e he => (hvars e).mpr he
  by_cases hlen : 2 ^ 31 ≤ line.length % 2 ^ 32
  · refine ⟨⟨none, none, []⟩, ?_, fun _ => ⟨fun h => ⟨fun es hes => ?_, fun _ => Or.inl hlen⟩,
      fun h => ⟨fun es hes => absurd hlen (h.resolved es hes).1, fun _ => rfl⟩⟩⟩
    · rw [replace_vars]
      exact if_pos hlen
    · obtain ⟨-, result, hresult, -⟩ := h.replaced es hes
      cases hresult
  · obtain ⟨out, hrun, hout⟩ := replace_vars_spec hinv lineNr filename hlen
    refine ⟨out, hrun, fun hmalloc => ?_⟩
    rcases hout with ⟨result, es, rfl, hfound, hending, hprefix⟩ | ⟨hnone, hreason⟩
    · -- an entry was found for each name
      have herr : ¬∃ name ∈ names line, ∃ err,
          findExthash s_hashadapt index name = some (.error err) := by
        rintro ⟨name, hname, err, hfind⟩
        obtain ⟨e, he⟩ := found_of_mem hfound name hname
        cases hfind.symm.trans he
      constructor
      · intro h
        refine ⟨fun es' hes => ⟨hlen, ?_⟩, fun hno => absurd (h.refused hno) nofun⟩
        obtain rfl : es = es' := (h.replaced es' hes).1
        exact (found_iff_not_shadowed hinv hstored hes.named).mp hfound
      · refine fun h => ⟨fun es' hes => ?_, fun hno => ?_⟩
        · have hfound' := (found_iff_not_shadowed hinv hstored hes.named).mpr (h.resolved es' hes).2
          have hunique : Relator.RightUnique fun name e =>
              findExthash s_hashadapt index name = some (.ok e) := fun name e e' he he' =>
            Except.ok.inj (Option.some.inj (he.symm.trans he'))
          obtain rfl := List.right_unique_forall₂' hunique hfound hfound'
          exact ⟨rfl, result, rfl, hprefix⟩
        · rcases h.unresolved hno with h | h | h | h
          · exact absurd h hlen
          · rw [h] at hending
            rcases hending with h | h <;> cases h
          · rw [h] at hending
            rcases hending with h | h <;> cases h
          · exact absurd h herr
    · have hmem : ¬∃ size, malloc size = false := fun ⟨size, h⟩ =>
        Bool.false_ne_true (h.symm.trans (hmalloc size))
      constructor
      · refine fun h => ⟨fun es hes => ?_, fun _ => Or.inr ?_⟩
        · obtain ⟨-, result, hresult, -⟩ := h.replaced es hes
          cases hnone.symm.trans hresult
        · exact hreason.imp_right (Or.imp_right fun h => h.resolve_right hmem)
      · refine fun h => ⟨fun es hes => ?_, fun _ => hnone⟩
        rcases hreason with h' | h' | ⟨name, hname, err, hfind⟩ | h'
        · cases hes.complete.symm.trans h'
        · cases hes.complete.symm.trans h'
        · have hfound := (found_iff_not_shadowed hinv hstored hes.named).mpr (h.resolved es hes).2
          obtain ⟨e, he⟩ := found_of_mem hfound name hname
          cases hfind.symm.trans he
        · exact absurd h' hmem

/-- **The variables of a line**, for each table of variables, each line and each length: nothing is
written outside of the buffer and no assertion fails, and the line is substituted, or refused, as it
should be if and only if the condition holds. -/
theorem replace_vars_iff (entries : List HashEntry) :
    ∃ vars index, enterAll entries hashindex = some (vars, index) ∧ vars ⊆ entries ∧
      (∀ entry ∈ entries, ∃ e ∈ vars, e.name = entry.name) ∧
      ∀ malloc data lineNr line filename, ∃ out,
        replace_vars malloc index data lineNr (some line) filename = some out ∧
          ((∀ size, malloc size = true) →
            (Substitutes vars data line out ↔ Substitutable vars index line)) := by
  obtain ⟨vars, index, henter, hinv, hmem, hnames, hsub⟩ := enterAll_hashindex entries
  exact ⟨vars, index, henter, hsub, hnames, fun malloc data lineNr line filename =>
    substitutes_iff hinv hmem lineNr filename⟩

/-- The line `$(` is not refused, and nothing of it is left. -/
theorem replace_vars_dollar_at_end : ∃ out,
    replace_vars (fun _ => true) hashindex (fun _ => none) 1 (some [36, 40]) [] = some out ∧
      out.result = some [some 0, none, none] ∧
        ¬Substitutes [] (fun _ => none) [36, 40] out := by
  have hrun : replace_vars (fun _ => true) hashindex (fun _ => none) 1 (some [36, 40]) [] =
      some ⟨some [some 0, none, none], none, []⟩ := by rfl
  refine ⟨_, hrun, rfl, fun h => ?_⟩
  have hno : ¬∃ es, Resolves [] [36, 40] es := fun ⟨es, hes⟩ =>
    absurd hes.complete (by decide)
  cases h.refused hno

end Replace

end Genmake
end CKern
