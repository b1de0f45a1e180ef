import Mathlib.Data.List.Basic
import Mathlib.Data.List.TakeWhile
import Mathlib.Data.Nat.Bitwise
import Mathlib.Order.Nat

/-!
# `io/www/uri.c`: parsing a URI

* `parseOffsets`, `normalizePath`, `parseUri`: the functions of the module.  The bytes written to the
  allocated memory are a list, its length is the write offset, and a write behind the first
  `uri_size_max` bytes, an index of a parameter behind the last one and an assertion that does not hold
  are failures.
* `parseUri_inside_iff`: the memory is left exactly if a path that ends with a bare percent sign is
  decoded and nothing stands in front of it.
-/

namespace CKern
namespace Uri

/-! ## Characters -/

/-- `uri_part_e`. -/
inductive UriPart
  | SCHEME
  | AUTHORITY
  | PATH
  | QUERY
  | FRAGMENT
  deriving DecidableEq, Repr

/-- `uri_type_e`. -/
inductive UriType
  | DECODED
  | ENCODED
  deriving DecidableEq, Repr

/-- The error codes of the module. -/
inductive Errno
  | EINVAL
  | EOVERFLOW
  deriving DecidableEq, Repr

/-- Why there is no result: an error code, or an access outside of the memory, or an assertion that
fails. -/
inductive Failure
  | errno (err : Errno)
  | undefined
  deriving DecidableEq, Repr

def charSpace : UInt8 := 32
def charHash : UInt8 := 35
def charPercent : UInt8 := 37
def charAmp : UInt8 := 38
def charPlus : UInt8 := 43
def charDot : UInt8 := 46
def charSlash : UInt8 := 47
def charColon : UInt8 := 58
def charEqual : UInt8 := 61
def charQuestion : UInt8 := 63

/-- `hexvalue`, a value of type `unsigned`. -/
def hexvalue (digit : ℕ) : ℕ :=
  if digit ≤ 57 then (digit + (2 ^ 32 - 48)) % 2 ^ 32
  else if digit ||| 0x20 ≥ 97 then (digit ||| 0x20) - 87
  else digit

/-- `ishex`. -/
def ishex (value : ℕ) : Bool := value ≤ 15

/-- The digit for a value below 16, in upper case. -/
def hexdigit (d : ℕ) : UInt8 := UInt8.ofNat (d + if d < 10 then 48 else 55)

/-- A blank, a control character or a character above 126. -/
def isUnprintable (c : UInt8) : Bool := c ≤ 32 || c > 126

/-- `is_percent_encoded`. -/
def isPercentEncoded : UriPart → UInt8 → Bool
  | .SCHEME, _ => false
  | .AUTHORITY, c =>
    isUnprintable c || c == charPercent || c == charHash || c == charQuestion || c == charSlash
  | .PATH, c =>
    isUnprintable c || c == charPercent || c == charHash || c == charQuestion || c == charColon
  | .QUERY, c =>
    isUnprintable c || c == charPercent || c == charHash || c == charPlus || c == charEqual ||
      c == charAmp
  | .FRAGMENT, c => isUnprintable c || c == charPercent

/-- A letter, as tested by the parser. -/
def isLetter (c : UInt8) : Bool := !(c ||| 0x20 < 97 || c ||| 0x20 > 122)

/-! ## The parts of a string -/

/-- What is found by a loop of `parse_offsets`: the number of bytes, of percent signs, of characters
to be encoded and of the characters `&`. -/
structure Scan where
  size : ℕ
  nrPercent : ℕ
  nrNeed : ℕ
  nrAmp : ℕ
  deriving DecidableEq, Repr

/-- A loop of `parse_offsets`.  A percent sign is read together with the two bytes behind it. -/
def scanPart (stop need : UInt8 → Bool) : List UInt8 → Scan
  | [] => ⟨0, 0, 0, 0⟩
  | c :: cs =>
    if stop c then ⟨0, 0, 0, 0⟩
    else if c = charPercent then
      match cs with
      | _ :: _ :: rest =>
        let r := scanPart stop need rest
        ⟨r.size + 3, r.nrPercent + 1, r.nrNeed, r.nrAmp⟩
      | [_] => ⟨2, 1, 0, 0⟩
      | [] => ⟨1, 1, 0, 0⟩
    else
      let r := scanPart stop need cs
      ⟨r.size + 1, r.nrPercent, r.nrNeed + (need c).toNat, r.nrAmp + (c == charAmp).toNat⟩

/-- The characters that end an authority. -/
def endsAuthority (c : UInt8) : Bool := c == charSlash || c == charQuestion || c == charHash

/-- The characters that end a path. -/
def endsPath (c : UInt8) : Bool := c == charQuestion || c == charHash

/-- The character that ends a query. -/
def endsQuery (c : UInt8) : Bool := c == charHash

/-- The characters of a query that have to be encoded. -/
def needQuery (c : UInt8) : Bool := c < 32 || c > 126

/-- The values set by `parse_offsets` and its result; `scheme` is the end of the scheme. -/
structure Offsets where
  authority : ℕ
  path : ℕ
  query : ℕ
  fragment : ℕ
  stop : ℕ
  nrparam : ℕ
  nrPercentEncoded : ℕ
  nrNeedEncoding : ℕ
  deriving DecidableEq, Repr

/-- `parse_offsets`. -/
def parseOffsets (str : List UInt8) : Offsets :=
  let size := str.length
  let nrletters := (str.takeWhile isLetter).length
  let i := if str[nrletters]? = some charColon then nrletters + 1 else nrletters
  let schemeEnd := if str[nrletters]? = some charColon then nrletters + 1 else 0
  let hasAuthority := i = schemeEnd ∧ i + 2 ≤ size ∧ str[i]? = some charSlash ∧
    str[i + 1]? = some charSlash
  let authority : Scan :=
    if hasAuthority then scanPart endsAuthority isUnprintable (str.drop (i + 2)) else ⟨0, 0, 0, 0⟩
  let pathStart := if hasAuthority then i + 2 + authority.size else schemeEnd
  let i := if hasAuthority then i + 2 + authority.size else i
  let path := scanPart endsPath isUnprintable (str.drop i)
  let queryStart := i + path.size
  let query := scanPart endsQuery needQuery (str.drop queryStart)
  let fragmentStart := queryStart + query.size
  let fragment := scanPart (fun _ => false) isUnprintable (str.drop fragmentStart)
  { authority := schemeEnd
    path := pathStart
    query := queryStart
    fragment := fragmentStart
    stop := size
    nrparam := query.nrAmp + (if fragmentStart > queryStart then 1 else 0)
    nrPercentEncoded :=
      authority.nrPercent + path.nrPercent + query.nrPercent + fragment.nrPercent
    nrNeedEncoding := authority.nrNeed + path.nrNeed + query.nrNeed + fragment.nrNeed }

/-! ## Paths -/

/-- `SKIP_PREV_PATH` on the bytes written so far: the last component is removed. -/
def skipPrevPath (out : List UInt8) : List UInt8 :=
  (out.dropLast.reverse.dropWhile (· ≠ charSlash)).reverse

/-- The loop of `normalize_path`, where `out` is the output path, `prefixpos` the length of the part
of it that is never removed, and `isStart` tells that nothing was read yet. -/
def normalizeLoop : ℕ → Bool → List UInt8 → ℕ → List UInt8 → List UInt8 × ℕ
  | 0, _, out, prefixpos, _ => (out, prefixpos)
  | fuel + 1, isStart, out, prefixpos, rest =>
    if rest = [] then (out, prefixpos)
    else
      let comp := rest.takeWhile (· ≠ charSlash)
      let after := rest.dropWhile (· ≠ charSlash)
      let slash := after.take 1
      if comp = [] then
        if isStart then normalizeLoop fuel false [charSlash] 1 (after.drop 1)
        else normalizeLoop fuel false out prefixpos (after.drop 1)
      else if comp = [charDot] then normalizeLoop fuel false out prefixpos (after.drop 1)
      else if comp = [charDot, charDot] then
        if out.length ≠ prefixpos then
          normalizeLoop fuel false (skipPrevPath out) prefixpos (after.drop 1)
        else if prefixpos = 1 then normalizeLoop fuel false out prefixpos (after.drop 1)
        else normalizeLoop fuel false (out ++ comp ++ slash) (prefixpos + 2 + slash.length) (after.drop 1)
      else normalizeLoop fuel false (out ++ comp ++ slash) prefixpos (after.drop 1)

/-- `normalize_path`: the normalized path and the length of its fixed start. -/
def normalizePath (path : List UInt8) : List UInt8 × ℕ := normalizeLoop path.length true [] 0 path

/-! ## Writing the parts -/

/-- `copy_char` with the memory for `max` bytes. -/
def copyChar (max : ℕ) (mem : List UInt8) (c : UInt8) : Except Failure (List UInt8) :=
  if mem.length < max then .ok (mem ++ [c]) else .error .undefined

/-- Two hexadecimal digits. -/
def copyHex (max : ℕ) (mem : List UInt8) (d1 d2 : ℕ) : Except Failure (List UInt8) :=
  (copyChar max mem (hexdigit d1)).bind fun mem => copyChar max mem (hexdigit d2)

/-- The value of two hexadecimal digits, if they are. -/
def hexpair (a b : UInt8) : Option UInt8 :=
  let d1 := hexvalue a.toNat
  let d2 := hexvalue b.toNat
  if ishex d1 && ishex d2 then some (UInt8.ofNat (d1 * 16 ||| d2)) else none

/-- `encode_part`: the loop of `copy_part` that encodes. -/
def encodeLoop (max : ℕ) (part : UriPart) : List UInt8 → List UInt8 → Except Failure (List UInt8)
  | [], mem => .ok mem
  | c :: cs, mem =>
    (copyChar max mem c).bind fun mem =>
      if c = charPercent then
        let mem := mem.dropLast -- remove '%'
        match cs with
        | a :: b :: rest =>
          match hexpair a b with
          | some d =>
            if isPercentEncoded part d then
              if part = .QUERY ∧ d = charSpace then
                (copyChar max mem charPlus).bind fun mem => encodeLoop max part rest mem
              else
                -- the byte '%' is there already
                (copyHex max (mem ++ [charPercent]) (d.toNat / 16) (d.toNat % 16)).bind fun mem =>
                  encodeLoop max part rest mem
            else (copyChar max mem d).bind fun mem => encodeLoop max part rest mem
          | none => encodeLoop max part rest mem
        | _ => .ok mem
      else if part = .QUERY ∧ c = charSpace then
        encodeLoop max part cs (mem.dropLast ++ [charPlus])
      else if isUnprintable c then
        (copyHex max (mem.dropLast ++ [charPercent]) (c.toNat / 16) (c.toNat % 16)).bind fun mem =>
          encodeLoop max part cs mem
      else encodeLoop max part cs mem

/-- `decode_part` for the parts that are no query: the loop of `copy_part` that decodes. -/
def decodeLoop (max : ℕ) : List UInt8 → List UInt8 → Except Failure (List UInt8)
  | [], mem => .ok mem
  | c :: cs, mem =>
    (copyChar max mem c).bind fun mem =>
      if c = charPercent then
        let mem := mem.dropLast
        match cs with
        | a :: b :: rest =>
          match hexpair a b with
          | some d => (copyChar max mem d).bind fun mem => decodeLoop max rest mem
          | none => decodeLoop max rest mem
        | _ => .ok mem
      else decodeLoop max cs mem

/-- An entry of the array `param`: the offsets of a name and of its value. -/
structure Param where
  nameoff : ℕ
  valueoff : ℕ
  deriving DecidableEq, Repr

/-- Writing the field `nameoff` of an entry, of type `uint16_t`. -/
def setNameoff (param : List Param) (i off : ℕ) : Except Failure (List Param) :=
  match param[i]? with
  | some p => .ok (param.set i { p with nameoff := off % 2 ^ 16 })
  | none => .error .undefined

/-- Writing the field `valueoff` of an entry, of type `uint16_t`. -/
def setValueoff (param : List Param) (i off : ℕ) : Except Failure (List Param) :=
  match param[i]? with
  | some p => .ok (param.set i { p with valueoff := off % 2 ^ 16 })
  | none => .error .undefined

/-- The variables of `copy_part` while a query is decoded. -/
structure QueryState where
  mem : List UInt8
  param : List Param
  iparam : ℕ
  isParamValue : Bool
  deriving DecidableEq, Repr

/-- The loop of `decode_part` for a query. -/
def decodeQueryLoop (max : ℕ) : List UInt8 → QueryState → Except Failure QueryState
  | [], q => .ok q
  | c :: cs, q =>
    (copyChar max q.mem c).bind fun mem =>
      if c = charPercent then
        let mem := mem.dropLast
        match cs with
        | a :: b :: rest =>
          match hexpair a b with
          | some d => (copyChar max mem d).bind fun mem => decodeQueryLoop max rest { q with mem := mem }
          | none => decodeQueryLoop max rest { q with mem := mem }
        | _ => .ok { q with mem := mem }
      else if c = charPlus then
        decodeQueryLoop max cs { q with mem := mem.dropLast ++ [charSpace] }
      else if c = charAmp then
        let mem := mem.dropLast
        (if q.isParamValue then .ok q.param else setValueoff q.param q.iparam mem.length).bind
          fun param => (setNameoff param (q.iparam + 1) mem.length).bind fun param =>
            decodeQueryLoop max cs ⟨mem, param, q.iparam + 1, false⟩
      else if c = charEqual ∧ q.isParamValue = false then
        let mem := mem.dropLast
        (setValueoff q.param q.iparam mem.length).bind fun param =>
          decodeQueryLoop max cs ⟨mem, param, q.iparam, true⟩
      else decodeQueryLoop max cs { q with mem := mem }

/-- `decode_part` for a query with `nrparam` parameters. -/
def decodeQuery (max nrparam : ℕ) (str mem : List UInt8) :
    Except Failure (List UInt8 × List Param) :=
  (setNameoff (List.replicate (nrparam + 1) ⟨0, 0⟩) 0 mem.length).bind fun param =>
    (decodeQueryLoop max str ⟨mem, param, 0, false⟩).bind fun q =>
      if nrparam = 0 then .ok (q.mem, q.param)
      else
        (if q.isParamValue then .ok q.param else setValueoff q.param q.iparam q.mem.length).bind
          fun param => (setNameoff param (q.iparam + 1) q.mem.length).bind fun param =>
            if q.iparam + 1 = nrparam then .ok (q.mem, param) else .error .undefined

/-- The scheme in lower case, with its colon. -/
def copyScheme (max : ℕ) : List UInt8 → List UInt8 → Except Failure (List UInt8)
  | [], mem => .ok mem
  | c :: cs, mem => (copyChar max mem (c ||| 0x20)).bind fun mem => copyScheme max cs mem

/-- `uri_encoded_t` and `uri_decoded_t`, with the bytes written to the memory, the offsets of the
parts, and no parameters in an encoded one. -/
structure UriT where
  mem : List UInt8
  authority : ℕ
  path : ℕ
  query : ℕ
  fragment : ℕ
  stop : ℕ
  prefixlen : ℕ
  nrparam : ℕ
  param : List Param
  deriving DecidableEq, Repr

/-- The bytes of `str` from `start` to `stop`. -/
def segment (str : List UInt8) (start stop : ℕ) : List UInt8 := (str.take stop).drop start

/-- `normalize_path` on the memory from `start` on. -/
def normalizeMem (mem : List UInt8) (start : ℕ) : List UInt8 × ℕ :=
  let norm := normalizePath (mem.drop start)
  (mem.take start ++ norm.1, norm.2)

/-- `parse_uri` with the type `type_ENCODED`, behind the allocation of `max` bytes. -/
def parseEncoded (max : ℕ) (str : List UInt8) (uri : Offsets) : Except Failure UriT :=
  (copyScheme max (segment str 0 uri.authority) []).bind fun mem0 =>
  (encodeLoop max .AUTHORITY (segment str uri.authority uri.path) mem0).bind fun mem1 =>
  (encodeLoop max .PATH (segment str uri.path uri.query) mem1).bind fun mem =>
  let (mem2, prefixlen) := normalizeMem mem mem1.length
  (encodeLoop max .QUERY (segment str uri.query uri.fragment) mem2).bind fun mem3 =>
  (encodeLoop max .FRAGMENT (segment str uri.fragment uri.stop) mem3).bind fun mem4 =>
  (copyChar max mem4 0).map fun mem =>
    { mem := mem
      authority := mem0.length % 2 ^ 16
      path := mem1.length % 2 ^ 16
      query := mem2.length % 2 ^ 16
      fragment := mem3.length % 2 ^ 16
      stop := mem4.length % 2 ^ 16
      prefixlen := prefixlen % 2 ^ 16
      nrparam := uri.nrparam
      param := [] }

/-- `parse_uri` with the type `type_DECODED`, behind the allocation of `max` bytes and of the
parameters. -/
def parseDecoded (max : ℕ) (str : List UInt8) (uri : Offsets) : Except Failure UriT :=
  (copyScheme max (segment str 0 uri.authority) []).bind fun mem =>
  let mem0 := mem.dropLast -- skip ':'
  (decodeLoop max (segment str (uri.authority + 2) uri.path) mem0).bind fun mem1 =>
  (decodeLoop max (segment str uri.path uri.query) mem1).bind fun mem =>
  let (mem2, prefixlen) := normalizeMem mem mem1.length
  (decodeQuery max uri.nrparam (segment str (uri.query + 1) uri.fragment) mem2).bind
    fun (mem3, param) =>
  (decodeLoop max (segment str (uri.fragment + 1) uri.stop) mem3).bind fun mem4 =>
  (copyChar max mem4 0).map fun mem =>
    { mem := mem
      authority := mem0.length % 2 ^ 16
      path := mem1.length % 2 ^ 16
      query := mem2.length % 2 ^ 16
      fragment := mem3.length % 2 ^ 16
      stop := mem4.length % 2 ^ 16
      prefixlen := prefixlen % 2 ^ 16
      nrparam := uri.nrparam
      param := param }

/-- `uri_size_max`, the size of the memory for the bytes of the parts. -/
def uriSizeMax (type : UriType) (str : List UInt8) : ℕ :=
  match type with
  | .ENCODED => 1 + 2 * (parseOffsets str).nrNeedEncoding + str.length
  | .DECODED => 1 + str.length - 2 * (parseOffsets str).nrPercentEncoded

/-- `parse_uri`; memory can always be allocated. -/
def parseUri (type : UriType) (str : List UInt8) : Except Failure UriT :=
  let uri := parseOffsets str
  let max := uriSizeMax type str
  if max > 2 ^ 16 then .error (.errno .EOVERFLOW)
  else
    match type with
    | .ENCODED => parseEncoded max str uri
    | .DECODED => parseDecoded max str uri

/-! ## Percent signs -/

@[elab_as_elim]
theorem percentInduction {motive : List UInt8 → Prop} (nil : motive [])
    (pair : ∀ a b rest, motive rest → motive (charPercent :: a :: b :: rest))
    (half : ∀ a, motive [charPercent, a]) (bare : motive [charPercent])
    (plain : ∀ c cs, c ≠ charPercent → motive cs → motive (c :: cs)) (l : List UInt8) : motive l :=
  match l with
  | [] => nil
  | c :: cs =>
    if h : c = charPercent then
      match cs with
      | [] => h ▸ bare
      | [a] => h ▸ half a
      | a :: b :: rest => h ▸ pair a b rest (percentInduction nil pair half bare plain rest)
    else plain c cs h (percentInduction nil pair half bare plain cs)

/-- The number of percent signs that the parser reads. -/
def percents : List UInt8 → ℕ
  | [] => 0
  | c :: cs =>
    if c = charPercent then
      match cs with
      | _ :: _ :: rest => percents rest + 1
      | _ => 1
    else percents cs

@[simp] theorem percents_nil : percents [] = 0 := rfl

theorem percents_cons (c : UInt8) (cs : List UInt8) :
    percents (c :: cs) =
      if c = charPercent then
        match cs with
        | _ :: _ :: rest => percents rest + 1
        | _ => 1
      else percents cs := by
  rw [percents.eq_def]

@[simp] theorem percents_pair (a b : UInt8) (rest : List UInt8) :
    percents (charPercent :: a :: b :: rest) = percents rest + 1 := by
  rw [percents_cons, if_pos rfl]

@[simp] theorem percents_half (a : UInt8) : percents [charPercent, a] = 1 := by
  rw [percents_cons, if_pos rfl]

@[simp] theorem percents_bare : percents [charPercent] = 1 := by
  rw [percents_cons, if_pos rfl]

theorem percents_plain {c : UInt8} (h : c ≠ charPercent) (cs : List UInt8) :
    percents (c :: cs) = percents cs := by
  rw [percents_cons, if_neg h]

/-- The last character is a bare percent sign and all the others stand for the two hexadecimal digits
behind them; a character with `stop` ends the part before. -/
def bareEnd (stop : UInt8 → Bool) : List UInt8 → Bool
  | [] => false
  | c :: cs =>
    if stop c then false
    else if c = charPercent then
      match cs with
      | a :: b :: rest => (hexpair a b).isSome && bareEnd stop rest
      | [_] => false
      | [] => true
    else bareEnd stop cs

variable {stop need : UInt8 → Bool} {str l mem : List UInt8} {c : UInt8} {max : ℕ}

@[simp] theorem bareEnd_nil : bareEnd stop [] = false := rfl

theorem bareEnd_cons (stop : UInt8 → Bool) (c : UInt8) (cs : List UInt8) :
    bareEnd stop (c :: cs) =
      if stop c then false
      else if c = charPercent then
        match cs with
        | a :: b :: rest => (hexpair a b).isSome && bareEnd stop rest
        | [_] => false
        | [] => true
      else bareEnd stop cs := by
  rw [bareEnd.eq_def]

theorem bareEnd_stop (h : stop c = true) (cs : List UInt8) : bareEnd stop (c :: cs) = false := by
  rw [bareEnd_cons, if_pos h]

theorem bareEnd_pair (h : stop charPercent = false) (a b : UInt8) (rest : List UInt8) :
    bareEnd stop (charPercent :: a :: b :: rest) =
      ((hexpair a b).isSome && bareEnd stop rest) := by
  rw [bareEnd_cons, if_neg (by simp [h]), if_pos rfl]

theorem bareEnd_half (h : stop charPercent = false) (a : UInt8) :
    bareEnd stop [charPercent, a] = false := by
  rw [bareEnd_cons, if_neg (by simp [h]), if_pos rfl]

theorem bareEnd_bare (h : stop charPercent = false) : bareEnd stop [charPercent] = true := by
  rw [bareEnd_cons, if_neg (by simp [h]), if_pos rfl]

theorem bareEnd_plain (h : stop c = false) (hc : c ≠ charPercent) (cs : List UInt8) :
    bareEnd stop (c :: cs) = bareEnd stop cs := by
  rw [bareEnd_cons, if_neg (by simp [h]), if_neg hc]

/-- A percent sign at the end without two bytes behind it, of a part. -/
def bare (l : List UInt8) : ℕ := (bareEnd (fun _ => false) l).toNat

@[simp] theorem bare_nil : bare [] = 0 := rfl

theorem bare_le_one (l : List UInt8) : bare l ≤ 1 := Bool.toNat_le _

theorem percents_le (l : List UInt8) : 2 * percents l ≤ l.length + bare l := by
  induction l using percentInduction with
  | nil => exact Nat.zero_le _
  | pair a b rest ih =>
    have hle := bare_le_one rest
    rw [percents_pair]
    simp only [List.length_cons]
    omega
  | half a =>
    rw [percents_half]
    simp
  | bare =>
    rw [percents_bare, bare, bareEnd_bare rfl]
    decide
  | plain c cs hc ih =>
    rw [percents_plain hc, List.length_cons, bare, bareEnd_plain rfl hc]
    exact ih.trans (Nat.add_le_add_right (Nat.le_succ _) _)

@[simp] theorem scanPart_nil : scanPart stop need [] = ⟨0, 0, 0, 0⟩ := rfl

theorem scanPart_cons (stop need : UInt8 → Bool) (c : UInt8) (cs : List UInt8) :
    scanPart stop need (c :: cs) =
      if stop c then ⟨0, 0, 0, 0⟩
      else if c = charPercent then
        match cs with
        | _ :: _ :: rest =>
          ⟨(scanPart stop need rest).size + 3, (scanPart stop need rest).nrPercent + 1,
            (scanPart stop need rest).nrNeed, (scanPart stop need rest).nrAmp⟩
        | [_] => ⟨2, 1, 0, 0⟩
        | [] => ⟨1, 1, 0, 0⟩
      else
        ⟨(scanPart stop need cs).size + 1, (scanPart stop need cs).nrPercent,
          (scanPart stop need cs).nrNeed + (need c).toNat,
          (scanPart stop need cs).nrAmp + (c == charAmp).toNat⟩ := by
  rw [scanPart.eq_def]

theorem scanPart_stop (h : stop c = true) (cs : List UInt8) :
    scanPart stop need (c :: cs) = ⟨0, 0, 0, 0⟩ := by
  rw [scanPart_cons, if_pos h]

theorem scanPart_pair (h : stop charPercent = false) (a b : UInt8) (rest : List UInt8) :
    scanPart stop need (charPercent :: a :: b :: rest) =
      ⟨(scanPart stop need rest).size + 3, (scanPart stop need rest).nrPercent + 1,
        (scanPart stop need rest).nrNeed, (scanPart stop need rest).nrAmp⟩ := by
  rw [scanPart_cons, if_neg (by simp [h]), if_pos rfl]

theorem scanPart_half (h : stop charPercent = false) (a : UInt8) :
    scanPart stop need [charPercent, a] = ⟨2, 1, 0, 0⟩ := by
  rw [scanPart_cons, if_neg (by simp [h]), if_pos rfl]

theorem scanPart_bare (h : stop charPercent = false) :
    scanPart stop need [charPercent] = ⟨1, 1, 0, 0⟩ := by
  rw [scanPart_cons, if_neg (by simp [h]), if_pos rfl]

theorem scanPart_plain (h : stop c = false) (hc : c ≠ charPercent) (cs : List UInt8) :
    scanPart stop need (c :: cs) =
      ⟨(scanPart stop need cs).size + 1, (scanPart stop need cs).nrPercent,
        (scanPart stop need cs).nrNeed + (need c).toNat,
        (scanPart stop need cs).nrAmp + (c == charAmp).toNat⟩ := by
  rw [scanPart_cons, if_neg (by simp [h]), if_neg hc]

/-- The characters of a part that have to be encoded. -/
def needs (need : UInt8 → Bool) (l : List UInt8) : ℕ := (scanPart (fun _ => false) need l).nrNeed

/-- The characters `&` of a part. -/
def amps (l : List UInt8) : ℕ := (scanPart (fun _ => false) (fun _ => false) l).nrAmp

/-- What a loop of `parse_offsets` finds is what it skips. -/
structure ScanSpec (stop need : UInt8 → Bool) (l : List UInt8) (r : Scan) : Prop where
  size_le : r.size ≤ l.length
  percents_take : percents (l.take r.size) = r.nrPercent
  percents_eq : percents l = r.nrPercent + percents (l.drop r.size)
  drop_eq : l.drop r.size = [] ∨ ∃ c cs, l.drop r.size = c :: cs ∧ stop c = true
  bareEnd_take : bareEnd (fun _ => false) (l.take r.size) = bareEnd stop l
  bare_drop : bareEnd stop l = true → l.drop r.size = []
  needs_take : needs need (l.take r.size) = r.nrNeed
  amps_take : amps (l.take r.size) = r.nrAmp

theorem scanPart_spec (stop : UInt8 → Bool) (hstop : stop charPercent = false) (need : UInt8 → Bool) (l : List UInt8) :
    ScanSpec stop need l (scanPart stop need l) := by
  induction l using percentInduction with
  | nil => exact ⟨le_refl _, rfl, rfl, Or.inl rfl, rfl, fun _ => rfl, rfl, rfl⟩
  | pair a b rest ih =>
    rw [scanPart_pair hstop]
    exact
      { size_le := Nat.add_le_add_right ih.size_le 3
        percents_take := by
          simp only [List.take_succ_cons]
          rw [percents_pair, ih.percents_take]
        percents_eq := by
          simp only [List.drop_succ_cons]
          rw [percents_pair, ih.percents_eq]
          omega
        drop_eq := ih.drop_eq
        bareEnd_take := by
          simp only [List.take_succ_cons]
          rw [bareEnd_pair rfl, bareEnd_pair hstop, ih.bareEnd_take]
        bare_drop := by
          rw [bareEnd_pair hstop, Bool.and_eq_true]
          exact fun h => ih.bare_drop h.2
        needs_take := by
          simp only [List.take_succ_cons]
          rw [needs, scanPart_pair rfl]
          exact ih.needs_take
        amps_take := by
          simp only [List.take_succ_cons]
          rw [amps, scanPart_pair rfl]
          exact ih.amps_take }
  | half a =>
    rw [scanPart_half hstop]
    exact ⟨le_refl _, percents_half a, percents_half a, Or.inl rfl, by
      simp only [List.take_succ_cons, List.take_zero]
      rw [bareEnd_half rfl, bareEnd_half hstop], fun _ => rfl, by
      rw [needs]
      simp only [List.take_succ_cons, List.take_zero]
      rw [scanPart_half rfl], by
      rw [amps]
      simp only [List.take_succ_cons, List.take_zero]
      rw [scanPart_half rfl]⟩
  | bare =>
    rw [scanPart_bare hstop]
    exact ⟨le_refl _, percents_bare, percents_bare, Or.inl rfl, by
      simp only [List.take_succ_cons, List.take_zero]
      rw [bareEnd_bare rfl, bareEnd_bare hstop], fun _ => rfl, by
      rw [needs]
      simp only [List.take_succ_cons, List.take_zero]
      rw [scanPart_bare rfl], by
      rw [amps]
      simp only [List.take_succ_cons, List.take_zero]
      rw [scanPart_bare rfl]⟩
  | plain c cs hc ih =>
    cases hcs : stop c with
    | true =>
      rw [scanPart_stop hcs]
      exact ⟨Nat.zero_le _, rfl, (Nat.zero_add _).symm, Or.inr ⟨c, cs, rfl, hcs⟩, by
        rw [bareEnd_stop hcs]
        rfl, by
        rw [bareEnd_stop hcs]
        exact fun h => absurd h Bool.false_ne_true, rfl, rfl⟩
    | false =>
      rw [scanPart_plain hcs hc]
      exact
        { size_le := Nat.succ_le_succ ih.size_le
          percents_take := by
            simp only [List.take_succ_cons]
            rw [percents_plain hc, ih.percents_take]
          percents_eq := by
            simp only [List.drop_succ_cons]
            rw [percents_plain hc, ih.percents_eq]
          drop_eq := ih.drop_eq
          bareEnd_take := by
            simp only [List.take_succ_cons]
            rw [bareEnd_plain rfl hc, bareEnd_plain hcs hc, ih.bareEnd_take]
          bare_drop := by
            rw [bareEnd_plain hcs hc]
            exact ih.bare_drop
          needs_take := by
            simp only [List.take_succ_cons]
            rw [needs, scanPart_plain rfl hc]
            exact congrArg (· + (need c).toNat) ih.needs_take
          amps_take := by
            simp only [List.take_succ_cons]
            rw [amps, scanPart_plain rfl hc]
            exact congrArg (· + (c == charAmp).toNat) ih.amps_take }

/-! ## The memory while a part is written -/

theorem copyChar_ok (h : mem.length < max) (c : UInt8) : copyChar max mem c = .ok (mem ++ [c]) :=
  if_pos h

theorem ok_bind {α β : Type} (a : α) (f : α → Except Failure β) : (Except.ok a).bind f = f a := rfl

theorem decodeLoop_spec (max : ℕ) (l : List UInt8) :
    ∀ mem : List UInt8, mem.length + l.length + 1 + bare l ≤ max + 2 * percents l →
      ∃ mem', decodeLoop max l mem = .ok mem' ∧
        mem'.length + 2 * percents l ≤ mem.length + l.length + bare l := by
  induction l using percentInduction with
  | nil => exact fun mem _ => ⟨mem, rfl, le_refl _⟩
  | pair a b rest ih =>
    intro mem h
    have hle := percents_le rest
    have hle' := bare_le_one rest
    rw [percents_pair] at h ⊢
    rw [bare, bareEnd_pair rfl] at h ⊢
    simp only [List.length_cons] at h ⊢
    rw [decodeLoop, copyChar_ok (by omega), ok_bind, if_pos rfl, List.dropLast_concat]
    dsimp only
    rcases hd : hexpair a b with _ | d
    · rw [hd] at h
      obtain ⟨mem', hm, hlen⟩ := ih mem (by simp at h; omega)
      exact ⟨mem', hm, by simp; omega⟩
    · rw [hd] at h
      rw [Option.isSome_some, Bool.true_and] at h ⊢
      change _ + bare rest ≤ _ at h
      change ∃ mem', _ ∧ _ ≤ _ + bare rest
      dsimp only
      rw [copyChar_ok (by omega), ok_bind]
      obtain ⟨mem', hm, hlen⟩ := ih (mem ++ [d]) (by
        rw [List.length_append, List.length_singleton]
        omega)
      rw [List.length_append, List.length_singleton] at hlen
      exact ⟨mem', hm, by omega⟩
  | half a =>
    intro mem h
    rw [percents_half] at h ⊢
    simp only [List.length_cons, List.length_nil] at h ⊢
    rw [decodeLoop, copyChar_ok (by omega), ok_bind, if_pos rfl, List.dropLast_concat]
    exact ⟨mem, rfl, by omega⟩
  | bare =>
    intro mem h
    rw [percents_bare, bare, bareEnd_bare rfl] at h ⊢
    simp only [List.length_cons, List.length_nil, Bool.toNat_true] at h ⊢
    rw [decodeLoop, copyChar_ok (by omega), ok_bind, if_pos rfl, List.dropLast_concat]
    exact ⟨mem, rfl, by omega⟩
  | plain c cs hc ih =>
    intro mem h
    have hle := percents_le cs
    rw [percents_plain hc] at h ⊢
    rw [bare, bareEnd_plain rfl hc] at h ⊢
    change _ + bare cs ≤ _ at h
    change ∃ mem', _ ∧ _ ≤ _ + bare cs
    rw [List.length_cons] at h ⊢
    rw [decodeLoop, copyChar_ok (by omega), ok_bind, if_neg hc]
    obtain ⟨mem', hm, hlen⟩ := ih (mem ++ [c]) (by
      rw [List.length_append, List.length_singleton]
      omega)
    rw [List.length_append, List.length_singleton] at hlen
    exact ⟨mem', hm, by omega⟩

theorem decodeLoop_undefined (l : List UInt8) :
    ∀ mem : List UInt8, bare l = 1 → mem.length + l.length + 1 = max + 2 * percents l →
      decodeLoop max l mem = .error .undefined := by
  induction l using percentInduction with
  | nil => exact fun mem h _ => absurd h Nat.zero_ne_one
  | pair a b rest ih =>
    intro mem hbare h
    have hle := percents_le rest
    have hle' := bare_le_one rest
    rw [percents_pair] at h
    simp only [List.length_cons] at h
    rw [bare, bareEnd_pair rfl] at hbare
    rw [decodeLoop, copyChar_ok (by omega), ok_bind, if_pos rfl, List.dropLast_concat]
    dsimp only
    rcases hd : hexpair a b with _ | d
    · rw [hd] at hbare
      exact absurd hbare Nat.zero_ne_one
    · rw [hd, Option.isSome_some, Bool.true_and] at hbare
      dsimp only
      rw [copyChar_ok (by omega), ok_bind]
      refine ih (mem ++ [d]) hbare ?_
      rw [List.length_append, List.length_singleton]
      omega
  | half a =>
    intro mem hbare _
    rw [bare, bareEnd_half rfl] at hbare
    exact absurd hbare Nat.zero_ne_one
  | bare =>
    intro mem _ h
    rw [percents_bare] at h
    simp only [List.length_cons, List.length_nil] at h
    have hfull : ¬mem.length < max := by omega
    rw [decodeLoop, copyChar, if_neg hfull]
    rfl
  | plain c cs hc ih =>
    intro mem hbare h
    have hle := percents_le cs
    have hle' := bare_le_one cs
    rw [percents_plain hc, List.length_cons] at h
    rw [bare, bareEnd_plain rfl hc] at hbare
    rw [decodeLoop, copyChar_ok (by omega), ok_bind, if_neg hc]
    refine ih (mem ++ [c]) hbare ?_
    rw [List.length_append, List.length_singleton]
    omega

@[simp] theorem amps_nil : amps [] = 0 := rfl

theorem amps_pair (a b : UInt8) (rest : List UInt8) :
    amps (charPercent :: a :: b :: rest) = amps rest := by
  rw [amps, scanPart_pair rfl]
  rfl

theorem amps_half (a : UInt8) : amps [charPercent, a] = 0 := by rw [amps, scanPart_half rfl]

theorem amps_bare : amps [charPercent] = 0 := by rw [amps, scanPart_bare rfl]

theorem amps_plain (hc : c ≠ charPercent) (cs : List UInt8) :
    amps (c :: cs) = amps cs + (c == charAmp).toNat := by
  rw [amps, scanPart_plain rfl hc]
  rfl

theorem setNameoff_ok (param : List Param) {i : ℕ} (h : i < param.length) (off : ℕ) :
    ∃ param', setNameoff param i off = .ok param' ∧ param'.length = param.length := by
  rw [setNameoff, List.getElem?_eq_getElem h]
  exact ⟨_, rfl, List.length_set⟩

theorem setValueoff_ok (param : List Param) {i : ℕ} (h : i < param.length) (off : ℕ) :
    ∃ param', setValueoff param i off = .ok param' ∧ param'.length = param.length := by
  rw [setValueoff, List.getElem?_eq_getElem h]
  exact ⟨_, rfl, List.length_set⟩

theorem endParam_ok (param : List Param) {i : ℕ} (h : i + 1 < param.length) (b : Bool) (off : ℕ) :
    ∃ param1 param2, (if b then .ok param else setValueoff param i off) = .ok param1 ∧
      setNameoff param1 (i + 1) off = .ok param2 ∧ param2.length = param.length := by
  cases b with
  | true =>
    obtain ⟨param2, h2, hlen⟩ := setNameoff_ok param h off
    exact ⟨param, param2, rfl, h2, hlen⟩
  | false =>
    obtain ⟨param1, h1, hlen1⟩ := setValueoff_ok param (Nat.lt_of_succ_lt h) off
    obtain ⟨param2, h2, hlen2⟩ := setNameoff_ok param1 (hlen1 ▸ h) off
    exact ⟨param1, param2, h1, h2, hlen2.trans hlen1⟩

/-- What the loop over a query of `len` bytes leaves: the written bytes, and one entry of the array
for a character `&`. -/
structure QuerySpec (l : List UInt8) (q q' : QueryState) : Prop where
  mem_le : q'.mem.length + 2 * percents l ≤ q.mem.length + l.length + bare l
  iparam : q'.iparam = q.iparam + amps l
  param : q'.param.length = q.param.length

theorem decodeQueryLoop_spec (l : List UInt8) :
    ∀ q : QueryState, q.mem.length + l.length + 1 + bare l ≤ max + 2 * percents l →
      q.iparam + amps l + 1 < q.param.length →
      ∃ q', decodeQueryLoop max l q = .ok q' ∧ QuerySpec l q q' := by
  induction l using percentInduction with
  | nil => exact fun q _ _ => ⟨q, rfl, le_refl _, rfl, rfl⟩
  | pair a b rest ih =>
    intro q h hp
    have hle := percents_le rest
    have hle' := bare_le_one rest
    have hbare : bare (charPercent :: a :: b :: rest) = if (hexpair a b).isSome then bare rest else 0 := by
      rw [bare, bareEnd_pair rfl]
      cases (hexpair a b).isSome <;> rfl
    rw [percents_pair] at h
    rw [hbare] at h
    simp only [List.length_cons] at h
    rw [amps_pair] at hp
    rw [decodeQueryLoop, copyChar_ok (by omega), ok_bind, if_pos rfl, List.dropLast_concat]
    dsimp only
    rcases hd : hexpair a b with _ | d
    · rw [hd] at h hbare
      dsimp only
      obtain ⟨q', hq, hs⟩ := ih { q with mem := q.mem } (by
        simp at h
        omega) hp
      refine ⟨q', hq, ?_, ?_, hs.param⟩
      · have hmem := hs.mem_le
        rw [percents_pair]
        simp only [List.length_cons]
        omega
      · rw [amps_pair]
        exact hs.iparam
    · rw [hd, Option.isSome_some, if_pos rfl] at h hbare
      dsimp only
      rw [copyChar_ok (by omega), ok_bind]
      obtain ⟨q', hq, hs⟩ := ih { q with mem := q.mem ++ [d] } (by
        rw [List.length_append, List.length_singleton]
        omega) hp
      refine ⟨q', hq, ?_, ?_, hs.param⟩
      · have hmem := hs.mem_le
        rw [List.length_append, List.length_singleton] at hmem
        rw [percents_pair]
        simp only [List.length_cons]
        omega
      · rw [amps_pair]
        exact hs.iparam
  | half a =>
    intro q h hp
    rw [percents_half] at h
    simp only [List.length_cons, List.length_nil] at h
    rw [decodeQueryLoop, copyChar_ok (by omega), ok_bind, if_pos rfl, List.dropLast_concat]
    refine ⟨q, rfl, ?_, by rw [amps_half]; rfl, rfl⟩
    rw [percents_half]
    simp only [List.length_cons, List.length_nil]
    omega
  | bare =>
    intro q h hp
    have hbare : bare [charPercent] = 1 := by
      rw [bare, bareEnd_bare rfl]
      rfl
    rw [percents_bare, hbare] at h
    simp only [List.length_cons, List.length_nil] at h
    rw [decodeQueryLoop, copyChar_ok (by omega), ok_bind, if_pos rfl, List.dropLast_concat]
    refine ⟨q, rfl, ?_, by rw [amps_bare]; rfl, rfl⟩
    rw [percents_bare, hbare]
    simp only [List.length_cons, List.length_nil]
    omega
  | plain c cs hc ih =>
    intro q h hp
    have hle := percents_le cs
    have hbare : bare (c :: cs) = bare cs := by
      rw [bare, bareEnd_plain rfl hc]
      rfl
    -- whatever is done with the character, it takes one byte at most
    have hstep : ∀ q1 : QueryState, q1.mem.length ≤ q.mem.length + 1 →
        q1.iparam = q.iparam + (c == charAmp).toNat → q1.param.length = q.param.length →
        ∃ q', decodeQueryLoop max cs q1 = .ok q' ∧ QuerySpec (c :: cs) q q' := by
      intro q1 hm hi hl
      rw [percents_plain hc, hbare, List.length_cons] at h
      rw [amps_plain hc] at hp
      obtain ⟨q', hq, hs⟩ := ih q1 (by omega) (by omega)
      refine ⟨q', hq, ?_, ?_, hs.param.trans hl⟩
      · have hmem := hs.mem_le
        rw [percents_plain hc, hbare, List.length_cons]
        omega
      · rw [hs.iparam, hi, amps_plain hc]
        omega
    rw [percents_plain hc, hbare, List.length_cons] at h
    rw [decodeQueryLoop, copyChar_ok (by omega), ok_bind, if_neg hc, List.dropLast_concat]
    by_cases hplus : c = charPlus
    · rw [if_pos hplus]
      exact hstep _ (by simp) (by rw [hplus]; rfl) rfl
    · rw [if_neg hplus]
      by_cases hamp : c = charAmp
      · rw [if_pos hamp]
        rw [amps_plain hc, hamp] at hp
        obtain ⟨param1, param2, h1, h2, hlen⟩ := endParam_ok q.param (i := q.iparam)
          (lt_of_le_of_lt (Nat.succ_le_succ (Nat.le_add_right _ _)) hp) q.isParamValue q.mem.length
        dsimp only
        rw [h1, ok_bind, h2, ok_bind]
        exact hstep _ (Nat.le_succ _) (by rw [hamp]; rfl) hlen
      · rw [if_neg hamp]
        have hamp' : (c == charAmp).toNat = 0 := by simp [hamp]
        split_ifs
        · obtain ⟨param1, h1, hlen⟩ := setValueoff_ok q.param (i := q.iparam)
            (by omega) q.mem.length
          dsimp only
          rw [h1, ok_bind]
          exact hstep _ (Nat.le_succ _) (by rw [hamp']; rfl) hlen
        · exact hstep _ (by simp) (by rw [hamp']; rfl) rfl

theorem decodeQuery_spec (max : ℕ) {nrparam : ℕ} (l mem : List UInt8)
    (h : mem.length + l.length + 1 + bare l ≤ max + 2 * percents l)
    (hp : nrparam = amps l + 1 ∨ nrparam = 0 ∧ l = []) :
    ∃ mem' param, decodeQuery max nrparam l mem = .ok (mem', param) ∧
      mem'.length + 2 * percents l ≤ mem.length + l.length + bare l := by
  obtain ⟨param, h0, hlen⟩ := setNameoff_ok (List.replicate (nrparam + 1) ⟨0, 0⟩) (i := 0)
    (by rw [List.length_replicate]; exact Nat.succ_pos _) mem.length
  rw [List.length_replicate] at hlen
  rw [decodeQuery, h0, ok_bind]
  rcases hp with hp | ⟨rfl, rfl⟩
  · obtain ⟨q, hq, hs⟩ := decodeQueryLoop_spec l ⟨mem, param, 0, false⟩ h (by
      dsimp only
      omega)
    have hi := hs.iparam
    have hl := hs.param
    dsimp only at hi hl
    obtain ⟨param1, param2, h1, h2, -⟩ := endParam_ok q.param (i := q.iparam)
      (by omega) q.isParamValue q.mem.length
    have hn : nrparam ≠ 0 := by omega
    have hend : q.iparam + 1 = nrparam := by omega
    rw [hq, ok_bind, if_neg hn, h1, ok_bind, h2, ok_bind, if_pos hend]
    exact ⟨_, _, rfl, hs.mem_le⟩
  · exact ⟨mem, param, rfl, le_refl _⟩

theorem needs_pair (a b : UInt8) (rest : List UInt8) :
    needs need (charPercent :: a :: b :: rest) = needs need rest := by
  rw [needs, scanPart_pair rfl]
  rfl

theorem needs_plain (hc : c ≠ charPercent) (cs : List UInt8) :
    needs need (c :: cs) = needs need cs + (need c).toNat := by
  rw [needs, scanPart_plain rfl hc]
  rfl

theorem copyHex_ok (h : mem.length + 1 < max) (d1 d2 : ℕ) :
    copyHex max mem d1 d2 = .ok (mem ++ [hexdigit d1, hexdigit d2]) := by
  rw [copyHex, copyChar_ok (Nat.lt_of_succ_lt h), ok_bind, copyChar_ok (by simpa using h),
    List.append_assoc]
  rfl

/-- The characters of a part that have to be encoded. -/
def needOf (part : UriPart) : UInt8 → Bool := if part = .QUERY then needQuery else isUnprintable

theorem needOf_eq {part : UriPart} (h : ¬(part = .QUERY ∧ c = charSpace)) (hc : isUnprintable c = true) :
    needOf part c = true := by
  rw [needOf]
  split_ifs with hq
  · rw [isUnprintable, Bool.or_eq_true, decide_eq_true_iff, decide_eq_true_iff] at hc
    rw [needQuery, Bool.or_eq_true, decide_eq_true_iff, decide_eq_true_iff]
    refine hc.imp_left fun hle => UInt8.lt_of_le_of_ne hle fun heq => h ⟨hq, heq⟩
  · exact hc

theorem encodeLoop_spec (max : ℕ) (part : UriPart) (l : List UInt8) :
    ∀ mem : List UInt8, mem.length + l.length + 2 * needs (needOf part) l + 1 ≤ max →
      ∃ mem', encodeLoop max part l mem = .ok mem' ∧
        mem'.length ≤ mem.length + l.length + 2 * needs (needOf part) l := by
  induction l using percentInduction with
  | nil => exact fun mem _ => ⟨mem, rfl, Nat.le_add_right _ _⟩
  | pair a b rest ih =>
    intro mem h
    rw [needs_pair] at h ⊢
    simp only [List.length_cons] at h ⊢
    -- at most three bytes are written for the sequence
    have hstep : ∀ mem1 : List UInt8, mem1.length ≤ mem.length + 3 → ∃ mem',
        encodeLoop max part rest mem1 = .ok mem' ∧
          mem'.length ≤ mem.length + (rest.length + 1 + 1 + 1) + 2 * needs (needOf part) rest := by
      intro mem1 hle
      obtain ⟨mem', hm, hlen⟩ := ih mem1 (by omega)
      exact ⟨mem', hm, by omega⟩
    rw [encodeLoop, copyChar_ok (by omega), ok_bind, if_pos rfl, List.dropLast_concat]
    dsimp only
    split
    · split_ifs
      · rw [copyChar_ok (by omega), ok_bind]
        exact hstep _ (by simp)
      · rw [copyHex_ok (by rw [List.length_append, List.length_singleton]; omega), ok_bind]
        exact hstep _ (by simp)
      · rw [copyChar_ok (by omega), ok_bind]
        exact hstep _ (by simp)
    · exact hstep _ (Nat.le_add_right _ _)
  | half a =>
    intro mem h
    rw [encodeLoop, copyChar_ok (by simp only [List.length_cons] at h; omega), ok_bind, if_pos rfl,
      List.dropLast_concat]
    exact ⟨mem, rfl, by omega⟩
  | bare =>
    intro mem h
    rw [encodeLoop, copyChar_ok (by simp only [List.length_cons] at h; omega), ok_bind, if_pos rfl,
      List.dropLast_concat]
    exact ⟨mem, rfl, by omega⟩
  | plain c cs hc ih =>
    intro mem h
    rw [needs_plain hc, List.length_cons] at h ⊢
    have hstep : ∀ mem1 : List UInt8,
        mem1.length ≤ mem.length + 1 + 2 * (needOf part c).toNat → ∃ mem',
        encodeLoop max part cs mem1 = .ok mem' ∧ mem'.length ≤
          mem.length + (cs.length + 1) + 2 * (needs (needOf part) cs + (needOf part c).toNat) := by
      intro mem1 hle
      obtain ⟨mem', hm, hlen⟩ := ih mem1 (by omega)
      exact ⟨mem', hm, by omega⟩
    rw [encodeLoop, copyChar_ok (by omega), ok_bind, if_neg hc]
    split_ifs with hsp hun
    · rw [List.dropLast_concat]
      exact hstep _ (by simp)
    · have hneed := needOf_eq hsp hun
      rw [hneed, Bool.toNat_true] at h
      rw [List.dropLast_concat, copyHex_ok (by
        rw [List.length_append, List.length_singleton]
        omega), ok_bind]
      exact hstep _ (by simp [hneed])
    · exact hstep _ (by simp)

theorem copyScheme_ok (l : List UInt8) :
    ∀ mem : List UInt8, mem.length + l.length ≤ max →
      copyScheme max l mem = .ok (mem ++ l.map (· ||| 0x20)) := by
  induction l with
  | nil => exact fun mem _ => congrArg Except.ok (List.append_nil mem).symm
  | cons c cs ih =>
    intro mem h
    rw [List.length_cons] at h
    rw [copyScheme, copyChar_ok (by omega), ok_bind, ih _ (by
      rw [List.length_append, List.length_singleton]
      omega), List.append_assoc]
    rfl

theorem length_skipPrevPath_le (out : List UInt8) : (skipPrevPath out).length ≤ out.length := by
  rw [skipPrevPath, List.length_reverse]
  calc _ ≤ out.dropLast.reverse.length := (List.dropWhile_sublist _).length_le
    _ ≤ out.length := by
      rw [List.length_reverse, List.length_dropLast]
      exact Nat.sub_le _ _

theorem length_normalizeLoop_le (fuel : ℕ) :
    ∀ (isStart : Bool) (out : List UInt8) (prefixpos : ℕ) (rest : List UInt8),
      (normalizeLoop fuel isStart out prefixpos rest).1.length ≤ out.length + rest.length := by
  induction fuel with
  | zero => exact fun _ out _ rest => Nat.le_add_right _ _
  | succ fuel ih =>
    intro isStart out prefixpos rest
    have hrest : (rest.takeWhile (· ≠ charSlash)).length +
        (rest.dropWhile (· ≠ charSlash)).length = rest.length := by
      rw [← List.length_append, List.takeWhile_append_dropWhile]
    have htake : ((rest.dropWhile (· ≠ charSlash)).take 1).length +
        ((rest.dropWhile (· ≠ charSlash)).drop 1).length =
          (rest.dropWhile (· ≠ charSlash)).length := by
      rw [← List.length_append, List.take_append_drop]
    rw [normalizeLoop]
    dsimp only
    generalize hcomp : rest.takeWhile (· ≠ charSlash) = comp at *
    generalize hafter : rest.dropWhile (· ≠ charSlash) = after at *
    -- the rest is shorter than what is behind the component
    have hstep : ∀ isStart out' prefixpos, out'.length ≤ out.length + comp.length +
        (after.take 1).length → (normalizeLoop fuel isStart out' prefixpos (after.drop 1)).1.length ≤
          out.length + rest.length := fun isStart out' prefixpos hle => (ih _ _ _ _).trans (by omega)
    split_ifs with hnil hc hs hdot hdd hpp hone
    · exact Nat.le_add_right _ _
    · refine hstep _ _ _ ?_
      have hlen : (after.take 1).length = 1 := by
        have hne : rest.length ≠ 0 := fun h0 => hnil (List.eq_nil_of_length_eq_zero h0)
        rw [hc, List.length_nil] at hrest
        rw [List.length_take]
        omega
      rw [hlen, List.length_singleton]
      omega
    · exact hstep _ _ _ (by omega)
    · exact hstep _ _ _ (by omega)
    · have hle := length_skipPrevPath_le out
      exact hstep _ _ _ (by omega)
    · exact hstep _ _ _ (by omega)
    · refine hstep _ _ _ ?_
      simp only [List.length_append]
      omega
    · refine hstep _ _ _ ?_
      simp only [List.length_append]
      omega

theorem length_normalizeMem_le (mem : List UInt8) (start : ℕ) :
    (normalizeMem mem start).1.length ≤ mem.length := by
  have h := length_normalizeLoop_le (mem.drop start).length true [] 0 (mem.drop start)
  rw [normalizeMem, List.length_append, normalizePath, List.length_take]
  rw [List.length_nil, List.length_drop] at h
  rw [List.length_drop]
  omega

/-! ## The parts found by `parse_offsets` -/

theorem segment_eq (str : List UInt8) (start len : ℕ) :
    segment str start (start + len) = (str.drop start).take len := by
  rw [segment, List.drop_take, Nat.add_sub_cancel_left]

theorem segment_nil {start stop : ℕ} (h : stop ≤ start) : segment str start stop = [] :=
  List.drop_eq_nil_of_le ((List.length_take_le _ _).trans h)

theorem segment_succ (str : List UInt8) (start stop : ℕ) :
    segment str (start + 1) stop = (segment str start stop).drop 1 := by
  rw [segment, segment, List.drop_drop]

theorem length_segment (str : List UInt8) (start stop : ℕ) (h : stop ≤ str.length) :
    (segment str start stop).length = stop - start := by
  rw [segment, List.length_drop, List.length_take, Nat.min_eq_left h]

theorem isLetter_spec (c : UInt8) (h : isLetter c = true) :
    endsPath c = false ∧ c ≠ charPercent ∧ isUnprintable c = false ∧ c ≠ charAmp := by
  have hne : ∀ d : UInt8, isLetter d = false → c ≠ d := by
    rintro d hd rfl
    exact absurd h (by rw [hd]; exact Bool.false_ne_true)
  refine ⟨?_, hne _ rfl, ?_, hne _ rfl⟩
  · rw [endsPath, Bool.or_eq_false_iff, beq_eq_false_iff_ne, beq_eq_false_iff_ne]
    exact ⟨hne _ rfl, hne _ rfl⟩
  · have h32 : (0x20 : UInt8).toNat = 32 := rfl
    rw [isLetter, Bool.not_eq_true', Bool.or_eq_false_iff, decide_eq_false_iff_not,
      decide_eq_false_iff_not, GT.gt, UInt8.lt_iff_toNat_lt, UInt8.lt_iff_toNat_lt,
      UInt8.toNat_or, h32] at h
    rw [isUnprintable, Bool.or_eq_false_iff, decide_eq_false_iff_not, decide_eq_false_iff_not,
      UInt8.le_iff_toNat_le, GT.gt, UInt8.lt_iff_toNat_lt]
    have hle : c.toNat ≤ c.toNat ||| 32 := Nat.left_le_or
    have hlow : c.toNat < 64 → c.toNat ||| 32 < 64 := fun hc =>
      Nat.or_lt_two_pow (n := 6) hc (by decide)
    have h97 : (97 : UInt8).toNat = 97 := rfl
    have h122 : (122 : UInt8).toNat = 122 := rfl
    have h126 : (126 : UInt8).toNat = 126 := rfl
    omega

theorem scanPart_letters {ls : List UInt8} (h : ∀ c ∈ ls, isLetter c = true) (l : List UInt8) :
    scanPart endsPath isUnprintable (ls ++ l) =
      ⟨ls.length + (scanPart endsPath isUnprintable l).size,
        (scanPart endsPath isUnprintable l).nrPercent,
        (scanPart endsPath isUnprintable l).nrNeed, (scanPart endsPath isUnprintable l).nrAmp⟩ := by
  induction ls with
  | nil => rw [List.nil_append, List.length_nil, Nat.zero_add]
  | cons c cs ih =>
    obtain ⟨hstop, hc, hun, hamp⟩ := isLetter_spec c (h c List.mem_cons_self)
    have hamp' : (c == charAmp) = false := beq_false_of_ne hamp
    rw [List.cons_append, scanPart_plain hstop hc, ih fun d hd => h d (List.mem_cons_of_mem _ hd),
      hun, hamp', List.length_cons]
    simp only [Bool.toNat_false, Nat.add_zero]
    rw [Nat.add_right_comm]

theorem drop_one_spec (n : ℕ) (h : l = [] ∨ ∃ c cs, l = c :: cs ∧ stop c = true)
    (hc : stop charPercent = false) (hamp : stop charAmp = false) :
    percents ((l.take n).drop 1) = percents (l.take n) ∧ amps ((l.take n).drop 1) = amps (l.take n) := by
  rcases h with rfl | ⟨c, cs, rfl, hstop⟩
  · rw [List.take_nil]
    exact ⟨rfl, rfl⟩
  · have hc' : c ≠ charPercent := fun h0 => absurd (h0 ▸ hstop) (by simp [hc])
    have hamp' : (c == charAmp) = false :=
      beq_false_of_ne fun h0 => absurd (h0 ▸ hstop) (by simp [hamp])
    cases n with
    | zero => exact ⟨rfl, rfl⟩
    | succ n =>
      rw [List.take_succ_cons, List.drop_one, List.tail_cons, percents_plain hc', amps_plain hc', hamp']
      exact ⟨rfl, rfl⟩

/-- The parts of `str` that are found. -/
structure Layout (str : List UInt8) (o : Offsets) : Prop where
  authority_path : o.path = o.authority ∨ o.authority + 2 ≤ o.path
  path_le : o.path ≤ o.query
  query_le : o.query ≤ o.fragment
  fragment_le : o.fragment ≤ str.length
  stop : o.stop = str.length
  percents_eq : percents (segment str (o.authority + 2) o.path) +
      percents (segment str o.path o.query) + percents (segment str (o.query + 1) o.fragment) +
      percents (segment str (o.fragment + 1) o.stop) = o.nrPercentEncoded
  needs_eq : needs (needOf .AUTHORITY) (segment str o.authority o.path) +
      needs (needOf .PATH) (segment str o.path o.query) +
      needs (needOf .QUERY) (segment str o.query o.fragment) +
      needs (needOf .FRAGMENT) (segment str o.fragment o.stop) = o.nrNeedEncoding
  nrparam : o.nrparam = amps (segment str (o.query + 1) o.fragment) + 1 ∨
    o.nrparam = 0 ∧ segment str (o.query + 1) o.fragment = []
  bareEnd_path : bareEnd (fun _ => false) (segment str o.path o.query) =
    bareEnd endsPath (str.drop o.path)
  bare_path : bareEnd endsPath (str.drop o.path) = true → o.query = str.length

/-- The start of the path and the authority in front of it, if there is one. -/
structure AuthorityAt (str : List UInt8) (authority path : ℕ) (r : Scan) : Prop where
  le : path ≤ str.length
  gap : path = authority ∨ authority + 2 ≤ path
  percents : percents (segment str (authority + 2) path) = r.nrPercent
  needs : needs isUnprintable (segment str authority path) = r.nrNeed

/-- The parts behind the authority. -/
def offsetsAt (str : List UInt8) (authority path : ℕ) (r : Scan) : Offsets :=
  let rp := scanPart endsPath isUnprintable (str.drop path)
  let rq := scanPart endsQuery needQuery (str.drop (path + rp.size))
  let rf := scanPart (fun _ => false) isUnprintable (str.drop (path + rp.size + rq.size))
  { authority := authority
    path := path
    query := path + rp.size
    fragment := path + rp.size + rq.size
    stop := str.length
    nrparam := rq.nrAmp + if path + rp.size + rq.size > path + rp.size then 1 else 0
    nrPercentEncoded := r.nrPercent + rp.nrPercent + rq.nrPercent + rf.nrPercent
    nrNeedEncoding := r.nrNeed + rp.nrNeed + rq.nrNeed + rf.nrNeed }

theorem layout_of_authorityAt {authority path : ℕ} {r : Scan} (ha : AuthorityAt str authority path r) :
    Layout str (offsetsAt str authority path r) := by
  rw [offsetsAt]
  generalize hp : scanPart endsPath isUnprintable (str.drop path) = rp
  generalize hq : scanPart endsQuery needQuery (str.drop (path + rp.size)) = rq
  generalize hf : scanPart (fun _ => false) isUnprintable
    (str.drop (path + rp.size + rq.size)) = rf
  have sp := scanPart_spec endsPath rfl isUnprintable (str.drop path)
  have sq := scanPart_spec endsQuery rfl needQuery (str.drop (path + rp.size))
  have sf := scanPart_spec (fun _ => false) rfl isUnprintable
    (str.drop (path + rp.size + rq.size))
  rw [hp] at sp
  rw [hq] at sq
  rw [hf] at sf
  have hple := sp.size_le
  have hqle := sq.size_le
  have hale := ha.le
  rw [List.length_drop] at hple hqle
  -- the rest is the fragment, as nothing ends it
  have hfall : rf.size = str.length - (path + rp.size + rq.size) := by
    have hle := sf.size_le
    rw [List.length_drop] at hle
    rcases sf.drop_eq with hnil | ⟨_, _, _, h⟩
    · rw [List.drop_eq_nil_iff, List.length_drop] at hnil
      omega
    · exact absurd h Bool.false_ne_true
  have hfseg : segment str (path + rp.size + rq.size) str.length =
      (str.drop (path + rp.size + rq.size)).take rf.size := by
    rw [← segment_eq, hfall, Nat.add_sub_cancel' (by omega)]
  have hqdrop := sp.drop_eq
  rw [List.drop_drop] at hqdrop
  have hfdrop := sq.drop_eq
  rw [List.drop_drop] at hfdrop
  obtain ⟨hqp, hqa⟩ := drop_one_spec rq.size hqdrop rfl rfl
  obtain ⟨hfp, -⟩ := drop_one_spec rf.size hfdrop rfl rfl
  exact
    { authority_path := ha.gap
      path_le := Nat.le_add_right _ _
      query_le := Nat.le_add_right _ _
      fragment_le := by
        dsimp only
        omega
      stop := rfl
      percents_eq := by
        dsimp only
        rw [ha.percents, segment_eq, sp.percents_take, segment_succ, segment_eq, hqp,
          sq.percents_take, segment_succ, hfseg, hfp, sf.percents_take]
      needs_eq := by
        dsimp only
        change needs isUnprintable _ + needs isUnprintable _ + needs needQuery _ +
          needs isUnprintable _ = _
        rw [ha.needs, segment_eq, sp.needs_take, segment_eq, sq.needs_take, hfseg, sf.needs_take]
      nrparam := by
        dsimp only
        rw [segment_succ, segment_eq, hqa, sq.amps_take]
        rcases Nat.eq_zero_or_pos rq.size with h0 | hpos
        · refine Or.inr ⟨?_, by rw [h0]; rfl⟩
          have hamp := sq.amps_take
          rw [h0, List.take_zero, amps_nil] at hamp
          rw [← hamp, h0, Nat.add_zero, if_neg (lt_irrefl _)]
        · exact Or.inl (by rw [if_pos (Nat.lt_add_of_pos_right hpos)])
      bareEnd_path := by
        dsimp only
        rw [segment_eq]
        exact sp.bareEnd_take
      bare_path := by
        intro h
        have hnil := sp.bare_drop h
        rw [List.drop_eq_nil_iff, List.length_drop] at hnil
        dsimp only
        omega }

/-- The string has a scheme: letters and a colon. -/
def hasScheme (str : List UInt8) : Bool := str[(str.takeWhile isLetter).length]? == some charColon

/-- The string starts with two slashes. -/
def hasSlashes (str : List UInt8) : Bool := [charSlash, charSlash].isPrefixOf str

theorem hasSlashes_iff : hasSlashes str = true ↔ ∃ l, str = charSlash :: charSlash :: l := by
  rw [hasSlashes, List.isPrefixOf_iff_prefix]
  exact ⟨fun ⟨l, h⟩ => ⟨l, h.symm⟩, fun ⟨l, h⟩ => ⟨l, h.symm⟩⟩

theorem hasSlashes_drop_iff (str : List UInt8) (i : ℕ) : hasSlashes (str.drop i) = true ↔
    i + 2 ≤ str.length ∧ str[i]? = some charSlash ∧ str[i + 1]? = some charSlash := by
  rw [hasSlashes_iff]
  constructor
  · rintro ⟨l, h⟩
    have hlen := congrArg List.length h
    have h0 : (str.drop i)[0]? = some charSlash := by rw [h]; rfl
    have h1 : (str.drop i)[1]? = some charSlash := by rw [h]; rfl
    rw [List.length_drop, List.length_cons, List.length_cons] at hlen
    rw [List.getElem?_drop] at h0 h1
    exact ⟨by omega, h0, h1⟩
  · rintro ⟨-, h0, h1⟩
    obtain ⟨hlt0, he0⟩ := List.getElem?_eq_some_iff.mp h0
    obtain ⟨hlt1, he1⟩ := List.getElem?_eq_some_iff.mp h1
    rw [List.drop_eq_getElem_cons hlt0, he0, List.drop_eq_getElem_cons hlt1, he1]
    exact ⟨_, rfl⟩

/-- The end of the scheme. -/
def schemeEnd (str : List UInt8) : ℕ :=
  if hasScheme str then (str.takeWhile isLetter).length + 1 else 0

/-- The authority behind the two slashes at `start`. -/
def authorityScan (str : List UInt8) (start : ℕ) : Scan :=
  scanPart endsAuthority isUnprintable (str.drop (start + 2))

theorem authorityAt_none {authority : ℕ} (h : authority ≤ str.length) :
    AuthorityAt str authority authority ⟨0, 0, 0, 0⟩ where
  le := h
  gap := Or.inl rfl
  percents := by
    rw [segment_nil (Nat.le_add_right _ _)]
    rfl
  needs := by
    rw [segment_nil le_rfl]
    rfl

theorem authorityAt_slashes {authority : ℕ} (h : hasSlashes (str.drop authority) = true) :
    AuthorityAt str authority (authority + 2 + (authorityScan str authority).size)
      (authorityScan str authority) := by
  obtain ⟨hlen, h0, h1⟩ := (hasSlashes_drop_iff str authority).mp h
  have sa := scanPart_spec endsAuthority rfl isUnprintable (str.drop (authority + 2))
  have hle := sa.size_le
  obtain ⟨hlt0, he0⟩ := List.getElem?_eq_some_iff.mp h0
  obtain ⟨hlt1, he1⟩ := List.getElem?_eq_some_iff.mp h1
  rw [List.length_drop] at hle
  rw [authorityScan]
  exact
    { le := by omega
      gap := Or.inr (Nat.le_add_right _ _)
      percents := by rw [segment_eq, sa.percents_take]
      needs := by
        have hslash : charSlash ≠ charPercent := by decide
        rw [Nat.add_assoc, segment_eq, List.drop_eq_getElem_cons hlt0, he0,
          List.drop_eq_getElem_cons hlt1, he1, Nat.add_comm 2, List.take_succ_cons,
          List.take_succ_cons, needs_plain hslash, needs_plain hslash, Nat.add_assoc authority 1 1]
        exact sa.needs_take }

theorem schemeEnd_le (str : List UInt8) : schemeEnd str ≤ str.length := by
  rw [schemeEnd]
  split_ifs with h
  · rw [hasScheme, beq_iff_eq] at h
    exact (List.getElem?_eq_some_iff.mp h).1
  · exact Nat.zero_le _

theorem drop_takeWhile (str : List UInt8) :
    str.drop (str.takeWhile isLetter).length = str.dropWhile isLetter := by
  have hstr := List.takeWhile_append_dropWhile (p := isLetter) (l := str)
  calc str.drop (str.takeWhile isLetter).length
      = (str.takeWhile isLetter ++ str.dropWhile isLetter).drop (str.takeWhile isLetter).length := by
        rw [hstr]
    _ = str.dropWhile isLetter := List.drop_left

theorem parseOffsets_eq (str : List UInt8) : parseOffsets str =
    if hasSlashes (str.drop (schemeEnd str)) then
      offsetsAt str (schemeEnd str) (schemeEnd str + 2 + (authorityScan str (schemeEnd str)).size)
        (authorityScan str (schemeEnd str))
    else offsetsAt str (schemeEnd str) (schemeEnd str) ⟨0, 0, 0, 0⟩ := by
  have hletters : ∀ c ∈ str.takeWhile isLetter, isLetter c = true := fun c hc =>
    List.mem_takeWhile_imp hc
  -- the letters in front of a path without scheme are a part of it
  have hpath := scanPart_letters hletters (str.dropWhile isLetter)
  rw [List.takeWhile_append_dropWhile, ← drop_takeWhile] at hpath
  have hletter : hasSlashes str = true → (str.takeWhile isLetter).length = 0 := by
    rw [hasSlashes_iff]
    rintro ⟨l, rfl⟩
    rfl
  rw [schemeEnd, hasScheme, parseOffsets]
  generalize (str.takeWhile isLetter).length = n at *
  by_cases hcolon : str[n]? = some charColon
  · have hyes : (str[n]? == some charColon) = true := beq_iff_eq.mpr hcolon
    rw [if_pos hcolon, if_pos hcolon, if_pos hyes]
    have hiff : (n + 1 = n + 1 ∧ n + 1 + 2 ≤ str.length ∧ str[n + 1]? = some charSlash ∧
        str[n + 1 + 1]? = some charSlash) ↔ hasSlashes (str.drop (n + 1)) = true := by
      rw [hasSlashes_drop_iff]
      exact ⟨fun h => h.2, fun h => ⟨rfl, h⟩⟩
    by_cases hauth : hasSlashes (str.drop (n + 1)) = true
    · rw [if_pos (hiff.mpr hauth), if_pos (hiff.mpr hauth), if_pos hauth]
      rfl
    · rw [if_neg fun h => hauth (hiff.mp h), if_neg fun h => hauth (hiff.mp h), if_neg hauth]
      rfl
  · have hno : ¬(str[n]? == some charColon) = true := fun h => hcolon (beq_iff_eq.mp h)
    rw [if_neg hcolon, if_neg hcolon, if_neg hno, List.drop_zero]
    have hiff : (n = 0 ∧ n + 2 ≤ str.length ∧ str[n]? = some charSlash ∧
        str[n + 1]? = some charSlash) ↔ hasSlashes str = true := by
      rw [← List.drop_zero (l := str), hasSlashes_drop_iff, List.drop_zero]
      constructor
      · rintro ⟨rfl, h⟩
        exact h
      · intro h
        obtain rfl := hletter ((hasSlashes_drop_iff str 0).mpr h)
        exact ⟨rfl, h⟩
    by_cases hauth : hasSlashes str = true
    · obtain rfl := hletter hauth
      rw [if_pos (hiff.mpr hauth), if_pos (hiff.mpr hauth), if_pos hauth]
      rfl
    · rw [if_neg fun h => hauth (hiff.mp h), if_neg fun h => hauth (hiff.mp h),
        if_neg fun h => hauth (hiff.mp h), if_neg hauth, offsetsAt]
      simp only [Nat.zero_add, List.drop_zero, hpath]

theorem parseOffsets_layout (str : List UInt8) : Layout str (parseOffsets str) := by
  rw [parseOffsets_eq]
  split_ifs with h
  · exact layout_of_authorityAt (authorityAt_slashes h)
  · exact layout_of_authorityAt (authorityAt_none (schemeEnd_le str))

theorem parseOffsets_path_eq_zero (str : List UInt8) :
    (parseOffsets str).path = 0 ↔ hasScheme str = false ∧ hasSlashes str = false := by
  have hend : schemeEnd str = 0 ↔ hasScheme str = false := by
    rw [schemeEnd]
    split_ifs with h
    · exact ⟨nofun, fun h0 => absurd h (by simp [h0])⟩
    · exact ⟨fun _ => Bool.eq_false_iff.mpr h, fun _ => rfl⟩
  rw [parseOffsets_eq, ← hend]
  split_ifs with h
  · refine ⟨fun h0 => ?_, fun h0 => ?_⟩
    · rw [offsetsAt] at h0
      dsimp only at h0
      omega
    · rw [h0.1, List.drop_zero, h0.2] at h
      exact absurd h Bool.false_ne_true
  · refine ⟨fun h0 => ?_, fun h0 => h0.1⟩
    have h1 : schemeEnd str = 0 := h0
    rw [h1, List.drop_zero] at h
    exact ⟨h1, Bool.eq_false_iff.mpr h⟩

/-! ## Staying inside of the memory -/

/-- The string is a path that ends with a bare percent sign, and all other percent signs in it stand
for a character. -/
def isBarePath (str : List UInt8) : Bool :=
  !hasScheme str && !hasSlashes str && bareEnd endsPath str

theorem tail_room {start stop : ℕ} (hle : start ≤ stop) (h : stop ≤ str.length) :
    (segment str (start + 1) stop).length + bare (segment str (start + 1) stop) + start ≤ stop := by
  have hlen := length_segment str (start + 1) stop h
  have hone := bare_le_one (segment str (start + 1) stop)
  rcases Nat.eq_zero_or_pos (segment str (start + 1) stop).length with h0 | hpos
  · rw [List.eq_nil_of_length_eq_zero h0, List.length_nil, bare_nil]
    omega
  · omega

theorem authority_room {o : Offsets} (hl : Layout str o)
    (hbare : o.path = 0 → bare (segment str o.path o.query) = 0) :
    o.authority - 1 + (segment str (o.authority + 2) o.path).length +
      bare (segment str (o.authority + 2) o.path) + bare (segment str o.path o.query) ≤ o.path := by
  have hlen := length_segment str (o.authority + 2) o.path
    (hl.path_le.trans (hl.query_le.trans hl.fragment_le))
  have hone := bare_le_one (segment str (o.authority + 2) o.path)
  have hone' := bare_le_one (segment str o.path o.query)
  rcases hl.authority_path with heq | hle
  · have h0 : (segment str (o.authority + 2) o.path).length = 0 := by omega
    rw [List.eq_nil_of_length_eq_zero h0, List.length_nil, bare_nil]
    rcases Nat.eq_zero_or_pos o.path with hz | hpos
    · have hb := hbare hz
      omega
    · omega
  · omega

theorem parseEncoded_ok {o : Offsets} (hl : Layout str o)
    (hmax : max = 1 + 2 * o.nrNeedEncoding + str.length) : ∃ u, parseEncoded max str o = .ok u := by
  have hap := hl.authority_path
  have hpq := hl.path_le
  have hqf := hl.query_le
  have hfs := hl.fragment_le
  have hneeds := hl.needs_eq
  have hstop := hl.stop
  have h0 := length_segment str 0 o.authority (by omega)
  have h1 := length_segment str o.authority o.path (by omega)
  have h2 := length_segment str o.path o.query (by omega)
  have h3 := length_segment str o.query o.fragment hfs
  have h4 := length_segment str o.fragment o.stop hstop.le
  rw [parseEncoded, copyScheme_ok _ _ (by rw [List.length_nil]; omega), ok_bind]
  generalize hm0 : [] ++ (segment str 0 o.authority).map (· ||| 0x20) = mem0
  have hlen0 : mem0.length = o.authority := by
    rw [← hm0, List.nil_append, List.length_map, h0]
    rfl
  obtain ⟨mem1, e1, hlen1⟩ := encodeLoop_spec max .AUTHORITY
    (segment str o.authority o.path) mem0 (by omega)
  rw [e1, ok_bind]
  obtain ⟨mem, e2, hlen⟩ := encodeLoop_spec max .PATH
    (segment str o.path o.query) mem1 (by omega)
  rw [e2, ok_bind]
  have hlen2 := length_normalizeMem_le mem mem1.length
  generalize normalizeMem mem mem1.length = norm at *
  dsimp only
  obtain ⟨mem3, e3, hlen3⟩ := encodeLoop_spec max .QUERY
    (segment str o.query o.fragment) norm.1 (by omega)
  rw [e3, ok_bind]
  obtain ⟨mem4, e4, hlen4⟩ := encodeLoop_spec max .FRAGMENT
    (segment str o.fragment o.stop) mem3 (by omega)
  rw [e4, ok_bind, copyChar_ok (by omega)]
  exact ⟨_, rfl⟩

theorem parseDecoded_ok {o : Offsets} (hl : Layout str o)
    (hmax : max = 1 + str.length - 2 * o.nrPercentEncoded)
    (hbare : o.path = 0 → bare (segment str o.path o.query) = 0) :
    ∃ u, parseDecoded max str o = .ok u := by
  have hpq := hl.path_le
  have h0 := length_segment str 0 o.authority (by
    have hap := hl.authority_path
    have hqf := hl.query_le
    have hfs := hl.fragment_le
    omega)
  have r1 := authority_room hl hbare
  have r2 := length_segment str o.path o.query (hl.query_le.trans hl.fragment_le)
  have r3 := tail_room hl.query_le hl.fragment_le
  have r4 := tail_room (hl.fragment_le.trans hl.stop.ge) hl.stop.le
  have p1 := percents_le (segment str (o.authority + 2) o.path)
  have p2 := percents_le (segment str o.path o.query)
  have p3 := percents_le (segment str (o.query + 1) o.fragment)
  have p4 := percents_le (segment str (o.fragment + 1) o.stop)
  have hroom : max + 2 * (percents (segment str (o.authority + 2) o.path) +
      percents (segment str o.path o.query) + percents (segment str (o.query + 1) o.fragment) +
      percents (segment str (o.fragment + 1) o.stop)) = str.length + 1 := by
    rw [hl.percents_eq]
    have hsum := hl.percents_eq
    have hstop := hl.stop
    omega
  have hstop := hl.stop
  rw [parseDecoded, copyScheme_ok _ _ (by rw [List.length_nil]; omega), ok_bind]
  dsimp only
  generalize hm0 : ([] ++ (segment str 0 o.authority).map (· ||| 0x20)).dropLast = mem0
  have hlen0 : mem0.length = o.authority - 1 := by
    rw [← hm0, List.nil_append, List.length_dropLast, List.length_map, h0]
    rfl
  clear hm0 h0
  obtain ⟨mem1, e1, hlen1⟩ := decodeLoop_spec max
    (segment str (o.authority + 2) o.path) mem0 (by omega)
  rw [e1, ok_bind]
  obtain ⟨mem, e2, hlen⟩ := decodeLoop_spec max
    (segment str o.path o.query) mem1 (by omega)
  rw [e2, ok_bind]
  have hlen2 := length_normalizeMem_le mem mem1.length
  generalize normalizeMem mem mem1.length = norm at *
  obtain ⟨mem3, param, e3, hlen3⟩ := decodeQuery_spec max
    (segment str (o.query + 1) o.fragment) norm.1 (by omega) hl.nrparam
  rw [e3, ok_bind]
  obtain ⟨mem4, e4, hlen4⟩ := decodeLoop_spec max
    (segment str (o.fragment + 1) o.stop) mem3 (by omega)
  dsimp only
  rw [e4, ok_bind, copyChar_ok (by omega)]
  exact ⟨_, rfl⟩

theorem parseDecoded_undefined {o : Offsets} (hl : Layout str o)
    (hmax : max = 1 + str.length - 2 * o.nrPercentEncoded) (hpath : o.path = 0)
    (hbare : bareEnd endsPath str = true) : parseDecoded max str o = .error .undefined := by
  have hauth : o.authority = 0 := by
    have h := hl.authority_path
    omega
  have hend := hl.bareEnd_path
  have hquery := hl.bare_path
  rw [hpath, List.drop_zero] at hend hquery
  have hquery := hquery hbare
  have hfrag := hl.fragment_le
  have hstop := hl.stop
  have hp := hl.percents_eq
  rw [hauth, hpath, segment_nil (Nat.zero_le _), segment_nil (by omega : o.fragment ≤ o.query + 1),
    segment_nil (by have h := hl.query_le; omega : o.stop ≤ o.fragment + 1)] at hp
  simp only [percents_nil] at hp
  have hlen := length_segment str 0 o.query hquery.le
  have h1 : bare (segment str 0 o.query) = 1 := by
    rw [bare, hend, hbare]
    rfl
  have hle := percents_le (segment str 0 o.query)
  rw [parseDecoded, hauth, hpath, segment_nil le_rfl, segment_nil (Nat.zero_le _), copyScheme, ok_bind]
  dsimp only
  rw [List.dropLast_nil, decodeLoop, ok_bind, decodeLoop_undefined _ _ h1 (by
    rw [List.length_nil]
    omega)]
  rfl

/-- **The parser stays inside of the memory except for a bare path.**  A byte is written behind the
first `uri_size_max` ones, or a parameter behind the last one, or an assertion does not hold, exactly
if a path is decoded that stands alone and ends with a bare percent sign: two bytes are subtracted for
the sign, but there is only one. -/
theorem parseUri_inside_iff (type : UriType) (str : List UInt8) (hsize : str.length ≤ 65535) :
    parseUri type str ≠ .error .undefined ↔ ¬(type = .DECODED ∧ isBarePath str = true) := by
  have hl := parseOffsets_layout str
  have hbare : isBarePath str = true ↔
      (parseOffsets str).path = 0 ∧ bareEnd endsPath str = true := by
    rw [isBarePath, Bool.and_eq_true, Bool.and_eq_true, Bool.not_eq_true', Bool.not_eq_true',
      parseOffsets_path_eq_zero]
  rw [parseUri.eq_def]
  dsimp only
  cases type with
  | ENCODED =>
    refine ⟨fun _ h => absurd h.1 nofun, fun _ => ?_⟩
    split_ifs with hmax
    · exact nofun
    · obtain ⟨u, hu⟩ := parseEncoded_ok hl rfl
      exact hu ▸ nofun
  | DECODED =>
    have hfits : ¬uriSizeMax .DECODED str > 2 ^ 16 := by
      rw [uriSizeMax]
      omega
    rw [if_neg hfits, hbare]
    refine ⟨fun h hb => h (parseDecoded_undefined hl rfl hb.2.1 hb.2.2), fun h => ?_⟩
    obtain ⟨u, hu⟩ := parseDecoded_ok hl rfl fun hpath => by
      have hend : bareEnd endsPath str ≠ true := fun hb => h ⟨rfl, hpath, hb⟩
      rw [bare, hl.bareEnd_path, hpath, List.drop_zero, (Bool.not_eq_true _).mp hend]
      rfl
    dsimp only
    exact hu ▸ nofun

theorem parseUri_inside_query :
    parseUri .DECODED [63, 97, 37] ≠ .error .undefined ↔
      ¬(UriType.DECODED = .DECODED ∧ isBarePath [63, 97, 37] = true) :=
  parseUri_inside_iff .DECODED [63, 97, 37] (by decide)

/-- The path `%` is decoded into a memory of no bytes. -/
theorem parseUri_not_inside_percent :
    ¬∀ (type : UriType) (str : List UInt8), str.length ≤ 65535 →
      parseUri type str ≠ .error .undefined :=
  fun h => h .DECODED [37] (by decide) rfl

end Uri
end CKern
