import CKern.Io.Www.UriPath

/-!
# `io/www/uri.c`: building and decoding a URI

* `initbuildUriencoded`, `initUriencoded`, `initUridecoded`, `getpart`, `getparamUridecoded`: the
  functions of the module.  A part that is not given is `none`, and a byte that is written behind the
  computed size or an assertion that does not hold is a failure.
* `initbuildUriencoded_eq`: what is built, byte for byte.
* `Parts.initUridecoded_encoded`: the parts and parameters that are read from it.
* `initbuildUriencoded_inverse`: building and decoding are inverse.
-/

namespace CKern
namespace Uri

/-! ## Parts and parameters -/

/-- `size` bytes of the memory from an offset on, where `size` is a difference of type `uint16_t`. -/
def bytesAt (mem : List UInt8) (start stop : ℕ) : List UInt8 :=
  (mem.drop start).take ((stop + (2 ^ 16 - start)) % 2 ^ 16)

/-- `getpart_uriencoded` and `getpart_uridecoded`. -/
def getpart (uri : UriT) : UriPart → List UInt8
  | .SCHEME => bytesAt uri.mem 0 uri.authority
  | .AUTHORITY => bytesAt uri.mem uri.authority uri.path
  | .PATH => bytesAt uri.mem uri.path uri.query
  | .QUERY => bytesAt uri.mem uri.query uri.fragment
  | .FRAGMENT => bytesAt uri.mem uri.fragment uri.stop

/-- `getparam_uridecoded`: the name and the value of a parameter. -/
def getparamUridecoded (uri : UriT) (iparam : ℕ) : List UInt8 × List UInt8 :=
  if iparam ≥ uri.nrparam then ([], [])
  else
    let param := uri.param.getD iparam ⟨0, 0⟩
    let next := uri.param.getD (iparam + 1) ⟨0, 0⟩
    (bytesAt uri.mem param.nameoff param.valueoff, bytesAt uri.mem param.valueoff next.nameoff)

/-- `str_uriencoded`, of the length `size_uriencoded`. -/
def strUriencoded (uri : UriT) : List UInt8 := uri.mem.take uri.stop

/-- `init_uridecoded`. -/
def initUridecoded (fromuri : UriT) : Except Failure UriT :=
  match parseUri .DECODED (strUriencoded fromuri) with
  | .ok uri => .ok uri
  | .error .undefined => .error .undefined
  | .error (.errno _) => .error (.errno .EINVAL)

/-! ## Building -/

/-- The character is written as a percent sign with two digits. -/
def needsPercent (part : UriPart) (c : UInt8) : Bool :=
  !(part == .QUERY && c == charSpace) && isPercentEncoded part c

/-- The bytes counted for a string. -/
def encodedSize (part : UriPart) (l : List UInt8) : ℕ := l.length + 2 * l.countP (needsPercent part)

/-- The size computed by `initbuild_uriencoded`. -/
def buildSize (scheme authority path : List UInt8) (params : List (List UInt8 × List UInt8))
    (fragment : List UInt8) : ℕ :=
  (if scheme = [] then 0 else scheme.length + 1) + 2 * params.length +
    (params.map fun p => encodedSize .QUERY p.1 + encodedSize .QUERY p.2).sum +
    (if authority = [] then 0 else encodedSize .AUTHORITY authority + 2) +
    (if path = [] then 0 else encodedSize .PATH path) +
    (if fragment = [] then 0 else encodedSize .FRAGMENT fragment + 1) + 1

/-- A character of a part. -/
def buildChar (max : ℕ) (part : UriPart) (mem : List UInt8) (c : UInt8) :
    Except Failure (List UInt8) :=
  if part = .QUERY ∧ c = charSpace then copyChar max mem charPlus
  else if isPercentEncoded part c then
    (copyChar max mem charPercent).bind fun mem => copyHex max mem (c.toNat / 16) (c.toNat % 16)
  else copyChar max mem c

/-- The characters of a part. -/
def buildPart (max : ℕ) (part : UriPart) : List UInt8 → List UInt8 → Except Failure (List UInt8)
  | [], mem => .ok mem
  | c :: cs, mem => (buildChar max part mem c).bind fun mem => buildPart max part cs mem

/-- The parameters, with `&` between two of them. -/
def buildParams (max : ℕ) :
    Bool → List (List UInt8 × List UInt8) → List UInt8 → Except Failure (List UInt8)
  | _, [], mem => .ok mem
  | isFirst, (name, value) :: params, mem =>
    (if isFirst then .ok mem else copyChar max mem charAmp).bind fun mem =>
    (buildPart max .QUERY name mem).bind fun mem =>
    (if value = [] then .ok mem else copyChar max mem charEqual).bind fun mem =>
    (buildPart max .QUERY value mem).bind fun mem => buildParams max false params mem

/-- Bytes in front of a part. -/
def copyChars (max : ℕ) : List UInt8 → List UInt8 → Except Failure (List UInt8)
  | [], mem => .ok mem
  | c :: cs, mem => (copyChar max mem c).bind fun mem => copyChars max cs mem

/-- The part with the bytes in front of it, if there is one. -/
def buildDelimited (max : ℕ) (delimiter : List UInt8) (part : UriPart) (l mem : List UInt8) :
    Except Failure (List UInt8) :=
  if l = [] then .ok mem
  else (copyChars max delimiter mem).bind fun mem => buildPart max part l mem

/-- The scheme with its colon, if there is one. -/
def buildScheme (max : ℕ) (scheme : List UInt8) : Except Failure (List UInt8) :=
  if scheme = [] then .ok []
  else (copyScheme max scheme []).bind fun mem => copyChar max mem charColon

/-- The query, if there are parameters. -/
def buildQuery (max : ℕ) (params : List (List UInt8 × List UInt8)) (mem : List UInt8) :
    Except Failure (List UInt8) :=
  if params = [] then .ok mem
  else (copyChar max mem charQuestion).bind fun mem => buildParams max true params mem

/-- `initbuild_uriencoded` behind the checks and the allocation of `max` bytes. -/
def buildUri (max : ℕ) (scheme authority path : List UInt8)
    (params : List (List UInt8 × List UInt8)) (fragment : List UInt8) : Except Failure UriT :=
  (buildScheme max scheme).bind fun mem0 =>
  (buildDelimited max [charSlash, charSlash] .AUTHORITY authority mem0).bind fun mem1 =>
  (buildDelimited max [] .PATH path mem1).bind fun mem =>
  let (mem2, prefixlen) := normalizeMem mem mem1.length
  (buildQuery max params mem2).bind fun mem3 =>
  (buildDelimited max [charHash] .FRAGMENT fragment mem3).bind fun mem4 =>
  (copyChar max mem4 0).map fun mem =>
    { mem := mem
      authority := mem0.length % 2 ^ 16
      path := mem1.length % 2 ^ 16
      query := mem2.length % 2 ^ 16
      fragment := mem3.length % 2 ^ 16
      stop := mem4.length % 2 ^ 16
      prefixlen := prefixlen % 2 ^ 16
      nrparam := params.length
      param := [] }

/-- `initbuild_uriencoded`; memory can always be allocated. -/
def initbuildUriencoded (pScheme pAuthority pPath : Option (List UInt8))
    (params : List (List UInt8 × List UInt8)) (pFragment : Option (List UInt8)) :
    Except Failure UriT :=
  let scheme := pScheme.getD []
  let authority := pAuthority.getD []
  let path := pPath.getD []
  let fragment := pFragment.getD []
  if scheme.any (!isLetter ·) then .error (.errno .EINVAL)
  else if authority ≠ [] ∧ path ≠ [] ∧ path.head? ≠ some charSlash then .error (.errno .EINVAL)
  else if buildSize scheme authority path params fragment > 2 ^ 16 - 1 then
    .error (.errno .EOVERFLOW)
  else
    buildUri (buildSize scheme authority path params fragment) scheme authority path params fragment

/-- `init_uriencoded`. -/
def initUriencoded (fromuri : UriT) : Except Failure UriT :=
  initbuildUriencoded (some (getpart fromuri .SCHEME)) (some (getpart fromuri .AUTHORITY))
    (some (getpart fromuri .PATH)) ((List.range fromuri.nrparam).map (getparamUridecoded fromuri))
    (some (getpart fromuri .FRAGMENT))

/-! ## What is written -/

variable {part : UriPart} {max : ℕ} {l mem t : List UInt8} {c : UInt8}
  {params : List (List UInt8 × List UInt8)}

/-- The bytes of a character. -/
def encodeByte (part : UriPart) (c : UInt8) : List UInt8 :=
  if part = .QUERY ∧ c = charSpace then [charPlus]
  else if isPercentEncoded part c then
    [charPercent, hexdigit (c.toNat / 16), hexdigit (c.toNat % 16)]
  else [c]

/-- The bytes of a part. -/
def encodeBytes (part : UriPart) (l : List UInt8) : List UInt8 := l.flatMap (encodeByte part)

theorem length_encodeByte (part : UriPart) (c : UInt8) :
    (encodeByte part c).length = 1 + 2 * (needsPercent part c).toNat := by
  rw [encodeByte, needsPercent]
  split_ifs with hq hp
  · simp [hq.1, hq.2]
  · have hq' : (part == .QUERY && c == charSpace) = false := by simpa using hq
    rw [hq', hp]
    rfl
  · rw [Bool.eq_false_iff.mpr hp, Bool.and_false]
    rfl

theorem length_encodeBytes (part : UriPart) (l : List UInt8) :
    (encodeBytes part l).length = encodedSize part l := by
  induction l with
  | nil => rfl
  | cons c cs ih =>
    rw [encodedSize, encodeBytes] at *
    rw [List.flatMap_cons, List.length_append, ih, length_encodeByte, List.length_cons,
      List.countP_cons]
    cases needsPercent part c <;> simp <;> omega

theorem buildChar_ok (h : mem.length + (encodeByte part c).length ≤ max) :
    buildChar max part mem c = .ok (mem ++ encodeByte part c) := by
  rw [encodeByte] at h ⊢
  rw [buildChar]
  split_ifs at h ⊢ with hq hp
  · exact copyChar_ok h _
  · simp only [List.length_cons, List.length_nil] at h
    rw [copyChar_ok (by omega), ok_bind, copyHex_ok (by
      rw [List.length_append, List.length_singleton]
      omega), List.append_assoc]
    rfl
  · exact copyChar_ok h _

theorem buildPart_ok (part : UriPart) (l : List UInt8) :
    ∀ mem : List UInt8, mem.length + (encodeBytes part l).length ≤ max →
      buildPart max part l mem = .ok (mem ++ encodeBytes part l) := by
  induction l with
  | nil => exact fun mem _ => congrArg Except.ok (List.append_nil mem).symm
  | cons c cs ih =>
    intro mem h
    rw [encodeBytes, List.flatMap_cons, List.length_append] at h
    rw [buildPart, buildChar_ok (by omega), ok_bind, ih _ (by
      rw [List.length_append, encodeBytes]
      omega), List.append_assoc]
    rfl

theorem copyChars_ok (l : List UInt8) :
    ∀ mem : List UInt8, mem.length + l.length ≤ max → copyChars max l mem = .ok (mem ++ l) := by
  induction l with
  | nil => exact fun mem _ => congrArg Except.ok (List.append_nil mem).symm
  | cons c cs ih =>
    intro mem h
    rw [List.length_cons] at h
    rw [copyChars, copyChar_ok (by omega), ok_bind, ih _ (by
      rw [List.length_append, List.length_singleton]
      omega), List.append_assoc]
    rfl

/-- The text of a part behind its delimiter. -/
def delimited (delimiter : List UInt8) (part : UriPart) (l : List UInt8) : List UInt8 :=
  if l = [] then [] else delimiter ++ encodeBytes part l

theorem buildDelimited_ok {delimiter : List UInt8}
    (h : mem.length + (delimited delimiter part l).length ≤ max) :
    buildDelimited max delimiter part l mem = .ok (mem ++ delimited delimiter part l) := by
  rw [delimited] at h ⊢
  rw [buildDelimited]
  split_ifs at h ⊢ with hl
  · rw [List.append_nil]
  · rw [List.length_append] at h
    rw [copyChars_ok _ _ (by omega), ok_bind, buildPart_ok _ _ _ (by
      rw [List.length_append]
      omega), List.append_assoc]

/-- The text of a scheme. -/
def schemeText (scheme : List UInt8) : List UInt8 :=
  if scheme = [] then [] else scheme.map (· ||| 0x20) ++ [charColon]

theorem buildScheme_ok {scheme : List UInt8} (h : (schemeText scheme).length ≤ max) :
    buildScheme max scheme = .ok (schemeText scheme) := by
  rw [schemeText] at h ⊢
  rw [buildScheme]
  split_ifs at h ⊢ with hs
  · rfl
  · rw [List.length_append, List.length_map, List.length_singleton] at h
    rw [copyScheme_ok _ _ (by rw [List.length_nil]; omega), ok_bind, List.nil_append]
    exact copyChar_ok (by rw [List.length_map]; exact h) _

/-- The text of one parameter. -/
def paramText (p : List UInt8 × List UInt8) : List UInt8 :=
  encodeBytes .QUERY p.1 ++ if p.2 = [] then [] else charEqual :: encodeBytes .QUERY p.2

/-- The text of the parameters behind the first one. -/
def paramsText (params : List (List UInt8 × List UInt8)) : List UInt8 :=
  params.flatMap fun p => charAmp :: paramText p

theorem paramsText_cons (p : List UInt8 × List UInt8) (params : List (List UInt8 × List UInt8)) :
    paramsText (p :: params) = charAmp :: (paramText p ++ paramsText params) := by
  rw [paramsText, List.flatMap_cons, List.cons_append]
  rfl

/-- The text of a query. -/
def queryText : List (List UInt8 × List UInt8) → List UInt8
  | [] => []
  | p :: params => charQuestion :: (paramText p ++ paramsText params)

theorem buildParam_ok (p : List UInt8 × List UInt8) (mem : List UInt8)
    (h : mem.length + (paramText p).length ≤ max) :
    ((buildPart max .QUERY p.1 mem).bind fun mem =>
      (if p.2 = [] then .ok mem else copyChar max mem charEqual).bind fun mem =>
        buildPart max .QUERY p.2 mem) = .ok (mem ++ paramText p) := by
  rw [paramText, List.length_append] at h
  rw [paramText, buildPart_ok _ _ _ (by omega), ok_bind]
  split_ifs at h ⊢ with hv
  · rw [ok_bind, hv, List.append_nil]
    rfl
  · rw [List.length_cons] at h
    rw [copyChar_ok (by rw [List.length_append]; omega), ok_bind, buildPart_ok _ _ _ (by
      rw [List.length_append, List.length_append, List.length_singleton]
      omega)]
    simp only [List.append_assoc]
    rfl

theorem bind_assoc' {α β γ : Type} (x : Except Failure α) (f : α → Except Failure β)
    (g : β → Except Failure γ) : (x.bind f).bind g = x.bind fun a => (f a).bind g := by
  cases x <;> rfl

theorem buildParams_cons {isFirst : Bool} (p : List UInt8 × List UInt8) (mem : List UInt8)
    (hf : (if isFirst then .ok mem else copyChar max mem charAmp) = .ok t)
    (h : t.length + (paramText p).length ≤ max) :
    buildParams max isFirst (p :: params) mem = buildParams max false params (t ++ paramText p) := by
  have hp := congrArg (fun x => x.bind (buildParams max false params)) (buildParam_ok p t h)
  rw [buildParams, hf, ok_bind]
  simp only [bind_assoc', ok_bind] at hp
  exact hp

theorem buildParams_ok (params : List (List UInt8 × List UInt8)) :
    ∀ mem : List UInt8, mem.length + (paramsText params).length ≤ max →
      buildParams max false params mem = .ok (mem ++ paramsText params) := by
  induction params with
  | nil => exact fun mem _ => congrArg Except.ok (List.append_nil mem).symm
  | cons p params ih =>
    intro mem h
    rw [paramsText_cons, List.length_cons, List.length_append] at h
    have hamp : (if false = true then .ok mem else copyChar max mem charAmp) =
        Except.ok (mem ++ [charAmp]) := copyChar_ok (by omega) _
    have hlen : (mem ++ [charAmp]).length = mem.length + 1 := by simp
    rw [buildParams_cons p mem hamp (by omega), ih _ (by
      rw [List.length_append, hlen]
      omega), paramsText_cons]
    simp only [List.append_assoc]
    rfl

theorem buildQuery_ok (h : mem.length + (queryText params).length ≤ max) :
    buildQuery max params mem = .ok (mem ++ queryText params) := by
  rw [buildQuery]
  rcases params with _ | ⟨p, params⟩
  · rw [if_pos rfl, queryText, List.append_nil]
  · rw [queryText, List.length_cons, List.length_append] at h
    have hlen : (mem ++ [charQuestion]).length = mem.length + 1 := by simp
    rw [if_neg (List.cons_ne_nil _ _), copyChar_ok (by omega), ok_bind,
      buildParams_cons p _ rfl (by omega), buildParams_ok _ _ (by
        rw [List.length_append, hlen]
        omega), queryText]
    simp only [List.append_assoc]
    rfl

/-! ## The computed size -/

theorem length_delimited_le {delimiter : List UInt8} : (delimited delimiter part l).length ≤
    if l = [] then 0 else encodedSize part l + delimiter.length := by
  rw [delimited]
  split_ifs
  · exact le_rfl
  · rw [List.length_append, length_encodeBytes, Nat.add_comm]

theorem length_schemeText (scheme : List UInt8) :
    (schemeText scheme).length = if scheme = [] then 0 else scheme.length + 1 := by
  rw [schemeText]
  split_ifs
  · rfl
  · rw [List.length_append, List.length_map]
    rfl

theorem length_paramText_le (p : List UInt8 × List UInt8) : (paramText p).length ≤
    encodedSize .QUERY p.1 + encodedSize .QUERY p.2 + 1 := by
  rw [paramText, List.length_append, length_encodeBytes]
  split_ifs
  · exact (Nat.le_add_right _ _).trans (Nat.le_succ _)
  · rw [List.length_cons, length_encodeBytes, Nat.add_assoc]

theorem length_paramsText_le (params : List (List UInt8 × List UInt8)) :
    (paramsText params).length ≤ 2 * params.length +
      (params.map fun p => encodedSize .QUERY p.1 + encodedSize .QUERY p.2).sum := by
  induction params with
  | nil => exact le_rfl
  | cons p params ih =>
    have hp := length_paramText_le p
    rw [paramsText_cons, List.map_cons, List.sum_cons]
    simp only [List.length_cons, List.length_append]
    omega

theorem length_queryText_le (params : List (List UInt8 × List UInt8)) :
    (queryText params).length ≤ 2 * params.length +
      (params.map fun p => encodedSize .QUERY p.1 + encodedSize .QUERY p.2).sum := by
  rcases params with _ | ⟨p, params⟩
  · exact le_rfl
  · have h := length_paramsText_le (p :: params)
    rw [paramsText_cons] at h
    exact h

/-! ## What is built -/

theorem mem_encodeByte {x : UInt8} (h : x ∈ encodeByte part c) :
    part = .QUERY ∧ x = charPlus ∨ x = charPercent ∨ (∃ d : Fin 16, x = hexdigit d) ∨
      x = c ∧ isPercentEncoded part c = false := by
  have hc := c.toNat_lt
  rw [encodeByte] at h
  split_ifs at h with hq hp
  · exact Or.inl ⟨hq.1, List.mem_singleton.mp h⟩
  · simp only [List.mem_cons, List.not_mem_nil, or_false] at h
    rcases h with rfl | rfl | rfl
    · exact Or.inr (Or.inl rfl)
    · exact Or.inr (Or.inr (Or.inl ⟨⟨c.toNat / 16, by omega⟩, rfl⟩))
    · exact Or.inr (Or.inr (Or.inl ⟨⟨c.toNat % 16, by omega⟩, rfl⟩))
  · exact Or.inr (Or.inr (Or.inr ⟨List.mem_singleton.mp h, Bool.eq_false_iff.mpr hp⟩))

theorem not_mem_encodeByte {x : UInt8} (hne : x ≠ charPercent) (hdigit : ∀ d : Fin 16, x ≠ hexdigit d)
    (hplus : part = .QUERY → x ≠ charPlus) (hx : x = c → isPercentEncoded part c = true) :
    x ∉ encodeByte part c := by
  intro h
  rcases mem_encodeByte h with ⟨hq, h⟩ | h | ⟨d, h⟩ | ⟨h, hp⟩
  · exact hplus hq h
  · exact hne h
  · exact hdigit d h
  · exact absurd (hx h) (by rw [hp]; exact Bool.false_ne_true)

theorem keepsPath_encodeByte : KeepsPath (encodeByte .PATH) where
  slash := by decide
  dot := by decide
  ne_nil c h := by
    have hlen := length_encodeByte .PATH c
    rw [h, List.length_nil] at hlen
    omega
  not_slash _ hc := not_mem_encodeByte (by decide) (by decide) nofun fun h => absurd h.symm hc
  not_dot _ hc := not_mem_encodeByte (by decide) (by decide) nofun fun h => absurd h.symm hc

theorem encodeBytes_normalizePath (path : List UInt8) :
    normalizePath (encodeBytes .PATH path) =
      (encodeBytes .PATH (normalizePath path).1, (normalizePath path).2) :=
  keepsPath_encodeByte.normalizePath path

/-- The parts of the string that is built. -/
structure Parts where
  scheme : List UInt8
  authority : List UInt8
  path : List UInt8
  params : List (List UInt8 × List UInt8)
  fragment : List UInt8

namespace Parts

/-- The text in front of the path. -/
def start (p : Parts) : List UInt8 :=
  schemeText p.scheme ++ delimited [charSlash, charSlash] .AUTHORITY p.authority

/-- The text behind the path. -/
def rest (p : Parts) : List UInt8 :=
  queryText p.params ++ delimited [charHash] .FRAGMENT p.fragment

/-- The string without its closing 0 byte. -/
def text (p : Parts) : List UInt8 :=
  p.start ++ (encodeBytes .PATH (normalizePath p.path).1 ++ p.rest)

/-- The URI that is built. -/
def encoded (p : Parts) : UriT :=
  { mem := p.text ++ [0]
    authority := (schemeText p.scheme).length
    path := p.start.length
    query := p.start.length + (encodeBytes .PATH (normalizePath p.path).1).length
    fragment := p.start.length + (encodeBytes .PATH (normalizePath p.path).1).length +
      (queryText p.params).length
    stop := p.text.length
    prefixlen := (normalizePath p.path).2
    nrparam := p.params.length
    param := [] }

/-- The size that is computed. -/
def size (p : Parts) : ℕ := buildSize p.scheme p.authority p.path p.params p.fragment

end Parts

theorem length_encodeBytes_normalizePath_le (path : List UInt8) :
    (encodeBytes .PATH (normalizePath path).1).length ≤ (encodeBytes .PATH path).length := by
  have h := length_normalizeLoop_le (encodeBytes .PATH path).length true [] 0 (encodeBytes .PATH path)
  have heq := congrArg (fun r => r.1.length) (encodeBytes_normalizePath path)
  dsimp only at heq
  rw [List.length_nil, Nat.zero_add] at h
  exact heq ▸ h

theorem normalizePath_prefixlen_le (path : List UInt8) :
    (normalizePath path).2 ≤ (normalizePath path).1.length := by
  have h := normalizePath_normalized path
  generalize (normalizePath path).1 = out at *
  generalize (normalizePath path).2 = n at *
  cases h with
  | dir h => exact h.prefixpos_le
  | up _ _ =>
    rw [List.length_append]
    exact le_rfl
  | file h _ =>
    rw [List.length_append]
    exact h.prefixpos_le.trans (Nat.le_add_right _ _)

theorem Parts.length_le_size (p : Parts) :
    p.start.length + (encodeBytes .PATH p.path).length + p.rest.length + 1 ≤ p.size := by
  have h1 := length_schemeText p.scheme
  have h2 : (delimited [charSlash, charSlash] .AUTHORITY p.authority).length ≤
      if p.authority = [] then 0 else encodedSize .AUTHORITY p.authority + 2 := length_delimited_le
  have h3 := length_queryText_le p.params
  have h4 : (delimited [charHash] .FRAGMENT p.fragment).length ≤
      if p.fragment = [] then 0 else encodedSize .FRAGMENT p.fragment + 1 := length_delimited_le
  have h5 : (encodeBytes .PATH p.path).length = if p.path = [] then 0 else encodedSize .PATH p.path := by
    split_ifs with h
    · rw [h]
      rfl
    · exact length_encodeBytes _ _
  rw [Parts.start, Parts.rest, Parts.size, buildSize, List.length_append, List.length_append]
  omega

theorem delimited_nil (part : UriPart) (l : List UInt8) : delimited [] part l = encodeBytes part l := by
  rw [delimited]
  split_ifs with h
  · rw [h]
    rfl
  · rfl

theorem normalizeMem_append (mem path : List UInt8) :
    normalizeMem (mem ++ path) mem.length =
      (mem ++ (normalizePath path).1, (normalizePath path).2) := by
  rw [normalizeMem, List.drop_left, List.take_left]

theorem buildUri_ok (p : Parts) {max : ℕ} (hmax : p.size = max) (hsize : max ≤ 2 ^ 16 - 1) :
    buildUri max p.scheme p.authority p.path p.params p.fragment = .ok p.encoded := by
  have hle := p.length_le_size
  have hpath := length_encodeBytes_normalizePath_le p.path
  have hpre := normalizePath_prefixlen_le p.path
  have hkeep := keepsPath_encodeByte.length_le (normalizePath p.path).1
  change _ ≤ (encodeBytes .PATH (normalizePath p.path).1).length at hkeep
  rw [hmax, Parts.rest, List.length_append] at hle
  have hstart : p.start.length = (schemeText p.scheme).length +
      (delimited [charSlash, charSlash] .AUTHORITY p.authority).length := List.length_append
  rw [buildUri, buildScheme_ok (by omega), ok_bind, buildDelimited_ok (by omega), ok_bind,
    ← Parts.start, buildDelimited_ok (by rw [delimited_nil]; omega), ok_bind, delimited_nil,
    normalizeMem_append, encodeBytes_normalizePath]
  dsimp only
  rw [buildQuery_ok (by rw [List.length_append]; omega), ok_bind, buildDelimited_ok (by
    rw [List.length_append, List.length_append]
    omega), ok_bind]
  have htext : p.start ++ encodeBytes .PATH (normalizePath p.path).1 ++ queryText p.params ++
      delimited [charHash] .FRAGMENT p.fragment = p.text := by
    rw [Parts.text, Parts.rest]
    simp only [List.append_assoc]
  have hlen := congrArg List.length htext
  simp only [List.length_append] at hlen
  rw [htext, copyChar_ok (by omega)]
  simp only [List.length_append]
  rw [Nat.mod_eq_of_lt (by omega), Nat.mod_eq_of_lt (by omega), Nat.mod_eq_of_lt (by omega),
    Nat.mod_eq_of_lt (by omega), Nat.mod_eq_of_lt (by omega), Nat.mod_eq_of_lt (by omega)]
  rfl

/-- The parts can be built. -/
structure Parts.Buildable (p : Parts) : Prop where
  scheme : ∀ c ∈ p.scheme, isLetter c = true
  path : p.authority = [] ∨ p.path = [] ∨ p.path.head? = some charSlash
  size : p.size ≤ 2 ^ 16 - 1

/-- The parts that are given. -/
def Parts.ofOptions (pScheme pAuthority pPath : Option (List UInt8))
    (params : List (List UInt8 × List UInt8)) (pFragment : Option (List UInt8)) : Parts :=
  ⟨pScheme.getD [], pAuthority.getD [], pPath.getD [], params, pFragment.getD []⟩

theorem initbuildUriencoded_eq (pScheme pAuthority pPath : Option (List UInt8))
    (params : List (List UInt8 × List UInt8)) (pFragment : Option (List UInt8)) :
    (∃ err, initbuildUriencoded pScheme pAuthority pPath params pFragment = .error (.errno err) ∧
      ¬(Parts.ofOptions pScheme pAuthority pPath params pFragment).Buildable) ∨
    initbuildUriencoded pScheme pAuthority pPath params pFragment =
      .ok (Parts.ofOptions pScheme pAuthority pPath params pFragment).encoded ∧
      (Parts.ofOptions pScheme pAuthority pPath params pFragment).Buildable := by
  rw [initbuildUriencoded]
  split_ifs with hscheme hpath hsize
  · refine Or.inl ⟨_, rfl, fun h => ?_⟩
    obtain ⟨c, hc, hl⟩ := List.any_eq_true.mp hscheme
    have hyes : isLetter c = true := h.scheme c hc
    rw [hyes] at hl
    exact absurd hl Bool.false_ne_true
  · exact Or.inl ⟨_, rfl, fun h => h.path.elim hpath.1 fun h => h.elim hpath.2.1 hpath.2.2⟩
  · exact Or.inl ⟨_, rfl, fun h => absurd h.size (not_le.mpr hsize)⟩
  · have hle := not_lt.mp hsize
    refine Or.inr ⟨buildUri_ok (Parts.ofOptions pScheme pAuthority pPath params pFragment) rfl hle, ?_, ?_, hle⟩
    · intro c hc
      by_contra hl
      exact hscheme (List.any_eq_true.mpr ⟨c, hc, by simpa using hl⟩)
    · by_contra h
      rw [not_or, not_or] at h
      exact hpath h

/-! ## The text is read again -/

/-- The scan of `w` goes on behind it, and counts its percent signs and characters `&`. -/
def Skips (stop need : UInt8 → Bool) (w : List UInt8) : Prop :=
  ∀ t, (scanPart stop need (w ++ t)).size = w.length + (scanPart stop need t).size ∧
    (scanPart stop need (w ++ t)).nrPercent = w.count charPercent + (scanPart stop need t).nrPercent ∧
    (scanPart stop need (w ++ t)).nrAmp = w.count charAmp + (scanPart stop need t).nrAmp

variable {stop need : UInt8 → Bool} {w v : List UInt8}

theorem skips_nil : Skips stop need [] := fun t => by simp

theorem Skips.append (hw : Skips stop need w) (hv : Skips stop need v) : Skips stop need (w ++ v) := by
  intro t
  obtain ⟨h1, h2, h3⟩ := hw (v ++ t)
  obtain ⟨k1, k2, k3⟩ := hv t
  rw [List.append_assoc, h1, h2, h3, k1, k2, k3, List.length_append, List.count_append,
    List.count_append]
  omega

theorem skips_singleton (need : UInt8 → Bool) (h : stop c = false) (hc : c ≠ charPercent) : Skips stop need [c] := by
  intro t
  rw [List.singleton_append, scanPart_plain h hc, List.count_singleton, List.count_singleton,
    beq_false_of_ne hc]
  refine ⟨Nat.add_comm _ _, (Nat.zero_add _).symm, ?_⟩
  cases h : c == charAmp <;> simp [Nat.add_comm]

theorem hexdigit_spec (d : ℕ) (h : d < 16) : hexdigit d ≠ charPercent ∧ hexdigit d ≠ charAmp := by
  have hall : ∀ n : Fin 16, hexdigit n ≠ charPercent ∧ hexdigit n ≠ charAmp := by decide
  exact hall ⟨d, h⟩

theorem skips_triple (h : stop charPercent = false) {a b : ℕ} (ha : a < 16) (hb : b < 16) :
    Skips stop need [charPercent, hexdigit a, hexdigit b] := by
  intro t
  obtain ⟨ha1, ha2⟩ := hexdigit_spec a ha
  obtain ⟨hb1, hb2⟩ := hexdigit_spec b hb
  have hp : charPercent ≠ charAmp := by decide
  have h1 : [charPercent, hexdigit a, hexdigit b].count charPercent = 1 := by
    rw [List.count_cons_self, List.count_cons_of_ne ha1, List.count_cons_of_ne hb1, List.count_nil]
  have h2 : [charPercent, hexdigit a, hexdigit b].count charAmp = 0 := by
    rw [List.count_cons_of_ne hp, List.count_cons_of_ne ha2, List.count_cons_of_ne hb2, List.count_nil]
  rw [h1, h2, List.cons_append, List.cons_append, List.cons_append, List.nil_append, scanPart_pair h]
  exact ⟨Nat.add_comm _ _, Nat.add_comm _ _, (Nat.zero_add _).symm⟩

/-- The characters that end a part are encoded in it. -/
structure Encodes (part : UriPart) (stop : UInt8 → Bool) : Prop where
  percent : isPercentEncoded part charPercent = true
  delimiter : ∀ c, stop c = true → isPercentEncoded part c = true
  percent_stop : stop charPercent = false
  plus_stop : stop charPlus = false

theorem toNat_div_lt (c : UInt8) : c.toNat / 16 < 16 := by
  have h := c.toNat_lt
  omega

theorem Encodes.skips_encodeByte (he : Encodes part stop) (c : UInt8) :
    Skips stop need (encodeByte part c) := by
  rw [encodeByte]
  split_ifs with hq hp
  · exact skips_singleton need he.plus_stop (by decide)
  · exact skips_triple he.percent_stop (toNat_div_lt c) (Nat.mod_lt _ (by decide))
  · refine skips_singleton need (Bool.eq_false_iff.mpr fun h => hp (he.delimiter c h)) ?_
    rintro rfl
    exact hp he.percent

theorem Encodes.skips (he : Encodes part stop) (need : UInt8 → Bool) (l : List UInt8) :
    Skips stop need (encodeBytes part l) := by
  induction l with
  | nil => exact skips_nil
  | cons c cs ih => exact (he.skips_encodeByte c).append ih

theorem Encodes.length_encodeBytes (he : Encodes part stop) (l : List UInt8) :
    (encodeBytes part l).length = l.length + 2 * (encodeBytes part l).count charPercent := by
  induction l with
  | nil => rfl
  | cons c cs ih =>
    have hc : (encodeByte part c).length = 1 + 2 * (encodeByte part c).count charPercent := by
      rw [encodeByte]
      split_ifs with hq hp
      · rfl
      · obtain ⟨ha, -⟩ := hexdigit_spec _ (toNat_div_lt c)
        obtain ⟨hb, -⟩ := hexdigit_spec (c.toNat % 16) (Nat.mod_lt _ (by decide))
        rw [List.count_cons_self, List.count_cons_of_ne ha, List.count_cons_of_ne hb]
        rfl
      · have hne : c ≠ charPercent := by
          rintro rfl
          exact hp he.percent
        rw [List.count_singleton, beq_false_of_ne hne]
        rfl
    rw [encodeBytes] at *
    rw [List.flatMap_cons, List.length_append, List.count_append, hc, ih, List.length_cons]
    omega

theorem encodes_authority : Encodes .AUTHORITY endsAuthority where
  percent := rfl
  delimiter c h := by
    simp only [endsAuthority, Bool.or_eq_true] at h
    simp only [isPercentEncoded, Bool.or_eq_true]
    tauto
  percent_stop := rfl
  plus_stop := rfl

theorem encodes_path : Encodes .PATH endsPath where
  percent := rfl
  delimiter c h := by
    simp only [endsPath, Bool.or_eq_true] at h
    simp only [isPercentEncoded, Bool.or_eq_true]
    tauto
  percent_stop := rfl
  plus_stop := rfl

theorem encodes_query : Encodes .QUERY endsQuery where
  percent := rfl
  delimiter c h := by
    rw [endsQuery] at h
    simp only [isPercentEncoded, h, Bool.or_true, Bool.true_or]
  percent_stop := rfl
  plus_stop := rfl

theorem encodes_fragment : Encodes .FRAGMENT (fun _ => false) :=
  ⟨by decide, nofun, rfl, rfl⟩

/-! ## Decoding the text of a part -/

theorem hexvalue_hexdigit : ∀ d : Fin 16, hexvalue (hexdigit d).toNat = d := by decide

theorem hexpair_hexdigit (c : UInt8) :
    hexpair (hexdigit (c.toNat / 16)) (hexdigit (c.toNat % 16)) = some c := by
  have hc := c.toNat_lt
  have h1 : hexvalue (hexdigit (c.toNat / 16)).toNat = c.toNat / 16 :=
    hexvalue_hexdigit ⟨c.toNat / 16, by omega⟩
  have h2 : hexvalue (hexdigit (c.toNat % 16)).toNat = c.toNat % 16 :=
    hexvalue_hexdigit ⟨c.toNat % 16, by omega⟩
  have hlow : c.toNat % 16 < 2 ^ 4 := by omega
  have hor : c.toNat / 16 * 16 ||| c.toNat % 16 = c.toNat := by
    rw [Nat.mul_comm, ← Nat.two_pow_add_eq_or_of_lt hlow]
    omega
  have hishex : (ishex (c.toNat / 16) && ishex (c.toNat % 16)) = true := by
    rw [ishex, ishex, Bool.and_eq_true, decide_eq_true_eq, decide_eq_true_eq]
    omega
  rw [hexpair, h1, h2, if_pos hishex, hor, UInt8.ofNat_toNat]

theorem Encodes.decodeLoop_ok (he : Encodes part stop) (hq : part ≠ .QUERY) (l : List UInt8) :
    ∀ mem : List UInt8, mem.length + l.length ≤ max →
      decodeLoop max (encodeBytes part l) mem = .ok (mem ++ l) := by
  induction l with
  | nil => exact fun mem _ => congrArg Except.ok (List.append_nil mem).symm
  | cons c cs ih =>
    intro mem h
    rw [List.length_cons] at h
    have hmem : (mem ++ [c]).length = mem.length + 1 := by simp
    have hnext := ih (mem ++ [c]) (by omega)
    rw [List.append_assoc, List.singleton_append] at hnext
    rw [encodeBytes, List.flatMap_cons, encodeByte, if_neg fun h => hq h.1, ← encodeBytes]
    split_ifs with hp
    · rw [List.cons_append, decodeLoop, copyChar_ok (by omega), ok_bind, if_pos rfl,
        List.dropLast_concat]
      dsimp only
      rw [List.cons_append, List.cons_append, List.nil_append]
      dsimp only
      rw [hexpair_hexdigit]
      dsimp only
      rw [copyChar_ok (by omega), ok_bind]
      exact hnext
    · have hne : c ≠ charPercent := by
        rintro rfl
        exact hp he.percent
      rw [List.singleton_append, decodeLoop, copyChar_ok (by omega), ok_bind, if_neg hne]
      exact hnext

theorem decodeQueryLoop_encodeBytes (l t : List UInt8) :
    ∀ q : QueryState, q.mem.length + l.length ≤ max →
      decodeQueryLoop max (encodeBytes .QUERY l ++ t) q =
        decodeQueryLoop max t { q with mem := q.mem ++ l } := by
  induction l with
  | nil =>
    intro q _
    rw [List.append_nil]
    rfl
  | cons c cs ih =>
    intro q h
    rw [List.length_cons] at h
    have hmem : (q.mem ++ [c]).length = q.mem.length + 1 := by simp
    have hnext := ih { q with mem := q.mem ++ [c] } (by dsimp only; omega)
    dsimp only at hnext
    rw [List.append_assoc, List.singleton_append] at hnext
    rw [encodeBytes, List.flatMap_cons, encodeByte, ← encodeBytes]
    split_ifs with hsp hp
    · have hplus : charPlus ≠ charPercent := by decide
      rw [List.append_assoc, List.singleton_append, decodeQueryLoop, copyChar_ok (by omega), ok_bind,
        if_neg hplus, if_pos rfl, List.dropLast_concat, ← hsp.2]
      exact hnext
    · rw [List.append_assoc, List.cons_append, decodeQueryLoop, copyChar_ok (by omega), ok_bind,
        if_pos rfl, List.dropLast_concat]
      dsimp only
      rw [List.cons_append, List.cons_append, List.nil_append]
      dsimp only
      rw [hexpair_hexdigit]
      dsimp only
      rw [copyChar_ok (by omega), ok_bind]
      exact hnext
    · have hne : ∀ d, isPercentEncoded .QUERY d = true → c ≠ d := by
        rintro d hd rfl
        exact hp hd
      rw [List.append_assoc, List.singleton_append, decodeQueryLoop, copyChar_ok (by omega), ok_bind,
        if_neg (hne _ (by decide)), if_neg (hne _ (by decide)), if_neg (hne _ (by decide)),
        if_neg fun h => hne charEqual (by decide) h.1]
      exact hnext

/-! ## Decoding the parameters -/

/-- The value of a parameter that has none yet, and the next name. -/
def endParam (q : QueryState) : Except Failure (List Param) :=
  (if q.isParamValue then .ok q.param else setValueoff q.param q.iparam q.mem.length).bind
    fun param => setNameoff param (q.iparam + 1) q.mem.length

theorem decodeQueryLoop_amp {q : QueryState} {param : List Param} (h : q.mem.length < max)
    (he : endParam q = .ok param) (t : List UInt8) : decodeQueryLoop max (charAmp :: t) q =
      decodeQueryLoop max t ⟨q.mem, param, q.iparam + 1, false⟩ := by
  have h1 : charAmp ≠ charPercent := by decide
  have h2 : charAmp ≠ charPlus := by decide
  have hbind := congrArg (fun x => x.bind fun param =>
    decodeQueryLoop max t ⟨q.mem, param, q.iparam + 1, false⟩) he
  rw [endParam] at hbind
  simp only [bind_assoc', ok_bind] at hbind
  rw [decodeQueryLoop, copyChar_ok h, ok_bind, if_neg h1, if_neg h2, if_pos rfl,
    List.dropLast_concat]
  exact hbind

theorem setValueoff_append (done : List Param) (p : Param) (tail : List Param) {off : ℕ}
    (h : off < 2 ^ 16) : setValueoff (done ++ p :: tail) done.length off =
      .ok (done ++ ⟨p.nameoff, off⟩ :: tail) := by
  rw [setValueoff, List.getElem?_append_right le_rfl, Nat.sub_self]
  dsimp only [List.getElem?_cons_zero]
  rw [List.set_append_right _ _ le_rfl, Nat.sub_self, List.set_cons_zero, Nat.mod_eq_of_lt h]

theorem setNameoff_append (done : List Param) (p : Param) (tail : List Param) {off : ℕ}
    (h : off < 2 ^ 16) : setNameoff (done ++ p :: tail) done.length off =
      .ok (done ++ ⟨off, p.valueoff⟩ :: tail) := by
  rw [setNameoff, List.getElem?_append_right le_rfl, Nat.sub_self]
  dsimp only [List.getElem?_cons_zero]
  rw [List.set_append_right _ _ le_rfl, Nat.sub_self, List.set_cons_zero, Nat.mod_eq_of_lt h]

theorem setNameoff_next (done : List Param) (p next : Param) (tail : List Param) {off : ℕ}
    (h : off < 2 ^ 16) : setNameoff (done ++ p :: next :: tail) (done.length + 1) off =
      .ok (done ++ p :: ⟨off, next.valueoff⟩ :: tail) := by
  have hset := setNameoff_append (done ++ [p]) next tail h
  rw [List.length_append, List.length_singleton, List.append_assoc, List.append_assoc] at hset
  exact hset

theorem decodeQueryLoop_param (p : List UInt8 × List UInt8) (t mem : List UInt8)
    (done tail : List Param) (hroom : mem.length + p.1.length + p.2.length < max) (hmax : max ≤ 2 ^ 16) :
    ∃ q, decodeQueryLoop max (paramText p ++ t)
        ⟨mem, done ++ ⟨mem.length, 0⟩ :: ⟨0, 0⟩ :: tail, done.length, false⟩ =
          decodeQueryLoop max t q ∧
      q.mem = mem ++ (p.1 ++ p.2) ∧ q.iparam = done.length ∧
      endParam q = .ok (done ++ ⟨mem.length, mem.length + p.1.length⟩ ::
        ⟨mem.length + p.1.length + p.2.length, 0⟩ :: tail) := by
  obtain ⟨name, value⟩ := p
  dsimp only at hroom
  have hlen : (mem ++ name).length = mem.length + name.length := List.length_append
  rw [paramText]
  dsimp only
  by_cases hv : value = []
  · subst hv
    refine ⟨⟨mem ++ name, done ++ ⟨mem.length, 0⟩ :: ⟨0, 0⟩ :: tail, done.length, false⟩, ?_, ?_, rfl, ?_⟩
    · rw [if_pos rfl, List.append_nil, decodeQueryLoop_encodeBytes _ _ _ (by dsimp only; omega)]
    · rw [List.append_nil]
    · rw [endParam]
      dsimp only
      rw [if_neg Bool.false_ne_true, setValueoff_append _ _ _ (by omega), ok_bind,
        setNameoff_next _ _ _ _ (by omega), hlen]
      rfl
  · have h1 : charEqual ≠ charPercent := by decide
    have h2 : charEqual ≠ charPlus := by decide
    have h3 : charEqual ≠ charAmp := by decide
    have hlen' : (mem ++ name ++ value).length = mem.length + name.length + value.length := by
      rw [List.length_append, hlen]
    refine ⟨⟨mem ++ name ++ value, done ++ ⟨mem.length, mem.length + name.length⟩ :: ⟨0, 0⟩ :: tail,
      done.length, true⟩, ?_, List.append_assoc _ _ _, rfl, ?_⟩
    · rw [if_neg hv, List.append_assoc, decodeQueryLoop_encodeBytes _ _ _ (by dsimp only; omega),
        List.cons_append, decodeQueryLoop]
      dsimp only
      rw [copyChar_ok (by omega), ok_bind, if_neg h1, if_neg h2, if_neg h3, if_pos ⟨rfl, rfl⟩,
        List.dropLast_concat, setValueoff_append _ _ _ (by omega), ok_bind,
        decodeQueryLoop_encodeBytes _ _ _ (by dsimp only; omega), hlen]
    · rw [endParam]
      dsimp only
      rw [if_pos rfl, ok_bind, setNameoff_next _ _ _ _ (by omega), hlen']

/-- The decoded names and values. -/
def paramBytes (params : List (List UInt8 × List UInt8)) : List UInt8 :=
  params.flatMap fun p => p.1 ++ p.2

/-- The entries of the array `param`, and the end behind the last one. -/
def paramOffsets : ℕ → List (List UInt8 × List UInt8) → List Param
  | base, [] => [⟨base, 0⟩]
  | base, p :: params =>
    ⟨base, base + p.1.length⟩ :: paramOffsets (base + p.1.length + p.2.length) params

theorem decodeQueryLoop_params (hmax : max ≤ 2 ^ 16) (params : List (List UInt8 × List UInt8)) :
    ∀ (p : List UInt8 × List UInt8) (mem : List UInt8) (done : List Param),
      mem.length + (paramBytes (p :: params)).length < max →
      ∃ q, decodeQueryLoop max (paramText p ++ paramsText params)
          ⟨mem, done ++ ⟨mem.length, 0⟩ :: List.replicate (params.length + 1) ⟨0, 0⟩,
            done.length, false⟩ = .ok q ∧
        q.mem = mem ++ paramBytes (p :: params) ∧ q.iparam = done.length + params.length ∧
        endParam q = .ok (done ++ paramOffsets mem.length (p :: params)) := by
  induction params with
  | nil =>
    intro p mem done h
    rw [paramBytes, List.flatMap_cons, List.flatMap_nil, List.append_nil, List.length_append] at h
    obtain ⟨q, hq, hm, hi, he⟩ := decodeQueryLoop_param p [] mem done [] (by omega) hmax
    refine ⟨q, hq, ?_, hi, he⟩
    rw [hm, paramBytes, List.flatMap_cons, List.flatMap_nil, List.append_nil]
  | cons p' params ih =>
    intro p mem done h
    have hbytes : paramBytes (p :: p' :: params) = p.1 ++ p.2 ++ paramBytes (p' :: params) := rfl
    rw [hbytes, List.length_append, List.length_append] at h
    obtain ⟨q, hq, hm, hi, he⟩ := decodeQueryLoop_param p (paramsText (p' :: params)) mem done
      (List.replicate (params.length + 1) ⟨0, 0⟩) (by omega) hmax
    have hlen : q.mem.length = mem.length + p.1.length + p.2.length := by
      rw [hm, List.length_append, List.length_append, Nat.add_assoc]
    obtain ⟨q', hq', hm', hi', he'⟩ := ih p' q.mem (done ++ [⟨mem.length, mem.length + p.1.length⟩])
      (by omega)
    refine ⟨q', ?_, ?_, ?_, ?_⟩
    · rw [List.length_cons, List.replicate_succ, hq, paramsText_cons,
        decodeQueryLoop_amp (by omega) he, hi, ← hq']
      rw [List.length_append, List.length_singleton, List.append_assoc, hlen]
      rfl
    · rw [hm', hm, hbytes, List.append_assoc]
    · rw [hi', List.length_append, List.length_singleton, List.length_cons]
      omega
    · rw [he', hlen, List.append_assoc]
      rfl

theorem decodeQuery_queryText (max : ℕ) (mem : List UInt8) (params : List (List UInt8 × List UInt8))
    (hmax : max ≤ 2 ^ 16)
    (h : mem.length + (paramBytes params).length < max) :
    ∃ param, decodeQuery max params.length ((queryText params).drop 1) mem =
      .ok (mem ++ paramBytes params, param) ∧ param = paramOffsets mem.length params := by
  rw [decodeQuery]
  rcases params with _ | ⟨p, params⟩
  · have hset := setNameoff_append [] ⟨0, 0⟩ [] (by omega : mem.length < 2 ^ 16)
    rw [List.length_nil, List.nil_append, List.nil_append] at hset
    rw [List.length_nil, List.replicate_succ, List.replicate_zero, hset, ok_bind]
    refine ⟨_, ?_, rfl⟩
    rw [queryText, List.drop_nil, decodeQueryLoop, ok_bind, if_pos rfl, paramBytes,
      List.flatMap_nil, List.append_nil]
    rfl
  · have hset := setNameoff_append [] ⟨0, 0⟩ (List.replicate (params.length + 1) ⟨0, 0⟩)
      (by omega : mem.length < 2 ^ 16)
    obtain ⟨q, hq, hm, hi, he⟩ := decodeQueryLoop_params hmax params p mem [] h
    rw [List.length_nil, Nat.zero_add] at hi
    rw [List.nil_append] at he
    have hbind := congrArg (fun x => x.bind fun param =>
      if q.iparam + 1 = params.length + 1 then .ok (q.mem, param) else .error .undefined) he
    rw [endParam] at hbind
    simp only [bind_assoc', ok_bind] at hbind
    rw [if_pos (congrArg (· + 1) hi)] at hbind
    rw [List.length_nil, List.nil_append] at hset
    rw [List.length_cons, List.replicate_succ, hset, ok_bind, queryText, List.drop_one,
      List.tail_cons]
    refine ⟨_, ?_, rfl⟩
    rw [List.nil_append, List.length_nil] at hq
    rw [List.nil_append, hq, ok_bind, if_neg (Nat.succ_ne_zero _), ← hm]
    exact hbind

/-! ## The parts of the text -/

/-- A text that follows a part: it is empty or starts with a delimiter. -/
def Follows (stop : UInt8 → Bool) (t : List UInt8) : Prop :=
  t = [] ∨ ∃ c cs, t = c :: cs ∧ stop c = true

theorem Follows.scanPart (h : Follows stop t) : scanPart stop need t = ⟨0, 0, 0, 0⟩ := by
  rcases h with rfl | ⟨c, cs, rfl, hc⟩
  · rfl
  · exact scanPart_stop hc cs

theorem Skips.scanPart_eq (hw : Skips stop need w) (ht : Follows stop t) :
    ∃ n, CKern.Uri.scanPart stop need (w ++ t) = ⟨w.length, w.count charPercent, n, w.count charAmp⟩ := by
  obtain ⟨h1, h2, h3⟩ := hw t
  rw [ht.scanPart] at h1 h2 h3
  generalize CKern.Uri.scanPart stop need (w ++ t) = r at *
  obtain ⟨a, b, n, d⟩ := r
  exact ⟨n, by rw [← show a = w.length from h1, ← show b = w.count charPercent from h2,
    ← show d = w.count charAmp from h3]⟩

theorem follows_append (hw : Follows stop w) (hv : Follows stop v) : Follows stop (w ++ v) := by
  rcases hw with rfl | ⟨c, cs, rfl, hc⟩
  · exact hv
  · exact Or.inr ⟨c, cs ++ v, rfl, hc⟩

theorem follows_delimited (d : UInt8) (ds : List UInt8) (part : UriPart) (l : List UInt8)
    (h : stop d = true) :
    Follows stop (delimited (d :: ds) part l) := by
  rw [delimited]
  split_ifs
  · exact Or.inl rfl
  · exact Or.inr ⟨d, _, rfl, h⟩

theorem follows_queryText (h : stop charQuestion = true) : Follows stop (queryText params) := by
  rcases params with _ | ⟨p, params⟩
  · exact Or.inl rfl
  · exact Or.inr ⟨charQuestion, _, rfl, h⟩

theorem skips_delimited (he : Encodes part stop) (need : UInt8 → Bool) (delimiter l : List UInt8)
    (hd : ∀ d ∈ delimiter, stop d = false ∧ d ≠ charPercent) :
    Skips stop need (delimited delimiter part l) := by
  rw [delimited]
  split_ifs
  · exact skips_nil
  · refine Skips.append ?_ (he.skips need l)
    induction delimiter with
    | nil => exact skips_nil
    | cons d ds ih =>
      have h := hd d List.mem_cons_self
      exact (skips_singleton need h.1 h.2).append
        (ih fun e he => hd e (List.mem_cons_of_mem _ he))

theorem skips_paramText (p : List UInt8 × List UInt8) : Skips endsQuery need (paramText p) := by
  rw [paramText]
  refine (encodes_query.skips need p.1).append ?_
  split_ifs
  · exact skips_nil
  · exact (skips_singleton need (c := charEqual) rfl (by decide)).append (encodes_query.skips need p.2)

theorem skips_paramsText (params : List (List UInt8 × List UInt8)) :
    Skips endsQuery need (paramsText params) := by
  induction params with
  | nil => exact skips_nil
  | cons p params ih =>
    rw [paramsText_cons]
    exact (skips_singleton need (c := charAmp) rfl (by decide)).append ((skips_paramText p).append ih)

theorem skips_queryText (need : UInt8 → Bool) (params : List (List UInt8 × List UInt8)) :
    Skips endsQuery need (queryText params) := by
  rcases params with _ | ⟨p, params⟩
  · exact skips_nil
  · exact (skips_singleton need (c := charQuestion) rfl (by decide)).append
      ((skips_paramText p).append (skips_paramsText params))

theorem count_amp_encodeBytes (l : List UInt8) : (encodeBytes .QUERY l).count charAmp = 0 := by
  have hall : ∀ c : UInt8, (encodeByte .QUERY c).count charAmp = 0 := fun c =>
    List.count_eq_zero.mpr (not_mem_encodeByte (by decide) (by decide) (fun _ => by decide)
      fun h => h ▸ rfl)
  rw [encodeBytes, List.count_flatMap]
  induction l with
  | nil => rfl
  | cons c cs ih =>
    rw [List.map_cons, List.sum_cons, ih]
    exact hall c

theorem count_amp_paramText (p : List UInt8 × List UInt8) : (paramText p).count charAmp = 0 := by
  rw [paramText, List.count_append, count_amp_encodeBytes]
  split_ifs
  · rfl
  · have hne : charEqual ≠ charAmp := by decide
    rw [List.count_cons_of_ne hne, count_amp_encodeBytes]

theorem count_amp_paramsText (params : List (List UInt8 × List UInt8)) :
    (paramsText params).count charAmp = params.length := by
  induction params with
  | nil => rfl
  | cons p params ih =>
    rw [paramsText_cons, List.count_cons_self, List.count_append, count_amp_paramText, ih,
      List.length_cons, Nat.zero_add]

theorem count_amp_queryText (params : List (List UInt8 × List UInt8)) :
    (queryText params).count charAmp + (if (queryText params).length > 0 then 1 else 0) =
      params.length := by
  rcases params with _ | ⟨p, params⟩
  · rfl
  · have hne : charQuestion ≠ charAmp := by decide
    have hpos : (queryText (p :: params)).length > 0 := Nat.succ_pos _
    rw [if_pos hpos, queryText, List.count_cons_of_ne hne, List.count_append,
      count_amp_paramText, count_amp_paramsText, Nat.zero_add, List.length_cons]

theorem hasScheme_append (hw : charColon ∉ w)
    (ht : Follows (fun c => !isLetter c && c != charColon) t) : hasScheme (w ++ t) = false := by
  induction w with
  | nil =>
    rcases ht with rfl | ⟨c, cs, rfl, hc⟩
    · rfl
    · rw [Bool.and_eq_true, Bool.not_eq_true', bne_iff_ne] at hc
      have hne : (some c == some charColon) = false := beq_false_of_ne fun h => hc.2 (Option.some.inj h)
      rw [List.nil_append, hasScheme, List.takeWhile_cons_of_neg (by simp [hc.1])]
      exact hne
  | cons c cs ih =>
    have hc : c ≠ charColon := fun h => hw (h ▸ List.mem_cons_self)
    have htail := ih fun h => hw (List.mem_cons_of_mem _ h)
    rw [hasScheme] at htail ⊢
    rw [List.cons_append]
    by_cases hl : isLetter c = true
    · rw [List.takeWhile_cons_of_pos hl, List.length_cons, List.getElem?_cons_succ]
      exact htail
    · rw [List.takeWhile_cons_of_neg hl]
      exact beq_false_of_ne fun h => hc (Option.some.inj h)

theorem hasSlashes_append (hw : hasSlashes w = false) (ht : Follows (fun c => c != charSlash) t) :
    hasSlashes (w ++ t) = false := by
  rw [← Bool.not_eq_true, hasSlashes_iff] at hw ⊢
  rintro ⟨l, h⟩
  have hslash : ∀ cs, t ≠ charSlash :: cs := by
    rintro cs rfl
    rcases ht with h0 | ⟨c, _, h0, hc⟩
    · exact absurd h0 (List.cons_ne_nil _ _)
    · rw [← (List.cons.inj h0).1] at hc
      exact absurd hc (by decide)
  rcases w with _ | ⟨a, _ | ⟨b, w⟩⟩
  · exact hslash _ h
  · exact hslash _ (List.cons.inj h).2
  · rw [List.cons_append, List.cons_append, List.cons.injEq, List.cons.injEq] at h
    exact hw ⟨w, by rw [h.1, h.2.1]⟩

theorem lower_lower (c : UInt8) : c ||| 0x20 ||| 0x20 = c ||| 0x20 := by
  rw [UInt8.or_assoc, UInt8.or_self]

theorem isLetter_lower (c : UInt8) (h : isLetter c = true) : isLetter (c ||| 0x20) = true := by
  rw [isLetter] at h ⊢
  rwa [lower_lower]

theorem colon_not_mem_encodeBytes (l : List UInt8) : charColon ∉ encodeBytes .PATH l := by
  have hall : ∀ c : UInt8, charColon ∉ encodeByte .PATH c := fun c =>
    not_mem_encodeByte (by decide) (by decide) nofun fun h => h ▸ rfl
  rw [encodeBytes, List.mem_flatMap]
  rintro ⟨c, -, hc⟩
  exact hall c hc

namespace Parts

variable {p : Parts}

theorem follows_rest (h : stop charQuestion = true) (h' : stop charHash = true) :
    Follows stop p.rest :=
  follows_append (follows_queryText h) (follows_delimited _ _ _ _ h')

theorem normalized_path (p : Parts) :
    Normalized (encodeBytes .PATH (normalizePath p.path).1) (normalizePath p.path).2 := by
  have h := normalizePath_normalized (encodeBytes .PATH p.path)
  rw [encodeBytes_normalizePath] at h
  exact h

theorem normalizePath_eq_nil_or (h : p.path = [] ∨ p.path.head? = some charSlash) :
    (normalizePath p.path).1 = [] ∨ ∃ l, (normalizePath p.path).1 = charSlash :: l := by
  rcases h with h | h
  · rw [h]
    exact Or.inl rfl
  · obtain ⟨l, hl⟩ : ∃ l, p.path = charSlash :: l := by
      rcases hp : p.path with _ | ⟨c, cs⟩
      · rw [hp] at h
        exact absurd h nofun
      · rw [hp, List.head?_cons] at h
        exact ⟨cs, by rw [Option.some.inj h]⟩
    rw [hl]
    exact Or.inr (normalizePath_cons_slash l).2

theorem Buildable.follows_path (hb : p.Buildable) (ha : p.authority ≠ []) :
    Follows endsAuthority (encodeBytes .PATH (normalizePath p.path).1 ++ p.rest) := by
  refine follows_append ?_ (follows_rest rfl rfl)
  rcases normalizePath_eq_nil_or (hb.path.resolve_left ha) with h | ⟨l, h⟩
  · rw [h]
    exact Or.inl rfl
  · rw [h]
    exact Or.inr ⟨charSlash, encodeBytes .PATH l, rfl, rfl⟩

theorem hasSlashes_drop_scheme (p : Parts) :
    hasSlashes (p.text.drop (schemeText p.scheme).length) = decide (p.authority ≠ []) := by
  rw [text, start, List.append_assoc, List.drop_left, delimited]
  by_cases ha : p.authority = []
  · rw [if_pos ha, List.nil_append, hasSlashes_append p.normalized_path.not_slashes
      (follows_rest rfl rfl)]
    exact (decide_eq_false (not_not.mpr ha)).symm
  · rw [if_neg ha, decide_eq_true ha]
    rfl

theorem schemeEnd_text (hb : p.Buildable) : schemeEnd p.text = (schemeText p.scheme).length := by
  rw [schemeEnd, text, start, schemeText]
  by_cases hs : p.scheme = []
  · rw [if_pos hs, List.nil_append, List.length_nil]
    refine if_neg (Bool.eq_false_iff.mp ?_)
    rw [delimited]
    split_ifs with ha
    · rw [List.nil_append]
      exact hasScheme_append (colon_not_mem_encodeBytes _) (follows_rest rfl rfl)
    · have h := hasScheme_append (w := []) (t := [charSlash, charSlash] ++
        encodeBytes .AUTHORITY p.authority ++ (encodeBytes .PATH (normalizePath p.path).1 ++ p.rest))
        List.not_mem_nil (Or.inr ⟨charSlash, _, rfl, rfl⟩)
      exact h
  · rw [if_neg hs]
    generalize encodeBytes .PATH (normalizePath p.path).1 ++ p.rest = t
    generalize delimited _ _ _ = a
    have hall : ∀ c ∈ p.scheme.map (· ||| 0x20), isLetter c = true := by
      intro c hc
      obtain ⟨d, hd, rfl⟩ := List.mem_map.mp hc
      exact isLetter_lower d (hb.scheme d hd)
    have htext : p.scheme.map (· ||| 0x20) ++ [charColon] ++ a ++ t =
        p.scheme.map (· ||| 0x20) ++ charColon :: (a ++ t) := by simp
    have htake : (p.scheme.map (· ||| 0x20) ++ charColon :: (a ++ t)).takeWhile isLetter =
        p.scheme.map (· ||| 0x20) := by
      rw [List.takeWhile_append_of_pos hall, List.takeWhile_cons_of_neg (by decide), List.append_nil]
    rw [htext, hasScheme, htake, List.getElem?_append_right le_rfl, Nat.sub_self,
      List.getElem?_cons_zero, List.length_append]
    exact if_pos (beq_self_eq_true _)

theorem drop_start (p : Parts) :
    p.text.drop p.start.length = encodeBytes .PATH (normalizePath p.path).1 ++ p.rest := by
  rw [text, List.drop_left]

theorem drop_path (p : Parts) :
    p.text.drop (p.start.length + (encodeBytes .PATH (normalizePath p.path).1).length) =
      queryText p.params ++ delimited [charHash] .FRAGMENT p.fragment := by
  rw [← List.drop_drop, drop_start, List.drop_left, rest]

theorem drop_query (p : Parts) :
    p.text.drop (p.start.length + (encodeBytes .PATH (normalizePath p.path).1).length +
      (queryText p.params).length) = delimited [charHash] .FRAGMENT p.fragment := by
  rw [← List.drop_drop, drop_path, List.drop_left]

theorem parseOffsets_text (hb : p.Buildable) : ∃ nrNeed, parseOffsets p.text =
    { authority := (schemeText p.scheme).length
      path := p.start.length
      query := p.start.length + (encodeBytes .PATH (normalizePath p.path).1).length
      fragment := p.start.length + (encodeBytes .PATH (normalizePath p.path).1).length +
        (queryText p.params).length
      stop := p.text.length
      nrparam := p.params.length
      nrPercentEncoded := (delimited [charSlash, charSlash] .AUTHORITY p.authority).count charPercent +
        (encodeBytes .PATH (normalizePath p.path).1).count charPercent +
        (queryText p.params).count charPercent +
        (delimited [charHash] .FRAGMENT p.fragment).count charPercent
      nrNeedEncoding := nrNeed } := by
  -- the authority ends where the path starts
  have hauth : ∃ r : Scan, parseOffsets p.text =
      offsetsAt p.text (schemeText p.scheme).length p.start.length r ∧ r.nrPercent =
        (delimited [charSlash, charSlash] .AUTHORITY p.authority).count charPercent := by
    rw [parseOffsets_eq, schemeEnd_text hb, hasSlashes_drop_scheme]
    by_cases ha : p.authority = []
    · have hstart : p.start.length = (schemeText p.scheme).length := by
        rw [start, delimited, if_pos ha, List.append_nil]
      rw [if_neg (by simpa using ha), hstart, delimited, if_pos ha]
      exact ⟨_, rfl, rfl⟩
    · obtain ⟨n, hscan⟩ := (encodes_authority.skips isUnprintable p.authority).scanPart_eq
        (hb.follows_path ha)
      have htext : p.text.drop ((schemeText p.scheme).length + 2) = encodeBytes .AUTHORITY p.authority ++
          (encodeBytes .PATH (normalizePath p.path).1 ++ p.rest) := by
        rw [text, start, List.append_assoc, ← List.drop_drop, List.drop_left, delimited, if_neg ha]
        rfl
      have hstart : p.start.length =
          (schemeText p.scheme).length + 2 + (encodeBytes .AUTHORITY p.authority).length := by
        rw [start, delimited, if_neg ha, List.length_append, List.length_append, ← Nat.add_assoc]
        rfl
      rw [if_pos (by simpa using ha), authorityScan, htext, hscan, hstart, delimited, if_neg ha]
      exact ⟨_, rfl, rfl⟩
  obtain ⟨r, hr, hcount⟩ := hauth
  obtain ⟨n1, h1⟩ := (encodes_path.skips isUnprintable (normalizePath p.path).1).scanPart_eq
    (follows_rest (p := p) rfl rfl)
  obtain ⟨n2, h2⟩ := (skips_queryText needQuery p.params).scanPart_eq
    (follows_delimited charHash [] .FRAGMENT p.fragment rfl)
  have hhash : ∀ d ∈ [charHash], (false : Bool) = false ∧ d ≠ charPercent := by
    intro d hd
    rw [List.mem_singleton.mp hd]
    exact ⟨rfl, by decide⟩
  obtain ⟨n3, h3⟩ := (skips_delimited encodes_fragment isUnprintable [charHash] p.fragment
    hhash).scanPart_eq (Or.inl rfl : Follows (fun _ => false) [])
  rw [List.append_nil] at h3
  refine ⟨r.nrNeed + n1 + n2 + n3, hr.trans ?_⟩
  rw [offsetsAt]
  simp only [drop_start, h1, drop_path, h2, drop_query, h3, hcount]
  have hnr := count_amp_queryText p.params
  have hgt : (p.start.length + (encodeBytes .PATH (normalizePath p.path).1).length +
      (queryText p.params).length >
      p.start.length + (encodeBytes .PATH (normalizePath p.path).1).length) ↔
      (queryText p.params).length > 0 := by omega
  simp only [hgt, hnr]

end Parts

/-! ## The parts are decoded -/

theorem segment_add (str : List UInt8) (start k stop : ℕ) :
    segment str (start + k) stop = (segment str start stop).drop k := by
  rw [segment, segment, List.drop_drop]

theorem drop_delimited (delimiter : List UInt8) (part : UriPart) (l : List UInt8) :
    (delimited delimiter part l).drop delimiter.length = encodeBytes part l := by
  rw [delimited]
  split_ifs with h
  · rw [List.drop_nil, h]
    rfl
  · exact List.drop_left

theorem length_delimited_ge (he : Encodes part stop) (delimiter : List UInt8)
    (hd : delimiter.count charPercent = 0) (l : List UInt8) :
    l.length + 2 * (delimited delimiter part l).count charPercent ≤
      (delimited delimiter part l).length := by
  rw [delimited]
  split_ifs with h
  · rw [h]
    exact le_rfl
  · rw [List.count_append, List.length_append, he.length_encodeBytes, hd]
    omega

theorem length_paramText_ge (p : List UInt8 × List UInt8) :
    p.1.length + p.2.length + 2 * (paramText p).count charPercent ≤ (paramText p).length := by
  rw [paramText, List.count_append, List.length_append, encodes_query.length_encodeBytes]
  split_ifs with h
  · rw [h]
    simp
  · have hne : charEqual ≠ charPercent := by decide
    rw [List.count_cons_of_ne hne, List.length_cons, encodes_query.length_encodeBytes p.2]
    omega

theorem length_paramsText_ge (params : List (List UInt8 × List UInt8)) :
    (paramBytes params).length + 2 * (paramsText params).count charPercent ≤
      (paramsText params).length := by
  induction params with
  | nil => exact le_rfl
  | cons p params ih =>
    have hne : charAmp ≠ charPercent := by decide
    have hp := length_paramText_ge p
    have hbytes : paramBytes (p :: params) = p.1 ++ p.2 ++ paramBytes params := rfl
    rw [paramsText_cons, hbytes, List.count_cons_of_ne hne, List.count_append]
    simp only [List.length_cons, List.length_append]
    omega

theorem length_queryText_ge (params : List (List UInt8 × List UInt8)) :
    (paramBytes params).length + 2 * (queryText params).count charPercent ≤
      (queryText params).length := by
  rcases params with _ | ⟨p, params⟩
  · exact le_rfl
  · have h := length_paramsText_ge (p :: params)
    have h1 : charAmp ≠ charPercent := by decide
    have h2 : charQuestion ≠ charPercent := by decide
    rw [paramsText_cons, List.count_cons_of_ne h1] at h
    rw [queryText, List.count_cons_of_ne h2]
    exact h

namespace Parts

variable {p : Parts}

/-- The scheme in lower case. -/
def lower (p : Parts) : List UInt8 := p.scheme.map (· ||| 0x20)

/-- The URI that is decoded. -/
def decoded (p : Parts) : UriT :=
  { mem := p.lower ++ p.authority ++ (normalizePath p.path).1 ++ paramBytes p.params ++ p.fragment ++ [0]
    authority := p.lower.length
    path := p.lower.length + p.authority.length
    query := p.lower.length + p.authority.length + (normalizePath p.path).1.length
    fragment := p.lower.length + p.authority.length + (normalizePath p.path).1.length +
      (paramBytes p.params).length
    stop := p.lower.length + p.authority.length + (normalizePath p.path).1.length +
      (paramBytes p.params).length + p.fragment.length
    prefixlen := (normalizePath p.path).2
    nrparam := p.params.length
    param := paramOffsets (p.lower.length + p.authority.length + (normalizePath p.path).1.length) p.params }

theorem map_lower_schemeText (p : Parts) :
    (schemeText p.scheme).map (· ||| 0x20) = schemeText p.scheme := by
  have hcolon : charColon ||| 0x20 = charColon := by decide
  rw [schemeText]
  split_ifs
  · rfl
  · rw [List.map_append, List.map_map, List.map_singleton, hcolon]
    exact congrArg (· ++ [charColon]) (List.map_congr_left fun c _ => lower_lower c)

theorem dropLast_schemeText (p : Parts) : (schemeText p.scheme).dropLast = p.lower := by
  rw [schemeText, lower]
  split_ifs with h
  · rw [h]
    rfl
  · exact List.dropLast_concat

theorem segment_scheme (p : Parts) :
    segment p.text 0 (schemeText p.scheme).length = schemeText p.scheme := by
  rw [segment, List.drop_zero, text, start, List.append_assoc, List.take_left]

theorem segment_authority (p : Parts) : segment p.text (schemeText p.scheme).length p.start.length =
    delimited [charSlash, charSlash] .AUTHORITY p.authority := by
  rw [segment, text, List.take_left, start, List.drop_left]

theorem segment_path (p : Parts) : segment p.text p.start.length
    (p.start.length + (encodeBytes .PATH (normalizePath p.path).1).length) =
      encodeBytes .PATH (normalizePath p.path).1 := by
  rw [segment_eq, drop_start, List.take_left]

theorem segment_query (p : Parts) : segment p.text
    (p.start.length + (encodeBytes .PATH (normalizePath p.path).1).length)
    (p.start.length + (encodeBytes .PATH (normalizePath p.path).1).length +
      (queryText p.params).length) = queryText p.params := by
  rw [segment_eq, drop_path, List.take_left]

theorem segment_fragment (p : Parts) : segment p.text
    (p.start.length + (encodeBytes .PATH (normalizePath p.path).1).length +
      (queryText p.params).length) p.text.length = delimited [charHash] .FRAGMENT p.fragment := by
  rw [segment, List.take_length, drop_query]

theorem length_text (p : Parts) : p.text.length = (schemeText p.scheme).length +
    (delimited [charSlash, charSlash] .AUTHORITY p.authority).length +
    (encodeBytes .PATH (normalizePath p.path).1).length + (queryText p.params).length +
    (delimited [charHash] .FRAGMENT p.fragment).length := by
  simp only [text, start, rest, List.length_append]
  omega

/-- **The text is decoded** to the parts and parameters it was built from. -/
theorem initUridecoded_encoded (hb : p.Buildable) : initUridecoded p.encoded = .ok p.decoded := by
  obtain ⟨nrNeed, hoff⟩ := parseOffsets_text hb
  have hstr : strUriencoded p.encoded = p.text := List.take_left
  have hfits := p.length_le_size
  have hnorm := length_encodeBytes_normalizePath_le p.path
  have hsize := hb.size
  have htext := p.length_text
  have hscheme : p.lower.length ≤ (schemeText p.scheme).length := by
    rw [← dropLast_schemeText, List.length_dropLast]
    exact Nat.sub_le _ _
  have h1 := length_delimited_ge encodes_authority [charSlash, charSlash] rfl p.authority
  have h2 := encodes_path.length_encodeBytes (normalizePath p.path).1
  have h3 := length_queryText_ge p.params
  have h4 := length_delimited_ge encodes_fragment [charHash] rfl p.fragment
  have hpre := normalizePath_prefixlen_le p.path
  have hstart : p.start.length = (schemeText p.scheme).length +
      (delimited [charSlash, charSlash] .AUTHORITY p.authority).length := List.length_append
  have hrest : p.rest.length = (queryText p.params).length +
      (delimited [charHash] .FRAGMENT p.fragment).length := List.length_append
  rw [initUridecoded, hstr, parseUri.eq_def]
  dsimp only
  generalize hmax : uriSizeMax .DECODED p.text = max
  rw [uriSizeMax, hoff] at hmax
  dsimp only at hmax
  rw [if_neg (by omega), hoff, parseDecoded]
  dsimp only
  rw [segment_scheme, copyScheme_ok _ _ (by rw [List.length_nil]; omega), ok_bind, List.nil_append,
    map_lower_schemeText, dropLast_schemeText, segment_add, segment_authority]
  have hauth := drop_delimited [charSlash, charSlash] .AUTHORITY p.authority
  have hfrag := drop_delimited [charHash] .FRAGMENT p.fragment
  rw [List.length_cons, List.length_singleton] at hauth
  rw [List.length_singleton] at hfrag
  rw [hauth, encodes_authority.decodeLoop_ok (by decide) _ _ (by omega), ok_bind, segment_path,
    encodes_path.decodeLoop_ok (by decide) _ _ (by rw [List.length_append]; omega), ok_bind,
    normalizeMem_append, normalizePath_idem]
  dsimp only
  obtain ⟨param, hquery, rfl⟩ := decodeQuery_queryText max
    (p.lower ++ p.authority ++ (normalizePath p.path).1) p.params (by omega) (by
      simp only [List.length_append]
      omega)
  rw [segment_add, segment_query, hquery, ok_bind]
  dsimp only
  rw [segment_add, segment_fragment, hfrag, encodes_fragment.decodeLoop_ok (by decide) _ _ (by
    simp only [List.length_append]
    omega), ok_bind, copyChar_ok (by
    simp only [List.length_append]
    omega)]
  simp only [List.length_append]
  rw [Nat.mod_eq_of_lt (by omega), Nat.mod_eq_of_lt (by omega), Nat.mod_eq_of_lt (by omega),
    Nat.mod_eq_of_lt (by omega), Nat.mod_eq_of_lt (by omega), Nat.mod_eq_of_lt (by omega)]
  rfl

end Parts

/-! ## Parts and parameters of the decoded URI -/

theorem bytesAt_append (x y z : List UInt8) (h : x.length + y.length < 2 ^ 16) :
    bytesAt (x ++ (y ++ z)) x.length (x.length + y.length) = y := by
  have hlen : (x.length + y.length + (2 ^ 16 - x.length)) % 2 ^ 16 = y.length := by omega
  rw [bytesAt, hlen, List.drop_left, List.take_left]

theorem paramBytes_append (a b : List (List UInt8 × List UInt8)) :
    paramBytes (a ++ b) = paramBytes a ++ paramBytes b := List.flatMap_append

theorem getD_paramOffsets (params : List (List UInt8 × List UInt8)) :
    ∀ (base i : ℕ) (p : List UInt8 × List UInt8), params[i]? = some p →
      (paramOffsets base params).getD i ⟨0, 0⟩ = ⟨base + (paramBytes (params.take i)).length,
        base + (paramBytes (params.take i)).length + p.1.length⟩ := by
  induction params with
  | nil => exact fun _ _ _ h => absurd h nofun
  | cons q params ih =>
    intro base i p h
    cases i with
    | zero =>
      rw [List.getElem?_cons_zero, Option.some.injEq] at h
      rw [h]
      rfl
    | succ i =>
      rw [List.getElem?_cons_succ] at h
      have hbytes : paramBytes ((q :: params).take (i + 1)) = q.1 ++ q.2 ++ paramBytes (params.take i) := rfl
      rw [paramOffsets, List.getD_cons_succ, ih _ i p h, hbytes, List.length_append, List.length_append]
      simp only [Nat.add_assoc]

theorem nameoff_paramOffsets (params : List (List UInt8 × List UInt8)) :
    ∀ base i : ℕ, i ≤ params.length → ((paramOffsets base params).getD i ⟨0, 0⟩).nameoff =
      base + (paramBytes (params.take i)).length := by
  induction params with
  | nil =>
    intro base i h
    rw [Nat.le_zero.mp h]
    rfl
  | cons q params ih =>
    intro base i h
    cases i with
    | zero => rfl
    | succ i =>
      have hbytes : paramBytes ((q :: params).take (i + 1)) = q.1 ++ q.2 ++ paramBytes (params.take i) := rfl
      rw [paramOffsets, List.getD_cons_succ, ih _ i (Nat.le_of_succ_le_succ h), hbytes,
        List.length_append, List.length_append]
      simp only [Nat.add_assoc]

namespace Parts

variable {p : Parts}

theorem decoded_stop_lt (hb : p.Buildable) : p.decoded.stop < 2 ^ 16 := by
  have hfits := p.length_le_size
  have hnorm := length_encodeBytes_normalizePath_le p.path
  have hsize := hb.size
  have hscheme : p.lower.length ≤ (schemeText p.scheme).length := by
    rw [← dropLast_schemeText, List.length_dropLast]
    exact Nat.sub_le _ _
  have h1 := length_delimited_ge encodes_authority [charSlash, charSlash] rfl p.authority
  have h2 := encodes_path.length_encodeBytes (normalizePath p.path).1
  have h3 := length_queryText_ge p.params
  have h4 := length_delimited_ge encodes_fragment [charHash] rfl p.fragment
  have hstart : p.start.length = (schemeText p.scheme).length +
      (delimited [charSlash, charSlash] .AUTHORITY p.authority).length := List.length_append
  have hrest : p.rest.length = (queryText p.params).length +
      (delimited [charHash] .FRAGMENT p.fragment).length := List.length_append
  rw [decoded]
  dsimp only
  omega

theorem getpart_scheme (hb : p.Buildable) : getpart p.decoded .SCHEME = p.lower := by
  have hlt := decoded_stop_lt hb
  rw [decoded] at hlt ⊢
  dsimp only at hlt
  rw [getpart]
  simp only [List.append_assoc]
  have h := bytesAt_append [] p.lower (p.authority ++ ((normalizePath p.path).1 ++
    (paramBytes p.params ++ (p.fragment ++ [0])))) (by rw [List.length_nil]; omega)
  rw [List.length_nil, List.nil_append, Nat.zero_add] at h
  exact h

theorem getpart_authority (hb : p.Buildable) : getpart p.decoded .AUTHORITY = p.authority := by
  have hlt := decoded_stop_lt hb
  rw [decoded] at hlt ⊢
  dsimp only at hlt
  rw [getpart]
  simp only [List.append_assoc]
  exact bytesAt_append _ _ _ (by omega)

theorem getpart_path (hb : p.Buildable) : getpart p.decoded .PATH = (normalizePath p.path).1 := by
  have hlt := decoded_stop_lt hb
  rw [decoded] at hlt ⊢
  dsimp only at hlt
  have hpre : (p.lower ++ p.authority).length = p.lower.length + p.authority.length :=
    List.length_append
  have h := bytesAt_append (p.lower ++ p.authority) (normalizePath p.path).1
    (paramBytes p.params ++ (p.fragment ++ [0])) (by omega)
  rw [hpre] at h
  rw [getpart]
  simp only [List.append_assoc] at h ⊢
  exact h

theorem getpart_fragment (hb : p.Buildable) : getpart p.decoded .FRAGMENT = p.fragment := by
  have hlt := decoded_stop_lt hb
  rw [decoded] at hlt ⊢
  dsimp only at hlt
  have hpre : (p.lower ++ p.authority ++ (normalizePath p.path).1 ++ paramBytes p.params).length =
      p.lower.length + p.authority.length + (normalizePath p.path).1.length +
        (paramBytes p.params).length := by
    simp only [List.length_append]
  have h := bytesAt_append (p.lower ++ p.authority ++ (normalizePath p.path).1 ++ paramBytes p.params)
    p.fragment [0] (by omega)
  rw [hpre] at h
  rw [getpart]
  simp only [List.append_assoc] at h ⊢
  exact h

theorem getparam_decoded (hb : p.Buildable) {i : ℕ} (hi : i < p.params.length) :
    getparamUridecoded p.decoded i = p.params[i] := by
  have hlt := decoded_stop_lt hb
  have hget : p.params[i]? = some p.params[i] := List.getElem?_eq_getElem hi
  have hsplit : paramBytes p.params = paramBytes (p.params.take i) ++
      ((p.params[i].1 ++ p.params[i].2) ++ paramBytes (p.params.drop (i + 1))) := by
    conv_lhs => rw [← List.take_append_drop i p.params, List.drop_eq_getElem_cons hi]
    exact paramBytes_append _ _
  have htake : paramBytes (p.params.take (i + 1)) =
      paramBytes (p.params.take i) ++ (p.params[i].1 ++ p.params[i].2) := by
    rw [List.take_succ_eq_append_getElem hi, paramBytes_append]
    exact congrArg (_ ++ ·) (List.append_nil _)
  have hlen := congrArg List.length hsplit
  simp only [List.length_append] at hlen
  have hge : ¬i ≥ p.decoded.nrparam := not_le.mpr hi
  rw [getparamUridecoded, if_neg hge, decoded] at *
  dsimp only at hlt ⊢
  rw [getD_paramOffsets _ _ i _ hget, nameoff_paramOffsets _ _ (i + 1) hi, htake, List.length_append,
    List.length_append, hsplit]
  generalize p.params[i] = q at *
  generalize paramBytes (p.params.take i) = before at *
  generalize paramBytes (p.params.drop (i + 1)) = behind at *
  have hpre : (p.lower ++ p.authority ++ (normalizePath p.path).1 ++ before).length =
      p.lower.length + p.authority.length + (normalizePath p.path).1.length + before.length := by
    simp only [List.length_append]
  have hname := bytesAt_append (p.lower ++ p.authority ++ (normalizePath p.path).1 ++ before) q.1
    (q.2 ++ (behind ++ (p.fragment ++ [0]))) (by omega)
  have hpre' : (p.lower ++ p.authority ++ (normalizePath p.path).1 ++ before ++ q.1).length =
      p.lower.length + p.authority.length + (normalizePath p.path).1.length + before.length +
        q.1.length := by
    simp only [List.length_append]
  have hvalue := bytesAt_append (p.lower ++ p.authority ++ (normalizePath p.path).1 ++ before ++ q.1)
    q.2 (behind ++ (p.fragment ++ [0])) (by omega)
  rw [hpre] at hname
  rw [hpre'] at hvalue
  simp only [List.append_assoc, ← Nat.add_assoc] at hname hvalue ⊢
  rw [hname, hvalue]

theorem params_decoded (hb : p.Buildable) :
    (List.range p.decoded.nrparam).map (getparamUridecoded p.decoded) = p.params := by
  have hlen : p.decoded.nrparam = p.params.length := rfl
  refine List.ext_getElem (by rw [List.length_map, List.length_range, hlen]) fun i h1 h2 => ?_
  rw [List.getElem_map, List.getElem_range, getparam_decoded hb h2]

/-- The parts that are decoded, as they are built again. -/
def again (p : Parts) : Parts :=
  ⟨p.lower, p.authority, (normalizePath p.path).1, p.params, p.fragment⟩

theorem lower_eq_nil : p.lower = [] ↔ p.scheme = [] := List.map_eq_nil_iff

theorem schemeText_lower (p : Parts) : schemeText p.lower = schemeText p.scheme := by
  rw [schemeText, schemeText]
  simp only [lower_eq_nil]
  have hmap : p.lower.map (· ||| 0x20) = p.scheme.map (· ||| 0x20) := by
    rw [lower, List.map_map]
    exact List.map_congr_left fun c _ => lower_lower c
  rw [hmap]

theorem size_again_le (p : Parts) : p.again.size ≤ p.size := by
  have hpath := length_encodeBytes_normalizePath_le p.path
  rw [length_encodeBytes, length_encodeBytes] at hpath
  have hlen : p.lower.length = p.scheme.length := List.length_map _
  have h0 : encodedSize .PATH [] = 0 := rfl
  have hif : ∀ l, (if l = [] then 0 else encodedSize .PATH l) = encodedSize .PATH l := by
    intro l
    split_ifs with h
    · rw [h, h0]
    · rfl
  rw [size, size, buildSize, buildSize, again]
  simp only [lower_eq_nil, hlen, hif]
  omega

theorem again_buildable (hb : p.Buildable) : p.again.Buildable where
  scheme c hc := by
    obtain ⟨d, hd, rfl⟩ := List.mem_map.mp hc
    exact isLetter_lower d (hb.scheme d hd)
  path := by
    refine hb.path.imp_right fun h => ?_
    rcases normalizePath_eq_nil_or h with h | ⟨l, h⟩
    · exact Or.inl h
    · refine Or.inr ?_
      rw [again, h]
      rfl
  size := p.size_again_le.trans hb.size

theorem encoded_again (p : Parts) : p.again.encoded = p.encoded := by
  have hstart : p.again.start = p.start := by
    rw [start, start, again, schemeText_lower]
  have hscheme : schemeText p.again.scheme = schemeText p.scheme := p.schemeText_lower
  have hpath : normalizePath p.again.path = normalizePath p.path := normalizePath_idem p.path
  have htext : p.again.text = p.text := by
    rw [text, text, hstart, hpath]
    rfl
  rw [encoded, encoded, htext, hstart, hscheme, hpath]
  rfl

/-- **The decoded URI is encoded again** to the same. -/
theorem initUriencoded_decoded (hb : p.Buildable) : initUriencoded p.decoded = .ok p.encoded := by
  rw [initUriencoded, params_decoded hb, getpart_scheme hb, getpart_authority hb, getpart_path hb,
    getpart_fragment hb]
  have heq : ofOptions (some p.lower) (some p.authority) (some (normalizePath p.path).1) p.params
      (some p.fragment) = p.again := rfl
  rcases initbuildUriencoded_eq (some p.lower) (some p.authority) (some (normalizePath p.path).1)
    p.params (some p.fragment) with ⟨_, -, hno⟩ | ⟨h, -⟩
  · exact absurd (again_buildable hb) (heq ▸ hno)
  · rw [h, heq, encoded_again]

end Parts

/-- **Building and decoding are inverse.**  Whatever is given, no byte is written behind the computed
size, and a URI that is built is decoded to its parts, the scheme in lower case and the path
normalized, and to its parameters in their order, which are encoded to the same URI again. -/
theorem initbuildUriencoded_inverse (pScheme pAuthority pPath : Option (List UInt8))
    (params : List (List UInt8 × List UInt8)) (pFragment : Option (List UInt8)) :
    initbuildUriencoded pScheme pAuthority pPath params pFragment ≠ .error .undefined ∧
    ∀ uri, initbuildUriencoded pScheme pAuthority pPath params pFragment = .ok uri →
      uri.mem.length ≤ buildSize (pScheme.getD []) (pAuthority.getD []) (pPath.getD []) params
        (pFragment.getD []) ∧
      ∃ dec, initUridecoded uri = .ok dec ∧
        getpart dec .SCHEME = (pScheme.getD []).map (· ||| 0x20) ∧
        getpart dec .AUTHORITY = pAuthority.getD [] ∧
        getpart dec .PATH = (normalizePath (pPath.getD [])).1 ∧
        (List.range dec.nrparam).map (getparamUridecoded dec) = params ∧
        getpart dec .FRAGMENT = pFragment.getD [] ∧
        initUriencoded dec = .ok uri := by
  rcases initbuildUriencoded_eq pScheme pAuthority pPath params pFragment with ⟨err, h, -⟩ | ⟨h, hb⟩
  · rw [h]
    exact ⟨nofun, nofun⟩
  · rw [h]
    refine ⟨nofun, fun uri huri => ?_⟩
    obtain rfl := Except.ok.inj huri
    generalize hp : Parts.ofOptions pScheme pAuthority pPath params pFragment = p at *
    have hfits := p.length_le_size
    have hnorm := length_encodeBytes_normalizePath_le p.path
    have hlen : p.encoded.mem.length ≤ p.size := by
      rw [Parts.encoded, Parts.text]
      simp only [List.length_append, List.length_singleton]
      omega
    subst hp
    exact ⟨hlen, _, Parts.initUridecoded_encoded hb, Parts.getpart_scheme hb,
      Parts.getpart_authority hb, Parts.getpart_path hb, Parts.params_decoded hb,
      Parts.getpart_fragment hb, Parts.initUriencoded_decoded hb⟩

theorem initbuildUriencoded_inverse_blank : ∃ uri dec,
    initbuildUriencoded (some [72]) none (some [47, 37]) [([97], [32])] none = .ok uri ∧
      initUridecoded uri = .ok dec ∧ getpart dec .SCHEME = [104] ∧ getpart dec .PATH = [47, 37] ∧
        initUriencoded dec = .ok uri := by
  have hok : initbuildUriencoded (some [72]) none (some [47, 37]) [([97], [32])] none =
      .ok (Parts.mk [72] [] [47, 37] [([97], [32])] []).encoded := rfl
  obtain ⟨-, dec, hdec, hscheme, -, hpath, -, -, hback⟩ :=
    (initbuildUriencoded_inverse (some [72]) none (some [47, 37]) [([97], [32])] none).2 _ hok
  exact ⟨_, dec, hok, hdec, hscheme, hpath, hback⟩

end Uri
end CKern
