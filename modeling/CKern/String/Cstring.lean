import CKern.Memory.Memblock

/-!
# `string/cstring.c`: strings that end in a 0 byte

* `initCstring`, …, `clear`: the functions of the module.
* `Terminated`: what holds of a string after every call.
* `Denotes`: what an operation does to the string it is called for.
* `StepOk`: a call keeps its promise.
* `allCalls_iff`: all calls of a run keep their promises exactly if no call of `init_cstring`
  allocates memory that does not start with a 0 byte, and no copied string has `SIZE_MAX` bytes.
-/

namespace CKern

/-- `cstring_t`: `capacity` and `chars` are the size and the address of one block of memory. -/
structure Cstring where
  size : ℕ
  strmem : Memblock

namespace Cstring

/-! ## The code -/

/-- The error codes of the module. -/
inductive Errno
  | ENOMEM
  | EINVAL
  deriving DecidableEq, Repr

/-- `capacity_cstring`. -/
def capacity (cstr : Cstring) : ℕ := cstr.strmem.size

/-- `addr_cstring`, `str_cstring`. -/
def chars (cstr : Cstring) : ℕ := cstr.strmem.addr

/-- `cstring_INIT`. -/
def init : Cstring := ⟨0, Memblock.free⟩

/-- What a function returns, and the string after it. There is no result after a write beyond the
end of the memory. -/
abbrev Result := Option (Option Errno × Cstring)

/-- Writing bytes from the index `off` on. -/
def store (cstr : Cstring) (off : ℕ) (bs : List UInt8) : Option Cstring :=
  (cstr.strmem.store off bs).map fun strmem => { cstr with strmem := strmem }

/-- `init_cstring`. -/
def initCstring (mm : Mm) (cstr : Cstring) (capacity : ℕ) : Result :=
  if capacity ≠ 0 then
    match mm.resize capacity Memblock.free with
    | none => some (some .ENOMEM, cstr)
    | some strmem => some (none, ⟨0, strmem⟩)
  else some (none, ⟨0, Memblock.free⟩)

/-- `allocate_cstring`. -/
def allocate (mm : Mm) (cstr : Cstring) (capacity : ℕ) : Result :=
  if capacity > cstr.capacity then
    let new_size := 2 * cstr.capacity % 2 ^ 64
    let new_size := if new_size < capacity then capacity else new_size
    match mm.resize new_size cstr.strmem with
    | none => some (some .ENOMEM, cstr)
    | some strmem =>
      if cstr.chars = 0 then
        -- the memory is allocated for the first time
        (strmem.store 0 [0]).map fun strmem => (none, { cstr with strmem := strmem })
      else some (none, { cstr with strmem := strmem })
  else some (none, cstr)

/-- `EXPAND_cstring`. -/
def expand (mm : Mm) (cstr : Cstring) (append_size : ℕ) : Result :=
  let capacity := (cstr.size + 1 + append_size) % 2 ^ 64
  if capacity ≤ append_size then some (some .ENOMEM, cstr) else allocate mm cstr capacity

/-- The rest of a function after a call that may fail. -/
def andThen (r : Result) (rest : Cstring → Result) : Result :=
  r.bind fun x => match x with
    | (some err, cstr) => some (some err, cstr)
    | (none, cstr) => rest cstr

/-- `append_cstring`. -/
def append (mm : Mm) (cstr : Cstring) (str : List UInt8) : Result :=
  if str.length = 0 then some (none, cstr)
  else andThen (expand mm cstr str.length) fun cstr => do
    let cstr ← cstr.store cstr.size str
    let cstr := { cstr with size := cstr.size + str.length }
    let cstr ← cstr.store cstr.size [0]
    some (none, cstr)

/-- `initcopy_cstring`, which drops the error of `append_cstring`. -/
def initcopy (mm : Mm) (cstr : Cstring) (copiedfrom : List UInt8) : Result :=
  let size := copiedfrom.length
  andThen (initCstring mm cstr ((size + if 0 ≠ size then 1 else 0) % 2 ^ 64)) fun cstr => do
    let (_, cstr) ← append mm cstr copiedfrom
    some (none, cstr)

/-- `setsize_cstring`. -/
def setsize (cstr : Cstring) (new_size : ℕ) : Result :=
  if new_size ≥ cstr.capacity then
    if new_size = 0 ∧ cstr.capacity = 0 then some (none, cstr)
    else some (some .EINVAL, cstr)
  else do
    let cstr ← { cstr with size := new_size }.store new_size [0]
    some (none, cstr)

/-- `set_cstring`. -/
def set (mm : Mm) (cstr : Cstring) (str : List UInt8) : Result :=
  if str.length = 0 then do
    let (_, cstr) ← setsize cstr 0
    some (none, cstr)
  else if str.length = 2 ^ 64 - 1 then some (some .ENOMEM, cstr)
  else andThen (allocate mm cstr (str.length + 1)) fun cstr => do
    let cstr ← cstr.store 0 str
    let cstr := { cstr with size := str.length }
    let cstr ← cstr.store str.length [0]
    some (none, cstr)

/-- What `vsnprintf` makes of a format and its arguments: a text, whose length is an `int`, or an
error, after which some bytes may have been written. -/
inductive Output
  | text (s : List UInt8) (h : s.length < 2 ^ 31)
  | error (written : List UInt8)

/-- The bytes that `vsnprintf` writes into a buffer with `n` bytes. -/
def Output.bytes (output : Output) (n : ℕ) : List UInt8 :=
  match output, n with
  | .text _ _, 0 => []
  | .text s _, n + 1 => s.take n ++ [0]
  | .error written, n => written.take n

/-- The error exit of `printfappend_cstring`. -/
def printfError (cstr : Cstring) : Result :=
  if cstr.capacity ≠ 0 then (cstr.store cstr.size [0]).map (some .ENOMEM, ·)
  else some (some .ENOMEM, cstr)

/-- The loop of `printfappend_cstring`, run at most `n` times. -/
def printfLoop (mm : Mm) (output : Output) : ℕ → Cstring → Result
  | 0, _ => none
  | n + 1, cstr => do
    let free_size := cstr.capacity - cstr.size
    let cstr ← cstr.store cstr.size (output.bytes free_size)
    match output with
    | .error _ => printfError cstr
    | .text s _ =>
      if s.length < free_size then some (none, { cstr with size := cstr.size + s.length })
      else
        let (err, cstr) ← expand mm cstr s.length
        match err with
        | some _ => printfError cstr
        | none => printfLoop mm output n cstr

/-- `printfappend_cstring`. The loop ends in its second round (`printfLoop_add`). -/
def printfappend (mm : Mm) (cstr : Cstring) (output : Output) : Result :=
  printfLoop mm output 2 cstr

/-- `strlen`. -/
def strlen (bytes : List UInt8) : ℕ := (bytes.takeWhile (· ≠ 0)).length

/-- `adaptsize_cstring`. -/
def adaptsize (cstr : Cstring) : Result :=
  if cstr.capacity ≠ 0 then do
    let cstr ← cstr.store (cstr.capacity - 1) [0]
    some (none, { cstr with size := strlen cstr.strmem.bytes })
  else some (none, cstr)

/-- `clear_cstring`. -/
def clear (cstr : Cstring) : Result :=
  if cstr.size ≠ 0 then do
    let cstr ← { cstr with size := 0 }.store 0 [0]
    some (none, cstr)
  else some (none, cstr)

/-! ## What holds of a string -/

/-- The first `size` characters. -/
def str (cstr : Cstring) : List UInt8 := cstr.strmem.bytes.take cstr.size

/-- The memory ends behind the string. -/
structure Room (cstr : Cstring) : Prop where
  chars_pos : 0 < cstr.chars
  fits : cstr.chars + cstr.capacity ≤ 2 ^ 64
  size_lt : cstr.size < cstr.capacity

/-- The string has no memory, or room for a 0 byte. -/
def Loose (cstr : Cstring) : Prop := cstr = init ∨ Room cstr

/-- Either `chars` is 0 and `size` is 0, or the string ends in a 0 byte. -/
def Terminated (cstr : Cstring) : Prop :=
  cstr.chars = 0 ∧ cstr.size = 0 ∨
    cstr.size < cstr.capacity ∧ cstr.strmem.bytes[cstr.size]? = some 0

/-- What holds of a string between two calls. -/
structure Inv (cstr : Cstring) : Prop where
  loose : Loose cstr
  terminated : Terminated cstr

variable {mm : Mm} {c c' : Cstring}

theorem inv_init : Inv init := ⟨Or.inl rfl, Or.inl ⟨rfl, rfl⟩⟩

theorem Loose.size_le (h : Loose c) : c.size ≤ c.capacity := by
  rcases h with rfl | hroom
  · exact Nat.le_refl 0
  · exact hroom.size_lt.le

theorem Loose.room_of_lt (h : Loose c) {n : ℕ} (hn : n < c.capacity) : Room c := by
  rcases h with rfl | hroom
  · exact absurd hn (Nat.not_lt_zero n)
  · exact hroom

theorem Loose.valid (h : Loose c) : c.strmem.Valid := by
  rcases h with rfl | hroom
  · exact Or.inl rfl
  · exact Or.inr ⟨hroom.chars_pos, hroom.fits⟩

theorem Loose.written (h : Loose c) {off : ℕ} {bs : List UInt8} (hle : off + bs.length ≤ c.capacity) :
    Loose { c with strmem := c.strmem.written off bs } := by
  have hcap : (c.strmem.written off bs).size = c.capacity := Memblock.written_size hle
  rcases h with rfl | hroom
  · rw [show init.strmem = Memblock.free from rfl, Memblock.written_free hle]
    exact Or.inl rfl
  · refine Or.inr ⟨hroom.chars_pos, ?_, hroom.size_lt.trans_eq hcap.symm⟩
    exact (congrArg (c.chars + ·) hcap).trans_le hroom.fits

theorem Loose.size_add_one_lt (h : Loose c) : c.size + 1 < 2 ^ 64 := by
  rcases h with rfl | hroom
  · decide
  · have hpos := hroom.chars_pos
    have hfits := hroom.fits
    have hlt := hroom.size_lt
    omega

theorem Loose.length_str (h : Loose c) : c.str.length = c.size :=
  List.length_take_of_le h.size_le

theorem store_eq {off : ℕ} {bs : List UInt8} (h : off + bs.length ≤ c.capacity) :
    c.store off bs = some { c with strmem := c.strmem.written off bs } := by
  rw [store, Memblock.store_eq h]
  rfl

/-- **A 0 byte ends the string** with `n` characters. -/
theorem terminate {strmem : Memblock} {n : ℕ} (hpos : 0 < strmem.addr)
    (hfits : strmem.addr + strmem.size ≤ 2 ^ 64) (hn : n < strmem.size) :
    Inv ⟨n, strmem.written n [0]⟩ ∧
      str ⟨n, strmem.written n [0]⟩ = strmem.bytes.take n := by
  have hcap : capacity ⟨n, strmem.written n [0]⟩ = strmem.size := Memblock.written_size hn
  refine ⟨⟨Or.inr ⟨hpos, ?_, hn.trans_eq hcap.symm⟩, Or.inr ⟨hn.trans_eq hcap.symm, ?_⟩⟩, ?_⟩
  · exact (congrArg (strmem.addr + ·) hcap).trans_le hfits
  · exact Memblock.written_getElem?_cons hn.le
  · exact Memblock.written_take_of_le hn.le (Nat.le_refl n)

/-! ## Allocation -/

/-- What allocation leaves alone, and what is known after it. -/
structure Kept (c c' : Cstring) : Prop where
  loose : Loose c'
  size : c'.size = c.size
  str : c'.str = c.str
  terminated : Terminated c → Terminated c'
  bytes : c.strmem.bytes <+: c'.strmem.bytes

theorem kept_refl (h : Loose c) : Kept c c := ⟨h, rfl, rfl, id, List.prefix_rfl⟩

theorem kept_of_grown (h : Room c) {newsize : ℕ} {strmem : Memblock}
    (hg : Grown newsize c.strmem strmem) : Kept c { c with strmem := strmem } := by
  have hle : c.capacity ≤ strmem.size := hg.keeps.length_le
  have hlt := h.size_lt
  refine ⟨Or.inr ⟨hg.addr_pos, hg.fits, hlt.trans_le hle⟩, rfl, hg.take hlt.le, ?_, hg.keeps⟩
  rintro (⟨hchars, -⟩ | ⟨-, hzero⟩)
  · exact absurd hchars h.chars_pos.ne'
  · exact Or.inr ⟨hlt.trans_le hle, (hg.getElem? hlt).trans hzero⟩

theorem kept_of_first {newsize : ℕ} {strmem : Memblock} (hg : Grown newsize Memblock.free strmem)
    (hpos : 0 < newsize) : Kept init ⟨0, strmem.written 0 [0]⟩ := by
  obtain ⟨hinv, hstr⟩ := terminate hg.addr_pos hg.fits (hpos.trans_le hg.size_le)
  exact ⟨hinv.loose, rfl, hstr, fun _ => hinv.terminated, List.nil_prefix⟩

theorem allocate_spec (mm : Mm) (h : Loose c) (n : ℕ) :
    ∃ err c', allocate mm c n = some (err, c') ∧ Kept c c' ∧ (err = none → n ≤ c'.capacity) := by
  rw [allocate]
  split
  case isFalse hle =>
    exact ⟨none, c, rfl, kept_refl h, fun _ => not_lt.mp hle⟩
  case isTrue hgt =>
    dsimp only
    have hnew : n ≤ if 2 * c.capacity % 2 ^ 64 < n then n else 2 * c.capacity % 2 ^ 64 := by
      split
      case isTrue => exact Nat.le_refl n
      case isFalse hge => exact not_lt.mp hge
    generalize (if 2 * c.capacity % 2 ^ 64 < n then n else 2 * c.capacity % 2 ^ 64) = new_size at hnew
    cases hres : mm.resize new_size c.strmem with
    | none => exact ⟨some .ENOMEM, c, rfl, kept_refl h, fun herr => by cases herr⟩
    | some strmem =>
      have hg : Grown new_size c.strmem strmem := mm.grown (hgt.le.trans hnew) hres
      have hpos : 0 < new_size := (Nat.zero_lt_of_lt hgt).trans_le hnew
      dsimp only
      rcases h with rfl | hroom
      · have hstore : strmem.store 0 [0] = some (strmem.written 0 [0]) :=
          Memblock.store_eq (hpos.trans_le hg.size_le)
        rw [if_pos (show init.chars = 0 from rfl), hstore]
        refine ⟨none, _, rfl, kept_of_first hg hpos, fun _ => ?_⟩
        exact (hnew.trans hg.size_le).trans_eq
          (Memblock.written_size (hpos.trans_le hg.size_le)).symm
      · rw [if_neg hroom.chars_pos.ne']
        exact ⟨none, _, rfl, kept_of_grown hroom hg, fun _ => hnew.trans hg.size_le⟩

theorem allocate_error {n : ℕ} {e : Errno} (h : allocate mm c n = some (some e, c')) :
    e = .ENOMEM ∧ c' = c := by
  rw [allocate] at h
  split at h
  case isFalse => cases h
  case isTrue =>
    dsimp only at h
    generalize (if 2 * c.capacity % 2 ^ 64 < n then n else 2 * c.capacity % 2 ^ 64) = new_size at h
    cases hres : mm.resize new_size c.strmem with
    | none =>
      rw [hres] at h
      cases h
      exact ⟨rfl, rfl⟩
    | some strmem =>
      rw [hres] at h
      dsimp only at h
      split at h
      · obtain ⟨_, -, hx⟩ := Option.map_eq_some_iff.mp h
        cases hx
      · cases h

/-- **The sum that `EXPAND_cstring` computes** is exact if the test behind it succeeds. -/
theorem expand_spec (mm : Mm) (h : Loose c) (n : ℕ) :
    ∃ err c', expand mm c n = some (err, c') ∧ Kept c c' ∧
      (err = none → c.size + 1 + n ≤ c'.capacity) := by
  have hlt := h.size_add_one_lt
  rw [expand]
  split
  case isTrue => exact ⟨some .ENOMEM, c, rfl, kept_refl h, fun herr => by cases herr⟩
  case isFalse hgt =>
    have hmod : (c.size + 1 + n) % 2 ^ 64 = c.size + 1 + n := by omega
    rw [hmod]
    exact allocate_spec mm h _

/-! ## The functions -/

/-- A function returns: with an error, after which the string is unchanged, or with a string that
is what it should be. -/
def Keeps (c : Cstring) (r : Result) (denotes : List UInt8 → Prop) : Prop :=
  ∃ err c', r = some (err, c') ∧ Inv c' ∧ (err = none → denotes c'.str) ∧
    (err ≠ none → c'.str = c.str ∧ c'.size = c.size)

theorem keeps_error (h : Inv c) (e : Errno) (denotes : List UInt8 → Prop) :
    Keeps c (some (some e, c)) denotes :=
  ⟨some e, c, rfl, h, fun herr => absurd herr (Option.some_ne_none e), fun _ => ⟨rfl, rfl⟩⟩

theorem keeps_ok (h : Inv c') {denotes : List UInt8 → Prop} (hd : denotes c'.str) :
    Keeps c (some (none, c')) denotes :=
  ⟨none, c', rfl, h, fun _ => hd, fun herr => absurd rfl herr⟩

theorem keeps_andThen {r : Result} {n : ℕ} (hc : Inv c)
    (h : ∃ err c', r = some (err, c') ∧ Kept c c' ∧ (err = none → n ≤ c'.capacity))
    {rest : Cstring → Result} {denotes : List UInt8 → Prop}
    (hrest : ∀ c', Kept c c' → n ≤ c'.capacity → Keeps c (rest c') denotes) :
    Keeps c (andThen r rest) denotes := by
  obtain ⟨err, c', rfl, hkept, hcap⟩ := h
  cases err with
  | none => exact hrest c' hkept (hcap rfl)
  | some e =>
    exact ⟨some e, c', rfl, ⟨hkept.loose, hkept.terminated hc.terminated⟩,
      fun herr => absurd herr (Option.some_ne_none e), fun _ => ⟨hkept.str, hkept.size⟩⟩

/-- The string with `bs` behind its first `off` bytes, and a 0 byte behind them. -/
def ended (c : Cstring) (off : ℕ) (bs : List UInt8) : Cstring :=
  ⟨off + bs.length, (c.strmem.written off bs).written (off + bs.length) [0]⟩

theorem ended_spec (h : Loose c) {off : ℕ} {bs : List UInt8} (hlt : off + bs.length < c.capacity) :
    store ⟨off + bs.length, c.strmem.written off bs⟩ (off + bs.length) [0] =
        some (ended c off bs) ∧
      Inv (ended c off bs) ∧ (ended c off bs).str = c.strmem.bytes.take off ++ bs := by
  have hroom := h.room_of_lt hlt
  have hsize : (c.strmem.written off bs).size = c.strmem.size := Memblock.written_size hlt.le
  have hoff : off ≤ c.strmem.size := (Nat.le_add_right _ _).trans hlt.le
  have hlt' : off + bs.length < (c.strmem.written off bs).size := hlt.trans_eq hsize.symm
  have hpos : 0 < (c.strmem.written off bs).addr := hroom.chars_pos
  obtain ⟨hinv, hstr⟩ :=
    terminate hpos ((congrArg (c.chars + ·) hsize).trans_le hroom.fits) hlt'
  exact ⟨store_eq (c := ⟨off + bs.length, c.strmem.written off bs⟩) hlt', hinv,
    hstr.trans (Memblock.written_take hoff)⟩

theorem append_spec (mm : Mm) (h : Inv c) (s : List UInt8) :
    Keeps c (append mm c s) (· = c.str ++ s) := by
  rw [append]
  split
  case isTrue h0 =>
    rw [List.length_eq_zero_iff.mp h0, List.append_nil]
    exact keeps_ok h rfl
  case isFalse =>
    refine keeps_andThen h (expand_spec mm h.loose s.length) fun c' hkept hcap => ?_
    have hlt : c'.size + s.length < c'.capacity := by
      rw [hkept.size]
      omega
    obtain ⟨hw, hinv, hstr⟩ := ended_spec hkept.loose hlt
    rw [store_eq hlt.le, Option.bind_eq_bind, Option.bind_some]
    dsimp only
    rw [hw, Option.bind_some]
    refine keeps_ok hinv (hstr.trans ?_)
    exact congrArg (· ++ s) hkept.str

theorem setsize_spec (h : Inv c) (n : ℕ) :
    Keeps c (setsize c n) fun ys => ys.length = n ∧ ys.take c.str.length = c.str.take n := by
  rw [setsize]
  split
  case isTrue hge =>
    split
    case isTrue h0 =>
      have hsize : c.size = 0 := Nat.le_zero.mp (h0.2 ▸ h.loose.size_le)
      have hstr : c.str = [] := List.length_eq_zero_iff.mp (h.loose.length_str.trans hsize)
      refine keeps_ok h ?_
      rw [hstr, h0.1]
      exact ⟨rfl, rfl⟩
    case isFalse => exact keeps_error h .EINVAL _
  case isFalse hlt =>
    rw [not_le] at hlt
    have hroom := h.loose.room_of_lt hlt
    obtain ⟨hinv, hstr⟩ := terminate hroom.chars_pos hroom.fits hlt
    rw [store_eq (c := { c with size := n }) hlt, Option.bind_eq_bind, Option.bind_some]
    refine keeps_ok hinv ?_
    rw [hinv.loose.length_str, hstr, h.loose.length_str, str, List.take_take, List.take_take,
      min_comm]
    exact ⟨rfl, rfl⟩

theorem setsize_zero (h : Inv c) : ∃ c', setsize c 0 = some (none, c') ∧ Inv c' ∧ c'.str = [] := by
  obtain ⟨err, c', hr, hinv, hok, -⟩ := setsize_spec h 0
  have herr : err = none := by
    rw [setsize] at hr
    split at hr
    case isTrue hge =>
      rw [if_pos ⟨rfl, Nat.le_zero.mp hge⟩, Option.some_inj, Prod.mk.injEq] at hr
      exact hr.1.symm
    case isFalse hlt =>
      rw [store_eq (c := { c with size := 0 }) (not_le.mp hlt), Option.bind_eq_bind,
        Option.bind_some, Option.some_inj, Prod.mk.injEq] at hr
      exact hr.1.symm
  exact ⟨c', herr ▸ hr, hinv, List.length_eq_zero_iff.mp (hok herr).1⟩

theorem set_spec (mm : Mm) (h : Inv c) (s : List UInt8) : Keeps c (set mm c s) (· = s) := by
  rw [set]
  split
  case isTrue h0 =>
    obtain ⟨c', hr, hinv, hstr⟩ := setsize_zero h
    rw [hr, Option.bind_eq_bind, Option.bind_some, List.length_eq_zero_iff.mp h0]
    exact keeps_ok hinv hstr
  case isFalse h0 =>
    split
    case isTrue => exact keeps_error h .ENOMEM _
    case isFalse =>
      refine keeps_andThen h (allocate_spec mm h.loose (s.length + 1)) fun c' hkept hcap => ?_
      have hlt : 0 + s.length < c'.capacity := by omega
      obtain ⟨hw, hinv, hstr⟩ := ended_spec hkept.loose hlt
      rw [zero_add] at hw
      rw [store_eq hlt.le, Option.bind_eq_bind, Option.bind_some]
      dsimp only
      rw [hw, Option.bind_some]
      exact keeps_ok hinv hstr

theorem clear_spec (h : Inv c) : Keeps c (clear c) (· = []) := by
  rw [clear]
  split
  case isTrue hne =>
    have hlt : 0 < c.capacity := (Nat.pos_of_ne_zero hne).trans_le h.loose.size_le
    have hroom := h.loose.room_of_lt hlt
    obtain ⟨hinv, hstr⟩ := terminate hroom.chars_pos hroom.fits hlt
    rw [store_eq (c := { c with size := 0 }) hlt, Option.bind_eq_bind, Option.bind_some]
    exact keeps_ok hinv hstr
  case isFalse h0 =>
    exact keeps_ok h (List.length_eq_zero_iff.mp (h.loose.length_str.trans (not_not.mp h0)))

theorem takeWhile_append_zero (xs ys : List UInt8) :
    (xs ++ 0 :: ys).takeWhile (· ≠ 0) = xs.takeWhile (· ≠ 0) ∧
      (xs ++ 0 :: ys)[(xs.takeWhile (· ≠ 0)).length]? = some 0 := by
  induction xs with
  | nil => exact ⟨rfl, rfl⟩
  | cons x xs ih =>
    rw [List.cons_append]
    by_cases h0 : x = 0
    · subst h0
      exact ⟨rfl, rfl⟩
    · have hp : (fun x : UInt8 => decide (x ≠ 0)) x = true := decide_eq_true h0
      have hcons : ∀ zs : List UInt8,
          (x :: zs).takeWhile (· ≠ 0) = x :: zs.takeWhile (· ≠ 0) := fun _ =>
        List.takeWhile_cons_of_pos hp
      rw [hcons, hcons, ih.1]
      exact ⟨rfl, ih.2⟩

theorem split_terminated (h : Inv c) (hlast : c.capacity - 1 < c.capacity) :
    (c.strmem.written (c.capacity - 1) [0]).bytes =
      c.str ++ 0 :: (c.strmem.written (c.capacity - 1) [0]).bytes.drop (c.size + 1) := by
  have hroom := h.loose.room_of_lt hlast
  have hle : c.size ≤ c.capacity - 1 := Nat.le_pred_of_lt hroom.size_lt
  have hzero : (c.strmem.written (c.capacity - 1) [0]).bytes[c.size]? = some 0 := by
    rcases hle.eq_or_lt with heq | hlt
    · rw [heq]
      exact Memblock.written_getElem?_cons hlast.le
    · rw [Memblock.written_getElem?_of_lt hlast.le hlt]
      rcases h.terminated with hfree | hterm
      · exact absurd hfree.1 hroom.chars_pos.ne'
      · exact hterm.2
  obtain ⟨hlt, hget⟩ := List.getElem?_eq_some_iff.mp hzero
  have hdrop := List.drop_eq_getElem_cons hlt
  rw [hget] at hdrop
  rw [← hdrop, str, ← Memblock.written_take_of_le hlast.le hle]
  exact (List.take_append_drop _ _).symm

theorem adaptsize_spec (h : Inv c) :
    Keeps c (adaptsize c) (· = c.str.takeWhile (· ≠ 0)) := by
  rw [adaptsize]
  split
  case isFalse h0 =>
    rw [not_not] at h0
    have hsize : c.size = 0 := Nat.le_zero.mp (h0 ▸ h.loose.size_le)
    have hstr : c.str = [] := List.length_eq_zero_iff.mp (h.loose.length_str.trans hsize)
    refine keeps_ok h ?_
    rw [hstr]
    rfl
  case isTrue hne =>
    have hlast : c.capacity - 1 < c.capacity := Nat.sub_lt (Nat.pos_of_ne_zero hne) Nat.one_pos
    have hroom := h.loose.room_of_lt hlast
    have hlt := hroom.size_lt
    have hlen : (c.strmem.written (c.capacity - 1) [0]).size = c.capacity :=
      Memblock.written_size hlast
    have haddr : (c.strmem.written (c.capacity - 1) [0]).addr = c.chars := rfl
    have hsplit := split_terminated h hlast
    rw [store_eq hlast, Option.bind_eq_bind, Option.bind_some]
    generalize c.strmem.written (c.capacity - 1) [0] = strmem at hlen haddr hsplit
    obtain ⟨hstr, hzero⟩ := takeWhile_append_zero c.str (strmem.bytes.drop (c.size + 1))
    rw [← hsplit] at hstr hzero
    rw [← hstr] at hzero
    have hstrlen : strlen strmem.bytes < strmem.size := (List.getElem?_eq_some_iff.mp hzero).1
    refine keeps_ok ⟨Or.inr ⟨?_, ?_, hstrlen⟩, Or.inr ⟨hstrlen, hzero⟩⟩ ?_
    · exact hroom.chars_pos.trans_eq haddr.symm
    · exact (congrArg₂ (· + ·) haddr hlen).trans_le hroom.fits
    · exact (List.prefix_iff_eq_take.mp (List.takeWhile_prefix _)).symm.trans hstr

/-! ## Formatted text -/

theorem Output.length_bytes (output : Output) (n : ℕ) : (output.bytes n).length ≤ n := by
  cases output with
  | error written => exact List.length_take_le n written
  | text s h =>
    cases n with
    | zero => exact Nat.le_refl 0
    | succ n =>
      rw [Output.bytes, List.length_append, List.length_singleton]
      exact Nat.succ_le_succ (List.length_take_le n s)

theorem overwrite (h : Loose c) {bs : List UInt8} (hlen : bs.length ≤ c.capacity - c.size) :
    ∃ c', c.store c.size bs = some c' ∧ Loose c' ∧ c'.size = c.size ∧ c'.capacity = c.capacity ∧
      c'.str = c.str := by
  have hle := h.size_le
  have hfit : c.size + bs.length ≤ c.capacity := by omega
  have hcap : (c.strmem.written c.size bs).size = c.capacity := Memblock.written_size hfit
  exact ⟨_, store_eq hfit, h.written hfit, rfl, hcap,
    Memblock.written_take_of_le hle (Nat.le_refl _)⟩

theorem printfError_spec (h : Loose c') (hstr : c'.str = c.str) (hsize : c'.size = c.size)
    (denotes : List UInt8 → Prop) : Keeps c (printfError c') denotes := by
  rw [printfError]
  split
  case isTrue hne =>
    rcases h with rfl | hroom
    · exact absurd rfl hne
    obtain ⟨hinv, hstr'⟩ := terminate hroom.chars_pos hroom.fits hroom.size_lt
    rw [store_eq hroom.size_lt]
    exact ⟨some .ENOMEM, _, rfl, hinv, fun herr => absurd herr (Option.some_ne_none _),
      fun _ => ⟨hstr'.trans hstr, hsize⟩⟩
  case isFalse h0 =>
    have hinit : c' = init := by
      rcases h with rfl | hroom
      · rfl
      · exact absurd (Nat.zero_lt_of_lt hroom.size_lt).ne' h0
    refine ⟨some .ENOMEM, c', rfl, hinit ▸ inv_init, fun herr => absurd herr (Option.some_ne_none _),
      fun _ => ⟨hstr, hsize⟩⟩

theorem printfLoop_fits (mm : Mm) (h : Loose c') {s : List UInt8} (hs : s.length < 2 ^ 31)
    (hlt : c'.size + s.length < c'.capacity) (hstr : c'.str = c.str) :
    ∃ r, (∀ n, printfLoop mm (.text s hs) (n + 1) c' = r) ∧ Keeps c r (· = c.str ++ s) := by
  have hfree : s.length < c'.capacity - c'.size := by omega
  have hbytes : (Output.text s hs).bytes (c'.capacity - c'.size) = s ++ [0] := by
    obtain ⟨n, hn⟩ : ∃ n, c'.capacity - c'.size = n + 1 := ⟨c'.capacity - c'.size - 1, by omega⟩
    rw [hn, Output.bytes, List.take_of_length_le (by omega)]
  have hlen : c'.size + (s ++ [0]).length ≤ c'.capacity := by
    rw [List.length_append, List.length_singleton, ← add_assoc]
    exact hlt
  obtain ⟨-, hinv, hstr'⟩ := ended_spec h hlt
  refine ⟨some (none, ended c' c'.size s), fun n => ?_, keeps_ok hinv ?_⟩
  · rw [printfLoop, hbytes, store_eq hlen, Option.bind_eq_bind, Option.bind_some]
    dsimp only
    rw [if_pos hfree, Memblock.written_append h.size_le]
    rfl
  · exact hstr'.trans (congrArg (· ++ s) hstr)

/-- **Formatted text**: the loop ends in its second round. -/
theorem printfLoop_spec (mm : Mm) (h : Inv c) (output : Output) :
    ∃ r, (∀ n, printfLoop mm output (n + 2) c = r) ∧
      Keeps c r fun ys => ∃ s hs, output = .text s hs ∧ ys = c.str ++ s := by
  obtain ⟨c₁, hw, hloose, hsize, hcap, hstr⟩ :=
    overwrite h.loose (output.length_bytes (c.capacity - c.size))
  cases output with
  | error written =>
    refine ⟨printfError c₁, fun n => ?_, printfError_spec hloose hstr hsize _⟩
    rw [printfLoop, hw]
    rfl
  | text s hs =>
    by_cases hfree : s.length < c.capacity - c.size
    · obtain ⟨r, hr, hkeeps⟩ := printfLoop_fits (c := c) mm h.loose hs (by omega) rfl
      refine ⟨r, fun n => hr (n + 1), ?_⟩
      obtain ⟨err, c', hr', hinv, hok, herr⟩ := hkeeps
      exact ⟨err, c', hr', hinv, fun h0 => ⟨s, hs, rfl, hok h0⟩, herr⟩
    · obtain ⟨err, c₂, hexp, hkept, hroom⟩ := expand_spec mm hloose s.length
      have hround : ∀ n, printfLoop mm (.text s hs) (n + 2) c =
          (expand mm c₁ s.length).bind fun x => match x.1 with
            | some _ => printfError x.2
            | none => printfLoop mm (.text s hs) (n + 1) x.2 := by
        intro n
        rw [printfLoop, hw, Option.bind_eq_bind, Option.bind_some]
        exact if_neg hfree
      rw [hexp] at hround
      cases err with
      | some e =>
        exact ⟨printfError c₂, hround,
          printfError_spec hkept.loose (hkept.str.trans hstr) (hkept.size.trans hsize) _⟩
      | none =>
        have hlt : c₂.size + s.length < c₂.capacity := by
          have hle := hroom rfl
          rw [hkept.size]
          omega
        obtain ⟨r, hr, hkeeps⟩ :=
          printfLoop_fits (c := c) mm hkept.loose hs hlt (hkept.str.trans hstr)
        refine ⟨r, fun n => (hround n).trans (hr n), ?_⟩
        obtain ⟨err, c', hr', hinv, hok, herr⟩ := hkeeps
        exact ⟨err, c', hr', hinv, fun h0 => ⟨s, hs, rfl, hok h0⟩, herr⟩

/-! ## Initialisation -/

theorem loose_of_first {newsize : ℕ} {strmem : Memblock} (hg : Grown newsize Memblock.free strmem)
    (hpos : 0 < newsize) : Loose ⟨0, strmem⟩ :=
  Or.inr ⟨hg.addr_pos, hg.fits, hpos.trans_le hg.size_le⟩

theorem initCstring_spec (mm : Mm) (h : Inv c) {n : ℕ}
    (hzero : n = 0 ∨ ∀ strmem, mm.resize n Memblock.free = some strmem →
      strmem.bytes[0]? = some 0) : Keeps c (initCstring mm c n) (· = []) := by
  rw [initCstring]
  split
  case isFalse => exact keeps_ok inv_init rfl
  case isTrue hne =>
    cases hres : mm.resize n Memblock.free with
    | none => exact keeps_error h .ENOMEM _
    | some strmem =>
      have hg := mm.grown (Nat.zero_le n) hres
      have hpos := Nat.pos_of_ne_zero hne
      exact keeps_ok ⟨loose_of_first hg hpos, Or.inr ⟨hpos.trans_le hg.size_le,
        hzero.resolve_left hne strmem hres⟩⟩ rfl

theorem append_fits (mm : Mm) (h : Loose c) {s : List UInt8} (hs : s.length ≠ 0)
    (hfit : c.size + 1 + s.length ≤ c.capacity) (hcap : c.capacity < 2 ^ 64) :
    append mm c s = some (none, ended c c.size s) := by
  have hlt : c.size + s.length < c.capacity := by omega
  have hexp : expand mm c s.length = some (none, c) := by
    rw [expand, Nat.mod_eq_of_lt (hfit.trans_lt hcap), if_neg (by omega), allocate,
      if_neg (not_lt.mpr hfit)]
  rw [append, if_neg hs, hexp]
  dsimp only [andThen, Option.bind_some]
  rw [store_eq hlt.le, Option.bind_eq_bind, Option.bind_some]
  dsimp only
  rw [(ended_spec h hlt).1, Option.bind_some]

theorem initcopy_spec (mm : Mm) (h : Inv c) {s : List UInt8} (hs : s.length < 2 ^ 64 - 1) :
    Keeps c (initcopy mm c s) (· = s) := by
  rw [initcopy]
  rcases Nat.eq_zero_or_pos s.length with h0 | hpos
  · rw [List.length_eq_zero_iff.mp h0]
    exact keeps_ok inv_init rfl
  · dsimp only
    rw [if_pos hpos.ne, Nat.mod_eq_of_lt (by omega), initCstring, if_pos (Nat.succ_ne_zero _)]
    cases hres : mm.resize (s.length + 1) Memblock.free with
    | none => exact keeps_error h .ENOMEM _
    | some strmem =>
      have hg := mm.grown (Nat.zero_le _) hres
      have hloose := loose_of_first hg (Nat.succ_pos _)
      have hle := hg.size_le
      have hfits := hg.fits
      have haddr := hg.addr_pos
      have hcap : capacity ⟨0, strmem⟩ = strmem.size := rfl
      have hlt : 0 + s.length < capacity ⟨0, strmem⟩ := by omega
      obtain ⟨-, hinv, hstr⟩ := ended_spec hloose hlt
      rw [andThen, Option.bind_some]
      dsimp only
      rw [append_fits mm hloose hpos.ne' (by dsimp only; omega) (by omega), Option.bind_eq_bind,
        Option.bind_some]
      exact keeps_ok hinv hstr

/-! ## Runs -/

/-- The bytes that a pointer and a `size_t` stand for. -/
abbrev Bytes := {s : List UInt8 // s.length < 2 ^ 64}

/-- The calls of the functions. -/
inductive Op
  | initCstring (capacity : ℕ)
  | initcopy (copiedfrom : Bytes)
  | allocate (capacity : ℕ)
  | append (str : Bytes)
  | set (str : Bytes)
  | printfappend (output : Output)
  | setsize (new_size : ℕ)
  | adaptsize
  | clear

/-- A call, and the memory manager that it finds. -/
structure Call where
  mm : Mm
  op : Op

def exec (c : Cstring) (call : Call) : Result :=
  match call.op with
  | .initCstring capacity => initCstring call.mm c capacity
  | .initcopy copiedfrom => initcopy call.mm c copiedfrom.val
  | .allocate capacity => allocate call.mm c capacity
  | .append s => append call.mm c s.val
  | .set s => set call.mm c s.val
  | .printfappend output => printfappend call.mm c output
  | .setsize new_size => setsize c new_size
  | .adaptsize => adaptsize c
  | .clear => clear c

/-- An operation makes `ys` of the string `xs`. -/
def Denotes (op : Op) (xs ys : List UInt8) : Prop :=
  match op with
  | .initCstring _ => ys = []
  | .initcopy copiedfrom => ys = copiedfrom.val
  | .allocate _ => ys = xs
  | .append s => ys = xs ++ s.val
  | .set s => ys = s.val
  | .printfappend output => ∃ s hs, output = .text s hs ∧ ys = xs ++ s
  | .setsize n => ys.length = n ∧ ys.take xs.length = xs.take n
  | .adaptsize => ys = xs.takeWhile (· ≠ 0)
  | .clear => ys = []

/-- The string after a call has its 0 byte, and is what the operation makes of it or, after an
error, what it was before. -/
def StepOk (c : Cstring) (call : Call) : Prop :=
  ∃ err c', exec c call = some (err, c') ∧ Terminated c' ∧ c'.str.length = c'.size ∧
    (err = none → Denotes call.op c.str c'.str) ∧ (err ≠ none → c'.str = c.str ∧ c'.size = c.size)

/-- All calls in a row keep their promises. -/
def AllCalls : Cstring → List Call → Prop
  | _, [] => True
  | c, call :: calls =>
      StepOk c call ∧ ∀ err c', exec c call = some (err, c') → AllCalls c' calls

/-- A call of `init_cstring` allocates nothing, or memory that starts with a 0 byte, and a copied
string has fewer than `SIZE_MAX` bytes. -/
def Proper (call : Call) : Prop :=
  match call.op with
  | .initCstring capacity => capacity = 0 ∨ ∀ strmem,
      call.mm.resize capacity Memblock.free = some strmem → strmem.bytes[0]? = some 0
  | .initcopy copiedfrom => copiedfrom.val.length < 2 ^ 64 - 1
  | _ => True

theorem allocate_keeps (mm : Mm) (h : Inv c) (n : ℕ) : Keeps c (allocate mm c n) (· = c.str) := by
  obtain ⟨err, c', hr, hkept, -⟩ := allocate_spec mm h.loose n
  exact ⟨err, c', hr, ⟨hkept.loose, hkept.terminated h.terminated⟩, fun _ => hkept.str,
    fun _ => ⟨hkept.str, hkept.size⟩⟩

/-- **One call.** -/
theorem exec_spec (h : Inv c) (call : Call) (hp : Proper call) :
    Keeps c (exec c call) (Denotes call.op c.str) := by
  obtain ⟨mm, op⟩ := call
  cases op with
  | initCstring capacity => exact initCstring_spec mm h hp
  | initcopy copiedfrom => exact initcopy_spec mm h hp
  | allocate capacity => exact allocate_keeps mm h capacity
  | append s => exact append_spec mm h s.val
  | set s => exact set_spec mm h s.val
  | printfappend output =>
    obtain ⟨r, hr, hkeeps⟩ := printfLoop_spec mm h output
    rw [← hr 0] at hkeeps
    exact hkeeps
  | setsize new_size => exact setsize_spec h new_size
  | adaptsize => exact adaptsize_spec h
  | clear => exact clear_spec h

theorem initcopy_of_max (mm : Mm) (c : Cstring) {s : List UInt8} (hs : s.length = 2 ^ 64 - 1) :
    initcopy mm c s = some (none, init) := by
  have happ : append mm init s = some (some .ENOMEM, init) := by
    have hmod : (init.size + 1 + (2 ^ 64 - 1)) % 2 ^ 64 ≤ 2 ^ 64 - 1 :=
      Nat.le_sub_one_of_lt (Nat.mod_lt _ (Nat.two_pow_pos 64))
    rw [append, hs, if_neg (by decide), expand, if_pos hmod]
    rfl
  rw [initcopy, hs]
  change (append mm init s).bind (fun x => some (none, x.2)) = some (none, init)
  rw [happ]
  rfl

theorem proper_of_stepOk (call : Call) (hok : StepOk c call) : Proper call := by
  obtain ⟨mm, op⟩ := call
  obtain ⟨err, c', hr, hterm, -, hden, -⟩ := hok
  cases op with
  | initCstring capacity =>
    refine or_iff_not_imp_left.mpr fun hne strmem hres => ?_
    replace hr : initCstring mm c capacity = some (err, c') := hr
    rw [initCstring, if_pos hne, hres] at hr
    cases hr
    rcases hterm with hfree | hzero
    · exact absurd hfree.1 (mm.grown (Nat.zero_le _) hres).addr_pos.ne'
    · exact hzero.2
  | initcopy copiedfrom =>
    by_contra hge
    have hlen : copiedfrom.val.length = 2 ^ 64 - 1 := by
      have hlt := copiedfrom.property
      have hge' : ¬copiedfrom.val.length < 2 ^ 64 - 1 := hge
      omega
    replace hr : initcopy mm c copiedfrom.val = some (err, c') := hr
    rw [initcopy_of_max mm c hlen] at hr
    cases hr
    have hcopy : [] = copiedfrom.val := hden rfl
    rw [← hcopy] at hlen
    exact absurd hlen (by decide)
  | _ => exact True.intro

theorem allCalls_iff_of_inv (h : Inv c) (calls : List Call) :
    AllCalls c calls ↔ ∀ call ∈ calls, Proper call := by
  induction calls generalizing c with
  | nil => exact iff_of_true True.intro fun _ hcall => absurd hcall List.not_mem_nil
  | cons call calls ih =>
    rw [List.forall_mem_cons]
    constructor
    · rintro ⟨hok, hrest⟩
      have hp := proper_of_stepOk call hok
      obtain ⟨err, c', hr, hinv, -⟩ := exec_spec h call hp
      exact ⟨hp, (ih hinv).mp (hrest err c' hr)⟩
    · rintro ⟨hp, hproper⟩
      obtain ⟨err, c', hr, hinv, hok, herr⟩ := exec_spec h call hp
      refine ⟨⟨err, c', hr, hinv.terminated, hinv.loose.length_str, hok, herr⟩, ?_⟩
      intro err₁ c₁ hr₁
      cases hr.symm.trans hr₁
      exact (ih hinv).mpr hproper

/-- **Every run**: all calls leave the string they should, with its 0 byte, exactly if no call of
`init_cstring` gets memory that starts with another byte, and no copied string has `SIZE_MAX`
bytes. -/
theorem allCalls_iff (calls : List Call) : AllCalls init calls ↔ ∀ call ∈ calls, Proper call :=
  allCalls_iff_of_inv inv_init calls

/-- A memory manager whose new bytes are all 255. -/
def mm255 : Mm where
  resize newsize m :=
    if newsize ≤ 2 ^ 16 then some ⟨4096, m.bytes ++ List.replicate (newsize - m.size) 255⟩ else none
  grown := by
    intro newsize m m' hle hres
    split at hres
    case isTrue hnew =>
      cases hres
      have hsize : (m.bytes ++ List.replicate (newsize - m.size) 255).length = newsize := by
        rw [List.length_append, List.length_replicate]
        exact Nat.add_sub_cancel' hle
      refine ⟨Nat.succ_pos _, hsize.ge, ?_, List.prefix_append _ _⟩
      refine (Nat.add_le_add_left (hsize.trans_le hnew) 4096).trans (by decide)
    case isFalse => cases hres

/-- A string with memory that is not initialised. -/
theorem not_allCalls_init : ¬AllCalls init [⟨mm255, .initCstring 256⟩] := by
  rintro ⟨⟨err, c', hr, hterm, -⟩, -⟩
  cases hr
  rcases hterm with hfree | hzero
  · exact absurd hfree.1 (by decide)
  · exact absurd hzero.2 (by decide)

end Cstring
end CKern
