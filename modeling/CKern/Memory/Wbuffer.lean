import CKern.String.Cstring

/-!
# `memory/wbuffer.c`: appending bytes to a string, a block of memory or a static buffer

* `alloc`, `shrink`, `size`: the three functions of the interface `wbuffer_it`, for each kind of
  object that is wrapped.
* `appendcopy`, `appendbyte`, `appendbytes`, `clear`: the functions that are built on them.
* `Holds`: the wrapped object starts with a list of bytes.
* `alloc_spec`: an allocation leaves the bytes alone, and makes room or fails.
* `Follows`: all along a run of calls, the wrapped object equals a list.
* `follows_init`: every run of calls does to the wrapped object what it should do to a list.
-/

namespace CKern
namespace Wbuffer

/-! ## The code -/

/-- The wrapped object, and with it the implementation of the interface. -/
inductive Impl
  | cstring (cstr : Cstring)
  | memblock (mb : Memblock)
  | static (buffer : Memblock)

/-- The memory of the wrapped object. -/
def Impl.block : Impl → Memblock
  | .cstring cstr => cstr.strmem
  | .memblock mb => mb
  | .static buffer => buffer

/-- Writing into the memory of the wrapped object. -/
def Impl.store (impl : Impl) (off : ℕ) (bs : List UInt8) : Option Impl :=
  match impl with
  | .cstring cstr => (cstr.store off bs).map .cstring
  | .memblock mb => (mb.store off bs).map .memblock
  | .static buffer => (buffer.store off bs).map .static

end Wbuffer

/-- `wbuffer_t`: the addresses of the next byte and of the end of the memory. -/
structure Wbuffer where
  next : ℕ
  stop : ℕ
  impl : Wbuffer.Impl

namespace Wbuffer

/-- `wbuffer_INIT_CSTRING`, `wbuffer_INIT_MEMBLOCK`, `wbuffer_INIT_STATIC`. -/
def init (impl : Impl) : Wbuffer := ⟨impl.block.addr, impl.block.addr + impl.block.size, impl⟩

/-- What a function returns, and the buffer after it. There is no result after a write beyond the
memory of the wrapped object. -/
abbrev Result := Option (Option Cstring.Errno × Wbuffer)

/-- Writing bytes to an address. -/
def write (wbuf : Wbuffer) (addr : ℕ) (bs : List UInt8) : Option Wbuffer :=
  if wbuf.impl.block.addr ≤ addr then
    (wbuf.impl.store (addr - wbuf.impl.block.addr) bs).map fun impl => { wbuf with impl := impl }
  else none

/-- `sizefree_wbuffer`. -/
def sizefree (wbuf : Wbuffer) : ℕ := wbuf.stop - wbuf.next

/-- `alloc_cstring_wbuffer`. -/
def allocCstring (mm : Mm) (wbuf : Wbuffer) (cstr : Cstring) (freesize : ℕ) : Result :=
  let used := wbuf.next - cstr.chars
  let capacity := (used + freesize) % 2 ^ 64
  if capacity < used then some (some .ENOMEM, wbuf)
  else do
    let (err, cstr) ← Cstring.allocate mm cstr capacity
    match err with
    | some err => some (some err, { wbuf with impl := .cstring cstr })
    | none => some (none, ⟨cstr.chars + used, cstr.chars + cstr.capacity, .cstring cstr⟩)

/-- `alloc_memblock_wbuffer`. -/
def allocMemblock (mm : Mm) (wbuf : Wbuffer) (mb : Memblock) (freesize : ℕ) : Result :=
  let used := wbuf.next - mb.addr
  let memsize := if mb.size ≥ freesize then 2 * mb.size % 2 ^ 64 else (mb.size + freesize) % 2 ^ 64
  if memsize ≤ mb.size then some (some .ENOMEM, wbuf)
  else
    match mm.resize memsize mb with
    | none => some (some .ENOMEM, wbuf)
    | some mb => some (none, ⟨mb.addr + used, mb.addr + mb.size, .memblock mb⟩)

/-- `alloc_static_wbuffer`. -/
def allocStatic (wbuf : Wbuffer) : Result := some (some .ENOMEM, wbuf)

/-- The function `alloc` of the interface. -/
def alloc (mm : Mm) (wbuf : Wbuffer) (freesize : ℕ) : Result :=
  match wbuf.impl with
  | .cstring cstr => allocCstring mm wbuf cstr freesize
  | .memblock mb => allocMemblock mm wbuf mb freesize
  | .static _ => allocStatic wbuf

/-- `shrink_cstring_wbuffer`, `shrink_memblock_wbuffer` and `shrink_static_wbuffer`, which differ in
where they find the start of the memory. -/
def shrink (wbuf : Wbuffer) (newsize : ℕ) : Result :=
  let start := wbuf.impl.block.addr
  if wbuf.next - start < newsize then some (some .EINVAL, wbuf)
  else some (none, { wbuf with next := start + newsize })

/-- `size_cstring_wbuffer`, `size_memblock_wbuffer` and `size_static_wbuffer`. -/
def size (wbuf : Wbuffer) : ℕ := wbuf.next - wbuf.impl.block.addr

/-- Copying bytes to `next`, and moving it behind them. -/
def copy (wbuf : Wbuffer) (bs : List UInt8) : Option Wbuffer :=
  (wbuf.write wbuf.next bs).map fun wbuf => { wbuf with next := wbuf.next + bs.length }

/-- `appendcopy_wbuffer`. -/
def appendcopy (mm : Mm) (wbuf : Wbuffer) (buffer : List UInt8) : Result :=
  let free := wbuf.sizefree
  if free ≥ buffer.length then do
    let wbuf ← wbuf.copy buffer
    some (none, wbuf)
  else do
    let wbuf ← (if free ≠ 0 then wbuf.copy (buffer.take free) else some wbuf)
    let missing := buffer.length - free
    let (err, wbuf) ← alloc mm wbuf missing
    match err with
    | some err => some (some err, { wbuf with next := wbuf.next - free })
    | none => do
      let wbuf ← wbuf.copy (buffer.drop free)
      some (none, wbuf)

/-- `appendbyte_wbuffer`. -/
def appendbyte (mm : Mm) (wbuf : Wbuffer) (c : UInt8) : Result := do
  let (err, wbuf) ← (if wbuf.sizefree ≠ 0 then some (none, wbuf) else alloc mm wbuf 1)
  match err with
  | some err => some (some err, wbuf)
  | none => do
    let wbuf ← wbuf.copy [c]
    some (none, wbuf)

/-- `appendbytes_wbuffer`, with the address that it stores into its last parameter. -/
def appendbytes (mm : Mm) (wbuf : Wbuffer) (buffer_size : ℕ) :
    Option (Option Cstring.Errno × ℕ × Wbuffer) := do
  let (err, wbuf) ←
    (if buffer_size ≤ wbuf.sizefree then some (none, wbuf) else alloc mm wbuf buffer_size)
  match err with
  | some err => some (some err, 0, wbuf)
  | none => some (none, wbuf.next, { wbuf with next := wbuf.next + buffer_size })

/-- A call of `appendbytes_wbuffer`, after which the caller fills the memory. -/
def appendfill (mm : Mm) (wbuf : Wbuffer) (bs : List UInt8) : Result := do
  let (err, buffer, wbuf) ← appendbytes mm wbuf bs.length
  match err with
  | some err => some (some err, wbuf)
  | none => do
    let wbuf ← wbuf.write buffer bs
    some (none, wbuf)

/-- `clear_wbuffer`. -/
def clear (wbuf : Wbuffer) : Result := do
  let (_, wbuf) ← shrink wbuf 0
  some (none, wbuf)

/-! ## What a buffer holds -/

/-- The memory of the object is as its own functions leave it. -/
def Impl.Valid : Impl → Prop
  | .cstring cstr => Cstring.Loose cstr
  | .memblock mb => mb.Valid
  | .static buffer => buffer.Valid

/-- The wrapped object starts with the bytes `xs`, and the rest of its memory is free. -/
structure Holds (wbuf : Wbuffer) (xs : List UInt8) : Prop where
  valid : wbuf.impl.Valid
  next : wbuf.next = wbuf.impl.block.addr + xs.length
  stop : wbuf.stop = wbuf.impl.block.addr + wbuf.impl.block.size
  isPrefix : xs <+: wbuf.impl.block.bytes

variable {mm : Mm} {wbuf wbuf' : Wbuffer} {xs bs : List UInt8}

theorem holds_init {impl : Impl} (h : impl.Valid) : Holds (init impl) [] :=
  ⟨h, rfl, rfl, List.nil_prefix⟩

theorem Impl.Valid.block {impl : Impl} (h : impl.Valid) : impl.block.Valid := by
  cases impl with
  | cstring cstr => exact Cstring.Loose.valid h
  | memblock mb => exact h
  | static buffer => exact h

theorem Holds.length_le (h : Holds wbuf xs) : xs.length ≤ wbuf.impl.block.size :=
  h.isPrefix.length_le

theorem Holds.size_eq (h : Holds wbuf xs) : wbuf.size = xs.length := by
  rw [size, h.next, Nat.add_sub_cancel_left]

theorem Holds.sizefree_eq (h : Holds wbuf xs) :
    wbuf.sizefree = wbuf.impl.block.size - xs.length := by
  rw [sizefree, h.stop, h.next, Nat.add_sub_add_left]

theorem Holds.take_eq (h : Holds wbuf xs) : wbuf.impl.block.bytes.take wbuf.size = xs := by
  rw [h.size_eq]
  exact (List.prefix_iff_eq_take.mp h.isPrefix).symm

theorem Holds.back (h : Holds wbuf xs) {ys : List UInt8} (hy : ys <+: xs) :
    Holds { wbuf with next := wbuf.impl.block.addr + ys.length } ys :=
  ⟨h.valid, rfl, h.stop, hy.trans h.isPrefix⟩

/-! ## Writing -/

theorem Impl.store_spec {impl : Impl} (h : impl.Valid) {off : ℕ}
    (hle : off + bs.length ≤ impl.block.size) :
    ∃ impl', impl.store off bs = some impl' ∧ impl'.Valid ∧
      impl'.block = impl.block.written off bs := by
  cases impl with
  | cstring cstr =>
    refine ⟨.cstring { cstr with strmem := cstr.strmem.written off bs }, ?_,
      Cstring.Loose.written h hle, rfl⟩
    exact congrArg (Option.map Impl.cstring) (Cstring.store_eq hle)
  | memblock mb =>
    refine ⟨.memblock (mb.written off bs), ?_, Memblock.Valid.written h hle, rfl⟩
    exact congrArg (Option.map Impl.memblock) (Memblock.store_eq hle)
  | static buffer =>
    refine ⟨.static (buffer.written off bs), ?_, Memblock.Valid.written h hle, rfl⟩
    exact congrArg (Option.map Impl.static) (Memblock.store_eq hle)

/-- **Writing behind the bytes that are held**, before or after `next` is moved. -/
theorem Holds.write (h : Holds wbuf xs) (hle : bs.length ≤ wbuf.sizefree) (k : ℕ) :
    ∃ impl, { wbuf with next := k }.write wbuf.next bs =
        some { wbuf with next := k, impl := impl } ∧
      Holds { wbuf with next := wbuf.next + bs.length, impl := impl } (xs ++ bs) := by
  have hlen := h.length_le
  rw [h.sizefree_eq] at hle
  have hfit : xs.length + bs.length ≤ wbuf.impl.block.size := by omega
  obtain ⟨impl, hstore, hvalid, hblock⟩ := Impl.store_spec h.valid hfit
  refine ⟨impl, ?_, hvalid, ?_, ?_, ?_⟩
  · rw [Wbuffer.write, if_pos (h.next ▸ Nat.le_add_right _ _), h.next, Nat.add_sub_cancel_left,
      hstore]
    rfl
  · dsimp only
    rw [h.next, hblock, List.length_append, ← add_assoc]
    rfl
  · dsimp only
    rw [h.stop, hblock, Memblock.written_size hfit]
    rfl
  · have htake : (wbuf.impl.block.written xs.length bs).bytes.take (xs.length + bs.length) =
        wbuf.impl.block.bytes.take xs.length ++ bs := Memblock.written_take hlen
    rw [← List.prefix_iff_eq_take.mp h.isPrefix] at htake
    exact htake ▸ hblock.symm ▸ List.take_prefix _ _

theorem Holds.copy (h : Holds wbuf xs) (hle : bs.length ≤ wbuf.sizefree) :
    ∃ wbuf', wbuf.copy bs = some wbuf' ∧ Holds wbuf' (xs ++ bs) ∧
      wbuf'.sizefree = wbuf.sizefree - bs.length := by
  obtain ⟨impl, hw, hholds⟩ := h.write hle wbuf.next
  exact ⟨_, congrArg (Option.map _) hw, hholds, Nat.sub_add_eq _ _ _⟩

/-! ## Allocation -/

theorem Holds.moved (h : Holds wbuf xs) (impl : Impl) (hvalid : impl.Valid)
    (hkeeps : wbuf.impl.block.bytes <+: impl.block.bytes) :
    Holds ⟨impl.block.addr + xs.length, impl.block.addr + impl.block.size, impl⟩ xs :=
  ⟨hvalid, rfl, rfl, h.isPrefix.trans hkeeps⟩

/-- What an allocation of `n` bytes does. -/
def Allocates (xs : List UInt8) (n : ℕ) (r : Result) : Prop :=
  ∃ err wbuf', r = some (err, wbuf') ∧ Holds wbuf' xs ∧
    (err = none ∧ n ≤ wbuf'.sizefree ∨ err = some .ENOMEM)

theorem Holds.allocates_error (h : Holds wbuf xs) (n : ℕ) :
    Allocates xs n (some (some .ENOMEM, wbuf)) :=
  ⟨some .ENOMEM, wbuf, rfl, h, Or.inr rfl⟩

theorem allocCstring_spec (mm : Mm) {cstr : Cstring} (h : Holds wbuf xs)
    (hc : wbuf.impl = .cstring cstr) {n : ℕ} (hn : n < 2 ^ 64) :
    Allocates xs n (allocCstring mm wbuf cstr n) := by
  have hloose : Cstring.Loose cstr := by
    have hvalid := h.valid
    rwa [hc] at hvalid
  have hused : wbuf.next - cstr.chars = xs.length := by
    have hsize := h.size_eq
    rwa [size, hc] at hsize
  have hlen := h.length_le.trans_lt h.valid.block.size_lt
  rw [allocCstring]
  dsimp only
  rw [hused]
  split
  case isTrue => exact h.allocates_error n
  case isFalse hge =>
    have hmod : (xs.length + n) % 2 ^ 64 = xs.length + n := by omega
    rw [hmod]
    obtain ⟨err, c', hres, hkept, hcap⟩ := Cstring.allocate_spec mm hloose (xs.length + n)
    rw [hres, Option.bind_eq_bind, Option.bind_some]
    cases err with
    | some e =>
      obtain ⟨rfl, rfl⟩ := Cstring.allocate_error hres
      dsimp only
      rw [← hc]
      exact h.allocates_error n
    | none =>
      have hkeeps : wbuf.impl.block.bytes <+: c'.strmem.bytes := by
        rw [hc]
        exact hkept.bytes
      have hmoved := h.moved (.cstring c') hkept.loose hkeeps
      refine ⟨none, _, rfl, hmoved, Or.inl ⟨rfl, ?_⟩⟩
      have hle : xs.length + n ≤ c'.strmem.size := hcap rfl
      rw [sizefree]
      dsimp only [Impl.block, Cstring.chars, Cstring.capacity]
      omega

theorem allocMemblock_spec (mm : Mm) {mb : Memblock} (h : Holds wbuf xs)
    (hm : wbuf.impl = .memblock mb) {n : ℕ} (hpos : 0 < n) (hn : n < 2 ^ 64) :
    Allocates xs n (allocMemblock mm wbuf mb n) := by
  have hused : wbuf.next - mb.addr = xs.length := by
    have hsize := h.size_eq
    rwa [size, hm] at hsize
  have hlen : xs.length ≤ mb.size := by
    have hle := h.length_le
    rwa [hm] at hle
  have hlt : mb.size < 2 ^ 64 := by
    have hlt := h.valid.block.size_lt
    rwa [hm] at hlt
  have hsum : (if mb.size ≥ n then 2 * mb.size % 2 ^ 64 else (mb.size + n) % 2 ^ 64) ≤ mb.size ∨
      mb.size + n ≤ if mb.size ≥ n then 2 * mb.size % 2 ^ 64 else (mb.size + n) % 2 ^ 64 := by
    split
    · omega
    · omega
  rw [allocMemblock, hused]
  generalize (if mb.size ≥ n then 2 * mb.size % 2 ^ 64 else (mb.size + n) % 2 ^ 64) =
    memsize at hsum
  by_cases hle : memsize ≤ mb.size
  · rw [if_pos hle]
    exact h.allocates_error n
  · rw [if_neg hle]
    have hsum' := hsum.resolve_left hle
    cases hres : mm.resize memsize mb with
    | none => exact h.allocates_error n
    | some mb' =>
      have hg := mm.grown ((Nat.le_add_right _ _).trans hsum') hres
      have hkeeps : wbuf.impl.block.bytes <+: mb'.bytes := by
        rw [hm]
        exact hg.keeps
      have hmoved := h.moved (.memblock mb') hg.valid hkeeps
      refine ⟨none, _, rfl, hmoved, Or.inl ⟨rfl, ?_⟩⟩
      have hle := hg.size_le
      rw [sizefree]
      dsimp only [Impl.block]
      omega

/-- **Allocation** leaves the bytes alone, and makes room or fails with `ENOMEM`. -/
theorem alloc_spec (mm : Mm) (h : Holds wbuf xs) {n : ℕ} (hpos : 0 < n) (hn : n < 2 ^ 64) :
    Allocates xs n (alloc mm wbuf n) := by
  rw [alloc]
  split
  case h_1 cstr hc => exact allocCstring_spec mm h hc hn
  case h_2 mb hm => exact allocMemblock_spec mm h hm hpos hn
  case h_3 => exact h.allocates_error n

/-! ## The functions -/

/-- A function makes `ys` of the bytes `xs`, or fails with `ENOMEM` and leaves them as they are. -/
def Appends (xs ys : List UInt8) (r : Result) : Prop :=
  ∃ err wbuf', r = some (err, wbuf') ∧
    (err = none ∧ Holds wbuf' ys ∨ err = some .ENOMEM ∧ Holds wbuf' xs)

theorem Holds.appends_copy (h : Holds wbuf xs) (hle : bs.length ≤ wbuf.sizefree)
    (zs : List UInt8) :
    Appends zs (xs ++ bs) ((wbuf.copy bs).bind fun wbuf => some (none, wbuf)) := by
  obtain ⟨wbuf', hcopy, hholds, -⟩ := h.copy hle
  exact ⟨none, wbuf', by rw [hcopy]; rfl, Or.inl ⟨rfl, hholds⟩⟩

/-- **Copying in two parts**: what has been written into the free memory is taken back if there is no
memory for the rest. -/
theorem appendcopy_spec (mm : Mm) (h : Holds wbuf xs) (hlen : bs.length < 2 ^ 64) :
    Appends xs (xs ++ bs) (appendcopy mm wbuf bs) := by
  rw [appendcopy]
  dsimp only
  split
  case isTrue hle => exact h.appends_copy hle xs
  case isFalse hgt =>
    have htake : (bs.take wbuf.sizefree).length = wbuf.sizefree :=
      List.length_take_of_le (not_le.mp hgt).le
    have hfirst : ∃ wbuf₁, (if wbuf.sizefree ≠ 0 then wbuf.copy (bs.take wbuf.sizefree)
        else some wbuf) = some wbuf₁ ∧ Holds wbuf₁ (xs ++ bs.take wbuf.sizefree) := by
      split
      case isTrue =>
        obtain ⟨wbuf₁, hcopy, hholds, -⟩ := h.copy htake.le
        exact ⟨wbuf₁, hcopy, hholds⟩
      case isFalse h0 =>
        rw [not_not.mp h0, List.take_zero, List.append_nil]
        exact ⟨wbuf, rfl, h⟩
    obtain ⟨wbuf₁, hwbuf₁, hholds₁⟩ := hfirst
    obtain ⟨err, wbuf₂, halloc, hholds₂, hroom⟩ :=
      alloc_spec mm hholds₁ (Nat.sub_pos_of_lt (not_le.mp hgt))
        ((Nat.sub_le bs.length wbuf.sizefree).trans_lt hlen)
    rw [hwbuf₁, Option.bind_eq_bind, Option.bind_some, halloc]
    rcases hroom with ⟨rfl, hroom⟩ | rfl
    · have hdrop : (bs.drop wbuf.sizefree).length ≤ wbuf₂.sizefree :=
        List.length_drop.trans_le hroom
      have happ := hholds₂.appends_copy hdrop xs
      rwa [List.append_assoc, List.take_append_drop] at happ
    · have hnext : wbuf₂.next - wbuf.sizefree = wbuf₂.impl.block.addr + xs.length := by
        rw [hholds₂.next, List.length_append, htake]
        omega
      have hback := hholds₂.back (List.prefix_append xs _)
      rw [← hnext] at hback
      exact ⟨some .ENOMEM, _, rfl, Or.inr ⟨rfl, hback⟩⟩

theorem Holds.appends_after (h : Holds wbuf xs) (mm : Mm) {n : ℕ} {p : Prop} [Decidable p]
    (hp : p → n ≤ wbuf.sizefree) (hpos : ¬p → 0 < n) (hn : n < 2 ^ 64) :
    Allocates xs n (if p then some (none, wbuf) else alloc mm wbuf n) := by
  split
  case isTrue ht => exact ⟨none, wbuf, rfl, h, Or.inl ⟨rfl, hp ht⟩⟩
  case isFalse hf => exact alloc_spec mm h (hpos hf) hn

theorem appendbyte_spec (mm : Mm) (h : Holds wbuf xs) (c : UInt8) :
    Appends xs (xs ++ [c]) (appendbyte mm wbuf c) := by
  obtain ⟨err, wbuf₁, halloc, hholds₁, hroom⟩ :=
    h.appends_after mm (p := wbuf.sizefree ≠ 0) Nat.one_le_iff_ne_zero.mpr
      (fun _ => Nat.one_pos) (Nat.one_lt_two_pow (by decide))
  rw [appendbyte, halloc, Option.bind_eq_bind, Option.bind_some]
  rcases hroom with ⟨rfl, hroom⟩ | rfl
  · have hone : [c].length ≤ wbuf₁.sizefree := hroom
    exact hholds₁.appends_copy hone xs
  · exact ⟨some .ENOMEM, wbuf₁, rfl, Or.inr ⟨rfl, hholds₁⟩⟩

theorem appendfill_spec (mm : Mm) (h : Holds wbuf xs) (hlen : bs.length < 2 ^ 64) :
    Appends xs (xs ++ bs) (appendfill mm wbuf bs) := by
  obtain ⟨err, wbuf₁, halloc, hholds₁, hroom⟩ :=
    h.appends_after mm (p := bs.length ≤ wbuf.sizefree) id (fun hgt => by omega) hlen
  rw [appendfill, appendbytes, halloc]
  rcases hroom with ⟨rfl, hroom⟩ | rfl
  · obtain ⟨impl, hw, hholds₂⟩ := hholds₁.write hroom (wbuf₁.next + bs.length)
    exact ⟨none, _, congrArg (Option.bind · fun wbuf => some (none, wbuf)) hw,
      Or.inl ⟨rfl, hholds₂⟩⟩
  · exact ⟨some .ENOMEM, wbuf₁, rfl, Or.inr ⟨rfl, hholds₁⟩⟩

theorem shrink_spec (h : Holds wbuf xs) (n : ℕ) :
    xs.length < n ∧ shrink wbuf n = some (some .EINVAL, wbuf) ∨
      n ≤ xs.length ∧ ∃ wbuf', shrink wbuf n = some (none, wbuf') ∧ Holds wbuf' (xs.take n) := by
  have hsize : wbuf.next - wbuf.impl.block.addr = xs.length := h.size_eq
  rw [shrink, hsize]
  split
  case isTrue hlt => exact Or.inl ⟨hlt, rfl⟩
  case isFalse hge =>
    have hback := h.back (List.take_prefix n xs)
    rw [List.length_take_of_le (not_lt.mp hge)] at hback
    exact Or.inr ⟨not_lt.mp hge, _, rfl, hback⟩

theorem clear_spec (h : Holds wbuf xs) :
    ∃ wbuf', clear wbuf = some (none, wbuf') ∧ Holds wbuf' [] := by
  rcases shrink_spec h 0 with ⟨hlt, -⟩ | ⟨-, wbuf', hshrink, hholds⟩
  · exact absurd hlt (Nat.not_lt_zero _)
  · exact ⟨wbuf', by rw [clear, hshrink]; rfl, hholds⟩

/-! ## Runs -/

/-- The bytes that a pointer and a `size_t` stand for. -/
abbrev Bytes := {s : List UInt8 // s.length < 2 ^ 64}

/-- The calls of the functions. The caller of `appendbytes_wbuffer` fills the memory. -/
inductive Op
  | appendcopy (buffer : Bytes)
  | appendbyte (c : UInt8)
  | appendbytes (filled : Bytes)
  | shrink (newsize : ℕ)
  | clear

/-- A call, and the memory manager that it finds. -/
structure Call where
  mm : Mm
  op : Op

def exec (wbuf : Wbuffer) (call : Call) : Result :=
  match call.op with
  | .appendcopy buffer => appendcopy call.mm wbuf buffer.val
  | .appendbyte c => appendbyte call.mm wbuf c
  | .appendbytes filled => appendfill call.mm wbuf filled.val
  | .shrink newsize => shrink wbuf newsize
  | .clear => clear wbuf

/-- What an operation makes of a list. -/
def Op.apply (op : Op) (xs : List UInt8) : List UInt8 :=
  match op with
  | .appendcopy buffer => xs ++ buffer.val
  | .appendbyte c => xs ++ [c]
  | .appendbytes filled => xs ++ filled.val
  | .shrink newsize => xs.take newsize
  | .clear => []

/-- The errors of an operation on a list. -/
def Op.MayFail (op : Op) (xs : List UInt8) (err : Cstring.Errno) : Prop :=
  match op with
  | .appendcopy _ | .appendbyte _ | .appendbytes _ => err = .ENOMEM
  | .shrink newsize => err = .EINVAL ∧ xs.length < newsize
  | .clear => False

/-- The operations that cannot fail on a list. -/
def Op.Allowed (op : Op) (xs : List UInt8) : Prop :=
  match op with
  | .shrink newsize => newsize ≤ xs.length
  | _ => True

/-- The first `size_wbuffer` bytes of the wrapped object. -/
def content (wbuf : Wbuffer) : List UInt8 := wbuf.impl.block.bytes.take wbuf.size

/-- All along a run, the buffer equals a list, to which the calls without an error are applied. -/
def Follows : Wbuffer → List UInt8 → List Call → Prop
  | wbuf, xs, [] => wbuf.size = xs.length ∧ wbuf.content = xs
  | wbuf, xs, call :: calls =>
      (wbuf.size = xs.length ∧ wbuf.content = xs) ∧
      ∃ err wbuf', exec wbuf call = some (err, wbuf') ∧
        match err with
        | none => call.op.Allowed xs ∧ Follows wbuf' (call.op.apply xs) calls
        | some e => call.op.MayFail xs e ∧ Follows wbuf' xs calls

/-- **One call.** -/
theorem exec_spec (h : Holds wbuf xs) (call : Call) :
    ∃ err wbuf', exec wbuf call = some (err, wbuf') ∧
      match err with
      | none => call.op.Allowed xs ∧ Holds wbuf' (call.op.apply xs)
      | some e => call.op.MayFail xs e ∧ Holds wbuf' xs := by
  obtain ⟨mm, op⟩ := call
  cases op with
  | appendcopy buffer =>
    obtain ⟨_, wbuf', hr, ⟨rfl, hholds⟩ | ⟨rfl, hholds⟩⟩ := appendcopy_spec mm h buffer.property
    · exact ⟨none, wbuf', hr, True.intro, hholds⟩
    · exact ⟨some .ENOMEM, wbuf', hr, rfl, hholds⟩
  | appendbyte c =>
    obtain ⟨_, wbuf', hr, ⟨rfl, hholds⟩ | ⟨rfl, hholds⟩⟩ := appendbyte_spec mm h c
    · exact ⟨none, wbuf', hr, True.intro, hholds⟩
    · exact ⟨some .ENOMEM, wbuf', hr, rfl, hholds⟩
  | appendbytes filled =>
    obtain ⟨_, wbuf', hr, ⟨rfl, hholds⟩ | ⟨rfl, hholds⟩⟩ := appendfill_spec mm h filled.property
    · exact ⟨none, wbuf', hr, True.intro, hholds⟩
    · exact ⟨some .ENOMEM, wbuf', hr, rfl, hholds⟩
  | shrink newsize =>
    rcases shrink_spec h newsize with ⟨hlt, hr⟩ | ⟨hle, wbuf', hr, hholds⟩
    · exact ⟨some .EINVAL, wbuf, hr, ⟨rfl, hlt⟩, h⟩
    · exact ⟨none, wbuf', hr, hle, hholds⟩
  | clear =>
    obtain ⟨wbuf', hr, hholds⟩ := clear_spec h
    exact ⟨none, wbuf', hr, True.intro, hholds⟩

theorem Holds.follows (h : Holds wbuf xs) (calls : List Call) : Follows wbuf xs calls := by
  induction calls generalizing wbuf xs with
  | nil => exact ⟨h.size_eq, h.take_eq⟩
  | cons call calls ih =>
    obtain ⟨err, wbuf', hr, hnext⟩ := exec_spec h call
    refine ⟨⟨h.size_eq, h.take_eq⟩, err, wbuf', hr, ?_⟩
    cases err with
    | none => exact ⟨hnext.1, ih hnext.2⟩
    | some e => exact ⟨hnext.1, ih hnext.2⟩

/-- An object that can be wrapped. -/
structure Wrapped where
  impl : Impl
  valid : impl.Valid

end Wbuffer
end CKern
