import Mathlib.Data.Nat.Bitwise
import CKern.Library.Pieces
import CKern.Library.Refinement

/-!
# `io/reader/filereader.c`: reading a file into two buffers

* `init`, `readnext`, `release`, `unread`: the functions of the module.
* `Session`: the reader, the memory, and what a caller knows: the buffers that were returned and not
  unread, those that are held, and those that were unread.
* `Sound`: what the caller may rely on in a state.
* `sound_iff`: all states of a run are sound exactly if no buffer is unread at the end of a file
  whose size is a multiple of the size of a page.
-/

namespace CKern

open Pieces Refinement

namespace Filereader

/-! ## The functions -/

/-- The error codes of the module. -/
inductive Errno
  | EINVAL
  | ENODATA
  | ENOBUFS
  | EPIPE
  deriving DecidableEq, Repr

/-- `filereader_page_t`. -/
structure FilereaderPage where
  addr : ℕ
  size : ℕ
  deriving DecidableEq, Repr

/-- `filereader_page_FREE`. -/
def filereaderPageFree : FilereaderPage := ⟨0, 0⟩

/-- An open file: its bytes, and where the next read starts. -/
structure Iochannel where
  content : List UInt8
  pos : ℕ

/-- `memstream_ro_t`: the addresses of the first byte and behind the last one. -/
structure MemstreamRo where
  next : ℕ
  stop : ℕ
  deriving DecidableEq, Repr

/-- The bytes of a stream. -/
def MemstreamRo.bytes (buffer : MemstreamRo) (mem : Memory) : List UInt8 :=
  mem.read buffer.next (buffer.stop - buffer.next)

end Filereader

/-- `filereader_t`, with `false` and `true` for the values 0 and 1 of an index. -/
structure Filereader where
  ioerror : Option Filereader.Errno
  unreadsize : ℕ
  nextindex : Bool
  nrfreebuffer : ℕ
  fileoffset : ℕ
  filesize : ℕ
  file : Filereader.Iochannel
  page : Bool → Filereader.FilereaderPage

namespace Filereader

/-- `init_vmpage`: the size is rounded up to a multiple of the size of a page, and the memory is
mapped at the address `base`. -/
def initVmpage (pagesize base sizeInBytes : ℕ) : Except Errno FilereaderPage :=
  let size := sizeInBytes + (pagesize - 1)
  if sizeInBytes > 0 then .ok ⟨base, size - (size &&& (pagesize - 1))⟩ else .error .EINVAL

/-- `readall_iochannel` on a file: the next bytes are stored at `addr`. -/
def readall (ioc : Iochannel) (size addr : ℕ) (mem : Memory) :
    Except Errno Unit × Iochannel × Memory :=
  let bytes := (ioc.content.drop ioc.pos).take size
  (if 0 < size ∧ bytes.length = size then .ok () else .error .EPIPE,
    { ioc with pos := ioc.pos + bytes.length }, mem.write addr bytes)

/-- `sizebuffer_filereader`. -/
def sizebuffer (sysBufferSize pagesize : ℕ) : ℕ :=
  let minsize := 2 * pagesize
  if sysBufferSize ≥ minsize then sysBufferSize else minsize

/-- `initsinglebuffer_filereader`. -/
def initsinglebuffer (pagesize base bufsize : ℕ) : Except Errno FilereaderPage :=
  initVmpage pagesize base bufsize

/-- `initdoublebuffer_filereader`. -/
def initdoublebuffer (pagesize base bufsize : ℕ) : Except Errno (Bool → FilereaderPage) :=
  match initsinglebuffer pagesize base bufsize with
  | .error err => .error err
  | .ok page => .ok fun i =>
      if i then ⟨page.addr + bufsize / 2, bufsize / 2⟩ else ⟨page.addr, bufsize / 2⟩

/-- `initvariables_filereader`, with the file that is opened after it. -/
def initvariables (content : List UInt8) : Filereader where
  ioerror := none
  unreadsize := 0
  nextindex := false
  nrfreebuffer := 2
  fileoffset := 0
  filesize := content.length
  file := ⟨content, 0⟩
  page := fun _ => filereaderPageFree

/-- `init_filereader` for a file with the bytes `content`. -/
def init (sysBufferSize pagesize base : ℕ) (content : List UInt8) : Except Errno Filereader :=
  let bufsize := sizebuffer sysBufferSize pagesize
  let frd := initvariables content
  if frd.filesize ≤ bufsize then
    match initsinglebuffer pagesize base frd.filesize with
    | .error err => .error err
    | .ok page => .ok { frd with page := Function.update frd.page false page }
  else
    match initdoublebuffer pagesize base bufsize with
    | .error err => .error err
    | .ok page => .ok { frd with page := page }

/-- `readnext_filereader`: the buffer or the error, the reader and the memory. -/
def readnext (frd : Filereader) (mem : Memory) : Except Errno MemstreamRo × Filereader × Memory :=
  match frd.ioerror with
  | some err => (.error err, frd, mem)
  | none =>
    let unreadsize := frd.filesize - frd.fileoffset
    if unreadsize = 0 then (.error .ENODATA, frd, mem)
    else if frd.nrfreebuffer = 0 then (.error .ENOBUFS, frd, mem)
    else
      let bufferaddr := (frd.page frd.nextindex).addr
      let buffersize := if unreadsize < (frd.page frd.nextindex).size then unreadsize
        else (frd.page frd.nextindex).size
      let finish (frd : Filereader) (mem : Memory) :
          Except Errno MemstreamRo × Filereader × Memory :=
        (.ok ⟨bufferaddr, bufferaddr + buffersize⟩,
          { frd with
            unreadsize := frd.unreadsize - buffersize
            nextindex := !frd.nextindex
            nrfreebuffer := frd.nrfreebuffer - 1
            fileoffset := frd.fileoffset + buffersize }, mem)
      if frd.unreadsize = 0 then
        match readall frd.file buffersize bufferaddr mem with
        | (.error err, file, mem) => (.error err, { frd with ioerror := some err, file := file }, mem)
        | (.ok _, file, mem) => finish { frd with file := file, unreadsize := buffersize } mem
      else finish frd mem

/-- `release_filereader`. -/
def release (frd : Filereader) : Filereader :=
  if frd.nrfreebuffer < 2 then { frd with nrfreebuffer := frd.nrfreebuffer + 1 } else frd

/-- The size of the buffer that is unread, where `nextindex` is turned back to it already. -/
def bufferSize (frd : Filereader) : ℕ :=
  if frd.fileoffset = frd.filesize then
    if (frd.page frd.nextindex).size ≥ frd.filesize then frd.filesize
    else frd.filesize &&& ((frd.page frd.nextindex).size - 1)
  else (frd.page frd.nextindex).size

/-- `unread_filereader`. -/
def unread (frd : Filereader) : Filereader :=
  if frd.nrfreebuffer < 2 then
    let frd := { frd with nextindex := !frd.nextindex, nrfreebuffer := frd.nrfreebuffer + 1 }
    { frd with
      unreadsize := frd.unreadsize + bufferSize frd
      fileoffset := frd.fileoffset - bufferSize frd }
  else frd

/-! ## What a caller sees -/

/-- A call of the caller. -/
inductive Call
  | readnext
  | release
  | unread
  deriving DecidableEq, Repr

/-- The reader and the memory, and what a caller knows: `taken` are the bytes of the buffers that were
returned and not unread, `held` the buffers that are neither released nor unread, the oldest first,
and `pushed` those that were unread and not returned again, the next one first.  A buffer is kept
with the bytes that it had when it was returned. -/
structure Session where
  frd : Filereader
  mem : Memory
  taken : List (List UInt8)
  held : List (MemstreamRo × List UInt8)
  pushed : List (MemstreamRo × List UInt8)

/-- A session in which nothing was read. -/
def start (frd : Filereader) (mem : Memory) : Session := ⟨frd, mem, [], [], []⟩

/-- A step of a session, and what `readnext` returns. -/
def step (s : Session) : Call → Option (Except Errno MemstreamRo) × Session
  | .readnext =>
    match readnext s.frd s.mem with
    | (.ok buffer, frd, mem) =>
      (some (.ok buffer), ⟨frd, mem, s.taken ++ [buffer.bytes mem],
        s.held ++ [(buffer, buffer.bytes mem)], s.pushed.tail⟩)
    | (.error err, frd, mem) => (some (.error err), { s with frd := frd, mem := mem })
  | .release => (none, { s with frd := release s.frd, held := s.held.tail })
  | .unread =>
    match s.held.getLast? with
    | some buffer =>
      (none, ⟨unread s.frd, s.mem, s.taken.dropLast, s.held.dropLast, buffer :: s.pushed⟩)
    | none => (none, { s with frd := unread s.frd })

/-- What a caller may rely on in a state: the buffers returned and not unread are the file from its
start, a buffer that was unread is the next one to be returned, a buffer that is held has its bytes,
and `readnext` fails only at the end of the file or if two buffers are held. -/
structure Sound (content : List UInt8) (s : Session) : Prop where
  covers : s.taken.flatten <+: content
  again : ∀ b ∈ s.pushed.head?, ∃ frd mem,
    readnext s.frd s.mem = (.ok b.1, frd, mem) ∧ b.1.bytes mem = b.2
  kept : ∀ b ∈ s.held, b.1.bytes s.mem = b.2
  complete : ∀ err, (readnext s.frd s.mem).1 = .error err →
    (err = .ENODATA ∧ s.taken.flatten = content) ∨ (err = .ENOBUFS ∧ s.held.length = 2)

/-- A buffer is not unread at the end of a file that fills the pages, unless the file is read into
one buffer. -/
def UnreadOk (bufsize : ℕ) (s : Session) (call : Call) : Prop :=
  call = .unread → s.frd.nrfreebuffer < 2 → s.frd.fileoffset = s.frd.filesize →
    s.frd.filesize ≤ bufsize ∨ ¬ bufsize / 2 ∣ s.frd.filesize

instance (bufsize : ℕ) (s : Session) (call : Call) : Decidable (UnreadOk bufsize s call) :=
  inferInstanceAs (Decidable (call = .unread → s.frd.nrfreebuffer < 2 →
    s.frd.fileoffset = s.frd.filesize → s.frd.filesize ≤ bufsize ∨ ¬ bufsize / 2 ∣ s.frd.filesize))

/-! ## The states of a run

A state of a run is given by three numbers: `n` pieces are taken, `r` pieces were read from the file,
and `h` of the pieces before the `n`-th one are held. -/

section States

variable (content : List UInt8) (base P : ℕ) (page : Bool → FilereaderPage)

/-- The offset of a piece in the file. -/
def place (k : ℕ) : ℕ := min (k * P) content.length

/-- The address of a piece. -/
def addr (k : ℕ) : ℕ := base + if k.bodd then P else 0

/-- The buffer with a piece, and its bytes. -/
def buffer (k : ℕ) : MemstreamRo × List UInt8 :=
  (⟨addr base P k, addr base P k + (piece P content k).length⟩, piece P content k)

/-- The reader in a state of a run. -/
def readerAt (n r h : ℕ) : Filereader where
  ioerror := none
  unreadsize := place content P r - place content P n
  nextindex := n.bodd
  nrfreebuffer := 2 - h
  fileoffset := place content P n
  filesize := content.length
  file := ⟨content, place content P r⟩
  page := page

/-- The session in a state of a run. -/
def sessionAt (mem : Memory) (n r h : ℕ) : Session where
  frd := readerAt content P page n r h
  mem := mem
  taken := (List.range n).map (piece P content)
  held := (List.range' (n - h) h).map (buffer content base P)
  pushed := (List.range' n (r - n)).map (buffer content base P)

/-- The pages of the reader: one for the whole file, or two halves of the buffer. -/
structure Layout (bufsize : ℕ) : Prop where
  pos : 0 < P
  page_eq : ∀ k, k * P < content.length → page k.bodd = ⟨addr base P k, P⟩
  size : (content.length ≤ bufsize ∧ content.length ≤ P) ∨
    (bufsize < content.length ∧ bufsize = 2 * P ∧ ∃ e, P = 2 ^ e)

/-- The numbers of a state, and the pieces that are in the memory. -/
structure Legal (mem : Memory) (n r h : ℕ) : Prop where
  held_le : h ≤ n
  taken_le : n ≤ r
  two : r - n + h ≤ 2
  start_lt : ∀ k < r, k * P < content.length
  stored : ∀ k, n - h ≤ k → k < r →
    mem.read (addr base P k) (piece P content k).length = piece P content k

end States

variable {α : Type*} {content : List UInt8} {base P bufsize : ℕ} {page : Bool → FilereaderPage}
  {mem : Memory} {n r h k : ℕ}

theorem buffer_bytes (mem : Memory) (k : ℕ) :
    (buffer content base P k).1.bytes mem =
      mem.read (addr base P k) (piece P content k).length := by
  rw [MemstreamRo.bytes, buffer, Nat.add_sub_cancel_left]

theorem place_of_lt (h : k * P < content.length) : place content P k = k * P :=
  min_eq_left h.le

theorem place_succ_eq (h : k * P < content.length) :
    place content P (k + 1) = place content P k + (piece P content k).length := by
  rw [place, place, length_piece, place_succ h]

theorem place_mono {j k : ℕ} (h : j ≤ k) : place content P j ≤ place content P k :=
  min_le_min_right _ (Nat.mul_le_mul_right P h)

theorem length_piece_pos (hP : 0 < P) (h : k * P < content.length) :
    0 < (piece P content k).length := by
  rw [length_piece]
  omega

theorem place_lt_of_lt (hP : 0 < P) (h : n < r) (hlt : ∀ k < r, k * P < content.length) :
    place content P n < place content P r := by
  have hpos := length_piece_pos hP (hlt n h)
  have hsucc := place_succ_eq (hlt n h)
  have hmono : place content P (n + 1) ≤ place content P r := place_mono h
  omega

theorem take_drop_place (h : k * P < content.length) :
    (content.drop (place content P k)).take (piece P content k).length = piece P content k := by
  rw [place_of_lt h, length_piece, piece]
  rw [← List.length_drop, ← List.take_take, List.take_length]

/-! ## What the functions do in a state of a run -/

theorem release_readerAt (hh : h + 1 ≤ 2) :
    release (readerAt content P page n r (h + 1)) = readerAt content P page n r h := by
  have hfree : 2 - (h + 1) < 2 := by omega
  have hnext : 2 - (h + 1) + 1 = 2 - h := by omega
  simp only [release, readerAt, hfree, if_true, hnext]

/-- **`readnext_filereader`**: the end of the file, no buffer, a buffer that was unread, and a buffer
that is read from the file. -/
theorem readnext_readerAt (hlay : Layout content base P page bufsize)
    (hlegal : Legal content base P mem n r h) :
    readnext (readerAt content P page n r h) mem =
      if place content P n = content.length then
        (.error .ENODATA, readerAt content P page n r h, mem)
      else if h = 2 then (.error .ENOBUFS, readerAt content P page n r h, mem)
      else if n = r then
        (.ok (buffer content base P n).1, readerAt content P page (n + 1) (r + 1) (h + 1),
          mem.write (addr base P n) (piece P content n))
      else (.ok (buffer content base P n).1, readerAt content P page (n + 1) r (h + 1), mem) := by
  have hplace : place content P n ≤ content.length := min_le_right _ _
  have htwo := hlegal.two
  have hle := hlegal.taken_le
  by_cases heof : place content P n = content.length
  · have h0 : content.length - place content P n = 0 := by omega
    simp only [readnext, readerAt, eq_true heof, eq_true h0, if_true]
  have h0 : content.length - place content P n ≠ 0 := by omega
  by_cases hfull : h = 2
  · have hfree : 2 - h = 0 := by omega
    simp only [readnext, readerAt, heof, h0, eq_true hfull, eq_true hfree, if_true, if_false]
  have hfree : 2 - h ≠ 0 := by omega
  have hlt : n * P < content.length := by
    rw [place] at heof
    omega
  have hpage := hlay.page_eq n hlt
  have hsize : (if content.length - place content P n < P then content.length - place content P n
      else P) = (piece P content n).length := by
    rw [length_piece, place_of_lt hlt]
    split_ifs <;> omega
  have hpos := length_piece_pos hlay.pos hlt
  have hsucc := place_succ_eq hlt
  have hnum : 2 - h - 1 = 2 - (h + 1) := by omega
  by_cases hnr : n = r
  · subst hnr
    have hbytes := take_drop_place hlt
    have hnext : (Nat.bodd (n + 1)) = !n.bodd := Nat.bodd_succ n
    simp only [readnext, readerAt, heof, h0, hfull, hfree, hpage, hsize, Nat.sub_self, readall,
      hbytes, if_true, if_false, hpos, true_and, hnum, hsucc, hnext, buffer]
  · have hun : place content P r - place content P n ≠ 0 := by
      have hless : n < r := by omega
      have hpl := place_lt_of_lt hlay.pos hless hlegal.start_lt
      omega
    have hsub : place content P r - place content P n - (piece P content n).length =
        place content P r - place content P (n + 1) := by omega
    have hnext : (Nat.bodd (n + 1)) = !n.bodd := Nat.bodd_succ n
    simp only [readnext, readerAt, heof, h0, hfull, hfree, hpage, hsize, hun, hnr, hnum, hsub, hnext,
      buffer, hsucc, if_false]

theorem bufferSize_eq (hlay : Layout content base P page bufsize) (h : n * P < content.length)
    (frd : Filereader) (hindex : frd.page frd.nextindex = page n.bodd)
    (hsize : frd.filesize = content.length) (hoffset : frd.fileoffset = place content P (n + 1))
    (hok : frd.fileoffset = frd.filesize → content.length ≤ P ∨ ¬ P ∣ content.length) :
    bufferSize frd = (piece P content n).length := by
  have hmul : (n + 1) * P = n * P + P := Nat.succ_mul n P
  rw [bufferSize, hindex, hlay.page_eq n h, length_piece]
  rw [hoffset, hsize, place] at hok
  rw [hoffset, hsize, place]
  by_cases heof : min ((n + 1) * P) content.length = content.length
  · rw [if_pos heof]
    by_cases hge : P ≥ content.length
    · have hn : n * P = 0 := mul_eq_zero_of_lt (lt_of_lt_of_le h hge)
      rw [if_pos hge, hn]
      omega
    · rcases hok heof with hle | hdvd
      · exact absurd hle hge
      rcases hlay.size with ⟨-, hle⟩ | ⟨-, -, e, he⟩
      · exact absurd hle hge
      · have hne : (n + 1) * P ≠ content.length := fun heq => hdvd ⟨n + 1, by rw [← heq, Nat.mul_comm]⟩
        have hmod : content.length % P = content.length - n * P := by
          have hsplit : content.length = content.length - n * P + n * P := by omega
          rw [hsplit, Nat.add_mul_mod_self_right, Nat.mod_eq_of_lt (by omega)]
          omega
        rw [if_neg hge, he, Nat.and_two_pow_sub_one_eq_mod, ← he, hmod]
        omega
  · rw [if_neg heof]
    dsimp only
    omega

theorem unread_readerAt_eq (hh : h + 1 ≤ 2) :
    unread (readerAt content P page (n + 1) r (h + 1)) =
      let frd := { readerAt content P page (n + 1) r (h + 1) with
        nextindex := n.bodd, nrfreebuffer := 2 - h }
      { frd with
        unreadsize := frd.unreadsize + bufferSize frd
        fileoffset := frd.fileoffset - bufferSize frd } := by
  have hfree : 2 - (h + 1) < 2 := by omega
  have hnext : 2 - (h + 1) + 1 = 2 - h := by omega
  have hturn : (!Nat.bodd (n + 1)) = n.bodd := by rw [Nat.bodd_succ, Bool.not_not]
  simp only [unread, readerAt, hfree, if_true, hnext, hturn]

/-- **`unread_filereader`**: the last buffer is not taken any more. -/
theorem unread_readerAt (hlay : Layout content base P page bufsize)
    (hlegal : Legal content base P mem (n + 1) r (h + 1))
    (hok : place content P (n + 1) = content.length →
      content.length ≤ P ∨ ¬ P ∣ content.length) :
    unread (readerAt content P page (n + 1) r (h + 1)) = readerAt content P page n r h := by
  have htwo := hlegal.two
  have hlt : n * P < content.length := hlegal.start_lt n (by have := hlegal.taken_le; omega)
  have hsucc := place_succ_eq hlt
  have hmono : place content P (n + 1) ≤ place content P r := place_mono hlegal.taken_le
  rw [unread_readerAt_eq (by omega)]
  have hsize := bufferSize_eq hlay hlt
    { readerAt content P page (n + 1) r (h + 1) with
      nextindex := n.bodd, nrfreebuffer := 2 - h } rfl rfl rfl hok
  have hun : place content P r - place content P (n + 1) + (piece P content n).length =
      place content P r - place content P n := by omega
  have hoff : place content P (n + 1) - (piece P content n).length = place content P n := by omega
  dsimp only
  rw [hsize]
  simp only [readerAt, hun, hoff]

/-! ## Steps of a session -/

theorem held_concat (h : k ≤ n) (f : ℕ → α) :
    (List.range' (n + 1 - (k + 1)) (k + 1)).map f = (List.range' (n - k) k).map f ++ [f n] := by
  have hidx : n - k + 1 * k = n := by omega
  rw [Nat.add_sub_add_right, List.range'_concat, List.map_append, List.map_singleton, hidx]

theorem pushed_cons (h : n < r) (f : ℕ → α) :
    (List.range' n (r - n)).map f = f n :: (List.range' (n + 1) (r - (n + 1))).map f := by
  have hsub : r - n = r - (n + 1) + 1 := by omega
  rw [hsub, List.range'_succ, List.map_cons]

theorem taken_concat (n : ℕ) (f : ℕ → α) :
    (List.range (n + 1)).map f = (List.range n).map f ++ [f n] := by
  rw [List.range_succ, List.map_append, List.map_singleton]

theorem read_write_succ (mem : Memory) (n : ℕ) :
    (mem.write (addr base P (n + 1)) (piece P content (n + 1))).read (addr base P n)
      (piece P content n).length = mem.read (addr base P n) (piece P content n).length := by
  have hn : (piece P content n).length ≤ P := by
    rw [length_piece]
    exact min_le_left _ _
  have hsucc : (piece P content (n + 1)).length ≤ P := by
    rw [length_piece]
    exact min_le_left _ _
  refine Memory.read_write_of_disjoint mem ?_
  rw [addr, addr, Nat.bodd_succ]
  cases n.bodd with
  | false =>
    left
    simp only [Bool.not_false, if_true, Bool.false_eq_true, if_false]
    omega
  | true =>
    right
    simp only [Bool.not_true, if_true, Bool.false_eq_true, if_false]
    omega

theorem Legal.read (hlegal : Legal content base P mem n r h) (h2 : h ≠ 2)
    (hlt : n * P < content.length) (hnr : n = r) :
    Legal content base P (mem.write (addr base P n) (piece P content n)) (n + 1) (r + 1) (h + 1) := by
  subst hnr
  have hheld := hlegal.held_le
  have htwo := hlegal.two
  refine ⟨by omega, le_refl _, by omega, fun k hk => mul_lt_of_lt hlt (by omega), fun k hk hk' => ?_⟩
  rcases Nat.lt_or_ge k n with hkn | hkn
  · obtain ⟨m, rfl⟩ : ∃ m, n = m + 1 := ⟨n - 1, by omega⟩
    have hkm : k = m := by omega
    subst hkm
    rw [read_write_succ]
    exact hlegal.stored k (by omega) (by omega)
  · have hkn' : k = n := by omega
    subst hkn'
    exact Memory.read_write mem _ _

theorem Legal.again (hlegal : Legal content base P mem n r h) (hnr : n < r) :
    Legal content base P mem (n + 1) r (h + 1) := by
  have hheld := hlegal.held_le
  have htwo := hlegal.two
  exact ⟨by omega, hnr, by omega, hlegal.start_lt, fun k hk hk' => hlegal.stored k (by omega) hk'⟩

theorem Legal.release (hlegal : Legal content base P mem n r (h + 1)) :
    Legal content base P mem n r h := by
  have hheld := hlegal.held_le
  have htwo := hlegal.two
  exact ⟨by omega, hlegal.taken_le, by omega, hlegal.start_lt,
    fun k hk hk' => hlegal.stored k (by omega) hk'⟩

theorem Legal.unread (hlegal : Legal content base P mem (n + 1) r (h + 1)) :
    Legal content base P mem n r h := by
  have hheld := hlegal.held_le
  have htwo := hlegal.two
  have hle := hlegal.taken_le
  exact ⟨by omega, by omega, by omega, hlegal.start_lt,
    fun k hk hk' => hlegal.stored k (by omega) hk'⟩

/-- The states that a run reaches. -/
def Reached (content : List UInt8) (base P bufsize : ℕ) (page : Bool → FilereaderPage)
    (s : Session) : Prop :=
  Layout content base P page bufsize ∧
    ∃ mem n r h, Legal content base P mem n r h ∧ s = sessionAt content base P page mem n r h

theorem step_readnext (hlay : Layout content base P page bufsize)
    (hlegal : Legal content base P mem n r h) :
    Reached content base P bufsize page (step (sessionAt content base P page mem n r h) .readnext).2 := by
  have hread := readnext_readerAt hlay hlegal
  by_cases heof : place content P n = content.length
  · rw [if_pos heof] at hread
    refine ⟨hlay, mem, n, r, h, hlegal, ?_⟩
    simp only [step, sessionAt, hread]
  have hlt : n * P < content.length := by
    rw [place] at heof
    have hmin : min (n * P) content.length ≤ content.length := min_le_right _ _
    omega
  rw [if_neg heof] at hread
  by_cases h2 : h = 2
  · rw [if_pos h2] at hread
    refine ⟨hlay, mem, n, r, h, hlegal, ?_⟩
    simp only [step, sessionAt, hread]
  rw [if_neg h2] at hread
  by_cases hnr : n = r
  · rw [if_pos hnr] at hread
    refine ⟨hlay, _, n + 1, r + 1, h + 1, hlegal.read h2 hlt hnr, ?_⟩
    subst hnr
    have hbytes : (buffer content base P n).1.bytes
        (mem.write (addr base P n) (piece P content n)) = piece P content n := by
      rw [buffer_bytes, Memory.read_write]
    simp only [step, sessionAt, hread, hbytes, held_concat hlegal.held_le, taken_concat]
    simp [buffer]
  · rw [if_neg hnr] at hread
    have hless : n < r := lt_of_le_of_ne hlegal.taken_le hnr
    refine ⟨hlay, mem, n + 1, r, h + 1, hlegal.again hless, ?_⟩
    have hbytes : (buffer content base P n).1.bytes mem = piece P content n := by
      rw [buffer_bytes, hlegal.stored n (Nat.sub_le n h) hless]
    simp only [step, sessionAt, hread, hbytes, held_concat hlegal.held_le, taken_concat,
      pushed_cons hless, List.tail_cons]
    rfl

theorem step_release (hlay : Layout content base P page bufsize)
    (hlegal : Legal content base P mem n r h) :
    Reached content base P bufsize page (step (sessionAt content base P page mem n r h) .release).2 := by
  cases h with
  | zero => exact ⟨hlay, mem, n, r, 0, hlegal, rfl⟩
  | succ h =>
    have htwo := hlegal.two
    have hheld := hlegal.held_le
    have hidx : n - (h + 1) + 1 = n - h := by omega
    refine ⟨hlay, mem, n, r, h, hlegal.release, ?_⟩
    simp only [step, sessionAt]
    rw [release_readerAt (by omega), List.range'_succ, List.map_cons, List.tail_cons, hidx]

theorem step_unread (hlay : Layout content base P page bufsize)
    (hlegal : Legal content base P mem n r h)
    (hok : UnreadOk bufsize (sessionAt content base P page mem n r h) .unread) :
    Reached content base P bufsize page (step (sessionAt content base P page mem n r h) .unread).2 := by
  cases h with
  | zero => exact ⟨hlay, mem, n, r, 0, hlegal, rfl⟩
  | succ h =>
    have htwo := hlegal.two
    have hheld := hlegal.held_le
    obtain ⟨n, rfl⟩ : ∃ m, n = m + 1 := ⟨n - 1, by omega⟩
    have hcond : place content P (n + 1) = content.length →
        content.length ≤ P ∨ ¬ P ∣ content.length := by
      intro heof
      have hfree : 2 - (h + 1) < 2 := by omega
      rcases hlay.size with ⟨-, hle⟩ | ⟨hbuf, hP, -⟩
      · exact Or.inl hle
      · have hhalf : bufsize / 2 = P := by omega
        rcases hok rfl hfree heof with hle | hdvd
        · exact absurd hle (by
            change ¬ content.length ≤ bufsize
            omega)
        · rw [hhalf] at hdvd
          exact Or.inr hdvd
    refine ⟨hlay, mem, n, r, h, hlegal.unread, ?_⟩
    simp only [step, sessionAt, held_concat (by omega : h ≤ n), List.getLast?_concat, taken_concat,
      List.dropLast_concat]
    rw [unread_readerAt hlay hlegal hcond, pushed_cons (show n < r from hlegal.taken_le)]

/-! ## What holds in a state -/

theorem sound_sessionAt (hlay : Layout content base P page bufsize)
    (hlegal : Legal content base P mem n r h) :
    Sound content (sessionAt content base P page mem n r h) := by
  have hread := readnext_readerAt hlay hlegal
  have hmin : place content P n ≤ content.length := min_le_right _ _
  refine ⟨?_, ?_, ?_, ?_⟩
  · rw [sessionAt, flatten_pieces]
    exact List.take_prefix _ _
  · intro b hb
    rw [sessionAt] at hb
    rcases Nat.eq_or_lt_of_le hlegal.taken_le with hnr | hnr
    · subst hnr
      simp at hb
    rw [pushed_cons hnr] at hb
    obtain rfl : buffer content base P n = b := by simpa using hb
    have htwo := hlegal.two
    have heof : place content P n ≠ content.length := by
      have hpl := place_lt_of_lt hlay.pos hnr hlegal.start_lt
      have hmin' : place content P r ≤ content.length := min_le_right _ _
      omega
    rw [if_neg heof, if_neg (by omega), if_neg (by omega)] at hread
    refine ⟨_, _, hread, ?_⟩
    rw [buffer_bytes]
    exact hlegal.stored n (Nat.sub_le n h) hnr
  · intro b hb
    rw [sessionAt] at hb
    obtain ⟨k, hk, rfl⟩ := List.mem_map.mp hb
    have hheld := hlegal.held_le
    have hle := hlegal.taken_le
    rw [List.mem_range'_1] at hk
    rw [buffer_bytes]
    exact hlegal.stored k hk.1 (by omega)
  · intro err herr
    change (readnext (readerAt content P page n r h) mem).1 = .error err at herr
    rw [hread] at herr
    split_ifs at herr with heof h2 hnr
    · refine Or.inl ⟨by simpa using herr.symm, ?_⟩
      rw [place, min_eq_right_iff] at heof
      rw [sessionAt, flatten_pieces, List.take_of_length_le heof]
    · refine Or.inr ⟨by simpa using herr.symm, ?_⟩
      rw [sessionAt, List.length_map, List.length_range', h2]

theorem readnext_of_eof (frd : Filereader) (mem : Memory) (herr : frd.ioerror = none)
    (heof : frd.filesize ≤ frd.fileoffset) :
    (readnext frd mem).1 = .error .ENODATA := by
  have h0 : frd.filesize - frd.fileoffset = 0 := by omega
  simp only [readnext, herr, h0, if_true]

/-- **A whole page that is unread at the end of the file is lost**: its size is computed as 0. -/
theorem not_sound_step_unread (hlay : Layout content base P page bufsize)
    (hlegal : Legal content base P mem n r h) (hfree : 2 - h < 2)
    (heof : place content P n = content.length) (hbuf : bufsize < content.length)
    (hdvd : bufsize / 2 ∣ content.length) :
    ¬ Sound content (step (sessionAt content base P page mem n r h) .unread).2 := by
  intro hsound
  obtain ⟨h, rfl⟩ : ∃ m, h = m + 1 := ⟨h - 1, by omega⟩
  have htwo := hlegal.two
  have hheld := hlegal.held_le
  obtain ⟨n, rfl⟩ : ∃ m, n = m + 1 := ⟨n - 1, by omega⟩
  have hlt : n * P < content.length := hlegal.start_lt n hlegal.taken_le
  rcases hlay.size with ⟨hle, -⟩ | ⟨-, hP, e, he⟩
  · omega
  have hhalf : bufsize / 2 = P := by omega
  rw [hhalf] at hdvd
  have hzero : bufferSize { readerAt content P page (n + 1) r (h + 1) with
      nextindex := n.bodd, nrfreebuffer := 2 - h } = 0 := by
    have hge : ¬ P ≥ content.length := by omega
    have hmod : content.length &&& (P - 1) = 0 := by
      rw [he, Nat.and_two_pow_sub_one_eq_mod, ← he]
      exact Nat.mod_eq_zero_of_dvd hdvd
    simp only [bufferSize, readerAt, heof, if_true, hlay.page_eq n hlt, hge, if_false, hmod]
  have hstep : (step (sessionAt content base P page mem (n + 1) r (h + 1)) .unread).2 =
      ⟨unread (readerAt content P page (n + 1) r (h + 1)), mem,
        (List.range n).map (piece P content), (List.range' (n - h) h).map (buffer content base P),
        buffer content base P n ::
          (List.range' (n + 1) (r - (n + 1))).map (buffer content base P)⟩ := by
    simp only [step, sessionAt, held_concat (by omega : h ≤ n), List.getLast?_concat, taken_concat,
      List.dropLast_concat]
  rw [hstep] at hsound
  obtain ⟨frd, mem', hread, -⟩ := hsound.again _ rfl
  have hend : (readnext (unread (readerAt content P page (n + 1) r (h + 1))) mem).1 =
      .error .ENODATA := by
    refine readnext_of_eof _ _ ?_ ?_
    · rw [unread_readerAt_eq (by omega)]
      rfl
    · rw [unread_readerAt_eq (by omega)]
      dsimp only
      rw [hzero]
      exact heof.ge
  rw [hread] at hend
  exact absurd hend (by simp)

/-! ## Runs -/

theorem exists_sizebuffer (i j : ℕ) : ∃ e, sizebuffer (2 ^ i) (2 ^ j) = 2 * 2 ^ e := by
  rw [sizebuffer]
  split_ifs with hge
  · have hpos : 0 < 2 ^ j := Nat.two_pow_pos j
    cases i with
    | zero =>
      rw [pow_zero] at hge
      omega
    | succ i => exact ⟨i, by rw [pow_succ, Nat.mul_comm]⟩
  · exact ⟨j, rfl⟩

theorem initVmpage_ok {pagesize size : ℕ} {p : FilereaderPage}
    (h : initVmpage pagesize base size = .ok p) : 0 < size ∧ p.addr = base ∧ size ≤ p.size := by
  rw [initVmpage] at h
  split_ifs at h with hpos
  have hand : (size + (pagesize - 1)) &&& (pagesize - 1) ≤ pagesize - 1 := Nat.and_le_right
  obtain rfl := Except.ok.inj h
  exact ⟨hpos, rfl, by
    dsimp only
    omega⟩

theorem init_ok {i j : ℕ} {frd : Filereader}
    (h : init (2 ^ i) (2 ^ j) base content = .ok frd) :
    ∃ P page, Layout content base P page (sizebuffer (2 ^ i) (2 ^ j)) ∧
      frd = readerAt content P page 0 0 0 := by
  obtain ⟨e, he⟩ := exists_sizebuffer i j
  have hplace : ∀ P, place content P 0 = 0 := fun P => by rw [place, Nat.zero_mul, Nat.zero_min]
  rw [init] at h
  split_ifs at h with hsize
  · have hsize' : content.length ≤ sizebuffer (2 ^ i) (2 ^ j) := hsize
    cases hinit : initsinglebuffer (2 ^ j) base (initvariables content).filesize with
    | error err =>
      rw [hinit] at h
      exact absurd h (by simp)
    | ok p =>
      rw [hinit] at h
      obtain ⟨hpos, haddr, hle⟩ := initVmpage_ok hinit
      have hle' : content.length ≤ p.size := hle
      have hpos' : 0 < content.length := hpos
      refine ⟨p.size, Function.update (fun _ => filereaderPageFree) false p,
        ⟨by omega, fun k hk => ?_, Or.inl ⟨hsize', hle'⟩⟩, ?_⟩
      · have hk0 : k = 0 := by
          rcases Nat.eq_zero_or_pos k with h0 | hkpos
          · exact h0
          · have hP : p.size ≤ k * p.size := Nat.le_mul_of_pos_left _ hkpos
            omega
        subst hk0
        rw [Nat.bodd_zero, Function.update_self, addr, Nat.bodd_zero, ← haddr]
        rfl
      · obtain rfl := Except.ok.inj h
        simp only [readerAt, initvariables, hplace, Nat.bodd_zero]
  · have hsize' : sizebuffer (2 ^ i) (2 ^ j) < content.length := Nat.lt_of_not_le hsize
    have hhalf : sizebuffer (2 ^ i) (2 ^ j) / 2 = 2 ^ e := by omega
    cases hinit : initsinglebuffer (2 ^ j) base (sizebuffer (2 ^ i) (2 ^ j)) with
    | error err =>
      rw [initdoublebuffer, hinit] at h
      exact absurd h (by simp)
    | ok p =>
      rw [initdoublebuffer, hinit] at h
      obtain ⟨-, haddr, -⟩ := initVmpage_ok hinit
      obtain rfl := Except.ok.inj h
      refine ⟨2 ^ e, fun i => if i then ⟨p.addr + 2 ^ e, 2 ^ e⟩ else ⟨p.addr, 2 ^ e⟩,
        ⟨Nat.two_pow_pos e, fun k hk => ?_, Or.inr ⟨hsize', he, e, rfl⟩⟩, ?_⟩
      · rw [addr, haddr]
        cases k.bodd <;> rfl
      · simp only [readerAt, initvariables, hplace, Nat.bodd_zero, hhalf]

theorem reached_start (hlay : Layout content base P page bufsize) (mem : Memory) :
    Reached content base P bufsize page (start (readerAt content P page 0 0 0) mem) :=
  ⟨hlay, mem, 0, 0, 0, ⟨le_refl 0, le_refl 0, Nat.zero_le 2, fun k hk => absurd hk (Nat.not_lt_zero k),
    fun k _ hk => absurd hk (Nat.not_lt_zero k)⟩, rfl⟩

/-- **Reading with two buffers**: in all states of a run, the buffers returned and not unread are the
file from its start, a buffer that was unread is returned again, the buffers that are held are not
overwritten, and `readnext` finds no data only at the end of the file, exactly if no buffer is unread
at the end of a file that is read into two buffers and fills them. -/
theorem sound_iff (i j : ℕ) (base : ℕ) (content : List UInt8) (mem : Memory) (frd : Filereader)
    (h : init (2 ^ i) (2 ^ j) base content = .ok frd) (calls : List Call) :
    (∀ k, Sound content (run step (start frd mem) (calls.take k)).2) ↔
      Along step (UnreadOk (sizebuffer (2 ^ i) (2 ^ j))) (start frd mem) calls := by
  obtain ⟨P, page, hlay, rfl⟩ := init_ok h
  refine forall_run_take_iff (R := Reached content base P (sizebuffer (2 ^ i) (2 ^ j)) page) ?_ ?_ ?_
    (reached_start hlay mem) calls
  · rintro s ⟨-, mem, n, r, h, hlegal, rfl⟩
    exact sound_sessionAt hlay hlegal
  · rintro s call ⟨-, mem, n, r, h, hlegal, rfl⟩ hok
    cases call with
    | readnext => exact step_readnext hlay hlegal
    | release => exact step_release hlay hlegal
    | unread => exact step_unread hlay hlegal hok
  · rintro s call ⟨-, mem, n, r, h, hlegal, rfl⟩ hok
    simp only [UnreadOk, not_forall, not_or, not_not] at hok
    obtain ⟨rfl, hfree, heof, hbuf, hdvd⟩ := hok
    exact not_sound_step_unread hlay hlegal hfree heof (Nat.lt_of_not_le hbuf) hdvd

/-- A file of five bytes, read into pages of two bytes. -/
theorem sound_five : ∃ frd, init (2 ^ 2) (2 ^ 1) 16 [1, 2, 3, 4, 5] = .ok frd ∧
    ∀ k, Sound [1, 2, 3, 4, 5] (run step (start frd fun _ => 0)
      ([.readnext, .release, .readnext, .readnext, .unread, .unread, .readnext].take k)).2 :=
  ⟨_, rfl, (sound_iff 2 1 16 [1, 2, 3, 4, 5] (fun _ => 0) _ rfl
    [.readnext, .release, .readnext, .readnext, .unread, .unread, .readnext]).mpr (by decide)⟩

/-- A file of six bytes, read into pages of two bytes: its last page is lost if it is unread. -/
theorem not_sound_six : ¬ ∀ (i j base : ℕ) (content : List UInt8) (mem : Memory) (frd : Filereader),
    init (2 ^ i) (2 ^ j) base content = .ok frd → ∀ (calls : List Call) (k : ℕ),
      Sound content (run step (start frd mem) (calls.take k)).2 := by
  intro hall
  have hsound := hall 2 1 16 [1, 2, 3, 4, 5, 6] (fun _ => 0) _ rfl
    [.readnext, .release, .readnext, .release, .readnext, .unread] 6
  obtain ⟨frd, mem, hread, -⟩ := hsound.again _ rfl
  have hend : Except.error Errno.ENODATA = Except.ok _ := congrArg Prod.fst hread
  exact absurd hend (by simp)

end Filereader
end CKern
