import CKern.Io.Iosys.Iothread

/-!
# Reading a file in the background (`io/iosys/iobuffer.c`)

* `start_reading`, `queueNext`: the tasks that read the pieces of the file, in a ring of three
  buffers.
* `reader`: the next step of a call of `readnext_iobufferstream`.
* `exec`: a step of the I/O thread, which reads a fixed file, or of the reader.
* `steps_delivers`: the blocks are the pieces of the file if the I/O thread never reports a part of
  a piece as the whole one.
-/

namespace CKern
namespace IobufferStream

open Interleaving Iothread Pieces

/-! ## The stream -/

/-- `iobuffer_t` -/
structure Iobuffer where
  addr : ℕ
  size : ℕ

/-- What a call of `readnext_iobufferstream` returns. -/
inductive Outcome
  | block (size addr : ℕ)
  | ENODATA
  | err (e : ℕ)
  deriving DecidableEq, Repr

/-- The place of the reader: in `init_iobufferstream`, between two calls, or in a call. -/
inductive Pc
  | start
  | startResume
  | idle
  | check
  | wait
  | queue
  | resume
  | leave
  deriving DecidableEq, Repr

/-- `iobuffer_stream_t` with its I/O thread and the reader, the number of events that it has waited
for, and the results of its calls. -/
structure Stream where
  iothread : Iothread.State (Fin 3) Unit Unit
  buffer : Fin 3 → Iobuffer
  nextbuffer : Fin 3
  filesize : ℕ
  readpos : ℕ
  pc : Pc
  waits : ℕ
  results : List Outcome

def Stream.iotask (s : Stream) (i : Fin 3) : Iotask Unit := s.iothread.task i

/-- A task of the stream is changed by its owner. -/
def Stream.modify (s : Stream) (i : Fin 3) (f : Iotask Unit → Iotask Unit) : Stream :=
  { s with iothread := s.iothread.modify i f }

/-- `insertiotask_iothread`, and whether the I/O thread has to be resumed. -/
def Stream.insert (s : Stream) (iot : List (Fin 3)) : Stream × Bool :=
  let r := insertlast_iolist s.iothread iot
  ({ s with iothread := r.1 }, r.2)

/-- A task reads the next piece: `setsize_iotask` if there is less than a buffer, and
`setoffset_iotask`. -/
def Stream.nextPiece (s : Stream) (i : Fin 3) : Stream :=
  let size := (s.buffer i).size
  let rest := s.filesize - s.readpos
  let r :=
    if size > rest then (s.modify i fun iot => { iot with bufsize := rest }, rest) else (s, size)
  let s := r.1.modify i fun iot => { iot with offset := s.readpos }
  { s with readpos := s.readpos + r.2 }

/-- `initreadp_iotask` -/
def initreadp_iotask (buffer : Iobuffer) : Iotask Unit :=
  { result := .err 0
    state := .NULL
    op := ioop_READ
    offset := 0
    bufaddr := buffer.addr
    bufsize := buffer.size
    readycount := some () }

/-- The loop of `start_reading` over the tasks `nrtask` up to `nrtask + n`. -/
def startLoop : ℕ → ℕ → Stream → ℕ × Stream
  | 0, nrtask, s => (nrtask, s)
  | n + 1, nrtask, s =>
    if s.filesize - s.readpos ≠ 0 then startLoop n (nrtask + 1) (s.nextPiece (Fin.ofNat 3 nrtask))
    else (nrtask, s)

/-- `start_reading`: all tasks but the last one are inserted, as long as there are data. -/
def start_reading (s : Stream) : Stream × Bool :=
  let r := startLoop 2 0 { s with nextbuffer := 0, readpos := 0 }
  r.2.insert ((List.range r.1).map (Fin.ofNat 3))

/-- The part of `readnext_iobufferstream` that queues the next task: the one before the current one,
whose buffer was returned by the call before. -/
def queueNext (s : Stream) : Stream × Bool :=
  let prev := s.nextbuffer - 1
  (s.nextPiece prev).insert [prev]

/-- The member `err` of the union. -/
def err : Result → ℕ
  | .err e => e
  | .bytesrw n => n

/-- The next step of the reader. -/
def reader (s : Stream) : Option Stream :=
  match s.pc with
  | .start =>
    let r := start_reading s
    some { r.1 with pc := if r.2 then .startResume else .idle }
  | .startResume =>
    some { s with iothread := { s.iothread with resumed := true }, pc := .idle }
  | .idle =>
    if (s.iotask s.nextbuffer).state = .NULL then
      some { s with results := s.results ++ [.ENODATA] }
    else some { s with pc := .check }
  | .check =>
    if (s.iotask s.nextbuffer).state = .QUEUED then some { s with pc := .wait }
    else if (s.iotask s.nextbuffer).state ≠ .OK then
      some { s with
        results := s.results ++ [.err (err (s.iotask s.nextbuffer).result)]
        pc := .idle }
    else
      let block := .block (s.iotask s.nextbuffer).bufsize (s.iotask s.nextbuffer).bufaddr
      some { s.modify s.nextbuffer fun iot => { iot with state := .NULL } with
        results := s.results ++ [block]
        pc := if s.readpos < s.filesize then .queue else .leave }
  | .wait =>
    if s.waits < s.iothread.eventcount () then some { s with waits := s.waits + 1, pc := .check }
    else none
  | .queue =>
    let r := queueNext s
    some { r.1 with pc := if r.2 then .resume else .leave }
  | .resume =>
    some { s with iothread := { s.iothread with resumed := true }, pc := .leave }
  | .leave => some { s with nextbuffer := s.nextbuffer + 1, pc := .idle }

/-! ## Runs -/

/-- The outcome of a `pread` of the I/O thread. -/
inductive Pread
  | bytes (n : ℕ)
  | error (errno : ℕ)

/-- What a `pread` of the file delivers to the I/O thread; only a failing one sets `errno`. -/
def pread (file : Memory) (s : Stream) : Pread → Option Sys
  | .error errno => if errno ≠ 0 then some (.error errno) else none
  | .bytes n =>
    match s.iothread.pc with
    | .io iot off => some (.read (file.read ((s.iotask iot).offset.toNat + off) n))
    | _ => some (.read [])

/-- Who takes a step. -/
inductive Thread
  | iothread
  | reader
  deriving DecidableEq, Repr

/-- A step of the I/O thread or of the reader. -/
def exec (file : Memory) (s : Stream) : Thread → Pread → Option Stream
  | .iothread, r => do
    let r ← pread file s r
    let iothread ← worker s.iothread r
    return { s with iothread }
  | .reader, _ => reader s

/-- The state behind `init_iothread` in `init_iobufferstream`. -/
def init (buffer : Fin 3 → Iobuffer) (filesize : ℕ) (mem : Memory) : Stream where
  iothread := Iothread.start (fun i => initreadp_iotask (buffer i)) mem
  buffer := buffer
  nextbuffer := 0
  filesize := filesize
  readpos := 0
  pc := .start
  waits := 0
  results := []

/-- A `pread` of the I/O thread delivers some bytes, or fails before any of its task. -/
def Whole (s : Stream) : Thread → Pread → Prop
  | .iothread, r =>
    match s.iothread.pc, r with
    | .io _ _, .bytes n => n ≠ 0
    | .io _ off, .error _ => off = 0
    | _, _ => True
  | .reader, _ => True

/-! ## What is claimed -/

/-- The number of bytes of the returned blocks. -/
def delivered : List Outcome → ℕ
  | [] => 0
  | .block size _ :: rs => size + delivered rs
  | _ :: rs => delivered rs

/-- Until its next call the reader has a block with the next piece of the file, in no buffer of a
queued task.  The end is reported behind the last byte, an error again and again, and a wait
for a finished task comes to its end. -/
structure Delivers (file : Memory) (s : Stream) : Prop where
  block : ∀ rs size addr, s.results = rs ++ [.block size addr] → s.pc = .idle →
    0 < size ∧ delivered rs + size ≤ s.filesize ∧
      s.iothread.mem.read addr size = file.read (delivered rs) size
  owned : ∀ rs size addr, s.results = rs ++ [.block size addr] → s.pc = .idle →
    ∀ i, (s.iotask i).state = .QUEUED →
      (s.iotask i).bufaddr + (s.iotask i).bufsize ≤ addr ∨ addr + size ≤ (s.iotask i).bufaddr
  enodata : .ENODATA ∈ s.results → delivered s.results = s.filesize
  err : ∀ rs rs' e, s.results = rs ++ .err e :: rs' → ∀ r ∈ rs', r = .err e
  waiting : s.pc = .wait → (s.iotask s.nextbuffer).state ≠ .QUEUED →
    s.waits < s.iothread.eventcount () ∨ ∃ i, s.iothread.pc = .count i

/-- The buffers of a stream. -/
structure Valid (buffer : Fin 3 → Iobuffer) : Prop where
  addr : ∀ i, (buffer i).addr ≠ 0
  size : ∀ i, 0 < (buffer i).size
  disjoint : ∀ i j, i ≠ j → (buffer i).addr + (buffer i).size ≤ (buffer j).addr ∨
    (buffer j).addr + (buffer j).size ≤ (buffer i).addr

/-! ## The pieces of the file -/

/-- The buffer of a piece. -/
def idx (i : ℕ) : Fin 3 := Fin.ofNat 3 i

theorem idx_inj {i j m : ℕ} (hi : m ≤ i + 3) (hj : m ≤ j + 3) (hi' : i < m) (hj' : j < m)
    (h : idx i = idx j) : i = j := by
  have hmod : i % 3 = j % 3 := congrArg Fin.val h
  omega

theorem idx_add_three (i : ℕ) : idx (i + 3) = idx i :=
  Fin.ext (Nat.add_mod_right i 3)

theorem idx_succ (i : ℕ) : idx i + 1 = idx (i + 1) := by
  refine Fin.ext ?_
  change (i % 3 + 1 % 3) % 3 = (i + 1) % 3
  omega

theorem idx_sub_one (i : ℕ) : idx i - 1 = idx (i + 2) := by
  have h : idx i = idx (i + 2) + 1 := by
    rw [idx_succ, idx_add_three]
  rw [h]
  exact add_sub_cancel_right _ _

section

variable (buffer : Fin 3 → Iobuffer) (filesize : ℕ)

/-- The position of a piece. -/
def pos : ℕ → ℕ
  | 0 => 0
  | i + 1 => min (pos i + (buffer (idx i)).size) filesize

/-- The length of a piece. -/
def len (i : ℕ) : ℕ := pos buffer filesize (i + 1) - pos buffer filesize i

theorem pos_le (i : ℕ) : pos buffer filesize i ≤ filesize := by
  cases i with
  | zero => exact Nat.zero_le _
  | succ i => exact Nat.min_le_right _ _

theorem pos_succ (i : ℕ) :
    pos buffer filesize (i + 1) = pos buffer filesize i + len buffer filesize i := by
  have hle := pos_le buffer filesize i
  have hsucc : pos buffer filesize (i + 1) =
      min (pos buffer filesize i + (buffer (idx i)).size) filesize := rfl
  rw [len]
  omega

theorem len_eq (i : ℕ) : len buffer filesize i =
    min (buffer (idx i)).size (filesize - pos buffer filesize i) := by
  have hle := pos_le buffer filesize i
  have hsucc : pos buffer filesize (i + 1) =
      min (pos buffer filesize i + (buffer (idx i)).size) filesize := rfl
  rw [len]
  omega

end

/-! ## The I/O thread -/

/-- What the I/O thread has read of the current piece; with `Whole` it ends with the whole piece, or
with an error. -/
def Reading (file : Memory) (s : Stream) : Iothread.Pc (Fin 3) → Prop
  | .io i off => s.iothread.mem.read (s.iotask i).bufaddr off =
      file.read (s.iotask i).offset.toNat off
  | .finish i off err => off = (s.iotask i).bufsize ∧ err = 0 ∧
      s.iothread.mem.read (s.iotask i).bufaddr off = file.read (s.iotask i).offset.toNat off ∨
    off = 0 ∧ err ≠ 0
  | .final i state => state = .OK →
      s.iothread.mem.read (s.iotask i).bufaddr (s.iotask i).bufsize =
        file.read (s.iotask i).offset.toNat (s.iotask i).bufsize
  | _ => True

/-- The tasks and the buffers: `n` pieces are returned, `m` are inserted and `p` are prepared. -/
structure Data (buffer : Fin 3 → Iobuffer) (filesize : ℕ) (file : Memory) (s : Stream) (n m p : ℕ)
    (q : List (Fin 3)) : Prop where
  io : Iothread.Inv s.iothread [] q
  alive : s.iothread.freed = false
  buffer_eq : s.buffer = buffer
  filesize_eq : s.filesize = filesize
  inserted : s.iothread.history.inserted = (List.range m).map idx
  op : ∀ i, (s.iotask i).op = ioop_READ
  bufaddr : ∀ i, (s.iotask i).bufaddr = (buffer i).addr
  readycount : ∀ i, (s.iotask i).readycount = some ()
  fits : ∀ i, (s.iotask i).bufsize ≤ (buffer i).size
  full : s.readpos < filesize → ∀ i, (s.iotask i).bufsize = (buffer i).size
  readpos : s.readpos = pos buffer filesize p
  inside : ∀ i, i < p → pos buffer filesize i < filesize
  piece : ∀ i, i < p → p ≤ i + 3 → (s.iotask (idx i)).offset = pos buffer filesize i ∧
    (s.iotask (idx i)).bufsize = len buffer filesize i
  le : n ≤ s.iothread.history.finished.length
  window : m ≤ p ∧ p ≤ n + 2
  fresh : ∀ i, m ≤ i → i < 3 → (s.iotask (idx i)).state = .NULL
  prepared : ∀ i, m ≤ i → i < p → (s.iotask (idx i)).state = .NULL
  returned : ∀ i, i < n → p ≤ i + 3 → (s.iotask (idx i)).state = .NULL
  pending : ∀ i f, s.iothread.history.finished[i]? = some f → n ≤ i → s.iotask (idx i) = f.iotask
  ok : ∀ i f, s.iothread.history.finished[i]? = some f → i < n → f.iotask.state = .OK
  content : ∀ i f, s.iothread.history.finished[i]? = some f → p ≤ i + 3 → f.iotask.state = .OK →
    s.iothread.mem.read (buffer (idx i)).addr (len buffer filesize i) =
      file.read (pos buffer filesize i) (len buffer filesize i)
  reading : Reading file s s.iothread.pc

section

variable {buffer : Fin 3 → Iobuffer} {filesize : ℕ} {file : Memory} {s s' : Stream} {n m p : ℕ}
  {q : List (Fin 3)} {t : Fin 3}

theorem Data.unfinished (h : Data buffer filesize file s n m p q) :
    s.iothread.history.finished.map Finished.id ++ (s.iothread.pc.current ++ q) =
      (List.range m).map idx := by
  have hins := h.io.inserted
  rw [h.inserted, List.append_nil, ← h.io.finished, List.append_assoc] at hins
  exact hins.symm

theorem Data.getElem_unfinished (h : Data buffer filesize file s n m p q) {j : ℕ}
    (hj : s.iothread.history.finished.length + j < m) :
    (s.iothread.pc.current ++ q)[j]? = some (idx (s.iothread.history.finished.length + j)) := by
  have hget := congrArg (fun l => l[s.iothread.history.finished.length + j]?) h.unfinished
  rw [List.getElem?_append_right (by rw [List.length_map]; omega), List.length_map,
    Nat.add_sub_cancel_left, List.getElem?_map, List.getElem?_range hj] at hget
  exact hget

theorem Data.current (h : Data buffer filesize file s n m p q)
    (hc : s.iothread.pc.current = [t]) : s.iothread.history.finished.length < m ∧
      t = idx s.iothread.history.finished.length := by
  have hlen := congrArg List.length h.unfinished
  rw [List.length_append, List.length_append, List.length_map, List.length_map, List.length_range,
    hc, List.length_singleton] at hlen
  have hlt : s.iothread.history.finished.length < m := by omega
  refine ⟨hlt, ?_⟩
  have hget := h.getElem_unfinished (j := 0) hlt
  rw [hc] at hget
  exact Option.some.inj hget

theorem Data.queued (h : Data buffer filesize file s n m p q) {i : ℕ}
    (hle : s.iothread.history.finished.length ≤ i) (hlt : i < m) :
    (s.iotask (idx i)).state = .QUEUED := by
  obtain ⟨j, rfl⟩ := Nat.exists_eq_add_of_le hle
  exact (h.io.queued _).mpr (List.mem_of_getElem? (h.getElem_unfinished hlt))

theorem Data.final (h : Data buffer filesize file s n m p q) {i : ℕ} (hle : n ≤ i)
    (hlt : i < s.iothread.history.finished.length) :
    ∃ f, s.iothread.history.finished[i]? = some f ∧ s.iotask (idx i) = f.iotask ∧
      (s.iotask (idx i)).state.Final := by
  have hget := List.getElem?_eq_getElem hlt
  have htask := h.pending i _ hget hle
  refine ⟨_, hget, htask, ?_⟩
  rw [htask]
  exact h.io.final _ (List.getElem_mem hlt)

theorem Data.eventcount (h : Data buffer filesize file s n m p q) :
    s.iothread.eventcount () + s.iothread.pc.uncounted.length =
      s.iothread.history.finished.length := by
  have hcanceled : s.iothread.history.canceled = [] :=
    List.map_eq_nil_iff.mp h.io.dropped.eq_nil
  have hcounted := congrArg List.length h.io.counted
  rw [hcanceled, List.append_nil, List.length_append, List.length_map] at hcounted
  have hall : s.iothread.history.counted.countP
      (fun t => (s.iothread.task t).readycount = some ()) = s.iothread.history.counted.length :=
    List.countP_eq_length.mpr fun t _ => decide_eq_true (h.readycount t)
  rw [h.io.eventcount, hall]
  exact hcounted

theorem getElem?_snoc {α : Type*} {l : List α} {x y : α} {i : ℕ} (h : (l ++ [x])[i]? = some y) :
    i < l.length ∧ l[i]? = some y ∨ i = l.length ∧ x = y := by
  rcases Nat.lt_trichotomy i l.length with hlt | rfl | hgt
  · rw [List.getElem?_append_left hlt] at h
    exact Or.inl ⟨hlt, h⟩
  · rw [List.getElem?_concat_length] at h
    exact Or.inr ⟨rfl, Option.some.inj h⟩
  · rw [List.getElem?_eq_none (by rw [List.length_append, List.length_singleton]; exact hgt)] at h
    exact absurd h nofun

theorem Data.idx_ne (h : Data buffer filesize file s n m p q) (hc : s.iothread.pc.current = [t])
    {i : ℕ} (hi : i < s.iothread.history.finished.length) (hp : p ≤ i + 3) : idx i ≠ t := by
  obtain ⟨hlt, rfl⟩ := h.current hc
  have hle := h.le
  have hwindow := h.window
  intro heq
  have hsame := idx_inj (m := p) hp (by omega) (by omega) (by omega) heq
  omega

theorem Data.frame (h : Data buffer filesize file s n m p q)
    {io : Iothread.State (Fin 3) Unit Unit} {q' : List (Fin 3)} (hio : Iothread.Inv io [] q')
    (halive : io.freed = s.iothread.freed)
    (hins : io.history.inserted = s.iothread.history.inserted)
    (hfin : io.history.finished = s.iothread.history.finished) (hmem : io.mem = s.iothread.mem)
    (htask : ∀ i, ∃ r, io.task i = { s.iotask i with result := r })
    (hsame : ∀ i, i ∉ s.iothread.pc.current → io.task i = s.iotask i)
    (hreading : Reading file { s with iothread := io } io.pc) :
    Data buffer filesize file { s with iothread := io } n m p q' := by
  have hstate : ∀ i, (io.task i).state = (s.iotask i).state := by
    intro i
    obtain ⟨r, hr⟩ := htask i
    rw [hr]
  have hoffset : ∀ i, (io.task i).offset = (s.iotask i).offset := by
    intro i
    obtain ⟨r, hr⟩ := htask i
    rw [hr]
  have hbufsize : ∀ i, (io.task i).bufsize = (s.iotask i).bufsize := by
    intro i
    obtain ⟨r, hr⟩ := htask i
    rw [hr]
  exact {
    io := hio
    alive := halive.trans h.alive
    buffer_eq := h.buffer_eq
    filesize_eq := h.filesize_eq
    inserted := hins.trans h.inserted
    op := fun i => by
      obtain ⟨r, hr⟩ := htask i
      rw [Stream.iotask, hr]
      exact h.op i
    bufaddr := fun i => by
      obtain ⟨r, hr⟩ := htask i
      rw [Stream.iotask, hr]
      exact h.bufaddr i
    readycount := fun i => by
      obtain ⟨r, hr⟩ := htask i
      rw [Stream.iotask, hr]
      exact h.readycount i
    fits := fun i => (hbufsize i).trans_le (h.fits i)
    full := fun hlt i => (hbufsize i).trans (h.full hlt i)
    readpos := h.readpos
    inside := h.inside
    piece := fun i hi hp => by
      rw [Stream.iotask, hoffset, hbufsize]
      exact h.piece i hi hp
    le := by
      dsimp only
      rw [hfin]
      exact h.le
    window := h.window
    fresh := fun i hm hi => (hstate _).trans (h.fresh i hm hi)
    prepared := fun i hm hp => (hstate _).trans (h.prepared i hm hp)
    returned := fun i hn hp => (hstate _).trans (h.returned i hn hp)
    pending := fun i f hf hn => by
      dsimp only at hf
      rw [hfin] at hf
      have hi := (List.getElem?_eq_some_iff.mp hf).1
      have hwindow := h.window
      refine (hsame _ fun hmem => ?_).trans (h.pending i f hf hn)
      rcases s.iothread.pc.current_eq with hnil | ⟨t, hc⟩
      · rw [hnil] at hmem
        exact List.not_mem_nil hmem
      · rw [hc] at hmem
        exact h.idx_ne hc hi (by omega) (List.mem_singleton.mp hmem)
    ok := fun i f hf hn => by
      dsimp only at hf
      rw [hfin] at hf
      exact h.ok i f hf hn
    content := fun i f hf hp hok => by
      dsimp only at hf ⊢
      rw [hfin] at hf
      rw [hmem]
      exact h.content i f hf hp hok
    reading := hreading }

theorem Data.transferred (h : Data buffer filesize file s n m p q) (hv : Valid buffer) {off k : ℕ}
    (hpc : s.iothread.pc = .io t off) (hk : k ≠ 0) (hle : k ≤ (s.iotask t).bufsize - off) :
    Data buffer filesize file { s with iothread := Iothread.transferred { s.iothread with
      mem := s.iothread.mem.write ((s.iotask t).bufaddr + off)
        (file.read ((s.iotask t).offset.toNat + off) k) } t off k } n m p q := by
  have hreading := h.reading
  rw [hpc] at hreading
  have hread : s.iothread.mem.read (s.iotask t).bufaddr off =
      file.read (s.iotask t).offset.toNat off := hreading
  have hlen : (file.read ((s.iotask t).offset.toNat + off) k).length = k := Memory.length_read ..
  have hmem := s.iothread.mem.read_write_append (s.iotask t).bufaddr off
    (file.read ((s.iotask t).offset.toNat + off) k)
  rw [hlen, hread, ← Memory.read_add] at hmem
  have hc : s.iothread.pc.current = [t] := by
    rw [hpc]
    rfl
  refine { h with
    io := h.io.transfer hpc _ hle
    content := fun i f hf hp hok => ?_
    reading := ?_ }
  · have hi : i < s.iothread.history.finished.length := (List.getElem?_eq_some_iff.mp hf).1
    have hne := h.idx_ne hc hi hp
    have hwindow := h.window
    have hcur := h.current hc
    have hpiece := h.piece i (by omega) hp
    have hfits := h.fits (idx i)
    have hfits' := h.fits t
    have hdisjoint := hv.disjoint (idx i) t hne
    have haddr := h.bufaddr t
    refine Eq.trans (Memory.read_write_of_disjoint _ ?_) (h.content i f hf hp hok)
    rw [hlen]
    omega
  · rw [Iothread.transferred]
    dsimp only
    by_cases hgo : off + k ≠ (s.iothread.task t).bufsize ∧ k ≠ 0
    · rw [if_pos hgo]
      exact hmem
    · rw [if_neg hgo]
      have hfin : off + k = (s.iotask t).bufsize := by
        by_contra hne
        exact hgo ⟨hne, hk⟩
      exact Or.inl (And.intro hfin (And.intro rfl hmem))

theorem Data.finish (h : Data buffer filesize file s n m p q) {state : Iostate}
    (hpc : s.iothread.pc = .final t state) :
    Data buffer filesize file { s with iothread := { s.iothread.modify t fun iot =>
      { iot with state } with
        pc := .count t
        history := { s.iothread.history with finished := s.iothread.history.finished ++
          [⟨t, { s.iothread.task t with state }, s.iothread.history.parts⟩] } } } n m p q := by
  have hc : s.iothread.pc.current = [t] := by
    rw [hpc]
    rfl
  have hreading := h.reading
  rw [hpc] at hreading
  obtain ⟨hlt, ht⟩ := h.current hc
  have hle := h.le
  have hwindow := h.window
  have hother : ∀ i, i ≠ t → (s.iothread.modify t fun iot => { iot with state }).task i =
      s.iotask i := fun i hi => modify_ne _ _ hi
  have hself : (s.iothread.modify t fun iot => { iot with state }).task t =
      { s.iotask t with state } := modify_self ..
  have hfield : ∀ i, ∃ st, (s.iothread.modify t fun iot => { iot with state }).task i =
      { s.iotask i with state := st } := by
    intro i
    rcases eq_or_ne i t with rfl | hi
    · exact ⟨state, hself⟩
    · exact ⟨(s.iotask i).state, hother i hi⟩
  exact { h with
    io := h.io.finish hpc
    op := fun i => by
      obtain ⟨st, hst⟩ := hfield i
      exact (congrArg Iotask.op hst).trans (h.op i)
    bufaddr := fun i => by
      obtain ⟨st, hst⟩ := hfield i
      exact (congrArg Iotask.bufaddr hst).trans (h.bufaddr i)
    readycount := fun i => by
      obtain ⟨st, hst⟩ := hfield i
      exact (congrArg Iotask.readycount hst).trans (h.readycount i)
    fits := fun i => by
      obtain ⟨st, hst⟩ := hfield i
      exact (congrArg Iotask.bufsize hst).trans_le (h.fits i)
    full := fun hfull i => by
      obtain ⟨st, hst⟩ := hfield i
      exact (congrArg Iotask.bufsize hst).trans (h.full hfull i)
    piece := fun i hi hp => by
      obtain ⟨st, hst⟩ := hfield (idx i)
      obtain ⟨hoff, hsize⟩ := h.piece i hi hp
      exact ⟨(congrArg Iotask.offset hst).trans hoff, (congrArg Iotask.bufsize hst).trans hsize⟩
    le := by
      dsimp only
      rw [List.length_append]
      exact Nat.le_add_right_of_le hle
    fresh := fun i hm hi => by
      have hne : idx i ≠ t := by
        rw [ht]
        intro heq
        have hsame := idx_inj (m := 3) (by omega) (by omega) hi (by omega) heq
        omega
      exact (congrArg Iotask.state (hother _ hne)).trans (h.fresh i hm hi)
    prepared := fun i hm hp => by
      have hne : idx i ≠ t := by
        rw [ht]
        intro heq
        have hsame := idx_inj (m := p) (by omega) (by omega) hp (by omega) heq
        omega
      exact (congrArg Iotask.state (hother _ hne)).trans (h.prepared i hm hp)
    returned := fun i hn hp => (congrArg Iotask.state
      (hother _ (h.idx_ne hc (by omega) hp))).trans (h.returned i hn hp)
    pending := fun i f hf hn => by
      dsimp only at hf
      rcases getElem?_snoc hf with ⟨hi, hf⟩ | ⟨hi, rfl⟩
      · exact (hother _ (h.idx_ne hc hi (by omega))).trans (h.pending i f hf hn)
      · have hit : t = idx i := by rw [ht, hi]
        exact hit ▸ hself
    ok := fun i f hf hn => by
      dsimp only at hf
      rcases getElem?_snoc hf with ⟨hi, hf⟩ | ⟨hi, -⟩
      · exact h.ok i f hf hn
      · omega
    content := fun i f hf hp hok => by
      dsimp only at hf
      rcases getElem?_snoc hf with ⟨hi, hf⟩ | ⟨hi, rfl⟩
      · exact h.content i f hf hp hok
      · obtain ⟨hoff, hsize⟩ := h.piece i (by omega) hp
        have hread := hreading hok
        rw [ht, ← hi, h.bufaddr, hoff, hsize, Int.toNat_natCast] at hread
        exact hread
    reading := trivial }

/-- **A step of the I/O thread.** -/
theorem Data.worker (h : Data buffer filesize file s n m p q) (hv : Valid buffer) {r : Pread}
    {sys : Sys} {io : Iothread.State (Fin 3) Unit Unit} (hwhole : Whole s .iothread r)
    (hsys : pread file s r = some sys) (hstep : Iothread.worker s.iothread sys = some io) :
    ∃ q', Data buffer filesize file { s with iothread := io } n m p q' := by
  obtain ⟨q', hio⟩ := inv_worker h.io sys hstep
  have hreading := h.reading
  have hsame : ∀ i, ∃ r, s.iotask i = { s.iotask i with result := r } := fun i => ⟨_, rfl⟩
  have hresult : ∀ (t : Fin 3) (res : Result) (i : Fin 3), ∃ r, (s.iothread.modify t fun iot =>
      { iot with result := res }).task i = { s.iotask i with result := r } := by
    intro t res i
    rcases eq_or_ne i t with rfl | hi
    · exact ⟨res, modify_self ..⟩
    · exact ⟨(s.iotask i).result, modify_ne _ _ hi⟩
  have hother : ∀ (t : Fin 3) (res : Result) (i : Fin 3), i ∉ [t] → (s.iothread.modify t fun iot =>
      { iot with result := res }).task i = s.iotask i :=
    fun t res i hi => modify_ne _ _ fun heq => hi (List.mem_singleton.mpr heq)
  rw [Iothread.worker] at hstep
  rcases hpc : s.iothread.pc with _ | _ | _ | t | ⟨t, off⟩ | ⟨t, off, err⟩ | ⟨t, state⟩ | t | _ <;>
    rw [hpc] at hstep hreading <;> dsimp only at hstep
  case suspend =>
    split_ifs at hstep
    obtain rfl := Option.some.inj hstep
    exact ⟨q', h.frame hio rfl rfl rfl rfl hsame (fun _ _ => rfl) trivial⟩
  case loop =>
    obtain rfl := Option.some.inj hstep
    refine ⟨q', h.frame hio rfl rfl rfl rfl hsame (fun _ _ => rfl) ?_⟩
    dsimp only
    split_ifs <;> exact trivial
  case take =>
    rcases tryremovefirst_spec h.io.ring with ⟨-, heq⟩ | ⟨a, l, next, last, rfl, -, heq⟩
    · rw [heq] at hstep
      obtain rfl := Option.some.inj hstep
      exact ⟨q', h.frame hio rfl rfl rfl rfl hsame (fun _ _ => rfl) trivial⟩
    · rw [heq] at hstep
      obtain rfl := Option.some.inj hstep
      exact ⟨q', h.frame hio rfl rfl rfl rfl hsame (fun _ _ => rfl) trivial⟩
  case check =>
    have hc : s.iothread.pc.current = [t] := by rw [hpc]; rfl
    have hop : (s.iothread.task t).op ≠ ioop_NOOP := by
      rw [show (s.iothread.task t).op = ioop_READ from h.op t]
      decide
    split_ifs at hstep with hvalid hstop <;> obtain rfl := Option.some.inj hstep
    · exact ⟨q', h.frame hio rfl rfl rfl rfl (hresult t _) (hc ▸ hother t _) fun e => by cases e⟩
    · exact ⟨q', h.frame hio rfl rfl rfl rfl hsame (fun _ _ => rfl) rfl⟩
    · exact ⟨q', h.frame hio rfl rfl rfl rfl (hresult t _) (hc ▸ hother t _) fun e => by cases e⟩
  case io =>
    rcases r with k | errno <;> simp only [Whole, hpc] at hwhole
    · rw [pread, hpc] at hsys
      obtain rfl := Option.some.inj hsys
      dsimp only at hstep
      split_ifs at hstep with hread
      obtain rfl := Option.some.inj hstep
      rw [Memory.length_read] at hread ⊢
      exact ⟨q, h.transferred hv hpc hwhole hread.2⟩
    · rw [pread] at hsys
      split_ifs at hsys with herrno
      obtain rfl := Option.some.inj hsys
      dsimp only at hstep
      obtain rfl := Option.some.inj hstep
      refine ⟨q', h.frame hio rfl rfl rfl rfl hsame (fun _ _ => rfl) (Or.inr ⟨hwhole, ?_⟩)⟩
      rw [if_neg fun hand => hand.1 rfl]
      exact herrno
  case finish =>
    have hc : s.iothread.pc.current = [t] := by rw [hpc]; rfl
    split_ifs at hstep with hok <;> obtain rfl := Option.some.inj hstep
    · refine ⟨q', h.frame hio rfl rfl rfl rfl (hresult t _) (hc ▸ hother t _) fun _ => ?_⟩
      rcases hreading with ⟨hoff, -, hread⟩ | ⟨hoff, herr⟩
      · obtain ⟨r, hr⟩ := hresult t (.bytesrw off) t
        rw [hoff] at hread
        simp only [Stream.iotask] at hread hr ⊢
        rw [hr]
        exact hread
      · exact absurd hok (not_or.mpr ⟨not_not_intro hoff, herr⟩)
    · exact ⟨q', h.frame hio rfl rfl rfl rfl (hresult t _) (hc ▸ hother t _) fun e => by cases e⟩
  case final =>
    obtain rfl := Option.some.inj hstep
    have hfinish := h.finish hpc
    rw [← modify_self s.iothread t fun iot => { iot with state }] at hfinish
    exact ⟨q, hfinish⟩
  case count =>
    obtain rfl := Option.some.inj hstep
    rw [count_eq] at hio ⊢
    exact ⟨q', h.frame hio rfl rfl rfl rfl hsame (fun _ _ => rfl) trivial⟩
  case stopped => cases hstep

end

/-! ## The reader and its tasks -/

section

variable {buffer : Fin 3 → Iobuffer} {filesize : ℕ} {file : Memory} {s s' : Stream} {n m p : ℕ}
  {q : List (Fin 3)}

theorem modify_eq (s : Stream) (i : Fin 3) (f : Iotask Unit → Iotask Unit) :
    (s.modify i f).iotask i = f (s.iotask i) :=
  modify_self ..

theorem modify_other (s : Stream) {i j : Fin 3} (f : Iotask Unit → Iotask Unit) (h : j ≠ i) :
    (s.modify i f).iotask j = s.iotask j :=
  modify_ne _ _ h

theorem modify_keeps (s : Stream) (i : Fin 3) {f : Iotask Unit → Iotask Unit}
    (hf : ∀ iot, (f iot).state = iot.state) (j : Fin 3) :
    ((s.modify i f).iotask j).state = (s.iotask j).state :=
  modify_state s.iothread i hf j

theorem nextPiece_eq (s : Stream) (i : Fin 3) (hfull : (s.iotask i).bufsize = (s.buffer i).size) :
    s.nextPiece i = { s.modify i fun iot => { iot with
      offset := s.readpos
      bufsize := min (s.buffer i).size (s.filesize - s.readpos) } with
        readpos := s.readpos + min (s.buffer i).size (s.filesize - s.readpos) } := by
  rw [Stream.nextPiece]
  dsimp only
  by_cases hgt : s.filesize - s.readpos < (s.buffer i).size
  · rw [if_pos hgt, Nat.min_eq_right hgt.le]
    simp only [Stream.modify, State.modify, Function.update_self, Function.update_idem]
  · rw [if_neg hgt, Nat.min_eq_left (Nat.le_of_not_lt hgt), ← hfull]
    rfl

theorem Reading.congr {pc : Iothread.Pc (Fin 3)} (h : Reading file s pc)
    (hmem : s'.iothread.mem = s.iothread.mem)
    (htask : ∀ i, i ∈ pc.current → s'.iotask i = s.iotask i) : Reading file s' pc := by
  rcases pc with _ | _ | _ | t | ⟨t, off⟩ | ⟨t, off, err⟩ | ⟨t, state⟩ | t | _ <;>
    first | trivial | (rw [Reading, htask t List.mem_cons_self, hmem]; exact h)

theorem Data.length_finished (h : Data buffer filesize file s n m p q) :
    s.iothread.history.finished.length ≤ m := by
  have hlen := congrArg List.length h.unfinished
  rw [List.length_append, List.length_map, List.length_map, List.length_range] at hlen
  omega

theorem Data.not_current (h : Data buffer filesize file s n m p q) {i w : ℕ} (hi : i < w)
    (hw : w ≤ i + 3) (hpw : p ≤ w) (hwn : w ≤ n + 3)
    (hout : i < s.iothread.history.finished.length ∨ m ≤ i) : idx i ∉ s.iothread.pc.current := by
  intro hmem
  rcases s.iothread.pc.current_eq with hnil | ⟨t, hc⟩
  · rw [hnil] at hmem
    exact List.not_mem_nil hmem
  · obtain ⟨hlt, ht⟩ := h.current hc
    have hle := h.le
    have hwindow := h.window
    rw [hc, ht] at hmem
    have hsame := idx_inj (m := w) hw (by omega) hi (by omega) (List.mem_singleton.mp hmem)
    omega

theorem Data.nextPiece (h : Data buffer filesize file s n m p q) (hlt : s.readpos < filesize)
    (hnull : (s.iotask (idx p)).state = .NULL) (hpn : p ≤ n + 1) :
    Data buffer filesize file (s.nextPiece (idx p)) n m (p + 1) q := by
  have hlen : min (s.buffer (idx p)).size (s.filesize - s.readpos) = len buffer filesize p := by
    rw [len_eq, h.buffer_eq, h.filesize_eq, h.readpos]
  have hpos := pos_succ buffer filesize p
  have hsize := len_eq buffer filesize p
  have hreadpos := h.readpos
  have hwindow := h.window
  have hfinished := h.length_finished
  rw [nextPiece_eq s _ ((h.full hlt _).trans (by rw [h.buffer_eq])), hlen]
  have hstate : ∀ i, ((s.modify (idx p) fun iot => { iot with
      offset := (s.readpos : ℤ), bufsize := len buffer filesize p }).iotask i).state =
        (s.iotask i).state :=
    modify_keeps s (idx p) fun _ => rfl
  have hself := modify_eq s (idx p) fun iot => { iot with
    offset := (s.readpos : ℤ), bufsize := len buffer filesize p }
  have hother : ∀ i, i ≠ idx p → (s.modify (idx p) fun iot => { iot with
      offset := (s.readpos : ℤ), bufsize := len buffer filesize p }).iotask i = s.iotask i :=
    fun i hi => modify_other s _ hi
  have hfield : ∀ i, ∃ o b, (s.modify (idx p) fun iot => { iot with
      offset := (s.readpos : ℤ), bufsize := len buffer filesize p }).iotask i =
        { s.iotask i with offset := o, bufsize := b } := by
    intro i
    rcases eq_or_ne i (idx p) with rfl | hi
    · exact ⟨_, _, hself⟩
    · exact ⟨(s.iotask i).offset, (s.iotask i).bufsize, hother i hi⟩
  have hqueued : (s.iotask (idx p)).state ≠ .QUEUED := by
    rw [hnull]
    exact nofun
  exact { h with
    io := h.io.modify (f := fun iot => { iot with
      offset := (s.readpos : ℤ), bufsize := len buffer filesize p }) hqueued hqueued fun _ => rfl
    op := fun i => by
      obtain ⟨o, b, hob⟩ := hfield i
      exact (congrArg Iotask.op hob).trans (h.op i)
    bufaddr := fun i => by
      obtain ⟨o, b, hob⟩ := hfield i
      exact (congrArg Iotask.bufaddr hob).trans (h.bufaddr i)
    readycount := fun i => by
      obtain ⟨o, b, hob⟩ := hfield i
      exact (congrArg Iotask.readycount hob).trans (h.readycount i)
    fits := fun i => by
      rcases eq_or_ne i (idx p) with rfl | hi
      · refine (congrArg Iotask.bufsize hself).trans_le ?_
        change len buffer filesize p ≤ _
        omega
      · exact (congrArg Iotask.bufsize (hother i hi)).trans_le (h.fits i)
    full := fun hmore i => by
      dsimp only at hmore
      rcases eq_or_ne i (idx p) with rfl | hi
      · refine (congrArg Iotask.bufsize hself).trans ?_
        change len buffer filesize p = _
        omega
      · exact (congrArg Iotask.bufsize (hother i hi)).trans (h.full hlt i)
    readpos := by
      dsimp only
      omega
    inside := fun i hi => by
      rcases Nat.lt_succ_iff_lt_or_eq.mp hi with hi | rfl
      · exact h.inside i hi
      · exact hreadpos ▸ hlt
    piece := fun i hi hp => by
      rcases Nat.lt_succ_iff_lt_or_eq.mp hi with hi' | rfl
      · have hne : idx i ≠ idx p := fun heq => Nat.ne_of_lt hi'
          (idx_inj (m := p + 1) hp (by omega) hi (Nat.lt_succ_self p) heq)
        obtain ⟨hoff, hlen'⟩ := h.piece i hi' (by omega)
        exact ⟨(congrArg Iotask.offset (hother _ hne)).trans hoff,
          (congrArg Iotask.bufsize (hother _ hne)).trans hlen'⟩
      · exact ⟨(congrArg Iotask.offset hself).trans (congrArg Nat.cast hreadpos),
          congrArg Iotask.bufsize hself⟩
    window := ⟨by omega, by omega⟩
    fresh := fun i hm hi => (hstate _).trans (h.fresh i hm hi)
    prepared := fun i hm hi => by
      rcases Nat.lt_succ_iff_lt_or_eq.mp hi with hi | rfl
      · exact (hstate _).trans (h.prepared i hm hi)
      · exact (hstate _).trans hnull
    returned := fun i hn hp => (hstate _).trans (h.returned i hn (by omega))
    pending := fun i f hf hn => by
      have hi : i < s.iothread.history.finished.length := (List.getElem?_eq_some_iff.mp hf).1
      have hne : idx i ≠ idx p := fun heq => absurd
        (idx_inj (m := p + 1) (by omega) (by omega) (by omega) (Nat.lt_succ_self p) heq) (by omega)
      exact (hother _ hne).trans (h.pending i f hf hn)
    content := fun i f hf hp hok => h.content i f hf (by omega) hok
    reading := h.reading.congr rfl fun i hi => hother i fun heq =>
      h.not_current (Nat.lt_succ_self p) (by omega) (by omega) (by omega) (Or.inr hwindow.1)
        (heq ▸ hi) }

/-- The prepared tasks are inserted. -/
theorem Data.insert (h : Data buffer filesize file s n m p q) :
    Data buffer filesize file (s.insert ((List.range' m (p - m)).map idx)).1 n p p
      (q ++ (List.range' m (p - m)).map idx) := by
  generalize hiot : (List.range' m (p - m)).map idx = iot
  have hwindow := h.window
  have hle := h.le
  have hfinished := h.length_finished
  have hmem : ∀ i, i ∈ iot → ∃ j, m ≤ j ∧ j < p ∧ idx j = i := by
    intro i hi
    rw [← hiot] at hi
    obtain ⟨j, hj, rfl⟩ := List.mem_map.mp hi
    rw [List.mem_range'_1] at hj
    exact ⟨j, hj.1, by omega, rfl⟩
  have hnot : ∀ i w, i < w → w ≤ i + 3 → p ≤ w → w ≤ n + 3 → i < m ∨ p ≤ i → idx i ∉ iot := by
    intro i w hiw hw hpw hwn hout hi
    obtain ⟨j, hmj, hjp, heq⟩ := hmem _ hi
    have hsame := idx_inj (m := w) (by omega) hw (by omega) hiw heq
    omega
  have hnd : iot.Nodup := by
    rw [← hiot]
    refine (List.nodup_range').map_on fun i hi j hj heq => ?_
    rw [List.mem_range'_1] at hi hj
    exact idx_inj (m := p) (by omega) (by omega) (by omega) (by omega) heq
  have hnull : ∀ i ∈ iot, (s.iothread.task i).state ≠ .QUEUED := by
    intro i hi
    obtain ⟨j, hmj, hjp, rfl⟩ := hmem i hi
    rw [show (s.iothread.task (idx j)).state = .NULL from h.prepared j hmj hjp]
    exact nofun
  have hio := h.io.insert h.alive hnd hnull
  have htask := insertlast_task s.iothread iot
  have hsame := insertlast_same s.iothread iot
  rw [Stream.insert]
  dsimp only
  generalize (insertlast_iolist s.iothread iot).1 = io at *
  have hfin : io.history.finished = s.iothread.history.finished := by rw [hsame]
  have hiomem : io.mem = s.iothread.mem := by rw [hsame]
  have hpc : io.pc = s.iothread.pc := by rw [hsame]
  have hins : io.history.inserted = s.iothread.history.inserted ++ iot := by rw [hsame]
  have hfreed : io.freed = s.iothread.freed := by rw [hsame]
  have hother : ∀ i, i ∉ iot → io.task i = s.iotask i := fun i hi => (htask i).trans (if_neg hi)
  have hfield : ∀ i, ∃ st, io.task i = { s.iotask i with state := st } := by
    intro i
    by_cases hi : i ∈ iot
    · exact ⟨_, (htask i).trans (if_pos hi)⟩
    · exact ⟨(s.iotask i).state, hother i hi⟩
  exact {
    io := hio
    alive := hfreed.trans h.alive
    buffer_eq := h.buffer_eq
    filesize_eq := h.filesize_eq
    inserted := by
      dsimp only
      rw [hins, h.inserted, ← hiot, ← List.map_append, List.range_eq_range', List.range_eq_range']
      have happ := @List.range'_append 0 m (p - m) 1
      rw [Nat.one_mul, Nat.zero_add, Nat.add_sub_cancel' hwindow.1] at happ
      rw [happ]
    op := fun i => by
      obtain ⟨st, hst⟩ := hfield i
      exact (congrArg Iotask.op hst).trans (h.op i)
    bufaddr := fun i => by
      obtain ⟨st, hst⟩ := hfield i
      exact (congrArg Iotask.bufaddr hst).trans (h.bufaddr i)
    readycount := fun i => by
      obtain ⟨st, hst⟩ := hfield i
      exact (congrArg Iotask.readycount hst).trans (h.readycount i)
    fits := fun i => by
      obtain ⟨st, hst⟩ := hfield i
      exact (congrArg Iotask.bufsize hst).trans_le (h.fits i)
    full := fun hmore i => by
      obtain ⟨st, hst⟩ := hfield i
      exact (congrArg Iotask.bufsize hst).trans (h.full hmore i)
    readpos := h.readpos
    inside := h.inside
    piece := fun i hi hp => by
      obtain ⟨st, hst⟩ := hfield (idx i)
      obtain ⟨hoff, hsize⟩ := h.piece i hi hp
      exact ⟨(congrArg Iotask.offset hst).trans hoff, (congrArg Iotask.bufsize hst).trans hsize⟩
    le := by
      dsimp only
      rw [hfin]
      exact hle
    window := ⟨le_rfl, hwindow.2⟩
    fresh := fun i hp hi => (congrArg Iotask.state
      (hother _ (hnot i 3 hi (by omega) (by omega) (by omega) (Or.inr hp)))).trans
        (h.fresh i (by omega) hi)
    prepared := fun i hp hp' => absurd hp' (Nat.not_lt.mpr hp)
    returned := fun i hn hp => by
      refine (congrArg Iotask.state (hother _ ?_)).trans (h.returned i hn hp)
      exact hnot i p (by omega) hp le_rfl (by omega) (Or.inl (by omega))
    pending := fun i f hf hn => by
      dsimp only at hf
      rw [hfin] at hf
      have hi := (List.getElem?_eq_some_iff.mp hf).1
      refine (hother _ ?_).trans (h.pending i f hf hn)
      exact hnot i p (by omega) (by omega) le_rfl (by omega) (Or.inl (by omega))
    ok := fun i f hf hn => by
      dsimp only at hf
      rw [hfin] at hf
      exact h.ok i f hf hn
    content := fun i f hf hp hok => by
      dsimp only at hf ⊢
      rw [hfin] at hf
      rw [hiomem]
      exact h.content i f hf hp hok
    reading := by
      dsimp only
      rw [hpc]
      refine h.reading.congr hiomem fun i hi => hother i fun hmem' => ?_
      obtain ⟨j, hmj, hjp, rfl⟩ := hmem i hmem'
      exact h.not_current hjp (by omega) le_rfl (by omega) (Or.inr hmj) hi }

end

/-! ## The calls of the reader -/

/-- The steps of a call behind the choice of its block. -/
def Pc.behind : Pc → ℕ
  | .queue => 1
  | .resume => 1
  | .leave => 1
  | _ => 0

/-- What is returned by every further call: the end, or the error of the next task. -/
def Last (s : Stream) (n m : ℕ) (r : Outcome) : Prop :=
  r = .ENODATA ∧ n = m ∧ s.readpos = s.filesize ∨
    ∃ f, s.iothread.history.finished[n]? = some f ∧ f.iotask.state ≠ .OK ∧
      r = .err (err f.iotask.result)

/-- The place of the reader and its results. -/
structure Control (buffer : Fin 3 → Iobuffer) (filesize : ℕ) (s : Stream) (n m : ℕ) : Prop where
  behind : s.pc.behind ≤ n
  next : s.nextbuffer = idx (n - s.pc.behind)
  ahead : s.readpos < filesize → s.pc = .start ∨ s.pc = .queue ∨ m = n + 2
  start : s.pc = .start → n = 0 ∧ m = 0 ∧ s.results = []
  queue : s.pc = .queue → m = n + 1 ∧ s.readpos < filesize
  check : s.pc = .check ∨ s.pc = .wait → n < m
  wait : s.pc = .wait → s.waits ≤ n
  waits : s.waits ≤ s.iothread.eventcount ()
  results : ∃ r j, s.results = (List.range n).map
    (fun i => .block (len buffer filesize i) (buffer (idx i)).addr) ++ List.replicate j r ∧
      (j = 0 ∨ Last s n m r)

section

variable {buffer : Fin 3 → Iobuffer} {filesize : ℕ} {file : Memory} {s s' : Stream} {n m p : ℕ}
  {q : List (Fin 3)}

theorem Last.congr {io : Iothread.State (Fin 3) Unit Unit} {r : Outcome} (h : Last s n m r)
    (hfin : s.iothread.history.finished <+: io.history.finished) :
    Last { s with iothread := io } n m r := by
  rcases h with hend | ⟨f, hf, hok, hr⟩
  · exact Or.inl hend
  · obtain ⟨l, hl⟩ := hfin
    refine Or.inr ⟨f, ?_, hok, hr⟩
    dsimp only
    rw [← hl, List.getElem?_append_left (List.getElem?_eq_some_iff.mp hf).1]
    exact hf

theorem Control.iothread {io : Iothread.State (Fin 3) Unit Unit}
    (h : Control buffer filesize s n m)
    (hfin : s.iothread.history.finished <+: io.history.finished)
    (hcount : s.iothread.eventcount () ≤ io.eventcount ()) :
    Control buffer filesize { s with iothread := io } n m :=
  { h with
    waits := h.waits.trans hcount
    results := by
      obtain ⟨r, j, hr, hlast⟩ := h.results
      exact ⟨r, j, hr, hlast.imp_right fun hl => hl.congr hfin⟩ }

theorem Data.null (h : Data buffer filesize file s n m m q) :
    (s.iotask (idx m)).state = .NULL := by
  have hwindow := h.window
  rcases Nat.lt_or_ge m 3 with hlt | hge
  · exact h.fresh m le_rfl hlt
  · obtain ⟨i, rfl⟩ := Nat.exists_eq_add_of_le' hge
    rw [idx_add_three]
    exact h.returned i (by omega) le_rfl

theorem Data.give (h : Data buffer filesize file s n m m q) {f : Finished (Fin 3) Unit}
    (hf : s.iothread.history.finished[n]? = some f) (hok : f.iotask.state = .OK) :
    Data buffer filesize file (s.modify (idx n) fun iot => { iot with state := .NULL })
      (n + 1) m m q := by
  have hwindow := h.window
  have hfinished := h.length_finished
  have hlt : n < s.iothread.history.finished.length := (List.getElem?_eq_some_iff.mp hf).1
  obtain ⟨-, -, -, hfinal⟩ := h.final le_rfl hlt
  have hqueued : (s.iotask (idx n)).state ≠ .QUEUED := by
    rintro heq
    rw [heq] at hfinal
    rcases hfinal with hf | hf | hf <;> exact absurd hf nofun
  have hself := modify_eq s (idx n) fun iot => { iot with state := .NULL }
  have hother : ∀ i, i ≠ idx n →
      (s.modify (idx n) fun iot => { iot with state := .NULL }).iotask i = s.iotask i :=
    fun i hi => modify_other s _ hi
  have hfield : ∀ i, ∃ st, (s.modify (idx n) fun iot => { iot with state := .NULL }).iotask i =
      { s.iotask i with state := st } := by
    intro i
    rcases eq_or_ne i (idx n) with rfl | hi
    · exact ⟨_, hself⟩
    · exact ⟨(s.iotask i).state, hother i hi⟩
  have hnull : ∀ i, (s.iotask i).state = .NULL →
      ((s.modify (idx n) fun iot => { iot with state := .NULL }).iotask i).state = .NULL := by
    intro i hi
    rcases eq_or_ne i (idx n) with rfl | hne
    · exact congrArg Iotask.state hself
    · rw [hother i hne]
      exact hi
  exact { h with
    io := h.io.modify (f := fun iot => { iot with state := .NULL }) hqueued nofun fun _ => rfl
    op := fun i => by
      obtain ⟨st, hst⟩ := hfield i
      exact (congrArg Iotask.op hst).trans (h.op i)
    bufaddr := fun i => by
      obtain ⟨st, hst⟩ := hfield i
      exact (congrArg Iotask.bufaddr hst).trans (h.bufaddr i)
    readycount := fun i => by
      obtain ⟨st, hst⟩ := hfield i
      exact (congrArg Iotask.readycount hst).trans (h.readycount i)
    fits := fun i => by
      obtain ⟨st, hst⟩ := hfield i
      exact (congrArg Iotask.bufsize hst).trans_le (h.fits i)
    full := fun hmore i => by
      obtain ⟨st, hst⟩ := hfield i
      exact (congrArg Iotask.bufsize hst).trans (h.full hmore i)
    piece := fun i hi hp => by
      obtain ⟨st, hst⟩ := hfield (idx i)
      obtain ⟨hoff, hsize⟩ := h.piece i hi hp
      exact ⟨(congrArg Iotask.offset hst).trans hoff, (congrArg Iotask.bufsize hst).trans hsize⟩
    le := hlt
    window := ⟨le_rfl, by omega⟩
    fresh := fun i hm hi => hnull _ (h.fresh i hm hi)
    prepared := fun i hm hm' => absurd hm' (Nat.not_lt.mpr hm)
    returned := fun i hn hm => by
      rcases Nat.lt_succ_iff_lt_or_eq.mp hn with hn | rfl
      · exact hnull _ (h.returned i hn hm)
      · exact congrArg Iotask.state hself
    pending := fun i f hf hn => by
      have hi : i < s.iothread.history.finished.length := (List.getElem?_eq_some_iff.mp hf).1
      have hne : idx i ≠ idx n := fun heq => absurd
        (idx_inj (m := m) (by omega) (by omega) (by omega) (by omega) heq) (by omega)
      exact (hother _ hne).trans (h.pending i f hf (by omega))
    ok := fun i f' hf' hn => by
      rcases Nat.lt_succ_iff_lt_or_eq.mp hn with hn | rfl
      · exact h.ok i f' hf' hn
      · rw [← Option.some.inj (hf.symm.trans hf')]
        exact hok
    content := h.content
    reading := h.reading.congr rfl fun i hi => hother i fun heq =>
      h.not_current (w := m) (by omega) (by omega) le_rfl (by omega) (Or.inl hlt) (heq ▸ hi) }

theorem Data.resumed (h : Data buffer filesize file s n m p q) :
    Data buffer filesize file
      { s with iothread := { s.iothread with resumed := true } } n m p q :=
  h.frame { h.io with } rfl rfl rfl rfl (fun _ => ⟨_, rfl⟩) (fun _ _ => rfl)
    (h.reading.congr rfl fun _ _ => rfl)

theorem Data.go (h : Data buffer filesize file s n m p q) {pc : Pc} {nextbuffer : Fin 3}
    {waits : ℕ} {results : List Outcome} :
    Data buffer filesize file { s with pc, nextbuffer, waits, results } n m p q :=
  { h with reading := h.reading.congr rfl fun _ _ => rfl }

/-- What is not changed by preparing and inserting tasks. -/
structure Kept (s s' : Stream) : Prop where
  nextbuffer : s'.nextbuffer = s.nextbuffer
  waits : s'.waits = s.waits
  results : s'.results = s.results
  eventcount : s'.iothread.eventcount = s.iothread.eventcount
  finished : s'.iothread.history.finished = s.iothread.history.finished

theorem Kept.trans {s₁ s₂ : Stream} (h : Kept s s₁) (h' : Kept s₁ s₂) : Kept s s₂ where
  nextbuffer := h'.nextbuffer.trans h.nextbuffer
  waits := h'.waits.trans h.waits
  results := h'.results.trans h.results
  eventcount := h'.eventcount.trans h.eventcount
  finished := h'.finished.trans h.finished

theorem kept_nextPiece (s : Stream) (i : Fin 3) : Kept s (s.nextPiece i) := by
  rw [Stream.nextPiece]
  split_ifs <;> exact ⟨rfl, rfl, rfl, rfl, rfl⟩

theorem kept_startLoop (k j : ℕ) (s : Stream) : Kept s (startLoop k j s).2 := by
  induction k generalizing j s with
  | zero => exact ⟨rfl, rfl, rfl, rfl, rfl⟩
  | succ k ih =>
    rw [startLoop]
    split_ifs
    · exact (kept_nextPiece s _).trans (ih (j + 1) _)
    · exact ⟨rfl, rfl, rfl, rfl, rfl⟩

theorem kept_insert (s : Stream) (iot : List (Fin 3)) : Kept s (s.insert iot).1 := by
  have hcount := congrArg State.eventcount (insertlast_same s.iothread iot)
  have hfinished := congrArg (fun io => io.history.finished) (insertlast_same s.iothread iot)
  exact ⟨rfl, rfl, rfl, hcount, hfinished⟩

theorem reset_eq (hnext : s.nextbuffer = 0) (hpos : s.readpos = 0) :
    ({ s with nextbuffer := 0, readpos := 0 } : Stream) = s := by
  obtain ⟨io, buffer, nextbuffer, filesize, readpos, pc, waits, results⟩ := s
  obtain rfl : nextbuffer = 0 := hnext
  obtain rfl : readpos = 0 := hpos
  rfl

theorem startLoop_spec {k j : ℕ} (hj : j + k ≤ 2) (h : Data buffer filesize file s 0 0 j q) :
    Data buffer filesize file (startLoop k j s).2 0 0 (startLoop k j s).1 q ∧
      ((startLoop k j s).2.readpos < filesize → (startLoop k j s).1 = j + k) := by
  induction k generalizing j s with
  | zero => exact ⟨h, fun _ => rfl⟩
  | succ k ih =>
    rw [startLoop, h.filesize_eq]
    split_ifs with hmore
    · obtain ⟨hdata, hall⟩ := ih (by omega) (h.nextPiece (by omega)
        (h.fresh j (Nat.zero_le j) (by omega)) (by omega))
      exact ⟨hdata, fun hlt => (hall hlt).trans (by omega)⟩
    · refine ⟨h, fun hlt => absurd hlt ?_⟩
      dsimp only
      omega

/-- **A step of the reader.** -/
theorem reader_step (h : Data buffer filesize file s n m m q)
    (hc : Control buffer filesize s n m) (hstep : reader s = some s') :
    ∃ n' m' q', Data buffer filesize file s' n' m' m' q' ∧ Control buffer filesize s' n' m' := by
  have hnext := hc.next
  have hbehind := hc.behind
  have hfinished := h.length_finished
  have hwindow := h.window
  have hle := h.le
  have hmore : s.pc ≠ .start → s.pc ≠ .queue → s.readpos < filesize → m = n + 2 :=
    fun h1 h2 hlt => ((hc.ahead hlt).resolve_left h1).resolve_left h2
  obtain ⟨r, j, hresults, hlast⟩ := hc.results
  rw [reader] at hstep
  rcases hpc : s.pc with _ | _ | _ | _ | _ | _ | _ | _ <;>
    rw [hpc] at hstep hnext hbehind hmore <;> dsimp only at hstep
  case start =>
    obtain ⟨rfl, rfl, hnil⟩ := hc.start hpc
    obtain rfl := Option.some.inj hstep
    rw [start_reading, reset_eq hnext h.readpos]
    obtain ⟨hdata, hall⟩ := startLoop_spec (k := 2) (j := 0) le_rfl h
    have hkept := (kept_startLoop 2 0 s).trans
      (kept_insert (startLoop 2 0 s).2 ((List.range (startLoop 2 0 s).1).map idx))
    have hins := hdata.insert
    rw [Nat.sub_zero, ← List.range_eq_range'] at hins
    refine ⟨0, _, _, hins.go, ?_⟩
    have hcount := congrFun hkept.eventcount ()
    exact {
      behind := by
        dsimp only
        split_ifs <;> exact le_rfl
      next := by
        dsimp only
        split_ifs <;> exact hkept.nextbuffer.trans hnext
      ahead := fun hlt => Or.inr (Or.inr (hall hlt))
      start := by
        dsimp only
        split_ifs <;> exact nofun
      queue := by
        dsimp only
        split_ifs <;> exact nofun
      check := by
        dsimp only
        split_ifs <;> exact nofun
      wait := by
        dsimp only
        split_ifs <;> exact nofun
      waits := (hkept.waits.trans_le hc.waits).trans_eq hcount.symm
      results := ⟨r, 0, hkept.results.trans hnil, Or.inl rfl⟩ }
  case startResume =>
    obtain rfl := Option.some.inj hstep
    exact ⟨n, m, q, h.resumed.go, {
      behind := hbehind
      next := hnext
      ahead := fun hlt => Or.inr (Or.inr (hmore nofun nofun hlt))
      start := nofun
      queue := nofun
      check := nofun
      wait := nofun
      waits := hc.waits
      results := ⟨r, j, hresults, hlast⟩ }⟩
  case idle =>
    have hidx : s.nextbuffer = idx n := hnext
    rw [hidx] at hstep
    split_ifs at hstep with hnull <;> obtain rfl := Option.some.inj hstep
    · -- the task is not used, so that all pieces are returned
      have hnm : n = m := by
        by_contra hne
        rcases Nat.lt_or_ge n s.iothread.history.finished.length with hlt | hge
        · obtain ⟨f, -, -, hfinal⟩ := h.final le_rfl hlt
          rw [hnull] at hfinal
          rcases hfinal with hf | hf | hf <;> exact absurd hf nofun
        · have hqueued := h.queued hge (by omega)
          rw [hnull] at hqueued
          exact absurd hqueued nofun
      have hend : s.readpos = s.filesize := by
        have hpos := pos_le buffer filesize m
        have hreadpos := h.readpos
        rw [h.filesize_eq]
        by_contra hne
        have hm := hmore nofun nofun (by omega)
        omega
      have hr : j = 0 ∨ r = .ENODATA := by
        rcases hlast with hj | ⟨hr, -⟩ | ⟨f, hf, -⟩
        · exact Or.inl hj
        · exact Or.inr hr
        · have hlt := (List.getElem?_eq_some_iff.mp hf).1
          omega
      refine ⟨n, m, q, h.go, {
        behind := hbehind
        next := rfl
        ahead := fun hlt => Or.inr (Or.inr (hmore nofun nofun hlt))
        start := nofun
        queue := nofun
        check := nofun
        wait := nofun
        waits := hc.waits
        results := ⟨.ENODATA, j + 1, ?_, Or.inr (Or.inl ⟨rfl, hnm, hend⟩)⟩ }⟩
      dsimp only
      rw [hresults, List.append_assoc, List.replicate_succ']
      rcases hr with rfl | rfl <;> rfl
    · refine ⟨n, m, q, h.go, {
        behind := hbehind
        next := rfl
        ahead := fun hlt => Or.inr (Or.inr (hmore nofun nofun hlt))
        start := nofun
        queue := nofun
        check := fun _ => ?_
        wait := nofun
        waits := hc.waits
        results := ⟨r, j, hresults, hlast⟩ }⟩
      by_contra hge
      have hnm : n = m := by omega
      exact hnull (hnm ▸ h.null)
  case check =>
    have hidx : s.nextbuffer = idx n := hnext
    have hnm := hc.check (Or.inl hpc)
    rw [hidx] at hstep
    by_cases hqueued : (s.iotask (idx n)).state = .QUEUED
    · rw [if_pos hqueued] at hstep
      obtain rfl := Option.some.inj hstep
      refine ⟨n, m, q, h.go, {
        behind := hbehind
        next := rfl
        ahead := fun hlt => Or.inr (Or.inr (hmore nofun nofun hlt))
        start := nofun
        queue := nofun
        check := fun _ => hnm
        wait := fun _ => ?_
        waits := hc.waits
        results := ⟨r, j, hresults, hlast⟩ }⟩
      -- the events so far are those of the pieces before
      have hcount := h.eventcount
      have hwaits := hc.waits
      dsimp only
      rcases Nat.lt_or_ge n s.iothread.history.finished.length with hlt | hge
      · obtain ⟨f, -, -, hfinal⟩ := h.final le_rfl hlt
        rw [hqueued] at hfinal
        rcases hfinal with hf | hf | hf <;> exact absurd hf nofun
      · omega
    have hlt : n < s.iothread.history.finished.length := Nat.lt_of_not_le fun hge =>
      hqueued (h.queued hge hnm)
    obtain ⟨f, hf, htask, -⟩ := h.final le_rfl hlt
    rw [if_neg hqueued] at hstep
    by_cases hok : (s.iotask (idx n)).state ≠ .OK
    · rw [if_pos hok] at hstep
      obtain rfl := Option.some.inj hstep
      have hr : j = 0 ∨ r = .err (err f.iotask.result) := by
        rcases hlast with hj | ⟨-, heq, -⟩ | ⟨f', hf', -, hr⟩
        · exact Or.inl hj
        · omega
        · rw [hf] at hf'
          rw [hr, Option.some.inj hf']
          exact Or.inr rfl
      rw [htask] at hok ⊢
      refine ⟨n, m, q, h.go, {
        behind := hbehind
        next := rfl
        ahead := fun hlt => Or.inr (Or.inr (hmore nofun nofun hlt))
        start := nofun
        queue := nofun
        check := nofun
        wait := nofun
        waits := hc.waits
        results := ⟨.err (err f.iotask.result), j + 1, ?_, Or.inr (Or.inr ⟨f, hf, hok, rfl⟩)⟩ }⟩
      dsimp only
      rw [hresults, List.append_assoc, List.replicate_succ']
      rcases hr with rfl | rfl <;> rfl
    · rw [if_neg hok] at hstep
      obtain rfl := Option.some.inj hstep
      rw [not_not, htask] at hok
      have hj : j = 0 := by
        rcases hlast with hj | ⟨-, heq, -⟩ | ⟨f', hf', hok', -⟩
        · exact hj
        · omega
        · rw [hf] at hf'
          exact absurd (Option.some.inj hf' ▸ hok) hok'
      obtain ⟨-, hsize⟩ := h.piece n hnm (by omega)
      have hmore' := hmore nofun nofun
      refine ⟨n + 1, m, q, (h.give hf hok).go, {
        behind := ?_
        next := ?_
        ahead := fun hlt => Or.inr (Or.inl (if_pos (h.filesize_eq ▸ hlt)))
        start := ?_
        queue := ?_
        check := ?_
        wait := ?_
        waits := hc.waits
        results := ⟨r, 0, ?_, Or.inl rfl⟩ }⟩
      · dsimp only
        split_ifs <;> exact Nat.le_add_left 1 n
      · dsimp only
        split_ifs <;> exact hidx
      · dsimp only
        split_ifs <;> exact nofun
      · dsimp only
        split_ifs with hlt
        · rw [h.filesize_eq] at hlt
          exact fun _ => ⟨hmore' hlt, hlt⟩
        · exact nofun
      · dsimp only
        split_ifs <;> exact nofun
      · dsimp only
        split_ifs <;> exact nofun
      · dsimp only
        rw [hresults, hj, hsize, h.bufaddr, List.range_succ, List.map_append]
        simp only [List.replicate_zero, List.append_nil]
        rfl
  case wait =>
    split_ifs at hstep with hlt
    obtain rfl := Option.some.inj hstep
    exact ⟨n, m, q, h.go, {
      behind := hbehind
      next := hnext
      ahead := fun hlt => Or.inr (Or.inr (hmore nofun nofun hlt))
      start := nofun
      queue := nofun
      check := fun _ => hc.check (Or.inr hpc)
      wait := nofun
      waits := hlt
      results := ⟨r, j, hresults, hlast⟩ }⟩
  case queue =>
    obtain rfl := Option.some.inj hstep
    obtain ⟨hm, hlt⟩ := hc.queue hpc
    have hn : 1 ≤ n := hbehind
    have hprev : s.nextbuffer - 1 = idx m := by
      rw [show s.nextbuffer = idx (n - 1) from hnext, idx_sub_one]
      congr 1
      omega
    have hins := (h.nextPiece hlt h.null (by omega)).insert
    rw [Nat.add_sub_cancel_left, show (List.range' m 1).map idx = [idx m] from rfl] at hins
    have hkept := (kept_nextPiece s (idx m)).trans (kept_insert (s.nextPiece (idx m)) [idx m])
    have hcount := congrFun hkept.eventcount ()
    rw [queueNext, hprev]
    refine ⟨n, m + 1, _, hins.go, {
      behind := ?_
      next := ?_
      ahead := fun _ => Or.inr (Or.inr (by omega))
      start := ?_
      queue := ?_
      check := ?_
      wait := ?_
      waits := (hkept.waits.trans_le hc.waits).trans_eq hcount.symm
      results := ⟨r, j, hkept.results.trans hresults, hlast.imp_right fun hl => ?_⟩ }⟩
    · dsimp only
      split_ifs <;> exact hn
    · dsimp only
      split_ifs <;> exact hkept.nextbuffer.trans hnext
    · dsimp only
      split_ifs <;> exact nofun
    · dsimp only
      split_ifs <;> exact nofun
    · dsimp only
      split_ifs <;> exact nofun
    · dsimp only
      split_ifs <;> exact nofun
    · rcases hl with ⟨-, -, hend⟩ | ⟨f, hf, hok, hr⟩
      · rw [hend, h.filesize_eq] at hlt
        exact absurd hlt (Nat.lt_irrefl _)
      · exact Or.inr ⟨f, (congrArg (·[n]?) hkept.finished).trans hf, hok, hr⟩
  case resume =>
    obtain rfl := Option.some.inj hstep
    exact ⟨n, m, q, h.resumed.go, {
      behind := hbehind
      next := hnext
      ahead := fun hlt => Or.inr (Or.inr (hmore nofun nofun hlt))
      start := nofun
      queue := nofun
      check := nofun
      wait := nofun
      waits := hc.waits
      results := ⟨r, j, hresults, hlast⟩ }⟩
  case leave =>
    obtain rfl := Option.some.inj hstep
    have hsucc : idx (n - 1) + 1 = idx n := by
      have hn : 1 ≤ n := hbehind
      rw [idx_succ, Nat.sub_add_cancel hn]
    exact ⟨n, m, q, h.go, {
      behind := Nat.zero_le n
      next := (congrArg (· + 1) hnext).trans hsucc
      ahead := fun hlt => Or.inr (Or.inr (hmore nofun nofun hlt))
      start := nofun
      queue := nofun
      check := nofun
      wait := nofun
      waits := hc.waits
      results := ⟨r, j, hresults, hlast⟩ }⟩

end

/-! ## Runs of the stream -/

section

variable {buffer : Fin 3 → Iobuffer} {filesize : ℕ} {file : Memory} {mem : Memory} {s s' : Stream}
  {n m : ℕ} {q : List (Fin 3)}

@[simp]
theorem delivered_append (rs rs' : List Outcome) :
    delivered (rs ++ rs') = delivered rs + delivered rs' := by
  induction rs with
  | nil => exact (Nat.zero_add _).symm
  | cons r rs ih =>
    cases r with
    | block size addr =>
      change size + delivered (rs ++ rs') = size + delivered rs + delivered rs'
      rw [ih, Nat.add_assoc]
    | ENODATA => exact ih
    | err e => exact ih

theorem delivered_blocks (n : ℕ) :
    delivered ((List.range n).map fun i => .block (len buffer filesize i) (buffer (idx i)).addr) =
      pos buffer filesize n := by
  induction n with
  | zero => rfl
  | succ n ih =>
    rw [List.range_succ, List.map_append, delivered_append, ih, pos_succ]
    rfl

theorem delivered_replicate {r : Outcome} (hr : ∀ size addr, r ≠ .block size addr) (j : ℕ) :
    delivered (List.replicate j r) = 0 := by
  induction j with
  | zero => rfl
  | succ j ih =>
    rw [List.replicate_succ]
    cases r with
    | block size addr => exact absurd rfl (hr size addr)
    | ENODATA => exact ih
    | err e => exact ih

theorem Last.not_block {r : Outcome} (h : Last s n m r) (size addr : ℕ) :
    r ≠ .block size addr := by
  rcases h with ⟨rfl, -⟩ | ⟨f, -, -, rfl⟩
  · exact nofun
  · exact nofun

theorem Control.last_block (h : Control buffer filesize s n m) {rs : List Outcome} {size addr : ℕ}
    (hres : s.results = rs ++ [.block size addr]) :
    ∃ k, n = k + 1 ∧ delivered rs = pos buffer filesize k ∧ size = len buffer filesize k ∧
      addr = (buffer (idx k)).addr := by
  obtain ⟨r, j, hresults, hlast⟩ := h.results
  rw [hresults] at hres
  rcases j with _ | j
  · rw [List.replicate_zero, List.append_nil] at hres
    rcases n with _ | k
    · exact absurd (congrArg List.length hres) (by simp)
    · rw [List.range_succ, List.map_append] at hres
      obtain ⟨rfl, hblock⟩ := List.append_inj' hres rfl
      have heq := (List.cons.inj hblock).1
      injection heq with hsize haddr
      exact ⟨k, rfl, delivered_blocks k, hsize.symm, haddr.symm⟩
  · rw [List.replicate_succ', ← List.append_assoc] at hres
    obtain ⟨-, hr⟩ := List.append_inj' hres rfl
    exact absurd (List.cons.inj hr).1
      ((hlast.resolve_left (Nat.succ_ne_zero j)).not_block size addr)

theorem Control.enodata (h : Control buffer filesize s n m)
    (hreadpos : s.readpos = pos buffer filesize m) (hmem : .ENODATA ∈ s.results) :
    delivered s.results = s.filesize := by
  obtain ⟨r, j, hresults, hlast⟩ := h.results
  rw [hresults] at hmem ⊢
  rcases List.mem_append.mp hmem with hblock | hrep
  · obtain ⟨i, -, hi⟩ := List.mem_map.mp hblock
    exact absurd hi nofun
  · obtain ⟨hj, rfl⟩ := List.mem_replicate.mp hrep
    rcases hlast.resolve_left hj with ⟨-, rfl, hend⟩ | ⟨f, -, -, hr⟩
    · rw [delivered_append, delivered_blocks, delivered_replicate (r := .ENODATA) nofun,
        Nat.add_zero, ← hreadpos, hend]
    · exact absurd hr nofun

theorem Control.err (h : Control buffer filesize s n m) {rs rs' : List Outcome} {e : ℕ}
    (hres : s.results = rs ++ .err e :: rs') : ∀ r ∈ rs', r = .err e := by
  obtain ⟨r, j, hresults, -⟩ := h.results
  rw [hresults] at hres
  rcases List.append_eq_append_iff.mp hres with ⟨l, -, hrep⟩ | ⟨l, hblocks, hrest⟩
  · have hall : ∀ x ∈ l ++ Outcome.err e :: rs', x = r := fun x hx =>
      List.eq_of_mem_replicate (hrep ▸ hx)
    have he := hall (.err e) (List.mem_append_right _ List.mem_cons_self)
    intro x hx
    rw [he]
    exact hall x (List.mem_append_right _ (List.mem_cons_of_mem _ hx))
  · rcases l with _ | ⟨x, l⟩
    · rw [List.nil_append] at hrest
      have hall : ∀ x ∈ Outcome.err e :: rs', x = r := fun x hx =>
        List.eq_of_mem_replicate (hrest ▸ hx)
      intro x hx
      rw [hall (.err e) List.mem_cons_self]
      exact hall x (List.mem_cons_of_mem _ hx)
    · have hx : x = .err e := ((List.cons.inj hrest).1).symm
      have hmem : Outcome.err e ∈ (List.range n).map
          fun i => Outcome.block (len buffer filesize i) (buffer (idx i)).addr := by
        rw [hblocks, ← hx]
        exact List.mem_append_right _ List.mem_cons_self
      obtain ⟨i, -, hi⟩ := List.mem_map.mp hmem
      exact absurd hi nofun

theorem Data.delivers (h : Data buffer filesize file s n m m q) (hc : Control buffer filesize s n m)
    (hv : Valid buffer) : Delivers file s where
  block rs size addr hres hidle := by
    obtain ⟨k, rfl, hrs, rfl, rfl⟩ := hc.last_block hres
    have hwindow := h.window
    have hfinished := h.length_finished
    have hk : k < s.iothread.history.finished.length := h.le
    have hget := List.getElem?_eq_getElem hk
    have hinside := h.inside k (by omega)
    have hsize := hv.size (idx k)
    have hlen := len_eq buffer filesize k
    have hsucc := pos_succ buffer filesize k
    have hle := pos_le buffer filesize (k + 1)
    rw [hrs, h.filesize_eq]
    exact ⟨by omega, by omega,
      h.content k _ hget (by omega) (h.ok k _ hget (Nat.lt_succ_self k))⟩
  owned rs size addr hres hidle i hi := by
    obtain ⟨k, rfl, -, rfl, rfl⟩ := hc.last_block hres
    have hwindow := h.window
    have hne : i ≠ idx k := by
      rintro rfl
      rw [h.returned k (Nat.lt_succ_self k) (by omega)] at hi
      exact absurd hi nofun
    have hdisjoint := hv.disjoint i (idx k) hne
    have hfits := h.fits i
    have hlen := len_eq buffer filesize k
    rw [h.bufaddr]
    omega
  enodata := hc.enodata h.readpos
  err rs rs' e hres := hc.err hres
  waiting hpc hqueued := by
    have hidx : s.nextbuffer = idx n := by
      rw [hc.next, hpc]
      rfl
    have hnm := hc.check (Or.inr hpc)
    have hwaits := hc.wait hpc
    have hcount := h.eventcount
    rw [hidx] at hqueued
    have hlt : n < s.iothread.history.finished.length := Nat.lt_of_not_le fun hge =>
      hqueued (h.queued hge hnm)
    rcases hio : s.iothread.pc with _ | _ | _ | t | ⟨t, off⟩ | ⟨t, off, err⟩ | ⟨t, state⟩ | t | _
    case count => exact Or.inr ⟨t, rfl⟩
    all_goals
      rw [hio] at hcount
      refine Or.inl ?_
      change s.iothread.eventcount () + 0 = _ at hcount
      omega

theorem data_init (buffer : Fin 3 → Iobuffer) (filesize : ℕ) (file mem : Memory) :
    Data buffer filesize file (init buffer filesize mem) 0 0 0 [] where
  io := inv_start _ _
  alive := rfl
  buffer_eq := rfl
  filesize_eq := rfl
  inserted := rfl
  op _ := rfl
  bufaddr _ := rfl
  readycount _ := rfl
  fits _ := le_rfl
  full _ _ := rfl
  readpos := rfl
  inside _ hi := absurd hi (Nat.not_lt_zero _)
  piece _ hi := absurd hi (Nat.not_lt_zero _)
  le := le_rfl
  window := ⟨le_rfl, Nat.zero_le _⟩
  fresh _ _ _ := rfl
  prepared _ _ hi := absurd hi (Nat.not_lt_zero _)
  returned _ hi := absurd hi (Nat.not_lt_zero _)
  pending _ _ hf := absurd hf nofun
  ok _ _ hf := absurd hf nofun
  content _ _ hf := absurd hf nofun
  reading := trivial

theorem control_init (buffer : Fin 3 → Iobuffer) (filesize : ℕ) (mem : Memory) :
    Control buffer filesize (init buffer filesize mem) 0 0 where
  behind := le_rfl
  next := rfl
  ahead _ := Or.inl rfl
  start _ := ⟨rfl, rfl, rfl⟩
  queue := nofun
  check h := h.elim nofun nofun
  wait := nofun
  waits := le_rfl
  results := ⟨.ENODATA, 0, rfl, Or.inl rfl⟩

/-- **Reading in the background delivers the file** in every run in which the I/O thread reports no
part of a piece as the whole one: no `pread` finds the end of the file before `filesize`, and none
fails behind the first bytes of a task. -/
theorem steps_delivers (hv : Valid buffer)
    (hsteps : Steps (exec file) Whole (init buffer filesize mem) s) : Delivers file s := by
  have hinv : ∃ n m q, Data buffer filesize file s n m m q ∧ Control buffer filesize s n m := by
    refine hsteps.invariant
      (fun s => ∃ n m q, Data buffer filesize file s n m m q ∧ Control buffer filesize s n m)
      ⟨0, 0, [], data_init .., control_init ..⟩ ?_
    rintro s (_ | _) r s' ⟨n, m, q, h, hc⟩ hwhole hstep
    · obtain ⟨sys, hsys, hstep⟩ := Option.bind_eq_some_iff.mp hstep
      obtain ⟨io, hio, hstep⟩ := Option.bind_eq_some_iff.mp hstep
      obtain rfl := Option.some.inj hstep
      obtain ⟨q', h'⟩ := h.worker hv hwhole hsys hio
      obtain ⟨hfin, hcount⟩ := worker_mono hio
      exact ⟨n, m, q', h', hc.iothread hfin (hcount ())⟩
    · obtain ⟨n', m', q', h', hc'⟩ := reader_step h hc hstep
      exact ⟨n', m', q', h', hc'⟩
  obtain ⟨n, m, q, h, hc⟩ := hinv
  exact h.delivers hc hv

end

instance (s : Stream) (t : Thread) (r : Pread) : Decidable (Whole s t r) := by
  delta Whole
  split
  · split <;> infer_instance
  · infer_instance

/-- A file of two bytes is read at once. -/
theorem steps_delivers_whole : ∃ s : Stream,
    Steps (exec fun i => if i = 0 then 7 else 8) Whole
      (init (fun i => ⟨100 * (i.val + 1), 4⟩) 2 fun _ => 0) s ∧
    s.results = [.block 2 100, .ENODATA] ∧ Delivers (fun i => if i = 0 then 7 else 8) s := by
  have hrun : (execAll (guarded (exec fun i => if i = 0 then 7 else 8) Whole)
      (init (fun i => ⟨100 * (i.val + 1), 4⟩) 2 fun _ => 0)
      ([(.reader, .bytes 2), (.reader, .bytes 2)] ++ List.replicate 7 (.iothread, .bytes 2) ++
        List.replicate 4 (.reader, .bytes 2))).map Stream.results =
      some [.block 2 100, .ENODATA] := by
    decide
  obtain ⟨s, hs, hresults⟩ := Option.map_eq_some_iff.mp hrun
  have hsteps := steps_of_guarded (steps_of_execAll _ _ hs)
  have hv : Valid fun i => ⟨100 * (i.val + 1), 4⟩ := ⟨by decide, by decide, by decide⟩
  exact ⟨s, hsteps, hresults, steps_delivers hv hsteps⟩

/-- **A byte that is not read is returned**: the second `pread` finds the end of a file that got
shorter. -/
theorem not_delivers_short : ∃ s : Stream,
    Steps (exec fun i => if i = 0 then 7 else 8) (fun _ _ _ => True)
      (init (fun i => ⟨100 * (i.val + 1), 4⟩) 2 fun _ => 0) s ∧
    ¬ Delivers (fun i => if i = 0 then 7 else 8) s := by
  have hrun : (execAll (exec fun i => if i = 0 then 7 else 8)
      (init (fun i => ⟨100 * (i.val + 1), 4⟩) 2 fun _ => 0)
      ([(.reader, .bytes 0), (.reader, .bytes 0)] ++ List.replicate 5 (.iothread, .bytes 1) ++
        List.replicate 3 (.iothread, .bytes 0) ++ List.replicate 3 (.reader, .bytes 0))).map
          (fun s => (s.results, s.pc, s.iothread.mem.read 100 2)) =
      some ([.block 2 100], .idle, [7, 0]) := by
    decide
  obtain ⟨s, hs, heq⟩ := Option.map_eq_some_iff.mp hrun
  obtain ⟨hresults, hpc, hmem⟩ : s.results = [.block 2 100] ∧ s.pc = .idle ∧
      s.iothread.mem.read 100 2 = [7, 0] :=
    ⟨congrArg Prod.fst heq, congrArg (fun x => x.2.1) heq, congrArg (fun x => x.2.2) heq⟩
  refine ⟨s, steps_of_execAll _ _ hs, fun h => ?_⟩
  have hblock := (h.block [] 2 100 hresults hpc).2.2
  rw [hmem] at hblock
  exact absurd hblock (by decide)

end IobufferStream
end CKern
