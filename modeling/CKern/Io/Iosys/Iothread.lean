import CKern.Library.CircularList
import CKern.Library.Interleaving
import CKern.Library.Pieces

/-!
# The I/O thread (`io/iosys/iolist.c`, `io/iosys/iothread.c`)

* `insertlast_iolist`, `tryremovefirst_iolist`, `cancelall_iolist`: the circular list of tasks.
* `worker`: the next step of `ioop_worker_thread`, with the outcome of its system call.
* `exec`: one step of the I/O thread or of a client that inserts tasks, requests the stop or frees
  the thread.
* `steps_finishes_once`: in every interleaving each inserted task is finished once.
-/

namespace CKern
namespace Iothread

open CircularList Interleaving Pieces

/-! ## Tasks -/

/-- `iostate_e` -/
inductive Iostate
  | NULL
  | QUEUED
  | OK
  | ERROR
  | CANCELED
  deriving DecidableEq, Repr

/-- The union of the members `err` and `bytesrw`. -/
inductive Result
  | err (e : ℕ)
  | bytesrw (n : ℕ)
  deriving DecidableEq, Repr

def ioop_NOOP : ℕ := 0
def ioop_READ : ℕ := 1
def ioop_WRITE : ℕ := 2
def ioop_NROF : ℕ := ioop_WRITE + 1

def EAGAIN : ℕ := 11
def EWOULDBLOCK : ℕ := 11
def EINVAL : ℕ := 22
def ECANCELED : ℕ := 125

/-- `iotask_t` without the pointer `iolist_next`.  An address of 0 is no buffer. -/
structure Iotask (Cnt : Type*) where
  result : Result
  state : Iostate
  op : ℕ
  offset : ℤ
  bufaddr : ℕ
  bufsize : ℕ
  readycount : Option Cnt

def isvalid_iotask {Cnt : Type*} (iot : Iotask Cnt) : Bool :=
  iot.bufaddr ≠ 0 ∧ iot.bufsize ≠ 0 ∧ iot.op < ioop_NROF

/-! ## The state -/

/-- A system call that has transferred bytes: the address, the position in the file if it is given,
and the number of bytes. -/
structure Part where
  addr : ℕ
  pos : Option ℤ
  bytes : ℕ
  deriving DecidableEq, Repr

/-- A task at the moment when its final state is written. -/
structure Finished (Tid Cnt : Type*) where
  id : Tid
  iotask : Iotask Cnt
  parts : List Part

/-- What has happened: the tasks in the order of their insertion, those that the worker has taken,
the transfers of the current one, the final states written by the worker and by
`cancelall_iolist`, and the tasks that are counted. -/
structure History (Tid Cnt : Type*) where
  inserted : List Tid
  taken : List Tid
  parts : List Part
  finished : List (Finished Tid Cnt)
  canceled : List (Finished Tid Cnt)
  counted : List Tid

/-- The place of the worker. -/
inductive Pc (Tid : Type*)
  | suspend
  | loop
  | take
  | check (iot : Tid)
  | io (iot : Tid) (off : ℕ)
  | finish (iot : Tid) (off err : ℕ)
  | final (iot : Tid) (state : Iostate)
  | count (iot : Tid)
  | stopped
  deriving DecidableEq, Repr

/-- The place of a client, which still has to resume the worker, or is in `free_iothread`. -/
inductive Client
  | idle
  | resume
  | freeResume
  | freeJoin
  | freeCancel
  deriving DecidableEq, Repr

/-- `iothread_t` with its `iolist_t`, the tasks, the event counts, the memory of the buffers, and
the threads.  `resumed` is the resume that is conserved for the worker. -/
structure State (Tid Cnt κ : Type*) where
  iolist_next : Tid → Option Tid
  task : Tid → Iotask Cnt
  size : ℕ
  last : Option Tid
  eventcount : Cnt → ℕ
  mem : Memory
  request_stop : Bool
  resumed : Bool
  pc : Pc Tid
  client : κ → Client
  freeing : Bool
  freed : Bool
  history : History Tid Cnt

variable {Tid Cnt κ : Type*} [DecidableEq Tid] [DecidableEq Cnt] [DecidableEq κ]

/-- One task is changed. -/
def State.modify (s : State Tid Cnt κ) (t : Tid) (f : Iotask Cnt → Iotask Cnt) : State Tid Cnt κ :=
  { s with task := Function.update s.task t (f (s.task t)) }

/-- `count_eventcount` for the counter of a task, if it has one. -/
def State.count (s : State Tid Cnt κ) (t : Tid) : State Tid Cnt κ :=
  match (s.task t).readycount with
  | some c => { s with
      eventcount := Function.update s.eventcount c (s.eventcount c + 1)
      history := { s.history with counted := s.history.counted ++ [t] } }
  | none => { s with history := { s.history with counted := s.history.counted ++ [t] } }

/-! ## The list -/

/-- `insertlast_iolist`, and whether the list was empty. -/
def insertlast_iolist (s : State Tid Cnt κ) (iot : List Tid) : State Tid Cnt κ × Bool :=
  match iot with
  | [] => (s, false)
  | first :: rest =>
    let i := (first :: rest).getLast (List.cons_ne_nil first rest)
    let next :=
      match s.last with
      | some last =>
        Function.update (Function.update s.iolist_next i (s.iolist_next last)) last (some first)
      | none => Function.update s.iolist_next i (some first)
    ({ s with
      iolist_next := link (first :: rest) next
      last := some i
      task := fun t => if t ∈ first :: rest then { s.task t with state := .QUEUED } else s.task t
      size := s.size + (first :: rest).length
      history := { s.history with inserted := s.history.inserted ++ first :: rest } },
      s.last.isNone)

/-- `tryremovefirst_iolist`.  Nothing is the result of a null pointer. -/
def tryremovefirst_iolist (s : State Tid Cnt κ) : Option (Option Tid × State Tid Cnt κ) :=
  match s.last with
  | none => some (none, s)
  | some last =>
    match s.iolist_next last with
    | none => none
    | some first =>
      some (some first, { s with
        iolist_next := Function.update
          (Function.update s.iolist_next last (s.iolist_next first)) first none
        last := if first = last then none else some last
        size := s.size - 1 })

/-- What `cancelall_iolist` does with a task. -/
def cancel (s : State Tid Cnt κ) (node : Tid) : State Tid Cnt κ :=
  let s := { s with iolist_next := Function.update s.iolist_next node none }
  let s := s.modify node fun iot => { iot with result := .err ECANCELED, state := .CANCELED }
  let f : Finished Tid Cnt := ⟨node, s.task node, []⟩
  State.count { s with history := { s.history with canceled := s.history.canceled ++ [f] } } node

/-- The loop of `cancelall_iolist`. -/
def cancelLoop (last : Tid) : ℕ → Tid → State Tid Cnt κ → Option (State Tid Cnt κ)
  | 0, _, _ => none
  | n + 1, node, s =>
    match s.iolist_next node with
    | none => none
    | some next =>
      if next = last then some (cancel s node) else cancelLoop last n next (cancel s node)

/-- `cancelall_iolist`.  Nothing is the result of a null pointer or of a list that does not end. -/
def cancelall_iolist (s : State Tid Cnt κ) : Option (State Tid Cnt κ) :=
  match s.last with
  | none => some { s with size := 0 }
  | some last => cancelLoop last s.size last { s with size := 0, last := none }

/-! ## The worker -/

/-- The outcome of a system call. -/
inductive Sys
  | read (data : List UInt8)
  | write (bytes : ℕ)
  | error (errno : ℕ)

/-- `bytes >= 0`: the loop goes on if the buffer is not complete and there were some bytes. -/
def transferred (s : State Tid Cnt κ) (t : Tid) (off bytes : ℕ) : State Tid Cnt κ :=
  let iot := s.task t
  let pos := if iot.offset < 0 then none else some (iot.offset + off)
  let part : Part := ⟨iot.bufaddr + off, pos, bytes⟩
  { s with
    pc := if off + bytes ≠ iot.bufsize ∧ bytes ≠ 0 then .io t (off + bytes)
      else .finish t (off + bytes) 0
    history := { s.history with parts := s.history.parts ++ [part] } }

/-- The next step of `ioop_worker_thread`; a system call transfers at most the rest of the
buffer. -/
def worker (s : State Tid Cnt κ) (r : Sys) : Option (State Tid Cnt κ) :=
  match s.pc with
  | .suspend => if s.resumed then some { s with resumed := false, pc := .loop } else none
  | .loop => some { s with pc := if s.request_stop then .stopped else .take }
  | .take =>
    (tryremovefirst_iolist s).map fun (iot, s) =>
      match iot with
      | none => { s with pc := .suspend }
      | some t => { s with
          pc := .check t
          history := { s.history with taken := s.history.taken ++ [t], parts := [] } }
  | .check t =>
    if ¬ isvalid_iotask (s.task t) then
      some { s.modify t fun iot => { iot with result := .err EINVAL } with pc := .final t .ERROR }
    else if s.request_stop then
      some { s.modify t fun iot => { iot with result := .err ECANCELED } with
        pc := .final t .CANCELED }
    else if (s.task t).op = ioop_NOOP then some { s with pc := .finish t 0 0 }
    else some { s with pc := .io t 0 }
  | .io t off =>
    let iot := s.task t
    match r with
    | .read data =>
      if iot.op = ioop_READ ∧ data.length ≤ iot.bufsize - off then
        some (transferred { s with mem := s.mem.write (iot.bufaddr + off) data } t off data.length)
      else none
    | .write bytes =>
      if iot.op = ioop_WRITE ∧ bytes ≤ iot.bufsize - off then some (transferred s t off bytes)
      else none
    | .error errno => some { s with
        pc := .finish t off (if EAGAIN ≠ EWOULDBLOCK ∧ EWOULDBLOCK = errno then EAGAIN else errno) }
  | .finish t off err =>
    if off ≠ 0 ∨ err = 0 then
      some { s.modify t fun iot => { iot with result := .bytesrw off } with pc := .final t .OK }
    else some { s.modify t fun iot => { iot with result := .err err } with pc := .final t .ERROR }
  | .final t state =>
    let s := s.modify t fun iot => { iot with state }
    let f : Finished Tid Cnt := ⟨t, s.task t, s.history.parts⟩
    some { s with
      pc := .count t
      history := { s.history with finished := s.history.finished ++ [f] } }
  | .count t => some { s.count t with pc := .loop }
  | .stopped => none

/-! ## The clients -/

/-- What a client does. -/
inductive Request (Tid : Type*)
  | insert (iot : List Tid) (thread : Bool)
  | setoffset (iot : Tid) (offset : ℤ)
  | setsize (iot : Tid) (size : ℕ)
  | reset (iot : Tid)
  | requeststop
  | resume
  | free
  | join
  | cancelall

def State.goto (s : State Tid Cnt κ) (c : κ) (pc : Client) : State Tid Cnt κ :=
  { s with client := Function.update s.client c pc }

/-- The next step of a client.  Tasks are inserted or set up that are not queued, each one once, and
nothing is done with the thread after it is freed.  `requeststop_iothread` sets the flag and then
resumes the worker, and so does `free_iothread` before it joins it. -/
def client (s : State Tid Cnt κ) (c : κ) : Request Tid → Option (State Tid Cnt κ)
  | .insert iot thread =>
    if s.client c = .idle ∧ s.freed = false ∧ iot.Nodup ∧ ∀ t ∈ iot, (s.task t).state ≠ .QUEUED then
      let r := insertlast_iolist s iot
      some (if r.2 ∧ thread then r.1.goto c .resume else r.1)
    else none
  | .setoffset t offset =>
    if (s.task t).state ≠ .QUEUED then some (s.modify t fun iot => { iot with offset }) else none
  | .setsize t size =>
    if (s.task t).state ≠ .QUEUED then some (s.modify t fun iot => { iot with bufsize := size })
    else none
  | .reset t =>
    if (s.task t).state ≠ .QUEUED then some (s.modify t fun iot => { iot with state := .NULL })
    else none
  | .requeststop =>
    if s.client c = .idle ∧ s.freed = false then
      some ({ s with request_stop := true }.goto c .resume)
    else none
  | .resume =>
    match s.client c with
    | .resume => some ({ s with resumed := true }.goto c .idle)
    | .freeResume => some ({ s with resumed := true }.goto c .freeJoin)
    | _ => none
  | .free =>
    if s.client c = .idle ∧ s.freeing = false then
      some ({ s with request_stop := true, freeing := true }.goto c .freeResume)
    else none
  | .join => if s.client c = .freeJoin ∧ s.pc = .stopped then some (s.goto c .freeCancel) else none
  | .cancelall =>
    if s.client c = .freeCancel then
      (cancelall_iolist s).map fun s => { s with freed := true }.goto c .idle
    else none

/-- A step of the I/O thread, or of a client. -/
inductive Action (Tid : Type*)
  | work (r : Sys)
  | request (a : Request Tid)

/-- One step: no thread is the I/O thread. -/
def exec (s : State Tid Cnt κ) : Option κ → Action Tid → Option (State Tid Cnt κ)
  | none, .work r => worker s r
  | some c, .request a => client s c a
  | _, _ => none

/-! ## What is claimed -/

/-- The task that is taken and has no final state yet. -/
def Pc.current : Pc Tid → List Tid
  | .check iot => [iot]
  | .io iot _ => [iot]
  | .finish iot _ _ => [iot]
  | .final iot _ => [iot]
  | _ => []

omit [DecidableEq Tid] in
theorem Pc.current_eq (pc : Pc Tid) : pc.current = [] ∨ ∃ t, pc.current = [t] := by
  cases pc with
  | check t => exact Or.inr ⟨t, rfl⟩
  | io t off => exact Or.inr ⟨t, rfl⟩
  | finish t off err => exact Or.inr ⟨t, rfl⟩
  | final t state => exact Or.inr ⟨t, rfl⟩
  | _ => exact Or.inl rfl

/-- The task that has its final state and is not counted yet. -/
def Pc.uncounted : Pc Tid → List Tid
  | .count iot => [iot]
  | _ => []

/-- The final states. -/
def Iostate.Final (state : Iostate) : Prop := state = .OK ∨ state = .ERROR ∨ state = .CANCELED

/-- The number of transferred bytes. -/
def total (parts : List Part) : ℕ := (parts.map Part.bytes).sum

/-- The transfers concern consecutive parts of the buffer and of the file, from `off` on. -/
def Consecutive (bufaddr : ℕ) (offset : ℤ) : ℕ → List Part → Prop
  | _, [] => True
  | off, part :: parts => part.addr = bufaddr + off ∧
      part.pos = (if offset < 0 then none else some (offset + off)) ∧
      Consecutive bufaddr offset (off + part.bytes) parts

/-- `bytesrw` is the number of bytes transferred into consecutive parts of the buffer. -/
structure Transferred (iot : Iotask Cnt) (parts : List Part) : Prop where
  bytesrw : iot.result = .bytesrw (total parts)
  consecutive : Consecutive iot.bufaddr iot.offset 0 parts
  le : total parts ≤ iot.bufsize

/-- A run starts behind `init_iothread`. -/
def start (task : Tid → Iotask Cnt) (mem : Memory) : State Tid Cnt κ where
  iolist_next := fun _ => none
  task := fun t => { task t with state := .NULL }
  size := 0
  last := none
  eventcount := fun _ => 0
  mem := mem
  request_stop := false
  resumed := true
  pc := .suspend
  client := fun _ => .idle
  freeing := false
  freed := false
  history := ⟨[], [], [], [], [], []⟩

/-- Every inserted task is finished once: the list `q` holds the tasks that are queued, and `d`
those that were dropped by `cancelall_iolist`. -/
structure Protocol (s : State Tid Cnt κ) (d q : List Tid) : Prop where
  ring : Ring s.iolist_next s.last q
  size : s.size = q.length
  inserted : s.history.inserted = s.history.taken ++ d ++ q
  dropped : (s.history.canceled.map Finished.id).Perm d
  finished : s.history.finished.map Finished.id ++ s.pc.current = s.history.taken
  final : ∀ f ∈ s.history.finished, f.iotask.state.Final
  canceled : ∀ f ∈ s.history.canceled, f.iotask.state = .CANCELED
  counted : s.history.counted ++ s.pc.uncounted =
    (s.history.finished ++ s.history.canceled).map Finished.id
  eventcount : ∀ c, s.eventcount c =
    s.history.counted.countP fun t => (s.task t).readycount = some c
  transferred : ∀ f ∈ s.history.finished, f.iotask.state = .OK → Transferred f.iotask f.parts
  running : s.freed = false → d = []

/-- Nothing is left to do: every inserted task has its final state and is counted. -/
structure Complete (s : State Tid Cnt κ) : Prop where
  finished :
    ((s.history.finished ++ s.history.canceled).map Finished.id).Perm s.history.inserted
  counted : s.history.counted = (s.history.finished ++ s.history.canceled).map Finished.id
  size : s.size = 0
  state : ∀ t, (s.task t).state ≠ .QUEUED

/-! ## Invariants -/

section

omit [DecidableEq Tid] [DecidableEq Cnt]

theorem total_append (parts : List Part) (part : Part) :
    total (parts ++ [part]) = total parts + part.bytes := by
  rw [total, List.map_append, List.sum_append]
  rfl

theorem consecutive_append (bufaddr : ℕ) (offset : ℤ) (part : Part) (off : ℕ)
    (parts : List Part) : Consecutive bufaddr offset off (parts ++ [part]) ↔
      Consecutive bufaddr offset off parts ∧ part.addr = bufaddr + (off + total parts) ∧
      part.pos = if offset < 0 then none else some (offset + (off + total parts : ℕ)) := by
  induction parts generalizing off with
  | nil => exact ⟨fun h => ⟨trivial, h.1, h.2.1⟩, fun h => ⟨h.2.1, h.2.2, trivial⟩⟩
  | cons p parts ih =>
    have htotal : off + total (p :: parts) = off + p.bytes + total parts := by
      rw [total, List.map_cons, List.sum_cons, ← Nat.add_assoc]
      rfl
    rw [List.cons_append, Consecutive, Consecutive, ih, htotal]
    tauto

end

/-- The transfers of the current task. -/
def Progress (iot : Iotask Cnt) (parts : List Part) : Pc Tid → Prop
  | .check _ => parts = []
  | .io _ off =>
    Consecutive iot.bufaddr iot.offset 0 parts ∧ total parts = off ∧ off < iot.bufsize
  | .finish _ off _ =>
    Consecutive iot.bufaddr iot.offset 0 parts ∧ total parts = off ∧ off ≤ iot.bufsize
  | .final _ state => state.Final ∧ (state = .OK → Transferred iot parts)
  | _ => True

/-- What is kept by every step. -/
structure Inv (s : State Tid Cnt κ) (d q : List Tid) : Prop extends Protocol s d q where
  progress : ∀ t ∈ s.pc.current, Progress (s.task t) s.history.parts s.pc
  queued : ∀ t, (s.task t).state = .QUEUED ↔ t ∈ s.pc.current ++ q
  apart : ∀ t ∈ s.pc.current, t ∉ q
  joined : ∀ c, s.client c = .freeCancel → s.pc = .stopped
  freed : s.freed = true → q = [] ∧ s.pc = .stopped

omit [DecidableEq Tid] [DecidableEq κ] in
theorem inv_start (task : Tid → Iotask Cnt) (mem : Memory) :
    Inv (start task mem : State Tid Cnt κ) [] [] where
  ring := ring_nil _
  size := rfl
  inserted := rfl
  dropped := List.Perm.refl _
  finished := rfl
  final _ h := absurd h List.not_mem_nil
  canceled _ h := absurd h List.not_mem_nil
  counted := rfl
  eventcount _ := rfl
  transferred _ h := absurd h List.not_mem_nil
  progress _ h := absurd h List.not_mem_nil
  queued _ := ⟨nofun, fun h => absurd h List.not_mem_nil⟩
  apart _ h := absurd h List.not_mem_nil
  running _ := rfl
  joined _ h := absurd h nofun
  freed h := absurd h nofun

variable {s s' : State Tid Cnt κ} {d q : List Tid} {t : Tid} {c : κ}

omit [DecidableEq Tid] [DecidableEq κ] in
theorem Inv.complete (h : Inv s d q) (hf : s.freed = true) : Complete s := by
  obtain ⟨rfl, hpc⟩ := h.freed hf
  have hfinished := h.finished
  have hcounted := h.counted
  have hqueued := h.queued
  rw [hpc] at hfinished hcounted hqueued
  have htaken := (List.append_nil _).symm.trans hfinished
  refine ⟨?_, (List.append_nil _).symm.trans hcounted, h.size, fun t ht => ?_⟩
  · rw [List.map_append, htaken, h.inserted, List.append_nil]
    exact h.dropped.append_left _
  · exact absurd ((hqueued t).mp ht) List.not_mem_nil

/-! ## Steps of the worker -/

section

omit [DecidableEq Cnt] [DecidableEq κ]

variable {f : Iotask Cnt → Iotask Cnt}

theorem modify_self (s : State Tid Cnt κ) (t : Tid) (f : Iotask Cnt → Iotask Cnt) :
    (s.modify t f).task t = f (s.task t) :=
  Function.update_self ..

theorem modify_ne (s : State Tid Cnt κ) {t u : Tid} (f : Iotask Cnt → Iotask Cnt) (h : u ≠ t) :
    (s.modify t f).task u = s.task u :=
  Function.update_of_ne h ..

theorem modify_state (s : State Tid Cnt κ) (t : Tid) (hf : ∀ iot, (f iot).state = iot.state)
    (u : Tid) : ((s.modify t f).task u).state = (s.task u).state := by
  rcases eq_or_ne u t with rfl | hne
  · rw [modify_self, hf]
  · rw [modify_ne s f hne]

theorem modify_readycount (s : State Tid Cnt κ) (t : Tid)
    (hf : ∀ iot, (f iot).readycount = iot.readycount) (u : Tid) :
    ((s.modify t f).task u).readycount = (s.task u).readycount := by
  rcases eq_or_ne u t with rfl | hne
  · rw [modify_self, hf]
  · rw [modify_ne s f hne]

theorem modify_id (s : State Tid Cnt κ) (t : Tid) : s.modify t id = s := by
  rw [State.modify, id, Function.update_eq_self]

end

omit [DecidableEq Tid] [DecidableEq κ] in
theorem Inv.idle (h : Inv s d q) {pc : Pc Tid} (resumed : Bool) (hpc : s.pc ≠ .stopped)
    (hc : s.pc.current = []) (hu : s.pc.uncounted = []) (hc' : pc.current = [])
    (hu' : pc.uncounted = []) : Inv { s with resumed, pc } d q where
  toProtocol := { h.toProtocol with
    finished := by rw [hc', ← hc]; exact h.finished
    counted := by rw [hu', ← hu]; exact h.counted }
  progress t ht := absurd ht (by rw [hc']; exact List.not_mem_nil)
  queued := by rw [hc', ← hc]; exact h.queued
  apart t ht := absurd ht (by rw [hc']; exact List.not_mem_nil)
  joined c hcancel := absurd (h.joined c hcancel) hpc
  freed hf := absurd (h.freed hf).2 hpc

omit [DecidableEq κ] in
theorem Inv.own (h : Inv s d q) {f : Iotask Cnt → Iotask Cnt} {pc : Pc Tid} (mem : Memory)
    {parts : List Part} (hc : s.pc.current = [t]) (hu : s.pc.uncounted = [])
    (hc' : pc.current = [t]) (hu' : pc.uncounted = []) (hst : ∀ iot, (f iot).state = iot.state)
    (hrc : ∀ iot, (f iot).readycount = iot.readycount)
    (hprogress : Progress (f (s.task t)) parts pc) :
    Inv { s.modify t f with pc, mem, history := { s.history with parts } } d q := by
  have hpc : s.pc ≠ .stopped := by
    intro heq
    rw [heq] at hc
    exact absurd hc.symm (List.cons_ne_nil t [])
  have hrc' := modify_readycount s t hrc
  have hst' := modify_state s t hst
  exact {
    toProtocol := { h.toProtocol with
      finished := by rw [hc', ← hc]; exact h.finished
      counted := by rw [hu', ← hu]; exact h.counted
      eventcount := fun c => by
        simp only [hrc']
        exact h.eventcount c }
    progress := fun u hmem => by
      rw [hc', List.mem_singleton] at hmem
      subst hmem
      simp only [State.modify, Function.update_self]
      exact hprogress
    queued := fun u => by
      rw [hc', ← hc, ← h.queued u]
      exact iff_of_eq (congrArg (· = Iostate.QUEUED) (hst' u))
    apart := by rw [hc', ← hc]; exact h.apart
    joined := fun c hcancel => absurd (h.joined c hcancel) hpc
    freed := fun hf => absurd (h.freed hf).2 hpc }

omit [DecidableEq Cnt] [DecidableEq κ] in
theorem tryremovefirst_spec (h : Ring s.iolist_next s.last q) :
    q = [] ∧ tryremovefirst_iolist s = some (none, s) ∨
      ∃ a l next last, q = a :: l ∧ Ring next last l ∧ tryremovefirst_iolist s =
        some (some a, { s with iolist_next := next, last := last, size := s.size - 1 }) := by
  rw [tryremovefirst_iolist]
  rcases hlast : s.last with _ | z
  · rw [hlast] at h
    exact Or.inl ⟨h.eq_nil, rfl⟩
  · rw [hlast] at h
    obtain ⟨a, l, rfl, -, hfirst⟩ := h.first
    refine Or.inr ⟨a, l, _, _, rfl, h.remove, ?_⟩
    dsimp only
    rw [hfirst]

omit [DecidableEq Tid] [DecidableEq κ] in
theorem Inv.take {a : Tid} {l : List Tid} (h : Inv s d (a :: l)) (hpc : s.pc = .take)
    {next : Tid → Option Tid} {last : Option Tid} (hring : Ring next last l) :
    Inv { s with
      iolist_next := next
      last := last
      size := s.size - 1
      pc := .check a
      history := { s.history with taken := s.history.taken ++ [a], parts := [] } } d l := by
  have hne : s.pc ≠ .stopped := by
    rw [hpc]
    exact nofun
  have hrun : s.freed = false := by
    by_contra hf
    exact hne (h.freed (Bool.of_not_eq_false hf)).2
  have hd := h.running hrun
  have hsize := h.size
  have hinserted := h.inserted
  have hfinished := h.finished
  have hcounted := h.counted
  have hqueued := h.queued
  rw [hpc] at hfinished hcounted hqueued
  rw [hd] at hinserted
  exact {
    toProtocol := { h.toProtocol with
      ring := hring
      size := by
        rw [hsize]
        rfl
      inserted := by
        rw [hd, List.append_nil, List.append_assoc]
        rw [List.append_nil] at hinserted
        exact hinserted
      finished := by
        have htaken := (List.append_nil _).symm.trans hfinished
        rw [htaken]
        rfl
      counted := hcounted }
    progress := fun _ _ => rfl
    queued := hqueued
    apart := fun t ht => by
      rw [List.mem_singleton.mp ht]
      exact (List.nodup_cons.mp h.ring.nodup).1
    joined := fun c hcancel => absurd (h.joined c hcancel) hne
    freed := fun hf => absurd (h.freed hf).2 hne }

omit [DecidableEq κ] in
theorem Inv.finish (h : Inv s d q) {state : Iostate} (hpc : s.pc = .final t state) :
    Inv { s.modify t fun iot => { iot with state } with
      pc := .count t
      history := { s.history with finished := s.history.finished ++
        [⟨t, { s.task t with state }, s.history.parts⟩] } } d q := by
  have hne : s.pc ≠ .stopped := by
    rw [hpc]
    exact nofun
  have hrun : s.freed = false := by
    by_contra hf
    exact hne (h.freed (Bool.of_not_eq_false hf)).2
  have hcurrent : t ∈ s.pc.current := by
    rw [hpc]
    exact List.mem_cons_self
  have hapart := h.apart t hcurrent
  have hprogress := h.progress t hcurrent
  rw [hpc] at hprogress
  obtain ⟨hfinal, htrans⟩ := hprogress
  have hnone : s.history.canceled = [] := by
    have hperm := h.dropped
    rw [h.running hrun] at hperm
    exact List.map_eq_nil_iff.mp hperm.eq_nil
  have hfinished := h.finished
  have hcounted := h.counted
  have hqueued := h.queued
  rw [hpc] at hfinished hcounted hqueued
  have hrc := modify_readycount s t (f := fun iot => { iot with state }) fun _ => rfl
  exact {
    toProtocol := { h.toProtocol with
      finished := by
        rw [List.map_append]
        exact (List.append_nil _).trans hfinished
      final := fun f hf => by
        rcases List.mem_append.mp hf with hf | hf
        · exact h.final f hf
        · rw [List.mem_singleton.mp hf]
          exact hfinal
      counted := by
        have hall : s.history.counted = s.history.finished.map Finished.id := by
          rw [hnone, List.append_nil] at hcounted
          exact (List.append_nil _).symm.trans hcounted
        rw [hnone, List.append_nil, List.map_append, hall]
        rfl
      eventcount := fun c => by
        simp only [hrc]
        exact h.eventcount c
      transferred := fun f hf hok => by
        rcases List.mem_append.mp hf with hf | hf
        · exact h.transferred f hf hok
        · rw [List.mem_singleton.mp hf] at hok ⊢
          obtain ⟨hbytes, hcons, hle⟩ := htrans hok
          exact ⟨hbytes, hcons, hle⟩ }
    progress := fun u hu => absurd hu List.not_mem_nil
    queued := fun u => by
      rcases eq_or_ne u t with rfl | hut
      · rw [modify_self]
        refine ⟨fun heq => ?_, fun hq => absurd hq hapart⟩
        have hst : state = .QUEUED := heq
        rw [hst] at hfinal
        exact absurd hfinal (by simp [Iostate.Final])
      · have hmem : u ∈ [t] ++ q ↔ u ∈ q := by
          rw [List.singleton_append, List.mem_cons, or_iff_right hut]
        have hu := hqueued u
        rw [modify_ne _ _ hut]
        exact hu.trans hmem
    apart := fun u hu => absurd hu List.not_mem_nil
    joined := fun c hcancel => absurd (h.joined c hcancel) hne
    freed := fun hf => absurd (h.freed hf).2 hne }

omit [DecidableEq Tid] [DecidableEq κ] in
theorem count_eq (s : State Tid Cnt κ) (t : Tid) : s.count t = { s with
    eventcount := fun c => s.eventcount c + [t].countP fun t => (s.task t).readycount = some c
    history := { s.history with counted := s.history.counted ++ [t] } } := by
  rw [State.count]
  rcases hrc : (s.task t).readycount with _ | k
  · have hzero : (fun c => s.eventcount c +
        [t].countP fun t => (s.task t).readycount = some c) = s.eventcount := by
      funext c
      rw [List.countP_singleton, hrc]
      rfl
    rw [hzero]
  · have hone : Function.update s.eventcount k (s.eventcount k + 1) = fun c =>
        s.eventcount c + [t].countP fun t => (s.task t).readycount = some c := by
      funext c
      rw [List.countP_singleton, hrc]
      rcases eq_or_ne c k with rfl | hck
      · rw [Function.update_self, if_pos (decide_eq_true rfl)]
      · rw [Function.update_of_ne hck, if_neg]
        · rfl
        · exact fun heq => hck (Option.some.inj (of_decide_eq_true heq)).symm
    dsimp only
    rw [hone]

omit [DecidableEq Tid] [DecidableEq κ] in
theorem Inv.count (h : Inv s d q) (hpc : s.pc = .count t) :
    Inv { s.count t with pc := .loop } d q := by
  have hne : s.pc ≠ .stopped := by
    rw [hpc]
    exact nofun
  have hfinished := h.finished
  have hcounted := h.counted
  have hqueued := h.queued
  rw [hpc] at hfinished hcounted hqueued
  rw [count_eq]
  exact {
    toProtocol := { h.toProtocol with
      finished := hfinished
      counted := (List.append_nil _).trans hcounted
      eventcount := fun c => by
        dsimp only
        rw [h.eventcount c, List.countP_append] }
    progress := fun u hu => absurd hu List.not_mem_nil
    queued := hqueued
    apart := fun u hu => absurd hu List.not_mem_nil
    joined := fun c hcancel => absurd (h.joined c hcancel) hne
    freed := fun hf => absurd (h.freed hf).2 hne }

omit [DecidableEq κ] in
theorem Inv.move (h : Inv s d q) {pc : Pc Tid} {mem : Memory} {parts : List Part}
    (hc : s.pc.current = [t]) (hu : s.pc.uncounted = []) (hc' : pc.current = [t])
    (hu' : pc.uncounted = []) (hprogress : Progress (s.task t) parts pc) :
    Inv { s with pc, mem, history := { s.history with parts } } d q := by
  have hown := h.own (f := id) mem hc hu hc' hu' (fun _ => rfl) (fun _ => rfl) hprogress
  rw [modify_id] at hown
  exact hown

omit [DecidableEq κ] in
theorem Inv.transfer (h : Inv s d q) {off bytes : ℕ} (hpc : s.pc = .io t off) (mem : Memory)
    (hbytes : bytes ≤ (s.task t).bufsize - off) :
    Inv (transferred { s with mem } t off bytes) d q := by
  have hprogress := h.progress t (by rw [hpc]; exact List.mem_cons_self)
  rw [hpc] at hprogress
  obtain ⟨hcons, htotal, hlt⟩ := hprogress
  have hcons' := (consecutive_append _ _ ⟨(s.task t).bufaddr + off,
    if (s.task t).offset < 0 then none else some ((s.task t).offset + off), bytes⟩ _ _).mpr
      ⟨hcons, by rw [Nat.zero_add, htotal], by rw [Nat.zero_add, htotal]⟩
  have htotal' := total_append s.history.parts ⟨(s.task t).bufaddr + off,
    if (s.task t).offset < 0 then none else some ((s.task t).offset + off), bytes⟩
  rw [htotal] at htotal'
  have hc : s.pc.current = [t] := by rw [hpc]; rfl
  have hu : s.pc.uncounted = [] := by rw [hpc]; rfl
  rw [Iothread.transferred]
  dsimp only
  by_cases hgo : off + bytes ≠ (s.task t).bufsize ∧ bytes ≠ 0
  · rw [if_pos hgo]
    exact h.move hc hu rfl rfl ⟨hcons', htotal', by omega⟩
  · rw [if_neg hgo]
    exact h.move hc hu rfl rfl ⟨hcons', htotal', by omega⟩

omit [DecidableEq κ] in
/-- **A step of the worker** keeps the invariant. -/
theorem inv_worker (h : Inv s d q) (r : Sys) (hstep : worker s r = some s') :
    ∃ q', Inv s' d q' := by
  have hnil : ∀ {pc : Pc Tid}, s.pc = pc → pc.current = [] → s.pc.current = [] := fun h h' => h ▸ h'
  have hprogress := h.progress
  rw [worker] at hstep
  rcases hpc : s.pc with _ | _ | _ | t | ⟨t, off⟩ | ⟨t, off, err⟩ | ⟨t, state⟩ | t | _ <;>
    rw [hpc] at hstep hprogress <;> dsimp only at hstep
  case suspend =>
    split_ifs at hstep
    obtain rfl := Option.some.inj hstep
    exact ⟨q, h.idle _ (by rw [hpc]; exact nofun) (hnil hpc rfl) (by rw [hpc]; rfl) rfl rfl⟩
  case loop =>
    obtain rfl := Option.some.inj hstep
    refine ⟨q, h.idle s.resumed (by rw [hpc]; exact nofun) (hnil hpc rfl)
      (by rw [hpc]; rfl) ?_ ?_⟩
    · split_ifs <;> rfl
    · split_ifs <;> rfl
  case take =>
    rcases tryremovefirst_spec h.ring with ⟨-, heq⟩ | ⟨a, l, next, last, rfl, hring, heq⟩
    · rw [heq] at hstep
      obtain rfl := Option.some.inj hstep
      exact ⟨q, h.idle _ (by rw [hpc]; exact nofun) (hnil hpc rfl) (by rw [hpc]; rfl) rfl rfl⟩
    · rw [heq] at hstep
      obtain rfl := Option.some.inj hstep
      exact ⟨l, h.take hpc hring⟩
  case check =>
    have hc : s.pc.current = [t] := by rw [hpc]; rfl
    have hu : s.pc.uncounted = [] := by rw [hpc]; rfl
    have hparts : s.history.parts = [] := hprogress t List.mem_cons_self
    split_ifs at hstep with hvalid hstop hop <;> obtain rfl := Option.some.inj hstep
    · exact ⟨q, h.own _ hc hu rfl rfl (fun _ => rfl) (fun _ => rfl) ⟨Or.inr (Or.inr rfl), nofun⟩⟩
    · refine ⟨q, h.move hc hu rfl rfl ?_⟩
      rw [hparts]
      exact ⟨trivial, rfl, Nat.zero_le _⟩
    · refine ⟨q, h.move hc hu rfl rfl ?_⟩
      have hsize : (s.task t).bufsize ≠ 0 := (of_decide_eq_true hvalid).2.1
      rw [hparts]
      exact ⟨trivial, rfl, Nat.pos_of_ne_zero hsize⟩
    · exact ⟨q, h.own _ hc hu rfl rfl (fun _ => rfl) (fun _ => rfl) ⟨Or.inr (Or.inl rfl), nofun⟩⟩
  case io =>
    rcases r with data | bytes | errno <;> dsimp only at hstep
    · split_ifs at hstep with hread
      obtain rfl := Option.some.inj hstep
      exact ⟨q, h.transfer hpc _ hread.2⟩
    · split_ifs at hstep with hwrite
      obtain rfl := Option.some.inj hstep
      exact ⟨q, h.transfer hpc s.mem hwrite.2⟩
    · obtain rfl := Option.some.inj hstep
      obtain ⟨hcons, htotal, hlt⟩ := hprogress t List.mem_cons_self
      exact ⟨q, h.move (by rw [hpc]; rfl) (by rw [hpc]; rfl) rfl rfl ⟨hcons, htotal, hlt.le⟩⟩
  case finish =>
    have hc : s.pc.current = [t] := by rw [hpc]; rfl
    have hu : s.pc.uncounted = [] := by rw [hpc]; rfl
    obtain ⟨hcons, htotal, hle⟩ := hprogress t List.mem_cons_self
    split_ifs at hstep with hok <;> obtain rfl := Option.some.inj hstep
    · refine ⟨q, h.own _ hc hu rfl rfl (fun _ => rfl) (fun _ => rfl) ⟨Or.inl rfl, fun _ => ?_⟩⟩
      exact ⟨congrArg Result.bytesrw htotal.symm, hcons, htotal.trans_le hle⟩
    · exact ⟨q, h.own _ hc hu rfl rfl (fun _ => rfl) (fun _ => rfl) ⟨Or.inr (Or.inl rfl), nofun⟩⟩
  case final =>
    obtain rfl := Option.some.inj hstep
    have hfinish := h.finish hpc
    rw [← modify_self s t fun iot => { iot with state }] at hfinish
    exact ⟨q, hfinish⟩
  case count =>
    obtain rfl := Option.some.inj hstep
    exact ⟨q, h.count hpc⟩
  case stopped => exact absurd hstep nofun

omit [DecidableEq κ] in
theorem worker_mono {r : Sys} (hstep : worker s r = some s') :
    s.history.finished <+: s'.history.finished ∧ ∀ c, s.eventcount c ≤ s'.eventcount c := by
  have hsame : s.history.finished <+: s.history.finished ∧ ∀ c, s.eventcount c ≤ s.eventcount c :=
    ⟨List.prefix_rfl, fun _ => le_rfl⟩
  rw [worker] at hstep
  rcases hpc : s.pc with _ | _ | _ | t | ⟨t, off⟩ | ⟨t, off, err⟩ | ⟨t, state⟩ | t | _ <;>
    rw [hpc] at hstep <;> dsimp only at hstep
  case suspend =>
    split_ifs at hstep
    obtain rfl := Option.some.inj hstep
    exact hsame
  case loop =>
    obtain rfl := Option.some.inj hstep
    exact hsame
  case take =>
    rw [tryremovefirst_iolist] at hstep
    rcases hlast : s.last with _ | last <;> rw [hlast] at hstep
    · obtain rfl := Option.some.inj hstep
      exact hsame
    · rcases hnext : s.iolist_next last with _ | first <;> dsimp only at hstep <;>
        rw [hnext] at hstep
      · exact absurd hstep nofun
      · obtain rfl := Option.some.inj hstep
        exact hsame
  case check =>
    split_ifs at hstep <;> obtain rfl := Option.some.inj hstep <;> exact hsame
  case io =>
    rcases r with data | bytes | errno <;> dsimp only at hstep
    · split_ifs at hstep
      obtain rfl := Option.some.inj hstep
      exact hsame
    · split_ifs at hstep
      obtain rfl := Option.some.inj hstep
      exact hsame
    · obtain rfl := Option.some.inj hstep
      exact hsame
  case finish =>
    split_ifs at hstep <;> obtain rfl := Option.some.inj hstep <;> exact hsame
  case final =>
    obtain rfl := Option.some.inj hstep
    exact ⟨List.prefix_append _ _, fun _ => le_rfl⟩
  case count =>
    obtain rfl := Option.some.inj hstep
    rw [count_eq]
    exact ⟨List.prefix_rfl, fun _ => Nat.le_add_right _ _⟩
  case stopped => exact absurd hstep nofun

/-! ## Steps of the clients -/

omit [DecidableEq Tid] in
theorem Inv.goto (h : Inv s d q) {pc : Client} {stop resumed freeing : Bool}
    (hpc : pc = .freeCancel → s.pc = .stopped) :
    Inv ({ s with request_stop := stop, resumed, freeing }.goto c pc) d q := by
  exact { h with
    joined := fun u hu => by
      change Function.update s.client c pc u = _ at hu
      rcases eq_or_ne u c with rfl | hne
      · rw [Function.update_self] at hu
        exact hpc hu
      · rw [Function.update_of_ne hne] at hu
        exact h.joined u hu }

omit [DecidableEq κ] in
theorem Inv.modify (h : Inv s d q) {f : Iotask Cnt → Iotask Cnt} (ht : (s.task t).state ≠ .QUEUED)
    (hst : (f (s.task t)).state ≠ .QUEUED) (hrc : ∀ iot, (f iot).readycount = iot.readycount) :
    Inv (s.modify t f) d q := by
  have hrc' := modify_readycount s t hrc
  exact {
    toProtocol := { h.toProtocol with
      eventcount := fun c => by
        simp only [hrc']
        exact h.eventcount c }
    progress := fun u hu => by
      have hut : u ≠ t := by
        rintro rfl
        exact ht ((h.queued u).mpr (List.mem_append_left q hu))
      rw [modify_ne _ _ hut]
      exact h.progress u hu
    queued := fun u => by
      refine Iff.trans ?_ (h.queued u)
      rcases eq_or_ne u t with rfl | hut
      · rw [modify_self]
        exact iff_of_false hst ht
      · rw [modify_ne _ _ hut]
    apart := h.apart
    joined := h.joined
    freed := h.freed }

omit [DecidableEq Cnt] [DecidableEq κ] in
theorem insertlast_ring (h : Ring s.iolist_next s.last q) {iot : List Tid} (hnd : iot.Nodup)
    (hd : ∀ t ∈ iot, t ∉ q) :
    Ring (insertlast_iolist s iot).1.iolist_next (insertlast_iolist s iot).1.last (q ++ iot) := by
  rcases iot with _ | ⟨first, rest⟩
  · rw [List.append_nil]
    exact h
  · rw [insertlast_iolist]
    dsimp only
    rcases hlast : s.last with _ | last
    · rw [hlast] at h
      rw [h.eq_nil]
      exact ring_of_link hnd
    · rw [hlast] at h
      exact h.splice hnd hd

omit [DecidableEq Cnt] [DecidableEq κ] in
theorem insertlast_task (s : State Tid Cnt κ) (iot : List Tid) (t : Tid) :
    (insertlast_iolist s iot).1.task t =
      if t ∈ iot then { s.task t with state := .QUEUED } else s.task t := by
  cases iot <;> rfl

omit [DecidableEq Cnt] [DecidableEq κ] in
theorem insertlast_same (s : State Tid Cnt κ) (iot : List Tid) :
    (insertlast_iolist s iot).1 = { s with
      iolist_next := (insertlast_iolist s iot).1.iolist_next
      last := (insertlast_iolist s iot).1.last
      task := (insertlast_iolist s iot).1.task
      size := s.size + iot.length
      history := { s.history with inserted := s.history.inserted ++ iot } } := by
  rcases iot with _ | ⟨first, rest⟩
  · rw [insertlast_iolist, List.append_nil]
    rfl
  · rfl

omit [DecidableEq κ] in
/-- **Tasks are inserted** behind the others. -/
theorem Inv.insert (h : Inv s d q) {iot : List Tid} (hrun : s.freed = false) (hnd : iot.Nodup)
    (hiot : ∀ t ∈ iot, (s.task t).state ≠ .QUEUED) :
    Inv (insertlast_iolist s iot).1 d (q ++ iot) := by
  have hnot : ∀ t ∈ s.pc.current ++ q, t ∉ iot := fun t ht hin => hiot t hin ((h.queued t).mpr ht)
  have hring := insertlast_ring h.ring hnd fun t ht hq => hnot t (List.mem_append_right _ hq) ht
  have htask := insertlast_task s iot
  have hsame := insertlast_same s iot
  generalize (insertlast_iolist s iot).1 = s' at *
  obtain ⟨next, task, size, last, eventcount, mem, stop, resumed, pc, client, freeing, freed,
    history⟩ := s'
  injection hsame with hnext htask' hsize hlast hcount hmem hstop hresumed hpc hclient hfreeing
    hfreed hhistory
  subst hsize hcount hmem hstop hresumed hpc hclient hfreeing hfreed hhistory
  have hrc : ∀ t, (task t).readycount = (s.task t).readycount := by
    intro t
    rw [show task t = _ from htask t]
    split_ifs <;> rfl
  have hstate : ∀ t, (task t).state = if t ∈ iot then .QUEUED else (s.task t).state := by
    intro t
    rw [show task t = _ from htask t]
    split_ifs <;> rfl
  exact {
    toProtocol := { h.toProtocol with
      ring := hring
      size := by
        dsimp only
        rw [h.size, List.length_append]
      inserted := by
        dsimp only
        rw [h.inserted, List.append_assoc _ q]
      eventcount := fun c => by
        simp only [hrc]
        exact h.eventcount c }
    progress := fun t ht => by
      have htask := htask t
      rw [if_neg (hnot t (List.mem_append_left q ht))] at htask
      dsimp only at htask ⊢
      rw [htask]
      exact h.progress t ht
    queued := fun t => by
      dsimp only
      rw [hstate, ← List.append_assoc, List.mem_append, ← h.queued t]
      split_ifs with hin
      · exact ⟨fun _ => Or.inr hin, fun _ => rfl⟩
      · exact (or_iff_left hin).symm
    apart := fun t ht hmem => (List.mem_append.mp hmem).elim (h.apart t ht)
      (hnot t (List.mem_append_left q ht))
    joined := h.joined
    freed := fun hf => absurd hf (by
      dsimp only
      rw [hrun]
      exact Bool.false_ne_true) }

/-- The tasks of `l` are canceled one after the other. -/
structure Canceled (s s' : State Tid Cnt κ) (l : List Tid) : Prop where
  same : s' = { s with
    iolist_next := s'.iolist_next
    task := s'.task
    eventcount := s'.eventcount
    history := { s.history with
      canceled := s'.history.canceled
      counted := s.history.counted ++ l } }
  canceled : s'.history.canceled.map Finished.id = s.history.canceled.map Finished.id ++ l
  states : ∀ f ∈ s'.history.canceled, f ∈ s.history.canceled ∨ f.iotask.state = .CANCELED
  readycount : ∀ t, (s'.task t).readycount = (s.task t).readycount
  state : ∀ t, (s'.task t).state = if t ∈ l then .CANCELED else (s.task t).state
  eventcount : ∀ c, s'.eventcount c =
    s.eventcount c + l.countP fun t => (s.task t).readycount = some c
  next : ∀ t, t ∉ l → s'.iolist_next t = s.iolist_next t

omit [DecidableEq κ] in
theorem cancel_spec (s : State Tid Cnt κ) (t : Tid) : Canceled s (cancel s t) [t] := by
  have hrc := modify_readycount { s with iolist_next := Function.update s.iolist_next t none } t
    (f := fun iot => { iot with result := .err ECANCELED, state := .CANCELED }) fun _ => rfl
  rw [cancel]
  dsimp only
  rw [count_eq]
  refine ⟨rfl, ?_, fun f hf => ?_, hrc, fun u => ?_, fun c => ?_, fun u hu => ?_⟩
  · rw [List.map_append]
    rfl
  · refine (List.mem_append.mp hf).imp_right fun hf => ?_
    rw [List.mem_singleton.mp hf]
    dsimp only
    rw [modify_self]
  · dsimp only
    rcases eq_or_ne u t with rfl | hne
    · rw [modify_self, if_pos List.mem_cons_self]
    · rw [modify_ne _ _ hne, if_neg fun hmem => hne (List.mem_singleton.mp hmem)]
  · dsimp only
    simp only [hrc]
    rfl
  · exact Function.update_of_ne (fun heq => hu (List.mem_singleton.mpr heq)) _ _

omit [DecidableEq κ] in
theorem Canceled.cons {s₁ s₂ : State Tid Cnt κ} {l : List Tid} (h : Canceled s s₁ [t])
    (h' : Canceled s₁ s₂ l) : Canceled s s₂ (t :: l) where
  same := by
    rw [h'.same, h.same]
    dsimp only
    rw [List.append_assoc]
    rfl
  canceled := by
    rw [h'.canceled, h.canceled, List.append_assoc]
    rfl
  states f hf := (h'.states f hf).elim (h.states f) Or.inr
  readycount u := (h'.readycount u).trans (h.readycount u)
  state u := by
    rw [h'.state, h.state]
    by_cases hu : u = t
    · rw [if_pos (List.mem_singleton.mpr hu), if_pos (List.mem_cons.mpr (Or.inl hu))]
      exact ite_self _
    · rw [if_neg fun hmem => hu (List.mem_singleton.mp hmem)]
      refine if_congr ?_ rfl rfl
      rw [List.mem_cons, or_iff_right hu]
  eventcount c := by
    rw [h'.eventcount, h.eventcount, Nat.add_assoc]
    simp only [h.readycount]
    rw [← List.countP_append]
    rfl
  next u hu := by
    rw [h'.next u (List.not_mem_of_not_mem_cons hu),
      h.next u fun hmem => hu (List.mem_cons.mpr (Or.inl (List.mem_singleton.mp hmem)))]

omit [DecidableEq κ] in
theorem cancelLoop_spec {node last : Tid} {l : List Tid} {n : ℕ}
    (hpath : Path s.iolist_next node l last) (hnd : (node :: l).Nodup) (hlast : last ∉ l)
    (hn : l.length < n) : ∃ s', cancelLoop last n node s = some s' ∧ Canceled s s' (node :: l) := by
  induction l generalizing s node n with
  | nil =>
    obtain ⟨n, rfl⟩ := Nat.exists_eq_add_one_of_ne_zero (Nat.ne_of_gt hn)
    refine ⟨cancel s node, ?_, cancel_spec s node⟩
    rw [cancelLoop, show s.iolist_next node = some last from hpath]
    dsimp only
    rw [if_pos rfl]
  | cons b l ih =>
    obtain ⟨n, rfl⟩ := Nat.exists_eq_add_one_of_ne_zero (Nat.ne_of_gt (Nat.zero_lt_of_lt hn))
    have hcancel := cancel_spec s node
    obtain ⟨s', hloop, hs'⟩ := @ih (cancel s node) b n
      (hpath.2.congr fun u hu => hcancel.next u fun hmem =>
        (List.nodup_cons.mp hnd).1 (List.mem_singleton.mp hmem ▸ hu))
      hnd.of_cons (List.not_mem_of_not_mem_cons hlast) (Nat.lt_of_succ_lt_succ hn)
    refine ⟨s', ?_, hcancel.cons hs'⟩
    rw [cancelLoop, hpath.1]
    dsimp only
    rw [if_neg fun heq : b = last => hlast (heq ▸ List.mem_cons_self), hloop]

omit [DecidableEq κ] in
/-- **All queued tasks are canceled.** -/
theorem Inv.cancelall (h : Inv s d q) (hpc : s.pc = .stopped) :
    ∃ s', cancelall_iolist s = some s' ∧ Inv { s' with freed := true } (d ++ q) [] := by
  rw [cancelall_iolist]
  rcases hlast : s.last with _ | last
  · have hring := h.ring
    rw [hlast] at hring
    obtain rfl := hring.eq_nil
    rw [List.append_nil]
    refine ⟨_, rfl, { h with
      toProtocol := { h.toProtocol with
        ring := ring_nil _
        size := rfl
        running := fun hf => absurd hf nofun }
      freed := fun _ => ⟨rfl, hpc⟩ }⟩
  · have hring := h.ring
    rw [hlast] at hring
    obtain ⟨l, rfl, hpath⟩ := hring.from_last
    have hnd := hring.nodup
    have hperm : (last :: l).Perm (l ++ [last]) := (List.perm_append_singleton last l).symm
    have hnd' : (last :: l).Nodup := hperm.nodup_iff.mpr hnd
    obtain ⟨s', hloop, hs'⟩ := cancelLoop_spec (n := s.size)
      (s := { s with size := 0, last := none }) hpath hnd' (List.nodup_cons.mp hnd').1 (by
        rw [h.size, List.length_append]
        exact Nat.lt_succ_self _)
    refine ⟨s', hloop, ?_⟩
    have hmem : ∀ t, t ∈ last :: l ↔ t ∈ l ++ [last] := fun t => hperm.mem_iff
    obtain ⟨hsame, hcanceled, hstates, hrc, hstate, hcount, -⟩ := hs'
    obtain ⟨next, task, size, last', eventcount, mem, stop, resumed, pc, client, freeing, freed,
      history⟩ := s'
    injection hsame with hnext htask hsize hlast' hcount' hmem' hstop hresumed hpc' hclient
      hfreeing hfreed hhistory
    subst hsize hlast' hmem' hstop hresumed hpc' hclient hfreeing hfreed
    dsimp only at hcanceled hstates hrc hstate hcount
    rw [hhistory]
    have hcounted := h.counted
    have hqueued := h.queued
    rw [hpc] at hcounted hqueued
    exact {
      toProtocol := { h.toProtocol with
        ring := ring_nil _
        size := rfl
        inserted := by
          dsimp only
          rw [h.inserted, List.append_nil, List.append_assoc]
        dropped := by
          dsimp only
          rw [hcanceled]
          exact h.dropped.append hperm
        canceled := fun f hf => (hstates f hf).elim (h.canceled f) id
        counted := by
          have hall := (List.append_nil _).symm.trans hcounted
          dsimp only
          rw [hpc, List.map_append, hcanceled, ← List.append_assoc, ← List.map_append, ← hall]
          exact List.append_nil _
        eventcount := fun c => by
          dsimp only
          simp only [hrc]
          rw [hcount, h.eventcount, List.countP_append]
        running := fun hf => absurd hf nofun }
      progress := fun t ht => by
        dsimp only at ht
        rw [hpc] at ht
        exact absurd ht List.not_mem_nil
      queued := fun t => by
        dsimp only
        rw [hstate, hpc]
        have ht := hqueued t
        split_ifs with hin
        · exact ⟨nofun, fun hnil => absurd hnil List.not_mem_nil⟩
        · rw [hmem] at hin
          exact ⟨fun heq => absurd (ht.mp heq) hin, fun hnil => absurd hnil List.not_mem_nil⟩
      apart := fun t ht => List.not_mem_nil
      joined := fun c _ => hpc
      freed := fun _ => ⟨rfl, hpc⟩ }

/-- **A step of a client** keeps the invariant. -/
theorem inv_client (h : Inv s d q) (a : Request Tid) (hstep : client s c a = some s') :
    ∃ d' q', Inv s' d' q' := by
  rw [client.eq_def] at hstep
  rcases a with ⟨iot, thread⟩ | ⟨t, offset⟩ | ⟨t, size⟩ | t | _ | _ | _ | _ | _ <;>
    dsimp only at hstep
  case insert =>
    split_ifs at hstep with hcond hthread <;> obtain rfl := Option.some.inj hstep
    · exact ⟨d, q ++ iot, (h.insert hcond.2.1 hcond.2.2.1 hcond.2.2.2).goto nofun⟩
    · exact ⟨d, q ++ iot, h.insert hcond.2.1 hcond.2.2.1 hcond.2.2.2⟩
  case setoffset =>
    split_ifs at hstep with ht
    obtain rfl := Option.some.inj hstep
    exact ⟨d, q, h.modify ht ht fun _ => rfl⟩
  case setsize =>
    split_ifs at hstep with ht
    obtain rfl := Option.some.inj hstep
    exact ⟨d, q, h.modify ht ht fun _ => rfl⟩
  case reset =>
    split_ifs at hstep with ht
    obtain rfl := Option.some.inj hstep
    exact ⟨d, q, h.modify ht nofun fun _ => rfl⟩
  case requeststop =>
    split_ifs at hstep
    obtain rfl := Option.some.inj hstep
    exact ⟨d, q, h.goto nofun⟩
  case resume =>
    split at hstep
    · obtain rfl := Option.some.inj hstep
      exact ⟨d, q, h.goto nofun⟩
    · obtain rfl := Option.some.inj hstep
      exact ⟨d, q, h.goto nofun⟩
    · exact absurd hstep nofun
  case free =>
    split_ifs at hstep
    obtain rfl := Option.some.inj hstep
    exact ⟨d, q, h.goto nofun⟩
  case join =>
    split_ifs at hstep with hjoin
    obtain rfl := Option.some.inj hstep
    exact ⟨d, q, h.goto fun _ => hjoin.2⟩
  case cancelall =>
    split_ifs at hstep with hcancel
    obtain ⟨s₁, heq, hinv⟩ := h.cancelall (h.joined c hcancel)
    rw [heq] at hstep
    obtain rfl := Option.some.inj hstep
    exact ⟨d ++ q, [], hinv.goto nofun⟩

/-! ## Runs -/

/-- **Every queued task is finished exactly once**, in every interleaving of the I/O thread with
clients that insert tasks, request its stop and free it. -/
theorem steps_finishes_once {task : Tid → Iotask Cnt} {mem : Memory}
    (hsteps : Steps exec (fun _ _ _ => True) (start task mem) s) :
    ∃ d q, Protocol s d q ∧ (s.freed = true → Complete s) := by
  have hinv : ∃ d q, Inv s d q := by
    refine hsteps.invariant (fun s => ∃ d q, Inv s d q) ⟨[], [], inv_start task mem⟩ ?_
    rintro s (_ | c) (r | a) s' ⟨d, q, h⟩ - hstep
    · obtain ⟨q', h'⟩ := inv_worker h r hstep
      exact ⟨d, q', h'⟩
    · exact absurd hstep nofun
    · exact absurd hstep nofun
    · exact inv_client h a hstep
  obtain ⟨d, q, h⟩ := hinv
  exact ⟨d, q, h.toProtocol, h.complete⟩

/-- A task ends with an error behind some bytes, and another one is canceled. -/
theorem steps_finishes_once_canceled : ∃ s : State (Fin 2) Unit Unit,
    Steps exec (fun _ _ _ => True)
      (start (fun _ => ⟨.err 0, .NULL, ioop_READ, 0, 100, 4, some ()⟩) fun _ => 0) s ∧
    s.freed = true ∧ s.history.counted = [0, 1] ∧
    ∃ d q, Protocol s d q ∧ (s.freed = true → Complete s) := by
  have hrun : (execAll exec (start (fun _ => ⟨.err 0, .NULL, ioop_READ, 0, 100, 4, some ()⟩)
      (fun _ => 0) : State (Fin 2) Unit Unit)
      [(some (), .request (.insert [0] true)), (some (), .request .resume),
        (none, .work (.error 0)), (none, .work (.error 0)), (none, .work (.error 0)),
        (none, .work (.error 0)), (none, .work (.read [1, 2, 3])), (none, .work (.error 5)),
        (none, .work (.error 0)), (none, .work (.error 0)), (some (), .request (.insert [1] true)),
        (some (), .request .resume), (some (), .request .free), (none, .work (.error 0)),
        (none, .work (.error 0)), (some (), .request .resume), (some (), .request .join),
        (some (), .request .cancelall)]).map (fun s => (s.freed, s.history.counted)) =
      some (true, [0, 1]) := by
    decide
  obtain ⟨s, hs, heq⟩ := Option.map_eq_some_iff.mp hrun
  obtain ⟨hfreed, hcounted⟩ := Prod.mk.inj heq
  have hsteps := steps_of_execAll _ _ hs
  exact ⟨s, hsteps, hfreed, hcounted, steps_finishes_once hsteps⟩

end Iothread
end CKern
