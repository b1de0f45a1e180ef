import CKern.Library.Interleaving
import Mathlib.Data.Multiset.AddSub
import Mathlib.Data.Multiset.Count

/-!
# `platform/Linux/sync/rwlock.c`: readers and writers

* `lockreader`, `lockwriter`, `unlockreader`, `unlockwriter`: the sections under `lockflag`, which are
  one step each.
* `exec`: a step of a thread.  A waiting thread goes on when it was removed from its list.
* `steps_protocol`: what holds of the lock in every run.
-/

namespace CKern
namespace Rwlock

open Interleaving

/-! ## The code -/

/-- The error codes of the module. -/
inductive Errno
  | EDEADLK
  | EOVERFLOW
  | EPERM
  deriving DecidableEq, Repr

/-- `rwlock_t`.  The threads in the lists wait. -/
structure RwlockT (Tid : Type) where
  readers : List Tid
  writers : List Tid
  writer : Option Tid
  nrofreader : ℕ
  deriving DecidableEq, Repr

/-- `rwlock_INIT`. -/
def RwlockT.init {Tid : Type} : RwlockT Tid := ⟨[], [], none, 0⟩

/-- What a section ends with: the call returns 0, or it waits, or it returns an error. -/
inductive Result
  | ok
  | wait
  | err (err : Errno)
  deriving DecidableEq, Repr

/-- The lock behind a section, and the threads that were granted it for reading or for writing. -/
structure Outcome (Tid : Type) where
  result : Result
  lock : RwlockT Tid
  readGrants : List Tid
  writeGrants : List Tid

variable {Tid : Type} [DecidableEq Tid] {lock : RwlockT Tid} {t u self : Tid}

/-- The order in which the threads of a ring are found from its last one on. -/
def fromLast (l : List Tid) : List Tid :=
  match l.getLast? with
  | some last => last :: l.dropLast
  | none => []

/-- `wakeupreader_rwlock`, and the threads that are woken up. -/
def wakeupreader (lock : RwlockT Tid) : RwlockT Tid × List Tid :=
  let woken := fromLast lock.readers
  let lock := woken.foldl
    (fun lock _ => { lock with nrofreader := (lock.nrofreader + 1) % 2 ^ 32 }) lock
  ({ lock with readers := [] }, woken)

/-- `wakeupwriter_rwlock`, and the thread that is woken up. -/
def wakeupwriter (lock : RwlockT Tid) : RwlockT Tid × List Tid :=
  match lock.writers with
  | firstthread :: writers => ({ lock with writer := some firstthread, writers := writers }, [firstthread])
  | [] => (lock, [])

/-- `lockreader_rwlock` up to the waiting loop. -/
def lockreader (lock : RwlockT Tid) (self : Tid) : Outcome Tid :=
  if lock.writers ≠ [] ∨ lock.writer ≠ none then
    if some self = lock.writer then ⟨.err .EDEADLK, lock, [], []⟩
    else ⟨.wait, { lock with readers := lock.readers ++ [self] }, [], []⟩
  else
    let nrofreader := (lock.nrofreader + 1) % 2 ^ 32
    if nrofreader = 0 then
      ⟨.err .EOVERFLOW, { lock with nrofreader := (nrofreader + (2 ^ 32 - 1)) % 2 ^ 32 }, [], []⟩
    else ⟨.ok, { lock with nrofreader := nrofreader }, [self], []⟩

/-- `lockwriter_rwlock` up to the waiting loop. -/
def lockwriter (lock : RwlockT Tid) (self : Tid) : Outcome Tid :=
  if lock.writer ≠ none ∨ lock.nrofreader ≠ 0 then
    if some self = lock.writer then ⟨.err .EDEADLK, lock, [], []⟩
    else ⟨.wait, { lock with writers := lock.writers ++ [self] }, [], []⟩
  else ⟨.ok, { lock with writer := some self }, [], [self]⟩

/-- `unlockreader_rwlock`. -/
def unlockreader (lock : RwlockT Tid) : Outcome Tid :=
  if lock.nrofreader = 0 then ⟨.err .EPERM, lock, [], []⟩
  else
    let lock := { lock with nrofreader := lock.nrofreader - 1 }
    if lock.nrofreader = 0 then
      if lock.writers ≠ [] then
        let (lock, woken) := wakeupwriter lock
        ⟨.ok, lock, [], woken⟩
      else if lock.readers ≠ [] then
        let (lock, woken) := wakeupreader lock
        ⟨.ok, lock, woken, []⟩
      else ⟨.ok, lock, [], []⟩
    else ⟨.ok, lock, [], []⟩

/-- `unlockwriter_rwlock`. -/
def unlockwriter (lock : RwlockT Tid) (self : Tid) : Outcome Tid :=
  if lock.writer ≠ some self then ⟨.err .EPERM, lock, [], []⟩
  else
    let lock := { lock with writer := none }
    if lock.readers ≠ [] then
      let (lock, woken) := wakeupreader lock
      ⟨.ok, lock, woken, []⟩
    else if lock.writers ≠ [] then
      let (lock, woken) := wakeupwriter lock
      ⟨.ok, lock, [], woken⟩
    else ⟨.ok, lock, [], []⟩

/-- A thread is in no call or in the waiting loop of `insertandwait_rwlock`. -/
inductive Pc
  | idle
  | waiting
  deriving DecidableEq, Repr

/-- The lock and its threads.  `readlocks` and `writelocks` are the locks that were granted and not
returned, by thread, `calls` are the calls of a thread that lock without an error, and `granted` says how
often it was granted a lock. -/
structure State (Tid : Type) where
  lock : RwlockT Tid
  pc : Tid → Pc
  readlocks : Multiset Tid
  writelocks : Multiset Tid
  calls : Tid → ℕ
  granted : Tid → ℕ

def State.init {Tid : Type} : State Tid := ⟨RwlockT.init, fun _ => .idle, 0, 0, fun _ => 0, fun _ => 0⟩

/-- The locks granted by a section. -/
def State.grant (s : State Tid) (o : Outcome Tid) : State Tid :=
  { s with
    lock := o.lock
    readlocks := s.readlocks + o.readGrants
    writelocks := s.writelocks + o.writeGrants
    granted := fun u => s.granted u + o.readGrants.count u + o.writeGrants.count u }

/-- A section that locks. -/
def State.locking (s : State Tid) (t : Tid) (o : Outcome Tid) : State Tid :=
  match o.result with
  | .ok => { s.grant o with calls := Function.update s.calls t (s.calls t + 1) }
  | .wait =>
    { s.grant o with
      pc := Function.update s.pc t .waiting
      calls := Function.update s.calls t (s.calls t + 1) }
  | .err _ => s.grant o

/-- What a thread does next. -/
inductive Act
  | lockreader
  | lockwriter
  | unlockreader
  | unlockwriter
  | resume
  deriving DecidableEq, Repr

/-- A step of the thread `t`.  A lock is returned by a call that unlocks it without an error. -/
def exec (s : State Tid) (t : Tid) (a : Act) : Option (State Tid) :=
  match s.pc t, a with
  | .idle, .lockreader => some (s.locking t (lockreader s.lock t))
  | .idle, .lockwriter => some (s.locking t (lockwriter s.lock t))
  | .idle, .unlockreader =>
    let o := unlockreader s.lock
    some ({ s with
      readlocks := if o.result = Result.ok then s.readlocks.erase t else s.readlocks }.grant o)
  | .idle, .unlockwriter =>
    let o := unlockwriter s.lock t
    some ({ s with
      writelocks := if o.result = Result.ok then s.writelocks.erase t else s.writelocks }.grant o)
  | .waiting, .resume =>
    -- a thread in a list was resumed by something else
    if t ∈ s.lock.readers ∨ t ∈ s.lock.writers then some s
    else some { s with pc := Function.update s.pc t .idle }
  | _, _ => none

/-! ## The states that are reached -/

/-- A read lock is returned by a thread that has one, as the documentation of `unlockreader_rwlock`
asks for, or none is there. -/
def IsCalled (s : State Tid) (t : Tid) (a : Act) : Prop :=
  a = .unlockreader → t ∈ s.readlocks ∨ s.lock.nrofreader = 0

/-- What holds of every state. -/
structure Protocol (s : State Tid) : Prop where
  /-- At most one thread has the lock for writing, and then no thread has it for reading. -/
  exclusive : (s.writelocks.card ≤ 1 ∧ s.readlocks = 0) ∨ s.writelocks = 0
  writer : s.writelocks = (s.lock.writer.toList : Multiset Tid)
  nrofreader : s.lock.nrofreader = s.readlocks.card
  nrofreader_lt : s.readlocks.card < 2 ^ 32
  /-- A thread waits for reading only while a writer has the lock or waits. -/
  readers : s.lock.readers ≠ [] → s.writelocks ≠ 0 ∨ s.lock.writers ≠ []
  /-- No thread waits while the lock is free. -/
  free : s.writelocks = 0 → s.readlocks = 0 → s.lock.readers = [] ∧ s.lock.writers = []
  /-- A waiting thread is in one list and once, and each of its calls was granted once or waits. -/
  nodup : (s.lock.readers ++ s.lock.writers).Nodup
  waiting : ∀ t ∈ s.lock.readers ++ s.lock.writers, s.pc t = .waiting
  granted : ∀ t, s.granted t + s.lock.readers.count t + s.lock.writers.count t = s.calls t
  /-- A call that fails leaves the lock as it is. -/
  errors : ∀ t err, ((lockreader s.lock t).result = .err err → (lockreader s.lock t).lock = s.lock) ∧
    ((lockwriter s.lock t).result = .err err → (lockwriter s.lock t).lock = s.lock) ∧
    ((unlockreader s.lock).result = .err err → (unlockreader s.lock).lock = s.lock) ∧
    ((unlockwriter s.lock t).result = .err err → (unlockwriter s.lock t).lock = s.lock)

/-! ## The sections -/

omit [DecidableEq Tid] in
theorem fromLast_perm (l : List Tid) : (fromLast l).Perm l := by
  rcases List.eq_nil_or_concat l with rfl | ⟨l, x, rfl⟩
  · exact List.Perm.refl []
  · rw [fromLast, List.concat_eq_append, List.getLast?_concat, List.dropLast_concat]
    exact (List.perm_append_singleton x l).symm

omit [DecidableEq Tid] in
theorem foldl_nrofreader (l : List Tid) : ∀ lock : RwlockT Tid, l.length + lock.nrofreader < 2 ^ 32 →
    l.foldl (fun lock _ => { lock with nrofreader := (lock.nrofreader + 1) % 2 ^ 32 }) lock =
      { lock with nrofreader := lock.nrofreader + l.length } := by
  induction l with
  | nil => exact fun lock _ => rfl
  | cons x l ih =>
    intro lock h
    rw [List.length_cons] at h
    have hmod : (lock.nrofreader + 1) % 2 ^ 32 = lock.nrofreader + 1 := Nat.mod_eq_of_lt (by omega)
    rw [List.foldl_cons, hmod, ih _ (by dsimp only; omega), List.length_cons, Nat.add_assoc,
      Nat.add_comm 1]

omit [DecidableEq Tid] in
theorem wakeupreader_eq (h : lock.readers.length + lock.nrofreader < 2 ^ 32) :
    wakeupreader lock = ({ lock with
      readers := []
      nrofreader := lock.nrofreader + lock.readers.length }, fromLast lock.readers) := by
  have hlen := (fromLast_perm lock.readers).length_eq
  rw [wakeupreader, foldl_nrofreader _ _ (by omega), hlen]

/-- What keeps a lock in order. -/
structure RwlockT.Ordered (lock : RwlockT Tid) : Prop where
  exclusive : lock.writer ≠ none → lock.nrofreader = 0
  lt : lock.nrofreader < 2 ^ 32
  readers : lock.readers ≠ [] → lock.writer ≠ none ∨ lock.writers ≠ []
  free : lock.writer = none → lock.nrofreader = 0 → lock.readers = [] ∧ lock.writers = []

/-- The sections of `lockreader_rwlock`. -/
inductive LockedReader (lock : RwlockT Tid) (self : Tid) : Outcome Tid → Prop
  | err (err : Errno) : LockedReader lock self ⟨.err err, lock, [], []⟩
  | wait : lock.writers ≠ [] ∨ lock.writer ≠ none →
      LockedReader lock self ⟨.wait, { lock with readers := lock.readers ++ [self] }, [], []⟩
  | ok : lock.writers = [] → lock.writer = none → lock.nrofreader + 1 < 2 ^ 32 →
      LockedReader lock self ⟨.ok, { lock with nrofreader := lock.nrofreader + 1 }, [self], []⟩

theorem lockreader_spec (h : lock.Ordered) (self : Tid) :
    LockedReader lock self (lockreader lock self) := by
  have hlt := h.lt
  rw [lockreader]
  dsimp only
  split_ifs with hwait hself hover
  · exact .err _
  · exact .wait hwait
  · have hn : (lock.nrofreader + 1) % 2 ^ 32 + (2 ^ 32 - 1) = lock.nrofreader := by omega
    have hmod : ((lock.nrofreader + 1) % 2 ^ 32 + (2 ^ 32 - 1)) % 2 ^ 32 = lock.nrofreader := by
      omega
    rw [hmod]
    exact .err _
  · push Not at hwait
    have hmod : (lock.nrofreader + 1) % 2 ^ 32 = lock.nrofreader + 1 := by omega
    rw [hmod]
    exact .ok hwait.1 hwait.2 (by omega)

/-- The sections of `lockwriter_rwlock`. -/
inductive LockedWriter (lock : RwlockT Tid) (self : Tid) : Outcome Tid → Prop
  | err (err : Errno) : LockedWriter lock self ⟨.err err, lock, [], []⟩
  | wait : lock.writer ≠ none ∨ lock.nrofreader ≠ 0 →
      LockedWriter lock self ⟨.wait, { lock with writers := lock.writers ++ [self] }, [], []⟩
  | ok : lock.writer = none → lock.nrofreader = 0 →
      LockedWriter lock self ⟨.ok, { lock with writer := some self }, [], [self]⟩

theorem lockwriter_spec (lock : RwlockT Tid) (self : Tid) :
    LockedWriter lock self (lockwriter lock self) := by
  rw [lockwriter]
  split_ifs with hwait hself
  · exact .err _
  · exact .wait hwait
  · push Not at hwait
    exact .ok hwait.1 hwait.2

/-- The sections of `unlockreader_rwlock`. -/
inductive UnlockedReader (lock : RwlockT Tid) : Outcome Tid → Prop
  | err : lock.nrofreader = 0 → UnlockedReader lock ⟨.err .EPERM, lock, [], []⟩
  | writer (first : Tid) (rest : List Tid) : lock.nrofreader = 1 → lock.writers = first :: rest →
      UnlockedReader lock
        ⟨.ok, { lock with nrofreader := 0, writer := some first, writers := rest }, [], [first]⟩
  | free : 0 < lock.nrofreader →
      (lock.nrofreader = 1 → lock.readers = [] ∧ lock.writers = []) →
      UnlockedReader lock ⟨.ok, { lock with nrofreader := lock.nrofreader - 1 }, [], []⟩

omit [DecidableEq Tid] in
theorem unlockreader_spec (h : lock.Ordered) : UnlockedReader lock (unlockreader lock) := by
  rw [unlockreader]
  dsimp only
  split_ifs with h0 h1 hwriters hreaders
  · exact .err h0
  · obtain ⟨first, rest, hw⟩ := List.exists_cons_of_ne_nil hwriters
    rw [wakeupwriter]
    dsimp only
    rw [hw, h1]
    exact .writer first rest (by omega) hw
  · have hwriter : lock.writer = none := by
      by_contra hne
      exact h0 (h.exclusive hne)
    rcases h.readers hreaders with hne | hne
    · exact absurd hwriter hne
    · exact absurd hne hwriters
  · exact .free (by omega) fun _ => ⟨not_not.mp hreaders, not_not.mp hwriters⟩
  · exact .free (by omega) fun heq => absurd (by omega) h1

/-- The sections of `unlockwriter_rwlock`. -/
inductive UnlockedWriter (lock : RwlockT Tid) (self : Tid) : Outcome Tid → Prop
  | err : UnlockedWriter lock self ⟨.err .EPERM, lock, [], []⟩
  | readers : lock.writer = some self → lock.readers ≠ [] →
      UnlockedWriter lock self
        ⟨.ok, { lock with writer := none, readers := [], nrofreader := lock.readers.length },
          fromLast lock.readers, []⟩
  | writer (first : Tid) (rest : List Tid) : lock.writer = some self → lock.readers = [] →
      lock.writers = first :: rest →
      UnlockedWriter lock self
        ⟨.ok, { lock with writer := some first, writers := rest }, [], [first]⟩
  | free : lock.writer = some self → lock.readers = [] → lock.writers = [] →
      UnlockedWriter lock self ⟨.ok, { lock with writer := none }, [], []⟩

theorem unlockwriter_spec (h : lock.Ordered) (hlen : lock.readers.length < 2 ^ 32) (self : Tid) :
    UnlockedWriter lock self (unlockwriter lock self) := by
  rw [unlockwriter]
  dsimp only
  split_ifs with hself hreaders hwriters
  · exact .err
  · have hwriter := not_not.mp hself
    have h0 := h.exclusive (by rw [hwriter]; exact Option.some_ne_none self)
    rw [wakeupreader_eq (by dsimp only; omega)]
    dsimp only
    rw [h0, Nat.zero_add]
    exact .readers hwriter hreaders
  · obtain ⟨first, rest, hw⟩ := List.exists_cons_of_ne_nil hwriters
    rw [wakeupwriter]
    dsimp only
    rw [hw]
    exact .writer first rest (not_not.mp hself) (not_not.mp hreaders) hw
  · exact .free (not_not.mp hself) (not_not.mp hreaders) (not_not.mp hwriters)

/-! ## Steps -/

variable {s s' : State Tid} {a : Act}

/-- What is kept by every step. -/
structure Inv (s : State Tid) : Prop where
  ordered : s.lock.Ordered
  writer : s.writelocks = (s.lock.writer.toList : Multiset Tid)
  nrofreader : s.readlocks.card = s.lock.nrofreader
  nodup : (s.lock.readers ++ s.lock.writers).Nodup
  waiting : ∀ t ∈ s.lock.readers ++ s.lock.writers, s.pc t = .waiting
  granted : ∀ t, s.granted t + s.lock.readers.count t + s.lock.writers.count t = s.calls t

theorem inv_init : Inv (State.init : State Tid) where
  ordered := ⟨fun h => absurd rfl h, Nat.two_pow_pos 32, fun h => absurd rfl h, fun _ _ => ⟨rfl, rfl⟩⟩
  writer := rfl
  nrofreader := rfl
  nodup := List.nodup_nil
  waiting _ h := absurd h List.not_mem_nil
  granted _ := rfl

theorem Inv.notMem (h : Inv s) (ht : s.pc t = .idle) : t ∉ s.lock.readers ++ s.lock.writers := by
  intro hmem
  rw [h.waiting t hmem] at ht
  exact absurd ht nofun

theorem waiting_update (hmem : ∀ u ∈ s.lock.readers ++ s.lock.writers, s.pc u = .waiting) :
    ∀ u, u = t ∨ u ∈ s.lock.readers ++ s.lock.writers → Function.update s.pc t .waiting u = .waiting := by
  intro u hu
  rcases eq_or_ne u t with rfl | hne
  · exact Function.update_self ..
  · rw [Function.update_of_ne hne]
    exact hmem u (hu.resolve_left hne)

theorem update_add_one (calls : Tid → ℕ) (t u : Tid) :
    Function.update calls t (calls t + 1) u = calls u + [t].count u := by
  rcases eq_or_ne u t with rfl | hne
  · rw [Function.update_self, List.count_singleton_self]
  · rw [Function.update_of_ne hne, List.count_eq_zero.mpr fun hmem => hne (List.mem_singleton.mp hmem)]
    rfl

theorem inv_err (h : Inv s) (err : Errno) : Inv (s.grant ⟨.err err, s.lock, [], []⟩) where
  ordered := h.ordered
  writer := (add_zero s.writelocks).trans h.writer
  nrofreader := (congrArg Multiset.card (add_zero s.readlocks)).trans h.nrofreader
  nodup := h.nodup
  waiting := h.waiting
  granted := h.granted

theorem inv_lockreader (h : Inv s) (ht : s.pc t = .idle) :
    Inv (s.locking t (lockreader s.lock t)) := by
  have hspec := lockreader_spec h.ordered t
  have hnot := h.notMem ht
  have hnodup := h.nodup
  have hgranted := h.granted
  generalize lockreader s.lock t = o at *
  obtain ⟨hexcl, hlt, hreaders, hfree⟩ := h.ordered
  cases hspec with
  | err err => exact inv_err h err
  | wait hwait =>
    have hperm : (s.lock.readers ++ [t] ++ s.lock.writers).Perm
        (t :: (s.lock.readers ++ s.lock.writers)) := by
      rw [List.append_assoc]
      exact List.perm_middle
    refine ⟨⟨hexcl, hlt, fun _ => hwait.symm, fun hno => ?_⟩,
      (add_zero s.writelocks).trans h.writer,
      (congrArg Multiset.card (add_zero s.readlocks)).trans h.nrofreader,
      hperm.nodup_iff.mpr (List.nodup_cons.mpr ⟨hnot, hnodup⟩), fun u hu => ?_, fun u => ?_⟩
    · intro h0
      rcases hwait with hw | hw
      · exact absurd (hfree hno h0).2 hw
      · exact absurd hno hw
    · exact waiting_update h.waiting u (List.mem_cons.mp (hperm.mem_iff.mp hu))
    · have hu := hgranted u
      simp only [State.locking, State.grant, List.count_append, List.count_nil, update_add_one]
      omega
  | ok hwriters hwriter hnr =>
    refine ⟨⟨fun hne => absurd hwriter hne, hnr, hreaders, fun _ h0 => absurd h0 (Nat.succ_ne_zero _)⟩,
      (add_zero s.writelocks).trans h.writer, ?_, hnodup, h.waiting, fun u => ?_⟩
    · simp only [State.locking, State.grant, Multiset.card_add, h.nrofreader]
      rfl
    · have hu := hgranted u
      simp only [State.locking, State.grant, List.count_nil, update_add_one]
      omega

theorem inv_lockwriter (h : Inv s) (ht : s.pc t = .idle) :
    Inv (s.locking t (lockwriter s.lock t)) := by
  have hspec := lockwriter_spec s.lock t
  have hnot := h.notMem ht
  have hnodup := h.nodup
  have hgranted := h.granted
  generalize lockwriter s.lock t = o at *
  obtain ⟨hexcl, hlt, hreaders, hfree⟩ := h.ordered
  cases hspec with
  | err err => exact inv_err h err
  | wait hwait =>
    have hperm : (s.lock.readers ++ (s.lock.writers ++ [t])).Perm
        (t :: (s.lock.readers ++ s.lock.writers)) := by
      rw [← List.append_assoc]
      exact List.perm_append_singleton t _
    refine ⟨⟨hexcl, hlt, fun _ => Or.inr (List.append_ne_nil_of_right_ne_nil _ (List.cons_ne_nil _ _)),
        fun hno h0 => ?_⟩,
      (add_zero s.writelocks).trans h.writer,
      (congrArg Multiset.card (add_zero s.readlocks)).trans h.nrofreader,
      hperm.nodup_iff.mpr (List.nodup_cons.mpr ⟨hnot, hnodup⟩), fun u hu => ?_, fun u => ?_⟩
    · rcases hwait with hw | hw
      · exact absurd hno hw
      · exact absurd h0 hw
    · exact waiting_update h.waiting u (List.mem_cons.mp (hperm.mem_iff.mp hu))
    · have hu := hgranted u
      simp only [State.locking, State.grant, List.count_append, List.count_nil, update_add_one]
      omega
  | ok hwriter hnr =>
    obtain ⟨hr, hw⟩ := hfree hwriter hnr
    have hzero : s.writelocks = 0 := by
      rw [h.writer, hwriter]
      rfl
    refine ⟨⟨fun _ => hnr, hlt, fun _ => Or.inl (Option.some_ne_none t), fun hno => absurd hno nofun⟩,
      ?_, (congrArg Multiset.card (add_zero s.readlocks)).trans h.nrofreader, hnodup, h.waiting,
      fun u => ?_⟩
    · simp only [State.locking, State.grant, hzero, zero_add]
      rfl
    · have hu := hgranted u
      simp only [State.locking, State.grant, List.count_nil, update_add_one]
      omega

theorem inv_unlockreader (h : Inv s) (hcall : t ∈ s.readlocks ∨ s.lock.nrofreader = 0) :
    Inv ({ s with
      readlocks := if (unlockreader s.lock).result = Result.ok then s.readlocks.erase t
        else s.readlocks }.grant (unlockreader s.lock)) := by
  have hspec := unlockreader_spec h.ordered
  have hnodup := h.nodup
  have hgranted := h.granted
  have hcard := h.nrofreader
  generalize unlockreader s.lock = o at *
  obtain ⟨hexcl, hlt, hreaders, hfree⟩ := h.ordered
  have hwriter : s.lock.nrofreader ≠ 0 → s.lock.writer = none := fun hne => by
    by_contra hw
    exact hne (hexcl hw)
  have herase : s.lock.nrofreader ≠ 0 → (s.readlocks.erase t).card = s.lock.nrofreader - 1 := fun hne => by
    rw [Multiset.card_erase_of_mem (hcall.resolve_right hne), hcard, Nat.pred_eq_sub_one]
  cases hspec with
  | err h0 => exact inv_err h .EPERM
  | writer first rest h1 hlist =>
    have hno : s.lock.writer = none := hwriter (by omega)
    have hzero : s.writelocks = 0 := by
      rw [h.writer, hno]
      rfl
    have hlen := herase (by omega)
    rw [hlist] at hnodup
    have hsub : (s.lock.readers ++ rest).Sublist (s.lock.readers ++ first :: rest) :=
      (List.sublist_cons_self first rest).append_left _
    refine ⟨⟨fun _ => rfl, Nat.two_pow_pos 32, fun _ => Or.inl (Option.some_ne_none first),
      fun hno => absurd hno nofun⟩, ?_, ?_, hnodup.sublist hsub, fun u hu => ?_, fun u => ?_⟩
    · simp only [State.grant, hzero, zero_add]
      rfl
    · simp only [State.grant, if_true, Multiset.card_add, hlen, h1]
      rfl
    · exact h.waiting u (hlist ▸ hsub.subset hu)
    · have hu := hgranted u
      rw [hlist, List.count_cons] at hu
      simp only [State.grant, List.count_nil, List.count_singleton]
      omega
  | free hpos hone =>
    have hno : s.lock.writer = none := hwriter (by omega)
    have hlt' : s.lock.nrofreader - 1 < 2 ^ 32 := by omega
    have hfree' : s.lock.nrofreader - 1 = 0 → s.lock.readers = [] ∧ s.lock.writers = [] :=
      fun h0 => hone (by omega)
    refine ⟨⟨fun hne => absurd hno hne, hlt', hreaders, fun _ => hfree'⟩,
      (add_zero s.writelocks).trans h.writer, ?_, hnodup, h.waiting, hgranted⟩
    simp only [State.grant, if_true, Multiset.card_add, herase (by omega : s.lock.nrofreader ≠ 0)]
    rfl

theorem inv_unlockwriter (h : Inv s) (hlen : s.lock.readers.length < 2 ^ 32) :
    Inv ({ s with
      writelocks := if (unlockwriter s.lock t).result = Result.ok then s.writelocks.erase t
        else s.writelocks }.grant (unlockwriter s.lock t)) := by
  have hspec := unlockwriter_spec h.ordered hlen t
  have hnodup := h.nodup
  have hgranted := h.granted
  have hcard := h.nrofreader
  generalize unlockwriter s.lock t = o at *
  obtain ⟨hexcl, hlt, hreaders, hfree⟩ := h.ordered
  have herase : s.lock.writer = some t → s.writelocks.erase t = 0 := fun hw => by
    rw [h.writer, hw]
    exact Multiset.erase_cons_head t 0
  have hzero : s.lock.writer = some t → s.lock.nrofreader = 0 := fun hw =>
    hexcl (by rw [hw]; exact Option.some_ne_none t)
  cases hspec with
  | err => exact inv_err h .EPERM
  | readers hw hne =>
    have hperm := fromLast_perm s.lock.readers
    refine ⟨⟨fun hno => absurd rfl hno, hlen, fun hno => absurd rfl hno,
      fun _ h0 => absurd (List.eq_nil_of_length_eq_zero h0) hne⟩, ?_, ?_, ?_, fun u hu => ?_, fun u => ?_⟩
    · simp only [State.grant, if_true, herase hw]
      rfl
    · simp only [State.grant, Multiset.card_add, hcard, hzero hw, Multiset.coe_card, hperm.length_eq,
        Nat.zero_add]
    · exact hnodup.sublist (List.sublist_append_right _ _)
    · exact h.waiting u (List.mem_append_right _ hu)
    · have hu := hgranted u
      simp only [State.grant, List.count_nil, hperm.count_eq]
      omega
  | writer first rest hw hnil hlist =>
    rw [hlist] at hnodup
    have hsub : (s.lock.readers ++ rest).Sublist (s.lock.readers ++ first :: rest) :=
      (List.sublist_cons_self first rest).append_left _
    refine ⟨⟨fun _ => hzero hw, hlt, fun _ => Or.inl (Option.some_ne_none first),
      fun hno => absurd hno nofun⟩, ?_, (congrArg Multiset.card (add_zero s.readlocks)).trans hcard,
      hnodup.sublist hsub, fun u hu => ?_, fun u => ?_⟩
    · simp only [State.grant, if_true, herase hw, zero_add]
      rfl
    · exact h.waiting u (hlist ▸ hsub.subset hu)
    · have hu := hgranted u
      rw [hlist, List.count_cons] at hu
      simp only [State.grant, List.count_nil, List.count_singleton]
      omega
  | free hw hr hwr =>
    refine ⟨⟨fun hno => absurd rfl hno, hlt, fun hne => absurd hr hne, fun _ _ => ⟨hr, hwr⟩⟩, ?_,
      (congrArg Multiset.card (add_zero s.readlocks)).trans hcard, hnodup, h.waiting, hgranted⟩
    simp only [State.grant, if_true, herase hw]
    rfl

/-- **Every step keeps the lock in order**, if there are fewer than `2 ^ 32` threads. -/
theorem inv_exec (hthreads : ∀ l : List Tid, l.Nodup → l.length < 2 ^ 32) (h : Inv s)
    (hcall : IsCalled s t a) (hs : exec s t a = some s') : Inv s' := by
  rw [exec.eq_def] at hs
  split at hs
  · next hpc => exact Option.some.inj hs ▸ inv_lockreader h hpc
  · next hpc => exact Option.some.inj hs ▸ inv_lockwriter h hpc
  · exact Option.some.inj hs ▸ inv_unlockreader h (hcall rfl)
  · have hlen := hthreads _ (h.nodup.sublist (List.sublist_append_left _ _))
    exact Option.some.inj hs ▸ inv_unlockwriter h hlen
  · split_ifs at hs with hmem <;> obtain rfl := Option.some.inj hs
    · exact h
    · refine ⟨h.ordered, h.writer, h.nrofreader, h.nodup, fun u hu => ?_, h.granted⟩
      have hne : u ≠ t := by
        rintro rfl
        exact hmem (List.mem_append.mp hu)
      exact (Function.update_of_ne hne _ _).trans (h.waiting u hu)
  · exact absurd hs nofun

theorem Inv.protocol (h : Inv s) (hlen : s.lock.readers.length < 2 ^ 32) : Protocol s := by
  have hwriter : s.writelocks = 0 ↔ s.lock.writer = none := by
    rw [h.writer]
    cases s.lock.writer with
    | none => exact iff_of_true rfl rfl
    | some t => exact iff_of_false (Multiset.singleton_ne_zero t) (Option.some_ne_none t)
  have hreader : s.readlocks = 0 ↔ s.lock.nrofreader = 0 := by
    rw [← h.nrofreader, Multiset.card_eq_zero]
  refine
    { exclusive := ?_
      writer := h.writer
      nrofreader := h.nrofreader.symm
      nrofreader_lt := h.nrofreader ▸ h.ordered.lt
      readers := fun hne => (h.ordered.readers hne).imp_left (mt hwriter.mp)
      free := fun h1 h2 => h.ordered.free (hwriter.mp h1) (hreader.mp h2)
      nodup := h.nodup
      waiting := h.waiting
      granted := h.granted
      errors := fun t err => ⟨?_, ?_, ?_, ?_⟩ }
  · by_cases hno : s.lock.writer = none
    · exact Or.inr (hwriter.mpr hno)
    · refine Or.inl ⟨?_, hreader.mpr (h.ordered.exclusive hno)⟩
      rw [h.writer]
      cases s.lock.writer with
      | none => exact Nat.zero_le 1
      | some t => exact le_rfl
  · intro hres
    have hspec := lockreader_spec h.ordered t
    generalize lockreader s.lock t = o at *
    cases hspec with
    | err => rfl
    | wait | ok => exact absurd hres nofun
  · intro hres
    have hspec := lockwriter_spec s.lock t
    generalize lockwriter s.lock t = o at *
    cases hspec with
    | err => rfl
    | wait | ok => exact absurd hres nofun
  · intro hres
    have hspec := unlockreader_spec h.ordered
    generalize unlockreader s.lock = o at *
    cases hspec with
    | err => rfl
    | writer | free => exact absurd hres nofun
  · intro hres
    have hspec := unlockwriter_spec h.ordered hlen t
    generalize unlockwriter s.lock t = o at *
    cases hspec with
    | err => rfl
    | readers | writer | free => exact absurd hres nofun

/-- **The protocol of the lock** holds in every run of fewer than `2 ^ 32` threads which return no read
lock they do not have. -/
theorem steps_protocol (hthreads : ∀ l : List Tid, l.Nodup → l.length < 2 ^ 32)
    (h : Steps exec IsCalled State.init s) : Protocol s := by
  have hinv : Inv s := h.invariant Inv inv_init fun _ _ _ _ hinv hcall hs =>
    inv_exec hthreads hinv hcall hs
  exact hinv.protocol (hthreads _ (hinv.nodup.sublist (List.sublist_append_left _ _)))

/-- A writer hands the lock over to a reader. -/
theorem steps_protocol_handover : ∃ s : State (Fin 2),
    execAll exec State.init [(0, .lockwriter), (1, .lockreader), (0, .unlockwriter), (1, .resume)] = some s ∧
      s.lock = ⟨[], [], none, 1⟩ ∧ Protocol s := by
  refine ⟨_, rfl, rfl, steps_protocol (fun l hl => ?_) (((((Steps.refl _).tail (t := 0)
    (a := .lockwriter) nofun rfl).tail (t := 1) (a := .lockreader) nofun rfl).tail (t := 0)
    (a := .unlockwriter) nofun rfl).tail (t := 1) (a := .resume) nofun rfl)⟩
  have hcard := hl.length_le_card
  rw [Fintype.card_fin] at hcard
  omega

end Rwlock
end CKern
