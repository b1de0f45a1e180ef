import CKern.Library.Interleaving

/-!
# `platform/Linux/sync/eventcount.c`: counting events

* `exec`: the steps of `count_eventcount`, `trywait_eventcount` and `wait_eventcount`.  An atomic
  operation on `nrevents` is one step, and so is a section under `lockflag`.
* `steps_balance`: the events that are counted are the ones that were waited for, the ones that are
  left, and the ones of the threads that were woken up.
* `steps_waits_le_counts`: no event is handed out twice, as long as a wake-up finds a thread only if
  there is an event for it.
-/

namespace CKern
namespace Eventcount

open Interleaving

/-! ## The code -/

def INT32_MAX : ℤ := 2147483647

def INT32_MIN : ℤ := -2147483648

/-- A value of type `int32_t` behind an atomic addition. -/
def wrap (x : ℤ) : ℤ := (x + 2147483648) % 4294967296 - 2147483648

/-- The functions that wait; `wait_eventcount` may have a timeout. -/
inductive Call
  | trywait
  | wait (timeout : Bool)
  deriving DecidableEq, Repr

/-- Where a thread is. -/
inductive Pc
  /-- In no call. -/
  | idle
  /-- In `count_eventcount`, in front of `lock_counter`. -/
  | wakingup
  /-- In the loop of `trywait_eventcount`, in front of `cmpxchg_atomicint`. -/
  | trying (call : Call) (oldval : ℤ)
  /-- In `wait2_eventcount`, in front of `lock_counter`. -/
  | waiting2 (timeout : Bool)
  /-- In the waiting loop. -/
  | suspended (timeout : Bool)
  deriving DecidableEq, Repr

/-- `eventcount_t`, the places of the threads, and the number of counts and of waits that
returned 0. -/
structure State (Tid : Type) where
  nrevents : ℤ
  threadlist : List Tid
  pc : Tid → Pc
  counts : ℕ
  waits : ℕ

/-- `eventcount_INIT`. -/
def State.init {Tid : Type} : State Tid := ⟨0, [], fun _ => .idle, 0, 0⟩

/-- What a thread does next. -/
inductive Act
  | count
  | wakeup
  | call (call : Call)
  | cmpxchg
  | wait2
  | resume
  | timeout
  deriving DecidableEq, Repr

variable {Tid : Type} [DecidableEq Tid] {s s' : State Tid} {t : Tid} {a : Act}

def State.setPc (s : State Tid) (t : Tid) (pc : Pc) : State Tid :=
  { s with pc := Function.update s.pc t pc }

/-- The wait of a thread returns 0. -/
def State.ok (s : State Tid) (t : Tid) : State Tid :=
  { s.setPc t .idle with waits := s.waits + 1 }

/-- `count_eventcount` up to `lock_counter`; the assertion aborts the program. -/
def countEventcount (s : State Tid) (t : Tid) : Option (State Tid) :=
  let oldval := s.nrevents
  if oldval = INT32_MAX then none
  else
    some { s.setPc t (if oldval < 0 then .wakingup else .idle) with
      nrevents := oldval + 1
      counts := s.counts + 1 }

/-- `wakeup_thread` under the lock. -/
def wakeupThread (s : State Tid) (t : Tid) : State Tid :=
  { s.setPc t .idle with threadlist := s.threadlist.tail }

/-- The loop condition of `trywait_eventcount`, and what follows if it is false. -/
def trywaitLoop (s : State Tid) (t : Tid) (call : Call) (oldval : ℤ) : State Tid :=
  if oldval > 0 then s.setPc t (.trying call oldval)
  else
    match call with
    | .trywait => s.setPc t .idle
    | .wait timeout => s.setPc t (.waiting2 timeout)

/-- The loop of `trywait_eventcount`. -/
def cmpxchg (s : State Tid) (t : Tid) (call : Call) (oldval : ℤ) : State Tid :=
  if s.nrevents = oldval then { s.ok t with nrevents := oldval - 1 }
  else trywaitLoop s t call s.nrevents

/-- The first section of `wait2_eventcount`; the assertion aborts the program. -/
def wait2Eventcount (s : State Tid) (t : Tid) (timeout : Bool) : Option (State Tid) :=
  let oldval := s.nrevents
  if oldval = INT32_MIN then none
  else if oldval > 0 then some { s.ok t with nrevents := oldval - 1 }
  else
    some { s.setPc t (.suspended timeout) with
      nrevents := oldval - 1
      threadlist := s.threadlist ++ [t] }

/-- The waiting loop behind `suspend_thread`: the thread is resumed, for some reason or other. -/
def resumeThread (s : State Tid) (t : Tid) : State Tid := if t ∈ s.threadlist then s else s.ok t

/-- The section of `wait2_eventcount` for a timeout. -/
def timeoutThread (s : State Tid) (t : Tid) : State Tid :=
  if t ∈ s.threadlist then
    { s.setPc t .idle with
      nrevents := wrap (s.nrevents + 1)
      threadlist := s.threadlist.erase t }
  else s.ok t

/-- A step of the thread `t`. -/
def exec (s : State Tid) (t : Tid) (a : Act) : Option (State Tid) :=
  match s.pc t, a with
  | .idle, .count => countEventcount s t
  | .idle, .call call => some (trywaitLoop s t call s.nrevents)
  | .wakingup, .wakeup => some (wakeupThread s t)
  | .trying call oldval, .cmpxchg => some (cmpxchg s t call oldval)
  | .waiting2 timeout, .wait2 => wait2Eventcount s t timeout
  | .suspended _, .resume => some (resumeThread s t)
  | .suspended true, .timeout => some (timeoutThread s t)
  | _, _ => none

/-! ## The states that are reached -/

/-- The thread is in the waiting loop. -/
def Pc.IsSuspended : Pc → Prop
  | .suspended _ => True
  | _ => False

/-- The value read by `trywait_eventcount` is positive in its loop. -/
def Pc.Fits : Pc → Prop
  | .trying _ oldval => 0 < oldval
  | _ => True

/-- The threads that were woken up and did not return yet. -/
def State.woken (s : State Tid) : Set Tid := {t | (s.pc t).IsSuspended ∧ t ∉ s.threadlist}

/-- No operation is between two of its steps. -/
def State.Quiet (s : State Tid) : Prop := ∀ t, s.pc t = .idle ∨ t ∈ s.threadlist

/-- What holds of every state. -/
structure Balanced (s : State Tid) : Prop where
  nodup : s.threadlist.Nodup
  suspended : ∀ t ∈ s.threadlist, (s.pc t).IsSuspended
  fits : ∀ t, (s.pc t).Fits
  bounds : INT32_MIN ≤ s.nrevents ∧ s.nrevents ≤ INT32_MAX
  balance : ∃ k : ℕ, s.woken.encard = k ∧
    s.nrevents + s.waits + s.threadlist.length + k = s.counts

/-- There are not more events at the same time than the type of the counter has room for. -/
def HasRoom (s : State Tid) (_ : Tid) (a : Act) : Prop := a = .timeout → s.nrevents ≠ INT32_MAX

/-- A thread that is woken up is one of those there is an event for: more threads wait than the counter
is negative. -/
def IsOwed (s : State Tid) (_ : Tid) (a : Act) : Prop :=
  a = .wakeup → s.threadlist ≠ [] → 0 < s.nrevents + s.threadlist.length

@[simp] theorem setPc_self (s : State Tid) (t : Tid) (x : Pc) : (s.setPc t x).pc t = x := by
  simp [State.setPc]

theorem setPc_of_ne {u : Tid} (hu : u ≠ t) (x : Pc) : (s.setPc t x).pc u = s.pc u := by
  simp [State.setPc, hu]

omit [DecidableEq Tid] in
theorem balanced_init : Balanced (State.init : State Tid) where
  nodup := List.nodup_nil
  suspended _ h := absurd h List.not_mem_nil
  fits _ := True.intro
  bounds := by
    change INT32_MIN ≤ 0 ∧ 0 ≤ INT32_MAX
    decide
  balance := by
    have h : (State.init : State Tid).woken = ∅ := Set.eq_empty_of_forall_notMem fun _ h => h.1
    exact ⟨0, by rw [h, Set.encard_empty]; rfl, rfl⟩

omit [DecidableEq Tid] in
theorem notMem_of_not_isSuspended (h : ∀ u ∈ s.threadlist, (s.pc u).IsSuspended)
    (ht : ¬(s.pc t).IsSuspended) : t ∉ s.threadlist :=
  fun hmem => ht (h t hmem)

theorem fits_setPc (h : ∀ u, (s.pc u).Fits) {x : Pc} (hx : x.Fits) (u : Tid) :
    ((s.setPc t x).pc u).Fits := by
  rcases eq_or_ne u t with rfl | hu
  · rwa [setPc_self]
  · rw [setPc_of_ne hu]
    exact h u

theorem Balanced.move (h : Balanced s) {x : Pc} (ht : ¬(s.pc t).IsSuspended) (hx : ¬x.IsSuspended)
    (hfit : x.Fits) (hpc : s'.pc = (s.setPc t x).pc) (hlist : s'.threadlist = s.threadlist)
    (hbounds : INT32_MIN ≤ s'.nrevents ∧ s'.nrevents ≤ INT32_MAX)
    (hsum : s'.nrevents + s'.waits - s'.counts = s.nrevents + s.waits - s.counts) : Balanced s' := by
  have hne : ∀ u, u ∈ s.threadlist → u ≠ t := fun u hu heq =>
    notMem_of_not_isSuspended h.suspended ht (heq ▸ hu)
  have hwoken : s'.woken = s.woken := by
    refine Set.ext fun u => ?_
    rw [State.woken, State.woken, Set.mem_ofPred_eq, Set.mem_ofPred_eq, hlist, hpc]
    rcases eq_or_ne u t with rfl | hu
    · rw [setPc_self]
      exact iff_of_false (fun hw => hx hw.1) fun hw => ht hw.1
    · rw [setPc_of_ne hu]
  refine ⟨hlist ▸ h.nodup, fun u hu => ?_, fun u => ?_, hbounds, ?_⟩
  · rw [hlist] at hu
    rw [hpc, setPc_of_ne (hne u hu)]
    exact h.suspended u hu
  · rw [hpc]
    exact fits_setPc h.fits hfit u
  · obtain ⟨k, hk, hbal⟩ := h.balance
    exact ⟨k, hwoken ▸ hk, by rw [hlist]; omega⟩

/-! ## One step -/

theorem balanced_trywaitLoop (h : Balanced s) (ht : ¬(s.pc t).IsSuspended) (call : Call) (oldval : ℤ) :
    Balanced (trywaitLoop s t call oldval) := by
  have hmove : ∀ x : Pc, ¬x.IsSuspended → x.Fits → Balanced (s.setPc t x) := fun x hx hfit =>
    h.move ht hx hfit rfl rfl h.bounds rfl
  rw [trywaitLoop.eq_def]
  split_ifs with hpos
  · exact hmove _ id hpos
  · cases call with
    | trywait => exact hmove _ id True.intro
    | wait timeout => exact hmove _ id True.intro

theorem balanced_countEventcount (h : Balanced s) (ht : ¬(s.pc t).IsSuspended)
    (hs : countEventcount s t = some s') : Balanced s' := by
  have hb := h.bounds
  rw [countEventcount] at hs
  dsimp only at hs
  split_ifs at hs with hmax hneg <;> obtain rfl := Option.some.inj hs
  · refine h.move (t := t) (x := .wakingup) ht id True.intro rfl rfl ?_ ?_ <;> dsimp only [State.setPc] <;> omega
  · refine h.move (t := t) (x := .idle) ht id True.intro rfl rfl ?_ ?_ <;> dsimp only [State.setPc] <;> omega

theorem balanced_cmpxchg (h : Balanced s) (ht : ¬(s.pc t).IsSuspended) (call : Call) {oldval : ℤ}
    (hold : 0 < oldval) : Balanced (cmpxchg s t call oldval) := by
  have hb := h.bounds
  rw [cmpxchg]
  split_ifs with heq
  · rw [INT32_MIN] at hb
    refine h.move (t := t) (x := .idle) ht id True.intro rfl rfl ?_ ?_ <;>
      dsimp only [State.ok, State.setPc, INT32_MIN] <;> omega
  · exact balanced_trywaitLoop h ht call _

theorem notMem_woken_ok (s : State Tid) (t : Tid) : t ∉ (s.ok t).woken := by
  simp [State.woken, State.ok, State.setPc, Pc.IsSuspended]

theorem woken_eq_insert (ht : (s.pc t).IsSuspended) (hmem : t ∉ s.threadlist) :
    s.woken = insert t (s.ok t).woken := by
  refine Set.ext fun u => ?_
  rcases eq_or_ne u t with rfl | hu
  · simp [State.woken, ht, hmem]
  · simp [State.woken, State.ok, State.setPc, hu]

theorem balanced_ok (h : Balanced s) (ht : (s.pc t).IsSuspended) (hmem : t ∉ s.threadlist) :
    Balanced (s.ok t) := by
  obtain ⟨k, hk, hbal⟩ := h.balance
  obtain ⟨j, rfl, hj⟩ := encard_erase (notMem_woken_ok s t) hk (woken_eq_insert ht hmem)
  refine ⟨h.nodup, fun u hu => ?_, fits_setPc h.fits True.intro, h.bounds, j, hj, ?_⟩
  · have hne : u ≠ t := fun heq => hmem (heq ▸ hu)
    exact (setPc_of_ne hne _).symm ▸ h.suspended u hu
  · dsimp only [State.ok, State.setPc]
    omega

theorem balanced_resumeThread (h : Balanced s) (ht : (s.pc t).IsSuspended) :
    Balanced (resumeThread s t) := by
  rw [resumeThread]
  split_ifs with hmem
  · exact h
  · exact balanced_ok h ht hmem

theorem balanced_wait2Eventcount (h : Balanced s) (ht : ¬(s.pc t).IsSuspended) (timeout : Bool)
    (hs : wait2Eventcount s t timeout = some s') : Balanced s' := by
  have hb := h.bounds
  have hmem := notMem_of_not_isSuspended h.suspended ht
  rw [wait2Eventcount] at hs
  dsimp only at hs
  split_ifs at hs with hmin hpos <;> obtain rfl := Option.some.inj hs
  · rw [INT32_MIN] at hb
    refine h.move (t := t) (x := .idle) ht id True.intro rfl rfl ?_ ?_ <;>
      dsimp only [State.ok, State.setPc, INT32_MIN] <;> omega
  · obtain ⟨k, hk, hbal⟩ := h.balance
    generalize hs' : { s.setPc t (.suspended timeout) with
      nrevents := s.nrevents - 1
      threadlist := s.threadlist ++ [t] } = s'
    have hwoken : s'.woken = s.woken := by
      subst hs'
      refine Set.ext fun u => ?_
      rcases eq_or_ne u t with rfl | hu
      · simp [State.woken, ht]
      · simp [State.woken, State.setPc, hu]
    subst hs'
    refine ⟨List.nodup_append.mpr ⟨h.nodup, List.nodup_singleton t, ?_⟩, fun u hu => ?_,
      fits_setPc h.fits True.intro, ?_, k, ?_, ?_⟩
    · intro u hu v hv heq
      exact hmem (List.mem_singleton.mp hv ▸ heq ▸ hu)
    · rcases eq_or_ne u t with rfl | hne
      · exact (setPc_self s u (.suspended timeout)).symm ▸ True.intro
      · have hu' : u ∈ s.threadlist := (List.mem_append.mp hu).resolve_right fun hv =>
          hne (List.mem_singleton.mp hv)
        exact (setPc_of_ne hne (.suspended timeout)).symm ▸ h.suspended u hu'
    · dsimp only
      omega
    · exact hwoken ▸ hk
    · dsimp only [State.setPc]
      rw [List.length_append, List.length_singleton]
      omega

theorem balanced_timeoutThread (h : Balanced s) (ht : (s.pc t).IsSuspended)
    (hroom : s.nrevents ≠ INT32_MAX) : Balanced (timeoutThread s t) := by
  have hb := h.bounds
  rw [timeoutThread]
  split_ifs with hmem
  · obtain ⟨k, hk, hbal⟩ := h.balance
    have hwrap : wrap (s.nrevents + 1) = s.nrevents + 1 := by
      rw [INT32_MIN, INT32_MAX] at hb
      rw [INT32_MAX] at hroom
      rw [wrap]
      omega
    generalize hs' : { s.setPc t .idle with
      nrevents := wrap (s.nrevents + 1)
      threadlist := s.threadlist.erase t } = s'
    have hwoken : s'.woken = s.woken := by
      subst hs'
      refine Set.ext fun u => ?_
      rcases eq_or_ne u t with rfl | hu
      · simp [State.woken, Pc.IsSuspended, hmem]
      · simp [State.woken, State.setPc, hu, List.mem_erase_of_ne hu]
    have hlen := List.length_erase_of_mem hmem
    have hpos := List.length_pos_of_mem hmem
    subst hs'
    refine ⟨h.nodup.erase t, fun u hu => ?_, fits_setPc h.fits True.intro, ?_, k, hwoken ▸ hk, ?_⟩
    · have hu' := (h.nodup.mem_erase_iff).mp hu
      exact (setPc_of_ne hu'.1 .idle).symm ▸ h.suspended u hu'.2
    · dsimp only
      rw [hwrap]
      omega
    · dsimp only [State.setPc]
      rw [hwrap, hlen]
      omega
  · exact balanced_ok h ht hmem

theorem balanced_wakeupThread (h : Balanced s) (ht : ¬(s.pc t).IsSuspended) :
    Balanced (wakeupThread s t) := by
  obtain ⟨k, hk, hbal⟩ := h.balance
  have hmem := notMem_of_not_isSuspended h.suspended ht
  rcases hlist : s.threadlist with _ | ⟨first, rest⟩
  · refine h.move (t := t) (x := .idle) ht id True.intro rfl ?_ h.bounds rfl
    rw [wakeupThread, hlist]
    rfl
  · have hnodup := h.nodup
    rw [hlist] at hnodup hmem
    have hfirst : (s.pc first).IsSuspended := h.suspended first (hlist ▸ List.mem_cons_self)
    have hne : first ≠ t := fun heq => hmem (heq ▸ List.mem_cons_self)
    have hins : (wakeupThread s t).woken = insert first s.woken := by
      refine Set.ext fun u => ?_
      rcases eq_or_ne u t with rfl | hu
      · have h1 : u ∉ (wakeupThread s u).woken := fun hw => (setPc_self s u .idle).subst hw.1
        have h2 : u ∉ s.woken := fun hw => ht hw.1
        simp [h1, h2, hne.symm]
      · rcases eq_or_ne u first with rfl | hu'
        · simp [State.woken, wakeupThread, State.setPc, hlist, hu, hfirst, (List.nodup_cons.mp hnodup).1]
        · simp [State.woken, wakeupThread, State.setPc, hlist, hu, hu']
    have hnot : first ∉ s.woken := fun hw => hw.2 (hlist ▸ List.mem_cons_self)
    refine ⟨?_, fun u hu => ?_, fits_setPc h.fits True.intro, h.bounds, k + 1,
      encard_insert hnot hk hins, ?_⟩
    · rw [wakeupThread, hlist]
      exact (List.nodup_cons.mp hnodup).2
    · rw [wakeupThread, hlist] at hu
      have hu' : u ∈ first :: rest := List.mem_cons_of_mem _ hu
      have hut : u ≠ t := fun heq => hmem (heq ▸ hu')
      exact (setPc_of_ne hut .idle).symm ▸ h.suspended u (hlist ▸ hu')
    · rw [hlist, List.length_cons] at hbal
      rw [wakeupThread, hlist]
      dsimp only [State.setPc, List.tail_cons]
      omega

/-- **Every step keeps the balance**, if the counter does not overflow. -/
theorem balanced_exec (h : Balanced s) (hroom : HasRoom s t a) (hs : exec s t a = some s') :
    Balanced s' := by
  have hplace : ∀ {x : Pc}, s.pc t = x → ¬x.IsSuspended → ¬(s.pc t).IsSuspended :=
    fun hpc hx => hpc ▸ hx
  rw [exec.eq_def] at hs
  split at hs
  · next hpc => exact balanced_countEventcount h (hplace hpc id) hs
  · next hpc => exact Option.some.inj hs ▸ balanced_trywaitLoop h (hplace hpc id) _ _
  · next hpc => exact Option.some.inj hs ▸ balanced_wakeupThread h (hplace hpc id)
  · next hpc =>
    have hold : (s.pc t).Fits := h.fits t
    rw [hpc] at hold
    exact Option.some.inj hs ▸ balanced_cmpxchg h (hplace hpc id) _ hold
  · next hpc => exact balanced_wait2Eventcount h (hplace hpc id) _ hs
  · next hpc => exact Option.some.inj hs ▸ balanced_resumeThread h (hpc ▸ True.intro)
  · next hpc => exact Option.some.inj hs ▸ balanced_timeoutThread h (hpc ▸ True.intro) (hroom rfl)
  · exact absurd hs nofun

/-! ## Events -/

/-- The number of events that are left for waiting threads is not negative. -/
def Covered (s : State Tid) : Prop := 0 ≤ s.nrevents + s.threadlist.length

theorem covered_trywaitLoop (h : Covered s) (call : Call) (oldval : ℤ) :
    Covered (trywaitLoop s t call oldval) := by
  rw [trywaitLoop.eq_def]
  split_ifs
  · exact h
  · cases call with
    | trywait => exact h
    | wait timeout => exact h

theorem covered_resumeThread (h : Covered s) : Covered (resumeThread s t) := by
  rw [resumeThread]
  split_ifs
  · exact h
  · exact h

/-- **A step takes no event that is not there**, if every wake-up is owed. -/
theorem covered_exec (hb : Balanced s) (h : Covered s) (hroom : HasRoom s t a) (howed : IsOwed s t a)
    (hs : exec s t a = some s') : Covered s' := by
  rw [exec.eq_def] at hs
  split at hs
  · rw [countEventcount] at hs
    dsimp only at hs
    split_ifs at hs <;> obtain rfl := Option.some.inj hs <;> rw [Covered] at * <;>
      dsimp only [State.setPc] <;> omega
  · exact Option.some.inj hs ▸ covered_trywaitLoop h _ _
  · obtain rfl := Option.some.inj hs
    have hlt := howed rfl
    rw [Covered, wakeupThread] at *
    dsimp only [State.setPc]
    rcases hlist : s.threadlist with _ | ⟨first, rest⟩
    · rw [hlist] at h
      exact h
    · have hpos := hlt (hlist ▸ List.cons_ne_nil _ _)
      rw [hlist, List.length_cons] at hpos
      rw [List.tail_cons]
      omega
  · next hpc =>
    obtain rfl := Option.some.inj hs
    have hold : (s.pc t).Fits := hb.fits t
    rw [hpc] at hold
    change 0 < _ at hold
    rw [cmpxchg]
    split_ifs with heq
    · rw [Covered]
      dsimp only [State.ok, State.setPc]
      omega
    · exact covered_trywaitLoop h _ _
  · rw [wait2Eventcount] at hs
    dsimp only at hs
    split_ifs at hs with hmin hpos <;> obtain rfl := Option.some.inj hs <;> rw [Covered] at * <;>
      dsimp only [State.ok, State.setPc]
    · omega
    · rw [List.length_append, List.length_singleton]
      omega
  · exact Option.some.inj hs ▸ covered_resumeThread h
  · obtain rfl := Option.some.inj hs
    rw [timeoutThread]
    split_ifs with hmem
    · have hlen := List.length_erase_of_mem hmem
      have hpos := List.length_pos_of_mem hmem
      have hbounds := hb.bounds
      have hmax := hroom rfl
      have hwrap : wrap (s.nrevents + 1) = s.nrevents + 1 := by
        rw [INT32_MIN, INT32_MAX] at hbounds
        rw [INT32_MAX] at hmax
        rw [wrap]
        omega
      rw [Covered] at *
      dsimp only [State.setPc]
      rw [hwrap, hlen]
      omega
    · exact h
  · exact absurd hs nofun

omit [DecidableEq Tid] in
theorem Balanced.nrevents_eq (h : Balanced s) (hq : s.Quiet) :
    s.nrevents = (s.counts : ℤ) - s.waits - s.threadlist.length := by
  obtain ⟨k, hk, hbal⟩ := h.balance
  have hempty : s.woken = ∅ := by
    refine Set.eq_empty_of_forall_notMem fun t ht => ?_
    rcases hq t with hidle | hmem
    · exact (hidle ▸ ht.1 : Pc.idle.IsSuspended)
    · exact ht.2 hmem
  rw [hempty, Set.encard_empty] at hk
  have hk0 : k = 0 := by exact_mod_cast hk.symm
  omega

/-- **The balance of a run**, whether its wake-ups are owed or not. -/
theorem steps_balance (h : Steps exec HasRoom (State.init : State Tid) s) : Balanced s :=
  h.invariant Balanced balanced_init fun _ _ _ _ hb hok hs => balanced_exec hb hok hs

/-- **No event is handed out twice and none is lost**: in every run whose wake-ups are all owed and
whose counter never overflows, no more waits return 0 than events were counted, and `nrevents` is the
number of events that were counted and not waited for less the number of waiting threads, whenever no
operation is between two steps. -/
theorem steps_waits_le_counts
    (h : Steps exec (fun s t a => HasRoom s t a ∧ IsOwed s t a) (State.init : State Tid) s) :
    s.waits ≤ s.counts ∧
      (s.Quiet → s.nrevents = (s.counts : ℤ) - s.waits - s.threadlist.length) := by
  have hb := steps_balance (h.mono fun _ _ _ hok => hok.1)
  obtain ⟨-, hc⟩ : Balanced s ∧ Covered s :=
    h.invariant (fun s => Balanced s ∧ Covered s) ⟨balanced_init, le_rfl⟩
      fun s t a s' hinv hok hs =>
        ⟨balanced_exec hinv.1 hok.1 hs, covered_exec hinv.1 hinv.2 hok.1 hok.2 hs⟩
  obtain ⟨k, -, hbal⟩ := hb.balance
  rw [Covered] at hc
  exact ⟨by omega, hb.nrevents_eq⟩

/-- A thread waits, an event is counted, and the thread is woken up. -/
theorem steps_waits_le_counts_wakeup : ∃ s : State (Fin 2),
    execAll exec State.init [(0, .call (.wait false)), (0, .wait2), (1, .count), (1, .wakeup),
      (0, .resume)] = some s ∧ s.waits = 1 ∧ s.waits ≤ s.counts :=
  ⟨_, rfl, rfl, (steps_waits_le_counts ((((((Steps.refl _).tail (t := 0) (a := .call (.wait false))
    ⟨nofun, nofun⟩ rfl).tail (t := 0) (a := .wait2) ⟨nofun, nofun⟩ rfl).tail (t := 1) (a := .count)
    ⟨nofun, nofun⟩ rfl).tail (t := 1) (a := .wakeup) ⟨nofun, fun _ _ => by decide⟩ rfl).tail
    (t := 0) (a := .resume) ⟨nofun, nofun⟩ rfl)).1⟩

/-- A wake-up that is announced by one event finds a thread that waits for another one: the first
waiting thread left the list at its timeout, and its event was taken by `trywait_eventcount`. -/
theorem not_forall_waits_le_counts :
    ¬∀ s : State (Fin 4), Steps exec (fun _ _ _ => True) State.init s →
      s.waits ≤ s.counts ∧
        (s.Quiet → s.nrevents = (s.counts : ℤ) - s.waits - s.threadlist.length) := by
  intro h
  have hrun : execAll exec (State.init : State (Fin 4))
      [(0, .call (.wait true)), (0, .wait2), (1, .count), (0, .timeout), (2, .call .trywait),
        (2, .cmpxchg), (3, .call (.wait false)), (3, .wait2), (1, .wakeup), (3, .resume)] =
      some _ := rfl
  have hle := (h _ (steps_of_execAll _ _ hrun)).1
  exact absurd hle (by decide)

/-! ## The condition is exact -/

theorem exists_steps_return (k : ℕ) : ∀ s : State Tid, Balanced s → s.woken.encard = k →
    ∃ s', Steps exec (fun _ _ _ => True) s s' ∧ s'.waits = s.waits + k ∧ s'.counts = s.counts := by
  induction k with
  | zero => exact fun s _ _ => ⟨s, Steps.refl s, rfl, rfl⟩
  | succ k ih =>
    intro s hb hk
    have hne : s.woken.Nonempty := by
      rw [← Set.encard_pos, hk]
      exact_mod_cast Nat.succ_pos k
    obtain ⟨t, ht, hmem⟩ := hne
    have hok := balanced_ok hb ht hmem
    have hstep : exec s t .resume = some (s.ok t) := by
      have hret : resumeThread s t = s.ok t := if_neg hmem
      cases hpc : s.pc t with
      | suspended timeout =>
        rw [exec.eq_def, hpc]
        exact congrArg some hret
      | idle | wakingup | trying | waiting2 =>
        rw [hpc] at ht
        exact ht.elim
    obtain ⟨j, hj, hwoken⟩ := encard_erase (notMem_woken_ok s t) hk (woken_eq_insert ht hmem)
    obtain rfl := Nat.succ.inj hj
    obtain ⟨s', hsteps, hwaits, hcounts⟩ := ih _ hok hwoken
    refine ⟨s', ((Steps.refl s).tail True.intro hstep).trans hsteps, ?_, hcounts⟩
    rw [hwaits]
    exact Nat.add_right_comm s.waits 1 k

/-- **A wake-up that is not owed hands out an event twice**, when the threads return. -/
theorem exists_steps_counts_lt (hb : Balanced s) (hc : Covered s) (howed : ¬IsOwed s t a)
    (hs : exec s t a = some s') :
    ∃ s'', Steps exec (fun _ _ _ => True) s' s'' ∧ s''.counts < s''.waits := by
  rw [IsOwed] at howed
  push Not at howed
  obtain ⟨rfl, hne, hle⟩ := howed
  have hroom : HasRoom s t .wakeup := nofun
  have hb' := balanced_exec hb hroom hs
  obtain ⟨k, hk, hbal⟩ := hb'.balance
  obtain ⟨s'', hsteps, hwaits, hcounts⟩ := exists_steps_return k s' hb' hk
  refine ⟨s'', hsteps, ?_⟩
  have hpos := List.length_pos_iff.mpr hne
  have hs' : s' = wakeupThread s t := by
    rcases hpc : s.pc t with _ | _ | _ | _ | timeout
    case suspended => cases timeout <;> rw [exec.eq_def, hpc] at hs <;> exact absurd hs nofun
    case wakingup =>
      rw [exec.eq_def, hpc] at hs
      exact (Option.some.inj hs).symm
    all_goals
      rw [exec.eq_def, hpc] at hs
      exact absurd hs nofun
  rw [Covered] at hc
  rw [hs', wakeupThread] at hbal
  dsimp only [State.setPc] at hbal
  rw [List.length_tail] at hbal
  rw [hwaits, hcounts, hs', wakeupThread]
  dsimp only [State.setPc]
  omega

end Eventcount
end CKern
