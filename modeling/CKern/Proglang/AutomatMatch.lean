import CKern.Proglang.Statearray
import Mathlib.Computability.EpsilonNFA

/-!
# `proglang/automat.c`: matching

* `Ndfa`: an automaton; `toεNFA` is its meaning.
* `extendLoop`, `resetLoop`, `stepLoop`, `matchLoop`, `matchchar32_automat`: the functions.  The
  marks `isused` belong to the automaton, so that they are there before a call.
* `IsMatch`: the longest or the shortest accepted prefix.
* `extendLoop_ensures`: the list of states is extended to its closure while it is read.
* `matchchar32_automat_exact`: the length returned.
-/

namespace CKern
namespace Automat

open TotalCorrectness

/-! ## The code -/

/-- `rangestate_t` -/
structure RangeState (S : Type) where
  chrFrom : UInt32
  chrTo : UInt32
  state : S

/-- `state_t`: the targets of the empty transitions, and the arrays of the others. -/
structure State (S : Type) where
  emptylist : List S
  rangelist : List (List (RangeState S))

/-- `automat_t` with memory.  The states are the values of `S`, their contents are `state`; no
transition leaves the automaton. -/
structure Ndfa (S : Type) where
  states : List S
  state : S → State S
  isDFA : Bool
  ne_nil : states ≠ []
  empty_mem : ∀ s ∈ states, ∀ t ∈ (state s).emptylist, t ∈ states
  range_mem : ∀ s ∈ states, ∀ r ∈ (state s).rangelist.flatten, r.state ∈ states

variable {S : Type}

/-- The start of `startend_automat`, which is the first state. -/
def Ndfa.start (ndfa : Ndfa S) : S := ndfa.states.head ndfa.ne_nil

/-- The end of `startend_automat`, which is the last state. -/
def Ndfa.last (ndfa : Ndfa S) : S := ndfa.states.getLast ndfa.ne_nil

/-- The local variable `states`, and the marks in the states. -/
structure Run (S : Type) where
  states : Statearray S
  isused : S → Bool

abbrev Match (S α : Type) := Program (Run S) Errno α

variable [DecidableEq S] (mem : Memory) (ndfa : Ndfa S)

/-- A mark is set or deleted. -/
def mark (isused : S → Bool) (target : S) (value : Bool) : S → Bool :=
  fun t => if t = target then value else isused t

/-- A state without mark is marked and added. -/
def enter (target : S) : Match S Unit := fun run =>
  if run.isused target then some (.ok (), run)
  else
    let isused := mark run.isused target true
    match insert1_statearray mem run.states target with
    | .error err => some (.error err, { run with isused := isused })
    | .ok states => some (.ok (), ⟨states, isused⟩)

/-- The loop over the empty transitions of a state. -/
def followEmpty : List S → Match S Unit
  | [] => pure ()
  | target :: targets => do
    enter mem target
    followEmpty targets

/-- The two loops over the other transitions of a state. -/
def followRanges (chr : UInt32) : List (RangeState S) → Match S Unit
  | [] => pure ()
  | range :: ranges => do
    let _ ← (if range.chrFrom ≤ chr ∧ chr ≤ range.chrTo then enter mem range.state else pure ())
    followRanges chr ranges

def initIter : Match S Iter := fun run => some (.ok (init_statearrayiter run.states), run)

def nextState (iter : Iter) : Match S (Option S × Iter) := fun run =>
  (next_statearrayiter run.states iter).map fun out => (.ok out, run)

def swap : Match S Unit := fun run =>
  some (.ok (), { run with states := swap1and2_statearray run.states })

def removeState : Match S (Option S) := fun run =>
  (remove2_statearray run.states).map fun (next, states) =>
    (.ok next, { run with states := states })

/-- The loop that extends the list of states while it runs over it. -/
def extendLoop : ℕ → Iter → Match S Unit
  | 0, _ => fun _ => none
  | fuel + 1, iter => do
    let (next, iter) ← nextState iter
    match next with
    | none => pure ()
    | some next => do
      followEmpty mem (ndfa.state next).emptylist
      extendLoop fuel iter

/-- The loop that deletes the marks. -/
def resetLoop : ℕ → Iter → Match S Unit
  | 0, _ => fun _ => none
  | fuel + 1, iter => do
    let (next, iter) ← nextState iter
    match next with
    | none => pure ()
    | some next => do
      modify fun run => { run with isused := mark run.isused next false }
      resetLoop fuel iter

/-- The loop that reads one character. -/
def stepLoop (chr : UInt32) : ℕ → S → Match S Unit
  | 0, _ => fun _ => none
  | fuel + 1, next => do
    followRanges mem chr (ndfa.state next).rangelist.flatten
    let next ← removeState
    match next with
    | none => pure ()
    | some next => stepLoop chr fuel next

/-- No loop over states has more turns than there are states. -/
def Ndfa.fuel (ndfa : Ndfa S) : ℕ := ndfa.states.length + 1

/-- The part of the main loop before a character is read: whether the end state is in the list. -/
def closeStates : Match S Bool := do
  let iter ← initIter
  extendLoop mem ndfa ndfa.fuel iter
  let run ← get
  let isEnd := run.isused ndfa.last
  let iter ← initIter
  resetLoop ndfa.fuel iter
  return isEnd

/-- The main loop on what is left of the string. -/
def matchLoop (matchLongest : Bool) : List UInt32 → ℕ → ℕ → Match S ℕ
  | [], stroffset, matchedlen => do
    let isEnd ← closeStates mem ndfa
    return if isEnd then stroffset else matchedlen
  | chr :: str, stroffset, matchedlen => do
    let isEnd ← closeStates mem ndfa
    let matchedlen := if isEnd then stroffset else matchedlen
    if isEnd ∧ !matchLongest then return matchedlen
    else
      swap
      let next ← removeState
      match next with
      | none => return matchedlen
      | some next => do
        stepLoop mem ndfa chr ndfa.fuel next
        matchLoop matchLongest str (stroffset + 1) matchedlen

/-- `matchchar32_automat` after the list of states is initialized. -/
def matchStates (str : List UInt32) (matchLongest : Bool) : Match S ℕ := do
  enter mem ndfa.start
  matchLoop mem ndfa matchLongest str 0 0

/-! The function for automatons that are marked as deterministic -/

/-- The binary search among sorted ranges. -/
def searchRange (chr : UInt32) (array : List (RangeState S)) : ℕ → ℕ → ℕ → Option (Option S)
  | 0, _, _ => none
  | fuel + 1, low, high =>
    let mid := (high + low) / 2
    array[mid]?.bind fun range =>
      if chr < range.chrFrom then
        if low < mid then searchRange chr array fuel low mid else some none
      else if chr > range.chrTo then
        if mid + 1 < high then searchRange chr array fuel (mid + 1) high else some none
      else some (some range.state)

/-- The loop over the arrays of ranges, of which one is searched. -/
def followDfa (chr : UInt32) : List (List (RangeState S)) → Bool → Match S Bool
  | [], isEnd => pure isEnd
  | array :: arrays, isEnd => fun run =>
    array.getLast?.bind fun last =>
      if chr ≤ last.chrTo then
        (searchRange chr array (array.length + 1) 0 array.length).bind fun target =>
          match target with
          | none => some (.ok isEnd, run)
          | some target =>
            if run.isused target then some (.ok isEnd, run)
            else (enter mem target run).map fun (out, run) =>
              (out.map fun _ => isEnd || !(ndfa.state target).emptylist.isEmpty, run)
      else followDfa chr arrays isEnd run

def stepDfa (chr : UInt32) : ℕ → S → Bool → Match S Bool
  | 0, _, _ => fun _ => none
  | fuel + 1, next, isEnd => do
    let isEnd ← followDfa mem ndfa chr (ndfa.state next).rangelist isEnd
    let next ← removeState
    match next with
    | none => return isEnd
    | some next => stepDfa chr fuel next isEnd

def dfaLoop (matchLongest : Bool) : List UInt32 → Bool → ℕ → ℕ → Match S ℕ
  | [], isEnd, stroffset, matchedlen => return if isEnd then stroffset else matchedlen
  | chr :: str, isEnd, stroffset, matchedlen =>
    let matchedlen := if isEnd then stroffset else matchedlen
    if isEnd ∧ !matchLongest then return matchedlen
    else do
      swap
      let next ← removeState
      match next with
      | none => return matchedlen
      | some next => do
        let isEnd ← stepDfa mem ndfa chr ndfa.fuel next false
        let iter ← initIter
        resetLoop ndfa.fuel iter
        dfaLoop matchLongest str isEnd (stroffset + 1) matchedlen

/-- `matchchar32_dfa_automat` after the list of states is initialized; the start is not marked. -/
def matchDfaStates (str : List UInt32) (matchLongest : Bool) : Match S ℕ := do
  enter mem ndfa.start
  modify fun run => { run with isused := mark run.isused ndfa.start false }
  dfaLoop mem ndfa matchLongest str (!(ndfa.state ndfa.start).emptylist.isEmpty) 0 0

/-- The frame of the two functions: the list of states is made and deleted. -/
def withStates (isused : S → Bool) (body : Match S ℕ) : Option (Option Errno × ℕ × (S → Bool)) :=
  if mem.new_automatmman then
    (body.run.run ⟨init_statearray, isused⟩).map fun (out, run) =>
      match out with
      | .error err => (some err, 0, run.isused)
      | .ok matchedlen =>
        match mem.delete_automatmman with
        | some err => (some err, 0, run.isused)
        | none => (none, matchedlen, run.isused)
  else some (some .ENOMEM, 0, isused)

/-- `matchchar32_automat`: the error that is logged, the length returned and the marks.  An
automaton that is not initialized is `none`. -/
def matchchar32_automat (ndfa : Option (Ndfa S)) (isused : S → Bool) (str : List UInt32)
    (matchLongest : Bool) : Option (Option Errno × ℕ × (S → Bool)) :=
  match ndfa with
  | none => some (some .EINVAL, 0, isused)
  | some ndfa =>
    let isused := fun s => if s ∈ ndfa.states then false else isused s
    if ndfa.isDFA then withStates mem isused (matchDfaStates mem ndfa str matchLongest)
    else withStates mem isused (matchStates mem ndfa str matchLongest)

/-! ## The meaning -/

omit [DecidableEq S] in
/-- The automaton as a set of paths. -/
def Ndfa.toεNFA (ndfa : Ndfa S) : εNFA UInt32 S where
  step s
    | none => {t | t ∈ (ndfa.state s).emptylist}
    | some chr => {t | ∃ range ∈ (ndfa.state s).rangelist.flatten,
        (range.chrFrom ≤ chr ∧ chr ≤ range.chrTo) ∧ range.state = t}
  start := {ndfa.start}
  accept := {ndfa.last}

/-- Among the lengths below `len` for which `P` holds, `n` is the greatest one or the least one; it
is zero if there is none. -/
def IsMatch (P : ℕ → Prop) (len : ℕ) (matchLongest : Bool) (n : ℕ) : Prop :=
  (n < len ∧ P n ∧ ∀ k < len, P k → if matchLongest then k ≤ n else n ≤ k) ∨
    (∀ k < len, ¬P k) ∧ n = 0

theorem IsMatch.unique {P : ℕ → Prop} {len n n' : ℕ} {matchLongest : Bool}
    (h : IsMatch P len matchLongest n) (h' : IsMatch P len matchLongest n') : n = n' := by
  obtain ⟨hn, hP, hbest⟩ | ⟨hnone, rfl⟩ := h
  · obtain ⟨hn', hP', hbest'⟩ | ⟨hnone, -⟩ := h'
    · have h1 := hbest n' hn' hP'
      have h2 := hbest' n hn hP
      rcases matchLongest with - | -
      · exact le_antisymm h1 h2
      · exact le_antisymm h2 h1
    · exact absurd hP (hnone n hn)
  · obtain ⟨hn', hP', -⟩ | ⟨-, rfl⟩ := h'
    · exact absurd hP' (hnone n' hn')
    · rfl

theorem IsMatch.skip {P : ℕ → Prop} {len n : ℕ} {matchLongest : Bool}
    (h : IsMatch P len matchLongest n) {len' : ℕ} (hlen : len ≤ len')
    (hP : ∀ k, len ≤ k → k < len' → ¬P k) : IsMatch P len' matchLongest n := by
  obtain ⟨hn, hPn, hbest⟩ | ⟨hnone, rfl⟩ := h
  · refine .inl ⟨hn.trans_le hlen, hPn, fun k hk hPk => ?_⟩
    rcases Nat.lt_or_ge k len with hlt | hge
    · exact hbest k hlt hPk
    · exact absurd hPk (hP k hge hk)
  · refine .inr ⟨fun k hk => ?_, rfl⟩
    rcases Nat.lt_or_ge k len with hlt | hge
    · exact hnone k hlt
    · exact hP k hge hk

theorem IsMatch.longest {P : ℕ → Prop} {len : ℕ} (hP : P len) : IsMatch P (len + 1) true len :=
  .inl ⟨Nat.lt_succ_self len, hP, fun _ hk _ => Nat.le_of_lt_succ hk⟩

theorem IsMatch.shortest {P : ℕ → Prop} {len len' : ℕ} (hlen : len < len') (hP : P len)
    (hnone : ∀ k < len, ¬P k) : IsMatch P len' false len :=
  .inl ⟨hlen, hP, fun k _ hPk => Nat.le_of_not_lt fun hk => hnone k hk hPk⟩

/-! ## The marks -/

section States

variable (xs ys : List S) (run : Run S)

/-- The states added are marked, and no other one. -/
structure Marked : Prop where
  rep : Rep run.states xs ys
  nodup : xs.Nodup
  subset : ∀ t ∈ xs, t ∈ ndfa.states
  used : ∀ t ∈ ndfa.states, (run.isused t = true ↔ t ∈ xs)

/-- No state is marked. -/
structure Cleared : Prop where
  rep : Rep run.states xs ys
  nodup : xs.Nodup
  subset : ∀ t ∈ xs, t ∈ ndfa.states
  used : ∀ t ∈ ndfa.states, run.isused t = false

variable {ndfa xs ys run}

omit [DecidableEq S] in
theorem Marked.length_le (h : Marked ndfa xs ys run) : xs.length ≤ ndfa.states.length :=
  (List.subperm_of_subset h.nodup h.subset).length_le

omit [DecidableEq S] in
theorem mark_true {isused : S → Bool} {target t : S} [DecidableEq S] :
    mark isused target true t = true ↔ t = target ∨ isused t = true := by
  rw [mark]
  split_ifs with h
  · exact iff_of_true rfl (.inl h)
  · exact ⟨.inr, fun h' => h'.resolve_left h⟩

/-- An error comes from the memory. -/
def NoMemory (mem : Memory) (_ : Errno) (_ : Run S) : Prop := ¬mem.Available

variable {mem}

theorem enter_ensures (h : Marked ndfa xs ys run) {target : S} (ht : target ∈ ndfa.states) :
    Ensures (enter mem target) run
      (fun _ run' => ∃ zs, Marked ndfa (xs ++ zs) ys run' ∧ target ∈ xs ++ zs ∧
        ∀ z ∈ zs, z = target)
      (NoMemory mem) := by
  by_cases hused : run.isused target = true
  · refine ⟨.ok (), run, ?_, [], ?_, ?_, fun _ hz => absurd hz List.not_mem_nil⟩
    · change enter mem target run = _
      rw [enter, if_pos hused]
    · rw [List.append_nil]
      exact h
    · exact List.mem_append_left _ ((h.used target ht).1 hused)
  have hnew : target ∉ xs := fun hmem => hused ((h.used target ht).2 hmem)
  obtain ⟨states, hinsert, hrep⟩ | ⟨hinsert, hnone⟩ := insert1_rep mem h.rep target
  · refine ⟨.ok (), ⟨states, mark run.isused target true⟩, ?_, [target], ?_,
      List.mem_append_right _ (List.mem_singleton_self _), fun z hz => List.mem_singleton.1 hz⟩
    · change enter mem target run = _
      rw [enter, if_neg hused, hinsert]
    · refine ⟨hrep, ?_, ?_, fun t hts => ?_⟩
      · rw [List.nodup_append]
        refine ⟨h.nodup, List.nodup_singleton _, fun x hx y hy hxy => ?_⟩
        rw [List.mem_singleton] at hy
        exact hnew (hy ▸ hxy ▸ hx)
      · intro t hmem
        rcases List.mem_append.1 hmem with hmem | hmem
        · exact h.subset t hmem
        · exact List.mem_singleton.1 hmem ▸ ht
      · rw [mark_true, h.used t hts, List.mem_append, List.mem_singleton, or_comm]
  · refine ⟨.error .ENOMEM, { run with isused := mark run.isused target true }, ?_, hnone⟩
    change enter mem target run = _
    rw [enter, if_neg hused, hinsert]

theorem followEmpty_ensures :
    ∀ (targets xs : List S) (run : Run S), Marked ndfa xs ys run →
      (∀ t ∈ targets, t ∈ ndfa.states) →
        Ensures (followEmpty mem targets) run
          (fun _ run' => ∃ zs, Marked ndfa (xs ++ zs) ys run' ∧ (∀ t ∈ targets, t ∈ xs ++ zs) ∧
            ∀ z ∈ zs, z ∈ targets)
          (NoMemory mem) := by
  intro targets
  induction targets with
  | nil =>
    intro xs run h _
    refine Ensures.pure ⟨[], ?_, fun _ ht => absurd ht List.not_mem_nil, fun _ hz => hz⟩
    rw [List.append_nil]
    exact h
  | cons target targets ih =>
    intro xs run h htargets
    obtain ⟨htarget, hrest⟩ := List.forall_mem_cons.1 htargets
    refine (enter_ensures h htarget).bind fun _ run' ⟨zs, h', hmem, hzs⟩ => ?_
    refine (ih (xs ++ zs) run' h' hrest).mono fun _ run'' ⟨zs', h'', hall, hzs'⟩ => ?_
    rw [List.append_assoc] at h'' hall
    refine ⟨zs ++ zs', h'', List.forall_mem_cons.2 ⟨?_, hall⟩, fun z hz => ?_⟩
    · rw [← List.append_assoc]
      exact List.mem_append_left _ hmem
    · rcases List.mem_append.1 hz with hz | hz
      · exact hzs z hz ▸ List.mem_cons_self
      · exact List.mem_cons_of_mem _ (hzs' z hz)

theorem followRanges_eq (chr : UInt32) (ranges : List (RangeState S)) :
    followRanges mem chr ranges = followEmpty mem
      ((ranges.filter fun range => range.chrFrom ≤ chr ∧ chr ≤ range.chrTo).map (·.state)) := by
  induction ranges with
  | nil => rfl
  | cons range ranges ih =>
    rw [followRanges, ih]
    by_cases h : range.chrFrom ≤ chr ∧ chr ≤ range.chrTo
    · rw [if_pos h, List.filter_cons, if_pos (decide_eq_true h)]
      rfl
    · rw [if_neg h, List.filter_cons, if_neg (by rw [decide_eq_true_eq]; exact h)]
      rfl

omit [DecidableEq S] in
theorem nextState_ensures (h : Rep run.states xs ys) {iter : Iter} {i : ℕ}
    (hat : Iterates xs iter i) :
    Ensures (nextState iter) run
      (fun out run' => run' = run ∧
        ((∃ x, out.1 = some x ∧ xs[i]? = some x ∧ At xs out.2 (i + 1)) ∨
          out.1 = none ∧ i = xs.length))
      (NoMemory mem) := by
  obtain ⟨x, iter', hget, hrun, hat'⟩ | ⟨hi, iter', hrun⟩ := next_rep h hat
  · refine ⟨.ok (some x, iter'), run, ?_, rfl, .inl ⟨x, rfl, hget, hat'⟩⟩
    change nextState iter run = _
    rw [nextState, hrun]
    rfl
  · refine ⟨.ok (none, iter'), run, ?_, rfl, .inr ⟨rfl, hi⟩⟩
    change nextState iter run = _
    rw [nextState, hrun]
    rfl

omit [DecidableEq S] in
theorem removeState_ensures (h : Marked ndfa xs ys run) :
    Ensures removeState run (fun next run' => next = ys.head? ∧ Marked ndfa xs ys.tail run')
      (NoMemory mem) := by
  obtain ⟨states, hrun, hrep⟩ := remove2_rep h.rep
  refine ⟨.ok ys.head?, { run with states := states }, ?_, rfl, hrep, h.nodup, h.subset, h.used⟩
  change removeState run = _
  rw [removeState, hrun]
  rfl

/-! ## The loops -/

/-- **The list of states is extended to its closure.**  The first `i` states of the list have been
followed; all states of the list are reached from the ones at the start. -/
theorem extendLoop_ensures {start : Set S} :
    ∀ (fuel i : ℕ) (iter : Iter) (xs : List S) (run : Run S), ndfa.states.length < fuel + i →
      Marked ndfa xs ys run → Iterates xs iter i → (∀ s ∈ start, s ∈ xs) →
      (∀ s ∈ xs, s ∈ ndfa.toεNFA.εClosure start) →
      (∀ j < i, ∀ s, xs[j]? = some s → ∀ t ∈ (ndfa.state s).emptylist, t ∈ xs) →
        Ensures (extendLoop mem ndfa fuel iter) run
          (fun _ run' => ∃ xs', Marked ndfa xs' ys run' ∧
            ∀ s, s ∈ xs' ↔ s ∈ ndfa.toεNFA.εClosure start)
          (NoMemory mem) := by
  intro fuel
  induction fuel with
  | zero =>
    intro i iter xs run hfuel h hat
    have hi := hat.le.trans h.length_le
    omega
  | succ fuel ih =>
    intro i iter xs run hfuel h hat hstart hsound hclosed
    rw [extendLoop]
    refine (nextState_ensures h.rep hat).bind fun ⟨next, iter'⟩ run' ⟨hrun, hnext⟩ => ?_
    subst hrun
    obtain ⟨x, hx, hget, hat'⟩ | ⟨hx, hi⟩ := hnext
    · obtain rfl : next = some x := hx
      have hmem := List.mem_of_getElem? hget
      refine (followEmpty_ensures _ xs run' h (ndfa.empty_mem x (h.subset x hmem))).bind
        fun _ run₂ ⟨zs, h', hall, hzs⟩ => ?_
      refine ih (i + 1) iter' (xs ++ zs) run₂ (by omega) h' (.inl (hat'.append zs)) ?_ ?_ ?_
      · exact fun s hs => List.mem_append_left _ (hstart s hs)
      · intro s hs
        rcases List.mem_append.1 hs with hs | hs
        · exact hsound s hs
        · exact εNFA.εClosure.step x s (hzs s hs) (hsound x hmem)
      · intro j hj s hs t ht
        have hjlen : j < xs.length := by
          have hilen := (List.getElem?_eq_some_iff.1 hget).1
          omega
        rw [List.getElem?_append_left hjlen] at hs
        rcases Nat.lt_or_ge j i with hji | hji
        · exact List.mem_append_left _ (hclosed j hji s hs t ht)
        · obtain rfl : j = i := by omega
          obtain rfl := Option.some.inj (hs.symm.trans hget)
          exact hall t ht
    · obtain rfl : next = none := hx
      refine Ensures.pure ⟨xs, h, fun s => ⟨hsound s, fun hs => ?_⟩⟩
      induction hs with
      | base s hs => exact hstart s hs
      | step s t ht _ ihs =>
        obtain ⟨j, hj⟩ := List.getElem?_of_mem ihs
        exact hclosed j (hi ▸ (List.getElem?_eq_some_iff.1 hj).1) s hj t ht

theorem resetLoop_ensures (hnodup : xs.Nodup) (hsubset : ∀ t ∈ xs, t ∈ ndfa.states) :
    ∀ (fuel i : ℕ) (iter : Iter) (run : Run S), ndfa.states.length < fuel + i →
      Rep run.states xs ys → Iterates xs iter i →
      (∀ t ∈ ndfa.states, run.isused t = true → t ∈ xs.drop i) →
        Ensures (resetLoop fuel iter) run (fun _ run' => Cleared ndfa xs ys run')
          (NoMemory mem) := by
  intro fuel
  have hlen : xs.length ≤ ndfa.states.length := (List.subperm_of_subset hnodup hsubset).length_le
  induction fuel with
  | zero =>
    intro i iter run hfuel h hat
    have hi := hat.le
    omega
  | succ fuel ih =>
    intro i iter run hfuel h hat hused
    rw [resetLoop]
    refine (nextState_ensures h hat).bind fun ⟨next, iter'⟩ run' ⟨hrun, hnext⟩ => ?_
    subst hrun
    obtain ⟨x, hx, hget, hat'⟩ | ⟨hx, hi⟩ := hnext
    · obtain rfl : next = some x := hx
      refine Ensures.bind
        (Q := fun _ run => Rep run.states xs ys ∧
          ∀ t ∈ ndfa.states, run.isused t = true → t ∈ xs.drop (i + 1))
        (Ensures.modify ⟨h, fun t ht htused => ?_⟩) fun _ run₂ ⟨h', hused'⟩ => ?_
      · dsimp only [mark] at htused
        split_ifs at htused with htx
        have hdrop := hused t ht htused
        rw [List.drop_eq_getElem_cons (List.getElem?_eq_some_iff.1 hget).1,
          (List.getElem?_eq_some_iff.1 hget).2] at hdrop
        exact (List.mem_cons.1 hdrop).resolve_left htx
      · exact ih (i + 1) iter' run₂ (by omega) h' (.inl hat') hused'
    · obtain rfl : next = none := hx
      refine Ensures.pure ⟨h, hnodup, hsubset, fun t ht => ?_⟩
      rw [← Bool.not_eq_true]
      intro htused
      have hdrop := hused t ht htused
      rw [hi, List.drop_length] at hdrop
      exact absurd hdrop List.not_mem_nil

theorem stepLoop_ensures (chr : UInt32) :
    ∀ (fuel : ℕ) (next : S) (xs ys : List S) (run : Run S), ys.length < fuel →
      Marked ndfa xs ys run → (∀ s ∈ next :: ys, s ∈ ndfa.states) →
        Ensures (stepLoop mem ndfa chr fuel next) run
          (fun _ run' => ∃ zs, Marked ndfa (xs ++ zs) [] run' ∧
            ∀ t, t ∈ xs ++ zs ↔ t ∈ xs ∨ ∃ s ∈ next :: ys, t ∈ ndfa.toεNFA.step s (some chr))
          (NoMemory mem) := by
  intro fuel
  induction fuel with
  | zero => exact fun _ _ ys _ hfuel => absurd hfuel (Nat.not_lt_zero _)
  | succ fuel ih =>
    intro next xs ys run hfuel h hys
    obtain ⟨hnext, hys⟩ := List.forall_mem_cons.1 hys
    have hstep : ∀ t, t ∈ ((ndfa.state next).rangelist.flatten.filter
        fun range => range.chrFrom ≤ chr ∧ chr ≤ range.chrTo).map (·.state) ↔
          t ∈ ndfa.toεNFA.step next (some chr) := by
      intro t
      simp only [List.mem_map, List.mem_filter, decide_eq_true_eq, and_assoc]
      exact ⟨fun ⟨r, h1, h2, h3, h4⟩ => ⟨r, h1, ⟨h2, h3⟩, h4⟩,
        fun ⟨r, h1, ⟨h2, h3⟩, h4⟩ => ⟨r, h1, h2, h3, h4⟩⟩
    rw [stepLoop, followRanges_eq]
    refine (followEmpty_ensures _ xs run h fun t ht => ?_).bind fun _ run₁ ⟨zs, h', hall, hzs⟩ => ?_
    · obtain ⟨r, hr, -, rfl⟩ := (hstep t).1 ht
      exact ndfa.range_mem next hnext r hr
    have hmem : ∀ t, t ∈ xs ++ zs ↔ t ∈ xs ∨ t ∈ ndfa.toεNFA.step next (some chr) := by
      intro t
      constructor
      · intro ht
        exact (List.mem_append.1 ht).imp_right fun ht => (hstep t).1 (hzs t ht)
      · rintro (ht | ht)
        · exact List.mem_append_left _ ht
        · exact hall t ((hstep t).2 ht)
    refine (removeState_ensures h').bind fun next' run₂ ⟨hhead, h''⟩ => ?_
    rcases ys with _ | ⟨y, ys⟩
    · obtain rfl : next' = none := hhead
      refine Ensures.pure ⟨zs, h'', fun t => ?_⟩
      rw [hmem]
      simp only [List.mem_singleton, exists_eq_left]
    · obtain rfl : next' = some y := hhead
      refine (ih y (xs ++ zs) ys run₂ (Nat.lt_of_succ_lt_succ hfuel) h'' hys).mono
        fun _ run₃ ⟨zs', hmarked, hmem'⟩ => ?_
      rw [List.append_assoc] at hmarked
      refine ⟨zs ++ zs', hmarked, fun t => ?_⟩
      rw [← List.append_assoc, hmem', hmem, or_assoc]
      exact or_congr_right
        (List.exists_mem_cons_iff (fun s => t ∈ ndfa.toεNFA.step s (some chr)) next (y :: ys)).symm

theorem closeStates_ensures (h : Marked ndfa xs ys run) :
    Ensures (closeStates mem ndfa) run
      (fun isEnd run' => ∃ xs', Cleared ndfa xs' ys run' ∧
        (∀ s, s ∈ xs' ↔ s ∈ ndfa.toεNFA.εClosure {s | s ∈ xs}) ∧ (isEnd = true ↔ ndfa.last ∈ xs'))
      (NoMemory mem) := by
  have hlast : ndfa.last ∈ ndfa.states := List.getLast_mem ndfa.ne_nil
  have hfuel : ndfa.states.length < ndfa.fuel + 0 := Nat.lt_succ_self _
  refine Ensures.bind (Q := fun iter run' => run' = run ∧ Iterates xs iter 0)
    ⟨.ok _, run, rfl, rfl, init_iterates h.rep⟩ fun iter run₁ ⟨hrun, hat⟩ => ?_
  subst hrun
  have hbase : ∀ s ∈ xs, s ∈ ndfa.toεNFA.εClosure {s | s ∈ xs} :=
    fun s hs => εNFA.εClosure.base s hs
  refine (extendLoop_ensures ndfa.fuel 0 iter xs run₁ hfuel h hat (fun _ hs => hs) hbase
    (fun j hj => absurd hj (Nat.not_lt_zero j))).bind fun _ run₂ ⟨xs', h', hclosure⟩ => ?_
  refine Ensures.bind (Q := fun run' run => run' = run₂ ∧ run = run₂)
    (Ensures.get ⟨rfl, rfl⟩) fun run' run₃ ⟨hrun', hrun₃⟩ => ?_
  rw [hrun', hrun₃]
  refine Ensures.bind (Q := fun iter run' => run' = run₂ ∧ Iterates xs' iter 0)
    ⟨.ok _, run₂, rfl, rfl, init_iterates h'.rep⟩ fun iter' run₄ ⟨hrun₄, hat'⟩ => ?_
  subst hrun₄
  have hused : ∀ t ∈ ndfa.states, run₄.isused t = true → t ∈ xs'.drop 0 := by
    intro t ht htused
    rw [List.drop_zero]
    exact (h'.used t ht).1 htused
  refine (resetLoop_ensures h'.nodup h'.subset ndfa.fuel 0 iter' run₄ hfuel h'.rep hat' hused).bind
    fun _ run₅ hcleared => ?_
  exact Ensures.pure ⟨xs', hcleared, hclosure, h'.used _ hlast⟩

/-! ## The main loop -/

/-- The prefix of this length is accepted. -/
def Ndfa.AcceptsPrefix (ndfa : Ndfa S) (str : List UInt32) (k : ℕ) : Prop :=
  str.take k ∈ ndfa.toεNFA.accepts

omit [DecidableEq S] in
theorem not_acceptsPrefix_of_empty {pre str : List UInt32} (h : ∀ s, s ∉ ndfa.toεNFA.eval pre)
    {k : ℕ} (hk : pre.length ≤ k) : ¬ndfa.AcceptsPrefix (pre ++ str) k := by
  rintro ⟨s, -, hs⟩
  have hfold : ∀ zs : List UInt32, zs.foldl ndfa.toεNFA.stepSet ∅ = ∅ := by
    intro zs
    induction zs with
    | nil => rfl
    | cons z zs ih => rw [List.foldl_cons, εNFA.stepSet_empty, ih]
  have heval : ndfa.toεNFA.eval (pre ++ str.take (k - pre.length)) =
      (str.take (k - pre.length)).foldl ndfa.toεNFA.stepSet (ndfa.toεNFA.eval pre) :=
    List.foldl_append
  rw [List.take_append, List.take_of_length_le hk, heval, Set.eq_empty_of_forall_notMem h,
    hfold] at hs
  exact hs

omit [DecidableEq S] in
theorem acceptsPrefix_iff (pre str : List UInt32) :
    ndfa.AcceptsPrefix (pre ++ str) pre.length ↔ ndfa.last ∈ ndfa.toεNFA.eval pre := by
  rw [Ndfa.AcceptsPrefix, List.take_left]
  exact ⟨fun ⟨s, hs, hmem⟩ => (Set.mem_singleton_iff.1 hs) ▸ hmem, fun h => ⟨_, rfl, h⟩⟩

theorem IsMatch.next {P : ℕ → Prop} {len matchedlen : ℕ} {matchLongest isEnd : Bool}
    (h : IsMatch P len matchLongest matchedlen)
    (hnone : matchLongest = false → ∀ k < len, ¬P k) (hend : isEnd = true ↔ P len) :
    IsMatch P (len + 1) matchLongest (if isEnd then len else matchedlen) := by
  rcases isEnd with - | -
  · refine h.skip (Nat.le_succ len) fun k hk hk' hPk => ?_
    obtain rfl : k = len := by omega
    exact Bool.false_ne_true (hend.2 hPk)
  · rcases matchLongest with - | -
    · exact IsMatch.shortest (Nat.lt_succ_self len) (hend.1 rfl) (hnone rfl)
    · exact IsMatch.longest (hend.1 rfl)

/-- **The main loop.**  The prefix `pre` has been read; the closure of the list are the states
reached by it. -/
theorem matchLoop_ensures (matchLongest : Bool) :
    ∀ (str pre : List UInt32) (xs : List S) (matchedlen : ℕ) (run : Run S),
      Marked ndfa xs [] run →
      (∀ s, s ∈ ndfa.toεNFA.εClosure {s | s ∈ xs} ↔ s ∈ ndfa.toεNFA.eval pre) →
      IsMatch (ndfa.AcceptsPrefix (pre ++ str)) pre.length matchLongest matchedlen →
      (matchLongest = false → ∀ k < pre.length, ¬ndfa.AcceptsPrefix (pre ++ str) k) →
        Ensures (matchLoop mem ndfa matchLongest str pre.length matchedlen) run
          (fun n _ =>
            IsMatch (ndfa.AcceptsPrefix (pre ++ str)) ((pre ++ str).length + 1) matchLongest n)
          (NoMemory mem) := by
  intro str
  induction str with
  | nil =>
    intro pre xs matchedlen run h heval hmatch hnone
    rw [matchLoop]
    refine (closeStates_ensures h).bind fun isEnd run' ⟨xs', hcleared, hclosure, hend⟩ => ?_
    refine Ensures.pure ?_
    have hP : isEnd = true ↔ ndfa.AcceptsPrefix (pre ++ []) pre.length := by
      rw [hend, hclosure, heval, acceptsPrefix_iff]
    have hnext := hmatch.next hnone hP
    rw [List.append_nil] at hnext ⊢
    exact hnext
  | cons chr str ih =>
    intro pre xs matchedlen run h heval hmatch hnone
    rw [matchLoop]
    refine (closeStates_ensures h).bind fun isEnd run' ⟨xs', hcleared, hclosure, hend⟩ => ?_
    have hP : isEnd = true ↔ ndfa.AcceptsPrefix (pre ++ chr :: str) pre.length := by
      rw [hend, hclosure, heval, acceptsPrefix_iff]
    have hnext := hmatch.next hnone hP
    have hlen : pre.length < (pre ++ chr :: str).length := by
      rw [List.length_append, List.length_cons]
      omega
    dsimp only
    by_cases hfirst : isEnd = true ∧ (!matchLongest) = true
    · rw [if_pos hfirst, if_pos hfirst.1]
      obtain rfl : matchLongest = false := by simpa using hfirst.2
      exact Ensures.pure (IsMatch.shortest (by omega) (hP.1 hfirst.1) (hnone rfl))
    rw [if_neg hfirst]
    refine Ensures.bind (Q := fun _ => Marked ndfa [] xs')
      ⟨.ok (), _, rfl, swap1and2_rep hcleared.rep, List.nodup_nil,
        fun _ ht => absurd ht List.not_mem_nil, fun t ht => ?_⟩ fun _ run₁ hmarked => ?_
    · exact iff_of_false (by
        dsimp only
        rw [hcleared.used t ht]
        exact Bool.false_ne_true) List.not_mem_nil
    refine (removeState_ensures hmarked).bind fun next run₂ ⟨hhead, hmarked⟩ => ?_
    have hevalxs : ∀ s, s ∈ xs' ↔ s ∈ ndfa.toεNFA.eval pre := fun s =>
      (hclosure s).trans (heval s)
    rcases xs' with _ | ⟨y, ys⟩
    · obtain rfl : next = none := hhead
      refine Ensures.pure (hnext.skip (Nat.le_succ_of_le hlen) fun k hk _ => ?_)
      exact not_acceptsPrefix_of_empty (fun s hs => absurd ((hevalxs s).2 hs) List.not_mem_nil)
        (Nat.le_of_succ_le hk)
    · obtain rfl : next = some y := hhead
      have hys : ys.length < ndfa.fuel := by
        have hle := (List.subperm_of_subset hcleared.nodup hcleared.subset).length_le
        rw [List.length_cons] at hle
        rw [Ndfa.fuel]
        omega
      refine (stepLoop_ensures chr ndfa.fuel y [] ys run₂ hys hmarked hcleared.subset).bind
        fun _ run₃ ⟨zs, hmarked₃, hstep⟩ => ?_
      rw [List.nil_append] at hmarked₃ hstep
      have hsucc : pre.length + 1 = (pre ++ [chr]).length := by
        rw [List.length_append, List.length_singleton]
      rw [List.append_cons] at hnext hP hlen ⊢
      rw [hsucc] at hnext ⊢
      refine ih (pre ++ [chr]) zs _ run₃ hmarked₃ (fun s => ?_) hnext fun hshort k hk => ?_
      · rw [εNFA.eval_append_singleton, εNFA.mem_stepSet_iff, εNFA.mem_εClosure_iff_exists]
        constructor
        · rintro ⟨t, ht, hs⟩
          obtain hnil | ⟨u, hu, htu⟩ := (hstep t).1 ht
          · exact absurd hnil List.not_mem_nil
          · exact ⟨u, (hevalxs u).1 hu, (εNFA.mem_εClosure_iff_exists _).2 ⟨t, htu, hs⟩⟩
        · rintro ⟨u, hu, hs⟩
          obtain ⟨t, htu, hs⟩ := (εNFA.mem_εClosure_iff_exists _).1 hs
          exact ⟨t, (hstep t).2 (.inr ⟨u, (hevalxs u).2 hu, htu⟩), hs⟩
      · rw [← hsucc] at hk
        rcases (Nat.le_of_lt_succ hk).lt_or_eq with hk | rfl
        · rw [← List.append_cons]
          exact hnone hshort k hk
        · exact fun hacc => hfirst ⟨hP.2 hacc, by rw [hshort]; rfl⟩

theorem matchStates_ensures (mem : Memory) (ndfa : Ndfa S) (str : List UInt32) (matchLongest : Bool)
    {isused : S → Bool} (hused : ∀ t ∈ ndfa.states, isused t = false) :
    Ensures (matchStates mem ndfa str matchLongest) ⟨init_statearray, isused⟩
      (fun n _ => IsMatch (ndfa.AcceptsPrefix str) (str.length + 1) matchLongest n)
      (NoMemory mem) := by
  have hinit : Marked ndfa [] [] ⟨init_statearray, isused⟩ :=
    ⟨init_rep, List.nodup_nil, fun _ ht => absurd ht List.not_mem_nil, fun t ht =>
      iff_of_false (ne_true_of_eq_false (hused t ht)) List.not_mem_nil⟩
  refine (enter_ensures hinit (List.head_mem ndfa.ne_nil)).bind fun _ run ⟨zs, h, hmem, hzs⟩ => ?_
  rw [List.nil_append] at h hmem
  have hstart : {s | s ∈ zs} = ndfa.toεNFA.start :=
    Set.ext fun s => ⟨fun hs => hzs s hs, fun hs => Set.mem_singleton_iff.1 hs ▸ hmem⟩
  exact matchLoop_ensures matchLongest str [] zs 0 run h (fun s => by rw [hstart]; rfl)
    (.inr ⟨fun k hk => absurd hk (Nat.not_lt_zero k), rfl⟩)
    fun _ k hk => absurd hk (Nat.not_lt_zero k)

end States

/-! ## The length returned -/

theorem matchchar32_automat_cases (ndfa : Ndfa S) (hdfa : ndfa.isDFA = false) (str : List UInt32)
    (matchLongest : Bool) (mem : Memory) (isused : S → Bool) :
    (∃ n isused', matchchar32_automat mem (some ndfa) isused str matchLongest =
        some (none, n, isused') ∧
      IsMatch (ndfa.AcceptsPrefix str) (str.length + 1) matchLongest n) ∨
    ∃ err isused', matchchar32_automat mem (some ndfa) isused str matchLongest =
        some (some err, 0, isused') ∧ ¬mem.Available := by
  rw [matchchar32_automat]
  rw [if_neg (by rw [hdfa]; exact Bool.false_ne_true), withStates]
  by_cases hnew : mem.new_automatmman = true
  · rw [if_pos hnew]
    have hreset : ∀ t ∈ ndfa.states, (if t ∈ ndfa.states then false else isused t) = false :=
      fun _ ht => if_pos ht
    obtain ⟨out, run, hrun, hout⟩ := matchStates_ensures mem ndfa str matchLongest hreset
    rw [hrun, Option.map_some]
    rcases out with err | n
    · exact .inr ⟨err, run.isused, rfl, hout⟩
    · rcases hdelete : mem.delete_automatmman with _ | err
      · exact .inl ⟨n, run.isused, rfl, hout⟩
      · exact .inr ⟨err, run.isused, rfl, fun h => nomatch hdelete.symm.trans h.2.2⟩
  · rw [if_neg hnew]
    exact .inr ⟨.ENOMEM, _, rfl, fun h => hnew h.1⟩

/-- **The length of the longest or of the shortest accepted prefix is returned**, whatever marks an
earlier call has left; it is zero if there is none.  A call without memory logs an error. -/
theorem matchchar32_automat_exact (ndfa : Ndfa S) (hdfa : ndfa.isDFA = false) (str : List UInt32)
    (matchLongest : Bool) :
    ∃ n, IsMatch (ndfa.AcceptsPrefix str) (str.length + 1) matchLongest n ∧
      ∀ (mem : Memory) (isused : S → Bool), ∃ err isused',
        matchchar32_automat mem (some ndfa) isused str matchLongest =
          some (err, if err = none then n else 0, isused') ∧
        (mem.Available → err = none) := by
  have havailable : Memory.Available ⟨true, fun _ => true, none⟩ := ⟨rfl, fun _ => rfl, rfl⟩
  obtain ⟨n, -, -, hn⟩ | ⟨-, -, -, hnone⟩ := matchchar32_automat_cases ndfa hdfa str matchLongest
    ⟨true, fun _ => true, none⟩ fun _ => false
  · refine ⟨n, hn, fun mem isused => ?_⟩
    obtain ⟨n', isused', hrun, hn'⟩ | ⟨err, isused', hrun, hnone⟩ :=
      matchchar32_automat_cases ndfa hdfa str matchLongest mem isused
    · exact ⟨none, isused', hn.unique hn' ▸ hrun, fun _ => rfl⟩
    · exact ⟨some err, isused', hrun, fun h => absurd h hnone⟩
  · exact absurd havailable hnone

/-- An automaton for the words of `a`: a cycle of empty transitions between two states. -/
def aLoop : Ndfa Bool where
  states := [false, true]
  state
    | false => ⟨[true], []⟩
    | true => ⟨[false], [[⟨97, 97, false⟩]]⟩
  isDFA := false
  ne_nil := nofun
  empty_mem := by decide
  range_mem := by decide

theorem matchchar32_automat_exact_aLoop :
    ∃ n, IsMatch (aLoop.AcceptsPrefix [97, 97, 98]) 4 true n ∧
      ∀ (mem : Memory) (isused : Bool → Bool), ∃ err isused',
        matchchar32_automat mem (some aLoop) isused [97, 97, 98] true =
          some (err, if err = none then n else 0, isused') ∧
        (mem.Available → err = none) :=
  matchchar32_automat_exact aLoop rfl [97, 97, 98] true

end Automat
end CKern
