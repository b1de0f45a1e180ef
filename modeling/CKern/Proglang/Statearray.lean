import CKern.Library.TotalCorrectness
import Mathlib.Data.List.Basic
import Mathlib.Algebra.Order.Ring.Nat
import Mathlib.Tactic.Ring

/-!
# `proglang/automat.c`: `statearray_t`

* `Block`, `Statearray`, `Iter`: the blocks of a list that is written, of a list that is emptied and
  of unused ones; what a block holds from an earlier use is kept.
* `insert1_statearray`, `remove2_statearray`, `swap1and2_statearray`, `next_statearrayiter`: the
  functions.
* `Rep`: the states added and the states that are not removed yet.
* `insert1_rep`, `remove2_rep`, `swap1and2_rep`: the functions on these.
* `At.append`, `next_rep`: an iterator returns what was added, also while it runs.
-/

namespace CKern
namespace Automat

/-! ## The code -/

/-- The errors of the functions here. -/
inductive Errno where
  | EINVAL
  | ENOMEM
  deriving DecidableEq

/-- Which requests for memory are met, and the error of giving it back. -/
structure Memory where
  new_automatmman : Bool
  malloc_automatmman : ℕ → Bool
  delete_automatmman : Option Errno

/-- No request for memory fails. -/
def Memory.Available (mem : Memory) : Prop :=
  mem.new_automatmman = true ∧ (∀ k, mem.malloc_automatmman k = true) ∧
    mem.delete_automatmman = none

/-- `statearray_block_t`; a cell that was never written has no state. -/
structure Block (S : Type) where
  nrstate : ℕ
  state : ℕ → Option S

/-- `statearray_t`: `mman` counts the requests for memory.  The positions are offsets, `addnext` in
the last block of `addlist` and `delnext` in `delblock`. -/
structure Statearray (S : Type) where
  mman : ℕ
  addlist : List (Block S)
  dellist : List (Block S)
  freelist : List (Block S)
  addnext : ℕ
  addend : ℕ
  delblock : Option (Block S)
  delnext : ℕ
  delend : ℕ

/-- `length_of_block`: the block of `2^14` bytes holds its header and pointers of 8 bytes. -/
def length_of_block : ℕ := (2 ^ 14 - 16) / 8

variable {S : Type}

def init_statearray : Statearray S := ⟨0, [], [], [], 0, 0, none, 0, 0⟩

/-- The last block of `addlist` with another content. -/
def Statearray.modifyLast (arr : Statearray S) (f : Block S → Block S) : List (Block S) :=
  arr.addlist.modify (arr.addlist.length - 1) f

/-- The next unused block, or a new one. -/
def newblock (mem : Memory) (arr : Statearray S) : Option (Block S × Statearray S) :=
  match arr.freelist with
  | [] =>
    if mem.malloc_automatmman arr.mman then
      some (⟨0, fun _ => none⟩, { arr with mman := arr.mman + 1 })
    else none
  | block :: freelist => some (block, { arr with freelist := freelist })

/-- The part of `insert1_statearray` that makes room. -/
def makeroom (mem : Memory) (arr : Statearray S) : Option (Statearray S) :=
  if arr.addnext = arr.addend then
    let arr :=
      { arr with addlist := arr.modifyLast fun block => { block with nrstate := arr.addnext } }
    (newblock mem arr).map fun (block, arr) =>
      { arr with
        addlist := arr.addlist ++ [{ block with nrstate := 0 }]
        addnext := 0
        addend := length_of_block }
  else some arr

def insert1_statearray (mem : Memory) (arr : Statearray S) (state : S) :
    Except Errno (Statearray S) :=
  match makeroom mem arr with
  | none => .error .ENOMEM
  | some arr =>
    .ok
      { arr with
        addlist := arr.modifyLast fun block =>
          { block with state := fun i => if i = arr.addnext then some state else block.state i }
        addnext := arr.addnext + 1 }

/-- The loop of `remove2_statearray`: there is no state if `dellist` is empty (`ENODATA`), and no
result if a cell is read that was never written. -/
def removeLoop : ℕ → Statearray S → Option (Option S × Statearray S)
  | 0, _ => none
  | fuel + 1, arr =>
    if arr.delnext = arr.delend then
      let arr := { arr with freelist := arr.freelist ++ arr.delblock.toList, delblock := none }
      match arr.dellist with
      | [] => some (none, arr)
      | block :: dellist =>
        removeLoop fuel
          { arr with
            dellist := dellist
            delblock := some block
            delnext := 0
            delend := block.nrstate }
    else
      (arr.delblock.bind fun block => block.state arr.delnext).map fun state =>
        (some state, { arr with delnext := arr.delnext + 1 })

def remove2_statearray (arr : Statearray S) : Option (Option S × Statearray S) :=
  removeLoop (arr.dellist.length + 1) arr

def swap1and2_statearray (arr : Statearray S) : Statearray S :=
  { arr with
    addlist := []
    dellist := arr.modifyLast fun block => { block with nrstate := arr.addnext }
    freelist := arr.freelist ++ arr.delblock.toList ++ arr.dellist
    addnext := 0
    addend := 0
    delblock := none
    delnext := 0
    delend := 0 }

/-- `statearray_iter_t`: `block` is the position of the block in `addlist`. -/
structure Iter where
  block : Option ℕ
  next : ℕ
  stop : ℕ

def init_statearrayiter (arr : Statearray S) : Iter where
  block := arr.addlist.head?.map fun _ => 0
  next := 0
  stop := (arr.addlist.head?.map (·.nrstate)).getD 0

/-- `next_statearrayiter`: the state, if there is one, and the iterator. -/
def iterLoop (arr : Statearray S) : ℕ → Iter → Option (Option S × Iter)
  | 0, _ => none
  | fuel + 1, iter =>
    if iter.next = iter.stop then
      match iter.block with
      | none => some (none, iter)
      | some i =>
        if i + 1 = arr.addlist.length then
          if iter.stop = arr.addnext then some (none, iter)
          else iterLoop arr fuel { iter with stop := arr.addnext }
        else
          arr.addlist[i]?.bind fun block =>
            if iter.stop ≠ block.nrstate then iterLoop arr fuel { iter with stop := block.nrstate }
            else
              arr.addlist[i + 1]?.bind fun block =>
                iterLoop arr fuel ⟨some (i + 1), 0, block.nrstate⟩
    else
      (iter.block.bind fun i => arr.addlist[i]?.bind fun block => block.state iter.next).map
        fun state => (some state, { iter with next := iter.next + 1 })

/-- No call turns more often than four times. -/
def next_statearrayiter (arr : Statearray S) (iter : Iter) : Option (Option S × Iter) :=
  iterLoop arr 4 iter

/-! ## The states of the lists -/

theorem length_of_block_pos : 0 < length_of_block := by decide

/-- The number of states in the block with number `b`, if `n` blocks are full and `m` states are in
the next one. -/
def filled (n m b : ℕ) : ℕ := if b < n then length_of_block else m

/-- The blocks hold the states `xs`: `n` full blocks and one with `m` states. -/
structure Holds (blocks : List (Block S)) (n m : ℕ) (xs : List S) : Prop where
  length_blocks : blocks.length = n + 1
  length : xs.length = n * length_of_block + m
  le : m ≤ length_of_block
  state : ∀ b block, blocks[b]? = some block → ∀ r < filled n m b,
    block.state r = xs[b * length_of_block + r]?

/-- The states added so far. -/
inductive Adds (arr : Statearray S) (xs : List S) : Prop where
  | empty (hlist : arr.addlist = []) (hnext : arr.addnext = 0) (hend : arr.addend = 0)
      (hxs : xs = [])
  | blocks (n : ℕ) (holds : Holds arr.addlist n arr.addnext xs) (pos : 0 < arr.addnext)
      (nrstate : ∀ b block, arr.addlist[b]? = some block → block.nrstate = filled n 0 b)
      (hend : arr.addend = length_of_block)

/-- The blocks hold the states `ys`, and their sizes are written in them. -/
def Queued : List (Block S) → List S → Prop
  | [], ys => ys = []
  | block :: blocks, ys =>
    0 < block.nrstate ∧ block.nrstate ≤ ys.length ∧ (∀ r < block.nrstate, block.state r = ys[r]?) ∧
      Queued blocks (ys.drop block.nrstate)

/-- The states that are not removed yet. -/
structure Dels (arr : Statearray S) (ys : List S) : Prop where
  le : arr.delnext ≤ arr.delend
  length : arr.delend - arr.delnext ≤ ys.length
  state : ∀ r < arr.delend - arr.delnext,
    (arr.delblock.bind fun block => block.state (arr.delnext + r)) = ys[r]?
  queued : Queued arr.dellist (ys.drop (arr.delend - arr.delnext))

/-! ## Adding -/

variable {blocks : List (Block S)} {n m : ℕ} {xs ys : List S} {arr arr' : Statearray S} {x : S}
  {mem : Memory}

theorem filled_le (hm : m ≤ length_of_block) (b : ℕ) : filled n m b ≤ length_of_block := by
  rw [filled]
  split_ifs
  · exact Nat.le_refl _
  · exact hm

theorem filled_zero (b : ℕ) : filled 0 0 b = 0 := if_neg (Nat.not_lt_zero b)

theorem filled_pos_zero (m b : ℕ) : filled 0 m b = m := if_neg (Nat.not_lt_zero b)

theorem filled_succ (n m b : ℕ) : filled (n + 1) m (b + 1) = filled n m b := by
  rw [filled, filled]
  exact if_congr Nat.succ_lt_succ_iff rfl rfl

theorem Holds.modify (h : Holds blocks n m xs) {f : Block S → Block S}
    (hf : ∀ block, (f block).state = block.state) (i : ℕ) : Holds (blocks.modify i f) n m xs where
  length_blocks := by rw [List.length_modify, h.length_blocks]
  length := h.length
  le := h.le
  state := by
    intro b block hblock r hr
    rw [List.getElem?_modify, Option.map_eq_map, Option.map_eq_some_iff] at hblock
    obtain ⟨block', hblock', rfl⟩ := hblock
    have hstate := h.state b block' hblock' r hr
    split_ifs
    · rw [hf, hstate]
    · exact hstate

theorem Holds.append (h : Holds blocks n length_of_block xs) (block : Block S) :
    Holds (blocks ++ [block]) (n + 1) 0 xs where
  length_blocks := by rw [List.length_append, h.length_blocks, List.length_singleton]
  length := by rw [h.length, Nat.succ_mul, Nat.add_zero]
  le := Nat.zero_le _
  state := by
    intro b block' hblock r hr
    rw [filled] at hr
    split_ifs at hr with hb
    · rw [List.getElem?_append_left (by rw [h.length_blocks]; exact hb)] at hblock
      refine h.state b block' hblock r ?_
      rw [filled]
      split_ifs <;> exact hr
    · exact absurd hr (Nat.not_lt_zero r)

theorem Holds.write (h : Holds blocks n m xs) (hm : m < length_of_block) (x : S) :
    Holds
      (blocks.modify n fun block =>
        { block with state := fun i => if i = m then some x else block.state i })
      n (m + 1) (xs ++ [x]) where
  length_blocks := by rw [List.length_modify, h.length_blocks]
  length := by rw [List.length_append, h.length, List.length_singleton, Nat.add_assoc]
  le := hm
  state := by
    intro b block hblock r hr
    rw [List.getElem?_modify, Option.map_eq_map, Option.map_eq_some_iff] at hblock
    obtain ⟨block', hblock', rfl⟩ := hblock
    rw [filled] at hr
    by_cases hnb : n = b
    · subst hnb
      rw [if_neg (Nat.lt_irrefl n)] at hr
      rw [if_pos rfl]
      dsimp only
      by_cases hrm : r = m
      · rw [if_pos hrm, hrm, ← h.length, List.getElem?_concat_length]
      · have hlt : r < m := by omega
        rw [if_neg hrm, List.getElem?_append_left (by rw [h.length]; omega)]
        exact h.state n block' hblock' r (by rw [filled, if_neg (Nat.lt_irrefl n)]; exact hlt)
    · have hbn : b < n := by
        have hlen := (List.getElem?_eq_some_iff.1 hblock').1
        rw [h.length_blocks] at hlen
        omega
      have hmul : (b + 1) * length_of_block ≤ n * length_of_block := Nat.mul_le_mul_right _ hbn
      rw [Nat.succ_mul] at hmul
      rw [if_pos hbn] at hr
      rw [if_neg hnb, List.getElem?_append_left (by rw [h.length]; omega)]
      exact h.state b block' hblock' r (by rw [filled, if_pos hbn]; exact hr)

/-- There is a cell to write. -/
structure Room (arr : Statearray S) (n : ℕ) (xs : List S) : Prop where
  holds : Holds arr.addlist n arr.addnext xs
  lt : arr.addnext < length_of_block
  nrstate : ∀ b block, arr.addlist[b]? = some block → block.nrstate = filled n 0 b
  addend : arr.addend = length_of_block

/-- What making room and adding leave alone. -/
def SameDels (arr arr' : Statearray S) : Prop :=
  arr'.dellist = arr.dellist ∧ arr'.delblock = arr.delblock ∧ arr'.delnext = arr.delnext ∧
    arr'.delend = arr.delend

theorem newblock_some {block : Block S} (h : newblock mem arr = some (block, arr')) :
    arr'.addlist = arr.addlist ∧ SameDels arr arr' := by
  rw [newblock] at h
  rcases hfree : arr.freelist with _ | ⟨block', freelist⟩ <;> rw [hfree] at h
  · dsimp only at h
    split_ifs at h
    obtain rfl := congrArg Prod.snd (Option.some.inj h)
    exact ⟨rfl, rfl, rfl, rfl, rfl⟩
  · obtain rfl := congrArg Prod.snd (Option.some.inj h)
    exact ⟨rfl, rfl, rfl, rfl, rfl⟩

theorem newblock_none (hmem : mem.Available) : newblock mem arr ≠ none := by
  rw [newblock]
  rcases hfree : arr.freelist with _ | ⟨block', freelist⟩
  · dsimp only
    rw [if_pos (hmem.2.1 _)]
    exact nofun
  · exact nofun

theorem makeroom_some (h : Adds arr xs) (hroom : makeroom mem arr = some arr') :
    (∃ n, Room arr' n xs) ∧ SameDels arr arr' := by
  rw [makeroom] at hroom
  split_ifs at hroom with hfull
  · obtain ⟨⟨block, arr1⟩, hnew, rfl⟩ := Option.map_eq_some_iff.1 hroom
    obtain ⟨haddlist, hdels⟩ := newblock_some hnew
    dsimp only at haddlist
    refine ⟨?_, hdels⟩
    rcases h with ⟨hlist, hnext, hend, rfl⟩ | ⟨n, hholds, hpos, hnr, hend⟩
    · have hempty : arr1.addlist = [] := by rw [haddlist, Statearray.modifyLast, hlist]; rfl
      refine ⟨0, ⟨?_, length_of_block_pos, ?_, rfl⟩⟩
      · change Holds (arr1.addlist ++ [_]) 0 0 []
        rw [hempty]
        exact ⟨rfl, (Nat.zero_mul _).symm, Nat.zero_le _,
          fun b _ _ r hr => absurd hr (by rw [filled_zero]; exact Nat.not_lt_zero r)⟩
      · intro b block' hblock
        change (arr1.addlist ++ [_])[b]? = _ at hblock
        rw [hempty, List.nil_append, List.getElem?_singleton] at hblock
        split_ifs at hblock with hb
        obtain rfl := Option.some.inj hblock
        exact (filled_zero b).symm
    · have hlast : arr.addlist.length - 1 = n := by rw [hholds.length_blocks, Nat.add_sub_cancel]
      rw [hend] at hfull
      have hfilled := hholds.modify (f := fun block => { block with nrstate := arr.addnext })
        (fun _ => rfl) n
      rw [hfull] at hfilled
      rw [Statearray.modifyLast, hlast] at haddlist
      refine ⟨n + 1, ⟨?_, length_of_block_pos, ?_, rfl⟩⟩
      · change Holds (arr1.addlist ++ [_]) (n + 1) 0 xs
        rw [haddlist, hfull]
        exact hfilled.append _
      · intro b block' hblock
        change (arr1.addlist ++ [_])[b]? = _ at hblock
        rw [haddlist] at hblock
        rcases Nat.lt_or_ge b (n + 1) with hb | hb
        · rw [List.getElem?_append_left (by rw [List.length_modify, hholds.length_blocks]; exact hb),
            List.getElem?_modify, Option.map_eq_map, Option.map_eq_some_iff] at hblock
          obtain ⟨block'', hblock'', rfl⟩ := hblock
          rw [filled, if_pos hb]
          split_ifs with hnb
          · exact hfull
          · rw [hnr b block'' hblock'', filled, if_pos (by omega)]
        · rw [List.getElem?_append_right (by rw [List.length_modify, hholds.length_blocks]; exact hb),
            List.getElem?_singleton] at hblock
          split_ifs at hblock
          obtain rfl := Option.some.inj hblock
          rw [filled, if_neg (by omega)]
  · obtain rfl := Option.some.inj hroom
    refine ⟨?_, rfl, rfl, rfl, rfl⟩
    rcases h with ⟨hlist, hnext, hend, rfl⟩ | ⟨n, hholds, hpos, hnr, hend⟩
    · exact absurd (hnext.trans hend.symm) hfull
    · rw [hend] at hfull
      exact ⟨n, hholds, lt_of_le_of_ne hholds.le hfull, hnr, hend⟩

theorem makeroom_none (hmem : mem.Available) : makeroom mem arr ≠ none := by
  rw [makeroom]
  split_ifs
  · rw [Ne, Option.map_eq_none_iff]
    exact newblock_none hmem
  · exact nofun

theorem insert1_some (h : Adds arr xs) (hinsert : insert1_statearray mem arr x = .ok arr') :
    Adds arr' (xs ++ [x]) ∧ SameDels arr arr' := by
  rw [insert1_statearray] at hinsert
  rcases hroom : makeroom mem arr with _ | arr1
  · rw [hroom] at hinsert
    exact nomatch hinsert
  rw [hroom] at hinsert
  obtain rfl := Except.ok.inj hinsert
  obtain ⟨⟨n, hroom⟩, hdels⟩ := makeroom_some h hroom
  have hlast : arr1.addlist.length - 1 = n := by
    rw [hroom.holds.length_blocks, Nat.add_sub_cancel]
  refine ⟨.blocks n ?_ (Nat.succ_pos _) ?_ hroom.addend, hdels⟩
  · change Holds (arr1.modifyLast _) n (arr1.addnext + 1) (xs ++ [x])
    rw [Statearray.modifyLast, hlast]
    exact hroom.holds.write hroom.lt x
  · intro b block hblock
    change (arr1.modifyLast _)[b]? = _ at hblock
    rw [Statearray.modifyLast, List.getElem?_modify, Option.map_eq_map,
      Option.map_eq_some_iff] at hblock
    obtain ⟨block', hblock', rfl⟩ := hblock
    have hnr := hroom.nrstate b block' hblock'
    split_ifs <;> exact hnr

theorem insert1_ok (hmem : mem.Available) (arr : Statearray S) (x : S) :
    ∃ arr', insert1_statearray mem arr x = .ok arr' := by
  rcases hroom : makeroom mem arr with _ | arr1
  · exact absurd hroom (makeroom_none hmem)
  · exact ⟨_, by rw [insert1_statearray, hroom]⟩

/-! ## Removing -/

theorem Queued.of_holds :
    ∀ {blocks : List (Block S)} {n : ℕ} {xs : List S}, Holds blocks n m xs → 0 < m →
      (∀ b block, blocks[b]? = some block → block.nrstate = filled n m b) → Queued blocks xs := by
  intro blocks
  induction blocks with
  | nil => exact fun h => absurd h.length_blocks.symm (Nat.succ_ne_zero _)
  | cons block blocks ih =>
    intro n xs h hm hnr
    have hsize := hnr 0 block rfl
    have hstate : ∀ r < block.nrstate, block.state r = xs[r]? := by
      intro r hr
      rw [hsize] at hr
      have hblock := h.state 0 block rfl r hr
      rwa [Nat.zero_mul, Nat.zero_add] at hblock
    have hblocks : blocks.length = n := Nat.succ.inj h.length_blocks
    rcases n with _ | n
    · rw [filled_pos_zero] at hsize
      have hlen : xs.length = m := by rw [h.length, Nat.zero_mul, Nat.zero_add]
      obtain rfl := List.length_eq_zero_iff.1 hblocks
      exact ⟨by omega, by omega, hstate, List.drop_eq_nil_of_le (by omega)⟩
    · rw [filled, if_pos (Nat.succ_pos n)] at hsize
      have hlen := h.length
      rw [Nat.succ_mul] at hlen
      have hpos := length_of_block_pos
      refine ⟨by omega, by omega, hstate, ih ⟨hblocks, ?_, h.le, ?_⟩ hm ?_⟩
      · rw [List.length_drop, hsize]
        omega
      · intro b block' hblock r hr
        have hb := h.state (b + 1) block' hblock r (by rw [filled_succ]; exact hr)
        rw [hb, List.getElem?_drop, hsize, Nat.succ_mul]
        congr 1
        omega
      · intro b block' hblock
        rw [hnr (b + 1) block' hblock, filled_succ]

theorem swap1and2_adds (h : Adds arr xs) :
    Adds (swap1and2_statearray arr) [] ∧ Dels (swap1and2_statearray arr) xs := by
  refine ⟨.empty rfl rfl rfl rfl, Nat.le_refl _, Nat.zero_le _,
    fun r hr => absurd hr (Nat.not_lt_zero r), ?_⟩
  change Queued (arr.modifyLast fun block => { block with nrstate := arr.addnext }) xs
  rcases h with ⟨hlist, -, -, rfl⟩ | ⟨n, hholds, hpos, hnr, -⟩
  · rw [Statearray.modifyLast, hlist]
    rfl
  · rw [Statearray.modifyLast, hholds.length_blocks, Nat.add_sub_cancel]
    have hmodify := hholds.modify (f := fun block => { block with nrstate := arr.addnext })
      (fun _ => rfl) n
    refine Queued.of_holds hmodify hpos fun b block hblock => ?_
    rw [List.getElem?_modify, Option.map_eq_map, Option.map_eq_some_iff] at hblock
    obtain ⟨block', hblock', rfl⟩ := hblock
    have hb := (List.getElem?_eq_some_iff.1 hblock').1
    rw [hholds.length_blocks] at hb
    split_ifs with hnb
    · rw [hnb, filled, if_neg (Nat.lt_irrefl b)]
    · rw [hnr b block' hblock', filled, filled, if_pos (by omega), if_pos (by omega)]

theorem removeLoop_rep :
    ∀ (fuel : ℕ) (arr : Statearray S) (ys : List S), arr.dellist.length < fuel → Dels arr ys →
      ∃ arr', removeLoop fuel arr = some (ys.head?, arr') ∧ Dels arr' ys.tail ∧
        arr'.addlist = arr.addlist ∧ arr'.addnext = arr.addnext ∧ arr'.addend = arr.addend := by
  intro fuel
  induction fuel with
  | zero => exact fun _ _ hfuel => absurd hfuel (Nat.not_lt_zero _)
  | succ fuel ih =>
    intro arr ys hfuel h
    rw [removeLoop]
    by_cases hend : arr.delnext = arr.delend
    · rw [if_pos hend]
      have hzero : arr.delend - arr.delnext = 0 := by rw [hend, Nat.sub_self]
      have hqueued := h.queued
      rw [hzero, List.drop_zero] at hqueued
      rcases hlist : arr.dellist with _ | ⟨block, dellist⟩ <;> rw [hlist] at hqueued
      · obtain rfl : ys = [] := hqueued
        refine ⟨_, rfl, ⟨h.le, h.length, fun r hr => ?_, ?_⟩, rfl, rfl, rfl⟩
        · exact absurd hr (by dsimp only; omega)
        · dsimp only
          rw [hzero]
          rfl
      · obtain ⟨hpos, hlen, hstate, hrest⟩ := hqueued
        rw [hlist, List.length_cons] at hfuel
        refine ih _ ys (Nat.lt_of_succ_lt_succ hfuel) ⟨Nat.zero_le _, hlen, fun r hr => ?_, hrest⟩
        rw [Nat.zero_add]
        exact hstate r hr
    · rw [if_neg hend]
      have hle := h.le
      have hstate := h.state 0 (by omega)
      have hlen := h.length
      have hqueued := h.queued
      rcases ys with _ | ⟨y, ys⟩
      · exact absurd hlen (by rw [List.length_nil]; omega)
      rw [Nat.add_zero, List.getElem?_cons_zero] at hstate
      rw [hstate]
      rw [List.length_cons] at hlen
      have hone : arr.delend - arr.delnext = arr.delend - (arr.delnext + 1) + 1 := by omega
      refine ⟨_, rfl, ⟨by dsimp only; omega, by dsimp only [List.tail_cons]; omega,
        fun r hr => ?_, ?_⟩, rfl, rfl, rfl⟩
      · have hnext := h.state (r + 1) (by dsimp only at hr; omega)
        rw [List.getElem?_cons_succ, Nat.add_comm r 1, ← Nat.add_assoc] at hnext
        exact hnext
      · rw [hone, List.drop_succ_cons] at hqueued
        exact hqueued

theorem Adds.congr (h : Adds arr xs) (hlist : arr'.addlist = arr.addlist)
    (hnext : arr'.addnext = arr.addnext) (hend : arr'.addend = arr.addend) : Adds arr' xs := by
  rcases h with ⟨h1, h2, h3, h4⟩ | ⟨n, hholds, hpos, hnr, h3⟩
  · exact .empty (hlist.trans h1) (hnext.trans h2) (hend.trans h3) h4
  · exact .blocks n (by rw [hlist, hnext]; exact hholds) (by rw [hnext]; exact hpos)
      (by rw [hlist]; exact hnr) (hend.trans h3)

theorem Dels.congr (h : Dels arr ys) (hsame : SameDels arr arr') : Dels arr' ys := by
  obtain ⟨h1, h2, h3, h4⟩ := hsame
  exact ⟨by rw [h3, h4]; exact h.le, by rw [h3, h4]; exact h.length, by
    rw [h2, h3, h4]
    exact h.state, by rw [h1, h3, h4]; exact h.queued⟩

/-! ## Iterating -/

/-- The iterator has returned the first `i` of the states `xs`. -/
def At (xs : List S) (iter : Iter) (i : ℕ) : Prop :=
  ∃ b, iter.block = some b ∧ b * length_of_block < xs.length ∧ iter.next ≤ iter.stop ∧
    iter.stop ≤ length_of_block ∧ b * length_of_block + iter.stop ≤ xs.length ∧
    i = b * length_of_block + iter.next

theorem At.append {iter : Iter} {i : ℕ} (h : At xs iter i) (zs : List S) : At (xs ++ zs) iter i := by
  obtain ⟨b, hblock, hb, hnext, hstop, hlen, hi⟩ := h
  have hle : xs.length ≤ (xs ++ zs).length := by
    rw [List.length_append]
    exact Nat.le_add_right _ _
  exact ⟨b, hblock, hb.trans_le hle, hnext, hstop, hlen.trans hle, hi⟩

theorem Holds.block (h : Holds blocks n m xs) {b : ℕ} (hb : b * length_of_block < xs.length) :
    b ≤ n ∧ ∃ block, blocks[b]? = some block := by
  have hbn : b ≤ n := by
    by_contra hbn
    have hmul : (n + 1) * length_of_block ≤ b * length_of_block :=
      Nat.mul_le_mul_right _ (Nat.succ_le_of_lt (Nat.not_le.1 hbn))
    have hlen := h.length
    have hle := h.le
    rw [Nat.succ_mul] at hmul
    omega
  have hlt : b < blocks.length := by rw [h.length_blocks]; exact Nat.lt_succ_of_le hbn
  exact ⟨hbn, blocks[b], List.getElem?_eq_getElem hlt⟩

theorem Holds.filled_le_length (h : Holds blocks n m xs) {b : ℕ} (hb : b ≤ n) :
    b * length_of_block + filled n m b ≤ xs.length := by
  have hlen := h.length
  rw [filled]
  split_ifs with hlt
  · have hmul : (b + 1) * length_of_block ≤ n * length_of_block := Nat.mul_le_mul_right _ hlt
    rw [Nat.succ_mul] at hmul
    omega
  · obtain rfl : b = n := by omega
    exact hlen.ge

theorem iterLoop_read (h : Holds arr.addlist n arr.addnext xs) {iter : Iter} {i : ℕ}
    (hat : At xs iter i) (hlt : iter.next < iter.stop) (fuel : ℕ) :
    ∃ iter', iterLoop arr (fuel + 1) iter = some (xs[i]?, iter') ∧ i < xs.length ∧
      At xs iter' (i + 1) := by
  obtain ⟨b, hblock, hb, hnext, hstop, hlen, rfl⟩ := hat
  obtain ⟨hbn, block, hget⟩ := h.block hb
  have hfilled : iter.next < filled n arr.addnext b := by
    rw [filled]
    split_ifs with hbn'
    · exact hlt.trans_le hstop
    · obtain rfl : b = n := by omega
      have hlength := h.length
      omega
  have hi : b * length_of_block + iter.next < xs.length := by omega
  have hstate := h.state b block hget iter.next hfilled
  refine ⟨{ iter with next := iter.next + 1 }, ?_, hi, b, hblock, hb, hlt, hstop, hlen,
    Nat.add_assoc _ _ _⟩
  rw [iterLoop, if_neg hlt.ne, hblock, Option.bind_some, hget, Option.bind_some, hstate,
    List.getElem?_eq_getElem hi]
  rfl

theorem iterLoop_last (h : Holds arr.addlist n arr.addnext xs) {iter : Iter} {i : ℕ}
    (hat : At xs iter i) (hend : iter.next = iter.stop) (hlast : iter.block = some n)
    (fuel : ℕ) :
    (i < xs.length → ∃ iter', iterLoop arr (fuel + 2) iter = some (xs[i]?, iter') ∧
      At xs iter' (i + 1)) ∧
    (i = xs.length → ∃ iter', iterLoop arr (fuel + 2) iter = some (none, iter')) := by
  have hloop : iterLoop arr (fuel + 2) iter =
      if iter.stop = arr.addnext then some (none, iter)
      else iterLoop arr (fuel + 1) { iter with stop := arr.addnext } := by
    rw [iterLoop, if_pos hend, hlast]
    dsimp only
    rw [if_pos h.length_blocks.symm]
  have hlength := h.length
  have hle := h.le
  obtain ⟨b, hblock, hb, hnext, hstop, hlen, rfl⟩ := hat
  obtain rfl : b = n := Option.some.inj (hblock.symm.trans hlast)
  constructor
  · intro hi
    rw [hloop, if_neg (by omega)]
    have hat' : At xs { iter with stop := arr.addnext } (b * length_of_block + iter.next) :=
      ⟨b, hblock, hb, by dsimp only; omega, hle, by dsimp only; omega, rfl⟩
    obtain ⟨iter', hrun, -, hat'⟩ := iterLoop_read h hat' (by dsimp only; omega) fuel
    exact ⟨iter', hrun, hat'⟩
  · intro hi
    rw [hloop, if_pos (by omega)]
    exact ⟨iter, rfl⟩

theorem next_statearrayiter_at (h : Holds arr.addlist n arr.addnext xs) (hpos : 0 < arr.addnext)
    (hnr : ∀ b block, arr.addlist[b]? = some block → block.nrstate = filled n 0 b) {iter : Iter}
    {i : ℕ} (hat : At xs iter i) :
    (i < xs.length → ∃ iter', next_statearrayiter arr iter = some (xs[i]?, iter') ∧
      At xs iter' (i + 1)) ∧
    (i = xs.length → ∃ iter', next_statearrayiter arr iter = some (none, iter')) := by
  have hLpos := length_of_block_pos
  rw [next_statearrayiter]
  have hat₀ := hat
  obtain ⟨b, hblock, hb, hnext, hstop, hlen, rfl⟩ := hat
  rcases Nat.lt_or_ge iter.next iter.stop with hlt | hge
  · obtain ⟨iter', hrun, hi, hat'⟩ := iterLoop_read h hat₀ hlt 3
    exact ⟨fun _ => ⟨iter', hrun, hat'⟩, fun hi' => absurd hi (by omega)⟩
  have hend : iter.next = iter.stop := by omega
  obtain ⟨hbn, block, hget⟩ := h.block hb
  rcases hbn.lt_or_eq with hbn | rfl
  · -- a full block
    have hfull := h.filled_le_length hbn.le
    have hsucc := h.filled_le_length (b := b + 1) hbn
    rw [filled, if_pos hbn] at hfull
    have hsize := hnr b block hget
    rw [filled, if_pos hbn] at hsize
    have hloop : iterLoop arr 4 iter =
        if iter.stop ≠ block.nrstate then iterLoop arr 3 { iter with stop := block.nrstate }
        else arr.addlist[b + 1]?.bind fun block =>
          iterLoop arr 3 ⟨some (b + 1), 0, block.nrstate⟩ := by
      rw [iterLoop, if_pos hend, hblock]
      dsimp only
      rw [if_neg (by rw [h.length_blocks]; omega), hget, Option.bind_some]
    rw [hloop]
    by_cases hstop' : iter.stop ≠ block.nrstate
    · rw [if_pos hstop']
      have hat' : At xs { iter with stop := block.nrstate } (b * length_of_block + iter.next) :=
        ⟨b, hblock, hb, by dsimp only; omega, hsize.le, by dsimp only; omega, rfl⟩
      obtain ⟨iter', hrun, hi, hat'⟩ := iterLoop_read h hat' (by dsimp only; omega) 2
      exact ⟨fun _ => ⟨iter', hrun, hat'⟩, fun hi' => absurd hi (by omega)⟩
    · rw [if_neg hstop']
      have hi : b * length_of_block + iter.next = (b + 1) * length_of_block + 0 := by
        rw [Nat.succ_mul]
        omega
      have hb' : (b + 1) * length_of_block < xs.length := by
        have hfilled : 0 < filled n arr.addnext (b + 1) := by
          rw [filled]
          split_ifs <;> assumption
        omega
      obtain ⟨-, block', hget'⟩ := h.block hb'
      rw [hget', Option.bind_some, hi]
      have hsize' := hnr (b + 1) block' hget'
      have hle' : filled n 0 (b + 1) ≤ filled n arr.addnext (b + 1) := by
        rw [filled, filled]
        split_ifs <;> omega
      have hat' : At xs ⟨some (b + 1), 0, block'.nrstate⟩ ((b + 1) * length_of_block + 0) :=
        ⟨b + 1, rfl, hb', Nat.zero_le _, hsize'.le.trans (filled_le (Nat.zero_le _) _), by
          dsimp only
          omega, rfl⟩
      rcases Nat.lt_or_ge 0 block'.nrstate with hlt | hge
      · obtain ⟨iter', hrun, hi', hat'⟩ := iterLoop_read h hat' hlt 2
        exact ⟨fun _ => ⟨iter', hrun, hat'⟩, fun h => absurd hi' (by omega)⟩
      · have hlast : b + 1 = n := by
          rw [filled] at hsize'
          split_ifs at hsize' <;> omega
        exact iterLoop_last h hat' (by dsimp only; omega) (congrArg some hlast) 1
  · exact iterLoop_last h hat₀ hend hblock 2

/-! ## The two lists -/

/-- `xs` are the states added and `ys` those that are not removed yet. -/
structure Rep (arr : Statearray S) (xs ys : List S) : Prop where
  adds : Adds arr xs
  dels : Dels arr ys

theorem init_rep : Rep (init_statearray : Statearray S) [] [] :=
  ⟨.empty rfl rfl rfl rfl, Nat.le_refl _, Nat.zero_le _,
    fun _ hr => absurd hr (Nat.not_lt_zero _), rfl⟩

theorem insert1_rep (mem : Memory) (h : Rep arr xs ys) (x : S) :
    (∃ arr', insert1_statearray mem arr x = .ok arr' ∧ Rep arr' (xs ++ [x]) ys) ∨
      insert1_statearray mem arr x = .error .ENOMEM ∧ ¬mem.Available := by
  rcases hinsert : insert1_statearray mem arr x with e | arr'
  · refine .inr ⟨?_, fun hmem => ?_⟩
    · rw [insert1_statearray] at hinsert
      rcases hroom : makeroom mem arr with _ | arr1 <;> rw [hroom] at hinsert
      · exact hinsert.symm
      · exact nomatch hinsert
    · obtain ⟨arr', hok⟩ := insert1_ok hmem arr x
      exact nomatch hinsert.symm.trans hok
  · obtain ⟨hadds, hsame⟩ := insert1_some h.adds hinsert
    exact .inl ⟨arr', rfl, hadds, h.dels.congr hsame⟩

theorem swap1and2_rep (h : Rep arr xs ys) : Rep (swap1and2_statearray arr) [] xs :=
  ⟨(swap1and2_adds h.adds).1, (swap1and2_adds h.adds).2⟩

theorem remove2_rep (h : Rep arr xs ys) :
    ∃ arr', remove2_statearray arr = some (ys.head?, arr') ∧ Rep arr' xs ys.tail := by
  obtain ⟨arr', hrun, hdels, hlist, hnext, hend⟩ :=
    removeLoop_rep (arr.dellist.length + 1) arr ys (Nat.lt_succ_self _) h.dels
  exact ⟨arr', hrun, h.adds.congr hlist hnext hend, hdels⟩

/-- Without states the iterator has no block. -/
def Iterates (xs : List S) (iter : Iter) (i : ℕ) : Prop :=
  At xs iter i ∨ xs = [] ∧ iter = ⟨none, 0, 0⟩ ∧ i = 0

theorem init_iterates (h : Rep arr xs ys) : Iterates xs (init_statearrayiter arr) 0 := by
  rcases h.adds with ⟨hlist, -, -, rfl⟩ | ⟨n, hholds, hpos, hnr, -⟩
  · refine .inr ⟨rfl, ?_, rfl⟩
    rw [init_statearrayiter, hlist]
    rfl
  · have hlength := hholds.length
    have hb : 0 * length_of_block < xs.length := by omega
    obtain ⟨-, block, hget⟩ := hholds.block hb
    have hhead : arr.addlist.head? = some block := List.head?_eq_getElem?.trans hget
    have hsize := hnr 0 block hget
    have hle : filled n 0 0 ≤ filled n arr.addnext 0 := by
      rw [filled, filled]
      split_ifs <;> omega
    have hfull := hholds.filled_le_length (Nat.zero_le n)
    refine .inl ⟨0, ?_, hb, Nat.zero_le _, ?_, ?_, (Nat.zero_mul _).symm⟩
    · rw [init_statearrayiter, hhead]
      rfl
    · rw [init_statearrayiter, hhead]
      exact hsize.le.trans (filled_le (Nat.zero_le _) 0)
    · rw [init_statearrayiter, hhead]
      change 0 * length_of_block + block.nrstate ≤ _
      omega

theorem Iterates.le {iter : Iter} {i : ℕ} (h : Iterates xs iter i) : i ≤ xs.length := by
  rcases h with ⟨b, -, -, hnext, -, hlen, rfl⟩ | ⟨-, -, rfl⟩
  · omega
  · exact Nat.zero_le _

theorem next_rep (h : Rep arr xs ys) {iter : Iter} {i : ℕ} (hat : Iterates xs iter i) :
    (∃ x iter', xs[i]? = some x ∧ next_statearrayiter arr iter = some (some x, iter') ∧
      At xs iter' (i + 1)) ∨
    i = xs.length ∧ ∃ iter', next_statearrayiter arr iter = some (none, iter') := by
  rcases hat with hat | ⟨rfl, rfl, rfl⟩
  · rcases h.adds with ⟨-, -, -, rfl⟩ | ⟨n, hholds, hpos, hnr, -⟩
    · obtain ⟨b, -, hb, -⟩ := hat
      exact absurd hb (Nat.not_lt_zero _)
    have hle : i ≤ xs.length := Iterates.le (.inl hat)
    obtain ⟨hlt, heq⟩ := next_statearrayiter_at hholds hpos hnr hat
    rcases hle.lt_or_eq with hi | hi
    · obtain ⟨iter', hrun, hat'⟩ := hlt hi
      rw [List.getElem?_eq_getElem hi] at hrun
      exact .inl ⟨xs[i], iter', List.getElem?_eq_getElem hi, hrun, hat'⟩
    · exact .inr ⟨hi, heq hi⟩
  · exact .inr ⟨rfl, _, rfl⟩

end Automat
end CKern
