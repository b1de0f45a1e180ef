import CKern.Library.DoublyLinked
import CKern.Library.Refinement

/-!
# `ds/inmem/olist.h`: doubly linked lists of array indices

* `Objects`: an array whose elements contain a node of every list.
* `insertfirstOlist`, `insertlastOlist`, `removeOlist`: the operations, on the words of memory and
  the field `last`, which is the last index plus one in 16 bits.
* `Rep`: the nodes of every list form a circle.
* `olist_refines`: as long as the index 65535 does not become the last one, every list is a sequence
  of indices.
-/

namespace CKern
namespace Olist

open DoublyLinked Refinement

variable {ι : Type*}

/-! ## The array -/

/-- `sizeof(olist_node_t)`. -/
def sizeofNode : ℕ := 4

/-- An array at the address `addr`, whose elements have `1 << shift` bytes. The node of the list `i`
starts `offset i` bytes behind the start of its element. -/
structure Objects (ι : Type*) where
  addr : ℕ
  shift : ℕ
  offset : ι → ℕ
  fits : ∀ i, offset i + sizeofNode ≤ 1 <<< shift
  apart : ∀ i j, i ≠ j → offset i + sizeofNode ≤ offset j ∨ offset j + sizeofNode ≤ offset i

/-- The parameter `first` of the functions of the list `i`. -/
def Objects.first (o : Objects ι) (i : ι) : ℕ := o.addr + o.offset i

/-- The 16-bit words of memory. -/
abbrev Mem := ℕ → UInt16

/-- `access_olist`. -/
def accessOlist (node first shift : ℕ) : ℕ := first + node <<< shift

/-- The address of the field `next` of a node. -/
def nextAt (node : ℕ) : ℕ := node

/-- The address of the field `prev` of a node. -/
def prevAt (node : ℕ) : ℕ := node + 2

/-! ## The operations -/

/-- `isempty_olist`. -/
def isemptyOlist (last : UInt16) : Bool := last = 0

/-- `first_olist`. -/
def firstOlist (last : UInt16) (first shift : ℕ) (mem : Mem) : UInt16 :=
  mem (nextAt (accessOlist (last.toNat - 1) first shift))

/-- `last_olist`. -/
def lastOlist (last : UInt16) : UInt16 := last - 1

/-- `insertfirst_olist`. -/
def insertfirstOlist (last node : UInt16) (first shift : ℕ) (mem : Mem) : UInt16 × Mem :=
  let nnode := accessOlist node.toNat first shift
  if last ≠ 0 then
    let last' := last.toNat - 1
    let lnode := accessOlist last' first shift
    let mem := Function.update mem (nextAt nnode) (mem (nextAt lnode))
    let mem := Function.update mem (prevAt nnode) last'.toUInt16
    let fnode := accessOlist (mem (nextAt lnode)).toNat first shift
    let mem := Function.update mem (prevAt fnode) node
    let mem := Function.update mem (nextAt lnode) node
    (last, mem)
  else
    let mem := Function.update mem (nextAt nnode) node
    let mem := Function.update mem (prevAt nnode) node
    (node + 1, mem)

/-- `insertlast_olist`. -/
def insertlastOlist (last node : UInt16) (first shift : ℕ) (mem : Mem) : UInt16 × Mem :=
  let nnode := accessOlist node.toNat first shift
  let mem :=
    if last ≠ 0 then
      let last' := last.toNat - 1
      let lnode := accessOlist last' first shift
      let mem := Function.update mem (nextAt nnode) (mem (nextAt lnode))
      let mem := Function.update mem (prevAt nnode) last'.toUInt16
      let fnode := accessOlist (mem (nextAt lnode)).toNat first shift
      let mem := Function.update mem (prevAt fnode) node
      Function.update mem (nextAt lnode) node
    else
      let mem := Function.update mem (nextAt nnode) node
      Function.update mem (prevAt nnode) node
  (node + 1, mem)

/-- `remove_olist`. The sum of the comparison is an `int`. -/
def removeOlist (last node : UInt16) (first shift : ℕ) (mem : Mem) : UInt16 × Mem :=
  let nnode := accessOlist node.toNat first shift
  let last :=
    if last.toNat = node.toNat + 1 then
      if node = mem (prevAt nnode) then 0 else mem (prevAt nnode) + 1
    else last
  let next := mem (nextAt nnode)
  let prev := mem (prevAt nnode)
  let mem := Function.update mem (prevAt (accessOlist next.toNat first shift)) prev
  let mem := Function.update mem (nextAt (accessOlist prev.toNat first shift)) next
  (last, mem)

/-! ## The nodes of a list -/

/-- The address of a node of the list `i`. -/
abbrev Objects.node (o : Objects ι) (i : ι) (n : UInt16) : ℕ :=
  accessOlist n.toNat (o.first i) o.shift

/-- The pointers of the nodes of the list `i`. -/
def Objects.links (o : Objects ι) (i : ι) (mem : Mem) : Links UInt16 :=
  ⟨fun n => some (mem (nextAt (o.node i n))), fun n => some (mem (prevAt (o.node i n)))⟩

variable {o : Objects ι} {i j : ι} {mem : Mem} {a b m n v : UInt16} {last : UInt16}
  {l : List UInt16}

/-- **Different words stand at different addresses.** -/
theorem Objects.node_inj {p q : ℕ} (hp : p < sizeofNode) (hq : q < sizeofNode)
    (h : o.node i n + p = o.node j m + q) : i = j ∧ n = m ∧ p = q := by
  have hi := o.fits i
  have hj := o.fits j
  rw [Objects.node, Objects.node, accessOlist, accessOlist, Nat.shiftLeft_eq, Nat.shiftLeft_eq,
    Objects.first, Objects.first] at h
  rw [Nat.one_shiftLeft] at hi hj
  have hpos := Nat.two_pow_pos o.shift
  -- the number of the element is the quotient by its size
  have hdiv : ∀ {x y : ℕ}, x < 2 ^ o.shift → (y * 2 ^ o.shift + x) / 2 ^ o.shift = y := by
    intro x y hx
    rw [mul_comm, Nat.mul_add_div hpos, Nat.div_eq_of_lt hx, add_zero]
  have hnm : n.toNat = m.toNat := by
    have hsum : n.toNat * 2 ^ o.shift + (o.offset i + p) =
        m.toNat * 2 ^ o.shift + (o.offset j + q) := by omega
    rw [← hdiv (show o.offset i + p < 2 ^ o.shift by omega) (y := n.toNat), hsum, hdiv (by omega)]
  rw [hnm] at h
  have hij : i = j := by
    by_contra hne
    rcases o.apart i j hne with hle | hle <;> omega
  subst hij
  exact ⟨rfl, UInt16.toNat_inj.mp hnm, by omega⟩

theorem Objects.nextAt_inj (h : nextAt (o.node i n) = nextAt (o.node j m)) : i = j ∧ n = m :=
  have hand := Objects.node_inj (p := 0) (q := 0) (by decide) (by decide) h
  ⟨hand.1, hand.2.1⟩

theorem Objects.prevAt_inj (h : prevAt (o.node i n) = prevAt (o.node j m)) : i = j ∧ n = m :=
  have hand := Objects.node_inj (p := 2) (q := 2) (by decide) (by decide) h
  ⟨hand.1, hand.2.1⟩

theorem Objects.nextAt_ne_prevAt : nextAt (o.node i n) ≠ prevAt (o.node j m) := fun h =>
  absurd (Objects.node_inj (p := 0) (q := 2) (by decide) (by decide) h).2.2 (by decide)

theorem Objects.links_next : o.links i (Function.update mem (nextAt (o.node i n)) v) =
    setNext n (some v) (o.links i mem) := by
  refine Links.ext (funext fun m => ?_) (funext fun m => ?_)
  · change some (Function.update mem _ v _) = Function.update (o.links i mem).next n (some v) m
    rcases eq_or_ne m n with rfl | hne
    · rw [Function.update_self, Function.update_self]
    · rw [Function.update_of_ne hne, Function.update_of_ne fun h => hne (Objects.nextAt_inj h).2]
      rfl
  · exact congrArg some (Function.update_of_ne Objects.nextAt_ne_prevAt.symm _ _)

theorem Objects.links_prev : o.links i (Function.update mem (prevAt (o.node i n)) v) =
    setPrev n (some v) (o.links i mem) := by
  refine Links.ext (funext fun m => ?_) (funext fun m => ?_)
  · exact congrArg some (Function.update_of_ne Objects.nextAt_ne_prevAt _ _)
  · change some (Function.update mem _ v _) = Function.update (o.links i mem).prev n (some v) m
    rcases eq_or_ne m n with rfl | hne
    · rw [Function.update_self, Function.update_self]
    · rw [Function.update_of_ne hne, Function.update_of_ne fun h => hne (Objects.prevAt_inj h).2]
      rfl

theorem Objects.links_next_of_ne (h : j ≠ i) :
    o.links j (Function.update mem (nextAt (o.node i n)) v) = o.links j mem := by
  refine Links.ext (funext fun m => ?_) (funext fun m => ?_)
  · exact congrArg some (Function.update_of_ne (fun heq => h (Objects.nextAt_inj heq).1) _ _)
  · exact congrArg some (Function.update_of_ne Objects.nextAt_ne_prevAt.symm _ _)

theorem Objects.links_prev_of_ne (h : j ≠ i) :
    o.links j (Function.update mem (prevAt (o.node i n)) v) = o.links j mem := by
  refine Links.ext (funext fun m => ?_) (funext fun m => ?_)
  · exact congrArg some (Function.update_of_ne Objects.nextAt_ne_prevAt _ _)
  · exact congrArg some (Function.update_of_ne (fun heq => h (Objects.prevAt_inj heq).1) _ _)

/-- The field `last` of a list: the last index plus one, or 0. -/
def lastPlusOne (l : List UInt16) : ℕ := l.getLast?.elim 0 fun b => b.toNat + 1

/-- What an operation of the list `i` does to memory. -/
structure Changes (o : Objects ι) (i : ι) (l : List UInt16) (mem : Mem) (l' : List UInt16)
    (mem' : Mem) : Prop where
  turns : Turns (o.links i mem) l (o.links i mem') l'
  links_eq : ∀ j, j ≠ i → o.links j mem' = o.links j mem

/-! ## Insertion -/

/-- What both insertions do to memory: a new node between the last one and the first one. -/
def insertMem (last node : UInt16) (first shift : ℕ) (mem : Mem) : Mem :=
  let nnode := accessOlist node.toNat first shift
  if last ≠ 0 then
    let last' := last.toNat - 1
    let lnode := accessOlist last' first shift
    let mem := Function.update mem (nextAt nnode) (mem (nextAt lnode))
    let mem := Function.update mem (prevAt nnode) last'.toUInt16
    let fnode := accessOlist (mem (nextAt lnode)).toNat first shift
    let mem := Function.update mem (prevAt fnode) node
    Function.update mem (nextAt lnode) node
  else
    let mem := Function.update mem (nextAt nnode) node
    Function.update mem (prevAt nnode) node

theorem insertfirstOlist_eq (last node : UInt16) (first shift : ℕ) (mem : Mem) :
    insertfirstOlist last node first shift mem =
      (if last ≠ 0 then last else node + 1, insertMem last node first shift mem) := by
  rw [insertfirstOlist, insertMem]
  dsimp only
  split <;> rfl

theorem insertlastOlist_eq (last node : UInt16) (first shift : ℕ) (mem : Mem) :
    insertlastOlist last node first shift mem =
      (node + 1, insertMem last node first shift mem) := rfl

theorem last_spec (hb : l.getLast? = some b) (hlast : last.toNat = lastPlusOne l) :
    last ≠ 0 ∧ last.toNat - 1 = b.toNat := by
  rw [lastPlusOne, hb, Option.elim_some] at hlast
  refine ⟨?_, by omega⟩
  rintro rfl
  exact absurd hlast (Nat.succ_ne_zero _).symm

/-- **A new node is put between the last node and the first one.** -/
theorem insertMem_changes (h : Circle (o.links i mem) l) (hlast : last.toNat = lastPlusOne l)
    (hn : n ∉ l) : Changes o i l mem (l ++ [n]) (insertMem last n (o.first i) o.shift mem) := by
  rcases hb : l.getLast? with _ | b
  · obtain rfl := List.getLast?_eq_none_iff.mp hb
    obtain rfl : last = 0 := UInt16.toNat_inj.mp hlast
    have hmem : insertMem 0 n (o.first i) o.shift mem = Function.update (Function.update mem
        (nextAt (o.node i n)) n) (prevAt (o.node i n)) n := rfl
    rw [hmem]
    refine ⟨?_, fun j hj => ?_⟩
    · rw [Objects.links_prev, Objects.links_next]
      exact turns_singleton n (o.links i mem)
    · rw [Objects.links_prev_of_ne hj, Objects.links_next_of_ne hj]
  · obtain ⟨hne, hsub⟩ := last_spec hb hlast
    have hbl := List.mem_of_getLast? hb
    obtain ⟨a, -, b', -, ha, hb', hba⟩ := h.exists_ends (List.ne_nil_of_mem hbl)
    obtain rfl : b = b' := Option.some.inj (hb.symm.trans hb')
    have hnext : mem (nextAt (o.node i b)) = a := Option.some.inj hba.1
    have hmem : insertMem last n (o.first i) o.shift mem = Function.update (Function.update
        (Function.update (Function.update mem (nextAt (o.node i n)) a) (prevAt (o.node i n)) b)
          (prevAt (o.node i a)) n) (nextAt (o.node i b)) n := by
      have hread : Function.update (Function.update mem (nextAt (o.node i n)) a)
          (prevAt (o.node i n)) b (nextAt (o.node i b)) = a := by
        rw [Function.update_of_ne Objects.nextAt_ne_prevAt, Function.update_of_ne, hnext]
        exact fun heq => hn ((Objects.nextAt_inj heq).2 ▸ hbl)
      rw [insertMem]
      simp only [if_pos hne, hsub, hnext, UInt16.ofNat_toNat, Nat.toUInt16_eq, hread]
    rw [hmem]
    refine ⟨?_, fun j hj => ?_⟩
    · rw [Objects.links_next, Objects.links_prev, Objects.links_prev, Objects.links_next]
      exact turns_insertLinks h hb ha hn
    · rw [Objects.links_next_of_ne hj, Objects.links_prev_of_ne hj, Objects.links_prev_of_ne hj,
        Objects.links_next_of_ne hj]

theorem toNat_add_one (n : UInt16) : (n + 1).toNat = (n.toNat + 1) % 2 ^ 16 := UInt16.toNat_add n 1

theorem mod_eq_of_toNat {k : ℕ} (h : last.toNat = k) : last.toNat = k % 2 ^ 16 := by
  rw [← h, Nat.mod_eq_of_lt last.toNat_lt]

theorem insertfirstOlist_spec (h : Circle (o.links i mem) l) (hlast : last.toNat = lastPlusOne l)
    (hn : n ∉ l) : ∃ last' mem', insertfirstOlist last n (o.first i) o.shift mem = (last', mem') ∧
      Changes o i l mem (n :: l) mem' ∧ last'.toNat = lastPlusOne (n :: l) % 2 ^ 16 := by
  obtain ⟨hturns, hlinks⟩ := insertMem_changes h hlast hn
  refine ⟨_, _, insertfirstOlist_eq _ _ _ _ _, ⟨hturns.rotate_right, hlinks⟩, ?_⟩
  rcases hb : l.getLast? with _ | b
  · obtain rfl := List.getLast?_eq_none_iff.mp hb
    obtain rfl : last = 0 := UInt16.toNat_inj.mp hlast
    exact toNat_add_one n
  · rw [if_pos (last_spec hb hlast).1]
    refine mod_eq_of_toNat (hlast.trans ?_)
    rw [lastPlusOne, lastPlusOne, List.getLast?_cons, hb]
    rfl

theorem insertlastOlist_spec (h : Circle (o.links i mem) l) (hlast : last.toNat = lastPlusOne l)
    (hn : n ∉ l) : ∃ last' mem', insertlastOlist last n (o.first i) o.shift mem = (last', mem') ∧
      Changes o i l mem (l ++ [n]) mem' ∧ last'.toNat = lastPlusOne (l ++ [n]) % 2 ^ 16 := by
  refine ⟨_, _, insertlastOlist_eq _ _ _ _ _, insertMem_changes h hlast hn, ?_⟩
  rw [lastPlusOne, List.getLast?_concat]
  exact toNat_add_one n

/-! ## Removal -/

theorem removeOlist_mem {l₁ l₂ : List UInt16} (h : Circle (o.links i mem) (l₁ ++ n :: l₂))
    {next prev : UInt16} (hnext : mem (nextAt (o.node i n)) = next)
    (hprev : mem (prevAt (o.node i n)) = prev) :
    Changes o i (l₁ ++ n :: l₂) mem (l₁ ++ l₂)
      (Function.update (Function.update mem (prevAt (o.node i next)) prev)
        (nextAt (o.node i prev)) next) := by
  have hrot := h.rotate
  rw [List.cons_append] at hrot
  have hnot : n ∉ l₂ ++ l₁ := (List.nodup_cons.mp hrot.nodup).1
  have hcircle : Circle (o.links i mem) ((l₂ ++ l₁) ++ [n]) := by
    have hrot' : Circle (o.links i mem) ([n] ++ (l₂ ++ l₁)) := hrot
    exact hrot'.rotate
  have hlinks : o.links i (Function.update (Function.update mem (prevAt (o.node i next)) prev)
      (nextAt (o.node i prev)) next) = link prev next (o.links i mem) := by
    rw [Objects.links_next, Objects.links_prev]
    rfl
  have hturns : Turns (o.links i mem) ((l₂ ++ l₁) ++ [n]) (link prev next (o.links i mem))
      (l₂ ++ l₁) := by
    have hmem : ∀ y ∈ [next, prev], y ∈ (l₂ ++ l₁) ++ [n] := by
      obtain ⟨a, ha, hna⟩ := hcircle.exists_next List.mem_concat_self
      obtain ⟨b, hb, hbn⟩ := hcircle.exists_prev List.mem_concat_self
      obtain rfl : a = next := Option.some.inj (hna.1.symm.trans (congrArg some hnext))
      obtain rfl : b = prev := Option.some.inj (hbn.2.symm.trans (congrArg some hprev))
      rintro y hy
      rcases List.mem_pair.mp hy with rfl | rfl
      · exact ha
      · exact hb
    refine ⟨?_, fun y hy _ => ?_, fun y hy _ => ?_⟩
    · rcases hm : l₂ ++ l₁ with _ | ⟨a, m⟩
      · exact circle_nil _
      · rw [hm] at hrot hcircle
        have hna := (List.isChain_cons_cons.mp hrot.chain).1
        obtain rfl : a = next := Option.some.inj (hna.1.symm.trans (congrArg some hnext))
        obtain ⟨b, hb⟩ : ∃ b, (a :: m).getLast? = some b :=
          ⟨_, List.getLast?_eq_some_getLast (List.cons_ne_nil a m)⟩
        have hbn := hrot.closed b (by rw [List.getLast?_cons_cons]; exact hb) n rfl
        obtain rfl : b = prev := Option.some.inj (hbn.2.symm.trans (congrArg some hprev))
        exact hcircle.cut hb rfl
    · exact Function.update_of_ne
        (ne_of_mem_of_not_mem (hmem prev (List.mem_pair.mpr (Or.inr rfl))) hy).symm _ _
    · exact Function.update_of_ne
        (ne_of_mem_of_not_mem (hmem next (List.mem_pair.mpr (Or.inl rfl))) hy).symm _ _
  refine ⟨?_, fun j hj => ?_⟩
  · rw [hlinks]
    have hleft := hturns.rotate_right
    rw [List.append_assoc] at hleft
    have hright := hleft.rotate_left
    rwa [List.append_assoc, List.singleton_append] at hright
  · rw [Objects.links_next_of_ne hj, Objects.links_prev_of_ne hj]

theorem last_eq_iff (hlast : last.toNat = lastPlusOne l) :
    last.toNat = n.toNat + 1 ↔ l.getLast? = some n := by
  rw [hlast, lastPlusOne]
  rcases l.getLast? with _ | b
  · exact iff_of_false (Nat.succ_ne_zero _).symm (Option.some_ne_none n).symm
  · rw [Option.elim_some, Nat.add_right_cancel_iff, UInt16.toNat_inj, Option.some_inj]

theorem removeOlist_spec (h : Circle (o.links i mem) l) (hlast : last.toNat = lastPlusOne l)
    (hn : n ∈ l) : ∃ last' mem', removeOlist last n (o.first i) o.shift mem = (last', mem') ∧
      Changes o i l mem (l.erase n) mem' ∧ last'.toNat = lastPlusOne (l.erase n) % 2 ^ 16 := by
  obtain ⟨l₁, l₂, rfl⟩ := List.append_of_mem hn
  have hnot : n ∉ l₁ := fun hmem =>
    (List.nodup_append'.mp h.nodup).2.2 hmem List.mem_cons_self
  rw [List.erase_append_right _ hnot, List.erase_cons_head]
  refine ⟨_, _, rfl, removeOlist_mem h rfl rfl, ?_⟩
  rcases l₂ with _ | ⟨c, l₂⟩
  · -- the last node is removed, and the one before it becomes the last one
    rw [if_pos ((last_eq_iff hlast).mpr List.getLast?_concat), List.append_nil]
    rcases List.eq_nil_or_concat' l₁ with rfl | ⟨l, b, rfl⟩
    · have hnn := h.closed n rfl n rfl
      have hprev : mem (prevAt (o.node i n)) = n := Option.some.inj hnn.2
      rw [if_pos hprev.symm]
      rfl
    · rw [List.append_assoc, List.singleton_append] at h
      have hbn := (List.isChain_cons_cons.mp (List.isChain_append.mp h.chain).2.1).1
      have hprev : mem (prevAt (o.node i n)) = b := Option.some.inj hbn.2
      have hne : n ≠ b := by
        rintro rfl
        exact hnot List.mem_concat_self
      rw [hprev, if_neg hne, lastPlusOne, List.getLast?_concat]
      exact toNat_add_one b
  · have hne : ¬last.toNat = n.toNat + 1 := by
      rw [last_eq_iff hlast, List.getLast?_append_of_ne_nil _ (List.cons_ne_nil n _),
        List.getLast?_cons_cons]
      intro heq
      have hnd := (List.nodup_append'.mp h.nodup).2.1
      exact (List.nodup_cons.mp hnd).1 (List.mem_of_getLast? heq)
    rw [if_neg hne]
    refine mod_eq_of_toNat (hlast.trans ?_)
    rw [lastPlusOne, lastPlusOne, List.getLast?_append_of_ne_nil _ (List.cons_ne_nil n _),
      List.getLast?_append_of_ne_nil _ (List.cons_ne_nil c l₂), List.getLast?_cons_cons]

/-! ## Runs -/

/-- The operations. -/
inductive Op (ι : Type*)
  | insertfirst (i : ι) (node : UInt16)
  | insertlast (i : ι) (node : UInt16)
  | remove (i : ι) (node : UInt16)

/-- The list that an operation works on. -/
def Op.list : Op ι → ι
  | .insertfirst i _ | .insertlast i _ | .remove i _ => i

/-- Memory, and the field `last` of every list. -/
structure Lists (ι : Type*) where
  last : ι → UInt16
  mem : Mem

variable [DecidableEq ι]

/-- The operations on lists. -/
def call (o : Objects ι) (s : Lists ι) (op : Op ι) : Unit × Lists ι :=
  let (last, mem) :=
    match op with
    | .insertfirst i n => insertfirstOlist (s.last i) n (o.first i) o.shift s.mem
    | .insertlast i n => insertlastOlist (s.last i) n (o.first i) o.shift s.mem
    | .remove i n => removeOlist (s.last i) n (o.first i) o.shift s.mem
  ((), ⟨Function.update s.last op.list last, mem⟩)

/-- What an operation does to the sequence of its list. -/
def change (l : List UInt16) : Op ι → List UInt16
  | .insertfirst _ n => n :: l
  | .insertlast _ n => l ++ [n]
  | .remove _ n => l.erase n

/-- The operations on sequences of indices. -/
def perform (t : ι → List UInt16) (op : Op ι) : Unit × (ι → List UInt16) :=
  ((), Function.update t op.list (change (t op.list) op))

/-- The preconditions: a new index is not in the list, and an index that is removed is in it. -/
def Allowed (t : ι → List UInt16) : Op ι → Prop
  | .insertfirst i n | .insertlast i n => n ∉ t i
  | .remove i n => n ∈ t i

instance (t : ι → List UInt16) (op : Op ι) : Decidable (Allowed t op) :=
  match op with
  | .insertfirst i n | .insertlast i n => inferInstanceAs (Decidable (n ∉ t i))
  | .remove i n => inferInstanceAs (Decidable (n ∈ t i))

/-- The index 65535 does not become the last one of a list. -/
def Fits (t : ι → List UInt16) : Op ι → Prop
  | .insertfirst i n => n = 65535 → t i ≠ []
  | .insertlast _ n => n ≠ 65535
  | .remove i n => ¬[65535, n] <:+ t i

instance (t : ι → List UInt16) (op : Op ι) : Decidable (Fits t op) :=
  match op with
  | .insertfirst i n => inferInstanceAs (Decidable (n = 65535 → t i ≠ []))
  | .insertlast _ n => inferInstanceAs (Decidable (n ≠ 65535))
  | .remove i n => inferInstanceAs (Decidable ¬[65535, n] <:+ t i)

/-- The lists stand for the sequences. -/
structure Rep (o : Objects ι) (s : Lists ι) (t : ι → List UInt16) : Prop where
  circle : ∀ i, Circle (o.links i s.mem) (t i)
  last_eq : ∀ i, (s.last i).toNat = lastPlusOne (t i)

variable {s : Lists ι} {t : ι → List UInt16} {op : Op ι}

theorem call_spec (h : Rep o s t) (hok : Allowed t op) :
    ∃ last mem, (call o s op).2 = ⟨Function.update s.last op.list last, mem⟩ ∧
      Changes o op.list (t op.list) s.mem (change (t op.list) op) mem ∧
      last.toNat = lastPlusOne (change (t op.list) op) % 2 ^ 16 := by
  cases op with
  | insertfirst i n =>
    obtain ⟨last, mem, heq, hrest⟩ := insertfirstOlist_spec (h.circle i) (h.last_eq i) hok
    exact ⟨last, mem, by rw [call]; simp only [heq], hrest⟩
  | insertlast i n =>
    obtain ⟨last, mem, heq, hrest⟩ := insertlastOlist_spec (h.circle i) (h.last_eq i) hok
    exact ⟨last, mem, by rw [call]; simp only [heq], hrest⟩
  | remove i n =>
    obtain ⟨last, mem, heq, hrest⟩ := removeOlist_spec (h.circle i) (h.last_eq i) hok
    exact ⟨last, mem, by rw [call]; simp only [heq], hrest⟩

theorem lastPlusOne_le (l : List UInt16) : lastPlusOne l ≤ 2 ^ 16 := by
  rw [lastPlusOne]
  rcases l.getLast? with _ | b
  · exact Nat.zero_le _
  · exact b.toNat_lt

theorem lastPlusOne_lt_iff : lastPlusOne l < 2 ^ 16 ↔ l.getLast? ≠ some 65535 := by
  rw [lastPlusOne]
  rcases l.getLast? with _ | b
  · exact iff_of_true (Nat.two_pow_pos 16) (Option.some_ne_none _).symm
  · rw [Option.elim_some, Ne, Option.some_inj, ← UInt16.toNat_inj]
    have hb := b.toNat_lt
    change _ ↔ ¬b.toNat = 65535
    omega

omit [DecidableEq ι] in
/-- **The condition on the state before the step** says what the last index will be. -/
theorem fits_iff (hnd : (t op.list).Nodup) (hlast : lastPlusOne (t op.list) < 2 ^ 16)
    (hok : Allowed t op) : Fits t op ↔ lastPlusOne (change (t op.list) op) < 2 ^ 16 := by
  rw [lastPlusOne_lt_iff] at hlast ⊢
  cases op with
  | insertfirst i n =>
    change (n = 65535 → t i ≠ []) ↔ (n :: t i).getLast? ≠ some 65535
    rcases hl : (t i).getLast? with _ | b
    · obtain hnil := List.getLast?_eq_none_iff.mp hl
      rw [hnil, List.getLast?_singleton]
      exact ⟨fun h heq => h (Option.some.inj heq) rfl, fun h heq => absurd (congrArg some heq) h⟩
    · rw [List.getLast?_cons, hl, Option.getD_some]
      refine iff_of_true (fun _ hnil => ?_) (hl ▸ hlast)
      exact Option.some_ne_none b (hl.symm.trans (List.getLast?_eq_none_iff.mpr hnil))
  | insertlast i n =>
    change n ≠ 65535 ↔ (t i ++ [n]).getLast? ≠ some 65535
    rw [List.getLast?_concat, Ne, Ne, Option.some_inj]
  | remove i n =>
    change ¬[65535, n] <:+ t i ↔ ((t i).erase n).getLast? ≠ some 65535
    refine not_congr ?_
    obtain ⟨l₁, l₂, hl⟩ := List.append_of_mem (show n ∈ t i from hok)
    change (t i).getLast? ≠ some 65535 at hlast
    change (t i).Nodup at hnd
    rw [hl] at hlast hnd ⊢
    have hnot : n ∉ l₁ := fun hmem => (List.nodup_append'.mp hnd).2.2 hmem List.mem_cons_self
    rw [List.erase_append_right _ hnot, List.erase_cons_head]
    constructor
    · rintro ⟨l, heq⟩
      have hnot₂ : n ∉ l₂ := (List.nodup_cons.mp (List.nodup_append'.mp hnd).2.1).1
      have heq' : (l ++ [65535]) ++ n :: [] = l₁ ++ n :: l₂ := by
        rw [← heq, List.append_assoc]
        rfl
      obtain ⟨rfl, -, rfl⟩ := (List.append_cons_inj_of_notMem hnot hnot₂).mp heq'.symm
      rw [List.append_nil, List.getLast?_concat]
    · intro heq
      rcases l₂ with _ | ⟨c, l₂⟩
      · rw [List.append_nil] at heq
        obtain ⟨l, rfl⟩ := List.getLast?_eq_some_iff.mp heq
        exact ⟨l, by rw [List.append_assoc]; rfl⟩
      · rw [List.getLast?_append_of_ne_nil _ (List.cons_ne_nil c l₂)] at heq
        rw [List.getLast?_append_of_ne_nil _ (List.cons_ne_nil n _), List.getLast?_cons_cons] at hlast
        exact absurd heq hlast

/-- **A step** after which no list ends with the index 65535. -/
theorem Rep.step (h : Rep o s t) (hok : Allowed t op) (hfits : Fits t op) :
    Rep o (call o s op).2 (perform t op).2 := by
  obtain ⟨last, mem, hcall, ⟨hturns, hlinks⟩, hlast⟩ := call_spec h hok
  rw [hcall, perform]
  have hlt := (fits_iff (h.circle _).nodup (h.last_eq _ ▸ (s.last _).toNat_lt) hok).mp hfits
  refine ⟨fun i => ?_, fun i => ?_⟩
  · dsimp only
    rcases eq_or_ne i op.list with rfl | hne
    · rw [Function.update_self]
      exact hturns.circle
    · rw [Function.update_of_ne hne, hlinks i hne]
      exact h.circle i
  · dsimp only
    rcases eq_or_ne i op.list with rfl | hne
    · rw [Function.update_self, Function.update_self, hlast, Nat.mod_eq_of_lt hlt]
    · rw [Function.update_of_ne hne, Function.update_of_ne hne]
      exact h.last_eq i

/-- The list `i` consists of the indices of `l`. -/
structure Enumerates (o : Objects ι) (s : Lists ι) (i : ι) (l : List UInt16) : Prop where
  nodup : l.Nodup
  isempty_iff : isemptyOlist (s.last i) = true ↔ l = []
  last_eq : ∀ b ∈ l.getLast?, lastOlist (s.last i) = b
  /-- From the first index on up to the last one the indices are met in order, and from the last one
  back to the first one in the reverse order. -/
  follow_eq : l ≠ [] → ∀ n, l.length ≤ n →
    follow (o.links i s.mem).next (lastOlist (s.last i)) n
      (firstOlist (s.last i) (o.first i) o.shift s.mem) = some l ∧
    follow (o.links i s.mem).prev (firstOlist (s.last i) (o.first i) o.shift s.mem) n
      (lastOlist (s.last i)) = some l.reverse

omit [DecidableEq ι] in
theorem Rep.enumerates (h : Rep o s t) (i : ι) : Enumerates o s i (t i) := by
  have hc := h.circle i
  have hlast := h.last_eq i
  have hlastOlist : ∀ b ∈ (t i).getLast?, lastOlist (s.last i) = b := by
    intro b hb
    rw [lastPlusOne, show (t i).getLast? = some b from hb, Option.elim_some] at hlast
    have hle : (1 : UInt16) ≤ s.last i := by
      rw [UInt16.le_iff_toNat_le, hlast]
      exact Nat.le_add_left 1 b.toNat
    rw [lastOlist, ← UInt16.toNat_inj, UInt16.toNat_sub_of_le _ _ hle, hlast]
    exact Nat.add_sub_cancel b.toNat 1
  refine ⟨hc.nodup, ?_, hlastOlist, fun hne n hn => ?_⟩
  · rw [isemptyOlist, decide_eq_true_iff, ← UInt16.toNat_inj, hlast, lastPlusOne]
    rcases hb : (t i).getLast? with _ | b
    · exact iff_of_true rfl (List.getLast?_eq_none_iff.mp hb)
    · refine iff_of_false (Nat.succ_ne_zero _) fun hnil => ?_
      exact Option.some_ne_none b (hb.symm.trans (List.getLast?_eq_none_iff.mpr hnil))
  · obtain ⟨a, -, b, -, -, hb, hba⟩ := hc.exists_ends hne
    have hfirst : firstOlist (s.last i) (o.first i) o.shift s.mem = a := by
      rw [firstOlist, (last_spec hb hlast).2]
      exact Option.some.inj hba.1
    rw [hlastOlist b hb, hfirst]
    exact ⟨hc.follow_next hb hba.1 hn, hc.follow_prev hb hba.1 hn⟩

omit [DecidableEq ι] in
theorem rep_init (o : Objects ι) (mem : Mem) : Rep o ⟨fun _ => 0, mem⟩ fun _ => [] :=
  ⟨fun i => circle_nil (o.links i mem), fun _ => rfl⟩

/-- **Runs on the lists of an array**, in which no step makes 65535 the last index of a list.
Afterwards every list consists of its sequence of indices, in both directions. Any other step leads
to a list whose indices are not met. -/
theorem olist_refines (o : Objects ι) (mem : Mem) {ops : List (Op ι)}
    (hok : Along perform (fun t op => Allowed t op ∧ Fits t op) (fun _ => []) ops) :
    let t := (run perform (fun _ => []) ops).2
    let s := (run (call o) ⟨fun _ => 0, mem⟩ ops).2
    (∀ i, Enumerates o s i (t i)) ∧ ∀ op, Allowed t op →
      ((∀ i, Enumerates o (call o s op).2 i ((perform t op).2 i)) ↔ Fits t op) := by
  intro t s
  have hstep : ∀ t s op, Rep o s t → Allowed t op ∧ Fits t op →
      (perform t op).1 = (call o s op).1 ∧ Rep o (call o s op).2 (perform t op).2 :=
    fun t s op h hop => ⟨rfl, h.step hop.1 hop.2⟩
  have h : Rep o s t := (run_refines (R := fun t s => Rep o s t) hstep (rep_init o mem) hok).2
  refine ⟨h.enumerates, fun op hop => ⟨fun hall => ?_, fun hfits => (h.step hop hfits).enumerates⟩⟩
  obtain ⟨last, mem', hcall, -, hlast⟩ := call_spec h hop
  have hlist := hall op.list
  rw [hcall, perform] at hlist
  dsimp only at hlist
  rw [Function.update_self] at hlist
  refine (fits_iff (h.circle _).nodup (h.last_eq _ ▸ (s.last _).toNat_lt) hop).mpr ?_
  by_contra hge
  -- the field `last` would say that the list is empty
  have hmax : lastPlusOne (change (t op.list) op) = 2 ^ 16 :=
    (lastPlusOne_le _).antisymm (not_lt.mp hge)
  rw [hmax, Nat.mod_self] at hlast
  have hempty := hlist.isempty_iff.mp (by
    dsimp only
    rw [Function.update_self, isemptyOlist, decide_eq_true_iff, ← UInt16.toNat_inj, hlast]
    rfl)
  rw [hempty] at hmax
  exact absurd hmax (by decide)

/-- An array of bare nodes, with one list. -/
def nodes : Objects Unit where
  addr := 0
  shift := 2
  offset _ := 0
  fits _ := le_rfl
  apart _ _ h := absurd rfl h

/-- The index 0 is removed from behind 7, and 65535 stands before 7. -/
theorem olist_refines_nodes :
    let s := (run (call nodes) ⟨fun _ => 0, fun _ => 0⟩
      [.insertlast () 7, .insertfirst () 65535, .insertlast () 0, .remove () 0]).2
    Enumerates nodes s () [65535, 7] ∧
      ¬∀ i, Enumerates nodes (call nodes s (.remove () 7)).2 i [65535] := by
  have hok : Along perform (fun t op => Allowed t op ∧ Fits t op) (fun _ => [])
      [.insertlast () 7, .insertfirst () 65535, .insertlast () 0, .remove () 0] := by
    decide
  obtain ⟨hlists, hnext⟩ := olist_refines nodes (fun _ => 0) hok
  exact ⟨hlists (), fun hall => ((hnext (.remove () 7) (by decide)).mp hall) (by decide)⟩

/-- **The index 65535 is appended to the empty list**, which is still empty then. -/
theorem insertlast_65535 :
    let ops : List (Op Unit) := [.insertlast () 65535]
    Along perform Allowed (fun _ => []) ops ∧
      ¬Enumerates nodes (run (call nodes) ⟨fun _ => 0, fun _ => 0⟩ ops).2 ()
        ((run perform (fun _ => []) ops).2 ()) := by
  refine ⟨⟨List.not_mem_nil, trivial⟩, fun h => ?_⟩
  exact absurd (h.isempty_iff.mp rfl) (List.cons_ne_nil _ _)

end Olist
end CKern
