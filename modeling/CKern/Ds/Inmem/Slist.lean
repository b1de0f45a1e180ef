import CKern.Library.CircularList
import CKern.Library.DoublyLinked

/-!
# `ds/inmem/slist.c` and `slist.h`: singly linked lists

* `initsplitSlist` … `removeafterSlist`, `removefirstSlist`, `insertfirstPlistSlist`,
  `insertlastPlistSlist`: the functions, on the pointers of all nodes and the field `last` of a list.
* `nextSlistiterator`: the iterator.
* `Relinks`: a ring is turned into another one, and the other nodes are left alone.
* the `_spec` theorems: what every function does to the row of nodes.
-/

namespace CKern
namespace Slist

open CircularList DoublyLinked

variable {ν : Type*} [DecidableEq ν]

/-! ## The functions -/

/-- `first_slist`. -/
def firstSlist (next : ν → Option ν) (last : Option ν) : Option ν := do
  let last ← last
  next last

/-- `initsingle_slist`. -/
def initsingleSlist (next : ν → Option ν) (node : ν) : (ν → Option ν) × Option ν :=
  (Function.update next node (some node), some node)

/-- `initsplit_slist`: the pointers, and the fields `last` of `list` and of `list2`. -/
def initsplitSlist (next : ν → Option ν) (last2 : Option ν) (after : ν) :
    Option ((ν → Option ν) × Option ν × Option ν) :=
  if last2 ≠ some after then do
    let last ← last2
    let first := next after
    let first2 := next last
    some (Function.update (Function.update next last first) after first2, some last, some after)
  else some (next, none, last2)

/-- `insertfirst_slist`. -/
def insertfirstSlist (next : ν → Option ν) (last : Option ν) (newNode : ν) :
    (ν → Option ν) × Option ν :=
  match last with
  | none => (Function.update next newNode (some newNode), some newNode)
  | some last =>
    let next := Function.update next newNode (next last)
    (Function.update next last (some newNode), some last)

/-- `insertlast_slist`. -/
def insertlastSlist (next : ν → Option ν) (last : Option ν) (newNode : ν) :
    (ν → Option ν) × Option ν :=
  match last with
  | none => (Function.update next newNode (some newNode), some newNode)
  | some last =>
    let next := Function.update next newNode (next last)
    (Function.update next last (some newNode), some newNode)

/-- `insertafter_slist`. -/
def insertafterSlist (next : ν → Option ν) (last : Option ν) (prevNode newNode : ν) :
    (ν → Option ν) × Option ν :=
  let next := Function.update next newNode (next prevNode)
  let next := Function.update next prevNode (some newNode)
  (next, if last = some prevNode then some newNode else last)

/-- `removefirst_slist`. -/
def removefirstSlist (next : ν → Option ν) (last : Option ν) :
    Option (ν × (ν → Option ν) × Option ν) := do
  let last ← last
  let first ← next last
  if first = last then some (first, Function.update next first none, none)
  else some (first, Function.update (Function.update next last (next first)) first none, some last)

/-- `removeafter_slist`: the removed node, or none if `EINVAL` is returned. -/
def removeafterSlist (next : ν → Option ν) (last : Option ν) (prevNode : ν) :
    Option ν × (ν → Option ν) × Option ν :=
  match next prevNode, last with
  | some node, some z =>
    let next := Function.update next prevNode (next node)
    let next := Function.update next node none
    (some node, next, if z = node then if z = prevNode then none else some prevNode else some z)
  | _, _ => (none, next, last)

/-- `insertfirstPlist_slist`: the pointers, and the fields `last` of both lists. -/
def insertfirstPlistSlist (next : ν → Option ν) (last last2 : Option ν) :
    (ν → Option ν) × Option ν × Option ν :=
  match last2 with
  | none => (next, last, last2)
  | some z2 =>
    match last with
    | none => (next, last2, none)
    | some z =>
      let first := next z
      let first2 := next z2
      (Function.update (Function.update next z first2) z2 first, last, none)

/-- `insertlastPlist_slist`: the pointers, and the fields `last` of both lists. -/
def insertlastPlistSlist (next : ν → Option ν) (last last2 : Option ν) :
    (ν → Option ν) × Option ν × Option ν :=
  match last2 with
  | none => (next, last, last2)
  | some z2 =>
    match last with
    | none => (next, last2, none)
    | some z =>
      let first := next z
      let first2 := next z2
      (Function.update (Function.update next z first2) z2 first, last2, none)

/-- `next_slistiterator`: the returned node, if there is one, and the field `next` of the
iterator. -/
def nextSlistiterator (next : ν → Option ν) (last : Option ν) (iter : Option ν) :
    Option ν × Option ν :=
  match iter with
  | none => (none, none)
  | some node => (some node, if last = some node then none else next node)

/-- What `n` calls of the iterator return. -/
def iterated (next : ν → Option ν) (last : Option ν) : ℕ → Option ν → List (Option ν)
  | 0, _ => []
  | n + 1, iter =>
    let (node, iter) := nextSlistiterator next last iter
    node :: iterated next last n iter

/-! ## Rows of nodes -/

/-- The row up to `y`, and what is behind it. -/
def parts (y : ν) : List ν → List ν × List ν
  | [] => ([], [])
  | a :: l => if a = y then ([a], l) else (a :: (parts y l).1, (parts y l).2)

variable {next next' : ν → Option ν} {x y : ν} {l l' l₁ l₂ m : List ν}

theorem parts_append (h : y ∉ l₁) : parts y (l₁ ++ y :: l₂) = (l₁ ++ [y], l₂) := by
  induction l₁ with
  | nil => exact if_pos rfl
  | cons a l₁ ih =>
    rw [List.cons_append, parts, if_neg (List.ne_of_not_mem_cons h).symm,
      ih (List.not_mem_of_not_mem_cons h)]
    rfl

theorem exists_parts (hnd : l.Nodup) (hy : y ∈ l) :
    ∃ l₁ l₂, l = l₁ ++ [y] ++ l₂ ∧ parts y l = (l₁ ++ [y], l₂) := by
  obtain ⟨l₁, l₂, rfl⟩ := List.append_of_mem hy
  have hnot : y ∉ l₁ := fun hmem =>
    (List.nodup_append'.mp hnd).2.2 hmem List.mem_cons_self
  exact ⟨l₁, l₂, by rw [List.append_assoc]; rfl, parts_append hnot⟩

/-- The ring of the nodes of `l` is turned into that of the nodes of `l'`, and the other nodes are
left as they are. -/
structure Relinks (next : ν → Option ν) (l : List ν) (next' : ν → Option ν) (l' : List ν) : Prop where
  ring : Ring next' l'.getLast? l'
  next_eq : ∀ y, y ∉ l → y ∉ l' → next' y = next y

/-! ## A new node -/

theorem insert_eq_swap (h : x ≠ y) :
    Function.update (Function.update next x (next y)) y (some x) =
      swap (Function.update next x (some x)) x y := by
  rw [swap, Function.update_self, Function.update_of_ne h.symm, Function.update_idem]

theorem relinks_insert (hring : Ring (swap (Function.update next x (some x)) x y) l'.getLast? l')
    (hy : y ∈ l) (hx : x ∉ l) (hx' : x ∈ l') :
    Relinks next l (Function.update (Function.update next x (next y)) y (some x)) l' := by
  refine ⟨?_, fun z hz hz' => ?_⟩
  · rw [insert_eq_swap (ne_of_mem_of_not_mem hy hx).symm]
    exact hring
  · rw [Function.update_of_ne (ne_of_mem_of_not_mem hy hz).symm,
      Function.update_of_ne (ne_of_mem_of_not_mem hx' hz').symm]

theorem relinks_singleton (x : ν) (next : ν → Option ν) :
    Relinks next [] (Function.update next x (some x)) [x] :=
  ⟨ring_singleton x next, fun _ _ hy => Function.update_of_ne (List.ne_of_not_mem_cons hy) _ _⟩

theorem ring_beside (h : Ring next l.getLast? l) (hx : x ∉ l) :
    Ring (Function.update next x (some x)) l.getLast? l :=
  h.congr fun _ hy => Function.update_of_ne (ne_of_mem_of_not_mem hy hx) _ _

theorem insertfirstSlist_spec (h : Ring next l.getLast? l) (hx : x ∉ l) :
    ∃ next', insertfirstSlist next l.getLast? x = (next', (x :: l).getLast?) ∧
      Relinks next l next' (x :: l) := by
  rcases hl : l.getLast? with _ | z
  · obtain rfl := List.getLast?_eq_none_iff.mp hl
    exact ⟨_, rfl, relinks_singleton x next⟩
  · have hlast : (x :: l).getLast? = some z := by
      rw [List.getLast?_cons, hl]
      rfl
    have hring := ring_beside h hx
    rw [hl] at hring
    have hjoin := (ring_singleton x next).join hring (List.singleton_disjoint.mpr hx)
    rw [List.singleton_append, ← hlast] at hjoin
    refine ⟨_, by rw [hlast]; rfl, relinks_insert hjoin (List.mem_of_getLast? hl) hx
      List.mem_cons_self⟩

theorem insertlastSlist_spec (h : Ring next l.getLast? l) (hx : x ∉ l) :
    ∃ next', insertlastSlist next l.getLast? x = (next', (l ++ [x]).getLast?) ∧
      Relinks next l next' (l ++ [x]) := by
  rcases hl : l.getLast? with _ | z
  · obtain rfl := List.getLast?_eq_none_iff.mp hl
    exact ⟨_, rfl, relinks_singleton x next⟩
  · have hring := ring_beside h hx
    rw [hl] at hring
    have hjoin := hring.join (ring_singleton x next) (List.disjoint_singleton.mpr hx)
    rw [swap_comm] at hjoin
    have hlast : (l ++ [x]).getLast? = some x := List.getLast?_concat
    exact ⟨_, by rw [hlast]; rfl, relinks_insert (hlast ▸ hjoin) (List.mem_of_getLast? hl) hx
      List.mem_concat_self⟩

omit [DecidableEq ν] in
theorem getLast?_eq_some_iff (hnd : (l₁ ++ [y] ++ l₂).Nodup) :
    (l₁ ++ [y] ++ l₂).getLast? = some y ↔ l₂ = [] := by
  constructor
  · intro h
    by_contra hne
    rw [List.getLast?_append_of_ne_nil _ hne] at h
    exact (List.nodup_append'.mp hnd).2.2 List.mem_concat_self (List.mem_of_getLast? h)
  · rintro rfl
    rw [List.append_nil, List.getLast?_concat]

theorem insertafterSlist_spec (h : Ring next (l₁ ++ [y] ++ l₂).getLast? (l₁ ++ [y] ++ l₂))
    (hx : x ∉ l₁ ++ [y] ++ l₂) :
    ∃ next', insertafterSlist next (l₁ ++ [y] ++ l₂).getLast? y x =
        (next', (l₁ ++ [y] ++ x :: l₂).getLast?) ∧
      Relinks next (l₁ ++ [y] ++ l₂) next' (l₁ ++ [y] ++ x :: l₂) := by
  have hne : l₁ ++ [y] ≠ [] := List.append_ne_nil_of_right_ne_nil _ (List.cons_ne_nil y [])
  have hmem : y ∈ l₁ ++ [y] ++ l₂ := List.mem_append_left l₂ List.mem_concat_self
  refine ⟨Function.update (Function.update next x (next y)) y (some x), Prod.ext rfl ?_,
    relinks_insert ?_ hmem hx (List.mem_append_right _ List.mem_cons_self)⟩
  · change (if (l₁ ++ [y] ++ l₂).getLast? = some y then some x else _) = _
    rw [List.getLast?_append_of_ne_nil _ (List.cons_ne_nil x l₂)]
    rcases l₂ with _ | ⟨b, l₂⟩
    · rw [if_pos ((getLast?_eq_some_iff h.nodup).mpr rfl)]
      rfl
    · rw [if_neg ((getLast?_eq_some_iff h.nodup).not.mpr (List.cons_ne_nil b l₂)),
        List.getLast?_append_of_ne_nil _ (List.cons_ne_nil b l₂), List.getLast?_cons_cons]
  · -- the ring is read from the node behind `y`
    have hrot := (ring_beside h hx).rotate
    rw [List.getLast?_append_of_ne_nil _ hne, List.getLast?_concat] at hrot
    have hd : (l₂ ++ (l₁ ++ [y])).Disjoint [x] := by
      rw [List.disjoint_singleton]
      exact fun hmem => hx (List.mem_append.mpr (List.mem_append.mp hmem).symm)
    have hjoin := hrot.join (ring_singleton x next) hd
    rw [swap_comm, List.append_assoc] at hjoin
    have hback := hjoin.rotate
    rwa [List.append_assoc (l₁ ++ [y]), List.singleton_append] at hback

/-! ## Nodes that are removed -/

theorem relinks_remove {z : ν} (h : Ring next (some z) (x :: l)) :
    next z = some x ∧ (if x = z then none else some z) = l.getLast? ∧
      Relinks next (x :: l) (Function.update (Function.update next z (next x)) x none) l := by
  obtain ⟨a, l', hq, hz, hfirst⟩ := h.first
  obtain ⟨rfl, rfl⟩ := List.cons.inj hq
  have hmem : z ∈ x :: l := hz ▸ List.getLast_mem (List.cons_ne_nil x l)
  have hring := h.remove
  refine ⟨hfirst, hring.last_eq, hring.last_eq ▸ hring, fun y hy _ => ?_⟩
  rw [Function.update_of_ne (List.ne_of_not_mem_cons hy),
    Function.update_of_ne (ne_of_mem_of_not_mem hmem hy).symm]

theorem removefirstSlist_spec (h : Ring next (x :: l).getLast? (x :: l)) :
    ∃ next', removefirstSlist next (x :: l).getLast? = some (x, next', l.getLast?) ∧
      Relinks next (x :: l) next' l ∧ next' x = none := by
  obtain ⟨z, hz⟩ : ∃ z, (x :: l).getLast? = some z :=
    ⟨_, List.getLast?_eq_some_getLast (List.cons_ne_nil x l)⟩
  rw [hz] at h ⊢
  obtain ⟨hfirst, hlast, hrelinks⟩ := relinks_remove h
  simp only [removefirstSlist, Option.bind_eq_bind, Option.bind_some, hfirst]
  by_cases hxz : x = z
  · subst hxz
    rw [if_pos rfl, ← hlast, if_pos rfl]
    rw [Function.update_idem] at hrelinks
    exact ⟨_, rfl, hrelinks, Function.update_self _ _ _⟩
  · rw [if_neg hxz, ← hlast, if_neg hxz]
    exact ⟨_, rfl, hrelinks, Function.update_self _ _ _⟩

theorem removeafterSlist_some {z : ν} (h : next y = some x) : removeafterSlist next (some z) y =
    (some x, Function.update (Function.update next y (next x)) x none,
      if z = x then if z = y then none else some y else some z) := by
  simp only [removeafterSlist, h]

theorem removeafterSlist_spec (h : Ring next (l₁ ++ [y] ++ x :: l₂).getLast? (l₁ ++ [y] ++ x :: l₂)) :
    ∃ next', removeafterSlist next (l₁ ++ [y] ++ x :: l₂).getLast? y =
        (some x, next', (l₁ ++ [y] ++ l₂).getLast?) ∧
      Relinks next (l₁ ++ [y] ++ x :: l₂) next' (l₁ ++ [y] ++ l₂) ∧ next' x = none := by
  have hne : l₁ ++ [y] ≠ [] := List.append_ne_nil_of_right_ne_nil _ (List.cons_ne_nil y [])
  have hrot := h.rotate
  rw [List.getLast?_append_of_ne_nil _ hne, List.getLast?_concat, List.cons_append] at hrot
  obtain ⟨hfirst, -, hrelinks⟩ := relinks_remove hrot
  have hyx : y ≠ x := by
    rintro rfl
    exact (List.nodup_append'.mp h.nodup).2.2 List.mem_concat_self List.mem_cons_self
  obtain ⟨z, hz⟩ : ∃ z, (x :: l₂).getLast? = some z :=
    ⟨_, List.getLast?_eq_some_getLast (List.cons_ne_nil x l₂)⟩
  refine ⟨_, ?_, ⟨hrelinks.ring.rotate, fun a ha ha' => hrelinks.next_eq a (fun hmem => ha ?_)
    fun hmem => ha' (List.mem_append.mpr (List.mem_append.mp hmem).symm)⟩,
    Function.update_self _ _ _⟩
  · rw [List.getLast?_append_of_ne_nil _ (List.cons_ne_nil x l₂), hz,
      removeafterSlist_some hfirst]
    refine Prod.ext rfl (Prod.ext rfl ?_)
    dsimp only
    rcases l₂ with _ | ⟨b, l₂⟩
    · obtain rfl : x = z := Option.some.inj hz
      rw [if_pos rfl, if_neg hyx.symm, List.append_nil, List.getLast?_concat]
    · rw [List.getLast?_cons_cons] at hz
      have hzx : z ≠ x := by
        rintro rfl
        have hnd := (List.nodup_append'.mp h.nodup).2.1
        exact (List.nodup_cons.mp hnd).1 (List.mem_of_getLast? hz)
      rw [if_neg hzx, List.getLast?_append_of_ne_nil _ (List.cons_ne_nil b l₂), hz]
  · rw [← List.cons_append] at hmem
    exact List.mem_append.mpr (List.mem_append.mp hmem).symm

theorem removeafterSlist_last (h : Ring next (some y) (x :: l)) :
    ∃ next', removeafterSlist next (some y) y = (some x, next', l.getLast?) ∧
      Relinks next (x :: l) next' l ∧ next' x = none := by
  obtain ⟨hfirst, hlast, hrelinks⟩ := relinks_remove h
  refine ⟨_, ?_, hrelinks, Function.update_self _ _ _⟩
  rw [removeafterSlist_some hfirst, ← hlast]
  refine Prod.ext rfl (Prod.ext rfl ?_)
  dsimp only
  by_cases hxy : x = y
  · rw [if_pos hxy.symm, if_pos rfl, if_pos hxy]
  · rw [if_neg (Ne.symm hxy), if_neg hxy]

/-! ## Lists that are divided and joined -/

theorem initsplitSlist_spec (h : Ring next (l₁ ++ [y] ++ l₂).getLast? (l₁ ++ [y] ++ l₂)) :
    ∃ next', initsplitSlist next (l₁ ++ [y] ++ l₂).getLast? y =
        some (next', l₂.getLast?, (l₁ ++ [y]).getLast?) ∧ Ring next' l₂.getLast? l₂ ∧
      Ring next' (l₁ ++ [y]).getLast? (l₁ ++ [y]) ∧
      ∀ a, a ∉ l₁ ++ [y] ++ l₂ → next' a = next a := by
  have hlast := getLast?_eq_some_iff h.nodup
  rcases hl₂ : l₂.getLast? with _ | z
  · obtain rfl := List.getLast?_eq_none_iff.mp hl₂
    rw [List.append_nil] at h hlast ⊢
    refine ⟨next, ?_, ring_nil next, h, fun _ _ => rfl⟩
    rw [initsplitSlist, if_neg (not_not.mpr (hlast.mpr rfl))]
  · have hne : l₂ ≠ [] := by
      rintro rfl
      exact Option.some_ne_none z hl₂.symm
    have hy : (l₁ ++ [y]).getLast? = some y := List.getLast?_concat
    obtain ⟨hfront, hback⟩ := h.split hy hl₂
    rw [swap_comm] at hfront hback
    refine ⟨swap next z y, ?_, hback, hy ▸ hfront, fun a ha => swap_of_ne ?_ ?_⟩
    · rw [initsplitSlist, if_pos (hlast.not.mpr hne), List.getLast?_append_of_ne_nil _ hne, hl₂, hy]
      rfl
    · rintro rfl
      exact ha (List.mem_append_right _ (List.mem_of_getLast? hl₂))
    · rintro rfl
      exact ha (List.mem_append_left _ List.mem_concat_self)

theorem join_spec {z z' : ν} (h : Ring next l.getLast? l) (h' : Ring next m.getLast? m)
    (hd : l.Disjoint m) (hz : l.getLast? = some z) (hz' : m.getLast? = some z') :
    Ring (swap next z z') (l ++ m).getLast? (l ++ m) ∧
      ∀ a, a ∉ l → a ∉ m → swap next z z' a = next a := by
  rw [hz] at h
  rw [hz'] at h'
  have hjoin := h.join h' hd
  refine ⟨hjoin.last_eq ▸ hjoin, fun a ha ha' => swap_of_ne ?_ ?_⟩
  · exact (ne_of_mem_of_not_mem (List.mem_of_getLast? hz) ha).symm
  · exact (ne_of_mem_of_not_mem (List.mem_of_getLast? hz') ha').symm

theorem insertfirstPlistSlist_spec (h : Ring next l.getLast? l) (h' : Ring next m.getLast? m)
    (hd : l.Disjoint m) :
    ∃ next', insertfirstPlistSlist next l.getLast? m.getLast? = (next', (m ++ l).getLast?, none) ∧
      Ring next' (m ++ l).getLast? (m ++ l) ∧ ∀ a, a ∉ l → a ∉ m → next' a = next a := by
  rcases hm : m.getLast? with _ | z'
  · obtain rfl := List.getLast?_eq_none_iff.mp hm
    exact ⟨next, rfl, h, fun _ _ _ => rfl⟩
  rcases hl : l.getLast? with _ | z
  · obtain rfl := List.getLast?_eq_none_iff.mp hl
    rw [List.append_nil, ← hm]
    refine ⟨next, ?_, h', fun _ _ _ => rfl⟩
    rw [hm]
    rfl
  · obtain ⟨hjoin, hout⟩ := join_spec h' h (List.disjoint_comm.mp hd) hm hl
    rw [swap_comm] at hjoin hout
    have hne : l ≠ [] := by
      rintro rfl
      exact Option.some_ne_none z hl.symm
    refine ⟨_, ?_, hjoin, fun a ha ha' => hout a ha' ha⟩
    rw [List.getLast?_append_of_ne_nil _ hne, hl]
    rfl

theorem insertlastPlistSlist_spec (h : Ring next l.getLast? l) (h' : Ring next m.getLast? m)
    (hd : l.Disjoint m) :
    ∃ next', insertlastPlistSlist next l.getLast? m.getLast? = (next', (l ++ m).getLast?, none) ∧
      Ring next' (l ++ m).getLast? (l ++ m) ∧ ∀ a, a ∉ l → a ∉ m → next' a = next a := by
  rcases hm : m.getLast? with _ | z'
  · obtain rfl := List.getLast?_eq_none_iff.mp hm
    rw [List.append_nil]
    exact ⟨next, rfl, h, fun _ _ _ => rfl⟩
  rcases hl : l.getLast? with _ | z
  · obtain rfl := List.getLast?_eq_none_iff.mp hl
    refine ⟨next, ?_, h', fun _ _ _ => rfl⟩
    rw [List.nil_append, hm]
    rfl
  · obtain ⟨hjoin, hout⟩ := join_spec h h' hd hl hm
    have hne : m ≠ [] := by
      rintro rfl
      exact Option.some_ne_none z' hm.symm
    refine ⟨_, ?_, hjoin, hout⟩
    rw [List.getLast?_append_of_ne_nil _ hne, hm]
    rfl

/-! ## The iterator -/

theorem iterated_none (next : ν → Option ν) (last : Option ν) (n : ℕ) :
    iterated next last n none = (List.range n).map fun _ => none := by
  induction n with
  | zero => rfl
  | succ n ih =>
    rw [List.range_succ_eq_map, List.map_cons, List.map_map]
    exact congrArg (List.cons none) ih

theorem iterated_path {a z : ν} {n : ℕ} (hnd : (a :: l).Nodup) (h : Path next a l z) :
    iterated next (a :: l).getLast? n (some a) = (List.range n).map fun k => (a :: l)[k]? := by
  induction l generalizing a n with
  | nil =>
    cases n with
    | zero => rfl
    | succ n =>
      rw [List.range_succ_eq_map, List.map_cons, List.map_map, iterated, nextSlistiterator]
      dsimp only
      rw [List.getLast?_singleton, if_pos rfl, iterated_none]
      rfl
  | cons b l ih =>
    cases n with
    | zero => rfl
    | succ n =>
      have hne : (a :: b :: l).getLast? ≠ some a := by
        rw [List.getLast?_cons_cons]
        exact fun hlast => (List.nodup_cons.mp hnd).1 (List.mem_of_getLast? hlast)
      rw [List.range_succ_eq_map, List.map_cons, List.map_map, iterated, nextSlistiterator]
      dsimp only
      rw [if_neg hne, h.1, List.getLast?_cons_cons, ih hnd.of_cons h.2]
      rfl

/-- **The iterator returns every node once**, in order. -/
theorem Ring.iterated_eq (h : Ring next l.getLast? l) (n : ℕ) :
    iterated next l.getLast? n (firstSlist next l.getLast?) =
      (List.range n).map fun k => l[k]? := by
  rcases l with _ | ⟨a, l⟩
  · rw [List.getLast?_nil]
    exact iterated_none next none n
  · have hpath := h.path a l rfl
    rw [List.getLast?_eq_some_getLast (List.cons_ne_nil a l), firstSlist, Option.bind_eq_bind,
      Option.bind_some, hpath.next_getLast, ← List.getLast?_eq_some_getLast]
    exact iterated_path h.nodup hpath

end Slist
end CKern
