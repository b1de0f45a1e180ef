import CKern.Library.DoublyLinked

/-!
# `ds/inmem/dlist.c`: a circular list of doubly linked nodes, known by its last node

* `insertfirstDlist` … `insertlastPlistDlist`, `freeDlist`: the operations, which take the pointers
  of all nodes and the field `last` of the list. The value `none` is the use of a null pointer.
* `substitute`: one node of a sequence gives way to a row of nodes. Insertion before and after a
  node, removal and replacement are all of this kind.
* `insertfirstDlist_spec` … `freeDlist_spec`: what the operations do with a circle.
-/

namespace CKern
namespace Dlist

open DoublyLinked

variable {ν : Type*} [DecidableEq ν]

/-! ## Insertion -/

/-- `insertfirst_dlist`. -/
def insertfirstDlist (links : Links ν) (last : Option ν) (newNode : ν) :
    Option (Links ν × Option ν) :=
  match last with
  | some l => do
    let links := setPrev newNode (some l) links
    let links := setNext newNode (links.next l) links
    let links := setNext l (some newNode) links
    let next ← links.next newNode
    return (setPrev next (some newNode) links, some l)
  | none =>
    let links := setPrev newNode (some newNode) links
    some (setNext newNode (some newNode) links, some newNode)

/-- `insertlast_dlist`. -/
def insertlastDlist (links : Links ν) (last : Option ν) (newNode : ν) :
    Option (Links ν × Option ν) := do
  let links ←
    match last with
    | some l =>
      let links := setPrev newNode (some l) links
      let links := setNext newNode (links.next l) links
      let links := setNext l (some newNode) links
      (links.next newNode).map fun next => setPrev next (some newNode) links
    | none =>
      let links := setPrev newNode (some newNode) links
      some (setNext newNode (some newNode) links)
  return (links, some newNode)

/-- `insertafter_dlist`. -/
def insertafterDlist (links : Links ν) (last : Option ν) (prevNode newNode : ν) :
    Option (Links ν × Option ν) := do
  let links := setPrev newNode (some prevNode) links
  let links := setNext newNode (links.next prevNode) links
  let links := setNext prevNode (some newNode) links
  let next ← links.next newNode
  let links := setPrev next (some newNode) links
  return (links, if last = some prevNode then some newNode else last)

/-- `insertbefore_dlist`. The list is no argument of it. -/
def insertbeforeDlist (links : Links ν) (nextNode newNode : ν) : Option (Links ν) := do
  let links := setPrev newNode (links.prev nextNode) links
  let prev ← links.prev newNode
  let links := setNext prev (some newNode) links
  let links := setNext newNode (some nextNode) links
  return setPrev nextNode (some newNode) links

/-! ## Removal and replacement -/

/-- `removehelper_dlist`. -/
def removehelperDlist (links : Links ν) (last : Option ν) (node : ν) :
    Option (Links ν × Option ν) := do
  let (links, last) ←
    if some node = last then
      some (links, none)
    else do
      let prev ← links.prev node
      let links := setNext prev (links.next node) links
      let next ← links.next node
      some (setPrev next (links.prev node) links, last)
  return (setPrev node none (setNext node none links), last)

/-- `removefirst_dlist`, with the removed node. -/
def removefirstDlist (links : Links ν) (last : Option ν) : Option (ν × Links ν × Option ν) := do
  let l ← last
  let first ← links.next l
  let (links, last) ← removehelperDlist links last first
  return (first, links, last)

/-- `removelast_dlist`, with the removed node. -/
def removelastDlist (links : Links ν) (last : Option ν) : Option (ν × Links ν × Option ν) := do
  let l ← last
  let (links, last) ← removehelperDlist links (links.prev l) l
  return (l, links, last)

/-- `remove_dlist`. -/
def removeDlist (links : Links ν) (last : Option ν) (node : ν) : Option (Links ν × Option ν) :=
  removehelperDlist links (if some node = last then links.prev node else last) node

/-- `replacenode_dlist`. -/
def replacenodeDlist (links : Links ν) (last : Option ν) (oldnode newnode : ν) :
    Option (Links ν × Option ν) := do
  let last := if last = some oldnode then some newnode else last
  let links ←
    if links.next oldnode = some oldnode then
      some (setPrev newnode (some newnode) (setNext newnode (some newnode) links))
    else do
      let links := setNext newnode (links.next oldnode) links
      let next ← links.next oldnode
      let links := setPrev next (some newnode) links
      let links := setPrev newnode (links.prev oldnode) links
      let prev ← links.prev oldnode
      some (setNext prev (some newnode) links)
  return (setPrev oldnode none (setNext oldnode none links), last)

/-! ## Whole lists -/

/-- `insertlastPlist_dlist`, with the fields `last` of both lists. -/
def insertlastPlistDlist (links : Links ν) (last nodes : Option ν) :
    Option (Links ν × Option ν × Option ν) :=
  match last, nodes with
  | none, _ => some (links, nodes, none)
  | some l, none => some (links, some l, none)
  | some l, some n => do
    let first := links.next l
    let links := setNext l (links.next n) links
    let next ← links.next n
    let links := setPrev next (some l) links
    let links := setNext n first links
    let first ← first
    return (setPrev first (some n) links, some n, none)

/-- The loop of `free_dlist`, of at most `n` rounds. The error of the last object that could not be
deleted is kept. -/
def freeLoop (delete : Option (ν → ℕ)) (last : ν) : ℕ → ν → ℕ → Links ν → Option (ℕ × Links ν)
  | 0, _, _, _ => none
  | n + 1, node, err, links => do
    let next ← links.next node
    let links := setNext node none (setPrev node none links)
    let err2 := delete.elim 0 fun d => d node
    let err := if err2 ≠ 0 then err2 else err
    if next ≠ last then freeLoop delete last n next err links else return (err, links)

/-- `free_dlist`, with the returned error code. If the adapter deletes objects, `delete` is what its
function returns for the object of a node. -/
def freeDlist (delete : Option (ν → ℕ)) (n : ℕ) (links : Links ν) (last : Option ν) :
    Option (ℕ × Links ν × Option ν) :=
  match last with
  | some l => do
    let (err, links) ← freeLoop delete l n l 0 links
    return (err, links, none)
  | none => some (0, links, none)

/-! ## Sequences of nodes -/

/-- The node `y` gives way to a row of nodes. -/
def substitute (y : ν) (w l : List ν) : List ν :=
  l.flatMap fun a => if a = y then w else [a]

variable {y : ν} {l l₁ l₂ : List ν}

theorem substitute_of_not_mem (w : List ν) (h : y ∉ l) : substitute y w l = l := by
  induction l with
  | nil => rfl
  | cons a l ih =>
    obtain ⟨hya, hyl⟩ := List.ne_and_not_mem_of_not_mem_cons h
    have hrest := ih hyl
    rw [substitute] at hrest
    rw [substitute, List.flatMap_cons, if_neg (Ne.symm hya), hrest, List.singleton_append]

theorem substitute_append (w : List ν) (h : (l₁ ++ y :: l₂).Nodup) :
    substitute y w (l₁ ++ y :: l₂) = l₁ ++ (w ++ l₂) := by
  obtain ⟨-, hl₂, hd⟩ := List.nodup_append'.mp h
  have h₁ := substitute_of_not_mem w fun hmem => hd hmem List.mem_cons_self
  have h₂ := substitute_of_not_mem w (List.nodup_cons.mp hl₂).1
  rw [substitute] at h₁ h₂
  rw [substitute, List.flatMap_append, List.flatMap_cons, if_pos rfl, h₁, h₂]

theorem mem_substitute {w : List ν} {x : ν} (h : x ∈ substitute y w l) : x ∈ l ∨ x ∈ w := by
  obtain ⟨a, ha, hx⟩ := List.mem_flatMap.mp h
  split at hx
  · exact Or.inr hx
  · exact Or.inl (List.mem_singleton.mp hx ▸ ha)

/-! ## What the operations do with a circle -/

variable {links : Links ν} {x : ν}

theorem insertfirstDlist_spec (h : Circle links l) (hx : x ∉ l) :
    ∃ links', insertfirstDlist links l.getLast? x = some (links', (x :: l).getLast?) ∧
      Turns links l links' (x :: l) := by
  rcases l with _ | ⟨c, l⟩
  · exact ⟨_, rfl, turns_singleton x links⟩
  obtain ⟨a, -, b, hbl, ha, hb, hba⟩ := h.exists_ends (List.cons_ne_nil c l)
  refine ⟨insertLinks b a x links, ?_, (turns_insertLinks h hb ha hx).rotate_right⟩
  have hxb : x ≠ b := fun he => hx (he ▸ hbl)
  rw [List.getLast?_cons_cons, hb, insertfirstDlist]
  simp [setNext, setPrev, insertLinks, hba.1, hxb]

theorem insertlastDlist_spec (h : Circle links l) (hx : x ∉ l) :
    ∃ links', insertlastDlist links l.getLast? x = some (links', (l ++ [x]).getLast?) ∧
      Turns links l links' (l ++ [x]) := by
  rcases l with _ | ⟨c, l⟩
  · exact ⟨_, rfl, turns_singleton x links⟩
  obtain ⟨a, -, b, hbl, ha, hb, hba⟩ := h.exists_ends (List.cons_ne_nil c l)
  refine ⟨insertLinks b a x links, ?_, turns_insertLinks h hb ha hx⟩
  have hxb : x ≠ b := fun he => hx (he ▸ hbl)
  rw [List.getLast?_concat, hb, insertlastDlist]
  simp [setNext, setPrev, insertLinks, hba.1, hxb]

omit [DecidableEq ν] in
theorem getLast?_eq_some_iff_of_nodup (h : (l₁ ++ y :: l₂).Nodup) :
    (l₁ ++ y :: l₂).getLast? = some y ↔ l₂ = [] := by
  rcases l₂ with _ | ⟨c, l₂⟩
  · exact iff_of_true List.getLast?_concat rfl
  · refine iff_of_false (fun hlast => ?_) (List.cons_ne_nil c l₂)
    rw [List.getLast?_append_of_ne_nil _ (List.cons_ne_nil y _), List.getLast?_cons_cons] at hlast
    exact (List.nodup_cons.mp h.of_append_right).1 (List.mem_of_getLast? hlast)

theorem insertafterDlist_spec (h : Circle links l) (hy : y ∈ l) (hx : x ∉ l) :
    ∃ links', insertafterDlist links l.getLast? y x =
        some (links', (substitute y [y, x] l).getLast?) ∧
      Turns links l links' (substitute y [y, x] l) := by
  obtain ⟨l₁, l₂, rfl⟩ := List.append_of_mem hy
  rw [substitute_append [y, x] h.nodup]
  have hlast := getLast?_eq_some_iff_of_nodup h.nodup
  have hne : (l₂ ++ (l₁ ++ [y])) ≠ [] := by simp
  rw [← List.singleton_append, ← List.append_assoc] at h hx
  obtain ⟨a, -, b, hbl, ha, hb, hba⟩ := h.rotate.exists_ends hne
  have hby : b = y := by simpa using hb.symm
  subst hby
  have hx' : x ∉ l₂ ++ (l₁ ++ [b]) := fun hmem =>
    hx (List.mem_append.mpr (List.mem_append.mp hmem).symm)
  have hturn := turns_insertLinks h.rotate hb ha hx'
  rw [List.append_assoc] at hturn
  refine ⟨insertLinks b a x links, ?_, by simpa using hturn.rotate_left.rotate_right⟩
  have hxb : x ≠ b := fun he => hx' (he ▸ hbl)
  have hnew : (if (l₁ ++ b :: l₂).getLast? = some b then some x else (l₁ ++ b :: l₂).getLast?) =
      (l₁ ++ ([b, x] ++ l₂)).getLast? := by
    rcases l₂ with _ | ⟨c, l₂⟩
    · rw [if_pos (hlast.mpr rfl)]
      simp
    · rw [if_neg fun he => List.cons_ne_nil c l₂ (hlast.mp he)]
      simp
  rw [← hnew, insertafterDlist]
  generalize (l₁ ++ b :: l₂).getLast? = last
  simp [setNext, setPrev, insertLinks, hba.1, hxb]

theorem insertbeforeDlist_spec (h : Circle links l) (hy : y ∈ l) (hx : x ∉ l) :
    ∃ links', insertbeforeDlist links y x = some links' ∧
      l.getLast? = (substitute y [x, y] l).getLast? ∧
      Turns links l links' (substitute y [x, y] l) := by
  obtain ⟨l₁, l₂, rfl⟩ := List.append_of_mem hy
  rw [substitute_append [x, y] h.nodup]
  obtain ⟨a, -, b, hbl, ha, hb, hba⟩ := h.rotate.exists_ends (List.cons_ne_nil y (l₂ ++ l₁))
  obtain rfl : y = a := Option.some.inj ha
  have hx' : x ∉ y :: l₂ ++ l₁ := fun hmem =>
    hx (List.mem_append.mpr (List.mem_append.mp hmem).symm)
  have hturn := turns_insertLinks h.rotate hb ha hx'
  rw [List.append_assoc] at hturn
  refine ⟨insertLinks b y x links, ?_, by simp, by simpa using hturn.rotate_left.rotate_right⟩
  have hxb : x ≠ b := fun he => hx' (he ▸ hbl)
  rw [insertbeforeDlist]
  simp [setNext, setPrev, insertLinks, hba.2, Function.update_comm hxb]

theorem removehelperDlist_eq {a b : ν} {last : Option ν} (hnext : links.next x = some a)
    (hprev : links.prev x = some b) (hxb : x ≠ b) (hlast : last ≠ some x) :
    removehelperDlist links last x = some (clear x (link b a links), last) := by
  rw [removehelperDlist, if_neg hlast.symm]
  simp [setNext, setPrev, hprev, hnext, hxb, clear, link]

theorem removeDlist_spec (h : Circle links l) (hx : x ∈ l) :
    ∃ links', removeDlist links l.getLast? x = some (links', (substitute x [] l).getLast?) ∧
      Turns links l links' (substitute x [] l) ∧
      links'.next x = none ∧ links'.prev x = none := by
  obtain ⟨l₁, l₂, rfl⟩ := List.append_of_mem hx
  rw [substitute_append [] h.nodup]
  have hend := getLast?_eq_some_iff_of_nodup h.nodup
  have hrot : Circle links (l₂ ++ l₁ ++ [x]) := Circle.rotate (l := [x]) h.rotate
  by_cases hm : l₂ ++ l₁ = []
  · -- the only node
    obtain ⟨rfl, rfl⟩ := List.append_eq_nil_iff.mp hm
    have hx := h.closed x rfl x rfl
    refine ⟨clear x links, ?_, turns_clear_singleton x links, Function.update_self _ _ _,
      Function.update_self _ _ _⟩
    rw [removeDlist, removehelperDlist]
    simp [hx.2, setNext, setPrev, clear]
  have hnot : x ∉ l₂ ++ l₁ := fun hmem =>
    (List.nodup_append'.mp hrot.nodup).2.2 hmem (List.mem_singleton_self x)
  obtain ⟨a, ha⟩ : ∃ a, (l₂ ++ l₁).head? = some a := ⟨_, List.head?_eq_some_head hm⟩
  obtain ⟨b, hb⟩ : ∃ b, (l₂ ++ l₁).getLast? = some b := ⟨_, List.getLast?_eq_some_getLast hm⟩
  have hxa := hrot.closed x List.getLast?_concat a (by rw [List.head?_append, ha]; rfl)
  have hbx := (List.isChain_append.mp hrot.chain).2.2 b hb x rfl
  have hturn := (turns_clear hrot hb ha).rotate_right
  rw [List.append_assoc] at hturn
  refine ⟨_, ?_, by simpa using hturn.rotate_left, Function.update_self _ _ _,
    Function.update_self _ _ _⟩
  have hnew : (if some x = (l₁ ++ x :: l₂).getLast? then links.prev x
      else (l₁ ++ x :: l₂).getLast?) = (l₁ ++ ([] ++ l₂)).getLast? := by
    rcases l₂ with _ | ⟨c, l₂⟩
    · rw [if_pos (hend.mpr rfl).symm, hbx.2]
      simpa using hb.symm
    · rw [if_neg fun he => List.cons_ne_nil c l₂ (hend.mp he.symm)]
      simp
  have hne : (l₁ ++ ([] ++ l₂)).getLast? ≠ some x := fun he =>
    hnot (List.mem_append.mpr (List.mem_append.mp (List.mem_of_getLast? he)).symm)
  rw [removeDlist, hnew]
  exact removehelperDlist_eq hxa.1 hbx.2 (fun he => hnot (he ▸ List.mem_of_getLast? hb)) hne

theorem removefirstDlist_eq (h : Circle links (x :: l)) :
    removefirstDlist links (x :: l).getLast? =
      (removeDlist links (x :: l).getLast? x).map fun r => (x, r) := by
  obtain ⟨a, -, b, -, ha, hb, hba⟩ := h.exists_ends (List.cons_ne_nil x l)
  obtain rfl : x = a := Option.some.inj ha
  rw [removefirstDlist, removeDlist, hb]
  have hlast : (if some x = some b then links.prev x else some b) = some b := by
    split
    · exact hba.2
    · rfl
  rw [hlast, Option.bind_eq_bind, Option.bind_some, hba.1, Option.bind_eq_bind, Option.bind_some]
  cases removehelperDlist links (some b) x <;> rfl

theorem removefirstDlist_spec (h : Circle links (x :: l)) :
    ∃ links', removefirstDlist links (x :: l).getLast? = some (x, links', l.getLast?) ∧
      Turns links (x :: l) links' l ∧ links'.next x = none ∧ links'.prev x = none := by
  obtain ⟨links', hremove, hturn⟩ := removeDlist_spec h List.mem_cons_self
  have hl : substitute x [] (x :: l) = l :=
    substitute_append [] (show ([] ++ x :: l).Nodup from h.nodup)
  rw [hl] at hremove hturn
  refine ⟨links', ?_, hturn⟩
  rw [removefirstDlist_eq h, hremove]
  rfl

theorem removelastDlist_eq (links : Links ν) (l : List ν) (x : ν) :
    removelastDlist links (l ++ [x]).getLast? =
      (removeDlist links (l ++ [x]).getLast? x).map fun r => (x, r) := by
  rw [List.getLast?_concat, removelastDlist, removeDlist, if_pos rfl, Option.bind_eq_bind,
    Option.bind_some]
  cases removehelperDlist links (links.prev x) x <;> rfl

theorem removelastDlist_spec (h : Circle links (l ++ [x])) :
    ∃ links', removelastDlist links (l ++ [x]).getLast? = some (x, links', l.getLast?) ∧
      Turns links (l ++ [x]) links' l ∧ links'.next x = none ∧ links'.prev x = none := by
  obtain ⟨links', hremove, hturn⟩ := removeDlist_spec h List.mem_concat_self
  have hl : substitute x [] (l ++ [x]) = l :=
    (substitute_append [] h.nodup).trans (List.append_nil l)
  rw [hl] at hremove hturn
  refine ⟨links', ?_, hturn⟩
  rw [removelastDlist_eq, hremove]
  rfl

theorem replace_links_eq {a b : ν} (hxy : x ≠ y) (hby : b ≠ y) (hay : a ≠ y) (hxa : x ≠ a)
    (links : Links ν) :
    clear y (setNext b (some x) (setPrev x (some b) (setPrev a (some x)
      (setNext x (some a) links)))) = insertLinks b a x (clear y (link b a links)) := by
  ext1 <;> funext z <;>
    simp only [clear, setNext, setPrev, insertLinks, link, Function.update_apply] <;>
    grind

theorem replacenodeDlist_spec (h : Circle links l) (hy : y ∈ l) (hx : x ∉ l) :
    ∃ links', replacenodeDlist links l.getLast? y x =
        some (links', (substitute y [x] l).getLast?) ∧
      Turns links l links' (substitute y [x] l) ∧
      links'.next y = none ∧ links'.prev y = none := by
  obtain ⟨l₁, l₂, rfl⟩ := List.append_of_mem hy
  rw [substitute_append [x] h.nodup]
  have hend := getLast?_eq_some_iff_of_nodup h.nodup
  have hrot : Circle links (l₂ ++ l₁ ++ [y]) := Circle.rotate (l := [y]) h.rotate
  have hnew : (if (l₁ ++ y :: l₂).getLast? = some y then some x else (l₁ ++ y :: l₂).getLast?) =
      (l₁ ++ ([x] ++ l₂)).getLast? := by
    rcases l₂ with _ | ⟨c, l₂⟩
    · rw [if_pos (hend.mpr rfl)]
      simp
    · rw [if_neg fun he => List.cons_ne_nil c l₂ (hend.mp he)]
      simp
  have hxy : x ≠ y := fun he => hx (he ▸ List.mem_append_right l₁ List.mem_cons_self)
  by_cases hm : l₂ ++ l₁ = []
  · -- the only node
    obtain ⟨rfl, rfl⟩ := List.append_eq_nil_iff.mp hm
    have hy := h.closed y rfl y rfl
    refine ⟨clear y (link x x links), ?_, ⟨(circle_singleton x links).clear_of_not_mem ?_, ?_, ?_⟩,
      Function.update_self _ _ _, Function.update_self _ _ _⟩
    · rw [← hnew, replacenodeDlist, if_pos hy.1]
      simp [setNext, setPrev, clear, link]
    · simpa using hxy.symm
    · intro z hz hz'
      exact (Function.update_of_ne (List.ne_of_not_mem_cons hz) _ _).trans
        (Function.update_of_ne (List.ne_of_not_mem_cons hz') _ _)
    · intro z hz hz'
      exact (Function.update_of_ne (List.ne_of_not_mem_cons hz) _ _).trans
        (Function.update_of_ne (List.ne_of_not_mem_cons hz') _ _)
  have hnot : y ∉ l₂ ++ l₁ := fun hmem =>
    (List.nodup_append'.mp hrot.nodup).2.2 hmem (List.mem_singleton_self y)
  have hx' : x ∉ l₂ ++ l₁ := fun hmem => hx (by simp at hmem ⊢; tauto)
  obtain ⟨a, ha⟩ : ∃ a, (l₂ ++ l₁).head? = some a := ⟨_, List.head?_eq_some_head hm⟩
  obtain ⟨b, hb⟩ : ∃ b, (l₂ ++ l₁).getLast? = some b := ⟨_, List.getLast?_eq_some_getLast hm⟩
  have hya := hrot.closed y List.getLast?_concat a (by rw [List.head?_append, ha]; rfl)
  have hby := (List.isChain_append.mp hrot.chain).2.2 b hb y rfl
  have hne {z c : ν} (hz : z ∉ l₂ ++ l₁) (hc : c ∈ l₂ ++ l₁) : z ≠ c := fun he => hz (he ▸ hc)
  have hya' := hne hnot (List.mem_of_head? ha)
  have hyb' := hne hnot (List.mem_of_getLast? hb)
  have hxa := hne hx' (List.mem_of_head? ha)
  have hcut := turns_clear hrot hb ha
  have hturn := hcut.trans (turns_insertLinks hcut.circle hb ha hx')
    fun z hz => Or.inl (List.mem_append_left [y] hz)
  rw [List.append_assoc, List.append_assoc] at hturn
  refine ⟨_, ?_, by simpa using hturn.rotate_left.rotate_right, ?_, ?_⟩
  · rw [← hnew, replacenodeDlist, if_neg (by rw [hya.1]; simpa using hya'.symm),
      ← replace_links_eq hxy hyb'.symm hya'.symm hxa]
    generalize (l₁ ++ y :: l₂).getLast? = last
    simp [setNext, setPrev, clear, hya.1, hby.2, hxy.symm, hya']
  · exact (Function.update_of_ne hyb' _ _).trans
      ((Function.update_of_ne hxy.symm _ _).trans (Function.update_self _ _ _))
  · exact (Function.update_of_ne hya' _ _).trans
      ((Function.update_of_ne hxy.symm _ _).trans (Function.update_self _ _ _))

/-- **Two lists**: both circles are joined. -/
theorem insertlastPlistDlist_spec {m : List ν} (hl : Circle links l) (hm : Circle links m)
    (hd : l.Disjoint m) :
    ∃ links', insertlastPlistDlist links l.getLast? m.getLast? =
        some (links', (l ++ m).getLast?, none) ∧ Circle links' (l ++ m) ∧
      ∀ y, y ∉ l ++ m → links'.next y = links.next y ∧ links'.prev y = links.prev y := by
  rcases l with _ | ⟨c, l⟩
  · exact ⟨links, rfl, hm, fun _ _ => ⟨rfl, rfl⟩⟩
  rcases m with _ | ⟨d, m⟩
  · obtain ⟨a, -, b, -, ha, hb, hba⟩ := hl.exists_ends (List.cons_ne_nil c l)
    rw [List.append_nil, hb]
    exact ⟨links, rfl, hl, fun _ _ => ⟨rfl, rfl⟩⟩
  obtain ⟨a, hal, b, hbl, ha, hb, hba⟩ := hl.exists_ends (List.cons_ne_nil c l)
  obtain ⟨a', hal', b', hbl', ha', hb', hba'⟩ := hm.exists_ends (List.cons_ne_nil d m)
  refine ⟨link b' a (link b a' links), ?_, hl.join hm hd hb ha hb' ha', fun y hy => ?_⟩
  · have hne : b' ≠ b := fun he => hd hbl (he ▸ hbl')
    rw [List.getLast?_append, hb, hb', insertlastPlistDlist]
    simp [setNext, setPrev, link, hba.1, hba'.1, hne]
  · have hout {z : ν} (hz : z ∈ c :: l ∨ z ∈ d :: m) : y ≠ z := fun he =>
      hy (List.mem_append.mpr (he ▸ hz))
    exact ⟨(Function.update_of_ne (hout (.inr hbl')) _ _).trans
        (Function.update_of_ne (hout (.inl hbl)) _ _),
      (Function.update_of_ne (hout (.inl hal)) _ _).trans
        (Function.update_of_ne (hout (.inr hal')) _ _)⟩

/-! ## `free_dlist` -/

/-- The error code after the objects of the nodes have been deleted in order. -/
def deleteErr (delete : Option (ν → ℕ)) (err : ℕ) (l : List ν) : ℕ :=
  l.foldl (fun err node =>
    let err2 := delete.elim 0 fun d => d node
    if err2 ≠ 0 then err2 else err) err

theorem freeLoop_eq (delete : Option (ν → ℕ)) {z : ν} {n : ℕ} (err : ℕ) (hnd : (y :: l).Nodup)
    (hchain : (y :: l).IsChain fun a b => links.next a = some b)
    (hend : ∀ b ∈ (y :: l).getLast?, links.next b = some z) (hz : z ∉ l) (hn : l.length < n) :
    ∃ links', freeLoop delete z n y err links = some (deleteErr delete err (y :: l), links') ∧
      (∀ x ∈ y :: l, links'.next x = none ∧ links'.prev x = none) ∧
      ∀ x, x ∉ y :: l → links'.next x = links.next x ∧ links'.prev x = links.prev x := by
  induction l generalizing y n err links with
  | nil =>
    obtain ⟨n, rfl⟩ := Nat.exists_eq_add_of_lt hn
    refine ⟨clear y links, ?_, fun x hx => List.mem_singleton.mp hx ▸ clear_self y links,
      fun x hx => clear_of_ne (List.ne_of_not_mem_cons hx) links⟩
    rw [freeLoop, hend y rfl, Option.bind_eq_bind, Option.bind_some]
    simp [deleteErr, clear, setNext, setPrev]
  | cons a l ih =>
    obtain ⟨n, rfl⟩ : ∃ k, n = k + 1 := ⟨n - 1, by omega⟩
    obtain ⟨hya, hrest⟩ := List.isChain_cons_cons.mp hchain
    obtain ⟨hy, hnd'⟩ := List.nodup_cons.mp hnd
    have hclear : ∀ x ∈ a :: l, (clear y links).next x = links.next x := fun x hx =>
      (clear_of_ne (ne_of_mem_of_not_mem hx hy) links).1
    have hchain' : (a :: l).IsChain fun b c => (clear y links).next b = some c :=
      hrest.imp_of_mem_imp fun b c hb _ hbc => (hclear b hb).trans hbc
    have hend' : ∀ b ∈ (a :: l).getLast?, (clear y links).next b = some z := fun b hb =>
      (hclear b (List.mem_of_getLast? hb)).trans (hend b hb)
    obtain ⟨links', hloop, hin, hout⟩ := ih (deleteErr delete err [y]) hnd' hchain' hend'
      (fun h => hz (List.mem_cons_of_mem a h)) (Nat.lt_of_succ_lt_succ hn)
    refine ⟨links', ?_, fun x hx => ?_, fun x hx => ?_⟩
    · have haz : a ≠ z := fun he => hz (he ▸ List.mem_cons_self)
      rw [freeLoop, hya, Option.bind_eq_bind, Option.bind_some, if_pos haz]
      exact hloop
    · rcases List.mem_cons.mp hx with rfl | hx
      · rw [(hout x hy).1, (hout x hy).2]
        exact clear_self x links
      · exact hin x hx
    · obtain ⟨hxy, hxl⟩ := List.ne_and_not_mem_of_not_mem_cons hx
      rw [(hout x hxl).1, (hout x hxl).2]
      exact clear_of_ne hxy links

/-- **All nodes of the list are unlinked.** The last one is the first one to be deleted. -/
theorem freeDlist_spec (delete : Option (ν → ℕ)) {n : ℕ} (h : Circle links l) (hn : l.length ≤ n) :
    ∃ links', freeDlist delete n links l.getLast? =
        some (deleteErr delete 0 (l.getLast?.toList ++ l.dropLast), links', none) ∧
      (∀ x ∈ l, links'.next x = none ∧ links'.prev x = none) ∧
      ∀ x, x ∉ l → links'.next x = links.next x ∧ links'.prev x = links.prev x := by
  rcases List.eq_nil_or_concat' l with rfl | ⟨m, b, rfl⟩
  · exact ⟨links, rfl, fun x hx => absurd hx List.not_mem_nil, fun _ _ => ⟨rfl, rfl⟩⟩
  have hrot : Circle links (b :: m) := h.rotate
  have hmem : ∀ x, x ∈ b :: m ↔ x ∈ m ++ [b] := fun x =>
    List.mem_cons.trans (List.mem_append.trans (or_comm.trans (or_congr_left
      List.mem_singleton))).symm
  obtain ⟨links', hloop, hin, hout⟩ := freeLoop_eq (n := n) delete 0 hrot.nodup
    (hrot.chain.imp fun _ _ hxy => hxy.1) (fun c hc => (hrot.closed c hc b rfl).1)
    (List.nodup_cons.mp hrot.nodup).1 (by rwa [List.length_append] at hn)
  refine ⟨links', ?_, fun x hx => hin x ((hmem x).mpr hx),
    fun x hx => hout x fun h => hx ((hmem x).mp h)⟩
  rw [List.getLast?_concat, List.dropLast_concat, freeDlist, Option.bind_eq_bind, hloop]
  rfl

end Dlist
end CKern
