import CKern.Ds.Inmem.Dlist
import CKern.Library.Refinement
import Mathlib.Data.Set.Basic

/-!
# `ds/inmem/dlist.c`: runs on any number of lists

* `Op`, `Lists`, `call`: the operations, and the state they work on.
* `Sequences`, `perform`, `Allowed`: what they do to the sequences of nodes, and the preconditions.
* `Rep`: the circles are the sequences, and the nodes that are gone have null links.
* `call_refines`, `dlist_refines`: a step, and a run.
-/

namespace CKern
namespace Dlist

open DoublyLinked Refinement

variable {ι ν : Type*} [DecidableEq ι] [DecidableEq ν]

/-- The operations. The callback and the number of rounds are those of the loop of `free_dlist`. -/
inductive Op (ι ν : Type*)
  | insertfirst (i : ι) (newNode : ν)
  | insertlast (i : ι) (newNode : ν)
  | insertafter (i : ι) (prevNode newNode : ν)
  | insertbefore (nextNode newNode : ν)
  | removefirst (i : ι)
  | removelast (i : ι)
  | remove (i : ι) (node : ν)
  | replacenode (i : ι) (oldnode newnode : ν)
  | insertlastPlist (i nodes : ι)
  | free (i : ι) (delete : Option (ν → ℕ)) (rounds : ℕ)

/-- The pointers of all nodes, and the field `last` of every list. -/
structure Lists (ι ν : Type*) where
  links : Links ν
  last : ι → Option ν

/-- The list `i` after an operation on it. -/
def Lists.store (s : Lists ι ν) (i : ι) (r : Option (Links ν × Option ν)) :
    Option (Lists ι ν) :=
  r.map fun (links, last) => ⟨links, Function.update s.last i last⟩

/-- What an operation returns, and the lists after it. There are none after the use of a null
pointer. -/
def call (s : Option (Lists ι ν)) (op : Op ι ν) : Option ν × Option (Lists ι ν) :=
  match s with
  | none => (none, none)
  | some s =>
    match op with
    | .insertfirst i x => (none, s.store i (insertfirstDlist s.links (s.last i) x))
    | .insertlast i x => (none, s.store i (insertlastDlist s.links (s.last i) x))
    | .insertafter i y x => (none, s.store i (insertafterDlist s.links (s.last i) y x))
    | .insertbefore y x =>
      (none, (insertbeforeDlist s.links y x).map fun links => { s with links })
    | .removefirst i =>
      let r := removefirstDlist s.links (s.last i)
      (r.map Prod.fst, s.store i (r.map Prod.snd))
    | .removelast i =>
      let r := removelastDlist s.links (s.last i)
      (r.map Prod.fst, s.store i (r.map Prod.snd))
    | .remove i x => (none, s.store i (removeDlist s.links (s.last i) x))
    | .replacenode i y x => (none, s.store i (replacenodeDlist s.links (s.last i) y x))
    | .insertlastPlist i j =>
      (none, (insertlastPlistDlist s.links (s.last i) (s.last j)).map fun (links, last, nodes) =>
        ⟨links, Function.update (Function.update s.last i last) j nodes⟩)
    | .free i delete n =>
      (none, s.store i ((freeDlist delete n s.links (s.last i)).map Prod.snd))

/-- What the lists stand for: a sequence each, and the nodes that have been removed or replaced and
not been inserted again. -/
structure Sequences (ι ν : Type*) where
  rows : ι → List ν
  gone : Set ν

/-- The operations on sequences. -/
def perform (t : Sequences ι ν) : Op ι ν → Option ν × Sequences ι ν
  | .insertfirst i x => (none, ⟨Function.update t.rows i (x :: t.rows i), t.gone \ {x}⟩)
  | .insertlast i x => (none, ⟨Function.update t.rows i (t.rows i ++ [x]), t.gone \ {x}⟩)
  | .insertafter i y x =>
    (none, ⟨Function.update t.rows i (substitute y [y, x] (t.rows i)), t.gone \ {x}⟩)
  | .insertbefore y x => (none, ⟨fun i => substitute y [x, y] (t.rows i), t.gone \ {x}⟩)
  | .removefirst i => ((t.rows i).head?,
    ⟨Function.update t.rows i (t.rows i).tail, t.gone ∪ {x | (t.rows i).head? = some x}⟩)
  | .removelast i => ((t.rows i).getLast?,
    ⟨Function.update t.rows i (t.rows i).dropLast, t.gone ∪ {x | (t.rows i).getLast? = some x}⟩)
  | .remove i x =>
    (none, ⟨Function.update t.rows i (substitute x [] (t.rows i)), t.gone ∪ {x}⟩)
  | .replacenode i y x =>
    (none, ⟨Function.update t.rows i (substitute y [x] (t.rows i)), (t.gone \ {x}) ∪ {y}⟩)
  | .insertlastPlist i j => (none,
    ⟨Function.update (Function.update t.rows i (t.rows i ++ t.rows j)) j [], t.gone⟩)
  | .free i _ _ => (none, ⟨Function.update t.rows i [], t.gone ∪ {x | x ∈ t.rows i}⟩)

/-- The preconditions: a new node stands in no list, the node next to it and a node that is removed
or replaced stand in the list, and a list is not appended to itself unless it is empty. The loop of
`free_dlist` is given a round for every node. -/
def Allowed (t : Sequences ι ν) : Op ι ν → Prop
  | .insertfirst _ x | .insertlast _ x => ∀ j, x ∉ t.rows j
  | .insertafter i y x => y ∈ t.rows i ∧ ∀ j, x ∉ t.rows j
  | .insertbefore y x => (∃ i, y ∈ t.rows i) ∧ ∀ j, x ∉ t.rows j
  | .removefirst i | .removelast i => t.rows i ≠ []
  | .remove i x => x ∈ t.rows i
  | .replacenode i y x => y ∈ t.rows i ∧ ∀ j, x ∉ t.rows j
  | .insertlastPlist i j => i = j → t.rows i = []
  | .free i _ n => (t.rows i).length ≤ n

/-- The lists stand for the sequences. -/
structure Rep (s : Lists ι ν) (t : Sequences ι ν) : Prop where
  circle : ∀ i, Circle s.links (t.rows i)
  last_eq : ∀ i, s.last i = (t.rows i).getLast?
  apart : ∀ i j, i ≠ j → (t.rows i).Disjoint (t.rows j)
  null : ∀ x ∈ t.gone, s.links.next x = none ∧ s.links.prev x = none

variable {s : Lists ι ν} {t : Sequences ι ν} {links : Links ν} {i : ι} {x y : ν} {l : List ν}

omit [DecidableEq ν] [DecidableEq ι] in
theorem Rep.not_mem_of_gone (h : Rep s t) (hx : x ∈ t.gone) (i : ι) : x ∉ t.rows i := by
  intro hmem
  obtain ⟨b, -, hb⟩ := (h.circle i).exists_next hmem
  exact Option.some_ne_none b (hb.1.symm.trans (h.null x hx).1)

omit [DecidableEq ν] in
theorem Rep.change (h : Rep s t) (gone : Set ν) (hturn : Turns s.links (t.rows i) links l)
    (hnew : ∀ y ∈ l, y ∉ t.rows i → ∀ j, y ∉ t.rows j)
    (hgone : ∀ y ∈ gone, (y ∈ t.gone ∧ y ∉ l) ∨ (links.next y = none ∧ links.prev y = none)) :
    Rep ⟨links, Function.update s.last i l.getLast?⟩ ⟨Function.update t.rows i l, gone⟩ := by
  have hout : ∀ j, j ≠ i → ∀ y ∈ t.rows j, y ∉ t.rows i ∧ y ∉ l := by
    intro j hj y hy
    have hyi : y ∉ t.rows i := fun hi => h.apart j i hj hy hi
    exact ⟨hyi, fun hl => hnew y hl hyi j hy⟩
  refine ⟨fun j => ?_, fun j => ?_, fun j k hjk => ?_, fun y hy => ?_⟩
  · change Circle links (Function.update t.rows i l j)
    by_cases hj : j = i
    · subst hj
      rw [Function.update_self]
      exact hturn.circle
    · rw [Function.update_of_ne hj]
      exact (h.circle j).congr (fun y hy => hturn.next_eq y (hout j hj y hy).1 (hout j hj y hy).2)
        fun y hy => hturn.prev_eq y (hout j hj y hy).1 (hout j hj y hy).2
  · change Function.update s.last i l.getLast? j = (Function.update t.rows i l j).getLast?
    by_cases hj : j = i
    · subst hj
      rw [Function.update_self, Function.update_self]
    · rw [Function.update_of_ne hj, Function.update_of_ne hj]
      exact h.last_eq j
  · change (Function.update t.rows i l j).Disjoint (Function.update t.rows i l k)
    by_cases hj : j = i
    · subst hj
      rw [Function.update_self, Function.update_of_ne hjk.symm]
      exact fun y hy hk => (hout k hjk.symm y hk).2 hy
    · rw [Function.update_of_ne hj]
      by_cases hk : k = i
      · subst hk
        rw [Function.update_self]
        exact fun y hy hl => (hout j hj y hy).2 hl
      · rw [Function.update_of_ne hk]
        exact h.apart j k hjk
  · rcases hgone y hy with ⟨hy, hl⟩ | hnull
    · have hi := h.not_mem_of_gone hy i
      exact ⟨(hturn.next_eq y hi hl).trans (h.null y hy).1,
        (hturn.prev_eq y hi hl).trans (h.null y hy).2⟩
    · exact hnull

omit [DecidableEq ν] in
theorem Rep.insert (h : Rep s t) (hturn : Turns s.links (t.rows i) links l)
    (hfresh : ∀ j, x ∉ t.rows j) (hmem : ∀ y ∈ l, y ∈ t.rows i ∨ y = x) :
    Rep ⟨links, Function.update s.last i l.getLast?⟩
      ⟨Function.update t.rows i l, t.gone \ {x}⟩ := by
  refine h.change _ hturn (fun y hy hyi j => ?_) fun y hy => Or.inl ⟨hy.1, fun hl => ?_⟩
  · rw [(hmem y hy).resolve_left hyi]
    exact hfresh j
  · exact (hmem y hl).elim (h.not_mem_of_gone hy.1 i) hy.2

omit [DecidableEq ν] in
theorem Rep.remove (h : Rep s t) (removed : Set ν) (hturn : Turns s.links (t.rows i) links l)
    (hsub : ∀ y ∈ l, y ∈ t.rows i)
    (hnull : ∀ y ∈ removed, links.next y = none ∧ links.prev y = none) :
    Rep ⟨links, Function.update s.last i l.getLast?⟩
      ⟨Function.update t.rows i l, t.gone ∪ removed⟩ := by
  refine h.change _ hturn (fun y hy hyi => absurd (hsub y hy) hyi) fun y hy => ?_
  rcases hy with hy | hy
  · exact Or.inl ⟨hy, fun hl => h.not_mem_of_gone hy i (hsub y hl)⟩
  · exact Or.inr (hnull y hy)

theorem Rep.insertlastPlist (h : Rep s t) {j : ι} (hok : i = j → t.rows i = []) :
    ∃ s', call (some s) (.insertlastPlist i j) = ((perform t (.insertlastPlist i j)).1, some s') ∧
      Rep s' (perform t (.insertlastPlist i j)).2 := by
  by_cases hij : i = j
  · subst hij
    have hnil : t.rows i = [] := hok rfl
    have hturn : Turns s.links (t.rows i) s.links [] :=
      ⟨circle_nil _, fun _ _ _ => rfl, fun _ _ _ => rfl⟩
    have hrep := h.change _ hturn (fun y hy => absurd hy List.not_mem_nil)
      fun y hy => Or.inl ⟨hy, List.not_mem_nil⟩
    refine ⟨_, ?_, by rwa [perform, hnil, List.append_nil, Function.update_idem]⟩
    rw [call, h.last_eq i, hnil]
    change (none, some (⟨s.links, Function.update (Function.update s.last i none) i none⟩ :
      Lists ι ν)) = _
    rw [Function.update_idem]
    rfl
  · -- the nodes leave the one list, and come as new ones into the other
    obtain ⟨links, hcall, hcircle, hout⟩ :=
      insertlastPlistDlist_spec (h.circle i) (h.circle j) (h.apart i j hij)
    have hleave : Turns s.links (t.rows j) s.links [] :=
      ⟨circle_nil _, fun _ _ _ => rfl, fun _ _ _ => rfl⟩
    have hrep := h.change _ hleave (fun y hy => absurd hy List.not_mem_nil)
      fun y hy => Or.inl ⟨hy, List.not_mem_nil⟩
    have hcome : Turns s.links (Function.update t.rows j [] i) links (t.rows i ++ t.rows j) :=
      ⟨hcircle, fun y _ hy => (hout y hy).1, fun y _ hy => (hout y hy).2⟩
    have hrep' := hrep.change t.gone hcome (fun y hy hyi k => ?_)
      fun y hy => Or.inl ⟨hy, fun hmem => ?_⟩
    · rw [Function.update_comm (Ne.symm hij), Function.update_comm (Ne.symm hij)] at hrep'
      refine ⟨_, ?_, hrep'⟩
      rw [call, h.last_eq i, h.last_eq j, hcall]
      rfl
    · change y ∉ Function.update t.rows j [] i at hyi
      change y ∉ Function.update t.rows j [] k
      rw [Function.update_of_ne hij] at hyi
      have hyj := (List.mem_append.mp hy).resolve_left hyi
      by_cases hk : k = j
      · subst hk
        rw [Function.update_self]
        exact List.not_mem_nil
      · rw [Function.update_of_ne hk]
        exact fun hyk => h.apart k j hk hyk hyj
    · exact (List.mem_append.mp hmem).elim (h.not_mem_of_gone hy i) (h.not_mem_of_gone hy j)

/-- **A step**: an operation whose preconditions hold succeeds, returns the same node, and leads to
lists that stand for the new sequences. -/
theorem call_refines (h : Rep s t) {op : Op ι ν} (hok : Allowed t op) :
    ∃ s', call (some s) op = ((perform t op).1, some s') ∧ Rep s' (perform t op).2 := by
  cases op with
  | insertfirst i x =>
    obtain ⟨links, hcall, hturn⟩ := insertfirstDlist_spec (h.circle i) (hok i)
    refine ⟨_, ?_, h.insert hturn hok fun y hy => (List.mem_cons.mp hy).symm⟩
    rw [call, h.last_eq i, hcall]
    rfl
  | insertlast i x =>
    obtain ⟨links, hcall, hturn⟩ := insertlastDlist_spec (h.circle i) (hok i)
    refine ⟨_, ?_, h.insert hturn hok fun y hy => by simpa using hy⟩
    rw [call, h.last_eq i, hcall]
    rfl
  | insertafter i y x =>
    obtain ⟨hy, hx⟩ := hok
    obtain ⟨links, hcall, hturn⟩ := insertafterDlist_spec (h.circle i) hy (hx i)
    refine ⟨_, ?_, h.insert hturn hx fun z hz => ?_⟩
    · rw [call, h.last_eq i, hcall]
      rfl
    · rcases mem_substitute hz with hz | hz
      · exact Or.inl hz
      · rcases List.mem_pair.mp hz with rfl | rfl
        · exact Or.inl hy
        · exact Or.inr rfl
  | insertbefore y x =>
    obtain ⟨⟨i, hy⟩, hx⟩ := hok
    obtain ⟨links, hcall, hlast, hturn⟩ := insertbeforeDlist_spec (h.circle i) hy (hx i)
    have hrep := h.insert hturn hx fun z hz => by
      rcases mem_substitute hz with hz | hz
      · exact Or.inl hz
      · rcases List.mem_pair.mp hz with rfl | rfl
        · exact Or.inr rfl
        · exact Or.inl hy
    have hrows : Function.update t.rows i (substitute y [x, y] (t.rows i)) =
        fun j => substitute y [x, y] (t.rows j) := by
      funext j
      by_cases hj : j = i
      · subst hj
        exact Function.update_self _ _ _
      · rw [Function.update_of_ne hj, substitute_of_not_mem]
        exact fun hyj => h.apart j i hj hyj hy
    rw [← hlast, ← h.last_eq i, Function.update_eq_self, hrows] at hrep
    refine ⟨_, ?_, hrep⟩
    rw [call, hcall]
    rfl
  | removefirst i =>
    rcases hl : t.rows i with _ | ⟨x, l⟩
    · exact absurd hl hok
    have hc := h.circle i
    rw [hl] at hc
    obtain ⟨links, hcall, hturn, hnull⟩ := removefirstDlist_spec hc
    rw [← hl] at hturn
    have hrep := h.remove {y | (x :: l).head? = some y} hturn
      (fun y hy => hl ▸ List.mem_cons_of_mem x hy) fun y hy => Option.some.inj hy ▸ hnull
    refine ⟨_, ?_, by rwa [perform, hl]⟩
    rw [call, h.last_eq i, hl, hcall, perform, hl]
    rfl
  | removelast i =>
    rcases List.eq_nil_or_concat' (t.rows i) with hl | ⟨l, x, hl⟩
    · exact absurd hl hok
    have hc := h.circle i
    rw [hl] at hc
    obtain ⟨links, hcall, hturn, hnull⟩ := removelastDlist_spec hc
    rw [← hl] at hturn
    have hrep := h.remove {y | (l ++ [x]).getLast? = some y} hturn
      (fun y hy => hl ▸ List.mem_append_left [x] hy) fun y hy =>
        Option.some.inj (List.getLast?_concat.symm.trans hy) ▸ hnull
    refine ⟨_, ?_, by rwa [perform, hl, List.dropLast_concat]⟩
    rw [call, h.last_eq i, hl, hcall, perform, hl, List.getLast?_concat]
    rfl
  | remove i x =>
    obtain ⟨links, hcall, hturn, hnull⟩ := removeDlist_spec (h.circle i) hok
    refine ⟨_, ?_, h.remove _ hturn (fun y hy => ?_) fun y hy => ?_⟩
    · rw [call, h.last_eq i, hcall]
      rfl
    · exact (mem_substitute hy).resolve_right List.not_mem_nil
    · rw [hy]
      exact hnull
  | replacenode i y x =>
    obtain ⟨hy, hx⟩ := hok
    obtain ⟨links, hcall, hturn, hnull⟩ := replacenodeDlist_spec (h.circle i) hy (hx i)
    refine ⟨_, ?_, h.change _ hturn (fun z hz hzi j => ?_) fun z hz => ?_⟩
    · rw [call, h.last_eq i, hcall]
      rfl
    · rw [List.mem_singleton.mp ((mem_substitute hz).resolve_left hzi)]
      exact hx j
    · rcases hz with hz | rfl
      · refine Or.inl ⟨hz.1, fun hzl => ?_⟩
        exact (mem_substitute hzl).elim (h.not_mem_of_gone hz.1 i)
          fun hzx => hz.2 (List.mem_singleton.mp hzx)
      · exact Or.inr hnull
  | insertlastPlist i j => exact h.insertlastPlist hok
  | free i delete n =>
    obtain ⟨links, hcall, hin, hout⟩ := freeDlist_spec delete (h.circle i) hok
    have hturn : Turns s.links (t.rows i) links [] :=
      ⟨circle_nil links, fun y hy _ => (hout y hy).1, fun y hy _ => (hout y hy).2⟩
    refine ⟨_, ?_, h.remove _ hturn (fun y hy => absurd hy List.not_mem_nil) hin⟩
    rw [call, h.last_eq i, hcall]
    rfl

omit [DecidableEq ν] [DecidableEq ι] in
theorem rep_init (links : Links ν) :
    Rep (⟨links, fun _ => none⟩ : Lists ι ν) ⟨fun _ => [], ∅⟩ :=
  ⟨fun _ => circle_nil links, fun _ => rfl, fun _ _ _ => List.disjoint_nil_left [],
    fun x hx => absurd hx (Set.notMem_empty x)⟩

/-- The list whose last node is `last` consists of the nodes of `l`. -/
structure Enumerates (links : Links ν) (last : Option ν) (l : List ν) : Prop where
  nodup : l.Nodup
  last_eq_none_iff : last = none ↔ l = []
  /-- From the first node on, which follows the last one, the nodes are met in order, and from the
  last one back to the first one in the reverse order. -/
  follow_eq : ∀ b, last = some b → ∃ a, links.next b = some a ∧ ∀ n, l.length ≤ n →
    follow links.next b n a = some l ∧ follow links.prev a n b = some l.reverse
  /-- A node is the predecessor of its successor, and the successor of its predecessor. -/
  inverse : ∀ x ∈ l, (∃ y ∈ l, links.next x = some y ∧ links.prev y = some x) ∧
    ∃ y ∈ l, links.prev x = some y ∧ links.next y = some x

omit [DecidableEq ι] in
theorem Rep.enumerates (h : Rep s t) (i : ι) : Enumerates s.links (s.last i) (t.rows i) := by
  have hc := h.circle i
  have hlast := h.last_eq i
  refine ⟨hc.nodup, by rw [hlast, List.getLast?_eq_none_iff], fun b hb => ?_, fun x hx => ?_⟩
  · rw [hlast] at hb
    have hne := List.ne_nil_of_mem (List.mem_of_getLast? hb)
    obtain ⟨a, -, b', -, -, hb', hba⟩ := hc.exists_ends hne
    obtain rfl : b = b' := Option.some.inj (hb.symm.trans hb')
    exact ⟨a, hba.1, fun n hn => ⟨hc.follow_next hb hba.1 hn, hc.follow_prev hb hba.1 hn⟩⟩
  · obtain ⟨y, hy, hxy⟩ := hc.exists_next hx
    obtain ⟨z, hz, hzx⟩ := hc.exists_prev hx
    exact ⟨⟨y, hy, hxy.1, hxy.2⟩, z, hz, hzx.2, hzx.1⟩

/-- **Runs on any number of lists.** A run whose operations are used within their preconditions
never meets a null pointer and returns the removed nodes. Afterwards every list consists of its
sequence, in both directions, no node stands in two lists, and the removed and replaced nodes have
null links. A list that is then appended to another one is left empty, and its nodes follow those
of the other one. -/
theorem dlist_refines (links : Links ν) {ops : List (Op ι ν)}
    (hok : Along perform Allowed ⟨fun _ => [], ∅⟩ ops) :
    let t := (run perform ⟨fun _ => [], ∅⟩ ops).2
    ∃ s, run call (some ⟨links, fun _ => none⟩) ops =
        ((run perform ⟨fun _ => [], ∅⟩ ops).1, some s) ∧
      (∀ i, Enumerates s.links (s.last i) (t.rows i)) ∧
      (∀ i j, i ≠ j → (t.rows i).Disjoint (t.rows j)) ∧
      (∀ x ∈ t.gone, s.links.next x = none ∧ s.links.prev x = none) ∧
      ∀ i j, i ≠ j → ∃ s', call (some s) (.insertlastPlist i j) = (none, some s') ∧
        s'.last j = none ∧ Enumerates s'.links (s'.last i) (t.rows i ++ t.rows j) := by
  intro t
  have hstep : ∀ (t : Sequences ι ν) (s : Option (Lists ι ν)) op, (∃ s', s = some s' ∧ Rep s' t) →
      Allowed t op → (perform t op).1 = (call s op).1 ∧
        ∃ s', (call s op).2 = some s' ∧ Rep s' (perform t op).2 := by
    rintro t _ op ⟨s, rfl, h⟩ hop
    obtain ⟨s', hcall, h'⟩ := call_refines h hop
    rw [hcall]
    exact ⟨rfl, s', rfl, h'⟩
  obtain ⟨hout, s, hs, h⟩ := run_refines hstep ⟨_, rfl, rep_init links⟩ hok
  refine ⟨s, Prod.ext hout.symm hs, h.enumerates, h.apart, h.null, fun i j hij => ?_⟩
  have happend : Allowed t (.insertlastPlist i j) := fun he => absurd he hij
  obtain ⟨s', hcall, h'⟩ := call_refines h happend
  have hi : (perform t (.insertlastPlist i j)).2.rows i = t.rows i ++ t.rows j :=
    (Function.update_of_ne hij _ _).trans (Function.update_self _ _ _)
  have hj : (perform t (.insertlastPlist i j)).2.rows j = [] := Function.update_self _ _ _
  refine ⟨s', hcall, ?_, hi ▸ h'.enumerates i⟩
  rw [h'.last_eq j, hj, List.getLast?_nil]

/-- Two lists, a replaced node, and a list that is appended to the other one. -/
theorem dlist_refines_two :
    ∃ s, (run call (some ⟨⟨fun _ => none, fun _ => none⟩, fun _ => none⟩)
        [Op.insertfirst true 1, .insertafter true 1 2, .insertlast false 3, .replacenode true 1 4,
          .insertlastPlist true false, .removelast true]).2 = some s ∧
      Enumerates s.links (s.last true) [4, 2] ∧ s.links.next 3 = none ∧ s.links.prev 1 = none := by
  have hok : Along perform Allowed ⟨fun _ => [], ∅⟩ [Op.insertfirst true 1, .insertafter true 1 2,
      .insertlast false 3, .replacenode true 1 4, .insertlastPlist true false,
      .removelast true] := by
    simp [Along, perform, Allowed, substitute, Function.update_apply]
  obtain ⟨s, hrun, hlists, -, hnull, -⟩ := dlist_refines ⟨fun _ => none, fun _ => none⟩ hok
  refine ⟨s, by rw [hrun], by simpa [run, perform, substitute] using hlists true, ?_, ?_⟩
  · exact (hnull 3 (by simp [run, perform, substitute])).1
  · exact (hnull 1 (by simp [run, perform, substitute])).2

end Dlist
end CKern
