import CKern.Ds.Inmem.Slist
import CKern.Library.Refinement
import Mathlib.Data.Set.Basic

/-!
# `ds/inmem/slist.c`: runs on any number of singly linked lists

* `Op`, `Lists`, `call`: the operations, and the state they work on.
* `Sequences`, `perform`, `Allowed`: what they do to the sequences of nodes, and the preconditions.
* `Rep`: the rings are the sequences, and the nodes that are gone have null links.
* `call_refines`, `slist_refines`: a step, and a run.
-/

namespace CKern
namespace Slist

open CircularList DoublyLinked Refinement

variable {ι ν : Type*} [DecidableEq ι] [DecidableEq ν]

/-- The operations. -/
inductive Op (ι ν : Type*)
  | init (i : ι)
  | initsingle (i : ι) (node : ν)
  | initsplit (i j : ι) (after : ν)
  | insertfirst (i : ι) (newNode : ν)
  | insertlast (i : ι) (newNode : ν)
  | insertafter (i : ι) (prevNode newNode : ν)
  | removefirst (i : ι)
  | removeafter (i : ι) (prevNode : ν)
  | insertfirstPlist (i j : ι)
  | insertlastPlist (i j : ι)

/-- The pointers of all nodes, and the field `last` of every list. -/
structure Lists (ι ν : Type*) where
  next : ν → Option ν
  last : ι → Option ν

/-- The list `i` after an operation on it. -/
def Lists.store (s : Lists ι ν) (i : ι) (r : (ν → Option ν) × Option ν) : Lists ι ν :=
  ⟨r.1, Function.update s.last i r.2⟩

/-- The lists `i` and `j` after an operation on both. -/
def Lists.store₂ (s : Lists ι ν) (i j : ι) (r : (ν → Option ν) × Option ν × Option ν) : Lists ι ν :=
  ⟨r.1, Function.update (Function.update s.last i r.2.1) j r.2.2⟩

/-- What an operation returns, and the lists after it. There are none after the use of a null
pointer. -/
def call (s : Option (Lists ι ν)) (op : Op ι ν) : Option ν × Option (Lists ι ν) :=
  match s with
  | none => (none, none)
  | some s =>
    match op with
    | .init i => (none, some (s.store i (s.next, none)))
    | .initsingle i x => (none, some (s.store i (initsingleSlist s.next x)))
    | .initsplit i j y => (none, (initsplitSlist s.next (s.last j) y).map (s.store₂ i j))
    | .insertfirst i x => (none, some (s.store i (insertfirstSlist s.next (s.last i) x)))
    | .insertlast i x => (none, some (s.store i (insertlastSlist s.next (s.last i) x)))
    | .insertafter i y x => (none, some (s.store i (insertafterSlist s.next (s.last i) y x)))
    | .removefirst i =>
      let r := removefirstSlist s.next (s.last i)
      (r.map Prod.fst, r.map fun r => s.store i r.2)
    | .removeafter i y =>
      let r := removeafterSlist s.next (s.last i) y
      (r.1, some (s.store i r.2))
    | .insertfirstPlist i j =>
      (none, some (s.store₂ i j (insertfirstPlistSlist s.next (s.last i) (s.last j))))
    | .insertlastPlist i j =>
      (none, some (s.store₂ i j (insertlastPlistSlist s.next (s.last i) (s.last j))))

/-- What the lists stand for: a sequence each, the lists that have been initialised, and the nodes
that have been removed and not been inserted again. -/
structure Sequences (ι ν : Type*) where
  rows : ι → List ν
  live : Set ι
  gone : Set ν

/-- The first node of the list `i` is removed. -/
def Sequences.removefirst (t : Sequences ι ν) (i : ι) : Option ν × Sequences ι ν :=
  ((t.rows i).head?, ⟨Function.update t.rows i (t.rows i).tail, t.live,
    t.gone ∪ {x | (t.rows i).head? = some x}⟩)

/-- The operations on sequences. -/
def perform (t : Sequences ι ν) : Op ι ν → Option ν × Sequences ι ν
  | .init i => (none, { t with live := insert i t.live })
  | .initsingle i x => (none, ⟨Function.update t.rows i [x], insert i t.live, t.gone \ {x}⟩)
  | .initsplit i j y =>
    let (front, back) := parts y (t.rows j)
    (none, ⟨Function.update (Function.update t.rows i back) j front, insert i t.live, t.gone⟩)
  | .insertfirst i x =>
    (none, ⟨Function.update t.rows i (x :: t.rows i), t.live, t.gone \ {x}⟩)
  | .insertlast i x =>
    (none, ⟨Function.update t.rows i (t.rows i ++ [x]), t.live, t.gone \ {x}⟩)
  | .insertafter i y x =>
    let (front, back) := parts y (t.rows i)
    (none, ⟨Function.update t.rows i (front ++ x :: back), t.live, t.gone \ {x}⟩)
  | .removefirst i => t.removefirst i
  | .removeafter i y =>
    match parts y (t.rows i) with
    | (front, x :: back) =>
      (some x, ⟨Function.update t.rows i (front ++ back), t.live, t.gone ∪ {x}⟩)
    | (_, []) => t.removefirst i
  | .insertfirstPlist i j =>
    (none, { t with
      rows := Function.update (Function.update t.rows i (t.rows j ++ t.rows i)) j [] })
  | .insertlastPlist i j =>
    (none, { t with
      rows := Function.update (Function.update t.rows i (t.rows i ++ t.rows j)) j [] })

/-- The preconditions: a list that is initialised has no nodes, any other list has been initialised,
a new node stands in no list, and the node next to it stands in the list. The nodes of a list are
moved to another one. -/
def Allowed (t : Sequences ι ν) : Op ι ν → Prop
  | .init i => t.rows i = []
  | .initsingle i x => t.rows i = [] ∧ ∀ j, x ∉ t.rows j
  | .initsplit i j y => i ≠ j ∧ t.rows i = [] ∧ y ∈ t.rows j
  | .insertfirst i x | .insertlast i x => i ∈ t.live ∧ ∀ j, x ∉ t.rows j
  | .insertafter i y x => y ∈ t.rows i ∧ ∀ j, x ∉ t.rows j
  | .removefirst i => t.rows i ≠ []
  | .removeafter i y => y ∈ t.rows i
  | .insertfirstPlist i j | .insertlastPlist i j => i ≠ j ∧ i ∈ t.live ∧ j ∈ t.live

/-- The lists stand for the sequences. -/
structure Rep (s : Lists ι ν) (t : Sequences ι ν) : Prop where
  ring : ∀ i, Ring s.next (t.rows i).getLast? (t.rows i)
  last_eq : ∀ i ∈ t.live, s.last i = (t.rows i).getLast?
  idle : ∀ i, i ∉ t.live → t.rows i = []
  apart : ∀ i j, i ≠ j → (t.rows i).Disjoint (t.rows j)
  null : ∀ x ∈ t.gone, s.next x = none

variable {s : Lists ι ν} {t : Sequences ι ν} {next : ν → Option ν} {i j : ι} {x y : ν} {l : List ν}

omit [DecidableEq ι] [DecidableEq ν] in
theorem Rep.not_mem_of_gone (h : Rep s t) (hx : x ∈ t.gone) (i : ι) : x ∉ t.rows i :=
  fun hmem => (h.ring i).next_ne_none hmem (h.null x hx)

omit [DecidableEq ι] [DecidableEq ν] in
theorem Rep.live_of_ne (h : Rep s t) (hne : t.rows i ≠ []) : i ∈ t.live :=
  not_not.mp fun hi => hne (h.idle i hi)

omit [DecidableEq ι] [DecidableEq ν] in
theorem Rep.live_of_mem (h : Rep s t) (hy : y ∈ t.rows i) : i ∈ t.live :=
  h.live_of_ne (List.ne_nil_of_mem hy)

omit [DecidableEq ν] in
theorem Rep.change (h : Rep s t) (gone : Set ν) (hlinks : Relinks s.next (t.rows i) next l)
    (hnew : ∀ y ∈ l, y ∉ t.rows i → ∀ j, y ∉ t.rows j)
    (hgone : ∀ y ∈ gone, (y ∈ t.gone ∧ y ∉ l) ∨ next y = none) :
    Rep ⟨next, Function.update s.last i l.getLast?⟩
      ⟨Function.update t.rows i l, insert i t.live, gone⟩ := by
  have hout : ∀ j, j ≠ i → ∀ y ∈ t.rows j, y ∉ t.rows i ∧ y ∉ l := by
    intro j hj y hy
    have hyi : y ∉ t.rows i := fun hi => h.apart j i hj hy hi
    exact ⟨hyi, fun hl => hnew y hl hyi j hy⟩
  refine ⟨fun j => ?_, fun j hlive => ?_, fun j hlive => ?_, fun j k hjk => ?_, fun y hy => ?_⟩
  · change Ring next (Function.update t.rows i l j).getLast? (Function.update t.rows i l j)
    by_cases hj : j = i
    · subst hj
      rw [Function.update_self]
      exact hlinks.ring
    · rw [Function.update_of_ne hj]
      exact (h.ring j).congr fun y hy => hlinks.next_eq y (hout j hj y hy).1 (hout j hj y hy).2
  · change Function.update s.last i l.getLast? j = (Function.update t.rows i l j).getLast?
    by_cases hj : j = i
    · subst hj
      rw [Function.update_self, Function.update_self]
    · rw [Function.update_of_ne hj, Function.update_of_ne hj]
      exact h.last_eq j (Set.mem_of_mem_insert_of_ne hlive hj)
  · obtain ⟨hj, hlive⟩ := not_or.mp hlive
    exact (Function.update_of_ne hj _ _).trans (h.idle j hlive)
  · change (Function.update t.rows i l j).Disjoint (Function.update t.rows i l k)
    by_cases hj : j = i
    · subst hj
      rw [Function.update_self, Function.update_of_ne hjk.symm]
      exact fun y hy hk => (hout k hjk.symm y hk).2 hy
    · rw [Function.update_of_ne hj]
      by_cases hk : k = i
      · subst hk
        rw [Function.update_self]
        exact fun y hy hl => (hout j hj y hy).2 hl
      · rw [Function.update_of_ne hk]
        exact h.apart j k hjk
  · rcases hgone y hy with ⟨hy, hl⟩ | hnull
    · exact (hlinks.next_eq y (h.not_mem_of_gone hy i) hl).trans (h.null y hy)
    · exact hnull

omit [DecidableEq ν] in
theorem Rep.insert (h : Rep s t) (hlinks : Relinks s.next (t.rows i) next l)
    (hfresh : ∀ j, x ∉ t.rows j) (hmem : ∀ y ∈ l, y ∈ t.rows i ∨ y = x) :
    Rep ⟨next, Function.update s.last i l.getLast?⟩
      ⟨Function.update t.rows i l, Insert.insert i t.live, t.gone \ {x}⟩ := by
  refine h.change _ hlinks (fun y hy hyi j => ?_) fun y hy => Or.inl ⟨hy.1, fun hl => ?_⟩
  · rw [(hmem y hy).resolve_left hyi]
    exact hfresh j
  · exact (hmem y hl).elim (h.not_mem_of_gone hy.1 i) hy.2

omit [DecidableEq ν] in
theorem Rep.remove (h : Rep s t) (removed : Set ν) (hlive : i ∈ t.live)
    (hlinks : Relinks s.next (t.rows i) next l) (hsub : ∀ y ∈ l, y ∈ t.rows i)
    (hnull : ∀ y ∈ removed, next y = none) :
    Rep ⟨next, Function.update s.last i l.getLast?⟩
      ⟨Function.update t.rows i l, t.live, t.gone ∪ removed⟩ := by
  have hrep := h.change (t.gone ∪ removed) hlinks (fun y hy hyi => absurd (hsub y hy) hyi)
    fun y hy => ?_
  · rwa [Set.insert_eq_of_mem hlive] at hrep
  · rcases hy with hy | hy
    · exact Or.inl ⟨hy, fun hl => h.not_mem_of_gone hy i (hsub y hl)⟩
    · exact Or.inr (hnull y hy)

omit [DecidableEq ν] in
/-- **The nodes of two lists are divided in another way.** -/
theorem Rep.move (h : Rep s t) (hij : i ≠ j) {m : List ν} (hl : Ring next l.getLast? l)
    (hm : Ring next m.getLast? m) (hd : l.Disjoint m)
    (hsub : ∀ y, y ∈ l ∨ y ∈ m → y ∈ t.rows i ∨ y ∈ t.rows j)
    (hout : ∀ y, y ∉ t.rows i → y ∉ t.rows j → next y = s.next y) :
    Rep ⟨next, Function.update (Function.update s.last i l.getLast?) j m.getLast?⟩
      ⟨Function.update (Function.update t.rows i l) j m, Insert.insert i (Insert.insert j t.live),
        t.gone⟩ := by
  have hother : ∀ k, k ≠ i → k ≠ j → ∀ y ∈ t.rows k, y ∉ t.rows i ∧ y ∉ t.rows j := fun k hi hj y hy =>
    ⟨fun hyi => h.apart k i hi hy hyi, fun hyj => h.apart k j hj hy hyj⟩
  have hother' : ∀ k, k ≠ i → k ≠ j → ∀ y ∈ t.rows k, y ∉ l ∧ y ∉ m := by
    intro k hi hj y hy
    obtain ⟨hyi, hyj⟩ := hother k hi hj y hy
    exact ⟨fun hmem => (hsub y (Or.inl hmem)).elim hyi hyj,
      fun hmem => (hsub y (Or.inr hmem)).elim hyi hyj⟩
  have hrow : ∀ k, k ≠ i → k ≠ j →
      Function.update (Function.update t.rows i l) j m k = t.rows k := fun k hi hj =>
    (Function.update_of_ne hj _ _).trans (Function.update_of_ne hi _ _)
  have hrowi : Function.update (Function.update t.rows i l) j m i = l :=
    (Function.update_of_ne hij _ _).trans (Function.update_self _ _ _)
  have hrowj : Function.update (Function.update t.rows i l) j m j = m := Function.update_self _ _ _
  refine ⟨fun k => ?_, fun k hlive => ?_, fun k hlive => ?_, fun k k' hk => ?_, fun y hy => ?_⟩
  · dsimp only
    rcases eq_or_ne k j with rfl | hkj
    · rw [hrowj]
      exact hm
    rcases eq_or_ne k i with rfl | hki
    · rw [hrowi]
      exact hl
    · rw [hrow k hki hkj]
      exact (h.ring k).congr fun y hy =>
        hout y (hother k hki hkj y hy).1 (hother k hki hkj y hy).2
  · dsimp only
    rcases eq_or_ne k j with rfl | hkj
    · rw [hrowj, Function.update_self]
    rw [Function.update_of_ne hkj]
    rcases eq_or_ne k i with rfl | hki
    · rw [hrowi, Function.update_self]
    · rw [hrow k hki hkj, Function.update_of_ne hki]
      exact h.last_eq k (Set.mem_of_mem_insert_of_ne (Set.mem_of_mem_insert_of_ne hlive hki) hkj)
  · obtain ⟨hki, hlive⟩ := not_or.mp hlive
    obtain ⟨hkj, hlive⟩ := not_or.mp hlive
    exact (hrow k hki hkj).trans (h.idle k hlive)
  · dsimp only
    rcases eq_or_ne k j with rfl | hkj
    · rw [hrowj]
      rcases eq_or_ne k' i with rfl | hki
      · rw [hrowi]
        exact List.disjoint_comm.mp hd
      · rw [hrow k' hki hk.symm]
        exact fun y hy hy' => (hother' k' hki hk.symm y hy').2 hy
    rcases eq_or_ne k i with rfl | hki
    · rw [hrowi]
      rcases eq_or_ne k' j with rfl | hkj'
      · rw [hrowj]
        exact hd
      · rw [hrow k' hk.symm hkj']
        exact fun y hy hy' => (hother' k' hk.symm hkj' y hy').1 hy
    rw [hrow k hki hkj]
    rcases eq_or_ne k' j with rfl | hkj'
    · rw [hrowj]
      exact fun y hy hy' => (hother' k hki hkj y hy).2 hy'
    rcases eq_or_ne k' i with rfl | hki'
    · rw [hrowi]
      exact fun y hy hy' => (hother' k hki hkj y hy).1 hy'
    · rw [hrow k' hki' hkj']
      exact h.apart k k' hk
  · exact (hout y (h.not_mem_of_gone hy i) (h.not_mem_of_gone hy j)).trans (h.null y hy)

omit [DecidableEq ν] in
theorem Rep.removefirst (h : Rep s t) (hi : t.rows i = x :: l)
    (hlinks : Relinks s.next (x :: l) next l) (hnull : next x = none) :
    Rep ⟨next, Function.update s.last i l.getLast?⟩ (t.removefirst i).2 := by
  have hlive := h.live_of_ne (hi ▸ List.cons_ne_nil x l)
  rw [← hi] at hlinks
  have hrep := h.remove {y | (t.rows i).head? = some y} hlive hlinks
    (fun y hy => hi ▸ List.mem_cons_of_mem x hy) fun y hy => ?_
  · rw [Sequences.removefirst, hi] at *
    exact hrep
  · rw [hi] at hy
    exact Option.some.inj hy ▸ hnull

/-- **A step**: an operation whose preconditions hold succeeds, returns the same node, and leads to
lists that stand for the new sequences. -/
theorem call_refines (h : Rep s t) {op : Op ι ν} (hok : Allowed t op) :
    ∃ s', call (some s) op = ((perform t op).1, some s') ∧ Rep s' (perform t op).2 := by
  cases op with
  | init i =>
    have hlinks : Relinks s.next (t.rows i) s.next [] := ⟨ring_nil _, fun _ _ _ => rfl⟩
    have hrep := h.change t.gone hlinks (fun y hy => absurd hy List.not_mem_nil)
      fun y hy => Or.inl ⟨hy, List.not_mem_nil⟩
    have hrows : Function.update t.rows i [] = t.rows := by
      rw [← show t.rows i = [] from hok, Function.update_eq_self]
    rw [hrows] at hrep
    exact ⟨_, rfl, hrep⟩
  | initsingle i x =>
    obtain ⟨hnil, hx⟩ := hok
    have hlinks : Relinks s.next (t.rows i) (Function.update s.next x (some x)) [x] := by
      rw [hnil]
      exact relinks_singleton x s.next
    exact ⟨_, rfl, h.insert hlinks hx fun y hy => Or.inr (List.mem_singleton.mp hy)⟩
  | initsplit i j y =>
    obtain ⟨hij, hnil, hy⟩ := hok
    obtain ⟨l₁, l₂, hl, hparts⟩ := exists_parts (h.ring j).nodup hy
    have hring := h.ring j
    rw [hl] at hring
    obtain ⟨next, hcall, hback, hfront, hout⟩ := initsplitSlist_spec hring
    have hd := (List.nodup_append'.mp hring.nodup).2.2
    have hj := h.live_of_mem hy
    have hrep := h.move hij hback hfront (List.disjoint_comm.mp hd) (fun z hz => Or.inr ?_)
      fun z _ hz => hout z (hl ▸ hz)
    · rw [Set.insert_eq_of_mem hj] at hrep
      simp only [perform, hparts]
      refine ⟨_, ?_, hrep⟩
      rw [call, h.last_eq j hj, hl, hcall]
      rfl
    · rw [hl]
      exact List.mem_append.mpr hz.symm
  | insertfirst i x =>
    obtain ⟨hi, hx⟩ := hok
    obtain ⟨next, hcall, hlinks⟩ := insertfirstSlist_spec (h.ring i) (hx i)
    have hrep := h.insert hlinks hx fun y hy => (List.mem_cons.mp hy).symm
    rw [Set.insert_eq_of_mem hi] at hrep
    refine ⟨_, ?_, hrep⟩
    rw [call, h.last_eq i hi, hcall]
    rfl
  | insertlast i x =>
    obtain ⟨hi, hx⟩ := hok
    obtain ⟨next, hcall, hlinks⟩ := insertlastSlist_spec (h.ring i) (hx i)
    have hrep := h.insert hlinks hx fun y hy => by simpa using hy
    rw [Set.insert_eq_of_mem hi] at hrep
    refine ⟨_, ?_, hrep⟩
    rw [call, h.last_eq i hi, hcall]
    rfl
  | insertafter i y x =>
    obtain ⟨hy, hx⟩ := hok
    have hi := h.live_of_mem hy
    obtain ⟨l₁, l₂, hl, hparts⟩ := exists_parts (h.ring i).nodup hy
    have hring := h.ring i
    have hxi := hx i
    rw [hl] at hring hxi
    obtain ⟨next, hcall, hlinks⟩ := insertafterSlist_spec hring hxi
    rw [← hl] at hlinks
    have hrep := h.insert hlinks hx fun z hz => ?_
    · rw [Set.insert_eq_of_mem hi] at hrep
      simp only [perform, hparts]
      refine ⟨_, ?_, hrep⟩
      rw [call, h.last_eq i hi, hl, hcall]
      rfl
    · rw [hl]
      rcases List.mem_append.mp hz with hz | hz
      · exact Or.inl (List.mem_append_left l₂ hz)
      · rcases List.mem_cons.mp hz with rfl | hz
        · exact Or.inr rfl
        · exact Or.inl (List.mem_append_right _ hz)
  | removefirst i =>
    rcases hl : t.rows i with _ | ⟨x, l⟩
    · exact absurd hl hok
    have hring := h.ring i
    rw [hl] at hring
    obtain ⟨next, hcall, hlinks, hnull⟩ := removefirstSlist_spec hring
    refine ⟨_, ?_, h.removefirst hl hlinks hnull⟩
    rw [call, h.last_eq i (h.live_of_ne hok), hl, hcall, perform, Sequences.removefirst, hl]
    rfl
  | removeafter i y =>
    have hy : y ∈ t.rows i := hok
    have hi := h.live_of_mem hy
    obtain ⟨l₁, l₂, hl, hparts⟩ := exists_parts (h.ring i).nodup hy
    have hring := h.ring i
    rcases l₂ with _ | ⟨x, l₂⟩
    · -- `y` is the last node
      rw [List.append_nil] at hl
      have hlast : (t.rows i).getLast? = some y := by rw [hl, List.getLast?_concat]
      rcases hl' : t.rows i with _ | ⟨x, l⟩
      · exact absurd (hl' ▸ hy) List.not_mem_nil
      rw [hlast, hl'] at hring
      obtain ⟨next, hcall, hlinks, hnull⟩ := removeafterSlist_last hring
      simp only [perform, hparts]
      refine ⟨_, ?_, h.removefirst hl' hlinks hnull⟩
      rw [call, h.last_eq i hi, hlast, hcall, Sequences.removefirst, hl']
      rfl
    · rw [hl] at hring
      obtain ⟨next, hcall, hlinks, hnull⟩ := removeafterSlist_spec hring
      rw [← hl] at hlinks
      have hrep := h.remove {x} hi hlinks (fun z hz => ?_) fun z hz => ?_
      · simp only [perform, hparts]
        refine ⟨_, ?_, hrep⟩
        rw [call, h.last_eq i hi, hl, hcall]
        rfl
      · rw [hl]
        rcases List.mem_append.mp hz with hz | hz
        · exact List.mem_append_left _ hz
        · exact List.mem_append_right _ (List.mem_cons_of_mem x hz)
      · rw [Set.mem_singleton_iff.mp hz]
        exact hnull
  | insertfirstPlist i j =>
    obtain ⟨hij, hi, hj⟩ := hok
    obtain ⟨next, hcall, hring, hout⟩ :=
      insertfirstPlistSlist_spec (h.ring i) (h.ring j) (h.apart i j hij)
    have hrep := h.move hij (m := []) hring (ring_nil next) (List.disjoint_nil_right _) (fun y hy => ?_) hout
    · rw [Set.insert_eq_of_mem hj, Set.insert_eq_of_mem hi] at hrep
      refine ⟨_, ?_, hrep⟩
      rw [call, h.last_eq i hi, h.last_eq j hj, hcall]
      rfl
    · rcases hy with hy | hy
      · exact (List.mem_append.mp hy).symm
      · exact absurd hy List.not_mem_nil
  | insertlastPlist i j =>
    obtain ⟨hij, hi, hj⟩ := hok
    obtain ⟨next, hcall, hring, hout⟩ :=
      insertlastPlistSlist_spec (h.ring i) (h.ring j) (h.apart i j hij)
    have hrep := h.move hij (m := []) hring (ring_nil next) (List.disjoint_nil_right _) (fun y hy => ?_) hout
    · rw [Set.insert_eq_of_mem hj, Set.insert_eq_of_mem hi] at hrep
      refine ⟨_, ?_, hrep⟩
      rw [call, h.last_eq i hi, h.last_eq j hj, hcall]
      rfl
    · rcases hy with hy | hy
      · exact List.mem_append.mp hy
      · exact absurd hy List.not_mem_nil

omit [DecidableEq ν] [DecidableEq ι] in
theorem rep_init (next : ν → Option ν) (last : ι → Option ν) :
    Rep ⟨next, last⟩ ⟨fun _ => [], ∅, ∅⟩ :=
  ⟨fun _ => ring_nil next, fun i hi => absurd hi (Set.notMem_empty i), fun _ _ => rfl,
    fun _ _ _ => List.disjoint_nil_left [], fun x hx => absurd hx (Set.notMem_empty x)⟩

/-- The list whose last node is `last` consists of the nodes of `l`. -/
structure Enumerates (next : ν → Option ν) (last : Option ν) (l : List ν) : Prop where
  nodup : l.Nodup
  last_eq : last = l.getLast?
  last_eq_none_iff : last = none ↔ l = []
  first_eq : firstSlist next last = l.head?
  /-- From the first node on up to the last one the nodes are met in order. -/
  follow_eq : ∀ a, firstSlist next last = some a → ∀ b, last = some b → ∀ n, l.length ≤ n →
    follow next b n a = some l
  iterated_eq : ∀ n, iterated next last n (firstSlist next last) = (List.range n).map fun k => l[k]?

theorem enumerates (h : Ring next l.getLast? l) : Enumerates next l.getLast? l := by
  have hfirst : firstSlist next l.getLast? = l.head? := by
    rcases l with _ | ⟨a, l⟩
    · rfl
    · rw [List.getLast?_eq_some_getLast (List.cons_ne_nil a l)]
      exact (h.path a l rfl).next_getLast
  refine ⟨h.nodup, rfl, List.getLast?_eq_none_iff, hfirst, fun a ha b hb n hn => ?_, Ring.iterated_eq h⟩
  rcases l with _ | ⟨c, l⟩
  · exact absurd hb.symm (Option.some_ne_none b)
  · obtain rfl : c = a := Option.some.inj (hfirst.symm.trans ha)
    rw [List.getLast?_eq_some_getLast (List.cons_ne_nil c l)] at hb
    rw [← Option.some.inj hb]
    exact follow_chain h.nodup (h.path c l rfl).isChain hn

/-- **Runs on any number of lists.** A run whose operations are used within their preconditions
never meets a null pointer and returns the removed nodes. Afterwards every list consists of its
sequence, no node stands in two lists, and the removed nodes have null links. -/
theorem slist_refines (next : ν → Option ν) (last : ι → Option ν) {ops : List (Op ι ν)}
    (hok : Along perform Allowed ⟨fun _ => [], ∅, ∅⟩ ops) :
    let t := (run perform ⟨fun _ => [], ∅, ∅⟩ ops).2
    ∃ s, run call (some ⟨next, last⟩) ops =
        ((run perform ⟨fun _ => [], ∅, ∅⟩ ops).1, some s) ∧
      (∀ i ∈ t.live, Enumerates s.next (s.last i) (t.rows i)) ∧
      (∀ i j, i ≠ j → (t.rows i).Disjoint (t.rows j)) ∧ ∀ x ∈ t.gone, s.next x = none := by
  intro t
  have hstep : ∀ (t : Sequences ι ν) (s : Option (Lists ι ν)) op, (∃ s', s = some s' ∧ Rep s' t) →
      Allowed t op → (perform t op).1 = (call s op).1 ∧
        ∃ s', (call s op).2 = some s' ∧ Rep s' (perform t op).2 := by
    rintro t _ op ⟨s, rfl, h⟩ hop
    obtain ⟨s', hcall, h'⟩ := call_refines h hop
    rw [hcall]
    exact ⟨rfl, s', rfl, h'⟩
  obtain ⟨hout, s, hs, h⟩ := run_refines hstep ⟨_, rfl, rep_init next last⟩ hok
  refine ⟨s, Prod.ext hout.symm hs, fun i hi => ?_, h.apart, h.null⟩
  rw [h.last_eq i hi]
  exact enumerates (h.ring i)

/-- Two lists: one of them is cut, and the parts are joined in the other order. -/
theorem slist_refines_two :
    ∃ s, (run call (some ⟨fun _ => none, fun _ => none⟩)
        [Op.initsingle true 1, .insertlast true 2, .insertfirst true 3, .insertafter true 1 4,
          .initsplit false true 1, .insertfirstPlist true false, .removeafter true 1]).2 = some s ∧
      Enumerates s.next (s.last true) [2, 3, 1] ∧ s.last false = none ∧ s.next 4 = none := by
  have hok : Along perform Allowed ⟨fun _ => [], ∅, ∅⟩ [Op.initsingle true 1, .insertlast true 2,
      .insertfirst true 3, .insertafter true 1 4, .initsplit false true 1,
      .insertfirstPlist true false, .removeafter true 1] := by
    simp [Along, perform, Allowed, parts, Function.update_apply]
  obtain ⟨s, hrun, hlists, -, hnull⟩ := slist_refines (fun _ => none) (fun _ => none) hok
  have htrue := hlists true (by simp [run, perform, parts, Sequences.removefirst])
  have hfalse := hlists false (by simp [run, perform, parts, Sequences.removefirst])
  have hgone := hnull 4 (by simp [run, perform, parts, Sequences.removefirst])
  exact ⟨s, by rw [hrun], htrue, hfalse.last_eq, hgone⟩

end Slist
end CKern
