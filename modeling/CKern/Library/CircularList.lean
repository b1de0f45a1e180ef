import Mathlib.Data.List.Basic
import Mathlib.Data.List.Chain
import Mathlib.Data.List.Nodup
import Mathlib.Logic.Function.Basic

/-!
# A circular list that is known by its last element

* `Path`: pointers that lead from an element over a list to another one.
* `Ring`: the elements of a circular list in order, of which only the last one is known; it points
  to the first one.
* `Ring.splice`, `Ring.remove`: a row of new elements is put behind the last one, and the first one
  is taken away.
* `Ring.from_last`: the way round from the last element.
* `swap`, `Ring.join`, `Ring.split`: two elements exchange their successors, by which two rings
  become one, or one becomes two.
-/

namespace CKern
namespace CircularList

variable {α : Type*} {next next' : α → Option α} {a b z : α} {l m q : List α} {last : Option α}

/-! ## Paths -/

/-- The pointers lead from `a` over the elements of `l` to `z`. -/
def Path (next : α → Option α) : α → List α → α → Prop
  | a, [], z => next a = some z
  | a, b :: l, z => next a = some b ∧ Path next b l z

theorem path_append : Path next a (l ++ b :: m) z ↔ Path next a l b ∧ Path next b m z := by
  induction l generalizing a with
  | nil => exact Iff.rfl
  | cons c l ih => rw [List.cons_append, Path, Path, ih, and_assoc]

theorem Path.congr (h : Path next a l z) (heq : ∀ x ∈ a :: l, next' x = next x) :
    Path next' a l z := by
  induction l generalizing a with
  | nil => exact (heq a List.mem_cons_self).trans h
  | cons b l ih =>
    exact ⟨(heq a List.mem_cons_self).trans h.1,
      ih h.2 fun x hx => heq x (List.mem_cons_of_mem a hx)⟩

theorem Path.next_getLast (h : Path next a l z) :
    next ((a :: l).getLast (List.cons_ne_nil a l)) = some z := by
  induction l generalizing a with
  | nil => exact h
  | cons b l ih =>
    rw [List.getLast_cons (List.cons_ne_nil b l)]
    exact ih h.2

theorem Path.next_ne_none (h : Path next a l z) {x : α} (hx : x ∈ a :: l) : next x ≠ none := by
  induction l generalizing a with
  | nil =>
    rw [List.mem_singleton.mp hx, show next a = some z from h]
    exact Option.some_ne_none z
  | cons b l ih =>
    rcases List.mem_cons.mp hx with rfl | hx
    · rw [h.1]
      exact Option.some_ne_none b
    · exact ih h.2 hx

theorem Path.isChain (h : Path next a l z) : (a :: l).IsChain fun x y => next x = some y := by
  induction l generalizing a with
  | nil => exact List.isChain_singleton a
  | cons b l ih => exact List.isChain_cons_cons.mpr ⟨h.1, ih h.2⟩

variable [DecidableEq α]

theorem Path.update_last (hnd : (a :: l).Nodup) (h : Path next a l z) (z' : α) :
    Path (Function.update next ((a :: l).getLast (List.cons_ne_nil a l)) (some z')) a l z' := by
  induction l generalizing a with
  | nil => exact Function.update_self _ _ _
  | cons b l ih =>
    rw [List.getLast_cons (List.cons_ne_nil b l)]
    refine ⟨?_, ih hnd.of_cons h.2⟩
    rw [Function.update_of_ne]
    · exact h.1
    · rintro rfl
      exact (List.nodup_cons.mp hnd).1 (List.getLast_mem (List.cons_ne_nil b l))

/-- Every element of a row is given the pointer to the one behind it, from the end on. -/
def link : List α → (α → Option α) → α → Option α
  | a :: b :: l, next => Function.update (link (b :: l) next) a (some b)
  | _, next => next

theorem link_of_not_mem (h : z ∉ l) : link l next z = next z := by
  induction l with
  | nil => rfl
  | cons a l ih =>
    cases l with
    | nil => rfl
    | cons b l =>
      rw [link, Function.update_of_ne (List.ne_of_not_mem_cons h),
        ih (List.not_mem_of_not_mem_cons h)]

theorem path_link (hnd : (a :: l).Nodup)
    (h : next ((a :: l).getLast (List.cons_ne_nil a l)) = some z) :
    Path (link (a :: l) next) a l z := by
  induction l generalizing a with
  | nil => exact h
  | cons b l ih =>
    rw [List.getLast_cons (List.cons_ne_nil b l)] at h
    refine ⟨Function.update_self _ _ _, (ih hnd.of_cons h).congr fun x hx => ?_⟩
    refine Function.update_of_ne ?_ _ _
    rintro rfl
    exact (List.nodup_cons.mp hnd).1 hx

/-! ## Rings -/

/-- The elements of a circular list: `last` is the last one of them, and points to the first one. -/
structure Ring (next : α → Option α) (last : Option α) (q : List α) : Prop where
  nodup : q.Nodup
  last_eq : last = q.getLast?
  path : ∀ a l, q = a :: l → Path next a l a

omit [DecidableEq α] in
theorem ring_nil (next : α → Option α) : Ring next none [] :=
  ⟨List.nodup_nil, rfl, fun _ _ h => absurd h.symm (List.cons_ne_nil _ _)⟩

omit [DecidableEq α] in
theorem Ring.eq_nil (h : Ring next none q) : q = [] :=
  List.getLast?_eq_none_iff.mp h.last_eq.symm

omit [DecidableEq α] in
theorem Ring.congr (h : Ring next last q) (heq : ∀ x ∈ q, next' x = next x) : Ring next' last q :=
  ⟨h.nodup, h.last_eq, fun a l hq => (h.path a l hq).congr fun x hx => heq x (hq ▸ hx)⟩

omit [DecidableEq α] in
theorem Ring.next_ne_none (h : Ring next last q) (hz : z ∈ q) : next z ≠ none := by
  rcases q with _ | ⟨a, l⟩
  · exact absurd hz List.not_mem_nil
  · exact (h.path a l rfl).next_ne_none hz

omit [DecidableEq α] in
theorem Ring.first (h : Ring next (some z) q) :
    ∃ a l, q = a :: l ∧ z = (a :: l).getLast (List.cons_ne_nil a l) ∧ next z = some a := by
  rcases q with _ | ⟨a, l⟩
  · exact absurd h.last_eq (Option.some_ne_none z)
  · have hz : z = (a :: l).getLast (List.cons_ne_nil a l) := by
      have hlast := h.last_eq
      rw [List.getLast?_eq_some_getLast (List.cons_ne_nil a l)] at hlast
      exact Option.some.inj hlast
    exact ⟨a, l, rfl, hz, hz ▸ (h.path a l rfl).next_getLast⟩

/-- **The first element is taken away.** -/
theorem Ring.remove (h : Ring next (some z) (a :: l)) :
    Ring (Function.update (Function.update next z (next a)) a none)
      (if a = z then none else some z) l := by
  obtain ⟨a', l', hq, hz, -⟩ := h.first
  obtain ⟨rfl, rfl⟩ := List.cons.inj hq
  have hnd := List.nodup_cons.mp h.nodup
  have hpath := h.path a l rfl
  rcases l with _ | ⟨b, l⟩
  · have haz : a = z := hz.symm
    rw [if_pos haz]
    exact ring_nil _
  · rw [List.getLast_cons (List.cons_ne_nil b l)] at hz
    have haz : a ≠ z := by
      rintro rfl
      exact hnd.1 (hz ▸ List.getLast_mem (List.cons_ne_nil b l))
    rw [if_neg haz]
    refine ⟨hnd.2, ?_, fun b' l' heq => ?_⟩
    · rw [hz, List.getLast?_eq_some_getLast (List.cons_ne_nil b l)]
    · obtain ⟨rfl, rfl⟩ := List.cons.inj heq
      rw [hpath.1, hz]
      refine (Path.update_last hnd.2 hpath.2 b).congr fun x hx => ?_
      refine Function.update_of_ne ?_ _ _
      rintro rfl
      exact hnd.1 hx

/-- **A row of new elements behind the last one.** -/
theorem Ring.splice (h : Ring next (some z) q) (hnd : (b :: m).Nodup) (hd : ∀ x ∈ b :: m, x ∉ q) :
    Ring (link (b :: m) (Function.update (Function.update next
      ((b :: m).getLast (List.cons_ne_nil b m)) (next z)) z (some b)))
        (some ((b :: m).getLast (List.cons_ne_nil b m))) (q ++ b :: m) := by
  obtain ⟨a, l, rfl, hz, hfirst⟩ := h.first
  have hmem : z ∈ a :: l := hz ▸ List.getLast_mem (List.cons_ne_nil a l)
  have hne : (b :: m).getLast (List.cons_ne_nil b m) ≠ z := by
    intro heq
    exact hd _ (List.getLast_mem (List.cons_ne_nil b m)) (heq ▸ hmem)
  refine ⟨List.nodup_append.mpr ⟨h.nodup, hnd, fun x hx y hy hxy => hd y hy (hxy ▸ hx)⟩, ?_,
    fun a' l' heq => ?_⟩
  · rw [List.getLast?_append_of_ne_nil _ (List.cons_ne_nil b m),
      List.getLast?_eq_some_getLast (List.cons_ne_nil b m)]
  · rw [List.cons_append] at heq
    obtain ⟨rfl, rfl⟩ := List.cons.inj heq
    rw [path_append]
    constructor
    · have hturn := Path.update_last h.nodup (h.path a l rfl) b
      rw [← hz] at hturn
      refine hturn.congr fun x hx => ?_
      have hx' : x ∉ b :: m := fun hxm => hd x hxm hx
      rw [link_of_not_mem hx']
      rcases eq_or_ne x z with rfl | hxz
      · rw [Function.update_self, Function.update_self]
      · rw [Function.update_of_ne hxz, Function.update_of_ne hxz, Function.update_of_ne]
        rintro rfl
        exact hx' (List.getLast_mem (List.cons_ne_nil b m))
    · refine path_link hnd ?_
      rw [Function.update_of_ne hne, Function.update_self, hfirst]

theorem ring_of_link (hnd : (b :: m).Nodup) :
    Ring (link (b :: m) (Function.update next ((b :: m).getLast (List.cons_ne_nil b m)) (some b)))
      (some ((b :: m).getLast (List.cons_ne_nil b m))) (b :: m) := by
  refine ⟨hnd, (List.getLast?_eq_some_getLast (List.cons_ne_nil b m)).symm, fun a l heq => ?_⟩
  obtain ⟨rfl, rfl⟩ := List.cons.inj heq
  exact path_link hnd (Function.update_self _ _ _)

omit [DecidableEq α] in
theorem Ring.from_last (h : Ring next (some z) q) : ∃ l, q = l ++ [z] ∧ Path next z l z := by
  obtain ⟨a, l, rfl, hz, hfirst⟩ := h.first
  have hpath := h.path a l rfl
  have hsplit := List.dropLast_append_getLast (List.cons_ne_nil a l)
  rw [← hz] at hsplit
  refine ⟨(a :: l).dropLast, hsplit.symm, ?_⟩
  rcases l with _ | ⟨b, l⟩
  · have haz : z = a := hz
    rw [haz] at hfirst ⊢
    exact hfirst
  · rw [List.dropLast_cons_cons] at hsplit ⊢
    have htail : b :: l = (b :: l).dropLast ++ [z] := (List.cons.inj hsplit).2.symm
    rw [htail, path_append] at hpath
    exact ⟨hfirst, hpath.1⟩

/-! ## Successors that are exchanged -/

omit [DecidableEq α] in
theorem ring_append_iff : Ring next last (a :: l ++ b :: m) ↔ (a :: l ++ b :: m).Nodup ∧
    last = (b :: m).getLast? ∧ Path next a l b ∧ Path next b m a := by
  constructor
  · intro h
    have hlast := h.last_eq
    rw [List.getLast?_append_of_ne_nil _ (List.cons_ne_nil b m)] at hlast
    exact ⟨h.nodup, hlast, path_append.mp (h.path a (l ++ b :: m) rfl)⟩
  · rintro ⟨hnd, hlast, hpath⟩
    refine ⟨hnd, ?_, fun a' l' heq => ?_⟩
    · rw [hlast, List.getLast?_append_of_ne_nil _ (List.cons_ne_nil b m)]
    · rw [List.cons_append] at heq
      obtain ⟨rfl, rfl⟩ := List.cons.inj heq
      exact path_append.mpr hpath

omit [DecidableEq α] in
theorem ring_cons_iff : Ring next last (a :: l) ↔
    (a :: l).Nodup ∧ last = (a :: l).getLast? ∧ Path next a l a := by
  constructor
  · exact fun h => ⟨h.nodup, h.last_eq, h.path a l rfl⟩
  · rintro ⟨hnd, hlast, hpath⟩
    refine ⟨hnd, hlast, fun a' l' heq => ?_⟩
    obtain ⟨rfl, rfl⟩ := List.cons.inj heq
    exact hpath

omit [DecidableEq α] in
/-- **Rotation**: a ring may be read from every element of it. -/
theorem Ring.rotate (h : Ring next last (l ++ m)) : Ring next (m ++ l).getLast? (m ++ l) := by
  rcases l with _ | ⟨a, l⟩
  · rw [List.append_nil]
    exact h.last_eq ▸ h
  rcases m with _ | ⟨b, m⟩
  · rw [List.append_nil] at h
    exact h.last_eq ▸ h
  · obtain ⟨hnd, -, hab, hba⟩ := ring_append_iff.mp h
    rw [List.getLast?_append_of_ne_nil _ (List.cons_ne_nil a l)]
    exact ring_append_iff.mpr ⟨List.nodup_append_comm.mp hnd, rfl, hba, hab⟩

/-- `x` and `y` exchange their successors. -/
def swap (next : α → Option α) (x y : α) : α → Option α :=
  Function.update (Function.update next x (next y)) y (next x)

theorem swap_of_ne {x y : α} (hx : z ≠ x) (hy : z ≠ y) : swap next x y z = next z := by
  rw [swap, Function.update_of_ne hy, Function.update_of_ne hx]

theorem swap_comm (next : α → Option α) (x y : α) : swap next x y = swap next y x := by
  rcases eq_or_ne x y with rfl | hne
  · rfl
  · exact Function.update_comm hne _ _ next

theorem Path.swap {y z' : α} (h : Path next a l z) (hnd : (a :: l).Nodup) (hy : y ∉ a :: l)
    (hz : next y = some z') :
    Path (swap next ((a :: l).getLast (List.cons_ne_nil a l)) y) a l z' := by
  refine (h.update_last hnd z').congr fun x hx => ?_
  rw [CircularList.swap, hz, Function.update_of_ne (ne_of_mem_of_not_mem hx hy)]

variable {x y : α}

/-- **Two rings become one** when their last elements exchange their successors. -/
theorem Ring.join (hl : Ring next (some x) l) (hm : Ring next (some y) m) (hd : l.Disjoint m) :
    Ring (swap next x y) (some y) (l ++ m) := by
  obtain ⟨a, l, rfl, rfl, ha⟩ := hl.first
  obtain ⟨b, m, rfl, rfl, hb⟩ := hm.first
  have hx := List.getLast_mem (List.cons_ne_nil a l)
  have hy := List.getLast_mem (List.cons_ne_nil b m)
  refine ring_append_iff.mpr ⟨List.nodup_append'.mpr ⟨hl.nodup, hm.nodup, hd⟩,
    (List.getLast?_eq_some_getLast (List.cons_ne_nil b m)).symm, ?_, ?_⟩
  · exact (hl.path a l rfl).swap hl.nodup (fun hmem => hd hmem hy) hb
  · rw [swap_comm]
    exact (hm.path b m rfl).swap hm.nodup (fun hmem => hd hx hmem) ha

/-- **A ring becomes two** when the last elements of its parts exchange their successors. -/
theorem Ring.split (h : Ring next last (l ++ m)) (hx : l.getLast? = some x)
    (hy : m.getLast? = some y) : Ring (swap next x y) (some x) l ∧ Ring (swap next x y) (some y) m := by
  rcases l with _ | ⟨a, l⟩
  · exact absurd hx.symm (Option.some_ne_none x)
  rcases m with _ | ⟨b, m⟩
  · exact absurd hy.symm (Option.some_ne_none y)
  obtain ⟨hnd, -, hab, hba⟩ := ring_append_iff.mp h
  obtain ⟨hndl, hndm, hd⟩ := List.nodup_append'.mp hnd
  rw [List.getLast?_eq_some_getLast (List.cons_ne_nil _ _), Option.some_inj] at hx hy
  subst hx hy
  have hx := List.getLast_mem (List.cons_ne_nil a l)
  have hy := List.getLast_mem (List.cons_ne_nil b m)
  refine ⟨ring_cons_iff.mpr ⟨hndl, ?_, ?_⟩, ring_cons_iff.mpr ⟨hndm, ?_, ?_⟩⟩
  · exact (List.getLast?_eq_some_getLast (List.cons_ne_nil a l)).symm
  · exact hab.swap hndl (fun hmem => hd hmem hy) hba.next_getLast
  · exact (List.getLast?_eq_some_getLast (List.cons_ne_nil b m)).symm
  · rw [swap_comm]
    exact hba.swap hndm (fun hmem => hd hx hmem) hab.next_getLast

theorem ring_singleton (a : α) (next : α → Option α) :
    Ring (Function.update next a (some a)) (some a) [a] :=
  ring_cons_iff.mpr ⟨List.nodup_singleton a, rfl, Function.update_self _ _ _⟩

end CircularList
end CKern
