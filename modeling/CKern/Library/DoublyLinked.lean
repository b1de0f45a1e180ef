import Mathlib.Data.List.Chain
import Mathlib.Data.List.Nodup
import Mathlib.Logic.Function.Basic

/-!
# Circles of doubly linked nodes

* `Links`: the two pointers of every node.
* `Circle`: the nodes of a circular list in order. The last one is followed by the first one, and
  a node is always the predecessor of its successor.
* `Circle.rotate`: a circle may be read from every node of it.
* `Circle.join`, `Circle.cut`: two circles become one when their last nodes exchange their
  successors, and a part of a circle becomes one when its ends are joined.
* `Turns`: a circle is turned into another one, and the other nodes are left alone.
* `follow`: the nodes that are met on the way from a node to another one, in either direction.
-/

namespace CKern
namespace DoublyLinked

variable {ν : Type*}

/-- The pointers of the nodes. -/
@[ext] structure Links (ν : Type*) where
  next : ν → Option ν
  prev : ν → Option ν

/-- `b` follows `a`. -/
def Linked (links : Links ν) (a b : ν) : Prop :=
  links.next a = some b ∧ links.prev b = some a

/-! ## Circles -/

/-- The nodes of a circular list, from the first one to the last one. -/
structure Circle (links : Links ν) (l : List ν) : Prop where
  nodup : l.Nodup
  chain : l.IsChain (Linked links)
  closed : ∀ b ∈ l.getLast?, ∀ a ∈ l.head?, Linked links b a

variable {links links' : Links ν} {a b c : ν} {l m : List ν}

theorem circle_nil (links : Links ν) : Circle links [] :=
  ⟨List.nodup_nil, .nil, fun b hb => absurd hb (Option.not_mem_none b)⟩

/-- **Rotation**: a circle may be read from every node of it. -/
theorem Circle.rotate (h : Circle links (l ++ m)) : Circle links (m ++ l) := by
  rcases l with _ | ⟨a, l⟩
  · rwa [List.append_nil]
  rcases m with _ | ⟨c, m⟩
  · rwa [List.append_nil] at h
  obtain ⟨hl, hm, hlink⟩ := List.isChain_append.mp h.chain
  have hclosed := h.closed
  rw [List.getLast?_append_of_ne_nil _ (List.cons_ne_nil c m)] at hclosed
  refine ⟨List.nodup_append_comm.mp h.nodup, hm.append hl hclosed, fun b hb x hx => ?_⟩
  rw [List.getLast?_append_of_ne_nil _ (List.cons_ne_nil a l)] at hb
  exact hlink b hb x hx

theorem Circle.congr (h : Circle links l) (hnext : ∀ x ∈ l, links'.next x = links.next x)
    (hprev : ∀ x ∈ l, links'.prev x = links.prev x) : Circle links' l := by
  have hlinked : ∀ x y, x ∈ l → y ∈ l → Linked links x y → Linked links' x y :=
    fun x y hx hy hxy => ⟨(hnext x hx).trans hxy.1, (hprev y hy).trans hxy.2⟩
  exact ⟨h.nodup, h.chain.imp_of_mem_imp hlinked, fun b hb a ha =>
    hlinked b a (List.mem_of_getLast? hb) (List.mem_of_head? ha) (h.closed b hb a ha)⟩

theorem Circle.exists_next (h : Circle links l) (ha : a ∈ l) : ∃ b ∈ l, Linked links a b := by
  obtain ⟨l₁, l₂, rfl⟩ := List.append_of_mem ha
  have hrot := h.rotate
  rw [List.cons_append] at hrot
  rcases hl : l₂ ++ l₁ with _ | ⟨c, m⟩
  · rw [hl] at hrot
    exact ⟨a, ha, hrot.closed a rfl a rfl⟩
  · rw [hl] at hrot
    have hc : c ∈ l₂ ++ l₁ := hl ▸ List.mem_cons_self
    refine ⟨c, ?_, (List.isChain_cons_cons.mp hrot.chain).1⟩
    rcases List.mem_append.mp hc with hc | hc
    · exact List.mem_append_right l₁ (List.mem_cons_of_mem a hc)
    · exact List.mem_append_left _ hc

theorem Circle.exists_prev (h : Circle links l) (ha : a ∈ l) : ∃ b ∈ l, Linked links b a := by
  obtain ⟨l₁, l₂, rfl⟩ := List.append_of_mem ha
  have hrot := h.rotate
  rw [List.cons_append] at hrot
  obtain ⟨b, hb⟩ : ∃ b, b ∈ (a :: (l₂ ++ l₁)).getLast? :=
    ⟨_, List.getLast?_eq_some_getLast (List.cons_ne_nil a _)⟩
  refine ⟨b, ?_, hrot.closed b hb a rfl⟩
  have hmem := List.mem_of_getLast? hb
  simp only [List.mem_cons, List.mem_append] at hmem ⊢
  tauto

theorem Circle.exists_ends (h : Circle links l) (hne : l ≠ []) :
    ∃ a ∈ l, ∃ b ∈ l, l.head? = some a ∧ l.getLast? = some b ∧ Linked links b a := by
  have ha := List.head?_eq_some_head hne
  have hb := List.getLast?_eq_some_getLast hne
  exact ⟨_, List.head_mem hne, _, List.getLast_mem hne, ha, hb, h.closed _ hb _ ha⟩

/-! ## Changes -/

variable [DecidableEq ν]

def setNext (a : ν) (p : Option ν) (links : Links ν) : Links ν :=
  ⟨Function.update links.next a p, links.prev⟩

def setPrev (a : ν) (p : Option ν) (links : Links ν) : Links ν :=
  ⟨links.next, Function.update links.prev a p⟩

/-- `b` is made the successor of `a`. -/
def link (a b : ν) (links : Links ν) : Links ν :=
  ⟨Function.update links.next a (some b), Function.update links.prev b (some a)⟩

/-- The pointers of a node are cleared. -/
def clear (a : ν) (links : Links ν) : Links ν :=
  ⟨Function.update links.next a none, Function.update links.prev a none⟩

theorem clear_self (a : ν) (links : Links ν) :
    (clear a links).next a = none ∧ (clear a links).prev a = none :=
  ⟨Function.update_self _ _ _, Function.update_self _ _ _⟩

theorem clear_of_ne (h : b ≠ a) (links : Links ν) :
    (clear a links).next b = links.next b ∧ (clear a links).prev b = links.prev b :=
  ⟨Function.update_of_ne h _ _, Function.update_of_ne h _ _⟩

theorem linked_link (a b : ν) (links : Links ν) : Linked (link a b links) a b :=
  ⟨Function.update_self _ _ _, Function.update_self _ _ _⟩

theorem Linked.link_of_ne {x y : ν} (h : Linked links x y) (hx : x ≠ a) (hy : y ≠ b) :
    Linked (link a b links) x y :=
  ⟨(Function.update_of_ne hx _ _).trans h.1, (Function.update_of_ne hy _ _).trans h.2⟩

theorem Circle.link_of_not_mem (h : Circle links l) (ha : a ∉ l) (hb : b ∉ l) :
    Circle (link a b links) l :=
  h.congr (fun _ hx => Function.update_of_ne (ne_of_mem_of_not_mem hx ha) _ _)
    fun _ hx => Function.update_of_ne (ne_of_mem_of_not_mem hx hb) _ _

theorem Circle.clear_of_not_mem (h : Circle links l) (ha : a ∉ l) : Circle (clear a links) l :=
  h.congr (fun _ hx => (clear_of_ne (ne_of_mem_of_not_mem hx ha) links).1)
    fun _ hx => (clear_of_ne (ne_of_mem_of_not_mem hx ha) links).2

theorem circle_singleton (a : ν) (links : Links ν) : Circle (link a a links) [a] := by
  refine ⟨List.nodup_singleton a, List.isChain_singleton a, fun b hb c hc => ?_⟩
  rw [← Option.some.inj hb, ← Option.some.inj hc]
  exact linked_link a a links

theorem isChain_link (h : l.IsChain (Linked links)) (hnd : l.Nodup)
    (ha : a ∈ l → l.getLast? = some a) (hb : b ∈ l → l.head? = some b) :
    l.IsChain (Linked (link a b links)) := by
  induction l with
  | nil => exact .nil
  | cons x l ih =>
    rcases l with _ | ⟨y, l⟩
    · exact List.isChain_singleton x
    obtain ⟨hxy, hchain⟩ := List.isChain_cons_cons.mp h
    have hnot := (List.nodup_cons.mp hnd).1
    rw [List.getLast?_cons_cons] at ha
    have hx : x ≠ a := by
      rintro rfl
      exact hnot (List.mem_of_getLast? (ha List.mem_cons_self))
    have hy : ∀ z ∈ y :: l, z ≠ b := by
      rintro z hz rfl
      exact hnot (Option.some.inj (hb (List.mem_cons_of_mem x hz)) ▸ hz)
    refine List.isChain_cons_cons.mpr ⟨hxy.link_of_ne hx (hy y List.mem_cons_self), ?_⟩
    exact ih hchain hnd.of_cons (fun hmem => ha (List.mem_cons_of_mem x hmem))
      fun hmem => absurd rfl (hy b hmem)

/-- **A part of a circle becomes a circle when its ends are joined.** -/
theorem Circle.cut (h : Circle links (l ++ m)) (hb : l.getLast? = some b) (ha : l.head? = some a) :
    Circle (link b a links) l := by
  have hnd := h.nodup.of_append_left
  refine ⟨hnd, isChain_link h.chain.left_of_append hnd (fun _ => hb) (fun _ => ha), ?_⟩
  rw [hb, ha]
  rintro _ ⟨⟩ _ ⟨⟩
  exact linked_link b a links

/-- **Two circles become one when their last nodes exchange their successors.** -/
theorem Circle.join {b' a' : ν} (hl : Circle links l) (hm : Circle links m) (hd : l.Disjoint m)
    (hb : l.getLast? = some b) (ha : l.head? = some a) (hb' : m.getLast? = some b')
    (ha' : m.head? = some a') : Circle (link b' a (link b a' links)) (l ++ m) := by
  have hlb := List.mem_of_getLast? hb
  have hla := List.mem_of_head? ha
  have hmb := List.mem_of_getLast? hb'
  have hma := List.mem_of_head? ha'
  have hl' := isChain_link (isChain_link hl.chain hl.nodup (fun _ => hb)
    fun h => (hd h hma).elim) hl.nodup (fun h => (hd h hmb).elim) (fun _ => ha)
  have hm' := isChain_link (isChain_link hm.chain hm.nodup (fun h => (hd hlb h).elim)
    fun _ => ha') hm.nodup (fun _ => hb') (fun h => (hd hla h).elim)
  have hmid : Linked (link b' a (link b a' links)) b a' :=
    (linked_link b a' links).link_of_ne (fun he => hd hlb (he ▸ hmb)) fun he => hd (he ▸ hla) hma
  refine ⟨List.nodup_append'.mpr ⟨hl.nodup, hm.nodup, hd⟩, hl'.append hm' ?_, ?_⟩
  · rw [hb, ha']
    rintro _ ⟨⟩ _ ⟨⟩
    exact hmid
  · rw [List.getLast?_append, hb', List.head?_append, ha]
    rintro _ ⟨⟩ _ ⟨⟩
    exact linked_link b' a _

/-- `x` is put between the last node `b` of a circle and the first one `a`. -/
def insertLinks (b a x : ν) (links : Links ν) : Links ν :=
  setPrev a (some x) (setNext b (some x) (setNext x (some a) (setPrev x (some b) links)))

theorem insertLinks_eq_link {x : ν} (hb : x ≠ b) (a : ν) (links : Links ν) :
    insertLinks b a x links = link x a (link b x (link x x links)) := by
  ext1
  · change Function.update (Function.update links.next x (some a)) b (some x) =
      Function.update (Function.update (Function.update links.next x (some x)) b (some x)) x
        (some a)
    rw [Function.update_comm hb.symm, Function.update_idem, Function.update_comm hb]
  · change Function.update (Function.update links.prev x (some b)) a (some x) =
      Function.update (Function.update (Function.update links.prev x (some x)) x (some b)) a
        (some x)
    rw [Function.update_idem]

/-- The circle `l` is turned into the circle `l'`, and the other nodes are left as they are. -/
structure Turns (links : Links ν) (l : List ν) (links' : Links ν) (l' : List ν) : Prop where
  circle : Circle links' l'
  next_eq : ∀ y, y ∉ l → y ∉ l' → links'.next y = links.next y
  prev_eq : ∀ y, y ∉ l → y ∉ l' → links'.prev y = links.prev y

omit [DecidableEq ν] in
theorem Turns.trans {links'' : Links ν} {l l' l'' : List ν} (h : Turns links l links' l')
    (h' : Turns links' l' links'' l'') (hsub : ∀ y ∈ l', y ∈ l ∨ y ∈ l'') :
    Turns links l links'' l'' := by
  have hmem : ∀ y, y ∉ l → y ∉ l'' → y ∉ l' := fun y hl hl'' hl' =>
    (hsub y hl').elim hl hl''
  exact ⟨h'.circle, fun y hl hl'' => (h'.next_eq y (hmem y hl hl'') hl'').trans
    (h.next_eq y hl (hmem y hl hl'')), fun y hl hl'' =>
    (h'.prev_eq y (hmem y hl hl'') hl'').trans (h.prev_eq y hl (hmem y hl hl''))⟩

omit [DecidableEq ν] in
theorem Turns.rotate_left {l₁ l₂ m : List ν} (h : Turns links (l₁ ++ l₂) links' m) :
    Turns links (l₂ ++ l₁) links' m := by
  have hmem : ∀ y, y ∉ l₂ ++ l₁ → y ∉ l₁ ++ l₂ := fun y hy hy' =>
    hy (List.mem_append.mpr (List.mem_append.mp hy').symm)
  exact ⟨h.circle, fun y hl hm => h.next_eq y (hmem y hl) hm,
    fun y hl hm => h.prev_eq y (hmem y hl) hm⟩

omit [DecidableEq ν] in
theorem Turns.rotate_right {l m₁ m₂ : List ν} (h : Turns links l links' (m₁ ++ m₂)) :
    Turns links l links' (m₂ ++ m₁) := by
  have hmem : ∀ y, y ∉ m₂ ++ m₁ → y ∉ m₁ ++ m₂ := fun y hy hy' =>
    hy (List.mem_append.mpr (List.mem_append.mp hy').symm)
  exact ⟨h.circle.rotate, fun y hl hm => h.next_eq y hl (hmem y hm),
    fun y hl hm => h.prev_eq y hl (hmem y hm)⟩

theorem turns_singleton (x : ν) (links : Links ν) : Turns links [] (link x x links) [x] :=
  ⟨circle_singleton x links,
    fun _ _ hy => Function.update_of_ne (List.ne_of_not_mem_cons hy) _ _,
    fun _ _ hy => Function.update_of_ne (List.ne_of_not_mem_cons hy) _ _⟩

theorem turns_insertLinks {x : ν} (h : Circle links l) (hb : l.getLast? = some b)
    (ha : l.head? = some a) (hx : x ∉ l) : Turns links l (insertLinks b a x links) (l ++ [x]) := by
  have hxb : x ≠ b := fun he => hx (he ▸ List.mem_of_getLast? hb)
  have hd : l.Disjoint [x] := List.disjoint_singleton.mpr hx
  refine ⟨?_, fun y hl hy => ?_, fun y hl hy => ?_⟩
  · rw [insertLinks_eq_link hxb a]
    exact (h.link_of_not_mem hx hx).join (circle_singleton x links) hd hb ha rfl rfl
  · have hyx : y ≠ x := fun he => hy (he ▸ List.mem_concat_self)
    have hyb : y ≠ b := fun he => hl (he ▸ List.mem_of_getLast? hb)
    exact (Function.update_of_ne hyb _ _).trans (Function.update_of_ne hyx _ _)
  · have hyx : y ≠ x := fun he => hy (he ▸ List.mem_concat_self)
    have hya : y ≠ a := fun he => hl (he ▸ List.mem_of_head? ha)
    exact (Function.update_of_ne hya _ _).trans (Function.update_of_ne hyx _ _)

theorem turns_clear {x : ν} (h : Circle links (l ++ [x])) (hb : l.getLast? = some b)
    (ha : l.head? = some a) : Turns links (l ++ [x]) (clear x (link b a links)) l := by
  have hx : x ∉ l := fun hmem =>
    (List.nodup_append'.mp h.nodup).2.2 hmem (List.mem_singleton_self x)
  refine ⟨(h.cut hb ha).clear_of_not_mem hx, fun y hy hl => ?_, fun y hy hl => ?_⟩
  · have hyx : y ≠ x := fun he => hy (he ▸ List.mem_concat_self)
    have hyb : y ≠ b := fun he => hl (he ▸ List.mem_of_getLast? hb)
    exact (clear_of_ne hyx _).1.trans (Function.update_of_ne hyb _ _)
  · have hyx : y ≠ x := fun he => hy (he ▸ List.mem_concat_self)
    have hya : y ≠ a := fun he => hl (he ▸ List.mem_of_head? ha)
    exact (clear_of_ne hyx _).2.trans (Function.update_of_ne hya _ _)

theorem turns_clear_singleton (x : ν) (links : Links ν) : Turns links [x] (clear x links) [] :=
  ⟨circle_nil _, fun _ hy _ => (clear_of_ne (List.ne_of_not_mem_cons hy) links).1,
    fun _ hy _ => (clear_of_ne (List.ne_of_not_mem_cons hy) links).2⟩

/-! ## The way round -/

/-- The nodes that are met from `a` on up to `stop`, at most `n` of them. -/
def follow (ptr : ν → Option ν) (stop : ν) : ℕ → ν → Option (List ν)
  | 0, _ => none
  | n + 1, a =>
    if a = stop then
      some [a]
    else do
      let b ← ptr a
      let l ← follow ptr stop n b
      return a :: l

theorem follow_chain {ptr : ν → Option ν} {n : ℕ} (hnd : (a :: l).Nodup)
    (hchain : (a :: l).IsChain fun x y => ptr x = some y) (hn : l.length < n) :
    follow ptr ((a :: l).getLast (List.cons_ne_nil a l)) n a = some (a :: l) := by
  induction l generalizing a n with
  | nil =>
    obtain ⟨n, rfl⟩ := Nat.exists_eq_add_of_lt hn
    rw [List.getLast_singleton, follow, if_pos rfl]
  | cons b l ih =>
    obtain ⟨n, rfl⟩ : ∃ k, n = k + 1 := ⟨n - 1, by omega⟩
    obtain ⟨hab, hrest⟩ := List.isChain_cons_cons.mp hchain
    have hne : a ≠ (b :: l).getLast (List.cons_ne_nil b l) := by
      rintro he
      exact (List.nodup_cons.mp hnd).1 (he ▸ List.getLast_mem _)
    rw [List.getLast_cons (List.cons_ne_nil b l), follow, if_neg hne, hab, Option.bind_eq_bind,
      Option.bind_some, ih hnd.of_cons hrest (by simpa using hn)]
    rfl

/-- **A circle is met in order along the successors.** -/
theorem Circle.follow_next (h : Circle links l) (hb : l.getLast? = some b)
    (ha : links.next b = some a) {n : ℕ} (hn : l.length ≤ n) :
    follow links.next b n a = some l := by
  rcases l with _ | ⟨c, l⟩
  · exact absurd hb (Option.some_ne_none b).symm
  have hac : a = c := Option.some.inj (ha.symm.trans (h.closed b hb c rfl).1)
  rw [List.getLast?_eq_some_getLast (List.cons_ne_nil c l)] at hb
  rw [hac, ← Option.some.inj hb]
  exact follow_chain h.nodup (h.chain.imp fun _ _ hxy => hxy.1) hn

/-- **Along the predecessors a circle is met in the reverse order.** -/
theorem Circle.follow_prev (h : Circle links l) (hb : l.getLast? = some b)
    (ha : links.next b = some a) {n : ℕ} (hn : l.length ≤ n) :
    follow links.prev a n b = some l.reverse := by
  rcases l with _ | ⟨c, l⟩
  · exact absurd hb (Option.some_ne_none b).symm
  have hac : a = c := Option.some.inj (ha.symm.trans (h.closed b hb c rfl).1)
  rcases hr : (c :: l).reverse with _ | ⟨z, r⟩
  · exact absurd hr (by simp)
  have hz : z = b := by
    rw [← List.head?_reverse, hr] at hb
    exact Option.some.inj hb
  have hc : (z :: r).getLast (List.cons_ne_nil z r) = a := by
    have hlast : (c :: l).reverse.getLast? = some c := by rw [List.getLast?_reverse]; rfl
    rw [hr, List.getLast?_eq_some_getLast (List.cons_ne_nil z r)] at hlast
    rw [hac, Option.some.inj hlast]
  have hnd : (z :: r).Nodup := hr ▸ List.nodup_reverse.mpr h.nodup
  have hchain : (z :: r).IsChain fun x y => links.prev x = some y := by
    rw [← hr, List.isChain_reverse]
    exact h.chain.imp fun _ _ hxy => hxy.2
  have hlen : r.length < n := by
    have hlength := congrArg List.length hr
    rw [List.length_reverse, List.length_cons, List.length_cons] at hlength
    rw [List.length_cons] at hn
    omega
  rw [← hz, ← hc]
  exact follow_chain hnd hchain hlen

end DoublyLinked
end CKern
