import Mathlib.Data.Multiset.MapFold
import Mathlib.Data.Multiset.Range
import Mathlib.Logic.Equiv.Basic

/-!
# Binary heaps in an array

The node `c` of a heap with `n` nodes is below the node `parent c`, and no node is greater than its
parent.

* `OrderedFrom`: the order of all nodes whose parent is not below a bound.
* `DownReady`, `UpReady`: one node may be out of order with its children, or with its parent.
* `Largest`: the node that has to take the place of a parent.
* `contents`: the elements of a heap, with their multiplicities.
-/

namespace CKern
namespace BinaryHeap

variable {α : Type*}

/-- The node above a node. -/
def parent (c : ℕ) : ℕ := (c - 1) / 2

theorem parent_lt {c : ℕ} (h : 0 < c) : parent c < c := by
  unfold parent
  omega

theorem parent_eq_iff {c p : ℕ} (h : 0 < c) : parent c = p ↔ c = 2 * p + 1 ∨ c = 2 * p + 2 := by
  unfold parent
  omega

@[simp] theorem parent_left (p : ℕ) : parent (2 * p + 1) = p :=
  (parent_eq_iff (Nat.succ_pos _)).mpr (Or.inl rfl)

@[simp] theorem parent_right (p : ℕ) : parent (2 * p + 2) = p :=
  (parent_eq_iff (Nat.succ_pos _)).mpr (Or.inr rfl)

theorem parent_lt_half {c n : ℕ} (h : 0 < c) (hc : c < n) : parent c < n / 2 := by
  unfold parent
  omega

/-! ## The order -/

/-- No child of a node from `k` on is greater than its parent. -/
def OrderedFrom (cmp : α → α → Ordering) (k n : ℕ) (f : ℕ → α) : Prop :=
  ∀ c, 0 < c → c < n → k ≤ parent c → (cmp (f (parent c)) (f c)).isGE

/-- The only edges that may be out of order are those from the node `p` to its children. -/
structure DownReady (cmp : α → α → Ordering) (k n : ℕ) (f : ℕ → α) (p : ℕ) : Prop where
  ordered : ∀ c, 0 < c → c < n → k ≤ parent c → parent c ≠ p → (cmp (f (parent c)) (f c)).isGE
  above : ∀ c, 0 < c → c < n → parent c = p → 0 < p → k ≤ parent p →
    (cmp (f (parent p)) (f c)).isGE

/-- The only edge that may be out of order is that from the node `i` to its parent. -/
structure UpReady (cmp : α → α → Ordering) (n : ℕ) (f : ℕ → α) (i : ℕ) : Prop where
  ordered : ∀ c, 0 < c → c < n → c ≠ i → (cmp (f (parent c)) (f c)).isGE
  above : ∀ c, 0 < c → c < n → parent c = i → 0 < i → (cmp (f (parent i)) (f c)).isGE

/-- The node `m` is `p` or one of its children, and none of these is greater. -/
structure Largest (cmp : α → α → Ordering) (n : ℕ) (f : ℕ → α) (p m : ℕ) : Prop where
  mem : m = p ∨ 0 < m ∧ m < n ∧ parent m = p
  isGE : (cmp (f m) (f p)).isGE
  isGE_child : ∀ c, 0 < c → c < n → parent c = p → (cmp (f m) (f c)).isGE

section Order

variable {cmp : α → α → Ordering} {k n : ℕ} {f : ℕ → α}

theorem OrderedFrom.mono {k' n' : ℕ} (h : OrderedFrom cmp k n f) (hk : k ≤ k') (hn : n' ≤ n) :
    OrderedFrom cmp k' n' f :=
  fun c hc hcn hck => h c hc (hcn.trans_le hn) (hk.trans hck)

theorem orderedFrom_half (cmp : α → α → Ordering) (n : ℕ) (f : ℕ → α) :
    OrderedFrom cmp (n / 2) n f := by
  intro c hc hcn hk
  exact absurd (parent_lt_half hc hcn) (not_lt.mpr hk)

theorem OrderedFrom.downReady {p : ℕ} (h : OrderedFrom cmp (p + 1) n f) :
    DownReady cmp p n f p := by
  refine ⟨fun c hc hcn hk hne => h c hc hcn (by omega), fun c hc hcn hcp hp hk => ?_⟩
  exact absurd (parent_lt hp) (not_lt.mpr hk)

theorem OrderedFrom.downReady_update (h : OrderedFrom cmp 0 n f) (x : α) :
    DownReady cmp 0 n (Function.update f 0 x) 0 := by
  refine ⟨fun c hc hcn _ hne => ?_, fun c _ _ _ h0 => absurd h0 (lt_irrefl 0)⟩
  rw [Function.update_of_ne hne, Function.update_of_ne hc.ne']
  exact h c hc hcn (Nat.zero_le _)

theorem OrderedFrom.upReady_update (h : OrderedFrom cmp 0 n f) (x : α) :
    UpReady cmp (n + 1) (Function.update f n x) n := by
  refine ⟨fun c hc hcn hne => ?_, fun c hc hcn hcp _ => ?_⟩
  · have hlt : c < n := by omega
    rw [Function.update_of_ne hne, Function.update_of_ne ((parent_lt hc).trans hlt).ne]
    exact h c hc hlt (Nat.zero_le _)
  · have := parent_lt hc
    omega

theorem DownReady.orderedFrom {p : ℕ} (h : DownReady cmp k n f p) (hl : Largest cmp n f p p) :
    OrderedFrom cmp k n f := by
  intro c hc hcn hk
  by_cases hcp : parent c = p
  · rw [hcp]
    exact hl.isGE_child c hc hcn hcp
  · exact h.ordered c hc hcn hk hcp

theorem DownReady.orderedFrom_of_leaf {p : ℕ} (h : DownReady cmp k n f p) (hp : n / 2 ≤ p) :
    OrderedFrom cmp k n f :=
  fun c hc hcn hk => h.ordered c hc hcn hk ((parent_lt_half hc hcn).trans_le hp).ne

theorem UpReady.orderedFrom {i : ℕ} (h : UpReady cmp n f i)
    (hi : 0 < i → (cmp (f (parent i)) (f i)).isGE) : OrderedFrom cmp 0 n f := by
  intro c hc hcn _
  by_cases hci : c = i
  · rw [hci] at hc ⊢
    exact hi hc
  · exact h.ordered c hc hcn hci

/-- **Sifting down.** The greatest child takes the place of its parent, and the parent that of the
child. -/
theorem DownReady.swap {p m : ℕ} (h : DownReady cmp k n f p) (hp : k ≤ p)
    (hl : Largest cmp n f p m) (hne : m ≠ p) : DownReady cmp k n (f ∘ Equiv.swap p m) m := by
  obtain ⟨hm, hmn, hmp⟩ := hl.mem.resolve_left hne
  have hpm : p < m := hmp ▸ parent_lt hm
  refine ⟨fun c hc hcn hk hcm => ?_, fun c hc hcn hcm _ hk => ?_⟩
  · simp only [Function.comp_apply]
    by_cases hcp : parent c = p
    · -- the children of `p`, one of which is `m`
      rw [hcp, Equiv.swap_apply_left]
      by_cases hcm' : c = m
      · rw [hcm', Equiv.swap_apply_right]
        exact hl.isGE
      · rw [Equiv.swap_apply_of_ne_of_ne (hcp ▸ (parent_lt hc).ne') hcm']
        exact hl.isGE_child c hc hcn hcp
    · rw [Equiv.swap_apply_of_ne_of_ne hcp hcm]
      by_cases hc' : c = p
      · rw [hc', Equiv.swap_apply_left]
        exact h.above m hm hmn hmp (hc' ▸ hc) (hc' ▸ hk)
      · have hcm' : c ≠ m := by
          rintro rfl
          exact hcp hmp
        rw [Equiv.swap_apply_of_ne_of_ne hc' hcm']
        exact h.ordered c hc hcn hk hcp
  · have hmc : m < c := hcm ▸ parent_lt hc
    simp only [Function.comp_apply]
    rw [hmp, Equiv.swap_apply_left, Equiv.swap_apply_of_ne_of_ne (hpm.trans hmc).ne' hmc.ne']
    have := h.ordered c hc hcn (by omega) (by omega)
    rwa [hcm] at this

variable [Std.TransCmp cmp]

theorem isGE_self (x : α) : (cmp x x).isGE := by
  rw [(Std.ReflCmp.compare_self : cmp x x = .eq)]
  rfl

omit [Std.TransCmp cmp] in
theorem isGE_of_lt [Std.OrientedCmp cmp] {x y : α} (h : cmp x y = .lt) : (cmp y x).isGE :=
  Std.OrientedCmp.isGE_of_isLE (Ordering.isLE_of_eq_lt h)

theorem OrderedFrom.root_isGE (h : OrderedFrom cmp 0 n f) {i : ℕ} (hi : i < n) :
    (cmp (f 0) (f i)).isGE := by
  induction i using Nat.strong_induction_on with
  | h i ih =>
    rcases Nat.eq_zero_or_pos i with rfl | hpos
    · exact isGE_self _
    · have hlt := parent_lt hpos
      exact Std.TransCmp.isGE_trans (ih _ hlt (hlt.trans hi)) (h i hpos hi (Nat.zero_le _))

/-- **Sifting up.** A node that is greater than its parent takes its place. -/
theorem UpReady.swap {i : ℕ} (h : UpReady cmp n f i) (hi : 0 < i) (hin : i < n)
    (hlt : cmp (f (parent i)) (f i) = .lt) : UpReady cmp n (f ∘ Equiv.swap (parent i) i) (parent i) := by
  have hpi := parent_lt hi
  have hge := isGE_of_lt hlt
  refine ⟨fun c hc hcn hne => ?_, fun c hc hcn hcp hp => ?_⟩
  · simp only [Function.comp_apply]
    by_cases hci : c = i
    · rw [hci, Equiv.swap_apply_left, Equiv.swap_apply_right]
      exact hge
    rw [Equiv.swap_apply_of_ne_of_ne hne hci]
    by_cases hcp : parent c = parent i
    · -- the other child
      rw [hcp, Equiv.swap_apply_left]
      have := h.ordered c hc hcn hci
      rw [hcp] at this
      exact Std.TransCmp.isGE_trans hge this
    by_cases hci' : parent c = i
    · rw [hci', Equiv.swap_apply_right]
      exact h.above c hc hcn hci' hi
    · rw [Equiv.swap_apply_of_ne_of_ne hcp hci']
      exact h.ordered c hc hcn hci
  · have hpp := parent_lt hp
    have hpar := h.ordered (parent i) hp (hpi.trans hin) hpi.ne
    simp only [Function.comp_apply]
    rw [Equiv.swap_apply_of_ne_of_ne hpp.ne (hpp.trans hpi).ne]
    by_cases hci : c = i
    · rw [hci, Equiv.swap_apply_right]
      exact hpar
    · rw [Equiv.swap_apply_of_ne_of_ne (hcp ▸ (parent_lt hc).ne') hci]
      have := h.ordered c hc hcn hci
      rw [hcp] at this
      exact Std.TransCmp.isGE_trans hpar this

/-- The greatest of a node and its children, of which the left one is known to be there. -/
def largest (cmp : α → α → Ordering) (n : ℕ) (f : ℕ → α) (p : ℕ) : ℕ :=
  let m := if 2 * p + 2 < n ∧ cmp (f p) (f (2 * p + 2)) = .lt then 2 * p + 2 else p
  if cmp (f m) (f (2 * p + 1)) = .lt then 2 * p + 1 else m

/-- The same, for a parent whose element is to be the one after the last: here that node stands for
the parent. -/
def largestOfLast (cmp : α → α → Ordering) (n : ℕ) (f : ℕ → α) (p : ℕ) : ℕ :=
  let m := if cmp (f n) (f (2 * p + 1)) = .lt then 2 * p + 1 else n
  if 2 * p + 2 < n ∧ cmp (f m) (f (2 * p + 2)) = .lt then 2 * p + 2 else m

omit [Std.TransCmp cmp] in
theorem lt_largestOfLast {p : ℕ} (h : largestOfLast cmp n f p ≠ n) :
    p < largestOfLast cmp n f p := by
  unfold largestOfLast at h ⊢
  dsimp only at h ⊢
  split_ifs at h ⊢ <;> omega

omit [Std.TransCmp cmp] in
theorem Largest.of_children {p m : ℕ} (h : 2 * p + 1 < n)
    (hmem : m = p ∨ m = 2 * p + 1 ∨ m = 2 * p + 2 ∧ 2 * p + 2 < n)
    (hp : (cmp (f m) (f p)).isGE) (hleft : (cmp (f m) (f (2 * p + 1))).isGE)
    (hright : 2 * p + 2 < n → (cmp (f m) (f (2 * p + 2))).isGE) : Largest cmp n f p m := by
  refine ⟨?_, hp, fun c hc hcn hcp => ?_⟩
  · rcases hmem with rfl | rfl | ⟨rfl, hlt⟩
    · exact Or.inl rfl
    · exact Or.inr ⟨Nat.succ_pos _, h, parent_left p⟩
    · exact Or.inr ⟨Nat.succ_pos _, hlt, parent_right p⟩
  · rcases (parent_eq_iff hc).mp hcp with rfl | rfl
    · exact hleft
    · exact hright hcn

theorem largest_spec {p : ℕ} (h : 2 * p + 1 < n) : Largest cmp n f p (largest cmp n f p) := by
  unfold largest
  dsimp only
  by_cases hr : 2 * p + 2 < n ∧ cmp (f p) (f (2 * p + 2)) = .lt
  · rw [if_pos hr]
    by_cases hl : cmp (f (2 * p + 2)) (f (2 * p + 1)) = .lt
    · rw [if_pos hl]
      have hlr := isGE_of_lt hl
      exact Largest.of_children h (Or.inr (Or.inl rfl))
        (Std.TransCmp.isGE_trans hlr (isGE_of_lt hr.2)) (isGE_self _) fun _ => hlr
    · rw [if_neg hl]
      exact Largest.of_children h (Or.inr (Or.inr ⟨rfl, hr.1⟩)) (isGE_of_lt hr.2)
        (Ordering.isGE_iff_ne_lt.mpr hl) fun _ => isGE_self _
  · rw [if_neg hr]
    have hpr : 2 * p + 2 < n → (cmp (f p) (f (2 * p + 2))).isGE :=
      fun hlt => Ordering.isGE_iff_ne_lt.mpr fun heq => hr ⟨hlt, heq⟩
    by_cases hl : cmp (f p) (f (2 * p + 1)) = .lt
    · rw [if_pos hl]
      exact Largest.of_children h (Or.inr (Or.inl rfl)) (isGE_of_lt hl) (isGE_self _)
        fun hlt => Std.TransCmp.isGE_trans (isGE_of_lt hl) (hpr hlt)
    · rw [if_neg hl]
      exact Largest.of_children h (Or.inl rfl) (isGE_self _) (Ordering.isGE_iff_ne_lt.mpr hl) hpr

theorem largestOfLast_spec {p : ℕ} (h : 2 * p + 1 < n) :
    (largestOfLast cmp n f p = n → Largest cmp n (Function.update f p (f n)) p p) ∧
      (largestOfLast cmp n f p ≠ n →
        Largest cmp n (Function.update f p (f n)) p (largestOfLast cmp n f p)) := by
  have hgp : Function.update f p (f n) p = f n := Function.update_self ..
  have hgl : Function.update f p (f n) (2 * p + 1) = f (2 * p + 1) :=
    Function.update_of_ne (by omega) ..
  have hgr : Function.update f p (f n) (2 * p + 2) = f (2 * p + 2) :=
    Function.update_of_ne (by omega) ..
  generalize hg : Function.update f p (f n) = g at hgp hgl hgr ⊢
  unfold largestOfLast
  dsimp only
  rw [← hgp, ← hgl, ← hgr]
  by_cases hl : cmp (g p) (g (2 * p + 1)) = .lt
  · rw [if_pos hl, ← hgl]
    have hlp := isGE_of_lt hl
    by_cases hr : 2 * p + 2 < n ∧ cmp (g (2 * p + 1)) (g (2 * p + 2)) = .lt
    · rw [if_pos hr]
      have hrl := isGE_of_lt hr.2
      refine ⟨fun heq => absurd heq hr.1.ne, fun _ => ?_⟩
      exact Largest.of_children h (Or.inr (Or.inr ⟨rfl, hr.1⟩)) (Std.TransCmp.isGE_trans hrl hlp)
        hrl fun _ => isGE_self _
    · rw [if_neg hr]
      refine ⟨fun heq => absurd heq h.ne, fun _ => ?_⟩
      exact Largest.of_children h (Or.inr (Or.inl rfl)) hlp (isGE_self _)
        fun hlt => Ordering.isGE_iff_ne_lt.mpr fun heq => hr ⟨hlt, heq⟩
  · rw [if_neg hl, ← hgp]
    have hpl := Ordering.isGE_iff_ne_lt.mpr hl
    by_cases hr : 2 * p + 2 < n ∧ cmp (g p) (g (2 * p + 2)) = .lt
    · rw [if_pos hr]
      have hrp := isGE_of_lt hr.2
      refine ⟨fun heq => absurd heq hr.1.ne, fun _ => ?_⟩
      exact Largest.of_children h (Or.inr (Or.inr ⟨rfl, hr.1⟩)) hrp
        (Std.TransCmp.isGE_trans hrp hpl) fun _ => isGE_self _
    · rw [if_neg hr]
      refine ⟨fun _ => ?_, fun hne => absurd rfl hne⟩
      exact Largest.of_children h (Or.inl rfl) (isGE_self _) hpl
        fun hlt => Ordering.isGE_iff_ne_lt.mpr fun heq => hr ⟨hlt, heq⟩

end Order

/-! ## The elements -/

theorem update_comp_swap {i j : ℕ} (f : ℕ → α) (x : α) (h : i ≠ j) :
    Function.update (Function.update f i (f j)) j x = Function.update f i x ∘ Equiv.swap i j := by
  ext1 k
  rw [Function.comp_apply]
  by_cases hj : k = j
  · rw [hj, Function.update_self, Equiv.swap_apply_right, Function.update_self]
  rw [Function.update_of_ne hj]
  by_cases hi : k = i
  · rw [hi, Function.update_self, Equiv.swap_apply_left, Function.update_of_ne h.symm]
  · rw [Function.update_of_ne hi, Equiv.swap_apply_of_ne_of_ne hi hj, Function.update_of_ne hi]

/-- The first `n` elements, with their multiplicities. -/
def contents (n : ℕ) (f : ℕ → α) : Multiset α := (Multiset.range n).map f

theorem card_contents (n : ℕ) (f : ℕ → α) : Multiset.card (contents n f) = n := by
  rw [contents, Multiset.card_map, Multiset.card_range]

theorem mem_contents {n : ℕ} {f : ℕ → α} {x : α} : x ∈ contents n f ↔ ∃ i, i < n ∧ f i = x := by
  simp [contents]

theorem contents_congr {n : ℕ} {f g : ℕ → α} (h : ∀ i, i < n → g i = f i) :
    contents n g = contents n f :=
  Multiset.map_congr rfl fun i hi => h i (Multiset.mem_range.mp hi)

theorem contents_succ (n : ℕ) (f : ℕ → α) : contents (n + 1) f = f n ::ₘ contents n f := by
  rw [contents, Multiset.range_succ, Multiset.map_cons]
  rfl

theorem contents_succ_update (n : ℕ) (f : ℕ → α) (x : α) :
    contents (n + 1) (Function.update f n x) = x ::ₘ contents n f := by
  rw [contents_succ, Function.update_self]
  congr 1
  exact contents_congr fun i hi => Function.update_of_ne hi.ne x f

theorem contents_swap {n i j : ℕ} (f : ℕ → α) (hi : i < n) (hj : j < n) :
    contents n (f ∘ Equiv.swap i j) = contents n f := by
  have hperm : (Multiset.range n).map (Equiv.swap i j) = Multiset.range n := by
    refine (Multiset.Nodup.ext ((Multiset.nodup_range n).map (Equiv.swap i j).injective)
      (Multiset.nodup_range n)).mpr fun c => ?_
    rw [Multiset.mem_map, Multiset.mem_range]
    have hlt : ∀ a, a < n → Equiv.swap i j a < n := by
      intro a ha
      rw [Equiv.swap_apply_def]
      split_ifs <;> assumption
    constructor
    · rintro ⟨a, ha, rfl⟩
      exact hlt a (Multiset.mem_range.mp ha)
    · intro hc
      exact ⟨Equiv.swap i j c, Multiset.mem_range.mpr (hlt c hc), Equiv.swap_apply_self i j c⟩
  rw [contents, ← Multiset.map_map, hperm]
  rfl

theorem contents_succ_eq_cons (n : ℕ) (f : ℕ → α) :
    contents (n + 1) f = f 0 ::ₘ contents n (Function.update f 0 (f n)) := by
  rw [← contents_swap f (Nat.succ_pos n) (Nat.lt_succ_self n), contents_succ, Function.comp_apply,
    Equiv.swap_apply_right]
  congr 1
  refine contents_congr fun i hi => ?_
  rw [Function.comp_apply]
  by_cases h0 : i = 0
  · rw [h0, Equiv.swap_apply_left, Function.update_self]
  · rw [Equiv.swap_apply_of_ne_of_ne h0 hi.ne, Function.update_of_ne h0]

end BinaryHeap
end CKern
