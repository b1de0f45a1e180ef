import Mathlib.Data.List.Infix
import Mathlib.Data.List.Nodup
import Mathlib.Data.List.Pairwise
import Mathlib.Data.Set.Insert
import Mathlib.Logic.Function.Basic
import Mathlib.Tactic.Set

/-!
# Compact tries

A compact trie is given by the string that leads to each node; the root is `none`.

* `Trie`, `Trie.Valid`: the children of a node lead to longer strings that differ in the next
  symbol, and every node below it is below one of its children.
* `Valid.forced`: a string that enters an edge goes through to its end, if it leads to a node.
* `Valid.inj`: a node is determined by its string.
* `preorder`: the nodes below a node, each of them once.
* `Valid.addLeaf`, `Valid.split`: a new leaf, and a new node in the middle of an edge.
-/

namespace CKern
namespace CompactTrie

open Function

variable {ι σ : Type*}

/-- The nodes other than the root, the children, and the string that leads to a node. -/
structure Trie (ι σ : Type*) where
  nodes : Set ι
  childs : Option ι → List ι
  path : Option ι → List σ

namespace Trie

/-- The root or a node. -/
def Mem (t : Trie ι σ) : Option ι → Prop
  | none => True
  | some v => v ∈ t.nodes

/-- The children extend the string of their parent, each by a symbol of its own, and they lead to
everything below the parent. -/
structure Valid (t : Trie ι σ) : Prop where
  root : t.path none = []
  mem : ∀ p c, t.Mem p → c ∈ t.childs p → c ∈ t.nodes
  parent : ∀ c ∈ t.nodes, ∃ p, t.Mem p ∧ c ∈ t.childs p
  unique : ∀ p q c, t.Mem p → t.Mem q → c ∈ t.childs p → c ∈ t.childs q → p = q
  nodup : ∀ p, t.Mem p → (t.childs p).Nodup
  extend : ∀ p c, t.Mem p → c ∈ t.childs p → ∃ s, t.path p ++ [s] <+: t.path (some c)
  distinct : ∀ p c d s, t.Mem p → c ∈ t.childs p → d ∈ t.childs p →
    t.path p ++ [s] <+: t.path (some c) → t.path p ++ [s] <+: t.path (some d) → c = d
  step : ∀ p q s, t.Mem p → q ∈ t.nodes → t.path p ++ [s] <+: t.path (some q) →
    ∃ c ∈ t.childs p, t.path (some c) <+: t.path (some q)

end Trie

open Trie

/-! ## Prefixes -/

theorem snoc_prefix_unique {w z : List σ} {s r : σ} (hs : w ++ [s] <+: z) (hr : w ++ [r] <+: z) :
    s = r := by
  have hle : w ++ [s] <+: w ++ [r] := List.prefix_of_prefix_length_le hs hr (by simp)
  have heq := hle.eq_of_length (by simp)
  simpa using heq

theorem prefix_of_snoc {w z : List σ} {s : σ} (h : w ++ [s] <+: z) : w <+: z :=
  (List.prefix_append w [s]).trans h

theorem length_lt_of_snoc {w z : List σ} {s : σ} (h : w ++ [s] <+: z) :
    w.length < z.length := by
  have := h.length_le
  rw [List.length_append, List.length_singleton] at this
  exact this

theorem exists_snoc {w z : List σ} (h : w <+: z) (hlt : w.length < z.length) :
    ∃ s, w ++ [s] <+: z := by
  obtain ⟨y, rfl⟩ := h
  cases y with
  | nil => simp at hlt
  | cons s y => exact ⟨s, y, by simp⟩

/-! ## Consequences -/

namespace Trie
namespace Valid

variable {t : Trie ι σ} (h : t.Valid)

include h

theorem exists_child {p : Option ι} {q : ι} {s : σ} (hp : t.Mem p) (hq : q ∈ t.nodes)
    (hs : t.path p ++ [s] <+: t.path (some q)) :
    ∃ c ∈ t.childs p, t.path p ++ [s] <+: t.path (some c) ∧ t.path (some c) <+: t.path (some q) := by
  obtain ⟨c, hc, hcq⟩ := h.step p q s hp hq hs
  obtain ⟨r, hr⟩ := h.extend p c hp hc
  have : s = r := snoc_prefix_unique hs (hr.trans hcq)
  exact ⟨c, hc, this ▸ hr, hcq⟩

theorem forced {p : Option ι} {c q : ι} {s : σ} (hp : t.Mem p) (hc : c ∈ t.childs p)
    (hsc : t.path p ++ [s] <+: t.path (some c)) (hq : q ∈ t.nodes)
    (hsq : t.path p ++ [s] <+: t.path (some q)) : t.path (some c) <+: t.path (some q) := by
  obtain ⟨d, hd, hsd, hdq⟩ := h.exists_child hp hq hsq
  rw [h.distinct p c d s hp hc hd hsc hsd]
  exact hdq

/-- **A node is determined by its string.** -/
theorem inj {p q : Option ι} (hp : t.Mem p) (hq : t.Mem q) (heq : t.path p = t.path q) : p = q := by
  -- the induction is on the length of the string, for the parents of the two nodes
  generalize hn : (t.path p).length = n
  induction n using Nat.strong_induction_on generalizing p q with
  | _ n ih =>
    have hnil : ∀ v ∈ t.nodes, t.path (some v) ≠ [] := by
      intro v hv hnil
      obtain ⟨r, hr, hvr⟩ := h.parent v hv
      obtain ⟨s, hs⟩ := h.extend r v hr hvr
      have := length_lt_of_snoc hs
      rw [hnil] at this
      exact absurd this (Nat.not_lt_zero _)
    cases p with
    | none =>
      cases q with
      | none => rfl
      | some v => exact absurd (heq.symm.trans h.root) (hnil v hq)
    | some v =>
      cases q with
      | none => exact absurd (heq.trans h.root) (hnil v hp)
      | some w =>
        obtain ⟨p', hp', hvp⟩ := h.parent v hp
        obtain ⟨q', hq', hwq⟩ := h.parent w hq
        obtain ⟨s, hs⟩ := h.extend p' v hp' hvp
        obtain ⟨r, hr⟩ := h.extend q' w hq' hwq
        -- if one parent is shorter, its child is a prefix of the other parent, which is too short
        have hshort : ∀ {a b : Option ι} {v w : ι} {s : σ}, t.Mem a → t.Mem b → v ∈ t.childs a →
            v ∈ t.nodes → t.path a ++ [s] <+: t.path (some v) → t.path b <+: t.path (some v) →
            (t.path b).length < (t.path (some v)).length →
            ¬ (t.path a).length < (t.path b).length := by
          intro a b v w s ha hb hva hv hsa hbv hlen hlt
          have hab : t.path a ++ [s] <+: t.path b :=
            List.prefix_of_prefix_length_le hsa hbv (by simpa using Nat.succ_le_of_lt hlt)
          cases b with
          | none =>
            rw [h.root] at hlt
            exact absurd hlt (Nat.not_lt_zero _)
          | some b =>
            have := (h.forced ha hva hsa hb hab).length_le
            omega
        have hlenp := length_lt_of_snoc hs
        have hlenq := length_lt_of_snoc hr
        have hpv := prefix_of_snoc hs
        have hqv : t.path q' <+: t.path (some v) := heq ▸ prefix_of_snoc hr
        have hpw : t.path p' <+: t.path (some w) := heq ▸ hpv
        have h1 := hshort (w := w) hp' hq' hvp hp hs hqv (heq ▸ hlenq)
        have h2 := hshort (w := v) hq' hp' hwq hq hr hpw (heq ▸ hlenp)
        have hpath : t.path p' = t.path q' :=
          (List.prefix_of_prefix_length_le hpv hqv (by omega)).eq_of_length (by omega)
        obtain rfl := ih _ (hn ▸ hlenp) hp' hq' hpath rfl
        have hsr : s = r := snoc_prefix_unique hs (heq ▸ hr)
        subst hsr
        rw [h.distinct p' v w s hp' hvp hwq hs hr]

theorem eq_of_mem_edge {p : Option ι} {c q : ι} {s : σ} (hp : t.Mem p) (hc : c ∈ t.childs p)
    (hq : q ∈ t.nodes) (hsq : t.path p ++ [s] <+: t.path (some q))
    (hqc : t.path (some q) <+: t.path (some c)) : q = c := by
  have hcq := h.forced hp hc (hsq.trans hqc) hq hsq
  have hlen := Nat.le_antisymm hqc.length_le hcq.length_le
  exact Option.some_inj.mp (h.inj hq (h.mem p c hp hc) (hqc.eq_of_length hlen))

end Valid

/-! ## The nodes below a node -/

/-- A node and what is below it, down to the given depth. -/
def preorder (t : Trie ι σ) : ℕ → ι → List ι
  | 0, _ => []
  | depth + 1, v => v :: (t.childs (some v)).flatMap (t.preorder depth)

namespace Valid

variable {t : Trie ι σ} (h : t.Valid)

include h

theorem mem_preorder {depth : ℕ} {v : ι} (hv : v ∈ t.nodes)
    (hdepth : ∀ u ∈ t.nodes, t.path (some v) <+: t.path (some u) →
      (t.path (some u)).length < (t.path (some v)).length + depth) {u : ι} :
    u ∈ t.preorder depth v ↔ u ∈ t.nodes ∧ t.path (some v) <+: t.path (some u) := by
  induction depth generalizing v with
  | zero => exact absurd (hdepth v hv (List.prefix_refl _)) (Nat.lt_irrefl _)
  | succ depth ih =>
    have hchild : ∀ c ∈ t.childs (some v), u ∈ t.preorder depth c ↔
        u ∈ t.nodes ∧ t.path (some c) <+: t.path (some u) := by
      intro c hc
      obtain ⟨s, hs⟩ := h.extend (some v) c hv hc
      refine ih (h.mem (some v) c hv hc) fun w hw hcw => ?_
      have hlt := hdepth w hw ((prefix_of_snoc hs).trans hcw)
      have := length_lt_of_snoc hs
      omega
    rw [preorder, List.mem_cons, List.mem_flatMap]
    constructor
    · rintro (rfl | ⟨c, hc, hu⟩)
      · exact ⟨hv, List.prefix_refl _⟩
      · obtain ⟨hun, hcu⟩ := (hchild c hc).mp hu
        obtain ⟨s, hs⟩ := h.extend (some v) c hv hc
        exact ⟨hun, (prefix_of_snoc hs).trans hcu⟩
    · rintro ⟨hun, hvu⟩
      rcases Nat.eq_or_lt_of_le hvu.length_le with hlen | hlt
      · left
        exact Option.some_inj.mp (h.inj hun hv (hvu.eq_of_length hlen).symm)
      · right
        obtain ⟨s, hs⟩ := exists_snoc hvu hlt
        obtain ⟨c, hc, -, hcu⟩ := h.exists_child (show t.Mem (some v) from hv) hun hs
        exact ⟨c, hc, (hchild c hc).mpr ⟨hun, hcu⟩⟩

theorem eq_of_below {p : Option ι} {c d u : ι} (hp : t.Mem p) (hc : c ∈ t.childs p)
    (hd : d ∈ t.childs p) (hcu : t.path (some c) <+: t.path (some u))
    (hdu : t.path (some d) <+: t.path (some u)) : c = d := by
  obtain ⟨s, hs⟩ := h.extend p c hp hc
  obtain ⟨r, hr⟩ := h.extend p d hp hd
  obtain rfl := snoc_prefix_unique (hs.trans hcu) (hr.trans hdu)
  exact h.distinct p c d s hp hc hd hs hr

theorem nodup_preorder {depth : ℕ} {v : ι} (hv : v ∈ t.nodes)
    (hdepth : ∀ u ∈ t.nodes, t.path (some v) <+: t.path (some u) →
      (t.path (some u)).length < (t.path (some v)).length + depth) :
    (t.preorder depth v).Nodup := by
  induction depth generalizing v with
  | zero => exact List.nodup_nil
  | succ depth ih =>
    have hbelow : ∀ c ∈ t.childs (some v), ∀ u ∈ t.nodes, t.path (some c) <+: t.path (some u) →
        (t.path (some u)).length < (t.path (some c)).length + depth := by
      intro c hc u hu hcu
      obtain ⟨s, hs⟩ := h.extend (some v) c hv hc
      have hlt := hdepth u hu ((prefix_of_snoc hs).trans hcu)
      have := length_lt_of_snoc hs
      omega
    have hmem : ∀ c ∈ t.childs (some v), ∀ u ∈ t.preorder depth c,
        t.path (some c) <+: t.path (some u) := fun c hc u hu =>
      ((h.mem_preorder (h.mem (some v) c hv hc) (hbelow c hc)).mp hu).2
    rw [preorder, List.nodup_cons, List.mem_flatMap, List.nodup_flatMap]
    refine ⟨?_, fun c hc => ih (h.mem (some v) c hv hc) (hbelow c hc), ?_⟩
    · rintro ⟨c, hc, hvc⟩
      obtain ⟨s, hs⟩ := h.extend (some v) c hv hc
      have hle := (hmem c hc v hvc).length_le
      have := length_lt_of_snoc hs
      omega
    · refine (h.nodup (some v) hv).imp_of_mem fun hc hd hne u huc hud => hne ?_
      exact h.eq_of_below (show t.Mem (some v) from hv) hc hd (hmem _ hc u huc) (hmem _ hd u hud)

end Valid

/-! ## A new leaf -/

variable [DecidableEq ι]

/-- A new first child of `u`. -/
def addLeaf (t : Trie ι σ) (u : Option ι) (l : ι) (w : List σ) : Trie ι σ where
  nodes := insert l t.nodes
  childs := update (update t.childs (some l) []) u (l :: t.childs u)
  path := update t.path (some l) w

omit [DecidableEq ι] in
theorem ne_of_mem {t : Trie ι σ} {l : ι} (hl : l ∉ t.nodes) {p : Option ι} (hp : t.Mem p) :
    p ≠ some l := by
  rintro rfl
  exact hl hp

section AddLeaf

variable (t : Trie ι σ) {u p : Option ι} {l : ι} (w : List σ)

theorem mem_addLeaf : (t.addLeaf u l w).Mem p ↔ p = some l ∨ t.Mem p := by
  cases p with
  | none => exact (or_iff_right_of_imp fun h => absurd h (by simp)).symm
  | some v => simp [Trie.addLeaf, Mem]

theorem path_addLeaf_leaf : (t.addLeaf u l w).path (some l) = w := update_self _ _ _

theorem path_addLeaf (hl : l ∉ t.nodes) (hp : t.Mem p) : (t.addLeaf u l w).path p = t.path p :=
  update_of_ne (ne_of_mem hl hp) _ _

theorem childs_addLeaf_leaf (hu : u ≠ some l) : (t.addLeaf u l w).childs (some l) = [] := by
  rw [Trie.addLeaf]
  dsimp only
  rw [update_of_ne hu.symm, update_self]

theorem childs_addLeaf_self : (t.addLeaf u l w).childs u = l :: t.childs u := update_self _ _ _

theorem childs_addLeaf (hl : l ∉ t.nodes) (hp : t.Mem p) (hpu : p ≠ u) :
    (t.addLeaf u l w).childs p = t.childs p := by
  rw [Trie.addLeaf]
  dsimp only
  rw [update_of_ne hpu, update_of_ne (ne_of_mem hl hp)]

theorem mem_childs_addLeaf (hl : l ∉ t.nodes) (hp : t.Mem p) {c : ι} :
    c ∈ (t.addLeaf u l w).childs p ↔ (p = u ∧ c = l) ∨ c ∈ t.childs p := by
  by_cases hpu : p = u
  · subst hpu
    rw [childs_addLeaf_self, List.mem_cons]
    simp
  · rw [childs_addLeaf t w hl hp hpu]
    simp [hpu]

end AddLeaf

/-- A string that leaves the trie at `u` gets a leaf. -/
theorem Valid.addLeaf {t : Trie ι σ} (h : t.Valid) {u : Option ι} {l : ι} {w : List σ} {s : σ}
    (hu : t.Mem u) (hl : l ∉ t.nodes) (hw : t.path u ++ [s] <+: w)
    (hfree : ∀ q ∈ t.nodes, ¬ t.path u ++ [s] <+: t.path (some q)) : (t.addLeaf u l w).Valid := by
  have hul := ne_of_mem hl hu
  have hmem : ∀ p, (t.addLeaf u l w).Mem p ↔ p = some l ∨ t.Mem p := fun p => mem_addLeaf t w
  have hpath : ∀ {p}, t.Mem p → (t.addLeaf u l w).path p = t.path p := fun hp =>
    path_addLeaf t w hl hp
  have hpathl : (t.addLeaf u l w).path (some l) = w := path_addLeaf_leaf t w
  have hchildl : (t.addLeaf u l w).childs (some l) = [] := childs_addLeaf_leaf t w hul
  have hchild : ∀ {p c}, t.Mem p → (c ∈ (t.addLeaf u l w).childs p ↔
      (p = u ∧ c = l) ∨ c ∈ t.childs p) := fun hp => mem_childs_addLeaf t w hl hp
  have hold : ∀ {p c}, t.Mem p → c ∈ t.childs p → c ∈ t.nodes := fun hp hc => h.mem _ _ hp hc
  have hnew : ∀ {c}, c ∈ t.nodes → (t.addLeaf u l w).path (some c) = t.path (some c) := fun hc =>
    hpath (p := some _) hc
  refine ⟨?_, ?_, ?_, ?_, ?_, ?_, ?_, ?_⟩
  · rw [hpath (p := none) True.intro, h.root]
  · intro p c hp' hc'
    rcases (hmem p).mp hp' with rfl | hp
    · rw [hchildl] at hc'
      exact absurd hc' List.not_mem_nil
    · rcases (hchild hp).mp hc' with ⟨-, rfl⟩ | hc
      · exact Set.mem_insert _ _
      · exact Set.mem_insert_of_mem _ (hold hp hc)
  · intro c hc
    rcases hc with rfl | hc
    · exact ⟨u, (hmem u).mpr (Or.inr hu), (hchild hu).mpr (Or.inl ⟨rfl, rfl⟩)⟩
    · obtain ⟨p, hp, hcp⟩ := h.parent c hc
      exact ⟨p, (hmem p).mpr (Or.inr hp), (hchild hp).mpr (Or.inr hcp)⟩
  · intro p q c hp' hq' hcp' hcq'
    rcases (hmem p).mp hp' with rfl | hp
    · rw [hchildl] at hcp'
      exact absurd hcp' List.not_mem_nil
    rcases (hmem q).mp hq' with rfl | hq
    · rw [hchildl] at hcq'
      exact absurd hcq' List.not_mem_nil
    rcases (hchild hp).mp hcp' with ⟨rfl, rfl⟩ | hcp
    · rcases (hchild hq).mp hcq' with ⟨rfl, -⟩ | hcq
      · rfl
      · exact absurd (hold hq hcq) hl
    · rcases (hchild hq).mp hcq' with ⟨rfl, rfl⟩ | hcq
      · exact absurd (hold hp hcp) hl
      · exact h.unique p q c hp hq hcp hcq
  · intro p hp'
    rcases (hmem p).mp hp' with rfl | hp
    · rw [hchildl]
      exact List.nodup_nil
    · by_cases hpu : p = u
      · subst hpu
        rw [childs_addLeaf_self, List.nodup_cons]
        exact ⟨fun hc => hl (hold hp hc), h.nodup p hp⟩
      · rw [childs_addLeaf t w hl hp hpu]
        exact h.nodup p hp
  · intro p c hp' hc'
    rcases (hmem p).mp hp' with rfl | hp
    · rw [hchildl] at hc'
      exact absurd hc' List.not_mem_nil
    rw [hpath hp]
    rcases (hchild hp).mp hc' with ⟨rfl, rfl⟩ | hc
    · exact ⟨s, by rwa [hpathl]⟩
    · rw [hnew (hold hp hc)]
      exact h.extend p c hp hc
  · intro p c d r hp' hc' hd' hrc hrd
    rcases (hmem p).mp hp' with rfl | hp
    · rw [hchildl] at hc'
      exact absurd hc' List.not_mem_nil
    rw [hpath hp] at hrc hrd
    -- an old child does not begin like the leaf
    have hne : ∀ {c}, c ∈ t.childs p → p = u → t.path p ++ [r] <+: w →
        ¬ t.path p ++ [r] <+: t.path (some c) := by
      rintro c hc rfl hr hrc
      have : r = s := snoc_prefix_unique hr hw
      subst this
      exact hfree c (hold hp hc) hrc
    rcases (hchild hp).mp hc' with ⟨hpu, rfl⟩ | hc
    · rw [hpathl] at hrc
      rcases (hchild hp).mp hd' with ⟨-, rfl⟩ | hd
      · rfl
      · rw [hnew (hold hp hd)] at hrd
        exact absurd hrd (hne hd hpu hrc)
    · rw [hnew (hold hp hc)] at hrc
      rcases (hchild hp).mp hd' with ⟨hpu, rfl⟩ | hd
      · rw [hpathl] at hrd
        exact absurd hrc (hne hc hpu hrd)
      · rw [hnew (hold hp hd)] at hrd
        exact h.distinct p c d r hp hc hd hrc hrd
  · intro p q r hp' hq' hr
    rcases (hmem p).mp hp' with rfl | hp
    · -- nothing is below the leaf
      rw [hpathl] at hr
      rcases hq' with rfl | hq
      · rw [hpathl] at hr
        exact absurd (length_lt_of_snoc hr) (Nat.lt_irrefl _)
      · rw [hnew hq] at hr
        exact absurd (hw.trans (prefix_of_snoc hr)) (hfree q hq)
    · rw [hpath hp] at hr
      rcases hq' with rfl | hq
      · rw [hpathl] at hr ⊢
        by_cases hpu : p = u
        · exact ⟨q, (hchild hp).mpr (Or.inl ⟨hpu, rfl⟩), by rw [hpathl]⟩
        · -- the way to the leaf goes through `u`
          have hlt : (t.path p).length < (t.path u).length := by
            by_contra hle
            rw [Nat.not_lt] at hle
            rcases hle.lt_or_eq with hlt | heq
            · have hup : t.path u ++ [s] <+: t.path p :=
                List.prefix_of_prefix_length_le hw (prefix_of_snoc hr) (by simpa using Nat.succ_le_of_lt hlt)
              cases p with
              | none =>
                rw [h.root] at hlt
                exact absurd hlt (Nat.not_lt_zero _)
              | some v => exact hfree v hp hup
            · have := (List.prefix_of_prefix_length_le (prefix_of_snoc hw)
                (prefix_of_snoc hr) heq.le).eq_of_length heq
              exact hpu (h.inj hp hu this.symm)
          have hpu' : t.path p ++ [r] <+: t.path u :=
            List.prefix_of_prefix_length_le hr (prefix_of_snoc hw) (by simpa using Nat.succ_le_of_lt hlt)
          cases u with
          | none =>
            rw [h.root] at hlt
            exact absurd hlt (Nat.not_lt_zero _)
          | some v =>
            obtain ⟨c, hc, hcv⟩ := h.step p v r hp hu hpu'
            refine ⟨c, (hchild hp).mpr (Or.inr hc), ?_⟩
            rw [hnew (hold hp hc)]
            exact hcv.trans (prefix_of_snoc hw)
      · rw [hnew hq] at hr ⊢
        obtain ⟨c, hc, hcq⟩ := h.step p q r hp hq hr
        exact ⟨c, (hchild hp).mpr (Or.inr hc), by rwa [hnew (hold hp hc)]⟩

/-! ## A new node in the middle of an edge -/

/-- The node `u` takes the place of the child `v` of `p`, which becomes the only child of `u`. -/
def split (t : Trie ι σ) (p : Option ι) (v u : ι) (x : List σ) : Trie ι σ where
  nodes := insert u t.nodes
  childs := update (update t.childs p ((t.childs p).map fun c => if c = v then u else c))
    (some u) [v]
  path := update t.path (some u) x

section Split

variable (t : Trie ι σ) {p q : Option ι} {v u : ι} (x : List σ)

theorem mem_split : (t.split p v u x).Mem q ↔ q = some u ∨ t.Mem q := by
  cases q with
  | none => exact (or_iff_right_of_imp fun h => absurd h (by simp)).symm
  | some w => simp [Trie.split, Mem]

theorem path_split_node : (t.split p v u x).path (some u) = x := update_self _ _ _

theorem path_split (hu : u ∉ t.nodes) (hq : t.Mem q) : (t.split p v u x).path q = t.path q :=
  update_of_ne (ne_of_mem hu hq) _ _

theorem childs_split_node : (t.split p v u x).childs (some u) = [v] := update_self _ _ _

theorem childs_split_parent (hu : u ∉ t.nodes) (hp : t.Mem p) :
    (t.split p v u x).childs p = (t.childs p).map fun c => if c = v then u else c := by
  rw [Trie.split]
  dsimp only
  rw [update_of_ne (ne_of_mem hu hp), update_self]

theorem childs_split (hu : u ∉ t.nodes) (hq : t.Mem q) (hqp : q ≠ p) :
    (t.split p v u x).childs q = t.childs q := by
  rw [Trie.split]
  dsimp only
  rw [update_of_ne (ne_of_mem hu hq), update_of_ne hqp]

theorem length_childs_split (hu : u ∉ t.nodes) (hq : t.Mem q) :
    ((t.split p v u x).childs q).length = (t.childs q).length := by
  by_cases hqp : q = p
  · subst hqp
    rw [childs_split_parent t x hu hq, List.length_map]
  · rw [childs_split t x hu hq hqp]

theorem Valid.mem_childs_split {t : Trie ι σ} (h : t.Valid) (hp : t.Mem p) (hv : v ∈ t.childs p)
    (hu : u ∉ t.nodes) (hq : t.Mem q) {c : ι} :
    c ∈ (t.split p v u x).childs q ↔ (q = p ∧ c = u) ∨ (c ∈ t.childs q ∧ c ≠ v) := by
  by_cases hqp : q = p
  · subst hqp
    rw [childs_split_parent t x hu hq, List.mem_map]
    constructor
    · rintro ⟨d, hd, rfl⟩
      by_cases hdv : d = v
      · exact Or.inl ⟨rfl, if_pos hdv⟩
      · rw [if_neg hdv]
        exact Or.inr ⟨hd, hdv⟩
    · rintro (⟨-, rfl⟩ | ⟨hc, hcv⟩)
      · exact ⟨v, hv, if_pos rfl⟩
      · exact ⟨c, hc, if_neg hcv⟩
  · rw [childs_split t x hu hq hqp]
    simp only [hqp, false_and, false_or]
    refine ⟨fun hc => ⟨hc, ?_⟩, And.left⟩
    rintro rfl
    exact hqp (h.unique q p c hq hp hc hv)

end Split

/-- A proper prefix of the string of `v` that is longer than that of its parent gets a node. -/
theorem Valid.split {t : Trie ι σ} (h : t.Valid) {p : Option ι} {v u : ι} {x : List σ} {s : σ}
    (hp : t.Mem p) (hv : v ∈ t.childs p) (hu : u ∉ t.nodes) (hx : t.path p ++ [s] <+: x)
    (hxv : x <+: t.path (some v)) (hlt : x.length < (t.path (some v)).length) :
    (t.split p v u x).Valid := by
  have hvn := h.mem p v hp hv
  have hvu : v ≠ u := fun h => hu (h ▸ hvn)
  have hmem : ∀ q, (t.split p v u x).Mem q ↔ q = some u ∨ t.Mem q := fun q => mem_split t x
  have hpath : ∀ {q}, t.Mem q → (t.split p v u x).path q = t.path q := fun hq =>
    path_split t x hu hq
  have hpathu : (t.split p v u x).path (some u) = x := path_split_node t x
  have hold : ∀ {q c}, t.Mem q → c ∈ t.childs q → c ∈ t.nodes := fun hq hc => h.mem _ _ hq hc
  have hnew : ∀ {c}, c ∈ t.nodes → (t.split p v u x).path (some c) = t.path (some c) := fun hc =>
    hpath (q := some _) hc
  have hchildu : (t.split p v u x).childs (some u) = [v] := childs_split_node t x
  have hchild : ∀ {q c}, t.Mem q → (c ∈ (t.split p v u x).childs q ↔
      (q = p ∧ c = u) ∨ (c ∈ t.childs q ∧ c ≠ v)) := fun hq => h.mem_childs_split x hp hv hu hq
  obtain ⟨s', hs'⟩ := exists_snoc hxv hlt
  -- a node whose string goes on after `x` is below `v`
  have hbelow : ∀ {q}, q ∈ t.nodes → x <+: t.path (some q) → t.path (some v) <+: t.path (some q) :=
    fun hq hxq => h.forced hp hv (hx.trans hxv) hq (hx.trans hxq)
  refine ⟨?_, ?_, ?_, ?_, ?_, ?_, ?_, ?_⟩
  · rw [hpath (q := none) True.intro, h.root]
  · intro q c hq' hc'
    rcases (hmem q).mp hq' with rfl | hq
    · rw [hchildu, List.mem_singleton] at hc'
      rw [hc']
      exact Set.mem_insert_of_mem _ hvn
    · rcases (hchild hq).mp hc' with ⟨-, rfl⟩ | ⟨hc, -⟩
      · exact Set.mem_insert _ _
      · exact Set.mem_insert_of_mem _ (hold hq hc)
  · intro c hc'
    rcases hc' with rfl | hc
    · exact ⟨p, (hmem p).mpr (Or.inr hp), (hchild hp).mpr (Or.inl ⟨rfl, rfl⟩)⟩
    · by_cases hcv : c = v
      · refine ⟨some u, (hmem _).mpr (Or.inl rfl), ?_⟩
        rw [hchildu, hcv]
        exact List.mem_singleton_self v
      · obtain ⟨q, hq, hcq⟩ := h.parent c hc
        exact ⟨q, (hmem q).mpr (Or.inr hq), (hchild hq).mpr (Or.inr ⟨hcq, hcv⟩)⟩
  · -- only `u` has the child `v`
    have honly : ∀ {q c}, t.Mem q → c ∈ (t.split p v u x).childs q →
        c ∈ (t.split p v u x).childs (some u) → False := by
      intro q c hq hcq hcu
      rw [hchildu, List.mem_singleton] at hcu
      subst hcu
      rcases (hchild hq).mp hcq with ⟨-, hcu⟩ | ⟨-, hcc⟩
      · exact hvu hcu
      · exact hcc rfl
    intro q r c hq' hr' hcq' hcr'
    rcases (hmem q).mp hq' with rfl | hq
    · rcases (hmem r).mp hr' with rfl | hr
      · rfl
      · exact (honly hr hcr' hcq').elim
    rcases (hmem r).mp hr' with rfl | hr
    · exact (honly hq hcq' hcr').elim
    rcases (hchild hq).mp hcq' with ⟨rfl, rfl⟩ | ⟨hcq, -⟩
    · rcases (hchild hr).mp hcr' with ⟨rfl, -⟩ | ⟨hcr, -⟩
      · rfl
      · exact absurd (hold hr hcr) hu
    · rcases (hchild hr).mp hcr' with ⟨rfl, rfl⟩ | ⟨hcr, -⟩
      · exact absurd (hold hq hcq) hu
      · exact h.unique q r c hq hr hcq hcr
  · intro q hq'
    rcases (hmem q).mp hq' with rfl | hq
    · rw [hchildu]
      exact List.nodup_singleton v
    · by_cases hqp : q = p
      · subst hqp
        rw [childs_split_parent t x hu hq]
        refine List.Nodup.map_on (fun c hc d hd hcd => ?_) (h.nodup q hq)
        have hcu : c ≠ u := fun heq => hu (heq ▸ hold hq hc)
        have hdu : d ≠ u := fun heq => hu (heq ▸ hold hq hd)
        split_ifs at hcd with hcv hdv hdv
        · rw [hcv, hdv]
        · exact absurd hcd.symm hdu
        · exact absurd hcd hcu
        · exact hcd
      · rw [childs_split t x hu hq hqp]
        exact h.nodup q hq
  · intro q c hq' hc'
    rcases (hmem q).mp hq' with rfl | hq
    · rw [hchildu, List.mem_singleton] at hc'
      rw [hpathu, hc', hnew hvn]
      exact ⟨s', hs'⟩
    rw [hpath hq]
    rcases (hchild hq).mp hc' with ⟨rfl, rfl⟩ | ⟨hc, -⟩
    · exact ⟨s, by rwa [hpathu]⟩
    · rw [hnew (hold hq hc)]
      exact h.extend q c hq hc
  · -- the new node begins like the child whose place it takes
    have hne : ∀ {c r}, c ∈ t.childs p → c ≠ v → t.path p ++ [r] <+: x →
        ¬ t.path p ++ [r] <+: t.path (some c) := fun hc hcv hrx hrc =>
      hcv (h.distinct p _ v _ hp hc hv hrc (hrx.trans hxv))
    intro q c d r hq' hc' hd' hrc hrd
    rcases (hmem q).mp hq' with rfl | hq
    · rw [hchildu, List.mem_singleton] at hc' hd'
      rw [hc', hd']
    rw [hpath hq] at hrc hrd
    rcases (hchild hq).mp hc' with ⟨hqp, hcu⟩ | ⟨hc, hcv⟩
    · rw [hcu, hpathu, hqp] at hrc
      rcases (hchild hq).mp hd' with ⟨-, hdu⟩ | ⟨hd, hdv⟩
      · rw [hcu, hdu]
      · rw [hnew (hold hq hd), hqp] at hrd
        exact absurd hrd (hne (hqp ▸ hd) hdv hrc)
    · rw [hnew (hold hq hc)] at hrc
      rcases (hchild hq).mp hd' with ⟨hqp, hdu⟩ | ⟨hd, -⟩
      · rw [hdu, hpathu, hqp] at hrd
        rw [hqp] at hrc
        exact absurd hrc (hne (hqp ▸ hc) hcv hrd)
      · rw [hnew (hold hq hd)] at hrd
        exact h.distinct q c d r hq hc hd hrc hrd
  · intro q w r hq' hw' hr
    rcases (hmem q).mp hq' with rfl | hq
    · -- below the new node there is `v`
      rw [hpathu] at hr
      rcases hw' with rfl | hw
      · rw [hpathu] at hr
        exact absurd (length_lt_of_snoc hr) (Nat.lt_irrefl _)
      · rw [hnew hw] at hr ⊢
        refine ⟨v, ?_, ?_⟩
        · rw [hchildu]
          exact List.mem_singleton_self v
        · rw [hnew hvn]
          exact hbelow hw (prefix_of_snoc hr)
    rw [hpath hq] at hr
    rcases hw' with rfl | hw
    · rw [hpathu] at hr ⊢
      obtain ⟨c, hc, hrc, hcv⟩ := h.exists_child hq hvn (hr.trans hxv)
      by_cases hcv' : c = v
      · rw [hcv'] at hc
        exact ⟨w, (hchild hq).mpr (Or.inl ⟨h.unique q p v hq hp hc hv, rfl⟩), by rw [hpathu]⟩
      · refine ⟨c, (hchild hq).mpr (Or.inr ⟨hc, hcv'⟩), ?_⟩
        rw [hnew (hold hq hc)]
        -- a child on the way to `v` that is not before the new node would be `v`
        rcases List.prefix_or_prefix_of_prefix hcv hxv with hcx | hxc
        · exact hcx
        · exact absurd (h.eq_of_mem_edge hp hv (hold hq hc) (hx.trans hxc) hcv) hcv'
    · rw [hnew hw] at hr ⊢
      obtain ⟨c, hc, hcw⟩ := h.step q w r hq hw hr
      by_cases hcv : c = v
      · subst hcv
        exact ⟨u, (hchild hq).mpr (Or.inl ⟨h.unique q p c hq hp hc hv, rfl⟩),
          by rw [hpathu]; exact hxv.trans hcw⟩
      · exact ⟨c, (hchild hq).mpr (Or.inr ⟨hc, hcv⟩), by rwa [hnew (hold hq hc)]⟩

end Trie
end CompactTrie
end CKern
