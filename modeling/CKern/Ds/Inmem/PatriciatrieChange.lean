import CKern.Ds.Inmem.Patriciatrie

/-!
# Changes of a patricia trie

* `linkNode_spec`, `Shape.insert`: a new object is a new leaf of the tree.
* `removes_bottom`, `removes_self`, `removes_inner`: the three cases of a removal.  An object leaves
  the tree with its leaf, and its node may have to take the place of another one.
* `step`, `run`: any sequence of calls.  `specStep` and `specRun` say what they do to a list of
  objects.
* `run_eq`: the trie does the same.
-/

namespace CKern
namespace Patricia

open CritBit CritBit.BitTree

/-! ## Insertion -/

section Insert

variable {Addr : Type} {A : GetkeyAdapter Addr} {tree : Patriciatrie Addr} {s : BitTree Addr}
  {c : List (Frame Addr)}

/-- The branch for a new object. -/
def newFrame (A : GetkeyAdapter Addr) (w z : Addr) (d : ℕ) : Frame Addr :=
  ⟨w, d, !bits A z d, leaf z⟩

theorem frameNode_newFrame (w z child : Addr) (d : ℕ) :
    frameNode (newFrame A w z d) child =
      if bits A z d then ⟨d, some child, some z⟩ else ⟨d, some z, some child⟩ := by
  unfold frameNode newFrame
  cases bits A z d <;> rfl

theorem leaves_insert (w z : Addr) (d : ℕ) :
    (fill s (newFrame A w z d :: c)).leaves.Perm (z :: (fill s c).leaves) := by
  rw [leaves_fill, leaves_fill, around_cons]
  exact around_perm ((newFrame A w z d).around_perm s.leaves)

theorem branches_insert (w z : Addr) (d : ℕ) :
    (fill s (newFrame A w z d :: c)).branches.Perm (w :: (fill s c).branches) := by
  refine (branches_fill _ _).trans (List.perm_middle.trans (List.Perm.cons w ?_))
  exact (branches_fill s c).symm

theorem Shape.mem_branches {mem : Addr → Node Addr} (h : Shape A mem (fill s c)) {z : Addr}
    (hz : z ∈ s.branches ++ ctxBranches c) : z ∈ (fill s c).leaves :=
  branches_subset_leaves h.ok ((branches_fill s c).mem_iff.mpr hz)

theorem label_mem_fill {β : Addr → ℕ → Bool} (hs : Ok β s) : s.label ∈ (fill s c).leaves := by
  rw [leaves_fill, mem_around]
  exact .inr (.inl (label_mem_leaves hs))

theorem Shape.position_eq {x : Addr} {key : GetkeyData Addr} {bytes : List UInt8} {fuel d : ℕ}
    {inner : List (Frame Addr)} (h : Shape A tree.mem (fill (leaf x) (inner ++ c)))
    (hfollows : Follows (extBit bytes) (inner ++ c)) (hreads : Reads A bytes key)
    (hinner : ∀ f ∈ inner, d < f.bit) (hbit : ∀ f ∈ c, f.bit < d)
    (hfuel : (inner ++ c).length < fuel) :
    ∃ parent, (if d < (tree.mem (parentOf x (inner ++ c))).bitOffset then
          searchPosition A tree.mem d fuel (getbitinit A key
            (tree.mem (fill (leaf x) (inner ++ c)).label).bitOffset) none
            (fill (leaf x) (inner ++ c)).label
        else some (some (parentOf x (inner ++ c)), x)) =
        some (parent, (fill (leaf x) inner).label) ∧
      ((fill (leaf x) inner).label ∈ (fill (leaf x) (inner ++ c)).branches →
        parent = c.head?.map Frame.label) := by
  have hgrow := h.ctx.2.pairwise (leaves_ne_nil _)
  cases inner with
  | nil =>
    refine ⟨some (parentOf x c), ?_, ?_⟩
    · refine if_neg (Nat.not_lt.mpr ?_)
      cases c with
      | nil =>
        rw [show tree.mem (parentOf x ([] ++ [])) = bottomNode x from Shape.mem_leaf h]
        exact Nat.zero_le d
      | cons g c =>
        change (tree.mem g.label).bitOffset ≤ d
        rw [h.repCtx.2.1, bitOffset_frameNode]
        exact Nat.le_of_lt (hbit g List.mem_cons_self)
    · intro hmem
      cases c with
      | nil => cases hmem
      | cons g c => rfl
  | cons f inner =>
    have hf : (tree.mem f.label).bitOffset = f.bit := by rw [h.repCtx.2.1, bitOffset_frameNode]
    refine ⟨c.head?.map Frame.label, ?_, fun _ => rfl⟩
    change (if d < (tree.mem f.label).bitOffset then _ else _) = _
    rw [if_pos (hf ▸ hinner f List.mem_cons_self), fill_append, label_fill, label_fill]
    rw [fill_append] at h
    rw [List.pairwise_append] at hgrow
    -- the first branch of the inner way has a larger bit
    obtain ⟨g, hg, htop, -⟩ := top_bit hgrow.1 (List.cons_ne_nil _ _) (leaf x).label
    have hrep : RepCtx tree.mem (top (leaf x).label (f :: inner)) c := by
      rw [← label_fill]
      exact h.repCtx.2
    have hbitg : d ≤ (tree.mem (top (leaf x).label (f :: inner))).bitOffset := by
      rw [htop]
      rw [← fill_append] at h
      obtain ⟨child, hchild⟩ := h.mem_frame (List.mem_append_left c hg)
      rw [hchild, bitOffset_frameNode]
      exact Nat.le_of_lt (hinner g hg)
    obtain ⟨hreads', hoffset⟩ :=
      getbitinit_reads hreads (tree.mem (top (top (leaf x).label (f :: inner)) c)).bitOffset
    rw [searchPosition_spec hrep hreads' ?_ hgrow.2.1
      (fun k hk => hfollows k (List.mem_append_right _ hk)) hbit hbitg
      (by rw [List.length_append] at hfuel; omega), Option.or_none]
    intro k hk
    obtain ⟨g', hg', htop', hmin⟩ := top_bit hgrow.2.1 (List.ne_nil_of_mem hk)
      (top (leaf x).label (f :: inner))
    refine hoffset.trans (Nat.div_le_div_right ?_)
    rw [htop']
    rw [← fill_append] at h
    obtain ⟨child, hchild⟩ := h.mem_frame (List.mem_append_right (f :: inner) hg')
    rw [hchild, bitOffset_frameNode]
    exact hmin k hk

variable [DecidableEq Addr]

theorem linkNode_branch (h : Shape A tree.mem (fill s c))
    (hroot : tree.root = some (fill s c).label) (hs : s.label ∈ (fill s c).branches) {z : Addr}
    (hz : z ∉ (fill s c).leaves) {d : ℕ}
    (hok : Ok (bits A) (fill s (newFrame A z z d :: c))) :
    ∃ t', (linkNode tree z (c.head?.map Frame.label) s.label d (bits A z d)).root = some t'.label ∧
      Shape A (linkNode tree z (c.head?.map Frame.label) s.label d (bits A z d)).mem t' ∧
      t'.leaves.Perm (z :: (fill s c).leaves) := by
  obtain ⟨x, hx, hperm⟩ := h.bottom
  have hcond : ¬(tree.mem s.label).right = (tree.mem s.label).left := fun heq =>
    (h.right_eq_left_iff (branches_subset_leaves h.ok hs)).mp heq hs
  have hzx : x ≠ z := fun heq => hz (hperm.mem_iff.mpr (heq ▸ List.mem_cons_self))
  have hxb : x ∉ s.branches ++ ctxBranches c := fun hmem =>
    h.bottom_notMem hperm ((branches_fill s c).mem_iff.mpr hmem)
  have hzb : z ∉ s.branches ++ ctxBranches c := fun hmem => hz (h.mem_branches hmem)
  have hperm' : (fill s (newFrame A z z d :: c)).leaves.Perm
      (x :: (fill s (newFrame A z z d :: c)).branches) := by
    refine (leaves_insert z z d).trans ((List.Perm.cons z hperm).trans ?_)
    exact (List.Perm.swap x z _).trans (List.Perm.cons x (branches_insert z z d).symm)
  unfold linkNode
  rw [if_neg hcond, ← frameNode_newFrame z z]
  refine ⟨fill s (newFrame A z z d :: c), ?_, ?_, leaves_insert z z d⟩
  · rw [label_fill] at hroot ⊢
    rcases c with _ | ⟨g, c⟩
    · rfl
    · exact hroot
  · cases c with
    | nil =>
      refine ⟨hok, rep_fill.mpr ⟨h.repCtx.1.congr fun a ha => ?_, ?_, trivial, trivial⟩,
        x, (Function.update_of_ne hzx _ _).trans hx, hperm'⟩
      · refine Function.update_of_ne ?_ _ _
        rintro rfl
        exact hzb (List.mem_append_left _ ha)
      · exact Function.update_self z _ _
    | cons g c =>
      have hnodup := h.nodup_ctx
      rw [ctxBranches_cons] at hnodup hzb hxb
      obtain ⟨-, hnodupc, hdisj⟩ := List.nodup_append.mp hnodup
      have hgz : g.label ≠ z := by
        rintro rfl
        exact hzb (List.mem_append_right _ List.mem_cons_self)
      have hgx : x ≠ g.label := by
        rintro rfl
        exact hxb (List.mem_append_right _ List.mem_cons_self)
      have hg : Function.update tree.mem z (frameNode (newFrame A z z d) s.label) g.label =
          frameNode g s.label :=
        (Function.update_of_ne hgz _ _).trans h.repCtx.2.1
      have hrepoint : repointRight (frameNode g s.label) s.label (some z) = frameNode g z :=
        repointRight_frameNode (h.ctx.2.label_ne h.ctx.1) z
      have hother : ∀ a, a ≠ z → a ≠ g.label →
          Function.update (Function.update tree.mem z (frameNode (newFrame A z z d) s.label))
            g.label (frameNode g z) a = tree.mem a := fun a haz hag =>
        (Function.update_of_ne hag _ _).trans (Function.update_of_ne haz _ _)
      simp only [List.head?_cons, Option.map_some, hg, hrepoint]
      refine ⟨hok, rep_fill.mpr ⟨h.repCtx.1.congr fun a ha => ?_, ?_, trivial, ?_⟩,
        x, (hother x hzx hgx).trans hx, hperm'⟩
      · refine hother a ?_ (hdisj a ha _ List.mem_cons_self)
        rintro rfl
        exact hzb (List.mem_append_left _ ha)
      · exact (Function.update_of_ne hgz.symm _ _).trans (Function.update_self z _ _)
      · refine h.repCtx.2.repoint (Function.update_self g.label _ _) fun a ha => hother a ?_ ?_
        · rintro rfl
          exact hzb (List.mem_append_right _ (List.mem_cons_of_mem _ ha))
        · rintro rfl
          exact (List.nodup_cons.mp hnodupc).1 ha

theorem linkNode_bottom {b : Addr} (h : Shape A tree.mem (fill (leaf b) c))
    (hroot : tree.root = some (fill (leaf b) c).label) (hb : b ∉ (fill (leaf b) c).branches)
    {z : Addr} (hz : z ∉ (fill (leaf b) c).leaves) {d : ℕ}
    (hok : Ok (bits A) (fill (leaf b) (newFrame A b z d :: c))) (parent : Option Addr) :
    ∃ t', (linkNode tree z parent b d (bits A z d)).root = some t'.label ∧
      Shape A (linkNode tree z parent b d (bits A z d)).mem t' ∧
      t'.leaves.Perm (z :: (fill (leaf b) c).leaves) := by
  obtain ⟨x, hx, hperm⟩ := h.bottom
  have hleaf : b ∈ (fill (leaf b) c).leaves := label_mem_fill (s := leaf b) h.ctx.1
  obtain rfl : b = x := (List.mem_cons.mp (hperm.mem_iff.mp hleaf)).resolve_right hb
  have hbz : b ≠ z := by
    rintro rfl
    exact hz hleaf
  have hcond : (tree.mem b).right = (tree.mem b).left := (h.right_eq_left_iff hleaf).mpr hb
  have hmem : Function.update tree.mem z (bottomNode z) b = bottomNode b :=
    (Function.update_of_ne hbz _ _).trans hx
  have hnode : (if bits A z d then { ({ (bottomNode b) with bitOffset := d }) with right := some z }
      else { ({ (bottomNode b) with bitOffset := d }) with left := some z } : Node Addr) =
      frameNode (newFrame A b z d) b := by
    rw [frameNode_newFrame]
    rfl
  unfold linkNode
  simp only [if_pos hcond, hmem, hnode]
  refine ⟨fill (leaf b) (newFrame A b z d :: c), ?_, ⟨hok, ?_, z, ?_, ?_⟩, leaves_insert b z d⟩
  · rw [hroot, label_fill, label_fill]
    rfl
  · refine rep_fill.mpr ⟨trivial, Function.update_self b _ _, trivial, ?_⟩
    refine h.repCtx.2.congr fun a ha => ?_
    have hab : a ≠ b := by
      rintro rfl
      exact hb ((branches_fill _ c).mem_iff.mpr (List.mem_append_right _ ha))
    have haz : a ≠ z := by
      rintro rfl
      exact hz (h.mem_branches (List.mem_append_right _ ha))
    exact (Function.update_of_ne hab _ _).trans (Function.update_of_ne haz _ _)
  · exact (Function.update_of_ne hbz.symm _ _).trans (Function.update_self z _ _)
  · refine (leaves_insert b z d).trans (List.Perm.cons z ?_)
    exact hperm.trans (branches_insert b z d).symm

/-- **The new node at its position** is a branch above the subtree there, or the new bottom. -/
theorem linkNode_spec (h : Shape A tree.mem (fill s c)) (hroot : tree.root = some (fill s c).label)
    {z : Addr} (hz : z ∉ (fill s c).leaves) {d : ℕ}
    (hbelow : ∀ x ∈ s.leaves, ∀ j < d, bits A z j = bits A x j)
    (hdiff : ∀ x ∈ s.leaves, bits A z d ≠ bits A x d) (hbit : ∀ f ∈ c, f.bit < d)
    {parent : Option Addr}
    (hparent : s.label ∈ (fill s c).branches → parent = c.head?.map Frame.label) :
    ∃ t', (linkNode tree z parent s.label d (bits A z d)).root = some t'.label ∧
      Shape A (linkNode tree z parent s.label d (bits A z d)).mem t' ∧
      t'.leaves.Perm (z :: (fill s c).leaves) := by
  by_cases hs : s.label ∈ (fill s c).branches
  · rw [hparent hs]
    exact linkNode_branch h hroot hs hz (ok_insert h.ctx.1 h.ctx.2 (.inl rfl) hbelow hdiff hbit)
  · cases s with
    | leaf b =>
      exact linkNode_bottom h hroot hs hz
        (ok_insert h.ctx.1 h.ctx.2 (.inr (List.mem_singleton.mpr rfl)) hbelow hdiff hbit) parent
    | branch a bit l r =>
      refine absurd ((branches_fill _ c).mem_iff.mpr (List.mem_append_left _ ?_)) hs
      exact List.mem_cons_self

/-- **Insertion** finds the object with the same key, or there is one object more. -/
theorem Shape.insert {t : BitTree Addr} (h : Shape A tree.mem t) (hroot : tree.root = some t.label)
    {z : Addr} {fuel : ℕ} (hlimit : (A.key z).length < keyLimit)
    (hlength : t.leaves.length < fuel)
    (hfuel : ∀ a ∈ z :: t.leaves, (A.key a).length + 2 ≤ fuel) :
    (∃ y ∈ t.leaves, A.key y = A.key z ∧
        insertPatriciatrie A fuel tree z = some (tree, .error (.EEXIST, some y))) ∨
      (∀ y ∈ t.leaves, A.key y ≠ A.key z) ∧
        ∃ tree' t', insertPatriciatrie A fuel tree z = some (tree', .ok ()) ∧
          tree'.root = some t'.label ∧ Shape A tree'.mem t' ∧
          t'.leaves.Perm (z :: t.leaves) := by
  have hfirst := reads_init1 (A := A) z
  obtain ⟨key, x, c, hfind, rfl, hfollows, hreads⟩ :=
    h.findnode_eq hfirst (offset_init1 z) (Nat.le_of_lt hlength)
  have hx : x ∈ (fill (leaf x) c).leaves := label_mem_fill (s := leaf x) h.ctx.1
  unfold insertPatriciatrie
  simp only [hfirst.streamsize, if_pos hlimit, hroot, hfind, Option.bind_eq_bind, Option.bind_some]
  by_cases hxz : x = z
  · rw [if_pos hxz]
    exact .inl ⟨x, hx, by rw [hxz], rfl⟩
  · rw [if_neg hxz]
    obtain ⟨newkey, d, hfd, hreads', hd⟩ := getFirstDifferentBit_eq (reads_init1 (A := A) x) hreads
      (hfuel x (List.mem_cons_of_mem z hx)) (hfuel z List.mem_cons_self)
    simp only [hfd, Option.bind_some]
    rcases hd with ⟨rfl, hkey⟩ | ⟨j, rfl, hne, hbelow⟩
    · exact .inl ⟨x, hx, hkey, rfl⟩
    · have hdiffer : ∀ y ∈ (fill (leaf x) c).leaves, A.key y ≠ A.key z := by
        intro y hy hkey
        rw [h.eq_of_key hfollows hy hkey] at hkey
        exact hne (congrArg (extBit · j) hkey)
      refine .inr ⟨hdiffer, ?_⟩
      -- the branches above the new one have smaller bits, the others larger ones
      obtain ⟨inner, outer, rfl, hinner, houter⟩ :=
        exists_split (h.ctx.2.pairwise (leaves_ne_nil _)) j
      have hbit : ∀ f ∈ outer, f.bit < j := by
        intro f hf
        refine Nat.lt_of_le_of_ne (houter f hf) ?_
        rintro rfl
        refine hne ?_
        have hmem : f ∈ inner ++ outer := List.mem_append_right _ hf
        rw [← hfollows f hmem]
        exact (follows_of_mem h.ctx.2 (List.mem_singleton.mpr rfl) f hmem).symm
      obtain ⟨parent, hposition, hparent⟩ := h.position_eq (d := j) hfollows hreads' hinner hbit
        (h.length_lt.trans hlength)
      simp only [hposition, Option.bind_some]
      rw [fill_append] at h hroot hparent hdiffer ⊢
      have hagree : ∀ y ∈ (fill (leaf x) inner).leaves, ∀ i ≤ j, bits A y i = bits A x i := by
        intro y hy
        rw [leaves_fill] at hy
        refine (ok_fill.mp h.ctx.1).2.agree_around (List.mem_singleton.mpr rfl) ?_ hinner hy
        intro y hy i _
        rw [List.mem_singleton.mp hy]
      have hz : z ∉ (fill (fill (leaf x) inner) outer).leaves := fun hz => hdiffer z hz rfl
      obtain ⟨t', hroot', hshape, hperm⟩ := linkNode_spec h hroot hz (d := j)
        (fun y hy i hi => (hbelow i hi).symm.trans (hagree y hy i (Nat.le_of_lt hi)).symm)
        (fun y hy heq => hne (((hagree y hy j le_rfl).symm.trans heq.symm))) hbit hparent
      exact ⟨_, t', rfl, hroot', hshape, hperm⟩

end Insert

/-! ## Removal -/

section Contract

variable {Addr : Type} {A : GetkeyAdapter Addr} {mem : Addr → Node Addr} {d : Addr} {f : Frame Addr}
  {c : List (Frame Addr)}

theorem leaves_contract (d : Addr) (f : Frame Addr) (c : List (Frame Addr)) :
    (fill (leaf d) (f :: c)).leaves.Perm (d :: (fill f.sibling c).leaves) := by
  rw [leaves_fill, leaves_fill, around_cons]
  exact around_perm ((f.around_perm [d]).trans List.perm_append_comm)

theorem branches_contract (d : Addr) (f : Frame Addr) (c : List (Frame Addr)) :
    (fill (leaf d) (f :: c)).branches.Perm (f.label :: (fill f.sibling c).branches) :=
  (branches_fill _ _).trans (List.Perm.cons _ (branches_fill _ _).symm)

theorem okCtx_contract (h : OkCtx (bits A) (f :: c) [d]) (hne : ∀ g ∈ c, g.label ≠ d) :
    OkCtx (bits A) c f.sibling.leaves := by
  refine h.2.2.erase (d := d) ?_ ?_ hne
  · exact fun y hy => Frame.mem_around.mpr (.inr hy)
  · intro y hy hyd
    exact (Frame.mem_around.mp hy).resolve_left fun hy => hyd (List.mem_singleton.mp hy)

theorem around_relabel (inner outer : List (Frame Addr)) (g : Frame Addr) (q : Addr)
    (L : List Addr) :
    around (inner ++ { g with label := q } :: outer) L = around (inner ++ g :: outer) L := by
  induction inner generalizing L with
  | nil => rw [List.nil_append, List.nil_append, around_cons, around_cons]; rfl
  | cons f inner ih => rw [List.cons_append, List.cons_append, around_cons, around_cons, ih]

theorem branches_relabel (s : BitTree Addr) (inner outer : List (Frame Addr)) (g : Frame Addr)
    (q : Addr) :
    (g.label :: (fill s (inner ++ { g with label := q } :: outer)).branches).Perm
      (q :: (fill s (inner ++ g :: outer)).branches) := by
  have hmiddle : ∀ k : Frame Addr, (fill s (inner ++ k :: outer)).branches.Perm
      (k.label :: ((s.branches ++ ctxBranches inner) ++
        (k.sibling.branches ++ ctxBranches outer))) :=
    fun k => by
      refine (branches_fill _ _).trans ?_
      rw [ctxBranches_append, ctxBranches_cons, ← List.append_assoc]
      exact List.perm_middle
  refine (List.Perm.cons _ (hmiddle { g with label := q })).trans ?_
  exact (List.Perm.swap q g.label _).trans (List.Perm.cons _ (hmiddle g).symm)

theorem Shape.congr {t : BitTree Addr} {mem' : Addr → Node Addr} (h : Shape A mem t)
    (hmem : ∀ a ∈ t.leaves, mem' a = mem a) : Shape A mem' t := by
  obtain ⟨x, hx, hperm⟩ := h.bottom
  refine ⟨h.ok, h.rep.congr fun a ha => hmem a (branches_subset_leaves h.ok ha), x, ?_, hperm⟩
  exact (hmem x (hperm.mem_iff.mpr List.mem_cons_self)).trans hx

variable {bytes : List UInt8} {fuel : ℕ} {old new : Addr}

theorem search_to (hrep : RepCtx mem old c) (hnil : c ≠ []) (hne : ∀ f ∈ c, f.label ≠ old)
    (hgrow : c.Pairwise fun f g => g.bit < f.bit) (hfollows : Follows (extBit bytes) c)
    (hfuel : c.length ≤ fuel) [DecidableEq Addr] :
    search A mem (fun _ node => node ≠ old) fuel (initfullkeyGetkeydata bytes) (top old c) =
      some (initfullkeyGetkeydata bytes, (c.head hnil).label, old) := by
  obtain ⟨key, hwalk, -⟩ := walk_spec (fun _ node => decide (node ≠ old))
    (fun _ _ _ => ()) hrep hnil (reads_full (A := A) bytes) (fun _ _ => Nat.zero_le _) hgrow
    hfollows (by
      intro inner g outer hc
      rw [decide_eq_true_iff]
      refine ⟨?_, fun hinner => ?_⟩
      · rintro hold rfl
        exact hold rfl
      · rw [hc, List.pairwise_append] at hgrow
        obtain ⟨k, hk, htop, -⟩ := top_bit hgrow.1 hinner old
        rw [htop]
        exact hne k (hc ▸ List.mem_append_left _ hk)) hfuel ()
  have hkey := walk_full hwalk
  change key = _ at hkey
  rw [search, hwalk, hkey]
  rfl

variable [DecidableEq Addr] {tree : Patriciatrie Addr}

/-- **A node is replaced**, if the way to it does not go through it. -/
theorem replaceNode_spec (tree : Patriciatrie Addr) (hrep : RepCtx tree.mem old c)
    (hroot : tree.root = some (top old c)) (hne : ∀ f ∈ c, f.label ≠ old)
    {L : List Addr} (hctx : OkCtx (bits A) c L) (hold : old ∈ L) (hnodup : (ctxBranches c).Nodup)
    (hfollows : Follows (extBit bytes) c) (hfuel : c.length ≤ fuel) (new : Addr) :
    ∃ tree', replaceNode A fuel tree (initfullkeyGetkeydata bytes) old (some new) = some tree' ∧
      tree'.root = some (top new c) ∧ RepCtx tree'.mem new c ∧
      ∀ a ∉ ctxBranches c, tree'.mem a = tree.mem a := by
  have hgrow := hctx.pairwise (List.ne_nil_of_mem hold)
  unfold replaceNode
  simp only [hroot, Option.bind_eq_bind, Option.bind_some]
  cases c with
  | nil =>
    rw [if_pos (show top old [] = old from rfl)]
    exact ⟨_, rfl, rfl, trivial, fun a _ => rfl⟩
  | cons g c =>
    have htop : top old (g :: c) ≠ old := by
      obtain ⟨k, hk, htop, -⟩ := top_bit hgrow (List.cons_ne_nil _ _) old
      rw [htop]
      exact hne k hk
    have hg : repointLeft (tree.mem g.label) old (some new) = frameNode g new := by
      rw [hrep.1]
      exact repointLeft_frameNode (hctx.sibling_label_ne List.mem_cons_self hold) new
    rw [if_neg htop, search_to hrep (List.cons_ne_nil _ _) hne hgrow hfollows hfuel]
    simp only [Option.bind_some, List.head_cons, hg]
    refine ⟨_, rfl, rfl, hrep.repoint (Function.update_self g.label _ _) fun a ha => ?_,
      fun a ha => ?_⟩
    · refine Function.update_of_ne ?_ _ _
      rintro rfl
      exact (List.nodup_cons.mp hnodup).1 ha
    · refine Function.update_of_ne ?_ _ _
      rintro rfl
      exact ha List.mem_cons_self

/-- Both parts of the removal of a node. -/
def Removes (A : GetkeyAdapter Addr) (fuel : ℕ) (tree : Patriciatrie Addr) (bytes : List UInt8)
    (parent node : Addr) (t' : BitTree Addr) : Prop :=
  ∃ tree₁ replaced tree₂,
    unlinkNode A fuel tree (initfullkeyGetkeydata bytes) parent node = some (tree₁, replaced) ∧
    (match replaced with
      | none => some tree₁
      | some (replacednode, replacedwith) =>
        replaceNode A fuel tree₁ (initfullkeyGetkeydata bytes) replacednode replacedwith) =
      some tree₂ ∧
    tree₂.root = some t'.label ∧ Shape A tree₂.mem t'

theorem removes_bottom (h : Shape A tree.mem (fill (leaf d) (f :: c)))
    (hroot : tree.root = some (fill (leaf d) (f :: c)).label)
    (hfollows : Follows (extBit bytes) (f :: c)) (hfuel : (f :: c).length ≤ fuel)
    (hd : d ∉ (fill (leaf d) (f :: c)).branches) :
    Removes A fuel tree bytes f.label d (fill f.sibling c) := by
  have hmem : d ∈ (fill (leaf d) (f :: c)).leaves := label_mem_fill (s := leaf d) h.ctx.1
  obtain ⟨x, hx, hperm⟩ := h.bottom
  obtain rfl : d = x := (List.mem_cons.mp (hperm.mem_iff.mp hmem)).resolve_right hd
  have hnodup := h.nodup_ctx
  rw [ctxBranches_cons] at hnodup
  obtain ⟨hq, hnodup⟩ := List.nodup_cons.mp hnodup
  obtain ⟨-, hnodupc, hdisj⟩ := List.nodup_append.mp hnodup
  have hqc : f.label ∉ ctxBranches c := fun hmem => hq (List.mem_append_right _ hmem)
  have hqd : ∀ g ∈ f :: c, g.label ≠ d := by
    rintro g hg rfl
    exact hd ((branches_fill _ _).mem_iff.mpr (List.mem_append_right _ (label_mem_ctxBranches hg)))
  have hrepc : RepCtx (Function.update tree.mem f.label (bottomNode f.label)) f.label c := by
    refine h.repCtx.2.2.2.congr fun a ha => Function.update_of_ne ?_ _ _
    rintro rfl
    exact hqc ha
  have hok : Ok (bits A) (fill f.sibling c) :=
    ok_fill.mpr ⟨h.ctx.2.2.1, okCtx_contract h.ctx.2 fun g hg => hqd g (List.mem_cons_of_mem f hg)⟩
  have hperm' : (fill f.sibling c).leaves.Perm (f.label :: (fill f.sibling c).branches) := by
    refine List.Perm.cons_inv (a := d) ?_
    exact (leaves_contract d f c).symm.trans
      (hperm.trans (List.Perm.cons d (branches_contract d f c)))
  have hcond : (tree.mem d).right = (tree.mem d).left := (h.right_eq_left_iff hmem).mpr hd
  have hnotroot : tree.root ≠ some d := by
    rw [hroot, label_fill]
    obtain ⟨k, hk, htop, -⟩ := top_bit (h.ctx.2.pairwise (leaves_ne_nil _)) (List.cons_ne_nil _ _)
      (leaf d).label
    rw [htop]
    exact fun heq => hqd k hk (Option.some.inj heq)
  have hroot' : tree.root = some (top f.label c) := by
    rw [hroot, label_fill]
    rfl
  have hnode : tree.mem f.label = frameNode f d := h.repCtx.2.1
  have hother : (if (frameNode f d).left = some d then (frameNode f d).right
      else (frameNode f d).left) = some f.sibling.label :=
    other_frameNode (h.ctx.2.label_ne h.ctx.1)
  unfold Removes unlinkNode
  simp only [if_pos hcond, if_neg hnotroot, hnode, points_frameNode, hother]
  by_cases hsib : f.label = d ∨ f.label = f.sibling.label
  · -- the sibling is the object of the parent
    have hsib' : f.label = f.sibling.label := hsib.resolve_left (hqd f List.mem_cons_self)
    have hleaf : Rep (Function.update tree.mem f.label (bottomNode f.label)) f.sibling := by
      cases hs : f.sibling with
      | leaf a => trivial
      | branch a bit l r =>
        refine absurd (List.mem_append_left _ ?_) hq
        rw [hsib', hs]
        exact List.mem_cons_self
    rw [if_pos hsib]
    refine ⟨_, none, _, rfl, rfl, ?_, hok, rep_fill.mpr ⟨hleaf, ?_⟩, f.label,
      Function.update_self f.label _ _, hperm'⟩
    · rw [label_fill, ← hsib']
      exact hroot'
    · rw [← hsib']
      exact hrepc
  · rw [if_neg hsib]
    obtain ⟨tree₂, hreplace, hroot₂, hrep₂, hsame⟩ := replaceNode_spec
      { tree with mem := Function.update tree.mem f.label (bottomNode f.label) } hrepc
      hroot' (fun g hg heq => hqc (heq ▸ label_mem_ctxBranches hg)) h.ctx.2.2.2 h.ctx.2.1.1 hnodupc
      (fun g hg => hfollows g (List.mem_cons_of_mem f hg))
      (Nat.le_trans (Nat.le_succ _) hfuel) f.sibling.label
    refine ⟨_, _, tree₂, rfl, hreplace, ?_, hok, rep_fill.mpr ⟨?_, hrep₂⟩, f.label, ?_, hperm'⟩
    · rw [hroot₂, label_fill]
    · refine h.repCtx.2.2.1.congr fun a ha => ?_
      rw [hsame a fun hac => hdisj a ha a hac rfl]
      refine Function.update_of_ne ?_ _ _
      rintro rfl
      exact hq (List.mem_append_left _ ha)
    · rw [hsame _ hqc]
      exact Function.update_self f.label _ _

theorem removes_self (h : Shape A tree.mem (fill (leaf d) (f :: c)))
    (hroot : tree.root = some (fill (leaf d) (f :: c)).label)
    (hfollows : Follows (extBit bytes) (f :: c)) (hfuel : (f :: c).length ≤ fuel)
    (hd : f.label = d) : Removes A fuel tree bytes d d (fill f.sibling c) := by
  have hmem : d ∈ (fill (leaf d) (f :: c)).leaves := label_mem_fill (s := leaf d) h.ctx.1
  have hbranch : d ∈ (fill (leaf d) (f :: c)).branches := by
    refine (branches_fill _ _).mem_iff.mpr (List.mem_append_right _ ?_)
    rw [← hd]
    exact List.mem_cons_self
  obtain ⟨x, hx, hperm⟩ := h.bottom
  have hxbranch := h.bottom_notMem hperm
  have hnodup := h.nodup_ctx
  rw [ctxBranches_cons] at hnodup
  obtain ⟨hq, hnodup⟩ := List.nodup_cons.mp hnodup
  obtain ⟨-, hnodupc, hdisj⟩ := List.nodup_append.mp hnodup
  have hqc : ∀ g ∈ c, g.label ≠ d := by
    rintro g hg rfl
    exact hq (hd ▸ List.mem_append_right _ (label_mem_ctxBranches hg))
  have hrepc : RepCtx tree.mem d c := hd ▸ h.repCtx.2.2.2
  have hok : Ok (bits A) (fill f.sibling c) :=
    ok_fill.mpr ⟨h.ctx.2.2.1, okCtx_contract h.ctx.2 hqc⟩
  have hperm' : (fill f.sibling c).leaves.Perm (x :: (fill f.sibling c).branches) := by
    refine List.Perm.cons_inv (a := d) ?_
    refine (leaves_contract d f c).symm.trans (hperm.trans ?_)
    refine (List.Perm.cons x (branches_contract d f c)).trans ?_
    rw [hd]
    exact List.Perm.swap d x _
  have hcond : ¬(tree.mem d).right = (tree.mem d).left := fun heq =>
    (h.right_eq_left_iff hmem).mp heq hbranch
  have hroot' : tree.root = some (top d c) := by
    rw [hroot, label_fill, ← hd]
    rfl
  have hnode : tree.mem d = frameNode f d := hd ▸ h.repCtx.2.1
  have hpoints : (frameNode f d).left = some d ∨ (frameNode f d).right = some d :=
    points_frameNode.mpr (.inl rfl)
  have hother : (if (frameNode f d).left = some d then (frameNode f d).right
      else (frameNode f d).left) = some f.sibling.label :=
    other_frameNode (h.ctx.2.label_ne h.ctx.1)
  rw [hnode] at hcond
  unfold Removes unlinkNode
  simp only [hnode, if_neg hcond, if_pos hpoints, hother]
  obtain ⟨tree₂, hreplace, hroot₂, hrep₂, hsame⟩ := replaceNode_spec tree hrepc hroot' hqc
    h.ctx.2.2.2 (hd ▸ h.ctx.2.1.1) hnodupc (fun g hg => hfollows g (List.mem_cons_of_mem f hg))
    (Nat.le_trans (Nat.le_succ _) hfuel) f.sibling.label
  refine ⟨_, _, tree₂, rfl, hreplace, ?_, hok, rep_fill.mpr ⟨?_, hrep₂⟩, x, ?_, hperm'⟩
  · rw [hroot₂, label_fill]
  · exact h.repCtx.2.2.1.congr fun a ha => hsame a fun hac => hdisj a ha a hac rfl
  · rw [hsame x fun hxc => ?_]
    · exact hx
    · refine hxbranch ((branches_fill _ _).mem_iff.mpr (List.mem_append_right _ ?_))
      exact List.mem_cons_of_mem _ (List.mem_append_right _ hxc)

variable {inner outer : List (Frame Addr)} {g : Frame Addr}

/-- The node is a branch further up, where its parent takes its place. -/
theorem removes_inner (h : Shape A tree.mem (fill (leaf d) (f :: (inner ++ g :: outer))))
    (hroot : tree.root = some (fill (leaf d) (f :: (inner ++ g :: outer))).label)
    (hfollows : Follows (extBit bytes) (f :: (inner ++ g :: outer)))
    (hfuel : (f :: (inner ++ g :: outer)).length ≤ fuel) (hd : g.label = d) :
    Removes A fuel tree bytes f.label d
      (fill f.sibling (inner ++ { g with label := f.label } :: outer)) := by
  have hmem : d ∈ (fill (leaf d) (f :: (inner ++ g :: outer))).leaves :=
    label_mem_fill (s := leaf d) h.ctx.1
  obtain ⟨x, hx, hperm⟩ := h.bottom
  have hxbranch := h.bottom_notMem hperm
  have hctx := h.ctx.2
  have hg : g ∈ f :: (inner ++ g :: outer) :=
    List.mem_cons_of_mem f (List.mem_append_right _ List.mem_cons_self)
  have hbranch : d ∈ (fill (leaf d) (f :: (inner ++ g :: outer))).branches := by
    refine (branches_fill _ _).mem_iff.mpr (List.mem_append_right _ ?_)
    rw [← hd]
    exact label_mem_ctxBranches hg
  -- the way from the node to its parent
  obtain ⟨p, rest, hway⟩ : ∃ p rest, inner ++ [g] = p :: rest := by
    cases inner with
    | nil => exact ⟨g, [], rfl⟩
    | cons p rest => exact ⟨p, rest ++ [g], rfl⟩
  have hsplit : inner ++ g :: outer = (p :: rest) ++ outer := by rw [← hway, List.append_assoc]; rfl
  have hnodup := h.nodup_ctx
  rw [ctxBranches_cons, hsplit, ctxBranches_append, ← hway] at hnodup
  obtain ⟨hq, hnodup⟩ := List.nodup_cons.mp hnodup
  obtain ⟨-, hnodup, hdisj⟩ := List.nodup_append.mp hnodup
  obtain ⟨hnodupw, hnodupo, hdisjo⟩ := List.nodup_append.mp hnodup
  have hdw : d ∈ ctxBranches (inner ++ [g]) := by
    rw [← hd]
    exact label_mem_ctxBranches (List.mem_append_right _ (List.mem_singleton.mpr rfl))
  have hpw : p.label ∈ ctxBranches (inner ++ [g]) := by
    rw [hway]
    exact List.mem_cons_self
  have hqw : f.label ∉ ctxBranches (inner ++ [g]) := fun hmem =>
    hq (List.mem_append_right _ (List.mem_append_left _ hmem))
  have hqd : f.label ≠ d := fun heq => hqw (heq ▸ hdw)
  have htopd : top f.label (inner ++ [g]) = d := by
    rw [top_append, ← hd]
    rfl
  have hinner : ∀ k ∈ inner, k.label ≠ d := by
    rintro k hk rfl
    rw [ctxBranches_append] at hnodupw
    refine (List.nodup_append.mp hnodupw).2.2 _ (label_mem_ctxBranches hk) _ ?_ rfl
    rw [← hd]
    exact List.mem_cons_self
  have houter : ∀ k ∈ outer, k.label ≠ d := by
    rintro k hk rfl
    exact hdisjo _ hdw _ (label_mem_ctxBranches hk) rfl
  -- the conditions of the three cases
  have hcond : ¬(tree.mem d).right = (tree.mem d).left := fun heq =>
    (h.right_eq_left_iff hmem).mp heq hbranch
  have hrep := h.repCtx.2.2.2
  rw [hsplit, ← hway, repCtx_append, htopd] at hrep
  obtain ⟨hrepw, hrepo⟩ := hrep
  have hpoints : ¬((tree.mem d).left = some d ∨ (tree.mem d).right = some d) := by
    have hnode : tree.mem d = frameNode g (top f.label inner) := by
      rw [← hd]
      exact (repCtx_append.mp hrepw).2.1
    rw [hnode, points_frameNode]
    rintro (heq | heq)
    · cases inner with
      | nil => exact hqd heq.symm
      | cons k i =>
        obtain ⟨m, hm, htop, -⟩ := top_bit
          (List.pairwise_append.mp (List.pairwise_cons.mp (hctx.pairwise (leaves_ne_nil _))).2).1
          (List.cons_ne_nil _ _) f.label
        exact hinner m hm (htop.symm.trans heq.symm)
    · exact hctx.sibling_label_ne hg (List.mem_singleton.mpr rfl) heq.symm
  -- the parent of the node that takes the place
  have hgrow : (p :: rest).Pairwise fun f g => g.bit < f.bit := by
    have := (List.pairwise_cons.mp (hctx.pairwise (leaves_ne_nil _))).2
    rw [hsplit] at this
    exact (List.pairwise_append.mp this).1
  have hsubset : ∀ k ∈ p :: rest, k ∈ inner ++ g :: outer := fun k hk =>
    hsplit ▸ List.mem_append_left outer hk
  have hsearch : search A tree.mem (fun _ node => node ≠ f.label) fuel
      (initfullkeyGetkeydata bytes) d = some (initfullkeyGetkeydata bytes, p.label, f.label) := by
    rw [hway] at hrepw hqw htopd
    have := search_to (A := A) hrepw (List.cons_ne_nil p rest)
      (fun k hk heq => hqw (heq ▸ label_mem_ctxBranches hk)) hgrow
      (fun k hk => hfollows k (List.mem_cons_of_mem f (hsubset k hk)))
      (show (p :: rest).length ≤ fuel by
        rw [List.length_cons, hsplit, List.length_append] at hfuel
        omega)
    rwa [htopd] at this
  have hother : (if (tree.mem f.label).left = some d then (tree.mem f.label).right
      else (tree.mem f.label).left) = some f.sibling.label := by
    rw [h.repCtx.2.1]
    exact other_frameNode (hctx.label_ne h.ctx.1)
  have hpnode : repointLeft (tree.mem p.label) f.label (some f.sibling.label) =
      frameNode p f.sibling.label := by
    rw [hway] at hrepw
    rw [hrepw.1]
    exact repointLeft_frameNode
      (hctx.2.2.sibling_label_ne (hsubset p List.mem_cons_self) hctx.1.1) _
  have hroot' : tree.root = some (top d outer) := by
    rw [hroot, label_fill, ← hd, hsplit, ← hway, top, top_append, htopd, hd]
  -- the memory with the new branch
  have hrep₁ : RepCtx (Function.update tree.mem p.label (frameNode p f.sibling.label))
      f.sibling.label (inner ++ [g]) := by
    rw [hway] at hrepw hnodupw ⊢
    refine hrepw.repoint (Function.update_self p.label _ _) fun a ha => ?_
    refine Function.update_of_ne ?_ _ _
    rintro rfl
    exact (List.nodup_cons.mp hnodupw).1 ha
  generalize hm₁ : Function.update tree.mem p.label (frameNode p f.sibling.label) = m₁ at hrep₁
  have hsame₁ : ∀ a ∉ ctxBranches (inner ++ [g]), m₁ a = tree.mem a := by
    intro a ha
    rw [← hm₁]
    refine Function.update_of_ne ?_ _ _
    rintro rfl
    exact ha hpw
  have hsame₂ : ∀ a, a ≠ f.label → a ∉ ctxBranches (inner ++ [g]) →
      Function.update m₁ f.label (m₁ d) a = tree.mem a := fun a haq haw =>
    (Function.update_of_ne haq _ _).trans (hsame₁ a haw)
  have hrep₂ : RepCtx (Function.update m₁ f.label (m₁ d)) f.sibling.label
      (inner ++ [{ g with label := f.label }]) := by
    obtain ⟨hi, hgnode, hgsib, -⟩ := repCtx_append.mp hrep₁
    have hkeep : ∀ a ∈ ctxBranches (inner ++ [g]),
        Function.update m₁ f.label (m₁ d) a = m₁ a := by
      intro a ha
      refine Function.update_of_ne ?_ _ _
      rintro rfl
      exact hqw ha
    rw [ctxBranches_append] at hkeep
    refine repCtx_append.mpr ⟨hi.congr fun a ha => hkeep a (List.mem_append_left _ ha), ?_, ?_,
      trivial⟩
    · rw [Function.update_self, ← hd, hgnode]
      rfl
    · refine hgsib.congr fun a ha => hkeep a (List.mem_append_right _ ?_)
      exact List.mem_cons_of_mem _ (List.mem_append_left _ ha)
  have hrepo₂ : RepCtx (Function.update m₁ f.label (m₁ d)) d outer := by
    refine hrepo.congr fun a ha => hsame₂ a ?_ fun haw => hdisjo a haw a ha rfl
    rintro rfl
    exact hq (List.mem_append_right _ (List.mem_append_right _ ha))
  have hctxo := (okCtx_append.mp (show OkCtx (bits A) ((f :: inner) ++ g :: outer) [d] from hctx)).2
  obtain ⟨tree₂, hreplace, hroot₂, hrep₃, hsame₃⟩ := replaceNode_spec
    { tree with mem := Function.update m₁ f.label (m₁ d) } hrepo₂ hroot' houter hctxo.2.2
    (hd ▸ hctxo.1.1) hnodupo
    (fun k hk => hfollows k (List.mem_cons_of_mem f
      (List.mem_append_right _ (List.mem_cons_of_mem g hk))))
    (show outer.length ≤ fuel by
      rw [List.length_cons, hsplit, List.length_append] at hfuel
      omega) f.label
  have hsame : ∀ a, a ≠ f.label → a ∉ ctxBranches (inner ++ [g]) → a ∉ ctxBranches outer →
      tree₂.mem a = tree.mem a := fun a haq haw hao => (hsame₃ a hao).trans (hsame₂ a haq haw)
  -- the tree without the leaf
  have hsib : f.label ∈ f.sibling.leaves :=
    (Frame.mem_around.mp hctx.1.1).resolve_left fun hmem => hqd (List.mem_singleton.mp hmem)
  have hok : Ok (bits A) (fill f.sibling (inner ++ { g with label := f.label } :: outer)) := by
    refine ok_fill.mpr ⟨hctx.2.1, hctx.2.2.relabel (d := d) ?_ ?_ hsib hinner houter⟩
    · exact fun y hy => Frame.mem_around.mpr (.inr hy)
    · intro y hy hyd
      exact (Frame.mem_around.mp hy).resolve_left fun hy => hyd (List.mem_singleton.mp hy)
  have hperm' : (fill f.sibling (inner ++ { g with label := f.label } :: outer)).leaves.Perm
      (x :: (fill f.sibling (inner ++ { g with label := f.label } :: outer)).branches) := by
    refine List.Perm.cons_inv (a := d) ?_
    rw [leaves_fill, around_relabel, ← leaves_fill]
    refine (leaves_contract d f _).symm.trans (hperm.trans ?_)
    refine (List.Perm.cons x ((branches_contract d f _).trans ?_)).trans (List.Perm.swap d x _)
    have := branches_relabel f.sibling inner outer g f.label
    rw [hd] at this
    exact this.symm
  unfold Removes unlinkNode
  simp only [if_neg hcond, if_neg hpoints, hsearch, Option.bind_eq_bind, Option.bind_some, hother,
    hpnode, hm₁]
  refine ⟨_, _, tree₂, rfl, hreplace, ?_, hok, rep_fill.mpr ⟨?_, ?_⟩, x, ?_, hperm'⟩
  · rw [hroot₂, label_fill, top_append]
    rfl
  · refine h.repCtx.2.2.1.congr fun a ha => hsame a ?_ ?_ ?_
    · rintro rfl
      exact hq (List.mem_append_left _ ha)
    · exact fun haw => hdisj a ha a (List.mem_append_left _ haw) rfl
    · exact fun hao => hdisj a ha a (List.mem_append_right _ hao) rfl
  · rw [show inner ++ { g with label := f.label } :: outer =
      (inner ++ [{ g with label := f.label }]) ++ outer by simp, repCtx_append]
    refine ⟨hrep₂.congr fun a ha => hsame₃ a fun hao => ?_, ?_⟩
    · rw [ctxBranches_append] at ha
      rcases List.mem_append.mp ha with ha | ha
      · refine hdisjo a ?_ a hao rfl
        rw [ctxBranches_append]
        exact List.mem_append_left _ ha
      · rcases List.mem_cons.mp ha with rfl | ha
        · exact hq (List.mem_append_right _ (List.mem_append_right _ hao))
        · refine hdisjo a ?_ a hao rfl
          rw [ctxBranches_append]
          exact List.mem_append_right _ (List.mem_cons_of_mem _ ha)
    · rw [top_append]
      exact hrep₃
  · have hxall : x ∉ f.label :: (f.sibling.branches ++
        (ctxBranches (inner ++ [g]) ++ ctxBranches outer)) := by
      intro hmem
      refine hxbranch ((branches_fill _ _).mem_iff.mpr (List.mem_append_right _ ?_))
      rw [ctxBranches_cons, hsplit, ctxBranches_append, ← hway]
      exact hmem
    simp only [List.mem_cons, List.mem_append, not_or] at hxall
    rw [hsame x hxall.1 hxall.2.2.1 hxall.2.2.2]
    exact hx

/-- **The object at the end of the search** can be removed, when there are others. -/
theorem Shape.removes (h : Shape A tree.mem (fill (leaf d) (f :: c)))
    (hroot : tree.root = some (fill (leaf d) (f :: c)).label)
    (hfollows : Follows (extBit bytes) (f :: c)) (hfuel : (f :: c).length ≤ fuel) :
    ∃ t', Removes A fuel tree bytes f.label d t' ∧
      (fill (leaf d) (f :: c)).leaves.Perm (d :: t'.leaves) := by
  by_cases hbranch : d ∈ (fill (leaf d) (f :: c)).branches
  · by_cases hfd : f.label = d
    · refine ⟨_, ?_, leaves_contract d f c⟩
      have := removes_self h hroot hfollows hfuel hfd
      rwa [← hfd] at this ⊢
    · -- the branch with the label of the leaf is further up
      have hmem : d ∈ ctxBranches (f :: c) :=
        (List.mem_append.mp ((branches_fill _ _).mem_iff.mp hbranch)).resolve_left List.not_mem_nil
      obtain ⟨g, hg, hgd⟩ := h.ctx.2.exists_frame (List.mem_singleton.mpr rfl) hmem
      have hgc : g ∈ c := (List.mem_cons.mp hg).resolve_left fun heq => hfd (heq ▸ hgd)
      obtain ⟨inner, outer, rfl⟩ := List.append_of_mem hgc
      refine ⟨_, removes_inner h hroot hfollows hfuel hgd, ?_⟩
      rw [leaves_fill _ (inner ++ _ :: outer), around_relabel, ← leaves_fill]
      exact leaves_contract d f _
  · exact ⟨_, removes_bottom h hroot hfollows hfuel hbranch, leaves_contract d f c⟩

end Contract

section Operations

variable {Addr : Type} {A : GetkeyAdapter Addr} {tree : Patriciatrie Addr} {t : BitTree Addr}
  {bytes : List UInt8} {fuel : ℕ}

theorem Shape.find_full (h : Shape A tree.mem t) (hlength : t.leaves.length < fuel)
    (hfuel : ∀ a ∈ t.leaves, (A.key a).length + 2 ≤ fuel) (bytes : List UInt8) :
    ∃ x c, findnode A tree.mem fuel (initfullkeyGetkeydata bytes) t.label =
        some (initfullkeyGetkeydata bytes, parentOf x c, x) ∧
      isKeyEqual A fuel x (initfullkeyGetkeydata bytes) =
        some (initfullkeyGetkeydata bytes, decide (A.key x = bytes)) ∧
      t = fill (leaf x) c ∧ Follows (extBit bytes) c ∧ x ∈ t.leaves ∧
      ∀ y ∈ t.leaves, A.key y = bytes → y = x := by
  obtain ⟨key, x, c, hfind, rfl, hfollows, -⟩ :=
    h.findnode_eq (reads_full bytes) rfl (Nat.le_of_lt hlength)
  have hkey : key = initfullkeyGetkeydata bytes := search_full hfind
  have hx : x ∈ (fill (leaf x) c).leaves := label_mem_fill (s := leaf x) h.ctx.1
  refine ⟨x, c, hkey ▸ hfind, isKeyEqual_eq x bytes ?_, rfl, hfollows, hx,
    fun y hy hkey => h.eq_of_key hfollows hy hkey⟩
  have := hfuel x hx
  omega

/-- **The search** finds the object with the key. -/
theorem Shape.find (h : Shape A tree.mem t) (hroot : tree.root = some t.label)
    (hlimit : bytes.length < keyLimit) (hlength : t.leaves.length < fuel)
    (hfuel : ∀ a ∈ t.leaves, (A.key a).length + 2 ≤ fuel) :
    ((∀ y ∈ t.leaves, A.key y ≠ bytes) ∧
        findPatriciatrie A fuel tree bytes = some (.error .ESRCH)) ∨
      ∃ x ∈ t.leaves, A.key x = bytes ∧ findPatriciatrie A fuel tree bytes = some (.ok x) := by
  obtain ⟨x, c, hfind, hequal, -, -, hx, huniq⟩ := h.find_full hlength hfuel bytes
  unfold findPatriciatrie
  simp only [if_pos hlimit, hroot, hfind, hequal, Option.bind_eq_bind, Option.bind_some,
    decide_eq_true_eq]
  by_cases hkey : A.key x = bytes
  · rw [if_pos hkey]
    exact .inr ⟨x, hx, hkey, rfl⟩
  · rw [if_neg hkey]
    refine .inl ⟨fun y hy hyk => hkey ?_, rfl⟩
    rwa [← huniq y hy hyk]

variable [DecidableEq Addr]

/-- **Removal** takes the object with the key out of the trie. -/
theorem Shape.remove (h : Shape A tree.mem t) (hroot : tree.root = some t.label)
    (hlimit : bytes.length < keyLimit) (hlength : t.leaves.length < fuel)
    (hfuel : ∀ a ∈ t.leaves, (A.key a).length + 2 ≤ fuel) :
    ((∀ y ∈ t.leaves, A.key y ≠ bytes) ∧
        removePatriciatrie A fuel tree bytes = some (tree, .error .ESRCH)) ∨
      ∃ d ∈ t.leaves, A.key d = bytes ∧ ∃ tree',
        removePatriciatrie A fuel tree bytes = some (tree', .ok d) ∧
        ((tree'.root = none ∧ t.leaves = [d]) ∨
          ∃ t', tree'.root = some t'.label ∧ Shape A tree'.mem t' ∧
            t.leaves.Perm (d :: t'.leaves)) := by
  obtain ⟨d, c, hfind, hequal, rfl, hfollows, hd, huniq⟩ := h.find_full hlength hfuel bytes
  unfold removePatriciatrie
  simp only [if_pos hlimit, hroot, hfind, hequal, Option.bind_eq_bind, Option.bind_some,
    decide_eq_true_eq]
  by_cases hkey : A.key d = bytes
  · rw [if_pos hkey]
    refine .inr ⟨d, hd, hkey, ?_⟩
    cases c with
    | nil =>
      -- the trie is empty now
      have hcond : (tree.mem d).right = (tree.mem d).left := by
        rw [show tree.mem d = bottomNode d from Shape.mem_leaf h]
        rfl
      have hroot' : tree.root = some d := hroot
      unfold unlinkNode
      simp only [if_pos hcond, if_pos hroot', Option.bind_some]
      exact ⟨_, rfl, .inl ⟨rfl, rfl⟩⟩
    | cons f c =>
      obtain ⟨t', ⟨tree₁, replaced, tree₂, hunlink, hreplace, hroot₂, hshape⟩, hperm⟩ :=
        h.removes hroot hfollows (Nat.le_of_lt (h.length_lt.trans hlength))
      rw [show parentOf d (f :: c) = f.label from rfl, hunlink]
      have hnodup := hperm.nodup_iff.mp (nodup_leaves h.ok)
      have hshape' : Shape A (Function.update tree₂.mem d ⟨0, none, none⟩) t' := by
        refine hshape.congr fun a ha => Function.update_of_ne ?_ _ _
        rintro rfl
        exact (List.nodup_cons.mp hnodup).1 ha
      refine ⟨{ tree₂ with mem := Function.update tree₂.mem d ⟨0, none, none⟩ }, ?_,
        .inr ⟨t', hroot₂, hshape', hperm⟩⟩
      cases replaced with
      | none =>
        obtain rfl := Option.some.inj hreplace
        rfl
      | some r =>
        simp only [Option.bind_some]
        change replaceNode A fuel tree₁ (initfullkeyGetkeydata bytes) r.1 r.2 = some tree₂
          at hreplace
        rw [hreplace]
        rfl
  · rw [if_neg hkey]
    refine .inl ⟨fun y hy hyk => hkey ?_, rfl⟩
    rwa [← huniq y hy hyk]

end Operations

/-! ## Sequences of calls -/

section Run

variable {Addr : Type}

inductive Op (Addr : Type)
  | insert (newnode : Addr)
  | find (key : List UInt8)
  | remove (key : List UInt8)

/-- The object that a call may add. -/
def Op.inserts : Op Addr → List Addr
  | .insert newnode => [newnode]
  | _ => []

/-- What a call returns. -/
inductive Result (Addr : Type)
  | inserted (result : Except (Errno × Option Addr) Unit)
  | found (result : Except Errno Addr)

variable (A : GetkeyAdapter Addr) (fuel : ℕ)

section Model

variable [DecidableEq Addr]

def step (tree : Patriciatrie Addr) : Op Addr → Option (Patriciatrie Addr × Result Addr)
  | .insert newnode =>
    (insertPatriciatrie A fuel tree newnode).map fun r => (r.1, .inserted r.2)
  | .find key => (findPatriciatrie A fuel tree key).map fun r => (tree, .found r)
  | .remove key => (removePatriciatrie A fuel tree key).map fun r => (r.1, .found r.2)

def run (tree : Patriciatrie Addr) :
    List (Op Addr) → Option (Patriciatrie Addr × List (Result Addr))
  | [] => some (tree, [])
  | op :: ops => do
    let (tree, r) ← step A fuel tree op
    let (tree, rs) ← run tree ops
    some (tree, r :: rs)

/-- The object with a key in a list of objects. -/
def lookup (objects : List Addr) (key : List UInt8) : Option Addr :=
  objects.find? fun a => A.key a = key

/-- What a call does to a map from keys to objects. -/
def specStep (objects : List Addr) : Op Addr → List Addr × Result Addr
  | .insert newnode =>
    if (A.key newnode).length < keyLimit then
      match lookup A objects (A.key newnode) with
      | some a => (objects, .inserted (.error (.EEXIST, some a)))
      | none => (newnode :: objects, .inserted (.ok ()))
    else (objects, .inserted (.error (.EINVAL, none)))
  | .find key =>
    if key.length < keyLimit then
      match lookup A objects key with
      | some a => (objects, .found (.ok a))
      | none => (objects, .found (.error .ESRCH))
    else (objects, .found (.error .EINVAL))
  | .remove key =>
    if key.length < keyLimit then
      match lookup A objects key with
      | some a => (objects.erase a, .found (.ok a))
      | none => (objects, .found (.error .ESRCH))
    else (objects, .found (.error .EINVAL))

def specRun (objects : List Addr) : List (Op Addr) → List Addr × List (Result Addr)
  | [] => (objects, [])
  | op :: ops =>
    let (objects, r) := specStep A objects op
    let (objects, rs) := specRun objects ops
    (objects, r :: rs)

end Model

/-- **The trie holds the objects.** -/
def Holds (tree : Patriciatrie Addr) (objects : List Addr) : Prop :=
  (tree.root = none ∧ objects = []) ∨
    ∃ t, tree.root = some t.label ∧ Shape A tree.mem t ∧ t.leaves.Perm objects

/-- The fuel is enough for the objects. -/
def Enough (objects : List Addr) : Prop :=
  objects.length < fuel ∧ ∀ a ∈ objects, (A.key a).length + 2 ≤ fuel

variable {A fuel} {tree : Patriciatrie Addr} {objects : List Addr}

theorem Enough.perm {L : List Addr} (h : Enough A fuel objects) (hperm : L.Perm objects) :
    Enough A fuel L :=
  ⟨hperm.length_eq ▸ h.1, fun a ha => h.2 a (hperm.mem_iff.mp ha)⟩

theorem Enough.sublist {L : List Addr} (h : Enough A fuel objects) (hsub : L.Sublist objects) :
    Enough A fuel L :=
  ⟨Nat.lt_of_le_of_lt hsub.length_le h.1, fun a ha => h.2 a (hsub.subset ha)⟩

theorem exists_enough (A : GetkeyAdapter Addr) (objects : List Addr) :
    ∃ n, ∀ fuel ≥ n, Enough A fuel objects := by
  induction objects with
  | nil => exact ⟨1, fun fuel hfuel => ⟨hfuel, by simp⟩⟩
  | cons a objects ih =>
    obtain ⟨n, hn⟩ := ih
    refine ⟨n + 1 + ((A.key a).length + 2), fun fuel hfuel => ⟨?_, fun b hb => ?_⟩⟩
    · have := (hn (fuel - 1) (by omega)).1
      rw [List.length_cons]
      omega
    · rcases List.mem_cons.mp hb with rfl | hb
      · omega
      · exact (hn fuel (by omega)).2 b hb

theorem Shape.key_inj {mem : Addr → Node Addr} {t : BitTree Addr} (h : Shape A mem t) {a b : Addr}
    (ha : a ∈ t.leaves) (hb : b ∈ t.leaves) (hkey : A.key a = A.key b) : a = b := by
  obtain ⟨x, c, rfl, hfollows⟩ := exists_leaf_way (extBit (A.key b)) t
  rw [h.eq_of_key hfollows ha hkey, h.eq_of_key hfollows hb rfl]

theorem lookup_none {key : List UInt8} (h : ∀ a ∈ objects, A.key a ≠ key) :
    lookup A objects key = none := by
  rw [lookup, List.find?_eq_none]
  exact fun a ha => by simpa using h a ha

theorem lookup_some {key : List UInt8} {a : Addr} (ha : a ∈ objects) (hkey : A.key a = key)
    (hinj : ∀ b ∈ objects, A.key b = key → b = a) : lookup A objects key = some a := by
  cases hl : lookup A objects key with
  | none =>
    rw [lookup, List.find?_eq_none] at hl
    exact absurd hkey (by simpa using hl a ha)
  | some b =>
    have hb := List.mem_of_find?_eq_some hl
    have hkeyb := List.find?_some hl
    rw [hinj b hb (by simpa using hkeyb)]

theorem holds_empty (A : GetkeyAdapter Addr) (mem : Addr → Node Addr) :
    Holds A ⟨mem, none⟩ [] := .inl ⟨rfl, rfl⟩

variable [DecidableEq Addr]

theorem step_insert (h : Holds A tree objects) {z : Addr} (hfuel : Enough A fuel (z :: objects))
    (hlimit : (A.key z).length < keyLimit) :
    ∃ tree', step A fuel tree (.insert z) = some (tree', (specStep A objects (.insert z)).2) ∧
      Holds A tree' (specStep A objects (.insert z)).1 := by
  simp only [step, specStep, if_pos hlimit]
  rcases h with ⟨hroot, rfl⟩ | ⟨t, hroot, hshape, hperm⟩
  · rw [lookup_none (by simp)]
    refine ⟨⟨Function.update tree.mem z (bottomNode z), some z⟩, ?_,
      .inr ⟨leaf z, rfl, ⟨trivial, trivial, z, Function.update_self z _ _, List.Perm.refl _⟩,
        List.Perm.refl _⟩⟩
    unfold insertPatriciatrie
    simp only [(reads_init1 (A := A) z).streamsize, if_pos hlimit, hroot]
    rfl
  · have hlength : t.leaves.length < fuel := by
      have := hfuel.1
      rw [List.length_cons] at this
      rw [hperm.length_eq]
      omega
    have hkeys : ∀ a ∈ z :: t.leaves, (A.key a).length + 2 ≤ fuel := fun a ha =>
      hfuel.2 a ((List.Perm.cons z hperm).mem_iff.mp ha)
    rcases hshape.insert hroot hlimit hlength hkeys with
      ⟨y, hy, hkey, hinsert⟩ | ⟨hdiffer, tree', t', hinsert, hroot', hshape', hperm'⟩
    · rw [lookup_some (hperm.mem_iff.mp hy) hkey fun b hb hkeyb =>
        hshape.key_inj (hperm.mem_iff.mpr hb) hy (hkeyb.trans hkey.symm)]
      exact ⟨tree, by rw [hinsert]; rfl, .inr ⟨t, hroot, hshape, hperm⟩⟩
    · rw [lookup_none fun a ha => hdiffer a (hperm.mem_iff.mpr ha)]
      exact ⟨tree', by rw [hinsert]; rfl,
        .inr ⟨t', hroot', hshape', hperm'.trans (List.Perm.cons z hperm)⟩⟩

theorem step_find (h : Holds A tree objects) {key : List UInt8} (hfuel : Enough A fuel objects)
    (hlimit : key.length < keyLimit) :
    ∃ tree', step A fuel tree (.find key) = some (tree', (specStep A objects (.find key)).2) ∧
      Holds A tree' (specStep A objects (.find key)).1 := by
  simp only [step, specStep, if_pos hlimit]
  rcases h with ⟨hroot, rfl⟩ | ⟨t, hroot, hshape, hperm⟩
  · rw [lookup_none (by simp)]
    refine ⟨tree, ?_, .inl ⟨hroot, rfl⟩⟩
    unfold findPatriciatrie
    simp only [if_pos hlimit, hroot]
    rfl
  · obtain ⟨hlength, hkeys⟩ := hfuel.perm hperm
    rcases hshape.find hroot hlimit hlength hkeys with ⟨hno, hfind⟩ | ⟨x, hx, hkey, hfind⟩
    · rw [lookup_none fun a ha => hno a (hperm.mem_iff.mpr ha)]
      exact ⟨tree, by rw [hfind]; rfl, .inr ⟨t, hroot, hshape, hperm⟩⟩
    · rw [lookup_some (hperm.mem_iff.mp hx) hkey fun b hb hkeyb =>
        hshape.key_inj (hperm.mem_iff.mpr hb) hx (hkeyb.trans hkey.symm)]
      exact ⟨tree, by rw [hfind]; rfl, .inr ⟨t, hroot, hshape, hperm⟩⟩

theorem step_remove (h : Holds A tree objects) {key : List UInt8} (hfuel : Enough A fuel objects)
    (hlimit : key.length < keyLimit) :
    ∃ tree', step A fuel tree (.remove key) = some (tree', (specStep A objects (.remove key)).2) ∧
      Holds A tree' (specStep A objects (.remove key)).1 := by
  simp only [step, specStep, if_pos hlimit]
  rcases h with ⟨hroot, rfl⟩ | ⟨t, hroot, hshape, hperm⟩
  · rw [lookup_none (by simp)]
    refine ⟨tree, ?_, .inl ⟨hroot, rfl⟩⟩
    unfold removePatriciatrie
    simp only [if_pos hlimit, hroot]
    rfl
  · obtain ⟨hlength, hkeys⟩ := hfuel.perm hperm
    rcases hshape.remove hroot hlimit hlength hkeys with
      ⟨hno, hremove⟩ | ⟨d, hd, hkey, tree', hremove, hcase⟩
    · rw [lookup_none fun a ha => hno a (hperm.mem_iff.mpr ha)]
      exact ⟨tree, by rw [hremove]; rfl, .inr ⟨t, hroot, hshape, hperm⟩⟩
    · rw [lookup_some (hperm.mem_iff.mp hd) hkey fun b hb hkeyb =>
        hshape.key_inj (hperm.mem_iff.mpr hb) hd (hkeyb.trans hkey.symm)]
      refine ⟨tree', by rw [hremove]; rfl, ?_⟩
      have herase := hperm.erase d
      rcases hcase with ⟨hroot', hleaves⟩ | ⟨t', hroot', hshape', hperm'⟩
      · rw [hleaves, List.erase_cons_head] at herase
        exact .inl ⟨hroot', herase.nil_eq.symm⟩
      · refine .inr ⟨t', hroot', hshape', ?_⟩
        have := hperm'.erase d
        rw [List.erase_cons_head] at this
        exact this.symm.trans herase

/-- **One call** returns what it returns for the list of objects. -/
theorem step_eq (h : Holds A tree objects) (op : Op Addr)
    (hfuel : Enough A fuel (op.inserts ++ objects)) :
    ∃ tree', step A fuel tree op = some (tree', (specStep A objects op).2) ∧
      Holds A tree' (specStep A objects op).1 := by
  cases op with
  | insert z =>
    by_cases hlimit : (A.key z).length < keyLimit
    · exact step_insert h hfuel hlimit
    · refine ⟨tree, ?_, ?_⟩
      · simp only [step, specStep, insertPatriciatrie]
        simp only [(reads_init1 (A := A) z).streamsize, if_neg hlimit]
        rfl
      · rw [specStep, if_neg hlimit]
        exact h
  | find key =>
    by_cases hlimit : key.length < keyLimit
    · exact step_find h hfuel hlimit
    · refine ⟨tree, ?_, ?_⟩
      · simp only [step, specStep, findPatriciatrie, if_neg hlimit]
        rfl
      · rw [specStep, if_neg hlimit]
        exact h
  | remove key =>
    by_cases hlimit : key.length < keyLimit
    · exact step_remove h hfuel hlimit
    · refine ⟨tree, ?_, ?_⟩
      · simp only [step, specStep, removePatriciatrie, if_neg hlimit]
        rfl
      · rw [specStep, if_neg hlimit]
        exact h

theorem specStep_sublist (A : GetkeyAdapter Addr) (objects : List Addr) (op : Op Addr) :
    (specStep A objects op).1.Sublist (op.inserts ++ objects) := by
  cases op with
  | insert z =>
    simp only [specStep, Op.inserts]
    split_ifs
    · split
      · exact List.sublist_append_right _ _
      · exact List.Sublist.refl _
    · exact List.sublist_append_right _ _
  | find key =>
    simp only [specStep, Op.inserts]
    split_ifs
    · split <;> exact List.Sublist.refl _
    · exact List.Sublist.refl _
  | remove key =>
    simp only [specStep, Op.inserts]
    split_ifs
    · split
      · exact List.erase_sublist
      · exact List.Sublist.refl _
    · exact List.Sublist.refl _

theorem specRun_length (ops : List (Op Addr))
    (h : ∀ a ∈ objects, (A.key a).length < keyLimit) :
    ∀ a ∈ (specRun A objects ops).1, (A.key a).length < keyLimit := by
  induction ops generalizing objects with
  | nil => exact h
  | cons op ops ih =>
    refine ih fun a ha => ?_
    rcases List.mem_append.mp ((specStep_sublist A objects op).subset ha) with hop | hobj
    · cases op with
      | insert z =>
        obtain rfl := List.mem_singleton.mp hop
        by_cases hlimit : (A.key a).length < keyLimit
        · exact hlimit
        · simp only [if_neg hlimit] at ha
          exact h a ha
      | find key => cases hop
      | remove key => cases hop
    · exact h a hobj

/-- **All calls** return what they return for the list of objects. -/
theorem run_eq (h : Holds A tree objects) (ops : List (Op Addr))
    (hfuel : Enough A fuel (ops.flatMap Op.inserts ++ objects)) :
    ∃ tree', run A fuel tree ops = some (tree', (specRun A objects ops).2) ∧
      Holds A tree' (specRun A objects ops).1 := by
  induction ops generalizing tree objects with
  | nil => exact ⟨tree, rfl, h⟩
  | cons op ops ih =>
    rw [List.flatMap_cons, List.append_assoc] at hfuel
    obtain ⟨tree₁, hstep, hholds⟩ := step_eq h op (hfuel.sublist
      (List.Sublist.append_left (List.sublist_append_right _ _) _))
    obtain ⟨tree₂, hrun, hholds'⟩ := ih hholds (by
      refine (hfuel.perm ?_).sublist
        (List.Sublist.append_left (specStep_sublist A objects op) (ops.flatMap Op.inserts))
      rw [← List.append_assoc, ← List.append_assoc]
      exact List.perm_append_comm.append_right _)
    refine ⟨tree₂, ?_, hholds'⟩
    rw [run, hstep]
    simp only [Option.bind_eq_bind, Option.bind_some, hrun]
    rfl

theorem insert_error {z : Addr} {tree' : Patriciatrie Addr} {e : Errno × Option Addr}
    (h : insertPatriciatrie A fuel tree z = some (tree', .error e)) : tree' = tree := by
  unfold insertPatriciatrie at h
  by_cases hlimit : (init1Getkeydata A.getkey z).streamsize < keyLimit
  · cases hroot : tree.root with
    | none =>
      simp only [if_pos hlimit, hroot] at h
      cases h
    | some root =>
      simp only [if_pos hlimit, hroot, Option.bind_eq_bind, Option.bind_eq_some_iff] at h
      obtain ⟨⟨key, parent, node⟩, -, h⟩ := h
      by_cases hnode : node = z
      · simp only [if_pos hnode] at h
        cases h
        rfl
      · simp only [if_neg hnode, Option.bind_eq_some_iff] at h
        obtain ⟨⟨key', d⟩, -, h⟩ := h
        cases d with
        | none =>
          cases h
          rfl
        | some d =>
          obtain ⟨_, -, h⟩ := Option.bind_eq_some_iff.mp h
          cases h
  · simp only [if_neg hlimit] at h
    cases h
    rfl

/-- **The trie is an exact map** over byte strings.  For every sequence of calls on an empty trie,
each call returns what it returns for the list of the stored objects, and an insertion that fails
does not change the trie. -/
theorem patriciatrie_exact_map (A : GetkeyAdapter Addr) (mem : Addr → Node Addr)
    (ops : List (Op Addr)) :
    ∃ n, ∀ fuel ≥ n, ∃ tree, run A fuel ⟨mem, none⟩ ops = some (tree, (specRun A [] ops).2) ∧
      ∀ z tree' e, insertPatriciatrie A fuel tree z = some (tree', .error e) → tree' = tree := by
  obtain ⟨n, hn⟩ := exists_enough A (ops.flatMap Op.inserts ++ [])
  refine ⟨n, fun fuel hfuel => ?_⟩
  obtain ⟨tree, hrun, -⟩ := run_eq (holds_empty A mem) ops (hn fuel hfuel)
  exact ⟨tree, hrun, fun z tree' e hinsert => insert_error hinsert⟩

end Run

end Patricia
end CKern
