import Mathlib.Data.Finset.Card
import CKern.Ds.Inmem.Suffixtree

/-!
# `ds/inmem/suffixtree.c`: the queries of a suffix tree

* `findstringSuffixtree`, `isstringSuffixtree`, `matchallSuffixtree`: the queries.
* `Overlooked`: how the strings that `strncmp` takes to be equal may differ.
* `QueriesExact`: what the queries say about a text and a string.
* `queries_exact_iff`: they are exact unless the string is taken for another part of the text.
-/

namespace CKern
namespace Suffixtree

open Function CompactTrie Trie

variable (text : List UInt8)

/-! ## The queries -/

/-- `strncmp` of two strings that have `n` bytes at least. -/
def strncmp : ℕ → List UInt8 → List UInt8 → ℤ
  | n + 1, c :: s, d :: t =>
    if c ≠ d then (c.toNat : ℤ) - d.toNat
    else if c = 0 then 0
    else strncmp n s t
  | _, _, _ => 0

/-- The loop of `findstring_suffixtree`. -/
def findstringLoop (tree : Suffixtree) : ℕ → Option ℕ → List UInt8 → Except Failure Pos
  | 0, _, _ => .error .undefined
  | turns + 1, parent, searchstring =>
    match findchildSuffixtree text tree parent (charAt searchstring 0) with
    | none => .error (.errno .ESRCH)
    | some node =>
      let nodeLen := (tree.nodes node).size
      let start := text.drop (tree.nodes node).strStart
      if searchstring.length ≤ nodeLen then
        if strncmp searchstring.length searchstring start ≠ 0 then .error (.errno .ESRCH)
        else .ok ⟨searchstring.length, some node, parent⟩
      else if (tree.nodes node).isLeaf then .error (.errno .ESRCH)
      else if 1 < nodeLen ∧ strncmp nodeLen searchstring start ≠ 0 then .error (.errno .ESRCH)
      else findstringLoop tree turns (some node) (searchstring.drop nodeLen)

/-- `findstring_suffixtree`. -/
def findstringSuffixtree (tree : Suffixtree) (turns : ℕ) (searchstring : List UInt8) :
    Except Failure Pos :=
  if searchstring = [] ∨ tree.maxlength < searchstring.length then .error (.errno .ESRCH)
  else findstringLoop text tree turns none searchstring

/-- `isstring_suffixtree`. -/
def isstringSuffixtree (tree : Suffixtree) (turns : ℕ) (searchstr : List UInt8) :
    Except Failure Bool :=
  match findstringSuffixtree text tree turns searchstr with
  | .ok _ => .ok true
  | .error (.errno _) => .ok false
  | .error .undefined => .error .undefined

/-- The inner loop of `matchall_suffixtree`, where the stack holds a length and the next children:
the next node with the length of what is before it. -/
def nextNode : List (ℕ × List ℕ) → Option (ℕ × ℕ × List (ℕ × List ℕ))
  | [] => none
  | (_, []) :: posstack => nextNode posstack
  | (prefixlen, node :: childs) :: posstack => some (node, prefixlen, (prefixlen, childs) :: posstack)

/-- The loop of `matchall_suffixtree`, with what has been counted and what has been written to
`matchedpos`. -/
def matchallLoop (tree : Suffixtree) (skipCount maxmatchcount : ℕ) :
    ℕ → ℕ → ℕ → List (ℕ × List ℕ) → ℕ → List ℤ → Except Failure (ℕ × List ℤ)
  | 0, _, _, _, _, _ => .error .undefined
  | turns + 1, node, prefixlen, posstack, leafCount, matchedpos =>
    let n := tree.nodes node
    let matchedpos := if n.isLeaf ∧ skipCount ≤ leafCount ∧ leafCount - skipCount < maxmatchcount
      then matchedpos ++ [(n.strStart : ℤ) - prefixlen] else matchedpos
    let leafCount := if n.isLeaf then leafCount + 1 else leafCount
    let posstack := if n.isLeaf then posstack else (prefixlen, n.childs) :: posstack
    match nextNode posstack with
    | none => .ok (leafCount, matchedpos)
    | some (node, prefixlen, posstack) =>
      let prefixlen :=
        if (tree.nodes node).isLeaf then prefixlen else prefixlen + (tree.nodes node).size
      matchallLoop tree skipCount maxmatchcount turns node prefixlen posstack leafCount matchedpos

/-- `matchall_suffixtree`: the value of `matched_count` and what is written to `matchedpos`, as
offsets into the text. -/
def matchallSuffixtree (tree : Suffixtree) (turns : ℕ) (searchstr : List UInt8)
    (skipCount maxmatchcount : ℕ) : Except Failure (ℕ × List ℤ) :=
  match findstringSuffixtree text tree turns searchstr with
  | .error err => .error err
  | .ok pos =>
    match pos.node with
    | none => .error .undefined
    | some node =>
      if pos.matchedLen = 0 then .error .undefined
      else
        let n := tree.nodes node
        let prefixlen := if n.isLeaf then searchstr.length - pos.matchedLen
          else searchstr.length + (n.size - pos.matchedLen)
        matchallLoop tree skipCount maxmatchcount turns node prefixlen [] 0 []

/-! ## What the queries should say, and when they do -/

/-- The positions of the occurrences of a string. -/
def occurrences (s : List UInt8) : Finset ℕ := {k ∈ Finset.range text.length | s <+: text.drop k}

/-- The queries say whether the string is in the text, how often and where. -/
structure QueriesExact (tree : Suffixtree) (turns : ℕ) (s : List UInt8) : Prop where
  isstring : isstringSuffixtree text tree turns s = .ok (decide (s ≠ [] ∧ s <:+: text))
  notFound : ∀ skip max, matchallSuffixtree text tree turns s skip max = .error (.errno .ESRCH) ↔
    ¬ (s ≠ [] ∧ s <:+: text)
  found : s ≠ [] → s <:+: text → ∀ skip max, ∃ out,
    matchallSuffixtree text tree turns s skip max = .ok ((occurrences text s).card, out) ∧
      out.length = min ((occurrences text s).card - skip) max ∧ out.Nodup ∧
      ∀ a ∈ out, ∃ k ∈ occurrences text s, a = (k : ℤ)

/-- The string is followed by different characters at two places of the text, or at one place by
the end of the text. -/
def Branches (w : List UInt8) : Prop :=
  ∃ k l, w <+: text.drop k ∧ w <+: text.drop l ∧
    (text.drop k)[w.length]? ≠ (text.drop l)[w.length]?

/-- The strings differ only behind a zero in both of them, where `B` does not hold of a length
that is in between. -/
def Overlooked (B : ℕ → Prop) (s t : List UInt8) : Prop :=
  ∀ j : ℕ, s[j]? ≠ t[j]? → ∃ i < j, s[i]? = some 0 ∧ t[i]? = some 0 ∧ ∀ m, i < m → m ≤ j → ¬ B m

/-- **A part of the text that the string is taken for**: it has the same length, and it differs from
the string only behind a zero that is in both of them, without a branch of the text in between. -/
def FalseMatch (s : List UInt8) : Prop :=
  ∃ t, t ≠ s ∧ t.length = s.length ∧ t <:+: text ∧
    Overlooked (fun m => Branches text (t.take m)) s t

/-! ## `strncmp` -/

variable {text}

namespace Overlooked

variable {B : ℕ → Prop} {s t : List UInt8}

theorem refl (B : ℕ → Prop) (s : List UInt8) : Overlooked B s s := fun _ h => absurd rfl h

theorem head (h : Overlooked B s t) : s[0]? = t[0]? := by
  by_contra hne
  obtain ⟨i, hi, -⟩ := h 0 hne
  exact Nat.not_lt_zero i hi

theorem congr {B' : ℕ → Prop} (hlen : s.length = t.length)
    (hB : ∀ m, 0 < m → m < s.length → (B m ↔ B' m)) : Overlooked B s t ↔ Overlooked B' s t := by
  refine forall_congr' fun j => imp_congr_right fun hne => exists_congr fun i =>
    and_congr_right fun hi => and_congr_right fun _ => and_congr_right fun _ =>
      forall_congr' fun m => imp_congr_right fun him => imp_congr_right fun hmj => ?_
  have hj : j < s.length := by
    by_contra hj
    rw [List.getElem?_eq_none (by omega), List.getElem?_eq_none (by omega)] at hne
    exact hne rfl
  exact not_congr (hB m (by omega) (by omega))

theorem append {s₁ s₂ t₁ t₂ : List UInt8} (hlen : s₁.length = t₁.length) (hB : B s₁.length) :
    Overlooked B (s₁ ++ s₂) (t₁ ++ t₂) ↔
      Overlooked B s₁ t₁ ∧ Overlooked (fun m => B (s₁.length + m)) s₂ t₂ := by
  constructor
  · intro h
    refine ⟨fun j hne => ?_, fun j hne => ?_⟩
    · by_cases hj : j < s₁.length
      · have hs : (s₁ ++ s₂)[j]? = s₁[j]? := List.getElem?_append_left hj
        have ht : (t₁ ++ t₂)[j]? = t₁[j]? := List.getElem?_append_left (hlen ▸ hj)
        rw [← hs, ← ht] at hne
        obtain ⟨i, hi, hsi, hti, hm⟩ := h j hne
        rw [List.getElem?_append_left (by omega)] at hsi hti
        exact ⟨i, hi, hsi, hti, hm⟩
      · rw [List.getElem?_eq_none (by omega), List.getElem?_eq_none (by omega)] at hne
        exact absurd rfl hne
    · have hne' : (s₁ ++ s₂)[s₁.length + j]? ≠ (t₁ ++ t₂)[s₁.length + j]? := by
        rw [List.getElem?_append_right (by omega), List.getElem?_append_right (by omega), ← hlen,
          Nat.add_sub_cancel_left]
        exact hne
      obtain ⟨i, hi, hsi, hti, hm⟩ := h _ hne'
      -- the zero is not in the first part, since the branch would be in between
      have hle : s₁.length ≤ i := by
        by_contra hlt
        exact hm s₁.length (by omega) (by omega) hB
      rw [List.getElem?_append_right (by omega)] at hsi hti
      refine ⟨i - s₁.length, by omega, hsi, hlen ▸ hti, fun m hlt hle => ?_⟩
      exact hm (s₁.length + m) (by omega) (by omega)
  · rintro ⟨h₁, h₂⟩ j hne
    by_cases hj : j < s₁.length
    · rw [List.getElem?_append_left hj, List.getElem?_append_left (by omega)] at hne
      obtain ⟨i, hi, hsi, hti, hm⟩ := h₁ j hne
      refine ⟨i, hi, ?_, ?_, hm⟩
      · rwa [List.getElem?_append_left (by omega)]
      · rwa [List.getElem?_append_left (by omega)]
    · rw [List.getElem?_append_right (by omega), List.getElem?_append_right (by omega),
        ← hlen] at hne
      obtain ⟨i, hi, hsi, hti, hm⟩ := h₂ _ hne
      refine ⟨s₁.length + i, by omega, ?_, ?_, fun m hlt hle => ?_⟩
      · rwa [List.getElem?_append_right (by omega), Nat.add_sub_cancel_left]
      · rwa [List.getElem?_append_right (by omega), hlen, Nat.add_sub_cancel_left]
      · obtain ⟨l, rfl⟩ := Nat.exists_eq_add_of_le (show s₁.length ≤ m by omega)
        exact hm l (by omega) (by omega)

end Overlooked

/-- **`strncmp`** does not see what is behind a zero. -/
theorem strncmp_eq_zero_iff {s t : List UInt8} (h : s.length = t.length) :
    strncmp s.length s t = 0 ↔ Overlooked (fun _ => False) s t := by
  induction s generalizing t with
  | nil =>
    obtain rfl : t = [] := List.length_eq_zero_iff.mp h.symm
    exact ⟨fun _ => Overlooked.refl _ _, fun _ => rfl⟩
  | cons c s ih =>
    obtain _ | ⟨d, t⟩ := t
    · exact absurd h (Nat.succ_ne_zero _)
    have hlen : s.length = t.length := Nat.succ.inj h
    rw [List.length_cons, strncmp]
    by_cases hcd : c = d
    · subst hcd
      rw [if_neg (not_not.mpr rfl)]
      by_cases hzero : c = 0
      · subst hzero
        rw [if_pos rfl]
        refine ⟨fun _ j hne => ⟨0, Nat.pos_of_ne_zero ?_, rfl, rfl, fun _ _ _ hf => hf⟩, fun _ => rfl⟩
        rintro rfl
        exact hne rfl
      · rw [if_neg hzero, ih hlen]
        constructor
        · intro hst j hne
          cases j with
          | zero => exact absurd rfl hne
          | succ j =>
            obtain ⟨i, hi, hsi, hti, -⟩ := hst j hne
            exact ⟨i + 1, by omega, hsi, hti, fun _ _ _ hf => hf⟩
        · intro hst j hne
          obtain ⟨i, hi, hsi, hti, -⟩ := hst (j + 1) hne
          cases i with
          | zero => exact absurd (Option.some_inj.mp hsi) hzero
          | succ i => exact ⟨i, by omega, hsi, hti, fun _ _ _ hf => hf⟩
    · rw [if_pos hcd]
      constructor
      · intro hsub
        exact absurd (UInt8.toNat_inj.mp (by omega)) hcd
      · intro hst
        exact absurd (Option.some_inj.mp hst.head) hcd

theorem strncmp_take {n : ℕ} {s t : List UInt8} :
    strncmp n s t = strncmp n (s.take n) (t.take n) := by
  induction n generalizing s t with
  | zero => rfl
  | succ n ih =>
    cases s with
    | nil => simp [strncmp]
    | cons c s =>
      cases t with
      | nil => simp [strncmp]
      | cons d t => rw [List.take_succ_cons, List.take_succ_cons, strncmp, strncmp, ih]

/-! ## Edges -/

theorem infix_iff_exists_drop {s t : List UInt8} : s <:+: t ↔ ∃ k, s <+: t.drop k := by
  constructor
  · rintro ⟨x, y, rfl⟩
    refine ⟨x.length, y, ?_⟩
    rw [List.append_assoc, List.drop_left]
  · rintro ⟨k, h⟩
    exact h.isInfix.trans (List.drop_suffix k t).isInfix

theorem lt_of_prefix_drop {w : List UInt8} {k : ℕ} (hne : w ≠ []) (h : w <+: text.drop k) :
    k < text.length := by
  have hlen := h.length_le
  rw [List.length_drop] at hlen
  have := List.length_pos_of_ne_nil hne
  omega

theorem prefix_marked_iff {w : List UInt8} {k : ℕ} (hk : k ≤ text.length) :
    w.map UInt8.toNat <+: (marked text).drop k ↔ w <+: text.drop k := by
  rw [drop_marked hk, List.prefix_concat_iff]
  constructor
  · rintro (heq | hpre)
    · -- the end-marker is no byte
      have hmem : 256 ∈ w.map UInt8.toNat := by
        rw [heq]
        exact List.mem_append_right _ (List.mem_singleton_self _)
      obtain ⟨c, -, hc⟩ := List.mem_map.mp hmem
      exact absurd hc c.toNat_lt.ne
    · obtain ⟨z, hz, heq⟩ := List.prefix_map_iff.mp hpre
      rwa [map_toNat_inj heq]
  · exact fun h => Or.inr (h.map _)

theorem snoc_prefix_marked {w : List UInt8} {k r : ℕ} (hk : k ≤ text.length)
    (h : w.map UInt8.toNat ++ [r] <+: (marked text).drop k) :
    w <+: text.drop k ∧ (text.drop k)[w.length]?.elim 256 UInt8.toNat = r := by
  have hw := (prefix_marked_iff hk).mp (prefix_of_snoc h)
  refine ⟨hw, ?_⟩
  obtain ⟨z, hz⟩ := hw
  rw [drop_marked hk, ← hz, List.map_append, List.append_assoc,
    List.prefix_append_right_inj] at h
  rw [← hz, List.getElem?_append_right (le_refl _), Nat.sub_self]
  cases z with
  | nil => exact (List.cons_prefix_cons.mp h).1.symm
  | cons c z => exact (List.cons_prefix_cons.mp h).1.symm

namespace Inv

variable {tree : Suffixtree} {path : Option ℕ → List ℕ} (h : Inv text tree path text.length none)
  {p : Option ℕ} {c : ℕ} {u : List UInt8}

include h

theorem path_child (hp : Allocated tree p) (hc : c ∈ childsOf tree p)
    (hu : path p = u.map UInt8.toNat) :
    path (some c) = (u ++ string text (tree.nodes c)).map UInt8.toNat ++ markOf tree (some c) := by
  rw [h.label p c hp hc, hu, label_eq_string, List.map_append, List.append_assoc]
  rfl

theorem string_eq_cons (hp : Allocated tree p) (hc : c ∈ childsOf tree p) {a : UInt8}
    (ha : path p ++ [a.toNat] <+: path (some c)) :
    ∃ z, string text (tree.nodes c) = a :: z := by
  rw [h.label p c hp hc, List.prefix_append_right_inj, label_eq_string] at ha
  cases hs : string text (tree.nodes c) with
  | nil =>
    rw [hs, List.map_nil, List.nil_append] at ha
    cases hleaf : (tree.nodes c).isLeaf with
    | false =>
      rw [hleaf] at ha
      exact absurd (List.prefix_nil.mp ha) (List.cons_ne_nil _ _)
    | true =>
      rw [hleaf] at ha
      exact absurd (List.cons_prefix_cons.mp ha).1 a.toNat_lt.ne
  | cons b z =>
    rw [hs] at ha
    rw [UInt8.toNat_inj.mp (List.cons_prefix_cons.mp ha).1]
    exact ⟨z, rfl⟩

theorem forced_suffix (hp : Allocated tree p) (hc : c ∈ childsOf tree p) {s k : ℕ}
    (hs : path p ++ [s] <+: path (some c)) (hk : k < text.length)
    (hsk : path p ++ [s] <+: (marked text).drop k) : path (some c) <+: (marked text).drop k := by
  obtain ⟨v, hv, -, hpath⟩ := h.leaves k hk
  rw [← hpath] at hsk ⊢
  exact h.valid.forced (mem_trieOf.mpr hp) hc hs hv hsk

theorem forced_string (hp : Allocated tree p) (hc : c ∈ childsOf tree p)
    (hu : path p = u.map UInt8.toNat) {a : UInt8} {z w : List UInt8}
    (hz : string text (tree.nodes c) = a :: z) {k : ℕ} (hk : u ++ a :: w <+: text.drop k) :
    k < text.length ∧ path (some c) <+: (marked text).drop k := by
  have hlt := lt_of_prefix_drop (by simp) hk
  refine ⟨hlt, h.forced_suffix hp hc (s := a.toNat) ?_ hlt ?_⟩
  · rw [h.path_child hp hc hu, hz, hu, List.map_append, List.append_assoc,
      List.prefix_append_right_inj]
    exact ⟨_, rfl⟩
  · refine List.IsPrefix.trans ?_ ((prefix_marked_iff hlt.le).mpr hk)
    rw [hu, List.map_append, List.prefix_append_right_inj]
    exact ⟨_, rfl⟩

theorem string_prefix_drop (hp : Allocated tree p) (hc : c ∈ childsOf tree p)
    (hu : path p = u.map UInt8.toNat) {k : ℕ} (hlt : k < text.length)
    (hk : path (some c) <+: (marked text).drop k) :
    u ++ string text (tree.nodes c) <+: text.drop k := by
  rw [h.path_child hp hc hu] at hk
  exact (prefix_marked_iff hlt.le).mp ((List.prefix_append _ _).trans hk)

theorem not_branches (hp : Allocated tree p) (hc : c ∈ childsOf tree p)
    (hu : path p = u.map UInt8.toNat) {m : ℕ} (hm : 0 < m)
    (hlt : m < (string text (tree.nodes c)).length) :
    ¬ Branches text (u ++ (string text (tree.nodes c)).take m) := by
  rintro ⟨k, l, hk, hl, hne⟩
  set x := string text (tree.nodes c) with hx
  obtain ⟨a, z, hz⟩ := List.exists_cons_of_length_pos (Nat.zero_lt_of_lt hlt)
  have hlen : (u ++ x.take m).length = u.length + m := by
    rw [List.length_append, List.length_take]
    omega
  -- both suffixes go on with the next byte of the edge
  have hnext : ∀ i, u ++ x.take m <+: text.drop i → (text.drop i)[u.length + m]? = x[m]? := by
    intro i hi
    obtain ⟨m, rfl⟩ := Nat.exists_eq_succ_of_ne_zero hm.ne'
    rw [hz, List.take_succ_cons] at hi
    obtain ⟨hilt, hpre⟩ := h.forced_string hp hc hu (hx.symm.trans hz) hi
    obtain ⟨y, hy⟩ := h.string_prefix_drop hp hc hu hilt hpre
    rw [← hy, ← hx, List.getElem?_append_left (by rw [List.length_append]; omega),
      List.getElem?_append_right (by omega), Nat.add_sub_cancel_left]
  rw [hlen, hnext k hk, hnext l hl] at hne
  exact hne rfl

theorem branches_inner (hv : c < tree.used) (hleaf : (tree.nodes c).isLeaf = false)
    (hw : path (some c) = u.map UInt8.toNat) : Branches text u := by
  have htwo := h.two_le c hv hleaf (by simp)
  have halloc := (isInner_some hv hleaf).allocated
  have hnodup := h.valid.nodup (some c) (mem_trieOf.mpr halloc)
  obtain ⟨d, e, ds, hds⟩ : ∃ d e ds, childsOf tree (some c) = d :: e :: ds := by
    match hchilds : childsOf tree (some c) with
    | [] => simp [hchilds] at htwo
    | [_] => simp [hchilds] at htwo
    | d :: e :: ds => exact ⟨d, e, ds, rfl⟩
  have hd : d ∈ childsOf tree (some c) := by simp [hds]
  have he : e ∈ childsOf tree (some c) := by simp [hds]
  have hne : d ≠ e := by
    rintro rfl
    change (childsOf tree (some c)).Nodup at hnodup
    rw [hds] at hnodup
    simp at hnodup
  obtain ⟨s, hs⟩ := h.valid.extend (some c) d (mem_trieOf.mpr halloc) hd
  obtain ⟨r, hr⟩ := h.valid.extend (some c) e (mem_trieOf.mpr halloc) he
  have hsr : s ≠ r := by
    rintro rfl
    exact hne (h.valid.distinct (some c) d e s (mem_trieOf.mpr halloc) hd he hs hr)
  obtain ⟨k, hk, hdk⟩ := h.sound d (h.lt_used halloc hd)
  obtain ⟨l, hl, hel⟩ := h.sound e (h.lt_used halloc he)
  change path (some c) ++ [s] <+: path (some d) at hs
  change path (some c) ++ [r] <+: path (some e) at hr
  rw [hw] at hs hr
  obtain ⟨huk, hsk⟩ := snoc_prefix_marked hk.le (hs.trans hdk)
  obtain ⟨hul, hrl⟩ := snoc_prefix_marked hl.le (hr.trans hel)
  refine ⟨k, l, huk, hul, fun heq => hsr ?_⟩
  rw [← hsk, ← hrl, heq]

end Inv

/-! ## The search of a string -/

variable (text) in
/-- The part `t` of the text, where `u` is before it, is what `s` is taken for. -/
structure Accepts (u s t : List UInt8) : Prop where
  length : t.length = s.length
  occurs : ∃ k, u ++ t <+: text.drop k
  same : Overlooked (fun m => Branches text (u ++ t.take m)) s t

variable (text) in
/-- The position after the bytes of `w`. -/
def Found (tree : Suffixtree) (path : Option ℕ → List ℕ) (pos : Pos) (w : List UInt8) : Prop :=
  ∃ v u, pos.node = some v ∧ IsInner tree pos.parent ∧ v ∈ childsOf tree pos.parent ∧
    path pos.parent = u.map UInt8.toNat ∧ 0 < pos.matchedLen ∧
    pos.matchedLen ≤ (tree.nodes v).size ∧
    w = u ++ (string text (tree.nodes v)).take pos.matchedLen

section Search

variable {tree : Suffixtree} {path : Option ℕ → List ℕ} {p : Option ℕ} {u : List UInt8}
  {a : UInt8} {s t : List UInt8}

theorem length_string {n : Node} (h : n.Fits text) : (string text n).length = n.size := by
  have := h.le
  rw [string, List.length_take, List.length_drop]
  omega

theorem Accepts.exists_cons (h : Accepts text u (a :: s) t) : ∃ w, t = a :: w := by
  have hhead := h.same.head
  cases t with
  | nil => exact absurd h.length (by simp)
  | cons b w =>
    rw [Option.some_inj.mp hhead]
    exact ⟨w, rfl⟩

theorem Inv.not_accepts (h : Inv text tree path text.length none) (hp : Allocated tree p)
    (hu : path p = u.map UInt8.toNat) (hfind : findchildSuffixtree text tree p a.toNat = none) :
    ¬ Accepts text u (a :: s) t := by
  intro hacc
  obtain ⟨w, rfl⟩ := hacc.exists_cons
  obtain ⟨k, hk⟩ := hacc.occurs
  have hlt := lt_of_prefix_drop (by simp) hk
  obtain ⟨v, hv, -, hpath⟩ := h.leaves k hlt
  refine h.of_findchild_none hp hfind v hv ?_
  rw [hpath]
  refine List.IsPrefix.trans ?_ ((prefix_marked_iff hlt.le).mpr hk)
  rw [hu, List.map_append, List.prefix_append_right_inj]
  exact ⟨_, rfl⟩

section Edge

variable (h : Inv text tree path text.length none) (hp : Allocated tree p) {c : ℕ}
  (hc : c ∈ childsOf tree p) (hu : path p = u.map UInt8.toNat) {z : List UInt8}
  (hz : string text (tree.nodes c) = a :: z)

include h hp hc hu hz

theorem Accepts.along (hacc : Accepts text u (a :: s) t) :
    t <+: string text (tree.nodes c) ∨
      (string text (tree.nodes c) <+: t ∧ (tree.nodes c).isLeaf = false) := by
  obtain ⟨w, rfl⟩ := hacc.exists_cons
  obtain ⟨k, hk⟩ := hacc.occurs
  obtain ⟨hlt, hpre⟩ := h.forced_string hp hc hu hz hk
  have hkc := h.string_prefix_drop hp hc hu hlt hpre
  rcases List.prefix_or_prefix_of_prefix hk hkc with h1 | h1
  · exact Or.inl ((List.prefix_append_right_inj _).mp h1)
  · cases hleaf : (tree.nodes c).isLeaf with
    | false => exact Or.inr ⟨(List.prefix_append_right_inj _).mp h1, rfl⟩
    | true =>
      -- the edge goes to the end of the text
      left
      obtain ⟨l, hl, hpath⟩ := h.leaf c (h.lt_used hp hc) hleaf
      rw [hpath] at hpre
      rw [eq_of_prefix_drop hl.le hlt.le hpre, h.path_child hp hc hu, markOf, hleaf, if_pos rfl,
        drop_marked hlt.le] at hpath
      rw [← map_toNat_inj (List.append_cancel_right hpath)] at hk
      exact (List.prefix_append_right_inj _).mp hk

theorem accepts_within (hle : (a :: s).length ≤ (string text (tree.nodes c)).length) :
    Accepts text u (a :: s) t ↔
      t = (string text (tree.nodes c)).take (a :: s).length ∧
        strncmp (a :: s).length (a :: s) (string text (tree.nodes c)) = 0 := by
  set x := string text (tree.nodes c) with hx
  have htake : (x.take (a :: s).length).length = (a :: s).length := by
    rw [List.length_take]
    omega
  have hsame : t = x.take (a :: s).length →
      (Overlooked (fun m => Branches text (u ++ t.take m)) (a :: s) t ↔
        strncmp (a :: s).length (a :: s) x = 0) := by
    rintro rfl
    rw [strncmp_take, List.take_length, strncmp_eq_zero_iff htake.symm]
    refine Overlooked.congr htake.symm fun m hm hlt => ⟨fun hB => ?_, False.elim⟩
    rw [List.take_take, Nat.min_eq_left hlt.le] at hB
    exact h.not_branches hp hc hu hm (by rw [← hx]; omega) hB
  constructor
  · intro hacc
    have ht : t = x.take (a :: s).length := by
      rw [← hacc.length]
      rcases hacc.along h hp hc hu hz with h1 | ⟨h1, -⟩
      · exact List.prefix_iff_eq_take.mp h1
      · rw [hx, h1.eq_of_length_le (hacc.length.trans_le hle), List.take_length]
    exact ⟨ht, (hsame ht).mp hacc.same⟩
  · rintro ⟨ht, hcmp⟩
    refine ⟨by rw [ht, htake], ?_, (hsame ht).mpr hcmp⟩
    obtain ⟨k, hk, hpre⟩ := h.sound c (h.lt_used hp hc)
    refine ⟨k, List.IsPrefix.trans ?_ (h.string_prefix_drop hp hc hu hk hpre)⟩
    rw [ht, List.prefix_append_right_inj]
    exact List.take_prefix _ _

theorem not_accepts_leaf (hlt : (string text (tree.nodes c)).length < (a :: s).length)
    (hleaf : (tree.nodes c).isLeaf = true) : ¬ Accepts text u (a :: s) t := by
  intro hacc
  rcases hacc.along h hp hc hu hz with h1 | ⟨-, h1⟩
  · have := h1.length_le
    rw [hacc.length] at this
    omega
  · rw [hleaf] at h1
    exact absurd h1 (by simp)

theorem accepts_inner (hlt : (string text (tree.nodes c)).length < (a :: s).length)
    (hleaf : (tree.nodes c).isLeaf = false) :
    Accepts text u (a :: s) t ↔
      strncmp (string text (tree.nodes c)).length (a :: s) (string text (tree.nodes c)) = 0 ∧
        ∃ t', t = string text (tree.nodes c) ++ t' ∧
          Accepts text (u ++ string text (tree.nodes c))
            ((a :: s).drop (string text (tree.nodes c)).length) t' := by
  set x := string text (tree.nodes c) with hx
  set y := a :: s
  have htake : (y.take x.length).length = x.length := by
    rw [List.length_take]
    omega
  have hbranch : Branches text (u ++ x) := by
    refine h.branches_inner (h.lt_used hp hc) hleaf ?_
    rw [h.path_child hp hc hu, markOf, hleaf]
    exact List.append_nil _
  -- the node at the end of the edge separates the two parts
  have hsame : ∀ t', (Overlooked (fun m => Branches text (u ++ (x ++ t').take m)) y (x ++ t') ↔
      strncmp x.length y x = 0 ∧ Overlooked (fun m => Branches text (u ++ x ++ t'.take m))
        (y.drop x.length) t') := by
    intro t'
    have happ : Overlooked (fun m => Branches text (u ++ (x ++ t').take m))
        (y.take x.length ++ y.drop x.length) (x ++ t') ↔ _ :=
      Overlooked.append htake (by rw [htake, List.take_left]; exact hbranch)
    rw [List.take_append_drop] at happ
    rw [happ, strncmp_take, List.take_length]
    refine and_congr ?_ ?_
    · have hcmp := strncmp_eq_zero_iff htake
      rw [htake] at hcmp
      rw [hcmp]
      refine Overlooked.congr htake fun m hm hlt' => ⟨fun hB => ?_, False.elim⟩
      rw [List.take_append_of_le_length (by omega)] at hB
      exact h.not_branches hp hc hu hm (by rw [← hx]; omega) hB
    · have hfun : (fun m => Branches text (u ++ (x ++ t').take ((y.take x.length).length + m))) =
          fun m => Branches text (u ++ x ++ t'.take m) := by
        funext m
        rw [htake, List.take_length_add_append, List.append_assoc]
      rw [hfun]
  constructor
  · intro hacc
    obtain ⟨t', rfl⟩ : x <+: t := by
      rcases hacc.along h hp hc hu hz with h1 | ⟨h1, -⟩
      · have := h1.length_le
        rw [hacc.length, ← hx] at this
        omega
      · exact h1
    obtain ⟨hcmp, hover⟩ := (hsame t').mp hacc.same
    refine ⟨hcmp, t', rfl, ?_, ?_, hover⟩
    · have := hacc.length
      rw [List.length_append] at this
      rw [List.length_drop]
      omega
    · rw [List.append_assoc]
      exact hacc.occurs
  · rintro ⟨hcmp, t', rfl, hlen, hocc, hover⟩
    refine ⟨?_, ?_, (hsame t').mpr ⟨hcmp, hover⟩⟩
    · rw [List.length_drop] at hlen
      rw [List.length_append]
      omega
    · rw [← List.append_assoc]
      exact hocc

end Edge
end Search

theorem strncmp_start {tree : Suffixtree} {c n : ℕ} (h : n ≤ (tree.nodes c).size)
    (s : List UInt8) :
    strncmp n s (text.drop (tree.nodes c).strStart) = strncmp n s (string text (tree.nodes c)) := by
  have htake : (string text (tree.nodes c)).take n = (text.drop (tree.nodes c).strStart).take n := by
    rw [string, List.take_take, Nat.min_eq_left h]
  rw [strncmp_take, ← htake, ← strncmp_take]

variable {tree : Suffixtree} {path : Option ℕ → List ℕ}

/-- **The loop of `findstring_suffixtree`** finds the only part of the text that is accepted. -/
theorem findstringLoop_spec (h : Inv text tree path text.length none) (turns : ℕ) {p : Option ℕ}
    {u s : List UInt8} (hp : IsInner tree p) (hu : path p = u.map UInt8.toNat) (hs : s ≠ [])
    (hturns : s.length < turns) :
    (findstringLoop text tree turns p s = .error (.errno .ESRCH) ∧ ∀ t, ¬ Accepts text u s t) ∨
      ∃ pos t, findstringLoop text tree turns p s = .ok pos ∧
        (∀ t', Accepts text u s t' ↔ t' = t) ∧ Found text tree path pos (u ++ t) := by
  induction turns generalizing p u s with
  | zero => exact absurd hturns (Nat.not_lt_zero _)
  | succ turns ih =>
    obtain ⟨a, s, rfl⟩ := List.exists_cons_of_ne_nil hs
    have hchar : charAt (a :: s) 0 = a.toNat := rfl
    rw [findstringLoop, hchar]
    cases hfind : findchildSuffixtree text tree p a.toNat with
    | none => exact Or.inl ⟨rfl, fun t => h.not_accepts hp.allocated hu hfind⟩
    | some c =>
      obtain ⟨hc, hac⟩ := h.of_findchild hp.allocated hfind
      obtain ⟨z, hz⟩ := h.string_eq_cons hp.allocated hc hac
      have hclt := h.lt_used hp.allocated hc
      have hlen := length_string (h.fits c hclt)
      have hpos : 0 < (tree.nodes c).size := by
        rw [← hlen, hz]
        exact Nat.succ_pos _
      dsimp only
      by_cases hle : (a :: s).length ≤ (tree.nodes c).size
      · rw [if_pos hle, strncmp_start hle]
        have hacc := fun t => accepts_within h hp.allocated hc hu hz (t := t) (hlen.symm ▸ hle)
        by_cases hcmp : strncmp (a :: s).length (a :: s) (string text (tree.nodes c)) = 0
        · rw [if_neg (not_not.mpr hcmp)]
          refine Or.inr ⟨_, _, rfl, fun t => (hacc t).trans (and_iff_left hcmp),
            c, u, rfl, hp, hc, hu, Nat.succ_pos _, hle, rfl⟩
        · rw [if_pos hcmp]
          exact Or.inl ⟨rfl, fun t ht => hcmp ((hacc t).mp ht).2⟩
      · rw [if_neg hle]
        have hlt : (string text (tree.nodes c)).length < (a :: s).length := by omega
        cases hleaf : (tree.nodes c).isLeaf with
        | true =>
          rw [if_pos rfl]
          exact Or.inl ⟨rfl, fun t => not_accepts_leaf h hp.allocated hc hu hz hlt hleaf⟩
        | false =>
          rw [if_neg Bool.false_ne_true]
          have hacc := fun t => accepts_inner h hp.allocated hc hu hz (t := t) hlt hleaf
          rw [hlen] at hacc
          -- one byte has been compared already
          have hone : (tree.nodes c).size = 1 →
              strncmp (tree.nodes c).size (a :: s) (string text (tree.nodes c)) = 0 := by
            intro hone
            rw [hone, hz]
            simp [strncmp]
          by_cases hcmp : strncmp (tree.nodes c).size (a :: s) (string text (tree.nodes c)) = 0
          · rw [strncmp_start (le_refl _), if_neg fun hne => hne.2 hcmp]
            have hpath : path (some c) = (u ++ string text (tree.nodes c)).map UInt8.toNat := by
              rw [h.path_child hp.allocated hc hu, markOf, hleaf]
              exact List.append_nil _
            have hne : (a :: s).drop (tree.nodes c).size ≠ [] := by
              intro hnil
              have := congrArg List.length hnil
              rw [List.length_drop, List.length_nil] at this
              omega
            have hless : ((a :: s).drop (tree.nodes c).size).length < turns := by
              rw [List.length_drop]
              omega
            rcases ih (isInner_some hclt hleaf) hpath hne hless with
              ⟨herr, hnot⟩ | ⟨pos, t, hok, hall, hfound⟩
            · refine Or.inl ⟨herr, fun t ht => ?_⟩
              obtain ⟨-, t', -, ht'⟩ := (hacc t).mp ht
              exact hnot t' ht'
            · refine Or.inr ⟨pos, string text (tree.nodes c) ++ t, hok, fun t' => ?_, ?_⟩
              · rw [hacc t', and_iff_right hcmp]
                constructor
                · rintro ⟨t'', rfl, ht''⟩
                  rw [(hall t'').mp ht'']
                · rintro rfl
                  exact ⟨t, rfl, (hall t).mpr rfl⟩
              · rwa [← List.append_assoc]
          · rw [strncmp_start (le_refl _),
              if_pos ⟨Nat.lt_of_le_of_ne hpos fun h1 => hcmp (hone h1.symm), hcmp⟩]
            exact Or.inl ⟨rfl, fun t ht => hcmp ((hacc t).mp ht).1⟩

theorem accepts_nil_iff {s t : List UInt8} :
    Accepts text [] s t ↔ t.length = s.length ∧ t <:+: text ∧
      Overlooked (fun m => Branches text (t.take m)) s t := by
  rw [infix_iff_exists_drop]
  exact ⟨fun h => ⟨h.length, h.occurs, h.same⟩, fun h => ⟨h.1, h.2.1, h.2.2⟩⟩

/-- **`findstring_suffixtree`** -/
theorem findstring_spec (h : Inv text tree path text.length none)
    (hmax : tree.maxlength = text.length) {turns : ℕ} (hturns : text.length < turns)
    {s : List UInt8} (hs : s ≠ []) :
    (findstringSuffixtree text tree turns s = .error (.errno .ESRCH) ∧
        ∀ t, ¬ Accepts text [] s t) ∨
      ∃ pos t, findstringSuffixtree text tree turns s = .ok pos ∧
        (∀ t', Accepts text [] s t' ↔ t' = t) ∧ Found text tree path pos t := by
  by_cases hlen : text.length < s.length
  · left
    rw [findstringSuffixtree, if_pos (Or.inr (hmax ▸ hlen))]
    refine ⟨rfl, fun t ht => ?_⟩
    have hle := (accepts_nil_iff.mp ht).2.1.length_le
    rw [ht.length] at hle
    omega
  · rw [findstringSuffixtree, if_neg (by rw [hmax]; exact not_or.mpr ⟨hs, hlen⟩)]
    exact findstringLoop_spec h turns (isInner_none tree) h.path_none hs (by omega)

/-! ## The leaves below a node -/

/-- What is written to `matchedpos` if the leaves at the positions `seen` have been met. -/
def written (skip max : ℕ) (seen : List ℤ) : List ℤ := (seen.drop skip).take max

theorem written_snoc (skip max : ℕ) (seen : List ℤ) (a : ℤ) :
    written skip max (seen ++ [a]) =
      if skip ≤ seen.length ∧ seen.length - skip < max then written skip max seen ++ [a]
      else written skip max seen := by
  by_cases hskip : skip ≤ seen.length
  · rw [written, written, List.drop_append_of_le_length hskip, List.take_append, List.length_drop]
    by_cases hmax : seen.length - skip < max
    · rw [if_pos ⟨hskip, hmax⟩, List.take_of_length_le (l := [a]) (by simp; omega)]
    · rw [if_neg fun h => hmax h.2, Nat.sub_eq_zero_of_le (Nat.le_of_not_lt hmax), List.take_zero,
        List.append_nil]
  · rw [if_neg fun h => hskip h.1, written, written, List.drop_of_length_le (by simp; omega),
      List.drop_of_length_le (by omega)]

/-- The rest of a turn, after the leaves at the positions `seen` have been met. -/
def proceed (tree : Suffixtree) (skip max turns : ℕ) (posstack : List (ℕ × List ℕ))
    (seen : List ℤ) : Except Failure (ℕ × List ℤ) :=
  match nextNode posstack with
  | none => .ok (seen.length, written skip max seen)
  | some (node, prefixlen, posstack) =>
    matchallLoop tree skip max turns node
      (if (tree.nodes node).isLeaf then prefixlen else prefixlen + (tree.nodes node).size)
      posstack seen.length (written skip max seen)

theorem matchallLoop_succ (tree : Suffixtree) (skip max turns v prefixlen : ℕ)
    (posstack : List (ℕ × List ℕ)) (seen : List ℤ) :
    matchallLoop tree skip max (turns + 1) v prefixlen posstack seen.length
        (written skip max seen) =
      if (tree.nodes v).isLeaf then
        proceed tree skip max turns posstack (seen ++ [((tree.nodes v).strStart : ℤ) - prefixlen])
      else proceed tree skip max turns ((prefixlen, (tree.nodes v).childs) :: posstack) seen := by
  rw [matchallLoop]
  cases hleaf : (tree.nodes v).isLeaf with
  | true =>
    rw [if_pos rfl, if_pos rfl, if_pos rfl, proceed, written_snoc, List.length_append,
      List.length_singleton]
    simp only [true_and]
  | false =>
    rw [if_neg Bool.false_ne_true, if_neg Bool.false_ne_true, if_neg Bool.false_ne_true,
      if_neg fun h => Bool.false_ne_true h.1]
    rfl

variable (text path) in
/-- The position of the suffix of a leaf. -/
def position (v : ℕ) : ℤ := (text.length : ℤ) + 1 - (path (some v)).length

variable (text tree path) in
/-- The positions of the leaves below a node. -/
def leavesBelow (depth v : ℕ) : List ℤ :=
  (((trieOf tree path).preorder depth v).filter fun u => (tree.nodes u).isLeaf).map
    (position text path)

variable (tree path) in
/-- The number of bytes that are before the label of a leaf or below an inner node. -/
def before (p : Option ℕ) (v : ℕ) : ℕ :=
  if (tree.nodes v).isLeaf then (path p).length else (path p).length + (tree.nodes v).size

namespace Inv

variable (h : Inv text tree path text.length none)

include h

theorem length_path {p : Option ℕ} {c : ℕ} (hp : Allocated tree p) (hc : c ∈ childsOf tree p) :
    (path (some c)).length =
      (path p).length + (tree.nodes c).size + if (tree.nodes c).isLeaf then 1 else 0 := by
  rw [h.label p c hp hc, List.length_append, length_label _ (h.fits c (h.lt_used hp hc)),
    Nat.add_assoc]

/-- **The loop of `matchall_suffixtree`** meets every node below a node once. -/
theorem matchallLoop_spec (skip max : ℕ) (depth : ℕ) {p : Option ℕ} {v : ℕ} (hp : Allocated tree p)
    (hv : v ∈ childsOf tree p)
    (hdepth : text.length + 1 < (path (some v)).length + depth) (turns : ℕ)
    (posstack : List (ℕ × List ℕ)) (seen : List ℤ) :
    matchallLoop tree skip max (turns + ((trieOf tree path).preorder depth v).length) v
        (before tree path p v) posstack seen.length (written skip max seen) =
      proceed tree skip max turns posstack (seen ++ leavesBelow text tree path depth v) := by
  induction depth generalizing p v turns posstack seen with
  | zero =>
    obtain ⟨k, hk, hpre⟩ := h.sound v (h.lt_used hp hv)
    have := hpre.length_le
    rw [length_drop_marked] at this
    omega
  | succ depth ih =>
    have hvlt := h.lt_used hp hv
    have hlen := h.length_path hp hv
    rw [preorder, List.length_cons, ← Nat.add_assoc, matchallLoop_succ]
    cases hleaf : (tree.nodes v).isLeaf with
    | true =>
      have hchilds : (trieOf tree path).childs (some v) = [] := h.leaf_childs v hvlt hleaf
      have hpos : ((tree.nodes v).strStart : ℤ) - before tree path p v = position text path v := by
        have hend := (h.fits v hvlt).leaf hleaf
        rw [hleaf, if_pos rfl] at hlen
        rw [before, hleaf, if_pos rfl, position, hlen]
        omega
      rw [if_pos rfl, leavesBelow, preorder, hchilds, List.flatMap_nil, List.length_nil,
        Nat.add_zero, List.filter_cons_of_pos (by exact hleaf), List.filter_nil, List.map_singleton,
        hpos]
    | false =>
      have hbefore : before tree path p v = (path (some v)).length := by
        rw [before, hleaf, hlen, hleaf]
        rfl
      have hchilds : (trieOf tree path).childs (some v) = (tree.nodes v).childs := rfl
      have halloc : Allocated tree (some v) := (isInner_some hvlt hleaf).allocated
      -- the children are met one after the other
      have hall : ∀ cs : List ℕ, (∀ c ∈ cs, c ∈ childsOf tree (some v)) → ∀ seen,
          proceed tree skip max
              (turns + (cs.flatMap ((trieOf tree path).preorder depth)).length)
              (((path (some v)).length, cs) :: posstack) seen =
            proceed tree skip max turns posstack
              (seen ++ cs.flatMap (leavesBelow text tree path depth)) := by
        intro cs hcs
        induction cs with
        | nil =>
          intro seen
          rw [List.flatMap_nil, List.flatMap_nil, List.append_nil]
          rfl
        | cons c cs ihcs =>
          intro seen
          have hc := hcs c List.mem_cons_self
          have hlt : text.length + 1 < (path (some c)).length + depth := by
            obtain ⟨s, hs⟩ := h.valid.extend (some v) c (mem_trieOf.mpr halloc) hc
            have := length_lt_of_snoc hs
            change (path (some v)).length < (path (some c)).length at this
            omega
          have hstep := ih halloc hc hlt
            (turns + (cs.flatMap ((trieOf tree path).preorder depth)).length)
            (((path (some v)).length, cs) :: posstack) seen
          rw [List.flatMap_cons, List.length_append, List.flatMap_cons, ← List.append_assoc,
            ← ihcs (fun d hd => hcs d (List.mem_cons_of_mem _ hd)), ← hstep,
            Nat.add_comm ((trieOf tree path).preorder depth c).length, ← Nat.add_assoc]
          rfl
      rw [if_neg Bool.false_ne_true, hbefore, hchilds, hall (tree.nodes v).childs fun c hc => hc,
        leavesBelow, preorder, List.filter_cons_of_neg (by simp [hleaf]), hchilds,
        List.filter_flatMap, List.map_flatMap]
      rfl

end Inv

section Leaves

variable (h : Inv text tree path text.length none) {p : Option ℕ} {v : ℕ} (hp : Allocated tree p)
  (hv : v ∈ childsOf tree p)

include h hp hv

omit hp hv in
theorem Inv.lt_depth : ∀ u ∈ (trieOf tree path).nodes, path (some v) <+: path (some u) →
    (path (some u)).length < (path (some v)).length + (text.length + 2) := by
  intro u hu _
  obtain ⟨k, hk, hpre⟩ := h.sound u hu
  have := hpre.length_le
  rw [length_drop_marked] at this
  omega

theorem Inv.mem_leavesBelow {a : ℤ} :
    a ∈ leavesBelow text tree path (text.length + 2) v ↔
      ∃ k < text.length, a = (k : ℤ) ∧ path (some v) <+: (marked text).drop k := by
  have hmem := fun u => h.valid.mem_preorder (h.lt_used hp hv) h.lt_depth (u := u)
  have hposition : ∀ u k, k < text.length → path (some u) = (marked text).drop k →
      position text path u = k := by
    intro u k hk hu
    rw [position, hu, length_drop_marked]
    omega
  rw [leavesBelow, List.mem_map]
  simp only [List.mem_filter, hmem]
  constructor
  · rintro ⟨u, ⟨⟨hu, hvu⟩, hleaf⟩, rfl⟩
    obtain ⟨k, hk, hpath⟩ := h.leaf u hu hleaf
    exact ⟨k, hk, hposition u k hk hpath, hpath ▸ hvu⟩
  · rintro ⟨k, hk, rfl, hvk⟩
    obtain ⟨u, hu, hleaf, hpath⟩ := h.leaves k hk
    rw [← hpath] at hvk
    exact ⟨u, ⟨⟨hu, hvk⟩, hleaf⟩, hposition u k hk hpath⟩

theorem Inv.nodup_leavesBelow : (leavesBelow text tree path (text.length + 2) v).Nodup := by
  have hnodup := h.valid.nodup_preorder (h.lt_used hp hv) h.lt_depth
  have hmem := fun u => h.valid.mem_preorder (h.lt_used hp hv) h.lt_depth (u := u)
  refine List.Nodup.map_on ?_ (hnodup.filter _)
  intro u hu u' hu' heq
  rw [List.mem_filter, hmem] at hu hu'
  obtain ⟨k, hk, hpath⟩ := h.leaf u hu.1.1 hu.2
  obtain ⟨l, hl, hpath'⟩ := h.leaf u' hu'.1.1 hu'.2
  rw [position, position, hpath, hpath', length_drop_marked, length_drop_marked] at heq
  obtain rfl : k = l := by omega
  exact Option.some_inj.mp (h.valid.inj hu.1.1 hu'.1.1 (hpath.trans hpath'.symm))

theorem Inv.length_preorder_le :
    ((trieOf tree path).preorder (text.length + 2) v).length ≤ tree.used := by
  have hnodup := h.valid.nodup_preorder (h.lt_used hp hv) h.lt_depth
  have hmem := fun u => h.valid.mem_preorder (h.lt_used hp hv) h.lt_depth (u := u)
  have hsub : (trieOf tree path).preorder (text.length + 2) v ⊆ List.range tree.used :=
    fun u hu => List.mem_range.mpr ((hmem u).mp hu).1
  have hle := (List.subperm_of_subset hnodup hsub).length_le
  rwa [List.length_range] at hle

end Leaves

theorem mem_occurrences {s : List UInt8} (hs : s ≠ []) {k : ℕ} :
    k ∈ occurrences text s ↔ s <+: text.drop k := by
  rw [occurrences, Finset.mem_filter, Finset.mem_range]
  exact ⟨fun h => h.2, fun h => ⟨lt_of_prefix_drop hs h, h⟩⟩

/-- **What `matchall_suffixtree` does from the position of a string.** -/
theorem matchall_of_found (h : Inv text tree path text.length none) {turns : ℕ}
    (hused : tree.used ≤ turns) {s w : List UInt8} (hlen : w.length = s.length) {pos : Pos}
    (hfind : findstringSuffixtree text tree turns s = .ok pos)
    (hfound : Found text tree path pos w) (skip max : ℕ) :
    ∃ seen : List ℤ, seen.Nodup ∧ (∀ a, a ∈ seen ↔ ∃ k ∈ occurrences text w, a = (k : ℤ)) ∧
      matchallSuffixtree text tree turns s skip max =
        .ok (seen.length, written skip max seen) := by
  obtain ⟨v, u, hnode, hp, hv, hu, hpos, hle, hw⟩ := hfound
  have hlenstring := length_string (h.fits v (h.lt_used hp.allocated hv))
  obtain ⟨a, z, hz⟩ : ∃ a z, string text (tree.nodes v) = a :: z :=
    List.exists_cons_of_length_pos (by omega)
  obtain ⟨m, hm⟩ := Nat.exists_eq_succ_of_ne_zero hpos.ne'
  have hcons : w = u ++ a :: z.take m := by rw [hw, hz, hm, List.take_succ_cons]
  have hne : w ≠ [] := by simp [hcons]
  have hwlen : w.length = u.length + pos.matchedLen := by
    rw [hw, List.length_append, List.length_take]
    omega
  refine ⟨leavesBelow text tree path (text.length + 2) v, h.nodup_leavesBelow hp.allocated hv,
    fun b => ?_, ?_⟩
  · rw [h.mem_leavesBelow hp.allocated hv]
    constructor
    · rintro ⟨k, hk, rfl, hvk⟩
      refine ⟨k, (mem_occurrences hne).mpr (List.IsPrefix.trans ?_
        (h.string_prefix_drop hp.allocated hv hu hk hvk)), rfl⟩
      rw [hw, List.prefix_append_right_inj]
      exact List.take_prefix _ _
    · rintro ⟨k, hk, rfl⟩
      rw [mem_occurrences hne, hcons] at hk
      obtain ⟨hlt, hpre⟩ := h.forced_string hp.allocated hv hu hz hk
      exact ⟨k, hlt, rfl, hpre⟩
  · have hbefore : (if (tree.nodes v).isLeaf then s.length - pos.matchedLen
        else s.length + ((tree.nodes v).size - pos.matchedLen)) = before tree path pos.parent v := by
      rw [before, hu, List.length_map, ← hlen, hwlen]
      cases (tree.nodes v).isLeaf with
      | true => exact Nat.add_sub_cancel _ _
      | false =>
        change u.length + pos.matchedLen + _ = u.length + _
        omega
    have hloop := h.matchallLoop_spec skip max (text.length + 2) hp.allocated hv (by omega)
      (turns - ((trieOf tree path).preorder (text.length + 2) v).length) [] []
    rw [Nat.sub_add_cancel ((h.length_preorder_le hp.allocated hv).trans hused),
      List.nil_append] at hloop
    rw [matchallSuffixtree, hfind]
    dsimp only
    rw [hnode]
    dsimp only
    rw [if_neg hpos.ne', hbefore]
    have hnil : written skip max [] = [] := by rw [written, List.drop_nil, List.take_nil]
    rw [hnil] at hloop
    exact hloop

/-! ## When the queries are exact -/

theorem accepts_self {s : List UInt8} : Accepts text [] s s ↔ s <:+: text := by
  rw [accepts_nil_iff]
  exact ⟨fun h => h.2.1, fun h => ⟨rfl, h, Overlooked.refl _ _⟩⟩

theorem falseMatch_iff {s : List UInt8} : FalseMatch text s ↔ ∃ t, t ≠ s ∧ Accepts text [] s t :=
  exists_congr fun _ => and_congr_right fun _ => accepts_nil_iff.symm

theorem queriesExact_of_notFound {turns : ℕ} {s : List UInt8}
    (hfind : findstringSuffixtree text tree turns s = .error (.errno .ESRCH))
    (hnot : ¬ (s ≠ [] ∧ s <:+: text)) : QueriesExact text tree turns s := by
  refine ⟨?_, fun skip max => ?_, fun hne hs => absurd ⟨hne, hs⟩ hnot⟩
  · rw [isstringSuffixtree, hfind, decide_eq_false hnot]
  · rw [matchallSuffixtree, hfind]
    exact ⟨fun _ => hnot, fun _ => rfl⟩

theorem queriesExact_of_found (h : Inv text tree path text.length none) {turns : ℕ}
    (hused : tree.used ≤ turns) {s : List UInt8} (hs : s ≠ [] ∧ s <:+: text) {pos : Pos}
    (hfind : findstringSuffixtree text tree turns s = .ok pos)
    (hfound : Found text tree path pos s) : QueriesExact text tree turns s := by
  refine ⟨?_, fun skip max => ?_, fun _ _ skip max => ?_⟩
  · rw [isstringSuffixtree, hfind, decide_eq_true hs]
  · obtain ⟨seen, -, -, hall⟩ := matchall_of_found h hused rfl hfind hfound skip max
    rw [hall]
    exact ⟨fun herr => absurd herr (by simp), fun hnot => absurd hs hnot⟩
  · obtain ⟨seen, hnodup, hmem, hall⟩ := matchall_of_found h hused rfl hfind hfound skip max
    have hinj : Injective fun k : ℕ => (k : ℤ) := fun k l hkl => Int.ofNat.inj hkl
    have hcard : (occurrences text s).card = seen.length := by
      rw [← List.toFinset_card_of_nodup hnodup, ← Finset.card_image_of_injective _ hinj]
      congr 1
      ext a
      rw [List.mem_toFinset, hmem, Finset.mem_image]
      exact exists_congr fun k => and_congr_right fun _ => eq_comm
    refine ⟨_, hcard ▸ hall, ?_, ?_, fun a ha => ?_⟩
    · rw [written, List.length_take, List.length_drop, hcard, Nat.min_comm]
    · exact hnodup.sublist ((List.take_sublist _ _).trans (List.drop_sublist _ _))
    · exact (hmem a).mp (List.mem_of_mem_drop (List.mem_of_mem_take ha))

/-- **The queries of a suffix tree are exact** for a string that is not taken for another part of
the text, and for no other string. -/
theorem queries_exact_iff {text : List UInt8} (hne : text ≠ []) (hmax : text.length ≤ SIZE_MAX / 2)
    {turns : ℕ} (hturns : text.length + 1 < turns) :
    ∃ tree, buildSuffixtree text turns = .ok tree ∧ ∀ queryTurns, text.length < queryTurns →
      tree.used ≤ queryTurns → ∀ s, QueriesExact text tree queryTurns s ↔ ¬ FalseMatch text s := by
  obtain ⟨tree, path, hbuild, hlen, h, -⟩ := build_spec hne hmax hturns
  refine ⟨tree, hbuild, fun queryTurns hquery hused s => ?_⟩
  by_cases hs : s = []
  · subst hs
    have hexact : QueriesExact text tree queryTurns [] :=
      queriesExact_of_notFound (if_pos (Or.inl rfl)) fun hnil => hnil.1 rfl
    refine ⟨fun _ => ?_, fun _ => hexact⟩
    rintro ⟨t, ht, htlen, -⟩
    exact ht (List.length_eq_zero_iff.mp htlen)
  · rw [falseMatch_iff]
    rcases findstring_spec h hlen hquery hs with ⟨hfind, hnot⟩ | ⟨pos, t, hfind, hall, hfound⟩
    · refine ⟨fun _ hmatch => ?_, fun _ => queriesExact_of_notFound hfind fun hocc => ?_⟩
      · obtain ⟨t, -, ht⟩ := hmatch
        exact hnot t ht
      · exact hnot s (accepts_self.mpr hocc.2)
    · by_cases hts : t = s
      · subst hts
        have hocc := accepts_self.mp ((hall t).mpr rfl)
        refine ⟨fun _ hmatch => ?_, fun _ => queriesExact_of_found h hused ⟨hs, hocc⟩ hfind hfound⟩
        obtain ⟨t', hne', ht'⟩ := hmatch
        exact hne' ((hall t').mp ht')
      · -- the string is found although it does not occur
        refine ⟨fun hexact _ => hts ?_, fun hnot => absurd ⟨t, hts, (hall t).mpr rfl⟩ hnot⟩
        have hisstring := hexact.isstring
        rw [isstringSuffixtree, hfind] at hisstring
        have hocc := of_decide_eq_true (Except.ok.inj hisstring).symm
        exact ((hall s).mp (accepts_self.mpr hocc.2)).symm

/-- The end of a text with a zero is found where something else follows the zero. -/
theorem isstring_zero_not_exact :
    (do
      let tree ← buildSuffixtree [0, 99, 100] 5
      isstringSuffixtree [0, 99, 100] tree 5 [0, 97]) = .ok true ∧
    ¬ [0, 97] <:+: ([0, 99, 100] : List UInt8) := by
  exact ⟨rfl, by decide⟩

theorem not_falseMatch {s : List UInt8} (hs : 0 ∉ s) : ¬ FalseMatch text s := by
  rintro ⟨t, hne, -, -, hsame⟩
  refine hne (List.ext_getElem? fun j => ?_)
  by_contra hj
  obtain ⟨i, -, hi, -⟩ := hsame j (Ne.symm hj)
  exact hs (List.mem_of_getElem? hi)

/-- In a text with a zero a string without zeros is found. -/
theorem queries_exact_iff_zero :
    ∃ tree queryTurns, buildSuffixtree [97, 0, 97] 5 = .ok tree ∧
      QueriesExact [97, 0, 97] tree queryTurns [97] := by
  obtain ⟨tree, hbuild, hiff⟩ :=
    queries_exact_iff (show ([97, 0, 97] : List UInt8) ≠ [] by decide) (by decide)
      (show 4 < 5 by decide)
  refine ⟨tree, max 4 tree.used, hbuild, ?_⟩
  exact (hiff _ (Nat.lt_of_lt_of_le (by decide) (le_max_left _ _)) (le_max_right _ _) [97]).mpr
    (not_falseMatch (by decide))

end Suffixtree
end CKern
