import CKern.Ds.Inmem.Exthash

/-!
# `main/tools/genmake.c`: the index of the names

* `HashEntry`: an entry and its name.
* `strncmp`, `hashchar`, `s_hashadapt`: the callbacks, which compare a key with another function
  than two entries.
* `new_hashtableentry`, `enterAll`: the entries of a project.
* `find_exact_iff`: when a key finds the entry of its name.
* `get_varvalue`: the lookup with a mode.
-/

namespace CKern
namespace Genmake

open Exthash Redblacktree BinaryTree SearchTree

/-! ## The callbacks -/

/-- `hash_entry_subclass_t`: its address and the bytes of `name` up to the 0 byte. -/
structure HashEntry where
  addr : ℕ
  name : List UInt8
  nul : 0 ∉ name
  deriving DecidableEq

/-- `strcmp`: the bytes are compared as unsigned numbers. -/
def strcmp (l r : List UInt8) : Ordering := List.compareLex compare l r

/-- `strncmp(key.addr, name, key.size)` -/
def strncmp : List UInt8 → List UInt8 → Ordering
  | [], _ => .eq
  | c :: key, name =>
    match compare c (name.headD 0) with
    | .eq => if c = 0 then .eq else strncmp key name.tail
    | ord => ord

def hashchar (c : UInt8) : UInt64 :=
  if c = 95 then 0
  else if 97 ≤ c ∧ c ≤ 122 then 1 + (c - 97).toUInt64
  else if 65 ≤ c ∧ c ≤ 90 then 27 + (c - 65).toUInt64
  else c.toUInt64

def impl_hashkey_hashadapt : List UInt8 → UInt64
  | [] => 0
  | c :: key => hashchar c + 53 * (key.map hashchar).foldl (· + ·) 0

def s_hashadapt : HashAdapt (List UInt8) HashEntry where
  cmpKeyObject := fun lkey rnode => strncmp lkey rnode.name
  cmpObject := fun lnode rnode => strcmp lnode.name rnode.name
  hashobject := fun hashnode => impl_hashkey_hashadapt hashnode.name
  hashkey := impl_hashkey_hashadapt

/-! ## The index -/

/-- `new_hashtableentry`: no entry is returned if the name is there already. -/
def new_hashtableentry (hashindex : Exthash HashEntry) (entry : HashEntry) :
    Option (Option HashEntry × Exthash HashEntry) :=
  (insertExthash s_hashadapt hashindex entry).map fun (err, hashindex) =>
    (if err.isSome then none else some entry, hashindex)

/-- The calls of `new_hashtableentry` for a row of names: the entries returned, and the index. -/
def enterAll : List HashEntry → Exthash HashEntry → Option (List HashEntry × Exthash HashEntry)
  | [], hashindex => some ([], hashindex)
  | entry :: entries, hashindex =>
    (new_hashtableentry hashindex entry).bind fun (new, hashindex) =>
      (enterAll entries hashindex).map fun (entered, hashindex) =>
        (new.toList ++ entered, hashindex)

/-- `init_exthash(&hashindex, 1024, 65536, &s_hashnodeadapt)` -/
def hashindex : Exthash HashEntry :=
  ⟨List.replicate (lengthoftableExthash 10) (.bucket nil), 0, 10, 16⟩

theorem initExthash_hashindex : initExthash 1024 65536 = some hashindex := by
  have h10 : Nat.log2 1024 = 10 := by decide
  have h16 : Nat.log2 65536 = 16 := by decide
  rw [initExthash, if_pos (by decide), h10, h16]
  rfl

/-- The tree in which `find_exthash` searches. -/
def bucketOf (hashindex : Exthash HashEntry) (key : List UInt8) : Redblacktree.Tree HashEntry :=
  match unsharedtableindexExthash hashindex (s_hashadapt.hashkey key) with
  | some (tabidx, _) => (treeAt hashindex tabidx).getD nil
  | none => nil

/-- The tree has an entry with another name that `strncmp` takes for the key, and it does not stand
below the entry with the name. -/
def ShadowedIn (key : List UInt8) : Redblacktree.Tree HashEntry → Prop
  | nil => False
  | node n l r =>
    n.1.name ≠ key ∧ (strncmp key n.1.name = .eq ∨ ShadowedIn key l ∨ ShadowedIn key r)

def Shadowed (hashindex : Exthash HashEntry) (key : List UInt8) : Prop :=
  ShadowedIn key (bucketOf hashindex key)

/-! ## The order -/

variable {key name a b : List UInt8}

theorem compare_byte_iff (c d : UInt8) : compare c d = .eq ↔ c = d :=
  Std.LawfulEqCmp.compare_eq_iff_eq

theorem strcmp_eq_iff : strcmp a b = .eq ↔ a = b :=
  @Std.LawfulEqCmp.compare_eq_iff_eq _ (List.compareLex compare) _ a b

theorem strncmp_self (h : 0 ∉ key) : strncmp key key = .eq := by
  induction key with
  | nil => rfl
  | cons c key ih =>
    rw [strncmp, List.headD_cons, (compare_byte_iff c c).mpr rfl]
    dsimp only
    rw [if_neg (List.ne_of_not_mem_cons h).symm, List.tail_cons]
    exact ih (List.not_mem_of_not_mem_cons h)

theorem compare_zero_ne_lt (c : UInt8) : compare c 0 ≠ .lt := by
  change compareOfLessAndEq c 0 ≠ .lt
  rw [compareOfLessAndEq, if_neg UInt8.not_lt_zero]
  split_ifs <;> nofun

theorem strncmp_cons (c : UInt8) (key name : List UInt8) : strncmp (c :: key) name =
    (compare c (name.headD 0)).then (if c = 0 then .eq else strncmp key name.tail) := by
  rw [strncmp]
  cases compare c (name.headD 0) <;> rfl

/-- **The comparison with a key does not go back in the order of the entries.** -/
theorem strncmp_mono (h : strcmp a b = .lt) :
    (strncmp key a = .lt → strncmp key b = .lt) ∧ (strncmp key b = .gt → strncmp key a = .gt) := by
  induction key generalizing a b with
  | nil => exact ⟨nofun, nofun⟩
  | cons c key ih =>
    simp only [strncmp_cons, Ordering.then_eq_lt, Ordering.then_eq_gt, compare_byte_iff]
    rcases a with _ | ⟨x, a⟩
    · -- the name that ends is below all others
      rw [List.headD_nil]
      constructor
      · rintro (hlt | ⟨rfl, hlt⟩)
        · exact absurd hlt (compare_zero_ne_lt c)
        · rw [if_pos rfl] at hlt
          cases hlt
      · intro hgt
        by_cases hc : c = 0
        · rw [if_pos hc, hc] at hgt
          rcases hgt with hgt | ⟨-, hgt⟩
          · exact absurd (Std.OrientedCmp.gt_iff_lt.mp hgt) (compare_zero_ne_lt _)
          · cases hgt
        · left
          cases hcmp : compare c 0 with
          | lt => exact absurd hcmp (compare_zero_ne_lt c)
          | eq => exact absurd ((compare_byte_iff c 0).mp hcmp) hc
          | gt => rfl
    · rcases b with _ | ⟨y, b⟩
      · cases h
      · rw [strcmp, List.compareLex_cons_cons, Ordering.then_eq_lt, compare_byte_iff] at h
        rw [List.headD_cons, List.headD_cons, List.tail_cons, List.tail_cons]
        rcases h with hxy | ⟨rfl, hab⟩
        · constructor
          · rintro (hlt | ⟨rfl, -⟩)
            · exact Or.inl (Std.TransCmp.lt_trans hlt hxy)
            · exact Or.inl hxy
          · rintro (hgt | ⟨rfl, -⟩)
            · exact Or.inl (Std.OrientedCmp.gt_iff_lt.mpr
                (Std.TransCmp.lt_trans hxy (Std.OrientedCmp.gt_iff_lt.mp hgt)))
            · exact Or.inl (Std.OrientedCmp.gt_iff_lt.mpr hxy)
        · by_cases hc : c = 0
          · rw [if_pos hc, if_pos hc]
            exact ⟨id, id⟩
          · rw [if_neg hc, if_neg hc]
            exact ⟨Or.imp_right (And.imp_right (ih hab).1),
              Or.imp_right (And.imp_right (ih hab).2)⟩

/-! ## The search in a tree -/

section Search

variable {tree : Redblacktree.Tree HashEntry} {e : HashEntry}

theorem not_shadowedIn (h : ∀ e ∈ nodes tree, strncmp key e.name ≠ .eq) : ¬ShadowedIn key tree := by
  induction tree with
  | nil => exact id
  | node n l r ihl ihr =>
    rw [nodes_node] at h
    rintro ⟨-, heq | hl | hr⟩
    · exact h n.1 (List.mem_append_right _ List.mem_cons_self) heq
    · exact ihl (fun e he => h e (List.mem_append_left _ he)) hl
    · exact ihr (fun e he => h e (List.mem_append_right _ (List.mem_cons_of_mem _ he))) hr

/-- **The search** ends with the first entry that is taken for the key, which has its name unless it
is shadowed. -/
theorem findRedblacktree_shadowed (h : Sorted s_hashadapt.toTypeadapt tree) :
    (findRedblacktree s_hashadapt.toTypeadapt key tree = .error .ESRCH ∧
        ∀ e ∈ nodes tree, strncmp key e.name ≠ .eq) ∨
      ∃ e ∈ nodes tree, findRedblacktree s_hashadapt.toTypeadapt key tree = .ok e ∧
        (ShadowedIn key tree ↔ e.name ≠ key) := by
  induction tree with
  | nil => exact Or.inl ⟨rfl, fun m hm => absurd hm List.not_mem_nil⟩
  | node n l r ihl ihr =>
    unfold Sorted at h ihl ihr
    rw [nodes_node, List.pairwise_append, List.pairwise_cons] at h
    obtain ⟨hl, ⟨hnr, hr⟩, hlnr⟩ := h
    have hname : strncmp key n.1.name ≠ .eq → n.1.name ≠ key := by
      rintro hne rfl
      exact hne (strncmp_self n.1.nul)
    have hcmp : s_hashadapt.cmpKeyObject key n.1 = strncmp key n.1.name := rfl
    rw [findRedblacktree, nodes_node, hcmp]
    cases hs : strncmp key n.1.name with
    | eq =>
      exact Or.inr ⟨n.1, List.mem_append_right _ List.mem_cons_self, rfl,
        And.left, fun hne => ⟨hne, Or.inl hs⟩⟩
    | lt =>
      -- the entries to the right are above the key
      have hno : ∀ e ∈ nodes r, strncmp key e.name ≠ .eq := fun e he =>
        ((strncmp_mono (hnr e he)).1 hs).trans_ne (by decide)
      have hne : strncmp key n.1.name ≠ .eq := hs.trans_ne (by decide)
      rcases ihl hl with ⟨hout, hnol⟩ | ⟨e, he, hout, hshadow⟩
      · refine Or.inl ⟨hout, fun e he => ?_⟩
        rcases List.mem_append.mp he with he | he
        · exact hnol e he
        · rcases List.mem_cons.mp he with rfl | he
          · exact hne
          · exact hno e he
      · refine Or.inr ⟨e, List.mem_append_left _ he, hout, ?_⟩
        rw [← hshadow]
        exact ⟨fun h => (h.2.resolve_left hne).resolve_right (not_shadowedIn hno),
          fun h => ⟨hname hne, Or.inr (Or.inl h)⟩⟩
    | gt =>
      have hno : ∀ e ∈ nodes l, strncmp key e.name ≠ .eq := fun e he =>
        ((strncmp_mono (hlnr e he n.1 List.mem_cons_self)).2 hs).trans_ne (by decide)
      have hne : strncmp key n.1.name ≠ .eq := hs.trans_ne (by decide)
      rcases ihr hr with ⟨hout, hnor⟩ | ⟨e, he, hout, hshadow⟩
      · refine Or.inl ⟨hout, fun e he => ?_⟩
        rcases List.mem_append.mp he with he | he
        · exact hno e he
        · rcases List.mem_cons.mp he with rfl | he
          · exact hne
          · exact hnor e he
      · refine Or.inr ⟨e, List.mem_append_right _ (List.mem_cons_of_mem _ he), hout, ?_⟩
        rw [← hshadow]
        exact ⟨fun h => (h.2.resolve_left hne).resolve_left (not_shadowedIn hno),
          fun h => ⟨hname hne, Or.inr (Or.inr h)⟩⟩

end Search

/-! ## The entries of a project -/

theorem lawful_objects : Lawful s_hashadapt.objects where
  order := by
    have htrans : Std.TransCmp s_hashadapt.cmpObject := by
      have hlex : Std.TransCmp (List.compareLex (compare : UInt8 → UInt8 → Ordering)) :=
        List.instTransCmpCompareLex
      exact {
        eq_swap := hlex.eq_swap
        isLE_trans := hlex.isLE_trans }
    exact ⟨htrans, fun e => @cut_cmp _ _ htrans e⟩
  hash_object x y h := congrArg impl_hashkey_hashadapt (strcmp_eq_iff.mp h)
  hash_key x y h := congrArg impl_hashkey_hashadapt (strcmp_eq_iff.mp h)

section Entered

variable {index index' : Exthash HashEntry} {entered : List HashEntry}

/-- **A call** returns the entry unless its name is there. -/
theorem new_hashtableentry_spec (hinv : Inv s_hashadapt.objects index) (entry : HashEntry) :
    ∃ new index', new_hashtableentry index entry = some (new, index') ∧
      Inv s_hashadapt.objects index' ∧
      stored index' = stored index ∪ {e | e ∈ new.toList} ∧
      (∃ e ∈ stored index', e.name = entry.name) ∧ ∀ e ∈ new, e = entry := by
  obtain ⟨out, index', hout, hinv', h⟩ := insertExthash_spec lawful_objects hinv entry
  rw [new_hashtableentry, insertExthash_objects, hout]
  refine ⟨_, index', rfl, hinv', ?_⟩
  rcases h with ⟨rfl, ⟨e, he, heq⟩, hstored⟩ | ⟨rfl, -, hstored⟩
  · refine ⟨?_, ⟨e, hstored ▸ he, (strcmp_eq_iff.mp heq).symm⟩, fun e he => absurd he nofun⟩
    rw [hstored]
    exact (Set.union_eq_self_of_subset_right fun e he => absurd he List.not_mem_nil).symm
  · refine ⟨?_, ⟨entry, hstored ▸ Set.mem_insert _ _, rfl⟩, fun e he => (Option.some.inj he).symm⟩
    rw [hstored, Set.insert_eq, Set.union_comm]
    congr 1
    ext e
    exact List.mem_singleton.symm

theorem enterAll_spec (entries : List HashEntry) :
    ∀ {index}, Inv s_hashadapt.objects index → ∃ entered index',
      enterAll entries index = some (entered, index') ∧ Inv s_hashadapt.objects index' ∧
        stored index' = stored index ∪ {e | e ∈ entered} ∧
        (∀ entry ∈ entries, ∃ e ∈ stored index', e.name = entry.name) ∧ entered ⊆ entries := by
  induction entries with
  | nil =>
    intro index hinv
    exact ⟨[], index, rfl, hinv, (Set.union_eq_self_of_subset_right fun e he =>
      absurd he List.not_mem_nil).symm, fun _ h => absurd h List.not_mem_nil, List.Subset.refl _⟩
  | cons entry entries ih =>
    intro index hinv
    obtain ⟨new, index₁, hnew, hinv₁, hstored₁, ⟨e₁, he₁, hname₁⟩, hself⟩ :=
      new_hashtableentry_spec hinv entry
    obtain ⟨entered, index', henter, hinv', hstored, hnames, hsub⟩ := ih hinv₁
    refine ⟨new.toList ++ entered, index', ?_, hinv', ?_, fun entry' h => ?_, fun e he => ?_⟩
    · rw [enterAll, hnew]
      dsimp only [Option.bind_some]
      rw [henter]
      rfl
    · rw [hstored, hstored₁, Set.union_assoc]
      congr 1
      ext e
      exact List.mem_append.symm
    · rcases List.mem_cons.mp h with rfl | h
      · exact ⟨e₁, hstored ▸ Or.inl he₁, hname₁⟩
      · exact hnames entry' h
    · rcases List.mem_append.mp he with he | he
      · exact hself e (Option.mem_toList.mp he) ▸ List.mem_cons_self
      · exact List.mem_cons_of_mem _ (hsub he)

theorem find_exact_of_inv (hinv : Inv s_hashadapt.objects index) (key : List UInt8) :
    (∀ e, findExthash s_hashadapt index key = some (.ok e) ↔ e ∈ stored index ∧ e.name = key) ↔
      ¬Shadowed index key := by
  obtain ⟨t, s, tree, hidx, -, htree, hown, -⟩ :=
    unsharedtableindexExthash_spec hinv (s_hashadapt.hashkey key)
  have hbucket : bucketOf index key = tree := by
    rw [bucketOf, hidx]
    dsimp only
    rw [htree]
    rfl
  have hfind : findExthash s_hashadapt index key =
      some (findRedblacktree s_hashadapt.toTypeadapt key tree) := by
    rw [findExthash, hidx]
    dsimp only
    rw [htree]
    rfl
  -- an entry with the name is in this tree
  have hmem : ∀ e, e ∈ stored index → e.name = key → e ∈ nodes tree := by
    rintro e he rfl
    exact (hinv.mem_stored_iff htree hown).mp he
  have hstored : ∀ e ∈ nodes tree, e ∈ stored index := fun e he =>
    ⟨t, (bucketNodes_eq htree).symm ▸ he⟩
  rw [hfind, Shadowed, hbucket]
  rcases findRedblacktree_shadowed (hinv.sorted t tree htree) with ⟨hout, hno⟩ | ⟨m, hm, hout, hsh⟩
  · rw [hout]
    refine iff_of_true (fun e => iff_of_false nofun ?_) (not_shadowedIn hno)
    rintro ⟨he, rfl⟩
    exact hno e (hmem e he rfl) (strncmp_self e.nul)
  · rw [hout, hsh, not_not]
    constructor
    · intro h
      exact ((h m).mp rfl).2
    · rintro hname e
      constructor
      · intro he
        obtain rfl : m = e := Except.ok.inj (Option.some.inj he)
        exact ⟨hstored m hm, hname⟩
      · rintro ⟨he, hkey⟩
        have heq : m = e := hinv.eq_of_cmp_eq lawful_objects (hstored m hm) he
          (strcmp_eq_iff.mpr (hname.trans hkey.symm))
        rw [heq]

end Entered

theorem enterAll_hashindex (entries : List HashEntry) :
    ∃ entered index, enterAll entries hashindex = some (entered, index) ∧
      Inv s_hashadapt.objects index ∧ (∀ e, e ∈ stored index ↔ e ∈ entered) ∧
      (∀ entry ∈ entries, ∃ e ∈ entered, e.name = entry.name) ∧ entered ⊆ entries := by
  obtain ⟨hinv, hempty⟩ := @initExthash_spec _ _ s_hashadapt.objects _ _ _ initExthash_hashindex
  obtain ⟨entered, index, henter, hinv', hstored, hnames, hsub⟩ := enterAll_spec entries hinv
  rw [hempty, Set.empty_union] at hstored
  have hmem : ∀ e, e ∈ stored index ↔ e ∈ entered := fun e => by rw [hstored]; rfl
  refine ⟨entered, index, henter, hinv', hmem, fun entry h => ?_, hsub⟩
  obtain ⟨e, he, hname⟩ := hnames entry h
  exact ⟨e, (hmem e).mp he, hname⟩

/-- **The index of a project**, whatever names are entered: `find_exthash` returns the entry of a
name and no other one if and only if the name is not shadowed. -/
theorem find_exact_iff (entries : List HashEntry) :
    ∃ entered index, enterAll entries hashindex = some (entered, index) ∧ entered ⊆ entries ∧
      (∀ entry ∈ entries, ∃ e ∈ entered, e.name = entry.name) ∧
      ∀ key, (∀ e, findExthash s_hashadapt index key = some (.ok e) ↔
        e ∈ entered ∧ e.name = key) ↔ ¬Shadowed index key := by
  obtain ⟨entered, index, henter, hinv, hmem, hnames, hsub⟩ := enterAll_hashindex entries
  refine ⟨entered, index, henter, hsub, hnames, fun key => ?_⟩
  rw [← find_exact_of_inv hinv key]
  simp only [hmem]

/-- The name `a_` has the hash value of `a`, and is found for it. -/
theorem find_not_exact : ¬∀ entries entered index,
    enterAll entries hashindex = some (entered, index) → ∀ key e,
      findExthash s_hashadapt index key = some (.ok e) ↔ e ∈ entered ∧ e.name = key := by
  intro h
  let entry : HashEntry := ⟨0, [97, 95], by decide⟩
  have hfind : (enterAll [entry] hashindex).bind (fun r => findExthash s_hashadapt r.2 [97]) =
      some (.ok entry) := by decide +kernel
  obtain ⟨⟨entered, index⟩, henter, hout⟩ := Option.bind_eq_some_iff.mp hfind
  have hname := ((h [entry] entered index henter [97] entry).mp hout).2
  exact absurd hname (by decide)

/-! ## The lookup with a mode -/

def qualifiedName (varname : List UInt8) (mode : Option (List UInt8)) : List UInt8 :=
  varname ++ (mode.map (95 :: ·)).getD []

/-- `get_varvalue`: the entry whose value is returned. -/
def get_varvalue (hashindex : Exthash HashEntry) (varname : List UInt8)
    (mode : Option (List UInt8)) : Option (Option HashEntry) :=
  match findExthash s_hashadapt hashindex (qualifiedName varname mode) with
  | none => none
  | some (.ok hash_entry) => some (some hash_entry)
  | some (.error _) => (findExthash s_hashadapt hashindex varname).map Except.toOption

end Genmake
end CKern
