import Mathlib.Data.Nat.Log
import Mathlib.Data.Nat.Bitwise
import Mathlib.Data.List.Basic

/-!
# Directories of extendible hashing

A directory of level `L` has an entry for each number with `L` bits. Some of the entries own a
bucket. The bucket of a hash value is that of the longest of its ends, in binary, whose entry owns
one.

* `chain`: an index, and what remains of it if its highest bit is cleared again and again.
* `IsOwner`: the owner of the bucket of a hash value.
* `find?_chain`: a search along the chain of the low bits finds the owner.
* `isOwner_split`: how the owners change if an entry gets a part of the bucket of another one.
* `isOwner_succ`: they do not change if the level grows.
-/

namespace CKern
namespace Directory

theorem mod_two_pow_succ (h k : ℕ) :
    h % 2 ^ (k + 1) = h % 2 ^ k + (if h.testBit k then 2 ^ k else 0) := by
  rw [Nat.pow_succ, Nat.mod_mul]
  cases hbit : h.testBit k with
  | true =>
    rw [Nat.testBit_eq_decide_div_mod_eq, decide_eq_true_eq] at hbit
    rw [hbit, Nat.mul_one, if_pos rfl]
  | false =>
    rw [Nat.testBit_eq_decide_div_mod_eq, decide_eq_false_iff_not] at hbit
    rw [Nat.mod_two_ne_one.mp hbit, Nat.mul_zero, if_neg (by simp)]

theorem add_two_pow_eq_xor {i k : ℕ} (h : i < 2 ^ k) : i + 2 ^ k = i ^^^ 2 ^ k := by
  apply Nat.eq_of_testBit_eq
  intro m
  rw [Nat.testBit_xor, Nat.add_comm]
  rcases Nat.lt_trichotomy m k with hlt | rfl | hlt
  · rw [Nat.testBit_two_pow_add_gt hlt, Nat.testBit_two_pow_of_ne (Nat.ne_of_gt hlt), Bool.xor_false]
  · rw [Nat.testBit_two_pow_add_eq, Nat.testBit_two_pow_self, Bool.xor_true]
  · have hsum : 2 ^ k + i < 2 ^ m := by
      have := Nat.pow_le_pow_right (by omega : 0 < 2) hlt
      rw [Nat.pow_succ] at this
      omega
    have hi : i < 2 ^ m := by omega
    rw [Nat.testBit_two_pow_of_ne (Nat.ne_of_lt hlt), Nat.testBit_lt_two_pow hsum,
      Nat.testBit_lt_two_pow hi, Bool.xor_false]

/-- The highest bit is cleared. -/
def clearHighest (i : ℕ) : ℕ := i ^^^ 2 ^ Nat.log2 i

theorem clearHighest_add {i k : ℕ} (h : i < 2 ^ k) : clearHighest (i + 2 ^ k) = i := by
  have hlog : Nat.log2 (i + 2 ^ k) = k := by
    have hne : i + 2 ^ k ≠ 0 := by
      have := Nat.two_pow_pos k
      omega
    refine Nat.le_antisymm ?_ ((Nat.le_log2 hne).mpr (Nat.le_add_left _ _))
    refine Nat.lt_succ_iff.mp ((Nat.log2_lt hne).mpr ?_)
    rw [Nat.pow_succ]
    omega
  rw [clearHighest, hlog, add_two_pow_eq_xor h, Nat.xor_assoc, Nat.xor_self, Nat.xor_zero]

theorem clearHighest_eq_sub {i : ℕ} (h : i ≠ 0) : clearHighest i = i - 2 ^ i.log2 := by
  have hself := Nat.log2_self_le h
  have hlt : i - 2 ^ i.log2 < 2 ^ i.log2 := by
    have := @Nat.lt_log2_self i
    rw [Nat.pow_succ] at this
    omega
  have hclear := clearHighest_add hlt
  rwa [Nat.sub_add_cancel hself] at hclear

theorem clearHighest_add_two_pow {i : ℕ} (h : i ≠ 0) : clearHighest i + 2 ^ i.log2 = i := by
  rw [clearHighest_eq_sub h, Nat.sub_add_cancel (Nat.log2_self_le h)]

theorem clearHighest_lt_log2 {i : ℕ} (h : i ≠ 0) : clearHighest i < 2 ^ i.log2 := by
  have := @Nat.lt_log2_self i
  rw [Nat.pow_succ] at this
  have := clearHighest_add_two_pow h
  omega

theorem clearHighest_lt {i : ℕ} (h : i ≠ 0) : clearHighest i < i := by
  have := clearHighest_add_two_pow h
  have := Nat.two_pow_pos i.log2
  omega

/-- An index, and what remains of it if its highest bit is cleared again and again. -/
def chain (i : ℕ) : List ℕ := if _h : i = 0 then [0] else i :: chain (clearHighest i)
termination_by i
decreasing_by exact clearHighest_lt _h

theorem clearHighest_lt_two_pow {i k : ℕ} (hi : i ≠ 0) (h : i < 2 ^ (k + 1)) :
    clearHighest i < 2 ^ k := by
  have hlog : i.log2 ≤ k := Nat.lt_succ_iff.mp ((Nat.log2_lt hi).mpr h)
  exact Nat.lt_of_lt_of_le (clearHighest_lt_log2 hi) (Nat.pow_le_pow_right (by omega) hlog)

theorem chain_zero : chain 0 = [0] := by
  rw [chain]
  rfl

theorem chain_of_ne_zero {i : ℕ} (h : i ≠ 0) : chain i = i :: chain (clearHighest i) := by
  rw [chain, dif_neg h]

theorem exists_mod_of_mem_chain {L h s : ℕ} (hs : s ∈ chain (h % 2 ^ L)) :
    ∃ m ≤ L, h % 2 ^ m = s := by
  induction L with
  | zero =>
    rw [Nat.pow_zero, Nat.mod_one, chain_zero, List.mem_singleton] at hs
    exact ⟨0, Nat.le_refl 0, by rw [hs, Nat.pow_zero, Nat.mod_one]⟩
  | succ L ih =>
    have hmod := mod_two_pow_succ h L
    cases hbit : h.testBit L with
    | true =>
      rw [if_pos hbit] at hmod
      have hlt : h % 2 ^ L < 2 ^ L := Nat.mod_lt _ (Nat.two_pow_pos L)
      have hne : h % 2 ^ (L + 1) ≠ 0 := by
        have := Nat.two_pow_pos L
        omega
      rw [chain_of_ne_zero hne, List.mem_cons] at hs
      rcases hs with rfl | hs
      · exact ⟨L + 1, Nat.le_refl _, rfl⟩
      · rw [hmod, clearHighest_add hlt] at hs
        obtain ⟨m, hm, hms⟩ := ih hs
        exact ⟨m, Nat.le_succ_of_le hm, hms⟩
    | false =>
      rw [hmod, hbit, if_neg (by simp), Nat.add_zero] at hs
      obtain ⟨m, hm, hms⟩ := ih hs
      exact ⟨m, Nat.le_succ_of_le hm, hms⟩

/-- The entry `t` owns the bucket of the hash value `h` in a directory of the level `L`. -/
def IsOwner (own : ℕ → Prop) (L h t : ℕ) : Prop :=
  own t ∧ ∃ j ≤ L, h % 2 ^ j = t ∧ ∀ m, j < m → m ≤ L → own (h % 2 ^ m) → h % 2 ^ m = t

section Owner

variable {own : ℕ → Prop} {L h s t : ℕ}

theorem IsOwner.unique (hs : IsOwner own L h s) (ht : IsOwner own L h t) : s = t := by
  obtain ⟨hos, j, hj, hjs, hjmax⟩ := hs
  obtain ⟨hot, m, hm, hmt, hmmax⟩ := ht
  rcases Nat.lt_trichotomy j m with hlt | rfl | hlt
  · rw [← hmt] at hot ⊢
    exact (hjmax m hlt hm hot).symm
  · exact hjs.symm.trans hmt
  · rw [← hjs] at hos ⊢
    exact hmmax j hlt hj hos

/-- **The search along a chain** finds the owner. -/
theorem find?_chain [DecidablePred own] (h0 : own 0) (L h : ℕ) :
    ∃ t, (chain (h % 2 ^ L)).find? own = some t ∧ IsOwner own L h t := by
  induction L with
  | zero =>
    refine ⟨0, ?_, h0, 0, Nat.le_refl 0, Nat.mod_one h, fun m hm hm' => ?_⟩
    · rw [Nat.pow_zero, Nat.mod_one, chain_zero, List.find?_singleton, if_pos (by simpa using h0)]
    · omega
  | succ L ih =>
    obtain ⟨t, hfind, hot, j, hj, hjt, hjmax⟩ := ih
    have hmod := mod_two_pow_succ h L
    cases hbit : h.testBit L with
    | true =>
      rw [if_pos hbit] at hmod
      have hlt : h % 2 ^ L < 2 ^ L := Nat.mod_lt _ (Nat.two_pow_pos L)
      have hne : h % 2 ^ (L + 1) ≠ 0 := by
        have := Nat.two_pow_pos L
        omega
      rw [chain_of_ne_zero hne, List.find?_cons]
      by_cases hown : own (h % 2 ^ (L + 1))
      · refine ⟨h % 2 ^ (L + 1), by simp [hown], hown, L + 1, Nat.le_refl _, rfl, fun m hm hm' => ?_⟩
        omega
      · refine ⟨t, ?_, hot, j, Nat.le_succ_of_le hj, hjt, fun m hm hm' hm'' => ?_⟩
        · rw [hmod] at hown ⊢
          simpa [hown, clearHighest_add hlt] using hfind
        · rcases Nat.lt_or_eq_of_le hm' with hlt' | rfl
          · exact hjmax m hm (Nat.lt_succ_iff.mp hlt') hm''
          · exact absurd hm'' hown
    | false =>
      rw [hbit, if_neg (by simp), Nat.add_zero] at hmod
      refine ⟨t, by rw [hmod]; exact hfind, hot, j, Nat.le_succ_of_le hj, hjt,
        fun m hm hm' hm'' => ?_⟩
      rcases Nat.lt_or_eq_of_le hm' with hlt' | rfl
      · exact hjmax m hm (Nat.lt_succ_iff.mp hlt') hm''
      · rw [hmod] at hm'' ⊢
        rcases Nat.lt_or_eq_of_le hj with hlt' | rfl
        · exact hjmax L hlt' (Nat.le_refl L) hm''
        · exact hjt

theorem isOwner_succ (hown : ∀ i, own i → i < 2 ^ L) (ht : IsOwner own L h t) :
    IsOwner own (L + 1) h t := by
  obtain ⟨hot, j, hj, hjt, hjmax⟩ := ht
  refine ⟨hot, j, Nat.le_succ_of_le hj, hjt, fun m hm hm' hm'' => ?_⟩
  rcases Nat.lt_or_eq_of_le hm' with hlt | rfl
  · exact hjmax m hm (Nat.lt_succ_iff.mp hlt) hm''
  have hmod : h % 2 ^ (L + 1) = h % 2 ^ L := by
    rw [← Nat.mod_eq_of_lt (hown _ hm'')]
    exact Nat.mod_mod_of_dvd _ (Nat.pow_dvd_pow 2 (Nat.le_succ L))
  rw [hmod] at hm'' ⊢
  rcases Nat.lt_or_eq_of_le hj with hlt | rfl
  · exact hjmax L hlt (Nat.le_refl L) hm''
  · exact hjt

theorem mod_of_mod_eq {j m : ℕ} (hmj : m ≤ j) (hj : h % 2 ^ j = t) : h % 2 ^ m = t % 2 ^ m := by
  rw [← hj]
  exact (Nat.mod_mod_of_dvd h (Nat.pow_dvd_pow 2 hmj)).symm

theorem testBit_of_mod_eq {b m : ℕ} (htb : t < 2 ^ b) (hm : h % 2 ^ m = t + 2 ^ b) :
    b < m ∧ h.testBit b = true ∧ ∀ k < b, t < 2 ^ k → h.testBit k = false := by
  have hbm : b < m := by
    have hlt := Nat.mod_lt h (Nat.two_pow_pos m)
    rw [hm] at hlt
    exact (Nat.pow_lt_pow_iff_right (Nat.lt_succ_self 1)).mp
      (Nat.lt_of_le_of_lt (Nat.le_add_left _ _) hlt)
  refine ⟨hbm, ?_, fun k hkb htk => ?_⟩
  · have htest := Nat.testBit_mod_two_pow h m b
    rw [hm, Nat.add_comm, Nat.testBit_two_pow_add_eq, Nat.testBit_lt_two_pow htb] at htest
    simpa [hbm] using htest.symm
  · have htest := Nat.testBit_mod_two_pow h m k
    rw [hm, Nat.add_comm, Nat.testBit_two_pow_add_gt hkb, Nat.testBit_lt_two_pow htk] at htest
    simpa [Nat.lt_trans hkb hbm] using htest.symm

section Split

variable {k : ℕ} (hot : own t) (htk : t < 2 ^ k) (hk : k < L)
  (hmin : ∀ m < k, t < 2 ^ m → own (t + 2 ^ m)) (hfree : ¬ own (t + 2 ^ k))

include htk hk hmin in
theorem IsOwner.mod_eq (ht : IsOwner own L h t) : h % 2 ^ k = t := by
  obtain ⟨-, j, hj, hjt, hjmax⟩ := ht
  by_cases hjk : k ≤ j
  · rw [mod_of_mod_eq hjk hjt, Nat.mod_eq_of_lt htk]
  · have hstep : ∀ n, j + n ≤ k → h % 2 ^ (j + n) = t := by
      intro n
      induction n with
      | zero => exact fun _ => hjt
      | succ n ih =>
        intro hn
        have hmod := mod_two_pow_succ h (j + n)
        rw [ih (by omega)] at hmod
        rw [← Nat.add_assoc]
        split at hmod
        · -- the entry with this bit would own a bucket, and be nearer to `h`
          have hlt : t < 2 ^ (j + n) := by
            rw [← ih (by omega)]
            exact Nat.mod_lt _ (Nat.two_pow_pos _)
          have hown := hmin (j + n) (by omega) hlt
          rw [← hmod] at hown
          exact hjmax (j + n + 1) (by omega) (by omega) hown
        · exact hmod
    have hend := hstep (k - j) (by omega)
    rwa [Nat.add_sub_cancel' (by omega)] at hend

include hot htk hk hmin hfree in
/-- **A split**: an entry gets the hash values of another one that have the first bit that is free
there. -/
theorem isOwner_split (hs : IsOwner own L h s) :
    IsOwner (fun i => own i ∨ i = t + 2 ^ k) L h
      (if s = t ∧ h.testBit k then t + 2 ^ k else s) := by
  by_cases hst : s = t ∧ h.testBit k
  · -- the low bits of `h` up to the bit `k` are the new entry
    rw [if_pos hst]
    obtain ⟨rfl, hset⟩ := hst
    have hmod := mod_two_pow_succ h k
    rw [hs.mod_eq htk hk hmin, if_pos hset] at hmod
    obtain ⟨-, j, hj, hjt, hjmax⟩ := hs
    have hjk : j ≤ k := by
      by_contra hkj
      have htest := Nat.testBit_mod_two_pow h j k
      rw [hjt, Nat.testBit_lt_two_pow htk, hset] at htest
      simp at htest
      omega
    refine ⟨Or.inr rfl, k + 1, hk, hmod, fun m hm hm' hm'' => ?_⟩
    rcases hm'' with hm'' | hm''
    · have hmt := hjmax m (by omega) hm' hm''
      have htest := Nat.testBit_mod_two_pow h m k
      rw [hmt, Nat.testBit_lt_two_pow htk, hset] at htest
      simp at htest
      omega
    · exact hm''
  · rw [if_neg hst]
    obtain ⟨hos, j, hj, hjs, hjmax⟩ := hs
    refine ⟨Or.inl hos, j, hj, hjs, fun m hm hm' hm'' => ?_⟩
    rcases hm'' with hm'' | hm''
    · exact hjmax m hm hm' hm''
    · -- the new entry is on the way to `s`, so `t` is, and `s` is below the free bit
      exfalso
      obtain ⟨hkm, hset, -⟩ := testBit_of_mod_eq htk hm''
      have hsum : t + 2 ^ k < 2 ^ (k + 1) := by
        rw [Nat.pow_succ]
        omega
      have hlow : h % 2 ^ k = t := by
        rw [mod_of_mod_eq (Nat.le_of_lt hkm) hm'', Nat.add_mod_right, Nat.mod_eq_of_lt htk]
      rcases Nat.lt_trichotomy j k with hlt | rfl | hlt
      · have hks := hjmax k hlt (Nat.le_of_lt hk) (hlow.symm ▸ hot)
        exact hst ⟨hks.symm.trans hlow, hset⟩
      · exact hst ⟨hjs.symm.trans hlow, hset⟩
      · have hsplit : h % 2 ^ j = t + 2 ^ k := by
          rw [mod_of_mod_eq (Nat.le_of_lt hm) hm'', Nat.mod_eq_of_lt]
          exact Nat.lt_of_lt_of_le hsum (Nat.pow_le_pow_right (by omega) hlt)
        exact hfree (hsplit.symm.trans hjs ▸ hos)

end Split

end Owner

end Directory
end CKern
