import Mathlib.Data.List.Basic
import Mathlib.Order.Bounds.Basic

/-!
# Where suffixes of a pattern stand in a text

* `Stands P T s d`: the suffix of the pattern `P` from the index `s` on stands in the text `T` at the
  index `d`.  For `s = 0` it is an occurrence of the pattern (`stands_zero_iff`).
* `suffixes P T lo d`: the starts of the suffixes that stand at an index.  `isLeast_suffixes` goes to
  the index before it, where the candidates are visited along the chain of fallbacks
  (`IsFallback`), as in the search of Knuth, Morris and Pratt from the right.
* `Fits P m e`: the last `m` characters of the pattern, moved to the left so that they end before the
  index `e`, agree with the pattern as far as they are inside of it.  `IsLastFit` is the move of
  Boyer and Moore, `fits_of_stands` says that no occurrence is skipped by it, and `known_of_fits`
  what is known about the text after it.
-/

namespace CKern
namespace Matching

variable {α : Type*} {P T : List α} {s d r lo m e i j p : ℕ}

/-! ## Suffixes that stand in a text -/

/-- The suffix from the index `s` on stands in `T` at the index `d`. -/
def Stands (P T : List α) (s d : ℕ) : Prop := ∀ k, s + k < P.length → T[d + k]? = P[s + k]?

theorem stands_of_length_le (h : P.length ≤ s) : Stands P T s d := fun k hk => by omega

theorem stands_succ_iff (h : s < P.length) :
    Stands P T s d ↔ T[d]? = P[s]? ∧ Stands P T (s + 1) (d + 1) := by
  constructor
  · intro hs
    refine ⟨hs 0 h, fun k hk => ?_⟩
    rw [Nat.add_assoc, Nat.add_assoc, Nat.add_comm 1 k]
    exact hs (k + 1) (by omega)
  · rintro ⟨h0, hs⟩ k hk
    cases k with
    | zero => exact h0
    | succ k =>
      rw [Nat.add_comm k 1, ← Nat.add_assoc, ← Nat.add_assoc]
      exact hs k (by omega)

theorem Stands.shift (h : Stands P T s d) (t : ℕ) : Stands P T (s + t) (d + t) := by
  intro k hk
  rw [Nat.add_assoc, Nat.add_assoc]
  exact h (t + k) (by omega)

theorem Stands.trans (h : Stands P T s d) (hr : Stands P P r s) (hle : s ≤ r) : Stands P T r d :=
  fun k hk => (h k (by omega)).trans (hr k hk)

theorem Stands.of_stands (h : Stands P T s d) (hr : Stands P T r d) (hle : s ≤ r) :
    Stands P P r s :=
  fun k hk => (h k (by omega)).symm.trans (hr k hk)

theorem stands_zero_iff : Stands P T 0 d ↔ P <+: T.drop d := by
  rw [List.prefix_iff_getElem?]
  constructor
  · intro h k hk
    have hat := h k (by omega)
    rw [Nat.zero_add, List.getElem?_eq_getElem hk] at hat
    rw [List.getElem?_drop, hat]
  · intro h k hk
    rw [Nat.zero_add] at hk
    have hat := h k hk
    rw [List.getElem?_drop] at hat
    rw [Nat.zero_add, hat, List.getElem?_eq_getElem hk]

theorem length_le_of_stands_zero (h : Stands P T 0 d) (hpos : 0 < P.length) :
    d + P.length ≤ T.length := by
  have hlast := h (P.length - 1) (by omega)
  have hin : 0 + (P.length - 1) < P.length := by omega
  rw [List.getElem?_eq_getElem hin] at hlast
  obtain ⟨hlt, -⟩ := List.getElem?_eq_some_iff.mp hlast
  omega

/-! ## The chain of fallbacks -/

/-- The starts, `lo` at least, of the suffixes that stand at `d`. -/
def suffixes (P T : List α) (lo d : ℕ) : Set ℕ :=
  {s | lo ≤ s ∧ s ≤ P.length ∧ Stands P T s d}

/-- The indices of the pattern that can be compared with the text at `d`: what follows stands behind
`d`. -/
def candidates (P T : List α) (lo d : ℕ) : Set ℕ :=
  {j | lo ≤ j ∧ j ≤ P.length ∧ Stands P T (j + 1) (d + 1)}

/-- The index to compare next if the comparison failed at the index `i`. -/
def IsFallback (P : List α) (i j : ℕ) : Prop := IsLeast (candidates P P (i + 1) i) j

theorem fallback_mem_candidates (hj : j ∈ candidates P T lo d) (h : IsFallback P j r) :
    r ∈ candidates P T lo d ∧ ∀ i ∈ candidates P T lo d, j < i → r ≤ i := by
  obtain ⟨hlo, hle, hs⟩ := hj
  obtain ⟨⟨hjr, hrle, hr⟩, hleast⟩ := h
  refine ⟨⟨by omega, hrle, hs.trans hr (by omega)⟩, ?_⟩
  rintro i ⟨-, hile, hi⟩ hji
  exact hleast ⟨hji, hile, hs.of_stands hi (by omega)⟩

theorem isLeast_suffixes (hj : j ∈ candidates P T lo d) (hend : j = P.length ∨ P[j]? = T[d]?)
    (hbefore : ∀ i ∈ candidates P T lo d, i < j → P[i]? ≠ T[d]?) :
    IsLeast (suffixes P T lo d) j := by
  obtain ⟨hlo, hle, hs⟩ := hj
  constructor
  · refine ⟨hlo, hle, ?_⟩
    rcases Nat.eq_or_lt_of_le hle with hlen | hlt
    · exact stands_of_length_le hlen.ge
    · rcases hend with hlen | hchar
      · exact absurd hlen hlt.ne
      · exact (stands_succ_iff hlt).mpr ⟨hchar.symm, hs⟩
  · rintro i ⟨hloi, hilen, hi⟩
    by_contra hlt
    have hin : i < P.length := by omega
    obtain ⟨hchar, hnext⟩ := (stands_succ_iff hin).mp hi
    exact hbefore i ⟨hloi, hilen, hnext⟩ (by omega) hchar.symm

theorem isLeast_candidates (h : IsLeast (suffixes P T (lo + 1) (d + 1)) s) :
    IsLeast (candidates P T lo d) (s - 1) := by
  obtain ⟨⟨hlo, hle, hs⟩, hleast⟩ := h
  have hsub : s - 1 + 1 = s := by omega
  refine ⟨⟨by omega, by omega, by rwa [hsub]⟩, ?_⟩
  rintro i ⟨hloi, hilen, hi⟩
  rcases Nat.eq_or_lt_of_le hilen with hlen | hlt
  · omega
  · have hsi : s ≤ i + 1 := hleast ⟨by omega, by omega, hi⟩
    omega

/-! ## Moving the matched part to the left -/

/-- The last `m` characters, moved so that they end before `e`, agree with the pattern. -/
def Fits (P : List α) (m e : ℕ) : Prop := Stands P P (P.length - min m e) (e - m)

/-- The least move to the left by one place at least. -/
def IsLastFit (P : List α) (m e : ℕ) : Prop := IsGreatest {e | e < P.length ∧ Fits P m e} e

theorem fits_zero (e : ℕ) : Fits P 0 e := stands_of_length_le (by omega)

theorem Fits.mono (h : Fits P (m + 1) e) (he : e < P.length) : Fits P m e := by
  rcases Nat.lt_or_ge m e with hme | hme
  · have hs := Stands.shift h 1
    have hstart : P.length - min (m + 1) e + 1 = P.length - min m e := by omega
    have hplace : e - (m + 1) + 1 = e - m := by omega
    rwa [hstart, hplace] at hs
  · have hstart : min (m + 1) e = min m e := by omega
    have hplace : e - (m + 1) = e - m := by omega
    rwa [Fits, hstart, hplace] at h

theorem isLastFit_zero (h : 0 < P.length) : IsLastFit P 0 (P.length - 1) :=
  ⟨⟨by omega, fits_zero _⟩, fun e he => by
    have hlt : e < P.length := he.1
    omega⟩

theorem IsLastFit.succ (h : IsLastFit P m e) (hle : e ≤ m) : IsLastFit P (m + 1) e := by
  obtain ⟨⟨hlt, hfits⟩, hgreatest⟩ := h
  refine ⟨⟨hlt, ?_⟩, fun e' he' => hgreatest ⟨he'.1, he'.2.mono he'.1⟩⟩
  have hstart : min (m + 1) e = min m e := by omega
  have hplace : e - (m + 1) = e - m := by omega
  rw [Fits, hstart, hplace]
  exact hfits

theorem fits_of_stands (hm : m ≤ P.length)
    (hmatch : Stands P T (P.length - m) (p + (P.length - m))) {t : ℕ} (ht : t ≤ P.length)
    (hocc : Stands P T 0 (p + t)) : Fits P m (P.length - t) := by
  intro k hk
  have hstart : P.length - min m (P.length - t) = max (P.length - m) t := by omega
  have hplace : P.length - t - m = max (P.length - m) t - t := by omega
  rw [hstart] at hk ⊢
  rw [hplace]
  have h1 := hmatch (max (P.length - m) t - (P.length - m) + k) (by omega)
  have h2 := hocc (max (P.length - m) t - t + k) (by omega)
  have hidx1 : P.length - m + (max (P.length - m) t - (P.length - m) + k) =
      max (P.length - m) t + k := by omega
  have hidx2 : p + (P.length - m) + (max (P.length - m) t - (P.length - m) + k) =
      p + t + (max (P.length - m) t - t + k) := by omega
  rw [hidx1, hidx2] at h1
  rw [Nat.zero_add] at h2
  rw [← h1, h2]

theorem known_of_fits (hm : m ≤ P.length)
    (hmatch : Stands P T (P.length - m) (p + (P.length - m))) (he : e < P.length)
    (hfits : Fits P m e) (hlo : e - m ≤ j) (hj : j < e) :
    T[p + (P.length - e) + j]? = P[j]? := by
  have h1 := hfits (j - (e - m)) (by omega)
  have h2 := hmatch (j + (P.length - e) - (P.length - m)) (by omega)
  have hidx1 : P.length - min m e + (j - (e - m)) = P.length - e + j := by omega
  have hidx2 : P.length - m + (j + (P.length - e) - (P.length - m)) = P.length - e + j := by omega
  have hidx3 : p + (P.length - m) + (j + (P.length - e) - (P.length - m)) =
      p + (P.length - e) + j := by omega
  have hidx4 : e - m + (j - (e - m)) = j := by omega
  rw [hidx1, hidx4] at h1
  rw [hidx2, hidx3] at h2
  rw [h2, h1]

end Matching
end CKern
