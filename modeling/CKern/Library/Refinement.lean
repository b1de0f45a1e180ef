import Mathlib.Logic.Function.Basic
import Mathlib.Data.Set.Card

/-!
# Runs of two machines, and the map that a store stands for

* `run`: the outputs and the last state of a run.
* `Along`: a condition that every step of a run meets in the state where it is taken.
* `run_refines`: if every step of one machine is matched by a step of the other one, then every run
  is matched by a run.
* `forall_run_take_iff`: a property holds all along a run exactly if its steps meet a condition.
* `MapSpec`: insertion and removal on a partial function, and how they change the number of keys.
-/

namespace CKern
namespace Refinement

variable {σ τ ι ο : Type*}

/-- The outputs of a run, and the state at its end. -/
def run (step : σ → ι → ο × σ) : σ → List ι → List ο × σ
  | s, [] => ([], s)
  | s, i :: is => ((step s i).1 :: (run step (step s i).2 is).1, (run step (step s i).2 is).2)

/-- Every step of the run meets the condition `ok`. -/
def Along (step : σ → ι → ο × σ) (ok : σ → ι → Prop) : σ → List ι → Prop
  | _, [] => True
  | s, i :: is => ok s i ∧ Along step ok (step s i).2 is

instance instDecidableAlong {step : σ → ι → ο × σ} {ok : σ → ι → Prop} [∀ s i, Decidable (ok s i)] (s : σ)
    (is : List ι) : Decidable (Along step ok s is) :=
  match is with
  | [] => isTrue True.intro
  | i :: is =>
    have : Decidable (Along step ok (step s i).2 is) := instDecidableAlong (step s i).2 is
    inferInstanceAs (Decidable (ok s i ∧ Along step ok (step s i).2 is))

/-- **Refinement of runs**: related states give the same outputs, and stay related. -/
theorem run_refines {step : σ → ι → ο × σ} {spec : τ → ι → ο × τ} {ok : σ → ι → Prop}
    {R : σ → τ → Prop}
    (hstep : ∀ s t i, R s t → ok s i → (step s i).1 = (spec t i).1 ∧ R (step s i).2 (spec t i).2)
    {s : σ} {t : τ} (h : R s t) {is : List ι} (hok : Along step ok s is) :
    (run step s is).1 = (run spec t is).1 ∧ R (run step s is).2 (run spec t is).2 := by
  induction is generalizing s t with
  | nil => exact ⟨rfl, h⟩
  | cons i is ih =>
    obtain ⟨hout, hnext⟩ := hstep s t i h hok.1
    obtain ⟨h1, h2⟩ := ih hnext hok.2
    exact ⟨congrArg₂ List.cons hout h1, h2⟩

theorem Along.trivial {step : σ → ι → ο × σ} (s : σ) (is : List ι) :
    Along step (fun _ _ => True) s is := by
  induction is generalizing s with
  | nil => exact True.intro
  | cons i is ih => exact ⟨True.intro, ih _⟩

theorem forall_run_take_iff {step : σ → ι → ο × σ} {ok : σ → ι → Prop} {R Inv : σ → Prop}
    (hinv : ∀ s, R s → Inv s) (hstep : ∀ s i, R s → ok s i → R (step s i).2)
    (hbad : ∀ s i, R s → ¬ ok s i → ¬ Inv (step s i).2) {s : σ} (h : R s) (is : List ι) :
    (∀ k, Inv (run step s (is.take k)).2) ↔ Along step ok s is := by
  induction is generalizing s with
  | nil =>
    refine ⟨fun _ => True.intro, fun _ k => ?_⟩
    rw [List.take_nil]
    exact hinv s h
  | cons i is ih =>
    constructor
    · intro hall
      have hok : ok s i := by
        by_contra hno
        exact hbad s i h hno (hall 1)
      exact ⟨hok, (ih (hstep s i h hok)).mp fun k => hall (k + 1)⟩
    · rintro ⟨hok, halong⟩ k
      cases k with
      | zero => exact hinv s h
      | succ k => exact (ih (hstep s i h hok)).mpr halong k

end Refinement

namespace MapSpec

variable {κ ν : Type*}

/-- The keys of a map. -/
def keys (m : κ → Option ν) : Set κ := {k | (m k).isSome}

variable [DecidableEq κ]

theorem keys_insert (m : κ → Option ν) (k : κ) (v : ν) :
    keys (Function.update m k (some v)) = insert k (keys m) := by
  ext l
  by_cases hl : l = k
  · subst hl
    simp [keys]
  · simp [keys, hl]

theorem keys_erase (m : κ → Option ν) (k : κ) :
    keys (Function.update m k none) = keys m \ {k} := by
  ext l
  by_cases hl : l = k
  · subst hl
    simp [keys]
  · simp [keys, hl]

theorem ncard_insert {m : κ → Option ν} {k : κ} (hfin : (keys m).Finite) (h : m k = none) (v : ν) :
    (keys (Function.update m k (some v))).ncard = (keys m).ncard + 1 := by
  rw [keys_insert, Set.ncard_insert_of_notMem (by simp [keys, h]) hfin]

theorem ncard_erase {m : κ → Option ν} {k : κ} (hfin : (keys m).Finite) {v : ν}
    (h : m k = some v) :
    (keys (Function.update m k none)).ncard + 1 = (keys m).ncard := by
  rw [keys_erase]
  exact Set.ncard_sdiff_singleton_add_one (by simp [keys, h]) hfin

end MapSpec
end CKern
