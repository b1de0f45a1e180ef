import Mathlib.Data.Set.Card
import Mathlib.Logic.Relation

/-!
# Threads that take steps in any order

A system is a function `exec s t a`: the state behind the action `a` of the thread `t`, or nothing if
the thread cannot do this in the state `s`.

* `Steps`: the states that are reached by any interleaving whose actions all meet a condition.
* `Steps.invariant`: what holds at the start and is kept by every action holds in all of them.
* `execAll`, `guarded`: the run of a list of actions, which may all have to meet the condition.
* `encard_insert`, `encard_erase`: how the number of threads at some place changes.
-/

namespace CKern
namespace Interleaving

variable {σ τ α : Type*} {exec : σ → τ → α → Option σ} {ok ok' : σ → τ → α → Prop} {s s' s'' : σ}

/-! ## Runs -/

/-- Actions of threads one after the other, which all meet `ok` where they are taken. -/
def Steps (exec : σ → τ → α → Option σ) (ok : σ → τ → α → Prop) : σ → σ → Prop :=
  Relation.ReflTransGen fun s s' => ∃ t a, ok s t a ∧ exec s t a = some s'

theorem Steps.refl (s : σ) : Steps exec ok s s := Relation.ReflTransGen.refl

theorem Steps.tail (h : Steps exec ok s s') {t : τ} {a : α} (hok : ok s' t a)
    (hstep : exec s' t a = some s'') : Steps exec ok s s'' :=
  Relation.ReflTransGen.tail h ⟨t, a, hok, hstep⟩

theorem Steps.trans (h : Steps exec ok s s') (h' : Steps exec ok s' s'') : Steps exec ok s s'' :=
  Relation.ReflTransGen.trans h h'

theorem Steps.mono (himp : ∀ s t a, ok s t a → ok' s t a) (h : Steps exec ok s s') :
    Steps exec ok' s s' :=
  Relation.ReflTransGen.mono (fun _ _ ⟨t, a, hok, hstep⟩ => ⟨t, a, himp _ t a hok, hstep⟩) _ _ h

/-- **The rule of invariants.** -/
theorem Steps.invariant (Inv : σ → Prop) (h : Steps exec ok s s') (hinit : Inv s)
    (hstep : ∀ s t a s', Inv s → ok s t a → exec s t a = some s' → Inv s') : Inv s' := by
  induction h with
  | refl => exact hinit
  | tail _ h ih =>
    obtain ⟨t, a, hok, hexec⟩ := h
    exact hstep _ t a _ ih hok hexec

/-- The state behind a list of actions. -/
def execAll (exec : σ → τ → α → Option σ) : σ → List (τ × α) → Option σ
  | s, [] => some s
  | s, (t, a) :: acts => (exec s t a).bind fun s => execAll exec s acts

theorem steps_of_execAll (acts : List (τ × α)) :
    ∀ s, execAll exec s acts = some s' → Steps exec (fun _ _ _ => True) s s' := by
  induction acts with
  | nil =>
    intro s h
    exact Option.some.inj h ▸ Steps.refl s
  | cons act acts ih =>
    intro s h
    obtain ⟨s₁, hstep, hrest⟩ := Option.bind_eq_some_iff.mp h
    exact ((Steps.refl s).tail True.intro hstep).trans (ih s₁ hrest)

/-- Actions are refused unless they meet the condition. -/
def guarded (exec : σ → τ → α → Option σ) (ok : σ → τ → α → Prop)
    [∀ s t a, Decidable (ok s t a)] (s : σ) (t : τ) (a : α) : Option σ :=
  if ok s t a then exec s t a else none

theorem steps_of_guarded [∀ s t a, Decidable (ok s t a)]
    (h : Steps (guarded exec ok) ok' s s') : Steps exec ok s s' := by
  refine Relation.ReflTransGen.mono ?_ _ _ h
  rintro s s' ⟨t, a, -, hstep⟩
  rw [guarded] at hstep
  split_ifs at hstep with hok
  exact ⟨t, a, hok, hstep⟩

/-! ## Counting threads -/

variable {t : τ} {A B : Set τ} {k : ℕ}

theorem encard_insert (ht : t ∉ A) (hA : A.encard = k) (hB : B = insert t A) :
    B.encard = (k + 1 : ℕ) := by
  rw [hB, Set.encard_insert_of_notMem ht, hA]
  rfl

theorem encard_erase (ht : t ∉ A) (hB : B.encard = k) (hins : B = insert t A) :
    ∃ j, k = j + 1 ∧ A.encard = j := by
  rw [hins, Set.encard_insert_of_notMem ht] at hB
  have hfin : A.Finite := by
    refine Set.finite_of_encard_le_coe (k := k) ?_
    rw [← hB]
    exact le_self_add
  refine ⟨A.ncard, ?_, hfin.cast_ncard_eq.symm⟩
  rw [← hfin.cast_ncard_eq] at hB
  exact_mod_cast hB.symm

end Interleaving
end CKern
