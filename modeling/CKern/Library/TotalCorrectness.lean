import Mathlib.Data.Nat.Notation

/-!
# Total correctness of programs with a state and errors

* `Program`: a program that changes a state and returns a value or an error.  A run without a result
  has not ended, or has left its memory.
* `Ensures`: the run ends, with a value for which one condition holds or with an error for which the
  other one does.
* `Ensures.bind`, `Ensures.mono`: the rule of sequence and the rule of consequence.
-/

namespace CKern
namespace TotalCorrectness

/-- A program over a state. -/
abbrev Program (σ ε α : Type) := ExceptT ε (StateT σ Option) α

variable {σ ε α β : Type}

/-- The condition on a value or on an error. -/
def Outcome (Q : α → σ → Prop) (E : ε → σ → Prop) : Except ε α → σ → Prop
  | .ok a, s => Q a s
  | .error e, s => E e s

/-- The run from `s` ends, with a value and a state for which `Q` holds or with an error for which
`E` does. -/
def Ensures (m : Program σ ε α) (s : σ) (Q : α → σ → Prop) (E : ε → σ → Prop) : Prop :=
  ∃ out s', m.run.run s = some (out, s') ∧ Outcome Q E out s'

variable {m : Program σ ε α} {f : α → Program σ ε β} {s : σ} {Q Q' : α → σ → Prop}
  {R : β → σ → Prop} {E : ε → σ → Prop}

theorem Ensures.pure {a : α} (h : Q a s) : Ensures (pure a) s Q E :=
  ⟨.ok a, s, rfl, h⟩

theorem Ensures.throw {e : ε} (h : E e s) : Ensures (throw e : Program σ ε α) s Q E :=
  ⟨.error e, s, rfl, h⟩

theorem Ensures.modify {g : σ → σ} {Q : Unit → σ → Prop} (h : Q () (g s)) :
    Ensures (modify g : Program σ ε Unit) s Q E :=
  ⟨.ok (), g s, rfl, h⟩

theorem Ensures.get {Q : σ → σ → Prop} (h : Q s s) : Ensures (get : Program σ ε σ) s Q E :=
  ⟨.ok s, s, rfl, h⟩

theorem Ensures.mono (h : Ensures m s Q E) (hQ : ∀ a s', Q a s' → Q' a s') : Ensures m s Q' E := by
  obtain ⟨out, s', hrun, hout⟩ := h
  refine ⟨out, s', hrun, ?_⟩
  rcases out with e | a
  · exact hout
  · exact hQ a s' hout

theorem Ensures.bind (h : Ensures m s Q E) (hf : ∀ a s', Q a s' → Ensures (f a) s' R E) :
    Ensures (m >>= f) s R E := by
  obtain ⟨out, s', hrun, hout⟩ := h
  rcases out with e | a
  · refine ⟨.error e, s', ?_, hout⟩
    rw [ExceptT.run_bind, StateT.run_bind, hrun]
    rfl
  · obtain ⟨out, s'', hnext, hout⟩ := hf a s' hout
    refine ⟨out, s'', ?_, hout⟩
    rw [ExceptT.run_bind, StateT.run_bind, hrun]
    exact hnext

end TotalCorrectness
end CKern
