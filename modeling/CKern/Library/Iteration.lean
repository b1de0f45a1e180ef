import Mathlib.Data.List.Basic

/-!
# Iterators

An iterator is a function that returns a value, or none at the end, and the next state.  Between two
calls the caller may do something.

* `Returns`: the calls return the values of a list and then none, whatever the caller does.
* `Yields`: the same if the caller does nothing.
* `returns_of_step`: it is enough to know what is pending in a state.
-/

namespace CKern
namespace Iteration

variable {σ ν : Type*}

/-- From the state `s` on, the calls of `next` return the values of the list in turn, and then none,
whatever the caller makes of the state between two calls: after the value `a` it may go from `s` to
`s'` if `act a s s'`. -/
inductive Returns (next : σ → Option ν × σ) (act : ν → σ → σ → Prop) : σ → List ν → Prop
  | done {s} (h : (next s).1 = none) : Returns next act s []
  | more {s a l} (h : (next s).1 = some a)
      (hl : ∀ s', act a (next s).2 s' → Returns next act s' l) : Returns next act s (a :: l)

/-- The calls of `next` return the values of the list in turn, and then none. -/
def Yields (next : σ → Option ν × σ) : σ → List ν → Prop :=
  Returns next fun _ s s' => s' = s

variable {next : σ → Option ν × σ} {act : ν → σ → σ → Prop}

/-- **The rule for iterators.** The relation `Pending l s` tells what is still to come.  A call
returns the first value, and the others are to come after it and whatever the caller does. -/
theorem returns_of_step {Pending : List ν → σ → Prop}
    (hnext : ∀ l s, Pending l s → (next s).1 = l.head?)
    (hstep : ∀ a l s s', Pending (a :: l) s → act a (next s).2 s' → Pending l s')
    {l : List ν} {s : σ} (hs : Pending l s) : Returns next act s l := by
  induction l generalizing s with
  | nil => exact .done (hnext [] s hs)
  | cons a l ih => exact .more (hnext _ s hs) fun s' hact => ih (hstep a l s s' hs hact)

theorem Returns.unique (hact : ∀ a s, act a s s) {s : σ} {l l' : List ν}
    (h : Returns next act s l) (h' : Returns next act s l') : l = l' := by
  induction h generalizing l' with
  | done h =>
    cases h' with
    | done => rfl
    | more h' => exact absurd (h.symm.trans h') (Option.some_ne_none _).symm
  | more h hl ih =>
    cases h' with
    | done h' => exact absurd (h'.symm.trans h) (Option.some_ne_none _).symm
    | more h' hl' =>
      cases h.symm.trans h'
      rw [ih _ (hact _ _) (hl' _ (hact _ _))]

theorem Yields.unique {s : σ} {l l' : List ν} (h : Yields next s l) (h' : Yields next s l') :
    l = l' :=
  @Returns.unique σ ν next (fun _ s s' => s' = s) (fun _ _ => rfl) s l l' h h'

end Iteration
end CKern
