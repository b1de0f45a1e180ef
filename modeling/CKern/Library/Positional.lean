import Mathlib.Tactic.Linarith
import Mathlib.Tactic.LinearCombination
import Mathlib.Tactic.Ring

/-!
# Numbers in positional notation, and passes over their digits

A number is a list of digits, the least significant one first.

* `eval b f xs`: the number `∑ f xₖ * bᵏ`.  The digits may be anything that `f` gives a value to:
  machine words, or the pairs of words that a loop over two operands reads.
* `chain step c xs`: a pass that reads a digit and a carry, writes a digit and hands on the carry.
  If every step conserves the value, then the whole pass does (`chain_eval`).  Addition,
  subtraction, multiplication by a digit and their mixtures are all instances.
* `eval_lt_pow`, `pow_le_eval`, `getLast_pos`: the number of digits and the size of the number
  determine each other, if the leading digit is not zero.
-/

namespace CKern
namespace Positional

variable {ι β κ : Type*}

/-! ## The value of a list of digits -/

section Eval

variable {R : Type*} [CommSemiring R] (b : R) (f : ι → R)

/-- The number that the digits `f x` write in base `b`. -/
def eval : List ι → R
  | [] => 0
  | x :: xs => f x + b * eval xs

@[simp]
theorem eval_nil : eval b f [] = 0 := rfl

@[simp]
theorem eval_cons (x : ι) (xs : List ι) : eval b f (x :: xs) = f x + b * eval b f xs := rfl

theorem eval_append (xs ys : List ι) :
    eval b f (xs ++ ys) = eval b f xs + b ^ xs.length * eval b f ys := by
  induction xs with
  | nil => simp
  | cons x xs ih =>
    rw [List.cons_append, eval_cons, ih, eval_cons, List.length_cons]
    ring

theorem eval_take_add_drop (n : ℕ) (xs : List ι) :
    eval b f (xs.take n) + b ^ min n xs.length * eval b f (xs.drop n) = eval b f xs := by
  rw [← List.length_take, ← eval_append, List.take_append_drop]

theorem eval_eq_zero {xs : List ι} (h : ∀ x ∈ xs, f x = 0) : eval b f xs = 0 := by
  induction xs with
  | nil => rfl
  | cons x xs ih =>
    rw [eval_cons, h x (by simp), ih fun y hy => h y (by simp [hy]), mul_zero, add_zero]

theorem eval_replicate {x : ι} (h : f x = 0) (n : ℕ) : eval b f (List.replicate n x) = 0 :=
  eval_eq_zero b f fun y hy => by rw [List.eq_of_mem_replicate hy, h]

theorem eval_zip_add {ι' : Type*} (g : ι' → R) {xs : List ι} {ys : List ι'}
    (h : xs.length = ys.length) :
    eval b (fun p : ι × ι' => f p.1 + g p.2) (xs.zip ys) = eval b f xs + eval b g ys := by
  induction xs generalizing ys with
  | nil => cases ys <;> simp at h ⊢
  | cons x xs ih =>
    cases ys with
    | nil => simp at h
    | cons y ys =>
      rw [List.zip_cons_cons, eval_cons, ih (by simpa using h), eval_cons, eval_cons]
      ring

theorem eval_mul_left (c : R) (xs : List ι) :
    eval b (fun x => c * f x) xs = c * eval b f xs := by
  induction xs with
  | nil => simp
  | cons x xs ih =>
    rw [eval_cons, ih, eval_cons]
    ring

end Eval

/-! ## The size of a number and its digits -/

section Order

variable {R : Type*} [CommRing R] [LinearOrder R] [IsStrictOrderedRing R] {b : R} {f : ι → R}

theorem eval_nonneg (hb : 0 ≤ b) (hf : ∀ x, 0 ≤ f x) (xs : List ι) : 0 ≤ eval b f xs := by
  induction xs with
  | nil => exact le_rfl
  | cons x xs ih => exact add_nonneg (hf x) (mul_nonneg hb ih)

theorem eval_lt_pow (hb : 0 ≤ b) (hf : ∀ x, f x + 1 ≤ b) (xs : List ι) :
    eval b f xs < b ^ xs.length := by
  suffices h : eval b f xs + 1 ≤ b ^ xs.length by linarith
  induction xs with
  | nil => simp
  | cons x xs ih =>
    have h := mul_le_mul_of_nonneg_left ih hb
    rw [eval_cons, List.length_cons, pow_succ']
    linarith [hf x]

theorem pow_le_eval (hb : 0 ≤ b) (hf : ∀ x, 0 ≤ f x) (xs : List ι) {x : ι} (hx : 1 ≤ f x) :
    b ^ xs.length ≤ eval b f (xs ++ [x]) := by
  have h := mul_le_mul_of_nonneg_left hx (pow_nonneg hb xs.length)
  rw [eval_append, eval_cons, eval_nil]
  linarith [eval_nonneg hb hf xs]

theorem getLast_pos (hb : 0 ≤ b) (hf : ∀ x, f x + 1 ≤ b) {xs : List ι} {x : ι}
    (h : b ^ xs.length ≤ eval b f (xs ++ [x])) : 0 < f x := by
  by_contra hx
  have h0 := mul_nonpos_of_nonneg_of_nonpos (pow_nonneg hb xs.length) (not_lt.mp hx)
  rw [eval_append, eval_cons, eval_nil] at h
  linarith [eval_lt_pow hb hf xs]

theorem eval_lt_pow_of_forall (hb : 0 ≤ b) {xs : List ι} (hf : ∀ x ∈ xs, f x + 1 ≤ b) :
    eval b f xs < b ^ xs.length := by
  suffices h : eval b f xs + 1 ≤ b ^ xs.length by linarith
  induction xs with
  | nil => simp
  | cons x xs ih =>
    have h := mul_le_mul_of_nonneg_left (ih fun y hy => hf y (by simp [hy])) hb
    rw [eval_cons, List.length_cons, pow_succ']
    linarith [hf x (by simp)]

theorem getLast_pos_of_forall (hb : 0 ≤ b) {xs : List ι} {x : ι} (hf : ∀ y ∈ xs, f y + 1 ≤ b)
    (h : b ^ xs.length ≤ eval b f (xs ++ [x])) : 0 < f x := by
  by_contra hx
  have h0 := mul_nonpos_of_nonneg_of_nonpos (pow_nonneg hb xs.length) (not_lt.mp hx)
  rw [eval_append, eval_cons, eval_nil] at h
  linarith [eval_lt_pow_of_forall hb hf]

end Order

/-! ## Passes with a carry -/

section Chain

variable (step : κ → ι → β × κ)

/-- A pass over the digits `xs` that starts with the carry `c`: the digits written, and the carry
that is left. -/
def chain : κ → List ι → List β × κ
  | c, [] => ([], c)
  | c, x :: xs => ((step c x).1 :: (chain (step c x).2 xs).1, (chain (step c x).2 xs).2)

@[simp]
theorem chain_nil (c : κ) : chain step c [] = ([], c) := rfl

@[simp]
theorem chain_cons (c : κ) (x : ι) (xs : List ι) :
    chain step c (x :: xs) =
      ((step c x).1 :: (chain step (step c x).2 xs).1, (chain step (step c x).2 xs).2) := rfl

@[simp]
theorem length_chain (c : κ) (xs : List ι) : (chain step c xs).1.length = xs.length := by
  induction xs generalizing c with
  | nil => rfl
  | cons x xs ih => simp [ih]

theorem chain_carry {I : κ → Prop} (hI : ∀ c x, I c → I (step c x).2) {c : κ} (hc : I c)
    (xs : List ι) : I (chain step c xs).2 := by
  induction xs generalizing c with
  | nil => exact hc
  | cons x xs ih => exact ih (hI c x hc)

variable {R : Type*} [CommRing R] {b : R} {f : ι → R} {g : β → R} {v : κ → R}

/-- **Conservation**: if a digit and a carry written are worth the digit and the carry read, then
the number written and the carry that is left are worth the number read and the first carry. -/
theorem chain_eval {I : κ → Prop} (hI : ∀ c x, I c → I (step c x).2)
    (h : ∀ c x, I c → g (step c x).1 + b * v (step c x).2 = f x + v c) {c : κ} (hc : I c)
    (xs : List ι) :
    eval b g (chain step c xs).1 + b ^ xs.length * v (chain step c xs).2 =
      eval b f xs + v c := by
  induction xs generalizing c with
  | nil => simp
  | cons x xs ih =>
    have hx := h c x hc
    have hxs := ih (hI c x hc)
    simp only [chain_cons, eval_cons, List.length_cons]
    calc g (step c x).1 + b * eval b g (chain step (step c x).2 xs).1
          + b ^ (xs.length + 1) * v (chain step (step c x).2 xs).2
        = g (step c x).1 + b * (eval b g (chain step (step c x).2 xs).1
          + b ^ xs.length * v (chain step (step c x).2 xs).2) := by ring
      _ = g (step c x).1 + b * v (step c x).2 + b * eval b f xs := by rw [hxs]; ring
      _ = f x + b * eval b f xs + v c := by rw [hx]; ring

theorem chain_eval' (h : ∀ c x, g (step c x).1 + b * v (step c x).2 = f x + v c) (c : κ)
    (xs : List ι) :
    eval b g (chain step c xs).1 + b ^ xs.length * v (chain step c xs).2 =
      eval b f xs + v c :=
  chain_eval step (I := fun _ => True) (fun _ _ _ => trivial) (fun c x _ => h c x) trivial xs

theorem chain_forall {Q : ι → Prop} {P : β → Prop} (h : ∀ c x, Q x → P (step c x).1) (c : κ)
    {xs : List ι} (hxs : ∀ x ∈ xs, Q x) : ∀ y ∈ (chain step c xs).1, P y := by
  induction xs generalizing c with
  | nil => simp
  | cons x xs ih =>
    intro y hy
    rcases List.mem_cons.mp hy with rfl | hy
    · exact h c x (hxs x (by simp))
    · exact ih _ (fun z hz => hxs z (by simp [hz])) y hy

theorem chain_carry_of_forall {I : κ → Prop} {Q : ι → Prop} (hI : ∀ c x, I c → Q x → I (step c x).2)
    {c : κ} (hc : I c) {xs : List ι} (hxs : ∀ x ∈ xs, Q x) : I (chain step c xs).2 := by
  induction xs generalizing c with
  | nil => exact hc
  | cons x xs ih => exact ih (hI c x hc (hxs x (by simp))) fun y hy => hxs y (by simp [hy])

theorem chain_forall_of_carry {I : κ → Prop} {Q : ι → Prop} {P : β → Prop}
    (hI : ∀ c x, I c → Q x → I (step c x).2) (h : ∀ c x, I c → Q x → P (step c x).1) {c : κ}
    (hc : I c) {xs : List ι} (hxs : ∀ x ∈ xs, Q x) : ∀ y ∈ (chain step c xs).1, P y := by
  induction xs generalizing c with
  | nil => simp
  | cons x xs ih =>
    have hqx := hxs x (by simp)
    intro y hy
    rcases List.mem_cons.mp hy with rfl | hy
    · exact h c x hc hqx
    · exact ih (hI c x hc hqx) (fun z hz => hxs z (by simp [hz])) y hy

theorem chain_eval_of_forall {I : κ → Prop} {Q : ι → Prop}
    (hI : ∀ c x, I c → Q x → I (step c x).2)
    (h : ∀ c x, I c → Q x → g (step c x).1 + b * v (step c x).2 = f x + v c) {c : κ} (hc : I c)
    {xs : List ι} (hxs : ∀ x ∈ xs, Q x) :
    eval b g (chain step c xs).1 + b ^ xs.length * v (chain step c xs).2 =
      eval b f xs + v c := by
  induction xs generalizing c with
  | nil => simp
  | cons x xs ih =>
    have hqx := hxs x (by simp)
    have hx := h c x hc hqx
    have hrest := ih (hI c x hc hqx) fun z hz => hxs z (by simp [hz])
    simp only [chain_cons, eval_cons, List.length_cons]
    linear_combination hx + b * hrest

theorem chain_eval_seam {ι' : Type*} (step' : κ → ι' → β × κ) {f' : ι' → R}
    (h : ∀ c x, g (step c x).1 + b * v (step c x).2 = f x + v c)
    (h' : ∀ c y, g (step' c y).1 + b * v (step' c y).2 = f' y + v c) (c : κ) (xs : List ι)
    (ys : List ι') :
    eval b g ((chain step c xs).1 ++ (chain step' (chain step c xs).2 ys).1) +
        b ^ (xs.length + ys.length) * v (chain step' (chain step c xs).2 ys).2 =
      eval b f xs + b ^ xs.length * eval b f' ys + v c := by
  have hx := chain_eval' step h c xs
  have hy := chain_eval' step' h' (chain step c xs).2 ys
  rw [eval_append, length_chain, pow_add]
  linear_combination hx + b ^ xs.length * hy

end Chain

end Positional
end CKern
