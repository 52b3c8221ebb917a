import Mathlib

/-!
# Counting words by what they begin with

`tally W p` is the number of words of `W` that begin with `p`. A tally is a
function `List κ → ℕ`; putting two collections together adds their tallies, so
the order of the words does not matter. `only k φ` and `without k φ` split a
tally by the first letter of the word.
-/

namespace StackTrace.Tally

variable {κ : Type*} [DecidableEq κ]

/-- How many words of `W` begin with `p`. -/
def tally (W : List (List κ)) (p : List κ) : ℕ := W.countP fun w => p <+: w

/-- The tally of the one word `w`. -/
def single (w p : List κ) : ℕ := if p <+: w then 1 else 0

/-- The part of a tally on the words that begin with `k`. -/
def only (k : κ) (φ : List κ → ℕ) (p : List κ) : ℕ := if p.head? = some k then φ p else 0

/-- The part of a tally on the other words. -/
def without (k : κ) (φ : List κ → ℕ) (p : List κ) : ℕ := if p.head? = some k then 0 else φ p

@[simp] theorem tally_nil : tally ([] : List (List κ)) = 0 := rfl

theorem tally_append (V W : List (List κ)) : tally (V ++ W) = tally V + tally W := by
  funext p
  simp [tally, List.countP_append]

theorem tally_singleton (w : List κ) : tally [w] = single w := by
  funext p
  simp [tally, single, List.countP_cons]

theorem tally_perm {V W : List (List κ)} (h : V.Perm W) : tally V = tally W := by
  funext p
  exact h.countP_eq _

theorem single_cons (k : κ) (w : List κ) (k' : κ) (p : List κ) :
    single (k :: w) (k' :: p) = if k' = k then single w p else 0 := by
  unfold single
  by_cases h : k' = k <;> simp [h, List.cons_prefix_cons]

@[simp] theorem single_nil_cons (k : κ) (p : List κ) : single [] (k :: p) = 0 := by
  simp [single]

@[simp] theorem single_nil (w : List κ) : single w [] = 1 := by
  simp [single]

theorem only_add_without (k : κ) (φ : List κ → ℕ) : only k φ + without k φ = φ := by
  funext p
  by_cases h : p.head? = some k <;> simp [only, without, h]

theorem only_cons (k : κ) (φ : List κ → ℕ) (k' : κ) (p : List κ) :
    only k φ (k' :: p) = if k' = k then φ (k' :: p) else 0 := by
  simp [only]

theorem without_cons (k : κ) (φ : List κ → ℕ) (k' : κ) (p : List κ) :
    without k φ (k' :: p) = if k' = k then 0 else φ (k' :: p) := by
  simp [without]

end StackTrace.Tally
