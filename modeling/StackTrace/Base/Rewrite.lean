import Mathlib

/-!
# Leftmost replacement

The first occurrence of a pattern is replaced by another text, and the first one of what
this gives, until there is none left.

* `Rewrites.length_lt`: a text longer than the pattern makes the result longer.
-/

namespace StackTrace

variable {α : Type*} {s r t u : List α}

/-- `u` is what is left of `t` when the first occurrence of `s` has been replaced by `r`
    until there is none. -/
inductive Rewrites (s r : List α) : List α → List α → Prop
  | done {t : List α} (h : ¬ s <:+: t) : Rewrites s r t t
  | step {a b u : List α} (hfirst : ∀ j < a.length, ¬ s <+: (a ++ (s ++ b)).drop j)
      (h : Rewrites s r (a ++ (r ++ b)) u) : Rewrites s r (a ++ (s ++ b)) u

namespace Rewrites

theorem not_isInfix (h : Rewrites s r t u) : ¬ s <:+: u := by
  induction h with
  | done h => exact h
  | step _ _ ih => exact ih

theorem length_le (hr : s.length ≤ r.length) (h : Rewrites s r t u) : t.length ≤ u.length := by
  induction h with
  | done _ => exact le_rfl
  | step _ _ ih =>
    simp only [List.length_append] at ih ⊢
    omega

theorem length_lt (hr : s.length < r.length) (h : Rewrites s r t u) (ht : s <:+: t) :
    t.length < u.length := by
  cases h with
  | done h => exact absurd ht h
  | step _ h =>
    have hle := h.length_le hr.le
    simp only [List.length_append] at hle ⊢
    omega

end Rewrites

end StackTrace
