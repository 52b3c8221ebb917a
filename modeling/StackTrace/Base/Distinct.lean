import Mathlib

/-!
# The distinct elements of a list

`List.eraseDups` lists the elements of a list in the order of their first occurrences.

* `eraseDups_concat`: what one more element does.
* `eraseDups_of_isPrefix`: the elements of a beginning come first.
-/

namespace StackTrace

variable {α : Type*} [DecidableEq α] {xs ys : List α} {x : α}

theorem eraseDups_concat (xs : List α) (x : α) :
    (xs ++ [x]).eraseDups = if x ∈ xs then xs.eraseDups else xs.eraseDups ++ [x] := by
  rw [List.eraseDups_append]
  split_ifs with hx
  · simp [List.removeAll, hx]
  · simp [List.removeAll, hx, List.eraseDups_cons]

theorem nodup_eraseDups (xs : List α) : xs.eraseDups.Nodup := by
  induction xs using List.reverseRecOn with
  | nil => simp
  | append_singleton xs x ih =>
    rw [eraseDups_concat]
    split_ifs with hx
    · exact ih
    · refine List.nodup_append.mpr ⟨ih, List.nodup_singleton x, fun a ha b hb heq => hx ?_⟩
      rw [← List.mem_singleton.mp hb, ← heq]
      exact List.mem_eraseDups.mp ha

theorem eraseDups_of_isPrefix (h : xs <+: ys) : xs.eraseDups <+: ys.eraseDups := by
  obtain ⟨zs, rfl⟩ := h
  rw [List.eraseDups_append]
  exact List.prefix_append _ _

theorem eraseDups_of_nodup (h : xs.Nodup) : xs.eraseDups = xs := by
  induction xs using List.reverseRecOn with
  | nil => simp
  | append_singleton xs x ih =>
    obtain ⟨hxs, -, hx⟩ := List.nodup_append.mp h
    have hnew : x ∉ xs := fun hmem => hx x hmem x (by simp) rfl
    rw [eraseDups_concat, if_neg hnew, ih hxs]

end StackTrace
