import Mathlib

/-!
# Lines

A list is cut behind each element that ends a line; what follows the last of them is a
line too, if it is not empty.

* `splitAfter_line`, `splitAfter_last`: the first line, and the last one.
* `eq_splitAfter`: there is no other way to cut the list.
-/

namespace StackTrace

variable {α : Type*} [DecidableEq α] {d : α} {s line rest : List α} {lines : List (List α)}

/-- The lines of `s`, each with the `d` that ends it. -/
def splitAfter (d : α) : (s : List α) → List (List α)
  | [] => []
  | c :: s =>
    if c = d then [c] :: splitAfter d s
    else
      match splitAfter d s with
      | [] => [[c]]
      | line :: lines => (c :: line) :: lines

/-- The only `d` is at the end. -/
def EndsLine (d : α) (line : List α) : Prop := ∃ s, d ∉ s ∧ line = s ++ [d]

@[simp] theorem splitAfter_nil : splitAfter d [] = [] := rfl

theorem splitAfter_line (hline : d ∉ line) (rest : List α) :
    splitAfter d (line ++ d :: rest) = (line ++ [d]) :: splitAfter d rest := by
  induction line with
  | nil => simp [splitAfter]
  | cons c line ih =>
    obtain ⟨hc, hline⟩ := List.ne_and_not_mem_of_not_mem_cons hline
    rw [List.cons_append, splitAfter, if_neg (Ne.symm hc), ih hline]
    rfl

theorem splitAfter_last (hne : line ≠ []) (hline : d ∉ line) : splitAfter d line = [line] := by
  induction line with
  | nil => exact absurd rfl hne
  | cons c line ih =>
    obtain ⟨hc, hline⟩ := List.ne_and_not_mem_of_not_mem_cons hline
    rw [splitAfter, if_neg (Ne.symm hc)]
    cases line with
    | nil => rfl
    | cons e line => rw [ih (List.cons_ne_nil e line) hline]

/-- Induction over the lines. -/
theorem lines_induction {P : List α → Prop} (d : α) (nil : P [])
    (last : ∀ line, line ≠ [] → d ∉ line → P line)
    (line : ∀ line rest, d ∉ line → P rest → P (line ++ d :: rest)) (s : List α) : P s := by
  induction hn : s.length using Nat.strong_induction_on generalizing s with
  | _ n ih =>
    by_cases hmem : d ∈ s
    · obtain ⟨first, rest, rfl, hfirst⟩ := List.eq_append_cons_of_mem hmem
      have hless : rest.length < n := by
        rw [← hn, List.length_append, List.length_cons]
        omega
      exact line first rest hfirst (ih rest.length hless rest rfl)
    · by_cases hs : s = []
      · exact hs ▸ nil
      · exact last s hs hmem

/-- Lines that end, and perhaps one more that does not. -/
theorem eq_splitAfter (hlines : ∀ line ∈ lines, EndsLine d line) (hlast : d ∉ s) :
    splitAfter d (lines.flatten ++ s) = lines ++ if s = [] then [] else [s] := by
  induction lines with
  | nil =>
    split_ifs with hs
    · rw [hs]
      rfl
    · exact splitAfter_last hs hlast
  | cons line lines ih =>
    obtain ⟨first, hfirst, rfl⟩ := hlines line List.mem_cons_self
    have hrest := ih fun l hl => hlines l (List.mem_cons_of_mem _ hl)
    rw [List.flatten_cons, List.append_assoc, List.append_assoc, List.singleton_append,
      splitAfter_line hfirst, hrest]
    rfl

theorem mem_splitAfter (h : line ∈ splitAfter d s) : line ≠ [] ∧ line <:+: s := by
  induction s using lines_induction d with
  | nil => simp at h
  | last last hne hlast =>
    rw [splitAfter_last hne hlast, List.mem_singleton] at h
    exact ⟨h ▸ hne, h ▸ List.infix_refl _⟩
  | line first rest hfirst ih =>
    rw [splitAfter_line hfirst, List.mem_cons] at h
    rcases h with rfl | h
    · exact ⟨by simp, ⟨[], rest, by simp⟩⟩
    · obtain ⟨hne, u, v, huv⟩ := ih h
      exact ⟨hne, first ++ d :: u, v, by simp [← huv]⟩

end StackTrace
