import StackTrace.Base.Rewrite

/-!
# How often a pattern stands in a list

Patterns that cannot overlap are deleted one at a time.

* `occurrences_cut_le`: the deletion of a pattern takes away no other occurrence.
* `Rewrites.length_add_le`: the deletions take away what all occurrences cover, or more.
-/

namespace StackTrace

variable {α : Type*} [DecidableEq α] {s k a b t u : List α}

/-- The number of places at which `s` stands. -/
def occurrences (s : List α) : List α → ℕ
  | [] => 0
  | c :: t => (if s.isPrefixOf (c :: t) then 1 else 0) + occurrences s t

/-- No `k` begins inside an `s`, nor at the same place unless they are equal. -/
def Apart (k s : List α) : Prop :=
  ∀ j < s.length, 0 < j ∨ k ≠ s → ¬ s.drop j <+: k ∧ ¬ k <+: s.drop j

instance : Decidable (Apart k s) := inferInstanceAs (Decidable (∀ j < s.length, _))

theorem occurrences_cons (s : List α) (c : α) (t : List α) :
    occurrences s (c :: t) = (if s <+: c :: t then 1 else 0) + occurrences s t := by
  rw [occurrences]
  simp only [List.isPrefixOf_iff_prefix]

theorem occurrences_eq_zero_iff (hs : s ≠ []) : occurrences s t = 0 ↔ ¬ s <:+: t := by
  induction t with
  | nil => exact iff_of_true rfl fun h => hs (List.infix_nil.mp h)
  | cons c t ih =>
    rw [occurrences_cons, Nat.add_eq_zero_iff, ih, List.infix_cons_iff, not_or]
    simp

/-- A pattern that none of the ends of `t` begins, and that begins none of them, does not
    begin in `t`. -/
theorem occurrences_append_of_inside (b : List α)
    (h : ∀ j < t.length, ¬ t.drop j <+: k ∧ ¬ k <+: t.drop j) :
    occurrences k (t ++ b) = occurrences k b := by
  induction t with
  | nil => rfl
  | cons c t ih =>
    have hc : ¬ k <+: c :: t ++ b := fun hpre =>
      (List.prefix_or_prefix_of_prefix (List.prefix_append (c :: t) b) hpre).elim
        (h 0 (by simp)).1 (h 0 (by simp)).2
    have ht := ih fun j hj => h (j + 1) (Nat.succ_lt_succ hj)
    rw [List.cons_append] at hc ⊢
    rw [occurrences_cons, if_neg hc, ht, Nat.zero_add]

theorem occurrences_pattern (h : Apart k s) (hs : s ≠ []) (b : List α) :
    occurrences k (s ++ b) = (if k = s then 1 else 0) + occurrences k b := by
  split_ifs with hks
  · subst hks
    obtain ⟨c, t, rfl⟩ := List.exists_cons_of_ne_nil hs
    have ht : ∀ j < t.length, ¬ t.drop j <+: c :: t ∧ ¬ c :: t <+: t.drop j := fun j hj =>
      h (j + 1) (Nat.succ_lt_succ hj) (.inl (Nat.succ_pos j))
    have hpre : c :: t <+: c :: (t ++ b) := List.prefix_append (c :: t) b
    rw [List.cons_append, occurrences_cons, if_pos hpre, occurrences_append_of_inside b ht]
  · rw [occurrences_append_of_inside b fun j hj => h j hj (.inr hks), Nat.zero_add]

/-- A pattern that no list before `t` reaches into. -/
theorem occurrences_append (h : ∀ j < k.length, 0 < j → ¬ k.drop j <+: t) (a : List α) :
    occurrences k (a ++ t) = occurrences k a + occurrences k t := by
  induction a with
  | nil => exact (Nat.zero_add _).symm
  | cons c a ih =>
    have hiff : k <+: c :: a ++ t ↔ k <+: c :: a := by
      refine ⟨fun hpre => ?_, fun hpre => hpre.trans (List.prefix_append _ _)⟩
      rcases List.prefix_or_prefix_of_prefix hpre (List.prefix_append (c :: a) t) with hk | hca
      · exact hk
      · obtain ⟨k', rfl⟩ := hca
        cases k' with
        | nil => simp
        | cons d k' =>
          have hk' := (List.prefix_append_right_inj _).mp hpre
          refine absurd ?_ (h (c :: a).length (by simp) (by simp))
          rwa [List.drop_left]
    rw [List.cons_append] at hiff ⊢
    rw [occurrences_cons, occurrences_cons, ih, Nat.add_assoc]
    simp only [hiff]

theorem le_occurrences_append (k a b : List α) :
    occurrences k a + occurrences k b ≤ occurrences k (a ++ b) := by
  induction a with
  | nil => exact (Nat.zero_add _).le
  | cons c a ih =>
    rw [List.cons_append, occurrences_cons, occurrences_cons]
    have hle : (if k <+: c :: a then 1 else 0) ≤ if k <+: c :: (a ++ b) then 1 else 0 := by
      split_ifs with hca hcab
      · exact le_rfl
      · exact absurd (hca.trans (List.prefix_append (c :: a) b)) hcab
      · exact Nat.zero_le 1
      · exact le_rfl
    omega

/-- The deletion of `s` takes away the occurrence of `s`, and no other one. -/
theorem occurrences_cut_le (hks : Apart k s) (hsk : Apart s k) (hs : s ≠ []) (a b : List α) :
    occurrences k (a ++ (s ++ b)) ≤ (if k = s then 1 else 0) + occurrences k (a ++ b) := by
  have hreach : ∀ j < k.length, 0 < j → ¬ k.drop j <+: s ++ b := fun j hj hpos hpre =>
    (List.prefix_or_prefix_of_prefix hpre (List.prefix_append s b)).elim
      (hsk j hj (.inl hpos)).1 (hsk j hj (.inl hpos)).2
  have hle := le_occurrences_append k a b
  rw [occurrences_append hreach, occurrences_pattern hks hs]
  omega

namespace Rewrites

theorem length_add_le (hss : Apart s s) (hs : s ≠ []) (h : Rewrites s [] t u) :
    u.length + s.length * occurrences s t ≤ t.length := by
  induction h with
  | done h => rw [(occurrences_eq_zero_iff hs).mpr h, Nat.mul_zero, Nat.add_zero]
  | @step a b u _ _ ih =>
    have hcut := Nat.mul_le_mul_left s.length (occurrences_cut_le hss hss hs a b)
    rw [if_pos rfl, Nat.mul_add, Nat.mul_one] at hcut
    rw [List.nil_append] at ih
    simp only [List.length_append] at ih ⊢
    omega

theorem occurrences_le (hks : Apart k s) (hsk : Apart s k) (hne : k ≠ s) (hs : s ≠ [])
    (h : Rewrites s [] t u) : occurrences k t ≤ occurrences k u := by
  induction h with
  | done _ => exact le_rfl
  | @step a b u _ _ ih =>
    have hcut := occurrences_cut_le hks hsk hs a b
    rw [if_neg hne, Nat.zero_add] at hcut
    exact hcut.trans ih

end Rewrites

end StackTrace
