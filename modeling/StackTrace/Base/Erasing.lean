import Mathlib

/-!
# Erasing while the index advances

A loop over the indices of a list erases each `z` that it finds. The index advances after an
erasure too, so that the element that has moved up is not looked at.

* `eraseFrom_eq`: what stands directly behind an erased `z` stays.
* `mem_thin_iff`, `takeWhile_thin_iff`: a `z` stays if and only if two of them stand next to
  each other.
-/

namespace StackTrace

variable {α : Type*} {z : α} {s a b : List α}

/-- What has no `z` makes no difference around a list. -/
theorem double_infix_iff (ha : z ∉ a) (hb : z ∉ b) : [z, z] <:+: a ++ (s ++ b) ↔ [z, z] <:+: s := by
  have hleft : ∀ (a s : List α), z ∉ a → ([z, z] <:+: a ++ s ↔ [z, z] <:+: s) := by
    intro a s ha
    induction a with
    | nil => rfl
    | cons c a ih =>
      obtain ⟨hc, ha⟩ := List.ne_and_not_mem_of_not_mem_cons ha
      rw [List.cons_append, List.infix_cons_iff, ih ha]
      simp [hc]
  have hdouble : [z, z].reverse = [z, z] := rfl
  have hright := hleft b.reverse s.reverse (by simpa using hb)
  rw [← List.reverse_append, ← hdouble, List.reverse_infix, List.reverse_infix] at hright
  rw [hleft a _ ha, hright]

variable [DecidableEq α]

/-- `for ( ; i < s.size(); i++ ) if ( s[i] == z ) s.erase( i, 1 );` -/
def eraseFrom (z : α) (s : List α) (i : ℕ) : List α :=
  if h : i < s.length then
    if s[i] = z then eraseFrom z (s.eraseIdx i) (i + 1) else eraseFrom z s (i + 1)
  else s
termination_by s.length - i
decreasing_by
  · rw [List.length_eraseIdx_of_lt h]
    omega
  · omega

/-- Every `z` is left out but one directly behind a `z` that is left out. `skip` says that the
    first element is such a one. -/
def thin (z : α) : (skip : Bool) → List α → List α
  | _, [] => []
  | true, c :: s => c :: thin z false s
  | false, c :: s => if c = z then thin z true s else c :: thin z false s

theorem eraseFrom_append (pre s : List α) (skip : Bool) :
    eraseFrom z (pre ++ s) (pre.length + skip.toNat) = pre ++ thin z skip s := by
  induction s generalizing pre skip with
  | nil =>
    rw [eraseFrom, dif_neg (by simp), thin]
  | cons c s ih =>
    have hmove : eraseFrom z (pre ++ c :: s) (pre.length + 1) = pre ++ c :: thin z false s := by
      have hnext := ih (pre ++ [c]) false
      rwa [List.append_assoc, List.append_assoc, List.length_append] at hnext
    cases skip with
    | true => exact hmove
    | false =>
      have hlt : pre.length + false.toNat < (pre ++ c :: s).length := by simp
      have hget : (pre ++ c :: s)[pre.length + false.toNat] = c := by simp
      have herase : (pre ++ c :: s).eraseIdx (pre.length + false.toNat) = pre ++ s := by
        rw [List.eraseIdx_append_of_length_le (by simp)]
        simp
      rw [eraseFrom, dif_pos hlt, hget, herase, thin]
      split_ifs with hc
      · exact ih pre true
      · exact hmove

theorem eraseFrom_eq (z : α) (s : List α) : eraseFrom z s 0 = thin z false s :=
  eraseFrom_append [] s false

theorem filter_thin (z : α) (skip : Bool) (s : List α) :
    (thin z skip s).filter (· ≠ z) = s.filter (· ≠ z) := by
  induction s generalizing skip with
  | nil => cases skip <;> rfl
  | cons c s ih =>
    cases skip with
    | true => rw [thin, List.filter_cons, List.filter_cons, ih]
    | false =>
      rw [thin]
      split_ifs with hc
      · rw [ih, List.filter_cons_of_neg (by simpa using hc)]
      · rw [List.filter_cons, List.filter_cons, ih]

theorem mem_thin (z : α) (s : List α) :
    (z ∈ thin z false s ↔ [z, z] <:+: s) ∧ (z ∈ thin z true s ↔ [z, z] <:+: z :: s) := by
  induction s with
  | nil =>
    have hsingle : ¬ [z, z] <:+: [z] := fun h => absurd h.length_le (by simp)
    simp [thin, hsingle]
  | cons c s ih =>
    obtain ⟨hfalse, htrue⟩ := ih
    have hdouble : [z, z] <:+: z :: c :: s ↔ z = c ∨ [z, z] <:+: c :: s := by
      rw [List.infix_cons_iff (a := z)]
      simp
    constructor
    · rw [thin]
      split_ifs with hc
      · rw [htrue, hc]
      · rw [List.mem_cons, hfalse, List.infix_cons_iff]
        simp [Ne.symm hc]
    · rw [thin, List.mem_cons, hfalse, hdouble, List.infix_cons_iff]
      by_cases hc : z = c
      · simp [hc]
      · simp [hc]

theorem mem_thin_iff (z : α) (s : List α) : z ∈ thin z false s ↔ [z, z] <:+: s := (mem_thin z s).1

/-- Where there is no `z`, none is left out. -/
theorem thin_eq_self (h : z ∉ s) : thin z false s = s := by
  have hkept : ∀ {l : List α}, z ∉ l → l.filter (· ≠ z) = l := fun hl =>
    List.filter_eq_self.mpr fun x hx => decide_eq_true fun hxz => hl (hxz ▸ hx)
  have hdouble : ¬ [z, z] <:+: s := fun hzz => h (hzz.subset (by simp))
  have hthin : z ∉ thin z false s := mt (mem_thin_iff z s).mp hdouble
  rw [← hkept hthin, filter_thin, hkept h]

theorem getLast?_thin (h : s.getLast? ≠ some z) (skip : Bool) :
    (thin z skip s).getLast? = s.getLast? := by
  induction s generalizing skip with
  | nil => cases skip <;> rfl
  | cons c s ih =>
    rw [List.getLast?_cons] at h ⊢
    have hs : s.getLast? ≠ some z := by
      intro hlast
      rw [hlast] at h
      exact h rfl
    cases skip with
    | true => rw [thin, List.getLast?_cons, ih hs]
    | false =>
      rw [thin]
      split_ifs with hc
      · rw [ih hs]
        cases hlast : s.getLast? with
        | none =>
          rw [hlast, hc] at h
          exact absurd rfl h
        | some d => rfl
      · rw [List.getLast?_cons, ih hs]

/-- What precedes the first `z` that stays is all that is left if and only if none stays. -/
theorem takeWhile_thin_iff (h : s.getLast? ≠ some z) :
    (thin z false s).takeWhile (· ≠ z) = s.filter (· ≠ z) ↔ ¬ [z, z] <:+: s := by
  rw [← mem_thin_iff, ← filter_thin z false s]
  refine ⟨fun heq hmem => ?_, fun hmem => ?_⟩
  · obtain ⟨p, q, hpq, hp⟩ := List.eq_append_cons_of_mem hmem
    have hall : ∀ x ∈ p, decide (x ≠ z) = true := fun x hx =>
      decide_eq_true fun hxz => hp (hxz ▸ hx)
    have hlast := getLast?_thin h false
    rw [hpq, List.takeWhile_append_of_pos hall, List.takeWhile_cons_of_neg (by simp),
      List.filter_append, List.filter_eq_self.mpr hall, List.filter_cons_of_neg (by simp),
      List.append_cancel_left_eq, eq_comm, List.filter_eq_nil_iff] at heq
    refine h (hlast ▸ ?_)
    rw [hpq, List.getLast?_append_cons, List.getLast?_cons]
    cases hq : q.getLast? with
    | none => rfl
    | some d => simpa using heq d (List.mem_of_getLast? hq)
  · have hall : ∀ x ∈ thin z false s, decide (x ≠ z) = true := fun x hx =>
      decide_eq_true fun hxz => hmem (hxz ▸ hx)
    rw [List.takeWhile_eq_self_iff.mpr hall, List.filter_eq_self.mpr hall]

end StackTrace
