import Mathlib

/-!
# C strings as byte lists

A `char` is a byte (`UInt8`), a text a list of bytes. A `const char *` denotes
the bytes up to the first NUL (`cstr`); `std::string_view` keeps a length and
its `find` is the first occurrence of a pattern.
-/

namespace StackTrace

abbrev Bytes := List UInt8

/-- The bytes of an ASCII literal. -/
def ascii (s : String) : Bytes := s.toList.map fun c => c.toNat.toUInt8

/-- The C string that starts at the first byte of `a`: what precedes the first
    NUL, or all of `a` if it has none. -/
def cstr (a : Bytes) : Bytes := a.takeWhile (· ≠ 0)

theorem zero_notMem_cstr (a : Bytes) : 0 ∉ cstr a := by
  intro h
  simpa using List.mem_takeWhile_imp h

/-- A C string without NUL followed by a NUL reads back as itself. -/
theorem cstr_append_zero {s : Bytes} (hs : 0 ∉ s) (rest : Bytes) : cstr (s ++ 0 :: rest) = s := by
  unfold cstr
  rw [List.takeWhile_append_of_pos]
  · simp
  · intro x hx
    have : x ≠ 0 := by rintro rfl; exact hs hx
    simpa using this

theorem cstr_eq_self {s : Bytes} (hs : 0 ∉ s) : cstr s = s := by
  refine List.takeWhile_eq_self_iff.mpr fun c hc => ?_
  have hc0 : c ≠ 0 := by rintro rfl; exact hs hc
  simpa using hc0

/-- `std::string_view::find`: the offset of the first occurrence of `pat`, with
    `none` for `npos`. -/
def find (pat : Bytes) : Bytes → Option ℕ
  | [] => if pat.isEmpty then some 0 else none
  | c :: s => if pat.isPrefixOf (c :: s) then some 0 else (find pat s).map (· + 1)

theorem find_le {pat s : Bytes} {k : ℕ} (h : find pat s = some k) :
    k + pat.length ≤ s.length := by
  induction s generalizing k with
  | nil =>
    unfold find at h
    split_ifs at h with hempty
    obtain rfl := Option.some.inj h
    rw [List.isEmpty_iff.mp hempty]
    exact le_rfl
  | cons c s ih =>
    unfold find at h
    split_ifs at h with hprefix
    · obtain rfl := Option.some.inj h
      rw [Nat.zero_add]
      exact (List.isPrefixOf_iff_prefix.mp hprefix).length_le
    · obtain ⟨k', hk', rfl⟩ := Option.map_eq_some_iff.mp h
      have hle := ih hk'
      rw [List.length_cons]
      omega

/-- `find` is the first place where the pattern stands. -/
theorem find_eq_some_iff {pat s : Bytes} {k : ℕ} :
    find pat s = some k ↔ k ≤ s.length ∧ pat <+: s.drop k ∧ ∀ j < k, ¬ pat <+: s.drop j := by
  induction s generalizing k with
  | nil =>
    have hnil : find pat [] = if pat.isEmpty then some 0 else none := rfl
    rw [hnil]
    cases pat <;> cases k <;> simp
  | cons c s ih =>
    rw [find]
    split_ifs with hpre
    · rw [List.isPrefixOf_iff_prefix] at hpre
      cases k with
      | zero => simpa using hpre
      | succ k => exact iff_of_false (by simp) fun h => h.2.2 0 (by omega) hpre
    · rw [List.isPrefixOf_iff_prefix] at hpre
      cases k with
      | zero => exact iff_of_false (by simp) fun h => hpre h.2.1
      | succ k =>
        have hstep : (Option.map (· + 1) (find pat s) = some (k + 1)) ↔ find pat s = some k := by
          simp [Option.map_eq_some_iff]
        rw [hstep, ih, List.length_cons, Nat.succ_le_succ_iff, List.drop_succ_cons]
        refine and_congr_right fun _ => and_congr_right fun _ => ?_
        constructor
        · intro h j hj
          cases j with
          | zero => exact hpre
          | succ j => exact h j (by omega)
        · exact fun h j hj => h (j + 1) (by omega)

theorem find_eq_none_iff {pat s : Bytes} : find pat s = none ↔ ¬ pat <:+: s := by
  induction s with
  | nil =>
    have hnil : find pat [] = if pat.isEmpty then some 0 else none := rfl
    rw [hnil]
    cases pat <;> simp
  | cons c s ih =>
    rw [find, List.infix_cons_iff, not_or, ← ih]
    split_ifs with hpre
    · exact iff_of_false (by simp) fun h => h.1 (List.isPrefixOf_iff_prefix.mp hpre)
    · rw [List.isPrefixOf_iff_prefix] at hpre
      simp [hpre]

/-- The text around the first occurrence. -/
theorem find_split {pat s : Bytes} {k : ℕ} (h : find pat s = some k) :
    s = s.take k ++ (pat ++ s.drop (k + pat.length)) := by
  obtain ⟨-, ⟨rest, hrest⟩, -⟩ := find_eq_some_iff.mp h
  have hdrop : s.drop (k + pat.length) = rest := by
    rw [← List.drop_drop, ← hrest, List.drop_left]
  rw [hdrop, hrest, List.take_append_drop]

/-- The first `c` stands behind what has none. -/
theorem find_singleton {c : UInt8} {s : Bytes} (hs : c ∉ s) (rest : Bytes) :
    find [c] (s ++ c :: rest) = some s.length := by
  induction s with
  | nil => simp [find]
  | cons d s ih =>
    have hcd : c ≠ d := by rintro rfl; exact hs (by simp)
    have hs' : c ∉ s := fun h => hs (by simp [h])
    rw [List.cons_append, find, ih hs', if_neg (by simp [hcd])]
    rfl

/-- `s.find( pat ) != npos`. -/
def contains (s pat : Bytes) : Bool := (find pat s).isSome

end StackTrace
