import StackTrace.Base.Brackets
import StackTrace.Base.Buffer
import StackTrace.Symbols.Replace

/-!
# `findMatching`

`StackTrace.cpp`, lines 1873–1885. The loop counts the open brackets from one on and stops
behind the one that closes the last of them, or at the end of the name. The count is an
`int`, and has no value where more brackets are open than it can hold.

* `findMatchingInt_of_length`: the count of the loop fits for every name of less than
  2147483647 characters, so that `findMatching` is right about it.
* `findMatching_closes`: the result is the place behind the bracket that closes the one at
  `pos`, or `N`.
-/

namespace StackTrace

open Brackets

/-- `<` opens a bracket, `>` closes one. -/
def bracket (c : UInt8) : ℤ := if c = 60 then 1 else if c = 62 then -1 else 0

theorem neg_one_le_bracket (c : UInt8) : -1 ≤ bracket c := by
  unfold bracket
  split_ifs <;> omega

namespace FunctionName

theorem findMatchingLoop_cons {count : ℤ} (hcount : count ≠ 0) (pos2 : ℕ) (c : UInt8)
    (str : Bytes) :
    findMatchingLoop count pos2 (c :: str) =
      findMatchingLoop (count + bracket c) (pos2 + 1) str := by
  rw [findMatchingLoop, if_neg hcount]
  unfold bracket
  by_cases h60 : c = 60
  · subst h60
    rfl
  · by_cases h62 : c = 62
    · subst h62
      rfl
    · simp [h60, h62]

theorem findMatchingLoop_zero (pos2 : ℕ) (str : Bytes) : findMatchingLoop 0 pos2 str = pos2 := by
  cases str <;> rfl

theorem findMatchingLoop_eq {count : ℤ} (hcount : count ≠ 0) (pos2 : ℕ) (str : Bytes) :
    findMatchingLoop count pos2 str = pos2 + (closing bracket count str).getD str.length := by
  induction str generalizing count pos2 with
  | nil => rfl
  | cons c str ih =>
    rw [findMatchingLoop_cons hcount, closing]
    split_ifs with hzero
    · rw [hzero, findMatchingLoop_zero]
      rfl
    · rw [ih hzero]
      cases closing bracket (count + bracket c) str <;>
        simp only [Option.map_none, Option.map_some, Option.getD_none, Option.getD_some,
          List.length_cons] <;> omega

/-- Behind the bracket at the end of `u` the name goes on with `v`. -/
theorem findMatching_eq {f : FunctionName} {u v : Bytes} {c : UInt8}
    (h : f.view = some (u ++ c :: v)) :
    f.findMatching u.length = u.length + 1 + (closing bracket 1 v).getD v.length := by
  obtain ⟨b, rfl⟩ := view_eq_some_iff.mp h
  have htake : (named (u ++ c :: v) b).function.take (named (u ++ c :: v) b).N = u ++ c :: v :=
    List.take_left
  have hdrop : (u ++ c :: v).drop (u.length + 1) = v := by
    rw [← List.drop_drop, List.drop_left]
    rfl
  unfold findMatching
  rw [htake, hdrop, findMatchingLoop_eq one_ne_zero]

/-! ## The count as an `int` -/

/-- The loop with `n` characters left below `N`, with every access to `str` and every value
    of `count` checked. -/
def findMatchingLoopInt (str : Bytes) : (n : ℕ) → (count : ℤ) → (pos2 : ℕ) → Option ℕ
  | 0, _, pos2 => some pos2
  | n + 1, count, pos2 =>
    if count = 0 then some pos2
    else do
      let c ← str[pos2]?
      let count := if c = 60 then count + 1 else count
      let count := if c = 62 then count - 1 else count
      if IsInt count then findMatchingLoopInt str n count (pos2 + 1) else none

/-- `findMatching( str, N, pos )`. -/
def findMatchingInt (f : FunctionName) (pos : ℕ) : Option ℕ :=
  findMatchingLoopInt f.function (f.N - (pos + 1)) 1 (pos + 1)

theorem findMatchingLoopInt_succ {a : Bytes} {c : UInt8} {b : Bytes} {n : ℕ} {count : ℤ}
    (hcount : count ≠ 0) :
    findMatchingLoopInt (a ++ c :: b) (n + 1) count a.length =
      if IsInt (count + bracket c) then
        findMatchingLoopInt (a ++ c :: b) n (count + bracket c) (a.length + 1) else none := by
  have hget : (a ++ c :: b)[a.length]? = some c := by
    rw [List.getElem?_append_right le_rfl, Nat.sub_self]
    rfl
  have hbracket : (if c = 62 then (if c = 60 then count + 1 else count) - 1
      else if c = 60 then count + 1 else count) = count + bracket c := by
    unfold bracket
    by_cases h60 : c = 60
    · subst h60
      rfl
    · by_cases h62 : c = 62
      · subst h62
        rfl
      · simp [h60, h62]
  rw [findMatchingLoopInt, if_neg hcount, hget, Option.bind_eq_bind, Option.bind_some]
  dsimp only
  rw [hbracket]

theorem findMatchingLoopInt_zero (str : Bytes) (n pos2 : ℕ) :
    findMatchingLoopInt str n 0 pos2 = some pos2 := by
  cases n <;> rfl

/-- Where the count stays an `int` up to the closing bracket, the result is the one of
    `findMatchingLoop`. No access is outside the characters below `N`. -/
theorem findMatchingLoopInt_eq {count : ℤ} (hcount : 0 < count) (a v b : Bytes)
    (hint : ∀ l, l <+: v.take ((closing bracket count v).getD v.length) →
      count + depth bracket l < 2 ^ 31) :
    findMatchingLoopInt (a ++ (v ++ b)) v.length count a.length =
      some (findMatchingLoop count a.length v) := by
  induction v generalizing count a with
  | nil => rfl
  | cons c v ih =>
    have hone : [c] <+: (c :: v).take ((closing bracket count (c :: v)).getD (c :: v).length) := by
      rw [closing]
      split_ifs
      · exact List.prefix_rfl
      · cases closing bracket (count + bracket c) v <;> simp [List.take_succ_cons]
    have hle := neg_one_le_bracket c
    have hc : IsInt (count + bracket c) := by
      have hlt := hint [c] hone
      rw [depth_cons, depth_nil, add_zero] at hlt
      exact ⟨by omega, hlt⟩
    rw [List.cons_append, List.length_cons, findMatchingLoopInt_succ hcount.ne', if_pos hc,
      findMatchingLoop_cons hcount.ne']
    by_cases hzero : count + bracket c = 0
    · rw [hzero, findMatchingLoopInt_zero, findMatchingLoop_zero]
    · have hsplit : a ++ c :: (v ++ b) = (a ++ [c]) ++ (v ++ b) := by simp
      have hlength : a.length + 1 = (a ++ [c]).length := by simp
      rw [hsplit, hlength]
      refine ih (by omega) (a ++ [c]) fun l hl => ?_
      have hcons : c :: l <+: (c :: v).take ((closing bracket count (c :: v)).getD
          (c :: v).length) := by
        rw [closing, if_neg hzero]
        cases hclosing : closing bracket (count + bracket c) v <;>
          simpa [hclosing, List.take_succ_cons] using hl
      have hint' := hint (c :: l) hcons
      rwa [depth_cons, ← add_assoc] at hint'

/-- Behind one open bracket no more are open than an `int` can count. -/
def FitsCount (w : Bytes) : Prop := ∀ l, l <+: w → 1 + depth bracket l < 2 ^ 31

theorem depth_bracket_le (l : Bytes) : depth bracket l ≤ l.length := by
  induction l with
  | nil => exact le_rfl
  | cons c l ih =>
    have hc : bracket c ≤ 1 := by
      unfold bracket
      split_ifs <;> omega
    rw [depth_cons, List.length_cons]
    push_cast
    omega

/-- It takes more than two billion characters. -/
theorem fitsCount_of_length {w : Bytes} (h : w.length < 2147483647) : FitsCount w := by
  intro l hl
  have hdepth := depth_bracket_le l
  have hle := hl.length_le
  norm_num
  omega

theorem findMatchingInt_eq (u : Bytes) (c : UInt8) (w rest : Bytes)
    (hfits : FitsCount (w.take ((closing bracket 1 w).getD w.length))) :
    (named (u ++ c :: w) rest).findMatchingInt u.length =
      some (u.length + 1 + (closing bracket 1 w).getD w.length) := by
  have hN : (named (u ++ c :: w) rest).N - (u.length + 1) = w.length := by
    show (u ++ c :: w).length - (u.length + 1) = w.length
    rw [List.length_append, List.length_cons]
    omega
  have hfunction : (named (u ++ c :: w) rest).function = (u ++ [c]) ++ (w ++ rest) := by
    show (u ++ c :: w) ++ rest = _
    simp
  have hlength : u.length + 1 = (u ++ [c]).length := by simp
  unfold findMatchingInt
  rw [hN, hfunction, hlength, findMatchingLoopInt_eq one_pos (u ++ [c]) w rest hfits,
    findMatchingLoop_eq one_ne_zero]

/-- For the names that there are, `findMatching` is right about the count. -/
theorem findMatchingInt_of_length {f : FunctionName} {u v : Bytes} {c : UInt8}
    (h : f.view = some (u ++ c :: v)) (hlen : v.length < 2147483647) :
    f.findMatchingInt u.length = some (f.findMatching u.length) := by
  have hfits : FitsCount (v.take ((closing bracket 1 v).getD v.length)) :=
    fitsCount_of_length ((List.length_take_le' _ _).trans_lt hlen)
  rw [findMatching_eq h]
  obtain ⟨b, rfl⟩ := view_eq_some_iff.mp h
  exact findMatchingInt_eq u c v b hfits

/-- The bracket that closes one in front of the text stands behind a nested part. -/
theorem closing_bracket_iff {w : Bytes} {k : ℕ} :
    closing bracket 1 w = some k ↔
      ∃ m v, w = m ++ 62 :: v ∧ k = m.length + 1 ∧ Nested bracket m := by
  have hclose : ∀ c, bracket c = -1 ↔ c = 62 := by
    intro c
    unfold bracket
    split_ifs with h60 h62
    · subst h60
      decide
    · exact iff_of_true rfl h62
    · exact iff_of_false (by decide) h62
  rw [closing_eq_some_iff neg_one_le_bracket one_pos]
  constructor
  · rintro ⟨m, c, v, rfl, rfl, hc, hstays, hdepth⟩
    obtain rfl := (hclose c).mp hc
    exact ⟨m, v, rfl, rfl, hstays, by omega⟩
  · rintro ⟨m, v, rfl, rfl, hstays, hdepth⟩
    exact ⟨m, 62, v, rfl, rfl, rfl, hstays, by omega⟩

/-- For a `<` behind `u` the result is the place behind the `>` that closes it, or else the
    end of the text. No character behind the text is read, and the count fits as long as it
    has to. -/
theorem findMatching_closes (u w rest : Bytes) :
    (∀ m v, w = m ++ 62 :: v → Nested bracket m → FitsCount m →
      (named (u ++ 60 :: w) rest).findMatchingInt u.length =
        some (u.length + 1 + m.length + 1)) ∧
    ((∀ m v, w = m ++ 62 :: v → ¬ Nested bracket m) → FitsCount w →
      (named (u ++ 60 :: w) rest).findMatchingInt u.length = some (u ++ 60 :: w).length) := by
  constructor
  · rintro m v rfl hm hfits
    have hclosing : closing bracket 1 (m ++ 62 :: v) = some (m.length + 1) :=
      closing_bracket_iff.mpr ⟨m, v, rfl, rfl, hm⟩
    have htake : (m ++ 62 :: v).take (m.length + 1) = m ++ [62] := by
      rw [List.take_append, List.take_of_length_le (Nat.le_succ _), Nat.add_sub_cancel_left]
      rfl
    rw [findMatchingInt_eq, hclosing]
    · rfl
    · rw [hclosing, Option.getD_some, htake]
      intro l hl
      rcases List.prefix_concat_iff.mp hl with rfl | hl
      · -- the closing bracket itself
        have hlast := hfits m List.prefix_rfl
        have hclose : bracket 62 = -1 := rfl
        rw [depth_append, depth_cons, depth_nil, hclose]
        omega
      · exact hfits l hl
  · intro hnone hfits
    have hclosing : closing bracket 1 w = none := by
      rw [Option.eq_none_iff_forall_ne_some]
      intro k hk
      obtain ⟨m, v, hw, -, hm⟩ := closing_bracket_iff.mp hk
      exact hnone m v hw hm
    rw [findMatchingInt_eq, hclosing, Option.getD_none, List.length_append, List.length_cons]
    · congr 1
      omega
    · rw [hclosing, Option.getD_none, List.take_length]
      exact hfits

/-- A template with two arguments, and the beginning of its name. -/
theorem findMatching_closes_template :
    (named (ascii "f" ++ 60 :: ascii "g<int>, h<g<int>>>(int)") [0]).findMatchingInt 1 = some 20 ∧
      (named (ascii "f" ++ 60 :: ascii "g<int>, h") [0]).findMatchingInt 1 = some 11 := by
  have hopen : ∀ m v, ascii "g<int>, h" = m ++ 62 :: v → ¬ Nested bracket m := by
    intro m v hw hm
    have hclosing := closing_bracket_iff.mpr ⟨m, v, hw, rfl, hm⟩
    rw [show closing bracket 1 (ascii "g<int>, h") = none by decide] at hclosing
    cases hclosing
  exact ⟨(findMatching_closes (ascii "f") (ascii "g<int>, h<g<int>>>(int)") [0]).1
      (ascii "g<int>, h<g<int>>") (ascii "(int)") (by decide) (by decide)
        (fitsCount_of_length (by decide)),
    (findMatching_closes (ascii "f") (ascii "g<int>, h") [0]).2 hopen
      (fitsCount_of_length (by decide))⟩

theorem findMatchingLoopInt_overflow {n : ℕ} {count : ℤ} (hcount : 0 < count)
    (hint : count < 2 ^ 31) (hn : 2 ^ 31 ≤ count + n) (a b : Bytes) :
    findMatchingLoopInt (a ++ (List.replicate n 60 ++ b)) n count a.length = none := by
  induction n generalizing count a with
  | zero =>
    rw [Nat.cast_zero, add_zero] at hn
    omega
  | succ n ih =>
    have hopen : bracket 60 = 1 := rfl
    rw [List.replicate_succ, List.cons_append, findMatchingLoopInt_succ hcount.ne', hopen]
    split_ifs with hroom
    · have hsplit : a ++ 60 :: (List.replicate n 60 ++ b) =
          (a ++ [60]) ++ (List.replicate n 60 ++ b) := by simp
      have hlength : a.length + 1 = (a ++ [60]).length := by simp
      rw [hsplit, hlength]
      push_cast at hn
      exact ih (by omega) hroom.2 (by omega) (a ++ [60])
    · rfl

/-- A text of `2147483648` brackets that are never closed. -/
theorem findMatching_overflow :
    (∀ m v, List.replicate 2147483647 60 = m ++ 62 :: v → ¬ Nested bracket m) ∧
      (named ([] ++ 60 :: List.replicate 2147483647 60) []).findMatchingInt 0 = none := by
  obtain ⟨n, hn⟩ : ∃ n : ℕ, n = 2147483647 := ⟨_, rfl⟩
  rw [← hn]
  constructor
  · intro m v hsplit
    have hmem : 62 ∈ List.replicate n (60 : UInt8) := by
      rw [hsplit]
      exact List.mem_append_right m List.mem_cons_self
    exact absurd (List.eq_of_mem_replicate hmem) (by decide)
  · have hN : (named ([] ++ 60 :: List.replicate n 60) []).N - (0 + 1) = n := by
      show ([] ++ 60 :: List.replicate n (60 : UInt8)).length - (0 + 1) = n
      rw [List.nil_append, List.length_cons, List.length_replicate]
      omega
    unfold findMatchingInt
    rw [hN]
    exact findMatchingLoopInt_overflow one_pos (by norm_num) (by rw [hn]; norm_num) [60] []

end FunctionName

end StackTrace
