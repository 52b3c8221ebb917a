import StackTrace.Base.Rewrite
import StackTrace.Symbols.Replace

/-!
# `strrep` as textual replacement

`StackTrace.cpp`, lines 115–124, for the pairs of lines 1892–1989. A text that is shorter
than its pattern takes its place, and the loop computes the leftmost replacement. Two
texts of `sleep_for` are longer than their patterns: the name keeps its length, so that
the result is none.

* `strrep_shorter`: the loop ends with the leftmost replacement.
* `strrep_stops`: the loop ends for every pair, the name does not get longer in any round,
  and the pattern is not in what is left.
* `strrep_rewrites_iff`: this is so for a name and a pair exactly where the text is not
  longer or the pattern does not occur.
-/

namespace StackTrace

namespace FunctionName

/-- The pairs that `cleanupFunctionName` passes to `strrep`. -/
def pairs : List (String × String) :=
  templateSpace ++ [("std::__1::", "std::")] ++ ratios ++ durations ++ sleepFor ++
    [("[abi:cxx11]", ""), ("std::__cxx11::basic_string<", "std::basic_string<")] ++
    [("std::__cxx11::basic_std::string_view<", "std::basic_std::string_view<")]

variable {f g : FunctionName} {s r t : Bytes}

/-! ## One round -/

theorem strrep_of_find_none (fuel : ℕ) (r : Bytes) (hview : f.view = some t)
    (h : StackTrace.find s t = none) : strrep (fuel + 1) s r f = some f := by
  rw [strrep, hview, Option.bind_eq_bind, Option.bind_some, h]

theorem strrep_of_find {pos : ℕ} (fuel : ℕ) (r : Bytes) (hview : f.view = some t)
    (h : StackTrace.find s t = some pos) :
    strrep (fuel + 1) s r f = strrep fuel s r (f.replace pos s.length r) := by
  rw [strrep, hview, Option.bind_eq_bind, Option.bind_some, h]

/-- One round of the loop: from the name `f` to the name `g`. -/
def StrrepRound (s r : Bytes) (f g : FunctionName) : Prop :=
  ∃ t pos, f.view = some t ∧ StackTrace.find s t = some pos ∧ g = f.replace pos s.length r

theorem length_of_view {f : FunctionName} {t : Bytes} (h : f.view = some t) : t.length = f.N := by
  obtain ⟨b, rfl⟩ := view_eq_some_iff.mp h
  rfl

/-- Whatever its arguments are, `replace` returns no more than `N`. -/
theorem replace_N_le {f : FunctionName} {pos : ℕ} (hpos : pos ≤ f.N) (len : ℕ) (r : Bytes) :
    (f.replace pos len r).N ≤ f.N := by
  show pos + min r.length (f.N - pos) + min _ (f.N - (pos + min r.length (f.N - pos))) ≤ f.N
  omega

theorem StrrepRound.N_le (h : StrrepRound s r f g) : g.N ≤ f.N := by
  obtain ⟨t, pos, hview, hfind, rfl⟩ := h
  have hpos := find_le hfind
  rw [length_of_view hview] at hpos
  exact replace_N_le (by omega) s.length r

/-- Where the loop ends there is no pattern left, and rounds lead there. -/
theorem strrep_rounds {fuel : ℕ} (h : strrep fuel s r f = some g) :
    (∃ u, g.view = some u ∧ ¬ s <:+: u) ∧ Relation.ReflTransGen (StrrepRound s r) f g := by
  induction fuel generalizing f with
  | zero => cases h
  | succ fuel ih =>
    obtain ⟨t, hview, -⟩ := Option.bind_eq_some_iff.mp h
    cases hfind : StackTrace.find s t with
    | none =>
      rw [strrep_of_find_none fuel r hview hfind] at h
      obtain rfl := Option.some.inj h
      exact ⟨⟨t, hview, find_eq_none_iff.mp hfind⟩, .refl⟩
    | some pos =>
      rw [strrep_of_find fuel r hview hfind] at h
      obtain ⟨hnone, hrounds⟩ := ih h
      exact ⟨hnone, hrounds.head ⟨t, pos, hview, hfind, rfl⟩⟩

theorem N_le_of_rounds (h : Relation.ReflTransGen (StrrepRound s r) f g) : g.N ≤ f.N := by
  induction h with
  | refl => exact le_rfl
  | tail _ hround ih => exact hround.N_le.trans ih

/-- The first occurrence of the pattern and what is around it. -/
theorem find_first {pos : ℕ} (h : StackTrace.find s t = some pos) :
    ∃ u v, t = u ++ (s ++ v) ∧ u.length = pos ∧
      ∀ j < u.length, ¬ s <+: (u ++ (s ++ v)).drop j := by
  have hsplit := find_split h
  obtain ⟨hle, -, hfirst⟩ := find_eq_some_iff.mp h
  have hlength : (t.take pos).length = pos := by rw [List.length_take, Nat.min_eq_left hle]
  refine ⟨t.take pos, t.drop (pos + s.length), hsplit, hlength, fun j hj => ?_⟩
  rw [← hsplit]
  exact hfirst j (hlength ▸ hj)

/-! ## Runs -/

/-- With a shorter text every round leaves a shorter name. -/
theorem strrep_shorter (hr : r.length < s.length) (hview : f.view = some t)
    (ht : t.length ≤ npos) :
    ∃ fuel g u, strrep fuel s r f = some g ∧ g.view = some u ∧ Rewrites s r t u := by
  induction hn : t.length using Nat.strong_induction_on generalizing f t with
  | _ n ih =>
    cases hfind : StackTrace.find s t with
    | none =>
      exact ⟨1, f, t, strrep_of_find_none 0 r hview hfind, hview,
        .done (find_eq_none_iff.mp hfind)⟩
    | some pos =>
      obtain ⟨u, v, rfl, rfl, hfirst⟩ := find_first hfind
      obtain ⟨b, rfl⟩ := view_eq_some_iff.mp hview
      obtain ⟨b', hreplace, -, -⟩ := replace_shorter b ht hr.le
      have hround := fun fuel => strrep_of_find fuel r hview hfind
      have hless : (u ++ (r ++ v)).length < (u ++ (s ++ v)).length := by
        simp only [List.length_append]
        omega
      obtain ⟨fuel, g, w, hrun, hg, hw⟩ := ih _ (hn ▸ hless) (view_named (u ++ (r ++ v)) b')
        (hless.le.trans ht) rfl
      refine ⟨fuel + 1, g, w, ?_, hg, .step hfirst hw⟩
      rw [hround, hreplace, hrun]

/-- Behind the place `u` of the first occurrence there is none when it has been written
    over by a text `w` that begins with a character missing behind `x` and `y` in the
    pattern, and in which `x` and `y` do not follow each other. -/
theorem not_infix_append {s₁ s₂ u v w : Bytes} {x y c : UInt8}
    (hfirst : ∀ j < u.length, ¬ s₁ ++ x :: y :: s₂ <+: (u ++ (s₁ ++ x :: y :: s₂ ++ v)).drop j)
    (hw : w.head? = some c) (hc : c ∉ y :: s₂) (hxy : ¬ [x, y] <:+: w) :
    ¬ s₁ ++ x :: y :: s₂ <:+: u ++ w := by
  rintro ⟨a, b, hab⟩
  have hsplit : (a ++ s₁) ++ (x :: y :: (s₂ ++ b)) = u ++ w := by
    rw [← hab]
    simp
  -- no occurrence ends inside `u`
  have hinside : ∀ k, u ≠ (a ++ s₁) ++ (x :: y :: (s₂ ++ k)) := by
    intro k hu
    refine hfirst a.length ?_ ?_
    · rw [hu]
      simp only [List.length_append, List.length_cons]
      omega
    · rw [hu]
      simp
  rcases List.append_eq_append_iff.mp hsplit with ⟨e, hu, he⟩ | ⟨e, -, he⟩
  · match e, he with
    | [], he => exact hxy ⟨[], s₂ ++ b, by simpa using he⟩
    | [_], he =>
      -- `w` begins with `y`
      obtain ⟨-, rfl⟩ := List.cons.inj he
      obtain rfl := Option.some.inj hw
      exact hc List.mem_cons_self
    | _ :: _ :: e, he =>
      simp only [List.cons_append, List.cons.injEq] at he
      obtain ⟨rfl, rfl, he⟩ := he
      rcases List.append_eq_append_iff.mp he with ⟨k, rfl, -⟩ | ⟨k, rfl, rfl⟩
      · exact hinside k hu
      · cases k with
        | nil => exact hinside [] (by simpa using hu)
        | cons d k =>
          obtain rfl := Option.some.inj hw
          exact hc (by simp)
  · exact hxy ⟨e, s₂ ++ b, by rw [he]; simp⟩

theorem not_infix_pair {r' z : Bytes} {x y : UInt8} (hr : ¬ [x, y] <:+: r') (hx : x ∉ z)
    (hy : y ∉ z) : ¬ [x, y] <:+: r' ++ z := by
  rintro ⟨a, b, hab⟩
  rw [List.append_assoc] at hab
  rcases List.append_eq_append_iff.mp hab with ⟨e, rfl, he⟩ | ⟨e, -, rfl⟩
  · match e, he with
    | [], he =>
      rw [List.nil_append] at he
      exact hx (he ▸ by simp)
    | [_], he =>
      obtain ⟨-, rfl⟩ := List.cons.inj he
      exact hy (by simp)
    | _ :: _ :: e, he =>
      simp only [List.cons_append, List.cons.injEq] at he
      obtain ⟨rfl, rfl, -⟩ := he
      exact hr ⟨a, e, by simp⟩
  · exact hx (by simp)

/-- The loop of a longer text ends after one round, if the pattern and the text go on
    differently behind `x`. -/
theorem strrep_longer_ends {s₁ s₂ r : Bytes} {x y c : UInt8}
    (hr : (s₁ ++ x :: y :: s₂).length < r.length) (hhead : r.head? = some c) (hc : c ∉ y :: s₂)
    (hxy : ¬ [x, y] <:+: r) (hx : x ∉ r.drop (s₁ ++ x :: y :: s₂).length)
    (hy : y ∉ r.drop (s₁ ++ x :: y :: s₂).length) (hview : f.view = some t)
    (ht : t.length ≤ npos) : ∃ fuel g, strrep fuel (s₁ ++ x :: y :: s₂) r f = some g := by
  cases hfind : StackTrace.find (s₁ ++ x :: y :: s₂) t with
  | none => exact ⟨1, f, strrep_of_find_none 0 r hview hfind⟩
  | some pos =>
    have hround := fun fuel => strrep_of_find fuel r hview hfind
    obtain ⟨u, v, rfl, rfl, hfirst⟩ := find_first hfind
    obtain ⟨b, rfl⟩ := view_eq_some_iff.mp hview
    obtain ⟨r', z, hr', hle, hmem, -, hreplace⟩ := replace_longer b ht hr
    have hpair : ¬ [x, y] <:+: r' ++ z :=
      not_infix_pair (fun h => hxy (h.trans hr'.isInfix)) (fun h => hx (hmem x h))
        fun h => hy (hmem y h)
    have hhead' : (r' ++ z).head? = some c := by
      obtain ⟨w, rfl⟩ := hr'
      cases r' with
      | nil => simp at hle
      | cons d r' => exact hhead
    have hnone := find_eq_none_iff.mpr (not_infix_append hfirst hhead' hc hpair)
    refine ⟨2, named (u ++ (r' ++ z)) b, ?_⟩
    rw [hround, hreplace, strrep_of_find_none 0 r (view_named _ b) hnone]

/-- With a longer text the name keeps its length. -/
theorem strrep_longer {fuel : ℕ} (hr : s.length < r.length) (hview : f.view = some t)
    (ht : t.length ≤ npos) (h : strrep fuel s r f = some g) :
    ∃ u, g.view = some u ∧ u.length = t.length := by
  induction fuel generalizing f t with
  | zero => cases h
  | succ fuel ih =>
    cases hfind : StackTrace.find s t with
    | none =>
      rw [strrep_of_find_none fuel r hview hfind] at h
      obtain rfl := Option.some.inj h
      exact ⟨t, hview, rfl⟩
    | some pos =>
      rw [strrep_of_find fuel r hview hfind] at h
      obtain ⟨u, v, rfl, rfl, -⟩ := find_first hfind
      obtain ⟨b, rfl⟩ := view_eq_some_iff.mp hview
      obtain ⟨r', z, -, -, -, hlength, hreplace⟩ := replace_longer b ht hr
      have hsame : (u ++ (r' ++ z)).length = (u ++ (s ++ v)).length := by
        rw [List.length_append, hlength, ← List.length_append]
      rw [hreplace] at h
      obtain ⟨w, hw, hsize⟩ := ih (view_named _ b) (hsame.trans_le ht) h
      exact ⟨w, hw, hsize.trans hsame⟩

/-! ## The pairs -/

/-- Two of the texts are longer than their patterns, and all others are shorter. -/
theorem pairs_cases : ∀ p ∈ pairs, (ascii p.2).length < (ascii p.1).length ∨
    p = ("::sleep_for<long>", "::sleep_for<seconds>") ∨
      p = ("::sleep_for<long,>", "::sleep_for<seconds>") := by
  decide +kernel

theorem strrep_ends {p : String × String} (hp : p ∈ pairs) (hview : f.view = some t)
    (ht : t.length ≤ npos) : ∃ fuel g, strrep fuel (ascii p.1) (ascii p.2) f = some g := by
  have hmarker : ¬ [60, 108] <:+: ascii "::sleep_for<seconds>" :=
    find_eq_none_iff.mp (by decide)
  rcases pairs_cases p hp with hlt | rfl | rfl
  · obtain ⟨fuel, g, -, hrun, -⟩ := strrep_shorter hlt hview ht
    exact ⟨fuel, g, hrun⟩
  · have hsplit :
        ascii "::sleep_for<long>" = ascii "::sleep_for" ++ 60 :: 108 :: ascii "ong>" := by
      decide
    rw [hsplit]
    exact strrep_longer_ends (by decide) rfl (by decide) hmarker (by decide) (by decide) hview ht
  · have hsplit :
        ascii "::sleep_for<long,>" = ascii "::sleep_for" ++ 60 :: 108 :: ascii "ong,>" := by
      decide
    rw [hsplit]
    exact strrep_longer_ends (by decide) rfl (by decide) hmarker (by decide) (by decide) hview ht

/-- Each loop of `strrep` ends, whatever the buffer holds: with a name that is not longer, as
    it is not after any round, and in which the pattern does not occur. -/
theorem strrep_stops {p : String × String} (hp : p ∈ pairs) (f : FunctionName)
    (hN : f.N ≤ f.function.length) (hsize : f.N ≤ npos) :
    (∃ fuel g u, strrep fuel (ascii p.1) (ascii p.2) f = some g ∧ g.view = some u ∧
      ¬ ascii p.1 <:+: u ∧ g.N ≤ f.N ∧
        Relation.ReflTransGen (StrrepRound (ascii p.1) (ascii p.2)) f g) ∧
    ∀ g h, Relation.ReflTransGen (StrrepRound (ascii p.1) (ascii p.2)) f g →
      StrrepRound (ascii p.1) (ascii p.2) g h → h.N ≤ g.N := by
  have hview : f.view = some (f.function.take f.N) := if_pos hN
  have hlength := length_of_view hview
  obtain ⟨fuel, g, hrun⟩ := strrep_ends hp hview (by omega)
  obtain ⟨⟨u, hu, hnone⟩, hrounds⟩ := strrep_rounds hrun
  exact ⟨⟨fuel, g, u, hrun, hu, hnone, N_le_of_rounds hrounds, hrounds⟩,
    fun g h _ hround => hround.N_le⟩

/-- A pair whose text is longer than its pattern. -/
theorem strrep_stops_sleepFor :
    ∃ fuel g u, strrep fuel (ascii "::sleep_for<long>") (ascii "::sleep_for<seconds>")
        (named (ascii "a::sleep_for<long>(b)") [0]) = some g ∧ g.view = some u ∧
      ¬ ascii "::sleep_for<long>" <:+: u ∧
        g.N ≤ (named (ascii "a::sleep_for<long>(b)") [0]).N := by
  obtain ⟨⟨fuel, g, u, hrun, hu, hnone, hle, -⟩, -⟩ :=
    strrep_stops (p := ("::sleep_for<long>", "::sleep_for<seconds>")) (by decide)
      (named (ascii "a::sleep_for<long>(b)") [0]) (by decide) (by decide)
  exact ⟨fuel, g, u, hrun, hu, hnone, hle⟩

theorem strrep_rewrites_iff {p : String × String} (hp : p ∈ pairs) (hview : f.view = some t)
    (ht : t.length ≤ npos) :
    (∃ fuel g u, strrep fuel (ascii p.1) (ascii p.2) f = some g ∧ g.view = some u ∧
        Rewrites (ascii p.1) (ascii p.2) t u) ↔
      (ascii p.2).length ≤ (ascii p.1).length ∨ ¬ ascii p.1 <:+: t := by
  constructor
  · rintro ⟨fuel, g, u, hrun, hg, hu⟩
    by_contra hnot
    rw [not_or, not_le, not_not] at hnot
    obtain ⟨hlonger, hinfix⟩ := hnot
    obtain ⟨w, hw, hlength⟩ := strrep_longer hlonger hview ht hrun
    obtain rfl := Option.some.inj (hg.symm.trans hw)
    exact absurd (hu.length_lt hlonger hinfix) (by omega)
  · rintro (hle | hinfix)
    · rcases pairs_cases p hp with hlt | rfl | rfl
      · exact strrep_shorter hlt hview ht
      · exact absurd hle (by decide)
      · exact absurd hle (by decide)
    · exact ⟨1, f, t, strrep_of_find_none 0 _ hview (find_eq_none_iff.mpr hinfix), hview,
        .done hinfix⟩

/-- A name whose two templates are closed without the blanks. -/
theorem strrep_rewrites_iff_templateSpace :
    ∃ fuel g u, strrep fuel (ascii " >") (ascii ">")
        (named (ascii "f<g<int > >(int)") [0]) = some g ∧ g.view = some u ∧
      Rewrites (ascii " >") (ascii ">") (ascii "f<g<int > >(int)") u :=
  (strrep_rewrites_iff (p := (" >", ">")) (by decide) (view_named _ _) (by decide)).mpr
    (.inl (by decide))

/-- The three characters behind `sleep_for<long>` are lost. -/
theorem sleepFor_not_rewritten :
    ("::sleep_for<long>", "::sleep_for<seconds>") ∈ pairs ∧
      ¬ ∃ fuel g u, strrep fuel (ascii "::sleep_for<long>") (ascii "::sleep_for<seconds>")
          (named (ascii "a::sleep_for<long>(b)") [0]) = some g ∧ g.view = some u ∧
        Rewrites (ascii "::sleep_for<long>") (ascii "::sleep_for<seconds>")
          (ascii "a::sleep_for<long>(b)") u := by
  refine ⟨by decide, ?_⟩
  rintro ⟨fuel, g, u, hrun, hg, hu⟩
  obtain ⟨w, hw, hlength⟩ := strrep_longer (by decide) (view_named _ _) (by decide) hrun
  obtain rfl := Option.some.inj (hg.symm.trans hw)
  exact absurd (hu.length_lt (by decide) ⟨ascii "a", ascii "(b)", by decide⟩) (by omega)

example : (strrep 2 (ascii "::sleep_for<long>") (ascii "::sleep_for<seconds>")
    (named (ascii "a::sleep_for<long>(b)") [0])).bind view =
      some (ascii "a::sleep_for<seconds>") := by
  decide +kernel

end FunctionName

end StackTrace
