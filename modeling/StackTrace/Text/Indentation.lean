import StackTrace.Text.Parse

/-!
# What the indentation of the lines says

`StackTrace.cpp`, lines 2259–2273. The indentations of the lines need not grow and shrink
in equal steps. A line goes below the last line before it that is less indented.

* `parents_nest`: the parents in the forest of the lines, in preorder.
* `generateFromLines_parents`: the same for the tree that `generateFromString` reads.
-/

namespace StackTrace

/-! ## Parents -/

/-- The last place in a list that holds less than `x`. -/
def lastBelow (x : ℤ) : List ℤ → Option ℕ
  | [] => none
  | y :: ys => ((lastBelow x ys).map (· + 1)).or (if y < x then some 0 else none)

/-- The last line before line `i` that is less indented. -/
def lastShallower (indents : List ℤ) (i : ℕ) : Option ℕ :=
  (indents[i]?).bind fun x => lastBelow x (indents.take i)

theorem lastBelow_eq_none {x : ℤ} {ys : List ℤ} : lastBelow x ys = none ↔ ∀ y ∈ ys, x ≤ y := by
  induction ys with
  | nil => simp [lastBelow]
  | cons y ys ih => simp [lastBelow, ih, and_comm]

/-- `lastBelow` is what its name says. -/
theorem lastBelow_eq_some {x : ℤ} {ys : List ℤ} {k : ℕ} :
    lastBelow x ys = some k ↔
      (∃ y, ys[k]? = some y ∧ y < x) ∧ ∀ m y, k < m → ys[m]? = some y → x ≤ y := by
  induction ys generalizing k with
  | nil => simp [lastBelow]
  | cons y ys ih =>
    rw [lastBelow]
    cases hys : lastBelow x ys with
    | none =>
      have hall := lastBelow_eq_none.mp hys
      cases k with
      | zero =>
        have hlater : ∀ m z, 0 < m → (y :: ys)[m]? = some z → x ≤ z := by
          intro m z hm hz
          obtain ⟨m, rfl⟩ := Nat.exists_eq_succ_of_ne_zero hm.ne'
          exact hall z (List.mem_of_getElem? hz)
        simpa using fun _ => hlater
      | succ k =>
        have hnot : ¬ ∃ z, ys[k]? = some z ∧ z < x := by
          rintro ⟨z, hz, hlt⟩
          exact absurd (hall z (List.mem_of_getElem? hz)) (by omega)
        simp only [List.getElem?_cons_succ, hnot, false_and]
        split_ifs <;> simp
    | some k' =>
      obtain ⟨⟨z, hz, hlt⟩, hlater⟩ := ih.mp hys
      cases k with
      | zero =>
        refine iff_of_false (by simp) ?_
        rintro ⟨-, h⟩
        exact absurd (h (k' + 1) z (by omega) hz) (by omega)
      | succ k =>
        have hshift : (∀ m y', k + 1 < m → (y :: ys)[m]? = some y' → x ≤ y') ↔
            ∀ m y', k < m → ys[m]? = some y' → x ≤ y' := by
          constructor
          · exact fun h m y' hm hy' => h (m + 1) y' (by omega) hy'
          · intro h m y' hm hy'
            obtain ⟨m, rfl⟩ := Nat.exists_eq_succ_of_ne_zero (show m ≠ 0 by omega)
            exact h m y' (by omega) hy'
        rw [List.getElem?_cons_succ, hshift, ← ih, hys]
        simp

/-- What is behind comes first. -/
theorem lastBelow_append (x : ℤ) (ys zs : List ℤ) :
    lastBelow x (ys ++ zs) = ((lastBelow x zs).map (ys.length + ·)).or (lastBelow x ys) := by
  induction ys with
  | nil => simp [lastBelow]
  | cons y ys ih =>
    rw [List.cons_append, lastBelow, lastBelow, ih]
    cases lastBelow x zs <;> simp [add_right_comm]

namespace MultiStackInfo

mutual

/-- The parents of the nodes below `t`, the node with the number `start`. -/
def parentsBelow (start : ℕ) : MultiStackInfo → List (Option ℕ)
  | ⟨_, _, children⟩ => parents (some start) (start + 1) children

/-- The parents of the nodes of a forest, in preorder. The nodes are numbered in preorder
    from `start` on, and `parent` is the one of the roots. -/
def parents (parent : Option ℕ) (start : ℕ) : List MultiStackInfo → List (Option ℕ)
  | [] => []
  | c :: cs => parent :: (c.parentsBelow start ++ parents parent (start + 1 + nodes c.children) cs)

end

theorem parents_cons (parent : Option ℕ) (start : ℕ) (c : MultiStackInfo)
    (cs : List MultiStackInfo) :
    parents parent start (c :: cs) = parent :: (parents (some start) (start + 1) c.children ++
      parents parent (start + 1 + nodes c.children) cs) := by
  rw [parents]
  cases c
  rfl

/-- The parents that the indentations give, from the number `start` on. -/
def parentsOf (parent : Option ℕ) (start : ℕ) (indents : List ℤ) : List (Option ℕ) :=
  (List.range indents.length).map fun i =>
    ((lastShallower indents i).map (start + ·)).or parent

/-- A line below the first one, with the lines `sub` between them. -/
theorem lastBelow_deeper {x j : ℤ} (h : j < x) (sub : List ℤ) :
    lastBelow x (j :: sub) = ((lastBelow x sub).map (· + 1)).or (some 0) := by
  rw [lastBelow, if_pos h]

/-- A line that is not deeper than the first one, behind the deeper lines `sub` and the lines
    `before`. -/
theorem lastBelow_not_deeper {x j : ℤ} {sub before : List ℤ} (hsub : ∀ y ∈ sub, j < y)
    (hx : lastBelow x before = none → x ≤ j) :
    lastBelow x (j :: (sub ++ before)) = (lastBelow x before).map (sub.length + 1 + ·) := by
  rw [lastBelow, lastBelow_append]
  cases hbefore : lastBelow x before with
  | none =>
    have hle := hx hbefore
    have hnone : lastBelow x sub = none := lastBelow_eq_none.mpr fun y hy => by
      have := hsub y hy
      omega
    rw [hnone, if_neg (by omega)]
    rfl
  | some k => simp [add_right_comm]

/-- The lines deeper than the first one, and then one that is not deeper. -/
theorem parentsOf_cons (parent : Option ℕ) (start : ℕ) {j : ℤ} {sub others : List ℤ}
    (hsub : ∀ x ∈ sub, j < x) (hothers : ∀ x ∈ others.head?, x ≤ j) :
    parentsOf parent start (j :: (sub ++ others)) =
      parent :: (parentsOf (some start) (start + 1) sub ++
        parentsOf parent (start + 1 + sub.length) others) := by
  have hlength : (j :: (sub ++ others)).length = 1 + (sub.length + others.length) := by
    simp [add_comm]
  unfold parentsOf
  rw [hlength, List.range_add, List.map_append, List.range_add, List.map_append, List.map_append]
  simp only [List.map_map, List.range_one, List.map_cons, List.map_nil, List.singleton_append]
  have hfirst : lastShallower (j :: (sub ++ others)) 0 = none := rfl
  rw [hfirst]
  congr 2
  · refine List.map_congr_left fun i hi => ?_
    have hi : i < sub.length := List.mem_range.mp hi
    have hget : (j :: (sub ++ others))[1 + i]? = some sub[i] := by
      rw [Nat.add_comm, List.getElem?_cons_succ, List.getElem?_append_left hi,
        List.getElem?_eq_getElem hi]
    have htake : (j :: (sub ++ others)).take (1 + i) = j :: sub.take i := by
      rw [Nat.add_comm, List.take_succ_cons, List.take_append_of_le_length hi.le]
    simp only [Function.comp, lastShallower, hget, htake, List.getElem?_eq_getElem hi,
      Option.bind_some, lastBelow_deeper (hsub _ (List.getElem_mem hi))]
    cases lastBelow sub[i] (sub.take i) with
    | none => rfl
    | some k =>
      simp only [Option.map_some, Option.some_or, Option.some.injEq]
      omega
  · refine List.map_congr_left fun i hi => ?_
    have hi : i < others.length := List.mem_range.mp hi
    have hget : (j :: (sub ++ others))[1 + (sub.length + i)]? = some others[i] := by
      rw [Nat.add_comm, List.getElem?_cons_succ, List.getElem?_append_right (by omega),
        Nat.add_sub_cancel_left, List.getElem?_eq_getElem hi]
    have htake : (j :: (sub ++ others)).take (1 + (sub.length + i)) =
        j :: (sub ++ others.take i) := by
      rw [Nat.add_comm, List.take_succ_cons, List.take_length_add_append]
    -- without a shallower line among the others it is not deeper than their first line
    have hle : lastBelow others[i] (others.take i) = none → others[i] ≤ j := by
      intro hnone
      obtain ⟨x, xs, rfl⟩ := List.exists_cons_of_length_pos (Nat.zero_lt_of_lt hi)
      have hx : x ≤ j := hothers x rfl
      cases i with
      | zero => exact hx
      | succ i => exact (lastBelow_eq_none.mp hnone x (by simp)).trans hx
    simp only [Function.comp, lastShallower, hget, htake, List.getElem?_eq_getElem hi,
      Option.bind_some, lastBelow_not_deeper hsub hle]
    cases lastBelow others[i] (others.take i) with
    | none => rfl
    | some k =>
      simp only [Option.map_some, Option.some_or, Option.some.injEq]
      omega

/-- In the forest of the lines the parents are those that the indentations give. -/
theorem parents_nest {lines : List (ℤ × MultiStackInfo)} (hleaf : ∀ l ∈ lines, l.2.children = [])
    (parent : Option ℕ) (start : ℕ) :
    parents parent start (nest lines) = parentsOf parent start (lines.map Prod.fst) := by
  induction lines using nest.induct generalizing parent start with
  | case1 => rw [nest]; rfl
  | case2 j x rest ih1 ih2 =>
    obtain ⟨hsub, hothers, hrest⟩ := split_deeper j rest
    rw [nest_cons, parents_cons]
    generalize (rest.takeWhile fun l => decide (j < l.1)) = sub at *
    generalize (rest.dropWhile fun l => decide (j < l.1)) = others at *
    subst hrest
    have hx : x.children = [] := hleaf (j, x) (by simp)
    have hsubleaf : ∀ l ∈ sub, l.2.children = [] := fun l hl => hleaf l (by simp [hl])
    have hhead : ∀ i ∈ (others.map Prod.fst).head?, i ≤ j := by
      intro i hi
      rw [List.head?_map] at hi
      obtain ⟨l, hl, rfl⟩ := Option.map_eq_some_iff.mp hi
      exact hothers l hl
    rw [List.map_cons, List.map_append, parentsOf_cons parent start (by simpa using hsub) hhead,
      ← ih1 hsubleaf, List.length_map, ← ih2 fun l hl => hleaf l (by simp [hl])]
    simp only [hx, List.nil_append, nodes_nest hsubleaf]

end MultiStackInfo

/-! ## The tree of a text -/

open MultiStackInfo

/-- The lines of the text are frames, with these indentations and nodes. -/
def FrameLines (text : List Bytes) (lines : List (ℤ × MultiStackInfo)) : Prop :=
  List.Forall₂ (fun str line => scanLine str = some (some line)) text lines

theorem FrameLines.scanLines {text : List Bytes} {lines : List (ℤ × MultiStackInfo)}
    (h : FrameLines text lines) : scanLines text = some lines := by
  induction h with
  | nil => rfl
  | cons hline _ ih =>
    rw [StackTrace.scanLines, hline, ih]
    rfl

/-- `generateFromString` of frame lines: one node for each line, in preorder, below the last
    line before it that is less indented. -/
theorem generateFromLines_parents {text : List Bytes} {lines : List (ℤ × MultiStackInfo)}
    (hlines : FrameLines text lines) (hnonneg : ∀ l ∈ lines, 0 ≤ l.1)
    (hhead : ∀ l ∈ lines.head?, l.1 = 0) :
    ∃ t, generateFromLines text = some t ∧ nodes t.children = text.length ∧
      (preorder t.children).map (fun n => (n.N, n.stack)) =
        lines.map (fun l => (l.2.N, l.2.stack)) ∧
      parents none 0 t.children =
        (List.range text.length).map (lastShallower (lines.map Prod.fst)) := by
  have hleaf := leaf_scanLines hlines.scanLines
  have hlength : text.length = lines.length := hlines.length_eq
  refine ⟨{ init with children := nest lines }, ?_, ?_, entries_nest hleaf, ?_⟩
  · show (StackTrace.scanLines text).bind hierarchy = _
    rw [hlines.scanLines, Option.bind_some, hierarchy_eq lines hnonneg hhead]
  · rw [hlength]
    exact nodes_nest hleaf
  · show parents none 0 (nest lines) = _
    rw [parents_nest hleaf, parentsOf, List.length_map, hlength]
    refine List.map_congr_left fun i _ => ?_
    cases lastShallower (lines.map Prod.fst) i <;> simp

/-- The frames of a text in which every line is a frame. -/
theorem frameLines_filterMap {text : List Bytes} (h : ∀ str ∈ text, (scanLine str).join.isSome) :
    FrameLines text (text.filterMap fun str => (scanLine str).join) := by
  induction text with
  | nil => exact .nil
  | cons str text ih =>
    obtain ⟨line, hline⟩ := Option.isSome_iff_exists.mp (h str (by simp))
    rw [List.filterMap_cons, hline]
    exact .cons (Option.join_eq_some_iff.mp hline) (ih fun str hstr => h str (by simp [hstr]))

/-- Frames at the columns 0, 4, 2, 4 and 0. -/
def irregularText : List Bytes :=
  [ascii "[3] 0x01:  a.out  main", ascii "    [2] 0x02:  a.out  f", ascii "  [1] 0x03:  a.out  g",
    ascii "    [1] 0x04:  a.out  h", ascii "[1] 0x05:  a.out  thread"]

theorem generateFromLines_parents_irregular :
    ∃ t, generateFromLines irregularText = some t ∧ nodes t.children = 5 ∧
      parents none 0 t.children = [none, some 0, some 0, some 2, none] := by
  have hlines : FrameLines irregularText _ := frameLines_filterMap (by decide +kernel)
  obtain ⟨t, ht, hnodes, -, hparents⟩ :=
    generateFromLines_parents hlines (by decide +kernel) (by decide +kernel)
  refine ⟨t, ht, hnodes, ?_⟩
  rw [hparents]
  decide +kernel

end StackTrace
