import StackTrace.Tree.Basic

/-!
# From indented lines to a tree

`StackTrace.cpp`, lines 2258–2272. The lines are put into the tree one after the
other. `map` holds the lists of children that are still open, each with its
indentation; a line closes those that are deeper than it is, and goes to the
list of its own indentation or below the last node of the deepest list.

* `hierarchy_eq`: if the first line is not indented and no indentation is
  negative, each line ends up below the last one before it that is less indented.
* `hierarchy_eq_some`: it fails for all other lists of lines.
* `stacks_nest`: the frames of the tree are those of the lines, in their order.
-/

namespace StackTrace

namespace MultiStackInfo

/-! ## Pointers to lists of children -/

/-- The list that `p` points to. A `std::vector<multi_stack_info> *` is the way
    down to the node that the list belongs to, by positions among its siblings.
    A list that grows moves its nodes, and pointers to the lists below it are no
    longer valid then; but it is the last list in `map` that grows, or the one
    below its last node, and no pointer in `map` leads further down. -/
def childrenAt : (cs : List MultiStackInfo) → (p : List ℕ) → Option (List MultiStackInfo)
  | cs, [] => some cs
  | cs, k :: p => cs[k]?.bind fun c => childrenAt c.children p

/-- The tree after a change of the list that `p` points to. -/
def modifyAt (f : List MultiStackInfo → List MultiStackInfo) :
    (cs : List MultiStackInfo) → (p : List ℕ) → List MultiStackInfo
  | cs, [] => f cs
  | cs, k :: p => cs.modify k fun c => { c with children := modifyAt f c.children p }

theorem childrenAt_append (cs : List MultiStackInfo) (p q : List ℕ) :
    childrenAt cs (p ++ q) = (childrenAt cs p).bind fun ds => childrenAt ds q := by
  induction p generalizing cs with
  | nil => rfl
  | cons k p ih =>
    rw [List.cons_append, childrenAt, childrenAt]
    cases cs[k]? with
    | none => rfl
    | some c => exact ih c.children

theorem modifyAt_append (f : List MultiStackInfo → List MultiStackInfo) (cs : List MultiStackInfo)
    (p q : List ℕ) : modifyAt f cs (p ++ q) = modifyAt (fun ds => modifyAt f ds q) cs p := by
  induction p generalizing cs with
  | nil => rfl
  | cons k p ih =>
    rw [List.cons_append, modifyAt, modifyAt]
    simp only [ih]

theorem modifyAt_modifyAt (f g : List MultiStackInfo → List MultiStackInfo)
    (cs : List MultiStackInfo) (p : List ℕ) :
    modifyAt g (modifyAt f cs p) p = modifyAt (fun ds => g (f ds)) cs p := by
  induction p generalizing cs with
  | nil => rfl
  | cons k p ih =>
    rw [modifyAt, modifyAt, modifyAt, List.modify_modify_eq]
    congr 1
    funext c
    simp only [Function.comp, ih]

theorem childrenAt_modifyAt {f : List MultiStackInfo → List MultiStackInfo}
    {cs ds : List MultiStackInfo} {p : List ℕ} (h : childrenAt cs p = some ds) :
    childrenAt (modifyAt f cs p) p = some (f ds) := by
  induction p generalizing cs with
  | nil =>
    obtain rfl := Option.some.inj h
    rfl
  | cons k p ih =>
    rw [childrenAt] at h
    obtain ⟨c, hc, hds⟩ := Option.bind_eq_some_iff.mp h
    rw [modifyAt, childrenAt, List.getElem?_modify, hc]
    simpa using ih hds

/-! ## Model -/

/-- `stack2.children` and `map`, with `map.back()` first. -/
structure Hierarchy where
  children : List MultiStackInfo
  map : List (ℤ × List ℕ)

/-- One round of the loop (lines 2263–2271). It fails where the code would call
    `back()` on an empty list. -/
def addLine (h : Hierarchy) (line : ℤ × MultiStackInfo) : Option Hierarchy :=
  match h.map.dropWhile fun e => line.1 < e.1 with
  | [] => none
  | (first, second) :: map =>
    if line.1 = first then
      some ⟨modifyAt (· ++ [line.2]) h.children second, (first, second) :: map⟩
    else do
      let siblings ← childrenAt h.children second
      if siblings.isEmpty then none
      else
        let back := second ++ [siblings.length - 1]
        some ⟨modifyAt (· ++ [line.2]) h.children back,
          (line.1, back) :: (first, second) :: map⟩

/-- Lines 2259–2273: the tree with the nodes of the lines below its root. -/
def hierarchy (lines : List (ℤ × MultiStackInfo)) : Option MultiStackInfo := do
  let h ← lines.foldlM addLine ⟨[], [(0, [])]⟩
  some { init with children := h.children }

/-! ## What it builds -/

/-- The forest in which the lines stand in preorder and each one is below the last
    one before it that is less indented. -/
def nest : List (ℤ × MultiStackInfo) → List MultiStackInfo
  | [] => []
  | (i, x) :: rest =>
    { x with children := x.children ++ nest (rest.takeWhile fun l => i < l.1) } ::
      nest (rest.dropWhile fun l => i < l.1)
  termination_by lines => lines.length
  decreasing_by
    · exact Nat.lt_succ_of_le (List.takeWhile_prefix _).length_le
    · exact Nat.lt_succ_of_le (List.dropWhile_suffix _).length_le

theorem nest_cons (i : ℤ) (x : MultiStackInfo) (rest : List (ℤ × MultiStackInfo)) :
    nest ((i, x) :: rest) =
      { x with children := x.children ++ nest (rest.takeWhile fun l => i < l.1) } ::
        nest (rest.dropWhile fun l => i < l.1) := by
  rw [nest]

/-- The tree in which the list at `p` is `ds`. -/
def setAt (cs : List MultiStackInfo) (p : List ℕ) (ds : List MultiStackInfo) :
    List MultiStackInfo :=
  modifyAt (fun _ => ds) cs p

variable {cs ds : List MultiStackInfo} {p : List ℕ} {x : MultiStackInfo}

theorem childrenAt_setAt (h : (childrenAt cs p).isSome) :
    childrenAt (setAt cs p ds) p = some ds := by
  obtain ⟨es, hes⟩ := Option.isSome_iff_exists.mp h
  exact childrenAt_modifyAt hes

theorem modifyAt_setAt (f : List MultiStackInfo → List MultiStackInfo) :
    modifyAt f (setAt cs p ds) p = setAt cs p (f ds) :=
  modifyAt_modifyAt _ _ cs p

/-- The children of the last node of a list. -/
theorem childrenAt_back (h : childrenAt cs p = some (ds ++ [x])) :
    childrenAt cs (p ++ [ds.length]) = some x.children := by
  rw [childrenAt_append, h]
  simp [childrenAt]

theorem modify_back (ds : List MultiStackInfo) (x : MultiStackInfo)
    (f : MultiStackInfo → MultiStackInfo) :
    (ds ++ [x]).modify ds.length f = ds ++ [f x] := by
  induction ds with
  | nil => rfl
  | cons d ds ih =>
    rw [List.cons_append, List.length_cons, List.modify_succ_cons, ih, List.cons_append]

theorem setAt_back (cs ds es : List MultiStackInfo) (p : List ℕ) (x : MultiStackInfo) :
    setAt (setAt cs p (ds ++ [x])) (p ++ [ds.length]) es =
      setAt cs p (ds ++ [{ x with children := es }]) := by
  unfold setAt
  rw [modifyAt_append, modifyAt_modifyAt]
  simp only [modifyAt, modify_back]

/-- `p` points to a list whose last node is at position `k`. -/
def HasBack (cs : List MultiStackInfo) (p : List ℕ) (k : ℕ) : Prop :=
  ∃ es y, childrenAt cs p = some (es ++ [y]) ∧ es.length = k

theorem hasBack_setAt {k : ℕ} (h : HasBack cs p k) (ds : List MultiStackInfo) :
    HasBack (setAt cs (p ++ [k]) ds) p k := by
  obtain ⟨es, y, hp, rfl⟩ := h
  refine ⟨es, { y with children := ds }, ?_, rfl⟩
  unfold setAt
  rw [modifyAt_append, childrenAt_modifyAt hp]
  simp only [modifyAt, modify_back]

/-! ## One line -/

/-- What is in `map` above the list at `p`, of indentation `i`, when a line of
    indentation `j` comes: nothing, or the list `q` below the last node there,
    which is at least as deep as the line, and deeper ones. -/
def Opened (i : ℤ) (q : List ℕ) (j : ℤ) (above : List (ℤ × List ℕ)) : Prop :=
  above = [] ∨ ∃ deeper j', above = deeper ++ [(j', q)] ∧ i < j' ∧ j ≤ j' ∧ ∀ e ∈ deeper, j' < e.1

/-- A line that is deeper than the list at `p` goes below the last node there. -/
theorem addLine_deeper {i j : ℤ} {k : ℕ} {above below : List (ℤ × List ℕ)} (hp : HasBack cs p k)
    (hij : i < j) (habove : Opened i (p ++ [k]) j above) :
    addLine ⟨setAt cs (p ++ [k]) ds, above ++ (i, p) :: below⟩ (j, x) =
      some ⟨setAt cs (p ++ [k]) (ds ++ [x]), (j, p ++ [k]) :: (i, p) :: below⟩ := by
  obtain ⟨es, y, hes, hk⟩ := hasBack_setAt hp ds
  have hkeep : ((i, p) :: below).dropWhile (fun e => decide (j < e.1)) = (i, p) :: below :=
    List.dropWhile_cons_of_neg (by simp; omega)
  -- the deepest list that is left is the one at `p`
  have hback : ∀ map : List (ℤ × List ℕ),
      map.dropWhile (fun e => decide (j < e.1)) = (i, p) :: below →
      addLine ⟨setAt cs (p ++ [k]) ds, map⟩ (j, x) =
        some ⟨setAt cs (p ++ [k]) (ds ++ [x]), (j, p ++ [k]) :: (i, p) :: below⟩ := by
    intro map hmap
    unfold addLine
    simp only [hmap]
    rw [if_neg (by omega), hes]
    simp [hk, modifyAt_setAt]
  obtain rfl | ⟨deeper, j', rfl, hij', hjj', hdeeper⟩ := habove
  · exact hback _ hkeep
  · have hdrop : (deeper ++ [(j', p ++ [k])] ++ (i, p) :: below).dropWhile
        (fun e => decide (j < e.1)) =
          ((j', p ++ [k]) :: (i, p) :: below).dropWhile fun e => decide (j < e.1) := by
      rw [List.append_assoc]
      exact List.dropWhile_append_of_pos fun e he => by
        have := hdeeper e he
        simp
        omega
    by_cases hj : j < j'
    · refine hback _ ?_
      rw [hdrop, List.dropWhile_cons_of_pos (by simpa using hj), hkeep]
    · obtain rfl : j = j' := by omega
      rw [List.dropWhile_cons_of_neg (by simp)] at hdrop
      unfold addLine
      simp only [hdrop]
      simp [modifyAt_setAt]

/-! ## All lines -/

/-- The lines that are deeper than `j`, and the others from the first that is not. -/
theorem split_deeper (j : ℤ) (lines : List (ℤ × MultiStackInfo)) :
    (∀ l ∈ lines.takeWhile fun l => decide (j < l.1), j < l.1) ∧
      (∀ l ∈ (lines.dropWhile fun l => decide (j < l.1)).head?, l.1 ≤ j) ∧
      (lines.takeWhile fun l => decide (j < l.1)) ++ (lines.dropWhile fun l => decide (j < l.1)) =
        lines := by
  refine ⟨fun l hl => by simpa using List.mem_takeWhile_imp hl, fun l hl => ?_,
    List.takeWhile_append_dropWhile⟩
  have h := List.head?_dropWhile_not (fun l : ℤ × MultiStackInfo => decide (j < l.1)) lines
  rw [Option.mem_def.mp hl] at h
  simpa using h

/-- The lines, which are all deeper than the list at `p`, build a forest below the
    last node there. -/
def BuildBelow (lines : List (ℤ × MultiStackInfo)) : Prop :=
  ∀ (cs ds : List MultiStackInfo) (p : List ℕ) (i : ℤ) (k : ℕ) (above below : List (ℤ × List ℕ)),
    HasBack cs p k → (∀ l ∈ lines, i < l.1) → (∀ l ∈ lines.head?, Opened i (p ++ [k]) l.1 above) →
    (∀ e ∈ above, i < e.1) →
    ∃ above', (∀ e ∈ above', i < e.1) ∧
      lines.foldlM addLine ⟨setAt cs (p ++ [k]) ds, above ++ (i, p) :: below⟩ =
        some ⟨setAt cs (p ++ [k]) (ds ++ nest lines), above' ++ (i, p) :: below⟩

/-- The lines that follow `x` and are deeper go below it. -/
theorem BuildBelow.run {sub : List (ℤ × MultiStackInfo)} (h : BuildBelow sub) {q : List ℕ}
    (hq : (childrenAt cs q).isSome) {j : ℤ} (hsub : ∀ l ∈ sub, j < l.1)
    (below : List (ℤ × List ℕ)) :
    ∃ above', (∀ e ∈ above', j < e.1) ∧
      sub.foldlM addLine ⟨setAt cs q (ds ++ [x]), (j, q) :: below⟩ =
        some ⟨setAt cs q (ds ++ [{ x with children := x.children ++ nest sub }]),
          above' ++ (j, q) :: below⟩ := by
  have hback : HasBack (setAt cs q (ds ++ [x])) q ds.length := ⟨ds, x, childrenAt_setAt hq, rfl⟩
  have hsame : setAt (setAt cs q (ds ++ [x])) (q ++ [ds.length]) x.children =
      setAt cs q (ds ++ [x]) := by
    rw [setAt_back]
    cases x
    rfl
  have hrun := h (setAt cs q (ds ++ [x])) x.children q j ds.length [] below hback hsub
    (fun _ _ => .inl rfl) (by simp)
  rwa [hsame, setAt_back] at hrun

theorem buildBelow (lines : List (ℤ × MultiStackInfo)) : BuildBelow lines := by
  induction lines using nest.induct with
  | case1 =>
    intro cs ds p i k above below _ _ _ hdeep
    exact ⟨above, hdeep, by simp [nest]⟩
  | case2 j x rest ih1 ih2 =>
    intro cs ds p i k above below hp h habove hdeep
    have hij : i < j := h (j, x) (by simp)
    have hq : (childrenAt cs (p ++ [k])).isSome := by
      obtain ⟨es, y, hes, rfl⟩ := hp
      rw [childrenAt_back hes]
      rfl
    have hstep : addLine ⟨setAt cs (p ++ [k]) ds, above ++ (i, p) :: below⟩ (j, x) =
        some ⟨setAt cs (p ++ [k]) (ds ++ [x]), (j, p ++ [k]) :: (i, p) :: below⟩ :=
      addLine_deeper hp hij (habove (j, x) rfl)
    obtain ⟨h1, h2, hrest⟩ := split_deeper j rest
    rw [nest_cons]
    generalize (rest.takeWhile fun l => decide (j < l.1)) = sub at *
    generalize (rest.dropWhile fun l => decide (j < l.1)) = others at *
    subst hrest
    obtain ⟨above1, hdeep1, hrun1⟩ := ih1.run hq h1 ((i, p) :: below)
    have hdeep1' : ∀ e ∈ above1 ++ [(j, p ++ [k])], i < e.1 := by
      intro e he
      rcases List.mem_append.mp he with he | he
      · exact hij.trans (hdeep1 e he)
      · obtain rfl := List.mem_singleton.mp he
        exact hij
    -- the lines after those below `x`
    obtain ⟨above2, hdeep2, hrun2⟩ := ih2 cs
      (ds ++ [{ x with children := x.children ++ nest sub }]) p i k (above1 ++ [(j, p ++ [k])])
      below hp (fun l hl => h l (by simp [hl]))
      (fun l hl => .inr ⟨above1, j, rfl, hij, h2 l hl, hdeep1⟩) hdeep1'
    refine ⟨above2, hdeep2, ?_⟩
    rw [List.append_assoc, List.append_assoc] at hrun2
    rw [List.foldlM_cons, hstep]
    show (sub ++ others).foldlM addLine _ = _
    rw [List.foldlM_append, hrun1]
    exact hrun2

/-- The lines build a forest behind the nodes that the root has already. -/
theorem foldlM_addLine (lines : List (ℤ × MultiStackInfo)) (h : ∀ l ∈ lines, 0 ≤ l.1)
    (hhead : ∀ l ∈ lines.head?, l.1 = 0) {above : List (ℤ × List ℕ)}
    (hdeep : ∀ e ∈ above, 0 < e.1) :
    ∃ map, lines.foldlM addLine ⟨ds, above ++ [(0, [])]⟩ = some ⟨ds ++ nest lines, map⟩ := by
  induction lines using nest.induct generalizing ds above with
  | case1 => exact ⟨above ++ [(0, [])], by simp [nest]⟩
  | case2 j x rest ih1 ih2 =>
    obtain rfl : j = 0 := hhead (j, x) rfl
    have hstep : addLine ⟨ds, above ++ [(0, [])]⟩ (0, x) = some ⟨ds ++ [x], [(0, [])]⟩ := by
      have hdrop : (above ++ [(0, [])]).dropWhile (fun e : ℤ × List ℕ => decide (0 < e.1)) =
          [(0, [])] := by
        rw [List.dropWhile_append_of_pos fun e he => by simpa using hdeep e he]
        rfl
      unfold addLine
      simp only [hdrop]
      rfl
    obtain ⟨h1, h2, hrest⟩ := split_deeper 0 rest
    rw [nest_cons]
    generalize (rest.takeWhile fun l => decide (0 < l.1)) = sub at *
    generalize (rest.dropWhile fun l => decide (0 < l.1)) = others at *
    subst hrest
    have hroot : (childrenAt ds []).isSome := rfl
    have hrun : ∃ above', (∀ e ∈ above', (0 : ℤ) < e.1) ∧
        sub.foldlM addLine ⟨ds ++ [x], [(0, [])]⟩ =
          some ⟨ds ++ [{ x with children := x.children ++ nest sub }], above' ++ [(0, [])]⟩ :=
      (buildBelow sub).run hroot h1 []
    obtain ⟨above1, hdeep1, hrun1⟩ := hrun
    have hothers : ∀ l ∈ others.head?, l.1 = 0 := by
      intro l hl
      have hle := h l (by simp [List.mem_of_mem_head? hl])
      have hge := h2 l hl
      omega
    obtain ⟨map, hrun2⟩ := ih2 (fun l hl => h l (by simp [hl])) hothers hdeep1
    refine ⟨map, ?_⟩
    rw [List.append_assoc] at hrun2
    rw [List.foldlM_cons, hstep]
    show (sub ++ others).foldlM addLine _ = _
    rw [List.foldlM_append, hrun1]
    exact hrun2

/-! ## Main result -/

/-- The tree below the root is `nest` of the lines. -/
theorem hierarchy_eq (lines : List (ℤ × MultiStackInfo)) (h : ∀ l ∈ lines, 0 ≤ l.1)
    (hhead : ∀ l ∈ lines.head?, l.1 = 0) :
    hierarchy lines = some { init with children := nest lines } := by
  have hrun : ∃ map, lines.foldlM addLine ⟨[], [] ++ [(0, [])]⟩ = some ⟨[] ++ nest lines, map⟩ :=
    foldlM_addLine lines h hhead (by simp)
  obtain ⟨map, hrun⟩ := hrun
  rw [List.nil_append, List.nil_append] at hrun
  unfold hierarchy
  rw [hrun]
  rfl

/-! ## The other lists of lines -/

/-- A line that is taken is not indented negatively, and neither is an open list. -/
theorem addLine_nonneg {h h' : Hierarchy} {line : ℤ × MultiStackInfo} (hmap : ∀ e ∈ h.map, 0 ≤ e.1)
    (hline : addLine h line = some h') : 0 ≤ line.1 ∧ ∀ e ∈ h'.map, 0 ≤ e.1 := by
  unfold addLine at hline
  split at hline
  · cases hline
  · rename_i first second map hdrop
    have hopen : ∀ e ∈ (first, second) :: map, 0 ≤ e.1 := by
      intro e he
      rw [← hdrop] at he
      exact hmap e ((List.dropWhile_suffix _).subset he)
    have hfirst : 0 ≤ first := hopen (first, second) (by simp)
    have hle : first ≤ line.1 := by
      have h := List.head?_dropWhile_not (fun e : ℤ × List ℕ => decide (line.1 < e.1)) h.map
      rw [hdrop] at h
      simpa using h
    refine ⟨by omega, ?_⟩
    split_ifs at hline with heq
    · obtain rfl := Option.some.inj hline
      exact hopen
    · obtain ⟨siblings, -, hline⟩ := Option.bind_eq_some_iff.mp hline
      split_ifs at hline
      obtain rfl := Option.some.inj hline
      intro e he
      obtain rfl | he := List.mem_cons.mp he
      · show 0 ≤ line.1
        omega
      · exact hopen e he

theorem foldlM_addLine_nonneg {lines : List (ℤ × MultiStackInfo)} {h h' : Hierarchy}
    (hmap : ∀ e ∈ h.map, 0 ≤ e.1) (hrun : lines.foldlM addLine h = some h') :
    ∀ l ∈ lines, 0 ≤ l.1 := by
  induction lines generalizing h with
  | nil => simp
  | cons line lines ih =>
    rw [List.foldlM_cons] at hrun
    obtain ⟨h₁, hline, hrun⟩ := Option.bind_eq_some_iff.mp hrun
    obtain ⟨hnonneg, hmap₁⟩ := addLine_nonneg hmap hline
    intro l hl
    obtain rfl | hl := List.mem_cons.mp hl
    · exact hnonneg
    · exact ih hmap₁ hrun l hl

/-- The first line finds the list below the root empty. -/
theorem addLine_first {line : ℤ × MultiStackInfo} {h : Hierarchy}
    (hline : addLine ⟨[], [(0, [])]⟩ line = some h) : line.1 = 0 := by
  have hnonneg : 0 ≤ line.1 := (addLine_nonneg (by simp) hline).1
  by_contra hne
  have hdrop : [((0 : ℤ), ([] : List ℕ))].dropWhile (fun e => decide (line.1 < e.1)) = [(0, [])] :=
    List.dropWhile_cons_of_neg (by simpa using hnonneg)
  unfold addLine at hline
  simp only [hdrop] at hline
  rw [if_neg hne] at hline
  cases hline

theorem hierarchy_eq_some {lines : List (ℤ × MultiStackInfo)} {t : MultiStackInfo}
    (h : hierarchy lines = some t) : t = { init with children := nest lines } := by
  obtain ⟨h', hrun, -⟩ := Option.bind_eq_some_iff.mp h
  have hhead : ∀ l ∈ lines.head?, l.1 = 0 := by
    intro l hl
    cases lines with
    | nil => cases hl
    | cons line lines =>
      obtain rfl := Option.some.inj hl
      rw [List.foldlM_cons] at hrun
      obtain ⟨h₁, hline, -⟩ := Option.bind_eq_some_iff.mp hrun
      exact addLine_first hline
  rw [hierarchy_eq lines (foldlM_addLine_nonneg (by simp) hrun) hhead] at h
  exact (Option.some.inj h).symm

/-- Lines without children: the nodes of the tree, in preorder, are the lines. -/
theorem entries_nest {lines : List (ℤ × MultiStackInfo)} (hleaf : ∀ l ∈ lines, l.2.children = []) :
    (preorder (nest lines)).map (fun n => (n.N, n.stack)) =
      lines.map fun l => (l.2.N, l.2.stack) := by
  induction lines using nest.induct with
  | case1 => rw [nest]; rfl
  | case2 j x rest ih1 ih2 =>
    obtain ⟨-, -, hrest⟩ := split_deeper j rest
    rw [nest_cons, preorder_cons]
    generalize (rest.takeWhile fun l => decide (j < l.1)) = sub at *
    generalize (rest.dropWhile fun l => decide (j < l.1)) = others at *
    subst hrest
    have hx : x.children = [] := hleaf (j, x) (by simp)
    have hsub := ih1 fun l hl => hleaf l (by simp [hl])
    have hothers := ih2 fun l hl => hleaf l (by simp [hl])
    simp [hx, hsub, hothers]

theorem stacks_nest {lines : List (ℤ × MultiStackInfo)} (hleaf : ∀ l ∈ lines, l.2.children = []) :
    (preorder (nest lines)).map stack = lines.map fun l => l.2.stack := by
  have h := congrArg (List.map Prod.snd) (entries_nest hleaf)
  rwa [List.map_map, List.map_map] at h

theorem nodes_nest {lines : List (ℤ × MultiStackInfo)} (hleaf : ∀ l ∈ lines, l.2.children = []) :
    nodes (nest lines) = lines.length := by
  have h := congrArg List.length (entries_nest hleaf)
  rwa [List.length_map, List.length_map] at h

end MultiStackInfo

end StackTrace
