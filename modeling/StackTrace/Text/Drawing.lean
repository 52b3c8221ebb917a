import StackTrace.Text.Depth

/-!
# The drawing of a tree

`StackTrace.cpp`, lines 419–446: what `print` prints, said for each node by what stands
above it. The nodes come in preorder, and those without an address have no line.

* `print_eq_drawing`: `print` with its one array prints this drawing, for every prefix that
  is a C string and leaves room for the printed nodes of each way.
-/

namespace StackTrace

namespace MultiStackInfo

/-! ## The lines one by one -/

/-- The node has a line. -/
def printed (t : MultiStackInfo) : Bool := t.stack.address ≠ 0

/-- An ancestor, and whether it has a later sibling. -/
structure Ancestor where
  node : MultiStackInfo
  later : Bool

/-- A node, and its proper ancestors from the root on. -/
structure Visit where
  above : List Ancestor
  node : MultiStackInfo

/-- One more ancestor above a node. -/
def Visit.below (a : Ancestor) (v : Visit) : Visit := { v with above := a :: v.above }

mutual

/-- The nodes of a tree in preorder; `later` says whether its root has a later sibling. -/
def visits (later : Bool) : MultiStackInfo → List Visit
  | ⟨N, stack, children⟩ =>
    ⟨[], ⟨N, stack, children⟩⟩ ::
      (forestVisits children).map (Visit.below ⟨⟨N, stack, children⟩, later⟩)

/-- The nodes of a forest. -/
def forestVisits : List MultiStackInfo → List Visit
  | [] => []
  | c :: cs => visits (!cs.isEmpty) c ++ forestVisits cs

end

/-- What stands for the ancestors of a node: two characters for each one that is printed, a bar
    if it has a later sibling and its parent is printed too, and blanks otherwise. `parent`
    is for the first one. -/
def bars : (parent : Bool) → (above : List Ancestor) → Bytes
  | _, [] => []
  | parent, a :: above =>
    (if a.node.printed then [if a.later && parent then 124 else 32, 32] else []) ++
      bars a.node.printed above

/-- The lines of `print( prefix )`, each with its prefix, bars and text. -/
def drawing (t : MultiStackInfo) (pre : Bytes) : Option (List Bytes) :=
  ((visits false t).filter fun v => v.node.printed).mapM fun v =>
    printLine t.widths (pre ++ bars false v.above) v.node.N v.node.stack

/-! ## The recursion -/

/-- The lines of some of the nodes. -/
def visitLines (w : Widths) (pre : Bytes) (parent : Bool) (vs : List Visit) : Option (List Bytes) :=
  (vs.filter fun v => v.node.printed).mapM fun v =>
    printLine w (pre ++ bars parent v.above) v.node.N v.node.stack

theorem visitLines_append (w : Widths) (pre : Bytes) (parent : Bool) (vs vs' : List Visit) :
    visitLines w pre parent (vs ++ vs') = (visitLines w pre parent vs).bind fun lines =>
      (visitLines w pre parent vs').bind fun lines' => some (lines ++ lines') := by
  unfold visitLines
  rw [List.filter_append, List.mapM_append]
  rfl

/-- Nodes that lie below the same one. -/
theorem visitLines_below (w : Widths) (pre : Bytes) (parent : Bool) (a : Ancestor)
    (vs : List Visit) : visitLines w pre parent (vs.map (Visit.below a)) =
      visitLines w
        (pre ++ if a.node.printed then [if a.later && parent then 124 else 32, 32] else [])
        a.node.printed vs := by
  have hnode : (fun v : Visit => v.node.printed) ∘ Visit.below a = fun v => v.node.printed := rfl
  unfold visitLines
  rw [List.filter_map, hnode, List.mapM_map]
  refine congrArg (fun f => List.mapM f _) (funext fun v => ?_)
  show printLine w (pre ++ ((if a.node.printed then _ else []) ++ bars a.node.printed v.above))
    v.node.N v.node.stack = _
  rw [List.append_assoc]

theorem render_of_forest {w : Widths} {t : MultiStackInfo}
    (ht : ∀ pre bar,
      renderForest w pre bar t.children = visitLines w pre bar (forestVisits t.children))
    (pre : Bytes) (later parent : Bool) :
    render w pre (later && parent) t = visitLines w pre parent (visits later t) := by
  obtain ⟨N, stack, children⟩ := t
  have ht : ∀ pre bar,
      renderForest w pre bar children = visitLines w pre bar (forestVisits children) := ht
  have hroot : visits later ⟨N, stack, children⟩ = [⟨[], ⟨N, stack, children⟩⟩] ++
      (forestVisits children).map (Visit.below ⟨⟨N, stack, children⟩, later⟩) := by
    rw [visits]
    rfl
  rw [render, hroot, visitLines_append, visitLines_below]
  by_cases haddr : stack.address ≠ 0
  · have hprinted : printed ⟨N, stack, children⟩ = true := decide_eq_true haddr
    have hline : visitLines w pre parent [⟨[], ⟨N, stack, children⟩⟩] =
        (printLine w pre N stack).map fun line => [line] := by
      unfold visitLines
      rw [List.filter_cons_of_pos (by exact hprinted), List.filter_nil, List.mapM_cons,
        List.mapM_nil, bars, List.append_nil]
      cases printLine w pre N stack <;> rfl
    rw [if_pos haddr, hline, hprinted, if_pos rfl, ht]
    cases printLine w pre N stack <;> rfl
  · have hprinted : printed ⟨N, stack, children⟩ = false := decide_eq_false haddr
    have hline : visitLines w pre parent [⟨[], ⟨N, stack, children⟩⟩] = some [] := by
      unfold visitLines
      rw [List.filter_cons_of_neg (by simp [hprinted])]
      rfl
    rw [if_neg haddr, hline, hprinted, if_neg (by simp), List.append_nil, ht]
    cases visitLines w pre false (forestVisits children) <;> rfl

theorem renderForest_eq_visitLines (w : Widths) (cs : List MultiStackInfo) (pre : Bytes)
    (bar : Bool) : renderForest w pre bar cs = visitLines w pre bar (forestVisits cs) := by
  induction cs using forest_induction generalizing pre bar with
  | nil => rfl
  | cons x xs ihx ihxs =>
    rw [renderForest, forestVisits, visitLines_append, render_of_forest ihx, ihxs]
    rfl

/-- The recursion that gives each call its own prefix prints the drawing. -/
theorem render_eq_drawing (t : MultiStackInfo) (pre : Bytes) :
    render t.widths pre false t = t.drawing pre :=
  render_of_forest (fun pre bar => renderForest_eq_visitLines t.widths t.children pre bar) pre false
    false

/-! ## Main result -/

theorem drawing_isSome {t : MultiStackInfo} (ht : ∀ n ∈ preorder [t], FitsLine n) {pre : Bytes}
    (hlen : pre.length + 2 * t.printedHeight ≤ 1024) : (t.drawing pre).isSome = true := by
  have hlen' : pre.length + 2 * printedForestHeight [t] ≤ 1024 := by
    rwa [printedForestHeight, printedForestHeight, max_eq_left (Nat.zero_le _)]
  have hforest := renderForest_isSome t.widths_bounded ht hlen' false
  rw [renderForest, Option.bind_eq_bind] at hforest
  rw [← render_eq_drawing]
  exact Option.isSome_of_isSome_bind hforest

/-- `print` prints the drawing, and has a line for each printed node where the texts of the
    frames end. -/
theorem print_eq_drawing (t : MultiStackInfo) (prefix2 : CharArray 1024) {pre : Bytes}
    (hpre : 0 ∉ pre) (hlen : pre.length + 2 * t.printedHeight ≤ 1024) :
    t.print prefix2 pre = t.drawing pre ∧
      ((∀ n ∈ preorder [t], n.stack.TextsEnd ∧ IsInt n.N) →
        ∃ lines, t.print prefix2 pre = some lines) := by
  have hprint : t.print prefix2 pre = t.drawing pre := by
    rw [print_within t prefix2 hpre (by omega), within_of_le (by omega), render_eq_drawing]
  refine ⟨hprint, fun ht => ?_⟩
  have hfits : ∀ n ∈ preorder [t], FitsLine n := by
    intro n hn
    obtain ⟨htexts, hN⟩ := ht n hn
    exact ⟨htexts, (length_printInt_le hN).trans (by omega)⟩
  rw [hprint]
  exact Option.isSome_iff_exists.mp (drawing_isSome hfits hlen)

/-- A function that calls itself, and calls that have been made from elsewhere. -/
def smallTree : MultiStackInfo :=
  ⟨3, .init, [⟨2, deepFrame, [⟨2, deepFrame, []⟩]⟩, ⟨1, deepFrame, []⟩]⟩

theorem print_eq_drawing_small :
    smallTree.print (.zero 1024) (ascii "> ") = smallTree.drawing (ascii "> ") ∧
      ∃ lines, smallTree.print (.zero 1024) (ascii "> ") = some lines := by
  have hinit : StackInfo.init.TextsEnd := ⟨by decide, by decide, by decide⟩
  have hdeep : deepFrame.TextsEnd := ⟨by decide, by decide, by decide⟩
  have hnodes : ∀ n ∈ preorder [smallTree], n.stack.TextsEnd ∧ IsInt n.N := by
    intro n hn
    simp only [smallTree, preorder, descendants, List.append_nil, List.nil_append, List.cons_append,
      List.mem_cons, List.not_mem_nil, or_false] at hn
    rcases hn with rfl | rfl | rfl | rfl
    · exact ⟨hinit, by norm_num [IsInt]⟩
    · exact ⟨hdeep, by norm_num [IsInt]⟩
    · exact ⟨hdeep, by norm_num [IsInt]⟩
    · exact ⟨hdeep, by norm_num [IsInt]⟩
  have hprint := print_eq_drawing smallTree (.zero 1024) (show 0 ∉ ascii "> " by decide) (by decide)
  exact ⟨hprint.1, hprint.2 hnodes⟩

/-- A prefix that begins with a NUL is lost, and one of 1023 characters leaves no room. -/
theorem print_nul_prefix :
    MultiStackInfo.print ⟨1, deepFrame, []⟩ (.zero 1024) [0] ≠ drawing ⟨1, deepFrame, []⟩ [0] ∧
      MultiStackInfo.print ⟨1, deepFrame, []⟩ (.zero 1024) (List.replicate 1023 32) = none := by
  refine ⟨by decide +kernel, ?_⟩
  have hnul : (0 : UInt8) ∉ List.replicate 1023 (32 : UInt8) :=
    fun h => absurd (List.eq_of_mem_replicate h) (by decide)
  have hlen : (List.replicate 1023 (32 : UInt8)).length = 1023 := List.length_replicate
  have hheight : printedHeight ⟨1, deepFrame, []⟩ = 1 := by decide
  rw [print_within _ _ hnul (by omega), hlen, hheight, within_of_lt (by omega)]

end MultiStackInfo

end StackTrace
