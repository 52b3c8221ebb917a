import StackTrace.Cleanup.Run
import StackTrace.Tree.Merge

/-!
# The shape of a cleaned tree

Whatever the tree was, `cleanupStackTrace` leaves no equal siblings at any
depth and no self trace below the root; and where equal frames have equal
names, no `fgets` below the root has callees.

* `shape_returns`: the run leaves such a tree, where every entry that it replaces
  is replaceable.
-/

namespace StackTrace

namespace MultiStackInfo

open Keyed

variable {F : Set StackInfo}

/-! ## What survives -/

theorem survivor_selfTrace {it s : MultiStackInfo} (h : survivor it = some s) :
    s.stack.selfTrace = false := by
  refine survivor_induction (P := fun _ s => s.stack.selfTrace = false) ?_ (fun _ _ _ _ h => h) h
  intro it it' hr
  rw [(examine_eq_clean hr).2.2.1]
  exact (examine_eq_clean hr).1

/-- `fgets` survives without its callees. -/
theorem survivor_libcFgets {it s : MultiStackInfo} (h : survivor it = some s)
    (hs : s.stack.libcFgets = true) : s.children = [] := by
  revert hs
  refine survivor_induction (P := fun _ s => s.stack.libcFgets = true → s.children = []) ?_
    (fun _ _ _ _ h => h) h
  intro it it' hr hfgets
  obtain ⟨-, -, hstack, hchildren, -⟩ := examine_eq_clean hr
  rw [hchildren, if_pos (hstack ▸ hfgets)]

/-- Cleaning brings no frames in. -/
theorem framesIn_cleanupStackTrace {t : MultiStackInfo} (h : FramesIn F t.children) :
    FramesIn F (cleanupStackTrace t).children := by
  induction t using height_induction with
  | step t ih =>
    refine framesIn_iff.mpr (forall_cleanupStackTrace_children
      (A := fun t' => t'.stack ∈ F ∧ FramesIn F t'.children) (fun t' ht' hA => ?_)
      (fun s hs => ?_) fun it it2 hit hit2 _ => framesIn_unite hit hit2)
    · rw [cleanupStackTrace_stack]
      exact ⟨hA.1, ih t' ht' hA.2⟩
    · obtain ⟨c, hc, hcs⟩ := List.mem_filterMap.mp hs
      exact survivor_framesIn hcs (framesIn_iff.mp h c hc)

theorem framesIn_cleaned {t : MultiStackInfo} (h : t.stack ∈ F ∧ FramesIn F t.children) :
    (cleanupStackTrace t).stack ∈ F ∧ FramesIn F (cleanupStackTrace t).children := by
  rw [cleanupStackTrace_stack]
  exact ⟨h.1, framesIn_cleanupStackTrace h.2⟩

/-- What is left of the children is lower than the node, with frames of the children. -/
theorem framesIn_survivors {t : MultiStackInfo} (h : FramesIn F t.children) :
    ∀ s ∈ t.children.filterMap survivor,
      s.height < t.height ∧ s.stack ∈ F ∧ FramesIn F s.children := by
  intro s hs
  obtain ⟨c, hc, hcs⟩ := List.mem_filterMap.mp hs
  exact ⟨height_of_mem_survivors hs, survivor_framesIn hcs (framesIn_iff.mp h c hc)⟩

/-! ## Siblings -/

/-- The frames after an entry has been placed. -/
theorem frames_place {rec : MultiStackInfo → MultiStackInfo} (hrec : ∀ t, (rec t).stack = t.stack)
    (it : MultiStackInfo) (done : List MultiStackInfo) :
    frames (place rec it done) =
      if done.any fun it2 => it.stack.opEq it2.stack then frames done
      else frames done ++ [it.stack] := by
  refine map_absorb stack (fun it2 => ?_) done
  exact hrec (unite it it2)

theorem noTwins_place {rec : MultiStackInfo → MultiStackInfo} (hrec : ∀ t, (rec t).stack = t.stack)
    {it : MultiStackInfo} {done : List MultiStackInfo} (h : NoTwins done) :
    NoTwins (place rec it done) := by
  by_cases hany : done.any (fun it2 => it.stack.opEq it2.stack) = true
  · rw [noTwins_iff_frames, frames_place hrec, if_pos hany]
    exact noTwins_iff_frames.mp h
  · rw [place, absorb_of_none (by simpa using hany)]
    refine noTwins_snoc h fun d hd => ?_
    rw [Bool.not_eq_true] at hany
    rw [StackInfo.opEq_comm]
    exact any_eq_false'.mp hany d hd

theorem noTwins_pass {rec : MultiStackInfo → MultiStackInfo} (hrec : ∀ t, (rec t).stack = t.stack)
    (ss : List MultiStackInfo) : NoTwins (pass rec ss) := by
  induction ss using List.reverseRecOn with
  | nil => simp [NoTwins]
  | append_singleton ss s ih =>
    rw [pass_snoc]
    exact noTwins_place hrec ih

theorem noTwins_cleanupStackTrace (t : MultiStackInfo) :
    NoTwins (cleanupStackTrace t).children := by
  rw [cleanupStackTrace_children]
  exact noTwins_pass cleanupStackTrace_stack _

theorem hereditarily_noTwins_cleanupStackTrace (t : MultiStackInfo) :
    Hereditarily NoTwins (cleanupStackTrace t).children := by
  induction t using height_induction with
  | step t ih =>
    refine hereditarily_iff.mpr ⟨noTwins_cleanupStackTrace t, ?_⟩
    exact forall_cleanupStackTrace_children (A := fun _ => True) (fun t' ht' _ => ih t' ht')
      (fun _ _ => trivial) fun _ _ _ _ _ => trivial

/-! ## Self traces and `fgets` -/

theorem selfTrace_cleanupStackTrace (t : MultiStackInfo) :
    ∀ n ∈ preorder (cleanupStackTrace t).children, n.stack.selfTrace = false := by
  induction t using height_induction with
  | step t ih =>
    refine forall_preorder.mpr (forall_cleanupStackTrace_children
      (A := fun t' => t'.stack.selfTrace = false) (fun t' ht' hA => ?_) (fun s hs => ?_)
      fun it it2 _ hit2 _ => hit2.1)
    · rw [cleanupStackTrace_stack]
      exact ⟨hA, ih t' ht'⟩
    · obtain ⟨c, -, hcs⟩ := List.mem_filterMap.mp hs
      exact survivor_selfTrace hcs

/-- `fgets` has no callees. -/
def FgetsLeaf (t : MultiStackInfo) : Prop := t.stack.libcFgets = true → t.children = []

theorem fgetsLeaf_cleanupStackTrace (hF : StackInfo.FgetsAgree F) {t : MultiStackInfo}
    (h : FramesIn F t.children) : ∀ n ∈ preorder (cleanupStackTrace t).children, FgetsLeaf n := by
  induction t using height_induction with
  | step t ih =>
    refine forall_preorder.mpr fun d hd => ?_
    have hB := forall_cleanupStackTrace_children
      (A := fun t' => (t'.stack ∈ F ∧ FramesIn F t'.children) ∧ FgetsLeaf t')
      (B := fun t' => (t'.stack ∈ F ∧ FramesIn F t'.children) ∧ FgetsLeaf t' ∧
        ∀ n ∈ preorder t'.children, FgetsLeaf n) (t := t) ?_ ?_ ?_ d hd
    · exact hB.2
    · rintro t' ht' ⟨⟨hstack, hframes⟩, hleaf⟩
      refine ⟨⟨?_, framesIn_cleanupStackTrace hframes⟩, fun hfgets => ?_, ih t' ht' hframes⟩
      · rw [cleanupStackTrace_stack]; exact hstack
      · rw [cleanupStackTrace_stack] at hfgets
        rw [cleanupStackTrace_children, hleaf hfgets]
        rfl
    · intro s hs
      obtain ⟨c, hc, hcs⟩ := List.mem_filterMap.mp hs
      exact ⟨survivor_framesIn hcs (framesIn_iff.mp h c hc), survivor_libcFgets hcs⟩
    · rintro it it2 ⟨hit, hleaf, -⟩ ⟨hit2, hleaf2, -⟩ hmatch
      refine ⟨framesIn_unite hit hit2, fun hfgets => ?_⟩
      -- the two entries are both `fgets`
      have hfgets' : it.stack.libcFgets = true :=
        (hF _ hit.1 _ hit2.1 hmatch).trans hfgets
      show it2.children ++ it.children = []
      rw [hleaf hfgets', hleaf2 hfgets]
      rfl

/-- After `cleanupStackTrace` no node has two children in equal frames, no node
    below the root is a self trace, and no `fgets` below the root has callees if
    frames that are `operator==` have the same object and function. -/
theorem cleanupStackTrace_shape (t : MultiStackInfo) :
    (∀ n ∈ cleanupStackTrace t :: preorder (cleanupStackTrace t).children, NoTwins n.children) ∧
    (∀ n ∈ preorder (cleanupStackTrace t).children, n.stack.selfTrace = false) ∧
    (StackInfo.NamesAgree {f | ∃ n ∈ preorder t.children, n.stack = f} →
      ∀ n ∈ preorder (cleanupStackTrace t).children,
        n.stack.libcFgets = true → n.children = []) := by
  refine ⟨?_, selfTrace_cleanupStackTrace t, fun hF => ?_⟩
  · have h := hereditarily_noTwins_cleanupStackTrace t
    intro n hn
    rcases List.mem_cons.mp hn with rfl | hn
    · exact h.1
    · exact h.2 n hn
  · exact fgetsLeaf_cleanupStackTrace hF.fgetsAgree fun n hn => ⟨n, hn, rfl⟩

end MultiStackInfo

/-! ## Main result -/

namespace Stored

open MultiStackInfo (NoTwins preorder)

/-- After `cleanupStackTrace` no node has two children in equal frames, no node below the root
    is a self trace, and no `fgets` below the root has callees if frames that are `operator==`
    have the same object and function; where every entry that is replaced is replaceable at
    that time. -/
theorem shape_returns {s : Stored} (h : s.WellReplaced) :
    ∃ s', s.Returns s' ∧ (∀ n ∈ s'.value :: preorder s'.value.children, NoTwins n.children) ∧
      (∀ n ∈ preorder s'.value.children, n.stack.selfTrace = false) ∧
      (StackInfo.NamesAgree {f | ∃ n ∈ preorder s.value.children, n.stack = f} →
        ∀ n ∈ preorder s'.value.children, n.stack.libcFgets = true → n.children = []) := by
  obtain ⟨s', hs', hvalue⟩ := returns_of_wellReplaced h
  refine ⟨s', hs', ?_⟩
  rw [hvalue]
  exact MultiStackInfo.cleanupStackTrace_shape s.value

/-- `fgets` with one callee, below an unwanted entry and once more beside it. -/
theorem shape_returns_fgets :
    let start :=
      StackInfo.ofFields 0x7f1000 0x1000 (ascii "libc.so.6") (ascii "__libc_start_main") []
    let fgets := StackInfo.ofFields 0x7f2000 0x2000 (ascii "libc.so.6") (ascii "fgets") []
    let read := StackInfo.ofFields 0x7f3000 0x3000 (ascii "libc.so.6") (ascii "__read") []
    let s : Stored := ⟨2, .init, 0,
      [⟨1, fgets, 0, [⟨1, read, 0, []⟩]⟩, ⟨1, start, 0, [⟨1, fgets, 0, [⟨1, read, 0, []⟩]⟩]⟩]⟩
    ∃ s', s.Returns s' ∧
      ∀ n ∈ preorder s'.value.children, n.stack.libcFgets = true → n.children = [] := by
  intro start fgets read s
  obtain ⟨s', hrun⟩ := Limited.isOk_iff.mp
    (show (cleanupWith promoteReplaceable 6 s).isOk = true by decide +kernel)
  obtain ⟨s', hs', -, -, hfgets⟩ := shape_returns (wellReplaced_of_run hrun)
  refine ⟨s', hs', hfgets ?_⟩
  have hnames : ∀ a ∈ preorder s.value.children, ∀ b ∈ preorder s.value.children,
      a.stack.opEq b.stack = true → a.stack.object.str = b.stack.object.str ∧
        a.stack.function.str = b.stack.function.str := by decide +kernel
  rintro f ⟨a, ha, rfl⟩ g ⟨b, hb, rfl⟩
  exact hnames a ha b hb

/-- The root is not examined: `fgets` keeps its callees there. -/
theorem fgets_root_returns :
    ¬ ∀ s : Stored, s.WellReplaced →
      StackInfo.NamesAgree {f | ∃ n ∈ s.value :: preorder s.value.children, n.stack = f} →
      ∃ s', s.Returns s' ∧ ∀ n ∈ s'.value :: preorder s'.value.children,
        n.stack.libcFgets = true → n.children = [] := by
  intro h
  let fgets := StackInfo.ofFields 0x7f1000 0x1000 (ascii "libc.so.6") (ascii "fgets") []
  let read := StackInfo.ofFields 0x7f2000 0x2000 (ascii "libc.so.6") (ascii "__read") []
  let s : Stored := ⟨1, fgets, 0, [⟨1, read, 0, []⟩]⟩
  obtain ⟨t, hrun⟩ := Limited.isOk_iff.mp
    (show (cleanupWith promoteReplaceable 6 s).isOk = true by decide +kernel)
  obtain ⟨u, hrun', hu⟩ := Limited.exists_of_any
    (show (s.cleanupStackTrace 6).toOption.any
      (fun t => t.stack.libcFgets && t.value.children ≠ []) = true by decide +kernel)
  have hnames : ∀ a ∈ s.value :: preorder s.value.children,
      ∀ b ∈ s.value :: preorder s.value.children, a.stack.opEq b.stack = true →
        a.stack.object.str = b.stack.object.str ∧
          a.stack.function.str = b.stack.function.str := by decide +kernel
  obtain ⟨s', hs', hroot⟩ := h s (wellReplaced_of_run hrun) (by
    rintro f ⟨a, ha, rfl⟩ g ⟨b, hb, rfl⟩
    exact hnames a ha b hb)
  rw [hs'.eq_of_run hrun', Bool.and_eq_true, decide_eq_true_iff] at hu
  exact hu.2 (hroot s'.value (by simp) (by simpa using hu.1))

end Stored

end StackTrace
