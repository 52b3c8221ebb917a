import StackTrace.Cleanup.Coherent

/-!
# `cleanupStackTrace` comes to an end

What a call is made for is lower than the tree of the caller, also when an entry has grown
by being united with another one, and a round that comes back to an entry has made it
lower. Every run ends for that reason, but not every one returns: line 2138 may look for an
object where there is none.

* `cleanupStackTrace_ends`: where every entry that is replaced is replaceable, the run
  returns, and the tree does not grow if `operator==` is an equivalence.
-/

namespace StackTrace

namespace MultiStackInfo

open Keyed

/-! ## The number of nodes -/

variable {F : Set StackInfo}

theorem nodes_eq_sum (cs : List MultiStackInfo) :
    (nodes cs : ℤ) = (cs.map fun c => (nodes [c] : ℤ)).sum := by
  induction cs with
  | nil => rfl
  | cons c cs ih =>
    rw [List.map_cons, List.sum_cons, ← ih, nodes_cons, nodes_cons, nodes_nil]
    push_cast
    ring

theorem nodes_singleton (t : MultiStackInfo) : nodes [t] = 1 + nodes t.children := by
  rw [nodes_cons, nodes_nil, Nat.add_zero]

theorem nodes_survivor {it s : MultiStackInfo} (h : survivor it = some s) :
    nodes [s] ≤ nodes [it] := by
  refine survivor_induction (P := fun it s => nodes [s] ≤ nodes [it]) ?_ ?_ h
  · intro it it' hr
    obtain ⟨-, -, -, hchildren, -⟩ := examine_eq_clean hr
    rw [nodes_singleton, nodes_singleton, hchildren]
    split_ifs
    · rw [nodes_nil]
      omega
    · exact le_rfl
  · intro it child s hr hs
    exact hs.trans (nodes_lt_of_examine hr []).le

theorem nodes_survivors_le (cs : List MultiStackInfo) :
    nodes (cs.filterMap survivor) ≤ nodes cs := by
  induction cs with
  | nil => exact le_rfl
  | cons c cs ih =>
    cases hs : survivor c with
    | none =>
      rw [List.filterMap_cons_none hs, nodes_cons]
      omega
    | some s =>
      have hle := nodes_survivor hs
      rw [nodes_singleton, nodes_singleton] at hle
      rw [List.filterMap_cons_some hs, nodes_cons, nodes_cons]
      omega

theorem nodes_append (cs ds : List MultiStackInfo) : nodes (cs ++ ds) = nodes cs + nodes ds := by
  zify
  rw [nodes_eq_sum, nodes_eq_sum cs, nodes_eq_sum ds, List.map_append, List.sum_append]

theorem nodes_unite (it it2 : MultiStackInfo) :
    nodes [unite it it2] + 1 = nodes [it2] + nodes [it] := by
  rw [nodes_singleton, nodes_singleton, nodes_singleton]
  show 1 + nodes (it2.children ++ it.children) + 1 = _
  rw [nodes_append]
  omega

/-- An entry goes to one earlier entry at most, and is not counted twice. -/
theorem nodes_pass_le (hF : StackInfo.EquivOn F) {n : ℕ}
    (ih : ∀ t, t.height < n → FramesIn F t.children → nodes [cleanupStackTrace t] ≤ nodes [t])
    {ss : List MultiStackInfo}
    (hss : ∀ s ∈ ss, s.height < n ∧ s.stack ∈ F ∧ FramesIn F s.children) :
    nodes (pass cleanupStackTrace ss) ≤ nodes ss := by
  induction ss using List.reverseRecOn with
  | nil => exact le_rfl
  | append_singleton ss s ih' =>
    have hss' : ∀ t ∈ ss, t.height < n ∧ t.stack ∈ F ∧ FramesIn F t.children :=
      fun t ht => hss t (by simp [ht])
    obtain ⟨hsn, hs⟩ := hss s (by simp)
    have hdone := forall_pass (fun _ _ => framesIn_cleaned)
      (fun _ _ h h2 _ => framesIn_unite h h2) hss'
    have hR := framesIn_cleaned hs
    have hRn := (height_cleanupStackTrace s).trans_lt hsn
    have hRnodes := ih s hsn hs.2
    have honce := (noTwins_pass cleanupStackTrace_stack ss).countP_le_one hF
      (fun d hd => (hdone d hd).2.1) hR.1
    have hunite : ∀ d ∈ pass cleanupStackTrace ss,
        nodes [cleanupStackTrace (unite (cleanupStackTrace s) d)] ≤ nodes [d] + nodes [s] := by
      intro d hd
      obtain ⟨hdn, hdF⟩ := hdone d hd
      have hle : (unite (cleanupStackTrace s) d).height ≤ n - 1 :=
        height_unite (by omega) (by omega)
      have hrec := ih _ (by omega) (framesIn_unite hR hdF).2
      have hsize := nodes_unite (cleanupStackTrace s) d
      omega
    have hplace : (nodes (place cleanupStackTrace (cleanupStackTrace s)
        (pass cleanupStackTrace ss)) : ℤ) ≤ nodes (pass cleanupStackTrace ss) + nodes [s] := by
      rw [nodes_eq_sum, nodes_eq_sum (pass cleanupStackTrace ss)]
      refine sum_absorb_le honce (fun d hd _ => ?_) (by exact_mod_cast hRnodes)
      exact_mod_cast hunite d hd
    have hss := ih' hss'
    rw [pass_snoc, nodes_append]
    omega

/-- The nodes of a cleaned tree. -/
theorem nodes_cleanupStackTrace_le (hF : StackInfo.EquivOn F) {t : MultiStackInfo}
    (hframes : FramesIn F t.children) : nodes [cleanupStackTrace t] ≤ nodes [t] := by
  induction t using height_induction with
  | step t ih =>
    have hpass := nodes_pass_le hF ih (framesIn_survivors hframes)
    have hsurvivors := nodes_survivors_le t.children
    rw [nodes_singleton, nodes_singleton, cleanupStackTrace_children]
    omega

end MultiStackInfo

/-! ## Main result -/

namespace Stored

open MultiStackInfo (nodes preorder)

/-- On every tree the run comes to an end with steps enough. If every entry that it replaces
    is replaceable at that time, the call returns; and where `operator==` is an equivalence on
    the frames that it compares, the tree has no more nodes than before. -/
theorem cleanupStackTrace_ends (s : Stored) :
    (∃ n r, r ≠ .error .steps ∧ ∀ fuel, n ≤ fuel → s.cleanupStackTrace fuel = r) ∧
      (s.WellReplaced → ∃ s', s.Returns s' ∧
        (StackInfo.EquivOn {f | ∃ n ∈ preorder s.value.children, n.stack = f} →
          nodes [s'.value] ≤ nodes [s.value])) := by
  constructor
  · obtain ⟨r, hr, hrun⟩ := ends_cleanupStackTrace s
    obtain ⟨n, hn⟩ := Filter.eventually_atTop.mp hrun
    exact ⟨n, r, hr, hn⟩
  · intro h
    obtain ⟨s', hs', hvalue⟩ := returns_of_wellReplaced h
    refine ⟨s', hs', fun hF => ?_⟩
    rw [hvalue]
    exact MultiStackInfo.nodes_cleanupStackTrace_le hF fun n hn => ⟨n, hn, rfl⟩

/-- `main` has another callee where it is united with itself, and an unwanted entry with one
    child, a leaf, is replaced. -/
theorem cleanupStackTrace_ends_united :
    let start :=
      StackInfo.ofFields 0x7f1000 0x1000 (ascii "libc.so.6") (ascii "__libc_start_main") []
    let main := StackInfo.ofFields 0x401000 0x1000 (ascii "a.out") (ascii "main") []
    let poll := StackInfo.ofFields 0x402000 0x2000 (ascii "a.out") (ascii "poll") []
    let s : Stored := ⟨3, .init, 0,
      [⟨1, main, 0, [⟨1, poll, 0, []⟩]⟩, ⟨2, start, 1, [⟨2, main, 0, []⟩]⟩]⟩
    ∃ s', s.Returns s' ∧ nodes [s'.value] ≤ 5 := by
  intro start main poll s
  have hF : StackInfo.EquivOn {f | f = start ∨ f = main ∨ f = poll} := by
    rintro a (rfl | rfl | rfl) b (rfl | rfl | rfl) c (rfl | rfl | rfl) <;> decide
  obtain ⟨s', hrun⟩ := Limited.isOk_iff.mp
    (show (cleanupWith promoteReplaceable 6 s).isOk = true by decide +kernel)
  obtain ⟨s', hs', hnodes⟩ := (cleanupStackTrace_ends s).2 (wellReplaced_of_run hrun)
  refine ⟨s', hs', hnodes (hF.mono ?_)⟩
  rintro f ⟨n, hn, rfl⟩
  simp only [s, value, values, preorder, MultiStackInfo.descendants, List.append_nil,
    List.nil_append, List.cons_append, List.mem_cons, List.not_mem_nil, or_false] at hn
  rcases hn with rfl | rfl | rfl | rfl <;> simp

/-- A child with two leaves is assigned to an entry with room for four: the first leaf takes
    the place of the child, and its second child is looked for. -/
theorem cleanupStackTrace_undefined :
    ¬ ∀ s : Stored, ∃ s', s.Returns s' ∧
      (StackInfo.EquivOn {f | ∃ n ∈ preorder s.value.children, n.stack = f} →
        nodes [s'.value] ≤ nodes [s.value]) := by
  intro h
  let poll := StackInfo.ofFields 0x403000 0x3000 (ascii "a.out") (ascii "poll") []
  let read := StackInfo.ofFields 0x404000 0x4000 (ascii "a.out") (ascii "read") []
  obtain ⟨s', hs', -⟩ := h (roomy 2 0 [⟨1, poll, 0, []⟩, ⟨1, read, 0, []⟩])
  have hrun : ((roomy 2 0 [⟨1, poll, 0, []⟩, ⟨1, read, 0, []⟩]).cleanupStackTrace 9).isUndefined =
      true := by decide +kernel
  exact not_returns_of_undefined (Limited.isUndefined_iff.mp hrun) hs'

end Stored

end StackTrace
