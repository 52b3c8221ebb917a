import StackTrace.Cleanup.Shape

/-!
# Thread counts of a cleaned tree

If no node has fewer threads than its children together, cleaning leaves it so,
provided that `operator==` is an equivalence on the frames: an entry is then
united with one earlier entry at most, which takes all its threads.

* `coherent_returns`: so it is where every entry that is replaced is replaceable.
* `incoherent_returns`: an entry with room for the callees of its child takes over a
  callee from further below.
-/

namespace StackTrace

namespace MultiStackInfo

open Keyed

variable {F : Set StackInfo}

/-- Every node of the tree has as many threads as its children together, or more. -/
def Coherent (t : MultiStackInfo) : Prop :=
  ∀ n ∈ t :: preorder t.children, (n.children.map N).sum ≤ n.N

theorem coherent_iff {t : MultiStackInfo} :
    Coherent t ↔ (t.children.map N).sum ≤ t.N ∧ ∀ c ∈ t.children, Coherent c := by
  unfold Coherent
  rw [List.forall_mem_cons, forall_preorder]
  simp only [List.forall_mem_cons]

theorem Coherent.nonneg {t : MultiStackInfo} (h : Coherent t) : 0 ≤ t.N := by
  induction t using MultiStackInfo.induction with
  | node t ih =>
    obtain ⟨hsum, hchildren⟩ := coherent_iff.mp h
    refine le_trans (List.sum_nonneg fun v hv => ?_) hsum
    obtain ⟨c, hc, rfl⟩ := List.mem_map.mp hv
    exact ih c hc (hchildren c hc)

theorem survivor_coherent {it s : MultiStackInfo} (h : survivor it = some s) (hit : Coherent it) :
    Coherent s ∧ s.N ≤ it.N := by
  revert hit
  refine survivor_induction (P := fun it s => Coherent it → Coherent s ∧ s.N ≤ it.N) ?_ ?_ h
  · intro it it' hr hit
    obtain ⟨-, hN, -, hchildren, -⟩ := examine_eq_clean hr
    refine ⟨coherent_iff.mpr ?_, hN.le⟩
    rw [hN, hchildren]
    split_ifs
    · simpa using hit.nonneg
    · exact coherent_iff.mp hit
  · intro it child s hr ih hit
    obtain ⟨hsum, hchildren⟩ := coherent_iff.mp hit
    rw [(examine_eq_replace hr).2.2.2] at hsum hchildren
    obtain ⟨hs, hle⟩ := ih (hchildren child (by simp))
    have : child.N ≤ it.N := by simpa using hsum
    exact ⟨hs, hle.trans this⟩

theorem coherent_unite {it it2 : MultiStackInfo} (h : Coherent it) (h2 : Coherent it2) :
    Coherent (unite it it2) := by
  rw [coherent_iff] at h h2 ⊢
  constructor
  · show ((it2.children ++ it.children).map N).sum ≤ it2.N + it.N
    rw [List.map_append, List.sum_append]
    have := h.1
    have := h2.1
    omega
  · intro c hc
    rcases List.mem_append.mp hc with hc | hc
    · exact h2.2 c hc
    · exact h.2 c hc

/-- The survivors have at most the threads of the entries. -/
theorem sum_survivors_le {cs : List MultiStackInfo} (h : ∀ c ∈ cs, Coherent c) :
    ((cs.filterMap survivor).map N).sum ≤ (cs.map N).sum := by
  induction cs with
  | nil => simp
  | cons c cs ih =>
    have ih := ih fun d hd => h d (by simp [hd])
    have hc := h c (by simp)
    rw [List.map_cons, List.sum_cons]
    cases hs : survivor c with
    | none =>
      rw [List.filterMap_cons_none hs]
      have := hc.nonneg
      omega
    | some s =>
      rw [List.filterMap_cons_some hs, List.map_cons, List.sum_cons]
      have := (survivor_coherent hs hc).2
      omega

/-! ## No thread is counted twice -/

theorem NoTwins.countP_le_one (hF : StackInfo.EquivOn F) {cs : List MultiStackInfo}
    (h : NoTwins cs) (hcs : ∀ c ∈ cs, c.stack ∈ F) {f : StackInfo} (hf : f ∈ F) :
    cs.countP (fun c => f.opEq c.stack) ≤ 1 := by
  have hcomm : (fun c : MultiStackInfo => f.opEq c.stack) = fun c => c.stack.opEq f :=
    funext fun c => StackInfo.opEq_comm f c.stack
  rw [hcomm]
  rcases h.match_cases hF hcs hf with hno | ⟨l₁, c, l₂, rfl, h₁, hc, h₂⟩
  · have hzero : cs.countP (fun c => c.stack.opEq f) = 0 :=
      List.countP_eq_zero.mpr fun c hc => by simp [hno c hc]
    omega
  · have hzero₁ : l₁.countP (fun c => c.stack.opEq f) = 0 :=
      List.countP_eq_zero.mpr fun c hc => by simp [h₁ c hc]
    have hzero₂ : l₂.countP (fun c => c.stack.opEq f) = 0 :=
      List.countP_eq_zero.mpr fun c hc => by simp [h₂ c hc]
    rw [List.countP_append, List.countP_cons, hzero₁, hzero₂, if_pos hc]

/-- A pass neither loses nor doubles the threads of the entries. -/
theorem sum_pass (hF : StackInfo.EquivOn F) {ss : List MultiStackInfo}
    (hss : ∀ s ∈ ss, s.stack ∈ F) :
    ((pass cleanupStackTrace ss).map N).sum = (ss.map N).sum ∧
      ∀ d ∈ pass cleanupStackTrace ss, d.stack ∈ F := by
  induction ss using List.reverseRecOn with
  | nil => simp
  | append_singleton ss s ih =>
    obtain ⟨hsum, hdone⟩ := ih fun t ht => hss t (by simp [ht])
    have hs := hss s (by simp)
    have honce := (noTwins_pass cleanupStackTrace_stack ss).countP_le_one hF hdone hs
    rw [pass_snoc]
    constructor
    · have hplace : ((place cleanupStackTrace (cleanupStackTrace s)
          (pass cleanupStackTrace ss)).map N).sum = ((pass cleanupStackTrace ss).map N).sum +
            max 1 ((pass cleanupStackTrace ss).countP
              fun d => (cleanupStackTrace s).stack.opEq d.stack) * s.N := by
        refine sum_absorb (fun d _ _ => ?_) (cleanupStackTrace_N s)
        rw [cleanupStackTrace_N]
        exact congrArg (d.N + ·) (cleanupStackTrace_N s)
      rw [cleanupStackTrace_stack] at hplace
      rw [hplace, max_eq_left honce, hsum, List.map_append, List.sum_append]
      simp
    · refine forall_place hdone ?_ fun d hd _ => ?_
      · rw [cleanupStackTrace_stack]; exact hs
      · rw [cleanupStackTrace_stack]; exact hdone d hd

/-! ## The children of a cleaned tree -/

/-- If every node has as many threads as its children together or more, the same
    holds after `cleanupStackTrace`, and the root has the count and the frame
    that it had. -/
theorem coherent_cleanupStackTrace (hF : StackInfo.EquivOn F) {t : MultiStackInfo}
    (hframes : FramesIn F t.children) (h : Coherent t) :
    Coherent (cleanupStackTrace t) ∧ (cleanupStackTrace t).N = t.N ∧
      (cleanupStackTrace t).stack = t.stack := by
  refine ⟨?_, cleanupStackTrace_N t, cleanupStackTrace_stack t⟩
  induction t using height_induction with
  | step t ih =>
    obtain ⟨hsum, hchildren⟩ := coherent_iff.mp h
    have hframes := framesIn_iff.mp hframes
    refine coherent_iff.mpr ⟨?_, ?_⟩
    · have hstack : ∀ s ∈ t.children.filterMap survivor, s.stack ∈ F := by
        intro s hs
        obtain ⟨c, hc, hcs⟩ := List.mem_filterMap.mp hs
        exact (survivor_framesIn hcs (hframes c hc)).1
      rw [cleanupStackTrace_children, (sum_pass hF hstack).1, cleanupStackTrace_N]
      refine le_trans (sum_survivors_le hchildren) hsum
    · have hB := forall_cleanupStackTrace_children
        (A := fun t' => (t'.stack ∈ F ∧ FramesIn F t'.children) ∧ Coherent t')
        (B := fun t' => (t'.stack ∈ F ∧ FramesIn F t'.children) ∧ Coherent t') (t := t) ?_ ?_ ?_
      · exact fun d hd => (hB d hd).2
      · rintro t' ht' ⟨⟨hstack, hsub⟩, hcoh⟩
        rw [cleanupStackTrace_stack]
        exact ⟨⟨hstack, framesIn_cleanupStackTrace hsub⟩, ih t' ht' hsub hcoh⟩
      · intro s hs
        obtain ⟨c, hc, hcs⟩ := List.mem_filterMap.mp hs
        exact ⟨survivor_framesIn hcs (hframes c hc), (survivor_coherent hcs (hchildren c hc)).1⟩
      · rintro it it2 ⟨hit, hcoh⟩ ⟨hit2, hcoh2⟩ -
        exact ⟨framesIn_unite hit hit2, coherent_unite hcoh hcoh2⟩

/-- Where different frames have different addresses `operator==` is an equivalence. -/
theorem equivOn_of_addresses {cs : List MultiStackInfo}
    (h : ∀ a ∈ preorder cs, ∀ b ∈ preorder cs, a.stack.address = b.stack.address →
      a.stack.address2 = b.stack.address2 ∧ a.stack.object = b.stack.object) :
    StackInfo.EquivOn {f | ∃ n ∈ preorder cs, n.stack = f} := by
  refine StackInfo.OneProcess.equivOn ?_
  rintro f ⟨a, ha, rfl⟩ g ⟨b, hb, rfl⟩
  exact h a ha b hb

instance (t : MultiStackInfo) : Decidable (Coherent t) :=
  inferInstanceAs (Decidable (∀ n ∈ t :: preorder t.children, (n.children.map N).sum ≤ n.N))

end MultiStackInfo

/-! ## Main result -/

namespace Stored

open MultiStackInfo (Coherent preorder)

/-- If every node has as many threads as its children together or more, the same holds after
    `cleanupStackTrace`, and the root has the count and the frame that it had, where every
    entry that is replaced is replaceable at that time. -/
theorem coherent_returns {s : Stored} (h : s.WellReplaced)
    (hF : StackInfo.EquivOn {f | ∃ n ∈ preorder s.value.children, n.stack = f})
    (hs : Coherent s.value) :
    ∃ s', s.Returns s' ∧ Coherent s'.value ∧ s'.N = s.N ∧ s'.stack = s.stack := by
  obtain ⟨s', hs', hvalue⟩ := returns_of_wellReplaced h
  obtain ⟨hcoherent, hN, hstack⟩ :=
    MultiStackInfo.coherent_cleanupStackTrace hF (fun n hn => ⟨n, hn, rfl⟩) hs
  rw [← hvalue] at hcoherent hN hstack
  refine ⟨s', hs', hcoherent, ?_, ?_⟩
  · rw [← value_N, hN, value_N]
  · rw [← value_stack, hstack, value_stack]

/-- An unwanted entry is replaced by `main`, which is united with the `main` before it. -/
theorem coherent_returns_united :
    let start :=
      StackInfo.ofFields 0x7f1000 0x1000 (ascii "libc.so.6") (ascii "__libc_start_main") []
    let main := StackInfo.ofFields 0x401000 0x1000 (ascii "a.out") (ascii "main") []
    let poll := StackInfo.ofFields 0x402000 0x2000 (ascii "a.out") (ascii "poll") []
    let s : Stored := ⟨3, .init, 0,
      [⟨1, main, 0, [⟨1, poll, 0, []⟩]⟩, ⟨2, start, 1, [⟨2, main, 0, []⟩]⟩]⟩
    ∃ s', s.Returns s' ∧ Coherent s'.value := by
  intro start main poll s
  obtain ⟨s', hrun⟩ := Limited.isOk_iff.mp
    (show (cleanupWith promoteReplaceable 6 s).isOk = true by decide +kernel)
  obtain ⟨s', hs', hcoherent, -⟩ := coherent_returns (wellReplaced_of_run hrun)
    (MultiStackInfo.equivOn_of_addresses (by decide +kernel)) (by decide +kernel)
  exact ⟨s', hs', hcoherent⟩

/-- A child with two callees is assigned to an entry with room for four. Of the callees of the
    first callee, which are three, the second takes the place of the second callee. -/
theorem incoherent_returns :
    ¬ ∀ s : Stored, StackInfo.EquivOn {f | ∃ n ∈ preorder s.value.children, n.stack = f} →
      Coherent s.value →
      ∃ s', s.Returns s' ∧ Coherent s'.value ∧ s'.N = s.N ∧ s'.stack = s.stack := by
  intro h
  let poll := StackInfo.ofFields 0x403000 0x3000 (ascii "a.out") (ascii "poll") []
  let read := StackInfo.ofFields 0x404000 0x4000 (ascii "a.out") (ascii "read") []
  let x := StackInfo.ofFields 0x405000 0x5000 (ascii "a.out") (ascii "x") []
  let y := StackInfo.ofFields 0x406000 0x6000 (ascii "a.out") (ascii "y") []
  let z := StackInfo.ofFields 0x407000 0x7000 (ascii "a.out") (ascii "z") []
  let s := roomy 7 0
    [⟨6, poll, 1, [⟨1, x, 0, []⟩, ⟨4, y, 0, []⟩, ⟨1, z, 0, []⟩]⟩, ⟨1, read, 0, []⟩]
  obtain ⟨t, hrun, ht⟩ := Limited.exists_of_any
    (show (s.cleanupStackTrace 9).toOption.any (fun t => ¬ Coherent t.value) = true by
      decide +kernel)
  obtain ⟨s', hs', hcoherent, -⟩ :=
    h s (MultiStackInfo.equivOn_of_addresses (by decide +kernel)) (by decide +kernel)
  rw [hs'.eq_of_run hrun] at ht
  exact of_decide_eq_true ht hcoherent

end Stored

end StackTrace
