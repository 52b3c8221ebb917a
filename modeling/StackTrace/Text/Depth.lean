import StackTrace.Text.RoundTrip
import StackTrace.Tree.Add

/-!
# How deep a tree may be that is printed

`StackTrace.cpp`, lines 419–468, 1129–1155 and 1210–1221. `backtrace` has room for 1000
addresses, and the tree of its call stacks is as high as the longest of them. `prefix2` has
1024 characters, and each printed node of a way takes two of them.

* `forestHeight_forestOf`: the height of the tree that `generateMultiStack` builds.
* `print_isSome_iff`: `print` stays in its arrays if and only if no way has more than 512
  printed nodes, for frames with addresses if and only if no call stack has more frames.
-/

namespace StackTrace

namespace MultiStackInfo

/-! ## The height of the tree -/

theorem forestHeight_upsert {m : MultiStackInfo → Bool} {g : MultiStackInfo → MultiStackInfo}
    {new : MultiStackInfo} {h : ℕ} (hg : ∀ c, (g c).height + 1 = max h (c.height + 1))
    (hnew : new.height + 1 = h) (cs : List MultiStackInfo) :
    forestHeight (Keyed.upsert m g new cs) = max h (forestHeight cs) := by
  induction cs with
  | nil =>
    rw [Keyed.upsert, forestHeight, forestHeight, hnew]
    rfl
  | cons c cs ih =>
    rw [Keyed.upsert]
    split_ifs
    · rw [forestHeight, forestHeight, hg, max_assoc]
    · rw [forestHeight, forestHeight, ih, max_left_comm]

/-- A call stack reaches as deep as it has frames. -/
theorem forestHeight_insertWord (w : List StackInfo) (cs : List MultiStackInfo) :
    forestHeight (insertWord w cs) = max w.length (forestHeight cs) := by
  induction w generalizing cs with
  | nil =>
    rw [insertWord, List.length_nil]
    omega
  | cons f w ih =>
    refine forestHeight_upsert (fun c => ?_) ?_ cs
    · rw [height_eq, height_eq, ih, List.length_cons]
      omega
    · rw [height_eq, ih, List.length_cons, forestHeight]
      omega

theorem forestHeight_forestOf {S : List (List StackInfo)} {n : ℕ} :
    forestHeight (forestOf S) ≤ n ↔ ∀ s ∈ S, s.length ≤ n := by
  induction S using List.reverseRecOn with
  | nil => simp [forestOf, forestHeight]
  | append_singleton S s ih =>
    rw [forestOf_append_singleton, forestHeight_insertWord, max_le_iff, ih, List.length_reverse]
    constructor
    · rintro ⟨hs, hS⟩ s' hs'
      rcases List.mem_append.mp hs' with hs' | hs'
      · exact hS s' hs'
      · rw [List.mem_singleton.mp hs']
        exact hs
    · exact fun h => ⟨h s (by simp), fun s' hs' => h s' (by simp [hs'])⟩

/-- Where all nodes are printed. -/
theorem printedForestHeight_eq {cs : List MultiStackInfo}
    (hcs : ∀ n ∈ preorder cs, n.stack.address ≠ 0) :
    printedForestHeight cs = forestHeight cs := by
  induction cs using forest_induction with
  | nil => rfl
  | cons x xs ihx ihxs =>
    rw [preorder_cons, List.forall_mem_cons, List.forall_mem_append] at hcs
    obtain ⟨hx, hsub, hothers⟩ := hcs
    have ihx := ihx hsub
    obtain ⟨N, stack, children⟩ := x
    rw [printedForestHeight, printedHeight, forestHeight, height, ihxs hothers, if_pos hx,
      show printedForestHeight children = forestHeight children from ihx, Nat.add_comm]

/-- The root has no address. -/
theorem printedHeight_multiStackOf (S : List (List StackInfo)) :
    (multiStackOf S).printedHeight = printedForestHeight (forestOf S) := by
  have hinit : ¬ StackInfo.init.address ≠ 0 := by decide
  rw [multiStackOf_eq, printedHeight, if_neg hinit, Nat.zero_add]

/-! ## The numbers of the nodes -/

theorem N_le_insertWord {k : ℤ} (hk : 0 ≤ k) (w : List StackInfo) {cs : List MultiStackInfo}
    (hcs : ∀ n ∈ preorder cs, n.N ≤ k) : ∀ n ∈ preorder (insertWord w cs), n.N ≤ k + 1 := by
  have hup : ∀ {ds : List MultiStackInfo}, (∀ n ∈ preorder ds, n.N ≤ k) →
      ∀ n ∈ preorder ds, n.N ≤ k + 1 := fun h n hn => (h n hn).trans (by omega)
  induction w generalizing cs with
  | nil => exact hup hcs
  | cons f w ih =>
    refine forall_preorder_upsert (hup hcs) (fun c hc _ => ?_) ⟨?_, ih (by simp [preorder])⟩
    · obtain ⟨hN, hsub⟩ := forall_preorder.mp hcs c hc
      exact ⟨Int.add_le_add_right hN 1, ih hsub⟩
    · show (1 : ℤ) ≤ k + 1
      omega

theorem N_le_forestOf (S : List (List StackInfo)) :
    ∀ n ∈ preorder (forestOf S), n.N ≤ S.length := by
  induction S using List.reverseRecOn with
  | nil => simp [forestOf, preorder]
  | append_singleton S s ih =>
    rw [forestOf_append_singleton, List.length_append, List.length_singleton]
    exact N_le_insertWord (by omega) s.reverse ih

/-! ## What is printed -/

/-- Its texts end, and its number has at most 20 characters. -/
structure FitsLine (t : MultiStackInfo) : Prop where
  texts : t.stack.TextsEnd
  number : (printInt t.N).length ≤ 20

theorem length_printInt_of_lt {z : ℤ} (h0 : 0 ≤ z) {k : ℕ} (hk : 0 < k) (hz : z < 10 ^ k) :
    (printInt z).length ≤ k := by
  unfold printInt
  rw [if_neg (by omega)]
  refine length_numeral_le (by norm_num) hk ?_
  zify
  rwa [abs_of_nonneg h0]

/-- Every line fits into `line`. -/
theorem renderForest_isSome {w : Widths} (hw : w.Bounded) {cs : List MultiStackInfo}
    (hcs : ∀ n ∈ preorder cs, FitsLine n) {pre : Bytes}
    (hlen : pre.length + 2 * printedForestHeight cs ≤ 1024) (bar : Bool) :
    (renderForest w pre bar cs).isSome = true := by
  induction cs using forest_induction generalizing pre bar with
  | nil => rfl
  | cons x xs ihx ihxs =>
    rw [preorder_cons, List.forall_mem_cons, List.forall_mem_append] at hcs
    obtain ⟨hx, hsub, hothers⟩ := hcs
    obtain ⟨N, stack, children⟩ := x
    rw [printedForestHeight, printedHeight] at hlen
    have hrest : (renderForest w pre bar xs).isSome = true := ihxs hothers (by omega) bar
    obtain ⟨lines', hlines'⟩ := Option.isSome_iff_exists.mp hrest
    rw [renderForest, render, hlines']
    by_cases haddr : stack.address ≠ 0
    · rw [if_pos haddr] at hlen ⊢
      have hchildren : (renderForest w (pre ++ [if !xs.isEmpty && bar then 124 else 32, 32]) true
          children).isSome = true := by
        refine ihx hsub ?_ true
        show _ + 2 * printedForestHeight children ≤ 1024
        rw [List.length_append, List.length_cons, List.length_singleton]
        omega
      obtain ⟨lines, hlines⟩ := Option.isSome_iff_exists.mp hchildren
      rw [printLine_eq hw (by omega) hx.number hx.texts, hlines]
      rfl
    · rw [if_neg haddr] at hlen ⊢
      have hchildren : (renderForest w pre false children).isSome = true := by
        refine ihx hsub ?_ false
        show _ + 2 * printedForestHeight children ≤ 1024
        omega
      obtain ⟨lines, hlines⟩ := Option.isSome_iff_exists.mp hchildren
      rw [hlines]
      rfl

/-! ## Main result -/

section Traces

variable {S : List (List StackInfo)}

theorem fitsLine_forestOf (hS : ∀ s ∈ S, ∀ f ∈ s, f.TextsEnd) (hlen : S.length < 2 ^ 64) :
    ∀ n ∈ preorder (forestOf S), FitsLine n := by
  intro n hn
  have hpos := one_le_N_forestOf S n hn
  have hle := N_le_forestOf S n hn
  have hframes : FramesIn {f | f.TextsEnd} (forestOf S) := framesIn_forestOf hS
  exact ⟨hframes n hn, length_printInt_of_lt (by omega) (by norm_num) (by norm_num; omega)⟩

/-- `print` and `printString` stay in their arrays if and only if no way of the tree has more
    than 512 printed nodes. -/
theorem print_isSome_iff (hS : ∀ s ∈ S, ∀ f ∈ s, f.TextsEnd) (hlen : S.length < 2 ^ 64)
    (prefix2 : CharArray 1024) :
    ((multiStackOf S).print prefix2 []).isSome = true ↔ (multiStackOf S).printedHeight ≤ 512 := by
  rw [print_within _ prefix2 (by simp) (by simp), List.length_nil, Nat.sub_zero]
  by_cases hroom : 2 * (multiStackOf S).printedHeight ≤ 1024
  · have hinit : ¬ StackInfo.init.address ≠ 0 := by decide
    have hforest : (renderForest (multiStackOf S).widths [] false (forestOf S)).isSome = true := by
      refine renderForest_isSome (widths_bounded _) (fitsLine_forestOf hS hlen) ?_ false
      rw [← printedHeight_multiStackOf, List.length_nil]
      omega
    rw [within_of_le hroom]
    refine iff_of_true ?_ (by omega)
    rw [multiStackOf_eq] at hforest ⊢
    rwa [render, if_neg hinit]
  · rw [within_of_lt (Nat.not_le.mp hroom)]
    refine iff_of_false (by simp) (by omega)

/-- Of frames with addresses all are printed. -/
theorem printedHeight_le_iff (haddr : ∀ s ∈ S, ∀ f ∈ s, f.address ≠ 0) {n : ℕ} :
    (multiStackOf S).printedHeight ≤ n ↔ ∀ s ∈ S, s.length ≤ n := by
  have hframes : FramesIn {f | f.address ≠ 0} (forestOf S) := framesIn_forestOf haddr
  rw [printedHeight_multiStackOf, printedForestHeight_eq hframes, forestHeight_forestOf]

/-- Nothing is written behind `prefix2` and `line` if and only if no way of the tree has more
    than 512 printed nodes. Where all frames have addresses, this means that no call stack
    has more than 512 frames. -/
theorem print_in_bounds_iff (hS : ∀ s ∈ S, ∀ f ∈ s, f.TextsEnd) (hlen : S.length < 2 ^ 64)
    (prefix2 : CharArray 1024) :
    (((multiStackOf S).print prefix2 []).isSome = true ∧
        ((multiStackOf S).printString prefix2 []).isSome = true ↔
      (multiStackOf S).printedHeight ≤ 512) ∧
    ((∀ s ∈ S, ∀ f ∈ s, f.address ≠ 0) →
      ((multiStackOf S).printedHeight ≤ 512 ↔ ∀ s ∈ S, s.length ≤ 512)) := by
  refine ⟨?_, fun haddr => printedHeight_le_iff haddr⟩
  rw [printString_eq, Option.isSome_map, and_self]
  exact print_isSome_iff hS hlen prefix2

end Traces

/-- A frame of a function that calls itself. -/
def deepFrame : StackInfo := .ofFields 0x401136 0x1136 (ascii "a.out") (ascii "visit") []

theorem print_in_bounds_iff_three :
    ((multiStackOf [List.replicate 3 deepFrame]).print (.zero 1024) []).isSome = true := by
  have htexts : deepFrame.TextsEnd := ⟨by decide, by decide, by decide⟩
  have hS : ∀ s ∈ [List.replicate 3 deepFrame], ∀ f ∈ s, f.TextsEnd := by
    simpa using htexts
  have h := print_in_bounds_iff hS (by decide) (.zero 1024)
  have haddr : ∀ s ∈ [List.replicate 3 deepFrame], ∀ f ∈ s, f.address ≠ 0 := by
    intro s hs f hf
    rw [List.mem_singleton.mp hs] at hf
    rw [List.eq_of_mem_replicate hf]
    decide
  exact (h.1.mpr ((h.2 haddr).mpr (by simp))).1

/-- A call stack of 513 frames. -/
theorem print_deep :
    (List.replicate 513 deepFrame).length ≤ 1000 ∧ deepFrame.TextsEnd ∧
      (multiStackOf [List.replicate 513 deepFrame]).print (.zero 1024) [] = none := by
  have htexts : deepFrame.TextsEnd := ⟨by decide, by decide, by decide⟩
  refine ⟨by rw [List.length_replicate]; omega, htexts, ?_⟩
  have hall : ∀ {P : StackInfo → Prop}, P deepFrame →
      ∀ s ∈ [List.replicate 513 deepFrame], ∀ f ∈ s, P f := by
    intro P hP s hs f hf
    rw [List.mem_singleton.mp hs] at hf
    rwa [List.eq_of_mem_replicate hf]
  have hlen : [List.replicate 513 deepFrame].length < 2 ^ 64 := by
    rw [List.length_singleton]
    norm_num
  rw [← Option.not_isSome_iff_eq_none, print_isSome_iff (hall htexts) hlen,
    printedHeight_le_iff (hall (by decide))]
  intro h
  have hle := h _ (List.mem_singleton_self _)
  rw [List.length_replicate] at hle
  omega

end MultiStackInfo

end StackTrace
