import StackTrace.Tree.Operations

/-!
# Does `empty()` tell the truth?

`empty()` looks at `N` alone. `operator=` sets `N`, and `add` of a tree adds the two `N`,
but `generateFromString` (`StackTrace.cpp`, lines 2259–2273) and `add` of a call stack
(lines 490–508) put frames below a root and leave its `N`.

* `empty_iff`: throughout a sequence of operations every tree that is `empty()` has no
  frames, just if no call stack is added to an empty tree and no text with a frame is
  read.
-/

namespace StackTrace

namespace MultiStackInfo

/-- The operation does not put frames below a root whose `N` is 0. A line is taken for a
    frame if it has an `x`. -/
def Counts (s : Trees) : Operation → Prop
  | .addStack i stack => stack ≠ [] → (s i).empty = false
  | .generateFromString _ str => ∀ line ∈ breakLines str, findChar line 120 = npos
  | .generateFromLines _ text => ∀ line ∈ text, findChar line 120 = npos
  | _ => True

/-- `N` is not negative, and it is 0 for a root without children only. -/
structure Truthful (t : MultiStackInfo) : Prop where
  nonneg : 0 ≤ t.N
  leaf : t.N = 0 → t.children = []

theorem truthful_init : Truthful init := ⟨le_rfl, fun _ => rfl⟩

theorem Truthful.empty {t : MultiStackInfo} (h : Truthful t) (hempty : t.empty = true) :
    t.children = [] := by
  apply h.leaf
  simpa [MultiStackInfo.empty] using hempty

theorem truthful_clear (t : MultiStackInfo) : Truthful t.clear := ⟨le_rfl, fun _ => rfl⟩

theorem truthful_assign (t : MultiStackInfo) (rhs : List StackInfo) : Truthful (t.assign rhs) := by
  cases rhs with
  | nil => exact truthful_clear t
  | cons stack rhs =>
    rw [assign_cons]
    exact ⟨zero_le_one, fun h => absurd h one_ne_zero⟩

theorem Truthful.addStack {t : MultiStackInfo} (h : Truthful t) {stack : List StackInfo}
    (hcounts : stack ≠ [] → t.empty = false) :
    Truthful (t.addStack stack.length fun k => stack.getD k .init) := by
  rw [addStack_list]
  refine ⟨h.nonneg, fun hN => ?_⟩
  by_cases hstack : stack = []
  · subst hstack
    exact h.leaf hN
  · have hne : t.N ≠ 0 := by simpa [MultiStackInfo.empty] using hcounts hstack
    exact absurd hN hne

theorem Truthful.add {t u : MultiStackInfo} (ht : Truthful t) (hu : Truthful u) :
    Truthful (t.add u) := by
  have h1 := ht.nonneg
  have h2 := hu.nonneg
  refine ⟨by rw [add_N]; omega, fun hN => ?_⟩
  rw [add_N] at hN
  rw [add_children, ht.leaf (by omega), hu.leaf (by omega), addForest_nil]

theorem Truthful.unpackPacked {t u v : MultiStackInfo} (ht : Truthful t) (hint : IntValued t)
    (h : unpackPacked t u = some v) : Truthful v := by
  obtain ⟨hN, hleaf⟩ := unpackPacked_root (hint t (by simp)) h
  refine ⟨hN ▸ ht.nonneg, fun hzero => hleaf (ht.leaf ?_)⟩
  rw [← hN, hzero]

theorem Truthful.cleanupStackTrace {fuel : ℕ} {u v : Stored} (hu : Truthful u.value)
    (h : u.cleanupStackTrace fuel = .ok v) : Truthful v.value := by
  have hN : v.value.N = u.value.N := by
    rw [Stored.value_N, Stored.value_N, (Stored.root_cleanupStackTrace h).1]
  refine ⟨hN ▸ hu.nonneg, fun hzero => ?_⟩
  have hleaf := hu.leaf (hN ▸ hzero)
  rw [Stored.value_children, Stored.values_eq_map, List.map_eq_nil_iff] at hleaf ⊢
  exact Stored.leaf_cleanupStackTrace h hleaf

/-- The root of a tree that is read from text has `N = 0`, and children for the lines
    with an `x`. -/
theorem generateFromLines_root {text : List Bytes} {t : MultiStackInfo}
    (h : generateFromLines text = some t) :
    t.N = 0 ∧ (t.children = [] ↔ ∀ line ∈ text, findChar line 120 = npos) := by
  obtain ⟨lines, hlines, rfl⟩ := generateFromLines_eq_some h
  refine ⟨rfl, ?_⟩
  rw [← scanLines_eq_nil hlines]
  show nest lines = [] ↔ lines = []
  cases lines with
  | nil => simp [nest]
  | cons line lines =>
    obtain ⟨indent, node⟩ := line
    simp [nest_cons]

/-- Operations that count keep trees truthful. -/
theorem truthful_result {s : Trees} (hs : ∀ i, IntValued (s i) ∧ Truthful (s i)) {op : Operation}
    (hcounts : Counts s op) {t : MultiStackInfo} (h : op.result s = some t) : Truthful t := by
  have htext : ∀ text : List Bytes, (∀ line ∈ text, findChar line 120 = npos) →
      generateFromLines text = some t → Truthful t := by
    intro text hnone htext
    obtain ⟨hN, hchildren⟩ := generateFromLines_root htext
    exact ⟨hN.ge, fun _ => hchildren.mpr hnone⟩
  cases op with
  | assign i rhs =>
    obtain rfl := Option.some.inj h
    exact truthful_assign (s i) rhs
  | clear i =>
    obtain rfl := Option.some.inj h
    exact truthful_clear (s i)
  | addStack i stack =>
    obtain rfl := Option.some.inj h
    exact (hs i).2.addStack hcounts
  | add i j =>
    simp only [Operation.result] at h
    split_ifs at h
    obtain rfl := Option.some.inj h
    exact (hs i).2.add (hs j).2
  | unpack i j => exact (hs j).2.unpackPacked (hs j).1 h
  | generateFromString i str => exact htext (breakLines str) hcounts h
  | generateFromLines i text => exact htext text hcounts h
  | cleanupStackTrace i fuel room =>
    obtain ⟨u, v, hu, hrun, rfl⟩ := cleanupStackTrace_eq_some h
    exact Truthful.cleanupStackTrace (hu ▸ (hs i).2) hrun

/-- The others make a tree that is `empty()` and has frames. -/
theorem empty_of_not_counts {s : Trees} {op : Operation} (hcounts : ¬ Counts s op)
    {t : MultiStackInfo} (h : op.result s = some t) : t.empty = true ∧ t.children ≠ [] := by
  have htext : ∀ text : List Bytes, (¬ ∀ line ∈ text, findChar line 120 = npos) →
      generateFromLines text = some t → t.empty = true ∧ t.children ≠ [] := by
    intro text hsome htext
    obtain ⟨hN, hchildren⟩ := generateFromLines_root htext
    exact ⟨by simp [empty, hN], fun h => hsome (hchildren.mp h)⟩
  cases op with
  | addStack i stack =>
    obtain rfl := Option.some.inj h
    obtain ⟨hstack, hempty⟩ := Classical.not_imp.mp hcounts
    rw [addStack_list]
    refine ⟨by simpa [empty] using hempty, ?_⟩
    show insertWord stack.reverse (s i).children ≠ []
    cases hw : stack.reverse with
    | nil => exact absurd (List.reverse_eq_nil_iff.mp hw) hstack
    | cons f w =>
      intro hnil
      have hframes := frames_insertWord f w (s i).children
      rw [hnil] at hframes
      split_ifs at hframes with hany
      · rw [frames, List.map_nil] at hframes
        rw [List.map_eq_nil_iff.mp hframes.symm] at hany
        exact absurd hany (by simp)
      · simp [frames] at hframes
  | generateFromString i str => exact htext (breakLines str) hcounts h
  | generateFromLines i text => exact htext text hcounts h
  | _ => exact absurd trivial hcounts

/-! ## Main result -/

/-- Throughout a sequence of operations, a tree that is `empty()` has no frames, just if
    every operation counts: call stacks are added to trees with `N ≠ 0` only, and texts
    that are read have no frame. -/
theorem empty_iff {ops : List Operation} {s : Trees}
    (hrun : Machine.run step initial ops = some s) :
    Machine.Meets step Counts initial ops ↔
      ∀ p t, p <+: ops → Machine.run step initial p = some t →
        ∀ i, (t i).empty = true → (t i).children = [] := by
  refine Machine.meets_iff (I := fun t : Trees => ∀ i, IntValued (t i) ∧ Truthful (t i))
    (fun t op u h hcounts hstep i => ?_) (fun t op u _ hcounts hstep hall => ?_)
    (fun t h i => (h i).2.empty) (fun _ => ⟨intValued_init, truthful_init⟩) hrun
  · exact ⟨intValued_step (fun j => (h j).1) hstep i,
      forall_step (fun j => (h j).2) hstep (fun _ ht => truthful_result h hcounts ht) i⟩
  · obtain ⟨v, hv, -, rfl⟩ := step_eq_some.mp hstep
    obtain ⟨hempty, hchildren⟩ := empty_of_not_counts hcounts hv
    have htarget := hall op.target
    rw [Function.update_self] at htarget
    exact hchildren (htarget hempty)

/-- Two call stacks in one tree, which is added to another one and cleared. -/
theorem empty_iff_two_trees :
    ∃ s, Machine.run step initial [.assign 0 [.init, .init], .addStack 0 [.init], .add 1 0,
        .clear 0] = some s ∧ ∀ i, (s i).empty = true → (s i).children = [] := by
  have hrun : Machine.run step initial [.assign 0 [.init, .init], .addStack 0 [.init], .add 1 0,
    .clear 0] = some _ := rfl
  refine ⟨_, rfl, (empty_iff hrun).mp ?_ _ _ (List.prefix_refl _) hrun⟩
  refine ⟨trivial, fun t ht => ⟨fun _ => ?_, fun _ _ => ⟨trivial, fun _ _ => ⟨trivial,
    fun _ _ => trivial⟩⟩⟩⟩
  obtain rfl := Option.some.inj ht
  rfl

/-- A call stack is added to a default constructed tree. -/
theorem empty_lies :
    ¬ ∀ (ops : List Operation) (s : Trees), Machine.run step initial ops = some s →
      ∀ i, (s i).empty = true → (s i).children = [] := by
  intro h
  have hchildren := h [.addStack 0 [.init]] _ rfl 0 rfl
  exact absurd hchildren (List.cons_ne_nil _ _)

end MultiStackInfo

end StackTrace
