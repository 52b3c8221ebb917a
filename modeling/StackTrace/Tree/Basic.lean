import StackTrace.Frame

/-!
# `multi_stack_info`: the call stacks of many threads as one tree

`StackTrace.h`, lines 53–88. A node carries the number `N` of threads that are
in its frame by the same way, the frame and its callees. `int N` is an
unbounded `ℤ` here; what depends on its 32 bits (`pack`, `stoi`) says so.

A list of nodes is called a forest. `preorder` lists all nodes of a forest,
`descendants` those below a root.
-/

namespace StackTrace

/-- `struct multi_stack_info`. -/
structure MultiStackInfo where
  N : ℤ
  stack : StackInfo
  children : List MultiStackInfo

namespace MultiStackInfo

/-- `multi_stack_info::multi_stack_info()`. -/
def init : MultiStackInfo := ⟨0, .init, []⟩

/-- `multi_stack_info::clear` (lines 413–418). -/
def clear (t : MultiStackInfo) : MultiStackInfo := ⟨0, t.stack.clear, []⟩

theorem eq_of_fields {t u : MultiStackInfo} (hN : t.N = u.N) (hstack : t.stack = u.stack)
    (hchildren : t.children = u.children) : t = u := by
  cases t
  cases u
  simp_all

/-- Structural induction: a property passes from the children to the node. -/
@[elab_as_elim]
theorem induction {P : MultiStackInfo → Prop}
    (node : ∀ t : MultiStackInfo, (∀ c ∈ t.children, P c) → P t) (t : MultiStackInfo) : P t := by
  refine @MultiStackInfo.rec P (fun cs => ∀ c ∈ cs, P c) ?_ ?_ ?_ t
  · intro N stack children ih
    exact node ⟨N, stack, children⟩ ih
  · simp
  · intro c cs hc hcs
    simpa using ⟨hc, hcs⟩

/-- Induction over a forest: the children of its first tree, then the rest. -/
@[elab_as_elim]
theorem forest_induction {P : List MultiStackInfo → Prop} (nil : P [])
    (cons : ∀ x xs, P x.children → P xs → P (x :: xs)) (cs : List MultiStackInfo) : P cs := by
  have node : ∀ t : MultiStackInfo, P t.children := by
    intro t
    refine @MultiStackInfo.rec (fun t => P t.children) P ?_ nil ?_ t
    · intro N stack children ih
      exact ih
    · exact fun x xs => cons x xs
  exact node ⟨0, .init, cs⟩

/-! ## Height -/

mutual

/-- The number of edges on the longest way down. -/
def height : MultiStackInfo → ℕ
  | ⟨_, _, children⟩ => forestHeight children

/-- The number of nodes on the longest way down a forest. -/
def forestHeight : List MultiStackInfo → ℕ
  | [] => 0
  | c :: cs => max (c.height + 1) (forestHeight cs)

end

theorem height_eq (t : MultiStackInfo) : t.height = forestHeight t.children := by
  cases t; rfl

theorem forestHeight_le {cs : List MultiStackInfo} {n : ℕ} :
    forestHeight cs ≤ n ↔ ∀ c ∈ cs, c.height < n := by
  induction cs with
  | nil => simp [forestHeight]
  | cons c cs ih => simp [forestHeight, ih]

theorem height_le {t : MultiStackInfo} {n : ℕ} : t.height ≤ n ↔ ∀ c ∈ t.children, c.height < n := by
  rw [height_eq, forestHeight_le]

theorem height_lt_of_mem {t c : MultiStackInfo} (hc : c ∈ t.children) : c.height < t.height :=
  height_le.mp le_rfl c hc

/-! ## The nodes of a tree -/

mutual

/-- The nodes below `t`, in preorder. -/
def descendants : MultiStackInfo → List MultiStackInfo
  | ⟨_, _, children⟩ => preorder children

/-- The nodes of a forest, in preorder. -/
def preorder : List MultiStackInfo → List MultiStackInfo
  | [] => []
  | c :: cs => c :: (c.descendants ++ preorder cs)

end

theorem descendants_eq (t : MultiStackInfo) : t.descendants = preorder t.children := by
  cases t; rfl

theorem preorder_cons (c : MultiStackInfo) (cs : List MultiStackInfo) :
    preorder (c :: cs) = c :: (preorder c.children ++ preorder cs) := by
  rw [preorder, descendants_eq]

theorem mem_preorder {cs : List MultiStackInfo} {n : MultiStackInfo} :
    n ∈ preorder cs ↔ ∃ c ∈ cs, n = c ∨ n ∈ preorder c.children := by
  induction cs with
  | nil => simp [preorder]
  | cons c cs ih => simp [preorder_cons, ih, or_assoc]

/-- What holds of every node of a forest holds of the roots and below them. -/
theorem forall_preorder {cs : List MultiStackInfo} {P : MultiStackInfo → Prop} :
    (∀ n ∈ preorder cs, P n) ↔ ∀ c ∈ cs, P c ∧ ∀ n ∈ preorder c.children, P n := by
  constructor
  · intro h c hc
    exact ⟨h c (mem_preorder.mpr ⟨c, hc, .inl rfl⟩),
      fun n hn => h n (mem_preorder.mpr ⟨c, hc, .inr hn⟩)⟩
  · intro h n hn
    obtain ⟨c, hc, rfl | hn⟩ := mem_preorder.mp hn
    · exact (h n hc).1
    · exact (h c hc).2 n hn

/-- The number of nodes of a forest. -/
def nodes (cs : List MultiStackInfo) : ℕ := (preorder cs).length

@[simp] theorem nodes_nil : nodes [] = 0 := rfl

@[simp] theorem nodes_cons (c : MultiStackInfo) (cs : List MultiStackInfo) :
    nodes (c :: cs) = 1 + nodes c.children + nodes cs := by
  simp [nodes, preorder_cons]; omega

/-- Every frame of the forest is in `F`. -/
def FramesIn (F : Set StackInfo) (cs : List MultiStackInfo) : Prop :=
  ∀ n ∈ preorder cs, n.stack ∈ F

theorem framesIn_iff {F : Set StackInfo} {cs : List MultiStackInfo} :
    FramesIn F cs ↔ ∀ c ∈ cs, c.stack ∈ F ∧ FramesIn F c.children :=
  forall_preorder

@[simp] theorem framesIn_nil (F : Set StackInfo) : FramesIn F [] := by
  simp [FramesIn, preorder]

/-! ## Properties of the list of children at every node -/

/-- `P` holds of the roots of the forest and of the children of every node. -/
def Hereditarily (P : List MultiStackInfo → Prop) (cs : List MultiStackInfo) : Prop :=
  P cs ∧ ∀ n ∈ preorder cs, P n.children

theorem hereditarily_iff {P : List MultiStackInfo → Prop} {cs : List MultiStackInfo} :
    Hereditarily P cs ↔ P cs ∧ ∀ c ∈ cs, Hereditarily P c.children :=
  and_congr_right fun _ => forall_preorder

/-- No two roots of the forest have equal frames. -/
def NoTwins (cs : List MultiStackInfo) : Prop :=
  cs.Pairwise fun a b => a.stack.opEq b.stack = false

/-! ## Sums of `N` level by level -/

/-- The sum of `N` over the nodes at depth `d` below `t`. -/
def levelSum : ℕ → MultiStackInfo → ℤ
  | 0, t => t.N
  | d + 1, t => (t.children.map (levelSum d)).sum

/-- The sum of `N` over the nodes at depth `d` of a forest. -/
def forestSum (d : ℕ) (cs : List MultiStackInfo) : ℤ := (cs.map (levelSum d)).sum

theorem levelSum_succ (d : ℕ) (t : MultiStackInfo) :
    levelSum (d + 1) t = forestSum d t.children := rfl

@[simp] theorem forestSum_nil (d : ℕ) : forestSum d [] = 0 := rfl

@[simp] theorem forestSum_cons (d : ℕ) (c : MultiStackInfo) (cs : List MultiStackInfo) :
    forestSum d (c :: cs) = levelSum d c + forestSum d cs := by
  simp [forestSum]

@[simp] theorem forestSum_append (d : ℕ) (cs ds : List MultiStackInfo) :
    forestSum d (cs ++ ds) = forestSum d cs + forestSum d ds := by
  simp [forestSum]

end MultiStackInfo

end StackTrace
