import StackTrace.Tree.Operations

/-!
# A tree from one call stack

`StackTrace.cpp`, lines 397–412 and 490–508. A call stack has its innermost frame at
index 0. The constructor puts that frame into the root, and `add` enters what is left
from the other end of the stack.

* `isChain_insertWord`: an empty list of children becomes a chain of the frames that are
  entered.
* `isChain_assign`: the chain that the constructor builds.
* `isChain_reverse_assign_iff`: the stacks whose chain leads from the outermost frame to
  the innermost one.
-/

namespace StackTrace

namespace MultiStackInfo

/-- One node for each frame, from the root to the only leaf, and one thread in each. -/
inductive IsChain : List StackInfo → MultiStackInfo → Prop
  | leaf (s : StackInfo) : IsChain [s] ⟨1, s, []⟩
  | node (s : StackInfo) {frames : List StackInfo} {t : MultiStackInfo} (h : IsChain frames t) :
    IsChain (s :: frames) ⟨1, s, [t]⟩

/-- A tree is a chain of one list of frames at most. -/
theorem IsChain.unique {frames frames' : List StackInfo} {t : MultiStackInfo}
    (h : IsChain frames t) (h' : IsChain frames' t) : frames = frames' := by
  induction h generalizing frames' with
  | leaf s =>
    cases h'
    rfl
  | node s _ ih =>
    cases h' with
    | node _ h' => rw [ih h']

/-- A new node and the frames that are entered below it. -/
theorem isChain_insertWord (s : StackInfo) (w : List StackInfo) :
    IsChain (s :: w) ⟨1, s, insertWord w []⟩ := by
  induction w generalizing s with
  | nil => exact IsChain.leaf s
  | cons f w ih => exact IsChain.node s (ih f)

/-- The constructor leaves the innermost frame at the root, and the others below it from the
    outermost one on. -/
theorem isChain_assign (t : MultiStackInfo) (s : StackInfo) (rhs : List StackInfo) :
    IsChain (s :: rhs.reverse) (t.assign (s :: rhs)) := by
  rw [assign_cons]
  exact isChain_insertWord s rhs.reverse

/-- Moving the last element to the front changes nothing in constant lists only. -/
theorem append_singleton_eq_cons_iff {α : Type*} {a : α} {l : List α} :
    l ++ [a] = a :: l ↔ ∀ b ∈ l, b = a := by
  induction l with
  | nil => simp
  | cons b l ih =>
    rw [List.cons_append, List.cons.injEq, List.forall_mem_cons]
    constructor
    · rintro ⟨rfl, h⟩
      exact ⟨rfl, ih.mp h⟩
    · rintro ⟨rfl, h⟩
      exact ⟨rfl, ih.mpr h⟩

/-- `multi_stack_info( rhs )` keeps the order of the frames if and only if all frames are
    the same one. -/
theorem isChain_reverse_assign_iff (t : MultiStackInfo) (rhs : List StackInfo) (hrhs : rhs ≠ []) :
    IsChain rhs.reverse (t.assign rhs) ↔ ∀ s ∈ rhs, ∀ s' ∈ rhs, s = s' := by
  obtain ⟨s, rhs, rfl⟩ := List.exists_cons_of_ne_nil hrhs
  have hchain : IsChain (s :: rhs).reverse (t.assign (s :: rhs)) ↔
      rhs.reverse ++ [s] = s :: rhs.reverse := by
    rw [List.reverse_cons]
    refine ⟨fun h => h.unique (isChain_assign t s rhs), fun h => ?_⟩
    rw [h]
    exact isChain_assign t s rhs
  rw [hchain, append_singleton_eq_cons_iff]
  simp only [List.mem_reverse, List.mem_cons]
  constructor
  · intro h x hx y hy
    have heq : ∀ z, z = s ∨ z ∈ rhs → z = s := fun z hz => hz.elim id (h z)
    rw [heq x hx, heq y hy]
  · exact fun h b hb => h b (.inr hb) s (.inl rfl)

/-- A frame with an address and nothing else. -/
def frameAt (address : UInt64) : StackInfo := { StackInfo.init with address := address }

/-- A recursion, stopped in its third call. -/
theorem isChain_reverse_assign_three :
    IsChain [frameAt 1, frameAt 1, frameAt 1]
      (init.assign [frameAt 1, frameAt 1, frameAt 1]) :=
  (isChain_reverse_assign_iff init [frameAt 1, frameAt 1, frameAt 1] (by simp)).mpr (by simp)

/-- A call stack of two frames, with the caller below the callee. -/
theorem not_isChain_two :
    ¬ ∀ rhs : List StackInfo, rhs ≠ [] → IsChain rhs.reverse (init.assign rhs) := by
  intro h
  have hchain : IsChain [frameAt 2, frameAt 1] (init.assign [frameAt 1, frameAt 2]) :=
    h [frameAt 1, frameAt 2] (by simp)
  have heq := hchain.unique (isChain_assign init (frameAt 1) [frameAt 2])
  have haddress : (2 : UInt64) = 1 := congrArg StackInfo.address (List.cons.inj heq).1
  exact absurd haddress (by decide)

end MultiStackInfo

end StackTrace
