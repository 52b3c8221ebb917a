import StackTrace.Base.Machine
import StackTrace.Cleanup.Run
import StackTrace.Text.Parse
import StackTrace.Tree.Add
import StackTrace.Tree.Pack

/-!
# The public operations on trees

A program that uses the library holds trees and applies to them, in any order, the
operations of `multi_stack_info` (`StackTrace.h`, lines 54–75), `generateFromString` and
`cleanupStackTrace`. A step replaces one tree; the run ends where an operation is
undefined or throws.

* `step_eq_some`: what a step does.
* `forall_step`: what holds of all trees holds after a step, if it holds of the new one.
-/

namespace StackTrace

namespace MultiStackInfo

/-! ## Model -/

/-- `empty()` (`StackTrace.h`, line 67). -/
def empty (t : MultiStackInfo) : Bool := t.N = 0

/-- `operator=( const std::vector<stack_info> & )` (lines 401–412), which the constructor
    from a call stack calls. The guard `rhs.size() > 1` only skips a call that would
    return at once. -/
def assign (t : MultiStackInfo) : (rhs : List StackInfo) → MultiStackInfo
  | [] => t.clear
  | stack :: rhs =>
    { t.clear with N := 1, stack := stack }.addStack rhs.length fun i => rhs.getD i .init

/-- The trees of the program, by their names. -/
abbrev Trees := ℕ → MultiStackInfo

/-- Every `N` is a value of its type `int`. -/
def IntValued (t : MultiStackInfo) : Prop := ∀ n ∈ t :: preorder t.children, IsInt n.N

instance (t : MultiStackInfo) : Decidable (IntValued t) :=
  inferInstanceAs (Decidable (∀ n ∈ t :: preorder t.children, IsInt n.N))

/-- An operation on the tree `i`. Construction from a call stack is `assign`. -/
inductive Operation
  | assign (i : ℕ) (rhs : List StackInfo)
  | clear (i : ℕ)
  | addStack (i : ℕ) (stack : List StackInfo)
  | add (i j : ℕ)
  /-- `pack` of the tree `j` and `unpack` of the bytes into `i`. -/
  | unpack (i j : ℕ)
  | generateFromString (i : ℕ) (str : Bytes)
  | generateFromLines (i : ℕ) (text : List Bytes)
  /-- With so many steps, and so much room in the vectors of the tree. -/
  | cleanupStackTrace (i fuel : ℕ) (room : List ℕ → ℕ)

namespace Operation

/-- The tree that is replaced. -/
def target : Operation → ℕ
  | assign i _ | clear i | addStack i _ | add i _ | unpack i _ | generateFromString i _
  | generateFromLines i _ | cleanupStackTrace i _ _ => i

/-- The tree that takes its place. `add` is for another tree: its loop reads the
    children of `rhs` while it changes its own. -/
def result (s : Trees) : Operation → Option MultiStackInfo
  | assign i rhs => some ((s i).assign rhs)
  | clear i => some (s i).clear
  | addStack i stack => some ((s i).addStack stack.length fun k => stack.getD k .init)
  | add i j => if i = j then none else some ((s i).add (s j))
  | unpack i j => unpackPacked (s j) (s i)
  | generateFromString _ str => StackTrace.generateFromString str
  | generateFromLines _ text => StackTrace.generateFromLines text
  | cleanupStackTrace i fuel room =>
    ((Stored.store room (s i)).cleanupStackTrace fuel).toOption.map Stored.value

end Operation

/-- One operation. A number that leaves the range of `int` is undefined. -/
def step (s : Trees) (op : Operation) : Option Trees := do
  let t ← op.result s
  if IntValued t then some (Function.update s op.target t) else none

/-- Default constructed trees. -/
def initial : Trees := fun _ => init

/-! ## Steps -/

theorem step_eq_some {s s' : Trees} {op : Operation} : step s op = some s' ↔
    ∃ t, op.result s = some t ∧ IntValued t ∧ s' = Function.update s op.target t := by
  unfold step
  rw [Option.bind_eq_bind, Option.bind_eq_some_iff]
  refine exists_congr fun t => and_congr_right fun _ => ?_
  split_ifs with h
  · simp [h, eq_comm]
  · simp [h]

theorem forall_step {P : MultiStackInfo → Prop} {s s' : Trees} {op : Operation} (hs : ∀ i, P (s i))
    (hstep : step s op = some s') (hresult : ∀ t, op.result s = some t → P t) (i : ℕ) :
    P (s' i) := by
  obtain ⟨t, ht, -, rfl⟩ := step_eq_some.mp hstep
  by_cases hi : i = op.target
  · rw [hi, Function.update_self]
    exact hresult t ht
  · rw [Function.update_of_ne hi]
    exact hs i

/-- What a clean-up makes of a tree comes from a run on it, with some room in its vectors. -/
theorem cleanupStackTrace_eq_some {s : Trees} {i fuel : ℕ} {room : List ℕ → ℕ}
    {t : MultiStackInfo} (h : Operation.result s (.cleanupStackTrace i fuel room) = some t) :
    ∃ u v : Stored, u.value = s i ∧ u.cleanupStackTrace fuel = .ok v ∧ v.value = t := by
  obtain ⟨v, hv, rfl⟩ := Option.map_eq_some_iff.mp h
  exact ⟨Stored.store room (s i), v, Stored.value_store room (s i),
    Limited.eq_ok_of_toOption hv, rfl⟩

/-- It returns if every entry that is replaced is replaceable at that time. -/
theorem cleanupStackTrace_returns {s : Trees} {i : ℕ} {room : List ℕ → ℕ}
    (h : (Stored.store room (s i)).WellReplaced) : ∃ n t, ∀ fuel, n ≤ fuel →
      Operation.result s (.cleanupStackTrace i fuel room) = some t := by
  obtain ⟨v, ⟨n, hn⟩, -⟩ := Stored.returns_of_wellReplaced h
  refine ⟨n, v.value, fun fuel hfuel => ?_⟩
  show ((Stored.store room (s i)).cleanupStackTrace fuel).toOption.map Stored.value = _
  rw [hn fuel hfuel]
  rfl

theorem intValued_init : IntValued init := by
  intro n hn
  obtain rfl : n = init := by simpa [init, preorder] using hn
  exact ⟨by decide, by decide⟩

theorem intValued_step {s s' : Trees} {op : Operation} (hs : ∀ i, IntValued (s i))
    (hstep : step s op = some s') (i : ℕ) : IntValued (s' i) := by
  obtain ⟨t, ht, hint, -⟩ := step_eq_some.mp hstep
  refine forall_step hs hstep (fun u hu => ?_) i
  obtain rfl := Option.some.inj (ht.symm.trans hu)
  exact hint

/-! ## Call stacks -/

theorem addStack_list (t : MultiStackInfo) (stack : List StackInfo) :
    (t.addStack stack.length fun k => stack.getD k .init) =
      { t with children := insertWord stack.reverse t.children } := by
  rw [addStack_eq, reverse_map_getD]

theorem assign_cons (t : MultiStackInfo) (stack : StackInfo) (rhs : List StackInfo) :
    t.assign (stack :: rhs) = ⟨1, stack, insertWord rhs.reverse []⟩ :=
  addStack_list _ rhs

end MultiStackInfo

end StackTrace
