import StackTrace.Base.Keyed
import StackTrace.Tree.Basic

/-!
# `multi_stack_info::add` and `generateMultiStack`

`StackTrace.cpp`, lines 490–523 and 1210–1221. `addStack` enters one call
stack, `add` a whole tree. On the children of the root both are functions of
forests: `insertWord` enters a call stack read outermost frame first,
`addForest` enters the trees of another forest one after the other.
-/

namespace StackTrace

namespace MultiStackInfo

open Keyed

/-! ## Model -/

/-- The loop over `children` in `add( size_t len, const stack_info *stack )`
    and what follows it (lines 495–507): the first child in the frame `s`
    counts the thread and takes the rest of the stack, without one a child is
    appended. `rest` is the recursive call. -/
def addLoop (s : StackInfo) (rest : MultiStackInfo → MultiStackInfo) :
    List MultiStackInfo → List MultiStackInfo
  | [] => [rest ⟨1, s, []⟩]
  | i :: is =>
    if i.stack.opEq s then rest { i with N := i.N + 1 } :: is else i :: addLoop s rest is

/-- `add( size_t len, const stack_info *stack )` (lines 490–508); `stack` is
    the array that is pointed to, innermost frame at 0. The guard `len > 1`
    only skips a call that would return at once. -/
def addStack : (len : ℕ) → (stack : ℕ → StackInfo) → MultiStackInfo → MultiStackInfo
  | 0, _, t => t
  | len + 1, stack, t => { t with children := addLoop (stack len) (addStack len stack) t.children }

mutual

/-- `add( const multi_stack_info &rhs )` (lines 509–523). -/
def add : MultiStackInfo → (rhs : MultiStackInfo) → MultiStackInfo
  | t, ⟨N, _, xs⟩ => { t with N := t.N + N, children := addForest t.children xs }

/-- The loop over `rhs.children` (lines 512–522): `x` goes to every child in
    the same frame, since the inner loop has no `break`; without one it is
    appended to the list that the next `x` scans. -/
def addForest : List MultiStackInfo → (xs : List MultiStackInfo) → List MultiStackInfo
  | children, [] => children
  | children, x :: xs =>
    addForest
      (if children.any fun tmp => tmp.stack.opEq x.stack then
        children.map fun tmp => if tmp.stack.opEq x.stack then tmp.add x else tmp
      else children ++ [x]) xs

end

/-- `generateMultiStack` after its call of `generateStacks` (lines 1215–1220). -/
def multiStackOf (stack : List (List StackInfo)) : MultiStackInfo :=
  stack.foldl (fun t tmp => t.addStack tmp.length fun i => tmp.getD i .init)
    { init with N := stack.length }

/-! ## Entering a call stack -/

/-- Enter the call stack `w`, outermost frame first, into a forest. -/
def insertWord : (w : List StackInfo) → List MultiStackInfo → List MultiStackInfo
  | [], cs => cs
  | f :: w, cs =>
    upsert (fun i => i.stack.opEq f)
      (fun i => { i with N := i.N + 1, children := insertWord w i.children })
      ⟨1, f, insertWord w []⟩ cs

theorem addLoop_eq_upsert (s : StackInfo) (rest : MultiStackInfo → MultiStackInfo)
    (cs : List MultiStackInfo) :
    addLoop s rest cs =
      upsert (fun i => i.stack.opEq s) (fun i => rest { i with N := i.N + 1 }) (rest ⟨1, s, []⟩)
        cs := by
  induction cs with
  | nil => rfl
  | cons i is ih => simp only [addLoop, upsert, ih]

theorem addStack_eq (len : ℕ) (stack : ℕ → StackInfo) (t : MultiStackInfo) :
    t.addStack len stack =
      { t with children := insertWord ((List.range len).reverse.map stack) t.children } := by
  induction len generalizing t with
  | zero => cases t; rfl
  | succ len ih =>
    have hrest : addStack len stack =
        fun t =>
          { t with children := insertWord ((List.range len).reverse.map stack) t.children } :=
      funext ih
    rw [addStack, addLoop_eq_upsert, hrest, List.range_succ, List.reverse_append]
    rfl

theorem reverse_map_getD (s : List StackInfo) (d : StackInfo) :
    (List.range s.length).reverse.map (fun i => s.getD i d) = s.reverse := by
  rw [List.map_reverse]
  congr 1
  apply List.ext_getElem
  · simp
  · intro i h1 h2
    simp [List.getElem?_eq_getElem h2]

/-- The forest that the call stacks `S` make. -/
def forestOf (S : List (List StackInfo)) : List MultiStackInfo :=
  S.foldl (fun cs s => insertWord s.reverse cs) []

theorem forestOf_append_singleton (S : List (List StackInfo)) (s : List StackInfo) :
    forestOf (S ++ [s]) = insertWord s.reverse (forestOf S) := by
  simp [forestOf]

theorem multiStackOf_eq (S : List (List StackInfo)) :
    multiStackOf S = ⟨S.length, .init, forestOf S⟩ := by
  have key : ∀ (S : List (List StackInfo)) (t : MultiStackInfo),
      S.foldl (fun t tmp => t.addStack tmp.length fun i => tmp.getD i .init) t =
        { t with children := S.foldl (fun cs s => insertWord s.reverse cs) t.children } := by
    intro S
    induction S with
    | nil => intro t; cases t; rfl
    | cons s S ih =>
      intro t
      rw [List.foldl_cons, ih, addStack_eq, reverse_map_getD]
      rfl
  rw [multiStackOf, key]
  rfl

@[simp] theorem multiStackOf_N (S : List (List StackInfo)) : (multiStackOf S).N = S.length := by
  rw [multiStackOf_eq]

@[simp] theorem multiStackOf_stack (S : List (List StackInfo)) :
    (multiStackOf S).stack = .init := by
  rw [multiStackOf_eq]

@[simp] theorem multiStackOf_children (S : List (List StackInfo)) :
    (multiStackOf S).children = forestOf S := by
  rw [multiStackOf_eq]

/-! ## Entering a tree -/

theorem add_eq (t rhs : MultiStackInfo) :
    t.add rhs =
      { t with N := t.N + rhs.N, children := addForest t.children rhs.children } := by
  cases rhs
  rw [add]

@[simp] theorem add_N (t rhs : MultiStackInfo) : (t.add rhs).N = t.N + rhs.N := by rw [add_eq]

@[simp] theorem add_stack (t rhs : MultiStackInfo) : (t.add rhs).stack = t.stack := by rw [add_eq]

@[simp] theorem add_children (t rhs : MultiStackInfo) :
    (t.add rhs).children = addForest t.children rhs.children := by rw [add_eq]

/-- One round of the loop over `rhs.children`. -/
def addTo (x : MultiStackInfo) (cs : List MultiStackInfo) : List MultiStackInfo :=
  absorb (fun tmp => tmp.stack.opEq x.stack) (fun tmp => tmp.add x) x cs

@[simp] theorem addForest_nil (cs : List MultiStackInfo) : addForest cs [] = cs := by
  rw [addForest]

theorem addForest_cons (cs : List MultiStackInfo) (x : MultiStackInfo) (xs : List MultiStackInfo) :
    addForest cs (x :: xs) = addForest (addTo x cs) xs := by
  rw [addForest]; rfl

theorem addForest_append (cs xs ys : List MultiStackInfo) :
    addForest cs (xs ++ ys) = addForest (addForest cs xs) ys := by
  induction xs generalizing cs with
  | nil => simp
  | cons x xs ih => rw [List.cons_append, addForest_cons, addForest_cons, ih]

/-- The frames of the children, in order. -/
def frames (cs : List MultiStackInfo) : List StackInfo := cs.map (·.stack)

theorem frames_addTo (x : MultiStackInfo) (cs : List MultiStackInfo) :
    frames (addTo x cs) =
      if cs.any (fun tmp => tmp.stack.opEq x.stack) then frames cs else frames cs ++ [x.stack] := by
  refine map_absorb stack ?_ cs
  intro tmp; exact add_stack tmp x

theorem frames_insertWord (f : StackInfo) (w : List StackInfo) (cs : List MultiStackInfo) :
    frames (insertWord (f :: w) cs) =
      if cs.any (fun tmp => tmp.stack.opEq f) then frames cs else frames cs ++ [f] := by
  rw [insertWord]
  refine map_upsert stack ?_ cs
  intro i; rfl

/-! ## What holds of every node -/

/-- Entering one item keeps what holds of every node, when the updated and the
    new tree have it. -/
theorem forall_preorder_upsert {P : MultiStackInfo → Prop} {m : MultiStackInfo → Bool}
    {g : MultiStackInfo → MultiStackInfo} {new : MultiStackInfo} {cs : List MultiStackInfo}
    (hcs : ∀ n ∈ preorder cs, P n)
    (hg : ∀ c ∈ cs, m c = true → P (g c) ∧ ∀ n ∈ preorder (g c).children, P n)
    (hnew : P new ∧ ∀ n ∈ preorder new.children, P n) :
    ∀ n ∈ preorder (upsert m g new cs), P n := by
  rw [forall_preorder] at hcs ⊢
  induction cs with
  | nil => simpa [upsert] using hnew
  | cons c cs ih =>
    rw [upsert]
    split_ifs with hc
    · simp only [List.mem_cons, forall_eq_or_imp] at hcs ⊢
      exact ⟨hg c (by simp) hc, hcs.2⟩
    · simp only [List.mem_cons, forall_eq_or_imp] at hcs ⊢
      exact ⟨hcs.1, ih hcs.2 fun d hd => hg d (by simp [hd])⟩

theorem framesIn_insertWord {F : Set StackInfo} {w : List StackInfo} (hw : ∀ f ∈ w, f ∈ F)
    {cs : List MultiStackInfo} (hcs : FramesIn F cs) : FramesIn F (insertWord w cs) := by
  induction w generalizing cs with
  | nil => exact hcs
  | cons f w ih =>
    have hw' : ∀ g ∈ w, g ∈ F := fun g hg => hw g (by simp [hg])
    refine forall_preorder_upsert hcs (fun c hc _ => ?_) ⟨hw f (by simp), ih hw' (framesIn_nil F)⟩
    have := framesIn_iff.mp hcs c hc
    exact ⟨this.1, ih hw' this.2⟩

theorem framesIn_forestOf {F : Set StackInfo} {S : List (List StackInfo)}
    (hS : ∀ s ∈ S, ∀ f ∈ s, f ∈ F) : FramesIn F (forestOf S) := by
  induction S using List.reverseRecOn with
  | nil => exact framesIn_nil F
  | append_singleton S s ih =>
    rw [forestOf_append_singleton]
    refine framesIn_insertWord (fun f hf => hS s (by simp) f (by simpa using hf)) (ih ?_)
    exact fun s' hs' => hS s' (by simp [hs'])

/-- Every node has been entered at least once. -/
theorem one_le_N_insertWord (w : List StackInfo) {cs : List MultiStackInfo}
    (hcs : ∀ n ∈ preorder cs, 1 ≤ n.N) : ∀ n ∈ preorder (insertWord w cs), 1 ≤ n.N := by
  induction w generalizing cs with
  | nil => exact hcs
  | cons f w ih =>
    refine forall_preorder_upsert hcs (fun c hc _ => ?_) ⟨le_rfl, ih (by simp [preorder])⟩
    obtain ⟨hN, hsub⟩ := forall_preorder.mp hcs c hc
    refine ⟨?_, ih hsub⟩
    show 1 ≤ c.N + 1
    omega

theorem one_le_N_forestOf (S : List (List StackInfo)) : ∀ n ∈ preorder (forestOf S), 1 ≤ n.N := by
  induction S using List.reverseRecOn with
  | nil => simp [forestOf, preorder]
  | append_singleton S s ih =>
    rw [forestOf_append_singleton]
    exact one_le_N_insertWord s.reverse ih

end MultiStackInfo

end StackTrace
