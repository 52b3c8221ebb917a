import StackTrace.Tree.Merge

/-!
# Thread counts when trees of different processes are merged

Two processes may load an object at different addresses, so `operator==` can
find two children for one entry: one by the address and another one by the key.
`add` gives the entry to both, because the loop over the children (lines
514–519) goes on after a match, and its threads are counted twice.

* `le_forestSum_addForest`: no thread is lost.
* `levelSum_add_iff_meetsOnce`: the sums of `N` add up at every depth if and
  only if every entry finds one child at most wherever it is entered.
-/

namespace StackTrace

namespace MultiStackInfo

open Keyed

/-! ## Which child an entry meets -/

/-- `operator==` finds the child `c` for the entry `x`. -/
def meets (x c : MultiStackInfo) : Bool := c.stack.opEq x.stack

/-- The children of the entries that go to `c`, in the order they are entered. -/
def callees (xs : List MultiStackInfo) (c : MultiStackInfo) : List MultiStackInfo :=
  (xs.filter fun x => meets x c).flatMap (·.children)

/-- An entry finds one child at most: one of `cs`, or an earlier entry that
    found none. -/
structure Once (cs xs : List MultiStackInfo) : Prop where
  one : ∀ x ∈ xs, cs.countP (meets x) ≤ 1
  fresh : xs.Pairwise fun y x =>
    y.stack.opEq x.stack = true → cs.any (meets x) = true → cs.any (meets y) = true

/-- The same wherever entries go. -/
inductive MeetsOnce : (cs xs : List MultiStackInfo) → Prop
  | intro {cs xs : List MultiStackInfo} (once : Once cs xs)
      (sub : ∀ c ∈ cs, MeetsOnce c.children (callees xs c)) : MeetsOnce cs xs

variable {F : Set StackInfo} {cs xs : List MultiStackInfo} {x c : MultiStackInfo}

theorem addTo_eq (x : MultiStackInfo) (cs : List MultiStackInfo) :
    addTo x cs = absorb (meets x) (fun c => c.add x) x cs := rfl

/-! ## Sums of one round -/

@[simp] theorem levelSum_add_zero (t x : MultiStackInfo) :
    levelSum 0 (t.add x) = levelSum 0 t + levelSum 0 x :=
  add_N t x

theorem levelSum_add_succ (d : ℕ) (t x : MultiStackInfo) :
    levelSum (d + 1) (t.add x) = forestSum d (addForest t.children x.children) := by
  rw [levelSum_succ, add_children]

theorem forestSum_nonneg (hcs : ∀ n ∈ preorder cs, 0 ≤ n.N) (d : ℕ) : 0 ≤ forestSum d cs := by
  induction d generalizing cs with
  | zero =>
    apply List.sum_nonneg
    intro v hv
    obtain ⟨c, hc, rfl⟩ := List.mem_map.mp hv
    exact (forall_preorder.mp hcs c hc).1
  | succ d ih =>
    apply List.sum_nonneg
    intro v hv
    obtain ⟨c, hc, rfl⟩ := List.mem_map.mp hv
    exact ih (forall_preorder.mp hcs c hc).2

theorem levelSum_nonneg (hN : 0 ≤ c.N) (hc : ∀ n ∈ preorder c.children, 0 ≤ n.N) (d : ℕ) :
    0 ≤ levelSum d c := by
  cases d with
  | zero => exact hN
  | succ d => exact forestSum_nonneg hc d

/-- At the roots an entry is counted once for each child it meets. -/
theorem forestSum_zero_addTo (x : MultiStackInfo) (cs : List MultiStackInfo) :
    forestSum 0 (addTo x cs) = forestSum 0 cs + max 1 (cs.countP (meets x)) * x.N := by
  refine sum_absorb (fun c _ _ => ?_) rfl
  exact add_N c x

/-! ## No thread is lost -/

theorem le_forestSum_addForest (hxs : ∀ n ∈ preorder xs, 0 ≤ n.N) (d : ℕ) :
    forestSum d cs + forestSum d xs ≤ forestSum d (addForest cs xs) := by
  induction xs using forest_induction generalizing cs d with
  | nil => simp
  | cons x xs ihx ihxs =>
    rw [forall_preorder] at hxs
    obtain ⟨hN, hx⟩ := hxs x (by simp)
    have hround : forestSum d cs + levelSum d x ≤ forestSum d (addTo x cs) := by
      refine le_sum_absorb (levelSum_nonneg hN hx d) (fun c _ _ => ?_) le_rfl
      cases d with
      | zero => exact (levelSum_add_zero c x).ge
      | succ d =>
        rw [levelSum_add_succ]
        exact ihx hx d
    have hrest := @ihxs (addTo x cs) (forall_preorder.mpr fun y hy => hxs y (by simp [hy])) d
    rw [addForest_cons, forestSum_cons]
    linarith

/-! ## Inside one process -/

theorem forestSum_addForest_of_sound (hF : StackInfo.EquivOn F) (hcs : Sound F cs)
    (hxs : ∀ x ∈ xs, x.stack ∈ F ∧ Sound F x.children) (d : ℕ) :
    forestSum d (addForest cs xs) = forestSum d cs + forestSum d xs := by
  induction xs using forest_induction generalizing cs d with
  | nil => simp
  | cons x xs ihx ihxs =>
    obtain ⟨hxF, hx⟩ := hxs x (by simp)
    have hround : forestSum d (addTo x cs) = forestSum d cs + levelSum d x := by
      rcases hcs.noTwins.match_cases hF hcs.stack hxF with hno | ⟨l₁, c, l₂, rfl, h₁, hc, h₂⟩
      · rw [addTo, absorb_of_none hno, forestSum_append, forestSum_cons, forestSum_nil, add_zero]
      · have hsub : levelSum d (c.add x) = levelSum d c + levelSum d x := by
          cases d with
          | zero => exact levelSum_add_zero c x
          | succ d =>
            rw [levelSum_add_succ]
            exact ihx (hcs.children (by simp)) hx.parts d
        rw [addTo, absorb_split h₁ hc h₂]
        simp only [forestSum_append, forestSum_cons, hsub]
        ring
    rw [addForest_cons, ihxs (hcs.addTo hxF hx) (fun y hy => hxs y (by simp [hy])), hround,
      forestSum_cons, add_assoc]

/-! ## Which frames the children have after some rounds -/

theorem addForest_snoc (cs xs : List MultiStackInfo) (x : MultiStackInfo) :
    addForest cs (xs ++ [x]) = addTo x (addForest cs xs) := by
  rw [addForest_append, addForest_cons, addForest_nil]

/-- The old children keep their frames; new children have frames of entries. -/
theorem frames_addForest (cs xs : List MultiStackInfo) :
    ∃ new, frames (addForest cs xs) = frames cs ++ new ∧ ∀ f ∈ new, f ∈ frames xs := by
  induction xs using List.reverseRecOn with
  | nil => exact ⟨[], by simp⟩
  | append_singleton xs x ih =>
    obtain ⟨new, hnew, hsub⟩ := ih
    rw [addForest_snoc, frames_addTo, hnew]
    split_ifs
    · exact ⟨new, rfl, fun f hf => by simp [frames] at hsub ⊢; exact .inl (hsub f hf)⟩
    · refine ⟨new ++ [x.stack], by simp, fun f hf => ?_⟩
      rw [frames, List.map_append]
      rcases List.mem_append.mp hf with hf | hf
      · exact List.mem_append_left _ (hsub f hf)
      · exact List.mem_append_right _ (by simpa using hf)

theorem any_meets (x : MultiStackInfo) (cs : List MultiStackInfo) :
    cs.any (meets x) = (frames cs).any fun f => f.opEq x.stack := by
  rw [frames, List.any_map]; rfl

theorem countP_meets (x : MultiStackInfo) (cs : List MultiStackInfo) :
    cs.countP (meets x) = (frames cs).countP fun f => f.opEq x.stack := by
  rw [frames, List.countP_map]; rfl

/-- Every entry has found its place. -/
theorem any_meets_addForest (hx : x ∈ xs) : (addForest cs xs).any (meets x) = true := by
  induction xs using List.reverseRecOn with
  | nil => simp at hx
  | append_singleton xs y ih =>
    rw [addForest_snoc]
    rcases List.mem_append.mp hx with hx | hx
    · exact any_addTo (ih hx)
    · obtain rfl := List.mem_singleton.mp hx
      exact any_addTo_self x _

/-! ## The roots decide `Once` -/

/-- If the roots are not overcounted, `x` has met one child. -/
theorem countP_meets_le_one (hN : 1 ≤ x.N)
    (hle : forestSum 0 cs + forestSum 0 xs ≤ forestSum 0 (addForest cs xs))
    (h : forestSum 0 (addForest cs (xs ++ [x])) = forestSum 0 cs + forestSum 0 (xs ++ [x])) :
    forestSum 0 (addForest cs xs) = forestSum 0 cs + forestSum 0 xs ∧
      (addForest cs xs).countP (meets x) ≤ 1 := by
  rw [addForest_snoc, forestSum_zero_addTo, forestSum_append, forestSum_cons, forestSum_nil] at h
  have hx : levelSum 0 x = x.N := rfl
  by_cases hk : (addForest cs xs).countP (meets x) ≤ 1
  · rw [max_eq_left (by omega), Nat.cast_one] at h
    exact ⟨by linarith, hk⟩
  · have h2 : (2 : ℤ) ≤ (max 1 ((addForest cs xs).countP (meets x)) : ℕ) := by omega
    nlinarith

theorem once_of_forestSum_zero (hF : StackInfo.EquivOn F) (hxs : ∀ x ∈ xs, x.stack ∈ F)
    (hN : ∀ n ∈ preorder xs, 1 ≤ n.N)
    (h : forestSum 0 (addForest cs xs) = forestSum 0 cs + forestSum 0 xs) : Once cs xs := by
  induction xs using List.reverseRecOn with
  | nil => exact ⟨by simp, by simp⟩
  | append_singleton xs x ih =>
    rw [forall_preorder] at hN
    have hN' : ∀ n ∈ preorder xs, 1 ≤ n.N := forall_preorder.mpr fun y hy => hN y (by simp [hy])
    have hle : forestSum 0 cs + forestSum 0 xs ≤ forestSum 0 (addForest cs xs) :=
      le_forestSum_addForest (fun n hn => by linarith [hN' n hn]) 0
    obtain ⟨hrec, hk⟩ := countP_meets_le_one (hN x (by simp)).1 hle h
    obtain ⟨hone, hfresh⟩ := ih (fun y hy => hxs y (by simp [hy])) hN' hrec
    -- the children that `x` sees are those of `cs` and new ones
    obtain ⟨new, hnew, hsub⟩ := frames_addForest cs xs
    rw [countP_meets, hnew, List.countP_append, ← countP_meets] at hk
    refine ⟨fun y hy => ?_, List.pairwise_append.mpr ⟨hfresh, by simp, fun y hy z hz => ?_⟩⟩
    · rcases List.mem_append.mp hy with hy | hy
      · exact hone y hy
      · obtain rfl := List.mem_singleton.mp hy
        omega
    · obtain rfl := List.mem_singleton.mp hz
      intro hyz hany
      have hpos : 1 ≤ cs.countP (meets z) := List.countP_pos_iff.mpr (List.any_eq_true.mp hany)
      have hfound : (addForest cs xs).any (meets y) = true := any_meets_addForest hy
      rw [any_meets, hnew, List.any_append, Bool.or_eq_true, ← any_meets] at hfound
      refine hfound.resolve_right fun hin => ?_
      -- the new child of `y` would be a second match for `z`
      obtain ⟨f, hf, hfy⟩ := List.any_eq_true.mp hin
      obtain ⟨w, hw, rfl⟩ := List.mem_map.mp (hsub f hf)
      have hwz := hF _ (hxs w (by simp [hw])) _ (hxs y (by simp [hy])) _ (hxs z (by simp)) hfy hyz
      have hpos' : 0 < new.countP fun f => f.opEq z.stack := List.countP_pos_iff.mpr ⟨_, hf, hwz⟩
      omega

/-! ## Where every entry goes, if it goes to one child -/

theorem foldl_add (xs : List MultiStackInfo) (c : MultiStackInfo) :
    xs.foldl add c =
      { c with
        N := c.N + forestSum 0 xs
        children := addForest c.children (xs.flatMap (·.children)) } := by
  induction xs generalizing c with
  | nil => cases c; simp
  | cons x xs ih =>
    rw [List.foldl_cons, ih, add_eq, forestSum_cons, List.flatMap_cons, addForest_append]
    simp only [levelSum, add_assoc]

@[simp] theorem foldl_add_stack (xs : List MultiStackInfo) (c : MultiStackInfo) :
    (xs.foldl add c).stack = c.stack := by
  rw [foldl_add]

/-- No new child is in a frame that no entry is in. -/
theorem meets_addForest_nil (h : ∀ y ∈ xs, meets x y = false) :
    ∀ c ∈ addForest [] xs, meets x c = false := by
  intro c hc
  obtain ⟨new, hnew, hsub⟩ := frames_addForest [] xs
  have hcs : c.stack ∈ new := by
    have hmem := List.mem_map_of_mem (f := stack) hc
    rwa [← frames, hnew] at hmem
  obtain ⟨y, hy, hyc⟩ := List.mem_map.mp (hsub _ hcs)
  rw [meets, ← hyc]
  exact h y hy

/-- The children of `cs` take their entries, the others make a forest of their own. -/
theorem addForest_of_once (h : Once cs xs) :
    addForest cs xs = (cs.map fun c => (xs.filter fun x => meets x c).foldl add c) ++
      addForest [] (xs.filter fun x => !cs.any (meets x)) := by
  induction xs using List.reverseRecOn with
  | nil => simp
  | append_singleton xs x ih =>
    obtain ⟨hone, hfresh⟩ := h
    obtain ⟨hfresh, -, hx⟩ := List.pairwise_append.mp hfresh
    have ih := ih ⟨fun y hy => hone y (by simp [hy]), hfresh⟩
    have hroot : ∀ c : MultiStackInfo,
        meets x ((xs.filter fun y => meets y c).foldl add c) = meets x c := by
      intro c
      rw [meets, foldl_add_stack, meets]
    have hroots : (cs.map fun c => (xs.filter fun y => meets y c).foldl add c).any (meets x) =
        cs.any (meets x) := by
      rw [List.any_map]
      exact congrArg (List.any cs) (funext hroot)
    rw [addForest_snoc, ih]
    by_cases hany : cs.any (meets x) = true
    · -- `x` goes to a child of `cs`, and no new child is in its frame
      have hnone : ∀ c ∈ addForest [] (xs.filter fun y => !cs.any (meets y)),
          meets x c = false := by
        refine meets_addForest_nil fun y hy => ?_
        rw [List.mem_filter] at hy
        rw [← Bool.not_eq_true]
        intro hyx
        have hmeets := hx y hy.1 x (by simp) hyx hany
        simp [hmeets] at hy
      have hxs : (xs ++ [x]).filter (fun y => !cs.any (meets y)) =
          xs.filter fun y => !cs.any (meets y) := by
        simp [List.filter_append, hany]
      rw [hxs, addTo_eq, absorb_append_of_any (hroots.trans hany) hnone,
        absorb_of_any (hroots.trans hany), List.map_map]
      congr 1
      apply List.map_congr_left
      intro c _
      rw [Function.comp_apply, List.filter_append]
      by_cases hxc : meets x c = true
      · rw [if_pos ((hroot c).trans hxc)]
        simp [hxc]
      · rw [if_neg (by rwa [← hroot c] at hxc)]
        simp [hxc]
    · -- `x` meets no child of `cs`
      rw [Bool.not_eq_true] at hany
      have hxs : (xs ++ [x]).filter (fun y => !cs.any (meets y)) =
          xs.filter (fun y => !cs.any (meets y)) ++ [x] := by
        simp [List.filter_append, hany]
      rw [hxs, addForest_snoc, addTo_eq,
        absorb_append_of_none (any_eq_false'.mp (hroots.trans hany))]
      congr 1
      apply List.map_congr_left
      intro c hc
      rw [List.filter_append]
      simp [any_eq_false'.mp hany c hc]

/-! ## How many threads are counted too often -/

/-- What `add` counts at depth `d` beyond the two sums. -/
def excess (d : ℕ) (cs xs : List MultiStackInfo) : ℤ :=
  forestSum d (addForest cs xs) - (forestSum d cs + forestSum d xs)

theorem excess_nonneg (hxs : ∀ n ∈ preorder xs, 0 ≤ n.N) (d : ℕ) : 0 ≤ excess d cs xs := by
  have hle : forestSum d cs + forestSum d xs ≤ forestSum d (addForest cs xs) :=
    le_forestSum_addForest hxs d
  unfold excess
  omega

theorem forestSum_succ (d : ℕ) (cs : List MultiStackInfo) :
    forestSum (d + 1) cs = forestSum d (cs.flatMap (·.children)) := by
  induction cs with
  | nil => rfl
  | cons c cs ih => rw [forestSum_cons, levelSum_succ, ih, List.flatMap_cons, forestSum_append]

theorem mem_callees {n : MultiStackInfo} (hn : n ∈ callees xs c) : ∃ x ∈ xs, n ∈ x.children := by
  obtain ⟨x, hx, hn⟩ := List.mem_flatMap.mp hn
  exact ⟨x, (List.mem_filter.mp hx).1, hn⟩

/-- The entries, sorted by the child they meet. -/
theorem sum_forestSum_filter (h : Once cs xs) (d : ℕ) :
    (cs.map fun c => forestSum d (xs.filter fun x => meets x c)).sum +
      forestSum d (xs.filter fun x => !cs.any (meets x)) = forestSum d xs :=
  sum_sum_filter cs h.one

/-- The forest after the merge, sorted the same way. -/
theorem forestSum_addForest_of_once (hF : StackInfo.EquivOn F)
    (hxs : ∀ x ∈ xs, x.stack ∈ F ∧ Sound F x.children) (h : Once cs xs) (d : ℕ) :
    forestSum d (addForest cs xs) =
      (cs.map fun c => levelSum d ((xs.filter fun x => meets x c).foldl add c)).sum +
        forestSum d (xs.filter fun x => !cs.any (meets x)) := by
  have hnew : forestSum d (addForest [] (xs.filter fun x => !cs.any (meets x))) =
      forestSum d [] + forestSum d (xs.filter fun x => !cs.any (meets x)) :=
    forestSum_addForest_of_sound hF Sound.nil (fun x hx => hxs x (List.mem_filter.mp hx).1) d
  rw [addForest_of_once h, forestSum_append, hnew, forestSum_nil, zero_add, forestSum, List.map_map]
  rfl

theorem excess_zero_of_once (hF : StackInfo.EquivOn F)
    (hxs : ∀ x ∈ xs, x.stack ∈ F ∧ Sound F x.children) (h : Once cs xs) : excess 0 cs xs = 0 := by
  have hroot : ∀ c ∈ cs, levelSum 0 ((xs.filter fun x => meets x c).foldl add c) =
      levelSum 0 c + forestSum 0 (xs.filter fun x => meets x c) := by
    intro c _
    rw [foldl_add]
    rfl
  have hsort := sum_forestSum_filter h 0
  have hcs : forestSum 0 cs = (cs.map (levelSum 0)).sum := rfl
  rw [excess, forestSum_addForest_of_once hF hxs h, List.map_congr_left hroot, List.sum_map_add,
    ← hsort, hcs]
  omega

/-- The excess below the roots arises below the single children. -/
theorem excess_succ_of_once (hF : StackInfo.EquivOn F)
    (hxs : ∀ x ∈ xs, x.stack ∈ F ∧ Sound F x.children) (h : Once cs xs) (d : ℕ) :
    excess (d + 1) cs xs = (cs.map fun c => excess d c.children (callees xs c)).sum := by
  have hchild : ∀ c ∈ cs, levelSum (d + 1) ((xs.filter fun x => meets x c).foldl add c) =
      excess d c.children (callees xs c) + (levelSum (d + 1) c +
        forestSum (d + 1) (xs.filter fun x => meets x c)) := by
    intro c _
    rw [foldl_add, levelSum_succ, levelSum_succ, forestSum_succ, excess, callees]
    ring
  have hsort := sum_forestSum_filter h (d + 1)
  have hcs : forestSum (d + 1) cs = (cs.map (levelSum (d + 1))).sum := rfl
  rw [excess, forestSum_addForest_of_once hF hxs h, List.map_congr_left hchild, List.sum_map_add,
    List.sum_map_add, ← hsort, hcs]
  omega

theorem excess_eq_zero_iff (hF : StackInfo.EquivOn F) (t : MultiStackInfo)
    (hxs : ∀ x ∈ xs, x.stack ∈ F ∧ Sound F x.children) (hN : ∀ n ∈ preorder xs, 1 ≤ n.N) :
    (∀ d, excess d t.children xs = 0) ↔ MeetsOnce t.children xs := by
  induction t using MultiStackInfo.induction generalizing xs with
  | node t ih =>
    have hsub : ∀ c, ∀ y ∈ callees xs c, y.stack ∈ F ∧ Sound F y.children := by
      intro c y hy
      obtain ⟨x, hx, hy⟩ := mem_callees hy
      exact (hxs x hx).2.parts y hy
    have hsubN : ∀ c, ∀ n ∈ preorder (callees xs c), 1 ≤ n.N := by
      intro c
      refine forall_preorder.mpr fun y hy => ?_
      obtain ⟨x, hx, hy⟩ := mem_callees hy
      exact forall_preorder.mp (forall_preorder.mp hN x hx).2 y hy
    constructor
    · intro h
      have hzero := h 0
      have honce : Once t.children xs := by
        refine once_of_forestSum_zero hF (fun x hx => (hxs x hx).1) hN ?_
        unfold excess at hzero
        omega
      refine .intro honce fun c hc => (ih c hc (hsub c) (hsubN c)).mp fun d => ?_
      -- no child has an excess to make up for
      have hsum := excess_succ_of_once hF hxs honce d
      rw [h (d + 1)] at hsum
      refine List.all_zero_of_le_zero_le_of_sum_eq_zero ?_ hsum.symm (List.mem_map_of_mem hc)
      intro v hv
      obtain ⟨b, -, rfl⟩ := List.mem_map.mp hv
      exact excess_nonneg (fun n hn => by linarith [hsubN b n hn]) d
    · rintro ⟨honce, hchildren⟩ d
      cases d with
      | zero => exact excess_zero_of_once hF hxs honce
      | succ d =>
        rw [excess_succ_of_once hF hxs honce]
        apply List.sum_eq_zero
        intro v hv
        obtain ⟨c, hc, rfl⟩ := List.mem_map.mp hv
        exact (ih c hc (hsub c) (hsubN c)).mpr (hchildren c hc) d

/-! ## Main result -/

/-- Merging the tree of one process into a tree adds up the sums of `N` at
    every depth if and only if `operator==` finds one child at most for every
    entry. -/
theorem levelSum_add_iff_meetsOnce {S T : List (List StackInfo)}
    (hT : StackInfo.OneProcess {f | ∃ s ∈ T, f ∈ s}) :
    (∀ d, levelSum d ((multiStackOf S).add (multiStackOf T)) =
      levelSum d (multiStackOf S) + levelSum d (multiStackOf T)) ↔
    MeetsOnce (multiStackOf S).children (multiStackOf T).children := by
  have hsound := sound_forestOf (S := T) fun s hs f hf => (⟨s, hs, hf⟩ : ∃ s ∈ T, f ∈ s)
  rw [multiStackOf_children T,
    ← excess_eq_zero_iff hT.equivOn (multiStackOf S) hsound.parts (one_le_N_forestOf T)]
  constructor
  · intro h d
    have := h (d + 1)
    rw [levelSum_add_succ, levelSum_succ, levelSum_succ, multiStackOf_children T] at this
    unfold excess
    omega
  · intro h d
    cases d with
    | zero => exact levelSum_add_zero _ _
    | succ d =>
      have := h d
      rw [levelSum_add_succ, levelSum_succ, levelSum_succ, multiStackOf_children T]
      unfold excess at this
      omega

/-- A library that two processes have at different addresses. -/
theorem levelSum_add_relocated :
    let work := StackInfo.ofFields 0x7f1000 0x1000 (ascii "libA.so") (ascii "work") []
    let work' := StackInfo.ofFields 0x8f1000 0x1000 (ascii "libA.so") (ascii "work") []
    levelSum 1 ((multiStackOf [[work]]).add (multiStackOf [[work']])) =
      levelSum 1 (multiStackOf [[work]]) + levelSum 1 (multiStackOf [[work']]) := by
  intro work work'
  have hT : StackInfo.OneProcess {f | ∃ s ∈ [[work']], f ∈ s} :=
    .of_forall_eq (f := work') (by simp)
  refine (levelSum_add_iff_meetsOnce hT).mpr (.intro ⟨by decide, by decide⟩ fun c hc => ?_) 1
  obtain rfl : c = ⟨1, work, []⟩ := List.mem_singleton.mp hc
  exact .intro ⟨by decide, by decide⟩ (by simp)

/-- Two processes with three threads: the third thread is in `libB.so`, at the
    address where the other process has `libA.so`. -/
theorem levelSum_add_overcounts :
    ¬∀ S T : List (List StackInfo), StackInfo.OneProcess {f | ∃ s ∈ S, f ∈ s} →
      StackInfo.OneProcess {f | ∃ s ∈ T, f ∈ s} →
      ∀ d, levelSum d ((multiStackOf S).add (multiStackOf T)) =
        levelSum d (multiStackOf S) + levelSum d (multiStackOf T) := by
  intro h
  let a := StackInfo.ofFields 0x7f1000 0x1000 (ascii "libA.so") (ascii "work") []
  let b := StackInfo.ofFields 0x802000 0x2000 (ascii "libB.so") (ascii "wait") []
  let b' := StackInfo.ofFields 0x7f1000 0x2000 (ascii "libB.so") (ascii "wait") []
  have hS : StackInfo.OneProcess {f | ∃ s ∈ [[a], [b]], f ∈ s} := by
    rintro x ⟨s, hs, hx⟩ y ⟨s', hs', hy⟩
    simp only [List.mem_cons, List.not_mem_nil, or_false] at hs hs'
    rcases hs with rfl | rfl <;> rcases hs' with rfl | rfl <;>
      obtain rfl := List.mem_singleton.mp hx <;> obtain rfl := List.mem_singleton.mp hy <;>
      decide
  have hT : StackInfo.OneProcess {f | ∃ s ∈ [[b']], f ∈ s} :=
    .of_forall_eq (f := b') (by simp)
  exact absurd (h [[a], [b]] [[b']] hS hT 1) (by decide)

end MultiStackInfo

end StackTrace
