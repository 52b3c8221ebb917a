import StackTrace.Base.Keyed
import StackTrace.Cleanup.Keep

/-!
# `cleanupStackTrace` on trees

`StackTrace.cpp`, lines 2107–2161. The function runs through the children of a
node while it changes them: an entry is erased, replaced by its only child and
looked at again, or cleaned by a recursive call and then united with the
entries before it that are `operator==` to it, each of which is cleaned once
more.

Here the assignment `*it = it->children[0]` puts a copy of the child in the place
of the entry, which is what it is for. `Stored.cleanupStackTrace` is the function
as it runs, and leaves the same wherever the assignment does.

The model has the loop as it is written. `survivor` says what becomes of an
entry before it is cleaned, `place` what happens to it afterwards, and
`cleanupStackTrace_children` reads the loop as one pass over the surviving
entries; everything else about the function is derived from this.
-/

namespace StackTrace

namespace MultiStackInfo

open Keyed

/-! ## Model -/

/-- What one round of the loop does with an entry. -/
inductive Round where
  | erase
  | replace (child : MultiStackInfo)
  | clean (it : MultiStackInfo)

/-- The first half of a round (lines 2112–2141): self traces are erased, `fgets`
    loses its callees, and an unwanted entry is erased or replaced by its only
    child. -/
def examine (it : MultiStackInfo) : Round :=
  if it.stack.selfTrace then .erase
  else
    let it := if it.stack.libcFgets then { it with children := [] } else it
    if !it.stack.keep then
      match it.children with
      | [] => .erase
      | [child] => .replace child
      | _ => .clean it
    else .clean it

/-- `it2` united with `it`, which is in the same frame (lines 2148–2150). -/
def unite (it it2 : MultiStackInfo) : MultiStackInfo :=
  { it2 with N := it2.N + it.N, children := it2.children ++ it.children }

/-- The loop over the entries before `it` (lines 2146–2154). -/
def combine (rec : MultiStackInfo → MultiStackInfo) (it : MultiStackInfo)
    (done : List MultiStackInfo) : List MultiStackInfo :=
  done.map fun it2 => if it.stack.opEq it2.stack then rec (unite it it2) else it2

theorem examine_eq_erase {it : MultiStackInfo} (h : examine it = .erase) :
    it.stack.selfTrace = true ∨
      it.stack.keep = false ∧ (it.stack.libcFgets = true ∨ it.children = []) := by
  obtain ⟨N, stack, _ | ⟨c, _ | ⟨d, cs⟩⟩⟩ := it <;> unfold examine at h <;>
    by_cases h1 : stack.selfTrace = true <;> by_cases h2 : stack.libcFgets = true <;>
      by_cases h3 : stack.keep = true <;> simp_all

theorem examine_eq_replace {it child : MultiStackInfo} (h : examine it = .replace child) :
    it.stack.selfTrace = false ∧ it.stack.libcFgets = false ∧ it.stack.keep = false ∧
      it.children = [child] := by
  obtain ⟨N, stack, _ | ⟨c, _ | ⟨d, cs⟩⟩⟩ := it <;> unfold examine at h <;>
    by_cases h1 : stack.selfTrace = true <;> by_cases h2 : stack.libcFgets = true <;>
      by_cases h3 : stack.keep = true <;> simp_all

/-- What is cleaned is the entry, or `fgets` without its callees. -/
theorem examine_eq_clean {it it' : MultiStackInfo} (h : examine it = .clean it') :
    it.stack.selfTrace = false ∧ it'.N = it.N ∧ it'.stack = it.stack ∧
      it'.children = (if it.stack.libcFgets then [] else it.children) ∧
      (it.stack.keep = true ∨ 2 ≤ it'.children.length) := by
  obtain ⟨N, stack, _ | ⟨c, _ | ⟨d, cs⟩⟩⟩ := it <;> unfold examine at h <;>
    by_cases h1 : stack.selfTrace = true <;> by_cases h2 : stack.libcFgets = true <;>
      by_cases h3 : stack.keep = true <;> simp_all <;> subst h <;> simp_all

theorem nodes_lt_of_examine {it child : MultiStackInfo} (h : examine it = .replace child)
    (todo : List MultiStackInfo) : nodes (child :: todo) < nodes (it :: todo) := by
  simp only [nodes_cons, (examine_eq_replace h).2.2.2, nodes_nil]
  omega

/-- The loop over `stack.children` (lines 2111–2160): `done` are the children
    before `it`, `it :: todo` the others; `rec` is the recursive call. The
    assignment `*it = it->children[0]` puts a copy of the child in the place of
    the entry. -/
def cleanupLoop (rec : MultiStackInfo → MultiStackInfo) :
    (done todo : List MultiStackInfo) → List MultiStackInfo
  | done, [] => done
  | done, it :: todo =>
    match _h : examine it with
    | .erase => cleanupLoop rec done todo
    | .replace child => cleanupLoop rec done (child :: todo)
    | .clean it =>
      let it := rec it
      if done.any fun it2 => it.stack.opEq it2.stack then
        cleanupLoop rec (combine rec it done) todo
      else cleanupLoop rec (done ++ [it]) todo
  termination_by _ todo => nodes todo
  decreasing_by
    · simp
    · exact nodes_lt_of_examine _h todo
    · simp
    · simp

/-- `cleanupStackTrace`, to a depth of `fuel`. -/
def cleanupFuel : (fuel : ℕ) → MultiStackInfo → MultiStackInfo
  | 0, stack => stack
  | fuel + 1, stack => { stack with children := cleanupLoop (cleanupFuel fuel) [] stack.children }

/-- `cleanupStackTrace` (lines 2107–2161). No call is on a tree as high as the
    one it is made for (`cleanupStackTrace_eq`). -/
def cleanupStackTrace (stack : MultiStackInfo) : MultiStackInfo := cleanupFuel stack.height stack

/-! ## The loop as one pass over the surviving entries -/

/-- What is left of an entry when it comes to be cleaned. -/
def survivor : MultiStackInfo → Option MultiStackInfo
  | ⟨N, stack, []⟩ =>
    if stack.selfTrace then none else if stack.keep then some ⟨N, stack, []⟩ else none
  | ⟨N, stack, [child]⟩ =>
    if stack.selfTrace then none
    else if stack.libcFgets then if stack.keep then some ⟨N, stack, []⟩ else none
    else if stack.keep then some ⟨N, stack, [child]⟩
    else survivor child
  | ⟨N, stack, c :: d :: cs⟩ =>
    if stack.selfTrace then none
    else if stack.libcFgets then if stack.keep then some ⟨N, stack, []⟩ else none
    else some ⟨N, stack, c :: d :: cs⟩

theorem survivor_eq (it : MultiStackInfo) : survivor it =
    match examine it with
    | .erase => none
    | .replace child => survivor child
    | .clean it => some it := by
  obtain ⟨N, stack, _ | ⟨c, _ | ⟨d, cs⟩⟩⟩ := it
  · unfold survivor examine
    by_cases h1 : stack.selfTrace = true <;> by_cases h2 : stack.libcFgets = true <;>
      by_cases h3 : stack.keep = true <;> simp [h1, h2, h3]
  · rw [survivor]; unfold examine
    by_cases h1 : stack.selfTrace = true <;> by_cases h2 : stack.libcFgets = true <;>
      by_cases h3 : stack.keep = true <;> simp [h1, h2, h3]
  · unfold survivor examine
    by_cases h1 : stack.selfTrace = true <;> by_cases h2 : stack.libcFgets = true <;>
      by_cases h3 : stack.keep = true <;> simp [h1, h2, h3]

/-- The second half of a round (lines 2145–2159): the cleaned entry `it` is
    united with those before it that are in its frame, or stays. -/
def place (rec : MultiStackInfo → MultiStackInfo) (it : MultiStackInfo)
    (done : List MultiStackInfo) : List MultiStackInfo :=
  absorb (fun it2 => it.stack.opEq it2.stack) (fun it2 => rec (unite it it2)) it done

theorem cleanupLoop_eq (rec : MultiStackInfo → MultiStackInfo) (done todo : List MultiStackInfo) :
    cleanupLoop rec done todo =
      (todo.filterMap survivor).foldl (fun done it => place rec (rec it) done) done := by
  fun_induction cleanupLoop rec done todo with
  | case1 done => rfl
  | case2 done it todo h ih =>
    have hs : survivor it = none := by rw [survivor_eq, h]
    rw [List.filterMap_cons_none hs, ih]
  | case3 done it todo child h ih =>
    have hs : survivor it = survivor child := by rw [survivor_eq, h]
    rw [ih, List.filterMap_cons, List.filterMap_cons, hs]
  | case4 done it todo it' h x hany ih =>
    have hs : survivor it = some it' := by rw [survivor_eq, h]
    rw [List.filterMap_cons_some hs, List.foldl_cons, ih, place, absorb_of_any hany, combine]
  | case5 done it todo it' h x hany ih =>
    have hs : survivor it = some it' := by rw [survivor_eq, h]
    rw [List.filterMap_cons_some hs, List.foldl_cons, ih, place,
      absorb_of_none (by simpa using hany)]

/-- The entries that survive, one after the other. -/
def pass (rec : MultiStackInfo → MultiStackInfo) (ss : List MultiStackInfo) :
    List MultiStackInfo :=
  ss.foldl (fun done it => place rec (rec it) done) []

@[simp] theorem pass_nil (rec : MultiStackInfo → MultiStackInfo) : pass rec [] = [] := rfl

theorem pass_snoc (rec : MultiStackInfo → MultiStackInfo) (ss : List MultiStackInfo)
    (s : MultiStackInfo) : pass rec (ss ++ [s]) = place rec (rec s) (pass rec ss) := by
  rw [pass, List.foldl_append]
  rfl

/-- Induction over the rounds that lead from an entry to its survivor. -/
theorem survivor_induction {P : MultiStackInfo → MultiStackInfo → Prop}
    (clean : ∀ it it', examine it = .clean it' → P it it')
    (replace : ∀ it child s, examine it = .replace child → P child s → P it s)
    {it s : MultiStackInfo} (h : survivor it = some s) : P it s := by
  induction it using MultiStackInfo.induction with
  | node it ih =>
    rw [survivor_eq] at h
    cases hr : examine it with
    | erase => simp [hr] at h
    | replace child =>
      have hmem : child ∈ it.children := by simp [(examine_eq_replace hr).2.2.2]
      simp only [hr] at h
      exact replace it child s hr (ih child hmem h)
    | clean it' =>
      simp only [hr, Option.some.injEq] at h
      exact clean it s (h ▸ hr)

/-- What holds of the entries before `it`, of `it` and of what they are united
    to, holds of all entries afterwards. -/
theorem forall_place {P : MultiStackInfo → Prop} {rec : MultiStackInfo → MultiStackInfo}
    {it : MultiStackInfo} {done : List MultiStackInfo} (hdone : ∀ d ∈ done, P d) (hit : P it)
    (hrec : ∀ d ∈ done, it.stack.opEq d.stack = true → P (rec (unite it d))) :
    ∀ d ∈ place rec it done, P d := by
  intro d hd
  unfold place absorb at hd
  split_ifs at hd with hany
  · obtain ⟨e, he, rfl⟩ := List.mem_map.mp hd
    split_ifs with hit
    · exact hrec e he hit
    · exact hdone e he
  · rcases List.mem_append.mp hd with hd | hd
    · exact hdone d hd
    · exact List.mem_singleton.mp hd ▸ hit

/-! ## Frames -/

variable {F : Set StackInfo}

theorem survivor_framesIn {it s : MultiStackInfo} (h : survivor it = some s)
    (hit : it.stack ∈ F ∧ FramesIn F it.children) : s.stack ∈ F ∧ FramesIn F s.children := by
  revert hit
  refine survivor_induction (P := fun it s => it.stack ∈ F ∧ FramesIn F it.children →
    s.stack ∈ F ∧ FramesIn F s.children) ?_ ?_ h
  · intro it it' hr hit
    obtain ⟨-, -, hstack, hchildren, -⟩ := examine_eq_clean hr
    rw [hstack, hchildren]
    split_ifs
    · exact ⟨hit.1, framesIn_nil F⟩
    · exact hit
  · intro it child s hr ih hit
    have hmem : child ∈ it.children := by simp [(examine_eq_replace hr).2.2.2]
    exact ih (framesIn_iff.mp hit.2 child hmem)

theorem framesIn_unite {it it2 : MultiStackInfo} (h : it.stack ∈ F ∧ FramesIn F it.children)
    (h2 : it2.stack ∈ F ∧ FramesIn F it2.children) :
    (unite it it2).stack ∈ F ∧ FramesIn F (unite it it2).children := by
  refine ⟨h2.1, framesIn_iff.mpr fun c hc => ?_⟩
  rcases List.mem_append.mp hc with hc | hc
  · exact framesIn_iff.mp h2.2 c hc
  · exact framesIn_iff.mp h.2 c hc

/-! ## The recursion -/

theorem height_survivor {it s : MultiStackInfo} (h : survivor it = some s) :
    s.height ≤ it.height := by
  refine survivor_induction (P := fun it s => s.height ≤ it.height) ?_ ?_ h
  · intro it it' hr
    obtain ⟨-, -, -, hchildren, -⟩ := examine_eq_clean hr
    refine height_le.mpr fun c hc => height_lt_of_mem ?_
    rw [hchildren] at hc
    split_ifs at hc with hfgets
    · simp at hc
    · exact hc
  · intro it child s hr hs
    have hmem : child ∈ it.children := by simp [(examine_eq_replace hr).2.2.2]
    have := height_lt_of_mem hmem
    omega

theorem height_unite {it it2 : MultiStackInfo} {n : ℕ} (h : it.height ≤ n) (h2 : it2.height ≤ n) :
    (unite it it2).height ≤ n := by
  rw [height_le] at h h2 ⊢
  intro c hc
  rcases List.mem_append.mp hc with hc | hc
  · exact h2 c hc
  · exact h c hc

theorem height_of_mem_survivors {t s : MultiStackInfo} (hs : s ∈ t.children.filterMap survivor) :
    s.height < t.height := by
  obtain ⟨c, hc, hcs⟩ := List.mem_filterMap.mp hs
  have h1 := height_survivor hcs
  have h2 := height_lt_of_mem hc
  omega

theorem height_of_mem_pass {rec : MultiStackInfo → MultiStackInfo} {n : ℕ}
    (hrec : ∀ t, t.height ≤ n → (rec t).height ≤ n) {ss : List MultiStackInfo}
    (hss : ∀ s ∈ ss, s.height ≤ n) : ∀ d ∈ pass rec ss, d.height ≤ n := by
  induction ss using List.reverseRecOn with
  | nil => simp
  | append_singleton ss s ih =>
    have ih := ih fun t ht => hss t (by simp [ht])
    have hs := hrec s (hss s (by simp))
    rw [pass_snoc]
    exact forall_place ih hs fun d hd _ => hrec _ (height_unite hs (ih d hd))

theorem cleanupFuel_succ (fuel : ℕ) (t : MultiStackInfo) : cleanupFuel (fuel + 1) t =
    { t with children := pass (cleanupFuel fuel) (t.children.filterMap survivor) } := by
  rw [cleanupFuel, cleanupLoop_eq]
  rfl

theorem height_cleanupFuel (fuel : ℕ) (t : MultiStackInfo) :
    (cleanupFuel fuel t).height ≤ t.height := by
  induction fuel generalizing t with
  | zero => exact le_rfl
  | succ fuel ih =>
    rw [cleanupFuel_succ]
    refine height_le.mpr fun c hc => ?_
    by_cases h0 : t.height = 0
    · have hnone : t.children.filterMap survivor = [] := by
        rw [List.eq_nil_iff_forall_not_mem]
        intro s hs
        have := height_of_mem_survivors hs
        omega
      rw [hnone] at hc
      simp at hc
    · have hrec : ∀ t', t'.height ≤ t.height - 1 → (cleanupFuel fuel t').height ≤ t.height - 1 :=
        fun t' ht' => (ih t').trans ht'
      have hss : ∀ s ∈ t.children.filterMap survivor, s.height ≤ t.height - 1 := by
        intro s hs
        have := height_of_mem_survivors hs
        omega
      have := height_of_mem_pass hrec hss c hc
      omega

/-- Two recursive calls that agree on trees of height `n` agree on a pass. -/
theorem pass_congr {rec rec' : MultiStackInfo → MultiStackInfo} {n : ℕ}
    (hrec : ∀ t, t.height ≤ n → rec t = rec' t) (hheight : ∀ t, t.height ≤ n → (rec t).height ≤ n)
    {ss : List MultiStackInfo} (hss : ∀ s ∈ ss, s.height ≤ n) : pass rec ss = pass rec' ss := by
  induction ss using List.reverseRecOn with
  | nil => rfl
  | append_singleton ss s ih =>
    have hss' : ∀ t ∈ ss, t.height ≤ n := fun t ht => hss t (by simp [ht])
    have hdone := height_of_mem_pass hheight hss'
    have hs := hss s (by simp)
    rw [pass_snoc, pass_snoc, ← ih hss', ← hrec s hs]
    unfold place absorb
    split_ifs
    · apply List.map_congr_left
      intro d hd
      split_ifs
      · exact hrec _ (height_unite (hheight s hs) (hdone d hd))
      · rfl
    · rfl

theorem cleanupFuel_of_leaf {t : MultiStackInfo} (h : t.height = 0) (fuel : ℕ) :
    cleanupFuel fuel t = t := by
  have hnil : t.children = [] := by
    rw [List.eq_nil_iff_forall_not_mem]
    intro c hc
    have := height_lt_of_mem hc
    omega
  cases fuel with
  | zero => rfl
  | succ fuel =>
    obtain ⟨N, stack, children⟩ := t
    obtain rfl : children = [] := hnil
    rw [cleanupFuel_succ]
    rfl

theorem cleanupFuel_eq {fuel fuel' : ℕ} {t : MultiStackInfo} (h : t.height ≤ fuel)
    (h' : t.height ≤ fuel') : cleanupFuel fuel t = cleanupFuel fuel' t := by
  induction fuel generalizing fuel' t with
  | zero => rw [cleanupFuel_of_leaf (by omega), cleanupFuel_of_leaf (by omega)]
  | succ fuel ih =>
    cases fuel' with
    | zero => rw [cleanupFuel_of_leaf (by omega), cleanupFuel_of_leaf (by omega)]
    | succ fuel' =>
      have hpass : pass (cleanupFuel fuel) (t.children.filterMap survivor) =
          pass (cleanupFuel fuel') (t.children.filterMap survivor) := by
        refine pass_congr (n := t.height - 1) (fun t' ht' => ih (by omega) (by omega))
          (fun t' ht' => (height_cleanupFuel fuel t').trans ht') fun s hs => ?_
        have := height_of_mem_survivors hs
        omega
      rw [cleanupFuel_succ, cleanupFuel_succ, hpass]

/-- `cleanupStackTrace` calls itself in its loop. -/
theorem cleanupStackTrace_eq (t : MultiStackInfo) : cleanupStackTrace t =
    { t with children := cleanupLoop cleanupStackTrace [] t.children } := by
  have hpass : pass (cleanupFuel t.height) (t.children.filterMap survivor) =
      pass cleanupStackTrace (t.children.filterMap survivor) := by
    refine pass_congr (n := t.height) (fun t' ht' => cleanupFuel_eq ht' le_rfl)
      (fun t' ht' => (height_cleanupFuel t.height t').trans ht') fun s hs => ?_
    exact (height_of_mem_survivors hs).le
  have hfuel : cleanupStackTrace t = cleanupFuel (t.height + 1) t :=
    cleanupFuel_eq le_rfl (by omega)
  rw [hfuel, cleanupFuel_succ, hpass, cleanupLoop_eq]
  rfl

theorem cleanupStackTrace_children (t : MultiStackInfo) :
    (cleanupStackTrace t).children = pass cleanupStackTrace (t.children.filterMap survivor) := by
  rw [cleanupStackTrace_eq, cleanupLoop_eq]
  rfl

@[simp] theorem cleanupStackTrace_N (t : MultiStackInfo) : (cleanupStackTrace t).N = t.N := by
  rw [cleanupStackTrace_eq]

@[simp] theorem cleanupStackTrace_stack (t : MultiStackInfo) :
    (cleanupStackTrace t).stack = t.stack := by
  rw [cleanupStackTrace_eq]

theorem height_cleanupStackTrace (t : MultiStackInfo) : (cleanupStackTrace t).height ≤ t.height :=
  height_cleanupFuel t.height t

/-- Induction on the height. -/
theorem height_induction {P : MultiStackInfo → Prop}
    (step : ∀ t, (∀ t', t'.height < t.height → P t') → P t) (t : MultiStackInfo) : P t := by
  induction hn : t.height using Nat.strong_induction_on generalizing t with
  | _ n ih =>
    subst hn
    exact step t fun t' ht' => ih t'.height ht' t' rfl

/-- What the calls on trees lower than `n` turn from `A` to `B` holds of all
    entries after a pass, if the entries have `A`, and two entries with `B` have
    `A` when they are united. -/
theorem forall_pass {A B : MultiStackInfo → Prop} {n : ℕ}
    (hrec : ∀ t, t.height < n → A t → B (cleanupStackTrace t))
    (hunite : ∀ it it2, B it → B it2 → it.stack.opEq it2.stack = true → A (unite it it2))
    {ss : List MultiStackInfo} (hss : ∀ s ∈ ss, s.height < n ∧ A s) :
    ∀ d ∈ pass cleanupStackTrace ss, d.height < n ∧ B d := by
  induction ss using List.reverseRecOn with
  | nil => simp
  | append_singleton ss s ih =>
    have ih := ih fun t ht => hss t (by simp [ht])
    obtain ⟨hsn, hsA⟩ := hss s (by simp)
    have hR := (height_cleanupStackTrace s).trans_lt hsn
    have hB := hrec s hsn hsA
    rw [pass_snoc]
    refine forall_place ih ⟨hR, hB⟩ fun d hd hsd => ?_
    obtain ⟨hdn, hdB⟩ := ih d hd
    have hle : (unite (cleanupStackTrace s) d).height ≤ n - 1 :=
      height_unite (by omega) (by omega)
    have hlt : (unite (cleanupStackTrace s) d).height < n := by omega
    exact ⟨(height_cleanupStackTrace _).trans_lt hlt, hrec _ hlt (hunite _ d hB hdB hsd)⟩

/-- The same for the children of a cleaned tree. -/
theorem forall_cleanupStackTrace_children {A B : MultiStackInfo → Prop} {t : MultiStackInfo}
    (ih : ∀ t', t'.height < t.height → A t' → B (cleanupStackTrace t'))
    (hs : ∀ s ∈ t.children.filterMap survivor, A s)
    (hunite : ∀ it it2, B it → B it2 → it.stack.opEq it2.stack = true → A (unite it it2)) :
    ∀ d ∈ (cleanupStackTrace t).children, B d := by
  rw [cleanupStackTrace_children]
  exact fun d hd =>
    (forall_pass ih hunite (fun s hs' => ⟨height_of_mem_survivors hs', hs s hs'⟩) d hd).2

end MultiStackInfo

end StackTrace
