import StackTrace.Tree.PrefixTrie

/-!
# The global call stack and the order of the replies

`getRemoteCallStacks` (lines 1825–1850) merges the trees of the other ranks in
the order they arrive, and `getGlobalCallStacks` (lines 1861–1867) merges the
result into the local tree.

* `getGlobalCallStacks_perm`: the counts do not depend on the order, if in one
  place of the trees the same address never stands for two functions.
* `getGlobalCallStacks_order_matters`: two replies with one address for two
  functions; the first reply names them both.
-/

namespace StackTrace

namespace MultiStackInfo

open Tally

/-! ## Model -/

/-- The trees that `getRemoteCallStacks` receives, in the order of arrival,
    make `multistack` (lines 1825–1850). -/
def getRemoteCallStacks (replies : List MultiStackInfo) : MultiStackInfo :=
  replies.foldl (fun multistack tmp => multistack.add tmp) init

/-- `getGlobalCallStacks` after `generateMultiStack` (line 1865). -/
def getGlobalCallStacks (multistack : MultiStackInfo) (replies : List MultiStackInfo) :
    MultiStackInfo :=
  multistack.add (getRemoteCallStacks replies)

/-! ## Paths with their counts -/

mutual

/-- Every path of keys from the root down with the `N` at its end. -/
def pathCounts : MultiStackInfo → List (List Key × ℤ)
  | ⟨N, stack, children⟩ =>
    ([stack.key], N) :: (forestCounts children).map fun (p, n) => (stack.key :: p, n)

/-- The same for every tree of a forest. -/
def forestCounts : List MultiStackInfo → List (List Key × ℤ)
  | [] => []
  | c :: cs => c.pathCounts ++ forestCounts cs

end

theorem pathCounts_eq (t : MultiStackInfo) :
    t.pathCounts = ([t.stack.key], t.N) ::
      (forestCounts t.children).map fun (p, n) => (t.stack.key :: p, n) := by
  cases t; rw [pathCounts]

theorem forestCounts_eq (cs : List MultiStackInfo) : forestCounts cs = cs.flatMap pathCounts := by
  induction cs with
  | nil => rfl
  | cons c cs ih => rw [forestCounts, ih, List.flatMap_cons]

/-- Two frames that stand below the same way in some of the trees `ts` have
    one address only if they have one key. -/
def NoClash (ts : List MultiStackInfo) : Prop :=
  ∀ t ∈ ts, ∀ t' ∈ ts, ∀ p f g, OccursAt t.children p f → OccursAt t'.children p g →
    f.address = g.address → f.key = g.key

/-! ## The tally determines the paths -/

theorem flatMap_perm_of_forall₂ {cs ds : List MultiStackInfo}
    (h : List.Forall₂ (fun c d => c.pathCounts.Perm d.pathCounts) cs ds) :
    (cs.flatMap pathCounts).Perm (ds.flatMap pathCounts) := by
  induction h with
  | nil => exact .refl _
  | cons hcd _ ih => exact hcd.append ih

theorem Represents.pathCounts_perm {t t' : MultiStackInfo} {φ : List Key → ℕ}
    (h : Represents t.children φ) (h' : Represents t'.children φ) (hN : t.N = t'.N)
    (hkey : t.stack.key = t'.stack.key) : t.pathCounts.Perm t'.pathCounts := by
  induction t using MultiStackInfo.induction generalizing t' φ with
  | node t ih =>
    obtain ⟨ds, hperm, hrel⟩ := h.exists_matching h' fun c hc c' hc' hk => by
      refine ih c hc (h.sub hc) (hk ▸ h'.sub hc') ?_ hk
      rw [(h.count hc).1, (h'.count hc').1, hk]
    have hforest : (forestCounts t.children).Perm (forestCounts t'.children) := by
      rw [forestCounts_eq, forestCounts_eq]
      exact (flatMap_perm_of_forall₂ hrel).trans (hperm.flatMap_right pathCounts).symm
    rw [pathCounts_eq, pathCounts_eq, hN, hkey]
    exact (hforest.map _).cons _

/-! ## Merging the replies -/

variable {D : List Key → Set StackInfo} {S : List (List StackInfo)}
  {Ts Ts' : List (List (List StackInfo))}

/-- The frames of the trees, sorted by the way to them. -/
def frameTable (ts : List MultiStackInfo) (p : List Key) : Set StackInfo :=
  {f | ∃ t ∈ ts, OccursAt t.children p f}

theorem NoClash.oneProcess {ts : List MultiStackInfo} (h : NoClash ts) (p : List Key) :
    StackInfo.OneProcess (frameTable ts p) := by
  rintro f ⟨t, ht, hf⟩ g ⟨t', ht', hg⟩ hfg
  exact Prod.ext_iff.mp (h t ht t' ht' p f g hf hg hfg)

theorem framesAt_frameTable {ts : List MultiStackInfo} {t : MultiStackInfo} (ht : t ∈ ts) :
    FramesAt (frameTable ts) t.children :=
  fun _ _ hf => ⟨t, ht, hf⟩

/-- The tally of all call stacks of all replies. -/
def tallyOf (Ts : List (List (List StackInfo))) : List Key → ℕ :=
  tally (Ts.flatten.map word)

theorem represents_getRemoteCallStacks
    (hT : ∀ T ∈ Ts, StackInfo.OneProcess {f | ∃ s ∈ T, f ∈ s})
    (hTD : ∀ T ∈ Ts, FramesAt D (forestOf T)) (hD : ∀ p, StackInfo.OneProcess (D p)) :
    Represents (getRemoteCallStacks (Ts.map multiStackOf)).children (tallyOf Ts) ∧
      FramesAt D (getRemoteCallStacks (Ts.map multiStackOf)).children := by
  induction Ts using List.reverseRecOn with
  | nil => exact ⟨Represents.nil (by simp [tallyOf]), framesAt_nil⟩
  | append_singleton Ts T ih =>
    obtain ⟨hrep, hfr⟩ := ih (fun U hU => hT U (by simp [hU])) fun U hU => hTD U (by simp [hU])
    have hTrep := represents_forestOf (hT T (by simp)) fun s hs f hf => ⟨s, hs, hf⟩
    have hadd := hrep.addForest hTrep hfr (hTD T (by simp)) hD
    have htally : tallyOf (Ts ++ [T]) = tallyOf Ts + tally (T.map word) := by
      simp [tallyOf, tally_append]
    rw [htally, getRemoteCallStacks, List.map_append, List.foldl_append]
    simpa [getRemoteCallStacks] using hadd

theorem getRemoteCallStacks_N (replies : List MultiStackInfo) :
    (getRemoteCallStacks replies).N = (replies.map N).sum := by
  induction replies using List.reverseRecOn with
  | nil => rfl
  | append_singleton replies tmp ih =>
    rw [getRemoteCallStacks, List.foldl_append, List.foldl_cons, List.foldl_nil, add_N,
      ← getRemoteCallStacks, ih]
    simp

theorem represents_getGlobalCallStacks (hS : StackInfo.OneProcess {f | ∃ s ∈ S, f ∈ s})
    (hT : ∀ T ∈ Ts, StackInfo.OneProcess {f | ∃ s ∈ T, f ∈ s})
    (hclash : NoClash (multiStackOf S :: Ts.map multiStackOf)) :
    Represents (getGlobalCallStacks (multiStackOf S) (Ts.map multiStackOf)).children
      (tally (S.map word) + tallyOf Ts) := by
  have hD := hclash.oneProcess
  have hSD : FramesAt (frameTable (multiStackOf S :: Ts.map multiStackOf)) (forestOf S) := by
    rw [← multiStackOf_children]
    exact framesAt_frameTable (by simp)
  have hTD : ∀ T ∈ Ts,
      FramesAt (frameTable (multiStackOf S :: Ts.map multiStackOf)) (forestOf T) := by
    intro T hT'
    rw [← multiStackOf_children]
    exact framesAt_frameTable (List.mem_cons_of_mem _ (List.mem_map_of_mem hT'))
  have hrep := represents_forestOf hS fun s hs f hf => ⟨s, hs, hf⟩
  obtain ⟨hrem, hremD⟩ := represents_getRemoteCallStacks hT hTD hD
  rw [getGlobalCallStacks, add_children, multiStackOf_children]
  exact (hrep.addForest hrem hSD hremD hD).1

/-! ## Main result -/

/-- The counts of the global call stack do not depend on the order of the
    replies, if there are no two of them or no address clashes. -/
theorem getGlobalCallStacks_perm (hS : StackInfo.OneProcess {f | ∃ s ∈ S, f ∈ s})
    (hT : ∀ T ∈ Ts, StackInfo.OneProcess {f | ∃ s ∈ T, f ∈ s})
    (hclash : Ts.length ≤ 1 ∨ NoClash (multiStackOf S :: Ts.map multiStackOf))
    (hperm : Ts.Perm Ts') :
    (pathCounts (getGlobalCallStacks (multiStackOf S) (Ts.map multiStackOf))).Perm
      (pathCounts (getGlobalCallStacks (multiStackOf S) (Ts'.map multiStackOf))) := by
  rcases hclash with hlen | hclash
  · obtain rfl : Ts = Ts' := by
      match Ts, hlen with
      | [], _ => exact (List.nil_perm.mp hperm).symm
      | [T], _ => exact (List.perm_singleton.mp hperm.symm).symm
    exact .refl _
  · have hT' : ∀ T ∈ Ts', StackInfo.OneProcess {f | ∃ s ∈ T, f ∈ s} :=
      fun T hT'' => hT T (hperm.mem_iff.mpr hT'')
    have hclash' : NoClash (multiStackOf S :: Ts'.map multiStackOf) := by
      have hmem : ∀ t, t ∈ multiStackOf S :: Ts'.map multiStackOf →
          t ∈ multiStackOf S :: Ts.map multiStackOf :=
        fun t ht => ((hperm.map multiStackOf).cons _).mem_iff.mpr ht
      exact fun t ht t' ht' => hclash t (hmem t ht) t' (hmem t' ht')
    have htally : tallyOf Ts = tallyOf Ts' := tally_perm (hperm.flatten.map word)
    have hrep := represents_getGlobalCallStacks hS hT hclash
    have hrep' := represents_getGlobalCallStacks hS hT' hclash'
    rw [← htally] at hrep'
    refine hrep.pathCounts_perm hrep' ?_ ?_
    · simp only [getGlobalCallStacks, add_N, getRemoteCallStacks_N]
      rw [((hperm.map multiStackOf).map N).sum_eq]
    · rw [getGlobalCallStacks, getGlobalCallStacks, add_stack, add_stack]

/-- Two ranks that have one library at different addresses. -/
theorem getGlobalCallStacks_perm_relocated :
    let work := StackInfo.ofFields 0x7f1000 0x1000 (ascii "libA.so") (ascii "work") []
    let work' := StackInfo.ofFields 0x8f1000 0x1000 (ascii "libA.so") (ascii "work") []
    (pathCounts (getGlobalCallStacks (multiStackOf [])
        [multiStackOf [[work]], multiStackOf [[work']]])).Perm
      (pathCounts (getGlobalCallStacks (multiStackOf [])
        [multiStackOf [[work']], multiStackOf [[work]]])) := by
  intro work work'
  have hone : ∀ T ∈ [[[work]], [[work']]], StackInfo.OneProcess {g | ∃ s ∈ T, g ∈ s} := by
    simp only [List.mem_cons, List.not_mem_nil, or_false, forall_eq_or_imp, forall_eq]
    exact ⟨.of_forall_eq (f := work) (by simp), .of_forall_eq (f := work') (by simp)⟩
  -- the frames of all trees have one key
  have hkey : ∀ t ∈ [multiStackOf [], multiStackOf [[work]], multiStackOf [[work']]],
      ∀ p f, OccursAt t.children p f → f.key = work.key := by
    simp only [List.mem_cons, List.not_mem_nil, or_false, forall_eq_or_imp, forall_eq]
    have hleaf : ∀ g : StackInfo, g.key = work.key →
        ∀ p f, OccursAt [⟨1, g, []⟩] p f → f.key = work.key := by
      rintro g hg p f (hc | ⟨hc, hf⟩)
      · rw [List.mem_singleton.mp hc]; exact hg
      · rw [List.mem_singleton.mp hc] at hf
        cases hf <;> contradiction
    exact ⟨fun p f hf => (by cases hf <;> contradiction), hleaf work rfl, hleaf work' rfl⟩
  have hnil : StackInfo.OneProcess {g | ∃ s ∈ ([] : List (List StackInfo)), g ∈ s} :=
    .of_forall_eq (f := work) (by simp)
  refine getGlobalCallStacks_perm hnil hone (.inr ?_) (List.Perm.swap _ _ [])
  intro t ht t' ht' p f g hf hg _
  exact (hkey t ht p f hf).trans (hkey t' ht' p g hg).symm

/-- Two ranks with one thread each, in different libraries at one address: both
    threads are counted in the library of the rank that answers first. -/
theorem getGlobalCallStacks_order_matters :
    ¬∀ (S : List (List StackInfo)) (Ts Ts' : List (List (List StackInfo))),
      StackInfo.OneProcess {f | ∃ s ∈ S, f ∈ s} →
      (∀ T ∈ Ts, StackInfo.OneProcess {f | ∃ s ∈ T, f ∈ s}) → Ts.Perm Ts' →
      (pathCounts (getGlobalCallStacks (multiStackOf S) (Ts.map multiStackOf))).Perm
        (pathCounts (getGlobalCallStacks (multiStackOf S) (Ts'.map multiStackOf))) := by
  intro h
  let a := StackInfo.ofFields 0x7f1000 0x1000 (ascii "libA.so") (ascii "work") []
  let b := StackInfo.ofFields 0x7f1000 0x2000 (ascii "libB.so") (ascii "wait") []
  have hone : ∀ T ∈ [[[a]], [[b]]], StackInfo.OneProcess {g | ∃ s ∈ T, g ∈ s} := by
    simp only [List.mem_cons, List.not_mem_nil, or_false, forall_eq_or_imp, forall_eq]
    exact ⟨.of_forall_eq (f := a) (by simp), .of_forall_eq (f := b) (by simp)⟩
  have hperm := h [] [[[a]], [[b]]] [[[b]], [[a]]] (.of_forall_eq (f := a) (by simp)) hone
    (List.Perm.swap _ _ [])
  have hmem := hperm.mem_iff (a := ([StackInfo.init.key, a.key], 2))
  exact absurd hmem (by decide)

end MultiStackInfo

end StackTrace
