import StackTrace.Tree.Add

/-!
# Merging two trees is entering all their call stacks

On frames where `operator==` is an equivalence the trees have no equal
siblings, an entry has at most one place to go to, and `add` of a tree does
what entering its call stacks one by one does: same nodes, same order of
siblings, same stored frames (`add_multiStackOf`).
-/

namespace StackTrace

namespace MultiStackInfo

open Keyed

variable {F : Set StackInfo} {cs ds xs : List MultiStackInfo} {f : StackInfo}

/-! ## At most one entry matches -/

theorem noTwins_iff_frames : NoTwins cs ↔ (frames cs).Pairwise fun a b => a.opEq b = false := by
  rw [frames, List.pairwise_map, NoTwins]

/-- A frame matches no root of the forest or exactly one. -/
theorem NoTwins.match_cases (hF : StackInfo.EquivOn F) (hcs : NoTwins cs)
    (hcsF : ∀ c ∈ cs, c.stack ∈ F) (hf : f ∈ F) :
    (∀ c ∈ cs, c.stack.opEq f = false) ∨
      ∃ l₁ c l₂, cs = l₁ ++ c :: l₂ ∧ (∀ d ∈ l₁, d.stack.opEq f = false) ∧
        c.stack.opEq f = true ∧ ∀ d ∈ l₂, d.stack.opEq f = false := by
  by_cases hany : cs.any (fun c => c.stack.opEq f) = true
  · right
    obtain ⟨l₁, c, l₂, rfl, h₁, hc⟩ := exists_first hany
    refine ⟨l₁, c, l₂, rfl, h₁, hc, fun d hd => ?_⟩
    -- two matches would be twins
    have hcd : c.stack.opEq d.stack = false :=
      (List.pairwise_cons.mp (List.pairwise_append.mp hcs).2.1).1 d hd
    rw [← Bool.not_eq_true] at hcd ⊢
    intro hdf
    rw [StackInfo.opEq_comm] at hdf
    exact hcd (hF _ (hcsF c (by simp)) _ hf _ (hcsF d (by simp [hd])) hc hdf)
  · left
    rw [Bool.not_eq_true] at hany
    exact any_eq_false'.mp hany

theorem noTwins_snoc {x : MultiStackInfo} (hcs : NoTwins cs)
    (hx : ∀ c ∈ cs, c.stack.opEq x.stack = false) : NoTwins (cs ++ [x]) := by
  refine List.pairwise_append.mpr ⟨hcs, by simp, ?_⟩
  intro c hc d hd
  obtain rfl := List.mem_singleton.mp hd
  exact hx c hc

theorem noTwins_addTo {x : MultiStackInfo} (hcs : NoTwins cs) : NoTwins (addTo x cs) := by
  by_cases hany : cs.any (fun tmp => tmp.stack.opEq x.stack) = true
  · rw [noTwins_iff_frames, frames_addTo, if_pos hany, ← noTwins_iff_frames]
    exact hcs
  · rw [addTo, absorb_of_none (by simpa using hany)]
    exact noTwins_snoc hcs (by simpa using hany)

theorem noTwins_insertWord (w : List StackInfo) (hcs : NoTwins cs) : NoTwins (insertWord w cs) := by
  cases w with
  | nil => exact hcs
  | cons f w =>
    by_cases hany : cs.any (fun tmp => tmp.stack.opEq f) = true
    · rw [noTwins_iff_frames, frames_insertWord, if_pos hany, ← noTwins_iff_frames]
      exact hcs
    · rw [insertWord, upsert_of_none (by simpa using hany)]
      exact noTwins_snoc hcs (by simpa using hany)

/-- Entering a tree brings no other frames in. -/
theorem framesIn_addForest (hcs : FramesIn F cs) (hxs : FramesIn F xs) :
    FramesIn F (addForest cs xs) := by
  induction xs using forest_induction generalizing cs with
  | nil => simpa using hcs
  | cons x xs ihx ihxs =>
    obtain ⟨hx, hxs⟩ := List.forall_mem_cons.mp (framesIn_iff.mp hxs)
    rw [addForest_cons]
    refine ihxs (framesIn_iff.mpr fun c hc => ?_) (framesIn_iff.mpr hxs)
    unfold addTo absorb at hc
    split_ifs at hc with hany
    · obtain ⟨d, hd, rfl⟩ := List.mem_map.mp hc
      obtain ⟨hstack, hsub⟩ := framesIn_iff.mp hcs d hd
      split_ifs with hdx
      · rw [add_stack, add_children]
        exact ⟨hstack, ihx hsub hx.2⟩
      · exact ⟨hstack, hsub⟩
    · rcases List.mem_append.mp hc with hc | hc
      · exact framesIn_iff.mp hcs c hc
      · obtain rfl := List.mem_singleton.mp hc
        exact hx

/-! ## Trees without twins whose frames are in `F` -/

/-- Siblings are pairwise different at every depth and all frames are in `F`. -/
structure Sound (F : Set StackInfo) (cs : List MultiStackInfo) : Prop where
  noTwins : NoTwins cs
  stack : ∀ c ∈ cs, c.stack ∈ F
  sub : ∀ c ∈ cs, Hereditarily NoTwins c.children ∧ FramesIn F c.children

theorem sound_iff : Sound F cs ↔ Hereditarily NoTwins cs ∧ FramesIn F cs := by
  rw [hereditarily_iff, framesIn_iff]
  constructor
  · intro h
    exact ⟨⟨h.noTwins, fun c hc => (h.sub c hc).1⟩, fun c hc => ⟨h.stack c hc, (h.sub c hc).2⟩⟩
  · rintro ⟨⟨h, hsub⟩, hfr⟩
    exact ⟨h, fun c hc => (hfr c hc).1, fun c hc => ⟨hsub c hc, (hfr c hc).2⟩⟩

theorem Sound.children {c : MultiStackInfo} (h : Sound F cs) (hc : c ∈ cs) : Sound F c.children :=
  sound_iff.mpr (h.sub c hc)

theorem Sound.nil : Sound F [] := ⟨by simp [NoTwins], by simp, by simp⟩

theorem Sound.mk' (h : NoTwins cs) (hsub : ∀ c ∈ cs, c.stack ∈ F ∧ Sound F c.children) :
    Sound F cs :=
  ⟨h, fun c hc => (hsub c hc).1, fun c hc => sound_iff.mp (hsub c hc).2⟩

theorem Sound.mono_list (h : Sound F cs) (hds : ds.Sublist cs) : Sound F ds :=
  .mk' (h.noTwins.sublist hds) fun c hc =>
    ⟨h.stack c (hds.subset hc), h.children (hds.subset hc)⟩

theorem Sound.parts (h : Sound F cs) : ∀ c ∈ cs, c.stack ∈ F ∧ Sound F c.children :=
  fun c hc => ⟨h.stack c hc, h.children hc⟩

/-- The roots of the forest that is entered may be twins. -/
theorem Sound.addForest (hcs : Sound F cs) (hxs : ∀ x ∈ xs, x.stack ∈ F ∧ Sound F x.children) :
    Sound F (addForest cs xs) := by
  induction xs using forest_induction generalizing cs with
  | nil => simpa using hcs
  | cons x xs ihx ihxs =>
    rw [addForest_cons]
    refine ihxs (.mk' (noTwins_addTo hcs.noTwins) ?_) fun y hy => hxs y (by simp [hy])
    intro c hc
    unfold addTo absorb at hc
    split_ifs at hc with hany
    · obtain ⟨d, hd, rfl⟩ := List.mem_map.mp hc
      split_ifs with hdx
      · rw [add_stack, add_children]
        exact ⟨hcs.stack d hd, ihx (hcs.children hd) (hxs x (by simp)).2.parts⟩
      · exact ⟨hcs.stack d hd, hcs.children hd⟩
    · rcases List.mem_append.mp hc with hc | hc
      · exact ⟨hcs.stack c hc, hcs.children hc⟩
      · obtain rfl := List.mem_singleton.mp hc
        exact hxs c (by simp)

theorem Sound.addTo {x : MultiStackInfo} (hcs : Sound F cs) (hx : x.stack ∈ F)
    (hxs : Sound F x.children) : Sound F (addTo x cs) := by
  have hparts : ∀ y ∈ [x], y.stack ∈ F ∧ Sound F y.children := by simpa using ⟨hx, hxs⟩
  simpa [addForest_cons] using hcs.addForest hparts

theorem Sound.insertWord {w : List StackInfo} (hcs : Sound F cs) (hw : ∀ f ∈ w, f ∈ F) :
    Sound F (insertWord w cs) := by
  induction w generalizing cs with
  | nil => exact hcs
  | cons f w ih =>
    have hw' : ∀ g ∈ w, g ∈ F := fun g hg => hw g (by simp [hg])
    refine .mk' (noTwins_insertWord (f :: w) hcs.noTwins) fun c hc => ?_
    rw [MultiStackInfo.insertWord] at hc
    by_cases hany : cs.any (fun i => i.stack.opEq f) = true
    · obtain ⟨l₁, d, l₂, rfl, h₁, hd⟩ := exists_first hany
      rw [upsert_split h₁ hd] at hc
      rcases List.mem_append.mp hc with hc | hc
      · exact ⟨hcs.stack c (by simp [hc]), hcs.children (by simp [hc])⟩
      · rcases List.mem_cons.mp hc with rfl | hc
        · exact ⟨hcs.stack d (by simp), ih (hcs.children (by simp)) hw'⟩
        · exact ⟨hcs.stack c (by simp [hc]), hcs.children (by simp [hc])⟩
    · rw [upsert_of_none (by simpa using hany)] at hc
      rcases List.mem_append.mp hc with hc | hc
      · exact ⟨hcs.stack c hc, hcs.children hc⟩
      · obtain rfl := List.mem_singleton.mp hc
        exact ⟨hw f (by simp), ih .nil hw'⟩

theorem sound_forestOf {S : List (List StackInfo)} (hS : ∀ s ∈ S, ∀ f ∈ s, f ∈ F) :
    Sound F (forestOf S) := by
  induction S using List.reverseRecOn with
  | nil => exact Sound.nil
  | append_singleton S s ih =>
    rw [forestOf_append_singleton]
    refine (ih fun s' hs' => hS s' (by simp [hs'])).insertWord fun f hf => ?_
    exact hS s (by simp) f (by simpa using hf)

/-! ## Merging commutes with entering a call stack -/

/-- Entering one more tree and one more call stack that go to different
    children, the call stack to one that is there already. -/
theorem addTo_insertWord_comm (hF : StackInfo.EquivOn F) (hcsF : ∀ c ∈ cs, c.stack ∈ F)
    (hf : f ∈ F) {x : MultiStackInfo} (hx : x.stack ∈ F) {w : List StackInfo}
    (hany : cs.any (fun c => c.stack.opEq f) = true) (hxf : x.stack.opEq f = false) :
    addTo x (insertWord (f :: w) cs) = insertWord (f :: w) (addTo x cs) := by
  rw [insertWord, insertWord]
  refine absorb_upsert_comm hany (fun c hc hcf => ?_) (fun c => by simp) (fun c => rfl)
  rw [← Bool.not_eq_true] at hxf ⊢
  intro hcx
  rw [StackInfo.opEq_comm] at hcx
  exact hxf (hF _ hx _ (hcsF c hc) _ hf hcx hcf)

theorem any_addTo {x : MultiStackInfo} (hany : cs.any (fun c => c.stack.opEq f) = true) :
    (addTo x cs).any (fun c => c.stack.opEq f) = true := by
  have hframes : ∀ ds : List MultiStackInfo,
      ds.any (fun c => c.stack.opEq f) = (frames ds).any fun g => g.opEq f := by
    intro ds
    rw [frames, List.any_map]
    rfl
  rw [hframes] at hany ⊢
  rw [frames_addTo]
  split_ifs
  · exact hany
  · rw [List.any_append, hany, Bool.true_or]

/-- The same for a whole forest. -/
theorem addForest_insertWord_comm (hF : StackInfo.EquivOn F) (hcs : Sound F cs) (hf : f ∈ F)
    (hxs : Sound F xs) {w : List StackInfo} (hany : cs.any (fun c => c.stack.opEq f) = true)
    (hxf : ∀ x ∈ xs, x.stack.opEq f = false) :
    addForest (insertWord (f :: w) cs) xs = insertWord (f :: w) (addForest cs xs) := by
  induction xs generalizing cs with
  | nil => simp
  | cons x xs ih =>
    have hx := hxs.stack x (by simp)
    have hstep : Sound F (addTo x cs) := hcs.addTo hx (hxs.children (by simp))
    rw [addForest_cons, addForest_cons,
      addTo_insertWord_comm hF hcs.stack hf hx hany (hxf x (by simp))]
    exact ih hstep (hxs.mono_list (List.sublist_cons_self x xs)) (any_addTo hany)
      fun y hy => hxf y (by simp [hy])

/-- The entry has found its place. -/
theorem any_addTo_self (x : MultiStackInfo) (cs : List MultiStackInfo) :
    (addTo x cs).any (fun c => c.stack.opEq x.stack) = true := by
  by_cases hany : cs.any (fun c => c.stack.opEq x.stack) = true
  · exact any_addTo hany
  · rw [addTo, absorb_of_none (by simpa using hany)]
    simp [StackInfo.opEq_refl]

/-- A call stack that goes into the tree `x` goes where `x` goes. -/
theorem addTo_insertWord_same (hF : StackInfo.EquivOn F) (hcs : Sound F cs) (hf : f ∈ F)
    {x : MultiStackInfo} (hxF : x.stack ∈ F) (hx : x.stack.opEq f = true) {w : List StackInfo}
    (hw : ∀ c ∈ cs, addForest c.children (insertWord w x.children) =
      insertWord w (addForest c.children x.children)) :
    addTo { x with N := x.N + 1, children := insertWord w x.children } cs =
      insertWord (f :: w) (addTo x cs) := by
  have hsame : ∀ c ∈ cs, c.stack.opEq x.stack = c.stack.opEq f := fun c hc =>
    hF.opEq_congr hxF hf hx (hcs.stack c hc)
  rcases hcs.noTwins.match_cases hF hcs.stack hxF with hno | ⟨m₁, d, m₂, rfl, h₁, hd, h₂⟩
  · have hnof : ∀ c ∈ cs, c.stack.opEq f = false := fun c hc => by rw [← hsame c hc, hno c hc]
    rw [addTo, absorb_of_none hno, addTo, absorb_of_none hno, insertWord,
      upsert_split (m := fun i : MultiStackInfo => i.stack.opEq f) hnof hx]
  · have h₁f : ∀ c ∈ m₁, c.stack.opEq f = false := fun c hc => by
      rw [← hsame c (by simp [hc]), h₁ c hc]
    have hdf : (d.add x).stack.opEq f = true := by rw [add_stack, ← hsame d (by simp), hd]
    rw [addTo, absorb_split h₁ hd h₂, addTo, absorb_split h₁ hd h₂, insertWord,
      upsert_split h₁f hdf, add_eq, add_eq]
    simp only
    rw [hw d (by simp), add_assoc]

/-- Entering a tree that has one more call stack is entering the tree and then
    the call stack. -/
theorem addForest_insertWord (hF : StackInfo.EquivOn F) (hcs : Sound F cs) (hxs : Sound F xs)
    {w : List StackInfo} (hw : ∀ f ∈ w, f ∈ F) :
    addForest cs (insertWord w xs) = insertWord w (addForest cs xs) := by
  induction w generalizing cs xs with
  | nil => rfl
  | cons f w ih =>
    have hf := hw f (by simp)
    have hw' : ∀ g ∈ w, g ∈ F := fun g hg => hw g (by simp [hg])
    rcases hxs.noTwins.match_cases hF hxs.stack hf with hno | ⟨l₁, x, l₂, rfl, h₁, hx, h₂⟩
    · -- the call stack makes a new chain in `xs`, which goes where the call stack goes
      rw [insertWord, upsert_of_none hno, addForest_append, addForest_cons, addForest_nil]
      have hD := hcs.addForest hxs.parts
      rcases hD.noTwins.match_cases hF hD.stack hf with hno' | ⟨m₁, d, m₂, hD', h₁', hd, h₂'⟩
      · rw [insertWord, upsert_of_none hno', addTo, absorb_of_none hno']
      · rw [hD', insertWord, upsert_split h₁' hd, addTo, absorb_split h₁' hd h₂', add_eq]
        have hd' : d ∈ addForest cs xs := by rw [hD']; simp
        simp only
        rw [ih (hD.children hd') .nil hw', addForest_nil]
    · -- it goes into `x`, and then past the entries behind `x`
      have hxF := hxs.stack x (by simp)
      have hxsub : Sound F x.children := hxs.children (by simp)
      have hl₁ : Sound F l₁ := hxs.mono_list (by simp)
      have hl₂ : Sound F l₂ := hxs.mono_list (by simp)
      have hD := hcs.addForest hl₁.parts
      have hD' : Sound F (addTo x (addForest cs l₁)) := hD.addTo hxF hxsub
      have hany : (addTo x (addForest cs l₁)).any (fun c => c.stack.opEq f) = true := by
        obtain ⟨c, hc, hcx⟩ := List.any_eq_true.mp (any_addTo_self x (addForest cs l₁))
        rw [hF.opEq_congr hxF hf hx (hD'.stack c hc)] at hcx
        exact List.any_eq_true.mpr ⟨c, hc, hcx⟩
      rw [insertWord, upsert_split h₁ hx, addForest_append, addForest_append, addForest_cons,
        addForest_cons,
        addTo_insertWord_same hF hD hf hxF hx fun c hc => ih (hD.children hc) hxsub hw']
      exact addForest_insertWord_comm hF hD' hf hl₂ hany h₂

theorem addForest_forestOf (hF : StackInfo.EquivOn F) {S T : List (List StackInfo)}
    (hS : ∀ s ∈ S, ∀ f ∈ s, f ∈ F) (hT : ∀ s ∈ T, ∀ f ∈ s, f ∈ F) :
    addForest (forestOf S) (forestOf T) = forestOf (S ++ T) := by
  induction T using List.reverseRecOn with
  | nil => simp [forestOf]
  | append_singleton T s ih =>
    have hT' : ∀ s' ∈ T, ∀ f ∈ s', f ∈ F := fun s' hs' => hT s' (by simp [hs'])
    have hs : ∀ f ∈ s.reverse, f ∈ F := fun f hf => hT s (by simp) f (by simpa using hf)
    rw [forestOf_append_singleton, ← List.append_assoc, forestOf_append_singleton, ← ih hT']
    exact addForest_insertWord hF (sound_forestOf hS) (sound_forestOf hT') hs

/-! ## Main result -/

/-- Merging the tree of `T` into the tree of `S` gives exactly the tree of `S`
    followed by `T`. -/
theorem add_multiStackOf {S T : List (List StackInfo)}
    (hF : StackInfo.EquivOn {f | ∃ s ∈ S ++ T, f ∈ s}) :
    (multiStackOf S).add (multiStackOf T) = multiStackOf (S ++ T) := by
  rw [add_eq, multiStackOf_eq (S ++ T)]
  simp only [multiStackOf_N, multiStackOf_stack, multiStackOf_children]
  rw [addForest_forestOf hF (fun s hs f hf => ⟨s, by simp [hs], hf⟩)
    fun s hs f hf => ⟨s, by simp [hs], hf⟩, List.length_append, Nat.cast_add]

/-- Two threads of one process and one more. -/
theorem add_multiStackOf_three_threads :
    let main := StackInfo.ofFields 0x401000 0x1000 (ascii "a.out") (ascii "main") []
    let work := StackInfo.ofFields 0x402000 0x2000 (ascii "a.out") (ascii "work") []
    (multiStackOf [[work, main], [main]]).add (multiStackOf [[work, main]]) =
      multiStackOf [[work, main], [main], [work, main]] := by
  intro main work
  refine add_multiStackOf (StackInfo.EquivOn.mono (G := {f | f = main ∨ f = work}) ?_ ?_)
  · rintro a (rfl | rfl) b (rfl | rfl) c (rfl | rfl) hab hbc <;> revert hab hbc <;> decide
  · rintro f ⟨s, hs, hf⟩
    simp at hs
    rcases hs with rfl | rfl | rfl <;> simp at hf <;> tauto

end MultiStackInfo

end StackTrace
