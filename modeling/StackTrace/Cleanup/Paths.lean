import StackTrace.Cleanup.Shape

/-!
# Cleaning neither loses nor invents nor reorders frames

A way is the list of frames that one meets going down a forest. Up to
`operator==`,

* every way without a cut node leaves its wanted frames, in order, on some way
  of the cleaned tree (`Covers`);
* every way of the cleaned tree is part of some way of the tree (`Traces`).

Both relations compose, so that each of the steps of `cleanupStackTrace`
(taking the survivors, cleaning them, placing them one by one) is treated on
its own.
-/

namespace StackTrace

namespace MultiStackInfo

open Keyed

variable {F : Set StackInfo} {cs cs' ds ds' es : List MultiStackInfo}

/-! ## Ways -/

/-- The frames on a way down from the roots of a forest; it may end at any node. -/
inductive Way : List MultiStackInfo → List StackInfo → Prop
  | nil {cs : List MultiStackInfo} : Way cs []
  | cons {cs : List MultiStackInfo} {c : MultiStackInfo} {w : List StackInfo} (hc : c ∈ cs)
      (h : Way c.children w) : Way cs (c.stack :: w)

/-- The frames on the path from the root of `t` to one of its nodes. -/
def Path (t : MultiStackInfo) (p : List StackInfo) : Prop :=
  ∃ w, Way t.children w ∧ p = t.stack :: w

/-- No node on the path is cut: none is a self trace or has one above it, and
    none has `fgets` above it. -/
def NoCut (p : List StackInfo) : Prop :=
  (∀ f ∈ p, f.selfTrace = false) ∧ ∀ f ∈ p.dropLast, f.libcFgets = false

/-- `p` is a subsequence of `q` up to `operator==`. -/
def UpTo (p q : List StackInfo) : Prop :=
  List.SublistForall₂ (fun f g => f.opEq g = true) p q

theorem noCut_cons {f : StackInfo} {w : List StackInfo} :
    NoCut (f :: w) ↔ f.selfTrace = false ∧ (w ≠ [] → f.libcFgets = false) ∧ NoCut w := by
  unfold NoCut
  cases w with
  | nil => simp
  | cons g w =>
    simp only [List.forall_mem_cons, List.dropLast_cons_cons]
    tauto

@[simp] theorem noCut_nil : NoCut [] := by simp [NoCut]

theorem Way.mono {w : List StackInfo} (h : Way cs w) (hsub : ∀ c ∈ cs, c ∈ ds) : Way ds w := by
  cases h with
  | nil => exact .nil
  | cons hc h => exact .cons (hsub _ hc) h

theorem way_append {w : List StackInfo} (h : Way (cs ++ ds) w) : Way cs w ∨ Way ds w := by
  cases h with
  | nil => exact .inl .nil
  | cons hc h => exact (List.mem_append.mp hc).imp (.cons · h) (.cons · h)

theorem Way.eq_nil {w : List StackInfo} (h : Way [] w) : w = [] := by
  cases h with
  | nil => rfl
  | cons hc => simp at hc

theorem Way.framesIn {w : List StackInfo} (h : Way cs w) (hcs : FramesIn F cs) :
    ∀ f ∈ w, f ∈ F := by
  induction h with
  | nil => simp
  | cons hc _ ih =>
    have := framesIn_iff.mp hcs _ hc
    exact List.forall_mem_cons.mpr ⟨this.1, ih this.2⟩

/-! ## Subsequences of frames of `F` -/

/-- The frames are in `F` and `operator==`. -/
def Same (F : Set StackInfo) (f g : StackInfo) : Prop := f ∈ F ∧ g ∈ F ∧ f.opEq g = true

/-- Subsequence up to `Same`. -/
def Sub (F : Set StackInfo) : List StackInfo → List StackInfo → Prop :=
  List.SublistForall₂ (Same F)

theorem Sub.refl {w : List StackInfo} (hw : ∀ f ∈ w, f ∈ F) : Sub F w w := by
  induction w with
  | nil => exact .nil
  | cons f w ih =>
    have hf := hw f (by simp)
    exact .cons ⟨hf, hf, f.opEq_refl⟩ (ih fun g hg => hw g (by simp [hg]))

theorem Sub.trans (hF : StackInfo.EquivOn F) {u v w : List StackInfo} (huv : Sub F u v)
    (hvw : Sub F v w) : Sub F u w := by
  have htrans : IsTrans StackInfo (Same F) :=
    ⟨fun a b c hab hbc => ⟨hab.1, hbc.2.1, hF a hab.1 b hab.2.1 c hbc.2.1 hab.2.2 hbc.2.2⟩⟩
  exact List.SublistForall₂.is_trans.trans u v w huv hvw

theorem Sub.of_sublist {u w : List StackInfo} (h : u.Sublist w) (hw : ∀ f ∈ w, f ∈ F) :
    Sub F u w := by
  induction h with
  | slnil => exact .nil
  | cons g h ih => exact .cons_right (ih fun f hf => hw f (by simp [hf]))
  | cons_cons g h ih =>
    have hg := hw g (by simp)
    exact .cons ⟨hg, hg, g.opEq_refl⟩ (ih fun f hf => hw f (by simp [hf]))

theorem Sub.upTo {u w : List StackInfo} (h : Sub F u w) : UpTo u w := by
  induction h with
  | nil => exact .nil
  | cons hfg _ ih => exact .cons hfg.2.2 ih
  | cons_right _ ih => exact .cons_right ih

/-- Wanted frames only. -/
theorem sub_filter_cons (hT : StackInfo.TextsAgree F) {f g : StackInfo} {u w : List StackInfo}
    (hfg : Same F f g) (h : Sub F (u.filter StackInfo.keep) (w.filter StackInfo.keep)) :
    Sub F ((f :: u).filter StackInfo.keep) ((g :: w).filter StackInfo.keep) := by
  have hkeep := hT.keep_eq hfg.1 hfg.2.1 hfg.2.2
  rw [List.filter_cons, List.filter_cons, hkeep]
  split_ifs
  · exact .cons hfg h
  · exact h

/-! ## The two relations -/

/-- The wanted frames of a way of `cs` without a cut node are on a way of `ds`. -/
def Covers (F : Set StackInfo) (cs ds : List MultiStackInfo) : Prop :=
  ∀ w, Way cs w → NoCut w → ∃ w', Way ds w' ∧ NoCut w' ∧
    Sub F (w.filter StackInfo.keep) (w'.filter StackInfo.keep)

/-- A way of `ds` is part of a way of `cs`. -/
def Traces (F : Set StackInfo) (ds cs : List MultiStackInfo) : Prop :=
  ∀ w, Way ds w → ∃ w', Way cs w' ∧ Sub F w w'

theorem Covers.trans (hF : StackInfo.EquivOn F) (h : Covers F cs ds) (h' : Covers F ds es) :
    Covers F cs es := by
  intro w hw hcut
  obtain ⟨w', hw', hcut', hsub⟩ := h w hw hcut
  obtain ⟨w'', hw'', hcut'', hsub'⟩ := h' w' hw' hcut'
  exact ⟨w'', hw'', hcut'', hsub.trans hF hsub'⟩

theorem Traces.trans (hF : StackInfo.EquivOn F) (h : Traces F es ds) (h' : Traces F ds cs) :
    Traces F es cs := by
  intro w hw
  obtain ⟨w', hw', hsub⟩ := h w hw
  obtain ⟨w'', hw'', hsub'⟩ := h' w' hw'
  exact ⟨w'', hw'', hsub.trans hF hsub'⟩

theorem Covers.append (h : Covers F cs ds) (h' : Covers F cs' ds') :
    Covers F (cs ++ cs') (ds ++ ds') := by
  intro w hw hcut
  rcases way_append hw with hw | hw
  · obtain ⟨w', hw', hrest⟩ := h w hw hcut
    exact ⟨w', hw'.mono fun c hc => by simp [hc], hrest⟩
  · obtain ⟨w', hw', hrest⟩ := h' w hw hcut
    exact ⟨w', hw'.mono fun c hc => by simp [hc], hrest⟩

theorem Traces.append (h : Traces F ds cs) (h' : Traces F ds' cs') :
    Traces F (ds ++ ds') (cs ++ cs') := by
  intro w hw
  rcases way_append hw with hw | hw
  · obtain ⟨w', hw', hrest⟩ := h w hw
    exact ⟨w', hw'.mono fun c hc => by simp [hc], hrest⟩
  · obtain ⟨w', hw', hrest⟩ := h' w hw
    exact ⟨w', hw'.mono fun c hc => by simp [hc], hrest⟩

theorem Covers.of_subset (hcs : FramesIn F cs) (hsub : ∀ c ∈ cs, c ∈ ds) : Covers F cs ds := by
  intro w hw hcut
  have hF := hw.framesIn hcs
  exact ⟨w, hw.mono hsub, hcut, Sub.refl fun f hf => hF f (List.mem_filter.mp hf).1⟩

theorem Covers.of_forall (h : ∀ c ∈ cs, ∃ d ∈ ds, Covers F [c] [d]) : Covers F cs ds := by
  intro w hw hcut
  cases hw with
  | nil => exact ⟨[], .nil, noCut_nil, .nil⟩
  | @cons _ c w hc hw =>
    obtain ⟨d, hd, hcov⟩ := h c hc
    obtain ⟨w', hw', hrest⟩ := hcov _ (.cons (List.mem_singleton_self c) hw) hcut
    exact ⟨w', hw'.mono (by simpa using hd), hrest⟩

theorem Traces.of_forall (h : ∀ d ∈ ds, Traces F [d] cs) : Traces F ds cs := by
  intro w hw
  cases hw with
  | nil => exact ⟨[], .nil, .nil⟩
  | @cons _ d w hd hw => exact h d hd _ (.cons (List.mem_singleton_self d) hw)

/-- From the children to the nodes. -/
theorem covers_node (hT : StackInfo.TextsAgree F) {c d : MultiStackInfo}
    (hstack : Same F c.stack d.stack) (h : Covers F c.children d.children) : Covers F [c] [d] := by
  intro w hw hcut
  cases hw with
  | nil => exact ⟨[], .nil, noCut_nil, .nil⟩
  | @cons _ c' w hc hw =>
    obtain rfl := List.mem_singleton.mp hc
    obtain ⟨hself, hfgets, hcut⟩ := noCut_cons.mp hcut
    rw [hT.selfTrace_eq hstack.1 hstack.2.1 hstack.2.2] at hself
    rw [hT.1.fgetsAgree _ hstack.1 _ hstack.2.1 hstack.2.2] at hfgets
    by_cases hnil : w = []
    · subst hnil
      exact ⟨[d.stack], .cons (List.mem_singleton_self d) .nil,
        noCut_cons.mpr ⟨hself, by simp, noCut_nil⟩, sub_filter_cons hT hstack .nil⟩
    · obtain ⟨w', hw', hcut', hsub⟩ := h w hw hcut
      exact ⟨d.stack :: w', .cons (List.mem_singleton_self d) hw',
        noCut_cons.mpr ⟨hself, fun _ => hfgets hnil, hcut'⟩, sub_filter_cons hT hstack hsub⟩

theorem traces_node {c d : MultiStackInfo} (hstack : Same F d.stack c.stack)
    (h : Traces F d.children c.children) : Traces F [d] [c] := by
  intro w hw
  cases hw with
  | nil => exact ⟨[], .nil, .nil⟩
  | @cons _ d' w hd hw =>
    obtain rfl := List.mem_singleton.mp hd
    obtain ⟨w', hw', hsub⟩ := h w hw
    exact ⟨c.stack :: w', .cons (List.mem_singleton_self c) hw', .cons hstack hsub⟩

/-! ## Survivors -/

/-- Where an entry is erased, its wanted frames are cut. -/
theorem covers_survivor {it : MultiStackInfo} (hit : it.stack ∈ F ∧ FramesIn F it.children) :
    Covers F [it] (survivor it).toList := by
  induction it using MultiStackInfo.induction with
  | node it ih =>
    intro w hw hcut
    cases hw with
    | nil => exact ⟨[], .nil, noCut_nil, .nil⟩
    | @cons _ c w hc hw =>
      obtain rfl := (List.mem_singleton.mp hc).symm
      have hwF := hw.framesIn hit.2
      obtain ⟨hself, hfgets, hcut'⟩ := noCut_cons.mp hcut
      rw [survivor_eq]
      cases hr : examine it with
      | erase =>
        rcases examine_eq_erase hr with hself' | ⟨hkeep, hend⟩
        · simp [hself] at hself'
        · have hnil : w = [] := by
            by_contra hne
            rcases hend with hfgets' | hchildren
            · simp [hfgets hne] at hfgets'
            · rw [hchildren] at hw
              exact hne hw.eq_nil
          refine ⟨[], .nil, noCut_nil, ?_⟩
          rw [hnil, List.filter_cons_of_neg (by simp [hkeep])]
          exact .nil
      | replace child =>
        obtain ⟨-, -, hkeep, hchildren⟩ := examine_eq_replace hr
        have hmem : child ∈ it.children := by simp [hchildren]
        rw [hchildren] at hw
        rw [List.filter_cons_of_neg (by simp [hkeep])]
        exact ih child hmem (framesIn_iff.mp hit.2 child hmem) w hw hcut'
      | clean it' =>
        obtain ⟨-, -, hstack, hchildren, -⟩ := examine_eq_clean hr
        refine ⟨it.stack :: w, ?_, hcut, Sub.refl fun f hf => ?_⟩
        · rw [← hstack]
          refine .cons (by simp) ?_
          rw [hchildren]
          split_ifs with hf
          · -- `fgets` can only be the last frame
            have hnil : w = [] := by
              by_contra hne
              simp [hfgets hne] at hf
            rw [hnil]
            exact .nil
          · exact hw
        · exact List.forall_mem_cons.mpr ⟨hit.1, hwF⟩ f (List.mem_filter.mp hf).1

theorem traces_survivor {it : MultiStackInfo} (hit : it.stack ∈ F ∧ FramesIn F it.children) :
    Traces F (survivor it).toList [it] := by
  induction it using MultiStackInfo.induction with
  | node it ih =>
    rw [survivor_eq]
    cases hr : examine it with
    | erase =>
      intro w hw
      exact ⟨[], .nil, by rw [hw.eq_nil]; exact .nil⟩
    | replace child =>
      obtain ⟨-, -, -, hchildren⟩ := examine_eq_replace hr
      have hmem : child ∈ it.children := by simp [hchildren]
      intro w hw
      obtain ⟨w', hw', hsub⟩ := ih child hmem (framesIn_iff.mp hit.2 child hmem) w hw
      exact ⟨it.stack :: w', .cons (by simp) (hw'.mono (by simpa using hmem)), .cons_right hsub⟩
    | clean it' =>
      obtain ⟨-, -, hstack, hchildren, -⟩ := examine_eq_clean hr
      have hsame : Same F it'.stack it.stack := by
        rw [hstack]
        exact ⟨hit.1, hit.1, it.stack.opEq_refl⟩
      refine traces_node hsame fun w hw => ?_
      have hw' : Way it.children w := by
        rw [hchildren] at hw
        split_ifs at hw
        · rw [hw.eq_nil]; exact .nil
        · exact hw
      exact ⟨w, hw', Sub.refl (hw'.framesIn hit.2)⟩

theorem filterMap_cons_toList {α β : Type*} (f : α → Option β) (a : α) (l : List α) :
    (a :: l).filterMap f = (f a).toList ++ l.filterMap f := by
  cases h : f a <;> simp [h]

theorem covers_survivors (hcs : FramesIn F cs) : Covers F cs (cs.filterMap survivor) := by
  induction cs with
  | nil => exact Covers.of_subset hcs (by simp)
  | cons c cs ih =>
    rw [framesIn_iff, List.forall_mem_cons] at hcs
    rw [filterMap_cons_toList]
    exact (covers_survivor hcs.1).append (ih (framesIn_iff.mpr hcs.2))

theorem traces_survivors (hcs : FramesIn F cs) : Traces F (cs.filterMap survivor) cs := by
  induction cs with
  | nil => exact fun w hw => ⟨w, hw, hw.eq_nil ▸ .nil⟩
  | cons c cs ih =>
    rw [framesIn_iff, List.forall_mem_cons] at hcs
    rw [filterMap_cons_toList]
    exact (traces_survivor hcs.1).append (ih (framesIn_iff.mpr hcs.2))

/-! ## Placing an entry -/

/-- A node in the frame of `d` that covers the children of `c`. -/
theorem covers_cleaned (hF : StackInfo.EquivOn F) (hT : StackInfo.TextsAgree F)
    {c u : MultiStackInfo} (hstack : Same F c.stack u.stack) (hc : FramesIn F c.children)
    (hsub : ∀ b ∈ c.children, b ∈ u.children)
    (hu : Covers F u.children (cleanupStackTrace u).children) :
    Covers F [c] [cleanupStackTrace u] := by
  refine covers_node hT ?_ ((Covers.of_subset hc hsub).trans hF hu)
  rw [cleanupStackTrace_stack]
  exact hstack

theorem covers_place (hF : StackInfo.EquivOn F) (hT : StackInfo.TextsAgree F) {it : MultiStackInfo}
    {done : List MultiStackInfo} (hit : it.stack ∈ F ∧ FramesIn F it.children)
    (hdone : ∀ d ∈ done, d.stack ∈ F ∧ FramesIn F d.children)
    (hrec : ∀ d ∈ done, Covers F (unite it d).children (cleanupStackTrace (unite it d)).children) :
    Covers F (done ++ [it]) (place cleanupStackTrace it done) := by
  unfold place absorb
  split_ifs with hany
  · refine Covers.of_forall fun c hc => ?_
    rcases List.mem_append.mp hc with hc | hc
    · obtain ⟨hcF, hcC⟩ := hdone c hc
      refine ⟨_, List.mem_map_of_mem hc, ?_⟩
      split_ifs
      · exact covers_cleaned hF hT ⟨hcF, hcF, c.stack.opEq_refl⟩ hcC
          (fun b hb => List.mem_append_left _ hb) (hrec c hc)
      · exact Covers.of_subset (framesIn_iff.mpr (by simpa using ⟨hcF, hcC⟩)) fun b hb => hb
    · obtain rfl := List.mem_singleton.mp hc
      obtain ⟨d, hd, hcd⟩ := List.any_eq_true.mp hany
      refine ⟨_, List.mem_map_of_mem hd, ?_⟩
      rw [if_pos hcd]
      exact covers_cleaned hF hT ⟨hit.1, (hdone d hd).1, hcd⟩ hit.2
        (fun b hb => List.mem_append_right _ hb) (hrec d hd)
  · refine Covers.of_subset (framesIn_iff.mpr fun c hc => ?_) fun c hc => hc
    rcases List.mem_append.mp hc with hc | hc
    · exact hdone c hc
    · exact List.mem_singleton.mp hc ▸ hit

theorem traces_place {it : MultiStackInfo} {done : List MultiStackInfo}
    (hit : it.stack ∈ F ∧ FramesIn F it.children)
    (hdone : ∀ d ∈ done, d.stack ∈ F ∧ FramesIn F d.children)
    (hrec : ∀ d ∈ done, Traces F (cleanupStackTrace (unite it d)).children (unite it d).children) :
    Traces F (place cleanupStackTrace it done) (done ++ [it]) := by
  have hstay : ∀ c ∈ done ++ [it], Traces F [c] (done ++ [it]) := by
    intro c hc w hw
    have hcF : c.stack ∈ F ∧ FramesIn F c.children := by
      rcases List.mem_append.mp hc with hc | hc
      · exact hdone c hc
      · exact List.mem_singleton.mp hc ▸ hit
    have hwF := hw.framesIn (framesIn_iff.mpr (by simpa using hcF))
    exact ⟨w, hw.mono (by simpa using hc), Sub.refl hwF⟩
  refine Traces.of_forall (forall_place (fun d hd => hstay d (by simp [hd])) (hstay it (by simp))
    fun d hd hmatch w hw => ?_)
  obtain ⟨hdF, -⟩ := hdone d hd
  cases hw with
  | nil => exact ⟨[], .nil, .nil⟩
  | @cons _ c w hc hw =>
    obtain rfl := List.mem_singleton.mp hc
    rw [cleanupStackTrace_stack]
    obtain ⟨w', hw', hsub⟩ := hrec d hd w hw
    -- the way goes on below one of the two entries
    rcases way_append hw' with hw' | hw'
    · exact ⟨d.stack :: w', .cons (by simp [hd]) hw', .cons ⟨hdF, hdF, d.stack.opEq_refl⟩ hsub⟩
    · refine ⟨it.stack :: w', .cons (by simp) hw', .cons ⟨hdF, hit.1, ?_⟩ hsub⟩
      rw [StackInfo.opEq_comm]
      exact hmatch

/-! ## The whole run -/

theorem covers_pass (hF : StackInfo.EquivOn F) (hT : StackInfo.TextsAgree F) {n : ℕ}
    (ih : ∀ t, t.height < n → FramesIn F t.children →
      Covers F t.children (cleanupStackTrace t).children ∧
        Traces F (cleanupStackTrace t).children t.children)
    {ss : List MultiStackInfo}
    (hss : ∀ s ∈ ss, s.height < n ∧ s.stack ∈ F ∧ FramesIn F s.children) :
    Covers F ss (pass cleanupStackTrace ss) ∧ Traces F (pass cleanupStackTrace ss) ss := by
  induction ss using List.reverseRecOn with
  | nil =>
    exact ⟨Covers.of_subset (framesIn_nil F) (by simp), fun w hw => ⟨w, hw, hw.eq_nil ▸ .nil⟩⟩
  | append_singleton ss s ihss =>
    have hss' : ∀ t ∈ ss, t.height < n ∧ t.stack ∈ F ∧ FramesIn F t.children :=
      fun t ht => hss t (by simp [ht])
    obtain ⟨hsn, hsF⟩ := hss s (by simp)
    obtain ⟨hcov, htr⟩ := ihss hss'
    have hdone := forall_pass (fun _ _ => framesIn_cleaned)
      (fun _ _ h h2 _ => framesIn_unite h h2) hss'
    have hRs := framesIn_cleaned hsF
    have hRn := (height_cleanupStackTrace s).trans_lt hsn
    -- what an entry is united with is low enough for the induction hypothesis
    have hunite : ∀ d ∈ pass cleanupStackTrace ss,
        Covers F (unite (cleanupStackTrace s) d).children
            (cleanupStackTrace (unite (cleanupStackTrace s) d)).children ∧
          Traces F (cleanupStackTrace (unite (cleanupStackTrace s) d)).children
            (unite (cleanupStackTrace s) d).children := by
      intro d hd
      obtain ⟨hdn, hdF⟩ := hdone d hd
      have hle : (unite (cleanupStackTrace s) d).height ≤ n - 1 :=
        height_unite (by omega) (by omega)
      exact ih _ (by omega) (framesIn_unite hRs hdF).2
    obtain ⟨hscov, hstr⟩ := ih s hsn hsF.2
    have hsame : Same F s.stack (cleanupStackTrace s).stack := by
      rw [cleanupStackTrace_stack]
      exact ⟨hsF.1, hsF.1, s.stack.opEq_refl⟩
    have hsame' : Same F (cleanupStackTrace s).stack s.stack := by
      rw [cleanupStackTrace_stack]
      exact ⟨hsF.1, hsF.1, s.stack.opEq_refl⟩
    rw [pass_snoc]
    constructor
    · exact (hcov.append (covers_node hT hsame hscov)).trans hF
        (covers_place hF hT hRs (fun d hd => (hdone d hd).2) fun d hd => (hunite d hd).1)
    · exact (traces_place hRs (fun d hd => (hdone d hd).2) fun d hd => (hunite d hd).2).trans hF
        (htr.append (traces_node hsame' hstr))

theorem covers_cleanupStackTrace (hF : StackInfo.EquivOn F) (hT : StackInfo.TextsAgree F)
    {t : MultiStackInfo} (h : FramesIn F t.children) :
    Covers F t.children (cleanupStackTrace t).children ∧
      Traces F (cleanupStackTrace t).children t.children := by
  induction t using height_induction with
  | step t ih =>
    obtain ⟨hcov, htr⟩ := covers_pass hF hT (fun t' ht' => ih t' ht') (framesIn_survivors h)
    rw [cleanupStackTrace_children]
    exact ⟨(covers_survivors h).trans hF hcov, htr.trans hF (traces_survivors h)⟩

/-! ## Main result -/

/-- The wanted frames of an input path without a cut node are, up to
    `operator==` and in their order, on an output path; and the frames of an
    output path are, up to `operator==` and in their order, on an input path. -/
theorem cleanupStackTrace_paths (hF : StackInfo.EquivOn F) (hT : StackInfo.TextsAgree F)
    {t : MultiStackInfo} (ht : t.stack ∈ F) (h : FramesIn F t.children) :
    (∀ p, Path t p → NoCut p →
      ∃ q, Path (cleanupStackTrace t) q ∧ UpTo (p.filter StackInfo.keep) q) ∧
    ∀ q, Path (cleanupStackTrace t) q → ∃ p, Path t p ∧ UpTo q p := by
  obtain ⟨hcov, htr⟩ := covers_cleanupStackTrace hF hT h
  have hsame : Same F t.stack t.stack := ⟨ht, ht, t.stack.opEq_refl⟩
  constructor
  · rintro p ⟨w, hw, rfl⟩ hcut
    obtain ⟨w', hw', -, hsub⟩ := hcov w hw (noCut_cons.mp hcut).2.2
    have hw'F := hw'.framesIn (framesIn_cleanupStackTrace h)
    refine ⟨t.stack :: w', ⟨w', hw', by rw [cleanupStackTrace_stack]⟩, Sub.upTo (F := F) ?_⟩
    refine (sub_filter_cons hT hsame hsub).trans hF ?_
    exact Sub.of_sublist List.filter_sublist (List.forall_mem_cons.mpr ⟨ht, hw'F⟩)
  · rintro q ⟨w, hw, rfl⟩
    obtain ⟨w', hw', hsub⟩ := htr w hw
    rw [cleanupStackTrace_stack]
    exact ⟨t.stack :: w', ⟨w', hw', rfl⟩, Sub.upTo (F := F) (.cons hsame hsub)⟩

/-- `main` below an unwanted entry. -/
theorem cleanupStackTrace_paths_main :
    let start :=
      StackInfo.ofFields 0x7f1000 0x1000 (ascii "libc.so.6") (ascii "__libc_start_main") []
    let main := StackInfo.ofFields 0x401000 0x1000 (ascii "a.out") (ascii "main") []
    ∃ q, Path (cleanupStackTrace ⟨1, .init, [⟨1, start, [⟨1, main, []⟩]⟩]⟩) q ∧
      UpTo ([.init, start, main].filter StackInfo.keep) q := by
  intro start main
  have hF : StackInfo.EquivOn {f | f = .init ∨ f = start ∨ f = main} := by
    rintro a (rfl | rfl | rfl) b (rfl | rfl | rfl) c (rfl | rfl | rfl) <;> decide
  have hT : StackInfo.TextsAgree {f | f = .init ∨ f = start ∨ f = main} := by
    constructor <;> rintro a (rfl | rfl | rfl) b (rfl | rfl | rfl) <;> decide
  refine (cleanupStackTrace_paths hF hT (.inl rfl) ?_).1 [.init, start, main] ?_ ?_
  · intro n hn
    simp only [preorder, descendants, List.append_nil, List.mem_cons, List.not_mem_nil,
      or_false] at hn
    rcases hn with rfl | rfl <;> simp
  · exact ⟨[start, main], .cons (.head _) (.cons (.head _) .nil), rfl⟩
  · constructor <;> decide

end MultiStackInfo

end StackTrace
