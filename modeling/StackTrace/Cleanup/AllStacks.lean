import StackTrace.Cleanup.Paths
import StackTrace.Tree.AllStacks

/-!
# The call stacks of all threads, cleaned

`StackTrace.cpp`, lines 1233–1240, 1861–1867 and 2107–2161: `getAllCallStacks` or
`getGlobalCallStacks` and then `cleanupStackTrace`, as a report shows them. The tree is the
prefix trie of the call stacks, so that its ways are what these begin with.

* `shows_of_represents`: such a tree, cleaned, still shows the wanted frames of each call stack
  in their order, and nothing that is not part of some call stack.
* `cleanupStackTrace_getAllCallStacks`, `cleanupStackTrace_getGlobalCallStacks`: the call stacks
  of one rank and of all ranks, where each entry that the clean-up replaces is replaceable.
-/

namespace StackTrace

namespace MultiStackInfo

open Tally

variable {F : Set StackInfo} {cs : List MultiStackInfo} {φ : List Key → ℕ}
  {S : List (List StackInfo)}

/-! ## The ways of a prefix trie -/

theorem Represents.exists_way (h : Represents cs φ) {p : List Key} (hp : φ p ≠ 0) :
    ∃ w, Way cs w ∧ w.map StackInfo.key = p := by
  induction p generalizing cs φ with
  | nil => exact ⟨[], .nil, rfl⟩
  | cons k p ih =>
    obtain ⟨c, hc, rfl⟩ := h.cover hp
    obtain ⟨w, hw, rfl⟩ := ih (h.sub hc) hp
    exact ⟨c.stack :: w, .cons hc hw, rfl⟩

theorem Represents.way_ne_zero {w : List StackInfo} (hw : Way cs w) (h : Represents cs φ)
    (hne : w ≠ []) : φ (w.map StackInfo.key) ≠ 0 := by
  induction hw generalizing φ with
  | nil => exact absurd rfl hne
  | @cons cs c w hc hw ih =>
    by_cases hnil : w = []
    · subst hnil
      exact (h.count hc).2
    · exact ih (h.sub hc) hnil

/-- Frames with the same keys are `operator==`. -/
theorem same_of_keys {u v : List StackInfo} (hu : ∀ f ∈ u, f ∈ F) (hv : ∀ f ∈ v, f ∈ F)
    (h : u.map StackInfo.key = v.map StackInfo.key) : List.Forall₂ (Same F) u v := by
  induction u generalizing v with
  | nil =>
    obtain rfl : v = [] := by simpa [eq_comm] using h
    exact .nil
  | cons f u ih =>
    cases v with
    | nil => simp at h
    | cons g v =>
      obtain ⟨hfg, h⟩ := List.cons.inj h
      obtain ⟨hf, hu⟩ := List.forall_mem_cons.mp hu
      obtain ⟨hg, hv⟩ := List.forall_mem_cons.mp hv
      exact .cons ⟨hf, hg, StackInfo.opEq_of_key hfg⟩ (ih hu hv h)

theorem sub_of_same {u v : List StackInfo} (h : List.Forall₂ (Same F) u v) (rest : List StackInfo) :
    Sub F u (v ++ rest) := by
  induction h with
  | nil => exact .nil
  | cons hfg _ ih => exact .cons hfg ih

/-- A way of the trie is what some call stack begins with. -/
theorem Represents.way_prefix (h : Represents cs (tally (S.map word))) {w : List StackInfo}
    (hw : Way cs w) (hne : w ≠ []) :
    ∃ s ∈ S, w.map StackInfo.key <+: s.reverse.map StackInfo.key := by
  have htally := h.way_ne_zero hw hne
  rw [tally, ← Nat.pos_iff_ne_zero, List.countP_pos_iff] at htally
  obtain ⟨k, hk, hbegins⟩ := htally
  obtain ⟨s, hs, rfl⟩ := List.mem_map.mp hk
  exact ⟨s, hs, of_decide_eq_true hbegins⟩

/-- Every call stack is a way of the trie. -/
theorem Represents.way_of_mem (h : Represents cs (tally (S.map word))) {s : List StackInfo}
    (hs : s ∈ S) : ∃ w, Way cs w ∧ w.map StackInfo.key = s.reverse.map StackInfo.key := by
  refine h.exists_way ?_
  rw [tally, ← Nat.pos_iff_ne_zero, List.countP_pos_iff]
  exact ⟨word s, List.mem_map_of_mem hs, decide_eq_true (List.prefix_refl _)⟩

/-- Frames with the same keys, and what follows. -/
theorem sub_of_prefix {u v : List StackInfo} (hu : ∀ f ∈ u, f ∈ F) (hv : ∀ f ∈ v, f ∈ F)
    (h : u.map StackInfo.key <+: v.map StackInfo.key) : Sub F u v := by
  have htake : u.map StackInfo.key = (v.take u.length).map StackInfo.key := by
    rw [List.map_take, ← List.length_map (f := StackInfo.key)]
    exact List.prefix_iff_eq_take.mp h
  rw [← List.take_append_drop u.length v]
  exact sub_of_same (same_of_keys hu (fun f hf => hv f (List.mem_of_mem_take hf)) htake) _

/-! ## Frames with the same texts -/

/-- Cleaning cuts the one way where it cuts the other. -/
theorem noCut_of_same (hT : StackInfo.TextsAgree F) {u v : List StackInfo}
    (h : List.Forall₂ (Same F) u v) (hcut : NoCut u) : NoCut v := by
  induction h with
  | nil => exact hcut
  | @cons f g u v hfg huv ih =>
    obtain ⟨hf, hg, heq⟩ := hfg
    rw [noCut_cons] at hcut ⊢
    refine ⟨?_, fun hne => ?_, ih hcut.2.2⟩
    · rw [← hT.selfTrace_eq hf hg heq]
      exact hcut.1
    · rw [← hT.1.fgetsAgree f hf g hg heq]
      refine hcut.2.1 fun hnil => hne ?_
      subst hnil
      cases huv
      rfl

/-- It wants the same frames of both. -/
theorem sub_filter_keep (hT : StackInfo.TextsAgree F) {u v : List StackInfo}
    (h : List.Forall₂ (Same F) u v) :
    Sub F (u.filter StackInfo.keep) (v.filter StackInfo.keep) := by
  induction h with
  | nil => exact .nil
  | cons hfg _ ih => exact sub_filter_cons hT hfg ih

/-! ## What a cleaned tree shows -/

/-- What a cleaned tree shows of call stacks: all of them are counted at its root, the wanted
    frames of each one that is not cut stand in their order on one way, each way is part of
    some call stack, no node has two children in equal frames, and none below the root is a
    self trace. -/
structure Shows (u : MultiStackInfo) (S : List (List StackInfo)) : Prop where
  N : u.N = S.length
  wanted : ∀ s ∈ S, NoCut s.reverse →
    ∃ w, Way u.children w ∧ UpTo (s.reverse.filter StackInfo.keep) w
  part : ∀ w, Way u.children w → w ≠ [] → ∃ s ∈ S, UpTo w s.reverse
  noTwins : Hereditarily NoTwins u.children
  selfTrace : ∀ n ∈ preorder u.children, n.stack.selfTrace = false

variable {t : MultiStackInfo}

/-- Where frames that are `operator==` have the same texts. -/
theorem shows_of_represents (hF : StackInfo.EquivOn F) (htexts : StackInfo.TextsAgree F)
    (hS : ∀ s ∈ S, ∀ f ∈ s, f ∈ F) (hfr : FramesIn F t.children)
    (hrep : Represents t.children (tally (S.map word))) (hN : t.N = S.length) :
    Shows t.cleanupStackTrace S := by
  obtain ⟨hcovers, htraces⟩ := covers_cleanupStackTrace hF htexts hfr
  have hSF : ∀ s ∈ S, ∀ f ∈ s.reverse, f ∈ F := fun s hs f hf => hS s hs f (by simpa using hf)
  refine ⟨?_, fun s hs hcut => ?_, fun w hw hne => ?_, hereditarily_noTwins_cleanupStackTrace _,
    selfTrace_cleanupStackTrace _⟩
  · rw [cleanupStackTrace_N, hN]
  · obtain ⟨w, hw, hkeys⟩ := hrep.way_of_mem hs
    have hsame := same_of_keys (hSF s hs) (hw.framesIn hfr) hkeys.symm
    obtain ⟨w', hw', -, hsub⟩ := hcovers w hw (noCut_of_same htexts hsame hcut)
    have hw'F := hw'.framesIn (framesIn_cleanupStackTrace hfr)
    have hwanted : Sub F (s.reverse.filter StackInfo.keep) w' :=
      ((sub_filter_keep htexts hsame).trans hF hsub).trans hF
        (.of_sublist List.filter_sublist hw'F)
    exact ⟨w', hw', hwanted.upTo⟩
  · obtain ⟨v, hv, hsub⟩ := htraces w hw
    have hvne : v ≠ [] := by
      rintro rfl
      cases hsub
      exact hne rfl
    obtain ⟨s, hs, hprefix⟩ := hrep.way_prefix hv hvne
    have hsub' : Sub F v s.reverse := sub_of_prefix (hv.framesIn hfr) (hSF s hs) hprefix
    exact ⟨s, hs, (hsub.trans hF hsub').upTo⟩

theorem shows_cleanupStackTrace (hone : StackInfo.OneProcess {f | ∃ s ∈ S, f ∈ s})
    (htexts : StackInfo.TextsAgree {f | ∃ s ∈ S, f ∈ s}) :
    Shows (multiStackOf S).cleanupStackTrace S := by
  have hframes : ∀ s ∈ S, ∀ f ∈ s, f ∈ {f | ∃ s ∈ S, f ∈ s} := fun s hs f hf => ⟨s, hs, hf⟩
  have hfr := framesIn_forestOf hframes
  have hrep := represents_forestOf hone hframes
  rw [← multiStackOf_children] at hfr hrep
  exact shows_of_represents hone.equivOn htexts hframes hfr hrep (multiStackOf_N S)

/-- What a run leaves of a tree, if every entry that it replaces is replaceable. -/
theorem shows_of_run {u : Stored} (h : u.WellReplaced)
    (hshows : Shows (cleanupStackTrace u.value) S) : ∃ v, u.Returns v ∧ Shows v.value S := by
  obtain ⟨v, hv, hvalue⟩ := Stored.returns_of_wellReplaced h
  exact ⟨v, hv, hvalue ▸ hshows⟩

/-! ## One rank -/

variable {τ : Type} {R : Rank τ}

/-- If `getAllCallStacks` returns, and in the clean-up of its tree every entry that is replaced
    is replaceable, the cleaned tree counts all registered threads at its root and shows their
    call stacks. -/
theorem cleanupStackTrace_getAllCallStacks (hS : R.callStacks = some S)
    (htexts : StackInfo.TextsAgree {f | ∃ s ∈ S, f ∈ s}) :
    ∃ t, R.getAllCallStacks = some t ∧ S.map (List.map StackInfo.address) = R.backtraceAll ∧
      ∀ u : Stored, u.value = t → u.WellReplaced →
        ∃ v, u.Returns v ∧ v.value.N = R.registry.d_size ∧ Shows v.value S := by
  refine ⟨multiStackOf S, Rank.getAllCallStacks_eq_some.mpr ⟨S, hS, rfl⟩,
    Rank.address_callStacks hS, fun u hu hclean => ?_⟩
  obtain ⟨v, hv, hshows⟩ := shows_of_run hclean
    (hu ▸ shows_cleanupStackTrace (Rank.oneProcess_callStacks hS) htexts)
  exact ⟨v, hv, by rw [hshows.N, Rank.length_callStacks hS], hshows⟩

/-- Frames of which nothing but the addresses is known. -/
theorem textsAgree_of_unknown (h : ∀ f ∈ S.flatten, (f.object.str = [] ∧ f.function.str = []) ∧
    f.filename.str = []) : StackInfo.TextsAgree {f | ∃ s ∈ S, f ∈ s} := by
  have hmem : ∀ f ∈ {f | ∃ s ∈ S, f ∈ s}, f ∈ S.flatten := by
    rintro f ⟨s, hs, hf⟩
    exact List.mem_flatten_of_mem hs hf
  have hall := fun f hf => h f (hmem f hf)
  refine ⟨fun a ha b hb _ => ?_, fun a ha b hb _ => ?_⟩
  · rw [(hall a ha).1.1, (hall b hb).1.1, (hall a ha).1.2, (hall b hb).1.2]
    exact ⟨rfl, rfl⟩
  · rw [(hall a ha).2, (hall b hb).2]

/-- Two threads of which nothing but the addresses is known. -/
theorem cleanupStackTrace_getAllCallStacks_two :
    ∃ t v, twoRegistered.getAllCallStacks = some t ∧ (Stored.store (fun _ => 0) t).Returns v ∧
      v.value.N = 2 := by
  obtain ⟨S, hS⟩ : ∃ S, twoRegistered.callStacks = some S :=
    Option.isSome_iff_exists.mp (by decide +kernel)
  have hall : twoRegistered.callStacks.all (fun S => ∀ f ∈ S.flatten,
      (f.object.str = [] ∧ f.function.str = []) ∧ f.filename.str = []) = true := by decide +kernel
  rw [hS, Option.all_some, decide_eq_true_iff] at hall
  obtain ⟨t, ht, -, hclean⟩ := cleanupStackTrace_getAllCallStacks hS (textsAgree_of_unknown hall)
  have hrun : twoRegistered.getAllCallStacks.all (fun t =>
      (Stored.cleanupWith Stored.promoteReplaceable 9 (Stored.store (fun _ => 0) t)).isOk) =
        true := by decide +kernel
  rw [ht, Option.all_some] at hrun
  obtain ⟨w, hw⟩ := Limited.isOk_iff.mp hrun
  obtain ⟨v, hv, hN, -⟩ := hclean _ (Stored.value_store _ t) (Stored.wellReplaced_of_run hw)
  exact ⟨t, v, ht, hv, hN⟩

/-! ## All ranks -/

section

variable {Ts : List (List (List StackInfo))} {ts : List MultiStackInfo} {own : Rank τ}
  {others : List (Rank τ)}

theorem mapM_callStacks (h : others.mapM Rank.callStacks = some Ts) :
    others.mapM Rank.getAllCallStacks = some (Ts.map multiStackOf) := by
  have hpairs := forall₂_of_mapM h
  clear h
  induction hpairs with
  | nil => rfl
  | cons hS _ ih =>
    rw [List.mapM_cons, Rank.getAllCallStacks_eq_some.mpr ⟨_, hS, rfl⟩, ih]
    rfl

theorem framesIn_getRemoteCallStacks (hts : ∀ t ∈ ts, FramesIn F t.children) :
    FramesIn F (getRemoteCallStacks ts).children := by
  induction ts using List.reverseRecOn with
  | nil => exact framesIn_nil F
  | append_singleton ts t ih =>
    rw [getRemoteCallStacks, List.foldl_append, List.foldl_cons, List.foldl_nil, add_children]
    exact framesIn_addForest (ih fun u hu => hts u (by simp [hu])) (hts t (by simp))

/-- The trees of several processes in which one address never stands for two functions. -/
theorem shows_getGlobalCallStacks
    (hone : StackInfo.OneProcess {f | ∃ s ∈ S ++ Ts.flatten, f ∈ s})
    (htexts : StackInfo.TextsAgree {f | ∃ s ∈ S ++ Ts.flatten, f ∈ s}) :
    Shows (cleanupStackTrace (getGlobalCallStacks (multiStackOf S) (Ts.map multiStackOf)))
      (S ++ Ts.flatten) := by
  have hframes : ∀ s ∈ S ++ Ts.flatten, ∀ f ∈ s, f ∈ {f | ∃ s ∈ S ++ Ts.flatten, f ∈ s} :=
    fun s hs f hf => ⟨s, hs, hf⟩
  have hSF : ∀ s ∈ S, ∀ f ∈ s, f ∈ {f | ∃ s ∈ S ++ Ts.flatten, f ∈ s} := fun s hs =>
    hframes s (List.mem_append_left _ hs)
  have hTF : ∀ T ∈ Ts, ∀ s ∈ T, ∀ f ∈ s, f ∈ {f | ∃ s ∈ S ++ Ts.flatten, f ∈ s} :=
    fun T hT s hs => hframes s (List.mem_append_right _ (List.mem_flatten_of_mem hT hs))
  have hown := framesIn_forestOf hSF
  have htrees : ∀ t ∈ Ts.map multiStackOf,
      FramesIn {f | ∃ s ∈ S ++ Ts.flatten, f ∈ s} t.children := by
    intro t ht
    obtain ⟨T, hT, rfl⟩ := List.mem_map.mp ht
    rw [multiStackOf_children]
    exact framesIn_forestOf (hTF T hT)
  rw [← multiStackOf_children] at hown
  have hclash : NoClash (multiStackOf S :: Ts.map multiStackOf) :=
    noClash_of_oneProcess hone (List.forall_mem_cons.mpr ⟨hown, htrees⟩)
  have hrep := represents_getGlobalCallStacks
    (fun f ⟨s, hs, hf⟩ g ⟨s', hs', hg⟩ => hone f (hSF s hs f hf) g (hSF s' hs' g hg))
    (fun T hT f ⟨s, hs, hf⟩ g ⟨s', hs', hg⟩ =>
      hone f (hTF T hT s hs f hf) g (hTF T hT s' hs' g hg)) hclash
  have htally : tally (S.map word) + tallyOf Ts = tally ((S ++ Ts.flatten).map word) := by
    rw [List.map_append, tally_append]
    rfl
  rw [htally] at hrep
  refine shows_of_represents hone.equivOn htexts hframes ?_ hrep ?_
  · rw [getGlobalCallStacks, add_children]
    exact framesIn_addForest hown (framesIn_getRemoteCallStacks htrees)
  · have hN : (Ts.map multiStackOf).map N = (Ts.map List.length).map ((↑) : ℕ → ℤ) := by
      rw [List.map_map, List.map_map]
      exact List.map_congr_left fun T _ => multiStackOf_N T
    rw [getGlobalCallStacks, add_N, getRemoteCallStacks_N, multiStackOf_N, hN,
      List.length_append, List.length_flatten]
    push_cast
    rfl

/-- The trees of the other ranks, packed and unpacked, merged into the tree of this one and
    cleaned: if in all ranks together one address never stands for two functions, and every
    entry that is replaced is replaceable, the tree shows the call stacks of all threads of all
    ranks. -/
theorem cleanupStackTrace_getGlobalCallStacks (hS : own.callStacks = some S)
    (hTs : others.mapM Rank.callStacks = some Ts)
    (hone : StackInfo.OneProcess {f | ∃ s ∈ S ++ Ts.flatten, f ∈ s})
    (htexts : StackInfo.TextsAgree {f | ∃ s ∈ S ++ Ts.flatten, f ∈ s}) :
    ∃ t ts us, own.getAllCallStacks = some t ∧ others.mapM Rank.getAllCallStacks = some ts ∧
      ts.mapM (fun t => unpackPacked t .init) = some us ∧
      ∀ u : Stored, u.value = getGlobalCallStacks t us → u.WellReplaced →
        ∃ v, u.Returns v ∧ Shows v.value (S ++ Ts.flatten) := by
  have hts := mapM_callStacks hTs
  have hfits : ∀ t ∈ Ts.map multiStackOf, Fits t :=
    forall_of_mapM (fun _ _ => Rank.fits_getAllCallStacks) hts
  refine ⟨multiStackOf S, Ts.map multiStackOf, Ts.map multiStackOf,
    Rank.getAllCallStacks_eq_some.mpr ⟨S, hS, rfl⟩, hts, mapM_unpackPacked hfits .init,
    fun u hu hclean => ?_⟩
  exact shows_of_run hclean (hu ▸ shows_getGlobalCallStacks hone htexts)

/-- Two ranks in the same state. -/
theorem cleanupStackTrace_getGlobalCallStacks_two :
    ∃ t us v, twoRegistered.getAllCallStacks = some t ∧
      [t].mapM (fun t => unpackPacked t .init) = some us ∧
      (Stored.store (fun _ => 0) (getGlobalCallStacks t us)).Returns v ∧ v.value.N = 4 := by
  obtain ⟨S, hS⟩ : ∃ S, twoRegistered.callStacks = some S :=
    Option.isSome_iff_exists.mp (by decide +kernel)
  have hall : twoRegistered.callStacks.all (fun S => S.length = 2 ∧ ∀ f ∈ S.flatten,
      (f.object.str = [] ∧ f.function.str = []) ∧ f.filename.str = []) = true := by decide +kernel
  rw [hS, Option.all_some, decide_eq_true_iff] at hall
  have hTs : [twoRegistered].mapM Rank.callStacks = some [S] := by
    rw [List.mapM_cons, hS]
    rfl
  have hmem : ∀ s, s ∈ S ++ [S].flatten ↔ s ∈ S := by simp
  obtain ⟨t, ts, us, ht, hts, hus, hclean⟩ := cleanupStackTrace_getGlobalCallStacks hS hTs
    (by simpa only [hmem] using Rank.oneProcess_callStacks hS)
    (by simpa only [hmem] using textsAgree_of_unknown hall.2)
  rw [List.mapM_cons, ht] at hts
  obtain rfl := Option.some.inj hts
  have hrun : twoRegistered.getAllCallStacks.all (fun t =>
      ([t].mapM fun t => unpackPacked t .init).all fun us => (Stored.cleanupWith
        Stored.promoteReplaceable 9
          (Stored.store (fun _ => 0) (getGlobalCallStacks t us))).isOk) = true := by
    decide +kernel
  have hus : [t].mapM (fun t => unpackPacked t .init) = some us := hus
  rw [ht, Option.all_some, hus, Option.all_some] at hrun
  obtain ⟨w, hw⟩ := Limited.isOk_iff.mp hrun
  obtain ⟨v, hv, hshows⟩ :=
    hclean _ (Stored.value_store _ (getGlobalCallStacks t us)) (Stored.wellReplaced_of_run hw)
  refine ⟨t, us, v, ht, hus, hv, ?_⟩
  rw [hshows.N]
  simp [hall.1]

end

end MultiStackInfo

end StackTrace
