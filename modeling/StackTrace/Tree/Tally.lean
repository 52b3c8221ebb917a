import StackTrace.Base.Tally
import StackTrace.Tree.Add

/-!
# Trees as counted sets of call stacks

What a `multi_stack_info` is for: how many threads came into a frame by which
way. The way is read as a word of keys `(address2, object)`, outermost frame
first, and the tree is a representation of a function from words to counts.

* `Represents cs φ`: siblings have different keys, and the node at the end of
  a way `p` exists iff `φ p ≠ 0` and then has `N = φ p`.
* `Represents.insertWord`, `Represents.addForest`: `add` of a call stack adds
  the tally of one word, `add` of a tree adds its tally, as long as frames
  that meet in one place are equal only if their keys are.
* `Represents.exists_matching`: the tally determines the trees up to their order.
-/

namespace StackTrace

namespace MultiStackInfo

open Keyed Tally

abbrev Key := UInt64 × CharArray 56

/-- The forest `cs` has exactly the counts `φ`. -/
inductive Represents : List MultiStackInfo → (List Key → ℕ) → Prop
  | intro {cs : List MultiStackInfo} {φ : List Key → ℕ}
      (nodup : (cs.map (·.stack.key)).Nodup)
      (cover : ∀ k p, φ (k :: p) ≠ 0 → ∃ c ∈ cs, c.stack.key = k)
      (count : ∀ c ∈ cs, c.N = φ [c.stack.key] ∧ φ [c.stack.key] ≠ 0)
      (sub : ∀ c ∈ cs, Represents c.children fun p => φ (c.stack.key :: p)) : Represents cs φ

namespace Represents

variable {cs l₁ l₂ : List MultiStackInfo} {c c' x : MultiStackInfo} {φ φ' ψ : List Key → ℕ}

theorem nodup (h : Represents cs φ) : (cs.map (·.stack.key)).Nodup := by
  cases h; assumption

theorem cover (h : Represents cs φ) {k : Key} {p : List Key} (hp : φ (k :: p) ≠ 0) :
    ∃ c ∈ cs, c.stack.key = k := by
  cases h with
  | intro _ cover _ _ => exact cover k p hp

theorem count (h : Represents cs φ) (hc : c ∈ cs) :
    c.N = φ [c.stack.key] ∧ φ [c.stack.key] ≠ 0 := by
  cases h with
  | intro _ _ count _ => exact count c hc

theorem sub (h : Represents cs φ) (hc : c ∈ cs) :
    Represents c.children fun p => φ (c.stack.key :: p) := by
  cases h with
  | intro _ _ _ sub => exact sub c hc

theorem zero_of_absent (h : Represents cs φ) {k : Key} (hk : ∀ c ∈ cs, c.stack.key ≠ k)
    (p : List Key) : φ (k :: p) = 0 := by
  by_contra hp
  obtain ⟨c, hc, hck⟩ := h.cover hp
  exact hk c hc hck

theorem key_inj (h : Represents cs φ) {a b : MultiStackInfo} (ha : a ∈ cs) (hb : b ∈ cs)
    (hab : a.stack.key = b.stack.key) : a = b :=
  List.inj_on_of_nodup_map h.nodup ha hb hab

/-- The count of the empty word is not represented. -/
theorem congr (h : Represents cs φ) (hφ : ∀ k p, φ (k :: p) = φ' (k :: p)) : Represents cs φ' := by
  refine ⟨h.nodup, fun k p hp => h.cover (by rwa [hφ k p]), fun c hc => ?_, fun c hc => ?_⟩
  · rw [← hφ]; exact h.count hc
  · simpa only [← hφ] using h.sub hc

theorem nil (hφ : ∀ k p, φ (k :: p) = 0) : Represents [] φ :=
  ⟨by simp, fun k p hp => absurd (hφ k p) hp, by simp, by simp⟩

/-- Changing one node and the counts at its key. -/
theorem update (h : Represents (l₁ ++ c :: l₂) φ) (hkey : c'.stack.key = c.stack.key)
    (hN : c'.N = φ' [c.stack.key]) (hN0 : φ' [c.stack.key] ≠ 0)
    (hsub : Represents c'.children fun p => φ' (c.stack.key :: p))
    (hother : ∀ k p, k ≠ c.stack.key → φ' (k :: p) = φ (k :: p)) :
    Represents (l₁ ++ c' :: l₂) φ' := by
  have hnd := h.nodup
  have hkeys : (l₁ ++ c' :: l₂).map (·.stack.key) = (l₁ ++ c :: l₂).map (·.stack.key) := by
    simp [hkey]
  -- the keys of the nodes that stay differ from the key that changes
  have hne : ∀ d, d ∈ l₁ ∨ d ∈ l₂ → d.stack.key ≠ c.stack.key := by
    intro d hd hdc
    have hd' : d ∈ l₁ ++ c :: l₂ := by rcases hd with hd | hd <;> simp [hd]
    obtain rfl := h.key_inj hd' (by simp) hdc
    have hn := List.nodup_middle.mp (List.Nodup.of_map _ hnd)
    rcases hd with hd | hd <;> simp [hd] at hn
  refine ⟨hkeys ▸ hnd, fun k p hp => ?_, fun d hd => ?_, fun d hd => ?_⟩
  · have hmem : k ∈ (l₁ ++ c' :: l₂).map (·.stack.key) := by
      rw [hkeys]
      by_cases hk : k = c.stack.key
      · simp [hk]
      · obtain ⟨d, hd, rfl⟩ := h.cover (hother k p hk ▸ hp)
        exact List.mem_map_of_mem hd
    exact List.mem_map.mp hmem
  · simp only [List.mem_append, List.mem_cons] at hd
    rcases hd with hd | rfl | hd
    · rw [hother _ _ (hne d (.inl hd))]; exact h.count (by simp [hd])
    · rw [hkey]; exact ⟨hN, hN0⟩
    · rw [hother _ _ (hne d (.inr hd))]; exact h.count (by simp [hd])
  · simp only [List.mem_append, List.mem_cons] at hd
    rcases hd with hd | rfl | hd
    · simp only [hother _ _ (hne d (.inl hd))]; exact h.sub (by simp [hd])
    · rw [hkey]; exact hsub
    · simp only [hother _ _ (hne d (.inr hd))]; exact h.sub (by simp [hd])

/-- The other trees have what is left of the tally. -/
theorem tail {xs : List MultiStackInfo} (hx : Represents (x :: xs) ψ) :
    Represents xs (without x.stack.key ψ) := by
  have hne : ∀ c ∈ xs, c.stack.key ≠ x.stack.key := by
    intro c hc hcx
    exact (List.nodup_cons.mp hx.nodup).1 (List.mem_map.mpr ⟨c, hc, hcx⟩)
  refine ⟨(List.nodup_cons.mp hx.nodup).2, fun k p hp => ?_, fun c hc => ?_, fun c hc => ?_⟩
  · rw [without_cons] at hp
    split_ifs at hp with hk
    · exact absurd rfl hp
    · obtain ⟨c, hc, rfl⟩ := hx.cover hp
      rcases List.mem_cons.mp hc with rfl | hc
      · exact absurd rfl hk
      · exact ⟨c, hc, rfl⟩
  · rw [without_cons, if_neg (hne c hc)]; exact hx.count (by simp [hc])
  · simp only [without_cons, if_neg (hne c hc)]; exact hx.sub (by simp [hc])

/-- Appending a node with a new key. -/
theorem snoc (h : Represents cs φ) (hnew : ∀ c ∈ cs, c.stack.key ≠ x.stack.key)
    (hN : x.N = φ' [x.stack.key]) (hN0 : φ' [x.stack.key] ≠ 0)
    (hsub : Represents x.children fun p => φ' (x.stack.key :: p))
    (hother : ∀ k p, k ≠ x.stack.key → φ' (k :: p) = φ (k :: p)) :
    Represents (cs ++ [x]) φ' := by
  refine ⟨?_, fun k p hp => ?_, fun d hd => ?_, fun d hd => ?_⟩
  · rw [List.map_append, List.nodup_append]
    refine ⟨h.nodup, by simp, ?_⟩
    rintro _ ha _ hb
    obtain ⟨c, hc, rfl⟩ := List.mem_map.mp ha
    obtain rfl : _ = x.stack.key := by simpa using hb
    exact hnew c hc
  · by_cases hk : k = x.stack.key
    · exact ⟨x, by simp, hk.symm⟩
    · obtain ⟨d, hd, hdk⟩ := h.cover (hother k p hk ▸ hp)
      exact ⟨d, by simp [hd], hdk⟩
  · simp only [List.mem_append, List.mem_singleton] at hd
    rcases hd with hd | rfl
    · rw [hother _ _ (hnew d hd)]; exact h.count hd
    · exact ⟨hN, hN0⟩
  · simp only [List.mem_append, List.mem_singleton] at hd
    rcases hd with hd | rfl
    · simp only [hother _ _ (hnew d hd)]; exact h.sub hd
    · exact hsub

end Represents

/-! ## Which frames meet -/

/-- The frame `f` stands in the forest `cs` below the way `p`. -/
inductive OccursAt : List MultiStackInfo → List Key → StackInfo → Prop
  | here {cs : List MultiStackInfo} {c : MultiStackInfo} (hc : c ∈ cs) : OccursAt cs [] c.stack
  | under {cs : List MultiStackInfo} {c : MultiStackInfo} {p : List Key} {f : StackInfo}
      (hc : c ∈ cs) (h : OccursAt c.children p f) : OccursAt cs (c.stack.key :: p) f

/-- `D p` holds every frame of the forest below the way `p`. -/
def FramesAt (D : List Key → Set StackInfo) (cs : List MultiStackInfo) : Prop :=
  ∀ p f, OccursAt cs p f → f ∈ D p

variable {D : List Key → Set StackInfo} {cs xs l₁ l₂ : List MultiStackInfo}
  {c c' x t : MultiStackInfo} {φ ψ : List Key → ℕ}

theorem framesAt_iff : FramesAt D cs ↔
    ∀ c ∈ cs, c.stack ∈ D [] ∧ FramesAt (fun p => D (c.stack.key :: p)) c.children := by
  constructor
  · intro h c hc
    exact ⟨h _ _ (.here hc), fun p f hf => h _ _ (.under hc hf)⟩
  · rintro h p f (hc | ⟨hc, hf⟩)
    · exact (h _ hc).1
    · exact (h _ hc).2 _ _ hf

@[simp] theorem framesAt_nil : FramesAt D [] := framesAt_iff.mpr (by simp)

theorem framesAt_const {F : Set StackInfo} {cs : List MultiStackInfo} (h : FramesIn F cs) :
    FramesAt (fun _ => F) cs := by
  intro p f hf
  induction hf with
  | here hc => exact (framesIn_iff.mp h _ hc).1
  | under hc _ ih => exact ih (framesIn_iff.mp h _ hc).2

theorem FramesAt.update (h : FramesAt D (l₁ ++ c :: l₂)) (hstack : c'.stack = c.stack)
    (hc' : FramesAt (fun p => D (c.stack.key :: p)) c'.children) : FramesAt D (l₁ ++ c' :: l₂) := by
  rw [framesAt_iff] at h ⊢
  intro d hd
  simp only [List.mem_append, List.mem_cons] at hd
  rcases hd with hd | rfl | hd
  · exact h d (by simp [hd])
  · rw [hstack]; exact ⟨(h c (by simp)).1, hc'⟩
  · exact h d (by simp [hd])

theorem FramesAt.snoc (h : FramesAt D cs) (hx : x.stack ∈ D [])
    (hx' : FramesAt (fun p => D (x.stack.key :: p)) x.children) : FramesAt D (cs ++ [x]) := by
  rw [framesAt_iff] at h ⊢
  intro d hd
  simp only [List.mem_append, List.mem_singleton] at hd
  rcases hd with hd | rfl
  · exact h d hd
  · exact ⟨hx, hx'⟩

/-- Where frames agree, the children that `operator==` finds for a frame are
    those with its key: none or exactly one. -/
theorem Represents.match_cases (h : Represents cs φ) (hcs : FramesAt D cs)
    (hD : StackInfo.OneProcess (D [])) {f : StackInfo} (hf : f ∈ D []) :
    (∀ c ∈ cs, c.stack.opEq f = false ∧ c.stack.key ≠ f.key) ∨
      ∃ l₁ c l₂, cs = l₁ ++ c :: l₂ ∧ (∀ d ∈ l₁, d.stack.opEq f = false) ∧
        c.stack.opEq f = true ∧ (∀ d ∈ l₂, d.stack.opEq f = false) ∧ c.stack.key = f.key := by
  have hiff : ∀ c ∈ cs, c.stack.opEq f = true ↔ c.stack.key = f.key := fun c hc =>
    hD.opEq_iff (framesAt_iff.mp hcs c hc).1 hf
  by_cases hany : cs.any (fun c => c.stack.opEq f) = true
  · right
    obtain ⟨l₁, c, l₂, rfl, h₁, hc⟩ := exists_first hany
    have hck := (hiff c (by simp)).mp hc
    refine ⟨l₁, c, l₂, rfl, h₁, hc, fun d hd => ?_, hck⟩
    rw [← Bool.not_eq_true, hiff d (by simp [hd]), ← hck]
    -- a second match would have the key of the first
    intro hdc
    obtain rfl := h.key_inj (a := d) (b := c) (by simp [hd]) (by simp) hdc
    have hn := List.nodup_middle.mp (List.Nodup.of_map _ h.nodup)
    simp [hd] at hn
  · left
    intro c hc
    have hne : c.stack.opEq f = false := by
      rw [Bool.not_eq_true] at hany
      exact any_eq_false'.mp hany c hc
    exact ⟨hne, fun hk => by simp [(hiff c hc).mpr hk] at hne⟩

/-! ## `add` adds tallies -/

/-- The frames of the word `w` below the way that its earlier frames make. -/
def WordAt : (List Key → Set StackInfo) → List StackInfo → Prop
  | _, [] => True
  | D, f :: w => f ∈ D [] ∧ WordAt (fun p => D (f.key :: p)) w

theorem wordAt_const {F : Set StackInfo} {w : List StackInfo} (h : ∀ f ∈ w, f ∈ F) :
    WordAt (fun _ => F) w := by
  induction w with
  | nil => trivial
  | cons f w ih => exact ⟨h f (by simp), ih fun g hg => h g (by simp [hg])⟩

/-- Entering a call stack adds the tally of its word. -/
theorem Represents.insertWord {w : List StackInfo} (h : Represents cs φ) (hcs : FramesAt D cs)
    (hw : WordAt D w) (hD : ∀ p, StackInfo.OneProcess (D p)) :
    Represents (insertWord w cs) (φ + single (w.map StackInfo.key)) ∧
      FramesAt D (MultiStackInfo.insertWord w cs) := by
  induction w generalizing cs φ D with
  | nil => exact ⟨h.congr (by simp), hcs⟩
  | cons f w ih =>
    obtain ⟨hf, hw⟩ := hw
    rw [MultiStackInfo.insertWord]
    have hother : ∀ k p, k ≠ f.key →
        (φ + single ((f :: w).map StackInfo.key)) (k :: p) = φ (k :: p) := by
      intro k p hk
      simp [single_cons, hk]
    have hself : ∀ p, (φ + single ((f :: w).map StackInfo.key)) (f.key :: p) =
        φ (f.key :: p) + single (w.map StackInfo.key) p := by
      intro p
      simp [single_cons]
    rcases h.match_cases hcs (hD []) hf with hno | ⟨l₁, c, l₂, rfl, h₁, hc, -, hck⟩
    · rw [upsert_of_none fun c hc => (hno c hc).1]
      have h0 := h.zero_of_absent fun c hc => (hno c hc).2
      have hempty : Represents [] (0 : List Key → ℕ) := Represents.nil (by simp)
      obtain ⟨hr, hfr⟩ := ih hempty framesAt_nil hw fun p => hD (f.key :: p)
      refine ⟨h.snoc (fun c hc => (hno c hc).2) ?_ ?_ ?_ hother, hcs.snoc hf hfr⟩
      · rw [hself, h0]; simp
      · rw [hself, h0]; simp
      · refine hr.congr fun k p => ?_
        simp [single_cons, h0]
    · rw [upsert_split h₁ hc]
      obtain ⟨hr, hfr⟩ := ih (h.sub (c := c) (by simp)) (framesAt_iff.mp hcs c (by simp)).2
        (hck ▸ hw) fun p => hD (c.stack.key :: p)
      obtain ⟨hN, hN0⟩ := h.count (c := c) (by simp)
      refine ⟨h.update rfl ?_ ?_ ?_ (hck ▸ hother), hcs.update rfl hfr⟩
      · rw [hck, hself, ← hck, hN]; simp
      · rw [hck, hself]; simp
      · refine hr.congr fun k p => ?_
        simp [single_cons, hck]

/-- One step of entering a forest: `x` brings the part of `ψ` at its key. -/
theorem Represents.addTo (h : Represents cs φ) (hcs : FramesAt D cs) (hxD : x.stack ∈ D [])
    (hxcs : FramesAt (fun p => D (x.stack.key :: p)) x.children)
    (hD : ∀ p, StackInfo.OneProcess (D p)) (hN : x.N = ψ [x.stack.key])
    (hN0 : ψ [x.stack.key] ≠ 0) (hsub : Represents x.children fun p => ψ (x.stack.key :: p))
    (ih : ∀ {cs φ} {D : List Key → Set StackInfo}, Represents cs φ → FramesAt D cs →
      FramesAt D x.children → (∀ p, StackInfo.OneProcess (D p)) →
      Represents (addForest cs x.children) (φ + fun p => ψ (x.stack.key :: p)) ∧
        FramesAt D (addForest cs x.children)) :
    Represents (addTo x cs) (φ + only x.stack.key ψ) ∧ FramesAt D (MultiStackInfo.addTo x cs) := by
  have hother : ∀ k p, k ≠ x.stack.key → (φ + only x.stack.key ψ) (k :: p) = φ (k :: p) := by
    intro k p hk
    simp [only_cons, hk]
  have hself : ∀ p, (φ + only x.stack.key ψ) (x.stack.key :: p) =
      φ (x.stack.key :: p) + ψ (x.stack.key :: p) := by
    intro p
    simp [only_cons]
  rw [MultiStackInfo.addTo]
  rcases h.match_cases hcs (hD []) hxD with hno | ⟨l₁, c, l₂, rfl, h₁, hc, h₂, hck⟩
  · rw [absorb_of_none fun c hc => (hno c hc).1]
    have h0 := h.zero_of_absent fun c hc => (hno c hc).2
    refine ⟨h.snoc (fun c hc => (hno c hc).2) ?_ ?_ ?_ hother, hcs.snoc hxD hxcs⟩
    · rw [hself, h0, hN]; simp
    · rw [hself, h0]; simpa using hN0
    · refine hsub.congr fun k p => ?_
      simp [only_cons, h0]
  · rw [absorb_split h₁ hc h₂]
    obtain ⟨hr, hfr⟩ := ih (h.sub (c := c) (by simp)) (framesAt_iff.mp hcs c (by simp)).2
      (hck ▸ hxcs) fun p => hD (c.stack.key :: p)
    obtain ⟨hcN, -⟩ := h.count (c := c) (by simp)
    refine ⟨h.update (by simp) ?_ ?_ ?_ (hck ▸ hother), hcs.update (by simp) (by simpa using hfr)⟩
    · rw [hck, hself, add_N, hcN, hN, hck]; simp
    · rw [hck, hself]; omega
    · rw [add_children]
      refine hr.congr fun k p => ?_
      simp [only_cons, hck]

/-- Entering a forest adds its tally. -/
theorem Represents.addForest (h : Represents cs φ) (hx : Represents xs ψ) (hcs : FramesAt D cs)
    (hxs : FramesAt D xs) (hD : ∀ p, StackInfo.OneProcess (D p)) :
    Represents (addForest cs xs) (φ + ψ) ∧ FramesAt D (MultiStackInfo.addForest cs xs) := by
  induction xs using forest_induction generalizing cs φ ψ D with
  | nil =>
    rw [addForest_nil]
    refine ⟨h.congr fun k p => ?_, hcs⟩
    simp [hx.zero_of_absent (k := k) (by simp)]
  | cons x xs ihx ihxs =>
    obtain ⟨hxD, hxcs⟩ := framesAt_iff.mp hxs x (by simp)
    obtain ⟨hN, hN0⟩ := hx.count (c := x) (by simp)
    have hstep := h.addTo hcs hxD hxcs hD hN hN0 (hx.sub (by simp)) fun hr hfr hxfr hDr =>
      ihx hr (hx.sub (by simp)) hfr hxfr hDr
    rw [addForest_cons, ← only_add_without x.stack.key ψ, ← add_assoc]
    refine ihxs hstep.1 hx.tail hstep.2 ?_ hD
    exact framesAt_iff.mpr fun c hc => framesAt_iff.mp hxs c (by simp [hc])

/-! ## The tally determines the trees up to their order -/

theorem exists_forall₂ {α β : Type*} {R : α → β → Prop} {l : List α} (h : ∀ a ∈ l, ∃ b, R a b) :
    ∃ l', List.Forall₂ R l l' := by
  induction l with
  | nil => exact ⟨[], .nil⟩
  | cons a l ih =>
    obtain ⟨b, hb⟩ := h a (by simp)
    obtain ⟨l', hl'⟩ := ih fun x hx => h x (by simp [hx])
    exact ⟨b :: l', .cons hb hl'⟩

/-- Two forests with the same tally, tree by tree. -/
theorem Represents.exists_matching {cs' : List MultiStackInfo}
    {R : MultiStackInfo → MultiStackInfo → Prop} (h : Represents cs φ) (h' : Represents cs' φ)
    (hR : ∀ c ∈ cs, ∀ c' ∈ cs', c.stack.key = c'.stack.key → R c c') :
    ∃ ds, cs'.Perm ds ∧ List.Forall₂ R cs ds := by
  have hpart : ∀ c ∈ cs, ∃ d, d ∈ cs' ∧ c.stack.key = d.stack.key ∧ R c d := by
    intro c hc
    obtain ⟨d, hd, hdc⟩ := h'.cover (h.count hc).2
    exact ⟨d, hd, hdc.symm, hR c hc d hd hdc.symm⟩
  obtain ⟨ds, hds⟩ := exists_forall₂ hpart
  have hkeys : cs.map (·.stack.key) = ds.map (·.stack.key) := by
    clear hpart hR h
    induction hds with
    | nil => rfl
    | cons hcd _ ih => simp [hcd.2.1, ih]
  have hmem : ∀ d ∈ ds, d ∈ cs' := by
    clear hpart hR h hkeys
    induction hds with
    | nil => simp
    | cons hcd _ ih => simpa using ⟨hcd.1, ih⟩
  have hnd : (ds.map (·.stack.key)).Nodup := hkeys ▸ h.nodup
  refine ⟨ds, ?_, hds.imp fun _ _ hcd => hcd.2.2⟩
  refine (List.perm_ext_iff_of_nodup (List.Nodup.of_map _ h'.nodup) (List.Nodup.of_map _ hnd)).mpr
    fun d => ⟨fun hd => ?_, hmem d⟩
  -- the node of `ds` with the key of `d` is `d` itself
  obtain ⟨c, hc, hcd⟩ := h.cover (h'.count hd).2
  have hk : d.stack.key ∈ ds.map (·.stack.key) := by
    rw [← hkeys, ← hcd]; exact List.mem_map_of_mem hc
  obtain ⟨e, he, hed⟩ := List.mem_map.mp hk
  rwa [← h'.key_inj (hmem e he) hd hed]

end MultiStackInfo

end StackTrace
