import StackTrace.Tree.Tally

/-!
# `generateMultiStack` builds the prefix trie of the call stacks

For call stacks of one process the tree of `generateMultiStack` has exactly
one node for each way that some stack begins with, and `N` is the number of
stacks that do. The order of the stacks decides only the order of siblings and
which of several equal frames is stored.
-/

namespace StackTrace

namespace MultiStackInfo

open Tally

/-! ## Statement -/

/-- The child positions `pos` lead through frames that are `operator==` to `p`,
    frame by frame, to the node `n`. -/
inductive Spells : List MultiStackInfo → List ℕ → List StackInfo → MultiStackInfo → Prop
  | last {cs : List MultiStackInfo} {i : ℕ} {c : MultiStackInfo} {f : StackInfo}
      (hi : cs[i]? = some c) (hf : c.stack.opEq f = true) : Spells cs [i] [f] c
  | step {cs : List MultiStackInfo} {i : ℕ} {c n : MultiStackInfo} {f : StackInfo} {pos : List ℕ}
      {p : List StackInfo} (hi : cs[i]? = some c) (hf : c.stack.opEq f = true)
      (h : Spells c.children pos p n) : Spells cs (i :: pos) (f :: p) n

/-- `w` begins with `p` up to `operator==`. -/
def beginsWith : (p w : List StackInfo) → Bool
  | [], _ => true
  | _ :: _, [] => false
  | f :: p, g :: w => g.opEq f && beginsWith p w

/-- The trees differ only in the order of siblings and in which of the frames
    that are `operator==` is stored. -/
inductive SameUpToOrder : MultiStackInfo → MultiStackInfo → Prop
  | intro {t t' : MultiStackInfo} {cs : List MultiStackInfo} (N : t.N = t'.N)
      (stack : t.stack.opEq t'.stack = true) (perm : t'.children.Perm cs)
      (children : List.Forall₂ SameUpToOrder t.children cs) : SameUpToOrder t t'

/-! ## The tally of the call stacks of one process -/

section

variable {F : Set StackInfo} {cs cs' : List MultiStackInfo} {φ : List Key → ℕ}
  {S : List (List StackInfo)}

/-- The keys of a call stack, outermost frame first. -/
def word (s : List StackInfo) : List Key := s.reverse.map StackInfo.key

theorem represents_forestOf (hF : StackInfo.OneProcess F) (hS : ∀ s ∈ S, ∀ f ∈ s, f ∈ F) :
    Represents (forestOf S) (tally (S.map word)) := by
  induction S using List.reverseRecOn with
  | nil => exact Represents.nil (by simp)
  | append_singleton S s ih =>
    have hS' : ∀ s' ∈ S, ∀ f ∈ s', f ∈ F := fun s' hs' => hS s' (by simp [hs'])
    have hs : ∀ f ∈ s.reverse, f ∈ F := fun f hf => hS s (by simp) f (by simpa using hf)
    rw [forestOf_append_singleton, List.map_append, tally_append, List.map_singleton,
      tally_singleton]
    exact ((ih hS').insertWord (framesAt_const (framesIn_forestOf hS')) (wordAt_const hs)
      fun _ => hF).1

theorem beginsWith_iff (hF : StackInfo.OneProcess F) {p w : List StackInfo} (hp : ∀ f ∈ p, f ∈ F)
    (hw : ∀ f ∈ w, f ∈ F) :
    beginsWith p w = true ↔ p.map StackInfo.key <+: w.map StackInfo.key := by
  induction p generalizing w with
  | nil => simp [beginsWith]
  | cons f p ih =>
    cases w with
    | nil => simp [beginsWith]
    | cons g w =>
      rw [beginsWith, Bool.and_eq_true, hF.opEq_iff (hw g (by simp)) (hp f (by simp)),
        ih (fun x hx => hp x (by simp [hx])) fun x hx => hw x (by simp [hx]), List.map_cons,
        List.map_cons, List.cons_prefix_cons, eq_comm]

theorem tally_map_word (hF : StackInfo.OneProcess F) (hS : ∀ s ∈ S, ∀ f ∈ s, f ∈ F)
    {p : List StackInfo} (hp : ∀ f ∈ p, f ∈ F) :
    tally (S.map word) (p.map StackInfo.key) = S.countP fun s => beginsWith p s.reverse := by
  rw [tally, List.countP_map]
  apply List.countP_congr
  intro s hs
  rw [beginsWith_iff hF hp fun f hf => hS s hs f (by simpa using hf), Function.comp_apply,
    decide_eq_true_iff, word]

/-! ## Ways through a represented tree -/

theorem not_spells_nil_right {pos : List ℕ} {n : MultiStackInfo} : ¬Spells cs pos [] n := by
  intro h; cases h

/-- The node at the end of a way has the count of the way. -/
theorem Represents.spells_N (hF : StackInfo.OneProcess F) {pos : List ℕ} {p : List StackInfo}
    {n : MultiStackInfo} (hs : Spells cs pos p n) (h : Represents cs φ) (hcs : FramesIn F cs)
    (hp : ∀ f ∈ p, f ∈ F) : n.N = φ (p.map StackInfo.key) ∧ φ (p.map StackInfo.key) ≠ 0 := by
  induction hs generalizing φ with
  | @last cs i c f hi hf =>
    have hc := List.mem_of_getElem? hi
    rw [hF.opEq_iff (framesIn_iff.mp hcs c hc).1 (hp f (by simp))] at hf
    simpa [← hf] using h.count hc
  | @step cs i c n f pos p hi hf hs ih =>
    have hc := List.mem_of_getElem? hi
    rw [hF.opEq_iff (framesIn_iff.mp hcs c hc).1 (hp f (by simp))] at hf
    simpa [← hf] using
      ih (h.sub hc) (framesIn_iff.mp hcs c hc).2 fun g hg => hp g (by simp [hg])

/-- Every way with a count is there. -/
theorem Represents.exists_spells {p : List StackInfo} (h : Represents cs φ) (hp : p ≠ [])
    (hφ : φ (p.map StackInfo.key) ≠ 0) : ∃ pos n, Spells cs pos p n := by
  induction p generalizing cs φ with
  | nil => exact absurd rfl hp
  | cons f p ih =>
    rw [List.map_cons] at hφ
    obtain ⟨c, hc, hcf⟩ := h.cover hφ
    obtain ⟨i, hi⟩ := List.getElem?_of_mem hc
    have hf : c.stack.opEq f = true := StackInfo.opEq_of_key hcf
    by_cases hp' : p = []
    · subst hp'
      exact ⟨[i], c, .last hi hf⟩
    · obtain ⟨pos, n, hs⟩ := ih (h.sub hc) hp' (hcf ▸ hφ)
      exact ⟨i :: pos, n, .step hi hf hs⟩

/-- A way is there at most once. -/
theorem Represents.spells_unique (hF : StackInfo.OneProcess F) {pos pos' : List ℕ}
    {p : List StackInfo} {n n' : MultiStackInfo} (hs : Spells cs pos p n)
    (hs' : Spells cs pos' p n') (h : Represents cs φ) (hcs : FramesIn F cs)
    (hp : ∀ f ∈ p, f ∈ F) : pos = pos' := by
  -- siblings in the frame `f` have one position
  have hpos : ∀ {cs : List MultiStackInfo} {φ : List Key → ℕ} {f : StackInfo} {i j : ℕ}
      {c d : MultiStackInfo}, Represents cs φ → FramesIn F cs → f ∈ F → cs[i]? = some c →
      cs[j]? = some d → c.stack.opEq f = true → d.stack.opEq f = true → i = j := by
    intro cs φ f i j c d h hcs hf hi hj hc hd
    rw [hF.opEq_iff (framesIn_iff.mp hcs c (List.mem_of_getElem? hi)).1 hf] at hc
    rw [hF.opEq_iff (framesIn_iff.mp hcs d (List.mem_of_getElem? hj)).1 hf] at hd
    obtain ⟨hi', rfl⟩ := List.getElem?_eq_some_iff.mp hi
    obtain ⟨hj', rfl⟩ := List.getElem?_eq_some_iff.mp hj
    exact (@List.Nodup.getElem_inj_iff _ _ h.nodup i (by simpa using hi') j
      (by simpa using hj')).mp (by simpa using hc.trans hd.symm)
  induction hs generalizing φ pos' with
  | @last cs i c f hi hf =>
    cases hs' with
    | last hj hg => rw [hpos h hcs (hp f (by simp)) hi hj hf hg]
    | step _ _ hs' => exact absurd hs' not_spells_nil_right
  | @step cs i c n f pos p hi hf hs ih =>
    cases hs' with
    | last _ _ => exact absurd hs not_spells_nil_right
    | step hj hg hs' =>
      obtain rfl := hpos h hcs (hp f (by simp)) hi hj hf hg
      obtain rfl := Option.some.inj (hi.symm.trans hj)
      have hc := List.mem_of_getElem? hi
      rw [ih hs' (h.sub hc) (framesIn_iff.mp hcs _ hc).2 fun g hg => hp g (by simp [hg])]

/-! ## The tally determines the tree up to order -/

theorem Represents.sameUpToOrder {t t' : MultiStackInfo} (h : Represents t.children φ)
    (h' : Represents t'.children φ) (hN : t.N = t'.N) (hkey : t.stack.key = t'.stack.key) :
    SameUpToOrder t t' := by
  induction t using MultiStackInfo.induction generalizing t' φ with
  | node t ih =>
    obtain ⟨ds, hperm, hrel⟩ := h.exists_matching h' fun c hc c' hc' hk => by
      refine ih c hc (h.sub hc) (hk ▸ h'.sub hc') ?_ hk
      rw [(h.count hc).1, (h'.count hc').1, hk]
    exact .intro hN (StackInfo.opEq_of_key hkey) hperm hrel

/-! ## Main result -/

/-- For call stacks whose frames come from one process, the tree of
    `generateMultiStack` is the prefix trie of the stacks read outermost frame
    first: a way `p` leads to at most one node, to one iff some stack begins
    with `p`, and its `N` is the number of stacks that do. A permutation of the
    stacks changes only the order of siblings and the stored frames. -/
theorem multiStackOf_prefixTrie (hF : StackInfo.OneProcess F) (hS : ∀ s ∈ S, ∀ f ∈ s, f ∈ F) :
    (multiStackOf S).N = S.length ∧
    (∀ p, p ≠ [] → (∀ f ∈ p, f ∈ F) →
      (∀ pos n pos' n', Spells (multiStackOf S).children pos p n →
        Spells (multiStackOf S).children pos' p n' → pos = pos') ∧
      ((∃ pos n, Spells (multiStackOf S).children pos p n) ↔
        ∃ s ∈ S, beginsWith p s.reverse = true) ∧
      ∀ pos n, Spells (multiStackOf S).children pos p n →
        n.N = S.countP fun s => beginsWith p s.reverse) ∧
    ∀ S', S.Perm S' → SameUpToOrder (multiStackOf S) (multiStackOf S') := by
  have hrep := represents_forestOf hF hS
  have hfr := framesIn_forestOf hS
  simp only [multiStackOf_N, multiStackOf_children]
  refine ⟨trivial, fun p hp hpF => ⟨?_, ⟨?_, ?_⟩, ?_⟩, fun S' hSS' => ?_⟩
  · intro pos n pos' n' hs hs'
    exact Represents.spells_unique hF hs hs' hrep hfr hpF
  · rintro ⟨pos, n, hs⟩
    have := (Represents.spells_N hF hs hrep hfr hpF).2
    rw [tally_map_word hF hS hpF, ← Nat.pos_iff_ne_zero, List.countP_pos_iff] at this
    exact this
  · intro hex
    refine hrep.exists_spells hp ?_
    rw [tally_map_word hF hS hpF, ← Nat.pos_iff_ne_zero, List.countP_pos_iff]
    exact hex
  · intro pos n hs
    rw [(Represents.spells_N hF hs hrep hfr hpF).1, tally_map_word hF hS hpF]
  · have hrep' := represents_forestOf hF fun s hs => hS s (hSS'.mem_iff.mpr hs)
    rw [← tally_perm (hSS'.map word)] at hrep'
    rw [← multiStackOf_children] at hrep hrep'
    refine Represents.sameUpToOrder hrep hrep' ?_ ?_
    · simp [hSS'.length_eq]
    · simp

/-- Two threads in `main`, one of them in a call. -/
theorem multiStackOf_prefixTrie_two_threads :
    let main := StackInfo.ofFields 0x401000 0x1000 (ascii "a.out") (ascii "main") []
    let work := StackInfo.ofFields 0x402000 0x2000 (ascii "a.out") (ascii "work") []
    (∃ pos n, Spells (multiStackOf [[work, main], [main]]).children pos [main, work] n) ∧
      ∀ pos n, Spells (multiStackOf [[work, main], [main]]).children pos [main] n → n.N = 2 := by
  intro main work
  have hF : StackInfo.OneProcess {f | f = main ∨ f = work} := by
    rintro a (rfl | rfl) b (rfl | rfl) hab
    · exact ⟨rfl, rfl⟩
    · exact absurd hab (by decide)
    · exact absurd hab (by decide)
    · exact ⟨rfl, rfl⟩
  have hS : ∀ s ∈ [[work, main], [main]], ∀ f ∈ s, f = main ∨ f = work := by
    simp
  obtain ⟨-, htrie, -⟩ := multiStackOf_prefixTrie hF hS
  refine ⟨(htrie [main, work] (by simp) (by simp)).2.1.mpr ⟨[work, main], by simp, by decide⟩, ?_⟩
  intro pos n hn
  rw [(htrie [main] (by simp) (by simp)).2.2 pos n hn]
  decide

end

end MultiStackInfo

end StackTrace
