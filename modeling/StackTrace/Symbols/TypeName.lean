import StackTrace.Base.CText
import StackTrace.Base.Occurrences

/-!
# `getTypeName`

`Utilities.cpp`, lines 345–363. The demangler is a parameter. `class ` and `struct ` are
searched for from the beginning until they occur no more, also where they end a longer word.

* `getTypeName_iff`: the result is the name without these keywords if and only if no longer
  word that ends in one of them is followed by a blank.
-/

namespace StackTrace.TypeName

/-! ## Model -/

/-- `replace( str, x, y )` (lines 345–350) in at most `fuel` searches. -/
def replace (x y : Bytes) : (fuel : ℕ) → (str : Bytes) → Option Bytes
  | 0, _ => none
  | fuel + 1, str =>
    match find x str with
    | none => some str
    | some pos => replace x y fuel (str.take pos ++ (y ++ str.drop (pos + x.length)))

/-- `getTypeName( id )` (lines 351–363) for the name `id` of the type. Without `USE_ABI`
    nothing is demangled, and `demangle` is `some`; `assign` needs a result. -/
def getTypeName (demangle : Bytes → Option Bytes) (fuel : ℕ) (id : Bytes) : Option Bytes := do
  let name ← demangle id
  let name ← replace (ascii "class ") [] fuel name
  replace (ascii "struct ") [] fuel name

/-! ## Specification -/

def keywords : List Bytes := [ascii "class ", ascii "struct "]

/-- A character of an identifier: a letter, a digit, `_`, `$`, or one outside ASCII. -/
def isWord (c : UInt8) : Bool :=
  (97 ≤ c ∧ c ≤ 122) ∨ (65 ≤ c ∧ c ≤ 90) ∨ (48 ≤ c ∧ c ≤ 57) ∨ c = 95 ∨ c = 36 ∨ 128 ≤ c

/-- Does `u` end inside a word? `word` says so of what precedes `u`. -/
def endsWord (word : Bool) (u : Bytes) : Bool := u.foldl (fun _ c => isWord c) word

/-- The keyword with which a text begins where no word precedes it. -/
def keywordAt (word : Bool) (t : Bytes) : Option Bytes :=
  if word then none else keywords.find? (·.isPrefixOf t)

/-- The text without the keywords before which no word ends. `skip` characters of a keyword
    are still to be left out. -/
def dropKeywords : (skip : ℕ) → (word : Bool) → Bytes → Bytes
  | _, _, [] => []
  | skip + 1, word, _ :: t => dropKeywords skip word t
  | 0, word, c :: t =>
    match keywordAt word (c :: t) with
    | some k => dropKeywords (k.length - 1) false t
    | none => c :: dropKeywords 0 (isWord c) t

/-- The keywords are whole words wherever they stand. -/
def WholeWords (name : Bytes) : Prop :=
  ∀ u k v, k ∈ keywords → name = u ++ (k ++ v) → endsWord false u = false

example : dropKeywords 0 false (ascii "Map<class Key, struct superclass const*>") =
    ascii "Map<Key, superclass const*>" := by decide

/-! ## Keywords -/

variable {k s a b u v t name : Bytes} {word : Bool}

theorem keywords_apart : ∀ k ∈ keywords, ∀ s ∈ keywords, Apart k s := by decide

theorem keywords_ne_nil : ∀ k ∈ keywords, k ≠ [] := by decide

theorem endsWord_append (word : Bool) (u v : Bytes) :
    endsWord word (u ++ v) = endsWord (endsWord word u) v := List.foldl_append

theorem endsWord_of_ne_nil (hu : u ≠ []) (word word' : Bool) :
    endsWord word u = endsWord word' u := by
  obtain ⟨c, u, rfl⟩ := List.exists_cons_of_ne_nil hu
  rfl

/-- A keyword ends in a blank. -/
theorem endsWord_keyword (hk : k ∈ keywords) (word : Bool) (u : Bytes) :
    endsWord word (k ++ u) = endsWord false u := by
  have hend : ∀ k ∈ keywords, endsWord false k = false := by decide
  rw [endsWord_append, endsWord_of_ne_nil (keywords_ne_nil k hk) word false, hend k hk]

/-- Before the blank a keyword is a word. -/
theorem endsWord_take (hk : k ∈ keywords) {j : ℕ} (hj : 0 < j) (hlt : j < k.length) :
    endsWord false (k.take j) = true := by
  have hall : ∀ k ∈ keywords, ∀ j < k.length, 0 < j → endsWord false (k.take j) = true := by decide
  exact hall k hk j hlt hj

/-- A keyword that begins in `a` does not reach beyond the end of `a`, unless a word does. -/
theorem keyword_prefix_iff (hk : k ∈ keywords) (ha : a ≠ []) (hword : endsWord word a = false) :
    k <+: a ++ b ↔ k <+: a := by
  refine ⟨fun hpre => ?_, fun hpre => hpre.trans (List.prefix_append a b)⟩
  rcases List.prefix_or_prefix_of_prefix hpre (List.prefix_append a b) with hka | hak
  · exact hka
  · rcases hak.length_le.lt_or_eq with hlt | heq
    · have htake := endsWord_take hk (List.length_pos_iff.mpr ha) hlt
      rw [← List.prefix_iff_eq_take.mp hak, endsWord_of_ne_nil ha false word, hword] at htake
      cases htake
    · exact (hak.eq_of_length heq) ▸ List.prefix_refl a

theorem keywordAt_keyword (hk : k ∈ keywords) (v : Bytes) :
    keywordAt false (k ++ v) = some k := by
  have hfound : (keywords.find? (·.isPrefixOf (k ++ v))).isSome :=
    List.find?_isSome.mpr ⟨k, hk, List.isPrefixOf_iff_prefix.mpr (List.prefix_append k v)⟩
  obtain ⟨s, hs⟩ := Option.isSome_iff_exists.mp hfound
  have hpre : s <+: k ++ v := by simpa using List.find?_some hs
  have hmem := List.mem_of_find?_eq_some hs
  have hks : k = s := by
    by_contra hne
    have hpos := List.length_pos_iff.mpr (keywords_ne_nil s hmem)
    have hapart := keywords_apart k hk s hmem 0 hpos (.inr hne)
    exact (List.prefix_or_prefix_of_prefix hpre (List.prefix_append k v)).elim hapart.1 hapart.2
  rw [hks]
  rw [hks] at hs
  exact hs

theorem keywordAt_eq_none (h : word = true ∨ ∀ k ∈ keywords, ¬ k <+: t) :
    keywordAt word t = none := by
  unfold keywordAt
  split_ifs with hword
  · rfl
  · refine List.find?_eq_none.mpr fun k hk hpre => h.resolve_left hword k hk ?_
    exact List.isPrefixOf_iff_prefix.mp hpre

/-! ## Dropping keywords -/

theorem dropKeywords_skip (n : ℕ) (word : Bool) (t : Bytes) :
    dropKeywords n word t = dropKeywords 0 word (t.drop n) := by
  induction t generalizing n with
  | nil => cases n <;> rfl
  | cons c t ih =>
    cases n with
    | zero => rfl
    | succ n => exact ih n

theorem dropKeywords_keyword (hk : k ∈ keywords) (v : Bytes) :
    dropKeywords 0 false (k ++ v) = dropKeywords 0 false v := by
  have hat := keywordAt_keyword hk v
  obtain ⟨c, k', rfl⟩ := List.exists_cons_of_ne_nil (keywords_ne_nil k hk)
  rw [List.cons_append] at hat ⊢
  simp only [dropKeywords, hat]
  rw [dropKeywords_skip, List.length_cons, Nat.add_sub_cancel, List.drop_left]

theorem dropKeywords_char {c : UInt8} (h : word = true ∨ ∀ k ∈ keywords, ¬ k <+: c :: t) :
    dropKeywords 0 word (c :: t) = c :: dropKeywords 0 (isWord c) t := by
  simp only [dropKeywords, keywordAt_eq_none h]

/-- A text is read keyword by keyword where no word precedes, and else by characters. -/
theorem keyword_induction {P : Bool → Bytes → Prop} (nil : ∀ word, P word [])
    (keyword : ∀ k v, k ∈ keywords → P false v → P false (k ++ v))
    (char : ∀ word c t, (word = true ∨ ∀ k ∈ keywords, ¬ k <+: c :: t) → P (isWord c) t →
      P word (c :: t)) (word : Bool) (t : Bytes) : P word t := by
  induction hn : t.length using Nat.strong_induction_on generalizing word t with
  | _ n ih =>
    cases t with
    | nil => exact nil word
    | cons c t =>
      by_cases h : word = true ∨ ∀ k ∈ keywords, ¬ k <+: c :: t
      · refine char word c t h (ih t.length ?_ _ _ rfl)
        rw [← hn, List.length_cons]
        omega
      · simp only [not_or, not_forall, not_not] at h
        obtain ⟨hword, k, hk, v, hv⟩ := h
        obtain rfl := Bool.eq_false_of_not_eq_true hword
        rw [← hv]
        refine keyword k v hk (ih v.length ?_ _ _ rfl)
        have hpos := List.length_pos_iff.mpr (keywords_ne_nil k hk)
        rw [← hn, ← hv, List.length_append]
        omega

theorem dropKeywords_eq_self (h : ∀ k ∈ keywords, ¬ k <:+: t) (word : Bool) :
    dropKeywords 0 word t = t := by
  induction t generalizing word with
  | nil => rfl
  | cons c t ih =>
    have hfirst : ∀ k ∈ keywords, ¬ k <+: c :: t := fun k hk hpre => h k hk hpre.isInfix
    have hrest : ∀ k ∈ keywords, ¬ k <:+: t := fun k hk hstands =>
      h k hk (hstands.trans (List.suffix_cons c t).isInfix)
    rw [dropKeywords_char (.inr hfirst), ih hrest]

/-- A keyword may be deleted first where no word ends before it. -/
theorem dropKeywords_cut (hs : s ∈ keywords) (hword : endsWord word a = false) (b : Bytes) :
    dropKeywords 0 word (a ++ (s ++ b)) = dropKeywords 0 word (a ++ b) := by
  induction word, a using keyword_induction with
  | nil word =>
    obtain rfl : word = false := hword
    exact dropKeywords_keyword hs b
  | keyword k a hk ih =>
    rw [endsWord_keyword hk] at hword
    rw [List.append_assoc, List.append_assoc, dropKeywords_keyword hk, dropKeywords_keyword hk,
      ih hword]
  | char word c a hc ih =>
    have hkept : ∀ x, word = true ∨ ∀ k ∈ keywords, ¬ k <+: c :: (a ++ x) := by
      intro x
      refine hc.imp_right fun hnone k hk hpre => hnone k hk ?_
      exact (keyword_prefix_iff hk (List.cons_ne_nil c a) hword).mp hpre
    rw [List.cons_append, List.cons_append, dropKeywords_char (hkept _),
      dropKeywords_char (hkept _), ih hword]

/-! ## Deletions -/

/-- What stands in `a ++ b` stands in one of them, unless `a` ends inside a word. -/
theorem split_cases (hk : k ∈ keywords) (hword : endsWord false a = false)
    (h : a ++ b = u ++ (k ++ v)) :
    (∃ a', a = u ++ (k ++ a') ∧ v = a' ++ b) ∨ ∃ b', u = a ++ b' ∧ b = b' ++ (k ++ v) := by
  rcases List.append_eq_append_iff.mp h with ⟨b', hu, hb⟩ | ⟨c, ha, hc⟩
  · exact .inr ⟨b', hu, hb⟩
  · by_cases hnil : c = []
    · subst hnil
      rw [List.append_nil] at ha
      exact .inr ⟨[], by rw [ha, List.append_nil], hc.symm⟩
    · rw [ha, endsWord_append] at hword
      have hpre : k <+: c ++ b := hc ▸ List.prefix_append k v
      obtain ⟨a', rfl⟩ := (keyword_prefix_iff hk hnil hword).mp hpre
      rw [List.append_assoc] at hc
      exact .inl ⟨a', ha, List.append_cancel_left hc⟩

namespace WholeWords

theorem endsWord_of_cut (h : WholeWords (a ++ (s ++ b))) (hs : s ∈ keywords) :
    endsWord false a = false := h a s b hs rfl

/-- The deletion of a keyword makes no other one. -/
theorem infix_of_cut (h : WholeWords (a ++ (s ++ b))) (hs : s ∈ keywords) (hk : k ∈ keywords)
    (hstands : k <:+: a ++ b) : k <:+: a ++ (s ++ b) := by
  obtain ⟨u, v, huv⟩ := hstands
  rw [List.append_assoc] at huv
  rcases split_cases hk (h.endsWord_of_cut hs) huv.symm with ⟨a', rfl, -⟩ | ⟨b', -, rfl⟩
  · exact ⟨u, a' ++ (s ++ b), by simp⟩
  · exact ⟨a ++ (s ++ b'), v, by simp⟩

theorem cut (h : WholeWords (a ++ (s ++ b))) (hs : s ∈ keywords) : WholeWords (a ++ b) := by
  intro u k v hk huv
  have hword := h.endsWord_of_cut hs
  rcases split_cases hk hword huv with ⟨a', rfl, -⟩ | ⟨b', rfl, rfl⟩
  · exact h u k (a' ++ (s ++ b)) hk (by simp)
  · have hlater := h (a ++ (s ++ b')) k v hk (by simp)
    rw [endsWord_append, hword] at hlater ⊢
    rw [endsWord_keyword hs] at hlater
    exact hlater

theorem rewrites (hs : s ∈ keywords) (hu : Rewrites s [] t u) (h : WholeWords t) :
    WholeWords u ∧ dropKeywords 0 false u = dropKeywords 0 false t ∧
      ∀ k ∈ keywords, k <:+: u → k <:+: t := by
  induction hu with
  | done _ => exact ⟨h, rfl, fun _ _ => id⟩
  | @step a b u _ _ ih =>
    obtain ⟨hwhole, hdrop, hstands⟩ := ih (h.cut hs)
    have hcut := dropKeywords_cut hs (h.endsWord_of_cut hs) b
    exact ⟨hwhole, hdrop.trans hcut.symm, fun k hk hku => h.infix_of_cut hs hk (hstands k hk hku)⟩

end WholeWords

/-! ## Lengths -/

/-- The number of characters that belong to keywords. -/
def covered (t : Bytes) : ℕ :=
  6 * occurrences (ascii "class ") t + 7 * occurrences (ascii "struct ") t

theorem covered_keyword (hk : k ∈ keywords) (v : Bytes) :
    covered (k ++ v) = k.length + covered v := by
  have hclass : ascii "class " ∈ keywords := by decide
  have hstruct : ascii "struct " ∈ keywords := by decide
  have hne := keywords_ne_nil k hk
  rw [covered, occurrences_pattern (keywords_apart _ hclass k hk) hne,
    occurrences_pattern (keywords_apart _ hstruct k hk) hne, covered]
  rcases List.mem_pair.mp hk with rfl | rfl
  · rw [if_pos rfl, if_neg (by decide), show (ascii "class ").length = 6 from rfl]
    omega
  · rw [if_neg (by decide), if_pos rfl, show (ascii "struct ").length = 7 from rfl]
    omega

theorem covered_cons (c : UInt8) (t : Bytes) :
    covered t ≤ covered (c :: t) ∧
      ∀ k ∈ keywords, k <+: c :: t → covered t < covered (c :: t) := by
  unfold covered
  rw [occurrences_cons, occurrences_cons]
  refine ⟨by omega, fun k hk hpre => ?_⟩
  rcases List.mem_pair.mp hk with rfl | rfl
  · rw [if_pos hpre]
    omega
  · rw [if_pos hpre]
    omega

/-- Nothing more than the keywords is left out, and all of them only if they are whole words. -/
theorem length_dropKeywords (word : Bool) (t : Bytes) :
    t.length ≤ (dropKeywords 0 word t).length + covered t ∧
      (t.length = (dropKeywords 0 word t).length + covered t →
        ∀ u k v, k ∈ keywords → t = u ++ (k ++ v) → endsWord word u = false) := by
  induction word, t using keyword_induction with
  | nil word =>
    refine ⟨Nat.zero_le _, fun _ u k v hk huv => ?_⟩
    have hnil := List.append_eq_nil_iff.mp (List.append_eq_nil_iff.mp huv.symm).2
    exact absurd hnil.1 (keywords_ne_nil k hk)
  | keyword k t hk ih =>
    rw [dropKeywords_keyword hk, covered_keyword hk, List.length_append]
    refine ⟨by omega, fun heq u s v hs huv => ?_⟩
    have hk0 : endsWord false k = false := by
      rw [← List.append_nil k, endsWord_keyword hk]
      rfl
    rcases split_cases hs hk0 huv with ⟨a, ha, -⟩ | ⟨b, rfl, hb⟩
    · -- a keyword inside another one begins where that one begins
      cases u with
      | nil => rfl
      | cons c u =>
        have hdrop : k.drop (c :: u).length = s ++ a := by rw [ha, List.drop_left]
        have hlt : (c :: u).length < k.length := by
          rw [ha, List.length_append, List.length_append]
          have hpos := List.length_pos_iff.mpr (keywords_ne_nil s hs)
          omega
        have hapart := keywords_apart s hs k hk _ hlt (.inl (Nat.succ_pos _))
        exact absurd (hdrop ▸ List.prefix_append s a) hapart.2
    · rw [endsWord_keyword hk]
      exact ih.2 (by omega) b s v hs hb
  | char word c t hc ih =>
    obtain ⟨hle, hlt⟩ := covered_cons c t
    rw [dropKeywords_char hc, List.length_cons, List.length_cons]
    refine ⟨by omega, fun heq u k v hk huv => ?_⟩
    cases u with
    | nil =>
      have hfirst := hlt k hk (huv ▸ List.prefix_append k v)
      omega
    | cons d u =>
      obtain ⟨rfl, ht⟩ := List.cons.inj huv
      exact ih.2 (by omega) u k v hk ht

/-! ## Main result -/

/-- A search that is bound to end does so before there are more rounds than characters. -/
theorem replace_ends {x : Bytes} (hx : x ≠ []) {fuel : ℕ} (h : t.length < fuel) :
    ∃ u, replace x [] fuel t = some u ∧ Rewrites x [] t u := by
  induction fuel generalizing t with
  | zero => exact absurd h (Nat.not_lt_zero _)
  | succ fuel ih =>
    unfold replace
    cases hfind : find x t with
    | none => exact ⟨t, rfl, .done (find_eq_none_iff.mp hfind)⟩
    | some pos =>
      obtain ⟨hpos, -, hfirst⟩ := find_eq_some_iff.mp hfind
      have hsplit := find_split hfind
      have hlen : (t.take pos).length = pos := List.length_take_of_le hpos
      have hshorter : (t.take pos ++ ([] ++ t.drop (pos + x.length))).length < fuel := by
        have htotal := congrArg List.length hsplit
        have hxpos := List.length_pos_iff.mpr hx
        simp only [List.length_append, List.length_nil] at htotal ⊢
        omega
      obtain ⟨u, hu, hrewrites⟩ := ih hshorter
      refine ⟨u, hu, ?_⟩
      rw [hsplit]
      refine .step (fun j hj => ?_) hrewrites
      rw [← hsplit]
      exact hfirst j (hlen ▸ hj)

theorem length_le_of_rewrites (hs : s ∈ keywords) (h : Rewrites s [] t u) :
    u.length + s.length * occurrences s t ≤ t.length :=
  h.length_add_le (keywords_apart s hs s hs) (keywords_ne_nil s hs)

/-- The searches end, and what they leave is the name without its keywords if and only if the
    keywords are whole words wherever they stand. -/
theorem getTypeName_iff {demangle : Bytes → Option Bytes} {id : Bytes}
    (h : demangle id = some name) {fuel : ℕ} (hfuel : name.length < fuel) :
    ∃ text, getTypeName demangle fuel id = some text ∧
      (text = dropKeywords 0 false name ↔ WholeWords name) := by
  have hclass : ascii "class " ∈ keywords := by decide
  have hstruct : ascii "struct " ∈ keywords := by decide
  obtain ⟨u, hu, hrewrites⟩ := replace_ends (keywords_ne_nil _ hclass) hfuel
  have hlength := length_le_of_rewrites hclass hrewrites
  obtain ⟨text, htext, hrewrites'⟩ :=
    replace_ends (keywords_ne_nil _ hstruct) (show u.length < fuel by omega)
  have hlength' := length_le_of_rewrites hstruct hrewrites'
  refine ⟨text, ?_, fun heq => ?_, fun hwhole => ?_⟩
  · rw [getTypeName, h, Option.bind_eq_bind, Option.bind_some, hu]
    exact htext
  · -- the searches delete at least what the keywords cover
    have hle := hrewrites.occurrences_le (keywords_apart _ hstruct _ hclass)
      (keywords_apart _ hclass _ hstruct) (by decide) (keywords_ne_nil _ hclass)
    obtain ⟨hkept, hall⟩ := length_dropKeywords false name
    refine hall (le_antisymm hkept ?_)
    rw [← heq, covered]
    rw [show (ascii "class ").length = 6 from rfl] at hlength
    rw [show (ascii "struct ").length = 7 from rfl] at hlength'
    omega
  · obtain ⟨hwholeu, hdropu, hinfixu⟩ := hwhole.rewrites hclass hrewrites
    obtain ⟨-, hdrop, hstands⟩ := hwholeu.rewrites hstruct hrewrites'
    have hnone : ∀ k ∈ keywords, ¬ k <:+: text := by
      intro k hk hktext
      rcases List.mem_pair.mp hk with rfl | rfl
      · exact hrewrites.not_isInfix (hstands _ hk hktext)
      · exact hrewrites'.not_isInfix hktext
    rw [← hdropu, ← hdrop, dropKeywords_eq_self hnone]

theorem getTypeName_iff_template :
    ∃ text, getTypeName some 39 (ascii "class Map<struct Key, superclass<int>>") = some text ∧
      (text = dropKeywords 0 false (ascii "class Map<struct Key, superclass<int>>") ↔
        WholeWords (ascii "class Map<struct Key, superclass<int>>")) :=
  getTypeName_iff rfl (by decide)

/-- A pointer to a constant `superclass`. -/
theorem getTypeName_superclass :
    getTypeName (fun _ => some (ascii "superclass const*")) 18 (ascii "PK10superclass") =
        some (ascii "superconst*") ∧
      dropKeywords 0 false (ascii "superclass const*") = ascii "superclass const*" := by
  decide

end StackTrace.TypeName
