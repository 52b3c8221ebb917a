import StackTrace.Symbols.CleanupSteps
import StackTrace.Symbols.FindMatching

/-!
# The aliases of `std::basic_string`

`StackTrace.cpp`, lines 1967–1988. The loop goes from one instance to the next and tests
which text its arguments begin with. `char16_t` and `char32_t` begin with `char`, so that
their tests are never reached.

* `basicString_abbreviate`: the loop abbreviates by these tests, up to the matching bracket.
* `basicString_iff`: it abbreviates by the first argument exactly where no argument goes on
  behind `char` or `wchar_t`.
-/

namespace StackTrace

open Brackets

namespace FunctionName

/-! ## Abbreviation -/

/-- The first template argument in what follows a `<`. -/
def firstArgument (v : Bytes) : Bytes := v.takeWhile fun c => c ≠ 44 ∧ c ≠ 62

/-- The alias for the character type `c`. -/
def charAlias (c : Bytes) : Option String :=
  if c = ascii "char" then some "std::string"
  else if c = ascii "wchar_t" then some "std::wstring"
  else if c = ascii "char16_t" then some "std::u16string"
  else if c = ascii "char32_t" then some "std::u32string"
  else none

/-- The alias of the instance with which `t` begins, and the length of the instance. -/
def aliasOf (name : Bytes → Option String) (t : Bytes) : Option (String × ℕ) :=
  if (ascii "std::basic_string<").isPrefixOf t then do
    let r ← name (t.drop 18)
    let k ← closing bracket 1 (t.drop 18)
    some (r, 18 + k)
  else none

/-- From the left to the right each instance that has an alias is replaced by it, up to its
    matching bracket. `skip` characters of an instance are still to be left out. -/
def abbreviate (name : Bytes → Option String) : (skip : ℕ) → Bytes → Bytes
  | _, [] => []
  | skip + 1, _ :: t => abbreviate name skip t
  | 0, c :: t =>
    match aliasOf name (c :: t) with
    | some (r, n) => ascii r ++ abbreviate name (n - 1) t
    | none => c :: abbreviate name 0 t

/-- The tests of lines 1979–1985. -/
def testedAlias (v : Bytes) : Option String :=
  if (ascii "char").isPrefixOf v then some "std::string"
  else if (ascii "wchar_t").isPrefixOf v then some "std::wstring"
  else if (ascii "char16_t").isPrefixOf v then some "std::u16string"
  else if (ascii "char32_t").isPrefixOf v then some "std::u32string"
  else none

variable {name : Bytes → Option String} {f : FunctionName} {t u v : Bytes} {L : ℕ}

theorem abbreviate_skip (n : ℕ) (t : Bytes) :
    abbreviate name n t = abbreviate name 0 (t.drop n) := by
  induction t generalizing n with
  | nil => cases n <;> rfl
  | cons c t ih =>
    cases n with
    | zero => rfl
    | succ n =>
      rw [abbreviate, ih]
      rfl

theorem aliasOf_of_not_prefix (h : ¬ ascii "std::basic_string<" <+: t) : aliasOf name t = none := by
  unfold aliasOf
  rw [if_neg fun hpre => h (List.isPrefixOf_iff_prefix.mp hpre)]

theorem aliasOf_append (name : Bytes → Option String) (v : Bytes) :
    aliasOf name (ascii "std::basic_string<" ++ v) =
      (name v).bind fun r => (closing bracket 1 v).map fun k => (r, 18 + k) := by
  have hpre : (ascii "std::basic_string<").isPrefixOf (ascii "std::basic_string<" ++ v) = true :=
    List.isPrefixOf_iff_prefix.mpr (List.prefix_append _ _)
  have hdrop : (ascii "std::basic_string<" ++ v).drop 18 = v :=
    List.drop_left' (show (ascii "std::basic_string<").length = 18 by decide)
  unfold aliasOf
  rw [if_pos hpre, hdrop]
  cases name v with
  | none => rfl
  | some r => cases closing bracket 1 v <;> rfl

/-- A text in which no instance begins is kept. -/
theorem abbreviate_append (name : Bytes → Option String)
    (h : ∀ j < u.length, ¬ ascii "std::basic_string<" <+: (u ++ v).drop j) :
    abbreviate name 0 (u ++ v) = u ++ abbreviate name 0 v := by
  induction u with
  | nil => rfl
  | cons c u ih =>
    have hnone : aliasOf name (c :: (u ++ v)) = none :=
      aliasOf_of_not_prefix (h 0 (Nat.succ_pos _))
    rw [List.cons_append, abbreviate, hnone]
    show c :: abbreviate name 0 (u ++ v) = _
    rw [ih fun j hj => h (j + 1) (Nat.succ_lt_succ hj)]
    rfl

theorem abbreviate_eq_self (h : ¬ ascii "std::basic_string<" <:+: t) :
    abbreviate name 0 t = t := by
  have hkeep := abbreviate_append name (u := t) (v := []) fun j _ hpre => by
    rw [List.append_nil] at hpre
    exact h (hpre.isInfix.trans (List.drop_suffix j t).isInfix)
  rw [List.append_nil] at hkeep
  rw [hkeep]
  exact List.append_nil t

/-- No instance begins in a text none of whose ends the pattern begins with. -/
theorem not_prefix_drop {a : Bytes} (ha : ∀ j < a.length, ¬ a.drop j <+: ascii "std::basic_string<")
    (hlength : a.length ≤ 18) (v : Bytes) :
    ∀ j < a.length, ¬ ascii "std::basic_string<" <+: (a ++ v).drop j := by
  intro j hj hpre
  rw [List.drop_append_of_le_length hj.le] at hpre
  refine ha j hj (List.prefix_of_prefix_length_le (List.prefix_append _ _) hpre ?_)
  have hsize : (ascii "std::basic_string<").length = 18 := by decide
  rw [List.length_drop]
  omega

/-! ## Instances -/

/-- Behind its first character an instance has no other one up to its bracket. -/
theorem abbreviate_keep (h : aliasOf name (ascii "std::basic_string<" ++ v) = none) :
    abbreviate name 0 (ascii "std::basic_string<" ++ v) =
      ascii "std::basic_string<" ++ abbreviate name 0 v := by
  have hcons : ascii "std::basic_string<" = 115 :: ascii "td::basic_string<" := by decide
  have htail := abbreviate_append name
    (not_prefix_drop (a := ascii "td::basic_string<") (by decide) (by decide) v)
  rw [hcons] at h ⊢
  rw [List.cons_append, List.cons_append] at *
  rw [abbreviate, h]
  show 115 :: abbreviate name 0 (ascii "td::basic_string<" ++ v) = _
  rw [htail]

theorem abbreviate_instance {r : String} {k : ℕ} (hname : name v = some r)
    (hk : closing bracket 1 v = some k) :
    abbreviate name 0 (ascii "std::basic_string<" ++ v) =
      ascii r ++ abbreviate name 0 (v.drop k) := by
  have hcons : ascii "std::basic_string<" ++ v = 115 :: (ascii "td::basic_string<" ++ v) := by
    have h : ascii "std::basic_string<" = 115 :: ascii "td::basic_string<" := by decide
    rw [h]
    rfl
  have halias := aliasOf_append name v
  rw [hname, hk, hcons] at halias
  have hdrop : (ascii "td::basic_string<" ++ v).drop (18 + k - 1) = v.drop k := by
    have hsize : (ascii "td::basic_string<").length = 17 := by decide
    rw [show 18 + k - 1 = (ascii "td::basic_string<").length + k by omega, ← List.drop_drop,
      List.drop_left]
  rw [hcons, abbreviate, halias]
  show ascii r ++ abbreviate name (18 + k - 1) (ascii "td::basic_string<" ++ v) = _
  rw [abbreviate_skip, hdrop]

/-! ## The loop -/

/-- A NUL ends what a text without NUL can begin. -/
theorem prefix_append_zero {s : Bytes} (hs : 0 ∉ s) (v rest : Bytes) :
    s <+: v ++ 0 :: rest ↔ s <+: v := by
  constructor
  · intro h
    rcases List.prefix_or_prefix_of_prefix h (List.prefix_append v (0 :: rest)) with hsv | ⟨s', rfl⟩
    · exact hsv
    · have hs' := (List.prefix_append_right_inj v).mp h
      cases s' with
      | nil => rw [List.append_nil]
      | cons c s' =>
        obtain ⟨x, hx⟩ := hs'
        obtain ⟨rfl, -⟩ := List.cons.inj hx
        exact absurd (by simp) hs
  · exact fun h => h.trans (List.prefix_append v _)

theorem Holds.startsWith_eq (h : f.Holds (u ++ v) L) {s : String} (hs : 0 ∉ ascii s) :
    f.startsWith u.length s = (ascii s).isPrefixOf v := by
  obtain ⟨rest, hrest⟩ := h.buffer
  have hdrop : f.function.drop u.length = v ++ 0 :: rest := by
    rw [hrest, List.append_assoc, List.drop_left]
  unfold startsWith
  rw [hdrop, Bool.eq_iff_iff, List.isPrefixOf_iff_prefix, List.isPrefixOf_iff_prefix,
    prefix_append_zero hs]

theorem Holds.stringName_eq (h : f.Holds (u ++ v) L) :
    f.stringName u.length = testedAlias v := by
  unfold stringName testedAlias
  rw [h.startsWith_eq (s := "char") (by decide), h.startsWith_eq (s := "wchar_t") (by decide),
    h.startsWith_eq (s := "char16_t") (by decide), h.startsWith_eq (s := "char32_t") (by decide)]

/-- The matching bracket of an instance behind `u`. -/
theorem Holds.findMatching_instance (h : f.Holds (u ++ (ascii "std::basic_string<" ++ v)) L)
    {k : ℕ} (hk : closing bracket 1 v = some k) :
    f.findMatching (u.length + 17) = u.length + (18 + k) := by
  have hsplit : ascii "std::basic_string<" = ascii "std::basic_string" ++ [60] := by decide
  have hlength : (u ++ ascii "std::basic_string").length = u.length + 17 := by
    rw [List.length_append, show (ascii "std::basic_string").length = 17 by decide]
  have hview : f.view = some ((u ++ ascii "std::basic_string") ++ 60 :: v) := by
    rw [h.view, hsplit]
    simp
  have hmatch := findMatching_eq hview
  rw [hk, Option.getD_some, hlength] at hmatch
  omega

/-- The alias of an instance behind `u`. -/
theorem Holds.stringName_instance (h : f.Holds (u ++ (ascii "std::basic_string<" ++ v)) L) :
    f.stringName (u.length + 18) = testedAlias v := by
  have hlength : (u ++ ascii "std::basic_string<").length = u.length + 18 := by
    rw [List.length_append, show (ascii "std::basic_string<").length = 18 by decide]
  rw [← hlength]
  refine Holds.stringName_eq (L := L) ?_
  rw [List.append_assoc]
  exact h

/-- What the body of the loop does to an instance behind `u`. -/
theorem Holds.basicString_eq (h : f.Holds (u ++ (ascii "std::basic_string<" ++ v)) L) {k : ℕ}
    (hk : closing bracket 1 v = some k) :
    basicString f u.length (u.length + 17) (f.findMatching (u.length + 17)) =
      (testedAlias v).elim f fun r => f.replace u.length (18 + k) (ascii r) := by
  rw [FunctionName.basicString_eq, h.findMatching_instance hk, Nat.add_sub_cancel_left]
  show (f.stringName (u.length + 18)).elim f _ = _
  rw [h.stringName_instance]

theorem testedAlias_eq {r : String} (h : testedAlias v = some r) :
    r = "std::string" ∨ r = "std::wstring" ∨ r = "std::u16string" ∨ r = "std::u32string" := by
  unfold testedAlias at h
  split_ifs at h <;> obtain rfl := Option.some.inj h <;> simp

/-- An alias has no brackets and no NUL, and no instance begins behind its first character. -/
theorem testedAlias_cons {r : String} (h : testedAlias v = some r) :
    ∃ c a, ascii r = c :: a ∧ (∀ j < a.length, ¬ a.drop j <+: ascii "std::basic_string<") ∧
      a.length ≤ 17 ∧ (∀ c ∈ a, bracket c = 0) ∧ 0 ∉ ascii r := by
  rcases testedAlias_eq h with rfl | rfl | rfl | rfl
  · exact ⟨115, ascii "td::string", by decide, by decide, by decide,
      by decide +kernel, by decide⟩
  · exact ⟨115, ascii "td::wstring", by decide, by decide, by decide,
      by decide +kernel, by decide⟩
  · exact ⟨115, ascii "td::u16string", by decide, by decide, by decide,
      by decide +kernel, by decide⟩
  · exact ⟨115, ascii "td::u32string", by decide, by decide, by decide,
      by decide +kernel, by decide⟩

theorem closes_instance (h : Closes bracket (ascii "std::basic_string<" ++ v)) :
    ∃ k, closing bracket 1 v = some k := by
  have hdepth := h _ List.suffix_rfl
  rw [depth_append, show depth bracket (ascii "std::basic_string<") = 1 by decide] at hdepth
  exact exists_closing neg_one_le_bracket one_pos hdepth

/-- One round: the loop goes on behind the first character of the alias or of the instance,
    and so does the abbreviation. -/
theorem Holds.basicString_round (h : f.Holds (u ++ (ascii "std::basic_string<" ++ v)) L)
    (hL : L < npos) (hcloses : Closes bracket (ascii "std::basic_string<" ++ v)) :
    ∃ c x, (basicString f u.length (u.length + 17) (f.findMatching (u.length + 17))).Holds
        (u ++ c :: x) L ∧
      Closes bracket x ∧ x.length < (ascii "std::basic_string<" ++ v).length ∧
      abbreviate testedAlias 0 (ascii "std::basic_string<" ++ v) =
        c :: abbreviate testedAlias 0 x := by
  have hlength : (ascii "std::basic_string<").length = 18 := by decide
  obtain ⟨m, hm⟩ := closes_instance hcloses
  have hbody := h.basicString_eq hm
  cases hname : testedAlias v with
  | none =>
    have hcons : ascii "std::basic_string<" = 115 :: ascii "td::basic_string<" := by decide
    have halias := aliasOf_append testedAlias v
    rw [hname] at hbody halias
    rw [hbody]
    rw [hcons] at h hcloses halias ⊢
    refine ⟨115, ascii "td::basic_string<" ++ v, h, hcloses.suffix ⟨[115], rfl⟩,
      Nat.lt_succ_self _, ?_⟩
    rw [List.cons_append] at halias ⊢
    rw [abbreviate, halias]
    rfl
  | some r =>
    obtain ⟨c, a, hr, hends, hsize, hweight, hzero⟩ := testedAlias_cons hname
    have hle := closing_le hm
    have hsplit : ascii "std::basic_string<" ++ v =
        (ascii "std::basic_string<" ++ v.take m) ++ v.drop m := by
      rw [List.append_assoc, List.take_append_drop]
    have hinstance : (ascii "std::basic_string<" ++ v.take m).length = 18 + m := by
      rw [List.length_append, hlength, List.length_take, Nat.min_eq_left hle]
    rw [hsplit] at h
    have hreplace := h.replace hL (r := ascii r)
      (by rw [hinstance, hr, List.length_cons]; omega) hzero
    rw [hname, Option.elim_some] at hbody
    rw [hinstance, hr] at hreplace
    refine ⟨c, a ++ v.drop m, ?_, ?_, ?_, ?_⟩
    · rw [hbody, hr]
      exact hreplace
    · refine Closes.append hweight (hcloses.suffix ?_)
      rw [hsplit]
      exact List.suffix_append _ _
    · simp only [List.length_append, List.length_drop, hlength]
      omega
    · rw [abbreviate_instance hname hm, hr,
        abbreviate_append testedAlias (not_prefix_drop hends (hsize.trans (by omega)) _)]
      rfl

/-- From a position on, the loop abbreviates what is behind it. -/
theorem instances_abbreviate (h : f.Holds (u ++ v) L) (hL : L < npos) (hv : Closes bracket v) :
    ∃ fuel g, instances "std::basic_string<" basicString fuel u.length f = some g ∧
      g.Holds (u ++ abbreviate testedAlias 0 v) L := by
  induction hn : v.length using Nat.strong_induction_on generalizing f u v with
  | _ n ih =>
    have hstrstr : strstr (u ++ v) u.length (ascii "std::basic_string<") =
        (StackTrace.find (ascii "std::basic_string<") v).map (u.length + ·) := by
      unfold strstr
      rw [List.drop_left]
    rcases h.scan_cases hL (s := "std::basic_string<") (by decide) u.length (fun _ => none)
        .basicString with ⟨hnone, -, hdone⟩ | ⟨p, hp, -, -, -, hround⟩
    · rw [hstrstr, Option.map_eq_none_iff, find_eq_none_iff] at hnone
      refine ⟨1, f, hdone _ 0, ?_⟩
      rw [abbreviate_eq_self hnone]
      exact h
    · rw [hstrstr] at hp
      obtain ⟨k, hfind, rfl⟩ := Option.map_eq_some_iff.mp hp
      obtain ⟨w, v, rfl, rfl, hfirst⟩ := find_first hfind
      rw [← List.append_assoc] at h
      obtain ⟨c, x, hbody, hcloses, hlt, habbreviate⟩ :=
        h.basicString_round hL (hv.suffix (List.suffix_append _ _))
      rw [List.length_append] at hbody
      have hnext : (u ++ w) ++ c :: x = (u ++ (w ++ [c])) ++ x := by simp
      rw [hnext] at hbody
      obtain ⟨fuel, g, hg, hu⟩ := ih x.length
        (by rw [← hn, List.length_append]; omega) hbody hcloses rfl
      have hlength : (u ++ (w ++ [c])).length = u.length + w.length + 1 := by
        simp only [List.length_append, List.length_singleton, Nat.add_assoc]
      rw [hlength] at hg
      refine ⟨fuel + 1, g, (hround _ fuel).trans hg, ?_⟩
      rw [abbreviate_append testedAlias hfirst, habbreviate]
      simpa using hu

/-! ## Ambiguous instances -/

/-- The alias of the first argument. -/
def argumentAlias (v : Bytes) : Option String := charAlias (firstArgument v)

/-- The first argument goes on behind `char` or `wchar_t`. -/
def Ambiguous (v : Bytes) : Prop :=
  (ascii "char" <+: firstArgument v ∧ firstArgument v ≠ ascii "char") ∨
    (ascii "wchar_t" <+: firstArgument v ∧ firstArgument v ≠ ascii "wchar_t")

/-- None of the instances that are come upon from the left to the right is ambiguous. What
    is inside of a replaced one is not come upon. -/
def Unambiguous : (skip : ℕ) → Bytes → Prop
  | _, [] => True
  | skip + 1, _ :: t => Unambiguous skip t
  | 0, c :: t =>
    (ascii "std::basic_string<" <+: c :: t → ¬ Ambiguous ((c :: t).drop 18)) ∧
      match aliasOf argumentAlias (c :: t) with
      | some (_, n) => Unambiguous (n - 1) t
      | none => Unambiguous 0 t

instance decidableAmbiguous (v : Bytes) : Decidable (Ambiguous v) :=
  inferInstanceAs (Decidable (_ ∨ _))

instance decidableUnambiguous : ∀ (skip : ℕ) (t : Bytes), Decidable (Unambiguous skip t)
  | 0, [] => inferInstanceAs (Decidable True)
  | _ + 1, [] => inferInstanceAs (Decidable True)
  | skip + 1, _ :: t => decidableUnambiguous skip t
  | 0, c :: t =>
    have : Decidable (match aliasOf argumentAlias (c :: t) with
        | some (_, n) => Unambiguous (n - 1) t
        | none => Unambiguous 0 t) :=
      match aliasOf argumentAlias (c :: t) with
      | some (_, n) => decidableUnambiguous (n - 1) t
      | none => decidableUnambiguous 0 t
    inferInstanceAs (Decidable (_ ∧ _))

/-- A text without comma and `>` is the beginning of the first argument if it is that of
    the arguments. -/
theorem prefix_firstArgument {s : Bytes} (hs : ∀ c ∈ s, c ≠ 44 ∧ c ≠ 62) :
    s <+: firstArgument v ↔ s <+: v := by
  constructor
  · exact fun h => h.trans (List.takeWhile_prefix _)
  · rintro ⟨x, rfl⟩
    unfold firstArgument
    rw [List.takeWhile_append_of_pos fun c hc => by simpa using hs c hc]
    exact List.prefix_append _ _

theorem not_char_and_wchar {c : Bytes} (h : ascii "char" <+: c) : ¬ ascii "wchar_t" <+: c := by
  intro h'
  rcases List.prefix_or_prefix_of_prefix h h' with h | h
  · exact absurd h (by decide)
  · exact absurd h (by decide)

/-- The tests tell the character type where it is not ambiguous. -/
theorem testedAlias_eq_argumentAlias_iff : testedAlias v = argumentAlias v ↔ ¬ Ambiguous v := by
  have hbegins : ∀ s : String, (∀ c ∈ ascii s, c ≠ 44 ∧ c ≠ 62) →
      ((ascii s).isPrefixOf v = true ↔ ascii s <+: firstArgument v) := fun s hs => by
    rw [List.isPrefixOf_iff_prefix, prefix_firstArgument hs]
  unfold testedAlias argumentAlias charAlias Ambiguous
  simp only [hbegins "char" (by decide +kernel), hbegins "wchar_t" (by decide +kernel),
    hbegins "char16_t" (by decide +kernel), hbegins "char32_t" (by decide +kernel)]
  generalize firstArgument v = c
  by_cases hchar : ascii "char" <+: c
  · have hwchar := not_char_and_wchar hchar
    have hne : c ≠ ascii "wchar_t" := fun h => hwchar (h ▸ List.prefix_rfl)
    simp only [hchar, if_true, true_and, hwchar, false_and, or_false, not_not, if_neg hne]
    by_cases heq : c = ascii "char"
    · simp [heq]
    · simp only [heq, if_false, iff_false]
      split_ifs <;> decide
  · have h16 : ¬ ascii "char16_t" <+: c := fun h => hchar (.trans (by decide) h)
    have h32 : ¬ ascii "char32_t" <+: c := fun h => hchar (.trans (by decide) h)
    have hne : c ≠ ascii "char" := fun h => hchar (h ▸ List.prefix_rfl)
    have hne16 : c ≠ ascii "char16_t" := fun h => h16 (h ▸ List.prefix_rfl)
    have hne32 : c ≠ ascii "char32_t" := fun h => h32 (h ▸ List.prefix_rfl)
    simp only [hchar, if_false, false_and, false_or, if_neg h16, if_neg h32, if_neg hne,
      if_neg hne16, if_neg hne32]
    by_cases hwchar : ascii "wchar_t" <+: c
    · by_cases heq : c = ascii "wchar_t"
      · simp [heq]
      · simp [hwchar, heq]
    · have hne : c ≠ ascii "wchar_t" := fun h => hwchar (h ▸ List.prefix_rfl)
      simp [hwchar, hne]

theorem charAlias_eq {c : Bytes} {r : String} (h : charAlias c = some r) :
    r = "std::string" ∨ r = "std::wstring" ∨ r = "std::u16string" ∨ r = "std::u32string" := by
  unfold charAlias at h
  split_ifs at h <;> obtain rfl := Option.some.inj h <;> simp

/-- The tests take an ambiguous character type for `char` or `wchar_t`. -/
theorem testedAlias_of_ambiguous (h : Ambiguous v) :
    testedAlias v = some "std::string" ∨ testedAlias v = some "std::wstring" := by
  have hle := List.takeWhile_prefix (l := v) fun c : UInt8 => decide (c ≠ 44 ∧ c ≠ 62)
  unfold testedAlias
  rcases h with ⟨h, -⟩ | ⟨h, -⟩
  · exact .inl (if_pos (List.isPrefixOf_iff_prefix.mpr (h.trans hle)))
  · rw [if_pos (c := (ascii "wchar_t").isPrefixOf v) (List.isPrefixOf_iff_prefix.mpr (h.trans hle))]
    split_ifs
    · exact .inl rfl
    · exact .inr rfl

/-- The character behind `std::` in what is left of an instance. -/
def sixth : Option String → Option UInt8
  | none => some 98
  | some r => (ascii r)[5]?

theorem abbreviate_sixth {k : ℕ} (hk : closing bracket 1 v = some k)
    (hlength : ∀ r ∈ name v, 5 < (ascii r).length) :
    (abbreviate name 0 (ascii "std::basic_string<" ++ v))[5]? = sixth (name v) := by
  cases hname : name v with
  | none =>
    have halias := aliasOf_append name v
    rw [hname] at halias
    rw [abbreviate_keep halias, List.getElem?_append_left (by decide)]
    decide
  | some r =>
    rw [abbreviate_instance hname hk, List.getElem?_append_left (hlength r hname)]
    rfl

/-- What is left of an instance differs where the aliases do. -/
theorem abbreviate_ne (h : Ambiguous v) {k : ℕ} (hk : closing bracket 1 v = some k) :
    abbreviate testedAlias 0 (ascii "std::basic_string<" ++ v) ≠
      abbreviate argumentAlias 0 (ascii "std::basic_string<" ++ v) := by
  intro heq
  have hne : testedAlias v ≠ argumentAlias v := fun he =>
    testedAlias_eq_argumentAlias_iff.mp he h
  have hsixth : sixth (testedAlias v) = sixth (argumentAlias v) := by
    rw [← abbreviate_sixth hk, ← abbreviate_sixth hk, heq]
    · intro r hr
      rcases charAlias_eq hr with rfl | rfl | rfl | rfl <;> decide
    · intro r hr
      rcases testedAlias_eq hr with rfl | rfl | rfl | rfl <;> decide
  cases hr : argumentAlias v with
  | none =>
    rw [hr] at hsixth
    rcases testedAlias_of_ambiguous h with ht | ht <;> rw [ht] at hsixth <;>
      exact absurd hsixth (by decide)
  | some r =>
    rw [hr] at hsixth hne
    rcases testedAlias_of_ambiguous h with ht | ht <;> rw [ht] at hsixth hne <;>
      rcases charAlias_eq hr with rfl | rfl | rfl | rfl <;>
      first | exact hne rfl | exact absurd hsixth (by decide)

/-- Both abbreviations are the same where no instance is ambiguous. -/
theorem abbreviate_eq_iff (skip : ℕ) (hv : Closes bracket v) :
    abbreviate testedAlias skip v = abbreviate argumentAlias skip v ↔ Unambiguous skip v := by
  induction v generalizing skip with
  | nil => exact iff_of_true (by cases skip <;> rfl) (by cases skip <;> trivial)
  | cons c v ih =>
    have ih' := fun skip => ih skip (hv.suffix ⟨[c], rfl⟩)
    cases skip with
    | succ skip => exact ih' skip
    | zero =>
      by_cases hpre : ascii "std::basic_string<" <+: c :: v
      · obtain ⟨x, hx⟩ := hpre
        obtain ⟨k, hk⟩ := closes_instance (v := x) (hx ▸ hv)
        have hdrop : (c :: v).drop 18 = x := by
          rw [← hx]
          exact List.drop_left' (show (ascii "std::basic_string<").length = 18 by decide)
        by_cases hambiguous : Ambiguous x
        · refine iff_of_false ?_ fun h => ?_
          · rw [← hx]
            exact abbreviate_ne hambiguous hk
          · rw [Unambiguous, hdrop] at h
            exact h.1 ⟨x, hx⟩ hambiguous
        · have hsame := testedAlias_eq_argumentAlias_iff.mpr hambiguous
          have htested := aliasOf_append testedAlias x
          have hargument := aliasOf_append argumentAlias x
          rw [hx] at htested hargument
          rw [hsame] at htested
          rw [Unambiguous, hdrop]
          cases hr : argumentAlias x with
          | none =>
            rw [hr] at htested hargument
            simp [abbreviate, htested, hargument, hambiguous, ih']
          | some r =>
            rw [hr, hk] at htested hargument
            simp [abbreviate, htested, hargument, hambiguous, ih']
      · simp only [abbreviate, Unambiguous, aliasOf_of_not_prefix hpre, hpre, false_imp_iff,
          true_and, List.cons.injEq, ih']

/-! ## Result -/

/-- What the loop leaves is what abbreviating by its tests gives. -/
theorem basicString_abbreviate (h : f.Holds t L) (hL : L < npos) (ht : Nested bracket t) :
    (∃ fuel g, instances "std::basic_string<" basicString fuel 0 f = some g ∧ g.Holds u L) ↔
      u = abbreviate testedAlias 0 t := by
  obtain ⟨fuel, g, hg, hu⟩ := instances_abbreviate (u := []) (v := t) h hL ht.closes
  constructor
  · rintro ⟨fuel', g', hg', hu'⟩
    have hmono := instances_mono (Nat.le_max_left fuel fuel') _ _ _ hg
    have hmono' := instances_mono (Nat.le_max_right fuel fuel') _ _ _ hg'
    obtain rfl := Option.some.inj (hmono.symm.trans hmono')
    exact Option.some.inj (hu'.view.symm.trans hu.view)
  · rintro rfl
    exact ⟨fuel, g, hg, hu⟩

theorem basicString_iff (h : f.Holds t L) (hL : L < npos) (ht : Nested bracket t) :
    (∃ fuel g, instances "std::basic_string<" basicString fuel 0 f = some g ∧
        g.Holds (abbreviate argumentAlias 0 t) L) ↔ Unambiguous 0 t := by
  rw [basicString_abbreviate h hL ht, eq_comm, abbreviate_eq_iff 0 ht.closes]

theorem basicString_iff_wchar :
    ∃ fuel g, instances "std::basic_string<" basicString fuel 0
        (named (ascii "f<std::basic_string<wchar_t, A<wchar_t>>>(std::basic_string<B>)") [0]) =
        some g ∧
      g.Holds (abbreviate argumentAlias 0
        (ascii "f<std::basic_string<wchar_t, A<wchar_t>>>(std::basic_string<B>)")) 63 :=
  (basicString_iff (t := ascii "f<std::basic_string<wchar_t, A<wchar_t>>>(std::basic_string<B>)")
    (holds_start (by decide)) (by decide) (by decide +kernel)).mpr (by decide +kernel)

/-- A string of `char16_t` becomes `std::string`. -/
theorem char16_not_abbreviated :
    Nested bracket (ascii "f(std::basic_string<char16_t>)") ∧
      abbreviate argumentAlias 0 (ascii "f(std::basic_string<char16_t>)") =
        ascii "f(std::u16string)" ∧
      ¬ ∃ fuel g, instances "std::basic_string<" basicString fuel 0
          (named (ascii "f(std::basic_string<char16_t>)") [0]) = some g ∧
        g.Holds (ascii "f(std::u16string)") 30 := by
  have hnested : Nested bracket (ascii "f(std::basic_string<char16_t>)") := by decide +kernel
  refine ⟨hnested, by decide +kernel, ?_⟩
  have hholds : (named (ascii "f(std::basic_string<char16_t>)") [0]).Holds
      (ascii "f(std::basic_string<char16_t>)") 30 := holds_start (by decide)
  rw [basicString_abbreviate hholds (by decide) hnested]
  decide +kernel

end FunctionName

end StackTrace
