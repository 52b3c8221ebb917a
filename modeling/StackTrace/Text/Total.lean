import StackTrace.Base.Fallible
import StackTrace.Text.RoundTrip

/-!
# Which texts can be read?

`StackTrace.cpp`, lines 2167–2273. `generateFromString` trusts the text. On a line with an
`x` it looks at the character before the `x`, converts what the brackets enclose, copies
what stands between the `x` and the first colon into 1000 characters, and expects the first
frame in the first column.

* `generateFromLines_isSome_iff`: the texts that can be read.
* `generateFromLines_print_blanks`: what has been printed behind blanks can not be read.
-/

namespace StackTrace

/-! ## Conditions -/

/-- `p2 - p1` is no negative number as an `int`. -/
def LengthFits (p1 p2 : ℕ) : Prop := 0 ≤ ((p2 : ℤ) - p1).bmod 4294967296

/-- The lengths of the fields behind the colon at `p2` fit into an `int`. -/
def LengthsFit (str : Bytes) (p2 : ℕ) : Prop :=
  let p3 := skipBlanks str (p2 + 1)
  let p4 := (fieldStarts str p2 p3).1
  let p5 := (fieldStarts str p2 p3).2
  p3 = str.length ∨
    LengthFits p3 p4 ∧ LengthFits p4 p5 ∧ LengthFits p5 ((strchr str p5 58).getD str.length)

/-- What stands between the `x` at `p1` and the colon at `p2`, behind which `tmp` is zero. The
    number in it ends inside of `tmp`. -/
def AddressFits (str : Bytes) (p1 p2 : ℕ) : Prop :=
  p2 - p1 - 1 < 1000 ∨
    p2 - p1 - 1 = 1000 ∧ (strtol 16 ((str.drop (p1 + 1)).take (p2 - p1 - 1))).isSome

/-- A frame: an `x` before the first colon, an address and fields that fit. -/
def FrameFits (str : Bytes) : Prop :=
  ∃ p1 p2, strchr str 0 120 = some p1 ∧ strchr str 0 58 = some p2 ∧ p1 ≤ p2 ∧
    AddressFits str p1 p2 ∧ LengthsFit str p2

/-- The line has a frame. -/
def HasX (str : Bytes) : Prop := findChar str 120 ≠ npos

instance (str : Bytes) : Decidable (HasX str) := inferInstanceAs (Decidable (_ ≠ _))

/-- What the brackets before the `x` enclose is an `int`. -/
def NumberFits (str : Bytes) : Prop :=
  let p1 := findChar str 91
  let p2 := findChar str 93
  p1 < p2 → p1 < findChar str 120 → (stoi ((str.drop (p1 + 1)).take (p2 - p1 - 1))).isSome

/-- A line with an `x` has a character before it, with which the frame begins. -/
structure LineReads (str : Bytes) : Prop where
  number : NumberFits str
  x_pos : findChar str 120 ≠ 0
  frame : FrameFits (cstr (str.drop (findChar str 120 - 1)))

/-- Every frame can be read, no column is negative and that of the first frame is zero. -/
structure TextReads (text : List Bytes) : Prop where
  lines : ∀ str ∈ text, HasX str → LineReads str
  nonneg : ∀ str ∈ text, HasX str → 0 ≤ column str
  first : ∀ str ∈ (text.filter fun str => HasX str).head?, column str = 0

/-! ## Fields -/

theorem copyField_isSome_iff {n : ℕ} {str : Bytes} {p1 p2 : ℕ} :
    (copyField n str p1 p2).isSome ↔ LengthFits p1 p2 := by
  unfold copyField LengthFits
  dsimp only
  split_ifs with h
  · simp
    omega
  · simp
    omega

theorem storeFields_isSome_iff {str : Bytes} {p3 p4 p5 : ℕ} {stack : StackInfo} :
    (storeFields str p3 p4 p5 stack).isSome ↔
      LengthFits p3 p4 ∧ LengthFits p4 p5 ∧
        LengthFits p5 ((strchr str p5 58).getD str.length) := by
  rw [← @copyField_isSome_iff 56 str, ← @copyField_isSome_iff 256 str,
    ← @copyField_isSome_iff 64 str]
  refine isSome_bind_iff fun object _ => isSome_bind_iff fun function _ => ?_
  rw [Option.bind_eq_bind, isSome_bind_iff (Q := True) (by simp), and_true]

theorem parseFields_isSome_iff {str : Bytes} {p2 : ℕ} {stack : StackInfo} :
    (parseFields str p2 stack).isSome ↔ LengthsFit str p2 := by
  unfold parseFields LengthsFit
  dsimp only
  split_ifs with h
  · simp [h]
  · rw [or_iff_right h, storeFields_isSome_iff]

/-! ## The address -/

/-- `tmp` with the address, which `strtol` reads. -/
theorem address_isSome_iff {str : Bytes} {p1 p2 : ℕ} (hp2 : p2 ≤ str.length) (h : p1 ≤ p2) :
    ((Buffer.write (List.replicate 1000 0) 0 ((str.drop (p1 + 1)).take (p2 - p1 - 1))).bind
      (strtol 16)).isSome ↔ AddressFits str p1 p2 := by
  have hlength : ((str.drop (p1 + 1)).take (p2 - p1 - 1)).length = p2 - p1 - 1 := by
    simp
    omega
  unfold Buffer.write AddressFits
  rw [hlength, List.length_replicate, Nat.zero_add, List.take_zero, List.nil_append,
    List.drop_replicate]
  obtain hlt | heq | hgt := lt_trichotomy (p2 - p1 - 1) 1000
  · rw [if_pos hlt.le, Option.bind_some]
    refine iff_of_true (strtol_isSome (List.mem_append_right _ ?_)) (.inl hlt)
    exact List.mem_replicate.mpr ⟨by omega, rfl⟩
  · rw [if_pos heq.le, heq, Nat.sub_self, List.replicate_zero, List.append_nil, Option.bind_some]
    exact (or_iff_right (lt_irrefl _)).trans (and_iff_right rfl) |>.symm
  · rw [if_neg (by omega)]
    exact iff_of_false (by simp) (by omega)

theorem parseLine_isSome_iff {str : Bytes} : (parseLine str).isSome ↔ FrameFits str := by
  unfold parseLine FrameFits
  cases hp1 : strchr str 0 120 with
  | none => exact iff_of_false Bool.false_ne_true (by rintro ⟨p1, p2, ⟨⟩, -⟩)
  | some p1 =>
    cases hp2 : strchr str 0 58 with
    | none => exact iff_of_false Bool.false_ne_true (by rintro ⟨p1, p2, -, ⟨⟩, -⟩)
    | some p2 =>
      have hle : p2 ≤ str.length := (strchr_bounds (Nat.zero_le _) hp2).2
      simp only [Option.bind_eq_bind, Option.bind_some, Option.some.injEq, exists_eq_left',
        exists_and_left]
      split_ifs with hlt
      · exact iff_of_false (by simp) (by omega)
      · rw [and_iff_right (by omega), ← address_isSome_iff hle (by omega), ← Option.bind_assoc]
        exact isSome_bind_iff fun value _ => parseFields_isSome_iff

/-! ## Lines -/

theorem numberOf_isSome_iff {str : Bytes} : (numberOf str).isSome ↔ NumberFits str := by
  unfold numberOf NumberFits
  dsimp only
  split_ifs with h
  · exact ⟨fun hsome _ _ => hsome, fun hsome => hsome h.1 h.2⟩
  · exact iff_of_true rfl fun h1 h2 => absurd ⟨h1, h2⟩ h

theorem scanLine_isSome_iff {str : Bytes} :
    (scanLine str).isSome ↔ (HasX str → LineReads str) := by
  by_cases hx : HasX str
  · rw [scanLine_hasX hx, imp_iff_right hx]
    have hframe : ∀ N : ℤ, numberOf str = some N →
        ((if findChar str 120 = 0 then none
          else (parseLine (cstr (str.drop (findChar str 120 - 1)))).bind fun stack =>
            some (some (column str, (⟨N, stack, []⟩ : MultiStackInfo)))).isSome ↔
          findChar str 120 ≠ 0 ∧ FrameFits (cstr (str.drop (findChar str 120 - 1)))) := by
      intro N _
      split_ifs with hzero
      · simp [hzero]
      · rw [and_iff_right hzero, ← parseLine_isSome_iff, isSome_bind_iff (Q := True) (by simp),
          and_true]
    rw [isSome_bind_iff hframe, numberOf_isSome_iff]
    exact ⟨fun ⟨h1, h2, h3⟩ => ⟨h1, h2, h3⟩, fun ⟨h1, h2, h3⟩ => ⟨h1, h2, h3⟩⟩
  · refine iff_of_true ?_ fun h => absurd h hx
    unfold scanLine
    rw [if_pos (not_not.mp hx)]
    rfl

/-- The node of a line has its column. -/
theorem scanLine_column {str : Bytes} {line : Option (ℤ × MultiStackInfo)}
    (h : scanLine str = some line) :
    line.toList.map Prod.fst = if HasX str then [column str] else [] := by
  obtain ⟨hx, rfl⟩ | ⟨hx, N, stack, rfl, -⟩ := scanLine_cases h
  · have hnone : ¬ HasX str := not_not.mpr hx
    rw [if_neg hnone]
    rfl
  · have hsome : HasX str := hx
    rw [if_pos hsome, Option.toList_some, List.map_singleton]

theorem scanLines_isSome_iff {text : List Bytes} :
    (scanLines text).isSome ↔ ∀ str ∈ text, HasX str → LineReads str := by
  induction text with
  | nil => simp [scanLines]
  | cons str text ih =>
    rw [scanLines, List.forall_mem_cons, ← ih, ← scanLine_isSome_iff]
    refine isSome_bind_iff fun line _ => ?_
    rw [Option.bind_eq_bind, isSome_bind_iff (Q := True) (by simp), and_true]

/-- The columns of the nodes. -/
theorem scanLines_columns {text : List Bytes} {lines : List (ℤ × MultiStackInfo)}
    (h : scanLines text = some lines) :
    lines.map Prod.fst = (text.filter fun str => HasX str).map column := by
  induction text generalizing lines with
  | nil =>
    obtain rfl := Option.some.inj h
    rfl
  | cons str text ih =>
    obtain ⟨first, hfirst, h⟩ := Option.bind_eq_some_iff.mp h
    obtain ⟨more, hmore, h⟩ := Option.bind_eq_some_iff.mp h
    obtain rfl := Option.some.inj h
    rw [List.map_append, ih hmore, scanLine_column hfirst]
    by_cases hx : HasX str
    · rw [if_pos hx, List.filter_cons_of_pos (by simpa using hx)]
      rfl
    · rw [if_neg hx, List.filter_cons_of_neg (by simpa using hx)]
      rfl

/-! ## All lines -/

theorem hierarchy_isSome_iff {lines : List (ℤ × MultiStackInfo)} :
    (MultiStackInfo.hierarchy lines).isSome ↔
      (∀ i ∈ lines.map Prod.fst, 0 ≤ i) ∧ ∀ i ∈ (lines.map Prod.fst).head?, i = 0 := by
  rw [List.forall_mem_map, List.head?_map]
  constructor
  · intro h
    obtain ⟨t, ht⟩ := Option.isSome_iff_exists.mp h
    obtain ⟨h', hrun, -⟩ := Option.bind_eq_some_iff.mp ht
    refine ⟨MultiStackInfo.foldlM_addLine_nonneg (by simp) hrun, ?_⟩
    cases lines with
    | nil => simp
    | cons line lines =>
      rw [List.foldlM_cons] at hrun
      obtain ⟨h₁, hline, -⟩ := Option.bind_eq_some_iff.mp hrun
      simpa using MultiStackInfo.addLine_first hline
  · rintro ⟨hnonneg, hhead⟩
    rw [MultiStackInfo.hierarchy_eq lines hnonneg fun l hl =>
      hhead l.1 (Option.mem_map_of_mem Prod.fst hl)]
    rfl

theorem generateFromLines_isSome_iff {text : List Bytes} :
    (generateFromLines text).isSome ↔ TextReads text := by
  have hcolumns : ∀ lines, scanLines text = some lines →
      ((MultiStackInfo.hierarchy lines).isSome ↔
        (∀ str ∈ text, HasX str → 0 ≤ column str) ∧
          ∀ str ∈ (text.filter fun str => HasX str).head?, column str = 0) := by
    intro lines hlines
    rw [hierarchy_isSome_iff, scanLines_columns hlines, List.forall_mem_map, List.head?_map]
    simp only [List.mem_filter, decide_eq_true_eq, and_imp, Option.mem_map, forall_exists_index,
      forall_apply_eq_imp_iff₂]
  rw [generateFromLines, Option.bind_eq_bind, isSome_bind_iff hcolumns, scanLines_isSome_iff]
  exact ⟨fun ⟨h1, h2, h3⟩ => ⟨h1, h2, h3⟩, fun ⟨h1, h2, h3⟩ => ⟨h1, h2, h3⟩⟩

/-- The texts that `generateFromString` can read, as lines and as one string. -/
theorem generateFromString_total_iff (text : List Bytes) (str : Bytes) :
    ((generateFromLines text).isSome ↔ TextReads text) ∧
      ((generateFromString str).isSome ↔ TextReads (breakLines str)) :=
  ⟨generateFromLines_isSome_iff, generateFromLines_isSome_iff⟩

/-! ## Texts that have been printed -/

namespace MultiStackInfo

/-- The frames of a tree that are printed behind blanks do not begin in the first column. -/
theorem generateFromLines_print_blanks {t : MultiStackInfo} (hroot : t.stack.address = 0)
    (ht : ∀ n ∈ preorder t.children, Readable n) (hchildren : t.children ≠ []) {k : ℕ} (hk : 0 < k)
    (hdepth : k + 2 * t.height ≤ 1024) (prefix2 : CharArray 1024) :
    ∃ text, t.print prefix2 (List.replicate k 32) = some text ∧
      generateFromLines text = none := by
  have hblanks : ∀ c ∈ List.replicate k (32 : UInt8), c = 32 ∨ c = 124 :=
    fun c hc => .inl (List.eq_of_mem_replicate hc)
  have hzero : (0 : UInt8) ∉ List.replicate k (32 : UInt8) :=
    fun h => absurd (List.eq_of_mem_replicate h) (by decide)
  have hlines : ∃ text lines,
      renderForest t.widths (List.replicate k 32) false t.children = some text ∧
        (∀ line ∈ text, 10 ∉ line) ∧ scanLines text = some lines ∧
          Listed (List.replicate k (32 : UInt8)).length t.children lines := by
    rw [height_eq] at hdepth
    exact scanLines_renderForest t.widths_bounded t.children ht hblanks (by simpa) false
  obtain ⟨text, lines, htext, -, hscan, hlisted⟩ := hlines
  refine ⟨text, ?_, ?_⟩
  · have hroom : 2 * t.height ≤
        (prefix2.toList.drop (List.replicate k (32 : UInt8)).length).length := by
      rw [List.length_drop, prefix2.length_toList, List.length_replicate]
      omega
    rw [print_eq t prefix2 (by simp; omega)]
    exact (print2_of_root hroot false hzero hroom).trans htext
  · have hfail : ¬ (hierarchy lines).isSome := by
      rw [hierarchy_isSome_iff]
      rintro ⟨-, hfirst⟩
      generalize t.children = cs at hlisted hchildren
      cases hlisted with
      | nil => exact hchildren rfl
      | cons =>
        simp only [List.map_cons, List.head?_cons, Option.mem_some_iff, forall_eq',
          List.length_replicate] at hfirst
        omega
    rw [generateFromLines, hscan]
    exact Option.not_isSome_iff_eq_none.mp hfail

/-- A tree of one frame. -/
def oneFrame : MultiStackInfo :=
  ⟨1, .init, [⟨1, .ofFields 0x401136 0x1136 (ascii "a.out") (ascii "main") [], []⟩]⟩

/-- It is printed behind one blank, and the text can not be read. -/
theorem oneFrame_print_not_read :
    ∃ text, oneFrame.print (.zero 1024) [32] = some text ∧
      ¬ (generateFromLines text).isSome := by
  have hread : ∀ n ∈ preorder oneFrame.children, Readable n := by
    intro n hn
    obtain rfl : n = ⟨1, _, []⟩ := by simpa [oneFrame, preorder, descendants] using hn
    exact ⟨⟨by norm_num, by norm_num⟩, by decide, by decide, by decide, by decide⟩
  obtain ⟨text, htext, hnone⟩ := generateFromLines_print_blanks (t := oneFrame) (k := 1) rfl hread
    (by simp [oneFrame]) (by omega) (by decide) (.zero 1024)
  exact ⟨text, htext, by simp [hnone]⟩

end MultiStackInfo

end StackTrace
