import StackTrace.Symbols.Copy
import StackTrace.Text.Parse

/-!
# Do the fields of a line end in a NUL?

`copyField` (`StackTrace.cpp`, lines 2211–2216) copies as many characters as the array
has, and turns blanks at the end into NULs. So the array keeps a NUL unless the text is as
long as the array and has no blank where the NUL belongs. `copy` (lines 244–253) always
ends the text in a NUL.

* `terminated_generateFromLines_iff`: the texts of all frames that are read end in a NUL,
  just if the fields fit.
-/

namespace StackTrace

/-! ## One field -/

/-- The text between the pointers has no character where the NUL belongs, or a blank. -/
def FieldFits (n : ℕ) (str : Bytes) (p1 p2 : ℕ) : Prop :=
  ∀ c ∈ ((str.drop p1).take (((p2 : ℤ) - p1).bmod 4294967296).toNat)[n - 1]?, c = 32

instance (n : ℕ) (str : Bytes) (p1 p2 : ℕ) : Decidable (FieldFits n str p1 p2) :=
  inferInstanceAs (Decidable (∀ c ∈ (_ : Option UInt8), c = 32))

/-- The last loop of `copyField` makes a NUL where the last character is a blank. -/
theorem zero_mem_clearTrailing {d c : UInt8} {field : Bytes}
    (hzero : 0 ∈ d :: field → c = 0) :
    0 ∈ clearTrailing (d :: (field ++ [c])) ↔ c = 32 ∨ c = 0 := by
  unfold clearTrailing
  dsimp only
  by_cases hc : c = 32 ∨ c = 0
  · have hle := (List.rdropWhile_prefix (fun d => decide (d = 32 ∨ d = 0)) field).length_le
    rw [List.rdropWhile_concat_pos _ _ _ (by simpa using hc)]
    refine iff_of_true ?_ hc
    simp only [List.mem_cons, List.mem_append, List.mem_replicate, List.length_append,
      List.length_singleton]
    exact .inr (.inr ⟨by omega, trivial⟩)
  · rw [List.rdropWhile_concat_neg _ _ _ (by simpa using hc), Nat.sub_self, List.replicate_zero,
      List.append_nil]
    refine iff_of_false (fun h => ?_) hc
    rw [← List.cons_append, List.mem_append, List.mem_singleton] at h
    exact hc (.inr (h.elim hzero Eq.symm))

theorem exists_last {l : Bytes} {k : ℕ} (h : l.length = k + 2) :
    ∃ d field c, l = d :: (field ++ [c]) ∧ l[k + 1]? = some c := by
  obtain _ | ⟨d, l⟩ := l
  · simp at h
  · obtain rfl | ⟨field, c, rfl⟩ := List.eq_nil_or_concat l
    · simp at h
    · have hk : k = field.length := by simpa using h.symm
      exact ⟨d, field, c, by simp, by simp [hk]⟩

/-- The array of a text that has no NUL itself. -/
theorem terminated_clearTrailing {n : ℕ} (hn : 2 ≤ n) {txt : Bytes} (htxt : 0 ∉ txt) :
    0 ∈ clearTrailing (CharArray.ofText n txt).toList ↔ ∀ c ∈ txt[n - 1]?, c = 32 := by
  obtain ⟨k, rfl⟩ : ∃ k, n = k + 2 := ⟨n - 2, by omega⟩
  obtain ⟨d, field, c, heq, hlast⟩ := exists_last (CharArray.ofText (k + 2) txt).length_toList
  by_cases hlen : txt.length < k + 2
  -- the NUL behind the text stays
  · have hnone : txt[k + 2 - 1]? = none := List.getElem?_eq_none (by omega)
    have hc : c = 0 := by
      rw [CharArray.ofText_of_lt hlen, List.getElem?_append_right (by omega)] at hlast
      obtain hzero | hmem := List.mem_cons.mp (List.mem_of_getElem? hlast)
      · exact hzero
      · exact List.eq_of_mem_replicate hmem
    have hzero : 0 ∈ clearTrailing (d :: (field ++ [c])) :=
      (zero_mem_clearTrailing fun _ => hc).mpr (.inr hc)
    rw [heq, hnone]
    exact iff_of_true hzero (by simp)
  · have harray : (CharArray.ofText (k + 2) txt).toList = txt.take (k + 2) :=
      List.take_append_of_le_length (by omega)
    have hget : txt[k + 2 - 1]? = some c := by
      rw [← hlast, harray, List.getElem?_take, if_pos (by omega)]
      rfl
    have hmem : 0 ∉ d :: (field ++ [c]) := by
      rw [← heq, harray]
      exact fun h => htxt (List.mem_of_mem_take h)
    have hc : c ≠ 0 := by
      rintro rfl
      exact hmem (by simp)
    have hfield : 0 ∉ d :: field := by
      rw [← List.cons_append, List.mem_append, not_or] at hmem
      exact hmem.1
    rw [heq, hget, zero_mem_clearTrailing fun h => absurd h hfield]
    simp [hc]

theorem terminated_copyField {n : ℕ} (hn : 2 ≤ n) {str : Bytes} (hstr : 0 ∉ str) {p1 p2 : ℕ}
    {field : CharArray n} (h : copyField n str p1 p2 = some field) :
    field.Terminated ↔ FieldFits n str p1 p2 := by
  unfold copyField at h
  dsimp only at h
  split_ifs at h with hneg
  obtain rfl := Option.some.inj h
  have htxt : 0 ∉ (str.drop p1).take (min (((p2 : ℤ) - p1).bmod 4294967296) n).toNat :=
    fun hmem => hstr (List.mem_of_mem_drop (List.mem_of_mem_take hmem))
  refine (terminated_clearTrailing hn htxt).trans ?_
  have hlt : n - 1 < (min (((p2 : ℤ) - p1).bmod 4294967296) n).toNat ↔
      n - 1 < (((p2 : ℤ) - p1).bmod 4294967296).toNat := by omega
  unfold FieldFits
  simp only [List.getElem?_take, hlt]

/-! ## One line -/

/-- The three fields behind the address, whose colon is at `p2`, fit. -/
def FieldsFit (str : Bytes) (p2 : ℕ) : Prop :=
  let p3 := skipBlanks str (p2 + 1)
  let p4 := (fieldStarts str p2 p3).1
  let p5 := (fieldStarts str p2 p3).2
  p3 = str.length ∨ FieldFits 56 str p3 p4 ∧ FieldFits 256 str p4 p5 ∧
    FieldFits 64 str p5 ((strchr str p5 58).getD str.length)

/-- The fields of the line fit, if it has a frame. -/
def LineFits (line : Bytes) : Prop :=
  findChar line 120 ≠ npos →
    ∀ p2 ∈ strchr (cstr (line.drop (findChar line 120 - 1))) 0 58,
      FieldsFit (cstr (line.drop (findChar line 120 - 1))) p2

instance (str : Bytes) (p2 : ℕ) : Decidable (FieldsFit str p2) :=
  inferInstanceAs (Decidable (_ ∨ _))

instance (line : Bytes) : Decidable (LineFits line) :=
  inferInstanceAs (Decidable (_ → ∀ p2 ∈ (_ : Option ℕ), FieldsFit _ p2))

theorem terminated_parseFields {str : Bytes} (hstr : 0 ∉ str) {p2 : ℕ} {stack s : StackInfo}
    (hstack : stack.Terminated) (h : parseFields str p2 stack = some s) :
    s.Terminated ↔ FieldsFit str p2 := by
  unfold parseFields at h
  unfold FieldsFit
  dsimp only at h ⊢
  split_ifs at h with hend
  · obtain rfl := Option.some.inj h
    exact iff_of_true hstack (.inl hend)
  · obtain ⟨object, hobject, h⟩ := Option.bind_eq_some_iff.mp h
    obtain ⟨function, hfunction, h⟩ := Option.bind_eq_some_iff.mp h
    obtain ⟨filename, hfilename, h⟩ := Option.bind_eq_some_iff.mp h
    obtain rfl := Option.some.inj h
    rw [or_iff_right hend, ← terminated_copyField (by omega) hstr hobject,
      ← terminated_copyField (by omega) hstr hfunction,
      ← terminated_copyField (by omega) hstr hfilename]
    constructor
    · intro hs
      exact ⟨hs.object, hs.function, hs.filename⟩
    · rintro ⟨h1, h2, h3⟩
      exact ⟨h1, hstack.objectPath, h3, hstack.filenamePath, h2⟩

theorem terminated_parseLine {str : Bytes} (hstr : 0 ∉ str) {s : StackInfo}
    (h : parseLine str = some s) : s.Terminated ↔ ∀ p2 ∈ strchr str 0 58, FieldsFit str p2 := by
  obtain ⟨p1, -, h⟩ := Option.bind_eq_some_iff.mp h
  obtain ⟨p2, hp2, h⟩ := Option.bind_eq_some_iff.mp h
  dsimp only at h
  split_ifs at h
  obtain ⟨tmp, -, h⟩ := Option.bind_eq_some_iff.mp h
  obtain ⟨⟨value, k⟩, -, h⟩ := Option.bind_eq_some_iff.mp h
  rw [hp2, terminated_parseFields hstr (StackInfo.Terminated.init.withAddresses _ _) h]
  simp

/-- The frame of a line. -/
theorem terminated_scanLine {line : Bytes} {indent : ℤ} {node : MultiStackInfo}
    (h : scanLine line = some (some (indent, node))) : node.stack.Terminated ↔ LineFits line := by
  obtain ⟨-, hnone⟩ | ⟨hx, N, stack, hline, hstack⟩ := scanLine_cases h
  · exact absurd hnone (by simp)
  · obtain ⟨-, rfl⟩ := Prod.ext_iff.mp (Option.some.inj hline)
    unfold LineFits
    rw [imp_iff_right hx]
    exact terminated_parseLine (zero_notMem_cstr _) hstack

/-- A line that does not fit has a frame. -/
theorem exists_frame_of_not_fits {line : Bytes} {r : Option (ℤ × MultiStackInfo)}
    (h : scanLine line = some r) (hfits : ¬ LineFits line) : ∃ l, r = some l := by
  obtain ⟨hx, -⟩ | ⟨-, N, stack, hline, -⟩ := scanLine_cases h
  · exact absurd (fun hne => absurd hx hne) hfits
  · exact ⟨_, hline⟩

/-! ## A tree -/

namespace MultiStackInfo

/-- The frame of every node ends its texts in a NUL. -/
def Terminated (t : MultiStackInfo) : Prop :=
  t.stack.Terminated ∧ FramesIn {s | s.Terminated} t.children

theorem terminated_init : init.Terminated := ⟨.init, framesIn_nil _⟩

end MultiStackInfo

theorem mem_of_scanLines {text : List Bytes} {lines : List (ℤ × MultiStackInfo)}
    (h : scanLines text = some lines) {line : Bytes} (hline : line ∈ text) :
    ∃ r, scanLine line = some r := by
  induction text generalizing lines with
  | nil => simp at hline
  | cons str text ih =>
    obtain ⟨first, hfirst, h⟩ := Option.bind_eq_some_iff.mp h
    obtain ⟨more, hmore, -⟩ := Option.bind_eq_some_iff.mp h
    obtain rfl | hline := List.mem_cons.mp hline
    · exact ⟨first, hfirst⟩
    · exact ih hmore hline

/-- The frames of the tree are those of the lines. -/
theorem terminated_generateFromLines_iff {text : List Bytes} {t : MultiStackInfo}
    (h : generateFromLines text = some t) : t.Terminated ↔ ∀ line ∈ text, LineFits line := by
  obtain ⟨lines, hlines, rfl⟩ := generateFromLines_eq_some h
  have hframes : MultiStackInfo.FramesIn {s | s.Terminated} (MultiStackInfo.nest lines) ↔
      ∀ l ∈ lines, l.2.stack.Terminated := by
    have hmap := MultiStackInfo.stacks_nest (leaf_scanLines hlines)
    have hstacks : MultiStackInfo.FramesIn {s | s.Terminated} (MultiStackInfo.nest lines) ↔
        ∀ s ∈ (MultiStackInfo.preorder (MultiStackInfo.nest lines)).map MultiStackInfo.stack,
          s.Terminated := List.forall_mem_map.symm
    rw [hstacks, hmap, List.forall_mem_map]
  refine (and_iff_right StackInfo.Terminated.init).trans (hframes.trans ?_)
  constructor
  · intro hall line hline
    obtain ⟨r, hr⟩ := mem_of_scanLines hlines hline
    by_contra hfits
    obtain ⟨l, rfl⟩ := exists_frame_of_not_fits hr hfits
    have hl := (mem_scanLines hlines l).mpr ⟨line, hline, hr⟩
    exact hfits ((terminated_scanLine hr).mp (hall l hl))
  · intro hall l hl
    obtain ⟨line, hline, hr⟩ := (mem_scanLines hlines l).mp hl
    exact (terminated_scanLine hr).mpr (hall line hline)

end StackTrace
