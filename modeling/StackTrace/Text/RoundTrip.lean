import StackTrace.Text.Print
import StackTrace.Text.Parse

/-!
# Printing and reading back

The columns of the brackets and of the `x` in a printed line do not depend on
the texts of the frame, which all stand behind the address. What is read back
is the outline of the tree: the shape below the root and every `N` and address.

* `generateFromString_print`: the round trip, line by line and as one text.
-/

namespace StackTrace

/-! ## The text of a frame -/

namespace StackInfo

/-- The texts that are printed are NUL-terminated. -/
structure TextsEnd (s : StackInfo) : Prop where
  object : s.object.Terminated
  function : s.function.Terminated
  filename : s.filename.Terminated

/-- The texts of the frame are NUL-terminated and have no newline. -/
structure Printable (s : StackInfo) : Prop where
  object : s.object.Terminated ∧ 10 ∉ s.object.str
  function : s.function.Terminated ∧ 10 ∉ s.function.str
  filename : s.filename.Terminated ∧ 10 ∉ s.filename.str

theorem Printable.textsEnd {s : StackInfo} (h : s.Printable) : s.TextsEnd :=
  ⟨h.object.1, h.function.1, h.filename.1⟩

/-- What `print2` writes for the file name and the line. -/
def locationText (s : StackInfo) : Bytes :=
  if s.filename.toList.headD 0 ≠ 0 ∧ s.line > 0 then
    ascii "  " ++ stripPath s.filename.str ++ ascii ":" ++ numeral 10 s.line.toNat
  else if s.filename.toList.headD 0 ≠ 0 then ascii "  " ++ stripPath s.filename.str
  else if s.line > 0 then ascii " : " ++ numeral 10 s.line.toNat
  else []

/-- What it writes behind the colon of the address. -/
def fieldsText (s : StackInfo) (w2 w3 : ℤ) : Bytes :=
  ascii "  " ++ field 32 w2 (stripPath s.object.str) ++ ascii "  " ++
    field 32 w3 s.function.str ++ s.locationText

theorem print2_field {s : StackInfo} (h : s.TextsEnd) (w1 w2 w3 : ℤ) :
    s.print2 w1 w2 w3 = some (48 :: 120 :: (field 48 w1 (numeral 16 s.address.toNat) ++
      58 :: s.fieldsText w2 w3)) := by
  unfold print2 fieldsText locationText
  simp only [CharArray.text_of_terminated h.object, CharArray.text_of_terminated h.function,
    CharArray.text_of_terminated h.filename, Option.bind_eq_bind, Option.bind_some]
  have hx : ascii "0x" = [48, 120] := by decide
  have hcolon : ascii ":  " = 58 :: ascii "  " := by decide
  split_ifs <;> simp [hx, hcolon]

theorem print2_text {s : StackInfo} (h : s.TextsEnd) (w1 w2 w3 : ℕ) :
    s.print2 w1 w2 w3 = some (48 :: 120 :: (padLeft 48 w1 (numeral 16 s.address.toNat) ++
      58 :: s.fieldsText w2 w3)) := by
  rw [print2_field h, field_natCast]

/-- The bytes of the text are blanks, colons, digits and those of the names. -/
theorem forall_mem_fieldsText {P : UInt8 → Prop} {s : StackInfo} (hblank : P 32) (hcolon : P 58)
    (hdigit : ∀ c, isDigit 10 c = true → P c) (hobject : ∀ c ∈ s.object.str, P c)
    (hfunction : ∀ c ∈ s.function.str, P c) (hfilename : ∀ c ∈ s.filename.str, P c) (w2 w3 : ℤ) :
    ∀ c ∈ s.fieldsText w2 w3, P c := by
  have hpad : ∀ (w : ℤ) (t : Bytes), (∀ c ∈ t, P c) → ∀ c ∈ field 32 w t, P c := by
    intro w t ht c hc
    rcases mem_field hc with rfl | rfl | hc
    · exact hblank
    · exact hblank
    · exact ht c hc
  have hblanks : ∀ c ∈ ascii "  ", P c := by simpa [ascii] using hblank
  have hline : ∀ c ∈ numeral 10 s.line.toNat, P c := fun c hc =>
    hdigit c (isDigit_of_mem_numeral (by norm_num) (by norm_num) _ c hc)
  have hfile : ∀ c ∈ stripPath s.filename.str, P c := fun c hc =>
    hfilename c ((stripPath_suffix _).mem hc)
  have hlocation : ∀ c ∈ s.locationText, P c := by
    unfold locationText
    split_ifs
    · simp only [List.forall_mem_append]
      exact ⟨⟨⟨hblanks, hfile⟩, by simpa [ascii] using hcolon⟩, hline⟩
    · exact List.forall_mem_append.mpr ⟨hblanks, hfile⟩
    · exact List.forall_mem_append.mpr ⟨by simpa [ascii] using ⟨hblank, hcolon, hblank⟩, hline⟩
    · simp
  unfold fieldsText
  simp only [List.forall_mem_append]
  exact ⟨⟨⟨⟨hblanks, hpad w2 _ fun c hc => hobject c ((stripPath_suffix _).mem hc)⟩, hblanks⟩,
    hpad w3 _ hfunction⟩, hlocation⟩

theorem notMem_fieldsText {c : UInt8} {s : StackInfo} (hblank : c ≠ 32) (hcolon : c ≠ 58)
    (hdigit : isDigit 10 c = false) (hobject : c ∉ s.object.str) (hfunction : c ∉ s.function.str)
    (hfilename : c ∉ s.filename.str) (w2 w3 : ℤ) : c ∉ s.fieldsText w2 w3 := by
  intro hc
  refine forall_mem_fieldsText (P := fun d => c ≠ d) hblank hcolon ?_ ?_ ?_ ?_ w2 w3 c hc rfl
  · rintro d hd rfl
    simp [hdigit] at hd
  · rintro d hd rfl
    exact hobject hd
  · rintro d hd rfl
    exact hfunction hd
  · rintro d hd rfl
    exact hfilename hd

theorem length_locationText_le {s : StackInfo} (h : s.TextsEnd) : s.locationText.length ≤ 77 := by
  have hfile := (stripPath_suffix s.filename.str).length_le
  have hlen := CharArray.length_str_lt h.filename
  have hline : (numeral 10 s.line.toNat).length ≤ 10 :=
    length_numeral_le (by norm_num) (by norm_num) (by have := s.line.toNat_lt; omega)
  have h2 : (ascii "  ").length = 2 := by decide
  have h1 : (ascii ":").length = 1 := by decide
  have h3 : (ascii " : ").length = 3 := by decide
  unfold locationText
  split_ifs <;> simp only [List.length_append, List.length_nil] <;> omega

theorem length_fieldsText_le {s : StackInfo} (h : s.TextsEnd) (w2 w3 : ℕ) :
    (s.fieldsText w2 w3).length ≤ max w2 56 + max w3 256 + 81 := by
  have hlocation := length_locationText_le h
  have hobject := (stripPath_suffix s.object.str).length_le
  have hobject' := CharArray.length_str_lt h.object
  have hfunction := CharArray.length_str_lt h.function
  have h2 : (ascii "  ").length = 2 := by decide
  unfold fieldsText
  simp only [List.length_append, length_field, Int.natAbs_natCast]
  omega

end StackInfo

namespace MultiStackInfo

/-! ## Widths -/

theorem maxWidth_le {own : StackInfo → ℕ} {n : ℕ} (hown : ∀ s, own s ≤ n) (t : MultiStackInfo) :
    maxWidth own t ≤ n := by
  have hloop : ∀ cs w, w ≤ n → maxWidthLoop own w cs ≤ n := by
    intro cs
    induction cs using forest_induction with
    | nil => exact fun w hw => hw
    | cons x xs ihx ihxs =>
      intro w hw
      obtain ⟨N, stack, children⟩ := x
      rw [maxWidthLoop, maxWidth]
      exact ihxs _ (max_le hw (ihx _ (hown stack)))
  obtain ⟨N, stack, children⟩ := t
  rw [maxWidth]
  exact hloop children _ (hown stack)

theorem getAddressWidth_le (t : MultiStackInfo) : t.getAddressWidth ≤ 16 := by
  refine maxWidth_le (fun s => ?_) t
  unfold StackInfo.getAddressWidth
  simp only []
  split_ifs <;> omega

theorem getObjectWidth_le (t : MultiStackInfo) : t.getObjectWidth ≤ 20 :=
  maxWidth_le (fun _ => min_le_right _ _) t

theorem getFunctionWidth_le (t : MultiStackInfo) : t.getFunctionWidth ≤ 40 :=
  maxWidth_le (fun _ => min_le_right _ _) t

/-! ## One line -/

/-- The widths that `print` and `printString` can have. -/
structure Widths.Bounded (w : Widths) : Prop where
  address : w.address ≤ 16
  object : w.object ≤ 20
  function : w.function ≤ 40

theorem widths_bounded (t : MultiStackInfo) : t.widths.Bounded :=
  ⟨t.getAddressWidth_le, t.getObjectWidth_le, t.getFunctionWidth_le⟩

/-- A node that is read back as it has been printed. -/
structure Readable (t : MultiStackInfo) : Prop where
  isInt : IsInt t.N
  address : 1 ≤ t.stack.address.toNat ∧ t.stack.address.toNat < 2 ^ 63
  texts : t.stack.Printable

theorem length_numeral_address_le (s : StackInfo) : (numeral 16 s.address.toNat).length ≤ 16 :=
  length_numeral_le (by norm_num) (by norm_num) s.address.toNat_lt

/-- The text fits into `line`. -/
theorem printLine_eq {w : Widths} (hw : w.Bounded) {pre : Bytes} (hlen : pre.length ≤ 1024)
    {N : ℤ} (hN : (printInt N).length ≤ 20) {stack : StackInfo} (hstack : stack.TextsEnd) :
    printLine w pre N stack = some (frameLine pre N
      (padLeft 48 w.address (numeral 16 stack.address.toNat) ++
        58 :: stack.fieldsText w.object w.function)) := by
  obtain ⟨hw1, hw2, hw3⟩ := hw
  have haddress := length_numeral_address_le stack
  have hfields := StackInfo.length_fieldsText_le hstack w.object w.function
  have hbracket : ascii "[" = [91] := by decide
  have hbracket' : ascii "] " = [93, 32] := by decide
  unfold printLine
  rw [StackInfo.print2_text hstack]
  simp only [Option.bind_eq_bind, Option.bind_some, hbracket, hbracket']
  rw [if_pos]
  · simp [frameLine]
  · simp only [List.length_append, List.length_cons, List.length_nil, length_padLeft]
    omega

/-- It is read back with its column, its `N` and its address. -/
theorem scanLine_printLine {w : Widths} (hw : w.Bounded) {pre : Bytes}
    (hpre : ∀ c ∈ pre, c = 32 ∨ c = 124) (hlen : pre.length ≤ 1024) {x : MultiStackInfo}
    (hx : Readable x) :
    ∃ line stack, printLine w pre x.N x.stack = some line ∧ 10 ∉ line ∧
      scanLine line = some (some ((pre.length : ℤ), ⟨x.N, stack, []⟩)) ∧
      stack.address = x.stack.address := by
  have hN20 := (length_printInt_le hx.isInt).trans (show 11 ≤ 20 by omega)
  have hprint := printLine_eq hw hlen hN20 hx.texts.textsEnd
  obtain ⟨hw1, hw2, hw3⟩ := hw
  obtain ⟨hN, ⟨-, haddress⟩, htexts⟩ := hx
  have hdigits := length_numeral_address_le x.stack
  have hfields := StackInfo.length_fieldsText_le htexts.textsEnd w.object w.function
  have hfields0 : 0 ∉ x.stack.fieldsText w.object w.function :=
    StackInfo.notMem_fieldsText (by decide) (by decide) (not_isDigit_zero 10)
      x.stack.object.zero_notMem_str x.stack.function.zero_notMem_str
      x.stack.filename.zero_notMem_str _ _
  have hfields10 : 10 ∉ x.stack.fieldsText w.object w.function :=
    StackInfo.notMem_fieldsText (by decide) (by decide) (by decide) htexts.object.2
      htexts.function.2 htexts.filename.2 _ _
  unfold padLeft at hprint
  obtain ⟨stack, hscan, hstack⟩ := scanLine_frameLine hpre hlen hN haddress
    (k := w.address - (numeral 16 x.stack.address.toNat).length) (by omega) hfields0 (by omega)
  refine ⟨_, stack, hprint, ?_, hscan, by rw [hstack]; simp⟩
  have hpre10 : 10 ∉ pre := notMem_of_bars hpre (by decide) (by decide)
  have hN10 : 10 ∉ printInt x.N := notMem_printInt (by decide) (by decide)
  have hdigits10 : 10 ∉ numeral 16 x.stack.address.toNat := fun h =>
    absurd (isDigit_of_mem_numeral (by norm_num) le_rfl _ 10 h) (by decide)
  simp [frameLine, hpre10, hN10, hdigits10, hfields10]

/-! ## All lines -/

/-- The lines stand for the forest in preorder, with the indentation of its roots
    and two more for each level below. -/
inductive Listed : (indent : ℤ) → List MultiStackInfo → List (ℤ × MultiStackInfo) → Prop
  | nil {i : ℤ} : Listed i [] []
  | cons {i : ℤ} {x y : MultiStackInfo} {xs : List MultiStackInfo}
      {sub others : List (ℤ × MultiStackInfo)} (hN : y.N = x.N)
      (haddress : y.stack.address = x.stack.address) (hleaf : y.children = [])
      (hsub : Listed (i + 2) x.children sub) (hothers : Listed i xs others) :
      Listed i (x :: xs) ((i, y) :: (sub ++ others))

/-- The forests have the same shape, and the same `N` and address at every node. -/
inductive SameOutline : List MultiStackInfo → List MultiStackInfo → Prop
  | nil : SameOutline [] []
  | cons {x y : MultiStackInfo} {xs ys : List MultiStackInfo} (hN : x.N = y.N)
      (haddress : x.stack.address = y.stack.address) (hsub : SameOutline x.children y.children)
      (hothers : SameOutline xs ys) : SameOutline (x :: xs) (y :: ys)

theorem Listed.head {i : ℤ} {cs : List MultiStackInfo} {lines : List (ℤ × MultiStackInfo)}
    (h : Listed i cs lines) : ∀ l ∈ lines.head?, l.1 = i := by
  cases h with
  | nil => simp
  | cons => simp

theorem Listed.le {i : ℤ} {cs : List MultiStackInfo} {lines : List (ℤ × MultiStackInfo)}
    (h : Listed i cs lines) : ∀ l ∈ lines, i ≤ l.1 := by
  induction h with
  | nil => simp
  | cons hN haddress hleaf hsub hothers ihsub ihothers =>
    intro l hl
    rcases List.mem_cons.mp hl with rfl | hl
    · exact le_rfl
    · rcases List.mem_append.mp hl with hl | hl
      · have := ihsub l hl
        omega
      · exact ihothers l hl

/-- The lines of a forest build it again. -/
theorem Listed.sameOutline {i : ℤ} {cs : List MultiStackInfo} {lines : List (ℤ × MultiStackInfo)}
    (h : Listed i cs lines) : SameOutline cs (nest lines) := by
  induction h with
  | nil =>
    rw [nest]
    exact .nil
  | @cons i x y xs sub others hN haddress hleaf hsub hothers ihsub ihothers =>
    have hdeep : ∀ l ∈ sub, decide (i < l.1) = true := by
      intro l hl
      have := hsub.le l hl
      simp
      omega
    have htake : others.takeWhile (fun l => decide (i < l.1)) = [] ∧
        others.dropWhile (fun l => decide (i < l.1)) = others := by
      have hhead := hothers.head
      cases others with
      | nil => exact ⟨rfl, rfl⟩
      | cons l others =>
        have : l.1 = i := hhead l rfl
        exact ⟨List.takeWhile_cons_of_neg (by simp [this]),
          List.dropWhile_cons_of_neg (by simp [this])⟩
    rw [nest_cons, List.takeWhile_append_of_pos hdeep, List.dropWhile_append_of_pos hdeep,
      htake.1, htake.2, List.append_nil, hleaf, List.nil_append]
    exact .cons hN.symm haddress.symm ihsub ihothers

/-- What has been printed is read back line by line. -/
theorem scanLines_renderForest {w : Widths} (hw : w.Bounded) (cs : List MultiStackInfo)
    (hcs : ∀ n ∈ preorder cs, Readable n) {pre : Bytes} (hpre : ∀ c ∈ pre, c = 32 ∨ c = 124)
    (hlen : pre.length + 2 * forestHeight cs ≤ 1024) (bar : Bool) :
    ∃ text lines, renderForest w pre bar cs = some text ∧ (∀ line ∈ text, 10 ∉ line) ∧
      scanLines text = some lines ∧ Listed pre.length cs lines := by
  induction cs using forest_induction generalizing pre bar with
  | nil => exact ⟨[], [], rfl, by simp, rfl, .nil⟩
  | cons x xs ihx ihxs =>
    rw [preorder_cons, List.forall_mem_cons, List.forall_mem_append] at hcs
    obtain ⟨hx, hsub, hothers⟩ := hcs
    rw [forestHeight, height_eq] at hlen
    have hpos := hx.address.1
    obtain ⟨line, stack, hline, hline10, hscan, haddress⟩ :=
      scanLine_printLine hw hpre (by omega) hx
    -- the children, behind two more characters
    have hpre' : ∀ d ∈ pre ++ [if !xs.isEmpty && bar then 124 else 32, 32], d = 32 ∨ d = 124 := by
      intro d hd
      rcases List.mem_append.mp hd with hd | hd
      · exact hpre d hd
      · split_ifs at hd <;> simp at hd <;> tauto
    obtain ⟨text1, lines1, htext1, hnew1, hscan1, hlisted1⟩ :=
      ihx hsub hpre' (by simp; omega) true
    obtain ⟨text2, lines2, htext2, hnew2, hscan2, hlisted2⟩ := ihxs hothers hpre (by omega) bar
    have hrender : render w pre (!xs.isEmpty && bar) x = some (line :: text1) := by
      obtain ⟨N, frame, children⟩ := x
      have hne : frame.address ≠ 0 := by
        intro h
        rw [h] at hpos
        exact absurd hpos (by decide)
      rw [render, if_pos hne, hline, htext1]
      rfl
    have hscanx : scanLines (line :: text1) =
        some (((pre.length : ℤ), ⟨x.N, stack, []⟩) :: lines1) := by
      rw [scanLines, hscan, hscan1]
      rfl
    refine ⟨line :: text1 ++ text2, ((pre.length : ℤ), ⟨x.N, stack, []⟩) :: (lines1 ++ lines2),
      ?_, ?_, scanLines_append hscanx hscan2, .cons rfl haddress rfl ?_ hlisted2⟩
    · rw [renderForest, hrender, htext2]
      rfl
    · intro l hl
      rcases List.mem_append.mp hl with hl | hl
      · rcases List.mem_cons.mp hl with rfl | hl
        · exact hline10
        · exact hnew1 l hl
      · exact hnew2 l hl
    · simpa using hlisted1

/-! ## Main result -/

/-- What is printed without a prefix is read back with the same outline below the
    root, from its lines and from the whole text, whatever the array for the
    bars holds before. -/
theorem generateFromString_print {t : MultiStackInfo} (hroot : t.stack.address = 0)
    (ht : ∀ n ∈ preorder t.children, Readable n) (hdepth : 2 * t.height < 1024)
    (prefix2 : CharArray 1024) :
    (∃ text u, t.print prefix2 [] = some text ∧ generateFromLines text = some u ∧
      SameOutline t.children u.children) ∧
    ∃ text u, t.printString prefix2 [] = some text ∧ generateFromString text = some u ∧
      SameOutline t.children u.children := by
  have hlines : ∃ text lines, renderForest t.widths [] false t.children = some text ∧
      (∀ line ∈ text, 10 ∉ line) ∧ scanLines text = some lines ∧ Listed 0 t.children lines := by
    rw [height_eq] at hdepth
    exact scanLines_renderForest t.widths_bounded t.children ht (by simp) (by simp; omega) false
  obtain ⟨text, lines, htext, hnew, hscan, hlisted⟩ := hlines
  have hprint : t.print prefix2 [] = some text := by
    have hroom : 2 * t.height ≤ prefix2.toList.length := by
      rw [prefix2.length_toList]
      omega
    rw [print_eq t prefix2 (by simp)]
    exact (print2_of_root hroot false (by simp) hroom).trans htext
  have hread : hierarchy lines = some { init with children := nest lines } :=
    hierarchy_eq lines hlisted.le hlisted.head
  refine ⟨⟨text, { init with children := nest lines }, hprint, ?_, hlisted.sameOutline⟩,
    text.flatMap fun line => line ++ ascii "\n", { init with children := nest lines }, ?_, ?_,
    hlisted.sameOutline⟩
  · unfold generateFromLines
    rw [hscan]
    exact hread
  · rw [printString_eq, hprint]
    rfl
  · have hlast : scanLines [[]] = some [] := rfl
    unfold generateFromString generateFromLines
    rw [breakLines_flatMap hnew, scanLines_append hscan hlast, List.append_nil]
    exact hread

/-- Two callees of one frame. -/
theorem generateFromString_print_two :
    let main := StackInfo.ofFields 0x401000 0x1000 (ascii "a.out") (ascii "main") (ascii "main.cpp")
    let poll := StackInfo.ofFields 0x7fff12345678 0x2000 (ascii "libc.so.6") (ascii "poll") []
    let t : MultiStackInfo := ⟨3, .init, [⟨3, main, [⟨2, poll, []⟩, ⟨1, main, []⟩]⟩]⟩
    ∃ text u, t.print (.zero 1024) [] = some text ∧ generateFromLines text = some u ∧
      SameOutline t.children u.children := by
  intro main poll t
  have hmain : main.Printable := ⟨by decide, by decide, by decide⟩
  have hpoll : poll.Printable := ⟨by decide, by decide, by decide⟩
  refine (generateFromString_print (t := t) rfl ?_ (by decide) (.zero 1024)).1
  intro n hn
  simp only [t, preorder, descendants, List.append_nil, List.nil_append, List.mem_cons,
    List.not_mem_nil, or_false] at hn
  rcases hn with rfl | rfl | rfl
  · exact ⟨⟨by norm_num, by norm_num⟩, by decide, hmain⟩
  · exact ⟨⟨by norm_num, by norm_num⟩, by decide, hpoll⟩
  · exact ⟨⟨by norm_num, by norm_num⟩, by decide, hmain⟩

end MultiStackInfo

end StackTrace
