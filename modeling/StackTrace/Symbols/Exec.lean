import StackTrace.Base.Lines
import StackTrace.StaticVector
import StackTrace.Symbols.Copy

/-!
# `exec2`: the output of a command

`Utilities.hpp`, lines 18–44, and `StackTrace.cpp`, lines 290–307. The output is read
with `fgets` into 8192 characters and handed to a function, piece by piece; the second
`exec2` puts each piece into a row of 512 characters. The rows lie one behind the other
in memory, and the memory behind the last row is zero.

* `exec2_lines`: lines of at most 8190 characters come as they are.
* `exec2_eq_lines_iff`: the pieces are the lines of the output if and only if no line has
  more than 8191 characters, its newline included.
* `row_short`: a line of at most 511 characters has its NUL in its row.
-/

namespace StackTrace

/-! ## Model -/

/-- The calls of `fgets( buffer, 0x2000, pipe )` until the end of the output: `room` is
    what `buffer` can still take before its NUL. -/
def fgetsLoop : (room : ℕ) → (buffer : Bytes) → (output : Bytes) → List Bytes
  | _, buffer, [] => if buffer = [] then [] else [buffer]
  | room, buffer, c :: output =>
    if c = 10 ∨ room = 1 then (buffer ++ [c]) :: fgetsLoop 8191 [] output
    else fgetsLoop (room - 1) (buffer ++ [c]) output

/-- `exec2( cmd, fun )`: the C strings that `fun` is called with, for a command that
    writes `output`. A buffer that begins with a NUL is passed over. -/
def exec2 (output : Bytes) : List Bytes :=
  ((fgetsLoop 8191 [] output).map cstr).filter fun line => !line.isEmpty

/-- The row that the lambda of the second `exec2` makes of a line (lines 297–303). -/
def row (line : Bytes) : CharArray 512 :=
  let N := min line.length 512
  let out : CharArray 512 := .ofText 512 (line.take N)
  if out.toList[N - 1]? = some 10 then
    ⟨out.toList.set (N - 1) 0, by rw [List.length_set, out.length_toList]⟩
  else out

instance (n : ℕ) : Inhabited (CharArray n) := ⟨.zero n⟩

/-- `exec2( cmd, out )`: a line that finds `out` full is dropped. -/
def exec2Rows (blockSize : ℕ) (output : Bytes) : StaticVector (CharArray 512) blockSize :=
  (exec2 output).foldl (fun out line => out.push_back (row line)) .init

/-- The characters of all rows, also of those behind `size()`. -/
def rowMemory {blockSize : ℕ} (out : StaticVector (CharArray 512) blockSize) : Bytes :=
  out.d_data.toList.flatMap CharArray.toList

/-! ## Lines -/

theorem fgetsLoop_line {line : Bytes} (hline : 10 ∉ line) {room : ℕ} (hroom : line.length < room)
    (buffer output : Bytes) :
    fgetsLoop room buffer (line ++ 10 :: output) =
      (buffer ++ line ++ [10]) :: fgetsLoop 8191 [] output := by
  induction line generalizing room buffer with
  | nil => simp [fgetsLoop]
  | cons c line ih =>
    rw [List.length_cons] at hroom
    have hc : ¬ (c = 10 ∨ room = 1) := by
      rintro (rfl | rfl)
      · exact hline (by simp)
      · omega
    rw [List.cons_append, fgetsLoop, if_neg hc, ih (fun h => hline (by simp [h])) (by omega)]
    simp

/-- A line as `addr2line` prints it: it has neither a newline nor a NUL, and a buffer can
    take it. -/
structure IsLine (line : Bytes) : Prop where
  newline : 10 ∉ line
  nul : 0 ∉ line
  length_le : line.length ≤ 8190

theorem fgetsLoop_lines {lines : List Bytes} (h : ∀ line ∈ lines, IsLine line) :
    fgetsLoop 8191 [] (lines.flatMap fun line => line ++ [10]) =
      lines.map fun line => line ++ [10] := by
  induction lines with
  | nil => rfl
  | cons line lines ih =>
    have hline := h line (by simp)
    have hlen := hline.length_le
    rw [List.flatMap_cons, List.append_assoc, List.singleton_append,
      fgetsLoop_line hline.newline (by omega), ih fun l hl => h l (by simp [hl])]
    rfl

theorem exec2_lines {lines : List Bytes} (h : ∀ line ∈ lines, IsLine line) :
    exec2 (lines.flatMap fun line => line ++ [10]) = lines.map fun line => line ++ [10] := by
  have hcstr : ∀ line ∈ lines, (cstr ∘ fun line => line ++ [10]) line = line ++ [10] := by
    intro line hline
    exact cstr_eq_self (by simp [(h line hline).nul])
  unfold exec2
  rw [fgetsLoop_lines h, List.map_map, List.map_congr_left hcstr, List.filter_eq_self]
  simp

/-! ## Lines of any length -/

/-- The last line, which has no newline. -/
theorem fgetsLoop_last {line : Bytes} (hline : 10 ∉ line) {room : ℕ}
    (hroom : line.length ≤ room) (buffer : Bytes) :
    fgetsLoop room buffer line = if buffer ++ line = [] then [] else [buffer ++ line] := by
  induction line generalizing room buffer with
  | nil => rw [fgetsLoop, List.append_nil]
  | cons c line ih =>
    obtain ⟨hc, hline⟩ := List.ne_and_not_mem_of_not_mem_cons hline
    rw [List.length_cons] at hroom
    rw [fgetsLoop]
    split_ifs with hend hnil
    · simp at hnil
    · -- the buffer is full with the last character
      obtain rfl := hend.resolve_left (Ne.symm hc)
      obtain rfl : line = [] := List.eq_nil_of_length_eq_zero (by omega)
      rfl
    · simp at *
    · rw [ih hline (by omega), if_neg (by simp), List.append_assoc, List.singleton_append]

/-- No piece is longer than the buffer without its NUL. -/
theorem length_fgetsLoop_le {room : ℕ} {buffer : Bytes} (hroom : 0 < room)
    (hbuffer : buffer.length + room = 8191) (output : Bytes) :
    ∀ piece ∈ fgetsLoop room buffer output, piece.length ≤ 8191 := by
  induction output generalizing room buffer with
  | nil =>
    intro piece hpiece
    rw [fgetsLoop] at hpiece
    split_ifs at hpiece
    · simp at hpiece
    · rw [List.mem_singleton.mp hpiece]
      omega
  | cons c output ih =>
    rw [fgetsLoop]
    split_ifs with hend
    · refine List.forall_mem_cons.mpr ⟨?_, ih (by omega) rfl⟩
      rw [List.length_append, List.length_singleton]
      omega
    · refine ih (by omega) ?_
      rw [List.length_append, List.length_singleton]
      omega

theorem length_exec2_le (output : Bytes) : ∀ piece ∈ exec2 output, piece.length ≤ 8191 := by
  intro piece hpiece
  obtain ⟨full, hfull, rfl⟩ := List.mem_map.mp (List.mem_filter.mp hpiece).1
  have hle : (cstr full).length ≤ full.length := (List.takeWhile_prefix _).length_le
  exact hle.trans (length_fgetsLoop_le (by omega) rfl output full hfull)

theorem fgetsLoop_eq_lines {output : Bytes}
    (hshort : ∀ line ∈ splitAfter 10 output, line.length ≤ 8191) :
    fgetsLoop 8191 [] output = splitAfter 10 output := by
  induction output using lines_induction (10 : UInt8) with
  | nil => rfl
  | last line hne hline =>
    rw [splitAfter_last hne hline] at hshort ⊢
    rw [fgetsLoop_last hline (hshort line List.mem_cons_self), List.nil_append, if_neg hne]
  | line line rest hline ih =>
    rw [splitAfter_line hline] at hshort ⊢
    obtain ⟨hlength, hrest⟩ := List.forall_mem_cons.mp hshort
    rw [List.length_append, List.length_singleton] at hlength
    rw [fgetsLoop_line hline (by omega), ih hrest]
    rfl

/-- `fun` is called with the lines of the output, one after the other, if and only if they
    all fit into the buffer. -/
theorem exec2_eq_lines_iff (output : Bytes) (hnul : 0 ∉ output) :
    exec2 output = splitAfter 10 output ↔
      ∀ line ∈ splitAfter 10 output, line.length ≤ 8191 := by
  constructor
  · intro h line hline
    rw [← h] at hline
    exact length_exec2_le output line hline
  · intro hshort
    have hlines : ∀ line ∈ splitAfter 10 output, cstr line = line ∧ line ≠ [] := by
      intro line hline
      obtain ⟨hne, hsub⟩ := mem_splitAfter hline
      exact ⟨cstr_eq_self fun h0 => hnul (hsub.subset h0), hne⟩
    unfold exec2
    rw [fgetsLoop_eq_lines hshort, List.map_congr_left fun line hline => (hlines line hline).1,
      List.map_id', List.filter_eq_self]
    intro line hline
    simpa using (hlines line hline).2

theorem exec2_eq_lines_iff_two :
    exec2 (ascii "main\na.c:1") = splitAfter 10 (ascii "main\na.c:1") ↔
      ∀ line ∈ splitAfter 10 (ascii "main\na.c:1"), line.length ≤ 8191 :=
  exec2_eq_lines_iff (ascii "main\na.c:1") (by decide)

/-- A line of 8192 characters comes in two pieces. -/
theorem exec2_long_line :
    0 ∉ List.replicate 8192 (97 : UInt8) ∧
      exec2 (List.replicate 8192 97) ≠ splitAfter 10 (List.replicate 8192 97) := by
  refine ⟨fun h => absurd (List.eq_of_mem_replicate h) (by decide), fun h => ?_⟩
  have hline : (10 : UInt8) ∉ List.replicate 8192 (97 : UInt8) :=
    fun h => absurd (List.eq_of_mem_replicate h) (by decide)
  have hne : List.replicate 8192 (97 : UInt8) ≠ [] :=
    List.ne_nil_of_length_pos (by rw [List.length_replicate]; omega)
  rw [splitAfter_last hne hline] at h
  have hle := length_exec2_le _ _ (h ▸ List.mem_singleton_self _)
  rw [List.length_replicate] at hle
  omega

/-! ## The pieces together -/

/-- `fgets` leaves nothing out. -/
theorem flatten_fgetsLoop (room : ℕ) (buffer output : Bytes) :
    (fgetsLoop room buffer output).flatten = buffer ++ output := by
  induction output generalizing room buffer with
  | nil =>
    rw [fgetsLoop]
    split_ifs with hbuffer
    · rw [hbuffer]
      rfl
    · simp
  | cons c output ih =>
    rw [fgetsLoop]
    split_ifs
    · rw [List.flatten_cons, ih]
      simp
    · rw [ih]
      simp

theorem flatten_exec2 (output : Bytes) :
    (exec2 output).flatten = (fgetsLoop 8191 [] output).flatMap cstr := by
  unfold exec2
  rw [List.flatten_filter_not_isEmpty, List.flatMap_def]

/-! ## Rows -/

/-- A line that leaves room for its newline is in its row, with NULs behind it. -/
theorem row_short {line : Bytes} (h : line.length ≤ 511) :
    (row (line ++ [10])).toList = line ++ List.replicate (512 - line.length) 0 := by
  have hmin : min (line ++ [10]).length 512 = line.length + 1 := by simp; omega
  have htake : (line ++ [10]).take (line.length + 1) = line ++ [10] :=
    List.take_of_length_le (by simp)
  have hout : (CharArray.ofText 512 (line ++ [10])).toList =
      line ++ 10 :: List.replicate (511 - line.length) 0 := by
    show (line ++ [10] ++ List.replicate 512 0).take 512 = _
    rw [List.append_assoc, List.take_append, List.take_of_length_le (by omega),
      List.singleton_append]
    obtain ⟨k, hk⟩ : ∃ k, 512 - line.length = k + 1 := ⟨511 - line.length, by omega⟩
    rw [hk, List.take_succ_cons, List.take_replicate]
    congr 3
    omega
  unfold row
  simp only [hmin, htake, Nat.add_sub_cancel]
  rw [if_pos (by rw [hout]; simp)]
  show (CharArray.ofText 512 (line ++ [10])).toList.set line.length 0 = _
  rw [hout, List.set_append_right _ _ le_rfl, Nat.sub_self, List.set_cons_zero,
    ← List.replicate_succ]
  congr 2
  omega

/-- A longer line is cut, and its row has no NUL. -/
theorem row_long {line : Bytes} (h : 512 ≤ line.length) (hline : 10 ∉ line) :
    (row (line ++ [10])).toList = line.take 512 := by
  have hmin : min (line ++ [10]).length 512 = 512 := by simp; omega
  have hout : (CharArray.ofText 512 ((line ++ [10]).take 512)).toList = line.take 512 := by
    have htake : (line ++ [10]).take 512 = line.take 512 := List.take_append_of_le_length h
    have hlen : (line.take 512).length = 512 := by simp; omega
    show ((line ++ [10]).take 512 ++ List.replicate 512 0).take 512 = _
    rw [htake, List.take_append_of_le_length hlen.ge, List.take_of_length_le hlen.le]
  unfold row
  simp only [hmin]
  rw [if_neg, hout]
  rw [hout]
  intro hlast
  exact hline (List.mem_of_mem_take (List.mem_of_getElem? hlast))

/-- What a line begins with can be seen in its row. -/
theorem prefix_row {pat line : Bytes} (hpat : pat.length ≤ 512) (hpat0 : 0 ∉ pat)
    (hline : 10 ∉ line) : pat <+: (row (line ++ [10])).toList ↔ pat <+: line := by
  by_cases h : line.length ≤ 511
  · rw [row_short h]
    refine ⟨fun hpre => ?_, List.prefix_append_of_prefix⟩
    obtain hle | hle := le_total pat.length line.length
    · exact List.prefix_of_prefix_length_le hpre (List.prefix_append _ _) hle
    -- what goes beyond the line would be NULs
    · obtain ⟨rest, rfl⟩ := List.prefix_of_prefix_length_le (List.prefix_append _ _) hpre hle
      rw [List.prefix_append_right_inj] at hpre
      obtain _ | ⟨c, rest⟩ := rest
      · simp
      · have hc : c ∈ List.replicate (512 - line.length) (0 : UInt8) := hpre.subset (by simp)
        obtain rfl := List.eq_of_mem_replicate hc
        exact absurd (by simp) hpat0
  · rw [row_long (by omega) hline]
    constructor
    · exact fun hpre => hpre.trans (List.take_prefix 512 line)
    · exact fun hpre => List.prefix_of_prefix_length_le hpre (List.take_prefix 512 line)
        (by simp; omega)

end StackTrace
