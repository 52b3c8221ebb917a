import StackTrace.Base.Numerals
import StackTrace.Text.Hierarchy

/-!
# Reading a tree from text

`StackTrace.cpp`, lines 2167–2273. A line that has an `x` is taken for a frame:
what follows the `x` up to the first colon is its address, what stands between
brackets before it is `N`, and the column of the bracket is the indentation. The
other fields are separated by two blanks or more. A model function fails where
the code would throw, or read or write outside an object.

* `parseFields_address`: reading the fields behind the address does not fail and
  keeps the address.
* `mem_scanLines`, `scanLine_cases`: the nodes are the frames that `parseLine` reads.
-/

namespace StackTrace

/-! ## Searching in a C string -/

/-- `strchr( s + p, c )`, as an offset from `s`. -/
def strchr (s : Bytes) (p : ℕ) (c : UInt8) : Option ℕ := (find [c] (s.drop p)).map (p + ·)

/-- `strstr( s + p, pat )`. -/
def strstr (s : Bytes) (p : ℕ) (pat : Bytes) : Option ℕ := (find pat (s.drop p)).map (p + ·)

/-- `while ( *p == ' ' ) p++`. -/
def skipBlanks (s : Bytes) (p : ℕ) : ℕ := p + ((s.drop p).takeWhile (· = 32)).length

theorem strchr_bounds {s : Bytes} {p k : ℕ} {c : UInt8} (hp : p ≤ s.length)
    (h : strchr s p c = some k) : p ≤ k ∧ k ≤ s.length := by
  obtain ⟨k', hk', rfl⟩ := Option.map_eq_some_iff.mp h
  have hle := find_le hk'
  rw [List.length_drop] at hle
  omega

theorem strstr_bounds {s pat : Bytes} {p k : ℕ} (hp : p ≤ s.length)
    (h : strstr s p pat = some k) : p ≤ k ∧ k ≤ s.length := by
  obtain ⟨k', hk', rfl⟩ := Option.map_eq_some_iff.mp h
  have hle := find_le hk'
  rw [List.length_drop] at hle
  omega

theorem skipBlanks_bounds {s : Bytes} {p : ℕ} (hp : p ≤ s.length) :
    p ≤ skipBlanks s p ∧ skipBlanks s p ≤ s.length := by
  have hle := (List.takeWhile_prefix (fun c : UInt8 => decide (c = 32)) (l := s.drop p)).length_le
  rw [List.length_drop] at hle
  unfold skipBlanks
  omega

/-! ## `parseLine` -/

/-- The last loop of `copyField`: blanks and NULs at the end become NULs, but not
    the first character. -/
def clearTrailing : Bytes → Bytes
  | [] => []
  | c :: field =>
    let kept := field.rdropWhile fun d => d = 32 ∨ d = 0
    c :: (kept ++ List.replicate (field.length - kept.length) 0)

theorem length_clearTrailing (field : Bytes) : (clearTrailing field).length = field.length := by
  cases field with
  | nil => rfl
  | cons c field =>
    have hle := (List.rdropWhile_prefix (fun d => decide (d = 32 ∨ d = 0)) field).length_le
    simp only [clearTrailing, List.length_cons, List.length_append, List.length_replicate]
    omega

/-- `copyField` (lines 2211–2216). The length is converted to `int`; a negative one
    becomes a `size_t` that is out of all bounds. -/
def copyField (n : ℕ) (str : Bytes) (p1 p2 : ℕ) : Option (CharArray n) :=
  let length : ℤ := min (((p2 : ℤ) - p1).bmod 4294967296) n
  if length < 0 then none
  else
    let field : CharArray n := .ofText n ((str.drop p1).take length.toNat)
    some ⟨clearTrailing field.toList, by rw [length_clearTrailing, field.length_toList]⟩

theorem copyField_isSome (n : ℕ) (str : Bytes) {p1 p2 : ℕ} (h : p1 ≤ p2) (h' : p2 < 2 ^ 31) :
    ∃ field, copyField n str p1 p2 = some field := by
  have hmod : ((p2 : ℤ) - p1).bmod 4294967296 = p2 - p1 :=
    Buffer.bmod_of_isInt ⟨by omega, by omega⟩
  unfold copyField
  simp only [hmod]
  rw [if_neg (by omega)]
  exact ⟨_, rfl⟩

/-- `p4` and `p5` (lines 2184–2203), where the function and the file name begin. `p2`
    is the offset of the colon behind the address and `p3` that of the object. -/
def fieldStarts (str : Bytes) (p2 p3 : ℕ) : ℕ × ℕ :=
  let p0 := str.length
  let p4 := (strstr str p3 (ascii "  ")).map (skipBlanks str)
  let p5 := p4.bind fun p4 => (strstr str p4 (ascii "  ")).map (skipBlanks str)
  if p5 = none ∧ p3 - p2 > 20 then (p3, p4.getD p0) else (p4.getD p0, p5.getD p0)

/-- Lines 2204–2223: the fields between the pointers, and the line behind a colon. -/
def storeFields (str : Bytes) (p3 p4 p5 : ℕ) (stack : StackInfo) : Option StackInfo := do
  let p6 := (strchr str p5 58).getD str.length
  let object ← copyField 56 str p3 p4
  let function ← copyField 256 str p4 p5
  let filename ← copyField 64 str p5 p6
  let line :=
    if p6 ≠ str.length then (atoi (str.drop (p6 + 1)) % 4294967296).toNat.toUInt32 else stack.line
  some { stack with object := object, function := function, filename := filename, line := line }

/-- `parseLine` from line 2179 on. -/
def parseFields (str : Bytes) (p2 : ℕ) (stack : StackInfo) : Option StackInfo :=
  let p3 := skipBlanks str (p2 + 1)
  if p3 = str.length then some stack
  else storeFields str p3 (fieldStarts str p2 p3).1 (fieldStarts str p2 p3).2 stack

theorem fieldStarts_bounds {str : Bytes} {p2 p3 : ℕ} (hp3 : p3 ≤ str.length) :
    p3 ≤ (fieldStarts str p2 p3).1 ∧ (fieldStarts str p2 p3).1 ≤ (fieldStarts str p2 p3).2 ∧
      (fieldStarts str p2 p3).2 ≤ str.length := by
  have hnext : ∀ p, p ≤ str.length →
      ∀ q ∈ (strstr str p (ascii "  ")).map (skipBlanks str), p ≤ q ∧ q ≤ str.length := by
    intro p hp q hq
    obtain ⟨k, hk, rfl⟩ := Option.map_eq_some_iff.mp hq
    obtain ⟨h1, h2⟩ := strstr_bounds hp hk
    obtain ⟨h3, h4⟩ := skipBlanks_bounds h2
    omega
  unfold fieldStarts
  simp only []
  cases hp4 : (strstr str p3 (ascii "  ")).map (skipBlanks str) with
  | none =>
    rw [Option.bind_none]
    split_ifs <;> simp [hp3]
  | some p4 =>
    obtain ⟨h1, h2⟩ := hnext p3 hp3 p4 hp4
    rw [Option.bind_some]
    cases hp5 : (strstr str p4 (ascii "  ")).map (skipBlanks str) with
    | none => split_ifs <;> simp [h1, h2]
    | some p5 =>
      obtain ⟨h3, h4⟩ := hnext p4 h2 p5 hp5
      simp [h1, h3, h4]

/-- The pointers never cross, so that no length is negative. -/
theorem parseFields_address {str : Bytes} (hstr : str.length < 2 ^ 31) {p2 : ℕ}
    (hp2 : p2 < str.length) (stack : StackInfo) :
    ∃ s, parseFields str p2 stack = some s ∧ s.address = stack.address := by
  obtain ⟨-, hp3⟩ := skipBlanks_bounds (s := str) (p := p2 + 1) hp2
  unfold parseFields
  simp only []
  generalize skipBlanks str (p2 + 1) = p3 at *
  split_ifs with hend
  · exact ⟨stack, rfl, rfl⟩
  · have hstarts : p3 ≤ (fieldStarts str p2 p3).1 ∧
        (fieldStarts str p2 p3).1 ≤ (fieldStarts str p2 p3).2 ∧
        (fieldStarts str p2 p3).2 ≤ str.length := fieldStarts_bounds hp3
    obtain ⟨h34, h45, h5⟩ := hstarts
    generalize (fieldStarts str p2 p3).1 = p4 at *
    generalize (fieldStarts str p2 p3).2 = p5 at *
    have h6 : p5 ≤ (strchr str p5 58).getD str.length ∧
        (strchr str p5 58).getD str.length ≤ str.length := by
      cases hp6 : strchr str p5 58 with
      | none => exact ⟨h5, le_rfl⟩
      | some p6 => exact strchr_bounds h5 hp6
    obtain ⟨object, hobject⟩ := copyField_isSome 56 str h34 (by omega)
    obtain ⟨function, hfunction⟩ := copyField_isSome 256 str h45 (by omega)
    obtain ⟨filename, hfilename⟩ := copyField_isSome 64 str h6.1 (by omega)
    unfold storeFields
    simp only [hobject, hfunction, hfilename, Option.bind_eq_bind, Option.bind_some]
    exact ⟨_, rfl, rfl⟩

/-- `parseLine` (lines 2167–2224). `tmp` has 1000 characters. -/
def parseLine (str : Bytes) : Option StackInfo := do
  let p1 ← strchr str 0 120
  let p2 ← strchr str 0 58
  if p2 < p1 then none
  else do
    let tmp ← Buffer.write (List.replicate 1000 0) 0 ((str.drop (p1 + 1)).take (p2 - p1 - 1))
    let (value, _) ← strtol 16 tmp
    let address := (value % 18446744073709551616).toNat.toUInt64
    parseFields str p2 { StackInfo.init with address := address, address2 := address }

theorem strchr_zero {c : UInt8} {s : Bytes} (hs : c ∉ s) (rest : Bytes) :
    strchr (s ++ c :: rest) 0 c = some s.length := by
  unfold strchr
  rw [List.drop_zero, find_singleton hs]
  simp

/-- `0x`, the digits of an address with zeros before them, and a colon. -/
theorem parseLine_hex_eq (n : ℕ) {k : ℕ} (hk : k + (numeral 16 n).length < 1000) (rest : Bytes) :
    parseLine (48 :: 120 :: (List.replicate k 48 ++ numeral 16 n ++ 58 :: rest)) =
      parseFields (48 :: 120 :: (List.replicate k 48 ++ numeral 16 n ++ 58 :: rest))
        (k + (numeral 16 n).length + 2)
        { StackInfo.init with
          address := (min n (2 ^ 63 - 1)).toUInt64
          address2 := (min n (2 ^ 63 - 1)).toUInt64 } := by
  set digits := List.replicate k 48 ++ numeral 16 n with hdigits
  have hlen : digits.length = k + (numeral 16 n).length := by simp [hdigits]
  have hcolon : 58 ∉ digits := by
    intro h
    rcases List.mem_append.mp h with h | h
    · exact absurd (List.eq_of_mem_replicate h) (by decide)
    · exact (isDigit_sixteen (isDigit_of_mem_numeral (by norm_num) le_rfl n _ h)).2.2 rfl
  have hp1 : strchr (48 :: 120 :: (digits ++ 58 :: rest)) 0 120 = some 1 :=
    strchr_zero (c := 120) (s := [48]) (by decide) (digits ++ 58 :: rest)
  have hp2 : strchr (48 :: 120 :: (digits ++ 58 :: rest)) 0 58 = some (digits.length + 2) := by
    have h := strchr_zero (c := 58) (s := 48 :: 120 :: digits) (by simp [hcolon]) rest
    simpa using h
  have htake : ((48 :: 120 :: (digits ++ 58 :: rest)).drop (1 + 1)).take
      (digits.length + 2 - 1 - 1) = digits := by
    simp
  have htmp : Buffer.write (List.replicate 1000 0) 0 digits =
      some (digits ++ 0 :: List.replicate (999 - digits.length) 0) := by
    unfold Buffer.write
    rw [if_pos (by rw [List.length_replicate]; omega), List.take_zero, List.nil_append,
      List.drop_replicate, ← List.replicate_succ]
    congr 3
    omega
  have hvalue : strtol 16 (digits ++ 0 :: List.replicate (999 - digits.length) 0) =
      some (((min n (2 ^ 63 - 1) : ℕ) : ℤ), k + (numeral 16 n).length) :=
    strtol_numeral_min (by norm_num) le_rfl n k (not_isDigit_zero 16) (by decide)
  have haddress : (((min n (2 ^ 63 - 1) : ℕ) : ℤ) % 18446744073709551616).toNat =
      min n (2 ^ 63 - 1) := by omega
  unfold parseLine
  simp only [hp1, hp2, Option.bind_eq_bind, Option.bind_some, htake, htmp, hvalue, haddress]
  rw [if_neg (by omega), hlen]

/-- The address is read back. -/
theorem parseLine_hex {n k : ℕ} (hn : n < 2 ^ 63) (hk : k + (numeral 16 n).length < 1000)
    {rest : Bytes} (hrest : rest.length < 2 ^ 30) :
    ∃ s, parseLine (48 :: 120 :: (List.replicate k 48 ++ numeral 16 n ++ 58 :: rest)) = some s ∧
      s.address = n.toUInt64 := by
  rw [parseLine_hex_eq n hk rest, min_eq_left (by omega)]
  exact parseFields_address (by simp; omega) (by simp) _

/-! ## `generateFromString` -/

/-- `std::string::npos`. -/
def npos : ℕ := 18446744073709551615

/-- `str.find( c )`. -/
def findChar (str : Bytes) (c : UInt8) : ℕ := (find [c] str).getD npos

/-- One round of the loop over the lines (lines 2245–2257); `some none` is
    `continue`. -/
def scanLine (str : Bytes) : Option (Option (ℤ × MultiStackInfo)) :=
  let p1 := findChar str 91
  let p2 := findChar str 93
  let p3 := findChar str 120
  if p3 = npos then some none
  else do
    let N ← if p1 < p2 ∧ p1 < p3 then stoi ((str.drop (p1 + 1)).take (p2 - p1 - 1)) else some 1
    -- `str[p3 - 1]`
    if p3 = 0 then none
    else do
      let stack ← parseLine (cstr (str.drop (p3 - 1)))
      some (some (((min p1 (p3 - 1) : ℕ) : ℤ).bmod 4294967296, ⟨N, stack, []⟩))

theorem findChar_eq {c : UInt8} {s : Bytes} (hs : c ∉ s) (rest : Bytes) :
    findChar (s ++ c :: rest) c = s.length := by
  unfold findChar
  rw [find_singleton hs]
  rfl

/-- A line of `print2`: bars and blanks, the number in brackets, and from the `x` of
    the address on `frame`. -/
def frameLine (pre : Bytes) (N : ℤ) (frame : Bytes) : Bytes :=
  pre ++ 91 :: (printInt N ++ 93 :: 32 :: 48 :: 120 :: frame)

theorem notMem_printInt {N : ℤ} {c : UInt8} (hminus : c ≠ 45) (hdigit : isDigit 10 c = false) :
    c ∉ printInt N := by
  intro hc
  rcases mem_printInt hc with h | h
  · exact hminus h
  · simp [hdigit] at h

section frameLine

variable {pre : Bytes} (hpre : ∀ c ∈ pre, c = 32 ∨ c = 124) (N : ℤ) (frame : Bytes)

include hpre

theorem notMem_of_bars {c : UInt8} (hblank : c ≠ 32) (hbar : c ≠ 124) : c ∉ pre :=
  fun hc => (hpre c hc).elim hblank hbar

theorem findChar_open : findChar (frameLine pre N frame) 91 = pre.length :=
  findChar_eq (notMem_of_bars hpre (by decide) (by decide)) _

theorem findChar_close :
    findChar (frameLine pre N frame) 93 = pre.length + (printInt N).length + 1 := by
  have h1 := notMem_of_bars hpre (c := 93) (by decide) (by decide)
  have h2 : 93 ∉ printInt N := notMem_printInt (by decide) (by decide)
  have h : findChar ((pre ++ 91 :: printInt N) ++ 93 :: 32 :: 48 :: 120 :: frame) 93 =
      (pre ++ 91 :: printInt N).length := findChar_eq (by simp [h1, h2]) _
  unfold frameLine
  simpa [Nat.add_assoc] using h

theorem findChar_x :
    findChar (frameLine pre N frame) 120 = pre.length + (printInt N).length + 4 := by
  have h1 := notMem_of_bars hpre (c := 120) (by decide) (by decide)
  have h2 : 120 ∉ printInt N := notMem_printInt (by decide) (by decide)
  have h : findChar ((pre ++ 91 :: (printInt N ++ [93, 32, 48])) ++ 120 :: frame) 120 =
      (pre ++ 91 :: (printInt N ++ [93, 32, 48])).length := findChar_eq (by simp [h1, h2]) _
  unfold frameLine
  simpa [Nat.add_assoc] using h

omit hpre

theorem take_drop_frameLine : ((frameLine pre N frame).drop (pre.length + 1)).take
    (pre.length + (printInt N).length + 1 - pre.length - 1) = printInt N := by
  have h : pre.length + (printInt N).length + 1 - pre.length - 1 = (printInt N).length := by omega
  unfold frameLine
  rw [h, ← List.drop_drop, List.drop_left, List.drop_succ_cons, List.drop_zero, List.take_left]

theorem drop_frameLine :
    (frameLine pre N frame).drop (pre.length + (printInt N).length + 4 - 1) =
      48 :: 120 :: frame := by
  have h : pre.length + (printInt N).length + 4 - 1 =
      (pre ++ 91 :: (printInt N ++ [93, 32])).length := by simp; omega
  have happ : frameLine pre N frame =
      (pre ++ 91 :: (printInt N ++ [93, 32])) ++ 48 :: 120 :: frame := by simp [frameLine]
  rw [h, happ, List.drop_left]

end frameLine

/-- A frame line with an address is read with its column, its `N` and its address. -/
theorem scanLine_frameLine {pre rest : Bytes} {N : ℤ} {n k : ℕ}
    (hpre : ∀ c ∈ pre, c = 32 ∨ c = 124) (hlen : pre.length ≤ 1024) (hN : IsInt N)
    (hn : n < 2 ^ 63) (hk : k + (numeral 16 n).length < 1000) (hrest0 : 0 ∉ rest)
    (hrest : rest.length < 2 ^ 30) :
    ∃ s, scanLine (frameLine pre N (List.replicate k 48 ++ numeral 16 n ++ 58 :: rest)) =
      some (some ((pre.length : ℤ), ⟨N, s, []⟩)) ∧ s.address = n.toUInt64 := by
  obtain ⟨s, hs, haddress⟩ := parseLine_hex hn hk hrest
  have hNlen := length_printInt_le hN
  have hzeros : 0 ∉ List.replicate k (48 : UInt8) := fun h =>
    absurd (List.eq_of_mem_replicate h) (by decide)
  have hdigits : 0 ∉ numeral 16 n := by
    intro h
    have hdigit := isDigit_of_mem_numeral (by norm_num) le_rfl n 0 h
    rw [not_isDigit_zero] at hdigit
    exact absurd hdigit (by simp)
  have hframe0 : 0 ∉ 48 :: 120 :: (List.replicate k 48 ++ numeral 16 n ++ 58 :: rest) := by
    simp [hzeros, hdigits, hrest0]
  refine ⟨s, ?_, haddress⟩
  generalize List.replicate k 48 ++ numeral 16 n ++ 58 :: rest = frame at *
  have hindent : ((min pre.length (pre.length + (printInt N).length + 4 - 1) : ℕ) : ℤ).bmod
      4294967296 = pre.length := by
    rw [min_eq_left (by omega)]
    exact Buffer.bmod_of_isInt ⟨by omega, by omega⟩
  unfold scanLine
  simp only [findChar_open hpre, findChar_close hpre, findChar_x hpre, take_drop_frameLine,
    drop_frameLine, cstr_eq_self hframe0, hs, hindent, stoi_printInt hN]
  rw [if_neg (by unfold npos; omega), if_pos (by omega)]
  rfl

/-- The column of a frame (line 2256). -/
def column (str : Bytes) : ℤ :=
  ((min (findChar str 91) (findChar str 120 - 1) : ℕ) : ℤ).bmod 4294967296

/-- The number in the brackets (lines 2251–2252). -/
def numberOf (str : Bytes) : Option ℤ :=
  let p1 := findChar str 91
  let p2 := findChar str 93
  if p1 < p2 ∧ p1 < findChar str 120 then stoi ((str.drop (p1 + 1)).take (p2 - p1 - 1)) else some 1

/-- A line with an `x`, step by step. -/
theorem scanLine_hasX {str : Bytes} (hx : findChar str 120 ≠ npos) :
    scanLine str = (numberOf str).bind fun N =>
      if findChar str 120 = 0 then none
      else (parseLine (cstr (str.drop (findChar str 120 - 1)))).bind fun stack =>
        some (some (column str, ⟨N, stack, []⟩)) := by
  unfold scanLine numberOf
  rw [if_neg hx]
  dsimp only
  split_ifs <;> rfl

/-- What comes of a line: nothing without an `x`, and else a node without children in
    the frame that `parseLine` reads. -/
theorem scanLine_cases {str : Bytes} {line : Option (ℤ × MultiStackInfo)}
    (h : scanLine str = some line) :
    (findChar str 120 = npos ∧ line = none) ∨
      (findChar str 120 ≠ npos ∧ ∃ N stack, line = some (column str, ⟨N, stack, []⟩) ∧
        parseLine (cstr (str.drop (findChar str 120 - 1))) = some stack) := by
  by_cases hx : findChar str 120 = npos
  · unfold scanLine at h
    rw [if_pos hx] at h
    exact .inl ⟨hx, (Option.some.inj h).symm⟩
  · rw [scanLine_hasX hx] at h
    obtain ⟨N, -, h⟩ := Option.bind_eq_some_iff.mp h
    split_ifs at h
    obtain ⟨stack, hstack, h⟩ := Option.bind_eq_some_iff.mp h
    exact .inr ⟨hx, N, stack, (Option.some.inj h).symm, hstack⟩

theorem scanLine_eq_none {str : Bytes} {line : Option (ℤ × MultiStackInfo)}
    (h : scanLine str = some line) : line = none ↔ findChar str 120 = npos := by
  obtain ⟨hx, rfl⟩ | ⟨hx, N, stack, rfl, -⟩ := scanLine_cases h
  · exact iff_of_true rfl hx
  · exact iff_of_false (by simp) hx

/-- The loop over the lines (lines 2242–2257): `indent` and `stack`. -/
def scanLines : List Bytes → Option (List (ℤ × MultiStackInfo))
  | [] => some []
  | str :: text => do
    let line ← scanLine str
    let lines ← scanLines text
    some (line.toList ++ lines)

theorem scanLines_append {text text' : List Bytes} {lines lines' : List (ℤ × MultiStackInfo)}
    (h : scanLines text = some lines) (h' : scanLines text' = some lines') :
    scanLines (text ++ text') = some (lines ++ lines') := by
  induction text generalizing lines with
  | nil =>
    obtain rfl := Option.some.inj h
    exact h'
  | cons str text ih =>
    obtain ⟨line, hline, h⟩ := Option.bind_eq_some_iff.mp h
    obtain ⟨more, hmore, h⟩ := Option.bind_eq_some_iff.mp h
    obtain rfl := Option.some.inj h
    rw [List.cons_append, scanLines, hline, ih hmore, List.append_assoc]
    rfl

/-- The nodes are those of the lines. -/
theorem mem_scanLines {text : List Bytes} {lines : List (ℤ × MultiStackInfo)}
    (h : scanLines text = some lines) (line : ℤ × MultiStackInfo) :
    line ∈ lines ↔ ∃ str ∈ text, scanLine str = some (some line) := by
  induction text generalizing lines with
  | nil =>
    obtain rfl := Option.some.inj h
    simp
  | cons str text ih =>
    obtain ⟨first, hfirst, h⟩ := Option.bind_eq_some_iff.mp h
    obtain ⟨more, hmore, h⟩ := Option.bind_eq_some_iff.mp h
    obtain rfl := Option.some.inj h
    simp [ih hmore, hfirst]

/-- What is read of one line has no children. -/
theorem leaf_scanLines {text : List Bytes} {lines : List (ℤ × MultiStackInfo)}
    (h : scanLines text = some lines) : ∀ l ∈ lines, l.2.children = [] := by
  intro l hl
  obtain ⟨str, -, hstr⟩ := (mem_scanLines h l).mp hl
  obtain ⟨-, hnone⟩ | ⟨-, N, stack, heq, -⟩ := scanLine_cases hstr
  · cases hnone
  · rw [Option.some.inj heq]

/-- No node comes of a text without an `x`. -/
theorem scanLines_eq_nil {text : List Bytes} {lines : List (ℤ × MultiStackInfo)}
    (h : scanLines text = some lines) : lines = [] ↔ ∀ str ∈ text, findChar str 120 = npos := by
  induction text generalizing lines with
  | nil =>
    obtain rfl := Option.some.inj h
    simp
  | cons str text ih =>
    obtain ⟨first, hfirst, h⟩ := Option.bind_eq_some_iff.mp h
    obtain ⟨more, hmore, h⟩ := Option.bind_eq_some_iff.mp h
    obtain rfl := Option.some.inj h
    simp [← ih hmore, ← scanLine_eq_none hfirst]

/-- `generateFromString( const std::vector<std::string> & )` (lines 2240–2273). -/
def generateFromLines (text : List Bytes) : Option MultiStackInfo := do
  let lines ← scanLines text
  MultiStackInfo.hierarchy lines

theorem generateFromLines_eq_some {text : List Bytes} {t : MultiStackInfo}
    (h : generateFromLines text = some t) : ∃ lines, scanLines text = some lines ∧
      t = { MultiStackInfo.init with children := MultiStackInfo.nest lines } := by
  obtain ⟨lines, hlines, h⟩ := Option.bind_eq_some_iff.mp h
  exact ⟨lines, hlines, MultiStackInfo.hierarchy_eq_some h⟩

/-- The text between the newlines (lines 2228–2236). -/
def breakLines (str : Bytes) : List Bytes :=
  match h : find (ascii "\n") str with
  | none => [str]
  | some p2 => str.take p2 :: breakLines (str.drop (p2 + 1))
  termination_by str.length
  decreasing_by
    have hlt := find_le h
    rw [List.length_drop]
    simp [ascii] at hlt
    omega

theorem breakLines_cons {line : Bytes} (h : 10 ∉ line) (rest : Bytes) :
    breakLines (line ++ 10 :: rest) = line :: breakLines rest := by
  have hfind : find (ascii "\n") (line ++ 10 :: rest) = some line.length := find_singleton h rest
  rw [breakLines]
  split
  · rename_i hnone
    rw [hfind] at hnone
    exact absurd hnone (by simp)
  · rename_i p2 hp2
    rw [hfind] at hp2
    obtain rfl := Option.some.inj hp2
    rw [List.take_left, ← List.drop_drop, List.drop_left, List.drop_succ_cons, List.drop_zero]

/-- Each line is followed by a newline, so that the last line is empty. -/
theorem breakLines_flatMap {text : List Bytes} (h : ∀ line ∈ text, 10 ∉ line) :
    breakLines (text.flatMap fun line => line ++ ascii "\n") = text ++ [[]] := by
  induction text with
  | nil =>
    rw [List.flatMap_nil, breakLines]
    rfl
  | cons line text ih =>
    have hnewline : ascii "\n" = [10] := by decide
    rw [List.flatMap_cons, hnewline, List.append_assoc, List.singleton_append,
      breakLines_cons (h line (by simp)), ← hnewline, ih fun l hl => h l (by simp [hl])]
    rfl

/-- `generateFromString( const std::string & )` (lines 2225–2239). -/
def generateFromString (str : Bytes) : Option MultiStackInfo := generateFromLines (breakLines str)

end StackTrace
