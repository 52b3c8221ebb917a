import StackTrace.Symbols.Command
import StackTrace.Symbols.Search

/-!
# The symbols that `nm` lists

`getSymbolData` (`StackTrace.cpp`, lines 606–650) runs `nm -n --demangle` and makes a
symbol of every line that does not begin with a blank: the address in base sixteen, a
letter, and the name. The name is split like the path of a file, and it is what
`getDataFromGlobalSymbols` later gives a frame as its object.

* `nmCommand_iff`: the command fits, and for which names it is about the executable.
* `getSymbolData_nmOutput`: the table has the defined symbols of the output, in its order, if
  every line fits into the buffer of `exec2`.
* `nearest_nm`: a frame between the first and the last defined symbol gets the name of the
  last one below its address.
-/

namespace StackTrace

/-! ## Model -/

/-- `strtoul( s, nullptr, b )` of a C string: a number beyond 64 bits becomes the greatest
    one, and a minus changes the sign of any other. -/
def strtoul (b : ℕ) (s : Bytes) : UInt64 :=
  let (minus, s) := takeSign (s.dropWhile isspace)
  let digits := ((skipHexMark b (s ++ [0])).getD []).takeWhile (isDigit b)
  if digitsVal b digits < 2 ^ 64 then
    if minus then -(digitsVal b digits).toUInt64 else (digitsVal b digits).toUInt64
  else 18446744073709551615

/-- Where `strchr( s, c )` finds a `c`: what stands in front of it and what stands behind it. -/
def cutAt (c : UInt8) : (s : Bytes) → Option (Bytes × Bytes)
  | [] => none
  | d :: s => if d = c then some ([], s) else (cutAt c s).map fun (a, b) => (d :: a, b)

/-- `struct symbols_struct` (`StackTrace.h`, lines 121–126). -/
structure NmSymbol extends Symbol where
  type : UInt8

/-- The lambda of lines 620–643 on one line. -/
def symbolOfLine (line : Bytes) : Option NmSymbol :=
  if line.head? = some 32 then none
  else do
    let (a, b) ← cutAt 32 line
    let (b, c) ← cutAt 32 b
    let c := ((cutAt 10 c).map Prod.fst).getD c
    some {
      address := strtoul 16 a
      type := b.head?.getD 0
      obj := (copyPath 56 56 c).1
      objPath := (copyPath 56 56 c).2 }

/-- `getExecutableName` (lines 563–588), where the link `/proc/self/exe` leads to `target`, if it
    can be read. A target that fills the buffer of 65536 characters leaves no room for its NUL. -/
def getExecutableName (target : Option Bytes) : Option (CharArray 1000) :=
  match target with
  | none => some (.zero 1000)
  | some target => if target.length < 65536 then some (copy 1000 (cstr target)) else none

/-- The command of line 613. -/
def nmCommand (executable : CharArray 1000) : Bytes :=
  ascii "nm -n --demangle " ++ executable.str

/-- `getSymbolData` (lines 606–650), where `nm` prints `output`. -/
def getSymbolData (output : Bytes) : List NmSymbol := (exec2 output).filterMap symbolOfLine

/-! ## What `nm` prints -/

/-- A line of `nm -n --demangle`. A symbol that is not defined has no address. -/
structure NmLine where
  address : Option UInt64
  type : UInt8
  name : Bytes
  type_ne : type ≠ 32 ∧ type ≠ 10 ∧ type ≠ 0
  newline : 10 ∉ name
  nul : 0 ∉ name

namespace NmLine

/-- The line without its newline: sixteen digits or blanks, the letter and the name. -/
def text (l : NmLine) : Bytes :=
  (match l.address with
    | some address => padLeft 48 16 (numeral 16 address.toNat)
    | none => List.replicate 16 32) ++ 32 :: l.type :: 32 :: l.name

/-- The buffer of `exec2` takes the line, its newline and a NUL. -/
def Fits (l : NmLine) : Prop := l.name.length ≤ 8171

/-- What `getSymbolData` makes of the line. -/
def symbol (l : NmLine) : Option NmSymbol :=
  l.address.map fun address =>
    { address := address, type := l.type, obj := (copyPath 56 56 l.name).1,
      objPath := (copyPath 56 56 l.name).2 }

end NmLine

/-- All lines, each with its newline. -/
def nmOutput (lines : List NmLine) : Bytes := lines.flatMap fun l => l.text ++ [10]

/-! ## The command -/

theorem str_executable {target : Bytes} (hnul : 0 ∉ target) {executable : CharArray 1000}
    (h : getExecutableName (some target) = some executable) :
    executable.str = cut 1000 target := by
  simp only [getExecutableName] at h
  split_ifs at h
  obtain rfl := Option.some.inj h
  rw [cstr_eq_self hnul, str_copy_eq_cut (by omega) hnul]

/-- The name of the executable is known unless it fills the buffer of `readlink`. The command
    then always fits into `cmd`, which has 1024 characters, and it names the executable if
    and only if this has at most 999 characters. -/
theorem nmCommand_iff (target : Bytes) (hnul : 0 ∉ target) :
    ((getExecutableName (some target)).isSome ↔ target.length < 65536) ∧
      ∀ executable, getExecutableName (some target) = some executable →
        (nmCommand executable).length < 1024 ∧
          (nmCommand executable = ascii "nm -n --demangle " ++ target ↔ target.length ≤ 999) := by
  have hcommand : (ascii "nm -n --demangle ").length = 17 := by decide
  refine ⟨?_, fun executable h => ?_⟩
  · simp only [getExecutableName]
    split_ifs with hlt <;> simp [hlt]
  · have hstr := str_executable hnul h
    have hlength := length_cut (show 4 ≤ 1000 by omega) target
    unfold nmCommand
    rw [hstr, List.append_cancel_left_eq, List.length_append]
    refine ⟨by omega, fun heq => ?_, fun hle => cut_of_lt (by omega)⟩
    rw [heq] at hlength
    omega

/-! ## Reading a line -/

theorem cutAt_split {c : UInt8} {a : Bytes} (ha : c ∉ a) (b : Bytes) :
    cutAt c (a ++ c :: b) = some (a, b) := by
  induction a with
  | nil => simp [cutAt]
  | cons d a ih =>
    obtain ⟨hd, ha⟩ := List.ne_and_not_mem_of_not_mem_cons ha
    rw [List.cons_append, cutAt, if_neg (Ne.symm hd), ih ha]
    rfl

theorem length_address (address : UInt64) :
    (padLeft 48 16 (numeral 16 address.toNat)).length = 16 := by
  have hlt : address.toNat < 16 ^ 16 := address.toNat_lt.trans_eq (by norm_num)
  have hle := @length_numeral_le 16 _ 16 (by norm_num) (by norm_num) hlt
  rw [length_padLeft]
  omega

theorem isDigit_address (address : UInt64) :
    ∀ c ∈ padLeft 48 16 (numeral 16 address.toNat), isDigit 16 c = true := by
  intro c hc
  rcases List.mem_append.mp hc with hc | hc
  · rw [List.eq_of_mem_replicate hc]
    exact isDigit_digitChar (d := 0) (by norm_num) (by norm_num)
  · exact isDigit_of_mem_numeral (by norm_num) (by norm_num) _ c hc

/-- A hexadecimal digit is no blank, no newline and no NUL. -/
theorem isDigit_visible {c : UInt8} (h : isDigit 16 c = true) : c ≠ 32 ∧ c ≠ 10 ∧ c ≠ 0 := by
  revert c
  decide +kernel

/-- `strtoul` reads an address back. -/
theorem strtoul_address (address : UInt64) :
    strtoul 16 (padLeft 48 16 (numeral 16 address.toNat)) = address := by
  have hdigits := isDigit_address address
  have hne : padLeft 48 16 (numeral 16 address.toNat) ≠ [] := by
    intro hnil
    have hlength := length_address address
    rw [hnil] at hlength
    cases hlength
  have hsign : takeSign ((padLeft 48 16 (numeral 16 address.toNat) ++ []).dropWhile isspace) =
      (false, padLeft 48 16 (numeral 16 address.toNat) ++ []) := takeSign_digits hdigits hne
  rw [List.append_nil] at hsign
  have hval : digitsVal 16 (padLeft 48 16 (numeral 16 address.toNat)) = address.toNat := by
    rw [padLeft, digitsVal_zeros, digitsVal_numeral (by norm_num) (by norm_num)]
  have htake : (padLeft 48 16 (numeral 16 address.toNat) ++ [0]).takeWhile (isDigit 16) =
      padLeft 48 16 (numeral 16 address.toNat) := by
    rw [List.takeWhile_append_of_pos hdigits,
      List.takeWhile_cons_of_neg (by simp [not_isDigit_zero]), List.append_nil]
  unfold strtoul
  simp only [hsign, skipHexMark_digits hdigits hne (c := 0) (by decide), Option.getD_some, htake,
    hval]
  rw [if_pos (address.toNat_lt.trans_eq (by norm_num))]
  exact UInt64.ofNat_toNat

namespace NmLine

theorem length_text (l : NmLine) : l.text.length = l.name.length + 19 := by
  unfold text
  cases l.address with
  | some address => simp [length_address]; omega
  | none => simp

theorem isLine_text {l : NmLine} (hfit : l.Fits) : IsLine l.text where
  newline := by
    have htype := l.type_ne.2.1
    have hname := l.newline
    unfold text
    cases l.address with
    | some address =>
      have hdigits : 10 ∉ padLeft 48 16 (numeral 16 address.toNat) :=
        fun h => (isDigit_visible (isDigit_address address 10 h)).2.1 rfl
      simp [hdigits, hname, Ne.symm htype]
    | none => simp [hname, Ne.symm htype]
  nul := by
    have htype := l.type_ne.2.2
    have hname := l.nul
    unfold text
    cases l.address with
    | some address =>
      have hdigits : 0 ∉ padLeft 48 16 (numeral 16 address.toNat) :=
        fun h => (isDigit_visible (isDigit_address address 0 h)).2.2 rfl
      simp [hdigits, hname, Ne.symm htype]
    | none => simp [hname, Ne.symm htype]
  length_le := by
    have hle : l.name.length ≤ 8171 := hfit
    rw [length_text]
    omega

/-- A line that begins with a blank is passed over, and any other one is read. -/
theorem symbolOfLine_text (l : NmLine) : symbolOfLine (l.text ++ [10]) = l.symbol := by
  unfold symbolOfLine symbol text
  cases l.address with
  | none => rfl
  | some address =>
    have hdigits := isDigit_address address
    have hblank : 32 ∉ padLeft 48 16 (numeral 16 address.toNat) :=
      fun h => (isDigit_visible (hdigits 32 h)).1 rfl
    have hhead : (padLeft 48 16 (numeral 16 address.toNat) ++ 32 :: l.type :: 32 :: l.name ++
        [10]).head? ≠ some 32 := by
      intro h
      have hlength := length_address address
      cases hs : padLeft 48 16 (numeral 16 address.toNat) with
      | nil => simp [hs] at hlength
      | cons c s =>
        rw [hs] at h hblank
        obtain rfl := Option.some.inj h
        exact hblank List.mem_cons_self
    have hfirst : cutAt 32 (padLeft 48 16 (numeral 16 address.toNat) ++
        32 :: l.type :: 32 :: l.name ++ [10]) =
          some (padLeft 48 16 (numeral 16 address.toNat), l.type :: 32 :: (l.name ++ [10])) := by
      have hsplit := cutAt_split hblank (l.type :: 32 :: (l.name ++ [10]))
      simpa using hsplit
    have hsecond : cutAt 32 (l.type :: 32 :: (l.name ++ [10])) =
        some ([l.type], l.name ++ [10]) :=
      @cutAt_split 32 [l.type] (by simpa using Ne.symm l.type_ne.1) _
    have hend : cutAt 10 (l.name ++ [10]) = some (l.name, []) := cutAt_split l.newline []
    rw [if_neg hhead, hfirst]
    simp only [Option.bind_eq_bind, Option.bind_some, hsecond, hend, Option.map_some,
      Option.getD_some, strtoul_address]
    rfl

end NmLine

/-- The table has a symbol for every line with an address, in the order of the lines. -/
theorem getSymbolData_nmOutput {lines : List NmLine} (hfit : ∀ l ∈ lines, l.Fits) :
    getSymbolData (nmOutput lines) = lines.filterMap NmLine.symbol := by
  have hlines : nmOutput lines = (lines.map NmLine.text).flatMap fun line => line ++ [10] := by
    rw [nmOutput, List.flatMap_map]
  have hexec := @exec2_lines (lines.map NmLine.text) (by
    intro line hline
    obtain ⟨l, hl, rfl⟩ := List.mem_map.mp hline
    exact NmLine.isLine_text (hfit l hl))
  unfold getSymbolData
  rw [hlines, hexec, List.map_map, List.filterMap_map]
  exact List.filterMap_congr fun l _ => l.symbolOfLine_text

/-! ## The name of a frame -/

theorem CharArray.eq_of_toList {N : ℕ} {a b : CharArray N} (h : a.toList = b.toList) : a = b := by
  cases a
  cases b
  exact CharArray.mk.injEq _ _ _ _ ▸ h

/-- `copy` fills the array with the text as far as it is kept. -/
theorem copy_eq_ofText {N : ℕ} (hN : 4 ≤ N) (s : Bytes) : copy N s = .ofText N (cut N s) := by
  by_cases h : s.length < N
  · rw [copy_of_lt h, cut_of_lt h]
  · obtain ⟨a, t, rfl, ha⟩ : ∃ a t, s = a ++ t ∧ a.length + 4 = N :=
      ⟨s.take (N - 4), s.drop (N - 4), (List.take_append_drop _ _).symm, by simp; omega⟩
    rw [List.length_append] at h
    obtain ⟨x, y, z, u, rfl⟩ : ∃ x y z u, t = x :: y :: z :: u := by
      match t with
      | [] | [_] | [_, _] => simp at h; omega
      | x :: y :: z :: u => exact ⟨x, y, z, u, rfl⟩
    have htake : (a ++ x :: y :: z :: u).take (N - 1) = a ++ [x, y, z] := by
      rw [List.take_append, List.take_of_length_le (by omega), show N - 1 - a.length = 3 by omega]
      rfl
    have hout : (CharArray.ofText N (a ++ [x, y, z])).toList = a ++ [x, y, z, 0] := by
      rw [CharArray.ofText_of_lt (by simp; omega), List.append_assoc]
      simp
      omega
    have hcut : cut N (a ++ x :: y :: z :: u) = a ++ [46, 46, 46] := by
      unfold cut
      rw [if_neg (by simpa using h), List.take_append_of_le_length (by omega),
        List.take_of_length_le (by omega)]
      rfl
    have hdots : (copy N (a ++ x :: y :: z :: u)).toList = a ++ [46, 46, 46, 0] := by
      unfold copy
      dsimp only
      rw [if_pos (by simpa using h), Nat.min_eq_right (by simp at h ⊢; omega), htake]
      exact dots_of_split ha hout
    have htext : (CharArray.ofText N (a ++ [46, 46, 46])).toList = a ++ [46, 46, 46, 0] := by
      rw [CharArray.ofText_of_lt (by simp; omega), List.append_assoc]
      simp
      omega
    rw [hcut]
    exact CharArray.eq_of_toList (hdots.trans htext.symm)

/-- Only the shorter cut counts. -/
theorem cut_cut {N M : ℕ} (hM : 4 ≤ M) (hle : M ≤ N) (s : Bytes) : cut M (cut N s) = cut M s := by
  have hlen := length_cut (hM.trans hle) s
  by_cases h : s.length < N
  · rw [cut_of_lt h]
  · have hcut : cut N s = s.take (N - 4) ++ ascii "..." := if_neg h
    by_cases hsame : M = N
    · subst hsame
      exact cut_of_lt (by omega)
    · have hshort : M - 4 ≤ (s.take (N - 4)).length := by simp; omega
      unfold cut
      rw [if_neg h, if_neg (by rw [← hcut]; omega), if_neg (by omega),
        List.take_append_of_le_length hshort, List.take_take, min_eq_left (by omega)]

/-- A copy of a copy is a copy of the text, if the second array is not longer. -/
theorem copyArray_copy {N M : ℕ} (hM : 4 ≤ M) (hle : M ≤ N) {s : Bytes} (hs : 0 ∉ s) :
    copyArray M (copy N s) = copy M s := by
  unfold copyArray
  rw [str_copy_eq_cut (hM.trans hle) hs, copy_eq_ofText hM, copy_eq_ofText hM, cut_cut hM hle]

/-- A defined symbol gives a frame its name as the path of an object. -/
theorem names_symbol {l : NmLine} {symbol : NmSymbol} (h : l.symbol = some symbol) :
    symbol.names = copyPath 56 48 l.name := by
  obtain ⟨address, -, rfl⟩ := Option.map_eq_some_iff.mp h
  have hname : 0 ∉ stripPath l.name := fun h0 => l.nul ((stripPath_suffix l.name).mem h0)
  have hdir : ∀ n, 0 ∉ l.name.take n := fun n h0 => l.nul (List.mem_of_mem_take h0)
  have hzero : copyArray 48 (CharArray.zero 56) = .zero 48 := by decide
  unfold Symbol.names copyPath
  dsimp only
  rw [copyArray_copy (by omega) le_rfl hname]
  split_ifs
  · rw [copyArray_copy (by omega) (by omega) (hdir _)]
  · rw [hzero]

/-- What is read back of the directory. -/
theorem str_copyPath_snd {N M : ℕ} (hM : 4 ≤ M) {path : Bytes} (hpath : 0 ∉ path) :
    (copyPath N M path).2.str = cut M (directory path) := by
  have hdir : 0 ∉ directory path := fun h0 => hpath (List.mem_of_mem_take h0)
  unfold copyPath
  dsimp only
  split_ifs with h
  · exact str_copy_eq_cut hM hdir
  · have hnil : directory path = [] := by
      unfold directory
      rw [not_not.mp h, Nat.sub_self]
      exact List.take_zero
    obtain ⟨k, rfl⟩ : ∃ k, M = k + 1 := ⟨M - 1, by omega⟩
    rw [hnil, cut_of_lt (by simp)]
    exact cstr_append_zero (s := []) (by simp) _

/-- Every defined symbol has its address and its letter in the table, and what can be read of
    its name is the name behind the last separator and the directory, each as far as there is
    room. -/
theorem getSymbolData_reads (lines : List NmLine) (hfit : ∀ l ∈ lines, l.Fits) :
    (getSymbolData (nmOutput lines)).map
        (fun s => (s.address, s.type, s.obj.str, s.objPath.str)) =
      lines.filterMap fun l => l.address.map fun address =>
        (address, l.type, cut 56 (stripPath l.name), cut 56 (directory l.name)) := by
  rw [getSymbolData_nmOutput hfit, List.map_filterMap]
  refine List.filterMap_congr fun l _ => ?_
  unfold NmLine.symbol
  rw [Option.map_map]
  refine congrArg (fun f => l.address.map f) (funext fun address => ?_)
  show (address, l.type, (copyPath 56 48 l.name).1.str, (copyPath 56 56 l.name).2.str) = _
  rw [(str_copyPath l.nul).1, str_copyPath_snd (by omega) l.nul]

/-- What `nm` prints of a small program. -/
def nmLines : List NmLine :=
  [⟨none, 85, ascii "puts", by decide, by decide, by decide⟩,
    ⟨some 4198400, 84, ascii "_start", by decide, by decide, by decide⟩,
    ⟨some 4198694, 84, ascii "main", by decide, by decide, by decide⟩,
    ⟨some 4202528, 66, ascii "_end", by decide, by decide, by decide⟩]

theorem fits_nmLines : ∀ l ∈ nmLines, l.Fits := by
  unfold NmLine.Fits
  decide

theorem getSymbolData_reads_main :
    (getSymbolData (nmOutput nmLines)).map
        (fun s => (s.address, s.type, s.obj.str, s.objPath.str)) =
      [(4198400, 84, ascii "_start", []), (4198694, 84, ascii "main", []),
        (4202528, 66, ascii "_end", [])] :=
  (getSymbolData_reads nmLines fits_nmLines).trans (by decide)

/-! ## The name that a frame gets -/

/-- The symbols of the lines, without their letters. -/
def symbolTable (lines : List NmLine) : List Symbol :=
  (getSymbolData (nmOutput lines)).map NmSymbol.toSymbol

theorem symbolTable_eq {lines : List NmLine} (hfit : ∀ l ∈ lines, l.Fits) :
    symbolTable lines = lines.filterMap fun l => l.symbol.map NmSymbol.toSymbol := by
  unfold symbolTable
  rw [getSymbolData_nmOutput hfit, List.map_filterMap]

theorem address_symbol (l : NmLine) :
    (l.symbol.map NmSymbol.toSymbol).map Symbol.address = l.address := by
  unfold NmLine.symbol
  rw [Option.map_map, Option.map_map]
  exact Option.map_id'

theorem address_symbolTable {lines : List NmLine} (hfit : ∀ l ∈ lines, l.Fits) :
    (symbolTable lines).map Symbol.address = lines.filterMap NmLine.address := by
  rw [symbolTable_eq hfit, List.map_filterMap]
  exact List.filterMap_congr fun l _ => address_symbol l

theorem sorted_symbolTable {lines : List NmLine} (hfit : ∀ l ∈ lines, l.Fits)
    (h : (lines.filterMap NmLine.address).Pairwise (· ≤ ·)) : Sorted (symbolTable lines) := by
  rw [← address_symbolTable hfit] at h
  exact List.pairwise_map.mp h

/-- The last line with an address below `address`. -/
theorem exists_last_below {lines : List NmLine} {address : UInt64}
    (h : ∃ a ∈ lines.filterMap NmLine.address, a < address) :
    ∃ before l after, lines = before ++ l :: after ∧ (∃ a, l.address = some a ∧ a < address) ∧
      ∀ m ∈ after, ∀ a, m.address = some a → address ≤ a := by
  induction lines using List.reverseRecOn with
  | nil => simp at h
  | append_singleton lines l ih =>
    by_cases hl : ∃ a, l.address = some a ∧ a < address
    · exact ⟨lines, l, [], rfl, hl, by simp⟩
    · have hrest : ∃ a ∈ lines.filterMap NmLine.address, a < address := by
        obtain ⟨a, ha, hlt⟩ := h
        obtain ⟨m, hm, hma⟩ := List.mem_filterMap.mp ha
        rcases List.mem_append.mp hm with hm | hm
        · exact ⟨a, List.mem_filterMap.mpr ⟨m, hm, hma⟩, hlt⟩
        · obtain rfl := List.mem_singleton.mp hm
          exact absurd ⟨a, hma, hlt⟩ hl
      obtain ⟨before, last, after, rfl, hlast, hafter⟩ := ih hrest
      refine ⟨before, last, after ++ [l], by simp, hlast, fun m hm a hma => ?_⟩
      rcases List.mem_append.mp hm with hm | hm
      · exact hafter m hm a hma
      · obtain rfl := List.mem_singleton.mp hm
        exact UInt64.not_lt.mp fun hlt => hl ⟨a, hma, hlt⟩

/-- The names below an address are those of the last line below it. -/
theorem nearestNames_eq {p : Process} {before after : List NmLine} {l : NmLine}
    {address a : UInt64} (hfit : ∀ m ∈ before ++ l :: after, m.Fits)
    (hsymbols : p.symbols = symbolTable (before ++ l :: after))
    (hl : l.address = some a) (hlt : a < address)
    (hafter : ∀ m ∈ after, ∀ b, m.address = some b → address ≤ b) :
    p.nearestNames address = copyPath 56 48 l.name := by
  obtain ⟨symbol, hsymbol⟩ : ∃ symbol, l.symbol = some symbol :=
    ⟨_, by unfold NmLine.symbol; rw [hl]; rfl⟩
  have hentry : l.symbol.map NmSymbol.toSymbol = some symbol.toSymbol := by
    rw [hsymbol, Option.map_some]
  have hcons : ((l :: after).filterMap fun m => m.symbol.map NmSymbol.toSymbol) =
      symbol.toSymbol :: after.filterMap fun m => m.symbol.map NmSymbol.toSymbol :=
    List.filterMap_cons_some hentry
  have haddress : symbol.address = a := by
    have heq := address_symbol l
    rw [hentry, hl] at heq
    exact Option.some.inj heq
  have hnone : (after.filterMap fun m => m.symbol.map NmSymbol.toSymbol).filter
      (fun symbol => symbol.address < address) = [] := by
    rw [List.filter_eq_nil_iff]
    intro s hs
    obtain ⟨m, hm, hms⟩ := List.mem_filterMap.mp hs
    have hma := address_symbol m
    rw [hms] at hma
    simpa using hafter m hm _ hma.symm
  unfold Process.nearestNames
  rw [hsymbols, symbolTable_eq hfit, List.filterMap_append, hcons, List.filter_append,
    List.filter_cons_of_pos (by simpa [haddress] using hlt), hnone]
  simpa using names_symbol hsymbol

/-- A frame that lies behind the first defined symbol and not behind the last one gets the
    name of the last symbol below its address, split like the path of an object. -/
theorem nearest_nm (p : Process) (lines : List NmLine) (hfit : ∀ l ∈ lines, l.Fits)
    (hsymbols : p.symbols = symbolTable lines)
    (hsorted : (lines.filterMap NmLine.address).Pairwise (· ≤ ·)) (info : StackInfo)
    (hbelow : ∃ a ∈ lines.filterMap NmLine.address, a < info.address)
    (habove : ∃ a ∈ lines.filterMap NmLine.address, info.address ≤ a) :
    ∃ before l after, lines = before ++ l :: after ∧
      (∃ a, l.address = some a ∧ a < info.address) ∧
      (∀ m ∈ after, ∀ a, m.address = some a → info.address ≤ a) ∧
      ∃ fuel, p.getDataFromGlobalSymbols fuel info =
        some (info.setObject (copyPath 56 48 l.name)) := by
  have hsort : Sorted p.symbols := hsymbols ▸ sorted_symbolTable hfit hsorted
  have hsome : ∀ a ∈ lines.filterMap NmLine.address,
      ∃ i, ∃ hi : i < p.symbols.length, p.symbols[i].address = a := by
    intro a ha
    rw [← address_symbolTable hfit, ← hsymbols] at ha
    obtain ⟨s, hs, rfl⟩ := List.mem_map.mp ha
    obtain ⟨i, hi, rfl⟩ := List.mem_iff_getElem.mp hs
    exact ⟨i, hi, rfl⟩
  obtain ⟨i, hi, hlt⟩ : ∃ i, ∃ hi : i < p.symbols.length, p.symbols[i].address < info.address := by
    obtain ⟨a, ha, hlt⟩ := hbelow
    obtain ⟨i, hi, rfl⟩ := hsome a ha
    exact ⟨i, hi, hlt⟩
  obtain ⟨j, hj, hle⟩ : ∃ j, ∃ hj : j < p.symbols.length, info.address ≤ p.symbols[j].address := by
    obtain ⟨a, ha, hle⟩ := habove
    obtain ⟨j, hj, rfl⟩ := hsome a ha
    exact ⟨j, hj, hle⟩
  -- the two symbols are not the same one
  have hlen : 2 ≤ p.symbols.length := by
    by_contra hshort
    obtain rfl : i = j := by omega
    exact absurd (UInt64.lt_of_lt_of_le hlt hle) (UInt64.lt_irrefl _)
  have hfirst : p.symbols[0].address < info.address :=
    UInt64.lt_of_le_of_lt (hsort.le (Nat.zero_le i) hi) hlt
  have hlast : info.address ≤ p.symbols[p.symbols.length - 1].address :=
    UInt64.le_trans hle (hsort.le (by omega) (by omega))
  obtain ⟨before, l, after, rfl, ⟨a, hl, hla⟩, hafter⟩ := exists_last_below hbelow
  have hnames := nearestNames_eq hfit hsymbols hl hla hafter
  refine ⟨before, l, after, rfl, ⟨a, hl, hla⟩, hafter, ?_⟩
  rw [← hnames]
  have hends : ∃ k, 0 ≤ k ∧ k + 1 ≤ p.symbols.length - 1 ∧ closest p.symbols info.address
      (p.symbols.length - 1) 0 (p.symbols.length - 1) = some (k, k + 1) :=
    closest_lt (by omega) (by omega) le_rfl
  obtain ⟨k, -, hk, hclosest⟩ := hends
  have hbrackets : Brackets p.symbols info.address 0 (p.symbols.length - 1) :=
    ⟨fun i _ hpos hle => by omega, fun i _ hge hlt => by omega⟩
  have hbounds := (closest_between hsort (by omega) (by omega) hbrackets hclosest).2.2
  rcases nearestNames_cases hsort hlen (by omega) hbounds with
    ⟨hnot, -, -⟩ | ⟨hnot, -, -⟩ | ⟨-, -, hnearest⟩
  · exact absurd hfirst (UInt64.not_lt.mpr hnot)
  · exact absurd hlast (UInt64.not_le.mpr hnot)
  · rw [hnearest]
    exact ⟨_, getDataFromGlobalSymbols_eq (by omega) hclosest⟩

/-- A process with the symbols of this program, in which `dladdr` knows nothing. -/
def smallProgram : Process where
  dladdr _ := none
  demangle _ := none
  executable := ascii "/bin/a.out"
  symbols := symbolTable nmLines
  addr2line := ⟨ascii "addr2line", fun _ _ => [], fun _ _ => []⟩

theorem nearest_nm_main :
    ∃ before l after, nmLines = before ++ l :: after ∧ (∃ a, l.address = some a ∧ a < 4198710) ∧
      (∀ m ∈ after, ∀ a, m.address = some a → 4198710 ≤ a) ∧
      ∃ fuel, smallProgram.getDataFromGlobalSymbols fuel (.ofFields 4198710 0 [] [] []) =
        some ((StackInfo.ofFields 4198710 0 [] [] []).setObject (copyPath 56 48 l.name)) :=
  nearest_nm smallProgram nmLines fits_nmLines rfl (by decide) (.ofFields 4198710 0 [] [] [])
    ⟨4198694, by decide, by decide⟩ ⟨4202528, by decide, by decide⟩

end StackTrace
