import StackTrace.Symbols.Answer
import StackTrace.Symbols.Batches
import StackTrace.Symbols.FunctionName

/-!
# Functions that the symbolizer knows

`StackTrace.cpp`, lines 680–736 and 759–827. `getFileAndLineObject` asks
`function.empty()` before it stores the name of a function, and no `std::array` of 256
characters is empty, on Linux (`addr2line`) as on macOS (`atos`). So a frame keeps its
function, and a blank one stays blank.

* `decodeWithName_eq`: lines 774–778 leave the frame and the rows as they are.
* `Symbolizer.fillsIn_iff`: a batch gets its missing functions just if it misses none.
-/

namespace StackTrace

/-- `std::array<char, n>::empty()`. -/
def CharArray.empty {n : ℕ} (_ : CharArray n) : Bool := n = 0

theorem CharArray.empty_eq_false {n : ℕ} (hn : 0 < n) (a : CharArray n) : a.empty = false :=
  decide_eq_false hn.ne'

/-- `function[0] == 0`. -/
def StackInfo.Blank (s : StackInfo) : Prop := s.function.toList.head? = some 0

instance (s : StackInfo) : Decidable s.Blank := inferInstanceAs (Decidable (_ = _))

/-! ## Linux -/

/-- Lines 774–778: the name at `tmp1` is cleaned up where it lies and copied. -/
def nameFunction (fuel : ℕ) (output : Bytes) (tmp1 : ℕ) (s : StackInfo) :
    Option (Bytes × StackInfo) :=
  if s.function.empty then do
    let name ← cstringAt output tmp1
    let f ← FunctionName.cleanup fuel ⟨output.drop tmp1, name.length⟩
    some (output.take tmp1 ++ f.function, { s with function := copy 256 (cstr f.function) })
  else some (output, s)

theorem nameFunction_eq (fuel : ℕ) (output : Bytes) (tmp1 : ℕ) (s : StackInfo) :
    nameFunction fuel output tmp1 s = some (output, s) := by
  unfold nameFunction
  rw [CharArray.empty_eq_false (by omega)]
  rfl

/-- The body of the loop of lines 764–788 with lines 774–778 in it. -/
def decodeWithName (fuel : ℕ) (output : Bytes) (p : ℕ) (s : StackInfo) :
    Option (Bytes × StackInfo) :=
  let (tmp1, tmp2) := if unknown (output.drop p) then (p + 1024, p + 1536) else (p, p + 512)
  if unknown (output.drop tmp1) then some (output, s)
  else do
    let (output, s) ← nameFunction fuel output tmp1 s
    takeLocation output tmp2 s

theorem decodeWithName_eq (fuel : ℕ) (output : Bytes) (p : ℕ) (s : StackInfo) :
    decodeWithName fuel output p s = decode output p s := by
  unfold decodeWithName decode
  simp only [nameFunction_eq]
  rfl

/-- The rows for the frames of a batch (lines 744–760). -/
def Addr2line.rowsOf (a : Addr2line) (info : List StackInfo) (list : List ℕ) :
    Option (StaticVector (CharArray 512) 1024) := do
  let frames ← list.mapM fun k => info[k]?
  let first ← frames.head?
  let file ← fileName first
  let c ← a.command file frames
  some (exec2Rows 1024 (a.output file c.addresses))

/-- The function in the rows `4 * i` to `4 * i + 3` (lines 765–773), if all rows are there. -/
def linuxName (rows : StaticVector (CharArray 512) 1024) (size i : ℕ) : Option Bytes :=
  let output := rowMemory rows
  let p := 512 * (4 * i)
  if rows.d_size ≠ 4 * size then none
  else if unknown (output.drop p) then
    if unknown (output.drop (p + 1024)) then none else cstringAt output (p + 1024)
  else cstringAt output p

/-! ## macOS -/

/-- The addresses of the images and the line that `atos` prints for an address. -/
structure Atos where
  loadAddress : (obj_hash : UInt32) → Option UInt64
  line : (file : Bytes) → (load_address address : UInt64) → Bytes

/-- What `split_atos` returns. What the source does not initialize is zero here. -/
structure AtosData where
  fun_ : CharArray 2048
  obj : CharArray 64
  objPath : CharArray 64
  file : CharArray 64
  filePath : CharArray 64
  line : ℤ

/-- `s.substr( pos, n )`. -/
def substr (s : Bytes) (pos n : ℕ) : Option Bytes :=
  if pos ≤ s.length then some ((s.drop pos).take n) else none

/-- The name in front of the object (lines 706–714). -/
def atosName (buf : Bytes) : Bytes := buf.take ((find (ascii " (in ") buf).getD buf.length)

/-- Lines 715–734, behind the name. -/
def splitObject (data : AtosData) (buf : Bytes) (index : ℕ) : Option AtosData := do
  let tmp ← substr buf (index + 5) npos
  let index := (find [41] tmp).getD npos
  let (obj, objPath) := copyPath 64 64 (tmp.take index)
  let data := { data with obj := obj, objPath := objPath }
  let tmp ← substr tmp ((index + 1) % 18446744073709551616) npos
  let p1 := (find [40] tmp).getD npos
  let p2 := (find [41] tmp).getD npos
  let tmp ← substr tmp ((p1 + 1) % 18446744073709551616)
    (FunctionName.subSize (FunctionName.subSize p2 p1) 1)
  match find [58] tmp with
  | some index => do
    let (file, filePath) := copyPath 64 64 (tmp.take index)
    let line ← stoi (tmp.drop (index + 1))
    some { data with file := file, filePath := filePath, line := line }
  | none =>
    if p1 ≠ npos then
      let (file, filePath) := copyPath 64 64 tmp
      some { data with file := file, filePath := filePath }
    else some data

/-- `split_atos` (lines 699–736). The source returns references to its own variables; here
    they are the values. -/
def split_atos (fuel : ℕ) (buf : Bytes) : Option AtosData := do
  let data : AtosData := ⟨.zero 2048, .zero 64, .zero 64, .zero 64, .zero 64, 0⟩
  if buf = [] then some data
  else do
    let name ← cleanupFunctionName fuel (copy 2048 (atosName buf)).str
    let data := { data with fun_ := .ofText 2048 name }
    match find (ascii " (in ") buf with
    | none => some data
    | some index => splitObject data buf index

/-- Lines 815–826. -/
def AtosData.store (data : AtosData) (s : StackInfo) : StackInfo :=
  let s := if s.function.empty then { s with function := copyArray 256 data.fun_ } else s
  let s := if s.object.empty then
    { s with object := copyArray 56 data.obj, objectPath := copyArray 48 data.objPath } else s
  let s := if s.filename.empty then
    { s with filename := copyArray 64 data.file, filenamePath := copyArray 64 data.filePath } else s
  if s.line = 0 then { s with line := (data.line % 4294967296).toNat.toUInt32 } else s

namespace Atos

/-- The loop over `info` (lines 802–803). -/
def addAddresses : Command → (info : List StackInfo) → Command
  | c, [] => c
  | c, s :: info =>
    if c.cmd.length < 4096 - 32 then
      addAddresses ⟨c.cmd ++ 32 :: numeral 16 s.address.toNat, c.addresses ++ [s.address]⟩ info
    else c

/-- Lines 792–804. -/
def command (file : Bytes) (addr : UInt64) (info : List StackInfo) : Option Command :=
  let start := ascii "atos -o " ++ file ++ ascii " -f -l " ++ numeral 16 addr.toNat
  let c := addAddresses ⟨start, []⟩ info
  let cmd := c.cmd ++ ascii " 2> /dev/null"
  if cmd.length < 4096 then some ⟨cmd, c.addresses⟩ else none

/-- The rows for the frames of a batch (lines 790–807); without the address of the image
    `atos` is not called. -/
def rowsOf (a : Atos) (info : List StackInfo) (list : List ℕ) :
    Option (Option (StaticVector (CharArray 512) 256)) := do
  let frames ← list.mapM fun k => info[k]?
  match frames with
  | [] => some none
  | first :: _ => do
    let object ← first.object.text
    match a.loadAddress (hashString object) with
    | none => some none
    | some addr => do
      let file ← fileName first
      let c ← command file addr frames
      some (some (exec2Rows 256 (c.addresses.flatMap fun x => a.line file addr x ++ [10])))

/-- The loop of lines 813–827 from frame `i` on. It takes the row `2 * i`. -/
def decodeLoop (fuel : ℕ) : (i : ℕ) → (list : List ℕ) → (output : Bytes) →
    (info : List StackInfo) → Option (List StackInfo)
  | _, [], _, info => some info
  | i, k :: list, output, info => do
    let s ← info[k]?
    let buf ← cstringAt output (512 * (2 * i))
    let data ← split_atos fuel buf
    decodeLoop fuel (i + 1) list output (info.set k (data.store s))

/-- `getFileAndLineObject` on macOS (lines 789–827). -/
def getFileAndLineObject (a : Atos) (fuel : ℕ) (info : List StackInfo) (list : List ℕ) :
    Option (List StackInfo) := do
  let rows ← a.rowsOf info list
  match rows with
  | none => some info
  | some output =>
    if output.d_size ≠ list.length then some info
    else decodeLoop fuel 0 list (rowMemory output) info

/-- The function in the row `i`, if all rows are there. -/
def nameAt (rows : StaticVector (CharArray 512) 256) (size i : ℕ) : Option Bytes :=
  if rows.d_size ≠ size then none else (cstringAt (rowMemory rows) (512 * i)).map atosName

end Atos

/-! ## Functions stay as they are -/

theorem store_function (data : AtosData) (s : StackInfo) :
    (data.store s).function = s.function := by
  unfold AtosData.store
  simp only [CharArray.empty_eq_false (show 0 < 256 by omega),
    CharArray.empty_eq_false (show 0 < 56 by omega),
    CharArray.empty_eq_false (show 0 < 64 by omega), Bool.false_eq_true, if_false]
  split_ifs <;> rfl

theorem map_function_decodeLoop {fuel i : ℕ} {list : List ℕ} {output : Bytes}
    {info out : List StackInfo} (h : Atos.decodeLoop fuel i list output info = some out) :
    out.map StackInfo.function = info.map StackInfo.function := by
  induction list generalizing i info with
  | nil => rw [← Option.some.inj h]
  | cons k list ih =>
    obtain ⟨s, hs, h⟩ := Option.bind_eq_some_iff.mp h
    obtain ⟨buf, -, h⟩ := Option.bind_eq_some_iff.mp h
    obtain ⟨data, -, h⟩ := Option.bind_eq_some_iff.mp h
    obtain ⟨hk, rfl⟩ := List.getElem?_eq_some_iff.mp hs
    rw [ih h, List.map_set, store_function, ← List.getElem_map StackInfo.function,
      List.set_getElem_self]
    rwa [List.length_map]

theorem map_function_atos {a : Atos} {fuel : ℕ} {info out : List StackInfo} {list : List ℕ}
    (h : a.getFileAndLineObject fuel info list = some out) :
    out.map StackInfo.function = info.map StackInfo.function := by
  obtain ⟨rows, -, h⟩ := Option.bind_eq_some_iff.mp h
  cases rows with
  | none => rw [← Option.some.inj h]
  | some output =>
    dsimp only at h
    split_ifs at h
    · rw [← Option.some.inj h]
    · exact map_function_decodeLoop h

theorem map_function_addr2line {a : Addr2line} {info out : List StackInfo} {list : List ℕ}
    (h : getFileAndLineObject a info list = some out) :
    out.map StackInfo.function = info.map StackInfo.function := by
  have hlocated := located_getFileAndLineObject h
  clear h
  induction hlocated with
  | nil => rfl
  | cons hst _ ih =>
    rw [List.map_cons, List.map_cons, ih]
    cases hst <;> rfl

/-! ## What is missing -/

/-- The frame `i` of the batch `list` gets the function that the rows name, cleaned up, if it
    has none, and keeps the function that it has. -/
def FillsIn (named : ℕ → Option Bytes) (list : List ℕ) (info out : List StackInfo) : Prop :=
  ∀ (i k : ℕ) (s : StackInfo), list[i]? = some k → info[k]? = some s →
    ∃ t : StackInfo, out[k]? = some t ∧
      if s.Blank then ∀ name ∈ named i, ∀ (fuel : ℕ), ∀ cleaned ∈ cleanupFunctionName fuel name,
        t.function.str = (copy 256 cleaned).str
      else t.function = s.function

/-- The rows have no function for a frame without one, or one of which nothing is left. -/
def NothingMissing (named : ℕ → Option Bytes) (list : List ℕ) (info : List StackInfo) : Prop :=
  ∀ (i k : ℕ) (s : StackInfo), list[i]? = some k → info[k]? = some s → s.Blank →
    ∀ name ∈ named i, ∀ (fuel : ℕ), ∀ cleaned ∈ cleanupFunctionName fuel name, cleaned = []

theorem str_of_blank {s : StackInfo} (h : s.Blank) : s.function.str = [] := by
  obtain ⟨rest, hrest⟩ := List.head?_eq_some_iff.mp h
  unfold CharArray.str
  rw [hrest]
  rfl

/-- `copy` keeps the first character. -/
theorem head?_copy (c : UInt8) (s : Bytes) : (copy 256 (c :: s)).toList.head? = some c := by
  have htext : (CharArray.ofText 256 ((c :: s).take (min (c :: s).length 255))).toList.head? =
      some c := by
    obtain ⟨n, hn⟩ : ∃ n, min (c :: s).length 255 = n + 1 := ⟨min s.length 254, by simp; omega⟩
    rw [hn]
    rfl
  unfold copy
  simp only []
  split_ifs
  · rw [List.head?_eq_getElem?] at htext ⊢
    show ((((_ : Bytes).set 252 46).set 253 46).set 254 46 |>.set 255 0)[0]? = some c
    simpa using htext
  · exact htext

theorem str_copy_eq_nil_iff {cleaned : Bytes} (h : 0 ∉ cleaned) :
    (copy 256 cleaned).str = [] ↔ cleaned = [] := by
  cases cleaned with
  | nil => simp [str_copy (N := 256) (s := []) (by simp) (by simp)]
  | cons c cleaned =>
    obtain ⟨rest, hrest⟩ := List.head?_eq_some_iff.mp (head?_copy c cleaned)
    have hc : c ≠ 0 := fun hc => h (by simp [hc])
    unfold CharArray.str
    rw [hrest]
    simp [cstr, hc]

theorem zero_notMem_cleanupFunctionName {fuel : ℕ} {name cleaned : Bytes}
    (h : cleanupFunctionName fuel name = some cleaned) : 0 ∉ cleaned := by
  obtain ⟨f, -, h⟩ := Option.bind_eq_some_iff.mp h
  rw [← Option.some.inj h]
  exact zero_notMem_cstr _

/-- Where functions stay as they are, the missing ones are filled in just if there are
    none. -/
theorem fillsIn_iff_of_map {info out : List StackInfo}
    (h : out.map StackInfo.function = info.map StackInfo.function) (named : ℕ → Option Bytes)
    (list : List ℕ) : FillsIn named list info out ↔ NothingMissing named list info := by
  have hget : ∀ (k : ℕ) (s : StackInfo), info[k]? = some s →
      ∃ t : StackInfo, out[k]? = some t ∧ t.function = s.function := by
    intro k s hs
    have hk : (out.map StackInfo.function)[k]? = some s.function := by
      rw [h, List.getElem?_map, hs]
      rfl
    rw [List.getElem?_map] at hk
    exact Option.map_eq_some_iff.mp hk
  refine forall_congr' fun i => forall_congr' fun k => forall_congr' fun s => forall_congr' fun _ =>
    forall_congr' fun hs => ?_
  obtain ⟨t, ht, hfunction⟩ := hget k s hs
  by_cases hblank : s.Blank
  · simp only [ht, Option.some.injEq, exists_eq_left', hfunction, str_of_blank hblank, hblank,
      if_true, true_implies]
    refine forall₂_congr fun name _ => forall_congr' fun fuel => forall₂_congr fun cleaned hc => ?_
    rw [eq_comm, str_copy_eq_nil_iff (zero_notMem_cleanupFunctionName hc)]
  · simp only [ht, Option.some.injEq, exists_eq_left', hfunction, hblank, if_false, false_implies]

/-- The program that is asked: `addr2line` on Linux, `atos` on macOS, where a loop of
    `cleanupFunctionName` may take `fuel` rounds. -/
inductive Symbolizer
  | addr2line (a : Addr2line)
  | atos (a : Atos) (fuel : ℕ)

namespace Symbolizer

/-- `getFileAndLineObject` on the system of the program. -/
def getFileAndLineObject (info : List StackInfo) (list : List ℕ) :
    Symbolizer → Option (List StackInfo)
  | addr2line a => StackTrace.getFileAndLineObject a info list
  | atos a fuel => a.getFileAndLineObject fuel info list

/-- The functions that the rows for a batch name. -/
def named (info : List StackInfo) (list : List ℕ) : Symbolizer → ℕ → Option Bytes
  | addr2line a, i => do
    let rows ← a.rowsOf info list
    linuxName rows list.length i
  | atos a _, i => do
    let rows ← a.rowsOf info list
    Atos.nameAt (← rows) list.length i

/-- A batch gets its missing functions if and only if it misses none. -/
theorem fillsIn_iff (p : Symbolizer) {info out : List StackInfo} {list : List ℕ}
    (h : p.getFileAndLineObject info list = some out) :
    FillsIn (p.named info list) list info out ↔ NothingMissing (p.named info list) list info := by
  refine fillsIn_iff_of_map ?_ _ list
  cases p with
  | addr2line a => exact map_function_addr2line h
  | atos a fuel => exact map_function_atos h

/-- An `addr2line` that knows one function, and no line of it. -/
def knowsMain : Symbolizer :=
  addr2line ⟨ascii "addr2line", fun _ _ => ascii "main", fun _ _ => ascii "??:0"⟩

/-- A frame of a program without dynamic symbols. -/
def blankFrame : StackInfo := .ofFields 0x401136 0x1136 (ascii "a.out") [] []

theorem getFileAndLineObject_knowsMain :
    knowsMain.getFileAndLineObject [blankFrame] [0] = some [blankFrame] := by
  decide +kernel

/-- A frame of it that has its function. -/
def startFrame : StackInfo := .ofFields 0x401040 0x1040 (ascii "a.out") (ascii "_start") []

/-- Two frames without a function and one between them that has it. -/
theorem fillsIn_iff_blankFrame :
    let info := [blankFrame, startFrame, blankFrame]
    FillsIn (knowsMain.named info [0, 1, 2]) [0, 1, 2] info info ↔
      NothingMissing (knowsMain.named info [0, 1, 2]) [0, 1, 2] info := by
  have hout : knowsMain.getFileAndLineObject [blankFrame, startFrame, blankFrame] [0, 1, 2] =
      some [blankFrame, startFrame, blankFrame] := by decide +kernel
  exact fillsIn_iff knowsMain hout

/-- The rows name `main`, and the frame stays without a function. -/
theorem blankFrame_not_filled :
    ¬ ∀ (p : Symbolizer) (info out : List StackInfo) (list : List ℕ),
      p.getFileAndLineObject info list = some out →
        FillsIn (p.named info list) list info out := by
  intro h
  have hnamed : knowsMain.named [blankFrame] [0] 0 = some (ascii "main") := by decide +kernel
  have hclean : cleanupFunctionName 1 (ascii "main") = some (ascii "main") := by decide +kernel
  have hblank : blankFrame.Blank := by decide
  have hfills := h knowsMain [blankFrame] [blankFrame] [0] getFileAndLineObject_knowsMain
  obtain ⟨t, ht, hfunction⟩ := hfills 0 0 blankFrame rfl rfl
  obtain rfl := Option.some.inj ht
  rw [if_pos hblank] at hfunction
  have hmain := hfunction _ hnamed 1 _ hclean
  rw [str_of_blank hblank] at hmain
  exact absurd hmain (by decide)

end Symbolizer

end StackTrace
