import StackTrace.Symbols.Exec
import StackTrace.Text.Parse

/-!
# `getFileAndLine`: file names and lines from `addr2line`

`StackTrace.cpp`, lines 129–146 and 734–854. The frames are taken in batches of up to
256 objects, the frames of an object in lists of up to 256, and for each list one
command asks `addr2line` for all addresses. `cmd` takes no more addresses from 4064
characters on, and an answer with too few rows is dropped as a whole. A model function
fails where the code would read or write outside an object.

* `decode_rows`: from the rows of a frame the code takes what `resolve` says.
-/

namespace StackTrace

/-! ## Hashes -/

/-- `hashString` (lines 130–137); a `char` from 128 on is negative. -/
def hashString (s : Bytes) : UInt32 :=
  s.foldl (fun hash c => ((hash <<< 5) + hash) ^^^
    (if c < 128 then c.toUInt32 else c.toUInt32 + 0xFFFFFF00)) 5381

/-- `objHash` (lines 138–146) of the names of a frame. -/
def objHash (s : StackInfo) : UInt64 :=
  let v1 := hashString s.object.str
  let v2 := hashString s.objectPath.str
  (v1.toUInt64 <<< 32) + (v1 ^^^ v2).toUInt64

/-! ## The command -/

/-- The external program: its path, which is fixed when the library is built, and the two
    lines that it prints for an address of an object file. -/
structure Addr2line where
  ADDR2LINE : Bytes
  function : (file : Bytes) → (address : UInt64) → Bytes
  location : (file : Bytes) → (address : UInt64) → Bytes

/-- What stands behind `-e` (lines 748–752). -/
def fileName (s : StackInfo) : Option Bytes :=
  if s.objectPath.toList.head? = some 0 then s.object.text
  else do
    let path ← s.objectPath.text
    let object ← s.object.text
    some (path ++ 47 :: object)

/-- `" %lx %lx"`. -/
def addressText (s : StackInfo) : Bytes :=
  32 :: numeral 16 s.address.toNat ++ 32 :: numeral 16 s.address2.toNat

/-- The text in `cmd`, whose length is `N`, and the addresses in it. -/
structure Command where
  cmd : Bytes
  addresses : List UInt64

/-- The loop over `info` (lines 753–756). -/
def addAddresses : Command → (info : List StackInfo) → Command
  | c, [] => c
  | c, s :: info =>
    if c.cmd.length < 4096 - 32 then
      addAddresses ⟨c.cmd ++ addressText s, c.addresses ++ [s.address, s.address2]⟩ info
    else c

/-- The object file of the first frame in the command (lines 748–752). -/
def Addr2line.start (a : Addr2line) (file : Bytes) : Command :=
  ⟨a.ADDR2LINE ++ ascii " -C -e " ++ file ++ ascii " -f", []⟩

/-- Lines 744–757: `cmd` has 4096 characters. -/
def Addr2line.command (a : Addr2line) (file : Bytes) (info : List StackInfo) : Option Command :=
  let c := addAddresses (a.start file) info
  let cmd := c.cmd ++ ascii " 2> /dev/null"
  if cmd.length < 4096 then some ⟨cmd, c.addresses⟩ else none

/-- What the command prints. -/
def Addr2line.output (a : Addr2line) (file : Bytes) (addresses : List UInt64) : Bytes :=
  addresses.flatMap fun x => a.function file x ++ [10] ++ (a.location file x ++ [10])

/-! ## The answer -/

/-- The C string at `p`. -/
def cstringAt (output : Bytes) (p : ℕ) : Option Bytes :=
  if 0 ∈ output.drop p then some (cstr (output.drop p)) else none

/-- `tmp[0] == '?' && tmp[1] == '?'`. -/
def unknown (tmp : Bytes) : Bool := [63, 63].isPrefixOf tmp

/-- Lines 780–787: the file and line in the row at `buf`, with what the code changes in the
    memory of `output`. -/
def takeLocation (output : Bytes) (buf : ℕ) (s : StackInfo) : Option (Bytes × StackInfo) :=
  if (output.drop buf).head? = some 63 ∨ (output.drop buf).head? = some 0 then some (output, s)
  else
    let j := min 4095 ((output.drop buf).findIdx (· = 58))
    let output := output.set (buf + j) 0
    do
      let name ← cstringAt output buf
      let number ← cstringAt output (buf + j + 1)
      some (output, { s with
        filename := (copyPath 64 64 name).1
        filenamePath := (copyPath 64 64 name).2
        line := (atoi number % 4294967296).toNat.toUInt32 })

/-- One round of the loop of lines 764–788, where `p` is the offset of the row `4 * i`.
    `function.empty()` is false for every `std::array<char, 256>`, so that lines 775–778
    never run. -/
def decode (output : Bytes) (p : ℕ) (s : StackInfo) : Option (Bytes × StackInfo) :=
  let (tmp1, tmp2) := if unknown (output.drop p) then (p + 1024, p + 1536) else (p, p + 512)
  if unknown (output.drop tmp1) then some (output, s) else takeLocation output tmp2 s

/-- The loop of lines 764–788 from frame `i` on. A frame is given by its index in
    `info`, for the pointer to it. -/
def decodeLoop : (i : ℕ) → (list : List ℕ) → (output : Bytes) → (info : List StackInfo) →
    Option (List StackInfo)
  | _, [], _, info => some info
  | i, k :: list, output, info => do
    let s ← info[k]?
    let (output, s) ← decode output (512 * (4 * i)) s
    decodeLoop (i + 1) list output (info.set k s)

/-- `getFileAndLineObject` on Linux (lines 737–788). -/
def getFileAndLineObject (a : Addr2line) (info : List StackInfo) (list : List ℕ) :
    Option (List StackInfo) := do
  let frames ← list.mapM fun k => info[k]?
  match frames with
  | [] => some info
  | first :: _ =>
    let file ← fileName first
    let c ← a.command file frames
    let output := exec2Rows 1024 (a.output file c.addresses)
    if output.d_size ≠ 4 * list.length then some info
    else decodeLoop 0 list (rowMemory output) info

/-! ## Batches -/

/-- The loop of lines 837–838: the objects of a batch, and how many frames it has. -/
def objectHashes : (objectHash : StaticVector UInt64 256) → (info : List StackInfo) →
    StaticVector UInt64 256 × ℕ
  | objectHash, [] => (objectHash, 0)
  | objectHash, s :: info =>
    if objectHash.d_size < 256 then
      let (objectHash, n) := objectHashes (objectHash.insert (objHash s)) info
      (objectHash, n + 1)
    else (objectHash, 0)

/-- The loop of lines 842–849 over the frames `is` of a batch. -/
def listLoop (a : Addr2line) (hash : UInt64) : (is : List ℕ) → (list : StaticVector ℕ 256) →
    (info : List StackInfo) → Option (StaticVector ℕ 256 × List StackInfo)
  | [], list, info => some (list, info)
  | i :: is, list, info => do
    let s ← info[i]?
    let list := if objHash s = hash then list.push_back i else list
    if 256 = list.d_size then do
      let info ← getFileAndLineObject a info list.toList
      listLoop a hash is list.clear info
    else listLoop a hash is list info

/-- The body of the loop over `objectHash` (lines 840–851). -/
def objectLoop (a : Addr2line) (i0 N2 : ℕ) (info : List StackInfo) (hash : UInt64) :
    Option (List StackInfo) := do
  let (list, info) ← listLoop a hash (List.range' i0 (N2 - i0)) .init info
  getFileAndLineObject a info list.toList

/-- The outer loop of `getFileAndLine` (lines 833–853) from `i0` on, in at most `fuel`
    rounds. -/
def getFileAndLineLoop (a : Addr2line) :
    (fuel : ℕ) → (i0 : ℕ) → (info : List StackInfo) → Option (List StackInfo)
  | 0, _, _ => none
  | fuel + 1, i0, info =>
    if i0 < info.length then do
      let (objectHash, n) := objectHashes .init (info.drop i0)
      let info ← objectHash.toList.foldlM (objectLoop a i0 (i0 + n)) info
      getFileAndLineLoop a fuel (i0 + n) info
    else some info

/-- `getFileAndLine` (lines 830–854). A round takes at least one frame. -/
def getFileAndLine (a : Addr2line) (info : List StackInfo) : Option (List StackInfo) :=
  getFileAndLineLoop a (info.length + 1) 0 info

/-! ## What a frame gets -/

/-- The location line that counts for a frame: the one of `address`, unless its function is
    unknown, then that of `address2`. -/
def Addr2line.found (a : Addr2line) (file : Bytes) (s : StackInfo) : Option Bytes :=
  if unknown (a.function file s.address) then
    if unknown (a.function file s.address2) then none else some (a.location file s.address2)
  else some (a.location file s.address)

/-- The frame with the file and line of a location line. -/
def StackInfo.setLocation (s : StackInfo) (location : Bytes) : StackInfo :=
  if location.head? = some 63 then s
  else
    let name := location.takeWhile (· ≠ 58)
    { s with
      filename := (copyPath 64 64 name).1
      filenamePath := (copyPath 64 64 name).2
      line := (atoi (location.drop (name.length + 1)) % 4294967296).toNat.toUInt32 }

/-- The frame with what the object file `file` says about its addresses. -/
def Addr2line.resolve (a : Addr2line) (file : Bytes) (s : StackInfo) : StackInfo :=
  ((a.found file s).map s.setLocation).getD s

/-- What `addr2line` prints for an address are two lines, with a colon in the location, which
    fits into a row of 512 characters. -/
structure Addr2line.ShortAt (a : Addr2line) (file : Bytes) (x : UInt64) : Prop where
  function : IsLine (a.function file x)
  location : IsLine (a.location file x)
  colon : 58 ∈ a.location file x
  length_le : (a.location file x).length ≤ 511

/-- It does so for the addresses of a list of frames. -/
def Addr2line.ShortIn (a : Addr2line) (file : Bytes) (frames : List StackInfo) : Prop :=
  ∀ s ∈ frames, a.ShortAt file s.address ∧ a.ShortAt file s.address2

theorem unknown_iff {tmp : Bytes} : unknown tmp = true ↔ [63, 63] <+: tmp :=
  List.isPrefixOf_iff_prefix

theorem unknown_row {line : Bytes} (hline : IsLine line) (rest : Bytes) :
    unknown ((row (line ++ [10])).toList ++ rest) = unknown line := by
  have hrow : [63, 63] <+: (row (line ++ [10])).toList ↔ [63, 63] <+: line :=
    prefix_row (by decide) (by decide) hline.newline
  rw [Bool.eq_iff_iff, unknown_iff, unknown_iff, ← hrow]
  refine ⟨fun h => ?_, List.prefix_append_of_prefix⟩
  exact List.prefix_of_prefix_length_le h (List.prefix_append _ _)
    (by rw [CharArray.length_toList]; decide)

theorem cstringAt_append {s : Bytes} (hs : 0 ∉ s) (pre rest : Bytes) :
    cstringAt (pre ++ (s ++ 0 :: rest)) pre.length = some s := by
  unfold cstringAt
  rw [List.drop_left, if_pos (by simp), cstr_append_zero hs]

theorem findIdx_of_notMem {s : Bytes} (hs : 58 ∉ s) : s.findIdx (· = 58) = s.length := by
  rw [List.findIdx_eq_length_of_false]
  intro c hc
  simpa using fun h : c = 58 => hs (h ▸ hc)

theorem findIdx_colon {name : Bytes} (hname : 58 ∉ name) (rest : Bytes) :
    (name ++ 58 :: rest).findIdx (· = 58) = name.length := by
  rw [List.findIdx_append, findIdx_of_notMem hname, if_neg (Nat.lt_irrefl _), List.findIdx_cons]
  simp

theorem drop_behind (name number : Bytes) (c : UInt8) :
    (name ++ c :: number).drop (name.length + 1) = number := by
  rw [← List.drop_drop, List.drop_left, List.drop_succ_cons, List.drop_zero]

/-- The colon is overwritten. -/
theorem set_colon (pre name rest : Bytes) :
    (pre ++ (name ++ 58 :: rest)).set (pre.length + name.length) 0 =
      pre ++ (name ++ 0 :: rest) := by
  rw [List.set_append_right _ _ (by omega), Nat.add_sub_cancel_left,
    List.set_append_right _ _ le_rfl, Nat.sub_self]
  rfl

/-- A location row `name:number`: where its colon is, and its two parts after the colon has
    been overwritten. -/
theorem location_row {name number : Bytes} (hloc : IsLine (name ++ 58 :: number))
    (hname : 58 ∉ name) (hlen : (name ++ 58 :: number).length ≤ 511) (pre rest : Bytes) :
    ∃ row' : Bytes, row'.length = 512 ∧
      let output := pre ++ ((row (name ++ 58 :: number ++ [10])).toList ++ rest)
      let output' := pre ++ (row' ++ rest)
      (output.drop pre.length).head? = (name ++ 58 :: number).head? ∧
      min 4095 ((output.drop pre.length).findIdx (· = 58)) = name.length ∧
      output.set (pre.length + name.length) 0 = output' ∧
      cstringAt output' pre.length = some name ∧
      cstringAt output' (pre.length + name.length + 1) = some number := by
  obtain ⟨k, hk⟩ : ∃ k, 512 - (name ++ 58 :: number).length = k + 1 :=
    ⟨511 - (name ++ 58 :: number).length, by omega⟩
  have hrow : (row (name ++ 58 :: number ++ [10])).toList =
      name ++ 58 :: (number ++ 0 :: List.replicate k 0) := by
    rw [row_short hlen, hk, List.replicate_succ, List.append_assoc, List.cons_append]
  have hname0 : 0 ∉ name := fun h => hloc.nul (by simp [h])
  have hnumber0 : 0 ∉ number := fun h => hloc.nul (by simp [h])
  have hlength : (name ++ 0 :: (number ++ 0 :: List.replicate k 0)).length = 512 := by
    have h := (row (name ++ 58 :: number ++ [10])).length_toList
    rw [hrow] at h
    simpa using h
  refine ⟨name ++ 0 :: (number ++ 0 :: List.replicate k 0), hlength, ?_⟩
  rw [hrow]
  simp only [List.drop_left]
  refine ⟨?_, ?_, ?_, ?_, ?_⟩
  · cases name <;> rfl
  · rw [List.append_assoc, List.cons_append, findIdx_colon hname]
    simp at hlen
    omega
  · rw [List.append_assoc, List.cons_append, set_colon, List.append_assoc name, List.cons_append]
  · have h := cstringAt_append hname0 pre (number ++ 0 :: List.replicate k 0 ++ rest)
    simpa using h
  · have h := cstringAt_append hnumber0 (pre ++ (name ++ [0])) (List.replicate k 0 ++ rest)
    simpa [Nat.add_assoc] using h

/-- From a location row the code takes what `setLocation` says, and changes nothing but
    this row. -/
theorem takeLocation_row {loc : Bytes} (hloc : IsLine loc) (hcolon : 58 ∈ loc)
    (hlen : loc.length ≤ 511) (pre rest : Bytes) (s : StackInfo) :
    ∃ row' : Bytes, row'.length = 512 ∧
      takeLocation (pre ++ ((row (loc ++ [10])).toList ++ rest)) pre.length s =
        some (pre ++ (row' ++ rest), s.setLocation loc) := by
  obtain ⟨name, number, rfl, hname⟩ := List.eq_append_cons_of_mem hcolon
  obtain ⟨row', hrow', hhead, hj, hset, hname', hnumber⟩ :=
    location_row hloc hname hlen pre rest
  have hhead0 : (name ++ 58 :: number).head? ≠ some 0 := by
    intro h0
    exact hloc.nul (List.mem_of_mem_head? h0)
  have htake : (name ++ 58 :: number).takeWhile (· ≠ 58) = name := by
    rw [List.takeWhile_append_of_pos]
    · simp
    · intro c hc
      simpa using fun h : c = 58 => hname (h ▸ hc)
  unfold takeLocation StackInfo.setLocation
  simp only [hhead, hhead0, or_false, hj, hset, hname', hnumber, htake, drop_behind]
  split_ifs
  · exact ⟨_, CharArray.length_toList _, rfl⟩
  · exact ⟨row', hrow', rfl⟩

/-- The rows of a frame. -/
def Addr2line.rows (a : Addr2line) (file : Bytes) (s : StackInfo) : Bytes :=
  (row (a.function file s.address ++ [10])).toList ++
    ((row (a.location file s.address ++ [10])).toList ++
      ((row (a.function file s.address2 ++ [10])).toList ++
        (row (a.location file s.address2 ++ [10])).toList))

/-- From the rows of a frame the code takes what `resolve` says, and changes nothing
    outside these rows. -/
theorem decode_rows {a : Addr2line} {file : Bytes} {s : StackInfo}
    (h : a.ShortAt file s.address) (h' : a.ShortAt file s.address2) (pre rest : Bytes) :
    ∃ rows' : Bytes, rows'.length = 2048 ∧
      decode (pre ++ (a.rows file s ++ rest)) pre.length s =
        some (pre ++ (rows' ++ rest), a.resolve file s) := by
  have take : ∀ x, a.ShortAt file x → ∀ pre' rest' : Bytes, ∃ row' : Bytes, row'.length = 512 ∧
      takeLocation (pre' ++ ((row (a.location file x ++ [10])).toList ++ rest')) pre'.length s =
        some (pre' ++ (row' ++ rest'), s.setLocation (a.location file x)) :=
    fun x hx pre' rest' => takeLocation_row hx.location hx.colon hx.length_le pre' rest' s
  unfold Addr2line.rows Addr2line.resolve Addr2line.found
  generalize hr0 : (row (a.function file s.address ++ [10])).toList = r0
  generalize hr1 : (row (a.location file s.address ++ [10])).toList = r1
  generalize hr2 : (row (a.function file s.address2 ++ [10])).toList = r2
  generalize hr3 : (row (a.location file s.address2 ++ [10])).toList = r3
  have hlen : r0.length = 512 ∧ r1.length = 512 ∧ r2.length = 512 ∧ r3.length = 512 := by
    simp [← hr0, ← hr1, ← hr2, ← hr3, CharArray.length_toList]
  obtain ⟨h0, h1, h2, h3⟩ := hlen
  have hdrop0 : (pre ++ (r0 ++ (r1 ++ (r2 ++ r3)) ++ rest)).drop pre.length =
      r0 ++ (r1 ++ (r2 ++ (r3 ++ rest))) := by simp
  have hdrop2 : (pre ++ (r0 ++ (r1 ++ (r2 ++ r3)) ++ rest)).drop (pre.length + 1024) =
      r2 ++ (r3 ++ rest) := by
    have hsplit : pre ++ (r0 ++ (r1 ++ (r2 ++ r3)) ++ rest) =
        (pre ++ (r0 ++ r1)) ++ (r2 ++ (r3 ++ rest)) := by simp
    rw [hsplit, List.drop_left']
    simp [h0, h1]
  have hunknown0 := unknown_row h.function (r1 ++ (r2 ++ (r3 ++ rest)))
  have hunknown2 := unknown_row h'.function (r3 ++ rest)
  rw [hr0] at hunknown0
  rw [hr2] at hunknown2
  unfold decode
  rw [hdrop0, hunknown0]
  split_ifs with hfun hfun2
  · simp only [hdrop2, hunknown2, if_pos hfun2]
    exact ⟨r0 ++ (r1 ++ (r2 ++ r3)), by simp [h0, h1, h2, h3], rfl⟩
  · obtain ⟨row', hrow', htake⟩ := take s.address2 h' (pre ++ (r0 ++ (r1 ++ r2))) rest
    rw [hr3] at htake
    refine ⟨r0 ++ (r1 ++ (r2 ++ row')), by simp [h0, h1, h2, hrow'], ?_⟩
    simp only [hdrop2, hunknown2, if_neg hfun2]
    simpa [h0, h1, h2, Nat.add_assoc] using htake
  · obtain ⟨row', hrow', htake⟩ := take s.address h (pre ++ r0) (r2 ++ (r3 ++ rest))
    rw [hr1] at htake
    refine ⟨r0 ++ (row' ++ (r2 ++ r3)), by simp [h0, h2, h3, hrow'], ?_⟩
    simp only [hdrop0, hunknown0, if_neg hfun]
    simpa [h0] using htake

end StackTrace
