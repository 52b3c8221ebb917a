import StackTrace.Base.Fallible
import StackTrace.Symbols.FileAndLine

/-!
# What `getFileAndLineObject` does to a list of frames

The command asks about the object file of the first frame, and all frames of the list
get their answers if it holds all their addresses; otherwise no frame changes.

* `getFileAndLineObject_eq`: for names that end in a NUL and an `addr2line` that prints
  short lines, `getFileAndLineObject` replaces each frame of its list by its `answer`.
-/

namespace StackTrace

/-! ## Abstract behaviour -/

/-- The names of the frame end in a NUL. -/
structure StackInfo.Named (s : StackInfo) : Prop where
  object : s.object.Terminated
  objectPath : s.objectPath.Terminated

/-- The object file of a frame. -/
def StackInfo.objectFile (s : StackInfo) : Bytes :=
  if s.objectPath.str = [] then s.object.str else s.objectPath.str ++ 47 :: s.object.str

namespace Addr2line

variable (a : Addr2line)

/-- The command for a list of frames, before its last part is added. -/
def asked : (frames : List StackInfo) → Command
  | [] => ⟨[], []⟩
  | first :: frames => addAddresses (a.start first.objectFile) (first :: frames)

/-- The command for the frames leaves room in `cmd` for its NUL. -/
def Fits (frames : List StackInfo) : Prop :=
  ((a.asked frames).cmd ++ ascii " 2> /dev/null").length < 4096

/-- `addr2line` prints short lines for what the command asks about. -/
def Short (frames : List StackInfo) : Prop :=
  ∀ first ∈ frames.head?, a.ShortIn first.objectFile frames

/-- The command has the addresses of all frames. -/
def Complete (frames : List StackInfo) : Prop :=
  (a.asked frames).addresses.length = 2 * frames.length

instance (frames : List StackInfo) : Decidable (a.Fits frames) :=
  inferInstanceAs (Decidable (_ < _))

instance (frames : List StackInfo) : Decidable (a.Complete frames) :=
  inferInstanceAs (Decidable (_ = _))

/-- What a frame of the list becomes. -/
def answer (frames : List StackInfo) (s : StackInfo) : StackInfo :=
  if a.Complete frames then a.resolve ((frames.head?.map StackInfo.objectFile).getD []) s else s

end Addr2line

/-- The frames at the indices `ks`. -/
def framesAt (info : List StackInfo) (ks : List ℕ) : List StackInfo :=
  ks.map fun k => info.getD k .init

/-- The array with `f` applied at the indices `ks`. -/
def updateAt (f : StackInfo → StackInfo) (ks : List ℕ) (info : List StackInfo) : List StackInfo :=
  info.mapIdx fun i s => if i ∈ ks then f s else s

/-! ## Indices -/

theorem getElem?_updateAt (f : StackInfo → StackInfo) (ks : List ℕ) (info : List StackInfo)
    (i : ℕ) : (updateAt f ks info)[i]? = (info[i]?).map fun s => if i ∈ ks then f s else s := by
  simp [updateAt]

@[simp] theorem length_updateAt (f : StackInfo → StackInfo) (ks : List ℕ) (info : List StackInfo) :
    (updateAt f ks info).length = info.length := by
  simp [updateAt]

theorem updateAt_cons {f : StackInfo → StackInfo} {k : ℕ} {ks : List ℕ} {info : List StackInfo}
    {s : StackInfo} (hk : info[k]? = some s) (hks : k ∉ ks) :
    updateAt f ks (info.set k (f s)) = updateAt f (k :: ks) info := by
  refine List.ext_getElem? fun i => ?_
  rw [getElem?_updateAt, getElem?_updateAt, List.getElem?_set]
  by_cases hi : k = i
  · subst hi
    have hlt : k < info.length := (List.getElem?_eq_some_iff.mp hk).1
    rw [hk, if_pos rfl, if_pos hlt]
    simp [hks]
  · simp [hi, Ne.symm hi]

theorem framesAt_set {k : ℕ} {ks : List ℕ} (hks : k ∉ ks) (info : List StackInfo) (s : StackInfo) :
    framesAt (info.set k s) ks = framesAt info ks := by
  refine List.map_congr_left fun j hj => ?_
  have hne : k ≠ j := fun h => hks (h ▸ hj)
  simp [List.getD_eq_getElem?_getD, hne]

theorem mapM_getElem? {info : List StackInfo} {ks : List ℕ} (h : ∀ k ∈ ks, k < info.length) :
    (ks.mapM fun k => info[k]?) = some (framesAt info ks) := by
  refine mapM_eq_some fun k hk => ?_
  rw [List.getElem?_eq_getElem (h k hk), List.getD_eq_getElem _ _ (h k hk)]

/-! ## The command -/

theorem fileName_eq {s : StackInfo} (h : s.Named) : fileName s = some s.objectFile := by
  have hnil : s.objectPath.toList.head? = some 0 ↔ s.objectPath.str = [] := by
    unfold CharArray.str cstr
    have hlen := s.objectPath.length_toList
    cases hs : s.objectPath.toList with
    | nil => simp [hs] at hlen
    | cons c cs => simp [List.takeWhile_cons]
  unfold fileName StackInfo.objectFile
  simp only [hnil, CharArray.text_of_terminated h.object, CharArray.text_of_terminated h.objectPath]
  split_ifs <;> rfl

theorem command_eq (a : Addr2line) (first : StackInfo) (frames : List StackInfo) :
    a.command first.objectFile (first :: frames) =
      if a.Fits (first :: frames) then
        some ⟨(a.asked (first :: frames)).cmd ++ ascii " 2> /dev/null",
          (a.asked (first :: frames)).addresses⟩
      else none := rfl

/-- The command has the addresses of the first frames. -/
theorem addAddresses_addresses (c : Command) (info : List StackInfo) :
    ∃ m ≤ info.length, (addAddresses c info).addresses =
      c.addresses ++ (info.take m).flatMap fun s => [s.address, s.address2] := by
  induction info generalizing c with
  | nil => exact ⟨0, le_rfl, by simp [addAddresses]⟩
  | cons s info ih =>
    rw [addAddresses]
    split_ifs
    · obtain ⟨m, hm, haddresses⟩ :=
        ih ⟨c.cmd ++ addressText s, c.addresses ++ [s.address, s.address2]⟩
      refine ⟨m + 1, by simpa using hm, ?_⟩
      rw [haddresses]
      simp
    · exact ⟨0, by omega, by simp⟩

theorem length_pairs (info : List StackInfo) :
    (info.flatMap fun s => [s.address, s.address2]).length = 2 * info.length := by
  simp [List.length_flatMap, mul_comm]

/-! ## The rows -/

theorem toList_foldl_push_back {blockSize : ℕ} (v : StaticVector (CharArray 512) blockSize)
    {lines : List Bytes} (h : v.d_size + lines.length ≤ blockSize) :
    (lines.foldl (fun out line => out.push_back (row line)) v).toList =
      v.toList ++ lines.map row := by
  induction lines generalizing v with
  | nil => simp
  | cons line lines ih =>
    rw [List.length_cons] at h
    have hpush : (v.push_back (row line)).toList = v.toList ++ [row line] := by
      rw [StaticVector.toList_push_back, if_pos (by omega)]
    have hsize : (v.push_back (row line)).d_size = v.d_size + 1 := by
      have hlen := congrArg List.length hpush
      simpa using hlen
    rw [List.foldl_cons, ih _ (by omega), hpush]
    simp

variable {a : Addr2line}

/-- The rows of the answers to `addresses`. -/
theorem exec2Rows_output {file : Bytes} {addresses : List UInt64}
    (h : ∀ x ∈ addresses, a.ShortAt file x) (hlen : 2 * addresses.length ≤ 1024) :
    (exec2Rows 1024 (a.output file addresses)).toList = addresses.flatMap fun x =>
      [row (a.function file x ++ [10]), row (a.location file x ++ [10])] := by
  have houtput : a.output file addresses =
      (addresses.flatMap fun x => [a.function file x, a.location file x]).flatMap
        fun line => line ++ [10] := by
    rw [List.flatMap_assoc]
    simp [Addr2line.output]
  have hlines : ∀ line ∈ addresses.flatMap fun x => [a.function file x, a.location file x],
      IsLine line := by
    intro line hline
    obtain ⟨x, hx, hline⟩ := List.mem_flatMap.mp hline
    obtain rfl | rfl : line = a.function file x ∨ line = a.location file x := by simpa using hline
    · exact (h x hx).function
    · exact (h x hx).location
  unfold exec2Rows
  rw [houtput, exec2_lines hlines, toList_foldl_push_back]
  · simp [List.map_flatMap]
  · show 0 + _ ≤ 1024
    simp [List.length_flatMap]
    omega

theorem rowMemory_eq {blockSize : ℕ} (v : StaticVector (CharArray 512) blockSize) :
    ∃ rest, rowMemory v = v.toList.flatMap CharArray.toList ++ rest := by
  refine ⟨(v.d_data.toList.drop v.d_size).flatMap CharArray.toList, ?_⟩
  rw [StaticVector.toList, ← List.flatMap_append, List.take_append_drop]
  rfl

/-- Where the command has all addresses, the rows of the frames come one after the other. -/
theorem rows_of_complete (file : Bytes) (frames : List StackInfo) :
    ((frames.flatMap fun s => [s.address, s.address2]).flatMap fun x =>
      [row (a.function file x ++ [10]), row (a.location file x ++ [10])]).flatMap
        CharArray.toList = frames.flatMap (a.rows file) := by
  induction frames with
  | nil => rfl
  | cons s frames ih =>
    simp only [List.flatMap_cons, List.flatMap_append, ih]
    simp [Addr2line.rows]

theorem decodeLoop_rows {file : Bytes} {ks : List ℕ} {info : List StackInfo}
    (h : a.ShortIn file (framesAt info ks)) (hnodup : ks.Nodup)
    (hks : ∀ k ∈ ks, k < info.length) {i : ℕ} (pre : Bytes)
    (hpre : pre.length = 512 * (4 * i)) (rest : Bytes) :
    decodeLoop i ks (pre ++ ((framesAt info ks).flatMap (a.rows file) ++ rest)) info =
      some (updateAt (a.resolve file) ks info) := by
  induction ks generalizing i pre info with
  | nil =>
    rw [decodeLoop]
    congr 1
    exact List.ext_getElem? fun i => by simp [getElem?_updateAt]
  | cons k ks ih =>
    obtain ⟨hk, hnodup⟩ := List.nodup_cons.mp hnodup
    have hget : info[k]? = some (info.getD k .init) := by simp [hks k (by simp)]
    obtain ⟨hfirst, hothers⟩ := List.forall_mem_cons.mp h
    obtain ⟨rows', hrows', hdecode⟩ := decode_rows hfirst.1 hfirst.2 pre
      ((framesAt info ks).flatMap (a.rows file) ++ rest)
    have hpre' : (pre ++ rows').length = 512 * (4 * (i + 1)) := by
      rw [List.length_append, hpre, hrows']
      omega
    have hks' : ∀ j ∈ ks, j < (info.set k (a.resolve file (info.getD k .init))).length :=
      fun j hj => by simpa using hks j (by simp [hj])
    have hothers' : a.ShortIn file
        (framesAt (info.set k (a.resolve file (info.getD k .init))) ks) := by
      rwa [framesAt_set hk]
    have hrest := ih hothers' hnodup hks' (pre ++ rows') hpre'
    rw [framesAt_set hk, updateAt_cons hget hk, List.append_assoc] at hrest
    rw [hpre] at hdecode
    have hframes : (framesAt info (k :: ks)).flatMap (a.rows file) ++ rest =
        a.rows file (info.getD k .init) ++ ((framesAt info ks).flatMap (a.rows file) ++ rest) := by
      simp [framesAt]
    rw [decodeLoop, hget, hframes]
    simp only [Option.bind_eq_bind, Option.bind_some, hdecode, hrest]

/-! ## Main result -/

theorem updateAt_self (ks : List ℕ) (info : List StackInfo) :
    updateAt (fun s => s) ks info = info :=
  List.ext_getElem? fun i => by simp [getElem?_updateAt]

/-- The frames of the list get their answers. -/
theorem getFileAndLineObject_eq {info : List StackInfo} {ks : List ℕ}
    (h : a.Short (framesAt info ks)) (hnames : ∀ s ∈ info, s.Named) (hnodup : ks.Nodup)
    (hks : ∀ k ∈ ks, k < info.length) (hlen : ks.length ≤ 256) :
    getFileAndLineObject a info ks =
      if a.Fits (framesAt info ks) then some (updateAt (a.answer (framesAt info ks)) ks info)
      else none := by
  unfold getFileAndLineObject
  rw [mapM_getElem? hks, Option.bind_eq_bind, Option.bind_some]
  have hcount : (framesAt info ks).length = ks.length := List.length_map _
  cases ks with
  | nil =>
    have hfits : a.Fits (framesAt info []) := by
      show (ascii " 2> /dev/null").length < 4096
      decide
    rw [if_pos hfits]
    exact congrArg some (List.ext_getElem? fun i => by simp [getElem?_updateAt])
  | cons k ks =>
    have hk : k < info.length := hks k (by simp)
    set first := info.getD k .init with hfirst
    have hnamed : first.Named := by
      rw [hfirst, List.getD_eq_getElem _ _ hk]
      exact hnames _ (List.getElem_mem hk)
    have hframes : framesAt info (k :: ks) = first :: framesAt info ks := rfl
    rw [hframes] at hcount h ⊢
    have hshort : a.ShortIn first.objectFile (first :: framesAt info ks) := h first rfl
    simp only [fileName_eq hnamed, Option.bind_eq_bind, Option.bind_some, command_eq]
    split_ifs with hfits
    · obtain ⟨m, hm, haddresses⟩ := addAddresses_addresses (a.start first.objectFile)
        (first :: framesAt info ks)
      have hasked : (a.asked (first :: framesAt info ks)).addresses =
          ((first :: framesAt info ks).take m).flatMap fun s => [s.address, s.address2] :=
        haddresses
      have htake : ((first :: framesAt info ks).take m).length = m := by
        rw [List.length_take, min_eq_left hm]
      have hlength : (a.asked (first :: framesAt info ks)).addresses.length = 2 * m := by
        rw [hasked, length_pairs, htake]
      have hle : 2 * (a.asked (first :: framesAt info ks)).addresses.length ≤ 1024 := by omega
      have hasks : ∀ x ∈ (a.asked (first :: framesAt info ks)).addresses,
          a.ShortAt first.objectFile x := by
        intro x hx
        rw [hasked] at hx
        obtain ⟨s, hs, hx⟩ := List.mem_flatMap.mp hx
        obtain rfl | rfl : x = s.address ∨ x = s.address2 := by simpa using hx
        · exact (hshort s (List.mem_of_mem_take hs)).1
        · exact (hshort s (List.mem_of_mem_take hs)).2
      have hrows := exec2Rows_output hasks hle
      have hsize := congrArg List.length hrows
      rw [StaticVector.length_toList, List.length_flatMap] at hsize
      simp only [List.length_cons, List.length_nil, List.map_const', List.sum_replicate,
        smul_eq_mul, hlength] at hsize
      simp only [Option.bind_some]
      unfold Addr2line.answer
      have hcomplete : a.Complete (first :: framesAt info ks) ↔
          m = (first :: framesAt info ks).length := by
        unfold Addr2line.Complete
        rw [hlength]
        omega
      by_cases hall : m = (first :: framesAt info ks).length
      · simp only [if_pos (hcomplete.mpr hall)]
        rw [if_neg (by omega)]
        obtain ⟨rest, hmemory⟩ := rowMemory_eq
          (exec2Rows 1024
            (a.output first.objectFile (a.asked (first :: framesAt info ks)).addresses))
        rw [hmemory, hrows, hasked, hall, List.take_length, rows_of_complete]
        exact decodeLoop_rows hshort hnodup hks [] rfl rest
      · simp only [if_neg (mt hcomplete.mp hall)]
        rw [if_pos (by omega), updateAt_self]
    · rfl

end StackTrace
