import StackTrace.Symbols.Answer

/-!
# The rows of a frame

The loop of `StackTrace.cpp`, lines 764–788, with every index that it uses in a row of
512 characters. The `for` of line 783 looks for the colon in up to 4095 characters, and
a row that a line has filled to its end has no NUL.

* `decode_eq_some`: the indices are those of `decode`, which wants a NUL behind the number,
  where `atoi` reads no further than to the byte that ends it.
* `ownRows_iff`: every frame keeps to its own rows if and only if in each row that is
  searched there is a colon and the number behind it ends.
-/

namespace StackTrace

/-! ## The indices that are used -/

/-- What a round of the loop leaves: the memory of `output`, the frame, and the indices
    that it has used in the rows. -/
structure Round where
  output : Bytes
  frame : StackInfo
  indices : List ℕ

/-- The round behind other reads. -/
def Round.behind (indices : List ℕ) (r : Round) : Round :=
  { r with indices := indices ++ r.indices }

/-- `tmp[0] == '?' && tmp[1] == '?'`. -/
def unknownIndices (tmp : Bytes) : List ℕ := if tmp.head? = some 63 then [0, 1] else [0]

/-- Lines 780–787: the loop and the NUL, then `copy` and then `atoi`. -/
def takeLocationRound (output : Bytes) (buf : ℕ) (s : StackInfo) : Option Round :=
  if (output.drop buf).head? = some 63 ∨ (output.drop buf).head? = some 0 then
    some ⟨output, s, [0]⟩
  else
    let j := min 4095 ((output.drop buf).findIdx (· = 58))
    let output := output.set (buf + j) 0
    do
      let name ← cstringAt output buf
      let (value, _) ← strtol 10 (output.drop (buf + j + 1))
      some
        { output := output
          frame :=
            { s with
              filename := (copyPath 64 64 name).1
              filenamePath := (copyPath 64 64 name).2
              line := (value.bmod 4294967296 % 4294967296).toNat.toUInt32 }
          indices := List.range (j + 1) ++ List.range (name.length + 1) ++
            List.range' (j + 1) (numberLength (output.drop (buf + j + 1)) + 1) }

/-- One round of the loop, where `p` is the offset of the row `4 * i`. -/
def decodeRound (output : Bytes) (p : ℕ) (s : StackInfo) : Option Round :=
  let (tmp1, tmp2) := if unknown (output.drop p) then (p + 1024, p + 1536) else (p, p + 512)
  let indices := unknownIndices (output.drop p) ++ unknownIndices (output.drop tmp1)
  if unknown (output.drop tmp1) then some ⟨output, s, indices⟩
  else (takeLocationRound output tmp2 s).map (Round.behind indices)

/-- The loop over the frames from the row at `p` on: the memory of `output`, and each frame
    with the indices that its round has used. -/
def decodeRounds : (frames : List StackInfo) → (p : ℕ) → (output : Bytes) →
    Option (Bytes × List (StackInfo × List ℕ))
  | [], _, output => some (output, [])
  | s :: frames, p, output => do
    let r ← decodeRound output p s
    let (output, rs) ← decodeRounds frames (p + 2048) r.output
    some (output, (r.frame, r.indices) :: rs)

/-! ## The rounds and `decode` -/

theorem strtol_cstr {s : Bytes} (hs : 0 ∈ s) :
    ∃ r, strtol 10 s = some r ∧ strtol 10 (cstr s ++ [0]) = some r := by
  obtain ⟨rest, hrest⟩ : ∃ rest, s = cstr s ++ [0] ++ rest := by
    obtain ⟨t, rest, rfl, ht⟩ := List.eq_append_cons_of_mem hs
    exact ⟨rest, by rw [cstr_append_zero ht, List.append_assoc, List.singleton_append]⟩
  have hsome : (strtol 10 (cstr s ++ [0])).isSome = true := strtol_isSome (by simp)
  obtain ⟨r, hr⟩ := Option.isSome_iff_exists.mp hsome
  refine ⟨r, ?_, hr⟩
  rw [hrest, strtol_append (strtol_isSome_iff.mp hsome), hr]

theorem takeLocation_eq_some {output : Bytes} {buf : ℕ} {s : StackInfo} {r : Bytes × StackInfo}
    (h : takeLocation output buf s = some r) :
    ∃ is, takeLocationRound output buf s = some ⟨r.1, r.2, is⟩ := by
  unfold takeLocation at h
  unfold takeLocationRound
  split_ifs at h ⊢ with hhead
  · obtain rfl := Option.some.inj h
    exact ⟨[0], rfl⟩
  · obtain ⟨name, hname, h⟩ := Option.bind_eq_some_iff.mp h
    obtain ⟨number, hnumber, h⟩ := Option.bind_eq_some_iff.mp h
    obtain rfl := Option.some.inj h
    unfold cstringAt at hnumber
    split_ifs at hnumber with hzero
    obtain rfl := Option.some.inj hnumber
    obtain ⟨v, hv, hv'⟩ := strtol_cstr hzero
    simp only [hname, hv, Option.bind_eq_bind, Option.bind_some]
    unfold atoi
    rw [hv']
    exact ⟨_, rfl⟩

/-- Where `decode` has a result, the round has the same one. -/
theorem decode_eq_some {output : Bytes} {p : ℕ} {s : StackInfo} {r : Bytes × StackInfo}
    (h : decode output p s = some r) : ∃ is, decodeRound output p s = some ⟨r.1, r.2, is⟩ := by
  unfold decode at h
  unfold decodeRound
  generalize (if unknown (output.drop p) then (p + 1024, p + 1536) else (p, p + 512)) = tmp at h ⊢
  obtain ⟨tmp1, tmp2⟩ := tmp
  dsimp only at h ⊢
  split_ifs at h ⊢ with hunknown
  · obtain rfl := Option.some.inj h
    exact ⟨_, rfl⟩
  · obtain ⟨is, his⟩ := takeLocation_eq_some h
    rw [his]
    exact ⟨_, rfl⟩

/-- The frames of `info` with new values. -/
def setFrames (info : List StackInfo) (ks : List ℕ) (frames : List StackInfo) : List StackInfo :=
  (ks.zip frames).foldl (fun info x => info.set x.1 x.2) info

/-- So has the loop. -/
theorem decodeLoop_eq_some {ks : List ℕ} (hnodup : ks.Nodup) {i : ℕ} {output : Bytes}
    {info info' : List StackInfo} (h : decodeLoop i ks output info = some info') :
    ∃ output' rs, decodeRounds (framesAt info ks) (512 * (4 * i)) output = some (output', rs) ∧
      info' = setFrames info ks (rs.map Prod.fst) := by
  induction ks generalizing i output info with
  | nil =>
    obtain rfl := Option.some.inj h
    exact ⟨output, [], rfl, rfl⟩
  | cons k ks ih =>
    obtain ⟨hk, hnodup⟩ := List.nodup_cons.mp hnodup
    obtain ⟨s, hs, h⟩ := Option.bind_eq_some_iff.mp h
    obtain ⟨⟨output', s'⟩, hdecode, h⟩ := Option.bind_eq_some_iff.mp h
    obtain ⟨is, his⟩ := decode_eq_some hdecode
    obtain ⟨output'', rs, hrs, hinfo⟩ := ih hnodup h
    rw [framesAt_set hk] at hrs
    refine ⟨output'', (s', is) :: rs, ?_, hinfo⟩
    have hframes : framesAt info (k :: ks) = s :: framesAt info ks := by
      simp [framesAt, List.getD_eq_getElem?_getD, hs]
    have hnext : 512 * (4 * i) + 2048 = 512 * (4 * (i + 1)) := by omega
    rw [hframes, decodeRounds, his, hnext]
    show ((decodeRounds (framesAt info ks) (512 * (4 * (i + 1))) output').bind _) = _
    rw [hrs]
    rfl

/-! ## One frame -/

/-- Nothing of the row is used, or it has a colon and the number behind it ends in the row. -/
def LocationEnds (row : Bytes) : Prop :=
  row.head? = some 63 ∨ row.head? = some 0 ∨
    58 ∈ row ∧ behindNumber (row.drop (row.findIdx (· = 58) + 1)) ≠ []

/-- The rows `4 * i` to `4 * i + 3`. -/
structure FrameRows where
  function : CharArray 512
  location : CharArray 512
  function2 : CharArray 512
  location2 : CharArray 512

namespace FrameRows

def toList (r : FrameRows) : Bytes :=
  r.function.toList ++ (r.location.toList ++ (r.function2.toList ++ r.location2.toList))

/-- The row that is searched for a colon, if there is one, ends in time. -/
def LocationEnds (r : FrameRows) : Prop :=
  if unknown r.function.toList then
    unknown r.function2.toList ∨ StackTrace.LocationEnds r.location2.toList
  else StackTrace.LocationEnds r.location.toList

theorem length_toList (r : FrameRows) : r.toList.length = 2048 := by
  simp [toList, CharArray.length_toList]

end FrameRows

/-- The round with its memory between other memory. -/
def Round.between (pre post : Bytes) (r : Round) : Round :=
  { r with output := pre ++ (r.output ++ post) }

/-- Wherever its rows are, the round does the same with them and nothing to other memory, and
    it uses no index from 512 on. -/
def Keeps (round : Bytes → ℕ → StackInfo → Option Round) (rows : Bytes) (s : StackInfo) : Prop :=
  ∃ r : Round, r.output.length = rows.length ∧ (∀ k ∈ r.indices, k < 512) ∧
    ∀ pre post, round (pre ++ (rows ++ post)) pre.length s = some (r.between pre post)

/-- Wherever its rows are, the round uses an index from 512 on or leaves all memory. -/
def Leaves (round : Bytes → ℕ → StackInfo → Option Round) (rows : Bytes) (s : StackInfo) : Prop :=
  ∀ (pre post : Bytes) (r : Round), round (pre ++ (rows ++ post)) pre.length s = some r →
    ∃ k ∈ r.indices, 512 ≤ k

theorem drop_colon {name : Bytes} (hname : 58 ∉ name) (number : Bytes) :
    (name ++ 58 :: number).drop ((name ++ 58 :: number).findIdx (· = 58) + 1) = number := by
  rw [findIdx_colon hname, drop_behind]

theorem head?_append_row {row : Bytes} (hlen : row.length = 512) (post : Bytes) :
    (row ++ post).head? = row.head? :=
  List.head?_append_of_ne_nil _ (List.ne_nil_of_length_pos (by omega))

/-- What is taken of a row with a colon. -/
theorem takeLocationRound_colon {name number : Bytes} (hname : 58 ∉ name)
    (hlen : name.length < 512) (hhead : (name ++ 58 :: number).head? ≠ some 63)
    (hhead0 : (name ++ 58 :: number).head? ≠ some 0) (pre post : Bytes) (s : StackInfo) :
    takeLocationRound (pre ++ (name ++ 58 :: number ++ post)) pre.length s =
      (strtol 10 (number ++ post)).map fun v =>
        { output := pre ++ (name ++ 0 :: number ++ post)
          frame :=
            { s with
              filename := (copyPath 64 64 (cstr name)).1
              filenamePath := (copyPath 64 64 (cstr name)).2
              line := (v.1.bmod 4294967296 % 4294967296).toNat.toUInt32 }
          indices := List.range (name.length + 1) ++ List.range ((cstr name).length + 1) ++
            List.range' (name.length + 1) (numberLength (number ++ post) + 1) } := by
  have hfind := findIdx_colon hname (number ++ post)
  have hset := set_colon pre name (number ++ post)
  have hcstr : cstringAt (pre ++ (name ++ 0 :: (number ++ post))) pre.length =
      some (cstr name) := by
    unfold cstringAt cstr
    rw [List.drop_left, if_pos (by simp), List.takeWhile_append]
    split_ifs with hall
    · have htake := (List.takeWhile_prefix (fun c : UInt8 => decide (c ≠ 0))).eq_of_length hall
      simpa using htake.symm
    · rfl
  have hdrop : (pre ++ (name ++ 0 :: (number ++ post))).drop (pre.length + name.length + 1) =
      number ++ post := by
    have hsplit : pre ++ (name ++ 0 :: (number ++ post)) =
        pre ++ (name ++ [0]) ++ (number ++ post) := by simp
    rw [hsplit, List.drop_left']
    simp [Nat.add_assoc]
  have hhead' : (name ++ 58 :: (number ++ post)).head? = (name ++ 58 :: number).head? := by
    cases name <;> rfl
  unfold takeLocationRound
  simp only [List.append_assoc, List.cons_append, List.drop_left, hhead', hhead, hhead0, or_self,
    if_false, hfind, min_eq_right (show name.length ≤ 4095 by omega), hset, hcstr, hdrop,
    Option.bind_eq_bind, Option.bind_some]
  cases strtol 10 (number ++ post) <;> rfl

/-- A row without a colon is left. -/
theorem leaves_of_notMem {row : Bytes} (hlen : row.length = 512)
    (hhead : row.head? ≠ some 63) (hhead0 : row.head? ≠ some 0) (hcolon : 58 ∉ row)
    (s : StackInfo) : Leaves takeLocationRound row s := by
  intro pre post r hr
  have hfind : 512 ≤ min 4095 ((row ++ post).findIdx (· = 58)) := by
    rw [List.findIdx_append, findIdx_of_notMem hcolon, if_neg (Nat.lt_irrefl _)]
    omega
  unfold takeLocationRound at hr
  simp only [List.drop_left, head?_append_row hlen, hhead, hhead0, or_self, if_false] at hr
  obtain ⟨name, -, hr⟩ := Option.bind_eq_some_iff.mp hr
  obtain ⟨v, -, hr⟩ := Option.bind_eq_some_iff.mp hr
  obtain rfl := Option.some.inj hr
  have hmem := List.mem_range.mpr (Nat.lt_succ_self (min 4095 ((row ++ post).findIdx (· = 58))))
  exact ⟨_, List.mem_append_left _ (List.mem_append_left _ hmem), hfind⟩

theorem keeps_takeLocationRound {row : Bytes} (hlen : row.length = 512) (h : LocationEnds row)
    (s : StackInfo) : Keeps takeLocationRound row s := by
  by_cases hhead : row.head? = some 63 ∨ row.head? = some 0
  · refine ⟨⟨row, s, [0]⟩, rfl, by simp, fun pre post => ?_⟩
    unfold takeLocationRound
    rw [List.drop_left, head?_append_row hlen, if_pos hhead]
    rfl
  · obtain ⟨hhead, hhead0⟩ := not_or.mp hhead
    obtain ⟨hcolon, hends⟩ := (h.resolve_left hhead).resolve_left hhead0
    obtain ⟨name, number, rfl, hname⟩ := List.eq_append_cons_of_mem hcolon
    rw [drop_colon hname] at hends
    rw [List.length_append, List.length_cons] at hlen
    obtain ⟨v, hv⟩ := Option.isSome_iff_exists.mp (strtol_isSome_iff.mpr hends)
    refine ⟨⟨name ++ 0 :: number, { s with
      filename := (copyPath 64 64 (cstr name)).1
      filenamePath := (copyPath 64 64 (cstr name)).2
      line := (v.1.bmod 4294967296 % 4294967296).toNat.toUInt32 }, List.range (name.length + 1) ++
        List.range ((cstr name).length + 1) ++
          List.range' (name.length + 1) (numberLength number + 1)⟩, by simp, ?_, ?_⟩
    · have hcstr : (cstr name).length ≤ name.length := (List.takeWhile_prefix _).length_le
      have hnumber : 0 < (behindNumber number).length := List.length_pos_of_ne_nil hends
      have hle : (behindNumber number).length ≤ number.length :=
        (behindNumber_suffix number).length_le
      intro k hk
      simp only [List.mem_append, List.mem_range, List.mem_range'_1, numberLength] at hk
      omega
    · intro pre post
      have h := takeLocationRound_colon hname (by omega) hhead hhead0 pre post s
      rw [strtol_append hends, hv, numberLength_append hends] at h
      exact h

theorem leaves_takeLocationRound {row : Bytes} (hlen : row.length = 512)
    (h : ¬ LocationEnds row) (s : StackInfo) :
    Leaves takeLocationRound row s := by
  obtain ⟨hhead, hhead0, hends⟩ : row.head? ≠ some 63 ∧ row.head? ≠ some 0 ∧
      ¬ (58 ∈ row ∧ behindNumber (row.drop (row.findIdx (· = 58) + 1)) ≠ []) := by
    unfold LocationEnds at h
    tauto
  by_cases hcolon : 58 ∈ row
  · obtain ⟨name, number, rfl, hname⟩ := List.eq_append_cons_of_mem hcolon
    rw [drop_colon hname] at hends
    rw [List.length_append, List.length_cons] at hlen
    have hnil : behindNumber number = [] := by
      by_contra hne
      exact hends ⟨hcolon, hne⟩
    intro pre post r hr
    have h := takeLocationRound_colon hname (by omega) hhead hhead0 pre post s
    obtain ⟨v, -, rfl⟩ := Option.map_eq_some_iff.mp (h.symm.trans hr)
    -- the byte that ends the number is behind the row
    have hle : (behindNumber (number ++ post)).length ≤ post.length :=
      (behindNumber_suffix_of_eq_nil hnil post).length_le
    refine ⟨name.length + 1 + numberLength (number ++ post), ?_, ?_⟩
    · refine List.mem_append_right _ (List.mem_range'_1.mpr ?_)
      omega
    · unfold numberLength
      rw [List.length_append]
      omega
  · exact leaves_of_notMem hlen hhead hhead0 hcolon s

theorem unknownIndices_lt (tmp : Bytes) : ∀ k ∈ unknownIndices tmp, k < 512 := by
  intro k hk
  unfold unknownIndices at hk
  split_ifs at hk
  · simp only [List.mem_cons, List.not_mem_nil, or_false] at hk
    omega
  · rw [List.mem_singleton.mp hk]
    omega

theorem unknown_append_row {row : Bytes} (hlen : row.length = 512) (rest : Bytes) :
    unknown (row ++ rest) = unknown row ∧ unknownIndices (row ++ rest) = unknownIndices row := by
  obtain _ | ⟨c, _ | ⟨d, row⟩⟩ := row
  · simp at hlen
  · simp at hlen
  · exact ⟨by simp [unknown, List.isPrefixOf], rfl⟩

/-- Either no location is taken, or one row is searched for it. -/
theorem decodeRound_cases (rows : FrameRows) (s : StackInfo) :
    (rows.LocationEnds ∧ ∃ is, (∀ k ∈ is, k < 512) ∧ ∀ pre post,
      decodeRound (pre ++ (rows.toList ++ post)) pre.length s =
        some ⟨pre ++ (rows.toList ++ post), s, is⟩) ∨
    ∃ before row after is, rows.toList = before ++ (row ++ after) ∧ row.length = 512 ∧
      (rows.LocationEnds ↔ StackTrace.LocationEnds row) ∧ (∀ k ∈ is, k < 512) ∧ ∀ pre post,
        decodeRound (pre ++ (rows.toList ++ post)) pre.length s =
          (takeLocationRound (pre ++ (rows.toList ++ post)) (pre.length + before.length) s).map
            (Round.behind is) := by
  have hindices := fun tmp tmp' : Bytes => List.forall_mem_append.mpr
    ⟨unknownIndices_lt tmp, unknownIndices_lt tmp'⟩
  have hdrop : ∀ pre post, (pre ++ (rows.toList ++ post)).drop pre.length =
      rows.function.toList ++ (rows.location.toList ++
        (rows.function2.toList ++ (rows.location2.toList ++ post))) := by
    intro pre post
    simp [FrameRows.toList]
  have hdrop2 : ∀ pre post, (pre ++ (rows.toList ++ post)).drop (pre.length + 1024) =
      rows.function2.toList ++ (rows.location2.toList ++ post) := by
    intro pre post
    have hsplit : pre ++ (rows.toList ++ post) =
        (pre ++ (rows.function.toList ++ rows.location.toList)) ++
          (rows.function2.toList ++ (rows.location2.toList ++ post)) := by
      simp [FrameRows.toList]
    rw [hsplit, List.drop_left']
    simp [CharArray.length_toList]
  have hu := fun rest => unknown_append_row rows.function.length_toList rest
  have hu2 := fun rest => unknown_append_row rows.function2.length_toList rest
  unfold FrameRows.LocationEnds decodeRound
  by_cases hfun : unknown rows.function.toList = true
  · by_cases hfun2 : unknown rows.function2.toList = true
    · refine .inl ⟨?_, _, hindices rows.function.toList rows.function2.toList, fun pre post => ?_⟩
      · rw [if_pos hfun]
        exact .inl hfun2
      · simp only [hdrop, hdrop2, hu, hu2, hfun, hfun2, if_true]
    · refine .inr ⟨rows.function.toList ++ (rows.location.toList ++ rows.function2.toList),
        rows.location2.toList, [], _, ?_, CharArray.length_toList _, ?_,
        hindices rows.function.toList rows.function2.toList, fun pre post => ?_⟩
      · simp [FrameRows.toList]
      · rw [if_pos hfun]
        exact or_iff_right hfun2
      · simp only [hdrop, hdrop2, hu, hu2, hfun, hfun2, if_true, List.length_append,
          CharArray.length_toList]
        rfl
  · refine .inr ⟨rows.function.toList, rows.location.toList,
      rows.function2.toList ++ rows.location2.toList, _, rfl, CharArray.length_toList _, ?_,
      hindices rows.function.toList rows.function.toList, fun pre post => ?_⟩
    · rw [if_neg hfun]
    · simp only [hdrop, hu, hfun, CharArray.length_toList, Bool.false_eq_true, if_false]

theorem keeps_decodeRound {rows : FrameRows} (h : rows.LocationEnds) (s : StackInfo) :
    Keeps decodeRound rows.toList s := by
  obtain ⟨-, is, his, hround⟩ | ⟨before, row, after, is, hrows, hlen, hiff, his, hround⟩ :=
    decodeRound_cases rows s
  · exact ⟨⟨rows.toList, s, is⟩, rfl, his, hround⟩
  · obtain ⟨r, hr, hlt, htake⟩ := keeps_takeLocationRound hlen (hiff.mp h) s
    refine ⟨⟨before ++ (r.output ++ after), r.frame, is ++ r.indices⟩, ?_, ?_, ?_⟩
    · simp [hrows, hr]
    · intro k hk
      exact (List.mem_append.mp hk).elim (his k) (hlt k)
    · intro pre post
      have htake := htake (pre ++ before) (after ++ post)
      have hsplit : pre ++ (rows.toList ++ post) = pre ++ before ++ (row ++ (after ++ post)) := by
        simp [hrows]
      have hbehind : (r.between (pre ++ before) (after ++ post)).behind is =
          Round.between pre post ⟨before ++ (r.output ++ after), r.frame, is ++ r.indices⟩ := by
        simp [Round.between, Round.behind]
      rw [← hsplit, List.length_append] at htake
      rw [hround pre post, htake, Option.map_some, hbehind]

theorem leaves_decodeRound {rows : FrameRows} (h : ¬ rows.LocationEnds) (s : StackInfo) :
    Leaves decodeRound rows.toList s := by
  obtain ⟨hends, -⟩ | ⟨before, row, after, is, hrows, hlen, hiff, his, hround⟩ :=
    decodeRound_cases rows s
  · exact absurd hends h
  · intro pre post r hr
    rw [hround pre post] at hr
    obtain ⟨r, htake, rfl⟩ := Option.map_eq_some_iff.mp hr
    have hsplit : pre ++ (rows.toList ++ post) = pre ++ before ++ (row ++ (after ++ post)) := by
      simp [hrows]
    rw [hsplit, ← List.length_append] at htake
    obtain ⟨k, hk, hle⟩ := leaves_takeLocationRound hlen (mt hiff.mpr h) s _ _ r htake
    exact ⟨k, List.mem_append_right _ hk, hle⟩

/-! ## All frames -/

/-- In the loop over these frames and their rows each round is what it is for the rows of its
    frame alone, with no index from 512 on, and all other memory stays as it is. -/
def OwnRows (fs : List (FrameRows × StackInfo)) : Prop :=
  ∃ rs : List Round,
    List.Forall₂ (fun f r => decodeRound f.1.toList 0 f.2 = some r ∧ r.output.length = 2048 ∧
      ∀ k ∈ r.indices, k < 512) fs rs ∧
    ∀ pre post : Bytes,
      decodeRounds (fs.map Prod.snd) pre.length (pre ++ (fs.flatMap (·.1.toList) ++ post)) =
        some (pre ++ (rs.flatMap Round.output ++ post), rs.map fun r => (r.frame, r.indices))

theorem ownRows_of_locationEnds {fs : List (FrameRows × StackInfo)}
    (h : ∀ f ∈ fs, f.1.LocationEnds) : OwnRows fs := by
  induction fs with
  | nil => exact ⟨[], .nil, fun _ _ => rfl⟩
  | cons f fs ih =>
    obtain ⟨hf, hfs⟩ := List.forall_mem_cons.mp h
    obtain ⟨r, hlen, hlt, hround⟩ := keeps_decodeRound hf f.2
    obtain ⟨rs, hrs, hrounds⟩ := ih hfs
    rw [FrameRows.length_toList] at hlen
    have halone : decodeRound f.1.toList 0 f.2 = some r := by
      have h := hround [] []
      simpa [Round.between] using h
    refine ⟨r :: rs, .cons ⟨halone, hlen, hlt⟩ hrs, fun pre post => ?_⟩
    have hhead := hround pre (fs.flatMap (·.1.toList) ++ post)
    have htail := hrounds (pre ++ r.output) post
    rw [List.length_append, hlen, List.append_assoc] at htail
    rw [List.map_cons, decodeRounds, List.flatMap_cons, List.append_assoc, hhead]
    show ((decodeRounds (fs.map Prod.snd) (pre.length + 2048)
      (pre ++ (r.output ++ (fs.flatMap (·.1.toList) ++ post)))).bind _) = _
    rw [htail]
    simp [Round.between]

theorem locationEnds_of_ownRows {fs : List (FrameRows × StackInfo)} (h : OwnRows fs) :
    ∀ f ∈ fs, f.1.LocationEnds := by
  obtain ⟨rs, hrs, -⟩ := h
  induction hrs with
  | nil => simp
  | @cons f r fs rs hround _ ih =>
    obtain ⟨hround, -, hlt⟩ := hround
    refine List.forall_mem_cons.mpr ⟨?_, ih⟩
    by_contra hnot
    obtain ⟨k, hk, hle⟩ := leaves_decodeRound hnot f.2 [] [] r (by simpa using hround)
    exact absurd (hlt k hk) (by omega)

/-- All frames keep to their own rows if and only if in each row that is searched there is a
    colon and the number behind it ends in the row. -/
theorem ownRows_iff (fs : List (FrameRows × StackInfo)) :
    OwnRows fs ↔ ∀ f ∈ fs, f.1.LocationEnds :=
  ⟨locationEnds_of_ownRows, ownRows_of_locationEnds⟩

/-- The rows of a frame in line 12 of a file. -/
def pathRows (path : Bytes) : FrameRows where
  function := row (ascii "f" ++ [10])
  location := row (path ++ ascii ":12" ++ [10])
  function2 := row (ascii "??" ++ [10])
  location2 := row (ascii "??:0" ++ [10])

theorem not_locationEnds_pathRows {path : Bytes} (hlen : 512 ≤ path.length)
    (hpath : ∀ c ∈ path, c ≠ 0 ∧ c ≠ 10 ∧ c ≠ 58 ∧ c ≠ 63) : ¬ (pathRows path).LocationEnds := by
  have hcut : (pathRows path).location.toList = path.take 512 := by
    show (row (path ++ ascii ":12" ++ [10])).toList = _
    rw [row_long, List.take_append_of_le_length hlen]
    · rw [List.length_append]
      omega
    · intro hmem
      rcases List.mem_append.mp hmem with hmem | hmem
      · exact (hpath 10 hmem).2.1 rfl
      · exact absurd hmem (by decide)
  have hfun : unknown (pathRows path).function.toList = false := by
    have hf : IsLine (ascii "f") := ⟨by decide, by decide, by decide⟩
    have h := unknown_row hf []
    rwa [List.append_nil] at h
  have htake : ∀ c ∈ path.take 512, c ≠ 0 ∧ c ≠ 58 ∧ c ≠ 63 := by
    intro c hc
    obtain ⟨hc0, -, hcolon, hmark⟩ := hpath c (List.mem_of_mem_take hc)
    exact ⟨hc0, hcolon, hmark⟩
  unfold FrameRows.LocationEnds
  rw [hfun, hcut, if_neg (by decide)]
  rintro (hmark | h0 | ⟨hcolon, -⟩)
  · exact (htake 63 (List.mem_of_mem_head? hmark)).2.2 rfl
  · exact (htake 0 (List.mem_of_mem_head? h0)).1 rfl
  · exact (htake 58 hcolon).2.1 rfl

/-- A path of 600 characters fills its row, and the colon is looked for in the next one. -/
theorem long_path_leaves :
    ¬ OwnRows [(pathRows (List.replicate 600 97), StackInfo.init)] := by
  intro h
  refine not_locationEnds_pathRows ?_ ?_ (locationEnds_of_ownRows h _ (List.mem_singleton_self _))
  · rw [List.length_replicate]
    omega
  · intro c hc
    rw [List.eq_of_mem_replicate hc]
    decide

end StackTrace
