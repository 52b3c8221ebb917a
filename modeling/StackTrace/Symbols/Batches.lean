import StackTrace.Symbols.FileAndLine

/-!
# The lists that `getFileAndLine` makes

`getFileAndLine` is a sequence of calls of `getFileAndLineObject`. Which frames are in
which call depends on the hashes of their names alone, and these never change.

* `getFileAndLine_eq`: `getFileAndLine` makes the calls of `calls`, one after the other.
* `located_getFileAndLineObject`: a call changes files and lines only.
* `calls_perm`: every frame is in exactly one of them.
* `calls_hash`: the frames of a call have one hash, and they are 256 at most.
-/

namespace StackTrace

/-! ## Abstract behaviour -/

/-- The lists for one hash: the frames `is` with this hash, behind those that `list` holds
    already, in portions of 256. -/
def portions (hash : UInt64) (h : ℕ → UInt64) : (list : List ℕ) → (is : List ℕ) → List (List ℕ)
  | list, [] => [list]
  | list, i :: is =>
    let list := if h i = hash then list ++ [i] else list
    if 256 = list.length then list :: portions hash h [] is else portions hash h list is

/-- The hash of the frame `i`. -/
def hashAt (info : List StackInfo) (i : ℕ) : UInt64 := objHash (info.getD i .init)

/-- The lists of a batch of `n` frames from `i0` on. -/
def batchCalls (info : List StackInfo) (i0 n : ℕ) (hashes : List UInt64) : List (List ℕ) :=
  hashes.flatMap fun hash => portions hash (hashAt info) [] (List.range' i0 n)

/-- The lists of all batches from `i0` on. -/
def callsFrom (info : List StackInfo) : (fuel : ℕ) → (i0 : ℕ) → List (List ℕ)
  | 0, _ => []
  | fuel + 1, i0 =>
    if i0 < info.length then
      let (objectHash, n) := objectHashes .init (info.drop i0)
      batchCalls info i0 n objectHash.toList ++ callsFrom info fuel (i0 + n)
    else []

/-- The lists that `getFileAndLineObject` is called with. -/
def calls (info : List StackInfo) : List (List ℕ) := callsFrom info (info.length + 1) 0

/-! ## What a call changes -/

/-- The second frame is the first one, or has another file and line. -/
inductive Located (s : StackInfo) : StackInfo → Prop
  | same : Located s s
  | found (name : Bytes) (line : UInt32) : Located s { s with
      filename := (copyPath 64 64 name).1
      filenamePath := (copyPath 64 64 name).2
      line := line }

theorem Located.trans {s t u : StackInfo} (hst : Located s t) (htu : Located t u) :
    Located s u := by
  cases htu with
  | same => exact hst
  | found name line =>
    cases hst with
    | same => exact .found name line
    | found => exact .found name line

theorem Located.objHash_eq {s t : StackInfo} (h : Located s t) : objHash t = objHash s := by
  cases h <;> rfl

theorem located_refl (info : List StackInfo) : List.Forall₂ Located info info :=
  List.forall₂_same.mpr fun _ _ => .same

theorem located_trans {info₁ info₂ info₃ : List StackInfo} (h : List.Forall₂ Located info₁ info₂)
    (h' : List.Forall₂ Located info₂ info₃) : List.Forall₂ Located info₁ info₃ := by
  induction h generalizing info₃ with
  | nil => exact h'
  | cons hst _ ih =>
    obtain _ | ⟨htu, htail⟩ := h'
    exact .cons (hst.trans htu) (ih htail)

theorem located_set {info : List StackInfo} {k : ℕ} {s t : StackInfo} (hs : info[k]? = some s)
    (h : Located s t) : List.Forall₂ Located info (info.set k t) := by
  induction info generalizing k with
  | nil => exact .nil
  | cons s' info ih =>
    cases k with
    | zero =>
      obtain rfl := Option.some.inj hs
      exact .cons h (located_refl info)
    | succ k => exact .cons .same (ih hs)

theorem located_takeLocation {output : Bytes} {buf : ℕ} {s : StackInfo} {r : Bytes × StackInfo}
    (h : takeLocation output buf s = some r) : Located s r.2 := by
  unfold takeLocation at h
  split_ifs at h
  · obtain rfl := Option.some.inj h
    exact .same
  · obtain ⟨name, -, h⟩ := Option.bind_eq_some_iff.mp h
    obtain ⟨number, -, h⟩ := Option.bind_eq_some_iff.mp h
    obtain rfl := Option.some.inj h
    exact .found name _

theorem located_decode {output : Bytes} {p : ℕ} {s : StackInfo} {r : Bytes × StackInfo}
    (h : decode output p s = some r) : Located s r.2 := by
  unfold decode at h
  split at h
  split_ifs at h
  · obtain rfl := Option.some.inj h
    exact .same
  · exact located_takeLocation h

theorem located_decodeLoop {i : ℕ} {list : List ℕ} {output : Bytes} {info info' : List StackInfo}
    (h : decodeLoop i list output info = some info') : List.Forall₂ Located info info' := by
  induction list generalizing i output info with
  | nil =>
    obtain rfl := Option.some.inj h
    exact located_refl info
  | cons k list ih =>
    obtain ⟨s, hs, h⟩ := Option.bind_eq_some_iff.mp h
    obtain ⟨⟨output', s'⟩, hdecode, h⟩ := Option.bind_eq_some_iff.mp h
    exact located_trans (located_set hs (located_decode hdecode)) (ih h)

/-- A call changes files and lines only. -/
theorem located_getFileAndLineObject {a : Addr2line} {info info' : List StackInfo} {list : List ℕ}
    (h : getFileAndLineObject a info list = some info') : List.Forall₂ Located info info' := by
  obtain ⟨frames, -, h⟩ := Option.bind_eq_some_iff.mp h
  cases frames with
  | nil =>
    obtain rfl := Option.some.inj h
    exact located_refl info
  | cons first frames =>
    obtain ⟨file, -, h⟩ := Option.bind_eq_some_iff.mp h
    obtain ⟨c, -, h⟩ := Option.bind_eq_some_iff.mp h
    dsimp only at h
    split_ifs at h
    · obtain rfl := Option.some.inj h
      exact located_refl info
    · exact located_decodeLoop h

theorem located_foldlM {a : Addr2line} {lists : List (List ℕ)} {info info' : List StackInfo}
    (h : lists.foldlM (getFileAndLineObject a) info = some info') :
    List.Forall₂ Located info info' := by
  induction lists generalizing info with
  | nil =>
    obtain rfl := Option.some.inj h
    exact located_refl info
  | cons ks lists ih =>
    rw [List.foldlM_cons] at h
    obtain ⟨info₁, h₁, h⟩ := Option.bind_eq_some_iff.mp h
    exact located_trans (located_getFileAndLineObject h₁) (ih h)

/-- The hashes stay as they are. -/
theorem hashes_of_located {info info' : List StackInfo} (h : List.Forall₂ Located info info') :
    info'.map objHash = info.map objHash := by
  induction h with
  | nil => rfl
  | cons hst _ ih => rw [List.map_cons, List.map_cons, hst.objHash_eq, ih]

theorem objectHashes_congr {info info' : List StackInfo} (h : info'.map objHash = info.map objHash)
    (objectHash : StaticVector UInt64 256) :
    objectHashes objectHash info' = objectHashes objectHash info := by
  induction info generalizing objectHash info' with
  | nil =>
    obtain rfl : info' = [] := by simpa using h
    rfl
  | cons s info ih =>
    cases info' with
    | nil => simp at h
    | cons s' info' =>
      obtain ⟨hs, hinfo⟩ := List.cons.inj h
      rw [objectHashes, objectHashes, hs, ih hinfo]

/-! ## The calls -/

theorem hashAt_congr {info info' : List StackInfo} (h : info'.map objHash = info.map objHash) :
    hashAt info' = hashAt info := by
  funext i
  have hi : (info'.map objHash).getD i (objHash .init) =
      (info.map objHash).getD i (objHash .init) := by rw [h]
  rwa [List.getD_map, List.getD_map] at hi

/-- A list with room takes the index of a frame with its hash. -/
theorem toList_push {hash : UInt64} {info : List StackInfo} {i : ℕ} {list : StaticVector ℕ 256}
    (hlist : list.d_size < 256) :
    (if hashAt info i = hash then list.push_back i else list).toList =
      if hashAt info i = hash then list.toList ++ [i] else list.toList := by
  split_ifs
  · rw [StaticVector.toList_push_back, if_pos hlist]
  · rfl

/-- The loop for one hash and the call behind it. -/
theorem listLoop_eq (a : Addr2line) (hash : UInt64) {info : List StackInfo} {is : List ℕ}
    (his : ∀ i ∈ is, i < info.length) (list : StaticVector ℕ 256) (hlist : list.d_size < 256) :
    ((listLoop a hash is list info).bind fun r => getFileAndLineObject a r.2 r.1.toList) =
      (portions hash (hashAt info) list.toList is).foldlM (getFileAndLineObject a) info := by
  induction is generalizing list info with
  | nil => simp [listLoop, portions]
  | cons i is ih =>
    have hget : info[i]? = some (info.getD i .init) := by simp [his i (by simp)]
    have hhash : objHash (info.getD i .init) = hashAt info i := rfl
    rw [listLoop, portions, hget, Option.bind_eq_bind, Option.bind_some, hhash]
    have htoList := @toList_push hash info i list hlist
    generalize hlist' : (if hashAt info i = hash then list.push_back i else list) = list'
      at htoList ⊢
    rw [← htoList, StaticVector.length_toList]
    dsimp only
    split_ifs with hfull
    · rw [List.foldlM_cons]
      simp only [Option.bind_eq_bind, Option.bind_assoc]
      refine Option.bind_congr fun info' hinfo' => ?_
      have hhashes := hashes_of_located (located_getFileAndLineObject hinfo')
      have hlength : info'.length = info.length := by simpa using congrArg List.length hhashes
      have hrest := @ih info' (fun j hj => by rw [hlength]; exact his j (by simp [hj])) list'.clear
        (by show 0 < 256; omega)
      rw [hashAt_congr hhashes, StaticVector.toList_clear] at hrest
      exact hrest
    · have hsize := list'.size_le
      exact ih (fun j hj => his j (by simp [hj])) list' (by omega)

theorem objectLoop_eq (a : Addr2line) {info : List StackInfo} {i0 n : ℕ}
    (h : i0 + n ≤ info.length) (hash : UInt64) :
    objectLoop a i0 (i0 + n) info hash =
      (portions hash (hashAt info) [] (List.range' i0 n)).foldlM (getFileAndLineObject a) info := by
  have his : ∀ i ∈ List.range' i0 n, i < info.length := by
    intro i hi
    have := List.mem_range'_1.mp hi
    omega
  have hloop := listLoop_eq a hash his .init (by show 0 < 256; omega)
  rw [StaticVector.toList_init] at hloop
  unfold objectLoop
  rw [Nat.add_sub_cancel_left]
  exact hloop

/-- A batch makes its calls for one hash after the other. -/
theorem objectLoops_eq (a : Addr2line) {info : List StackInfo} {i0 n : ℕ}
    (h : i0 + n ≤ info.length) (hashes : List UInt64) :
    hashes.foldlM (objectLoop a i0 (i0 + n)) info =
      (batchCalls info i0 n hashes).foldlM (getFileAndLineObject a) info := by
  induction hashes generalizing info with
  | nil => rfl
  | cons hash hashes ih =>
    unfold batchCalls at ih ⊢
    rw [List.foldlM_cons, List.flatMap_cons, List.foldlM_append, objectLoop_eq a h]
    refine Option.bind_congr fun info' hinfo' => ?_
    have hhashes := hashes_of_located (located_foldlM hinfo')
    have hlength : info'.length = info.length := by simpa using congrArg List.length hhashes
    rw [ih (by omega), hashAt_congr hhashes]

/-! ## A batch -/

theorem objectHashes_le (objectHash : StaticVector UInt64 256) (info : List StackInfo) :
    (objectHashes objectHash info).2 ≤ info.length := by
  induction info generalizing objectHash with
  | nil => exact le_rfl
  | cons s info ih =>
    rw [objectHashes]
    split_ifs
    · exact Nat.succ_le_succ (ih _)
    · exact Nat.zero_le _

/-- A batch has a frame at least. -/
theorem objectHashes_pos {info : List StackInfo} (h : info ≠ []) :
    0 < (objectHashes .init info).2 := by
  cases info with
  | nil => exact absurd rfl h
  | cons s info =>
    rw [objectHashes, if_pos (by show 0 < 256; omega)]
    exact Nat.succ_pos _

theorem nodup_objectHashes {objectHash : StaticVector UInt64 256} (h : objectHash.toList.Nodup)
    (info : List StackInfo) : (objectHashes objectHash info).1.toList.Nodup := by
  induction info generalizing objectHash with
  | nil => exact h
  | cons s info ih =>
    rw [objectHashes]
    split_ifs with hroom
    · exact ih (StaticVector.nodup_insert hroom h _)
    · exact h

/-- The hashes of a batch are those of its frames. -/
theorem mem_objectHashes (objectHash : StaticVector UInt64 256) (info : List StackInfo)
    (hash : UInt64) : hash ∈ (objectHashes objectHash info).1.toList ↔ hash ∈ objectHash.toList ∨
      ∃ s ∈ info.take (objectHashes objectHash info).2, objHash s = hash := by
  induction info generalizing objectHash with
  | nil => simp [objectHashes]
  | cons s info ih =>
    rw [objectHashes]
    split_ifs with hroom
    · rw [ih, StaticVector.mem_insert hroom]
      simp [or_assoc, eq_comm]
    · simp

theorem getFileAndLineLoop_eq (a : Addr2line) {fuel i0 : ℕ} {info info' : List StackInfo}
    (hsame : info'.map objHash = info.map objHash) (hi0 : i0 ≤ info.length)
    (hfuel : info.length < fuel + i0) :
    getFileAndLineLoop a fuel i0 info' =
      (callsFrom info fuel i0).foldlM (getFileAndLineObject a) info' := by
  induction fuel generalizing i0 info' with
  | zero => omega
  | succ fuel ih =>
    have hlength : info'.length = info.length := by simpa using congrArg List.length hsame
    rw [getFileAndLineLoop, callsFrom, hlength]
    split_ifs with hlt
    · have hdrop : (info'.drop i0).map objHash = (info.drop i0).map objHash := by
        rw [List.map_drop, List.map_drop, hsame]
      have hpos : 0 < (objectHashes .init (info.drop i0)).2 :=
        objectHashes_pos (by rw [ne_eq, List.drop_eq_nil_iff]; omega)
      have hle : i0 + (objectHashes .init (info.drop i0)).2 ≤ info.length := by
        have := objectHashes_le .init (info.drop i0)
        rw [List.length_drop] at this
        omega
      rw [objectHashes_congr hdrop, List.foldlM_append]
      generalize objectHashes .init (info.drop i0) = batch at *
      obtain ⟨objectHash, n⟩ := batch
      dsimp only at hpos hle ⊢
      rw [objectLoops_eq a (by omega)]
      have hcalls : batchCalls info' i0 n objectHash.toList =
          batchCalls info i0 n objectHash.toList := by
        unfold batchCalls
        rw [hashAt_congr hsame]
      rw [hcalls]
      refine Option.bind_congr fun info₁ h₁ => ?_
      exact ih ((hashes_of_located (located_foldlM h₁)).trans hsame) hle (by omega)
    · rfl

/-- `getFileAndLine` makes the calls of `calls`. -/
theorem getFileAndLine_eq (a : Addr2line) (info : List StackInfo) :
    getFileAndLine a info = (calls info).foldlM (getFileAndLineObject a) info :=
  getFileAndLineLoop_eq a rfl (Nat.zero_le _) (by omega)

/-! ## Every frame is in one call -/

theorem portions_flatten (hash : UInt64) (h : ℕ → UInt64) (list is : List ℕ) :
    (portions hash h list is).flatten = list ++ is.filter fun i => h i = hash := by
  induction is generalizing list with
  | nil => simp [portions]
  | cons i is ih =>
    rw [portions]
    by_cases hi : h i = hash
    · rw [if_pos hi, List.filter_cons_of_pos (by simpa using hi)]
      split_ifs
      · rw [List.flatten_cons, ih]
        simp
      · rw [ih]
        simp
    · rw [if_neg hi, List.filter_cons_of_neg (by simpa using hi)]
      split_ifs
      · rw [List.flatten_cons, ih]
        simp
      · exact ih list

/-- Sorting the elements by their hashes loses none of them. -/
theorem flatMap_filter_perm (h : ℕ → UInt64) {hashes : List UInt64} (hnodup : hashes.Nodup)
    (is : List ℕ) :
    (hashes.flatMap fun hash => is.filter fun i => h i = hash).Perm
      (is.filter fun i => h i ∈ hashes) := by
  induction hashes with
  | nil => simp
  | cons hash hashes ih =>
    obtain ⟨hmem, hnodup⟩ := List.nodup_cons.mp hnodup
    have hsplit := List.filter_append_perm (fun i => decide (h i = hash))
      (is.filter fun i => h i ∈ hash :: hashes)
    rw [List.filter_filter, List.filter_filter] at hsplit
    have hfirst : (is.filter fun i => decide (h i = hash) && decide (h i ∈ hash :: hashes)) =
        is.filter fun i => h i = hash :=
      List.filter_congr fun i _ => by by_cases hi : h i = hash <;> simp [hi]
    have hothers : (is.filter fun i => (!decide (h i = hash)) && decide (h i ∈ hash :: hashes)) =
        is.filter fun i => h i ∈ hashes :=
      List.filter_congr fun i _ => by by_cases hi : h i = hash <;> simp [hi, hmem]
    rw [hfirst, hothers] at hsplit
    rw [List.flatMap_cons]
    exact ((ih hnodup).append_left _).trans hsplit

theorem batchCalls_flatten (info : List StackInfo) (i0 n : ℕ) (hashes : List UInt64) :
    (batchCalls info i0 n hashes).flatten =
      hashes.flatMap fun hash => (List.range' i0 n).filter fun i => hashAt info i = hash := by
  unfold batchCalls
  induction hashes with
  | nil => rfl
  | cons hash hashes ih =>
    rw [List.flatMap_cons, List.flatten_append, ih, portions_flatten, List.flatMap_cons]
    rfl

theorem batchCalls_perm {info : List StackInfo} {i0 n : ℕ} {hashes : List UInt64}
    (hnodup : hashes.Nodup) (hall : ∀ i ∈ List.range' i0 n, hashAt info i ∈ hashes) :
    (batchCalls info i0 n hashes).flatten.Perm (List.range' i0 n) := by
  rw [batchCalls_flatten]
  refine (flatMap_filter_perm (hashAt info) hnodup _).trans ?_
  rw [List.filter_eq_self.mpr fun i hi => by simpa using hall i hi]

theorem callsFrom_perm {info : List StackInfo} {fuel i0 : ℕ} (hi0 : i0 ≤ info.length)
    (hfuel : info.length < fuel + i0) :
    (callsFrom info fuel i0).flatten.Perm (List.range' i0 (info.length - i0)) := by
  induction fuel generalizing i0 with
  | zero => omega
  | succ fuel ih =>
    rw [callsFrom]
    split_ifs with hlt
    · have hpos : 0 < (objectHashes .init (info.drop i0)).2 :=
        objectHashes_pos (by rw [ne_eq, List.drop_eq_nil_iff]; omega)
      have hle := objectHashes_le .init (info.drop i0)
      have hnodup : (objectHashes .init (info.drop i0)).1.toList.Nodup :=
        nodup_objectHashes (by simp) (info.drop i0)
      have hmem := mem_objectHashes .init (info.drop i0)
      rw [List.length_drop] at hle
      generalize objectHashes .init (info.drop i0) = batch at *
      obtain ⟨objectHash, n⟩ := batch
      dsimp only at hpos hle hnodup hmem ⊢
      have hall : ∀ i ∈ List.range' i0 n, hashAt info i ∈ objectHash.toList := by
        intro i hi
        obtain ⟨hge, hlt⟩ := List.mem_range'_1.mp hi
        refine (hmem _).mpr (.inr ⟨info.getD i .init, ?_, rfl⟩)
        refine List.mem_iff_getElem?.mpr ⟨i - i0, ?_⟩
        rw [List.getElem?_take, if_pos (by omega), List.getElem?_drop, Nat.add_sub_cancel' hge]
        simp [show i < info.length by omega]
      rw [List.flatten_append]
      refine ((batchCalls_perm hnodup hall).append (ih (by omega) (by omega))).trans ?_
      rw [show info.length - i0 = n + (info.length - (i0 + n)) by omega, ← List.range'_append_1]
    · rw [show info.length - i0 = 0 by omega]
      simp

theorem calls_perm (info : List StackInfo) :
    (calls info).flatten.Perm (List.range info.length) := by
  have h : (calls info).flatten.Perm (List.range' 0 (info.length - 0)) :=
    callsFrom_perm (Nat.zero_le _) (Nat.lt_succ_self info.length)
  rwa [Nat.sub_zero, ← List.range_eq_range'] at h

/-! ## A call -/

theorem mem_portions {hash : UInt64} {h : ℕ → UInt64} {list is ks : List ℕ}
    (hks : ks ∈ portions hash h list is) (hlen : list.length < 256)
    (hlist : ∀ i ∈ list, h i = hash) : ks.length ≤ 256 ∧ ∀ i ∈ ks, h i = hash := by
  induction is generalizing list with
  | nil =>
    obtain rfl := List.mem_singleton.mp hks
    exact ⟨hlen.le, hlist⟩
  | cons i is ih =>
    rw [portions] at hks
    have hnext : ∀ j ∈ (if h i = hash then list ++ [i] else list), h j = hash := by
      intro j hj
      split_ifs at hj with hi
      · obtain hj | hj := List.mem_append.mp hj
        · exact hlist j hj
        · rwa [List.mem_singleton.mp hj]
      · exact hlist j hj
    have hnextlen : (if h i = hash then list ++ [i] else list).length ≤ 256 := by
      split_ifs
      · simpa using hlen
      · exact hlen.le
    generalize (if h i = hash then list ++ [i] else list) = next at *
    split_ifs at hks with hfull
    · obtain rfl | hks := List.mem_cons.mp hks
      · exact ⟨hnextlen, hnext⟩
      · exact ih hks (by simp) (by simp)
    · exact ih hks (by omega) hnext

theorem mem_callsFrom {info : List StackInfo} {fuel i0 : ℕ} {ks : List ℕ}
    (h : ks ∈ callsFrom info fuel i0) :
    ks.length ≤ 256 ∧ ∃ hash, ∀ i ∈ ks, hashAt info i = hash := by
  induction fuel generalizing i0 with
  | zero => simp [callsFrom] at h
  | succ fuel ih =>
    rw [callsFrom] at h
    split_ifs at h
    · obtain h | h := List.mem_append.mp h
      · obtain ⟨hash, -, h⟩ := List.mem_flatMap.mp h
        obtain ⟨hlen, hhash⟩ := mem_portions h (by simp) (by simp)
        exact ⟨hlen, hash, hhash⟩
      · exact ih h
    · simp at h

/-- The frames of a call have one hash, and they are 256 at most. -/
theorem calls_hash {info : List StackInfo} {ks : List ℕ} (h : ks ∈ calls info) :
    ks.length ≤ 256 ∧ ∃ hash, ∀ i ∈ ks, hashAt info i = hash :=
  mem_callsFrom h

theorem calls_nodup (info : List StackInfo) : (calls info).flatten.Nodup :=
  (calls_perm info).nodup_iff.mpr List.nodup_range

theorem lt_of_mem_calls {info : List StackInfo} {ks : List ℕ} (h : ks ∈ calls info) :
    ∀ k ∈ ks, k < info.length := by
  intro k hk
  have hmem : k ∈ (calls info).flatten := List.mem_flatten.mpr ⟨ks, h, hk⟩
  exact List.mem_range.mp ((calls_perm info).subset hmem)

/-! ## Frames of one object -/

theorem objectHashes_of_hash {hash : UInt64} {info : List StackInfo}
    (hinfo : ∀ s ∈ info, objHash s = hash) {objectHash : StaticVector UInt64 256}
    (h : objectHash.toList = [hash]) :
    objectHashes objectHash info = (objectHash, info.length) := by
  have hsize : objectHash.d_size = 1 := by
    rw [← StaticVector.length_toList, h, List.length_singleton]
  induction info with
  | nil => rfl
  | cons s info ih =>
    have hinsert : objectHash.insert (objHash s) = objectHash := by
      unfold StaticVector.insert
      rw [if_pos (by simp [h, hinfo s (by simp)])]
    rw [objectHashes, if_pos (by omega), hinsert, ih fun s hs => hinfo s (by simp [hs])]
    rfl

theorem portions_of_hash {hash : UInt64} {h : ℕ → UInt64} {list is : List ℕ}
    (his : ∀ i ∈ is, h i = hash) (hlen : list.length + is.length < 256) :
    portions hash h list is = [list ++ is] := by
  induction is generalizing list with
  | nil => simp [portions]
  | cons i is ih =>
    rw [List.length_cons] at hlen
    have hfull : ¬ 256 = (list ++ [i]).length := by
      rw [List.length_append, List.length_singleton]
      omega
    rw [portions, if_pos (his i (by simp)), if_neg hfull,
      ih (fun j hj => his j (by simp [hj])) (by simp; omega), List.append_assoc]
    rfl

/-- Up to 255 frames of one object are one call. -/
theorem calls_of_hash {hash : UInt64} {info : List StackInfo} (hne : info ≠ [])
    (hlen : info.length < 256) (h : ∀ s ∈ info, objHash s = hash) :
    calls info = [List.range info.length] := by
  have hpos := List.length_pos_iff.mpr hne
  have hroom : (StaticVector.init : StaticVector UInt64 256).d_size < 256 := by
    show 0 < 256
    omega
  have hinsert : ((StaticVector.init : StaticVector UInt64 256).insert hash).toList = [hash] := by
    have hperm := StaticVector.toList_insert_perm hroom hash
    rw [StaticVector.toList_init, if_neg (by simp)] at hperm
    exact List.perm_singleton.mp hperm
  have hbatch : objectHashes .init info = ((StaticVector.init).insert hash, info.length) := by
    obtain _ | ⟨s, info⟩ := info
    · exact absurd rfl hne
    · rw [objectHashes, if_pos hroom, h s (by simp),
        objectHashes_of_hash (fun s hs => h s (by simp [hs])) hinsert]
      rfl
  have hhash : ∀ i ∈ List.range' 0 info.length, hashAt info i = hash := by
    intro i hi
    have hi : i < info.length := by simpa using List.mem_range'_1.mp hi
    unfold hashAt
    exact h _ (by simp [hi])
  show callsFrom info (info.length + 1) 0 = _
  rw [callsFrom, if_pos hpos, List.drop_zero, hbatch]
  dsimp only
  have hend : callsFrom info info.length (0 + info.length) = [] := by
    obtain ⟨n, hn⟩ := Nat.exists_eq_succ_of_ne_zero hpos.ne'
    rw [hn, callsFrom, ← hn, if_neg (by omega)]
  rw [hend, List.append_nil, batchCalls, hinsert, List.flatMap_singleton,
    portions_of_hash hhash (by simpa using hlen), List.nil_append, ← List.range_eq_range']

end StackTrace
