import StackTrace.Symbols.Answer
import StackTrace.Symbols.Batches

/-!
# Are many frames looked up like one?

`getFileAndLine` asks about many frames at once. A frame gets something else than alone
if the command has no room for all addresses of its list (`StackTrace.cpp`, line 753),
so that the whole answer is dropped, or if the first frame of the list has the same
`objHash` but another object file.

* `getFileAndLine_agrees_iff`: every frame of an array gets the file and line that it
  gets alone, just if this holds within each call of `getFileAndLineObject`.
-/

namespace StackTrace

variable {a : Addr2line} {info : List StackInfo}

/-! ## All calls -/

theorem named_resolve {s : StackInfo} (h : s.Named) (file : Bytes) : (a.resolve file s).Named := by
  have hset : ∀ location, (s.setLocation location).Named := by
    intro location
    unfold StackInfo.setLocation
    split_ifs
    · exact h
    · exact ⟨h.object, h.objectPath⟩
  unfold Addr2line.resolve
  cases a.found file s with
  | none => exact h
  | some location => exact hset location

theorem named_answer {s : StackInfo} (h : s.Named) (frames : List StackInfo) :
    (a.answer frames s).Named := by
  unfold Addr2line.answer
  split_ifs
  · exact named_resolve h _
  · exact h

/-- The array after the calls for the lists `lists`. -/
def answerAll (a : Addr2line) (lists : List (List ℕ)) (info : List StackInfo) : List StackInfo :=
  lists.foldl (fun info ks => updateAt (a.answer (framesAt info ks)) ks info) info

theorem framesAt_updateAt {f : StackInfo → StackInfo} {ks ks' : List ℕ} (h : ks.Disjoint ks') :
    framesAt (updateAt f ks info) ks' = framesAt info ks' := by
  refine List.map_congr_left fun i hi => ?_
  have hnot : i ∉ ks := fun hks => h hks hi
  simp [List.getD_eq_getElem?_getD, getElem?_updateAt, hnot]

theorem named_updateAt {f : StackInfo → StackInfo} (hf : ∀ s : StackInfo, s.Named → (f s).Named)
    (h : ∀ s ∈ info, s.Named) (ks : List ℕ) : ∀ s ∈ updateAt f ks info, s.Named := by
  intro s hs
  obtain ⟨i, hi⟩ := List.mem_iff_getElem?.mp hs
  rw [getElem?_updateAt] at hi
  obtain ⟨s', hs', rfl⟩ := Option.map_eq_some_iff.mp hi
  have hnamed := h s' (List.mem_of_getElem? hs')
  split_ifs
  · exact hf s' hnamed
  · exact hnamed

theorem disjoint_of_mem {ks ks' : List ℕ} {lists : List (List ℕ)}
    (hdisjoint : ∀ i ∈ ks, ∀ j ∈ lists.flatten, i ≠ j) (hks' : ks' ∈ lists) : ks.Disjoint ks' :=
  fun i hi hi' => hdisjoint i hi i (List.mem_flatten.mpr ⟨ks', hks', hi'⟩) rfl

/-- Calls for lists that have no frame in common. -/
theorem foldlM_lists {lists : List (List ℕ)} (h : ∀ ks ∈ lists, a.Short (framesAt info ks))
    (hnames : ∀ s ∈ info, s.Named) (hnodup : lists.flatten.Nodup)
    (hlen : ∀ ks ∈ lists, ks.length ≤ 256) (hlt : ∀ ks ∈ lists, ∀ k ∈ ks, k < info.length) :
    lists.foldlM (getFileAndLineObject a) info =
      if ∀ ks ∈ lists, a.Fits (framesAt info ks) then some (answerAll a lists info) else none := by
  induction lists generalizing info with
  | nil => simp [answerAll]
  | cons ks lists ih =>
    rw [List.flatten_cons] at hnodup
    obtain ⟨hks, hnodup, hdisjoint⟩ := List.nodup_append.mp hnodup
    obtain ⟨hfirst, hothers⟩ := List.forall_mem_cons.mp h
    rw [List.foldlM_cons,
      getFileAndLineObject_eq hfirst hnames hks (hlt ks (by simp)) (hlen ks (by simp))]
    by_cases hfits : a.Fits (framesAt info ks)
    · have hcongr : (∀ ks' ∈ lists,
            a.Fits (framesAt (updateAt (a.answer (framesAt info ks)) ks info) ks')) ↔
          ∀ ks' ∈ ks :: lists, a.Fits (framesAt info ks') := by
        rw [List.forall_mem_cons, and_iff_right hfits]
        refine forall₂_congr fun ks' hks' => ?_
        rw [framesAt_updateAt (disjoint_of_mem hdisjoint hks')]
      rw [if_pos hfits, Option.bind_eq_bind, Option.bind_some,
        ih (fun ks' hks' => by
            rw [framesAt_updateAt (disjoint_of_mem hdisjoint hks')]
            exact hothers ks' hks')
          (named_updateAt (fun s hs => named_answer hs _) hnames ks) hnodup
          (fun ks' hks' => hlen ks' (by simp [hks']))
          (fun ks' hks' k hk => by rw [length_updateAt]; exact hlt ks' (by simp [hks']) k hk)]
      exact if_congr hcongr rfl rfl
    · have hnot : ¬ ∀ ks' ∈ ks :: lists, a.Fits (framesAt info ks') := fun hall =>
        hfits (hall ks (by simp))
      rw [if_neg hfits, if_neg hnot]
      rfl

theorem getElem?_answerAll_of_notMem {lists : List (List ℕ)} {i : ℕ} (hi : i ∉ lists.flatten) :
    (answerAll a lists info)[i]? = info[i]? := by
  induction lists generalizing info with
  | nil => rfl
  | cons ks lists ih =>
    rw [List.flatten_cons, List.mem_append, not_or] at hi
    show (answerAll a lists (updateAt (a.answer (framesAt info ks)) ks info))[i]? = _
    rw [ih hi.2, getElem?_updateAt]
    simp [hi.1]

/-- A frame gets its answer from the call that has it. -/
theorem getElem?_answerAll {lists : List (List ℕ)} (hnodup : lists.flatten.Nodup) {ks : List ℕ}
    (hks : ks ∈ lists) {i : ℕ} (hi : i ∈ ks) :
    (answerAll a lists info)[i]? = (info[i]?).map (a.answer (framesAt info ks)) := by
  induction lists generalizing info with
  | nil => simp at hks
  | cons ks' lists ih =>
    rw [List.flatten_cons] at hnodup
    obtain ⟨-, hnodup, hdisjoint⟩ := List.nodup_append.mp hnodup
    show (answerAll a lists (updateAt (a.answer (framesAt info ks')) ks' info))[i]? = _
    obtain rfl | hks := List.mem_cons.mp hks
    · have hnot : i ∉ lists.flatten := fun hmem => hdisjoint i hi i hmem rfl
      rw [getElem?_answerAll_of_notMem hnot, getElem?_updateAt]
      simp [hi]
    · have hdisj := disjoint_of_mem hdisjoint hks
      have hnot : i ∉ ks' := fun hi' => hdisj hi' hi
      rw [ih hnodup hks, getElem?_updateAt, framesAt_updateAt hdisj]
      simp [hnot]

/-! ## One frame -/

theorem getFileAndLine_singleton {s : StackInfo} (h : a.Short [s]) (hs : s.Named) :
    getFileAndLine a [s] = if a.Fits [s] then some [a.answer [s] s] else none := by
  have hhash : ∀ s' ∈ [s], objHash s' = objHash s := fun s' hs' => by rw [List.mem_singleton.mp hs']
  rw [getFileAndLine_eq, calls_of_hash (by simp) (by simp) hhash]
  show (getFileAndLineObject a [s] [0]).bind some = _
  rw [Option.bind_fun_some, getFileAndLineObject_eq h (by simpa using hs) (by simp) (by simp)
    (by simp)]
  rfl

/-! ## Main result -/

/-- What `getFileAndLine` stores in a frame. -/
def StackInfo.location (s : StackInfo) : CharArray 64 × CharArray 64 × UInt32 :=
  (s.filename, s.filenamePath, s.line)

/-- The frame with what its own object file says about its addresses, if a command of its
    own has them. -/
def Addr2line.own (a : Addr2line) (s : StackInfo) : StackInfo :=
  if a.Complete [s] then a.resolve s.objectFile s else s

/-- The frames of one call are answered like each of them alone. The commands have room in
    `cmd`. If the command has the addresses of all frames, the object file of the first one
    says about each frame what its own object file says; if it has not, the own object
    files say nothing new. -/
structure Agreeable (a : Addr2line) (frames : List StackInfo) : Prop where
  fits : a.Fits frames
  fits_alone : ∀ s ∈ frames, a.Fits [s]
  complete : a.Complete frames → ∀ first ∈ frames.head?, ∀ s ∈ frames,
    (a.resolve first.objectFile s).location = (a.own s).location
  incomplete : ¬ a.Complete frames → ∀ s ∈ frames, s.location = (a.own s).location

theorem agreeable_iff {frames : List StackInfo} :
    Agreeable a frames ↔ a.Fits frames ∧
      ∀ s ∈ frames, a.Fits [s] ∧ (a.answer frames s).location = (a.answer [s] s).location := by
  have hown : ∀ s, a.answer [s] s = a.own s := fun s => rfl
  simp only [hown]
  constructor
  · intro h
    refine ⟨h.fits, fun s hs => ⟨h.fits_alone s hs, ?_⟩⟩
    obtain ⟨first, hfirst⟩ : ∃ first, frames.head? = some first :=
      ⟨_, List.head?_eq_some_head (List.ne_nil_of_mem hs)⟩
    unfold Addr2line.answer
    split_ifs with hcomplete
    · rw [hfirst]
      exact h.complete hcomplete first hfirst s hs
    · exact h.incomplete hcomplete s hs
  · rintro ⟨hfits, h⟩
    refine ⟨hfits, fun s hs => (h s hs).1, fun hcomplete first hfirst s hs => ?_,
      fun hcomplete s hs => ?_⟩
    · rw [← (h s hs).2, Addr2line.answer, if_pos hcomplete, Option.mem_def.mp hfirst]
      rfl
    · rw [← (h s hs).2, Addr2line.answer, if_neg hcomplete]

/-- All calls together. -/
theorem getFileAndLine_answerAll (h : ∀ ks ∈ calls info, a.Short (framesAt info ks))
    (hnames : ∀ s ∈ info, s.Named) :
    getFileAndLine a info =
      if ∀ ks ∈ calls info, a.Fits (framesAt info ks) then some (answerAll a (calls info) info)
      else none := by
  rw [getFileAndLine_eq]
  exact foldlM_lists h hnames (calls_nodup info) (fun ks hks => (calls_hash hks).1)
    fun ks hks => lt_of_mem_calls hks

theorem mem_framesAt {ks : List ℕ} (hks : ks ∈ calls info) {s : StackInfo} :
    s ∈ framesAt info ks ↔ ∃ i ∈ ks, info[i]? = some s := by
  refine List.mem_map.trans (exists_congr fun i => and_congr_right fun hi => ?_)
  have hlt : i < info.length := lt_of_mem_calls hks i hi
  simp [hlt]

theorem exists_call {i : ℕ} (hi : i < info.length) : ∃ ks ∈ calls info, i ∈ ks :=
  List.mem_flatten.mp ((calls_perm info).mem_iff.mpr (List.mem_range.mpr hi))

/-- `getFileAndLine` returns and stores in every frame what it stores in this frame alone,
    just if the frames of every call are answered like each of them alone. -/
theorem getFileAndLine_agrees_iff (h : ∀ ks ∈ calls info, a.Short (framesAt info ks))
    (hone : ∀ s ∈ info, a.Short [s]) (hnames : ∀ s ∈ info, s.Named) :
    (∃ out : List StackInfo, getFileAndLine a info = some out ∧ ∀ (i : ℕ) s, info[i]? = some s →
      ∃ together alone : StackInfo, out[i]? = some together ∧
        getFileAndLine a [s] = some [alone] ∧ together.location = alone.location) ↔
      ∀ ks ∈ calls info, Agreeable a (framesAt info ks) := by
  have houtput : ∀ {ks i s}, ks ∈ calls info → i ∈ ks → info[i]? = some s →
      (answerAll a (calls info) info)[i]? = some (a.answer (framesAt info ks) s) := by
    intro ks i s hks hi hs
    rw [getElem?_answerAll (calls_nodup info) hks hi, hs]
    rfl
  have halone : ∀ {s}, s ∈ info →
      getFileAndLine a [s] = if a.Fits [s] then some [a.answer [s] s] else none :=
    fun hs => getFileAndLine_singleton (hone _ hs) (hnames _ hs)
  simp only [agreeable_iff, getFileAndLine_answerAll h hnames]
  constructor
  · rintro ⟨out, hout, hagree⟩ ks hks
    obtain ⟨hfits, hout⟩ := Option.ite_none_right_eq_some.mp hout
    cases hout
    refine ⟨hfits ks hks, fun s hs => ?_⟩
    obtain ⟨i, hi, hs⟩ := (mem_framesAt hks).mp hs
    obtain ⟨together, alone, htogether, hself, hlocation⟩ := hagree i s hs
    rw [halone (List.mem_of_getElem? hs)] at hself
    obtain ⟨hfit, hself⟩ := Option.ite_none_right_eq_some.mp hself
    cases hself
    rw [houtput hks hi hs] at htogether
    cases htogether
    exact ⟨hfit, hlocation⟩
  · intro hagree
    refine ⟨_, if_pos fun ks hks => (hagree ks hks).1, fun i s hs => ?_⟩
    obtain ⟨ks, hks, hi⟩ := exists_call (List.getElem?_eq_some_iff.mp hs).1
    obtain ⟨hfit, hlocation⟩ := (hagree ks hks).2 s ((mem_framesAt hks).mpr ⟨i, hi, hs⟩)
    refine ⟨_, _, houtput hks hi hs, ?_, hlocation⟩
    rw [halone (List.mem_of_getElem? hs), if_pos hfit]

/-- An `addr2line` that knows one line. -/
def binutils : Addr2line :=
  ⟨ascii "/usr/bin/addr2line", fun _ _ => ascii "f", fun _ _ => ascii "foo.cpp:7"⟩

/-- A frame of a library. -/
def libraryFrame : StackInfo :=
  { StackInfo.ofFields 0x7f1234567190 0x1190 (ascii "libfoo.so") [] [] with
    objectPath := .ofText 48 (ascii "/usr/lib") }

theorem short_binutils (frames : List StackInfo) : binutils.Short frames := by
  have hfunction : IsLine (ascii "f") := ⟨by decide, by decide, by decide⟩
  have hlocation : IsLine (ascii "foo.cpp:7") := ⟨by decide, by decide, by decide⟩
  have hcolon : 58 ∈ ascii "foo.cpp:7" := by decide
  have hlength : (ascii "foo.cpp:7").length ≤ 511 := by decide
  have hshort : ∀ file x, binutils.ShortAt file x :=
    fun _ _ => ⟨hfunction, hlocation, hcolon, hlength⟩
  exact fun _ _ _ _ => ⟨hshort _ _, hshort _ _⟩

theorem named_libraryFrame : libraryFrame.Named := ⟨by decide, by decide⟩

theorem framesAt_range (info : List StackInfo) : framesAt info (List.range info.length) = info := by
  refine List.ext_getElem (by simp [framesAt]) fun i hi hi' => ?_
  simp [framesAt, hi']

/-- Equal frames are looked up in one call. -/
theorem calls_replicate (s : StackInfo) {n : ℕ} (hn : 0 < n) (hlen : n < 256) :
    ∃ ks, calls (List.replicate n s) = [ks] ∧
      framesAt (List.replicate n s) ks = List.replicate n s := by
  have hhash : ∀ t ∈ List.replicate n s, objHash t = objHash s :=
    fun t ht => by rw [List.eq_of_mem_replicate ht]
  have hne : List.replicate n s ≠ [] := by
    rw [ne_eq, List.replicate_eq_nil_iff]
    omega
  have hlength : (List.replicate n s).length < 256 := by rwa [List.length_replicate]
  exact ⟨_, calls_of_hash hne hlength hhash, framesAt_range _⟩

/-- Two frames of one library. -/
theorem getFileAndLine_agrees_iff_two_frames :
    let info := List.replicate 2 libraryFrame
    (∀ ks ∈ calls info, binutils.Short (framesAt info ks)) ∧ (∀ s ∈ info, binutils.Short [s]) ∧
      (∀ s ∈ info, s.Named) ∧ ∃ out : List StackInfo, getFileAndLine binutils info = some out ∧
        ∀ (i : ℕ) s, info[i]? = some s → ∃ together alone : StackInfo, out[i]? = some together ∧
          getFileAndLine binutils [s] = some [alone] ∧ together.location = alone.location := by
  have hall : ∀ s ∈ List.replicate 2 libraryFrame, s = libraryFrame :=
    fun s hs => List.eq_of_mem_replicate hs
  have hnames : ∀ s ∈ List.replicate 2 libraryFrame, s.Named :=
    fun s hs => hall s hs ▸ named_libraryFrame
  have hshort : ∀ ks ∈ calls (List.replicate 2 libraryFrame),
      binutils.Short (framesAt (List.replicate 2 libraryFrame) ks) := fun _ _ => short_binutils _
  have hone : ∀ s ∈ List.replicate 2 libraryFrame, binutils.Short [s] :=
    fun _ _ => short_binutils _
  refine ⟨hshort, hone, hnames, (getFileAndLine_agrees_iff hshort hone hnames).mpr ?_⟩
  obtain ⟨ks, hcalls, hframes⟩ := @calls_replicate libraryFrame 2 (by omega) (by omega)
  have hcomplete : binutils.Complete (List.replicate 2 libraryFrame) := by decide
  rw [hcalls, List.forall_mem_singleton, hframes]
  refine ⟨by decide, fun s hs => ?_, fun _ first hfirst s hs => ?_, fun h => absurd hcomplete h⟩
  · rw [hall s hs]
    decide
  · rw [hall s hs, hall first (List.mem_of_mem_head? hfirst), Addr2line.own, if_pos (by decide)]

/-! ## Deep recursion -/

theorem addAddresses_full {c : Command} (h : 4064 ≤ c.cmd.length) (frames : List StackInfo) :
    addAddresses c frames = c := by
  cases frames with
  | nil => rfl
  | cons s frames =>
    rw [addAddresses, if_neg]
    show ¬ c.cmd.length < 4096 - 32
    omega

/-- The command takes the addresses of the first `k + 1` of `n` equal frames, if it is full
    behind them. -/
theorem addAddresses_replicate (s : StackInfo) {k n : ℕ} (hkn : k < n) {c : Command}
    (hlt : c.cmd.length + k * (addressText s).length < 4064)
    (hfull : 4064 ≤ c.cmd.length + (k + 1) * (addressText s).length) :
    (addAddresses c (List.replicate n s)).addresses.length = c.addresses.length + 2 * (k + 1) ∧
      (addAddresses c (List.replicate n s)).cmd.length =
        c.cmd.length + (k + 1) * (addressText s).length := by
  induction k generalizing n c with
  | zero =>
    obtain ⟨n, rfl⟩ := Nat.exists_eq_succ_of_ne_zero hkn.ne'
    rw [List.replicate_succ, addAddresses, if_pos (by omega), addAddresses_full]
    · simp
    · rw [List.length_append]
      omega
  | succ k ih =>
    obtain ⟨n, rfl⟩ := Nat.exists_eq_succ_of_ne_zero (Nat.ne_zero_of_lt hkn)
    have hstep : (k + 1) * (addressText s).length =
        k * (addressText s).length + (addressText s).length := Nat.succ_mul _ _
    have hstep' : (k + 1 + 1) * (addressText s).length =
        (k + 1) * (addressText s).length + (addressText s).length := Nat.succ_mul _ _
    rw [List.replicate_succ, addAddresses, if_pos (by omega)]
    obtain ⟨haddresses, hcmd⟩ := @ih n (Nat.lt_of_succ_lt_succ hkn)
      ⟨c.cmd ++ addressText s, c.addresses ++ [s.address, s.address2]⟩
      (by rw [List.length_append]; omega) (by rw [List.length_append]; omega)
    rw [haddresses, hcmd]
    simp only [List.length_append, List.length_cons, List.length_nil]
    omega

/-- 250 frames of one library: the command takes the addresses of 224 of them, and none of
    the frames gets the line that it gets alone. -/
theorem deep_recursion_unresolved :
    let info := List.replicate 250 libraryFrame
    (∀ ks ∈ calls info, binutils.Short (framesAt info ks)) ∧ (∀ s ∈ info, binutils.Short [s]) ∧
      (∀ s ∈ info, s.Named) ∧ ¬ ∃ out : List StackInfo, getFileAndLine binutils info = some out ∧
        ∀ (i : ℕ) s, info[i]? = some s → ∃ together alone : StackInfo, out[i]? = some together ∧
          getFileAndLine binutils [s] = some [alone] ∧ together.location = alone.location := by
  have hnames : ∀ s ∈ List.replicate 250 libraryFrame, s.Named := fun s hs => by
    rw [List.eq_of_mem_replicate hs]
    exact named_libraryFrame
  refine ⟨fun _ _ => short_binutils _, fun _ _ => short_binutils _, hnames, ?_⟩
  rintro ⟨out, hout, hagree⟩
  have hzero : (List.replicate 250 libraryFrame)[0]? = some libraryFrame := by
    rw [List.getElem?_replicate, if_pos (by omega)]
  obtain ⟨together, alone, htogether, hone, hlocation⟩ := hagree 0 libraryFrame hzero
  obtain ⟨ks, hcalls, hframes⟩ := @calls_replicate libraryFrame 250 (by omega) (by omega)
  -- the call for all frames changes none of them
  have hincomplete : ¬ binutils.Complete (List.replicate 250 libraryFrame) := by
    have htext : (addressText libraryFrame).length = 18 := by decide
    have hstart : (binutils.start libraryFrame.objectFile).cmd.length = 46 := by decide
    have htaken := (addAddresses_replicate libraryFrame (show 223 < 250 by omega)
      (c := binutils.start libraryFrame.objectFile) (by omega) (by omega)).1
    intro hcomplete
    have hlength : (addAddresses (binutils.start libraryFrame.objectFile)
        (List.replicate 250 libraryFrame)).addresses.length =
          2 * (List.replicate 250 libraryFrame).length := hcomplete
    rw [htaken, List.length_replicate] at hlength
    exact absurd hlength (by decide)
  rw [getFileAndLine_answerAll (fun _ _ => short_binutils _) hnames] at hout
  obtain ⟨-, hout⟩ := Option.ite_none_right_eq_some.mp hout
  have hmem : 0 ∈ ks := by
    obtain ⟨ks', hks', hmem⟩ := exists_call (List.getElem?_eq_some_iff.mp hzero).1
    rw [hcalls, List.mem_singleton] at hks'
    rwa [← hks']
  have hks : ks ∈ calls (List.replicate 250 libraryFrame) := by
    rw [hcalls]
    exact List.mem_singleton_self ks
  rw [← Option.some.inj hout, getElem?_answerAll (calls_nodup _) hks hmem, hframes, hzero,
    Option.map_some, Addr2line.answer, if_neg hincomplete] at htogether
  obtain rfl := Option.some.inj htogether
  -- the call for one frame finds its line
  rw [getFileAndLine_singleton (short_binutils _) named_libraryFrame] at hone
  obtain ⟨-, hone⟩ := Option.ite_none_right_eq_some.mp hone
  have hline : libraryFrame.line = (binutils.answer [libraryFrame] libraryFrame).line := by
    rw [List.singleton_inj.mp (Option.some.inj hone)]
    exact congrArg (fun l => l.2.2) hlocation
  exact absurd hline (by decide)

end StackTrace
