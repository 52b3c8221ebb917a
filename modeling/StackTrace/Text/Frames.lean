import StackTrace.Text.RoundTrip

/-!
# A printed frame and what is read of it

`StackTrace.cpp`, lines 364–380 and 2167–2224. The fields of a printed frame are separated
by two blanks or more, and padded on their left. `parseLine` takes a field that is missing
for the object, and not for the file name, if the next one begins more than 20 characters
behind the colon; an address is read as a number with a sign.

* `find_blanks`, `str_copyField`: the end of a field and its text.
* `parseLine_print2_iff`: the frames that are read back.
-/

namespace StackTrace

/-! ## Texts without runs of blanks -/

/-- Neither a blank at the ends nor two blanks in a row, and no newline. -/
structure Plain (t : Bytes) : Prop where
  head : t.head? ≠ some 32
  last : t.getLast? ≠ some 32
  double : ¬ [32, 32] <:+: t
  newline : 10 ∉ t

/-- Two blanks behind a text are found at its end. -/
theorem find_blanks {t : Bytes} (ht : Plain t) (rest : Bytes) :
    find (ascii "  ") (t ++ 32 :: 32 :: rest) = some t.length := by
  have hblanks : ascii "  " = [32, 32] := by decide
  rw [hblanks, find_eq_some_iff]
  refine ⟨by simp, by simp, fun j hj h => ?_⟩
  rw [List.drop_append_of_le_length hj.le] at h
  obtain ⟨c, u, hu⟩ := List.exists_cons_of_length_pos
    (show 0 < (t.drop j).length by rw [List.length_drop]; omega)
  rw [hu, List.cons_append, List.cons_prefix_cons] at h
  obtain ⟨rfl, h⟩ := h
  cases u with
  | nil =>
    -- a blank at the end of the text
    refine ht.last ?_
    rw [← List.take_append_drop j t, hu]
    simp
  | cons d u =>
    rw [List.cons_append, List.cons_prefix_cons] at h
    obtain ⟨rfl, -⟩ := h
    exact ht.double ⟨t.take j, u, by rw [List.append_assoc]; simp [← hu]⟩

theorem find_blanks_none {t : Bytes} (ht : Plain t) : find (ascii "  ") t = none := by
  have hblanks : ascii "  " = [32, 32] := by decide
  rw [hblanks, find_eq_none_iff]
  exact ht.double

/-- Blanks are skipped up to a text that begins with none. -/
theorem skipBlanks_append (pre rest : Bytes) (k : ℕ) {t : Bytes} (ht : t ≠ [])
    (hhead : t.head? ≠ some 32) :
    skipBlanks (pre ++ (List.replicate k 32 ++ (t ++ rest))) pre.length = pre.length + k := by
  obtain ⟨c, t, rfl⟩ := List.exists_cons_of_ne_nil ht
  have hc : c ≠ 32 := by simpa using hhead
  unfold skipBlanks
  rw [List.drop_left, List.takeWhile_append_of_pos]
  · simp [hc]
  · intro c hc
    simp [List.eq_of_mem_replicate hc]

/-! ## One field -/

/-- The blanks and NULs behind a text become NULs. -/
theorem clearTrailing_append {t rest : Bytes} (ht : t ≠ []) (hlast : t.getLast? ≠ some 32)
    (hzero : 0 ∉ t) (hrest : ∀ c ∈ rest, c = 32 ∨ c = 0) :
    clearTrailing (t ++ rest) = t ++ List.replicate rest.length 0 := by
  obtain ⟨c, t, rfl⟩ := List.exists_cons_of_ne_nil ht
  have hkept : (t ++ rest).rdropWhile (fun d => decide (d = 32 ∨ d = 0)) = t := by
    have hdrop : (t ++ rest).rdropWhile (fun d => decide (d = 32 ∨ d = 0)) =
        t.rdropWhile fun d => decide (d = 32 ∨ d = 0) := by
      unfold List.rdropWhile
      rw [List.reverse_append, List.dropWhile_append_of_pos]
      intro c hc
      simpa using hrest c (List.mem_reverse.mp hc)
    rw [hdrop]
    obtain rfl | ⟨u, d, rfl⟩ := List.eq_nil_or_concat t
    · rfl
    · have hd : ¬ (d = 32 ∨ d = 0) := by
        rintro (rfl | rfl)
        · exact hlast (by simp [List.getLast?_cons])
        · exact hzero (by simp)
      rw [List.concat_eq_append]
      apply List.rdropWhile_concat_neg
      simpa using hd
  rw [List.cons_append, clearTrailing, hkept]
  simp

/-- A field with blanks behind it. -/
theorem str_copyField {n : ℕ} {t : Bytes} (ht : t ≠ []) (hlast : t.getLast? ≠ some 32)
    (hzero : 0 ∉ t) (hlen : t.length < n) (pre rest : Bytes) (k : ℕ)
    (hint : t.length + k < 2 ^ 31) :
    ∃ field : CharArray n, copyField n (pre ++ (t ++ (List.replicate k 32 ++ rest))) pre.length
      (pre.length + (t.length + k)) = some field ∧ field.str = t := by
  have hmod : (((pre.length + (t.length + k) : ℕ) : ℤ) - pre.length).bmod 4294967296 =
      (t.length + k : ℕ) := by
    rw [Buffer.bmod_of_isInt ⟨by omega, by omega⟩]
    omega
  obtain ⟨m, hm⟩ : ∃ m, min (t.length + k) n = t.length + m :=
    ⟨min (t.length + k) n - t.length, by omega⟩
  have hmk : m ≤ k := by omega
  have htake : (t ++ (List.replicate k 32 ++ rest)).take (t.length + m) =
      t ++ List.replicate m 32 := by
    rw [List.take_length_add_append, List.take_append_of_le_length (by simpa using hmk),
      List.take_replicate, min_eq_left hmk]
  have harray : (CharArray.ofText n (t ++ List.replicate m 32)).toList =
      t ++ (List.replicate m 32 ++ List.replicate (n - (t.length + m)) 0) := by
    show (t ++ List.replicate m 32 ++ List.replicate n 0).take n = _
    rw [List.take_append, List.take_of_length_le (by simp; omega), List.take_replicate,
      List.append_assoc]
    congr 3
    simp
  have hblanks : ∀ c ∈ List.replicate m (32 : UInt8) ++ List.replicate (n - (t.length + m)) 0,
      c = 32 ∨ c = 0 := by
    intro c hc
    rcases List.mem_append.mp hc with hc | hc
    · exact .inl (List.eq_of_mem_replicate hc)
    · exact .inr (List.eq_of_mem_replicate hc)
  unfold copyField
  simp only [hmod, List.drop_left]
  rw [if_neg (by omega)]
  refine ⟨_, rfl, ?_⟩
  have hnat : (min ((t.length + k : ℕ) : ℤ) n).toNat = t.length + m := by omega
  unfold CharArray.str
  simp only [hnat, htake, harray]
  rw [clearTrailing_append ht hlast hzero hblanks]
  obtain ⟨j, hj⟩ : ∃ j, (List.replicate m (32 : UInt8) ++
      List.replicate (n - (t.length + m)) 0).length = j + 1 :=
    ⟨n - t.length - 1, by simp; omega⟩
  rw [hj, List.replicate_succ, cstr_append_zero hzero]

/-- A field of no characters. -/
theorem str_copyField_nil (n : ℕ) (str : Bytes) (p : ℕ) :
    ∃ field : CharArray n, copyField n str p p = some field ∧ field.str = [] := by
  have hmod : ((p : ℤ) - p).bmod 4294967296 = 0 := by
    rw [sub_self]
    decide
  unfold copyField
  simp only [hmod]
  rw [if_neg (by omega)]
  refine ⟨_, rfl, ?_⟩
  have harray : (CharArray.ofText n ((str.drop p).take (min (0 : ℤ) n).toNat)).toList =
      List.replicate n 0 := by
    have hmin : (min (0 : ℤ) n).toNat = 0 := by omega
    rw [hmin, List.take_zero]
    show (([] : Bytes) ++ List.replicate n 0).take n = _
    simp
  unfold CharArray.str
  simp only [harray]
  cases n with
  | zero => rfl
  | succ n => rfl

/-! ## Where the fields begin -/

section fields

variable {S pre object function rest : Bytes} {k : ℕ}

/-- Behind a field and two blanks or more the next one begins. -/
theorem next_field {t u : Bytes} (ht : Plain t) (hu : u ≠ []) (hhead : u.head? ≠ some 32)
    (hS : S = pre ++ (t ++ (List.replicate (k + 2) 32 ++ (u ++ rest)))) :
    (strstr S pre.length (ascii "  ")).map (skipBlanks S) =
      some (pre.length + (t.length + (k + 2))) := by
  have hblanks : List.replicate (k + 2) (32 : UInt8) ++ (u ++ rest) =
      32 :: 32 :: (List.replicate k 32 ++ (u ++ rest)) := by
    simp [List.replicate_succ]
  have hfind : strstr S pre.length (ascii "  ") = some (pre.length + t.length) := by
    unfold strstr
    rw [hS, List.drop_left, hblanks, find_blanks ht]
    rfl
  have hskip := skipBlanks_append (pre ++ t) rest (k + 2) hu hhead
  rw [List.append_assoc, ← hS, List.length_append] at hskip
  rw [hfind, Option.map_some, hskip, Nat.add_assoc]

theorem no_field {t : Bytes} (ht : Plain t) (hS : S = pre ++ t) :
    strstr S pre.length (ascii "  ") = none := by
  unfold strstr
  rw [hS, List.drop_left, find_blanks_none ht]
  rfl

theorem length_behind (pre object : Bytes) (k : ℕ) :
    (pre ++ (object ++ List.replicate (k + 2) 32)).length =
      pre.length + (object.length + (k + 2)) := by
  simp

/-- With a file name the three fields begin where they have been printed. -/
theorem fieldStarts_file {file : Bytes} (hobject : Plain object) (hfunction : Plain function)
    (hne : function ≠ []) (hfile : file ≠ []) (hhead : file.head? ≠ some 32) (p2 : ℕ)
    (hS : S = pre ++ (object ++ (List.replicate (k + 2) 32 ++
      (function ++ (List.replicate 2 32 ++ (file ++ rest)))))) :
    fieldStarts S p2 pre.length = (pre.length + (object.length + (k + 2)),
      pre.length + (object.length + (k + 2)) + (function.length + 2)) := by
  have hp4 := next_field hobject hne hfunction.head hS
  have hS' : S = (pre ++ (object ++ List.replicate (k + 2) 32)) ++
      (function ++ (List.replicate (0 + 2) 32 ++ (file ++ rest))) := by
    rw [hS]
    simp
  have hp5 := next_field hfunction hfile hhead hS'
  rw [length_behind] at hp5
  unfold fieldStarts
  simp only [hp4, Option.bind_some, hp5]
  rw [if_neg (by simp)]
  rfl

/-- Without one, the function begins where it has been printed or the object is taken for it. -/
theorem fieldStarts_noFile (hobject : Plain object) (hfunction : Plain function)
    (hne : function ≠ []) (p2 : ℕ)
    (hS : S = pre ++ (object ++ (List.replicate (k + 2) 32 ++ function))) :
    fieldStarts S p2 pre.length =
      if pre.length - p2 > 20 then (pre.length, pre.length + (object.length + (k + 2)))
      else (pre.length + (object.length + (k + 2)), S.length) := by
  have hS0 : S = pre ++ (object ++ (List.replicate (k + 2) 32 ++ (function ++ []))) := by
    rw [hS, List.append_nil]
  have hp4 := next_field hobject hne hfunction.head hS0
  have hS' : S = (pre ++ (object ++ List.replicate (k + 2) 32)) ++ function := by
    rw [hS]
    simp
  have hp5 := no_field hfunction hS'
  rw [length_behind] at hp5
  unfold fieldStarts
  simp only [hp4, Option.bind_some, hp5, Option.map_none, true_and]
  rfl

end fields

/-! ## The fields of a printed frame -/

/-- A name of an object or a file without its path. -/
structure PlainName (t : Bytes) : Prop extends Plain t where
  separator : 47 ∉ t ∧ 92 ∉ t
  colon : 58 ∉ t

/-- The frames of which a printed line is to be read back. -/
structure StackInfo.Plain (s : StackInfo) : Prop where
  address : s.address ≠ 0
  terminated : s.object.Terminated ∧ s.function.Terminated ∧ s.filename.Terminated
  object : PlainName s.object.str ∧ s.object.str ≠ []
  function : StackTrace.Plain s.function.str ∧ s.function.str ≠ []
  filename : PlainName s.filename.str
  line : s.line.toNat < 2 ^ 31 ∧ (s.filename.str = [] → s.line = 0)

/-- What is printed of the frame is read of the text. -/
def StackInfo.ReadsAs (s : StackInfo) (text : Bytes) : Prop :=
  ∃ t, parseLine text = some t ∧ t.address = s.address ∧ t.object.str = s.object.str ∧
    t.function.str = s.function.str ∧ t.filename.str = s.filename.str ∧ t.line = s.line

/-- What `print2` writes behind the file name. -/
def StackInfo.lineText (s : StackInfo) : Bytes :=
  if s.line > 0 then 58 :: numeral 10 s.line.toNat else []

/-- The blanks before a field that is padded. -/
def padding (w : ℕ) (t : Bytes) : ℕ := w - t.length

namespace StackInfo

variable {s : StackInfo}

theorem headD_filename (s : StackInfo) : s.filename.toList.headD 0 ≠ 0 ↔ s.filename.str ≠ [] := by
  unfold CharArray.str cstr
  cases s.filename.toList with
  | nil => simp
  | cons c rest =>
    by_cases hc : c = 0 <;> simp [hc]

theorem two_blanks (n : ℕ) (t : Bytes) :
    ascii "  " ++ (List.replicate n 32 ++ t) = List.replicate (n + 2) 32 ++ t := by
  have hblanks : ascii "  " = [32, 32] := by decide
  rw [hblanks, List.replicate_succ, List.replicate_succ]
  rfl

/-- The object and the function with the blanks before them. -/
theorem Plain.fieldsText_eq (h : s.Plain) (w2 w3 : ℕ) :
    s.fieldsText w2 w3 = List.replicate (padding w2 s.object.str + 2) 32 ++ (s.object.str ++
      (List.replicate (padding w3 s.function.str + 2) 32 ++ (s.function.str ++
        s.locationText))) := by
  unfold fieldsText
  rw [field_natCast, field_natCast]
  unfold padLeft
  simp only [stripPath_eq_self h.object.1.separator, List.append_assoc, two_blanks]
  rfl

theorem Plain.locationText_file (h : s.Plain) (hfile : s.filename.str ≠ []) :
    s.locationText = List.replicate 2 32 ++ (s.filename.str ++ s.lineText) := by
  have hhead := (headD_filename s).mpr hfile
  have hblanks : ascii "  " = List.replicate 2 32 := by decide
  have hcolon : ascii ":" = [58] := by decide
  unfold locationText lineText
  rw [stripPath_eq_self h.filename.separator, hblanks, hcolon]
  by_cases hline : s.line > 0
  · rw [if_pos ⟨hhead, hline⟩, if_pos hline]
    simp
  · rw [if_neg (fun h => hline h.2), if_pos hhead, if_neg hline, List.append_nil]

theorem Plain.locationText_noFile (h : s.Plain) (hfile : s.filename.str = []) :
    s.locationText = [] := by
  have hhead : ¬ s.filename.toList.headD 0 ≠ 0 := fun hne => (headD_filename s).mp hne hfile
  have hline : ¬ s.line > 0 := by
    rw [h.line.2 hfile]
    decide
  unfold locationText
  rw [if_neg fun h => hhead h.1, if_neg hhead, if_neg hline]

end StackInfo

/-! ## Storing the fields -/

/-- What stands behind the file name of a frame, and where the line begins. -/
theorem strchr_line {S pre file number : Bytes} (hfile : 58 ∉ file)
    (hS : S = pre ++ (file ++ number)) (hnumber : number.head? = some 58 ∨ number = []) :
    (strchr S pre.length 58).getD S.length = pre.length + file.length := by
  unfold strchr
  rw [hS, List.drop_left]
  rcases hnumber with hnumber | rfl
  · obtain ⟨digits, rfl⟩ := List.head?_eq_some_iff.mp hnumber
    rw [find_singleton hfile]
    rfl
  · have hnone : find [58] file = none :=
      find_eq_none_iff.mpr fun h => hfile (h.subset (by simp))
    rw [List.append_nil, hnone, List.length_append]
    rfl

/-- The line that is stored: the number behind the colon, if there is one. -/
theorem line_stored {S pre : Bytes} {line : ℕ} (hline : line < 2 ^ 31) {old : UInt32}
    (hold : old = 0) (hS : S = pre ++ if line > 0 then 58 :: numeral 10 line else []) :
    (if pre.length ≠ S.length then
      (atoi (S.drop (pre.length + 1)) % 4294967296).toNat.toUInt32 else old) = line.toUInt32 := by
  by_cases hpos : line > 0
  · rw [if_pos hpos] at hS
    have hdrop : S.drop (pre.length + 1) = numeral 10 line := by
      rw [hS, ← List.drop_drop, List.drop_left]
      rfl
    have hmod : ((line : ℤ) % 4294967296).toNat = line := by omega
    rw [if_pos (by rw [hS]; simp), hdrop, atoi_numeral hline, hmod]
  · rw [if_neg hpos, List.append_nil] at hS
    obtain rfl : line = 0 := by omega
    rw [if_neg (by simp [hS]), hold]
    rfl

section storeFields

variable {S pre object function file : Bytes} {k : ℕ} (stack : StackInfo)

/-- The three fields and the line. -/
theorem storeFields_file (hobject : Plain object ∧ object ≠ [])
    (hfunction : Plain function ∧ function ≠ []) (hfile : PlainName file ∧ file ≠ [])
    (hzero : 0 ∉ object ∧ 0 ∉ function ∧ 0 ∉ file)
    (hlen : object.length < 56 ∧ function.length < 256 ∧ file.length < 64) (hk : k < 2 ^ 30)
    {line : ℕ} (hline : line < 2 ^ 31) (hstack : stack.line = 0)
    (hS : S = pre ++ (object ++ (List.replicate (k + 2) 32 ++ (function ++
      (List.replicate 2 32 ++ (file ++ if line > 0 then 58 :: numeral 10 line else [])))))) :
    ∃ t, storeFields S pre.length (pre.length + (object.length + (k + 2)))
        (pre.length + (object.length + (k + 2)) + (function.length + 2)) stack = some t ∧
      t.address = stack.address ∧ t.object.str = object ∧ t.function.str = function ∧
      t.filename.str = file ∧ t.line = line.toUInt32 := by
  obtain ⟨hobject, hone⟩ := hobject
  obtain ⟨hfunction, hfne⟩ := hfunction
  obtain ⟨hfile, hfilene⟩ := hfile
  generalize htail : (if line > 0 then 58 :: numeral 10 line else []) = tail at hS
  -- the text with the pointers at the function, at the file name and behind it
  have hS4 : S = (pre ++ (object ++ List.replicate (k + 2) 32)) ++
      (function ++ (List.replicate 2 32 ++ (file ++ tail))) := by
    rw [hS]
    simp
  have hS5 : S = (pre ++ (object ++ List.replicate (k + 2) 32) ++
      (function ++ List.replicate 2 32)) ++ (file ++ (List.replicate 0 32 ++ tail)) := by
    rw [hS]
    simp
  have hS6 : S = (pre ++ (object ++ List.replicate (k + 2) 32) ++
      (function ++ List.replicate 2 32) ++ file) ++ tail := by
    rw [hS]
    simp
  obtain ⟨o, ho, ho'⟩ := str_copyField (n := 56) hone hobject.last hzero.1 hlen.1 pre
    (function ++ (List.replicate 2 32 ++ (file ++ tail))) (k + 2) (by omega)
  obtain ⟨f, hf, hf'⟩ := str_copyField (n := 256) hfne hfunction.last hzero.2.1 hlen.2.1
    (pre ++ (object ++ List.replicate (k + 2) 32)) (file ++ tail) 2 (by omega)
  obtain ⟨n, hn, hn'⟩ := str_copyField (n := 64) hfilene hfile.last hzero.2.2 hlen.2.2
    (pre ++ (object ++ List.replicate (k + 2) 32) ++ (function ++ List.replicate 2 32)) tail 0
    (by omega)
  have htailhead : tail.head? = some 58 ∨ tail = [] := by
    rw [← htail]
    split_ifs <;> simp
  have hp6 := strchr_line hfile.colon hS5 htailhead
  have hlast := line_stored hline hstack (htail ▸ hS6)
  rw [← hS] at ho
  rw [← hS4] at hf
  rw [← hS5] at hn
  simp only [List.length_append, List.length_replicate, Nat.add_zero] at hf hn hp6 hlast
  unfold storeFields
  simp only [hp6, ho, hf, hn, hlast, Option.bind_eq_bind, Option.bind_some]
  exact ⟨_, rfl, rfl, ho', hf', hn', rfl⟩

/-- The object and the function, without a file name. -/
theorem storeFields_noFile (hobject : Plain object ∧ object ≠ [])
    (hfunction : Plain function ∧ function ≠ []) (hzero : 0 ∉ object ∧ 0 ∉ function)
    (hlen : object.length < 56 ∧ function.length < 256) (hk : k < 2 ^ 30)
    (hS : S = pre ++ (object ++ (List.replicate (k + 2) 32 ++ function))) :
    ∃ t, storeFields S pre.length (pre.length + (object.length + (k + 2))) S.length stack = some t ∧
      t.address = stack.address ∧ t.object.str = object ∧ t.function.str = function ∧
      t.filename.str = [] ∧ t.line = stack.line := by
  obtain ⟨hobject, hone⟩ := hobject
  obtain ⟨hfunction, hfne⟩ := hfunction
  have hS4 : S = (pre ++ (object ++ List.replicate (k + 2) 32)) ++
      (function ++ (List.replicate 0 32 ++ [])) := by
    rw [hS]
    simp
  have hlength : S.length = pre.length + (object.length + (k + 2)) + function.length := by
    rw [hS]
    simp [Nat.add_assoc]
  obtain ⟨o, ho, ho'⟩ := str_copyField (n := 56) hone hobject.last hzero.1 hlen.1 pre function
    (k + 2) (by omega)
  obtain ⟨f, hf, hf'⟩ := str_copyField (n := 256) hfne hfunction.last hzero.2 hlen.2
    (pre ++ (object ++ List.replicate (k + 2) 32)) [] 0 (by omega)
  obtain ⟨n, hn, hn'⟩ := str_copyField_nil 64 S S.length
  have hp6 : (strchr S S.length 58).getD S.length = S.length := by
    unfold strchr
    rw [List.drop_length]
    rfl
  rw [← hS] at ho
  rw [← hS4] at hf
  simp only [List.length_append, List.length_replicate, Nat.add_zero, ← hlength] at hf
  unfold storeFields
  simp only [hp6, ho, hf, hn, Option.bind_eq_bind, Option.bind_some]
  exact ⟨_, rfl, rfl, ho', hf', hn', if_neg (by simp)⟩

/-- An object that is taken for the function leaves the object empty. -/
theorem storeFields_shifted {p3 p5 : ℕ} {stack t : StackInfo}
    (h : storeFields S p3 p3 p5 stack = some t) : t.object.str = [] := by
  obtain ⟨o, ho, h⟩ := Option.bind_eq_some_iff.mp h
  obtain ⟨f, -, h⟩ := Option.bind_eq_some_iff.mp h
  obtain ⟨n, -, h⟩ := Option.bind_eq_some_iff.mp h
  obtain rfl := Option.some.inj h
  obtain ⟨o', ho', hnil⟩ := str_copyField_nil 56 S p3
  rw [ho] at ho'
  rw [← Option.some.inj ho'] at hnil
  exact hnil

end storeFields

/-! ## Reading back -/

namespace StackInfo

variable {s : StackInfo}

/-- The frames that are read back: no missing file name is taken for a missing object. -/
def KeepsFields (s : StackInfo) : Prop := s.filename.str ≠ [] ∨ 3 ≤ s.object.str.length

theorem Plain.printable (h : s.Plain) : s.Printable :=
  ⟨⟨h.terminated.1, h.object.1.newline⟩, ⟨h.terminated.2.1, h.function.1.newline⟩,
    ⟨h.terminated.2.2, h.filename.newline⟩⟩

/-- What `parseLine` reads behind the address. -/
theorem Plain.parseFields (h : s.Plain) (A : Bytes) (hA : A.length < 2 ^ 20) (stack : StackInfo)
    (hstack : stack.line = 0) :
    ∃ t, StackTrace.parseFields (A ++ 58 :: s.fieldsText 20 40) A.length stack = some t ∧
      t.address = stack.address ∧
      (t.object.str = s.object.str ∧ t.function.str = s.function.str ∧
        t.filename.str = s.filename.str ∧ t.line = s.line ↔ s.KeepsFields) := by
  have hobject := CharArray.length_str_lt h.terminated.1
  have hfunction := CharArray.length_str_lt h.terminated.2.1
  have hfilename := CharArray.length_str_lt h.terminated.2.2
  have hzero := And.intro s.object.zero_notMem_str s.function.zero_notMem_str
  have hlength : (s.fieldsText 20 40).length ≤ _ := length_fieldsText_le h.printable.textsEnd 20 40
  have htext : s.fieldsText 20 40 = _ := h.fieldsText_eq 20 40
  obtain ⟨S, hS⟩ : ∃ S, S = A ++ 58 :: s.fieldsText 20 40 := ⟨_, rfl⟩
  -- the text up to the object
  obtain ⟨i, hi⟩ : ∃ i, i = padding 20 s.object.str + 2 := ⟨_, rfl⟩
  obtain ⟨pre, hpre⟩ : ∃ pre, pre = A ++ [58] ++ List.replicate i 32 := ⟨_, rfl⟩
  have hprelength : pre.length = A.length + 1 + i := by
    rw [hpre]
    simp
    omega
  have hSpre : S = pre ++ (s.object.str ++ (List.replicate (padding 40 s.function.str + 2) 32 ++
      (s.function.str ++ s.locationText))) := by
    rw [hS, htext, hpre, ← hi]
    simp
  have hp3 : skipBlanks S (A.length + 1) = pre.length := by
    have hskip := skipBlanks_append (A ++ [58])
      (List.replicate (padding 40 s.function.str + 2) 32 ++ (s.function.str ++ s.locationText)) i
      h.object.2 h.object.1.head
    rw [← List.append_assoc, ← hpre, ← hSpre] at hskip
    rw [hprelength]
    simpa using hskip
  have hend : pre.length ≠ S.length := by
    rw [hSpre]
    simp [h.object.2]
  have hpadding : padding 40 s.function.str < 2 ^ 30 := by
    unfold padding
    omega
  have hread : ∃ t, StackTrace.parseFields S A.length stack = some t ∧ t.address = stack.address :=
    parseFields_address (by rw [hS]; simp; omega) (by rw [hS]; simp) stack
  obtain ⟨t, ht, haddress⟩ := hread
  rw [← hS]
  refine ⟨t, ht, haddress, ?_⟩
  unfold StackTrace.parseFields at ht
  simp only [hp3] at ht
  rw [if_neg hend] at ht
  unfold KeepsFields
  by_cases hfile : s.filename.str = []
  · rw [h.locationText_noFile hfile, List.append_nil] at hSpre
    rw [fieldStarts_noFile h.object.1.toPlain h.function.1 h.function.2 A.length hSpre] at ht
    by_cases hshort : s.object.str.length < 3
    -- the object is taken for the function
    · have hshift : pre.length - A.length > 20 := by
        unfold padding at hi
        omega
      rw [if_pos hshift] at ht
      have hnil := storeFields_shifted ht
      refine iff_of_false (fun hsame => ?_) (by simp [hfile, hshort])
      rw [hnil] at hsame
      exact h.object.2 hsame.1.symm
    · have hshift : ¬ pre.length - A.length > 20 := by
        unfold padding at hi
        omega
      rw [if_neg hshift] at ht
      obtain ⟨t', ht', -, h1, h2, h3, h4⟩ := storeFields_noFile stack
        ⟨h.object.1.toPlain, h.object.2⟩ h.function hzero ⟨hobject, hfunction⟩ hpadding hSpre
      obtain rfl := Option.some.inj (ht.symm.trans ht')
      refine iff_of_true ⟨h1, h2, h3.trans hfile.symm, ?_⟩ (.inr (by omega))
      rw [h4, hstack, h.line.2 hfile]
  · rw [h.locationText_file hfile] at hSpre
    rw [fieldStarts_file h.object.1.toPlain h.function.1 h.function.2 hfile h.filename.head A.length
      hSpre] at ht
    have hline : s.lineText =
        if s.line.toNat > 0 then 58 :: numeral 10 s.line.toNat else [] := rfl
    rw [hline] at hSpre
    obtain ⟨t', ht', -, h1, h2, h3, h4⟩ := storeFields_file stack
      ⟨h.object.1.toPlain, h.object.2⟩ h.function ⟨h.filename, hfile⟩
      ⟨hzero.1, hzero.2, s.filename.zero_notMem_str⟩ ⟨hobject, hfunction, hfilename⟩ hpadding
      h.line.1 hstack hSpre
    obtain rfl := Option.some.inj (ht.symm.trans ht')
    exact iff_of_true ⟨h1, h2, h3, h4.trans (by simp)⟩ (.inl hfile)

end StackInfo

/-! ## Main result -/

namespace MultiStackInfo

theorem maxWidth_const (n : ℕ) (t : MultiStackInfo) : maxWidth (fun _ => n) t = n := by
  have hloop : ∀ cs : List MultiStackInfo, maxWidthLoop (fun _ => n) n cs = n := by
    intro cs
    induction cs using forest_induction with
    | nil => rfl
    | cons x xs ihx ihxs =>
      obtain ⟨N, stack, children⟩ := x
      rw [maxWidthLoop, maxWidth, ihx, max_self]
      exact ihxs
  obtain ⟨N, stack, children⟩ := t
  rw [maxWidth]
  exact hloop children

theorem getObjectWidth_eq (t : MultiStackInfo) : t.getObjectWidth = 20 := by
  unfold getObjectWidth
  simp only [CharArray.length_toList]
  exact maxWidth_const 20 t

theorem getFunctionWidth_eq (t : MultiStackInfo) : t.getFunctionWidth = 40 := by
  unfold getFunctionWidth
  simp only [CharArray.length_toList]
  exact maxWidth_const 40 t

end MultiStackInfo

/-- What a tree prints for a frame is read back if and only if the address has no sign bit,
    and there is a file name or an object of three characters. -/
theorem parseLine_print2_iff (s : StackInfo) (h : s.Plain) (t : MultiStackInfo) :
    ∃ text, s.print2 t.widths.address t.widths.object t.widths.function = some text ∧
      (s.ReadsAs text ↔ s.address.toNat < 2 ^ 63 ∧ s.KeepsFields) := by
  have hdigits : (numeral 16 s.address.toNat).length ≤ 16 :=
    length_numeral_le (by norm_num) (by norm_num) s.address.toNat_lt
  have hw : t.widths.address ≤ 16 := t.getAddressWidth_le
  have hobject : t.widths.object = 20 := t.getObjectWidth_eq
  have hfunction : t.widths.function = 40 := t.getFunctionWidth_eq
  rw [StackInfo.print2_text h.printable.textsEnd, hobject, hfunction, Nat.cast_ofNat,
    Nat.cast_ofNat]
  refine ⟨_, rfl, ?_⟩
  unfold padLeft
  generalize hk : t.widths.address - (numeral 16 s.address.toNat).length = k
  have hparse := parseLine_hex_eq s.address.toNat (k := k) (by omega) (s.fieldsText 20 40)
  obtain ⟨A, hA⟩ : ∃ A, A = 48 :: 120 :: (List.replicate k 48 ++ numeral 16 s.address.toNat) :=
    ⟨_, rfl⟩
  have hlength : A.length = k + (numeral 16 s.address.toNat).length + 2 := by
    rw [hA]
    simp
  have htext : 48 :: 120 :: (List.replicate k 48 ++ numeral 16 s.address.toNat ++
      58 :: s.fieldsText 20 40) = A ++ 58 :: s.fieldsText 20 40 := by
    rw [hA]
    rfl
  rw [htext, ← hlength] at hparse
  rw [htext]
  obtain ⟨u, hu, haddress, hfields⟩ := h.parseFields A (by omega)
    { StackInfo.init with
      address := (min s.address.toNat (2 ^ 63 - 1)).toUInt64
      address2 := (min s.address.toNat (2 ^ 63 - 1)).toUInt64 } rfl
  rw [hu] at hparse
  have hsame : u.address = s.address ↔ s.address.toNat < 2 ^ 63 := by
    rw [haddress]
    constructor
    · intro heq
      have hnat := congrArg UInt64.toNat heq
      simp at hnat
      omega
    · intro hlt
      rw [min_eq_left (by omega)]
      simp
  rw [← hsame, ← hfields]
  constructor
  · rintro ⟨u', hu', h1, h2⟩
    obtain rfl := Option.some.inj (hparse.symm.trans hu')
    exact ⟨h1, h2⟩
  · rintro ⟨h1, h2⟩
    exact ⟨u, hparse, h1, h2⟩

/-- A frame of a program with a file name. -/
def mainFrame : StackInfo :=
  .ofFields 0x401136 0x1136 (ascii "a.out") (ascii "main") (ascii "main.cpp")

theorem plain_mainFrame : mainFrame.Plain := by
  refine ⟨by decide, by decide, ⟨⟨⟨?_, ?_, ?_, ?_⟩, ?_, ?_⟩, ?_⟩, ⟨⟨?_, ?_, ?_, ?_⟩, ?_⟩,
    ⟨⟨?_, ?_, ?_, ?_⟩, ?_, ?_⟩, ?_, ?_⟩ <;> decide +kernel

theorem parseLine_print2_iff_mainFrame :
    let w := (⟨1, mainFrame, []⟩ : MultiStackInfo).widths
    ∃ text, mainFrame.print2 w.address w.object w.function = some text ∧
      (mainFrame.ReadsAs text ↔ mainFrame.address.toNat < 2 ^ 63 ∧ mainFrame.KeepsFields) :=
  parseLine_print2_iff mainFrame plain_mainFrame ⟨1, mainFrame, []⟩

/-- A frame of the program `sh`, without a file name. -/
def shFrame : StackInfo := .ofFields 0x401136 0x1136 (ascii "sh") (ascii "main") []

theorem plain_shFrame : shFrame.Plain := by
  refine ⟨by decide, by decide, ⟨⟨⟨?_, ?_, ?_, ?_⟩, ?_, ?_⟩, ?_⟩, ⟨⟨?_, ?_, ?_, ?_⟩, ?_⟩,
    ⟨⟨?_, ?_, ?_, ?_⟩, ?_, ?_⟩, ?_, ?_⟩ <;> decide +kernel

/-- Its object is read as its function. -/
theorem shFrame_not_read :
    ¬ ∀ s : StackInfo, s.Plain → ∀ t : MultiStackInfo, ∃ text,
      s.print2 t.widths.address t.widths.object t.widths.function = some text ∧
        s.ReadsAs text := by
  intro h
  obtain ⟨t, ht⟩ : ∃ t : MultiStackInfo, t = ⟨1, shFrame, []⟩ := ⟨_, rfl⟩
  obtain ⟨text, htext, u, hu, -, hobject, -⟩ := h shFrame plain_shFrame t
  have hread : ((shFrame.print2 t.widths.address t.widths.object t.widths.function).bind
      parseLine).map (fun u => u.object.str) = some [] := by
    rw [ht]
    decide +kernel
  rw [htext, Option.bind_some, hu, Option.map_some, hobject] at hread
  exact absurd hread (by decide)

end StackTrace
