import StackTrace.Base.Numerals

/-!
# The ids that `ps` prints

`get_tid`, `StackTraceThreads.cpp`, lines 94–122. `activeThreads` hands it every
line of `ps -T -p <pid>` and keeps the second field of those whose first one is
`pid`. Both fields are read in one scratch buffer `buf2`. The terminator of a
field goes to `buf2[i2 - i1 + 1]`, one byte behind the place where the field
ends.

* `get_tid_line`: behind a field that is shorter than the process id one digit of the
  process id is still there, and is read too.
* `get_tid_iff`: which lines are read right.
-/

namespace StackTrace

/-! ## The function -/

/-- `while ( !p( line[i] ) ) i++`: the first position from `i` on whose byte has `p`. The
    loop leaves `line`, which are the bytes from the pointer to the end of its array, if
    there is none. -/
def advance (p : UInt8 → Bool) (line : Bytes) (i : ℕ) : Option ℕ :=
  ((line.drop i).findIdx? p).map (i + ·)

/-- `memcpy( buf2, &line[i1], i2 - i1 ); buf2[i2 - i1 + 1] = 0; atoi( buf2 )`: the number
    and what is in `buf2`. -/
def takeField (line buf2 : Bytes) (i1 i2 : ℕ) : Option (ℤ × Bytes) := do
  let field ← Buffer.read line i1 (i2 - i1)
  let buf2 ← Buffer.write buf2 0 field
  let buf2 ← Buffer.write buf2 (i2 - i1 + 1) [0]
  let (value, _) ← strtol 10 buf2
  some (value.bmod 4294967296, buf2)

/-- `get_tid( pid, line )` (lines 94–122). -/
def get_tid (pid : ℤ) (line : Bytes) : Option ℤ := do
  let buf2 := List.replicate 128 0
  let i1 ← advance (· ≠ 32) line 0
  let i2 ← advance (· = 32) line i1
  let (pid2, buf2) ← takeField line buf2 i1 i2
  if pid2 ≠ pid then some (-1)
  else
    let i1 ← advance (· ≠ 32) line i2
    let i2 ← advance (· = 32) line i1
    let (tid, _) ← takeField line buf2 i1 i2
    some tid

/-! ## The parts of a line -/

theorem advance_eq {p : UInt8 → Bool} {pre s rest : Bytes} {c : UInt8}
    (hs : ∀ d ∈ s, p d = false) (hc : p c = true) :
    advance p (pre ++ (s ++ c :: rest)) pre.length = some (pre.length + s.length) := by
  have hfind : (s ++ c :: rest).findIdx? p = some s.length := by
    rw [List.findIdx?_append, List.findIdx?_eq_none_iff.mpr hs, List.findIdx?_cons, hc]
    simp
  unfold advance
  rw [List.drop_left, hfind]
  rfl

theorem takeField_eq {s old : Bytes} (hlen : old.length = s.length) (pre rest post : Bytes)
    (d e : UInt8) :
    takeField (pre ++ s ++ rest) (old ++ d :: e :: post) pre.length (pre.length + s.length) =
      (strtol 10 (s ++ d :: 0 :: post)).map fun r =>
        (r.1.bmod 4294967296, s ++ d :: 0 :: post) := by
  have hread : Buffer.read (pre ++ s ++ rest) pre.length s.length = some s :=
    Buffer.read_split pre rest rfl
  have hcopy : Buffer.write (old ++ d :: e :: post) 0 s = some (s ++ d :: e :: post) :=
    Buffer.write_split [] (d :: e :: post) hlen
  have hend : Buffer.write (s ++ d :: e :: post) (s.length + 1) [0] =
      some (s ++ d :: 0 :: post) := by
    have h := Buffer.write_one (s ++ [d]) post e 0
    simpa using h
  unfold takeField
  rw [Nat.add_sub_cancel_left]
  simp only [hread, hcopy, hend, Option.bind_eq_bind, Option.bind_some]
  cases strtol 10 (s ++ d :: 0 :: post) <;> rfl

/-- A field of digits before a byte that is none. -/
theorem takeField_digits {s old : Bytes} (hlen : old.length = s.length)
    (hs : ∀ c ∈ s, isDigit 10 c = true) (hne : s ≠ []) (hval : digitsVal 10 s < 2 ^ 31)
    (pre rest post : Bytes) (e : UInt8) :
    takeField (pre ++ s ++ rest) (old ++ 0 :: e :: post) pre.length (pre.length + s.length) =
      some ((digitsVal 10 s : ℤ), s ++ 0 :: 0 :: post) := by
  have hread : strtol 10 (s ++ 0 :: 0 :: post) = some ((digitsVal 10 s : ℤ), s.length) := by
    rw [strtol_of_takeSign (takeSign_digits hs hne) hs hne (not_isDigit_zero 10) (by decide)]
    norm_num
    omega
  rw [takeField_eq hlen, hread]
  show some ((digitsVal 10 s : ℤ).bmod 4294967296, _) = _
  rw [Int.bmod_eq_of_le (by norm_num) (by norm_num; omega)]

/-- A field of digits before a digit that is still in the buffer. -/
theorem takeField_leftover {s old : Bytes} {d : UInt8} (hlen : old.length = s.length)
    (hs : ∀ c ∈ s, isDigit 10 c = true) (hd : isDigit 10 d = true)
    (hval : digitsVal 10 s < 2 ^ 31) (pre rest post : Bytes) (e : UInt8) :
    takeField (pre ++ s ++ rest) (old ++ d :: e :: post) pre.length (pre.length + s.length) =
      some ((10 * digitsVal 10 s + (digitVal d).getD 0 : ℤ).bmod 4294967296,
        s ++ d :: 0 :: post) := by
  have hsnoc : ∀ c ∈ s ++ [d], isDigit 10 c = true := by
    intro c hc
    rcases List.mem_append.mp hc with hc | hc
    · exact hs c hc
    · rw [List.mem_singleton.mp hc]
      exact hd
  have hlt : (digitVal d).getD 0 < 10 := by
    unfold isDigit at hd
    cases hv : digitVal d with
    | none => simp [hv] at hd
    | some v => simpa [hv] using hd
  have hread : strtol 10 (s ++ d :: 0 :: post) =
      some ((10 * digitsVal 10 s + (digitVal d).getD 0 : ℤ), s.length + 1) := by
    have hsign : takeSign ((s ++ [d] ++ 0 :: post).dropWhile isspace) =
        (false, s ++ [d] ++ 0 :: post) := takeSign_digits hsnoc (by simp)
    have h := strtol_of_takeSign hsign hsnoc (by simp) (not_isDigit_zero 10) (by decide)
    rw [digitsVal_snoc, List.append_assoc] at h
    rw [show s ++ d :: 0 :: post = s ++ ([d] ++ 0 :: post) from rfl, h]
    norm_num
    omega
  rw [takeField_eq hlen, hread]
  rfl

/-! ## A line of `ps -T` -/

/-- Blanks, the process id, blanks, the thread id, a blank and further text. -/
def psLine (blanks a more t : ℕ) (text : Bytes) : Bytes :=
  List.replicate blanks 32 ++
    (numeral 10 a ++ 32 :: (List.replicate more 32 ++ (numeral 10 t ++ 32 :: text)))

/-- The digit of `n` behind its first `i` ones. -/
def digitAt (n i : ℕ) : ℕ := (digitVal ((numeral 10 n).getD i 48)).getD 0

/-- What is read of the thread id `t` when `a` is in the buffer. -/
def readBehind (a t : ℕ) : ℤ :=
  if (numeral 10 a).length ≤ (numeral 10 t).length then t
  else (10 * t + digitAt a (numeral 10 t).length : ℤ).bmod 4294967296

theorem isDigit_ne_blank {c : UInt8} (h : isDigit 10 c = true) : c ≠ 32 := by
  rintro rfl
  exact absurd h (by decide)

theorem advance_numeral (pre rest : Bytes) (n : ℕ) :
    advance (· = 32) (pre ++ (numeral 10 n ++ 32 :: rest)) pre.length =
      some (pre.length + (numeral 10 n).length) := by
  refine advance_eq (fun c hc => ?_) (by decide)
  have hdigit := isDigit_of_mem_numeral (by norm_num) (by norm_num) n c hc
  simpa using isDigit_ne_blank hdigit

theorem advance_blanks (pre rest : Bytes) (k n : ℕ) :
    advance (· ≠ 32) (pre ++ (List.replicate k 32 ++ (numeral 10 n ++ rest))) pre.length =
      some (pre.length + k) := by
  obtain ⟨c, s, hs⟩ := List.exists_cons_of_ne_nil (numeral_ne_nil 10 n)
  have hdigit : isDigit 10 c = true :=
    isDigit_of_mem_numeral (by norm_num) (by norm_num) n c (by simp [hs])
  rw [hs, List.cons_append, advance_eq, List.length_replicate]
  · intro d hd
    simp [List.eq_of_mem_replicate hd]
  · simpa using isDigit_ne_blank hdigit

/-- The first field is read in a buffer of zeros. -/
theorem takeField_first {a : ℕ} (ha : a < 2 ^ 31) (pre rest : Bytes) :
    takeField (pre ++ numeral 10 a ++ rest) (List.replicate 128 0) pre.length
        (pre.length + (numeral 10 a).length) =
      some ((a : ℤ), numeral 10 a ++ List.replicate (128 - (numeral 10 a).length) 0) := by
  have hlen : (numeral 10 a).length ≤ 10 :=
    length_numeral_le (by norm_num) (by norm_num) (by omega)
  have hbuf : List.replicate 128 (0 : UInt8) = List.replicate (numeral 10 a).length 0 ++
      0 :: 0 :: List.replicate (126 - (numeral 10 a).length) 0 := by
    rw [← List.replicate_succ, ← List.replicate_succ, List.replicate_append_replicate]
    congr 1
    omega
  have hval := digitsVal_numeral (b := 10) (by norm_num) (by norm_num) a
  have hrest : List.replicate (128 - (numeral 10 a).length) (0 : UInt8) =
      0 :: 0 :: List.replicate (126 - (numeral 10 a).length) 0 := by
    rw [← List.replicate_succ, ← List.replicate_succ]
    congr 1
    omega
  rw [hbuf, takeField_digits (by simp) (isDigit_of_mem_numeral (by norm_num) (by norm_num) a)
    (numeral_ne_nil 10 a) (by omega), hval, hrest]

/-- The second field is read in the buffer that the first one has left. -/
theorem takeField_second {a t : ℕ} (ha : a < 2 ^ 31) (ht : t < 2 ^ 31) (pre rest : Bytes) :
    (takeField (pre ++ numeral 10 t ++ rest)
        (numeral 10 a ++ List.replicate (128 - (numeral 10 a).length) 0) pre.length
        (pre.length + (numeral 10 t).length)).map Prod.fst = some (readBehind a t) := by
  have hlena : (numeral 10 a).length ≤ 10 :=
    length_numeral_le (by norm_num) (by norm_num) (by omega)
  have hlent : (numeral 10 t).length ≤ 10 :=
    length_numeral_le (by norm_num) (by norm_num) (by omega)
  have hdigits := isDigit_of_mem_numeral (b := 10) (by norm_num) (by norm_num) t
  have hval := digitsVal_numeral (b := 10) (by norm_num) (by norm_num) t
  unfold readBehind
  split_ifs with hle
  · -- the bytes behind the field have never been written
    have hbuf : numeral 10 a ++ List.replicate (128 - (numeral 10 a).length) 0 =
        (numeral 10 a ++ List.replicate ((numeral 10 t).length - (numeral 10 a).length) 0) ++
          0 :: 0 :: List.replicate (126 - (numeral 10 t).length) 0 := by
      rw [List.append_assoc, ← List.replicate_succ, ← List.replicate_succ,
        List.replicate_append_replicate]
      congr 2
      omega
    rw [hbuf, takeField_digits (by simp; omega) hdigits (numeral_ne_nil 10 t) (by omega), hval]
    rfl
  · -- a digit of the process id stands behind the field
    have hlt : (numeral 10 t).length < (numeral 10 a).length := by omega
    have hbuf : numeral 10 a ++ List.replicate (128 - (numeral 10 a).length) 0 =
        (numeral 10 a).take (numeral 10 t).length ++ (numeral 10 a)[(numeral 10 t).length] ::
          ((numeral 10 a).drop ((numeral 10 t).length + 1) ++
            List.replicate (128 - (numeral 10 a).length) 0) := by
      rw [← List.cons_append, ← List.drop_eq_getElem_cons hlt, ← List.append_assoc,
        List.take_append_drop]
    obtain ⟨e, post, hpost⟩ := List.exists_cons_of_ne_nil
      (show (numeral 10 a).drop ((numeral 10 t).length + 1) ++
        List.replicate (128 - (numeral 10 a).length) 0 ≠ [] by simp; omega)
    have hdigit : isDigit 10 (numeral 10 a)[(numeral 10 t).length] = true :=
      isDigit_of_mem_numeral (by norm_num) (by norm_num) a _ (List.getElem_mem hlt)
    rw [hbuf, hpost, takeField_leftover (by simp; omega) hdigits hdigit (by omega), hval,
      Option.map_some]
    unfold digitAt
    rw [List.getD_eq_getElem _ _ hlt]

/-- What is read of a line. -/
theorem get_tid_line (pid : ℤ) (blanks more : ℕ) {a t : ℕ} (ha : a < 2 ^ 31) (ht : t < 2 ^ 31)
    (text : Bytes) :
    get_tid pid (psLine blanks a more t text) =
      some (if (a : ℤ) = pid then readBehind a t else -1) := by
  -- the positions that the four loops reach
  have hblanks : advance (· ≠ 32) (psLine blanks a more t text) 0 = some blanks := by
    have h := advance_blanks [] (32 :: (List.replicate more 32 ++ (numeral 10 t ++ 32 :: text)))
      blanks a
    simpa [psLine] using h
  have hpid : advance (· = 32) (psLine blanks a more t text) blanks =
      some (blanks + (numeral 10 a).length) := by
    have h := advance_numeral (List.replicate blanks 32)
      (List.replicate more 32 ++ (numeral 10 t ++ 32 :: text)) a
    simpa [psLine] using h
  have hmore : advance (· ≠ 32) (psLine blanks a more t text) (blanks + (numeral 10 a).length) =
      some (blanks + (numeral 10 a).length + (more + 1)) := by
    have h := advance_blanks (List.replicate blanks 32 ++ numeral 10 a) (32 :: text) (more + 1) t
    simpa [psLine, List.replicate_succ] using h
  have htid : advance (· = 32) (psLine blanks a more t text)
      (blanks + (numeral 10 a).length + (more + 1)) =
        some (blanks + (numeral 10 a).length + (more + 1) + (numeral 10 t).length) := by
    have h := advance_numeral
      (List.replicate blanks 32 ++ numeral 10 a ++ 32 :: List.replicate more 32) text t
    simpa [psLine, Nat.add_assoc] using h
  -- the two fields
  have hfirst := takeField_first ha (List.replicate blanks 32)
    (32 :: (List.replicate more 32 ++ (numeral 10 t ++ 32 :: text)))
  have hsecond := takeField_second ha ht
    (List.replicate blanks 32 ++ numeral 10 a ++ 32 :: List.replicate more 32) (32 :: text)
  rw [List.length_replicate, List.append_assoc] at hfirst
  have hline : List.replicate blanks 32 ++ numeral 10 a ++ 32 :: List.replicate more 32 ++
      numeral 10 t ++ 32 :: text = psLine blanks a more t text := by
    simp [psLine]
  have hpos : (List.replicate blanks 32 ++ numeral 10 a ++ 32 :: List.replicate more 32).length =
      blanks + (numeral 10 a).length + (more + 1) := by
    simp [Nat.add_assoc]
  rw [hline, hpos] at hsecond
  obtain ⟨⟨tid, buf2⟩, htake, rfl⟩ := Option.map_eq_some_iff.mp hsecond
  unfold get_tid
  simp only [hblanks, hpid, Option.bind_eq_bind, Option.bind_some]
  rw [show takeField (psLine blanks a more t text) _ blanks _ = _ from hfirst]
  simp only [Option.bind_some, hmore, htid, htake]
  by_cases ha' : (a : ℤ) = pid
  · rw [if_neg (by simpa using ha'), if_pos ha']
  · rw [if_pos ha', if_neg ha']

/-! ## When the thread id is read right -/

theorem readBehind_eq_iff {a t : ℕ} (ht : t < 2 ^ 31) :
    readBehind a t = t ↔ (numeral 10 a).length ≤ (numeral 10 t).length ∨
      4294967296 ∣ 9 * t + digitAt a (numeral 10 t).length := by
  unfold readBehind
  split_ifs with hle
  · simp [hle]
  · have hdvd : (10 * t + digitAt a (numeral 10 t).length : ℤ).bmod 4294967296 = t ↔
        4294967296 ∣ 9 * t + digitAt a (numeral 10 t).length := by
      rw [Int.bmod_def]
      split_ifs <;> omega
    rw [hdvd, or_iff_right hle]

/-- The thread id of a line is read right if and only if the line is one of another process,
    the thread id has no fewer digits than the process id, or the digit behind it happens to
    make no difference. -/
theorem get_tid_iff (pid : ℤ) (blanks more : ℕ) {a t : ℕ} (ha : a < 2 ^ 31) (ht : t < 2 ^ 31)
    (text : Bytes) :
    get_tid pid (psLine blanks a more t text) = some (if (a : ℤ) = pid then (t : ℤ) else -1) ↔
      (a : ℤ) ≠ pid ∨ (numeral 10 a).length ≤ (numeral 10 t).length ∨
        4294967296 ∣ 9 * t + digitAt a (numeral 10 t).length := by
  rw [get_tid_line pid blanks more ha ht text, Option.some.injEq]
  by_cases hpid : (a : ℤ) = pid
  · rw [if_pos hpid, if_pos hpid, readBehind_eq_iff ht]
    simp [hpid]
  · rw [if_neg hpid, if_neg hpid]
    simp [hpid]

theorem get_tid_iff_shell :
    (123 : ℕ) < 2 ^ 31 ∧ (4567 : ℕ) < 2 ^ 31 ∧
      (get_tid 123 (psLine 2 123 1 4567 (ascii "pts/0")) =
          some (if ((123 : ℕ) : ℤ) = 123 then ((4567 : ℕ) : ℤ) else -1) ↔
        ((123 : ℕ) : ℤ) ≠ 123 ∨ (numeral 10 123).length ≤ (numeral 10 4567).length ∨
          4294967296 ∣ 9 * 4567 + digitAt 123 (numeral 10 4567).length) :=
  ⟨by norm_num, by norm_num, get_tid_iff 123 2 1 (by norm_num) (by norm_num) (ascii "pts/0")⟩

/-- The thread 678 of the process 12345 is taken for the thread 6784. -/
theorem get_tid_shorter :
    get_tid 12345 (psLine 2 12345 4 678 (ascii "pts/0")) = some 6784 ∧
      some (6784 : ℤ) ≠ some (if (12345 : ℕ) = (12345 : ℤ) then ((678 : ℕ) : ℤ) else -1) := by
  rw [get_tid_line 12345 2 4 (by norm_num) (by norm_num)]
  decide +kernel

end StackTrace
