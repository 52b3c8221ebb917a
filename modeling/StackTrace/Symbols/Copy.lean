import StackTrace.Text.Print

/-!
# `copy`: a C string into an array

`StackTrace.cpp`, lines 206–281. A string that is too long is cut and ends in three
dots; in any case the last character of the array is a NUL.

* `terminated_copy`, `terminated_copyPath`: every array that `copy` fills holds a NUL.
* `str_copy`: a string that fits is copied as it is.
-/

namespace StackTrace

/-! ## Model -/

/-- Three dots and a NUL at the end of the array. -/
def CharArray.dots {N : ℕ} (out : CharArray N) : CharArray N :=
  ⟨(((out.toList.set (N - 4) 46).set (N - 3) 46).set (N - 2) 46).set (N - 1) 0,
    by simp [out.length_toList]⟩

/-- `copy( const char *in, std::array<char, N2> &out )` (lines 244–253). -/
def copy (N2 : ℕ) (s : Bytes) : CharArray N2 :=
  let N1 := s.length
  let out : CharArray N2 := .ofText N2 (s.take (min N1 (N2 - 1)))
  if N1 ≥ N2 then out.dots else out

/-- `copy( const std::array<char, N1> &in, std::array<char, N2> &out )` (lines 254–264):
    `strlen2` of an array without a NUL is its size. -/
def copyArray (N2 : ℕ) {N1 : ℕ} (a : CharArray N1) : CharArray N2 := copy N2 a.str

/-- `copy( const char *in, std::array<char, N2> &out, std::array<char, N3> &outPath )`
    (lines 265–278): the name behind the last separator, and what precedes that
    separator, which is copied in the same way. -/
def copyPath (N2 N3 : ℕ) (s : Bytes) : CharArray N2 × CharArray N3 :=
  let ptr := stripPath s
  (copy N2 ptr,
    if ptr.length ≠ s.length then copy N3 (s.take (s.length - ptr.length - 1)) else .zero N3)

/-! ## The NUL at the end -/

theorem CharArray.terminated_zero {N : ℕ} (h : 0 < N) : (zero N).Terminated := by
  show 0 ∈ List.replicate N 0
  exact List.mem_replicate.mpr ⟨by omega, rfl⟩

theorem CharArray.terminated_dots {N : ℕ} (h : 0 < N) (out : CharArray N) :
    out.dots.Terminated := by
  unfold Terminated dots
  apply List.mem_set
  simp only [List.length_set, out.length_toList]
  omega

theorem CharArray.ofText_of_lt {N : ℕ} {s : Bytes} (h : s.length < N) :
    (ofText N s).toList = s ++ 0 :: List.replicate (N - s.length - 1) 0 := by
  have hle : s.length ≤ N := h.le
  show (s ++ List.replicate N 0).take N = _
  rw [List.take_append, List.take_of_length_le hle, List.take_replicate, ← List.replicate_succ]
  congr 2
  omega

theorem CharArray.terminated_ofText {N : ℕ} {s : Bytes} (h : s.length < N) :
    (ofText N s).Terminated := by
  unfold Terminated
  rw [ofText_of_lt h]
  simp

theorem copy_of_lt {N : ℕ} {s : Bytes} (h : s.length < N) : copy N s = .ofText N s := by
  unfold copy
  simp only []
  rw [if_neg (by omega), min_eq_left (by omega), List.take_length]

theorem terminated_copy {N : ℕ} (h : 0 < N) (s : Bytes) : (copy N s).Terminated := by
  by_cases hs : s.length < N
  · rw [copy_of_lt hs]
    exact CharArray.terminated_ofText hs
  · unfold copy
    simp only []
    rw [if_pos (by omega)]
    exact CharArray.terminated_dots h _

theorem terminated_copyPath {N M : ℕ} (hN : 0 < N) (hM : 0 < M) (s : Bytes) :
    (copyPath N M s).1.Terminated ∧ (copyPath N M s).2.Terminated := by
  refine ⟨terminated_copy hN _, ?_⟩
  unfold copyPath
  simp only []
  split_ifs
  · exact terminated_copy hM _
  · exact CharArray.terminated_zero hM

/-- A string that leaves room for the NUL is read back. -/
theorem str_copy {N : ℕ} {s : Bytes} (h : s.length < N) (hs : 0 ∉ s) : (copy N s).str = s := by
  rw [copy_of_lt h]
  unfold CharArray.str
  rw [CharArray.ofText_of_lt h, cstr_append_zero hs]

/-! ## The texts of a frame -/

/-- Each of the five texts ends in a NUL. -/
structure StackInfo.Terminated (s : StackInfo) : Prop where
  object : s.object.Terminated
  objectPath : s.objectPath.Terminated
  filename : s.filename.Terminated
  filenamePath : s.filenamePath.Terminated
  function : s.function.Terminated

instance (s : StackInfo) : Decidable s.Terminated :=
  decidable_of_iff (s.object.Terminated ∧ s.objectPath.Terminated ∧ s.filename.Terminated ∧
      s.filenamePath.Terminated ∧ s.function.Terminated)
    ⟨fun ⟨h1, h2, h3, h4, h5⟩ => ⟨h1, h2, h3, h4, h5⟩,
      fun ⟨h1, h2, h3, h4, h5⟩ => ⟨h1, h2, h3, h4, h5⟩⟩

theorem StackInfo.Terminated.clear (s : StackInfo) : s.clear.Terminated where
  object := CharArray.terminated_zero (by omega)
  objectPath := CharArray.terminated_zero (by omega)
  filename := CharArray.terminated_zero (by omega)
  filenamePath := CharArray.terminated_zero (by omega)
  function := CharArray.terminated_zero (by omega)

theorem StackInfo.Terminated.init : StackInfo.init.Terminated := .clear .init

theorem StackInfo.Terminated.withAddresses {s : StackInfo} (h : s.Terminated)
    (address address2 : UInt64) :
    { s with address := address, address2 := address2 }.Terminated :=
  ⟨h.object, h.objectPath, h.filename, h.filenamePath, h.function⟩

end StackTrace
