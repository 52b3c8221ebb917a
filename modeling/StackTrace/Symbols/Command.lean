import StackTrace.Symbols.Missing
import StackTrace.Symbols.Search

/-!
# The command for `addr2line` and `atos`

`StackTrace.cpp`, lines 206–281, 744–757 and 791–804. The path of an object is cut at its
last separator, into 48 and 56 characters, and put together again behind `-e`. The command
stands in 4096 characters; the loop over the addresses stops at 4064, without a look at
the length of what it adds.

* `fileName_object_iff`: a path that is put together again is the same, if neither part was
  too long.
* `command_fits_iff`: the command for `addr2line` fits if and only if no frame leads from
  below 4064 to beyond 4082 characters; that for `atos` always fits.
-/

namespace StackTrace

/-! ## The parts of a path -/

/-- What `copy` leaves of a text. -/
def cut (N : ℕ) (s : Bytes) : Bytes := if s.length < N then s else s.take (N - 4) ++ ascii "..."

theorem length_cut {N : ℕ} (hN : 4 ≤ N) (s : Bytes) :
    (cut N s).length = min s.length (N - 1) := by
  have hdots : (ascii "...").length = 3 := by decide
  unfold cut
  split_ifs with h
  · omega
  · rw [List.length_append, List.length_take]
    omega

theorem cut_of_lt {N : ℕ} {s : Bytes} (h : s.length < N) : cut N s = s := if_pos h

theorem dots_of_split {N : ℕ} {out : CharArray N} {s : Bytes} {x y z w : UInt8}
    (hs : s.length + 4 = N) (h : out.toList = s ++ [x, y, z, w]) :
    out.dots.toList = s ++ [46, 46, 46, 0] := by
  have h1 : N - 4 - s.length = 0 := by omega
  have h2 : N - 3 - s.length = 1 := by omega
  have h3 : N - 2 - s.length = 2 := by omega
  have h4 : N - 1 - s.length = 3 := by omega
  unfold CharArray.dots
  simp only [h]
  rw [List.set_append_right _ _ (by omega), List.set_append_right _ _ (by omega),
    List.set_append_right _ _ (by omega), List.set_append_right _ _ (by omega), h1, h2, h3, h4]
  rfl

/-- A text that is copied is read back up to the dots. -/
theorem str_copy_eq_cut {N : ℕ} (hN : 4 ≤ N) {s : Bytes} (hs : 0 ∉ s) :
    (copy N s).str = cut N s := by
  unfold cut
  split_ifs with h
  · exact str_copy h hs
  · obtain ⟨a, t, rfl, ha⟩ : ∃ a t, s = a ++ t ∧ a.length = N - 4 :=
      ⟨s.take (N - 4), s.drop (N - 4), (List.take_append_drop _ _).symm, by simp; omega⟩
    rw [List.length_append] at h
    obtain ⟨x, y, z, w, t, rfl⟩ : ∃ x y z w u, t = x :: y :: z :: w :: u := by
      match t with
      | [] | [_] | [_, _] | [_, _, _] => simp at h; omega
      | x :: y :: z :: w :: u => exact ⟨x, y, z, w, u, rfl⟩
    have htake : (a ++ x :: y :: z :: w :: t).take (N - 1) = a ++ [x, y, z] := by
      rw [List.take_append, List.take_of_length_le (by omega), show N - 1 - a.length = 3 by omega]
      rfl
    have hout : (CharArray.ofText N (a ++ [x, y, z])).toList = a ++ [x, y, z, 0] := by
      rw [CharArray.ofText_of_lt (by simp; omega), List.append_assoc]
      simp
      omega
    have hlong : N ≤ (a ++ x :: y :: z :: w :: t).length := by simp at h ⊢; omega
    have hcopy : copy N (a ++ x :: y :: z :: w :: t) =
        (CharArray.ofText N (a ++ [x, y, z])).dots := by
      unfold copy
      dsimp only
      rw [if_pos hlong, Nat.min_eq_right (by omega), htake]
    have ha0 : 0 ∉ a ++ [46, 46, 46] := by
      intro h0
      rcases List.mem_append.mp h0 with h0 | h0
      · exact hs (List.mem_append_left _ h0)
      · simp at h0
    have hsplit : a ++ [46, 46, 46, (0 : UInt8)] = (a ++ [46, 46, 46]) ++ 0 :: [] := by simp
    unfold CharArray.str
    rw [hcopy, dots_of_split (by omega) hout, hsplit, cstr_append_zero ha0,
      List.take_append_of_le_length ha.ge, List.take_of_length_le ha.le]
    rfl

/-- The directory of a path, without the separator behind it. -/
def directory (path : Bytes) : Bytes := path.take (path.length - (stripPath path).length - 1)

theorem directory_cases (path : Bytes) :
    (stripPath path = path ∧ directory path = []) ∨
      ∃ c, (c = 47 ∨ c = 92) ∧ path = directory path ++ c :: stripPath path := by
  rcases stripPath_cases path with h | ⟨dir, c, name, hc, hname, rfl⟩
  · have hself := stripPath_eq_self h
    refine .inl ⟨hself, ?_⟩
    unfold directory
    rw [hself, Nat.sub_self]
    exact List.take_zero
  · have hstrip := stripPath_append hc dir hname
    have hdir : directory (dir ++ c :: name) = dir := by
      unfold directory
      rw [hstrip, List.length_append, List.length_cons,
        show dir.length + (name.length + 1) - name.length - 1 = dir.length by omega]
      exact List.take_left
    exact .inr ⟨c, hc, by rw [hdir, hstrip]⟩

/-- The path is its name, or a directory, a slash and its name. -/
def Rejoins (path : Bytes) : Prop :=
  path = stripPath path ∨ (directory path ≠ [] ∧ path = directory path ++ 47 :: stripPath path)

instance (path : Bytes) : Decidable (Rejoins path) := inferInstanceAs (Decidable (_ ∨ _))

theorem CharArray.head_eq_zero_iff {N : ℕ} (hN : 0 < N) {a : CharArray N} :
    a.toList.head? = some 0 ↔ a.str = [] := by
  have hlength := a.length_toList
  unfold str cstr
  cases h : a.toList with
  | nil =>
    rw [h, List.length_nil] at hlength
    omega
  | cons c s =>
    by_cases hc : c = 0
    · simp [hc]
    · simp [hc]

/-- The two parts as they are read back. -/
theorem str_copyPath {path : Bytes} (hpath : 0 ∉ path) :
    (copyPath 56 48 path).1.str = cut 56 (stripPath path) ∧
      (copyPath 56 48 path).2.str = cut 48 (directory path) := by
  have hname : 0 ∉ stripPath path := fun h => hpath ((stripPath_suffix path).mem h)
  have hdir : 0 ∉ directory path := fun h => hpath (List.mem_of_mem_take h)
  refine ⟨str_copy_eq_cut (by omega) hname, ?_⟩
  unfold copyPath
  dsimp only
  split_ifs with h
  · exact str_copy_eq_cut (by omega) hdir
  · have hnil : directory path = [] := by
      unfold directory
      rw [not_not.mp h, Nat.sub_self]
      exact List.take_zero
    rw [hnil]
    rfl

/-! ## The file name behind `-e` -/

theorem fileName_setObject (s : StackInfo) {path : Bytes} (hpath : 0 ∉ path) :
    fileName (s.setObject (copyPath 56 48 path)) =
      some (if directory path = [] then cut 56 (stripPath path)
        else cut 48 (directory path) ++ 47 :: cut 56 (stripPath path)) := by
  obtain ⟨hobject, hobjectPath⟩ := str_copyPath hpath
  obtain ⟨htext, htextPath⟩ :=
    terminated_copyPath (N := 56) (M := 48) (by omega) (by omega) path
  have hempty : cut 48 (directory path) = [] ↔ directory path = [] := by
    rw [← List.length_eq_zero_iff, length_cut (by omega), ← List.length_eq_zero_iff]
    omega
  unfold fileName StackInfo.setObject
  dsimp only
  simp only [CharArray.head_eq_zero_iff (show 0 < 48 by omega), hobjectPath, hempty,
    CharArray.text_of_terminated htext, CharArray.text_of_terminated htextPath, hobject,
    Option.bind_eq_bind, Option.bind_some]
  split_ifs <;> rfl

/-- What `dladdr` says about a frame is put together again, each part as far as there is room
    for it: it is the path if the directory has at most 47 characters and the name at most 55. -/
theorem fileName_object_iff (s : StackInfo) (path : Bytes) (hnul : 0 ∉ path)
    (hpath : Rejoins path) :
    fileName (s.setObject (copyPath 56 48 path)) =
        some (if directory path = [] then cut 56 (stripPath path)
          else cut 48 (directory path) ++ 47 :: cut 56 (stripPath path)) ∧
      (fileName (s.setObject (copyPath 56 48 path)) = some path ↔
        (directory path).length ≤ 47 ∧ (stripPath path).length ≤ 55) := by
  refine ⟨fileName_setObject s hnul, ?_⟩
  have hdirectory := length_cut (N := 48) (by omega) (directory path)
  have hname := length_cut (N := 56) (by omega) (stripPath path)
  rw [fileName_setObject s hnul, Option.some.injEq]
  constructor
  · intro h
    have hlength := congrArg List.length h
    rcases directory_cases path with ⟨hself, hnil⟩ | ⟨c, -, hsplit⟩
    · rw [if_pos hnil, hname, hself] at hlength
      rw [hnil, hself, List.length_nil]
      omega
    · have htotal := congrArg List.length hsplit
      rw [List.length_append, List.length_cons] at htotal
      split_ifs at hlength with hnil
      · rw [hnil, List.length_nil] at htotal
        omega
      · rw [List.length_append, List.length_cons] at hlength
        omega
  · rintro ⟨hdir, hlen⟩
    rw [cut_of_lt (by omega), cut_of_lt (by omega)]
    rcases hpath with hself | ⟨hne, hsplit⟩
    · split_ifs with hnil
      · exact hself.symm
      · have hempty : directory path = [] := by
          unfold directory
          rw [← hself, Nat.sub_self]
          exact List.take_zero
        exact absurd hempty hnil
    · rw [if_neg hne]
      exact hsplit.symm

theorem fileName_object_iff_bin :
    fileName (StackInfo.init.setObject (copyPath 56 48 (ascii "/usr/bin/a.out"))) =
      some (ascii "/usr/bin/a.out") :=
  (fileName_object_iff .init (ascii "/usr/bin/a.out") (by decide) (by decide)).2.mpr (by decide)

/-- A directory of 53 characters is cut. -/
theorem fileName_long_directory :
    fileName (StackInfo.init.setObject
        (copyPath 56 48 (ascii "/opt/software/gcc-13.2/openmpi-4.1.6/petsc-3.20/build/lib.so"))) ≠
      some (ascii "/opt/software/gcc-13.2/openmpi-4.1.6/petsc-3.20/build/lib.so") := by
  rw [fileName_setObject .init (by decide)]
  decide +kernel

/-! ## The length of the command -/

/-- The length of a text of `N` characters behind which texts of the given sizes are put, as
    long as it is below 4064. -/
def fill : (N : ℕ) → (sizes : List ℕ) → ℕ
  | N, [] => N
  | N, size :: sizes => if N < 4096 - 32 then fill (N + size) sizes else N

theorem fill_le_iff {B : ℕ} (N : ℕ) (sizes : List ℕ) :
    fill N sizes ≤ B ↔ N ≤ B ∧ ∀ k < sizes.length,
      N + (sizes.take k).sum < 4064 → N + (sizes.take (k + 1)).sum ≤ B := by
  induction sizes generalizing N with
  | nil => simp [fill]
  | cons size sizes ih =>
    rw [fill, List.length_cons]
    split_ifs with hroom
    · rw [ih]
      constructor
      · rintro ⟨hfirst, hrest⟩
        refine ⟨by omega, fun k hk hlt => ?_⟩
        cases k with
        | zero => simpa using hfirst
        | succ k =>
          rw [List.take_succ_cons, List.sum_cons] at hlt ⊢
          have hnext := hrest k (by omega) (by omega)
          omega
      · rintro ⟨-, hall⟩
        have hfirst := hall 0 (by omega) (by simpa using hroom)
        refine ⟨by simpa using hfirst, fun k hk hlt => ?_⟩
        have hnext := hall (k + 1) (by omega)
          (by rw [List.take_succ_cons, List.sum_cons]; omega)
        rw [List.take_succ_cons, List.sum_cons] at hnext
        omega
    · exact (and_iff_left fun k _ hlt => absurd hlt (by omega)).symm

theorem fill_le {m : ℕ} {sizes : List ℕ} (hsizes : ∀ size ∈ sizes, size ≤ m) {N : ℕ}
    (hN : N ≤ 4063 + m) : fill N sizes ≤ 4063 + m := by
  induction sizes generalizing N with
  | nil => exact hN
  | cons size sizes ih =>
    obtain ⟨hsize, hsizes⟩ := List.forall_mem_cons.mp hsizes
    rw [fill]
    split_ifs with hroom
    · exact ih hsizes (by omega)
    · exact hN

theorem length_addAddresses (c : Command) (info : List StackInfo) :
    (addAddresses c info).cmd.length =
      fill c.cmd.length (info.map fun s => (addressText s).length) := by
  induction info generalizing c with
  | nil => rfl
  | cons s info ih =>
    rw [addAddresses, List.map_cons, fill]
    split_ifs
    · rw [ih, List.length_append]
    · rfl

/-- `" %lx"`. -/
theorem length_atos_addAddresses (c : Command) (info : List StackInfo) :
    (Atos.addAddresses c info).cmd.length =
      fill c.cmd.length (info.map fun s => (numeral 16 s.address.toNat).length + 1) := by
  induction info generalizing c with
  | nil => rfl
  | cons s info ih =>
    rw [Atos.addAddresses, List.map_cons, fill]
    split_ifs
    · rw [ih, List.length_append, List.length_cons]
    · rfl

theorem length_hex_le (x : UInt64) : (numeral 16 x.toNat).length ≤ 16 :=
  length_numeral_le (by norm_num) (by norm_num) (by
    have hlt := x.toNat_lt
    norm_num at hlt ⊢
    exact hlt)

/-- A name with its directory has at most 103 characters. -/
theorem exists_fileName {s : StackInfo} (hobject : s.object.Terminated)
    (hpath : s.objectPath.Terminated) : ∃ file, fileName s = some file ∧ file.length ≤ 103 := by
  have hlength := CharArray.length_str_lt hobject
  have hlength' := CharArray.length_str_lt hpath
  unfold fileName
  rw [CharArray.text_of_terminated hobject, CharArray.text_of_terminated hpath]
  split_ifs
  · exact ⟨_, rfl, by omega⟩
  · refine ⟨_, rfl, ?_⟩
    rw [List.length_append, List.length_cons]
    omega

/-- The length of the command with the texts of the first `k` frames. -/
def Addr2line.sizeAt (a : Addr2line) (file : Bytes) (info : List StackInfo) (k : ℕ) : ℕ :=
  (a.start file).cmd.length + ((info.take k).map fun s => (addressText s).length).sum

/-- No frame leads from below 4064 to beyond 4082 characters. -/
def Addr2line.CommandFits (a : Addr2line) (file : Bytes) (info : List StackInfo) : Prop :=
  ∀ k < info.length, a.sizeAt file info k < 4064 → a.sizeAt file info (k + 1) ≤ 4082

theorem length_redirect : (ascii " 2> /dev/null").length = 13 := by decide

theorem command_isSome_iff {a : Addr2line} {file : Bytes} (hfile : file.length ≤ 103)
    (ha : a.ADDR2LINE.length < 256) (info : List StackInfo) :
    (a.command file info).isSome ↔ a.CommandFits file info := by
  have hstart : (a.start file).cmd.length ≤ 4082 := by
    have hoption : (ascii " -C -e ").length = 7 := by decide
    have hoption' : (ascii " -f").length = 3 := by decide
    unfold Addr2line.start
    simp only [List.length_append]
    omega
  have hfill := fill_le_iff (B := 4082) (a.start file).cmd.length
    (info.map fun s => (addressText s).length)
  rw [← length_addAddresses, and_iff_right hstart, List.length_map] at hfill
  have hfits : a.CommandFits file info ↔ (addAddresses (a.start file) info).cmd.length ≤ 4082 := by
    rw [hfill]
    simp only [Addr2line.CommandFits, Addr2line.sizeAt, List.map_take]
  rw [hfits]
  unfold Addr2line.command
  dsimp only
  rw [List.length_append, length_redirect]
  split_ifs with h
  · exact iff_of_true rfl (by omega)
  · exact iff_of_false (by simp) (by omega)

theorem atos_command_isSome {file : Bytes} (hfile : file.length ≤ 103) (addr : UInt64)
    (info : List StackInfo) : (Atos.command file addr info).isSome := by
  have haddr := length_hex_le addr
  have hstart : (ascii "atos -o " ++ file ++ ascii " -f -l " ++ numeral 16 addr.toNat).length ≤
      4063 + 17 := by
    have hoption : (ascii "atos -o ").length = 8 := by decide
    have hoption' : (ascii " -f -l ").length = 7 := by decide
    simp only [List.length_append]
    omega
  have hsizes : ∀ size ∈ info.map fun s => (numeral 16 s.address.toNat).length + 1, size ≤ 17 := by
    intro size hsize
    obtain ⟨s, -, rfl⟩ := List.mem_map.mp hsize
    exact Nat.succ_le_succ (length_hex_le s.address)
  have hfill := fill_le hsizes hstart
  unfold Atos.command
  dsimp only
  rw [List.length_append, length_redirect, length_atos_addAddresses, if_pos (by dsimp only; omega)]
  rfl

/-- The command for `addr2line` fits into `cmd` just if no frame leads too far, and the one
    for `atos` always does. -/
theorem command_fits_iff (a : Addr2line) (ha : a.ADDR2LINE.length < 256) (addr : UInt64)
    (first : StackInfo) (info : List StackInfo) (hobject : first.object.Terminated)
    (hpath : first.objectPath.Terminated) :
    ∃ file, fileName first = some file ∧
      ((a.command file (first :: info)).isSome ↔ a.CommandFits file (first :: info)) ∧
      (Atos.command file addr (first :: info)).isSome := by
  obtain ⟨file, hfile, hlength⟩ := exists_fileName hobject hpath
  exact ⟨file, hfile, command_isSome_iff hlength ha _, atos_command_isSome hlength addr _⟩

theorem sizeAt_replicate (a : Addr2line) (file : Bytes) (s : StackInfo) {k n : ℕ} (hk : k ≤ n) :
    a.sizeAt file (List.replicate n s) k =
      (a.start file).cmd.length + k * (addressText s).length := by
  unfold Addr2line.sizeAt
  rw [List.take_replicate, Nat.min_eq_left hk, List.map_replicate, List.sum_replicate, smul_eq_mul]

/-- A function of a large program. -/
def solverFrame : StackInfo :=
  { StackInfo.ofFields 93824993280000 1048576 (ascii "solver") (ascii "solve") [] with
    objectPath := .ofText 48 (ascii "/opt/bin") }

def quiet : Addr2line := ⟨ascii "/usr/bin/addr2line", fun _ _ => [], fun _ _ => []⟩

/-- Its caller. -/
def driverFrame : StackInfo :=
  { StackInfo.ofFields 93824993284096 1052672 (ascii "solver") (ascii "main") [] with
    objectPath := .ofText 48 (ascii "/opt/bin") }

theorem command_fits_iff_three :
    ∃ file, fileName solverFrame = some file ∧
      ((quiet.command file [solverFrame, solverFrame, driverFrame]).isSome ↔
        quiet.CommandFits file [solverFrame, solverFrame, driverFrame]) ∧
      (Atos.command file 93824992231424 [solverFrame, solverFrame, driverFrame]).isSome :=
  command_fits_iff quiet (by decide) 93824992231424 solverFrame [solverFrame, driverFrame]
    (by decide) (by decide)

/-- The texts of 201 frames end at 4063, and there is one more. -/
theorem command_overflows :
    quiet.ADDR2LINE.length < 256 ∧ solverFrame.object.Terminated ∧
      solverFrame.objectPath.Terminated ∧ fileName solverFrame = some (ascii "/opt/bin/solver") ∧
      quiet.command (ascii "/opt/bin/solver") (solverFrame :: List.replicate 201 solverFrame) =
        none := by
  refine ⟨by decide, by decide, by decide, by decide +kernel, ?_⟩
  rw [← Option.not_isSome_iff_eq_none, command_isSome_iff (by decide) (by decide),
    ← List.replicate_succ]
  intro h
  have hsize : (addressText solverFrame).length = 20 := by
    have haddress : (numeral 16 93824993280000).length = 12 := by simp [numeral]
    have haddress2 : (numeral 16 1048576).length = 6 := by simp [numeral]
    show (32 :: numeral 16 93824993280000 ++ 32 :: numeral 16 1048576).length = 20
    rw [List.length_append, List.length_cons, List.length_cons, haddress, haddress2]
  have hstart : (quiet.start (ascii "/opt/bin/solver")).cmd.length = 43 := by decide
  have hlast := h 201 (by rw [List.length_replicate]; omega)
  rw [sizeAt_replicate _ _ _ (by omega), sizeAt_replicate _ _ _ (by omega), hstart,
    hsize] at hlast
  omega

end StackTrace
