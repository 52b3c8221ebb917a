import StackTrace.Text.Parse

/-!
# `cleanupFunctionName`

`StackTrace.cpp`, lines 93–124 and 1873–2018. The name of a function is rewritten in
place: patterns are replaced one after the other, and `N` is the length that the name
has left. A model function fails where the code would look outside the name and its
NUL, or where a loop takes more rounds than its fuel.

* `cleanupFunctionName_mono`: more fuel does not change the result.
-/

namespace StackTrace

/-- The name in its buffer, and its length. -/
structure FunctionName where
  function : Bytes
  N : ℕ

namespace FunctionName

/-! ## `replace` and `strrep` -/

/-- `str[k] = c`, `str[k + 1] = ...` for the characters of `src`. -/
def writeLoop : (str : Bytes) → (k : ℕ) → (src : Bytes) → Bytes
  | str, _, [] => str
  | str, k, c :: src => writeLoop (str.set k c) (k + 1) src

/-- `n` rounds of the second loop of `replace`: `tmp` is `str`, so that the loop may read
    what it has written. -/
def shiftLoop : (n : ℕ) → (str : Bytes) → (i k : ℕ) → Bytes
  | 0, str, _, _ => str
  | n + 1, str, i, k => shiftLoop n (str.set k (str.getD i 0)) (i + 1) (k + 1)

/-- `n` rounds of the third loop of `replace`. Its index is `m`, but it writes to `str[k]`. -/
def zeroLoop : (n : ℕ) → (str : Bytes) → (k : ℕ) → Bytes
  | 0, str, _ => str
  | n + 1, str, k => zeroLoop n (str.set k 0) k

/-- `replace( str, N, pos, len, r )` (lines 94–108), with the length that it returns. The
    loops stop at `N`. -/
def replace (f : FunctionName) (pos len : ℕ) (r : Bytes) : FunctionName :=
  let str := writeLoop f.function pos (r.take (f.N - pos))
  let k := pos + min r.length (f.N - pos)
  let i := (pos + len) % 18446744073709551616
  let n := min (f.N - i) (f.N - k)
  let str := shiftLoop n str i k
  let k := k + n
  ⟨zeroLoop (f.N - k) str k, k⟩

/-- `std::string_view( function, N )`. -/
def view (f : FunctionName) : Option Bytes :=
  if f.N ≤ f.function.length then some (f.function.take f.N) else none

/-- `strrep( function, N, s, r )` (lines 115–124). -/
def strrep : (fuel : ℕ) → (s r : Bytes) → (f : FunctionName) → Option FunctionName
  | 0, _, _, _ => none
  | fuel + 1, s, r, f => do
    let v ← f.view
    match StackTrace.find s v with
    | none => some f
    | some pos => strrep fuel s r (f.replace pos s.length r)

/-- `strrep` for one pair after the other. -/
def strrepAll (fuel : ℕ) (pairs : List (String × String)) (f : FunctionName) :
    Option FunctionName :=
  pairs.foldlM (fun f p => strrep fuel (ascii p.1) (ascii p.2) f) f

/-- The lambda `find( str, pos )` (lines 1898–1900). -/
def find (f : FunctionName) (s : String) (pos : ℕ) : Option ℕ := do
  let v ← f.view
  some ((strstr v pos (ascii s)).getD npos)

/-- `if ( find( s ) != npos )`. -/
def ifFound (s : String) (body : FunctionName → Option FunctionName) (f : FunctionName) :
    Option FunctionName := do
  let pos ← f.find s 0
  if pos = npos then some f else body f

/-! ## Matching brackets -/

/-- The loop of `findMatching` over the characters that are left. Here the count has no bounds:
    it is an `int` in the source, which is enough for less than 2147483647 characters. -/
def findMatchingLoop : (count : ℤ) → (pos2 : ℕ) → (str : Bytes) → ℕ
  | _, pos2, [] => pos2
  | count, pos2, c :: str =>
    if count = 0 then pos2
    else
      let count := if c = 60 then count + 1 else count
      let count := if c = 62 then count - 1 else count
      findMatchingLoop count (pos2 + 1) str

/-- `findMatching( str, N, pos )` (lines 1873–1885). -/
def findMatching (f : FunctionName) (pos : ℕ) : ℕ :=
  findMatchingLoop 1 (pos + 1) ((f.function.take f.N).drop (pos + 1))

/-- `strncmp( &function[pos], s, strlen( s ) ) == 0`. -/
def startsWith (f : FunctionName) (pos : ℕ) (s : String) : Bool :=
  (ascii s).isPrefixOf (f.function.drop pos)

/-! ## `cleanupFunctionName` -/

/-- Lines 1892–1893. -/
def templateSpace : List (String × String) := [(" >", ">"), ("< ", "<")]

/-- Lines 1902–1926. -/
def ratios : List (String × String) :=
  [("std::ratio<1l, 1000000000000000000000000l>", "std::yocto"),
    ("std::ratio<1l, 1000000000000000000000l>", "std::zepto"),
    ("std::ratio<1l, 1000000000000000000l>", "std::atto"),
    ("std::ratio<1l, 1000000000000000l>", "std::femto"),
    ("std::ratio<1l, 1000000000000l>", "std::pico"),
    ("std::ratio<1l, 1000000000l>", "std::nano"),
    ("std::ratio<1l, 1000000l>", "std::micro"),
    ("std::ratio<1l, 1000l>", "std::milli"),
    ("std::ratio<1l, 100l>", "std::centi"),
    ("std::ratio<1l, 10l>", "std::deci"),
    ("std::ratio<1l, 1l>", ""),
    ("std::ratio<10l, 1l>", "std::deca"),
    ("std::ratio<60l, 1l>", "std::ratio<60>"),
    ("std::ratio<100l, 1l>", "std::hecto"),
    ("std::ratio<1000l, 1l>", "std::kilo"),
    ("std::ratio<3600l, 1l>", "std::ratio<3600>"),
    ("std::ratio<1000000l, 1l>", "std::mega"),
    ("std::ratio<1000000000l, 1l>", "std::giga"),
    ("std::ratio<1000000000000l, 1l>", "std::tera"),
    ("std::ratio<1000000000000000l, 1l>", "std::peta"),
    ("std::ratio<1000000000000000000l, 1l>", "std::exa"),
    ("std::ratio<1000000000000000000000l, 1l>", "std::zetta"),
    ("std::ratio<1000000000000000000000000l, 1l>", "std::yotta")] ++ templateSpace

/-- Lines 1931–1939. -/
def durations : List (String × String) :=
  [("std::chrono::duration<long, std::nano>", "std::chrono::nanoseconds"),
    ("std::chrono::duration<long, std::micro>", "std::chrono::microseconds"),
    ("std::chrono::duration<long, std::milli>", "std::chrono::milliseconds"),
    ("std::chrono::duration<long>", "std::chrono::seconds"),
    ("std::chrono::duration<long,>", "std::chrono::seconds"),
    ("std::chrono::duration<long, std::ratio<60>>", "std::chrono::minutes"),
    ("std::chrono::duration<long, std::ratio<3600>>", "std::chrono::hours")] ++ templateSpace

/-- Lines 1944–1961. -/
def sleepFor : List (String × String) :=
  [("::sleep_for<long, std::nano>", "::sleep_for<nanoseconds>"),
    ("::sleep_for<long, std::micro>", "::sleep_for<microseconds>"),
    ("::sleep_for<long, std::milli>", "::sleep_for<milliseconds>"),
    ("::sleep_for<long>", "::sleep_for<seconds>"),
    ("::sleep_for<long,>", "::sleep_for<seconds>"),
    ("::sleep_for<long, std::ratio<60>>", "::sleep_for<minutes>"),
    ("::sleep_for<long, std::ratio<3600>>", "::sleep_for<hours>"),
    ("::sleep_for<nanoseconds>(std::chrono::nanoseconds", "::sleep_for(std::chrono::nanoseconds"),
    ("::sleep_for<microseconds>(std::chrono::microseconds",
      "::sleep_for(std::chrono::microseconds"),
    ("::sleep_for<milliseconds>(std::chrono::milliseconds",
      "::sleep_for(std::chrono::milliseconds"),
    ("::sleep_for<seconds>(std::chrono::seconds", "::sleep_for(std::chrono::seconds"),
    ("::sleep_for<milliseconds>(std::chrono::minutes", "::sleep_for(std::chrono::milliseconds"),
    ("::sleep_for<milliseconds>(std::chrono::hours", "::sleep_for(std::chrono::hours")]

/-- The two loops that replace instances of a template that begin with `s`
    (lines 1967–2003): `body` has the positions of the instance, of its bracket and
    behind the matching one. -/
def instances (s : String) (body : FunctionName → (pos pos1 pos2 : ℕ) → FunctionName) :
    (fuel : ℕ) → (pos : ℕ) → FunctionName → Option FunctionName
  | 0, _, _ => none
  | fuel + 1, pos, f =>
    if pos < f.N then do
      let pos ← f.find s pos
      if pos = npos then some f
      else
        let pos1 := pos + 17
        let pos2 := f.findMatching pos1
        if pos2 = pos1 then some f
        else instances s body fuel (pos + 1) (body f pos pos1 pos2)
    else some f

/-- Lines 1977–1984. -/
def basicString (f : FunctionName) (pos pos1 pos2 : ℕ) : FunctionName :=
  if f.startsWith (pos1 + 1) "char" then f.replace pos (pos2 - pos) (ascii "std::string")
  else if f.startsWith (pos1 + 1) "wchar_t" then
    f.replace pos (pos2 - pos) (ascii "std::wstring")
  else if f.startsWith (pos1 + 1) "char16_t" then
    f.replace pos (pos2 - pos) (ascii "std::u16string")
  else if f.startsWith (pos1 + 1) "char32_t" then
    f.replace pos (pos2 - pos) (ascii "std::u32string")
  else f

/-- Line 2001. -/
def basicStringView (f : FunctionName) (pos _pos1 pos2 : ℕ) : FunctionName :=
  f.replace pos (pos2 - pos) (ascii "std::std::string_view")

/-- `a - b` in `size_t`. -/
def subSize (a b : ℕ) : ℕ := (a + 18446744073709551616 - b) % 18446744073709551616

/-- Lines 2006–2009: a comma or bracket that is not found is at `npos`. -/
def makeShared (f : FunctionName) : Option FunctionName := do
  let pos1 ← f.find "std::make_shared<" 0
  let pos2 ← f.find "," pos1
  let pos3 ← f.find "(" pos1
  some (f.replace pos2 (subSize pos3 pos2) (ascii ">"))

/-- Lines 2013–2016. -/
def vectorAllocator (f : FunctionName) : Option FunctionName := do
  let pos1 ← f.find "std::vector<" 0
  let pos2 ← f.find ", std::allocator" pos1
  let pos3 := f.findMatching (pos1 + 11)
  some (f.replace pos2 (subSize pos3 pos2) (ascii ">"))

/-- The body of `cleanupFunctionName` behind the call of `strlen`. -/
def cleanup (fuel : ℕ) (f : FunctionName) : Option FunctionName := do
  let f ← strrepAll fuel templateSpace f
  let f ← strrepAll fuel [("std::__1::", "std::")] f
  let f ← ifFound "std::ratio<" (strrepAll fuel ratios) f
  let f ← ifFound "std::chrono::duration<" (strrepAll fuel durations) f
  let f ← ifFound "::sleep_for<" (strrepAll fuel sleepFor) f
  let f ← strrepAll fuel [("[abi:cxx11]", ""),
    ("std::__cxx11::basic_string<", "std::basic_string<")] f
  let f ← instances "std::basic_string<" basicString fuel 0 f
  let f ← strrepAll fuel
    [("std::__cxx11::basic_std::string_view<", "std::basic_std::string_view<")] f
  let f ← instances "std::basic_std::string_view<char" basicStringView fuel 0 f
  let f ← ifFound "std::make_shared<" makeShared f
  ifFound "std::vector<" vectorAllocator f

/-! ## Fuel -/

variable {fuel fuel' : ℕ}

/-- Where both steps have results more often, so has one after the other. -/
theorem bind_mono {α β : Type*} {a a' : Option α} {k k' : α → Option β}
    (ha : ∀ x, a = some x → a' = some x) (hk : ∀ x y, k x = some y → k' x = some y) {y : β}
    (h : a.bind k = some y) : a'.bind k' = some y := by
  obtain ⟨x, hx, hy⟩ := Option.bind_eq_some_iff.mp h
  exact Option.bind_eq_some_iff.mpr ⟨x, ha x hx, hk x y hy⟩

theorem strrep_mono (h : fuel ≤ fuel') {s r : Bytes} (f g : FunctionName)
    (hf : strrep fuel s r f = some g) : strrep fuel' s r f = some g := by
  induction fuel generalizing fuel' f g with
  | zero => cases hf
  | succ fuel ih =>
    obtain ⟨k, rfl⟩ : ∃ k, fuel' = k + 1 := ⟨fuel' - 1, by omega⟩
    refine bind_mono (fun _ hv => hv) (fun v y hy => ?_) hf
    cases hfind : StackTrace.find s v with
    | none =>
      rw [hfind] at hy
      exact hy
    | some pos =>
      rw [hfind] at hy
      exact ih (Nat.le_of_succ_le_succ h) _ _ hy

theorem strrepAll_mono (h : fuel ≤ fuel') {pairs : List (String × String)} (f g : FunctionName)
    (hf : strrepAll fuel pairs f = some g) : strrepAll fuel' pairs f = some g := by
  unfold strrepAll at hf ⊢
  induction pairs generalizing f g with
  | nil => exact hf
  | cons p pairs ih =>
    rw [List.foldlM_cons] at hf ⊢
    exact bind_mono (strrep_mono h f) (fun f' g' hf' => ih f' g' hf') hf

theorem ifFound_mono {s : String} {body body' : FunctionName → Option FunctionName}
    (h : ∀ f g, body f = some g → body' f = some g) (f g : FunctionName)
    (hf : ifFound s body f = some g) : ifFound s body' f = some g := by
  refine bind_mono (fun _ hpos => hpos) (fun pos y hy => ?_) hf
  split_ifs at hy ⊢
  · exact hy
  · exact h f y hy

theorem instances_mono (h : fuel ≤ fuel') {s : String}
    {body : FunctionName → ℕ → ℕ → ℕ → FunctionName} (pos : ℕ) (f g : FunctionName)
    (hf : instances s body fuel pos f = some g) : instances s body fuel' pos f = some g := by
  induction fuel generalizing fuel' pos f g with
  | zero => cases hf
  | succ fuel ih =>
    obtain ⟨k, rfl⟩ : ∃ k, fuel' = k + 1 := ⟨fuel' - 1, by omega⟩
    rw [instances] at hf ⊢
    split_ifs at hf ⊢
    · refine bind_mono (fun _ hpos => hpos) (fun pos₁ y hy => ?_) hf
      split_ifs at hy ⊢
      · exact hy
      · by_cases hmatch : f.findMatching (pos₁ + 17) = pos₁ + 17
        · simp only [if_pos hmatch] at hy ⊢
          exact hy
        · simp only [if_neg hmatch] at hy ⊢
          exact ih (Nat.le_of_succ_le_succ h) _ _ _ hy
    · exact hf

theorem cleanup_mono (h : fuel ≤ fuel') (f g : FunctionName) (hf : cleanup fuel f = some g) :
    cleanup fuel' f = some g := by
  refine bind_mono (strrepAll_mono h f) (fun f g hf => ?_) hf
  refine bind_mono (strrepAll_mono h f) (fun f g hf => ?_) hf
  refine bind_mono (ifFound_mono (strrepAll_mono h) f) (fun f g hf => ?_) hf
  refine bind_mono (ifFound_mono (strrepAll_mono h) f) (fun f g hf => ?_) hf
  refine bind_mono (ifFound_mono (strrepAll_mono h) f) (fun f g hf => ?_) hf
  refine bind_mono (strrepAll_mono h f) (fun f g hf => ?_) hf
  refine bind_mono (instances_mono h 0 f) (fun f g hf => ?_) hf
  refine bind_mono (strrepAll_mono h f) (fun f g hf => ?_) hf
  exact bind_mono (instances_mono h 0 f) (fun _ _ hf => hf) hf

end FunctionName

/-- `cleanupFunctionName` (lines 1886–2018) of the C string `function`, as the C string that
    it leaves. -/
def cleanupFunctionName (fuel : ℕ) (function : Bytes) : Option Bytes := do
  let f ← FunctionName.cleanup fuel ⟨function ++ [0], function.length⟩
  some (cstr f.function)

theorem cleanupFunctionName_mono {fuel fuel' : ℕ} (h : fuel ≤ fuel') {function name : Bytes}
    (hname : cleanupFunctionName fuel function = some name) :
    cleanupFunctionName fuel' function = some name := by
  exact FunctionName.bind_mono (FunctionName.cleanup_mono h _) (fun _ _ hf => hf) hname

end StackTrace
