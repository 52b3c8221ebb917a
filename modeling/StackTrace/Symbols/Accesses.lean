import StackTrace.Symbols.Replace

/-!
# The accesses to the buffer of `cleanupFunctionName`

`StackTrace.cpp`, lines 94–108, 1873–1885 and 1977–1983, with every `str[k]` checked: a
function has no value where it would read or write outside the buffer.

* `replaceChecked_eq`, `findMatchingChecked_eq`: no access is outside while `N` is inside.
* `Holds.startsWithChecked_eq`: `strncmp` stops at the NUL behind the name.
-/

namespace StackTrace

namespace FunctionName

/-! ## Definitions -/

/-- `str[k] = c`. -/
def write (str : Bytes) (k : ℕ) (c : UInt8) : Option Bytes :=
  if k < str.length then some (str.set k c) else none

def writeLoopChecked : (str : Bytes) → (k : ℕ) → (src : Bytes) → Option Bytes
  | str, _, [] => some str
  | str, k, c :: src => do
    let str ← write str k c
    writeLoopChecked str (k + 1) src

def shiftLoopChecked : (n : ℕ) → (str : Bytes) → (i k : ℕ) → Option Bytes
  | 0, str, _, _ => some str
  | n + 1, str, i, k => do
    let c ← str[i]?
    let str ← write str k c
    shiftLoopChecked n str (i + 1) (k + 1)

def zeroLoopChecked : (n : ℕ) → (str : Bytes) → (k : ℕ) → Option Bytes
  | 0, str, _ => some str
  | n + 1, str, k => do
    let str ← write str k 0
    zeroLoopChecked n str k

/-- `replace( str, N, pos, len, r )`. -/
def replaceChecked (f : FunctionName) (pos len : ℕ) (r : Bytes) : Option FunctionName := do
  let str ← writeLoopChecked f.function pos (r.take (f.N - pos))
  let k := pos + min r.length (f.N - pos)
  let i := (pos + len) % 18446744073709551616
  let n := min (f.N - i) (f.N - k)
  let str ← shiftLoopChecked n str i k
  let k := k + n
  let str ← zeroLoopChecked (f.N - k) str k
  some ⟨str, k⟩

/-- The loop of `findMatching`, with `n` characters left below `N`. -/
def findMatchingLoopChecked (str : Bytes) : (n : ℕ) → (count : ℤ) → (pos2 : ℕ) → Option ℕ
  | 0, _, pos2 => some pos2
  | n + 1, count, pos2 =>
    if count = 0 then some pos2
    else do
      let c ← str[pos2]?
      let count := if c = 60 then count + 1 else count
      let count := if c = 62 then count - 1 else count
      findMatchingLoopChecked str n count (pos2 + 1)

/-- `findMatching( str, N, pos )`. -/
def findMatchingChecked (f : FunctionName) (pos : ℕ) : Option ℕ :=
  findMatchingLoopChecked f.function (f.N - (pos + 1)) 1 (pos + 1)

/-- `strncmp( &str[pos], s, strlen( s ) ) == 0`: no character behind the first difference
    is read. -/
def strncmpChecked (str : Bytes) : (pos : ℕ) → (s : Bytes) → Option Bool
  | _, [] => some true
  | pos, c :: s => do
    let d ← str[pos]?
    if d = c then strncmpChecked str (pos + 1) s else some false

def startsWithChecked (f : FunctionName) (pos : ℕ) (s : String) : Option Bool :=
  strncmpChecked f.function pos (ascii s)

/-! ## Loops inside the buffer -/

@[simp] theorem length_writeLoop (str src : Bytes) (k : ℕ) :
    (writeLoop str k src).length = str.length := by
  induction src generalizing str k with
  | nil => rfl
  | cons c src ih => rw [writeLoop, ih, List.length_set]

@[simp] theorem length_shiftLoop (n : ℕ) (str : Bytes) (i k : ℕ) :
    (shiftLoop n str i k).length = str.length := by
  induction n generalizing str i k with
  | zero => rfl
  | succ n ih => rw [shiftLoop, ih, List.length_set]

theorem write_eq {str : Bytes} {k : ℕ} (c : UInt8) (hk : k < str.length) :
    write str k c = some (str.set k c) := if_pos hk

theorem writeLoopChecked_eq {str src : Bytes} {k : ℕ} (h : src = [] ∨ k + src.length ≤ str.length) :
    writeLoopChecked str k src = some (writeLoop str k src) := by
  induction src generalizing str k with
  | nil => rfl
  | cons c src ih =>
    have hle : k + (src.length + 1) ≤ str.length := h.resolve_left (List.cons_ne_nil c src)
    rw [writeLoopChecked, write_eq c (by omega)]
    exact ih (.inr (by rw [List.length_set]; omega))

theorem shiftLoopChecked_eq {n : ℕ} {str : Bytes} {i k : ℕ}
    (h : n = 0 ∨ i + n ≤ str.length ∧ k + n ≤ str.length) :
    shiftLoopChecked n str i k = some (shiftLoop n str i k) := by
  induction n generalizing str i k with
  | zero => rfl
  | succ n ih =>
    obtain ⟨hi, hk⟩ := h.resolve_left (Nat.succ_ne_zero n)
    have hget : str[i]? = some (str.getD i 0) := by
      rw [List.getD_eq_getElem _ _ (by omega), List.getElem?_eq_getElem (by omega)]
    rw [shiftLoopChecked, hget, Option.bind_eq_bind, Option.bind_some, write_eq _ (by omega)]
    exact ih (.inr (by rw [List.length_set]; omega))

theorem zeroLoopChecked_eq {n : ℕ} {str : Bytes} {k : ℕ} (h : n = 0 ∨ k < str.length) :
    zeroLoopChecked n str k = some (zeroLoop n str k) := by
  induction n generalizing str with
  | zero => rfl
  | succ n ih =>
    have hk := h.resolve_left (Nat.succ_ne_zero n)
    rw [zeroLoopChecked, write_eq 0 hk]
    exact ih (.inr (by rw [List.length_set]; exact hk))

/-- `replace` accesses the first `N` characters only, whatever its arguments are. -/
theorem replaceChecked_eq {f : FunctionName} (h : f.N ≤ f.function.length) (pos len : ℕ)
    (r : Bytes) : f.replaceChecked pos len r = some (f.replace pos len r) := by
  have hwrite : r.take (f.N - pos) = [] ∨
      pos + (r.take (f.N - pos)).length ≤ f.function.length := by
    rcases Nat.lt_or_ge pos f.N with hpos | hpos
    · rw [List.length_take]
      omega
    · rw [Nat.sub_eq_zero_of_le hpos, List.take_zero]
      exact .inl rfl
  unfold replaceChecked replace
  rw [writeLoopChecked_eq hwrite, Option.bind_eq_bind, Option.bind_some]
  simp only []
  rw [shiftLoopChecked_eq (by rw [length_writeLoop]; omega), Option.bind_some,
    zeroLoopChecked_eq (by rw [length_shiftLoop, length_writeLoop]; omega), Option.bind_some]

theorem findMatchingLoopChecked_eq {str : Bytes} {n : ℕ} {pos2 : ℕ} (count : ℤ)
    (h : pos2 + n ≤ str.length) :
    findMatchingLoopChecked str n count pos2 =
      some (findMatchingLoop count pos2 ((str.drop pos2).take n)) := by
  induction n generalizing count pos2 with
  | zero => simp [findMatchingLoopChecked, findMatchingLoop]
  | succ n ih =>
    have hget : str[pos2]? = some str[pos2] := List.getElem?_eq_getElem (by omega)
    rw [List.drop_eq_getElem_cons (by omega), List.take_succ_cons, findMatchingLoopChecked,
      findMatchingLoop]
    by_cases hcount : count = 0
    · rw [if_pos hcount, if_pos hcount]
    · rw [if_neg hcount, if_neg hcount, hget, Option.bind_eq_bind, Option.bind_some]
      have hnext : pos2 + 1 + n ≤ str.length := by omega
      exact ih _ hnext

theorem findMatchingChecked_eq {f : FunctionName} {pos : ℕ} (h : f.N ≤ f.function.length) :
    f.findMatchingChecked pos = some (f.findMatching pos) := by
  unfold findMatchingChecked findMatching
  rcases Nat.lt_or_ge (pos + 1) f.N with hpos | hpos
  · rw [findMatchingLoopChecked_eq 1 (by omega), List.drop_take]
  · have hdrop : (f.function.take f.N).drop (pos + 1) = [] := by
      refine List.drop_eq_nil_of_le ?_
      rw [List.length_take]
      omega
    rw [Nat.sub_eq_zero_of_le hpos, hdrop]
    rfl

/-- A comparison with a text without NUL stops at a NUL. -/
theorem strncmpChecked_eq {str s : Bytes} {pos k : ℕ} (hs : 0 ∉ s) (hpos : pos ≤ k)
    (hk : str[k]? = some 0) : strncmpChecked str pos s = some (s.isPrefixOf (str.drop pos)) := by
  induction s generalizing pos with
  | nil => simp [strncmpChecked]
  | cons c s ih =>
    have hlt : pos < str.length := by
      have hlt := (List.getElem?_eq_some_iff.mp hk).1
      omega
    have hget : str[pos]? = some str[pos] := List.getElem?_eq_getElem hlt
    have hc : c ≠ 0 := by
      rintro rfl
      exact hs (by simp)
    rw [strncmpChecked, hget, Option.bind_eq_bind, Option.bind_some,
      List.drop_eq_getElem_cons hlt, List.isPrefixOf]
    split_ifs with heq
    · have hne : pos ≠ k := by
        rintro rfl
        rw [hget] at hk
        exact hc (heq ▸ Option.some.inj hk)
      rw [ih (fun h => hs (by simp [h])) (by omega), heq]
      simp
    · have hbeq : (c == str[pos]) = false := by
        rw [beq_eq_false_iff_ne]
        exact fun h => heq h.symm
      rw [hbeq, Bool.false_and]

theorem Holds.startsWithChecked_eq {f : FunctionName} {t : Bytes} {L pos : ℕ} (h : f.Holds t L)
    (hpos : pos ≤ t.length) {s : String} (hs : 0 ∉ ascii s) :
    f.startsWithChecked pos s = some (f.startsWith pos s) := by
  obtain ⟨rest, hrest⟩ := h.buffer
  refine strncmpChecked_eq hs hpos ?_
  rw [hrest, List.getElem?_append_right le_rfl, Nat.sub_self]
  rfl

end FunctionName

end StackTrace
