import StackTrace.Base.Numerals
import StackTrace.Tree.Basic

/-!
# Printing a tree

`StackTrace.cpp`, lines 209–220, 334–380 and 419–489. A node is printed on a
line of its own, behind bars and blanks that stand for its ancestors. These are
kept in one array of 1024 characters that all recursive calls write to, and
each line is put together in an array of 4096; a model function fails where the
code would write or read outside an array.

* `print2_within`: where the array has room for two characters for each printed node
  of a way, sharing it makes no difference: the lines are those of `render`, where each
  call has a text of its own. In a shorter array there is a write behind its end.
-/

namespace StackTrace

namespace CharArray

/-- `a.data()` as a C string. Without a NUL it would be read behind its end. -/
def text {n : ℕ} (a : CharArray n) : Option Bytes := if 0 ∈ a.toList then some a.str else none

/-- The array holds a NUL. -/
def Terminated {n : ℕ} (a : CharArray n) : Prop := 0 ∈ a.toList

instance {n : ℕ} (a : CharArray n) : Decidable a.Terminated :=
  inferInstanceAs (Decidable (0 ∈ a.toList))

theorem text_of_terminated {n : ℕ} {a : CharArray n} (h : a.Terminated) : a.text = some a.str :=
  if_pos h

theorem zero_notMem_str {n : ℕ} (a : CharArray n) : 0 ∉ a.str := zero_notMem_cstr a.toList

theorem length_str_lt {n : ℕ} {a : CharArray n} (h : a.Terminated) : a.str.length < n := by
  have hpre : a.str <+: a.toList := List.takeWhile_prefix _
  have hne : a.str.length ≠ a.toList.length := by
    intro hlen
    refine a.zero_notMem_str ?_
    rw [hpre.eq_of_length hlen]
    exact h
  have hle := hpre.length_le
  rw [a.length_toList] at hle hne
  omega

end CharArray

/-- The loop of `stripPath`: `filename` is what follows the last separator so far. -/
def stripPathLoop (filename : Bytes) : (s : Bytes) → Bytes
  | [] => filename
  | c :: s => if c = 47 ∨ c = 92 then stripPathLoop s s else stripPathLoop filename s

/-- `stripPath` (lines 209–220). -/
def stripPath (filename : Bytes) : Bytes := stripPathLoop filename filename

theorem stripPathLoop_suffix (filename s : Bytes) (h : s <:+ filename) :
    stripPathLoop filename s <:+ filename := by
  induction s generalizing filename with
  | nil => exact List.suffix_refl filename
  | cons c s ih =>
    have hs : s <:+ filename := (List.suffix_cons c s).trans h
    rw [stripPathLoop]
    split_ifs
    · exact (ih s (List.suffix_refl s)).trans hs
    · exact ih filename hs

theorem stripPath_suffix (s : Bytes) : stripPath s <:+ s :=
  stripPathLoop_suffix s s (List.suffix_refl s)

theorem stripPath_eq_self {t : Bytes} (h : 47 ∉ t ∧ 92 ∉ t) : stripPath t = t := by
  have key : ∀ s : Bytes, (47 ∉ s ∧ 92 ∉ s) → stripPathLoop t s = t := by
    intro s
    induction s with
    | nil => exact fun _ => rfl
    | cons c s ih =>
      rintro ⟨h1, h2⟩
      rw [List.mem_cons, not_or] at h1 h2
      rw [stripPathLoop, if_neg (by rintro (rfl | rfl); exacts [h1.1 rfl, h2.1 rfl])]
      exact ih ⟨h1.2, h2.2⟩
  exact key t h

/-- The name behind the last separator. -/
theorem stripPath_append {c : UInt8} (hc : c = 47 ∨ c = 92) (dir : Bytes) {name : Bytes}
    (hname : 47 ∉ name ∧ 92 ∉ name) : stripPath (dir ++ c :: name) = name := by
  have key : ∀ filename : Bytes, stripPathLoop filename (dir ++ c :: name) = name := by
    induction dir with
    | nil =>
      intro filename
      rw [List.nil_append, stripPathLoop, if_pos hc]
      exact stripPath_eq_self hname
    | cons d dir ih =>
      intro filename
      rw [List.cons_append, stripPathLoop]
      split_ifs
      · exact ih _
      · exact ih filename
  exact key _

/-- A text has no separator, or its name stands behind the last one. -/
theorem stripPath_cases (s : Bytes) : (47 ∉ s ∧ 92 ∉ s) ∨
    ∃ dir c name, (c = 47 ∨ c = 92) ∧ (47 ∉ name ∧ 92 ∉ name) ∧ s = dir ++ c :: name := by
  induction s with
  | nil => exact .inl (by simp)
  | cons d s ih =>
    rcases ih with hs | ⟨dir, c, name, hc, hname, rfl⟩
    · by_cases hd : d = 47 ∨ d = 92
      · exact .inr ⟨[], d, s, hd, hs, rfl⟩
      · rw [not_or] at hd
        exact .inl ⟨List.not_mem_cons_of_ne_of_not_mem (Ne.symm hd.1) hs.1,
          List.not_mem_cons_of_ne_of_not_mem (Ne.symm hd.2) hs.2⟩
    · exact .inr ⟨d :: dir, c, name, hc, hname, rfl⟩

namespace StackInfo

/-- `stack_info::getAddressWidth` (lines 338–348). -/
def getAddressWidth (s : StackInfo) : ℕ :=
  let addr := s.address.toNat
  if addr ≤ 0xFFFF then 4
  else if addr ≤ 0xFFFFFFFF then 8
  else if addr ≤ 0xFFFFFFFFFFFF then 12
  else 16

/-- `stack_info::print2` (lines 364–380): the text that it writes to `out`. -/
def print2 (s : StackInfo) (w1 w2 w3 : ℤ) : Option Bytes := do
  let object ← s.object.text
  let function ← s.function.text
  let out := ascii "0x" ++ field 48 w1 (numeral 16 s.address.toNat) ++ ascii ":  " ++
    field 32 w2 (stripPath object) ++ ascii "  " ++ field 32 w3 function
  if s.filename.toList.headD 0 ≠ 0 ∧ s.line > 0 then do
    let filename ← s.filename.text
    some (out ++ ascii "  " ++ stripPath filename ++ ascii ":" ++ numeral 10 s.line.toNat)
  else if s.filename.toList.headD 0 ≠ 0 then do
    let filename ← s.filename.text
    some (out ++ ascii "  " ++ stripPath filename)
  else if s.line > 0 then some (out ++ ascii " : " ++ numeral 10 s.line.toNat)
  else some out

end StackInfo

namespace MultiStackInfo

/-! ## Widths -/

mutual

/-- The greatest width of a frame of the tree, for the three functions that follow. -/
def maxWidth (own : StackInfo → ℕ) : MultiStackInfo → ℕ
  | ⟨_, stack, children⟩ => maxWidthLoop own (own stack) children

/-- The loop over the children; `w` is the width so far. -/
def maxWidthLoop (own : StackInfo → ℕ) : (w : ℕ) → List MultiStackInfo → ℕ
  | w, [] => w
  | w, child :: rest => maxWidthLoop own (max w (maxWidth own child)) rest

end

/-- `multi_stack_info::getAddressWidth` (lines 469–475). -/
def getAddressWidth (t : MultiStackInfo) : ℕ := t.maxWidth StackInfo.getAddressWidth

/-- `multi_stack_info::getObjectWidth` (lines 476–482). -/
def getObjectWidth (t : MultiStackInfo) : ℕ :=
  t.maxWidth fun stack => min (stack.object.toList.length + 1) 20

/-- `multi_stack_info::getFunctionWidth` (lines 483–489). -/
def getFunctionWidth (t : MultiStackInfo) : ℕ :=
  t.maxWidth fun stack => min (stack.function.toList.length + 1) 40

/-- `int w[3]`. -/
structure Widths where
  address : ℕ
  object : ℕ
  function : ℕ

/-- The widths that all three ways of printing use. -/
def widths (t : MultiStackInfo) : Widths :=
  ⟨t.getAddressWidth, t.getObjectWidth, t.getFunctionWidth⟩

/-! ## `print2` -/

/-- `char line[4096]` with the text of one node (lines 424–426). -/
def printLine (w : Widths) (pre : Bytes) (N : ℤ) (stack : StackInfo) : Option Bytes := do
  let text ← stack.print2 w.address w.object w.function
  let line := pre ++ ascii "[" ++ printInt N ++ ascii "] " ++ text
  if line.length < 4096 then some line else none

mutual

/-- `multi_stack_info::print2` (lines 419–436): the array `buf` after the call and
    the lines that `fun` has been called with. -/
def print2 (w : Widths) (Np : ℕ) (buf : Bytes) (c : Bool) :
    MultiStackInfo → Option (Bytes × List Bytes)
  | ⟨N, stack, children⟩ =>
    if stack.address ≠ 0 then do
      let buf ← Buffer.write buf Np [0]
      let line ← printLine w (cstr buf) N stack
      let buf ← Buffer.write buf Np [if c then 124 else 32]
      let buf ← Buffer.write buf (Np + 1) [32]
      let (buf, lines) ← print2Loop w (Np + 2) buf true children
      some (buf, line :: lines)
    else print2Loop w Np buf false children

/-- The loop over the children. `i < children.size() - 1` says that there are
    others to come, and then `children.size() > 1`; `bar` is `stack.address != 0`. -/
def print2Loop (w : Widths) (Np : ℕ) (buf : Bytes) (bar : Bool) :
    List MultiStackInfo → Option (Bytes × List Bytes)
  | [] => some (buf, [])
  | child :: rest => do
    let (buf, lines) ← print2 w Np buf (!rest.isEmpty && bar) child
    let (buf, lines') ← print2Loop w Np buf bar rest
    some (buf, lines ++ lines')

end

/-- `multi_stack_info::print` (lines 437–446). `prefix2` is the array of 1024
    characters with what it holds before anything is written to it, `pre` the
    argument `prefix`. -/
def print (t : MultiStackInfo) (prefix2 : CharArray 1024) (pre : Bytes) : Option (List Bytes) := do
  let buf ← Buffer.write prefix2.toList 0 pre
  let (_, text) ← t.print2 t.widths pre.length buf false
  some text

/-- `multi_stack_info::printString` (lines 455–468). -/
def printString (t : MultiStackInfo) (prefix2 : CharArray 1024) (pre : Bytes) : Option Bytes := do
  let buf ← Buffer.write prefix2.toList 0 pre
  let (_, text) ← t.print2 t.widths pre.length buf false
  some (text.flatMap fun line => line ++ ascii "\n")

/-! ## Printing with a text for each call -/

mutual

/-- What `print2` prints, where each call has its own text `pre` of bars and blanks. -/
def render (w : Widths) (pre : Bytes) (c : Bool) : MultiStackInfo → Option (List Bytes)
  | ⟨N, stack, children⟩ =>
    if stack.address ≠ 0 then do
      let line ← printLine w pre N stack
      let lines ← renderForest w (pre ++ [if c then 124 else 32, 32]) true children
      some (line :: lines)
    else renderForest w pre false children

/-- What it prints for the children of a node. -/
def renderForest (w : Widths) (pre : Bytes) (bar : Bool) :
    List MultiStackInfo → Option (List Bytes)
  | [] => some []
  | child :: rest => do
    let lines ← render w pre (!rest.isEmpty && bar) child
    let lines' ← renderForest w pre bar rest
    some (lines ++ lines')

end

/-- A call with the array `pre ++ rest` succeeds if `lines` does, with the same
    lines, and has changed nothing in `pre`. -/
def Agrees (pre rest : Bytes) (r : Option (Bytes × List Bytes)) (lines : Option (List Bytes)) :
    Prop :=
  match lines with
  | none => r = none
  | some lines => ∃ rest', rest'.length = rest.length ∧ r = some (pre ++ rest', lines)

/-! ## How much of the array is used -/

mutual

/-- The most nodes that are printed on one way down the tree. -/
def printedHeight : MultiStackInfo → ℕ
  | ⟨_, stack, children⟩ => (if stack.address ≠ 0 then 1 else 0) + printedForestHeight children

/-- The most nodes that are printed on one way down the forest. -/
def printedForestHeight : List MultiStackInfo → ℕ
  | [] => 0
  | c :: cs => max c.printedHeight (printedForestHeight cs)

end

theorem printedForestHeight_le (cs : List MultiStackInfo) :
    printedForestHeight cs ≤ forestHeight cs := by
  induction cs using forest_induction with
  | nil => exact le_rfl
  | cons x xs ihx ihxs =>
    obtain ⟨N, stack, children⟩ := x
    have hx : printedForestHeight children ≤ forestHeight children := ihx
    rw [printedForestHeight, printedHeight, forestHeight, height]
    split_ifs <;> omega

/-- `lines` where the array has room for two characters for each of `height` nodes. -/
def within (height room : ℕ) (lines : Option (List Bytes)) : Option (List Bytes) :=
  if 2 * height ≤ room then lines else none

theorem within_of_le {height room : ℕ} {lines : Option (List Bytes)} (h : 2 * height ≤ room) :
    within height room lines = lines :=
  if_pos h

theorem within_of_lt {height room : ℕ} {lines : Option (List Bytes)} (h : room < 2 * height) :
    within height room lines = none :=
  if_neg (Nat.not_le.mpr h)

/-- The children are printed as they should be in every array that is long enough, and in no
    other one. -/
def LoopAgrees (w : Widths) (cs : List MultiStackInfo) : Prop :=
  ∀ (pre rest : Bytes) (bar : Bool), 0 ∉ pre →
    Agrees pre rest (print2Loop w pre.length (pre ++ rest) bar cs)
      (within (printedForestHeight cs) rest.length (renderForest w pre bar cs))

theorem write_end (buf : Bytes) (c : UInt8) : Buffer.write buf buf.length [c] = none := by
  unfold Buffer.write
  rw [if_neg]
  simp

theorem print2_agrees {w : Widths} {t : MultiStackInfo} (ht : LoopAgrees w t.children)
    {pre : Bytes} (rest : Bytes) (c : Bool) (hpre : 0 ∉ pre) :
    Agrees pre rest (print2 w pre.length (pre ++ rest) c t)
      (within t.printedHeight rest.length (render w pre c t)) := by
  obtain ⟨N, stack, children⟩ := t
  rw [print2, render, printedHeight]
  by_cases haddr : stack.address ≠ 0
  · rw [if_pos haddr, if_pos haddr, if_pos haddr]
    obtain _ | ⟨a, _ | ⟨b, rest⟩⟩ := rest
    · -- there is no room for the NUL
      rw [List.append_nil, write_end, within_of_lt (by rw [List.length_nil]; omega)]
      rfl
    · -- there is no room for the blank
      have hwrite := write_end (pre ++ [if c then 124 else 32]) 32
      rw [List.length_append, List.length_singleton] at hwrite
      rw [within_of_lt (by rw [List.length_singleton]; omega)]
      simp only [Buffer.write_one, hwrite, Option.bind_eq_bind, Option.bind_some]
      cases printLine w (cstr (pre ++ [0])) N stack <;> rfl
    · set bar : UInt8 := if c then 124 else 32 with hbar
      have hwrite : Buffer.write (pre ++ bar :: b :: rest) (pre.length + 1) [32] =
          some (pre ++ [bar, 32] ++ rest) := by
        have h := Buffer.write_one (pre ++ [bar]) rest b 32
        simpa using h
      have hpre' : 0 ∉ pre ++ [bar, 32] := by
        have hbar0 : bar ≠ 0 := by rw [hbar]; split_ifs <;> decide
        simp [hpre, hbar0.symm]
      have hrec := ht (pre ++ [bar, 32]) rest true hpre'
      have hNp : (pre ++ [bar, 32]).length = pre.length + 2 := by simp
      rw [hNp] at hrec
      simp only [Buffer.write_one, hwrite, Option.bind_eq_bind, Option.bind_some,
        cstr_append_zero hpre]
      by_cases hroom : 2 * printedForestHeight children ≤ rest.length
      · rw [within_of_le hroom] at hrec
        rw [within_of_le (by rw [List.length_cons, List.length_cons]; omega)]
        cases hline : printLine w pre N stack with
        | none => rfl
        | some line =>
          cases hlines : renderForest w (pre ++ [bar, 32]) true children with
          | none =>
            rw [hlines] at hrec
            have hnone : print2Loop w (pre.length + 2) (pre ++ [bar, 32] ++ rest) true children =
                none := hrec
            rw [Option.bind_some, hnone]
            rfl
          | some lines =>
            rw [hlines] at hrec
            obtain ⟨rest', hrest', hr⟩ := hrec
            rw [Option.bind_some, hr]
            exact ⟨bar :: 32 :: rest', by simp [hrest'], by simp⟩
      · -- a descendant does not find room
        rw [within_of_lt (Nat.not_le.mp hroom)] at hrec
        have hnone : print2Loop w (pre.length + 2) (pre ++ [bar, 32] ++ rest) true children =
            none := hrec
        rw [within_of_lt (by rw [List.length_cons, List.length_cons]; omega), hnone]
        cases printLine w pre N stack <;> rfl
  · rw [if_neg haddr, if_neg haddr, if_neg haddr, Nat.zero_add]
    exact ht pre rest false hpre

theorem loopAgrees (w : Widths) (cs : List MultiStackInfo) : LoopAgrees w cs := by
  induction cs using forest_induction with
  | nil =>
    intro pre rest bar _
    rw [within_of_le (by rw [printedForestHeight]; omega)]
    exact ⟨rest, rfl, rfl⟩
  | cons x xs ihx ihxs =>
    intro pre rest bar hpre
    have hx := print2_agrees ihx rest (!xs.isEmpty && bar) hpre
    rw [print2Loop, renderForest, printedForestHeight]
    by_cases hroom : 2 * x.printedHeight ≤ rest.length
    · rw [within_of_le hroom] at hx
      cases hlines : render w pre (!xs.isEmpty && bar) x with
      | none =>
        rw [hlines] at hx
        have hnone : print2 w pre.length (pre ++ rest) (!xs.isEmpty && bar) x = none := hx
        rw [hnone]
        unfold within
        split_ifs <;> rfl
      | some lines =>
        rw [hlines] at hx
        obtain ⟨rest', hrest', hr⟩ := hx
        have hxs := ihxs pre rest' bar hpre
        rw [hrest'] at hxs
        simp only [hr, Option.bind_eq_bind, Option.bind_some]
        by_cases hrooms : 2 * printedForestHeight xs ≤ rest.length
        · rw [within_of_le hrooms] at hxs
          rw [within_of_le (by omega)]
          cases hlines' : renderForest w pre bar xs with
          | none =>
            rw [hlines'] at hxs
            have hnone : print2Loop w pre.length (pre ++ rest') bar xs = none := hxs
            rw [hnone]
            rfl
          | some lines' =>
            rw [hlines'] at hxs
            obtain ⟨rest'', hrest'', hr'⟩ := hxs
            rw [hr']
            exact ⟨rest'', hrest''.trans hrest', rfl⟩
        · rw [within_of_lt (Nat.not_le.mp hrooms)] at hxs
          have hnone : print2Loop w pre.length (pre ++ rest') bar xs = none := hxs
          rw [within_of_lt (by omega), hnone]
          rfl
    · rw [within_of_lt (Nat.not_le.mp hroom)] at hx
      have hnone : print2 w pre.length (pre ++ rest) (!xs.isEmpty && bar) x = none := hx
      rw [within_of_lt (by omega), hnone]
      rfl

theorem Agrees.map_snd {pre rest : Bytes} {r : Option (Bytes × List Bytes)}
    {lines : Option (List Bytes)} (h : Agrees pre rest r lines) : r.map Prod.snd = lines := by
  cases lines with
  | none =>
    obtain rfl : r = none := h
    rfl
  | some lines =>
    obtain ⟨rest', -, rfl⟩ := h
    rfl

/-- Where the array has room for two characters for each printed node of a way, sharing it
    makes no difference. -/
theorem print2_within (w : Widths) (t : MultiStackInfo) {pre : Bytes} (rest : Bytes) (c : Bool)
    (hpre : 0 ∉ pre) : (print2 w pre.length (pre ++ rest) c t).map Prod.snd =
      within t.printedHeight rest.length (render w pre c t) :=
  (print2_agrees (loopAgrees w t.children) rest c hpre).map_snd

/-- A root without an address is not printed and needs no room. -/
theorem print2_of_root {w : Widths} {t : MultiStackInfo} (hroot : t.stack.address = 0)
    {pre rest : Bytes} (c : Bool) (hpre : 0 ∉ pre) (hlen : 2 * t.height ≤ rest.length) :
    (print2 w pre.length (pre ++ rest) c t).map Prod.snd = renderForest w pre false t.children := by
  have hle := printedForestHeight_le t.children
  rw [height_eq] at hlen
  rw [print2_within w t rest c hpre]
  obtain ⟨N, stack, children⟩ := t
  have haddr : ¬ stack.address ≠ 0 := not_not.mpr hroot
  rw [printedHeight, if_neg haddr, Nat.zero_add, render, if_neg haddr,
    within_of_le (hlen.trans' (by simpa using hle))]

/-! ## `print` and `printString` -/

theorem print_eq (t : MultiStackInfo) (prefix2 : CharArray 1024) {pre : Bytes}
    (hlen : pre.length ≤ 1024) : t.print prefix2 pre =
      (t.print2 t.widths pre.length (pre ++ prefix2.toList.drop pre.length) false).map
        Prod.snd := by
  have hwrite : Buffer.write prefix2.toList 0 pre =
      some (pre ++ prefix2.toList.drop pre.length) := by
    unfold Buffer.write
    rw [if_pos (by rw [prefix2.length_toList]; omega)]
    simp
  unfold print
  rw [hwrite]
  show (print2 t.widths pre.length (pre ++ prefix2.toList.drop pre.length) false t).bind _ = _
  cases print2 t.widths pre.length (pre ++ prefix2.toList.drop pre.length) false t <;> rfl

theorem print_within (t : MultiStackInfo) (prefix2 : CharArray 1024) {pre : Bytes} (hpre : 0 ∉ pre)
    (hlen : pre.length ≤ 1024) : t.print prefix2 pre =
      within t.printedHeight (1024 - pre.length) (render t.widths pre false t) := by
  have hroom : (prefix2.toList.drop pre.length).length = 1024 - pre.length := by
    rw [List.length_drop, prefix2.length_toList]
  rw [print_eq t prefix2 hlen, print2_within t.widths t _ false hpre, hroom]

theorem printString_eq (t : MultiStackInfo) (prefix2 : CharArray 1024) (pre : Bytes) :
    t.printString prefix2 pre =
      (t.print prefix2 pre).map fun text => text.flatMap fun line => line ++ ascii "\n" := by
  unfold printString print
  cases Buffer.write prefix2.toList 0 pre with
  | none => rfl
  | some buf =>
    show (print2 t.widths pre.length buf false t).bind _ =
      ((print2 t.widths pre.length buf false t).bind _).map _
    cases print2 t.widths pre.length buf false t <;> rfl

end MultiStackInfo

end StackTrace
