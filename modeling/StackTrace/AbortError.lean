import StackTrace.Base.Erasing
import StackTrace.Cleanup.Run
import StackTrace.Text.RoundTrip
import StackTrace.Tree.Stacks

/-!
# `abort_error::what`

`StackTrace.cpp`, lines 2276–2347. The text is put together from the cause, the place, the
message and the call stacks, and the NULs in it are erased by a loop that advances after an
erasure too.

* `what_shows_iff`: nothing is cut off if and only if no two NULs stand next to each other in
  the message.
-/

namespace StackTrace

namespace AbortError

/-! ## Model -/

/-- `terminateType`. -/
inductive TerminateType where
  | signal
  | exception
  | abort
  | MPI
  | unknown

/-- `printStackType`, with the values that it does not name. -/
inductive PrintStackType where
  | local
  | threaded
  | global
  | none
  | other (value : UInt8)
deriving DecidableEq

/-- What `what` reads of a `source_location`; the name is a C string. -/
structure SourceLocation where
  file_name : Bytes
  line : UInt32

end AbortError

/-- `abort_error` (`StackTrace.h`, lines 100–117). -/
structure AbortError where
  message : Bytes
  source : AbortError.SourceLocation
  type : AbortError.TerminateType
  stackType : AbortError.PrintStackType
  signal : UInt8
  bytes : UInt64
  stack : List UInt64

namespace AbortError

/-- What `what` asks for: the frames of addresses, the other threads of the process, and the
    call stacks of other processes. `fuel` is the number of steps that searches and the
    clean-up may take, `room` the room in the vectors of the tree that is cleaned, `prefix2` the
    array of `printString` before the call. -/
structure Surroundings (τ : Type*) where
  process : Process
  fuel : ℕ
  room : List ℕ → ℕ
  thisThread : τ
  registeredThreads : List τ
  backtrace : τ → List UInt64
  getRemoteCallStacks : MultiStackInfo
  prefix2 : CharArray 1024

variable {τ : Type*} [DecidableEq τ]

/-- `abort_error::abort_error()` (lines 2280–2283). -/
def init : AbortError := ⟨[], ⟨[], 0⟩, .unknown, .local, 0, 0, []⟩

/-- Lines 2287–2297. -/
def cause (e : AbortError) : Bytes :=
  match e.type with
  | .abort => ascii "Program abort called"
  | .signal => ascii "Unhandled signal (" ++ numeral 10 e.signal.toNat ++ ascii ") caught"
  | .exception => ascii "Unhandled exception caught"
  | .MPI => ascii "Error calling MPI routine"
  | .unknown => ascii "Unknown error called"

/-- Lines 2298–2304. -/
def place (e : AbortError) : Bytes :=
  let filename := cstr e.source.file_name
  if filename.isEmpty then []
  else
    ascii " in file '" ++ filename ++ ascii "'" ++
      if e.source.line > 0 then ascii " at line " ++ numeral 10 e.source.line.toNat else []

/-- Lines 2307–2309. -/
def bytesUsed (e : AbortError) : Bytes :=
  if e.bytes > 0 then ascii "Bytes used = " ++ numeral 10 e.bytes.toNat ++ ascii "\n" else []

/-- Lines 2316–2319, with the default widths of `print2`. -/
def printItem (item : StackInfo) : Option Bytes := do
  let txt ← item.print2 16 20 32
  if txt.length < 1000 then some (ascii " \n" ++ txt) else none

/-- Lines 2313–2320. -/
def localStack (e : AbortError) (s : Surroundings τ) : Option Bytes := do
  let items ← getStackInfo s.process s.fuel e.stack
  let lines ← (items.filter StackInfo.keep).mapM printItem
  some lines.flatten

/-- Lines 2322–2338. -/
def threadStacks (e : AbortError) (s : Surroundings τ) : Option Bytes := do
  let threads := s.registeredThreads.filter (· ≠ s.thisThread)
  let multistack ← generateMultiStack s.process s.fuel (e.stack :: threads.map s.backtrace)
  let multistack :=
    if e.stackType = .global then multistack.add s.getRemoteCallStacks else multistack
  let multistack ← ((Stored.store s.room multistack).cleanupStackTrace s.fuel).toOption
  multistack.value.printString s.prefix2 (ascii " ")

/-- Lines 2312–2341. -/
def callStacks (e : AbortError) (s : Surroundings τ) : Option Bytes :=
  match e.stackType with
  | .local => localStack e s
  | .threaded | .global => threadStacks e s
  | .none | .other _ => some (ascii "Unknown value for stackType\n")

/-- Lines 2310–2342. -/
def stackTrace (e : AbortError) (s : Surroundings τ) : Option Bytes :=
  if e.stack = [] ∨ e.stackType = .none then some []
  else do
    let text ← callStacks e s
    some (ascii "Stack Trace:\n" ++ text)

/-- `d_msg` before the loop of lines 2343–2345. -/
def composed (e : AbortError) (s : Surroundings τ) : Option Bytes := do
  let text ← stackTrace e s
  some (e.cause ++ e.place ++ ascii ":\n" ++ (ascii "   " ++ e.message ++ ascii "\n") ++
    e.bytesUsed ++ text)

/-- `d_msg` after `what()` (lines 2284–2347), of which `c_str()` is returned. -/
def what (e : AbortError) (s : Surroundings τ) : Option Bytes := do
  let d_msg ← composed e s
  some (eraseFrom 0 d_msg 0)

end AbortError

/-! ## Printed texts have no NUL -/

theorem zero_notMem_numeral {b : ℕ} (hb : 1 < b) (hb' : b ≤ 16) (n : ℕ) : 0 ∉ numeral b n := by
  intro h
  have hdigit := isDigit_of_mem_numeral hb hb' n 0 h
  rw [not_isDigit_zero] at hdigit
  cases hdigit

namespace StackInfo

theorem terminated_of_text {n : ℕ} {a : CharArray n} {text : Bytes} (h : a.text = some text) :
    a.Terminated := by
  unfold CharArray.text at h
  split_ifs at h with hzero
  exact hzero

/-- A frame that is printed has texts that end. -/
theorem textsEnd_of_print2 {s : StackInfo} {w1 w2 w3 : ℤ} {out : Bytes}
    (h : s.print2 w1 w2 w3 = some out) : s.TextsEnd := by
  obtain ⟨object, hobject, h⟩ := Option.bind_eq_some_iff.mp h
  obtain ⟨function, hfunction, h⟩ := Option.bind_eq_some_iff.mp h
  refine ⟨terminated_of_text hobject, terminated_of_text hfunction, ?_⟩
  dsimp only at h
  split_ifs at h with h1 h2 h3
  · obtain ⟨filename, hfilename, -⟩ := Option.bind_eq_some_iff.mp h
    exact terminated_of_text hfilename
  · obtain ⟨filename, hfilename, -⟩ := Option.bind_eq_some_iff.mp h
    exact terminated_of_text hfilename
  all_goals
    obtain ⟨c, cs, hcs⟩ := List.exists_cons_of_length_pos (l := s.filename.toList)
      (by rw [s.filename.length_toList]; omega)
    have hc : c = 0 := by
      rw [hcs] at h2
      exact not_not.mp h2
    show 0 ∈ s.filename.toList
    rw [hcs, hc]
    exact List.mem_cons_self

theorem zero_notMem_print2 {s : StackInfo} {w1 w2 w3 : ℤ} {out : Bytes}
    (h : s.print2 w1 w2 w3 = some out) : 0 ∉ out := by
  have htexts := textsEnd_of_print2 h
  rw [print2_field htexts] at h
  obtain rfl := Option.some.inj h
  have hnumeral := zero_notMem_numeral (b := 16) (by norm_num) (by norm_num) s.address.toNat
  have hfields := notMem_fieldsText (c := 0) (by decide) (by decide) (not_isDigit_zero 10)
    s.object.zero_notMem_str s.function.zero_notMem_str s.filename.zero_notMem_str w2 w3
  have haddress : 0 ∉ field 48 w1 (numeral 16 s.address.toNat) := by
    intro h
    rcases mem_field h with h | h | h
    · exact absurd h (by decide)
    · exact absurd h (by decide)
    · exact hnumeral h
  simp only [List.mem_cons, List.mem_append, not_or]
  exact ⟨by decide, by decide, haddress, by decide, hfields⟩

end StackInfo

namespace MultiStackInfo

theorem zero_notMem_printLine {w : Widths} {pre line : Bytes} {N : ℤ} {stack : StackInfo}
    (hpre : 0 ∉ pre) (h : printLine w pre N stack = some line) : 0 ∉ line := by
  obtain ⟨text, htext, h⟩ := Option.bind_eq_some_iff.mp h
  dsimp only at h
  split_ifs at h
  obtain rfl := Option.some.inj h
  have hopen : 0 ∉ ascii "[" := by decide
  have hclose : 0 ∉ ascii "] " := by decide
  simp only [List.mem_append, not_or]
  exact ⟨⟨⟨⟨hpre, hopen⟩, zero_notMem_printInt N⟩, hclose⟩, StackInfo.zero_notMem_print2 htext⟩

/-- The line of a node has no NUL, whatever is in the array. -/
theorem zero_notMem_print2 {w : Widths} {t : MultiStackInfo}
    (hchildren : ∀ Np buf buf' bar lines,
      print2Loop w Np buf bar t.children = some (buf', lines) → ∀ line ∈ lines, 0 ∉ line)
    {Np : ℕ} {buf buf' : Bytes} {c : Bool} {lines : List Bytes}
    (h : print2 w Np buf c t = some (buf', lines)) : ∀ line ∈ lines, 0 ∉ line := by
  obtain ⟨N, stack, children⟩ := t
  rw [print2] at h
  by_cases haddress : stack.address ≠ 0
  · rw [if_pos haddress] at h
    obtain ⟨buf₁, -, h⟩ := Option.bind_eq_some_iff.mp h
    obtain ⟨line, hline, h⟩ := Option.bind_eq_some_iff.mp h
    obtain ⟨buf₂, -, h⟩ := Option.bind_eq_some_iff.mp h
    obtain ⟨buf₃, -, h⟩ := Option.bind_eq_some_iff.mp h
    obtain ⟨⟨buf₄, lines'⟩, hlines, h⟩ := Option.bind_eq_some_iff.mp h
    obtain ⟨-, rfl⟩ := Prod.mk.inj (Option.some.inj h)
    exact List.forall_mem_cons.mpr
      ⟨zero_notMem_printLine (zero_notMem_cstr buf₁) hline, hchildren _ _ _ _ _ hlines⟩
  · rw [if_neg haddress] at h
    exact hchildren _ _ _ _ _ h

theorem zero_notMem_print2Loop {w : Widths} {cs : List MultiStackInfo} {Np : ℕ}
    {buf buf' : Bytes} {bar : Bool} {lines : List Bytes}
    (h : print2Loop w Np buf bar cs = some (buf', lines)) : ∀ line ∈ lines, 0 ∉ line := by
  induction cs using forest_induction generalizing Np buf buf' bar lines with
  | nil =>
    obtain ⟨-, rfl⟩ := Prod.mk.inj (Option.some.inj h)
    simp
  | cons x xs ihx ihxs =>
    rw [print2Loop] at h
    obtain ⟨⟨buf₁, lines₁⟩, hfirst, h⟩ := Option.bind_eq_some_iff.mp h
    obtain ⟨⟨buf₂, lines₂⟩, hrest, h⟩ := Option.bind_eq_some_iff.mp h
    obtain ⟨-, rfl⟩ := Prod.mk.inj (Option.some.inj h)
    exact List.forall_mem_append.mpr
      ⟨zero_notMem_print2 (fun _ _ _ _ _ => ihx) hfirst, ihxs hrest⟩

theorem zero_notMem_printString {t : MultiStackInfo} {prefix2 : CharArray 1024}
    {pre text : Bytes} (h : t.printString prefix2 pre = some text) : 0 ∉ text := by
  obtain ⟨buf, -, h⟩ := Option.bind_eq_some_iff.mp h
  obtain ⟨⟨buf', lines⟩, hlines, h⟩ := Option.bind_eq_some_iff.mp h
  obtain rfl := Option.some.inj h
  intro hzero
  obtain ⟨line, hline, hzero⟩ := List.mem_flatMap.mp hzero
  rcases List.mem_append.mp hzero with hzero | hzero
  · exact zero_notMem_print2 (fun _ _ _ _ _ => zero_notMem_print2Loop) hlines line hline hzero
  · exact absurd hzero (by decide)

end MultiStackInfo

namespace AbortError

/-! ## Only the message has NULs -/

variable {τ : Type*} {e : AbortError} {s : Surroundings τ} {text : Bytes}

theorem zero_notMem_cause (e : AbortError) : 0 ∉ e.cause := by
  have hnumeral := zero_notMem_numeral (b := 10) (by norm_num) (by norm_num) e.signal.toNat
  unfold cause
  cases e.type with
  | signal =>
    simp only [List.mem_append, not_or]
    exact ⟨⟨by decide, hnumeral⟩, by decide⟩
  | exception => exact (by decide : 0 ∉ ascii "Unhandled exception caught")
  | abort => exact (by decide : 0 ∉ ascii "Program abort called")
  | MPI => exact (by decide : 0 ∉ ascii "Error calling MPI routine")
  | unknown => exact (by decide : 0 ∉ ascii "Unknown error called")

theorem zero_notMem_place (e : AbortError) : 0 ∉ e.place := by
  have hnumeral := zero_notMem_numeral (b := 10) (by norm_num) (by norm_num) e.source.line.toNat
  have hname := zero_notMem_cstr e.source.file_name
  have hline : 0 ∉ ascii " at line " := by decide
  have hopen : 0 ∉ ascii " in file '" := by decide
  have hclose : 0 ∉ ascii "'" := by decide
  unfold place
  dsimp only
  split_ifs <;> simp [hnumeral, hname, hline, hopen, hclose]

theorem zero_notMem_bytesUsed (e : AbortError) : 0 ∉ e.bytesUsed := by
  have hnumeral := zero_notMem_numeral (b := 10) (by norm_num) (by norm_num) e.bytes.toNat
  have hused : 0 ∉ ascii "Bytes used = " := by decide
  have hend : 0 ∉ ascii "\n" := by decide
  unfold bytesUsed
  split_ifs <;> simp [hnumeral, hused, hend]

theorem zero_notMem_printItem {item : StackInfo} (h : printItem item = some text) : 0 ∉ text := by
  obtain ⟨txt, htxt, h⟩ := Option.bind_eq_some_iff.mp h
  split_ifs at h
  obtain rfl := Option.some.inj h
  have hindent : 0 ∉ ascii " \n" := by decide
  exact List.not_mem_append hindent (StackInfo.zero_notMem_print2 htxt)

theorem zero_notMem_localStack (h : localStack e s = some text) : 0 ∉ text := by
  obtain ⟨items, -, h⟩ := Option.bind_eq_some_iff.mp h
  obtain ⟨lines, hlines, h⟩ := Option.bind_eq_some_iff.mp h
  obtain rfl := Option.some.inj h
  have hall : ∀ line ∈ lines, 0 ∉ line :=
    forall_of_mapM (fun _ _ => zero_notMem_printItem) hlines
  intro hzero
  obtain ⟨line, hline, hzero⟩ := List.mem_flatten.mp hzero
  exact hall line hline hzero

variable [DecidableEq τ]

theorem zero_notMem_threadStacks (h : threadStacks e s = some text) : 0 ∉ text := by
  obtain ⟨multistack, -, h⟩ := Option.bind_eq_some_iff.mp h
  obtain ⟨cleaned, -, h⟩ := Option.bind_eq_some_iff.mp h
  exact MultiStackInfo.zero_notMem_printString h

theorem zero_notMem_callStacks (h : callStacks e s = some text) : 0 ∉ text := by
  have hunknown : 0 ∉ ascii "Unknown value for stackType\n" := by decide
  unfold callStacks at h
  cases htype : e.stackType with
  | «local» =>
    rw [htype] at h
    exact zero_notMem_localStack h
  | threaded =>
    rw [htype] at h
    exact zero_notMem_threadStacks h
  | global =>
    rw [htype] at h
    exact zero_notMem_threadStacks h
  | none =>
    rw [htype] at h
    exact Option.some.inj h ▸ hunknown
  | other value =>
    rw [htype] at h
    exact Option.some.inj h ▸ hunknown

theorem zero_notMem_stackTrace (h : stackTrace e s = some text) : 0 ∉ text := by
  unfold stackTrace at h
  split_ifs at h
  · obtain rfl := Option.some.inj h
    simp
  · obtain ⟨text', htext', h⟩ := Option.bind_eq_some_iff.mp h
    obtain rfl := Option.some.inj h
    exact List.not_mem_append (by decide) (zero_notMem_callStacks htext')

/-- The message stands between texts that have no NUL, and is not the last of them. -/
theorem composed_split (h : composed e s = some text) :
    ∃ a b, text = a ++ (e.message ++ b) ∧ 0 ∉ a ∧ 0 ∉ b ∧ b ≠ [] := by
  obtain ⟨trace, htrace, h⟩ := Option.bind_eq_some_iff.mp h
  obtain rfl := Option.some.inj h
  refine ⟨e.cause ++ e.place ++ ascii ":\n" ++ ascii "   ",
    ascii "\n" ++ e.bytesUsed ++ trace, by simp, ?_, ?_, by simp [ascii]⟩
  · have hcolon : 0 ∉ ascii ":\n" := by decide
    have hindent : 0 ∉ ascii "   " := by decide
    simp only [List.mem_append, not_or]
    exact ⟨⟨⟨e.zero_notMem_cause, e.zero_notMem_place⟩, hcolon⟩, hindent⟩
  · have hend : 0 ∉ ascii "\n" := by decide
    simp only [List.mem_append, not_or]
    exact ⟨⟨hend, e.zero_notMem_bytesUsed⟩, zero_notMem_stackTrace htrace⟩

/-! ## Main result -/

/-- What the loop leaves of the composed text. -/
theorem cstr_eraseFrom_iff (h : composed e s = some text) :
    (0 ∉ eraseFrom 0 text 0 ↔ ¬ [0, 0] <:+: e.message) ∧
      (cstr (eraseFrom 0 text 0) = text.filter (· ≠ 0) ↔ ¬ [0, 0] <:+: e.message) := by
  obtain ⟨a, b, rfl, ha, hb, hne⟩ := composed_split h
  have hlast : (a ++ (e.message ++ b)).getLast? ≠ some 0 := by
    intro hzero
    rw [List.getLast?_append_of_ne_nil _ (by simp [hne]),
      List.getLast?_append_of_ne_nil _ hne] at hzero
    exact hb (List.mem_of_getLast? hzero)
  have hdouble := not_congr (double_infix_iff (s := e.message) ha hb)
  rw [eraseFrom_eq, mem_thin_iff]
  exact ⟨hdouble, (takeWhile_thin_iff hlast).trans hdouble⟩

/-- No NUL is left in `d_msg`, and its C string is the text without its NULs, if and only if no
    two NULs stand next to each other in the message. -/
theorem what_shows_iff (h : composed e s = some text) :
    ∃ d_msg, what e s = some d_msg ∧
      (0 ∉ d_msg ↔ ¬ [0, 0] <:+: e.message) ∧
      (cstr d_msg = text.filter (· ≠ 0) ↔ ¬ [0, 0] <:+: e.message) := by
  refine ⟨eraseFrom 0 text 0, ?_, cstr_eraseFrom_iff h⟩
  rw [what, h, Option.bind_eq_bind, Option.bind_some]

/-- A process with one thread, in which no address is known. -/
def oneThread : Surroundings Unit where
  process := stripped
  fuel := 0
  room _ := 0
  thisThread := ()
  registeredThreads := [()]
  backtrace _ := []
  getRemoteCallStacks := .init
  prefix2 := .zero 1024

/-- A segmentation fault with a NUL in its message. -/
def segfault : AbortError :=
  ⟨ascii "bad" ++ 0 :: ascii "name", ⟨ascii "main.cpp", 12⟩, .signal, .local, 11, 4096,
    [0x401136, 0x401190]⟩

theorem what_shows_iff_segfault :
    ∃ text d_msg, composed segfault oneThread = some text ∧
      what segfault oneThread = some d_msg ∧
      (0 ∉ d_msg ↔ ¬ [0, 0] <:+: segfault.message) ∧
      (cstr d_msg = text.filter (· ≠ 0) ↔ ¬ [0, 0] <:+: segfault.message) := by
  obtain ⟨text, htext⟩ : ∃ text, composed segfault oneThread = some text :=
    Option.isSome_iff_exists.mp (by decide +kernel)
  obtain ⟨d_msg, hd_msg⟩ := what_shows_iff htext
  exact ⟨text, d_msg, htext, hd_msg⟩

/-- The second of two NULs ends the text. -/
theorem what_cuts_off :
    ∃ text d_msg, composed { init with message := [97, 0, 0, 98] } oneThread = some text ∧
      what { init with message := [97, 0, 0, 98] } oneThread = some d_msg ∧
      0 ∈ d_msg ∧ cstr d_msg ≠ text.filter (· ≠ 0) := by
  have htext : composed { init with message := [97, 0, 0, 98] } oneThread =
      some (ascii "Unknown error called:\n   a" ++ [0, 0] ++ ascii "b\n") := by
    decide +kernel
  obtain ⟨hleft, hshown⟩ := cstr_eraseFrom_iff htext
  have hdouble : [0, 0] <:+: ({ init with message := [97, 0, 0, 98] } : AbortError).message :=
    ⟨[97], [98], rfl⟩
  refine ⟨_, _, htext, ?_, not_not.mp fun hzero => hleft.mp hzero hdouble,
    fun heq => hshown.mp heq hdouble⟩
  rw [what, htext, Option.bind_eq_bind, Option.bind_some]

end AbortError

end StackTrace
