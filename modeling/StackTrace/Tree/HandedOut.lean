import StackTrace.Symbols.GetStackInfo
import StackTrace.Text.Fields
import StackTrace.Tree.Merge
import StackTrace.Tree.Operations

/-!
# Does every text that the library hands out end in a NUL?

A program gets frames from `getStackInfo` and from the nodes of trees, and may enter them
into other trees. Nothing but `copyField` (`StackTrace.cpp`, lines 2211–2216) leaves an
array without a NUL.

* `terminated_iff`: throughout a sequence of calls that all return, all texts of all frames
  end in a NUL, just if the fields fit in every text that is read.
-/

namespace StackTrace

/-! ## Model -/

/-- The trees of the program, and all frames that it has got so far. -/
structure HandedOut where
  trees : MultiStackInfo.Trees
  frames : List StackInfo

/-- The frames that the program gives to the operation. -/
def MultiStackInfo.Operation.given : MultiStackInfo.Operation → List StackInfo
  | .assign _ rhs => rhs
  | .addStack _ stack => stack
  | _ => []

/-- The fields fit, if the operation reads a text. -/
def MultiStackInfo.Operation.Fits : MultiStackInfo.Operation → Prop
  | .generateFromString _ str => ∀ line ∈ breakLines str, LineFits line
  | .generateFromLines _ text => ∀ line ∈ text, LineFits line
  | _ => True

/-- The frames of all nodes. -/
def MultiStackInfo.stacks (t : MultiStackInfo) : List StackInfo :=
  (t :: MultiStackInfo.preorder t.children).map MultiStackInfo.stack

/-- A call of the library. What the process looks like may change from call to call. -/
inductive Call
  | getStackInfo (p : Process) (fuel : ℕ) (address : List UInt64)
  | getStackInfoAt (p : Process) (fuel : ℕ) (address : UInt64)
  | operation (op : MultiStackInfo.Operation)

/-- The fields fit, if the call reads a text. -/
def Call.Fits : Call → Prop
  | .operation op => op.Fits
  | _ => True

namespace HandedOut

/-- One call. The frames of an operation are some that the program has got. -/
def call (s : HandedOut) : Call → Option HandedOut
  | .getStackInfo p fuel address => do
    let info ← StackTrace.getStackInfo p fuel address
    some { s with frames := s.frames ++ info }
  | .getStackInfoAt p fuel address => do
    let info ← StackTrace.getStackInfoAt p fuel address
    some { s with frames := s.frames ++ [info] }
  | .operation op =>
    if ∀ f ∈ op.given, f ∈ s.frames then do
      let trees ← MultiStackInfo.step s.trees op
      some ⟨trees, s.frames ++ (trees op.target).stacks⟩
    else none

/-- Default constructed trees and frames. -/
def init : HandedOut := ⟨MultiStackInfo.initial, [.init]⟩

/-- All frames end their texts in a NUL. -/
structure Terminated (s : HandedOut) : Prop where
  frames : ∀ f ∈ s.frames, f.Terminated
  trees : ∀ i, (s.trees i).Terminated

end HandedOut

/-! ## Operations on trees -/

namespace MultiStackInfo

theorem terminated_assign (t : MultiStackInfo) {rhs : List StackInfo}
    (h : ∀ f ∈ rhs, f.Terminated) : (t.assign rhs).Terminated := by
  cases rhs with
  | nil => exact ⟨.clear t.stack, framesIn_nil _⟩
  | cons stack rhs =>
    obtain ⟨hstack, hrhs⟩ := List.forall_mem_cons.mp h
    rw [assign_cons]
    exact ⟨hstack, framesIn_insertWord (fun f hf => hrhs f (List.mem_reverse.mp hf))
      (framesIn_nil _)⟩

/-- The tree that an operation makes of good trees and good frames. -/
theorem terminated_result {s : Trees} (hs : ∀ i, (s i).Terminated) {op : Operation}
    (hgiven : ∀ f ∈ op.given, f.Terminated) (hfits : op.Fits) {t : MultiStackInfo}
    (h : op.result s = some t) : t.Terminated := by
  cases op with
  | assign i rhs =>
    obtain rfl := Option.some.inj h
    exact terminated_assign (s i) hgiven
  | clear i =>
    obtain rfl := Option.some.inj h
    exact ⟨.clear (s i).stack, framesIn_nil _⟩
  | addStack i stack =>
    obtain rfl := Option.some.inj h
    rw [addStack_list]
    exact ⟨(hs i).1, framesIn_insertWord (fun f hf => hgiven f (List.mem_reverse.mp hf)) (hs i).2⟩
  | add i j =>
    simp only [Operation.result] at h
    split_ifs at h
    obtain rfl := Option.some.inj h
    refine ⟨?_, ?_⟩
    · rw [add_stack]
      exact (hs i).1
    · rw [add_children]
      exact framesIn_addForest (hs i).2 (hs j).2
  | unpack i j => exact framesIn_unpackPacked (hs j).1 (hs j).2 h
  | generateFromString i str => exact (terminated_generateFromLines_iff h).mpr hfits
  | generateFromLines i text => exact (terminated_generateFromLines_iff h).mpr hfits
  | cleanupStackTrace i fuel room =>
    obtain ⟨u, v, hu, hrun, rfl⟩ := cleanupStackTrace_eq_some h
    have hterminated := hs i
    rw [← hu] at hterminated
    exact Stored.framesIn_iff_value.mp
      (Stored.framesIn_cleanupStackTrace hrun (Stored.framesIn_iff_value.mpr hterminated))

theorem Terminated.stacks {t : MultiStackInfo} (h : t.Terminated) : ∀ f ∈ t.stacks, f.Terminated :=
  List.forall_mem_map.mpr (List.forall_mem_cons.mpr h)

end MultiStackInfo

/-! ## Calls -/

namespace HandedOut

open MultiStackInfo (Operation)

theorem terminated_init : init.Terminated :=
  ⟨by simpa [init] using StackInfo.Terminated.init, fun _ => MultiStackInfo.terminated_init⟩

theorem Terminated.append {s : HandedOut} (h : s.Terminated) {info : List StackInfo}
    (hinfo : ∀ f ∈ info, f.Terminated) : { s with frames := s.frames ++ info }.Terminated :=
  ⟨List.forall_mem_append.mpr ⟨h.frames, hinfo⟩, h.trees⟩

theorem call_operation {s t : HandedOut} {op : Operation} (h : call s (.operation op) = some t) :
    (∀ f ∈ op.given, f ∈ s.frames) ∧ ∃ u, op.result s.trees = some u ∧
      t = ⟨Function.update s.trees op.target u, s.frames ++ u.stacks⟩ := by
  unfold call at h
  dsimp only at h
  split_ifs at h with hgiven
  obtain ⟨trees, htrees, h⟩ := Option.bind_eq_some_iff.mp h
  obtain ⟨u, hu, -, rfl⟩ := MultiStackInfo.step_eq_some.mp htrees
  refine ⟨hgiven, u, hu, ?_⟩
  rw [← Option.some.inj h, Function.update_self]

/-- A call whose fields fit hands out good frames only. -/
theorem terminated_call {s t : HandedOut} {c : Call} (hs : s.Terminated) (hfits : c.Fits)
    (h : call s c = some t) : t.Terminated := by
  cases c with
  | getStackInfo p fuel address =>
    obtain ⟨info, hinfo, h⟩ := Option.bind_eq_some_iff.mp h
    obtain rfl := Option.some.inj h
    exact hs.append (terminated_getStackInfo hinfo)
  | getStackInfoAt p fuel address =>
    obtain ⟨info, hinfo, h⟩ := Option.bind_eq_some_iff.mp h
    obtain rfl := Option.some.inj h
    exact hs.append (by simpa using terminated_getStackInfoAt hinfo)
  | operation op =>
    obtain ⟨hgiven, u, hu, rfl⟩ := call_operation h
    have hterminated : u.Terminated :=
      MultiStackInfo.terminated_result hs.trees (fun f hf => hs.frames f (hgiven f hf)) hfits hu
    refine ⟨(hs.append hterminated.stacks).frames, fun i => ?_⟩
    show (Function.update s.trees op.target u i).Terminated
    by_cases hi : i = op.target
    · rw [hi, Function.update_self]
      exact hterminated
    · rw [Function.update_of_ne hi]
      exact hs.trees i

/-- The others hand out a frame without a NUL. -/
theorem not_terminated_call {s t : HandedOut} {c : Call} (hfits : ¬ c.Fits)
    (h : call s c = some t) : ¬ t.Terminated := by
  have htext : ∀ (op : Operation) (text : List Bytes), (¬ ∀ line ∈ text, LineFits line) →
      op.result s.trees = generateFromLines text → call s (.operation op) = some t →
        ¬ t.Terminated := by
    intro op text hnot hresult hcall hall
    obtain ⟨-, u, hu, rfl⟩ := call_operation hcall
    rw [hresult] at hu
    apply hnot
    apply (terminated_generateFromLines_iff hu).mp
    have htarget : (Function.update s.trees op.target u op.target).Terminated :=
      hall.trees op.target
    rwa [Function.update_self] at htarget
  cases c with
  | operation op =>
    cases op with
    | generateFromString i str =>
      exact htext (.generateFromString i str) (breakLines str) hfits rfl h
    | generateFromLines i text => exact htext (.generateFromLines i text) text hfits rfl h
    | _ => exact absurd trivial hfits
  | _ => exact absurd trivial hfits

/-! ## Main result -/

/-- Throughout a sequence of calls that all return, every text of every frame ends in a NUL,
    just if the fields fit in every text that is read. A clean-up returns if every entry that
    it replaces is replaceable at that time. -/
theorem terminated_iff {calls : List Call} {s : HandedOut}
    (hrun : Machine.run call init calls = some s) :
    ((∀ c ∈ calls, c.Fits) ↔
      ∀ p t, p <+: calls → Machine.run call init p = some t → t.Terminated) ∧
    ∀ i room, (Stored.store room (s.trees i)).WellReplaced → ∃ n t, ∀ fuel, n ≤ fuel →
      Operation.result s.trees (.cleanupStackTrace i fuel room) = some t := by
  refine ⟨?_, fun i room h => MultiStackInfo.cleanupStackTrace_returns h⟩
  rw [← Machine.meets_iff_forall hrun]
  exact Machine.meets_iff (fun _ _ _ => terminated_call) (fun _ _ _ _ => not_terminated_call)
    (fun _ h => h) terminated_init hrun

/-- One function of one library, whose name needs no demangling. -/
def mainProcess : Process where
  dladdr _ := some ⟨ascii "/usr/lib/libfoo.so", 0x7f1234566000, some (ascii "main")⟩
  demangle _ := none
  executable := ascii "/usr/bin/a.out"
  symbols := []
  addr2line := ⟨ascii "addr2line", fun _ _ => ascii "main", fun _ _ => ascii "foo.cpp:7"⟩

/-- A frame from its address and one from text, in two trees that are merged, packed and
    cleaned. -/
theorem terminated_iff_two_trees :
    ∃ s, Machine.run call init [.getStackInfo mainProcess 0 [0x7f1234567190],
        .operation (.assign 0 [.init]),
        .operation (.generateFromLines 1 [ascii "[1] 0x401000: a.out  main  a.cpp:7"]),
        .operation (.add 0 1), .operation (.unpack 2 0),
        .operation (.cleanupStackTrace 2 9 fun _ => 1)] = some s ∧ s.Terminated := by
  obtain ⟨s, hs⟩ : ∃ s, Machine.run call init [.getStackInfo mainProcess 0 [0x7f1234567190],
      .operation (.assign 0 [.init]),
      .operation (.generateFromLines 1 [ascii "[1] 0x401000: a.out  main  a.cpp:7"]),
      .operation (.add 0 1), .operation (.unpack 2 0),
      .operation (.cleanupStackTrace 2 9 fun _ => 1)] = some s :=
    Option.isSome_iff_exists.mp (by decide +kernel)
  have hline : LineFits (ascii "[1] 0x401000: a.out  main  a.cpp:7") := by decide +kernel
  refine ⟨s, hs, (terminated_iff hs).1.mp ?_ _ s (List.prefix_refl _) hs⟩
  simp only [List.forall_mem_cons]
  exact ⟨trivial, trivial, List.forall_mem_singleton.mpr hline, trivial, trivial, trivial, by simp⟩

/-- The file name of a line that is as long as its array. -/
theorem filename_unterminated :
    ¬ ∀ (calls : List Call) (s : HandedOut), Machine.run call init calls = some s →
      s.Terminated := by
  intro h
  let line := ascii "0x401000: a.out  main  " ++ List.replicate 64 97
  obtain ⟨s, hs⟩ : ∃ s, call init (.operation (.generateFromLines 0 [line])) = some s :=
    Option.isSome_iff_exists.mp (by decide +kernel)
  have hrun : Machine.run call init [.operation (.generateFromLines 0 [line])] = some s :=
    Machine.run_cons.mpr ⟨s, hs, rfl⟩
  have hline : ¬ LineFits line := by decide +kernel
  refine not_terminated_call (fun hfits => ?_) hs (h _ s hrun)
  exact hline (List.forall_mem_singleton.mp hfits)

end HandedOut

end StackTrace
