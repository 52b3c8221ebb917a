import StackTrace.AbortError
import StackTrace.Cleanup.AllStacks
import StackTrace.Text.Drawing

/-!
# The report of all threads

`StackTrace.cpp`, lines 2284–2347: `abort_error::what` for the stack types `threaded` and
`global`. The call stacks of the error and of the other threads become a tree, which is
cleaned and printed behind the cause, the place and the message.

* `what_threads`, `what_global`: the text is the drawing of a tree that shows the call stacks of
  all threads of the process, and of all processes.
-/

namespace StackTrace

namespace AbortError

variable {τ : Type*} [DecidableEq τ] {e : AbortError} {s : Surroundings τ}
  {S : List (List StackInfo)} {d_msg text : Bytes}

/-- `trace`: the call stack of the error, and those of the other threads (lines 2323–2329). -/
def trace (e : AbortError) (s : Surroundings τ) : List (List UInt64) :=
  e.stack :: (s.registeredThreads.filter (· ≠ s.thisThread)).map s.backtrace

/-! ## Without NULs -/

/-- Nothing is erased where the message is a C string. -/
theorem what_eq_composed (hmessage : 0 ∉ e.message) : what e s = composed e s := by
  unfold what
  cases htext : composed e s with
  | none => rfl
  | some text =>
    obtain ⟨a, b, rfl, ha, hb, -⟩ := composed_split htext
    have hzero : 0 ∉ a ++ (e.message ++ b) := by simp [ha, hmessage, hb]
    rw [Option.bind_eq_bind, Option.bind_some, eraseFrom_eq, thin_eq_self hzero]

/-! ## The tree -/

/-- What is printed has room in the array, and is the drawing. -/
theorem drawing_of_printString {u : MultiStackInfo} {prefix2 : CharArray 1024} {pre : Bytes}
    (hpre : 0 ∉ pre) (hlen : pre.length ≤ 1024) (h : u.printString prefix2 pre = some text) :
    ∃ lines, u.drawing pre = some lines ∧ text = lines.flatMap fun line => line ++ ascii "\n" := by
  rw [MultiStackInfo.printString_eq, MultiStackInfo.print_within u prefix2 hpre hlen,
    MultiStackInfo.render_eq_drawing] at h
  obtain ⟨lines, hlines, rfl⟩ := Option.map_eq_some_iff.mp h
  unfold MultiStackInfo.within at hlines
  split_ifs at hlines
  exact ⟨lines, hlines, rfl⟩

/-- The tree before it is cleaned (lines 2331–2334). -/
def multistack (e : AbortError) (s : Surroundings τ) (S : List (List StackInfo)) :
    MultiStackInfo :=
  if e.stackType = .global then (MultiStackInfo.multiStackOf S).add s.getRemoteCallStacks
  else MultiStackInfo.multiStackOf S

theorem threadStacks_eq_some (hS : generateStacks s.process s.fuel (e.trace s) = some S)
    (h : threadStacks e s = some text) :
    ∃ v, (Stored.store s.room (multistack e s S)).cleanupStackTrace s.fuel = .ok v ∧
      v.value.printString s.prefix2 (ascii " ") = some text := by
  obtain ⟨tree, htree, h⟩ := Option.bind_eq_some_iff.mp h
  obtain ⟨S', hS', htree⟩ := Option.bind_eq_some_iff.mp htree
  obtain rfl := Option.some.inj (hS.symm.trans hS')
  obtain rfl := Option.some.inj htree
  obtain ⟨v, hv, h⟩ := Option.bind_eq_some_iff.mp h
  exact ⟨v, Limited.eq_ok_of_toOption hv, h⟩

/-- The cause, the place, the message and the memory in use, and the lines of the stacks. -/
def report (e : AbortError) (lines : List Bytes) : Bytes :=
  e.cause ++ e.place ++ ascii ":\n" ++ (ascii "   " ++ e.message ++ ascii "\n") ++
    e.bytesUsed ++ (ascii "Stack Trace:\n" ++ lines.flatMap fun line => line ++ ascii "\n")

theorem what_eq_report (h : what e s = some d_msg) (hmessage : 0 ∉ e.message)
    (hstack : e.stack ≠ []) (htype : e.stackType = .threaded ∨ e.stackType = .global)
    (hS : generateStacks s.process s.fuel (e.trace s) = some S)
    (hclean : (Stored.store s.room (multistack e s S)).WellReplaced) :
    ∃ lines, (multistack e s S).cleanupStackTrace.drawing (ascii " ") = some lines ∧
      d_msg = e.report lines := by
  rw [what_eq_composed hmessage] at h
  obtain ⟨text, htext, h⟩ := Option.bind_eq_some_iff.mp h
  have hnone : ¬ (e.stack = [] ∨ e.stackType = .none) := by
    rcases htype with htype | htype <;> simp [hstack, htype]
  rw [stackTrace, if_neg hnone] at htext
  obtain ⟨tree, htree, htext⟩ := Option.bind_eq_some_iff.mp htext
  have hthreads : threadStacks e s = some tree := by
    rcases htype with htype | htype
    · rwa [callStacks, htype] at htree
    · rwa [callStacks, htype] at htree
  obtain ⟨v, hrun, hprint⟩ := threadStacks_eq_some hS hthreads
  have hvalue := hclean.value_eq hrun
  rw [Stored.value_store] at hvalue
  obtain ⟨lines, hlines, rfl⟩ := drawing_of_printString (by decide) (by decide) hprint
  refine ⟨lines, hvalue ▸ hlines, ?_⟩
  rw [report, Option.some.inj htext]
  exact (Option.some.inj h).symm

/-! ## All threads of the process -/

/-- The report of all threads, for a message that is a C string, a call stack that is not empty
    and at most `2 ^ 31` different addresses. If frames that are `operator==` have the same
    texts, and every entry that the clean-up replaces is replaceable, it is the cause, the place,
    the message and the memory in use, and then the drawing of a tree that shows the call
    stacks of the error and of all other registered threads. -/
theorem what_threads (h : what e s = some d_msg) (hmessage : 0 ∉ e.message)
    (hstack : e.stack ≠ []) (htype : e.stackType = .threaded)
    (hsize : (e.trace s).flatten.eraseDups.length ≤ 2147483648)
    (hS : generateStacks s.process s.fuel (e.trace s) = some S)
    (htexts : StackInfo.TextsAgree {f | ∃ s ∈ S, f ∈ s})
    (hclean : (Stored.store s.room (multistack e s S)).WellReplaced) :
    S.map (List.map StackInfo.address) = e.trace s ∧
      ∃ u lines, MultiStackInfo.Shows u S ∧ u.drawing (ascii " ") = some lines ∧
        d_msg = e.report lines := by
  obtain ⟨haddress, hone⟩ := generateStacks_frames hsize hS
  obtain ⟨lines, hlines, hmsg⟩ := what_eq_report h hmessage hstack (.inl htype) hS hclean
  have htree : multistack e s S = MultiStackInfo.multiStackOf S :=
    if_neg (by simp [htype])
  rw [htree] at hlines
  exact ⟨haddress, _, lines, MultiStackInfo.shows_cleanupStackTrace hone htexts, hlines, hmsg⟩

/-- Two threads, of which one has failed. -/
def twoThreads : Surroundings Bool where
  process := stripped
  fuel := 9
  room _ := 0
  thisThread := false
  registeredThreads := [true, false]
  backtrace _ := [0x401190]
  getRemoteCallStacks := .init
  prefix2 := .zero 1024

/-- A failed assertion. -/
def failed : AbortError :=
  ⟨ascii "n > 0", ⟨ascii "main.cpp", 12⟩, .abort, .threaded, 0, 4096, [0x401136, 0x401190]⟩

theorem what_threads_two :
    ∃ d_msg, what failed twoThreads = some d_msg ∧ ascii "Program abort called" <+: d_msg := by
  obtain ⟨d_msg, hd_msg⟩ : ∃ d_msg, what failed twoThreads = some d_msg :=
    Option.isSome_iff_exists.mp (by decide +kernel)
  obtain ⟨S, hS⟩ : ∃ S, generateStacks twoThreads.process twoThreads.fuel
      (failed.trace twoThreads) = some S := Option.isSome_iff_exists.mp (by decide +kernel)
  have hall : (generateStacks twoThreads.process twoThreads.fuel
      (failed.trace twoThreads)).all (fun S => ∀ f ∈ S.flatten,
        (f.object.str = [] ∧ f.function.str = []) ∧ f.filename.str = []) = true := by
    decide +kernel
  rw [hS, Option.all_some, decide_eq_true_iff] at hall
  have hrun : (generateStacks twoThreads.process twoThreads.fuel (failed.trace twoThreads)).all
      (fun S => (Stored.cleanupWith Stored.promoteReplaceable 9 (Stored.store twoThreads.room
        (multistack failed twoThreads S))).isOk) = true := by decide +kernel
  rw [hS, Option.all_some] at hrun
  obtain ⟨v, hv⟩ := Limited.isOk_iff.mp hrun
  obtain ⟨-, u, lines, -, -, htext⟩ := what_threads hd_msg (by decide) (by decide) rfl (by decide)
    hS (MultiStackInfo.textsAgree_of_unknown hall) (Stored.wellReplaced_of_run hv)
  refine ⟨d_msg, hd_msg, ?_⟩
  rw [htext]
  simp only [report, List.append_assoc]
  exact List.prefix_append _ _

/-! ## All processes -/

variable {υ : Type} {others : List (Rank υ)} {Ts : List (List (List StackInfo))}
  {ts : List MultiStackInfo}

/-- The report of all processes, where `getRemoteCallStacks` has received the trees of other
    ranks, for a message and a call stack as before. If in all of the ranks together one address
    never stands for two functions, frames that are `operator==` have the same texts, and every
    entry that the clean-up replaces is replaceable, the drawing is that of a tree that shows
    the call stacks of the error, of the other registered threads and of the threads of these
    ranks. -/
theorem what_global (h : what e s = some d_msg) (hmessage : 0 ∉ e.message)
    (hstack : e.stack ≠ []) (htype : e.stackType = .global)
    (hS : generateStacks s.process s.fuel (e.trace s) = some S)
    (hTs : others.mapM Rank.callStacks = some Ts)
    (hts : others.mapM Rank.getAllCallStacks = some ts)
    (hremote : s.getRemoteCallStacks = MultiStackInfo.getRemoteCallStacks ts)
    (hone : StackInfo.OneProcess {f | ∃ s ∈ S ++ Ts.flatten, f ∈ s})
    (htexts : StackInfo.TextsAgree {f | ∃ s ∈ S ++ Ts.flatten, f ∈ s})
    (hclean : (Stored.store s.room (multistack e s S)).WellReplaced) :
    ∃ u lines, MultiStackInfo.Shows u (S ++ Ts.flatten) ∧ u.drawing (ascii " ") = some lines ∧
      d_msg = e.report lines := by
  obtain ⟨lines, hlines, hmsg⟩ := what_eq_report h hmessage hstack (.inr htype) hS hclean
  obtain rfl := Option.some.inj ((MultiStackInfo.mapM_callStacks hTs).symm.trans hts)
  have htree : multistack e s S = MultiStackInfo.getGlobalCallStacks
      (MultiStackInfo.multiStackOf S) (Ts.map MultiStackInfo.multiStackOf) := by
    rw [multistack, if_pos htype, hremote, MultiStackInfo.getGlobalCallStacks]
  rw [htree] at hlines
  exact ⟨_, lines, MultiStackInfo.shows_getGlobalCallStacks hone htexts, hlines, hmsg⟩

/-- Another process has two threads. -/
def twoProcesses : Surroundings Bool :=
  { twoThreads with
    getRemoteCallStacks := MultiStackInfo.getRemoteCallStacks
      [(MultiStackInfo.twoRegistered.getAllCallStacks).getD .init] }

/-- A failed assertion, to be reported with all processes. -/
def failedGlobal : AbortError := { failed with stackType := .global }

theorem what_global_two :
    ∃ d_msg, what failedGlobal twoProcesses = some d_msg ∧
      ascii "Program abort called" <+: d_msg := by
  obtain ⟨d_msg, hd_msg⟩ : ∃ d_msg, what failedGlobal twoProcesses = some d_msg :=
    Option.isSome_iff_exists.mp (by decide +kernel)
  obtain ⟨S, hS⟩ : ∃ S, generateStacks twoProcesses.process twoProcesses.fuel
      (failedGlobal.trace twoProcesses) = some S := Option.isSome_iff_exists.mp (by decide +kernel)
  obtain ⟨T, hT⟩ : ∃ T, MultiStackInfo.twoRegistered.callStacks = some T :=
    Option.isSome_iff_exists.mp (by decide +kernel)
  obtain ⟨t, ht⟩ : ∃ t, MultiStackInfo.twoRegistered.getAllCallStacks = some t :=
    Option.isSome_iff_exists.mp (by decide +kernel)
  have hall : (generateStacks twoProcesses.process twoProcesses.fuel
      (failedGlobal.trace twoProcesses)).all (fun S => MultiStackInfo.twoRegistered.callStacks.all
        fun T => (∀ f ∈ (S ++ T).flatten, ∀ g ∈ (S ++ T).flatten, f.address = g.address →
          f.address2 = g.address2 ∧ f.object = g.object) ∧
        ∀ f ∈ (S ++ T).flatten, (f.object.str = [] ∧ f.function.str = []) ∧
          f.filename.str = []) = true := by
    decide +kernel
  rw [hS, Option.all_some, hT, Option.all_some, decide_eq_true_iff] at hall
  have hTs : [MultiStackInfo.twoRegistered].mapM Rank.callStacks = some [T] := by
    rw [List.mapM_cons, hT]
    rfl
  have hts : [MultiStackInfo.twoRegistered].mapM Rank.getAllCallStacks = some [t] := by
    rw [List.mapM_cons, ht]
    rfl
  have hremote : twoProcesses.getRemoteCallStacks = MultiStackInfo.getRemoteCallStacks [t] := by
    rw [twoProcesses, ht]
    rfl
  have hsame : S ++ [T].flatten = S ++ T := by simp
  have hone : StackInfo.OneProcess {f | ∃ s ∈ S ++ [T].flatten, f ∈ s} := by
    rw [hsame]
    rintro f ⟨s, hs, hf⟩ g ⟨s', hs', hg⟩
    exact hall.1 f (List.mem_flatten_of_mem hs hf) g (List.mem_flatten_of_mem hs' hg)
  have hrun : (generateStacks twoProcesses.process twoProcesses.fuel
      (failedGlobal.trace twoProcesses)).all (fun S => (Stored.cleanupWith
        Stored.promoteReplaceable 9 (Stored.store twoProcesses.room
          (multistack failedGlobal twoProcesses S))).isOk) = true := by decide +kernel
  rw [hS, Option.all_some] at hrun
  obtain ⟨v, hv⟩ := Limited.isOk_iff.mp hrun
  obtain ⟨u, lines, -, -, htext⟩ := what_global hd_msg (by decide) (by decide) rfl hS hTs hts
    hremote hone (hsame ▸ MultiStackInfo.textsAgree_of_unknown hall.2)
    (Stored.wellReplaced_of_run hv)
  refine ⟨d_msg, hd_msg, ?_⟩
  rw [htext]
  simp only [report, List.append_assoc]
  exact List.prefix_append _ _

end AbortError

end StackTrace
