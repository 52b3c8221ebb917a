import Mathlib

/-!
# The error handler and the mutex of the thread it interrupts

A signal caught by `setErrorHandler` runs `terminateFunctionSignal` in the thread
it interrupts. That calls `terminate` and, through `abort_error::what`, the
backtrace of every other registered thread, each under `StackTrace_mutex`. The
mutex is not recursive: where the interrupted call holds it, the handler waits for
its own thread.

* `handler_locks_iff`: at a point of a library call the handler never locks a mutex
  that the call holds, just if the call is outside `StackTrace_mutex` there or the
  handler has no other thread to trace.
-/

namespace StackTrace.Deadlock

inductive Mutex where
  /-- `StackTrace.cpp`, line 87 -/
  | StackTrace_mutex
  /-- `Utilities.cpp`, line 128 -/
  | terminate_mutex
deriving DecidableEq

/-- What a function does, in the order of the source. A signal can come in between any
    two. -/
inductive Action where
  | lock (m : Mutex)
  | unlock (m : Mutex)
  | sigaction
  | resetCount
  | pthread_kill
  | pollCount
  | readCount
  | copyBuffer
  /-- one line of the output of `nm` -/
  | readSymbol
  | storeSymbols
  | copySymbols
  | dropSymbols
  | copySignalName (i : ℕ)
  | setInitialized
  | clearErrorHandler
  | abort
deriving DecidableEq

/-- `backtrace_thread` for another thread (lines 1036–1055), which looks at the count
    `polls` times. -/
def backtraceThread (polls : ℕ) : List Action :=
  [.lock .StackTrace_mutex, .sigaction, .resetCount, .pthread_kill] ++
    List.replicate polls .pollCount ++
    [.readCount, .copyBuffer, .resetCount, .unlock .StackTrace_mutex]

/-- `getSymbols` (lines 651–661), where `nm` prints `lines` lines. -/
def getSymbols (loaded : Bool) (lines : ℕ) : List Action :=
  [.lock .StackTrace_mutex] ++
    (if loaded then [] else List.replicate lines .readSymbol ++ [.storeSymbols]) ++
    [.copySymbols, .unlock .StackTrace_mutex]

/-- `clearSymbols` (lines 662–670). -/
def clearSymbols (loaded : Bool) : List Action :=
  [.lock .StackTrace_mutex] ++ (if loaded then [.dropSymbols] else []) ++
    [.unlock .StackTrace_mutex]

/-- `signalName` (lines 1496–1508). -/
def signalName (initialized : Bool) : List Action :=
  if initialized then []
  else [.lock .StackTrace_mutex] ++ (List.range 128).map .copySignalName ++
    [.unlock .StackTrace_mutex, .setInitialized]

/-- The library calls that hold `StackTrace_mutex` for part of their run. -/
inductive LibraryCall where
  | backtrace (polls : ℕ)
  | getSymbols (loaded : Bool) (lines : ℕ)
  | clearSymbols (loaded : Bool)
  | signalName (initialized : Bool)

def LibraryCall.actions : LibraryCall → List Action
  | .backtrace polls => backtraceThread polls
  | .getSymbols loaded lines => Deadlock.getSymbols loaded lines
  | .clearSymbols loaded => Deadlock.clearSymbols loaded
  | .signalName initialized => Deadlock.signalName initialized

/-! ## The handler -/

/-- `printStackType`. -/
inductive PrintStackType where
  | local
  | threaded
  | global
  | none
deriving DecidableEq

/-- What the handler finds: the thread it runs in, `registeredThreads()`, the default
    stack type, its own backtrace, `force_exit`, and how often it polls each thread. -/
structure Handler (τ : Type*) where
  thisThread : τ
  registeredThreads : List τ
  stackType : PrintStackType
  stack : List UInt64
  force_exit : ℤ
  polls : τ → ℕ

variable {τ : Type*} [DecidableEq τ]

/-- `abort_error::what` (lines 2310–2343): the threads it traces, each with
    `backtrace( tid )`. -/
def Handler.what (h : Handler τ) : List Action :=
  if h.stack ≠ [] ∧ (h.stackType = .threaded ∨ h.stackType = .global) then
    (h.registeredThreads.filter (· ≠ h.thisThread)).flatMap fun tid => backtraceThread (h.polls tid)
  else []

/-- `terminateFunctionSignal` (lines 1584–1593) with `terminate` (`Utilities.cpp`, lines
    129–165). The backtrace of its own thread locks nothing. -/
def Handler.actions (h : Handler τ) : List Action :=
  [.lock .terminate_mutex, .clearErrorHandler] ++ (if h.force_exit > 1 then [] else h.what) ++
    [.unlock .terminate_mutex, .abort]

/-! ## What a thread holds -/

/-- The mutexes held after one more action. -/
def holdStep (held : List Mutex) : Action → List Mutex
  | .lock m => m :: held
  | .unlock m => held.erase m
  | _ => held

/-- The mutexes held behind these actions. -/
def holds (as : List Action) : List Mutex := as.foldl holdStep []

/-- A handler that runs behind the actions `p` locks no mutex held there. -/
def NeverWaits (p : List Action) (h : Handler τ) : Prop :=
  ∀ m, .lock m ∈ h.actions → m ∉ holds p

/-- The handler traces another thread. -/
def Handler.TracesOther (h : Handler τ) : Prop :=
  h.force_exit ≤ 1 ∧ h.stack ≠ [] ∧ (h.stackType = .threaded ∨ h.stackType = .global) ∧
    ∃ tid ∈ h.registeredThreads, tid ≠ h.thisThread

/-- The actions `p` have taken `StackTrace_mutex` and not released it. -/
def InSection (p : List Action) : Prop :=
  .lock .StackTrace_mutex ∈ p ∧ .unlock .StackTrace_mutex ∉ p

/-! ## What the handler locks -/

theorem lock_mem_backtraceThread {m : Mutex} {polls : ℕ} :
    .lock m ∈ backtraceThread polls ↔ m = .StackTrace_mutex := by
  simp [backtraceThread, List.mem_replicate]

theorem lock_mem_what {h : Handler τ} {m : Mutex} :
    .lock m ∈ h.what ↔ m = .StackTrace_mutex ∧ h.stack ≠ [] ∧
      (h.stackType = .threaded ∨ h.stackType = .global) ∧
      ∃ tid ∈ h.registeredThreads, tid ≠ h.thisThread := by
  unfold Handler.what
  split_ifs with hcond
  · simp only [List.mem_flatMap, lock_mem_backtraceThread, List.mem_filter, decide_eq_true_eq]
    constructor
    · rintro ⟨tid, ⟨htid, hne⟩, hm⟩
      exact ⟨hm, hcond.1, hcond.2, tid, htid, hne⟩
    · rintro ⟨hm, -, -, tid, htid, hne⟩
      exact ⟨tid, ⟨htid, hne⟩, hm⟩
  · constructor
    · exact fun h => absurd h (by simp)
    · rintro ⟨-, hstack, htype, -⟩
      exact absurd ⟨hstack, htype⟩ hcond

theorem lock_mem_actions {h : Handler τ} {m : Mutex} :
    .lock m ∈ h.actions ↔ m = .terminate_mutex ∨ m = .StackTrace_mutex ∧ h.TracesOther := by
  unfold Handler.actions Handler.TracesOther
  split_ifs with hexit
  · have hle : ¬ h.force_exit ≤ 1 := by omega
    simp [hle]
  · have hle : h.force_exit ≤ 1 := by omega
    simp [hle, lock_mem_what]

/-! ## What the interrupted call holds -/

/-- Neither locks nor unlocks. -/
def Plain (a : Action) : Prop := ∀ m, a ≠ .lock m ∧ a ≠ .unlock m

theorem foldl_plain {as : List Action} (h : ∀ a ∈ as, Plain a) (held : List Mutex) :
    as.foldl holdStep held = held := by
  induction as with
  | nil => rfl
  | cons a as ih =>
    have hstep : holdStep held a = held := by
      have ha := h a (by simp)
      cases a with
      | lock m => exact absurd rfl (ha m).1
      | unlock m => exact absurd rfl (ha m).2
      | _ => rfl
    rw [List.foldl_cons, hstep, ih fun b hb => h b (by simp [hb])]

/-- A call that does anything takes the mutex first and releases it once. -/
theorem actions_eq (c : LibraryCall) : c.actions = [] ∨ ∃ body tail,
    c.actions = .lock .StackTrace_mutex :: (body ++ .unlock .StackTrace_mutex :: tail) ∧
      (∀ a ∈ body, Plain a) ∧ ∀ a ∈ tail, Plain a := by
  cases c with
  | backtrace polls =>
    refine .inr ⟨[.sigaction, .resetCount, .pthread_kill] ++ List.replicate polls .pollCount ++
      [.readCount, .copyBuffer, .resetCount], [], ?_, ?_, by simp⟩
    · simp [LibraryCall.actions, backtraceThread]
    · intro a ha
      simp only [List.mem_append, List.mem_cons, List.not_mem_nil, or_false,
        List.mem_replicate] at ha
      rcases ha with ((rfl | rfl | rfl) | ⟨-, rfl⟩) | rfl | rfl | rfl <;> simp [Plain]
  | getSymbols loaded lines =>
    refine .inr ⟨(if loaded then [] else List.replicate lines .readSymbol ++ [.storeSymbols]) ++
      [.copySymbols], [], ?_, ?_, by simp⟩
    · simp [LibraryCall.actions, Deadlock.getSymbols]
    · intro a ha
      cases loaded <;> simp at ha
      · rcases ha with ⟨-, rfl⟩ | rfl | rfl <;> simp [Plain]
      · rw [ha]
        simp [Plain]
  | clearSymbols loaded =>
    refine .inr ⟨if loaded then [.dropSymbols] else [], [], ?_, ?_, by simp⟩
    · simp [LibraryCall.actions, Deadlock.clearSymbols]
    · intro a ha
      cases loaded <;> simp at ha
      rw [ha]
      simp [Plain]
  | signalName initialized =>
    cases initialized with
    | true => exact .inl rfl
    | false =>
      refine .inr ⟨(List.range 128).map .copySignalName, [.setInitialized], ?_, ?_, ?_⟩
      · simp [LibraryCall.actions, Deadlock.signalName]
      · intro a ha
        obtain ⟨i, -, rfl⟩ := List.mem_map.mp ha
        simp [Plain]
      · simp [Plain]

/-- At every point of a call the mutex is held just between its lock and its unlock. -/
theorem mem_holds_iff {c : LibraryCall} {p : List Action} (hp : p <+: c.actions) (m : Mutex) :
    m ∈ holds p ↔ m = .StackTrace_mutex ∧ InSection p := by
  have plain : ∀ {as : List Action} {m : Mutex}, (∀ a ∈ as, Plain a) →
      Action.lock m ∉ as ∧ Action.unlock m ∉ as :=
    fun h => ⟨fun hm => (h _ hm _).1 rfl, fun hm => (h _ hm _).2 rfl⟩
  rcases actions_eq c with hnil | ⟨body, tail, hactions, hbody, htail⟩
  · rw [hnil, List.prefix_nil] at hp
    subst hp
    simp [holds, InSection]
  · rw [hactions, List.prefix_cons_iff] at hp
    rcases hp with rfl | ⟨q, rfl, hq⟩
    · simp [holds, InSection]
    · rcases List.prefix_or_prefix_of_prefix hq (List.prefix_append body _) with hq | ⟨r, rfl⟩
      · -- inside the section
        have hplain : ∀ a ∈ q, Plain a := fun a ha => hbody a (hq.subset ha)
        have hholds : holds (.lock .StackTrace_mutex :: q) = [.StackTrace_mutex] :=
          foldl_plain hplain _
        simp [hholds, InSection, (plain hplain).2]
      · rw [List.prefix_append_right_inj, List.prefix_cons_iff] at hq
        rcases hq with rfl | ⟨r, rfl, hr⟩
        · have hholds : holds (.lock .StackTrace_mutex :: body) = [.StackTrace_mutex] :=
            foldl_plain hbody _
          rw [List.append_nil]
          simp [hholds, InSection, (plain hbody).2]
        · -- behind the section
          have hplain : ∀ a ∈ r, Plain a := fun a ha => htail a (hr.subset ha)
          have hholds :
              holds (.lock .StackTrace_mutex :: (body ++ .unlock .StackTrace_mutex :: r)) = [] := by
            show List.foldl holdStep [.StackTrace_mutex]
              (body ++ .unlock .StackTrace_mutex :: r) = []
            rw [List.foldl_append, foldl_plain hbody]
            exact foldl_plain hplain _
          simp [hholds, InSection]

/-- The handler that interrupts a library call waits for no mutex of its own thread just
    if the call is outside `StackTrace_mutex` or the handler traces no other thread. -/
theorem handler_locks_iff (c : LibraryCall) (p : List Action) (hp : p <+: c.actions)
    (h : Handler τ) : NeverWaits p h ↔ ¬ InSection p ∨ ¬ h.TracesOther := by
  unfold NeverWaits
  simp only [lock_mem_actions, mem_holds_iff hp, not_and]
  constructor
  · intro hwait
    by_cases htraces : h.TracesOther
    · exact .inl (hwait _ (.inr ⟨rfl, htraces⟩) rfl)
    · exact .inr htraces
  · rintro hor m hlock rfl
    rcases hor with hout | hnone
    · exact hout
    · rcases hlock with hm | ⟨-, htraces⟩
      · exact absurd hm (by simp)
      · exact absurd htraces hnone

/-- A signal comes while `signalName` copies the first name, and only the interrupted
    thread is registered. -/
theorem handler_locks_iff_alone :
    NeverWaits [.lock .StackTrace_mutex, .copySignalName 0]
      { thisThread := 1, registeredThreads := [1], stackType := .global, stack := [64],
        force_exit := 0, polls := fun _ => 1 } := by
  refine (handler_locks_iff (.signalName false) _ ?_ _).mpr (.inr ?_)
  · exact ⟨_, rfl⟩
  · rintro ⟨-, -, -, tid, htid, hne⟩
    exact hne (List.mem_singleton.mp htid)

/-- A signal comes while `getSymbols` reads the output of `nm`; thread 2 is registered. -/
theorem handler_deadlocks :
    ¬ ∀ (c : LibraryCall) (p : List Action), p <+: c.actions → ∀ h : Handler ℕ,
      (h.stackType = .threaded ∨ h.stackType = .global) →
      ∀ m, .lock m ∈ h.actions → m ∉ holds p := by
  intro hnever
  have hwait := hnever (.getSymbols false 1) [.lock .StackTrace_mutex, .readSymbol] ⟨_, rfl⟩
    { thisThread := 1, registeredThreads := [1, 2], stackType := .global, stack := [64],
      force_exit := 0, polls := fun _ => 1 } (.inr rfl) .StackTrace_mutex
  revert hwait
  decide

end StackTrace.Deadlock
