import StackTrace.Base.Machine

/-!
# Threads that terminate the program

`Utilities.cpp`, lines 111–167, and `StackTrace.cpp`, lines 1584–1601, 1642–1648 and
2284–2354. With the handlers of `setErrorHandlers` a caught signal and an exception that
nobody catches both end in `terminate`, in the thread where they happen. `terminate` takes
`terminate_mutex`, clears the error handler, prints the message and aborts.
`clearErrorHandler` first replaces `abort_fun` by a function that does nothing: a handler
that runs from then on returns, and a thread whose exception nobody catches goes on to
`std::abort` at once. A signal that is not caught, or no longer, ends the program, and so
does a fault in the handler of its own signal.

The message is what `err.what()` gives. It takes `StackTrace_mutex` once for each thread
that it traces, and waits where a library call of another thread has it; `err.what()` may
also fail, in a signal, in an exception, which ends in `std::terminate` since it is
`noexcept`, or by not returning.

* `one_message`: the program prints at most one message where `abort_throwException` is
  not set. It does not end without one, if no thread goes past `abort_fun` and no signal
  comes that is not caught before it is printed.
-/

namespace StackTrace.Terminate

/-! ## Model -/

/-- What a thread is at. Where a signal interrupts it, a new frame is put before the others. -/
inductive Frame where
  /-- a library call, about to unlock `StackTrace_mutex` -/
  | library
  /-- `terminateFunctionSignal`, about to call `abort_fun` -/
  | terminateFunctionSignal
  /-- `term_func`, about to clear the signals -/
  | term_func
  /-- `term_func`, about to call `abort_fun` -/
  | calling
  /-- `terminate`, about to lock `terminate_mutex` -/
  | waiting
  /-- `terminate`, about to replace `abort_fun` -/
  | locked
  /-- `terminate`, about to clear the signals -/
  | disarmed
  /-- `terminate`, about to look at `force_exit` -/
  | cleared
  /-- `terminate`, about to set `force_exit` where `abort_throwException` is not set -/
  | marking
  /-- in `err.what()`, with `n` threads still to be traced, or about to print the message -/
  | what (n : ℕ)
  /-- in `err.what()`, about to unlock `StackTrace_mutex`, with `n` more to be traced -/
  | tracing (n : ℕ)
  /-- in `err.what()`, which does not return -/
  | lost
  /-- `callAbort`, about to unlock `terminate_mutex` -/
  | callAbort
  /-- about to call `std::abort` -/
  | aborting
deriving DecidableEq

/-- The frame holds `terminate_mutex`. -/
def Frame.holds : Frame → Bool
  | .locked | .disarmed | .cleared | .marking | .what _ | .tracing _ | .lost | .callAbort => true
  | _ => false

/-- The frame is in `err.what()`, which goes on. -/
def Frame.inWhat : Frame → Bool
  | .what _ | .tracing _ => true
  | _ => false

/-- The process. `armed` says that `abort_fun` is `terminate` and the terminate handler is
    `term_func`; otherwise they are the functions of `clearErrorHandler`, which do nothing.
    `handling` has the signals whose handlers a thread runs: they are blocked there.
    `traced` says how many other threads the message of a thread traces: none where its
    stack type is `local` or `none`. `killed` says that a signal has ended the program. -/
structure State (τ : Type*) where
  frames : τ → List Frame
  handling : τ → List ℤ
  armed : Bool
  caught : ℤ → Bool
  terminate_mutex : Option τ
  StackTrace_mutex : Option τ
  force_exit : ℤ
  abort_throwException : Bool
  traced : τ → ℕ
  printed : List τ
  aborted : Bool
  killed : Bool

/-- Behind `setErrorHandlers`, with these signals caught. -/
def State.init (τ : Type*) (caught : ℤ → Bool) (abort_throwException : Bool) (traced : τ → ℕ) :
    State τ :=
  { frames := fun _ => [], handling := fun _ => [], armed := true, caught,
    terminate_mutex := none, StackTrace_mutex := none, force_exit := 0, abort_throwException,
    traced, printed := [], aborted := false, killed := false }

inductive Event (τ : Type*) where
  /-- the thread `t` is interrupted by `sig`, which ends the program if it is not caught. If
      `sig` is blocked, only a fault of `t` comes through, and it ends the program too. -/
  | signal (t : τ) (sig : ℤ)
  /-- nobody catches an exception of the thread `t` -/
  | escape (t : τ)
  /-- the thread `t` locks `StackTrace_mutex` in a call of the library -/
  | library (t : τ)
  /-- `err.what()` of the thread `t` does not return -/
  | lost (t : τ)
  /-- the thread `t` does what its newest frame is about to do -/
  | advance (t : τ)

variable {τ : Type*} [DecidableEq τ]

/-- `s` with new frames of `t`. -/
def State.setFrames (s : State τ) (t : τ) (fs : List Frame) : State τ :=
  { s with frames := Function.update s.frames t fs }

/-- The signal `sig` gets to `terminateFunctionSignal` in the thread `t`. -/
def State.catches (s : State τ) (t : τ) (sig : ℤ) : Prop :=
  s.caught sig = true ∧ sig ∉ s.handling t

instance (s : State τ) (t : τ) (sig : ℤ) : Decidable (s.catches t sig) :=
  inferInstanceAs (Decidable (_ ∧ _))

@[simp] theorem State.setFrames_self (s : State τ) (t : τ) (fs : List Frame) :
    (s.setFrames t fs).frames t = fs := Function.update_self ..

theorem State.setFrames_of_ne {t u : τ} (h : u ≠ t) (s : State τ) (fs : List Frame) :
    (s.setFrames t fs).frames u = s.frames u := Function.update_of_ne h ..

/-- What the newest frame of `t` does. `clearSignals` is one step: a signal that comes
    in between is like one before it or behind it. -/
def advance (s : State τ) (t : τ) : Option (State τ) :=
  match s.frames t with
  | [] => none
  | .library :: fs => some ({ s with StackTrace_mutex := none }.setFrames t fs)
  | .terminateFunctionSignal :: fs =>
    some (if s.armed then s.setFrames t (.waiting :: fs)
      else { s with handling := Function.update s.handling t (s.handling t).tail }.setFrames t fs)
  | .term_func :: fs => some ({ s with caught := fun _ => false }.setFrames t (.calling :: fs))
  | .calling :: fs => some (s.setFrames t (if s.armed then .waiting :: fs else .aborting :: fs))
  | .waiting :: fs =>
    if s.terminate_mutex = none then
      some ({ s with terminate_mutex := some t }.setFrames t (.locked :: fs))
    else none
  | .locked :: fs => some ({ s with armed := false }.setFrames t (.disarmed :: fs))
  | .disarmed :: fs => some ({ s with caught := fun _ => false }.setFrames t (.cleared :: fs))
  | .cleared :: fs =>
    some (s.setFrames t (if s.force_exit > 1 then .callAbort :: fs else .marking :: fs))
  | .marking :: fs =>
    some ({ s with force_exit := if s.abort_throwException then s.force_exit else 2 }.setFrames t
      (.what (s.traced t) :: fs))
  | .what 0 :: fs =>
    some ({ s with printed := s.printed ++ [t] }.setFrames t (.callAbort :: fs))
  | .what (n + 1) :: fs =>
    if s.StackTrace_mutex = none then
      some ({ s with StackTrace_mutex := some t }.setFrames t (.tracing n :: fs))
    else none
  | .tracing n :: fs => some ({ s with StackTrace_mutex := none }.setFrames t (.what n :: fs))
  | .lost :: _ => none
  | .callAbort :: fs => some ({ s with terminate_mutex := none }.setFrames t (.aborting :: fs))
  | .aborting :: _ => some { s with aborted := true }

/-- What an event does. -/
def move (s : State τ) : Event τ → Option (State τ)
  | .signal t sig =>
    some (if s.catches t sig then
        { s with handling := Function.update s.handling t (sig :: s.handling t) }.setFrames t
          (.terminateFunctionSignal :: s.frames t)
      else { s with killed := true })
  | .escape t =>
    if ∀ f ∈ (s.frames t).head?, f.inWhat ∨ f = .library then
      some (s.setFrames t ((if s.armed then .term_func else .aborting) :: s.frames t))
    else none
  | .library t =>
    if s.frames t = [] ∧ s.StackTrace_mutex = none then
      some ({ s with StackTrace_mutex := some t }.setFrames t [.library])
    else none
  | .lost t =>
    match s.frames t with
    | f :: fs => if f.inWhat then some (s.setFrames t (.lost :: fs)) else none
    | [] => none
  | .advance t => advance s t

/-- The program has ended. -/
def State.ended (s : State τ) : Bool := s.aborted || s.killed

/-- One step of one thread. Behind the end there is none. -/
def step (s : State τ) (e : Event τ) : Option (State τ) := if s.ended then none else move s e

theorem step_eq_some {s s' : State τ} {e : Event τ} :
    step s e = some s' ↔ s.ended = false ∧ move s e = some s' := by
  unfold step
  split_ifs with h <;> simp [h]

/-! ## What a step can be -/

/-- A change of the newest frames that has nothing to do with `terminate_mutex`, and who has
    `StackTrace_mutex` behind it. -/
inductive Outside (s : State τ) (t : τ) : Event τ → Option τ → List Frame → List Frame → Prop
  | signal {sig : ℤ} (h : s.catches t sig) :
      Outside s t (.signal t sig) s.StackTrace_mutex [] [.terminateFunctionSignal]
  | terminate (h : s.armed = true) :
      Outside s t (.advance t) s.StackTrace_mutex [.terminateFunctionSignal] [.waiting]
  | ignore (h : s.armed = false) :
      Outside s t (.advance t) s.StackTrace_mutex [.terminateFunctionSignal] []
  | escape (hopen : ∀ f ∈ (s.frames t).head?, f.inWhat ∨ f = .library) (h : s.armed = true) :
      Outside s t (.escape t) s.StackTrace_mutex [] [.term_func]
  | clearSignals : Outside s t (.advance t) s.StackTrace_mutex [.term_func] [.calling]
  | call (h : s.armed = true) :
      Outside s t (.advance t) s.StackTrace_mutex [.calling] [.waiting]
  /-- an exception, and nothing that would terminate the program -/
  | escapeDisarmed (hopen : ∀ f ∈ (s.frames t).head?, f.inWhat ∨ f = .library)
      (h : s.armed = false) :
      Outside s t (.escape t) s.StackTrace_mutex [] [.aborting]
  | callDisarmed (h : s.armed = false) :
      Outside s t (.advance t) s.StackTrace_mutex [.calling] [.aborting]
  | library (hidle : s.frames t = []) (hfree : s.StackTrace_mutex = none) :
      Outside s t (.library t) (some t) [] [.library]
  | release : Outside s t (.advance t) none [.library] []

/-- What the thread with `terminate_mutex` does. -/
inductive Inside (s : State τ) (t : τ) : Event τ → Frame → Frame → State τ → Prop
  | disarm : Inside s t (.advance t) .locked .disarmed { s with armed := false }
  | clearSignals : Inside s t (.advance t) .disarmed .cleared { s with caught := fun _ => false }
  | leave (h : s.force_exit > 1) : Inside s t (.advance t) .cleared .callAbort s
  | enter (h : ¬ s.force_exit > 1) : Inside s t (.advance t) .cleared .marking s
  | mark : Inside s t (.advance t) .marking (.what (s.traced t))
      { s with force_exit := if s.abort_throwException then s.force_exit else 2 }
  | trace {n : ℕ} (hfree : s.StackTrace_mutex = none) :
      Inside s t (.advance t) (.what (n + 1)) (.tracing n) { s with StackTrace_mutex := some t }
  | traced {n : ℕ} :
      Inside s t (.advance t) (.tracing n) (.what n) { s with StackTrace_mutex := none }
  | print : Inside s t (.advance t) (.what 0) .callAbort { s with printed := s.printed ++ [t] }
  | lost {f : Frame} (h : f.inWhat = true) : Inside s t (.lost t) f .lost s

/-- Every step, with what it needs and what it leaves. -/
inductive Effect (s : State τ) : Event τ → State τ → Prop
  | outside {t : τ} {fs : List Frame} {e : Event τ} (caught : ℤ → Bool)
      (handling : τ → List ℤ) (mutex : Option τ) (top top' : List Frame)
      (h : s.frames t = top ++ fs) (hcaught : ∀ sig, caught sig → s.caught sig)
      (hout : Outside s t e mutex top top') :
      Effect s e
        ({ s with caught, handling, StackTrace_mutex := mutex }.setFrames t (top' ++ fs))
  | lock {t : τ} {fs : List Frame} (h : s.frames t = .waiting :: fs)
      (hfree : s.terminate_mutex = none) :
      Effect s (.advance t) ({ s with terminate_mutex := some t }.setFrames t (.locked :: fs))
  | inside {t : τ} {f g : Frame} {fs : List Frame} {e : Event τ} {s' : State τ}
      (h : s.frames t = f :: fs) (hin : Inside s t e f g s') :
      Effect s e (s'.setFrames t (g :: fs))
  | unlock {t : τ} {fs : List Frame} (h : s.frames t = .callAbort :: fs) :
      Effect s (.advance t) ({ s with terminate_mutex := none }.setFrames t (.aborting :: fs))
  | abort {t : τ} {fs : List Frame} (h : s.frames t = .aborting :: fs) :
      Effect s (.advance t) { s with aborted := true }
  | kill {t : τ} {sig : ℤ} (h : ¬ s.catches t sig) :
      Effect s (.signal t sig) { s with killed := true }

variable {s s' : State τ} {e : Event τ} {mutex : Option τ} {t : τ} {f g : Frame} {fs : List Frame}

theorem effect_of_advance (h : advance s t = some s') : Effect s (.advance t) s' := by
  unfold advance at h
  split at h
  · exact absurd h (by simp)
  · rename_i fs hframes
    obtain rfl := Option.some.inj h
    exact .outside s.caught s.handling none [_] [] hframes (fun _ => id) .release
  · rename_i fs hframes
    obtain rfl := Option.some.inj h
    split_ifs with harmed
    · exact .outside s.caught s.handling s.StackTrace_mutex [_] [_] hframes (fun _ => id)
        (.terminate harmed)
    · exact .outside s.caught _ s.StackTrace_mutex [_] [] hframes (fun _ => id)
        (.ignore (Bool.eq_false_of_not_eq_true harmed))
  · rename_i fs hframes
    obtain rfl := Option.some.inj h
    exact .outside (fun _ => false) s.handling s.StackTrace_mutex [_] [_] hframes (by simp)
      .clearSignals
  · rename_i fs hframes
    obtain rfl := Option.some.inj h
    split_ifs with harmed
    · exact .outside s.caught s.handling s.StackTrace_mutex [_] [_] hframes (fun _ => id)
        (.call harmed)
    · exact .outside s.caught s.handling s.StackTrace_mutex [_] [_] hframes (fun _ => id)
        (.callDisarmed (Bool.eq_false_of_not_eq_true harmed))
  · rename_i fs hframes
    split_ifs at h with hfree
    obtain rfl := Option.some.inj h
    exact .lock hframes hfree
  · rename_i fs hframes
    obtain rfl := Option.some.inj h
    exact .inside hframes .disarm
  · rename_i fs hframes
    obtain rfl := Option.some.inj h
    exact .inside hframes .clearSignals
  · rename_i fs hframes
    obtain rfl := Option.some.inj h
    split_ifs with hforce
    · exact .inside hframes (.leave hforce)
    · exact .inside hframes (.enter hforce)
  · rename_i fs hframes
    obtain rfl := Option.some.inj h
    exact .inside hframes .mark
  · rename_i fs hframes
    obtain rfl := Option.some.inj h
    exact .inside hframes .print
  · rename_i n fs hframes
    split_ifs at h with hfree
    obtain rfl := Option.some.inj h
    exact .inside hframes (.trace hfree)
  · rename_i n fs hframes
    obtain rfl := Option.some.inj h
    exact .inside hframes .traced
  · exact absurd h (by simp)
  · rename_i fs hframes
    obtain rfl := Option.some.inj h
    exact .unlock hframes
  · rename_i fs hframes
    obtain rfl := Option.some.inj h
    exact .abort hframes

theorem effect_of_step (h : step s e = some s') : Effect s e s' := by
  obtain ⟨-, h⟩ := step_eq_some.mp h
  unfold move at h
  cases e with
  | signal t sig =>
    obtain rfl := Option.some.inj h
    split_ifs with hsig
    · exact .outside s.caught _ s.StackTrace_mutex [] [_] rfl (fun _ => id) (.signal hsig)
    · exact .kill hsig
  | escape t =>
    simp only at h
    split_ifs at h with hopen harmed
    · obtain rfl := Option.some.inj h
      exact .outside s.caught s.handling s.StackTrace_mutex [] [_] rfl (fun _ => id)
        (.escape hopen harmed)
    · obtain rfl := Option.some.inj h
      exact .outside s.caught s.handling s.StackTrace_mutex [] [_] rfl (fun _ => id)
        (.escapeDisarmed hopen (Bool.eq_false_of_not_eq_true harmed))
  | library t =>
    simp only at h
    split_ifs at h with hfree
    obtain rfl := Option.some.inj h
    exact .outside s.caught s.handling (some t) [] [_] hfree.1 (fun _ => id)
      (.library hfree.1 hfree.2)
  | lost t =>
    simp only at h
    split at h
    · rename_i f fs hframes
      split_ifs at h with hin
      obtain rfl := Option.some.inj h
      exact .inside hframes (.lost hin)
    · exact absurd h (by simp)
  | advance t => exact effect_of_advance h

/-! ## One thread at a time -/

/-- The thread that `terminate_mutex` belongs to has one frame that holds it, and the
    others have none. -/
def Counted (s : State τ) : Prop :=
  ∀ t, (s.frames t).countP Frame.holds = if s.terminate_mutex = some t then 1 else 0

/-- Some thread holds the mutex in the frame `f`. -/
def Held (s : State τ) (f : Frame) : Prop := f.holds = true ∧ ∃ t, f ∈ s.frames t

omit [DecidableEq τ] in
theorem Outside.holds {top top' : List Frame} (h : Outside s t e mutex top top') :
    (∀ f ∈ top, f.holds = false) ∧ ∀ f ∈ top', f.holds = false := by
  cases h <;> simp [Frame.holds]

omit [DecidableEq τ] in
theorem Inside.holds (h : Inside s t e f g s') : f.holds = true ∧ g.holds = true := by
  cases h with
  | @lost f hin => cases f <;> first | exact ⟨rfl, rfl⟩ | exact absurd hin Bool.false_ne_true
  | _ => exact ⟨rfl, rfl⟩

omit [DecidableEq τ] in
theorem Inside.frames (h : Inside s t e f g s') :
    s'.frames = s.frames ∧ s'.terminate_mutex = s.terminate_mutex := by
  cases h <;> exact ⟨rfl, rfl⟩

theorem countP_append_of_not_holds {top : List Frame} (h : ∀ f ∈ top, f.holds = false)
    (fs : List Frame) : (top ++ fs).countP Frame.holds = fs.countP Frame.holds := by
  rw [List.countP_append, List.countP_eq_zero.mpr fun f hf => by simp [h f hf], Nat.zero_add]

theorem Counted.setFrames (hs : Counted s) {fs' : List Frame}
    (hother : ∀ u, u ≠ t → (s'.terminate_mutex = some u ↔ s.terminate_mutex = some u))
    (hframes : s'.frames = s.frames)
    (hcount : fs'.countP Frame.holds = if s'.terminate_mutex = some t then 1 else 0) :
    Counted (s'.setFrames t fs') := by
  intro u
  by_cases hu : u = t
  · subst hu
    rw [State.setFrames_self]
    exact hcount
  · rw [State.setFrames_of_ne hu, hframes, hs u]
    exact if_congr (hother u hu).symm rfl rfl

omit [DecidableEq τ] in
theorem mem_frames (h : s.frames t = f :: fs) : f ∈ s.frames t := by
  rw [h]
  exact List.mem_cons_self

/-- A thread with a frame that holds the mutex. -/
theorem Counted.mutex_eq (hs : Counted s) (hf : f.holds = true) (hmem : f ∈ s.frames t) :
    s.terminate_mutex = some t := by
  by_contra hne
  have hcount := hs t
  rw [if_neg hne, List.countP_eq_zero] at hcount
  exact hcount f hmem hf

theorem Counted.mutex_ne_none (hs : Counted s) (h : Held s f) : s.terminate_mutex ≠ none := by
  obtain ⟨hf, t, hmem⟩ := h
  rw [hs.mutex_eq hf hmem]
  exact Option.some_ne_none t

/-- With the mutex in its newest frame a thread has it in no other. -/
theorem Counted.rest (hs : Counted s) (h : s.frames t = f :: fs) (hf : f.holds = true) :
    fs.countP Frame.holds = 0 := by
  have hcount := hs t
  rw [hs.mutex_eq hf (mem_frames h), if_pos rfl, h, List.countP_cons_of_pos hf] at hcount
  omega

/-- Only one frame holds the mutex. -/
theorem Counted.held_unique (hs : Counted s) (hf : Held s f) (hg : Held s g) : f = g := by
  obtain ⟨hf, t, hft⟩ := hf
  obtain ⟨hg, u, hgu⟩ := hg
  have howner := hs.mutex_eq hf hft
  obtain rfl : t = u := Option.some.inj (howner.symm.trans (hs.mutex_eq hg hgu))
  have hcount := hs t
  rw [if_pos howner, List.countP_eq_length_filter, List.length_eq_one_iff] at hcount
  obtain ⟨k, hk⟩ := hcount
  have heq {j : Frame} (hj : j.holds = true) (hmem : j ∈ s.frames t) : j = k := by
    have hmem := List.mem_filter.mpr ⟨hmem, hj⟩
    rwa [hk, List.mem_singleton] at hmem
  exact (heq hf hft).trans (heq hg hgu).symm

theorem Counted.held_iff (hs : Counted s) (h : s.frames t = f :: fs) (hf : f.holds = true) :
    Held s g ↔ g = f := by
  have hheld : Held s f := ⟨hf, t, mem_frames h⟩
  constructor
  · exact fun hg => hs.held_unique hg hheld
  · rintro rfl
    exact hheld

theorem counted_effect (hs : Counted s) (h : Effect s e s') : Counted s' := by
  cases h with
  | @outside t fs e caught handling mutex top top' h _ hout =>
    have hcount := hs t
    rw [h, countP_append_of_not_holds hout.holds.1] at hcount
    refine hs.setFrames (fun _ _ => Iff.rfl) rfl ?_
    rw [countP_append_of_not_holds hout.holds.2]
    exact hcount
  | @lock t fs h hfree =>
    have hcount := hs t
    rw [h, hfree, List.countP_cons_of_neg (by simp [Frame.holds]), if_neg (by simp)] at hcount
    refine hs.setFrames (fun u hu => ?_) rfl ?_
    · simp [hfree, Ne.symm hu]
    · rw [if_pos rfl, List.countP_cons_of_pos rfl, hcount]
  | @inside t f g fs e s' h hin =>
    obtain ⟨hframes, hmutex⟩ := hin.frames
    refine hs.setFrames (fun u _ => by rw [hmutex]) hframes ?_
    rw [hmutex, hs.mutex_eq hin.holds.1 (mem_frames h), if_pos rfl,
      List.countP_cons_of_pos hin.holds.2, hs.rest h hin.holds.1]
  | @unlock t fs h =>
    have howner := hs.mutex_eq (f := .callAbort) rfl (mem_frames h)
    refine hs.setFrames (fun u hu => ?_) rfl ?_
    · simp [howner, Ne.symm hu]
    · rw [if_neg (by simp), List.countP_cons_of_neg (by simp [Frame.holds]), hs.rest h rfl]
  | abort | kill => exact hs

/-- The frame that holds the mutex behind a step. -/
theorem held_outside {top top' : List Frame} {caught : ℤ → Bool} {handling : τ → List ℤ}
    (h : s.frames t = top ++ fs) (hout : Outside s t e mutex top top') :
    Held ({ s with caught, handling, StackTrace_mutex := mutex }.setFrames t (top' ++ fs)) g ↔
      Held s g := by
  refine and_congr_right fun hg => exists_congr fun u => ?_
  by_cases hu : u = t
  · subst hu
    have htop : g ∉ top := fun hmem => by simp [hout.holds.1 g hmem] at hg
    have htop' : g ∉ top' := fun hmem => by simp [hout.holds.2 g hmem] at hg
    rw [State.setFrames_self, h, List.mem_append, List.mem_append]
    simp [htop, htop']
  · rw [State.setFrames_of_ne hu]

/-! ## One message -/

/-- The frame is at the message, with `force_exit` set and nothing printed yet. -/
def Frame.writes : Frame → Bool
  | .what _ | .tracing _ | .lost => true
  | _ => false

/-- Some thread is at its message. -/
def Writing (s : State τ) : Prop := ∃ f, f.writes = true ∧ Held s f

/-- Where the message is, as long as only one thread looks at `force_exit` at a time. -/
structure Message (s : State τ) : Prop where
  counted : Counted s
  /-- nobody leaves before the message is printed -/
  left : Held s .callAbort → s.printed ≠ []
  forced : s.force_exit > 1 → Writing s ∨ s.printed ≠ []
  unarmed : s.armed = true → s.printed = [] ∧ ∀ f, Held s f → f = .locked
  once : s.abort_throwException = false → s.printed.length ≤ 1 ∧
    (s.printed ≠ [] → s.force_exit > 1) ∧ (Held s .marking → s.printed = []) ∧
    (Writing s → s.printed = [] ∧ s.force_exit > 1)

theorem message_init (caught : ℤ → Bool) (throwException : Bool) (traced : τ → ℕ) :
    Message (.init τ caught throwException traced) where
  counted _ := rfl
  left h := by simp [State.init, Held] at h
  forced h := by simp [State.init] at h
  unarmed _ := ⟨rfl, by simp [State.init, Held]⟩
  once _ := by simp [State.init, Held, Writing]

omit [DecidableEq τ] in
theorem writing_iff (hheld : ∀ k, Held s k ↔ k = f) : Writing s ↔ f.writes = true := by
  simp only [Writing, hheld, exists_eq_right]

omit [DecidableEq τ] in
theorem Inside.mode (h : Inside s t e f g s') :
    s'.abort_throwException = s.abort_throwException := by
  cases h <;> rfl

/-- A step between two places of `err.what()`. -/
theorem Message.write (hs : Message s) (hcounted : Counted (s'.setFrames t (g :: fs)))
    (h : s.frames t = f :: fs) (hf : f.holds = true) (hfw : f.writes = true)
    (hg : g.holds = true) (hgw : g.writes = true) (hprinted : s'.printed = s.printed)
    (hforce : s'.force_exit = s.force_exit) (harmed : s'.armed = s.armed)
    (hmode : s'.abort_throwException = s.abort_throwException) :
    Message (s'.setFrames t (g :: fs)) := by
  have hheld : ∀ k, Held s k ↔ k = f := fun k => hs.counted.held_iff h hf
  have hheld' : ∀ k, Held (s'.setFrames t (g :: fs)) k ↔ k = g := fun k =>
    hcounted.held_iff (State.setFrames_self ..) hg
  have hlocked : f ≠ .locked := by
    rintro rfl
    exact absurd hfw (by simp [Frame.writes])
  have hleft : ¬ Held (s'.setFrames t (g :: fs)) .callAbort := by
    rw [hheld']
    rintro rfl
    exact absurd hgw (by simp [Frame.writes])
  have hmarking : ¬ Held (s'.setFrames t (g :: fs)) .marking := by
    rw [hheld']
    rintro rfl
    exact absurd hgw (by simp [Frame.writes])
  refine ⟨hcounted, fun hheld => absurd hheld hleft, fun _ => .inl ((writing_iff hheld').mpr hgw),
    fun h => ?_, fun h => ?_⟩
  · exact absurd ((hs.unarmed (harmed.symm.trans h)).2 f ((hheld f).mpr rfl)) hlocked
  · obtain ⟨hlength, hset, -, hnone⟩ := hs.once (hmode.symm.trans h)
    refine ⟨?_, fun hne => ?_, fun hheld => absurd hheld hmarking, fun _ => ?_⟩
    · show s'.printed.length ≤ 1
      rw [hprinted]
      exact hlength
    · show s'.force_exit > 1
      rw [hforce]
      exact hset fun hnil => hne (hprinted.trans hnil)
    · obtain ⟨hnil, hexit⟩ := hnone ((writing_iff hheld).mpr hfw)
      exact ⟨hprinted.trans hnil, hforce.symm ▸ hexit⟩

/-- A step to a place where nobody is at the message, which it does not print. -/
theorem Message.quiet (hs : Message s) (hcounted : Counted (s'.setFrames t (g :: fs)))
    (h : s.frames t = f :: fs) (hf : f.holds = true) (hfw : f.writes = false)
    (hg : g.holds = true) (hgw : g.writes = false) (hprinted : s'.printed = s.printed)
    (hforce : s'.force_exit = s.force_exit) (harmed : s'.armed = false)
    (hmode : s'.abort_throwException = s.abort_throwException)
    (hleft : g = .callAbort → s.printed ≠ [])
    (hmarking : g = .marking → s.abort_throwException = false → s.printed = []) :
    Message (s'.setFrames t (g :: fs)) := by
  have hheld' : ∀ k, Held (s'.setFrames t (g :: fs)) k ↔ k = g := fun k =>
    hcounted.held_iff (State.setFrames_self ..) hg
  have hwriting : ¬ Writing s := by
    rw [writing_iff fun k => hs.counted.held_iff h hf, hfw]
    exact Bool.false_ne_true
  have hwriting' : ¬ Writing (s'.setFrames t (g :: fs)) := by
    rw [writing_iff hheld', hgw]
    exact Bool.false_ne_true
  have hprinted : (s'.setFrames t (g :: fs)).printed = s.printed := hprinted
  have hforce : (s'.setFrames t (g :: fs)).force_exit = s.force_exit := hforce
  refine ⟨hcounted, ?_, ?_, fun h => absurd (harmed.symm.trans h) Bool.false_ne_true, ?_⟩
  · rw [hheld', hprinted]
    exact fun hg => hleft hg.symm
  · rw [hforce, hprinted]
    exact fun hexit => .inr ((hs.forced hexit).resolve_left hwriting)
  · intro hthrow
    have hthrow : s.abort_throwException = false := hmode.symm.trans hthrow
    obtain ⟨hlength, hexit, -⟩ := hs.once hthrow
    rw [hprinted, hforce, hheld']
    exact ⟨hlength, hexit, fun hg => hmarking hg.symm hthrow, fun hw => absurd hw hwriting'⟩

theorem message_inside (hs : Message s) (hcounted : Counted (s'.setFrames t (g :: fs)))
    (h : s.frames t = f :: fs) (hin : Inside s t e f g s') :
    Message (s'.setFrames t (g :: fs)) := by
  have hheld : ∀ k, Held s k ↔ k = f := fun k => hs.counted.held_iff h hin.holds.1
  have hheld' : ∀ k, Held (s'.setFrames t (g :: fs)) k ↔ k = g := fun k =>
    hcounted.held_iff (State.setFrames_self ..) hin.holds.2
  have hunarmed : f ≠ .locked → s.armed = false := fun hne =>
    Bool.eq_false_of_not_eq_true fun harmed => hne ((hs.unarmed harmed).2 f ((hheld f).mpr rfl))
  cases hin with
  | disarm => exact hs.quiet hcounted h rfl rfl rfl rfl rfl rfl rfl rfl (by simp) (by simp)
  | clearSignals =>
    exact hs.quiet hcounted h rfl rfl rfl rfl rfl rfl (hunarmed (by simp)) rfl (by simp) (by simp)
  | leave hforce =>
    -- another thread has set `force_exit`, and it has printed
    have hprinted : s.printed ≠ [] := (hs.forced hforce).resolve_left fun hg => by
      simpa [Frame.writes] using (writing_iff hheld).mp hg
    exact hs.quiet hcounted h rfl rfl rfl rfl rfl rfl (hunarmed (by simp)) rfl
      (fun _ => hprinted) (by simp)
  | enter hforce =>
    refine hs.quiet hcounted h rfl rfl rfl rfl rfl rfl (hunarmed (by simp)) rfl (by simp) ?_
    intro _ hthrow
    by_contra hne
    exact hforce ((hs.once hthrow).2.1 hne)
  | mark =>
    refine ⟨hcounted, by simp [hheld'], fun _ => .inl ((writing_iff hheld').mpr rfl), ?_, ?_⟩
    · exact fun harmed => absurd (harmed.symm.trans (hunarmed (by simp))) (by simp)
    · intro hmode
      obtain ⟨hlength, -, hmarking, -⟩ := hs.once hmode
      have hnone : s.printed = [] := hmarking ((hheld _).mpr rfl)
      have hforce : (if s.abort_throwException then s.force_exit else 2) > 1 := by
        have hmode : s.abort_throwException = false := hmode
        simp [hmode]
      exact ⟨hlength, fun _ => hforce, by simp [hheld'], fun _ => ⟨hnone, hforce⟩⟩
  | trace => exact hs.write hcounted h rfl rfl rfl rfl rfl rfl rfl rfl
  | traced => exact hs.write hcounted h rfl rfl rfl rfl rfl rfl rfl rfl
  | lost hwhat =>
    cases f <;> first
      | exact absurd hwhat Bool.false_ne_true
      | exact hs.write hcounted h rfl rfl rfl rfl rfl rfl rfl rfl
  | print =>
    have hne : s.printed ++ [t] ≠ [] := by simp
    refine ⟨hcounted, fun _ => hne, fun _ => .inr hne, ?_, fun hmode => ?_⟩
    · exact fun harmed => absurd (harmed.symm.trans (hunarmed (by simp))) (by simp)
    · obtain ⟨hnone, hforce⟩ := (hs.once hmode).2.2.2 ((writing_iff hheld).mpr rfl)
      refine ⟨?_, fun _ => hforce, by simp [hheld'], by simp [writing_iff hheld', Frame.writes]⟩
      show (s.printed ++ [t]).length ≤ 1
      rw [hnone]
      exact le_refl 1

theorem message_effect (hs : Message s) (h : Effect s e s') : Message s' := by
  have hcounted := counted_effect hs.counted h
  cases h with
  | @outside t fs e caught handling mutex top top' h _ hout =>
    have hheld : ∀ g, Held ({ s with caught, handling, StackTrace_mutex := mutex }.setFrames t
        (top' ++ fs)) g ↔ Held s g := fun g => held_outside h hout
    refine ⟨hcounted, ?_, ?_, ?_, ?_⟩
    · rw [hheld]
      exact hs.left
    · simp only [Writing, hheld]
      exact hs.forced
    · simp only [hheld]
      exact hs.unarmed
    · simp only [Writing, hheld]
      exact hs.once
  | @lock t fs h hfree =>
    have hheld : ∀ g, Held ({ s with terminate_mutex := some t }.setFrames t (.locked :: fs)) g ↔
        g = .locked := fun g => hcounted.held_iff (State.setFrames_self ..) rfl
    have hnone : ∀ g, ¬ Held s g := fun g hg => hs.counted.mutex_ne_none hg hfree
    have hnot : ¬ Writing s := fun ⟨g, _, hg⟩ => hnone g hg
    have hnot' := (not_congr (writing_iff hheld)).mpr Bool.false_ne_true
    refine ⟨hcounted, ?_, ?_, ?_, ?_⟩
    · simp [hheld]
    · exact fun hforce => .inr ((hs.forced hforce).resolve_left hnot)
    · exact fun harmed => ⟨(hs.unarmed harmed).1, fun g hg => (hheld g).mp hg⟩
    · intro hmode
      obtain ⟨hlength, hforce, -⟩ := hs.once hmode
      exact ⟨hlength, hforce, by simp [hheld], fun h => absurd h hnot'⟩
  | inside h hin => exact message_inside hs hcounted h hin
  | @unlock t fs h =>
    have hnone : ∀ g, ¬ Held ({ s with terminate_mutex := none }.setFrames t (.aborting :: fs)) g :=
      fun g hg => hcounted.mutex_ne_none hg rfl
    have hheld : ∀ k, Held s k ↔ k = .callAbort := fun k => hs.counted.held_iff h rfl
    have hprinted : s.printed ≠ [] := hs.left ((hheld _).mpr rfl)
    refine ⟨hcounted, fun _ => hprinted, fun _ => .inr hprinted, fun harmed => ?_, fun hmode => ?_⟩
    · exact absurd (hs.unarmed harmed).1 hprinted
    · obtain ⟨hlength, hforce, -⟩ := hs.once hmode
      exact ⟨hlength, hforce, fun hg => absurd hg (hnone _),
        fun ⟨g, _, hg⟩ => absurd hg (hnone g)⟩
  | abort | kill => exact ⟨hcounted, hs.left, hs.forced, hs.unarmed, hs.once⟩

/-- What comes before the message is printed gets to `terminate`: a signal is caught, and a
    thread whose exception nobody catches finds `terminate` in `abort_fun`. -/
def Informed (s : State τ) : Event τ → Prop
  | .signal t sig => s.catches t sig ∨ s.printed ≠ []
  | .escape _ => s.armed = true ∨ s.printed ≠ []
  | .advance t => ∀ fs, s.frames t = .calling :: fs → s.armed = true ∨ s.printed ≠ []
  | .library _ | .lost _ => True

/-- Nobody is about to abort without a message. -/
structure Told (s : State τ) : Prop where
  message : Message s
  aborting : ∀ t, .aborting ∈ s.frames t → s.printed ≠ []
  ended : s.ended = true → s.printed ≠ []

omit [DecidableEq τ] in
theorem Outside.aborting {top top' : List Frame} (h : Outside s t e mutex top top')
    (hframes : s.frames t = top ++ fs) (hok : Informed s e) (hmem : .aborting ∈ top') :
    s.printed ≠ [] := by
  cases h with
  | escapeDisarmed _ harmed => exact hok.resolve_left (by simp [harmed])
  | callDisarmed harmed => exact (hok fs hframes).resolve_left (by simp [harmed])
  | signal | terminate | ignore | escape | clearSignals | call | library | release =>
    simp at hmem

omit [DecidableEq τ] in
theorem Inside.printed (h : Inside s t e f g s') (hne : s.printed ≠ []) : s'.printed ≠ [] := by
  cases h with
  | print => simp
  | disarm | clearSignals | leave | enter | mark | trace | traced | lost => exact hne

theorem mem_setFrames {u : τ} (hmem : f ∈ (s.setFrames t fs).frames u) :
    f ∈ fs ∨ f ∈ s.frames u := by
  by_cases hu : u = t
  · subst hu
    rw [State.setFrames_self] at hmem
    exact .inl hmem
  · rw [State.setFrames_of_ne hu] at hmem
    exact .inr hmem

theorem told_step (hs : Told s) (hok : Informed s e) (hstep : step s e = some s') : Told s' := by
  have heffect := effect_of_step hstep
  have hmessage := message_effect hs.message heffect
  cases heffect with
  | @outside t fs e caught handling mutex top top' h hcaught hout =>
    refine ⟨hmessage, fun u hmem => ?_, hs.ended⟩
    rcases mem_setFrames hmem with hmem | hmem
    · rcases List.mem_append.mp hmem with hmem | hmem
      · exact hout.aborting h hok hmem
      · exact hs.aborting t (by rw [h]; exact List.mem_append_right _ hmem)
    · exact hs.aborting u hmem
  | @lock t fs h hfree =>
    refine ⟨hmessage, fun u hmem => ?_, hs.ended⟩
    rcases mem_setFrames hmem with hmem | hmem
    · exact hs.aborting t (by rw [h]; simpa using hmem)
    · exact hs.aborting u hmem
  | @inside t f g fs e s₁ h hin =>
    have hended : s₁.ended = s.ended := by cases hin <;> rfl
    refine ⟨hmessage, fun u hmem => hin.printed ?_, fun h => hin.printed (hs.ended ?_)⟩
    · rcases mem_setFrames hmem with hmem | hmem
      · have hg : .aborting ≠ g := by
          rintro rfl
          exact absurd hin.holds.2 (by simp [Frame.holds])
        have hmem : .aborting ∈ fs := (List.mem_cons.mp hmem).resolve_left hg
        exact hs.aborting t (by rw [h]; exact List.mem_cons_of_mem _ hmem)
      · rw [hin.frames.1] at hmem
        exact hs.aborting u hmem
    · exact hended ▸ h
  | @unlock t fs h =>
    have hprinted : s.printed ≠ [] := hs.message.left ⟨rfl, t, mem_frames h⟩
    exact ⟨hmessage, fun _ _ => hprinted, fun _ => hprinted⟩
  | @abort t fs h =>
    exact ⟨hmessage, hs.aborting, fun _ => hs.aborting t (mem_frames h)⟩
  | @kill t sig h =>
    exact ⟨hmessage, hs.aborting, fun _ => hok.resolve_left h⟩

/-- The thread `t` aborts. -/
theorem step_aborting (h : s.frames t = .aborting :: fs) (hended : s.ended = false) :
    step s (.advance t) = some { s with aborted := true } := by
  simp [step_eq_some, hended, move, advance, h]

/-- A thread that is not informed aborts next, and a signal ends the program at once. -/
theorem silent_of_not_informed (hstep : step s e = some s') (hbad : ¬ Informed s e) :
    ∃ fs u, Machine.run step s' fs = some u ∧ u.ended = true ∧ u.printed = [] := by
  obtain ⟨hended, hmove⟩ := step_eq_some.mp hstep
  cases e with
  | library | lost => exact absurd trivial hbad
  | signal t sig =>
    obtain ⟨hcatch, hprinted⟩ := not_or.mp hbad
    simp only [move, if_neg hcatch] at hmove
    obtain rfl := Option.some.inj hmove
    exact ⟨[], _, rfl, by simp [State.ended], not_not.mp hprinted⟩
  | escape t =>
    obtain ⟨harmed, hprinted⟩ := not_or.mp hbad
    simp only [move, if_neg harmed] at hmove
    split_ifs at hmove
    obtain rfl := Option.some.inj hmove
    refine ⟨[.advance t], _, Machine.run_cons.mpr ⟨_, step_aborting (State.setFrames_self ..)
      hended, rfl⟩, rfl, not_not.mp hprinted⟩
  | advance t =>
    simp only [Informed, not_forall, not_or, not_not] at hbad
    obtain ⟨fs, h, harmed, hprinted⟩ := hbad
    simp only [move, advance, h, if_neg harmed] at hmove
    obtain rfl := Option.some.inj hmove
    refine ⟨[.advance t], _, Machine.run_cons.mpr ⟨_, step_aborting (State.setFrames_self ..)
      hended, rfl⟩, rfl, hprinted⟩

theorem message_run {caught : ℤ → Bool} {throwException : Bool} {traced : τ → ℕ}
    {es : List (Event τ)}
    (hrun : Machine.run step (.init τ caught throwException traced) es = some s) : Message s :=
  Machine.invariant_of_run (fun _ _ _ hs hstep => message_effect hs (effect_of_step hstep))
    (message_init caught throwException traced) hrun

theorem told_init (caught : ℤ → Bool) (throwException : Bool) (traced : τ → ℕ) :
    Told (.init τ caught throwException traced) where
  message := message_init caught throwException traced
  aborting t h := by simp [State.init] at h
  ended h := by simp [State.init, State.ended] at h

theorem mode_effect (h : Effect s e s') : s'.abort_throwException = s.abort_throwException := by
  cases h with
  | inside h hin => exact hin.mode
  | outside | lock | unlock | abort | kill => rfl

/-- With `abort_throwException` not set the threads print at most one message, in any run.
    The program does not end without one, if before it is printed no signal comes that is
    not caught and no thread whose exception nobody catches finds `abort_fun` replaced.
    Such a signal or thread can end the program before anything is printed. -/
theorem one_message (caught : ℤ → Bool) (throwException : Bool) (traced : τ → ℕ) :
    (∀ (es : List (Event τ)) (s : State τ),
      Machine.run step (.init τ caught throwException traced) es = some s →
        (throwException = false → s.printed.length ≤ 1) ∧
        (Machine.Meets step Informed (.init τ caught throwException traced) es →
          s.ended = true → s.printed ≠ [])) ∧
    (∀ (es : List (Event τ)) (e : Event τ) (s s' : State τ),
      Machine.run step (.init τ caught throwException traced) es = some s →
        step s e = some s' → ¬ Informed s e →
        ∃ fs u, Machine.run step (.init τ caught throwException traced) (es ++ e :: fs) = some u ∧
          u.ended = true ∧ u.printed = []) := by
  refine ⟨fun es s hrun => ⟨fun hmode => ?_, fun hok => ?_⟩, fun es e s s' hrun hstep hbad => ?_⟩
  · have hsame : s.abort_throwException = throwException :=
      Machine.invariant_of_run (P := fun s : State τ => s.abort_throwException = throwException)
        (fun _ _ _ hs hstep => (mode_effect (effect_of_step hstep)).trans hs) rfl hrun
    exact ((message_run hrun).once (hsame.trans hmode)).1
  · exact (Machine.invariant_of_meets (fun _ _ _ hs hok hstep => told_step hs hok hstep)
      (told_init caught throwException traced) hok hrun).ended
  · obtain ⟨fs, u, hfs, hu⟩ := silent_of_not_informed hstep hbad
    exact ⟨fs, u, Machine.run_append_cons hrun hstep hfs, hu⟩

end StackTrace.Terminate
