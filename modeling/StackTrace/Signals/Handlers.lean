import StackTrace.Base.Machine

/-!
# Two handlers for one signal

`activeThreads` (`StackTraceThreads.cpp`, lines 124–165) and `backtrace_thread`
(`StackTrace.cpp`, lines 1033–1056) both install a handler for
`thread_callstack_signal`, send the signal and wait for the handler to have run.
The disposition belongs to the process. Each file has a mutex `StackTrace_mutex` of
its own, so the two calls do not exclude each other; `activeThreads` puts back the
handler it found and `backtrace_thread` does not.

* `handlers_own`: every signal runs the handler of its sender, in every run in which
  neither call changes the handler while the other has a signal to come; a change that
  does can let a signal run another handler.
-/

namespace StackTrace.Handlers

/-- What the disposition of `thread_callstack_signal` can be. -/
inductive Handler where
  /-- `_activeThreads_signal_handler` -/
  | activeThreads
  /-- `_callstack_signal_handler` -/
  | callstack
  /-- the default action, or a handler of the program -/
  | other (f : ℕ)
deriving DecidableEq

/-- How far the call of `activeThreads` that holds its mutex is: `old` is what `signal`
    returned, `tids` are the threads still to be signalled. -/
inductive ActiveThreads (τ : Type*) where
  | locked (tids : List τ)
  | installed (old : Handler) (tids : List τ)
  | sent (old : Handler) (tids : List τ)
  | restored

/-- How far the call of `backtrace_thread` that holds its mutex is. -/
inductive BacktraceThread where
  | locked
  | installed
  | sent
  | delivered

/-- `delivered` lists the signals that have run a handler: the handler of the sender and
    the one that has run. -/
structure State (τ : Type*) where
  handler : Handler
  activeThreads : Option (ActiveThreads τ)
  backtraceThread : Option BacktraceThread
  delivered : List (Handler × Handler)

/-- No call in progress. -/
def State.init (τ : Type*) (h : Handler) : State τ := ⟨h, none, none, []⟩

/-- The atomic steps of a call. -/
inductive Action where
  | lock
  | install
  | send
  /-- the handler installed at this moment runs -/
  | deliver
  | restore
  | unlock

/-- A step of a call of `activeThreads`, where `tids` are the threads that `ps` lists, or
    of `backtrace_thread`. -/
inductive Event (τ : Type*) where
  | activeThreads (tids : List τ) (a : Action)
  | backtraceThread (a : Action)

variable {τ : Type*}

/-- One step (`StackTraceThreads.cpp`, lines 146–165). A sender waits until its signal
    is delivered. -/
def stepActiveThreads (s : State τ) (tids : List τ) (a : Action) : Option (State τ) :=
  match a, s.activeThreads with
  | .lock, none => some { s with activeThreads := some (.locked tids) }
  | .install, some (.locked tids) =>
    some { s with handler := .activeThreads, activeThreads := some (.installed s.handler tids) }
  | .send, some (.installed old (_ :: tids)) =>
    some { s with activeThreads := some (.sent old tids) }
  | .deliver, some (.sent old tids) =>
    some { s with
      activeThreads := some (.installed old tids),
      delivered := (.activeThreads, s.handler) :: s.delivered }
  | .restore, some (.installed old []) =>
    some { s with handler := old, activeThreads := some .restored }
  | .unlock, some .restored => some { s with activeThreads := none }
  | _, _ => none

/-- One step (`StackTrace.cpp`, lines 1037–1055). -/
def stepBacktraceThread (s : State τ) (a : Action) : Option (State τ) :=
  match a, s.backtraceThread with
  | .lock, none => some { s with backtraceThread := some .locked }
  | .install, some .locked =>
    some { s with handler := .callstack, backtraceThread := some .installed }
  | .send, some .installed => some { s with backtraceThread := some .sent }
  | .deliver, some .sent =>
    some { s with
      backtraceThread := some .delivered, delivered := (.callstack, s.handler) :: s.delivered }
  | .unlock, some .delivered => some { s with backtraceThread := none }
  | _, _ => none

/-- One step of one of the two calls that hold a mutex. -/
def step (s : State τ) : Event τ → Option (State τ)
  | .activeThreads tids a => stepActiveThreads s tids a
  | .backtraceThread a => stepBacktraceThread s a

/-! ## The condition -/

/-- A call of `activeThreads` has installed its handler and has a signal to come. -/
def ActiveThreads.Signals : ActiveThreads τ → Prop
  | .installed _ tids => tids ≠ []
  | .sent _ _ => True
  | _ => False

/-- A call of `backtrace_thread` has installed its handler and has a signal to come. -/
def BacktraceThread.Signals : BacktraceThread → Prop
  | .installed | .sent => True
  | _ => False

def State.ActiveSignals (s : State τ) : Prop := ∃ c, s.activeThreads = some c ∧ c.Signals

def State.BacktraceSignals (s : State τ) : Prop := ∃ c, s.backtraceThread = some c ∧ c.Signals

/-- Neither call changes the handler while the other has a signal to come, unless
    `activeThreads` puts back the handler of `backtrace_thread`. -/
def Apart (s : State τ) : Event τ → Prop
  | .activeThreads _ .install => ¬ s.BacktraceSignals
  | .activeThreads _ .restore =>
    s.BacktraceSignals → ∀ old, s.activeThreads = some (.installed old []) → old = .callstack
  | .backtraceThread .install => ¬ s.ActiveSignals
  | _ => True

/-! ## Apart -/

/-- A call with a signal to come has its handler in force, and so has had each before. -/
structure Own (s : State τ) : Prop where
  active : s.ActiveSignals → s.handler = .activeThreads
  backtrace : s.BacktraceSignals → s.handler = .callstack
  delivered : ∀ d ∈ s.delivered, d.2 = d.1

theorem own_init (h : Handler) : Own (State.init τ h) where
  active := by simp [State.init, State.ActiveSignals]
  backtrace := by simp [State.init, State.BacktraceSignals]
  delivered := by simp [State.init]

theorem activeSignals_of_some {s : State τ} {c : ActiveThreads τ} (h : s.activeThreads = some c) :
    s.ActiveSignals ↔ c.Signals := by
  simp [State.ActiveSignals, h]

theorem backtraceSignals_of_some {s : State τ} {c : BacktraceThread}
    (h : s.backtraceThread = some c) : s.BacktraceSignals ↔ c.Signals := by
  simp [State.BacktraceSignals, h]

/-- A step of `activeThreads` that leaves the handler alone. -/
theorem Own.next_active {s s' : State τ} (hs : Own s) (hhandler : s'.handler = s.handler)
    (hback : s'.backtraceThread = s.backtraceThread) (hactive : s'.ActiveSignals → s.ActiveSignals)
    (hdelivered : ∀ d ∈ s'.delivered, d.2 = d.1) : Own s' where
  active h := hhandler.trans (hs.active (hactive h))
  backtrace h := by
    refine hhandler.trans (hs.backtrace ?_)
    simpa [State.BacktraceSignals, hback] using h
  delivered := hdelivered

/-- A step of `backtrace_thread` that leaves the handler alone. -/
theorem Own.next_backtrace {s s' : State τ} (hs : Own s) (hhandler : s'.handler = s.handler)
    (hactive : s'.activeThreads = s.activeThreads)
    (hback : s'.BacktraceSignals → s.BacktraceSignals)
    (hdelivered : ∀ d ∈ s'.delivered, d.2 = d.1) : Own s' where
  active h := by
    refine hhandler.trans (hs.active ?_)
    simpa [State.ActiveSignals, hactive] using h
  backtrace h := hhandler.trans (hs.backtrace (hback h))
  delivered := hdelivered

theorem own_stepActiveThreads {s s' : State τ} {tids : List τ} {a : Action} (hs : Own s)
    (hok : Apart s (.activeThreads tids a)) (hstep : stepActiveThreads s tids a = some s') :
    Own s' := by
  unfold stepActiveThreads at hstep
  split at hstep
  · -- lock
    obtain rfl := Option.some.inj hstep
    exact hs.next_active rfl rfl (by simp [State.ActiveSignals, ActiveThreads.Signals]) hs.delivered
  · -- install
    obtain rfl := Option.some.inj hstep
    exact ⟨fun _ => rfl, fun h => absurd h hok, hs.delivered⟩
  · -- send
    rename_i hcall
    obtain rfl := Option.some.inj hstep
    refine hs.next_active rfl rfl (fun _ => ?_) hs.delivered
    simp [activeSignals_of_some hcall, ActiveThreads.Signals]
  · -- deliver
    rename_i hcall
    obtain rfl := Option.some.inj hstep
    have hsig : s.ActiveSignals := (activeSignals_of_some hcall).mpr trivial
    refine hs.next_active rfl rfl (fun _ => hsig) fun d hd => ?_
    rcases List.mem_cons.mp hd with rfl | hd
    · exact hs.active hsig
    · exact hs.delivered d hd
  · -- restore
    rename_i hcall
    obtain rfl := Option.some.inj hstep
    refine ⟨?_, fun h => hok h _ hcall, hs.delivered⟩
    simp [State.ActiveSignals, ActiveThreads.Signals]
  · -- unlock
    obtain rfl := Option.some.inj hstep
    exact hs.next_active rfl rfl (by simp [State.ActiveSignals]) hs.delivered
  · exact absurd hstep (by simp)

theorem own_stepBacktraceThread {s s' : State τ} {a : Action} (hs : Own s)
    (hok : Apart s (.backtraceThread a)) (hstep : stepBacktraceThread s a = some s') : Own s' := by
  unfold stepBacktraceThread at hstep
  split at hstep
  · -- lock
    obtain rfl := Option.some.inj hstep
    exact hs.next_backtrace rfl rfl (by simp [State.BacktraceSignals, BacktraceThread.Signals])
      hs.delivered
  · -- install
    obtain rfl := Option.some.inj hstep
    exact ⟨fun h => absurd h hok, fun _ => rfl, hs.delivered⟩
  · -- send
    rename_i hcall
    obtain rfl := Option.some.inj hstep
    exact hs.next_backtrace rfl rfl (fun _ => (backtraceSignals_of_some hcall).mpr trivial)
      hs.delivered
  · -- deliver
    rename_i hcall
    obtain rfl := Option.some.inj hstep
    have hsig : s.BacktraceSignals := (backtraceSignals_of_some hcall).mpr trivial
    refine hs.next_backtrace rfl rfl (fun _ => hsig) fun d hd => ?_
    rcases List.mem_cons.mp hd with rfl | hd
    · exact hs.backtrace hsig
    · exact hs.delivered d hd
  · -- unlock
    obtain rfl := Option.some.inj hstep
    exact hs.next_backtrace rfl rfl (by simp [State.BacktraceSignals]) hs.delivered
  · exact absurd hstep (by simp)

theorem own_step {s s' : State τ} {e : Event τ} (hs : Own s) (hok : Apart s e)
    (hstep : step s e = some s') : Own s' := by
  cases e with
  | activeThreads tids a => exact own_stepActiveThreads hs hok hstep
  | backtraceThread a => exact own_stepBacktraceThread hs hok hstep

theorem own_run {h : Handler} {s : State τ} {es : List (Event τ)}
    (hok : Machine.Meets step Apart (.init τ h) es)
    (hrun : Machine.run step (.init τ h) es = some s) : Own s :=
  Machine.invariant_of_meets (fun _ _ _ hs hok hstep => own_step hs hok hstep) (own_init h) hok hrun

/-! ## Not apart -/

/-- The signal that `activeThreads` has to come runs the handler in force. -/
theorem run_active {s : State τ} (h : s.ActiveSignals) :
    ∃ es t, Machine.run step s es = some t ∧ (.activeThreads, s.handler) ∈ t.delivered := by
  obtain ⟨c, hcall, hsig⟩ := h
  have deliver : ∀ (s : State τ) (old : Handler) (tids : List τ),
      s.activeThreads = some (.sent old tids) → ∃ t, step s (.activeThreads [] .deliver) = some t ∧
        (.activeThreads, s.handler) ∈ t.delivered := by
    intro s old tids hcall
    refine ⟨{ s with
      activeThreads := some (.installed old tids)
      delivered := (.activeThreads, s.handler) :: s.delivered }, ?_, List.mem_cons_self⟩
    simp [step, stepActiveThreads, hcall]
  cases c with
  | sent old tids =>
    obtain ⟨t, ht, hmem⟩ := deliver s old tids hcall
    exact ⟨[.activeThreads [] .deliver], t, Machine.run_cons.mpr ⟨t, ht, rfl⟩, hmem⟩
  | installed old tids =>
    obtain ⟨tid, tids, rfl⟩ := List.exists_cons_of_ne_nil hsig
    have hsend : step s (.activeThreads [] .send) =
        some { s with activeThreads := some (.sent old tids) } := by
      simp [step, stepActiveThreads, hcall]
    obtain ⟨t, ht, hmem⟩ := deliver { s with activeThreads := some (.sent old tids) } old tids rfl
    exact ⟨[.activeThreads [] .send, .activeThreads [] .deliver], t,
      Machine.run_cons.mpr ⟨_, hsend, Machine.run_cons.mpr ⟨t, ht, rfl⟩⟩, hmem⟩
  | locked | restored => exact absurd hsig id

/-- The signal that `backtrace_thread` has to come runs the handler in force. -/
theorem run_backtrace {s : State τ} (h : s.BacktraceSignals) :
    ∃ es t, Machine.run step s es = some t ∧ (.callstack, s.handler) ∈ t.delivered := by
  obtain ⟨c, hcall, hsig⟩ := h
  have deliver : ∀ s : State τ, s.backtraceThread = some .sent →
      ∃ t, step s (.backtraceThread .deliver) = some t ∧ (.callstack, s.handler) ∈ t.delivered := by
    intro s hcall
    refine ⟨{ s with
      backtraceThread := some .delivered
      delivered := (.callstack, s.handler) :: s.delivered }, ?_, List.mem_cons_self⟩
    simp [step, stepBacktraceThread, hcall]
  cases c with
  | sent =>
    obtain ⟨t, ht, hmem⟩ := deliver s hcall
    exact ⟨[.backtraceThread .deliver], t, Machine.run_cons.mpr ⟨t, ht, rfl⟩, hmem⟩
  | installed =>
    have hsend : step s (.backtraceThread .send) =
        some { s with backtraceThread := some .sent } := by
      simp [step, stepBacktraceThread, hcall]
    obtain ⟨t, ht, hmem⟩ := deliver { s with backtraceThread := some .sent } rfl
    exact ⟨[.backtraceThread .send, .backtraceThread .deliver], t,
      Machine.run_cons.mpr ⟨_, hsend, Machine.run_cons.mpr ⟨t, ht, rfl⟩⟩, hmem⟩
  | locked | delivered => exact absurd hsig id

theorem handler_of_install {s s' : State τ} {tids : List τ}
    (h : stepActiveThreads s tids .install = some s') :
    s'.handler = .activeThreads ∧ s'.backtraceThread = s.backtraceThread := by
  rcases hcall : s.activeThreads with _ | _ | _ | _ | _ <;>
    simp only [stepActiveThreads, hcall, reduceCtorEq, Option.some.injEq] at h
  subst h
  exact ⟨rfl, rfl⟩

theorem handler_of_restore {s s' : State τ} {tids : List τ}
    (h : stepActiveThreads s tids .restore = some s') :
    s.activeThreads = some (.installed s'.handler []) ∧ s'.backtraceThread = s.backtraceThread := by
  rcases hcall : s.activeThreads with _ | _ | ⟨old, _ | _⟩ | _ | _ <;>
    simp only [stepActiveThreads, hcall, reduceCtorEq, Option.some.injEq] at h
  subst h
  exact ⟨rfl, rfl⟩

theorem handler_of_install_backtrace {s s' : State τ}
    (h : stepBacktraceThread s .install = some s') :
    s'.handler = .callstack ∧ s'.activeThreads = s.activeThreads := by
  rcases hcall : s.backtraceThread with _ | _ | _ | _ | _ <;>
    simp only [stepBacktraceThread, hcall, reduceCtorEq, Option.some.injEq] at h
  subst h
  exact ⟨rfl, rfl⟩

/-- Behind a change of the handler that is not apart a signal can run the handler of
    another sender. -/
theorem stolen {s s' : State τ} {e : Event τ} (hstep : step s e = some s') (hok : ¬ Apart s e) :
    ∃ es t, Machine.run step s' es = some t ∧ ∃ d ∈ t.delivered, d.2 ≠ d.1 := by
  have back : s.BacktraceSignals → s'.backtraceThread = s.backtraceThread →
      s'.handler ≠ .callstack →
      ∃ es t, Machine.run step s' es = some t ∧ ∃ d ∈ t.delivered, d.2 ≠ d.1 := by
    intro hsig hsame hhandler
    have hsig' : s'.BacktraceSignals := by simpa [State.BacktraceSignals, hsame] using hsig
    obtain ⟨es, t, hrun, hmem⟩ := run_backtrace hsig'
    exact ⟨es, t, hrun, _, hmem, hhandler⟩
  cases e with
  | activeThreads tids a =>
    cases a with
    | install =>
      obtain ⟨hhandler, hsame⟩ := handler_of_install hstep
      exact back (not_not.mp hok) hsame (by rw [hhandler]; simp)
    | restore =>
      obtain ⟨hcall, hsame⟩ := handler_of_restore hstep
      simp only [Apart, Classical.not_imp, not_forall] at hok
      obtain ⟨hsig, old, hold, hne⟩ := hok
      refine back hsig hsame ?_
      rw [hcall] at hold
      simp only [Option.some.injEq, ActiveThreads.installed.injEq, and_true] at hold
      rwa [hold]
    | _ => exact absurd trivial hok
  | backtraceThread a =>
    cases a with
    | install =>
      obtain ⟨hhandler, hsame⟩ := handler_of_install_backtrace hstep
      have hsig : s.ActiveSignals := not_not.mp hok
      have hsig' : s'.ActiveSignals := by simpa [State.ActiveSignals, hsame] using hsig
      obtain ⟨es, t, hrun, hmem⟩ := run_active hsig'
      exact ⟨es, t, hrun, _, hmem, by rw [hhandler]; simp⟩
    | _ => exact absurd trivial hok

/-- Every signal runs the handler of its sender, in every run in which neither call
    changes the handler while the other has a signal to come. A run that is apart up to
    its last step can be continued so that a signal runs another handler. -/
theorem handlers_own (h : Handler) :
    (∀ (es : List (Event τ)) (s : State τ), Machine.Meets step Apart (.init τ h) es →
      Machine.run step (.init τ h) es = some s → ∀ d ∈ s.delivered, d.2 = d.1) ∧
    (∀ (es : List (Event τ)) (e : Event τ) (s s' : State τ),
      Machine.Meets step Apart (.init τ h) es → Machine.run step (.init τ h) es = some s →
      step s e = some s' → ¬ Apart s e →
      ∃ fs t, Machine.run step (.init τ h) (es ++ e :: fs) = some t ∧
        ∃ d ∈ t.delivered, d.2 ≠ d.1) := by
  constructor
  · intro es s hok hrun
    exact (own_run hok hrun).delivered
  · intro es e s s' _ hrun hstep hbad
    obtain ⟨fs, t, hfs, d, hd, hne⟩ := stolen hstep hbad
    exact ⟨fs, t, Machine.run_append_cons hrun hstep hfs, d, hd, hne⟩

/-- `backtrace_thread` takes its mutex while `activeThreads` signals, and installs its
    handler afterwards. -/
theorem handlers_own_twice :
    ∃ s : State ℕ, Machine.run step (.init ℕ (.other 0))
        [.activeThreads [2] .lock, .activeThreads [] .install, .activeThreads [] .send,
          .backtraceThread .lock, .activeThreads [] .deliver, .activeThreads [] .restore,
          .backtraceThread .install, .backtraceThread .send, .backtraceThread .deliver] = some s ∧
      ∀ d ∈ s.delivered, d.2 = d.1 := by
  refine ⟨_, rfl, (handlers_own (.other 0)).1
    [.activeThreads [2] .lock, .activeThreads [] .install, .activeThreads [] .send,
      .backtraceThread .lock, .activeThreads [] .deliver, .activeThreads [] .restore,
      .backtraceThread .install, .backtraceThread .send, .backtraceThread .deliver] _ ?_ rfl⟩
  simp [Machine.Meets, Apart, step, stepActiveThreads, stepBacktraceThread, State.init,
    State.BacktraceSignals, State.ActiveSignals, ActiveThreads.Signals, BacktraceThread.Signals]

/-- `backtrace_thread` installs its handler between two signals of `activeThreads`. -/
theorem handlers_stolen :
    ¬ ∀ (h : Handler) (es : List (Event ℕ)) (s : State ℕ),
      Machine.run step (.init ℕ h) es = some s → ∀ d ∈ s.delivered, d.2 = d.1 := by
  intro h
  have hown := h (.other 0) [.activeThreads [2] .lock, .activeThreads [] .install,
    .backtraceThread .lock, .backtraceThread .install, .activeThreads [] .send,
    .activeThreads [] .deliver] _ rfl (.activeThreads, .callstack)
  revert hown
  decide

end StackTrace.Handlers
