import StackTrace.Base.Machine

/-!
# Whose trace `backtrace_thread` returns

`StackTrace.cpp`, lines 992–1056. To get the trace of another thread the caller
locks `StackTrace_mutex`, sets `global_thread_backtrace_count` to -1, sends a
signal and waits for the count to change, for 0.15 s at most. The handler runs in
the other thread and writes the trace and then the count, which all requests
share. A signal whose request has given up stays pending, and its handler may run
during a later request for another thread.

* `backtrace_thread_attribution`: every trace returned is empty or was taken in
  the thread asked for, in every run in which no handler runs in another thread
  between the reset of the count and the reading; a handler that does can make the
  call return its trace.
-/

namespace StackTrace.Attribution

/-- How far a call of `backtrace_thread` for another thread is. -/
inductive Stage (α : Type*) where
  /-- `StackTrace_mutex.lock()` -/
  | locked
  /-- `global_thread_backtrace_count = -1` -/
  | armed
  /-- `pthread_kill` -/
  | sent
  /-- behind the loop -/
  | left
  /-- the count and the buffer are read -/
  | taken (trace : List α)
  /-- `global_thread_backtrace_count = -1` -/
  | cleared (trace : List α)

/-- The call that holds `StackTrace_mutex`. -/
structure Call (τ α : Type*) where
  tid : τ
  stage : Stage α

/-- The memory the requests share, and what has happened: `handled` are the traces
    taken by handlers and `returned` the results of the calls, each with its thread. -/
structure State (τ α : Type*) where
  count : ℤ
  buffer : List α
  pending : List τ
  call : Option (Call τ α)
  handled : List (τ × List α)
  returned : List (τ × List α)

/-- Before the first call the count is zero, as for every static object. -/
def State.init (τ α : Type*) : State τ α := ⟨0, [], [], none, [], []⟩

/-- One step of the call that holds the mutex, of a thread that takes the mutex, or of
    a handler. -/
inductive Event (τ α : Type*) where
  | lock (self tid : τ)
  | arm
  | send
  /-- the loop ends because the count is not -1 -/
  | changed
  /-- the loop ends because the time is up -/
  | timeout
  | read
  | clear
  | unlock
  /-- `_callstack_signal_handler` runs in `u`, where `::backtrace` gives `trace` -/
  | handle (u : τ) (trace : List α)

variable {τ α : Type*} [DecidableEq τ]

/-- What `memcpy` of `max( count, 0 )` entries reads. -/
def State.readable (s : State τ α) : List α := s.buffer.take s.count.toNat

/-- One step (lines 1036–1055 and 1005–1009). -/
def step (s : State τ α) (e : Event τ α) : Option (State τ α) :=
  match e, s.call with
  | .lock self tid, none =>
    if self = tid then none else some { s with call := some ⟨tid, .locked⟩ }
  | .arm, some ⟨tid, .locked⟩ => some { s with count := -1, call := some ⟨tid, .armed⟩ }
  | .send, some ⟨tid, .armed⟩ =>
    some { s with pending := tid :: s.pending, call := some ⟨tid, .sent⟩ }
  | .changed, some ⟨tid, .sent⟩ =>
    if s.count = -1 then none else some { s with call := some ⟨tid, .left⟩ }
  | .timeout, some ⟨tid, .sent⟩ => some { s with call := some ⟨tid, .left⟩ }
  | .read, some ⟨tid, .left⟩ => some { s with call := some ⟨tid, .taken s.readable⟩ }
  | .clear, some ⟨tid, .taken trace⟩ =>
    some { s with count := -1, call := some ⟨tid, .cleared trace⟩ }
  | .unlock, some ⟨tid, .cleared trace⟩ =>
    some { s with call := none, returned := (tid, trace) :: s.returned }
  | .handle u trace, _ =>
    if u ∈ s.pending ∧ trace.length ≤ 1000 then
      some { s with
        count := trace.length, buffer := trace ++ s.buffer.drop trace.length,
        pending := s.pending.erase u, handled := (u, trace) :: s.handled }
    else none
  | _, _ => none

/-- A trace that a call for `tid` may return: an empty one, or one taken in `tid`. -/
def Attributed (handled : List (τ × List α)) (tid : τ) (trace : List α) : Prop :=
  trace = [] ∨ (tid, trace) ∈ handled

/-- Between the reset of the count and the reading a handler runs in the thread asked
    for only, or takes a trace that this thread has given as well. -/
def InTime (s : State τ α) : Event τ α → Prop
  | .handle u trace =>
    match s.call with
    | some ⟨tid, .armed⟩ | some ⟨tid, .sent⟩ | some ⟨tid, .left⟩ =>
      u = tid ∨ Attributed s.handled tid trace
    | _ => True
  | _ => True

/-! ## In time -/

omit [DecidableEq τ] in
theorem Attributed.mono {handled handled' : List (τ × List α)} {tid : τ} {trace : List α}
    (h : Attributed handled tid trace) (hsub : handled ⊆ handled') :
    Attributed handled' tid trace :=
  h.imp_right fun hmem => hsub hmem

/-- What the call that holds the mutex would return as things are. -/
def Call.result (s : State τ α) (c : Call τ α) : List α :=
  match c.stage with
  | .locked => []
  | .armed | .sent | .left => s.readable
  | .taken trace | .cleared trace => trace

/-- Every result, also that of the call under way, is empty or comes from the right thread. -/
structure Sound (s : State τ α) : Prop where
  returned : ∀ r ∈ s.returned, Attributed s.handled r.1 r.2
  call : ∀ c, s.call = some c → Attributed s.handled c.tid (c.result s)

omit [DecidableEq τ] in
theorem sound_init : Sound (State.init τ α) where
  returned := by simp [State.init]
  call := by simp [State.init]

omit [DecidableEq τ] in
/-- The call that holds the mutex goes on to a stage with an attributed result. -/
theorem Sound.next {s : State τ α} (h : Sound s) {s' : State τ α} {c : Call τ α}
    (hreturned : s'.returned = s.returned) (hhandled : s'.handled = s.handled)
    (hcall : s'.call = some c) (hresult : Attributed s.handled c.tid (c.result s')) :
    Sound s' where
  returned := by
    rw [hreturned, hhandled]
    exact h.returned
  call d hd := by
    obtain rfl := Option.some.inj (hcall.symm.trans hd)
    rw [hhandled]
    exact hresult

omit [DecidableEq τ] in
/-- The handler's trace is what can be read behind it. -/
theorem readable_handle (trace buffer : List α) (pending : List τ) (call : Option (Call τ α))
    (handled returned : List (τ × List α)) :
    State.readable ⟨trace.length, trace ++ buffer, pending, call, handled, returned⟩ = trace := by
  simp [State.readable]

theorem sound_step {s s' : State τ α} {e : Event τ α} (hs : Sound s) (hok : InTime s e)
    (hstep : step s e = some s') : Sound s' := by
  unfold step at hstep
  split at hstep
  · -- lock
    split_ifs at hstep
    obtain rfl := Option.some.inj hstep
    exact hs.next rfl rfl rfl (.inl rfl)
  · -- arm: a count of -1 lets nothing be read
    obtain rfl := Option.some.inj hstep
    exact hs.next rfl rfl rfl (.inl rfl)
  · -- send
    rename_i hcall
    obtain rfl := Option.some.inj hstep
    have hresult := hs.call _ hcall
    exact hs.next rfl rfl rfl hresult
  · -- changed
    rename_i hcall
    split_ifs at hstep
    obtain rfl := Option.some.inj hstep
    have hresult := hs.call _ hcall
    exact hs.next rfl rfl rfl hresult
  · -- timeout
    rename_i hcall
    obtain rfl := Option.some.inj hstep
    have hresult := hs.call _ hcall
    exact hs.next rfl rfl rfl hresult
  · -- read
    rename_i hcall
    obtain rfl := Option.some.inj hstep
    have hresult := hs.call _ hcall
    exact hs.next rfl rfl rfl hresult
  · -- clear
    rename_i hcall
    obtain rfl := Option.some.inj hstep
    have hresult := hs.call _ hcall
    exact hs.next rfl rfl rfl hresult
  · -- unlock
    rename_i hcall
    obtain rfl := Option.some.inj hstep
    refine ⟨fun r hr => ?_, by simp⟩
    rcases List.mem_cons.mp hr with rfl | hr
    · exact hs.call _ hcall
    · exact hs.returned r hr
  · -- handle
    rename_i u trace
    split_ifs at hstep
    obtain rfl := Option.some.inj hstep
    have hsub : s.handled ⊆ (u, trace) :: s.handled := List.subset_cons_self _ _
    refine ⟨fun r hr => (hs.returned r hr).mono hsub, ?_⟩
    rintro ⟨tid, stage⟩ hcall
    have hold := (hs.call _ hcall).mono hsub
    have hnew : u = tid ∨ Attributed s.handled tid trace →
        Attributed ((u, trace) :: s.handled) tid trace := by
      rintro (rfl | h)
      · exact .inr List.mem_cons_self
      · exact h.mono hsub
    have hcall' : s.call = some ⟨tid, stage⟩ := hcall
    simp only [InTime, hcall'] at hok
    cases stage with
    | locked | taken | cleared => exact hold
    | armed | sent | left =>
      simp only [Call.result, readable_handle]
      exact hnew hok
  · exact absurd hstep (by simp)

theorem sound_run {s : State τ α} {es : List (Event τ α)}
    (hok : Machine.Meets step InTime (.init τ α) es)
    (hrun : Machine.run step (.init τ α) es = some s) : Sound s :=
  Machine.invariant_of_meets (fun _ _ _ hs hok hstep => sound_step hs hok hstep) sound_init hok hrun

/-! ## Out of time -/

/-- A call behind the loop returns what can be read. -/
theorem run_of_left {s : State τ α} {tid : τ} (h : s.call = some ⟨tid, .left⟩) :
    ∃ es t, Machine.run step s es = some t ∧ t.handled = s.handled ∧
      t.returned = (tid, s.readable) :: s.returned := by
  refine ⟨[.read, .clear, .unlock], { s with
    count := -1, call := none, returned := (tid, s.readable) :: s.returned }, ?_, rfl, rfl⟩
  simp [Machine.run, step, h]

/-- A call that has sent its signal can leave the loop and return what can be read. -/
theorem run_of_sent {s : State τ α} {tid : τ} (h : s.call = some ⟨tid, .sent⟩) :
    ∃ es t, Machine.run step s es = some t ∧ t.handled = s.handled ∧
      t.returned = (tid, s.readable) :: s.returned := by
  have hstep : step s .timeout = some { s with call := some ⟨tid, .left⟩ } := by simp [step, h]
  obtain ⟨es, t, hrun, ht⟩ := run_of_left (s := { s with call := some ⟨tid, .left⟩ }) rfl
  exact ⟨.timeout :: es, t, Machine.run_cons.mpr ⟨_, hstep, hrun⟩, ht⟩

theorem run_of_armed {s : State τ α} {tid : τ} (h : s.call = some ⟨tid, .armed⟩) :
    ∃ es t, Machine.run step s es = some t ∧ t.handled = s.handled ∧
      t.returned = (tid, s.readable) :: s.returned := by
  have hstep : step s .send =
      some { s with pending := tid :: s.pending, call := some ⟨tid, .sent⟩ } := by simp [step, h]
  obtain ⟨es, t, hrun, ht⟩ := run_of_sent
    (s := { s with pending := tid :: s.pending, call := some ⟨tid, .sent⟩ }) rfl
  exact ⟨.send :: es, t, Machine.run_cons.mpr ⟨_, hstep, hrun⟩, ht⟩

/-- Behind a handler that runs out of time the call can return its trace. -/
theorem misattributed {s s' : State τ α} {e : Event τ α} (hstep : step s e = some s')
    (hok : ¬ InTime s e) :
    ∃ es t, Machine.run step s' es = some t ∧ ∃ r ∈ t.returned, ¬ Attributed t.handled r.1 r.2 := by
  cases e with
  | handle u trace =>
    simp only [step] at hstep
    split_ifs at hstep
    obtain rfl := Option.some.inj hstep
    -- the call is between the reset of the count and the reading
    obtain ⟨tid, hstage, hbad⟩ : ∃ tid, (s.call = some ⟨tid, .armed⟩ ∨
        s.call = some ⟨tid, .sent⟩ ∨ s.call = some ⟨tid, .left⟩) ∧
        ¬ (u = tid ∨ Attributed s.handled tid trace) := by
      simp only [InTime] at hok
      split at hok
      · exact ⟨_, by tauto, hok⟩
      · exact ⟨_, by tauto, hok⟩
      · exact ⟨_, by tauto, hok⟩
      · exact absurd trivial hok
    have hwrong : ¬ Attributed ((u, trace) :: s.handled) tid trace := by
      rintro (rfl | hmem)
      · exact hbad (.inr (.inl rfl))
      · rcases List.mem_cons.mp hmem with heq | hmem
        · exact hbad (.inl (Prod.ext_iff.mp heq).1.symm)
        · exact hbad (.inr (.inr hmem))
    set s' : State τ α := { s with
      count := trace.length, buffer := trace ++ s.buffer.drop trace.length,
      pending := s.pending.erase u, handled := (u, trace) :: s.handled } with hs'
    have hread : s'.readable = trace := readable_handle _ _ _ _ _ _
    have hcall : s'.call = s.call := rfl
    obtain ⟨es, t, hrun, hhandled, hreturned⟩ : ∃ es t, Machine.run step s' es = some t ∧
        t.handled = s'.handled ∧ t.returned = (tid, s'.readable) :: s'.returned := by
      rcases hstage with h | h | h
      · exact run_of_armed h
      · exact run_of_sent h
      · exact run_of_left h
    refine ⟨es, t, hrun, (tid, trace), by rw [hreturned, hread]; simp, ?_⟩
    rw [hhandled]
    exact hwrong
  | _ => exact absurd trivial hok

/-- Every call returns an empty trace or one taken in the thread it asked for, in every
    run in which the handlers that run between the reset of the count and the reading
    are those of this thread. A run that is in time up to its last step can be continued
    so that a call returns a trace of another thread. -/
theorem backtrace_thread_attribution :
    (∀ (es : List (Event τ α)) (s : State τ α), Machine.Meets step InTime (.init τ α) es →
      Machine.run step (.init τ α) es = some s →
      ∀ r ∈ s.returned, r.2 = [] ∨ (r.1, r.2) ∈ s.handled) ∧
    (∀ (es : List (Event τ α)) (e : Event τ α) (s s' : State τ α),
      Machine.Meets step InTime (.init τ α) es → Machine.run step (.init τ α) es = some s →
      step s e = some s' → ¬ InTime s e →
      ∃ fs t, Machine.run step (.init τ α) (es ++ e :: fs) = some t ∧
        ∃ r ∈ t.returned, ¬ (r.2 = [] ∨ (r.1, r.2) ∈ t.handled)) := by
  constructor
  · intro es s hok hrun
    exact (sound_run hok hrun).returned
  · intro es e s s' _ hrun hstep hbad
    obtain ⟨fs, t, hfs, r, hr, hwrong⟩ := misattributed hstep hbad
    exact ⟨fs, t, Machine.run_append_cons hrun hstep hfs, r, hr, hwrong⟩

/-- A handler that comes after its request has given up does no harm before the next
    request. -/
theorem backtrace_thread_attribution_late :
    ∃ s : State ℕ ℕ, Machine.run step (.init ℕ ℕ)
        [.lock 0 1, .arm, .send, .timeout, .read, .clear, .unlock, .handle 1 [77],
          .lock 0 2, .arm, .send, .handle 2 [88], .changed, .read, .clear, .unlock] = some s ∧
      ∀ r ∈ s.returned, r.2 = [] ∨ (r.1, r.2) ∈ s.handled := by
  refine ⟨_, rfl, backtrace_thread_attribution.1
    [.lock 0 1, .arm, .send, .timeout, .read, .clear, .unlock, .handle 1 [77],
      .lock 0 2, .arm, .send, .handle 2 [88], .changed, .read, .clear, .unlock] _ ?_ rfl⟩
  simp [Machine.Meets, InTime, step, State.init]

/-- Thread 0 asks for the trace of thread 1 and gives up, then for that of thread 2.
    The handler of the first request runs while it waits. -/
theorem backtrace_thread_late_handler :
    ¬ ∀ (es : List (Event ℕ ℕ)) (s : State ℕ ℕ), Machine.run step (.init ℕ ℕ) es = some s →
      ∀ r ∈ s.returned, r.2 = [] ∨ (r.1, r.2) ∈ s.handled := by
  intro h
  have hlate := h [.lock 0 1, .arm, .send, .timeout, .read, .clear, .unlock,
    .lock 0 2, .arm, .send, .handle 1 [77], .changed, .read, .clear, .unlock] _ rfl (2, [77])
  revert hlate
  decide

end StackTrace.Attribution
