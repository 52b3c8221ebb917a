import StackTrace.Base.Machine

/-!
# The error handlers of communicators

`StackTrace.cpp`, lines 1654–1700, and `Utilities.cpp`, lines 171–188, of a build with MPI.
`setMPIErrorHandler` creates one handler, which throws, and gives it to any number of
communicators; `clearMPIErrorHandler` frees this handler, whichever communicators still have
it, and makes the errors of its own communicator fatal. Both do nothing before `MPI_Init`
and behind `MPI_Finalize`.

* `handlers_decided`: after any calls every handler but that of `mpierr` is freed, once, no
  call has got one that is freed, and the last call about a communicator decides what its
  errors do.
-/

namespace StackTrace.MpiErrors

/-! ## Model -/

inductive Comm where
  | MPI_COMM_WORLD
  | MPI_COMM_SELF
  | other (k : ℕ)
deriving DecidableEq

/-- What an error of a communicator calls. -/
inductive Errhandler where
  | MPI_ERRORS_ARE_FATAL
  /-- `MPI_error_handler_fun`, through the `k`-th handler that was created -/
  | created (k : ℕ)
  /-- a handler of the application -/
  | application (k : ℕ)
deriving DecidableEq

/-- How far MPI is. -/
inductive Phase where
  | before
  | running
  | after
deriving DecidableEq

/-- The handlers of MPI, and `mpierr`. A communicator keeps its handler when this is freed. -/
structure State where
  phase : Phase
  mpierr : Option ℕ
  created : ℕ
  /-- how often `MPI_Errhandler_free` has got the `k`-th handler -/
  freed : ℕ → ℕ
  errhandler : Comm → Errhandler
  /-- a call has got a handler that is freed, or came while MPI was not running -/
  misused : Bool

def State.init (d : Comm → Errhandler) : State :=
  { phase := .before, mpierr := none, created := 0, freed := fun _ => 0, errhandler := d,
    misused := false }

namespace State

variable (s : State)

/-- `MPI_Initialized()` (lines 1655–1661). -/
def MPI_Initialized : Bool := s.phase ≠ .before ∧ s.phase ≠ .after

/-- `MPI_Comm_create_errhandler( MPI_error_handler_fun, mpierr.get() )`. -/
def createErrhandler : State :=
  { s with
    mpierr := some s.created
    created := s.created + 1
    misused := s.misused || !s.MPI_Initialized }

/-- `MPI_Errhandler_free`. -/
def freeErrhandler (k : ℕ) : State :=
  { s with
    freed := Function.update s.freed k (s.freed k + 1)
    misused := s.misused || !s.MPI_Initialized || s.freed k ≠ 0 }

/-- Whether a handler may be handed to MPI. -/
def valid : Errhandler → Bool
  | .created k => k < s.created ∧ s.freed k = 0
  | _ => true

/-- `MPI_Comm_set_errhandler`. -/
def setErrhandler (comm : Comm) (handler : Errhandler) : State :=
  { s with
    errhandler := Function.update s.errhandler comm handler
    misused := s.misused || !s.MPI_Initialized || !s.valid handler }

end State

/-- `setMPIErrorHandler` (lines 1681–1690). -/
def setMPIErrorHandler (s : State) (comm : Comm) : State :=
  if !s.MPI_Initialized then s
  else
    match s.mpierr with
    | none => s.createErrhandler.setErrhandler comm (.created s.created)
    | some k => s.setErrhandler comm (.created k)

/-- `clearMPIErrorHandler` (lines 1691–1699). -/
def clearMPIErrorHandler (s : State) (comm : Comm) : State :=
  if !s.MPI_Initialized then s
  else
    let s := match s.mpierr with
      | none => s
      | some k => s.freeErrhandler k
    { s with mpierr := none }.setErrhandler comm .MPI_ERRORS_ARE_FATAL

/-- `setErrorHandlers` (`Utilities.cpp`, lines 171–181), as far as it concerns MPI. -/
def setErrorHandlers (s : State) : State :=
  setMPIErrorHandler (setMPIErrorHandler s .MPI_COMM_WORLD) .MPI_COMM_SELF

/-- `clearErrorHandlers` (`Utilities.cpp`, lines 182–188). -/
def clearErrorHandlers (s : State) : State :=
  clearMPIErrorHandler (clearMPIErrorHandler s .MPI_COMM_WORLD) .MPI_COMM_SELF

/-- A call, of the application or of one of these functions. -/
inductive Event where
  | MPI_Init
  | MPI_Finalize
  /-- `MPI_Comm_set_errhandler` in the application -/
  | application (comm : Comm) (k : ℕ)
  | setMPIErrorHandler (comm : Comm)
  | clearMPIErrorHandler (comm : Comm)
  | setErrorHandlers
  | clearErrorHandlers

/-- One call. The application does not use MPI where it is not running. -/
def step (s : State) : Event → Option State
  | .MPI_Init => if s.phase = .before then some { s with phase := .running } else none
  | .MPI_Finalize => if s.phase = .running then some { s with phase := .after } else none
  | .application comm k =>
    if s.phase = .running then some (s.setErrhandler comm (.application k)) else none
  | .setMPIErrorHandler comm => some (setMPIErrorHandler s comm)
  | .clearMPIErrorHandler comm => some (clearMPIErrorHandler s comm)
  | .setErrorHandlers => some (setErrorHandlers s)
  | .clearErrorHandlers => some (clearErrorHandlers s)

/-! ## What happens to one communicator -/

/-- What a call does about one communicator. -/
inductive Touch where
  | set
  | clear
  | application (k : ℕ)
deriving DecidableEq

/-- The communicators that a call is about. -/
def Event.touches : Event → List (Comm × Touch)
  | .MPI_Init | .MPI_Finalize => []
  | .application comm k => [(comm, .application k)]
  | .setMPIErrorHandler comm => [(comm, .set)]
  | .clearMPIErrorHandler comm => [(comm, .clear)]
  | .setErrorHandlers => [(.MPI_COMM_WORLD, .set), (.MPI_COMM_SELF, .set)]
  | .clearErrorHandlers => [(.MPI_COMM_WORLD, .clear), (.MPI_COMM_SELF, .clear)]

/-- What the calls are about that come while MPI is running. -/
def touches : Phase → List Event → List (Comm × Touch)
  | _, [] => []
  | _, .MPI_Init :: es => touches .running es
  | _, .MPI_Finalize :: es => touches .after es
  | p, e :: es => (if p = .running then e.touches else []) ++ touches p es

/-- The last of them about `comm`. -/
def lastTouch (comm : Comm) (ts : List (Comm × Touch)) : Option Touch :=
  (ts.filter fun t => t.1 = comm).getLast?.map Prod.snd

/-- What the last touch makes of a handler that was `d` at first. -/
def Decided (created : ℕ) (d : Errhandler) : Option Touch → Errhandler → Prop
  | none, handler => handler = d
  | some .set, handler => ∃ k < created, handler = .created k
  | some .clear, handler => handler = .MPI_ERRORS_ARE_FATAL
  | some (.application k), handler => handler = .application k

theorem lastTouch_concat (comm : Comm) (ts : List (Comm × Touch)) (t : Comm × Touch) :
    lastTouch comm (ts ++ [t]) = if t.1 = comm then some t.2 else lastTouch comm ts := by
  unfold lastTouch
  rw [List.filter_append]
  split_ifs with h <;> simp [h]

theorem Decided.mono {m n : ℕ} {d handler : Errhandler} {t : Option Touch} (hmn : m ≤ n)
    (h : Decided m d t handler) : Decided n d t handler := by
  match t with
  | some .set =>
    obtain ⟨k, hk, rfl⟩ := h
    exact ⟨k, hk.trans_le hmn, rfl⟩
  | none | some .clear | some (.application k) => exact h

/-! ## One touch -/

def touch (s : State) : Comm × Touch → State
  | (comm, .set) => setMPIErrorHandler s comm
  | (comm, .clear) => clearMPIErrorHandler s comm
  | (comm, .application k) => s.setErrhandler comm (.application k)

/-- What the touches leave. -/
structure Tracks (d : Comm → Errhandler) (ts : List (Comm × Touch)) (s : State) : Prop where
  misused : s.misused = false
  mpierr : ∀ k, s.mpierr = some k → k < s.created
  freed : ∀ k, s.freed k = if k < s.created ∧ s.mpierr ≠ some k then 1 else 0
  errhandler : ∀ comm, Decided s.created (d comm) (lastTouch comm ts) (s.errhandler comm)

section touches

variable {d : Comm → Errhandler} {ts : List (Comm × Touch)} {s s' : State}

theorem tracks_init (d : Comm → Errhandler) : Tracks d [] (.init d) where
  misused := rfl
  mpierr := fun _ h => absurd h (by simp [State.init])
  freed := fun k => by simp [State.init]
  errhandler := fun _ => rfl

theorem initialized_iff : s.MPI_Initialized = true ↔ s.phase = .running := by
  unfold State.MPI_Initialized
  cases s.phase <;> decide

/-- The last touch of one more list decides the communicator it is about. -/
theorem decided_update {created created' : ℕ} (hle : created ≤ created')
    (h : ∀ comm, Decided created (d comm) (lastTouch comm ts) (s.errhandler comm)) {comm : Comm}
    {t : Touch} {handler : Errhandler} (ht : Decided created' (d comm) (some t) handler)
    (comm' : Comm) :
    Decided created' (d comm') (lastTouch comm' (ts ++ [(comm, t)]))
      (Function.update s.errhandler comm handler comm') := by
  rw [lastTouch_concat]
  by_cases hc : comm = comm'
  · subst hc
    rwa [if_pos rfl, Function.update_self]
  · rw [if_neg hc, Function.update_of_ne (Ne.symm hc)]
    exact (h comm').mono hle

theorem tracks_set (h : Tracks d ts s) (hrunning : s.phase = .running) (comm : Comm) :
    Tracks d (ts ++ [(comm, .set)]) (setMPIErrorHandler s comm) := by
  have hinit : s.MPI_Initialized = true := initialized_iff.mpr hrunning
  unfold setMPIErrorHandler
  rw [if_neg (by simp [hinit])]
  cases hmpierr : s.mpierr with
  | none =>
    -- a new handler, the only one that is not freed
    have hnew : s.freed s.created = 0 := by
      rw [h.freed, if_neg (by omega)]
    refine ⟨?_, ?_, fun k => ?_, ?_⟩
    · have hvalid : s.createErrhandler.valid (.created s.created) = true := by
        simp [State.valid, State.createErrhandler, hnew]
      show (s.misused || !s.MPI_Initialized || !s.MPI_Initialized ||
        !s.createErrhandler.valid (.created s.created)) = false
      simp [h.misused, hinit, hvalid]
    · rintro k hk
      obtain rfl := Option.some.inj hk
      exact Nat.lt_succ_self _
    · show s.freed k = if k < s.created + 1 ∧ some s.created ≠ some k then 1 else 0
      rw [h.freed, hmpierr]
      by_cases hk : k = s.created
      · rw [if_neg (by omega), if_neg (by simp [hk])]
      · have hiff : (k < s.created ∧ (none : Option ℕ) ≠ some k) ↔
            (k < s.created + 1 ∧ some s.created ≠ some k) := by
          simp [Ne.symm hk]
          omega
        simp only [hiff]
    · exact decided_update (Nat.le_succ _) h.errhandler ⟨s.created, Nat.lt_succ_self _, rfl⟩
  | some k =>
    have hvalid : s.valid (.created k) = true := by
      simp [State.valid, h.freed, h.mpierr k hmpierr, hmpierr]
    refine ⟨?_, ?_, ?_, ?_⟩
    · simp [State.setErrhandler, h.misused, hinit, hvalid]
    · exact h.mpierr
    · exact h.freed
    · exact decided_update le_rfl h.errhandler ⟨k, h.mpierr k hmpierr, rfl⟩

theorem tracks_clear (h : Tracks d ts s) (hrunning : s.phase = .running) (comm : Comm) :
    Tracks d (ts ++ [(comm, .clear)]) (clearMPIErrorHandler s comm) := by
  have hinit : s.MPI_Initialized = true := initialized_iff.mpr hrunning
  unfold clearMPIErrorHandler
  rw [if_neg (by simp [hinit])]
  cases hmpierr : s.mpierr with
  | none =>
    refine ⟨?_, fun k hk => absurd hk (by simp [State.setErrhandler]), fun k => ?_, ?_⟩
    · show (s.misused || !s.MPI_Initialized || !true) = false
      simp [h.misused, hinit]
    · show s.freed k = if k < s.created ∧ none ≠ some k then 1 else 0
      rw [h.freed, hmpierr]
    · exact decided_update le_rfl h.errhandler rfl
  | some j =>
    -- the only handler that was not freed
    have hfreed : s.freed j = 0 := by rw [h.freed, if_neg (by simp [hmpierr])]
    have hj := h.mpierr j hmpierr
    refine ⟨?_, fun k hk => absurd hk (by simp [State.setErrhandler]), fun k => ?_, ?_⟩
    · show (s.misused || !s.MPI_Initialized || decide (s.freed j ≠ 0) || !s.MPI_Initialized ||
        !true) = false
      simp [h.misused, hinit, hfreed]
    · show Function.update s.freed j (s.freed j + 1) k =
        if k < s.created ∧ none ≠ some k then 1 else 0
      by_cases hk : k = j
      · subst hk
        rw [Function.update_self, hfreed, if_pos ⟨hj, by simp⟩]
      · rw [Function.update_of_ne hk, h.freed, hmpierr]
        simp [Ne.symm hk]
    · exact decided_update le_rfl h.errhandler rfl

theorem tracks_touch (h : Tracks d ts s) (hrunning : s.phase = .running) (t : Comm × Touch) :
    Tracks d (ts ++ [t]) (touch s t) := by
  obtain ⟨comm, t⟩ := t
  cases t with
  | set => exact tracks_set h hrunning comm
  | clear => exact tracks_clear h hrunning comm
  | application k =>
    have hinit : s.MPI_Initialized = true := initialized_iff.mpr hrunning
    refine ⟨?_, h.mpierr, h.freed, ?_⟩
    · simp [touch, State.setErrhandler, h.misused, hinit, State.valid]
    · exact decided_update le_rfl h.errhandler rfl

theorem phase_touch (s : State) (t : Comm × Touch) : (touch s t).phase = s.phase := by
  obtain ⟨comm, t⟩ := t
  cases t with
  | set =>
    simp only [touch, setMPIErrorHandler]
    split_ifs
    · rfl
    · cases s.mpierr <;> rfl
  | clear =>
    simp only [touch, clearMPIErrorHandler]
    split_ifs
    · rfl
    · cases s.mpierr <;> rfl
  | application k => rfl

theorem tracks_foldl (h : Tracks d ts s) (hrunning : s.phase = .running)
    (us : List (Comm × Touch)) :
    Tracks d (ts ++ us) (us.foldl touch s) ∧ (us.foldl touch s).phase = s.phase := by
  induction us generalizing ts s with
  | nil => simpa using h
  | cons t us ih =>
    have hphase := phase_touch s t
    obtain ⟨htracks, hlast⟩ := ih (tracks_touch h hrunning t) (hphase.trans hrunning)
    rw [List.append_assoc, List.singleton_append] at htracks
    exact ⟨htracks, hlast.trans hphase⟩

/-- Where MPI is not running, none of the functions does anything. -/
theorem step_idle (hidle : s.phase ≠ .running) {e : Event} (hinit : e ≠ .MPI_Init)
    (hstep : step s e = some s') : s' = s := by
  have hnot : s.MPI_Initialized = false :=
    Bool.eq_false_of_not_eq_true fun h => hidle (initialized_iff.mp h)
  have hset (comm : Comm) : setMPIErrorHandler s comm = s := by
    unfold setMPIErrorHandler
    rw [if_pos (by simp [hnot])]
  have hclear (comm : Comm) : clearMPIErrorHandler s comm = s := by
    unfold clearMPIErrorHandler
    rw [if_pos (by simp [hnot])]
  cases e with
  | MPI_Init => exact absurd rfl hinit
  | MPI_Finalize | application => exact absurd hstep (by simp [step, hidle])
  | setMPIErrorHandler comm => exact (Option.some.inj hstep).symm.trans (hset comm)
  | clearMPIErrorHandler comm => exact (Option.some.inj hstep).symm.trans (hclear comm)
  | setErrorHandlers =>
    obtain rfl := Option.some.inj hstep
    rw [setErrorHandlers, hset, hset]
  | clearErrorHandlers =>
    obtain rfl := Option.some.inj hstep
    rw [clearErrorHandlers, hclear, hclear]

/-- Where MPI is running, a call is its touches. -/
theorem step_running (hrunning : s.phase = .running) {e : Event} (hfinal : e ≠ .MPI_Finalize)
    (hstep : step s e = some s') : s' = e.touches.foldl touch s := by
  cases e with
  | MPI_Init => exact absurd hstep (by simp [step, hrunning])
  | MPI_Finalize => exact absurd rfl hfinal
  | application comm k =>
    rw [step, if_pos hrunning] at hstep
    exact (Option.some.inj hstep).symm
  | setMPIErrorHandler | clearMPIErrorHandler | setErrorHandlers | clearErrorHandlers =>
    exact (Option.some.inj hstep).symm

theorem tracks_step (h : Tracks d ts s) {e : Event} (es : List Event)
    (hstep : step s e = some s') :
    ∃ us, Tracks d (ts ++ us) s' ∧ touches s.phase (e :: es) = us ++ touches s'.phase es := by
  by_cases hchange : e = .MPI_Init ∨ e = .MPI_Finalize
  · refine ⟨[], ?_⟩
    rw [List.append_nil, List.nil_append]
    rcases hchange with rfl | rfl
    · simp only [step] at hstep
      split_ifs at hstep
      obtain rfl := Option.some.inj hstep
      exact ⟨⟨h.misused, h.mpierr, h.freed, h.errhandler⟩, rfl⟩
    · simp only [step] at hstep
      split_ifs at hstep
      obtain rfl := Option.some.inj hstep
      exact ⟨⟨h.misused, h.mpierr, h.freed, h.errhandler⟩, rfl⟩
  · obtain ⟨hinit, hfinal⟩ := not_or.mp hchange
    have htouches : touches s.phase (e :: es) =
        (if s.phase = .running then e.touches else []) ++ touches s.phase es := by
      cases e with
      | MPI_Init => exact absurd rfl hinit
      | MPI_Finalize => exact absurd rfl hfinal
      | _ => simp only [touches]
    by_cases hrunning : s.phase = .running
    · obtain rfl := step_running hrunning hfinal hstep
      obtain ⟨htracks, hphase⟩ := tracks_foldl h hrunning e.touches
      exact ⟨e.touches, htracks, by rw [htouches, if_pos hrunning, hphase]⟩
    · obtain rfl := step_idle hrunning hinit hstep
      exact ⟨[], by rwa [List.append_nil], by rw [htouches, if_neg hrunning]⟩

end touches

/-! ## Main result -/

theorem tracks_run {d : Comm → Errhandler} {ts : List (Comm × Touch)} {s t : State}
    (h : Tracks d ts s) {es : List Event} (hrun : Machine.run step s es = some t) :
    Tracks d (ts ++ touches s.phase es) t := by
  induction es generalizing s ts with
  | nil =>
    obtain rfl := Option.some.inj hrun
    simpa [touches] using h
  | cons e es ih =>
    obtain ⟨s', hstep, hrun⟩ := Machine.run_cons.mp hrun
    obtain ⟨us, hs', heq⟩ := tracks_step h es hstep
    rw [heq, ← List.append_assoc]
    exact ih hs' hrun

/-- In every sequence of calls no call of MPI gets a handler that is freed or comes while MPI
    is not running. All handlers that were created are freed, once each, but the one that
    `mpierr` has. The last call about a communicator while MPI is running decides whether
    its errors are thrown, are fatal, or go to the application. -/
theorem handlers_decided (d : Comm → Errhandler) (es : List Event) (s : State)
    (hrun : Machine.run step (.init d) es = some s) :
    s.misused = false ∧
      (∀ k < s.created, s.freed k = if s.mpierr = some k then 0 else 1) ∧
      ∀ comm, Decided s.created (d comm) (lastTouch comm (touches .before es))
        (s.errhandler comm) := by
  have h := tracks_run (tracks_init d) hrun
  refine ⟨h.misused, fun k hk => ?_, h.errhandler⟩
  rw [h.freed]
  by_cases hmpierr : s.mpierr = some k <;> simp [hk, hmpierr]

/-- The errors of `MPI_COMM_SELF` are still thrown when the handler is freed. -/
theorem handlers_decided_self :
    ∃ s, Machine.run step (.init fun _ => .MPI_ERRORS_ARE_FATAL)
        [.MPI_Init, .setErrorHandlers, .clearMPIErrorHandler .MPI_COMM_WORLD] = some s ∧
      (∃ k < s.created, s.errhandler .MPI_COMM_SELF = .created k) ∧
      s.errhandler .MPI_COMM_WORLD = .MPI_ERRORS_ARE_FATAL :=
  have h := handlers_decided (fun _ => .MPI_ERRORS_ARE_FATAL)
    [.MPI_Init, .setErrorHandlers, .clearMPIErrorHandler .MPI_COMM_WORLD] _ rfl
  ⟨_, rfl, h.2.2 .MPI_COMM_SELF, h.2.2 .MPI_COMM_WORLD⟩

end StackTrace.MpiErrors
