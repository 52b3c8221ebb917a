import StackTrace.Base.Machine

/-!
# Which signals are caught

`StackTrace.cpp`, lines 1509–1547 and 1594–1648. `signals_set` remembers for which signals
a handler was installed, so that `clearSignals()` and `clearErrorHandler` can put back the
default action. An index outside its 256 entries is out of bounds; `signal` may refuse a
signal and then leaves its disposition as it is, and `signals_set` does not see this.

* `run_tracked`: the functions stay inside `signals_set` if and only if every signal they
  are called with is one of 0 to 255, and then the last call about a signal decides what
  is installed for it, and the last call about the error handler what terminates the program.
* `setErrorHandler_default`: `setErrorHandler` with the default list catches the signals
  of this list and no others, and `clearErrorHandler` undoes it.
-/

namespace StackTrace.ErrorHandler

/-! ## Model -/

/-- What `signal` can install. -/
inductive Handler where
  | SIG_DFL
  | SIG_IGN
  | terminateFunctionSignal
  /-- a handler of the program -/
  | other (f : ℕ)
deriving DecidableEq

/-- The argument of `std::set_terminate`. -/
inductive Terminate where
  /-- what the program begins with -/
  | initial
  | term_func
  | null_term_func
deriving DecidableEq

/-- What `abort_fun` can have. -/
inductive AbortFun where
  /-- no function: a call throws `std::bad_function_call` -/
  | empty
  /-- a function of the program -/
  | function (f : ℕ)
  /-- the lambda of line 1644 -/
  | nothing
deriving DecidableEq

/-- The dispositions of the process, `signals_set`, the terminate handler and `abort_fun`. -/
structure State where
  disposition : ℤ → Handler
  signals_set : ℤ → Bool
  terminate : Terminate
  abort_fun : AbortFun

/-- The start of the program. -/
def State.init (disposition : ℤ → Handler) : State :=
  ⟨disposition, fun _ => false, .initial, .empty⟩

variable (catchable : ℤ → Bool)

/-- `signal( sig, handler )`, which refuses what is not `catchable`. -/
def signal (s : State) (sig : ℤ) (handler : Handler) : State :=
  if catchable sig then { s with disposition := Function.update s.disposition sig handler } else s

/-- `signals_set[sig] = value`. -/
def State.mark (s : State) (sig : ℤ) (value : Bool) : Option State :=
  if 0 ≤ sig ∧ sig < 256 then
    some { s with signals_set := Function.update s.signals_set sig value }
  else none

/-- Lines 1628–1629. -/
def setOne (handler : Handler) (s : State) (sig : ℤ) : Option State :=
  (signal catchable s sig handler).mark sig true

/-- Lines 1612–1613. -/
def resetOne (s : State) (sig : ℤ) : Option State :=
  (signal catchable s sig .SIG_DFL).mark sig false

/-- `clearSignal` (lines 1602–1608), and the loop body of lines 1619–1622. -/
def clearSignal (s : State) (sig : ℤ) : Option State :=
  if 0 ≤ sig ∧ sig < 256 then
    if s.signals_set sig then resetOne catchable s sig else some s
  else none

/-- `setSignals` (lines 1625–1632). -/
def setSignals (s : State) (signals : List ℤ) (handler : Handler) : Option State :=
  signals.foldlM (setOne catchable handler) s

/-- `clearSignals( signals )` (lines 1609–1615). -/
def clearSignals (s : State) (signals : List ℤ) : Option State :=
  signals.foldlM (resetOne catchable) s

/-- The indices of `signals_set`. -/
def indices : List ℤ := (List.range 256).map (↑)

/-- `clearSignals()` (lines 1616–1624). -/
def clearAllSignals (s : State) : Option State := indices.foldlM (clearSignal catchable) s

/-- `setErrorHandler` (lines 1634–1641), which takes an empty `abort` too. -/
def setErrorHandler (s : State) (abort : AbortFun) (signals : List ℤ) : Option State :=
  setSignals catchable { s with abort_fun := abort, terminate := .term_func } signals
    .terminateFunctionSignal

/-- `clearErrorHandler` (lines 1642–1648). -/
def clearErrorHandler (s : State) : Option State :=
  clearAllSignals catchable { s with abort_fun := .nothing, terminate := .null_term_func }

/-- A call of one of these functions. -/
inductive Event where
  | setSignals (signals : List ℤ) (handler : Handler)
  | clearSignal (sig : ℤ)
  | clearSignals (signals : List ℤ)
  | clearAllSignals
  | setErrorHandler (abort : AbortFun) (signals : List ℤ)
  | clearErrorHandler

def step (s : State) : Event → Option State
  | .setSignals signals handler => setSignals catchable s signals handler
  | .clearSignal sig => clearSignal catchable s sig
  | .clearSignals signals => clearSignals catchable s signals
  | .clearAllSignals => clearAllSignals catchable s
  | .setErrorHandler abort signals => setErrorHandler catchable s abort signals
  | .clearErrorHandler => clearErrorHandler catchable s

/-- The signals that a call names. -/
def Event.signals : Event → List ℤ
  | .setSignals signals _ => signals
  | .clearSignal sig => [sig]
  | .clearSignals signals => signals
  | .clearAllSignals => []
  | .setErrorHandler _ signals => signals
  | .clearErrorHandler => []

/-- The terminate handler and the `abort_fun` that a call leaves, if it is about them. -/
def Event.handlers : Event → Option (Terminate × AbortFun)
  | .setErrorHandler abort _ => some (.term_func, abort)
  | .clearErrorHandler => some (.null_term_func, .nothing)
  | .setSignals .. | .clearSignal _ | .clearSignals _ | .clearAllSignals => none

/-! ## What happens to one signal -/

/-- What a function does about one signal. -/
inductive Touch where
  | set (handler : Handler)
  /-- back to the default, whatever `signals_set` says -/
  | reset
  /-- back to the default if `signals_set` says so -/
  | clear
deriving DecidableEq

/-- All calls touch signals one after the other. -/
def Event.touches : Event → List (ℤ × Touch)
  | .setSignals signals handler => signals.map fun sig => (sig, .set handler)
  | .clearSignal sig => [(sig, .clear)]
  | .clearSignals signals => signals.map fun sig => (sig, .reset)
  | .clearAllSignals => indices.map fun sig => (sig, .clear)
  | .setErrorHandler _ signals => signals.map fun sig => (sig, .set .terminateFunctionSignal)
  | .clearErrorHandler => indices.map fun sig => (sig, .clear)

/-- What the calls have done about the signal `sig`. -/
def touchesOf (sig : ℤ) (touches : List (ℤ × Touch)) : List Touch :=
  (touches.filter fun t => t.1 = sig).map Prod.snd

/-- The entry of `signals_set` behind these touches. -/
def isSet (ts : List Touch) : Bool :=
  match ts.getLast? with
  | some (.set _) => true
  | _ => false

/-- What is installed behind these touches, for a signal that can be caught. -/
def installed (d : Handler) (ts : List Touch) : Handler :=
  match ts.getLast? with
  | some (.set handler) => handler
  | _ => if ts.any (· ≠ .clear) then .SIG_DFL else d

/-- One touch. -/
def touch (s : State) : ℤ × Touch → Option State
  | (sig, .set handler) => setOne catchable handler s sig
  | (sig, .reset) => resetOne catchable s sig
  | (sig, .clear) => clearSignal catchable s sig

/-- What a call changes besides. -/
def Event.prepare (s : State) : Event → State
  | .setErrorHandler abort _ => { s with abort_fun := abort, terminate := .term_func }
  | .clearErrorHandler => { s with abort_fun := .nothing, terminate := .null_term_func }
  | _ => s

theorem step_eq (s : State) (e : Event) :
    step catchable s e = e.touches.foldlM (touch catchable) (e.prepare s) := by
  cases e with
  | clearSignal sig => simp [step, Event.touches, Event.prepare, touch]
  | setSignals | clearSignals | clearAllSignals | setErrorHandler | clearErrorHandler =>
    simp only [Event.touches, List.foldlM_map]
    rfl

/-! ## The last touch decides -/

theorem touchesOf_concat (sig : ℤ) (ts : List (ℤ × Touch)) (t : ℤ × Touch) :
    touchesOf sig (ts ++ [t]) = touchesOf sig ts ++ if t.1 = sig then [t.2] else [] := by
  unfold touchesOf
  rw [List.filter_append, List.map_append]
  split_ifs with h <;> simp [h]

theorem isSet_concat (ts : List Touch) (t : Touch) :
    isSet (ts ++ [t]) = match t with | .set _ => true | _ => false := by
  unfold isSet
  rw [List.getLast?_concat]
  cases t <;> rfl

theorem installed_concat_set (d : Handler) (ts : List Touch) (handler : Handler) :
    installed d (ts ++ [.set handler]) = handler := by
  unfold installed
  rw [List.getLast?_concat]

theorem installed_concat_reset (d : Handler) (ts : List Touch) :
    installed d (ts ++ [.reset]) = .SIG_DFL := by
  unfold installed
  rw [List.getLast?_concat]
  simp

theorem installed_concat_clear (d : Handler) (ts : List Touch) :
    installed d (ts ++ [.clear]) = if isSet ts then .SIG_DFL else installed d ts := by
  have hany : (ts ++ [Touch.clear]).any (· ≠ .clear) = ts.any (· ≠ .clear) := by simp
  unfold installed isSet
  rw [List.getLast?_concat, hany]
  rcases List.eq_nil_or_concat ts with rfl | ⟨ts, t, rfl⟩
  · rfl
  · rw [List.concat_eq_append, List.getLast?_concat]
    cases t <;> simp

/-- The two tables are what the touches leave. -/
structure Tracks (d : ℤ → Handler) (ts : List (ℤ × Touch)) (s : State) : Prop where
  signals_set : ∀ sig, s.signals_set sig = isSet (touchesOf sig ts)
  disposition : ∀ sig, s.disposition sig =
    if catchable sig then installed (d sig) (touchesOf sig ts) else d sig

/-- A touch of a signal that has an entry. -/
def Within (t : ℤ × Touch) : Prop := 0 ≤ t.1 ∧ t.1 < 256

variable {catchable} {d : ℤ → Handler} {ts : List (ℤ × Touch)} {s s' : State}

theorem tracks_init (d : ℤ → Handler) : Tracks catchable d [] (.init d) where
  signals_set _ := rfl
  disposition sig := by
    split_ifs <;> rfl

theorem touch_eq_none {t : ℤ × Touch} (h : ¬ Within t) : touch catchable s t = none := by
  obtain ⟨sig, t⟩ := t
  have hrange : ¬ (0 ≤ sig ∧ sig < 256) := h
  cases t with
  | set handler => exact if_neg hrange
  | reset => exact if_neg hrange
  | clear => exact if_neg hrange

/-- `signal` and the entry of the signal. -/
theorem write_eq {sig : ℤ} (hsig : 0 ≤ sig ∧ sig < 256) (s : State) (handler : Handler)
    (value : Bool) :
    ∃ s', (signal catchable s sig handler).mark sig value = some s' ∧
      (∀ i, s'.signals_set i = if i = sig then value else s.signals_set i) ∧
      (∀ i, s'.disposition i =
        if i = sig ∧ catchable sig then handler else s.disposition i) ∧
      s'.terminate = s.terminate ∧ s'.abort_fun = s.abort_fun := by
  refine ⟨_, if_pos hsig, fun i => ?_, fun i => ?_, ?_, ?_⟩
  · unfold signal
    split_ifs with hcatch hi hi <;> simp [hi]
  · unfold signal
    split_ifs with hcatch hi hi <;> simp_all
  · unfold signal
    split_ifs <;> rfl
  · unfold signal
    split_ifs <;> rfl

/-- A touch that installs `handler` and writes `value`. -/
theorem tracks_write (h : Tracks catchable d ts s) {sig : ℤ} {t : Touch} {handler : Handler}
    {value : Bool} (hset : ∀ i, s'.signals_set i = if i = sig then value else s.signals_set i)
    (hdisposition : ∀ i, s'.disposition i =
      if i = sig ∧ catchable sig then handler else s.disposition i)
    (hvalue : isSet (touchesOf sig ts ++ [t]) = value)
    (hhandler : installed (d sig) (touchesOf sig ts ++ [t]) = handler) :
    Tracks catchable d (ts ++ [(sig, t)]) s' := by
  constructor
  · intro i
    rw [hset, touchesOf_concat]
    by_cases hi : i = sig
    · subst hi
      simp [hvalue]
    · simp [hi, Ne.symm hi, h.signals_set]
  · intro i
    rw [hdisposition, touchesOf_concat]
    by_cases hi : i = sig
    · subst hi
      by_cases hcatch : catchable i
      · simp [hcatch, hhandler]
      · simpa [hcatch] using h.disposition i
    · simpa [hi, Ne.symm hi] using h.disposition i

/-- A `clear` of a signal that is not set. -/
theorem tracks_clear (h : Tracks catchable d ts s) {sig : ℤ} (hoff : ¬ s.signals_set sig = true) :
    Tracks catchable d (ts ++ [(sig, .clear)]) s := by
  rw [h.signals_set] at hoff
  constructor
  · intro i
    rw [h.signals_set, touchesOf_concat]
    by_cases hi : sig = i
    · subst hi
      have hclear : isSet (touchesOf sig ts ++ [.clear]) = false := isSet_concat _ _
      rw [if_pos rfl, hclear, Bool.eq_false_of_not_eq_true hoff]
    · rw [if_neg hi, List.append_nil]
  · intro i
    rw [h.disposition, touchesOf_concat]
    by_cases hi : sig = i
    · subst hi
      rw [if_pos rfl, installed_concat_clear, if_neg hoff]
    · rw [if_neg hi, List.append_nil]

theorem tracks_touch (h : Tracks catchable d ts s) {t : ℤ × Touch} (ht : Within t) :
    ∃ s', touch catchable s t = some s' ∧ Tracks catchable d (ts ++ [t]) s' ∧
      s'.terminate = s.terminate ∧ s'.abort_fun = s.abort_fun := by
  obtain ⟨sig, t⟩ := t
  have hsig : 0 ≤ sig ∧ sig < 256 := ht
  have write (handler : Handler) (value : Bool) := @write_eq catchable sig hsig s handler value
  cases t with
  | set handler =>
    obtain ⟨s', hs', hset, hdisposition, hrest⟩ := write handler true
    have hvalue : isSet (touchesOf sig ts ++ [.set handler]) = true := isSet_concat _ _
    exact ⟨s', hs', tracks_write h hset hdisposition hvalue (installed_concat_set _ _ _), hrest⟩
  | reset =>
    obtain ⟨s', hs', hset, hdisposition, hrest⟩ := write .SIG_DFL false
    have hvalue : isSet (touchesOf sig ts ++ [.reset]) = false := isSet_concat _ _
    exact ⟨s', hs', tracks_write h hset hdisposition hvalue (installed_concat_reset _ _), hrest⟩
  | clear =>
    have hone (u : State) (hu : (if s.signals_set sig = true then resetOne catchable s sig
        else some s) = some u) : touch catchable s (sig, .clear) = some u :=
      (if_pos hsig).trans hu
    by_cases hon : s.signals_set sig = true
    · obtain ⟨s', hs', hset, hdisposition, hrest⟩ := write .SIG_DFL false
      have hvalue : isSet (touchesOf sig ts ++ [.clear]) = false := isSet_concat _ _
      refine ⟨s', hone s' ((if_pos hon).trans hs'), ?_, hrest⟩
      refine tracks_write h hset hdisposition hvalue ?_
      rw [installed_concat_clear, ← h.signals_set, if_pos hon]
    · exact ⟨s, hone s (if_neg hon), tracks_clear h hon, rfl, rfl⟩

/-! ## Calls -/

/-- Touches one after the other, all of them of signals that have an entry. -/
theorem tracks_touches (h : Tracks catchable d ts s) {us : List (ℤ × Touch)}
    (hus : ∀ t ∈ us, Within t) :
    ∃ s', us.foldlM (touch catchable) s = some s' ∧ Tracks catchable d (ts ++ us) s' ∧
      s'.terminate = s.terminate ∧ s'.abort_fun = s.abort_fun := by
  induction us generalizing s ts with
  | nil => exact ⟨s, rfl, by rwa [List.append_nil], rfl, rfl⟩
  | cons t us ih =>
    obtain ⟨ht, hus⟩ := List.forall_mem_cons.mp hus
    obtain ⟨s₁, hs₁, htracks, hterminate, habort⟩ := tracks_touch h ht
    obtain ⟨s₂, hs₂, htracks, hterminate₂, habort₂⟩ := ih htracks hus
    refine ⟨s₂, ?_, ?_, hterminate₂.trans hterminate, habort₂.trans habort⟩
    · rw [List.foldlM_cons, hs₁]
      exact hs₂
    · rwa [List.append_cons]

theorem touches_eq_none {us : List (ℤ × Touch)} (h : ¬ ∀ t ∈ us, Within t) :
    us.foldlM (touch catchable) s = none := by
  induction us generalizing s with
  | nil => exact absurd (by simp) h
  | cons t us ih =>
    rw [List.foldlM_cons]
    by_cases ht : Within t
    · have hus : ¬ ∀ t ∈ us, Within t := fun hus => h (List.forall_mem_cons.mpr ⟨ht, hus⟩)
      rcases touch catchable s t with _ | s'
      · rfl
      · exact ih hus
    · rw [touch_eq_none ht]
      rfl

theorem mem_indices {i : ℤ} : i ∈ indices ↔ 0 ≤ i ∧ i < 256 := by
  unfold indices
  rw [List.mem_map]
  constructor
  · rintro ⟨n, hn, rfl⟩
    have hlt := List.mem_range.mp hn
    exact ⟨Int.natCast_nonneg n, by exact_mod_cast hlt⟩
  · rintro ⟨hnonneg, hlt⟩
    exact ⟨i.toNat, List.mem_range.mpr (by omega), Int.toNat_of_nonneg hnonneg⟩

theorem within_iff (e : Event) :
    (∀ t ∈ e.touches, Within t) ↔ ∀ sig ∈ e.signals, 0 ≤ sig ∧ sig < 256 := by
  have hall : ∀ t ∈ indices.map fun sig => (sig, Touch.clear), Within t := by
    rintro t ht
    obtain ⟨sig, hsig, rfl⟩ := List.mem_map.mp ht
    exact mem_indices.mp hsig
  cases e with
  | clearAllSignals => exact ⟨fun _ => by simp [Event.signals], fun _ => hall⟩
  | clearErrorHandler => exact ⟨fun _ => by simp [Event.signals], fun _ => hall⟩
  | setSignals | clearSignal | clearSignals | setErrorHandler =>
    simp [Event.touches, Event.signals, Within]

/-- What a call leaves in `abort_fun` and as the terminate handler. -/
theorem tracks_prepare (h : Tracks catchable d ts s) (e : Event) :
    Tracks catchable d ts (e.prepare s) := by
  cases e with
  | setErrorHandler | clearErrorHandler => exact ⟨h.signals_set, h.disposition⟩
  | setSignals | clearSignal | clearSignals | clearAllSignals => exact h

theorem handlers_prepare (s : State) (e : Event) :
    ((e.prepare s).terminate, (e.prepare s).abort_fun) =
      e.handlers.getD (s.terminate, s.abort_fun) := by
  cases e <;> rfl

theorem tracks_step (h : Tracks catchable d ts s) {e : Event}
    (he : ∀ sig ∈ e.signals, 0 ≤ sig ∧ sig < 256) :
    ∃ s', step catchable s e = some s' ∧ Tracks catchable d (ts ++ e.touches) s' ∧
      (s'.terminate, s'.abort_fun) = e.handlers.getD (s.terminate, s.abort_fun) := by
  obtain ⟨s', hs', htracks, hterminate, habort⟩ :=
    tracks_touches (tracks_prepare h e) ((within_iff e).mpr he)
  refine ⟨s', (step_eq catchable s e).trans hs', htracks, ?_⟩
  rw [hterminate, habort, handlers_prepare]

theorem step_eq_none {e : Event} (he : ¬ ∀ sig ∈ e.signals, 0 ≤ sig ∧ sig < 256) :
    step catchable s e = none := by
  rw [step_eq]
  exact touches_eq_none fun h => he ((within_iff e).mp h)

/-- The last call about the terminate handler and `abort_fun` decides. -/
theorem tracks_run (h : Tracks catchable d ts s) {es : List Event}
    (hes : ∀ e ∈ es, ∀ sig ∈ e.signals, 0 ≤ sig ∧ sig < 256) :
    ∃ s', Machine.run (step catchable) s es = some s' ∧
      Tracks catchable d (ts ++ es.flatMap Event.touches) s' ∧
      (s'.terminate, s'.abort_fun) =
        (es.filterMap Event.handlers).getLast?.getD (s.terminate, s.abort_fun) := by
  induction es generalizing s ts with
  | nil => exact ⟨s, rfl, by simpa using h, rfl⟩
  | cons e es ih =>
    obtain ⟨he, hes⟩ := List.forall_mem_cons.mp hes
    obtain ⟨s₁, hs₁, htracks, hhandlers⟩ := tracks_step h he
    obtain ⟨s₂, hs₂, htracks, hlast⟩ := ih htracks hes
    refine ⟨s₂, Machine.run_cons.mpr ⟨s₁, hs₁, hs₂⟩, ?_, ?_⟩
    · rwa [List.flatMap_cons, ← List.append_assoc]
    · rw [hlast, hhandlers]
      cases hcall : e.handlers with
      | none => rw [List.filterMap_cons_none hcall, Option.getD_none]
      | some p =>
        rw [List.filterMap_cons_some hcall, List.getLast?_cons, Option.getD_some,
          Option.getD_some]

theorem run_eq_none {es : List Event}
    (hes : ¬ ∀ e ∈ es, ∀ sig ∈ e.signals, 0 ≤ sig ∧ sig < 256) :
    Machine.run (step catchable) s es = none := by
  induction es generalizing s with
  | nil => exact absurd (by simp) hes
  | cons e es ih =>
    unfold Machine.run
    by_cases he : ∀ sig ∈ e.signals, 0 ≤ sig ∧ sig < 256
    · have hrest : ¬ ∀ e ∈ es, ∀ sig ∈ e.signals, 0 ≤ sig ∧ sig < 256 := fun h =>
        hes (List.forall_mem_cons.mpr ⟨he, h⟩)
      rcases step catchable s e with _ | s'
      · rfl
      · exact ih hrest
    · rw [step_eq_none he]
      rfl

theorem within_of_run {es : List Event} (hrun : Machine.run (step catchable) s es = some s') :
    ∀ e ∈ es, ∀ sig ∈ e.signals, 0 ≤ sig ∧ sig < 256 := by
  by_contra hnot
  rw [run_eq_none hnot] at hrun
  exact absurd hrun (by simp)

/-- Any calls from the start of the program stay inside `signals_set` if and only if the
    signals that they name are all from 0 to 255. Then the last call about a signal
    decides: what `signals_set` says and what is installed are read off it, for every
    signal and whatever `signal` refuses. The last call of `setErrorHandler` or
    `clearErrorHandler` decides about the terminate handler and `abort_fun`: `term_func` has
    no function to call exactly where that call is a `setErrorHandler` with an empty one. -/
theorem run_tracked (catchable : ℤ → Bool) (d : ℤ → Handler) (es : List Event) :
    ((∃ s, Machine.run (step catchable) (.init d) es = some s) ↔
      ∀ e ∈ es, ∀ sig ∈ e.signals, 0 ≤ sig ∧ sig < 256) ∧
    ∀ s, Machine.run (step catchable) (.init d) es = some s →
      (∀ sig, s.signals_set sig = isSet (touchesOf sig (es.flatMap Event.touches)) ∧
        s.disposition sig =
          if catchable sig then installed (d sig) (touchesOf sig (es.flatMap Event.touches))
          else d sig) ∧
      (s.terminate, s.abort_fun) =
        (es.filterMap Event.handlers).getLast?.getD (.initial, .empty) ∧
      (s.terminate = .term_func ∧ s.abort_fun = .empty ↔
        (es.filterMap Event.handlers).getLast? = some (.term_func, .empty)) := by
  refine ⟨⟨fun ⟨s, hs⟩ => within_of_run hs, fun hes => ?_⟩, fun s hs => ?_⟩
  · obtain ⟨s, hs, -⟩ := tracks_run (tracks_init d) hes
    exact ⟨s, hs⟩
  · obtain ⟨s', hs', htracks, hlast⟩ := tracks_run (tracks_init d) (within_of_run hs)
    obtain rfl := Option.some.inj (hs'.symm.trans hs)
    have hlast : (s'.terminate, s'.abort_fun) =
        (es.filterMap Event.handlers).getLast?.getD (.initial, .empty) := hlast
    refine ⟨fun sig => ⟨htracks.signals_set sig, htracks.disposition sig⟩, hlast, ?_⟩
    rw [← Prod.mk.injEq, hlast]
    cases (es.filterMap Event.handlers).getLast? <;> simp

/-! ## The default signals -/

/-- The signals of a platform, and what `signal` accepts there. -/
structure Platform where
  SIGKILL : ℤ
  SIGSTOP : ℤ
  SIGRTMIN : ℤ
  SIGRTMAX : ℤ
  SIGWINCH : ℤ
  SIGCONT : ℤ
  SIGCHLD : ℤ
  SIGALRM : ℤ
  SIGVTALRM : ℤ
  SIGPROF : ℤ
  catchable : ℤ → Bool
  realtime : 0 ≤ SIGRTMIN ∧ SIGRTMAX < 256
  catches : ∀ sig, 1 ≤ sig ∧ sig < 32 ∨ SIGRTMIN ≤ sig ∧ sig ≤ SIGRTMAX →
    sig ≠ SIGKILL → sig ≠ SIGSTOP → catchable sig

/-- A `for` loop from `first` to `last`. -/
def interval (first last : ℤ) : List ℤ :=
  (List.range (last + 1 - first).toNat).map fun n : ℕ => first + n

namespace Platform

variable (P : Platform)

/-- `allSignalsToCatch` (lines 1509–1528). -/
def allSignalsToCatch : List ℤ :=
  (interval 1 31).filter (fun i => ¬ (i = P.SIGKILL ∨ i = P.SIGSTOP)) ++
    (interval P.SIGRTMIN P.SIGRTMAX).filter fun i => ¬ (i = P.SIGKILL ∨ i = P.SIGSTOP)

/-- `erase` (lines 1529–1534). -/
def erase (x : List ℤ) (y : ℤ) : List ℤ := x.filter (· ≠ y)

/-- The signals that `defaultSignalsToCatch` takes out. -/
def ignored : List ℤ :=
  [P.SIGWINCH, P.SIGCONT, P.SIGCHLD, P.SIGALRM, P.SIGVTALRM, P.SIGPROF]

/-- `defaultSignalsToCatch` (lines 1535–1547). -/
def defaultSignalsToCatch : List ℤ := P.ignored.foldl erase P.allSignalsToCatch

/-- A signal to catch by default. -/
def Default (sig : ℤ) : Prop :=
  (1 ≤ sig ∧ sig < 32 ∨ P.SIGRTMIN ≤ sig ∧ sig ≤ P.SIGRTMAX) ∧
    sig ∉ [P.SIGKILL, P.SIGSTOP] ∧ sig ∉ P.ignored

instance (sig : ℤ) : Decidable (P.Default sig) := inferInstanceAs (Decidable (_ ∧ _))

/-- The numbers of Linux. -/
def linux : Platform where
  SIGKILL := 9
  SIGSTOP := 19
  SIGRTMIN := 34
  SIGRTMAX := 64
  SIGWINCH := 28
  SIGCONT := 18
  SIGCHLD := 17
  SIGALRM := 14
  SIGVTALRM := 26
  SIGPROF := 27
  catchable sig := 1 ≤ sig ∧ sig ≤ 64 ∧ ¬ (sig = 9 ∨ sig = 19 ∨ sig = 32 ∨ sig = 33)
  realtime := by decide
  catches := by
    intro sig hrange hkill hstop
    simp only [decide_eq_true_eq]
    omega

theorem mem_interval {first last i : ℤ} : i ∈ interval first last ↔ first ≤ i ∧ i ≤ last := by
  unfold interval
  rw [List.mem_map]
  constructor
  · rintro ⟨n, hn, rfl⟩
    have hlt := List.mem_range.mp hn
    omega
  · rintro ⟨hfirst, hlast⟩
    exact ⟨(i - first).toNat, List.mem_range.mpr (by omega), by omega⟩

theorem mem_foldl_erase {x ys : List ℤ} {i : ℤ} :
    i ∈ ys.foldl erase x ↔ i ∈ x ∧ i ∉ ys := by
  induction ys generalizing x with
  | nil => simp
  | cons y ys ih =>
    rw [List.foldl_cons, ih]
    simp only [erase, List.mem_filter, decide_eq_true_eq, List.mem_cons, not_or, and_assoc]

theorem mem_defaultSignalsToCatch {sig : ℤ} :
    sig ∈ P.defaultSignalsToCatch ↔ P.Default sig := by
  unfold defaultSignalsToCatch
  rw [mem_foldl_erase]
  have hlast : sig ≤ 31 ↔ sig < 32 := by omega
  simp only [allSignalsToCatch, Default, List.mem_append, List.mem_filter, mem_interval,
    decide_eq_true_eq, List.mem_cons, List.not_mem_nil, or_false, hlast]
  tauto

variable {P}

theorem Default.inRange {sig : ℤ} (h : P.Default sig) : 0 ≤ sig ∧ sig < 256 := by
  have hreal := P.realtime
  rcases h.1 with h | h
  · omega
  · omega

theorem Default.accepted {sig : ℤ} (h : P.Default sig) : P.catchable sig := by
  have hnot := h.2.1
  simp only [List.mem_cons, List.not_mem_nil, or_false, not_or] at hnot
  exact P.catches sig h.1 hnot.1 hnot.2

end Platform

theorem touchesOf_append (sig : ℤ) (ts us : List (ℤ × Touch)) :
    touchesOf sig (ts ++ us) = touchesOf sig ts ++ touchesOf sig us := by
  simp [touchesOf]

theorem touchesOf_map (sig : ℤ) (signals : List ℤ) (t : Touch) :
    touchesOf sig (signals.map fun i => (i, t)) = List.replicate (signals.count sig) t := by
  induction signals with
  | nil => rfl
  | cons i signals ih =>
    unfold touchesOf at ih ⊢
    by_cases hi : i = sig
    · subst hi
      simp [ih, List.replicate_succ]
    · simpa [hi] using ih

/-- A signal of the list is set behind `setSignals`. -/
theorem touchesOf_set {sig : ℤ} {signals : List ℤ} (h : sig ∈ signals) (ts : List (ℤ × Touch))
    (handler : Handler) :
    ∃ us, touchesOf sig (ts ++ signals.map fun i => (i, .set handler)) = us ++ [.set handler] := by
  obtain ⟨n, hn⟩ := Nat.exists_eq_succ_of_ne_zero (List.count_pos_iff.mpr h).ne'
  refine ⟨touchesOf sig ts ++ List.replicate n (.set handler), ?_⟩
  rw [touchesOf_append, touchesOf_map, hn, List.replicate_succ', List.append_assoc]

theorem touchesOf_set_of_notMem {sig : ℤ} {signals : List ℤ} (h : sig ∉ signals)
    (ts : List (ℤ × Touch)) (t : Touch) :
    touchesOf sig (ts ++ signals.map fun i => (i, t)) = touchesOf sig ts := by
  rw [touchesOf_append, touchesOf_map, List.count_eq_zero.mpr h, List.replicate_zero,
    List.append_nil]

/-- `clearSignals()` clears each signal once. -/
theorem touchesOf_clear {sig : ℤ} (h : 0 ≤ sig ∧ sig < 256) (ts : List (ℤ × Touch)) :
    touchesOf sig (ts ++ indices.map fun i => (i, .clear)) = touchesOf sig ts ++ [.clear] := by
  have hnodup : indices.Nodup := List.nodup_range.map Nat.cast_injective
  rw [touchesOf_append, touchesOf_map, hnodup.count, if_pos (mem_indices.mpr h)]
  rfl

/-- After any calls `setErrorHandler` with the default signals takes over these signals and
    leaves every other disposition alone. `clearErrorHandler` then puts the default action
    back for them and for each other signal that `signals_set` has, and empties
    `signals_set`. -/
theorem setErrorHandler_default (P : Platform) (d : ℤ → Handler) (es : List Event) (s : State)
    (hrun : Machine.run (step P.catchable) (.init d) es = some s) (abort : AbortFun) :
    ∃ t u, setErrorHandler P.catchable s abort P.defaultSignalsToCatch = some t ∧
      clearErrorHandler P.catchable t = some u ∧
      (∀ sig, t.disposition sig =
        if P.Default sig then .terminateFunctionSignal else s.disposition sig) ∧
      (∀ sig, 0 ≤ sig ∧ sig < 256 → u.signals_set sig = false ∧ u.disposition sig =
        if P.Default sig ∨ s.signals_set sig ∧ P.catchable sig then .SIG_DFL
        else s.disposition sig) := by
  obtain ⟨ts, htracks⟩ : ∃ ts, Tracks P.catchable d ts s := by
    obtain ⟨s', hs', htracks, -⟩ := tracks_run (tracks_init d) (within_of_run hrun)
    obtain rfl := Option.some.inj (hs'.symm.trans hrun)
    exact ⟨_, htracks⟩
  have hdefault : ∀ sig ∈ (Event.setErrorHandler abort P.defaultSignalsToCatch).signals,
      0 ≤ sig ∧ sig < 256 := fun sig h => (P.mem_defaultSignalsToCatch.mp h).inRange
  obtain ⟨t, ht, htracks', -⟩ := tracks_step htracks hdefault
  obtain ⟨u, hu, htracks'', -⟩ := tracks_step (e := .clearErrorHandler) htracks'
    (by simp [Event.signals])
  refine ⟨t, u, ht, hu, fun sig => ?_, fun sig hsig => ?_⟩
  · rw [htracks'.disposition, htracks.disposition]
    by_cases hsig : P.Default sig
    · obtain ⟨us, hus⟩ := touchesOf_set (P.mem_defaultSignalsToCatch.mpr hsig) ts
        .terminateFunctionSignal
      rw [if_pos hsig, if_pos hsig.accepted, Event.touches, hus, installed_concat_set]
    · have hnot : sig ∉ P.defaultSignalsToCatch := fun h =>
        hsig (P.mem_defaultSignalsToCatch.mp h)
      rw [if_neg hsig, Event.touches, touchesOf_set_of_notMem hnot]
  · rw [htracks''.signals_set, htracks''.disposition, htracks.disposition, htracks.signals_set]
    have hclear : ∀ ts, isSet (ts ++ [.clear]) = false := fun ts => isSet_concat _ _
    rw [show Event.clearErrorHandler.touches = indices.map fun i => (i, .clear) from rfl,
      touchesOf_clear hsig, hclear, installed_concat_clear]
    refine ⟨rfl, ?_⟩
    by_cases hmem : P.Default sig
    · obtain ⟨us, hus⟩ := touchesOf_set (P.mem_defaultSignalsToCatch.mpr hmem) ts
        .terminateFunctionSignal
      have hset : isSet (us ++ [.set .terminateFunctionSignal]) = true := isSet_concat _ _
      rw [if_pos hmem.accepted, Event.touches, hus, hset, if_pos rfl, if_pos (.inl hmem)]
    · have hnot : sig ∉ P.defaultSignalsToCatch := fun h =>
        hmem (P.mem_defaultSignalsToCatch.mp h)
      rw [Event.touches, touchesOf_set_of_notMem hnot]
      by_cases hcatch : P.catchable sig <;> simp [hmem, hcatch]

/-- Behind calls that have set `SIGUSR1` and `SIGCHLD` and put `SIGUSR1` back, with a handler
    of the program on `SIGWINCH`. -/
theorem setErrorHandler_default_linux :
    ∃ s t u, Machine.run (step Platform.linux.catchable)
        (.init fun sig => if sig = 28 then .other 2 else .SIG_DFL)
        [.setSignals [10, 17] (.other 1), .clearSignal 10] = some s ∧
      setErrorHandler Platform.linux.catchable s (.function 0)
        Platform.linux.defaultSignalsToCatch = some t ∧
      clearErrorHandler Platform.linux.catchable t = some u ∧
      [10, 17, 28].map t.disposition = [.terminateFunctionSignal, .other 1, .other 2] ∧
      [10, 17, 28].map u.disposition = [.SIG_DFL, .SIG_DFL, .other 2] := by
  obtain ⟨t, u, ht, hu, hset, hclear⟩ := setErrorHandler_default .linux
    (fun sig => if sig = 28 then .other 2 else .SIG_DFL)
    [.setSignals [10, 17] (.other 1), .clearSignal 10] _ rfl (.function 0)
  refine ⟨_, t, u, rfl, ht, hu, ?_, ?_⟩
  · simp only [List.map_cons, List.map_nil, hset]
    decide
  · simp only [List.map_cons, List.map_nil, (hclear 10 (by decide)).2,
      (hclear 17 (by decide)).2, (hclear 28 (by decide)).2]
    decide

end StackTrace.ErrorHandler
