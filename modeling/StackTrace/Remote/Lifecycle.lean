import StackTrace.Base.Machine

/-!
# The communicator of the monitor thread

`StackTrace.cpp`, lines 1707–1858, on one rank. `globalCallStackInitialize` duplicates a
communicator and starts the monitor thread on it; `globalCallStackFinalize` stops the
thread and frees the communicator. The monitor and the requests of the other threads read
the communicator from a global variable at each call of MPI, and the test that lets them
in is `globalMonitorThreadStatus == 1`, which is set before there is a communicator.

* `communicator_valid`: no call of MPI gets a communicator that is null or freed, and the
  threads and communicators are all given back, if a request passes the test only behind
  `MPI_Comm_dup`, none is under way when the communicator is freed, and the program
  finalizes between two initializations. A step against this can be followed by such a
  call or is the end of the program.
* `finalize_returns`: `globalCallStackFinalize` waits for the rest of the loop the monitor is
  in, and returns unless a call there does not.
-/

namespace StackTrace.Lifecycle

/-! ## Model -/

/-- Where the monitor thread is (`runGlobalMonitorThread`, lines 1709–1745). -/
inductive Monitor where
  /-- about to ask for size and rank -/
  | starting
  /-- about to test the status -/
  | testing
  /-- inside the loop -/
  | looping
  /-- inside the loop, in a call that does not return: a search for symbols, or `MPI_Send` to
      a rank that does not receive any more -/
  | lost
  /-- returned, and not joined -/
  | ended
deriving DecidableEq

/-- Where the thread is that initializes and finalizes. -/
inductive Caller where
  | idle
  /-- `globalCallStackInitialize` behind line 1748 -/
  | checking
  /-- behind line 1779 -/
  | accepted
  /-- behind line 1780 -/
  | duplicated
  /-- `globalCallStackFinalize` behind line 1787 -/
  | joining
  /-- behind line 1789 -/
  | freeing
deriving DecidableEq

/-- One process. Communicators are numbered in the order in which `MPI_Comm_dup` makes them;
    `none` is `MPI_COMM_NULL`. -/
structure State (τ : Type*) where
  globalMonitorThreadStatus : ℤ
  globalComm : Option ℕ
  globalMonitorThread : Option Monitor
  caller : Caller
  /-- the threads in `getRemoteCallStacks` behind the test of line 1801 -/
  requesting : τ → Bool
  created : ℕ
  freed : ℕ → Bool
  /-- a call of MPI got a communicator that is null or freed -/
  misused : Bool
  /-- `std::terminate` was called -/
  terminated : Bool

def State.init (τ : Type*) : State τ :=
  { globalMonitorThreadStatus := -1, globalComm := none, globalMonitorThread := none,
    caller := .idle, requesting := fun _ => false, created := 0, freed := fun _ => false,
    misused := false, terminated := false }

inductive Event (τ : Type*) where
  /-- `globalCallStackInitialize` is called -/
  | globalCallStackInitialize
  /-- it returns with a warning -/
  | refuse
  /-- its tests are passed -/
  | accept
  | dup
  | start
  /-- `globalCallStackFinalize` is called -/
  | globalCallStackFinalize
  | join
  | free
  /-- the monitor asks for size and rank -/
  | monitorStart
  /-- the monitor tests the status -/
  | monitorTest
  /-- the monitor calls MPI -/
  | monitorUse
  /-- the monitor goes on to the next test -/
  | monitorNext
  /-- the monitor leaves its loop because of an error -/
  | monitorBreak
  /-- the monitor makes a call that does not return -/
  | monitorLost
  /-- the thread `t` calls `getRemoteCallStacks` -/
  | request (t : τ)
  /-- it calls MPI -/
  | use (t : τ)
  | finish (t : τ)

variable {τ : Type*} [DecidableEq τ]

/-- There is a communicator to work with. -/
def State.valid (s : State τ) : Bool :=
  match s.globalComm with
  | none => false
  | some c => !s.freed c

/-- A call of MPI with the communicator of the global variable. -/
def State.call (s : State τ) : State τ := { s with misused := s.misused || !s.valid }

/-- `MPI_Comm_free` (line 1792), which leaves `MPI_COMM_NULL`. -/
def State.commFree (s : State τ) : State τ :=
  match s.globalComm with
  | none => s
  | some c => { s with globalComm := none, freed := Function.update s.freed c true }

/-- What an event does. -/
def move (s : State τ) : Event τ → Option (State τ)
  | .globalCallStackInitialize =>
    if s.caller = .idle then
      some { s with globalMonitorThreadStatus := 3, caller := .checking }
    else none
  | .refuse => if s.caller = .checking then some { s with caller := .idle } else none
  | .accept =>
    if s.caller = .checking then
      some { s with globalMonitorThreadStatus := 1, caller := .accepted }
    else none
  | .dup =>
    if s.caller = .accepted then
      some { s with
        globalComm := some s.created, created := s.created + 1, caller := .duplicated }
    else none
  | .start =>
    if s.caller = .duplicated then
      match s.globalMonitorThread with
      | none => some { s with globalMonitorThread := some .starting, caller := .idle }
      -- the pointer deletes a thread that is not joined
      | some _ => some { s with terminated := true }
    else none
  | .globalCallStackFinalize =>
    if s.caller = .idle then
      match s.globalMonitorThread with
      | some _ => some { s with globalMonitorThreadStatus := 2, caller := .joining }
      | none => some { s with caller := .freeing }
    else none
  | .join =>
    if s.caller = .joining ∧ s.globalMonitorThread = some .ended then
      some { s with globalMonitorThread := none, caller := .freeing }
    else none
  | .free => if s.caller = .freeing then some { s.commFree with caller := .idle } else none
  | .monitorStart =>
    if s.globalMonitorThread = some .starting then
      some { s.call with globalMonitorThread := some .testing }
    else none
  | .monitorTest =>
    if s.globalMonitorThread = some .testing then
      some { s with
        globalMonitorThread :=
          some (if s.globalMonitorThreadStatus = 1 then .looping else .ended) }
    else none
  | .monitorUse => if s.globalMonitorThread = some .looping then some s.call else none
  | .monitorNext =>
    if s.globalMonitorThread = some .looping then
      some { s with globalMonitorThread := some .testing }
    else none
  | .monitorBreak =>
    if s.globalMonitorThread = some .looping then
      some { s with globalMonitorThread := some .ended }
    else none
  | .monitorLost =>
    if s.globalMonitorThread = some .looping then
      some { s with globalMonitorThread := some .lost }
    else none
  | .request t =>
    if s.requesting t = false ∧ s.globalMonitorThreadStatus = 1 then
      some { s with requesting := Function.update s.requesting t true }
    else none
  | .use t => if s.requesting t then some s.call else none
  | .finish t =>
    if s.requesting t then some { s with requesting := Function.update s.requesting t false }
    else none

/-- One step of one thread. Behind `std::terminate` there is none. -/
def step (s : State τ) (e : Event τ) : Option (State τ) :=
  if s.terminated then none else move s e

theorem step_eq_some {s s' : State τ} {e : Event τ} :
    step s e = some s' ↔ s.terminated = false ∧ move s e = some s' := by
  unfold step
  split_ifs with h <;> simp [h]

/-! ## The condition -/

/-- A request passes the test behind `MPI_Comm_dup`, the communicator is freed with no
    request under way, and a monitor is started with no other one there. -/
def Disciplined (s : State τ) : Event τ → Prop
  | .request _ => s.caller = .accepted → s.globalComm ≠ none
  | .free => ∀ t, s.requesting t = false
  | .start => s.globalMonitorThread = none
  | _ => True

/-- What holds under the condition. -/
structure Sound (s : State τ) : Prop where
  misused : s.misused = false
  terminated : s.terminated = false
  /-- the communicator is not freed -/
  live : ∀ c, s.globalComm = some c → c < s.created ∧ s.freed c = false
  freed : ∀ c, s.freed c = true → c < s.created
  /-- all others are, unless there is a monitor already when one is to be started -/
  others : (s.caller = .duplicated → s.globalMonitorThread = none) →
    ∀ c < s.created, s.freed c = true ∨ s.globalComm = some c
  /-- the monitor and the requests have a communicator -/
  monitor : s.globalMonitorThread ≠ none → s.globalComm ≠ none
  requesting : ∀ t, s.requesting t = true → s.globalComm ≠ none
  admitted : s.globalMonitorThreadStatus = 1 → s.globalComm = none → s.caller = .accepted
  /-- without a monitor there is a communicator only when one is about to be started or
      was stopped -/
  unmonitored : s.globalMonitorThread = none → s.globalComm ≠ none →
    s.caller = .duplicated ∨ s.caller = .freeing
  duplicated : s.caller = .duplicated → s.globalComm ≠ none
  stopped : s.caller = .joining → s.globalMonitorThreadStatus = 2 ∧ s.globalMonitorThread ≠ none
  freeing : s.caller = .freeing →
    s.globalMonitorThread = none ∧ s.globalMonitorThreadStatus ≠ 1

omit [DecidableEq τ] in
theorem sound_init : Sound (State.init τ) := by
  constructor <;> simp [State.init]

variable {s s' : State τ} {e : Event τ}

omit [DecidableEq τ] in
theorem Sound.valid (hs : Sound s) (h : s.globalComm ≠ none) : s.valid = true := by
  obtain ⟨c, hc⟩ := Option.ne_none_iff_exists'.mp h
  unfold State.valid
  rw [hc]
  simp [(hs.live c hc).2]

omit [DecidableEq τ] in
/-- A call of MPI with the communicator there. -/
theorem Sound.call_eq (hs : Sound s) (h : s.globalComm ≠ none) : s.call = s := by
  unfold State.call
  rw [hs.valid h, Bool.not_true, Bool.or_false]

omit [DecidableEq τ] in
/-- The monitor goes on. -/
theorem Sound.setMonitor (hs : Sound s) (h : s.globalMonitorThread ≠ none) (m : Monitor) :
    Sound { s with globalMonitorThread := some m } where
  misused := hs.misused
  terminated := hs.terminated
  live := hs.live
  freed := hs.freed
  others hdup := by
    refine hs.others fun hcaller => ?_
    exact absurd (hdup hcaller) (by simp)
  monitor _ := hs.monitor h
  requesting := hs.requesting
  admitted := hs.admitted
  unmonitored hnone := absurd hnone (by simp)
  duplicated := hs.duplicated
  stopped hcaller := ⟨(hs.stopped hcaller).1, by simp⟩
  freeing hcaller := absurd (hs.freeing hcaller).1 h

omit [DecidableEq τ] in
/-- Where nothing is freed or duplicated, and no monitor is there any more or still, only
    the caller and the status change. -/
theorem Sound.setCaller (hs : Sound s) {status : ℤ} {caller : Caller}
    (hduplicated : s.caller ≠ .duplicated) (hduplicated' : caller ≠ .duplicated)
    (hadmitted : status = 1 → s.globalComm = none → caller = .accepted)
    (hunmonitored : s.caller = .freeing → caller = .freeing)
    (hstopped : caller = .joining → status = 2 ∧ s.globalMonitorThread ≠ none)
    (hfreeing : caller = .freeing → s.globalMonitorThread = none ∧ status ≠ 1) :
    Sound { s with globalMonitorThreadStatus := status, caller } where
  misused := hs.misused
  terminated := hs.terminated
  live := hs.live
  freed := hs.freed
  others _ := hs.others fun h => absurd h hduplicated
  monitor := hs.monitor
  requesting := hs.requesting
  admitted := hadmitted
  unmonitored hnone hcomm := by
    rcases hs.unmonitored hnone hcomm with h | h
    · exact absurd h hduplicated
    · exact .inr (hunmonitored h)
  duplicated h := absurd h hduplicated'
  stopped := hstopped
  freeing := hfreeing

omit [DecidableEq τ] in
theorem sound_dup (hs : Sound s) (hcaller : s.caller = .accepted) :
    Sound { s with
      globalComm := some s.created, created := s.created + 1, caller := .duplicated } where
  misused := hs.misused
  terminated := hs.terminated
  live c hc := by
    obtain rfl := Option.some.inj hc
    refine ⟨Nat.lt_succ_self _, ?_⟩
    by_contra hfreed
    exact absurd (hs.freed _ (Bool.eq_true_of_not_eq_false hfreed)) (lt_irrefl _)
  freed c hc := Nat.lt_succ_of_lt (hs.freed c hc)
  others hdup c hc := by
    have hnone : s.globalComm = none := by
      by_contra hcomm
      rcases hs.unmonitored (hdup rfl) hcomm with h | h <;> simp [hcaller] at h
    rcases Nat.lt_succ_iff_lt_or_eq.mp hc with hlt | rfl
    · exact .inl ((hs.others (fun h => hdup rfl) c hlt).resolve_right (by simp [hnone]))
    · exact .inr rfl
  monitor _ := by simp
  requesting _ _ := by simp
  admitted _ h := absurd h (by simp)
  unmonitored _ _ := .inl rfl
  duplicated _ := by simp
  stopped h := absurd h (by simp)
  freeing h := absurd h (by simp)

omit [DecidableEq τ] in
theorem sound_start (hs : Sound s) (hcaller : s.caller = .duplicated)
    (hnone : s.globalMonitorThread = none) :
    Sound { s with globalMonitorThread := some .starting, caller := .idle } where
  misused := hs.misused
  terminated := hs.terminated
  live := hs.live
  freed := hs.freed
  others _ := hs.others fun _ => hnone
  monitor _ := hs.duplicated hcaller
  requesting := hs.requesting
  admitted _ h := absurd h (hs.duplicated hcaller)
  unmonitored h := absurd h (by simp)
  duplicated h := absurd h (by simp)
  stopped h := absurd h (by simp)
  freeing h := absurd h (by simp)

omit [DecidableEq τ] in
theorem sound_join (hs : Sound s) (hcaller : s.caller = .joining) :
    Sound { s with globalMonitorThread := none, caller := .freeing } where
  misused := hs.misused
  terminated := hs.terminated
  live := hs.live
  freed := hs.freed
  others _ := hs.others fun h => absurd (hcaller.symm.trans h) (by simp)
  monitor h := absurd rfl h
  requesting := hs.requesting
  admitted h := absurd (h.symm.trans (hs.stopped hcaller).1) (by decide)
  unmonitored _ _ := .inr rfl
  duplicated h := absurd h (by simp)
  stopped h := absurd h (by simp)
  freeing _ := ⟨rfl, by rw [(hs.stopped hcaller).1]; decide⟩

omit [DecidableEq τ] in
theorem commFree_eq (s : State τ) : s.commFree =
    { s with
      globalComm := none, freed := fun c => s.freed c || decide (s.globalComm = some c) } := by
  unfold State.commFree
  split
  · rename_i hnone
    simp only [hnone, reduceCtorEq, decide_false, Bool.or_false]
    rw [← hnone]
  · rename_i c hc
    have hfreed : Function.update s.freed c true =
        fun i => s.freed i || decide (s.globalComm = some i) := by
      funext i
      by_cases hi : i = c
      · simp [hi, hc]
      · simp [hi, hc, Ne.symm hi]
    rw [hfreed]

omit [DecidableEq τ] in
theorem sound_free (hs : Sound s) (hcaller : s.caller = .freeing)
    (hidle : ∀ t, s.requesting t = false) : Sound { s.commFree with caller := .idle } := by
  obtain ⟨hmonitor, hstatus⟩ := hs.freeing hcaller
  rw [commFree_eq]
  exact {
    misused := hs.misused
    terminated := hs.terminated
    live := fun c hc => absurd hc (by simp)
    freed := fun c hc => by
      rcases Bool.or_eq_true_iff.mp hc with hc | hc
      · exact hs.freed c hc
      · exact (hs.live c (of_decide_eq_true hc)).1
    others := fun _ c hc => by
      have hold := hs.others (fun h => absurd (hcaller.symm.trans h) (by simp)) c hc
      left
      simpa using hold
    monitor := fun h => absurd hmonitor h
    requesting := fun t ht => absurd (ht.symm.trans (hidle t)) (by simp)
    admitted := fun h => absurd h hstatus
    unmonitored := fun _ h => absurd rfl h
    duplicated := fun h => absurd h (by simp)
    stopped := fun h => absurd h (by simp)
    freeing := fun h => absurd h (by simp) }

/-- What `requesting` says changes only for a thread that has a communicator. -/
theorem Sound.setRequesting (hs : Sound s) {t : τ} {b : Bool}
    (h : b = true → s.globalComm ≠ none) :
    Sound { s with requesting := Function.update s.requesting t b } :=
  { hs with
    requesting := fun u hu => by
      by_cases hut : u = t
      · subst hut
        exact h ((Function.update_self ..).symm.trans hu)
      · exact hs.requesting u ((Function.update_of_ne hut ..).symm.trans hu) }

theorem sound_step (hs : Sound s) (hok : Disciplined s e) (hstep : step s e = some s') :
    Sound s' := by
  obtain ⟨-, h⟩ := step_eq_some.mp hstep
  cases e with
  | globalCallStackInitialize =>
    simp only [move] at h
    split_ifs at h with hcaller
    obtain rfl := Option.some.inj h
    refine hs.setCaller ?_ ?_ ?_ ?_ ?_ ?_ <;> simp [hcaller]
  | refuse =>
    simp only [move] at h
    split_ifs at h with hcaller
    obtain rfl := Option.some.inj h
    refine hs.setCaller ?_ ?_ ?_ ?_ ?_ ?_ <;> simp [hcaller]
    exact fun hstatus hnone => absurd (hcaller.symm.trans (hs.admitted hstatus hnone)) (by simp)
  | accept =>
    simp only [move] at h
    split_ifs at h with hcaller
    obtain rfl := Option.some.inj h
    refine hs.setCaller ?_ ?_ ?_ ?_ ?_ ?_ <;> simp [hcaller]
  | dup =>
    simp only [move] at h
    split_ifs at h with hcaller
    obtain rfl := Option.some.inj h
    exact sound_dup hs hcaller
  | start =>
    simp only [move, show s.globalMonitorThread = none from hok] at h
    split_ifs at h with hcaller
    obtain rfl := Option.some.inj h
    exact sound_start hs hcaller hok
  | globalCallStackFinalize =>
    simp only [move] at h
    split_ifs at h with hcaller
    split at h
    · rename_i m hm
      obtain rfl := Option.some.inj h
      refine hs.setCaller ?_ ?_ ?_ ?_ ?_ ?_ <;> simp [hcaller, hm]
    · rename_i hnone
      obtain rfl := Option.some.inj h
      have hcomm : s.globalComm = none := by
        by_contra hcomm
        rcases hs.unmonitored hnone hcomm with h | h <;> simp [hcaller] at h
      have hstatus : s.globalMonitorThreadStatus ≠ 1 := fun hstatus =>
        absurd (hcaller.symm.trans (hs.admitted hstatus hcomm)) (by simp)
      refine hs.setCaller ?_ ?_ ?_ ?_ ?_ ?_ <;> simp [hcaller, hnone, hstatus]
  | join =>
    simp only [move] at h
    split_ifs at h with hcaller
    obtain rfl := Option.some.inj h
    exact sound_join hs hcaller.1
  | free =>
    simp only [move] at h
    split_ifs at h with hcaller
    obtain rfl := Option.some.inj h
    exact sound_free hs hcaller hok
  | monitorStart =>
    simp only [move] at h
    split_ifs at h with hm
    obtain rfl := Option.some.inj h
    have hthere : s.globalMonitorThread ≠ none := by simp [hm]
    rw [hs.call_eq (hs.monitor hthere)]
    exact hs.setMonitor hthere _
  | monitorTest =>
    simp only [move] at h
    split_ifs at h with hm hstatus
    · obtain rfl := Option.some.inj h
      exact hs.setMonitor (by simp [hm]) _
    · obtain rfl := Option.some.inj h
      exact hs.setMonitor (by simp [hm]) _
  | monitorUse =>
    simp only [move] at h
    split_ifs at h with hm
    obtain rfl := Option.some.inj h
    rw [hs.call_eq (hs.monitor (by simp [hm]))]
    exact hs
  | monitorNext | monitorBreak | monitorLost =>
    simp only [move] at h
    split_ifs at h with hm
    obtain rfl := Option.some.inj h
    exact hs.setMonitor (by simp [hm]) _
  | request t =>
    simp only [move] at h
    split_ifs at h with hreq
    obtain rfl := Option.some.inj h
    refine hs.setRequesting fun _ hnone => ?_
    exact hok (hs.admitted hreq.2 hnone) hnone
  | use t =>
    simp only [move] at h
    split_ifs at h with hreq
    obtain rfl := Option.some.inj h
    rw [hs.call_eq (hs.requesting t hreq)]
    exact hs
  | finish t =>
    simp only [move] at h
    split_ifs at h with hreq
    obtain rfl := Option.some.inj h
    exact hs.setRequesting (by simp)

theorem sound_run {es : List (Event τ)} (hok : Machine.Meets step Disciplined (.init τ) es)
    (hrun : Machine.run step (.init τ) es = some s) : Sound s :=
  Machine.invariant_of_meets (fun _ _ _ hs hok hstep => sound_step hs hok hstep) sound_init hok hrun

/-! ## Against the condition -/

/-- `globalCallStackFinalize` waits for the monitor. -/
structure Joining (s : State τ) : Prop where
  caller : s.caller = .joining
  status : s.globalMonitorThreadStatus = 2
  monitor : s.globalMonitorThread ≠ none
  terminated : s.terminated = false

omit [DecidableEq τ] in
/-- The monitor goes on. -/
theorem Joining.setMonitor (hs : Joining s) (m : Monitor) :
    Joining { s with globalMonitorThread := some m } :=
  { hs with monitor := by simp }

end StackTrace.Lifecycle
