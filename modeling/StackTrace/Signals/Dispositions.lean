import StackTrace.Base.Machine

/-!
# Dispositions that are saved and restored

`exec2` (`Utilities.hpp`, lines 18–44) exchanges the disposition of `SIGCHLD` for
`SIG_IGN`, runs a command and puts back what it got; where `popen` fails it
returns at once and puts back nothing. `getStackInfo2` (`StackTrace.cpp`, lines
969–985) does the same on `SIGINT` with `signal_handler`, and calls `exec2` while
it is at it. A disposition belongs to the process, so the exchanges of all
threads act on the same two cells.

* `dispositions_restored`: the dispositions come back whenever, on each signal,
  the call that found no other call in progress is the last to return and puts
  back what it saved; a step against this can be followed by returns that leave
  them changed.
-/

namespace StackTrace.Dispositions

/-- What `signal` installs and returns. -/
inductive Disposition where
  | SIG_DFL
  | SIG_IGN
  | signal_handler
  /-- a handler of the program -/
  | other (f : ℕ)
deriving DecidableEq

inductive Signal where
  | SIGCHLD
  | SIGINT
deriving DecidableEq

/-- The functions that save and restore a disposition. -/
inductive Function where
  | exec2
  | getStackInfo2
deriving DecidableEq

/-- The signal of which a function exchanges the disposition. -/
def Function.signal : Function → Signal
  | .exec2 => .SIGCHLD
  | .getStackInfo2 => .SIGINT

/-- What is installed while a function runs. -/
def Signal.installed : Signal → Disposition
  | .SIGCHLD => .SIG_IGN
  | .SIGINT => .signal_handler

/-- A call in progress: its thread, its function, and what `signal` returned to it. -/
structure Call (τ : Type*) where
  thread : τ
  function : Function
  saved : Disposition

/-- The dispositions of the process and the calls in progress, the last begun first. -/
structure State (τ : Type*) where
  disposition : Signal → Disposition
  calls : List (Call τ)

/-- Nothing in progress. -/
def State.init (τ : Type*) (d : Signal → Disposition) : State τ := ⟨d, []⟩

/-- What a thread does next: call a function, return from its innermost call through
    the end of the function, or return from it because `popen` failed. -/
inductive Event (τ : Type*) where
  | call (t : τ) (f : Function)
  | finish (t : τ)
  | popenFails (t : τ)

variable {τ : Type*} [DecidableEq τ]

/-- The innermost call of `t`, with the calls begun after it and before it. -/
def innermost (t : τ) : List (Call τ) → Option (List (Call τ) × Call τ × List (Call τ))
  | [] => none
  | c :: cs =>
    if c.thread = t then some ([], c, cs)
    else (innermost t cs).map fun (newer, d, older) => (c :: newer, d, older)

/-- A thread calls `exec2` from outside or from `getStackInfo2`, and `getStackInfo2`
    from outside. -/
def mayCall (calls : List (Call τ)) (t : τ) (f : Function) : Bool :=
  match innermost t calls with
  | none => true
  | some (_, c, _) => c.function = .getStackInfo2 ∧ f = .exec2

/-- One step of one thread. -/
def step (s : State τ) : Event τ → Option (State τ)
  | .call t f =>
    if mayCall s.calls t f then
      some ⟨Function.update s.disposition f.signal f.signal.installed,
        ⟨t, f, s.disposition f.signal⟩ :: s.calls⟩
    else none
  | .finish t =>
    match innermost t s.calls with
    | none => none
    | some (newer, c, older) =>
      some ⟨Function.update s.disposition c.function.signal c.saved, newer ++ older⟩
  | .popenFails t =>
    match innermost t s.calls with
    | none => none
    | some (newer, c, older) =>
      if c.function = .exec2 then some ⟨s.disposition, newer ++ older⟩ else none

/-! ## The condition -/

/-- The calls on a signal. -/
def onSignal (sig : Signal) (calls : List (Call τ)) : List (Call τ) :=
  calls.filter (·.function.signal = sig)

/-- The oldest call on a signal found no other in progress on it. It returns last,
    and not because `popen` failed. Where the disposition was the installed one from
    the start, the order does not matter. -/
def InOrder (d : Signal → Disposition) (s : State τ) : Event τ → Prop
  | .call _ _ => True
  | .finish t =>
    match innermost t s.calls with
    | none => True
    | some (newer, c, older) =>
      d c.function.signal = c.function.signal.installed ∨
        onSignal c.function.signal older ≠ [] ∨ onSignal c.function.signal newer = []
  | .popenFails t =>
    match innermost t s.calls with
    | none => True
    | some (_, c, older) =>
      d c.function.signal = c.function.signal.installed ∨ onSignal c.function.signal older ≠ []

/-! ## What a step does to one signal -/

theorem innermost_eq {t : τ} {calls newer older : List (Call τ)} {c : Call τ}
    (h : innermost t calls = some (newer, c, older)) : calls = newer ++ c :: older := by
  induction calls generalizing newer with
  | nil => simp [innermost] at h
  | cons d calls ih =>
    unfold innermost at h
    split_ifs at h with hd
    · simp only [Option.some.injEq, Prod.mk.injEq] at h
      obtain ⟨rfl, rfl, rfl⟩ := h
      rfl
    · obtain ⟨⟨newer', c', older'⟩, hrest, heq⟩ := Option.map_eq_some_iff.mp h
      simp only [Prod.mk.injEq] at heq
      obtain ⟨rfl, rfl, rfl⟩ := heq
      rw [ih hrest, List.cons_append]

omit [DecidableEq τ] in
theorem onSignal_append (sig : Signal) (cs ds : List (Call τ)) :
    onSignal sig (cs ++ ds) = onSignal sig cs ++ onSignal sig ds :=
  List.filter_append _ _

omit [DecidableEq τ] in
theorem onSignal_cons_self {c : Call τ} (cs : List (Call τ)) :
    onSignal c.function.signal (c :: cs) = c :: onSignal c.function.signal cs :=
  List.filter_cons_of_pos (by simp)

omit [DecidableEq τ] in
theorem onSignal_cons_of_ne {sig : Signal} {c : Call τ} (h : c.function.signal ≠ sig)
    (cs : List (Call τ)) : onSignal sig (c :: cs) = onSignal sig cs :=
  List.filter_cons_of_neg (by simpa using h)

/-- What a step is, as far as the disposition and the calls are concerned. -/
inductive Effect (s : State τ) : Event τ → State τ → Prop
  | call (t : τ) (f : Function) :
      Effect s (.call t f) ⟨Function.update s.disposition f.signal f.signal.installed,
        ⟨t, f, s.disposition f.signal⟩ :: s.calls⟩
  | finish {t : τ} {newer older : List (Call τ)} {c : Call τ}
      (h : innermost t s.calls = some (newer, c, older)) :
      Effect s (.finish t)
        ⟨Function.update s.disposition c.function.signal c.saved, newer ++ older⟩
  | popenFails {t : τ} {newer older : List (Call τ)} {c : Call τ}
      (h : innermost t s.calls = some (newer, c, older)) :
      Effect s (.popenFails t) ⟨s.disposition, newer ++ older⟩

theorem effect_of_step {s s' : State τ} {e : Event τ} (h : step s e = some s') :
    Effect s e s' := by
  cases e with
  | call t f =>
    simp only [step] at h
    split_ifs at h
    obtain rfl := Option.some.inj h
    exact .call t f
  | finish t =>
    simp only [step] at h
    split at h
    · exact absurd h (by simp)
    · rename_i newer c older hinner
      obtain rfl := Option.some.inj h
      exact .finish hinner
  | popenFails t =>
    simp only [step] at h
    split at h
    · exact absurd h (by simp)
    · rename_i newer c older hinner
      split_ifs at h
      obtain rfl := Option.some.inj h
      exact .popenFails hinner

/-- The disposition of `sig` and what the calls on it saved, the newest first. -/
def pile (sig : Signal) (s : State τ) : List Disposition :=
  s.disposition sig :: (onSignal sig s.calls).map Call.saved

omit [DecidableEq τ] in
theorem pile_init (sig : Signal) (d : Signal → Disposition) : pile sig (.init τ d) = [d sig] := rfl

omit [DecidableEq τ] in
/-- A call leaves the pile of another signal alone. -/
theorem pile_congr {sig sig' : Signal} (h : sig' ≠ sig) {disposition : Signal → Disposition}
    {x : Disposition} {calls calls' : List (Call τ)}
    (hcalls : onSignal sig calls' = onSignal sig calls) :
    pile sig ⟨Function.update disposition sig' x, calls'⟩ = pile sig ⟨disposition, calls⟩ := by
  unfold pile
  rw [hcalls]
  show Function.update disposition sig' x sig :: _ = _
  rw [Function.update_of_ne (Ne.symm h)]

omit [DecidableEq τ] in
/-- A call on the signal puts what it installs on top. -/
theorem pile_call (s : State τ) (t : τ) (f : Function) :
    pile f.signal ⟨Function.update s.disposition f.signal f.signal.installed,
      ⟨t, f, s.disposition f.signal⟩ :: s.calls⟩ = f.signal.installed :: pile f.signal s := by
  have hcons := onSignal_cons_self (c := ⟨t, f, s.disposition f.signal⟩) s.calls
  unfold pile
  show Function.update s.disposition f.signal f.signal.installed f.signal :: _ = _
  rw [Function.update_self, hcons, List.map_cons]

omit [DecidableEq τ] in
/-- Where a call stands in the pile, and what is left when it returns or fails. -/
theorem pile_split {s : State τ} {newer older : List (Call τ)} {c : Call τ}
    (h : s.calls = newer ++ c :: older) :
    ∃ a b, a = (onSignal c.function.signal newer).map Call.saved ∧
      b = (onSignal c.function.signal older).map Call.saved ∧
      pile c.function.signal s = s.disposition c.function.signal :: a ++ c.saved :: b ∧
      pile c.function.signal
        ⟨Function.update s.disposition c.function.signal c.saved, newer ++ older⟩ =
          c.saved :: a ++ b ∧
      pile c.function.signal ⟨s.disposition, newer ++ older⟩ =
        s.disposition c.function.signal :: a ++ b := by
  refine ⟨_, _, rfl, rfl, ?_, ?_, ?_⟩
  · unfold pile
    rw [h, onSignal_append, onSignal_cons_self, List.map_append, List.map_cons]
    rfl
  · unfold pile
    rw [onSignal_append, List.map_append]
    show Function.update s.disposition c.function.signal c.saved c.function.signal :: _ = _
    rw [Function.update_self]
    rfl
  · unfold pile
    rw [onSignal_append, List.map_append]
    rfl

/-! ## In order the first disposition stays at the bottom -/

/-- `d` at the bottom, only `i` above it. -/
def Kept (i d : Disposition) (l : List Disposition) : Prop := ∃ a, l = a ++ [d] ∧ ∀ x ∈ a, x = i

theorem Kept.cons {i d : Disposition} {l : List Disposition} (h : Kept i d l) :
    Kept i d (i :: l) := by
  obtain ⟨a, rfl, ha⟩ := h
  exact ⟨i :: a, rfl, by simpa using ha⟩

theorem kept_of_forall {i : Disposition} {l : List Disposition} (hne : l ≠ [])
    (h : ∀ x ∈ l, x = i) : Kept i i l := by
  refine ⟨l.dropLast, ?_, fun x hx => h x (List.dropLast_subset l hx)⟩
  rw [← h _ (List.getLast_mem hne), List.dropLast_concat_getLast]

/-- What stands last is the bottom. -/
theorem Kept.of_concat {i d y : Disposition} {l : List Disposition} (h : Kept i d (l ++ [y])) :
    y = d ∧ ∀ x ∈ l, x = i := by
  obtain ⟨a, heq, ha⟩ := h
  obtain ⟨rfl, hy⟩ := List.append_inj' heq rfl
  exact ⟨(List.cons.inj hy).1, ha⟩

/-- An element that is not the bottom, or equals it, can be taken out, with or without
    being put on top. -/
theorem Kept.takeOut {i d x y : Disposition} {a b : List Disposition}
    (h : Kept i d (x :: a ++ y :: b)) (hb : d = i ∨ b ≠ []) :
    Kept i d (x :: a ++ b) ∧ Kept i d (y :: a ++ b) := by
  rcases List.eq_nil_or_concat b with rfl | ⟨b, w, rfl⟩
  · obtain rfl : d = i := hb.resolve_right (by simp)
    obtain ⟨rfl, hall⟩ := h.of_concat
    rw [List.append_nil, List.append_nil]
    refine ⟨kept_of_forall (by simp) hall, kept_of_forall (by simp) fun z hz => ?_⟩
    rcases List.mem_cons.mp hz with rfl | hz
    · rfl
    · exact hall z (by simp [hz])
  · rw [List.concat_eq_append, ← List.cons_append, ← List.append_assoc] at h
    obtain ⟨rfl, hall⟩ := h.of_concat
    rw [List.concat_eq_append, ← List.append_assoc, ← List.append_assoc]
    exact ⟨⟨_, rfl, fun z hz => hall z (by simp at hz ⊢; tauto)⟩,
      ⟨_, rfl, fun z hz => hall z (by simp at hz ⊢; tauto)⟩⟩

/-- A step in order keeps the bottom of each pile. -/
theorem kept_step {d : Signal → Disposition} {s s' : State τ} {e : Event τ} {sig : Signal}
    (hok : InOrder d s e) (hstep : step s e = some s')
    (h : Kept sig.installed (d sig) (pile sig s)) : Kept sig.installed (d sig) (pile sig s') := by
  cases effect_of_step hstep with
  | call t f =>
    by_cases hsig : f.signal = sig
    · subst hsig
      rw [pile_call]
      exact h.cons
    · rwa [pile_congr hsig (onSignal_cons_of_ne hsig s.calls)]
  | @finish t newer older c hinner =>
    have hcalls := innermost_eq hinner
    by_cases hsig : c.function.signal = sig
    · subst hsig
      obtain ⟨a, b, ha, hb, hpile, hfinish, -⟩ := pile_split hcalls
      rw [hpile] at h
      rw [hfinish]
      simp only [InOrder, hinner] at hok
      rcases hok with hd | hold | hnew
      · exact (h.takeOut (.inl hd)).2
      · exact (h.takeOut (.inr (by simpa [hb] using hold))).2
      · -- the only call on the signal puts back what it saved
        obtain rfl : a = [] := by rw [ha, hnew]; rfl
        rcases List.eq_nil_or_concat b with rfl | ⟨b, w, rfl⟩
        · obtain ⟨hsaved, -⟩ := h.of_concat
          exact ⟨[], by rw [hsaved]; rfl, by simp⟩
        · exact (h.takeOut (.inr (by simp))).2
    · have hsame : onSignal sig (newer ++ older) = onSignal sig s.calls := by
        rw [hcalls, onSignal_append, onSignal_append, onSignal_cons_of_ne hsig]
      rwa [pile_congr hsig hsame]
  | @popenFails t newer older c hinner =>
    have hcalls := innermost_eq hinner
    by_cases hsig : c.function.signal = sig
    · subst hsig
      obtain ⟨a, b, ha, hb, hpile, -, hfails⟩ := pile_split hcalls
      rw [hpile] at h
      rw [hfails]
      simp only [InOrder, hinner] at hok
      rcases hok with hd | hold
      · exact (h.takeOut (.inl hd)).1
      · exact (h.takeOut (.inr (by simpa [hb] using hold))).1
    · have hsame : pile sig ⟨s.disposition, newer ++ older⟩ = pile sig s := by
        unfold pile
        rw [hcalls, onSignal_append, onSignal_append, onSignal_cons_of_ne hsig]
      rwa [hsame]

/-- Behind a run in order the first disposition is at the bottom of each pile. -/
theorem kept_run {d : Signal → Disposition} {s : State τ} {es : List (Event τ)}
    (hok : Machine.Meets step (InOrder d) (.init τ d) es)
    (hrun : Machine.run step (.init τ d) es = some s) (sig : Signal) :
    Kept sig.installed (d sig) (pile sig s) := by
  refine Machine.invariant_of_meets (P := fun s => Kept sig.installed (d sig) (pile sig s))
    (fun s e t h hok hstep => kept_step hok hstep h) ?_ hok hrun
  exact ⟨[], by rw [pile_init]; rfl, by simp⟩

/-! ## Out of order it can be lost -/

omit [DecidableEq τ] in
/-- With no call in progress the disposition is the bottom of its pile. -/
theorem disposition_of_idle {s : State τ} (h : s.calls = []) (sig : Signal) :
    pile sig s = [s.disposition sig] := by
  unfold pile
  rw [h]
  rfl

/-- The calls in progress can all return, the newest first. This leaves the bottom of
    each pile in force. -/
theorem exists_idle (s : State τ) :
    ∃ es t, Machine.run step s es = some t ∧ t.calls = [] ∧
      ∀ sig, (pile sig s).getLast? = some (t.disposition sig) := by
  obtain ⟨disposition, calls⟩ := s
  induction calls generalizing disposition with
  | nil => exact ⟨[], _, rfl, rfl, fun sig => rfl⟩
  | cons c calls ih =>
    obtain ⟨es, t, hrun, hidle, hlast⟩ :=
      ih (Function.update disposition c.function.signal c.saved)
    refine ⟨.finish c.thread :: es, t, Machine.run_cons.mpr ⟨_, ?_, hrun⟩, hidle, fun sig => ?_⟩
    · simp [step, innermost]
    · rw [← hlast sig]
      by_cases hsig : c.function.signal = sig
      · subst hsig
        unfold pile
        simp only [onSignal_cons_self, List.map_cons, Function.update_self]
        exact List.getLast?_cons_cons
      · rw [pile_congr hsig rfl]
        unfold pile
        rw [onSignal_cons_of_ne hsig]

/-- A step out of order leaves the installed disposition at the bottom of a pile that
    had another one there. -/
theorem lost_step {d : Signal → Disposition} {s s' : State τ} {e : Event τ}
    (hkept : ∀ sig, Kept sig.installed (d sig) (pile sig s)) (hstep : step s e = some s')
    (hok : ¬ InOrder d s e) :
    ∃ sig, d sig ≠ sig.installed ∧ (pile sig s').getLast? = some sig.installed := by
  have last : ∀ {i x : Disposition} {a : List Disposition}, a ≠ [] → (∀ z ∈ a, z = i) →
      (x :: a).getLast? = some i := by
    intro i x a hne ha
    rw [List.getLast?_cons, List.getLast?_eq_some_getLast hne, ha _ (List.getLast_mem hne)]
    rfl
  cases effect_of_step hstep with
  | call t f => exact absurd trivial hok
  | @finish t newer older c hinner =>
    obtain ⟨a, b, ha, hb, hpile, hfinish, -⟩ := pile_split (innermost_eq hinner)
    simp only [InOrder, hinner, not_or, not_not] at hok
    obtain ⟨hd, hold, hnew⟩ := hok
    refine ⟨_, hd, ?_⟩
    have hkept := hkept c.function.signal
    obtain rfl : b = [] := by rw [hb, hold]; rfl
    rw [hpile] at hkept
    rw [hfinish, List.append_nil]
    refine last (by simpa [ha] using hnew) fun z hz => hkept.of_concat.2 z ?_
    simp [hz]
  | @popenFails t newer older c hinner =>
    obtain ⟨a, b, ha, hb, hpile, -, hfails⟩ := pile_split (innermost_eq hinner)
    simp only [InOrder, hinner, not_or, not_not] at hok
    obtain ⟨hd, hold⟩ := hok
    refine ⟨_, hd, ?_⟩
    have hkept := hkept c.function.signal
    obtain rfl : b = [] := by rw [hb, hold]; rfl
    rw [hpile] at hkept
    obtain ⟨-, hall⟩ := hkept.of_concat
    rw [hfails, List.append_nil]
    rcases eq_or_ne a [] with rfl | hne
    · have htop := hall (s.disposition c.function.signal) (by simp)
      rw [htop]
      rfl
    · exact last hne fun z hz => hall z (by simp [hz])

/-- The first dispositions are in force whenever no call is in progress, in every run
    in which the oldest call on each signal returns last and by restoring. A run that
    is in order up to its last step can be continued by returns to a state without
    calls in which a disposition has changed. -/
theorem dispositions_restored (d : Signal → Disposition) :
    (∀ (es : List (Event τ)) (s : State τ), Machine.Meets step (InOrder d) (.init τ d) es →
      Machine.run step (.init τ d) es = some s → s.calls = [] → s.disposition = d) ∧
    (∀ (es : List (Event τ)) (e : Event τ) (s s' : State τ),
      Machine.Meets step (InOrder d) (.init τ d) es → Machine.run step (.init τ d) es = some s →
      step s e = some s' → ¬ InOrder d s e →
      ∃ fs t, Machine.run step (.init τ d) (es ++ e :: fs) = some t ∧ t.calls = [] ∧
        t.disposition ≠ d) := by
  constructor
  · intro es s hok hrun hidle
    funext sig
    have hkept := kept_run hok hrun sig
    rw [disposition_of_idle hidle] at hkept
    have hlast : Kept sig.installed (d sig) ([] ++ [s.disposition sig]) := hkept
    exact hlast.of_concat.1
  · intro es e s s' hok hrun hstep hbad
    obtain ⟨sig, hd, hlost⟩ := lost_step (kept_run hok hrun) hstep hbad
    obtain ⟨fs, t, hfs, hidle, hlast⟩ := exists_idle s'
    refine ⟨fs, t, Machine.run_append_cons hrun hstep hfs, hidle, fun heq => hd ?_⟩
    rw [hlast sig, heq] at hlost
    exact Option.some.inj hlost

/-- Nested calls, and a failing one inside, are in order. -/
theorem dispositions_restored_nested :
    ∃ s : State ℕ, Machine.run step (.init ℕ fun _ => .SIG_DFL)
        [.call 1 .getStackInfo2, .call 1 .exec2, .call 2 .exec2, .popenFails 2, .finish 1,
          .finish 1] = some s ∧ s.disposition = fun _ => .SIG_DFL := by
  refine ⟨_, rfl, (dispositions_restored fun _ => .SIG_DFL).1
    [.call 1 .getStackInfo2, .call 1 .exec2, .call 2 .exec2, .popenFails 2, .finish 1, .finish 1]
    _ ?_ rfl rfl⟩
  simp [Machine.Meets, InOrder, step, mayCall, innermost, onSignal, State.init, Function.signal]

/-- Two threads that run `exec2` at once, the first to begin being the first to return:
    the second puts back `SIG_IGN`. -/
theorem dispositions_lost :
    ¬ ∀ (d : Signal → Disposition) (es : List (Event ℕ)) (s : State ℕ),
      Machine.run step (.init ℕ d) es = some s → s.calls = [] → s.disposition = d := by
  intro h
  have hd := h (fun _ => .SIG_DFL) [.call 1 .exec2, .call 2 .exec2, .finish 1, .finish 2] _ rfl rfl
  have hchld := congrFun hd .SIGCHLD
  revert hchld
  decide

end StackTrace.Dispositions
