import StackTrace.Base.Machine
import StackTrace.Threads.ActiveThreads

/-!
# The handles of the active threads

`activeThreads` (`StackTraceThreads.cpp`, lines 146–165 and 207–210) signals one thread
after the other. The handler of a signalled thread writes its handle to `thread_handle`
and then sets `thread_id_finished`; the calling thread waits for this for 0.1 s at most.
Both variables are shared by all threads, and a handler may run at any time behind its
signal.

* `activeThreads_handles`: in every run the result is sorted, has the calling thread once
  and otherwise threads that were signalled; it has every signalled thread once, if none
  answers late.
-/

namespace StackTrace.ActiveThreads

/-! ## Model -/

/-- How far the loop is with the first of the remaining ids. -/
inductive Stage where
  | start
  /-- `thread_id_finished = false` -/
  | lowered
  /-- `thread_handle = thread0` -/
  | armed
  /-- `tgkill` -/
  | sent
  /-- behind the inner loop -/
  | left
  /-- `thread_handle != thread0` -/
  | passed
deriving DecidableEq

/-- The shared variables, the threads that have a signal to come, those whose handler is
    between its two writes, the ids from `tid[i]` on, and the handles found so far. -/
structure State (τ : Type*) where
  thread_handle : τ
  thread_id_finished : Bool
  pending : List τ
  writing : List τ
  rest : List ℤ
  stage : Stage
  threads : List τ

/-- Before the loop over `ids`; `thread_handle` is what an earlier call has left. -/
def State.init {τ : Type*} (thread_handle : τ) (ids : List ℤ) : State τ :=
  ⟨thread_handle, false, [], [], ids, .start, []⟩

/-- A step of the calling thread, or of the handler of the thread `u`. -/
inductive Event (τ : Type*) where
  | lower
  | arm
  | kill
  /-- the inner loop ends because `thread_id_finished` is set -/
  | finished
  /-- the inner loop ends because the time is up -/
  | timeout
  | test
  | take
  /-- `thread_handle = handle` in the thread `u` -/
  | write (u : τ)
  /-- `thread_id_finished = true` in the thread `u` -/
  | finish (u : τ)

variable {τ : Type*} [LinearOrder τ] (handleOf : ℤ → Option τ) (thread0 : τ)

/-- One step. `handleOf` gives the thread of an id, if it is still there. -/
def step (s : State τ) : Event τ → Option (State τ)
  | .lower =>
    if s.stage = .start ∧ s.rest ≠ [] then
      some { s with thread_id_finished := false, stage := .lowered }
    else none
  | .arm =>
    if s.stage = .lowered then some { s with thread_handle := thread0, stage := .armed } else none
  | .kill =>
    if s.stage = .armed then
      some { s with
        pending := (s.rest.head?.bind handleOf).toList ++ s.pending
        stage := .sent }
    else none
  | .finished =>
    if s.stage = .sent ∧ s.thread_id_finished then some { s with stage := .left } else none
  | .timeout => if s.stage = .sent then some { s with stage := .left } else none
  | .test =>
    if s.stage = .left then
      if s.thread_handle ≠ thread0 then some { s with stage := .passed }
      else some { s with rest := s.rest.tail, stage := .start }
    else none
  | .take =>
    if s.stage = .passed then
      some { s with
        threads := s.threads ++ [s.thread_handle], rest := s.rest.tail, stage := .start }
    else none
  | .write u =>
    if u ∈ s.pending then
      some { s with thread_handle := u, pending := s.pending.erase u, writing := u :: s.writing }
    else none
  | .finish u =>
    if u ∈ s.writing then
      some { s with thread_id_finished := true, writing := s.writing.erase u }
    else none

/-- The loop is at its end. -/
def State.Done (s : State τ) : Prop := s.stage = .start ∧ s.rest = []

/-- Lines 207–210: the calling thread is added, and the handles are sorted. -/
def activeThreads (s : State τ) : List τ := (s.threads ++ [thread0]).mergeSort (· ≤ ·)

/-- The thread that has been or is to be signalled, if it is there. -/
def State.target (s : State τ) : Option τ := s.rest.head?.bind handleOf

/-- The inner loop is not left before a thread that is there has answered. -/
def InTime (s : State τ) : Event τ → Prop
  | .timeout => s.target handleOf = none
  | _ => True

/-! ## What a step can be -/

/-- Every step, with what it needs and what it leaves. -/
inductive Effect (s : State τ) : Event τ → State τ → Prop
  | lower (h : s.stage = .start) (hrest : s.rest ≠ []) :
      Effect s .lower { s with thread_id_finished := false, stage := .lowered }
  | arm (h : s.stage = .lowered) :
      Effect s .arm { s with thread_handle := thread0, stage := .armed }
  | kill (h : s.stage = .armed) :
      Effect s .kill { s with pending := (s.target handleOf).toList ++ s.pending, stage := .sent }
  | finished (h : s.stage = .sent) (hfinished : s.thread_id_finished = true) :
      Effect s .finished { s with stage := .left }
  | timeout (h : s.stage = .sent) : Effect s .timeout { s with stage := .left }
  | pass (h : s.stage = .left) (hhandle : s.thread_handle ≠ thread0) :
      Effect s .test { s with stage := .passed }
  | drop (h : s.stage = .left) (hhandle : s.thread_handle = thread0) :
      Effect s .test { s with rest := s.rest.tail, stage := .start }
  | take (h : s.stage = .passed) :
      Effect s .take { s with
        threads := s.threads ++ [s.thread_handle], rest := s.rest.tail, stage := .start }
  | write {u : τ} (h : u ∈ s.pending) :
      Effect s (.write u) { s with
        thread_handle := u, pending := s.pending.erase u, writing := u :: s.writing }
  | finish {u : τ} (h : u ∈ s.writing) :
      Effect s (.finish u) { s with thread_id_finished := true, writing := s.writing.erase u }

/-! ## Every run -/

/-- A thread with one of these ids. -/
def Listed (ids : List ℤ) (u : τ) : Prop := ∃ id ∈ ids, handleOf id = some u

/-- What holds in every run. -/
structure Sound (ids : List ℤ) (s : State τ) : Prop where
  rest : s.rest <:+ ids
  busy : s.stage ≠ .start → s.rest ≠ []
  length : s.threads.length + s.rest.length ≤ ids.length
  pending : ∀ u ∈ s.pending, Listed handleOf ids u
  writing : ∀ u ∈ s.writing, Listed handleOf ids u
  threads : ∀ u ∈ s.threads, Listed handleOf ids u
  handle : s.stage ≠ .start → s.stage ≠ .lowered → s.thread_handle ≠ thread0 →
    Listed handleOf ids s.thread_handle
  passed : s.stage = .passed → s.thread_handle ≠ thread0

variable {handleOf thread0} {ids : List ℤ} {s s' : State τ}

theorem effect_of_step {e : Event τ} (h : step handleOf thread0 s e = some s') :
    Effect handleOf thread0 s e s' := by
  cases e with
  | lower =>
    simp only [step] at h
    split_ifs at h with hcond
    obtain rfl := Option.some.inj h
    exact .lower hcond.1 hcond.2
  | arm =>
    simp only [step] at h
    split_ifs at h with hcond
    obtain rfl := Option.some.inj h
    exact .arm hcond
  | kill =>
    simp only [step] at h
    split_ifs at h with hcond
    obtain rfl := Option.some.inj h
    exact .kill hcond
  | finished =>
    simp only [step] at h
    split_ifs at h with hcond
    obtain rfl := Option.some.inj h
    exact .finished hcond.1 hcond.2
  | timeout =>
    simp only [step] at h
    split_ifs at h with hcond
    obtain rfl := Option.some.inj h
    exact .timeout hcond
  | test =>
    simp only [step] at h
    split_ifs at h with hcond hne
    · obtain rfl := Option.some.inj h
      exact .pass hcond hne
    · obtain rfl := Option.some.inj h
      exact .drop hcond (not_not.mp hne)
  | take =>
    simp only [step] at h
    split_ifs at h with hcond
    obtain rfl := Option.some.inj h
    exact .take hcond
  | write u =>
    simp only [step] at h
    split_ifs at h with hcond
    obtain rfl := Option.some.inj h
    exact .write hcond
  | finish u =>
    simp only [step] at h
    split_ifs at h with hcond
    obtain rfl := Option.some.inj h
    exact .finish hcond

omit [LinearOrder τ] in
theorem sound_init (thread_handle : τ) : Sound handleOf thread0 ids (.init thread_handle ids) where
  rest := List.suffix_rfl
  busy h := absurd rfl h
  length := by simp [State.init]
  pending := by simp [State.init]
  writing := by simp [State.init]
  threads := by simp [State.init]
  handle h := absurd rfl h
  passed h := by cases h

omit [LinearOrder τ] in
theorem listed_target (hrest : s.rest <:+ ids) {u : τ}
    (hu : u ∈ (s.rest.head?.bind handleOf).toList) : Listed handleOf ids u := by
  obtain ⟨id, hid, hu⟩ := Option.bind_eq_some_iff.mp (Option.mem_toList.mp hu)
  exact ⟨id, hrest.subset (List.mem_of_mem_head? hid), hu⟩

theorem sound_step {e : Event τ} (hown : ¬ Listed handleOf ids thread0)
    (h : Sound handleOf thread0 ids s) (hstep : step handleOf thread0 s e = some s') :
    Sound handleOf thread0 ids s' := by
  obtain ⟨hrest, hbusy, hlength, hpending, hwriting, hthreads, hhandle, hpassed⟩ := h
  have htail : s.rest.tail <:+ ids := (List.tail_suffix _).trans hrest
  cases effect_of_step hstep with
  | lower h hne =>
    exact ⟨hrest, fun _ => hne, hlength, hpending, hwriting, hthreads,
      fun _ hne => absurd rfl hne, fun heq => by cases heq⟩
  | arm h =>
    exact ⟨hrest, fun _ => hbusy (by simp [h]), hlength, hpending, hwriting, hthreads,
      fun _ _ hne => absurd rfl hne, fun heq => by cases heq⟩
  | kill h =>
    refine ⟨hrest, fun _ => hbusy (by simp [h]), hlength, fun u hu => ?_, hwriting, hthreads,
      fun _ _ => hhandle (by simp [h]) (by simp [h]), fun heq => by cases heq⟩
    rcases List.mem_append.mp hu with hu | hu
    · exact listed_target hrest hu
    · exact hpending u hu
  | finished h | timeout h =>
    exact ⟨hrest, fun _ => hbusy (by simp [h]), hlength, hpending, hwriting, hthreads,
      fun _ _ => hhandle (by simp [h]) (by simp [h]), fun heq => by cases heq⟩
  | pass h hne =>
    exact ⟨hrest, fun _ => hbusy (by simp [h]), hlength, hpending, hwriting, hthreads,
      fun _ _ => hhandle (by simp [h]) (by simp [h]), fun _ => hne⟩
  | drop =>
    refine ⟨htail, fun hne => absurd rfl hne, ?_, hpending, hwriting, hthreads,
      fun hne => absurd rfl hne, fun heq => by cases heq⟩
    show s.threads.length + s.rest.tail.length ≤ ids.length
    rw [List.length_tail]
    omega
  | take h =>
    refine ⟨htail, fun hne => absurd rfl hne, ?_, hpending, hwriting, fun u hu => ?_,
      fun hne => absurd rfl hne, fun heq => by cases heq⟩
    · have hpos := List.length_pos_iff.mpr (hbusy (by simp [h]))
      show (s.threads ++ [s.thread_handle]).length + s.rest.tail.length ≤ ids.length
      rw [List.length_append, List.length_tail, List.length_singleton]
      omega
    · rcases List.mem_append.mp hu with hu | hu
      · exact hthreads u hu
      · obtain rfl := List.mem_singleton.mp hu
        exact hhandle (by simp [h]) (by simp [h]) (hpassed h)
  | write hmem =>
    have hu := hpending _ hmem
    refine ⟨hrest, hbusy, hlength, fun v hv => hpending v (List.mem_of_mem_erase hv),
      List.forall_mem_cons.mpr ⟨hu, hwriting⟩, hthreads, fun _ _ _ => hu, fun _ => ?_⟩
    rintro rfl
    exact hown hu
  | finish =>
    exact ⟨hrest, hbusy, hlength, hpending, fun v hv => hwriting v (List.mem_of_mem_erase hv),
      hthreads, hhandle, hpassed⟩

/-! ## Runs in time -/

/-- How far the answer of the thread that is signalled is. -/
inductive Answer (thread0 : τ) (s : State τ) : Option τ → Prop
  | gone (hpending : s.pending = []) (hwriting : s.writing = [])
      (hhandle : s.thread_handle = thread0) : Answer thread0 s none
  | pending {u : τ} (hpending : s.pending = [u]) (hwriting : s.writing = [])
      (hfinished : s.thread_id_finished = false) : Answer thread0 s (some u)
  | writing {u : τ} (hpending : s.pending = []) (hwriting : s.writing = [u])
      (hfinished : s.thread_id_finished = false) (hhandle : s.thread_handle = u) :
      Answer thread0 s (some u)
  | finished {u : τ} (hpending : s.pending = []) (hwriting : s.writing = [])
      (hfinished : s.thread_id_finished = true) (hhandle : s.thread_handle = u) :
      Answer thread0 s (some u)

/-- What holds between two events. -/
def Phase (handleOf : ℤ → Option τ) (thread0 : τ) (s : State τ) : Prop :=
  match s.stage with
  | .start => s.pending = [] ∧ s.writing = []
  | .lowered => s.pending = [] ∧ s.writing = [] ∧ s.thread_id_finished = false
  | .armed =>
    s.pending = [] ∧ s.writing = [] ∧ s.thread_id_finished = false ∧ s.thread_handle = thread0
  | .sent => Answer thread0 s (s.target handleOf)
  | .left =>
    s.pending = [] ∧ s.writing = [] ∧ s.thread_handle = (s.target handleOf).getD thread0
  | .passed => s.pending = [] ∧ s.writing = [] ∧ s.target handleOf = some s.thread_handle

/-- What holds in a run in time. -/
structure Exact (handleOf : ℤ → Option τ) (thread0 : τ) (ids : List ℤ) (s : State τ) : Prop where
  sound : Sound handleOf thread0 ids s
  threads : s.threads ++ s.rest.filterMap handleOf = ids.filterMap handleOf
  phase : Phase handleOf thread0 s

omit [LinearOrder τ] in
theorem exact_init (thread_handle : τ) : Exact handleOf thread0 ids (.init thread_handle ids) where
  sound := sound_init thread_handle
  threads := rfl
  phase := ⟨rfl, rfl⟩

omit [LinearOrder τ] in
/-- The answer of the first remaining id, and those of the others. -/
theorem filterMap_rest (h : s.rest ≠ []) :
    s.rest.filterMap handleOf =
      (s.target handleOf).toList ++ s.rest.tail.filterMap handleOf := by
  obtain ⟨id, rest, hrest⟩ := List.exists_cons_of_ne_nil h
  unfold State.target
  rw [hrest]
  cases hid : handleOf id <;> simp [hid]

omit [LinearOrder τ] in
/-- Handlers run behind their signal only. -/
theorem phase_sent (h : Phase handleOf thread0 s) (hne : ¬ (s.pending = [] ∧ s.writing = [])) :
    s.stage = .sent ∧ Answer thread0 s (s.target handleOf) := by
  unfold Phase at h
  cases hstage : s.stage with
  | sent =>
    rw [hstage] at h
    exact ⟨rfl, h⟩
  | start =>
    rw [hstage] at h
    exact absurd h hne
  | lowered | armed | left | passed =>
    rw [hstage] at h
    exact absurd ⟨h.1, h.2.1⟩ hne

omit [LinearOrder τ] in
theorem Answer.phase (h : Answer thread0 s (s.target handleOf)) (hstage : s.stage = .sent) :
    Phase handleOf thread0 s := by
  unfold Phase
  rw [hstage]
  exact h

omit [LinearOrder τ] in
/-- The inner loop is left when the thread has answered, or if it is not there. -/
theorem Answer.left {target : Option τ} (h : Answer thread0 s target)
    (hdone : s.thread_id_finished = true ∨ target = none) :
    s.pending = [] ∧ s.writing = [] ∧ s.thread_handle = target.getD thread0 := by
  cases h with
  | gone hpending hwriting hhandle => exact ⟨hpending, hwriting, hhandle⟩
  | pending _ _ hfinished | writing _ _ hfinished => simp [hfinished] at hdone
  | finished hpending hwriting _ hhandle => exact ⟨hpending, hwriting, hhandle⟩

theorem Answer.write {target : Option τ} {u : τ} (h : Answer thread0 s target)
    (hu : u ∈ s.pending) :
    Answer thread0 { s with
      thread_handle := u, pending := s.pending.erase u, writing := u :: s.writing } target := by
  cases h with
  | pending hpending hwriting hfinished =>
    obtain rfl : u = _ := by simpa [hpending] using hu
    exact .writing (by simp [hpending]) (by simp [hwriting]) hfinished rfl
  | gone hpending | writing hpending | finished hpending => simp [hpending] at hu

theorem Answer.finish {target : Option τ} {u : τ} (h : Answer thread0 s target)
    (hu : u ∈ s.writing) :
    Answer thread0 { s with thread_id_finished := true, writing := s.writing.erase u } target := by
  cases h with
  | writing hpending hwriting _ hhandle =>
    obtain rfl : u = _ := by simpa [hwriting] using hu
    exact .finished hpending (by simp [hwriting]) rfl hhandle
  | gone _ hwriting | pending _ hwriting | finished _ hwriting => simp [hwriting] at hu

theorem phase_step {e : Event τ} (hown : ¬ Listed handleOf ids thread0)
    (h : Exact handleOf thread0 ids s) (hok : InTime handleOf s e)
    (hstep : step handleOf thread0 s e = some s') :
    s'.threads ++ s'.rest.filterMap handleOf = ids.filterMap handleOf ∧
      Phase handleOf thread0 s' := by
  obtain ⟨hsound, hthreads, hphase⟩ := h
  have hbusy := hsound.busy
  cases effect_of_step hstep with
  | lower hstage =>
    simp only [Phase, hstage] at hphase
    exact ⟨hthreads, hphase.1, hphase.2, rfl⟩
  | arm hstage =>
    simp only [Phase, hstage] at hphase
    exact ⟨hthreads, hphase.1, hphase.2.1, hphase.2.2, rfl⟩
  | kill hstage =>
    simp only [Phase, hstage] at hphase
    obtain ⟨hpending, hwriting, hfinished, hhandle⟩ := hphase
    refine ⟨hthreads, ?_⟩
    show Answer thread0 _ (s.target handleOf)
    cases htarget : s.target handleOf with
    | none => exact .gone (by simp [hpending]) hwriting hhandle
    | some u => exact .pending (by simp [hpending]) hwriting hfinished
  | finished hstage hfinished =>
    simp only [Phase, hstage] at hphase
    exact ⟨hthreads, hphase.left (.inl hfinished)⟩
  | timeout hstage =>
    simp only [Phase, hstage] at hphase
    exact ⟨hthreads, hphase.left (.inr hok)⟩
  | pass hstage hne =>
    simp only [Phase, hstage] at hphase
    obtain ⟨hpending, hwriting, hhandle⟩ := hphase
    refine ⟨hthreads, hpending, hwriting, ?_⟩
    show s.target handleOf = some s.thread_handle
    cases htarget : s.target handleOf with
    | none => exact absurd (by simpa [htarget] using hhandle) hne
    | some u => rw [hhandle, htarget, Option.getD_some]
  | drop hstage heq =>
    simp only [Phase, hstage] at hphase
    obtain ⟨hpending, hwriting, hhandle⟩ := hphase
    have hnone : s.target handleOf = none := by
      by_contra hsome
      obtain ⟨u, hu⟩ := Option.ne_none_iff_exists'.mp hsome
      rw [hu, Option.getD_some, heq] at hhandle
      exact hown (listed_target hsound.rest (Option.mem_toList.mpr (hhandle ▸ hu)))
    rw [filterMap_rest (hbusy (by simp [hstage])), hnone] at hthreads
    exact ⟨hthreads, hpending, hwriting⟩
  | take hstage =>
    simp only [Phase, hstage] at hphase
    obtain ⟨hpending, hwriting, htarget⟩ := hphase
    rw [filterMap_rest (hbusy (by simp [hstage])), htarget] at hthreads
    refine ⟨?_, hpending, hwriting⟩
    rw [← hthreads]
    simp
  | write hmem =>
    obtain ⟨hstage, hanswer⟩ := phase_sent hphase (by
      rintro ⟨hpending, -⟩
      simp [hpending] at hmem)
    exact ⟨hthreads, (hanswer.write hmem).phase hstage⟩
  | finish hmem =>
    obtain ⟨hstage, hanswer⟩ := phase_sent hphase (by
      rintro ⟨-, hwriting⟩
      simp [hwriting] at hmem)
    exact ⟨hthreads, (hanswer.finish hmem).phase hstage⟩

theorem exact_step {e : Event τ} (hown : ¬ Listed handleOf ids thread0)
    (h : Exact handleOf thread0 ids s) (hok : InTime handleOf s e)
    (hstep : step handleOf thread0 s e = some s') : Exact handleOf thread0 ids s' :=
  have hnext := phase_step hown h hok hstep
  ⟨sound_step hown h.sound hstep, hnext.1, hnext.2⟩

/-! ## The result -/

/-- In every run the result is sorted, the calling thread is in it once, and any other entry is
    a thread that was signalled, with no more entries than threads. If no thread answers late,
    the entries are the calling thread and the signalled threads that are there. -/
theorem activeThreads_handles (handleOf : ℤ → Option τ) (thread0 : τ) (ids : List ℤ)
    (hown : ∀ id ∈ ids, handleOf id ≠ some thread0) (thread_handle : τ) (es : List (Event τ))
    (s : State τ)
    (hrun : Machine.run (step handleOf thread0) (.init thread_handle ids) es = some s)
    (hdone : s.Done) :
    ((activeThreads thread0 s).Pairwise (· ≤ ·) ∧ (activeThreads thread0 s).count thread0 = 1 ∧
      (∀ u ∈ activeThreads thread0 s, u = thread0 ∨ ∃ id ∈ ids, handleOf id = some u) ∧
      (activeThreads thread0 s).length ≤ ids.length + 1) ∧
    (Machine.Meets (step handleOf thread0) (InTime handleOf) (.init thread_handle ids) es →
      (activeThreads thread0 s).Perm (thread0 :: ids.filterMap handleOf)) := by
  have hnot : ¬ Listed handleOf ids thread0 := fun ⟨id, hid, h⟩ => hown id hid h
  have hsound : Sound handleOf thread0 ids s :=
    Machine.invariant_of_run (fun _ _ _ h hstep => sound_step hnot h hstep)
      (sound_init thread_handle) hrun
  have hperm : (activeThreads thread0 s).Perm (thread0 :: s.threads) :=
    (List.mergeSort_perm _ _).trans (List.perm_append_singleton _ _)
  have hfresh : thread0 ∉ s.threads := fun h => hnot (hsound.threads _ h)
  refine ⟨⟨List.pairwise_mergeSort' _ _, ?_, fun u hu => ?_, ?_⟩, fun hok => ?_⟩
  · rw [hperm.count_eq, List.count_cons_self, List.count_eq_zero_of_not_mem hfresh]
  · rcases List.mem_cons.mp (hperm.mem_iff.mp hu) with rfl | hu
    · exact .inl rfl
    · exact .inr (hsound.threads u hu)
  · have hlength := hsound.length
    rw [hperm.length_eq, List.length_cons]
    omega
  · have hexact : Exact handleOf thread0 ids s :=
      Machine.invariant_of_meets (fun _ _ _ h hok hstep => exact_step hnot h hok hstep)
        (exact_init thread_handle) hok hrun
    have hthreads := hexact.threads
    rw [hdone.2, List.filterMap_nil, List.append_nil] at hthreads
    rw [← hthreads]
    exact hperm

/-- Two other threads, of which one is gone. -/
theorem activeThreads_handles_two :
    ∃ s : State ℕ,
      Machine.run (step (fun id => if id = 8 then some 80 else none) 70) (.init 0 [8, 9])
        [.lower, .arm, .kill, .write 80, .finish 80, .finished, .test, .take,
          .lower, .arm, .kill, .timeout, .test] = some s ∧
      (activeThreads 70 s).Perm [70, 80] := by
  refine ⟨_, rfl, (activeThreads_handles (fun id => if id = 8 then some 80 else none) 70 [8, 9]
    (by decide) 0 [.lower, .arm, .kill, .write 80, .finish 80, .finished, .test, .take,
      .lower, .arm, .kill, .timeout, .test] _ rfl ⟨rfl, rfl⟩).2 ?_⟩
  simp [Machine.Meets, InTime, step, State.init, State.target]

end StackTrace.ActiveThreads
