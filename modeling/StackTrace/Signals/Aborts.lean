import StackTrace.Signals.Terminate

/-!
# The way to `std::abort`

A thread that terminates the program gets to `std::abort` if every thread can go on: one
that waits for `terminate_mutex` or `StackTrace_mutex` needs another one to unlock it.

* `terminate_aborts`: the threads can bring the program to `std::abort`, as long as only
  caught signals interrupt them, none of them between the lock of `terminate_mutex` and the
  new `abort_fun` or where a library call has `StackTrace_mutex`, and `err.what()` neither
  throws nor stays away. Behind a signal between the lock and the new `abort_fun` the
  program never gets to `std::abort`: the handler waits for the mutex of its own thread.
-/

namespace StackTrace.Terminate

variable {τ : Type*} [DecidableEq τ] {s s' : State τ} {e : Event τ} {mutex : Option τ} {t : τ}
  {f g : Frame} {fs : List Frame}

/-! ## The end of the program -/

/-- Nothing comes that a thread with a mutex would have to wait for. -/
def Undisturbed (s : State τ) : Event τ → Prop
  | .signal t sig =>
    s.catches t sig ∧ (∀ fs, s.frames t ≠ .locked :: fs) ∧ .library ∉ s.frames t
  | .escape t => s.frames t = []
  | .library _ | .advance _ => True
  | .lost _ => False

/-- Who has `StackTrace_mutex` goes on: a call of the library that nothing interrupts, or the
    thread with `terminate_mutex`. -/
structure Open (s : State τ) : Prop where
  library : ∀ t, .library ∈ s.frames t → s.frames t = [.library]
  mutex : ∀ t, s.StackTrace_mutex = some t → s.frames t = [.library] ∨ ∃ n, Held s (.tracing n)
  lost : ∀ t, .lost ∉ s.frames t
  killed : s.killed = false

theorem Counted.not_tracing (hs : Counted s) (h : s.terminate_mutex = none) :
    ¬ ∃ n, Held s (.tracing n) := by
  rintro ⟨n, hn⟩
  exact hs.mutex_ne_none hn h

omit [DecidableEq τ] in
theorem open_init (caught : ℤ → Bool) (throwException : Bool) (traced : τ → ℕ) :
    Open (.init τ caught throwException traced) where
  library t h := by simp [State.init] at h
  mutex t h := by simp [State.init] at h
  lost t := by simp [State.init]
  killed := rfl

/-- New frames of a thread that is in no call of the library. -/
theorem Open.setFrames (hs : Open s) {s₁ : State τ} {fs' : List Frame}
    (hframes : s₁.frames = s.frames) (hkilled : s₁.killed = s.killed)
    (hlibrary : .library ∈ fs' → fs' = [.library]) (hlost : .lost ∉ fs')
    (hmutex : ∀ u, s₁.StackTrace_mutex = some u → (s₁.setFrames t fs').frames u = [.library] ∨
      ∃ n, Held (s₁.setFrames t fs') (.tracing n)) : Open (s₁.setFrames t fs') where
  library u := by
    by_cases hu : u = t
    · subst hu
      rw [State.setFrames_self]
      exact hlibrary
    · rw [State.setFrames_of_ne hu, hframes]
      exact hs.library u
  mutex := hmutex
  lost u := by
    by_cases hu : u = t
    · subst hu
      rw [State.setFrames_self]
      exact hlost
    · rw [State.setFrames_of_ne hu, hframes]
      exact hs.lost u
  killed := hkilled.trans hs.killed

omit [DecidableEq τ] in
/-- Below another frame there is no call of the library. -/
theorem Open.rest (hs : Open s) (h : s.frames t = f :: fs) (hf : f ≠ .library) :
    .library ∉ fs ∧ .lost ∉ fs := by
  refine ⟨fun hmem => ?_, fun hmem => hs.lost t (by rw [h]; exact List.mem_cons_of_mem _ hmem)⟩
  have hfs := hs.library t (by rw [h]; exact List.mem_cons_of_mem _ hmem)
  exact hf (List.cons.inj (h.symm.trans hfs)).1

/-- A call of the library goes on where another thread does something. -/
theorem Open.library_setFrames {s₁ : State τ} {u : τ} {fs' : List Frame} (hf : f ≠ .library)
    (h : s.frames t = f :: fs) (hframes : s₁.frames = s.frames) (hu : s.frames u = [.library]) :
    (s₁.setFrames t fs').frames u = [.library] := by
  have hne : u ≠ t := by
    rintro rfl
    exact hf (List.cons.inj (h.symm.trans hu)).1
  rw [State.setFrames_of_ne hne, hframes, hu]

theorem open_outside {top top' : List Frame} {caught : ℤ → Bool} {handling : τ → List ℤ}
    (hs : Open s) (hok : Undisturbed s e) (h : s.frames t = top ++ fs)
    (hout : Outside s t e mutex top top') :
    Open ({ s with caught, handling, StackTrace_mutex := mutex }.setFrames t (top' ++ fs)) := by
  have hlost : .lost ∉ fs := fun hmem => hs.lost t (by rw [h]; exact List.mem_append_right _ hmem)
  -- a thread outside the library stays there, and the others go on
  have hkeep (hnot : .library ∉ top' ++ fs) (hnotlost : .lost ∉ top')
      (hmutex : mutex = s.StackTrace_mutex) (ht : s.frames t ≠ [.library]) :
      Open ({ s with caught, handling, StackTrace_mutex := mutex }.setFrames t (top' ++ fs)) := by
    refine hs.setFrames rfl rfl (fun hmem => absurd hmem hnot) (by simp [hlost, hnotlost])
      fun u hu => ?_
    refine (hs.mutex u (hmutex ▸ hu)).imp (fun hlib => ?_) fun ⟨n, hn⟩ => ⟨n, ?_⟩
    · have hne : u ≠ t := by
        rintro rfl
        exact ht hlib
      rw [State.setFrames_of_ne hne]
      exact hlib
    · exact (held_outside h hout).mpr hn
  have hnone (ht : s.frames t ≠ [.library]) : .library ∉ fs := fun hmem =>
    ht (hs.library t (by rw [h]; exact List.mem_append_right _ hmem))
  cases hout with
  | signal =>
    obtain ⟨-, -, hnot⟩ := hok
    have ht : s.frames t ≠ [.library] := fun heq => hnot (by simp [heq])
    exact hkeep (by simp [hnone ht]) (by simp) rfl ht
  | escape | escapeDisarmed =>
    have hidle : s.frames t = [] := hok
    have ht : s.frames t ≠ [.library] := by simp [hidle]
    exact hkeep (by simp [hnone ht]) (by simp) rfl ht
  | terminate | ignore | clearSignals | call | callDisarmed =>
    have ht : s.frames t ≠ [.library] := by simp [h]
    exact hkeep (by simp [hnone ht]) (by simp) rfl ht
  | library hidle =>
    obtain rfl : fs = [] := h.symm.trans hidle
    refine hs.setFrames rfl rfl (fun _ => rfl) (by simp) fun u hu => .inl ?_
    obtain rfl : t = u := Option.some.inj hu
    exact State.setFrames_self ..
  | release =>
    have hfs := hs.library t (by simp [h])
    obtain rfl : fs = [] := (List.cons.inj (h.symm.trans hfs)).2
    exact hs.setFrames rfl rfl (by simp) (by simp) fun u hu => absurd hu (by simp)

theorem open_inside (hs : Open s) (hcounted : Counted s) (hok : Undisturbed s e)
    (h : s.frames t = f :: fs) (hin : Inside s t e f g s') : Open (s'.setFrames t (g :: fs)) := by
  have hf : f ≠ .library := by
    rintro rfl
    exact absurd hin.holds.1 (by simp [Frame.holds])
  have hg : g ≠ .library := by
    rintro rfl
    exact absurd hin.holds.2 (by simp [Frame.holds])
  obtain ⟨hnone, hlost⟩ := hs.rest h hf
  have hkilled : s'.killed = s.killed := by cases hin <;> rfl
  have hglost : g ≠ .lost := by
    rintro rfl
    cases hin with
    | lost => exact hok
  refine hs.setFrames hin.frames.1 hkilled (fun hmem => absurd hmem (by simp [hnone, hg.symm]))
    (by simp [hlost, hglost.symm]) fun u hu => ?_
  -- the thread with `terminate_mutex` has the other one too only while it traces
  have hother (hmutex : s'.StackTrace_mutex = s.StackTrace_mutex)
      (htracing : ∀ n, f ≠ .tracing n) :
      (s'.setFrames t (g :: fs)).frames u = [.library] := by
    refine Open.library_setFrames hf h hin.frames.1 ((hs.mutex u (hmutex ▸ hu)).resolve_right ?_)
    rintro ⟨n, hn⟩
    exact htracing n ((hcounted.held_iff h hin.holds.1).mp hn).symm
  cases hin with
  | @trace n =>
    exact .inr ⟨n, rfl, t, mem_frames (State.setFrames_self ..)⟩
  | traced => exact absurd hu (by simp)
  | lost => exact absurd hok (by simp [Undisturbed])
  | disarm | clearSignals | leave | enter | mark | print => exact .inl (hother rfl (by simp))

theorem open_step (hs : Open s) (hcounted : Counted s) (hok : Undisturbed s e)
    (hstep : step s e = some s') : Open s' := by
  cases effect_of_step hstep with
  | outside caught handling mutex top top' h _ hout => exact open_outside hs hok h hout
  | @lock t fs h hfree =>
    obtain ⟨hnone, hlost⟩ := hs.rest h (by simp)
    refine hs.setFrames rfl rfl (fun hmem => absurd hmem (by simp [hnone])) (by simp [hlost])
      fun u hu => .inl ?_
    exact Open.library_setFrames (f := .waiting) (by simp) h rfl
      ((hs.mutex u hu).resolve_right (hcounted.not_tracing hfree))
  | inside h hin => exact open_inside hs hcounted hok h hin
  | @unlock t fs h =>
    have hnot : ¬ ∃ n, Held s (.tracing n) := by
      rintro ⟨n, hn⟩
      exact absurd ((hcounted.held_iff h rfl).mp hn) (by simp)
    obtain ⟨hnone, hlost⟩ := hs.rest h (by simp)
    refine hs.setFrames rfl rfl (fun hmem => absurd hmem (by simp [hnone])) (by simp [hlost])
      fun u hu => .inl ?_
    exact Open.library_setFrames (f := .callAbort) (by simp) h rfl
      ((hs.mutex u hu).resolve_right hnot)
  | abort => exact ⟨hs.library, hs.mutex, hs.lost, hs.killed⟩
  | kill h => exact absurd hok.1 h

/-- The frame is on the way to `std::abort`. -/
def Frame.ends (f : Frame) : Prop := f.holds = true ∨ f = .aborting

/-- A frame on the way to `std::abort` is interrupted only by handlers that return. -/
def OnTheWay (armed : Bool) (fs : List Frame) : Prop :=
  (∀ f ∈ fs, ¬ f.ends) ∨
    ∃ n f rest, fs = List.replicate n .terminateFunctionSignal ++ f :: rest ∧ f.ends ∧
      (∀ g ∈ rest, ¬ g.ends) ∧ (n ≠ 0 → armed = false)

theorem onTheWay_cons {armed : Bool} (hf : f.ends) (hfs : ∀ g ∈ fs, ¬ g.ends) :
    OnTheWay armed (f :: fs) := .inr ⟨0, f, fs, rfl, hf, hfs, fun h => absurd rfl h⟩

theorem not_ends_handler : ¬ Frame.terminateFunctionSignal.ends := by
  simp [Frame.ends, Frame.holds]

/-- Below another frame than a handler nothing is on the way. -/
theorem OnTheWay.rest {armed : Bool} (h : OnTheWay armed (f :: fs))
    (hf : f ≠ .terminateFunctionSignal) : ∀ g ∈ fs, ¬ g.ends := by
  rcases h with h | ⟨n, f', rest, heq, -, hrest, -⟩
  · exact (List.forall_mem_cons.mp h).2
  · cases n with
    | zero =>
      obtain ⟨-, rfl⟩ := List.cons.inj heq
      exact hrest
    | succ n => exact absurd (List.cons.inj heq).1 hf

theorem OnTheWay.handler {armed : Bool} (h : OnTheWay armed (.terminateFunctionSignal :: fs)) :
    (∀ g ∈ fs, ¬ g.ends) ∨ armed = false ∧ OnTheWay armed fs := by
  rcases h with h | ⟨n, f', rest, heq, hf, hrest, harmed⟩
  · exact .inl (List.forall_mem_cons.mp h).2
  · cases n with
    | zero =>
      obtain ⟨rfl, rfl⟩ := List.cons.inj heq
      exact absurd hf not_ends_handler
    | succ n =>
      obtain ⟨-, rfl⟩ := List.cons.inj heq
      have harmed := harmed n.succ_ne_zero
      exact .inr ⟨harmed, .inr ⟨n, f', rest, rfl, hf, hrest, fun _ => harmed⟩⟩

/-- Another signal. -/
theorem OnTheWay.interrupt {armed : Bool} (h : OnTheWay armed fs)
    (htop : ∀ f rest, fs = f :: rest → f.ends → armed = false) :
    OnTheWay armed (.terminateFunctionSignal :: fs) := by
  rcases h with h | ⟨n, f, rest, rfl, hf, hrest, harmed⟩
  · exact .inl (List.forall_mem_cons.mpr ⟨not_ends_handler, h⟩)
  · refine .inr ⟨n + 1, f, rest, rfl, hf, hrest, fun _ => ?_⟩
    cases n with
    | zero => exact htop f rest rfl hf
    | succ n => exact harmed n.succ_ne_zero

theorem OnTheWay.disarm {armed : Bool} (h : OnTheWay armed fs) : OnTheWay false fs := by
  rcases h with h | ⟨n, f, rest, heq, hf, hrest, -⟩
  · exact .inl h
  · exact .inr ⟨n, f, rest, heq, hf, hrest, fun _ => rfl⟩

/-- What makes the way to `std::abort` free. -/
structure Free (s : State τ) : Prop where
  message : Message s
  opened : Open s
  onTheWay : ∀ t, OnTheWay s.armed (s.frames t)
  /-- a replaced `abort_fun` means that some thread is on the way -/
  disarmed : s.armed = false → ∃ t, ∃ f ∈ s.frames t, f.ends
  armed : s.armed = true → ∀ t, .aborting ∉ s.frames t

theorem free_init (caught : ℤ → Bool) (throwException : Bool) (traced : τ → ℕ) :
    Free (.init τ caught throwException traced) where
  message := message_init caught throwException traced
  opened := open_init caught throwException traced
  onTheWay _ := .inl (by simp [State.init])
  disarmed h := by simp [State.init] at h
  armed _ := by simp [State.init]

/-- New frames of one thread. -/
theorem Free.setFrames (hs : Free s) {s₁ : State τ} {fs' : List Frame}
    (hframes : s₁.frames = s.frames) (hsame : s₁.armed = s.armed ∨ s₁.armed = false)
    (hmessage : Message (s₁.setFrames t fs')) (hopened : Open (s₁.setFrames t fs'))
    (hway : OnTheWay s₁.armed fs')
    (hends : (∃ f ∈ fs', f.ends) ∨
      s₁.armed = s.armed ∧ ∀ f ∈ s.frames t, f.ends → f ∈ fs')
    (harmed : s₁.armed = true → .aborting ∉ fs') : Free (s₁.setFrames t fs') where
  message := hmessage
  opened := hopened
  onTheWay u := by
    by_cases hu : u = t
    · subst hu
      rw [State.setFrames_self]
      exact hway
    · rw [State.setFrames_of_ne hu, hframes]
      rcases hsame with hsame | hsame
      · exact hsame ▸ hs.onTheWay u
      · exact hsame ▸ (hs.onTheWay u).disarm
  disarmed h := by
    rcases hends with ⟨f, hmem, hf⟩ | ⟨hsame, hkeep⟩
    · exact ⟨t, f, by rwa [State.setFrames_self], hf⟩
    · obtain ⟨u, f, hmem, hf⟩ := hs.disarmed (hsame ▸ h)
      refine ⟨u, f, ?_, hf⟩
      by_cases hu : u = t
      · subst hu
        rw [State.setFrames_self]
        exact hkeep f hmem hf
      · rwa [State.setFrames_of_ne hu, hframes]
  armed h u := by
    by_cases hu : u = t
    · subst hu
      rw [State.setFrames_self]
      exact harmed h
    · rw [State.setFrames_of_ne hu, hframes]
      rcases hsame with hsame | hsame
      · exact hs.armed (hsame ▸ h) u
      · exact absurd (hsame ▸ h) Bool.false_ne_true

/-- With `terminate` in `abort_fun` the only frame on the way is the one behind the mutex. -/
theorem Free.eq_locked (hs : Free s) (harmed : s.armed = true) (hmem : f ∈ s.frames t)
    (hf : f.ends) : f = .locked := by
  rcases hf with hf | rfl
  · exact (hs.message.unarmed harmed).2 f ⟨hf, t, hmem⟩
  · exact absurd hmem (hs.armed harmed t)

/-- A thread that is not on the way, before and behind the step. -/
theorem Free.setCalm (hs : Free s) {s₁ : State τ} {fs' : List Frame}
    (hframes : s₁.frames = s.frames) (hsame : s₁.armed = s.armed)
    (hmessage : Message (s₁.setFrames t fs')) (hopened : Open (s₁.setFrames t fs'))
    (hold : ∀ f ∈ s.frames t, ¬ f.ends) (hnew : ∀ f ∈ fs', ¬ f.ends) : Free (s₁.setFrames t fs') :=
  hs.setFrames hframes (.inl hsame) hmessage hopened (.inl hnew)
    (.inr ⟨hsame, fun f hmem hf => absurd hf (hold f hmem)⟩) fun _ hmem => hnew _ hmem (.inr rfl)

/-- A thread that goes to `std::abort` past `abort_fun`. -/
theorem Free.setAborting (hs : Free s) {s₁ : State τ} (hframes : s₁.frames = s.frames)
    (hsame : s₁.armed = s.armed) (harmed : s.armed = false)
    (hmessage : Message (s₁.setFrames t (.aborting :: fs)))
    (hopened : Open (s₁.setFrames t (.aborting :: fs))) (hfs : ∀ f ∈ fs, ¬ f.ends) :
    Free (s₁.setFrames t (.aborting :: fs)) :=
  hs.setFrames hframes (.inl hsame) hmessage hopened (onTheWay_cons (.inr rfl) hfs)
    (.inl ⟨_, List.mem_cons_self, .inr rfl⟩)
    fun h => absurd ((hsame.trans harmed).symm.trans h) (by simp)

theorem free_outside {top top' : List Frame} {caught : ℤ → Bool} {handling : τ → List ℤ}
    (hs : Free s) (hok : Undisturbed s e) (h : s.frames t = top ++ fs)
    (hout : Outside s t e mutex top top')
    (hmessage : Message
      ({ s with caught, handling, StackTrace_mutex := mutex }.setFrames t (top' ++ fs)))
    (hopened : Open
      ({ s with caught, handling, StackTrace_mutex := mutex }.setFrames t (top' ++ fs))) :
    Free ({ s with caught, handling, StackTrace_mutex := mutex }.setFrames t (top' ++ fs)) := by
  have hway := hs.onTheWay t
  rw [h] at hway
  -- no frame outside is on the way
  have hcons (f : Frame) (hf : f.holds = false) (hne : f ≠ .aborting) {fs : List Frame}
      (hfs : ∀ g ∈ fs, ¬ g.ends) : ∀ g ∈ f :: fs, ¬ g.ends :=
    List.forall_mem_cons.mpr ⟨by simp [Frame.ends, hf, hne], hfs⟩
  cases hout with
  | signal =>
    refine hs.setFrames rfl (.inl rfl) hmessage hopened (hway.interrupt fun f rest heq hf => ?_)
      (.inr ⟨rfl, fun f hmem _ => ?_⟩) fun harmed => ?_
    · by_contra harmed
      have hmem : f ∈ s.frames t := by rw [h]; simp [heq]
      have hlocked := hs.eq_locked (Bool.eq_true_of_not_eq_false harmed) hmem hf
      exact hok.2.1 rest (by rw [h, ← hlocked]; exact heq)
    · rw [h] at hmem
      exact List.mem_append_right _ hmem
    · have hnot := hs.armed harmed t
      rw [h] at hnot
      simpa using hnot
  | terminate harmed =>
    have hcalm := hway.handler.resolve_right fun h => absurd (harmed.symm.trans h.1) (by simp)
    exact hs.setCalm rfl rfl hmessage hopened (h ▸ hcons _ rfl (by simp) hcalm)
      (hcons _ rfl (by simp) hcalm)
  | ignore harmed =>
    refine hs.setFrames rfl (.inl rfl) hmessage hopened ?_ (.inr ⟨rfl, fun f hmem hf => ?_⟩)
      fun h => absurd (harmed.symm.trans h) (by simp)
    · rcases hway.handler with hcalm | ⟨-, hway⟩
      · exact .inl hcalm
      · exact hway
    · rw [h] at hmem
      refine (List.mem_cons.mp hmem).resolve_left ?_
      rintro rfl
      exact not_ends_handler hf
  | escape =>
    have hidle : s.frames t = [] := hok
    obtain rfl : fs = [] := h.symm.trans hidle
    exact hs.setCalm rfl rfl hmessage hopened (by simp [hidle]) (hcons _ rfl (by simp) (by simp))
  | clearSignals | call =>
    have hcalm := hway.rest (by simp)
    exact hs.setCalm rfl rfl hmessage hopened (h ▸ hcons _ rfl (by simp) hcalm)
      (hcons _ rfl (by simp) hcalm)
  | escapeDisarmed _ harmed =>
    have hidle : s.frames t = [] := hok
    obtain rfl : fs = [] := h.symm.trans hidle
    exact hs.setAborting rfl rfl harmed hmessage hopened (by simp)
  | callDisarmed harmed =>
    exact hs.setAborting rfl rfl harmed hmessage hopened (hway.rest (by simp))
  | library hidle =>
    obtain rfl : fs = [] := h.symm.trans hidle
    exact hs.setCalm rfl rfl hmessage hopened (by simp [hidle]) (hcons _ rfl (by simp) (by simp))
  | release =>
    have hcalm := hway.rest (by simp)
    exact hs.setCalm rfl rfl hmessage hopened (h ▸ hcons _ rfl (by simp) hcalm) hcalm

theorem free_step (hs : Free s) (hok : Undisturbed s e) (hstep : step s e = some s') :
    Free s' := by
  have heffect := effect_of_step hstep
  have hmessage := message_effect hs.message heffect
  have hopened := open_step hs.opened hs.message.counted hok hstep
  cases heffect with
  | outside caught handling mutex top top' h _ hout =>
    exact free_outside hs hok h hout hmessage hopened
  | @lock t fs h hfree =>
    have hrest := (h ▸ hs.onTheWay t).rest (by simp)
    refine hs.setFrames rfl (.inl rfl) hmessage hopened (onTheWay_cons (.inl rfl) hrest)
      (.inl ⟨_, List.mem_cons_self, .inl rfl⟩) fun _ hmem => ?_
    exact hrest .aborting ((List.mem_cons.mp hmem).resolve_left (by simp)) (.inr rfl)
  | @inside t f g fs e s₁ h hin =>
    have hf : f ≠ .terminateFunctionSignal := by
      rintro rfl
      exact absurd hin.holds.1 (by simp [Frame.holds])
    have hg : .aborting ≠ g := by
      rintro rfl
      exact absurd hin.holds.2 (by simp [Frame.holds])
    have hrest := (h ▸ hs.onTheWay t).rest hf
    have harmed : s₁.armed = s.armed ∨ s₁.armed = false := by
      cases hin with
      | disarm => exact .inr rfl
      | clearSignals | leave | enter | mark | trace | traced | print | lost => exact .inl rfl
    refine hs.setFrames hin.frames.1 harmed hmessage hopened
      (onTheWay_cons (.inl hin.holds.2) hrest)
      (.inl ⟨_, List.mem_cons_self, .inl hin.holds.2⟩) fun _ hmem => ?_
    exact hrest .aborting ((List.mem_cons.mp hmem).resolve_left hg) (.inr rfl)
  | @unlock t fs h =>
    have hrest := (h ▸ hs.onTheWay t).rest (by simp)
    refine hs.setFrames rfl (.inl rfl) hmessage hopened (onTheWay_cons (.inr rfl) hrest)
      (.inl ⟨_, List.mem_cons_self, .inr rfl⟩) fun harmed => ?_
    exact absurd (hs.eq_locked harmed (mem_frames h) (.inl rfl)) (by simp)
  | abort | kill => exact ⟨hmessage, hopened, hs.onTheWay, hs.disarmed, hs.armed⟩

/-! ## A way to the end -/

/-- The program can be brought to its end by what its threads are about to do, unless a
    signal has ended it. -/
def Ends (s : State τ) : Prop :=
  s.killed = false → ∃ ts : List τ, ∃ u,
    Machine.run step s (ts.map .advance) = some u ∧ u.aborted = true

theorem killed_of_advance (h : advance s t = some s') : s'.killed = s.killed := by
  cases effect_of_advance h with
  | inside _ hin => cases hin <;> rfl
  | outside | lock | unlock | abort => rfl

theorem ends_of_advance (t : τ) (h : ∃ s', advance s t = some s' ∧ Ends s') : Ends s := by
  intro hkilled
  obtain ⟨s', h, hs⟩ := h
  by_cases haborted : s.aborted = true
  · exact ⟨[], s, rfl, haborted⟩
  · obtain ⟨ts, u, hrun, hu⟩ := hs ((killed_of_advance h).trans hkilled)
    have hended : s.ended = false := by simp [State.ended, haborted, hkilled]
    exact ⟨t :: ts, u, Machine.run_cons.mpr ⟨s', step_eq_some.mpr ⟨hended, h⟩, hrun⟩, hu⟩

/-- `StackTrace_mutex` is free, or a call of the library has it that goes on. -/
def Lockable (s : State τ) : Prop :=
  ∀ u, s.StackTrace_mutex = some u → s.frames u = [.library]

theorem Lockable.setFrames (hlock : Lockable s) {fs' : List Frame}
    (hframes : s'.frames = s.frames) (hmutex : s'.StackTrace_mutex = s.StackTrace_mutex)
    (h : s.frames t = f :: fs) (hf : f ≠ .library) : Lockable (s'.setFrames t fs') := by
  intro u hu
  exact Open.library_setFrames hf h hframes (hlock u (hmutex ▸ hu))

theorem ends_aborting (h : s.frames t = .aborting :: fs) : Ends s := by
  refine ends_of_advance t ?_
  simp only [advance, h, Option.some.injEq, exists_eq_left']
  exact fun _ => ⟨[], _, rfl, rfl⟩

theorem ends_callAbort (h : s.frames t = .callAbort :: fs) : Ends s := by
  refine ends_of_advance t ?_
  simp only [advance, h, Option.some.injEq, exists_eq_left']
  exact ends_aborting (State.setFrames_self ..)

theorem ends_what {n : ℕ} (h : s.frames t = .what n :: fs) (hfree : s.StackTrace_mutex = none) :
    Ends s := by
  induction n generalizing s with
  | zero =>
    refine ends_of_advance t ?_
    simp only [advance, h, Option.some.injEq, exists_eq_left']
    exact ends_callAbort (State.setFrames_self ..)
  | succ n ih =>
    refine ends_of_advance t ?_
    simp only [advance, h, if_pos hfree, Option.some.injEq, exists_eq_left']
    refine ends_of_advance t ?_
    simp only [advance, State.setFrames_self, Option.some.injEq, exists_eq_left']
    exact ih (State.setFrames_self ..) rfl

theorem ends_tracing {n : ℕ} (h : s.frames t = .tracing n :: fs) : Ends s := by
  refine ends_of_advance t ?_
  simp only [advance, h, Option.some.injEq, exists_eq_left']
  exact ends_what (State.setFrames_self ..) rfl

/-- The call of the library that has the mutex unlocks it first. -/
theorem ends_what_of_lockable {n : ℕ} (h : s.frames t = .what n :: fs) (hlock : Lockable s) :
    Ends s := by
  rcases hmutex : s.StackTrace_mutex with _ | u
  · exact ends_what h hmutex
  · have hlibrary := hlock u hmutex
    have hne : t ≠ u := by
      rintro rfl
      exact absurd (h.symm.trans hlibrary) (by simp)
    refine ends_of_advance u ?_
    simp only [advance, hlibrary, Option.some.injEq, exists_eq_left']
    exact ends_what ((State.setFrames_of_ne hne ..).trans h) rfl

theorem ends_marking (h : s.frames t = .marking :: fs) (hlock : Lockable s) : Ends s := by
  refine ends_of_advance t ?_
  simp only [advance, h, Option.some.injEq, exists_eq_left']
  exact ends_what_of_lockable (State.setFrames_self ..) (hlock.setFrames rfl rfl h (by simp))

theorem ends_cleared (h : s.frames t = .cleared :: fs) (hlock : Lockable s) : Ends s := by
  refine ends_of_advance t ?_
  simp only [advance, h, Option.some.injEq, exists_eq_left']
  split_ifs with hforce
  · exact ends_callAbort (State.setFrames_self ..)
  · exact ends_marking (State.setFrames_self ..) (hlock.setFrames rfl rfl h (by simp))

theorem ends_disarmed (h : s.frames t = .disarmed :: fs) (hlock : Lockable s) : Ends s := by
  refine ends_of_advance t ?_
  simp only [advance, h, Option.some.injEq, exists_eq_left']
  exact ends_cleared (State.setFrames_self ..) (hlock.setFrames rfl rfl h (by simp))

theorem ends_locked (h : s.frames t = .locked :: fs) (hlock : Lockable s) : Ends s := by
  refine ends_of_advance t ?_
  simp only [advance, h, Option.some.injEq, exists_eq_left']
  exact ends_disarmed (State.setFrames_self ..) (hlock.setFrames rfl rfl h (by simp))

theorem ends_waiting (h : s.frames t = .waiting :: fs) (hfree : s.terminate_mutex = none)
    (hlock : Lockable s) : Ends s := by
  refine ends_of_advance t ?_
  simp only [advance, h, if_pos hfree, Option.some.injEq, exists_eq_left']
  exact ends_locked (State.setFrames_self ..) (hlock.setFrames rfl rfl h (by simp))

theorem ends_calling (h : s.frames t = .calling :: fs) (harmed : s.armed = true)
    (hfree : s.terminate_mutex = none) (hlock : Lockable s) : Ends s := by
  refine ends_of_advance t ?_
  simp only [advance, h, if_pos harmed, Option.some.injEq, exists_eq_left']
  exact ends_waiting (State.setFrames_self ..) hfree (hlock.setFrames rfl rfl h (by simp))

theorem ends_of_ends (h : s.frames t = f :: fs) (hf : f.ends) (hlost : f ≠ .lost)
    (hlock : f.holds = true → (∃ n, f = .tracing n) ∨ Lockable s) : Ends s := by
  cases f with
  | locked => exact ends_locked h ((hlock rfl).resolve_left (by simp))
  | disarmed => exact ends_disarmed h ((hlock rfl).resolve_left (by simp))
  | cleared => exact ends_cleared h ((hlock rfl).resolve_left (by simp))
  | marking => exact ends_marking h ((hlock rfl).resolve_left (by simp))
  | what n => exact ends_what_of_lockable h ((hlock rfl).resolve_left (by simp))
  | tracing n => exact ends_tracing h
  | lost => exact absurd rfl hlost
  | callAbort => exact ends_callAbort h
  | aborting => exact ends_aborting h
  | terminateFunctionSignal | term_func | calling | waiting | library =>
    simp [Frame.ends, Frame.holds] at hf

/-- Handlers that return uncover the frame on the way. -/
theorem ends_of_handlers {n : ℕ} (h : s.frames t = List.replicate n .terminateFunctionSignal ++
    f :: fs) (hf : f.ends) (harmed : n ≠ 0 → s.armed = false) (hlost : f ≠ .lost)
    (hlock : f.holds = true → (∃ n, f = .tracing n) ∨ Lockable s) : Ends s := by
  induction n generalizing s with
  | zero => exact ends_of_ends h hf hlost hlock
  | succ n ih =>
    have harmed := harmed n.succ_ne_zero
    rw [List.replicate_succ, List.cons_append] at h
    refine ends_of_advance t ?_
    simp only [advance, h, if_neg (Bool.eq_false_iff.mp harmed), Option.some.injEq,
      exists_eq_left']
    exact ih (State.setFrames_self ..) (fun _ => harmed)
      fun hf => (hlock hf).imp_right fun hlock => hlock.setFrames rfl rfl h (by simp)

/-- A thread with `terminate_mutex` has `StackTrace_mutex` too, or can get it. -/
theorem Free.lockable (hs : Free s) (hf : Held s f) : (∃ n, f = .tracing n) ∨ Lockable s := by
  by_cases htracing : ∃ n, f = .tracing n
  · exact .inl htracing
  · refine .inr fun u hu => (hs.opened.mutex u hu).resolve_right ?_
    rintro ⟨n, hn⟩
    exact htracing ⟨n, hs.message.counted.held_unique hf hn⟩

/-- Where a thread is on the way the program can be brought to its end. -/
theorem Free.ends_of_mem (hs : Free s) (hmem : f ∈ s.frames t) (hf : f.ends) : Ends s := by
  rcases hs.onTheWay t with hcalm | ⟨n, f, rest, heq, hf, -, harmed⟩
  · exact absurd hf (hcalm f hmem)
  · have hmem : f ∈ s.frames t := by simp [heq]
    have hlost : f ≠ .lost := by
      rintro rfl
      exact hs.opened.lost t hmem
    exact ends_of_handlers heq hf harmed hlost fun hf => hs.lockable ⟨hf, t, hmem⟩

theorem Counted.exists_mem (hs : Counted s) (h : s.terminate_mutex = some t) :
    ∃ f ∈ s.frames t, f.holds = true := by
  have hcount := hs t
  rw [if_pos h] at hcount
  exact List.countP_pos_iff.mp (by omega)

/-- With a thread at the handlers the program can be brought to its end. -/
theorem Free.ends (hs : Free s) (hmem : f ∈ s.frames t) (hf : f ≠ .library) : Ends s := by
  by_cases harmed : s.armed = true
  · rcases hmutex : s.terminate_mutex with _ | u
    · have hlock : Lockable s := fun u hu =>
        (hs.opened.mutex u hu).resolve_right (hs.message.counted.not_tracing hmutex)
      obtain ⟨g, fs, hframes⟩ := List.exists_cons_of_ne_nil (List.ne_nil_of_mem hmem)
      cases g with
      | waiting => exact ends_waiting hframes hmutex hlock
      | calling => exact ends_calling hframes harmed hmutex hlock
      | terminateFunctionSignal =>
        refine ends_of_advance t ?_
        simp only [advance, hframes, if_pos harmed, Option.some.injEq, exists_eq_left']
        exact ends_waiting (State.setFrames_self ..) hmutex
          (hlock.setFrames rfl rfl hframes (by simp))
      | term_func =>
        refine ends_of_advance t ?_
        simp only [advance, hframes, Option.some.injEq, exists_eq_left']
        exact ends_calling (State.setFrames_self ..) harmed hmutex
          (hlock.setFrames rfl rfl hframes (by simp))
      | library =>
        rw [hs.opened.library t (by simp [hframes]), List.mem_singleton] at hmem
        exact absurd hmem hf
      | locked | disarmed | cleared | marking | what | tracing | lost | callAbort | aborting =>
        exact hs.ends_of_mem (mem_frames hframes) (by simp [Frame.ends, Frame.holds])
    · obtain ⟨f, hmem, hf⟩ := hs.message.counted.exists_mem hmutex
      exact hs.ends_of_mem hmem (.inl hf)
  · obtain ⟨u, f, hmem, hf⟩ := hs.disarmed (Bool.eq_false_of_not_eq_true harmed)
    exact hs.ends_of_mem hmem hf

/-! ## A signal too early -/

/-- Once `abort_fun` is replaced, the signals are caught until the thread that replaced it
    clears them. -/
def Silenced (s : State τ) : Prop :=
  s.armed = false → Held s .disarmed ∨ ∀ sig, s.caught sig = false

theorem silenced_effect (hs : Silenced s) (hcounted : Counted s) (h : Effect s e s') :
    Silenced s' := by
  have hcounted' := counted_effect hcounted h
  cases h with
  | @outside t fs e caught handling mutex top top' h hcaught hout =>
    intro harmed
    rw [held_outside h hout]
    refine (hs harmed).imp_right fun hnone sig => ?_
    by_contra hsig
    exact absurd (hnone sig) (by simp [hcaught sig (Bool.eq_true_of_not_eq_false hsig)])
  | lock h hfree =>
    intro harmed
    exact .inr ((hs harmed).resolve_left fun hheld => hcounted.mutex_ne_none hheld hfree)
  | @inside t f g fs e s₁ h hin =>
    intro harmed
    have hheld : ∀ k, Held s k ↔ k = f := fun k => hcounted.held_iff h hin.holds.1
    cases hin with
    | disarm => exact .inl ⟨rfl, t, mem_frames (State.setFrames_self ..)⟩
    | clearSignals => exact .inr fun _ => rfl
    | leave | enter | mark | trace | traced | print =>
      exact .inr ((hs harmed).resolve_left fun hdis => absurd ((hheld _).mp hdis) (by simp))
    | lost hwhat =>
      refine .inr ((hs harmed).resolve_left fun hdis => ?_)
      obtain rfl := (hheld _).mp hdis
      exact absurd hwhat Bool.false_ne_true
  | @unlock t fs h =>
    intro harmed
    have hheld : ∀ k, Held s k ↔ k = .callAbort := fun k => hcounted.held_iff h rfl
    exact .inr ((hs harmed).resolve_left fun hdis => absurd ((hheld _).mp hdis) (by simp))
  | abort | kill => exact hs

/-- The thread `t` waits for itself. -/
structure Stuck (t : τ) (s : State τ) : Prop where
  armed : s.armed = true
  aborted : s.aborted = false
  counted : Counted s
  mutex : s.terminate_mutex = some t
  frames : ∃ f hs fs, s.frames t = f :: hs ++ .locked :: fs ∧
    ∀ g ∈ f :: hs, g = .terminateFunctionSignal ∨ g = .waiting
  aborting : ∀ u, .aborting ∉ s.frames u

omit [DecidableEq τ] in
/-- With `terminate` in `abort_fun` nobody goes to `std::abort` past it. -/
theorem Outside.not_aborting {top top' : List Frame} (h : Outside s t e mutex top top')
    (harmed : s.armed = true) : .aborting ∉ top' := by
  cases h with
  | escapeDisarmed _ h | callDisarmed h => exact absurd (harmed.symm.trans h) (by simp)
  | signal | terminate | ignore | escape | clearSignals | call | library | release => simp

theorem Stuck.setFrames {u : τ} (hs : Stuck t s) {caught : ℤ → Bool} {handling : τ → List ℤ}
    {fs' : List Frame}
    (hcounted : Counted ({ s with caught, handling, StackTrace_mutex := mutex }.setFrames u fs'))
    (hframes : u = t → ∃ f hs fs, fs' = f :: hs ++ .locked :: fs ∧
      ∀ g ∈ f :: hs, g = .terminateFunctionSignal ∨ g = .waiting)
    (haborting : .aborting ∉ fs') :
    Stuck t ({ s with caught, handling, StackTrace_mutex := mutex }.setFrames u fs') := by
  refine ⟨hs.armed, hs.aborted, hcounted, hs.mutex, ?_, fun v hmem => ?_⟩
  · by_cases hu : t = u
    · subst hu
      rw [State.setFrames_self]
      exact hframes rfl
    · rw [State.setFrames_of_ne hu]
      exact hs.frames
  · rcases mem_setFrames hmem with hmem | hmem
    · exact haborting hmem
    · exact hs.aborting v hmem

theorem stuck_step (hs : Stuck t s) (hstep : step s e = some s') : Stuck t s' := by
  have heffect := effect_of_step hstep
  have hcounted := counted_effect hs.counted heffect
  obtain ⟨f, newer, older, hframes, hall⟩ := hs.frames
  have hf := hall f List.mem_cons_self
  have hnewer : ∀ g ∈ newer, g = .terminateFunctionSignal ∨ g = .waiting := fun g hg =>
    hall g (List.mem_cons_of_mem f hg)
  -- the newest frame of the thread with the mutex is not one that holds it
  have hidle {u : τ} {g : Frame} {fs : List Frame} (h : s.frames u = g :: fs) :
      g.holds = false := by
    by_contra hg
    have hg : g.holds = true := Bool.eq_true_of_not_eq_false hg
    obtain rfl := Option.some.inj
      ((hs.counted.mutex_eq hg (mem_frames h)).symm.trans hs.mutex)
    rw [hframes] at h
    obtain rfl := (List.cons.inj h).1
    rcases hf with rfl | rfl <;> simp [Frame.holds] at hg
  cases heffect with
  | @outside u fs e caught handling mutex top top' h _ hout =>
    refine hs.setFrames hcounted ?_ fun hmem => ?_
    · rintro rfl
      have htop := h
      rw [hframes] at htop
      cases hout with
      | signal =>
        exact ⟨.terminateFunctionSignal, f :: newer, older, congrArg _ htop.symm,
          List.forall_mem_cons.mpr ⟨.inl rfl, hall⟩⟩
      | terminate =>
        have hrest := (List.cons.inj htop).2
        exact ⟨.waiting, newer, older, congrArg _ hrest.symm,
          List.forall_mem_cons.mpr ⟨.inr rfl, hnewer⟩⟩
      | ignore harmed | callDisarmed harmed =>
        exact absurd (hs.armed.symm.trans harmed) (by simp)
      | escape hopen | escapeDisarmed hopen =>
        have hopen := hopen f (by simp [hframes])
        rcases hf with rfl | rfl <;> simp [Frame.inWhat] at hopen
      | library hidle => exact absurd (hframes.symm.trans hidle) (by simp)
      | clearSignals | call | release =>
        obtain rfl := (List.cons.inj htop).1
        simp at hf
    · rcases List.mem_append.mp hmem with hmem | hmem
      · exact hout.not_aborting hs.armed hmem
      · exact hs.aborting u (by rw [h]; exact List.mem_append_right _ hmem)
  | lock h hfree => exact absurd (hs.mutex.symm.trans hfree) (by simp)
  | inside h hin => exact absurd hin.holds.1 (by simp [hidle h])
  | unlock h => exact absurd (hidle h) (by simp [Frame.holds])
  | @abort u fs h => exact absurd (mem_frames h) (hs.aborting u)
  | kill => exact ⟨hs.armed, hs.aborted, hcounted, hs.mutex, hs.frames, hs.aborting⟩

/-- A caught signal between the mutex and the new `abort_fun`. -/
theorem stuck_of_interrupted {sig : ℤ} (hs : Free s) (hsilenced : Silenced s)
    (hframes : s.frames t = .locked :: fs) (hsig : s.catches t sig) (hended : s.ended = false)
    (hstep : step s (.signal t sig) = some s') : Stuck t s' := by
  have hcounted := counted_effect hs.message.counted (effect_of_step hstep)
  obtain ⟨-, hmove⟩ := step_eq_some.mp hstep
  simp only [move, if_pos hsig] at hmove
  obtain rfl := Option.some.inj hmove
  have harmed : s.armed = true := by
    by_contra harmed
    rcases hsilenced (Bool.eq_false_of_not_eq_true harmed) with hheld | hnone
    · exact absurd ((hs.message.counted.held_iff hframes rfl).mp hheld) (by simp)
    · exact absurd hsig.1 (by simp [hnone sig])
  refine ⟨harmed, (Bool.or_eq_false_iff.mp hended).1, hcounted,
    hs.message.counted.mutex_eq rfl (mem_frames hframes),
    ⟨_, [], fs, by rw [State.setFrames_self, hframes]; rfl, by simp⟩, fun u hmem => ?_⟩
  rcases mem_setFrames hmem with hmem | hmem
  · exact hs.armed harmed t ((List.mem_cons.mp hmem).resolve_left (by simp))
  · exact hs.armed harmed u hmem

/-- Behind the end there are no more steps. -/
theorem run_ended (h : s.ended = true) {es : List (Event τ)}
    (hrun : Machine.run step s es = some s') : s' = s := by
  cases es with
  | nil => exact (Option.some.inj hrun).symm
  | cons e es =>
    obtain ⟨u, hstep, -⟩ := Machine.run_cons.mp hrun
    exact absurd h (by simp [(step_eq_some.mp hstep).1])

theorem silenced_run {caught : ℤ → Bool} {throwException : Bool} {traced : τ → ℕ}
    {es : List (Event τ)}
    (hrun : Machine.run step (.init τ caught throwException traced) es = some s) :
    Silenced s := by
  have hinit : Silenced (.init τ caught throwException traced) :=
    fun h => absurd h (by simp [State.init])
  refine (Machine.invariant_of_run (P := fun s : State τ => Counted s ∧ Silenced s)
    (fun _ _ _ hs hstep => ?_) ⟨fun _ => rfl, hinit⟩ hrun).2
  have heffect := effect_of_step hstep
  exact ⟨counted_effect hs.1 heffect, silenced_effect hs.2 hs.1 heffect⟩

/-- As long as nothing disturbs the threads, they can bring the program to `std::abort` from
    any state in which one of them has a signal or an exception that terminates it. Behind a
    signal between the lock of `terminate_mutex` and the new `abort_fun` the program never
    gets to `std::abort`. -/
theorem terminate_aborts (caught : ℤ → Bool) (throwException : Bool) (traced : τ → ℕ) :
    (∀ (es : List (Event τ)) (s : State τ),
      Machine.Meets step Undisturbed (.init τ caught throwException traced) es →
      Machine.run step (.init τ caught throwException traced) es = some s →
        ∀ t, (∃ f ∈ s.frames t, f ≠ .library) →
          ∃ ts : List τ, ∃ u,
            Machine.run step s (ts.map .advance) = some u ∧ u.aborted = true) ∧
    (∀ (es : List (Event τ)) (t : τ) (sig : ℤ) (fs : List Frame) (s s' : State τ),
      Machine.Meets step Undisturbed (.init τ caught throwException traced) es →
      Machine.run step (.init τ caught throwException traced) es = some s →
        s.frames t = .locked :: fs → step s (.signal t sig) = some s' →
        ∀ es' u, Machine.run step s' es' = some u → u.aborted = false) := by
  have hfree {es : List (Event τ)} {s : State τ}
      (hok : Machine.Meets step Undisturbed (.init τ caught throwException traced) es)
      (hrun : Machine.run step (.init τ caught throwException traced) es = some s) : Free s :=
    Machine.invariant_of_meets (fun _ _ _ hs hok hstep => free_step hs hok hstep)
      (free_init caught throwException traced) hok hrun
  constructor
  · rintro es s hok hrun t ⟨f, hmem, hf⟩
    have hs := hfree hok hrun
    exact hs.ends hmem hf hs.opened.killed
  · intro es t sig fs s s' hok hrun hframes hstep es' u hu
    have hended := (step_eq_some.mp hstep).1
    by_cases hsig : s.catches t sig
    · have hstuck := stuck_of_interrupted (hfree hok hrun) (silenced_run hrun) hframes hsig hended
        hstep
      exact (Machine.invariant_of_run (fun _ _ _ hs hstep => stuck_step hs hstep) hstuck hu).aborted
    · -- a fault in the handler of its own signal, or a signal that is not caught
      obtain ⟨-, hmove⟩ := step_eq_some.mp hstep
      simp only [move, if_neg hsig] at hmove
      obtain rfl := Option.some.inj hmove
      rw [run_ended (by simp [State.ended]) hu]
      exact (Bool.or_eq_false_iff.mp hended).1

end StackTrace.Terminate
