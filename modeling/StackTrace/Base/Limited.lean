import Mathlib

/-!
# Runs with a limited number of steps

A recursive program without a bound on its depth is run for so many steps. It has a
result, or its steps are used up, or its next step is undefined.

* `Agrees`: one run has the results of another one, and stops where it stops for a
  lasting reason. Runs with more steps, and runs of a program that stops less often,
  agree with a run in this sense.
* `Ends`: with steps enough the run is over, with a result or without.
-/

namespace StackTrace

/-- Why there is no result. -/
inductive Stop
  | steps
  | undefined
deriving DecidableEq

/-- What a limited number of steps leads to. -/
abbrev Limited (α : Type) := Except Stop α

namespace Limited

open Filter

variable {α β : Type} {K : Stop → Prop} {r r' : Limited α}

theorem ok_of_bind {f : α → Limited β} {y : β} (h : r >>= f = .ok y) :
    ∃ x, r = .ok x ∧ f x = .ok y := by
  cases r with
  | error e => cases h
  | ok x => exact ⟨x, rfl, h⟩

theorem isOk_iff : r.isOk = true ↔ ∃ x, r = .ok x := by
  cases r with
  | error e => simp [Except.isOk, Except.toBool]
  | ok x => simp [Except.isOk, Except.toBool]

theorem exists_of_any {p : α → Bool} (h : r.toOption.any p = true) :
    ∃ x, r = .ok x ∧ p x = true := by
  cases r with
  | error e => cases h
  | ok x => exact ⟨x, rfl, h⟩

theorem eq_ok_of_toOption {x : α} (h : r.toOption = some x) : r = .ok x := by
  cases r with
  | error e => cases h
  | ok y => rw [Option.some.inj h]

/-- The next step of the run is undefined. -/
def isUndefined : Limited α → Bool
  | .error .undefined => true
  | _ => false

theorem isUndefined_iff : r.isUndefined = true ↔ r = .error .undefined := by
  rcases r with (_ | _) | x <;> simp [isUndefined]

theorem bind_ne {f : α → Limited β} {e : Stop} (h : r ≠ .error e) (hf : ∀ x, f x ≠ .error e) :
    r >>= f ≠ .error e := by
  cases r with
  | error e' => exact fun heq => h (congrArg _ (Except.error.inj heq))
  | ok x => exact hf x

/-- Every element comes from a call. -/
theorem forall₂_of_mapM {f : α → Limited β} {l : List α} {l' : List β} (h : l.mapM f = .ok l') :
    List.Forall₂ (fun a b => f a = .ok b) l l' := by
  induction l generalizing l' with
  | nil =>
    obtain rfl := Except.ok.inj h
    exact .nil
  | cons a l ih =>
    rw [List.mapM_cons] at h
    obtain ⟨b, hb, h⟩ := ok_of_bind h
    obtain ⟨bs, hbs, h⟩ := ok_of_bind h
    obtain rfl := Except.ok.inj h
    exact .cons hb (ih hbs)

/-- What the calls make of good elements is good. -/
theorem forall_of_mapM {P : α → Prop} {Q : β → Prop} {f : α → Limited β} {l : List α} {l' : List β}
    (hf : ∀ a b, P a → f a = .ok b → Q b) (hl : ∀ a ∈ l, P a) (h : l.mapM f = .ok l') :
    ∀ b ∈ l', Q b := by
  have hpairs := forall₂_of_mapM h
  clear h
  induction hpairs with
  | nil => simp
  | cons hab _ ih =>
    obtain ⟨ha, hl⟩ := List.forall_mem_cons.mp hl
    exact List.forall_mem_cons.mpr ⟨hf _ _ ha hab, ih hl⟩

/-! ## Agreement -/

/-- `r'` has the result of `r`, and stops for the reasons in `K` where `r` does. -/
structure Agrees (K : Stop → Prop) (r r' : Limited α) : Prop where
  ok : ∀ x, r = .ok x → r' = .ok x
  error : ∀ e, K e → r = .error e → r' = .error e

theorem Agrees.refl (K : Stop → Prop) (r : Limited α) : Agrees K r r :=
  ⟨fun _ h => h, fun _ _ h => h⟩

/-- Nothing is asked of a run that stops for another reason. -/
theorem Agrees.of_error {e : Stop} (he : ¬ K e) (r' : Limited α) : Agrees K (.error e) r' :=
  ⟨nofun, fun _ he' h => absurd he' (Except.error.inj h ▸ he)⟩

theorem Agrees.bind {f f' : α → Limited β} (h : Agrees K r r') (hf : ∀ x, Agrees K (f x) (f' x)) :
    Agrees K (r >>= f) (r' >>= f') := by
  cases r with
  | ok x =>
    rw [h.ok x rfl]
    exact hf x
  | error e =>
    refine ⟨nofun, fun e' he' heq => ?_⟩
    obtain rfl : e = e' := Except.error.inj heq
    rw [h.error e he' rfl]
    rfl

theorem Agrees.mapM {f f' : α → Limited β} {l : List α} (hf : ∀ x ∈ l, Agrees K (f x) (f' x)) :
    Agrees K (l.mapM f) (l.mapM f') := by
  induction l with
  | nil => exact .refl K _
  | cons a l ih =>
    obtain ⟨ha, hl⟩ := List.forall_mem_cons.mp hf
    rw [List.mapM_cons, List.mapM_cons]
    exact ha.bind fun y => (ih hl).bind fun ys => .refl K _

/-! ## Runs that end -/

variable {ι κ : Type} {l : Filter ι} {run : ι → Limited α}

/-- From some number of steps on, the run is over and always the same. -/
def Ends (l : Filter ι) (run : ι → Limited α) : Prop :=
  ∃ r, r ≠ .error .steps ∧ ∀ᶠ i in l, run i = r

theorem ends_const (l : Filter ι) (hr : r ≠ .error .steps) : Ends l fun _ => r :=
  ⟨r, hr, .of_forall fun _ => rfl⟩

theorem Ends.congr {run' : ι → Limited α} (h : Ends l run) (heq : ∀ᶠ i in l, run' i = run i) :
    Ends l run' := by
  obtain ⟨r, hr, hrun⟩ := h
  exact ⟨r, hr, by filter_upwards [heq, hrun] with i h₁ h₂ using h₁.trans h₂⟩

theorem Ends.comp {l' : Filter κ} {g : κ → ι} (h : Ends l run) (hg : Tendsto g l' l) :
    Ends l' fun k => run (g k) := by
  obtain ⟨r, hr, hrun⟩ := h
  exact ⟨r, hr, hg.eventually hrun⟩

/-- One run, and behind it another one. -/
theorem Ends.bind {f : ι → α → Limited β} (h : Ends l run)
    (hf : ∀ x, (∀ᶠ i in l, run i = .ok x) → Ends l fun i => f i x) :
    Ends l fun i => run i >>= f i := by
  obtain ⟨r, hr, hrun⟩ := h
  cases r with
  | error e =>
    refine ⟨.error e, fun h => hr (congrArg _ (Except.error.inj h)), ?_⟩
    filter_upwards [hrun] with i hi
    rw [hi]
    rfl
  | ok x =>
    refine (hf x hrun).congr ?_
    filter_upwards [hrun] with i hi
    rw [hi]
    rfl

theorem Ends.mapM {f : ι → α → Limited β} {as : List α} (hf : ∀ a ∈ as, Ends l fun i => f i a) :
    Ends l fun i => as.mapM (f i) := by
  induction as with
  | nil => exact ends_const l nofun
  | cons a as ih =>
    obtain ⟨ha, has⟩ := List.forall_mem_cons.mp hf
    simp only [List.mapM_cons]
    exact ha.bind fun b _ => (ih has).bind fun bs _ => ends_const l nofun

end Limited

end StackTrace
