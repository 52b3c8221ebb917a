import StackTrace.Base.CText
import StackTrace.Base.Keyed
import StackTrace.Base.Machine

/-!
# Environmental variables

`Utilities.cpp`, lines 369–401: `setenv` and `getenv` hold one mutex, so that the calls of all
threads come one after the other. The environment is the system's: a list of texts
`name=value`, in which `::setenv` replaces the first entry of a name or appends one,
`::unsetenv` removes all of them, and `std::getenv` reads the first one.

* `run_getenv`: `getenv` gives the value of the last call that did not fail, and a call that
  fails writes behind its buffer if and only if the message is too long.
-/

namespace StackTrace

namespace Utilities

/-! ## The system -/

/-- `environ`. -/
abbrev Environ := List Bytes

/-- The name of a variable is not empty and has no `=`. -/
def ValidName (name : Bytes) : Prop := name ≠ [] ∧ 61 ∉ name

instance (name : Bytes) : Decidable (ValidName name) := inferInstanceAs (Decidable (_ ∧ _))

namespace Environ

/-- The entry begins with `name=`. -/
def belongs (name entry : Bytes) : Bool := (name ++ [61]).isPrefixOf entry

/-- `::setenv( name, value, 1 )` where it does not fail. -/
def setenv (environ : Environ) (name value : Bytes) : Environ :=
  Keyed.upsert (belongs name) (fun _ => name ++ 61 :: value) (name ++ 61 :: value) environ

/-- `::unsetenv( name )` where it does not fail. -/
def unsetenv (environ : Environ) (name : Bytes) : Environ :=
  environ.filter fun entry => !belongs name entry

/-- `std::getenv( name )`. -/
def getenv (environ : Environ) (name : Bytes) : Option Bytes :=
  (environ.find? (belongs name)).map (List.drop (name.length + 1))

end Environ

/-! ## Model -/

/-- A call of `setenv`, where `value` may be a null pointer. `memory` says whether the system
    has the memory for a new entry. -/
structure Setenv where
  name : Bytes
  value : Option Bytes
  memory : Bool

namespace Setenv

/-- `pass`: what `::setenv` and `::unsetenv` return. -/
def pass (c : Setenv) : Bool :=
  match c.value with
  | none => ValidName c.name
  | some _ => ValidName c.name && c.memory

/-- What a call that passes makes of the environment. -/
def effect (c : Setenv) (environ : Environ) : Environ :=
  match c.value with
  | none => environ.unsetenv c.name
  | some value => environ.setenv c.name value

/-- What is printed to `msg` (lines 385–388). -/
def msg (c : Setenv) : Bytes :=
  match c.value with
  | some value => ascii "Error setting environmental variable: " ++ c.name ++ ascii "=" ++ value
  | none => ascii "Error clearing environmental variable: " ++ c.name ++ ascii "\n"

end Setenv

/-- `setenv` (lines 369–391), with the message that it throws; `msg` has 1024 characters. -/
def setenv (environ : Environ) (c : Setenv) : Option (Environ × Option Bytes) :=
  if c.pass then some (c.effect environ, none)
  else if c.msg.length < 1024 then some (environ, some c.msg) else none

/-- `getenv` (lines 392–401). -/
def getenv (environ : Environ) (name : Bytes) : Bytes := (environ.getenv name).getD []

/-- The environment behind a call, whether it throws or not. -/
def step (environ : Environ) (c : Setenv) : Option Environ := (setenv environ c).map Prod.fst

/-- The last call that has changed the variable. -/
def lastSetenv (name : Bytes) (calls : List Setenv) : Option Setenv :=
  (calls.filter fun c => c.pass && c.name = name).getLast?

/-! ## The entries -/

theorem ValidName.of_pass {c : Setenv} (h : c.pass = true) : ValidName c.name := by
  unfold Setenv.pass at h
  cases hvalue : c.value with
  | none => simpa [hvalue] using h
  | some value =>
    rw [hvalue] at h
    exact of_decide_eq_true (Bool.and_eq_true_iff.mp h).1

namespace Environ

variable {name name' : Bytes}

theorem belongs_iff {entry : Bytes} :
    belongs name entry = true ↔ ∃ value, entry = name ++ 61 :: value := by
  unfold belongs
  rw [List.isPrefixOf_iff_prefix]
  constructor
  · rintro ⟨value, rfl⟩
    exact ⟨value, by simp⟩
  · rintro ⟨value, rfl⟩
    exact ⟨value, by simp⟩

/-- An entry belongs to one name. -/
theorem name_eq_of_entry_eq (hname : 61 ∉ name) (hname' : 61 ∉ name') {value value' : Bytes}
    (h : name ++ 61 :: value = name' ++ 61 :: value') : name = name' := by
  have htake : ∀ {n : Bytes} (v : Bytes), 61 ∉ n →
      (n ++ 61 :: v).takeWhile (· ≠ 61) = n := fun v hn => by
    rw [List.takeWhile_append_of_pos, List.takeWhile_cons_of_neg (by simp), List.append_nil]
    exact fun c hc => decide_eq_true fun heq => hn (heq ▸ hc)
  rw [← htake value hname, h, htake value' hname']

theorem belongs_of_ne (hname : 61 ∉ name) (hname' : 61 ∉ name') (hne : name ≠ name') {entry : Bytes}
    (h : belongs name entry = true) : belongs name' entry = false := by
  obtain ⟨value, rfl⟩ := belongs_iff.mp h
  refine Bool.eq_false_iff.mpr fun h' => hne ?_
  obtain ⟨value', heq⟩ := belongs_iff.mp h'
  exact name_eq_of_entry_eq hname hname' heq

theorem getenv_setenv (environ : Environ) (hname : ValidName name) (hname' : ValidName name')
    (value : Bytes) : (environ.setenv name value).getenv name' =
      if name = name' then some value else environ.getenv name' := by
  have hnew : belongs name (name ++ 61 :: value) = true := belongs_iff.mpr ⟨value, rfl⟩
  unfold getenv setenv
  split_ifs with h
  · subst h
    rw [Keyed.find?_upsert_self (fun _ => hnew) hnew]
    cases environ.find? (belongs name) <;> simp
  · have hother : ∀ entry, belongs name entry = true → belongs name' entry = false :=
      fun entry => belongs_of_ne hname.2 hname'.2 h
    rw [Keyed.find?_upsert_of_disjoint hother (fun _ => hother _ hnew) (hother _ hnew)]

theorem getenv_unsetenv (environ : Environ) (hname : ValidName name) (hname' : ValidName name') :
    (environ.unsetenv name).getenv name' = if name = name' then none else environ.getenv name' := by
  unfold getenv unsetenv
  rw [List.find?_filter]
  split_ifs with h
  · subst h
    rw [List.find?_eq_none.mpr (by simp), Option.map_none]
  · have hsame : (fun entry => decide ((!belongs name entry) = true ∧ belongs name' entry = true)) =
        belongs name' := by
      funext entry
      cases hentry : belongs name entry with
      | false => simp
      | true => simp [belongs_of_ne hname.2 hname'.2 h hentry]
    rw [hsame]

end Environ

/-! ## The calls -/

variable {environ environ' : Environ} {c : Setenv} {calls : List Setenv} {name : Bytes}

theorem step_isSome_iff (environ : Environ) (c : Setenv) :
    (step environ c).isSome ↔ c.pass = true ∨ c.msg.length < 1024 := by
  unfold step setenv
  split_ifs <;> simp [*]

/-- One call decides its own variable if it passes, and no other one. -/
theorem getenv_step (h : step environ c = some environ') (hname : ValidName name) :
    getenv environ' name =
      if c.pass && c.name = name then c.value.getD [] else getenv environ name := by
  obtain ⟨⟨environ₁, thrown⟩, hset, rfl⟩ := Option.map_eq_some_iff.mp h
  unfold setenv at hset
  split_ifs at hset with hpass hroom
  · obtain ⟨rfl, -⟩ := Prod.mk.inj (Option.some.inj hset)
    have hvalid := ValidName.of_pass hpass
    unfold getenv Setenv.effect
    rw [hpass, Bool.true_and]
    cases c.value with
    | none =>
      rw [Environ.getenv_unsetenv environ hvalid hname]
      by_cases hc : c.name = name <;> simp [hc]
    | some value =>
      rw [Environ.getenv_setenv environ hvalid hname]
      by_cases hc : c.name = name <;> simp [hc]
  · obtain ⟨rfl, -⟩ := Prod.mk.inj (Option.some.inj hset)
    simp [hpass]

theorem lastSetenv_concat (name : Bytes) (calls : List Setenv) (c : Setenv) :
    lastSetenv name (calls ++ [c]) =
      if c.pass && c.name = name then some c else lastSetenv name calls := by
  unfold lastSetenv
  rw [List.filter_append]
  split_ifs with h <;> simp [h]

/-! ## Main result -/

/-- Behind any sequence of calls of `setenv`, from any environment, `getenv` gives for every
    name the value of the last call that set it and did not fail, the empty text if that
    call cleared it, and what it gave at first if there is none. Nothing is written behind
    `msg` if and only if the message of every call that fails is shorter than 1024. -/
theorem run_getenv (environ : Environ) (calls : List Setenv) :
    ((Machine.run step environ calls).isSome ↔
        ∀ c ∈ calls, c.pass = true ∨ c.msg.length < 1024) ∧
      ∀ environ', Machine.run step environ calls = some environ' → ∀ name, ValidName name →
        getenv environ' name =
          ((lastSetenv name calls).map fun c => c.value.getD []).getD (getenv environ name) := by
  refine ⟨Machine.run_isSome_iff step_isSome_iff environ calls, ?_⟩
  induction calls using List.reverseRecOn with
  | nil =>
    rintro _ ⟨⟩ name -
    rfl
  | append_singleton calls c ih =>
    intro environ' hrun name hname
    obtain ⟨environ₁, hrun, hstep⟩ := Machine.run_concat.mp hrun
    rw [getenv_step hstep hname, lastSetenv_concat]
    split_ifs
    · rfl
    · exact ih environ₁ hrun name hname

end Utilities

end StackTrace
