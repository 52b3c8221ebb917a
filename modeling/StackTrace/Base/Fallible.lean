import Mathlib

/-!
# Steps that can fail

A step without a result is `none`, and `List.mapM` takes a step for every element of a list.

* `isSome_bind_iff`: when two steps both have a result.
* `mapM_eq_some`, `mapM_eq_none`: when all steps have one.
-/

namespace StackTrace

variable {α β : Type*} {f : α → Option β} {l : List α} {l' : List β}

/-- Two steps that both have a result. -/
theorem isSome_bind_iff {a : Option α} {Q : Prop} (h : ∀ x, a = some x → ((f x).isSome ↔ Q)) :
    (a.bind f).isSome ↔ a.isSome ∧ Q := by
  cases a with
  | none => simp
  | some x => simpa using h x rfl

theorem mapM_eq_some {g : α → β} (h : ∀ a ∈ l, f a = some (g a)) : l.mapM f = some (l.map g) := by
  induction l with
  | nil => rfl
  | cons a l ih =>
    rw [List.mapM_cons, h a (by simp), ih fun b hb => h b (by simp [hb])]
    rfl

theorem mapM_eq_none {a : α} (ha : a ∈ l) (h : f a = none) : l.mapM f = none := by
  induction l with
  | nil => cases ha
  | cons b l ih =>
    rw [List.mapM_cons]
    cases ha with
    | head => rw [h]; rfl
    | tail _ ha =>
      rw [ih ha]
      cases f b <;> rfl

theorem forall₂_of_mapM (h : l.mapM f = some l') : List.Forall₂ (fun a b => f a = some b) l l' := by
  induction l generalizing l' with
  | nil =>
    obtain rfl := Option.some.inj h
    exact .nil
  | cons a l ih =>
    rw [List.mapM_cons] at h
    obtain ⟨b, hb, h⟩ := Option.bind_eq_some_iff.mp h
    obtain ⟨l', hl', h⟩ := Option.bind_eq_some_iff.mp h
    obtain rfl := Option.some.inj h
    exact .cons hb (ih hl')

theorem forall_of_mapM {P : β → Prop} (hf : ∀ a b, f a = some b → P b) (h : l.mapM f = some l') :
    ∀ b ∈ l', P b := by
  have hpairs := forall₂_of_mapM h
  clear h
  induction hpairs with
  | nil => simp
  | cons hab _ ih => exact List.forall_mem_cons.mpr ⟨hf _ _ hab, ih⟩

end StackTrace
