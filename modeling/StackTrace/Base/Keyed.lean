import Mathlib

/-!
# Lists as insertion-ordered tables

Two ways to enter an item into a list of entries, where `m` says which entries
belong to the item: `upsert` updates the first such entry, `absorb` updates all
of them, and both append a new entry when there is none. On a list where at
most one entry belongs to the item they agree. Entries carry a label that the
updates keep; an update at one label commutes with an update at another.
-/

namespace StackTrace.Keyed

variable {α β : Type*}

/-- Update the first entry that `m` accepts, or append `new`. -/
def upsert (m : α → Bool) (f : α → α) (new : α) : List α → List α
  | [] => [new]
  | a :: l => if m a then f a :: l else a :: upsert m f new l

/-- Update every entry that `m` accepts, or append `new`. -/
def absorb (m : α → Bool) (f : α → α) (new : α) (l : List α) : List α :=
  if l.any m then l.map fun a => if m a then f a else a else l ++ [new]

/-- A list with an accepted entry, split at the first one. -/
theorem exists_first {m : α → Bool} {l : List α} (h : l.any m = true) :
    ∃ l₁ a l₂, l = l₁ ++ a :: l₂ ∧ (∀ x ∈ l₁, m x = false) ∧ m a = true := by
  induction l with
  | nil => simp at h
  | cons b l ih =>
    by_cases hb : m b = true
    · exact ⟨[], b, l, rfl, by simp, hb⟩
    · obtain ⟨l₁, a, l₂, rfl, h₁, ha⟩ := ih (by simpa [hb] using h)
      exact ⟨b :: l₁, a, l₂, rfl, by simpa using ⟨by simpa using hb, h₁⟩, ha⟩

theorem any_eq_false' {m : α → Bool} {l : List α} : l.any m = false ↔ ∀ x ∈ l, m x = false := by
  simp

section

variable {m : α → Bool} {f : α → α} {new : α}

theorem upsert_of_none {l : List α} (h : ∀ x ∈ l, m x = false) : upsert m f new l = l ++ [new] := by
  induction l with
  | nil => rfl
  | cons b l ih =>
    rw [upsert, if_neg (by simp [h b (by simp)]), ih fun x hx => h x (by simp [hx])]
    rfl

theorem upsert_split {l₁ l₂ : List α} {a : α} (h₁ : ∀ x ∈ l₁, m x = false) (ha : m a = true) :
    upsert m f new (l₁ ++ a :: l₂) = l₁ ++ f a :: l₂ := by
  induction l₁ with
  | nil => simp [upsert, ha]
  | cons b l₁ ih =>
    rw [List.cons_append, upsert, if_neg (by simp [h₁ b (by simp)]),
      ih fun x hx => h₁ x (by simp [hx])]
    rfl

theorem find?_upsert_self (hf : ∀ a, m (f a) = true) (hnew : m new = true) (l : List α) :
    (upsert m f new l).find? m = some (((l.find? m).map f).getD new) := by
  induction l with
  | nil => simp [upsert, hnew]
  | cons b l ih =>
    rw [upsert]
    by_cases hb : m b = true
    · simp [hb, hf]
    · rw [if_neg hb, List.find?_cons_of_neg hb, List.find?_cons_of_neg hb, ih]

/-- What looks for other entries does not see the update. -/
theorem find?_upsert_of_disjoint {p : α → Bool} (hp : ∀ a, m a = true → p a = false)
    (hf : ∀ a, p (f a) = false) (hnew : p new = false) (l : List α) :
    (upsert m f new l).find? p = l.find? p := by
  induction l with
  | nil => simp [upsert, hnew]
  | cons b l ih =>
    rw [upsert]
    by_cases hb : m b = true
    · simp [hb, hf, hp b hb]
    · rw [if_neg hb, List.find?_cons, List.find?_cons, ih]

theorem absorb_of_none {l : List α} (h : ∀ x ∈ l, m x = false) : absorb m f new l = l ++ [new] := by
  rw [absorb, if_neg (by simpa using h)]

theorem absorb_of_any {l : List α} (h : l.any m = true) :
    absorb m f new l = l.map fun a => if m a then f a else a := by
  rw [absorb, if_pos h]

theorem map_update_of_none {l : List α} (h : ∀ x ∈ l, m x = false) :
    (l.map fun a => if m a then f a else a) = l := by
  conv_rhs => rw [← List.map_id l]
  apply List.map_congr_left
  intro x hx
  simp [h x hx]

/-- Only `a` belongs to the item. -/
theorem absorb_split {l₁ l₂ : List α} {a : α} (h₁ : ∀ x ∈ l₁, m x = false) (ha : m a = true)
    (h₂ : ∀ x ∈ l₂, m x = false) : absorb m f new (l₁ ++ a :: l₂) = l₁ ++ f a :: l₂ := by
  rw [absorb_of_any (by simp [ha]), List.map_append, List.map_cons, map_update_of_none h₁,
    map_update_of_none h₂, if_pos ha]

end

/-! ## Labels -/

section

variable {m : α → Bool} {f : α → α} {new : α} (g : α → β)

theorem map_upsert (hf : ∀ a, g (f a) = g a) (l : List α) :
    (upsert m f new l).map g = if l.any m then l.map g else l.map g ++ [g new] := by
  by_cases h : l.any m = true
  · obtain ⟨l₁, a, l₂, rfl, h₁, ha⟩ := exists_first h
    rw [upsert_split h₁ ha, if_pos h]
    simp [hf]
  · rw [upsert_of_none (by simpa using h), if_neg h]
    simp

theorem map_absorb (hf : ∀ a, g (f a) = g a) (l : List α) :
    (absorb m f new l).map g = if l.any m then l.map g else l.map g ++ [g new] := by
  unfold absorb
  split_ifs with h
  · rw [List.map_map]
    apply List.map_congr_left
    intro a _
    by_cases ha : m a <;> simp [ha, hf]
  · simp

end

/-! ## Sums -/

section

variable {m : α → Bool} {f : α → α} {new : α} {v : α → ℤ} {w : ℤ}

theorem sum_map_update {l : List α} (hf : ∀ a ∈ l, m a = true → v (f a) = v a + w) :
    ((l.map fun a => if m a then f a else a).map v).sum = (l.map v).sum + l.countP m * w := by
  induction l with
  | nil => simp
  | cons a l ih =>
    have ih := ih fun b hb => hf b (by simp [hb])
    simp only [List.map_cons, List.sum_cons, List.countP_cons, ih]
    by_cases ha : m a = true
    · rw [if_pos ha, if_pos ha, hf a (by simp) ha]; push_cast; ring
    · rw [if_neg ha, if_neg ha]; push_cast; ring

/-- An item of weight `w` is counted once for every entry it belongs to, and
    once if there is none. -/
theorem sum_absorb {l : List α} (hf : ∀ a ∈ l, m a = true → v (f a) = v a + w) (hnew : v new = w) :
    ((absorb m f new l).map v).sum = (l.map v).sum + max 1 (l.countP m) * w := by
  by_cases h : l.any m = true
  · have hpos : 1 ≤ l.countP m := List.countP_pos_iff.mpr (List.any_eq_true.mp h)
    rw [absorb_of_any h, sum_map_update hf, max_eq_right (by omega)]
  · have h0 : l.countP m = 0 := by
      rw [List.countP_eq_zero]
      simpa using h
    rw [absorb_of_none (by simpa using h), h0]
    simp [hnew]

theorem sum_map_update_le {l : List α} (hf : ∀ a ∈ l, m a = true → v (f a) ≤ v a + w) :
    ((l.map fun a => if m a then f a else a).map v).sum ≤ (l.map v).sum + l.countP m * w := by
  induction l with
  | nil => simp
  | cons a l ih =>
    have ih := ih fun b hb => hf b (by simp [hb])
    have ha := hf a (by simp)
    simp only [List.map_cons, List.sum_cons, List.countP_cons]
    by_cases hm : m a = true
    · rw [if_pos hm, if_pos hm]
      push_cast
      linarith [ha hm]
    · rw [if_neg hm, if_neg hm]
      push_cast
      linarith

/-- An item that belongs to one entry at most adds no more than its weight. -/
theorem sum_absorb_le {l : List α} (honce : l.countP m ≤ 1)
    (hf : ∀ a ∈ l, m a = true → v (f a) ≤ v a + w) (hnew : v new ≤ w) :
    ((absorb m f new l).map v).sum ≤ (l.map v).sum + w := by
  by_cases h : l.any m = true
  · have hpos : 1 ≤ l.countP m := List.countP_pos_iff.mpr (List.any_eq_true.mp h)
    have hone : l.countP m = 1 := by omega
    have hle := sum_map_update_le hf
    rw [hone, Nat.cast_one, one_mul] at hle
    rwa [absorb_of_any h]
  · rw [absorb_of_none (by simpa using h)]
    simpa using hnew

theorem sum_le_sum_map_update (hw : 0 ≤ w) {l : List α}
    (hf : ∀ a ∈ l, m a = true → v a + w ≤ v (f a)) :
    (l.map v).sum ≤ ((l.map fun a => if m a then f a else a).map v).sum := by
  rw [List.map_map]
  apply List.sum_le_sum
  intro a ha
  simp only [Function.comp_apply]
  split_ifs with hm
  · linarith [hf a ha hm]
  · exact le_rfl

/-- No item of non-negative weight is lost. -/
theorem le_sum_absorb (hw : 0 ≤ w) {l : List α} (hf : ∀ a ∈ l, m a = true → v a + w ≤ v (f a))
    (hnew : w ≤ v new) : (l.map v).sum + w ≤ ((absorb m f new l).map v).sum := by
  by_cases h : l.any m = true
  · rw [absorb_of_any h]
    obtain ⟨l₁, a, l₂, rfl, -, ha⟩ := exists_first h
    have h₁ := sum_le_sum_map_update hw fun x hx => hf x (List.mem_append_left (a :: l₂) hx)
    have h₂ := sum_le_sum_map_update hw fun x hx => hf x (List.mem_append_right l₁ (.tail a hx))
    have h₃ := hf a (by simp) ha
    simp only [List.map_append, List.map_cons, List.sum_append, List.sum_cons, if_pos ha] at h₁ h₂ ⊢
    linarith
  · rw [absorb_of_none (by simpa using h)]
    simpa using hnew

theorem absorb_append_of_none {l₁ l₂ : List α} (h : ∀ x ∈ l₁, m x = false) :
    absorb m f new (l₁ ++ l₂) = l₁ ++ absorb m f new l₂ := by
  have hany : (l₁ ++ l₂).any m = l₂.any m := by
    rw [List.any_append, any_eq_false'.mpr h, Bool.false_or]
  unfold absorb
  rw [hany]
  split_ifs
  · rw [List.map_append, map_update_of_none h]
  · rw [List.append_assoc]

theorem sum_sum_filter_cons (r : β → α → Bool) (u : β → ℤ) (x : β) (xs : List β) (l : List α) :
    (l.map fun a => (((x :: xs).filter fun x => r x a).map u).sum).sum =
      (l.map fun a => ((xs.filter fun x => r x a).map u).sum).sum + l.countP (r x) * u x := by
  induction l with
  | nil => simp
  | cons a l ih =>
    rw [List.map_cons, List.sum_cons, ih, List.map_cons, List.sum_cons, List.countP_cons,
      List.filter_cons]
    by_cases hr : r x a = true
    · rw [if_pos hr, if_pos hr, List.map_cons, List.sum_cons]; push_cast; ring
    · rw [if_neg hr, if_neg hr]; push_cast; ring

theorem absorb_append_of_any {l₁ l₂ : List α} (h₁ : l₁.any m = true) (h₂ : ∀ x ∈ l₂, m x = false) :
    absorb m f new (l₁ ++ l₂) = absorb m f new l₁ ++ l₂ := by
  rw [absorb_of_any h₁, absorb_of_any (by rw [List.any_append, h₁, Bool.true_or]), List.map_append,
    map_update_of_none h₂]

/-- Weights sorted by the entry they belong to, when each belongs to one entry
    at most. -/
theorem sum_sum_filter {r : β → α → Bool} {u : β → ℤ} (l : List α) {xs : List β}
    (honce : ∀ x ∈ xs, l.countP (r x) ≤ 1) :
    (l.map fun a => ((xs.filter fun x => r x a).map u).sum).sum +
      ((xs.filter fun x => !l.any (r x)).map u).sum = (xs.map u).sum := by
  induction xs with
  | nil => simp
  | cons x xs ih =>
    have ih := ih fun y hy => honce y (by simp [hy])
    have hle := honce x (by simp)
    rw [sum_sum_filter_cons, List.map_cons, List.sum_cons, ← ih, List.filter_cons]
    by_cases hany : l.any (r x) = true
    · have hpos : 1 ≤ l.countP (r x) := List.countP_pos_iff.mpr (List.any_eq_true.mp hany)
      have hone : l.countP (r x) = 1 := by omega
      rw [hany, hone, if_neg (by simp)]; push_cast; ring
    · have hzero : l.countP (r x) = 0 := by
        rw [List.countP_eq_zero]
        simpa using hany
      rw [Bool.not_eq_true] at hany
      rw [hany, hzero, if_pos (by simp), List.map_cons, List.sum_cons]; push_cast; ring

end

/-! ## Updates at different labels -/

/-- Entering two items that no entry belongs to at once commutes, when the one
    entered by `upsert` has its entry already. -/
theorem absorb_upsert_comm {m m' : α → Bool} {f f' : α → α} {new new' : α} {l : List α}
    (hl : l.any m' = true) (hdisj : ∀ a ∈ l, m' a = true → m a = false)
    (hf : ∀ a, m' (f a) = m' a) (hf' : ∀ a, m (f' a) = m a) :
    absorb m f new (upsert m' f' new' l) = upsert m' f' new' (absorb m f new l) := by
  obtain ⟨l₁, a, l₂, rfl, h₁, ha⟩ := exists_first hl
  have hma : m a = false := hdisj a (by simp) ha
  have hma' : m (f' a) = false := (hf' a).trans hma
  rw [upsert_split h₁ ha]
  by_cases h : (l₁ ++ a :: l₂).any m = true
  · have h' : (l₁ ++ f' a :: l₂).any m = true := by simpa [hma, hma'] using h
    have h₁' : ∀ x ∈ l₁.map fun a => if m a then f a else a, m' x = false := by
      intro x hx
      obtain ⟨y, hy, rfl⟩ := List.mem_map.mp hx
      by_cases hmy : m y <;> simp [hmy, hf, h₁ y hy]
    rw [absorb_of_any h, absorb_of_any h']
    simp only [List.map_append, List.map_cons, hma, hma', Bool.false_eq_true, if_false]
    rw [upsert_split h₁' ha]
  · have h' : ¬(l₁ ++ f' a :: l₂).any m = true := by simpa [hma, hma'] using h
    rw [absorb, if_neg h', absorb, if_neg h]
    simp only [List.append_assoc, List.cons_append]
    rw [upsert_split h₁ ha]

end StackTrace.Keyed
