import Mathlib

/-!
# Nested brackets

A weight `w` says what a character does to the number of open brackets: `1` for one that
opens, `-1` for one that closes, `0` for another.

* `Nested.splice`: a part may be replaced by one that opens as many brackets more than it
  closes.
* `exists_closing`: a bracket that is open is closed where there are enough behind it.
* `closing_eq_some_iff`: what stands between an open bracket and the one that closes it.
-/

namespace StackTrace.Brackets

variable {α : Type*} (w : α → ℤ)

/-! ## Depth -/

/-- The brackets that a text opens less those that it closes. -/
def depth (l : List α) : ℤ := (l.map w).sum

@[simp] theorem depth_nil : depth w [] = 0 := rfl

@[simp] theorem depth_cons (c : α) (l : List α) : depth w (c :: l) = w c + depth w l := by
  simp [depth]

@[simp] theorem depth_append (l m : List α) : depth w (l ++ m) = depth w l + depth w m := by
  simp [depth]

/-- Behind `d` open brackets none is closed that is not open. -/
def Stays : ℤ → List α → Prop
  | _, [] => True
  | d, c :: l => 0 ≤ d + w c ∧ Stays (d + w c) l

/-- No bracket is closed that is not open, and all are closed at the end. -/
def Nested (l : List α) : Prop := Stays w 0 l ∧ depth w l = 0

instance decidableStays : ∀ (d : ℤ) (l : List α), Decidable (Stays w d l)
  | _, [] => inferInstanceAs (Decidable True)
  | d, c :: l =>
    have := decidableStays (d + w c) l
    inferInstanceAs (Decidable (0 ≤ d + w c ∧ Stays w (d + w c) l))

instance decidableNested (l : List α) : Decidable (Nested w l) :=
  inferInstanceAs (Decidable (Stays w 0 l ∧ depth w l = 0))

variable {w} {d : ℤ} {l m u v r s : List α}

theorem stays_append : Stays w d (l ++ m) ↔ Stays w d l ∧ Stays w (d + depth w l) m := by
  induction l generalizing d with
  | nil => simp [Stays]
  | cons c l ih =>
    rw [List.cons_append, Stays, Stays, ih, depth_cons, and_assoc, add_assoc]

theorem Stays.depth_nonneg (hd : 0 ≤ d) (h : Stays w d l) : 0 ≤ d + depth w l := by
  induction l generalizing d with
  | nil => simpa using hd
  | cons c l ih =>
    have hl := ih h.1 h.2
    rw [depth_cons, ← add_assoc]
    exact hl

theorem Nested.depth_nonneg (h : Nested w (u ++ v)) : 0 ≤ depth w u := by
  have hu := (stays_append.mp h.1).1.depth_nonneg le_rfl
  rwa [zero_add] at hu

/-- What is behind a part of a nested text closes what that part leaves open. -/
theorem Nested.depth_nonpos (h : Nested w (u ++ v)) : depth w v ≤ 0 := by
  have hsum := h.2
  have hu := h.depth_nonneg
  rw [depth_append] at hsum
  omega

theorem Stays.mono {d' : ℤ} (hle : d ≤ d') (h : Stays w d l) : Stays w d' l := by
  induction l generalizing d d' with
  | nil => trivial
  | cons c l ih => exact ⟨by have := h.1; omega, ih (by omega) h.2⟩

/-- The text goes no lower than at its ends. -/
def Shallow (w : α → ℤ) (l : List α) : Prop := Stays w (max 0 (-depth w l)) l

instance decidableShallow (l : List α) : Decidable (Shallow w l) :=
  inferInstanceAs (Decidable (Stays w _ l))

/-- A part may be replaced by a text that goes no lower than at its ends, if it opens as many
    brackets more than it closes. -/
theorem Nested.splice (h : Nested w (u ++ (s ++ v))) (hr : Shallow w r) :
    Nested w (u ++ (r ++ v)) ↔ depth w r = depth w s := by
  have hu := h.depth_nonneg
  have hus : 0 ≤ depth w (u ++ s) := Nested.depth_nonneg (v := v) (by simpa using h)
  obtain ⟨hall, hsum⟩ := h
  rw [stays_append, stays_append, zero_add] at hall
  unfold Nested
  rw [stays_append, stays_append, zero_add]
  simp only [depth_append] at hsum hus ⊢
  constructor
  · rintro ⟨-, hsum'⟩
    omega
  · intro heq
    exact ⟨⟨hall.1, hr.mono (by omega), heq ▸ hall.2.2⟩, by omega⟩

theorem depth_of_weightless (h : ∀ c ∈ l, w c = 0) : depth w l = 0 := by
  unfold depth
  refine List.sum_eq_zero fun x hx => ?_
  obtain ⟨c, hc, rfl⟩ := List.mem_map.mp hx
  exact h c hc

/-- Each end closes at least as many brackets as it opens. -/
def Closes (w : α → ℤ) (l : List α) : Prop := ∀ m, m <:+ l → depth w m ≤ 0

theorem Nested.closes (h : Nested w l) : Closes w l := by
  rintro m ⟨u, rfl⟩
  exact h.depth_nonpos

theorem Closes.suffix (h : Closes w l) (hm : m <:+ l) : Closes w m :=
  fun n hn => h n (hn.trans hm)

theorem Closes.append (hl : ∀ c ∈ l, w c = 0) (h : Closes w m) : Closes w (l ++ m) := by
  rintro n ⟨u, hu⟩
  rcases List.append_eq_append_iff.mp hu with ⟨e, rfl, rfl⟩ | ⟨e, -, rfl⟩
  · rw [depth_append, depth_of_weightless fun c hc => hl c (List.mem_append_right u hc), zero_add]
    exact h m List.suffix_rfl
  · exact h n (List.suffix_append e n)

/-! ## The closing bracket -/

/-- The number of characters up to the one that closes the last of `d` open brackets, with
    it. -/
def closing (w : α → ℤ) : ℤ → List α → Option ℕ
  | _, [] => none
  | d, c :: l => if d + w c = 0 then some 1 else (closing w (d + w c) l).map (· + 1)

theorem closing_le {k : ℕ} (h : closing w d l = some k) : k ≤ l.length := by
  induction l generalizing d k with
  | nil => cases h
  | cons c l ih =>
    rw [closing] at h
    split_ifs at h
    · obtain rfl := Option.some.inj h
      exact Nat.le_add_left _ _
    · obtain ⟨k', hk', rfl⟩ := Option.map_eq_some_iff.mp h
      exact Nat.succ_le_succ (ih hk')

/-- Up to the closing bracket all are closed. -/
theorem depth_take_closing {k : ℕ} (h : closing w d l = some k) : d + depth w (l.take k) = 0 := by
  induction l generalizing d k with
  | nil => cases h
  | cons c l ih =>
    rw [closing] at h
    split_ifs at h with hzero
    · obtain rfl := Option.some.inj h
      simpa using hzero
    · obtain ⟨k', hk', rfl⟩ := Option.map_eq_some_iff.mp h
      rw [List.take_succ_cons, depth_cons, ← add_assoc]
      exact ih hk'

/-- In front of the bracket that closes the last of `d`, one is still open and no more than
    these have been closed. -/
theorem closing_eq_some_iff (hw : ∀ c, -1 ≤ w c) (hd : 0 < d) {k : ℕ} :
    closing w d l = some k ↔ ∃ m c v, l = m ++ c :: v ∧ k = m.length + 1 ∧ w c = -1 ∧
      Stays w (d - 1) m ∧ d + depth w m = 1 := by
  induction l generalizing d k with
  | nil => simp [closing]
  | cons c l ih =>
    have hc := hw c
    rw [closing]
    split_ifs with hzero
    · -- the first character closes the only one
      constructor
      · intro h
        obtain rfl := Option.some.inj h
        exact ⟨[], c, l, rfl, rfl, by omega, trivial, by rw [depth_nil]; omega⟩
      · rintro ⟨m, c', v, hsplit, rfl, -, hstays, -⟩
        cases m with
        | nil => rfl
        | cons e m =>
          obtain ⟨rfl, -⟩ := List.cons.inj hsplit
          have hle := hstays.1
          omega
    · have hd' : 0 < d + w c := by omega
      constructor
      · intro h
        obtain ⟨k', hk', rfl⟩ := Option.map_eq_some_iff.mp h
        obtain ⟨m, c', v, rfl, rfl, hclose, hstays, hdepth⟩ := (ih hd').mp hk'
        refine ⟨c :: m, c', v, rfl, rfl, hclose, ⟨by omega, ?_⟩, ?_⟩
        · rwa [sub_add_eq_add_sub]
        · rwa [depth_cons, ← add_assoc]
      · rintro ⟨m, c', v, hsplit, rfl, hclose, hstays, hdepth⟩
        cases m with
        | nil =>
          obtain ⟨rfl, -⟩ := List.cons.inj hsplit
          rw [depth_nil] at hdepth
          omega
        | cons e m =>
          obtain ⟨rfl, rfl⟩ := List.cons.inj hsplit
          refine Option.map_eq_some_iff.mpr ⟨m.length + 1, (ih hd').mpr ?_, rfl⟩
          refine ⟨m, c', v, rfl, rfl, hclose, ?_, ?_⟩
          · have hrest := hstays.2
            rwa [sub_add_eq_add_sub] at hrest
          · rwa [depth_cons, ← add_assoc] at hdepth

theorem exists_closing (hw : ∀ c, -1 ≤ w c) (hd : 0 < d) (h : d + depth w l ≤ 0) :
    ∃ k, closing w d l = some k := by
  induction l generalizing d with
  | nil =>
    rw [depth_nil] at h
    omega
  | cons c l ih =>
    rw [closing]
    split_ifs with hzero
    · exact ⟨1, rfl⟩
    · have hc := hw c
      rw [depth_cons, ← add_assoc] at h
      obtain ⟨k, hk⟩ := ih (show 0 < d + w c by omega) h
      exact ⟨k + 1, by rw [hk]; rfl⟩

end StackTrace.Brackets
