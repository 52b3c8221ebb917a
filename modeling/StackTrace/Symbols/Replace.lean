import StackTrace.Symbols.FunctionName

/-!
# `replace` on a name with its NUL

`StackTrace.cpp`, lines 94–108. The loops of `replace` copy forwards, inside the `N`
characters of the name. That moves the rest of the name to the left, where the new text is
not longer than the old one. To the right it would have to copy backwards: what stands
behind the match is lost, and the name keeps its length.

* `replace_eq`: what `replace` leaves in the buffer where it does not lengthen the name.
* `replace_shorter`: a text takes the place of one that is not shorter.
* `replace_longer`: a longer text leaves a name of the same length.
* `replace_splice_iff`: the places behind the new name get zeros only as far as they had them.
-/

namespace StackTrace

namespace FunctionName

/-! ## The loops -/

theorem writeLoop_split (a b : Bytes) {old src : Bytes} (h : old.length = src.length) :
    writeLoop (a ++ (old ++ b)) a.length src = a ++ (src ++ b) := by
  induction src generalizing a old with
  | nil =>
    rw [List.length_eq_zero_iff.mp h]
    rfl
  | cons c src ih =>
    obtain ⟨d, old, rfl⟩ := List.exists_cons_of_length_eq_add_one h
    have hset : (a ++ (d :: old ++ b)).set a.length c = (a ++ [c]) ++ (old ++ b) := by
      rw [List.set_append_right _ _ le_rfl, Nat.sub_self]
      simp
    have hlength : a.length + 1 = (a ++ [c]).length := by simp
    rw [writeLoop, hset, hlength, ih (a ++ [c]) (Nat.succ.inj h)]
    simp

/-- Copying to the left moves `src` over `gap`. -/
theorem shiftLoop_split (a gap src b : Bytes) :
    shiftLoop src.length (a ++ (gap ++ (src ++ b))) (a.length + gap.length) a.length =
      a ++ (src ++ ((gap ++ src).drop src.length ++ b)) := by
  induction src generalizing a gap with
  | nil => simp [shiftLoop]
  | cons c src ih =>
    have hget : (a ++ (gap ++ (c :: src ++ b))).getD (a.length + gap.length) 0 = c := by
      rw [← List.append_assoc, List.getD_append_right _ _ _ _ (by simp)]
      simp
    -- the first character of the gap is overwritten, and `c` is left behind
    have hset : (a ++ (gap ++ (c :: src ++ b))).set a.length c =
        (a ++ [c]) ++ ((gap ++ [c]).drop 1 ++ (src ++ b)) := by
      rw [List.set_append_right _ _ le_rfl, Nat.sub_self]
      cases gap <;> simp
    have hgap : a.length + gap.length + 1 = (a ++ [c]).length + ((gap ++ [c]).drop 1).length := by
      simp
      omega
    have hlength : a.length + 1 = (a ++ [c]).length := by simp
    have hdrop : ((gap ++ [c]).drop 1 ++ src).drop src.length =
        (gap ++ c :: src).drop (c :: src).length := by
      cases gap <;> simp
    rw [List.length_cons, shiftLoop, hget, hset, hgap, hlength, ih, hdrop, List.length_cons]
    simp

/-- Copying to the right repeats `gap`. -/
theorem shiftLoop_forward {gap : Bytes} (hgap : gap ≠ []) (a src b : Bytes) :
    ∃ z : Bytes, z.length = src.length ∧ (∀ c ∈ z, c ∈ gap) ∧
      shiftLoop src.length (a ++ (gap ++ (src ++ b))) a.length (a.length + gap.length) =
        a ++ (gap ++ (z ++ b)) := by
  induction src generalizing a gap with
  | nil => exact ⟨[], rfl, by simp, rfl⟩
  | cons d src ih =>
    obtain ⟨c, gap, rfl⟩ := List.exists_cons_of_ne_nil hgap
    have hget : (a ++ (c :: gap ++ (d :: src ++ b))).getD a.length 0 = c := by
      rw [List.getD_append_right _ _ _ _ le_rfl, Nat.sub_self]
      rfl
    -- the gap moves by one, and its first character comes behind it
    have hset : (a ++ (c :: gap ++ (d :: src ++ b))).set (a.length + (c :: gap).length) c =
        (a ++ [c]) ++ ((gap ++ [c]) ++ (src ++ b)) := by
      rw [List.set_append_right _ _ (by omega), Nat.add_sub_cancel_left,
        List.set_append_right _ _ le_rfl, Nat.sub_self]
      simp
    have hi : a.length + 1 = (a ++ [c]).length := by simp
    have hk : a.length + (c :: gap).length + 1 = (a ++ [c]).length + (gap ++ [c]).length := by
      simp only [List.length_append, List.length_cons, List.length_nil]
      omega
    obtain ⟨z, hlength, hmem, hz⟩ := ih (show gap ++ [c] ≠ [] by simp) (a ++ [c])
    refine ⟨c :: z, by rw [List.length_cons, List.length_cons, hlength], ?_, ?_⟩
    · rintro e (_ | ⟨_, he⟩)
      · exact List.mem_cons_self
      · have he' := hmem e he
        rw [List.mem_append, List.mem_singleton] at he'
        rw [List.mem_cons]
        exact he'.symm
    · rw [List.length_cons, shiftLoop, hget, hset, hi, hk, hz]
      simp

theorem zeroLoop_eq (n : ℕ) (str : Bytes) (k : ℕ) :
    zeroLoop n str k = if n = 0 then str else str.set k 0 := by
  induction n generalizing str with
  | zero => rfl
  | succ n ih =>
    rw [zeroLoop, ih, if_neg (Nat.succ_ne_zero n), List.set_set, ite_self]

/-! ## Names -/

/-- The name `t` in a buffer that goes on with `b`. -/
def named (t b : Bytes) : FunctionName := ⟨t ++ b, t.length⟩

theorem view_named (t b : Bytes) : (named t b).view = some t := by
  unfold view named
  rw [if_pos (by simp), List.take_left]

theorem view_eq_some_iff {f : FunctionName} {t : Bytes} :
    f.view = some t ↔ ∃ b, f = named t b := by
  constructor
  · intro h
    unfold view at h
    split_ifs at h with hN
    refine ⟨f.function.drop f.N, ?_⟩
    rw [← Option.some.inj h]
    unfold named
    rw [List.take_append_drop, List.length_take, Nat.min_eq_left hN]
  · rintro ⟨b, rfl⟩
    exact view_named t b

/-- The name behind `replace`, where `s₁` is as long as the new text and `s₂` is the rest
    of the old one: `s₁` is written over, and `v` is moved over `s₂`. -/
theorem replace_eq {u s₁ s₂ v r : Bytes} (b : Bytes) (hs₁ : s₁.length = r.length)
    (hN : (u ++ (s₁ ++ (s₂ ++ v))).length ≤ npos) :
    (named (u ++ (s₁ ++ (s₂ ++ v))) b).replace u.length (s₁ ++ s₂).length r =
      ⟨zeroLoop s₂.length (u ++ (r ++ (v ++ ((s₂ ++ v).drop v.length ++ b))))
        (u ++ (r ++ v)).length, (u ++ (r ++ v)).length⟩ := by
  have hshift := shiftLoop_split (u ++ r) s₂ v b
  simp only [List.length_append, npos] at hN
  have htake : r.take ((u ++ (s₁ ++ (s₂ ++ v))).length - u.length) = r := by
    refine List.take_of_length_le ?_
    simp only [List.length_append]
    omega
  have hk : u.length + min r.length ((u ++ (s₁ ++ (s₂ ++ v))).length - u.length) =
      (u ++ r).length := by
    simp only [List.length_append]
    omega
  have hi : (u.length + (s₁ ++ s₂).length) % 18446744073709551616 =
      (u ++ r).length + s₂.length := by
    rw [Nat.mod_eq_of_lt] <;> simp only [List.length_append] <;> omega
  have hn : min ((u ++ (s₁ ++ (s₂ ++ v))).length - ((u ++ r).length + s₂.length))
      ((u ++ (s₁ ++ (s₂ ++ v))).length - (u ++ r).length) = v.length := by
    simp only [List.length_append]
    omega
  have hzeros : (u ++ (s₁ ++ (s₂ ++ v))).length - (u ++ (r ++ v)).length = s₂.length := by
    simp only [List.length_append]
    omega
  have hend : (u ++ r).length + v.length = (u ++ (r ++ v)).length := by
    simp only [List.length_append, Nat.add_assoc]
  have hwrite : writeLoop ((u ++ (s₁ ++ (s₂ ++ v))) ++ b) u.length r =
      (u ++ r) ++ (s₂ ++ (v ++ b)) := by
    have hbuffer : (u ++ (s₁ ++ (s₂ ++ v))) ++ b = u ++ (s₁ ++ (s₂ ++ (v ++ b))) := by simp
    rw [hbuffer, writeLoop_split u _ hs₁, List.append_assoc]
  unfold replace named
  simp only [htake, hk, hi, hn, hend, hzeros, hwrite]
  rw [hshift, List.append_assoc u r]

/-- The part of a text that `replace` is called for. -/
theorem exists_parts {t : Bytes} {pos len : ℕ} (hpos : pos + len ≤ t.length) :
    ∃ u s v, t = u ++ (s ++ v) ∧ u.length = pos ∧ s.length = len := by
  refine ⟨t.take pos, (t.drop pos).take len, (t.drop pos).drop len, ?_, ?_, ?_⟩
  · rw [List.take_append_drop, List.take_append_drop]
  · rw [List.length_take]
    omega
  · rw [List.length_take, List.length_drop]
    omega

/-- A text takes the place of one that is not shorter. A NUL behind the name stays. -/
theorem replace_shorter {u s v r : Bytes} (b : Bytes) (hN : (u ++ (s ++ v)).length ≤ npos)
    (hr : r.length ≤ s.length) :
    ∃ b', (named (u ++ (s ++ v)) b).replace u.length s.length r = named (u ++ (r ++ v)) b' ∧
      b'.length + r.length = b.length + s.length ∧ (b.head? = some 0 → b'.head? = some 0) := by
  obtain ⟨s₁, s₂, rfl, hs₁⟩ : ∃ s₁ s₂, s = s₁ ++ s₂ ∧ s₁.length = r.length :=
    ⟨s.take r.length, s.drop r.length, (List.take_append_drop _ _).symm, by simpa using hr⟩
  rw [List.append_assoc s₁] at hN ⊢
  rw [replace_eq b hs₁ hN, zeroLoop_eq]
  cases s₂ with
  | nil => exact ⟨b, by simp [named], by simp [hs₁], id⟩
  | cons d s₂ =>
    -- the first place behind the name is one of those that the rest has left
    have hgap : (((d :: s₂) ++ v).drop v.length).length = s₂.length + 1 := by
      rw [List.length_drop, List.length_append, Nat.add_sub_cancel, List.length_cons]
    obtain ⟨x, xs, hxs⟩ := List.exists_cons_of_length_eq_add_one hgap
    rw [hxs] at hgap ⊢
    refine ⟨0 :: (xs ++ b), ?_, ?_, fun _ => rfl⟩
    · rw [if_neg (by simp), ← List.append_assoc r, ← List.append_assoc u,
        List.set_append_right _ _ le_rfl, Nat.sub_self]
      simp [named]
    · simp only [List.length_cons, List.length_append] at hgap ⊢
      omega

/-- Where the rest of the name has no room for the text, it ends inside the text. -/
theorem replace_truncated {u w r : Bytes} {len : ℕ} (b : Bytes) (hr : w.length ≤ r.length) :
    (named (u ++ w) b).replace u.length len r = named (u ++ r.take w.length) b := by
  have hroom : (u ++ w).length - u.length = w.length := by
    rw [List.length_append, Nat.add_sub_cancel_left]
  have hsize : w.length = (r.take w.length).length := by
    rw [List.length_take, Nat.min_eq_left hr]
  have hend : (u ++ w).length = u.length + w.length := List.length_append
  have hwrite := writeLoop_split u b hsize
  unfold replace named
  simp only [hroom, Nat.min_eq_right hr, ← hend, Nat.sub_self, Nat.min_zero, Nat.add_zero]
  rw [List.append_assoc, hwrite, ← List.append_assoc]
  show FunctionName.mk _ _ = _
  rw [hend, hsize, ← List.length_append, ← hsize]
  rfl

/-- Where the text is longer by `r₂`, the rest of the name is lost to copies of `r₂`. -/
theorem replace_overlap {u s v₁ v₂ r₁ r₂ : Bytes} (b : Bytes)
    (hN : (u ++ (s ++ (v₁ ++ v₂))).length ≤ npos) (h₁ : s.length = r₁.length)
    (h₂ : v₁.length = r₂.length) (hne : r₂ ≠ []) :
    ∃ z, z.length = v₂.length ∧ (∀ c ∈ z, c ∈ r₂) ∧
      (named (u ++ (s ++ (v₁ ++ v₂))) b).replace u.length s.length (r₁ ++ r₂) =
        named (u ++ (r₁ ++ (r₂ ++ z))) b := by
  obtain ⟨z, hz, hmem, hshift⟩ := shiftLoop_forward hne (u ++ r₁) v₂ b
  refine ⟨z, hz, hmem, ?_⟩
  simp only [List.length_append, npos] at hN
  have htake : (r₁ ++ r₂).take ((u ++ (s ++ (v₁ ++ v₂))).length - u.length) = r₁ ++ r₂ := by
    refine List.take_of_length_le ?_
    simp only [List.length_append]
    omega
  have hk : u.length + min (r₁ ++ r₂).length ((u ++ (s ++ (v₁ ++ v₂))).length - u.length) =
      (u ++ r₁).length + r₂.length := by
    simp only [List.length_append]
    omega
  have hi : (u.length + s.length) % 18446744073709551616 = (u ++ r₁).length := by
    rw [List.length_append, Nat.mod_eq_of_lt] <;> omega
  have hn : min ((u ++ (s ++ (v₁ ++ v₂))).length - (u ++ r₁).length)
      ((u ++ (s ++ (v₁ ++ v₂))).length - ((u ++ r₁).length + r₂.length)) = v₂.length := by
    simp only [List.length_append]
    omega
  have hend : (u ++ r₁).length + r₂.length + v₂.length = (u ++ (r₁ ++ (r₂ ++ z))).length := by
    simp only [List.length_append]
    omega
  have hzeros : (u ++ (s ++ (v₁ ++ v₂))).length - (u ++ (r₁ ++ (r₂ ++ z))).length = 0 := by
    simp only [List.length_append]
    omega
  have hwrite : writeLoop ((u ++ (s ++ (v₁ ++ v₂))) ++ b) u.length (r₁ ++ r₂) =
      (u ++ r₁) ++ (r₂ ++ (v₂ ++ b)) := by
    have hbuffer : (u ++ (s ++ (v₁ ++ v₂))) ++ b = u ++ ((s ++ v₁) ++ (v₂ ++ b)) := by simp
    have hlength : (s ++ v₁).length = (r₁ ++ r₂).length := by
      rw [List.length_append, List.length_append, h₁, h₂]
    rw [hbuffer, writeLoop_split u _ hlength]
    simp
  unfold replace named
  simp only [htake, hk, hi, hn, hend, hzeros, hwrite, hshift, zeroLoop]
  simp

/-- A longer text leaves a name of the same length: as much of the text as there is room
    for, and then characters of its end. -/
theorem replace_longer {u s v r : Bytes} (b : Bytes) (hN : (u ++ (s ++ v)).length ≤ npos)
    (hr : s.length < r.length) :
    ∃ r' z, r' <+: r ∧ s.length ≤ r'.length ∧ (∀ c ∈ z, c ∈ r.drop s.length) ∧
      (r' ++ z).length = (s ++ v).length ∧
      (named (u ++ (s ++ v)) b).replace u.length s.length r = named (u ++ (r' ++ z)) b := by
  rcases Nat.lt_or_ge (s ++ v).length r.length with hlt | hle
  · have hsize : (r.take (s ++ v).length).length = (s ++ v).length := by
      rw [List.length_take, Nat.min_eq_left hlt.le]
    refine ⟨r.take (s ++ v).length, [], List.take_prefix _ _, ?_, by simp, ?_, ?_⟩
    · rw [hsize, List.length_append]
      exact Nat.le_add_right _ _
    · rw [List.append_nil, hsize]
    · rw [List.append_nil, replace_truncated b hlt.le]
  · obtain ⟨r₁, r₂, rfl, h₁⟩ : ∃ r₁ r₂, r = r₁ ++ r₂ ∧ s.length = r₁.length :=
      ⟨r.take s.length, r.drop s.length, (List.take_append_drop _ _).symm, by
        rw [List.length_take, Nat.min_eq_left hr.le]⟩
    simp only [List.length_append] at hle hr
    obtain ⟨v₁, v₂, rfl, h₂⟩ : ∃ v₁ v₂, v = v₁ ++ v₂ ∧ v₁.length = r₂.length :=
      ⟨v.take r₂.length, v.drop r₂.length, (List.take_append_drop _ _).symm, by
        rw [List.length_take]
        omega⟩
    have hne : r₂ ≠ [] := by
      rintro rfl
      rw [List.length_nil] at hr
      omega
    obtain ⟨z, hz, hmem, hreplace⟩ := replace_overlap b hN h₁ h₂ hne
    refine ⟨r₁ ++ r₂, z, List.prefix_rfl, ?_, ?_, ?_, ?_⟩
    · rw [List.length_append]
      omega
    · rw [h₁, List.drop_left]
      exact hmem
    · simp only [List.length_append]
      omega
    · rw [hreplace, List.append_assoc]

/-! ## The rest of the buffer -/

/-- Where the first of some places gets a zero, all are zero just if the others were. -/
theorem set_zero_eq_replicate_iff {gap : Bytes} :
    (if gap.length = 0 then gap else gap.set 0 0) = List.replicate gap.length 0 ↔
      ∀ m, 0 < m → m < gap.length → gap[m]? = some 0 := by
  cases gap with
  | nil => simp
  | cons c gap =>
    rw [if_neg (by simp), List.set_cons_zero, List.length_cons, List.replicate_succ,
      List.cons.injEq, and_iff_right rfl, List.eq_replicate_length]
    constructor
    · intro h m hm hlt
      obtain ⟨m, rfl⟩ := Nat.exists_eq_succ_of_ne_zero hm.ne'
      rw [List.getElem?_cons_succ, List.getElem?_eq_getElem (by omega),
        h _ (List.getElem_mem (by omega))]
    · intro h d hd
      obtain ⟨m, hm, rfl⟩ := List.getElem_of_mem hd
      have hget := h (m + 1) (by omega) (by omega)
      rw [List.getElem?_cons_succ, List.getElem?_eq_getElem hm] at hget
      exact Option.some.inj hget

/-- The places that the rest of the name has left get zeros, if they were zero before but for
    the first. -/
theorem replace_eq_zeros_iff {u s₁ s₂ v r : Bytes} (b : Bytes) (hs₁ : s₁.length = r.length)
    (hN : (u ++ (s₁ ++ (s₂ ++ v))).length ≤ npos) :
    (named (u ++ (s₁ ++ (s₂ ++ v))) b).replace u.length (s₁ ++ s₂).length r =
        ⟨u ++ (r ++ (v ++ (List.replicate s₂.length 0 ++ b))), (u ++ (r ++ v)).length⟩ ↔
      ∀ m, 0 < m → m < s₂.length → (s₂ ++ v)[v.length + m]? = some 0 := by
  have hgap : ((s₂ ++ v).drop v.length).length = s₂.length := by
    rw [List.length_drop, List.length_append, Nat.add_sub_cancel]
  have hzeros : zeroLoop s₂.length (u ++ (r ++ (v ++ ((s₂ ++ v).drop v.length ++ b))))
      (u ++ (r ++ v)).length =
        u ++ (r ++ (v ++ ((if ((s₂ ++ v).drop v.length).length = 0 then (s₂ ++ v).drop v.length
          else ((s₂ ++ v).drop v.length).set 0 0) ++ b))) := by
    have hsplit : u ++ (r ++ (v ++ ((s₂ ++ v).drop v.length ++ b))) =
        (u ++ (r ++ v)) ++ ((s₂ ++ v).drop v.length ++ b) := by simp
    rw [zeroLoop_eq, hgap]
    split_ifs with h
    · rfl
    · rw [hsplit, List.set_append_right _ _ le_rfl, Nat.sub_self,
        List.set_append_left _ _ (by omega)]
      simp
  rw [replace_eq b hs₁ hN, hzeros, FunctionName.mk.injEq, and_iff_left rfl,
    List.append_cancel_left_eq, List.append_cancel_left_eq, List.append_cancel_left_eq,
    List.append_cancel_right_eq, ← hgap, set_zero_eq_replicate_iff]
  simp only [List.getElem?_drop]

/-- What stood before behind the end of the new name. -/
theorem getElem?_behind {u s₁ r : Bytes} (hs₁ : s₁.length = r.length) (s₂ v b : Bytes) {m : ℕ}
    (hm : m < s₂.length) :
    (u ++ (s₁ ++ (s₂ ++ v)) ++ b)[(u ++ (r ++ v)).length + m]? = (s₂ ++ v)[v.length + m]? := by
  have hsplit : u ++ (s₁ ++ (s₂ ++ v)) ++ b = (u ++ s₁) ++ ((s₂ ++ v) ++ b) := by simp
  have hindex : (u ++ (r ++ v)).length + m = (u ++ s₁).length + (v.length + m) := by
    simp only [List.length_append]
    omega
  rw [hsplit, hindex, List.getElem?_append_right (Nat.le_add_right _ _), Nat.add_sub_cancel_left,
    List.getElem?_append_left (by rw [List.length_append]; omega)]

/-- A text that is not longer than what it replaces takes its place, with the rest behind it
    and then zeros, if and only if all of these were zero before but the first: line 106
    writes to `str[k]` in every round. -/
theorem replace_splice_iff {f : FunctionName} {pos len : ℕ} {r : Bytes}
    (hN : f.N ≤ f.function.length) (hsize : f.N ≤ npos) (hpos : pos + len ≤ f.N)
    (hr : r.length ≤ len) :
    f.replace pos len r =
        ⟨f.function.take pos ++ (r ++ ((f.function.take f.N).drop (pos + len) ++
          (List.replicate (len - r.length) 0 ++ f.function.drop f.N))), f.N - len + r.length⟩ ↔
      ∀ m, f.N - len + r.length < m → m < f.N → f.function[m]? = some 0 := by
  obtain ⟨function, N⟩ := f
  dsimp only at hN hsize hpos ⊢
  obtain ⟨t, b, rfl, rfl⟩ : ∃ t b, function = t ++ b ∧ t.length = N :=
    ⟨function.take N, function.drop N, (List.take_append_drop _ _).symm, by
      rw [List.length_take, Nat.min_eq_left hN]⟩
  obtain ⟨u, s, v, rfl, rfl, rfl⟩ := exists_parts hpos
  obtain ⟨s₁, s₂, rfl, hs₁⟩ : ∃ s₁ s₂, s = s₁ ++ s₂ ∧ s₁.length = r.length :=
    ⟨s.take r.length, s.drop r.length, (List.take_append_drop _ _).symm, by simpa using hr⟩
  rw [List.append_assoc s₁] at hsize ⊢
  have hiff := replace_eq_zeros_iff b hs₁ hsize
  have htake : (u ++ (s₁ ++ (s₂ ++ v)) ++ b).take u.length = u := by
    rw [List.append_assoc, List.take_left]
  have hrest : ((u ++ (s₁ ++ (s₂ ++ v)) ++ b).take (u ++ (s₁ ++ (s₂ ++ v))).length).drop
      (u.length + (s₁ ++ s₂).length) = v := by
    have hsplit : u ++ (s₁ ++ (s₂ ++ v)) = (u ++ (s₁ ++ s₂)) ++ v := by simp
    rw [List.take_left, hsplit, ← List.length_append, List.drop_left]
  have hgap : (s₁ ++ s₂).length - r.length = s₂.length := by
    rw [List.length_append]
    omega
  have hlength : (u ++ (s₁ ++ (s₂ ++ v))).length - (s₁ ++ s₂).length + r.length =
      (u ++ (r ++ v)).length := by
    simp only [List.length_append]
    omega
  rw [htake, hrest, hgap, hlength, List.drop_left]
  have hend : (u ++ (s₁ ++ (s₂ ++ v))).length = (u ++ (r ++ v)).length + s₂.length := by
    simp only [List.length_append]
    omega
  refine hiff.trans ⟨fun h m hlt hm => ?_, fun h m hlt hm => ?_⟩
  · obtain ⟨m, rfl⟩ := Nat.exists_eq_add_of_lt hlt
    have hm' : m + 1 < s₂.length := by omega
    rw [Nat.add_assoc, getElem?_behind hs₁ s₂ v b hm']
    exact h (m + 1) (by omega) hm'
  · rw [← getElem?_behind hs₁ s₂ v b hm]
    exact h _ (by omega) (by omega)

/-- Four characters become one, and three are behind them. -/
theorem replace_splice_iff_blanks :
    (named (ascii "f<g<int>   >::h") [0]).replace 8 4 (ascii ">") =
        ⟨ascii "f<g<int>" ++ (ascii ">" ++ (ascii "::h" ++ (List.replicate 3 0 ++ [0]))), 12⟩ ↔
      ∀ m, 12 < m → m < 15 → (ascii "f<g<int>   >::h" ++ [0])[m]? = some 0 :=
  @replace_splice_iff (named (ascii "f<g<int>   >::h") [0]) 8 4 (ascii ">")
    (by decide) (by decide) (by decide) (by decide)

/-- Four characters of the old name are left behind the NUL of the new one. -/
theorem replace_leaves_rest :
    10 ≤ (named (ascii "std::__1::a") [0]).N ∧
      (named (ascii "std::__1::a") [0]).replace 0 10 (ascii "std::") ≠
        ⟨ascii "std::" ++ (ascii "a" ++ (List.replicate 5 0 ++ [0])), 6⟩ := by
  refine ⟨by decide, fun h => ?_⟩
  have hfunction := congrArg FunctionName.function h
  revert hfunction
  decide

/-! ## Names with their NUL -/

/-- The buffer has room for `L` characters and a NUL, and holds the text `t` of length `N`
    with a NUL behind it. -/
structure Holds (f : FunctionName) (t : Bytes) (L : ℕ) : Prop where
  named : ∃ b, f = named t b ∧ b.head? = some 0
  length_eq : f.function.length = L + 1
  nul : 0 ∉ t

namespace Holds

variable {f : FunctionName} {t : Bytes} {L : ℕ}

theorem view (h : f.Holds t L) : f.view = some t := by
  obtain ⟨b, rfl, -⟩ := h.named
  exact view_named t b

theorem N_eq (h : f.Holds t L) : f.N = t.length := by
  obtain ⟨b, rfl, -⟩ := h.named
  rfl

theorem buffer (h : f.Holds t L) : ∃ rest, f.function = t ++ 0 :: rest := by
  obtain ⟨b, rfl, hb⟩ := h.named
  obtain ⟨rest, rfl⟩ := List.head?_eq_some_iff.mp hb
  exact ⟨rest, rfl⟩

theorem le (h : f.Holds t L) : t.length ≤ L := by
  obtain ⟨rest, hrest⟩ := h.buffer
  have hlength := h.length_eq
  rw [hrest, List.length_append, List.length_cons] at hlength
  omega

theorem cstr_function (h : f.Holds t L) : cstr f.function = t := by
  obtain ⟨rest, hrest⟩ := h.buffer
  rw [hrest, cstr_append_zero h.nul]

theorem replace {u s v r : Bytes} (h : f.Holds (u ++ (s ++ v)) L) (hL : L < npos)
    (hr : r.length ≤ s.length) (hzero : 0 ∉ r) :
    (f.replace u.length s.length r).Holds (u ++ (r ++ v)) L := by
  obtain ⟨b, rfl, hb⟩ := h.named
  obtain ⟨b', hreplace, hlength, hhead⟩ := replace_shorter b (h.le.trans hL.le) hr
  have hsize := h.length_eq
  have hnul := h.nul
  rw [hreplace]
  refine ⟨⟨b', rfl, hhead hb⟩, ?_, ?_⟩
  · simp only [FunctionName.named, List.length_append] at hsize ⊢
    omega
  · simp only [List.mem_append, not_or] at hnul ⊢
    exact ⟨hnul.1, hzero, hnul.2.2⟩

/-- Whatever takes the place of a part of the name, it is not longer than before. -/
theorem exists_replace {pos len : ℕ} {r : Bytes} (h : f.Holds t L) (hL : L < npos)
    (hpos : pos + len ≤ t.length) (hzero : 0 ∉ r) :
    ∃ t', t'.length ≤ t.length ∧ (f.replace pos len r).Holds t' L := by
  obtain ⟨u, s, v, rfl, rfl, rfl⟩ := exists_parts hpos
  rcases Nat.lt_or_ge s.length r.length with hr | hr
  · obtain ⟨b, rfl, hb⟩ := h.named
    obtain ⟨r', z, hr', -, hmem, hlength, hreplace⟩ :=
      FunctionName.replace_longer b (h.le.trans hL.le) hr
    have hsame : (u ++ (r' ++ z)).length = (u ++ (s ++ v)).length := by
      rw [List.length_append, hlength, ← List.length_append]
    have hsize := h.length_eq
    have hnul := h.nul
    refine ⟨_, hsame.le, ⟨b, hreplace, hb⟩, ?_, ?_⟩
    · rw [hreplace, ← hsize]
      show ((u ++ (r' ++ z)) ++ b).length = ((u ++ (s ++ v)) ++ b).length
      rw [List.length_append, hsame, ← List.length_append]
    · simp only [List.mem_append, not_or] at hnul ⊢
      exact ⟨hnul.1, fun h0 => hzero (hr'.subset h0),
        fun h0 => hzero (List.mem_of_mem_drop (hmem 0 h0))⟩
  · refine ⟨_, ?_, h.replace hL hr hzero⟩
    simp only [List.length_append]
    omega

end Holds

end FunctionName

end StackTrace
