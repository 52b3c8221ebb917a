import StackTrace.Symbols.CleanupSteps
import StackTrace.Symbols.FindMatching

/-!
# Where `cleanupFunctionName` stays inside its buffer

`StackTrace.cpp`, lines 1886–2018. All positions that are passed to `replace` come from a
search. The loops stop where one fails; the last two statements do not look whether the
comma, the bracket or the allocator was found, and in which order.

* `inBounds_iff`: the calls of a run are in range, and nothing outside the buffer is
  accessed, exactly where what these two statements find is there and in order.
* `findMatchingInt_of_reaches`: in these runs the `int` of `findMatching` counts right, if the
  name has less than 2147483647 characters.
-/

namespace StackTrace

namespace FunctionName

variable {f g : FunctionName} {t : Bytes} {L : ℕ} {st st' : State}

/-! ## Statement -/

/-- What is to hold throughout the call for a name of length `L`: `N` is inside, the next
    call of `replace` is in range, the next step accesses nothing outside, and a NUL is
    behind the name. -/
structure InBounds (L : ℕ) (st : State) : Prop where
  length_eq : st.f.function.length = L + 1
  N_le : st.f.N ≤ L
  call_le : ∀ c ∈ st.call, c.pos + c.len ≤ st.f.N
  access : st.todo ≠ [] → ∃ st', step st = some st'
  nul : st.f.function[st.f.N]? = some 0

/-- Behind `std::make_shared<` the first comma is found, and behind that the first `(`. -/
def MakeSharedPaired (t : Bytes) : Prop :=
  position t "std::make_shared<" 0 ≠ npos →
    position t "," (position t "std::make_shared<" 0) ≤
        position t "(" (position t "std::make_shared<" 0) ∧
      position t "(" (position t "std::make_shared<" 0) ≠ npos

/-- Behind `std::vector<` the first allocator is found, and it begins before the matching
    bracket. -/
def VectorPaired (f : FunctionName) (t : Bytes) : Prop :=
  position t "std::vector<" 0 ≠ npos →
    position t ", std::allocator" (position t "std::vector<" 0) ≤
      f.findMatching (position t "std::vector<" 0 + 11)

/-- What the last two statements look for is found in order when they are next. -/
def Paired (st : State) : Prop :=
  ∀ t, st.f.view = some t →
    match st.todo with
    | .makeShared :: _ => MakeSharedPaired t
    | .vectorAllocator :: _ => VectorPaired st.f t
    | _ => True

/-! ## Calls -/

theorem subSize_of_le {a b : ℕ} (h : b ≤ a) (ha : a ≤ npos) : subSize a b = a - b := by
  unfold subSize
  unfold npos at ha
  omega

/-- A round of a loop over instances calls `replace` inside the name. -/
theorem scan_call_le (h : f.Holds t L) (hL : L < npos) {s : String} (hs : 18 ≤ (ascii s).length)
    {pos : ℕ} (name : ℕ → Option (Option String)) (next : ℕ → Command) {c : Command}
    {todo : List Command} (hrun : c.run f = f.scan s pos name next) :
    ∀ x ∈ State.call ⟨f, c :: todo⟩, x.pos + x.len ≤ t.length := by
  intro x hx
  replace hx : (c.run f).bind Prod.fst = some x := hx
  rw [hrun] at hx
  rcases h.scan_cases hL hs pos name next with ⟨-, hscan, -⟩ | ⟨p, -, -, hend, hscan, -⟩
  · rw [hscan] at hx
    cases hx
  · obtain ⟨hlt, hle⟩ := findMatching_bounds h.view (show p + 17 < t.length by omega)
    rw [hscan] at hx
    cases hname : name (p + 18) with
    | none =>
      rw [hname] at hx
      cases hx
    | some r =>
      rw [hname] at hx
      obtain ⟨y, -, rfl⟩ := Option.map_eq_some_iff.mp hx
      show p + (f.findMatching (p + 17) - p) ≤ t.length
      omega

/-- With paired positions every call is in range. -/
theorem call_le_of_paired {c : Command} {todo : List Command} (h : f.Holds t L) (hL : L < npos)
    (hpaired : Paired ⟨f, c :: todo⟩) :
    ∀ x ∈ State.call ⟨f, c :: todo⟩, x.pos + x.len ≤ t.length := by
  have hle := h.le
  have hp := hpaired t h.view
  cases c with
  | strrep s r =>
    have hrun := run_strrep h.view s r
    split_ifs at hrun with hnone
    · simp [call_eq hrun]
    · rw [call_eq hrun]
      rintro x hx
      obtain rfl := Option.some.inj hx
      exact (position_le (Nat.zero_le _) hnone).2
  | ifFound s ps =>
    rw [call_eq (run_ifFound h.view s ps)]
    simp
  | basicString pos =>
    exact scan_call_le h hL (s := "std::basic_string<") (by decide) f.stringNameChecked
      .basicString rfl
  | basicStringView pos =>
    exact scan_call_le h hL (s := "std::basic_std::string_view<char") (by decide)
      (fun _ => some (some "std::std::string_view")) .basicStringView rfl
  | makeShared =>
    rw [call_eq (run_makeShared h.view)]
    split_ifs with hnone
    · simp
    · obtain ⟨hcomma, hparen⟩ := hp hnone
      have hstart := position_le (Nat.zero_le _) hnone
      have hend := position_le (by omega) hparen
      rintro x hx
      obtain rfl := Option.some.inj hx
      show position t "," _ + subSize (position t "(" _) (position t "," _) ≤ t.length
      rw [subSize_of_le hcomma (by omega)]
      omega
  | vectorAllocator =>
    rw [call_eq (run_vectorAllocator h.view)]
    split_ifs with hnone
    · simp
    · have hstart := position_le (Nat.zero_le _) hnone
      have hlength : (ascii "std::vector<").length = 12 := by decide
      have hend := findMatching_bounds h.view
        (show position t "std::vector<" 0 + 11 < t.length by omega)
      rintro x hx
      obtain rfl := Option.some.inj hx
      have horder : position t ", std::allocator" (position t "std::vector<" 0) ≤
          f.findMatching (position t "std::vector<" 0 + 11) := hp hnone
      show position t ", std::allocator" _ + subSize (f.findMatching _) _ ≤ t.length
      rw [subSize_of_le horder (by omega)]
      omega

/-! ## Runs -/

theorem Inv.step (h : Inv L st) (hL : L < npos) (hpaired : Paired st)
    (hstep : step st = some st') : Inv L st' := by
  obtain ⟨f, c, todo, rfl⟩ := exists_command hstep
  obtain ⟨t, ht⟩ := h.holds
  obtain ⟨hc, htodo⟩ := List.forall_mem_cons.mp h.listed
  obtain ⟨call, cs, hcall, htexts, hcs, hnext⟩ := exists_step ht hL hc
  have hlisted := List.forall_mem_append.mpr ⟨hcs, htodo⟩
  have hle := call_le_of_paired ht hL hpaired
  rw [hcall] at hle
  rw [hnext] at hstep
  obtain rfl := Option.some.inj hstep
  cases call with
  | none => exact ⟨⟨t, ht⟩, hlisted⟩
  | some x =>
    obtain ⟨t', -, ht'⟩ := ht.exists_replace hL (hle x rfl) (texts_nul _ (htexts x rfl))
    exact ⟨⟨t', ht'⟩, hlisted⟩

theorem Inv.inBounds (h : Inv L st) (hL : L < npos) (hpaired : Paired st) : InBounds L st := by
  obtain ⟨f, todo⟩ := st
  obtain ⟨t, ht⟩ := h.holds
  have hN : f.N = t.length := ht.N_eq
  obtain ⟨rest, hrest⟩ := ht.buffer
  have hnul : f.function[f.N]? = some 0 := by
    rw [hN, hrest, List.getElem?_append_right le_rfl, Nat.sub_self]
    rfl
  cases todo with
  | nil => exact ⟨ht.length_eq, hN.trans_le ht.le, by simp [State.call], by simp, hnul⟩
  | cons c todo =>
    obtain ⟨call, cs, -, -, -, hnext⟩ := exists_step ht hL (h.listed c List.mem_cons_self)
    refine ⟨ht.length_eq, hN.trans_le ht.le, ?_, fun _ => ⟨_, hnext⟩, hnul⟩
    exact fun x hx => (call_le_of_paired ht hL hpaired x hx).trans_eq hN.symm

theorem le_of_subSize_le {a b n : ℕ} (h : b + subSize a b ≤ n) (hn : n < npos) (ha : a ≤ npos) :
    b ≤ a ∧ a ≠ npos := by
  unfold subSize npos at *
  omega

/-- A call that is in range has found what it looked for. -/
theorem InBounds.paired (h : InBounds L st) (hL : L < npos) : Paired st := by
  obtain ⟨f, todo⟩ := st
  intro t hview
  have hN : f.N ≤ L := h.N_le
  have hcall := h.call_le
  have ht : t.length ≤ npos := by
    obtain ⟨b, rfl⟩ := view_eq_some_iff.mp hview
    exact hN.trans hL.le
  match todo with
  | [] | .strrep _ _ :: _ | .ifFound _ _ :: _ | .basicString _ :: _ | .basicStringView _ :: _ =>
    trivial
  | .makeShared :: todo =>
    intro hpos1
    have hrun := run_makeShared hview
    rw [if_neg hpos1] at hrun
    have hle := hcall (makeSharedCall t) (by unfold State.call; simp [hrun])
    have hstart := (position_le (Nat.zero_le _) hpos1).2
    exact le_of_subSize_le (hle.trans hN) hL (position_le_npos (by omega) ht)
  | .vectorAllocator :: todo =>
    intro hpos1
    have hrun := run_vectorAllocator hview
    rw [if_neg hpos1] at hrun
    have hle := hcall (f.vectorCall t) (by unfold State.call; simp [hrun])
    have hstart := (position_le (Nat.zero_le _) hpos1).2
    have hlength : (ascii "std::vector<").length = 12 := by decide
    have hend := (findMatching_bounds hview
      (show position t "std::vector<" 0 + 11 < t.length by omega)).2
    exact (le_of_subSize_le (hle.trans hN) hL (hend.trans ht)).1

theorem inBounds_of_paired {name : Bytes} (hname : 0 ∉ name) (hL : name.length < npos)
    (hpaired : ∀ st, Reaches (start name) st → Paired st) (hst : Reaches (start name) st) :
    InBounds name.length st := by
  have hinv : Inv name.length st := by
    induction hst with
    | refl => exact inv_start hname
    | tail hst hstep ih => exact ih.step hL (hpaired _ hst) hstep
  exact hinv.inBounds hL (hpaired st hst)

theorem inBounds_iff (name : Bytes) (hname : 0 ∉ name) (hL : name.length < npos) :
    (∀ st, Reaches (start name) st → InBounds name.length st) ↔
      ∀ st, Reaches (start name) st → Paired st := by
  constructor
  · exact fun h st hst => (h st hst).paired hL
  · exact fun h st hst => inBounds_of_paired hname hL h hst

theorem inBounds_iff_vector :
    (∀ st, Reaches (start (ascii "f<std::vector<int, std::allocator<int>>>(int)")) st →
        InBounds 45 st) ↔
      ∀ st, Reaches (start (ascii "f<std::vector<int, std::allocator<int>>>(int)")) st →
        Paired st :=
  inBounds_iff (ascii "f<std::vector<int, std::allocator<int>>>(int)") (by decide) (by decide)

/-- No comma is found, and `replace` is called at `npos`. -/
theorem makeShared_not_inBounds :
    ¬ ∀ st, Reaches (start (ascii "std::make_shared<A>(x)")) st → InBounds 22 st := by
  intro h
  obtain ⟨st, hst, c, hc, hpos⟩ : ∃ st, steps 11 (start (ascii "std::make_shared<A>(x)")) =
      some st ∧ ∃ c, st.call = some c ∧ c.pos = npos := by
    have hcall : ((steps 11 (start (ascii "std::make_shared<A>(x)"))).bind State.call).map
        Call.pos = some npos := by decide +kernel
    obtain ⟨c, hc, hpos⟩ := Option.map_eq_some_iff.mp hcall
    obtain ⟨st, hst, hc⟩ := Option.bind_eq_some_iff.mp hc
    exact ⟨st, hst, c, hc, hpos⟩
  have hbounds := h st (reaches_of_steps hst)
  have hle := hbounds.call_le c hc
  have hN := hbounds.N_le
  unfold npos at hpos
  omega

/-! ## The count of `findMatching` -/

/-- In a name of less than 2147483647 characters the count fits from every place on. -/
theorem InBounds.findMatchingInt_eq (h : InBounds L st) (hL : L < 2147483647) {pos : ℕ}
    (hpos : pos < st.f.N) : st.f.findMatchingInt pos = some (st.f.findMatching pos) := by
  have hN := h.N_le
  have hlength := h.length_eq
  have hview : st.f.view = some (st.f.function.take st.f.N) := if_pos (by omega)
  have hget : pos < (st.f.function.take st.f.N).length := by
    rw [List.length_take]
    omega
  have hsplit := List.take_append_drop pos (st.f.function.take st.f.N)
  rw [List.drop_eq_getElem_cons hget] at hsplit
  have hv : ((st.f.function.take st.f.N).drop (pos + 1)).length < 2147483647 := by
    rw [List.length_drop, List.length_take]
    omega
  have hcount := findMatchingInt_of_length (hview.trans (congrArg some hsplit.symm)) hv
  rwa [List.length_take, min_eq_left hget.le] at hcount

/-- In the runs that stay inside, `findMatching` counts as the `int` of the source does. -/
theorem findMatchingInt_of_reaches {name : Bytes} (hname : 0 ∉ name)
    (hL : name.length < 2147483647) (hpaired : ∀ st, Reaches (start name) st → Paired st)
    (hst : Reaches (start name) st) {pos : ℕ} (hpos : pos < st.f.N) :
    st.f.findMatchingInt pos = some (st.f.findMatching pos) := by
  have hnpos : name.length < npos := by
    unfold npos
    omega
  exact (inBounds_of_paired hname hnpos hpaired hst).findMatchingInt_eq hL hpos

end FunctionName

end StackTrace
