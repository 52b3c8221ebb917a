import StackTrace.Symbols.StringAliases

/-!
# The template brackets of a name

`StackTrace.cpp`, lines 1886–2018. Most rewriting keeps a nested name nested: a pattern opens
as many brackets as its text, and an instance of `std::basic_string` ends at its matching
bracket. The last statements take the first comma, `(` or allocator behind their pattern,
which need not be on the level of its brackets.

* `nested_splice_iff`: a call that does not lengthen the name keeps it nested exactly where
  the part that it takes out is as the text that it writes.
* `cleanup_nested`: with such calls the name that is left is nested.
* `nested_iff_balanced`: in a run of calls none of which lengthens the name, the names are
  nested exactly where all calls are balanced.
-/

namespace StackTrace

open Brackets

namespace FunctionName

variable {f g : FunctionName} {t : Bytes} {L : ℕ} {todo : List Command} {st : State}

/-! ## Calls -/

/-- Where the part ends that the call takes out of a name of length `N`. -/
def Call.stop (c : Call) (N : ℕ) : ℕ := min ((c.pos + c.len) % 18446744073709551616) N

/-- The part that the call takes out. -/
def Call.part (c : Call) (t : Bytes) : Bytes := (t.take (c.stop t.length)).drop c.pos

/-- The name behind the call, if it does not lengthen it. -/
def Call.splice (c : Call) (t : Bytes) : Bytes :=
  t.take c.pos ++ (ascii c.r ++ t.drop (c.stop t.length))

/-- The part begins before it ends, and it is not shorter than the new text. -/
def Call.Fits (c : Call) (t : Bytes) : Prop :=
  c.pos ≤ c.stop t.length ∧ (ascii c.r).length ≤ (c.part t).length

/-- The part opens as many brackets more than it closes as the new text does. -/
def Call.Balanced (c : Call) (t : Bytes) : Prop :=
  depth bracket (c.part t) = depth bracket (ascii c.r)

instance decidableFits (c : Call) (t : Bytes) : Decidable (c.Fits t) :=
  inferInstanceAs (Decidable (_ ∧ _))

instance decidableBalanced (c : Call) (t : Bytes) : Decidable (c.Balanced t) :=
  inferInstanceAs (Decidable (_ = _))

theorem Call.Fits.split {c : Call} (h : c.Fits t) :
    t = t.take c.pos ++ (c.part t ++ t.drop (c.stop t.length)) := by
  have hle : c.stop t.length ≤ t.length := Nat.min_le_right _ _
  have htake : t.take c.pos ++ c.part t = t.take (c.stop t.length) := by
    unfold Call.part
    rw [← Nat.min_eq_left h.1, ← List.take_take, Nat.min_eq_left h.1]
    conv_rhs => rw [← List.take_append_drop c.pos (t.take (c.stop t.length))]
  rw [← List.append_assoc, htake, List.take_append_drop]

theorem Call.Fits.part_length {c : Call} (h : c.Fits t) :
    c.pos + (c.part t).length = c.stop t.length := by
  have hpos := h.1
  have hle : c.stop t.length ≤ t.length := Nat.min_le_right _ _
  unfold Call.part
  rw [List.length_drop, List.length_take]
  omega

/-- Nothing behind the end of the name is moved. -/
theorem replace_stop {c : Call} (hN : f.N < npos) (hpos : c.pos ≤ c.stop f.N) (r : Bytes) :
    f.replace c.pos c.len r = f.replace c.pos (c.stop f.N - c.pos) r := by
  unfold Call.stop at hpos ⊢
  unfold replace
  obtain ⟨i, hi⟩ : ∃ i, (c.pos + c.len) % 18446744073709551616 = i := ⟨_, rfl⟩
  have hi' : (c.pos + (min i f.N - c.pos)) % 18446744073709551616 = min i f.N := by
    unfold npos at hN
    rw [Nat.mod_eq_of_lt] <;> omega
  simp only [hi, hi']
  rcases Nat.le_total i f.N with hle | hle
  · rw [Nat.min_eq_left hle]
  · rw [Nat.min_eq_right hle, Nat.sub_eq_zero_of_le hle, Nat.sub_self, Nat.zero_min]
    rfl

theorem Holds.splice {c : Call} (h : f.Holds t L) (hL : L < npos) (hc : c.Fits t)
    (hzero : 0 ∉ ascii c.r) : (f.replace c.pos c.len (ascii c.r)).Holds (c.splice t) L := by
  have hN := h.N_eq
  have hle := h.le
  have hsplit := hc.split
  have hlength : (t.take c.pos).length = c.pos := by
    have hstop : c.stop t.length ≤ t.length := Nat.min_le_right _ _
    rw [List.length_take, Nat.min_eq_left (hc.1.trans hstop)]
  have hpart : (c.part t).length = c.stop f.N - c.pos := by
    rw [hN, ← hc.part_length, Nat.add_sub_cancel_left]
  have hholds : f.Holds (t.take c.pos ++ (c.part t ++ t.drop (c.stop t.length))) L := by
    rw [← hsplit]
    exact h
  have hreplace := hholds.replace hL hc.2 hzero
  rw [hlength, hpart, ← replace_stop (by omega) (hN ▸ hc.1)] at hreplace
  exact hreplace

/-- A call that does not lengthen the name keeps it nested where it is balanced, and only
    there. -/
theorem nested_splice_iff {c : Call} (ht : Nested bracket t) (hc : c.Fits t)
    (hr : Shallow bracket (ascii c.r)) : Nested bracket (c.splice t) ↔ c.Balanced t := by
  rw [hc.split] at ht
  rw [Call.Balanced, eq_comm]
  exact ht.splice hr

/-- `replace` behind the end of the name changes nothing but the length. -/
theorem replace_beyond {pos : ℕ} (hpos : f.N ≤ pos) (len : ℕ) (r : Bytes) :
    (f.replace pos len r).function = f.function := by
  unfold replace
  simp only [Nat.sub_eq_zero_of_le hpos, List.take_zero, writeLoop, Nat.min_zero, Nat.add_zero,
    shiftLoop, zeroLoop]

/-! ## Commands -/

/-- The command keeps a nested name nested: where the pattern of `strrep` is found its text
    is not longer, and what the last loop and the last two statements take out is in order and
    balanced. An allocator that is not found leaves the characters as they are. -/
def Command.KeepsNesting (t : Bytes) (call : Option Call) (todo : List Command) : Command → Prop
  | .strrep s r => (ascii r).length ≤ (ascii s).length ∨ StackTrace.find (ascii s) t = none
  | .ifFound _ _ => True
  | .basicString _ => True
  | .basicStringView _ => ∀ c ∈ call, c.Fits t ∧ c.Balanced t
  | .makeShared => ∀ c ∈ call, c.Fits t ∧ c.Balanced t
  | .vectorAllocator => ∀ c ∈ call, (c.Fits t ∧ c.Balanced t) ∨ (c.pos = npos ∧ todo = [])

/-- The next step keeps a nested name nested. -/
def KeepsNesting (st : State) : Prop :=
  ∀ t ∈ st.f.view, ∀ c ∈ st.todo.head?, c.KeepsNesting t st.call st.todo.tail

instance decidableCommandKeepsNesting (t : Bytes) (call : Option Call) (todo : List Command) :
    ∀ c : Command, Decidable (c.KeepsNesting t call todo)
  | .strrep _ _ => inferInstanceAs (Decidable (_ ∨ _))
  | .ifFound _ _ | .basicString _ => inferInstanceAs (Decidable True)
  | .basicStringView _ | .makeShared => inferInstanceAs (Decidable (∀ c ∈ call, _ ∧ _))
  | .vectorAllocator => inferInstanceAs (Decidable (∀ c ∈ call, _ ∨ _))

instance decidableKeepsNesting (st : State) : Decidable (KeepsNesting st) :=
  inferInstanceAs (Decidable (∀ t ∈ st.f.view, ∀ c ∈ st.todo.head?, _))

theorem pairs_depth : ∀ p ∈ pairs, depth bracket (ascii p.1) = depth bracket (ascii p.2) := by
  decide +kernel

theorem texts_shallow : ∀ r ∈ texts, Shallow bracket (ascii r) := by
  decide +kernel

/-- A part between two places of a name of `size_t` length. -/
theorem fits_of_split {u s v : Bytes} {r : String} (ht : (u ++ (s ++ v)).length < npos)
    (hr : (ascii r).length ≤ s.length) :
    (Call.mk u.length s.length r).part (u ++ (s ++ v)) = s ∧
      (Call.mk u.length s.length r).Fits (u ++ (s ++ v)) := by
  have hstop : (Call.mk u.length s.length r).stop (u ++ (s ++ v)).length =
      (u ++ s).length := by
    unfold Call.stop
    simp only [List.length_append, npos] at ht ⊢
    rw [Nat.mod_eq_of_lt (by omega)]
    omega
  have hpart : (Call.mk u.length s.length r).part (u ++ (s ++ v)) = s := by
    unfold Call.part
    rw [hstop, ← List.append_assoc, List.take_left, List.drop_left]
  refine ⟨hpart, ?_, by rw [hpart]; exact hr⟩
  rw [hstop, List.length_append]
  exact Nat.le_add_right _ _

theorem strrep_balanced {s r : String} (h : f.Holds t L) (hL : L < npos) (hc : (s, r) ∈ pairs)
    (hok : (ascii r).length ≤ (ascii s).length ∨ StackTrace.find (ascii s) t = none) :
    ∀ c ∈ State.call ⟨f, .strrep s r :: todo⟩, c.Fits t ∧ c.Balanced t := by
  have hrun := run_strrep h.view s r
  rw [position_zero] at hrun
  cases hfind : StackTrace.find (ascii s) t with
  | none =>
    rw [hfind, Option.getD_none, if_pos rfl] at hrun
    simp [call_eq hrun]
  | some pos =>
    obtain ⟨u, v, rfl, rfl, -⟩ := find_first hfind
    have hle := h.le
    have hpos : u.length ≠ npos := by
      rw [List.length_append] at hle
      omega
    rw [hfind, Option.getD_some, if_neg hpos] at hrun
    rw [call_eq hrun]
    have hlength := hok.resolve_right fun hnone => by
      rw [hfind] at hnone
      cases hnone
    obtain ⟨hpart, hfits⟩ := fits_of_split (lt_of_le_of_lt hle hL) hlength
    rintro c hc'
    obtain rfl := Option.some.inj hc'
    refine ⟨hfits, ?_⟩
    unfold Call.Balanced
    rw [hpart]
    exact pairs_depth _ hc

/-- The pattern that is found is in the name. -/
theorem strstr_split {pat : Bytes} {pos p : ℕ} (h : strstr t pos pat = some p)
    (hp : p ≤ t.length) : ∃ u v, t = u ++ (pat ++ v) ∧ u.length = p := by
  obtain ⟨k, hk, rfl⟩ := Option.map_eq_some_iff.mp h
  obtain ⟨-, ⟨v, hv⟩, -⟩ := find_eq_some_iff.mp hk
  rw [List.drop_drop] at hv
  refine ⟨t.take (pos + k), v, ?_, by simpa using hp⟩
  rw [hv, List.take_append_drop]

theorem testedAlias_depth {v : Bytes} {r : String} (h : testedAlias v = some r) :
    (ascii r).length ≤ 18 ∧ depth bracket (ascii r) = 0 := by
  rcases testedAlias_eq h with rfl | rfl | rfl | rfl <;> decide +kernel

/-- An instance of `std::basic_string` is replaced up to the bracket that closes it. -/
theorem basicString_balanced (h : f.Holds t L) (hL : L < npos) (ht : Nested bracket t) (pos : ℕ) :
    ∀ c ∈ State.call ⟨f, .basicString pos :: todo⟩, c.Fits t ∧ c.Balanced t := by
  rcases h.scan_cases hL (s := "std::basic_string<") (by decide) pos f.stringNameChecked
      .basicString with ⟨-, hscan, -⟩ | ⟨p, hp, -, hend, hscan, -⟩
  · rw [call_eq (c := .basicString pos) hscan]
    simp
  · have hlength : (ascii "std::basic_string<").length = 18 := by decide
    obtain ⟨u, v, rfl, rfl⟩ := strstr_split hp (by omega)
    obtain ⟨k, hk⟩ := closes_instance (ht.closes.suffix (List.suffix_append u _))
    have hle := closing_le hk
    rw [h.stringNameChecked_eq (by omega), h.stringName_instance, h.findMatching_instance hk,
      Nat.add_sub_cancel_left] at hscan
    rw [call_eq (c := .basicString pos) hscan]
    rintro c hc
    obtain ⟨r, hr, rfl⟩ := Option.map_eq_some_iff.mp hc
    obtain ⟨hsize, hdepth⟩ := testedAlias_depth hr
    have hsplit : u ++ (ascii "std::basic_string<" ++ v) =
        u ++ ((ascii "std::basic_string<" ++ v.take k) ++ v.drop k) := by
      rw [List.append_assoc, List.take_append_drop]
    have hinstance : (ascii "std::basic_string<" ++ v.take k).length = 18 + k := by
      rw [List.length_append, hlength, List.length_take, Nat.min_eq_left hle]
    have hlt := lt_of_le_of_lt h.le hL
    rw [hsplit] at hlt
    obtain ⟨hpart, hfits⟩ := fits_of_split (r := r) hlt (by omega)
    rw [hinstance, ← hsplit] at hpart hfits
    refine ⟨hfits, ?_⟩
    have hclosed := depth_take_closing hk
    unfold Call.Balanced
    rw [hpart, depth_append, show depth bracket (ascii "std::basic_string<") = 1 by decide,
      hclosed, hdepth]

/-- The calls of all commands are balanced, but those at `npos`. -/
theorem call_balanced {c : Command} (h : f.Holds t L) (hL : L < npos) (ht : Nested bracket t)
    (hc : c.Listed) (hok : KeepsNesting ⟨f, c :: todo⟩) :
    ∀ x ∈ State.call ⟨f, c :: todo⟩, (x.Fits t ∧ x.Balanced t) ∨ (x.pos = npos ∧
      (State.mk f (c :: todo)).todo = [.vectorAllocator]) := by
  have hok := hok t h.view c rfl
  intro x hx
  cases c with
  | strrep s r => exact .inl (strrep_balanced h hL hc hok x hx)
  | ifFound s ps =>
    rw [call_eq (run_ifFound h.view s ps)] at hx
    cases hx
  | basicString pos => exact .inl (basicString_balanced h hL ht pos x hx)
  | basicStringView pos => exact .inl (hok x hx)
  | makeShared => exact .inl (hok x hx)
  | vectorAllocator =>
    refine (hok x hx).imp_right fun ⟨hpos, htodo⟩ => ⟨hpos, ?_⟩
    show Command.vectorAllocator :: todo = _
    rw [show todo = [] from htodo]

/-! ## Runs -/

/-- The name is nested; behind the last statement its length need not be right. -/
structure NestedInv (L : ℕ) (st : State) : Prop where
  name : (∃ t, st.f.Holds t L ∧ Nested bracket t) ∨
    (st.todo = [] ∧ Nested bracket (cstr st.f.function))
  listed : ∀ c ∈ st.todo, c.Listed

theorem NestedInv.nested (h : NestedInv L st) : Nested bracket (cstr st.f.function) := by
  rcases h.name with ⟨t, ht, hnested⟩ | ⟨-, hnested⟩
  · rwa [ht.cstr_function]
  · exact hnested

/-- A step that keeps the nesting leads to a nested name. -/
theorem NestedInv.step {c : Command} (h : NestedInv L ⟨f, c :: todo⟩) (hL : L < npos)
    (hok : KeepsNesting ⟨f, c :: todo⟩) :
    ∃ st', step ⟨f, c :: todo⟩ = some st' ∧ NestedInv L st' := by
  obtain ⟨hc, hlisted⟩ := List.forall_mem_cons.mp h.listed
  obtain ⟨t, ht, hnested⟩ := h.name.resolve_right fun h => by cases h.1
  obtain ⟨call, cs, hcall, htexts, hcs, hnext⟩ := exists_step ht hL hc
  have hbalanced := call_balanced ht hL hnested hc hok
  rw [hcall] at hbalanced
  refine ⟨_, hnext, ?_, List.forall_mem_append.mpr ⟨hcs, hlisted⟩⟩
  cases call with
  | none => exact .inl ⟨t, ht, hnested⟩
  | some x =>
    have hr := htexts x rfl
    rcases hbalanced x rfl with ⟨hfits, hbalanced⟩ | ⟨hpos, hlast⟩
    · exact .inl ⟨_, ht.splice hL hfits (texts_nul _ hr),
        (nested_splice_iff hnested hfits (texts_shallow _ hr)).mpr hbalanced⟩
    · -- no allocator is found: the characters stay
      have hle := ht.le
      have hN : f.N = t.length := ht.N_eq
      have hbeyond : f.N ≤ x.pos := by omega
      obtain ⟨rfl, rfl⟩ := List.cons.inj hlast
      rw [step_vectorAllocator] at hnext
      obtain ⟨g, -, hg⟩ := Option.map_eq_some_iff.mp hnext
      refine .inr ⟨(congrArg State.todo hg).symm, ?_⟩
      show Nested bracket (cstr (f.replace x.pos x.len (ascii x.r)).function)
      rw [replace_beyond hbeyond, ht.cstr_function]
      exact hnested

theorem nestedInv_start {name : Bytes} (hname : 0 ∉ name) (ht : Nested bracket name) :
    NestedInv name.length (start name) :=
  ⟨.inl ⟨name, holds_start hname, ht⟩, listed_program⟩

theorem nestedInv_reaches {name : Bytes} (hname : 0 ∉ name) (hL : name.length < npos)
    (ht : Nested bracket name) (hok : ∀ st, Reaches (start name) st → KeepsNesting st) {st : State}
    (hst : Reaches (start name) st) : NestedInv name.length st := by
  induction hst with
  | refl => exact nestedInv_start hname ht
  | tail hst hstep ih =>
    obtain ⟨f, c, todo, rfl⟩ := exists_command hstep
    obtain ⟨st', hst', hinv⟩ := ih.step hL (hok _ hst)
    obtain rfl := Option.some.inj (hstep.symm.trans hst')
    exact hinv

/-- Where every step keeps the nesting, the name is nested in every state that is reached,
    and the function ends and leaves a nested name. -/
theorem cleanup_nested (name : Bytes) (hname : 0 ∉ name) (hL : name.length < npos)
    (ht : Nested bracket name) (hok : ∀ st, Reaches (start name) st → KeepsNesting st) :
    (∀ st, Reaches (start name) st → Nested bracket (cstr st.f.function)) ∧
      ∃ fuel result, cleanupFunctionName fuel name = some result ∧ Nested bracket result := by
  have hinv : ∀ st, Reaches (start name) st → NestedInv name.length st :=
    fun _ => nestedInv_reaches hname hL ht hok
  refine ⟨fun st hst => (hinv st hst).nested, ?_⟩
  obtain ⟨-, f, -, -, hreaches, -⟩ := reaches_makeShared hname hL
  obtain ⟨st₁, hst₁, -⟩ := (hinv _ hreaches).step hL (hok _ hreaches)
  have hreaches₁ := hreaches.tail hst₁
  rw [step_makeShared] at hst₁
  obtain ⟨f₁, -, rfl⟩ := Option.map_eq_some_iff.mp hst₁
  obtain ⟨st₂, hst₂, -⟩ := (hinv _ hreaches₁).step hL (hok _ hreaches₁)
  have hreaches₂ := hreaches₁.tail hst₂
  rw [step_vectorAllocator] at hst₂
  obtain ⟨f₂, -, rfl⟩ := Option.map_eq_some_iff.mp hst₂
  obtain ⟨fuel, hfuel⟩ := (cleanup_iff_reaches hname hL).mpr hreaches₂
  refine ⟨fuel, cstr f₂.function, ?_, (hinv _ hreaches₂).nested⟩
  unfold cleanupFunctionName
  show (cleanup fuel (named name [0])).bind _ = _
  rw [hfuel]
  rfl

theorem cleanup_nested_vector :
    (∀ st, Reaches (start (ascii "f<std::vector<A, std::allocator<A>>>(B<A>)")) st →
        Nested bracket (cstr st.f.function)) ∧
      ∃ fuel result, cleanupFunctionName fuel (ascii "f<std::vector<A, std::allocator<A>>>(B<A>)") =
        some result ∧ Nested bracket result :=
  cleanup_nested _ (by decide) (by decide) (by decide +kernel)
    (forall_reaches_of_allSteps (n := 16) (by decide +kernel))

/-- The first allocator behind `std::vector<` is that of the inner vector. -/
theorem vector_not_nested :
    Nested bracket (ascii "std::vector<std::vector<A, std::allocator<A>>, std::allocator<B<A>>>") ∧
      ¬ ∃ fuel result, cleanupFunctionName fuel
          (ascii "std::vector<std::vector<A, std::allocator<A>>, std::allocator<B<A>>>") =
        some result ∧ Nested bracket result := by
  refine ⟨by decide +kernel, ?_⟩
  rintro ⟨fuel, result, hresult, hnested⟩
  have hcode : cleanupFunctionName 3
      (ascii "std::vector<std::vector<A, std::allocator<A>>, std::allocator<B<A>>>") =
      some (ascii "std::vector<std::vector<A>") := by decide +kernel
  have hmono := cleanupFunctionName_mono (Nat.le_max_left fuel 3) hresult
  have hmono' := cleanupFunctionName_mono (Nat.le_max_right fuel 3) hcode
  obtain rfl := Option.some.inj (hmono.symm.trans hmono')
  exact absurd hnested (by decide +kernel)

/-! ## Runs of calls that fit -/

/-- Every call that is made does not lengthen the name. -/
def AllFit (name : Bytes) : Prop :=
  ∀ st, Reaches (start name) st → ∀ t ∈ st.f.view, ∀ c ∈ st.call, c.Fits t

theorem step_of_fits {c : Command} (h : f.Holds t L) (hL : L < npos) (hc : c.Listed)
    (hlisted : ∀ d ∈ todo, d.Listed) (hfits : ∀ x ∈ State.call ⟨f, c :: todo⟩, x.Fits t) :
    ∃ st', step ⟨f, c :: todo⟩ = some st' ∧ (∀ d ∈ st'.todo, d.Listed) ∧
      (∀ x ∈ State.call ⟨f, c :: todo⟩, x.r ∈ texts) ∧
      st'.f.Holds ((State.call ⟨f, c :: todo⟩).elim t fun x => x.splice t) L := by
  obtain ⟨call, cs, hcall, htexts, hcs, hnext⟩ := exists_step h hL hc
  rw [hcall] at hfits ⊢
  refine ⟨_, hnext, List.forall_mem_append.mpr ⟨hcs, hlisted⟩, htexts, ?_⟩
  cases call with
  | none => exact h
  | some x => exact h.splice hL (hfits x rfl) (texts_nul _ (htexts x rfl))

theorem inv_of_allFit {name : Bytes} (hname : 0 ∉ name) (hL : name.length < npos)
    (hfits : AllFit name) {st : State} (hst : Reaches (start name) st) : Inv name.length st := by
  induction hst with
  | refl => exact inv_start hname
  | @tail st st' hst hstep ih =>
    obtain ⟨⟨t, ht⟩, hlisted⟩ := ih
    obtain ⟨f, c, todo, rfl⟩ := exists_command hstep
    obtain ⟨hc, hlisted⟩ := List.forall_mem_cons.mp hlisted
    obtain ⟨st'', hst'', hlisted', -, hholds⟩ :=
      step_of_fits ht hL hc hlisted (hfits _ hst t ht.view)
    obtain rfl := Option.some.inj (hstep.symm.trans hst'')
    exact ⟨⟨_, hholds⟩, hlisted'⟩

/-- The names that are reached are nested exactly where all calls are balanced. -/
theorem nested_iff_balanced {name : Bytes} (hname : 0 ∉ name) (hL : name.length < npos)
    (ht : Nested bracket name) (hfits : AllFit name) :
    (∀ st, Reaches (start name) st → Nested bracket (cstr st.f.function)) ↔
      ∀ st, Reaches (start name) st → ∀ t ∈ st.f.view, ∀ c ∈ st.call, c.Balanced t := by
  constructor
  · rintro hnested ⟨f, todo⟩ hst t hview x hx
    obtain ⟨⟨t', ht'⟩, hlisted⟩ := inv_of_allFit hname hL hfits hst
    obtain rfl := Option.some.inj (ht'.view.symm.trans hview)
    cases todo with
    | nil => cases hx
    | cons c todo =>
      obtain ⟨hc, hlisted⟩ := List.forall_mem_cons.mp hlisted
      have hfit := hfits _ hst t' hview
      obtain ⟨st', hst', -, htexts, hholds⟩ := step_of_fits ht' hL hc hlisted hfit
      have hbefore := hnested _ hst
      have hbehind := hnested _ (hst.tail hst')
      rw [ht'.cstr_function] at hbefore
      rw [hholds.cstr_function, show State.call ⟨f, c :: todo⟩ = some x from hx] at hbehind
      exact (nested_splice_iff hbefore (hfit x hx) (texts_shallow _ (htexts x hx))).mp hbehind
  · intro hbalanced st hst
    induction hst with
    | refl =>
      show Nested bracket (cstr (named name [0]).function)
      rwa [(holds_start hname).cstr_function]
    | @tail st st' hst hstep ih =>
      obtain ⟨⟨t, ht'⟩, hlisted⟩ := inv_of_allFit hname hL hfits hst
      obtain ⟨f, c, todo, rfl⟩ := exists_command hstep
      obtain ⟨hc, hlisted⟩ := List.forall_mem_cons.mp hlisted
      have hfit := hfits _ hst t ht'.view
      have hbal := hbalanced _ hst t ht'.view
      obtain ⟨st'', hst'', -, htexts, hholds⟩ := step_of_fits ht' hL hc hlisted hfit
      obtain rfl := Option.some.inj (hstep.symm.trans hst'')
      rw [ht'.cstr_function] at ih
      rw [hholds.cstr_function]
      cases hcall : State.call ⟨f, c :: todo⟩ with
      | none => exact ih
      | some x =>
        exact (nested_splice_iff ih (hfit x hcall) (texts_shallow _ (htexts x hcall))).mpr
          (hbal x hcall)

end FunctionName

end StackTrace
