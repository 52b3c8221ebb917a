import StackTrace.Symbols.Accesses
import StackTrace.Symbols.Rewriting

/-!
# `cleanupFunctionName`, one call of `replace` after the other

`StackTrace.cpp`, lines 1886–2018. The state is the name in its buffer and the commands that
are left, and one step goes as far as the next call of `replace` or the next pattern that is
not found. Every access is checked: there is no step where one is outside the buffer.

* `cleanup_iff_reaches`: `cleanup` has the result with which the steps end.
-/

namespace StackTrace

namespace FunctionName

/-- `replace( function, N, pos, len, r )`. -/
structure Call where
  pos : ℕ
  len : ℕ
  r : String
  deriving DecidableEq

/-- The statements of `cleanupFunctionName`; a loop has the value of its `pos`. -/
inductive Command
  | strrep (s r : String)
  | ifFound (s : String) (pairs : List (String × String))
  | basicString (pos : ℕ)
  | basicStringView (pos : ℕ)
  | makeShared
  | vectorAllocator
  deriving DecidableEq

structure State where
  f : FunctionName
  todo : List Command

/-! ## Steps -/

/-- Lines 1979–1986: the name of an instance whose first argument begins at `pos`. -/
def stringNameChecked (f : FunctionName) (pos : ℕ) : Option (Option String) := do
  if ← f.startsWithChecked pos "char" then some (some "std::string")
  else if ← f.startsWithChecked pos "wchar_t" then some (some "std::wstring")
  else if ← f.startsWithChecked pos "char16_t" then some (some "std::u16string")
  else if ← f.startsWithChecked pos "char32_t" then some (some "std::u32string")
  else some none

def strreps (pairs : List (String × String)) : List Command :=
  pairs.map fun p => .strrep p.1 p.2

/-- One round of the two loops over instances that begin with `s`. -/
def scan (f : FunctionName) (s : String) (pos : ℕ) (name : ℕ → Option (Option String))
    (next : ℕ → Command) : Option (Option Call × List Command) :=
  if pos < f.N then do
    let pos ← f.find s pos
    if pos = npos then some (none, [])
    else do
      let pos1 := pos + 17
      let pos2 ← f.findMatchingChecked pos1
      if pos2 = pos1 then some (none, [])
      else do
        let r ← name (pos1 + 1)
        some (r.map fun r => ⟨pos, pos2 - pos, r⟩, [next (pos + 1)])
  else some (none, [])

/-- What a command does first: a call of `replace`, if there is one, and the commands that
    are then left of it. -/
def Command.run (f : FunctionName) : Command → Option (Option Call × List Command)
  | .strrep s r => do
    let pos ← f.find s 0
    if pos = npos then some (none, [])
    else some (some ⟨pos, (ascii s).length, r⟩, [.strrep s r])
  | .ifFound s pairs => do
    let pos ← f.find s 0
    some (none, if pos = npos then [] else strreps pairs)
  | .basicString pos => f.scan "std::basic_string<" pos f.stringNameChecked .basicString
  | .basicStringView pos =>
    f.scan "std::basic_std::string_view<char" pos (fun _ => some (some "std::std::string_view"))
      .basicStringView
  | .makeShared => do
    let pos ← f.find "std::make_shared<" 0
    if pos = npos then some (none, [])
    else do
      let pos1 ← f.find "std::make_shared<" 0
      let pos2 ← f.find "," pos1
      let pos3 ← f.find "(" pos1
      some (some ⟨pos2, subSize pos3 pos2, ">"⟩, [])
  | .vectorAllocator => do
    let pos ← f.find "std::vector<" 0
    if pos = npos then some (none, [])
    else do
      let pos1 ← f.find "std::vector<" 0
      let pos2 ← f.find ", std::allocator" pos1
      let pos3 ← f.findMatchingChecked (pos1 + 11)
      some (some ⟨pos2, subSize pos3 pos2, ">"⟩, [])

/-- `N = replace( function, N, pos, len, r )`. -/
def Call.apply (f : FunctionName) : Option Call → Option FunctionName
  | none => some f
  | some call => f.replaceChecked call.pos call.len (ascii call.r)

def step (st : State) : Option State :=
  match st.todo with
  | [] => none
  | c :: todo => do
    let (call, cs) ← c.run st.f
    let f ← Call.apply st.f call
    some ⟨f, cs ++ todo⟩

/-- The call of `replace` in the next step. -/
def State.call (st : State) : Option Call :=
  match st.todo with
  | [] => none
  | c :: _ => (c.run st.f).bind Prod.fst

def program : List Command :=
  strreps templateSpace ++ (strreps [("std::__1::", "std::")] ++ (.ifFound "std::ratio<" ratios ::
    .ifFound "std::chrono::duration<" durations :: .ifFound "::sleep_for<" sleepFor ::
    (strreps [("[abi:cxx11]", ""), ("std::__cxx11::basic_string<", "std::basic_string<")] ++
      (.basicString 0 ::
        (strreps [("std::__cxx11::basic_std::string_view<", "std::basic_std::string_view<")] ++
          [.basicStringView 0, .makeShared, .vectorAllocator])))))

/-- The command passes pairs of the list to `strrep`. -/
def Command.Listed : Command → Prop
  | .strrep s r => (s, r) ∈ pairs
  | .ifFound _ ps => ∀ p ∈ ps, p ∈ pairs
  | _ => True

/-- The call of `cleanupFunctionName` for a C string. -/
def start (name : Bytes) : State := ⟨named name [0], program⟩

def Reaches : State → State → Prop := Relation.ReflTransGen fun st st' => step st = some st'

/-- The state behind `n` steps. -/
def steps : ℕ → State → Option State
  | 0, st => some st
  | n + 1, st => (step st).bind (steps n)

theorem reaches_of_steps {n : ℕ} {st st' : State} (h : steps n st = some st') :
    Reaches st st' := by
  induction n generalizing st with
  | zero =>
    obtain rfl := Option.some.inj h
    exact .refl
  | succ n ih =>
    obtain ⟨st'', hstep, hrest⟩ := Option.bind_eq_some_iff.mp h
    exact .head hstep (ih hrest)

/-- The steps end after less than `n`, and `P` holds up to there. -/
def AllSteps (P : State → Prop) : ℕ → State → Prop
  | 0, _ => False
  | n + 1, st => P st ∧ ∀ st' ∈ step st, AllSteps P n st'

instance decidableAllSteps (P : State → Prop) [DecidablePred P] :
    ∀ (n : ℕ) (st : State), Decidable (AllSteps P n st)
  | 0, _ => inferInstanceAs (Decidable False)
  | n + 1, st =>
    have : ∀ st' : State, Decidable (AllSteps P n st') := decidableAllSteps P n
    inferInstanceAs (Decidable (P st ∧ ∀ st' ∈ step st, AllSteps P n st'))

theorem forall_reaches_of_allSteps {P : State → Prop} {n : ℕ} {st : State} (h : AllSteps P n st) :
    ∀ st', Reaches st st' → P st' := by
  induction n generalizing st with
  | zero => exact h.elim
  | succ n ih =>
    intro st' hst'
    rcases hst'.cases_head with rfl | ⟨st'', hstep, hrest⟩
    · exact h.1
    · exact ih (h.2 st'' hstep) st' hrest

/-! ## What a command does -/

/-- `find( s, pos )` in the name `t`. -/
def position (t : Bytes) (s : String) (pos : ℕ) : ℕ := (strstr t pos (ascii s)).getD npos

/-- The call of line 2009. -/
def makeSharedCall (t : Bytes) : Call :=
  let pos1 := position t "std::make_shared<" 0
  ⟨position t "," pos1, subSize (position t "(" pos1) (position t "," pos1), ">"⟩

/-- The call of line 2016. -/
def vectorCall (f : FunctionName) (t : Bytes) : Call :=
  let pos1 := position t "std::vector<" 0
  let pos2 := position t ", std::allocator" pos1
  ⟨pos2, subSize (f.findMatching (pos1 + 11)) pos2, ">"⟩

variable {f g : FunctionName} {t : Bytes} {L fuel : ℕ} {todo : List Command}

theorem find_of_view (h : f.view = some t) (s : String) (pos : ℕ) :
    f.find s pos = some (position t s pos) := by
  unfold find
  rw [h]
  rfl

theorem find_of_view_none (h : f.view = none) (s : String) (pos : ℕ) : f.find s pos = none := by
  unfold find
  rw [h]
  rfl

theorem N_le_of_view (h : f.view = some t) : f.N ≤ f.function.length := by
  obtain ⟨b, rfl⟩ := view_eq_some_iff.mp h
  simp [named]

theorem position_zero (t : Bytes) (s : String) :
    position t s 0 = (StackTrace.find (ascii s) t).getD npos := by
  unfold position strstr
  rw [List.drop_zero]
  cases StackTrace.find (ascii s) t <;> simp

theorem strstr_le {s pat : Bytes} {pos p : ℕ} (hpos : pos ≤ s.length)
    (h : strstr s pos pat = some p) : pos ≤ p ∧ p + pat.length ≤ s.length := by
  obtain ⟨k, hk, rfl⟩ := Option.map_eq_some_iff.mp h
  have hle := find_le hk
  rw [List.length_drop] at hle
  omega

/-- What is found is behind `pos`, and in the name. -/
theorem position_le {s : String} {pos : ℕ} (hpos : pos ≤ t.length)
    (h : position t s pos ≠ npos) :
    pos ≤ position t s pos ∧ position t s pos + (ascii s).length ≤ t.length := by
  unfold position at h ⊢
  cases hp : strstr t pos (ascii s) with
  | none => exact absurd (by rw [hp]; rfl) h
  | some p => exact strstr_le hpos hp

theorem position_le_npos {s : String} {pos : ℕ} (hpos : pos ≤ t.length) (ht : t.length ≤ npos) :
    position t s pos ≤ npos := by
  by_cases hnone : position t s pos = npos
  · exact hnone.le
  · have hle := (position_le hpos hnone).2
    omega

theorem run_strrep (h : f.view = some t) (s r : String) : (Command.strrep s r).run f =
    some (if position t s 0 = npos then (none, [])
      else (some ⟨position t s 0, (ascii s).length, r⟩, [.strrep s r])) := by
  rw [Command.run, find_of_view h, Option.bind_eq_bind, Option.bind_some]
  split_ifs <;> rfl

theorem run_ifFound (h : f.view = some t) (s : String) (ps : List (String × String)) :
    (Command.ifFound s ps).run f =
      some (none, if position t s 0 = npos then [] else strreps ps) := by
  rw [Command.run, find_of_view h]
  rfl

theorem run_makeShared (h : f.view = some t) : Command.makeShared.run f =
    some (if position t "std::make_shared<" 0 = npos then none else some (makeSharedCall t),
      []) := by
  rw [Command.run]
  simp only [find_of_view h, Option.bind_eq_bind, Option.bind_some]
  split_ifs <;> rfl

theorem run_vectorAllocator (h : f.view = some t) : Command.vectorAllocator.run f =
    some (if position t "std::vector<" 0 = npos then none else some (f.vectorCall t), []) := by
  rw [Command.run]
  simp only [find_of_view h, Option.bind_eq_bind, Option.bind_some,
    findMatchingChecked_eq (N_le_of_view h)]
  split_ifs <;> rfl

/-! ## Steps of a command -/

theorem step_cons {c : Command} {call : Option Call} {cs : List Command}
    (hrun : c.run f = some (call, cs)) :
    step ⟨f, c :: todo⟩ = (Call.apply f call).map fun g => ⟨g, cs ++ todo⟩ := by
  unfold step
  simp only [hrun, Option.bind_eq_bind, Option.bind_some]
  cases Call.apply f call <;> rfl

/-- A step that calls `replace`. -/
theorem step_call {c : Command} {pos len : ℕ} {r : String} {cs : List Command}
    (hrun : c.run f = some (some ⟨pos, len, r⟩, cs)) (hN : f.N ≤ f.function.length) :
    step ⟨f, c :: todo⟩ = some ⟨f.replace pos len (ascii r), cs ++ todo⟩ := by
  rw [step_cons hrun, Call.apply, replaceChecked_eq hN]
  rfl

theorem step_none {c : Command} {cs : List Command} (hrun : c.run f = some (none, cs)) :
    step ⟨f, c :: todo⟩ = some ⟨f, cs ++ todo⟩ := by
  rw [step_cons hrun]
  rfl

theorem Holds.N_le (h : f.Holds t L) : f.N ≤ f.function.length := by
  have hle := h.le
  rw [h.N_eq, h.length_eq]
  omega

theorem findMatchingLoop_bounds (count : ℤ) (pos2 : ℕ) (str : Bytes) :
    pos2 ≤ findMatchingLoop count pos2 str ∧
      findMatchingLoop count pos2 str ≤ pos2 + str.length := by
  induction str generalizing count pos2 with
  | nil => exact ⟨le_rfl, le_rfl⟩
  | cons c str ih =>
    by_cases hcount : count = 0
    · rw [findMatchingLoop, if_pos hcount]
      exact ⟨le_rfl, Nat.le_add_right _ _⟩
    · obtain ⟨n, hn⟩ : ∃ n, findMatchingLoop count pos2 (c :: str) =
          findMatchingLoop n (pos2 + 1) str := ⟨_, by rw [findMatchingLoop, if_neg hcount]⟩
      obtain ⟨hle, hge⟩ := ih n (pos2 + 1)
      rw [hn, List.length_cons]
      omega

/-- The matching bracket of a position in the name is behind it, and in the name. -/
theorem findMatching_bounds (h : f.view = some t) {pos : ℕ} (hpos : pos < t.length) :
    pos < f.findMatching pos ∧ f.findMatching pos ≤ t.length := by
  obtain ⟨b, rfl⟩ := view_eq_some_iff.mp h
  have hbounds := findMatchingLoop_bounds 1 (pos + 1) (t.drop (pos + 1))
  have htake : (named t b).function.take (named t b).N = t := List.take_left
  unfold findMatching
  rw [htake]
  rw [List.length_drop] at hbounds
  omega

/-! ## The loops of `strrep` -/

theorem strrep_reaches {s r : String} (h : f.Holds t L) (hL : L < npos) (hr : 0 ∉ ascii r)
    (hrun : FunctionName.strrep fuel (ascii s) (ascii r) f = some g) :
    (∃ u, g.Holds u L) ∧ ∀ todo, Reaches ⟨f, .strrep s r :: todo⟩ ⟨g, todo⟩ := by
  induction fuel generalizing f t with
  | zero => cases hrun
  | succ fuel ih =>
    cases hfind : StackTrace.find (ascii s) t with
    | none =>
      rw [strrep_of_find_none fuel _ h.view hfind] at hrun
      obtain rfl := Option.some.inj hrun
      have hcommand := run_strrep h.view s r
      rw [position_zero, hfind, Option.getD_none, if_pos rfl] at hcommand
      exact ⟨⟨t, h⟩, fun todo => .single (step_none hcommand)⟩
    | some pos =>
      have hle := find_le hfind
      have hpos : pos ≠ npos := by
        have := h.le
        omega
      have hcommand := run_strrep h.view s r
      rw [position_zero, hfind, Option.getD_some, if_neg hpos] at hcommand
      rw [strrep_of_find fuel _ h.view hfind] at hrun
      obtain ⟨t', -, ht'⟩ := h.exists_replace hL hle hr
      obtain ⟨hg, hreaches⟩ := ih ht' hrun
      exact ⟨hg, fun todo => .head (step_call hcommand h.N_le) (hreaches todo)⟩

/-- The texts that are written over a part of the name. -/
def texts : List String :=
  pairs.map Prod.snd ++ ["std::string", "std::wstring", "std::u16string", "std::u32string",
    "std::std::string_view", ">"]

theorem texts_nul : ∀ r ∈ texts, 0 ∉ ascii r := by
  decide +kernel

theorem snd_mem_texts {p : String × String} (hp : p ∈ pairs) : p.2 ∈ texts :=
  List.mem_append_left _ (List.mem_map_of_mem hp)

theorem strrepAll_reaches (ps : List (String × String)) (hps : ∀ p ∈ ps, p ∈ pairs)
    (h : f.Holds t L) (hL : L < npos) :
    ∃ fuel g u, strrepAll fuel ps f = some g ∧ g.Holds u L ∧
      ∀ todo, Reaches ⟨f, strreps ps ++ todo⟩ ⟨g, todo⟩ := by
  induction ps generalizing f t with
  | nil => exact ⟨0, f, t, rfl, h, fun todo => .refl⟩
  | cons p ps ih =>
    have hp := hps p List.mem_cons_self
    obtain ⟨fuel, g, hrun⟩ := strrep_ends hp h.view (h.le.trans hL.le)
    obtain ⟨⟨u, hu⟩, hreaches⟩ := strrep_reaches h hL (texts_nul p.2 (snd_mem_texts hp)) hrun
    obtain ⟨fuel', g', u', hrun', hu', hreaches'⟩ :=
      ih (fun q hq => hps q (List.mem_cons_of_mem p hq)) hu
    refine ⟨fuel + fuel', g', u', ?_, hu', fun todo => ?_⟩
    · unfold strrepAll at hrun' ⊢
      rw [List.foldlM_cons, strrep_mono (Nat.le_add_right fuel fuel') f g hrun]
      exact strrepAll_mono (Nat.le_add_left fuel' fuel) g g' hrun'
    · exact (hreaches _).trans (hreaches' todo)

theorem ifFound_reaches (s : String) (ps : List (String × String)) (hps : ∀ p ∈ ps, p ∈ pairs)
    (h : f.Holds t L) (hL : L < npos) :
    ∃ fuel g u, ifFound s (strrepAll fuel ps) f = some g ∧ g.Holds u L ∧
      ∀ todo, Reaches ⟨f, .ifFound s ps :: todo⟩ ⟨g, todo⟩ := by
  have hcommand := run_ifFound h.view s ps
  have hfind := find_of_view h.view s 0
  by_cases hnone : position t s 0 = npos
  · rw [if_pos hnone] at hcommand
    refine ⟨0, f, t, ?_, h, fun todo => .single (step_none hcommand)⟩
    unfold ifFound
    simp [hfind, hnone]
  · rw [if_neg hnone] at hcommand
    obtain ⟨fuel, g, u, hrun, hu, hreaches⟩ := strrepAll_reaches ps hps h hL
    refine ⟨fuel, g, u, ?_, hu, fun todo => .head (step_none hcommand) (hreaches todo)⟩
    unfold ifFound
    simp [hfind, hnone, hrun]

/-! ## The loops over instances -/

/-- One round: there is no instance left, or the first one is at `p`. -/
theorem Holds.scan_cases (h : f.Holds t L) (hL : L < npos) {s : String}
    (hs : 18 ≤ (ascii s).length) (pos : ℕ) (name : ℕ → Option (Option String))
    (next : ℕ → Command) :
    (strstr t pos (ascii s) = none ∧ f.scan s pos name next = some (none, []) ∧
        ∀ body fuel, instances s body (fuel + 1) pos f = some f) ∨
      ∃ p, strstr t pos (ascii s) = some p ∧ pos ≤ p ∧ p + (ascii s).length ≤ t.length ∧
        f.scan s pos name next = (name (p + 18)).map (fun r =>
          (r.map fun r => ⟨p, f.findMatching (p + 17) - p, r⟩, [next (p + 1)])) ∧
        ∀ body fuel, instances s body (fuel + 1) pos f =
          instances s body fuel (p + 1) (body f p (p + 17) (f.findMatching (p + 17))) := by
  have hN := h.N_eq
  have hle := h.le
  by_cases hpos : pos < f.N
  · have hfind := find_of_view h.view s pos
    unfold position at hfind
    cases hp : strstr t pos (ascii s) with
    | none =>
      rw [hp] at hfind
      refine .inl ⟨rfl, ?_, fun body fuel => ?_⟩
      · unfold scan
        rw [if_pos hpos, hfind]
        rfl
      · rw [instances, if_pos hpos, hfind]
        rfl
    | some p =>
      obtain ⟨hge, hend⟩ := strstr_le (by omega) hp
      obtain ⟨hlt, -⟩ := findMatching_bounds h.view (show p + 17 < t.length by omega)
      have hnpos : p ≠ npos := by omega
      have hne : f.findMatching (p + 17) ≠ p + 17 := by omega
      rw [hp] at hfind
      refine .inr ⟨p, rfl, hge, hend, ?_, fun body fuel => ?_⟩
      · unfold scan
        simp only [if_pos hpos, hfind, Option.getD_some, Option.bind_eq_bind, Option.bind_some,
          if_neg hnpos, findMatchingChecked_eq h.N_le, if_neg hne]
        cases name (p + 18) <;> rfl
      · rw [instances, if_pos hpos, hfind]
        simp only [Option.getD_some, Option.bind_eq_bind, Option.bind_some, if_neg hnpos,
          if_neg hne]
  · have hnone : strstr t pos (ascii s) = none := by
      unfold strstr
      rw [List.drop_eq_nil_of_le (by omega), Option.map_eq_none_iff, find_eq_none_iff,
        List.infix_nil]
      intro hnil
      rw [hnil] at hs
      simp at hs
    refine .inl ⟨hnone, ?_, fun body fuel => ?_⟩
    · unfold scan
      exact if_neg hpos
    · rw [instances]
      exact if_neg hpos

/-- The loop ends, in the state to which its rounds lead. The body is `replace` with the
    name that is found for the instance. -/
theorem instances_reaches {s : String} (hs : 18 ≤ (ascii s).length) (next : ℕ → Command)
    (name : FunctionName → ℕ → Option (Option String))
    {body : FunctionName → (pos pos1 pos2 : ℕ) → FunctionName}
    (hrun : ∀ f pos, (next pos).run f = f.scan s pos (name f) next)
    (hname : ∀ f t p, f.Holds t L → p + 18 ≤ t.length →
      ∃ r, name f (p + 18) = some r ∧ (∀ x ∈ r, 0 ∉ ascii x) ∧
        ∀ pos2, body f p (p + 17) pos2 = r.elim f fun x => f.replace p (pos2 - p) (ascii x))
    (h : f.Holds t L) (hL : L < npos) (pos : ℕ) :
    ∃ fuel g u, instances s body fuel pos f = some g ∧ g.Holds u L ∧
      ∀ todo, Reaches ⟨f, next pos :: todo⟩ ⟨g, todo⟩ := by
  induction hn : t.length - pos using Nat.strong_induction_on generalizing f t pos with
  | _ n ih =>
    rcases h.scan_cases hL hs pos (name f) next with
      ⟨-, hscan, hdone⟩ | ⟨p, -, hge, hend, hscan, hround⟩
    · exact ⟨1, f, t, hdone body 0, h,
        fun todo => .single (step_none ((hrun f pos).trans hscan))⟩
    · have hless : t.length - (p + 1) < n := by omega
      obtain ⟨r, hr, hnul, hbody⟩ := hname f t p h (by omega)
      obtain ⟨hlt, hle⟩ := findMatching_bounds h.view (show p + 17 < t.length by omega)
      rw [hr] at hscan
      cases r with
      | none =>
        obtain ⟨fuel, g, u, hg, hu, hreaches⟩ := ih _ hless h (p + 1) rfl
        refine ⟨fuel + 1, g, u, ?_, hu, fun todo => ?_⟩
        · rw [hround, hbody]
          exact hg
        · exact .head (step_none ((hrun f pos).trans hscan)) (hreaches todo)
      | some x =>
        obtain ⟨t', hlength, ht'⟩ := h.exists_replace hL
          (show p + (f.findMatching (p + 17) - p) ≤ t.length by omega) (hnul x rfl)
        obtain ⟨fuel, g, u, hg, hu, hreaches⟩ := ih _ (by omega) ht' (p + 1) rfl
        refine ⟨fuel + 1, g, u, ?_, hu, fun todo => ?_⟩
        · rw [hround, hbody]
          exact hg
        · exact .head (step_call ((hrun f pos).trans hscan) h.N_le) (hreaches todo)

/-- `stringNameChecked`, where no access is outside. -/
def stringName (f : FunctionName) (pos : ℕ) : Option String :=
  if f.startsWith pos "char" then some "std::string"
  else if f.startsWith pos "wchar_t" then some "std::wstring"
  else if f.startsWith pos "char16_t" then some "std::u16string"
  else if f.startsWith pos "char32_t" then some "std::u32string"
  else none

theorem Holds.stringNameChecked_eq (h : f.Holds t L) {pos : ℕ} (hpos : pos ≤ t.length) :
    f.stringNameChecked pos = some (f.stringName pos) := by
  unfold stringNameChecked stringName
  rw [h.startsWithChecked_eq hpos (s := "char") (by decide),
    h.startsWithChecked_eq hpos (s := "wchar_t") (by decide),
    h.startsWithChecked_eq hpos (s := "char16_t") (by decide),
    h.startsWithChecked_eq hpos (s := "char32_t") (by decide)]
  simp only [Option.bind_eq_bind, Option.bind_some]
  split_ifs <;> rfl

theorem stringName_mem {pos : ℕ} {r : String} (h : f.stringName pos = some r) : r ∈ texts := by
  refine List.mem_append_right _ ?_
  unfold stringName at h
  split_ifs at h <;> obtain rfl := Option.some.inj h <;> simp

theorem basicString_eq (f : FunctionName) (pos pos1 pos2 : ℕ) :
    basicString f pos pos1 pos2 =
      (f.stringName (pos1 + 1)).elim f fun x => f.replace pos (pos2 - pos) (ascii x) := by
  unfold basicString stringName
  split_ifs <;> rfl

theorem basicString_reaches (h : f.Holds t L) (hL : L < npos) :
    ∃ fuel g u, instances "std::basic_string<" FunctionName.basicString fuel 0 f = some g ∧
      g.Holds u L ∧ ∀ todo, Reaches ⟨f, .basicString 0 :: todo⟩ ⟨g, todo⟩ :=
  instances_reaches (by decide) .basicString stringNameChecked (fun _ _ => rfl)
    (fun f _ p h hp => ⟨f.stringName (p + 18), h.stringNameChecked_eq hp,
      fun _ hx => texts_nul _ (stringName_mem hx), basicString_eq f p (p + 17)⟩) h hL 0

theorem basicStringView_reaches (h : f.Holds t L) (hL : L < npos) :
    ∃ fuel g u, instances "std::basic_std::string_view<char" FunctionName.basicStringView fuel 0 f =
        some g ∧ g.Holds u L ∧ ∀ todo, Reaches ⟨f, .basicStringView 0 :: todo⟩ ⟨g, todo⟩ :=
  instances_reaches (by decide) .basicStringView
    (fun _ _ => some (some "std::std::string_view")) (fun _ _ => rfl)
    (fun _ _ _ _ _ => ⟨some "std::std::string_view", rfl, by decide, fun _ => rfl⟩) h hL 0

/-! ## The whole function -/

theorem holds_start {name : Bytes} (hname : 0 ∉ name) :
    (named name [0]).Holds name name.length :=
  ⟨⟨[0], rfl, rfl⟩, by simp [named], hname⟩

theorem listed_strreps {ps : List (String × String)} (hps : ∀ p ∈ ps, p ∈ pairs) :
    ∀ c ∈ strreps ps, c.Listed := by
  intro c hc
  obtain ⟨p, hp, rfl⟩ := List.mem_map.mp hc
  exact hps p hp

theorem listed_program : ∀ c ∈ program, c.Listed := by
  unfold program
  simp only [List.forall_mem_append, List.forall_mem_cons]
  exact ⟨listed_strreps (by decide +kernel), listed_strreps (by decide +kernel),
    show ∀ p ∈ ratios, p ∈ pairs by decide +kernel,
    show ∀ p ∈ durations, p ∈ pairs by decide +kernel,
    show ∀ p ∈ sleepFor, p ∈ pairs by decide +kernel, listed_strreps (by decide +kernel),
    trivial, listed_strreps (by decide +kernel), trivial, trivial, trivial, by simp⟩

/-- The last two statements, behind the others. -/
def cleanupRest (f : FunctionName) : Option FunctionName :=
  (ifFound "std::make_shared<" FunctionName.makeShared f).bind
    (ifFound "std::vector<" FunctionName.vectorAllocator)

/-- All statements but the last two end, and with enough fuel `cleanup` does what they do. -/
theorem reaches_makeShared {name : Bytes} (hname : 0 ∉ name) (hL : name.length < npos) :
    ∃ fuel g u, g.Holds u name.length ∧ Reaches (start name) ⟨g, [.makeShared, .vectorAllocator]⟩ ∧
      ∀ fuel' ≥ fuel, cleanup fuel' (named name [0]) = cleanupRest g := by
  obtain ⟨n₁, g₁, t₁, h₁, hg₁, hr₁⟩ := strrepAll_reaches templateSpace
    (by decide +kernel) (holds_start hname) hL
  obtain ⟨n₂, g₂, t₂, h₂, hg₂, hr₂⟩ := strrepAll_reaches [("std::__1::", "std::")]
    (by decide +kernel) hg₁ hL
  obtain ⟨n₃, g₃, t₃, h₃, hg₃, hr₃⟩ := ifFound_reaches "std::ratio<" ratios
    (by decide +kernel) hg₂ hL
  obtain ⟨n₄, g₄, t₄, h₄, hg₄, hr₄⟩ := ifFound_reaches "std::chrono::duration<" durations
    (by decide +kernel) hg₃ hL
  obtain ⟨n₅, g₅, t₅, h₅, hg₅, hr₅⟩ := ifFound_reaches "::sleep_for<" sleepFor
    (by decide +kernel) hg₄ hL
  obtain ⟨n₆, g₆, t₆, h₆, hg₆, hr₆⟩ := strrepAll_reaches
    [("[abi:cxx11]", ""), ("std::__cxx11::basic_string<", "std::basic_string<")]
    (by decide +kernel) hg₅ hL
  obtain ⟨n₇, g₇, t₇, h₇, hg₇, hr₇⟩ := basicString_reaches hg₆ hL
  obtain ⟨n₈, g₈, t₈, h₈, hg₈, hr₈⟩ := strrepAll_reaches
    [("std::__cxx11::basic_std::string_view<", "std::basic_std::string_view<")]
    (by decide +kernel) hg₇ hL
  obtain ⟨n₉, g₉, t₉, h₉, hg₉, hr₉⟩ := basicStringView_reaches hg₈ hL
  refine ⟨n₁ + n₂ + n₃ + n₄ + n₅ + n₆ + n₇ + n₈ + n₉, g₉, t₉, hg₉, ?_, fun fuel hfuel => ?_⟩
  · exact (hr₁ _).trans <| (hr₂ _).trans <| (hr₃ _).trans <| (hr₄ _).trans <| (hr₅ _).trans <|
      (hr₆ _).trans <| (hr₇ _).trans <| (hr₈ _).trans (hr₉ _)
  · unfold cleanup cleanupRest
    rw [strrepAll_mono (show n₁ ≤ fuel by omega) _ _ h₁, Option.bind_eq_bind, Option.bind_some,
      strrepAll_mono (show n₂ ≤ fuel by omega) _ _ h₂, Option.bind_some,
      ifFound_mono (strrepAll_mono (show n₃ ≤ fuel by omega)) _ _ h₃, Option.bind_some,
      ifFound_mono (strrepAll_mono (show n₄ ≤ fuel by omega)) _ _ h₄, Option.bind_some,
      ifFound_mono (strrepAll_mono (show n₅ ≤ fuel by omega)) _ _ h₅, Option.bind_some,
      strrepAll_mono (show n₆ ≤ fuel by omega) _ _ h₆, Option.bind_some,
      instances_mono (show n₇ ≤ fuel by omega) _ _ _ h₇, Option.bind_some,
      strrepAll_mono (show n₈ ≤ fuel by omega) _ _ h₈, Option.bind_some,
      instances_mono (show n₉ ≤ fuel by omega) _ _ _ h₉, Option.bind_some]

/-! ## The last two commands -/

/-- A statement that calls `replace` once when its pattern is found. -/
theorem step_eq_ifFound {c : Command} {s : String} {body : FunctionName → Option FunctionName}
    {call : Bytes → Call}
    (hrun : ∀ t, f.view = some t →
      c.run f = some (if position t s 0 = npos then none else some (call t), []))
    (hbody : ∀ t, f.view = some t → position t s 0 ≠ npos →
      body f = some (f.replace (call t).pos (call t).len (ascii (call t).r)))
    (hnone : f.view = none → c.run f = none) :
    step ⟨f, c :: todo⟩ = (ifFound s body f).map fun g => ⟨g, todo⟩ := by
  unfold ifFound
  cases hview : f.view with
  | none =>
    rw [find_of_view_none hview]
    unfold step
    simp [hnone hview]
  | some t =>
    have hcommand := hrun t hview
    rw [find_of_view hview, Option.bind_eq_bind, Option.bind_some]
    split_ifs at hcommand ⊢ with hpos
    · rw [step_none hcommand]
      rfl
    · rw [step_call hcommand (N_le_of_view hview), hbody t hview hpos]
      rfl

theorem step_makeShared : step ⟨f, .makeShared :: todo⟩ =
    (ifFound "std::make_shared<" FunctionName.makeShared f).map fun g => ⟨g, todo⟩ := by
  refine step_eq_ifFound (fun t => run_makeShared) (fun t hview _ => ?_) fun hview => ?_
  · unfold FunctionName.makeShared
    simp only [find_of_view hview, Option.bind_eq_bind, Option.bind_some]
    rfl
  · rw [Command.run, find_of_view_none hview]
    rfl

theorem step_vectorAllocator : step ⟨f, .vectorAllocator :: todo⟩ =
    (ifFound "std::vector<" FunctionName.vectorAllocator f).map fun g => ⟨g, todo⟩ := by
  refine step_eq_ifFound (fun t => run_vectorAllocator) (fun t hview _ => ?_) fun hview => ?_
  · unfold FunctionName.vectorAllocator
    simp only [find_of_view hview, Option.bind_eq_bind, Option.bind_some]
    rfl
  · rw [Command.run, find_of_view_none hview]
    rfl

/-! ## One step -/

/-- A command of a name with its NUL can be run. -/
theorem exists_run {c : Command} (h : f.Holds t L) (hL : L < npos) (hc : c.Listed) :
    ∃ call cs, c.run f = some (call, cs) ∧ (∀ x ∈ call, x.r ∈ texts) ∧ ∀ d ∈ cs, d.Listed := by
  have hlast : ">" ∈ texts := List.mem_append_right _ (by simp)
  cases c with
  | strrep s r =>
    have hrun := run_strrep h.view s r
    split_ifs at hrun
    · exact ⟨_, _, hrun, by simp, by simp⟩
    · refine ⟨_, _, hrun, ?_, List.forall_mem_singleton.mpr hc⟩
      rintro x hx
      obtain rfl := Option.some.inj hx
      exact snd_mem_texts hc
  | ifFound s ps =>
    refine ⟨_, _, run_ifFound h.view s ps, by simp, ?_⟩
    split_ifs
    · simp
    · exact listed_strreps hc
  | basicString pos =>
    rcases h.scan_cases hL (s := "std::basic_string<") (by decide) pos f.stringNameChecked
      .basicString with ⟨-, hscan, -⟩ | ⟨p, -, -, hend, hscan, -⟩
    · exact ⟨_, _, hscan, by simp, by simp⟩
    · have hlength : (ascii "std::basic_string<").length = 18 := by decide
      rw [h.stringNameChecked_eq (by omega)] at hscan
      refine ⟨_, _, hscan, ?_, List.forall_mem_singleton.mpr trivial⟩
      rintro x hx
      obtain ⟨r, hr, rfl⟩ := Option.map_eq_some_iff.mp hx
      exact stringName_mem hr
  | basicStringView pos =>
    rcases h.scan_cases hL (s := "std::basic_std::string_view<char") (by decide) pos
      (fun _ => some (some "std::std::string_view")) .basicStringView with
      ⟨-, hscan, -⟩ | ⟨p, -, -, -, hscan, -⟩
    · exact ⟨_, _, hscan, by simp, by simp⟩
    · refine ⟨_, _, hscan, ?_, List.forall_mem_singleton.mpr trivial⟩
      rintro x hx
      obtain rfl := Option.some.inj hx
      exact List.mem_append_right _ (by simp)
  | makeShared =>
    refine ⟨_, _, run_makeShared h.view, ?_, by simp⟩
    split_ifs
    · simp
    · rintro x hx
      obtain rfl := Option.some.inj hx
      exact hlast
  | vectorAllocator =>
    refine ⟨_, _, run_vectorAllocator h.view, ?_, by simp⟩
    split_ifs
    · simp
    · rintro x hx
      obtain rfl := Option.some.inj hx
      exact hlast

theorem call_eq {c : Command} {call : Option Call} {cs : List Command}
    (h : c.run f = some (call, cs)) : State.call ⟨f, c :: todo⟩ = call := by
  show (c.run f).bind Prod.fst = call
  rw [h]
  rfl

/-- The step makes its call, with one of the texts. -/
theorem exists_step {c : Command} (h : f.Holds t L) (hL : L < npos) (hc : c.Listed) :
    ∃ call cs, State.call ⟨f, c :: todo⟩ = call ∧ (∀ x ∈ call, x.r ∈ texts) ∧
      (∀ d ∈ cs, d.Listed) ∧ step ⟨f, c :: todo⟩ =
        some ⟨call.elim f fun x => f.replace x.pos x.len (ascii x.r), cs ++ todo⟩ := by
  obtain ⟨call, cs, hrun, htexts, hcs⟩ := exists_run h hL hc
  refine ⟨call, cs, call_eq hrun, htexts, hcs, ?_⟩
  cases call with
  | none => exact step_none hrun
  | some x => exact step_call hrun h.N_le

theorem exists_command {st st' : State} (h : step st = some st') :
    ∃ f c todo, st = ⟨f, c :: todo⟩ := by
  obtain ⟨f, todo⟩ := st
  cases todo with
  | nil => cases h
  | cons c todo => exact ⟨f, c, todo, rfl⟩

/-- The buffer holds a name with its NUL, and the commands that are left are listed. -/
structure Inv (L : ℕ) (st : State) : Prop where
  holds : ∃ t, st.f.Holds t L
  listed : ∀ c ∈ st.todo, c.Listed

theorem inv_start {name : Bytes} (hname : 0 ∉ name) : Inv name.length (start name) :=
  ⟨⟨name, holds_start hname⟩, listed_program⟩

/-! ## The result -/

theorem reaches_nil_iff {g : FunctionName} {st : State} : Reaches ⟨g, []⟩ st ↔ st = ⟨g, []⟩ := by
  constructor
  · intro h
    rcases h.cases_head with h | ⟨st', hstep, -⟩
    · exact h.symm
    · cases hstep
  · rintro rfl
    exact .refl

/-- A last command and the result. -/
theorem reaches_of_ifFound {c : Command} {s : String} {body : FunctionName → Option FunctionName}
    (hstep : step ⟨f, c :: todo⟩ = (ifFound s body f).map fun g => ⟨g, todo⟩) {g : FunctionName} :
    Reaches ⟨f, c :: todo⟩ ⟨g, []⟩ ↔
      ∃ f', ifFound s body f = some f' ∧ Reaches ⟨f', todo⟩ ⟨g, []⟩ := by
  constructor
  · intro h
    rcases h.cases_head with h | ⟨st', hst', hrest⟩
    · cases h
    · rw [hstep] at hst'
      obtain ⟨f', hf', rfl⟩ := Option.map_eq_some_iff.mp hst'
      exact ⟨f', hf', hrest⟩
  · rintro ⟨f', hf', hrest⟩
    exact .head (by rw [hstep, hf']; rfl) hrest

/-- `cleanup` has a result where the steps have an end, and it is the name there. -/
theorem cleanup_iff_reaches {name : Bytes} (hname : 0 ∉ name) (hL : name.length < npos)
    {g : FunctionName} :
    (∃ fuel, cleanup fuel (named name [0]) = some g) ↔ Reaches (start name) ⟨g, []⟩ := by
  obtain ⟨fuel, f, u, -, hreaches, hrest⟩ := reaches_makeShared hname hL
  have hleft : (∃ fuel, cleanup fuel (named name [0]) = some g) ↔ cleanupRest f = some g := by
    constructor
    · rintro ⟨fuel', h⟩
      have hmono := cleanup_mono (Nat.le_max_left fuel' fuel) _ _ h
      rwa [hrest _ (Nat.le_max_right fuel' fuel)] at hmono
    · exact fun h => ⟨fuel, (hrest fuel le_rfl).trans h⟩
  have hright : Reaches (start name) ⟨g, []⟩ ↔
      Reaches ⟨f, [.makeShared, .vectorAllocator]⟩ ⟨g, []⟩ := by
    refine ⟨fun h => ?_, hreaches.trans⟩
    have hunique : Relator.RightUnique fun st st' => step st = some st' :=
      fun _ _ _ h h' => Option.some.inj (h.symm.trans h')
    rcases Relation.ReflTransGen.total_of_right_unique hunique hreaches h with h | h
    · exact h
    · cases reaches_nil_iff.mp h
  rw [hleft, hright, reaches_of_ifFound step_makeShared]
  unfold cleanupRest
  rw [Option.bind_eq_some_iff]
  refine exists_congr fun f' => and_congr_right fun _ => ?_
  rw [reaches_of_ifFound step_vectorAllocator]
  constructor
  · exact fun h => ⟨g, h, .refl⟩
  · rintro ⟨f'', h, hrefl⟩
    cases reaches_nil_iff.mp hrefl
    exact h

end FunctionName

end StackTrace
