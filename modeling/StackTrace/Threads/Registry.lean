import StackTrace.Base.Machine
import StackTrace.StaticVector

/-!
# The registry of threads

`StackTraceThreads.cpp`, lines 218–258. `globalRegisteredThreads` holds the
handles of the registered threads. A handle is entered once; it is taken out by
swapping it with the last one. `globalThreadMutex` makes each call one step, and
a thread that ends takes out its own handle.

* `registry_spec`: no handle stands twice in the registry, and while at most 1024
  should be registered it holds exactly these.
-/

namespace StackTrace

/-- `globalRegisteredThreads`. -/
abbrev Registry (α : Type*) : Type _ := StaticVector α 1024

namespace Registry

variable {α : Type*} [DecidableEq α] [Inhabited α]

/-- `registerThread( id )` (lines 236–243). -/
def registerThread (r : Registry α) (id : α) : Registry α :=
  if r.find id = r.d_size then r.push_back id else r

/-- `unregisterThread( id )` (lines 244–253); `none` is an exception of `resize`. -/
def unregisterThread (r : Registry α) (id : α) : Option (Registry α) :=
  if h : r.find id ≠ r.d_size then
    (r.swapBack (r.find id) (lt_of_le_of_ne (r.find_le id) h)).resize (r.d_size - 1) default
  else some r

/-- `registeredThreads()` (lines 254–258). -/
def registeredThreads (r : Registry α) : List α := r.toList

/-- What happens to the registry. -/
inductive Op (α : Type*) where
  | registerThread (id : α)
  | unregisterThread (id : α)
  /-- `~ThreadExiter()` of the thread `id` (lines 222–229) -/
  | exit (id : α)
deriving DecidableEq

/-- One call, under `globalThreadMutex`. -/
def step (r : Registry α) : Op α → Option (Registry α)
  | .registerThread id => some (registerThread r id)
  | .unregisterThread id => unregisterThread r id
  | .exit id => unregisterThread r id

/-! ## What the registry should hold -/

/-- `id` was registered, and neither unregistered nor ended since. -/
def RegisteredSince (ops : List (Op α)) (id : α) : Prop :=
  ∃ before after, ops = before ++ .registerThread id :: after ∧ .unregisterThread id ∉ after ∧
    .exit id ∉ after

/-- The handles after one more call. -/
def expectStep (S : Finset α) : Op α → Finset α
  | .registerThread id => insert id S
  | .unregisterThread id => S.erase id
  | .exit id => S.erase id

/-- The handles that should be registered. -/
def expected (ops : List (Op α)) : Finset α := ops.foldl expectStep ∅

omit [Inhabited α] in
theorem expected_concat (ops : List (Op α)) (op : Op α) :
    expected (ops ++ [op]) = expectStep (expected ops) op := by
  simp [expected]

omit [DecidableEq α] [Inhabited α] in
theorem registeredSince_concat {ops : List (Op α)} {op : Op α} {id : α} :
    RegisteredSince (ops ++ [op]) id ↔
      op = .registerThread id ∨
        RegisteredSince ops id ∧ op ≠ .unregisterThread id ∧ op ≠ .exit id := by
  constructor
  · rintro ⟨before, after, heq, hun, hexit⟩
    rcases List.eq_nil_or_concat after with rfl | ⟨after, op', rfl⟩
    · obtain ⟨-, hop⟩ := List.append_inj' heq rfl
      exact .inl (List.cons.inj hop).1
    · rw [List.concat_eq_append, ← List.cons_append, ← List.append_assoc] at heq
      obtain ⟨rfl, hop⟩ := List.append_inj' heq rfl
      obtain rfl := (List.cons.inj hop).1
      simp only [List.concat_eq_append, List.mem_append, List.mem_singleton, not_or] at hun hexit
      exact .inr ⟨⟨before, after, rfl, hun.1, hexit.1⟩, fun h => hun.2 h.symm,
        fun h => hexit.2 h.symm⟩
  · rintro (rfl | ⟨⟨before, after, rfl, hun, hexit⟩, hop, hop'⟩)
    · exact ⟨ops, [], rfl, by simp, by simp⟩
    · refine ⟨before, after ++ [op], by simp, ?_, ?_⟩
      · simp [hun, Ne.symm hop]
      · simp [hexit, Ne.symm hop']

omit [Inhabited α] in
theorem mem_expected {ops : List (Op α)} {id : α} :
    id ∈ expected ops ↔ RegisteredSince ops id := by
  induction ops using List.reverseRecOn with
  | nil => simp [expected, RegisteredSince]
  | append_singleton ops op ih =>
    rw [expected_concat, registeredSince_concat, ← ih]
    cases op with
    | registerThread x =>
      rw [expectStep, Finset.mem_insert]
      simp [eq_comm]
    | unregisterThread x =>
      rw [expectStep, Finset.mem_erase]
      simp [and_comm, eq_comm]
    | exit x =>
      rw [expectStep, Finset.mem_erase]
      simp [and_comm, eq_comm]

/-! ## One call -/

omit [Inhabited α] in
theorem nodup_registerThread {r : Registry α} (h : r.toList.Nodup) (id : α) :
    (registerThread r id).toList.Nodup := by
  unfold registerThread
  split_ifs with hfind
  · have hnew : id ∉ r.toList := StaticVector.find_eq_size_iff.mp hfind
    rw [StaticVector.toList_push_back]
    split_ifs
    · have hne : ∀ a ∈ r.toList, a ≠ id := fun a ha heq => hnew (heq ▸ ha)
      exact List.nodup_append.mpr ⟨h, by simp, by simpa using hne⟩
    · exact h
  · exact h

omit [Inhabited α] in
/-- Where there is room, `registerThread` adds the handle. -/
theorem mem_registerThread {r : Registry α} {id : α} (hroom : id ∉ r.toList → r.d_size < 1024)
    (x : α) : x ∈ (registerThread r id).toList ↔ x = id ∨ x ∈ r.toList := by
  unfold registerThread
  split_ifs with hfind
  · have hnew : id ∉ r.toList := StaticVector.find_eq_size_iff.mp hfind
    rw [StaticVector.toList_push_back, if_pos (hroom hnew)]
    simp [or_comm]
  · have hold : id ∈ r.toList := by
      by_contra hnew
      exact hfind (StaticVector.find_eq_size_iff.mpr hnew)
    constructor
    · exact .inr
    · rintro (rfl | hx)
      · exact hold
      · exact hx

/-- `unregisterThread` takes out the handle and nothing else. -/
theorem unregisterThread_spec {r : Registry α} (h : r.toList.Nodup) (id : α) :
    ∃ r', unregisterThread r id = some r' ∧ r'.toList.Nodup ∧
      ∀ x, x ∈ r'.toList ↔ x ≠ id ∧ x ∈ r.toList := by
  unfold unregisterThread
  split_ifs with hfind
  · have hlt : r.find id < r.d_size := lt_of_le_of_ne (r.find_le id) hfind
    have hlt' : r.find id < r.toList.length := by rwa [StaticVector.length_toList]
    obtain ⟨r', hr', hperm⟩ := StaticVector.resize_swapBack hlt hlt' (default : α)
    have hid : r.toList[r.find id] = id := List.getElem_idxOf _
    rw [hid] at hperm
    have hnodup : (id :: r'.toList).Nodup := hperm.nodup_iff.mpr h
    refine ⟨r', hr', (List.nodup_cons.mp hnodup).2, fun x => ?_⟩
    rw [← hperm.mem_iff, List.mem_cons]
    have hnot := (List.nodup_cons.mp hnodup).1
    constructor
    · intro hx
      exact ⟨by rintro rfl; exact hnot hx, .inr hx⟩
    · rintro ⟨hne, rfl | hx⟩
      · exact absurd rfl hne
      · exact hx
  · refine ⟨r, rfl, h, fun x => ?_⟩
    have hid : id ∉ r.toList := StaticVector.find_eq_size_iff.mp (not_not.mp hfind)
    constructor
    · intro hx
      exact ⟨by rintro rfl; exact hid hx, hx⟩
    · exact fun hx => hx.2

/-! ## Every sequence of calls -/

/-- At no time should more than 1024 handles be registered. -/
def Fits (ops : List (Op α)) : Prop := ∀ p, p <+: ops → (expected p).card ≤ 1024

omit [Inhabited α] in
theorem Fits.of_concat {ops : List (Op α)} {op : Op α} (h : Fits (ops ++ [op])) : Fits ops :=
  fun p hp => h p (hp.trans (List.prefix_append ops [op]))

/-- The registry after `ops` is a set, and the expected one where this fits. -/
structure Holds (ops : List (Op α)) (r : Registry α) : Prop where
  nodup : r.toList.Nodup
  mem_iff : Fits ops → ∀ id, id ∈ r.toList ↔ id ∈ expected ops

theorem holds_init : Holds [] (StaticVector.init : Registry α) where
  nodup := by simp
  mem_iff := by simp [expected]

omit [Inhabited α] in
/-- The registry has as many handles as it should. -/
theorem Holds.size_eq {ops : List (Op α)} {r : Registry α} (h : Holds ops r) (hfits : Fits ops) :
    r.d_size = (expected ops).card := by
  have heq : r.toList.toFinset = expected ops := by
    ext id
    rw [List.mem_toFinset, h.mem_iff hfits]
  rw [← heq, List.toFinset_card_of_nodup h.nodup, StaticVector.length_toList]

/-- Every call keeps `Holds` and throws nothing. -/
theorem Holds.step {ops : List (Op α)} {r : Registry α} (h : Holds ops r) (op : Op α) :
    ∃ r', step r op = some r' ∧ Holds (ops ++ [op]) r' := by
  have remove : ∀ id, expectStep (expected ops) op = (expected ops).erase id →
      ∃ r', unregisterThread r id = some r' ∧ Holds (ops ++ [op]) r' := by
    intro id hop
    obtain ⟨r', hr', hnodup, hmem⟩ := unregisterThread_spec h.nodup id
    refine ⟨r', hr', hnodup, fun hfits x => ?_⟩
    rw [hmem, expected_concat, hop, Finset.mem_erase, h.mem_iff hfits.of_concat]
  cases op with
  | registerThread id =>
    refine ⟨_, rfl, nodup_registerThread h.nodup id, fun hfits x => ?_⟩
    have hold := h.mem_iff hfits.of_concat
    have hnext : expected (ops ++ [.registerThread id]) = insert id (expected ops) :=
      expected_concat _ _
    have hroom : id ∉ r.toList → r.d_size < 1024 := by
      intro hnew
      have hcard := hfits _ (List.prefix_refl _)
      rw [hnext, Finset.card_insert_of_notMem (by rwa [← hold])] at hcard
      rw [h.size_eq hfits.of_concat]
      omega
    rw [mem_registerThread hroom, hnext, Finset.mem_insert, hold]
  | unregisterThread id => exact remove id rfl
  | exit id => exact remove id rfl

theorem holds_run (ops : List (Op α)) :
    ∃ r, Machine.run step (StaticVector.init : Registry α) ops = some r ∧ Holds ops r := by
  induction ops using List.reverseRecOn with
  | nil => exact ⟨_, rfl, holds_init⟩
  | append_singleton ops op ih =>
    obtain ⟨r, hrun, hholds⟩ := ih
    obtain ⟨r', hstep, hholds'⟩ := hholds.step op
    exact ⟨r', Machine.run_concat.mpr ⟨r, hrun, hstep⟩, hholds'⟩

/-- The registry is a set of at most 1024 handles. If at no time more than 1024
    should be registered, it holds those that were registered and neither
    unregistered nor ended since. -/
theorem registry_spec (ops : List (Op α)) :
    ∃ r, Machine.run step (StaticVector.init : Registry α) ops = some r ∧
      (registeredThreads r).Nodup ∧ (registeredThreads r).length ≤ 1024 ∧
      ((∀ p, p <+: ops → (expected p).card ≤ 1024) →
        ∀ id, id ∈ registeredThreads r ↔ RegisteredSince ops id) := by
  obtain ⟨r, hrun, hholds⟩ := holds_run ops
  refine ⟨r, hrun, hholds.nodup, ?_, fun hfits id => ?_⟩
  · rw [registeredThreads, StaticVector.length_toList]
    exact r.size_le
  · rw [← mem_expected]
    exact hholds.mem_iff hfits id

/-- Two threads register, one of them twice; the other ends. -/
theorem registry_spec_exit :
    ∃ r, Machine.run step (StaticVector.init : Registry ℕ)
        [.registerThread 1, .registerThread 2, .registerThread 1, .exit 2] = some r ∧
      (registeredThreads r).Nodup ∧ 1 ∈ registeredThreads r ∧ 2 ∉ registeredThreads r := by
  obtain ⟨r, hrun, hnodup, -, hmem⟩ := registry_spec
    [.registerThread 1, .registerThread 2, .registerThread 1, .exit 2]
  have hspec := hmem (by
    intro p hp
    rw [← List.mem_inits] at hp
    revert p
    decide)
  refine ⟨r, hrun, hnodup, ?_, ?_⟩
  · rw [hspec, ← mem_expected]
    decide
  · rw [hspec, ← mem_expected]
    decide

end Registry

end StackTrace
