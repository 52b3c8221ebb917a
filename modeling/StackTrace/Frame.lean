import StackTrace.Base.CText

/-!
# `stack_info`: one frame of a call stack

`StackTrace.h`, lines 16–50, and `StackTrace.cpp`, lines 310–391. The five
strings are `std::array<char, n>` of fixed size. `operator==` compares the
address, or else the offset `address2` inside the object together with the
object name; it looks at no other field.
-/

namespace StackTrace

/-- `std::array<char, n>`. -/
structure CharArray (n : ℕ) where
  toList : List UInt8
  length_toList : toList.length = n
deriving DecidableEq

namespace CharArray

/-- `fill( 0 )`. -/
def zero (n : ℕ) : CharArray n := ⟨List.replicate n 0, List.length_replicate⟩

/-- The array that holds the text `s` and then NULs, cut after `n` bytes. -/
def ofText (n : ℕ) (s : Bytes) : CharArray n :=
  ⟨(s ++ List.replicate n 0).take n, by simp⟩

/-- `std::string_view( a.data() )`. -/
def str {n : ℕ} (a : CharArray n) : Bytes := cstr a.toList

end CharArray

/-- `struct stack_info`. `pad` is the four bytes of alignment between `line` and
    `address`, which only `pack` and `unpack` touch. -/
structure StackInfo where
  line : UInt32
  pad : CharArray 4
  address : UInt64
  address2 : UInt64
  object : CharArray 56
  objectPath : CharArray 48
  filename : CharArray 64
  filenamePath : CharArray 64
  function : CharArray 256
deriving DecidableEq

namespace StackInfo

/-- `stack_info::clear` (lines 315–325). -/
def clear (s : StackInfo) : StackInfo :=
  { line := 0, pad := s.pad, address := 0, address2 := 0, object := .zero 56,
    objectPath := .zero 48, filename := .zero 64, filenamePath := .zero 64,
    function := .zero 256 }

/-- `stack_info::stack_info`. The padding of a new object is whatever its
    storage held; here it is zero. -/
def init : StackInfo :=
  { line := 0, pad := .zero 4, address := 0, address2 := 0, object := .zero 56,
    objectPath := .zero 48, filename := .zero 64, filenamePath := .zero 64,
    function := .zero 256 }

/-- A frame with these fields and nothing else. -/
def ofFields (address address2 : UInt64) (object function filename : Bytes) : StackInfo :=
  { init with
    address := address, address2 := address2, object := .ofText 56 object,
    function := .ofText 256 function, filename := .ofText 64 filename }

/-- `stack_info::operator==` (lines 326–333). -/
def opEq (lhs rhs : StackInfo) : Bool :=
  if lhs.address = rhs.address then true
  else if lhs.address2 = rhs.address2 ∧ lhs.object = rhs.object then true
  else false

/-- What the second clause of `operator==` compares. -/
def key (s : StackInfo) : UInt64 × CharArray 56 := (s.address2, s.object)

theorem opEq_iff {a b : StackInfo} : a.opEq b = true ↔ a.address = b.address ∨ a.key = b.key := by
  simp [opEq, key, or_iff_not_imp_left]

theorem opEq_refl (a : StackInfo) : a.opEq a = true := opEq_iff.mpr (.inl rfl)

theorem opEq_comm (a b : StackInfo) : a.opEq b = b.opEq a := by
  rw [Bool.eq_iff_iff, opEq_iff, opEq_iff, eq_comm, @eq_comm _ a.key]

theorem opEq_of_key {a b : StackInfo} (h : a.key = b.key) : a.opEq b = true :=
  opEq_iff.mpr (.inr h)

/-- `operator==` is an equivalence relation on the frames of `F`. It is always
    reflexive and symmetric, so only transitivity is asked for. -/
def EquivOn (F : Set StackInfo) : Prop :=
  ∀ a ∈ F, ∀ b ∈ F, ∀ c ∈ F, a.opEq b = true → b.opEq c = true → a.opEq c = true

/-- Frames that are `operator==` match the same frames. -/
theorem EquivOn.opEq_congr {F : Set StackInfo} (h : EquivOn F) {a b : StackInfo} (ha : a ∈ F)
    (hb : b ∈ F) (hab : a.opEq b = true) {c : StackInfo} (hc : c ∈ F) : c.opEq a = c.opEq b := by
  rw [Bool.eq_iff_iff]
  constructor
  · intro hca
    exact h _ hc _ ha _ hb hca hab
  · intro hcb
    exact h _ hc _ hb _ ha hcb (opEq_comm a b ▸ hab)

/-- Inside one process the address determines `address2` and the object. -/
def OneProcess (F : Set StackInfo) : Prop :=
  ∀ a ∈ F, ∀ b ∈ F, a.address = b.address → a.address2 = b.address2 ∧ a.object = b.object

theorem EquivOn.mono {F G : Set StackInfo} (h : EquivOn G) (hFG : F ⊆ G) : EquivOn F :=
  fun a ha b hb c hc => h a (hFG ha) b (hFG hb) c (hFG hc)

theorem OneProcess.of_forall_eq {F : Set StackInfo} {f : StackInfo} (h : ∀ g ∈ F, g = f) :
    OneProcess F := by
  intro a ha b hb _
  rw [h a ha, h b hb]
  exact ⟨rfl, rfl⟩

/-- Inside one process `operator==` compares `key`. -/
theorem OneProcess.opEq_iff {F : Set StackInfo} (h : OneProcess F) {a b : StackInfo} (ha : a ∈ F)
    (hb : b ∈ F) : a.opEq b = true ↔ a.key = b.key := by
  rw [StackInfo.opEq_iff, or_iff_right_of_imp]
  intro hab
  obtain ⟨h1, h2⟩ := h a ha b hb hab
  exact Prod.ext h1 h2

theorem OneProcess.equivOn {F : Set StackInfo} (h : OneProcess F) : EquivOn F := by
  intro a ha b hb c hc hab hbc
  rw [h.opEq_iff ha hb] at hab
  rw [h.opEq_iff hb hc] at hbc
  rw [h.opEq_iff ha hc, hab, hbc]

end StackInfo

end StackTrace
