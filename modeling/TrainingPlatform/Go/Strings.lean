import Mathlib.Data.List.Infix
import Mathlib.Data.List.TakeDrop

/-!
# Go strings

A Go string is a sequence of bytes that need not be UTF-8, so it is a list of
bytes here.  The functions below are the ones of package `strings` the programs
use, under their Go names.
-/

namespace Go

/-- A Go `string` (or `[]byte`). -/
abbrev GoString := List UInt8

/-- The bytes of a string literal of the source, which is UTF-8. -/
def utf8 (s : String) : GoString := s.toUTF8.data.toList

/-- The bytes one character after the other, which is faster to evaluate. -/
theorem utf8_ofList (cs : List Char) :
    utf8 (String.ofList cs) = cs.flatMap String.utf8EncodeChar := by
  simp [utf8, List.utf8Encode]

/-- `strconv.Itoa`. -/
def itoa (n : Int) : GoString := utf8 (toString n)

/-- `strings.HasPrefix`. -/
def hasPrefix (s pre : GoString) : Bool := pre.isPrefixOf s

/-- `strings.Contains`. -/
def contains (s sub : GoString) : Bool := decide (sub <:+: s)

end Go
