import CaseFolding.Codepoint

namespace CaseFolding

/-! # Faults

A fault is a request that the caller had no right to make. It is kept apart
from an answer: no result stands in for it.
-/

/-- What a caller may get wrong. -/
inductive Fault where
  /-- A span whose bounds are out of order was asked of a table with entries. -/
  | invertedSpan
  /-- An interval was to be made of no values. -/
  | noValues (first : Codepoint)
  /-- A value list is too short for the codepoint looked up in it. -/
  | outOfBounds (length index : Nat)
  /-- A sum is too large for the bits that it is kept in. -/
  | sumTooLarge
  /-- More is to be taken from a count than there is. -/
  | countTooSmall
deriving DecidableEq

/-- The wording of a fault. -/
def Fault.message : Fault → String
  | .invertedSpan => "range start is greater than range end"
  | .noValues first => "interval at U+" ++ first.hex ++ " has no values"
  | .outOfBounds length index =>
    s!"index out of bounds: the len is {length} but the index is {index}"
  | .sumTooLarge => "attempt to add with overflow"
  | .countTooSmall => "attempt to subtract with overflow"

end CaseFolding
