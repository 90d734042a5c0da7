import CaseFolding.Text.Hex

namespace CaseFolding

/-! # Codepoints and spans

A codepoint is any 32-bit number: keys and targets are not confined to the
scalar values of Unicode. A span is a closed range of codepoints, and is empty
when its bounds are out of order.
-/

/-- A codepoint. -/
abbrev Codepoint := UInt32

/-- The hexadecimal form of a codepoint. -/
def Codepoint.hex (c : Codepoint) : String :=
  Text.Hex.text c.toNat

/-- The largest codepoint that generated code tells apart: 21 bits. -/
def largestCodepoint : Codepoint := 0x1FFFFF

/-- The codepoints from `first` to `last`, both included. -/
structure Span where
  first : Codepoint
  last : Codepoint
deriving DecidableEq

namespace Span

/-- Every codepoint. -/
def full : Span := ⟨0, 0xFFFFFFFF⟩

/-- The codepoints that generated code tells apart. -/
def folded : Span := ⟨0, largestCodepoint⟩

/-- Whether `c` lies in the span. -/
def contains (s : Span) (c : Codepoint) : Bool :=
  s.first ≤ c && c ≤ s.last

/-- The number of codepoints from `first` to `last`, for bounds in order. -/
def size (s : Span) : Nat :=
  (s.last - s.first).toNat + 1

end Span

end CaseFolding
