import CaseFolding.Interval.Basic

namespace CaseFolding

/-! # Cutting entries into intervals

Entries whose codepoints lie close together make one interval, in which the
codepoints between them keep their own value. Identity entries at either end
of the scan are of no use and are dropped first; those in between stay, for
they may join their neighbours.
-/

namespace Interval

/-! ## The useful entries -/

/-- Whether an entry folds its codepoint to itself. -/
def isIdentity (e : Entry) : Bool := e.1 == e.2

/-- Drops the identity entries at both ends. -/
def trimIdentity (es : List Entry) : List Entry :=
  ((es.dropWhile isIdentity).reverse.dropWhile isIdentity).reverse

/-! ## The intervals -/

/-- The codepoints strictly between two codepoints, in ascending order. -/
def strictlyBetween (lo hi : Codepoint) : List Codepoint :=
  (List.range (hi.toNat - lo.toNat - 1)).map fun k => lo + 1 + UInt32.ofNat k

/-- Whether a codepoint lies at most `gap` above another. -/
def isNear (gap : UInt32) (lo hi : Codepoint) : Bool :=
  hi.toNat ≤ lo.toNat + gap.toNat

/-- Puts an entry in front of the intervals of the entries above it: into the first of them if that
one is near, and into one of its own otherwise. -/
def join (gap : UInt32) (e : Entry) : List Interval → List Interval
  | [] => [⟨e.1, [e.2]⟩]
  | i :: is =>
    if isNear gap e.1 i.first then
      ⟨e.1, e.2 :: (strictlyBetween e.1 i.first ++ i.values)⟩ :: is
    else ⟨e.1, [e.2]⟩ :: i :: is

/-- The intervals of ascending entries. -/
def scan (gap : UInt32) (es : List Entry) : List Interval :=
  es.foldr (join gap) []

end Interval

namespace Table

/-- The intervals of a table within a span. -/
def intervals (t : Table) (s : Span) (gap : UInt32) : List Interval :=
  Interval.scan gap (Interval.trimIdentity (t.within s))

/-- The intervals of a table within a span whose bounds must be in order. -/
def intervals? (t : Table) (s : Span) (gap : UInt32) : Except Fault (List Interval) :=
  (t.query s).map fun es => Interval.scan gap (Interval.trimIdentity es)

end Table

end CaseFolding
