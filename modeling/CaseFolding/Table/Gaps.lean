import CaseFolding.Table.Basic

namespace CaseFolding

/-! # Closing gaps

A few entries may lie almost side by side. Their gaps are closed by entries
that a rule computes, the lowest missing codepoint first, as long as no more
than a handful of them are needed.
-/

/-- The most entries that closing the gaps of a table may take. -/
def patchLimit : Nat := 4

namespace Table

/-- The lowest codepoint that is missing between two consecutive entries. -/
def firstGap? : List Entry → Option Codepoint
  | a :: b :: es =>
    if a.1.toNat + 1 < b.1.toNat then some (a.1 + 1) else firstGap? (b :: es)
  | _ => none

/-- Inserts at most `budget` missing codepoints. The count is absent when the gaps are not closed
by then; the table holds what was inserted in either case. -/
def closeGapsWithin (rule : Codepoint → Codepoint) : (budget : Nat) → Table → Option Nat × Table
  | 0, t => (if firstGap? t.entries = none then some 0 else none, t)
  | budget + 1, t =>
    match firstGap? t.entries with
    | none => (some 0, t)
    | some c =>
      let (count, closed) := closeGapsWithin rule budget (t.insert c (rule c))
      (count.map (· + 1), closed)

/-- Makes the codepoints of a table consecutive by inserting the missing ones with the values of
`rule`. The answer is how many were inserted, or nothing if more than `patchLimit` were needed. -/
def closeGaps (rule : Codepoint → Codepoint) (t : Table) : Option Nat × Table :=
  closeGapsWithin rule patchLimit t

end Table

end CaseFolding
