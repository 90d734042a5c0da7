import CaseFolding.Table.Basic

namespace CaseFolding

/-! # Cursors

A cursor walks over entries from both ends at once. What it has not handed out
yet is all there is to know about it, so the two ends never pass each other and
a cursor that has run out stays so.
-/

/-- The entries that a walk has still to hand out. -/
structure Cursor where
  rest : List Entry

namespace Cursor

/-- The number of entries to come. -/
def size (k : Cursor) : Nat := k.rest.length

/-- Takes the lowest entry. -/
def next (k : Cursor) : Option Entry × Cursor :=
  (k.rest.head?, ⟨k.rest.tail⟩)

/-- Takes the highest entry. -/
def nextBack (k : Cursor) : Option Entry × Cursor :=
  (k.rest.getLast?, ⟨k.rest.dropLast⟩)

end Cursor

end CaseFolding
