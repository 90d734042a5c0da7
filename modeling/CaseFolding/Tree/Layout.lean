import CaseFolding.Tree.Basic

namespace CaseFolding.Tree

/-! # Layout

A tree is laid out row by row from the root, each row with a place for every
subtree that a full tree would have there. The children of the subtree at
place `i` are then at places `2 * i + 1` and `2 * i + 2`.
-/

/-- The subtrees right below a row of subtrees. -/
def nextRow (row : List Tree) : List Tree :=
  row.flatMap fun t => [t.left, t.right]

/-- Each row has twice the places of the one above. -/
@[simp]
theorem length_nextRow (row : List Tree) : (nextRow row).length = 2 * row.length := by
  induction row with
  | nil => rfl
  | cons t row ih =>
    simp only [nextRow, List.flatMap_cons, List.length_append, List.length_cons] at ih ⊢
    simp at ih ⊢
    omega

/-- A number of rows, starting with the given one. -/
def rows : (count : Nat) → (row : List Tree) → List Tree
  | 0, _ => []
  | count + 1, row => row ++ rows count (nextRow row)

/-- The subtrees of a tree, row by row, with `leaf` at every place where there is none. -/
def layout (t : Tree) : List Tree :=
  rows t.height [t]

/-- The mappings of a tree by place. -/
def places (t : Tree) : List (Option Mapping) :=
  t.layout.map root?

end CaseFolding.Tree
