import CaseFolding.Mapping.Basic

namespace CaseFolding

/-! # Dispatch trees

Mappings hang in a binary search tree by their first codepoint. The tree is
kept balanced: the subtrees of a node differ in height by at most one, so the
height bounds the number of range tests on the way to a result. Every node
remembers its height.
-/

/-- A binary tree of mappings. -/
inductive Tree where
  | leaf
  | node (height : Nat) (left : Tree) (mapping : Mapping) (right : Tree)
deriving DecidableEq

namespace Tree

/-! ## Parts and views -/

/-- The number of nodes on the longest path down, as remembered by the root. -/
def height : Tree → Nat
  | leaf => 0
  | node h _ _ _ => h

/-- The number of nodes on the longest path down, counted. -/
def depth : Tree → Nat
  | leaf => 0
  | node _ l _ r => max l.depth r.depth + 1

/-- The mappings, from left to right. -/
def toList : Tree → List Mapping
  | leaf => []
  | node _ l m r => l.toList ++ m :: r.toList

/-- The number of mappings. -/
def size : Tree → Nat
  | leaf => 0
  | node _ l _ r => l.size + r.size + 1

@[simp]
theorem length_toList (t : Tree) : t.toList.length = t.size := by
  induction t with
  | leaf => rfl
  | node h l m r ihl ihr =>
    simp only [toList, size, List.length_append, List.length_cons, ihl, ihr]
    omega

/-- A number for each mapping, added up. -/
def total (f : Mapping → Nat) : Tree → Nat
  | leaf => 0
  | node _ l m r => l.total f + f m + r.total f

/-- The mapping at the root. -/
def root? : Tree → Option Mapping
  | leaf => none
  | node _ _ m _ => some m

/-- The left subtree. -/
def left : Tree → Tree
  | leaf => leaf
  | node _ l _ _ => l

/-- The right subtree. -/
def right : Tree → Tree
  | leaf => leaf
  | node _ _ _ r => r

/-! ## Balance -/

/-- The node over two subtrees, with its height worked out. -/
def branch (l : Tree) (m : Mapping) (r : Tree) : Tree :=
  node (max l.height r.height + 1) l m r

/-- Lifts the left child to the root. -/
def rotateRight : Tree → Tree
  | node _ (node _ a x b) y c => branch a x (branch b y c)
  | t => t

/-- Lifts the right child to the root. -/
def rotateLeft : Tree → Tree
  | node _ a x (node _ b y c) => branch (branch a x b) y c
  | t => t

/-- Makes a left-heavy tree ready for `rotateRight`, whose inner subtree must not be the higher
one. -/
def leanLeft (t : Tree) : Tree :=
  if t.left.height < t.right.height then rotateLeft t else t

/-- Makes a right-heavy tree ready for `rotateLeft`, likewise. -/
def leanRight (t : Tree) : Tree :=
  if t.right.height < t.left.height then rotateRight t else t

/-- The node over two subtrees, one of which may be too high by one. -/
def balance (l : Tree) (m : Mapping) (r : Tree) : Tree :=
  if r.height + 1 < l.height then rotateRight (branch (leanLeft l) m r)
  else if l.height + 1 < r.height then rotateLeft (branch l m (leanRight r))
  else branch l m r

/-! None of this changes which mappings there are, nor their order. -/

@[simp]
theorem toList_branch (l : Tree) (m : Mapping) (r : Tree) :
    (branch l m r).toList = l.toList ++ m :: r.toList := rfl

@[simp]
theorem toList_rotateRight (t : Tree) : t.rotateRight.toList = t.toList := by
  unfold rotateRight
  split <;> simp [toList]

@[simp]
theorem toList_rotateLeft (t : Tree) : t.rotateLeft.toList = t.toList := by
  unfold rotateLeft
  split <;> simp [toList]

@[simp]
theorem toList_leanLeft (t : Tree) : t.leanLeft.toList = t.toList := by
  unfold leanLeft
  split <;> simp

@[simp]
theorem toList_leanRight (t : Tree) : t.leanRight.toList = t.toList := by
  unfold leanRight
  split <;> simp

@[simp]
theorem toList_balance (l : Tree) (m : Mapping) (r : Tree) :
    (balance l m r).toList = l.toList ++ m :: r.toList := by
  unfold balance
  split
  · simp
  · split <;> simp

/-! ## Inserting -/

/-- Inserts a mapping unless one with the same first codepoint is there, and says whether it did. -/
def insert (m : Mapping) : Tree → Tree × Bool
  | leaf => (branch leaf m leaf, true)
  | node h l k r =>
    if m.first < k.first then
      let (l', inserted) := insert m l
      (balance l' k r, inserted)
    else if k.first < m.first then
      let (r', inserted) := insert m r
      (balance l k r', inserted)
    else (node h l k r, false)

/-- Inserts mappings from left to right. -/
def ofList (ms : List Mapping) : Tree :=
  ms.foldl (fun t m => (t.insert m).1) leaf

/-! ## Folding -/

/-- What `c` folds to: the search goes left below a mapping's span and right above it, and a
codepoint that falls off the tree folds to itself. -/
def fold : Tree → (c : Codepoint) → Except Fault Codepoint
  | leaf, c => .ok c
  | node _ l m r, c =>
    if c < m.first then l.fold c
    else if m.last < c then r.fold c
    else m.apply c

end Tree

end CaseFolding
