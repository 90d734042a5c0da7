import CaseFolding.Tree.Basic

namespace CaseFolding

/-! # Stored trees

A tree can be kept in one array. Its nodes name their children by index, a new
node takes the next index, and nodes never move: a rotation only changes links.
An insertion follows the links down to where the new mapping belongs. On the
way back each node is linked to what its subtree has become, works out its
height anew, and is rotated if one of its subtrees is too high.
-/

/-! ## Sides -/

/-- The side of a node on which a child hangs. -/
inductive Side where
  | left
  | right
deriving DecidableEq

namespace Side

/-- The opposite side. -/
def other : Side → Side
  | left => right
  | right => left

/-- The side on which the search for a codepoint goes on at a key, unless it ends there. -/
def toward? (c key : Codepoint) : Option Side :=
  if c < key then some left
  else if key < c then some right
  else none

/-- The slot of the child on a side, for a parent in slot `k`. -/
def slotBelow : Side → (k : Nat) → Nat
  | left, k => 2 * k + 1
  | right, k => 2 * k + 2

end Side

/-! ## Nodes and links -/

/-- A mapping with the links to its children and the height of the tree below it. -/
structure Store.Node where
  mapping : Mapping
  left : Option Nat := none
  right : Option Nat := none
  height : Nat := 1
deriving DecidableEq

/-- The nodes in the order in which they came, and the link to the root. -/
structure Store where
  nodes : Array Store.Node := #[]
  root : Option Nat := none
deriving DecidableEq

namespace Store

/-- The link to the child on a side. -/
def Node.child (n : Node) : Side → Option Nat
  | .left => n.left
  | .right => n.right

/-- Links the child on a side anew. -/
def Node.withChild (side : Side) (link : Option Nat) (n : Node) : Node :=
  match side with
  | .left => { n with left := link }
  | .right => { n with right := link }

/-! ## Single steps -/

/-- Something that is done to the nodes. An index that leads nowhere, and links that go in a circle,
let it have no outcome. -/
abbrev Action := StateT (Array Node) Option

/-- The node at an index. -/
def nodeAt (i : Nat) : Action Node := do
  let nodes ← get
  nodes[i]?

/-- Changes the node at an index. -/
def change (i : Nat) (f : Node → Node) : Action Unit := do
  let n ← nodeAt i
  modify (·.setIfInBounds i (f n))

/-- Adds a node for a mapping and gives its index. -/
def add (m : Mapping) : Action Nat := do
  let nodes ← get
  set (nodes.push { mapping := m })
  return nodes.size

/-- The height that is remembered where a link leads. -/
def heightAt : (link : Option Nat) → Action Nat
  | none => return 0
  | some i => return (← nodeAt i).height

/-- Works out the height of a node from those of its children. -/
def updateHeight (i : Nat) : Action Unit := do
  let n ← nodeAt i
  let height := max (← heightAt n.left) (← heightAt n.right) + 1
  change i fun n => { n with height }

/-- By how much the subtree on a side is higher than the one on the other side. -/
def excess (side : Side) (i : Nat) : Action Int := do
  let n ← nodeAt i
  return (← heightAt (n.child side)) - (← heightAt (n.child side.other))

/-! ## Balance -/

/-- Lifts the child on a side to the place of its parent, which becomes its child on the other
side, and gives the index of the one that has been lifted. -/
def rotate (side : Side) (i : Nat) : Action Nat := do
  match (← nodeAt i).child side with
  | none => return i
  | some p =>
    let inner := (← nodeAt p).child side.other
    change i (·.withChild side inner)
    change p (·.withChild side.other (some i))
    updateHeight i
    updateHeight p
    return p

/-- Makes the child on a side ready to be lifted: its inner subtree must not be the higher one. -/
def straighten (side : Side) (i : Nat) : Action Unit := do
  match (← nodeAt i).child side with
  | none => return ()
  | some j =>
    if (← excess side j) < 0 then
      let k ← rotate side.other j
      change i (·.withChild side (some k))
    else return ()

/-- Works out the height of a node and rotates it if a subtree is too high. Gives the index of the
node that is in its place then. -/
def rebalance (i : Nat) : Action Nat := do
  updateHeight i
  let e ← excess .left i
  if 1 < e then
    straighten .left i
    rotate .left i
  else if e < -1 then
    straighten .right i
    rotate .right i
  else return i

/-! ## Inserting -/

/-- Inserts a mapping where a link leads, unless one with the same first codepoint is there. Gives
the index of the node that the link must lead to then, and says whether the mapping is new. The
links are followed through a number of nodes at most. -/
def insertAt (m : Mapping) : (steps : Nat) → (link : Option Nat) → Action (Nat × Bool)
  | _, none => return (← add m, true)
  | 0, some _ => failure
  | steps + 1, some i => do
    let n ← nodeAt i
    match Side.toward? m.first n.mapping.first with
    | none => return (i, false)
    | some side =>
      let (k, inserted) ← insertAt m steps (n.child side)
      change i (·.withChild side (some k))
      return (← rebalance i, inserted)

/-- Inserts a mapping unless one with the same first codepoint is there, and says whether it did.
Links that lead through more nodes than there are go in a circle and never come to an end. -/
def insert (m : Mapping) (s : Store) : Option (Store × Bool) := do
  let ((i, inserted), nodes) ← (insertAt m s.nodes.size s.root).run s.nodes
  return (⟨nodes, some i⟩, inserted)

/-- Inserts mappings from left to right. -/
def ofList (ms : List Mapping) : Option Store :=
  ms.foldlM (fun s m => (·.1) <$> s.insert m) {}

/-! ## Reading -/

/-- The tree to which a link leads, if it has no more than a number of levels. -/
def treeAt? (nodes : Array Node) : (levels : Nat) → (link : Option Nat) → Option Tree
  | _, none => some .leaf
  | 0, some _ => none
  | levels + 1, some i => do
    let n ← nodes[i]?
    let l ← treeAt? nodes levels n.left
    let r ← treeAt? nodes levels n.right
    return .node n.height l n.mapping r

/-- The tree that is stored. -/
def tree? (s : Store) : Option Tree :=
  treeAt? s.nodes s.nodes.size s.root

/-- The number of mappings that were taken. -/
def size (s : Store) : Nat := s.nodes.size

/-- The height that is remembered at the root. -/
def height? (s : Store) : Option Nat :=
  (heightAt s.root).run' s.nodes

/-- The mappings from left to right where a link leads, if there are no more than a number of
levels. -/
def mappingsAt? (nodes : Array Node) : (levels : Nat) → (link : Option Nat) → Option (List Mapping)
  | _, none => some []
  | 0, some _ => none
  | levels + 1, some i => do
    let n ← nodes[i]?
    let before ← mappingsAt? nodes levels n.left
    let after ← mappingsAt? nodes levels n.right
    return before ++ n.mapping :: after

/-- The mappings from left to right. -/
def mappings? (s : Store) : Option (List Mapping) :=
  mappingsAt? s.nodes s.nodes.size s.root

/-! ## Slots -/

/-- Puts the mappings to which a link leads into slots, the first of them into slot `k` and those
below it into the slots of children, through a number of levels at most. A slot that is not there
lets it have no outcome. -/
def placeAt? (nodes : Array Node) :
    (levels : Nat) → (link : Option Nat) → (k : Nat) → (slots : Array (Option Mapping)) →
      Option (Array (Option Mapping))
  | _, none, _, slots => some slots
  | 0, some _, _, _ => none
  | levels + 1, some i, k, slots => do
    let n ← nodes[i]?
    if hk : k < slots.size then
      let slots := slots.set k (some n.mapping) hk
      let slots ← placeAt? nodes levels n.left (Side.left.slotBelow k) slots
      placeAt? nodes levels n.right (Side.right.slotBelow k) slots
    else none

/-- The mappings by slot, the root in the first one. There are as many slots as a full tree of the
same height has mappings. -/
def slots? (s : Store) : Option (Array (Option Mapping)) := do
  let height ← s.height?
  placeAt? s.nodes s.nodes.size s.root 0 (Array.replicate ((1 <<< height) - 1) none)

/-! ## Folding -/

/-- What `c` folds to where a link leads: the search follows the links left below a mapping's span
and right above it, through a number of nodes at most, and a codepoint for which they end folds to
itself. -/
def foldAt? (nodes : Array Node) (c : Codepoint) :
    (steps : Nat) → (link : Option Nat) → Option (Except Fault Codepoint)
  | _, none => some (.ok c)
  | 0, some _ => none
  | steps + 1, some i => do
    let n ← nodes[i]?
    if c < n.mapping.first then foldAt? nodes c steps n.left
    else if n.mapping.last < c then foldAt? nodes c steps n.right
    else return n.mapping.apply c

/-- What `c` folds to. -/
def fold? (s : Store) (c : Codepoint) : Option (Except Fault Codepoint) :=
  foldAt? s.nodes c s.nodes.size s.root

end Store

end CaseFolding
