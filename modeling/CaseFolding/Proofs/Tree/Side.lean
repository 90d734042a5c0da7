import CaseFolding.Proofs.Tree.Height
import CaseFolding.Tree.Store

namespace CaseFolding

/-! # Trees by sides

What happens on the left of a tree happens on its right the other way round.
With the side as a parameter one statement says both: `near` is the subtree on
the side in question, and `far` the one on the other side.
-/

namespace Tree

/-! ## Nodes -/

/-- The node with the subtree `near` on a side. -/
def nodeOn (side : Side) (h : Nat) (near : Tree) (m : Mapping) (far : Tree) : Tree :=
  match side with
  | .left => node h near m far
  | .right => node h far m near

/-- The node with the subtree `near` on a side, with its height worked out. -/
def branchOn (side : Side) (near : Tree) (m : Mapping) (far : Tree) : Tree :=
  match side with
  | .left => branch near m far
  | .right => branch far m near

/-- Lifts the child on a side to the root. -/
def rotateOn : Side → Tree → Tree
  | .left => rotateRight
  | .right => rotateLeft

/-- Makes the subtree on a side ready to be lifted. -/
def leanOn : Side → Tree → Tree
  | .left => leanLeft
  | .right => leanRight

/-- The node with the subtree `near` on a side, one of whose subtrees may be too high by one. -/
def balanceOn (side : Side) (near : Tree) (m : Mapping) (far : Tree) : Tree :=
  match side with
  | .left => balance near m far
  | .right => balance far m near

variable {side : Side} {h k : Nat} {a b c near far t : Tree} {x y m : Mapping}

/-- A node has a subtree on either side. -/
theorem exists_nodeOn (side : Side) (hne : t ≠ leaf) :
    ∃ h near m far, t = nodeOn side h near m far := by
  cases t with
  | leaf => exact absurd rfl hne
  | node h l m r =>
    cases side with
    | left => exact ⟨h, l, m, r, rfl⟩
    | right => exact ⟨h, r, m, l, rfl⟩

/-- Induction in which a node may choose the side of the subtree it looks at. -/
@[elab_as_elim]
theorem induction_by_side {P : Tree → Prop} (t : Tree) (hleaf : P leaf)
    (hnode : ∀ h l m r,
      (∀ side, ∃ near far, node h l m r = nodeOn side h near m far ∧ P near) → P (node h l m r)) :
    P t := by
  induction t with
  | leaf => exact hleaf
  | node h l m r ihl ihr =>
    apply hnode
    intro side
    cases side with
    | left => exact ⟨l, r, rfl, ihl⟩
    | right => exact ⟨r, l, rfl, ihr⟩

theorem nodeOn_other (side : Side) (h : Nat) (near : Tree) (m : Mapping) (far : Tree) :
    nodeOn side.other h far m near = nodeOn side h near m far := by
  cases side <;> rfl

theorem balanceOn_other (side : Side) (near : Tree) (m : Mapping) (far : Tree) :
    balanceOn side.other far m near = balanceOn side near m far := by
  cases side <;> rfl

theorem branchOn_eq_nodeOn (side : Side) (near : Tree) (m : Mapping) (far : Tree) :
    branchOn side near m far = nodeOn side (max near.height far.height + 1) near m far := by
  cases side with
  | left => rfl
  | right => rw [branchOn, branch, Nat.max_comm, nodeOn]

@[simp]
theorem depth_nodeOn : (nodeOn side h near m far).depth = max near.depth far.depth + 1 := by
  cases side with
  | left => rfl
  | right => rw [nodeOn, depth, Nat.max_comm]

@[simp]
theorem depth_branchOn : (branchOn side near m far).depth = max near.depth far.depth + 1 := by
  rw [branchOn_eq_nodeOn, depth_nodeOn]

theorem isHeighted_nodeOn :
    (nodeOn side h near m far).IsHeighted ↔
      h = max near.height far.height + 1 ∧ near.IsHeighted ∧ far.IsHeighted := by
  cases side with
  | left => exact Iff.rfl
  | right =>
    rw [Nat.max_comm, and_comm (a := near.IsHeighted)]
    exact Iff.rfl

/-! ## Rotations -/

/-- The child on a side is lifted, and what was between it and its parent changes over. -/
theorem rotateOn_nodeOn :
    rotateOn side (nodeOn side h (nodeOn side k a x b) y c) =
      branchOn side a x (branchOn side b y c) := by
  cases side <;> rfl

theorem rotateOn_nodeOn_leaf :
    rotateOn side (nodeOn side h leaf y c) = nodeOn side h leaf y c := by
  cases side <;> rfl

theorem rotateOn_branchOn (hne : near ≠ leaf) :
    rotateOn side (branchOn side near m far) = rotateOn side (nodeOn side h near m far) := by
  rcases exists_nodeOn side hne with ⟨k, a, x, b, rfl⟩
  rw [branchOn_eq_nodeOn, rotateOn_nodeOn, rotateOn_nodeOn]

/-- A subtree is made ready by a rotation if its inner subtree is the higher one. -/
theorem leanOn_nodeOn :
    leanOn side (nodeOn side h near m far) =
      if near.height < far.height then rotateOn side.other (nodeOn side h near m far)
      else nodeOn side h near m far := by
  cases side <;> rfl

/-- Two rotations lift the inner grandchild. -/
theorem rotateOn_other_nodeOn :
    rotateOn side.other (nodeOn side h a x (nodeOn side k b y c)) =
      branchOn side (branchOn side a x b) y c := by
  cases side <;> rfl

/-- A subtree that is there is there when it has been made ready. -/
theorem leanOn_ne_leaf (hne : t ≠ leaf) : leanOn side t ≠ leaf := by
  rcases exists_nodeOn side hne with ⟨h, near, m, far, rfl⟩
  rw [leanOn_nodeOn]
  split
  next hlt =>
    -- the inner subtree is the higher one, so it is there
    have hfar : far ≠ leaf := by
      rintro rfl
      exact Nat.not_lt_zero _ hlt
    rcases exists_nodeOn side hfar with ⟨k, b, y, c, rfl⟩
    rw [rotateOn_other_nodeOn]
    cases side <;> exact Tree.noConfusion
  next => cases side <;> exact Tree.noConfusion

/-! ## Balancing -/

/-- A subtree that is too high is made ready and lifted. -/
theorem balanceOn_of_high (hhigh : far.height + 1 < near.height) :
    balanceOn side near m far = rotateOn side (branchOn side (leanOn side near) m far) := by
  cases side with
  | left => exact if_pos hhigh
  | right =>
    have hlow : ¬ near.height + 1 < far.height := by omega
    rw [balanceOn, balance, if_neg hlow, if_pos hhigh]
    rfl

/-- Where no subtree is too high nothing is lifted. -/
theorem balanceOn_of_even (hnear : near.height ≤ far.height + 1)
    (hfar : far.height ≤ near.height + 1) :
    balanceOn side near m far = branchOn side near m far := by
  cases side with
  | left => rw [balanceOn, balance, if_neg (by omega), if_neg (by omega), branchOn]
  | right => rw [balanceOn, balance, if_neg (by omega), if_neg (by omega), branchOn]

/-! ## Inserting -/

/-- A mapping is inserted on the side to which its first codepoint belongs. -/
theorem insert_nodeOn (hside : Side.toward? m.first x.first = some side) :
    (nodeOn side h near x far).insert m =
      (balanceOn side (near.insert m).1 x far, (near.insert m).2) := by
  unfold Side.toward? at hside
  split at hside
  next hlt =>
    rcases Option.some.inj hside with rfl
    rw [nodeOn, insert, if_pos hlt]
    rfl
  next hge =>
    split at hside
    next hgt =>
      rcases Option.some.inj hside with rfl
      rw [nodeOn, insert, if_neg hge, if_pos hgt]
      rfl
    next => exact absurd hside nofun

/-- A mapping is not inserted where its first codepoint is taken. -/
theorem insert_node_of_toward?_eq_none (hnone : Side.toward? m.first x.first = none) :
    (node h near x far).insert m = (node h near x far, false) := by
  unfold Side.toward? at hnone
  split at hnone
  next => exact absurd hnone nofun
  next hge =>
    split at hnone
    next => exact absurd hnone nofun
    next hle => rw [insert, if_neg hge, if_neg hle]

end Tree

end CaseFolding
