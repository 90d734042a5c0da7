import CaseFolding.Proofs.Tree.Order

namespace CaseFolding.Tree

/-! # Remembered heights

Every node remembers the height of its tree, and whatever is done to a tree
works that height out anew. So the height of a tree can be read off its root.
-/

/-- At every node the remembered height is that of the tree below it. -/
def IsHeighted : Tree → Prop
  | leaf => True
  | node h l _ r => h = max l.height r.height + 1 ∧ l.IsHeighted ∧ r.IsHeighted

variable {t l r : Tree}

theorem isHeighted_leaf : IsHeighted leaf := trivial

theorem height_eq_depth (h : t.IsHeighted) : t.height = t.depth := by
  induction t with
  | leaf => rfl
  | node n l m r ihl ihr =>
    rcases h with ⟨hn, hl, hr⟩
    rw [height, depth, hn, ihl hl, ihr hr]

theorem depth_le_size (t : Tree) : t.depth ≤ t.size := by
  induction t with
  | leaf => exact Nat.le_refl 0
  | node n l m r ihl ihr =>
    rw [depth, size]
    omega

/-! ## Operations -/

theorem isHeighted_branch (hl : l.IsHeighted) (m : Mapping) (hr : r.IsHeighted) :
    (branch l m r).IsHeighted :=
  ⟨rfl, hl, hr⟩

theorem isHeighted_rotateRight (h : t.IsHeighted) : t.rotateRight.IsHeighted := by
  unfold rotateRight
  split
  next _ _ a x b y c =>
    rcases h with ⟨-, ⟨-, ha, hb⟩, hc⟩
    exact isHeighted_branch ha x (isHeighted_branch hb y hc)
  next => exact h

theorem isHeighted_rotateLeft (h : t.IsHeighted) : t.rotateLeft.IsHeighted := by
  unfold rotateLeft
  split
  next _ a x _ b y c =>
    rcases h with ⟨-, ha, -, hb, hc⟩
    exact isHeighted_branch (isHeighted_branch ha x hb) y hc
  next => exact h

theorem isHeighted_leanLeft (h : t.IsHeighted) : t.leanLeft.IsHeighted := by
  unfold leanLeft
  split
  · exact isHeighted_rotateLeft h
  · exact h

theorem isHeighted_leanRight (h : t.IsHeighted) : t.leanRight.IsHeighted := by
  unfold leanRight
  split
  · exact isHeighted_rotateRight h
  · exact h

/-- Balancing works out the heights of the nodes that it moves. -/
theorem isHeighted_balance (hl : l.IsHeighted) (m : Mapping) (hr : r.IsHeighted) :
    (balance l m r).IsHeighted := by
  unfold balance
  split
  · exact isHeighted_rotateRight (isHeighted_branch (isHeighted_leanLeft hl) m hr)
  · split
    · exact isHeighted_rotateLeft (isHeighted_branch hl m (isHeighted_leanRight hr))
    · exact isHeighted_branch hl m hr

/-- Insertion works out the heights on the way back to the root. -/
theorem isHeighted_insert (h : t.IsHeighted) (m : Mapping) : (t.insert m).1.IsHeighted := by
  induction t with
  | leaf => exact isHeighted_branch isHeighted_leaf m isHeighted_leaf
  | node n l k r ihl ihr =>
    rcases id h with ⟨-, hl, hr⟩
    unfold insert
    split
    next => exact isHeighted_balance (ihl hl) k hr
    next =>
      split
      next => exact isHeighted_balance hl k (ihr hr)
      next => exact h

theorem isHeighted_ofList (ms : List Mapping) : (ofList ms).IsHeighted :=
  ofList_induction (P := IsHeighted) isHeighted_leaf (fun _ m ht => isHeighted_insert ht m) ms

end CaseFolding.Tree
