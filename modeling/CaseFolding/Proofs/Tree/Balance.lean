import CaseFolding.Proofs.Tree.Side

namespace CaseFolding.Tree

/-! # Balance

In a balanced tree the subtrees of a node differ in height by at most one. An
insertion makes a subtree higher by at most one, so that one rotation or two
bring each node on the path back into balance, and the tree itself becomes
higher by at most one as well.
-/

/-- At every node the heights of the subtrees differ by at most one. -/
def IsBalanced : Tree → Prop
  | leaf => True
  | node _ l _ r =>
    l.depth ≤ r.depth + 1 ∧ r.depth ≤ l.depth + 1 ∧ l.IsBalanced ∧ r.IsBalanced

variable {side : Side} {h : Nat} {near far t : Tree} {m : Mapping}

theorem isBalanced_leaf : IsBalanced leaf := trivial

/-- The condition at a node, seen from either side. -/
theorem isBalanced_nodeOn :
    (nodeOn side h near m far).IsBalanced ↔
      near.depth ≤ far.depth + 1 ∧ far.depth ≤ near.depth + 1 ∧
        near.IsBalanced ∧ far.IsBalanced := by
  cases side with
  | left => exact Iff.rfl
  | right =>
    constructor
    · rintro ⟨hfar, hnear, hbfar, hbnear⟩
      exact ⟨hnear, hfar, hbnear, hbfar⟩
    · rintro ⟨hnear, hfar, hbnear, hbfar⟩
      exact ⟨hfar, hnear, hbfar, hbnear⟩

theorem isBalanced_branchOn :
    (branchOn side near m far).IsBalanced ↔
      near.depth ≤ far.depth + 1 ∧ far.depth ≤ near.depth + 1 ∧
        near.IsBalanced ∧ far.IsBalanced := by
  rw [branchOn_eq_nodeOn, isBalanced_nodeOn]

theorem ne_leaf_of_depth_pos (hpos : 0 < t.depth) : t ≠ leaf := by
  rintro rfl
  exact Nat.lt_irrefl 0 hpos

/-! ## Balancing -/

/-- A subtree that is too high by one is lifted, and then the heights fit. -/
theorem isBalanced_balanceOn_of_high (side : Side) (m : Mapping) (hnear : near.IsHeighted)
    (hfar : far.IsHeighted) (hbnear : near.IsBalanced) (hbfar : far.IsBalanced)
    (hhigh : near.depth = far.depth + 2) :
    (balanceOn side near m far).IsBalanced ∧ near.depth ≤ (balanceOn side near m far).depth ∧
      (balanceOn side near m far).depth ≤ near.depth + 1 := by
  have hheight : far.height + 1 < near.height := by
    rw [height_eq_depth hnear, height_eq_depth hfar]
    omega
  rcases exists_nodeOn side (ne_leaf_of_depth_pos (by omega : 0 < near.depth)) with
    ⟨h, a, x, b, rfl⟩
  rcases isHeighted_nodeOn.mp hnear with ⟨-, ha, hb⟩
  rcases isBalanced_nodeOn.mp hbnear with ⟨hab, hba, hbala, hbalb⟩
  rw [depth_nodeOn] at hhigh ⊢
  rw [balanceOn_of_high hheight, leanOn_nodeOn, height_eq_depth ha, height_eq_depth hb]
  split
  next hinner =>
    -- the inner grandchild is lifted twice
    rcases exists_nodeOn side (ne_leaf_of_depth_pos (by omega : 0 < b.depth)) with
      ⟨k, c, y, d, rfl⟩
    rcases isBalanced_nodeOn.mp hbalb with ⟨hcd, hdc, hbalc, hbald⟩
    rw [depth_nodeOn] at hab hba hinner hhigh ⊢
    rw [rotateOn_other_nodeOn, branchOn_eq_nodeOn side _ m, branchOn_eq_nodeOn side _ y,
      rotateOn_nodeOn]
    simp only [isBalanced_branchOn, depth_branchOn]
    refine ⟨⟨?_, ?_, ⟨?_, ?_, hbala, hbalc⟩, ?_, ?_, hbald, hbfar⟩, ?_, ?_⟩ <;> omega
  next hinner =>
    -- the child is lifted
    rw [branchOn_eq_nodeOn, rotateOn_nodeOn]
    simp only [isBalanced_branchOn, depth_branchOn]
    refine ⟨⟨?_, ?_, hbala, ?_, ?_, hbalb, hbfar⟩, ?_, ?_⟩ <;> omega

/-- After a subtree of a balanced node has become higher by at most one, balancing the node brings
the heights back into line. -/
theorem isBalanced_balanceOn {before : Tree} (hnear : near.IsHeighted) (hfar : far.IsHeighted)
    (hbefore : (nodeOn side h before m far).IsBalanced) (hbnear : near.IsBalanced)
    (hle : before.depth ≤ near.depth) (hge : near.depth ≤ before.depth + 1) :
    (balanceOn side near m far).IsBalanced ∧
      (nodeOn side h before m far).depth ≤ (balanceOn side near m far).depth ∧
      (balanceOn side near m far).depth ≤ (nodeOn side h before m far).depth + 1 := by
  rcases isBalanced_nodeOn.mp hbefore with ⟨hnf, hfn, -, hbfar⟩
  rw [depth_nodeOn]
  by_cases hhigh : near.depth = far.depth + 2
  · obtain ⟨hbalanced, hlow, hup⟩ :=
      isBalanced_balanceOn_of_high side m hnear hfar hbnear hbfar hhigh
    refine ⟨hbalanced, ?_, ?_⟩ <;> omega
  · have hnf' : near.depth ≤ far.depth + 1 := by omega
    have hfn' : far.depth ≤ near.depth + 1 := by omega
    have heven : balanceOn side near m far = branchOn side near m far := by
      apply balanceOn_of_even <;> rwa [height_eq_depth hnear, height_eq_depth hfar]
    rw [heven, isBalanced_branchOn, depth_branchOn]
    refine ⟨⟨hnf', hfn', hbnear, hbfar⟩, ?_, ?_⟩ <;> omega

/-! ## Inserting -/

/-- An insertion keeps a tree in balance and makes it higher by at most one. -/
theorem isBalanced_insert_and_depth (hheight : t.IsHeighted) (hbalance : t.IsBalanced)
    (m : Mapping) :
    (t.insert m).1.IsBalanced ∧ t.depth ≤ (t.insert m).1.depth ∧
      (t.insert m).1.depth ≤ t.depth + 1 := by
  induction t using induction_by_side with
  | hleaf =>
    exact ⟨⟨Nat.zero_le _, Nat.zero_le _, trivial, trivial⟩, Nat.zero_le _, Nat.le_refl _⟩
  | hnode h l k r ih =>
    cases hside : Side.toward? m.first k.first with
    | none =>
      rw [insert_node_of_toward?_eq_none hside]
      exact ⟨hbalance, Nat.le_refl _, Nat.le_succ _⟩
    | some side =>
      rcases ih side with ⟨near, far, heq, ih⟩
      rw [heq] at hheight hbalance ⊢
      rcases isHeighted_nodeOn.mp hheight with ⟨-, hhnear, hhfar⟩
      rcases isBalanced_nodeOn.mp hbalance with ⟨-, -, hbnear, -⟩
      rcases ih hhnear hbnear with ⟨hb, hle, hge⟩
      rw [insert_nodeOn hside]
      exact isBalanced_balanceOn (isHeighted_insert hhnear m) hhfar hbalance hb hle hge

theorem isBalanced_insert (hheight : t.IsHeighted) (hbalance : t.IsBalanced) (m : Mapping) :
    (t.insert m).1.IsBalanced :=
  (isBalanced_insert_and_depth hheight hbalance m).1

/-- After a run of insertions the tree is in balance. -/
theorem isBalanced_ofList (ms : List Mapping) : (ofList ms).IsBalanced := by
  have hboth : (ofList ms).IsHeighted ∧ (ofList ms).IsBalanced :=
    ofList_induction (P := fun t => t.IsHeighted ∧ t.IsBalanced)
      ⟨isHeighted_leaf, isBalanced_leaf⟩
      (fun _ m ht => ⟨isHeighted_insert ht.1 m, isBalanced_insert ht.1 ht.2 m⟩) ms
  exact hboth.2

end CaseFolding.Tree
