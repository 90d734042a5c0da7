import CaseFolding.Proofs.Tree.Side
import CaseFolding.Tree.Layout

namespace CaseFolding.Tree

/-! # Trees with other mappings

Where a mapping hangs in a tree depends on first codepoints alone. So if each
mapping is exchanged for one with the same first codepoint, it makes no
difference whether this is done before or after the mappings are inserted, and
the tree keeps its shape.
-/

/-- The tree with another mapping at each node. -/
def map (f : Mapping → Mapping) : Tree → Tree
  | leaf => leaf
  | node h l m r => node h (l.map f) (f m) (r.map f)

variable {f : Mapping → Mapping} {side : Side} {h : Nat} {near far t : Tree} {m : Mapping}

/-! ## Shape -/

@[simp]
theorem height_map : (t.map f).height = t.height := by
  cases t <;> rfl

@[simp]
theorem left_map : (t.map f).left = t.left.map f := by
  cases t <;> rfl

@[simp]
theorem right_map : (t.map f).right = t.right.map f := by
  cases t <;> rfl

theorem root?_map : (t.map f).root? = t.root?.map f := by
  cases t <;> rfl

theorem nextRow_map (row : List Tree) : nextRow (row.map (map f)) = (nextRow row).map (map f) := by
  simp only [nextRow, List.flatMap_map, List.map_flatMap, List.map_cons, List.map_nil, left_map,
    right_map]

theorem rows_map (count : Nat) (row : List Tree) :
    rows count (row.map (map f)) = (rows count row).map (map f) := by
  induction count generalizing row with
  | zero => rfl
  | succ count ih => rw [rows, rows, nextRow_map, ih, List.map_append]

theorem layout_map : (t.map f).layout = t.layout.map (map f) := by
  have hrow : [t.map f] = [t].map (map f) := rfl
  rw [layout, layout, height_map, hrow, rows_map]

theorem places_map : (t.map f).places = t.places.map (Option.map f) := by
  rw [places, places, layout_map, List.map_map, List.map_map]
  exact List.map_congr_left fun _ _ => root?_map

/-! ## Operations -/

@[simp]
theorem map_nodeOn : (nodeOn side h near m far).map f =
    nodeOn side h (near.map f) (f m) (far.map f) := by
  cases side <;> rfl

@[simp]
theorem map_branchOn : (branchOn side near m far).map f =
    branchOn side (near.map f) (f m) (far.map f) := by
  rw [branchOn_eq_nodeOn, branchOn_eq_nodeOn, map_nodeOn, height_map, height_map]

/-- Lifting a child moves subtrees and looks at no mapping. -/
theorem map_rotateOn (side : Side) (t : Tree) : (rotateOn side t).map f = rotateOn side (t.map f) := by
  by_cases ht : t = leaf
  · rw [ht]
    cases side <;> rfl
  · rcases exists_nodeOn side ht with ⟨h, near, y, c, rfl⟩
    by_cases hnear : near = leaf
    · have hleaf : leaf.map f = leaf := rfl
      rw [hnear, rotateOn_nodeOn_leaf, map_nodeOn, hleaf, rotateOn_nodeOn_leaf]
    · rcases exists_nodeOn side hnear with ⟨k, a, x, b, rfl⟩
      simp only [rotateOn_nodeOn, map_nodeOn, map_branchOn]

theorem map_leanOn (side : Side) (t : Tree) : (leanOn side t).map f = leanOn side (t.map f) := by
  by_cases ht : t = leaf
  · rw [ht]
    cases side <;> rfl
  · rcases exists_nodeOn side ht with ⟨h, near, m, far, rfl⟩
    rw [leanOn_nodeOn, map_nodeOn, leanOn_nodeOn, height_map, height_map, apply_ite (map f),
      map_rotateOn, map_nodeOn]

/-- Balancing looks at heights only. -/
theorem map_balanceOn_of_high (hhigh : far.height + 1 < near.height) :
    (balanceOn side near m far).map f = balanceOn side (near.map f) (f m) (far.map f) := by
  have hhigh' : (far.map f).height + 1 < (near.map f).height := by
    rw [height_map, height_map]
    exact hhigh
  rw [balanceOn_of_high hhigh, balanceOn_of_high hhigh', map_rotateOn, map_branchOn, map_leanOn]

theorem map_balanceOn (side : Side) (near : Tree) (m : Mapping) (far : Tree) :
    (balanceOn side near m far).map f = balanceOn side (near.map f) (f m) (far.map f) := by
  by_cases hnear : far.height + 1 < near.height
  · exact map_balanceOn_of_high hnear
  · by_cases hfar : near.height + 1 < far.height
    · rw [← balanceOn_other side near, ← balanceOn_other side (near.map f)]
      exact map_balanceOn_of_high hfar
    · have heven : ∀ {t u : Tree}, t.height ≤ u.height + 1 →
          (t.map f).height ≤ (u.map f).height + 1 := by
        intro t u hle
        rw [height_map, height_map]
        exact hle
      have hnear := Nat.le_of_not_lt hnear
      have hfar := Nat.le_of_not_lt hfar
      rw [balanceOn_of_even hnear hfar, balanceOn_of_even (heven hnear) (heven hfar), map_branchOn]

/-! ## Inserting -/

/-- Insertion compares first codepoints only. -/
theorem map_insert (hf : ∀ m, (f m).first = m.first) (m : Mapping) (t : Tree) :
    (t.insert m).1.map f = ((t.map f).insert (f m)).1 := by
  induction t using induction_by_side with
  | hleaf => rfl
  | hnode h l k r ih =>
    cases hside : Side.toward? m.first k.first with
    | none =>
      have hside' : Side.toward? (f m).first (f k).first = none := by rw [hf, hf, hside]
      rw [insert_node_of_toward?_eq_none hside, map, insert_node_of_toward?_eq_none hside']
    | some side =>
      have hside' : Side.toward? (f m).first (f k).first = some side := by rw [hf, hf, hside]
      rcases ih side with ⟨near, far, heq, ih⟩
      rw [heq, map_nodeOn, insert_nodeOn hside, insert_nodeOn hside', map_balanceOn, ih]

/-- The mappings of a run of insertions may be exchanged before it or after it. -/
theorem map_ofList (hf : ∀ m, (f m).first = m.first) (ms : List Mapping) :
    (ofList ms).map f = ofList (ms.map f) := by
  induction ms using List.reverseRecOn with
  | nil => rfl
  | append_singleton ms m ih =>
    rw [ofList_concat, map_insert hf, ih, List.map_append, List.map_singleton, ofList_concat]

end CaseFolding.Tree
