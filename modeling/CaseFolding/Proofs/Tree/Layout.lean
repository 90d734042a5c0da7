import CaseFolding.Tree.Layout
import Mathlib.Data.List.Perm.Basic

namespace CaseFolding

/-! # What a layout holds

Laid out in as many rows as it is deep, a tree shows each of its subtrees at
one place, and the children of whatever has a place have places further on.
-/

/-! ## Lists that point ahead -/

/-- Whatever an element of a list points to comes after it. -/
def PointsAhead {α : Type} (points : α → α → Prop) (as : List α) : Prop :=
  ∀ a after, a :: after <:+ as → ∀ b, points a b → b ∈ after

section PointsAhead

variable {α : Type} {points : α → α → Prop} {a b : α} {as bs : List α}

theorem pointsAhead_nil : PointsAhead points [] := by
  intro a after h
  exact absurd (List.suffix_nil.mp h) (List.cons_ne_nil a after)

theorem PointsAhead.tail (h : PointsAhead points (a :: as)) : PointsAhead points as :=
  fun b after hb => h b after (hb.trans (List.suffix_cons a as))

theorem PointsAhead.mem (h : PointsAhead points as) (ha : a ∈ as) (hab : points a b) : b ∈ as := by
  rcases List.append_of_mem ha with ⟨before, after, rfl⟩
  have hafter : b ∈ after := h a after ⟨before, rfl⟩ b hab
  exact List.mem_append_right before (List.mem_cons_of_mem a hafter)

/-- Elements may be put in front of those that they point to. -/
theorem PointsAhead.append (h : PointsAhead points bs)
    (has : ∀ a ∈ as, ∀ b, points a b → b ∈ bs) : PointsAhead points (as ++ bs) := by
  induction as with
  | nil => exact h
  | cons a as ih =>
    intro x after hx b hb
    rcases List.suffix_cons_iff.mp hx with heq | hx
    · rcases List.cons.inj heq with ⟨rfl, rfl⟩
      exact List.mem_append_right as (has x List.mem_cons_self b hb)
    · exact ih (fun y hy => has y (List.mem_cons_of_mem a hy)) x after hx b hb

end PointsAhead

namespace Tree

variable {count : Nat} {row : List Tree} {t u l r : Tree} {m : Mapping}

/-! ## Subtrees -/

/-- The subtrees that hold a mapping. -/
def subtrees : Tree → List Tree
  | leaf => []
  | node h l m r => node h l m r :: (l.subtrees ++ r.subtrees)

/-- The mappings at the roots of the subtrees are the mappings of the tree. -/
theorem filterMap_root?_subtrees (t : Tree) : (t.subtrees.filterMap root?).Perm t.toList := by
  induction t with
  | leaf => exact .nil
  | node h l m r ihl ihr =>
    have hcons : (node h l m r).subtrees.filterMap root? =
        m :: (l.subtrees.filterMap root? ++ r.subtrees.filterMap root?) :=
      congrArg (m :: ·) List.filterMap_append
    rw [hcons, toList]
    exact ((ihl.append ihr).cons m).trans List.perm_middle.symm

/-- A view that shows nothing of a leaf does not need the leaves. -/
theorem filterMap_filter_ne_leaf {α : Type} {f : Tree → Option α} (hf : f leaf = none)
    (ts : List Tree) : (ts.filter (· ≠ leaf)).filterMap f = ts.filterMap f := by
  rw [List.filterMap_filter]
  apply List.filterMap_congr
  intro t _
  by_cases ht : t = leaf
  · simp [ht, hf]
  · simp [ht]

/-- A child is a subtree right below that holds a mapping. -/
def IsChild (t u : Tree) : Prop :=
  u ≠ leaf ∧ (u = t.left ∨ u = t.right)

/-! ## Rows -/

theorem depth_le_of_mem_nextRow (h : ∀ t ∈ row, t.depth ≤ count + 1) (ht : t ∈ nextRow row) :
    t.depth ≤ count := by
  rcases List.mem_flatMap.mp ht with ⟨p, hp, htp⟩
  have hdepth := h p hp
  cases p with
  | leaf =>
    have hleaf : t = leaf := by simpa [left, right] using htp
    rw [hleaf]
    exact Nat.zero_le count
  | node h l m r =>
    rw [depth] at hdepth
    have htlr : t = l ∨ t = r := by simpa [left, right] using htp
    rcases htlr with rfl | rfl <;> omega

theorem eq_leaf_of_depth (h : t.depth ≤ 0) : t = leaf := by
  cases t with
  | leaf => rfl
  | node h l m r => simp [depth] at h

/-- The subtrees of a row are those that stand in it and those of the row below. -/
theorem subtrees_nextRow (row : List Tree) :
    (row.filter (· ≠ leaf) ++ (nextRow row).flatMap subtrees).Perm (row.flatMap subtrees) := by
  induction row with
  | nil => exact .nil
  | cons t row ih =>
    cases t with
    | leaf =>
      have hnext : (nextRow (leaf :: row)).flatMap subtrees = (nextRow row).flatMap subtrees := by
        simp [nextRow, left, right, subtrees]
      rw [List.filter_cons_of_neg (by simp), hnext]
      exact ih
    | node h l m r =>
      have hnext : (nextRow (node h l m r :: row)).flatMap subtrees =
          (l.subtrees ++ r.subtrees) ++ (nextRow row).flatMap subtrees := by
        simp [nextRow, left, right]
      rw [List.filter_cons_of_pos (by simp), hnext, List.flatMap_cons, subtrees, List.cons_append,
        List.cons_append]
      exact ((List.perm_append_comm_assoc _ _ _).trans (ih.append_left _)).cons (node h l m r)

/-- Enough rows show every subtree once. -/
theorem subtrees_rows (h : ∀ t ∈ row, t.depth ≤ count) :
    ((rows count row).filter (· ≠ leaf)).Perm (row.flatMap subtrees) := by
  induction count generalizing row with
  | zero =>
    have hnil : row.flatMap subtrees = [] := by
      rw [List.flatMap_eq_nil_iff]
      intro t ht
      rw [eq_leaf_of_depth (h t ht), subtrees]
    rw [hnil, rows]
    exact .nil
  | succ count ih =>
    have hbelow := ih fun t ht => depth_le_of_mem_nextRow h ht
    rw [rows, List.filter_append]
    exact (hbelow.append_left _).trans (subtrees_nextRow row)

/-- In enough rows the children of whatever is shown are shown further on. -/
theorem pointsAhead_rows (h : ∀ t ∈ row, t.depth ≤ count) :
    PointsAhead IsChild (rows count row) := by
  induction count generalizing row with
  | zero => exact pointsAhead_nil
  | succ count ih =>
    refine (ih fun t ht => depth_le_of_mem_nextRow h ht).append ?_
    rintro t ht u ⟨hne, hu⟩
    have hnext : u ∈ nextRow row := List.mem_flatMap.mpr ⟨t, ht, by simpa using hu⟩
    -- there is a row below, for the child has a mapping
    cases count with
    | zero => exact absurd (eq_leaf_of_depth (depth_le_of_mem_nextRow h hnext)) hne
    | succ count => exact List.mem_append_left _ hnext

/-- The subtrees below a number of rows make as many rows. -/
theorem nextRow_rows (count : Nat) (row : List Tree) :
    nextRow (rows count row) = rows count (nextRow row) := by
  induction count generalizing row with
  | zero => rfl
  | succ count ih => rw [rows, rows, nextRow, List.flatMap_append, ← nextRow, ← nextRow, ih]

/-! ## Layouts -/

/-- The subtrees below a tree, row by row. -/
def descendants (t : Tree) : List Tree :=
  rows (t.height - 1) (nextRow [t])

theorem layout_eq_cons (h : t.height = t.depth) (hne : t ≠ leaf) : t.layout = t :: t.descendants := by
  cases t with
  | leaf => exact absurd rfl hne
  | node k l m r =>
    have hk : (node k l m r).height = max l.depth r.depth + 1 := h
    rw [layout, descendants, hk, Nat.add_sub_cancel, rows, List.singleton_append]

theorem depth_le_of_mem_singleton (h : t.height = t.depth) (hu : u ∈ [t]) : u.depth ≤ t.height := by
  rw [List.mem_singleton.mp hu]
  exact Nat.le_of_eq h.symm

/-- A tree that remembers its height shows every subtree once. -/
theorem subtrees_layout (h : t.height = t.depth) :
    (t.layout.filter (· ≠ leaf)).Perm t.subtrees := by
  simpa [layout] using subtrees_rows fun u hu => depth_le_of_mem_singleton h hu

/-- It shows every mapping once. -/
theorem filterMap_root?_layout (h : t.height = t.depth) :
    (t.layout.filterMap root?).Perm t.toList := by
  rw [← filterMap_filter_ne_leaf rfl]
  exact ((subtrees_layout h).filterMap root?).trans (filterMap_root?_subtrees t)

/-- Below the root are the subtrees of its children. -/
theorem subtrees_descendants (h : t.height = t.depth) :
    (t.descendants.filter (· ≠ leaf)).Perm (t.left.subtrees ++ t.right.subtrees) := by
  cases t with
  | leaf => exact .nil
  | node k l m r =>
    have hlayout := subtrees_layout h
    rw [layout_eq_cons h Tree.noConfusion, List.filter_cons_of_pos (by simp)] at hlayout
    exact hlayout.cons_inv

/-- What stands right below the root and its descendants is what stands below the root. -/
theorem filter_nextRow_descendants (h : t.height = t.depth) :
    ((nextRow (t :: t.descendants)).filter (· ≠ leaf)).Perm (t.descendants.filter (· ≠ leaf)) := by
  by_cases hne : t = leaf
  · rw [hne]
    exact .nil
  · have hdepth : ∀ u ∈ nextRow [t], u.depth ≤ t.height := by
      intro u hu
      refine depth_le_of_mem_nextRow ?_ hu
      intro p hp
      exact Nat.le_succ_of_le (depth_le_of_mem_singleton h hp)
    have hbelow := subtrees_rows hdepth
    rw [← nextRow_rows, ← layout, layout_eq_cons h hne] at hbelow
    exact hbelow.trans (by simpa [nextRow] using (subtrees_descendants h).symm)

/-- The children of the root and of its descendants stand further on. -/
theorem pointsAhead_descendants (h : t.height = t.depth) :
    PointsAhead IsChild (t :: t.descendants) := by
  by_cases hne : t = leaf
  · have hleaf : PointsAhead IsChild ([leaf] ++ []) := by
      refine pointsAhead_nil.append ?_
      rintro p hp u ⟨hu, hchild⟩
      rw [List.mem_singleton.mp hp] at hchild
      exact absurd (hchild.elim id id) hu
    rw [hne]
    exact hleaf
  · rw [← layout_eq_cons h hne]
    exact pointsAhead_rows fun _ hu => depth_le_of_mem_singleton h hu

/-- The children of whatever has a place have places below the root. -/
theorem mem_descendants_of_child (h : t.height = t.depth) {p : Tree} (hp : p ∈ t.layout)
    (hu : u = p.left ∨ u = p.right) (hne : u ≠ leaf) : u ∈ t.descendants := by
  have hroot : t ≠ leaf := by
    rintro rfl
    exact absurd hp List.not_mem_nil
  have hahead := pointsAhead_descendants h
  rw [layout_eq_cons h hroot] at hp
  rcases List.mem_cons.mp hp with rfl | hp
  · exact hahead p p.descendants List.suffix_rfl u ⟨hne, hu⟩
  · exact hahead.tail.mem hp ⟨hne, hu⟩

/-- The root and its descendants show every mapping once. -/
theorem filterMap_root?_descendants (h : t.height = t.depth) :
    ((t :: t.descendants).filterMap root?).Perm t.toList := by
  by_cases hne : t = leaf
  · rw [hne]
    exact .nil
  · rw [← layout_eq_cons h hne]
    exact filterMap_root?_layout h

end Tree

end CaseFolding
