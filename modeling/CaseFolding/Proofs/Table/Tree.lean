import CaseFolding.Listing
import CaseFolding.Proofs.Interval.Scan
import CaseFolding.Proofs.Mapping.Shape
import CaseFolding.Proofs.Tree.Ascending

namespace CaseFolding.Table

/-! # The tree of a table

The mappings of the intervals have separated spans and ascend, so they are all
taken and the search finds the one that holds a codepoint. Within the span for
which it was made the tree folds like the table, and outside of it nothing
folds.
-/

variable {t : Table} {span : Span} {gap : UInt32} {s : Switches}

/-! ## The mappings -/

/-- The mappings of the intervals, in order. -/
def mappings (t : Table) (span : Span) (gap : UInt32) (s : Switches) : List Mapping :=
  (t.intervals span gap).map (·.classify s)

/-- The spans of the mappings lie apart. -/
theorem separated_mappings (t : Table) (span : Span) (gap : UInt32) (s : Switches) :
    Tree.Separated (t.mappings span gap s) := by
  have hcut := t.isCut_intervals span gap
  constructor
  · intro m hm
    rcases List.mem_map.mp hm with ⟨i, hi, rfl⟩
    exact (hcut.valid i hi).first_le_last
  · exact List.pairwise_map.mpr hcut.apart

theorem fits_mappings {m : Mapping} (hm : m ∈ t.mappings span gap s) : m.Fits := by
  rcases List.mem_map.mp hm with ⟨i, hi, rfl⟩
  exact ((isValid_of_mem_intervals hi).isExact_form s).fits

theorem isShallow_mappings {m : Mapping} (hm : m ∈ t.mappings span gap s) :
    m.form.IsShallow m.span := by
  rcases List.mem_map.mp hm with ⟨i, hi, rfl⟩
  exact (isValid_of_mem_intervals hi).isShallow_form s

theorem toList_tree (t : Table) (span : Span) (gap : UInt32) (s : Switches) :
    (t.tree span gap s).toList = t.mappings span gap s :=
  Tree.toList_ofList (t.separated_mappings span gap s).ascending

theorem height_tree (t : Table) (span : Span) (gap : UInt32) (s : Switches) :
    (t.tree span gap s).height = (t.tree span gap s).depth :=
  Tree.height_eq_depth (Tree.isHeighted_ofList _)

/-! ## Folding -/

/-- A mapping computes what the table says. -/
theorem apply_of_mem_mappings {m : Mapping} (hm : m ∈ t.mappings span gap s) {c : Codepoint}
    (hc : m.contains c = true) : m.apply c = .ok (t.fold c) ∧ span.contains c = true := by
  rcases List.mem_map.mp hm with ⟨i, hi, rfl⟩
  have hvalid := isValid_of_mem_intervals hi
  rcases hvalid.exists_mem_pairs hc with ⟨v, hv⟩
  rw [fold_of_mem_pairs hi hv]
  exact ⟨(hvalid.isExact_form s).apply _ hv, contains_of_mem_intervals hi hc⟩

/-- Where no mapping holds a codepoint of the span, the table leaves it as it is. -/
theorem fold_of_forall_not_contains {c : Codepoint} (hspan : span.contains c = true)
    (h : ∀ m ∈ t.mappings span gap s, ¬ m.contains c = true) : t.fold c = c := by
  by_contra hfold
  rcases exists_interval_of_fold_ne gap hspan hfold with ⟨i, hi, hc⟩
  exact h (i.classify s) (List.mem_map_of_mem hi) hc

/-- The tree folds the codepoints of its span like the table and leaves all others as they are. -/
theorem fold_tree (t : Table) (span : Span) (gap : UInt32) (s : Switches) (c : Codepoint) :
    (t.tree span gap s).fold c = .ok (if span.contains c = true then t.fold c else c) := by
  have hlist := t.toList_tree span gap s
  have hseparated : Tree.Separated (t.tree span gap s).toList := by
    rw [hlist]
    exact t.separated_mappings span gap s
  rw [Tree.fold_eq_foldList hseparated, hlist, Tree.foldList]
  split
  next m hfind =>
    -- some mapping holds the codepoint, which lies in the span then
    have hc : m.contains c = true := by simpa using List.find?_some hfind
    rcases apply_of_mem_mappings (List.mem_of_find?_eq_some hfind) hc with ⟨happly, hspan⟩
    rw [happly, if_pos hspan]
  next hfind =>
    -- no mapping holds it, so within the span it folds to itself
    have hnone := List.find?_eq_none.mp hfind
    split
    next hspan => rw [fold_of_forall_not_contains hspan hnone]
    next => rfl

/-! ## Making the tree -/

/-- Above an interval there is room for two steps if there is above the span. -/
theorem room_of_mem_intervals (hroom : span.last.toNat + 3 ≤ UInt32.size) {i : Interval}
    (hi : i ∈ t.intervals span gap) : i.first.toNat + i.size + 1 < UInt32.size := by
  have hvalid := isValid_of_mem_intervals hi
  have hspan := (Span.contains_iff.mp (contains_of_mem_intervals hi hvalid.contains_last)).2
  have hnumber := hvalid.toNat_last
  rw [UInt32.le_iff_toNat_le] at hspan
  omega

/-- Nothing goes wrong with an interval of a span that ends early enough. -/
theorem classify?_of_mem_intervals (hroom : span.last.toNat + 3 ≤ UInt32.size) {i : Interval}
    (hi : i ∈ t.intervals span gap) : i.classify? s = .ok (i.classify s) :=
  (isValid_of_mem_intervals hi).classify?_eq_ok s (room_of_mem_intervals hroom hi)

theorem mapM_eq_ok {α β ε : Type} {f : α → Except ε β} {g : α → β} {as : List α}
    (h : ∀ a ∈ as, f a = .ok (g a)) : as.mapM f = .ok (as.map g) := by
  induction as with
  | nil => rfl
  | cons a as ih =>
    rw [List.mapM_cons, h a (by simp), ih fun b hb => h b (by simp [hb])]
    rfl

/-- The tree of a span is made if the bounds are in order and leave room. -/
theorem tree?_eq_ok (t : Table) (hspan : span.first ≤ span.last)
    (hroom : span.last.toNat + 3 ≤ UInt32.size) (gap : UInt32) (s : Switches) :
    t.tree? span gap s = .ok (t.tree span gap s) := by
  have hmappings : (t.intervals span gap).mapM (Interval.classify? s) =
      .ok (t.mappings span gap s) :=
    mapM_eq_ok fun i hi => classify?_of_mem_intervals hroom hi
  rw [tree?, t.intervals?_eq_ok hspan gap]
  change ((t.intervals span gap).mapM (Interval.classify? s)).bind _ = _
  rw [hmappings]
  rfl

/-- For every span with room above it the tree is made, holds the mappings of the intervals in
order, each of which was taken when it came to be inserted, and folds the codepoints of the span
like the table and no others. -/
theorem tree_of_span_folds_like_table (t : Table) {span : Span} (hspan : span.first ≤ span.last)
    (hroom : span.last.toNat + 3 ≤ UInt32.size) (gap : UInt32) (s : Switches) :
    ∃ tree, t.tree? span gap s = .ok tree ∧
      tree.toList = (t.intervals span gap).map (·.classify s) ∧
      (∀ before m after, (t.intervals span gap).map (·.classify s) = before ++ m :: after →
        ((Tree.ofList before).insert m).2 = true) ∧
      ∀ c, tree.fold c = .ok (if span.contains c = true then t.fold c else c) := by
  refine ⟨t.tree span gap s, t.tree?_eq_ok hspan hroom gap s, t.toList_tree span gap s, ?_, ?_⟩
  · intro before m after hsplit
    have hascending := (t.separated_mappings span gap s).ascending
    rw [mappings, hsplit] at hascending
    exact Tree.insert_ofList_of_ascending hascending
  · exact t.fold_tree span gap s

/-- A span that ends at the last codepoint for which there is room, with two intervals in it and
entries outside of it on either side. -/
theorem tree_of_span_folds_like_table_high :
    let t := ofList [(0x41, 0x61), (0xFFFFFFF0, 0xFFFFFFF1), (0xFFFFFFFA, 0xFFFFFFFB),
      (0xFFFFFFFD, 0), (0xFFFFFFFF, 1)]
    let span : Span := ⟨0x42, 0xFFFFFFFD⟩
    let low : Mapping := ⟨⟨0xFFFFFFF0, 0xFFFFFFF0⟩, .single 0xFFFFFFF1⟩
    let high : Mapping := ⟨⟨0xFFFFFFFA, 0xFFFFFFFD⟩,
      .setException ⟨0xFFFFFFFC, 0xFFFFFFFD⟩ (.table [0xFFFFFFFC, 0])⟩
    span.first ≤ span.last ∧ span.last.toNat + 3 ≤ UInt32.size ∧
      (t.intervals span 3).map (·.classify {}) = [low] ++ high :: [] ∧
      ∃ tree, t.tree? span 3 {} = .ok tree ∧ tree.toList = [low, high] ∧
        ((Tree.ofList [low]).insert high).2 = true ∧ tree.fold 0xFFFFFFFD = .ok 0 ∧
        tree.fold 0xFFFFFFFF = .ok 0xFFFFFFFF := by
  intro t span low high
  have hspan : span.first ≤ span.last := by decide
  have hroom : span.last.toNat + 3 ≤ UInt32.size := by decide
  have hsplit : (t.intervals span 3).map (·.classify {}) = [low] ++ high :: [] := by decide
  obtain ⟨tree, htree, hlist, hinsert, hfold⟩ :=
    t.tree_of_span_folds_like_table hspan hroom 3 {}
  exact ⟨hspan, hroom, hsplit, tree, htree, hlist.trans hsplit, hinsert [low] high [] hsplit,
    hfold 0xFFFFFFFD, hfold 0xFFFFFFFF⟩

/-! ## The height of the tree -/

/-- Mappings that are inserted in ascending order make a tree as low as their number allows. So the
tree of a span is as low as the number of its intervals allows. -/
theorem ascending_trees_are_lowest :
    (∀ ms : List Mapping, (ms.Pairwise fun a b => a.first < b.first) →
      (Tree.ofList ms).size = ms.length ∧ (Tree.ofList ms).IsLowest) ∧
    ∀ (t : Table) (span : Span) (gap : UInt32) (s : Switches), span.first ≤ span.last →
      span.last.toNat + 3 ≤ UInt32.size →
        ∃ tree, t.tree? span gap s = .ok tree ∧
          tree.size = (t.intervals span gap).length ∧ tree.IsLowest := by
  have hlowest : ∀ ms : List Mapping, (ms.Pairwise fun a b => a.first < b.first) →
      (Tree.ofList ms).size = ms.length ∧ (Tree.ofList ms).IsLowest := by
    intro ms hms
    refine ⟨by rw [← Tree.length_toList, Tree.toList_ofList hms], ?_⟩
    exact Tree.isLowest_of_isCounter (Tree.isHeighted_ofList ms) (Tree.isCounter_ofList hms)
  refine ⟨hlowest, ?_⟩
  intro t span gap s hspan hroom
  obtain ⟨hsize, htree⟩ := hlowest _ (t.separated_mappings span gap s).ascending
  refine ⟨t.tree span gap s, t.tree?_eq_ok hspan hroom gap s, ?_, htree⟩
  rw [mappings, List.length_map] at hsize
  exact hsize

/-- Six mappings in ascending order, and a table with as many intervals. -/
theorem ascending_trees_are_lowest_six :
    let t := ofList [(0x41, 0x61), (0x4A, 0x6A), (0x58, 0x78), (0xC0, 0xE0), (0x100, 0x101),
      (0x1E9E, 0xDF)]
    let span : Span := ⟨0x41, 0x1E9E⟩
    let ms : List Mapping := [1, 2, 3, 4, 5, 6].map fun c => ⟨⟨c, c⟩, .set⟩
    (ms.Pairwise fun a b => a.first < b.first) ∧ (Tree.ofList ms).height = 3 ∧
      span.first ≤ span.last ∧ span.last.toNat + 3 ≤ UInt32.size ∧
      ∃ tree, t.tree? span 4 {} = .ok tree ∧ tree.size = 6 ∧ tree.height = 3 := by
  intro t span ms
  have hms : ms.Pairwise fun a b => a.first < b.first := by decide
  have hspan : span.first ≤ span.last := by decide
  have hroom : span.last.toNat + 3 ≤ UInt32.size := by decide
  have hsix : (t.intervals span 4).length = 6 := by decide
  obtain ⟨hsize, hlowest⟩ := ascending_trees_are_lowest.1 ms hms
  obtain ⟨tree, htree, hsize', hlowest'⟩ := ascending_trees_are_lowest.2 t span 4 {} hspan hroom
  rw [hsix] at hsize'
  refine ⟨hms, ?_, hspan, hroom, tree, htree, hsize', ?_⟩
  · rw [hlowest.height_eq_length, hsize]
    rfl
  · rw [hlowest'.height_eq_length, hsize']
    rfl

end CaseFolding.Table
