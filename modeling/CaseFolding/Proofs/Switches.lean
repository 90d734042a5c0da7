import CaseFolding.Proofs.Code.Landmark
import CaseFolding.Proofs.Code.Measure
import CaseFolding.Proofs.Code.Readable
import CaseFolding.Proofs.Mapping.Bytes
import CaseFolding.Proofs.Mapping.Reset
import CaseFolding.Proofs.Table.Tree
import CaseFolding.Utf8
import Mathlib.Algebra.Order.BigOperators.Group.List

namespace CaseFolding

/-! # What the switches change

The switches have a say in the forms of mappings and in nothing else. The tree
keeps its shape and its spans whatever is switched on, and so do the landmarks
of its text. With more switches on, the lookup tables take no more bytes. One
switch changes nothing at all, for its rule never applies.
-/

/-! ## Bytes of lookup tables -/

namespace Table

variable {s s' : Switches}

/-- The bytes for a tree are those for its intervals. -/
theorem dataSize_tree (t : Table) (span : Span) (gap : UInt32) (s : Switches) :
    (Stats.ofTree (t.tree span gap s)).dataSize =
      ((t.intervals span gap).map fun i => (i.form s).tableBytes).sum := by
  change (t.tree span gap s).total _ = _
  rw [Tree.total_eq_sum, toList_tree, mappings, List.map_map]
  rfl

theorem dataSize_tree_le (t : Table) (span : Span) (gap : UInt32) (h : s.IsWithin s') :
    (Stats.ofTree (t.tree span gap s')).dataSize ≤ (Stats.ofTree (t.tree span gap s)).dataSize := by
  rw [dataSize_tree, dataSize_tree]
  apply List.sum_le_sum
  intro i hi
  exact (isValid_of_mem_intervals hi).tableBytes_form_le h

/-- The lookup tables of a table's texts take no more bytes with one configuration than with
another. -/
structure TakesNoMore (t : Table) (config config' : Config) : Prop where
  /-- This is so for single-width code. -/
  single : ∀ var sink,
    (t.listing config var sink).stats.dataSize ≤ (t.listing config' var sink).stats.dataSize
  /-- It is so for the arm of each length. -/
  arms : ∀ var target,
    List.Forall₂
      (fun arm arm' => arm.length = arm'.length ∧
        arm.listing.stats.dataSize ≤ arm'.listing.stats.dataSize)
      (t.arms config var target) (t.arms config' var target)

/-- With more rules switched on, no text takes more bytes. -/
theorem takesNoMore_of_isWithin (t : Table) (config : Config) (h : s.IsWithin s') :
    t.TakesNoMore { config with switches := s' } { config with switches := s } where
  single _ _ := t.dataSize_tree_le Span.folded config.gap h
  arms _ _ := by
    rw [Table.arms, Table.arms, List.forall₂_map_left_iff, List.forall₂_map_right_iff,
      List.forall₂_same]
    intro n _
    exact ⟨rfl, t.dataSize_tree_le n.span config.utf8Gap h⟩

/-- Switching on more rules never costs bytes of lookup tables, whatever the table and the gaps, in
single-width code and in every arm. No choice of rules is worse than having none. -/
theorem more_rules_take_no_more_bytes (t : Table) (config : Config) :
    (∀ s s' : Switches, s.IsWithin s' →
      t.TakesNoMore { config with switches := s' } { config with switches := s }) ∧
    ∀ s : Switches,
      t.TakesNoMore { config with switches := s } { config with switches := .tablesOnly } := by
  constructor
  · intro s s' h
    exact t.takesNoMore_of_isWithin config h
  · intro s
    exact t.takesNoMore_of_isWithin config s.tablesOnly_isWithin

/-- Two intervals whose exceptions make a run, which the only rule added here is for. -/
theorem more_rules_take_no_more_bytes_run :
    let t := ofList [(0x90, 0x91), (0x92, 0x41), (0x100, 0x101), (0x102, 0x300), (0x103, 0x41),
      (0x104, 0x105), (0x106, 0x107)]
    let config : Config := { gap := 2, utf8Gap := 2 }
    let few : Switches := { deltaException := false, set := false, setException := false }
    let more : Switches := { few with setException := true }
    few.IsWithin more ∧
      (t.listing { config with switches := few } "c" .toCaller).stats.dataSize = 17 ∧
      (t.listing { config with switches := more } "c" .toCaller).stats.dataSize = 4 ∧
      t.TakesNoMore { config with switches := more } { config with switches := few } ∧
      t.TakesNoMore { config with switches := few } { config with switches := .tablesOnly } := by
  intro t config few more
  have hwithin : few.IsWithin more := by
    intro r hr
    cases r <;> first | exact hr | rfl
  have hfew : (t.listing { config with switches := few } "c" .toCaller).stats.dataSize = 17 := by
    decide
  have hmore : (t.listing { config with switches := more } "c" .toCaller).stats.dataSize = 4 := by
    decide
  rcases t.more_rules_take_no_more_bytes config with ⟨hrules, hnone⟩
  exact ⟨hwithin, hfew, hmore, hrules few more hwithin, hnone few⟩

end Table

/-! ## Layout -/

/-- The mapping of the same span with a form that is the same for all spans. -/
def Mapping.outline (m : Mapping) : Mapping := ⟨m.span, .set⟩

namespace Table

/-- The tree of a table keeps no trace of the switches when its mappings lose their forms. -/
theorem map_outline_tree (t : Table) (span : Span) (gap : UInt32) (s : Switches) :
    (t.tree span gap s).map Mapping.outline =
      Tree.ofList ((t.intervals span gap).map fun i => ⟨i.span, .set⟩) := by
  have hfirst : ∀ m : Mapping, m.outline.first = m.first := fun _ => rfl
  rw [tree, Tree.ofIntervals, Tree.map_ofList hfirst, List.map_map]
  rfl

/-- Whatever is switched on, the tree of a span has the same shape with the same span at each
place, so it has the same height. The landmarks of its text are the same as well and stand in the
same order, whatever the variable is called and wherever the results go; under fitting names the
text reads as the code with these landmarks. -/
theorem switches_keep_layout (t : Table) {span : Span} (hspan : span.first ≤ span.last)
    (hroom : span.last.toNat + 3 ≤ UInt32.size) (gap : UInt32) (s s' : Switches) :
    ∃ tree tree', t.tree? span gap s = .ok tree ∧ t.tree? span gap s' = .ok tree' ∧
      tree.places.map (Option.map Mapping.span) = tree'.places.map (Option.map Mapping.span) ∧
      tree.height = tree'.height ∧
      ∀ (var : String) (sink : Sink), ∃ program program',
        (tree.listing var sink).text = program.text var ∧
        (tree'.listing var sink).text = program'.text var ∧
        program.landmarks = program'.landmarks ∧
        (Code.IsIdentifier var → sink.IsNamed →
          Code.read? var (tree.listing var sink).text = some program ∧
          Code.read? var (tree'.listing var sink).text = some program') := by
  have htree : (t.tree span gap s).map Mapping.outline =
      (t.tree span gap s').map Mapping.outline :=
    (t.map_outline_tree span gap s).trans (t.map_outline_tree span gap s').symm
  have hspans : ∀ tree : Tree, (tree.map Mapping.outline).places.map (Option.map Mapping.span) =
      tree.places.map (Option.map Mapping.span) := by
    intro tree
    rw [Tree.places_map, List.map_map]
    exact List.map_congr_left fun m _ => Option.map_map _ _ m
  refine ⟨t.tree span gap s, t.tree span gap s', t.tree?_eq_ok hspan hroom gap s,
    t.tree?_eq_ok hspan hroom gap s', ?_, ?_, ?_⟩
  · rw [← hspans, htree, hspans]
  · rw [← Tree.height_map (f := Mapping.outline), htree, Tree.height_map]
  · intro var sink
    have hsame : ∀ m : Mapping, m.outline.span = m.span := fun _ => rfl
    refine ⟨_, _, rfl, rfl, ?_, ?_⟩
    · rw [← Tree.landmarks_code_map hsame, htree, Tree.landmarks_code_map hsame]
    · intro hvar hsink
      exact ⟨Code.read?_text hvar (Tree.isReadable_code hsink _),
        Code.read?_text hvar (Tree.isReadable_code hsink _)⟩

/-- Three intervals up to the last codepoint for which there is room, with three lookup tables and
with none. -/
theorem switches_keep_layout_high :
    let t := ofList [(0x41, 0x61), (0x42, 0x62), (0x100, 0x101), (0x102, 0x103),
      (0xFFFFFFFC, 0xFFFFFFFD), (0xFFFFFFFD, 0)]
    let span : Span := ⟨0x41, 0xFFFFFFFD⟩
    span.first ≤ span.last ∧ span.last.toNat + 3 ≤ UInt32.size ∧
      Code.IsIdentifier "c" ∧ (Sink.toVariable "r").IsNamed ∧
      (t.tree span 2 .tablesOnly).toList.map (·.form.kind) = [.table, .table, .table] ∧
      (t.tree span 2 {}).toList.map (·.form.kind) = [.delta, .set, .setException] ∧
      ∃ tree tree', t.tree? span 2 .tablesOnly = .ok tree ∧ t.tree? span 2 {} = .ok tree' ∧
        tree.places.map (Option.map Mapping.span) = tree'.places.map (Option.map Mapping.span) ∧
        tree.height = tree'.height ∧
        ∃ program program',
          Code.read? "c" (tree.listing "c" (.toVariable "r")).text = some program ∧
          Code.read? "c" (tree'.listing "c" (.toVariable "r")).text = some program' ∧
          program.landmarks = program'.landmarks := by
  intro t span
  have hspan : span.first ≤ span.last := by decide
  have hroom : span.last.toNat + 3 ≤ UInt32.size := by decide
  have hvar : Code.IsIdentifier "c" := by decide
  have hsink : (Sink.toVariable "r").IsNamed := by decide
  have htables : (t.tree span 2 .tablesOnly).toList.map (·.form.kind) = [.table, .table, .table] := by
    decide
  have hforms : (t.tree span 2 {}).toList.map (·.form.kind) = [.delta, .set, .setException] := by
    decide
  obtain ⟨tree, tree', htree, htree', hplaces, hheight, htexts⟩ :=
    t.switches_keep_layout hspan hroom 2 .tablesOnly {}
  obtain ⟨program, program', -, -, hlandmarks, hread⟩ := htexts "c" (.toVariable "r")
  rcases hread hvar hsink with ⟨hprogram, hprogram'⟩
  exact ⟨hspan, hroom, hvar, hsink, htables, hforms, tree, tree', htree, htree', hplaces, hheight,
    program, program', hprogram, hprogram', hlandmarks⟩

end Table

/-! ## A switch without effect -/

namespace Table

variable {s s' : Switches}

/-- The mappings of a table do not depend on the switch of the rule that never applies. -/
theorem mappings_congr (t : Table) (span : Span) (gap : UInt32) (h : s.AgreesBut .reset s') :
    t.mappings span gap s = t.mappings span gap s' := by
  apply List.map_congr_left
  intro i hi
  exact (isValid_of_mem_intervals hi).classify_congr h

theorem tree_congr (t : Table) (span : Span) (gap : UInt32) (h : s.AgreesBut .reset s') :
    t.tree span gap s = t.tree span gap s' :=
  congrArg Tree.ofList (t.mappings_congr span gap h)

theorem treeRecords_congr (t : Table) (span : Span) (gap : UInt32) (h : s.AgreesBut .reset s') :
    t.treeRecords span gap s = t.treeRecords span gap s' := by
  refine congrArg (_ ++ ·) (List.flatMap_congr ?_)
  intro i hi
  exact (isValid_of_mem_intervals hi).classifyRecords_congr h

/-- No mapping of a table is of the kind in question or holds a form of it. -/
theorem reset_notMem_kinds {t : Table} {span : Span} {gap : UInt32} {m : Mapping}
    (hm : m ∈ t.mappings span gap s) : Kind.reset ∉ m.form.kinds := by
  rcases List.mem_map.mp hm with ⟨i, hi, rfl⟩
  exact (isValid_of_mem_intervals hi).reset_notMem_kinds_form s

/-- One rule might as well be switched off, whatever else is switched on, although it is tried before
another one. Of two codepoints or more with room above them, it never counts all, and the same form
is chosen with it and without it. So the tree of a span with room above it is the same, is made with
the same reports, and has no mapping of that kind, nor one that holds a form of that kind. Every text
and all statistics are the same as well. -/
theorem reset_changes_nothing (t : Table) (s : Switches) :
    [Rule.reset, Rule.setException].Sublist Rule.inOrder ∧
    (∀ i : Interval, 2 ≤ i.size → i.first.toNat + i.size + 1 < UInt32.size →
      (∃ k, Census.ofInterval? i = .ok k ∧ k.reset < i.size) ∧
      i.formByCount? { s with reset := true } = i.formByCount? { s with reset := false }) ∧
    (∀ span : Span, span.first ≤ span.last → span.last.toNat + 3 ≤ UInt32.size → ∀ gap,
      ∃ tree, t.tree? span gap { s with reset := true } = .ok tree ∧
        t.tree? span gap { s with reset := false } = .ok tree ∧
        t.treeRecords span gap { s with reset := true } =
          t.treeRecords span gap { s with reset := false } ∧
        ∀ m ∈ tree.toList, Kind.reset ∉ m.form.kinds) ∧
    ∀ (config : Config) (var : String),
      (∀ sink, t.listing { config with switches := { s with reset := true } } var sink =
        t.listing { config with switches := { s with reset := false } } var sink) ∧
      ∀ target, t.arms { config with switches := { s with reset := true } } var target =
        t.arms { config with switches := { s with reset := false } } var target := by
  have hagree : ({ s with reset := true } : Switches).AgreesBut .reset { s with reset := false } :=
    ({ s with reset := false } : Switches).agreesBut_reset true
  refine ⟨by decide, ?_, ?_, ?_⟩
  · intro i hsize hroom
    have hi : i.IsValid := ⟨by omega, by omega⟩
    exact ⟨hi.exists_census_reset_lt (by omega) hroom, hi.formByCount?_congr hroom hagree⟩
  · intro span hspan hroom gap
    have htree := t.tree_congr span gap hagree
    refine ⟨t.tree span gap { s with reset := false }, ?_, t.tree?_eq_ok hspan hroom gap _,
      t.treeRecords_congr span gap hagree, ?_⟩
    · rw [← htree]
      exact t.tree?_eq_ok hspan hroom gap _
    · intro m hm
      rw [toList_tree] at hm
      exact reset_notMem_kinds hm
  · intro config var
    constructor
    · intro sink
      exact congrArg (Tree.listing · var sink) (t.tree_congr Span.folded config.gap hagree)
    · intro target
      apply List.map_congr_left
      intro n _
      have htree := t.tree_congr n.span config.utf8Gap hagree
      exact congrArg (fun tree => Arm.mk n (Tree.listing tree var (.toVariable target))) htree

/-- A form that another rule finds only because the rule in question finds nothing, up to the last
codepoint for which there is room. -/
theorem reset_changes_nothing_high :
    let t := ofList [(0x41, 0x61), (0x42, 0x62), (0xFFFFFFFC, 0xFFFFFFFD), (0xFFFFFFFD, 0)]
    let span : Span := ⟨0x41, 0xFFFFFFFD⟩
    let high : Interval := ⟨0xFFFFFFFC, [0xFFFFFFFD, 0]⟩
    span.first ≤ span.last ∧ span.last.toNat + 3 ≤ UInt32.size ∧
      2 ≤ high.size ∧ high.first.toNat + high.size + 1 < UInt32.size ∧
      (∃ k, Census.ofInterval? high = .ok k ∧ k.reset < 2) ∧
      ∃ tree, t.tree? span 4 { reset := true } = .ok tree ∧ t.tree? span 4 {} = .ok tree ∧
        tree.toList.map (·.form.kinds) = [[.delta], [.setException, .single]] ∧
        ∀ m ∈ tree.toList, Kind.reset ∉ m.form.kinds := by
  intro t span high
  have hspan : span.first ≤ span.last := by decide
  have hroom : span.last.toNat + 3 ≤ UInt32.size := by decide
  have hsize : 2 ≤ high.size := by decide
  have hroom' : high.first.toNat + high.size + 1 < UInt32.size := by decide
  have hkinds : (t.tree span 4 {}).toList.map (·.form.kinds) =
      [[.delta], [.setException, .single]] := by decide
  obtain ⟨-, hcounts, htrees, -⟩ := t.reset_changes_nothing {}
  obtain ⟨tree, hon, hoff, -, hnone⟩ := htrees span hspan hroom 4
  have hsame := Except.ok.inj (hoff.symm.trans (t.tree?_eq_ok hspan hroom 4 {}))
  refine ⟨hspan, hroom, hsize, hroom', (hcounts high hsize hroom').1, tree, hon, hoff, ?_, hnone⟩
  rw [hsame]
  exact hkinds

end Table

end CaseFolding
