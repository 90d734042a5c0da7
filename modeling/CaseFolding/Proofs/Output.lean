import CaseFolding.Proofs.Code.Name
import CaseFolding.Proofs.Utf8

namespace CaseFolding

/-! # What all texts have in common

The text of single-width code and the texts of the arms are made in one way, so
one argument covers them: each delivers its result after few comparisons, control
flows forward through it, and no two of its names are the same. The arms even
share no names among each other and can stand in one function.
-/

namespace Table

/-! ## Comparisons -/

/-- Until it delivers its result, a text makes no more than two comparisons for each level that its
statistics report and two more: the text of single-width code, wherever it delivers, and the text
of each arm. -/
theorem comparisons_within_height (t : Table) (config : Config) {var : String}
    (hvar : Code.IsIdentifier var) :
    (∀ sink : Sink, sink.IsNamed → ∀ c, ∃ v outcome,
      Code.runText var (t.listing config var sink).text c = some outcome ∧
        sink.Delivers v outcome ∧
        outcome.2.comparisons ≤ 2 * (t.listing config var sink).stats.height + 2) ∧
      ∀ target, Code.IsIdentifier target → ∀ arm ∈ t.arms config var target, ∀ c, ∃ v outcome,
        Code.runText var arm.listing.text c = some outcome ∧
          (Sink.toVariable target).Delivers v outcome ∧
          outcome.2.comparisons ≤ 2 * arm.listing.stats.height + 2 := by
  have htree : ∀ (span : Span) (gap : UInt32) (sink : Sink), sink.IsNamed → ∀ c, ∃ v outcome,
      Code.runText var ((t.tree span gap config.switches).listing var sink).text c = some outcome ∧
        sink.Delivers v outcome ∧
        outcome.2.comparisons ≤ 2 * (t.tree span gap config.switches).height + 2 := by
    intro span gap sink hsink c
    obtain ⟨outcome, hrun, hdelivers, hmade⟩ :=
      t.runText_listing_tree span gap config.switches hvar hsink c
    have hle := t.comparisons_tree_le span gap config.switches
    exact ⟨_, outcome, hrun, hdelivers, Nat.le_trans hmade hle⟩
  refine ⟨htree Span.folded config.gap, ?_⟩
  intro target htarget arm harm
  rcases List.mem_map.mp harm with ⟨n, -, rfl⟩
  exact htree n.span config.utf8Gap (.toVariable target) htarget

/-- A table whose second arm is a tree of two levels, with an inner span at the end of the longest
way down. -/
theorem comparisons_within_height_inner :
    let t := ofList [(0x41, 0x61), (0x90, 0x91), (0x100, 0x101), (0x102, 0x300), (0x103, 0x301),
      (0x104, 0x105)]
    let config : Config := { gap := 2, utf8Gap := 2 }
    let arm : Arm := ⟨.two, (t.armTree config .two).listing "c" (.toVariable "r")⟩
    Code.IsIdentifier "c" ∧ Code.IsIdentifier "r" ∧ Sink.toCaller.IsNamed ∧
      arm ∈ t.arms config "c" "r" ∧ arm.listing.stats.height = 2 ∧
      (∃ v outcome, Code.runText "c" (t.listing config "c" .toCaller).text 0x103 = some outcome ∧
        Sink.toCaller.Delivers v outcome ∧
        outcome.2.comparisons ≤ 2 * (t.listing config "c" .toCaller).stats.height + 2) ∧
      ∃ v outcome, Code.runText "c" arm.listing.text 0x103 = some outcome ∧
        (Sink.toVariable "r").Delivers v outcome ∧ outcome.2.comparisons ≤ 2 * 2 + 2 := by
  intro t config arm
  have hvar : Code.IsIdentifier "c" := by decide
  have htarget : Code.IsIdentifier "r" := by decide
  have hsink : Sink.toCaller.IsNamed := trivial
  have harm : arm ∈ t.arms config "c" "r" := List.mem_map_of_mem (by decide)
  have hheight : arm.listing.stats.height = 2 := by decide
  rcases t.comparisons_within_height config hvar with ⟨hsingle, harms⟩
  obtain ⟨v, outcome, hrun, hdelivers, hmade⟩ := harms "r" htarget arm harm 0x103
  rw [hheight] at hmade
  exact ⟨hvar, htarget, hsink, harm, hheight, hsingle .toCaller hsink 0x103,
    v, outcome, hrun, hdelivers, hmade⟩

/-- All six comparisons are made there. -/
example :
    let t := ofList [(0x41, 0x61), (0x90, 0x91), (0x100, 0x101), (0x102, 0x300), (0x103, 0x301),
      (0x104, 0x105)]
    let tree := t.armTree { gap := 2, utf8Gap := 2 } .two
    tree.height = 2 ∧ ((tree.code (.toVariable "r")).run 0x103).2.comparisons = 6 := by
  decide

/-! ## Names -/

/-- Two arms share no name. -/
theorem disjoint_names_armTree (t : Table) (config : Config) (sink : Sink) {m n : Utf8Length}
    (h : m ≠ n) :
    List.Disjoint ((t.armTree config m).code sink).names ((t.armTree config n).code sink).names := by
  intro name hm hn
  rcases exists_span_of_mem_names hm with ⟨s, hs, hname⟩
  rcases exists_span_of_mem_names hn with ⟨s', hs', hname'⟩
  -- the span of the name would start in both lengths
  rw [← hname.unique hname'] at hs'
  exact h ((Utf8Length.eq_byBounds hs).trans (Utf8Length.eq_byBounds hs').symm)

end Table

/-- Whatever mappings are inserted and wherever results go, control flows through the text of the
code as it should. The names of labels and lookup tables in the text for a table are different,
whatever the settings, and so are those in the texts of all arms taken together. -/
theorem flow_forward_and_names_distinct {var : String} (hvar : Code.IsIdentifier var) :
    (∀ (ms : List Mapping) (sink : Sink), sink.IsNamed → ∃ program blocks,
      Code.read? var ((Tree.ofList ms).listing var sink).text = some program ∧
        (Tree.ofList ms).IsFlow sink program blocks) ∧
      (∀ (t : Table) (config : Config) (sink : Sink), sink.IsNamed → ∃ program,
        Code.read? var (t.listing config var sink).text = some program ∧ program.names.Nodup) ∧
      ∀ (t : Table) (config : Config) (target : String), Code.IsIdentifier target → ∃ programs,
        (t.arms config var target).mapM (fun arm => Code.read? var arm.listing.text) =
            some programs ∧
          (programs.flatMap Code.names).Nodup := by
  have hread : ∀ (t : Tree) (sink : Sink), sink.IsNamed →
      Code.read? var (t.listing var sink).text = some (t.code sink) :=
    fun t sink hsink => Code.read?_text hvar (Tree.isReadable_code hsink t)
  refine ⟨?_, ?_, ?_⟩
  · intro ms sink hsink
    have hheight := Tree.height_eq_depth (Tree.isHeighted_ofList ms)
    exact ⟨_, _, hread _ sink hsink, Tree.isFlow_code sink (Tree.ordered_ofList ms) hheight⟩
  · intro t config sink hsink
    exact ⟨_, hread _ sink hsink, t.nodup_names_tree Span.folded config.gap config.switches sink⟩
  · intro t config target htarget
    let programs := Utf8Length.all.map fun n => (t.armTree config n).code (.toVariable target)
    refine ⟨programs, ?_, ?_⟩
    · rw [Table.arms, List.mapM_map]
      exact Code.Reader.mapM_eq_some fun n _ => hread _ (.toVariable target) htarget
    · have hall : Utf8Length.all.Pairwise (· ≠ ·) := by decide
      rw [List.flatMap_map, List.nodup_flatMap]
      refine ⟨?_, hall.imp fun hne => t.disjoint_names_armTree config (.toVariable target) hne⟩
      intro n _
      exact t.nodup_names_tree n.span config.utf8Gap config.switches (.toVariable target)

/-- Three mappings inserted out of order, with a lookup table of an inner span, and a table whose
first two arms have a lookup table each. -/
theorem flow_forward_and_names_distinct_tables :
    let ms : List Mapping :=
      [⟨⟨0x200, 0x202⟩, .table [1, 2, 3]⟩,
       ⟨⟨0x100, 0x10F⟩, .setException ⟨0x104, 0x106⟩ (.table [7, 8, 9])⟩,
       ⟨⟨0x41, 0x5A⟩, .delta 32⟩]
    let t := Table.ofList [(0x41, 0x61), (0x42, 0x7A), (0x43, 0x63), (0x7F, 0x1), (0x80, 0x3),
      (0x81, 0x300), (0x1E9E, 0xDF)]
    let config : Config := { gap := 1, utf8Gap := 1 }
    Code.IsIdentifier "c" ∧ Code.IsIdentifier "r" ∧ Sink.toCaller.IsNamed ∧
      (∃ program blocks,
        Code.read? "c" ((Tree.ofList ms).listing "c" .toCaller).text = some program ∧
          (Tree.ofList ms).IsFlow .toCaller program blocks ∧ blocks.length = 2) ∧
      (∃ program, Code.read? "c" (t.listing config "c" .toCaller).text = some program ∧
        program.names.Nodup) ∧
      ∃ programs, (t.arms config "c" "r").mapM (fun arm => Code.read? "c" arm.listing.text) =
          some programs ∧
        (programs.flatMap Code.names).Nodup := by
  intro ms t config
  have hvar : Code.IsIdentifier "c" := by decide
  have htarget : Code.IsIdentifier "r" := by decide
  have hsink : Sink.toCaller.IsNamed := trivial
  obtain ⟨htrees, htables, harms⟩ := flow_forward_and_names_distinct hvar
  rcases htrees ms .toCaller hsink with ⟨program, blocks, hread, hflow⟩
  have hlength : blocks.length = 2 := hflow.blocks_perm.length_eq
  exact ⟨hvar, htarget, hsink, ⟨program, blocks, hread, hflow, hlength⟩,
    htables t config .toCaller hsink, harms t config "r" htarget⟩

end CaseFolding
