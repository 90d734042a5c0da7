import CaseFolding.Listing
import CaseFolding.Proofs.Code.Dispatch
import CaseFolding.Proofs.Code.Readable
import CaseFolding.Proofs.Table.Tree

namespace CaseFolding

/-! # What the text of a listing does

The text of the code for a tree, read and run, delivers what the search of the
tree finds. So the text of the code for a table delivers what the table says.
-/

/-! ## Listings of trees -/

namespace Tree

/-- The text for an ordered tree that fits its spans delivers what the search of the tree finds. -/
theorem runText_listing {t : Tree} (ht : t.Ordered) (hheight : t.height = t.depth)
    (hfits : ∀ m ∈ t.toList, m.Fits) {var : String} (hvar : Code.IsIdentifier var) {sink : Sink}
    (hsink : sink.IsNamed) {c v : Codepoint} (hv : t.fold c = .ok v) :
    ∃ outcome, Code.runText var (t.listing var sink).text c = some outcome ∧
      sink.Delivers v outcome ∧ outcome.2.comparisons ≤ t.comparisons :=
  ⟨_, Code.runText_text hvar (isReadable_code hsink t) c, delivers_code ht hheight hfits hv⟩

/-- Whatever mappings are inserted and in whatever order, the text of the code delivers for every
codepoint what the search of the tree finds. -/
theorem text_follows_search {ms : List Mapping} (hfits : ∀ m ∈ ms, m.Fits) {var : String}
    (hvar : Code.IsIdentifier var) {sink : Sink} (hsink : sink.IsNamed) (c : Codepoint) :
    ∃ v outcome, (ofList ms).fold c = .ok v ∧
      Code.runText var ((ofList ms).listing var sink).text c = some outcome ∧
      sink.Delivers v outcome := by
  have hfits : ∀ m ∈ (ofList ms).toList, m.Fits := fun m hm => hfits m (mem_of_mem_ofList hm)
  have hheight := height_eq_depth (isHeighted_ofList ms)
  rcases exists_fold_eq_ok hfits c with ⟨v, hv⟩
  obtain ⟨outcome, hrun, hdelivers, -⟩ :=
    runText_listing (ordered_ofList ms) hheight hfits hvar hsink hv
  exact ⟨v, outcome, hv, hrun, hdelivers⟩

/-- A patch that shares a bound with its mapping and holds a patch of its own, between two other
mappings that were inserted out of order. -/
theorem text_follows_search_nested :
    let ms : List Mapping :=
      [⟨⟨0x200, 0x21A⟩, .delta (-32)⟩,
       ⟨⟨0x100, 0x103⟩, .setException ⟨0x100, 0x102⟩
         (.setException ⟨0x102, 0x102⟩ (.table [0x1FFFFF]))⟩,
       ⟨⟨0x41, 0x46⟩, .deltaException 32 0x43 0x99⟩]
    (∀ m ∈ ms, m.Fits) ∧ Code.IsIdentifier "c" ∧ (Sink.toVariable "r").IsNamed ∧
      (ofList ms).fold 0x102 = .ok 0x1FFFFF ∧
      ∃ outcome,
        Code.runText "c" ((ofList ms).listing "c" (.toVariable "r")).text 0x102 = some outcome ∧
        (Sink.toVariable "r").Delivers 0x1FFFFF outcome := by
  intro ms
  have hfits : ∀ m ∈ ms, m.Fits := by decide
  have hvar : Code.IsIdentifier "c" := by decide
  have hsink : (Sink.toVariable "r").IsNamed := by decide
  have hfold : (ofList ms).fold 0x102 = .ok 0x1FFFFF := by decide
  rcases text_follows_search hfits hvar hsink 0x102 with ⟨v, outcome, hv, hrun, hdelivers⟩
  rcases Except.ok.inj (hfold.symm.trans hv) with rfl
  exact ⟨hfits, hvar, hsink, hfold, outcome, hrun, hdelivers⟩

end Tree

/-! ## Listings of tables -/

namespace Table

/-- The text for the tree of a span folds its codepoints like the table and no others. -/
theorem runText_listing_tree (t : Table) (span : Span) (gap : UInt32) (s : Switches)
    {var : String} (hvar : Code.IsIdentifier var) {sink : Sink} (hsink : sink.IsNamed)
    (c : Codepoint) :
    ∃ outcome, Code.runText var ((t.tree span gap s).listing var sink).text c = some outcome ∧
      sink.Delivers (if span.contains c = true then t.fold c else c) outcome ∧
      outcome.2.comparisons ≤ (t.tree span gap s).comparisons := by
  have hfits : ∀ m ∈ (t.tree span gap s).toList, m.Fits := by
    intro m hm
    rw [toList_tree] at hm
    exact fits_mappings hm
  exact Tree.runText_listing (Tree.ordered_ofList _) (t.height_tree span gap s) hfits hvar hsink
    (t.fold_tree span gap s c)

/-- The tree of a span takes two comparisons for each of its levels and two for the form at the
end. -/
theorem comparisons_tree_le (t : Table) (span : Span) (gap : UInt32) (s : Switches) :
    (t.tree span gap s).comparisons ≤ 2 * (t.tree span gap s).height + 2 := by
  rw [height_tree]
  apply Tree.comparisons_le
  intro m hm
  rw [toList_tree] at hm
  exact (isShallow_mappings hm).guards_le

theorem contains_folded (c : Codepoint) :
    Span.folded.contains c = true ↔ c ≤ largestCodepoint := by
  rw [Span.contains_iff]
  exact and_iff_right (UInt32.le_iff_toNat_le.mpr (Nat.zero_le _))

/-- The text of single-width code, whatever the table and the settings, delivers what the table
says for every codepoint up to the largest one, and every codepoint above as it is. -/
theorem text_folds_like_table (t : Table) (config : Config) {var : String}
    (hvar : Code.IsIdentifier var) {sink : Sink} (hsink : sink.IsNamed) (c : Codepoint) :
    ∃ outcome, Code.runText var (t.listing config var sink).text c = some outcome ∧
      sink.Delivers (if c ≤ largestCodepoint then t.fold c else c) outcome := by
  obtain ⟨outcome, hrun, hdelivers, -⟩ :=
    t.runText_listing_tree Span.folded config.gap config.switches hvar hsink c
  simp only [contains_folded] at hdelivers
  exact ⟨outcome, hrun, hdelivers⟩

/-- A table whose entries meet four rules and reach beyond the largest codepoint. -/
theorem text_folds_like_table_mixed :
    let t := ofList [(0x41, 0x61), (0x42, 0x62), (0x100, 0x101), (0x102, 0x103), (0x103, 0x200),
      (0x104, 0x105), (0x1E9E, 0xDF), (0x1FFFFF, 0x20), (0x200000, 0x21)]
    let config : Config := ⟨2, 0, { delta := false, reset := true }⟩
    Code.IsIdentifier "c" ∧ Sink.toCaller.IsNamed ∧
      ∃ outcome, Code.runText "c" (t.listing config "c" .toCaller).text 0x1FFFFF = some outcome ∧
        Sink.toCaller.Delivers 0x20 outcome := by
  intro t config
  have hvar : Code.IsIdentifier "c" := by decide
  have hsink : Sink.toCaller.IsNamed := by decide
  exact ⟨hvar, hsink, t.text_folds_like_table config hvar hsink 0x1FFFFF⟩

end Table

end CaseFolding
