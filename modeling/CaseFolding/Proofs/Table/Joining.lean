import CaseFolding.Proofs.Table.Basic
import CaseFolding.Proofs.Table.Text

namespace CaseFolding.Table

/-! # Texts joined

A text may be cut at any line feed: the table of the whole is the table of the first
part, extended by the entries of the second one. A table is known by the entry of
every codepoint, and the last entry that is inserted for a codepoint is the one that
counts, so nothing else has to be known about the two parts. How the lines are ended
does not matter at all.
-/

variable {s t : Table}

/-! ## Tables extended -/

/-- A table is known by the entry of every codepoint. -/
theorem eq_of_get?_eq (h : ∀ c, s.get? c = t.get? c) : s = t := by
  refine Table.ext (eq_of_mem_iff s.ascending t.ascending ?_)
  rintro ⟨c, v⟩
  rw [← get?_eq_some_iff, ← get?_eq_some_iff, h]

theorem ofList_entries (t : Table) : ofList t.entries = t :=
  Table.ext (entries_ofList t.ascending)

/-- Entries that are inserted count before those that were there. -/
theorem get?_insertAll (t : Table) (es : List Entry) (c : Codepoint) :
    (t.insertAll es).get? c = ((ofList es).get? c).or (t.get? c) := by
  induction es using List.reverseRecOn with
  | nil => rfl
  | append_singleton es e ih =>
    have hlast : t.insertAll (es ++ [e]) = (t.insertAll es).insert e.1 e.2 := by
      rw [insertAll, List.foldl_append]
      rfl
    rw [hlast, ofList_concat, get?_insert, get?_insert, ih]
    split
    next => rfl
    next => rfl

/-- It does not matter whether entries are inserted as they come or as those of their table. -/
theorem insertAll_entries_ofList (t : Table) (es : List Entry) :
    t.insertAll (ofList es).entries = t.insertAll es := by
  refine eq_of_get?_eq fun c => ?_
  rw [get?_insertAll, get?_insertAll, ofList_entries]

theorem ofList_append (es ds : List Entry) :
    ofList (es ++ ds) = (ofList es).insertAll (ofList ds).entries := by
  rw [insertAll_entries_ofList, ofList, insertAll, List.foldl_append]
  rfl

/-! ## Texts -/

/-- The table of a text, piece by piece. -/
theorem ofText_eq_ofList_splitOn (text : String) :
    ofText text = ofList ((text.toList.splitOn '\n').filterMap Row.read?) :=
  ofText_eq_ofList (Text.isLines_splitOn text.toList)

/-- Whatever two texts are, the table of both, with a line feed between them, is that of the first
one extended by that of the second one, whose entries count before the others. And if every line
feed of a text is exchanged for a carriage return and a line feed, its table stays as it is. -/
theorem joined_texts_extend_tables (a b : String) :
    ofText (a ++ "\n" ++ b) = (ofText a).insertAll (ofText b).entries ∧
      (∀ c, (ofText (a ++ "\n" ++ b)).get? c = ((ofText b).get? c).or ((ofText a).get? c)) ∧
      ofText (String.ofList (Text.withReturns a.toList)) = ofText a := by
  have hpieces : (a ++ "\n" ++ b).toList.splitOn '\n' =
      a.toList.splitOn '\n' ++ b.toList.splitOn '\n' := by
    have htext : (a ++ "\n" ++ b).toList = a.toList ++ '\n' :: b.toList := by simp
    rw [htext, List.splitOn_append_cons_self]
  have hjoined : ofText (a ++ "\n" ++ b) = (ofText a).insertAll (ofText b).entries := by
    rw [ofText_eq_ofList_splitOn, hpieces, List.filterMap_append, ofList_append,
      ← ofText_eq_ofList_splitOn, ← ofText_eq_ofList_splitOn]
  refine ⟨hjoined, ?_, ?_⟩
  · intro c
    rw [hjoined, get?_insertAll, ofList_entries]
  · have hlines : Text.IsLines (a.toList.splitOn '\n')
        (String.ofList (Text.withReturns a.toList)).toList := by
      rw [String.toList_ofList]
      exact Text.isLines_withReturns a.toList
    rw [ofText_eq_ofList hlines, ofText_eq_ofList_splitOn]

end CaseFolding.Table
