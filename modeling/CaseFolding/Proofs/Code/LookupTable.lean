import CaseFolding.Proofs.Code.Element
import CaseFolding.Proofs.Code.Label
import CaseFolding.Proofs.Code.ReadBack
import CaseFolding.Stats

namespace CaseFolding

/-! # Lookup tables read back

The text of a lookup table is a line that declares it, rows of constants and a line
that closes it. The rows are read one by one, and what they hold is the list of values
again, wherever it has been broken. The declared type has room for each of them, and no
narrower one has.
-/

/-! ## Rows -/

section Rows

variable {n fuel : Nat} {vs row : List Codepoint}

/-- No row is longer than it may be. -/
theorem length_le_of_mem_rowsOf (h : row ∈ rowsOf n fuel vs) : row.length ≤ n := by
  induction fuel generalizing vs with
  | zero => exact absurd h List.not_mem_nil
  | succ fuel ih =>
    cases vs with
    | nil => exact absurd h List.not_mem_nil
    | cons v vs =>
      rw [rowsOf, List.mem_cons] at h
      rcases h with rfl | h
      · exact List.length_take_le n _
      · exact ih h

/-- Where another row follows, the row is full. -/
theorem length_of_mem_dropLast_rowsOf (h : row ∈ (rowsOf n fuel vs).dropLast) :
    row.length = n := by
  induction fuel generalizing vs with
  | zero => exact absurd h List.not_mem_nil
  | succ fuel ih =>
    cases vs with
    | nil => exact absurd h List.not_mem_nil
    | cons v vs =>
      rw [rowsOf] at h
      by_cases hlast : rowsOf n fuel ((v :: vs).drop n) = []
      · rw [hlast] at h
        exact absurd h List.not_mem_nil
      · rw [List.dropLast_cons_of_ne_nil hlast, List.mem_cons] at h
        rcases h with rfl | h
        · -- something is left for the rows that follow
          have hlong : n < (v :: vs).length := by
            by_contra hshort
            refine hlast ?_
            rw [List.drop_of_length_le (Nat.le_of_not_lt hshort)]
            cases fuel <;> rfl
          exact List.length_take_of_le (Nat.le_of_lt hlong)
        · exact ih h

end Rows

/-! ## Text -/

/-- What the lines of the text of a lookup table say. -/
theorem ConstTable.mapM_piece?_text (t : ConstTable) (ht : Code.IsName t.name) (depth : Nat)
    (var : String) :
    (Text.lines (Text.ofLines (t.lines depth)).toList).mapM
        (fun line => Code.Reader.piece? (Token.ofWord var) (Token.ofChars line)) =
      some (.openTable t.name t.element :: t.rows.map .row ++ [.closeTable]) := by
  have hplain : ∀ line ∈ t.lines depth, Text.IsPlain line := by
    intro line hline
    have hs : (Stmt.declare t).IsReadable := ht
    exact Stmt.isPlain_of_mem_lines (by decide : Code.IsName "c") hs hline
  rw [Text.lines_ofLines fun line hline => (hplain line hline).toIsUnbroken, List.mapM_map]
  exact Code.Reader.mapM_lines_table ht depth

/-- Whatever the mapping, the values and the depth, the lines of the text of a lookup table are a
declaration, rows of constants and the end of the table. The constants are the values, from left to
right and from top to bottom, eight in each row but the last. The type that is declared holds each
value and is the narrowest one that does, and the bytes that are counted are those of elements of
this type. -/
theorem Mapping.lookup_table_reads_back (m : Mapping) (values : List Codepoint) (depth : Nat) :
    ∃ (element : Element) (rows : List (List Codepoint)),
      (∀ var, (Text.lines (Text.ofLines ((m.span.table values).lines depth)).toList).mapM
          (fun line => Code.Reader.piece? (Token.ofWord var) (Token.ofChars line)) =
        some (.openTable m.span.tableName element :: rows.map .row ++ [.closeTable])) ∧
      rows.flatten = values ∧
      (∀ row ∈ rows, row ≠ [] ∧ row.length ≤ 8) ∧ (∀ row ∈ rows.dropLast, row.length = 8) ∧
      (∀ v ∈ values, element.Holds v) ∧
      (∀ e : Element, (∀ v ∈ values, e.Holds v) → element.bytes ≤ e.bytes) ∧
      Form.listBytes values = values.length * element.bytes := by
  let t := m.span.table values
  have hrows : ∀ row ∈ t.rows, row ≠ [] ∧ row.length ≤ 8 := by
    intro row hrow
    exact ⟨ne_nil_of_mem_rowsOf (by decide) hrow, length_le_of_mem_rowsOf hrow⟩
  refine ⟨t.element, t.rows, ?_, t.flatten_rows, hrows, ?_, ?_, ?_, rfl⟩
  · intro var
    exact t.mapM_piece?_text m.span.isName_tableName depth var
  · intro row hrow
    exact length_of_mem_dropLast_rowsOf hrow
  · intro v hv
    exact Element.holds_holding hv
  · intro e he
    exact Element.bytes_holding_le_of_holds he

/-- Three values of two bytes each. -/
example :
    ((⟨0x100, 0x102⟩ : Span).table [0x101, 0x3000, 0x102]).lines 1 =
      ["\tstatic const uint16_t ucase_0100_0102[] = \x7b", "\t\t0x0101, 0x3000, 0x0102,",
        "\t\x7d;"] := by
  decide +kernel

end CaseFolding
