import CaseFolding.Code.Run
import CaseFolding.Proofs.Code.Line
import CaseFolding.Proofs.Text.Source

namespace CaseFolding

/-! # Printed code read back

Printing code and reading it again gives the same code. Lines are taken from
the last one to the first: what stands below a line has been put together when
the line is reached, and the line adds its part in front.
-/

open Token Text

/-! ## No line is broken -/

theorem Code.IsName.isPlain {s : String} (h : Code.IsName s) : IsPlain s := by
  have hword : ∀ ch, Token.isWordChar ch = false → ch ∉ s.toList := by
    intro ch hch hmem
    exact absurd ((h.2 ch hmem).symm.trans hch) nofun
  exact ⟨⟨hword _ (by decide), hword _ (by decide)⟩, hword _ (by decide)⟩

theorem isPlain_indented {line : String} (h : IsPlain line) (depth : Nat) :
    IsPlain (indented depth line) := by
  refine Text.IsPlain.append ⟨⟨?_, ?_⟩, ?_⟩ h
  all_goals simp [indentation]

theorem Codepoint.isPlain_literal (c : Codepoint) : IsPlain (Codepoint.literal c) :=
  ((by decide : Code.IsName "0x").append (Code.isName_hex c)).isPlain

/-- An expression breaks no line. -/
theorem Value.isPlain_text {var : String} (hvar : Code.IsName var) {v : Value}
    (hv : v.IsReadable) : IsPlain (v.text var) := by
  cases v with
  | constant c => exact Codepoint.isPlain_literal c
  | same => exact hvar.isPlain
  | plus n => exact (hvar.isPlain.append (by decide)).append (Code.isName_toString n).isPlain
  | minus n => exact (hvar.isPlain.append (by decide)).append (Code.isName_toString n).isPlain
  | setBit => exact hvar.isPlain.append (by decide)
  | entry table base =>
    have htable : IsPlain table := Code.IsName.isPlain hv
    exact ((((htable.append (by decide)).append hvar.isPlain).append (by decide)).append
      (Codepoint.isPlain_literal base)).append (by decide)

theorem Test.isPlain_text {var : String} (hvar : Code.IsName var) (t : Test) :
    IsPlain (t.text var) := by
  have hrelation : IsPlain t.relation.text := by
    cases t.relation <;> decide
  exact (((hvar.isPlain.append (by decide)).append hrelation).append (by decide)).append
    (Codepoint.isPlain_literal t.bound)

theorem isPlain_rowText (row : List Codepoint) : IsPlain (rowText row) := by
  apply isPlain_intercalate (by decide)
  intro l hl
  rcases List.mem_map.mp hl with ⟨v, -, rfl⟩
  exact (Codepoint.isPlain_literal v).append (by decide)

/-! ## Code that can be read -/

/-- A statement with words for names and identifiers for targets. -/
def Stmt.IsReadable : Stmt → Prop
  | .label l => Code.IsName l
  | .goto l => Code.IsName l
  | .ret v => v.IsReadable
  | .assign target v => Code.IsIdentifier target ∧ v.IsReadable
  | .leave => True
  | .declare t => Code.IsName t.name

/-- Code of such statements in which no block is guarded by nothing. -/
def Code.IsReadable : Code → Prop
  | .done => True
  | .next s rest => s.IsReadable ∧ rest.IsReadable
  | .guarded tests body rest => tests ≠ [] ∧ body.IsReadable ∧ rest.IsReadable

theorem Code.IsReadable.append {a b : Code} (ha : a.IsReadable) (hb : b.IsReadable) :
    (a ++ b).IsReadable := by
  induction a with
  | done => exact hb
  | next s rest ih => exact ⟨ha.1, ih ha.2⟩
  | guarded tests body rest _ ih => exact ⟨ha.1, ha.2.1, ih ha.2.2⟩

theorem Code.isReadable_concat {pieces : List Code} (h : ∀ a ∈ pieces, a.IsReadable) :
    (Code.concat pieces).IsReadable := by
  induction pieces with
  | nil => trivial
  | cons a pieces ih => exact (h a (by simp)).append (ih fun b hb => h b (by simp [hb]))

/-! ## Rows of a lookup table -/

/-- No row is empty. -/
theorem ne_nil_of_mem_rowsOf {n fuel : Nat} {vs row : List Codepoint} (hn : 0 < n)
    (h : row ∈ rowsOf n fuel vs) : row ≠ [] := by
  induction fuel generalizing vs with
  | zero => simp [rowsOf] at h
  | succ fuel ih =>
    cases vs with
    | nil => simp [rowsOf] at h
    | cons v vs =>
      rw [rowsOf, List.mem_cons] at h
      rcases h with rfl | h
      · simp [Nat.ne_of_gt hn]
      · exact ih h

theorem flatten_rowsOf {n fuel : Nat} {vs : List Codepoint} (hn : 0 < n)
    (h : vs.length ≤ fuel) : (rowsOf n fuel vs).flatten = vs := by
  induction fuel generalizing vs with
  | zero => simp [rowsOf, List.length_eq_zero_iff.mp (Nat.le_zero.mp h)]
  | succ fuel ih =>
    cases vs with
    | nil => simp [rowsOf]
    | cons v vs =>
      have hrest : ((v :: vs).drop n).length ≤ fuel := by
        simp only [List.length_drop, List.length_cons] at h ⊢
        omega
      rw [rowsOf, List.flatten_cons, ih hrest, List.take_append_drop]

theorem ConstTable.flatten_rows (t : ConstTable) : t.rows.flatten = t.values :=
  flatten_rowsOf (by decide) (Nat.le_refl _)

/-! ## What the lines say -/

/-- What the lines of a statement say. -/
def Stmt.pieces : Stmt → List Code.Reader.Piece
  | .declare t =>
    .openTable t.name t.element :: t.rows.map .row ++ [.closeTable]
  | s => [.stmt s]

/-- What the lines of code say. -/
def Code.pieces : Code → List Code.Reader.Piece
  | .done => []
  | .next s rest => s.pieces ++ rest.pieces
  | .guarded tests body rest => .openBlock tests :: body.pieces ++ .closeBlock :: rest.pieces

namespace Code.Reader

variable {var : String}

/-- What a line says to a reader who knows the variable. -/
def linePiece? (var line : String) : Option Piece :=
  piece? (ofWord var) (ofString line)

theorem linePiece?_indented (depth : Nat) (line : String) :
    linePiece? var (indented depth line) = linePiece? var line := by
  rw [linePiece?, ofString_indented, linePiece?]

/-- The lines of a lookup table. -/
theorem mapM_lines_table {t : ConstTable} (ht : IsName t.name) (depth : Nat) :
    (t.lines depth).mapM (linePiece? var) = some (Stmt.declare t).pieces := by
  have hrows : (t.rows.map fun row => indented (depth + 1) (rowText row)).mapM (linePiece? var) =
      some (t.rows.map .row) := by
    rw [List.mapM_map]
    apply mapM_eq_some
    intro row hrow
    rw [Function.comp_apply, linePiece?_indented]
    exact piece?_row (ne_nil_of_mem_rowsOf (by decide) hrow)
  have hopen := @piece?_openTable var t.name ht t.element
  have hclose := @piece?_closeTable var
  simp only [ConstTable.lines, Stmt.pieces, List.cons_append, List.mapM_cons, List.mapM_append,
    List.mapM_nil, linePiece?_indented, hrows]
  simp only [linePiece?, hopen, hclose]
  rfl

/-- The lines of a statement. -/
theorem mapM_lines_stmt (hvar : IsIdentifier var) {s : Stmt} (hs : s.IsReadable) (depth : Nat) :
    (s.lines var depth).mapM (linePiece? var) = some s.pieces := by
  cases s with
  | label l =>
    simp only [Stmt.lines, List.mapM_cons, List.mapM_nil, linePiece?, piece?_label hs]
    rfl
  | goto l =>
    simp only [Stmt.lines, List.mapM_cons, List.mapM_nil, linePiece?_indented]
    simp only [linePiece?, piece?_goto hs]
    rfl
  | ret v =>
    simp only [Stmt.lines, List.mapM_cons, List.mapM_nil, linePiece?_indented]
    simp only [linePiece?, piece?_return hvar hs]
    rfl
  | assign target v =>
    simp only [Stmt.lines, List.mapM_cons, List.mapM_nil, linePiece?_indented]
    simp only [linePiece?, piece?_assign hvar hs.1 hs.2]
    rfl
  | leave =>
    simp only [Stmt.lines, List.mapM_cons, List.mapM_nil, linePiece?_indented]
    simp only [linePiece?, piece?_leave]
    rfl
  | declare t => exact mapM_lines_table hs depth

/-- The lines of code. -/
theorem mapM_lines (hvar : IsIdentifier var) {code : Code} (hcode : code.IsReadable)
    (depth : Nat) : (code.lines var depth).mapM (linePiece? var) = some code.pieces := by
  induction code generalizing depth with
  | done => rfl
  | next s rest ih =>
    rw [Code.lines, List.mapM_append, mapM_lines_stmt hvar hcode.1, ih hcode.2]
    rfl
  | guarded tests body rest ihbody ihrest =>
    have hguard := piece?_guard hvar hcode.1
    have hclose := @piece?_close var
    simp only [Code.lines, Code.pieces, List.cons_append, List.mapM_cons, List.mapM_append,
      linePiece?_indented, ihbody hcode.2.1, ihrest hcode.2.2]
    simp only [linePiece?, hguard, hclose]
    rfl

/-! ## Putting the lines together -/

theorem foldrM_rows (rows : List (List Codepoint)) (elements : List Codepoint)
    (blocks : List Code) :
    (rows.map Piece.row).foldrM above ⟨some elements, blocks⟩ =
      some ⟨some (rows.flatten ++ elements), blocks⟩ := by
  induction rows with
  | nil => rfl
  | cons row rows ih =>
    rw [List.map_cons, List.foldrM_cons, ih]
    simp [above]

/-- A statement is put in front of the code below. -/
theorem foldrM_stmt (s : Stmt) (code : Code) (outer : List Code) :
    s.pieces.foldrM above ⟨none, code :: outer⟩ = some ⟨none, .next s code :: outer⟩ := by
  cases s with
  | declare t =>
    have hrows := foldrM_rows t.rows [] (code :: outer)
    rw [Stmt.pieces, List.foldrM_append, List.foldrM_cons, List.foldrM_nil]
    simp only [Option.pure_def, Option.bind_eq_bind, Option.bind_some, above, List.foldrM_cons,
      hrows, List.append_nil, t.flatten_rows]
  | label l => rfl
  | goto l => rfl
  | ret v => rfl
  | assign target v => rfl
  | leave => rfl

/-- Code is put in front of the code below. -/
theorem foldrM_pieces (code below : Code) (outer : List Code) :
    code.pieces.foldrM above ⟨none, below :: outer⟩ = some ⟨none, (code ++ below) :: outer⟩ := by
  -- the body of a block is put in front of nothing, and the block in front of what is below it
  induction code generalizing below outer with
  | done => rfl
  | next s rest ih =>
    rw [pieces, List.foldrM_append, ih]
    exact foldrM_stmt s (rest ++ below) outer
  | guarded tests body rest ihbody ihrest =>
    rw [pieces, List.foldrM_append, List.foldrM_cons, ihrest]
    simp only [Option.bind_eq_bind, Option.bind_some, above, List.foldrM_cons, ihbody, append_done]
    rfl

/-- The parts of code make the code. -/
theorem assemble_pieces (code : Code) : assemble code.pieces = some code := by
  have hfold := foldrM_pieces code .done []
  rw [append_done] at hfold
  simp only [assemble, hfold, Option.bind_eq_bind, Option.bind_some]

end Code.Reader

/-! ## Round trip -/

theorem Stmt.isPlain_of_mem_lines {var line : String} (hvar : Code.IsName var) {s : Stmt}
    (hs : s.IsReadable) {depth : Nat} (h : line ∈ s.lines var depth) : IsPlain line := by
  cases s with
  | label l =>
    rcases List.mem_singleton.mp h with rfl
    exact (Code.IsName.isPlain hs).append (by decide)
  | goto l =>
    rcases List.mem_singleton.mp h with rfl
    exact isPlain_indented (((by decide : IsPlain "goto ").append (Code.IsName.isPlain hs)).append
      (by decide)) depth
  | ret v =>
    rcases List.mem_singleton.mp h with rfl
    exact isPlain_indented (((by decide : IsPlain "return ").append
      (Value.isPlain_text hvar hs)).append (by decide)) depth
  | assign target v =>
    rcases List.mem_singleton.mp h with rfl
    exact isPlain_indented (((hs.1.isName.isPlain.append (by decide)).append
      (Value.isPlain_text hvar hs.2)).append (by decide)) depth
  | leave =>
    rcases List.mem_singleton.mp h with rfl
    exact isPlain_indented (by decide) depth
  | declare t =>
    rw [Stmt.lines, ConstTable.lines, List.cons_append, List.mem_cons, List.mem_append,
      List.mem_singleton, List.mem_map] at h
    rcases h with rfl | ⟨row, -, rfl⟩ | rfl
    · have helement : IsPlain t.element.text := by
        cases t.element <;> decide
      exact isPlain_indented (((((by decide : IsPlain "static const ").append helement).append
        (by decide)).append (Code.IsName.isPlain hs)).append (by decide)) depth
    · exact isPlain_indented (isPlain_rowText row) (depth + 1)
    · exact isPlain_indented (by decide) depth

/-- No line of code is broken. -/
theorem Code.isPlain_of_mem_lines {var line : String} (hvar : Code.IsName var) {code : Code}
    (hcode : code.IsReadable) {depth : Nat} (h : line ∈ code.lines var depth) : IsPlain line := by
  induction code generalizing depth with
  | done => simp [Code.lines] at h
  | next s rest ih =>
    rw [Code.lines, List.mem_append] at h
    rcases h with h | h
    · exact Stmt.isPlain_of_mem_lines hvar hcode.1 h
    · exact ih hcode.2 h
  | guarded tests body rest ihbody ihrest =>
    rw [Code.lines, List.cons_append, List.mem_cons, List.mem_append, List.mem_cons] at h
    rcases h with rfl | h | rfl | h
    · have htests : IsPlain (" && ".intercalate (tests.map (Test.text var))) := by
        apply isPlain_intercalate (by decide)
        intro l hl
        rcases List.mem_map.mp hl with ⟨t, -, rfl⟩
        exact Test.isPlain_text hvar t
      exact isPlain_indented (((by decide : IsPlain "if (").append htests).append
        (by decide)) depth
    · exact ihbody hcode.2.1 h
    · exact isPlain_indented (by decide) depth
    · exact ihrest hcode.2.2 h

/-- Printed code is read back. -/
theorem Code.read?_text {var : String} (hvar : Code.IsIdentifier var) {code : Code}
    (hcode : code.IsReadable) : Code.read? var (code.text var) = some code := by
  have hplain : ∀ line ∈ code.lines var 1, IsPlain line :=
    fun line hline => Code.isPlain_of_mem_lines hvar.isName hcode hline
  have hpieces : ((code.lines var 1).map String.toList).mapM
      (fun line => Code.Reader.piece? (ofWord var) (ofChars line)) = some code.pieces := by
    rw [List.mapM_map]
    exact Code.Reader.mapM_lines hvar hcode 1
  -- lines, what they say, and the code that this makes
  rw [Code.read?, Code.text, Text.sourceLines_ofLines_of_isPlain hplain, hpieces]
  exact Code.Reader.assemble_pieces code

/-! ## Running a text -/

/-- Runs the code that a text says, with the variable `var` at `c`. -/
def Code.runText (var text : String) (c : Codepoint) : Option (Ending × Trace) :=
  (Code.read? var text).map (·.run c)

/-- Printed code runs like the code. -/
theorem Code.runText_text {var : String} (hvar : Code.IsIdentifier var) {code : Code}
    (hcode : code.IsReadable) (c : Codepoint) :
    Code.runText var (code.text var) c = some (code.run c) := by
  rw [Code.runText, Code.read?_text hvar hcode]
  rfl

end CaseFolding
