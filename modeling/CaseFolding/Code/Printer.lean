import CaseFolding.Code.Sink
import CaseFolding.Text.Line

namespace CaseFolding

/-! # The text of generated code

Each statement takes a line of its own, or several for a lookup table, and is
indented with one tab for each block around it. Labels stand at the left
margin.
-/

/-! ## Lines -/

/-- The tabs in front of a line that is `depth` blocks deep. -/
def indentation (depth : Nat) : String :=
  String.ofList (List.replicate depth '\t')

/-- A line at a depth. -/
def indented (depth : Nat) (line : String) : String :=
  indentation depth ++ line

/-- A codepoint as a C constant. -/
def Codepoint.literal (c : Codepoint) : String :=
  "0x" ++ c.hex

/-! ## Expressions -/

/-- The operator of a comparison. -/
def Relation.text : Relation → String
  | .lt => "<"
  | .gt => ">"
  | .eq => "=="
  | .ge => ">="
  | .le => "<="

/-- A comparison of `var`. -/
def Test.text (var : String) (t : Test) : String :=
  var ++ " " ++ t.relation.text ++ " " ++ Codepoint.literal t.bound

/-- An expression over `var`. -/
def Value.text (var : String) : Value → String
  | .constant v => Codepoint.literal v
  | .same => var
  | .plus n => var ++ " + " ++ toString n
  | .minus n => var ++ " - " ++ toString n
  | .setBit => var ++ " | 1"
  | .entry table base => table ++ "[" ++ var ++ " - " ++ Codepoint.literal base ++ "]"

/-! ## Results -/

/-- Hands an expression to the caller. -/
def returnText (expr : String) : String :=
  "return " ++ expr ++ ";"

/-- Keeps an expression in a variable. -/
def assignText (target expr : String) : String :=
  target ++ " = " ++ expr ++ ";"

/-- Leaves the enclosing switch. -/
def leaveText : String := "break;"

/-- The lines that deliver an expression. -/
def Sink.lines (depth : Nat) (expr : String) : Sink → List String
  | .toCaller => [indented depth (returnText expr)]
  | .toVariable target => [indented depth (assignText target expr), indented depth leaveText]

/-! ## Lookup tables -/

/-- The name of an element type. -/
def Element.text : Element → String
  | .bits8 => "uint8_t"
  | .bits16 => "uint16_t"
  | .bits32 => "uint32_t"

/-- The number of elements that share a line. -/
def rowLength : Nat := 8

/-- Cuts a list into rows of `n` with a shorter one at the end; `fuel` bounds their number. -/
def rowsOf (n : Nat) : (fuel : Nat) → List Codepoint → List (List Codepoint)
  | 0, _ => []
  | _, [] => []
  | fuel + 1, v :: vs => (v :: vs).take n :: rowsOf n fuel ((v :: vs).drop n)

/-- The rows in which the values of a lookup table are written. -/
def ConstTable.rows (t : ConstTable) : List (List Codepoint) :=
  rowsOf rowLength t.values.length t.values

/-- A row of elements. -/
def rowText (row : List Codepoint) : String :=
  String.intercalate " " (row.map fun v => Codepoint.literal v ++ ",")

/-- The lines of a lookup table. -/
def ConstTable.lines (depth : Nat) (t : ConstTable) : List String :=
  indented depth ("static const " ++ t.element.text ++ " " ++ t.name ++ "[] = \x7b") ::
    (t.rows.map fun row => indented (depth + 1) (rowText row)) ++ [indented depth "\x7d;"]

/-! ## Statements -/

/-- The lines of a simple statement. -/
def Stmt.lines (var : String) (depth : Nat) : Stmt → List String
  | .label name => [name ++ ":"]
  | .goto name => [indented depth ("goto " ++ name ++ ";")]
  | .ret v => [indented depth (returnText (v.text var))]
  | .assign target v => [indented depth (assignText target (v.text var))]
  | .leave => [indented depth leaveText]
  | .declare t => t.lines depth

/-- The line that opens a guarded block. -/
def guardText (var : String) (tests : List Test) : String :=
  "if (" ++ String.intercalate " && " (tests.map (Test.text var)) ++ ") \x7b"

namespace Code

/-- The lines of code that is `depth` blocks deep. -/
def lines (var : String) : (depth : Nat) → Code → List String
  | _, done => []
  | depth, next s rest => s.lines var depth ++ lines var depth rest
  | depth, guarded tests body rest =>
    indented depth (guardText var tests) :: lines var (depth + 1) body ++
      indented depth "\x7d" :: lines var depth rest

/-- The text of code for the body of a function or of a switch arm. -/
def text (var : String) (code : Code) : String :=
  Text.ofLines (code.lines var 1)

end Code

end CaseFolding
