import CaseFolding.Code.Basic
import CaseFolding.Text.Blank
import CaseFolding.Text.Numeral
import CaseFolding.Text.Source

namespace CaseFolding

/-! # Reading generated code

Generated code is read back line by line, where lines are those that a C compiler
finds. A line is cut into words and marks, says what one statement, or one end of a
block or of a lookup table, says, and the lines are put together from the last one
to the first. A line that starts with two slashes is a comment. The reader knows the
variable by its name.
-/

/-! ## Words and marks -/

/-- A part of a line. -/
inductive Token where
  /-- A name or a number. -/
  | word (cs : List Char)
  /-- Any other character that is not blank. -/
  | mark (ch : Char)
deriving DecidableEq

namespace Token

/-- A character of names and numbers. -/
def isWordChar (ch : Char) : Bool := ch.isAlphanum || ch == '_'

/-- Puts a character in front of the words and marks of a text. It continues a word only if one
starts right there. -/
def push (ch : Char) (adjacent : Bool) (ts : List Token) : List Token :=
  if Text.isBlank ch then ts
  else if isWordChar ch then
    match adjacent, ts with
    | true, word cs :: ts => word (ch :: cs) :: ts
    | _, ts => word [ch] :: ts
  else mark ch :: ts

/-- The words and marks of a text. -/
def ofChars : List Char → List Token
  | [] => []
  | ch :: cs => push ch (cs.head?.any isWordChar) (ofChars cs)

/-- The word that is written like a text. -/
def ofWord (s : String) : Token := word s.toList

/-- The marks of a text, in order. -/
def marks (s : String) : List Token := s.toList.map mark

end Token

/-! ## Numbers and expressions -/

namespace Code.Reader

open Token

/-- A constant in hexadecimal. -/
def constant? : Token → Option Codepoint
  | .word ('0' :: 'x' :: digits) => (Text.Numeral.read 16 digits).toOption
  | _ => none

/-- A number in decimal, of any size. -/
def decimal? : Token → Option Nat
  | .word digits =>
    if digits ≠ [] ∧ digits.all Char.isDigit then some (Nat.ofDigitChars 10 digits 0) else none
  | .mark _ => none

/-- A name. -/
def name? : Token → Option String
  | .word cs => some (String.ofList cs)
  | .mark _ => none

/-- An expression over the variable `var`. -/
def value? (var : Token) : List Token → Option Value
  | [v] => if v = var then some .same else (constant? v).map .constant
  | [v, .mark '+', n] => if v = var then (decimal? n).map .plus else none
  | [v, .mark '-', n] => if v = var then (decimal? n).map .minus else none
  | [v, .mark '|', n] => if v = var ∧ n = ofWord "1" then some .setBit else none
  | [table, .mark '[', v, .mark '-', base, .mark ']'] =>
    if v = var then do return .entry (← name? table) (← constant? base) else none
  | _ => none

/-- A comparison of the variable `var`. -/
def test? (var : Token) : List Token → Option Test
  | [v, .mark '<', n] => if v = var then (constant? n).map (⟨.lt, ·⟩) else none
  | [v, .mark '>', n] => if v = var then (constant? n).map (⟨.gt, ·⟩) else none
  | [v, .mark '=', .mark '=', n] => if v = var then (constant? n).map (⟨.eq, ·⟩) else none
  | [v, .mark '>', .mark '=', n] => if v = var then (constant? n).map (⟨.ge, ·⟩) else none
  | [v, .mark '<', .mark '=', n] => if v = var then (constant? n).map (⟨.le, ·⟩) else none
  | _ => none

/-- The parts of a condition between `&&`. -/
def clauses : List Token → List (List Token)
  | [] => [[]]
  | .mark '&' :: .mark '&' :: ts => [] :: clauses ts
  | t :: ts =>
    match clauses ts with
    | [] => [[t]]
    | clause :: more => (t :: clause) :: more

/-- The elements of a row, each with a comma after it. -/
def row? : List Token → Option (List Codepoint)
  | [] => some []
  | n :: .mark ',' :: ts => do return (← constant? n) :: (← row? ts)
  | _ => none

/-- An element type. -/
def element? (t : Token) : Option Element :=
  if t = ofWord "uint8_t" then some .bits8
  else if t = ofWord "uint16_t" then some .bits16
  else if t = ofWord "uint32_t" then some .bits32
  else none

/-- What comes before the given tokens at the end. -/
def before? (ending ts : List Token) : Option (List Token) :=
  if ending <:+ ts then some (ts.take (ts.length - ending.length)) else none

/-! ## Lines -/

/-- What a line says. -/
inductive Piece where
  | comment
  | stmt (s : Stmt)
  | openBlock (tests : List Test)
  | closeBlock
  | openTable (name : String) (element : Element)
  | row (values : List Codepoint)
  | closeTable
deriving DecidableEq

/-- A line that its first word tells, or an assignment. -/
def statement? (var first : Token) (more : List Token) : Option Piece :=
  if first = ofWord "goto" then
    match more with
    | [l, .mark ';'] => (name? l).map fun l => .stmt (.goto l)
    | _ => none
  else if first = ofWord "break" then
    if more = marks ";" then some (.stmt .leave) else none
  else if first = ofWord "return" then
    do return .stmt (.ret (← value? var (← before? (marks ";") more)))
  else if first = ofWord "if" then
    match more with
    | .mark '(' :: more =>
      do return .openBlock (← (clauses (← before? (marks ")\x7b") more)).mapM (test? var))
    | _ => none
  else if first = ofWord "static" then
    match more with
    | qualifier :: element :: name :: more =>
      if qualifier = ofWord "const" ∧ more = marks "[]=\x7b" then
        do return .openTable (← name? name) (← element? element)
      else none
    | _ => none
  else
    match more with
    | .mark '=' :: more =>
      do return .stmt (.assign (← name? first) (← value? var (← before? (marks ";") more)))
    | _ => none

/-- What a line says, given its words and marks. -/
def piece? (var : Token) : List Token → Option Piece
  | .mark '/' :: .mark '/' :: _ => some .comment
  | [.mark '\x7d'] => some .closeBlock
  | [.mark '\x7d', .mark ';'] => some .closeTable
  | [l, .mark ':'] => (name? l).map fun l => .stmt (.label l)
  | n :: .mark ',' :: more => (row? (n :: .mark ',' :: more)).map .row
  | first :: more => statement? var first more
  | [] => none

/-! ## Blocks -/

/-- The code that has been put together from the lines below: the elements of a lookup table whose
upper end is still to come, if there is one, and the code of the blocks whose upper ends are still
to come, the innermost one first. -/
structure Below where
  elements : Option (List Codepoint) := none
  blocks : List Code := [.done]

/-- Puts a line above others. -/
def above (p : Piece) (b : Below) : Option Below :=
  match p, b.elements, b.blocks with
  | .comment, _, _ => some b
  | .stmt s, none, code :: outer => some { blocks := .next s code :: outer }
  | .closeBlock, none, blocks => some { blocks := .done :: blocks }
  | .openBlock tests, none, body :: rest :: outer =>
    some { blocks := .guarded tests body rest :: outer }
  | .closeTable, none, blocks => some { elements := some [], blocks }
  | .row values, some elements, blocks => some { elements := some (values ++ elements), blocks }
  | .openTable name element, some elements, code :: outer =>
    some { blocks := .next (.declare ⟨name, element, elements⟩) code :: outer }
  | _, _, _ => none

/-- The code that lines say. -/
def assemble (ps : List Piece) : Option Code := do
  match ← ps.foldrM above {} with
  | ⟨none, [code]⟩ => some code
  | _ => none

end Code.Reader

/-- Reads code over the variable `var`. -/
def Code.read? (var text : String) : Option Code := do
  Reader.assemble (← (Text.sourceLines text.toList).mapM fun line =>
    Reader.piece? (Token.ofWord var) (Token.ofChars line))

end CaseFolding
