import CaseFolding.Code.Reader

namespace CaseFolding

/-! # Reading a function

Code may be the body of a function whose one parameter is the variable. The text
of a function starts with its head, comments aside; the head takes four lines, of
which the second one is empty. The body ends with a brace, and nothing but comments
may follow.
-/

namespace Code.Reader

open Token

/-- Whether a line is a comment. -/
def isComment : List Token → Bool
  | .mark '/' :: .mark '/' :: _ => true
  | _ => false

/-- The lines above the body of a function. -/
def functionHead (name var : Token) : List (List Token) :=
  [[.mark '#', .ofWord "include", .mark '<', .ofWord "stdint", .mark '.', .ofWord "h", .mark '>'],
    [],
    [.ofWord "unsigned", name, .mark '(', .ofWord "unsigned", var, .mark ')'],
    marks "\x7b"]

/-- The code that lines say which end with the brace that closes the body of a function. -/
def assembleBody (ps : List Piece) : Option Code := do
  match ← ps.foldrM above {} with
  | ⟨none, [code, .done]⟩ => some code
  | _ => none

end Code.Reader

/-- Reads the body of the function `name` over the variable `var`. -/
def Code.readFunction? (name var text : String) : Option Code :=
  let lines := ((Text.sourceLines text.toList).map Token.ofChars).dropWhile Reader.isComment
  if lines.take 4 = Reader.functionHead (Token.ofWord name) (Token.ofWord var) then do
    Reader.assembleBody (← (lines.drop 4).mapM (Reader.piece? (Token.ofWord var)))
  else none

end CaseFolding
