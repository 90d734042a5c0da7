import CaseFolding.Text.Line

namespace CaseFolding.Text

/-! # Source lines

A C compiler finds the lines of a text by rules of its own. A line ends at a line
feed, at a carriage return, or at both in this order. A line with a backslash at its
end goes on in the next one; blanks behind the backslash do not count. All this comes
before comments, so a comment with a backslash at its end takes in the next line.
Trigraphs are no characters of their own here, as for a compiler that is not asked
for them.
-/

/-- Ends every line by a line feed alone. -/
def unifyEnds : List Char → List Char
  | [] => []
  | '\r' :: '\n' :: cs => '\n' :: unifyEnds cs
  | '\r' :: cs => '\n' :: unifyEnds cs
  | ch :: cs => ch :: unifyEnds cs

/-- A character that does not count between a backslash and the end of its line. -/
def isPadding (ch : Char) : Bool :=
  ch == ' ' || ch == '\t' || ch == '\x0b' || ch == '\x0c' || ch == '\x00'

/-- What stands before the backslash of a line that goes on in the next one. -/
def continued? (line : List Char) : Option (List Char) :=
  match line.reverse.dropWhile isPadding with
  | '\\' :: front => some front.reverse
  | _ => none

/-- Joins lines with those in which they go on. -/
def splice : List (List Char) → List (List Char)
  | [] => []
  | line :: below =>
    match continued? line with
    | none => line :: splice below
    | some front =>
      match splice below with
      | [] => [front]
      | next :: rest => (front ++ next) :: rest

/-- The lines of a text that a C compiler reads. -/
def sourceLines (cs : List Char) : List (List Char) :=
  splice (lines (unifyEnds cs))

end CaseFolding.Text
