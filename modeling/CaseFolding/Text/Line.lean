namespace CaseFolding.Text

/-! # Lines

A line ends at a line feed, and a carriage return directly before that feed
belongs to the end. A carriage return anywhere else is an ordinary character.
Text after the last feed is a line of its own unless it is empty. Lines are
written with a line feed alone.
-/

/-- Drops one carriage return at the end. -/
def chompReturn (cs : List Char) : List Char :=
  if cs.getLast? = some '\r' then cs.dropLast else cs

/-- The lines among pieces that line feeds separate: all but the last piece were ended by one. -/
def linesOfPieces : List (List Char) → List (List Char)
  | [] => []
  | [last] => if last = [] then [] else [last]
  | piece :: pieces => chompReturn piece :: linesOfPieces pieces

/-- The lines of a text, without their ends. -/
def lines (cs : List Char) : List (List Char) :=
  linesOfPieces (cs.splitOn '\n')

/-- The text of lines, each ended by a line feed. -/
def ofLines (ls : List String) : String :=
  String.join (ls.map (· ++ "\n"))

end CaseFolding.Text
