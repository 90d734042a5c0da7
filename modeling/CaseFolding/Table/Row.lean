import CaseFolding.Table.Basic
import CaseFolding.Text.Blank
import CaseFolding.Text.Line
import CaseFolding.Text.Numeral

namespace CaseFolding

/-! # Case folding files

A case folding file holds one row a line:

    code; status; target; # name

What follows the first `#` is a comment, blanks around a field do not count,
and fields after the target are ignored. Rows with the status `C` (common) or
`S` (simple) give an entry. Every other line, be it a full or Turkic folding, a
comment or anything that does not read, gives none.
-/

namespace Row

/-- The fields of a line, without their blanks. -/
def fields (line : List Char) : List (List Char) :=
  ((line.takeWhile (· ≠ '#')).splitOn ';').map Text.trim

/-- Reads a codepoint, which is written in hexadecimal. -/
def codepoint? (field : List Char) : Option Codepoint :=
  (Text.Numeral.read 16 field).toOption

/-- Whether rows of this status give an entry. -/
def isSimple (status : List Char) : Bool :=
  status = ['C'] || status = ['S']

/-- The entry of a line, if it has one. -/
def read? (line : List Char) : Option Entry :=
  match fields line with
  | code :: status :: target :: _ =>
    if isSimple status then
      match codepoint? code, codepoint? target with
      | some c, some v => some (c, v)
      | _, _ => none
    else none
  | _ => none

end Row

/-! ## Files -/

/-- The table of a case folding file, later rows taking the place of earlier ones. -/
def Table.ofText (text : String) : Table :=
  ofList ((Text.lines text.toList).filterMap Row.read?)

/-- What a case folding file says. -/
structure FoldFile where
  /-- The text of the first line, if that is a comment and not blank. -/
  version : Option String
  table : Table
deriving DecidableEq

namespace FoldFile

/-- The version that a first line states. -/
def version? : (line : List Char) → Option String
  | '#' :: words =>
    match Text.trim words with
    | [] => none
    | name => some (String.ofList name)
  | _ => none

/-- Reads a case folding file. -/
def ofText (text : String) : FoldFile where
  version := (Text.lines text.toList).head?.bind version?
  table := Table.ofText text

end FoldFile

end CaseFolding
