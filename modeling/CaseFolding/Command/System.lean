import CaseFolding.Command.FileTree

namespace CaseFolding

/-! # What a system refuses

Whether a file can be read or written, a directory made or a text printed is not settled
by the files and directories alone: a system may refuse it for want of permission, on a
full disk, or where nobody reads what is printed. A system is known by what it refuses
and when, in words of its own. What is refused has no effect at all: a file that cannot be
written stays as it was, and nothing is printed of a text that cannot be printed.
-/

/-- What a system refuses, and for which reason, as the files and directories stand. -/
structure System where
  refusesReading : FileTree → (path : String) → Option String
  refusesWriting : FileTree → (path text : String) → Option String
  refusesMaking : FileTree → (names : List String) → Option String
  refusesPrinting : FileTree → (text : String) → Option String

/-- Has the outcome of an attempt unless that is refused. -/
def unlessRefused {α : Type} (reason : Option String) (attempt : Except FileError α) :
    Except FileError α :=
  match reason with
  | some reason => .error (.refused reason)
  | none => attempt

namespace System

/-- The system that refuses nothing. -/
def willing : System where
  refusesReading _ _ := none
  refusesWriting _ _ _ := none
  refusesMaking _ _ := none
  refusesPrinting _ _ := none

variable (s : System)

/-! ## Files -/

/-- The content of a file that holds text. -/
def readText (t : FileTree) (path : String) : Except FileError String :=
  unlessRefused (s.refusesReading t path) (t.readText path)

/-- Makes a file hold a text, whether it is there already or not. -/
def writeText (t : FileTree) (path text : String) : Except FileError FileTree :=
  unlessRefused (s.refusesWriting t path text) (t.writeText path text)

/-! ## Directories -/

/-- Makes one directory where there is nothing. -/
def makeDirectory (t : FileTree) (names : List String) : Except FileError FileTree :=
  unlessRefused (s.refusesMaking t names) (t.makeDirectory names)

/-- Makes one directory. Where it cannot be made, one that is there already will do, and where
something on the way to it is missing, there is none. -/
def ensureDirectory (t : FileTree) (names : List String) : FileTree × Option FileError :=
  match s.makeDirectory t names with
  | .ok t' => (t', none)
  | .error .notFound => (t, some .notFound)
  | .error e => (t, if t.isDirectory names then none else some e)

/-- Makes the first directory of a list. Where something on the way to it is missing, the others,
which lie further and further out, are made before. What has been made stays, also if the rest
fails. -/
def ensureFirst (t : FileTree) : List (List String) → FileTree × Option FileError
  | [] => (t, none)
  | d :: outer =>
    match s.ensureDirectory t d with
    | (_, some .notFound) =>
      match ensureFirst t outer with
      | (t', none) => s.ensureDirectory t' d
      | failed => failed
    | done => done

/-- Makes a directory with all that is missing on the way to it. The empty path is the root. -/
def makeDirectories (t : FileTree) (path : String) : FileTree × Option FileError :=
  if path = "" then (t, none)
  else s.ensureFirst t (FileTree.names path :: FileTree.around path)

/-! ## Printing -/

/-- What there is on the standard output when a text has been printed below another one. -/
def print (t : FileTree) (printed text : String) : Except FileError String :=
  unlessRefused (s.refusesPrinting t text) (.ok (printed ++ text))

end System

/-- Makes a directory with all that is missing on the way to it, where nothing is refused. -/
def FileTree.makeDirectories (t : FileTree) (path : String) : FileTree × Option FileError :=
  System.willing.makeDirectories t path

end CaseFolding
