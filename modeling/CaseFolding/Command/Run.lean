import CaseFolding.Command.Plan
import CaseFolding.Command.System
import CaseFolding.Command.Usage

namespace CaseFolding

/-! # Running the command

A run reads its arguments and its input and then has its effects, one after
the other. The first one that fails ends it, and what was done before stays.
What fails depends on the files and directories, and on what the system refuses.
-/

/-- Why a run ends early: what it was about, and what stood in the way. -/
structure Failure where
  context : String
  cause : FileError
deriving DecidableEq

namespace Failure

/-- The case folding file could not be read. -/
def reading (path : String) (cause : FileError) : Failure :=
  ⟨path ++ ": failed to read\nDownload from " ++
    "https://www.unicode.org/Public/UCD/latest/ucd/CaseFolding.txt", cause⟩

/-- A file could not be written. -/
def writing (path : String) (cause : FileError) : Failure :=
  ⟨path ++ ": failed to write", cause⟩

/-- A directory could not be made. -/
def makingDirectory (path : String) (cause : FileError) : Failure :=
  ⟨path ++ ": failed to create directory", cause⟩

/-- The standard output took no text. -/
def printing (cause : FileError) : Failure :=
  ⟨"failed to write to stdout", cause⟩

/-- How a failure is told. -/
def message (f : Failure) : String :=
  "Error: " ++ f.context ++ "\n\nCaused by:\n    " ++ f.cause.message ++ "\n"

end Failure

/-! ## Effects -/

/-- What the effects of a run change. -/
structure World where
  files : FileTree
  /-- The text on the standard output. -/
  printed : String := ""
  /-- The records, in order. -/
  records : List Record := []

namespace World

/-- Has one effect. -/
def perform (s : System) (w : World) : Effect → World × Option Failure
  | .report r => ({ w with records := w.records ++ [r] }, none)
  | .write path text =>
    match s.writeText w.files path text with
    | .ok files => ({ w with files }, none)
    | .error e => (w, some (.writing path e))
  | .makeDirectories path =>
    let (files, e) := s.makeDirectories w.files path
    ({ w with files }, e.map (.makingDirectory path))
  | .print text =>
    match s.print w.files w.printed text with
    | .ok printed => ({ w with printed }, none)
    | .error e => (w, some (.printing e))

/-- Has effects until one fails. -/
def performAll (s : System) (w : World) : List Effect → World × Option Failure
  | [] => (w, none)
  | e :: es =>
    match w.perform s e with
    | (w', some f) => (w', some f)
    | (w', none) => w'.performAll s es

end World

/-! ## Runs -/

/-- What can be seen of a run when it is over. -/
structure Outcome where
  /-- Zero if all went well. -/
  exitCode : Nat
  /-- The text on the standard output. -/
  stdout : String
  /-- The text on the standard error, other than records. -/
  stderr : String
  /-- The records that were shown. -/
  log : List Record
  files : FileTree

/-- A run that had its effects, or some of them. -/
def Outcome.ofWorld (v : Verbosity) (w : World) (f : Option Failure) : Outcome where
  exitCode := if f.isSome then 1 else 0
  stdout := w.printed
  stderr := f.elim "" Failure.message
  log := w.records.filter fun r => v.shows r.level
  files := w.files

/-- Runs the command with the given options on a system. -/
def Options.runOn (s : System) (o : Options) (v : Verbosity) (files : FileTree) : Outcome :=
  match s.readText files o.input with
  | .error e => .ofWorld v { files } (some (.reading o.input e))
  | .ok text =>
    let (w, f) := World.performAll s { files } (o.plan (FoldFile.ofText text))
    .ofWorld v w f

/-- Runs the command with the given options where nothing is refused. -/
def Options.run (o : Options) (v : Verbosity) (files : FileTree) : Outcome :=
  o.runOn .willing v files

/-- Runs the command with the given arguments. -/
def runCommand (arguments : List String) (v : Verbosity) (files : FileTree) : Outcome :=
  match Request.read arguments with
  | .error e => ⟨1, "", e.message ++ usageHint, [], files⟩
  | .ok .help => ⟨0, usage, "", [], files⟩
  | .ok (.run o) => o.run v files

end CaseFolding
