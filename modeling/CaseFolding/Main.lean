import CaseFolding.Command.Run

namespace CaseFolding

/-! # The program

Carries out a run on the files of the system. What is done, in which order and
with which words is settled by `Options.plan`; here it is only done. Records go
to the standard error, down to the level named by `RUST_LOG`.
-/

/-- The words of the system for an error, with its number if there is one. -/
def systemMessage : IO.Error → String
  | .otherError code details | .resourceBusy code details | .resourceVanished code details
  | .unsupportedOperation code details | .hardwareFault code details
  | .unsatisfiedConstraints code details | .illegalOperation code details
  | .protocolError code details | .timeExpired code details | .interrupted _ code details
  | .noFileOrDirectory _ code details | .invalidArgument _ code details
  | .permissionDenied _ code details | .resourceExhausted _ code details
  | .inappropriateType _ code details | .noSuchThing _ code details
  | .alreadyExists _ code details => s!"{details} (os error {code})"
  | e => toString e

/-- The error that the system reports. Those that files and directories do not account for are
refusals. -/
def fileError : IO.Error → FileError
  | .noFileOrDirectory .. => .notFound
  | .alreadyExists .. => .alreadyExists
  | .inappropriateType _ 20 _ => .notADirectory
  | .inappropriateType _ 21 _ => .isADirectory
  | e => .refused (systemMessage e)

/-- A run, which ends early with the message of a failure. -/
abbrev Run := ExceptT String IO

/-- Does something that may fail. -/
def attempt {α : Type} (describe : FileError → Failure) (act : IO α) : Run α := do
  match ← act.toBaseIO with
  | .ok a => return a
  | .error e => throw (describe (fileError e)).message

/-- Makes one directory. Where it cannot be made, one that is there already will do. -/
def ensureDirectory (d : String) : IO Unit := do
  try
    IO.FS.createDir d
  catch
    | .noFileOrDirectory file code details => throw (.noFileOrDirectory file code details)
    | e =>
      unless ← ((← IO.currentDir) / d).isDir do
        throw e

/-- Makes the first directory of a list, and before it those of the others that are missing. -/
def ensureFirst : List String → IO Unit
  | [] => pure ()
  | d :: outer => do
    try
      ensureDirectory d
    catch
      | .noFileOrDirectory .. => do
        ensureFirst outer
        ensureDirectory d
      | e => throw e

/-- Makes a directory and those around it. -/
def makeDirectories (path : String) : IO Unit :=
  unless path = "" do
    ensureFirst (path :: (FileTree.around path).map fun names => "/".intercalate names)

/-- Shows a record, if there is anyone to show it to. -/
def showRecord (v : Verbosity) (r : Record) : IO Unit := do
  if v.shows r.level then
    discard (IO.eprintln r.line).toBaseIO

/-- Makes a file hold a text, and sees to it that the text gets there. -/
def writeText (path text : String) : IO Unit :=
  IO.FS.withFile path .write fun out => do
    out.putStr text
    out.flush

/-- Has one effect. -/
def performEffect (v : Verbosity) : Effect → Run Unit
  | .report r => showRecord v r
  | .write path text => attempt (.writing path) (writeText path text)
  | .makeDirectories path => attempt (.makingDirectory path) (makeDirectories path)
  | .print text => attempt .printing do
    let out ← IO.getStdout
    out.putStr text
    out.flush

/-- Carries out a run. -/
def runOptions (o : Options) (v : Verbosity) : Run Unit := do
  let bytes ← attempt (.reading o.input) (IO.FS.readBinFile o.input)
  match String.fromUTF8? bytes with
  | some text => (o.plan (FoldFile.ofText text)).forM (performEffect v)
  | none => throw (Failure.reading o.input .notText).message

/-- The finest level to be shown. -/
def verbosity : IO Verbosity := do
  return ((← IO.getEnv "RUST_LOG").bind Verbosity.ofName?).getD Verbosity.standard

end CaseFolding

open CaseFolding in
/-- Runs the command. -/
def main (arguments : List String) : IO UInt32 := do
  match Request.read arguments with
  | .error e =>
    IO.eprint (e.message ++ usageHint)
    return 1
  | .ok .help =>
    IO.print usage
    return 0
  | .ok (.run o) =>
    match ← (runOptions o (← verbosity)).run with
    | .ok () => return 0
    | .error message =>
      IO.eprint message
      return 1
