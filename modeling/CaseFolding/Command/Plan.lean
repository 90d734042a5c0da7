import CaseFolding.Command.FileTree
import CaseFolding.Command.Options
import CaseFolding.Utf8
import CaseFolding.Table.Row

namespace CaseFolding

/-! # What a run does

The options and the case folding file fix all that a run does. It is a list of
effects, so nothing that happens on the way can change what is written later,
not even where a run overwrites its own input.
-/

/-- One thing that a run does. -/
inductive Effect where
  /-- Reports a record. -/
  | report (r : Record)
  /-- Writes a file. -/
  | write (path text : String)
  /-- Makes a directory and those around it. -/
  | makeDirectories (path : String)
  /-- Writes to the standard output. -/
  | print (text : String)
deriving DecidableEq

namespace Artifact

/-! ## Artifacts -/

/-- The line that names the version of the case folding file, if it has one. -/
def header (f : FoldFile) : String :=
  Text.ofLines (f.version.toList.map ("// Generated from " ++ ·))

/-- The lines that say what the code covers and costs. -/
def trailer (conversions : Nat) (s : Stats) : String :=
  Text.ofLines [s!"// {conversions} case conversions", "// " ++ s.text]

/-- Code as the body of a function over `var`. -/
def inFunction (name var code : String) : String :=
  Text.ofLines ["#include <stdint.h>", "", s!"unsigned {name}(unsigned {var})", "\x7b"] ++ code ++
    Text.ofLines ["\x7d"]

/-- The artifact with single-width code. -/
def singleWidth (o : Options) (f : FoldFile) (l : Listing) : String :=
  header f ++ o.function.elim l.text (fun name => inFunction name o.var l.text) ++
    trailer f.table.size l.stats

/-- The line that says for which codepoints the code for one UTF-8 length is. -/
def armHeader (n : Utf8Length) : String :=
  Text.ofLines [s!"// UTF-8 length {n.bytes}: U+" ++ n.span.first.hex ++ "..U+" ++ n.span.last.hex]

/-- The artifact with the code for one UTF-8 length. -/
def arm (f : FoldFile) (a : Arm) : String :=
  header f ++ armHeader a.length ++ a.listing.text ++
    trailer (f.table.within a.length.span).length a.listing.stats

/-- The name of the file for one UTF-8 length. -/
def armName (n : Utf8Length) : String :=
  s!"fold_utf8_{n.bytes}.inc"

/-- The codepoints of the basic plane. -/
def basicPlane : List Codepoint :=
  (List.range 0x10000).map UInt32.ofNat

/-- The fold of every codepoint of the basic plane, a line for each. -/
def dump (table : Table) : String :=
  Text.ofLines (basicPlane.map fun c => c.hex ++ " => " ++ (table.fold c).hex)

end Artifact

namespace Options

/-! ## Effects -/

/-- Reports records. -/
def reports (rs : List Record) : List Effect := rs.map .report

/-- Reports a remark. -/
def remark (message : String) : Effect := .report ⟨.info, message⟩

/-- Generates single-width code and puts it where it belongs. -/
def singleWidthPlan (o : Options) (f : FoldFile) : List Effect :=
  let l := f.table.listing o.config o.var .toCaller
  let artifact := Artifact.singleWidth o f l
  reports (f.table.listingRecords o.config) ++
    [remark l.stats.text, o.output.elim (.print artifact) fun path => .write path artifact]

/-- Writes the artifact of one UTF-8 length. -/
def armPlan (f : FoldFile) (dir : String) (a : Arm) : List Effect :=
  let path := FileTree.inDirectory dir (Artifact.armName a.length)
  [.write path (Artifact.arm f a), remark (path ++ ": " ++ a.listing.stats.text)]

/-- Generates code for each UTF-8 length and writes it into a directory. -/
def armsPlan (o : Options) (f : FoldFile) (dir : String) : List Effect :=
  let arms := f.table.arms o.config o.var o.result
  .makeDirectories dir :: reports (f.table.armRecords o.config) ++
    arms.flatMap (armPlan f dir) ++ [remark ("total: " ++ (Arm.totalStats arms).text)]

/-- Writes the folds of the basic plane, if asked for. -/
def dumpPlan (o : Options) (f : FoldFile) : List Effect :=
  o.dump.toList.map fun path => .write path (Artifact.dump f.table)

/-- All that a run does once it has read the case folding file. -/
def plan (o : Options) (f : FoldFile) : List Effect :=
  remark (o.input ++ s!": {f.table.size} case conversions") :: o.dumpPlan f ++
    o.utf8.elim (o.singleWidthPlan f) (o.armsPlan f)

end Options

end CaseFolding
