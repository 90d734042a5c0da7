import CaseFolding.Listing

namespace CaseFolding

/-! # Code by UTF-8 length

Where text is decoded anyway, its encoded length is known, and the code for a
codepoint can be an arm of a switch over that length. Each length has a span
of its own, so no interval reaches from one arm into another.
-/

/-! ## Lengths -/

/-- The number of bytes that encode a codepoint. -/
inductive Utf8Length where
  | one
  | two
  | three
  | four
deriving DecidableEq

namespace Utf8Length

/-- Every length, in ascending order. -/
def all : List Utf8Length := [one, two, three, four]

/-- The length as a number. -/
def bytes : Utf8Length → Nat
  | one => 1
  | two => 2
  | three => 3
  | four => 4

/-- The codepoints that are encoded in this length. -/
def span : Utf8Length → Span
  | one => ⟨0x0, 0x7F⟩
  | two => ⟨0x80, 0x7FF⟩
  | three => ⟨0x800, 0xFFFF⟩
  | four => ⟨0x10000, 0x1FFFFF⟩

/-- The length in which a codepoint is encoded. -/
def of? (c : Codepoint) : Option Utf8Length :=
  all.find? (·.span.contains c)

end Utf8Length

/-! ## Arms -/

/-- The code for one length. -/
structure Arm where
  length : Utf8Length
  listing : Listing

/-- The statistics of several arms taken together. -/
def Arm.totalStats (arms : List Arm) : Stats :=
  arms.foldl (fun total arm => total.merge arm.listing.stats) {}

namespace Table

/-- The tree for the codepoints of one length. -/
def armTree (t : Table) (config : Config) (n : Utf8Length) : Tree :=
  t.tree n.span config.utf8Gap config.switches

/-- The code for every length, each result being kept in `target` before the switch is left. -/
def arms (t : Table) (config : Config) (var target : String) : List Arm :=
  Utf8Length.all.map fun n => ⟨n, (t.armTree config n).listing var (.toVariable target)⟩

/-- What is reported while the arms are generated. -/
def armRecords (t : Table) (config : Config) : List Record :=
  Utf8Length.all.flatMap fun n => t.treeRecords n.span config.utf8Gap config.switches

end Table

end CaseFolding
