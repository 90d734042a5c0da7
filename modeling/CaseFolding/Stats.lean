import CaseFolding.Code.Block
import CaseFolding.Counting

namespace CaseFolding

/-! # What generated code costs

The cost of a tree is added up from its mappings. Each node tests the bounds
of its span, which counts as one branch, and a form may test further; lookup
tables take room. Two runs are added up by `merge`, or by `merge?` where the sums
are kept in 64 bits.
-/

/-! ## The cost of a form -/

namespace Form

/-- The comparisons that the code of a form makes in addition to the test of its span. -/
def guards : Form → (span : Span) → Nat
  | deltaException .., _ => 1
  | setException inner patch, span => (span.innerTests inner).length + patch.guards inner
  | _, _ => 0

/-- The bytes taken by a lookup table of the given values. -/
def listBytes (values : List Codepoint) : Nat :=
  values.length * (Element.holding values).bytes

/-- The bytes of the lookup tables that a form needs. -/
def tableBytes : Form → Nat
  | reset values => listBytes values
  | table values => listBytes values
  | setException _ patch => patch.tableBytes
  | _ => 0

end Form

/-! ## Counts of kinds -/

/-- How often each kind occurs, which is not the same for a kind that is listed with no occurrence
and a kind that is not listed. -/
abbrev KindCounts := Kind → Option Nat

namespace KindCounts

/-- No kind is listed. -/
def none : KindCounts := fun _ => .none

/-- The kinds of a list, each with its number of occurrences. -/
def ofList (ks : List Kind) : KindCounts :=
  fun k => if k ∈ ks then some (ks.count k) else .none

/-- Adds counts; a kind is listed if either side lists it. -/
def add (a b : KindCounts) : KindCounts :=
  fun k =>
    match a k, b k with
    | some m, some n => some (m + n)
    | some m, .none => some m
    | .none, n => n

/-- The listed kinds with their counts, in order. -/
def toList (a : KindCounts) : List (Kind × Nat) :=
  Kind.all.filterMap fun k => (a k).map fun n => (k, n)

/-- Raises the count of a kind, which is listed from then on. -/
def raise? (a : KindCounts) (k : Kind) (n : Nat) : Except Fault KindCounts := do
  let total ← sum? ((a k).getD 0) n
  return fun k' => if k' = k then some total else a k'

/-- Raises the counts of kinds one after the other. -/
def raiseEach? (a : KindCounts) (es : List (Kind × Nat)) : Except Fault KindCounts :=
  es.foldlM (fun a e => a.raise? e.1 e.2) a

end KindCounts

/-! ## Statistics -/

/-- What a run of the generator adds up to. -/
@[ext]
structure Stats where
  /-- The number of mappings. -/
  intervals : Nat := 0
  /-- The number of tests: one for each span and one for each guard. -/
  branches : Nat := 0
  /-- The bytes of all lookup tables. -/
  dataSize : Nat := 0
  /-- The height of the highest tree. -/
  height : Nat := 0
  /-- The number of mappings of each kind. -/
  kinds : KindCounts := KindCounts.none

namespace Stats

/-- The number of mappings of a kind. -/
def count (s : Stats) (k : Kind) : Nat :=
  (s.kinds k).getD 0

/-- Adds up two runs, keeping the larger height. -/
def merge (a b : Stats) : Stats where
  intervals := a.intervals + b.intervals
  branches := a.branches + b.branches
  dataSize := a.dataSize + b.dataSize
  height := max a.height b.height
  kinds := a.kinds.add b.kinds

/-- Adds up two runs number by number, as long as the sums can be kept. -/
def merge? (a b : Stats) : Except Fault Stats := do
  let intervals ← sum? a.intervals b.intervals
  let branches ← sum? a.branches b.branches
  let dataSize ← sum? a.dataSize b.dataSize
  let kinds ← a.kinds.raiseEach? b.kinds.toList
  return { intervals, branches, dataSize, height := max a.height b.height, kinds }

/-- The statistics of the code for a tree. -/
def ofTree (t : Tree) : Stats where
  intervals := t.size
  branches := t.total fun m => m.form.guards m.span + 1
  dataSize := t.total fun m => m.form.tableBytes
  height := t.height
  kinds := KindCounts.ofList (t.toList.map (·.form.kind))

/-- The statistics in words, each listed kind with its count. -/
def text (s : Stats) : String :=
  s!"{s.intervals} intervals, {s.branches} branches, " ++
    s!"{s.dataSize} bytes of data, tree height {s.height}" ++
    String.join (s.kinds.toList.map fun (k, n) => s!", {n} " ++ k.name)

end Stats

end CaseFolding
