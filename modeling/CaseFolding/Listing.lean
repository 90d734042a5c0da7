import CaseFolding.Code.Printer
import CaseFolding.Interval.Scan
import CaseFolding.Mapping.Classify
import CaseFolding.Stats

namespace CaseFolding

/-! # From a table to code

The intervals of a table are given their forms in ascending order and hung in
a dispatch tree, whose code folds like the table. A listing is the text of
that code together with what it costs.
-/

/-! ## The tree of a table -/

/-- The tree of intervals. -/
def Tree.ofIntervals (s : Switches) (is : List Interval) : Tree :=
  Tree.ofList (is.map (·.classify s))

/-- What is reported while a tree is made: first all intervals, then the choice of their forms. -/
def Tree.recordsOfIntervals (s : Switches) (is : List Interval) : List Record :=
  is.map (·.record) ++ is.flatMap (·.classifyRecords s)

namespace Table

/-- The dispatch tree for the part of a table within a span. -/
def tree (t : Table) (span : Span) (gap : UInt32) (s : Switches) : Tree :=
  Tree.ofIntervals s (t.intervals span gap)

/-- The dispatch tree for the part of a table within a span whose bounds must be in order, unless
something goes wrong on the way. -/
def tree? (t : Table) (span : Span) (gap : UInt32) (s : Switches) : Except Fault Tree := do
  let is ← t.intervals? span gap
  return Tree.ofList (← is.mapM (·.classify? s))

/-- What is reported while the tree is made. -/
def treeRecords (t : Table) (span : Span) (gap : UInt32) (s : Switches) : List Record :=
  Tree.recordsOfIntervals s (t.intervals span gap)

end Table

/-! ## Listings -/

/-- The text of generated code and what it costs. -/
structure Listing where
  text : String
  stats : Stats

/-- The code for a tree, over the variable `var`. -/
def Tree.listing (t : Tree) (var : String) (sink : Sink) : Listing :=
  ⟨(t.code sink).text var, Stats.ofTree t⟩

/-! ## Single-width code -/

namespace Table

/-- The tree for every codepoint that generated code tells apart. -/
def wholeTree (t : Table) (config : Config) : Tree :=
  t.tree Span.folded config.gap config.switches

/-- Single-width code, which takes any codepoint. -/
def listing (t : Table) (config : Config) (var : String) (sink : Sink) : Listing :=
  (t.wholeTree config).listing var sink

/-- What is reported while single-width code is generated. -/
def listingRecords (t : Table) (config : Config) : List Record :=
  t.treeRecords Span.folded config.gap config.switches

end Table

end CaseFolding
