import CaseFolding.Fault

namespace CaseFolding

/-! # Mappings

A mapping is a span of codepoints together with a closed form that computes
what each of them folds to.
-/

/-! ## Closed forms -/

/-- How the folded value of a codepoint `c` of a span is computed. -/
inductive Form where
  /-- The span is one codepoint with this result. -/
  | single (result : Codepoint)
  /-- The value lies `delta` above `c`. -/
  | delta (delta : Int)
  /-- The value lies `delta` above `c`, but one codepoint has a result of its own. -/
  | deltaException (delta : Int) (exception result : Codepoint)
  /-- The value is `c` with its lowest bit set. -/
  | set
  /-- Each value is `c` but for its lowest bit, which leaves nothing to compute with: the value is
  looked up. -/
  | reset (values : List Codepoint)
  /-- The value is `c` with its lowest bit set, but codepoints of the inner span follow a form of
  their own. -/
  | setException (inner : Span) (patch : Form)
  /-- The value is looked up. -/
  | table (values : List Codepoint)
deriving DecidableEq

/-- The kinds of forms, in the order in which they are listed in reports. -/
inductive Kind where
  | single
  | delta
  | deltaException
  | set
  | reset
  | setException
  | table
deriving DecidableEq

namespace Kind

/-- Every kind, in order. -/
def all : List Kind :=
  [.single, .delta, .deltaException, .set, .reset, .setException, .table]

/-- The name of a kind in reports. -/
def name : Kind → String
  | .single => "single"
  | .delta => "delta"
  | .deltaException => "delta-exception"
  | .set => "set"
  | .reset => "reset"
  | .setException => "set-exception"
  | .table => "translation"

end Kind

namespace Form

/-- The kind of a form. -/
def kind : Form → Kind
  | single .. => .single
  | delta .. => .delta
  | deltaException .. => .deltaException
  | set => .set
  | reset .. => .reset
  | setException .. => .setException
  | table .. => .table

/-- The codepoint `delta` above `c`, reduced to 32 bits. -/
def offset (c : Codepoint) (delta : Int) : Codepoint :=
  UInt32.ofInt (c.toNat + delta)

/-- The value that a list starting at `first` holds for `c`. -/
def lookup (first : Codepoint) (values : List Codepoint) (c : Codepoint) :
    Except Fault Codepoint :=
  match values[(c - first).toNat]? with
  | some v => .ok v
  | none => .error (.outOfBounds values.length (c - first).toNat)

/-- What a form computes for a codepoint of a span that starts at `first`. -/
def apply : Form → (first c : Codepoint) → Except Fault Codepoint
  | single result, _, _ => .ok result
  | delta d, _, c => .ok (offset c d)
  | deltaException d exception result, _, c =>
    .ok (if c = exception then result else offset c d)
  | set, _, c => .ok (c ||| 1)
  | reset values, first, c => lookup first values c
  | setException inner patch, _, c =>
    if inner.contains c then patch.apply inner.first c else .ok (c ||| 1)
  | table values, first, c => lookup first values c

end Form

/-! ## Mappings -/

/-- A span and the form of its folds. -/
structure Mapping where
  span : Span
  form : Form
deriving DecidableEq

namespace Mapping

/-- The first codepoint, by which mappings are told apart and ordered. -/
def first (m : Mapping) : Codepoint := m.span.first

/-- The last codepoint. -/
def last (m : Mapping) : Codepoint := m.span.last

/-- Whether `c` lies in the span. -/
def contains (m : Mapping) (c : Codepoint) : Bool := m.span.contains c

/-- The number of codepoints. -/
def size (m : Mapping) : Nat := m.span.size

/-- What a codepoint of the span folds to. -/
def apply (m : Mapping) (c : Codepoint) : Except Fault Codepoint :=
  m.form.apply m.first c

end Mapping

end CaseFolding
