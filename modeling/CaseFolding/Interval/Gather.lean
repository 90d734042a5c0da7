import CaseFolding.Counting
import CaseFolding.Interval.Scan

namespace CaseFolding

/-! # Gathering entries into intervals

Intervals can be found in one walk through ascending entries. One of them grows
at a time: an entry within its reach is added to it, together with the codepoints
on the way there, and any other entry ends it and starts the next one. Of the
entries that are walked through, the first and the last one are searched for
beforehand, from both ends of a span. An interval gives its entries back when its
codepoints are counted up along its values.
-/

namespace Interval

/-! ## Growing intervals -/

/-- An interval that may still grow. Its last codepoint is kept beside its values. -/
structure Growing where
  first : Codepoint
  last : Codepoint
  values : Array Codepoint

namespace Growing

/-- An interval that has one entry so far. -/
def start (e : Entry) : Growing := ⟨e.1, e.1, #[e.2]⟩

/-- Grows by one codepoint. -/
def extend (g : Growing) (c v : Codepoint) : Growing :=
  { g with last := c, values := g.values.push v }

/-- Grows up to right below a codepoint, codepoints on the way keeping their own value. -/
def fill? (g : Growing) (c : Codepoint) : Except Fault Growing :=
  match _hnext : g.last.next? with
  | .error f => .error f
  | .ok next => if next < c then (g.extend next next).fill? c else .ok g
termination_by c.toNat - g.last.toNat
decreasing_by
  have hnext := Codepoint.toNat_of_next?_eq_ok _hnext
  have hlt := UInt32.lt_iff_toNat_lt.mp ‹next < c›
  change c.toNat - next.toNat < c.toNat - g.last.toNat
  omega

/-- Adds an entry. -/
def push? (g : Growing) (e : Entry) : Except Fault Growing :=
  return (← g.fill? e.1).extend e.1 e.2

/-- The interval as it is when it grows no more. -/
def finish (g : Growing) : Interval := ⟨g.first, g.values.toList⟩

end Growing

/-! ## The walk -/

/-- The intervals from the growing one on. -/
def gatherFrom? (gap : UInt32) (g : Growing) : List Entry → Except Fault (List Interval)
  | [] => .ok [g.finish]
  | e :: es =>
    if e.1 ≤ g.last.reach gap then do gatherFrom? gap (← g.push? e) es
    else do return g.finish :: (← gatherFrom? gap (.start e) es)

/-- The intervals of ascending entries. -/
def gather? (gap : UInt32) : List Entry → Except Fault (List Interval)
  | [] => .ok []
  | e :: es => gatherFrom? gap (.start e) es

/-! ## The way back -/

/-- The entries of values from a codepoint on. The codepoint is counted up before it turns out
whether a value is left for it. -/
def pairsFrom? (c : Codepoint) : List Codepoint → Except Fault (List Entry)
  | [] => do
    let _ ← c.next?
    return []
  | v :: vs => do
    let next ← c.next?
    return (c, v) :: (← pairsFrom? next vs)

/-- The entries of an interval, counted up from its first codepoint. -/
def pairs? (i : Interval) : Except Fault (List Entry) := pairsFrom? i.first i.values

end Interval

/-- The intervals of a table within a span, gathered between the first and the last entry that fold
their codepoints to something else. -/
def Table.gather? (t : Table) (s : Span) (gap : UInt32) : Except Fault (List Interval) := do
  let es ← t.query s
  match es.find? (!Interval.isIdentity ·), es.reverse.find? (!Interval.isIdentity ·) with
  | some a, some b => Interval.gather? gap (← t.query ⟨a.1, b.1⟩)
  | _, _ => return []

end CaseFolding
