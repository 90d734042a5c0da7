import CaseFolding.Record
import CaseFolding.Table.Basic

namespace CaseFolding

/-! # Intervals

An interval is a run of consecutive codepoints with a folded value for each.
It is given by its first codepoint and the values; where it ends follows.
-/

/-- Consecutive codepoints from `first` on, one for each value. -/
structure Interval where
  first : Codepoint
  values : List Codepoint
deriving DecidableEq

namespace Interval

/-- An interval has at least one value. -/
def ofValues (first : Codepoint) (values : List Codepoint) : Except Fault Interval :=
  if values = [] then .error (.noValues first) else .ok ⟨first, values⟩

/-- The number of codepoints. -/
def size (i : Interval) : Nat := i.values.length

/-- The last codepoint. -/
def last (i : Interval) : Codepoint := i.first + UInt32.ofNat i.size - 1

/-- The codepoints covered. -/
def span (i : Interval) : Span := ⟨i.first, i.last⟩

/-- Whether `c` is covered. -/
def contains (i : Interval) (c : Codepoint) : Bool := i.span.contains c

/-- The value of `c`, if it is covered. -/
def get? (i : Interval) (c : Codepoint) : Option Codepoint :=
  if i.contains c then i.values[(c - i.first).toNat]? else none

/-- The codepoints with their values, in ascending order. -/
def pairs (i : Interval) : List Entry :=
  i.values.mapIdx fun k v => (i.first + UInt32.ofNat k, v)

@[simp]
theorem length_pairs (i : Interval) : i.pairs.length = i.size := by
  simp [pairs, size]

@[simp]
theorem map_snd_pairs (i : Interval) : i.pairs.map (·.2) = i.values := by
  apply List.ext_getElem?
  intro k
  cases h : i.values[k]? <;> simp [pairs, h]

/-- What is reported of an interval that has been found. -/
def record (i : Interval) : Record :=
  ⟨.debug, "interval " ++ i.first.hex ++ "..=" ++ i.last.hex ++ s!": {i.size} codepoints"⟩

end Interval

end CaseFolding
