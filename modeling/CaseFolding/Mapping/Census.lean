import CaseFolding.Counting
import CaseFolding.Mapping.Classify

namespace CaseFolding

/-! # Choosing by counts

The rules need not look at every value. One walk along an interval counts how often
each distance between a codepoint and its value occurs, and how many values fit the
rules for the lowest bit; the rules are put to these counts and go back to the
values only for what deviates. Whatever is counted up or down on the way has to stay
within its bounds.
-/

/-! ## Counting -/

/-- What a walk along an interval counts. -/
structure Census where
  /-- The distances that occur, in ascending order, and how often each of them does. -/
  distances : List (Int × Nat) := []
  /-- The values that are their codepoints with the lowest bit set. -/
  set : Nat := 0
  /-- The values that are their codepoints when they lose their lowest bit. -/
  reset : Nat := 0
deriving DecidableEq

namespace Census

/-- How far the value of an entry lies above its codepoint. -/
def distance (e : Entry) : Int := (e.2.toNat : Int) - e.1.toNat

/-- Counts a distance once more. -/
def countDistance (d : Int) : List (Int × Nat) → List (Int × Nat)
  | [] => [(d, 1)]
  | p :: ps =>
    if d < p.1 then (d, 1) :: p :: ps
    else if p.1 < d then p :: countDistance d ps
    else (p.1, p.2 + 1) :: ps

/-- Counts an entry. -/
def add (k : Census) (e : Entry) : Census where
  distances := countDistance (distance e) k.distances
  set := if Interval.isSet e then k.set + 1 else k.set
  reset := if Interval.isReset e then k.reset + 1 else k.reset

/-- Counts the values from a codepoint on. The codepoint is counted up before it turns out whether a
value is left for it. -/
def along? (k : Census) (c : Codepoint) : List Codepoint → Except Fault Census
  | [] => do
    let _ ← c.next?
    return k
  | v :: vs => do
    let next ← c.next?
    (k.add (c, v)).along? next vs

/-- Counts the values of an interval. -/
def ofInterval? (i : Interval) : Except Fault Census := along? {} i.first i.values

/-! ## What the rules make of the counts -/

/-- The lowest distance, if it occurs at each of so many codepoints. -/
def uniform? (k : Census) (size : Nat) : Option Int :=
  match k.distances with
  | [] => none
  | p :: _ => if p.2 = size then some p.1 else none

/-- The lowest distance that occurs so many times. -/
def occurring? (k : Census) (times : Nat) : Option Int :=
  (k.distances.find? (·.2 == times)).map (·.1)

/-- All values but one lie equally far above their codepoints. -/
def deltaException? (k : Census) (i : Interval) : Except Fault (Option Form) := do
  let conforming ← remaining? i.size 1
  if conforming ≤ conformingMin then return none
  return do
    let d ← k.occurring? conforming
    let e ← i.pairs.find? (distance · != d)
    some (.deltaException d e.1 e.2)

/-- The exceptions to the lowest bit being set make a run, and codepoints remain outside of it. -/
def setException? (k : Census) (i : Interval) : Except Fault (Option Form) :=
  if i.exceptions.entries = [] then .ok none
  else
    match i.exceptions.closeGaps (· ||| 1) with
    | (none, _) => .ok none
    | (some patches, run) => do
      let outside ← remaining? k.set patches
      if outside = 0 ∨ run.size + outside ≠ i.size then return none
      match run.entries with
      | [] => return none
      | e :: es =>
        let past ← e.1.plus? run.size
        let patch : Interval := ⟨e.1, (e :: es).map (·.2)⟩
        return some (.setException ⟨e.1, past - 1⟩ patch.listed)

/-- The form that a rule finds for an interval with these counts. -/
def form? (k : Census) (i : Interval) : Rule → Except Fault (Option Form)
  | .delta => .ok ((k.uniform? i.size).map .delta)
  | .deltaException => k.deltaException? i
  | .set => .ok (if k.set = i.size then some .set else none)
  | .reset => .ok (if k.reset = i.size then some (.reset i.values) else none)
  | .setException => k.setException? i

/-- What the rules that are switched on find, the first one winning. -/
def firstForm? (k : Census) (s : Switches) (i : Interval) : List Rule → Except Fault (Option Form)
  | [] => .ok none
  | r :: rs =>
    if s.allows r then do
      match ← k.form? i r with
      | some f => return some f
      | none => k.firstForm? s i rs
    else k.firstForm? s i rs

end Census

/-! ## The choice -/

namespace Interval

/-- The form that is chosen for an interval by its counts. -/
def formByCount? (s : Switches) (i : Interval) : Except Fault Form :=
  if i.size = 1 then .ok i.listed
  else do
    let k ← Census.ofInterval? i
    return (← k.firstForm? s i Rule.inOrder).getD (.table i.values)

end Interval

end CaseFolding
