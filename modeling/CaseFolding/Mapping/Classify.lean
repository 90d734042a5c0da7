import CaseFolding.Config
import CaseFolding.Interval.Basic
import CaseFolding.Mapping.Basic
import CaseFolding.Table.Gaps

namespace CaseFolding

/-! # Choosing a form for an interval

Each rule looks for one closed form. The rules are tried in a fixed order and
the first one that is switched on and applies decides. A single codepoint
needs no rule, and an interval to which none applies gets a lookup table.
-/

/-- The rule for one deviating codepoint wants more conforming ones than this. -/
def conformingMin : Nat := 4

/-- The rules that a switch turns on and off. -/
inductive Rule where
  | delta
  | deltaException
  | set
  | reset
  | setException
deriving DecidableEq

/-- Whether a rule is switched on. -/
def Switches.allows (s : Switches) : Rule → Bool
  | .delta => s.delta
  | .deltaException => s.deltaException
  | .set => s.set
  | .reset => s.reset
  | .setException => s.setException

namespace Interval

/-! ## What the rules look at -/

/-- How far each value lies above its codepoint. -/
def deltas (i : Interval) : List Int :=
  i.pairs.map fun e => (e.2.toNat : Int) - e.1.toNat

/-- Whether a value is its codepoint with the lowest bit set. -/
def isSet (e : Entry) : Bool := e.1 ||| 1 == e.2

/-- Whether a value without its lowest bit is its codepoint. -/
def isReset (e : Entry) : Bool := e.2 &&& ~~~1 == e.1

/-- The number of codepoints whose lowest bit is set. -/
def setCount (i : Interval) : Nat := i.pairs.countP isSet

/-- The number of codepoints whose value differs from them in the lowest bit at most, with that
bit clear in the codepoint. -/
def resetCount (i : Interval) : Nat := i.pairs.countP isReset

/-- The codepoints whose value is not that with the lowest bit set. -/
def exceptions (i : Interval) : Table :=
  Table.ofList (i.pairs.filter fun e => !isSet e)

/-! ## The rules -/

/-- The form that takes the values one by one. -/
def listed (i : Interval) : Form :=
  match i.values with
  | [v] => .single v
  | vs => .table vs

/-- All values lie equally far above their codepoints. -/
def delta? (i : Interval) : Option Form :=
  match i.deltas with
  | [] => none
  | d :: ds => if ds.all (· == d) then some (.delta d) else none

/-- All values but one lie equally far above their codepoints. Such a distance is found at one of
the first two codepoints. -/
def deltaException? (i : Interval) : Option Form :=
  if i.size - 1 ≤ conformingMin then none
  else do
    let d ← (i.deltas.take 2).find? fun d => i.deltas.count d == i.size - 1
    let e ← i.pairs.find? fun e => (e.2.toNat : Int) - e.1.toNat != d
    return .deltaException d e.1 e.2

/-- All values are their codepoints with the lowest bit set. -/
def set? (i : Interval) : Option Form :=
  if i.setCount = i.size then some .set else none

/-- All values without their lowest bit are their codepoints. -/
def reset? (i : Interval) : Option Form :=
  if i.resetCount = i.size then some (.reset i.values) else none

/-- The exceptions to the lowest bit being set, with the few conforming codepoints between them,
make a run, and codepoints remain outside of it. -/
def setException? (i : Interval) : Option Form :=
  if i.exceptions.entries = [] then none
  else
    match i.exceptions.closeGaps (· ||| 1) with
    | (none, _) => none
    | (some patches, run) =>
      let outside := i.setCount - patches
      if outside = 0 ∨ run.size + outside ≠ i.size then none
      else
        run.entries.head?.map fun e =>
          let patch : Interval := ⟨e.1, run.entries.map (·.2)⟩
          .setException patch.span patch.listed

end Interval

namespace Rule

/-- The rules in the order in which they are tried. -/
def inOrder : List Rule := [.delta, .deltaException, .set, .reset, .setException]

/-- The form that a rule finds for an interval. -/
def form? (i : Interval) : Rule → Option Form
  | .delta => i.delta?
  | .deltaException => i.deltaException?
  | .set => i.set?
  | .reset => i.reset?
  | .setException => i.setException?

/-- What the rules that are switched on find, the first one winning. -/
def firstForm? (s : Switches) (rules : List Rule) (i : Interval) : Option Form :=
  (rules.filter s.allows).findSome? (form? i)

/-- The rule in front decides if it is switched on and finds something. -/
theorem firstForm?_cons (s : Switches) (r : Rule) (rules : List Rule) (i : Interval) :
    firstForm? s (r :: rules) i =
      if s.allows r = true then (form? i r).or (firstForm? s rules i)
      else firstForm? s rules i := by
  rw [firstForm?]
  split
  next hr =>
    rw [List.filter_cons_of_pos hr, List.findSome?_cons]
    cases form? i r <;> rfl
  next hr =>
    rw [List.filter_cons_of_neg hr]
    rfl

end Rule

namespace Interval

/-! ## The choice -/

/-- The form chosen for an interval. -/
def form (s : Switches) (i : Interval) : Form :=
  if i.size = 1 then i.listed
  else (Rule.firstForm? s Rule.inOrder i).getD (.table i.values)

/-- The mapping that stands for an interval. -/
def classify (s : Switches) (i : Interval) : Mapping :=
  ⟨i.span, i.form s⟩

/-! ## What can go wrong with the choice -/

/-- Why no form can be chosen for an interval. Counting along its codepoints takes two steps beyond
the last one, and the codepoints that close the gaps between exceptions are taken from those that
are none. A single codepoint needs no counting. -/
def fault? (i : Interval) : Option Fault :=
  if i.values = [] then some (.noValues i.first)
  else if i.size = 1 then none
  else if UInt32.size ≤ i.first.toNat + i.size + 1 then some .sumTooLarge
  else
    match (i.exceptions.closeGaps (· ||| 1)).1 with
    | none => none
    | some patches => if i.setCount < patches then some .countTooSmall else none

/-- The mapping that stands for an interval, unless something goes wrong. -/
def classify? (s : Switches) (i : Interval) : Except Fault Mapping :=
  match i.fault? with
  | some f => .error f
  | none => .ok (i.classify s)

/-! ## What is reported of the choice -/

/-- A rule that fits some codepoints but not all of them. -/
def partialFit (name : String) (count : Nat) (i : Interval) : List Record :=
  if count ≠ 0 ∧ count ≠ i.size then
    [⟨.warn, name ++ ": " ++ i.first.hex ++ s!": {count} of {i.size} codepoints"⟩]
  else []

/-- Exceptions that lie too far apart to make a run, if it comes to looking for one. -/
def scattered (s : Switches) (i : Interval) : List Record :=
  if s.setException ∧ Rule.firstForm? s (Rule.inOrder.takeWhile (· ≠ .setException)) i = none ∧
      (i.exceptions.closeGaps (· ||| 1)).1 = none then
    [⟨.debug, "set-exception: " ++ i.first.hex ++
      s!": exceptions not sequential within {patchLimit} patches"⟩]
  else []

/-- The form that was chosen. -/
def chosen (s : Switches) (i : Interval) : Record :=
  ⟨.debug, i.first.hex ++ "..=" ++ i.last.hex ++ ": " ++ (i.form s).kind.name⟩

/-- The records of choosing a form. A single codepoint is not put to the rules. -/
def classifyRecords (s : Switches) (i : Interval) : List Record :=
  if i.size = 1 then [i.chosen s]
  else
    i.partialFit "set" i.setCount ++ i.partialFit "reset" i.resetCount ++ i.scattered s ++
      [i.chosen s]

end Interval

end CaseFolding
