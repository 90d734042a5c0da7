import CaseFolding.Code.Basic

namespace CaseFolding

/-! # Running generated code

Code runs on a value of its variable: statements in order, a block only if all
of its tests hold, `goto` on from its label. All arithmetic is modulo `2 ^ 32`.
A table is looked up at the width of its elements and within its bounds; a
lookup that cannot be made, a missing label and a result that never comes are
no results.
-/

/-! ## Tests and values -/

/-- Whether a comparison of `c` with a bound holds. -/
def Relation.holds : Relation → (c bound : Codepoint) → Bool
  | .lt, c, b => c < b
  | .gt, c, b => b < c
  | .eq, c, b => c == b
  | .ge, c, b => b ≤ c
  | .le, c, b => c ≤ b

/-- Whether a test of `c` holds. -/
def Test.holds (c : Codepoint) (t : Test) : Bool :=
  t.relation.holds c t.bound

/-- Whether all tests of `c` hold, and how many of them it took to find out: the first one that
fails is the last one made. -/
def evalTests (c : Codepoint) : List Test → Bool × Nat
  | [] => (true, 0)
  | t :: ts =>
    if t.holds c then
      let (holds, made) := evalTests c ts
      (holds, made + 1)
    else (false, 1)

/-- What an element of a table keeps of a number: as many of its low bits as it is wide. -/
def Element.keep : Element → Codepoint → Codepoint
  | .bits8, v => v &&& 0xFF
  | .bits16, v => v &&& 0xFFFF
  | .bits32, v => v

/-- The element of a table at an index within its bounds. -/
def ConstTable.get? (t : ConstTable) (index : Nat) : Option Codepoint :=
  t.values[index]?.map t.element.keep

/-- The value of an expression where the given tables have been declared. -/
def Value.eval? (tables : List ConstTable) (c : Codepoint) : Value → Option Codepoint
  | .constant v => some v
  | .same => some c
  | .plus n => some (c + UInt32.ofNat n)
  | .minus n => some (c - UInt32.ofNat n)
  | .setBit => some (c ||| 1)
  | .entry table base => do (← tables.find? (·.name == table)).get? (c - base).toNat

/-! ## Statements -/

/-- What has happened so far. -/
structure Trace where
  /-- The tables that have been declared, the latest one first. -/
  tables : List ConstTable := []
  /-- The assignments, in order. -/
  assigned : List (String × Codepoint) := []
  /-- The number of comparisons. -/
  comparisons : Nat := 0
deriving DecidableEq

/-- How a piece of code ends. -/
inductive Ending where
  /-- Control reaches its end. -/
  | fell
  /-- Control goes on at a label. -/
  | jumped (label : String)
  /-- A value is handed to the caller. -/
  | returned (value : Codepoint)
  /-- The enclosing switch is left. -/
  | left
  /-- There is no way on. -/
  | stuck
deriving DecidableEq

namespace Code

/-- Runs code up to its end or the first jump. -/
def walk (c : Codepoint) : Code → Trace → Ending × Trace
  | done, s => (.fell, s)
  | next (.label _) rest, s => rest.walk c s
  | next (.goto l) _, s => (.jumped l, s)
  | next (.ret v) _, s =>
    match v.eval? s.tables c with
    | some r => (.returned r, s)
    | none => (.stuck, s)
  | next (.assign target v) rest, s =>
    match v.eval? s.tables c with
    | some r => rest.walk c { s with assigned := s.assigned ++ [(target, r)] }
    | none => (.stuck, s)
  | next .leave _, s => (.left, s)
  | next (.declare t) rest, s => rest.walk c { s with tables := t :: s.tables }
  | guarded tests body rest, s =>
    let (holds, made) := evalTests c tests
    let s' : Trace := { s with comparisons := s.comparisons + made }
    if holds then
      match body.walk c s' with
      | (.fell, s'') => rest.walk c s''
      | ending => ending
    else rest.walk c s'

/-- What follows a label. Labels stand outside of all blocks. -/
def after? (label : String) : Code → Option Code
  | done => none
  | next (.label l) rest => if l = label then some rest else rest.after? label
  | next _ rest => rest.after? label
  | guarded _ _ rest => rest.after? label

/-- Runs a piece of a program with at most a number of jumps. -/
def runFrom (program : Code) (c : Codepoint) : (jumps : Nat) → Code → Trace → Ending × Trace
  | jumps, piece, s =>
    match piece.walk c s, jumps with
    | (.jumped l, s'), jumps + 1 =>
      match program.after? l with
      | some rest => runFrom program c jumps rest s'
      | none => (.stuck, s')
    | (.jumped _, s'), 0 => (.stuck, s')
    | ending, _ => ending

/-- The number of labels. -/
def labelCount : Code → Nat
  | done => 0
  | next (.label _) rest => rest.labelCount + 1
  | next _ rest => rest.labelCount
  | guarded _ _ rest => rest.labelCount

/-- Runs a program from its first statement. Code that only jumps forward passes no label twice, so
it needs no more jumps than it has labels. -/
def run (program : Code) (c : Codepoint) : Ending × Trace :=
  runFrom program c program.labelCount program {}

end Code

end CaseFolding
