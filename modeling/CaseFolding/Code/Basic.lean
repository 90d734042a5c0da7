import CaseFolding.Codepoint

namespace CaseFolding

/-! # Generated code

Generated code is a small part of C. It computes with one unsigned variable
that it never changes, and is made of labelled statements, jumps to labels,
guarded blocks, constant lookup tables, and the statements that deliver a
result. The variable has no name here; it gets one when the code is printed.
-/

/-! ## Expressions -/

/-- How the variable is compared with a bound. -/
inductive Relation where
  | lt
  | gt
  | eq
  | ge
  | le
deriving DecidableEq

/-- A comparison of the variable with a bound. -/
structure Test where
  relation : Relation
  bound : Codepoint
deriving DecidableEq

/-- An expression for a result. -/
inductive Value where
  /-- A constant. -/
  | constant (value : Codepoint)
  /-- The variable itself. -/
  | same
  /-- The variable plus a number. -/
  | plus (amount : Nat)
  /-- The variable minus a number. -/
  | minus (amount : Nat)
  /-- The variable with its lowest bit set. -/
  | setBit
  /-- The element of a lookup table at the distance of the variable from `base`. -/
  | entry (table : String) (base : Codepoint)
deriving DecidableEq

/-- The expression for the variable plus a signed number. -/
def Value.offset (delta : Int) : Value :=
  if delta = 0 then .same
  else if 0 < delta then .plus delta.natAbs
  else .minus delta.natAbs

/-! ## Lookup tables -/

/-- The element types of lookup tables, by width. -/
inductive Element where
  | bits8
  | bits16
  | bits32
deriving DecidableEq

namespace Element

/-- The width of an element in bytes. -/
def bytes : Element → Nat
  | bits8 => 1
  | bits16 => 2
  | bits32 => 4

/-- The narrowest type that holds every value of a list. -/
def holding (values : List Codepoint) : Element :=
  if values.all (· ≤ 0xFF) then bits8
  else if values.all (· ≤ 0xFFFF) then bits16
  else bits32

end Element

/-- A constant array. -/
structure ConstTable where
  name : String
  element : Element
  values : List Codepoint
deriving DecidableEq

/-! ## Statements -/

/-- A statement without parts of its own. -/
inductive Stmt where
  | label (name : String)
  | goto (name : String)
  | ret (value : Value)
  | assign (target : String) (value : Value)
  | leave
  | declare (table : ConstTable)
deriving DecidableEq

/-- Statements one after the other. -/
inductive Code where
  /-- No statement. -/
  | done
  /-- A simple statement and what follows it. -/
  | next (stmt : Stmt) (rest : Code)
  /-- A block that is entered if all tests hold, and what follows it. -/
  | guarded (tests : List Test) (body rest : Code)
deriving DecidableEq

namespace Code

/-- The statements of `a` and then those of `b`. -/
def append : Code → Code → Code
  | done, b => b
  | next s rest, b => next s (rest.append b)
  | guarded tests body rest, b => guarded tests body (rest.append b)

instance : Append Code := ⟨append⟩

@[simp]
theorem append_done (a : Code) : a ++ done = a := by
  induction a with
  | done => rfl
  | next s rest ih => exact congrArg (next s) ih
  | guarded tests body rest _ ih => exact congrArg (guarded tests body) ih

/-- The statements of several pieces, one piece after the other. -/
def concat (pieces : List Code) : Code :=
  pieces.foldr append done

end Code

end CaseFolding
