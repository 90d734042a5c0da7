namespace CaseFolding.Text.Numeral

/-! # Numerals

Reads a 32-bit number written in a base of at most sixteen: an optional `+`,
then at least one digit, any number of leading zeros. The characters are read
from left to right and the first one that cannot be taken decides the error.
-/

/-- Why a text is not a 32-bit number. -/
inductive NumeralError where
  /-- There are no characters at all. -/
  | empty
  /-- A character is not a digit of the base, or a sign stands alone. -/
  | invalidDigit
  /-- The digits read so far stand for more than 32 bits can hold. -/
  | tooLarge
deriving DecidableEq

/-- The wording of an error. -/
def NumeralError.message : NumeralError → String
  | .empty => "cannot parse integer from empty string"
  | .invalidDigit => "invalid digit found in string"
  | .tooLarge => "number too large to fit in target type"

/-- The value of a digit, letters counting from ten in either case. -/
def digitValue? (ch : Char) : Option Nat :=
  if '0' ≤ ch ∧ ch ≤ '9' then some (ch.toNat - '0'.toNat)
  else if 'a' ≤ ch ∧ ch ≤ 'f' then some (ch.toNat - 'a'.toNat + 10)
  else if 'A' ≤ ch ∧ ch ≤ 'F' then some (ch.toNat - 'A'.toNat + 10)
  else none

/-- The value of a digit of the given base. -/
def digit? (base : Nat) (ch : Char) : Option Nat :=
  (digitValue? ch).filter (· < base)

/-- Takes one more digit into a number of at most 32 bits. -/
def push (base value : Nat) (ch : Char) : Except NumeralError Nat :=
  match digit? base ch with
  | none => .error .invalidDigit
  | some d => if value * base + d < UInt32.size then .ok (value * base + d) else .error .tooLarge

/-- Reads digits. -/
def readDigits (base : Nat) (digits : List Char) : Except NumeralError UInt32 :=
  (digits.foldlM (push base) 0).map UInt32.ofNat

/-- Reads a number whose sign, if any, is a single leading `+`. -/
def read (base : Nat) : List Char → Except NumeralError UInt32
  | [] => .error .empty
  | ['+'] => .error .invalidDigit
  | '+' :: digits => readDigits base digits
  | digits => readDigits base digits

end CaseFolding.Text.Numeral
