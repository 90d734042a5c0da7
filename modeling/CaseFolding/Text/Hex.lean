namespace CaseFolding.Text.Hex

/-! # Hexadecimal numbers

Every number of the generated text is written in upper-case hexadecimal with
at least four digits, so that the labels of one plane line up.
-/

/-- The hexadecimal digits of `n`, most significant first, without leading zeros. -/
def digits (n : Nat) : List Char :=
  (Nat.toDigits 16 n).map Char.toUpper

/-- The digits of `n`, filled up with leading zeros to at least four. -/
def padded (n : Nat) : List Char :=
  List.replicate (4 - (digits n).length) '0' ++ digits n

/-- The written form of `n`, as in `0041` or `1F600`. -/
def text (n : Nat) : String :=
  String.ofList (padded n)

end CaseFolding.Text.Hex
