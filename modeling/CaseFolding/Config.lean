namespace CaseFolding

/-! # Settings of a run -/

/-- Which rules the classifier may use. A single codepoint and the lookup table need no switch:
the one is always the cheapest, and the other is what every interval can fall back to. -/
structure Switches where
  delta : Bool := true
  deltaException : Bool := true
  set : Bool := true
  setException : Bool := true
  reset : Bool := false
deriving DecidableEq

/-- No rule at all: each interval of two or more codepoints becomes a lookup table. -/
def Switches.tablesOnly : Switches := ⟨false, false, false, false, false⟩

/-- The merge gap used when none is asked for. -/
def defaultGap : UInt32 := 4

/-- What a run is asked for. -/
structure Config where
  /-- Mapped codepoints at most this far apart share an interval of single-width code. -/
  gap : UInt32 := defaultGap
  /-- The same for code that is split by UTF-8 length. -/
  utf8Gap : UInt32 := defaultGap
  switches : Switches := {}
deriving DecidableEq

end CaseFolding
