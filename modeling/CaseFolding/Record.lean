namespace CaseFolding

/-! # Log records

A run reports what it does as records, each with the level from which on it is
shown. Records are values: a computation lists the records that belong to it,
and whoever runs it decides which ones to show.
-/

/-- The levels, from the gravest to the finest. -/
inductive Level where
  | error
  | warn
  | info
  | debug
  | trace
deriving DecidableEq

namespace Level

/-- The place of a level in the order from grave to fine. -/
def rank : Level → Nat
  | error => 1
  | warn => 2
  | info => 3
  | debug => 4
  | trace => 5

/-- The name under which a record shows its level. -/
def name : Level → String
  | error => "ERROR"
  | warn => "WARN"
  | info => "INFO"
  | debug => "DEBUG"
  | trace => "TRACE"

end Level

/-- One record. -/
structure Record where
  level : Level
  message : String
deriving DecidableEq

/-- The line that shows a record. -/
def Record.line (r : Record) : String :=
  r.level.name ++ " " ++ r.message

/-- The finest level that is shown, or none at all. -/
abbrev Verbosity := Option Level

namespace Verbosity

/-- Without a setting only errors are shown. -/
def standard : Verbosity := some .error

/-- Whether a record of the given level is shown. -/
def shows (v : Verbosity) (level : Level) : Bool :=
  v.any fun finest => level.rank ≤ finest.rank

/-- Reads a setting: a level's name in lower case, or `off`. -/
def ofName? : String → Option Verbosity
  | "off" => some none
  | "error" => some (some .error)
  | "warn" => some (some .warn)
  | "info" => some (some .info)
  | "debug" => some (some .debug)
  | "trace" => some (some .trace)
  | _ => none

end Verbosity

end CaseFolding
