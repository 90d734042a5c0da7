import CaseFolding.Codepoint
import CaseFolding.Config
import CaseFolding.Text.Numeral

namespace CaseFolding

/-! # Options

Arguments are read from left to right. A switch stands alone and may be
repeated; a setting takes the next argument, whatever it looks like, and may
be given once; what is neither names the input file. After `--` no argument is
an option any more.
-/

/-- What a run of the command is asked for. -/
structure Options where
  /-- The case folding file. -/
  input : String := "CaseFolding.txt"
  /-- How the file is compiled. -/
  config : Config := {}
  /-- The directory for code by UTF-8 length, instead of single-width code. -/
  utf8 : Option String := none
  /-- The file for single-width code, instead of the standard output. -/
  output : Option String := none
  /-- The variable that generated code tests. -/
  var : String := "c"
  /-- The variable in which code by UTF-8 length keeps its results. -/
  result : String := "r"
  /-- The function that single-width code is made the body of. -/
  function : Option String := none
  /-- The file for the folds of the basic plane. -/
  dump : Option String := none
deriving DecidableEq

/-! ## Names -/

/-- The settings, each of which takes a value. -/
inductive Setting where
  | gap
  | utf8Gap
  | utf8
  | output
  | var
  | result
  | function
  | dump
deriving DecidableEq

/-- The setting that an argument names. -/
def Setting.ofName? : String → Option Setting
  | "--gap" => some .gap
  | "--utf8-gap" => some .utf8Gap
  | "--utf8" => some .utf8
  | "-o" => some .output
  | "--output" => some .output
  | "--var" => some .var
  | "--result" => some .result
  | "--function" => some .function
  | "--dump" => some .dump
  | _ => none

/-- What a switch among the arguments does to the rules. -/
def Switches.flip? (s : Switches) : String → Option Switches
  | "--no-delta" => some { s with delta := false }
  | "--no-delta-exception" => some { s with deltaException := false }
  | "--no-set" => some { s with set := false }
  | "--no-set-exception" => some { s with setException := false }
  | "--reset" => some { s with reset := true }
  | _ => none

/-! ## Errors -/

/-- What is wrong with the value of a setting. -/
inductive ValueError where
  /-- The setting has a value already. -/
  | duplicate
  /-- The value is not a number. -/
  | notANumber (e : Text.Numeral.NumeralError)
deriving DecidableEq

/-- The wording of an error. -/
def ValueError.message : ValueError → String
  | .duplicate => "duplicate values provided"
  | .notANumber e => e.message

/-- What is wrong with the arguments. -/
inductive ArgumentError where
  /-- An argument that is no option, or one file too many. -/
  | unrecognized (argument : String)
  /-- A setting at the end of the arguments. -/
  | noValue (name : String)
  /-- A setting with a value that it does not take. -/
  | badValue (name value : String) (e : ValueError)
  /-- An option after the wish for help. -/
  | afterHelp
deriving DecidableEq

/-- The wording of an error. -/
def ArgumentError.message : ArgumentError → String
  | .unrecognized argument => s!"Unrecognized argument: {argument}\n"
  | .noValue name => s!"No value provided for option '{name}'.\n"
  | .badValue name value e =>
    s!"Error parsing option '{name}' with value '{value}': " ++ e.message ++ "\n"
  | .afterHelp => "Trailing arguments are not allowed after `help`."

/-! ## Reading -/

/-- What has been read so far. -/
structure Draft where
  input : Option String := none
  gap : Option Codepoint := none
  utf8Gap : Option Codepoint := none
  switches : Switches := {}
  utf8 : Option String := none
  output : Option String := none
  var : Option String := none
  result : Option String := none
  function : Option String := none
  dump : Option String := none
  /-- Whether help was asked for. -/
  help : Bool := false
deriving DecidableEq

namespace Draft

/-- Takes a value unless there is one. -/
def once {α : Type} (old : Option α) (read : Except ValueError α) : Except ValueError (Option α) :=
  match old with
  | some _ => .error .duplicate
  | none => read.map some

/-- Reads a number, which is written in decimal. -/
def number (value : String) : Except ValueError Codepoint :=
  (Text.Numeral.read 10 value.toList).mapError .notANumber

/-- Takes the value of a setting. -/
def assign (d : Draft) (value : String) : Setting → Except ValueError Draft
  | .gap => return { d with gap := ← once d.gap (number value) }
  | .utf8Gap => return { d with utf8Gap := ← once d.utf8Gap (number value) }
  | .utf8 => return { d with utf8 := ← once d.utf8 (.ok value) }
  | .output => return { d with output := ← once d.output (.ok value) }
  | .var => return { d with var := ← once d.var (.ok value) }
  | .result => return { d with result := ← once d.result (.ok value) }
  | .function => return { d with function := ← once d.function (.ok value) }
  | .dump => return { d with dump := ← once d.dump (.ok value) }

/-- Reads arguments; `plain` says that none of them is an option. -/
def read (d : Draft) (plain : Bool) : List String → Except ArgumentError Draft
  | [] => .ok d
  | argument :: rest =>
    if !plain && (argument = "--help" || argument = "help") then
      read { d with help := true } plain rest
    else if !plain && argument = "--" then
      read d true rest
    else if !plain && argument.toList.head? = some '-' then
      if d.help then .error .afterHelp
      else
        match d.switches.flip? argument with
        | some s => read { d with switches := s } plain rest
        | none =>
          match Setting.ofName? argument with
          | none => .error (.unrecognized argument)
          | some setting =>
            match rest with
            | [] => .error (.noValue argument)
            | value :: rest' =>
              match d.assign value setting with
              | .ok d' => read d' plain rest'
              | .error e => .error (.badValue argument value e)
    else
      match d.input with
      | none => read { d with input := some argument } plain rest
      | some _ => .error (.unrecognized argument)

/-- The options of a draft, what is not given being as usual. -/
def options (d : Draft) : Options :=
  let usual : Options := {}
  { input := d.input.getD usual.input
    config := {
      gap := d.gap.getD usual.config.gap
      utf8Gap := d.utf8Gap.getD usual.config.utf8Gap
      switches := d.switches }
    utf8 := d.utf8
    output := d.output
    var := d.var.getD usual.var
    result := d.result.getD usual.result
    function := d.function
    dump := d.dump }

end Draft

/-- What the arguments ask for. -/
inductive Request where
  | help
  | run (o : Options)
deriving DecidableEq

/-- Reads the arguments of the command. -/
def Request.read (arguments : List String) : Except ArgumentError Request :=
  (Draft.read {} false arguments).map fun d => if d.help then .help else .run d.options

end CaseFolding
