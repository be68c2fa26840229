import LeftPeg.Parser
import LeftPeg.Settings.Json

/-!
# Settings as texts

The configuration of a parser, the options of a parse and the places of rules are kept in JSON
texts. Settings are written as an object. They are read from an object, in which a field may be
missing and unknown fields do not matter, or from an array of their values in order, which may end
early. What is not given has its default.
-/

namespace LeftPeg

namespace Settings

/-! ## Reading -/

/-- A natural number below a bound. -/
def naturalBelow? (bound : Nat) : Json → Option Nat
  | .number numeral => numeral.natural?.filter (· < bound)
  | _ => none

/-- A count of 64 bits. -/
def count? : Json → Option Nat :=
  naturalBelow? UInt64.size

def bool? : Json → Option Bool
  | .bool value => some value
  | _ => none

/-- A value of which `null` says that there is none. -/
def nullable? {α : Type} (read? : Json → Option α) : Json → Option (Option α)
  | .null => some none
  | json => (read? json).map some

/-- The two settings named in `names`, with `none` for one that is not given. The names of fields
have to be texts, and a setting is given at most once. -/
def pair? (names : String × String) : Json → Option (Option Json × Option Json)
  | .object fields =>
    if fields.any (·.1.isNone) then none
    else
      let given (name : String) : List Json :=
        (fields.filter (·.1 = some name)).map Prod.snd
      match given names.1, given names.2 with
      | [], [] => some (none, none)
      | [first], [] => some (some first, none)
      | [], [second] => some (none, some second)
      | [first], [second] => some (some first, some second)
      | _, _ => none
  | .array [] => some (none, none)
  | .array [first] => some (some first, none)
  | .array [first, second] => some (some first, some second)
  | _ => none

/-- Reads a setting that is given, and takes the default for one that is not. -/
def orDefault? {α : Type} (read? : Json → Option α) (default : α) : Option Json → Option α
  | none => some default
  | some json => read? json

/-! ## Writing -/

/-- An object with the given names and values, without blanks. -/
def object (fields : List (String × String)) : String :=
  let written := fields.map fun (name, value) => "\"" ++ name ++ "\":" ++ value
  "\x7b" ++ ",".intercalate written ++ "\x7d"

def ofBool (value : Bool) : String :=
  if value then "true" else "false"

def ofCount? : Option Nat → String
  | none => "null"
  | some count => toString count

end Settings

open Settings

namespace Config

def ofJson? (json : Json) : Option Config := do
  let default : Config := {}
  let (stackCapacity, maxDepth) ← pair? ("initial_stack_capacity", "max_depth") json
  let stackCapacity ← orDefault? count? default.stackCapacity stackCapacity
  let maxDepth ← orDefault? count? default.maxDepth maxDepth
  some { stackCapacity, maxDepth }

/-- Reads a configuration. -/
def ofText? (text : String) : Option Config :=
  (Json.parse? text).bind ofJson?

/-- Writes a configuration. -/
def toText (config : Config) : String :=
  object
    [("initial_stack_capacity", toString config.stackCapacity),
      ("max_depth", toString config.maxDepth)]

end Config

namespace Options

def ofJson? (json : Json) : Option Options := do
  let default : Options := {}
  let (start?, wholeInput) ← pair? ("start_index", "consume_all_input") json
  let start? ← orDefault? (nullable? count?) default.start? start?
  let wholeInput ← orDefault? bool? default.wholeInput wholeInput
  some { start?, wholeInput }

/-- Reads options. -/
def ofText? (text : String) : Option Options :=
  (Json.parse? text).bind ofJson?

/-- Writes options. -/
def toText (options : Options) : String :=
  object
    [("start_index", ofCount? options.start?), ("consume_all_input", ofBool options.wholeInput)]

end Options

namespace RuleId

/-- Reads the place of a rule, a number of 32 bits. -/
def ofText? (text : String) : Option RuleId :=
  ((Json.parse? text).bind (naturalBelow? UInt32.size)).map RuleId.mk

/-- Writes the place of a rule. -/
def toText (rule : RuleId) : String :=
  toString rule.index

end RuleId

end LeftPeg
