import LeftPeg.Grammar
import LeftPeg.Invocation

/-!
# Parsing

A parser runs the rules of one grammar on one input after another. It keeps the ledger of the last
run for whoever wants to look at it; each run that gets as far as to start begins with a clean one.
-/

namespace LeftPeg

/-- What holds for all parses of a parser. -/
structure Config where
  /-- The size of the pool of activations before the first parse. -/
  stackCapacity : Nat := 32
  /-- How many activations may be live at once. -/
  maxDepth : Nat := 1000
deriving DecidableEq, Repr, Inhabited

/-- What is chosen for one parse. -/
structure Options where
  /-- Where to start in the input, at its beginning if nothing is said. -/
  start? : Option Nat := none
  /-- Whether a match has to reach the end of the input. -/
  wholeInput : Bool := true
deriving DecidableEq, Repr, Inhabited

/-- A parser for a grammar. -/
structure Parser (S M : Type) where
  grammar : Grammar S M
  config : Config
  /-- The ledger of the last run. -/
  ledger : Ledger Tree

/-- What a parse came to. -/
structure Parse (S M : Type) where
  result : Except ParseError (Match Tree)
  /-- The parser, with the ledger of this parse. -/
  parser : Parser S M
  /-- The memory of the bodies at the end. -/
  memory : M
  /-- What happened, in order. -/
  events : List Event

namespace Parser

variable {S M : Type}

/-- A parser that has not parsed anything. -/
def new (grammar : Grammar S M) (config : Config) : Parser S M where
  grammar
  config
  ledger := { stack := .withCapacity config.stackCapacity }

def engine [DecidableEq S] (parser : Parser S M) (input : Array S) : Engine S Tree M where
  body? rule := (parser.grammar.body? rule).map Body.toProcedure
  input
  maxDepth := parser.config.maxDepth

/-- The error when the start rule fails: the failures tell whether there was too little input. -/
def noMatch (failures : FurthestFailure) (inputLength : Nat) : ParseError :=
  if ¬ failures.isEmpty ∧ inputLength ≤ failures.index then
    .inputExhausted failures.index failures.expected
  else .noMatch failures.index failures.expected

/-- The error when the start rule stops at `consumed`. Failures to the left of it belong to
alternatives that were given up, so they do not count. -/
def unconsumed (failures : FurthestFailure) (consumed inputLength : Nat) : ParseError :=
  if consumed ≤ failures.index then
    .unconsumed consumed inputLength failures.index failures.expected
  else .unconsumed consumed inputLength consumed []

/-- The result that an outcome of the start rule stands for. -/
def conclude (failures : FurthestFailure) (options : Options) (inputLength : Nat) :
    Outcome Tree → Except ParseError (Match Tree)
  | .success found =>
    if options.wholeInput ∧ found.stop ≠ inputLength then
      .error (unconsumed failures found.stop inputLength)
    else .ok found
  | .failure => .error (noMatch failures inputLength)

/-- Ends a run that has its answer. -/
def close (parser : Parser S M) (options : Options) (inputLength : Nat) :
    Answer Tree M (Outcome Tree) → Parse S M
  | (.error error, scan) =>
    let scan := scan.record (.aborted error)
    { result := .error error
      parser := { parser with ledger := { scan.toLedger with stack := scan.stack.reset } }
      memory := scan.memory
      events := scan.history.reverse }
  | (.ok outcome, scan) =>
    let scan := scan.record (.finished outcome.stop? scan.metrics)
    { result := conclude scan.failures options inputLength outcome
      parser := { parser with ledger := scan.toLedger }
      memory := scan.memory
      events := scan.history.reverse }

/-- Parses an input from a rule of the grammar, where `memory` is what the bodies remember at
first. A rule that is not there is refused before the ledger of the last run is touched, a start to
the right of the input only after that. -/
def parse [DecidableEq S] (parser : Parser S M) (input : Array S) (rule : RuleId)
    (options : Options) (memory : M) : Parse S M :=
  if parser.grammar.size ≤ rule.index then
    { result := .error (.unknownRule rule.display), parser, memory, events := [] }
  else
    let ledger := parser.ledger.reset
    let start := options.start?.getD 0
    if input.size < start then
      { result := .error (.startOutOfBounds start input.size)
        parser := { parser with ledger }
        memory, events := [] }
    else
      let scan : Scan Tree M := { toLedger := ledger, position := start, memory }
      let scan := scan.record (.started rule start input.size)
      parser.close options input.size ((parser.engine input).invoke rule scan)

/-- Parses an input from the rule of that name. -/
def parseNamed [DecidableEq S] (parser : Parser S M) (input : Array S) (name : String)
    (options : Options) (memory : M) : Parse S M :=
  match parser.grammar.find? name with
  | some rule => parser.parse input rule options memory
  | none => { result := .error (.unknownRule name), parser, memory, events := [] }

end Parser

end LeftPeg
