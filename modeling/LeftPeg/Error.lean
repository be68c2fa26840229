import LeftPeg.Rule
import LeftPeg.Failure

/-!
# Errors

A rule that does not match is no error: it is an outcome, and recognition goes on from it. Errors
are what is left:

- `ParseError` says why a whole parse gave no result, because the start rule did not match as asked
  or because the run could not go on;
- `Defect` names the states of the recursion bookkeeping that a sound run never reaches;
- `GrammarError` says why a set of declarations is no grammar.

Each error is a cause with its data. `message` puts it into words and `code` gives it a stable name.
-/

namespace LeftPeg

/-- A state of the recursion bookkeeping that a sound run never reaches. -/
inductive Defect where
  /-- An activation was to be released, but none was live. -/
  | stackUnderflow
  /-- The activation released was not the one that had been started. -/
  | unbalancedStack (expected found : Nat)
  /-- The memo table marks a rule as being evaluated, but the activation is not there. -/
  | orphanedMarker (rule : RuleId) (position slot : Nat)
  /-- A rule was evaluated as often as its input allows and still had not settled. -/
  | unsettledGrowth (rule : RuleId) (position evaluations : Nat)
  /-- Growth ended, but the memo table holds no match to end with. -/
  | missingSeed (rule : RuleId) (position : Nat)
deriving DecidableEq, Repr

namespace Defect

def message : Defect → String
  | .stackUnderflow => "Call stack underflow"
  | .unbalancedStack expected found => s!"Popped call stack slot {found}, expected slot {expected}"
  | .orphanedMarker rule position slot =>
    s!"In-progress marker for rule {rule} at {position} has no live head (slot {slot})"
  | .unsettledGrowth rule position evaluations =>
    s!"Growth of rule {rule} at {position} did not settle after {evaluations} iterations"
  | .missingSeed rule position =>
    s!"Growth of rule {rule} at {position} finished without a cached seed"

def code : Defect → String
  | .stackUnderflow => "invariant::stack_underflow"
  | .unbalancedStack .. => "invariant::unbalanced_stack"
  | .orphanedMarker .. => "invariant::orphaned_in_progress"
  | .unsettledGrowth .. => "invariant::non_terminating_growth"
  | .missingSeed .. => "invariant::missing_seed"

end Defect

/-- Why a parse gave no result. -/
inductive ParseError where
  /-- The start rule did not match. -/
  | noMatch (index : Nat) (expected : List String)
  /-- The start rule did not match, and the furthest failure was for want of input. -/
  | inputExhausted (index : Nat) (expected : List String)
  /-- The start rule matched up to `consumed`, where the whole input was asked for. -/
  | unconsumed (consumed inputLength index : Nat) (expected : List String)
  /-- There is no such rule. -/
  | unknownRule (name : String)
  /-- The parse was to start to the right of the input. -/
  | startOutOfBounds (start inputLength : Nat)
  /-- A rule was invoked at `index` with `limit` activations live already. -/
  | tooDeep (limit index : Nat)
  | defect (cause : Defect)
deriving DecidableEq, Repr

namespace ParseError

def message : ParseError → String
  | .noMatch index expected => failureSentence index expected
  | .inputExhausted index expected =>
    "Unexpected end of input: " ++ failureSentence index expected
  | .unconsumed consumed inputLength index expected =>
    s!"Unconsumed input after index {consumed} of {inputLength}: " ++
      failureSentence index expected
  | .unknownRule name => "Unknown rule: " ++ name
  | .startOutOfBounds start inputLength =>
    s!"Start index {start} is out of bounds for input of length {inputLength}"
  | .tooDeep limit index => s!"Maximum rule nesting depth ({limit}) exceeded at index {index}"
  | .defect cause => cause.message

def code : ParseError → String
  | .noMatch .. => "parser::no_match"
  | .inputExhausted .. => "parser::input_exhausted"
  | .unconsumed .. => "parser::incomplete_consumption"
  | .unknownRule .. => "parser::unknown_rule"
  | .startOutOfBounds .. => "parser::start_out_of_bounds"
  | .tooDeep .. => "parser::recursion_limit"
  | .defect cause => cause.code

/-- The furthest position at which a terminal failed, for the errors that are about the input. -/
def failureIndex? : ParseError → Option Nat
  | .noMatch index _ | .inputExhausted index _ | .unconsumed _ _ index _ => some index
  | .unknownRule _ | .startOutOfBounds .. | .tooDeep .. | .defect _ => none

/-- What was expected at the furthest failure. -/
def expected : ParseError → List String
  | .noMatch _ expected | .inputExhausted _ expected | .unconsumed _ _ _ expected => expected
  | .unknownRule _ | .startOutOfBounds .. | .tooDeep .. | .defect _ => []

/-- Whether the input is at fault. All other errors end a run before it has an answer. -/
def isInputFault : ParseError → Bool
  | .noMatch .. | .inputExhausted .. | .unconsumed .. => true
  | .unknownRule _ | .startOutOfBounds .. | .tooDeep .. | .defect _ => false

end ParseError

/-- Why a set of declarations is no grammar. -/
inductive GrammarError where
  /-- A name was declared again. -/
  | duplicateRule (name : String)
  /-- A declared rule was never given a body. -/
  | missingBody (name : String)
  /-- The body of `owner` mentions `name`, which was not declared. -/
  | undefinedRule (name owner : String)
  | emptyGrammar
deriving DecidableEq, Repr

namespace GrammarError

def message : GrammarError → String
  | .duplicateRule name => s!"Rule '{name}' is declared more than once"
  | .missingBody name => s!"Rule '{name}' is declared but has no body"
  | .undefinedRule name owner => s!"Rule '{owner}' references undefined rule '{name}'"
  | .emptyGrammar => "Grammar has no rules"

def code : GrammarError → String
  | .duplicateRule _ => "grammar::duplicate_rule"
  | .missingBody _ => "grammar::missing_body"
  | .undefinedRule .. => "grammar::undefined_rule"
  | .emptyGrammar => "grammar::empty"

end GrammarError

end LeftPeg
