import LeftPeg.Error
import LeftPeg.Verdict

/-!
# The record of a parse

A run keeps a history of what happened in it: terminals that did not match, activations that were
started, cycles, attempts and their verdicts. The part of it that a reader of the log sees is
`Event.record?`; the counters of `Metrics` sum some of it up while the run goes on.
-/

namespace LeftPeg

/-- Counters of one parse. -/
structure Metrics where
  /-- Evaluations of rule bodies, each attempt to grow counted. -/
  evaluations : Nat := 0
  /-- Invocations answered from the memo table. -/
  memoHits : Nat := 0
  /-- Invocations that came back to an activation. -/
  recursions : Nat := 0
  /-- Evaluations that follow on one that extended the match. -/
  growths : Nat := 0
  /-- The greatest number of activations live at once. -/
  maxDepth : Nat := 0
deriving DecidableEq, Repr, Inhabited

/-- One thing that happened in a run. -/
inductive Event where
  /-- A parse of an input of length `inputLength` began. -/
  | started (rule : RuleId) (position inputLength : Nat)
  /-- A terminal did not match. -/
  | mismatched (position : Nat) (expected : String)
  /-- An activation began in `slot`. -/
  | activated (rule : RuleId) (position slot : Nat)
  /-- An invocation came back to an activation with `frames` activations above it. -/
  | reentered (rule : RuleId) (position frames : Nat)
  /-- The activation in `slot` was evaluated. The stage is the one before the verdict. -/
  | attempted (rule : RuleId) (position slot : Nat) (stage : Stage) (verdict : Verdict)
      (attempt? best? : Option Nat)
  /-- A rule that grew has its final match. -/
  | grown (rule : RuleId) (position stop : Nat)
  /-- A rule on a cycle found no seed. -/
  | seedFailed (rule : RuleId) (position : Nat)
  /-- The start rule has its answer, a match up to `stop?` or a failure. -/
  | finished (stop? : Option Nat) (metrics : Metrics)
  /-- The run could not go on. -/
  | aborted (error : ParseError)
deriving DecidableEq, Repr

/-- How much a record of the log matters. -/
inductive Level where
  | debug
  | trace
deriving DecidableEq, Repr

namespace Level

def label : Level → String
  | .debug => "DEBUG"
  | .trace => "TRACE"

end Level

/-- A value in a record of the log. -/
inductive Field where
  | text (text : String)
  | number (number : Nat)
  | flag (flag : Bool)
deriving DecidableEq, Repr

/-- A record of the log. -/
structure LogRecord where
  level : Level
  message : String
  fields : List (String × Field)
deriving DecidableEq, Repr

namespace LogRecord

/-- A field that is left out of the record when there is no value for it. -/
def optional (name : String) (value? : Option Nat) : List (String × Field) :=
  value?.toList.map fun value => (name, .number value)

end LogRecord

namespace Event

open LogRecord

/-- The record of an event in the log, where `label` gives the name of a rule. Mismatched terminals
and the start of activations are not logged. -/
def record? (label : RuleId → String) : Event → Option LogRecord
  | .started rule position inputLength => some
    { level := .debug
      message := "parse started"
      fields := [("rule", .text (label rule)), ("start_index", .number position),
        ("input_len", .number inputLength)] }
  | .mismatched .. => none
  | .activated .. => none
  | .reentered rule position frames => some
    { level := .trace
      message := "left recursion detected"
      fields := [("rule", .text (label rule)), ("position", .number position),
        ("frames", .number frames)] }
  | .attempted rule position _ stage verdict attempt? best? => some
    { level := .trace
      message := "growth step"
      fields := [("rule", .text (label rule)), ("position", .number position),
        ("state", .text stage.label), ("step", .text verdict.label)] ++
        optional "attempt_end" attempt? ++ optional "best_end" best? }
  | .grown rule position stop => some
    { level := .trace
      message := "growth finished"
      fields := [("rule", .text (label rule)), ("position", .number position),
        ("end", .number stop)] }
  | .seedFailed rule position => some
    { level := .trace
      message := "seed parse failed"
      fields := [("rule", .text (label rule)), ("position", .number position)] }
  | .finished stop? metrics => some
    { level := .debug
      message := "parse finished"
      fields := [("success", .flag stop?.isSome)] ++ optional "end" stop? ++
        [("evaluations", .number metrics.evaluations), ("cache_hits", .number metrics.memoHits),
          ("recursions", .number metrics.recursions),
          ("growth_iterations", .number metrics.growths),
          ("max_depth", .number metrics.maxDepth)] }
  | .aborted error => some
    { level := .debug
      message := "parse aborted"
      fields := [("error", .text error.message)] }

end Event

end LeftPeg
