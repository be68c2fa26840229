import LeftPeg.Activation.Stack
import LeftPeg.Event
import LeftPeg.Procedure

/-!
# Scans

A scan is the state of a run: the position in the input, the memo table, the activations under
evaluation, the failures met and the counters, with the memory of the bodies and a history of what
happened. This module has the steps that a run makes on it. `LeftPeg.Invocation` puts them together.
-/

namespace LeftPeg

/-- What is kept from a run until the next one starts. -/
structure Ledger (V : Type) where
  memo : MemoTable V := .empty
  stack : ActivationStack V := {}
  failures : FurthestFailure := .empty
  metrics : Metrics := {}

namespace Ledger

variable {V : Type}

/-- A ledger without entries. The slots of the stack stay in its pool. -/
def reset (ledger : Ledger V) : Ledger V where
  stack := ledger.stack.reset

/-- Sets aside the outcomes that the activation in `slot` has to see evaluated again. -/
def setAside (ledger : Ledger V) (slot : Nat) : Ledger V :=
  match ledger.stack.get? slot with
  | none => ledger
  | some activation =>
    let (activation, memo) := activation.setAside ledger.memo
    { ledger with memo, stack := ledger.stack.modify slot fun _ => activation }

/-- Puts back the outcomes that the activation in `slot` has set aside. -/
def putBack (ledger : Ledger V) (slot : Nat) : Ledger V :=
  match ledger.stack.get? slot with
  | none => ledger
  | some activation =>
    let (activation, memo) := activation.putBack ledger.memo
    { ledger with memo, stack := ledger.stack.modify slot fun _ => activation }

end Ledger

/-- The state of a run. -/
structure Scan (V M : Type) extends Ledger V where
  position : Nat
  memory : M
  /-- What happened so far, the latest first. -/
  history : List Event := []

/-- What a run, or a part of it, came to: a result or an error, and the scan as it is then. -/
abbrev Answer (V M α : Type) := Except ParseError α × Scan V M

/-- A rule under evaluation: the position it was asked for at and the slot of its activation. -/
structure Site where
  rule : RuleId
  position : Nat
  slot : Nat
deriving DecidableEq, Repr

namespace Scan

variable {V M : Type}

def record (scan : Scan V M) (event : Event) : Scan V M :=
  { scan with history := event :: scan.history }

def currentRule (scan : Scan V M) : Option RuleId :=
  scan.stack.top?.map Activation.rule

def view {S : Type} (scan : Scan V M) (input : Array S) : View S :=
  ⟨input, scan.position, scan.currentRule⟩

/-- A terminal did not match at the present position. -/
def miss (scan : Scan V M) (expected : String) : Scan V M :=
  { scan with failures := scan.failures.note scan.position expected }.record
    (.mismatched scan.position expected)

/-- Goes to the end of a match, and stays where it is on a failure. -/
def follow (scan : Scan V M) (outcome : Outcome V) : Scan V M :=
  { scan with position := outcome.stop?.getD scan.position }

/-- The outcome was in the memo table. -/
def hit (scan : Scan V M) (outcome : Outcome V) : Scan V M :=
  { scan with metrics.memoHits := scan.metrics.memoHits + 1 }.follow outcome

/-! ## Coming back to an activation -/

def orphaned (site : Site) : ParseError :=
  .defect (.orphanedMarker site.rule site.position site.slot)

/-- An invocation came back to an activation that is still at work. The invocation fails, and the
activation learns of the rules on the cycle. -/
def reenter (scan : Scan V M) (site : Site) : Answer V M (Outcome V) :=
  if (scan.stack.get? site.slot).any (·.rule = site.rule) then
    let frames := scan.stack.countAbove site.slot
    (.ok .failure,
      { scan with
        metrics.recursions := scan.metrics.recursions + 1
        stack := scan.stack.reenter site.slot }.record
        (.reentered site.rule site.position frames))
  else (.error (orphaned site), scan)

/-! ## Starting and releasing an activation -/

/-- Starts an activation and marks its rule as being evaluated. -/
def enter (scan : Scan V M) (site : Site) : Scan V M :=
  let stack := scan.stack.push site.rule site.position
  { scan with
    stack
    metrics.maxDepth := max scan.metrics.maxDepth stack.depth
    memo := scan.memo.put site.rule site.position (.inProgress site.slot) }.record
    (.activated site.rule site.position site.slot)

@[simp] theorem live_enter (scan : Scan V M) (site : Site) :
    (scan.enter site).stack.live =
      { rule := site.rule, position := site.position } :: scan.stack.live :=
  ActivationStack.live_push

theorem find?_enter (scan : Scan V M) (site : Site) (rule : RuleId) (position : Nat) :
    (scan.enter site).memo.find? rule position =
      if site.rule = rule ∧ site.position = position then some (.inProgress site.slot)
      else scan.memo.find? rule position :=
  MemoTable.find?_put

/-- Takes away the marker of an activation that ended with an error, if it still stands. -/
def dropMarker (scan : Scan V M) (site : Site) : Scan V M :=
  match scan.memo.find? site.rule site.position with
  | some (.inProgress slot) =>
    if slot = site.slot then { scan with memo := scan.memo.erase site.rule site.position }
    else scan
  | _ => scan

/-- Releases the activation started last, if there is one. -/
def pop (scan : Scan V M) : Except Defect Nat × Scan V M :=
  match scan.stack.pop with
  | .ok (slot, stack) => (.ok slot, { scan with stack })
  | .error defect => (.error defect, scan)

/-- Releases an activation that has its answer. An error leaves no marker behind, and it takes
precedence over what may be wrong with the stack. -/
def release (site : Site) : Answer V M (Outcome V) → Answer V M (Outcome V)
  | (.error error, scan) => (.error error, (scan.dropMarker site).pop.2)
  | (.ok outcome, scan) =>
    match scan.pop with
    | (.error defect, scan) => (.error (.defect defect), scan)
    | (.ok slot, scan) =>
      if slot = site.slot then (.ok outcome, scan)
      else (.error (.defect (.unbalancedStack site.slot slot)), scan)

/-! ## Attempts -/

/-- Goes back to where the activation began for another evaluation of its body. -/
def beginAttempt (scan : Scan V M) (site : Site) : Scan V M :=
  { scan with
    metrics.evaluations := scan.metrics.evaluations + 1
    position := site.position }

/-- Another evaluation follows on one that extended the match. -/
def countGrowth (scan : Scan V M) : Scan V M :=
  { scan with metrics.growths := scan.metrics.growths + 1 }

/-- Remembers an outcome in the memo table. -/
def memoise (scan : Scan V M) (site : Site) (outcome : Outcome V) : Scan V M :=
  { scan with memo := scan.memo.put site.rule site.position (.finished outcome) }

def atStage (scan : Scan V M) (site : Site) (stage : Stage) : Scan V M :=
  { scan with stack := scan.stack.modify site.slot fun activation => activation.atStage stage }

/-- The attempt is the answer. -/
def accept (scan : Scan V M) (site : Site) (attempt : Outcome V) :
    Answer V M (Option (Outcome V)) :=
  let scan := { scan with position := attempt.stop?.getD site.position }
  (.ok (some attempt), scan.memoise site attempt)

/-- The attempt is the best match now. What was found with the help of the one before is set
aside. -/
def extend (scan : Scan V M) (site : Site) (attempt : Outcome V) :
    Answer V M (Option (Outcome V)) :=
  let scan := { scan.atStage site .growing with position := site.position }
  let scan := { scan with toLedger := scan.setAside site.slot }
  (.ok none, scan.memoise site attempt)

/-- The best match is the answer. What had been set aside is put back. -/
def finish (scan : Scan V M) (site : Site) : Answer V M (Option (Outcome V)) :=
  let scan := scan.atStage site .plain
  match (scan.memo.outcome? site.rule site.position).bind Outcome.match? with
  | none => (.error (.defect (.missingSeed site.rule site.position)), scan)
  | some best =>
    let scan := { scan with position := best.stop }
    let scan := { scan with toLedger := scan.putBack site.slot }
    (.ok (some (.success best)), scan.record (.grown site.rule site.position best.stop))

/-- There is no seed, so the rule fails. -/
def failSeed (scan : Scan V M) (site : Site) : Answer V M (Option (Outcome V)) :=
  let scan := { scan.atStage site .plain with position := site.position }
  (.ok (some .failure),
    (scan.memoise site .failure).record (.seedFailed site.rule site.position))

/-- Where the best match so far ends. -/
def best? (scan : Scan V M) (site : Site) : Option Nat :=
  (scan.memo.outcome? site.rule site.position).bind Outcome.stop?

/-- Decides what becomes of an attempt: the answer of the activation, or nothing yet if its body
has to be evaluated again. On a cycle, the activations below are told of the rules involved
first. -/
def settle (scan : Scan V M) (site : Site) (attempt : Outcome V) :
    Answer V M (Option (Outcome V)) :=
  match scan.stack.get? site.slot with
  | none => (.error (orphaned site), scan)
  | some activation =>
    let stage := activation.stage
    let scan :=
      if stage.isRecursive then { scan with stack := scan.stack.report site.slot } else scan
    let best? := scan.best? site
    let verdict := Verdict.of stage attempt.stop? best?
    let scan := scan.record
      (.attempted site.rule site.position site.slot stage verdict attempt.stop? best?)
    match verdict with
    | .accept => scan.accept site attempt
    | .grow => scan.extend site attempt
    | .finish => scan.finish site
    | .fail => scan.failSeed site

end Scan

end LeftPeg
