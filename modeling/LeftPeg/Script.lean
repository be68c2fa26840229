import Std.Data.TreeMap.Lemmas
import LeftPeg.Procedure
import LeftPeg.Tree

/-!
# Scripts

Bodies of rules written as lists of statements. A script may do all that a body is able to do: move
anywhere, catch the errors of the rules it invokes, fail in any state, and claim a match over any
interval. It keeps four registers while it runs, and it has a notebook in which it counts its
evaluations and writes down what it sees.
-/

namespace LeftPeg

namespace Script

/-- What a position is counted from. -/
inductive Origin where
  /-- The position at which the body was entered. -/
  | start
  /-- The present position. -/
  | here
  /-- The end of the last match of a rule. -/
  | last
  /-- The beginning of the input. -/
  | zero
deriving DecidableEq, Repr

/-- A position at some distance from another one. -/
structure Place where
  origin : Origin
  offset : Int
deriving DecidableEq, Repr

/-- A statement of a script over symbols `S`. -/
inductive Statement (S : Type) where
  | literal (symbols : List S) (description : String)
  | satisfying (test : S → Bool) (description : String)
  | any
  /-- Invokes a rule; an error ends the script. -/
  | apply (rule : RuleId)
  /-- Invokes a rule; an error is written down and counts as a failure. -/
  | attempt (rule : RuleId)
  | goTo (place : Place)
  /-- Reports a mismatch at the present position. -/
  | miss (description : String)
  /-- Whether the script has been evaluated at most so many times. -/
  | evaluatedAtMost (count : Nat)
  | atEnd
  /-- Writes down what is to be seen. -/
  | look
  /-- Goes on with one list or the other, as the last test came out. -/
  | branch (yes no : List (Statement S))
  /-- Ends the script with a failure. -/
  | fail
  /-- Ends the script with an error. -/
  | abort (error : ParseError)
  /-- Ends the script with a match. -/
  | succeed (start stop : Place)

/-- Something that a script has written down. -/
inductive Observation (S : Type) where
  /-- An invocation ended with an error. -/
  | caught (error : ParseError) (position : Nat)
  /-- What was to be seen, and how the last test had come out. -/
  | seen (view : View S) (ok : Bool)

/-- What the scripts of a grammar remember. -/
structure Notebook (S : Type) where
  /-- How many times each script has been evaluated, by the number of the script. -/
  evaluations : Std.TreeMap Nat Nat := ∅
  /-- What was written down, the latest first. -/
  observations : List (Observation S) := []

namespace Notebook

variable {S : Type}

def empty : Notebook S := {}

def evaluationsOf (notebook : Notebook S) (number : Nat) : Nat :=
  notebook.evaluations.getD number 0

def countEvaluation (notebook : Notebook S) (number : Nat) : Notebook S :=
  { notebook with
    evaluations := notebook.evaluations.insert number (notebook.evaluationsOf number + 1) }

def write (notebook : Notebook S) (observation : Observation S) : Notebook S :=
  { notebook with observations := observation :: notebook.observations }

end Notebook

/-- The registers of a script. -/
structure Registers where
  /-- The position at which the body was entered. -/
  start : Nat
  /-- The end of the last match of a rule. -/
  last : Nat
  /-- How the last test came out. -/
  ok : Bool := true
  /-- The trees of the rules matched, the latest first. -/
  trail : List Tree := []

/-- The greatest position that a script can name. -/
def lastPosition : Nat := UInt64.size - 1

/-- The position that a place stands for, the nearest one that can be named. -/
def Place.resolve (place : Place) (registers : Registers) (here : Nat) : Nat :=
  let origin : Nat :=
    match place.origin with
    | .start => registers.start
    | .here => here
    | .last => registers.last
    | .zero => 0
  min ((origin : Int) + place.offset).toNat lastPosition

variable {S : Type}

/-- What a statement leaves to be done. -/
inductive Next where
  /-- The script has ended. -/
  | ended (outcome : Outcome Tree)
  | goOn (registers : Registers)

/-- The programs that scripts consist of. -/
abbrev Action (S : Type) := Procedure S Tree (Notebook S)

/-- The registers after a test. -/
def tested (registers : Registers) (ok : Bool) : Next :=
  .goOn { registers with ok }

/-- The registers after a rule was invoked. -/
def afterRule (registers : Registers) : Outcome Tree → Next
  | .success found =>
    .goOn { registers with ok := true, last := found.stop, trail := found.value :: registers.trail }
  | .failure => tested registers false

/-- A match of the script over an interval. -/
def matched (registers : Registers) (start stop : Nat) : Action S (Outcome Tree) := do
  let rule ← Procedure.currentRule
  return .success ⟨start, stop, ⟨rule, some "fn", start, stop, registers.trail.reverse⟩⟩

mutual

/-- Runs one statement of the script with the given number. -/
def Statement.run [DecidableEq S] (number : Nat) : Statement S → Registers → Action S Next
  | .literal symbols description, registers => do
    return tested registers (← Procedure.literal symbols description)
  | .satisfying test description, registers => do
    return tested registers (← Procedure.satisfying test description)
  | .any, registers => do
    return tested registers (← Procedure.any)
  | .apply rule, registers => do
    return afterRule registers (← Procedure.apply rule)
  | .attempt rule, registers => do
    match ← Procedure.attempt rule with
    | .ok outcome => return afterRule registers outcome
    | .error error =>
      let position ← Procedure.position
      Procedure.modifyMemory (·.write (.caught error position))
      return tested registers false
  | .goTo place, registers => do
    let here ← Procedure.position
    Procedure.goTo (place.resolve registers here)
    return .goOn registers
  | .miss description, registers => do
    Procedure.miss description
    return .goOn registers
  | .evaluatedAtMost count, registers => do
    let notebook ← Procedure.memory
    return tested registers (notebook.evaluationsOf number ≤ count)
  | .atEnd, registers => do
    let view ← Procedure.view
    return tested registers view.atEnd
  | .look, registers => do
    let view ← Procedure.view
    Procedure.modifyMemory (·.write (.seen view registers.ok))
    return .goOn registers
  | .branch yes no, registers =>
    if registers.ok then runAll number yes registers else runAll number no registers
  | .fail, _ => return .ended .failure
  | .abort error, _ => .abort error
  | .succeed start stop, registers => do
    let here ← Procedure.position
    return .ended
      (← matched registers (start.resolve registers here) (stop.resolve registers here))

/-- Runs statements in order until one of them ends the script. -/
def runAll [DecidableEq S] (number : Nat) : List (Statement S) → Registers → Action S Next
  | [], registers => return .goOn registers
  | statement :: rest, registers => do
    match ← statement.run number registers with
    | .ended outcome => return .ended outcome
    | .goOn registers => runAll number rest registers

end

end Script

/-- A body written as a list of statements. -/
structure Script (S : Type) where
  /-- Tells the script from the others of its grammar. -/
  number : Nat
  statements : List (Script.Statement S)

namespace Script

variable {S : Type}

/-- The script as the body of a rule. A script that comes to its end matches as far as it got, if
its last test came out well. -/
def toProcedure [DecidableEq S] (script : Script S) : Action S (Outcome Tree) := do
  Procedure.modifyMemory (·.countEvaluation script.number)
  let start ← Procedure.position
  match ← runAll script.number script.statements { start, last := start } with
  | .ended outcome => return outcome
  | .goOn registers =>
    if registers.ok then
      let stop ← Procedure.position
      matched registers start stop
    else return .failure

end Script

end LeftPeg
