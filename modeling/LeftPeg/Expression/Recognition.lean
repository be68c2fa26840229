import LeftPeg.Expression
import LeftPeg.Procedure
import LeftPeg.Tree

/-!
# Recognising expressions

What an expression does as the body of a rule: the program that looks for it at the present
position and builds the trees of what it finds.

An expression that is not found leaves the position where it was, so that a choice can try its next
alternative from the same place. The trees found so far are carried along, the latest first; of an
expression that is not found, none are kept.
-/

namespace LeftPeg

namespace Expression

variable {S M : Type}

/-- The trees found so far, the latest first. -/
abbrev Trail := List Tree

/-- Adds to the trees found so far, or finds nothing. -/
abbrev Recogniser (S M : Type) := Trail → Procedure S Tree M (Option Trail)

/-- A terminal adds a leaf over the symbols it passes over. -/
def terminal (passes : Procedure S Tree M Bool) : Recogniser S M := fun trail => do
  let start ← Procedure.position
  if ← passes then
    let stop ← Procedure.position
    return some (.leaf start stop :: trail)
  else
    return none

/-- A rule adds the tree of its match. -/
def ofRule (target : RuleId) : Recogniser S M := fun trail => do
  match ← Procedure.apply target with
  | .success found => return some (found.value :: trail)
  | .failure => return none

/-- As many copies as match, `copies` at most, and their number on top of `count`. A copy that
passes over nothing is the last one, since it would match again forever. -/
def copiesUpTo (item : Recogniser S M) :
    Nat → Nat → Trail → Procedure S Tree M (Nat × Trail)
  | 0, count, trail => return (count, trail)
  | copies + 1, count, trail => do
    let before ← Procedure.position
    match ← item trail with
    | none => return (count, trail)
    | some trail =>
      let after ← Procedure.position
      if after = before then return (count + 1, trail)
      else copiesUpTo item copies (count + 1) trail

/-- The copies allowed to a repetition without an upper bound. No repetition that moves forward in
an input of that length comes to this number, nor does any that counts its copies in a machine
word. -/
def unboundedCopies (inputLength : Nat) : Nat :=
  UInt64.size + inputLength

/-- The copies of a repetition, if they are enough. -/
def repeated (item : Recogniser S M) (atLeast : Nat) (atMost : Option Nat) : Recogniser S M :=
  fun trail => do
    let view ← Procedure.view
    let copies := atMost.getD (unboundedCopies view.input.size)
    let (count, trail) ← copiesUpTo item copies 0 trail
    if atLeast ≤ count then return some trail else return none

/-- Looks whether the item is found, and passes over nothing in either case. -/
def peeked (item : Recogniser S M) (positive : Bool) : Recogniser S M := fun trail => do
  let start ← Procedure.position
  let found ← item []
  Procedure.goTo start
  if found.isSome = positive then return some trail else return none

/-- Gathers what the item finds under a tag. -/
def gathered (tag : String) (item : Recogniser S M) : Recogniser S M := fun trail => do
  let start ← Procedure.position
  match ← item [] with
  | none => return none
  | some inner =>
    let stop ← Procedure.position
    return some (⟨none, some tag, start, stop, inner.reverse⟩ :: trail)

mutual

/-- Looks for an expression at the present position. -/
def recognise [DecidableEq S] : Expression S → Recogniser S M
  | .literal symbols description, trail =>
    Procedure.backtracking (terminal (Procedure.literal symbols description) trail)
  | .satisfying test description, trail =>
    Procedure.backtracking (terminal (Procedure.satisfying test description) trail)
  | .any, trail => Procedure.backtracking (terminal Procedure.any trail)
  | .reference name, _ => .abort (.unknownRule name)
  | .rule target, trail => Procedure.backtracking (ofRule target trail)
  | .sequence items, trail => Procedure.backtracking (recogniseAll items trail)
  | .choice alternatives, trail => Procedure.backtracking (recogniseFirst alternatives trail)
  | .repetition item atLeast atMost, trail =>
    Procedure.backtracking (repeated item.recognise atLeast atMost trail)
  | .lookahead item positive, trail =>
    Procedure.backtracking (peeked item.recognise positive trail)
  | .tagged tag item, trail => Procedure.backtracking (gathered tag item.recognise trail)

/-- Looks for all items of a list, one after another. -/
def recogniseAll [DecidableEq S] : List (Expression S) → Recogniser S M
  | [], trail => return some trail
  | item :: rest, trail => do
    match ← item.recognise trail with
    | none => return none
    | some trail => recogniseAll rest trail

/-- Looks for the alternatives of a list and stops at the first one found. -/
def recogniseFirst [DecidableEq S] : List (Expression S) → Recogniser S M
  | [], _ => return none
  | item :: rest, trail => do
    match ← item.recognise trail with
    | some trail => return some trail
    | none => recogniseFirst rest trail

end

/-- The expression as the body of a rule, whose value is the tree over all it found. -/
def toProcedure [DecidableEq S] (expression : Expression S) :
    Procedure S Tree M (Outcome Tree) := do
  let start ← Procedure.position
  match ← expression.recognise [] with
  | none => return .failure
  | some trail =>
    let stop ← Procedure.position
    let rule ← Procedure.currentRule
    return .success ⟨start, stop, ⟨rule, none, start, stop, trail.reverse⟩⟩

end Expression

end LeftPeg
