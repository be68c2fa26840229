/-!
# Outcomes

What evaluating a rule at a position gives: a match, with the interval of the input that it covers
and a value, or a failure. A failure is a definite answer and is remembered like a match.
-/

namespace LeftPeg

/-- A match over the half-open interval from `start` to `stop`. Recognition looks only at the
interval; the value belongs to the body that made it. -/
structure Match (V : Type) where
  start : Nat
  stop : Nat
  value : V
deriving DecidableEq, Repr

/-- The answer of a rule at a position. -/
inductive Outcome (V : Type) where
  | success (found : Match V)
  | failure
deriving DecidableEq, Repr

namespace Outcome

variable {V : Type}

def isSuccess : Outcome V → Bool
  | .success _ => true
  | .failure => false

def match? : Outcome V → Option (Match V)
  | .success found => some found
  | .failure => none

/-- Where the match ends, if there is one. -/
def stop? (outcome : Outcome V) : Option Nat :=
  outcome.match?.map Match.stop

@[simp] theorem stop?_success (found : Match V) : (success found).stop? = some found.stop := rfl

@[simp] theorem stop?_failure : (failure : Outcome V).stop? = none := rfl

end Outcome

end LeftPeg
