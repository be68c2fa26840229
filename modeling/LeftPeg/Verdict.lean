/-!
# Verdicts on an attempt

A rule that comes back to itself at one position is evaluated more than once there. Its first match
is the seed; each further attempt may use the match found so far and has to reach further to
replace it. `Verdict.of` decides what becomes of an attempt.
-/

namespace LeftPeg

/-- How far an activation has got with left recursion. -/
inductive Stage where
  /-- Nothing has come back to the activation. -/
  | plain
  /-- Something has come back to it and was turned away, so that a seed may be found. -/
  | seeding
  /-- A seed was found, and the activation tries to extend it. -/
  | growing
deriving DecidableEq, Repr, Inhabited

namespace Stage

def isRecursive : Stage → Bool
  | .plain => false
  | .seeding | .growing => true

/-- The stage as it is written in the record of a parse. -/
def label : Stage → String
  | .plain => "NoRecursion"
  | .seeding => "SeedParse"
  | .growing => "GrowLR"

end Stage

/-- What becomes of an attempt. -/
inductive Verdict where
  /-- The attempt is the answer, since nothing has come back to the activation. -/
  | accept
  /-- The attempt reaches further than the best match: it replaces it, and another one follows. -/
  | grow
  /-- No progress: the best match is the answer. -/
  | finish
  /-- There is not even a seed: the rule fails. -/
  | fail
deriving DecidableEq, Repr

namespace Verdict

/-- Decides on an attempt that ends at `attempt?`, if it matched, where the best match so far ends
at `best?`, if there is one. Only a match that ends further right is progress; one that ends at the
same place leaves the earlier match, which came from an earlier alternative, as it is. -/
def of (stage : Stage) (attempt? best? : Option Nat) : Verdict :=
  match stage, attempt?, best? with
  | .plain, _, _ => .accept
  | _, some _, none => .grow
  | _, some attempt, some best => if best < attempt then .grow else .finish
  | .growing, none, _ => .finish
  | .seeding, none, _ => .fail

@[simp] theorem of_plain (attempt? best? : Option Nat) : of .plain attempt? best? = .accept := rfl

/-- To grow is to have gone further, on a cycle. -/
theorem of_eq_grow_iff {stage : Stage} {attempt? best? : Option Nat} :
    of stage attempt? best? = .grow ↔
      stage ≠ .plain ∧ ∃ attempt, attempt? = some attempt ∧ ∀ best ∈ best?, best < attempt := by
  cases stage <;> cases attempt? <;> cases best? <;> simp [of]

/-- Only an activation that has no seed yet fails on a cycle. -/
theorem of_eq_fail_iff {stage : Stage} {attempt? best? : Option Nat} :
    of stage attempt? best? = .fail ↔ stage = .seeding ∧ attempt? = none := by
  cases stage <;> cases attempt? <;> cases best? <;> simp [of] <;> split <;> simp

/-- The verdict as it is written in the record of a parse. -/
def label : Verdict → String
  | .accept => "Accept"
  | .grow => "Grow"
  | .finish => "Finish"
  | .fail => "Fail"

end Verdict

end LeftPeg
