import LeftPeg.Scan

/-!
# Invoking rules

An invocation of a rule at a position is answered from the memo table if it can be. Where the table
says that the rule is under evaluation there already, the invocation fails and the activation learns
that it is recursive. Otherwise the rule becomes an activation, and its body is evaluated until an
attempt settles it.

The depth of activations is bounded, and `invoke` recurses on how many may still be started. The
number of attempts is bounded too: each one that does not settle an activation ends further to the
right than the one before.
-/

namespace LeftPeg

/-- What a run reads and never changes. -/
structure Engine (S V M : Type) where
  /-- The bodies of the rules. -/
  body? : RuleId → Option (Procedure S V M (Outcome V))
  input : Array S
  /-- How many activations may be live at once. -/
  maxDepth : Nat

/-- A way to answer an invocation. -/
abbrev Invoke (V M : Type) := RuleId → Scan V M → Answer V M (Outcome V)

/-- Runs a program on a scan, where `invoke` answers its invocations. -/
def Procedure.run {S V M α : Type} (input : Array S) (invoke : Invoke V M) :
    Procedure S V M α → Scan V M → Answer V M α
  | .done result, scan => (.ok result, scan)
  | .abort error, scan => (.error error, scan)
  | .observe next, scan => (next (scan.view input)).run input invoke scan
  | .moveTo position next, scan => next.run input invoke { scan with position }
  | .mismatch expected next, scan => next.run input invoke (scan.miss expected)
  | .invoke rule next, scan =>
    let (answer, scan) := invoke rule scan
    (next answer).run input invoke scan
  | .consult next, scan => (next scan.memory).run input invoke scan
  | .memorise memory next, scan => next.run input invoke { scan with memory }

/-- To run two programs one after the other is to run the second where the first has left off. -/
theorem Procedure.run_bind {S V M α β : Type} (input : Array S) (invoke : Invoke V M)
    (program : Procedure S V M α) (rest : α → Procedure S V M β) (scan : Scan V M) :
    (program.bind rest).run input invoke scan =
      match program.run input invoke scan with
      | (.ok result, scan) => (rest result).run input invoke scan
      | (.error error, scan) => (.error error, scan) := by
  induction program generalizing scan with
  | done result => rfl
  | abort error => rfl
  | observe next ih => exact ih _ _
  | moveTo position next ih => exact ih _
  | mismatch expected next ih => exact ih _
  | invoke rule next ih => exact ih _ _
  | consult next ih => exact ih _ _
  | memorise memory next ih => exact ih _

namespace Engine

variable {S V M : Type}

/-- Evaluates a body until an attempt settles its activation, `attempts` times at most. -/
def growUpTo (evaluate : Scan V M → Answer V M (Outcome V)) (site : Site) (limit : Nat) :
    Nat → Scan V M → Answer V M (Outcome V)
  | 0, scan => (.error (.defect (.unsettledGrowth site.rule site.position limit)), scan)
  | attempts + 1, scan =>
    match evaluate (scan.beginAttempt site) with
    | (.error error, scan) => (.error error, scan)
    | (.ok attempt, scan) =>
      match scan.settle site attempt with
      | (.error error, scan) => (.error error, scan)
      | (.ok (some outcome), scan) => (.ok outcome, scan)
      | (.ok none, scan) => growUpTo evaluate site limit attempts scan.countGrowth

/-- The attempts an activation may need: one for each symbol that remains, since each of them ends
further to the right, one for the seed, and one that makes no progress. -/
def attemptLimit (engine : Engine S V M) (position : Nat) : Nat :=
  engine.input.size - position + 2

/-- Evaluates a rule at the present position as an activation of its own. -/
def activate (engine : Engine S V M) (invoke : Invoke V M) (rule : RuleId)
    (body : Procedure S V M (Outcome V)) (scan : Scan V M) : Answer V M (Outcome V) :=
  let site : Site := ⟨rule, scan.position, scan.stack.depth⟩
  let limit := engine.attemptLimit scan.position
  Scan.release site <|
    growUpTo (body.run engine.input invoke) site limit limit (scan.enter site)

/-- Answers an invocation from the memo table, or evaluates the body if the table says nothing. -/
def answer (engine : Engine S V M)
    (evaluate : RuleId → Procedure S V M (Outcome V) → Scan V M → Answer V M (Outcome V)) :
    Invoke V M := fun rule scan =>
  match scan.memo.find? rule scan.position with
  | some (.finished outcome) => (.ok outcome, scan.hit outcome)
  | some (.inProgress slot) => scan.reenter ⟨rule, scan.position, slot⟩
  | none =>
    match engine.body? rule with
    | none => (.error (.unknownRule rule.display), scan)
    | some body => evaluate rule body scan

/-- Invokes a rule at the present position, where `room` more activations may be started. -/
def invokeWithin (engine : Engine S V M) : Nat → Invoke V M
  | 0 => engine.answer fun _ _ scan => (.error (.tooDeep engine.maxDepth scan.position), scan)
  | room + 1 => engine.answer (engine.activate (engine.invokeWithin room))

/-- Invokes a rule at the present position while no activation is live. -/
def invoke (engine : Engine S V M) : Invoke V M :=
  engine.invokeWithin engine.maxDepth

end Engine

end LeftPeg
