import LeftPeg.Error
import LeftPeg.Outcome

/-!
# Rule bodies as programs

Recognition does not look inside the body of a rule. To it, a body is a program over a handful of
operations: look at the input from the present position, move, report a terminal that did not
match, and invoke a rule. `Procedure` is the type of those programs. A body that needs to remember
something from one evaluation to the next has a memory of a type of its choice.

An invocation hands over whatever came of it, an error included. `apply` is the usual way to invoke
a rule, which lets an error end the body too; `attempt` gives the body the chance to go on.
-/

namespace LeftPeg

/-- What a body can see. -/
structure View (S : Type) where
  input : Array S
  position : Nat
  /-- The rule whose body is being evaluated. -/
  rule : Option RuleId

namespace View

variable {S : Type}

/-- The input from the present position on. Nothing remains to the right of the input. -/
def remaining (view : View S) : List S :=
  view.input.toList.drop view.position

def symbol? (view : View S) : Option S :=
  view.input[view.position]?

def atEnd (view : View S) : Bool :=
  view.input.size ≤ view.position

/-- Whether the given symbols stand in the input from a position on. -/
def standsAt [DecidableEq S] (input : Array S) : List S → Nat → Bool
  | [], _ => true
  | symbol :: rest, position =>
    input[position]? = some symbol && standsAt input rest (position + 1)

/-- Whether the input goes on with the given symbols. To the right of the input it does not go on
at all, not even with no symbols. -/
def continuesWith [DecidableEq S] (view : View S) (symbols : List S) : Bool :=
  view.position ≤ view.input.size && standsAt view.input symbols view.position

theorem standsAt_iff [DecidableEq S] {input : Array S} {symbols : List S} {position : Nat} :
    standsAt input symbols position = true ↔ symbols <+: input.toList.drop position := by
  induction symbols generalizing position with
  | nil => simp [standsAt]
  | cons symbol rest ih =>
    rw [standsAt, Bool.and_eq_true, ih, decide_eq_true_iff]
    by_cases h : position < input.size
    · have hdrop : input.toList.drop position =
          input[position] :: input.toList.drop (position + 1) := by
        rw [List.drop_eq_getElem_cons (by simpa using h), Array.getElem_toList]
      rw [hdrop, List.cons_prefix_cons, Array.getElem?_eq_getElem h, Option.some.injEq]
      exact and_congr_left fun _ => eq_comm
    · have hlate : input.toList.length ≤ position := by
        rw [Array.length_toList]
        omega
      rw [List.drop_eq_nil_of_le hlate, Array.getElem?_eq_none (by omega)]
      simp

theorem continuesWith_iff [DecidableEq S] {view : View S} {symbols : List S} :
    view.continuesWith symbols = true ↔
      view.position ≤ view.input.size ∧ symbols <+: view.remaining := by
  rw [continuesWith, Bool.and_eq_true, decide_eq_true_iff, standsAt_iff, remaining]

end View

/-- A program over the operations of recognition: symbols `S`, values `V` of the rules, a memory
`M`, and a result. -/
inductive Procedure (S V M α : Type) where
  | done (result : α)
  /-- Ends the body, and what invoked it, with an error. -/
  | abort (error : ParseError)
  | observe (next : View S → Procedure S V M α)
  | moveTo (position : Nat) (next : Procedure S V M α)
  /-- Reports a terminal that did not match at the present position. -/
  | mismatch (expected : String) (next : Procedure S V M α)
  | invoke (rule : RuleId) (next : Except ParseError (Outcome V) → Procedure S V M α)
  | consult (next : M → Procedure S V M α)
  | memorise (memory : M) (next : Procedure S V M α)

namespace Procedure

variable {S V M α β : Type}

/-- Goes on with another program once the first has its result. -/
protected def bind : Procedure S V M α → (α → Procedure S V M β) → Procedure S V M β
  | .done result, rest => rest result
  | .abort error, _ => .abort error
  | .observe next, rest => .observe fun view => (next view).bind rest
  | .moveTo position next, rest => .moveTo position (next.bind rest)
  | .mismatch expected next, rest => .mismatch expected (next.bind rest)
  | .invoke rule next, rest => .invoke rule fun answer => (next answer).bind rest
  | .consult next, rest => .consult fun memory => (next memory).bind rest
  | .memorise memory next, rest => .memorise memory (next.bind rest)

instance : Monad (Procedure S V M) where
  pure := .done
  bind := Procedure.bind

@[simp] theorem bind_eq (program : Procedure S V M α) (rest : α → Procedure S V M β) :
    program >>= rest = program.bind rest := rfl

@[simp] theorem pure_eq (result : α) : (pure result : Procedure S V M α) = .done result := rfl

theorem bind_done (program : Procedure S V M α) : program.bind .done = program := by
  induction program with
  | done result => rfl
  | abort error => rfl
  | observe next ih => exact congrArg _ (funext ih)
  | moveTo position next ih => exact congrArg _ ih
  | mismatch expected next ih => exact congrArg _ ih
  | invoke rule next ih => exact congrArg _ (funext ih)
  | consult next ih => exact congrArg _ (funext ih)
  | memorise memory next ih => exact congrArg _ ih

theorem bind_assoc {γ : Type} (program : Procedure S V M α) (rest : α → Procedure S V M β)
    (last : β → Procedure S V M γ) :
    (program.bind rest).bind last = program.bind fun result => (rest result).bind last := by
  induction program with
  | done result => rfl
  | abort error => rfl
  | observe next ih => exact congrArg _ (funext ih)
  | moveTo position next ih => exact congrArg _ ih
  | mismatch expected next ih => exact congrArg _ ih
  | invoke rule next ih => exact congrArg _ (funext ih)
  | consult next ih => exact congrArg _ (funext ih)
  | memorise memory next ih => exact congrArg _ ih

instance : LawfulMonad (Procedure S V M) :=
  LawfulMonad.mk' _
    (fun program => bind_done program)
    (fun _ _ => rfl)
    (fun program rest last => bind_assoc program rest last)

/-! ## Looking and moving -/

def view : Procedure S V M (View S) :=
  .observe .done

def position : Procedure S V M Nat :=
  .observe fun view => .done view.position

def currentRule : Procedure S V M (Option RuleId) :=
  .observe fun view => .done view.rule

def goTo (position : Nat) : Procedure S V M Unit :=
  .moveTo position (.done ())

/-- Returns to the present position if the program has nothing to show. -/
def backtracking (program : Procedure S V M (Option α)) : Procedure S V M (Option α) := do
  let start ← position
  match ← program with
  | some result => return some result
  | none =>
    goTo start
    return none

/-! ## Terminals -/

/-- Reports that a terminal did not match here. -/
def miss (expected : String) : Procedure S V M Unit :=
  .mismatch expected (.done ())

/-- Passes over the given symbols if the input goes on with them. -/
def literal [DecidableEq S] (symbols : List S) (expected : String) : Procedure S V M Bool :=
  .observe fun view =>
    if view.continuesWith symbols then .moveTo (view.position + symbols.length) (.done true)
    else .mismatch expected (.done false)

/-- Passes over one symbol that satisfies a test. -/
def satisfying (test : S → Bool) (expected : String) : Procedure S V M Bool :=
  .observe fun view =>
    if view.symbol?.any test then .moveTo (view.position + 1) (.done true)
    else .mismatch expected (.done false)

/-- What is expected where any symbol at all would do. -/
def anySymbol : String := "any character"

/-- Passes over one symbol. -/
def any : Procedure S V M Bool :=
  .observe fun view =>
    if view.atEnd then .mismatch anySymbol (.done false)
    else .moveTo (view.position + 1) (.done true)

/-! ## Rules and errors -/

/-- Invokes a rule and takes whatever comes of it. -/
def attempt (rule : RuleId) : Procedure S V M (Except ParseError (Outcome V)) :=
  .invoke rule .done

/-- Invokes a rule and ends with an error if that did. -/
def apply (rule : RuleId) : Procedure S V M (Outcome V) :=
  .invoke rule fun
    | .ok outcome => .done outcome
    | .error error => .abort error

/-! ## Memory -/

def modifyMemory (f : M → M) : Procedure S V M Unit :=
  .consult fun memory => .memorise (f memory) (.done ())

def memory : Procedure S V M M :=
  .consult .done

end Procedure

end LeftPeg
