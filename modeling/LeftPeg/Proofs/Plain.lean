import LeftPeg.Proofs.Evaluation
import LeftPeg.Grammar

/-!
# Plain evaluation

The rules of a grammar without memory: each time a rule is asked for, its body is evaluated afresh.
This is how parsing expressions are read before any thought is given to speed, and it has no answer
for a rule that comes back to itself at one position.

`Grammar.PlainWithin` bounds how deep rules may be nested; `Grammar.Plain` has no bound.
-/

namespace LeftPeg

variable {S M : Type} [DecidableEq S]

namespace Grammar

/-- What a rule comes to if the rules in its body have these answers. -/
def plainly (grammar : Grammar S M) (input : Array S) (answers : Answers (Nat × String)) :
    Answers (Nat × String) := fun rule start outcome log =>
  ∃ form found, grammar.body? rule = some (.expression form) ∧
    Evaluates input Prod.mk answers (.one form) start found log ∧
    outcome = .ofFound rule start found

/-- What a rule comes to by plain evaluation, with rules nested at most so deep. -/
def PlainWithin (grammar : Grammar S M) (input : Array S) (depth : Nat) :
    Answers (Nat × String) :=
  Answers.within (grammar.plainly input) depth

/-- What a rule comes to by plain evaluation. -/
def Plain (grammar : Grammar S M) (input : Array S) : Answers (Nat × String) :=
  Answers.reached (grammar.plainly input)

variable {grammar : Grammar S M} {input : Array S}

theorem plainWithin_mono {depth depth' : Nat} {rule : RuleId} {start : Nat}
    {outcome : Outcome Tree} {log : FailureLog} (hle : depth ≤ depth')
    (h : grammar.PlainWithin input depth rule start outcome log) :
    grammar.PlainWithin input depth' rule start outcome log := by
  refine Answers.within_mono ?_ hle h
  rintro answers answers' hmono rule start outcome log ⟨form, found, hbody, hform, houtcome⟩
  exact ⟨form, found, hbody, hform.mono hmono, houtcome⟩

/-- Plain evaluation is deterministic. -/
theorem plainWithin_agree (depth depth' : Nat) :
    (grammar.PlainWithin input depth).Agree (grammar.PlainWithin input depth') := by
  refine Answers.within_agree ?_ depth depth'
  rintro answers answers' hagree rule start outcome log outcome' log'
    ⟨form, found, hbody, hform, rfl⟩ ⟨form', found', hbody', hform', rfl⟩
  rw [hbody] at hbody'
  cases hbody'
  obtain ⟨rfl, rfl⟩ := hform.unique hagree hform'
  exact ⟨rfl, rfl⟩

theorem plain_agree_within (depth : Nat) :
    (grammar.Plain input).Agree (grammar.PlainWithin input depth) :=
  fun _ _ _ _ _ _ ⟨depth', h⟩ h' => plainWithin_agree depth' depth h h'

theorem plain_agree : (grammar.Plain input).Agree (grammar.Plain input) :=
  fun _ _ _ _ _ _ h ⟨depth, h'⟩ => plain_agree_within depth h h'

/-- What plain evaluation finds lies in the input. -/
theorem plain_span : (grammar.Plain input).Span input.size := by
  apply Answers.reached_span
  rintro answers hspan rule start match' log ⟨form, found, -, hform, houtcome⟩ hstart
  cases found with
  | none => exact nomatch houtcome
  | some found =>
    cases houtcome
    exact hform.span hspan hstart _ _ rfl

/-- A rule comes to what its body comes to. -/
theorem plain_of_evaluates {rule : RuleId} {form : Expression S} {start : Nat} {found : Found}
    {log : FailureLog} (hbody : grammar.body? rule = some (.expression form))
    (h : Evaluates input Prod.mk (grammar.Plain input) (.one form) start found log) :
    grammar.Plain input rule start (.ofFound rule start found) log := by
  -- One depth is enough for all the answers that the body makes use of.
  obtain ⟨depth, hdepth⟩ := h.exists_of_family (grammar.PlainWithin input) plainWithin_mono
  exact ⟨depth + 1, form, found, hbody, hdepth, rfl⟩

/-- What a rule comes to is what its body comes to. -/
theorem plain_iff {rule : RuleId} {start : Nat} {outcome : Outcome Tree} {log : FailureLog} :
    grammar.Plain input rule start outcome log ↔
      ∃ form found, grammar.body? rule = some (.expression form) ∧
        Evaluates input Prod.mk (grammar.Plain input) (.one form) start found log ∧
        outcome = .ofFound rule start found := by
  constructor
  · rintro ⟨depth | depth, h⟩
    · exact h.elim
    · obtain ⟨form, found, hbody, hform, houtcome⟩ := h
      exact ⟨form, found, hbody, hform.mono fun _ _ _ _ h => ⟨depth, h⟩, houtcome⟩
  · rintro ⟨form, found, hbody, hform, rfl⟩
    exact plain_of_evaluates hbody hform

end Grammar

end LeftPeg
