import LeftPeg.Grammar
import LeftPeg.Error

/-!
# Drafts

A grammar is written down as a draft. Rules are declared by name and given bodies then or later, in
any order, so that a body may mention rules that come after it. `Draft.finish` makes the grammar, or
says what is wrong with the draft.
-/

namespace LeftPeg

/-- A rule that is declared, and the body it was given last. -/
structure Declaration (S M : Type) where
  name : String
  body? : Option (Body S M)

/-- The declarations of a grammar so far. -/
structure Draft (S M : Type) where
  /-- The rules declared, no two by one name, in the order of their declaration. -/
  declared : List (Declaration S M) := []
  /-- The name that was the first to be declared again. -/
  duplicate? : Option String := none

namespace Draft

variable {S M : Type}

def empty : Draft S M := {}

/-- The rule declared by that name. -/
def find? (draft : Draft S M) (name : String) : Option RuleId :=
  (draft.declared.findIdx? (·.name = name)).map RuleId.mk

/-- Declares a rule. A name declared before stands for the same rule again, but the draft is no
longer good for a grammar. -/
def declare (draft : Draft S M) (name : String) : RuleId × Draft S M :=
  match draft.find? name with
  | some rule => (rule, { draft with duplicate? := draft.duplicate?.or (some name) })
  | none =>
    (⟨draft.declared.length⟩, { draft with declared := draft.declared ++ [⟨name, none⟩] })

/-- Gives a declared rule a body, in place of an earlier one. -/
def define (draft : Draft S M) (rule : RuleId) (body : Body S M) : Draft S M :=
  { draft with
    declared := draft.declared.modify rule.index fun declaration =>
      { declaration with body? := some body } }

/-- Declares a rule and gives it a body. -/
def add (draft : Draft S M) (name : String) (body : Body S M) : RuleId × Draft S M :=
  let (rule, draft) := draft.declare name
  (rule, draft.define rule body)

/-- Makes a rule of a declaration, with the names in its body replaced by the rules declared. -/
def finishRule (draft : Draft S M) (declaration : Declaration S M) :
    Except GrammarError (Rule S M) :=
  match declaration.body? with
  | none => .error (.missingBody declaration.name)
  | some body =>
    match body.references.find? fun name => (draft.find? name).isNone with
    | some name => .error (.undefinedRule name declaration.name)
    | none => .ok ⟨declaration.name, body.link draft.find?⟩

/-- Makes the grammar, or tells the first thing that is wrong: a name declared again, no rules at
all, or, rule by rule, no body or a name that was not declared. -/
def finish (draft : Draft S M) : Except GrammarError (Grammar S M) :=
  match draft.duplicate? with
  | some name => .error (.duplicateRule name)
  | none =>
    if draft.declared.isEmpty then .error .emptyGrammar
    else (draft.declared.mapM draft.finishRule).map Grammar.mk

end Draft

end LeftPeg
