import LeftPeg.Expression.Recognition
import LeftPeg.Text.Quoted

/-!
# Grammars

A grammar is a table of rules. Each has a name and a body: an expression, or a program of its own.
Recognition asks a grammar for programs only, so it treats both alike.
-/

namespace LeftPeg

/-- The body of a rule over symbols `S`, where programs have a memory `M`. -/
inductive Body (S M : Type) where
  | expression (form : Expression S)
  | procedure (program : Procedure S Tree M (Outcome Tree))

namespace Body

variable {S M : Type}

def toProcedure [DecidableEq S] : Body S M → Procedure S Tree M (Outcome Tree)
  | .expression form => form.toProcedure
  | .procedure program => program

/-- The names of rules that the body mentions. Programs know rules by their places. -/
def references : Body S M → List String
  | .expression form => form.references
  | .procedure _ => []

/-- Replaces each name that `find?` knows by the rule it stands for. -/
def link (find? : String → Option RuleId) : Body S M → Body S M
  | .expression form => .expression (form.link find?)
  | .procedure program => .procedure program

end Body

/-- A rule of a grammar. -/
structure Rule (S M : Type) where
  name : String
  body : Body S M

/-- A table of rules, each known by its place. -/
structure Grammar (S M : Type) where
  rules : List (Rule S M)

namespace Grammar

variable {S M : Type}

def size (grammar : Grammar S M) : Nat :=
  grammar.rules.length

def isEmpty (grammar : Grammar S M) : Bool :=
  grammar.rules.isEmpty

/-- The rule of that name. -/
def find? (grammar : Grammar S M) (name : String) : Option RuleId :=
  (grammar.rules.findIdx? (·.name = name)).map RuleId.mk

def name? (grammar : Grammar S M) (rule : RuleId) : Option String :=
  grammar.rules[rule.index]?.map Rule.name

def body? (grammar : Grammar S M) (rule : RuleId) : Option (Body S M) :=
  grammar.rules[rule.index]?.map Rule.body

/-- All rules in the order of their places. -/
def ruleIds (grammar : Grammar S M) : List RuleId :=
  (List.range grammar.size).map RuleId.mk

/-- The name of a rule for a reader, also of a rule that is not there. -/
def label (grammar : Grammar S M) (rule : RuleId) : String :=
  (grammar.name? rule).getD "<unknown>"

/-- The names of the rules in one line. -/
def summary (grammar : Grammar S M) : String :=
  let names := ", ".intercalate (grammar.rules.map fun rule => Text.quoted rule.name)
  "Grammar \x7b rules: [" ++ names ++ "] \x7d"

end Grammar

end LeftPeg
