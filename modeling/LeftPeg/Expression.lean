import LeftPeg.Rule

/-!
# Parsing expressions

Expressions as a grammar is written in. A rule is mentioned by its name at first; once all rules are
declared, `link` replaces each name by the rule it stands for, and `references` lists the names that
have to be declared for that.
-/

namespace LeftPeg

/-- A parsing expression over symbols `S`. -/
inductive Expression (S : Type) where
  /-- The given symbols, one after another. -/
  | literal (symbols : List S) (description : String)
  /-- One symbol that satisfies a test. -/
  | satisfying (test : S → Bool) (description : String)
  /-- Any one symbol. -/
  | any
  /-- The rule of that name. -/
  | reference (name : String)
  | rule (target : RuleId)
  | sequence (items : List (Expression S))
  /-- The first alternative that matches. -/
  | choice (alternatives : List (Expression S))
  /-- As many copies as match, at least and at most so many. -/
  | repetition (item : Expression S) (atLeast : Nat) (atMost : Option Nat)
  /-- Whether the expression matches here, or does not if not `positive`. Passes over nothing. -/
  | lookahead (item : Expression S) (positive : Bool)
  /-- The same matches, gathered under a tag. -/
  | tagged (tag : String) (item : Expression S)

namespace Expression

variable {S : Type}

/-! ## Derived forms -/

def zeroOrMore (item : Expression S) : Expression S :=
  .repetition item 0 none

def oneOrMore (item : Expression S) : Expression S :=
  .repetition item 1 none

def optional (item : Expression S) : Expression S :=
  .repetition item 0 (some 1)

/-- A piece of text, described by itself in quotation marks. -/
def text (text : String) : Expression Char :=
  .literal text.toList ("\"" ++ text ++ "\"")

/-! ## Names of rules -/

mutual

/-- The names mentioned, from left to right. -/
def references : Expression S → List String
  | .reference name => [name]
  | .sequence items => referencesOfAll items
  | .choice alternatives => referencesOfAll alternatives
  | .repetition item _ _ => item.references
  | .lookahead item _ => item.references
  | .tagged _ item => item.references
  | .literal .. | .satisfying .. | .any | .rule _ => []

/-- The names mentioned in a list of expressions, from left to right. -/
def referencesOfAll : List (Expression S) → List String
  | [] => []
  | item :: rest => item.references ++ referencesOfAll rest

end

mutual

/-- Replaces each name that `find?` knows by the rule it stands for. -/
def link (find? : String → Option RuleId) : Expression S → Expression S
  | .reference name => ((find? name).map Expression.rule).getD (.reference name)
  | .sequence items => .sequence (linkAll find? items)
  | .choice alternatives => .choice (linkAll find? alternatives)
  | .repetition item atLeast atMost => .repetition (item.link find?) atLeast atMost
  | .lookahead item positive => .lookahead (item.link find?) positive
  | .tagged tag item => .tagged tag (item.link find?)
  | .literal symbols description => .literal symbols description
  | .satisfying test description => .satisfying test description
  | .any => .any
  | .rule target => .rule target

/-- Replaces the names in each expression of a list. -/
def linkAll (find? : String → Option RuleId) : List (Expression S) → List (Expression S)
  | [] => []
  | item :: rest => item.link find? :: linkAll find? rest

end

end Expression

end LeftPeg
