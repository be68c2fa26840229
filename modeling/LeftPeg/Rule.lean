/-!
# Rules of a grammar

A rule is known by its place in the grammar's rule table. The place is all that recognition needs:
names matter only while a grammar is put together and when a rule is shown to a reader.
-/

namespace LeftPeg

/-- The place of a rule in the rule table of its grammar. -/
structure RuleId where
  index : Nat
deriving DecidableEq, Repr, Inhabited

namespace RuleId

/-- A rule without a name at hand is shown by its place, as in `#3`. -/
def display (rule : RuleId) : String :=
  "#" ++ toString rule.index

instance : ToString RuleId := ⟨display⟩

end RuleId

end LeftPeg
