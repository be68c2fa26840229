import LeftPeg.Rule

/-!
# Syntax trees

The trees that expressions build. A terminal that matched is a leaf; a rule and a tag each make a
node over what was matched inside them.
-/

namespace LeftPeg

/-- A node of a syntax tree, over the half-open interval from `start` to `stop`. -/
structure Tree where
  /-- The rule that the node is a match of. -/
  rule : Option RuleId
  /-- The tag of the expression that the node is a match of. -/
  tag : Option String
  start : Nat
  stop : Nat
  children : List Tree
deriving Repr, Inhabited

namespace Tree

/-- A terminal that matched. -/
def leaf (start stop : Nat) : Tree :=
  ⟨none, none, start, stop, []⟩

/-- Leaves have neither a rule nor a tag. -/
def isLeaf (tree : Tree) : Bool :=
  tree.rule.isNone && tree.tag.isNone

/-- The symbols of the input that the node covers, none if its interval does not lie in the
input. -/
def slice {S : Type} (tree : Tree) (input : Array S) : Array S :=
  if tree.start ≤ tree.stop ∧ tree.stop ≤ input.size then input.extract tree.start tree.stop
  else #[]

mutual

/-- The nodes of a tree whose root is at `depth`, each before those inside it, and `rest` after
them. -/
def preorderOnto (depth : Nat) : Tree → List (Nat × Tree) → List (Nat × Tree)
  | ⟨rule, tag, start, stop, children⟩, rest =>
    (depth, ⟨rule, tag, start, stop, children⟩) :: preorderAllOnto (depth + 1) children rest

/-- The nodes of several trees whose roots are at `depth`, and `rest` after them. -/
def preorderAllOnto (depth : Nat) : List Tree → List (Nat × Tree) → List (Nat × Tree)
  | [], rest => rest
  | tree :: trees, rest => preorderOnto depth tree (preorderAllOnto depth trees rest)

end

/-- The nodes of a tree, each before those inside it, with their distances from the root. -/
def preorder (tree : Tree) : List (Nat × Tree) :=
  preorderOnto 0 tree []

end Tree

end LeftPeg
