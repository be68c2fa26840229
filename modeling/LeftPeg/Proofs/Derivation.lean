import LeftPeg.Grammar
import LeftPeg.Proofs.Course

/-!
# Derivations

What a grammar derives, with no regard to how it is found: choices are not ordered, repetitions need
not be as long as they can be, and lookaheads look at nothing.  `Derives.tile` says that the leaves
of what is derived cover its interval from left to right.
-/

namespace LeftPeg

open Expression (Trail)

variable {S M : Type}

mutual

/-- An expression derives the trees over the half-open interval between two positions. -/
inductive Derives (grammar : Grammar S M) (input : Array S) :
    Expression S → Nat → Nat → List Tree → Prop where
  /-- A literal is a leaf over exactly its symbols. -/
  | literal {symbols : List S} {description : String} {start : Nat} (hsize : start ≤ input.size)
      (hsymbols : symbols <+: input.toList.drop start) :
      Derives grammar input (.literal symbols description) start (start + symbols.length)
        [.leaf start (start + symbols.length)]
  | satisfying {test : S → Bool} {description : String} {start : Nat} {symbol : S}
      (hsymbol : input[start]? = some symbol) (htest : test symbol = true) :
      Derives grammar input (.satisfying test description) start (start + 1)
        [.leaf start (start + 1)]
  | any {start : Nat} {symbol : S} (hsymbol : input[start]? = some symbol) :
      Derives grammar input .any start (start + 1) [.leaf start (start + 1)]
  /-- A rule is one node over what its body derives. -/
  | rule {target : RuleId} {form : Expression S} {start stop : Nat} {children : List Tree}
      (hbody : grammar.body? target = some (.expression form))
      (hform : Derives grammar input form start stop children) :
      Derives grammar input (.rule target) start stop
        [⟨some target, none, start, stop, children⟩]
  | sequence {items : List (Expression S)} {start stop : Nat} {trees : List Tree}
      (hitems : DerivesAll grammar input items start stop trees) :
      Derives grammar input (.sequence items) start stop trees
  | choice {alternatives : List (Expression S)} {alternative : Expression S} {start stop : Nat}
      {trees : List Tree} (hmem : alternative ∈ alternatives)
      (halternative : Derives grammar input alternative start stop trees) :
      Derives grammar input (.choice alternatives) start stop trees
  /-- A repetition is so many copies, as many as it asks for and allows. -/
  | repetition {item : Expression S} {atLeast copies : Nat} {atMost : Option Nat}
      {start stop : Nat} {trees : List Tree} (hleast : atLeast ≤ copies)
      (hmost : ∀ most ∈ atMost, copies ≤ most)
      (hcopies : DerivesAll grammar input (List.replicate copies item) start stop trees) :
      Derives grammar input (.repetition item atLeast atMost) start stop trees
  /-- A lookahead passes over nothing. -/
  | lookahead {item : Expression S} {positive : Bool} {start : Nat} :
      Derives grammar input (.lookahead item positive) start start []
  | tagged {tag : String} {item : Expression S} {start stop : Nat} {children : List Tree}
      (hitem : Derives grammar input item start stop children) :
      Derives grammar input (.tagged tag item) start stop
        [⟨none, some tag, start, stop, children⟩]

/-- The items of a list derive the trees over adjacent intervals, one after another. -/
inductive DerivesAll (grammar : Grammar S M) (input : Array S) :
    List (Expression S) → Nat → Nat → List Tree → Prop where
  | nil {start : Nat} : DerivesAll grammar input [] start start []
  | cons {item : Expression S} {rest : List (Expression S)} {start middle stop : Nat}
      {trees trees' : List Tree} (hitem : Derives grammar input item start middle trees)
      (hrest : DerivesAll grammar input rest middle stop trees') :
      DerivesAll grammar input (item :: rest) start stop (trees ++ trees')

end

/-! ## Leaves -/

namespace Tree

mutual

/-- The leaves of a tree, from left to right. -/
def leaves : Tree → List Tree
  | ⟨rule, tag, start, stop, children⟩ =>
    if rule.isNone && tag.isNone then [⟨rule, tag, start, stop, children⟩]
    else leavesOfAll children

/-- The leaves of several trees, from left to right. -/
def leavesOfAll : List Tree → List Tree
  | [] => []
  | tree :: trees => leaves tree ++ leavesOfAll trees

end

theorem leavesOfAll_append (trees trees' : List Tree) :
    leavesOfAll (trees ++ trees') = leavesOfAll trees ++ leavesOfAll trees' := by
  induction trees with
  | nil => rfl
  | cons tree rest ih => simp [leavesOfAll, ih, List.append_assoc]

/-- The trees cover the interval between two positions from left to right, without gaps or
overlaps. -/
def Tile : Nat → Nat → List Tree → Prop
  | start, stop, [] => start = stop
  | start, stop, tree :: rest =>
    tree.start = start ∧ tree.start ≤ tree.stop ∧ Tile tree.stop stop rest

theorem Tile.append {start middle stop : Nat} {trees trees' : List Tree}
    (h : Tile start middle trees) (h' : Tile middle stop trees') :
    Tile start stop (trees ++ trees') := by
  induction trees generalizing start with
  | nil => rwa [show start = middle from h]
  | cons tree rest ih => exact ⟨h.1, h.2.1, ih h.2.2⟩

end Tree

variable {grammar : Grammar S M} {input : Array S}

mutual

-- Both inductions follow the derivation, with the lists of items as its second part.

/-- What is derived lies in the input. -/
theorem Derives.span {expression : Expression S} {start stop : Nat} {trees : List Tree} :
    Derives grammar input expression start stop trees → start ≤ input.size →
      start ≤ stop ∧ stop ≤ input.size
  | .literal hsize hsymbols, hstart => by
    have hlength := hsymbols.length_le
    have hsize' : input.toList.length = input.size := Array.length_toList
    rw [List.length_drop] at hlength
    omega
  | .satisfying hsymbol htest, hstart => by
    have hlt := (Array.getElem?_eq_some_iff.mp hsymbol).1
    omega
  | .any hsymbol, hstart => by
    have hlt := (Array.getElem?_eq_some_iff.mp hsymbol).1
    omega
  | .rule hbody hform, hstart => hform.span hstart
  | .sequence hitems, hstart => hitems.span hstart
  | .choice hmem halternative, hstart => halternative.span hstart
  | .repetition hleast hmost hcopies, hstart => hcopies.span hstart
  | .lookahead, hstart => ⟨Nat.le_refl _, hstart⟩
  | .tagged hitem, hstart => hitem.span hstart

theorem DerivesAll.span {items : List (Expression S)} {start stop : Nat} {trees : List Tree} :
    DerivesAll grammar input items start stop trees → start ≤ input.size →
      start ≤ stop ∧ stop ≤ input.size
  | .nil, hstart => ⟨Nat.le_refl _, hstart⟩
  | .cons hitem hrest, hstart => by
    have hfirst := hitem.span hstart
    have hlast := hrest.span hfirst.2
    omega

end

mutual

/-- The leaves of what is derived tile its interval. -/
theorem Derives.tile {expression : Expression S} {start stop : Nat} {trees : List Tree} :
    Derives grammar input expression start stop trees →
      Tree.Tile start stop (Tree.leavesOfAll trees)
  | .literal hsize hsymbols => ⟨rfl, Nat.le_add_right _ _, rfl⟩
  | .satisfying hsymbol htest => ⟨rfl, Nat.le_add_right _ _, rfl⟩
  | .any hsymbol => ⟨rfl, Nat.le_add_right _ _, rfl⟩
  | .rule hbody hform => by
    -- A node with a rule or a tag is no leaf itself, so its leaves are those of its children.
    have hchildren := hform.tile
    simpa [Tree.leavesOfAll, Tree.leaves] using hchildren
  | .sequence hitems => hitems.tile
  | .choice hmem halternative => halternative.tile
  | .repetition hleast hmost hcopies => hcopies.tile
  | .lookahead => rfl
  | .tagged hitem => by
    have hchildren := hitem.tile
    simpa [Tree.leavesOfAll, Tree.leaves] using hchildren

theorem DerivesAll.tile {items : List (Expression S)} {start stop : Nat} {trees : List Tree} :
    DerivesAll grammar input items start stop trees →
      Tree.Tile start stop (Tree.leavesOfAll trees)
  | .nil => rfl
  | .cons hitem hrest => by
    rw [Tree.leavesOfAll_append]
    exact hitem.tile.append hrest.tile

end

end LeftPeg
