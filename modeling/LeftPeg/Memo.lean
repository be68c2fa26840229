import Std.Data.TreeMap.Lemmas
import LeftPeg.Rule
import LeftPeg.Outcome

/-!
# The memo table

One cell for each rule and position at which the rule has been asked for. A cell holds the outcome,
or, while the rule is still being evaluated there, a marker that names the activation at work. To
meet a marker is to have come back to where one started: left recursion. No cell means that the
rule has not been asked for.

The table is read through `find?`. `find?_put` and `find?_erase` say what the two ways of writing
do to it, `size_put` and `size_erase` what they do to the number of cells.
-/

namespace LeftPeg

/-- What the memo table holds for a rule at a position. -/
inductive Entry (V : Type) where
  | finished (answer : Outcome V)
  /-- The rule is being evaluated at this position by the activation in `slot`. -/
  | inProgress (slot : Nat)
deriving DecidableEq, Repr

namespace Entry

variable {V : Type}

def isInProgress : Entry V → Bool
  | .inProgress _ => true
  | .finished _ => false

def outcome? : Entry V → Option (Outcome V)
  | .finished answer => some answer
  | .inProgress _ => none

end Entry

/-- A rule asked for at a position. -/
structure MemoKey where
  rule : RuleId
  position : Nat
deriving DecidableEq, Repr

namespace MemoKey

/-- By rule, and by position within a rule. -/
def compare : MemoKey → MemoKey → Ordering :=
  compareLex (compareOn fun key => key.rule.index) (compareOn fun key => key.position)

instance : Std.TransCmp compare :=
  inferInstanceAs (Std.TransCmp (compareLex (compareOn fun key : MemoKey => key.rule.index)
    (compareOn fun key => key.position)))

@[simp] theorem compare_eq_iff {a b : MemoKey} : compare a b = .eq ↔ a = b := by
  obtain ⟨⟨r⟩, p⟩ := a
  obtain ⟨⟨r'⟩, p'⟩ := b
  simp [compare, compareLex, compareOn, Ordering.then_eq_eq]

instance : Std.LawfulEqCmp compare where
  eq_of_compare := compare_eq_iff.mp

end MemoKey

/-- The cells of all rules and positions asked for so far. -/
structure MemoTable (V : Type) where
  cells : Std.TreeMap MemoKey (Entry V) MemoKey.compare

namespace MemoTable

variable {V : Type} {table : MemoTable V} {rule rule' : RuleId} {position position' : Nat}
  {entry : Entry V}

def empty : MemoTable V := ⟨∅⟩

instance : Inhabited (MemoTable V) := ⟨empty⟩

def find? (table : MemoTable V) (rule : RuleId) (position : Nat) : Option (Entry V) :=
  table.cells[MemoKey.mk rule position]?

/-- The outcome for a rule at a position. A rule still being evaluated has none. -/
def outcome? (table : MemoTable V) (rule : RuleId) (position : Nat) : Option (Outcome V) :=
  (table.find? rule position).bind Entry.outcome?

def put (table : MemoTable V) (rule : RuleId) (position : Nat) (entry : Entry V) : MemoTable V :=
  ⟨table.cells.insert ⟨rule, position⟩ entry⟩

def erase (table : MemoTable V) (rule : RuleId) (position : Nat) : MemoTable V :=
  ⟨table.cells.erase ⟨rule, position⟩⟩

/-- The number of cells. -/
def size (table : MemoTable V) : Nat :=
  table.cells.size

def isEmpty (table : MemoTable V) : Bool :=
  table.cells.isEmpty

/-- All cells, by rule and by position within a rule. -/
def toList (table : MemoTable V) : List (MemoKey × Entry V) :=
  table.cells.toList

/-! ## Reading after writing -/

@[simp] theorem find?_empty : (empty : MemoTable V).find? rule position = none := by
  simp [empty, find?]

theorem find?_put :
    (table.put rule position entry).find? rule' position' =
      if rule = rule' ∧ position = position' then some entry else table.find? rule' position' := by
  simp [find?, put, Std.TreeMap.getElem?_insert]

@[simp] theorem find?_put_self :
    (table.put rule position entry).find? rule position = some entry := by
  simp [find?_put]

theorem find?_erase :
    (table.erase rule position).find? rule' position' =
      if rule = rule' ∧ position = position' then none else table.find? rule' position' := by
  simp [find?, erase, Std.TreeMap.getElem?_erase]

@[simp] theorem find?_erase_self : (table.erase rule position).find? rule position = none := by
  simp [find?_erase]

theorem outcome?_put_finished {answer : Outcome V} :
    (table.put rule position (.finished answer)).outcome? rule position = some answer := by
  simp [outcome?, Entry.outcome?]

theorem outcome?_eq_some_iff {answer : Outcome V} :
    table.outcome? rule position = some answer ↔
      table.find? rule position = some (.finished answer) := by
  unfold outcome?
  cases table.find? rule position with
  | none => simp
  | some entry => cases entry <;> simp [Entry.outcome?]

/-! ## Counting cells -/

@[simp] theorem size_empty : (empty : MemoTable V).size = 0 := by
  simp [empty, size]

theorem size_put :
    (table.put rule position entry).size =
      if (table.find? rule position).isSome then table.size else table.size + 1 := by
  simp [size, put, find?, Std.TreeMap.size_insert]

theorem size_erase :
    (table.erase rule position).size =
      if (table.find? rule position).isSome then table.size - 1 else table.size := by
  simp [size, erase, find?, Std.TreeMap.size_erase]

theorem isEmpty_iff_size_eq_zero : table.isEmpty = true ↔ table.size = 0 := by
  simp [isEmpty, size, Std.TreeMap.isEmpty_eq_size_eq_zero]

end MemoTable

end LeftPeg
