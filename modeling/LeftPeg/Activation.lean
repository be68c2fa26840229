import LeftPeg.Memo
import LeftPeg.Verdict

/-!
# Activations

A rule under evaluation at a position is an activation. Left recursion makes it keep an account of
the other rules that lie on the cycle: what they were found to match depends on the seed, so it must
not outlive the seed. `setAside` takes their outcomes out of the memo table before each attempt to
grow, and `putBack` returns the ones taken last once growth has ended.
-/

namespace LeftPeg

/-- A rule under evaluation. -/
structure Activation (V : Type) where
  rule : RuleId
  /-- The position at which the rule was asked for. -/
  position : Nat
  stage : Stage := .plain
  /-- The other rules found on a cycle through this activation, in the order of their discovery. -/
  involved : List RuleId := []
  /-- The slots of the activations that have to learn of the rules involved here. -/
  parents : List Nat := []
  /-- The outcomes taken out of the memo table, at most one for a rule. -/
  aside : List (RuleId × Outcome V) := []
deriving DecidableEq, Repr

namespace Activation

variable {V : Type}

/-- Adds a rule to those involved. The activation's own rule is not counted among them. -/
def involve (activation : Activation V) (rule : RuleId) : Activation V :=
  if rule = activation.rule ∨ rule ∈ activation.involved then activation
  else { activation with involved := activation.involved ++ [rule] }

def involveAll (activation : Activation V) (rules : List RuleId) : Activation V :=
  rules.foldl involve activation

@[simp] theorem rule_involve (activation : Activation V) (rule : RuleId) :
    (activation.involve rule).rule = activation.rule := by
  unfold involve
  split <;> rfl

theorem mem_involved_involve {activation : Activation V} {rule other : RuleId} :
    other ∈ (activation.involve rule).involved ↔
      other ∈ activation.involved ∨ (other = rule ∧ rule ≠ activation.rule) := by
  unfold involve
  split
  · rename_i h
    constructor
    · exact Or.inl
    · rintro (h' | ⟨rfl, h'⟩)
      · exact h'
      · exact h.resolve_left h'
  · rename_i h
    simp only [not_or] at h
    simp [h.1]

theorem nodup_involved_involve {activation : Activation V} (rule : RuleId)
    (h : activation.involved.Nodup) : (activation.involve rule).involved.Nodup := by
  unfold involve
  split
  · exact h
  · rename_i hnew
    simp only [not_or] at hnew
    refine List.nodup_append.mpr ⟨h, by simp, ?_⟩
    intro a ha b hb
    rw [List.mem_singleton.mp hb]
    rintro rfl
    exact hnew.2 ha

def addParent (activation : Activation V) (slot : Nat) : Activation V :=
  if slot ∈ activation.parents then activation
  else { activation with parents := activation.parents ++ [slot] }

def atStage (activation : Activation V) (stage : Stage) : Activation V :=
  { activation with stage }

/-- The slot of an activation, used again for another one. -/
def restart (activation : Activation V) (rule : RuleId) (position : Nat) : Activation V :=
  { activation with rule, position, stage := .plain, involved := [], parents := [], aside := [] }

/-- Remembers an outcome, in place of an older one for the same rule. -/
def remember (aside : List (RuleId × Outcome V)) (rule : RuleId) (outcome : Outcome V) :
    List (RuleId × Outcome V) :=
  (rule, outcome) :: aside.filter (·.1 ≠ rule)

/-- What was remembered last for a rule is what is found. -/
theorem lookup_remember (aside : List (RuleId × Outcome V)) (rule other : RuleId)
    (outcome : Outcome V) :
    (remember aside rule outcome).lookup other =
      if other = rule then some outcome else aside.lookup other := by
  unfold remember
  by_cases h : other = rule
  · simp [h]
  · have hne : (other == rule) = false := by simpa using h
    rw [List.lookup_cons, hne, if_neg h]
    show (aside.filter (·.1 ≠ rule)).lookup other = aside.lookup other
    induction aside with
    | nil => rfl
    | cons entry rest ih =>
      obtain ⟨key, old⟩ := entry
      by_cases hkey : key = rule
      · have hother : (other == key) = false := by simpa [hkey] using h
        rw [List.filter_cons_of_neg (by simp [hkey]), List.lookup_cons, hother]
        exact ih
      · rw [List.filter_cons_of_pos (by simp [hkey]), List.lookup_cons, List.lookup_cons, ih]

/-- Takes the outcome of one rule out of the table, if it has one. -/
def setAsideOne (position : Nat) (held : List (RuleId × Outcome V) × MemoTable V)
    (rule : RuleId) : List (RuleId × Outcome V) × MemoTable V :=
  match held.2.outcome? rule position with
  | some outcome => (remember held.1 rule outcome, held.2.erase rule position)
  | none => held

/-- Takes the outcomes of the rules involved, at the activation's position, out of the table, so
that the next attempt evaluates them against the new seed. A rule that has no outcome there keeps
the one taken earlier, and a rule under evaluation keeps its marker. -/
def setAside (activation : Activation V) (table : MemoTable V) : Activation V × MemoTable V :=
  let held := activation.involved.foldl (setAsideOne activation.position) (activation.aside, table)
  ({ activation with aside := held.1 }, held.2)

/-- Returns one rule to what was taken last, or to nothing at all. -/
def putBackOne (position : Nat) (aside : List (RuleId × Outcome V)) (table : MemoTable V)
    (rule : RuleId) : MemoTable V :=
  if (table.find? rule position).any Entry.isInProgress then table
  else
    match aside.lookup rule with
    | some outcome => table.put rule position (.finished outcome)
    | none => table.erase rule position

/-- Ends the account: each rule involved is returned to the outcome taken last, and a rule of which
none was taken is forgotten, so that nothing found in the last, fruitless attempt remains. -/
def putBack (activation : Activation V) (table : MemoTable V) : Activation V × MemoTable V :=
  ({ activation with involved := [], aside := [] },
    activation.involved.foldl (putBackOne activation.position activation.aside) table)

end Activation

end LeftPeg
