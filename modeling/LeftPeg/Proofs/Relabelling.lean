import LeftPeg.Proofs.Unfolding

/-!
# Other names and other positions

Recognition knows rules apart and compares positions with each other. It asks for nothing else
about either, so if rules are given other names and all positions are moved by the same distance,
a run goes as before. A `Relabelling` says how, for everything that mentions a rule or a position.

This module says what it means for two memo tables, two stacks and two scans to be the same up to a
relabelling (`Tables`, `Stacks`, `Relates`), and that the operations on activations, tables, stacks
and failures keep it so. `LeftPeg.Proofs.Translation` goes on to the steps of a run and whole runs.
-/

namespace LeftPeg

open Expression (Trail)

variable {S M α β : Type}

/-- Other names for the rules, and a distance by which all positions are moved. -/
structure Relabelling where
  rename : RuleId → RuleId
  rename_inj : ∀ {rule other}, rename rule = rename other → rule = other
  offset : Nat

namespace Relabelling

variable (ρ : Relabelling)

/-! ## What mentions rules or positions -/

mutual

def tree : Tree → Tree
  | ⟨rule, tag, start, stop, children⟩ =>
    ⟨rule.map ρ.rename, tag, start + ρ.offset, stop + ρ.offset, trees children⟩

def trees : List Tree → List Tree
  | [] => []
  | first :: rest => tree first :: trees rest

end

theorem trees_eq_map (trees : List Tree) : ρ.trees trees = trees.map ρ.tree := by
  induction trees with
  | nil => rfl
  | cons tree rest ih => rw [Relabelling.trees, ih, List.map_cons]

def found (found : Match Tree) : Match Tree :=
  ⟨found.start + ρ.offset, found.stop + ρ.offset, ρ.tree found.value⟩

def outcome : Outcome Tree → Outcome Tree
  | .success found => .success (ρ.found found)
  | .failure => .failure

def entry : Entry Tree → Entry Tree
  | .finished answer => .finished (ρ.outcome answer)
  | .inProgress slot => .inProgress slot

def activation (activation : Activation Tree) : Activation Tree where
  rule := ρ.rename activation.rule
  position := activation.position + ρ.offset
  stage := activation.stage
  involved := activation.involved.map ρ.rename
  parents := activation.parents
  aside := activation.aside.map fun kept => (ρ.rename kept.1, ρ.outcome kept.2)

def site (site : Site) : Site :=
  ⟨ρ.rename site.rule, site.position + ρ.offset, site.slot⟩

def defect : Defect → Defect
  | .stackUnderflow => .stackUnderflow
  | .unbalancedStack expected found => .unbalancedStack expected found
  | .orphanedMarker rule position slot =>
    .orphanedMarker (ρ.rename rule) (position + ρ.offset) slot
  | .unsettledGrowth rule position evaluations =>
    .unsettledGrowth (ρ.rename rule) (position + ρ.offset) evaluations
  | .missingSeed rule position => .missingSeed (ρ.rename rule) (position + ρ.offset)

/-- The index of a failure stays where it is if nothing was expected: no terminal has failed then,
and the index is only where the count begins. -/
def error : ParseError → ParseError
  | .noMatch index expected =>
    .noMatch (if expected = [] then index else index + ρ.offset) expected
  | .inputExhausted index expected =>
    .inputExhausted (if expected = [] then index else index + ρ.offset) expected
  | .unconsumed consumed inputLength index expected =>
    .unconsumed (consumed + ρ.offset) (inputLength + ρ.offset) (index + ρ.offset) expected
  | .unknownRule name => .unknownRule name
  | .startOutOfBounds start inputLength =>
    .startOutOfBounds (start + ρ.offset) (inputLength + ρ.offset)
  | .tooDeep limit index => .tooDeep limit (index + ρ.offset)
  | .defect cause => .defect (ρ.defect cause)

/-- A result, where `relabel` is for what it holds. -/
def result (relabel : α → α) : Except ParseError α → Except ParseError α
  | .ok found => .ok (relabel found)
  | .error error => .error (ρ.error error)

abbrev trail : Trail → Trail :=
  List.map ρ.tree

mutual

def expression : Expression S → Expression S
  | .rule target => .rule (ρ.rename target)
  | .sequence items => .sequence (expressions items)
  | .choice alternatives => .choice (expressions alternatives)
  | .repetition item atLeast atMost => .repetition (expression item) atLeast atMost
  | .lookahead item positive => .lookahead (expression item) positive
  | .tagged tag item => .tagged tag (expression item)
  | .literal symbols description => .literal symbols description
  | .satisfying test description => .satisfying test description
  | .any => .any
  | .reference name => .reference name

def expressions : List (Expression S) → List (Expression S)
  | [] => []
  | item :: rest => expression item :: expressions rest

end

def task : Task S → Task S
  | .one expression => .one (ρ.expression expression)
  | .all items => .all (ρ.expressions items)
  | .first alternatives => .first (ρ.expressions alternatives)
  | .copies item limit owed => .copies (ρ.expression item) limit owed

/-! ## Related states -/

/-- The cells of the rules and positions that the relabelling comes to. What the other table holds
at other positions does not matter. -/
def Tables (table table' : MemoTable Tree) : Prop :=
  ∀ rule position, table'.find? (ρ.rename rule) (position + ρ.offset) =
    (table.find? rule position).map ρ.entry

def Stacks (stack stack' : ActivationStack Tree) : Prop :=
  stack'.live = stack.live.map ρ.activation

/-- The index moves with the failures, once there are any. -/
structure Failures (failures failures' : FurthestFailure) : Prop where
  expected_eq : failures'.expected = failures.expected
  index_eq : failures'.index =
    if failures.expected = [] then failures.index else failures.index + ρ.offset
  index_zero : failures.expected = [] → failures.index = 0

structure Relates (scan scan' : Scan Tree M) : Prop where
  position_eq : scan'.position = scan.position + ρ.offset
  tables : ρ.Tables scan.memo scan'.memo
  slots : ρ.Stacks scan.stack scan'.stack
  failures : ρ.Failures scan.failures scan'.failures
  metrics_eq : scan'.metrics = scan.metrics

/-- The same answer up to the relabelling. -/
structure Carries (relabel : α → α) (answer answer' : Answer Tree M α) : Prop where
  result_eq : answer'.1 = ρ.result relabel answer.1
  relates : ρ.Relates answer.2 answer'.2

variable {ρ}

theorem rename_eq_iff {rule other : RuleId} :
    ρ.rename rule = ρ.rename other ↔ rule = other :=
  ⟨ρ.rename_inj, congrArg ρ.rename⟩

theorem rename_mem_map {rule : RuleId} {rules : List RuleId} :
    ρ.rename rule ∈ rules.map ρ.rename ↔ rule ∈ rules := by
  constructor
  · intro h
    obtain ⟨other, hmem, hother⟩ := List.mem_map.mp h
    exact ρ.rename_inj hother ▸ hmem
  · exact List.mem_map_of_mem

/-- Whether a verdict is to grow or to end depends on which attempt reaches further. -/
theorem verdict_of (stage : Stage) (attempt? best? : Option Nat) (offset : Nat) :
    Verdict.of stage (attempt?.map (· + offset)) (best?.map (· + offset)) =
      Verdict.of stage attempt? best? := by
  cases stage <;> cases attempt? <;> cases best? <;> simp [Verdict.of]

@[simp] theorem stop?_outcome (outcome : Outcome Tree) :
    (ρ.outcome outcome).stop? = outcome.stop?.map (· + ρ.offset) := by
  cases outcome <;> rfl

/-! ## Activations -/

theorem activation_involve (a : Activation Tree) (rule : RuleId) :
    (ρ.activation a).involve (ρ.rename rule) = ρ.activation (a.involve rule) := by
  have hknown : (ρ.rename rule = (ρ.activation a).rule ∨
      ρ.rename rule ∈ (ρ.activation a).involved) ↔ (rule = a.rule ∨ rule ∈ a.involved) :=
    or_congr rename_eq_iff rename_mem_map
  unfold Activation.involve
  by_cases h : rule = a.rule ∨ rule ∈ a.involved
  · rw [if_pos h, if_pos (hknown.mpr h)]
  · rw [if_neg h, if_neg (mt hknown.mp h)]
    simp [activation]

theorem activation_involveAll (a : Activation Tree) (rules : List RuleId) :
    (ρ.activation a).involveAll (rules.map ρ.rename) = ρ.activation (a.involveAll rules) := by
  unfold Activation.involveAll
  induction rules generalizing a with
  | nil => rfl
  | cons rule rest ih => rw [List.map_cons, List.foldl_cons, List.foldl_cons, activation_involve, ih]

theorem activation_addParent (a : Activation Tree) (slot : Nat) :
    (ρ.activation a).addParent slot = ρ.activation (a.addParent slot) := by
  unfold Activation.addParent
  by_cases h : slot ∈ a.parents
  · rw [if_pos h]
    exact if_pos h
  · rw [if_neg h]
    exact if_neg h

/-- Outcomes set aside are found under the new names. -/
theorem lookup_aside (aside : List (RuleId × Outcome Tree)) (rule : RuleId) :
    (aside.map fun kept => (ρ.rename kept.1, ρ.outcome kept.2)).lookup (ρ.rename rule) =
      (aside.lookup rule).map ρ.outcome := by
  induction aside with
  | nil => rfl
  | cons kept rest ih =>
    rw [List.map_cons, List.lookup_cons, List.lookup_cons]
    by_cases h : rule = kept.1
    · simp [h]
    · have hkey : (rule == kept.1) = false := by simpa using h
      have hkey' : (ρ.rename rule == ρ.rename kept.1) = false := by simpa [rename_eq_iff] using h
      rw [hkey, hkey']
      exact ih

theorem remember_aside (aside : List (RuleId × Outcome Tree)) (rule : RuleId)
    (outcome : Outcome Tree) :
    Activation.remember (aside.map fun kept => (ρ.rename kept.1, ρ.outcome kept.2))
        (ρ.rename rule) (ρ.outcome outcome) =
      (Activation.remember aside rule outcome).map
        fun kept => (ρ.rename kept.1, ρ.outcome kept.2) := by
  unfold Activation.remember
  rw [List.map_cons, List.filter_map]
  congr 2
  refine List.filter_congr fun kept _ => ?_
  simp [rename_eq_iff]

/-! ## The memo table -/

namespace Tables

variable {table table' : MemoTable Tree}

theorem outcome? (h : ρ.Tables table table') (rule : RuleId) (position : Nat) :
    table'.outcome? (ρ.rename rule) (position + ρ.offset) =
      (table.outcome? rule position).map ρ.outcome := by
  unfold MemoTable.outcome?
  rw [h]
  rcases table.find? rule position with _ | _ | _ <;> rfl

theorem put (h : ρ.Tables table table') (rule : RuleId) (position : Nat) (entry : Entry Tree) :
    ρ.Tables (table.put rule position entry)
      (table'.put (ρ.rename rule) (position + ρ.offset) (ρ.entry entry)) := by
  intro other position'
  simp only [MemoTable.find?_put, rename_eq_iff, Nat.add_right_cancel_iff, h other position']
  split <;> rfl

theorem erase (h : ρ.Tables table table') (rule : RuleId) (position : Nat) :
    ρ.Tables (table.erase rule position)
      (table'.erase (ρ.rename rule) (position + ρ.offset)) := by
  intro other position'
  simp only [MemoTable.find?_erase, rename_eq_iff, Nat.add_right_cancel_iff, h other position']
  split <;> rfl

theorem setAside (h : ρ.Tables table table') (a : Activation Tree) :
    ((ρ.activation a).setAside table').1 = ρ.activation (a.setAside table).1 ∧
      ρ.Tables (a.setAside table).2 ((ρ.activation a).setAside table').2 := by
  -- On the rules involved: what has been set aside so far, and the table that remains.
  have hfold : ∀ (rules : List RuleId) (aside : List (RuleId × Outcome Tree))
      (table table' : MemoTable Tree), ρ.Tables table table' →
      ((rules.map ρ.rename).foldl (Activation.setAsideOne (a.position + ρ.offset))
          (aside.map fun kept => (ρ.rename kept.1, ρ.outcome kept.2), table')).1 =
        (rules.foldl (Activation.setAsideOne a.position) (aside, table)).1.map
          (fun kept => (ρ.rename kept.1, ρ.outcome kept.2)) ∧
      ρ.Tables (rules.foldl (Activation.setAsideOne a.position) (aside, table)).2
        ((rules.map ρ.rename).foldl (Activation.setAsideOne (a.position + ρ.offset))
          (aside.map fun kept => (ρ.rename kept.1, ρ.outcome kept.2), table')).2 := by
    intro rules
    induction rules with
    | nil => exact fun aside table table' h => ⟨rfl, h⟩
    | cons rule rest ih =>
      intro aside table table' h
      rw [List.map_cons, List.foldl_cons, List.foldl_cons]
      unfold Activation.setAsideOne
      rw [h.outcome?]
      cases table.outcome? rule a.position with
      | none => exact ih aside table table' h
      | some outcome =>
        dsimp only [Option.map_some]
        rw [remember_aside]
        exact ih _ _ _ (h.erase rule a.position)
  obtain ⟨haside, htables⟩ := hfold a.involved a.aside table table' h
  refine ⟨?_, htables⟩
  unfold Activation.setAside
  dsimp only [activation]
  rw [haside]

theorem putBack (h : ρ.Tables table table') (a : Activation Tree) :
    ((ρ.activation a).putBack table').1 = ρ.activation (a.putBack table).1 ∧
      ρ.Tables (a.putBack table).2 ((ρ.activation a).putBack table').2 := by
  have hfold : ∀ (rules : List RuleId) (table table' : MemoTable Tree), ρ.Tables table table' →
      ρ.Tables (rules.foldl (Activation.putBackOne a.position a.aside) table)
        ((rules.map ρ.rename).foldl
          (Activation.putBackOne (a.position + ρ.offset) (ρ.activation a).aside) table') := by
    intro rules
    induction rules with
    | nil => exact fun table table' h => h
    | cons rule rest ih =>
      intro table table' h
      rw [List.map_cons, List.foldl_cons, List.foldl_cons]
      refine ih _ _ ?_
      have hprogress : (table'.find? (ρ.rename rule) (a.position + ρ.offset)).any
          Entry.isInProgress = (table.find? rule a.position).any Entry.isInProgress := by
        rw [h]
        rcases table.find? rule a.position with _ | _ | _ <;> rfl
      have hlookup : (ρ.activation a).aside.lookup (ρ.rename rule) =
          (a.aside.lookup rule).map ρ.outcome := lookup_aside a.aside rule
      unfold Activation.putBackOne
      rw [hprogress, hlookup]
      split
      · exact h
      · cases a.aside.lookup rule with
        | none => exact h.erase rule a.position
        | some outcome => exact h.put rule a.position (.finished outcome)
  exact ⟨rfl, hfold a.involved table table' h⟩

end Tables

/-! ## The stack -/

namespace Stacks

variable {stack stack' : ActivationStack Tree}

theorem depth_eq (h : ρ.Stacks stack stack') : stack'.depth = stack.depth := by
  rw [stack'.depth_eq, stack.depth_eq, h, List.length_map]

theorem countAbove_eq (h : ρ.Stacks stack stack') (slot : Nat) :
    stack'.countAbove slot = stack.countAbove slot := by
  rw [ActivationStack.countAbove, ActivationStack.countAbove, h.depth_eq]

theorem get?_eq (h : ρ.Stacks stack stack') (slot : Nat) :
    stack'.get? slot = (stack.get? slot).map ρ.activation := by
  unfold ActivationStack.get?
  rw [h.depth_eq, h.countAbove_eq, h, List.getElem?_map]
  split <;> rfl

theorem modify (h : ρ.Stacks stack stack') {f f' : Activation Tree → Activation Tree}
    (hf : ∀ a, f' (ρ.activation a) = ρ.activation (f a)) (slot : Nat) :
    ρ.Stacks (stack.modify slot f) (stack'.modify slot f') := by
  have hlive : (stack.live.map ρ.activation).modify (stack.countAbove slot) f' =
      (stack.live.modify (stack.countAbove slot) f).map ρ.activation := by
    refine List.ext_getElem? fun i => ?_
    simp only [List.getElem?_modify, List.getElem?_map]
    cases stack.live[i]? with
    | none => rfl
    | some a =>
      dsimp only [Option.map_some]
      split
      · exact congrArg some (hf a)
      · rfl
  unfold ActivationStack.modify
  by_cases hslot : slot < stack.depth
  · rw [if_pos hslot, if_pos (h.depth_eq ▸ hslot)]
    show stack'.live.modify _ f' = _
    rw [h, h.countAbove_eq, hlive]
  · rw [if_neg hslot, if_neg (h.depth_eq ▸ hslot)]
    exact h

theorem mapAbove (h : ρ.Stacks stack stack') {f f' : Activation Tree → Activation Tree}
    (hf : ∀ a, f' (ρ.activation a) = ρ.activation (f a)) (slot : Nat) :
    ρ.Stacks (stack.mapAbove slot f) (stack'.mapAbove slot f') := by
  show (stack'.live.take _).map f' ++ stack'.live.drop _ =
    ((stack.live.take _).map f ++ stack.live.drop _).map ρ.activation
  rw [h, h.countAbove_eq, List.map_append, ← List.map_take, ← List.map_drop, List.map_map,
    List.map_map]
  congr 1
  exact List.map_congr_left fun a _ => hf a

theorem above_rules (h : ρ.Stacks stack stack') (slot : Nat) :
    (stack'.above slot).map Activation.rule =
      ((stack.above slot).map Activation.rule).map ρ.rename := by
  unfold ActivationStack.above
  rw [h, h.countAbove_eq, ← List.map_take, List.map_reverse, List.map_reverse, List.map_reverse,
    List.map_map, List.map_map]
  rfl

theorem push (h : ρ.Stacks stack stack') (rule : RuleId) (position : Nat) :
    ρ.Stacks (stack.push rule position)
      (stack'.push (ρ.rename rule) (position + ρ.offset)) := by
  unfold Stacks
  rw [ActivationStack.live_push, ActivationStack.live_push, h, List.map_cons]
  rfl

theorem reenter (h : ρ.Stacks stack stack') (slot : Nat) :
    ρ.Stacks (stack.reenter slot) (stack'.reenter slot) := by
  unfold ActivationStack.reenter
  dsimp only
  rw [h.above_rules]
  refine (h.mapAbove (fun a => activation_addParent a slot) slot).modify (fun a => ?_) slot
  rw [activation_involveAll]
  rfl

theorem report (h : ρ.Stacks stack stack') (slot : Nat) :
    ρ.Stacks (stack.report slot) (stack'.report slot) := by
  have htold : ∀ (head : Activation Tree) (parents : List Nat)
      (stack stack' : ActivationStack Tree), ρ.Stacks stack stack' →
      ρ.Stacks
        (parents.foldl (fun stack parent =>
          stack.modify parent fun a => a.involveAll head.involved) stack)
        (parents.foldl (fun stack parent =>
          stack.modify parent fun a => a.involveAll (ρ.activation head).involved) stack') := by
    intro head parents
    induction parents with
    | nil => exact fun stack stack' h => h
    | cons parent rest ih =>
      intro stack stack' h
      rw [List.foldl_cons, List.foldl_cons]
      exact ih _ _ (h.modify (fun a => activation_involveAll a head.involved) parent)
  unfold ActivationStack.report
  rw [h.get?_eq]
  cases stack.get? slot with
  | none => exact h
  | some head =>
    refine htold head head.parents _ _ (h.modify ?_ slot)
    exact fun a => rfl

theorem pop (h : ρ.Stacks stack stack') :
    (stack.pop = .error .stackUnderflow ∧ stack'.pop = .error .stackUnderflow) ∨
      ∃ slot rest rest', stack.pop = .ok (slot, rest) ∧ stack'.pop = .ok (slot, rest') ∧
        ρ.Stacks rest rest' := by
  have hdepth := h.depth_eq
  obtain ⟨live, depth, spare, hlength⟩ := stack
  obtain ⟨live', depth', spare', hlength'⟩ := stack'
  unfold Stacks at h
  dsimp only at h hdepth
  subst h hdepth
  cases live with
  | nil => exact .inl ⟨rfl, rfl⟩
  | cons top rest => exact .inr ⟨_, _, _, rfl, rfl, rfl⟩

end Stacks

/-! ## Failures -/

theorem note_of_nothing (index : Nat) (description : String) :
    FurthestFailure.note ⟨0, []⟩ index description = ⟨index, [description]⟩ := by
  unfold FurthestFailure.note
  by_cases h : index = 0
  · simp [h]
  · simp [Nat.pos_of_ne_zero h]

theorem Failures.note {failures failures' : FurthestFailure} (h : ρ.Failures failures failures')
    (index : Nat) (description : String) :
    ρ.Failures (failures.note index description)
      (failures'.note (index + ρ.offset) description) := by
  obtain ⟨last, expected⟩ := failures
  obtain ⟨last', expected'⟩ := failures'
  obtain ⟨rfl, hindex, hzero⟩ := h
  dsimp only at hindex hzero ⊢
  by_cases hnothing : expected' = []
  -- The first failure of all.
  · rw [if_pos hnothing, hzero hnothing] at hindex
    rw [hzero hnothing, hindex, hnothing, note_of_nothing, note_of_nothing]
    exact ⟨rfl, rfl, fun h => nomatch h⟩
  · rw [if_neg hnothing] at hindex
    subst hindex
    unfold FurthestFailure.note
    simp only [Nat.add_lt_add_iff_right]
    split
    · exact ⟨rfl, (if_neg hnothing).symm, fun h => absurd h hnothing⟩
    · split
      · exact ⟨rfl, rfl, fun h => nomatch h⟩
      · split
        · exact ⟨rfl, (if_neg hnothing).symm, fun h => absurd h hnothing⟩
        · have hsome : expected' ++ [description] ≠ [] := by simp
          exact ⟨rfl, (if_neg hsome).symm, fun h => absurd h hsome⟩

end Relabelling

end LeftPeg
