import LeftPeg.Activation.Stack

/-!
# Slot by slot

What each operation on the stack of activations and on the table does to one slot or to one cell.
The operations are folds over lists of rules or of parents; every invariant of the development is
about one slot or one cell, and is kept by what these lemmas say of it.
-/

namespace LeftPeg

variable {V : Type}

namespace Activation

variable {activation : Activation V} {rule other : RuleId} {rules : List RuleId}

/-- The key of the cell that an activation is going to fill. -/
def key (activation : Activation V) : MemoKey :=
  ⟨activation.rule, activation.position⟩

/-! ## Telling an activation of involved rules -/

/-- Two accounts of one activation, which may differ in its stage and in what is known of its
cycle. -/
structure SameCall (activation activation' : Activation V) : Prop where
  rule_eq : activation'.rule = activation.rule
  position_eq : activation'.position = activation.position
  aside_eq : activation'.aside = activation.aside

theorem SameCall.refl (activation : Activation V) : activation.SameCall activation :=
  ⟨rfl, rfl, rfl⟩

theorem SameCall.trans {a b c : Activation V} (hab : a.SameCall b) (hbc : b.SameCall c) :
    a.SameCall c :=
  ⟨hbc.rule_eq.trans hab.rule_eq, hbc.position_eq.trans hab.position_eq,
    hbc.aside_eq.trans hab.aside_eq⟩

theorem sameCall_involve (activation : Activation V) (rule : RuleId) :
    activation.SameCall (activation.involve rule) := by
  unfold involve
  split <;> exact ⟨rfl, rfl, rfl⟩

theorem sameCall_involveAll (activation : Activation V) (rules : List RuleId) :
    activation.SameCall (activation.involveAll rules) := by
  induction rules generalizing activation with
  | nil => exact .refl activation
  | cons rule rest ih => exact (sameCall_involve activation rule).trans (ih _)

theorem sameCall_addParent (activation : Activation V) (slot : Nat) :
    activation.SameCall (activation.addParent slot) := by
  unfold addParent
  split <;> exact ⟨rfl, rfl, rfl⟩

@[simp] theorem stage_involve (activation : Activation V) (rule : RuleId) :
    (activation.involve rule).stage = activation.stage := by
  unfold involve
  split <;> rfl

@[simp] theorem stage_involveAll (activation : Activation V) (rules : List RuleId) :
    (activation.involveAll rules).stage = activation.stage := by
  induction rules generalizing activation with
  | nil => rfl
  | cons rule rest ih => exact (ih _).trans (stage_involve activation rule)

@[simp] theorem parents_involve (activation : Activation V) (rule : RuleId) :
    (activation.involve rule).parents = activation.parents := by
  unfold involve
  split <;> rfl

@[simp] theorem parents_involveAll (activation : Activation V) (rules : List RuleId) :
    (activation.involveAll rules).parents = activation.parents := by
  induction rules generalizing activation with
  | nil => rfl
  | cons rule rest ih => exact (ih _).trans (parents_involve activation rule)

theorem mem_involved_involveAll :
    other ∈ (activation.involveAll rules).involved ↔
      other ∈ activation.involved ∨ (other ∈ rules ∧ other ≠ activation.rule) := by
  induction rules generalizing activation with
  | nil => simp [involveAll]
  | cons rule rest ih =>
    -- The first rule is involved unless it is the activation's own; the rest by induction.
    have hrest : other ∈ (activation.involveAll (rule :: rest)).involved ↔
        other ∈ (activation.involve rule).involved ∨
          (other ∈ rest ∧ other ≠ (activation.involve rule).rule) := ih
    rw [hrest, mem_involved_involve, rule_involve, List.mem_cons]
    constructor
    · rintro ((h | ⟨rfl, h⟩) | ⟨h, hne⟩)
      · exact .inl h
      · exact .inr ⟨.inl rfl, h⟩
      · exact .inr ⟨.inr h, hne⟩
    · rintro (h | ⟨rfl | h, hne⟩)
      · exact .inl (.inl h)
      · exact .inl (.inr ⟨rfl, hne⟩)
      · exact .inr ⟨h, hne⟩

@[simp] theorem stage_addParent (activation : Activation V) (slot : Nat) :
    (activation.addParent slot).stage = activation.stage := by
  unfold addParent
  split <;> rfl

@[simp] theorem involved_addParent (activation : Activation V) (slot : Nat) :
    (activation.addParent slot).involved = activation.involved := by
  unfold addParent
  split <;> rfl

theorem mem_parents_addParent {slot parent : Nat} :
    parent ∈ (activation.addParent slot).parents ↔
      parent ∈ activation.parents ∨ parent = slot := by
  unfold addParent
  split
  · rename_i h
    exact ⟨.inl, fun hor => hor.elim id fun heq => heq ▸ h⟩
  · simp

/-! ## Taking outcomes out of the table and putting them back -/

variable {position position' : Nat} {table : MemoTable V}
  {held : List (RuleId × Outcome V) × MemoTable V}

theorem find?_setAsideOne :
    (setAsideOne position held rule).2.find? other position' =
      if rule = other ∧ position = position' ∧ (held.2.outcome? rule position).isSome then none
      else held.2.find? other position' := by
  unfold setAsideOne
  cases h : held.2.outcome? rule position with
  | none => simp
  | some outcome => simp [MemoTable.find?_erase]

/-- Set aside are the outcomes of the rules involved, and nothing else leaves the table. -/
theorem find?_setAside :
    (activation.setAside table).2.find? other position' =
      if other ∈ activation.involved ∧ position' = activation.position ∧
        (table.outcome? other position').isSome then none
      else table.find? other position' := by
  -- Over any list of rules and any table: the table shrinks from rule to rule, so the test is
  -- made against the table that is left.
  suffices h : ∀ (rules : List RuleId) (held : List (RuleId × Outcome V) × MemoTable V),
      (rules.foldl (setAsideOne activation.position) held).2.find? other position' =
        if other ∈ rules ∧ position' = activation.position ∧
          (held.2.outcome? other position').isSome then none
        else held.2.find? other position' from h _ _
  intro rules
  induction rules with
  | nil => simp
  | cons rule rest ih =>
    intro held
    rw [List.foldl_cons, ih]
    have hone : (setAsideOne activation.position held rule).2.find? other position' = _ :=
      find?_setAsideOne
    unfold MemoTable.outcome? at hone ⊢
    rw [hone]
    -- Only the cell of `rule` itself is touched by the first step.
    by_cases hrule : rule = other
    · subst hrule
      by_cases hposition : activation.position = position'
      · subst hposition
        cases hfind : held.2.find? rule activation.position with
        | none => simp
        | some entry => cases entry <;> simp [Entry.outcome?]
      · have hne : ¬ position' = activation.position := fun h => hposition h.symm
        simp [hposition, hne]
    · have hne : ¬ other = rule := fun h => hrule h.symm
      simp [hrule, hne]

/-- What has been set aside was there before, or was in the table. -/
theorem mem_aside_setAside {entry : RuleId × Outcome V}
    (h : entry ∈ (activation.setAside table).1.aside) :
    entry ∈ activation.aside ∨
      table.find? entry.1 activation.position = some (.finished entry.2) := by
  suffices hfold : ∀ (rules : List RuleId) (held : List (RuleId × Outcome V) × MemoTable V),
      entry ∈ (rules.foldl (setAsideOne activation.position) held).1 →
        entry ∈ held.1 ∨
          held.2.find? entry.1 activation.position = some (.finished entry.2) from hfold _ _ h
  intro rules
  induction rules with
  | nil => exact fun held hmem => .inl hmem
  | cons rule rest ih =>
    intro held hmem
    -- Either it was held after the first rule, or it was still in the table then.
    rcases ih _ hmem with hone | hone
    · unfold setAsideOne at hone
      cases houtcome : held.2.outcome? rule activation.position with
      | none =>
        rw [houtcome] at hone
        exact .inl hone
      | some outcome =>
        rw [houtcome] at hone
        rcases List.mem_cons.mp hone with rfl | hold
        · exact .inr (MemoTable.outcome?_eq_some_iff.mp houtcome)
        · exact .inl (List.mem_filter.mp hold).1
    · rw [find?_setAsideOne] at hone
      split at hone
      · exact nomatch hone
      · exact .inr hone

theorem find?_putBackOne {aside : List (RuleId × Outcome V)} :
    (putBackOne position aside table rule).find? other position' =
      if rule = other ∧ position = position' ∧
        ¬ (table.find? rule position).any Entry.isInProgress then
        (aside.lookup rule).map .finished
      else table.find? other position' := by
  unfold putBackOne
  -- A marker belongs to an activation that is still live, and is left alone.
  by_cases hmark : (table.find? rule position).any Entry.isInProgress = true
  · simp [hmark]
  · rw [if_neg hmark]
    cases hlookup : aside.lookup rule with
    | none => simp [hmark, MemoTable.find?_erase]
    | some outcome => simp [hmark, MemoTable.find?_put]

/-- Each rule involved returns to the outcome set aside last, and nothing else is changed. -/
theorem find?_putBack :
    (activation.putBack table).2.find? other position' =
      if other ∈ activation.involved ∧ position' = activation.position ∧
        ¬ (table.find? other position').any Entry.isInProgress then
        (activation.aside.lookup other).map .finished
      else table.find? other position' := by
  suffices h : ∀ (rules : List RuleId) (table : MemoTable V),
      (rules.foldl (putBackOne activation.position activation.aside) table).find?
          other position' =
        if other ∈ rules ∧ position' = activation.position ∧
          ¬ (table.find? other position').any Entry.isInProgress then
          (activation.aside.lookup other).map .finished
        else table.find? other position' from h _ _
  intro rules
  induction rules with
  | nil => simp
  | cons rule rest ih =>
    intro table
    rw [List.foldl_cons, ih, find?_putBackOne]
    by_cases hrule : rule = other
    · subst hrule
      by_cases hposition : activation.position = position'
      · subst hposition
        by_cases hmark : (table.find? rule activation.position).any Entry.isInProgress = true
        · simp [hmark]
        -- What is put back is finished, so putting it back twice is the same as once.
        · cases hlookup : activation.aside.lookup rule <;> simp [hmark, Entry.isInProgress]
      · have hne : ¬ position' = activation.position := fun h => hposition h.symm
        simp [hposition, hne]
    · have hne : ¬ other = rule := fun h => hrule h.symm
      simp [hrule, hne]

end Activation

namespace ActivationStack

variable {stack : ActivationStack V} {slot other : Nat}

theorem get?_modify (f : Activation V → Activation V) :
    (stack.modify slot f).get? other =
      if slot = other then (stack.get? other).map f else stack.get? other := by
  rw [get?_eq, get?_eq, toList_modify, List.getElem?_modify]
  split
  · rfl
  · exact Option.map_id'

theorem get?_mapAbove (f : Activation V → Activation V) :
    (stack.mapAbove slot f).get? other =
      if slot < other then (stack.get? other).map f else stack.get? other := by
  rw [get?_eq, get?_eq, toList_mapAbove]
  -- Bottom first, the slots above `slot` are those from `slot + 1` on.
  by_cases h : slot < other
  · rw [if_pos h, List.getElem?_append, List.length_take, length_toList]
    by_cases hdepth : slot + 1 ≤ stack.depth
    · rw [if_neg (by omega), List.getElem?_map, List.getElem?_drop]
      congr 2
      omega
    · rw [if_neg (by omega), List.getElem?_eq_none, List.getElem?_eq_none]
      · rfl
      · rw [length_toList]
        omega
      · rw [List.length_map, List.length_drop, length_toList]
        omega
  · rw [if_neg h, List.getElem?_append, List.length_take, length_toList]
    split
    · rw [List.getElem?_take_of_lt (by omega)]
    · rw [List.getElem?_eq_none, List.getElem?_eq_none]
      · rw [length_toList]
        omega
      · rw [List.length_map, List.length_drop, length_toList]
        omega

theorem lt_depth_of_get? {activation : Activation V} (h : stack.get? slot = some activation) :
    slot < stack.depth := by
  rw [get?_eq] at h
  rw [← length_toList]
  exact (List.getElem?_eq_some_iff.mp h).1

theorem get?_of_lt_depth (h : slot < stack.depth) :
    ∃ activation, stack.get? slot = some activation := by
  rw [get?_eq]
  exact ⟨_, List.getElem?_eq_getElem (by rwa [length_toList])⟩

theorem mem_above_iff {activation : Activation V} :
    activation ∈ stack.above slot ↔ ∃ i, slot < i ∧ stack.get? i = some activation := by
  rw [above_eq, List.mem_iff_getElem?]
  constructor
  · rintro ⟨n, hn⟩
    rw [List.getElem?_drop] at hn
    exact ⟨slot + 1 + n, by omega, by rw [get?_eq]; exact hn⟩
  · rintro ⟨i, hlt, hi⟩
    refine ⟨i - (slot + 1), ?_⟩
    rw [List.getElem?_drop, ← get?_eq, show slot + 1 + (i - (slot + 1)) = i by omega]
    exact hi

/-- What becomes of the activation in slot `i` when something has come back to the one in
`slot`. -/
def onReenter (stack : ActivationStack V) (slot i : Nat) (activation : Activation V) :
    Activation V :=
  if slot = i then
    (activation.involveAll ((stack.above slot).map Activation.rule)).atStage .seeding
  else if slot < i then activation.addParent slot
  else activation

theorem get?_reenter {i : Nat} :
    (stack.reenter slot).get? i = (stack.get? i).map (stack.onReenter slot i) := by
  rw [reenter, get?_modify, get?_mapAbove]
  unfold onReenter
  by_cases heq : slot = i
  · subst heq
    simp
  · by_cases hlt : slot < i
    · simp [heq, hlt]
    · simp [heq, hlt]

/-- What becomes of the activation in slot `i` when the parents of the one in `slot`, `head`, are
told of the rules it involves. -/
def onReport (head : Activation V) (slot i : Nat) (activation : Activation V) : Activation V :=
  head.parents.foldl
    (fun activation parent => if parent = i then activation.involveAll head.involved
      else activation)
    (if slot = i then { activation with parents := [] } else activation)

theorem get?_report {head : Activation V} {i : Nat} (h : stack.get? slot = some head) :
    (stack.report slot).get? i = (stack.get? i).map (onReport head slot i) := by
  -- One parent at a time; the slot of the head itself is cleared first.
  have hfold : ∀ (parents : List Nat) (stack : ActivationStack V),
      (parents.foldl (fun stack parent => stack.modify parent fun activation =>
        activation.involveAll head.involved) stack).get? i =
      (stack.get? i).map fun activation => parents.foldl
        (fun activation parent => if parent = i then activation.involveAll head.involved
          else activation) activation := by
    intro parents
    induction parents with
    | nil => simp
    | cons parent rest ih =>
      intro stack
      rw [List.foldl_cons, ih, get?_modify]
      by_cases heq : parent = i <;> simp [heq, Function.comp_def]
  unfold report
  rw [h]
  dsimp only
  rw [hfold, get?_modify]
  unfold onReport
  by_cases heq : slot = i <;> simp [heq, Function.comp_def]

/-- What a telling of parents leaves of an activation. -/
theorem onReport_spec (head : Activation V) (slot i : Nat) (activation : Activation V) :
    activation.SameCall (onReport head slot i activation) ∧
      (onReport head slot i activation).stage = activation.stage ∧
      (∀ parent ∈ (onReport head slot i activation).parents, parent ∈ activation.parents) ∧
      ∀ rule ∈ (onReport head slot i activation).involved,
        rule ∈ activation.involved ∨ (i ∈ head.parents ∧ rule ∈ head.involved) := by
  -- Telling one parent after another only adds rules of the head, and only where `i` is a parent.
  have hfold : ∀ (parents : List Nat) (activation : Activation V),
      let told := parents.foldl (fun activation parent =>
        if parent = i then activation.involveAll head.involved else activation) activation
      activation.SameCall told ∧ told.stage = activation.stage ∧
        told.parents = activation.parents ∧
        ∀ rule ∈ told.involved,
          rule ∈ activation.involved ∨ (i ∈ parents ∧ rule ∈ head.involved) := by
    intro parents
    induction parents with
    | nil => exact fun activation => ⟨.refl _, rfl, rfl, fun rule h => .inl h⟩
    | cons parent rest ih =>
      intro activation
      obtain ⟨hcall, hstage, hparents, hinvolved⟩ := ih
        (if parent = i then activation.involveAll head.involved else activation)
      by_cases heq : parent = i
      · rw [if_pos heq] at hcall hstage hparents hinvolved
        rw [List.foldl_cons, if_pos heq]
        refine ⟨(Activation.sameCall_involveAll activation _).trans hcall, by simp [hstage],
          by simp [hparents], ?_⟩
        intro rule hrule
        rcases hinvolved rule hrule with hold | ⟨hmem, hhead⟩
        · rcases Activation.mem_involved_involveAll.mp hold with hold | ⟨hhead, -⟩
          · exact .inl hold
          · exact .inr ⟨heq ▸ List.mem_cons_self, hhead⟩
        · exact .inr ⟨List.mem_cons_of_mem _ hmem, hhead⟩
      · rw [if_neg heq] at hcall hstage hparents hinvolved
        rw [List.foldl_cons, if_neg heq]
        refine ⟨hcall, hstage, hparents, ?_⟩
        intro rule hrule
        exact (hinvolved rule hrule).imp_right fun h => ⟨List.mem_cons_of_mem _ h.1, h.2⟩
  unfold onReport
  split
  · obtain ⟨hcall, hstage, hparents, hinvolved⟩ :=
      hfold head.parents { activation with parents := [] }
    refine ⟨⟨hcall.rule_eq, hcall.position_eq, hcall.aside_eq⟩, hstage, ?_, hinvolved⟩
    rw [hparents]
    exact fun parent h => nomatch h
  · obtain ⟨hcall, hstage, hparents, hinvolved⟩ := hfold head.parents activation
    exact ⟨hcall, hstage, fun parent h => hparents ▸ h, hinvolved⟩

end ActivationStack

end LeftPeg
