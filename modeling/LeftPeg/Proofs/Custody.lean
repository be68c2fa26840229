import Mathlib.Data.List.Perm.Basic
import LeftPeg.Proofs.Slots

/-!
# Outcomes in custody

From one attempt to the next an activation takes outcomes out of the table, and in the end it puts
them back. Between the two, other activations write to the table and erase cells of it, further
rules turn out to be involved, and a rule that was evaluated in one attempt may not be in the next.
So what is held at a time was taken at different times, and some of the rules involved are not among
those held.

Whatever the order of these things (`Custody.run`), what is held for a rule is what was moved aside
for it last (`Custody.lookup_run`), there is one entry for a rule at most, and what is put back is
exactly that (`Custody.find?_putBack_run`).

`Activation.setAside` makes a new list of what is held, and `Activation.putBack` leaves it as it is
until all is done. The list can as well be updated in place, and be used up while outcomes are put
back (`Custody.runInPlace`). That comes to the same because neither the list nor the rules involved
have a rule twice: an outcome is not looked for again once it has been taken out.
-/

namespace LeftPeg

variable {V : Type}

namespace Activation

variable {activation : Activation V} {rule other : RuleId} {outcome : Outcome V} {position : Nat}
  {table : MemoTable V} {held aside : List (RuleId × Outcome V)}

/-! ## What is held -/

/-- What was held for other rules is held still. -/
theorem lookup_setAsideOne :
    (setAsideOne position (held, table) rule).1.lookup other =
      if other = rule then (table.outcome? rule position).or (held.lookup other)
      else held.lookup other := by
  unfold setAsideOne
  cases table.outcome? rule position with
  | none => simp
  | some outcome => exact lookup_remember held rule other outcome

theorem outcome?_setAsideOne :
    (setAsideOne position (held, table) rule).2.outcome? other position =
      if other = rule then none else table.outcome? other position := by
  unfold MemoTable.outcome?
  rw [find?_setAsideOne]
  by_cases hother : other = rule
  · subst hother
    rw [if_pos rfl]
    cases hfind : table.find? other position with
    | none => simp [MemoTable.outcome?, hfind]
    | some entry => cases entry <;> simp [MemoTable.outcome?, hfind, Entry.outcome?]
  · rw [if_neg hother, if_neg fun h => hother h.1.symm]

/-- For each of the rules involved, the outcome in the table takes the place of the one held. -/
theorem lookup_setAside :
    (activation.setAside table).1.aside.lookup other =
      if other ∈ activation.involved then
        (table.outcome? other activation.position).or (activation.aside.lookup other)
      else activation.aside.lookup other := by
  suffices h : ∀ (rules : List RuleId) (held : List (RuleId × Outcome V) × MemoTable V),
      (rules.foldl (setAsideOne activation.position) held).1.lookup other =
        if other ∈ rules then
          (held.2.outcome? other activation.position).or (held.1.lookup other)
        else held.1.lookup other from h _ _
  intro rules
  induction rules with
  | nil => simp
  | cons rule rest ih =>
    intro held
    rw [List.foldl_cons, ih, outcome?_setAsideOne, lookup_setAsideOne]
    by_cases hother : other = rule
    -- Once it is taken there is nothing more to take, should the rule come up again.
    · subst hother
      simp
    · simp [hother]

theorem nodup_remember (h : (aside.map Prod.fst).Nodup)
    (rule : RuleId) (outcome : Outcome V) :
    ((remember aside rule outcome).map Prod.fst).Nodup := by
  unfold remember
  rw [List.map_cons, List.nodup_cons]
  constructor
  -- An older entry for the rule has been left out.
  · intro hmem
    obtain ⟨entry, hentry, hrule⟩ := List.mem_map.mp hmem
    have hne := (List.mem_filter.mp hentry).2
    simp [hrule] at hne
  · exact h.sublist (List.filter_sublist.map _)

theorem nodup_setAside (h : (activation.aside.map Prod.fst).Nodup) :
    ((activation.setAside table).1.aside.map Prod.fst).Nodup := by
  suffices hfold : ∀ (rules : List RuleId) (held : List (RuleId × Outcome V) × MemoTable V),
      (held.1.map Prod.fst).Nodup →
        ((rules.foldl (setAsideOne activation.position) held).1.map Prod.fst).Nodup from
    hfold _ _ h
  intro rules
  induction rules with
  | nil => exact fun _ h => h
  | cons rule rest ih =>
    intro held h
    apply ih
    unfold setAsideOne
    split
    · exact nodup_remember h _ _
    · exact h

/-! ## The list updated in place -/

/-- An outcome takes the place of the one held for the rule, or else comes last. -/
def overwrite (rule : RuleId) (outcome : Outcome V) :
    List (RuleId × Outcome V) → List (RuleId × Outcome V)
  | [] => [(rule, outcome)]
  | entry :: rest =>
    if entry.1 = rule then (rule, outcome) :: rest else entry :: overwrite rule outcome rest

/-- The entry at an index is taken out, and the last one moves to its place. -/
def swapRemove {α : Type} (entries : List α) (index : Nat) : List α :=
  match entries.getLast? with
  | some last => (entries.set index last).dropLast
  | none => []

/-- Takes the outcome of one rule out of the table, and updates the list in place. -/
def setAsideOneInPlace (position : Nat) (held : List (RuleId × Outcome V) × MemoTable V)
    (rule : RuleId) : List (RuleId × Outcome V) × MemoTable V :=
  match held.2.outcome? rule position with
  | some outcome => (overwrite rule outcome held.1, held.2.erase rule position)
  | none => held

def setAsideInPlace (activation : Activation V) (table : MemoTable V) :
    Activation V × MemoTable V :=
  let held := activation.involved.foldl (setAsideOneInPlace activation.position)
    (activation.aside, table)
  ({ activation with aside := held.1 }, held.2)

/-- Returns one rule to what is held for it, which is not held any longer, or to nothing at all. -/
def putBackOneInPlace (position : Nat) (held : List (RuleId × Outcome V) × MemoTable V)
    (rule : RuleId) : List (RuleId × Outcome V) × MemoTable V :=
  if (held.2.find? rule position).any Entry.isInProgress then held
  else
    match held.1.lookup rule with
    | some outcome =>
      (swapRemove held.1 (held.1.findIdx (·.1 = rule)), held.2.put rule position (.finished outcome))
    | none => (held.1, held.2.erase rule position)

def putBackInPlace (activation : Activation V) (table : MemoTable V) :
    Activation V × MemoTable V :=
  ({ activation with involved := [], aside := [] },
    (activation.involved.foldl (putBackOneInPlace activation.position)
      (activation.aside, table)).2)

theorem lookup_overwrite :
    (overwrite rule outcome held).lookup other =
      if other = rule then some outcome else held.lookup other := by
  induction held with
  | nil => exact lookup_remember [] rule other outcome
  | cons entry rest ih =>
    unfold overwrite
    by_cases hentry : entry.1 = rule
    · rw [if_pos hentry, List.lookup_cons, List.lookup_cons, hentry]
      by_cases hother : other = rule
      · simp [hother]
      · rw [if_neg hother, beq_false_of_ne hother]
    · rw [if_neg hentry, List.lookup_cons, List.lookup_cons, ih]
      by_cases hother : other = rule
      · subst hother
        rw [beq_false_of_ne (Ne.symm hentry)]
      · simp only [if_neg hother]

theorem mem_keys_overwrite :
    other ∈ (overwrite rule outcome held).map Prod.fst ↔ other = rule ∨ other ∈ held.map Prod.fst := by
  induction held with
  | nil => simp [overwrite]
  | cons entry rest ih =>
    unfold overwrite
    split
    · rename_i hentry
      simp [hentry]
    · rw [List.map_cons, List.map_cons, List.mem_cons, List.mem_cons, ih]
      exact or_left_comm

theorem nodup_overwrite (h : (held.map Prod.fst).Nodup) :
    ((overwrite rule outcome held).map Prod.fst).Nodup := by
  induction held with
  | nil => simp [overwrite]
  | cons entry rest ih =>
    obtain ⟨hnew, hrest⟩ := List.nodup_cons.mp h
    unfold overwrite
    split
    · rename_i hentry
      exact List.nodup_cons.mpr ⟨hentry ▸ hnew, hrest⟩
    · rename_i hentry
      refine List.nodup_cons.mpr ⟨fun hmem => ?_, ih hrest⟩
      exact (mem_keys_overwrite.mp hmem).elim hentry hnew

/-- What is left are the other entries. -/
theorem perm_swapRemove {α : Type} {entries : List α} {index : Nat} (h : index < entries.length) :
    entries.Perm (entries[index] :: swapRemove entries index) := by
  obtain rfl | ⟨init, last, rfl⟩ := entries.eq_nil_or_concat'
  · exact absurd h (Nat.not_lt_zero _)
  · have hremoved : swapRemove (init ++ [last]) index =
        ((init ++ [last]).set index last).dropLast := by
      simp [swapRemove]
    rw [hremoved]
    by_cases hlt : index < init.length
    -- The last entry stands where the other one was taken out.
    · rw [List.getElem_append_left hlt, List.set_append_left _ _ hlt, List.dropLast_concat]
      have hset : (init.set index last).Perm (last :: init.eraseIdx index) :=
        List.set_perm_cons_eraseIdx hlt last
      have hinit : (init[index] :: init.eraseIdx index).Perm init :=
        List.getElem_cons_eraseIdx_perm hlt
      calc
        (init ++ [last]).Perm (last :: init) := List.perm_append_singleton _ _
        List.Perm _ (last :: init[index] :: init.eraseIdx index) := hinit.symm.cons _
        List.Perm _ (init[index] :: last :: init.eraseIdx index) := .swap _ _ _
        List.Perm _ (init[index] :: init.set index last) := hset.symm.cons _
    -- It is the last entry that is taken out.
    · obtain rfl : index = init.length := by
        rw [List.length_append, List.length_singleton] at h
        omega
      simp [List.perm_append_singleton]

/-- In a list that holds a rule once, what is found is what is in it. -/
theorem lookup_eq_some_iff_mem (h : (held.map Prod.fst).Nodup) :
    held.lookup rule = some outcome ↔ (rule, outcome) ∈ held := by
  induction held with
  | nil => simp
  | cons entry rest ih =>
    obtain ⟨key, found⟩ := entry
    obtain ⟨hnew, hrest⟩ := List.nodup_cons.mp h
    rw [List.lookup_cons, List.mem_cons]
    by_cases hrule : rule = key
    · subst hrule
      have hout : (rule, outcome) ∉ rest := fun hmem =>
        hnew (List.mem_map.mpr ⟨_, hmem, rfl⟩)
      simp [hout, eq_comm]
    · rw [beq_false_of_ne hrule]
      exact (ih hrest).trans (or_iff_right fun hentry => hrule (congrArg Prod.fst hentry)).symm

/-- What is taken out of the list for a rule is its entry, and nothing else. -/
theorem lookup_swapRemove (h : (held.map Prod.fst).Nodup) (hrule : rule ∈ held.map Prod.fst) :
    let rest := swapRemove held (held.findIdx (·.1 = rule))
    (rest.map Prod.fst).Nodup ∧ ∀ other, other ≠ rule → rest.lookup other = held.lookup other := by
  intro rest
  obtain ⟨entry, hentry, rfl⟩ := List.mem_map.mp hrule
  have hlt : held.findIdx (·.1 = entry.1) < held.length :=
    List.findIdx_lt_length.mpr ⟨entry, hentry, by simp⟩
  have htaken : held[held.findIdx (·.1 = entry.1)].1 = entry.1 := by
    simpa using List.findIdx_getElem (w := hlt)
  have hperm : held.Perm (held[held.findIdx (·.1 = entry.1)] :: rest) := perm_swapRemove hlt
  have hrest : (rest.map Prod.fst).Nodup :=
    (List.nodup_cons.mp ((hperm.map Prod.fst).nodup_iff.mp h)).2
  refine ⟨hrest, fun other hother => Option.ext fun found => ?_⟩
  rw [lookup_eq_some_iff_mem hrest, lookup_eq_some_iff_mem h, hperm.mem_iff, List.mem_cons]
  exact (or_iff_right fun hfound => hother ((congrArg Prod.fst hfound).trans htaken)).symm

/-- The two lists hold the same outcomes, and the first has an entry for a rule only once. -/
structure Holds (held aside : List (RuleId × Outcome V)) : Prop where
  nodup : (held.map Prod.fst).Nodup
  lookup_eq : ∀ rule, held.lookup rule = aside.lookup rule

theorem Holds.overwrite (h : Holds held aside) (rule : RuleId) (outcome : Outcome V) :
    Holds (overwrite rule outcome held) (remember aside rule outcome) where
  nodup := nodup_overwrite h.nodup
  lookup_eq other := by rw [lookup_overwrite, lookup_remember, h.lookup_eq]

theorem Holds.setAside (h : Holds held activation.aside) :
    ∃ held', setAsideInPlace { activation with aside := held } table =
        ({ activation with aside := held' }, (activation.setAside table).2) ∧
      Holds held' (activation.setAside table).1.aside := by
  suffices hfold : ∀ (rules : List RuleId) (held aside : List (RuleId × Outcome V))
      (table : MemoTable V), Holds held aside →
      let inPlace := rules.foldl (setAsideOneInPlace activation.position) (held, table)
      let anew := rules.foldl (setAsideOne activation.position) (aside, table)
      inPlace.2 = anew.2 ∧ Holds inPlace.1 anew.1 by
    obtain ⟨htable, hheld⟩ := hfold activation.involved held activation.aside table h
    exact ⟨_, Prod.ext rfl htable, hheld⟩
  intro rules
  induction rules with
  | nil => exact fun _ _ _ h => ⟨rfl, h⟩
  | cons rule rest ih =>
    intro held aside table h
    simp only [List.foldl_cons, setAsideOneInPlace, setAsideOne]
    cases table.outcome? rule activation.position with
    | none => exact ih held aside table h
    | some outcome => exact ih _ _ _ (h.overwrite rule outcome)

/-- As no rule is involved twice, none is looked for after its outcome has been taken out. -/
theorem Holds.putBack (h : Holds held activation.aside) (hinvolved : activation.involved.Nodup) :
    putBackInPlace { activation with aside := held } table = activation.putBack table := by
  suffices hfold : ∀ (rules : List RuleId) (held : List (RuleId × Outcome V)) (table : MemoTable V),
      rules.Nodup → (held.map Prod.fst).Nodup →
      (∀ rule ∈ rules, held.lookup rule = activation.aside.lookup rule) →
      (rules.foldl (putBackOneInPlace activation.position) (held, table)).2 =
        rules.foldl (putBackOne activation.position activation.aside) table from
    Prod.ext rfl (hfold _ _ _ hinvolved h.nodup fun rule _ => h.lookup_eq rule)
  intro rules
  induction rules with
  | nil => exact fun _ _ _ _ _ => rfl
  | cons rule rest ih =>
    intro held table hrules hheld hsame
    obtain ⟨hnew, hrest⟩ := List.nodup_cons.mp hrules
    obtain ⟨hrule, hothers⟩ := List.forall_mem_cons.mp hsame
    simp only [List.foldl_cons, putBackOneInPlace, putBackOne, ← hrule]
    split
    -- A marker stays, and what is held for the rule is held for nothing.
    · exact ih held table hrest hheld hothers
    · cases hlookup : held.lookup rule with
      | none => exact ih held _ hrest hheld hothers
      | some outcome =>
        have hmem : rule ∈ held.map Prod.fst :=
          List.mem_map_of_mem ((lookup_eq_some_iff_mem hheld).mp hlookup)
        obtain ⟨hleft, hkept⟩ := lookup_swapRemove hheld hmem
        refine ih _ _ hrest hleft fun other hother => ?_
        rw [hkept other (fun heq => hnew (heq ▸ hother)), hothers other hother]

end Activation

namespace Custody

open Activation

/-! ## What happens to an activation and the table -/

/-- Something that happens while an activation grows. -/
inductive Op (V : Type) where
  /-- A rule turns out to be involved. -/
  | involve (rule : RuleId)
  /-- The outcomes of the rules involved are set aside. -/
  | setAside
  /-- Another activation writes to the table. -/
  | put (rule : RuleId) (position : Nat) (entry : Entry V)
  /-- A cell of the table is cleared. -/
  | erase (rule : RuleId) (position : Nat)
deriving DecidableEq, Repr

def step (state : Activation V × MemoTable V) : Op V → Activation V × MemoTable V
  | .involve rule => (state.1.involve rule, state.2)
  | .setAside => state.1.setAside state.2
  | .put rule position entry => (state.1, state.2.put rule position entry)
  | .erase rule position => (state.1, state.2.erase rule position)

def run (state : Activation V × MemoTable V) (ops : List (Op V)) : Activation V × MemoTable V :=
  ops.foldl step state

/-- The outcome of the rule that is moved aside: the table has it before outcomes are set aside, at
the activation's position, and not afterwards. -/
def taken (rule : RuleId) (state : Activation V × MemoTable V) : Op V → Option (Outcome V)
  | .setAside =>
    if (state.1.setAside state.2).2.find? rule state.1.position = none then
      state.2.outcome? rule state.1.position
    else none
  | _ => none

/-- The outcomes of the rule that are moved aside, the first one first. -/
def takings (rule : RuleId) (state : Activation V × MemoTable V) : List (Op V) → List (Outcome V)
  | [] => []
  | op :: rest => (taken rule state op).toList ++ takings rule (step state op) rest

variable {state : Activation V × MemoTable V} {rule other : RuleId}
  {held : List (RuleId × Outcome V)}

@[simp] theorem run_cons (op : Op V) (rest : List (Op V)) :
    run state (op :: rest) = run (step state op) rest := rfl

/-! ## One step -/

@[simp] theorem rule_step (op : Op V) : (step state op).1.rule = state.1.rule := by
  cases op with
  | involve rule => exact rule_involve state.1 rule
  | _ => rfl

@[simp] theorem position_step (op : Op V) : (step state op).1.position = state.1.position := by
  cases op with
  | involve rule => exact (sameCall_involve state.1 rule).position_eq
  | _ => rfl

theorem mem_involved_step (op : Op V) :
    other ∈ (step state op).1.involved ↔
      other ∈ state.1.involved ∨ (op = .involve other ∧ other ≠ state.1.rule) := by
  cases op with
  | involve rule =>
    refine mem_involved_involve.trans (or_congr_right ?_)
    constructor
    · rintro ⟨rfl, hother⟩
      exact ⟨rfl, hother⟩
    · rintro ⟨hop, hother⟩
      cases hop
      exact ⟨rfl, hother⟩
  | _ => exact ⟨.inl, fun h => h.elim id fun h => nomatch h.1⟩

theorem nodup_involved_step (op : Op V) (h : state.1.involved.Nodup) :
    (step state op).1.involved.Nodup := by
  cases op with
  | involve rule => exact nodup_involved_involve rule h
  | _ => exact h

theorem nodup_aside_step (op : Op V) (h : (state.1.aside.map Prod.fst).Nodup) :
    ((step state op).1.aside.map Prod.fst).Nodup := by
  cases op with
  | involve rule => exact (sameCall_involve state.1 rule).aside_eq ▸ h
  | setAside => exact nodup_setAside h
  | put rule position entry => exact h
  | erase rule position => exact h

/-- Moved aside are the outcomes of the rules involved. -/
theorem taken_setAside :
    taken rule state .setAside =
      if rule ∈ state.1.involved then state.2.outcome? rule state.1.position else none := by
  unfold taken
  rw [find?_setAside]
  cases houtcome : state.2.outcome? rule state.1.position with
  | none => simp
  | some outcome =>
    have hfind := MemoTable.outcome?_eq_some_iff.mp houtcome
    by_cases hinvolved : rule ∈ state.1.involved <;> simp [hinvolved, hfind]

/-- What is held for a rule is replaced when an outcome of it is moved aside, and only then. -/
theorem lookup_step (op : Op V) :
    (step state op).1.aside.lookup rule = (taken rule state op).or (state.1.aside.lookup rule) := by
  cases op with
  | involve rule => rw [step, (sameCall_involve state.1 rule).aside_eq]; rfl
  | setAside =>
    rw [taken_setAside]
    refine lookup_setAside.trans ?_
    split <;> rfl
  | put rule position entry => rfl
  | erase rule position => rfl

/-! ## Any number of steps -/

@[simp] theorem position_run (ops : List (Op V)) :
    (run state ops).1.position = state.1.position := by
  induction ops generalizing state with
  | nil => rfl
  | cons op rest ih => rw [run_cons, ih, position_step]

theorem mem_involved_run (ops : List (Op V)) :
    other ∈ (run state ops).1.involved ↔
      other ∈ state.1.involved ∨ (.involve other ∈ ops ∧ other ≠ state.1.rule) := by
  induction ops generalizing state with
  | nil => simp [run]
  | cons op rest ih =>
    rw [run_cons, ih, mem_involved_step, rule_step, or_assoc, ← or_and_right, List.mem_cons,
      eq_comm]

theorem nodup_involved_run (ops : List (Op V)) (h : state.1.involved.Nodup) :
    (run state ops).1.involved.Nodup := by
  induction ops generalizing state with
  | nil => exact h
  | cons op rest ih => exact ih (nodup_involved_step op h)

theorem nodup_aside_run (ops : List (Op V)) (h : (state.1.aside.map Prod.fst).Nodup) :
    ((run state ops).1.aside.map Prod.fst).Nodup := by
  induction ops generalizing state with
  | nil => exact h
  | cons op rest ih => exact ih (nodup_aside_step op h)

/-- What is held for a rule is the outcome moved aside last. -/
theorem lookup_run (ops : List (Op V)) :
    (run state ops).1.aside.lookup rule =
      (takings rule state ops).getLast?.or (state.1.aside.lookup rule) := by
  induction ops generalizing state with
  | nil => rfl
  | cons op rest ih =>
    rw [run_cons, ih, lookup_step, takings, List.getLast?_append, Option.or_assoc]
    cases taken rule state op <;> rfl

/-! ## Steps in place -/

/-- As `step`, with the list updated in place. -/
def stepInPlace (state : Activation V × MemoTable V) : Op V → Activation V × MemoTable V
  | .setAside => state.1.setAsideInPlace state.2
  | op => step state op

def runInPlace (state : Activation V × MemoTable V) (ops : List (Op V)) :
    Activation V × MemoTable V :=
  ops.foldl stepInPlace state

theorem stepInPlace_eq (op : Op V) (h : Holds held state.1.aside) :
    ∃ held', stepInPlace ({ state.1 with aside := held }, state.2) op =
        ({ (step state op).1 with aside := held' }, (step state op).2) ∧
      Holds held' (step state op).1.aside := by
  cases op with
  | involve rule =>
    refine ⟨held, Prod.ext ?_ rfl, ?_⟩
    · unfold stepInPlace step involve
      dsimp only
      split <;> rfl
    · rw [step, (sameCall_involve state.1 rule).aside_eq]
      exact h
  | setAside => exact h.setAside
  | put rule position entry => exact ⟨held, rfl, h⟩
  | erase rule position => exact ⟨held, rfl, h⟩

/-- In place everything is as it is otherwise, but for the order of what is held. -/
theorem runInPlace_eq (ops : List (Op V)) (h : Holds held state.1.aside) :
    ∃ held', runInPlace ({ state.1 with aside := held }, state.2) ops =
        ({ (run state ops).1 with aside := held' }, (run state ops).2) ∧
      Holds held' (run state ops).1.aside := by
  induction ops generalizing state held with
  | nil => exact ⟨held, rfl, h⟩
  | cons op rest ih =>
    obtain ⟨held', hstep, hheld⟩ := stepInPlace_eq op h
    obtain ⟨held'', hrun, hheld'⟩ := ih hheld
    refine ⟨held'', ?_, hheld'⟩
    rw [runInPlace, List.foldl_cons, hstep]
    exact hrun

/-! ## From the start of an activation to the end of its growth -/

/-- An activation starts with nothing involved and nothing held. However often rules are found to be
involved and outcomes are set aside, and whatever else is written or erased in between:

* involved are the rules that were found to be, without the activation's own and each of them once,
  and no rule is held twice;
* to set outcomes aside clears the cells of the rules involved that have an outcome at the
  activation's position, and no others;
* to put them back gives each rule involved at that position the outcome that was moved aside for it
  last, or none if none was, except where there is a marker; it changes no other cell, and leaves
  nothing involved and nothing held;
* all this comes to the same where what is held is updated in place, and is used up while it is put
  back. -/
theorem find?_putBack_run (activation : Activation V) (rule : RuleId) (position : Nat)
    (table : MemoTable V) (ops : List (Op V)) :
    let start := (activation.restart rule position, table)
    let grown := (run start ops).1
    let written := (run start ops).2
    (∀ other, other ∈ grown.involved ↔ .involve other ∈ ops ∧ other ≠ rule) ∧
    grown.involved.Nodup ∧ (grown.aside.map Prod.fst).Nodup ∧
    (∀ other position', (grown.setAside written).2.find? other position' =
      if other ∈ grown.involved ∧ position' = position ∧
        (written.outcome? other position').isSome then none
      else written.find? other position') ∧
    (∀ other position', (grown.putBack written).2.find? other position' =
      if other ∈ grown.involved ∧ position' = position ∧
        ¬ (written.find? other position').any Entry.isInProgress then
        (takings other start ops).getLast?.map .finished
      else written.find? other position') ∧
    (grown.putBack written).1.involved = [] ∧ (grown.putBack written).1.aside = [] ∧
    let kept := runInPlace start ops
    kept.1.putBackInPlace kept.2 = grown.putBack written := by
  intro start grown written
  have hposition : grown.position = position := position_run ops
  have hinvolved : grown.involved.Nodup := nodup_involved_run ops .nil
  refine ⟨fun other => ?_, hinvolved, nodup_aside_run ops .nil, fun other position' => ?_,
    fun other position' => ?_, rfl, rfl, ?_⟩
  · apply (mem_involved_run ops).trans
    exact or_iff_right List.not_mem_nil
  · rw [← hposition]
    exact find?_setAside
  · have hheld : grown.aside.lookup other = (takings other start ops).getLast? :=
      (lookup_run ops).trans (Option.or_none ..)
    rw [← hheld, ← hposition]
    exact find?_putBack
  · have hnone : Holds start.1.aside start.1.aside := ⟨.nil, fun _ => rfl⟩
    obtain ⟨held, hrun, hheld⟩ := runInPlace_eq ops hnone
    intro kept
    have hkept : kept = ({ grown with aside := held }, written) := hrun
    rw [hkept]
    exact hheld.putBack hinvolved

/-- Of two outcomes moved aside for a rule the later one is put back, and what is there then is
overwritten; a rule that was found to be involved after that has none. -/
example :
    let found (stop : Nat) : Outcome Unit := .success ⟨0, stop, ()⟩
    let ops : List (Op Unit) :=
      [.involve ⟨1⟩, .put ⟨1⟩ 0 (.finished (found 1)), .setAside, .put ⟨1⟩ 0 (.finished (found 2)),
        .setAside, .setAside, .involve ⟨2⟩, .put ⟨1⟩ 0 (.finished .failure),
        .put ⟨2⟩ 0 (.finished (found 3))]
    let state := run (Activation.restart ⟨⟨7⟩, 9, .growing, [⟨5⟩], [3], []⟩ ⟨0⟩ 0, .empty) ops
    (state.1.putBack state.2).2.find? ⟨1⟩ 0 = some (.finished (found 2)) ∧
      (state.1.putBack state.2).2.find? ⟨2⟩ 0 = none := by
  decide +kernel

end Custody

end LeftPeg
