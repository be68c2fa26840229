import LeftPeg.Proofs.Course

/-!
# Evaluation without a table

What a task comes to where it is known what the rules come to. An evaluation has no memo table and
no activations: all it shares with a run is the input. It tells where the match ends and which trees
are made of it, and it keeps a log of what happened on the way.

`Answers` say what comes of a rule at a position. How they are found is left open here, and so is
what else a log records besides the terminals that failed; each reading of a grammar brings its own.
-/

namespace LeftPeg

/-- Failures of terminals in the order in which they happened, each with its position. -/
abbrev FailureLog := List (Nat × String)

/-! ## Failures that are taken account of -/

namespace FurthestFailure

/-- Takes account of all failures of a log, one after another. -/
def noteAll (failure : FurthestFailure) (log : FailureLog) : FurthestFailure :=
  log.foldl (fun failure entry => failure.note entry.1 entry.2) failure

/-- The failure is taken account of already: to note it again changes nothing. -/
def Absorbs (failure : FurthestFailure) (entry : Nat × String) : Prop :=
  failure.note entry.1 entry.2 = failure

variable {failure : FurthestFailure} {entry : Nat × String} {log log' : FailureLog}

theorem absorbs_iff :
    failure.Absorbs entry ↔
      entry.1 < failure.index ∨ (entry.1 = failure.index ∧ entry.2 ∈ failure.expected) := by
  unfold Absorbs note
  split
  · simp [*]
  · split
    · rename_i hlt
      -- Further right than all before it, it would be what counts from then on.
      constructor
      · intro h
        have hindex := congrArg index h
        dsimp only at hindex
        omega
      · omega
    · have hindex : entry.1 = failure.index := by omega
      split
      · simp [*]
      · rename_i hmem
        constructor
        -- Something new at the furthest place would make the list longer.
        · intro h
          have hlength := congrArg (fun failure => failure.expected.length) h
          simp at hlength
        · rintro (hlt | ⟨-, h⟩)
          · omega
          · exact absurd h hmem

/-- What has been noted is absorbed. -/
theorem absorbs_note_self (failure : FurthestFailure) (entry : Nat × String) :
    (failure.note entry.1 entry.2).Absorbs entry := by
  rw [absorbs_iff]
  unfold note
  split
  · exact .inl ‹_›
  · split
    · exact .inr ⟨rfl, List.mem_singleton_self _⟩
    · have hindex : entry.1 = failure.index := by omega
      split
      · exact .inr ⟨hindex, ‹_›⟩
      · exact .inr ⟨hindex, List.mem_append_right _ (List.mem_singleton_self _)⟩

/-- What is absorbed stays absorbed, whatever is noted after it. -/
theorem Absorbs.note (h : failure.Absorbs entry) (index : Nat) (description : String) :
    (failure.note index description).Absorbs entry := by
  rw [absorbs_iff] at h ⊢
  unfold FurthestFailure.note
  split
  · exact h
  · split
    · left
      dsimp only
      rcases h with h | ⟨h, -⟩ <;> omega
    · split
      · exact h
      · exact h.imp_right fun h => ⟨h.1, List.mem_append_left _ h.2⟩

theorem Absorbs.noteAll (h : failure.Absorbs entry) (log : FailureLog) :
    (failure.noteAll log).Absorbs entry := by
  induction log generalizing failure with
  | nil => exact h
  | cons first rest ih => exact ih (h.note first.1 first.2)

theorem noteAll_append (failure : FurthestFailure) (log log' : FailureLog) :
    failure.noteAll (log ++ log') = (failure.noteAll log).noteAll log' :=
  List.foldl_append

/-- Each failure of a log that has been noted is absorbed. -/
theorem absorbs_noteAll (failure : FurthestFailure) (hmem : entry ∈ log) :
    (failure.noteAll log).Absorbs entry := by
  obtain ⟨before, after, rfl⟩ := List.append_of_mem hmem
  rw [noteAll_append]
  exact (absorbs_note_self (failure.noteAll before) entry).noteAll after

/-- A log whose failures are all absorbed changes nothing. -/
theorem noteAll_of_absorbs (h : ∀ entry ∈ log, failure.Absorbs entry) :
    failure.noteAll log = failure := by
  induction log with
  | nil => rfl
  | cons first rest ih =>
    have hfirst : failure.note first.1 first.2 = failure := h first List.mem_cons_self
    rw [noteAll, List.foldl_cons, hfirst]
    exact ih fun entry hmem => h entry (List.mem_cons_of_mem _ hmem)

end FurthestFailure

/-! ## What is found -/

/-- A terminal ends to the right of where it stands, and in the input. -/
theorem Expression.span_of_reach? {S : Type} [DecidableEq S] {input : Array S}
    {expression : Expression S} {start stop : Nat}
    (h : expression.reach? input start = some stop) (hstart : start ≤ input.size) :
    start ≤ stop ∧ stop ≤ input.size := by
  cases expression with
  | literal symbols description =>
    simp only [reach?, Option.ite_none_right_eq_some, Option.some.injEq] at h
    obtain ⟨⟨-, hprefix⟩, rfl⟩ := h
    have hlength := hprefix.length_le
    have hsize : input.toList.length = input.size := Array.length_toList
    rw [List.length_drop] at hlength
    omega
  | satisfying test description =>
    simp only [reach?, Option.ite_none_right_eq_some, Option.some.injEq] at h
    obtain ⟨hany, rfl⟩ := h
    have hlt : start < input.size := by
      rcases Nat.lt_or_ge start input.size with hlt | hge
      · exact hlt
      · rw [Array.getElem?_eq_none hge] at hany
        cases hany
    omega
  | any =>
    simp only [reach?, Option.ite_none_right_eq_some, Option.some.injEq] at h
    omega
  | _ => cases h

/-- Where a match ends and the trees made of it, if there is a match. -/
abbrev Found := Option (Nat × List Tree)

namespace Found

/-- The trees made before come first. -/
def prepend (trees : List Tree) (found : Found) : Found :=
  found.map fun (stop, rest) => (stop, trees ++ rest)

/-- The trees are gathered under a tag. -/
def gather (tag : String) (start : Nat) (found : Found) : Found :=
  found.map fun (stop, trees) => (stop, [⟨none, some tag, start, stop, trees⟩])

end Found

namespace Outcome

/-- What a rule adds to the match that it is a part of. -/
def found? (outcome : Outcome Tree) : Found :=
  outcome.match?.map fun found => (found.stop, [found.value])

/-- The outcome of a rule whose body found this. -/
def ofFound (rule : RuleId) (start : Nat) : Found → Outcome Tree
  | none => .failure
  | some (stop, trees) => .success ⟨start, stop, ⟨some rule, none, start, stop, trees⟩⟩

end Outcome

/-! ## Evaluations -/

variable {S L : Type}

/-- What comes of a rule at a position, with a log of what happened on the way. -/
abbrev Answers (L : Type) := RuleId → Nat → Outcome Tree → List L → Prop

namespace Answers

/-- The two never answer the same question differently. -/
def Agree (answers answers' : Answers L) : Prop :=
  ∀ ⦃rule start outcome log outcome' log'⦄, answers rule start outcome log →
    answers' rule start outcome' log' → outcome = outcome' ∧ log = log'

/-- Matches end to the right of where they were asked for and in an input of that size. -/
def Span (answers : Answers L) (size : Nat) : Prop :=
  ∀ ⦃rule start found log⦄, answers rule start (.success found) log → start ≤ size →
    start ≤ found.stop ∧ found.stop ≤ size

/-- The answers that `step` finds with the help of others, which it has found before, and so on,
`depth` times in all. -/
def within (step : Answers L → Answers L) : Nat → Answers L
  | 0 => fun _ _ _ _ => False
  | depth + 1 => step (within step depth)

/-- The answers that `step` finds, however often it has to be repeated. -/
def reached (step : Answers L → Answers L) : Answers L := fun rule start outcome log =>
  ∃ depth, within step depth rule start outcome log

variable {step : Answers L → Answers L}

/-- More repetitions find more answers. -/
theorem within_mono
    (hstep : ∀ answers answers' : Answers L,
      (∀ rule start outcome log, answers rule start outcome log →
        answers' rule start outcome log) →
      ∀ rule start outcome log, step answers rule start outcome log →
        step answers' rule start outcome log)
    {depth depth' : Nat} {rule : RuleId} {start : Nat} {outcome : Outcome Tree} {log : List L}
    (hle : depth ≤ depth') (h : within step depth rule start outcome log) :
    within step depth' rule start outcome log := by
  induction depth generalizing depth' rule start outcome log with
  | zero => exact h.elim
  | succ depth ih =>
    cases depth' with
    | zero => exact absurd hle (Nat.not_succ_le_zero _)
    | succ depth' =>
      exact hstep _ _ (fun _ _ _ _ => ih (Nat.le_of_succ_le_succ hle)) _ _ _ _ h

theorem within_agree
    (hstep : ∀ answers answers' : Answers L, answers.Agree answers' →
      (step answers).Agree (step answers'))
    (depth depth' : Nat) : (within step depth).Agree (within step depth') := by
  induction depth generalizing depth' with
  | zero => exact fun _ _ _ _ _ _ h => h.elim
  | succ depth ih =>
    cases depth' with
    | zero => exact fun _ _ _ _ _ _ _ h' => h'.elim
    | succ depth' => exact hstep _ _ (ih depth')

theorem reached_agree
    (hstep : ∀ answers answers' : Answers L, answers.Agree answers' →
      (step answers).Agree (step answers')) :
    (reached step).Agree (reached step) :=
  fun _ _ _ _ _ _ ⟨depth, h⟩ ⟨depth', h'⟩ => within_agree hstep depth depth' h h'

theorem reached_span {size : Nat}
    (hstep : ∀ answers : Answers L, answers.Span size → (step answers).Span size) :
    (reached step).Span size := by
  have hwithin : ∀ depth, (within step depth).Span size := by
    intro depth
    induction depth with
    | zero => exact fun _ _ _ _ h => h.elim
    | succ depth ih => exact hstep _ ih
  rintro rule start found log ⟨depth, h⟩ hstart
  exact hwithin depth h hstart

end Answers

/-- To evaluate a task at a position, with the rules answered like that, finds this and leaves this
log, where `fail` makes the entry for a terminal that failed. -/
inductive Evaluates [DecidableEq S] (input : Array S) (fail : Nat → String → L)
    (answers : Answers L) : Task S → Nat → Found → List L → Prop where
  | terminal {expression : Expression S} {expected : String} {start : Nat}
      (hexpected : expression.expected? = some expected) :
      Evaluates input fail answers (.one expression) start
        ((expression.reach? input start).map fun stop => (stop, [.leaf start stop]))
        (if (expression.reach? input start).isSome then [] else [fail start expected])
  | rule {target : RuleId} {start : Nat} {outcome : Outcome Tree} {log : List L}
      (hanswer : answers target start outcome log) :
      Evaluates input fail answers (.one (.rule target)) start outcome.found? log
  | sequence {items : List (Expression S)} {start : Nat} {found : Found} {log : List L}
      (hitems : Evaluates input fail answers (.all items) start found log) :
      Evaluates input fail answers (.one (.sequence items)) start found log
  | choice {alternatives : List (Expression S)} {start : Nat} {found : Found} {log : List L}
      (hitems : Evaluates input fail answers (.first alternatives) start found log) :
      Evaluates input fail answers (.one (.choice alternatives)) start found log
  | repetition {item : Expression S} {atLeast : Nat} {atMost : Option Nat} {start : Nat}
      {found : Found} {log : List L}
      (hcopies : Evaluates input fail answers (.copies item atMost atLeast) start found log) :
      Evaluates input fail answers (.one (.repetition item atLeast atMost)) start found log
  /-- A lookahead passes over nothing and makes no trees, but its failures are logged. -/
  | lookahead {item : Expression S} {positive : Bool} {start : Nat} {found : Found}
      {log : List L} (hitem : Evaluates input fail answers (.one item) start found log) :
      Evaluates input fail answers (.one (.lookahead item positive)) start
        (if found.isSome = positive then some (start, []) else none) log
  | tagged {tag : String} {item : Expression S} {start : Nat} {found : Found} {log : List L}
      (hitem : Evaluates input fail answers (.one item) start found log) :
      Evaluates input fail answers (.one (.tagged tag item)) start (found.gather tag start) log
  | allNil {start : Nat} : Evaluates input fail answers (.all []) start (some (start, [])) []
  | allFails {item : Expression S} {rest : List (Expression S)} {start : Nat} {log : List L}
      (hitem : Evaluates input fail answers (.one item) start none log) :
      Evaluates input fail answers (.all (item :: rest)) start none log
  | allCons {item : Expression S} {rest : List (Expression S)} {start middle : Nat}
      {trees : List Tree} {found : Found} {log log' : List L}
      (hitem : Evaluates input fail answers (.one item) start (some (middle, trees)) log)
      (hrest : Evaluates input fail answers (.all rest) middle found log') :
      Evaluates input fail answers (.all (item :: rest)) start (found.prepend trees) (log ++ log')
  | firstNil {start : Nat} : Evaluates input fail answers (.first []) start none []
  | firstFound {item : Expression S} {rest : List (Expression S)} {start stop : Nat}
      {trees : List Tree} {log : List L}
      (hitem : Evaluates input fail answers (.one item) start (some (stop, trees)) log) :
      Evaluates input fail answers (.first (item :: rest)) start (some (stop, trees)) log
  | firstNext {item : Expression S} {rest : List (Expression S)} {start : Nat} {found : Found}
      {log log' : List L} (hitem : Evaluates input fail answers (.one item) start none log)
      (hrest : Evaluates input fail answers (.first rest) start found log') :
      Evaluates input fail answers (.first (item :: rest)) start found (log ++ log')
  | copiesEnd {item : Expression S} {owed start : Nat} :
      Evaluates input fail answers (.copies item (some 0) owed) start
        (if owed = 0 then some (start, []) else none) []
  | copiesStop {item : Expression S} {limit : Option Nat} {owed start : Nat} {log : List L}
      (hlimit : limit ≠ some 0)
      (hitem : Evaluates input fail answers (.one item) start none log) :
      Evaluates input fail answers (.copies item limit owed) start
        (if owed = 0 then some (start, []) else none) log
  /-- A copy that passes over nothing is counted and is the last one. -/
  | copiesEmpty {item : Expression S} {limit : Option Nat} {owed start : Nat} {trees : List Tree}
      {log : List L} (hlimit : limit ≠ some 0)
      (hitem : Evaluates input fail answers (.one item) start (some (start, trees)) log) :
      Evaluates input fail answers (.copies item limit owed) start
        (if owed ≤ 1 then some (start, trees) else none) log
  | copiesNext {item : Expression S} {limit : Option Nat} {owed start middle : Nat}
      {trees : List Tree} {found : Found} {log log' : List L} (hlimit : limit ≠ some 0)
      (hitem : Evaluates input fail answers (.one item) start (some (middle, trees)) log)
      (hmoved : middle ≠ start)
      (hrest : Evaluates input fail answers (.copies item (limit.map (· - 1)) (owed - 1)) middle
        found log') :
      Evaluates input fail answers (.copies item limit owed) start (found.prepend trees)
        (log ++ log')

namespace Evaluates

variable [DecidableEq S] {input : Array S} {fail : Nat → String → L}
  {answers answers' : Answers L} {task : Task S}
  {start : Nat} {found found' : Found} {log log' : List L}

/-! An expression other than a terminal is evaluated in one way only. -/

@[simp] theorem rule_iff {target : RuleId} :
    Evaluates input fail answers (.one (.rule target)) start found log ↔
      ∃ outcome, answers target start outcome log ∧ found = outcome.found? := by
  constructor
  · intro h
    cases h with
    | terminal hexpected => cases hexpected
    | rule hanswer => exact ⟨_, hanswer, rfl⟩
  · rintro ⟨outcome, hanswer, rfl⟩
    exact .rule hanswer

@[simp] theorem sequence_iff {items : List (Expression S)} :
    Evaluates input fail answers (.one (.sequence items)) start found log ↔
      Evaluates input fail answers (.all items) start found log := by
  refine ⟨fun h => ?_, .sequence⟩
  cases h with
  | terminal hexpected => cases hexpected
  | sequence hitems => exact hitems

@[simp] theorem choice_iff {alternatives : List (Expression S)} :
    Evaluates input fail answers (.one (.choice alternatives)) start found log ↔
      Evaluates input fail answers (.first alternatives) start found log := by
  refine ⟨fun h => ?_, .choice⟩
  cases h with
  | terminal hexpected => cases hexpected
  | choice hitems => exact hitems

@[simp] theorem repetition_iff {item : Expression S} {atLeast : Nat} {atMost : Option Nat} :
    Evaluates input fail answers (.one (.repetition item atLeast atMost)) start found log ↔
      Evaluates input fail answers (.copies item atMost atLeast) start found log := by
  refine ⟨fun h => ?_, .repetition⟩
  cases h with
  | terminal hexpected => cases hexpected
  | repetition hcopies => exact hcopies

@[simp] theorem lookahead_iff {item : Expression S} {positive : Bool} :
    Evaluates input fail answers (.one (.lookahead item positive)) start found log ↔
      ∃ inner, Evaluates input fail answers (.one item) start inner log ∧
        found = if inner.isSome = positive then some (start, []) else none := by
  constructor
  · intro h
    cases h with
    | terminal hexpected => cases hexpected
    | lookahead hitem => exact ⟨_, hitem, rfl⟩
  · rintro ⟨inner, hitem, rfl⟩
    exact .lookahead hitem

@[simp] theorem tagged_iff {tag : String} {item : Expression S} :
    Evaluates input fail answers (.one (.tagged tag item)) start found log ↔
      ∃ inner, Evaluates input fail answers (.one item) start inner log ∧
        found = inner.gather tag start := by
  constructor
  · intro h
    cases h with
    | terminal hexpected => cases hexpected
    | tagged hitem => exact ⟨_, hitem, rfl⟩
  · rintro ⟨inner, hitem, rfl⟩
    exact .tagged hitem

/-- More answers allow for more evaluations. -/
theorem mono (hmono : ∀ rule start outcome log, answers rule start outcome log →
      answers' rule start outcome log)
    (h : Evaluates input fail answers task start found log) :
    Evaluates input fail answers' task start found log := by
  induction h with
  | terminal hexpected => exact .terminal hexpected
  | rule hanswer => exact .rule (hmono _ _ _ _ hanswer)
  | sequence hitems ih => exact .sequence ih
  | choice hitems ih => exact .choice ih
  | repetition hcopies ih => exact .repetition ih
  | lookahead hitem ih => exact .lookahead ih
  | tagged hitem ih => exact .tagged ih
  | allNil => exact .allNil
  | allFails hitem ih => exact .allFails ih
  | allCons hitem hrest ihitem ihrest => exact .allCons ihitem ihrest
  | firstNil => exact .firstNil
  | firstFound hitem ih => exact .firstFound ih
  | firstNext hitem hrest ihitem ihrest => exact .firstNext ihitem ihrest
  | copiesEnd => exact .copiesEnd
  | copiesStop hlimit hitem ih => exact .copiesStop hlimit ih
  | copiesEmpty hlimit hitem ih => exact .copiesEmpty hlimit ih
  | copiesNext hlimit hitem hmoved hrest ihitem ihrest =>
    exact .copiesNext hlimit ihitem hmoved ihrest

/-- An evaluation uses finitely many answers, so one of a growing family of answers is enough
for it. -/
theorem exists_of_family (family : Nat → Answers L)
    (hfamily : ∀ {n m rule start outcome log}, n ≤ m → family n rule start outcome log →
      family m rule start outcome log)
    (h : Evaluates input fail (fun rule start outcome log => ∃ n, family n rule start outcome log)
      task start found log) :
    ∃ n, Evaluates input fail (family n) task start found log := by
  -- Two evaluations have a member of the family in common: the greater one of theirs.
  have hboth : ∀ {task task' : Task S} {start start' found found' log log'},
      (∃ n, Evaluates input fail (family n) task start found log) →
      (∃ n, Evaluates input fail (family n) task' start' found' log') →
      ∃ n, Evaluates input fail (family n) task start found log ∧
        Evaluates input fail (family n) task' start' found' log' := by
    rintro task task' start start' found found' log log' ⟨n, h⟩ ⟨m, h'⟩
    exact ⟨max n m, h.mono fun _ _ _ _ => hfamily (Nat.le_max_left n m),
      h'.mono fun _ _ _ _ => hfamily (Nat.le_max_right n m)⟩
  induction h with
  | terminal hexpected => exact ⟨0, .terminal hexpected⟩
  | rule hanswer =>
    obtain ⟨n, hanswer⟩ := hanswer
    exact ⟨n, .rule hanswer⟩
  | sequence hitems ih => exact ih.imp fun _ => .sequence
  | choice hitems ih => exact ih.imp fun _ => .choice
  | repetition hcopies ih => exact ih.imp fun _ => .repetition
  | lookahead hitem ih => exact ih.imp fun _ => .lookahead
  | tagged hitem ih => exact ih.imp fun _ => .tagged
  | allNil => exact ⟨0, .allNil⟩
  | allFails hitem ih => exact ih.imp fun _ => .allFails
  | allCons hitem hrest ihitem ihrest =>
    exact (hboth ihitem ihrest).imp fun _ h => .allCons h.1 h.2
  | firstNil => exact ⟨0, .firstNil⟩
  | firstFound hitem ih => exact ih.imp fun _ => .firstFound
  | firstNext hitem hrest ihitem ihrest =>
    exact (hboth ihitem ihrest).imp fun _ h => .firstNext h.1 h.2
  | copiesEnd => exact ⟨0, .copiesEnd⟩
  | copiesStop hlimit hitem ih => exact ih.imp fun _ => .copiesStop hlimit
  | copiesEmpty hlimit hitem ih => exact ih.imp fun _ => .copiesEmpty hlimit
  | copiesNext hlimit hitem hmoved hrest ihitem ihrest =>
    exact (hboth ihitem ihrest).imp fun _ h => .copiesNext hlimit h.1 hmoved h.2

/-- An evaluation is determined by the answers to the rules. -/
theorem unique (hagree : answers.Agree answers')
    (h : Evaluates input fail answers task start found log)
    (h' : Evaluates input fail answers' task start found' log') :
    found = found' ∧ log = log' := by
  -- The item decides which case applies, so the other evaluation has taken the same one.
  induction h generalizing found' log' with
  | terminal hexpected =>
    cases h' with
    | terminal hexpected' =>
      rw [hexpected] at hexpected'
      injection hexpected' with hexpected'
      exact ⟨rfl, by rw [hexpected']⟩
    | _ => exact nomatch hexpected
  | rule hanswer =>
    obtain ⟨outcome', hanswer', rfl⟩ := rule_iff.mp h'
    obtain ⟨rfl, rfl⟩ := hagree hanswer hanswer'
    exact ⟨rfl, rfl⟩
  | sequence hitems ih => exact ih (sequence_iff.mp h')
  | choice hitems ih => exact ih (choice_iff.mp h')
  | repetition hcopies ih => exact ih (repetition_iff.mp h')
  | lookahead hitem ih =>
    obtain ⟨inner, hitem', rfl⟩ := lookahead_iff.mp h'
    obtain ⟨rfl, rfl⟩ := ih hitem'
    exact ⟨rfl, rfl⟩
  | tagged hitem ih =>
    obtain ⟨inner, hitem', rfl⟩ := tagged_iff.mp h'
    obtain ⟨rfl, rfl⟩ := ih hitem'
    exact ⟨rfl, rfl⟩
  | allNil =>
    cases h'
    exact ⟨rfl, rfl⟩
  | allFails hitem ih =>
    cases h' with
    | allFails hitem' => exact ⟨rfl, (ih hitem').2⟩
    | allCons hitem' => exact nomatch (ih hitem').1
  | allCons hitem hrest ihitem ihrest =>
    cases h' with
    | allFails hitem' => exact nomatch (ihitem hitem').1
    | allCons hitem' hrest' =>
      obtain ⟨hfound, rfl⟩ := ihitem hitem'
      cases hfound
      obtain ⟨rfl, rfl⟩ := ihrest hrest'
      exact ⟨rfl, rfl⟩
  | firstNil =>
    cases h'
    exact ⟨rfl, rfl⟩
  | firstFound hitem ih =>
    cases h' with
    | firstFound hitem' => exact ih hitem'
    | firstNext hitem' => exact nomatch (ih hitem').1
  | firstNext hitem hrest ihitem ihrest =>
    cases h' with
    | firstFound hitem' => exact nomatch (ihitem hitem').1
    | firstNext hitem' hrest' =>
      obtain ⟨-, rfl⟩ := ihitem hitem'
      obtain ⟨rfl, rfl⟩ := ihrest hrest'
      exact ⟨rfl, rfl⟩
  | copiesEnd =>
    cases h' with
    | copiesEnd => exact ⟨rfl, rfl⟩
    | copiesStop hlimit | copiesEmpty hlimit | copiesNext hlimit => exact absurd rfl hlimit
  | copiesStop hlimit hitem ih =>
    cases h' with
    | copiesEnd => exact absurd rfl hlimit
    | copiesStop hlimit' hitem' => exact ⟨rfl, (ih hitem').2⟩
    | copiesEmpty hlimit' hitem' => exact nomatch (ih hitem').1
    | copiesNext hlimit' hitem' => exact nomatch (ih hitem').1
  | copiesEmpty hlimit hitem ih =>
    cases h' with
    | copiesEnd => exact absurd rfl hlimit
    | copiesStop hlimit' hitem' => exact nomatch (ih hitem').1
    | copiesEmpty hlimit' hitem' =>
      obtain ⟨hfound, rfl⟩ := ih hitem'
      cases hfound
      exact ⟨rfl, rfl⟩
    | copiesNext hlimit' hitem' hmoved =>
      cases (ih hitem').1
      exact absurd rfl hmoved
  | copiesNext hlimit hitem hmoved hrest ihitem ihrest =>
    cases h' with
    | copiesEnd => exact absurd rfl hlimit
    | copiesStop hlimit' hitem' => exact nomatch (ihitem hitem').1
    | copiesEmpty hlimit' hitem' =>
      cases (ihitem hitem').1
      exact absurd rfl hmoved
    | copiesNext hlimit' hitem' hmoved' hrest' =>
      obtain ⟨hfound, rfl⟩ := ihitem hitem'
      cases hfound
      obtain ⟨rfl, rfl⟩ := ihrest hrest'
      exact ⟨rfl, rfl⟩

/-- What is found lies to the right of where the evaluation began, and in the input, if this is so
for the rules. -/
theorem span (hspan : answers.Span input.size)
    (h : Evaluates input fail answers task start found log) (hstart : start ≤ input.size) :
    ∀ stop trees, found = some (stop, trees) → start ≤ stop ∧ stop ≤ input.size := by
  induction h with
  | @terminal expression expected start hexpected =>
    rintro stop trees hfound
    obtain ⟨stop', hreach, hstop⟩ := Option.map_eq_some_iff.mp hfound
    injection hstop with hstop
    subst hstop
    exact Expression.span_of_reach? hreach hstart
  | @rule target start outcome log hanswer =>
    rintro stop trees hfound
    obtain ⟨m, hm, hstop⟩ := Option.map_eq_some_iff.mp hfound
    injection hstop with hstop
    subst hstop
    cases outcome with
    | failure => exact nomatch hm
    | success m' =>
      injection hm with hm
      subst hm
      exact hspan hanswer hstart
  | sequence hitems ih => exact ih hstart
  | choice hitems ih => exact ih hstart
  | repetition hcopies ih => exact ih hstart
  | lookahead hitem ih =>
    rintro stop trees hfound
    split at hfound
    · cases hfound
      exact ⟨Nat.le_refl _, hstart⟩
    · exact nomatch hfound
  | tagged hitem ih =>
    rintro stop trees hfound
    obtain ⟨⟨stop', trees'⟩, hitem, hstop⟩ := Option.map_eq_some_iff.mp hfound
    cases hstop
    exact ih hstart _ _ hitem
  | allNil =>
    rintro stop trees hfound
    cases hfound
    exact ⟨Nat.le_refl _, hstart⟩
  | allFails hitem ih => exact fun _ _ hfound => nomatch hfound
  | allCons hitem hrest ihitem ihrest =>
    -- The items follow on one another, so their spans are joined in the middle.
    rintro stop trees hfound
    obtain ⟨⟨stop', trees'⟩, hrest, hstop⟩ := Option.map_eq_some_iff.mp hfound
    cases hstop
    obtain ⟨hle, hmiddle⟩ := ihitem hstart _ _ rfl
    obtain ⟨hle', hstop⟩ := ihrest hmiddle _ _ hrest
    exact ⟨Nat.le_trans hle hle', hstop⟩
  | firstNil => exact fun _ _ hfound => nomatch hfound
  | firstFound hitem ih => exact ih hstart
  | firstNext hitem hrest ihitem ihrest => exact ihrest hstart
  | copiesEnd =>
    rintro stop trees hfound
    split at hfound
    · cases hfound
      exact ⟨Nat.le_refl _, hstart⟩
    · exact nomatch hfound
  | copiesStop hlimit hitem ih =>
    rintro stop trees hfound
    split at hfound
    · cases hfound
      exact ⟨Nat.le_refl _, hstart⟩
    · exact nomatch hfound
  | copiesEmpty hlimit hitem ih =>
    rintro stop trees hfound
    split at hfound
    · cases hfound
      exact ⟨Nat.le_refl _, hstart⟩
    · exact nomatch hfound
  | copiesNext hlimit hitem hmoved hrest ihitem ihrest =>
    rintro stop trees hfound
    obtain ⟨⟨stop', trees'⟩, hrest, hstop⟩ := Option.map_eq_some_iff.mp hfound
    cases hstop
    obtain ⟨hle, hmiddle⟩ := ihitem hstart _ _ rfl
    obtain ⟨hle', hstop⟩ := ihrest hmiddle _ _ hrest
    exact ⟨Nat.le_trans hle hle', hstop⟩

end Evaluates

/-! ## Where evaluations lead -/

/-- The evaluation of a task at a position leads to that of `target` at `place`, once all that comes
before has been evaluated. -/
inductive Arrives [DecidableEq S] (input : Array S) (fail : Nat → String → L)
    (answers : Answers L) (target : Expression S) (place : Nat) : Task S → Nat → Prop where
  | here : Arrives input fail answers target place (.one target) place
  | sequence {items : List (Expression S)} {start : Nat}
      (hitems : Arrives input fail answers target place (.all items) start) :
      Arrives input fail answers target place (.one (.sequence items)) start
  | choice {alternatives : List (Expression S)} {start : Nat}
      (hitems : Arrives input fail answers target place (.first alternatives) start) :
      Arrives input fail answers target place (.one (.choice alternatives)) start
  | repetition {item : Expression S} {atLeast : Nat} {atMost : Option Nat} {start : Nat}
      (hcopies : Arrives input fail answers target place (.copies item atMost atLeast) start) :
      Arrives input fail answers target place (.one (.repetition item atLeast atMost)) start
  | lookahead {item : Expression S} {positive : Bool} {start : Nat}
      (hitem : Arrives input fail answers target place (.one item) start) :
      Arrives input fail answers target place (.one (.lookahead item positive)) start
  | tagged {tag : String} {item : Expression S} {start : Nat}
      (hitem : Arrives input fail answers target place (.one item) start) :
      Arrives input fail answers target place (.one (.tagged tag item)) start
  | allItem {item : Expression S} {rest : List (Expression S)} {start : Nat}
      (hitem : Arrives input fail answers target place (.one item) start) :
      Arrives input fail answers target place (.all (item :: rest)) start
  | allRest {item : Expression S} {rest : List (Expression S)} {start middle : Nat}
      {trees : List Tree} {log : List L}
      (hitem : Evaluates input fail answers (.one item) start (some (middle, trees)) log)
      (hrest : Arrives input fail answers target place (.all rest) middle) :
      Arrives input fail answers target place (.all (item :: rest)) start
  | firstItem {item : Expression S} {rest : List (Expression S)} {start : Nat}
      (hitem : Arrives input fail answers target place (.one item) start) :
      Arrives input fail answers target place (.first (item :: rest)) start
  | firstRest {item : Expression S} {rest : List (Expression S)} {start : Nat} {log : List L}
      (hitem : Evaluates input fail answers (.one item) start none log)
      (hrest : Arrives input fail answers target place (.first rest) start) :
      Arrives input fail answers target place (.first (item :: rest)) start
  | copiesItem {item : Expression S} {limit : Option Nat} {owed start : Nat}
      (hlimit : limit ≠ some 0)
      (hitem : Arrives input fail answers target place (.one item) start) :
      Arrives input fail answers target place (.copies item limit owed) start
  | copiesRest {item : Expression S} {limit : Option Nat} {owed start middle : Nat}
      {trees : List Tree} {log : List L} (hlimit : limit ≠ some 0)
      (hitem : Evaluates input fail answers (.one item) start (some (middle, trees)) log)
      (hmoved : middle ≠ start)
      (hrest : Arrives input fail answers target place (.copies item (limit.map (· - 1)) (owed - 1))
        middle) :
      Arrives input fail answers target place (.copies item limit owed) start

namespace Arrives

variable [DecidableEq S] {input : Array S} {fail : Nat → String → L}
  {answers answers' : Answers L} {target : Expression S}
  {place : Nat} {task : Task S} {start : Nat} {found : Found} {log : List L}

/-- An evaluation evaluates what it leads to. -/
theorem evaluated (hagree : answers.Agree answers')
    (h : Arrives input fail answers target place task start)
    (h' : Evaluates input fail answers' task start found log) :
    ∃ found log, Evaluates input fail answers' (.one target) place found log := by
  -- What comes before is evaluated the same way by both, so the evaluation gets there.
  induction h generalizing found log with
  | here => exact ⟨found, log, h'⟩
  | sequence hitems ih => exact ih (Evaluates.sequence_iff.mp h')
  | choice hitems ih => exact ih (Evaluates.choice_iff.mp h')
  | repetition hcopies ih => exact ih (Evaluates.repetition_iff.mp h')
  | lookahead hitem ih =>
    obtain ⟨inner, hitem', -⟩ := Evaluates.lookahead_iff.mp h'
    exact ih hitem'
  | tagged hitem ih =>
    obtain ⟨inner, hitem', -⟩ := Evaluates.tagged_iff.mp h'
    exact ih hitem'
  | allItem hitem ih =>
    cases h' with
    | allFails hitem' => exact ih hitem'
    | allCons hitem' => exact ih hitem'
  | allRest hitem hrest ih =>
    cases h' with
    | allFails hitem' => exact nomatch (hitem.unique hagree hitem').1
    | allCons hitem' hrest' =>
      cases (hitem.unique hagree hitem').1
      exact ih hrest'
  | firstItem hitem ih =>
    cases h' with
    | firstFound hitem' => exact ih hitem'
    | firstNext hitem' => exact ih hitem'
  | firstRest hitem hrest ih =>
    cases h' with
    | firstFound hitem' => exact nomatch (hitem.unique hagree hitem').1
    | firstNext hitem' hrest' => exact ih hrest'
  | copiesItem hlimit hitem ih =>
    cases h' with
    | copiesEnd => exact absurd rfl hlimit
    | copiesStop hlimit' hitem' => exact ih hitem'
    | copiesEmpty hlimit' hitem' => exact ih hitem'
    | copiesNext hlimit' hitem' => exact ih hitem'
  | copiesRest hlimit hitem hmoved hrest ih =>
    cases h' with
    | copiesEnd => exact absurd rfl hlimit
    | copiesStop hlimit' hitem' => exact nomatch (hitem.unique hagree hitem').1
    | copiesEmpty hlimit' hitem' =>
      cases (hitem.unique hagree hitem').1
      exact absurd rfl hmoved
    | copiesNext hlimit' hitem' hmoved' hrest' =>
      cases (hitem.unique hagree hitem').1
      exact ih hrest'

/-- An evaluation has an answer for each rule that it leads to. -/
theorem answered {rule : RuleId} (hagree : answers.Agree answers')
    (h : Arrives input fail answers (.rule rule) place task start)
    (h' : Evaluates input fail answers' task start found log) :
    ∃ outcome log, answers' rule place outcome log := by
  obtain ⟨found, log, htarget⟩ := h.evaluated hagree h'
  obtain ⟨outcome, hanswer, -⟩ := Evaluates.rule_iff.mp htarget
  exact ⟨outcome, log, hanswer⟩

end Arrives

end LeftPeg
