import LeftPeg.Proofs.Evaluation

/-!
# Runs that follow an evaluation

A run has a memo table, activations and counters; an evaluation has none of them. `Tracing` says
when invocations answer like `Answers`, as long as the state of the run is good, and `Course.traced`
concludes the same of every task: the run finds what the evaluation finds and notes the failures
that the evaluation logs.

An invocation may also lose the way, and then nothing more is said about the run than that it stays
lost. What is known in that case is where it happened: the evaluation leads to that rule too.

A run that aborts has met a rule that is not there, in a place where the evaluation is stuck too,
unless the reading excuses the error.
-/

namespace LeftPeg

open Expression (Trail)

variable {S M L : Type}

/-- What holds of a scan goes on to hold, whatever a run does. -/
structure Lasting (invoke : Invoke Tree M) (Holds : Scan Tree M → Prop) : Prop where
  move {scan : Scan Tree M} (position : Nat) : Holds scan → Holds { scan with position }
  miss {scan : Scan Tree M} (expected : String) : Holds scan → Holds (scan.miss expected)
  invoked {scan : Scan Tree M} (rule : RuleId) : Holds scan → Holds (invoke rule scan).2

/-- How runs are read as evaluations. -/
structure Reading (M L : Type) where
  /-- The entry in a log for a terminal that failed. -/
  fail : Nat → String → L
  answers : Answers L
  /-- The rules that are asked for, each with its position. -/
  Within : RuleId → Nat → Prop
  /-- The run can be read. -/
  Good : Scan Tree M → Prop
  /-- What the log says happened between the two scans. -/
  Track : Scan Tree M → List L → Scan Tree M → Prop
  /-- The run cannot be read any more. -/
  Lost : Scan Tree M → Prop
  /-- The rules at which a run gets lost, each with its position. -/
  Beyond : RuleId → Nat → Prop
  /-- The errors that say nothing about the evaluation. -/
  Excused : ParseError → Prop
  /-- The rules at which an evaluation is stuck, each with its position. -/
  Stops : RuleId → Nat → Prop := fun rule start => ∀ outcome log, ¬ answers rule start outcome log

namespace Reading

variable [DecidableEq S]

/-- What an evaluation finds by the answers of the reading. -/
abbrev Evaluates (reading : Reading M L) (input : Array S) :
    Task S → Nat → Found → List L → Prop :=
  LeftPeg.Evaluates input reading.fail reading.answers

/-- Where an evaluation leads by the answers of the reading. -/
abbrev Arrives (reading : Reading M L) (input : Array S) :
    Expression S → Nat → Task S → Nat → Prop :=
  LeftPeg.Arrives input reading.fail reading.answers

/-- The expressions that an evaluation is stuck at: a name, or a rule at which it stops. -/
inductive Stuck (reading : Reading M L) (place : Nat) : Expression S → Prop where
  | name {name : String} : Stuck reading place (.reference name)
  | rule {rule : RuleId} (hstops : reading.Stops rule place) : Stuck reading place (.rule rule)

end Reading

/-- While the scan is good, invocations answer as the reading says, or get lost. -/
structure Tracing (input : Array S) (invoke : Invoke Tree M) (reading : Reading M L) : Prop where
  good_move {scan : Scan Tree M} (position : Nat) :
    reading.Good scan → reading.Good { scan with position }
  good_miss {scan : Scan Tree M} (expected : String) :
    reading.Good scan → reading.Good (scan.miss expected)
  track_move (scan : Scan Tree M) (position : Nat) : reading.Track scan [] { scan with position }
  track_miss (scan : Scan Tree M) (expected : String) :
    reading.Track scan [reading.fail scan.position expected] (scan.miss expected)
  track_append {scan scan' scan'' : Scan Tree M} {log log' : List L} :
    reading.Track scan log scan' → reading.Track scan' log' scan'' →
      reading.Track scan (log ++ log') scan''
  span : reading.answers.Span input.size
  invoked {rule : RuleId} {scan scan' : Scan Tree M} {outcome : Outcome Tree} :
    reading.Within rule scan.position → reading.Good scan → scan.position ≤ input.size →
    invoke rule scan = (.ok outcome, scan') →
    (reading.Good scan' ∧ scan'.position = outcome.stop?.getD scan.position ∧
      ∃ log, reading.answers rule scan.position outcome log ∧ reading.Track scan log scan') ∨
    (reading.Lost scan' ∧ reading.Beyond rule scan.position)
  aborted {rule : RuleId} {scan scan' : Scan Tree M} {error : ParseError} :
    reading.Within rule scan.position → reading.Good scan → scan.position ≤ input.size →
    invoke rule scan = (.error error, scan') →
    reading.Excused error ∨
      ((∃ name, error = .unknownRule name) ∧ reading.Stops rule scan.position) ∨
      (reading.Lost scan' ∧ reading.Beyond rule scan.position)
  lasting : Lasting invoke reading.Lost

/-- What comes of looking for a task, next to the evaluation of `goal`. -/
inductive Traced [DecidableEq S] (input : Array S) (reading : Reading M L) (goal : Task S)
    (trail : Trail) (scan : Scan Tree M) : Answer Tree M (Option Trail) → Prop where
  | excused {error : ParseError} {scan' : Scan Tree M} (hexcused : reading.Excused error) :
      Traced input reading goal trail scan (.error error, scan')
  | stuck {name : String} {scan' : Scan Tree M} {target : Expression S} {place : Nat}
      (hstuck : reading.Stuck place target)
      (hgoal : reading.Arrives input target place goal scan.position) :
      Traced input reading goal trail scan (.error (.unknownRule name), scan')
  | nothing {scan' : Scan Tree M} {log : List L} (hgood : reading.Good scan')
      (htrack : reading.Track scan log scan')
      (hgoal : reading.Evaluates input goal scan.position none log) :
      Traced input reading goal trail scan (.ok none, scan')
  | found {scan' : Scan Tree M} (trees : List Tree) {log : List L} (hgood : reading.Good scan')
      (htrack : reading.Track scan log scan')
      (hgoal : reading.Evaluates input goal scan.position
        (some (scan'.position, trees)) log) :
      Traced input reading goal trail scan (.ok (some (trees.reverse ++ trail)), scan')
  | lost {result : Except ParseError (Option Trail)} {scan' : Scan Tree M} {rule : RuleId}
      {place : Nat} (hlost : reading.Lost scan') (hbeyond : reading.Beyond rule place)
      (hgoal : reading.Arrives input (.rule rule) place goal scan.position) :
      Traced input reading goal trail scan (result, scan')

/-- There is nothing to be found where an evaluation is stuck, if the rules at which it stops have
no answers. -/
theorem Reading.Stuck.not_evaluates [DecidableEq S] {input : Array S} {reading : Reading M L}
    {target : Expression S} {place : Nat} {answers : Answers L} (h : reading.Stuck place target)
    (hstops : ∀ rule, reading.Stops rule place → ∀ outcome log, ¬ answers rule place outcome log)
    {found : Found} {log : List L} :
    ¬ LeftPeg.Evaluates input reading.fail answers (.one target) place found log := by
  intro heval
  cases h with
  | name =>
    cases heval with
    | terminal hexpected => exact nomatch hexpected
  | rule hrule =>
    obtain ⟨outcome, hanswer, -⟩ := Evaluates.rule_iff.mp heval
    exact hstops _ hrule _ _ hanswer

theorem Expression.exists_expected [DecidableEq S] {input : Array S} {expression : Expression S}
    {start stop : Nat} (h : expression.reach? input start = some stop) :
    ∃ expected, expression.expected? = some expected := by
  cases expression with
  | literal symbols description => exact ⟨_, rfl⟩
  | satisfying test description => exact ⟨_, rfl⟩
  | any => exact ⟨_, rfl⟩
  | _ => exact nomatch h

/-- The goal is the task itself. A limit on copies that the `room` left in the input does not allow
to be reached may be missing from it. -/
def Task.Loosens (room : Nat) : Task S → Task S → Prop
  | .copies item limit owed, goal =>
    ∃ limit', goal = .copies item limit' owed ∧
      (limit' = limit ∨ limit' = none ∧ ∀ most ∈ limit, room < most)
  | task, goal => goal = task

variable [DecidableEq S] {input : Array S} {invoke : Invoke Tree M} {reading : Reading M L}
  {task goal goal' : Task S} {trail trail' : Trail} {scan scan' : Scan Tree M}
  {answer : Answer Tree M (Option Trail)}

omit [DecidableEq S] in
theorem Tracing.track_at {log : List L} (htracing : Tracing input invoke reading)
    (h : reading.Track scan log scan') (position : Nat) :
    reading.Track scan log { scan' with position } := by
  rw [← List.append_nil log]
  exact htracing.track_append h (htracing.track_move scan' position)

namespace Traced

theorem rewind (htracing : Tracing input invoke reading)
    (h : Traced input reading goal trail scan answer)
    (hevaluates : ∀ {found log}, reading.Evaluates input goal scan.position found log →
      reading.Evaluates input goal' scan.position found log)
    (harrives : ∀ {target place}, reading.Arrives input target place goal scan.position →
      reading.Arrives input target place goal' scan.position) :
    Traced input reading goal' trail scan (rewind scan.position answer) := by
  cases h with
  | excused hexcused => exact .excused hexcused
  | stuck hstuck hgoal => exact .stuck hstuck (harrives hgoal)
  | nothing hgood htrack hgoal =>
    exact .nothing (htracing.good_move _ hgood) (htracing.track_at htrack _) (hevaluates hgoal)
  | found trees hgood htrack hgoal => exact .found _ hgood htrack (hevaluates hgoal)
  | @lost result scan' rule place hlost hbeyond hgoal =>
    rcases result with error | _ | trail'
    · exact .lost hlost hbeyond (harrives hgoal)
    · exact .lost (htracing.lasting.move _ hlost) hbeyond (harrives hgoal)
    · exact .lost hlost hbeyond (harrives hgoal)

/-- A run that aborts on a part of the goal. -/
theorem abort {error : ParseError} {scan₀ : Scan Tree M}
    (h : Traced input reading goal trail scan (.error error, scan'))
    (harrives : ∀ {target place}, reading.Arrives input target place goal scan.position →
      reading.Arrives input target place goal' scan₀.position) :
    Traced input reading goal' trail' scan₀ (.error error, scan') := by
  cases h with
  | excused hexcused => exact .excused hexcused
  | stuck hstuck hgoal => exact .stuck hstuck (harrives hgoal)
  | lost hlost hbeyond hgoal => exact .lost hlost hbeyond (harrives hgoal)

/-- A run that found trees, if they are enough. -/
theorem of_ite {p : Prop} [Decidable p] {stop : Nat} (trees : List Tree) {log : List L}
    (hstop : scan'.position = stop) (hgood : reading.Good scan')
    (htrack : reading.Track scan log scan')
    (hgoal : reading.Evaluates input goal scan.position
      (if p then some (stop, trees) else none) log) :
    Traced input reading goal trail scan
      (.ok (if p then some (trees.reverse ++ trail) else none), scan') := by
  subst hstop
  split at hgoal
  · rename_i h
    rw [if_pos h]
    exact .found _ hgood htrack hgoal
  · rename_i h
    rw [if_neg h]
    exact .nothing hgood htrack hgoal

end Traced

namespace Task

variable {limit room room' : Nat} {limit' : Option Nat}

theorem ne_zero_of_loosens
    (h : limit' = some (limit + 1) ∨ limit' = none ∧ ∀ most ∈ some (limit + 1), room < most) :
    limit' ≠ some 0 := by
  rintro rfl
  rcases h with h | ⟨h, -⟩ <;> exact nomatch h

omit [DecidableEq S] in
/-- One copy takes at least one symbol of the room. -/
theorem loosens_copies {item : Expression S} {owed : Nat}
    (h : limit' = some (limit + 1) ∨ limit' = none ∧ ∀ most ∈ some (limit + 1), room < most)
    (hroom : room' < room) :
    (Task.copies item (some limit) owed).Loosens room'
      (.copies item (limit'.map (· - 1)) owed) := by
  refine ⟨limit'.map (· - 1), rfl, ?_⟩
  rcases h with rfl | ⟨rfl, hmost⟩
  · exact .inl rfl
  · refine .inr ⟨rfl, fun most hlimit => ?_⟩
    injection hlimit with hlimit
    have := hmost (limit + 1) rfl
    omega

omit [DecidableEq S] in
/-- A repetition without a bound is run with one that is larger than the input, so its copies are
never used up. -/
theorem loosens_repetition {item : Expression S} {atLeast length : Nat} {atMost : Option Nat}
    (hroom : room ≤ length) :
    (Task.copies item (some (atMost.getD (Expression.unboundedCopies length)))
      atLeast).Loosens room (.copies item atMost atLeast) := by
  refine ⟨atMost, rfl, ?_⟩
  cases atMost with
  | some most => exact .inl rfl
  | none =>
    refine .inr ⟨rfl, fun most hmost => ?_⟩
    injection hmost with hmost
    have hpositive : 0 < UInt64.size := by decide
    rw [← hmost, Option.getD_none, Expression.unboundedCopies]
    omega

end Task

namespace Course

/-- What lasts through the invocations lasts through the run of a task. -/
theorem lasts {Holds : Scan Tree M → Prop} (hlasting : Lasting invoke Holds)
    (h : Course input invoke task trail scan answer) (hholds : Holds scan) : Holds answer.2 := by
  have hrewind : ∀ {position} {answer : Answer Tree M (Option Trail)},
      Holds answer.2 → Holds (LeftPeg.rewind position answer).2 := by
    intro position answer hanswer
    rcases answer with ⟨error | _ | trail', scan'⟩
    · exact hanswer
    · exact hlasting.move _ hanswer
    · exact hanswer
  have hinvoked : ∀ {rule : RuleId} {scan scan' : Scan Tree M} {result},
      Holds scan → invoke rule scan = (result, scan') → Holds scan' := by
    intro rule scan scan' result hholds hinvoke
    have hholds' := hlasting.invoked rule hholds
    rwa [hinvoke] at hholds'
  induction h with
  | found hreach => exact hlasting.move _ hholds
  | missed hexpected hreach => exact hlasting.miss _ hholds
  | unresolved => exact hholds
  | rule hinvoke => exact hinvoked hholds hinvoke
  | ruleFails hinvoke => exact hlasting.move _ (hinvoked hholds hinvoke)
  | ruleAborts hinvoke => exact hinvoked hholds hinvoke
  | sequence hitems ih => exact hrewind (ih hholds)
  | choice hitems ih => exact hrewind (ih hholds)
  | repetition hcopies ih => exact hrewind (ih hholds)
  | lookahead hitem ih => exact hlasting.move _ (ih hholds)
  | lookaheadAborts hitem ih => exact ih hholds
  | tagged hitem ih => exact ih hholds
  | taggedFails hitem ih => exact hlasting.move _ (ih hholds)
  | taggedAborts hitem ih => exact ih hholds
  | allNil => exact hholds
  | allCons hitem hrest ihitem ihrest => exact ihrest (ihitem hholds)
  | allFails hitem ih => exact ih hholds
  | allAborts hitem ih => exact ih hholds
  | firstNil => exact hholds
  | firstFound hitem ih => exact ih hholds
  | firstNext hitem hrest ihitem ihrest => exact ihrest (ihitem hholds)
  | firstAborts hitem ih => exact ih hholds
  | copiesEnd => exact hholds
  | copiesStop hitem ih => exact ih hholds
  | copiesEmpty hitem hstill ih => exact ih hholds
  | copiesNext hitem hmoved hrest ihitem ihrest => exact ihrest (ihitem hholds)
  | copiesAbort hitem ih => exact ih hholds

/-- A run that starts from a good scan follows the evaluation of its task, or it gets lost where
the evaluation leads too. -/
theorem traced (htracing : Tracing input invoke reading)
    (h : Course input invoke task trail scan answer) (hgood : reading.Good scan)
    (hstart : scan.position ≤ input.size)
    (hgoal : task.Loosens (input.size - scan.position) goal)
    (hwithin : ∀ {rule place}, reading.Arrives input (.rule rule) place goal scan.position →
      reading.Within rule place) :
    Traced input reading goal trail scan answer := by
  -- On the course of the run.  Where a part of the run gets lost, `lasts` carries that through the
  -- rest of it; where it does not, the rest goes on from a good scan.
  induction h generalizing goal with
  | @found expression trail scan stop hreach =>
    subst hgoal
    obtain ⟨expected, hexpected⟩ := Expression.exists_expected hreach
    have hterminal : reading.Evaluates input (.one expression) scan.position _ _ :=
      .terminal hexpected
    rw [hreach] at hterminal
    exact .found [_] (htracing.good_move _ hgood) (htracing.track_move scan stop) hterminal
  | @missed expression trail scan expected hexpected hreach =>
    subst hgoal
    have hterminal : reading.Evaluates input (.one expression) scan.position _ _ :=
      .terminal hexpected
    rw [hreach] at hterminal
    exact .nothing (htracing.good_miss _ hgood) (htracing.track_miss scan expected) hterminal
  | unresolved =>
    subst hgoal
    -- A name has no place, so the evaluation is stuck as well.
    exact .stuck .name .here
  | @rule target trail scan scan' found hinvoke =>
    subst hgoal
    rcases htracing.invoked (hwithin .here) hgood hstart hinvoke with
      ⟨hgood', hposition, log, hanswer, htrack⟩ | ⟨hlost, hbeyond⟩
    · have hrule : reading.Evaluates input (.one (.rule target)) scan.position _ log :=
        .rule hanswer
      have hstop : scan'.position = found.stop := hposition
      rw [Outcome.found?, Outcome.match?, Option.map_some, ← hstop] at hrule
      exact .found [_] hgood' htrack hrule
    · exact .lost hlost hbeyond .here
  | @ruleFails target trail scan scan' hinvoke =>
    subst hgoal
    rcases htracing.invoked (hwithin .here) hgood hstart hinvoke with
      ⟨hgood', -, log, hanswer, htrack⟩ | ⟨hlost, hbeyond⟩
    · exact .nothing (htracing.good_move _ hgood') (htracing.track_at htrack _) (.rule hanswer)
    · exact .lost (htracing.lasting.move _ hlost) hbeyond .here
  | ruleAborts hinvoke =>
    subst hgoal
    rcases htracing.aborted (hwithin .here) hgood hstart hinvoke with
      hexcused | ⟨⟨name, rfl⟩, hstops⟩ | ⟨hlost, hbeyond⟩
    · exact .excused hexcused
    · exact .stuck (.rule hstops) .here
    · exact .lost hlost hbeyond .here
  | sequence hitems ih =>
    subst hgoal
    exact (ih hgood hstart rfl fun h => hwithin (.sequence h)).rewind htracing .sequence .sequence
  | choice hitems ih =>
    subst hgoal
    exact (ih hgood hstart rfl fun h => hwithin (.choice h)).rewind htracing .choice .choice
  | @repetition item atLeast atMost trail scan answer hcopies ih =>
    subst hgoal
    exact (ih hgood hstart (Task.loosens_repetition (Nat.sub_le _ _))
      fun h => hwithin (.repetition h)).rewind htracing .repetition .repetition
  | @lookahead item positive trail scan scan' found hitem ih =>
    subst hgoal
    -- Found or not, only whether there was something counts.
    have hlookahead : ∀ {found' : Found} {log : List L}, found'.isSome = found.isSome →
        reading.Good scan' → reading.Track scan log scan' →
        reading.Evaluates input (.one item) scan.position found' log →
        Traced input reading (.one (.lookahead item positive)) trail scan
          (.ok (if found.isSome = positive then some trail else none),
            { scan' with position := scan.position }) := by
      intro found' log hfound hgood' htrack hitem
      have hlookahead : reading.Evaluates input (.one (.lookahead item positive)) scan.position
          _ log := .lookahead hitem
      rw [hfound] at hlookahead
      exact .of_ite [] rfl (htracing.good_move _ hgood') (htracing.track_at htrack _) hlookahead
    cases ih hgood hstart rfl fun h => hwithin (.lookahead h) with
    | nothing hgood' htrack heval => exact hlookahead rfl hgood' htrack heval
    | found trees hgood' htrack heval => exact hlookahead rfl hgood' htrack heval
    | lost hlost hbeyond harrives =>
      exact .lost (htracing.lasting.move _ hlost) hbeyond (.lookahead harrives)
  | lookaheadAborts hitem ih =>
    subst hgoal
    exact (ih hgood hstart rfl fun h => hwithin (.lookahead h)).abort .lookahead
  | tagged hitem ih =>
    subst hgoal
    cases ih hgood hstart rfl fun h => hwithin (.tagged h) with
    | found trees hgood' htrack heval =>
      -- The trail of the item is all its own.
      rw [List.append_nil, List.reverse_reverse]
      exact .found [_] hgood' htrack (.tagged heval)
    | lost hlost hbeyond harrives => exact .lost hlost hbeyond (.tagged harrives)
  | taggedFails hitem ih =>
    subst hgoal
    cases ih hgood hstart rfl fun h => hwithin (.tagged h) with
    | nothing hgood' htrack heval =>
      exact .nothing (htracing.good_move _ hgood') (htracing.track_at htrack _) (.tagged heval)
    | lost hlost hbeyond harrives =>
      exact .lost (htracing.lasting.move _ hlost) hbeyond (.tagged harrives)
  | taggedAborts hitem ih =>
    subst hgoal
    exact (ih hgood hstart rfl fun h => hwithin (.tagged h)).abort .tagged
  | @allNil trail scan =>
    subst hgoal
    exact .found [] hgood (htracing.track_move scan scan.position) .allNil
  | allCons hitem hrest ihitem ihrest =>
    subst hgoal
    cases ihitem hgood hstart rfl fun h => hwithin (.allItem h) with
    | lost hlost hbeyond harrives =>
      exact .lost (hrest.lasts htracing.lasting hlost) hbeyond (.allItem harrives)
    | found trees hgood' htrack heval =>
      have hmiddle := (heval.span htracing.span hstart _ _ rfl).2
      cases ihrest hgood' hmiddle rfl fun h => hwithin (.allRest heval h) with
      | excused hexcused => exact .excused hexcused
      | stuck hstuck harrives => exact .stuck hstuck (.allRest heval harrives)
      | nothing hgood'' htrack' heval' =>
        exact .nothing hgood'' (htracing.track_append htrack htrack') (.allCons heval heval')
      | found trees' hgood'' htrack' heval' =>
        rw [← List.append_assoc, ← List.reverse_append]
        exact .found _ hgood'' (htracing.track_append htrack htrack') (.allCons heval heval')
      | lost hlost hbeyond harrives => exact .lost hlost hbeyond (.allRest heval harrives)
  | allFails hitem ih =>
    subst hgoal
    cases ih hgood hstart rfl fun h => hwithin (.allItem h) with
    | nothing hgood' htrack heval => exact .nothing hgood' htrack (.allFails heval)
    | lost hlost hbeyond harrives => exact .lost hlost hbeyond (.allItem harrives)
  | allAborts hitem ih =>
    subst hgoal
    exact (ih hgood hstart rfl fun h => hwithin (.allItem h)).abort .allItem
  | @firstNil trail scan =>
    subst hgoal
    exact .nothing hgood (htracing.track_move scan scan.position) .firstNil
  | firstFound hitem ih =>
    subst hgoal
    cases ih hgood hstart rfl fun h => hwithin (.firstItem h) with
    | found trees hgood' htrack heval => exact .found _ hgood' htrack (.firstFound heval)
    | lost hlost hbeyond harrives => exact .lost hlost hbeyond (.firstItem harrives)
  | firstNext hitem hrest ihitem ihrest =>
    subst hgoal
    -- The next alternative is looked for where the failed one was.
    have hposition := hitem.position_of_none rfl
    cases ihitem hgood hstart rfl fun h => hwithin (.firstItem h) with
    | lost hlost hbeyond harrives =>
      exact .lost (hrest.lasts htracing.lasting hlost) hbeyond (.firstItem harrives)
    | nothing hgood' htrack heval =>
      have hrest' := ihrest hgood' (hposition ▸ hstart) rfl fun h =>
        hwithin (.firstRest heval (hposition ▸ h))
      cases hrest' with
      | excused hexcused => exact .excused hexcused
      | stuck hstuck harrives =>
        rw [hposition] at harrives
        exact .stuck hstuck (.firstRest heval harrives)
      | nothing hgood'' htrack' heval' =>
        rw [hposition] at heval'
        exact .nothing hgood'' (htracing.track_append htrack htrack') (.firstNext heval heval')
      | found trees hgood'' htrack' heval' =>
        rw [hposition] at heval'
        exact .found _ hgood'' (htracing.track_append htrack htrack') (.firstNext heval heval')
      | lost hlost hbeyond harrives =>
        rw [hposition] at harrives
        exact .lost hlost hbeyond (.firstRest heval harrives)
  | firstAborts hitem ih =>
    subst hgoal
    exact (ih hgood hstart rfl fun h => hwithin (.firstItem h)).abort .firstItem
  | @copiesEnd item owed trail scan =>
    obtain ⟨limit, rfl, hlimit⟩ := hgoal
    -- No copies are left, so the limit is one of the evaluation too: zero is within any room.
    rcases hlimit with rfl | ⟨-, hroom⟩
    · exact .of_ite [] rfl hgood (htracing.track_move scan scan.position) .copiesEnd
    · exact absurd (hroom 0 rfl) (Nat.not_lt_zero _)
  | @copiesStop item limit owed trail scan scan' hitem ih =>
    obtain ⟨limit', rfl, hlimit⟩ := hgoal
    have hlimit' := Task.ne_zero_of_loosens hlimit
    cases ih hgood hstart rfl fun h => hwithin (.copiesItem hlimit' h) with
    | nothing hgood' htrack heval =>
      exact .of_ite [] (hitem.position_of_none rfl) hgood' htrack (.copiesStop hlimit' heval)
    | lost hlost hbeyond harrives => exact .lost hlost hbeyond (.copiesItem hlimit' harrives)
  | @copiesEmpty item limit owed trail trail' scan scan' hitem hstill ih =>
    obtain ⟨limit', rfl, hlimit⟩ := hgoal
    have hlimit' := Task.ne_zero_of_loosens hlimit
    cases ih hgood hstart rfl fun h => hwithin (.copiesItem hlimit' h) with
    | found trees hgood' htrack heval =>
      -- The run compares positions, the evaluation ends at the one it began at.
      rw [hstill] at heval
      exact .of_ite _ hstill hgood' htrack (.copiesEmpty hlimit' heval)
    | lost hlost hbeyond harrives => exact .lost hlost hbeyond (.copiesItem hlimit' harrives)
  | @copiesNext item limit owed trail trail' scan scan' answer hitem hmoved hrest ihitem ihrest =>
    obtain ⟨limit', rfl, hlimit⟩ := hgoal
    have hlimit' := Task.ne_zero_of_loosens hlimit
    cases ihitem hgood hstart rfl fun h => hwithin (.copiesItem hlimit' h) with
    | lost hlost hbeyond harrives =>
      exact .lost (hrest.lasts htracing.lasting hlost) hbeyond (.copiesItem hlimit' harrives)
    | found trees hgood' htrack heval =>
      -- The copy has moved forward, so what is left of the limit is still out of reach.
      obtain ⟨hle, hmiddle⟩ := heval.span htracing.span hstart _ _ rfl
      have hroom : input.size - scan'.position < input.size - scan.position := by omega
      cases ihrest hgood' hmiddle (Task.loosens_copies hlimit hroom) fun h =>
          hwithin (.copiesRest hlimit' heval hmoved h) with
      | excused hexcused => exact .excused hexcused
      | stuck hstuck harrives => exact .stuck hstuck (.copiesRest hlimit' heval hmoved harrives)
      | nothing hgood'' htrack' heval' =>
        exact .nothing hgood'' (htracing.track_append htrack htrack')
          (.copiesNext hlimit' heval hmoved heval')
      | found trees' hgood'' htrack' heval' =>
        rw [← List.append_assoc, ← List.reverse_append]
        exact .found _ hgood'' (htracing.track_append htrack htrack')
          (.copiesNext hlimit' heval hmoved heval')
      | lost hlost hbeyond harrives =>
        exact .lost hlost hbeyond (.copiesRest hlimit' heval hmoved harrives)
  | copiesAbort hitem ih =>
    obtain ⟨limit', rfl, hlimit⟩ := hgoal
    have hlimit' := Task.ne_zero_of_loosens hlimit
    exact (ih hgood hstart rfl fun h => hwithin (.copiesItem hlimit' h)).abort
      (.copiesItem hlimit')

end Course

/-- What lasts through the invocations lasts through the body of a rule. -/
theorem lasts_toProcedure {Holds : Scan Tree M → Prop} (hlasting : Lasting invoke Holds)
    (input : Array S) (form : Expression S) (hholds : Holds scan) :
    Holds (form.toProcedure.run input invoke scan).2 := by
  have hcourse : Course input invoke (.one form) [] scan _ := course_recognise form [] scan
  have hlasts := hcourse.lasts hlasting hholds
  rw [run_toProcedure]
  generalize (form.recognise []).run input invoke scan = answer at hlasts
  rcases answer with ⟨error | _ | trail', scan'⟩ <;> exact hlasts

/-- What comes of the body of a rule, next to its evaluation. -/
inductive TracedBody [DecidableEq S] (input : Array S) (reading : Reading M L) (rule : RuleId)
    (form : Expression S) (scan : Scan Tree M) : Answer Tree M (Outcome Tree) → Prop where
  | found {found : Found} {log : List L} {scan' : Scan Tree M} (hgood : reading.Good scan')
      (htrack : reading.Track scan log scan')
      (hgoal : reading.Evaluates input (.one form) scan.position found log) :
      TracedBody input reading rule form scan (.ok (.ofFound rule scan.position found), scan')
  | excused {error : ParseError} {scan' : Scan Tree M} (hexcused : reading.Excused error) :
      TracedBody input reading rule form scan (.error error, scan')
  | stuck {name : String} {scan' : Scan Tree M} {target : Expression S} {place : Nat}
      (hstuck : reading.Stuck place target)
      (hgoal : reading.Arrives input target place (.one form) scan.position) :
      TracedBody input reading rule form scan (.error (.unknownRule name), scan')
  | lost {result : Except ParseError (Outcome Tree)} {scan' : Scan Tree M} {target : RuleId}
      {place : Nat} (hlost : reading.Lost scan') (hbeyond : reading.Beyond target place)
      (hgoal : reading.Arrives input (.rule target) place (.one form) scan.position) :
      TracedBody input reading rule form scan (result, scan')

/-- The body of a rule follows its evaluation, as long as a good scan tells which rule it is. -/
theorem traced_toProcedure (htracing : Tracing input invoke reading) {rule : RuleId}
    (hrule : ∀ {scan : Scan Tree M}, reading.Good scan → scan.currentRule = some rule)
    (form : Expression S) (hgood : reading.Good scan) (hstart : scan.position ≤ input.size)
    (hwithin : ∀ {target place},
      reading.Arrives input (.rule target) place (.one form) scan.position →
      reading.Within target place) :
    TracedBody input reading rule form scan (form.toProcedure.run input invoke scan) := by
  rw [run_toProcedure]
  have htraced := (course_recognise form [] scan).traced htracing hgood hstart rfl hwithin
  generalize (form.recognise []).run input invoke scan = answer at htraced
  cases htraced with
  | excused hexcused => exact .excused hexcused
  | stuck hstuck hgoal => exact .stuck hstuck hgoal
  | nothing hgood' htrack hgoal => exact .found hgood' htrack hgoal
  | @found scan' trees log hgood' htrack hgoal =>
    -- The node is named after the rule on top, which a good scan knows.
    have hfound : bodyAnswer scan.position (.ok (some (trees.reverse ++ [])), scan') =
        (.ok (.ofFound rule scan.position (some (scan'.position, trees))), scan') := by
      rw [bodyAnswer, hrule hgood', List.append_nil, List.reverse_reverse]
      rfl
    rw [hfound]
    exact .found hgood' htrack hgoal
  | @lost result scan' target place hlost hbeyond hgoal =>
    rcases result with error | _ | trail' <;> exact .lost hlost hbeyond hgoal

end LeftPeg
