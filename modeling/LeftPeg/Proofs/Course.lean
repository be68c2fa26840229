import LeftPeg.Grammar
import LeftPeg.Invocation

/-!
# The course of an expression

`Expression.recognise` is a program, and running it interleaves the bookkeeping of positions with
the questions put to the memo table.  `Course` says step by step what such a run comes to, with
`invoke` answering for the rules, and `course_recognise` says that every run takes one.  What is
proved of an expression is proved by induction on its course, one case for each thing that can
happen.
-/

namespace LeftPeg

namespace Expression

variable {S : Type}

/-- Where a terminal that stands in the input at `position` ends. -/
def reach? [DecidableEq S] (input : Array S) (position : Nat) : Expression S → Option Nat
  | .literal symbols _ =>
    if position ≤ input.size ∧ symbols <+: input.toList.drop position then
      some (position + symbols.length)
    else none
  | .satisfying test _ => if input[position]?.any test then some (position + 1) else none
  | .any => if position < input.size then some (position + 1) else none
  | _ => none

/-- What a terminal expects to find. -/
def expected? : Expression S → Option String
  | .literal _ description => some description
  | .satisfying _ description => some description
  | .any => some Procedure.anySymbol
  | _ => none

end Expression

/-- What is looked for at a position. -/
inductive Task (S : Type) where
  | one (expression : Expression S)
  /-- All items, one after another. -/
  | all (items : List (Expression S))
  /-- The first alternative that is found. -/
  | first (alternatives : List (Expression S))
  /-- Copies of an item, at most `limit` if there is one, and at least `owed`. -/
  | copies (item : Expression S) (limit : Option Nat) (owed : Nat)

open Expression (Trail)

variable {S M : Type}

/-- Goes back to `position` if nothing was found. -/
def rewind {α : Type} (position : Nat) :
    Answer Tree M (Option α) → Answer Tree M (Option α)
  | (.ok none, scan) => (.ok none, { scan with position })
  | answer => answer

/-- What looking for a task from a scan comes to, the answer of each rule being that of `invoke`. -/
inductive Course [DecidableEq S] (input : Array S) (invoke : Invoke Tree M) :
    Task S → Trail → Scan Tree M → Answer Tree M (Option Trail) → Prop where
  -- A terminal stands at the position or is noted as a miss.
  | found {expression : Expression S} {trail : Trail} {scan : Scan Tree M} {stop : Nat}
      (hreach : expression.reach? input scan.position = some stop) :
      Course input invoke (.one expression) trail scan
        (.ok (some (.leaf scan.position stop :: trail)), { scan with position := stop })
  | missed {expression : Expression S} {trail : Trail} {scan : Scan Tree M} {expected : String}
      (hexpected : expression.expected? = some expected)
      (hreach : expression.reach? input scan.position = none) :
      Course input invoke (.one expression) trail scan (.ok none, scan.miss expected)
  -- A name left unresolved aborts; a rule answers as it is invoked.
  | unresolved {name : String} {trail : Trail} {scan : Scan Tree M} :
      Course input invoke (.one (.reference name)) trail scan (.error (.unknownRule name), scan)
  | rule {target : RuleId} {trail : Trail} {scan scan' : Scan Tree M} {found : Match Tree}
      (hinvoke : invoke target scan = (.ok (.success found), scan')) :
      Course input invoke (.one (.rule target)) trail scan
        (.ok (some (found.value :: trail)), scan')
  | ruleFails {target : RuleId} {trail : Trail} {scan scan' : Scan Tree M}
      (hinvoke : invoke target scan = (.ok .failure, scan')) :
      Course input invoke (.one (.rule target)) trail scan
        (.ok none, { scan' with position := scan.position })
  | ruleAborts {target : RuleId} {trail : Trail} {scan scan' : Scan Tree M} {error : ParseError}
      (hinvoke : invoke target scan = (.error error, scan')) :
      Course input invoke (.one (.rule target)) trail scan (.error error, scan')
  -- Groups give back what they consumed when they fail.
  | sequence {items : List (Expression S)} {trail : Trail} {scan : Scan Tree M}
      {answer : Answer Tree M (Option Trail)}
      (hitems : Course input invoke (.all items) trail scan answer) :
      Course input invoke (.one (.sequence items)) trail scan (rewind scan.position answer)
  | choice {alternatives : List (Expression S)} {trail : Trail} {scan : Scan Tree M}
      {answer : Answer Tree M (Option Trail)}
      (hitems : Course input invoke (.first alternatives) trail scan answer) :
      Course input invoke (.one (.choice alternatives)) trail scan (rewind scan.position answer)
  | repetition {item : Expression S} {atLeast : Nat} {atMost : Option Nat} {trail : Trail}
      {scan : Scan Tree M} {answer : Answer Tree M (Option Trail)}
      (hcopies : Course input invoke
        (.copies item (some (atMost.getD (Expression.unboundedCopies input.size))) atLeast)
        trail scan answer) :
      Course input invoke (.one (.repetition item atLeast atMost)) trail scan
        (rewind scan.position answer)
  -- A lookahead goes back whatever it finds; misses and the memo table stay.
  | lookahead {item : Expression S} {positive : Bool} {trail : Trail}
      {scan scan' : Scan Tree M} {found : Option Trail}
      (hitem : Course input invoke (.one item) [] scan (.ok found, scan')) :
      Course input invoke (.one (.lookahead item positive)) trail scan
        (.ok (if found.isSome = positive then some trail else none),
          { scan' with position := scan.position })
  | lookaheadAborts {item : Expression S} {positive : Bool} {trail : Trail}
      {scan scan' : Scan Tree M} {error : ParseError}
      (hitem : Course input invoke (.one item) [] scan (.error error, scan')) :
      Course input invoke (.one (.lookahead item positive)) trail scan (.error error, scan')
  -- A tag gathers the nodes of its item, so the item starts with an empty trail.
  | tagged {tag : String} {item : Expression S} {trail inner : Trail}
      {scan scan' : Scan Tree M}
      (hitem : Course input invoke (.one item) [] scan (.ok (some inner), scan')) :
      Course input invoke (.one (.tagged tag item)) trail scan
        (.ok (some (⟨none, some tag, scan.position, scan'.position, inner.reverse⟩ :: trail)),
          scan')
  | taggedFails {tag : String} {item : Expression S} {trail : Trail} {scan scan' : Scan Tree M}
      (hitem : Course input invoke (.one item) [] scan (.ok none, scan')) :
      Course input invoke (.one (.tagged tag item)) trail scan
        (.ok none, { scan' with position := scan.position })
  | taggedAborts {tag : String} {item : Expression S} {trail : Trail}
      {scan scan' : Scan Tree M} {error : ParseError}
      (hitem : Course input invoke (.one item) [] scan (.error error, scan')) :
      Course input invoke (.one (.tagged tag item)) trail scan (.error error, scan')
  -- One after another: the first failure ends it.
  | allNil {trail : Trail} {scan : Scan Tree M} :
      Course input invoke (.all []) trail scan (.ok (some trail), scan)
  | allCons {item : Expression S} {rest : List (Expression S)} {trail trail' : Trail}
      {scan scan' : Scan Tree M} {answer : Answer Tree M (Option Trail)}
      (hitem : Course input invoke (.one item) trail scan (.ok (some trail'), scan'))
      (hrest : Course input invoke (.all rest) trail' scan' answer) :
      Course input invoke (.all (item :: rest)) trail scan answer
  | allFails {item : Expression S} {rest : List (Expression S)} {trail : Trail}
      {scan scan' : Scan Tree M}
      (hitem : Course input invoke (.one item) trail scan (.ok none, scan')) :
      Course input invoke (.all (item :: rest)) trail scan (.ok none, scan')
  | allAborts {item : Expression S} {rest : List (Expression S)} {trail : Trail}
      {scan scan' : Scan Tree M} {error : ParseError}
      (hitem : Course input invoke (.one item) trail scan (.error error, scan')) :
      Course input invoke (.all (item :: rest)) trail scan (.error error, scan')
  -- In order of choice: the first success ends it.
  | firstNil {trail : Trail} {scan : Scan Tree M} :
      Course input invoke (.first []) trail scan (.ok none, scan)
  | firstFound {item : Expression S} {rest : List (Expression S)} {trail trail' : Trail}
      {scan scan' : Scan Tree M}
      (hitem : Course input invoke (.one item) trail scan (.ok (some trail'), scan')) :
      Course input invoke (.first (item :: rest)) trail scan (.ok (some trail'), scan')
  | firstNext {item : Expression S} {rest : List (Expression S)} {trail : Trail}
      {scan scan' : Scan Tree M} {answer : Answer Tree M (Option Trail)}
      (hitem : Course input invoke (.one item) trail scan (.ok none, scan'))
      (hrest : Course input invoke (.first rest) trail scan' answer) :
      Course input invoke (.first (item :: rest)) trail scan answer
  | firstAborts {item : Expression S} {rest : List (Expression S)} {trail : Trail}
      {scan scan' : Scan Tree M} {error : ParseError}
      (hitem : Course input invoke (.one item) trail scan (.error error, scan')) :
      Course input invoke (.first (item :: rest)) trail scan (.error error, scan')
  -- Copies: a copy that moves nothing is counted once and ends the repetition.
  | copiesEnd {item : Expression S} {owed : Nat} {trail : Trail} {scan : Scan Tree M} :
      Course input invoke (.copies item (some 0) owed) trail scan
        (.ok (if owed = 0 then some trail else none), scan)
  | copiesStop {item : Expression S} {limit owed : Nat} {trail : Trail}
      {scan scan' : Scan Tree M}
      (hitem : Course input invoke (.one item) trail scan (.ok none, scan')) :
      Course input invoke (.copies item (some (limit + 1)) owed) trail scan
        (.ok (if owed = 0 then some trail else none), scan')
  | copiesEmpty {item : Expression S} {limit owed : Nat} {trail trail' : Trail}
      {scan scan' : Scan Tree M}
      (hitem : Course input invoke (.one item) trail scan (.ok (some trail'), scan'))
      (hstill : scan'.position = scan.position) :
      Course input invoke (.copies item (some (limit + 1)) owed) trail scan
        (.ok (if owed ≤ 1 then some trail' else none), scan')
  | copiesNext {item : Expression S} {limit owed : Nat} {trail trail' : Trail}
      {scan scan' : Scan Tree M} {answer : Answer Tree M (Option Trail)}
      (hitem : Course input invoke (.one item) trail scan (.ok (some trail'), scan'))
      (hmoved : scan'.position ≠ scan.position)
      (hrest : Course input invoke (.copies item (some limit) (owed - 1)) trail' scan' answer) :
      Course input invoke (.copies item (some (limit + 1)) owed) trail scan answer
  | copiesAbort {item : Expression S} {limit owed : Nat} {trail : Trail}
      {scan scan' : Scan Tree M} {error : ParseError}
      (hitem : Course input invoke (.one item) trail scan (.error error, scan')) :
      Course input invoke (.copies item (some (limit + 1)) owed) trail scan (.error error, scan')

namespace Procedure

variable {V α : Type}

theorem run_backtracking (input : Array S) (invoke : Invoke Tree M)
    (program : Procedure S Tree M (Option α)) (scan : Scan Tree M) :
    program.backtracking.run input invoke scan =
      rewind scan.position (program.run input invoke scan) := by
  simp only [backtracking, position, goTo, bind_eq, pure_eq, Procedure.bind, run, run_bind,
    Scan.view]
  rcases hrun : program.run input invoke scan with ⟨_ | _ | result, scan'⟩ <;>
    simp [rewind, run]

end Procedure

section

variable [DecidableEq S] {input : Array S} {invoke : Invoke Tree M}

theorem course_terminal {expression : Expression S} {expected : String}
    {passes : Procedure S Tree M Bool} {trail : Trail} {scan : Scan Tree M}
    (hexpected : expression.expected? = some expected)
    (hpasses : passes.run input invoke scan =
      match expression.reach? input scan.position with
      | some stop => (.ok true, { scan with position := stop })
      | none => (.ok false, scan.miss expected)) :
    Course input invoke (.one expression) trail scan
      (rewind scan.position
        ((Expression.terminal passes trail).run input invoke scan)) := by
  cases hreach : expression.reach? input scan.position with
  | none =>
    -- A miss leaves the position alone, so going back changes nothing.
    have hrun : rewind scan.position ((Expression.terminal passes trail).run input invoke scan) =
        (.ok none, scan.miss expected) := by
      simp [Expression.terminal, Procedure.position, Procedure.bind, Procedure.run,
        Procedure.run_bind, hpasses, hreach, rewind, Scan.miss, Scan.record]
    rw [hrun]
    exact .missed hexpected hreach
  | some stop =>
    have hrun : rewind scan.position ((Expression.terminal passes trail).run input invoke scan) =
        (.ok (some (.leaf scan.position stop :: trail)), { scan with position := stop }) := by
      simp [Expression.terminal, Procedure.position, Procedure.bind, Procedure.run,
        Procedure.run_bind, hpasses, hreach, rewind, Scan.view]
    rw [hrun]
    exact .found hreach

theorem run_literal (symbols : List S) (description : String) (scan : Scan Tree M) :
    (Procedure.literal symbols description : Procedure S Tree M Bool).run input invoke scan =
      match (Expression.literal symbols description).reach? input scan.position with
      | some stop => (.ok true, { scan with position := stop })
      | none => (.ok false, scan.miss description) := by
  -- The program asks the view, `reach?` the input as a list.
  have hstands : (scan.view input).continuesWith symbols = true ↔
      scan.position ≤ input.size ∧ symbols <+: input.toList.drop scan.position :=
    View.continuesWith_iff
  simp only [Procedure.literal, Procedure.run, Expression.reach?, ← hstands]
  by_cases h : (scan.view input).continuesWith symbols = true
  · simp only [h, if_true]
    rfl
  · simp only [h]
    rfl

theorem run_satisfying (test : S → Bool) (description : String) (scan : Scan Tree M) :
    (Procedure.satisfying test description : Procedure S Tree M Bool).run input invoke scan =
      match (Expression.satisfying test description).reach? input scan.position with
      | some stop => (.ok true, { scan with position := stop })
      | none => (.ok false, scan.miss description) := by
  simp only [Procedure.satisfying, Procedure.run, Expression.reach?, View.symbol?, Scan.view]
  by_cases h : input[scan.position]?.any test = true
  · simp only [h, if_true]
    rfl
  · simp only [h]
    rfl

theorem run_any (scan : Scan Tree M) :
    (Procedure.any : Procedure S Tree M Bool).run input invoke scan =
      match (Expression.any : Expression S).reach? input scan.position with
      | some stop => (.ok true, { scan with position := stop })
      | none => (.ok false, scan.miss Procedure.anySymbol) := by
  have hend : (scan.view input).atEnd = true ↔ ¬ scan.position < input.size := by
    rw [View.atEnd, decide_eq_true_iff, Nat.not_lt]
    rfl
  simp only [Procedure.any, Procedure.run, Expression.reach?, hend]
  by_cases h : scan.position < input.size
  · simp only [h, not_true_eq_false, if_true, if_false]
    rfl
  · simp only [h, not_false_eq_true, if_true, if_false]
    rfl

theorem course_rule (target : RuleId) (trail : Trail) (scan : Scan Tree M) :
    Course input invoke (.one (.rule target)) trail scan
      (rewind scan.position ((Expression.ofRule target trail).run input invoke scan)) := by
  -- Only a failure is rewound: the body of the rule may have left the position anywhere.
  rcases hinvoke : invoke target scan with ⟨error | found | _, scan'⟩
  · simpa [Expression.ofRule, Procedure.apply, Procedure.bind, Procedure.run, hinvoke, rewind]
      using Course.ruleAborts hinvoke
  · simpa [Expression.ofRule, Procedure.apply, Procedure.bind, Procedure.run, hinvoke, rewind]
      using Course.rule hinvoke
  · simpa [Expression.ofRule, Procedure.apply, Procedure.bind, Procedure.run, hinvoke, rewind]
      using Course.ruleFails hinvoke

/-- What the count of copies found comes to. -/
def enough (atLeast : Nat) : Answer Tree M (Nat × Trail) → Answer Tree M (Option Trail)
  | (.ok (count, trail), scan) => (.ok (if atLeast ≤ count then some trail else none), scan)
  | (.error error, scan) => (.error error, scan)

omit [DecidableEq S] in
/-- What the first of some copies decides for the count of them. -/
theorem run_copiesUpTo_succ (item : Expression.Recogniser S M) (copies count : Nat) (trail : Trail)
    (scan : Scan Tree M) :
    (Expression.copiesUpTo item (copies + 1) count trail).run input invoke scan =
      match (item trail).run input invoke scan with
      | (.error error, scan') => (.error error, scan')
      | (.ok none, scan') => (.ok (count, trail), scan')
      | (.ok (some trail'), scan') =>
        if scan'.position = scan.position then (.ok (count + 1, trail'), scan')
        else (Expression.copiesUpTo item copies (count + 1) trail').run input invoke scan' := by
  rcases hrun : (item trail).run input invoke scan with ⟨error | _ | trail', scan'⟩
  · simp [Expression.copiesUpTo, Procedure.position, Procedure.bind, Procedure.run,
      Procedure.run_bind, hrun]
  · simp [Expression.copiesUpTo, Procedure.position, Procedure.bind, Procedure.run,
      Procedure.run_bind, hrun]
  · by_cases hstill : scan'.position = scan.position <;>
      simp [Expression.copiesUpTo, Procedure.position, Procedure.bind, Procedure.run,
        Procedure.run_bind, hrun, Scan.view, hstill]

theorem course_copiesUpTo {item : Expression S}
    (hitem : ∀ (trail : Trail) (scan : Scan Tree M), Course input invoke (.one item) trail scan
      ((item.recognise trail).run input invoke scan))
    (atLeast limit count : Nat) (trail : Trail) (scan : Scan Tree M) :
    Course input invoke (.copies item (some limit) (atLeast - count)) trail scan
      (enough atLeast
        ((Expression.copiesUpTo item.recognise limit count trail).run input invoke scan)) := by
  -- On the copies still allowed.  The program counts up and the course counts down:
  -- after `count` copies `atLeast - count` are owed.
  induction limit generalizing count trail scan with
  | zero =>
    have hend : Course input invoke (.copies item (some 0) (atLeast - count)) trail scan _ :=
      .copiesEnd
    simpa [Expression.copiesUpTo, Procedure.run, enough, Nat.sub_eq_zero_iff_le] using hend
  | succ limit ih =>
    have hcourse := hitem trail scan
    rw [run_copiesUpTo_succ]
    rcases hrun : (item.recognise trail).run input invoke scan with ⟨error | _ | trail', scan'⟩ <;>
      rw [hrun] at hcourse
    · exact .copiesAbort hcourse
    · have hstop : Course input invoke (.copies item (some (limit + 1)) (atLeast - count)) trail
          scan _ := .copiesStop hcourse
      simpa [enough, Nat.sub_eq_zero_iff_le] using hstop
    -- The copy at hand is the last one unless it moved.
    · dsimp only
      split
      · rename_i hstill
        have howed : atLeast - count ≤ 1 ↔ atLeast ≤ count + 1 := by omega
        have hempty : Course input invoke (.copies item (some (limit + 1)) (atLeast - count)) trail
            scan _ := .copiesEmpty hcourse hstill
        simpa [enough, howed] using hempty
      · rename_i hmoved
        have hrest := ih (count + 1) trail' scan'
        rw [Nat.sub_add_eq] at hrest
        exact .copiesNext hcourse hmoved hrest

omit [DecidableEq S] in
theorem run_repeated (item : Expression.Recogniser S M) (atLeast : Nat) (atMost : Option Nat)
    (trail : Trail) (scan : Scan Tree M) :
    (Expression.repeated item atLeast atMost trail).run input invoke scan =
      enough atLeast ((Expression.copiesUpTo item
        (atMost.getD (Expression.unboundedCopies input.size)) 0 trail).run input invoke scan) := by
  simp only [Expression.repeated, Procedure.view, Procedure.bind_eq, Procedure.bind,
    Procedure.run, Procedure.run_bind, Scan.view]
  rcases (Expression.copiesUpTo item _ 0 trail).run input invoke scan
    with ⟨error | ⟨count, trail'⟩, scan'⟩
  · rfl
  · by_cases h : atLeast ≤ count <;> simp [enough, h, Procedure.run]

/-- What the first of some items decides for all of them. -/
theorem run_recogniseAll_cons (item : Expression S) (rest : List (Expression S)) (trail : Trail)
    (scan : Scan Tree M) :
    (Expression.recogniseAll (item :: rest) trail).run input invoke scan =
      match (item.recognise trail).run input invoke scan with
      | (.error error, scan') => (.error error, scan')
      | (.ok none, scan') => (.ok none, scan')
      | (.ok (some trail'), scan') =>
        (Expression.recogniseAll rest trail').run input invoke scan' := by
  rw [Expression.recogniseAll, Procedure.bind_eq, Procedure.run_bind]
  rcases (item.recognise trail).run input invoke scan with ⟨error | _ | trail', scan'⟩ <;> rfl

mutual

theorem course_recognise (expression : Expression S) (trail : Trail) (scan : Scan Tree M) :
    Course input invoke (.one expression) trail scan
      ((expression.recognise trail).run input invoke scan) := by
  cases expression with
  | literal symbols description =>
    rw [Expression.recognise, Procedure.run_backtracking]
    exact course_terminal rfl (run_literal symbols description scan)
  | satisfying test description =>
    rw [Expression.recognise, Procedure.run_backtracking]
    exact course_terminal rfl (run_satisfying test description scan)
  | any =>
    rw [Expression.recognise, Procedure.run_backtracking]
    exact course_terminal rfl (run_any scan)
  | reference name =>
    rw [Expression.recognise]
    exact .unresolved
  | rule target =>
    rw [Expression.recognise, Procedure.run_backtracking]
    exact course_rule target trail scan
  | sequence items =>
    rw [Expression.recognise, Procedure.run_backtracking]
    exact .sequence (course_recogniseAll items trail scan)
  | choice alternatives =>
    rw [Expression.recognise, Procedure.run_backtracking]
    exact .choice (course_recogniseFirst alternatives trail scan)
  | repetition item atLeast atMost =>
    rw [Expression.recognise, Procedure.run_backtracking, run_repeated]
    exact .repetition (course_copiesUpTo (course_recognise item) atLeast _ 0 trail scan)
  | lookahead item positive =>
    rw [Expression.recognise, Procedure.run_backtracking]
    have hitem := course_recognise item [] scan
    rcases hrun : (item.recognise []).run input invoke scan with ⟨error | found, scan'⟩
    · rw [hrun] at hitem
      simpa [Expression.peeked, Procedure.position, Procedure.bind, Procedure.run,
        Procedure.run_bind, hrun, rewind] using Course.lookaheadAborts hitem
    · rw [hrun] at hitem
      have hlookahead : Course input invoke (.one (.lookahead item positive)) trail scan _ :=
        .lookahead hitem
      -- The polarity decides whether the trail is kept, the scan is the same either way.
      by_cases hfound : found.isSome = positive <;>
        simpa [Expression.peeked, Procedure.position, Procedure.goTo, Procedure.bind,
          Procedure.run, Procedure.run_bind, hrun, rewind, Scan.view, hfound] using hlookahead
  | tagged tag item =>
    rw [Expression.recognise, Procedure.run_backtracking]
    have hitem := course_recognise item [] scan
    rcases hrun : (item.recognise []).run input invoke scan with ⟨error | _ | inner, scan'⟩
    · rw [hrun] at hitem
      simpa [Expression.gathered, Procedure.position, Procedure.bind, Procedure.run,
        Procedure.run_bind, hrun, rewind] using Course.taggedAborts hitem
    · rw [hrun] at hitem
      simpa [Expression.gathered, Procedure.position, Procedure.bind, Procedure.run,
        Procedure.run_bind, hrun, rewind] using Course.taggedFails hitem
    · rw [hrun] at hitem
      simpa [Expression.gathered, Procedure.position, Procedure.bind, Procedure.run,
        Procedure.run_bind, hrun, rewind, Scan.view] using Course.tagged hitem

theorem course_recogniseAll (items : List (Expression S)) (trail : Trail) (scan : Scan Tree M) :
    Course input invoke (.all items) trail scan
      ((Expression.recogniseAll items trail).run input invoke scan) := by
  cases items with
  | nil =>
    rw [Expression.recogniseAll]
    exact .allNil
  | cons item rest =>
    have hitem := course_recognise item trail scan
    rw [run_recogniseAll_cons]
    rcases hrun : (item.recognise trail).run input invoke scan with ⟨error | _ | trail', scan'⟩
    · rw [hrun] at hitem
      exact .allAborts hitem
    · rw [hrun] at hitem
      exact .allFails hitem
    · rw [hrun] at hitem
      exact .allCons hitem (course_recogniseAll rest trail' scan')

theorem course_recogniseFirst (items : List (Expression S)) (trail : Trail)
    (scan : Scan Tree M) :
    Course input invoke (.first items) trail scan
      ((Expression.recogniseFirst items trail).run input invoke scan) := by
  cases items with
  | nil =>
    rw [Expression.recogniseFirst]
    exact .firstNil
  | cons item rest =>
    have hitem := course_recognise item trail scan
    rw [Expression.recogniseFirst, Procedure.bind_eq, Procedure.run_bind]
    rcases hrun : (item.recognise trail).run input invoke scan with ⟨error | _ | trail', scan'⟩
    · rw [hrun] at hitem
      exact .firstAborts hitem
    · rw [hrun] at hitem
      exact .firstNext hitem (course_recogniseFirst rest trail scan')
    · rw [hrun] at hitem
      exact .firstFound hitem

end

/-- An expression that is not found leaves the position where it was. -/
theorem Course.position_of_none {expression : Expression S} {trail : Trail}
    {scan scan' : Scan Tree M} {answer : Answer Tree M (Option Trail)}
    (h : Course input invoke (.one expression) trail scan answer)
    (hnone : answer = (.ok none, scan')) : scan'.position = scan.position := by
  -- Sequences, choices and repetitions all end by going back.
  have hrewind : ∀ {answer : Answer Tree M (Option Trail)},
      LeftPeg.rewind scan.position answer = (.ok none, scan') → scan'.position = scan.position := by
    intro answer hanswer
    rcases answer with ⟨error | _ | found, scan''⟩
    · exact nomatch hanswer
    · injection hanswer with _ hscan
      rw [← hscan]
    · exact nomatch hanswer
  cases h with
  | found hreach => exact nomatch hnone
  | missed hexpected hreach => exact congrArg (fun answer => answer.2.position) hnone.symm
  | unresolved => exact nomatch hnone
  | rule hinvoke => exact nomatch hnone
  | ruleFails hinvoke => exact congrArg (fun answer => answer.2.position) hnone.symm
  | ruleAborts hinvoke => exact nomatch hnone
  | sequence hitems => exact hrewind hnone
  | choice hitems => exact hrewind hnone
  | repetition hcopies => exact hrewind hnone
  | lookahead hitem => exact congrArg (fun answer => answer.2.position) hnone.symm
  | lookaheadAborts hitem => exact nomatch hnone
  | tagged hitem => exact nomatch hnone
  | taggedFails hitem => exact congrArg (fun answer => answer.2.position) hnone.symm
  | taggedAborts hitem => exact nomatch hnone

/-- What an expression found as the body of a rule comes to. -/
def bodyAnswer (start : Nat) : Answer Tree M (Option Trail) → Answer Tree M (Outcome Tree)
  | (.error error, scan) => (.error error, scan)
  | (.ok none, scan) => (.ok .failure, scan)
  | (.ok (some trail), scan) =>
    (.ok (.success ⟨start, scan.position,
      ⟨scan.currentRule, none, start, scan.position, trail.reverse⟩⟩), scan)

theorem run_toProcedure (form : Expression S) (invoke : Invoke Tree M) (scan : Scan Tree M) :
    form.toProcedure.run input invoke scan =
      bodyAnswer scan.position ((form.recognise []).run input invoke scan) := by
  simp only [Expression.toProcedure, Procedure.position, Procedure.currentRule,
    Procedure.bind_eq, Procedure.pure_eq, Procedure.bind, Procedure.run, Procedure.run_bind,
    Scan.view]
  rcases (form.recognise []).run input invoke scan with ⟨error | _ | trail, scan'⟩ <;> rfl

end

end LeftPeg
