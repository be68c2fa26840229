import LeftPeg.Proofs.Genuine
import LeftPeg.Proofs.Passing

/-!
# Runs without counters

`Engine.invokeWithin` recurses on the room left for activations, growth on the attempts left, and a
repetition on the copies left. The relations of this module say what a run comes to with none of
these: `Subject.Looks` for a task of an expression, `Subject.Grows` for an activation, and
`Subject.Invokes` for a rule. Depth is what the stack says it is, growth goes on until an attempt
settles it, and a repetition without a bound has none. A run that never ends comes to nothing at
all, so to come to something is to end.

A run comes to one thing at most: `Subject.Looks.unique`, `Subject.Grows.unique` and
`Subject.Invokes.unique`.
-/

namespace LeftPeg

open Expression (Trail)

variable {S M : Type}

/-- What a run is about and never changes. -/
structure Subject (S M : Type) where
  grammar : Grammar S M
  input : Array S
  /-- How many activations may be live at once. -/
  maxDepth : Nat

/-! ## From part to whole

What a task comes to, given what the part that it consists of has come to. -/

/-- A terminal that ends at the given place is a leaf, and one that has no end is a miss. -/
def Scan.meet (scan : Scan Tree M) (expected : String) (trail : Trail) :
    Option Nat → Answer Tree M (Option Trail)
  | some stop => (.ok (some (.leaf scan.position stop :: trail)), { scan with position := stop })
  | none => (.ok none, scan.miss expected)

/-- A rule adds the tree of its match. -/
def adopt (trail : Trail) : Answer Tree M (Outcome Tree) → Answer Tree M (Option Trail)
  | (.ok (.success found), scan) => (.ok (some (found.value :: trail)), scan)
  | (.ok .failure, scan) => (.ok none, scan)
  | (.error error, scan) => (.error error, scan)

/-- A lookahead goes back to `position` whatever it finds. -/
def peek (positive : Bool) (position : Nat) (trail : Trail) :
    Answer Tree M (Option Trail) → Answer Tree M (Option Trail)
  | (.ok found, scan) =>
    (.ok (if found.isSome = positive then some trail else none), { scan with position })
  | (.error error, scan) => (.error error, scan)

/-- A tag gathers what was found from `start` on. -/
def gather (tag : String) (start : Nat) (trail : Trail) :
    Answer Tree M (Option Trail) → Answer Tree M (Option Trail)
  | (.ok (some inner), scan) =>
    (.ok (some (⟨none, some tag, start, scan.position, inner.reverse⟩ :: trail)), scan)
  | (.ok none, scan) => (.ok none, { scan with position := start })
  | (.error error, scan) => (.error error, scan)

/-- Where no copy follows, those before it are what was found if no more are owed. -/
def desist (owed : Nat) (trail : Trail) :
    Answer Tree M (Option Trail) → Answer Tree M (Option Trail)
  | (.ok none, scan) => (.ok (if owed = 0 then some trail else none), scan)
  | answer => answer

/-- What becomes of an activation once its body has been evaluated. -/
def judge (site : Site) :
    Answer Tree M (Outcome Tree) → Answer Tree M (Option (Outcome Tree))
  | (.ok attempt, scan) => scan.settle site attempt
  | (.error error, scan) => (.error error, scan)

/-- Something was found. -/
def Finds (answer : Answer Tree M (Option Trail)) : Prop :=
  ∃ trail, answer.1 = .ok (some trail)

theorem finds_of_eq {answer : Answer Tree M (Option Trail)} {trail : Trail} {scan : Scan Tree M}
    (h : answer = (.ok (some trail), scan)) : Finds answer :=
  ⟨trail, congrArg Prod.fst h⟩

/-! ## What a run comes to -/

namespace Subject

variable [DecidableEq S]

mutual

/-- What looking for a task from a scan comes to. -/
inductive Looks (subject : Subject S M) :
    Task S → Trail → Scan Tree M → Answer Tree M (Option Trail) → Prop where
  | terminal {expression : Expression S} {expected : String} {trail : Trail} {scan : Scan Tree M}
      (hexpected : expression.expected? = some expected) :
      Looks subject (.one expression) trail scan
        (scan.meet expected trail (expression.reach? subject.input scan.position))
  | unresolved {name : String} {trail : Trail} {scan : Scan Tree M} :
      Looks subject (.one (.reference name)) trail scan (.error (.unknownRule name), scan)
  | rule {target : RuleId} {trail : Trail} {scan : Scan Tree M}
      {answer : Answer Tree M (Outcome Tree)} (hinvokes : Invokes subject target scan answer) :
      Looks subject (.one (.rule target)) trail scan (rewind scan.position (adopt trail answer))
  | sequence {items : List (Expression S)} {trail : Trail} {scan : Scan Tree M}
      {answer : Answer Tree M (Option Trail)}
      (hitems : Looks subject (.all items) trail scan answer) :
      Looks subject (.one (.sequence items)) trail scan (rewind scan.position answer)
  | choice {alternatives : List (Expression S)} {trail : Trail} {scan : Scan Tree M}
      {answer : Answer Tree M (Option Trail)}
      (hitems : Looks subject (.first alternatives) trail scan answer) :
      Looks subject (.one (.choice alternatives)) trail scan (rewind scan.position answer)
  /-- A repetition without a bound is one of any number of copies. -/
  | repetition {item : Expression S} {atLeast : Nat} {atMost : Option Nat} {trail : Trail}
      {scan : Scan Tree M} {answer : Answer Tree M (Option Trail)}
      (hcopies : Looks subject (.copies item atMost atLeast) trail scan answer) :
      Looks subject (.one (.repetition item atLeast atMost)) trail scan
        (rewind scan.position answer)
  | lookahead {item : Expression S} {positive : Bool} {trail : Trail} {scan : Scan Tree M}
      {answer : Answer Tree M (Option Trail)} (hitem : Looks subject (.one item) [] scan answer) :
      Looks subject (.one (.lookahead item positive)) trail scan
        (peek positive scan.position trail answer)
  | tagged {tag : String} {item : Expression S} {trail : Trail} {scan : Scan Tree M}
      {answer : Answer Tree M (Option Trail)} (hitem : Looks subject (.one item) [] scan answer) :
      Looks subject (.one (.tagged tag item)) trail scan (gather tag scan.position trail answer)
  -- One after another, as long as something is found.
  | allNil {trail : Trail} {scan : Scan Tree M} :
      Looks subject (.all []) trail scan (.ok (some trail), scan)
  | allCons {item : Expression S} {rest : List (Expression S)} {trail trail' : Trail}
      {scan scan' : Scan Tree M} {answer : Answer Tree M (Option Trail)}
      (hitem : Looks subject (.one item) trail scan (.ok (some trail'), scan'))
      (hrest : Looks subject (.all rest) trail' scan' answer) :
      Looks subject (.all (item :: rest)) trail scan answer
  | allStops {item : Expression S} {rest : List (Expression S)} {trail : Trail}
      {scan : Scan Tree M} {answer : Answer Tree M (Option Trail)}
      (hitem : Looks subject (.one item) trail scan answer) (hstops : ¬ Finds answer) :
      Looks subject (.all (item :: rest)) trail scan answer
  -- One after another, as long as nothing is found.
  | firstNil {trail : Trail} {scan : Scan Tree M} :
      Looks subject (.first []) trail scan (.ok none, scan)
  | firstNext {item : Expression S} {rest : List (Expression S)} {trail : Trail}
      {scan scan' : Scan Tree M} {answer : Answer Tree M (Option Trail)}
      (hitem : Looks subject (.one item) trail scan (.ok none, scan'))
      (hrest : Looks subject (.first rest) trail scan' answer) :
      Looks subject (.first (item :: rest)) trail scan answer
  | firstStops {item : Expression S} {rest : List (Expression S)} {trail : Trail}
      {scan : Scan Tree M} {answer : Answer Tree M (Option Trail)}
      (hitem : Looks subject (.one item) trail scan answer) (hstops : answer.1 ≠ .ok none) :
      Looks subject (.first (item :: rest)) trail scan answer
  -- Copies, until one is not found or moves nothing.
  | copiesEnd {item : Expression S} {owed : Nat} {trail : Trail} {scan : Scan Tree M} :
      Looks subject (.copies item (some 0) owed) trail scan
        (.ok (if owed = 0 then some trail else none), scan)
  | copiesStop {item : Expression S} {limit : Option Nat} {owed : Nat} {trail : Trail}
      {scan : Scan Tree M} {answer : Answer Tree M (Option Trail)} (hlimit : limit ≠ some 0)
      (hitem : Looks subject (.one item) trail scan answer) (hstops : ¬ Finds answer) :
      Looks subject (.copies item limit owed) trail scan (desist owed trail answer)
  | copiesEmpty {item : Expression S} {limit : Option Nat} {owed : Nat} {trail trail' : Trail}
      {scan scan' : Scan Tree M} (hlimit : limit ≠ some 0)
      (hitem : Looks subject (.one item) trail scan (.ok (some trail'), scan'))
      (hstill : scan'.position = scan.position) :
      Looks subject (.copies item limit owed) trail scan
        (.ok (if owed ≤ 1 then some trail' else none), scan')
  | copiesNext {item : Expression S} {limit : Option Nat} {owed : Nat} {trail trail' : Trail}
      {scan scan' : Scan Tree M} {answer : Answer Tree M (Option Trail)}
      (hlimit : limit ≠ some 0)
      (hitem : Looks subject (.one item) trail scan (.ok (some trail'), scan'))
      (hmoved : scan'.position ≠ scan.position)
      (hrest : Looks subject (.copies item (limit.map (· - 1)) (owed - 1)) trail' scan' answer) :
      Looks subject (.copies item limit owed) trail scan answer

/-- What the evaluations of a body from a scan on come to, the activation being at work on the
site. -/
inductive Grows (subject : Subject S M) :
    Expression S → Site → Scan Tree M → Answer Tree M (Outcome Tree) → Prop where
  | failed {form : Expression S} {site : Site} {scan scan' : Scan Tree M}
      {answer : Answer Tree M (Option Trail)} {error : ParseError}
      (hform : Looks subject (.one form) [] (scan.beginAttempt site) answer)
      (hjudged : judge site (bodyAnswer site.position answer) = (.error error, scan')) :
      Grows subject form site scan (.error error, scan')
  | settled {form : Expression S} {site : Site} {scan scan' : Scan Tree M}
      {answer : Answer Tree M (Option Trail)} {outcome : Outcome Tree}
      (hform : Looks subject (.one form) [] (scan.beginAttempt site) answer)
      (hjudged : judge site (bodyAnswer site.position answer) = (.ok (some outcome), scan')) :
      Grows subject form site scan (.ok outcome, scan')
  /-- The attempt has extended the match, and another one follows. -/
  | extended {form : Expression S} {site : Site} {scan scan' : Scan Tree M}
      {answer : Answer Tree M (Option Trail)} {answer' : Answer Tree M (Outcome Tree)}
      (hform : Looks subject (.one form) [] (scan.beginAttempt site) answer)
      (hjudged : judge site (bodyAnswer site.position answer) = (.ok none, scan'))
      (hrest : Grows subject form site scan'.countGrowth answer') :
      Grows subject form site scan answer'

/-- What invoking a rule on a scan comes to. -/
inductive Invokes (subject : Subject S M) :
    RuleId → Scan Tree M → Answer Tree M (Outcome Tree) → Prop where
  | remembered {rule : RuleId} {scan : Scan Tree M} {outcome : Outcome Tree}
      (hfind : scan.memo.find? rule scan.position = some (.finished outcome)) :
      Invokes subject rule scan (.ok outcome, scan.hit outcome)
  | reentered {rule : RuleId} {scan : Scan Tree M} {slot : Nat}
      (hfind : scan.memo.find? rule scan.position = some (.inProgress slot)) :
      Invokes subject rule scan (scan.reenter ⟨rule, scan.position, slot⟩)
  | unknown {rule : RuleId} {scan : Scan Tree M}
      (hfree : scan.memo.find? rule scan.position = none)
      (hbody : subject.grammar.body? rule = none) :
      Invokes subject rule scan (.error (.unknownRule rule.display), scan)
  | tooDeep {rule : RuleId} {form : Expression S} {scan : Scan Tree M}
      (hfree : scan.memo.find? rule scan.position = none)
      (hbody : subject.grammar.body? rule = some (.expression form))
      (hdepth : subject.maxDepth ≤ scan.stack.depth) :
      Invokes subject rule scan (.error (.tooDeep subject.maxDepth scan.position), scan)
  | activated {rule : RuleId} {form : Expression S} {scan : Scan Tree M}
      {answer : Answer Tree M (Outcome Tree)}
      (hfree : scan.memo.find? rule scan.position = none)
      (hbody : subject.grammar.body? rule = some (.expression form))
      (hdepth : scan.stack.depth < subject.maxDepth)
      (hgrows : Grows subject form (Engine.siteOf rule scan)
        (scan.enter (Engine.siteOf rule scan)) answer) :
      Invokes subject rule scan (Scan.release (Engine.siteOf rule scan) answer)

end

/-! ## One answer at most -/

variable {subject : Subject S M}

mutual

-- By induction on the first of two runs. The second one has to begin in the same way, since what a
-- part comes to decides how it goes on.

theorem Looks.unique {task : Task S} {trail : Trail} {scan : Scan Tree M}
    {answer answer' : Answer Tree M (Option Trail)} :
    subject.Looks task trail scan answer → subject.Looks task trail scan answer' →
      answer = answer'
  | .terminal hexpected, h' => by
    cases h' with
    | terminal hexpected' => rw [Option.some.inj (hexpected.symm.trans hexpected')]
    | unresolved => cases hexpected
    | rule _ => cases hexpected
    | sequence _ => cases hexpected
    | choice _ => cases hexpected
    | repetition _ => cases hexpected
    | lookahead _ => cases hexpected
    | tagged _ => cases hexpected
  | .unresolved, h' => by
    cases h' with
    | terminal hexpected => cases hexpected
    | unresolved => rfl
  | .rule hinvokes, h' => by
    cases h' with
    | terminal hexpected => cases hexpected
    | rule hinvokes' => rw [hinvokes.unique hinvokes']
  | .sequence hitems, h' => by
    cases h' with
    | terminal hexpected => cases hexpected
    | sequence hitems' => rw [hitems.unique hitems']
  | .choice hitems, h' => by
    cases h' with
    | terminal hexpected => cases hexpected
    | choice hitems' => rw [hitems.unique hitems']
  | .repetition hcopies, h' => by
    cases h' with
    | terminal hexpected => cases hexpected
    | repetition hcopies' => rw [hcopies.unique hcopies']
  | .lookahead hitem, h' => by
    cases h' with
    | terminal hexpected => cases hexpected
    | lookahead hitem' => rw [hitem.unique hitem']
  | .tagged hitem, h' => by
    cases h' with
    | terminal hexpected => cases hexpected
    | tagged hitem' => rw [hitem.unique hitem']
  | .allNil, h' => by
    cases h'
    rfl
  | .allCons hitem hrest, h' => by
    cases h' with
    | allCons hitem' hrest' =>
      cases hitem.unique hitem'
      exact hrest.unique hrest'
    | allStops hitem' hstops => exact absurd (finds_of_eq (hitem.unique hitem').symm) hstops
  | .allStops hitem hstops, h' => by
    cases h' with
    | allCons hitem' hrest => exact absurd (finds_of_eq (hitem.unique hitem')) hstops
    | allStops hitem' hstops' => exact hitem.unique hitem'
  | .firstNil, h' => by
    cases h'
    rfl
  | .firstNext hitem hrest, h' => by
    cases h' with
    | firstNext hitem' hrest' =>
      cases hitem.unique hitem'
      exact hrest.unique hrest'
    | firstStops hitem' hstops => exact absurd (congrArg Prod.fst (hitem.unique hitem').symm) hstops
  | .firstStops hitem hstops, h' => by
    cases h' with
    | firstNext hitem' hrest => exact absurd (congrArg Prod.fst (hitem.unique hitem')) hstops
    | firstStops hitem' hstops' => exact hitem.unique hitem'
  | .copiesEnd, h' => by
    cases h' with
    | copiesEnd => rfl
    | copiesStop hlimit _ _ => exact absurd rfl hlimit
    | copiesEmpty hlimit _ _ => exact absurd rfl hlimit
    | copiesNext hlimit _ _ _ => exact absurd rfl hlimit
  | .copiesStop hlimit hitem hstops, h' => by
    cases h' with
    | copiesEnd => exact absurd rfl hlimit
    | copiesStop _ hitem' _ => rw [hitem.unique hitem']
    | copiesEmpty _ hitem' _ => exact absurd (finds_of_eq (hitem.unique hitem')) hstops
    | copiesNext _ hitem' _ _ => exact absurd (finds_of_eq (hitem.unique hitem')) hstops
  | .copiesEmpty hlimit hitem hstill, h' => by
    cases h' with
    | copiesEnd => exact absurd rfl hlimit
    | copiesStop _ hitem' hstops => exact absurd (finds_of_eq (hitem.unique hitem').symm) hstops
    | copiesEmpty _ hitem' _ =>
      cases hitem.unique hitem'
      rfl
    | copiesNext _ hitem' hmoved _ =>
      cases hitem.unique hitem'
      exact absurd hstill hmoved
  | .copiesNext hlimit hitem hmoved hrest, h' => by
    cases h' with
    | copiesEnd => exact absurd rfl hlimit
    | copiesStop _ hitem' hstops => exact absurd (finds_of_eq (hitem.unique hitem').symm) hstops
    | copiesEmpty _ hitem' hstill =>
      cases hitem.unique hitem'
      exact absurd hstill hmoved
    | copiesNext _ hitem' _ hrest' =>
      cases hitem.unique hitem'
      exact hrest.unique hrest'

theorem Grows.unique {form : Expression S} {site : Site} {scan : Scan Tree M}
    {answer answer' : Answer Tree M (Outcome Tree)} :
    subject.Grows form site scan answer → subject.Grows form site scan answer' → answer = answer'
  | .failed hform hjudged, h' => by
    cases h' with
    | failed hform' hjudged' =>
      cases hform.unique hform'
      cases hjudged.symm.trans hjudged'
      rfl
    | settled hform' hjudged' =>
      cases hform.unique hform'
      cases hjudged.symm.trans hjudged'
    | extended hform' hjudged' _ =>
      cases hform.unique hform'
      cases hjudged.symm.trans hjudged'
  | .settled hform hjudged, h' => by
    cases h' with
    | failed hform' hjudged' =>
      cases hform.unique hform'
      cases hjudged.symm.trans hjudged'
    | settled hform' hjudged' =>
      cases hform.unique hform'
      cases hjudged.symm.trans hjudged'
      rfl
    | extended hform' hjudged' _ =>
      cases hform.unique hform'
      cases hjudged.symm.trans hjudged'
  | .extended hform hjudged hrest, h' => by
    cases h' with
    | failed hform' hjudged' =>
      cases hform.unique hform'
      cases hjudged.symm.trans hjudged'
    | settled hform' hjudged' =>
      cases hform.unique hform'
      cases hjudged.symm.trans hjudged'
    | extended hform' hjudged' hrest' =>
      cases hform.unique hform'
      cases hjudged.symm.trans hjudged'
      exact hrest.unique hrest'

theorem Invokes.unique {rule : RuleId} {scan : Scan Tree M}
    {answer answer' : Answer Tree M (Outcome Tree)} :
    subject.Invokes rule scan answer → subject.Invokes rule scan answer' → answer = answer'
  | .remembered hfind, h' => by
    cases h' with
    | remembered hfind' =>
      cases hfind.symm.trans hfind'
      rfl
    | reentered hfind' => cases hfind.symm.trans hfind'
    | unknown hfree _ => cases hfind.symm.trans hfree
    | tooDeep hfree _ _ => cases hfind.symm.trans hfree
    | activated hfree _ _ _ => cases hfind.symm.trans hfree
  | .reentered hfind, h' => by
    cases h' with
    | remembered hfind' => cases hfind.symm.trans hfind'
    | reentered hfind' =>
      cases hfind.symm.trans hfind'
      rfl
    | unknown hfree _ => cases hfind.symm.trans hfree
    | tooDeep hfree _ _ => cases hfind.symm.trans hfree
    | activated hfree _ _ _ => cases hfind.symm.trans hfree
  | .unknown hfree hbody, h' => by
    cases h' with
    | remembered hfind => cases hfind.symm.trans hfree
    | reentered hfind => cases hfind.symm.trans hfree
    | unknown _ _ => rfl
    | tooDeep _ hbody' _ => cases hbody.symm.trans hbody'
    | activated _ hbody' _ _ => cases hbody.symm.trans hbody'
  | .tooDeep hfree hbody hdepth, h' => by
    cases h' with
    | remembered hfind => cases hfind.symm.trans hfree
    | reentered hfind => cases hfind.symm.trans hfree
    | unknown _ hbody' => cases hbody.symm.trans hbody'
    | tooDeep _ _ _ => rfl
    | activated _ _ hdepth' _ => omega
  | .activated hfree hbody hdepth hgrows, h' => by
    cases h' with
    | remembered hfind => cases hfind.symm.trans hfree
    | reentered hfind => cases hfind.symm.trans hfree
    | unknown _ hbody' => cases hbody.symm.trans hbody'
    | tooDeep _ _ hdepth' => omega
    | activated _ hbody' _ hgrows' =>
      cases hbody.symm.trans hbody'
      rw [hgrows.unique hgrows']

end

end Subject

end LeftPeg
