import LeftPeg.Proofs.Forward
import LeftPeg.Proofs.Resolved
import LeftPeg.Proofs.Tracing
import LeftPeg.Proofs.Unfolding

/-!
# Termination

The runs of `LeftPeg.Invocation` count what is left: room for activations, attempts, copies. None of
these counts is ever seen. The room is what the stack leaves of the depth allowed; the attempts are
enough because each seed ends further to the right than the one before; and a repetition without a
bound is cut off only behind the end of the input, since each copy but the last one moves forward.
So a run comes to what it comes to without counters (`Parser.invokes_iff`), and since that is
something, it ends (`Parser.parse_terminates`).
-/

namespace LeftPeg

open Expression (Trail)

variable {S M : Type} [DecidableEq S]

namespace Course

variable {grammar : Grammar S M} {input : Array S} {invoke : Invoke Tree M}
  {trail trail' : Trail} {scan scan' : Scan Tree M}

/-- What is found ends to the right of where it was looked for, and in the input. -/
theorem span {expression : Expression S}
    (hreliable : Reliable (Genuine grammar input) input.size invoke)
    (h : Course input invoke (.one expression) trail scan (.ok (some trail'), scan'))
    (horderly : scan.Orderly (Genuine grammar input) input.size) :
    scan.position ≤ scan'.position ∧ scan'.position ≤ input.size := by
  cases h.recognised hreliable horderly with
  | found trees honward hderived => exact Derives.span hderived horderly.position_le

end Course

namespace Subject

variable {subject : Subject S M} {invoke : Invoke Tree M} {depth : Nat}

/-- On orderly scans of a given depth, rules are answered as they are without counters. -/
def Follows (subject : Subject S M) (depth : Nat) (invoke : Invoke Tree M) : Prop :=
  ∀ rule scan, scan.Orderly (Genuine subject.grammar subject.input) subject.input.size →
    scan.stack.depth = depth → subject.Invokes rule scan (invoke rule scan)

/-- The course of a task is what looking for it comes to, and a bound on copies that is out of
reach makes no difference. -/
theorem looks_of_course (hfollows : subject.Follows depth invoke)
    (hreliable : Reliable (Genuine subject.grammar subject.input) subject.input.size invoke)
    {task goal : Task S} {trail : Trail} {scan : Scan Tree M} {answer : Answer Tree M (Option Trail)}
    (h : Course subject.input invoke task trail scan answer)
    (horderly : scan.Orderly (Genuine subject.grammar subject.input) subject.input.size)
    (hdepth : scan.stack.depth = depth)
    (hgoal : task.Loosens (subject.input.size - scan.position) goal) :
    subject.Looks goal trail scan answer := by
  -- On the course. What follows on a part begins in order and at the same depth.
  induction h generalizing goal with
  | @found expression trail scan stop hreach =>
    subst hgoal
    obtain ⟨expected, hexpected⟩ := Expression.exists_expected hreach
    have hlooks : subject.Looks (.one expression) trail scan _ := .terminal hexpected
    rwa [hreach] at hlooks
  | @missed expression trail scan expected hexpected hreach =>
    subst hgoal
    have hlooks : subject.Looks (.one expression) trail scan _ := .terminal hexpected
    rwa [hreach] at hlooks
  | unresolved =>
    subst hgoal
    exact .unresolved
  | @rule target trail scan scan' found hinvoke =>
    subst hgoal
    have hinvokes := hfollows target scan horderly hdepth
    rw [hinvoke] at hinvokes
    exact .rule hinvokes
  | @ruleFails target trail scan scan' hinvoke =>
    subst hgoal
    have hinvokes := hfollows target scan horderly hdepth
    rw [hinvoke] at hinvokes
    exact .rule hinvokes
  | @ruleAborts target trail scan scan' error hinvoke =>
    subst hgoal
    have hinvokes := hfollows target scan horderly hdepth
    rw [hinvoke] at hinvokes
    exact .rule hinvokes
  | sequence hitems ih =>
    subst hgoal
    exact .sequence (ih horderly hdepth rfl)
  | choice hitems ih =>
    subst hgoal
    exact .choice (ih horderly hdepth rfl)
  | @repetition item atLeast atMost trail scan answer hcopies ih =>
    subst hgoal
    exact .repetition (ih horderly hdepth (Task.loosens_repetition (by omega)))
  | lookahead hitem ih =>
    subst hgoal
    exact .lookahead (ih horderly hdepth rfl)
  | lookaheadAborts hitem ih =>
    subst hgoal
    exact .lookahead (ih horderly hdepth rfl)
  | tagged hitem ih =>
    subst hgoal
    exact .tagged (ih horderly hdepth rfl)
  | taggedFails hitem ih =>
    subst hgoal
    exact .tagged (ih horderly hdepth rfl)
  | taggedAborts hitem ih =>
    subst hgoal
    exact .tagged (ih horderly hdepth rfl)
  | allNil =>
    subst hgoal
    exact .allNil
  | allCons hitem hrest ihitem ihrest =>
    subst hgoal
    have honward := hitem.onward hreliable horderly
    exact .allCons (ihitem horderly hdepth rfl)
      (ihrest honward.orderly (honward.depth_eq.trans hdepth) rfl)
  | allFails hitem ih =>
    subst hgoal
    exact .allStops (ih horderly hdepth rfl) (fun ⟨_, h⟩ => nomatch h)
  | allAborts hitem ih =>
    subst hgoal
    exact .allStops (ih horderly hdepth rfl) (fun ⟨_, h⟩ => nomatch h)
  | firstNil =>
    subst hgoal
    exact .firstNil
  | firstFound hitem ih =>
    subst hgoal
    exact .firstStops (ih horderly hdepth rfl) (fun h => nomatch h)
  | firstNext hitem hrest ihitem ihrest =>
    subst hgoal
    have honward := hitem.onward hreliable horderly
    exact .firstNext (ihitem horderly hdepth rfl)
      (ihrest honward.orderly (honward.depth_eq.trans hdepth) rfl)
  | firstAborts hitem ih =>
    subst hgoal
    exact .firstStops (ih horderly hdepth rfl) (fun h => nomatch h)
  | copiesEnd =>
    obtain ⟨limit, rfl, hlimit⟩ := hgoal
    rcases hlimit with rfl | ⟨-, hroom⟩
    · exact .copiesEnd
    · exact absurd (hroom 0 rfl) (Nat.not_lt_zero _)
  | copiesStop hitem ih =>
    obtain ⟨limit', rfl, hlimit⟩ := hgoal
    exact .copiesStop (Task.ne_zero_of_loosens hlimit) (ih horderly hdepth rfl)
      (fun ⟨_, h⟩ => nomatch h)
  | copiesEmpty hitem hstill ih =>
    obtain ⟨limit', rfl, hlimit⟩ := hgoal
    exact .copiesEmpty (Task.ne_zero_of_loosens hlimit) (ih horderly hdepth rfl) hstill
  | copiesNext hitem hmoved hrest ihitem ihrest =>
    obtain ⟨limit', rfl, hlimit⟩ := hgoal
    have honward := hitem.onward hreliable horderly
    -- The copy has moved forward, so that less room is left for the others.
    have hspan := hitem.span hreliable horderly
    exact .copiesNext (Task.ne_zero_of_loosens hlimit) (ihitem horderly hdepth rfl) hmoved
      (ihrest honward.orderly (honward.depth_eq.trans hdepth)
        (Task.loosens_copies hlimit (by omega)))
  | copiesAbort hitem ih =>
    obtain ⟨limit', rfl, hlimit⟩ := hgoal
    exact .copiesStop (Task.ne_zero_of_loosens hlimit) (ih horderly hdepth rfl)
      (fun ⟨_, h⟩ => nomatch h)

open Scan Engine

/-- Growth that does not run out of attempts is growth without counters. -/
theorem grows_growUpTo {site : Site} {form : Expression S} {scan : Scan Tree M}
    {a : Activation Tree} (hfollows : subject.Follows (site.slot + 1) invoke)
    (hreliable : Reliable (Genuine subject.grammar subject.input) subject.input.size invoke)
    (hbody : subject.grammar.body? site.rule = some (.expression form)) (limit attempts : Nat)
    (hwork : Working site scan a)
    (horderly : scan.Orderly (Genuine subject.grammar subject.input) subject.input.size)
    (hsettles : (growUpTo (form.toProcedure.run subject.input invoke) site limit attempts scan).1 ≠
      .error (.defect (.unsettledGrowth site.rule site.position limit))) :
    subject.Grows form site scan
      (growUpTo (form.toProcedure.run subject.input invoke) site limit attempts scan) := by
  induction attempts generalizing scan a with
  | zero => exact absurd rfl hsettles
  | succ attempts ih =>
    have hform : subject.Looks (.one form) [] (scan.beginAttempt site) _ :=
      looks_of_course hfollows hreliable (course_recognise form [] _)
        (hwork.beginAttempt horderly) hwork.depth_eq rfl
    have hrun : form.toProcedure.run subject.input invoke (scan.beginAttempt site) =
        bodyAnswer site.position _ := run_toProcedure form invoke (scan.beginAttempt site)
    unfold growUpTo at hsettles ⊢
    cases hattempt : form.toProcedure.run subject.input invoke (scan.beginAttempt site) with
    | mk result scan₁ =>
    rw [hattempt] at hsettles
    cases result with
    | error error => exact .failed hform (by rw [← hrun, hattempt]; rfl)
    | ok attempt =>
      dsimp only at hsettles ⊢
      have hjudged : judge site (bodyAnswer site.position
          ((form.recognise []).run subject.input invoke (scan.beginAttempt site))) =
          scan₁.settle site attempt := by
        rw [← hrun, hattempt]
        rfl
      rcases hsettle : scan₁.settle site attempt with ⟨error | _ | outcome, scan₂⟩
      · exact .failed hform (hjudged.trans hsettle)
      -- The next round begins in order, with the same activation at work.
      · obtain ⟨found, hgrown⟩ := round_grown genuine_spanned
          (dependable_toProcedure hbody hreliable) hwork horderly hattempt hsettle
        obtain ⟨b, hwork', -⟩ := hgrown.growing
        rw [hsettle] at hsettles
        exact .extended hform (hjudged.trans hsettle) (ih hwork' hgrown.orderly hsettles)
      · exact .settled hform (hjudged.trans hsettle)

end Subject

namespace Parser

open Scan Engine

variable {parser : Parser S M}

/-- What the parses of an input are about. -/
def subject (parser : Parser S M) (input : Array S) : Subject S M where
  grammar := parser.grammar
  input
  maxDepth := parser.config.maxDepth

/-- An answer from the table is the same without counters, and so is one found by evaluating. -/
theorem invokes_answer (hforms : parser.grammar.OfExpressions) (input : Array S)
    {evaluate : RuleId → Procedure S Tree M (Outcome Tree) → Scan Tree M →
      Answer Tree M (Outcome Tree)} {rule : RuleId} {scan : Scan Tree M}
    (hevaluate : ∀ form : Expression S, scan.memo.find? rule scan.position = none →
      parser.grammar.body? rule = some (.expression form) →
      (parser.subject input).Invokes rule scan (evaluate rule form.toProcedure scan)) :
    (parser.subject input).Invokes rule scan
      ((parser.engine input).answer evaluate rule scan) := by
  unfold answer
  cases hfind : scan.memo.find? rule scan.position with
  | some entry =>
    cases entry with
    | finished outcome => exact .remembered hfind
    | inProgress slot => exact .reentered hfind
  | none =>
    dsimp only
    cases hbody : (parser.engine input).body? rule with
    | none => exact .unknown hfind (Option.map_eq_none_iff.mp hbody)
    | some body =>
      obtain ⟨form, rfl, hform⟩ := body?_engine hforms hbody
      exact hevaluate form hfind hform

/-- Growth comes to an answer in time, since no activation ends with a defect. -/
theorem growUpTo_ne_defect (hforms : parser.grammar.OfExpressions) (input : Array S) (room : Nat)
    {rule : RuleId} {scan : Scan Tree M} {form : Expression S}
    (hform : parser.grammar.body? rule = some (.expression form))
    (horderly : scan.Orderly (Genuine parser.grammar input) input.size)
    (hfree : scan.memo.find? rule scan.position = none) (cause : Defect) :
    (growUpTo (form.toProcedure.run input ((parser.engine input).invokeWithin room))
      (siteOf rule scan) ((parser.engine input).attemptLimit scan.position)
      ((parser.engine input).attemptLimit scan.position) (scan.enter (siteOf rule scan))).1 ≠
      .error (.defect cause) := by
  have hcomes : Comes (Genuine parser.grammar input) input.size rule scan
      ((parser.engine input).activate ((parser.engine input).invokeWithin room) rule
        form.toProcedure scan) :=
    ((parser.engine input).activate_spec genuine_spanned
      (dependable_toProcedure hform (engine_reliable hforms input room)) horderly hfree).1
  have hsame : ((parser.engine input).activate ((parser.engine input).invokeWithin room) rule
      form.toProcedure scan).1 = _ :=
    (activate_balanced ((parser.engine input).invokeWithin_balanced room)
      fun _ _ _ => horderly.owned).2
  intro hcause
  have hdefect := hsame.trans hcause
  generalize (parser.engine input).activate ((parser.engine input).invokeWithin room) rule
    form.toProcedure scan = answer at hcomes hdefect
  cases hcomes with
  | error hsound _ => exact hsound cause (Except.error.inj hdefect)
  | ok => exact nomatch hdefect

/-- The room for activations is what the stack leaves of the depth allowed, and it is the only
thing that a run can be cut short by. -/
theorem follows_invokeWithin (hforms : parser.grammar.OfExpressions) (input : Array S)
    {room depth : Nat} (hroom : room + depth = parser.config.maxDepth) :
    (parser.subject input).Follows depth ((parser.engine input).invokeWithin room) := by
  induction room generalizing depth with
  | zero =>
    intro rule scan horderly hdepth
    refine invokes_answer hforms input fun form hfree hform => .tooDeep hfree hform ?_
    show parser.config.maxDepth ≤ scan.stack.depth
    omega
  | succ room ih =>
    intro rule scan horderly hdepth
    refine invokes_answer hforms input fun form hfree hform => ?_
    obtain ⟨hentered, hwork⟩ := working_enter horderly hfree
    rw [activate_eq]
    refine .activated hfree hform ?_
      (Subject.grows_growUpTo ?_ (engine_reliable hforms input room) hform _ _ hwork hentered ?_)
    · show scan.stack.depth < parser.config.maxDepth
      omega
    · show (parser.subject input).Follows (scan.stack.depth + 1) _
      exact ih (by omega)
    · exact growUpTo_ne_defect hforms input room hform horderly hfree _

/-- The run of a parse comes to one thing without counters, and that is what it comes to. -/
theorem invokes_iff (parser : Parser S M) (hforms : parser.grammar.OfExpressions) (input : Array S) (rule : RuleId)
    {start : Nat} (hstart : start ≤ input.size) (memory : M)
    (answer : Answer Tree M (Outcome Tree)) :
    (parser.subject input).Invokes rule (parser.firstScan input.size rule start memory) answer ↔
      answer = (parser.engine input).invoke rule
        (parser.firstScan input.size rule start memory) := by
  have hfollows : (parser.subject input).Follows 0 (parser.engine input).invoke :=
    follows_invokeWithin hforms input rfl
  have hinvokes := hfollows rule (parser.firstScan input.size rule start memory)
    (parser.orderly_firstScan hstart _ _ _) rfl
  constructor
  · exact fun h => h.unique hinvokes
  · rintro rfl
    exact hinvokes

/-- What a parse comes to without counters. -/
inductive ParsesTo (parser : Parser S M) (input : Array S) (rule : RuleId) (options : Options)
    (memory : M) : Parse S M → Prop where
  | refused (hrule : parser.grammar.size ≤ rule.index) :
      ParsesTo parser input rule options memory
        { result := .error (.unknownRule rule.display), parser, memory, events := [] }
  | outOfBounds (hrule : rule.index < parser.grammar.size)
      (hstart : input.size < options.start?.getD 0) :
      ParsesTo parser input rule options memory
        { result := .error (.startOutOfBounds (options.start?.getD 0) input.size)
          parser := { parser with ledger := parser.ledger.reset }
          memory, events := [] }
  | ran {answer : Answer Tree M (Outcome Tree)} (hrule : rule.index < parser.grammar.size)
      (hstart : options.start?.getD 0 ≤ input.size)
      (hinvokes : (parser.subject input).Invokes rule
        (parser.firstScan input.size rule (options.start?.getD 0) memory) answer) :
      ParsesTo parser input rule options memory (parser.close options input.size answer)

/-- Whatever the grammar of expressions, the input and the depth allowed, a parse without counters
comes to one thing and to no other, which is what the parse comes to. In particular, no growth is
ever cut short. -/
theorem parse_terminates (parser : Parser S M) (hforms : parser.grammar.OfExpressions)
    (input : Array S) (rule : RuleId) (options : Options) (memory : M) :
    (∀ parse, parser.ParsesTo input rule options memory parse ↔
      parse = parser.parse input rule options memory) ∧
    ∀ rule' position limit, (parser.parse input rule options memory).result ≠
      .error (.defect (.unsettledGrowth rule' position limit)) := by
  refine ⟨fun parse => ⟨fun h => ?_, ?_⟩, fun rule' position limit =>
    parser.result_ne_defect hforms input rule options memory _⟩
  · cases h with
    | refused hrule => rw [parser.parse_of_size_le input options memory hrule]
    | outOfBounds hrule hstart => rw [parser.parse_of_lt_start input options memory hrule hstart]
    | ran hrule hstart hinvokes =>
      rw [parser.parse_eq_close input options memory hrule hstart,
        (parser.invokes_iff hforms input rule hstart memory _).mp hinvokes]
  · rintro rfl
    by_cases hrule : rule.index < parser.grammar.size
    · by_cases hstart : options.start?.getD 0 ≤ input.size
      · rw [parser.parse_eq_close input options memory hrule hstart]
        exact .ran hrule hstart ((parser.invokes_iff hforms input rule hstart memory _).mpr rfl)
      · rw [parser.parse_of_lt_start input options memory hrule (by omega)]
        exact .outOfBounds hrule (by omega)
    · rw [parser.parse_of_size_le input options memory (by omega)]
      exact .refused (by omega)

end Parser

/-- Two rules that lead to each other and consume nothing on the way, and a repetition of a
repetition of nothing. -/
def Grammar.idle : Grammar Char Unit :=
  ⟨[⟨"to", .expression (.choice [.rule ⟨1⟩, .zeroOrMore (.zeroOrMore (Expression.text ""))])⟩,
    ⟨"fro", .expression (.sequence [.rule ⟨0⟩, .rule ⟨1⟩])⟩]⟩

theorem Grammar.idle_ofExpressions : Grammar.idle.OfExpressions := by
  intro rule hrule
  simp only [idle, List.mem_cons, List.not_mem_nil, or_false] at hrule
  rcases hrule with rfl | rfl <;> exact ⟨_, rfl⟩

/-- All the same, a parse with it ends, with an empty match. -/
theorem Parser.parse_terminates_idle :
    let parser := new Grammar.idle {}
    let parse := parser.parse #['x'] ⟨0⟩ { wholeInput := false } ()
    Grammar.idle.OfExpressions ∧
      parser.ParsesTo #['x'] ⟨0⟩ { wholeInput := false } () parse ∧
      parse.result.toOption.map Match.stop = some 0 := by
  intro parser parse
  have hterminates := (parser.parse_terminates Grammar.idle_ofExpressions #['x'] ⟨0⟩
    { wholeInput := false } ()).1 parse
  exact ⟨Grammar.idle_ofExpressions, hterminates.mpr rfl, by decide +kernel⟩

end LeftPeg
