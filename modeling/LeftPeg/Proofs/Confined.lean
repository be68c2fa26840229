import LeftPeg.Proofs.Forward
import LeftPeg.Proofs.Reports
import LeftPeg.Proofs.Transparency

/-!
# Where terminals fail

A parse that starts in the middle of its input has no business with what is to the left of it. The
expressions of a grammar look for terminals only from where they start, and nothing that a run does
with their outcomes takes it back behind that: all failures of a run lie between the start of the
parse and the end of the input (`Scan.Confined`, and `Engine.invokeWithin_confined` for runs).

What a parse reports is the rightmost of them. The exception is a parse that failed without the
failure of any terminal: its account is empty, and an empty account is one at position `0`, wherever
the parse has started (`Parser.parse_fails_within`).
-/

namespace LeftPeg

open Expression (Trail)

/-- The rightmost position is that of a failure. -/
theorem FailureLog.exists_furthest {log : FailureLog} (h : log ≠ []) :
    ∃ failure ∈ log, failure.1 = log.furthest := by
  have hexpected : log.expectedAt log.furthest ≠ [] :=
    mt FailureLog.expectedAt_furthest_eq_nil_iff.mp h
  obtain ⟨description, hmem⟩ := List.exists_mem_of_ne_nil _ hexpected
  exact ⟨_, FailureLog.mem_expectedAt_iff.mp hmem, rfl⟩

namespace Scan

variable {V M : Type} {scan scan' : Scan V M} {site : Site} {start size : Nat}

/-- All failures so far lie between the two positions. -/
def Confined (start size : Nat) (scan : Scan V M) : Prop :=
  ∀ failure ∈ scan.failureLog, start ≤ failure.1 ∧ failure.1 ≤ size

theorem Confined.of_failureLog_eq (h : scan.Confined start size)
    (hlog : scan'.failureLog = scan.failureLog) : scan'.Confined start size := by
  unfold Confined
  rw [hlog]
  exact h

theorem Confined.record (h : scan.Confined start size) {event : Event}
    (hother : event.failure? = none) : (scan.record event).Confined start size := by
  refine h.of_failureLog_eq ?_
  rw [failureLog_record, hother, Option.toList_none, List.append_nil]

/-- A terminal fails where the run is. -/
theorem Confined.miss (h : scan.Confined start size) (hstart : start ≤ scan.position)
    (hsize : scan.position ≤ size) (expected : String) :
    (scan.miss expected).Confined start size := by
  intro failure hmem
  rw [Scan.miss, failureLog_record, List.mem_append] at hmem
  rcases hmem with hmem | hmem
  · exact h failure hmem
  · rw [Event.failure?, Option.toList_some, List.mem_singleton] at hmem
    rw [hmem]
    exact ⟨hstart, hsize⟩

/-! Beside the misses, no step of a run adds to the log. -/

theorem Confined.reenter (h : scan.Confined start size) (site : Site) :
    (scan.reenter site).2.Confined start size := by
  unfold Scan.reenter
  split
  · exact Confined.record h rfl
  · exact h

theorem Confined.enter (h : scan.Confined start size) (site : Site) :
    (scan.enter site).Confined start size :=
  Confined.record h rfl

theorem Confined.settle (h : scan.Confined start size) (site : Site) (attempt : Outcome V) :
    (scan.settle site attempt).2.Confined start size := by
  have hledger : ∀ {scan : Scan V M} (ledger : Ledger V), scan.Confined start size →
      Confined start size { scan with toLedger := ledger } := fun _ => id
  exact settle_keeps (Confined start size) (fun _ => h) (fun _ _ => Confined.record h rfl)
    (fun _ _ => id) (fun _ _ => id) (fun _ _ => id) (fun _ => hledger _) (fun _ => hledger _)
    (fun _ _ h => h.record rfl) (fun _ h => h.record rfl)

theorem Confined.release {answer : Answer V M (Outcome V)} (h : answer.2.Confined start size)
    (site : Site) : (Scan.release site answer).2.Confined start size := by
  obtain ⟨error | outcome, scan⟩ := answer
  · obtain ⟨memo, hdrop⟩ := exists_dropMarker scan site
    obtain ⟨stack, hpop⟩ := exists_pop (scan.dropMarker site)
    show (scan.dropMarker site).pop.2.Confined start size
    rw [hpop, hdrop]
    exact h
  · obtain ⟨stack, hstack⟩ := exists_pop scan
    rcases hpop : scan.pop with ⟨defect | slot, scan'⟩ <;>
      obtain rfl : scan' = _ := (congrArg Prod.snd hpop).symm.trans hstack
    · simp only [Scan.release, hpop]
      exact h
    · simp only [Scan.release, hpop]
      split <;> exact h

end Scan

/-! ## Expressions -/

/-- A way to answer invocations that logs no failure to the left of `start` or to the right of the
input, wherever it is asked from `start` on. -/
def Invoke.Confined {M : Type} (kept : RuleId → Nat → Outcome Tree → Prop) (start size : Nat)
    (invoke : Invoke Tree M) : Prop :=
  ∀ rule scan, scan.Orderly kept size → start ≤ scan.position → scan.Confined start size →
    (invoke rule scan).2.Confined start size

section

variable {S M : Type} [DecidableEq S] {grammar : Grammar S M} {input : Array S}
  {invoke : Invoke Tree M} {start : Nat}

omit [DecidableEq S] in
theorem confined_rewind {position : Nat} {answer : Answer Tree M (Option Trail)}
    (h : answer.2.Confined start input.size) :
    (rewind position answer).2.Confined start input.size := by
  rcases answer with ⟨error | _ | trail, scan⟩ <;> exact h

/-- An expression never ends to the left of where it began. -/
theorem Course.le_position (hinvoke : Reliable (Genuine grammar input) input.size invoke)
    {expression : Expression S} {trail : Trail} {scan scan' : Scan Tree M} {found : Option Trail}
    (h : Course input invoke (.one expression) trail scan (.ok found, scan'))
    (horderly : scan.Orderly (Genuine grammar input) input.size) :
    scan.position ≤ scan'.position := by
  cases found with
  | none => exact Nat.le_of_eq (h.position_of_none rfl).symm
  | some trail' =>
    cases h.recognised hinvoke horderly with
    | found trees honward hderived => exact (hderived.span horderly.position_le).1

/-- Looking for a task logs no failure to the left of where it began. -/
theorem Course.confined (hinvoke : Reliable (Genuine grammar input) input.size invoke)
    (hconfined : invoke.Confined (Genuine grammar input) start input.size) {task : Task S}
    {trail : Trail} {scan : Scan Tree M} {answer : Answer Tree M (Option Trail)}
    (h : Course input invoke task trail scan answer)
    (horderly : scan.Orderly (Genuine grammar input) input.size) (hstart : start ≤ scan.position)
    (hscan : scan.Confined start input.size) : answer.2.Confined start input.size := by
  have hrule : ∀ {target : RuleId} {scan : Scan Tree M} {answer : Answer Tree M (Outcome Tree)},
      invoke target scan = answer → scan.Orderly (Genuine grammar input) input.size →
      start ≤ scan.position → scan.Confined start input.size →
      answer.2.Confined start input.size := by
    rintro target scan _ rfl
    exact hconfined target scan
  -- On the course. What follows on an item begins in order, and not to the left of it.
  induction h with
  | found hreach => exact hscan
  | missed hexpected hreach => exact hscan.miss hstart horderly.position_le _
  | unresolved => exact hscan
  | rule hrun => exact hrule hrun horderly hstart hscan
  | ruleFails hrun => exact hrule hrun horderly hstart hscan
  | ruleAborts hrun => exact hrule hrun horderly hstart hscan
  | sequence hitems ih => exact confined_rewind (ih horderly hstart hscan)
  | choice hitems ih => exact confined_rewind (ih horderly hstart hscan)
  | repetition hcopies ih => exact confined_rewind (ih horderly hstart hscan)
  | lookahead hitem ih => exact ih horderly hstart hscan
  | lookaheadAborts hitem ih => exact ih horderly hstart hscan
  | tagged hitem ih => exact ih horderly hstart hscan
  | taggedFails hitem ih => exact ih horderly hstart hscan
  | taggedAborts hitem ih => exact ih horderly hstart hscan
  | allNil => exact hscan
  | allCons hitem hrest ihitem ihrest =>
    exact ihrest (hitem.onward hinvoke horderly).orderly
      (Nat.le_trans hstart (hitem.le_position hinvoke horderly)) (ihitem horderly hstart hscan)
  | allFails hitem ih => exact ih horderly hstart hscan
  | allAborts hitem ih => exact ih horderly hstart hscan
  | firstNil => exact hscan
  | firstFound hitem ih => exact ih horderly hstart hscan
  | firstNext hitem hrest ihitem ihrest =>
    exact ihrest (hitem.onward hinvoke horderly).orderly
      (Nat.le_trans hstart (hitem.le_position hinvoke horderly)) (ihitem horderly hstart hscan)
  | firstAborts hitem ih => exact ih horderly hstart hscan
  | copiesEnd => exact hscan
  | copiesStop hitem ih => exact ih horderly hstart hscan
  | copiesEmpty hitem hstill ih => exact ih horderly hstart hscan
  | copiesNext hitem hmoved hrest ihitem ihrest =>
    exact ihrest (hitem.onward hinvoke horderly).orderly
      (Nat.le_trans hstart (hitem.le_position hinvoke horderly)) (ihitem horderly hstart hscan)
  | copiesAbort hitem ih => exact ih horderly hstart hscan

/-- So does an expression that is the body of a rule. -/
theorem Expression.confined_toProcedure
    (hinvoke : Reliable (Genuine grammar input) input.size invoke)
    (hconfined : invoke.Confined (Genuine grammar input) start input.size) (form : Expression S)
    {scan : Scan Tree M} (horderly : scan.Orderly (Genuine grammar input) input.size)
    (hstart : start ≤ scan.position) (hscan : scan.Confined start input.size) :
    (form.toProcedure.run input invoke scan).2.Confined start input.size := by
  rw [run_toProcedure]
  have hcourse := (course_recognise form [] scan).confined hinvoke hconfined horderly hstart hscan
  rcases hrun : (form.recognise []).run input invoke scan with ⟨error | _ | trail, scan'⟩ <;>
    rw [hrun] at hcourse <;> exact hcourse

end

/-! ## Runs -/

namespace Engine

open Scan

variable {S M : Type} [DecidableEq S] {kept : RuleId → Nat → Outcome Tree → Prop}
  {start size : Nat} {site : Site} {evaluate : Scan Tree M → Answer Tree M (Outcome Tree)}

omit [DecidableEq S] in
/-- Growth logs what the attempts log, and they all begin where the activation began. -/
theorem confined_growUpTo (hspan : Spanned kept size)
    (hevaluate : Dependable kept size site.rule evaluate)
    (hconfined : ∀ scan, scan.Orderly kept size → start ≤ scan.position →
      scan.Confined start size → (evaluate scan).2.Confined start size)
    (hstart : start ≤ site.position) (limit attempts : Nat) {scan : Scan Tree M}
    {a : Activation Tree} (hwork : Working site scan a) (horderly : scan.Orderly kept size)
    (hscan : scan.Confined start size) :
    (growUpTo evaluate site limit attempts scan).2.Confined start size := by
  have hattempt : ∀ {scan : Scan Tree M} {a : Activation Tree}, Working site scan a →
      scan.Orderly kept size → scan.Confined start size →
      (evaluate (scan.beginAttempt site)).2.Confined start size := by
    intro scan a hwork horderly hscan
    exact hconfined _ (hwork.beginAttempt horderly) hstart hscan
  obtain ⟨left, scan', hrounds, hends⟩ := exists_ends evaluate site limit attempts scan
  have hround : scan'.Orderly kept size ∧ scan'.Confined start size ∧ ∃ b, Working site scan' b := by
    refine hrounds.keeps (fun scan => scan.Orderly kept size ∧ scan.Confined start size ∧
      ∃ b, Working site scan b) ?_ ⟨horderly, hscan, a, hwork⟩
    rintro scan scan₁ scan₂ attempt ⟨horderly, hscan, b, hwork⟩ hrun hsettle
    obtain ⟨found, hgrown⟩ := round_grown hspan hevaluate hwork horderly hrun hsettle
    have hevaluated := hattempt hwork horderly hscan
    rw [hrun] at hevaluated
    have hsettled := hevaluated.settle site attempt
    rw [hsettle] at hsettled
    exact ⟨hgrown.orderly, hsettled, hgrown.growing.imp fun _ h => h.1⟩
  obtain ⟨horderly', hscan', b, hwork'⟩ := hround
  have hlast := hattempt hwork' horderly' hscan'
  generalize growUpTo evaluate site limit attempts scan = answer at hends ⊢
  cases hends with
  | unsettled => exact hscan'
  | aborted hrun =>
    rw [hrun] at hlast
    exact hlast
  | @undecided _ _ _ _ attempt _ hrun hsettle =>
    rw [hrun] at hlast
    have hsettled := hlast.settle site attempt
    rwa [hsettle] at hsettled
  | @settled _ _ _ _ attempt _ hrun hsettle =>
    rw [hrun] at hlast
    have hsettled := hlast.settle site attempt
    rwa [hsettle] at hsettled

/-- An invocation in the run of a parse of expressions logs no failure to the left of where it was
made. -/
theorem invokeWithin_confined {parser : Parser S M} (hforms : parser.grammar.OfExpressions)
    (input : Array S) (start room : Nat) :
    ((parser.engine input).invokeWithin room).Confined (Genuine parser.grammar input) start
      input.size := by
  have hanswer : ∀ {evaluate : RuleId → Procedure S Tree M (Outcome Tree) → Scan Tree M →
      Answer Tree M (Outcome Tree)} {rule : RuleId} {scan : Scan Tree M},
      scan.Confined start input.size →
      (∀ body, scan.memo.find? rule scan.position = none →
        (parser.engine input).body? rule = some body →
        (evaluate rule body scan).2.Confined start input.size) →
      ((parser.engine input).answer evaluate rule scan).2.Confined start input.size := by
    intro evaluate rule scan hscan hevaluate
    unfold Engine.answer
    split
    · exact hscan
    · exact hscan.reenter _
    · rename_i hfree
      split
      · exact hscan
      · exact hevaluate _ hfree ‹_›
  -- On the room: the body of an activation makes its invocations with less of it.
  induction room with
  | zero => exact fun rule scan horderly hstart hscan => hanswer hscan fun _ _ _ => hscan
  | succ room ih =>
    intro rule scan horderly hstart hscan
    refine hanswer hscan fun body hfree hbody => ?_
    obtain ⟨form, rfl, hform⟩ := Parser.body?_engine hforms hbody
    have hreliable := Parser.engine_reliable hforms input room
    obtain ⟨hentered, hwork⟩ := working_enter horderly hfree
    rw [activate_eq]
    exact (confined_growUpTo genuine_spanned (dependable_toProcedure hform hreliable)
      (fun scan => form.confined_toProcedure hreliable ih) hstart _ _ hwork hentered
      (hscan.enter _)).release _

end Engine

/-! ## Parses -/

namespace Parser

variable {S M : Type} [DecidableEq S] {parser : Parser S M} {input : Array S} {rule : RuleId}
  {options : Options} {memory : M}

/-- All terminals that fail in a parse fail between its start and the end of the input. -/
theorem failureLog_confined (hforms : parser.grammar.OfExpressions) {failure : Nat × String}
    (h : failure ∈ (parser.parse input rule options memory).failureLog) :
    options.start?.getD 0 ≤ failure.1 ∧ failure.1 ≤ input.size := by
  by_cases hrule : rule.index < parser.grammar.size
  · by_cases hstart : options.start?.getD 0 ≤ input.size
    · have hconfined := Engine.invokeWithin_confined hforms input (options.start?.getD 0)
        parser.config.maxDepth rule
        (parser.firstScan input.size rule (options.start?.getD 0) memory)
        (parser.orderly_firstScan hstart _ _ _) (Nat.le_refl _)
        (fun failure hmem => nomatch hmem)
      rw [parser.parse_eq_close input options memory hrule hstart] at h
      -- The last event of a run is no failure.
      generalize hrun : (parser.engine input).invoke rule
        (parser.firstScan input.size rule (options.start?.getD 0) memory) = answer at h
      have hanswered : answer.2.Confined (options.start?.getD 0) input.size := hrun ▸ hconfined
      obtain ⟨error | outcome, scan⟩ := answer
      · exact Scan.Confined.record hanswered rfl failure h
      · exact Scan.Confined.record hanswered rfl failure h
    · rw [parser.parse_of_lt_start input options memory hrule (by omega)] at h
      cases h
  · rw [parser.parse_of_size_le input options memory (by omega)] at h
    cases h

/-- An error that names a position is one that a parse concludes with. -/
theorem exists_outcome_of_failureIndex? (hforms : parser.grammar.OfExpressions) {error : ParseError}
    {index : Nat} (hresult : (parser.parse input rule options memory).result = .error error)
    (hindex : error.failureIndex? = some index) :
    options.start?.getD 0 ≤ input.size ∧ ∃ outcome,
      parser.outcome? input rule options memory = some outcome ∧
      Genuine parser.grammar input rule (options.start?.getD 0) outcome := by
  by_cases hrule : rule.index < parser.grammar.size
  · by_cases hstart : options.start?.getD 0 ≤ input.size
    · refine ⟨hstart, ?_⟩
      have hcomes := parser.comes_firstScan hforms input rule hstart memory
      unfold outcome?
      rw [if_pos ⟨hrule, hstart⟩]
      rw [parser.parse_eq_close input options memory hrule hstart] at hresult
      rcases hrun : (parser.engine input).invoke rule
        (parser.firstScan input.size rule (options.start?.getD 0) memory) with
          ⟨error' | outcome, scan⟩ <;> rw [hrun] at hcomes hresult
      -- A run that is ended early says nothing of the input.
      · obtain rfl : error' = error := Except.error.inj hresult
        have hsound := isInputFault_of_run hforms hrun
        cases error' <;> cases hindex <;> cases hsound
      · cases hcomes with
        | ok horderly hdepth hundisturbed hkept => exact ⟨outcome, rfl, hkept⟩
    · rw [parser.parse_of_lt_start input options memory hrule (by omega)] at hresult
      obtain rfl := Except.error.inj hresult
      cases hindex
  · rw [parser.parse_of_size_le input options memory (by omega)] at hresult
    obtain rfl := Except.error.inj hresult
    cases hindex

/-- In a parse of a grammar of expressions, terminals fail only between its start and the end of the
input, and that is where an error about the input points to. The only other error is that of a start
rule which failed without the failure of any terminal: it points to the beginning of the input, with
nothing that was expected there. -/
theorem parse_fails_within (parser : Parser S M) (hforms : parser.grammar.OfExpressions)
    (input : Array S) (rule : RuleId) (options : Options) (memory : M) :
    let parse := parser.parse input rule options memory
    let start := options.start?.getD 0
    (∀ failure ∈ parse.failureLog, start ≤ failure.1 ∧ failure.1 ≤ input.size) ∧
    ∀ error index, parse.result = .error error → error.failureIndex? = some index →
      index ≤ input.size ∧
        (start ≤ index ∨ parse.failureLog = [] ∧ error = .noMatch 0 []) := by
  intro parse start
  have hlog : ∀ failure ∈ parse.failureLog, start ≤ failure.1 ∧ failure.1 ≤ input.size :=
    fun failure => failureLog_confined hforms
  refine ⟨hlog, fun error index hresult hindex => ?_⟩
  obtain ⟨hstart, outcome, houtcome, hgenuine⟩ :=
    exists_outcome_of_failureIndex? hforms hresult hindex
  -- The rightmost position of the log is one of the log, unless there is none.
  have hfurthest : parse.failureLog ≠ [] →
      start ≤ parse.failureLog.furthest ∧ parse.failureLog.furthest ≤ input.size := by
    intro hne
    obtain ⟨failure, hmem, hfurthest⟩ := FailureLog.exists_furthest hne
    rw [← hfurthest]
    exact hlog failure hmem
  have hconclude := (result_of_outcome? houtcome).symm.trans hresult
  cases outcome with
  | failure =>
    have herror : noMatch parse.failureLog.report input.size = error := Except.error.inj hconclude
    rw [noMatch_report] at herror
    by_cases hempty : parse.failureLog = []
    · rw [hempty, if_neg fun h => h.1 rfl] at herror
      subst herror
      obtain rfl : 0 = index := Option.some.inj hindex
      exact ⟨Nat.zero_le _, .inr ⟨hempty, rfl⟩⟩
    · have hreached : parse.failureLog.furthest = index := by
        subst herror
        split at hindex <;> exact Option.some.inj hindex
      rw [← hreached]
      exact ⟨(hfurthest hempty).2, .inl (hfurthest hempty).1⟩
  | success found =>
    have hspan := genuine_spanned hgenuine
    unfold conclude at hconclude
    dsimp only at hconclude
    split at hconclude
    · obtain rfl := Except.error.inj hconclude
      rw [unconsumed_report] at hindex
      obtain rfl : max found.stop parse.failureLog.furthest = index := Option.some.inj hindex
      refine ⟨Nat.max_le.mpr ⟨hspan.2, ?_⟩, .inl (Nat.le_trans hspan.1 (Nat.le_max_left _ _))⟩
      by_cases hempty : parse.failureLog = []
      · rw [hempty]
        exact Nat.zero_le _
      · exact (hfurthest hempty).2
    · cases hconclude

/-- No letter stands at the second place, and the error says so. -/
theorem parse_fails_within_ells :
    let parse := (new Grammar.ells {}).parse #['x', 'x'] ⟨0⟩ { start? := some 1 } ()
    Grammar.ells.OfExpressions ∧ parse.result.map Match.stop = .error (.noMatch 1 ["\"l\""]) ∧
    (∀ failure ∈ parse.failureLog, 1 ≤ failure.1 ∧ failure.1 ≤ 2) ∧
    ∀ error index, parse.result = .error error → error.failureIndex? = some index →
      index ≤ 2 ∧ (1 ≤ index ∨ parse.failureLog = [] ∧ error = .noMatch 0 []) :=
  ⟨Grammar.ells_ofExpressions, by decide +kernel,
    (new Grammar.ells {}).parse_fails_within Grammar.ells_ofExpressions #['x', 'x'] ⟨0⟩
      { start? := some 1 } ()⟩

end Parser

/-- A rule without alternatives, which fails and looks for nothing. -/
def Grammar.futile : Grammar Char Unit :=
  ⟨[⟨"a", .expression (.choice [])⟩]⟩

/-- Started at the end of the input, the rule fails there, but its error points to the beginning. -/
theorem Parser.parse_fails_before_start :
    Grammar.futile.OfExpressions ∧ ∃ error index,
      ((Parser.new Grammar.futile {}).parse #['x'] ⟨0⟩ { start? := some 1 } ()).result =
        .error error ∧
      error.failureIndex? = some index ∧ ¬ (1 ≤ index ∧ index ≤ 1) := by
  refine ⟨fun rule hrule => ?_, .noMatch 0 [], 0, ?_, rfl, by decide⟩
  · rw [List.mem_singleton.mp hrule]
    exact ⟨_, rfl⟩
  · have hresult : ((Parser.new Grammar.futile {}).parse #['x'] ⟨0⟩ { start? := some 1 }
        ()).result.map Match.stop = .error (.noMatch 0 []) := by
      decide +kernel
    cases hparse : ((Parser.new Grammar.futile {}).parse #['x'] ⟨0⟩ { start? := some 1 }
      ()).result with
    | error error =>
      rw [hparse] at hresult
      exact congrArg _ (Except.error.inj hresult)
    | ok found =>
      rw [hparse] at hresult
      cases hresult

end LeftPeg
