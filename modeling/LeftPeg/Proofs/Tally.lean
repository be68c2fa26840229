import LeftPeg.Proofs.Growth
import LeftPeg.Proofs.Log
import LeftPeg.Proofs.Once

/-!
# Counters and record agree

The metrics of a parse are counted while it runs, each at its own place: an evaluation before the
body is evaluated, a growth after the attempt has been decided on, a recursion where it is met. The
record has the attempt in between, and the activation before all that. So in the middle of a run the
numbers do not agree: what is missing from the record is the attempts that are being evaluated, and
among the activations those that have not settled. `Tally` says by how much they differ.

As long as no invocation ends with an error, each activation evens out in the end what it has left
open (`Engine.Untroubled.tallied`). At the end of a parse nothing is open, and its log can be checked
against its metrics (`Parser.parse_tallies`).
-/

namespace LeftPeg

variable {S V M : Type}

/-! ## The tally -/

/-- The counters agree with the record, where as many attempts as `evaluating` have been counted but
not been decided on, and as many activations as `live` have not settled. -/
structure Counted (metrics : Metrics) (history : List Event) (evaluating live : Nat) : Prop where
  evaluations_eq : metrics.evaluations =
    history.countP (Event.isAttempt fun _ => true) + evaluating
  growths_eq : metrics.growths = history.countP (Event.isAttempt (· = .grow))
  recursions_eq : metrics.recursions = history.countP Event.isReentry
  activations_eq : history.countP Event.isStart =
    history.countP (Event.isAttempt (· ≠ .grow)) + live

namespace Counted

variable {metrics : Metrics} {history : List Event} {evaluating live : Nat} {event : Event}
  {rule : RuleId} {position slot : Nat} {stage : Stage} {verdict : Verdict}
  {attempt? best? : Option Nat}

/-- Events of other kinds are not counted. -/
theorem other (h : Counted metrics history evaluating live)
    (hattempt : ∀ p, event.isAttempt p = false) (hreentry : event.isReentry = false)
    (hstart : event.isStart = false) : Counted metrics (event :: history) evaluating live := by
  constructor <;> simp only [List.countP_cons, hattempt, hreentry, hstart]
  · exact h.evaluations_eq
  · exact h.growths_eq
  · exact h.recursions_eq
  · exact h.activations_eq

/-- An attempt that has extended the match is a growth more, and another one may follow. -/
theorem grow (h : Counted metrics history (evaluating + 1) live) :
    Counted { metrics with growths := metrics.growths + 1 }
      (.attempted rule position slot stage .grow attempt? best? :: history) evaluating live := by
  have hevaluations := h.evaluations_eq
  constructor <;> simp only [List.countP_cons, Event.isAttempt, Event.isReentry, Event.isStart]
  · simp
    omega
  · simp [h.growths_eq]
  · simp [h.recursions_eq]
  · simpa using h.activations_eq

/-- Any other attempt settles its activation. -/
theorem settle (h : Counted metrics history (evaluating + 1) (live + 1))
    (hverdict : verdict ≠ .grow) :
    Counted metrics (.attempted rule position slot stage verdict attempt? best? :: history)
      evaluating live := by
  have hevaluations := h.evaluations_eq
  have hactivations := h.activations_eq
  constructor <;> simp only [List.countP_cons, Event.isAttempt, Event.isReentry, Event.isStart]
  · simp
    omega
  · simp [h.growths_eq, hverdict]
  · simp [h.recursions_eq]
  · simp [hverdict] at hactivations ⊢
    omega

end Counted

namespace Scan

variable {scan scan' : Scan V M} {site : Site} {evaluating live : Nat} {attempt : Outcome V}
  {result : Option (Outcome V)}

/-- The counters of the run so far agree with its record. -/
structure Tallied (evaluating live : Nat) (scan : Scan V M) : Prop where
  told : Event.Told scan.history
  counted : Counted scan.metrics scan.history evaluating live

/-! ### Steps of a run -/

theorem Tallied.miss (h : scan.Tallied evaluating live) (expected : String) :
    (scan.miss expected).Tallied evaluating live where
  told := .plain rfl rfl h.told
  counted := h.counted.other (fun _ => rfl) rfl rfl

theorem Tallied.hit (h : scan.Tallied evaluating live) (outcome : Outcome V) :
    (scan.hit outcome).Tallied evaluating live where
  told := h.told
  counted := { h.counted with }

/-- A recursion is counted where it is recorded. -/
theorem Tallied.reenter (h : scan.Tallied evaluating live) (site : Site) :
    (scan.reenter site).2.Tallied evaluating live := by
  unfold Scan.reenter
  split
  · refine ⟨.plain rfl rfl h.told, ?_⟩
    obtain ⟨hevaluations, hgrowths, hrecursions, hactivations⟩ := h.counted
    constructor <;> simp only [record, List.countP_cons, Event.isAttempt, Event.isStart]
    · exact hevaluations
    · exact hgrowths
    · exact congrArg (· + 1) hrecursions
    · exact hactivations
  · exact h

/-- An activation that starts has to settle some time. -/
theorem Tallied.enter (h : scan.Tallied evaluating live) (site : Site) :
    (scan.enter site).Tallied evaluating (live + 1) := by
  refine ⟨.plain rfl rfl h.told, ?_⟩
  obtain ⟨hevaluations, hgrowths, hrecursions, hactivations⟩ := h.counted
  constructor <;> simp only [Scan.enter, record, List.countP_cons, Event.isAttempt, Event.isReentry]
  · exact hevaluations
  · exact hgrowths
  · exact hrecursions
  · exact congrArg (· + 1) hactivations

/-- An attempt that begins is counted before it is on record. -/
theorem Tallied.beginAttempt (h : scan.Tallied evaluating live) (site : Site) :
    (scan.beginAttempt site).Tallied (evaluating + 1) live where
  told := h.told
  counted := { h.counted with evaluations_eq := congrArg (· + 1) h.counted.evaluations_eq }

/-- What a decision on an attempt puts on record. Only an attempt that has extended the match leaves
the activation at work. -/
inductive Judged (site : Site) (history : List Event) (step : GrowthStep V) :
    Option (Outcome V) → List Event → Prop where
  | grow (hverdict : step.verdict = .grow) :
      Judged site history step none (step.event site :: history)
  | accept {outcome : Outcome V} (hverdict : step.verdict = .accept) :
      Judged site history step (some outcome) (step.event site :: history)
  | finish {outcome : Outcome V} {stop : Nat} (hverdict : step.verdict = .finish) :
      Judged site history step (some outcome)
        (.grown site.rule site.position stop :: step.event site :: history)
  | fail {outcome : Outcome V} (hverdict : step.verdict = .fail) :
      Judged site history step (some outcome)
        (.seedFailed site.rule site.position :: step.event site :: history)

theorem Judged.eq_grow_iff {history history' : List Event} {step : GrowthStep V}
    (h : Judged site history step result history') : step.verdict = .grow ↔ result = none := by
  cases h with
  | grow hverdict => simp [hverdict]
  | accept hverdict => simp [hverdict]
  | finish hverdict => simp [hverdict]
  | fail hverdict => simp [hverdict]

theorem judged_settle (h : scan.settle site attempt = (.ok result, scan')) :
    ∃ a, scan.stack.get? site.slot = some a ∧
      Judged site scan.history (scan.stepOf site a.stage attempt) result scan'.history := by
  cases hget : scan.stack.get? site.slot with
  | none =>
    rw [settle_of_get?_eq_none hget] at h
    cases h
  | some a =>
    refine ⟨a, rfl, ?_⟩
    rw [settle_eq hget] at h
    cases hverdict : Verdict.of a.stage attempt.stop? (scan.best? site) with
    | accept =>
      simp only [hverdict, accept] at h
      cases h
      exact .accept hverdict
    | grow =>
      simp only [hverdict, extend] at h
      cases h
      exact .grow hverdict
    | finish =>
      simp only [hverdict, finish] at h
      split at h
      -- There is nothing to end with, which is an error.
      · cases h
      · cases h
        exact .finish hverdict
    | fail =>
      simp only [hverdict, failSeed] at h
      cases h
      exact .fail hverdict

/-- After an attempt that has extended the match, the activation is where it was before it. -/
theorem Tallied.grow (h : scan.Tallied (evaluating + 1) live)
    (hsettle : scan.settle site attempt = (.ok none, scan')) :
    scan'.countGrowth.Tallied evaluating live := by
  have hmetrics : scan'.countGrowth.metrics =
      { scan.metrics with growths := scan.metrics.growths + 1 } := by
    rw [← metrics_settle scan site attempt, hsettle]
    rfl
  obtain ⟨a, -, hjudged⟩ := judged_settle hsettle
  generalize scan.stepOf site a.stage attempt = step at hjudged
  have hcounted : scan'.countGrowth.history = scan'.history := rfl
  generalize hhistory : scan'.history = history at hjudged
  cases hjudged with
  | grow hverdict =>
    rw [GrowthStep.event, hverdict, ← hcounted] at hhistory
    constructor
    · rw [hhistory]
      exact .plain rfl rfl h.told
    · rw [hhistory, hmetrics]
      exact h.counted.grow

/-- After any other attempt it has settled, and has said so if it has been recursive. -/
theorem Tallied.settle (h : scan.Tallied (evaluating + 1) (live + 1)) {outcome : Outcome V}
    (hsettle : scan.settle site attempt = (.ok (some outcome), scan')) :
    scan'.Tallied evaluating live := by
  have hmetrics : scan'.metrics = scan.metrics := by
    rw [← metrics_settle scan site attempt, hsettle]
  obtain ⟨a, -, hjudged⟩ := judged_settle hsettle
  generalize scan.stepOf site a.stage attempt = step at hjudged
  generalize hhistory : scan'.history = history at hjudged
  cases hjudged with
  | accept hverdict =>
    rw [GrowthStep.event, hverdict] at hhistory
    constructor
    · rw [hhistory]
      exact .plain rfl rfl h.told
    · rw [hhistory, hmetrics]
      exact h.counted.settle nofun
  | finish hverdict =>
    rw [GrowthStep.event, hverdict] at hhistory
    constructor
    · rw [hhistory]
      exact .concluded rfl rfl h.told
    · rw [hhistory, hmetrics]
      refine Counted.other ?_ (fun _ => rfl) rfl rfl
      exact h.counted.settle nofun
  | fail hverdict =>
    rw [GrowthStep.event, hverdict] at hhistory
    constructor
    · rw [hhistory]
      exact .concluded rfl rfl h.told
    · rw [hhistory, hmetrics]
      refine Counted.other ?_ (fun _ => rfl) rfl rfl
      exact h.counted.settle nofun

end Scan

/-! ## Runs without errors -/

namespace Engine

open Scan

variable {engine : Engine S V M} {room room' : Nat} {rule rule' : RuleId}
  {scan scan' begun : Scan V M} {body rest : Procedure S V M (Outcome V)} {evaluating live : Nat}

/-- An invocation in a run without errors has a run without errors. -/
theorem Untroubled.inside (hok : engine.Untroubled (room + 1) rule scan)
    (hopens : engine.Opens room rule scan body begun)
    (hinvokes : body.Invokes engine.input (engine.invokeWithin room) begun rule' scan') :
    engine.Untroubled room rule' scan' :=
  fun _ _ _ hcalls => hok ((Calls.here.inside hopens hinvokes).trans hcalls)

/-- With so much room, invocations leave nothing open that was not open before. -/
def EvensOut (engine : Engine S V M) (room : Nat) : Prop :=
  ∀ ⦃rule scan evaluating live⦄, engine.Untroubled room rule scan →
    scan.Tallied evaluating live → (engine.invokeWithin room rule scan).2.Tallied evaluating live

/-- Whatever a body does, it keeps the tally if its invocations do. -/
theorem EvensOut.reaches (hevens : engine.EvensOut room)
    (hok : engine.Untroubled (room + 1) rule scan)
    (hopens : engine.Opens room rule scan body begun)
    (hreaches : body.Reaches engine.input (engine.invokeWithin room) begun rest scan')
    (h : begun.Tallied evaluating live) : scan'.Tallied evaluating live := by
  -- What a body does itself is not counted.
  induction hreaches with
  | here => exact h
  | invoke hreaches ih => exact hevens (hok.inside hopens hreaches.invokes) ih
  | observe hreaches ih => exact ih
  | moveTo hreaches ih => exact ⟨ih.told, ih.counted⟩
  | mismatch hreaches ih => exact ih.miss _
  | consult hreaches ih => exact ih
  | memorise hreaches ih => exact ⟨ih.told, ih.counted⟩

/-- Growth that comes to an answer settles its activation. -/
theorem EvensOut.grown (hevens : engine.EvensOut room)
    (hok : engine.Untroubled (room + 1) rule scan)
    (hfree : scan.memo.find? rule scan.position = none) (hbody : engine.body? rule = some body)
    {attempts limit : Nat} {outcome : Outcome V} {grown ended : Scan V M}
    (hrounds : Rounds (body.run engine.input (engine.invokeWithin room)) (siteOf rule scan)
      (engine.attemptLimit scan.position) (scan.enter (siteOf rule scan)) attempts grown)
    (hgrown : growUpTo (body.run engine.input (engine.invokeWithin room)) (siteOf rule scan) limit
      attempts grown = (.ok outcome, ended))
    (h : grown.Tallied evaluating (live + 1)) : ended.Tallied evaluating live := by
  induction attempts generalizing grown with
  | zero => cases hgrown
  | succ attempts ih =>
    obtain ⟨attempt, scan₁, hrun, hnext⟩ := exists_attempt_of_growUpTo hgrown
    have hopens : engine.Opens room rule scan body (grown.beginAttempt (siteOf rule scan)) :=
      ⟨hfree, hbody, attempts, grown, rfl, hrounds⟩
    obtain ⟨rest, hreaches⟩ := (Procedure.passes_of_run hrun).reaches
    -- When the body has been evaluated, this attempt is the one that is counted and not on record.
    have hevaluated := hevens.reaches hok hopens hreaches (h.beginAttempt _)
    rcases hnext with hsettle | ⟨scan₂, hsettle, hrest⟩
    · exact hevaluated.settle hsettle
    · apply ih (hrounds.trans (.next hrun hsettle .refl)) hrest
      exact hevaluated.grow hsettle

/-- An invocation that starts no activation has nothing to settle. -/
theorem tallied_of_idle (h : scan.Tallied evaluating live)
    (hidle : scan.memo.find? rule scan.position ≠ none ∨ engine.body? rule = none ∨ room = 0) :
    (engine.invokeWithin room rule scan).2.Tallied evaluating live := by
  rcases hcell : scan.memo.find? rule scan.position with _ | ⟨outcome | slot⟩
  · have hstays : (engine.invokeWithin room rule scan).2 = scan := by
      rcases hidle with hmarked | hbody | rfl
      · exact absurd hcell hmarked
      · cases room <;> simp only [invokeWithin, answer, hcell, hbody]
      · simp only [invokeWithin, answer, hcell]
        split <;> rfl
    rwa [hstays]
  · rw [invokeWithin_of_finished hcell]
    exact h.hit outcome
  · rw [invokeWithin_of_inProgress hcell]
    exact h.reenter _

theorem evensOut (engine : Engine S V M) (room : Nat) : engine.EvensOut room := by
  induction room with
  | zero => exact fun rule scan evaluating live _ h => tallied_of_idle h (.inr (.inr rfl))
  | succ room ih =>
    intro rule scan evaluating live hok h
    cases hfree : scan.memo.find? rule scan.position with
    -- The answer is in the table, or a cycle is closed.
    | some entry => exact tallied_of_idle h (.inl (by simp [hfree]))
    | none =>
      cases hbody : engine.body? rule with
      | none => exact tallied_of_idle h (.inr (.inl hbody))
      | some body =>
        rcases hgrown : engine.grown room rule body scan with ⟨error | outcome, ended⟩
        · exact absurd hgrown (hok.grown_ne_error .here hfree hbody)
        -- What is released is the slot; the activation has settled before.
        · have hended := EvensOut.grown ih hok hfree hbody .refl hgrown (h.enter _)
          rw [invokeWithin_of_body hfree hbody, activate_eq, ← Engine.grown, hgrown]
          obtain ⟨stack, hrelease⟩ := exists_release_ok ended (siteOf rule scan) outcome
          rw [hrelease]
          exact ⟨hended.told, hended.counted⟩

/-- A run without errors leaves nothing open that was not open before. -/
theorem Untroubled.tallied (hok : engine.Untroubled room rule scan)
    (h : scan.Tallied evaluating live) :
    (engine.invokeWithin room rule scan).2.Tallied evaluating live :=
  engine.evensOut room hok h

/-! ## One activation -/

/-- Of the steps of growth that comes to an answer, the last one settles the activation, and the
others have extended the match. -/
theorem exists_last_step {evaluate : Scan V M → Answer V M (Outcome V)} {site : Site}
    {limit attempts : Nat} {outcome : Outcome V}
    (h : growUpTo evaluate site limit attempts scan = (.ok outcome, scan')) :
    ∃ grows last, stepsUpTo evaluate site attempts scan = grows ++ [last] ∧
      (∀ step ∈ grows, step.verdict = .grow) ∧ last.verdict ≠ .grow := by
  induction attempts generalizing scan with
  | zero => cases h
  | succ attempts ih =>
    obtain ⟨attempt, scan₁, hrun, hsettle | ⟨scan₂, hsettle, hrest⟩⟩ := exists_attempt_of_growUpTo h
    · obtain ⟨a, hget, hjudged⟩ := judged_settle hsettle
      refine ⟨[], _, stepsUpTo_last hrun hget hsettle, fun _ hmem => (nomatch hmem), ?_⟩
      exact fun hgrow => nomatch hjudged.eq_grow_iff.mp hgrow
    · obtain ⟨a, hget, hjudged⟩ := judged_settle hsettle
      obtain ⟨grows, last, hsteps, hgrows, hlast⟩ := ih hrest
      refine ⟨scan₁.stepOf site a.stage attempt :: grows, last, ?_, ?_, hlast⟩
      · rw [stepsUpTo_next hrun hget hsettle, hsteps]
        rfl
      · exact List.forall_mem_cons.mpr ⟨hjudged.eq_grow_iff.mpr rfl, hgrows⟩

/-- In a run without errors every activation settles by one step, its last one, and the record has
just the steps that it has made. -/
theorem Untroubled.exists_last_step (hok : engine.Untroubled room rule scan)
    (hcalls : engine.Calls room rule scan (room' + 1) rule' scan') (howned : scan'.Owned)
    (hfree : scan'.memo.find? rule' scan'.position = none)
    (hbody : engine.body? rule' = some body) :
    ∃ grows last, engine.steps room' rule' body scan' = grows ++ [last] ∧
      (∀ step ∈ grows, step.verdict = .grow) ∧ last.verdict ≠ .grow ∧
      (engine.invokeWithin (room' + 1) rule' scan').2.attemptsAt (siteOf rule' scan') =
        scan'.attemptsAt (siteOf rule' scan') ++
          (grows ++ [last]).map (·.event (siteOf rule' scan')) := by
  rcases hgrown : engine.grown room' rule' body scan' with ⟨error | outcome, ended⟩
  · exact absurd hgrown (hok.grown_ne_error hcalls hfree hbody)
  · obtain ⟨grows, last, hsteps, hgrows, hlast⟩ := Engine.exists_last_step hgrown
    refine ⟨grows, last, hsteps, hgrows, hlast, ?_⟩
    rw [← hsteps]
    exact attemptsAt_invokeWithin howned hfree hbody

end Engine

/-! ## Reading the log -/

/-- Where nothing is open, the log can be checked against the counters. -/
theorem Counted.log {metrics : Metrics} {history : List Event} (h : Counted metrics history 0 0)
    (htold : Event.Told history) (label : RuleId → String) :
    let log := history.reverse.filterMap (Event.record? label)
    let steps (verdict : Verdict) := log.countP (LogRecord.isStep verdict)
    let activations := history.reverse.countP Event.isStart
    log.countP (·.message = "growth step") = metrics.evaluations ∧
    steps .grow = metrics.growths ∧
    log.countP (·.message = "left recursion detected") = metrics.recursions ∧
    (log.countP (·.message = "growth finished") = steps .finish ∧
      log.countP (·.message = "seed parse failed") = steps .fail ∧
      log.IsChain LogRecord.Follows ∧ (∀ first ∈ log.head?, ¬ first.Concludes) ∧
      ∀ last ∈ log.getLast?, ¬ last.Announces) ∧
    metrics.evaluations = metrics.growths + activations ∧
    activations = steps .accept + steps .finish + steps .fail := by
  intro log steps activations
  -- What the log counts is what the record counts, and the order of events does not matter to that.
  have hcount : ∀ {p : LogRecord → Bool} {q : Event → Bool},
      (∀ event, (Event.record? label event).any p = q event) →
      log.countP p = history.countP q := by
    intro p q hsame
    apply (Event.countP_log label hsame _).trans
    rw [List.countP_reverse]
  have hsteps : ∀ verdict, steps verdict = history.countP (Event.isAttempt (· = verdict)) :=
    fun verdict => hcount fun event => Event.any_isStep label event verdict
  have hactivations : activations = history.countP (Event.isAttempt (· ≠ .grow)) := by
    apply Eq.trans _ h.activations_eq
    exact List.countP_reverse
  refine ⟨?_, ?_, ?_, ⟨?_, ?_, ?_⟩, ?_, ?_⟩
  · rw [h.evaluations_eq]
    exact hcount fun event => by cases event <;> rfl
  · rw [hsteps, h.growths_eq]
  · rw [h.recursions_eq]
    exact hcount fun event => by cases event <;> rfl
  · rw [hsteps, hcount (Event.any_grown label), htold.countP_eq]
    simp only [Event.any_announces? _ (.inl rfl)]
  · rw [hsteps, hcount (Event.any_seedFailed label), htold.countP_eq]
    simp only [Event.any_announces? _ (.inr rfl)]
  -- The record has the latest event first, the log the earliest.
  · have hlog : log = (history.filterMap (Event.record? label)).reverse := List.filterMap_reverse
    obtain ⟨hchain, hlast, hfirst⟩ := htold.log label
    rw [hlog, List.isChain_reverse, List.head?_reverse, List.getLast?_reverse]
    exact ⟨hchain, hfirst, hlast⟩
  · rw [h.evaluations_eq, h.growths_eq, hactivations]
    exact Event.countP_isAttempt history
  · rw [hactivations, hsteps, hsteps, hsteps]
    exact Event.countP_isAttempt_ne_grow history

/-! ## Parses -/

namespace Parser

variable [DecidableEq S] {parser : Parser S M} {input : Array S} {rule : RuleId}
  {options : Options} {memory : M}

omit [DecidableEq S] in
theorem tallied_firstScan (inputLength : Nat) (rule : RuleId) (start : Nat) (memory : M) :
    (parser.firstScan inputLength rule start memory).Tallied 0 0 where
  told := .plain rfl rfl .nil
  counted := ⟨rfl, rfl, rfl, rfl⟩

/-- After a parse without errors nothing is open. -/
theorem counted_parse (hrule : rule.index < parser.grammar.size)
    (hok : options.start?.getD 0 ≤ input.size →
      (parser.engine input).Untroubled parser.config.maxDepth rule
        (parser.firstScan input.size rule (options.start?.getD 0) memory)) :
    ∃ history, (parser.parse input rule options memory).events = history.reverse ∧
      Event.Told history ∧
      Counted (parser.parse input rule options memory).parser.ledger.metrics history 0 0 := by
  by_cases hstart : options.start?.getD 0 ≤ input.size
  · have htallied := (hok hstart).tallied
      (parser.tallied_firstScan input.size rule (options.start?.getD 0) memory)
    obtain ⟨outcome, houtcome⟩ := hok hstart .here
    have hinvoke : (parser.engine input).invoke rule
        (parser.firstScan input.size rule (options.start?.getD 0) memory) =
        (parser.engine input).invokeWithin parser.config.maxDepth rule
          (parser.firstScan input.size rule (options.start?.getD 0) memory) := rfl
    rw [parser.parse_eq_close input options memory hrule hstart, hinvoke]
    generalize (parser.engine input).invokeWithin parser.config.maxDepth rule
      (parser.firstScan input.size rule (options.start?.getD 0) memory) = answer
      at htallied houtcome
    obtain ⟨result, scan⟩ := answer
    obtain rfl : result = .ok outcome := houtcome
    refine ⟨.finished outcome.stop? scan.metrics :: scan.history, rfl, ?_, ?_⟩
    · exact .plain rfl rfl htallied.told
    · exact htallied.counted.other (fun _ => rfl) rfl rfl
  · rw [parser.parse_of_lt_start input options memory hrule (by omega)]
    exact ⟨[], rfl, .nil, rfl, rfl, rfl, rfl⟩

/-- In a parse in which no invocation ends with an error, the log has a step for each evaluation that
the metrics count, and among them one with the verdict to grow for each growth; it has a record for
each recursion. Where growth ends or there is no seed, the log says so directly after the step that
it comes from, and nowhere else. There are as many evaluations as growths and activations together,
and each activation has made steps that extended its match and then one step that settled it. A call
that is refused, since its start rule is not there, does nothing. -/
theorem parse_tallies (parser : Parser S M) (input : Array S) (rule : RuleId) (options : Options)
    (memory : M)
    (hok : rule.index < parser.grammar.size → options.start?.getD 0 ≤ input.size →
      ∀ room rule' scan, parser.Calls input rule options memory room rule' scan →
      ∃ outcome, ((parser.engine input).invokeWithin room rule' scan).1 = .ok outcome) :
    let parse := parser.parse input rule options memory
    let metrics := parse.parser.ledger.metrics
    let log := parse.log
    let steps (verdict : Verdict) := log.countP (LogRecord.isStep verdict)
    let activations := parse.events.countP Event.isStart
    (rule.index < parser.grammar.size →
      log.countP (·.message = "growth step") = metrics.evaluations ∧
      steps .grow = metrics.growths ∧
      log.countP (·.message = "left recursion detected") = metrics.recursions ∧
      (log.countP (·.message = "growth finished") = steps .finish ∧
        log.countP (·.message = "seed parse failed") = steps .fail ∧
        log.IsChain LogRecord.Follows ∧ (∀ first ∈ log.head?, ¬ first.Concludes) ∧
        ∀ last ∈ log.getLast?, ¬ last.Announces) ∧
      metrics.evaluations = metrics.growths + activations ∧
      activations = steps .accept + steps .finish + steps .fail ∧
      (options.start?.getD 0 ≤ input.size → ∀ room rule' scan body,
        parser.Calls input rule options memory (room + 1) rule' scan →
        scan.memo.find? rule' scan.position = none →
        (parser.engine input).body? rule' = some body →
        ∃ grows last, (parser.engine input).steps room rule' body scan = grows ++ [last] ∧
          (∀ step ∈ grows, step.verdict = .grow) ∧ last.verdict ≠ .grow ∧
          ((parser.engine input).invokeWithin (room + 1) rule' scan).2.attemptsAt
              (Engine.siteOf rule' scan) =
            scan.attemptsAt (Engine.siteOf rule' scan) ++
              (grows ++ [last]).map (·.event (Engine.siteOf rule' scan)))) ∧
    (parser.grammar.size ≤ rule.index → parse.parser = parser ∧ parse.events = []) := by
  intro parse metrics log steps activations
  refine ⟨fun hrule => ?_, fun hrule => ?_⟩
  · have huntroubled : options.start?.getD 0 ≤ input.size →
        (parser.engine input).Untroubled parser.config.maxDepth rule
          (parser.firstScan input.size rule (options.start?.getD 0) memory) :=
      fun hstart room rule' scan => hok hrule hstart room rule' scan
    obtain ⟨history, hevents, htold, hcounted⟩ := counted_parse hrule huntroubled
    have hlog := hcounted.log htold parse.parser.grammar.label
    rw [← hevents] at hlog
    obtain ⟨hsteps, hgrows, hrecursions, hconclusions, hevaluations, hactivations⟩ := hlog
    refine ⟨hsteps, hgrows, hrecursions, hconclusions, hevaluations, hactivations, ?_⟩
    intro hstart room rule' scan body hcalls
    have howned : scan.Owned := Engine.Calls.owned hcalls (parser.owned_firstScan _ _ _ _)
    exact (huntroubled hstart).exists_last_step hcalls howned
  · have hparse : parse = _ := parser.parse_of_size_le input options memory hrule
    rw [hparse]
    exact ⟨rfl, rfl⟩

end Parser

/-- Two letters take a seed, a step that extends it and one that does not, after which the log says
that growth is finished. -/
theorem Parser.parse_tallies_ells :
    let parse := (Parser.new Grammar.ells {}).parse #['l', 'l'] ⟨0⟩ {} ()
    parse.parser.ledger.metrics.evaluations = 3 ∧
      parse.log.countP (·.message = "growth step") = 3 ∧
      parse.log.countP (LogRecord.isStep .grow) = 2 ∧
      parse.log.countP (·.message = "left recursion detected") = 1 ∧
      parse.log.countP (·.message = "growth finished") = 1 ∧
      parse.events.countP Event.isStart = 1 ∧ parse.log.IsChain LogRecord.Follows := by
  have hanswers : ((Parser.new Grammar.ells {}).outcome? #['l', 'l'] ⟨0⟩ {} ()).isSome = true := by
    decide +kernel
  have hmetrics : ((Parser.new Grammar.ells {}).parse #['l', 'l'] ⟨0⟩ {}
      ()).parser.ledger.metrics = ⟨3, 2, 1, 2, 1⟩ := by
    decide +kernel
  have hstart : ((Parser.new Grammar.ells {}).parse #['l', 'l'] ⟨0⟩ {} ()).events.countP
      Event.isStart = 1 := by
    decide +kernel
  have hfinish : ((Parser.new Grammar.ells {}).parse #['l', 'l'] ⟨0⟩ {} ()).events.countP
      (Event.isAttempt (· = .finish)) = 1 := by
    decide +kernel
  have htallies := ((Parser.new Grammar.ells {}).parse_tallies #['l', 'l'] ⟨0⟩ {} ()
    fun _ _ _ _ _ => Parser.untroubled_of_outcome? Grammar.ells_ofExpressions hanswers).1 (by decide)
  -- From here on the parse is whatever it is.
  generalize (Parser.new Grammar.ells {}).parse #['l', 'l'] ⟨0⟩ {} () = parse
    at hmetrics hstart hfinish htallies ⊢
  obtain ⟨hsteps, hgrows, hrecursions, ⟨hgrown, -, hchain, -⟩, -⟩ := htallies
  rw [hmetrics] at hsteps hgrows hrecursions
  refine ⟨congrArg Metrics.evaluations hmetrics, hsteps, hgrows, hrecursions, hgrown.trans ?_,
    hstart, hchain⟩
  exact (Event.countP_log _ (fun event => Event.any_isStep _ event .finish) _).trans hfinish

end LeftPeg
