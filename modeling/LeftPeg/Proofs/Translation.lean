import LeftPeg.Proofs.Parse
import LeftPeg.Proofs.Relabelling

/-!
# Runs under other names

Scans that are the same up to a relabelling stay so through each step of a run: `Relates.settle` is
the step that decides on an attempt, and `Carries.release` the one that ends an activation. So if
the rules have the same bodies up to the new names, and terminals match at the new positions what
they match at the old ones (`Relabelling.Translates`), the whole run is the same
(`Subject.Invokes.relabel`).
-/

namespace LeftPeg

open Expression (Trail)

variable {S M α : Type}

namespace Relabelling

variable {ρ : Relabelling}

/-! ## Steps -/

section

variable {scan scan' : Scan Tree M}

open Scan

namespace Relates

variable {site : Site}

theorem currentRule (h : ρ.Relates scan scan') :
    scan'.currentRule = scan.currentRule.map ρ.rename := by
  unfold Scan.currentRule ActivationStack.top?
  rw [h.slots]
  cases scan.stack.live <;> rfl

theorem find? (h : ρ.Relates scan scan') {rule : RuleId} {cell? : Option (Entry Tree)}
    (hfind : scan.memo.find? rule scan.position = cell?) :
    scan'.memo.find? (ρ.rename rule) scan'.position = cell?.map ρ.entry := by
  rw [h.position_eq, h.tables rule scan.position, hfind]

theorem move (h : ρ.Relates scan scan') (position : Nat) :
    ρ.Relates { scan with position } { scan' with position := position + ρ.offset } :=
  { h with position_eq := rfl }

theorem miss (h : ρ.Relates scan scan') (expected : String) :
    ρ.Relates (scan.miss expected) (scan'.miss expected) :=
  { h with
    failures := by
      show ρ.Failures (scan.failures.note scan.position expected)
        (scan'.failures.note scan'.position expected)
      rw [h.position_eq]
      exact h.failures.note scan.position expected }

theorem hit (h : ρ.Relates scan scan') (outcome : Outcome Tree) :
    ρ.Relates (scan.hit outcome) (scan'.hit (ρ.outcome outcome)) :=
  { h with
    position_eq := by
      show (ρ.outcome outcome).stop?.getD scan'.position =
        outcome.stop?.getD scan.position + ρ.offset
      rw [stop?_outcome, h.position_eq]
      cases outcome.stop? <;> rfl
    metrics_eq := by
      show { scan'.metrics with memoHits := scan'.metrics.memoHits + 1 } = _
      rw [h.metrics_eq]
      rfl }

theorem enter (h : ρ.Relates scan scan') (site : Site) :
    ρ.Relates (scan.enter site) (scan'.enter (ρ.site site)) :=
  { h with
    tables := h.tables.put site.rule site.position (.inProgress site.slot)
    slots := h.slots.push site.rule site.position
    metrics_eq := by
      show { scan'.metrics with
        maxDepth := max scan'.metrics.maxDepth (scan'.stack.depth + 1) } = _
      rw [h.metrics_eq, h.slots.depth_eq]
      rfl }

theorem beginAttempt (h : ρ.Relates scan scan') (site : Site) :
    ρ.Relates (scan.beginAttempt site) (scan'.beginAttempt (ρ.site site)) :=
  { h with
    position_eq := rfl
    metrics_eq := by
      show { scan'.metrics with evaluations := scan'.metrics.evaluations + 1 } = _
      rw [h.metrics_eq]
      rfl }

theorem countGrowth (h : ρ.Relates scan scan') :
    ρ.Relates scan.countGrowth scan'.countGrowth :=
  { h with
    metrics_eq := by
      show { scan'.metrics with growths := scan'.metrics.growths + 1 } = _
      rw [h.metrics_eq]
      rfl }

theorem reenter (h : ρ.Relates scan scan') (site : Site) :
    ρ.Carries ρ.outcome (scan.reenter site) (scan'.reenter (ρ.site site)) := by
  have hlive : (scan'.stack.get? (ρ.site site).slot).any (·.rule = (ρ.site site).rule) =
      (scan.stack.get? site.slot).any (·.rule = site.rule) := by
    show (scan'.stack.get? site.slot).any _ = _
    rw [h.slots.get?_eq]
    cases scan.stack.get? site.slot with
    | none => rfl
    | some a => exact decide_eq_decide.mpr rename_eq_iff
  unfold Scan.reenter
  rw [hlive]
  split
  · exact ⟨rfl, { h with
      slots := h.slots.reenter site.slot
      metrics_eq := by
        show { scan'.metrics with recursions := scan'.metrics.recursions + 1 } = _
        rw [h.metrics_eq]
        rfl }⟩
  · exact ⟨rfl, h⟩

theorem atStage (h : ρ.Relates scan scan') (site : Site) (stage : Stage) :
    ρ.Relates (scan.atStage site stage) (scan'.atStage (ρ.site site) stage) :=
  { h with
    slots := by
      refine h.slots.modify ?_ site.slot
      exact fun _ => rfl }

theorem memoise (h : ρ.Relates scan scan') (site : Site) (outcome : Outcome Tree) :
    ρ.Relates (scan.memoise site outcome) (scan'.memoise (ρ.site site) (ρ.outcome outcome)) :=
  { h with tables := h.tables.put site.rule site.position (.finished outcome) }

theorem setAside (h : ρ.Relates scan scan') (slot : Nat) :
    ρ.Relates { scan with toLedger := scan.setAside slot }
      { scan' with toLedger := scan'.setAside slot } := by
  unfold Ledger.setAside
  rw [h.slots.get?_eq]
  cases scan.stack.get? slot with
  | none => exact h
  | some a =>
    obtain ⟨hactivation, htables⟩ := h.tables.setAside a
    exact { h with
      tables := htables
      slots := h.slots.modify (fun _ => hactivation) slot }

theorem putBack (h : ρ.Relates scan scan') (slot : Nat) :
    ρ.Relates { scan with toLedger := scan.putBack slot }
      { scan' with toLedger := scan'.putBack slot } := by
  unfold Ledger.putBack
  rw [h.slots.get?_eq]
  cases scan.stack.get? slot with
  | none => exact h
  | some a =>
    obtain ⟨hactivation, htables⟩ := h.tables.putBack a
    exact { h with
      tables := htables
      slots := h.slots.modify (fun _ => hactivation) slot }

/-! ### Verdicts -/

theorem accept (h : ρ.Relates scan scan') (site : Site) (attempt : Outcome Tree) :
    ρ.Carries (Option.map ρ.outcome) (scan.accept site attempt)
      (scan'.accept (ρ.site site) (ρ.outcome attempt)) := by
  refine ⟨rfl, Relates.memoise ?_ site attempt⟩
  have hstop : (ρ.outcome attempt).stop?.getD (ρ.site site).position =
      attempt.stop?.getD site.position + ρ.offset := by
    rw [stop?_outcome]
    cases attempt.stop? <;> rfl
  rw [hstop]
  exact h.move _

theorem extend (h : ρ.Relates scan scan') (site : Site) (attempt : Outcome Tree) :
    ρ.Carries (Option.map ρ.outcome) (scan.extend site attempt)
      (scan'.extend (ρ.site site) (ρ.outcome attempt)) :=
  ⟨rfl, (((h.atStage site .growing).move site.position).setAside site.slot).memoise site attempt⟩

theorem failSeed (h : ρ.Relates scan scan') (site : Site) :
    ρ.Carries (Option.map ρ.outcome) (scan.failSeed site) (scan'.failSeed (ρ.site site)) :=
  ⟨rfl, { ((h.atStage site .plain).move site.position).memoise site .failure with }⟩

theorem finish (h : ρ.Relates scan scan') (site : Site) :
    ρ.Carries (Option.map ρ.outcome) (scan.finish site) (scan'.finish (ρ.site site)) := by
  have hplain := h.atStage site .plain
  have hseed : ((scan'.atStage (ρ.site site) .plain).memo.outcome? (ρ.site site).rule
      (ρ.site site).position).bind Outcome.match? =
      (((scan.atStage site .plain).memo.outcome? site.rule site.position).bind
        Outcome.match?).map ρ.found := by
    show ((scan'.atStage (ρ.site site) .plain).memo.outcome? (ρ.rename site.rule)
      (site.position + ρ.offset)).bind Outcome.match? = _
    rw [hplain.tables.outcome?]
    rcases (scan.atStage site .plain).memo.outcome? site.rule site.position with _ | _ | _ <;> rfl
  unfold Scan.finish
  dsimp only
  rw [hseed]
  cases ((scan.atStage site .plain).memo.outcome? site.rule site.position).bind
    Outcome.match? with
  | none => exact ⟨rfl, hplain⟩
  | some best => exact ⟨rfl, { (hplain.move best.stop).putBack site.slot with }⟩

theorem best?_eq (h : ρ.Relates scan scan') (site : Site) :
    scan'.best? (ρ.site site) = (scan.best? site).map (· + ρ.offset) := by
  show (scan'.memo.outcome? (ρ.rename site.rule) (site.position + ρ.offset)).bind
    Outcome.stop? = _
  rw [h.tables.outcome?]
  unfold Scan.best?
  rcases scan.memo.outcome? site.rule site.position with _ | _ | _ <;> rfl

theorem judging (h : ρ.Relates scan scan') (site : Site) (stage : Stage)
    (attempt : Outcome Tree) :
    ρ.Relates (scan.judging site stage attempt)
      (scan'.judging (ρ.site site) stage (ρ.outcome attempt)) :=
  { h with
    slots := by
      show ρ.Stacks (if stage.isRecursive then scan.stack.report site.slot else scan.stack)
        (if stage.isRecursive then scan'.stack.report site.slot else scan'.stack)
      split
      · exact h.slots.report site.slot
      · exact h.slots }

theorem settle (h : ρ.Relates scan scan') (site : Site) (attempt : Outcome Tree) :
    ρ.Carries (Option.map ρ.outcome) (scan.settle site attempt)
      (scan'.settle (ρ.site site) (ρ.outcome attempt)) := by
  have hget := h.slots.get?_eq site.slot
  cases ha : scan.stack.get? site.slot with
  | none =>
    rw [ha] at hget
    have hget' : scan'.stack.get? (ρ.site site).slot = none := hget
    unfold Scan.settle
    rw [ha, hget']
    exact ⟨rfl, h⟩
  | some a =>
    rw [ha] at hget
    have hget' : scan'.stack.get? (ρ.site site).slot = some (ρ.activation a) := hget
    have hstage : (ρ.activation a).stage = a.stage := rfl
    have hjudging := h.judging site a.stage attempt
    rw [settle_eq ha, settle_eq hget', stop?_outcome, h.best?_eq, hstage, verdict_of]
    cases Verdict.of a.stage attempt.stop? (scan.best? site) with
    | accept => exact hjudging.accept site attempt
    | grow => exact hjudging.extend site attempt
    | finish => exact hjudging.finish site
    | fail => exact hjudging.failSeed site

/-! ### Release -/

theorem dropMarker (h : ρ.Relates scan scan') (site : Site) :
    ρ.Relates (scan.dropMarker site) (scan'.dropMarker (ρ.site site)) := by
  have hfind : scan'.memo.find? (ρ.site site).rule (ρ.site site).position =
      (scan.memo.find? site.rule site.position).map ρ.entry :=
    h.tables site.rule site.position
  unfold Scan.dropMarker
  rw [hfind]
  rcases scan.memo.find? site.rule site.position with _ | _ | slot
  · exact h
  · exact h
  · dsimp only [Option.map_some, entry]
    by_cases hslot : slot = site.slot
    · have hslot' : slot = (ρ.site site).slot := hslot
      rw [if_pos hslot, if_pos hslot']
      exact { h with tables := h.tables.erase site.rule site.position }
    · have hslot' : ¬ slot = (ρ.site site).slot := hslot
      rw [if_neg hslot, if_neg hslot']
      exact h

theorem pop (h : ρ.Relates scan scan') :
    (scan.pop = (.error .stackUnderflow, scan) ∧ scan'.pop = (.error .stackUnderflow, scan')) ∨
      ∃ slot rest rest', scan.pop = (.ok slot, rest) ∧ scan'.pop = (.ok slot, rest') ∧
        ρ.Relates rest rest' := by
  unfold Scan.pop
  rcases h.slots.pop with ⟨hpop, hpop'⟩ | ⟨slot, rest, rest', hpop, hpop', hrest⟩
  · rw [hpop, hpop']
    exact .inl ⟨rfl, rfl⟩
  · rw [hpop, hpop']
    exact .inr ⟨slot, _, _, rfl, rfl, { h with slots := hrest }⟩

end Relates

/-! ### From part to whole -/

namespace Carries

theorem of_ok {relabel : α → α} {found : α} (h : ρ.Relates scan scan') :
    ρ.Carries relabel (.ok found, scan) (.ok (relabel found), scan') :=
  ⟨rfl, h⟩

theorem of_error {relabel : α → α} {error : ParseError} (h : ρ.Relates scan scan') :
    ρ.Carries relabel (.error error, scan) (.error (ρ.error error), scan') :=
  ⟨rfl, h⟩

variable {answer answer' : Answer Tree M (Option Trail)}
  {finding finding' : Answer Tree M (Outcome Tree)}

theorem meet (h : ρ.Relates scan scan') (expected : String) (trail : Trail) (stop? : Option Nat) :
    ρ.Carries (Option.map ρ.trail) (scan.meet expected trail stop?)
      (scan'.meet expected (ρ.trail trail) (stop?.map (· + ρ.offset))) := by
  cases stop? with
  | none => exact of_ok (h.miss expected)
  | some stop =>
    refine ⟨?_, h.move stop⟩
    show Except.ok (some (Tree.leaf scan'.position (stop + ρ.offset) :: _)) = _
    rw [h.position_eq]
    rfl

theorem rewind {relabel : α → α} {answer answer' : Answer Tree M (Option α)}
    (h : ρ.Carries (Option.map relabel) answer answer') (position : Nat) :
    ρ.Carries (Option.map relabel) (LeftPeg.rewind position answer)
      (LeftPeg.rewind (position + ρ.offset) answer') := by
  obtain ⟨result, scan⟩ := answer
  obtain ⟨result', scan'⟩ := answer'
  obtain ⟨rfl, hrelates⟩ := h
  rcases result with error | _ | found
  · exact of_error hrelates
  · exact of_ok (hrelates.move position)
  · exact of_ok hrelates

theorem adopt (h : ρ.Carries ρ.outcome finding finding') (trail : Trail) :
    ρ.Carries (Option.map ρ.trail) (LeftPeg.adopt trail finding)
      (LeftPeg.adopt (ρ.trail trail) finding') := by
  obtain ⟨result, scan⟩ := finding
  obtain ⟨result', scan'⟩ := finding'
  obtain ⟨rfl, hrelates⟩ := h
  rcases result with error | found | _
  · exact of_error hrelates
  · exact of_ok hrelates
  · exact of_ok hrelates

theorem peek (h : ρ.Carries (Option.map ρ.trail) answer answer') (positive : Bool)
    (position : Nat) (trail : Trail) :
    ρ.Carries (Option.map ρ.trail) (LeftPeg.peek positive position trail answer)
      (LeftPeg.peek positive (position + ρ.offset) (ρ.trail trail) answer') := by
  obtain ⟨result, scan⟩ := answer
  obtain ⟨result', scan'⟩ := answer'
  obtain ⟨rfl, hrelates⟩ := h
  rcases result with error | found
  · exact of_error hrelates
  · refine ⟨?_, hrelates.move position⟩
    show Except.ok (if (found.map ρ.trail).isSome = positive then _ else _) =
      Except.ok (Option.map ρ.trail (if found.isSome = positive then _ else _))
    rw [Option.isSome_map]
    split <;> rfl

theorem gather (h : ρ.Carries (Option.map ρ.trail) answer answer') (tag : String) (start : Nat)
    (trail : Trail) :
    ρ.Carries (Option.map ρ.trail) (LeftPeg.gather tag start trail answer)
      (LeftPeg.gather tag (start + ρ.offset) (ρ.trail trail) answer') := by
  obtain ⟨result, scan⟩ := answer
  obtain ⟨result', scan'⟩ := answer'
  obtain ⟨rfl, hrelates⟩ := h
  rcases result with error | _ | inner
  · exact of_error hrelates
  · exact of_ok (hrelates.move start)
  · refine ⟨?_, hrelates⟩
    show Except.ok (some (_ :: _)) = Except.ok (some (ρ.tree _ :: _))
    rw [tree, trees_eq_map, List.map_reverse, ← hrelates.position_eq]
    rfl

theorem desist (h : ρ.Carries (Option.map ρ.trail) answer answer') (owed : Nat) (trail : Trail) :
    ρ.Carries (Option.map ρ.trail) (LeftPeg.desist owed trail answer)
      (LeftPeg.desist owed (ρ.trail trail) answer') := by
  obtain ⟨result, scan⟩ := answer
  obtain ⟨result', scan'⟩ := answer'
  obtain ⟨rfl, hrelates⟩ := h
  rcases result with error | _ | found
  · exact of_error hrelates
  · refine ⟨?_, hrelates⟩
    show Except.ok (if owed = 0 then _ else _) =
      Except.ok (Option.map ρ.trail (if owed = 0 then _ else _))
    split <;> rfl
  · exact of_ok hrelates

theorem bodyAnswer (h : ρ.Carries (Option.map ρ.trail) answer answer') (start : Nat) :
    ρ.Carries ρ.outcome (LeftPeg.bodyAnswer start answer)
      (LeftPeg.bodyAnswer (start + ρ.offset) answer') := by
  obtain ⟨result, scan⟩ := answer
  obtain ⟨result', scan'⟩ := answer'
  obtain ⟨rfl, hrelates⟩ := h
  rcases result with error | _ | trail
  · exact of_error hrelates
  · exact of_ok hrelates
  · refine ⟨?_, hrelates⟩
    show Except.ok (Outcome.success ⟨_, scan'.position, ⟨scan'.currentRule, _, _, _, _⟩⟩) =
      Except.ok (Outcome.success ⟨_, _, ρ.tree _⟩)
    rw [tree, trees_eq_map, List.map_reverse, hrelates.position_eq, hrelates.currentRule]

theorem judge (h : ρ.Carries ρ.outcome finding finding') (site : Site) :
    ρ.Carries (Option.map ρ.outcome) (LeftPeg.judge site finding)
      (LeftPeg.judge (ρ.site site) finding') := by
  obtain ⟨result, scan⟩ := finding
  obtain ⟨result', scan'⟩ := finding'
  obtain ⟨rfl, hrelates⟩ := h
  cases result with
  | error error => exact of_error hrelates
  | ok attempt => exact hrelates.settle site attempt

theorem release (h : ρ.Carries ρ.outcome finding finding') (site : Site) :
    ρ.Carries ρ.outcome (Scan.release site finding) (Scan.release (ρ.site site) finding') := by
  obtain ⟨result, scan⟩ := finding
  obtain ⟨result', scan'⟩ := finding'
  obtain ⟨rfl, hrelates⟩ := h
  cases result with
  | error error =>
    refine of_error ?_
    have hdropped := hrelates.dropMarker site
    rcases hdropped.pop with ⟨hpop, hpop'⟩ | ⟨slot, rest, rest', hpop, hpop', hrest⟩
    · rw [hpop, hpop']
      exact hdropped
    · rw [hpop, hpop']
      exact hrest
  | ok outcome =>
    unfold Scan.release
    dsimp only [result]
    rcases hrelates.pop with ⟨hpop, hpop'⟩ | ⟨slot, rest, rest', hpop, hpop', hrest⟩
    · rw [hpop, hpop']
      exact of_error hrelates
    · rw [hpop, hpop']
      by_cases hslot : slot = site.slot
      · have hslot' : slot = (ρ.site site).slot := hslot
        dsimp only
        rw [if_pos hslot, if_pos hslot']
        exact of_ok hrest
      · have hslot' : ¬ slot = (ρ.site site).slot := hslot
        dsimp only
        rw [if_neg hslot, if_neg hslot']
        exact of_error hrest

/-! ### Taking related answers apart -/

theorem ok {relabel : α → α} {found : α} {answer' : Answer Tree M α}
    (h : ρ.Carries relabel (.ok found, scan) answer') :
    ∃ scan', answer' = (.ok (relabel found), scan') ∧ ρ.Relates scan scan' :=
  ⟨answer'.2, Prod.ext h.result_eq rfl, h.relates⟩

theorem error {relabel : α → α} {error : ParseError} {answer' : Answer Tree M α}
    (h : ρ.Carries relabel (.error error, scan) answer') :
    ∃ scan', answer' = (.error (ρ.error error), scan') ∧ ρ.Relates scan scan' :=
  ⟨answer'.2, Prod.ext h.result_eq rfl, h.relates⟩

theorem finds (h : ρ.Carries (Option.map ρ.trail) answer answer') (hfinds : Finds answer') :
    Finds answer := by
  obtain ⟨trail, htrail⟩ := hfinds
  have hresult := h.result_eq
  rw [htrail] at hresult
  obtain ⟨error | _ | found, scan⟩ := answer
  · cases hresult
  · cases hresult
  · exact ⟨found, rfl⟩

theorem nothing (h : ρ.Carries (Option.map ρ.trail) answer answer')
    (hnothing : answer'.1 = .ok none) : answer.1 = .ok none := by
  have hresult := h.result_eq
  rw [hnothing] at hresult
  obtain ⟨error | _ | found, scan⟩ := answer
  · cases hresult
  · rfl
  · cases hresult

end Carries

end

/-! ## Runs -/

/-- The bodies of the rules are the same up to the new names, and the input is the same up to the
new positions. -/
structure Translates (ρ : Relabelling) [DecidableEq S] (subject subject' : Subject S M) : Prop where
  maxDepth_eq : subject'.maxDepth = subject.maxDepth
  reach?_eq (expression : Expression S) (position : Nat) :
    expression.reach? subject'.input (position + ρ.offset) =
      (expression.reach? subject.input position).map (· + ρ.offset)
  body?_eq {rule : RuleId} {form : Expression S}
    (hbody : subject.grammar.body? rule = some (.expression form)) :
    subject'.grammar.body? (ρ.rename rule) = some (.expression (ρ.expression form))
  /-- A rule that is not there keeps its name, since the error shows it. -/
  unknown {rule : RuleId} (hbody : subject.grammar.body? rule = none) :
    subject'.grammar.body? (ρ.rename rule) = none ∧ ρ.rename rule = rule

theorem expression_of_expected {expression : Expression S} {expected : String}
    (h : expression.expected? = some expected) : ρ.expression expression = expression := by
  cases expression <;> first | rfl | cases h

theorem siteOf_eq {scan scan' : Scan Tree M} (h : ρ.Relates scan scan') (rule : RuleId) :
    Engine.siteOf (ρ.rename rule) scan' = ρ.site (Engine.siteOf rule scan) := by
  unfold Engine.siteOf
  rw [h.position_eq, h.slots.depth_eq]
  rfl

end Relabelling

namespace Subject

open Relabelling

variable [DecidableEq S] {subject subject' : Subject S M} {ρ : Relabelling}

mutual

-- By induction on the run. Each step of the run comes with the same step on the related scan.

theorem Looks.relabel (hsubject : ρ.Translates subject subject') {task : Task S} {trail : Trail}
    {scan : Scan Tree M} {answer : Answer Tree M (Option Trail)} :
    subject.Looks task trail scan answer → ∀ {scan' : Scan Tree M}, ρ.Relates scan scan' →
      ∃ answer', subject'.Looks (ρ.task task) (ρ.trail trail) scan' answer' ∧
        ρ.Carries (Option.map ρ.trail) answer answer'
  | .terminal hexpected, scan', h => by
    have hlooks : subject'.Looks _ (ρ.trail trail) scan' _ := .terminal hexpected
    rw [h.position_eq, hsubject.reach?_eq] at hlooks
    refine ⟨_, ?_, Carries.meet h _ trail _⟩
    rwa [Relabelling.task, expression_of_expected hexpected]
  | .unresolved, scan', h => ⟨_, .unresolved, .of_error h⟩
  | .rule hinvokes, scan', h => by
    obtain ⟨answer', hinvokes', hcarries⟩ := hinvokes.relabel hsubject h
    refine ⟨_, .rule hinvokes', ?_⟩
    rw [h.position_eq]
    exact (hcarries.adopt trail).rewind scan.position
  | .sequence hitems, scan', h => by
    obtain ⟨answer', hitems', hcarries⟩ := hitems.relabel hsubject h
    refine ⟨_, .sequence hitems', ?_⟩
    rw [h.position_eq]
    exact hcarries.rewind scan.position
  | .choice hitems, scan', h => by
    obtain ⟨answer', hitems', hcarries⟩ := hitems.relabel hsubject h
    refine ⟨_, .choice hitems', ?_⟩
    rw [h.position_eq]
    exact hcarries.rewind scan.position
  | .repetition hcopies, scan', h => by
    obtain ⟨answer', hcopies', hcarries⟩ := hcopies.relabel hsubject h
    refine ⟨_, .repetition hcopies', ?_⟩
    rw [h.position_eq]
    exact hcarries.rewind scan.position
  | .lookahead hitem, scan', h => by
    obtain ⟨answer', hitem', hcarries⟩ := hitem.relabel hsubject h
    refine ⟨_, .lookahead hitem', ?_⟩
    rw [h.position_eq]
    exact hcarries.peek _ scan.position trail
  | .tagged hitem, scan', h => by
    obtain ⟨answer', hitem', hcarries⟩ := hitem.relabel hsubject h
    refine ⟨_, .tagged hitem', ?_⟩
    rw [h.position_eq]
    exact hcarries.gather _ scan.position trail
  | .allNil, scan', h => ⟨_, .allNil, .of_ok h⟩
  | .allCons hitem hrest, scan', h => by
    obtain ⟨_, hitem', hcarries⟩ := hitem.relabel hsubject h
    obtain ⟨scan₁', rfl, h₁⟩ := hcarries.ok
    obtain ⟨answer', hrest', hcarries'⟩ := hrest.relabel hsubject h₁
    exact ⟨answer', .allCons hitem' hrest', hcarries'⟩
  | .allStops hitem hstops, scan', h => by
    obtain ⟨answer', hitem', hcarries⟩ := hitem.relabel hsubject h
    exact ⟨answer', .allStops hitem' (mt hcarries.finds hstops), hcarries⟩
  | .firstNil, scan', h => ⟨_, .firstNil, .of_ok h⟩
  | .firstNext hitem hrest, scan', h => by
    obtain ⟨_, hitem', hcarries⟩ := hitem.relabel hsubject h
    obtain ⟨scan₁', rfl, h₁⟩ := hcarries.ok
    obtain ⟨answer', hrest', hcarries'⟩ := hrest.relabel hsubject h₁
    exact ⟨answer', .firstNext hitem' hrest', hcarries'⟩
  | .firstStops hitem hstops, scan', h => by
    obtain ⟨answer', hitem', hcarries⟩ := hitem.relabel hsubject h
    exact ⟨answer', .firstStops hitem' (mt hcarries.nothing hstops), hcarries⟩
  | .copiesEnd, scan', h => by
    refine ⟨_, .copiesEnd, ?_, h⟩
    dsimp only
    split <;> rfl
  | .copiesStop hlimit hitem hstops, scan', h => by
    obtain ⟨answer', hitem', hcarries⟩ := hitem.relabel hsubject h
    exact ⟨_, .copiesStop hlimit hitem' (mt hcarries.finds hstops), hcarries.desist _ trail⟩
  | .copiesEmpty hlimit hitem hstill, scan', h => by
    obtain ⟨_, hitem', hcarries⟩ := hitem.relabel hsubject h
    obtain ⟨scan₁', rfl, h₁⟩ := hcarries.ok
    refine ⟨_, .copiesEmpty hlimit hitem' ?_, ?_, h₁⟩
    · rw [h₁.position_eq, h.position_eq, hstill]
    · dsimp only
      split <;> rfl
  | .copiesNext hlimit hitem hmoved hrest, scan', h => by
    obtain ⟨_, hitem', hcarries⟩ := hitem.relabel hsubject h
    obtain ⟨scan₁', rfl, h₁⟩ := hcarries.ok
    obtain ⟨answer', hrest', hcarries'⟩ := hrest.relabel hsubject h₁
    refine ⟨answer', .copiesNext hlimit hitem' ?_ hrest', hcarries'⟩
    rw [h₁.position_eq, h.position_eq]
    exact mt Nat.add_right_cancel hmoved

theorem Grows.relabel (hsubject : ρ.Translates subject subject') {form : Expression S} {site : Site}
    {scan : Scan Tree M} {answer : Answer Tree M (Outcome Tree)} :
    subject.Grows form site scan answer → ∀ {scan' : Scan Tree M}, ρ.Relates scan scan' →
      ∃ answer', subject'.Grows (ρ.expression form) (ρ.site site) scan' answer' ∧
        ρ.Carries ρ.outcome answer answer'
  | .failed hform hjudged, scan', h => by
    obtain ⟨answer', hform', hcarries⟩ := hform.relabel hsubject (h.beginAttempt site)
    have hjudge := (hcarries.bodyAnswer site.position).judge site
    rw [hjudged] at hjudge
    obtain ⟨scan₁', hjudged', h₁⟩ := hjudge.error
    exact ⟨_, .failed hform' hjudged', .of_error h₁⟩
  | .settled hform hjudged, scan', h => by
    obtain ⟨answer', hform', hcarries⟩ := hform.relabel hsubject (h.beginAttempt site)
    have hjudge := (hcarries.bodyAnswer site.position).judge site
    rw [hjudged] at hjudge
    obtain ⟨scan₁', hjudged', h₁⟩ := hjudge.ok
    exact ⟨_, .settled hform' hjudged', .of_ok h₁⟩
  | .extended hform hjudged hrest, scan', h => by
    obtain ⟨answer', hform', hcarries⟩ := hform.relabel hsubject (h.beginAttempt site)
    have hjudge := (hcarries.bodyAnswer site.position).judge site
    rw [hjudged] at hjudge
    obtain ⟨scan₁', hjudged', h₁⟩ := hjudge.ok
    obtain ⟨answer'', hrest', hcarries'⟩ := hrest.relabel hsubject h₁.countGrowth
    exact ⟨_, .extended hform' hjudged' hrest', hcarries'⟩

theorem Invokes.relabel (hsubject : ρ.Translates subject subject') {rule : RuleId}
    {scan : Scan Tree M} {answer : Answer Tree M (Outcome Tree)} :
    subject.Invokes rule scan answer → ∀ {scan' : Scan Tree M}, ρ.Relates scan scan' →
      ∃ answer', subject'.Invokes (ρ.rename rule) scan' answer' ∧ ρ.Carries ρ.outcome answer answer'
  | .remembered hfind, scan', h => ⟨_, .remembered (h.find? hfind), rfl, h.hit _⟩
  | .reentered hfind, scan', h => by
    refine ⟨_, .reentered (h.find? hfind), ?_⟩
    rw [h.position_eq]
    exact h.reenter ⟨rule, scan.position, _⟩
  | .unknown hfree hbody, scan', h => by
    obtain ⟨hbody', hname⟩ := hsubject.unknown hbody
    refine ⟨_, .unknown (h.find? hfree) hbody', ?_, h⟩
    rw [hname]
    rfl
  | .tooDeep hfree hbody hdepth, scan', h => by
    refine ⟨_, .tooDeep (h.find? hfree) (hsubject.body?_eq hbody) ?_, ?_, h⟩
    · rwa [hsubject.maxDepth_eq, h.slots.depth_eq]
    · rw [hsubject.maxDepth_eq, h.position_eq]
      rfl
  | .activated hfree hbody hdepth hgrows, scan', h => by
    have hsite := siteOf_eq h rule
    obtain ⟨answer', hgrows', hcarries⟩ :=
      hgrows.relabel hsubject (h.enter (Engine.siteOf rule scan))
    rw [← hsite] at hgrows'
    refine ⟨_, .activated (h.find? hfree) (hsubject.body?_eq hbody) ?_ hgrows', ?_⟩
    · rwa [hsubject.maxDepth_eq, h.slots.depth_eq]
    · rw [hsite]
      exact hcarries.release _

end

end Subject

/-! ## Beginnings and conclusions -/

namespace Relabelling

variable {ρ : Relabelling} {failures failures' : FurthestFailure}

/-- At first there is nothing that could differ. -/
theorem relates_firstScan (parser parser' : Parser S M) (inputLength inputLength' : Nat)
    (rule rule' : RuleId) {start start' : Nat} (hstart : start' = start + ρ.offset) (memory : M) :
    ρ.Relates (parser.firstScan inputLength rule start memory)
      (parser'.firstScan inputLength' rule' start' memory) where
  position_eq := hstart
  tables := fun rule position => by
    show MemoTable.find? MemoTable.empty _ _ = Option.map _ (MemoTable.find? MemoTable.empty _ _)
    rw [MemoTable.find?_empty, MemoTable.find?_empty]
    rfl
  slots := rfl
  failures := ⟨rfl, rfl, fun _ => rfl⟩
  metrics_eq := rfl

theorem Failures.noMatch (h : ρ.Failures failures failures') (inputLength : Nat) :
    Parser.noMatch failures' (inputLength + ρ.offset) =
      ρ.error (Parser.noMatch failures inputLength) := by
  unfold Parser.noMatch FurthestFailure.isEmpty
  rw [h.expected_eq, h.index_eq]
  by_cases hnothing : failures.expected = []
  · simp [hnothing, error]
  · simp only [if_neg hnothing, Nat.add_le_add_iff_right]
    split <;> rw [error, if_neg hnothing]

/-- If nothing has failed, the error is about the place where the match ends. -/
theorem unconsumed_of_nothing (hexpected : failures.expected = []) (hindex : failures.index = 0)
    (consumed inputLength : Nat) :
    Parser.unconsumed failures consumed inputLength =
      .unconsumed consumed inputLength consumed [] := by
  unfold Parser.unconsumed
  rw [hexpected, hindex]
  split
  · rename_i hzero
    rw [Nat.le_zero.mp hzero]
  · rfl

theorem Failures.unconsumed (h : ρ.Failures failures failures') (consumed inputLength : Nat) :
    Parser.unconsumed failures' (consumed + ρ.offset) (inputLength + ρ.offset) =
      ρ.error (Parser.unconsumed failures consumed inputLength) := by
  have hindex := h.index_eq
  by_cases hnothing : failures.expected = []
  · rw [if_pos hnothing, h.index_zero hnothing] at hindex
    rw [unconsumed_of_nothing hnothing (h.index_zero hnothing),
      unconsumed_of_nothing (h.expected_eq.trans hnothing) hindex]
    rfl
  · rw [if_neg hnothing] at hindex
    unfold Parser.unconsumed
    simp only [h.expected_eq, hindex, Nat.add_le_add_iff_right]
    split <;> rfl

theorem Failures.conclude (h : ρ.Failures failures failures') {options options' : Options}
    (hoptions : options'.wholeInput = options.wholeInput) (inputLength : Nat)
    (outcome : Outcome Tree) :
    Parser.conclude failures' options' (inputLength + ρ.offset) (ρ.outcome outcome) =
      ρ.result ρ.found (Parser.conclude failures options inputLength outcome) := by
  cases outcome with
  | failure => exact congrArg Except.error (h.noMatch inputLength)
  | success found =>
    have hshort : (options'.wholeInput ∧ (ρ.found found).stop ≠ inputLength + ρ.offset) ↔
        (options.wholeInput ∧ found.stop ≠ inputLength) := by
      rw [hoptions]
      exact and_congr_right fun _ => not_congr Nat.add_right_cancel_iff
    unfold Parser.conclude outcome
    dsimp only
    by_cases hwhole : options.wholeInput ∧ found.stop ≠ inputLength
    · rw [if_pos hwhole, if_pos (hshort.mpr hwhole)]
      exact congrArg Except.error (h.unconsumed found.stop inputLength)
    · rw [if_neg hwhole, if_neg (mt hshort.mp hwhole)]
      rfl

/-- Parses that come to the same answer up to a relabelling conclude with the same result up to
it. -/
theorem Carries.close {answer answer' : Answer Tree M (Outcome Tree)}
    (h : ρ.Carries ρ.outcome answer answer') (parser parser' : Parser S M)
    (options options' : Options) (hoptions : options'.wholeInput = options.wholeInput) (inputLength : Nat) :
    (parser'.close options' (inputLength + ρ.offset) answer').result =
        ρ.result ρ.found (parser.close options inputLength answer).result ∧
      (parser'.close options' (inputLength + ρ.offset) answer').parser.ledger.metrics =
        (parser.close options inputLength answer).parser.ledger.metrics := by
  obtain ⟨result, scan⟩ := answer
  obtain ⟨result', scan'⟩ := answer'
  obtain ⟨rfl, hrelates⟩ := h
  refine ⟨?_, ?_⟩
  · cases result with
    | error error => rfl
    | ok outcome => exact hrelates.failures.conclude hoptions inputLength outcome
  · cases result <;> exact hrelates.metrics_eq

end Relabelling

end LeftPeg
