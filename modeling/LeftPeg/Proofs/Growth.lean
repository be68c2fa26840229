import Mathlib.Data.List.Chain
import LeftPeg.Proofs.Remembering

/-!
# The steps of growth

An activation makes one attempt after another (`Engine.steps`), and the record of the run has each
of them and no others for it, whatever is started and released above it in between
(`Engine.attemptsAt_invokeWithin`).

In a grammar of expressions the steps go as one would draw them (`Growth`): an attempt that nothing
has come back to is accepted, or a seed is found and extended until an attempt is no longer than the
one before. That a step is compared with the one before it is not for granted: where the best match
ends is read from the table, after a body has been evaluated that may set aside, forget and put back
outcomes at the same position. But in order an activation at work keeps its stage and its seed
(`Scan.Working.evaluated`), and `Parser.parse_grows` follows step by step.
-/

namespace LeftPeg

variable {S V M α : Type}

/-- An attempt of an activation: the stage that it was judged at, what it has come to, where the
best match has ended so far, and the verdict. -/
structure GrowthStep (V : Type) where
  stage : Stage
  verdict : Verdict
  attempt : Outcome V
  best? : Option Nat

/-- The step as the record of the run has it. -/
def GrowthStep.event (site : Site) (step : GrowthStep V) : Event :=
  .attempted site.rule site.position site.slot step.stage step.verdict step.attempt.stop? step.best?

/-- The event is an attempt of the activation at the site. -/
def Event.isAttemptAt (site : Site) : Event → Bool
  | .attempted rule position slot .. => site = ⟨rule, position, slot⟩
  | _ => false

namespace Scan

variable {scan : Scan V M} {site other : Site} {a : Activation V} {attempt : Outcome V}

/-- The attempts of the activation at the site that are on record, the earliest first. -/
def attemptsAt (scan : Scan V M) (site : Site) : List Event :=
  (scan.history.filter (Event.isAttemptAt site)).reverse

/-- The attempt as it is judged at this stage. -/
def stepOf (scan : Scan V M) (site : Site) (stage : Stage) (attempt : Outcome V) :
    GrowthStep V where
  stage
  verdict := Verdict.of stage attempt.stop? (scan.best? site)
  attempt
  best? := scan.best? site

theorem attemptsAt_record_of_false {event : Event} (h : event.isAttemptAt site = false) :
    (scan.record event).attemptsAt site = scan.attemptsAt site := by
  unfold attemptsAt record
  rw [List.filter_cons_of_neg (by rw [h]; exact Bool.false_ne_true)]

@[simp] theorem attemptsAt_enter : (scan.enter other).attemptsAt site = scan.attemptsAt site :=
  attemptsAt_record_of_false rfl

@[simp] theorem attemptsAt_reenter :
    (scan.reenter other).2.attemptsAt site = scan.attemptsAt site := by
  unfold reenter
  split
  · exact attemptsAt_record_of_false rfl
  · rfl

@[simp] theorem attemptsAt_pop : scan.pop.2.attemptsAt site = scan.attemptsAt site := by
  obtain ⟨stack, hpop⟩ := exists_pop scan
  rw [hpop]
  rfl

@[simp] theorem attemptsAt_dropMarker :
    (scan.dropMarker other).attemptsAt site = scan.attemptsAt site := by
  obtain ⟨memo, hdrop⟩ := exists_dropMarker scan other
  rw [hdrop]
  rfl

theorem attemptsAt_release (answer : Answer V M (Outcome V)) :
    (release other answer).2.attemptsAt site = answer.2.attemptsAt site := by
  obtain ⟨error | outcome, scan⟩ := answer
  · show (scan.dropMarker other).pop.2.attemptsAt site = _
    rw [attemptsAt_pop, attemptsAt_dropMarker]
  · obtain ⟨stack, hstack⟩ := exists_release_ok scan other outcome
    rw [hstack]
    rfl

/-- Settling an attempt puts that attempt on record, and no other. -/
theorem attemptsAt_settle (hget : scan.stack.get? site.slot = some a) :
    (scan.settle site attempt).2.attemptsAt other = scan.attemptsAt other ++
      if other = site then [(scan.stepOf site a.stage attempt).event site] else [] := by
  have hjudging : (scan.judging site a.stage attempt).attemptsAt other = scan.attemptsAt other ++
      if other = site then [(scan.stepOf site a.stage attempt).event site] else [] := by
    by_cases hother : other = site
    · subst hother
      rw [if_pos rfl]
      show (List.filter (Event.isAttemptAt other) (_ :: scan.history)).reverse = _
      rw [List.filter_cons_of_pos (by simp [Event.isAttemptAt]), List.reverse_cons]
      rfl
    · rw [if_neg hother, List.append_nil]
      exact attemptsAt_record_of_false (by simp [Event.isAttemptAt, hother])
  refine settle_keeps (fun scan' => scan'.attemptsAt other = _) (fun hnone => ?_)
    (fun b hb => ?_) (fun _ _ => id) (fun _ _ => id) (fun _ _ => id) (fun _ => id)
    (fun _ => id) (fun scan stop h => ?_) (fun scan h => ?_)
  · cases hget.symm.trans hnone
  · cases hget.symm.trans hb
    exact hjudging
  · exact (attemptsAt_record_of_false rfl).trans h
  · exact (attemptsAt_record_of_false rfl).trans h

end Scan

/-! ## The steps on record -/

namespace Engine

open Scan

variable {engine : Engine S V M} {room : Nat} {rule : RuleId} {scan scan' : Scan V M}
  {site other : Site} {evaluate : Scan V M → Answer V M (Outcome V)}
  {body : Procedure S V M (Outcome V)} {below : List MemoKey}

/-- The steps of growth that evaluates a body so many times at most. -/
def stepsUpTo (evaluate : Scan V M → Answer V M (Outcome V)) (site : Site) :
    Nat → Scan V M → List (GrowthStep V)
  | 0, _ => []
  | attempts + 1, scan =>
    match evaluate (scan.beginAttempt site) with
    | (.error _, _) => []
    | (.ok attempt, scan) =>
      match scan.stack.get? site.slot with
      | none => []
      | some activation =>
        scan.stepOf site activation.stage attempt ::
          match scan.settle site attempt with
          | (.ok none, scan) => stepsUpTo evaluate site attempts scan.countGrowth
          | _ => []

/-- The steps of the activation that the rule becomes if it is invoked on the scan. -/
def steps (engine : Engine S V M) (room : Nat) (rule : RuleId)
    (body : Procedure S V M (Outcome V)) (scan : Scan V M) : List (GrowthStep V) :=
  stepsUpTo (body.run engine.input (engine.invokeWithin room)) (siteOf rule scan)
    (engine.attemptLimit scan.position) (scan.enter (siteOf rule scan))

/-- A way to answer invocations that puts no attempt of a live activation on record. -/
def Quiet (site : Site) (invoke : Invoke V M) : Prop :=
  ∀ rule (scan : Scan V M), scan.Owned → site.slot < scan.stack.depth →
    (invoke rule scan).2.attemptsAt site = scan.attemptsAt site

theorem Quiet.run {invoke : Invoke V M} {input : Array S} (hquiet : Quiet site invoke)
    (hinvoke : Balancing invoke) (program : Procedure S V M α) (howned : scan.Owned)
    (hslot : site.slot < scan.stack.depth) :
    (program.run input invoke scan).2.attemptsAt site = scan.attemptsAt site := by
  refine ((Procedure.passes_run program scan).keeps (fun scan' => scan.Balanced scan' ∧
    scan'.attemptsAt site = scan.attemptsAt site) ?_ ?_ ?_ ?_ ⟨howned.balanced, rfl⟩).2
  · exact fun position h => ⟨⟨h.1.owned, h.1.keys_eq⟩, h.2⟩
  · intro scan' expected h
    exact ⟨⟨h.1.owned, h.1.keys_eq⟩, (attemptsAt_record_of_false rfl).trans h.2⟩
  · exact fun memory h => ⟨⟨h.1.owned, h.1.keys_eq⟩, h.2⟩
  · intro scan' rule h
    refine ⟨h.1.trans (hinvoke rule _ h.1.owned), ?_⟩
    exact (hquiet rule scan' h.1.owned (h.1.depth_eq ▸ hslot)).trans h.2

/-- Growth puts its steps on record, and nothing for other activations that are live. -/
theorem attemptsAt_growUpTo {invoke : Invoke V M} {input : Array S} {limit : Nat}
    (hinvoke : Balancing invoke) (hquiet : Quiet other invoke) (hslot : other.slot ≤ below.length)
    (attempts : Nat) (hbusy : Busy below site scan) :
    (growUpTo (body.run input invoke) site limit attempts scan).2.attemptsAt other =
      scan.attemptsAt other ++
        if other = site then
          (stepsUpTo (body.run input invoke) site attempts scan).map (·.event site)
        else [] := by
  induction attempts generalizing scan with
  | zero => simp [growUpTo, stepsUpTo]
  | succ attempts ih =>
    have hbegun := hbusy.beginAttempt
    have hlive : other.slot < (scan.beginAttempt site).stack.depth := by
      rw [← ActivationStack.length_keys, hbegun.keys_eq, List.length_append]
      exact Nat.lt_succ_of_le hslot
    have hsame : ∀ {result scan₁}, body.run input invoke (scan.beginAttempt site) =
        (result, scan₁) → scan₁.attemptsAt other = scan.attemptsAt other := by
      intro result scan₁ hrun
      have hrest : (body.run input invoke (scan.beginAttempt site)).2.attemptsAt other = _ :=
        hquiet.run hinvoke body hbegun.owned hlive
      rw [hrun] at hrest
      exact hrest
    unfold growUpTo stepsUpTo
    rcases hrun : body.run input invoke (scan.beginAttempt site) with ⟨error | attempt, scan₁⟩
    · simp [hsame hrun]
    · obtain ⟨hsettled, hbusy₁⟩ := busy_settle hinvoke hbusy hrun
      obtain ⟨a, ha, -⟩ := hbusy₁.exists_get?
      have hstep : (scan₁.settle site attempt).2.attemptsAt other = _ := attemptsAt_settle ha
      rw [hsame hrun] at hstep
      dsimp only
      rw [ha]
      dsimp only
      rcases hsettle : scan₁.settle site attempt with ⟨error | _ | outcome, scan₂⟩ <;>
        rw [hsettle] at hstep hsettled
      · rw [hstep]
        split <;> rfl
      -- The steps that follow are those of the growth that follows.
      · have hbusy₂ : Busy below site scan₂.countGrowth :=
          hbusy₁.balanced ⟨hsettled.balanced.owned, hsettled.balanced.keys_eq⟩
        have hcounted : scan₂.countGrowth.attemptsAt other = scan₂.attemptsAt other := rfl
        dsimp only at hstep ⊢
        rw [ih hbusy₂, hcounted, hstep]
        split <;> simp
      · rw [hstep]
        split <;> rfl

theorem attemptsAt_activate (hquiet : Quiet other (engine.invokeWithin room))
    (howned : scan.Owned) (hslot : other.slot ≤ scan.stack.depth) :
    (engine.activate (engine.invokeWithin room) rule body scan).2.attemptsAt other =
      scan.attemptsAt other ++
        if other = siteOf rule scan then
          (engine.steps room rule body scan).map (·.event (siteOf rule scan))
        else [] := by
  rw [activate_eq, attemptsAt_release,
    attemptsAt_growUpTo (engine.invokeWithin_balanced room) hquiet
      (ActivationStack.length_keys ▸ hslot) _ (howned.enter rule), attemptsAt_enter]
  rfl

/-- An invocation puts no attempt of an activation that is live already on record. -/
theorem quiet_invokeWithin (engine : Engine S V M) (room : Nat) (site : Site) :
    Quiet site (engine.invokeWithin room) := by
  have hanswer : ∀ evaluate : RuleId → Procedure S V M (Outcome V) → Scan V M →
      Answer V M (Outcome V),
      (∀ rule body (scan : Scan V M), scan.Owned → site.slot < scan.stack.depth →
        (evaluate rule body scan).2.attemptsAt site = scan.attemptsAt site) →
      Quiet site (engine.answer evaluate) := by
    intro evaluate hevaluate rule scan howned hslot
    unfold answer
    split
    · rfl
    · exact attemptsAt_reenter
    · split
      · rfl
      · exact hevaluate _ _ _ howned hslot
  induction room with
  | zero => exact hanswer _ fun _ _ _ _ _ => rfl
  | succ room ih =>
    refine hanswer _ fun rule body scan howned hslot => ?_
    -- The slot of the new activation is behind those of the live ones.
    have hother : site ≠ siteOf rule scan := by
      rintro rfl
      exact Nat.lt_irrefl _ hslot
    rw [attemptsAt_activate ih howned (Nat.le_of_lt hslot), if_neg hother, List.append_nil]

/-- An activation puts its steps on record, and nothing that it leads to adds to them. -/
theorem attemptsAt_invokeWithin (howned : scan.Owned)
    (hfree : scan.memo.find? rule scan.position = none) (hbody : engine.body? rule = some body) :
    (engine.invokeWithin (room + 1) rule scan).2.attemptsAt (siteOf rule scan) =
      scan.attemptsAt (siteOf rule scan) ++
        (engine.steps room rule body scan).map (·.event (siteOf rule scan)) := by
  rw [invokeWithin_of_body hfree hbody,
    attemptsAt_activate (quiet_invokeWithin engine room _) howned (Nat.le_refl _), if_pos rfl]

end Engine

/-! ## Steps as one would draw them -/

/-- The steps that extend a match which has been found, and the match that they end with. -/
inductive Extending (size : Nat) : Match V → List (GrowthStep V) → Match V → Prop where
  | finish {best : Match V} {attempt : Outcome V}
      (hshort : ∀ stop ∈ attempt.stop?, stop ≤ best.stop) :
      Extending size best [⟨.growing, .finish, attempt, some best.stop⟩] best
  | grow {best longer final : Match V} {rest : List (GrowthStep V)}
      (hlonger : best.stop < longer.stop) (hsize : longer.stop ≤ size)
      (hrest : Extending size longer rest final) :
      Extending size best (⟨.growing, .grow, .success longer, some best.stop⟩ :: rest) final

/-- The steps of an activation at this position, and what it answers after them. -/
inductive Growth (position size : Nat) : List (GrowthStep V) → Outcome V → Prop where
  | accepted {attempt : Outcome V} :
      Growth position size [⟨.plain, .accept, attempt, none⟩] attempt
  | failed : Growth position size [⟨.seeding, .fail, .failure, none⟩] .failure
  | grown {seed final : Match V} {rest : List (GrowthStep V)} (hstart : position ≤ seed.stop)
      (hsize : seed.stop ≤ size) (hrest : Extending size seed rest final) :
      Growth position size (⟨.seeding, .grow, .success seed, none⟩ :: rest) (.success final)

/-- Where the matches end that have extended the match of the activation. -/
def GrowthStep.ends (steps : List (GrowthStep V)) : List Nat :=
  (steps.filter (·.verdict = .grow)).filterMap (·.attempt.stop?)

theorem GrowthStep.ends_cons_grow {stage : Stage} {found : Match V} {best? : Option Nat}
    {rest : List (GrowthStep V)} :
    ends (⟨stage, .grow, .success found, best?⟩ :: rest) = found.stop :: ends rest := rfl

namespace Extending

variable {size : Nat} {best final : Match V} {steps : List (GrowthStep V)}

/-- Each step is compared with the one before it, and the first with the match that there was. -/
theorem chained (h : Extending size best steps final) :
    (∀ step ∈ steps.head?, step.best? = some best.stop) ∧
      steps.IsChain fun step next => next.best? = step.attempt.stop? := by
  induction h with
  | finish hshort => simp
  | grow hlonger hsize hrest ih =>
    refine ⟨by simp, List.isChain_cons.mpr ⟨?_, ih.2⟩⟩
    exact ih.1

/-- Each match is longer than the ones before it, and ends in the input. -/
theorem increasing (h : Extending size best steps final) :
    (best.stop :: GrowthStep.ends steps).Pairwise (· < ·) ∧
      ∀ stop ∈ GrowthStep.ends steps, stop ≤ size := by
  induction h with
  | finish hshort => simp [GrowthStep.ends]
  | @grow best longer final rest hlonger hsize hrest ih =>
    rw [GrowthStep.ends_cons_grow]
    obtain ⟨hpairwise, hle⟩ := ih
    refine ⟨List.pairwise_cons.mpr ⟨?_, hpairwise⟩, List.forall_mem_cons.mpr ⟨hsize, hle⟩⟩
    refine List.forall_mem_cons.mpr ⟨hlonger, fun stop hstop => ?_⟩
    exact Nat.lt_trans hlonger (List.rel_of_pairwise_cons hpairwise hstop)

/-- The answer is the match of the last step that has extended it. -/
theorem getLast_grow (h : Extending size best steps final) {first : GrowthStep V}
    (hfirst : first.attempt = .success best) :
    ((steps.filter (·.verdict = .grow)).getLast?.getD first).attempt = .success final := by
  induction h generalizing first with
  | finish hshort => exact hfirst
  | grow hlonger hsize hrest ih =>
    rw [List.filter_cons_of_pos (by simp), List.getLast?_cons, Option.getD_some]
    exact ih rfl

/-- No attempt ends to the right of the answer. -/
theorem greatest (h : Extending size best steps final) :
    best.stop ≤ final.stop ∧
      ∀ step ∈ steps, ∀ stop ∈ step.attempt.stop?, stop ≤ final.stop := by
  induction h with
  | finish hshort => exact ⟨Nat.le_refl _, List.forall_mem_cons.mpr ⟨hshort, by simp⟩⟩
  | grow hlonger hsize hrest ih =>
    obtain ⟨hle, hrest⟩ := ih
    refine ⟨Nat.le_trans (Nat.le_of_lt hlonger) hle, List.forall_mem_cons.mpr ⟨?_, hrest⟩⟩
    intro stop hstop
    obtain rfl := Option.some.inj hstop
    exact hle

/-- Unless it is the match that there was, the answer is the first of the attempts to end there. -/
theorem earliest (h : Extending size best steps final) :
    final = best ∨ best.stop < final.stop ∧
      (steps.find? (·.attempt.stop? = some final.stop)).map (·.attempt) =
        some (.success final) := by
  induction h with
  | finish hshort => exact .inl rfl
  | grow hlonger hsize hrest ih =>
    right
    rcases ih with rfl | ⟨hlt, hfind⟩
    · exact ⟨hlonger, by simp⟩
    · refine ⟨Nat.lt_trans hlonger hlt, ?_⟩
      rw [List.find?_cons_of_neg (by simpa using Nat.ne_of_lt hlt)]
      exact hfind

end Extending

namespace Growth

variable {position size : Nat} {outcome : Outcome V} {steps : List (GrowthStep V)}

theorem chained (h : Growth position size steps outcome) :
    steps.IsChain fun step next => next.best? = step.attempt.stop? := by
  cases h with
  | accepted | failed => simp
  | grown hstart hsize hrest => exact List.isChain_cons.mpr hrest.chained

theorem increasing (h : Growth position size steps outcome) :
    (GrowthStep.ends steps).Pairwise (· < ·) ∧
      ∀ stop ∈ GrowthStep.ends steps, position ≤ stop ∧ stop ≤ size := by
  cases h with
  | accepted | failed => simp [GrowthStep.ends]
  | grown hstart hsize hrest =>
    obtain ⟨hpairwise, hle⟩ := hrest.increasing
    rw [GrowthStep.ends_cons_grow]
    refine ⟨hpairwise, List.forall_mem_cons.mpr ⟨⟨hstart, hsize⟩, fun stop hstop => ?_⟩⟩
    have hlt := List.rel_of_pairwise_cons hpairwise hstop
    exact ⟨Nat.le_trans hstart (Nat.le_of_lt hlt), hle stop hstop⟩

theorem getLast_grow (h : Growth position size steps outcome) :
    ∀ step ∈ (steps.filter (·.verdict = .grow)).getLast?, step.attempt = outcome := by
  cases h with
  | accepted | failed => simp
  | @grown seed final rest hstart hsize hrest =>
    intro step hstep
    rw [List.filter_cons_of_pos (by simp), List.getLast?_cons] at hstep
    rw [← Option.some.inj hstep]
    exact hrest.getLast_grow rfl

/-- The answer is the earliest of the attempts with the greatest end. -/
theorem earliest (h : Growth position size steps outcome) :
    (steps.find? (·.attempt.stop? = outcome.stop?)).map (·.attempt) = some outcome ∧
      ∀ step ∈ steps, ∀ stop ∈ step.attempt.stop?, ∃ last ∈ outcome.stop?, stop ≤ last := by
  cases h with
  | accepted => simpa using fun stop hstop => ⟨stop, hstop, Nat.le_refl _⟩
  | failed => simp
  | @grown seed final rest hstart hsize hrest =>
    obtain ⟨hle, hrest'⟩ := hrest.greatest
    refine ⟨?_, List.forall_mem_cons.mpr ⟨?_, ?_⟩⟩
    · rcases hrest.earliest with rfl | ⟨hlt, hfind⟩
      · simp
      · rw [List.find?_cons_of_neg (by simpa using Nat.ne_of_lt hlt)]
        exact hfind
    · exact fun stop hstop => ⟨final.stop, rfl, Option.some.inj hstop ▸ hle⟩
    · exact fun step hstep stop hstop => ⟨final.stop, rfl, hrest' step hstep stop hstop⟩

end Growth

/-! ## Growth in order -/

/-- What does not extend the best match is not longer. -/
theorem Verdict.le_of_finish {stage : Stage} {attempt? best? : Option Nat}
    (h : Verdict.of stage attempt? best? = .finish) :
    ∀ stop ∈ attempt?, ∀ best ∈ best?, stop ≤ best := by
  rintro stop rfl best rfl
  by_contra hlonger
  have hgrow : Verdict.of stage (some stop) (some best) = .grow := by
    refine of_eq_grow_iff.mpr ⟨?_, stop, rfl, fun other hother => ?_⟩
    · rintro rfl
      cases h
    · rw [← Option.some.inj hother]
      exact Nat.lt_of_not_le hlonger
  cases h.symm.trans hgrow

namespace Scan

variable {kept : RuleId → Nat → Outcome V → Prop} {size : Nat} {scan scan' : Scan V M} {site : Site}
  {a b : Activation V} {attempt : Outcome V} {slot : Nat}

theorem Orderly.aloof (h : scan.Orderly kept size) (hget : scan.stack.get? slot = some a) :
    a.Aloof :=
  fun hinvolved => h.apart hget hinvolved (Nat.le_refl _) hget rfl rfl

/-- The evaluation of its body neither makes an activation grow nor ends its growth. -/
theorem Working.stage_evaluated (hwork : Working site scan a)
    (hcomes : Comes kept size site.rule (scan.beginAttempt site) (.ok attempt, scan'))
    (hwork' : Working site scan' b) : b.stage = .growing ↔ a.stage = .growing := by
  cases hcomes with
  | ok horderly hdepth hundisturbed hkept =>
    have hslot : site.slot < (scan.beginAttempt site).stack.depth :=
      ActivationStack.lt_depth_of_get? hwork.get?_eq
    obtain ⟨c, hc, -, hstage, -⟩ := hundisturbed site.slot a hslot hwork.get?_eq
    obtain rfl := Option.some.inj (hwork'.get?_eq.symm.trans hc)
    exact hstage

theorem best?_of_success {found : Match V}
    (h : scan.memo.find? site.rule site.position = some (.finished (.success found))) :
    scan.best? site = some found.stop := by
  rw [best?, MemoTable.outcome?_eq_some_iff.mpr h]
  rfl

theorem Marked.best?_eq (h : scan.Marked site) : scan.best? site = none := by
  unfold Marked at h
  unfold best? MemoTable.outcome?
  rw [h]
  rfl

end Scan

namespace Engine

open Scan

variable {kept : RuleId → Nat → Outcome V → Prop} {size limit attempts : Nat} {site : Site}
  {evaluate : Scan V M → Answer V M (Outcome V)} {scan scan₀ scan₁ scan₂ scan' : Scan V M}
  {a : Activation V} {attempt outcome : Outcome V} {best : Match V}

/-- Growth that comes to an answer has made an attempt, which is the last one or is followed by
growth that comes to the answer. -/
theorem exists_attempt_of_growUpTo
    (h : growUpTo evaluate site limit (attempts + 1) scan = (.ok outcome, scan')) :
    ∃ attempt scan₁, evaluate (scan.beginAttempt site) = (.ok attempt, scan₁) ∧
      (scan₁.settle site attempt = (.ok (some outcome), scan') ∨
        ∃ scan₂, scan₁.settle site attempt = (.ok none, scan₂) ∧
          growUpTo evaluate site limit attempts scan₂.countGrowth = (.ok outcome, scan')) := by
  unfold growUpTo at h
  rcases hrun : evaluate (scan.beginAttempt site) with ⟨error | attempt, scan₁⟩ <;>
    simp only [hrun] at h
  · cases h
  · refine ⟨attempt, scan₁, rfl, ?_⟩
    rcases hsettle : scan₁.settle site attempt with ⟨error | _ | found, scan₂⟩ <;>
      simp only [hsettle] at h
    · cases h
    · exact .inr ⟨scan₂, rfl, h⟩
    · cases h
      exact .inl rfl

theorem stepsUpTo_last (hrun : evaluate (scan.beginAttempt site) = (.ok attempt, scan₁))
    (hget : scan₁.stack.get? site.slot = some a)
    (hsettle : scan₁.settle site attempt = (.ok (some outcome), scan')) :
    stepsUpTo evaluate site (attempts + 1) scan = [scan₁.stepOf site a.stage attempt] := by
  simp only [stepsUpTo, hrun, hget, hsettle]

theorem stepsUpTo_next (hrun : evaluate (scan.beginAttempt site) = (.ok attempt, scan₁))
    (hget : scan₁.stack.get? site.slot = some a)
    (hsettle : scan₁.settle site attempt = (.ok none, scan₂)) :
    stepsUpTo evaluate site (attempts + 1) scan =
      scan₁.stepOf site a.stage attempt :: stepsUpTo evaluate site attempts scan₂.countGrowth := by
  simp only [stepsUpTo, hrun, hget, hsettle]

/-- When its body has been evaluated, the activation is at work as before: with the seed that it
had, or still without one. -/
theorem working_of_run (hevaluate : Dependable kept size site.rule evaluate)
    (hwork : Working site scan a) (horderly : scan.Orderly kept size)
    (hrun : evaluate (scan.beginAttempt site) = (.ok attempt, scan₁)) :
    scan₁.Orderly kept size ∧ kept site.rule site.position attempt ∧ ∃ b, Working site scan₁ b ∧
      (b.stage = .growing ↔ a.stage = .growing) ∧
      (a.stage = .growing → scan₁.memo.find? site.rule site.position =
        scan.memo.find? site.rule site.position) := by
  have hbegun : Working site (scan.beginAttempt site) a := { hwork with }
  have hcomes := hevaluate _ (hwork.beginAttempt horderly) hbegun.currentRule
  rw [hrun] at hcomes
  obtain ⟨horderly₁, hkept, -, b, hwork₁, hsame⟩ := hwork.evaluated hcomes
  exact ⟨horderly₁, hkept, b, hwork₁, hwork.stage_evaluated hcomes hwork₁, hsame⟩

/-- From a seed on, each step extends the match that the one before has found, until one does
not. -/
theorem extending_stepsUpTo (hspan : Spanned kept size)
    (hevaluate : Dependable kept size site.rule evaluate)
    (hgrown : Grown kept size site scan₀ scan best)
    (h : growUpTo evaluate site limit attempts scan = (.ok outcome, scan')) :
    ∃ final, outcome = .success final ∧
      Extending size best (stepsUpTo evaluate site attempts scan) final := by
  induction attempts generalizing scan₀ scan best with
  | zero => cases h
  | succ attempts ih =>
    obtain ⟨attempt, scan₁, hrun, hnext⟩ := exists_attempt_of_growUpTo h
    obtain ⟨a, hwork, hgrowing⟩ := hgrown.growing
    obtain ⟨horderly₁, hkept, b, hwork₁, hgrowing₁, hsame⟩ :=
      working_of_run hevaluate hwork hgrown.orderly hrun
    -- The stage and the seed are what they were when the attempt began.
    have hstage : b.stage = .growing := hgrowing₁.mpr hgrowing
    have hseed := (hsame hgrowing).trans hgrown.find?_eq
    have hstep : scan₁.stepOf site b.stage attempt =
        ⟨.growing, Verdict.of .growing attempt.stop? (some best.stop), attempt,
          some best.stop⟩ := by
      unfold stepOf
      rw [hstage, best?_of_success hseed]
    have hdecides := decides_settle hwork₁.get?_eq hwork₁.rule_eq
      (horderly₁.aloof hwork₁.get?_eq) attempt
    rw [hstage, best?_of_success hseed] at hdecides
    rcases hnext with hsettle | ⟨scan₂, hsettle, hrest⟩ <;> rw [hsettle] at hdecides
    · rw [stepsUpTo_last hrun hwork₁.get?_eq hsettle, hstep]
      generalize hverdict : Verdict.of .growing attempt.stop? (some best.stop) = verdict
        at hdecides ⊢
      cases hdecides with
      | accept => cases Verdict.of_eq_accept_iff.mp hverdict
      | fail => cases (Verdict.of_eq_fail_iff.mp hverdict).1
      | finish hbest =>
        cases hseed.symm.trans hbest
        exact ⟨best, rfl, .finish fun stop hstop => Verdict.le_of_finish hverdict stop hstop _ rfl⟩
    · rw [stepsUpTo_next hrun hwork₁.get?_eq hsettle, hstep]
      generalize hverdict : Verdict.of .growing attempt.stop? (some best.stop) = verdict
        at hdecides ⊢
      cases hdecides with
      | grow hposition hcell =>
        obtain ⟨-, stop, hstop, hlonger⟩ := Verdict.of_eq_grow_iff.mp hverdict
        obtain ⟨found, hgrown'⟩ := round_grown hspan hevaluate hwork hgrown.orderly hrun hsettle
        -- What the cell holds then is the attempt.
        have hattempt : some (.finished attempt) = some (Entry.finished (.success found)) :=
          hcell.symm.trans hgrown'.find?_eq
        cases hattempt
        obtain ⟨final, rfl, hextending⟩ := ih hgrown' hrest
        refine ⟨final, rfl, .grow ?_ (hspan hkept).2 hextending⟩
        exact Option.some.inj hstop ▸ hlonger _ rfl

/-- The steps of an activation that has no seed yet. -/
theorem growth_stepsUpTo (hspan : Spanned kept size)
    (hevaluate : Dependable kept size site.rule evaluate) (hwork : Working site scan a)
    (horderly : scan.Orderly kept size) (hseedless : a.stage ≠ .growing)
    (h : growUpTo evaluate site limit attempts scan = (.ok outcome, scan')) :
    Growth site.position size (stepsUpTo evaluate site attempts scan) outcome := by
  cases attempts with
  | zero => cases h
  | succ attempts =>
    obtain ⟨attempt, scan₁, hrun, hnext⟩ := exists_attempt_of_growUpTo h
    obtain ⟨horderly₁, hkept, b, hwork₁, hgrowing₁, -⟩ :=
      working_of_run hevaluate hwork horderly hrun
    -- There still is no seed, so the cell holds the marker.
    have hstage : b.stage ≠ .growing := mt hgrowing₁.mp hseedless
    have hmarked : scan₁.Marked site := by
      have hown := horderly₁.marked hwork₁.get?_eq hstage
      rwa [hwork₁.rule_eq, hwork₁.position_eq] at hown
    have hstep : scan₁.stepOf site b.stage attempt =
        ⟨b.stage, Verdict.of b.stage attempt.stop? none, attempt, none⟩ := by
      unfold stepOf
      rw [hmarked.best?_eq]
    have hdecides := decides_settle hwork₁.get?_eq hwork₁.rule_eq
      (horderly₁.aloof hwork₁.get?_eq) attempt
    rw [hmarked.best?_eq] at hdecides
    rcases hnext with hsettle | ⟨scan₂, hsettle, hrest⟩ <;> rw [hsettle] at hdecides
    · rw [stepsUpTo_last hrun hwork₁.get?_eq hsettle, hstep]
      generalize hverdict : Verdict.of b.stage attempt.stop? none = verdict at hdecides ⊢
      cases hdecides with
      | accept =>
        rw [Verdict.of_eq_accept_iff.mp hverdict]
        exact .accepted
      | fail hattempt =>
        rw [(Verdict.of_eq_fail_iff.mp hverdict).1, hattempt]
        exact .failed
      | finish hbest => cases hmarked.symm.trans hbest
    · rw [stepsUpTo_next hrun hwork₁.get?_eq hsettle, hstep]
      generalize hverdict : Verdict.of b.stage attempt.stop? none = verdict at hdecides ⊢
      cases hdecides with
      | grow hposition hcell =>
        obtain ⟨found, hgrown⟩ := round_grown hspan hevaluate hwork horderly hrun hsettle
        have hattempt : some (.finished attempt) = some (Entry.finished (.success found)) :=
          hcell.symm.trans hgrown.find?_eq
        cases hattempt
        have hseeding : b.stage = .seeding := by
          have hplain := (Verdict.of_eq_grow_iff.mp hverdict).1
          cases hb : b.stage with
          | plain => exact absurd hb hplain
          | seeding => rfl
          | growing => exact absurd hb hstage
        obtain ⟨final, rfl, hextending⟩ := extending_stepsUpTo hspan hevaluate hgrown hrest
        rw [hseeding]
        exact .grown (hspan hkept).1 (hspan hkept).2 hextending

end Engine

namespace Parser

variable [DecidableEq S]

/-- In a grammar of expressions, the steps of an activation that is not aborted are those of one
that is alone. They are on record as they were made; each is compared with the one before it; the
matches grow to the right within the input; and the answer, which is remembered, is the last of
them, the earliest of the attempts with the greatest end. -/
theorem parse_grows (parser : Parser S M) (hforms : parser.grammar.OfExpressions)
    (input : Array S) (rule : RuleId) (options : Options) (memory : M)
    (hstart : options.start?.getD 0 ≤ input.size) :
    ∀ room rule' scan body, parser.Calls input rule options memory (room + 1) rule' scan →
      scan.memo.find? rule' scan.position = none →
      (parser.engine input).body? rule' = some body →
      ∀ outcome scan', (parser.engine input).invokeWithin (room + 1) rule' scan =
        (.ok outcome, scan') →
      let site := Engine.siteOf rule' scan
      let steps := (parser.engine input).steps room rule' body scan
      scan'.attemptsAt site = scan.attemptsAt site ++ steps.map (·.event site) ∧
      Growth scan.position input.size steps outcome ∧
      (steps.IsChain fun step next => next.best? = step.attempt.stop?) ∧
      ((GrowthStep.ends steps).Pairwise (· < ·) ∧
        ∀ stop ∈ GrowthStep.ends steps, scan.position ≤ stop ∧ stop ≤ input.size) ∧
      (∀ step ∈ (steps.filter (·.verdict = .grow)).getLast?, step.attempt = outcome) ∧
      ((steps.find? (·.attempt.stop? = outcome.stop?)).map (·.attempt) = some outcome ∧
        ∀ step ∈ steps, ∀ stop ∈ step.attempt.stop?, ∃ last ∈ outcome.stop?, stop ≤ last) ∧
      scan'.memo.find? rule' scan.position = some (.finished outcome) := by
  intro room rule' scan body hcalls hfree hbody outcome scan' hanswer site steps
  have hmarches := Calls.marches hforms hstart hcalls
  obtain ⟨form, rfl, hform⟩ := body?_engine hforms hbody
  have hrecord : ((parser.engine input).invokeWithin (room + 1) rule' scan).2.attemptsAt site = _ :=
    Engine.attemptsAt_invokeWithin hmarches.owned hfree hbody
  rw [hanswer] at hrecord
  have hcell := (Engine.remembers_of_ok hmarches.owned hanswer).2 fun slot hmarker => by
    cases hfree.symm.trans hmarker
  rw [Engine.invokeWithin_of_body hfree hbody] at hanswer
  obtain ⟨ended, stack, hgrown, rfl⟩ := Engine.growth_of_activate hmarches.owned hanswer
  obtain ⟨hentered, hwork⟩ := Engine.working_enter hmarches.orderly hfree
  have hgrowth : Growth scan.position input.size steps outcome :=
    Engine.growth_stepsUpTo genuine_spanned
      (dependable_toProcedure hform (engine_reliable hforms input room)) hwork hentered
      (by simp) hgrown
  exact ⟨hrecord, hgrowth, hgrowth.chained, hgrowth.increasing, hgrowth.getLast_grow,
    hgrowth.earliest, hcell⟩

/-- Two letters take three steps: a seed of one letter, a match of both, and an attempt that finds
one letter only since there is no third. -/
theorem parse_grows_ells :
    let parser := new Grammar.ells {}
    let engine := parser.engine #['l', 'l']
    let scan := parser.firstScan 2 ⟨0⟩ 0 ()
    let answer := engine.invokeWithin 1000 ⟨0⟩ scan
    Grammar.ells.OfExpressions ∧
    answer.2.attemptsAt ⟨⟨0⟩, 0, 0⟩ =
      [.attempted ⟨0⟩ 0 0 .seeding .grow (some 1) none,
        .attempted ⟨0⟩ 0 0 .growing .grow (some 2) (some 1),
        .attempted ⟨0⟩ 0 0 .growing .finish (some 1) (some 2)] ∧
    ∃ body outcome, engine.body? ⟨0⟩ = some body ∧ answer.1 = .ok outcome ∧
      Growth 0 2 (engine.steps 999 ⟨0⟩ body scan) outcome := by
  intro parser engine scan answer
  refine ⟨Grammar.ells_ofExpressions, by decide +kernel, ?_⟩
  have hfound : answer.1.map Outcome.stop? = .ok (some 2) := by decide +kernel
  obtain ⟨outcome, hanswer⟩ : ∃ outcome, answer = (.ok outcome, answer.2) := by
    rcases answer with ⟨error | outcome, scan'⟩
    · cases hfound
    · exact ⟨outcome, rfl⟩
  obtain ⟨body, hbody⟩ : ∃ body, engine.body? ⟨0⟩ = some body := ⟨_, rfl⟩
  refine ⟨body, outcome, hbody, congrArg Prod.fst hanswer, ?_⟩
  exact (parse_grows parser Grammar.ells_ofExpressions #['l', 'l'] ⟨0⟩ {} () (by decide) 999 ⟨0⟩
    scan body .here MemoTable.find?_empty hbody outcome _ hanswer).2.1

end Parser

end LeftPeg
