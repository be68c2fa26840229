import LeftPeg.Proofs.Abandoned
import LeftPeg.Proofs.Stable

/-!
# Answers are remembered

Whatever the bodies do, an invocation that comes to an answer leaves the scan at the end of its
match, or where it was if the rule has failed, and the answer in the cell of its key
(`Engine.remembers_of_ok`). So the next invocation at the key is answered with it, and all that this
changes is a count (`Parser.parse_remembers`).

The case to look at is growth that ends. The rules involved in the cycle are put back then, and the
match found must not be among what that overwrites. It is not, since no activation counts its own
rule among those involved (`Scan.Aloof`), whatever has been started above it.
-/

namespace LeftPeg

variable {S V M : Type}

/-! ## Activations that are not involved in their own cycles -/

namespace Activation

variable {activation : Activation V}

/-- The activation's own rule is not among the rules involved. -/
def Aloof (activation : Activation V) : Prop :=
  activation.rule ∉ activation.involved

theorem aloof_stable : @Stable V Aloof where
  involveAll rules h := by
    unfold Aloof
    rw [(sameCall_involveAll _ rules).rule_eq, mem_involved_involveAll]
    rintro (hold | ⟨-, hother⟩)
    · exact h hold
    · exact hother rfl
  forget h := h
  atStage _ h := h
  hold _ h := h
  clear _ := List.not_mem_nil

theorem Aloof.addParent (h : activation.Aloof) (parent : Nat) :
    (activation.addParent parent).Aloof := by
  unfold Aloof
  rw [involved_addParent, (activation.sameCall_addParent parent).rule_eq]
  exact h

end Activation

namespace Scan

variable {scan scan' : Scan V M} {site : Site} {slot : Nat} {a : Activation V}
  {attempt outcome : Outcome V}

/-- If the slot is in use, its activation is not involved in its own cycle. -/
def Aloof (slot : Nat) (scan : Scan V M) : Prop :=
  ∀ a, scan.stack.get? slot = some a → a.Aloof

/-- Whatever happens in a run, no activation gets involved in its own cycle. -/
theorem kept_aloof (slot : Nat) : Kept (fun scan : Scan V M => scan.Aloof slot) fun _ => True :=
  Activation.aloof_stable.kept slot (fun _ _ => List.not_mem_nil) fun _ parent _ h =>
    h.addParent parent

/-! ## What a decision leaves -/

/-- What the decision on an attempt comes to, by its verdict: the answer, where the scan is, and
what the cell of the activation holds. -/
inductive Decides (site : Site) (memo : MemoTable V) (attempt : Outcome V) :
    Verdict → Answer V M (Option (Outcome V)) → Prop where
  | accept {scan' : Scan V M} (hposition : scan'.position = attempt.stop?.getD site.position)
      (hcell : scan'.memo.find? site.rule site.position = some (.finished attempt)) :
      Decides site memo attempt .accept (.ok (some attempt), scan')
  | grow {scan' : Scan V M} (hposition : scan'.position = site.position)
      (hcell : scan'.memo.find? site.rule site.position = some (.finished attempt)) :
      Decides site memo attempt .grow (.ok none, scan')
  /-- The answer is the match that the cell has held before. -/
  | finish {best : Match V} {scan' : Scan V M}
      (hbest : memo.find? site.rule site.position = some (.finished (.success best)))
      (hposition : scan'.position = best.stop)
      (hcell : scan'.memo.find? site.rule site.position = some (.finished (.success best))) :
      Decides site memo attempt .finish (.ok (some (.success best)), scan')
  | seedless {scan' : Scan V M} :
      Decides site memo attempt .finish
        (.error (.defect (.missingSeed site.rule site.position)), scan')
  | fail {scan' : Scan V M} (hattempt : attempt = .failure)
      (hposition : scan'.position = site.position)
      (hcell : scan'.memo.find? site.rule site.position = some (.finished .failure)) :
      Decides site memo attempt .fail (.ok (some .failure), scan')

/-- The rules put back are others than that of the activation, so the match found stays. -/
theorem decides_finish (hget : scan.stack.get? site.slot = some a) (hrule : a.rule = site.rule)
    (haloof : a.Aloof) (attempt : Outcome V) :
    Decides site scan.memo attempt .finish (scan.finish site) := by
  cases hbest : (scan.memo.outcome? site.rule site.position).bind Outcome.match? with
  | none =>
    rw [finish_of_none hbest]
    exact .seedless
  | some best =>
    have hcell := find?_of_match hbest
    rw [finish_eq hget hcell]
    refine .finish hcell rfl ?_
    show ((a.atStage .plain).putBack scan.memo).2.find? site.rule site.position = _
    rw [Activation.find?_putBack, if_neg, hcell]
    rintro ⟨hinvolved, -⟩
    exact haloof (hrule ▸ hinvolved)

theorem decides_settle (hget : scan.stack.get? site.slot = some a) (hrule : a.rule = site.rule)
    (haloof : a.Aloof) (attempt : Outcome V) :
    Decides site scan.memo attempt (Verdict.of a.stage attempt.stop? (scan.best? site))
      (scan.settle site attempt) := by
  -- When it is decided on, the activation may have told its parents, and is what it was otherwise.
  have hjudged : ∃ b, (scan.judging site a.stage attempt).stack.get? site.slot = some b ∧
      b.rule = site.rule := by
    rw [get?_judging hget, hget]
    refine ⟨_, rfl, ?_⟩
    dsimp only
    split
    · rw [(ActivationStack.onReport_spec a site.slot site.slot a).1.rule_eq, hrule]
    · exact hrule
  obtain ⟨b, hb, hrule'⟩ := hjudged
  rw [settle_eq hget]
  cases hverdict : Verdict.of a.stage attempt.stop? (scan.best? site) with
  | accept => exact .accept rfl MemoTable.find?_put_self
  | grow =>
    dsimp only
    rw [extend_eq hb]
    exact .grow rfl MemoTable.find?_put_self
  | finish =>
    have haloof' : (scan.judging site a.stage attempt).Aloof site.slot :=
      Has.judging (fun c hc => Option.some.inj (hget.symm.trans hc) ▸ haloof)
        Activation.aloof_stable hget attempt
    exact decides_finish hb hrule' (haloof' b hb) attempt
  | fail =>
    have hfailed : attempt = .failure := by
      have hnone := (Verdict.of_eq_fail_iff.mp hverdict).2
      cases attempt with
      | failure => rfl
      | success found => cases hnone
    exact .fail hfailed rfl MemoTable.find?_put_self

/-- An answer decided on is what the cell holds, and the scan is at its end. -/
theorem Decides.remembers {verdict : Verdict}
    (h : Decides site scan.memo attempt verdict (.ok (some outcome), scan')) :
    scan'.position = outcome.stop?.getD site.position ∧
      scan'.memo.find? site.rule site.position = some (.finished outcome) := by
  cases h with
  | accept hposition hcell => exact ⟨hposition, hcell⟩
  | finish hbest hposition hcell => exact ⟨hposition, hcell⟩
  | fail hattempt hposition hcell => exact ⟨hposition, hcell⟩

@[simp] theorem position_reenter (scan : Scan V M) (site : Site) :
    (scan.reenter site).2.position = scan.position := by
  unfold reenter
  split <;> rfl

/-- To release an activation that has its answer changes nothing but the stack. -/
theorem exists_release_ok (scan : Scan V M) (site : Site) (outcome : Outcome V) :
    ∃ stack, (release site (.ok outcome, scan)).2 = { scan with stack } := by
  have hpopped := exists_pop scan
  rcases hpop : scan.pop with ⟨defect | slot, scan'⟩ <;> rw [hpop] at hpopped
  · simpa only [release, hpop] using hpopped
  · simp only [release, hpop]
    split <;> exact hpopped

end Scan

namespace Engine

open Scan

variable {engine : Engine S V M} {room : Nat} {rule : RuleId} {scan scan' : Scan V M}
  {outcome : Outcome V} {site : Site} {body : Procedure S V M (Outcome V)}

/-- Growth that has come to an answer has decided on it last. -/
theorem growUpTo_ok {limit attempts : Nat} {below : List MemoKey}
    (hbusy : Busy below site scan) (haloof : scan.Aloof site.slot)
    (h : growUpTo (body.run engine.input (engine.invokeWithin room)) site limit attempts scan =
      (.ok outcome, scan')) :
    scan'.position = outcome.stop?.getD site.position ∧
      scan'.memo.find? site.rule site.position = some (.finished outcome) := by
  have hkept : Kept (fun scan : Scan V M => scan.Aloof site.slot) _ := kept_aloof site.slot
  have hevaluate := hkept.run engine room body
  obtain ⟨left, last, hrounds, hends⟩ :=
    exists_ends (body.run engine.input (engine.invokeWithin room)) site limit attempts scan
  rw [h] at hends
  have hbusy' := hrounds.busy (engine.invokeWithin_balanced room) hbusy
  have haloof' := hkept.rounds hevaluate trivial hrounds haloof
  cases hends with
  | @settled left _ scan₁ _ attempt _ hrun hsettle =>
    obtain ⟨-, hbusy₁⟩ := busy_settle (engine.invokeWithin_balanced room) hbusy' hrun
    have haloof₁ : scan₁.Aloof site.slot := by
      have hattempt := hevaluate (last.beginAttempt site) haloof'
      rwa [hrun] at hattempt
    obtain ⟨a, ha, hrule, -⟩ := hbusy₁.exists_get?
    have hdecides := decides_settle ha hrule (haloof₁ a ha) attempt
    rw [hsettle] at hdecides
    exact hdecides.remembers

/-- What an activation answers is what its growth has come to. -/
theorem growth_of_activate (howned : scan.Owned)
    (h : engine.activate (engine.invokeWithin room) rule body scan = (.ok outcome, scan')) :
    ∃ ended stack, growUpTo (body.run engine.input (engine.invokeWithin room)) (siteOf rule scan)
      (engine.attemptLimit scan.position) (engine.attemptLimit scan.position)
      (scan.enter (siteOf rule scan)) = (.ok outcome, ended) ∧ scan' = { ended with stack } := by
  have hanswer : (engine.activate (engine.invokeWithin room) rule body scan).1 = _ :=
    (activate_balanced (engine.invokeWithin_balanced room) howned).2
  rw [h] at hanswer
  rw [activate_eq] at h
  generalize growUpTo (body.run engine.input (engine.invokeWithin room)) (siteOf rule scan)
    (engine.attemptLimit scan.position) (engine.attemptLimit scan.position)
    (scan.enter (siteOf rule scan)) = grown at hanswer h ⊢
  obtain ⟨result, ended⟩ := grown
  obtain rfl : Except.ok outcome = result := hanswer
  obtain ⟨stack, hstack⟩ := exists_release_ok ended (siteOf rule scan) outcome
  rw [h] at hstack
  exact ⟨ended, stack, rfl, hstack⟩

/-- An activation starts aloof, in the slot that is free. -/
theorem aloof_enter (rule : RuleId) (scan : Scan V M) :
    (scan.enter (siteOf rule scan)).Aloof scan.stack.depth := by
  refine Has.enter (fun a ha => ?_) (fun _ _ => List.not_mem_nil) _
  exact absurd (ActivationStack.lt_depth_of_get? ha) (Nat.lt_irrefl _)

/-- An invocation that comes to an answer leaves the scan at its end, and the answer in the cell of
its key unless a marker has been there. -/
theorem remembers_of_ok (howned : scan.Owned)
    (h : engine.invokeWithin room rule scan = (.ok outcome, scan')) :
    scan'.position = outcome.stop?.getD scan.position ∧
      ((∀ slot, scan.memo.find? rule scan.position ≠ some (.inProgress slot)) →
        scan'.memo.find? rule scan.position = some (.finished outcome)) := by
  rcases hcell : scan.memo.find? rule scan.position with _ | ⟨found | slot⟩
  · cases room with
    | zero =>
      simp only [invokeWithin, answer, hcell] at h
      split at h <;> cases h
    | succ room =>
      cases hbody : engine.body? rule with
      | none =>
        simp only [invokeWithin, answer, hcell, hbody] at h
        cases h
      | some body =>
        rw [invokeWithin_of_body hcell hbody] at h
        obtain ⟨ended, stack, hgrown, rfl⟩ := growth_of_activate howned h
        obtain ⟨hposition, hfind⟩ := growUpTo_ok (howned.enter rule) (aloof_enter rule scan) hgrown
        exact ⟨hposition, fun _ => hfind⟩
  · rw [invokeWithin_of_finished hcell] at h
    cases h
    exact ⟨rfl, fun _ => hcell⟩
  · rw [invokeWithin_of_inProgress hcell] at h
    have hanswer := (reenter_owned howned hcell).1
    have hposition := position_reenter scan ⟨rule, scan.position, slot⟩
    rw [h] at hanswer hposition
    cases hanswer
    exact ⟨hposition, fun hfree => absurd rfl (hfree slot)⟩

end Engine

namespace Parser

variable [DecidableEq S]

/-- Wherever in the run of a parse a rule is invoked, if it comes to an answer the scan is at the
end of the match, or where it was on a failure. Unless a marker has been in the cell of its key,
the cell holds the answer, and another invocation at the key is answered with it and only counts
a hit. -/
theorem parse_remembers (parser : Parser S M) (input : Array S) (rule : RuleId) (options : Options)
    (memory : M) :
    ∀ scan, parser.Occurs input rule options memory scan →
    ∀ room rule' position outcome scan',
      (parser.engine input).invokeWithin room rule' { scan with position } =
        (.ok outcome, scan') →
      scan'.position = outcome.stop?.getD position ∧
      ((∀ slot, scan.memo.find? rule' position ≠ some (.inProgress slot)) →
        scan'.memo.find? rule' position = some (.finished outcome) ∧
        ∀ room', (parser.engine input).invokeWithin room' rule' { scan' with position } =
          (.ok outcome, { scan' with metrics.memoHits := scan'.metrics.memoHits + 1 })) := by
  intro scan hoccurs room rule' position outcome scan' hanswer
  have howned : Scan.Owned { scan with position } :=
    hoccurs.owned (parser.owned_firstScan _ _ _ _)
  obtain ⟨hposition, hcell⟩ := Engine.remembers_of_ok howned hanswer
  refine ⟨hposition, fun hfree => ?_⟩
  have hfound : scan'.memo.find? rule' position = some (.finished outcome) := hcell hfree
  refine ⟨hfound, fun room' => ?_⟩
  rw [Engine.invokeWithin_of_finished hfound]
  -- A hit goes to the end of the match, where the scan is already.
  unfold Scan.hit Scan.follow
  dsimp only
  rw [← hposition]

end Parser

/-- One climbs by way of a ladder, a rung at a time and two at most, and gets lost on the way. -/
def Grammar.climbing : Grammar Char Unit :=
  ⟨[⟨"climb", .procedure do
      let below ← Procedure.apply ⟨1⟩
      Procedure.goTo 9
      match below.stop? with
      | none => return .success ⟨5, 1, .leaf 5 1⟩
      | some 1 => return .success ⟨5, 2, .leaf 5 2⟩
      | some _ => return .failure⟩,
    ⟨"ladder", .procedure (Procedure.apply ⟨0⟩)⟩]⟩

/-- The climb grows to its second rung, where growth ends and the ladder is put back. It is at that
rung then, and is remembered. -/
theorem Parser.parse_remembers_climbing :
    let parser := new Grammar.climbing {}
    let engine := parser.engine #['x', 'y']
    let climb := engine.invokeWithin 2 ⟨0⟩ (parser.firstScan 2 ⟨0⟩ 0 ())
    ∃ found, climb.1 = .ok (.success found) ∧ found.stop = 2 ∧ climb.2.position = 2 ∧
      climb.2.memo.find? ⟨0⟩ 0 = some (.finished (.success found)) ∧
      ∀ room, engine.invokeWithin room ⟨0⟩ { climb.2 with position := 0 } =
        (.ok (.success found),
          { climb.2 with metrics.memoHits := climb.2.metrics.memoHits + 1 }) := by
  intro parser engine climb
  have hstop : climb.1.map Outcome.stop? = .ok (some 2) := by decide +kernel
  obtain ⟨outcome, hclimb, hsuccess⟩ : ∃ outcome, climb = (.ok outcome, climb.2) ∧
      outcome.stop? = some 2 := by
    rcases climb with ⟨error | outcome, scan⟩
    · cases hstop
    · exact ⟨outcome, rfl, Except.ok.inj hstop⟩
  cases outcome with
  | failure => cases hsuccess
  | success found =>
    have hremembers := parse_remembers parser #['x', 'y'] ⟨0⟩ {} () (parser.firstScan 2 ⟨0⟩ 0 ())
      (.called .here) 2 ⟨0⟩ 0 _ _ hclimb
    obtain ⟨hposition, hcell⟩ := hremembers
    have hstop : found.stop = 2 := Option.some.inj hsuccess
    refine ⟨found, congrArg Prod.fst hclimb, hstop, hposition.trans hstop, hcell ?_⟩
    intro slot hmarker
    cases MemoTable.find?_empty.symm.trans hmarker

end LeftPeg
