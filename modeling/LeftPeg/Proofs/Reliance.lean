import LeftPeg.Proofs.Attempt

/-!
# Reliable invocations

A body that keeps a scan orderly, whenever the invocations it makes do, makes invocations of its
rule that do (`Engine.invokeWithin_reliable`).  The induction is on the room left for activations.
Within one activation the attempts are counted: `Engine.growUpTo_spec` carries the bound that each
seed leaves less of the input to grow into, so that the attempts allowed are enough.
-/

namespace LeftPeg

variable {S V M : Type} {kept : RuleId → Nat → Outcome V → Prop} {size : Nat}

/-- All outcomes in the memo table satisfy `kept`. -/
def Scan.Keeps (kept : RuleId → Nat → Outcome V → Prop) (scan : Scan V M) : Prop :=
  ∀ ⦃rule position outcome⦄,
    scan.memo.find? rule position = some (.finished outcome) → kept rule position outcome

/-- What becomes of an orderly scan when an evaluation of `rule` that began there has come to an
answer. An error is no defect, and all that it leaves behind is sound outcomes. -/
inductive Comes (kept : RuleId → Nat → Outcome V → Prop) (size : Nat) (rule : RuleId)
    (scan : Scan V M) : Answer V M (Outcome V) → Prop where
  | error {error : ParseError} {scan' : Scan V M} (hsound : ∀ cause, error ≠ .defect cause)
      (hkeeps : scan'.Keeps kept) : Comes kept size rule scan (.error error, scan')
  | ok {outcome : Outcome V} {scan' : Scan V M} (horderly : scan'.Orderly kept size)
      (hdepth : scan'.stack.depth = scan.stack.depth)
      (hundisturbed : scan.Undisturbed scan.stack.depth scan')
      (hkept : kept rule scan.position outcome) : Comes kept size rule scan (.ok outcome, scan')

/-- An evaluation of `rule` that keeps the order of every scan that it is run on. -/
def Dependable (kept : RuleId → Nat → Outcome V → Prop) (size : Nat) (rule : RuleId)
    (evaluate : Scan V M → Answer V M (Outcome V)) : Prop :=
  ∀ scan, scan.Orderly kept size → scan.currentRule = some rule →
    Comes kept size rule scan (evaluate scan)

/-- A way to answer invocations that keeps the order of every scan, and leaves it at the end of a
match or where it was. -/
def Reliable (kept : RuleId → Nat → Outcome V → Prop) (size : Nat) (invoke : Invoke V M) : Prop :=
  ∀ rule scan, scan.Orderly kept size →
    Comes kept size rule scan (invoke rule scan) ∧
      ∀ outcome scan', invoke rule scan = (.ok outcome, scan') →
        scan'.position = outcome.stop?.getD scan.position

theorem Scan.Orderly.keeps {scan : Scan V M} (h : scan.Orderly kept size) : scan.Keeps kept :=
  fun _ _ _ => h.memo_kept

namespace Scan

variable {site : Site} {scan scan' : Scan V M} {a : Activation V} {outcome : Outcome V}

theorem Working.currentRule (hwork : Working site scan a) : scan.currentRule = some site.rule := by
  -- The slot of the site is the last one, and so the top of the stack.
  have htop := hwork.get?_eq
  rw [ActivationStack.get?_eq] at htop
  rw [Scan.currentRule, ActivationStack.top?_eq, List.getLast?_eq_getElem?,
    ActivationStack.length_toList, hwork.depth_eq, Nat.add_sub_cancel, htop]
  exact congrArg some hwork.rule_eq

/-- An attempt begins where its activation began, and nothing else changes. -/
theorem Working.beginAttempt (hwork : Working site scan a) (h : scan.Orderly kept size) :
    (scan.beginAttempt site).Orderly kept size := by
  refine Orderly.move h (hwork.position_le h) fun slot b hb => ?_
  have hslot : slot < scan.stack.depth := ActivationStack.lt_depth_of_get? hb
  have hdepth := hwork.depth_eq
  have hle := h.forward (by omega : slot ≤ site.slot) hb hwork.get?_eq
  rwa [hwork.position_eq] at hle

/-- Once its body has been evaluated, the activation at work is still on top, and its seed is the
one it had. -/
theorem Working.evaluated {attempt : Outcome V} (hwork : Working site scan a)
    (hcomes : Comes kept size site.rule (scan.beginAttempt site) (.ok attempt, scan')) :
    scan'.Orderly kept size ∧ kept site.rule site.position attempt ∧
      scan.Undisturbed site.slot scan' ∧ ∃ b, Working site scan' b ∧
        (a.stage = .growing → scan'.memo.find? site.rule site.position =
          scan.memo.find? site.rule site.position) := by
  cases hcomes with
  | ok horderly hdepth hundisturbed hkept =>
    have hslot : site.slot < (scan.beginAttempt site).stack.depth := by
      have hdepth : (scan.beginAttempt site).stack.depth = site.slot + 1 := hwork.depth_eq
      omega
    obtain ⟨b, hb, hcall, -, hmemo⟩ := hundisturbed site.slot a hslot hwork.get?_eq
    rw [hwork.rule_eq, hwork.position_eq] at hmemo
    refine ⟨horderly, hkept, LeftPeg.Undisturbed.mono (Nat.le_of_lt hslot) hundisturbed, b, ?_,
      hmemo⟩
    exact ⟨hdepth.trans hwork.depth_eq, hb, hcall.rule_eq.trans hwork.rule_eq,
      hcall.position_eq.trans hwork.position_eq⟩

/-- The cell of the site holds the marker of its activation. -/
def Marked (scan : Scan V M) (site : Site) : Prop :=
  scan.memo.find? site.rule site.position = some (.inProgress site.slot)

theorem Marked.dropMarker_eq (h : scan.Marked site) :
    scan.dropMarker site = { scan with memo := scan.memo.erase site.rule site.position } := by
  unfold dropMarker
  rw [h]
  exact if_pos rfl

theorem dropMarker_of_not_marked (h : ¬ scan.Marked site) : scan.dropMarker site = scan := by
  unfold dropMarker
  split
  · rename_i slot hmarker
    refine if_neg ?_
    rintro rfl
    exact h hmarker
  · rfl

theorem Keeps.dropMarker (h : scan.Keeps kept) (site : Site) :
    (scan.dropMarker site).Keeps kept := by
  by_cases hmarked : scan.Marked site
  · rw [hmarked.dropMarker_eq]
    intro rule position outcome hfind
    dsimp only at hfind
    rw [MemoTable.find?_erase] at hfind
    split at hfind
    · exact nomatch hfind
    · exact h hfind
  · rwa [dropMarker_of_not_marked hmarked]

theorem Keeps.pop (h : scan.Keeps kept) : scan.pop.2.Keeps kept := by
  obtain ⟨stack, hpop⟩ := exists_pop scan
  rw [hpop]
  exact h

end Scan

namespace Engine

open Scan

variable {site : Site} {scan : Scan V M} {a : Activation V}
  {evaluate : Scan V M → Answer V M (Outcome V)}

/-- Growth comes to an answer within the attempts allowed: each seed ends further to the right than
the one before, and none beyond the input. -/
theorem growUpTo_spec (limit : Nat) (hspan : Spanned kept size)
    (hevaluate : Dependable kept size site.rule evaluate) (attempts : Nat)
    (hwork : Working site scan a) (h : scan.Orderly kept size)
    (hseedless : a.stage ≠ .growing → size - site.position + 2 ≤ attempts)
    (hseed : ∀ best, a.stage = .growing →
      scan.memo.find? site.rule site.position = some (.finished (.success best)) →
      size - best.stop + 1 ≤ attempts) :
    (∃ error scan', growUpTo evaluate site limit attempts scan = (.error error, scan') ∧
      (∀ cause, error ≠ .defect cause) ∧ scan'.Keeps kept) ∨
    (∃ outcome scan', growUpTo evaluate site limit attempts scan = (.ok outcome, scan') ∧
      Answered kept size site scan scan' outcome) := by
  have hgrowing : a.stage = .growing → ∃ best,
      scan.memo.find? site.rule site.position = some (.finished (.success best)) := by
    intro hstage
    rw [← hwork.rule_eq, ← hwork.position_eq]
    exact h.seeded hwork.get?_eq hstage
  -- On the attempts that are left.  They exceed what is left of the input behind the seed, or, as
  -- long as there is no seed, behind the start by one more.
  induction attempts generalizing scan a with
  | zero =>
    exfalso
    by_cases hstage : a.stage = .growing
    · obtain ⟨best, hbest⟩ := hgrowing hstage
      have := hseed best hstage hbest
      omega
    · have := hseedless hstage
      omega
  | succ attempts ih =>
    have hbegun : Working site (scan.beginAttempt site) a :=
      ⟨hwork.depth_eq, hwork.get?_eq, hwork.rule_eq, hwork.position_eq⟩
    have hcomes := hevaluate _ (hwork.beginAttempt h) hbegun.currentRule
    unfold growUpTo
    cases hrun : evaluate (scan.beginAttempt site) with
    | mk result scan₁ =>
    rw [hrun] at hcomes
    cases result with
    | error error =>
      cases hcomes with
      | error hsound hkeeps => exact .inl ⟨error, scan₁, rfl, hsound, hkeeps⟩
    | ok attempt =>
      obtain ⟨horderly, hkept, hbelow, b, hwork₁, hmemo⟩ := hwork.evaluated hcomes
      dsimp only
      rcases settle_spec hwork₁ horderly hspan hkept with
        ⟨outcome, scan₂, hsettle, hanswered⟩ | ⟨found, scan₂, rfl, hsettle, hgrown, hlonger⟩
      · rw [hsettle]
        exact .inr ⟨outcome, scan₂, rfl, hanswered.of_undisturbed hbelow⟩
      · rw [hsettle]
        obtain ⟨c, hwork₂, hstage₂⟩ := hgrown.growing
        -- The new seed is longer than the old one, or it is the first one.
        have hattempts : size - found.stop + 1 ≤ attempts := by
          obtain ⟨hleft, hright⟩ : site.position ≤ found.stop ∧ found.stop ≤ size := hspan hkept
          by_cases hold : a.stage = .growing
          · obtain ⟨best, hbest⟩ := hgrowing hold
            have hroom := hseed best hold hbest
            have hless := hlonger best ((hmemo hold).trans hbest)
            omega
          · have hroom := hseedless hold
            omega
        have hcounted : Working site scan₂.countGrowth c :=
          ⟨hwork₂.depth_eq, hwork₂.get?_eq, hwork₂.rule_eq, hwork₂.position_eq⟩
        have hrest := ih hcounted hgrown.orderly (fun hne => (hne hstage₂).elim)
          (by
            intro best _ hbest
            have hsame := hgrown.find?_eq.symm.trans hbest
            injection hsame with hsame
            injection hsame with hsame
            injection hsame with hsame
            rw [← hsame]
            exact hattempts)
          (fun _ => ⟨found, hgrown.find?_eq⟩)
        have hbelow₂ : scan.Undisturbed site.slot scan₂.countGrowth :=
          LeftPeg.Undisturbed.trans hbelow hgrown.undisturbed
        rcases hrest with ⟨error, scan₃, hgrow, hsound⟩ | ⟨outcome, scan₃, hgrow, hanswered⟩
        · exact .inl ⟨error, scan₃, hgrow, hsound⟩
        · exact .inr ⟨outcome, scan₃, hgrow, hanswered.of_undisturbed hbelow₂⟩

/-- A rule with no cell at the present position becomes an activation, which comes to an answer
and is released. -/
theorem activate_spec (engine : Engine S V M) (hspan : Spanned kept engine.input.size)
    {invoke : Invoke V M} {rule : RuleId} {body : Procedure S V M (Outcome V)}
    (hbody : Dependable kept engine.input.size rule (body.run engine.input invoke))
    (h : scan.Orderly kept engine.input.size)
    (hfree : scan.memo.find? rule scan.position = none) :
    Comes kept engine.input.size rule scan (engine.activate invoke rule body scan) ∧
      ∀ outcome scan', engine.activate invoke rule body scan = (.ok outcome, scan') →
        scan'.position = outcome.stop?.getD scan.position := by
  let site : Site := ⟨rule, scan.position, scan.stack.depth⟩
  -- Entered, the activation has no seed and its whole allowance of attempts.
  have hwork : Working site (scan.enter site) { rule, position := scan.position } := by
    refine ⟨rfl, ?_, rfl, rfl⟩
    exact ActivationStack.get?_push.trans (if_pos rfl)
  have hentered : (scan.enter site).Orderly kept engine.input.size := Orderly.enter h hfree
  have hundisturbed : scan.Undisturbed scan.stack.depth (scan.enter site) :=
    Orderly.undisturbed_enter h hfree
  have hgrow := growUpTo_spec (engine.attemptLimit scan.position) hspan hbody
    (engine.attemptLimit scan.position) hwork hentered (fun _ => Nat.le_refl _)
    (fun best hstage => nomatch hstage)
  unfold activate
  dsimp only
  rcases hgrow with
    ⟨error, scan₁, hrun, hsound, hkeeps⟩ | ⟨outcome, scan₁, hrun, hanswered⟩
  · rw [hrun]
    refine ⟨.error hsound (hkeeps.dropMarker site).pop, ?_⟩
    intro outcome scan' hanswer
    exact nomatch hanswer
  · rw [hrun]
    -- An answer leaves the activation on top, so it is the one that is released.
    obtain ⟨rest, hpop, hdepth, hrest⟩ := ActivationStack.pop_of_depth hanswered.depth_eq
    have hrelease : Scan.release site (.ok outcome, scan₁) =
        (.ok outcome, { scan₁ with stack := rest }) := by
      simp [Scan.release, Scan.pop, hpop]
    obtain ⟨horderly, hbelow⟩ := hanswered.released rest hrest
    rw [hrelease]
    refine ⟨.ok horderly hdepth (LeftPeg.Undisturbed.trans hundisturbed hbelow)
      hanswered.answer_kept, ?_⟩
    intro outcome' scan' hanswer
    injection hanswer with houtcome hscan
    injection houtcome with houtcome
    subst houtcome hscan
    exact hanswered.position_eq

/-- Where a rule has a cell already, the cell answers. -/
theorem answer_spec (engine : Engine S V M) (hspan : Spanned kept engine.input.size)
    {evaluate : RuleId → Procedure S V M (Outcome V) → Scan V M → Answer V M (Outcome V)}
    {rule : RuleId} (h : scan.Orderly kept engine.input.size)
    (hfailure : kept rule scan.position .failure)
    (hevaluate : ∀ body, engine.body? rule = some body →
      scan.memo.find? rule scan.position = none →
      Comes kept engine.input.size rule scan (evaluate rule body scan) ∧
        ∀ outcome scan', evaluate rule body scan = (.ok outcome, scan') →
          scan'.position = outcome.stop?.getD scan.position) :
    Comes kept engine.input.size rule scan (engine.answer evaluate rule scan) ∧
      ∀ outcome scan', engine.answer evaluate rule scan = (.ok outcome, scan') →
        scan'.position = outcome.stop?.getD scan.position := by
  unfold answer
  cases hfind : scan.memo.find? rule scan.position with
  | none =>
    dsimp only
    cases hbody : engine.body? rule with
    | none =>
      refine ⟨.error (fun cause hcause => nomatch hcause) h.keeps, ?_⟩
      intro outcome scan' hanswer
      exact nomatch hanswer
    | some body => exact hevaluate body hbody hfind
  | some entry =>
    cases entry with
    | finished outcome =>
      dsimp only
      have hkept := h.memo_kept hfind
      constructor
      · refine .ok ?_ rfl LeftPeg.Undisturbed.refl hkept
        cases outcome with
        | failure => exact h
        | success found =>
          exact Orderly.advance h (hspan hkept).1 (hspan hkept).2
      · intro outcome' scan' hanswer
        injection hanswer with houtcome hscan
        injection houtcome with houtcome
        subst houtcome hscan
        rfl
    | inProgress slot =>
      -- The marker is owned, so coming back to it is no defect but a failure.
      obtain ⟨head, hhead, hrule, -⟩ := h.owned hfind
      have hreenter : scan.reenter ⟨rule, scan.position, slot⟩ =
          (.ok .failure,
            { scan with
              metrics.recursions := scan.metrics.recursions + 1
              stack := scan.stack.reenter slot }.record
              (.reentered rule scan.position (scan.stack.countAbove slot))) := by
        unfold Scan.reenter
        rw [if_pos]
        rw [hhead]
        simpa using hrule
      dsimp only
      rw [hreenter]
      constructor
      · exact .ok (Orderly.reenter h hfind) ActivationStack.depth_reenter
          (retelling_reenter (h.seedless hfind)).undisturbed hfailure
      · intro outcome scan' hanswer
        injection hanswer with houtcome hscan
        injection houtcome with houtcome
        subst houtcome hscan
        rfl

/-- If the bodies keep order whenever their invocations do, then so do all invocations. -/
theorem invokeWithin_reliable (engine : Engine S V M) (hspan : Spanned kept engine.input.size)
    (hfailure : ∀ rule position, kept rule position .failure)
    (hbodies : ∀ (invoke : Invoke V M), Reliable kept engine.input.size invoke →
      ∀ rule body, engine.body? rule = some body →
        Dependable kept engine.input.size rule (body.run engine.input invoke))
    (room : Nat) : Reliable kept engine.input.size (engine.invokeWithin room) := by
  induction room with
  | zero =>
    -- Without room, what is in the table is still answered.
    intro rule scan h
    refine engine.answer_spec hspan h (hfailure _ _) fun body hbody hfree => ?_
    refine ⟨.error (fun cause hcause => nomatch hcause) h.keeps, ?_⟩
    intro outcome scan' hanswer
    exact nomatch hanswer
  | succ room ih =>
    intro rule scan h
    refine engine.answer_spec hspan h (hfailure _ _) fun body hbody hfree => ?_
    exact engine.activate_spec hspan (hbodies _ ih rule body hbody) h hfree

end Engine

end LeftPeg
