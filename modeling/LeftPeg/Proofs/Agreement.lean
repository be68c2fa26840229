import LeftPeg.Proofs.Frames
import LeftPeg.Proofs.Leading
import LeftPeg.Proofs.Tracing

/-!
# Nothing is lost where left recursion is direct

Where left recursion is direct, a rule comes to what it settles on, whatever the memo table has
forgotten (`Engine.Resolves`). So a parse has the same result if outcomes are deleted whenever a
seed grows: none of those that are left in the table depends on the seed.

This is as far as it goes: a cycle of two rules is enough for an outcome that outlives its seed, as
with `Grammar.latecomer`.
-/

namespace LeftPeg

variable {S M : Type} [DecidableEq S]

/-- The activation on top is on a cycle. -/
def Scan.onCycle {V : Type} (scan : Scan V M) : Bool :=
  scan.stack.top?.any fun top => top.stage.isRecursive

theorem Stage.isRecursive_of_ne {stage : Stage} (h : stage ≠ .plain) :
    stage.isRecursive = true := by
  cases stage with
  | plain => exact absurd rfl h
  | seeding | growing => rfl

namespace Scan.Framed

variable {grammar : Grammar S M} {input : Array S} {frames : List Frame} {scan : Scan Tree M}
  {site : Site} {stage : Stage} {cell : Entry Tree}

theorem onCycle_eq (h : scan.Framed grammar input (site.frame stage cell :: frames)) :
    scan.onCycle = stage.isRecursive := by
  unfold Scan.onCycle ActivationStack.top?
  rw [h.live_eq]
  rfl

end Scan.Framed

namespace Engine

/-! ## Invocations -/

/-- What comes of an invocation: what the rule settles on, and the same frames as before, or an
error. An error is either about the number of live activations, or the rule cannot settle since
some rule is not there. -/
inductive Resolved (grammar : Grammar S M) (input : Array S) (frames : List Frame) (rule : RuleId)
    (scan : Scan Tree M) : Answer Tree M (Outcome Tree) → Prop where
  | settled {outcome : Outcome Tree} {log : FailureLog} {scan' : Scan Tree M}
      (hframed : scan'.Framed grammar input frames)
      (hposition : scan'.position = outcome.stop?.getD scan.position)
      (hsettled : grammar.Settled input rule scan.position outcome log)
      (hfailures : scan'.failures = scan.failures.noteAll log) :
      Resolved grammar input frames rule scan (.ok outcome, scan')
  | tooDeep {limit position : Nat} {scan' : Scan Tree M} :
      Resolved grammar input frames rule scan (.error (.tooDeep limit position), scan')
  | missing {name : String} {scan' : Scan Tree M}
      (hnone : ∀ outcome log, ¬ grammar.Settled input rule scan.position outcome log) :
      Resolved grammar input frames rule scan (.error (.unknownRule name), scan')

/-- The answer to an invocation for a key without a frame, to which the keys of all frames lead. -/
def Resolves (grammar : Grammar S M) (input : Array S) (root : MemoKey) (rule : RuleId)
    (scan : Scan Tree M) (answer : Answer Tree M (Outcome Tree)) : Prop :=
  ∀ ⦃frames⦄, scan.Framed grammar input frames → scan.position ≤ input.size →
    grammar.Reaches input root ⟨rule, scan.position⟩ →
    (∀ frame ∈ frames,
      Relation.TransGen (grammar.Leads input) frame.key ⟨rule, scan.position⟩) →
    (∀ frame ∈ frames, frame.key ≠ ⟨rule, scan.position⟩) →
    Resolved grammar input frames rule scan answer

/-! ## Attempts -/

/-- The activation at the site is on top of the frames. The keys of all frames lead to its key, and
none of them has it. -/
structure Placed (grammar : Grammar S M) (input : Array S) (root : MemoKey) (frames : List Frame)
    (site : Site) : Prop where
  slot_eq : site.slot = frames.length
  position_le : site.position ≤ input.size
  reached : grammar.Reaches input root site.key
  chain : ∀ frame ∈ frames, Relation.TransGen (grammar.Leads input) frame.key site.key
  new : ∀ frame ∈ frames, frame.key ≠ site.key

/-- How the evaluation of a body is read as an attempt to extend the best match. -/
def attemptReading (grammar : Grammar S M) (input : Array S) (frames : List Frame) (site : Site)
    (best : Outcome Tree) : Reading M Remark where
  fail := .missed
  answers := (grammar.Settled input).during site.key best
  Within rule place := grammar.Leads input site.key ⟨rule, place⟩
  Good scan := ∃ stage, (stage = .growing ↔ best.isSuccess = true) ∧
    scan.Framed grammar input (site.frame stage (site.cell best) :: frames)
  Track scan remarks scan' :=
    scan'.failures = scan.failures.noteAll (Remark.failures remarks) ∧
    (scan'.onCycle = true ↔ scan.onCycle = true ∨ .returned ∈ remarks)
  Lost _ := False
  Beyond _ _ := False
  Excused error := ∃ limit position, error = .tooDeep limit position

section

variable (engine : Engine S Tree M) {grammar : Grammar S M}
  {evaluate : RuleId → Procedure S Tree M (Outcome Tree) → Scan Tree M →
    Answer Tree M (Outcome Tree)}
  {frames : List Frame} {site : Site} {best : Outcome Tree} {scan scan' : Scan Tree M}
  {root : MemoKey} {rule : RuleId} {outcome : Outcome Tree} {error : ParseError}

/-- A rule that comes back to itself is answered with the best match so far. If that is none, it
learns that it is on a cycle. -/
theorem answer_own (hplaced : Placed grammar engine.input root frames site)
    (hgood : (attemptReading grammar engine.input frames site best).Good scan)
    (hposition : scan.position = site.position) :
    ∃ scan', engine.answer evaluate site.rule scan = (.ok best, scan') ∧
      (attemptReading grammar engine.input frames site best).Good scan' ∧
      scan'.position = best.stop?.getD scan.position ∧
      (attemptReading grammar engine.input frames site best).Track scan [.returned] scan' := by
  obtain ⟨stage, hstage, hframed⟩ := hgood
  have hcell : scan.memo.find? site.rule scan.position = some (site.cell best) := by
    rw [hposition]
    exact hframed.find?_eq List.mem_cons_self
  cases best with
  | success found =>
    -- The seed is in the table, and only a growing activation has one.
    have hanswer : engine.answer evaluate site.rule scan =
        (.ok (.success found), scan.hit (.success found)) := by
      unfold answer
      rw [hcell]
      rfl
    have hgrowing : stage = .growing := hstage.mpr rfl
    subst hgrowing
    have hhit : (scan.hit (.success found)).Framed grammar engine.input
        (site.frame .growing (site.cell (.success found)) :: frames) := { hframed with }
    refine ⟨_, hanswer, ⟨.growing, hstage, hhit⟩, rfl, rfl, ?_⟩
    rw [hhit.onCycle_eq]
    simp [Stage.isRecursive]
  | failure =>
    -- The marker is in the table, and coming back to it puts the activation on a cycle.
    have htop := hframed.get?_top hplaced.slot_eq
    have hanswer : engine.answer evaluate site.rule scan = scan.reenter site := by
      unfold answer
      rw [hcell, hposition]
      rfl
    have hreenter : scan.reenter site = (.ok .failure,
        { scan with
          metrics.recursions := scan.metrics.recursions + 1
          stack := scan.stack.reenter site.slot }.record
          (.reentered site.rule site.position (scan.stack.countAbove site.slot))) := by
      unfold Scan.reenter
      rw [htop]
      exact if_pos (decide_eq_true rfl)
    rw [hreenter] at hanswer
    have hseeding : Scan.Framed grammar engine.input
        (site.frame .seeding (site.cell .failure) :: frames)
        ({ scan with
          metrics.recursions := scan.metrics.recursions + 1
          stack := scan.stack.reenter site.slot }.record
          (.reentered site.rule site.position (scan.stack.countAbove site.slot))) := by
      refine hframed.replace rfl hplaced.new ?_ (hframed.find?_eq List.mem_cons_self)
        (fun _ _ _ => rfl) rfl
      exact ActivationStack.live_reenter_top hframed.live_eq
        (by rw [hplaced.slot_eq, List.length_map])
    refine ⟨_, hanswer, ⟨.seeding, by simp [Outcome.isSuccess], hseeding⟩, rfl, rfl, ?_⟩
    rw [hseeding.onCycle_eq]
    simp [Stage.isRecursive]

/-- The other rules that the body leads to are answered with what they settle on. They are no live
activations, since these lead to the rule at work, and left recursion is direct. -/
theorem resolved_other (hdirect : grammar.Direct engine.input root)
    (hanswer : Resolves grammar engine.input root rule scan (engine.answer evaluate rule scan))
    (hplaced : Placed grammar engine.input root frames site)
    (hother : (⟨rule, scan.position⟩ : MemoKey) ≠ site.key)
    (hleads : grammar.Leads engine.input site.key ⟨rule, scan.position⟩) {frame : Frame}
    (hkey : frame.key = site.key) (hframed : scan.Framed grammar engine.input (frame :: frames))
    (hstart : scan.position ≤ engine.input.size) :
    Resolved grammar engine.input (frame :: frames) rule scan
      (engine.answer evaluate rule scan) := by
  apply hanswer hframed hstart (hplaced.reached.step hleads)
  · intro other hmem
    rcases List.mem_cons.mp hmem with rfl | hmem
    · rw [hkey]
      exact .single hleads
    · exact .tail (hplaced.chain other hmem) hleads
  · intro other hmem hlive
    rcases List.mem_cons.mp hmem with rfl | hmem
    · exact hother (hlive.symm.trans hkey)
    -- The key at work leads to this one and the other way round, so the two would be the same.
    · have hback := hplaced.chain other hmem
      refine hplaced.new other hmem (hdirect _ _ hplaced.reached ?_ hback).symm
      rw [hlive]
      exact .single hleads

/-- An attempt follows its evaluation, with the rules answered by what they settle on. -/
theorem tracing_attempt (hdirect : grammar.Direct engine.input root)
    (hanswer : ∀ rule scan,
      Resolves grammar engine.input root rule scan (engine.answer evaluate rule scan))
    (hplaced : Placed grammar engine.input root frames site)
    (hbest : best.Fits site.position engine.input.size) :
    Tracing engine.input (engine.answer evaluate)
      (attemptReading grammar engine.input frames site best) where
  good_move position := by
    rintro ⟨stage, hstage, hframed⟩
    exact ⟨stage, hstage, hframed.move position⟩
  good_miss expected := by
    rintro ⟨stage, hstage, hframed⟩
    exact ⟨stage, hstage, hframed.miss expected⟩
  track_move _ _ := ⟨rfl, by simp [Scan.onCycle]⟩
  track_miss _ _ := ⟨rfl, by simp [Scan.onCycle, Scan.miss, Scan.record, attemptReading]⟩
  track_append {scan scan' scan'' log log'} h h' := by
    refine ⟨?_, ?_⟩
    · rw [h'.1, h.1, Remark.failures_append, FurthestFailure.noteAll_append]
    · rw [h'.2, h.2, List.mem_append, or_assoc]
  span := Answers.during_span Grammar.settled_span hbest
  invoked {rule scan scan' outcome} hwithin hgood hstart hrun := by
    -- No run gets lost here: a rule is the one at work, or it is resolved.
    left
    by_cases hown : (⟨rule, scan.position⟩ : MemoKey) = site.key
    · injection hown with hrule hposition
      subst hrule
      obtain ⟨scan'', hown, hgood'', hposition'', htrack⟩ :=
        engine.answer_own hplaced hgood hposition
      rw [hrun] at hown
      injection hown with houtcome hscan
      injection houtcome with houtcome
      subst houtcome hscan
      exact ⟨hgood'', hposition'', [.returned], (Answers.during_own (congrArg _ hposition)).mpr
        ⟨rfl, rfl⟩, htrack⟩
    · obtain ⟨stage, hstage, hframed⟩ := hgood
      have hresolved := engine.resolved_other hdirect (hanswer rule scan) hplaced hown hwithin rfl
        hframed hstart
      rw [hrun] at hresolved
      cases hresolved with
      | @settled _ log _ hframed' hposition hsettled hfailures =>
        refine ⟨⟨stage, hstage, hframed'⟩, hposition, Remark.ofFailures log,
          (Answers.during_other hown).mpr ⟨log, hsettled, rfl⟩, ?_, ?_⟩
        · rw [Remark.failures_ofFailures, hfailures]
        · rw [hframed'.onCycle_eq, hframed.onCycle_eq]
          simp [Remark.returned_not_mem_ofFailures]
  aborted {rule scan scan' error} hwithin hgood hstart hrun := by
    by_cases hown : (⟨rule, scan.position⟩ : MemoKey) = site.key
    · injection hown with hrule hposition
      subst hrule
      obtain ⟨scan'', hown, -⟩ := engine.answer_own hplaced hgood hposition
      cases hown.symm.trans hrun
    · obtain ⟨stage, hstage, hframed⟩ := hgood
      have hresolved := engine.resolved_other hdirect (hanswer rule scan) hplaced hown hwithin rfl
        hframed hstart
      rw [hrun] at hresolved
      cases hresolved with
      | tooDeep => exact .inl ⟨_, _, rfl⟩
      | missing hnone =>
        refine .inr (.inl ⟨⟨_, rfl⟩, fun outcome remarks hduring => ?_⟩)
        obtain ⟨log, hsettled, -⟩ := (Answers.during_other hown).mp hduring
        exact hnone outcome log hsettled
  lasting := ⟨fun _ h => h.elim, fun _ h => h.elim, fun _ h => h.elim⟩

/-! ## Growth -/

/-- What comes of attempts to extend the best match: what they settle on, or an error as in
`Resolved`. -/
inductive Attempted (grammar : Grammar S M) (input : Array S) (frames : List Frame) (site : Site)
    (form : Expression S) (stage : Stage) (best : Outcome Tree) (scan : Scan Tree M) :
    Answer Tree M (Outcome Tree) → Prop where
  | settled {outcome : Outcome Tree} {remarks : List Remark} {scan' : Scan Tree M}
      (hsettling : Settling (Attempts input (grammar.Settled input) site.key form)
        stage.isRecursive best outcome remarks)
      (hframed : scan'.Framed grammar input (site.frame .plain (.finished outcome) :: frames))
      (hposition : scan'.position = outcome.stop?.getD site.position)
      (hfailures : scan'.failures = scan.failures.noteAll (Remark.failures remarks)) :
      Attempted grammar input frames site form stage best scan (.ok outcome, scan')
  | tooDeep {limit position : Nat} {scan' : Scan Tree M} :
      Attempted grammar input frames site form stage best scan
        (.error (.tooDeep limit position), scan')
  | missing {name : String} {scan' : Scan Tree M}
      (hnone : ∀ outcome remarks,
        ¬ Settling (Attempts input (grammar.Settled input) site.key form) stage.isRecursive best
          outcome remarks) :
      Attempted grammar input frames site form stage best scan (.error (.unknownRule name), scan')

/-- An attempt that extends the best match on a cycle is followed by others. -/
theorem Attempted.of_grown {input : Array S} {form : Expression S} {stage : Stage}
    {attempt : Outcome Tree} {remarks : List Remark} {answer : Answer Tree M (Outcome Tree)}
    (hattempt : Attempts input (grammar.Settled input) site.key form best attempt remarks)
    (hrecursive : stage.isRecursive = true ∨ .returned ∈ remarks) (hlonger : attempt.Extends best)
    (hfailures : scan'.failures = scan.failures.noteAll (Remark.failures remarks))
    (hrest : Attempted grammar input frames site form .growing attempt scan' answer) :
    Attempted grammar input frames site form stage best scan answer := by
  cases hrest with
  | tooDeep => exact .tooDeep
  | settled hsettling hframed hposition hfailures' =>
    refine .settled (.grow hattempt hrecursive hlonger hsettling) hframed hposition ?_
    rw [hfailures', hfailures, Remark.failures_append, FurthestFailure.noteAll_append]
  | missing hnone =>
    refine .missing fun outcome remarks hsettling => ?_
    obtain ⟨remarks', hrest⟩ := hsettling.rest (fun h h' => h.unique Grammar.settled_agree h')
      hattempt hrecursive hlonger
    exact hnone outcome remarks' hrest

/-- The leftmost end that extends the best match. -/
def leastEnd (start : Nat) (best : Outcome Tree) : Nat :=
  (best.stop?.map (· + 1)).getD start

theorem leastEnd_of_extends {start size : Nat} {attempt : Outcome Tree}
    (hfits : attempt.Fits start size) (hlonger : attempt.Extends best) :
    leastEnd start best < leastEnd start attempt := by
  obtain ⟨stop, hstop, hlonger⟩ := hlonger
  cases attempt with
  | failure => exact nomatch hstop
  | success found =>
    injection hstop with hstop
    have hend : leastEnd start (.success found) = stop + 1 := congrArg (· + 1) hstop
    rw [hend]
    cases best with
    | failure =>
      have hle := (hfits found rfl).1
      show start < stop + 1
      omega
    | success least =>
      have hlt := hlonger least.stop rfl
      show least.stop + 1 < stop + 1
      omega

/-- The attempts left are enough, since each of them that does not settle the activation moves the
end of the best match to the right. -/
theorem attempted_growBy (hdirect : grammar.Direct engine.input root)
    (hanswer : ∀ rule scan,
      Resolves grammar engine.input root rule scan (engine.answer evaluate rule scan))
    {settle : Settle Tree M} (hsifts : settle.Sifts) {form : Expression S}
    (hbody : grammar.body? site.rule = some (.expression form))
    (hplaced : Placed grammar engine.input root frames site) (limit attempts : Nat) {stage : Stage}
    (hstage : stage = .growing ↔ best.isSuccess = true)
    (hbest : grammar.Bests engine.input site.key form best)
    (hframed : scan.Framed grammar engine.input (site.frame stage (site.cell best) :: frames))
    (hroom : engine.input.size + 2 ≤ attempts + leastEnd site.position best) :
    Attempted grammar engine.input frames site form stage best scan
      (growBy settle (form.toProcedure.run engine.input (engine.answer evaluate)) site limit
        attempts scan) := by
  have hstart := hplaced.position_le
  -- On the attempts that are left: with the leftmost end of the next seed they exceed the input.
  induction attempts generalizing stage best scan with
  | zero =>
    cases best with
    | failure =>
      have hend : leastEnd site.position .failure = site.position := rfl
      omega
    | success found =>
      have hend : leastEnd site.position (.success found) = found.stop + 1 := rfl
      have hstop := (hbest.fits hstart found rfl).2
      omega
  | succ attempts ih =>
    have htracing := engine.tracing_attempt hdirect hanswer hplaced (hbest.fits hstart)
    have hgood : (attemptReading grammar engine.input frames site best).Good
        (scan.beginAttempt site) := ⟨stage, hstage, { hframed with }⟩
    have hrule : ∀ {scan : Scan Tree M},
        (attemptReading grammar engine.input frames site best).Good scan →
        scan.currentRule = some site.rule := by
      rintro scan ⟨_, _, hframed⟩
      exact hframed.currentRule
    have hwithin : ∀ {rule place}, (attemptReading grammar engine.input frames site best).Arrives
        engine.input (.rule rule) place (.one form) site.position →
        grammar.Leads engine.input site.key ⟨rule, place⟩ :=
      fun harrives => ⟨hstart, form, best, hbody, hbest, harrives⟩
    have htraced := traced_toProcedure htracing hrule form hgood hstart hwithin
    unfold growBy
    generalize form.toProcedure.run engine.input (engine.answer evaluate)
      (scan.beginAttempt site) = answer at htraced
    cases htraced with
    | excused hexcused =>
      obtain ⟨limit, position, rfl⟩ := hexcused
      exact .tooDeep
    | stuck hstuck harrives =>
      -- To settle, the rule would have to make the attempt that this one is stuck in.
      refine .missing fun outcome remarks hsettling => ?_
      obtain ⟨_, _, _, hform, -⟩ := hsettling.exists_attempt
      obtain ⟨found, log, htarget⟩ :=
        harrives.evaluated (Answers.during_agree Grammar.settled_agree) hform
      exact hstuck.not_evaluates (fun _ => id) htarget
    | lost hlost => exact hlost.elim
    | @found found remarks scan₁ hgood₁ htrack hgoal =>
      obtain ⟨stage₁, hstage₁, hframed₁⟩ := hgood₁
      have hattempt : Attempts engine.input (grammar.Settled engine.input) site.key form best
          (.ofFound site.rule site.position found) remarks := ⟨found, hgoal, rfl⟩
      -- The activation is on a cycle now if it was before or the rule came back to itself.
      have hcycle : stage₁.isRecursive = true ↔
          stage.isRecursive = true ∨ .returned ∈ remarks := by
        rw [← hframed₁.onCycle_eq, ← hframed.onCycle_eq]
        exact htrack.2
      have hdecided := hframed₁.settleBy hsifts hplaced.slot_eq hplaced.new hstage₁
        (.ofFound site.rule site.position found)
      have hposition : (scan.beginAttempt site).position = site.position := rfl
      dsimp only
      rw [hposition]
      generalize Outcome.ofFound site.rule site.position found = attempt at hattempt hdecided
      generalize settle scan₁ site attempt = answer at hdecided
      cases hdecided with
      | accepted hplain hended =>
        have hplain₁ : ¬ stage₁.isRecursive = true := by
          rw [hplain]
          exact Bool.false_ne_true
        obtain ⟨hplain, hremarks⟩ := not_or.mp fun h => hplain₁ (hcycle.mpr h)
        refine .settled ?_ hended.framed hended.position_eq (hended.failures_eq.trans htrack.1)
        rw [Bool.not_eq_true] at hplain
        rw [hplain]
        exact .accept hattempt hremarks
      | kept hrecursive hshort hended =>
        refine .settled ?_ hended.framed hended.position_eq (hended.failures_eq.trans htrack.1)
        exact .keep hattempt (hcycle.mp (Stage.isRecursive_of_ne hrecursive)) hshort
      | @grown scan₂ hrecursive hlonger hframed₂ hfailures₂ =>
        -- The attempt is the seed of those that follow, and ends further to the right.
        have hnext := Grammar.Bests.next hbest hattempt hlonger
        have hmoved : leastEnd site.position best < leastEnd site.position attempt :=
          leastEnd_of_extends (hnext.fits hstart) hlonger
        have hsuccess : Stage.growing = .growing ↔ attempt.isSuccess = true := by
          obtain ⟨stop, hstop, -⟩ := hlonger
          cases attempt with
          | failure => cases hstop
          | success found => simp [Outcome.isSuccess]
        have hcounted : scan₂.countGrowth.Framed grammar engine.input
            (site.frame .growing (site.cell attempt) :: frames) := { hframed₂ with }
        have hrest := ih hsuccess hnext hcounted (by omega)
        have hfailures : scan₂.countGrowth.failures =
            scan.failures.noteAll (Remark.failures remarks) := hfailures₂.trans htrack.1
        exact .of_grown hattempt (hcycle.mp (Stage.isRecursive_of_ne hrecursive)) hlonger
          hfailures hrest

/-! ## Runs -/

/-- An activation comes to what its rule settles on. -/
theorem resolves_activateBy (hdirect : grammar.Direct engine.input root)
    (hanswer : ∀ rule scan,
      Resolves grammar engine.input root rule scan (engine.answer evaluate rule scan))
    {settle : Settle Tree M} (hsifts : settle.Sifts) {form : Expression S}
    (hbody : grammar.body? rule = some (.expression form)) (scan : Scan Tree M) :
    Resolves grammar engine.input root rule scan
      (engine.activateBy settle (engine.answer evaluate) rule form.toProcedure scan) := by
  intro frames hframed hstart hreached hchain hnew
  have hdepth : scan.stack.depth = frames.length := by
    rw [scan.stack.depth_eq, hframed.live_eq, List.length_map]
  let site : Site := ⟨rule, scan.position, scan.stack.depth⟩
  have hplaced : Placed grammar engine.input root frames site :=
    ⟨hdepth, hstart, hreached, hchain, hnew⟩
  have hattempted : Attempted grammar engine.input frames site form .plain .failure
      (scan.enter site) _ :=
    engine.attempted_growBy hdirect hanswer hsifts hbody hplaced
      (engine.attemptLimit scan.position) (engine.attemptLimit scan.position)
      (by simp [Outcome.isSuccess]) .first (hframed.enter hnew) ?_
  · unfold activateBy
    dsimp only
    generalize growBy settle _ _ _ _ _ = answer at hattempted
    cases hattempted with
    | tooDeep => exact .tooDeep
    | missing hnone =>
      refine .missing fun outcome log hsettled => ?_
      obtain ⟨form', remarks, hbody', hsettling, -⟩ := Grammar.settled_iff.mp hsettled
      rw [hbody] at hbody'
      cases hbody'
      exact hnone outcome remarks hsettling
    | @settled outcome remarks scan₁ hsettling hframed₁ hposition hfailures =>
      -- What the attempts settle on is what the rule settles on, and its failures have been noted.
      have hsettled : grammar.Settled engine.input rule scan.position outcome
          (Remark.failures remarks) :=
        Grammar.settled_iff.mpr ⟨form, remarks, hbody, hsettling, rfl⟩
      have hlength : site.slot = (frames.map Frame.activation).length := by
        rw [List.length_map]
        exact hdepth
      obtain ⟨stack, hrelease, hlive⟩ := Scan.release_top hframed₁.live_eq hlength outcome
      rw [hrelease]
      refine .settled (hframed₁.release hsettled ?_ hlive rfl rfl) hposition hsettled hfailures
      intro entry hmem
      rw [hfailures]
      exact FurthestFailure.absorbs_noteAll _ hmem
  · have hend : leastEnd site.position .failure = scan.position := rfl
    have hlimit : engine.attemptLimit scan.position = engine.input.size - scan.position + 2 := rfl
    omega

/-- An invocation for a key without a frame is answered by a cell that holds what the rule settles
on, or by an activation. -/
theorem resolves_answer {rule : RuleId} {scan : Scan Tree M}
    (hbodies : ∀ rule, engine.body? rule = none → grammar.body? rule = none)
    (hevaluate : ∀ body, engine.body? rule = some body →
      Resolves grammar engine.input root rule scan (evaluate rule body scan)) :
    Resolves grammar engine.input root rule scan (engine.answer evaluate rule scan) := by
  intro frames hframed hstart hreached hchain hnew
  unfold answer
  split
  · rename_i outcome hfind
    rcases hframed.settled hfind with ⟨frame, hmem, hkey⟩ | ⟨log, hsettled, habsorbs⟩
    · exact absurd hkey (hnew frame hmem)
    · refine .settled { hframed with } rfl hsettled ?_
      -- The failures of the outcome were noted when it was found.
      exact (FurthestFailure.noteAll_of_absorbs habsorbs).symm
  · rename_i slot hfind
    obtain ⟨frame, hmem, hkey⟩ := hframed.marked hfind
    exact absurd hkey (hnew frame hmem)
  · split
    · rename_i hnone
      refine .missing fun outcome log hsettled => ?_
      obtain ⟨form, remarks, hbody, -⟩ := Grammar.settled_iff.mp hsettled
      exact nomatch (hbodies rule hnone).symm.trans hbody
    · rename_i body hbody
      exact hevaluate body hbody hframed hstart hreached hchain hnew

/-- All invocations come to what their rules settle on where all bodies are expressions. -/
theorem resolves_invokeBy (hdirect : grammar.Direct engine.input root)
    (hbodies : ∀ rule, engine.body? rule = none → grammar.body? rule = none)
    (hforms : ∀ rule body, engine.body? rule = some body → ∃ form : Expression S,
      body = form.toProcedure ∧ grammar.body? rule = some (.expression form))
    {settle : Settle Tree M} (hsifts : settle.Sifts) (room : Nat) (rule : RuleId)
    (scan : Scan Tree M) :
    Resolves grammar engine.input root rule scan (engine.invokeBy settle room rule scan) := by
  induction room generalizing rule scan with
  | zero =>
    -- Without room for an activation a cell still answers.
    apply engine.resolves_answer hbodies
    intro body hbody frames hframed hstart hreached hchain hnew
    exact .tooDeep
  | succ room ih =>
    apply engine.resolves_answer hbodies
    intro body hbody
    obtain ⟨form, rfl, hform⟩ := hforms rule body hbody
    cases room with
    | zero => exact engine.resolves_activateBy hdirect ih hsifts hform scan
    | succ room => exact engine.resolves_activateBy hdirect ih hsifts hform scan

end

end Engine

/-! ## Parses -/

namespace Parser

variable {parser : Parser S M}

theorem framed_firstScan (input : Array S) (rule : RuleId) (start : Nat) (memory : M) :
    (parser.firstScan input.size rule start memory).Framed parser.grammar input [] where
  live_eq := rfl
  find?_eq hmem := nomatch hmem
  marked hfind := nomatch MemoTable.find?_empty.symm.trans hfind
  settled hfind := nomatch MemoTable.find?_empty.symm.trans hfind

/-- What comes of a parse depends on nothing but what the start rule settles on, unless too many
activations are live at once. -/
theorem result_parseBy (hforms : parser.grammar.OfExpressions) {input : Array S} {rule : RuleId}
    {options : Options} (hdirect : parser.grammar.Direct input ⟨rule, options.start?.getD 0⟩)
    {settle : Settle Tree M} (hsifts : settle.Sifts) (hrule : rule.index < parser.grammar.size)
    (hstart : options.start?.getD 0 ≤ input.size) (memory : M) :
    let result := (parser.parseBy settle input rule options memory).result
    let start := options.start?.getD 0
    (∃ outcome log, parser.grammar.Settled input rule start outcome log ∧
      result = conclude (FurthestFailure.empty.noteAll log) options input.size outcome) ∨
    (∃ limit position, result = .error (.tooDeep limit position)) ∨
    (∃ name, result = .error (.unknownRule name)) ∧
      ∀ outcome log, ¬ parser.grammar.Settled input rule start outcome log := by
  intro result start
  have hparse : parser.parseBy settle input rule options memory =
      parser.close options input.size ((parser.engine input).invokeBy settle parser.config.maxDepth
        rule (parser.firstScan input.size rule start memory)) := by
    unfold parseBy
    rw [if_neg (by omega), if_neg (by omega)]
  have hbodies : ∀ rule, (parser.engine input).body? rule = none →
      parser.grammar.body? rule = none := fun _ hnone => Option.map_eq_none_iff.mp hnone
  have hresolved := (parser.engine input).resolves_invokeBy hdirect hbodies
    (fun rule body hbody => body?_engine hforms hbody) hsifts parser.config.maxDepth rule _
    (framed_firstScan input rule start memory) hstart (.inl rfl) (fun _ hmem => nomatch hmem)
    (fun _ hmem => nomatch hmem)
  have hresult : result = (parser.close options input.size _).result :=
    congrArg Parse.result hparse
  generalize (parser.engine input).invokeBy settle parser.config.maxDepth rule
    (parser.firstScan input.size rule start memory) = answer at hresolved hresult
  cases hresolved with
  | @settled outcome log scan' _ _ hsettled hfailures =>
    refine .inl ⟨outcome, log, hsettled, hresult.trans ?_⟩
    show conclude scan'.failures options input.size outcome = _
    rw [hfailures]
    rfl
  | tooDeep => exact .inr (.inl ⟨_, _, hresult⟩)
  | missing hnone => exact .inr (.inr ⟨⟨_, hresult⟩, hnone⟩)

/-- Where left recursion is direct and not too many activations are live at once, to delete
outcomes whenever a seed grows makes no difference: a parse has the same result, or else it ends at
a rule that is not there. -/
theorem parse_purging (hforms : parser.grammar.OfExpressions) (input : Array S) (rule : RuleId)
    (options : Options) (hdirect : parser.grammar.Direct input ⟨rule, options.start?.getD 0⟩)
    (memory : M)
    (hparse : ∀ limit position,
      (parser.parse input rule options memory).result ≠ .error (.tooDeep limit position))
    (hpurging : ∀ limit position,
      (parser.parsePurging input rule options memory).result ≠ .error (.tooDeep limit position)) :
    (parser.parsePurging input rule options memory).result =
        (parser.parse input rule options memory).result ∨
      ∃ name name',
        (parser.parse input rule options memory).result = .error (.unknownRule name) ∧
        (parser.parsePurging input rule options memory).result = .error (.unknownRule name') := by
  rw [← parser.parseBy_settle] at hparse ⊢
  unfold parsePurging at hpurging ⊢
  by_cases hrule : rule.index < parser.grammar.size
  · by_cases hstart : options.start?.getD 0 ≤ input.size
    -- Both runs are compared with what the start rule settles on, not with each other.
    · rcases result_parseBy hforms hdirect Scan.settle_sifts hrule hstart memory with
        ⟨outcome, log, hsettled, hresult⟩ | ⟨limit, position, hresult⟩ | ⟨⟨name, hresult⟩, hnone⟩
      · rcases result_parseBy hforms hdirect Scan.settlePurging_sifts hrule hstart memory with
          ⟨outcome', log', hsettled', hresult'⟩ | ⟨limit, position, hresult'⟩ | ⟨-, hnone⟩
        · obtain ⟨rfl, rfl⟩ := Grammar.settled_agree hsettled hsettled'
          exact .inl (hresult'.trans hresult.symm)
        · exact absurd hresult' (hpurging limit position)
        · exact absurd hsettled (hnone outcome log)
      · exact absurd hresult (hparse limit position)
      · rcases result_parseBy hforms hdirect Scan.settlePurging_sifts hrule hstart memory with
          ⟨outcome', log', hsettled', -⟩ | ⟨limit, position, hresult'⟩ | ⟨⟨name', hresult'⟩, -⟩
        · exact absurd hsettled' (hnone outcome' log')
        · exact absurd hresult' (hpurging limit position)
        · exact .inr ⟨name, name', hresult, hresult'⟩
    · have hsize : ¬ parser.grammar.size ≤ rule.index := by omega
      have hlt : input.size < options.start?.getD 0 := by omega
      left
      simp only [parseBy, if_neg hsize, if_pos hlt]
  · have hsize : parser.grammar.size ≤ rule.index := by omega
    left
    simp only [parseBy, if_pos hsize]

end Parser

/-- The left recursion of `ells` is direct. -/
theorem Grammar.ells_direct (input : Array Char) (root : MemoKey) :
    Grammar.ells.Direct input root := by
  apply Grammar.direct_of_targets fun _ => 0
  rintro ⟨index⟩ form hbody target htarget
  cases index with
  | zero =>
    injection hbody with hbody
    injection hbody with hbody
    subst hbody
    rw [List.mem_singleton.mp htarget]
    exact .inl rfl
  | succ index => exact nomatch hbody

/-- Two letters are one match, with and without purging. -/
theorem Parser.parse_purging_ells :
    let parser := new Grammar.ells {}
    (parser.parsePurging #['l', 'l'] ⟨0⟩ {} ()).result =
        (parser.parse #['l', 'l'] ⟨0⟩ {} ()).result ∧
      (parser.parse #['l', 'l'] ⟨0⟩ {} ()).result.toOption.map Match.stop = some 2 := by
  intro parser
  have hstop : (parser.parse #['l', 'l'] ⟨0⟩ {} ()).result.toOption.map Match.stop = some 2 := by
    decide +kernel
  have hpurging : (parser.parsePurging #['l', 'l'] ⟨0⟩ {} ()).result.toOption.map Match.stop =
      some 2 := by
    decide +kernel
  have hnoError : ∀ {result : Except ParseError (Match Tree)} {error},
      result.toOption.map Match.stop = some 2 → result ≠ .error error := by
    intro result error hstop hresult
    rw [hresult] at hstop
    exact nomatch hstop
  refine ⟨?_, hstop⟩
  rcases parse_purging Grammar.ells_ofExpressions #['l', 'l'] ⟨0⟩ {} (Grammar.ells_direct _ _) ()
    (fun _ _ => hnoError hstop) (fun _ _ => hnoError hpurging) with heq | ⟨name, _, hresult, -⟩
  · exact heq
  · exact absurd hresult (hnoError hstop)

end LeftPeg
