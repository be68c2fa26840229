import LeftPeg.Invocation

/-!
# What a run passes through

An invocation comes to an answer, and what happened on the way cannot be told from it. The relations
of this module say what did: which invocations a program makes (`Procedure.Invokes`), which scans it
passes through between them (`Procedure.Passes`), which rounds the growth of an activation goes
through (`Engine.Rounds`) and how it ends (`Engine.Ends`), and from these, by nesting, all
invocations (`Engine.Calls`) and all scans (`Engine.Occurs`) of a whole run.

They follow the definitions of `LeftPeg.Invocation`, and nothing is assumed of the bodies.
-/

namespace LeftPeg

variable {S V M α : Type}

namespace Procedure

/-- Run from the first scan, the program invokes the rule on the second one. -/
inductive Invokes (input : Array S) (invoke : Invoke V M) :
    Procedure S V M α → Scan V M → RuleId → Scan V M → Prop where
  | here {rule : RuleId} {next : Except ParseError (Outcome V) → Procedure S V M α}
      {scan : Scan V M} : Invokes input invoke (.invoke rule next) scan rule scan
  | later {rule rule' : RuleId} {next : Except ParseError (Outcome V) → Procedure S V M α}
      {scan scan' : Scan V M}
      (h : Invokes input invoke (next (invoke rule scan).1) (invoke rule scan).2 rule' scan') :
      Invokes input invoke (.invoke rule next) scan rule' scan'
  | observe {rule : RuleId} {next : View S → Procedure S V M α} {scan scan' : Scan V M}
      (h : Invokes input invoke (next (scan.view input)) scan rule scan') :
      Invokes input invoke (.observe next) scan rule scan'
  | moveTo {rule : RuleId} {position : Nat} {next : Procedure S V M α} {scan scan' : Scan V M}
      (h : Invokes input invoke next { scan with position } rule scan') :
      Invokes input invoke (.moveTo position next) scan rule scan'
  | mismatch {rule : RuleId} {expected : String} {next : Procedure S V M α}
      {scan scan' : Scan V M} (h : Invokes input invoke next (scan.miss expected) rule scan') :
      Invokes input invoke (.mismatch expected next) scan rule scan'
  | consult {rule : RuleId} {next : M → Procedure S V M α} {scan scan' : Scan V M}
      (h : Invokes input invoke (next scan.memory) scan rule scan') :
      Invokes input invoke (.consult next) scan rule scan'
  | memorise {rule : RuleId} {memory : M} {next : Procedure S V M α} {scan scan' : Scan V M}
      (h : Invokes input invoke next { scan with memory } rule scan') :
      Invokes input invoke (.memorise memory next) scan rule scan'

/-- Run from the first scan, the program passes through the second one, at its beginning, at its
end, or between two of its operations. -/
inductive Passes (input : Array S) (invoke : Invoke V M) :
    Procedure S V M α → Scan V M → Scan V M → Prop where
  | here {program : Procedure S V M α} {scan : Scan V M} : Passes input invoke program scan scan
  | invoke {rule : RuleId} {next : Except ParseError (Outcome V) → Procedure S V M α}
      {scan scan' : Scan V M}
      (h : Passes input invoke (next (invoke rule scan).1) (invoke rule scan).2 scan') :
      Passes input invoke (.invoke rule next) scan scan'
  | observe {next : View S → Procedure S V M α} {scan scan' : Scan V M}
      (h : Passes input invoke (next (scan.view input)) scan scan') :
      Passes input invoke (.observe next) scan scan'
  | moveTo {position : Nat} {next : Procedure S V M α} {scan scan' : Scan V M}
      (h : Passes input invoke next { scan with position } scan') :
      Passes input invoke (.moveTo position next) scan scan'
  | mismatch {expected : String} {next : Procedure S V M α} {scan scan' : Scan V M}
      (h : Passes input invoke next (scan.miss expected) scan') :
      Passes input invoke (.mismatch expected next) scan scan'
  | consult {next : M → Procedure S V M α} {scan scan' : Scan V M}
      (h : Passes input invoke (next scan.memory) scan scan') :
      Passes input invoke (.consult next) scan scan'
  | memorise {memory : M} {next : Procedure S V M α} {scan scan' : Scan V M}
      (h : Passes input invoke next { scan with memory } scan') :
      Passes input invoke (.memorise memory next) scan scan'

variable {input : Array S} {invoke : Invoke V M} {program : Procedure S V M α}
  {scan scan' : Scan V M} {rule : RuleId}

/-- A program passes through the scans that it makes its invocations on. -/
theorem Invokes.passes (h : Invokes input invoke program scan rule scan') :
    Passes input invoke program scan scan' := by
  induction h with
  | here => exact .here
  | later h ih => exact .invoke ih
  | observe h ih => exact .observe ih
  | moveTo h ih => exact .moveTo ih
  | mismatch h ih => exact .mismatch ih
  | consult h ih => exact .consult ih
  | memorise h ih => exact .memorise ih

/-- A program passes through the scan that it ends with. -/
theorem passes_run (program : Procedure S V M α) (scan : Scan V M) :
    Passes input invoke program scan (program.run input invoke scan).2 := by
  induction program generalizing scan with
  | done result => exact .here
  | abort error => exact .here
  | observe next ih => exact .observe (ih _ _)
  | moveTo position next ih => exact .moveTo (ih _)
  | mismatch expected next ih => exact .mismatch (ih _)
  | invoke rule next ih => exact .invoke (ih _ _)
  | consult next ih => exact .consult (ih _ _)
  | memorise memory next ih => exact .memorise (ih _)

theorem passes_of_run {answer : Except ParseError α}
    (h : program.run input invoke scan = (answer, scan')) :
    Passes input invoke program scan scan' := by
  have hpasses : Passes input invoke program scan (program.run input invoke scan).2 :=
    passes_run program scan
  rwa [h] at hpasses

/-- What the operations of a program and its invocations keep holds of all that it passes
through. -/
theorem Passes.keeps (Keeps : Scan V M → Prop)
    (hmove : ∀ {scan} (position : Nat), Keeps scan → Keeps { scan with position })
    (hmiss : ∀ {scan} (expected : String), Keeps scan → Keeps (scan.miss expected))
    (hmemory : ∀ {scan} (memory : M), Keeps scan → Keeps { scan with memory })
    (hinvoke : ∀ {scan} (rule : RuleId), Keeps scan → Keeps (invoke rule scan).2)
    (h : Passes input invoke program scan scan') (hkeeps : Keeps scan) : Keeps scan' := by
  induction h with
  | here => exact hkeeps
  | invoke h ih => exact ih (hinvoke _ hkeeps)
  | observe h ih => exact ih hkeeps
  | moveTo h ih => exact ih (hmove _ hkeeps)
  | mismatch h ih => exact ih (hmiss _ hkeeps)
  | consult h ih => exact ih hkeeps
  | memorise h ih => exact ih (hmemory _ hkeeps)

end Procedure

namespace Engine

/-! ## Growth, round by round -/

variable {evaluate : Scan V M → Answer V M (Outcome V)} {site : Site}

/-- Growth goes from the first scan, with so many attempts allowed, through rounds that each extend
the match, to the second scan, with so many attempts left. -/
inductive Rounds (evaluate : Scan V M → Answer V M (Outcome V)) (site : Site) :
    Nat → Scan V M → Nat → Scan V M → Prop where
  | refl {attempts : Nat} {scan : Scan V M} : Rounds evaluate site attempts scan attempts scan
  | next {attempts left : Nat} {scan scan₁ scan₂ scan' : Scan V M} {attempt : Outcome V}
      (hrun : evaluate (scan.beginAttempt site) = (.ok attempt, scan₁))
      (hsettle : scan₁.settle site attempt = (.ok none, scan₂))
      (hrest : Rounds evaluate site attempts scan₂.countGrowth left scan') :
      Rounds evaluate site (attempts + 1) scan left scan'

/-- What comes of growth if the round that begins with the scan is the last one. -/
inductive Ends (evaluate : Scan V M → Answer V M (Outcome V)) (site : Site) (limit : Nat) :
    Nat → Scan V M → Answer V M (Outcome V) → Prop where
  /-- No attempt is left. -/
  | unsettled {scan : Scan V M} :
      Ends evaluate site limit 0 scan
        (.error (.defect (.unsettledGrowth site.rule site.position limit)), scan)
  | aborted {left : Nat} {scan scan' : Scan V M} {error : ParseError}
      (hrun : evaluate (scan.beginAttempt site) = (.error error, scan')) :
      Ends evaluate site limit (left + 1) scan (.error error, scan')
  /-- What came of the attempt could not be decided. -/
  | undecided {left : Nat} {scan scan₁ scan' : Scan V M} {attempt : Outcome V}
      {error : ParseError} (hrun : evaluate (scan.beginAttempt site) = (.ok attempt, scan₁))
      (hsettle : scan₁.settle site attempt = (.error error, scan')) :
      Ends evaluate site limit (left + 1) scan (.error error, scan')
  | settled {left : Nat} {scan scan₁ scan' : Scan V M} {attempt outcome : Outcome V}
      (hrun : evaluate (scan.beginAttempt site) = (.ok attempt, scan₁))
      (hsettle : scan₁.settle site attempt = (.ok (some outcome), scan')) :
      Ends evaluate site limit (left + 1) scan (.ok outcome, scan')

/-- What a round keeps holds after any number of them. -/
theorem Rounds.keeps (Keeps : Scan V M → Prop) {attempts left : Nat} {scan scan' : Scan V M}
    (hround : ∀ {scan scan₁ scan₂ attempt}, Keeps scan →
      evaluate (scan.beginAttempt site) = (.ok attempt, scan₁) →
      scan₁.settle site attempt = (.ok none, scan₂) → Keeps scan₂.countGrowth)
    (h : Rounds evaluate site attempts scan left scan') (hkeeps : Keeps scan) : Keeps scan' := by
  induction h with
  | refl => exact hkeeps
  | next hrun hsettle hrest ih => exact ih (hround hkeeps hrun hsettle)

/-- Growth goes through some rounds and ends with another one. -/
theorem exists_ends (evaluate : Scan V M → Answer V M (Outcome V)) (site : Site)
    (limit attempts : Nat) (scan : Scan V M) :
    ∃ left scan', Rounds evaluate site attempts scan left scan' ∧
      Ends evaluate site limit left scan' (growUpTo evaluate site limit attempts scan) := by
  induction attempts generalizing scan with
  | zero => exact ⟨0, scan, .refl, .unsettled⟩
  | succ attempts ih =>
    unfold growUpTo
    rcases hrun : evaluate (scan.beginAttempt site) with ⟨error | attempt, scan₁⟩
    · exact ⟨attempts + 1, scan, .refl, .aborted hrun⟩
    · dsimp only
      rcases hsettle : scan₁.settle site attempt with ⟨error | _ | outcome, scan₂⟩
      · exact ⟨attempts + 1, scan, .refl, .undecided hrun hsettle⟩
      -- The attempt has extended the match, so the growth that follows on it is what is asked for.
      · obtain ⟨left, scan', hrest, hends⟩ := ih scan₂.countGrowth
        exact ⟨left, scan', .next hrun hsettle hrest, hends⟩
      · exact ⟨attempts + 1, scan, .refl, .settled hrun hsettle⟩

/-! ## Whole runs -/

/-- The site of the activation that an invocation on the scan would start. -/
def siteOf (rule : RuleId) (scan : Scan V M) : Site :=
  ⟨rule, scan.position, scan.stack.depth⟩

theorem activate_eq (engine : Engine S V M) (invoke : Invoke V M) (rule : RuleId)
    (body : Procedure S V M (Outcome V)) (scan : Scan V M) :
    engine.activate invoke rule body scan =
      Scan.release (siteOf rule scan)
        (growUpTo (body.run engine.input invoke) (siteOf rule scan)
          (engine.attemptLimit scan.position) (engine.attemptLimit scan.position)
          (scan.enter (siteOf rule scan))) := rfl

/-! An invocation does one of three things, by what its cell holds. -/

section

variable {engine : Engine S V M} {room : Nat} {rule : RuleId} {scan : Scan V M}

theorem invokeWithin_of_finished {outcome : Outcome V}
    (h : scan.memo.find? rule scan.position = some (.finished outcome)) :
    engine.invokeWithin room rule scan = (.ok outcome, scan.hit outcome) := by
  cases room <;> simp only [invokeWithin, answer, h]

theorem invokeWithin_of_inProgress {slot : Nat}
    (h : scan.memo.find? rule scan.position = some (.inProgress slot)) :
    engine.invokeWithin room rule scan = scan.reenter ⟨rule, scan.position, slot⟩ := by
  cases room <;> simp only [invokeWithin, answer, h]

theorem invokeWithin_of_body {body : Procedure S V M (Outcome V)}
    (h : scan.memo.find? rule scan.position = none) (hbody : engine.body? rule = some body) :
    engine.invokeWithin (room + 1) rule scan =
      engine.activate (engine.invokeWithin room) rule body scan := by
  simp only [invokeWithin, answer, h, hbody]

end

/-- The rule, invoked on `scan` with room for its activation and `room` more, becomes an activation,
and one of its attempts evaluates `body` from `begun`. -/
structure Opens (engine : Engine S V M) (room : Nat) (rule : RuleId) (scan : Scan V M)
    (body : Procedure S V M (Outcome V)) (begun : Scan V M) : Prop where
  free : scan.memo.find? rule scan.position = none
  body_eq : engine.body? rule = some body
  rounds : ∃ left scan', begun = scan'.beginAttempt (siteOf rule scan) ∧
    Rounds (body.run engine.input (engine.invokeWithin room)) (siteOf rule scan)
      (engine.attemptLimit scan.position) (scan.enter (siteOf rule scan)) (left + 1) scan'

/-- The invocation of the first rule is or leads to that of the second one. The room is what is left
for activations at either of them. -/
inductive Calls (engine : Engine S V M) (room : Nat) (rule : RuleId) (scan : Scan V M) :
    Nat → RuleId → Scan V M → Prop where
  | here : Calls engine room rule scan room rule scan
  | inside {room' : Nat} {rule' rule'' : RuleId} {scan' begun scan'' : Scan V M}
      {body : Procedure S V M (Outcome V)}
      (h : Calls engine room rule scan (room' + 1) rule' scan')
      (hopens : engine.Opens room' rule' scan' body begun)
      (hinvokes : body.Invokes engine.input (engine.invokeWithin room') begun rule'' scan'') :
      Calls engine room rule scan room' rule'' scan''

/-- The scan occurs in the run of an invocation. -/
inductive Occurs (engine : Engine S V M) (room : Nat) (rule : RuleId) (scan : Scan V M) :
    Scan V M → Prop where
  -- Where an invocation is made, and where it has been answered.
  | called {room' : Nat} {rule' : RuleId} {scan' : Scan V M}
      (h : Calls engine room rule scan room' rule' scan') : Occurs engine room rule scan scan'
  | answered {room' : Nat} {rule' : RuleId} {scan' : Scan V M}
      (h : Calls engine room rule scan room' rule' scan') :
      Occurs engine room rule scan (engine.invokeWithin room' rule' scan').2
  -- In an activation: when it has started, anywhere in its body, and after each attempt.
  | entered {room' : Nat} {rule' : RuleId} {scan' : Scan V M}
      (h : Calls engine room rule scan (room' + 1) rule' scan')
      (hfree : scan'.memo.find? rule' scan'.position = none)
      (hbody : (engine.body? rule').isSome) :
      Occurs engine room rule scan (scan'.enter (siteOf rule' scan'))
  | evaluating {room' : Nat} {rule' : RuleId} {scan' begun scan'' : Scan V M}
      {body : Procedure S V M (Outcome V)}
      (h : Calls engine room rule scan (room' + 1) rule' scan')
      (hopens : engine.Opens room' rule' scan' body begun)
      (hpasses : body.Passes engine.input (engine.invokeWithin room') begun scan'') :
      Occurs engine room rule scan scan''
  | settled {room' : Nat} {rule' : RuleId} {scan' begun scan'' : Scan V M}
      {body : Procedure S V M (Outcome V)} {attempt : Outcome V}
      (h : Calls engine room rule scan (room' + 1) rule' scan')
      (hopens : engine.Opens room' rule' scan' body begun)
      (hrun : body.run engine.input (engine.invokeWithin room') begun = (.ok attempt, scan'')) :
      Occurs engine room rule scan (scan''.settle (siteOf rule' scan') attempt).2
  -- An activation that ended with an error has lost its marker, but not yet its slot.
  | unmarked {room' : Nat} {rule' : RuleId} {scan' scan'' : Scan V M}
      {body : Procedure S V M (Outcome V)} {error : ParseError}
      (h : Calls engine room rule scan (room' + 1) rule' scan')
      (hfree : scan'.memo.find? rule' scan'.position = none)
      (hbody : engine.body? rule' = some body)
      (hgrow : growUpTo (body.run engine.input (engine.invokeWithin room')) (siteOf rule' scan')
        (engine.attemptLimit scan'.position) (engine.attemptLimit scan'.position)
        (scan'.enter (siteOf rule' scan')) = (.error error, scan'')) :
      Occurs engine room rule scan (scan''.dropMarker (siteOf rule' scan'))

theorem Calls.trans {engine : Engine S V M} {room room' room'' : Nat} {rule rule' rule'' : RuleId}
    {scan scan' scan'' : Scan V M} (h : engine.Calls room rule scan room' rule' scan')
    (h' : engine.Calls room' rule' scan' room'' rule'' scan'') :
    engine.Calls room rule scan room'' rule'' scan'' := by
  induction h' with
  | here => exact h
  | inside h' hopens hinvokes ih => exact .inside ih hopens hinvokes

end Engine

/-! ## What every step keeps -/

/-- Each step of a run keeps `Keeps`, where `Inside` is known of the sites of the activations that
have been started since. -/
structure Kept (Keeps : Scan V M → Prop) (Inside : Site → Prop) : Prop where
  -- The operations of bodies.
  moveTo {scan : Scan V M} (position : Nat) : Keeps scan → Keeps { scan with position }
  miss {scan : Scan V M} (expected : String) : Keeps scan → Keeps (scan.miss expected)
  memorise {scan : Scan V M} (memory : M) : Keeps scan → Keeps { scan with memory }
  -- Invocations that have a cell.
  hit {scan : Scan V M} (outcome : Outcome V) : Keeps scan → Keeps (scan.hit outcome)
  reenter {scan : Scan V M} (site : Site) : Keeps scan → Keeps (scan.reenter site).2
  -- Activations, from their start to their release.
  enter {scan : Scan V M} (rule : RuleId) : Keeps scan →
    scan.memo.find? rule scan.position = none →
    Inside (Engine.siteOf rule scan) ∧ Keeps (scan.enter (Engine.siteOf rule scan))
  beginAttempt {scan : Scan V M} {site : Site} : Inside site → Keeps scan →
    Keeps (scan.beginAttempt site)
  settle {scan : Scan V M} {site : Site} (attempt : Outcome V) : Inside site → Keeps scan →
    Keeps (scan.settle site attempt).2
  countGrowth {scan : Scan V M} : Keeps scan → Keeps scan.countGrowth
  dropMarker {scan : Scan V M} {site : Site} : Inside site → Keeps scan →
    Keeps (scan.dropMarker site)
  pop {scan : Scan V M} : Keeps scan → Keeps scan.pop.2

namespace Kept

variable {Keeps : Scan V M → Prop} {Inside : Site → Prop} {scan scan' : Scan V M} {site : Site}
  {evaluate : Scan V M → Answer V M (Outcome V)}

theorem passes (h : Kept Keeps Inside) {input : Array S} {invoke : Invoke V M}
    {program : Procedure S V M α} (hinvoke : ∀ rule scan, Keeps scan → Keeps (invoke rule scan).2)
    (hpasses : program.Passes input invoke scan scan') (hkeeps : Keeps scan) : Keeps scan' :=
  hpasses.keeps Keeps h.moveTo h.miss h.memorise (fun rule => hinvoke rule _) hkeeps

theorem rounds (h : Kept Keeps Inside) (hevaluate : ∀ scan, Keeps scan → Keeps (evaluate scan).2)
    (hinside : Inside site) {attempts left : Nat}
    (hrounds : Engine.Rounds evaluate site attempts scan left scan') (hkeeps : Keeps scan) :
    Keeps scan' := by
  refine hrounds.keeps Keeps ?_ hkeeps
  intro scan scan₁ scan₂ attempt hkeeps hrun hsettle
  have hattempt := hevaluate _ (h.beginAttempt hinside hkeeps)
  rw [hrun] at hattempt
  have hsettled := h.settle attempt hinside hattempt
  rw [hsettle] at hsettled
  exact h.countGrowth hsettled

theorem ends (h : Kept Keeps Inside) (hevaluate : ∀ scan, Keeps scan → Keeps (evaluate scan).2)
    (hinside : Inside site) {limit left : Nat} {answer : Answer V M (Outcome V)}
    (hends : Engine.Ends evaluate site limit left scan answer) (hkeeps : Keeps scan) :
    Keeps answer.2 := by
  have hevaluated := hevaluate _ (h.beginAttempt hinside hkeeps)
  cases hends with
  | unsettled => exact hkeeps
  | aborted hrun =>
    rw [hrun] at hevaluated
    exact hevaluated
  | @undecided left scan scan₁ scan' attempt error hrun hsettle =>
    rw [hrun] at hevaluated
    have hsettled := h.settle attempt hinside hevaluated
    rw [hsettle] at hsettled
    exact hsettled
  | @settled left scan scan₁ scan' attempt outcome hrun hsettle =>
    rw [hrun] at hevaluated
    have hsettled := h.settle attempt hinside hevaluated
    rw [hsettle] at hsettled
    exact hsettled

theorem release (h : Kept Keeps Inside) (hinside : Inside site) {answer : Answer V M (Outcome V)}
    (hkeeps : Keeps answer.2) : Keeps (Scan.release site answer).2 := by
  obtain ⟨error | outcome, scan⟩ := answer
  · exact h.pop (h.dropMarker hinside hkeeps)
  · have hpopped := h.pop hkeeps
    rcases hpop : scan.pop with ⟨defect | slot, scan'⟩ <;> simp only [hpop] at hpopped
    · simpa only [Scan.release, hpop] using hpopped
    · simp only [Scan.release, hpop]
      split <;> exact hpopped

/-- What every step keeps, every invocation keeps. -/
theorem invokeWithin (h : Kept Keeps Inside) (engine : Engine S V M) (room : Nat) (rule : RuleId)
    (scan : Scan V M) (hkeeps : Keeps scan) : Keeps (engine.invokeWithin room rule scan).2 := by
  have hanswer : ∀ (evaluate : RuleId → Procedure S V M (Outcome V) → Scan V M →
      Answer V M (Outcome V)) (rule : RuleId) (scan : Scan V M), Keeps scan →
      (∀ body, scan.memo.find? rule scan.position = none → Keeps (evaluate rule body scan).2) →
      Keeps (engine.answer evaluate rule scan).2 := by
    intro evaluate rule scan hkeeps hevaluate
    unfold Engine.answer
    split
    · exact h.hit _ hkeeps
    · exact h.reenter _ hkeeps
    · rename_i hfree
      split
      · exact hkeeps
      · exact hevaluate _ hfree
  induction room generalizing rule scan with
  | zero => exact hanswer _ rule scan hkeeps fun _ _ => hkeeps
  | succ room ih =>
    refine hanswer _ rule scan hkeeps fun body hfree => ?_
    obtain ⟨hinside, hentered⟩ := h.enter rule hkeeps hfree
    have hbody : ∀ scan, Keeps scan →
        Keeps (body.run engine.input (engine.invokeWithin room) scan).2 :=
      fun scan => h.passes ih (Procedure.passes_run body scan)
    obtain ⟨left, scan', hrounds, hends⟩ :=
      Engine.exists_ends (body.run engine.input (engine.invokeWithin room))
        (Engine.siteOf rule scan) (engine.attemptLimit scan.position)
        (engine.attemptLimit scan.position) (scan.enter (Engine.siteOf rule scan))
    rw [Engine.activate_eq]
    exact h.release hinside (h.ends hbody hinside hends (h.rounds hbody hinside hrounds hentered))

/-- So does every body. -/
theorem run (h : Kept Keeps Inside) (engine : Engine S V M) (room : Nat)
    (program : Procedure S V M α) (scan : Scan V M) (hkeeps : Keeps scan) :
    Keeps (program.run engine.input (engine.invokeWithin room) scan).2 :=
  h.passes (h.invokeWithin engine room) (Procedure.passes_run program scan) hkeeps

end Kept

end LeftPeg
