import Mathlib.Logic.Relation
import LeftPeg.Proofs.Transparency
import LeftPeg.Proofs.Leading
import LeftPeg.Proofs.Frames

/-!
# Rules that nothing comes back to

The rules that a rule leads to by plain evaluation, and those that they lead to, and so on: the rule
is grounded at a position if every such way has an end (`Grammar.Grounded`). Plain evaluation then
has an answer, or it stops at a rule that is not there.

Some rules of a grammar may be grounded while others are not. They are evaluated beside whatever
else goes on: the activations below and the cells of the others stay as they are, and the answer is
that of plain evaluation (`Engine.grounds_invokeWithin`). A parse that detects no recursion shows
that its start rule is grounded (`Parser.grounded_of_parse`).
-/

namespace LeftPeg

variable {S M V L : Type}

/-! ## Where an evaluation is stuck -/

/-- An evaluation has answers for all rules that it leads to but the one that it is stuck at. -/
theorem Arrives.eq_or_answered [DecidableEq S] {input : Array S} {reading : Reading M L}
    (hagree : reading.answers.Agree reading.answers)
    (hstops : ∀ {rule place}, reading.Stops rule place →
      ∀ outcome log, ¬ reading.answers rule place outcome log)
    {rule : RuleId} {target : Expression S} {place place' start : Nat} {task : Task S}
    (hstuck : reading.Stuck place' target)
    (h : reading.Arrives input (.rule rule) place task start)
    (h' : reading.Arrives input target place' task start) :
    (target = .rule rule ∧ place' = place) ∨
      ∃ outcome log, reading.answers rule place outcome log := by
  have hnothing : ∀ {found log}, ¬ reading.Evaluates input (.one target) place' found log :=
    hstuck.not_evaluates fun _ => hstops
  -- What is evaluated before the place where it is stuck has been evaluated whole.
  have hwhole : ∀ {task start found log}, reading.Evaluates input task start found log →
      ¬ reading.Arrives input target place' task start := by
    intro task start found log heval harrives
    obtain ⟨_, _, htarget⟩ := harrives.evaluated hagree heval
    exact hnothing htarget
  induction h with
  | here =>
    cases h' with
    | here => exact .inl ⟨rfl, rfl⟩
  | sequence hitems ih | choice hitems ih | repetition hitems ih | lookahead hitems ih
  | tagged hitems ih =>
    cases h' with
    | here => exact nomatch hstuck
    | _ h' => exact ih h'
  | allItem hitem ih =>
    cases h' with
    | allItem hitem' => exact ih hitem'
    | allRest heval => exact .inr (hitem.answered hagree heval)
  | allRest heval hrest ih =>
    cases h' with
    | allItem hitem' => exact absurd hitem' (hwhole heval)
    | allRest heval' hrest' =>
      cases (heval.unique hagree heval').1
      exact ih hrest'
  | firstItem hitem ih =>
    cases h' with
    | firstItem hitem' => exact ih hitem'
    | firstRest heval => exact .inr (hitem.answered hagree heval)
  | firstRest heval hrest ih =>
    cases h' with
    | firstItem hitem' => exact absurd hitem' (hwhole heval)
    | firstRest heval' hrest' => exact ih hrest'
  | copiesItem hlimit hitem ih =>
    cases h' with
    | copiesItem hlimit' hitem' => exact ih hitem'
    | copiesRest hlimit' heval => exact .inr (hitem.answered hagree heval)
  | copiesRest hlimit heval hmoved hrest ih =>
    cases h' with
    | copiesItem hlimit' hitem' => exact absurd hitem' (hwhole heval)
    | copiesRest hlimit' heval' hmoved' hrest' =>
      cases (heval.unique hagree heval').1
      exact ih hrest'

/-! ## Grounded rules -/

namespace Grammar

variable [DecidableEq S]

/-- Plain evaluation of a rule at a position leads to another rule at another position. -/
def PlainlyLeads (grammar : Grammar S M) (input : Array S) (key key' : MemoKey) : Prop :=
  ∃ form, grammar.body? key.rule = some (.expression form) ∧
    Arrives input Prod.mk (grammar.Plain input) (.rule key'.rule) key'.position (.one form)
      key.position

/-- Every way that plain evaluation leads on comes to an end. -/
def Grounded (grammar : Grammar S M) (input : Array S) (key : MemoKey) : Prop :=
  Acc (fun key' key => grammar.PlainlyLeads input key key') key

variable {grammar : Grammar S M} {input : Array S} {key key' : MemoKey}

theorem Grounded.leads (h : grammar.Grounded input key)
    (hleads : grammar.PlainlyLeads input key key') : grammar.Grounded input key' :=
  h.inv hleads

/-- A grounded rule never comes back to itself. -/
theorem Grounded.not_cyclic (h : grammar.Grounded input key) :
    ¬ Relation.TransGen (grammar.PlainlyLeads input) key key := by
  induction h with
  | intro key _ ih =>
    intro hcycle
    -- The first step of the way around leads to a key with a way around of its own.
    obtain ⟨next, hfirst, hrest⟩ := Relation.TransGen.head'_iff.mp hcycle
    refine ih next hfirst ?_
    exact Relation.TransGen.tail'_iff.mpr ⟨key, hrest, hfirst⟩

/-- A rule is grounded where plain evaluation has an answer for it. -/
theorem grounded_of_plain {rule : RuleId} {start : Nat} {outcome : Outcome Tree} {log : FailureLog}
    (h : grammar.Plain input rule start outcome log) : grammar.Grounded input ⟨rule, start⟩ := by
  obtain ⟨depth, h⟩ := h
  induction depth generalizing rule start outcome log with
  | zero => exact h.elim
  | succ depth ih =>
    obtain ⟨form, found, hbody, hform, -⟩ := h
    constructor
    rintro ⟨rule', start'⟩ ⟨form', hbody', harrives⟩
    rw [hbody] at hbody'
    cases hbody'
    -- The rules that the body leads to have their answers at a smaller depth.
    obtain ⟨outcome', log', hanswer⟩ := harrives.answered (plain_agree_within depth) hform
    exact ih hanswer

/-- Plain evaluation stops at a grounded rule without an answer, on account of a rule that is not
there. -/
def PlainlyStops (grammar : Grammar S M) (input : Array S) (rule : RuleId) (start : Nat) : Prop :=
  (∀ outcome log, ¬ grammar.Plain input rule start outcome log) ∧
    grammar.Grounded input ⟨rule, start⟩

end Grammar

/-! ## Beside other activations -/

/-- An activation that nothing has happened to yet. -/
def Activation.start (key : MemoKey) : Activation V :=
  { rule := key.rule, position := key.position }

/-- On top of what was live before are activations for the keys that nothing has come back to. Cells
are written for the rules that are `Separate` only, and those are answered by plain evaluation. -/
structure Scan.Beside [DecidableEq S] (grammar : Grammar S M) (input : Array S)
    (Separate : RuleId → Prop) (keys : List MemoKey) (scan before : Scan Tree M) : Prop where
  live_eq : scan.stack.live = keys.map Activation.start ++ before.stack.live
  recursions_eq : scan.metrics.recursions = before.metrics.recursions
  others {rule : RuleId} {position : Nat} : ¬ Separate rule →
    scan.memo.find? rule position = before.memo.find? rule position
  marked {rule : RuleId} {position slot : Nat} : Separate rule →
    scan.memo.find? rule position = some (.inProgress slot) → ⟨rule, position⟩ ∈ keys
  finished {rule : RuleId} {position : Nat} {outcome : Outcome Tree} : Separate rule →
    scan.memo.find? rule position = some (.finished outcome) →
      ∃ log, grammar.Plain input rule position outcome log

namespace Scan.Beside

variable [DecidableEq S] {grammar : Grammar S M} {input : Array S} {Separate : RuleId → Prop}
  {keys : List MemoKey} {key : MemoKey} {before scan scan' : Scan Tree M} {rule : RuleId}
  {outcome : Outcome Tree} {log : FailureLog}

theorem currentRule (h : scan.Beside grammar input Separate (key :: keys) before) :
    scan.currentRule = some key.rule := by
  unfold Scan.currentRule ActivationStack.top?
  rw [h.live_eq]
  rfl

theorem enter (h : scan.Beside grammar input Separate keys before) (site : Site)
    (hrule : Separate site.rule) :
    (scan.enter site).Beside grammar input Separate (site.key :: keys) before := by
  constructor
  case live_eq =>
    rw [live_enter, h.live_eq]
    rfl
  case recursions_eq => exact h.recursions_eq
  case others =>
    intro rule position hother
    rw [find?_enter, if_neg]
    · exact h.others hother
    · rintro ⟨rfl, -⟩
      exact hother hrule
  case marked =>
    intro rule position slot hseparate hmarker
    rw [find?_enter] at hmarker
    split at hmarker
    · rename_i hown
      rw [← hown.1, ← hown.2]
      exact List.mem_cons_self
    · exact List.mem_cons_of_mem _ (h.marked hseparate hmarker)
  case finished =>
    intro rule position outcome hseparate hfinished
    rw [find?_enter] at hfinished
    split at hfinished
    · exact nomatch hfinished
    · exact h.finished hseparate hfinished

/-- An activation is released with the outcome that plain evaluation has found. -/
theorem release (h : scan.Beside grammar input Separate (key :: keys) before)
    (hrule : Separate key.rule) (hplain : grammar.Plain input key.rule key.position outcome log)
    (hlive : scan'.stack.live = keys.map Activation.start ++ before.stack.live)
    (hmemo : scan'.memo = scan.memo.put key.rule key.position (.finished outcome))
    (hmetrics : scan'.metrics = scan.metrics) :
    scan'.Beside grammar input Separate keys before where
  live_eq := hlive
  recursions_eq := hmetrics ▸ h.recursions_eq
  others {rule position} hother := by
    rw [hmemo, MemoTable.find?_put, if_neg]
    · exact h.others hother
    · rintro ⟨rfl, -⟩
      exact hother hrule
  marked {rule position slot} hseparate hfind := by
    rw [hmemo, MemoTable.find?_put] at hfind
    split at hfind
    · exact nomatch hfind
    · rename_i hkey
      -- The marker of the activation released has just been overwritten.
      rcases List.mem_cons.mp (h.marked hseparate hfind) with rfl | hmem
      · exact absurd ⟨rfl, rfl⟩ hkey
      · exact hmem
  finished {rule position outcome'} hseparate hfind := by
    rw [hmemo, MemoTable.find?_put] at hfind
    split at hfind
    · rename_i hkey
      obtain ⟨rfl, rfl⟩ := hkey
      injection hfind with hfind
      injection hfind with hfind
      subst hfind
      exact ⟨log, hplain⟩
    · exact h.finished hseparate hfind

end Scan.Beside

/-! ## Activations that settle at once -/

namespace Engine

variable {engine : Engine S V M} {invoke : Invoke V M} {rule : RuleId}
  {body : Procedure S V M (Outcome V)} {scan scan₁ : Scan V M}

/-- An activation that nothing has come back to takes its first attempt as its answer. -/
theorem activate_of_ok {attempt : Outcome V} {top : Activation V} {rest : List (Activation V)}
    (hrun : body.run engine.input invoke
      ((scan.enter ⟨rule, scan.position, scan.stack.depth⟩).beginAttempt
        ⟨rule, scan.position, scan.stack.depth⟩) = (.ok attempt, scan₁))
    (hlive : scan₁.stack.live = top :: rest) (hdepth : scan.stack.depth = rest.length)
    (hplain : top.stage = .plain) :
    ∃ scan', engine.activate invoke rule body scan = (.ok attempt, scan') ∧
      scan'.stack.live = rest ∧
      scan'.memo = scan₁.memo.put rule scan.position (.finished attempt) ∧
      scan'.position = attempt.stop?.getD scan.position ∧ scan'.metrics = scan₁.metrics := by
  let site : Site := ⟨rule, scan.position, scan.stack.depth⟩
  have hsettle : scan₁.settle site attempt =
      (scan₁.judging site .plain attempt).accept site attempt := by
    rw [Scan.settle_eq (ActivationStack.get?_top hlive hdepth), hplain]
    rfl
  have hgrow : growUpTo (body.run engine.input invoke) site (engine.attemptLimit scan.position)
      (engine.attemptLimit scan.position) (scan.enter site) =
        (.ok attempt, ((scan₁.judging site .plain attempt).accept site attempt).2) := by
    unfold attemptLimit growUpTo
    rw [hrun]
    dsimp only
    rw [hsettle]
    rfl
  have haccepted : ((scan₁.judging site .plain attempt).accept site attempt).2.stack.live =
      top :: rest := hlive
  have hslot : site.slot = rest.length := hdepth
  obtain ⟨stack, hrelease, hrest⟩ := Scan.release_top haccepted hslot attempt
  refine ⟨{ ((scan₁.judging site .plain attempt).accept site attempt).2 with stack }, ?_, hrest,
    rfl, rfl, rfl⟩
  unfold activate
  dsimp only
  rw [hgrow]
  exact hrelease

/-- An activation ends with the error that ended its body. -/
theorem activate_of_error {error : ParseError}
    (hrun : body.run engine.input invoke
      ((scan.enter ⟨rule, scan.position, scan.stack.depth⟩).beginAttempt
        ⟨rule, scan.position, scan.stack.depth⟩) = (.error error, scan₁)) :
    ∃ scan', engine.activate invoke rule body scan = (.error error, scan') := by
  unfold activate attemptLimit growUpTo
  dsimp only
  rw [hrun]
  exact ⟨_, rfl⟩

end Engine

/-! ## Runs -/

/-- The error is about the run: it has no room for one more activation, or something is amiss. -/
def ParseError.OfRun (error : ParseError) : Prop :=
  (∃ limit position, error = .tooDeep limit position) ∨ ∃ cause, error = .defect cause

namespace Engine

variable [DecidableEq S] {grammar : Grammar S M} {Separate : RuleId → Prop} {keys : List MemoKey}
  {before scan : Scan Tree M} {rule : RuleId}

/-- What comes of an invocation of a separate rule beside other activations. -/
inductive Grounds (grammar : Grammar S M) (input : Array S) (Separate : RuleId → Prop)
    (before : Scan Tree M) (keys : List MemoKey) (rule : RuleId) (scan : Scan Tree M) :
    Answer Tree M (Outcome Tree) → Prop where
  | answered {outcome : Outcome Tree} {log : FailureLog} {scan' : Scan Tree M}
      (hbeside : scan'.Beside grammar input Separate keys before)
      (hposition : scan'.position = outcome.stop?.getD scan.position)
      (hplain : grammar.Plain input rule scan.position outcome log) :
      Grounds grammar input Separate before keys rule scan (.ok outcome, scan')
  | ended {error : ParseError} {scan' : Scan Tree M} (hrun : error.OfRun) :
      Grounds grammar input Separate before keys rule scan (.error error, scan')
  | missing {name : String} {scan' : Scan Tree M}
      (hstops : grammar.PlainlyStops input rule scan.position) :
      Grounds grammar input Separate before keys rule scan (.error (.unknownRule name), scan')
  | returned {result : Except ParseError (Outcome Tree)} {scan' : Scan Tree M}
      (hcounted : before.metrics.recursions < scan'.metrics.recursions)
      (hnever : ¬ grammar.Grounded input ⟨rule, scan.position⟩) :
      Grounds grammar input Separate before keys rule scan (result, scan')

/-- The keys of all activations on top lead to the one that is invoked. -/
def Chained (grammar : Grammar S M) (input : Array S) (keys : List MemoKey) (key : MemoKey) :
    Prop :=
  ∀ other ∈ keys, Relation.TransGen (grammar.PlainlyLeads input) other key

/-- How the body of a separate rule is read as plain evaluation. A run is lost when something has
come back to a live activation. -/
def groundReading (grammar : Grammar S M) (input : Array S) (Separate : RuleId → Prop)
    (before : Scan Tree M) (keys : List MemoKey) : Reading M (Nat × String) where
  fail := Prod.mk
  answers := grammar.Plain input
  Within rule place := Separate rule ∧ Chained grammar input keys ⟨rule, place⟩
  Good scan := scan.Beside grammar input Separate keys before
  Track _ _ _ := True
  Lost scan := before.metrics.recursions + 1 ≤ scan.metrics.recursions
  Beyond rule place := ¬ grammar.Grounded input ⟨rule, place⟩
  Excused := ParseError.OfRun
  Stops := grammar.PlainlyStops input

/-- An invocation of a separate rule is answered by plain evaluation, unless it comes back to a live
activation. -/
def GroundsAll (grammar : Grammar S M) (input : Array S) (Separate : RuleId → Prop)
    (rule : RuleId) (scan : Scan Tree M) (answer : Answer Tree M (Outcome Tree)) : Prop :=
  ∀ ⦃before keys⦄, scan.Beside grammar input Separate keys before → Separate rule →
    scan.position ≤ input.size → Chained grammar input keys ⟨rule, scan.position⟩ →
    Grounds grammar input Separate before keys rule scan answer

theorem tracing_ground {input : Array S} {invoke : Invoke Tree M}
    (hlasting : ∀ n, Lasting invoke fun scan : Scan Tree M => n ≤ scan.metrics.recursions)
    (hinvoke : ∀ rule scan,
      GroundsAll grammar input Separate rule scan (invoke rule scan)) :
    Tracing input invoke (groundReading grammar input Separate before keys) where
  good_move _ h := { h with }
  good_miss _ h := { h with }
  track_move _ _ := trivial
  track_miss _ _ := trivial
  track_append _ _ := trivial
  span := Grammar.plain_span
  invoked {rule scan scan' outcome} hwithin hbeside hstart hrun := by
    have hgrounds := hinvoke rule scan hbeside hwithin.1 hstart hwithin.2
    rw [hrun] at hgrounds
    cases hgrounds with
    | answered hbeside' hposition hplain =>
      exact .inl ⟨hbeside', hposition, _, hplain, trivial⟩
    | returned hcounted hnever => exact .inr ⟨hcounted, hnever⟩
  aborted {rule scan scan' error} hwithin hbeside hstart hrun := by
    have hgrounds := hinvoke rule scan hbeside hwithin.1 hstart hwithin.2
    rw [hrun] at hgrounds
    cases hgrounds with
    | ended hrun => exact .inl hrun
    | missing hstops => exact .inr (.inl ⟨⟨_, rfl⟩, hstops⟩)
    | returned hcounted hnever => exact .inr (.inr ⟨hcounted, hnever⟩)
  lasting := hlasting _

/-- The body of a rule that is read as plain evaluation leads to where the rule leads. -/
theorem within_of_arrives {input : Array S} {form : Expression S} {key : MemoKey}
    (hclosed : ∀ target ∈ form.targets, Separate target)
    (hbody : grammar.body? key.rule = some (.expression form))
    (hchained : Chained grammar input keys key) {target : RuleId} {place : Nat}
    (harrives :
      Arrives input Prod.mk (grammar.Plain input) (.rule target) place (.one form) key.position) :
    Separate target ∧ Chained grammar input (key :: keys) ⟨target, place⟩ := by
  have hleads : grammar.PlainlyLeads input key ⟨target, place⟩ := ⟨form, hbody, harrives⟩
  refine ⟨hclosed target harrives.mem_targets, fun other hmem => ?_⟩
  rcases List.mem_cons.mp hmem with rfl | hmem
  · exact .single hleads
  · exact .tail (hchained other hmem) hleads

/-- A rule stops where the plain evaluation of its body is stuck. -/
theorem plainlyStops_of_stuck {input : Array S} {form : Expression S} {start place : Nat}
    {target : Expression S} (hbody : grammar.body? rule = some (.expression form))
    (hstuck : (groundReading grammar input Separate before keys).Stuck place target)
    (harrives : Arrives input Prod.mk (grammar.Plain input) target place (.one form) start) :
    grammar.PlainlyStops input rule start := by
  refine ⟨fun outcome log hplain => ?_, ⟨_, ?_⟩⟩
  -- An answer would need an evaluation that gets past the place.
  · obtain ⟨form', found, hbody', hform, -⟩ := Grammar.plain_iff.mp hplain
    rw [hbody] at hbody'
    cases hbody'
    obtain ⟨_, _, htarget⟩ := harrives.evaluated Grammar.plain_agree hform
    exact hstuck.not_evaluates (fun _ hstops => hstops.1) htarget
  · rintro ⟨rule', place'⟩ ⟨form', hbody', hleads⟩
    rw [hbody] at hbody'
    cases hbody'
    have hread : (groundReading grammar input Separate before keys).Arrives input target place
      (.one form) start := harrives
    rcases Arrives.eq_or_answered Grammar.plain_agree And.left hstuck hleads hread with
      ⟨rfl, rfl⟩ | ⟨outcome, log, hplain⟩
    · cases hstuck with
      | rule hstops => exact hstops.2
    · exact Grammar.grounded_of_plain hplain

/-- An activation of a separate rule is answered by plain evaluation if the invocations from its
body are. -/
theorem grounds_activate (engine : Engine S Tree M) {invoke : Invoke Tree M} {form : Expression S}
    (hbody : grammar.body? rule = some (.expression form))
    (hclosed : ∀ target ∈ form.targets, Separate target)
    (hlasting : ∀ n, Lasting invoke fun scan : Scan Tree M => n ≤ scan.metrics.recursions)
    (hinvoke : ∀ rule scan,
      GroundsAll grammar engine.input Separate rule scan (invoke rule scan)) :
    GroundsAll grammar engine.input Separate rule scan
      (engine.activate invoke rule form.toProcedure scan) := by
  intro before keys hbeside hseparate hstart hchained
  let site : Site := ⟨rule, scan.position, scan.stack.depth⟩
  have htracing : Tracing engine.input invoke
      (groundReading grammar engine.input Separate before (site.key :: keys)) :=
    tracing_ground hlasting hinvoke
  have hbegun : ((scan.enter site).beginAttempt site).Beside grammar engine.input Separate
      (site.key :: keys) before := { hbeside.enter site hseparate with }
  have htraced := traced_toProcedure htracing Scan.Beside.currentRule form hbegun hstart
    fun harrives => within_of_arrives hclosed hbody hchained harrives
  generalize hrun : form.toProcedure.run engine.input invoke
    ((scan.enter site).beginAttempt site) = answer at htraced
  cases htraced with
  | excused hexcused =>
    obtain ⟨scan', hactivate⟩ := activate_of_error hrun
    rw [hactivate]
    exact .ended hexcused
  | @stuck name scan₁ target place hstuck harrives =>
    obtain ⟨scan', hactivate⟩ := activate_of_error hrun
    rw [hactivate]
    exact .missing (plainlyStops_of_stuck hbody hstuck harrives)
  | @found found log scan₁ hbeside₁ _ heval =>
    have hplain := Grammar.plain_of_evaluates hbody heval
    have hdepth : scan.stack.depth =
        (keys.map Activation.start ++ before.stack.live).length := by
      rw [scan.stack.depth_eq, hbeside.live_eq]
    obtain ⟨scan', hactivate, hlive, hmemo, hposition, hmetrics⟩ :=
      activate_of_ok hrun hbeside₁.live_eq hdepth rfl
    rw [hactivate]
    exact .answered (hbeside₁.release hseparate hplain hlive hmemo hmetrics) hposition hplain
  | lost hlost hnever harrives =>
    have hcounted : before.metrics.recursions <
        (engine.activate invoke rule form.toProcedure scan).2.metrics.recursions := by
      unfold activate attemptLimit
      dsimp only
      rw [Scan.metrics_release]
      apply recursions_growUpTo_succ
      · apply recursions_growUpTo
        exact fun scan h => lasts_toProcedure (hlasting _) engine.input form h
      · rw [hrun]
        exact hlost
    generalize engine.activate invoke rule form.toProcedure scan = answer at hcounted
    obtain ⟨result, scan'⟩ := answer
    exact .returned hcounted fun h => hnever (h.leads ⟨form, hbody, harrives⟩)

/-- A cell of a separate rule answers as plain evaluation does, and a marker tells that the rule
leads back to itself. -/
theorem grounds_answer (engine : Engine S Tree M)
    {evaluate : RuleId → Procedure S Tree M (Outcome Tree) → Scan Tree M →
      Answer Tree M (Outcome Tree)}
    (hbodies : ∀ rule, engine.body? rule = none → grammar.body? rule = none)
    (hevaluate : ∀ body, engine.body? rule = some body →
      GroundsAll grammar engine.input Separate rule scan (evaluate rule body scan)) :
    GroundsAll grammar engine.input Separate rule scan (engine.answer evaluate rule scan) := by
  intro before keys hbeside hseparate hstart hchained
  unfold answer
  split
  · rename_i outcome hfind
    obtain ⟨log, hplain⟩ := hbeside.finished hseparate hfind
    exact .answered { hbeside with } rfl hplain
  · rename_i slot hfind
    have hcycle := hchained _ (hbeside.marked hseparate hfind)
    unfold Scan.reenter
    split
    · refine .returned ?_ fun hgrounded => hgrounded.not_cyclic hcycle
      show before.metrics.recursions < scan.metrics.recursions + 1
      rw [hbeside.recursions_eq]
      exact Nat.lt_succ_self _
    · exact .ended (.inr ⟨_, rfl⟩)
  · split
    · rename_i hnone
      have hbody := hbodies rule hnone
      refine .missing ⟨fun outcome log hplain => ?_, ?_⟩
      · obtain ⟨form, found, hsome, -⟩ := Grammar.plain_iff.mp hplain
        exact nomatch hbody.symm.trans hsome
      · constructor
        rintro key ⟨form, hsome, -⟩
        exact nomatch hbody.symm.trans hsome
    · rename_i body hbody
      exact hevaluate body hbody hbeside hseparate hstart hchained

/-- All invocations of separate rules are answered by plain evaluation, where all bodies are
expressions and the separate rules mention no others. -/
theorem grounds_invokeWithin (engine : Engine S Tree M)
    (hbodies : ∀ rule, engine.body? rule = none → grammar.body? rule = none)
    (hforms : ∀ rule body, engine.body? rule = some body → ∃ form : Expression S,
      body = form.toProcedure ∧ grammar.body? rule = some (.expression form))
    (hclosed : ∀ rule form, Separate rule → grammar.body? rule = some (.expression form) →
      ∀ target ∈ form.targets, Separate target)
    (room : Nat) (rule : RuleId) (scan : Scan Tree M) :
    GroundsAll grammar engine.input Separate rule scan (engine.invokeWithin room rule scan) := by
  induction room generalizing rule scan with
  | zero =>
    apply engine.grounds_answer hbodies
    intro body hbody before keys hbeside hseparate hstart hchained
    exact .ended (.inl ⟨_, _, rfl⟩)
  | succ room ih =>
    apply engine.grounds_answer hbodies
    intro body hbody before keys hbeside hseparate hstart hchained
    obtain ⟨form, rfl, hform⟩ := hforms rule body hbody
    refine engine.grounds_activate hform (hclosed rule form hseparate hform) ?_ ih hbeside
      hseparate hstart hchained
    intro n
    refine engine.lasting_recursions (fun rule body hbody => ?_) n room
    obtain ⟨form, hform, -⟩ := hforms rule body hbody
    exact ⟨form, hform⟩

end Engine

/-! ## Parses -/

namespace Parser

variable [DecidableEq S] {parser : Parser S M}

/-- All rules of a parse are separate from those that are live before it, since none is. -/
theorem grounds_firstScan (hforms : parser.grammar.OfExpressions) (input : Array S) (rule : RuleId)
    {start : Nat} (hstart : start ≤ input.size) (memory : M) :
    Engine.Grounds parser.grammar input (fun _ => True)
      (parser.firstScan input.size rule start memory) [] rule
      (parser.firstScan input.size rule start memory)
      ((parser.engine input).invoke rule (parser.firstScan input.size rule start memory)) := by
  have hbeside : (parser.firstScan input.size rule start memory).Beside parser.grammar input
      (fun _ => True) [] (parser.firstScan input.size rule start memory) :=
    { live_eq := rfl
      recursions_eq := rfl
      others := fun _ => rfl
      marked := fun _ hfind => nomatch MemoTable.find?_empty.symm.trans hfind
      finished := fun _ hfind => nomatch MemoTable.find?_empty.symm.trans hfind }
  exact (parser.engine input).grounds_invokeWithin (fun _ hnone => Option.map_eq_none_iff.mp hnone)
    (fun rule body hbody => body?_engine hforms hbody) (fun _ _ _ _ _ _ => trivial)
    parser.config.maxDepth rule _ hbeside trivial hstart fun _ hmem => nomatch hmem

/-- A parse that has room enough and detects no recursion has a grounded start rule. -/
theorem grounded_of_parse (hforms : parser.grammar.OfExpressions) (input : Array S) (rule : RuleId)
    (options : Options) (memory : M) (hstart : options.start?.getD 0 ≤ input.size)
    (hroom : ∀ limit position,
      (parser.parse input rule options memory).result ≠ .error (.tooDeep limit position))
    (hquiet : (parser.parse input rule options memory).parser.ledger.metrics.recursions = 0) :
    parser.grammar.Grounded input ⟨rule, options.start?.getD 0⟩ := by
  by_cases hrule : rule.index < parser.grammar.size
  · have hgrounds := grounds_firstScan hforms input rule hstart memory
    have hdefect := parser.result_ne_defect hforms input rule options memory
    rw [parser.parse_eq_close input options memory hrule hstart] at hroom hquiet hdefect
    generalize (parser.engine input).invoke rule
      (parser.firstScan input.size rule (options.start?.getD 0) memory) = answer
      at hgrounds hroom hquiet hdefect
    cases hgrounds with
    | answered _ _ hplain => exact Grammar.grounded_of_plain hplain
    | missing hstops => exact hstops.2
    | ended hrun =>
      rcases hrun with ⟨limit, position, rfl⟩ | ⟨cause, rfl⟩
      · exact absurd rfl (hroom limit position)
      · exact absurd rfl (hdefect cause)
    | @returned result scan' hcounted =>
      have hcount : 0 < scan'.metrics.recursions := hcounted
      have hsame : (parser.close options input.size (result, scan')).parser.ledger.metrics =
          scan'.metrics := by
        cases result <;> rfl
      rw [hsame] at hquiet
      omega
  · -- A rule that is not there leads nowhere.
    constructor
    rintro key ⟨form, hbody, -⟩
    exact absurd (Grammar.index_lt_of_body? hbody) hrule

end Parser

/-- Evaluated by itself, the rule detects no recursion, wherever in the input it starts: a fresh
parse from there that has room enough counts none. -/
def Grammar.Quiet [DecidableEq S] (grammar : Grammar S M) (input : Array S) (rule : RuleId) :
    Prop :=
  ∀ start ≤ input.size, ∃ (config : Config) (memory : M),
    let parse := (Parser.new grammar config).parse input rule { start? := some start } memory
    (∀ limit position, parse.result ≠ .error (.tooDeep limit position)) ∧
      parse.parser.ledger.metrics.recursions = 0

theorem Grammar.Quiet.grounded [DecidableEq S] {grammar : Grammar S M} {input : Array S}
    {rule : RuleId} (h : grammar.Quiet input rule) (hforms : grammar.OfExpressions) {start : Nat}
    (hstart : start ≤ input.size) : grammar.Grounded input ⟨rule, start⟩ := by
  obtain ⟨config, memory, hroom, hquiet⟩ := h start hstart
  have hforms' : (Parser.new grammar config).grammar.OfExpressions := hforms
  exact Parser.grounded_of_parse hforms' input rule { start? := some start } memory hstart hroom
    hquiet

end LeftPeg
