import LeftPeg.Proofs.Passing
import LeftPeg.Proofs.Parse

/-!
# Parsers used again

A parser starts each parse with a clean ledger, but for the slots of its stack: there are as many as
earlier parses have needed, and what their last activations have left in them is still there. A run
on a scan with other spare slots is the same run with other spare slots (`Engine.invoke_heedless`),
since a slot is cleared when it is used again and read only while it is in use. So earlier parses
make no difference to the next one (`Parser.parse_after`).
-/

namespace LeftPeg

variable {S V M α : Type}

/-! ## Other spare slots -/

namespace ActivationStack

variable {stack : ActivationStack V} {spare : List (Activation V)} {slot : Nat}

/-- The same live activations, with other slots to be used next. -/
def withSpare (stack : ActivationStack V) (spare : List (Activation V)) : ActivationStack V :=
  { stack with spare }

@[simp] theorem withSpare_self : stack.withSpare stack.spare = stack := rfl

@[simp] theorem get?_withSpare : (stack.withSpare spare).get? slot = stack.get? slot := rfl

theorem modify_withSpare (f : Activation V → Activation V) :
    (stack.withSpare spare).modify slot f = (stack.modify slot f).withSpare spare := by
  unfold modify
  by_cases h : slot < stack.depth
  · rw [if_pos h]
    exact if_pos h
  · rw [if_neg h]
    exact if_neg h

theorem mapAbove_withSpare (f : Activation V → Activation V) :
    (stack.withSpare spare).mapAbove slot f = (stack.mapAbove slot f).withSpare spare := rfl

theorem reenter_withSpare :
    (stack.withSpare spare).reenter slot = (stack.reenter slot).withSpare spare := by
  unfold reenter
  dsimp only
  rw [mapAbove_withSpare, modify_withSpare]
  rfl

theorem report_withSpare :
    (stack.withSpare spare).report slot = (stack.report slot).withSpare spare := by
  have htold : ∀ (parents : List Nat) (involved : List RuleId) (stack : ActivationStack V),
      parents.foldl (fun stack parent => stack.modify parent fun activation =>
        activation.involveAll involved) (stack.withSpare spare) =
      (parents.foldl (fun stack parent => stack.modify parent fun activation =>
        activation.involveAll involved) stack).withSpare spare := by
    intro parents involved
    induction parents with
    | nil => intro stack; rfl
    | cons parent rest ih =>
      intro stack
      rw [List.foldl_cons, modify_withSpare, ih, List.foldl_cons]
  unfold report
  rw [get?_withSpare]
  cases stack.get? slot with
  | none => rfl
  | some head =>
    dsimp only
    rw [modify_withSpare, htold]

/-- What an earlier activation has left in a slot is gone when the slot is used again. -/
theorem push_withSpare (rule : RuleId) (position : Nat) :
    (stack.withSpare spare).push rule position =
      (stack.push rule position).withSpare spare.tail := by
  unfold push
  simp only [nextSlot_eq]
  rfl

theorem pop_withSpare :
    ∃ spare', (stack.withSpare spare).pop =
      stack.pop.map fun released => (released.1, released.2.withSpare spare') := by
  obtain ⟨live, depth, own, hdepth⟩ := stack
  cases live with
  | nil => exact ⟨spare, rfl⟩
  | cons top rest => exact ⟨top :: spare, rfl⟩

end ActivationStack

namespace Ledger

variable {ledger : Ledger V} {spare : List (Activation V)} {slot : Nat}

def withSpare (ledger : Ledger V) (spare : List (Activation V)) : Ledger V :=
  { ledger with stack := ledger.stack.withSpare spare }

theorem setAside_withSpare :
    (ledger.withSpare spare).setAside slot = (ledger.setAside slot).withSpare spare := by
  have hget : (ledger.withSpare spare).stack.get? slot = ledger.stack.get? slot := rfl
  unfold setAside
  rw [hget]
  cases ledger.stack.get? slot with
  | none => rfl
  | some a =>
    simp only [withSpare, ActivationStack.modify_withSpare]

theorem putBack_withSpare :
    (ledger.withSpare spare).putBack slot = (ledger.putBack slot).withSpare spare := by
  have hget : (ledger.withSpare spare).stack.get? slot = ledger.stack.get? slot := rfl
  unfold putBack
  rw [hget]
  cases ledger.stack.get? slot with
  | none => rfl
  | some a =>
    simp only [withSpare, ActivationStack.modify_withSpare]

end Ledger

namespace Scan

variable {scan : Scan V M} {site : Site} {spare : List (Activation V)}

def withSpare (scan : Scan V M) (spare : List (Activation V)) : Scan V M :=
  { scan with stack := scan.stack.withSpare spare }

@[simp] theorem withSpare_self : scan.withSpare scan.stack.spare = scan := rfl

end Scan

/-- The same answer, on the same scan with other spare slots. -/
def Answer.withSpare (answer : Answer V M α) (spare : List (Activation V)) : Answer V M α :=
  (answer.1, answer.2.withSpare spare)

/-- An evaluation that pays no heed to spare slots. -/
def Heedless (evaluate : Scan V M → Answer V M α) : Prop :=
  ∀ scan spare, ∃ spare', evaluate (scan.withSpare spare) =
    Answer.withSpare (evaluate scan) spare'

namespace Scan

variable {scan : Scan V M} {site : Site} {spare : List (Activation V)} {attempt : Outcome V}

theorem atStage_withSpare (stage : Stage) :
    (scan.withSpare spare).atStage site stage = (scan.atStage site stage).withSpare spare := by
  unfold atStage withSpare
  rw [ActivationStack.modify_withSpare]

theorem judging_withSpare (stage : Stage) :
    (scan.withSpare spare).judging site stage attempt =
      (scan.judging site stage attempt).withSpare spare := by
  unfold judging withSpare
  dsimp only
  rw [ActivationStack.report_withSpare]
  split <;> rfl

theorem extend_withSpare :
    (scan.withSpare spare).extend site attempt =
      Answer.withSpare (scan.extend site attempt) spare := by
  unfold extend
  rw [atStage_withSpare]
  have haside : ((scan.atStage site .growing).toLedger.withSpare spare).setAside site.slot = _ :=
    Ledger.setAside_withSpare
  dsimp only [withSpare, Ledger.withSpare] at haside ⊢
  rw [haside]
  rfl

theorem finish_withSpare :
    (scan.withSpare spare).finish site = Answer.withSpare (scan.finish site) spare := by
  have hmemo : ((scan.atStage site .plain).withSpare spare).memo =
      (scan.atStage site .plain).memo := rfl
  unfold finish
  rw [atStage_withSpare]
  dsimp only
  rw [hmemo]
  split
  · rfl
  · have hback : ((scan.atStage site .plain).toLedger.withSpare spare).putBack site.slot = _ :=
      Ledger.putBack_withSpare
    dsimp only [withSpare, Ledger.withSpare] at hback ⊢
    rw [hback]
    rfl

theorem failSeed_withSpare :
    (scan.withSpare spare).failSeed site = Answer.withSpare (scan.failSeed site) spare := by
  unfold failSeed
  rw [atStage_withSpare]
  rfl

/-- An attempt is settled without a look at the spare slots. -/
theorem settle_withSpare :
    (scan.withSpare spare).settle site attempt =
      Answer.withSpare (scan.settle site attempt) spare := by
  cases ha : scan.stack.get? site.slot with
  | none =>
    have ha' : (scan.withSpare spare).stack.get? site.slot = none := ha
    unfold settle
    rw [ha, ha']
    rfl
  | some a =>
    have ha' : (scan.withSpare spare).stack.get? site.slot = some a := ha
    have hbest : (scan.withSpare spare).best? site = scan.best? site := rfl
    rw [settle_eq ha, settle_eq ha', hbest, judging_withSpare]
    cases Verdict.of a.stage attempt.stop? (scan.best? site) with
    | accept => rfl
    | grow => exact extend_withSpare
    | finish => exact finish_withSpare
    | fail => exact failSeed_withSpare

theorem enter_withSpare :
    (scan.withSpare spare).enter site = (scan.enter site).withSpare spare.tail := by
  unfold enter withSpare
  simp only [ActivationStack.push_withSpare]
  rfl

theorem reenter_withSpare :
    (scan.withSpare spare).reenter site = Answer.withSpare (scan.reenter site) spare := by
  have hget : (scan.withSpare spare).stack.get? site.slot = scan.stack.get? site.slot := rfl
  unfold reenter
  rw [hget]
  split
  · simp only [withSpare, ActivationStack.reenter_withSpare]
    rfl
  · rfl

theorem dropMarker_withSpare :
    (scan.withSpare spare).dropMarker site = (scan.dropMarker site).withSpare spare := by
  have hmemo : (scan.withSpare spare).memo = scan.memo := rfl
  unfold dropMarker
  rw [hmemo]
  split
  · split <;> rfl
  · rfl

theorem pop_withSpare :
    ∃ spare', (scan.withSpare spare).pop =
      (scan.pop.1, scan.pop.2.withSpare spare') := by
  obtain ⟨spare', hpop⟩ : ∃ spare', (scan.stack.withSpare spare).pop = _ :=
    ActivationStack.pop_withSpare
  have hpop' : (scan.withSpare spare).stack.pop = _ := hpop
  unfold pop
  rw [hpop']
  cases scan.stack.pop with
  | error defect => exact ⟨spare, rfl⟩
  | ok released => exact ⟨spare', rfl⟩

theorem release_withSpare (answer : Answer V M (Outcome V)) :
    ∃ spare', release site (Answer.withSpare answer spare) =
      Answer.withSpare (release site answer) spare' := by
  obtain ⟨error | outcome, scan⟩ := answer
  · obtain ⟨spare', hpop⟩ : ∃ spare', ((scan.dropMarker site).withSpare spare).pop = _ :=
      pop_withSpare
    refine ⟨spare', ?_⟩
    show (Except.error error, ((scan.withSpare spare).dropMarker site).pop.2) = _
    rw [dropMarker_withSpare, hpop]
    rfl
  · obtain ⟨spare', hpop⟩ : ∃ spare', (scan.withSpare spare).pop = _ := pop_withSpare
    refine ⟨spare', ?_⟩
    simp only [release, Answer.withSpare, hpop]
    rcases scan.pop with ⟨defect | slot, scan'⟩
    · rfl
    · dsimp only
      split <;> rfl

end Scan

/-! ## Runs -/

/-- Where invocations pay no heed to spare slots, neither does a program. -/
theorem Procedure.run_heedless {input : Array S} {invoke : Invoke V M}
    (hinvoke : ∀ rule, Heedless (invoke rule)) (program : Procedure S V M α) :
    Heedless (program.run input invoke) := by
  intro scan spare
  induction program generalizing scan spare with
  | done result => exact ⟨spare, rfl⟩
  | abort error => exact ⟨spare, rfl⟩
  | observe next ih => exact ih (scan.view input) scan spare
  | moveTo position next ih => exact ih { scan with position } spare
  | mismatch expected next ih => exact ih (scan.miss expected) spare
  | invoke rule next ih =>
    obtain ⟨spare', hanswer⟩ := hinvoke rule scan spare
    simp only [run, hanswer]
    exact ih _ _ spare'
  | consult next ih => exact ih scan.memory scan spare
  | memorise memory next ih => exact ih { scan with memory } spare

namespace Engine

theorem growUpTo_heedless {evaluate : Scan V M → Answer V M (Outcome V)}
    (hevaluate : Heedless evaluate) (site : Site) (limit attempts : Nat) :
    Heedless (growUpTo evaluate site limit attempts) := by
  intro scan spare
  induction attempts generalizing scan spare with
  | zero => exact ⟨spare, rfl⟩
  | succ attempts ih =>
    obtain ⟨spare', hrun⟩ := hevaluate (scan.beginAttempt site) spare
    have hbegun : (scan.withSpare spare).beginAttempt site =
        (scan.beginAttempt site).withSpare spare := rfl
    unfold growUpTo
    rw [hbegun, hrun]
    rcases evaluate (scan.beginAttempt site) with ⟨error | attempt, scan₁⟩
    · exact ⟨spare', rfl⟩
    · simp only [Answer.withSpare, Scan.settle_withSpare]
      rcases scan₁.settle site attempt with ⟨error | _ | outcome, scan₂⟩
      · exact ⟨spare', rfl⟩
      · exact ih scan₂.countGrowth spare'
      · exact ⟨spare', rfl⟩

theorem activate_heedless (engine : Engine S V M) {invoke : Invoke V M}
    (hinvoke : ∀ rule, Heedless (invoke rule)) (rule : RuleId)
    (body : Procedure S V M (Outcome V)) : Heedless (engine.activate invoke rule body) := by
  intro scan spare
  have hsite : siteOf rule (scan.withSpare spare) = siteOf rule scan := rfl
  obtain ⟨spare', hgrow⟩ := growUpTo_heedless (Procedure.run_heedless hinvoke body)
    (siteOf rule scan) (engine.attemptLimit scan.position) (engine.attemptLimit scan.position)
    (scan.enter (siteOf rule scan)) spare.tail
  rw [activate_eq, activate_eq, hsite, Scan.enter_withSpare]
  exact hgrow ▸ Scan.release_withSpare _

theorem answer_heedless (engine : Engine S V M)
    {evaluate : RuleId → Procedure S V M (Outcome V) → Scan V M → Answer V M (Outcome V)}
    (hevaluate : ∀ rule body, Heedless (evaluate rule body)) (rule : RuleId) :
    Heedless (engine.answer evaluate rule) := by
  intro scan spare
  have hfind : (scan.withSpare spare).memo.find? rule (scan.withSpare spare).position =
      scan.memo.find? rule scan.position := rfl
  unfold answer
  rw [hfind]
  split
  · exact ⟨spare, rfl⟩
  · exact ⟨spare, Scan.reenter_withSpare⟩
  · split
    · exact ⟨spare, rfl⟩
    · exact hevaluate _ _ scan spare

theorem invokeWithin_heedless (engine : Engine S V M) (room : Nat) (rule : RuleId) :
    Heedless (engine.invokeWithin room rule) := by
  induction room generalizing rule with
  | zero => exact engine.answer_heedless (fun _ _ _ spare => ⟨spare, rfl⟩) rule
  | succ room ih => exact engine.answer_heedless (engine.activate_heedless ih) rule

/-- An invocation pays no heed to spare slots. -/
theorem invoke_heedless (engine : Engine S V M) (rule : RuleId) : Heedless (engine.invoke rule) :=
  engine.invokeWithin_heedless engine.maxDepth rule

end Engine

/-! ## Parses -/

/-- A call of a parser. -/
structure Call (S M : Type) where
  input : Array S
  /-- The start rule, itself or by its name. -/
  start : RuleId ⊕ String
  options : Options
  memory : M

namespace Parser

variable [DecidableEq S]

def call (parser : Parser S M) (call : Call S M) : Parse S M :=
  match call.start with
  | .inl rule => parser.parse call.input rule call.options call.memory
  | .inr name => parser.parseNamed call.input name call.options call.memory

/-- The parser after some calls, the first one first. -/
def after (parser : Parser S M) (calls : List (Call S M)) : Parser S M :=
  calls.foldl (fun parser call => (parser.call call).parser) parser

omit [DecidableEq S] in
theorem close_unchanged (parser : Parser S M) (options : Options) (inputLength : Nat)
    (answer : Answer Tree M (Outcome Tree)) :
    (parser.close options inputLength answer).parser.grammar = parser.grammar ∧
      (parser.close options inputLength answer).parser.config = parser.config := by
  obtain ⟨error | outcome, scan⟩ := answer <;> exact ⟨rfl, rfl⟩

/-- A parse changes nothing of its parser but the ledger. -/
theorem parse_unchanged (parser : Parser S M) (input : Array S) (rule : RuleId) (options : Options)
    (memory : M) :
    (parser.parse input rule options memory).parser.grammar = parser.grammar ∧
      (parser.parse input rule options memory).parser.config = parser.config := by
  unfold parse
  split
  · exact ⟨rfl, rfl⟩
  · dsimp only
    split
    · exact ⟨rfl, rfl⟩
    · exact parser.close_unchanged _ _ _

theorem call_unchanged (parser : Parser S M) (call : Call S M) :
    (parser.call call).parser.grammar = parser.grammar ∧
      (parser.call call).parser.config = parser.config := by
  unfold Parser.call
  split
  · exact parser.parse_unchanged _ _ _ _
  · unfold parseNamed
    split
    · exact parser.parse_unchanged _ _ _ _
    · exact ⟨rfl, rfl⟩

theorem after_unchanged (parser : Parser S M) (calls : List (Call S M)) :
    (parser.after calls).grammar = parser.grammar ∧
      (parser.after calls).config = parser.config := by
  induction calls generalizing parser with
  | nil => exact ⟨rfl, rfl⟩
  | cons call rest ih =>
    obtain ⟨hgrammar, hconfig⟩ := ih (parser.call call).parser
    obtain ⟨hgrammar', hconfig'⟩ := parser.call_unchanged call
    exact ⟨hgrammar.trans hgrammar', hconfig.trans hconfig'⟩

end Parser

/-- Two parses that nobody can tell apart, but by the slots and the configuration of their
parsers. -/
structure Parse.Alike (parse parse' : Parse S M) : Prop where
  result_eq : parse.result = parse'.result
  metrics_eq : parse.parser.ledger.metrics = parse'.parser.ledger.metrics
  failures_eq : parse.parser.ledger.failures = parse'.parser.ledger.failures
  depth_eq : parse.parser.ledger.stack.depth = parse'.parser.ledger.stack.depth
  memo_eq : parse.parser.ledger.memo = parse'.parser.ledger.memo
  events_eq : parse.events = parse'.events
  memory_eq : parse.memory = parse'.memory

namespace Parser

theorem close_alike (parser parser' : Parser S M) (options : Options) (inputLength : Nat)
    (answer : Answer Tree M (Outcome Tree)) (spare : List (Activation Tree)) :
    (parser.close options inputLength (Answer.withSpare answer spare)).Alike
      (parser'.close options inputLength answer) := by
  obtain ⟨error | outcome, scan⟩ := answer <;> exact ⟨rfl, rfl, rfl, rfl, rfl, rfl, rfl⟩

variable [DecidableEq S]

/-- What a parse comes to depends on its parser only through the grammar and the depth allowed. -/
theorem parse_alike {parser parser' : Parser S M} (hgrammar : parser.grammar = parser'.grammar)
    (hdepth : parser.config.maxDepth = parser'.config.maxDepth) (input : Array S) {rule : RuleId}
    (options : Options) (memory : M) (hrule : rule.index < parser.grammar.size) :
    (parser.parse input rule options memory).Alike
      (parser'.parse input rule options memory) := by
  have hrule' : rule.index < parser'.grammar.size := hgrammar ▸ hrule
  by_cases hstart : options.start?.getD 0 ≤ input.size
  · rw [parser.parse_eq_close input options memory hrule hstart,
      parser'.parse_eq_close input options memory hrule' hstart]
    have hengine : parser.engine input = parser'.engine input := by
      unfold engine
      rw [hgrammar, hdepth]
    have hfirst : parser.firstScan input.size rule (options.start?.getD 0) memory =
        (parser'.firstScan input.size rule (options.start?.getD 0) memory).withSpare
          parser.ledger.reset.stack.spare := rfl
    obtain ⟨spare, hrun⟩ := (parser'.engine input).invoke_heedless rule
      (parser'.firstScan input.size rule (options.start?.getD 0) memory)
      parser.ledger.reset.stack.spare
    rw [hengine, hfirst, hrun]
    exact close_alike _ _ _ _ _ _
  · rw [parser.parse_of_lt_start input options memory hrule (by omega),
      parser'.parse_of_lt_start input options memory hrule' (by omega)]
    exact ⟨rfl, rfl, rfl, rfl, rfl, rfl, rfl⟩

/-- A parser that has been called before, however often and whatever came of it, parses like a new
one with the same bound on depth, whatever pool of slots that one starts with. -/
theorem parse_after (grammar : Grammar S M) (config : Config) (calls : List (Call S M))
    (stackCapacity : Nat) (input : Array S) (rule : RuleId) (options : Options) (memory : M)
    (hrule : rule.index < grammar.size) :
    (((new grammar config).after calls).parse input rule options memory).Alike
      ((new grammar { config with stackCapacity }).parse input rule options memory) := by
  obtain ⟨hgrammar, hconfig⟩ := (new grammar config).after_unchanged calls
  have hnew : ((new grammar config).after calls).grammar =
      (new grammar { config with stackCapacity }).grammar := hgrammar
  refine parse_alike hnew ?_ input options memory ?_
  · rw [hconfig]
    rfl
  · rw [hgrammar]
    exact hrule

/-- After a parse that failed, one that was refused and one that succeeded, a parser with a single
slot parses like a new one with eight. -/
theorem parse_after_ells :
    let calls : List (Call Char Unit) :=
      [⟨#['x'], .inl ⟨0⟩, {}, ()⟩, ⟨#['l'], .inr "ells", { start? := some 7 }, ()⟩,
        ⟨#['l', 'l', 'l'], .inr "ells", {}, ()⟩]
    let used := ((new Grammar.ells { stackCapacity := 0 }).after calls).parse #['l', 'l'] ⟨0⟩ {} ()
    let fresh := (new Grammar.ells { stackCapacity := 8 }).parse #['l', 'l'] ⟨0⟩ {} ()
    used.Alike fresh ∧ used.result.toOption.map Match.stop = some 2 ∧
      used.parser.ledger.stack.capacity = 1 ∧ fresh.parser.ledger.stack.capacity = 8 := by
  intro calls used fresh
  refine ⟨parse_after Grammar.ells { stackCapacity := 0 } calls 8 #['l', 'l'] ⟨0⟩ {} () ?_, ?_⟩
  · decide
  · decide +kernel

end Parser

end LeftPeg
