import LeftPeg.Proofs.Recursions
import LeftPeg.Proofs.Plain
import LeftPeg.Proofs.Resolved

/-!
# Memory is transparent without left recursion

As long as nothing comes back to a live activation, a run is a plain evaluation that skips what it
has evaluated before: every outcome in the memo table is the one that plain evaluation finds, and
noting its failures again would change nothing (`Scan.Faithful`).

Once something does come back, plain evaluation has no end. Rules are nested, so if the evaluation
of a rule had an answer at some depth, the rule that it leads back to would have one at a smaller
depth; and that is the same rule again (`Grammar.Endless`).
-/

namespace LeftPeg

variable {S M V : Type}

/-! ## Faithful scans -/

/-- The keys of the live activations, top first, and what the memo table holds: markers of live
activations, and outcomes of plain evaluation whose failures have all been noted. Nothing has come
back to a live activation, and `recursions` were detected so far. -/
structure Scan.Faithful [DecidableEq S] (grammar : Grammar S M) (input : Array S)
    (keys : List MemoKey) (recursions : Nat) (scan : Scan Tree M) : Prop where
  keys_eq : scan.stack.live.map Activation.key = keys
  plain : ∀ a ∈ scan.stack.live, a.stage = .plain
  recursions_eq : scan.metrics.recursions = recursions
  marked {rule : RuleId} {position slot : Nat} :
    scan.memo.find? rule position = some (.inProgress slot) → ⟨rule, position⟩ ∈ keys
  finished {rule : RuleId} {position : Nat} {outcome : Outcome Tree} :
    scan.memo.find? rule position = some (.finished outcome) →
      ∃ log, grammar.Plain input rule position outcome log ∧
        ∀ entry ∈ log, scan.failures.Absorbs entry

/-- If plain evaluation has an answer for the rule at some depth, then it has one at that depth for
one of the keys too. -/
def Grammar.Endless [DecidableEq S] (grammar : Grammar S M) (input : Array S)
    (keys : List MemoKey) (rule : RuleId) (start : Nat) : Prop :=
  ∀ depth outcome log, grammar.PlainWithin input depth rule start outcome log →
    ∃ key ∈ keys, ∃ outcome log,
      grammar.PlainWithin input depth key.rule key.position outcome log

/-- A rule whose body leads to an endless one is endless, even if it is itself one of the keys that
this depends on. -/
theorem Grammar.endless_of_arrives [DecidableEq S] {grammar : Grammar S M} {input : Array S}
    {keys : List MemoKey} {rule target : RuleId} {start place : Nat} {form : Expression S}
    (hbody : grammar.body? rule = some (.expression form))
    (harrives :
      Arrives input Prod.mk (grammar.Plain input) (.rule target) place (.one form) start)
    (hendless : grammar.Endless input (⟨rule, start⟩ :: keys) target place) :
    grammar.Endless input keys rule start := by
  intro depth
  -- By induction on the depth: an answer at one depth leads to one of the rule itself at the next
  -- smaller depth, unless it leads to one of the other keys.
  induction depth with
  | zero => exact fun _ _ h => h.elim
  | succ depth ih =>
    rintro outcome log ⟨form', found, hbody', hform, -⟩
    rw [hbody] at hbody'
    cases hbody'
    obtain ⟨outcome', log', htarget⟩ := harrives.answered (plain_agree_within depth) hform
    obtain ⟨key, hkey, outcome'', log'', hanswer⟩ := hendless depth _ _ htarget
    have hother : ∃ key ∈ keys, ∃ outcome log,
        grammar.PlainWithin input depth key.rule key.position outcome log := by
      rcases List.mem_cons.mp hkey with rfl | hmem
      · exact ih _ _ hanswer
      · exact ⟨key, hmem, outcome'', log'', hanswer⟩
    obtain ⟨key, hmem, outcome, log, hanswer⟩ := hother
    exact ⟨key, hmem, outcome, log, plainWithin_mono (Nat.le_succ depth) hanswer⟩

namespace Scan.Faithful

variable [DecidableEq S] {grammar : Grammar S M} {input : Array S} {keys : List MemoKey}
  {recursions position : Nat} {scan scan' : Scan Tree M} {rule : RuleId}

theorem move (h : scan.Faithful grammar input keys recursions) (position : Nat) :
    Faithful grammar input keys recursions { scan with position } :=
  { h with }

theorem miss (h : scan.Faithful grammar input keys recursions) (expected : String) :
    (scan.miss expected).Faithful grammar input keys recursions :=
  { h with
    finished := fun hfind => by
      obtain ⟨log, hplain, habsorbs⟩ := h.finished hfind
      exact ⟨log, hplain, fun entry hmem => (habsorbs entry hmem).note _ _⟩ }

theorem currentRule (h : scan.Faithful grammar input (⟨rule, position⟩ :: keys) recursions) :
    scan.currentRule = some rule := by
  have hkeys := h.keys_eq
  unfold Scan.currentRule ActivationStack.top?
  cases hlive : scan.stack.live with
  | nil =>
    rw [hlive] at hkeys
    exact nomatch hkeys
  | cons top rest =>
    rw [hlive] at hkeys
    injection hkeys with htop
    exact congrArg (fun key => some key.rule) htop

/-- An activation starts without an account of a cycle. -/
theorem enter (h : scan.Faithful grammar input keys recursions) (site : Site) :
    (scan.enter site).Faithful grammar input (⟨site.rule, site.position⟩ :: keys) recursions where
  keys_eq := by
    rw [live_enter, List.map_cons, h.keys_eq]
    rfl
  plain a hmem := by
    rw [live_enter] at hmem
    rcases List.mem_cons.mp hmem with rfl | hmem
    · rfl
    · exact h.plain a hmem
  recursions_eq := h.recursions_eq
  marked {rule position slot} hfind := by
    rw [find?_enter] at hfind
    split at hfind
    · rename_i hkey
      rw [← hkey.1, ← hkey.2]
      exact List.mem_cons_self
    · exact List.mem_cons_of_mem _ (h.marked hfind)
  finished {rule position outcome} hfind := by
    rw [find?_enter] at hfind
    split at hfind
    · exact nomatch hfind
    · exact h.finished hfind

/-- The activation at work is released with the outcome that plain evaluation has found. -/
theorem release (h : scan.Faithful grammar input (⟨rule, position⟩ :: keys) recursions)
    {outcome : Outcome Tree} {log : FailureLog} {top : Activation Tree}
    (hplain : grammar.Plain input rule position outcome log)
    (habsorbs : ∀ entry ∈ log, scan.failures.Absorbs entry)
    (hmemo : scan'.memo = scan.memo.put rule position (.finished outcome))
    (hstack : scan.stack.live = top :: scan'.stack.live)
    (hfailures : scan'.failures = scan.failures) (hmetrics : scan'.metrics = scan.metrics) :
    scan'.Faithful grammar input keys recursions where
  keys_eq := by
    have hkeys := h.keys_eq
    rw [hstack] at hkeys
    injection hkeys
  plain a hmem := h.plain a (hstack ▸ List.mem_cons_of_mem top hmem)
  recursions_eq := hmetrics ▸ h.recursions_eq
  marked {rule' position' slot} hfind := by
    rw [hmemo, MemoTable.find?_put] at hfind
    split at hfind
    · exact nomatch hfind
    · rename_i hkey
      -- The marker of the activation released has just been overwritten.
      rcases List.mem_cons.mp (h.marked hfind) with heq | hmem
      · injection heq with hrule hposition
        exact absurd ⟨hrule.symm, hposition.symm⟩ hkey
      · exact hmem
  finished {rule' position' outcome'} hfind := by
    rw [hmemo, MemoTable.find?_put] at hfind
    rw [hfailures]
    split at hfind
    · rename_i hkey
      obtain ⟨rfl, rfl⟩ := hkey
      injection hfind with hfind
      injection hfind with hfind
      subst hfind
      exact ⟨log, hplain, habsorbs⟩
    · exact h.finished hfind

end Scan.Faithful

/-! ## One attempt settles an activation that nothing has come back to -/

/-- An attempt that nothing has come back to is accepted and remembered. -/
theorem Scan.settle_of_plain {scan scan' : Scan V M} {site : Site} {attempt : Outcome V}
    {answer : Option (Outcome V)} (hplain : ∀ a ∈ scan.stack.live, a.stage = .plain)
    (h : scan.settle site attempt = (.ok answer, scan')) :
    answer = some attempt ∧ scan'.position = attempt.stop?.getD site.position ∧
      scan'.memo = scan.memo.put site.rule site.position (.finished attempt) ∧
      scan'.stack = scan.stack ∧ scan'.failures = scan.failures ∧ scan'.metrics = scan.metrics := by
  cases hget : scan.stack.get? site.slot with
  | none =>
    unfold settle at h
    rw [hget] at h
    exact nomatch h
  | some activation =>
    have hmem : activation ∈ scan.stack.live := by
      rw [ActivationStack.get?_eq] at hget
      exact List.mem_reverse.mp (List.mem_of_getElem? hget)
    rw [settle_eq hget, hplain activation hmem, Verdict.of_plain] at h
    injection h with hanswer hscan
    injection hanswer with hanswer
    subst hanswer hscan
    exact ⟨rfl, rfl, rfl, rfl, rfl, rfl⟩

theorem Scan.release_eq_ok {scan scan' : Scan V M} {site : Site} {outcome outcome' : Outcome V}
    (h : release site (.ok outcome, scan) = (.ok outcome', scan')) :
    outcome' = outcome ∧ ∃ rest top, scan' = { scan with stack := rest } ∧
      scan.stack.live = top :: rest.live := by
  unfold release at h
  dsimp only at h
  unfold pop at h
  cases hpop : scan.stack.pop with
  | error defect =>
    rw [hpop] at h
    exact nomatch h
  | ok popped =>
    obtain ⟨slot, rest⟩ := popped
    rw [hpop] at h
    dsimp only at h
    split at h
    · injection h with houtcome hscan
      injection houtcome with houtcome
      obtain ⟨-, -, top, htop⟩ := ActivationStack.pop_eq_ok hpop
      refine ⟨houtcome.symm, rest, top, hscan.symm, ?_⟩
      apply List.reverse_inj.mp
      rw [List.reverse_cons]
      exact htop
    · exact nomatch h

theorem Engine.growUpTo_of_plain {evaluate : Scan V M → Answer V M (Outcome V)} {site : Site}
    {limit attempts : Nat} {scan scan₁ scan' : Scan V M} {attempt outcome : Outcome V}
    (hrun : evaluate (scan.beginAttempt site) = (.ok attempt, scan₁))
    (hplain : ∀ a ∈ scan₁.stack.live, a.stage = .plain)
    (h : Scan.release site (growUpTo evaluate site limit (attempts + 1) scan) =
      (.ok outcome, scan')) :
    outcome = attempt ∧ scan'.position = attempt.stop?.getD site.position ∧
      scan'.memo = scan₁.memo.put site.rule site.position (.finished attempt) ∧
      (∃ top, scan₁.stack.live = top :: scan'.stack.live) ∧
      scan'.failures = scan₁.failures ∧ scan'.metrics = scan₁.metrics := by
  unfold growUpTo at h
  rw [hrun] at h
  dsimp only at h
  rcases hsettle : scan₁.settle site attempt with ⟨error | answer, scan₂⟩
  · rw [hsettle] at h
    cases h
  · obtain ⟨rfl, hposition, hmemo, hstack, hfailures, hmetrics⟩ :=
      Scan.settle_of_plain hplain hsettle
    rw [hsettle] at h
    obtain ⟨rfl, rest, top, rfl, hlive⟩ := Scan.release_eq_ok h
    exact ⟨rfl, hposition, hmemo, ⟨top, hstack ▸ hlive⟩, hfailures, hmetrics⟩

/-! ## Runs -/

namespace Engine

variable [DecidableEq S] {grammar : Grammar S M} {keys : List MemoKey} {recursions : Nat}
  {scan scan' : Scan Tree M} {rule : RuleId} {outcome : Outcome Tree}

/-- What an invocation comes to on a faithful scan: the outcome of plain evaluation, on a scan that
is faithful still, or the discovery that the rule is endless. -/
def Transparent (grammar : Grammar S M) (input : Array S) (rule : RuleId) (scan : Scan Tree M)
    (answer : Answer Tree M (Outcome Tree)) : Prop :=
  ∀ ⦃keys recursions outcome scan'⦄, scan.Faithful grammar input keys recursions →
    scan.position ≤ input.size → answer = (.ok outcome, scan') →
    (scan'.Faithful grammar input keys recursions ∧
      scan'.position = outcome.stop?.getD scan.position ∧
      scan'.memo.find? rule scan.position = some (.finished outcome) ∧
      ∃ log, grammar.Plain input rule scan.position outcome log ∧
        scan'.failures = scan.failures.noteAll log) ∨
    (recursions < scan'.metrics.recursions ∧ grammar.Endless input keys rule scan.position)

/-- A cell of the memo table answers for plain evaluation, and a marker tells that it comes back to
a live activation. -/
theorem transparent_answer (engine : Engine S Tree M)
    {evaluate : RuleId → Procedure S Tree M (Outcome Tree) → Scan Tree M →
      Answer Tree M (Outcome Tree)}
    (hevaluate : ∀ body, engine.body? rule = some body →
      Transparent grammar engine.input rule scan (evaluate rule body scan)) :
    Transparent grammar engine.input rule scan (engine.answer evaluate rule scan) := by
  intro keys recursions outcome scan' hfaithful hstart h
  unfold answer at h
  split at h
  · rename_i hfind
    injection h with houtcome hscan
    injection houtcome with houtcome
    subst houtcome hscan
    obtain ⟨log, hplain, habsorbs⟩ := hfaithful.finished hfind
    refine .inl ⟨{ hfaithful with }, rfl, hfind, log, hplain, ?_⟩
    -- The failures of the outcome were noted when it was found.
    exact (FurthestFailure.noteAll_of_absorbs habsorbs).symm
  · rename_i slot hfind
    -- The rule is itself the key that it depends on.
    right
    unfold Scan.reenter at h
    split at h
    · injection h with houtcome hscan
      subst hscan
      constructor
      · show recursions < scan.metrics.recursions + 1
        rw [hfaithful.recursions_eq]
        exact Nat.lt_succ_self recursions
      · exact fun depth outcome log hanswer =>
          ⟨_, hfaithful.marked hfind, outcome, log, hanswer⟩
    · exact nomatch h
  · split at h
    · exact nomatch h
    · exact hevaluate _ ‹_› hfaithful hstart h

/-- How the evaluation of a body is read as plain evaluation, with these keys live and so many
recursions detected. A run that has detected one more is lost. -/
def plainReading (grammar : Grammar S M) (input : Array S) (keys : List MemoKey)
    (recursions : Nat) : Reading M (Nat × String) where
  fail := Prod.mk
  answers := grammar.Plain input
  Within _ _ := True
  Good := Scan.Faithful grammar input keys recursions
  Track scan log scan' := scan'.failures = scan.failures.noteAll log
  Lost scan := recursions + 1 ≤ scan.metrics.recursions
  Beyond := grammar.Endless input keys
  Excused _ := True

theorem tracing_plain {input : Array S} {invoke : Invoke Tree M}
    (hlasting : ∀ n, Lasting invoke fun scan : Scan Tree M => n ≤ scan.metrics.recursions)
    (hinvoke : ∀ rule scan, Transparent grammar input rule scan (invoke rule scan)) :
    Tracing input invoke (plainReading grammar input keys recursions) where
  good_move position h := h.move position
  good_miss expected h := h.miss expected
  track_move _ _ := rfl
  track_miss _ _ := rfl
  track_append {scan scan' scan'' log log'} htrack htrack' := by
    show scan''.failures = scan.failures.noteAll (log ++ log')
    rw [htrack', htrack, FurthestFailure.noteAll_append]
  span := Grammar.plain_span
  invoked _ hfaithful hstart hrun := by
    refine (hinvoke _ _ hfaithful hstart hrun).imp_left ?_
    rintro ⟨hfaithful', hposition, -, hlog⟩
    exact ⟨hfaithful', hposition, hlog⟩
  aborted _ _ _ _ := .inl trivial
  lasting := hlasting _

/-- An activation is transparent if the invocations from its body are. -/
theorem transparent_activate (engine : Engine S Tree M) {invoke : Invoke Tree M}
    {form : Expression S} (hbody : grammar.body? rule = some (.expression form))
    (hlasting : ∀ n, Lasting invoke fun scan : Scan Tree M => n ≤ scan.metrics.recursions)
    (hinvoke : ∀ rule scan, Transparent grammar engine.input rule scan (invoke rule scan)) :
    Transparent grammar engine.input rule scan
      (engine.activate invoke rule form.toProcedure scan) := by
  intro keys recursions outcome scan' hfaithful hstart h
  let site : Site := ⟨rule, scan.position, scan.stack.depth⟩
  let inner := ⟨rule, scan.position⟩ :: keys
  have htracing : Tracing engine.input invoke
      (plainReading grammar engine.input inner recursions) := tracing_plain hlasting hinvoke
  have hbegun : ((scan.enter site).beginAttempt site).Faithful grammar engine.input inner
      recursions := { hfaithful.enter site with }
  have hattempts : engine.attemptLimit scan.position =
    engine.input.size - scan.position + 1 + 1 := rfl
  unfold activate at h
  dsimp only at h
  have htraced := traced_toProcedure htracing Scan.Faithful.currentRule form hbegun hstart
    fun _ => trivial
  -- The activation has an answer, so its first attempt was not ended early.
  have haborts : ∀ {error scan₁}, form.toProcedure.run engine.input invoke
      ((scan.enter site).beginAttempt site) ≠ (.error error, scan₁) := by
    intro error scan₁ hrun
    rw [hattempts] at h
    unfold growUpTo at h
    rw [hrun] at h
    cases h
  generalize hrun : form.toProcedure.run engine.input invoke
    ((scan.enter site).beginAttempt site) = answer at htraced
  cases htraced with
  | excused => exact absurd hrun haborts
  | stuck => exact absurd hrun haborts
  | @found found log scan₁ hfaithful₁ hfailures heval =>
    -- Nothing came back, so the attempt is the answer, and plain evaluation finds it too.
    left
    obtain ⟨rfl, hposition, hmemo, ⟨top, hlive⟩, hfailures', hmetrics⟩ :=
      growUpTo_of_plain hrun hfaithful₁.plain h
    have hplain := Grammar.plain_of_evaluates hbody heval
    refine ⟨hfaithful₁.release hplain ?_ hmemo hlive hfailures' hmetrics, hposition, ?_, log,
      hplain, hfailures'.trans hfailures⟩
    · intro entry hmem
      rw [hfailures]
      exact FurthestFailure.absorbs_noteAll _ hmem
    · rw [hmemo]
      exact MemoTable.find?_put_self
  | lost hlost hendless harrives =>
    -- Something came back, and the count of recursions will say so at the end.
    right
    refine ⟨?_, Grammar.endless_of_arrives hbody harrives hendless⟩
    have hreleased := congrArg (fun answer => answer.2.metrics.recursions) h
    dsimp only at hreleased
    rw [Scan.metrics_release, hattempts] at hreleased
    refine Nat.lt_of_lt_of_eq ?_ hreleased
    apply recursions_growUpTo_succ
    · apply recursions_growUpTo
      exact fun scan h => lasts_toProcedure (hlasting _) engine.input form h
    · rw [hrun]
      exact hlost

/-- All invocations are transparent where all bodies are expressions. -/
theorem transparent_invokeWithin (engine : Engine S Tree M)
    (hbodies : ∀ rule body, engine.body? rule = some body → ∃ form : Expression S,
      body = form.toProcedure ∧ grammar.body? rule = some (.expression form))
    (room : Nat) (rule : RuleId) (scan : Scan Tree M) :
    Transparent grammar engine.input rule scan (engine.invokeWithin room rule scan) := by
  induction room generalizing rule scan with
  | zero =>
    apply engine.transparent_answer
    intro body hbody keys recursions outcome scan' hfaithful hstart h
    exact nomatch h
  | succ room ih =>
    apply engine.transparent_answer
    intro body hbody
    obtain ⟨form, rfl, hform⟩ := hbodies rule body hbody
    apply engine.transparent_activate hform _ ih
    intro n
    refine engine.lasting_recursions (fun rule body hbody => ?_) n room
    obtain ⟨form, hform, -⟩ := hbodies rule body hbody
    exact ⟨form, hform⟩

end Engine

/-! ## Parses -/

/-- Plain evaluation of a rule comes to an end. -/
def Grammar.Terminates [DecidableEq S] (grammar : Grammar S M) (input : Array S) (rule : RuleId)
    (start : Nat) : Prop :=
  ∃ outcome log, grammar.Plain input rule start outcome log

namespace Parser

variable [DecidableEq S] (parser : Parser S M)

theorem faithful_firstScan (input : Array S) (rule : RuleId) (start : Nat) (memory : M) :
    (parser.firstScan input.size rule start memory).Faithful parser.grammar input [] 0 where
  keys_eq := rfl
  plain _ hmem := nomatch hmem
  recursions_eq := rfl
  marked hfind := nomatch MemoTable.find?_empty.symm.trans hfind
  finished hfind := nomatch MemoTable.find?_empty.symm.trans hfind

variable {parser}

/-- The errors that end a run early are not about the input. -/
theorem isInputFault_of_run (hforms : parser.grammar.OfExpressions) {input : Array S}
    {rule : RuleId} {scan scan' : Scan Tree M} {error : ParseError}
    (h : (parser.engine input).invoke rule scan = (.error error, scan')) :
    error.isInputFault = false := by
  have haccounts : (parser.engine input).Accounts (fun _ => True)
      (fun error => error.isInputFault = false) := by
    refine ⟨fun _ => rfl, fun _ => rfl, fun {rule} _ => ?_⟩
    cases hbody : (parser.engine input).body? rule with
    | none => exact .inl ⟨rfl, rfl⟩
    | some body =>
      obtain ⟨form, rfl, -⟩ := body?_engine hforms hbody
      exact .inr ⟨form, rfl, fun _ _ => rfl, fun _ _ => trivial⟩
  exact Engine.cause_of_error haccounts parser.config.maxDepth trivial h

/-- Where a parse is not ended early, plain evaluation of its start rule comes to an end if and only
if no recursion was detected. The memo table then holds the outcome of plain evaluation, the
failures are those that it logs, and the result of the parse is what these two come to. -/
theorem parse_transparent (hforms : parser.grammar.OfExpressions) (input : Array S)
    (rule : RuleId) (options : Options) (memory : M)
    (hanswered : ∀ error, (parser.parse input rule options memory).result = .error error →
      error.isInputFault = true) :
    let parse := parser.parse input rule options memory
    let start := options.start?.getD 0
    (parser.grammar.Terminates input rule start ↔ parse.parser.ledger.metrics.recursions = 0) ∧
    ∀ outcome log, parser.grammar.Plain input rule start outcome log →
      parse.parser.ledger.memo.outcome? rule start = some outcome ∧
        parse.parser.ledger.failures = FurthestFailure.empty.noteAll log ∧
        parse.result =
          conclude (FurthestFailure.empty.noteAll log) options input.size outcome := by
  intro parse start
  by_cases hrule : rule.index < parser.grammar.size
  · by_cases hstart : start ≤ input.size
    · have hclose : parse = _ := parser.parse_eq_close input options memory hrule hstart
      cases hrun : (parser.engine input).invoke rule
        (parser.firstScan input.size rule start memory) with
      | mk result scan =>
      rw [hrun] at hclose
      cases result with
      | error error =>
        have hfault := hanswered error (congrArg Parse.result hclose)
        exact nomatch hfault.symm.trans (isInputFault_of_run hforms hrun)
      | ok outcome =>
        -- All that is said of the parse is said of the scan that its run ends with.
        have hmetrics : parse.parser.ledger.metrics = scan.metrics :=
          congrArg (fun parse => parse.parser.ledger.metrics) hclose
        have hmemo : parse.parser.ledger.memo = scan.memo :=
          congrArg (fun parse => parse.parser.ledger.memo) hclose
        have hfailures : parse.parser.ledger.failures = scan.failures :=
          congrArg (fun parse => parse.parser.ledger.failures) hclose
        have hresult : parse.result = conclude scan.failures options input.size outcome :=
          congrArg Parse.result hclose
        have htransparent := (parser.engine input).transparent_invokeWithin
          (fun rule body hbody => body?_engine hforms hbody) parser.config.maxDepth rule _
          (parser.faithful_firstScan input rule start memory) hstart hrun
        rcases htransparent with
          ⟨hfaithful, -, hfind, log, hplain, hnoted⟩ | ⟨hrecursions, hendless⟩
        · refine ⟨⟨fun _ => hmetrics ▸ hfaithful.recursions_eq,
            fun _ => ⟨outcome, log, hplain⟩⟩, ?_⟩
          intro outcome' log' hplain'
          obtain ⟨rfl, rfl⟩ := Grammar.plain_agree hplain hplain'
          have hnoted' : scan.failures = FurthestFailure.empty.noteAll log := hnoted
          rw [hresult, hfailures, hmemo, hnoted']
          exact ⟨MemoTable.outcome?_eq_some_iff.mpr hfind, rfl, rfl⟩
        · -- An answer of plain evaluation would need one of a live activation, and none is live.
          have hnever : ∀ outcome log, ¬ parser.grammar.Plain input rule start outcome log := by
            rintro outcome log ⟨depth, hplain⟩
            obtain ⟨key, hkey, -⟩ := hendless depth outcome log hplain
            exact nomatch hkey
          refine ⟨⟨fun ⟨outcome, log, hplain⟩ => (hnever outcome log hplain).elim, ?_⟩, ?_⟩
          · intro hzero
            rw [hmetrics] at hzero
            rw [hzero] at hrecursions
            exact absurd hrecursions (Nat.lt_irrefl 0)
          · exact fun outcome log hplain => (hnever outcome log hplain).elim
    · have hrefused := parser.parse_of_lt_start input options memory hrule (by omega)
      exact nomatch hanswered _ (congrArg Parse.result hrefused)
  · have hsize : parser.grammar.size ≤ rule.index := by omega
    have hrefused := parser.parse_of_size_le input options memory hsize
    exact nomatch hanswered _ (congrArg Parse.result hrefused)

end Parser

/-- Letters in a row: `row` is `"l" row`, or else `"l"`. -/
def Grammar.row : Grammar Char Unit :=
  ⟨[⟨"row", .expression (.choice [.sequence [Expression.text "l", .rule ⟨0⟩],
    Expression.text "l"])⟩]⟩

theorem Grammar.row_ofExpressions : Grammar.row.OfExpressions := by
  intro rule hrule
  rw [List.mem_singleton.mp hrule]
  exact ⟨_, rfl⟩

/-- Plain evaluation comes to an end where the rule comes back to itself further to the right, and
not where it comes back to itself in one place. -/
theorem Parser.parse_transparent_row :
    Grammar.row.Terminates #['l', 'l'] ⟨0⟩ 0 ∧ ¬ Grammar.ells.Terminates #['l', 'l'] ⟨0⟩ 0 := by
  have hanswered : ∀ grammar : Grammar Char Unit,
      ((new grammar {}).parse #['l', 'l'] ⟨0⟩ {} ()).result.toOption.map Match.stop = some 2 →
      ∀ error, ((new grammar {}).parse #['l', 'l'] ⟨0⟩ {} ()).result = .error error →
        error.isInputFault = true := by
    intro grammar hstop error hresult
    rw [hresult] at hstop
    exact nomatch hstop
  have hrow := (parse_transparent Grammar.row_ofExpressions #['l', 'l'] ⟨0⟩ {} ()
    (hanswered Grammar.row (by decide +kernel))).1
  have hells := (parse_transparent Grammar.ells_ofExpressions #['l', 'l'] ⟨0⟩ {} ()
    (hanswered Grammar.ells (by decide +kernel))).1
  constructor
  · exact hrow.mpr (by decide +kernel)
  · intro hterminates
    exact absurd (hells.mp hterminates) (by decide +kernel)

end LeftPeg
