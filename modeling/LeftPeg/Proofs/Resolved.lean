import LeftPeg.Proofs.Parse

/-!
# What can end a run early

An error travels up from where it happened, and on the way nothing but defects can be added to it.
So each error of a run is a defect, the want of room for one more activation, or a mention of a rule
that is not there (`Engine.cause_of_error`).  Orderly runs have no defects, and where all mentions
are resolved the want of room is all that is left.
-/

namespace LeftPeg

open Expression (Trail)

variable {S M : Type}

namespace Expression

mutual

/-- The rules mentioned by their places, from left to right. -/
def targets : Expression S → List RuleId
  | .rule target => [target]
  | .sequence items => targetsOfAll items
  | .choice alternatives => targetsOfAll alternatives
  | .repetition item _ _ => item.targets
  | .lookahead item _ => item.targets
  | .tagged _ item => item.targets
  | .literal .. | .satisfying .. | .any | .reference _ => []

/-- The rules mentioned by their places in a list of expressions, from left to right. -/
def targetsOfAll : List (Expression S) → List RuleId
  | [] => []
  | item :: rest => item.targets ++ targetsOfAll rest

end

mutual

theorem references_link {find? : String → Option RuleId} (e : Expression S)
    (hfind : ∀ name ∈ e.references, (find? name).isSome) : (e.link find?).references = [] := by
  cases e with
  | reference name =>
    obtain ⟨target, htarget⟩ := Option.isSome_iff_exists.mp (hfind name List.mem_cons_self)
    rw [link, htarget]
    rfl
  | sequence items => exact references_linkAll items hfind
  | choice alternatives => exact references_linkAll alternatives hfind
  | repetition item atLeast atMost => exact references_link item hfind
  | lookahead item positive => exact references_link item hfind
  | tagged tag item => exact references_link item hfind
  | _ => rfl

theorem references_linkAll {find? : String → Option RuleId} (items : List (Expression S))
    (hfind : ∀ name ∈ referencesOfAll items, (find? name).isSome) :
    referencesOfAll (linkAll find? items) = [] := by
  cases items with
  | nil => rfl
  | cons item rest =>
    rw [linkAll, referencesOfAll,
      references_link item fun name hname => hfind name (List.mem_append_left _ hname),
      references_linkAll rest fun name hname => hfind name (List.mem_append_right _ hname),
      List.append_nil]

end

mutual

/-- Linking adds the rules that the names stand for. -/
theorem mem_targets_link {find? : String → Option RuleId} (e : Expression S) {target : RuleId}
    (h : target ∈ (e.link find?).targets) :
    target ∈ e.targets ∨ ∃ name, find? name = some target := by
  cases e with
  | reference name =>
    cases hfind : find? name with
    | none =>
      rw [link, hfind] at h
      exact nomatch h
    | some found =>
      rw [link, hfind] at h
      exact .inr ⟨name, by rw [hfind, List.mem_singleton.mp h]⟩
  | sequence items => exact mem_targetsOfAll_linkAll items h
  | choice alternatives => exact mem_targetsOfAll_linkAll alternatives h
  | repetition item atLeast atMost => exact mem_targets_link item h
  | lookahead item positive => exact mem_targets_link item h
  | tagged tag item => exact mem_targets_link item h
  | _ => exact .inl h

theorem mem_targetsOfAll_linkAll {find? : String → Option RuleId} (items : List (Expression S))
    {target : RuleId} (h : target ∈ targetsOfAll (linkAll find? items)) :
    target ∈ targetsOfAll items ∨ ∃ name, find? name = some target := by
  cases items with
  | nil => exact .inl h
  | cons item rest =>
    rcases List.mem_append.mp h with hitem | hrest
    · exact (mem_targets_link item hitem).imp_left fun h => List.mem_append_left _ h
    · exact (mem_targetsOfAll_linkAll rest hrest).imp_left fun h => List.mem_append_right _ h

end

end Expression

namespace Task

/-- The rules that a task mentions by name. -/
def references : Task S → List String
  | .one expression => expression.references
  | .all items => Expression.referencesOfAll items
  | .first alternatives => Expression.referencesOfAll alternatives
  | .copies item _ _ => item.references

/-- The rules that a task mentions by place. -/
def targets : Task S → List RuleId
  | .one expression => expression.targets
  | .all items => Expression.targetsOfAll items
  | .first alternatives => Expression.targetsOfAll alternatives
  | .copies item _ _ => item.targets

end Task

/-- An error comes from a name that was not resolved, or from the invocation of a rule mentioned. -/
theorem Course.source_of_error [DecidableEq S] {input : Array S} {invoke : Invoke Tree M}
    {task : Task S} {trail : Trail} {scan scan' : Scan Tree M} {error : ParseError}
    {answer : Answer Tree M (Option Trail)}
    (h : Course input invoke task trail scan answer) (herror : answer = (.error error, scan')) :
    (∃ name ∈ task.references, error = .unknownRule name) ∨
      ∃ target ∈ task.targets, ∃ before after, invoke target before = (.error error, after) := by
  -- Going back is for failures; an error passes through.
  have hrewind : ∀ {position answer},
      rewind (M := M) (α := Trail) position answer = (.error error, scan') →
        answer = (.error error, scan') := by
    intro position answer hanswer
    rcases answer with ⟨_ | _ | _, after⟩
    · exact hanswer
    · exact nomatch hanswer
    · exact nomatch hanswer
  induction h with
  | unresolved =>
    injection herror with herror hscan
    injection herror with herror
    exact .inl ⟨_, List.mem_singleton_self _, herror.symm⟩
  -- The two places where an error begins for an expression; the rest hands it on.
  | @ruleAborts target trail scan after error' hinvoke =>
    injection herror with herror hscan
    injection herror with herror
    subst herror
    exact .inr ⟨target, List.mem_singleton_self _, scan, after, hinvoke⟩
  | sequence hitems ih => exact ih (hrewind herror)
  | choice hitems ih => exact ih (hrewind herror)
  | repetition hcopies ih => exact ih (hrewind herror)
  | lookaheadAborts hitem ih => exact ih herror
  | taggedAborts hitem ih => exact ih herror
  | allCons hitem hrest ihitem ihrest =>
    rcases ihrest herror with ⟨name, hname, heq⟩ | ⟨target, htarget, hinvoke⟩
    · exact .inl ⟨name, List.mem_append_right _ hname, heq⟩
    · exact .inr ⟨target, List.mem_append_right _ htarget, hinvoke⟩
  | allAborts hitem ih =>
    rcases ih herror with ⟨name, hname, heq⟩ | ⟨target, htarget, hinvoke⟩
    · exact .inl ⟨name, List.mem_append_left _ hname, heq⟩
    · exact .inr ⟨target, List.mem_append_left _ htarget, hinvoke⟩
  | firstNext hitem hrest ihitem ihrest =>
    rcases ihrest herror with ⟨name, hname, heq⟩ | ⟨target, htarget, hinvoke⟩
    · exact .inl ⟨name, List.mem_append_right _ hname, heq⟩
    · exact .inr ⟨target, List.mem_append_right _ htarget, hinvoke⟩
  | firstAborts hitem ih =>
    rcases ih herror with ⟨name, hname, heq⟩ | ⟨target, htarget, hinvoke⟩
    · exact .inl ⟨name, List.mem_append_left _ hname, heq⟩
    · exact .inr ⟨target, List.mem_append_left _ htarget, hinvoke⟩
  | copiesNext hitem hmoved hrest ihitem ihrest => exact ihrest herror
  | copiesAbort hitem ih => exact ih herror
  | _ => exact nomatch herror

namespace Scan

variable {V : Type}

/-- A decision on an attempt fails only if the state is broken. -/
theorem defect_of_settle {scan scan' : Scan V M} {site : Site} {attempt : Outcome V}
    {error : ParseError} (h : scan.settle site attempt = (.error error, scan')) :
    ∃ cause, error = .defect cause := by
  unfold settle at h
  split at h
  · injection h with h _
    injection h with h
    exact ⟨_, h.symm⟩
  · dsimp only at h
    split at h
    · exact nomatch h
    · exact nomatch h
    -- Of the four verdicts only the one to finish asks for something that may be missing.
    · unfold finish at h
      dsimp only at h
      split at h
      · injection h with h _
        injection h with h
        exact ⟨_, h.symm⟩
      · exact nomatch h
    · exact nomatch h

/-- Releasing an activation adds no errors but defects. -/
theorem source_of_release_error {site : Site} {answer : Answer V M (Outcome V)}
    {scan' : Scan V M} {error : ParseError}
    (h : Scan.release site answer = (.error error, scan')) :
    (∃ after, answer = (.error error, after)) ∨ ∃ cause, error = .defect cause := by
  obtain ⟨result, scan⟩ := answer
  cases result with
  | error error' =>
    -- An error takes precedence over what may be wrong with the stack.
    injection h with h _
    injection h with h
    exact .inl ⟨scan, by rw [h]⟩
  | ok outcome =>
    right
    unfold Scan.release at h
    dsimp only at h
    split at h
    · injection h with h _
      injection h with h
      exact ⟨_, h.symm⟩
    · split at h
      · exact nomatch h
      · injection h with h _
        injection h with h
        exact ⟨_, h.symm⟩

end Scan

namespace Engine

variable {V : Type}

/-- Growth adds no errors but defects. -/
theorem source_of_growUpTo_error {evaluate : Scan V M → Answer V M (Outcome V)} {site : Site}
    {limit attempts : Nat} {scan scan' : Scan V M} {error : ParseError}
    (h : growUpTo evaluate site limit attempts scan = (.error error, scan')) :
    (∃ before after, evaluate before = (.error error, after)) ∨ ∃ cause, error = .defect cause := by
  induction attempts generalizing scan with
  | zero =>
    injection h with h _
    injection h with h
    exact .inr ⟨_, h.symm⟩
  | succ attempts ih =>
    unfold growUpTo at h
    cases hrun : evaluate (scan.beginAttempt site) with
    | mk result scan₁ =>
    rw [hrun] at h
    cases result with
    | error error' =>
      injection h with h _
      injection h with h
      exact .inl ⟨_, scan₁, h ▸ hrun⟩
    | ok attempt =>
      dsimp only at h
      split at h
      · rename_i hsettle
        injection h with h _
        injection h with h
        exact .inr (Scan.defect_of_settle (h ▸ hsettle))
      · exact nomatch h
      · exact ih h

/-- `Cause` accounts for all that can end a run early that invokes no rules but the `Invoked` ones:
a broken state, no room for one more activation, or a mention of a rule that is not there. -/
structure Accounts [DecidableEq S] (engine : Engine S Tree M) (Invoked : RuleId → Prop)
    (Cause : ParseError → Prop) : Prop where
  defect (cause : Defect) : Cause (.defect cause)
  tooDeep (index : Nat) : Cause (.tooDeep engine.maxDepth index)
  /-- A rule that is invoked is not there, or its body mentions rules that may be invoked too. -/
  body {rule : RuleId} : Invoked rule →
    (engine.body? rule = none ∧ Cause (.unknownRule rule.display)) ∨
    ∃ form : Expression S, engine.body? rule = some form.toProcedure ∧
      (∀ name ∈ form.references, Cause (.unknownRule name)) ∧
      ∀ target ∈ form.targets, Invoked target

section

variable [DecidableEq S] {engine : Engine S Tree M} {Invoked : RuleId → Prop}
  {Cause : ParseError → Prop} {rule : RuleId} {scan scan' : Scan Tree M} {error : ParseError}

/-- To ask for a rule fails for want of a body or an owner of the marker, or in the evaluation. -/
theorem Accounts.of_answer (h : engine.Accounts Invoked Cause)
    {evaluate : RuleId → Procedure S Tree M (Outcome Tree) → Scan Tree M →
      Answer Tree M (Outcome Tree)} (hrule : Invoked rule)
    (herror : engine.answer evaluate rule scan = (.error error, scan'))
    (hevaluate : ∀ form : Expression S, (∀ name ∈ form.references, Cause (.unknownRule name)) →
      (∀ target ∈ form.targets, Invoked target) →
      evaluate rule form.toProcedure scan = (.error error, scan') → Cause error) :
    Cause error := by
  unfold answer at herror
  split at herror
  · exact nomatch herror
  · unfold Scan.reenter at herror
    split at herror
    · exact nomatch herror
    · injection herror with herror _
      injection herror with herror
      exact herror ▸ h.defect _
  · rcases h.body hrule with ⟨hbody, hcause⟩ | ⟨form, hbody, hreferences, htargets⟩
    · rw [hbody] at herror
      injection herror with herror _
      injection herror with herror
      exact herror ▸ hcause
    · rw [hbody] at herror
      exact hevaluate form hreferences htargets herror

/-- An activation ends early for a cause that its body met, or for a defect. -/
theorem Accounts.of_activate (h : engine.Accounts Invoked Cause)
    {invoke : Invoke Tree M} {form : Expression S}
    (hreferences : ∀ name ∈ form.references, Cause (.unknownRule name))
    (hinvoke : ∀ target ∈ form.targets, ∀ before after,
      invoke target before = (.error error, after) → Cause error)
    (herror : engine.activate invoke rule form.toProcedure scan = (.error error, scan')) :
    Cause error := by
  unfold activate at herror
  rcases Scan.source_of_release_error herror with ⟨after, hgrow⟩ | ⟨cause, rfl⟩
  · rcases source_of_growUpTo_error hgrow with ⟨before, after', hevaluate⟩ | ⟨cause, rfl⟩
    · rw [run_toProcedure] at hevaluate
      have hcourse : Course engine.input invoke (.one form) [] before _ :=
        course_recognise form [] before
      cases hrun : (form.recognise []).run engine.input invoke before with
      | mk result scan₁ =>
      rw [hrun] at hcourse hevaluate
      rcases result with error' | _ | trail
      · injection hevaluate with herror _
        injection herror with herror
        subst herror
        rcases hcourse.source_of_error rfl with
          ⟨name, hname, rfl⟩ | ⟨target, htarget, before', after'', hrun⟩
        · exact hreferences name hname
        · exact hinvoke target htarget before' after'' hrun
      · exact nomatch hevaluate
      · exact nomatch hevaluate
    · exact h.defect cause
  · exact h.defect cause

/-- Every error that ends a run early is accounted for. -/
theorem cause_of_error (h : engine.Accounts Invoked Cause) (room : Nat)
    (hrule : Invoked rule) (herror : engine.invokeWithin room rule scan = (.error error, scan')) :
    Cause error := by
  induction room generalizing rule scan scan' with
  | zero =>
    refine h.of_answer hrule herror fun form _ _ herror => ?_
    injection herror with herror _
    injection herror with herror
    exact herror ▸ h.tooDeep _
  | succ room ih =>
    refine h.of_answer hrule herror fun form hreferences htargets herror => ?_
    refine h.of_activate hreferences ?_ herror
    exact fun target htarget before after hrun => ih (htargets target htarget) hrun

end

end Engine

namespace Draft

/-- All bodies are expressions, which mention rules by name only. -/
def ByName (draft : Draft S M) : Prop :=
  ∀ declaration ∈ draft.declared, ∀ body, declaration.body? = some body →
    ∃ form : Expression S, body = .expression form ∧ form.targets = []

theorem index_lt_of_find? {draft : Draft S M} {name : String} {rule : RuleId}
    (h : draft.find? name = some rule) : rule.index < draft.declared.length := by
  obtain ⟨index, hindex, rfl⟩ := Option.map_eq_some_iff.mp h
  exact (List.findIdx?_eq_some_iff_getElem.mp hindex).1

/-- A finished rule is the declaration's body with its names resolved. -/
theorem resolved_of_finishRule {draft : Draft S M} (hnames : draft.ByName)
    {declaration : Declaration S M} (hmem : declaration ∈ draft.declared) {rule : Rule S M}
    (h : draft.finishRule declaration = .ok rule) :
    ∃ form : Expression S, rule.body = .expression form ∧ form.references = [] ∧
      ∀ target ∈ form.targets, target.index < draft.declared.length := by
  unfold finishRule at h
  cases hbody : declaration.body? with
  | none =>
    rw [hbody] at h
    exact nomatch h
  | some body =>
    rw [hbody] at h
    obtain ⟨form, rfl, htargets⟩ := hnames declaration hmem body hbody
    dsimp only at h
    split at h
    · exact nomatch h
    · rename_i hall
      injection h with h
      subst h
      refine ⟨form.link draft.find?, rfl, Expression.references_link form ?_, ?_⟩
      · intro name hname
        -- Nothing is looked up in vain, so every name has its place.
        have hfound := List.find?_eq_none.mp hall name hname
        rw [Bool.not_eq_true, Option.isNone_eq_false_iff] at hfound
        exact hfound
      · intro target htarget
        rcases Expression.mem_targets_link form htarget with hold | ⟨name, hname⟩
        · rw [htargets] at hold
          exact nomatch hold
        · exact index_lt_of_find? hname

/-- Where all items of a list give a result, the results are as many, each that of the item in its
place. -/
theorem getElem?_of_mapM_ok {α β ε : Type} {f : α → Except ε β} {items : List α}
    {results : List β} (h : items.mapM f = .ok results) :
    results.length = items.length ∧ ∀ (i : Nat) result, results[i]? = some result →
      ∃ item, items[i]? = some item ∧ f item = .ok result := by
  induction items generalizing results with
  | nil =>
    injection h with h
    subst h
    exact ⟨rfl, fun i result hresult => nomatch hresult⟩
  | cons item rest ih =>
    rw [List.mapM_cons] at h
    cases hitem : f item with
    | error error =>
      rw [hitem] at h
      exact nomatch h
    | ok result =>
      rw [hitem] at h
      cases hrest : rest.mapM f with
      | error error =>
        rw [hrest] at h
        exact nomatch h
      | ok results' =>
        rw [hrest] at h
        injection h with h
        subst h
        obtain ⟨hlength, hresults⟩ := ih hrest
        refine ⟨congrArg (· + 1) hlength, fun i result' hresult' => ?_⟩
        cases i with
        | zero =>
          injection hresult' with hresult'
          subst hresult'
          exact ⟨item, rfl, hitem⟩
        | succ i => exact hresults i result' hresult'

/-- In a grammar finished from expressions that mention rules by name, all mentions of rules are
places of its table. -/
theorem resolved_of_finish {draft : Draft S M} {grammar : Grammar S M} (hnames : draft.ByName)
    (h : draft.finish = .ok grammar) {rule : RuleId} (hrule : rule.index < grammar.size) :
    ∃ form : Expression S, grammar.body? rule = some (.expression form) ∧ form.references = [] ∧
      ∀ target ∈ form.targets, target.index < grammar.size := by
  unfold finish at h
  split at h
  · exact nomatch h
  · split at h
    · exact nomatch h
    · cases hrules : draft.declared.mapM draft.finishRule with
      | error error =>
        rw [hrules] at h
        exact nomatch h
      | ok rules =>
        rw [hrules] at h
        injection h with h
        subst h
        obtain ⟨hlength, hresults⟩ := getElem?_of_mapM_ok hrules
        have hget : rules[rule.index]? = some rules[rule.index] :=
          List.getElem?_eq_getElem hrule
        obtain ⟨declaration, hdeclaration, hfinished⟩ := hresults _ _ hget
        obtain ⟨form, hbody, hreferences, htargets⟩ :=
          resolved_of_finishRule hnames (List.mem_of_getElem? hdeclaration) hfinished
        refine ⟨form, ?_, hreferences, ?_⟩
        · rw [Grammar.body?, hget, Option.map_some, hbody]
        · intro target htarget
          rw [Grammar.size, hlength]
          exact htargets target htarget

end Draft

namespace Parser

variable [DecidableEq S] (parser : Parser S M)

/-- Orderly runs have no defects, and what a parse concludes with is a fault of the input. -/
theorem result_ne_defect (hforms : parser.grammar.OfExpressions) (input : Array S) (rule : RuleId)
    (options : Options) (memory : M) (cause : Defect) :
    (parser.parse input rule options memory).result ≠ .error (.defect cause) := by
  intro hresult
  by_cases hrule : rule.index < parser.grammar.size
  · by_cases hstart : options.start?.getD 0 ≤ input.size
    · rw [parser.parse_eq_close input options memory hrule hstart] at hresult
      have hcomes := parser.comes_firstScan hforms input rule hstart memory
      generalize (parser.engine input).invoke rule _ = answer at hcomes hresult
      cases hcomes with
      | error hsound hkeeps =>
        injection hresult with hresult
        exact hsound cause hresult
      | ok horderly hdepth hundisturbed hkept =>
        exact nomatch isInputFault_of_conclude hresult
    · rw [parser.parse_of_lt_start input options memory hrule (by omega)] at hresult
      exact nomatch hresult
  · rw [parser.parse_of_size_le input options memory (by omega)] at hresult
    exact nomatch hresult

variable {parser} in
/-- Where all mentions of rules are resolved, none of them is a cause of an early end. -/
theorem accounts_of_finish {draft : Draft S M} (hfinish : draft.finish = .ok parser.grammar)
    (hnames : draft.ByName) (input : Array S) :
    (parser.engine input).Accounts (fun target => target.index < parser.grammar.size)
      fun error => (∃ index, error = .tooDeep parser.config.maxDepth index) ∨
        ∃ cause, error = .defect cause where
  defect cause := .inr ⟨cause, rfl⟩
  tooDeep index := .inl ⟨index, rfl⟩
  body htarget := by
    obtain ⟨form, hbody, hreferences, htargets⟩ :=
      Draft.resolved_of_finish hnames hfinish htarget
    refine .inr ⟨form, congrArg (Option.map Body.toProcedure) hbody, ?_, htargets⟩
    intro name hname
    rw [hreferences] at hname
    exact nomatch hname

/-- A parse with expressions never meets a broken state. Where they mention rules by name only and
the start rule is there, the one thing that can end its run early is the want of room for one more
activation. -/
theorem parse_error (hforms : parser.grammar.OfExpressions) (input : Array S) (rule : RuleId)
    (options : Options) (memory : M) :
    (∀ cause, (parser.parse input rule options memory).result ≠ .error (.defect cause)) ∧
    ∀ draft : Draft S M, draft.finish = .ok parser.grammar → draft.ByName →
      rule.index < parser.grammar.size →
      ∀ error, (parser.parse input rule options memory).result = .error error →
        error.isInputFault = true ∨
        (error = .startOutOfBounds (options.start?.getD 0) input.size ∧
          input.size < options.start?.getD 0) ∨
        ∃ index, error = .tooDeep parser.config.maxDepth index := by
  have hsound := parser.result_ne_defect hforms input rule options memory
  refine ⟨hsound, fun draft hfinish hnames hrule error hresult => ?_⟩
  by_cases hstart : options.start?.getD 0 ≤ input.size
  · have hclose := parser.parse_eq_close input options memory hrule hstart
    cases hrun : (parser.engine input).invoke rule
      (parser.firstScan input.size rule (options.start?.getD 0) memory) with
    | mk result scan =>
    rw [hrun] at hclose
    rw [hclose] at hresult
    cases result with
    -- A run that comes to an answer is concluded, and that can only find fault with the input.
    | ok outcome => exact .inl (isInputFault_of_conclude hresult)
    | error error' =>
      injection hresult with hresult
      subst hresult
      rcases Engine.cause_of_error (accounts_of_finish hfinish hnames input)
        parser.config.maxDepth hrule hrun with htooDeep | ⟨cause, rfl⟩
      · exact .inr (.inr htooDeep)
      -- A defect is a cause in general, but not of this run.
      · rw [hclose] at hsound
        exact (hsound cause rfl).elim
  · rw [parser.parse_of_lt_start input options memory hrule (by omega)] at hresult
    injection hresult with hresult
    exact .inr (.inl ⟨hresult.symm, by omega⟩)

end Parser

/-! ## A draft by name -/

/-- The draft of `Grammar.ells`. -/
def Draft.ells : Draft Char Unit :=
  (Draft.empty.add "ells" (.expression (.choice [.sequence [.reference "ells",
    Expression.text "l"], Expression.text "l"]))).2

theorem Draft.finish_ells : Draft.ells.finish = .ok Grammar.ells := rfl

theorem Draft.ells_byName : Draft.ells.ByName := by
  intro declaration hdeclaration body hbody
  rw [List.mem_singleton.mp hdeclaration] at hbody
  injection hbody with hbody
  exact ⟨_, hbody.symm, rfl⟩

/-- Without room for an activation, the run of a left-recursive rule ends at once. -/
theorem Parser.parse_error_ells :
    ∃ error,
      ((Parser.new Grammar.ells { maxDepth := 0 }).parse #['l', 'l'] ⟨0⟩ {} ()).result =
        .error error ∧
      (∀ cause, error ≠ .defect cause) ∧ ∃ index, error = .tooDeep 0 index := by
  obtain ⟨hsound, hcauses⟩ := (Parser.new Grammar.ells { maxDepth := 0 }).parse_error
    Grammar.ells_ofExpressions #['l', 'l'] ⟨0⟩ {} ()
  have hcauses := hcauses Draft.ells Draft.finish_ells Draft.ells_byName (by decide)
  -- The error is not about the input, and the parse does not start past its end.
  have hfault : (match ((Parser.new Grammar.ells { maxDepth := 0 }).parse #['l', 'l'] ⟨0⟩ {}
      ()).result with
    | .error error => error.isInputFault
    | .ok _ => true) = false := by
    decide +kernel
  cases hresult : ((Parser.new Grammar.ells { maxDepth := 0 }).parse #['l', 'l'] ⟨0⟩ {} ()).result
    with
  | ok found =>
    rw [hresult] at hfault
    exact nomatch hfault
  | error error =>
    rw [hresult] at hfault hsound
    refine ⟨error, rfl, fun cause hcause => hsound cause (congrArg _ hcause), ?_⟩
    rcases hcauses error hresult with hinput | ⟨-, hstart⟩ | htooDeep
    · exact nomatch hfault.symm.trans hinput
    · exact nomatch hstart
    · exact htooDeep

end LeftPeg
