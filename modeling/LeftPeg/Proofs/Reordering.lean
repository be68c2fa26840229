import Mathlib.Logic.Equiv.Defs
import LeftPeg.Proofs.Termination
import LeftPeg.Proofs.Translation
import LeftPeg.Proofs.Drafting

/-!
# The order of declarations

A grammar mentions rules by name, and the places they get depend on the order in which they are
declared. Nothing else does: if two series of edits declare the same names with the same bodies,
then all that their parsers come to is the same, except that each rule has its own place in either
(`Draft.parseNamed_reorder`).

The places of one grammar are mapped to those of the other by a permutation, and linking the bodies
commutes with it (`Grammar.Reorders`). So the runs of the two parsers are related by the relabelling
of `LeftPeg.Proofs.Relabelling` that moves no position.
-/

namespace LeftPeg

variable {S M : Type}

namespace Relabelling

/-- Rules have other places, and positions stay. -/
def reorder (π : Equiv.Perm RuleId) : Relabelling where
  rename := π
  rename_inj := fun h => π.injective h
  offset := 0

variable {π : Equiv.Perm RuleId}

/-- A tree is the same but for the rules in it. -/
theorem tree_reorder (rule : Option RuleId) (tag : Option String) (start stop : Nat)
    (children : List Tree) :
    (reorder π).tree ⟨rule, tag, start, stop, children⟩ =
      ⟨rule.map π, tag, start, stop, children.map (reorder π).tree⟩ := by
  rw [tree, trees_eq_map]
  rfl

/-- Errors mention rules only where a run has met a broken state. -/
theorem result_reorder {α : Type} {relabel : α → α} {result : Except ParseError α}
    (hsound : ∀ cause, result ≠ .error (.defect cause)) :
    (reorder π).result relabel result = result.map relabel := by
  rcases result with error | found
  · refine congrArg Except.error ?_
    cases error with
    | defect cause => exact (hsound cause rfl).elim
    | noMatch index expected => simp [error, reorder]
    | inputExhausted index expected => simp [error, reorder]
    | _ => rfl
  · rfl

theorem Failures.eq_of_reorder {failures failures' : FurthestFailure}
    (h : (reorder π).Failures failures failures') : failures' = failures := by
  obtain ⟨index, expected⟩ := failures
  obtain ⟨index', expected'⟩ := failures'
  obtain ⟨hexpected, hindex, -⟩ := h
  simp_all [reorder]

end Relabelling

/-! ## Bodies -/

namespace Expression

open Relabelling

variable {π : Equiv.Perm RuleId} {find? find?' : String → Option RuleId}

mutual

/-- An expression by name is resolved to the same, up to the rules that the names stand for. -/
theorem Resolves.reorder (hfind : ∀ name, find?' name = (find? name).map π)
    {e e' : Expression S} (h : Resolves find? e e') (hnames : e.targets = []) :
    Resolves find?' e ((reorder π).expression e') := by
  cases h with
  | reference h =>
    refine .reference ?_
    rw [hfind, h]
    rfl
  | literal => exact .literal
  | satisfying => exact .satisfying
  | any => exact .any
  | rule => cases hnames
  | sequence h => exact .sequence (h.reorder hfind hnames)
  | choice h => exact .choice (h.reorder hfind hnames)
  | repetition h => exact .repetition (h.reorder hfind hnames)
  | lookahead h => exact .lookahead (h.reorder hfind hnames)
  | tagged h => exact .tagged (h.reorder hfind hnames)

theorem ResolvesAll.reorder (hfind : ∀ name, find?' name = (find? name).map π)
    {items items' : List (Expression S)} (h : ResolvesAll find? items items')
    (hnames : targetsOfAll items = []) :
    ResolvesAll find?' items ((Relabelling.reorder π).expressions items') := by
  cases h with
  | nil => exact .nil
  | cons hitem hrest =>
    obtain ⟨hnames, hnames'⟩ := List.append_eq_nil_iff.mp hnames
    exact .cons (hitem.reorder hfind hnames) (hrest.reorder hfind hnames')

end

end Expression

/-! ## Grammars -/

namespace Grammar

variable {grammar grammar' : Grammar S M} {π : Equiv.Perm RuleId} {rule : RuleId} {name : String}

/-- The rule of the other grammar that has the same name. -/
def counterpart (grammar grammar' : Grammar S M) (rule : RuleId) : RuleId :=
  ((grammar.name? rule).bind grammar'.find?).getD rule

theorem name?_eq_none_iff : grammar.name? rule = none ↔ grammar.size ≤ rule.index := by
  rw [name?, Option.map_eq_none_iff, List.getElem?_eq_none_iff, size]

theorem size_eq_of_names (hnodup : grammar.names.Nodup) (hnodup' : grammar'.names.Nodup)
    (hsame : ∀ name, name ∈ grammar.names ↔ name ∈ grammar'.names) :
    grammar.size = grammar'.size := by
  have hperm := (List.perm_ext_iff_of_nodup hnodup hnodup').mpr hsame
  rw [size, size, ← List.length_map Rule.name, ← List.length_map Rule.name]
  exact hperm.length_eq

theorem name?_counterpart (hsame : ∀ name, name ∈ grammar.names ↔ name ∈ grammar'.names)
    (hlength : grammar.size = grammar'.size) (rule : RuleId) :
    grammar'.name? (grammar.counterpart grammar' rule) = grammar.name? rule := by
  cases hname : grammar.name? rule with
  | none =>
    rw [counterpart, hname]
    exact name?_eq_none_iff.mpr (hlength ▸ name?_eq_none_iff.mp hname)
  | some name =>
    -- The other grammar has the name too, so there is a counterpart.
    have hmem : name ∈ grammar.names := List.mem_of_getElem? (grammar.name?_eq rule ▸ hname)
    obtain ⟨rule', hrule'⟩ := Option.isSome_iff_exists.mp (isSome_find?.mpr ((hsame name).mp hmem))
    rw [counterpart, hname, Option.bind_some, hrule']
    exact name?_of_find? hrule'

theorem counterpart_counterpart (hnodup : grammar.names.Nodup)
    (hsame : ∀ name, name ∈ grammar.names ↔ name ∈ grammar'.names)
    (hlength : grammar.size = grammar'.size) (rule : RuleId) :
    grammar'.counterpart grammar (grammar.counterpart grammar' rule) = rule := by
  rw [counterpart, name?_counterpart hsame hlength]
  cases hname : grammar.name? rule with
  | none =>
    rw [counterpart, hname]
    rfl
  | some name =>
    rw [Option.bind_some, find?_of_name? hnodup hname]
    rfl

/-- Where two grammars have the same names, each once, a permutation maps each rule to the one that
has its name. -/
theorem exists_counterparts (hnodup : grammar.names.Nodup) (hnodup' : grammar'.names.Nodup)
    (hsame : ∀ name, name ∈ grammar.names ↔ name ∈ grammar'.names) :
    ∃ π : Equiv.Perm RuleId, (∀ rule, grammar'.name? (π rule) = grammar.name? rule) ∧
      ∀ rule, grammar.name? rule = none → π rule = rule := by
  have hlength := size_eq_of_names hnodup hnodup' hsame
  have hsame' (name : String) := (hsame name).symm
  refine ⟨⟨grammar.counterpart grammar', grammar'.counterpart grammar,
    counterpart_counterpart hnodup hsame hlength,
    counterpart_counterpart hnodup' hsame' hlength.symm⟩,
    name?_counterpart hsame hlength, fun rule hname => ?_⟩
  show grammar.counterpart grammar' rule = rule
  rw [counterpart, hname]
  rfl

theorem exists_name? {body : Body S M} (h : grammar.body? rule = some body) :
    ∃ name, grammar.name? rule = some name := by
  obtain ⟨finished, hget, -⟩ := Option.map_eq_some_iff.mp h
  exact ⟨finished.name, Option.map_eq_some_iff.mpr ⟨finished, hget, rfl⟩⟩

theorem exists_body? (h : grammar.name? rule = some name) :
    ∃ body, grammar.body? rule = some body := by
  obtain ⟨finished, hget, -⟩ := Option.map_eq_some_iff.mp h
  exact ⟨finished.body, Option.map_eq_some_iff.mpr ⟨finished, hget, rfl⟩⟩

/-- The rules of the first grammar are in other places of the second one, which the permutation
tells, and mention each other there. -/
structure Reorders (π : Equiv.Perm RuleId) (grammar grammar' : Grammar S M) : Prop where
  size_eq : grammar'.size = grammar.size
  find?_eq (name : String) : grammar'.find? name = (grammar.find? name).map π
  body?_eq {rule : RuleId} {form : Expression S}
    (hbody : grammar.body? rule = some (.expression form)) :
    grammar'.body? (π rule) = some (.expression ((Relabelling.reorder π).expression form))
  outside {rule : RuleId} (hrule : grammar.size ≤ rule.index) : π rule = rule

end Grammar

/-! ## Drafts -/

namespace Draft

variable {edits edits' : List (Edit S M)} {grammar grammar' : Grammar S M}

/-- The edits declare that name, and the body is the last one that its rule is given. -/
def Declares (edits : List (Edit S M)) (name : String) (body : Body S M) : Prop :=
  ∃ rule : RuleId, (names edits)[rule.index]? = some name ∧ LastBody edits rule body

theorem declares_iff {name : String} {body : Body S M} : Declares edits name body ↔
    ∃ declaration ∈ (write edits).declared,
      declaration.name = name ∧ declaration.body? = some body := by
  constructor
  · rintro ⟨rule, hname, hlast⟩
    obtain ⟨declaration, hget, rfl⟩ := exists_declared hname
    exact ⟨declaration, List.mem_of_getElem? hget, rfl,
      ((declared_write rule hget).2 body).mpr hlast⟩
  · rintro ⟨declaration, hmem, rfl, hbody⟩
    obtain ⟨index, hget⟩ := List.mem_iff_getElem?.mp hmem
    obtain ⟨hname, hlast⟩ := declared_write ⟨index⟩ hget
    exact ⟨⟨index⟩, hname, (hlast body).mp hbody⟩

/-- Edits that declare the same mention rules by name alike. -/
theorem ByName.of_declares (hnames : (write edits).ByName)
    (hsame : ∀ name body, Declares edits name body ↔ Declares edits' name body) :
    (write edits').ByName := by
  intro declaration hmem body hbody
  obtain ⟨declaration', hmem', -, hbody'⟩ := declares_iff.mp
    ((hsame _ body).mpr (declares_iff.mpr ⟨declaration, hmem, rfl, hbody⟩))
  exact hnames declaration' hmem' body hbody'

theorem LastBody.unique {rule : RuleId} {body body' : Body S M} (h : LastBody edits rule body)
    (h' : LastBody edits rule body') : body = body' := by
  rw [← body?_write] at h h'
  exact Option.some_inj.mp (h.symm.trans h')

/-- What the edits have come to where they have come to a grammar. -/
theorem finished_of_finish (hfinish : (write edits).finish = .ok grammar) :
    grammar.names = names edits ∧ ∀ rule body, grammar.body? rule = some body →
      ∃ given, LastBody edits rule given ∧ given.Resolves grammar.find? body := by
  have hbuilds := hfinish ▸ builds_finish edits
  cases hbuilds with
  | finished hnodup hnonempty hnames hbodies => exact ⟨hnames, hbodies⟩

/-- Each rule of a grammar is one that the edits declare. -/
theorem exists_declares (hfinish : (write edits).finish = .ok grammar) {rule : RuleId}
    {name : String} (hname : grammar.name? rule = some name) :
    ∃ given, Declares edits name given := by
  obtain ⟨hnames, hbodies⟩ := finished_of_finish hfinish
  obtain ⟨body, hbody⟩ := Grammar.exists_body? hname
  obtain ⟨given, hlast, -⟩ := hbodies rule body hbody
  rw [Grammar.name?_eq, hnames] at hname
  exact ⟨given, rule, hname, hlast⟩

/-- The body of a rule is the one that the edits declare, with its names resolved. -/
theorem body?_of_declares (hfinish : (write edits).finish = .ok grammar) {rule : RuleId}
    {name : String} {given : Body S M} (hdeclares : Declares edits name given)
    (hname : grammar.name? rule = some name) :
    ∃ body, grammar.body? rule = some body ∧ given.Resolves grammar.find? body := by
  obtain ⟨hnames, hbodies⟩ := finished_of_finish hfinish
  have hnodup : grammar.names.Nodup := hnames ▸ nodup_names edits
  obtain ⟨rule', hname', hlast'⟩ := hdeclares
  rw [← hnames, ← Grammar.name?_eq] at hname'
  -- There is one rule of that name only.
  have hfound := Grammar.find?_of_name? hnodup hname'
  rw [Grammar.find?_of_name? hnodup hname] at hfound
  cases Option.some_inj.mp hfound
  obtain ⟨body, hbody⟩ := Grammar.exists_body? hname
  obtain ⟨given', hlast, hresolves⟩ := hbodies rule body hbody
  rw [hlast'.unique hlast]
  exact ⟨body, hbody, hresolves⟩

/-- The names of a grammar are those that the edits declare, each with a body. -/
theorem mem_names_iff_declares (hfinish : (write edits).finish = .ok grammar) {name : String} :
    name ∈ grammar.names ↔ ∃ given, Declares edits name given := by
  constructor
  · intro hmem
    obtain ⟨rule, hrule⟩ := Option.isSome_iff_exists.mp (Grammar.isSome_find?.mpr hmem)
    exact exists_declares hfinish (Grammar.name?_of_find? hrule)
  · rintro ⟨given, rule, hname, -⟩
    rw [← (finished_of_finish hfinish).1] at hname
    exact List.mem_of_getElem? hname

/-- Grammars whose edits declare the same have the same rules, in an order of their own. -/
theorem exists_reorders (hfinish : (write edits).finish = .ok grammar)
    (hfinish' : (write edits').finish = .ok grammar') (hbyName : (write edits).ByName)
    (hsame : ∀ name body, Declares edits name body ↔ Declares edits' name body) :
    ∃ π : Equiv.Perm RuleId, (∀ rule, grammar'.name? (π rule) = grammar.name? rule) ∧
      grammar.Reorders π grammar' := by
  have hnodup : grammar.names.Nodup := (finished_of_finish hfinish).1 ▸ nodup_names edits
  have hnodup' : grammar'.names.Nodup := (finished_of_finish hfinish').1 ▸ nodup_names edits'
  have hmem (name : String) : name ∈ grammar.names ↔ name ∈ grammar'.names := by
    rw [mem_names_iff_declares hfinish, mem_names_iff_declares hfinish']
    exact exists_congr (hsame name)
  obtain ⟨π, hπ, houtside⟩ := Grammar.exists_counterparts hnodup hnodup' hmem
  have hfind (name : String) : grammar'.find? name = (grammar.find? name).map π := by
    cases hrule : grammar.find? name with
    | none =>
      rw [← Option.not_isSome_iff_eq_none, Grammar.isSome_find?, hmem,
        ← Grammar.isSome_find?, Option.not_isSome_iff_eq_none] at hrule
      exact hrule
    | some rule =>
      have hname := Grammar.name?_of_find? hrule
      rw [← hπ] at hname
      exact Grammar.find?_of_name? hnodup' hname
  refine ⟨π, hπ, (Grammar.size_eq_of_names hnodup hnodup' hmem).symm, hfind, ?_,
    fun hrule => houtside _ (Grammar.name?_eq_none_iff.mpr hrule)⟩
  intro rule form hbody
  -- Both grammars have the body that is declared for the name of the rule, each linked in its way.
  obtain ⟨name, hname⟩ := Grammar.exists_name? hbody
  obtain ⟨given, hdeclares⟩ := exists_declares hfinish hname
  obtain ⟨body, hbody₀, hresolves⟩ := body?_of_declares hfinish hdeclares hname
  obtain ⟨body', hbody', hresolves'⟩ := body?_of_declares hfinish'
    ((hsame name given).mp hdeclares) ((hπ rule).trans hname)
  obtain ⟨declaration, hmem, -, hgiven⟩ := declares_iff.mp hdeclares
  obtain ⟨form', rfl, htargets⟩ := hbyName declaration hmem given hgiven
  cases hbody.symm.trans hbody₀
  cases hresolves with
  | expression h =>
    rw [hbody', ← hresolves'.link_eq, ← (h.reorder hfind htargets).link_eq]
    rfl

end Draft

/-! ## Parses -/

open Relabelling

/-- The parses come to the same thing, up to the places of the rules: the result, with errors and
all, the counters, the furthest failures, and the cells of the memo table. -/
structure Parse.Reorders (π : Equiv.Perm RuleId) (parse parse' : Parse S M) : Prop where
  result_eq : parse'.result = parse.result.map (reorder π).found
  metrics_eq : parse'.parser.ledger.metrics = parse.parser.ledger.metrics
  failures_eq : parse'.parser.ledger.failures = parse.parser.ledger.failures
  find?_eq (rule : RuleId) (position : Nat) :
    parse'.parser.ledger.memo.find? (π rule) position =
      (parse.parser.ledger.memo.find? rule position).map (reorder π).entry

/-- Runs that come to related answers are closed alike, unless a broken state is reported. -/
theorem Relabelling.Carries.reorders {π : Equiv.Perm RuleId}
    {answer answer' : Answer Tree M (Outcome Tree)}
    (h : (reorder π).Carries (reorder π).outcome answer answer') (parser parser' : Parser S M)
    (options : Options) (inputLength : Nat)
    (hsound : ∀ cause,
      (parser.close options inputLength answer).result ≠ .error (.defect cause)) :
    Parse.Reorders π (parser.close options inputLength answer)
      (parser'.close options inputLength answer') := by
  obtain ⟨hresult, hmetrics⟩ := h.close parser parser' options options rfl inputLength
  refine ⟨hresult.trans (result_reorder hsound), hmetrics, ?_, fun rule position => ?_⟩
  all_goals
    obtain ⟨result, scan⟩ := answer
    obtain ⟨result', scan'⟩ := answer'
    obtain ⟨rfl, hrelates⟩ := h
  · cases result <;> exact hrelates.failures.eq_of_reorder
  · cases result <;> exact hrelates.tables rule position

namespace Grammar.Reorders

variable [DecidableEq S] {π : Equiv.Perm RuleId} {grammar grammar' : Grammar S M}

theorem translates (h : grammar.Reorders π grammar') (config : Config) (input : Array S) :
    (reorder π).Translates ((Parser.new grammar config).subject input)
      ((Parser.new grammar' config).subject input) where
  maxDepth_eq := rfl
  reach?_eq expression position := by
    show expression.reach? input position = (expression.reach? input position).map id
    rw [Option.map_id]
    rfl
  body?_eq := h.body?_eq
  unknown {rule} hbody := by
    have hrule : grammar.size ≤ rule.index :=
      List.getElem?_eq_none_iff.mp (Option.map_eq_none_iff.mp hbody)
    have hplace := h.outside hrule
    refine ⟨?_, hplace⟩
    show grammar'.body? (π rule) = none
    rw [hplace]
    have hrule' : grammar'.size ≤ rule.index := Nat.le_trans (Nat.le_of_eq h.size_eq) hrule
    exact Option.map_eq_none_iff.mpr (List.getElem?_eq_none_iff.mpr hrule')

/-- Runs from the beginning are related all the way. -/
theorem carries (h : grammar.Reorders π grammar') (hforms : grammar.OfExpressions)
    (hforms' : grammar'.OfExpressions) (config : Config) (input : Array S) (rule : RuleId)
    {start : Nat} (hstart : start ≤ input.size) (memory : M) :
    (reorder π).Carries (reorder π).outcome
      (((Parser.new grammar config).engine input).invoke rule
        ((Parser.new grammar config).firstScan input.size rule start memory))
      (((Parser.new grammar' config).engine input).invoke (π rule)
        ((Parser.new grammar' config).firstScan input.size (π rule) start memory)) := by
  have hmoved : start = start + (reorder π).offset := rfl
  have hrelates := relates_firstScan (Parser.new grammar config) (Parser.new grammar' config)
    input.size input.size rule (π rule) hmoved memory
  -- Both runs are runs without counters, and those are carried over step by step.
  obtain ⟨answer, hinvokes, hcarries⟩ := (((Parser.new grammar config).invokes_iff hforms input rule
    hstart memory _).mpr rfl).relabel (h.translates config input) hrelates
  rwa [← ((Parser.new grammar' config).invokes_iff hforms' input (π rule) hstart memory answer).mp
    hinvokes]

theorem parse (h : grammar.Reorders π grammar') (hforms : grammar.OfExpressions)
    (hforms' : grammar'.OfExpressions) (config : Config) (input : Array S) {rule : RuleId}
    (hrule : rule.index < grammar.size) (hrule' : (π rule).index < grammar'.size)
    (options : Options) (memory : M) :
    Parse.Reorders π ((Parser.new grammar config).parse input rule options memory)
      ((Parser.new grammar' config).parse input (π rule) options memory) := by
  have hsound := (Parser.new grammar config).result_ne_defect hforms input rule options memory
  by_cases hstart : options.start?.getD 0 ≤ input.size
  · have hcarries := h.carries hforms hforms' config input rule hstart memory
    rw [Parser.parse_eq_close _ _ _ _ hrule hstart] at hsound ⊢
    rw [Parser.parse_eq_close _ _ _ _ hrule' hstart]
    exact hcarries.reorders _ _ options input.size hsound
  · rw [Parser.parse_of_lt_start _ _ _ _ hrule (Nat.lt_of_not_le hstart),
      Parser.parse_of_lt_start _ _ _ _ hrule' (Nat.lt_of_not_le hstart)]
    exact ⟨rfl, rfl, rfl, fun _ _ => by simp [Ledger.reset]⟩

end Grammar.Reorders

namespace Draft

/-- Grammars that are finished from expressions by name are grammars of expressions. -/
theorem ofExpressions_of_finish {draft : Draft S M} {grammar : Grammar S M}
    (hfinish : draft.finish = .ok grammar) (hbyName : draft.ByName) : grammar.OfExpressions := by
  intro rule hmem
  obtain ⟨index, hget⟩ := List.mem_iff_getElem?.mp hmem
  have hindex : (RuleId.mk index).index < grammar.size := (List.getElem?_eq_some_iff.mp hget).1
  obtain ⟨form, hbody, -⟩ := resolved_of_finish hbyName hfinish hindex
  exact ⟨form, by simpa [Grammar.body?, hget] using hbody⟩

/-- **The order of declarations does not matter.** Where two series of edits declare the same names
with the same bodies, which are expressions that mention rules by name, and both come to a grammar,
a permutation of the places takes each rule to the one that has its name. Up to it, parsing any
input from the rule of any name comes to the same thing with fresh parsers for both grammars. -/
theorem parseNamed_reorder [DecidableEq S] {edits edits' : List (Edit S M)}
    {grammar grammar' : Grammar S M} (hfinish : (write edits).finish = .ok grammar)
    (hfinish' : (write edits').finish = .ok grammar') (hbyName : (write edits).ByName)
    (hsame : ∀ name body, Declares edits name body ↔ Declares edits' name body) :
    ∃ π : Equiv.Perm RuleId, (∀ rule, grammar'.name? (π rule) = grammar.name? rule) ∧
      ∀ (config : Config) (input : Array S) (name : String) (options : Options) (memory : M),
        Parse.Reorders π
          ((Parser.new grammar config).parseNamed input name options memory)
          ((Parser.new grammar' config).parseNamed input name options memory) := by
  obtain ⟨π, hπ, hreorders⟩ := exists_reorders hfinish hfinish' hbyName hsame
  refine ⟨π, hπ, fun config input name options memory => ?_⟩
  have hforms := ofExpressions_of_finish hfinish hbyName
  have hforms' := ofExpressions_of_finish hfinish' (hbyName.of_declares hsame)
  have hfind : (Parser.new grammar' config).grammar.find? name =
      ((Parser.new grammar config).grammar.find? name).map π := hreorders.find?_eq name
  unfold Parser.parseNamed
  rw [hfind]
  cases hrule : (Parser.new grammar config).grammar.find? name with
  | none => exact ⟨rfl, rfl, rfl, fun _ _ => by simp [Parser.new]⟩
  | some rule =>
    rw [hrule] at hfind
    exact hreorders.parse hforms hforms' config input (Grammar.index_lt_of_find? hrule)
      (Grammar.index_lt_of_find? hfind) options memory

/-- A list is one item, or a list and one more item. -/
def listBody : Body Char Unit :=
  .expression (.choice [.sequence [.reference "list", .reference "item"], .reference "item"])

/-- An item is a letter, or a list in brackets. -/
def itemBody : Body Char Unit :=
  .expression (.choice [.sequence [.text "(", .reference "list", .text ")"], .text "l"])

/-- A left-recursive rule before the one that is built on it. -/
def listFirst : List (Edit Char Unit) :=
  [.add "list" listBody, .add "item" itemBody]

/-- The same rules the other way round, where the second one gets its body later. -/
def itemFirst : List (Edit Char Unit) :=
  [.declare "item", .declare "list", .define ⟨1⟩ listBody, .define ⟨0⟩ itemBody]

theorem declares_listFirst_iff (name : String) (body : Body Char Unit) :
    Declares listFirst name body ↔ Declares itemFirst name body := by
  have hlist : (write listFirst).declared =
      [⟨"list", some listBody⟩, ⟨"item", some itemBody⟩] := rfl
  have hitem : (write itemFirst).declared =
      [⟨"item", some itemBody⟩, ⟨"list", some listBody⟩] := rfl
  rw [declares_iff, declares_iff, hlist, hitem]
  simp [or_comm]

theorem listFirst_byName : (write listFirst).ByName := by
  have hlist : (write listFirst).declared =
      [⟨"list", some listBody⟩, ⟨"item", some itemBody⟩] := rfl
  intro declaration hmem body hbody
  rw [hlist] at hmem
  rcases List.mem_pair.mp hmem with rfl | rfl <;> cases hbody <;> exact ⟨_, rfl, rfl⟩

/-- Nested lists are parsed alike with the rules in either order. -/
theorem parseNamed_reorder_lists : ∃ grammar grammar' : Grammar Char Unit,
    (write listFirst).finish = .ok grammar ∧ (write itemFirst).finish = .ok grammar' ∧
    ((Parser.new grammar {}).parseNamed #['l', '(', 'l', 'l', ')'] "list" {} ()).result.isOk ∧
    ∃ π : Equiv.Perm RuleId, π ⟨0⟩ = ⟨1⟩ ∧
      Parse.Reorders π
        ((Parser.new grammar {}).parseNamed #['l', '(', 'l', 'l', ')'] "list" {} ())
        ((Parser.new grammar' {}).parseNamed #['l', '(', 'l', 'l', ')'] "list" {} ()) := by
  have hfinish : (write listFirst).finish = .ok (⟨[⟨"list", .expression (.choice
      [.sequence [.rule ⟨0⟩, .rule ⟨1⟩], .rule ⟨1⟩])⟩, ⟨"item", .expression (.choice
      [.sequence [.text "(", .rule ⟨0⟩, .text ")"], .text "l"])⟩]⟩ : Grammar Char Unit) := rfl
  have hfinish' : (write itemFirst).finish = .ok (⟨[⟨"item", .expression (.choice
      [.sequence [.text "(", .rule ⟨1⟩, .text ")"], .text "l"])⟩, ⟨"list", .expression (.choice
      [.sequence [.rule ⟨1⟩, .rule ⟨0⟩], .rule ⟨0⟩])⟩]⟩ : Grammar Char Unit) := rfl
  obtain ⟨π, hπ, hparses⟩ :=
    parseNamed_reorder hfinish hfinish' listFirst_byName declares_listFirst_iff
  refine ⟨_, _, hfinish, hfinish', by decide +kernel, π, ?_, hparses {} _ "list" {} ()⟩
  have hfound := Grammar.find?_of_name? (by decide) (hπ ⟨0⟩)
  exact (Option.some_inj.mp hfound).symm

end Draft

end LeftPeg
