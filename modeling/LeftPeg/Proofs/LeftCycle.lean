import Mathlib.Data.List.Chain
import LeftPeg.Proofs.Ring

/-!
# Cycles of aliases

A cycle of rules where each but the last only stands for the next one, and the last is a left
recursive choice: the first rule and then a tail, for one of several tails, or else a base. The
cycle may be entered at any of its rules (`LeftCycle`).

Seen from the entry it is a ring. An attempt prolongs the best match so far by the first tail that
is found at its end, and falls back on the base where there is none (`LeftCycle.Tries`,
`LeftCycle.rounds_iff`).
-/

namespace LeftPeg

variable {S M L L' : Type}

/-! ## Other answers to the same rules -/

/-- An evaluation finds the same with other answers, and another log, if these answer the rules
that it mentions in the same way. -/
theorem Evaluates.relog [DecidableEq S] {input : Array S} {fail : Nat → String → L}
    {fail' : Nat → String → L'} {answers : Answers L} {answers' : Answers L'} {task : Task S}
    {start : Nat} {found : Found} {log : List L}
    (h : Evaluates input fail answers task start found log)
    (hanswers : ∀ rule ∈ task.targets, ∀ start outcome log, answers rule start outcome log →
      ∃ log, answers' rule start outcome log) :
    ∃ log, Evaluates input fail' answers' task start found log := by
  induction h with
  | terminal hexpected => exact ⟨_, .terminal hexpected⟩
  | rule hanswer =>
    obtain ⟨log, hanswer⟩ := hanswers _ (List.mem_singleton_self _) _ _ _ hanswer
    exact ⟨log, .rule hanswer⟩
  | sequence hitems ih => exact (ih hanswers).imp fun _ => .sequence
  | choice hitems ih => exact (ih hanswers).imp fun _ => .choice
  | repetition hcopies ih => exact (ih hanswers).imp fun _ => .repetition
  | lookahead hitem ih => exact (ih hanswers).imp fun _ => .lookahead
  | tagged hitem ih => exact (ih hanswers).imp fun _ => .tagged
  | allNil => exact ⟨_, .allNil⟩
  | allFails hitem ih =>
    obtain ⟨log, h⟩ := ih fun rule hmem => hanswers rule (List.mem_append_left _ hmem)
    exact ⟨_, .allFails h⟩
  | allCons hitem hrest ihitem ihrest =>
    obtain ⟨log, h⟩ := ihitem fun rule hmem => hanswers rule (List.mem_append_left _ hmem)
    obtain ⟨log', h'⟩ := ihrest fun rule hmem => hanswers rule (List.mem_append_right _ hmem)
    exact ⟨_, .allCons h h'⟩
  | firstNil => exact ⟨_, .firstNil⟩
  | firstFound hitem ih =>
    obtain ⟨log, h⟩ := ih fun rule hmem => hanswers rule (List.mem_append_left _ hmem)
    exact ⟨_, .firstFound h⟩
  | firstNext hitem hrest ihitem ihrest =>
    obtain ⟨log, h⟩ := ihitem fun rule hmem => hanswers rule (List.mem_append_left _ hmem)
    obtain ⟨log', h'⟩ := ihrest fun rule hmem => hanswers rule (List.mem_append_right _ hmem)
    exact ⟨_, .firstNext h h'⟩
  | copiesEnd => exact ⟨_, .copiesEnd⟩
  | copiesStop hlimit hitem ih => exact (ih hanswers).imp fun _ => .copiesStop hlimit
  | copiesEmpty hlimit hitem ih => exact (ih hanswers).imp fun _ => .copiesEmpty hlimit
  | copiesNext hlimit hitem hmoved hrest ihitem ihrest =>
    obtain ⟨log, h⟩ := ihitem hanswers
    obtain ⟨log', h'⟩ := ihrest hanswers
    exact ⟨_, .copiesNext hlimit h hmoved h'⟩

/-! ## Nodes of aliases -/

/-- Nodes of the rules over one span, each inside the one before. -/
def Tree.nest (start stop : Nat) (rules : List RuleId) (trees : List Tree) : List Tree :=
  rules.foldr (fun rule trees => [⟨some rule, none, start, stop, trees⟩]) trees

/-- What the first of the rules finds if each is an alias of the next one. -/
def Found.nest (start : Nat) (rules : List RuleId) (found : Found) : Found :=
  rules.foldr (fun rule found => (Outcome.ofFound rule start found).found?) found

@[simp] theorem Found.nest_none (start : Nat) (rules : List RuleId) :
    Found.nest start rules none = none := by
  induction rules with
  | nil => rfl
  | cons rule rules ih =>
    show (Outcome.ofFound rule start (Found.nest start rules none)).found? = none
    rw [ih]
    rfl

@[simp] theorem Found.nest_some (start stop : Nat) (rules : List RuleId) (trees : List Tree) :
    Found.nest start rules (some (stop, trees)) =
      some (stop, Tree.nest start stop rules trees) := by
  induction rules with
  | nil => rfl
  | cons rule rules ih =>
    show (Outcome.ofFound rule start (Found.nest start rules (some (stop, trees)))).found? = _
    rw [ih]
    rfl

/-! ## Cycles -/

namespace Grammar

/-- The rule only stands for another one. -/
def Alias (grammar : Grammar S M) (rule next : RuleId) : Prop :=
  grammar.body? rule = some (.expression (.rule next))

/-- The body of a rule mentions another rule. -/
def Mentions (grammar : Grammar S M) (rule target : RuleId) : Prop :=
  ∃ form, grammar.body? rule = some (.expression form) ∧ target ∈ form.targets

variable {grammar : Grammar S M} {Free : RuleId → Prop} {entry rule : RuleId}
  {before after : List RuleId}

/-- The aliases that lead up to the entry are the end of a ring. -/
theorem ring_before (h : (before ++ [entry]).IsChain grammar.Alias) :
    grammar.Ring Free entry before := by
  induction before with
  | nil => exact .nil
  | cons rule before ih =>
    cases before with
    | nil => exact .cons (List.isChain_cons_cons.mp h).1 .rule .nil
    | cons next before =>
      obtain ⟨hbody, hrest⟩ := List.isChain_cons_cons.mp h
      exact .cons hbody .rule (ih hrest)

/-- So are the aliases that lead up to a rule that hands on to them. -/
theorem ring_after {form : Expression S} (h : (rule :: after).IsChain grammar.Alias)
    (hbody : grammar.body? (after.getLastD rule) = some (.expression form))
    (hhands : form.HandsOn Free (before.headD entry)) (hbefore : grammar.Ring Free entry before) :
    grammar.Ring Free entry (rule :: (after ++ before)) := by
  induction after generalizing rule with
  | nil => exact .cons hbody hhands hbefore
  | cons next after ih =>
    obtain ⟨halias, hrest⟩ := List.isChain_cons_cons.mp h
    rw [List.getLastD_cons] at hbody
    exact .cons halias .rule (ih hrest hbody)

/-- A rule that is the alias of one rule is the alias of no other. -/
theorem Alias.unique {next next' : RuleId} (h : grammar.Alias rule next)
    (h' : grammar.Alias rule next') : next = next' := by
  have hsame := h.symm.trans h'
  injection hsame with hsame
  injection hsame with hsame
  injection hsame

/-- Where aliases lead up to a rule that is none, what any of them stands for comes later. -/
theorem Alias.mem_tail {rules : List RuleId} {next : RuleId} (halias : grammar.Alias rule next)
    (h : rules.IsChain grammar.Alias)
    (hlast : ∀ last ∈ rules.getLast?, ∀ next, ¬ grammar.Alias last next) (hmem : rule ∈ rules) :
    next ∈ rules.tail := by
  induction rules with
  | nil => cases hmem
  | cons first rest ih =>
    cases rest with
    | nil =>
      rw [List.mem_singleton.mp hmem] at halias
      exact absurd halias (hlast first rfl next)
    | cons second rest =>
      obtain ⟨hfirst, hrest⟩ := List.isChain_cons_cons.mp h
      rcases List.mem_cons.mp hmem with rfl | hmem
      · exact hfirst.unique halias ▸ List.mem_cons_self
      · exact List.mem_cons_of_mem _ (ih hrest hlast hmem)

/-- Aliases that lead up to a rule that is none are all different. -/
theorem nodup_of_aliases {rules : List RuleId} (h : rules.IsChain grammar.Alias)
    (hlast : ∀ last ∈ rules.getLast?, ∀ next, ¬ grammar.Alias last next) : rules.Nodup := by
  induction rules with
  | nil => exact List.nodup_nil
  | cons first rest ih =>
    cases rest with
    | nil => simp
    | cons second rest =>
      -- The first rule cannot occur again, since the second one would have to follow on it there.
      obtain ⟨hfirst, hrest⟩ := List.isChain_cons_cons.mp h
      have hnodup := ih hrest hlast
      refine List.nodup_cons.mpr ⟨fun hmem => ?_, hnodup⟩
      exact (List.nodup_cons.mp hnodup).1 (hfirst.mem_tail hrest hlast hmem)

end Grammar

/-- A cycle of rules, entered at one of them. -/
structure LeftCycle (S : Type) where
  /-- The rules before the entry, the first one of the cycle at their head. -/
  before : List RuleId
  entry : RuleId
  after : List RuleId
  tails : List (Expression S)
  base : Expression S

namespace LeftCycle

def rules (cycle : LeftCycle S) : List RuleId :=
  cycle.before ++ cycle.entry :: cycle.after

def first (cycle : LeftCycle S) : RuleId :=
  cycle.before.headD cycle.entry

def last (cycle : LeftCycle S) : RuleId :=
  cycle.after.getLastD cycle.entry

/-- The rules that the tails and the base mention. -/
def targets (cycle : LeftCycle S) : List RuleId :=
  Expression.targetsOfAll (cycle.base :: cycle.tails)

/-- The body of the last rule. -/
def body (cycle : LeftCycle S) : Expression S :=
  .leftRecursive cycle.first cycle.tails cycle.base

end LeftCycle

/-- Each rule of the cycle but the last is an alias of the next one, and the last is left recursive
in the first. None of the rules that its tails and its base mention leads to a rule of the cycle, or
detects a recursion of its own. -/
structure Grammar.HasCycle [DecidableEq S] (grammar : Grammar S M) (input : Array S)
    (cycle : LeftCycle S) : Prop where
  aliases : cycle.rules.IsChain grammar.Alias
  body_eq : grammar.body? cycle.last = some (.expression cycle.body)
  apart : ∀ target ∈ cycle.targets, ∀ rule ∈ cycle.rules,
    ¬ Relation.ReflTransGen grammar.Mentions target rule
  quiet : ∀ target ∈ cycle.targets, grammar.Quiet input target

/-! ## The ring of a cycle -/

namespace Grammar.HasCycle

variable [DecidableEq S] {grammar : Grammar S M} {input : Array S} {cycle : LeftCycle S}

/-- The rules that lead to no rule of the cycle. -/
def Outside (grammar : Grammar S M) (cycle : LeftCycle S) (target : RuleId) : Prop :=
  ∀ rule ∈ cycle.rules, ¬ Relation.ReflTransGen grammar.Mentions target rule

omit [DecidableEq S] in
theorem outside_closed {rule : RuleId} {form : Expression S} (h : Outside grammar cycle rule)
    (hbody : grammar.body? rule = some (.expression form)) :
    ∀ target ∈ form.targets, Outside grammar cycle target :=
  fun _ hmem other hother hreach => h other hother (.head ⟨form, hbody, hmem⟩ hreach)

theorem free (h : grammar.HasCycle input cycle) (hforms : grammar.OfExpressions) :
    ∀ target ∈ cycle.targets, grammar.Free input (Outside grammar cycle) target :=
  fun target hmem =>
    ⟨h.apart target hmem, fun _ hplace => (h.quiet target hmem).grounded hforms hplace⟩

theorem chains (h : grammar.HasCycle input cycle) :
    (cycle.before ++ [cycle.entry]).IsChain grammar.Alias ∧
      (cycle.entry :: cycle.after).IsChain grammar.Alias :=
  List.isChain_split.mp h.aliases

/-- The entry has a body. -/
theorem exists_body (h : grammar.HasCycle input cycle) :
    ∃ form, grammar.body? cycle.entry = some (.expression form) := by
  have halias := h.chains.2
  have hlast := h.body_eq
  unfold LeftCycle.last at hlast
  cases hafter : cycle.after with
  | nil =>
    rw [hafter] at hlast
    exact ⟨_, hlast⟩
  | cons next after =>
    rw [hafter] at halias
    exact ⟨_, (List.isChain_cons_cons.mp halias).1⟩

/-- The rules of a cycle are all different. -/
theorem nodup (h : grammar.HasCycle input cycle) : cycle.rules.Nodup := by
  refine Grammar.nodup_of_aliases h.aliases fun last hlast next halias => ?_
  have hsame : last = cycle.last := by
    unfold LeftCycle.rules at hlast
    rw [List.getLast?_append, List.getLast?_cons] at hlast
    injection hlast with hlast
    rw [← hlast, LeftCycle.last, List.getLastD_eq_getLast?]
  subst hsame
  have hbody := halias.symm.trans h.body_eq
  injection hbody with hbody
  injection hbody with hbody
  exact nomatch hbody

/-- Seen from its entry, a cycle with tails is a ring. -/
theorem circle (h : grammar.HasCycle input cycle) (hforms : grammar.OfExpressions)
    (htails : cycle.tails ≠ []) {start : Nat} (hstart : start ≤ input.size) :
    grammar.Circle input (Outside grammar cycle) ⟨⟨cycle.entry, start⟩, .failure⟩
      (cycle.after ++ cycle.before) where
  ring := by
    refine ring_after h.chains.2 h.body_eq ?_ (ring_before h.chains.1)
    have hfree := h.free hforms
    unfold LeftCycle.targets at hfree
    unfold LeftCycle.body
    obtain ⟨tail, tails, htails⟩ := List.exists_cons_of_ne_nil htails
    rw [htails] at hfree ⊢
    exact .leftRecursive hfree
  distinct := by
    have hperm : (cycle.before ++ cycle.entry :: cycle.after).Perm
        (cycle.entry :: cycle.after ++ cycle.before) := List.perm_append_comm
    exact hperm.nodup_iff.mp h.nodup
  apart rule hmem houtside := by
    refine houtside rule ?_ .refl
    unfold LeftCycle.rules
    rw [← List.cons_append] at hmem
    exact List.mem_append.mpr (List.mem_append.mp hmem).symm
  position_le := hstart
  fits _ hfound := nomatch hfound

end Grammar.HasCycle

/-! ## What the aliases come to -/

namespace Grammar

variable [DecidableEq S] {grammar : Grammar S M} {input : Array S} {lap : Lap}
  {entry rule : RuleId} {before after rest : List RuleId} {outcome : Outcome Tree}

/-- The next rule of a ring comes to one thing only. -/
theorem evaluates_next {found : Found} {remarks : List Remark} {inner : Outcome Tree}
    (hinner : grammar.Comes input lap rest inner)
    (h : Evaluates input .missed (grammar.turns input lap rest)
      (.one (.rule (rest.headD lap.key.rule))) lap.key.position found remarks) :
    found = inner.found? := by
  obtain ⟨outcome, hanswer, rfl⟩ := Evaluates.rule_iff.mp h
  rw [comes_unique ((Answers.turning_own rfl).mp hanswer).1 hinner]

theorem evaluates_next_of_comes {inner : Outcome Tree}
    (hinner : grammar.Comes input lap rest inner) :
    Evaluates input .missed (grammar.turns input lap rest)
      (.one (.rule (rest.headD lap.key.rule))) lap.key.position inner.found? [.returned] :=
  .rule ((Answers.turning_own rfl).mpr ⟨hinner, rfl⟩)

/-- An alias comes to what the next rule comes to, with a node of its own. -/
theorem comes_alias_iff (halias : grammar.Alias rule (rest.headD lap.key.rule)) :
    grammar.Comes input lap (rule :: rest) outcome ↔
      ∃ inner, grammar.Comes input lap rest inner ∧
        outcome = .ofFound rule lap.key.position inner.found? := by
  constructor
  · rintro ⟨form, found, remarks, hbody, heval, rfl⟩
    rw [halias] at hbody
    cases hbody
    obtain ⟨inner, hanswer, rfl⟩ := Evaluates.rule_iff.mp heval
    exact ⟨inner, ((Answers.turning_own rfl).mp hanswer).1, rfl⟩
  · rintro ⟨inner, hinner, rfl⟩
    exact ⟨_, _, _, halias, evaluates_next_of_comes hinner, rfl⟩

/-- The aliases before the entry come to the best match so far. -/
theorem comes_before (h : (before ++ [lap.key.rule]).IsChain grammar.Alias) :
    ∃ inner, grammar.Comes input lap before inner ∧
      inner.found? = Found.nest lap.key.position before lap.best.found? := by
  induction before with
  | nil => exact ⟨lap.best, rfl, rfl⟩
  | cons rule before ih =>
    have halias : grammar.Alias rule (before.headD lap.key.rule) := by
      cases before with
      | nil => exact (List.isChain_cons_cons.mp h).1
      | cons next before => exact (List.isChain_cons_cons.mp h).1
    obtain ⟨inner, hinner, hfound⟩ := ih h.tail
    refine ⟨_, (comes_alias_iff halias).mpr ⟨inner, hinner, rfl⟩, ?_⟩
    rw [hfound]
    rfl

/-- The aliases after the entry come to what the body of the last of them finds. -/
theorem comes_after_iff {form : Expression S} (h : (rule :: after).IsChain grammar.Alias)
    (hbody : grammar.body? (after.getLastD rule) = some (.expression form)) :
    grammar.Comes input lap (rule :: (after ++ before)) outcome ↔
      ∃ found remarks, Evaluates input .missed (grammar.turns input lap before) (.one form)
          lap.key.position found remarks ∧
        outcome = .ofFound rule lap.key.position (Found.nest lap.key.position after found) := by
  induction after generalizing rule outcome with
  | nil =>
    constructor
    · rintro ⟨form', found, remarks, hbody', heval, rfl⟩
      have hsame := hbody.symm.trans hbody'
      cases hsame
      exact ⟨found, remarks, heval, rfl⟩
    · rintro ⟨found, remarks, heval, rfl⟩
      exact ⟨form, found, remarks, hbody, heval, rfl⟩
  | cons next after ih =>
    obtain ⟨halias, hrest⟩ := List.isChain_cons_cons.mp h
    rw [List.getLastD_cons] at hbody
    rw [comes_alias_iff halias]
    constructor
    · rintro ⟨inner, hinner, rfl⟩
      obtain ⟨found, remarks, heval, rfl⟩ := (ih hrest hbody).mp hinner
      exact ⟨found, remarks, heval, rfl⟩
    · rintro ⟨found, remarks, heval, rfl⟩
      exact ⟨_, (ih hrest hbody).mpr ⟨found, remarks, heval, rfl⟩, rfl⟩

end Grammar

/-! ## Alternatives that begin with one rule -/

namespace Evaluates

variable [DecidableEq S] {input : Array S} {fail : Nat → String → L} {answers : Answers L}
  {item item' base : Expression S} {tails : List (Expression S)} {next : RuleId}
  {start middle stop : Nat} {trees trees' : List Tree} {found found' prior : Found}
  {log log' : List L}

/-- Two items are found one after the other. -/
theorem pair (h : Evaluates input fail answers (.one item) start (some (middle, trees)) log)
    (h' : Evaluates input fail answers (.one item') middle found log') :
    ∃ log, Evaluates input fail answers (.one (.sequence [item, item'])) start
      (found.prepend trees) log := by
  cases found with
  | none => exact ⟨_, .sequence (.allCons h (.allFails h'))⟩
  | some found =>
    have hboth : Evaluates input fail answers (.one (.sequence [item, item'])) start _ _ :=
      .sequence (.allCons h (.allCons h' .allNil))
    simp only [Found.prepend, Option.map_some, List.append_nil] at hboth ⊢
    exact ⟨_, hboth⟩

theorem pair_fails (h : Evaluates input fail answers (.one item) start none log) :
    Evaluates input fail answers (.one (.sequence [item, item'])) start none log :=
  .sequence (.allFails h)

/-- What two items find one after the other. -/
theorem of_pair
    (h : Evaluates input fail answers (.one (.sequence [item, item'])) start found log) :
    (found = none ∧ ∃ log, Evaluates input fail answers (.one item) start none log) ∨
      ∃ middle trees found' log log',
        Evaluates input fail answers (.one item) start (some (middle, trees)) log ∧
        Evaluates input fail answers (.one item') middle found' log' ∧
        found = found'.prepend trees := by
  cases sequence_iff.mp h with
  | allFails hitem => exact .inl ⟨rfl, _, hitem⟩
  | allCons hitem hrest =>
    cases hrest with
    | allFails hitem' => exact .inr ⟨_, _, none, _, _, hitem, hitem', rfl⟩
    | allCons hitem' hnil =>
      cases hnil
      refine .inr ⟨_, _, _, _, _, hitem, hitem', ?_⟩
      simp [Found.prepend]

/-- Alternatives that begin with the next rule find what it has found and then the first of the
tails, or what the base finds. -/
theorem of_alternatives
    (hnext : ∀ {found log}, Evaluates input fail answers (.one (.rule next)) start found log →
      found = prior)
    (h : Evaluates input fail answers
      (.first (tails.map (fun tail => .sequence [.rule next, tail]) ++ [base])) start found log) :
    (∃ middle trees stop trees' log, prior = some (middle, trees) ∧
      found = some (stop, trees ++ trees') ∧
      Evaluates input fail answers (.first tails) middle (some (stop, trees')) log) ∨
    ((∀ middle trees, prior = some (middle, trees) →
      ∃ log, Evaluates input fail answers (.first tails) middle none log) ∧
      ∃ log, Evaluates input fail answers (.one base) start found log) := by
  induction tails generalizing log with
  | nil =>
    refine .inr ⟨fun _ _ _ => ⟨_, .firstNil⟩, ?_⟩
    cases h with
    | firstFound hbase => exact ⟨_, hbase⟩
    | firstNext hbase hrest =>
      cases hrest
      exact ⟨_, hbase⟩
  | cons tail tails ih =>
    cases h with
    | firstFound hitem =>
      rcases hitem.of_pair with ⟨hnone, -⟩ | ⟨middle, trees, found', _, _, hrule, htail, hfound⟩
      · exact nomatch hnone
      · cases found' with
        | none => exact nomatch hfound
        | some found' =>
          exact .inl ⟨middle, trees, found'.1, found'.2, _, (hnext hrule).symm, hfound,
            .firstFound htail⟩
    | firstNext hitem hrest =>
      -- Where the next rule was found, the first tail was not.
      have hskipped : ∀ middle trees, prior = some (middle, trees) →
          ∃ log, Evaluates input fail answers (.one tail) middle none log := by
        intro middle trees hprior
        rcases hitem.of_pair with
          ⟨-, _, hrule⟩ | ⟨middle', trees', found', _, _, hrule, htail, hnone⟩
        · exact nomatch (hnext hrule).trans hprior
        · cases (hnext hrule).trans hprior
          cases found' with
          | none => exact ⟨_, htail⟩
          | some found' => exact nomatch hnone
      rcases ih hrest with
        ⟨middle, trees, stop, trees', _, hprior, hfound, htails⟩ | ⟨htails, hbase⟩
      · obtain ⟨_, htail⟩ := hskipped middle trees hprior
        exact .inl ⟨middle, trees, stop, trees', _, hprior, hfound, .firstNext htail htails⟩
      · refine .inr ⟨fun middle trees hprior => ?_, hbase⟩
        obtain ⟨_, htail⟩ := hskipped middle trees hprior
        obtain ⟨_, htails⟩ := htails middle trees hprior
        exact ⟨_, .firstNext htail htails⟩

/-- The next rule is prolonged by the first tail that is found. -/
theorem alternatives_prolong
    (hnext : Evaluates input fail answers (.one (.rule next)) start (some (middle, trees)) log)
    (h : Evaluates input fail answers (.first tails) middle (some (stop, trees')) log') :
    ∃ log, Evaluates input fail answers
      (.first (tails.map (fun tail => .sequence [.rule next, tail]) ++ [base])) start
      (some (stop, trees ++ trees')) log := by
  induction tails generalizing log' with
  | nil => exact nomatch h
  | cons tail tails ih =>
    cases h with
    | firstFound htail =>
      obtain ⟨_, hpair⟩ := hnext.pair htail
      exact ⟨_, .firstFound hpair⟩
    | firstNext htail hrest =>
      obtain ⟨_, hpair⟩ := hnext.pair htail
      obtain ⟨_, hrest⟩ := ih hrest
      exact ⟨_, .firstNext hpair hrest⟩

/-- Where the next rule cannot be prolonged, the base is tried. -/
theorem alternatives_fallBack
    (hnext : Evaluates input fail answers (.one (.rule next)) start prior log)
    (htails : ∀ middle trees, prior = some (middle, trees) →
      ∃ log, Evaluates input fail answers (.first tails) middle none log)
    (hbase : Evaluates input fail answers (.one base) start found log') :
    ∃ log, Evaluates input fail answers
      (.first (tails.map (fun tail => .sequence [.rule next, tail]) ++ [base])) start found
      log := by
  induction tails with
  | nil =>
    cases found with
    | none => exact ⟨_, .firstNext hbase .firstNil⟩
    | some found => exact ⟨_, .firstFound hbase⟩
  | cons tail tails ih =>
    have hrest := ih fun middle trees hprior => by
      obtain ⟨_, hfirst⟩ := htails middle trees hprior
      cases hfirst with
      | firstNext _ hrest => exact ⟨_, hrest⟩
    obtain ⟨_, hrest⟩ := hrest
    cases prior with
    | none => exact ⟨_, .firstNext hnext.pair_fails hrest⟩
    | some prior =>
      obtain ⟨_, hfirst⟩ := htails prior.1 prior.2 rfl
      cases hfirst with
      | firstNext htail _ =>
        obtain ⟨_, hpair⟩ := hnext.pair htail
        exact ⟨_, .firstNext hpair hrest⟩

end Evaluates

/-! ## Attempts of a cycle -/

namespace LeftCycle

variable [DecidableEq S]

/-- What an attempt at a cycle finds where its first rule finds the `prior` match: that match
prolonged by a tail, or else what the base finds. -/
inductive Tries (grammar : Grammar S M) (input : Array S) (cycle : LeftCycle S) (start : Nat)
    (prior : Found) : Found → Prop where
  | prolong {middle stop : Nat} {trees trees' : List Tree} {log : FailureLog}
      (hprior : prior = some (middle, trees))
      (htail : Evaluates input Prod.mk (grammar.Plain input) (.one (.choice cycle.tails)) middle
        (some (stop, trees')) log) :
      Tries grammar input cycle start prior (some (stop, trees ++ trees'))
  | fallBack {found : Found} {log : FailureLog}
      (htail : ∀ middle trees, prior = some (middle, trees) →
        ∃ log, Evaluates input Prod.mk (grammar.Plain input) (.one (.choice cycle.tails)) middle
          none log)
      (hbase : Evaluates input Prod.mk (grammar.Plain input) (.one cycle.base) start found log) :
      Tries grammar input cycle start prior found

variable {grammar : Grammar S M} {input : Array S} {cycle : LeftCycle S} {lap : Lap}
  {start : Nat} {prior found : Found}

omit [DecidableEq S] in
theorem first_mem_rules (cycle : LeftCycle S) : cycle.first ∈ cycle.rules := by
  unfold first rules
  cases cycle.before with
  | nil => exact List.mem_cons_self
  | cons rule before => exact List.mem_cons_self

/-- The tails and the base are evaluated plainly, since they never come back to the cycle. -/
theorem exists_plain_iff (h : grammar.HasCycle input cycle) (hentry : lap.key.rule = cycle.entry)
    {task : Task S} (htask : ∀ target ∈ task.targets, target ∈ cycle.targets) {place : Nat} :
    (∃ remarks, Evaluates input .missed (grammar.turns input lap cycle.before) task place found
      remarks) ↔
      ∃ log, Evaluates input Prod.mk (grammar.Plain input) task place found log := by
  have hother : ∀ target ∈ task.targets, ∀ place,
      (⟨target, place⟩ : MemoKey) ≠ ⟨cycle.before.headD lap.key.rule, lap.key.position⟩ := by
    intro target hmem place heq
    injection heq with hrule
    rw [hentry] at hrule
    exact h.apart target (htask target hmem) cycle.first cycle.first_mem_rules (hrule ▸ .refl)
  constructor
  · rintro ⟨remarks, heval⟩
    refine heval.relog fun target hmem place outcome remarks hanswer => ?_
    obtain ⟨log, hplain, -⟩ := (Answers.turning_other (hother target hmem place)).mp hanswer
    exact ⟨log, hplain⟩
  · rintro ⟨log, heval⟩
    refine heval.relog fun target hmem place outcome log hplain => ?_
    exact ⟨_, (Answers.turning_other (hother target hmem place)).mpr ⟨log, hplain, rfl⟩⟩

/-- The body of the last rule is tried once around. -/
theorem tries_iff (h : grammar.HasCycle input cycle) (hentry : lap.key.rule = cycle.entry)
    {inner : Outcome Tree} (hinner : grammar.Comes input lap cycle.before inner) :
    (∃ remarks, Evaluates input .missed (grammar.turns input lap cycle.before) (.one cycle.body)
      lap.key.position found remarks) ↔
      cycle.Tries grammar input lap.key.position inner.found? found := by
  have hfirst : cycle.first = cycle.before.headD lap.key.rule := by
    rw [hentry]
    rfl
  have hnext := Grammar.evaluates_next_of_comes hinner
  have hbase : ∀ target ∈ (Task.one cycle.base).targets, target ∈ cycle.targets :=
    fun target hmem => List.mem_append_left _ hmem
  have htails : ∀ target ∈ (Task.first cycle.tails).targets, target ∈ cycle.targets :=
    fun target hmem => List.mem_append_right _ hmem
  unfold LeftCycle.body Expression.leftRecursive
  rw [hfirst]
  constructor
  · rintro ⟨remarks, heval⟩
    rcases Evaluates.of_alternatives (fun h => Grammar.evaluates_next hinner h)
      (Evaluates.choice_iff.mp heval) with
      ⟨middle, trees, stop, trees', log, hprior, rfl, htail⟩ | ⟨hnone, hfound⟩
    · obtain ⟨log, htail⟩ := (exists_plain_iff h hentry htails).mp ⟨_, htail⟩
      exact .prolong hprior (.choice htail)
    · obtain ⟨log, hfound⟩ := (exists_plain_iff h hentry hbase).mp hfound
      refine .fallBack (fun middle trees hprior => ?_) hfound
      obtain ⟨log, hnone⟩ := (exists_plain_iff h hentry htails).mp (hnone middle trees hprior)
      exact ⟨log, .choice hnone⟩
  · intro htries
    cases htries with
    | @prolong middle stop trees trees' log hprior htail =>
      obtain ⟨remarks, htail⟩ :=
        (exists_plain_iff h hentry htails).mpr ⟨_, Evaluates.choice_iff.mp htail⟩
      rw [hprior] at hnext
      obtain ⟨remarks, heval⟩ := Evaluates.alternatives_prolong hnext htail
      exact ⟨remarks, .choice heval⟩
    | fallBack htail heval =>
      obtain ⟨remarks, heval⟩ := (exists_plain_iff h hentry hbase).mpr ⟨_, heval⟩
      have hnone : ∀ middle trees, inner.found? = some (middle, trees) →
          ∃ remarks, Evaluates input .missed (grammar.turns input lap cycle.before)
            (.first cycle.tails) middle none remarks := by
        intro middle trees hprior
        obtain ⟨log, hchoice⟩ := htail middle trees hprior
        exact (exists_plain_iff h hentry htails).mpr ⟨_, Evaluates.choice_iff.mp hchoice⟩
      obtain ⟨remarks, heval⟩ := Evaluates.alternatives_fallBack hnext hnone heval
      exact ⟨remarks, .choice heval⟩

/-- An attempt at a cycle: the aliases on both sides of the entry add nothing but their nodes. -/
theorem rounds_iff (h : grammar.HasCycle input cycle) {best outcome : Outcome Tree} :
    grammar.Comes input ⟨⟨cycle.entry, start⟩, best⟩
        (cycle.entry :: (cycle.after ++ cycle.before)) outcome ↔
      ∃ found, cycle.Tries grammar input start (Found.nest start cycle.before best.found?) found ∧
        outcome = .ofFound cycle.entry start (Found.nest start cycle.after found) := by
  let lap : Lap := ⟨⟨cycle.entry, start⟩, best⟩
  have hbefore : ∃ inner, grammar.Comes input lap cycle.before inner ∧
      inner.found? = Found.nest start cycle.before best.found? :=
    Grammar.comes_before h.chains.1
  obtain ⟨inner, hinner, hprior⟩ := hbefore
  have htries : ∀ found, (∃ remarks, Evaluates input .missed (grammar.turns input lap cycle.before)
      (.one cycle.body) start found remarks) ↔
        cycle.Tries grammar input start inner.found? found := fun found => tries_iff h rfl hinner
  rw [hprior] at htries
  rw [Grammar.comes_after_iff h.chains.2 h.body_eq]
  constructor
  · rintro ⟨found, remarks, heval, houtcome⟩
    exact ⟨found, (htries found).mp ⟨remarks, heval⟩, houtcome⟩
  · rintro ⟨found, hfound, houtcome⟩
    obtain ⟨remarks, heval⟩ := (htries found).mpr hfound
    exact ⟨found, remarks, heval, houtcome⟩

end LeftCycle

end LeftPeg
