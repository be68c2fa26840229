import LeftPeg.Proofs.LeftCycle
import LeftPeg.Proofs.Circling
import LeftPeg.SymbolClass

/-!
# Left recursion is iteration

A cycle of aliases around one left recursive choice matches what the base matches, followed by as
many tails as match one after another (`LeftCycle.iteration`), whichever of its rules is asked for.
Its trees lean to the left: each match contains the one before it, and the innermost one is a match
of the base (`LeftCycle.Nested`).

The attempts of the cycle are the copies of the repetition: each attempt that extends the best match
takes one tail (`LeftCycle.copies_of_settling`, `LeftCycle.settling_of_copies`). Without tails there
is no cycle at all, and the aliases are evaluated plainly.
-/

namespace LeftPeg

variable {S M : Type}

namespace LeftCycle

/-- The base, and then the tails for as long as one of them is found. -/
def iteration (cycle : LeftCycle S) : Expression S :=
  .sequence [cycle.base, .repetition (.choice cycle.tails) 0 none]

/-- The node of the entry, over those of the rules after it, over what the last of them found. -/
def node (cycle : LeftCycle S) (start stop : Nat) (trees : List Tree) : Tree :=
  ⟨some cycle.entry, none, start, stop, Tree.nest start stop cycle.after trees⟩

variable [DecidableEq S]

/-- Trees that lean to the left. The first child of a node, under the nodes of the rules before the
entry, is the node of the match before; the others are what a tail found at the end of that
match. -/
inductive Nested (grammar : Grammar S M) (input : Array S) (cycle : LeftCycle S) (start : Nat) :
    Nat → Tree → Prop where
  | seed {stop : Nat} {trees : List Tree} {log : FailureLog}
      (hbase : Evaluates input Prod.mk (grammar.Plain input) (.one cycle.base) start
        (some (stop, trees)) log) :
      Nested grammar input cycle start stop (cycle.node start stop trees)
  | next {middle stop : Nat} {inner : Tree} {trees : List Tree} {log : FailureLog}
      (hinner : Nested grammar input cycle start middle inner)
      (htail : Evaluates input Prod.mk (grammar.Plain input) (.one (.choice cycle.tails)) middle
        (some (stop, trees)) log)
      (hlonger : middle < stop) :
      Nested grammar input cycle start stop
        (cycle.node start stop (Tree.nest start middle cycle.before [inner] ++ trees))

/-- The outcome is a match that ends where the iteration does, with a tree that leans to the left,
or both fail. -/
inductive Iterated (grammar : Grammar S M) (input : Array S) (cycle : LeftCycle S) (start : Nat) :
    Outcome Tree → Prop where
  | matched {stop : Nat} {value : Tree} {trees : List Tree} {log : FailureLog}
      (hnested : cycle.Nested grammar input start stop value)
      (hplain : Evaluates input Prod.mk (grammar.Plain input) (.one cycle.iteration) start
        (some (stop, trees)) log) :
      Iterated grammar input cycle start (.success ⟨start, stop, value⟩)
  | failed {log : FailureLog}
      (hplain : Evaluates input Prod.mk (grammar.Plain input) (.one cycle.iteration) start none
        log) :
      Iterated grammar input cycle start .failure

variable {grammar : Grammar S M} {input : Array S} {cycle : LeftCycle S}
  {start stop last : Nat} {found : Found} {trees trees' : List Tree} {log log' : FailureLog}

/-! ## The iteration -/

theorem evaluates_iteration
    (hbase : Evaluates input Prod.mk (grammar.Plain input) (.one cycle.base) start
      (some (stop, trees)) log)
    (hcopies : Evaluates input Prod.mk (grammar.Plain input)
      (.copies (.choice cycle.tails) none 0) stop found log') :
    ∃ log, Evaluates input Prod.mk (grammar.Plain input) (.one cycle.iteration) start
      (found.prepend trees) log :=
  hbase.pair (.repetition hcopies)

/-- What the iteration finds begins with what the base finds. -/
theorem base_of_iteration
    (h : Evaluates input Prod.mk (grammar.Plain input) (.one cycle.iteration) start
      (some (stop, trees)) log) :
    ∃ middle trees found log log',
      Evaluates input Prod.mk (grammar.Plain input) (.one cycle.base) start (some (middle, trees))
        log ∧
      Evaluates input Prod.mk (grammar.Plain input) (.copies (.choice cycle.tails) none 0) middle
        found log' := by
  rcases h.of_pair with ⟨hnone, -⟩ | ⟨middle, trees, found, log, log', hbase, hcopies, -⟩
  · exact nomatch hnone
  · exact ⟨middle, trees, found, log, log', hbase, Evaluates.repetition_iff.mp hcopies⟩

/-- One more tail is found. -/
theorem copies_next
    (htail : Evaluates input Prod.mk (grammar.Plain input) (.one (.choice cycle.tails)) start
      (some (stop, trees)) log) (hmoved : start < stop)
    (hrest : Evaluates input Prod.mk (grammar.Plain input) (.copies (.choice cycle.tails) none 0)
      stop (some (last, trees')) log') :
    Evaluates input Prod.mk (grammar.Plain input) (.copies (.choice cycle.tails) none 0) start
      (some (last, trees ++ trees')) (log ++ log') := by
  have hnext : Evaluates input Prod.mk (grammar.Plain input) (.copies (.choice cycle.tails) none 0)
      start (Found.prepend trees (some (last, trees'))) (log ++ log') :=
    .copiesNext (by simp) htail (Nat.ne_of_gt hmoved) hrest
  exact hnext

/-! ## Attempts and copies -/

omit [DecidableEq S] in
/-- An attempt that finds trees up to a place makes the entry's node over them. -/
theorem ofFound_some (cycle : LeftCycle S) (start stop : Nat) (trees : List Tree) :
    Outcome.ofFound cycle.entry start (Found.nest start cycle.after (some (stop, trees))) =
      .success ⟨start, stop, cycle.node start stop trees⟩ := by
  rw [Found.nest_some]
  rfl

omit [DecidableEq S] in
theorem extends_iff {best : Match Tree} {value : Tree} :
    (Outcome.success ⟨start, stop, value⟩).Extends (.success best) ↔ best.stop < stop := by
  simp [Outcome.Extends]

/-- An attempt to extend a match takes a tail at its end, or else finds what the base finds. -/
theorem tries_success (h : grammar.HasCycle input cycle) {best : Match Tree}
    {outcome : Outcome Tree} {remarks : List Remark} :
    grammar.Rounds input ⟨cycle.entry, start⟩ (cycle.after ++ cycle.before) (.success best) outcome
        remarks ↔
      (∃ found, cycle.Tries grammar input start
        (some (best.stop, Tree.nest start best.stop cycle.before [best.value])) found ∧
        outcome = .ofFound cycle.entry start (Found.nest start cycle.after found)) ∧
      remarks = [.returned] := by
  have hprior : Found.nest start cycle.before (Outcome.success best).found? =
      some (best.stop, Tree.nest start best.stop cycle.before [best.value]) :=
    Found.nest_some _ _ _ _
  rw [← hprior]
  exact and_congr_left' (rounds_iff h)

/-- Attempts that start from a match go on for as long as the repetition does, which starts at its
end. -/
theorem copies_of_settling (h : grammar.HasCycle input cycle) {seed : Nat}
    (hbase : Evaluates input Prod.mk (grammar.Plain input) (.one cycle.base) start
      (some (seed, trees)) log)
    {recursive : Bool} {best outcome : Outcome Tree} {remarks : List Remark}
    (hsettling : Settling
      (grammar.Rounds input ⟨cycle.entry, start⟩ (cycle.after ++ cycle.before)) recursive best
      outcome remarks) :
    ∀ middle value, best = .success ⟨start, middle, value⟩ →
      cycle.Nested grammar input start middle value → seed ≤ middle → middle ≤ input.size →
      ∃ stop value trees log, outcome = .success ⟨start, stop, value⟩ ∧
        cycle.Nested grammar input start stop value ∧
        Evaluates input Prod.mk (grammar.Plain input) (.copies (.choice cycle.tails) none 0) middle
          (some (stop, trees)) log := by
  -- On the attempts.  The best match never ends to the left of the seed, so that the base alone
  -- never extends it.
  induction hsettling with
  | accept hattempt hplain =>
    rintro middle value rfl
    have hremarks := ((tries_success h).mp hattempt).2
    rw [hremarks] at hplain
    exact absurd (List.mem_singleton_self _) hplain
  | keep hattempt _ hshort =>
    rintro middle value rfl hnested hseed hmiddle
    obtain ⟨⟨found, htries, rfl⟩, -⟩ := (tries_success h).mp hattempt
    cases htries with
    | prolong hprior htail =>
      cases hprior
      rw [ofFound_some, extends_iff] at hshort
      -- A tail was found, but it is empty: the repetition counts it and ends.
      have hstop := (htail.span Grammar.plain_span hmiddle _ _ rfl).1
      have heq := Nat.le_antisymm (Nat.le_of_not_lt hshort) hstop
      rw [heq] at htail
      exact ⟨middle, value, _, _, rfl, hnested, .copiesEmpty (by simp) htail⟩
    | fallBack htail _ =>
      obtain ⟨log, hnone⟩ := htail _ _ rfl
      exact ⟨middle, value, _, _, rfl, hnested, .copiesStop (by simp) hnone⟩
  | grow hattempt _ hlonger hrest ih =>
    rintro middle value rfl hnested hseed hmiddle
    obtain ⟨⟨found, htries, rfl⟩, -⟩ := (tries_success h).mp hattempt
    cases htries with
    | prolong hprior htail =>
      cases hprior
      rw [ofFound_some, extends_iff] at hlonger
      have hstop := (htail.span Grammar.plain_span hmiddle _ _ rfl).2
      obtain ⟨last, final, trees, log, rfl, hfinal, hcopies⟩ :=
        ih _ _ (ofFound_some cycle _ _ _) (.next hnested htail hlonger)
          (Nat.le_trans hseed (Nat.le_of_lt hlonger)) hstop
      exact ⟨last, final, _, _, rfl, hfinal, copies_next htail hlonger hcopies⟩
    | fallBack _ hfound =>
      obtain ⟨rfl, -⟩ := hbase.unique Grammar.plain_agree hfound
      rw [ofFound_some, extends_iff] at hlonger
      exact absurd hlonger (Nat.not_lt.mpr hseed)

/-- The copies of the repetition are as many attempts, and one more that does not extend the match
they end with. -/
theorem settling_of_copies (h : grammar.HasCycle input cycle) {seed : Nat}
    (hbase : Evaluates input Prod.mk (grammar.Plain input) (.one cycle.base) start
      (some (seed, trees)) log) {middle : Nat}
    (hcopies : Evaluates input Prod.mk (grammar.Plain input)
      (.copies (.choice cycle.tails) none 0) middle found log')
    (value : Tree) (hseed : seed ≤ middle) (hmiddle : middle ≤ input.size) :
    ∃ outcome remarks, Settling
      (grammar.Rounds input ⟨cycle.entry, start⟩ (cycle.after ++ cycle.before)) true
      (.success ⟨start, middle, value⟩) outcome remarks := by
  have hattempt : ∀ {middle value found}, cycle.Tries grammar input start
        (some (middle, Tree.nest start middle cycle.before [value])) found →
      grammar.Rounds input ⟨cycle.entry, start⟩ (cycle.after ++ cycle.before)
        (.success ⟨start, middle, value⟩)
        (.ofFound cycle.entry start (Found.nest start cycle.after found)) [.returned] :=
    fun htries => (tries_success h).mpr ⟨⟨_, htries, rfl⟩, rfl⟩
  generalize htask : Task.copies (.choice cycle.tails) none 0 = task at hcopies
  induction hcopies generalizing value with
  | copiesStop _ hnone =>
    cases htask
    -- No tail is found, so the attempt finds no more than the seed.
    refine ⟨_, _, .keep (hattempt (.fallBack ?_ hbase)) (.inl rfl) ?_⟩
    · rintro middle' trees' hprior
      cases hprior
      exact ⟨_, hnone⟩
    · rw [ofFound_some, extends_iff]
      exact Nat.not_lt.mpr hseed
  | copiesEmpty _ hempty =>
    cases htask
    refine ⟨_, _, .keep (hattempt (.prolong rfl hempty)) (.inl rfl) ?_⟩
    rw [ofFound_some, extends_iff]
    exact Nat.lt_irrefl _
  | copiesNext _ htail hmoved _ _ ih =>
    cases htask
    obtain ⟨hle, hstop⟩ := htail.span Grammar.plain_span hmiddle _ _ rfl
    have hlonger := Nat.lt_of_le_of_ne hle (Ne.symm hmoved)
    obtain ⟨outcome, remarks, hrest⟩ := ih (cycle.node start _ _)
      (Nat.le_trans hseed hle) hstop rfl
    have hgrown := @hattempt _ value _ (.prolong rfl htail)
    rw [ofFound_some] at hgrown
    exact ⟨outcome, _, .grow hgrown (.inl rfl) (extends_iff.mpr hlonger) hrest⟩
  | _ => exact nomatch htask

/-- The first attempt, of a cycle that has no match yet, finds what the base finds. -/
theorem tries_failure (h : grammar.HasCycle input cycle) {outcome : Outcome Tree}
    {remarks : List Remark} :
    grammar.Rounds input ⟨cycle.entry, start⟩ (cycle.after ++ cycle.before) .failure outcome
        remarks ↔
      (∃ found, (∃ log, Evaluates input Prod.mk (grammar.Plain input) (.one cycle.base) start found
          log) ∧
        outcome = .ofFound cycle.entry start (Found.nest start cycle.after found)) ∧
      remarks = [.returned] := by
  have hprior : Found.nest start cycle.before (Outcome.failure : Outcome Tree).found? = none :=
    Found.nest_none _ _
  have htries : ∀ found, cycle.Tries grammar input start none found ↔
      ∃ log, Evaluates input Prod.mk (grammar.Plain input) (.one cycle.base) start found log := by
    intro found
    constructor
    · rintro (⟨hprior, -⟩ | ⟨-, hbase⟩)
      · exact nomatch hprior
      · exact ⟨_, hbase⟩
    · rintro ⟨log, hbase⟩
      exact .fallBack (fun _ _ hnone => nomatch hnone) hbase
  refine and_congr_left' ((rounds_iff h).trans ?_)
  rw [hprior]
  simp only [htries]

/-- A cycle settles on what the iteration finds. -/
theorem iterated_of_settling (h : grammar.HasCycle input cycle) (hstart : start ≤ input.size)
    {outcome : Outcome Tree} {remarks : List Remark}
    (hsettling : Settling
      (grammar.Rounds input ⟨cycle.entry, start⟩ (cycle.after ++ cycle.before)) true .failure
      outcome remarks) : cycle.Iterated grammar input start outcome := by
  cases hsettling with
  | keep hattempt _ hshort =>
    obtain ⟨⟨found, ⟨log, hbase⟩, rfl⟩, -⟩ := (tries_failure h).mp hattempt
    cases found with
    | none => exact .failed hbase.pair_fails
    | some found =>
      -- A match of the base would have been a seed.
      rw [ofFound_some] at hshort
      exact absurd ⟨found.1, rfl, fun _ hleast => nomatch hleast⟩ hshort
  | grow hattempt _ hlonger hrest =>
    obtain ⟨⟨found, ⟨log, hbase⟩, rfl⟩, -⟩ := (tries_failure h).mp hattempt
    cases found with
    | none =>
      obtain ⟨stop, hstop, -⟩ := hlonger
      rw [Found.nest_none] at hstop
      exact nomatch hstop
    | some found =>
      have hspan := (hbase.span Grammar.plain_span hstart _ _ rfl).2
      obtain ⟨stop, value, trees, _, rfl, hnested, hcopies⟩ :=
        copies_of_settling h hbase hrest _ _ (ofFound_some cycle _ _ _) (.seed hbase)
          (Nat.le_refl _) hspan
      obtain ⟨_, hplain⟩ := evaluates_iteration hbase hcopies
      exact .matched hnested hplain

/-- Where the iteration finds something, the cycle settles. -/
theorem settling_of_iteration (h : grammar.HasCycle input cycle) (hstart : start ≤ input.size)
    (hplain : Evaluates input Prod.mk (grammar.Plain input) (.one cycle.iteration) start
      (some (stop, trees)) log) :
    ∃ outcome remarks, Settling
      (grammar.Rounds input ⟨cycle.entry, start⟩ (cycle.after ++ cycle.before)) true .failure
      outcome remarks := by
  obtain ⟨middle, trees, found, log, log', hbase, hcopies⟩ := base_of_iteration hplain
  have hmiddle := (hbase.span Grammar.plain_span hstart _ _ rfl).2
  have hattempt := (tries_failure h).mpr ⟨⟨_, ⟨_, hbase⟩, rfl⟩, rfl⟩
  obtain ⟨outcome, remarks, hrest⟩ := settling_of_copies h hbase hcopies
    (cycle.node start middle trees) (Nat.le_refl _) hmiddle
  rw [ofFound_some] at hattempt
  exact ⟨outcome, _, .grow hattempt (.inl rfl) ⟨middle, rfl, fun _ hleast => nomatch hleast⟩ hrest⟩

end LeftCycle

/-! ## Cycles without tails -/

namespace Grammar

variable [DecidableEq S] {grammar : Grammar S M} {input : Array S} {rule : RuleId}
  {after : List RuleId} {form : Expression S} {start : Nat} {outcome : Outcome Tree}

/-- Aliases come to what the body of the last of them finds. -/
theorem exists_plain_aliases_iff (h : (rule :: after).IsChain grammar.Alias)
    (hbody : grammar.body? (after.getLastD rule) = some (.expression form)) :
    (∃ log, grammar.Plain input rule start outcome log) ↔
      ∃ found log, Evaluates input Prod.mk (grammar.Plain input) (.one form) start found log ∧
        outcome = .ofFound rule start (Found.nest start after found) := by
  induction after generalizing rule outcome with
  | nil =>
    constructor
    · rintro ⟨log, hplain⟩
      obtain ⟨form', found, hbody', heval, rfl⟩ := plain_iff.mp hplain
      have hsame := hbody.symm.trans hbody'
      cases hsame
      exact ⟨found, log, heval, rfl⟩
    · rintro ⟨found, log, heval, rfl⟩
      exact ⟨log, plain_of_evaluates hbody heval⟩
  | cons next after ih =>
    obtain ⟨halias, hrest⟩ := List.isChain_cons_cons.mp h
    rw [List.getLastD_cons] at hbody
    constructor
    · rintro ⟨log, hplain⟩
      obtain ⟨form', found, hbody', heval, rfl⟩ := plain_iff.mp hplain
      have hsame := halias.symm.trans hbody'
      cases hsame
      obtain ⟨inner, hanswer, rfl⟩ := Evaluates.rule_iff.mp heval
      obtain ⟨found, log, hform, rfl⟩ := (ih hrest hbody).mp ⟨_, hanswer⟩
      exact ⟨found, log, hform, rfl⟩
    · rintro ⟨found, log, heval, rfl⟩
      obtain ⟨log, hanswer⟩ := (ih hrest hbody).mpr ⟨found, log, heval, rfl⟩
      exact ⟨log, plain_of_evaluates halias (.rule hanswer)⟩

/-- Aliases are grounded if the last of them leads to grounded rules only. -/
theorem grounded_of_aliases (h : (rule :: after).IsChain grammar.Alias)
    (hlast : grammar.Grounded input ⟨after.getLastD rule, start⟩) :
    grammar.Grounded input ⟨rule, start⟩ := by
  induction after generalizing rule with
  | nil => exact hlast
  | cons next after ih =>
    obtain ⟨halias, hrest⟩ := List.isChain_cons_cons.mp h
    rw [List.getLastD_cons] at hlast
    constructor
    rintro key ⟨form, hbody, harrives⟩
    have hsame := halias.symm.trans hbody
    cases hsame
    cases harrives with
    | here => exact ih hrest hlast

end Grammar

namespace LeftCycle

variable [DecidableEq S] {grammar : Grammar S M} {input : Array S} {cycle : LeftCycle S}
  {start stop : Nat} {found : Found} {trees : List Tree} {log : FailureLog}

omit [DecidableEq S] in
/-- Without tails, the body of the last rule has one alternative. -/
theorem body_of_no_tails (htails : cycle.tails = []) : cycle.body = .choice [cycle.base] := by
  unfold body
  rw [htails]
  rfl

/-- Without tails, the last rule finds what the base finds. -/
theorem exists_body_iff (htails : cycle.tails = []) :
    (∃ log, Evaluates input Prod.mk (grammar.Plain input) (.one cycle.body) start found log) ↔
      ∃ log, Evaluates input Prod.mk (grammar.Plain input) (.one cycle.base) start found log := by
  rw [body_of_no_tails htails]
  constructor
  · rintro ⟨log, heval⟩
    cases Evaluates.choice_iff.mp heval with
    | firstFound hbase => exact ⟨_, hbase⟩
    | firstNext hbase hrest =>
      cases hrest
      exact ⟨_, hbase⟩
  · rintro ⟨log, hbase⟩
    cases found with
    | none => exact ⟨_, .choice (.firstNext hbase .firstNil)⟩
    | some found => exact ⟨_, .choice (.firstFound hbase)⟩

/-- Without tails, the entry comes to what the base finds. -/
theorem exists_plain_entry_iff (h : grammar.HasCycle input cycle) (htails : cycle.tails = [])
    {outcome : Outcome Tree} :
    (∃ log, grammar.Plain input cycle.entry start outcome log) ↔
      ∃ found log, Evaluates input Prod.mk (grammar.Plain input) (.one cycle.base) start found log ∧
        outcome = .ofFound cycle.entry start (Found.nest start cycle.after found) := by
  rw [Grammar.exists_plain_aliases_iff h.chains.2 h.body_eq]
  constructor
  · rintro ⟨found, log, hbody, houtcome⟩
    obtain ⟨log, hbase⟩ := (exists_body_iff htails).mp ⟨log, hbody⟩
    exact ⟨found, log, hbase, houtcome⟩
  · rintro ⟨found, log, hbase, houtcome⟩
    obtain ⟨log, hbody⟩ := (exists_body_iff htails).mpr ⟨log, hbase⟩
    exact ⟨found, log, hbody, houtcome⟩

/-- Without tails, the entry is grounded. -/
theorem grounded_entry (h : grammar.HasCycle input cycle) (hforms : grammar.OfExpressions)
    (htails : cycle.tails = []) (hstart : start ≤ input.size) :
    grammar.Grounded input ⟨cycle.entry, start⟩ := by
  refine Grammar.grounded_of_aliases h.chains.2 ⟨_, fun key hleads => ?_⟩
  obtain ⟨form, hbody, harrives⟩ := hleads
  have hsame := h.body_eq.symm.trans hbody
  cases hsame
  rw [body_of_no_tails htails] at harrives
  cases harrives with
  | choice hitems =>
    have htarget : key.rule ∈ cycle.targets := by
      unfold targets
      rw [htails]
      exact hitems.mem_targets
    exact (h.quiet _ htarget).grounded hforms (hitems.span Grammar.plain_span hstart).2

/-- Without tails, plain evaluation of the entry is iteration. -/
theorem iterated_of_plain (h : grammar.HasCycle input cycle) (htails : cycle.tails = [])
    {outcome : Outcome Tree} (hplain : grammar.Plain input cycle.entry start outcome log) :
    cycle.Iterated grammar input start outcome := by
  obtain ⟨found, log, hbase, rfl⟩ := (exists_plain_entry_iff h htails).mp ⟨log, hplain⟩
  cases found with
  | none =>
    rw [Found.nest_none]
    exact .failed hbase.pair_fails
  | some found =>
    rw [ofFound_some]
    have hnone : Evaluates input Prod.mk (grammar.Plain input) (.one (.choice cycle.tails))
        found.1 none [] := by
      rw [htails]
      exact .choice .firstNil
    obtain ⟨log, hplain⟩ := evaluates_iteration hbase (.copiesStop (by simp) hnone)
    exact .matched (.seed hbase) hplain

/-! ## What an outcome of the iteration tells -/

namespace Iterated

/-- An iterated outcome is a match just where the iteration finds something, and ends there. -/
theorem success_iff {outcome : Outcome Tree} (h : cycle.Iterated grammar input start outcome) :
    (∃ found, outcome = .success found ∧ found.stop = stop) ↔
      ∃ trees log, Evaluates input Prod.mk (grammar.Plain input) (.one cycle.iteration) start
        (some (stop, trees)) log := by
  cases h with
  | matched _ hplain =>
    constructor
    · rintro ⟨found, hsame, rfl⟩
      cases hsame
      exact ⟨_, _, hplain⟩
    · rintro ⟨trees, log, hplain'⟩
      obtain ⟨hsame, -⟩ := hplain.unique Grammar.plain_agree hplain'
      cases hsame
      exact ⟨_, rfl, rfl⟩
  | failed hplain =>
    constructor
    · rintro ⟨found, hsame, -⟩
      exact nomatch hsame
    · rintro ⟨trees, log, hplain'⟩
      exact nomatch (hplain.unique Grammar.plain_agree hplain').1

/-- The tree of an iterated match leans to the left. -/
theorem nested {found : Match Tree} (h : cycle.Iterated grammar input start (.success found)) :
    found.start = start ∧ cycle.Nested grammar input start found.stop found.value := by
  cases h with
  | matched hnested => exact ⟨rfl, hnested⟩

end Iterated

/-! ## Invocations of a cycle -/

/-- What comes of an invocation of the entry of a cycle. -/
inductive Iterates (grammar : Grammar S M) (input : Array S) (cycle : LeftCycle S) (start : Nat) :
    Except ParseError (Outcome Tree) → Prop where
  | iterated {outcome : Outcome Tree} (hiterated : cycle.Iterated grammar input start outcome) :
      Iterates grammar input cycle start (.ok outcome)
  | ended {error : ParseError} (hrun : error.OfRun) :
      Iterates grammar input cycle start (.error error)
  | missing {name : String}
      (hnone : ∀ stop trees log, ¬ Evaluates input Prod.mk (grammar.Plain input)
        (.one cycle.iteration) start (some (stop, trees)) log) :
      Iterates grammar input cycle start (.error (.unknownRule name))

end LeftCycle

namespace Parser

variable [DecidableEq S] {parser : Parser S M} {input : Array S} {cycle : LeftCycle S} {start : Nat}

/-- A parse from a rule of a cycle iterates. -/
theorem iterates_firstScan (hforms : parser.grammar.OfExpressions)
    (hcycle : parser.grammar.HasCycle input cycle) (hstart : start ≤ input.size) (memory : M) :
    cycle.Iterates parser.grammar input start
      ((parser.engine input).invoke cycle.entry
        (parser.firstScan input.size cycle.entry start memory)).1 := by
  by_cases htails : cycle.tails = []
  · have hgrounds := parser.grounds_firstScan hforms input cycle.entry hstart memory
    generalize (parser.engine input).invoke cycle.entry _ = answer at hgrounds
    cases hgrounds with
    | answered _ _ hplain => exact .iterated (LeftCycle.iterated_of_plain hcycle htails hplain)
    | ended hrun => exact .ended hrun
    | missing hstops =>
      refine .missing fun stop trees log hplain => ?_
      obtain ⟨_, _, _, _, _, hbase, -⟩ := LeftCycle.base_of_iteration hplain
      obtain ⟨_, hanswer⟩ := (LeftCycle.exists_plain_entry_iff hcycle htails).mpr
        ⟨_, _, hbase, rfl⟩
      exact hstops.1 _ _ hanswer
    | returned _ hnever =>
      exact absurd (LeftCycle.grounded_entry hcycle hforms htails hstart) hnever
  · have hcircled := parser.circled_firstScan hforms
      (fun _ _ houtside hbody => Grammar.HasCycle.outside_closed houtside hbody)
      (hcycle.circle hforms htails hstart) memory
    generalize ((parser.engine input).invoke _ _).1 = result at hcircled ⊢
    cases hcircled with
    | settled hsettling => exact .iterated (LeftCycle.iterated_of_settling hcycle hstart hsettling)
    | ended hrun => exact .ended hrun
    | missing hnone =>
      refine .missing fun stop trees log hplain => ?_
      obtain ⟨outcome, remarks, hsettling⟩ :=
        LeftCycle.settling_of_iteration hcycle hstart hplain
      exact hnone outcome remarks hsettling

/-- A parse from any rule of a cycle matches what the iteration matches, that is a match of the base
and then as many tails as are found one after another, unless too many activations are live at once.
Its tree leans to the left. -/
theorem parse_iterates (parser : Parser S M) (hforms : parser.grammar.OfExpressions)
    (input : Array S) (cycle : LeftCycle S) (hcycle : parser.grammar.HasCycle input cycle)
    (options : Options) (memory : M) (hstart : options.start?.getD 0 ≤ input.size)
    (hroom : ∀ limit position, (parser.parse input cycle.entry options memory).result ≠
      .error (.tooDeep limit position)) :
    let start := options.start?.getD 0
    let result := (parser.parse input cycle.entry options memory).result
    (∀ stop, (∃ found, result = .ok found ∧ found.stop = stop) ↔
      (∃ trees log, Evaluates input Prod.mk (parser.grammar.Plain input) (.one cycle.iteration)
        start (some (stop, trees)) log) ∧
      (options.wholeInput = true → stop = input.size)) ∧
    ∀ found, result = .ok found →
      found.start = start ∧ cycle.Nested parser.grammar input start found.stop found.value := by
  intro start result
  obtain ⟨form, hbody⟩ := hcycle.exists_body
  have hiterates := iterates_firstScan hforms hcycle hstart memory
  have hdefect := parser.result_ne_defect hforms input cycle.entry options memory
  have hresult : result = (parser.close options input.size ((parser.engine input).invoke cycle.entry
      (parser.firstScan input.size cycle.entry start memory))).result :=
    congrArg Parse.result
      (parser.parse_eq_close input options memory (Grammar.index_lt_of_body? hbody) hstart)
  generalize (parser.engine input).invoke cycle.entry _ = answer at hiterates hresult
  obtain ⟨error | outcome, scan⟩ := answer
  · -- Errors about the run are excluded, so that nothing is found on either side.
    have hnone : ∀ stop trees log, ¬ Evaluates input Prod.mk (parser.grammar.Plain input)
        (.one cycle.iteration) start (some (stop, trees)) log := by
      cases hiterates with
      | missing hnone => exact hnone
      | ended hrun =>
        rcases hrun with ⟨limit, position, rfl⟩ | ⟨cause, rfl⟩
        · exact absurd hresult (hroom limit position)
        · exact absurd hresult (hdefect cause)
    have hfails : ∀ found, result ≠ .ok found := fun found hok => nomatch hresult.symm.trans hok
    refine ⟨fun stop => ⟨?_, ?_⟩, fun found hok => absurd hok (hfails found)⟩
    · rintro ⟨found, hok, -⟩
      exact absurd hok (hfails found)
    · rintro ⟨⟨trees, log, hplain⟩, -⟩
      exact absurd hplain (hnone stop trees log)
  · have hok : ∀ found, result = .ok found ↔
        outcome = .success found ∧ (options.wholeInput = true → found.stop = input.size) :=
      fun found => hresult ▸ conclude_eq_ok_iff
    cases hiterates with
    | iterated hiterated =>
      refine ⟨fun stop => ⟨?_, ?_⟩, fun found hfound => ?_⟩
      · rintro ⟨found, hfound, rfl⟩
        obtain ⟨rfl, hwhole⟩ := (hok found).mp hfound
        exact ⟨hiterated.success_iff.mp ⟨found, rfl, rfl⟩, hwhole⟩
      · rintro ⟨hplain, hwhole⟩
        obtain ⟨found, rfl, rfl⟩ := hiterated.success_iff.mpr hplain
        exact ⟨found, (hok found).mpr ⟨rfl, hwhole⟩, rfl⟩
      · obtain ⟨rfl, -⟩ := (hok found).mp hfound
        exact hiterated.nested

end Parser

/-! ## Sums -/

/-- Sums and differences of digits: `sum` is `total`, and `total` is `sum "+" digit`, or else
`sum "-" digit`, or else `digit`. -/
def Grammar.sums : Grammar Char Unit :=
  ⟨[⟨"sum", .expression (.rule ⟨1⟩)⟩,
    ⟨"total", .expression (.choice [
      .sequence [.rule ⟨0⟩, .sequence [Expression.text "+", .rule ⟨2⟩]],
      .sequence [.rule ⟨0⟩, .sequence [Expression.text "-", .rule ⟨2⟩]],
      .rule ⟨2⟩])⟩,
    ⟨"digit", .expression (.satisfying SymbolClass.digit "digit")⟩]⟩

/-- The cycle of `sum` and `total`, entered at `total`. -/
def LeftCycle.sums : LeftCycle Char where
  before := [⟨0⟩]
  entry := ⟨1⟩
  after := []
  tails := [.sequence [Expression.text "+", .rule ⟨2⟩], .sequence [Expression.text "-", .rule ⟨2⟩]]
  base := .rule ⟨2⟩

/-- The tails and the base mention digits only. -/
theorem LeftCycle.eq_of_mem_targets_sums {target : RuleId}
    (h : target ∈ LeftCycle.sums.targets) : target = ⟨2⟩ := by
  have hmem : target ∈ [(⟨2⟩ : RuleId), ⟨2⟩, ⟨2⟩] := h
  simpa using hmem

theorem Grammar.sums_ofExpressions : Grammar.sums.OfExpressions := by
  intro rule hrule
  simp only [Grammar.sums, List.mem_cons, List.not_mem_nil, or_false] at hrule
  rcases hrule with rfl | rfl | rfl <;> exact ⟨_, rfl⟩

/-- A digit is evaluated without recursion. -/
theorem Grammar.sums_quiet : Grammar.sums.Quiet #['1', '+', '2', '-', '3'] ⟨2⟩ := by
  intro start hstart
  refine ⟨{}, (), ?_⟩
  have hparse : ∀ start ≤ 5,
      let parse := (Parser.new Grammar.sums {}).parse #['1', '+', '2', '-', '3'] ⟨2⟩
        { start? := some start } ()
      (match parse.result with | .ok _ => true | .error error => error.isInputFault) = true ∧
        parse.parser.ledger.metrics.recursions = 0 := by
    decide +kernel
  obtain ⟨hfault, hrecursions⟩ := hparse start hstart
  refine ⟨fun limit position hdeep => ?_, hrecursions⟩
  rw [hdeep] at hfault
  exact nomatch hfault

theorem Grammar.sums_hasCycle :
    Grammar.sums.HasCycle #['1', '+', '2', '-', '3'] LeftCycle.sums where
  aliases := .cons_cons rfl (.singleton _)
  body_eq := rfl
  apart := by
    intro target htarget rule hrule hreach
    obtain rfl := LeftCycle.eq_of_mem_targets_sums htarget
    -- A digit mentions no rules at all.
    rcases hreach.cases_head with rfl | ⟨next, ⟨form, hbody, hmem⟩, -⟩
    · exact absurd hrule (by decide)
    · injection hbody with hbody
      injection hbody with hbody
      subst hbody
      exact nomatch hmem
  quiet := by
    intro target htarget
    obtain rfl := LeftCycle.eq_of_mem_targets_sums htarget
    exact Grammar.sums_quiet

/-- A sum and then a difference are one match, and the sum is what is subtracted from. -/
theorem Parser.parse_iterates_sums :
    let input := #['1', '+', '2', '-', '3']
    ∃ found, ((new Grammar.sums {}).parse input ⟨1⟩ {} ()).result = .ok found ∧ found.stop = 5 ∧
      LeftCycle.sums.Nested Grammar.sums input 0 5 found.value := by
  intro input
  have hstop : ((new Grammar.sums {}).parse input ⟨1⟩ {} ()).result.toOption.map Match.stop =
      some 5 := by
    decide +kernel
  cases hresult : ((new Grammar.sums {}).parse input ⟨1⟩ {} ()).result with
  | error error =>
    rw [hresult] at hstop
    exact nomatch hstop
  | ok found =>
    have hiterates := (new Grammar.sums {}).parse_iterates Grammar.sums_ofExpressions input
      LeftCycle.sums Grammar.sums_hasCycle {} () (Nat.zero_le _)
      (fun _ _ hdeep => nomatch hresult.symm.trans hdeep)
    rw [hresult] at hstop
    injection hstop with hstop
    have hnested := (hiterates.2 found hresult).2
    rw [hstop] at hnested
    exact ⟨found, rfl, hstop, hnested⟩

end LeftPeg
