import LeftPeg.Proofs.Parse

/-!
# Growth that purges the memo table

What was found with the help of a seed must not outlive it. The rules known to be involved in a
cycle are set aside when its seed grows, and those are the rules that were at work when something
came back to the marker. A rule can make use of a seed in other ways too, and then what was found
for it stays in the table.

This module has runs that decide on attempts in a way of their own, and one such way,
`Scan.settlePurging`: whenever a seed grows, it deletes all outcomes at that position but those of
live activations. The parses at the end come to a shorter match without it.
-/

namespace LeftPeg

variable {S V M : Type}

namespace MemoTable

/-- Deletes the outcomes of all rules at a position but the `live` ones. -/
def purge (table : MemoTable V) (position : Nat) (live : List RuleId) : MemoTable V :=
  ⟨table.cells.filter fun key entry =>
    key.position ≠ position || entry.isInProgress || key.rule ∈ live⟩

/-- A cell is left as it is, or it held an outcome at that position for a rule that is not live. -/
theorem find?_purge (table : MemoTable V) (position : Nat) (live : List RuleId) (rule : RuleId)
    (position' : Nat) :
    (table.purge position live).find? rule position' = table.find? rule position' ∨
      (table.purge position live).find? rule position' = none ∧
        (∃ outcome, table.find? rule position' = some (.finished outcome)) ∧
        position' = position ∧ rule ∉ live := by
  unfold find? purge
  rw [Std.TreeMap.getElem?_filter']
  -- A cell is deleted if it fails all three tests that would spare it.
  cases hfind : table.cells[MemoKey.mk rule position']? with
  | none => exact .inl rfl
  | some entry =>
    rw [Option.filter_some]
    split
    · exact .inl rfl
    · rename_i hdeleted
      simp only [ne_eq, decide_not, Bool.or_eq_true, Bool.not_eq_true', decide_eq_false_iff_not,
        decide_eq_true_eq, not_or, Decidable.not_not] at hdeleted
      obtain ⟨⟨hposition, hfinished⟩, hlive⟩ := hdeleted
      cases entry with
      | inProgress slot => exact absurd rfl hfinished
      | finished outcome => exact .inr ⟨rfl, ⟨outcome, rfl⟩, hposition, hlive⟩

end MemoTable

/-- A way to decide what becomes of an attempt. -/
abbrev Settle (V M : Type) := Scan V M → Site → Outcome V → Answer V M (Option (Outcome V))

namespace Scan

/-- The rules of the live activations at a position. -/
def liveAt (scan : Scan V M) (position : Nat) : List RuleId :=
  (scan.stack.live.filter (·.position = position)).map Activation.rule

/-- When a seed grows, all outcomes at its position are deleted but those of live activations. -/
def settlePurging : Settle V M := fun scan site attempt =>
  match scan.settle site attempt with
  | (.ok none, scan) =>
    (.ok none, { scan with memo := scan.memo.purge site.position (scan.liveAt site.position) })
  | answer => answer

end Scan

/-- The table is what the memo table of the scan is once some cells are lost, none of them that of a
live activation. -/
def Scan.Sifted (scan : Scan V M) (table : MemoTable V) : Prop :=
  ∀ rule position, table.find? rule position = scan.memo.find? rule position ∨
    table.find? rule position = none ∧ ∀ a ∈ scan.stack.live, a.key ≠ ⟨rule, position⟩

/-- Attempts are settled as the engine settles them, but some cells of the memo table may be lost
then. -/
def Settle.Sifts (settle : Settle V M) : Prop :=
  ∀ scan site attempt, ∃ table,
    settle scan site attempt =
      ((scan.settle site attempt).1, { (scan.settle site attempt).2 with memo := table }) ∧
    (scan.settle site attempt).2.Sifted table

theorem Scan.settle_sifts : Settle.Sifts (Scan.settle : Settle V M) :=
  fun _ _ _ => ⟨_, rfl, fun _ _ => .inl rfl⟩

theorem Scan.settlePurging_sifts : Settle.Sifts (Scan.settlePurging : Settle V M) := by
  intro scan site attempt
  unfold settlePurging
  rcases scan.settle site attempt with ⟨error | _ | outcome, scan'⟩
  · exact ⟨scan'.memo, rfl, fun _ _ => .inl rfl⟩
  · refine ⟨_, rfl, fun rule position => ?_⟩
    refine (MemoTable.find?_purge scan'.memo site.position _ rule position).imp_right ?_
    rintro ⟨hnone, -, rfl, hlive⟩
    refine ⟨hnone, fun a hmem hkey => hlive ?_⟩
    -- The activation would be one of those whose rules are spared.
    injection hkey with hrule hposition
    refine List.mem_map.mpr ⟨a, List.mem_filter.mpr ⟨hmem, ?_⟩, hrule⟩
    exact decide_eq_true hposition
  · exact ⟨scan'.memo, rfl, fun _ _ => .inl rfl⟩

/-! ## Runs that settle attempts in a way of their own -/

namespace Engine

/-- As `growUpTo`, with attempts settled by `settle`. -/
def growBy (settle : Settle V M) (evaluate : Scan V M → Answer V M (Outcome V)) (site : Site)
    (limit : Nat) : Nat → Scan V M → Answer V M (Outcome V)
  | 0, scan => (.error (.defect (.unsettledGrowth site.rule site.position limit)), scan)
  | attempts + 1, scan =>
    match evaluate (scan.beginAttempt site) with
    | (.error error, scan) => (.error error, scan)
    | (.ok attempt, scan) =>
      match settle scan site attempt with
      | (.error error, scan) => (.error error, scan)
      | (.ok (some outcome), scan) => (.ok outcome, scan)
      | (.ok none, scan) => growBy settle evaluate site limit attempts scan.countGrowth

/-- As `activate`, with attempts settled by `settle`. -/
def activateBy (engine : Engine S V M) (settle : Settle V M) (invoke : Invoke V M) (rule : RuleId)
    (body : Procedure S V M (Outcome V)) (scan : Scan V M) : Answer V M (Outcome V) :=
  let site : Site := ⟨rule, scan.position, scan.stack.depth⟩
  let limit := engine.attemptLimit scan.position
  Scan.release site <|
    growBy settle (body.run engine.input invoke) site limit limit (scan.enter site)

/-- As `invokeWithin`, with attempts settled by `settle`. -/
def invokeBy (engine : Engine S V M) (settle : Settle V M) : Nat → Invoke V M
  | 0 => engine.answer fun _ _ scan => (.error (.tooDeep engine.maxDepth scan.position), scan)
  | room + 1 => engine.answer (engine.activateBy settle (engine.invokeBy settle room))

theorem growBy_settle (evaluate : Scan V M → Answer V M (Outcome V)) (site : Site)
    (limit attempts : Nat) (scan : Scan V M) :
    growBy Scan.settle evaluate site limit attempts scan =
      growUpTo evaluate site limit attempts scan := by
  induction attempts generalizing scan with
  | zero => rfl
  | succ attempts ih =>
    unfold growBy growUpTo
    rcases evaluate (scan.beginAttempt site) with ⟨error | attempt, scan₁⟩
    · rfl
    · dsimp only
      rcases scan₁.settle site attempt with ⟨error | _ | outcome, scan₂⟩
      · rfl
      -- Not settled yet, so both go on with the attempts that are left.
      · exact ih _
      · rfl

/-- With the engine's own way to settle attempts, these are the engine's own invocations. -/
theorem invokeBy_settle (engine : Engine S V M) (room : Nat) :
    engine.invokeBy Scan.settle room = engine.invokeWithin room := by
  induction room with
  | zero => rfl
  | succ room ih =>
    unfold invokeBy invokeWithin
    congr 1
    funext rule body scan
    rw [ih, activateBy, activate]
    simp only [growBy_settle]

end Engine

namespace Parser

variable [DecidableEq S] (parser : Parser S M)

/-- As `parse`, with attempts settled by `settle`. -/
def parseBy (settle : Settle Tree M) (input : Array S) (rule : RuleId) (options : Options)
    (memory : M) : Parse S M :=
  if parser.grammar.size ≤ rule.index then
    { result := .error (.unknownRule rule.display), parser, memory, events := [] }
  else
    let ledger := parser.ledger.reset
    let start := options.start?.getD 0
    if input.size < start then
      { result := .error (.startOutOfBounds start input.size)
        parser := { parser with ledger }
        memory, events := [] }
    else
      parser.close options input.size ((parser.engine input).invokeBy settle parser.config.maxDepth
        rule (parser.firstScan input.size rule start memory))

/-- Parses an input while each seed that grows purges the memo table. -/
def parsePurging (input : Array S) (rule : RuleId) (options : Options) (memory : M) : Parse S M :=
  parser.parseBy Scan.settlePurging input rule options memory

/-- With the parser's own way to settle attempts, this is the parser's own parse. -/
theorem parseBy_settle (input : Array S) (rule : RuleId) (options : Options) (memory : M) :
    parser.parseBy Scan.settle input rule options memory =
      parser.parse input rule options memory := by
  unfold parseBy parse
  rw [Engine.invokeBy_settle]
  rfl

end Parser

/-! ## Outcomes that outlive their seed -/

/-- `a` is looked for with the help of `b`, once it is known to go on with `"x"`. By then `a` has a
seed, and `b`, which is evaluated for the first time, finds the seed where a marker was. -/
def Grammar.latecomer : Grammar Char Unit :=
  ⟨[⟨"a", .expression (.choice [
      .sequence [.lookahead (.sequence [.rule ⟨0⟩, Expression.text "x"]) true, .rule ⟨1⟩],
      .sequence [.rule ⟨0⟩, Expression.text "x"],
      Expression.text "z"])⟩,
    ⟨"b", .expression (.sequence [.rule ⟨0⟩, Expression.text "xy"])⟩]⟩

/-- `c` makes use of `a` by way of `b` only, which has its outcome in the table by then, so that `c`
is not at work when something comes back to `a`. -/
def Grammar.bystander : Grammar Char Unit :=
  ⟨[⟨"a", .expression (.choice [
      .sequence [.rule ⟨1⟩, Expression.text "x"],
      .sequence [.rule ⟨2⟩, Expression.text "y"],
      Expression.text "z"])⟩,
    ⟨"b", .expression (.sequence [.rule ⟨0⟩, Expression.text "b"])⟩,
    ⟨"c", .expression (.sequence [.rule ⟨1⟩, Expression.text "c"])⟩]⟩

theorem Grammar.latecomer_ofExpressions : Grammar.latecomer.OfExpressions := by
  intro rule hrule
  simp only [latecomer, List.mem_cons, List.not_mem_nil, or_false] at hrule
  rcases hrule with rfl | rfl <;> exact ⟨_, rfl⟩

theorem Grammar.bystander_ofExpressions : Grammar.bystander.OfExpressions := by
  intro rule hrule
  simp only [bystander, List.mem_cons, List.not_mem_nil, or_false] at hrule
  rcases hrule with rfl | rfl | rfl <;> exact ⟨_, rfl⟩

/-- Where an outcome outlives its seed, the match of a parse is shorter than it would be without
that outcome: a rule was evaluated for the first time after the seed was found, or it made use of
the seed by way of another rule's outcome. -/
theorem Parser.parse_shorter :
    let stop (parse : Parse Char Unit) := parse.result.toOption.map Match.stop
    let options : Options := { wholeInput := false }
    let late := new Grammar.latecomer {}
    let borrowing := new Grammar.bystander {}
    (Grammar.latecomer.OfExpressions ∧
      stop (late.parse #['z', 'x', 'x', 'y'] ⟨0⟩ options ()) = some 3 ∧
      stop (late.parsePurging #['z', 'x', 'x', 'y'] ⟨0⟩ options ()) = some 4) ∧
    (Grammar.bystander.OfExpressions ∧
      stop (borrowing.parse #['z', 'b', 'c', 'y'] ⟨0⟩ options ()) = some 1 ∧
      stop (borrowing.parsePurging #['z', 'b', 'c', 'y'] ⟨0⟩ options ()) = some 4) := by
  -- Four closed runs, two of each grammar.
  refine ⟨⟨Grammar.latecomer_ofExpressions, ?_⟩, ⟨Grammar.bystander_ofExpressions, ?_⟩⟩
  · decide +kernel
  · decide +kernel

end LeftPeg
