import LeftPeg.Proofs.Genuine
import LeftPeg.Grammar.Draft

/-!
# What a parse finds

The invariants of runs, read for a whole parse: it starts from an empty table and an empty stack,
which are orderly (`Parser.orderly_firstScan`), and it closes with what its run has come to.
-/

namespace LeftPeg

variable {S M : Type}

/-- A match that its rule derives over its interval, and whose leaves tile that interval. -/
structure Match.Derived (grammar : Grammar S M) (input : Array S) (rule : RuleId) (position : Nat)
    (found : Match Tree) : Prop where
  start_eq : found.start = position
  start_le : position ≤ found.stop
  stop_le : found.stop ≤ input.size
  derives : Derives grammar input (.rule rule) position found.stop [found.value]
  tile : Tree.Tile position found.stop found.value.leaves

theorem Genuine.derived {grammar : Grammar S M} {input : Array S} {rule : RuleId} {position : Nat}
    {found : Match Tree} (h : Genuine grammar input rule position (.success found)) :
    found.Derived grammar input rule position where
  start_eq := h.1
  start_le := h.2.1
  stop_le := h.2.2.1
  derives := h.2.2.2
  tile := by
    have htile := h.2.2.2.tile
    rwa [Tree.leavesOfAll, Tree.leavesOfAll, List.append_nil] at htile

namespace Parser

variable [DecidableEq S] (parser : Parser S M)

/-- The scan that a parse starts from. -/
def firstScan (parser : Parser S M) (inputLength : Nat) (rule : RuleId) (start : Nat)
    (memory : M) : Scan Tree M :=
  Scan.record { toLedger := parser.ledger.reset, position := start, memory }
    (.started rule start inputLength)

theorem parse_eq_close (input : Array S) {rule : RuleId} (options : Options) (memory : M)
    (hrule : rule.index < parser.grammar.size) (hstart : options.start?.getD 0 ≤ input.size) :
    parser.parse input rule options memory =
      parser.close options input.size ((parser.engine input).invoke rule
        (parser.firstScan input.size rule (options.start?.getD 0) memory)) := by
  unfold parse
  rw [if_neg (by omega), if_neg (by omega)]
  rfl

theorem parse_of_size_le (input : Array S) {rule : RuleId} (options : Options) (memory : M)
    (hrule : parser.grammar.size ≤ rule.index) :
    parser.parse input rule options memory =
      { result := .error (.unknownRule rule.display), parser, memory, events := [] } := by
  unfold parse
  rw [if_pos hrule]

theorem parse_of_lt_start (input : Array S) {rule : RuleId} (options : Options) (memory : M)
    (hrule : rule.index < parser.grammar.size) (hstart : input.size < options.start?.getD 0) :
    parser.parse input rule options memory =
      { result := .error (.startOutOfBounds (options.start?.getD 0) input.size)
        parser := { parser with ledger := parser.ledger.reset }
        memory, events := [] } := by
  unfold parse
  rw [if_neg (by omega), if_pos hstart]

omit [DecidableEq S] in
theorem orderly_firstScan {kept : RuleId → Nat → Outcome Tree → Prop} {size start : Nat}
    (hstart : start ≤ size) (inputLength : Nat) (rule : RuleId) (memory : M) :
    (parser.firstScan inputLength rule start memory).Orderly kept size := by
  -- There is nothing yet that could be out of order.
  have hmemo : ∀ {r p entry},
      (MemoTable.empty : MemoTable Tree).find? r p = some entry → False := by
    intro r p entry hfind
    rw [MemoTable.find?_empty] at hfind
    exact nomatch hfind
  have hstack : ∀ {slot a}, parser.ledger.stack.reset.get? slot = some a → False := by
    intro slot a ha
    rw [ActivationStack.get?_eq, ActivationStack.toList_reset] at ha
    exact nomatch ha
  exact {
    position_le := hstart
    reached := fun ha => (hstack ha).elim
    forward := fun _ ha => (hstack ha).elim
    distinct := fun ha => (hstack ha).elim
    marked := fun ha => (hstack ha).elim
    seeded := fun ha => (hstack ha).elim
    owned := fun hfind => (hmemo hfind).elim
    apart := fun ha => (hstack ha).elim
    parents_lt := fun ha => (hstack ha).elim
    parents_here := fun ha => (hstack ha).elim
    memo_kept := fun hfind => (hmemo hfind).elim
    aside_kept := fun ha => (hstack ha).elim }

/-- The run of a parse comes to an answer that is no defect. -/
theorem comes_firstScan (hforms : parser.grammar.OfExpressions) (input : Array S) (rule : RuleId)
    {start : Nat} (hstart : start ≤ input.size) (memory : M) :
    Comes (Genuine parser.grammar input) input.size rule
      (parser.firstScan input.size rule start memory)
      ((parser.engine input).invoke rule
        (parser.firstScan input.size rule start memory)) :=
  (engine_reliable hforms input parser.config.maxDepth rule _
    (parser.orderly_firstScan hstart _ rule _)).1

/-- A parse concludes with a match of the start rule that reaches as far as it has to. -/
theorem conclude_eq_ok_iff {failures : FurthestFailure} {options : Options} {inputLength : Nat}
    {outcome : Outcome Tree} {found : Match Tree} :
    conclude failures options inputLength outcome = .ok found ↔
      outcome = .success found ∧ (options.wholeInput = true → found.stop = inputLength) := by
  cases outcome with
  | failure => simp [conclude]
  | success found' =>
    unfold conclude
    dsimp only
    split
    · rename_i hshort
      constructor
      · exact fun h => nomatch h
      · rintro ⟨hsame, hwhole⟩
        cases hsame
        exact absurd (hwhole hshort.1) hshort.2
    · rename_i hlong
      constructor
      · rintro ⟨⟩
        exact ⟨rfl, fun hwhole => Decidable.not_not.mp fun hne => hlong ⟨hwhole, hne⟩⟩
      · rintro ⟨hsame, -⟩
        cases hsame
        rfl

/-- An error that a parse concludes with is a fault of the input. -/
theorem isInputFault_of_conclude {failures : FurthestFailure} {options : Options}
    {inputLength : Nat} {outcome : Outcome Tree} {error : ParseError}
    (h : conclude failures options inputLength outcome = .error error) :
    error.isInputFault = true := by
  cases outcome with
  | failure =>
    injection h with h
    subst h
    unfold noMatch
    split <;> rfl
  | success found =>
    unfold conclude at h
    dsimp only at h
    split at h
    · injection h with h
      subst h
      unfold unconsumed
      split <;> rfl
    · exact nomatch h

/-- All that a parse finds is derived: the match that it returns, by the start rule, and every
match that the memo table holds at the end, by its rule. Only a parse that is refused, since its
start rule is not there, leaves a table behind that it has not made. -/
theorem parse_derives (hforms : parser.grammar.OfExpressions) (input : Array S) (rule : RuleId)
    (options : Options) (memory : M) :
    (∀ found, (parser.parse input rule options memory).result = .ok found →
      found.Derived parser.grammar input rule (options.start?.getD 0)) ∧
    ∀ r p found,
      (parser.parse input rule options memory).parser.ledger.memo.outcome? r p =
        some (.success found) →
      found.Derived parser.grammar input r p ∨
        parser.grammar.size ≤ rule.index ∧
          parser.ledger.memo.outcome? r p = some (.success found) := by
  by_cases hrule : rule.index < parser.grammar.size
  · by_cases hstart : options.start?.getD 0 ≤ input.size
    · rw [parser.parse_eq_close input options memory hrule hstart]
      have hcomes := parser.comes_firstScan hforms input rule hstart memory
      cases hrun : (parser.engine input).invoke rule
        (parser.firstScan input.size rule (options.start?.getD 0) memory) with
      | mk result scan =>
      rw [hrun] at hcomes
      cases hcomes with
      -- A run that is ended early still leaves nothing but genuine outcomes in the table.
      | error hsound hkeeps =>
        refine ⟨fun found hresult => (nomatch hresult), fun r p found hfind => ?_⟩
        exact .inl (hkeeps (MemoTable.outcome?_eq_some_iff.mp hfind)).derived
      | ok horderly hdepth hundisturbed hkept =>
        refine ⟨fun found hresult => ?_, fun r p found hfind => ?_⟩
        · obtain ⟨rfl, -⟩ := conclude_eq_ok_iff.mp hresult
          exact hkept.derived
        · exact .inl (horderly.memo_kept (MemoTable.outcome?_eq_some_iff.mp hfind)).derived
    · rw [parser.parse_of_lt_start input options memory hrule (by omega)]
      -- The table has been reset by then.
      refine ⟨fun found hresult => (nomatch hresult), fun r p found hfind => ?_⟩
      exact nomatch MemoTable.find?_empty.symm.trans
        (MemoTable.outcome?_eq_some_iff.mp hfind)
  · rw [parser.parse_of_size_le input options memory (by omega)]
    refine ⟨fun found hresult => (nomatch hresult), fun r p found hfind => ?_⟩
    exact .inr ⟨by omega, hfind⟩

end Parser

/-! ## A left-recursive grammar -/

/-- Letters in a row: `ells` is `ells "l"`, or else `"l"`. -/
def Grammar.ells : Grammar Char Unit :=
  ⟨[⟨"ells", .expression (.choice [.sequence [.rule ⟨0⟩, Expression.text "l"],
    Expression.text "l"])⟩]⟩

theorem Grammar.ells_ofExpressions : Grammar.ells.OfExpressions := by
  intro rule hrule
  rw [List.mem_singleton.mp hrule]
  exact ⟨_, rfl⟩

/-- Two letters are one match, and the match is derived. -/
theorem Parser.parse_derives_ells :
    ∃ found, ((Parser.new Grammar.ells {}).parse #['l', 'l'] ⟨0⟩ {} ()).result = .ok found ∧
      found.stop = 2 ∧ found.Derived Grammar.ells #['l', 'l'] ⟨0⟩ 0 := by
  have hstop : ((Parser.new Grammar.ells {}).parse #['l', 'l'] ⟨0⟩ {} ()).result.toOption.map
      Match.stop = some 2 := by
    decide +kernel
  have hderives := ((Parser.new Grammar.ells {}).parse_derives Grammar.ells_ofExpressions
    #['l', 'l'] ⟨0⟩ {} ()).1
  cases hresult : ((Parser.new Grammar.ells {}).parse #['l', 'l'] ⟨0⟩ {} ()).result with
  | error error =>
    rw [hresult] at hstop
    exact nomatch hstop
  | ok found =>
    rw [hresult] at hstop
    injection hstop with hstop
    exact ⟨found, rfl, hstop, hderives found hresult⟩

end LeftPeg
