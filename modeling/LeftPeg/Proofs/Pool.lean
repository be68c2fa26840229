import LeftPeg.Proofs.Forward
import LeftPeg.Proofs.Once
import LeftPeg.Proofs.Reuse

/-!
# The pool of slots

A slot of the pool is used again for one activation after another, and the pool only grows when all
of its slots are in use. So its size is that of the deepest stack it has had to hold, unless it was
larger at first. A parse keeps count of its greatest depth anyway, which makes the size of the pool
something that can be read off the metrics (`Parser.after_pool`): over any number of calls, whatever
comes of them, the pool is as large as it was at first or as the greatest depth on record, and no
activation is live between two calls.

Only one step of a run touches either of the two, the start of an activation (`Engine.Step.pool`),
and it is only made where the depth allowed has not been reached.
-/

namespace LeftPeg

variable {S V M : Type}

namespace ActivationStack

variable {stack : ActivationStack V} {slot : Nat}

/-! ## Changes of activations leave the pool as it is -/

@[simp] theorem capacity_modify (f : Activation V → Activation V) :
    (stack.modify slot f).capacity = stack.capacity := by
  unfold modify
  split <;> rfl

@[simp] theorem capacity_reenter : (stack.reenter slot).capacity = stack.capacity := by
  apply (capacity_modify _).trans
  rfl

@[simp] theorem capacity_report : (stack.report slot).capacity = stack.capacity := by
  have htold : ∀ (parents : List Nat) (involved : List RuleId) (stack : ActivationStack V),
      (parents.foldl (fun stack parent => stack.modify parent fun activation =>
        activation.involveAll involved) stack).capacity = stack.capacity := by
    intro parents involved
    induction parents with
    | nil => exact fun _ => rfl
    | cons parent rest ih => exact fun stack => (ih _).trans (capacity_modify _)
  unfold report
  split
  · rfl
  · exact (htold _ _ _).trans (capacity_modify _)

end ActivationStack

namespace Scan

variable {scan : Scan V M} {site : Site}

@[simp] theorem capacity_settle (scan : Scan V M) (site : Site) (attempt : Outcome V) :
    (scan.settle site attempt).2.stack.capacity = scan.stack.capacity :=
  settle_keeps_stack (·.capacity = scan.stack.capacity) rfl
    (fun _ _ _ _ => (ActivationStack.capacity_modify _).trans)
    (fun _ _ => ActivationStack.capacity_report.trans)

/-- A slot that is released goes back to the pool. -/
@[simp] theorem capacity_pop (scan : Scan V M) :
    scan.pop.2.stack.capacity = scan.stack.capacity := by
  unfold pop
  split
  · rename_i hpop
    exact (ActivationStack.pop_eq_ok hpop).2.1
  · rfl

/-- Neither the size of the pool nor the greatest depth on record is another. -/
structure SamePool (scan scan' : Scan V M) : Prop where
  capacity_eq : scan'.stack.capacity = scan.stack.capacity
  maxDepth_eq : scan'.metrics.maxDepth = scan.metrics.maxDepth

theorem samePool_reenter (scan : Scan V M) (site : Site) : scan.SamePool (scan.reenter site).2 := by
  unfold reenter
  split
  · exact ⟨ActivationStack.capacity_reenter, rfl⟩
  · exact ⟨rfl, rfl⟩

theorem samePool_settle (scan : Scan V M) (site : Site) (attempt : Outcome V) :
    scan.SamePool (scan.settle site attempt).2 :=
  ⟨capacity_settle scan site attempt, congrArg Metrics.maxDepth (metrics_settle scan site attempt)⟩

theorem samePool_dropMarker (scan : Scan V M) (site : Site) :
    scan.SamePool (scan.dropMarker site) := by
  obtain ⟨memo, hdrop⟩ := exists_dropMarker scan site
  rw [hdrop]
  exact ⟨rfl, rfl⟩

theorem samePool_pop (scan : Scan V M) : scan.SamePool scan.pop.2 :=
  ⟨capacity_pop scan, congrArg Metrics.maxDepth (metrics_pop scan)⟩

/-- The pool has grown from `capacity` to the greatest depth on record, which has not gone beyond
`limit`. -/
structure Pooled (capacity limit : Nat) (scan : Scan V M) : Prop where
  capacity_eq : scan.stack.capacity = max capacity scan.metrics.maxDepth
  maxDepth_le : scan.metrics.maxDepth ≤ limit

variable {scan' : Scan V M} {capacity limit : Nat}

theorem Pooled.of_same (h : scan.Pooled capacity limit) (hsame : scan.SamePool scan') :
    scan'.Pooled capacity limit := by
  constructor
  · rw [hsame.capacity_eq, hsame.maxDepth_eq]
    exact h.capacity_eq
  · rw [hsame.maxDepth_eq]
    exact h.maxDepth_le

/-- Both the pool and the record are made to hold one activation more. -/
theorem Pooled.enter (h : scan.Pooled capacity limit) (hdepth : scan.stack.depth < limit)
    (rule : RuleId) : (scan.enter (Engine.siteOf rule scan)).Pooled capacity limit := by
  have hcapacity : (scan.enter (Engine.siteOf rule scan)).stack.capacity =
      max scan.stack.capacity (scan.stack.depth + 1) := ActivationStack.capacity_push
  have hrecord : (scan.enter (Engine.siteOf rule scan)).metrics.maxDepth =
      max scan.metrics.maxDepth (scan.stack.depth + 1) := rfl
  constructor
  · rw [hcapacity, hrecord, h.capacity_eq, Nat.max_assoc]
  · rw [hrecord]
    exact Nat.max_le.mpr ⟨h.maxDepth_le, hdepth⟩

end Scan

namespace Engine

open Scan

variable {engine : Engine S V M} {room : Nat} {rule : RuleId} {scan scan' scan'' : Scan V M}

/-- What a step does to the pool: nothing, unless it starts an activation, and then there is room
for it. -/
theorem Step.pool (h : engine.Step room rule scan scan' scan'') (howned : scan.Owned) :
    scan'.SamePool scan'' ∨
      ∃ rule', scan'.stack.depth < room + scan.stack.depth ∧
        (scan'.enter (siteOf rule' scan')).SamePool scan'' := by
  cases h with
  | start hcalls hfree hbody =>
    refine .inr ⟨_, ?_, rfl, rfl⟩
    have hroom := hcalls.room_add_depth howned
    omega
  | hit hcalls hcell => exact .inl ⟨rfl, rfl⟩
  | reenter hcalls hcell => exact .inl (samePool_reenter _ _)
  | moveTo hcalls hopens hreaches => exact .inl ⟨rfl, rfl⟩
  | miss hcalls hopens hreaches => exact .inl ⟨rfl, rfl⟩
  | memorise hcalls hopens hreaches => exact .inl ⟨rfl, rfl⟩
  | settle hcalls hopens hrun => exact .inl (samePool_settle _ _ _)
  | countGrowth hcalls hopens hrun hsettle => exact .inl ⟨rfl, rfl⟩
  | again hcalls hopens hrun hsettle hagain => exact .inl ⟨rfl, rfl⟩
  | release hcalls hfree hbody hgrown => exact .inl (samePool_pop _)
  | unmark hcalls hfree hbody hgrown => exact .inl (samePool_dropMarker _ _)
  | abandon hcalls hfree hbody hgrown => exact .inl (samePool_pop _)

/-- Along a run the pool grows with the greatest depth, and neither goes beyond the room. -/
theorem Leads.pooled (h : engine.Leads room rule scan scan' scan'') (howned : scan.Owned)
    {capacity : Nat} (hpooled : scan'.Pooled capacity (room + scan.stack.depth)) :
    scan''.Pooled capacity (room + scan.stack.depth) := by
  induction h with
  | refl => exact hpooled
  | tail hleads hstep ih =>
    rcases hstep.pool howned with hsame | ⟨rule', hroom, hsame⟩
    · exact ih.of_same hsame
    · exact (ih.enter hroom rule').of_same hsame

end Engine

/-! ## Calls, one after another -/

namespace Parser

/-- No activation is live, and what the last run has recorded is within the pool and the depth
allowed. -/
structure Rested (parser : Parser S M) : Prop where
  depth_eq : parser.ledger.stack.depth = 0
  maxDepth_le : parser.ledger.metrics.maxDepth ≤ parser.config.maxDepth
  maxDepth_le_capacity : parser.ledger.metrics.maxDepth ≤ parser.ledger.stack.capacity

/-- The greatest depth on record after a call is made room for in the pool. -/
structure Pools (parser parser' : Parser S M) : Prop where
  rested : parser'.Rested
  capacity_eq : parser'.ledger.stack.capacity =
    max parser.ledger.stack.capacity parser'.ledger.metrics.maxDepth

theorem rested_new (grammar : Grammar S M) (config : Config) : (new grammar config).Rested :=
  ⟨rfl, Nat.zero_le _, Nat.zero_le _⟩

/-- A call that changes nothing has been made room for before. -/
theorem Rested.pools {parser : Parser S M} (h : parser.Rested) : parser.Pools parser :=
  ⟨h, (Nat.max_eq_left h.maxDepth_le_capacity).symm⟩

variable [DecidableEq S] {parser : Parser S M}

/-- The run of a parse starts with the pool as it is and nothing on record. -/
theorem pooled_lastScan (input : Array S) (rule : RuleId) (options : Options) (memory : M) :
    (parser.lastScan input rule options memory).Pooled parser.ledger.stack.capacity
      parser.config.maxDepth := by
  have hfirst : (parser.firstScan input.size rule (options.start?.getD 0) memory).Pooled
      parser.ledger.stack.capacity (parser.config.maxDepth +
        (parser.firstScan input.size rule (options.start?.getD 0) memory).stack.depth) := by
    constructor
    · exact ActivationStack.capacity_reset.trans (Nat.max_zero _).symm
    · exact Nat.zero_le _
  exact ((parser.engine input).leads_invokeWithin parser.config.maxDepth rule _).pooled
    (parser.owned_firstScan _ _ _ _) hfirst

/-- A parse leaves a pool that has made room for its greatest depth: also if it has been abandoned
at any depth, and if it has been refused. -/
theorem Rested.parse (h : parser.Rested) (input : Array S) (rule : RuleId) (options : Options)
    (memory : M) : parser.Pools (parser.parse input rule options memory).parser := by
  by_cases hrule : rule.index < parser.grammar.size
  · have hconfig := (parser.parse_unchanged input rule options memory).2
    have hdepth := (parser.parse_cleared input rule options memory hrule).1
    by_cases hstart : options.start?.getD 0 ≤ input.size
    · obtain ⟨hcapacity, hmaxDepth⟩ := parser.pooled_lastScan input rule options memory
      have hledger : (parser.parse input rule options memory).parser.ledger.stack.capacity =
            (parser.lastScan input rule options memory).stack.capacity ∧
          (parser.parse input rule options memory).parser.ledger.metrics =
            (parser.lastScan input rule options memory).metrics := by
        rw [parser.parse_eq_close input options memory hrule hstart]
        unfold lastScan
        -- A run that was abandoned has its stack reset, which keeps the pool.
        rcases (parser.engine input).invoke rule
          (parser.firstScan input.size rule (options.start?.getD 0) memory) with
          ⟨error | outcome, scan⟩
        · exact ⟨ActivationStack.capacity_reset, rfl⟩
        · exact ⟨rfl, rfl⟩
      rw [← hledger.1, ← hledger.2] at hcapacity
      rw [← hledger.2] at hmaxDepth
      refine ⟨⟨hdepth, hconfig ▸ hmaxDepth, ?_⟩, hcapacity⟩
      rw [hcapacity]
      exact Nat.le_max_right _ _
    -- The ledger is made ready before the start is looked at.
    · rw [parser.parse_of_lt_start input options memory hrule (by omega)]
      refine ⟨⟨rfl, Nat.zero_le _, Nat.zero_le _⟩, ?_⟩
      exact ActivationStack.capacity_reset.trans (Nat.max_zero _).symm
  -- Without a rule to start from not even that is done.
  · rw [parser.parse_of_size_le input options memory (by omega)]
    exact h.pools

theorem Rested.call (h : parser.Rested) (call : Call S M) :
    parser.Pools (parser.call call).parser := by
  unfold Parser.call
  split
  · exact h.parse _ _ _ _
  · unfold parseNamed
    split
    · exact h.parse _ _ _ _
    · exact h.pools

/-- The greatest number of activations live at once, as the metrics have it after each of the
calls. -/
def depths (parser : Parser S M) : List (Call S M) → List Nat
  | [] => []
  | call :: rest =>
    (parser.call call).parser.ledger.metrics.maxDepth :: (parser.call call).parser.depths rest

theorem Rested.after (h : parser.Rested) (calls : List (Call S M)) :
    (parser.after calls).Rested ∧
      (parser.after calls).ledger.stack.capacity =
        (parser.depths calls).foldl max parser.ledger.stack.capacity := by
  induction calls generalizing parser with
  | nil => exact ⟨h, rfl⟩
  | cons call rest ih =>
    obtain ⟨hrested, hcapacity⟩ := h.call call
    obtain ⟨hrested', hcapacity'⟩ := ih hrested
    refine ⟨hrested', hcapacity'.trans ?_⟩
    rw [hcapacity, depths, List.foldl_cons]

/-- Whatever calls a parser gets and whatever comes of them, afterwards no activation is live, the
greatest depth on record is not above the one allowed, and the pool has as many slots as the larger
one of the number it was made with and the greatest depth that any of the calls has left on
record. -/
theorem after_pool (grammar : Grammar S M) (config : Config) (calls : List (Call S M)) :
    let parser := new grammar config
    let ledger := (parser.after calls).ledger
    ledger.stack.depth = 0 ∧ ledger.metrics.maxDepth ≤ config.maxDepth ∧
      (config.stackCapacity :: parser.depths calls).max? = some ledger.stack.capacity := by
  intro parser ledger
  obtain ⟨hrested, hcapacity⟩ := (rested_new grammar config).after calls
  have hconfig : (parser.after calls).config = config := (parser.after_unchanged calls).2
  have hfirst : parser.ledger.stack.capacity = config.stackCapacity :=
    ActivationStack.capacity_withCapacity _
  refine ⟨hrested.depth_eq, hconfig ▸ hrested.maxDepth_le, ?_⟩
  rw [List.max?_cons', ← hfirst]
  exact congrArg some hcapacity.symm

/-- A parser that was made without slots has as many as the deepest of its parses has needed, also
after a call that was refused and one that could not start. -/
example :
    let calls : List (Call Char Unit) :=
      [⟨#['x', 'y'], .inr "word", {}, ()⟩, ⟨#['x', 'y'], .inl ⟨0⟩, {}, ()⟩,
        ⟨#['x'], .inl ⟨1⟩, { start? := some 2 }, ()⟩]
    let parser := new Grammar.pair { stackCapacity := 0 }
    parser.depths calls = [0, 2, 0] ∧ (parser.after calls).ledger.stack.capacity = 2 := by
  decide +kernel

end Parser

end LeftPeg
