import Mathlib.Data.List.Perm.Subperm
import Mathlib.Data.List.ProdSigma
import LeftPeg.Proofs.Balance
import LeftPeg.Proofs.Strict

/-!
# Forward only

Expressions never move back behind the place where they started, and they hand errors on. So every
invocation in the run of a parse is made on an orderly scan (`Parser.Calls.marching`), and the keys
under evaluation form a march: they are distinct, and their positions rise from the start of the
parse to the end of its input. There are only so many such keys, which bounds the depth, and with
it the depth that a parse has to be allowed (`Parser.parse_forward`).
-/

namespace LeftPeg

/-! ## Marches -/

/-- The keys under evaluation, bottom first, of a grammar with so many rules: each of them at most
once, from `start` on and never back. -/
structure Marching (rules start size : Nat) (keys : List MemoKey) : Prop where
  nodup : keys.Nodup
  rising : keys.Pairwise fun key key' => key.position ≤ key'.position
  rule_lt : ∀ key ∈ keys, key.rule.index < rules
  start_le : ∀ key ∈ keys, start ≤ key.position
  le_size : ∀ key ∈ keys, key.position ≤ size

/-- There are only so many keys of a grammar with so many rules between two positions. -/
theorem MemoKey.length_le {rules start size : Nat} {keys : List MemoKey} (hnodup : keys.Nodup)
    (hrule : ∀ key ∈ keys, key.rule.index < rules) (hstart : ∀ key ∈ keys, start ≤ key.position)
    (hsize : ∀ key ∈ keys, key.position ≤ size) : keys.length ≤ rules * (size - start + 1) := by
  have hpairs : (keys.map fun key => (key.rule.index, key.position)).Nodup := by
    refine List.Pairwise.map _ (fun key key' hne => ?_) hnodup
    obtain ⟨⟨rule⟩, position⟩ := key
    obtain ⟨⟨rule'⟩, position'⟩ := key'
    simpa using hne
  have hsubset : (keys.map fun key => (key.rule.index, key.position)) ⊆
      List.range rules ×ˢ List.range' start (size - start + 1) := by
    intro pair hpair
    obtain ⟨key, hkey, rfl⟩ := List.mem_map.mp hpair
    have hstart := hstart key hkey
    have hsize := hsize key hkey
    refine List.pair_mem_product.mpr ⟨List.mem_range.mpr (hrule key hkey), ?_⟩
    rw [List.mem_range'_1]
    omega
  have hlength := (List.subperm_of_subset hpairs hsubset).length_le
  rwa [List.length_map, List.length_product, List.length_range, List.length_range'] at hlength

/-- A march is no longer than there are keys. -/
theorem Marching.length_le {rules start size : Nat} {keys : List MemoKey}
    (h : Marching rules start size keys) : keys.length ≤ rules * (size - start + 1) :=
  MemoKey.length_le h.nodup h.rule_lt h.start_le h.le_size

/-- Nor has a table more cells than there are keys. -/
theorem MemoTable.size_le {V : Type} {table : MemoTable V} {rules start size : Nat}
    (h : ∀ rule position, table.find? rule position ≠ none →
      rule.index < rules ∧ start ≤ position ∧ position ≤ size) :
    table.size ≤ rules * (size - start + 1) := by
  have hcell : ∀ key ∈ table.cells.keys,
      key.rule.index < rules ∧ start ≤ key.position ∧ key.position ≤ size := by
    intro key hkey
    rw [Std.TreeMap.mem_keys, Std.TreeMap.mem_iff_isSome_getElem?] at hkey
    exact h key.rule key.position (Option.isSome_iff_ne_none.mp hkey)
  have hnodup : table.cells.keys.Nodup := by
    refine Std.TreeMap.distinct_keys.imp fun {key key'} hne hsame => hne ?_
    rw [MemoKey.compare_eq_iff]
    exact hsame
  rw [MemoTable.size, ← Std.TreeMap.length_keys]
  exact MemoKey.length_le hnodup (fun key hkey => (hcell key hkey).1)
    (fun key hkey => (hcell key hkey).2.1) fun key hkey => (hcell key hkey).2.2

section

variable {V M : Type} {kept : RuleId → Nat → Outcome V → Prop} {rules start size : Nat}
  {scan : Scan V M}

/-- The keys under evaluation in an orderly scan march. -/
theorem Scan.Orderly.marching (h : scan.Orderly kept size)
    (hrules : ∀ key ∈ scan.stack.keys, key.rule.index < rules)
    (hstart : ∀ key ∈ scan.stack.keys, start ≤ key.position) :
    Marching rules start size scan.stack.keys := by
  have hget : ∀ {i key}, scan.stack.keys[i]? = some key →
      ∃ a, scan.stack.get? i = some a ∧ a.key = key := by
    intro i key hkey
    rw [ActivationStack.getElem?_keys] at hkey
    exact Option.map_eq_some_iff.mp hkey
  refine ⟨?_, ?_, hrules, hstart, ?_⟩
  · refine List.pairwise_iff_getElem.mpr fun i j hi hj hij hsame => ?_
    obtain ⟨a, ha, hakey⟩ := hget (List.getElem?_eq_getElem hi)
    obtain ⟨b, hb, hbkey⟩ := hget (List.getElem?_eq_getElem hj)
    have hkeys : a.key = b.key := hakey.trans (hsame.trans hbkey.symm)
    injection hkeys with hrule hposition
    have := h.distinct ha hb hrule hposition
    omega
  · refine List.pairwise_iff_getElem.mpr fun i j hi hj hij => ?_
    obtain ⟨a, ha, hakey⟩ := hget (List.getElem?_eq_getElem hi)
    obtain ⟨b, hb, hbkey⟩ := hget (List.getElem?_eq_getElem hj)
    rw [← hakey, ← hbkey]
    exact h.forward (Nat.le_of_lt hij) ha hb
  · intro key hkey
    obtain ⟨i, hi⟩ := List.mem_iff_getElem?.mp hkey
    obtain ⟨a, ha, rfl⟩ := hget hi
    exact Nat.le_trans (h.reached ha) h.position_le

end

/-! ## Orderly scans throughout -/

namespace Engine

open Scan

variable {S V M : Type} {kept : RuleId → Nat → Outcome V → Prop} {size : Nat} {site : Site}
  {evaluate : Scan V M → Answer V M (Outcome V)} {scan scan' : Scan V M}

/-- A round that does not settle the activation has extended its match. -/
theorem round_grown {scan₁ scan₂ : Scan V M} {attempt : Outcome V} {a : Activation V}
    (hspan : Spanned kept size) (hevaluate : Dependable kept size site.rule evaluate)
    (hwork : Working site scan a) (horderly : scan.Orderly kept size)
    (hrun : evaluate (scan.beginAttempt site) = (.ok attempt, scan₁))
    (hsettle : scan₁.settle site attempt = (.ok none, scan₂)) :
    ∃ found, Grown kept size site scan scan₂.countGrowth found := by
  have hbegun : Working site (scan.beginAttempt site) a := { hwork with }
  have hcomes := hevaluate _ (hwork.beginAttempt horderly) hbegun.currentRule
  rw [hrun] at hcomes
  obtain ⟨horderly₁, hkept, hbelow, b, hwork₁, -⟩ := hwork.evaluated hcomes
  rcases settle_spec hwork₁ horderly₁ hspan hkept with
    ⟨outcome, scan₃, hanswered, -⟩ | ⟨found, scan₃, -, hextended, hgrown, -⟩
  · exact nomatch hsettle.symm.trans hanswered
  · obtain ⟨-, rfl⟩ := Prod.mk.inj (hsettle.symm.trans hextended)
    obtain ⟨c, hwork₂, hstage⟩ := hgrown.growing
    exact ⟨found, { hgrown with
      growing := ⟨c, { hwork₂ with }, hstage⟩
      undisturbed := LeftPeg.Undisturbed.trans hbelow hgrown.undisturbed }⟩

/-- Each round of growth begins and ends in order, with the activation at work on top. -/
theorem Rounds.working {attempts left : Nat} {a : Activation V} (hspan : Spanned kept size)
    (hevaluate : Dependable kept size site.rule evaluate)
    (h : Rounds evaluate site attempts scan left scan') (hwork : Working site scan a)
    (horderly : scan.Orderly kept size) :
    scan'.Orderly kept size ∧ scan.Undisturbed site.slot scan' ∧ ∃ b, Working site scan' b := by
  refine h.keeps (fun scan' => scan'.Orderly kept size ∧ scan.Undisturbed site.slot scan' ∧
    ∃ b, Working site scan' b) ?_ ⟨horderly, LeftPeg.Undisturbed.refl, a, hwork⟩
  rintro scan scan₁ scan₂ attempt ⟨horderly, hbelow, b, hwork⟩ hrun hsettle
  obtain ⟨found, hgrown⟩ := round_grown hspan hevaluate hwork horderly hrun hsettle
  exact ⟨hgrown.orderly, LeftPeg.Undisturbed.trans hbelow hgrown.undisturbed,
    hgrown.growing.imp fun _ h => h.1⟩

/-- Once the match has been extended, each further round extends it. -/
theorem Rounds.grown {attempts left : Nat} {scan₀ : Scan V M} {found : Match V}
    (hspan : Spanned kept size) (hevaluate : Dependable kept size site.rule evaluate)
    (h : Rounds evaluate site attempts scan left scan')
    (hgrown : Grown kept size site scan₀ scan found) :
    ∃ found', Grown kept size site scan₀ scan' found' := by
  refine h.keeps (fun scan => ∃ found, Grown kept size site scan₀ scan found) ?_ ⟨found, hgrown⟩
  rintro scan scan₁ scan₂ attempt ⟨found, hgrown⟩ hrun hsettle
  obtain ⟨a, hwork, -⟩ := hgrown.growing
  obtain ⟨found', hgrown'⟩ := round_grown hspan hevaluate hwork hgrown.orderly hrun hsettle
  exact ⟨found', { hgrown' with
    undisturbed := LeftPeg.Undisturbed.trans hgrown.undisturbed hgrown'.undisturbed }⟩

/-- A rule that starts is at work at once. -/
theorem working_enter {rule : RuleId} (horderly : scan.Orderly kept size)
    (hfree : scan.memo.find? rule scan.position = none) :
    (scan.enter (siteOf rule scan)).Orderly kept size ∧
      Working (siteOf rule scan) (scan.enter (siteOf rule scan))
        { rule, position := scan.position } :=
  ⟨Orderly.enter horderly hfree, rfl, ActivationStack.get?_push.trans (if_pos rfl), rfl, rfl⟩

/-- An attempt begins in order. -/
theorem Opens.orderly {engine : Engine S V M} {room : Nat} {rule : RuleId}
    {body : Procedure S V M (Outcome V)} {begun : Scan V M}
    (hspan : Spanned kept engine.input.size)
    (hbody : Dependable kept engine.input.size rule
      (body.run engine.input (engine.invokeWithin room)))
    (h : engine.Opens room rule scan body begun) (horderly : scan.Orderly kept engine.input.size) :
    begun.Orderly kept engine.input.size ∧ begun.currentRule = some rule := by
  obtain ⟨left, scan', rfl, hrounds⟩ := h.rounds
  obtain ⟨hentered, hwork⟩ := working_enter horderly h.free
  obtain ⟨horderly', -, b, hwork'⟩ := hrounds.working hspan hbody hwork hentered
  have hbegun : Working (siteOf rule scan) (scan'.beginAttempt (siteOf rule scan)) b :=
    { hwork' with }
  exact ⟨hwork'.beginAttempt horderly', hbegun.currentRule⟩

/-- Each activation takes one place of the room. -/
theorem Calls.room_add_depth {engine : Engine S V M} {room room' : Nat} {rule rule' : RuleId}
    (h : engine.Calls room rule scan room' rule' scan') (howned : scan.Owned) :
    room' + scan'.stack.depth = room + scan.stack.depth := by
  induction h with
  | here => rfl
  | inside h hopens hinvokes ih =>
    have hkeys := (hopens.balanced (h.owned howned) hinvokes.passes).keys_eq
    rw [← ih, ← ActivationStack.length_keys, hkeys, List.length_append,
      ActivationStack.length_keys, List.length_singleton]
    omega

end Engine

variable {S M : Type} [DecidableEq S]

/-- A rule whose body is an expression invokes rules on orderly scans only. -/
theorem Scan.Orderly.of_invokes {grammar : Grammar S M} {input : Array S} {rule rule' : RuleId}
    {form : Expression S} {invoke : Invoke Tree M} {scan scan' : Scan Tree M}
    (hbody : grammar.body? rule = some (.expression form))
    (hinvoke : Reliable (Genuine grammar input) input.size invoke)
    (horderly : scan.Orderly (Genuine grammar input) input.size)
    (hrule : scan.currentRule = some rule)
    (h : form.toProcedure.Invokes input invoke scan rule' scan') :
    scan'.Orderly (Genuine grammar input) input.size := by
  -- Refusing the other scans makes no difference to a reliable way to answer invocations.
  have hguarded : Reliable (Genuine grammar input) input.size
      (Procedure.guarded (Scan.Orderly (Genuine grammar input) input.size)
        (.defect .stackUnderflow) invoke) := by
    intro rule scan horderly
    unfold Procedure.guarded
    rw [if_pos horderly]
    exact hinvoke rule scan horderly
  have hcomes := dependable_toProcedure hbody hguarded scan horderly hrule
  refine form.strict_toProcedure.of_guarded (.defect .stackUnderflow) ?_ h
  intro hrefused
  generalize form.toProcedure.run input _ scan = answer at hcomes hrefused
  cases hcomes with
  | error hsound hkeeps => exact hsound _ (Except.error.inj hrefused)
  | ok horderly hdepth hundisturbed hkept => exact nomatch hrefused

namespace Parser

variable {parser : Parser S M} {input : Array S} {rule rule' : RuleId} {options : Options}
  {memory : M} {room : Nat} {scan : Scan Tree M}

/-- A scan on which a parse invokes a rule. -/
structure Marches (parser : Parser S M) (input : Array S) (start : Nat) (scan : Scan Tree M) :
    Prop where
  orderly : scan.Orderly (Genuine parser.grammar input) input.size
  start_le : start ≤ scan.position
  marching : Marching parser.grammar.size start input.size scan.stack.keys

omit [DecidableEq S] in
theorem Marches.owned {start : Nat} (h : parser.Marches input start scan) : scan.Owned :=
  fun _ _ _ => h.orderly.owned

/-- A rule that starts joins the march. -/
theorem Marches.enter {start : Nat} (h : parser.Marches input start scan)
    (hfree : scan.memo.find? rule scan.position = none)
    (hbody : ((parser.engine input).body? rule).isSome) :
    Marching parser.grammar.size start input.size
      (scan.stack.keys ++ [⟨rule, scan.position⟩]) := by
  have hentered : (scan.enter (Engine.siteOf rule scan)).Orderly (Genuine parser.grammar input)
      input.size := Orderly.enter h.orderly hfree
  have hkeys : (scan.enter (Engine.siteOf rule scan)).stack.keys =
      scan.stack.keys ++ [⟨rule, scan.position⟩] := ActivationStack.keys_push _ _
  obtain ⟨body, hbody⟩ := Option.isSome_iff_exists.mp hbody
  obtain ⟨form, hform, -⟩ := Option.map_eq_some_iff.mp hbody
  rw [← hkeys]
  refine hentered.marching ?_ ?_
  · intro key hkey
    rw [hkeys, List.mem_append, List.mem_singleton] at hkey
    rcases hkey with hkey | rfl
    · exact h.marching.rule_lt key hkey
    · exact Grammar.index_lt_of_body? hform
  · intro key hkey
    rw [hkeys, List.mem_append, List.mem_singleton] at hkey
    rcases hkey with hkey | rfl
    · exact h.marching.start_le key hkey
    · exact h.start_le

/-- Every invocation in the run of a parse is made on the march. -/
theorem Calls.marches (hforms : parser.grammar.OfExpressions)
    (hstart : options.start?.getD 0 ≤ input.size)
    (h : parser.Calls input rule options memory room rule' scan) :
    parser.Marches input (options.start?.getD 0) scan := by
  unfold Parser.Calls at h
  induction h with
  | here =>
    refine ⟨parser.orderly_firstScan hstart _ _ _, Nat.le_refl _, ?_⟩
    exact ⟨.nil, .nil, fun _ hkey => (nomatch hkey), fun _ hkey => (nomatch hkey),
      fun _ hkey => nomatch hkey⟩
  | @inside room' rule' rule'' scan' begun scan'' body h hopens hinvokes ih =>
    obtain ⟨form, rfl, hform⟩ := body?_engine hforms hopens.body_eq
    have hreliable := engine_reliable hforms input room'
    obtain ⟨hbegun, hrule⟩ := hopens.orderly genuine_spanned
      (dependable_toProcedure hform hreliable) ih.orderly
    have horderly := Scan.Orderly.of_invokes hform hreliable hbegun hrule hinvokes
    have hkeys := (hopens.balanced ih.owned hinvokes.passes).keys_eq
    refine ⟨horderly, ?_, ?_⟩
    -- The activation on top has begun at or behind the start, and the scan is not before it.
    · have htop : scan''.stack.keys[scan'.stack.keys.length]? =
          some ⟨rule', scan'.position⟩ := by
        rw [hkeys, List.getElem?_append_right (Nat.le_refl _), Nat.sub_self]
        rfl
      rw [ActivationStack.getElem?_keys] at htop
      obtain ⟨a, ha, hkey⟩ := Option.map_eq_some_iff.mp htop
      have hposition : a.position = scan'.position := congrArg MemoKey.position hkey
      exact Nat.le_trans ih.start_le (hposition ▸ horderly.reached ha)
    · rw [hkeys]
      exact ih.enter hopens.free (Option.isSome_of_eq_some hopens.body_eq)

/-- So does every scan that occurs in it. -/
theorem Occurs.marching (hforms : parser.grammar.OfExpressions)
    (hstart : options.start?.getD 0 ≤ input.size)
    (h : parser.Occurs input rule options memory scan) :
    Marching parser.grammar.size (options.start?.getD 0) input.size scan.stack.keys := by
  -- Each scan has the keys of an invocation, or those and the key of its activation.
  have hmarches : ∀ {room' rule' scan'},
      parser.Calls input rule options memory room' rule' scan' →
      parser.Marches input (options.start?.getD 0) scan' :=
    fun hcalls => Calls.marches hforms hstart hcalls
  cases h with
  | called h => exact (hmarches h).marching
  | answered h =>
    rw [((parser.engine input).invokeWithin_balanced _ _ _ (hmarches h).owned).keys_eq]
    exact (hmarches h).marching
  | entered h hfree hbody =>
    rw [((hmarches h).owned.enter _).keys_eq]
    exact (hmarches h).enter hfree hbody
  | evaluating h hopens hpasses =>
    rw [(hopens.balanced (hmarches h).owned hpasses).keys_eq]
    exact (hmarches h).enter hopens.free (Option.isSome_of_eq_some hopens.body_eq)
  | settled h hopens hrun =>
    have hbusy := hopens.balanced (hmarches h).owned (Procedure.passes_of_run hrun)
    rw [(hbusy.owned.settle hbusy.live _).balanced.keys_eq, hbusy.keys_eq]
    exact (hmarches h).enter hopens.free (Option.isSome_of_eq_some hopens.body_eq)
  | unmarked h hfree hbody hgrow =>
    have hbusy := Engine.busy_growUpTo ((parser.engine input).invokeWithin_balanced _)
      ((hmarches h).owned.enter _) hgrow
    rw [hbusy.1.dropMarker.1.keys_eq]
    exact (hmarches h).enter hfree (Option.isSome_of_eq_some hbody)

/-! ## Coming back -/

/-- An invocation that comes back to an activation comes back to its own rule at its own position.
All activations above that one began at this position, and the rules that it is told of are those
whose keys they have there. -/
theorem Marches.reenter {start slot : Nat} (h : parser.Marches input start scan)
    (hmarker : scan.memo.find? rule scan.position = some (.inProgress slot)) :
    ∃ head head', scan.stack.get? slot = some head ∧ head.key = ⟨rule, scan.position⟩ ∧
      (∀ a ∈ scan.stack.above slot, a.position = scan.position) ∧
      ((parser.engine input).invokeWithin room rule scan).2.stack.get? slot = some head' ∧
      ∀ other, other ∈ head'.involved ↔ other ∈ head.involved ∨
        ⟨other, scan.position⟩ ∈ (scan.stack.above slot).map Activation.key := by
  obtain ⟨head, hhead, hrule, hposition⟩ := h.owned hmarker
  have habove : ∀ a ∈ scan.stack.above slot, a.position = scan.position := by
    intro a ha
    obtain ⟨i, hlt, hi⟩ := ActivationStack.mem_above_iff.mp ha
    have hle := h.orderly.forward (Nat.le_of_lt hlt) hhead hi
    exact Nat.le_antisymm (h.orderly.reached hi) (hposition ▸ hle)
  -- The rule of the head is not among those above it, for they are all at its position.
  have hother : ∀ a ∈ scan.stack.above slot, a.rule ≠ rule := by
    intro a ha hsame
    obtain ⟨i, hlt, hi⟩ := ActivationStack.mem_above_iff.mp ha
    have := h.orderly.distinct hhead hi (hrule.trans hsame.symm)
      (hposition.trans (habove a ha).symm)
    omega
  have hanswer : ((parser.engine input).invokeWithin room rule scan).2.stack =
      scan.stack.reenter slot := by
    rw [Engine.invokeWithin_of_inProgress hmarker]
    unfold Scan.reenter
    rw [if_pos (by rw [hhead]; simpa using hrule)]
    rfl
  refine ⟨head, scan.stack.onReenter slot slot head, hhead, ?_, habove, ?_, fun other => ?_⟩
  · rw [Activation.key, hrule, hposition]
  · rw [hanswer, ActivationStack.get?_reenter, hhead]
    rfl
  · unfold ActivationStack.onReenter
    rw [if_pos rfl]
    show other ∈ (head.involveAll _).involved ↔ _
    rw [Activation.mem_involved_involveAll]
    refine or_congr_right ⟨?_, ?_⟩
    · rintro ⟨hmem, -⟩
      obtain ⟨a, ha, rfl⟩ := List.mem_map.mp hmem
      exact List.mem_map.mpr ⟨a, ha, by rw [Activation.key, habove a ha]⟩
    · intro hmem
      obtain ⟨a, ha, hkey⟩ := List.mem_map.mp hmem
      have hsame : a.rule = other := congrArg MemoKey.rule hkey
      refine ⟨List.mem_map.mpr ⟨a, ha, hsame⟩, ?_⟩
      rw [← hsame, hrule]
      exact hother a ha

/-! ## Depth enough -/

/-- An invocation runs out of room where a rule with a body and without a cell is invoked without
any. -/
theorem exists_calls_of_tooDeep (hforms : parser.grammar.OfExpressions) (howned : scan.Owned)
    {limit index : Nat}
    (h : ((parser.engine input).invokeWithin room rule scan).1 = .error (.tooDeep limit index)) :
    ∃ rule' scan', (parser.engine input).Calls room rule scan 0 rule' scan' ∧
      scan'.memo.find? rule' scan'.position = none ∧
      ((parser.engine input).body? rule').isSome := by
  induction room generalizing rule scan with
  | zero =>
    cases Engine.fails_of_error howned h with
    | tooDeep hfree hbody => exact ⟨rule, scan, .here, hfree, hbody⟩
  | succ room ih =>
    cases Engine.fails_of_error howned h with
    | aborted hopens hrun =>
      obtain ⟨form, rfl, -⟩ := body?_engine hforms hopens.body_eq
      -- An expression has no such error of its own.
      rcases form.strict_toProcedure.source hrun with ⟨name, hname⟩ | ⟨rule₁, scan₁, hinvokes, h₁⟩
      · exact nomatch hname
      · obtain ⟨rule', scan', hcalls, hfree, hbody⟩ :=
          ih (hopens.balanced howned hinvokes.passes).owned h₁
        exact ⟨rule', scan', (Engine.Calls.here.inside hopens hinvokes).trans hcalls, hfree, hbody⟩

/-- In a parse of a grammar of expressions, no key is under evaluation twice, and the positions of
the keys under evaluation rise from the start of the parse on; so their number is bounded, and a
parse that is allowed that depth is not too deep. An invocation that comes back to an activation
finds nothing above it but activations of its position, and those are what its rule gets involved
with there. -/
theorem parse_forward (parser : Parser S M) (hforms : parser.grammar.OfExpressions)
    (input : Array S) (rule : RuleId) (options : Options) (memory : M) :
    (options.start?.getD 0 ≤ input.size →
      (∀ scan, parser.Occurs input rule options memory scan →
        scan.stack.keys.Nodup ∧
        (scan.stack.keys.Pairwise fun key key' => key.position ≤ key'.position) ∧
        (∀ key ∈ scan.stack.keys,
          options.start?.getD 0 ≤ key.position ∧ key.position ≤ input.size) ∧
        scan.stack.depth ≤ parser.grammar.size * (input.size - options.start?.getD 0 + 1)) ∧
      ∀ room rule' scan slot, parser.Calls input rule options memory room rule' scan →
        scan.memo.find? rule' scan.position = some (.inProgress slot) →
        ∃ head head', scan.stack.get? slot = some head ∧ head.key = ⟨rule', scan.position⟩ ∧
          (∀ a ∈ scan.stack.above slot, a.position = scan.position) ∧
          ((parser.engine input).invokeWithin room rule' scan).2.stack.get? slot = some head' ∧
          ∀ other, other ∈ head'.involved ↔ other ∈ head.involved ∨
            ⟨other, scan.position⟩ ∈ (scan.stack.above slot).map Activation.key) ∧
    (parser.grammar.size * (input.size - options.start?.getD 0 + 1) ≤ parser.config.maxDepth →
      ∀ limit index,
        (parser.parse input rule options memory).result ≠ .error (.tooDeep limit index)) := by
  refine ⟨fun hstart => ⟨fun scan hoccurs => ?_, fun room rule' scan slot hcalls hmarker => ?_⟩,
    fun hdeep limit index hresult => ?_⟩
  · have hmarching := Occurs.marching hforms hstart hoccurs
    refine ⟨hmarching.nodup, hmarching.rising, fun key hkey => ?_, ?_⟩
    · exact ⟨hmarching.start_le key hkey, hmarching.le_size key hkey⟩
    · rw [← ActivationStack.length_keys]
      exact hmarching.length_le
  · exact (Calls.marches hforms hstart hcalls).reenter hmarker
  · by_cases hrule : rule.index < parser.grammar.size
    · by_cases hstart : options.start?.getD 0 ≤ input.size
      · rw [parser.parse_eq_close input options memory hrule hstart] at hresult
        have howned := parser.owned_firstScan input.size rule (options.start?.getD 0) memory
        have htooDeep : ((parser.engine input).invokeWithin parser.config.maxDepth rule
            (parser.firstScan input.size rule (options.start?.getD 0) memory)).1 =
            .error (.tooDeep limit index) := by
          show ((parser.engine input).invoke rule _).1 = _
          generalize (parser.engine input).invoke rule
            (parser.firstScan input.size rule (options.start?.getD 0) memory) = answer at hresult
          obtain ⟨error | outcome, scan⟩ := answer
          · exact congrArg _ (Except.error.inj hresult)
          · exact nomatch isInputFault_of_conclude hresult
        -- Where the room has run out, the rule asked for would be one key too many.
        obtain ⟨rule', scan', hcalls, hfree, hbody⟩ :=
          exists_calls_of_tooDeep hforms howned htooDeep
        have hlength := ((Calls.marches hforms hstart hcalls).enter hfree hbody).length_le
        have hroom := hcalls.room_add_depth howned
        have hempty : (parser.firstScan input.size rule (options.start?.getD 0)
          memory).stack.depth = 0 := rfl
        rw [List.length_append, ActivationStack.length_keys, List.length_singleton] at hlength
        omega
      · rw [parser.parse_of_lt_start input options memory hrule (by omega)] at hresult
        exact nomatch hresult
    · rw [parser.parse_of_size_le input options memory (by omega)] at hresult
      exact nomatch hresult

/-- Two letters need three activations at most, and with as many the parse is not too deep. -/
theorem parse_forward_ells :
    Grammar.ells.OfExpressions ∧
    (∀ scan, (new Grammar.ells { maxDepth := 3 }).Occurs #['l', 'l'] ⟨0⟩ {} () scan →
      scan.stack.depth ≤ 3) ∧
    ∀ limit index, ((new Grammar.ells { maxDepth := 3 }).parse #['l', 'l'] ⟨0⟩ {} ()).result ≠
      .error (.tooDeep limit index) := by
  have hforward := (new Grammar.ells { maxDepth := 3 }).parse_forward Grammar.ells_ofExpressions
    #['l', 'l'] ⟨0⟩ {} ()
  refine ⟨Grammar.ells_ofExpressions, fun scan hoccurs => ?_, hforward.2 (by decide)⟩
  exact ((hforward.1 (by decide)).1 scan hoccurs).2.2.2

end Parser

end LeftPeg
