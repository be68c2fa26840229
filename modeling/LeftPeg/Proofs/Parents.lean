import LeftPeg.Proofs.Once
import LeftPeg.Proofs.Remembering

/-!
# Parents are numbers of slots

An activation knows its parents by their slots, and slots are used again. A number that outlived the
activation it was meant for would let a cycle be reported to one that has nothing to do with it.

That cannot happen, whatever the bodies do. Parents are only recorded when something has come back
to an activation, for those above it (`Engine.Step.parents`), and as long as one of these is live
none below it is released. So a parent is still the activation that it was when it was recorded
(`Engine.Recorded`, `Engine.Leads.recorded`), and a report reaches the activations that it is for,
and no others (`ActivationStack.Reported`).
-/

namespace LeftPeg

variable {S V M : Type}

/-! ## The account of an activation -/

namespace Activation

variable {activation : Activation V} {slot parent : Nat}

/-- What is known of the activation in a slot: the rules involved and the parents are recorded once,
the rules are others than its own, and the parents are below. -/
structure Accounted (slot : Nat) (activation : Activation V) : Prop where
  involved_nodup : activation.involved.Nodup
  aloof : activation.Aloof
  parents_nodup : activation.parents.Nodup
  parents_lt : ∀ parent ∈ activation.parents, parent < slot

theorem nodup_involved_involveAll (rules : List RuleId) (h : activation.involved.Nodup) :
    (activation.involveAll rules).involved.Nodup := by
  induction rules generalizing activation with
  | nil => exact h
  | cons rule rest ih => exact ih (nodup_involved_involve rule h)

theorem nodup_parents_addParent (h : activation.parents.Nodup) (parent : Nat) :
    (activation.addParent parent).parents.Nodup := by
  unfold addParent
  split
  · exact h
  · rename_i hnew
    apply List.nodup_append.mpr
    refine ⟨h, by simp, ?_⟩
    rintro other hother _ hparent rfl
    exact hnew (List.mem_singleton.mp hparent ▸ hother)

theorem accounted_new (slot : Nat) (rule : RuleId) (position : Nat) :
    Accounted slot ({ rule, position } : Activation V) :=
  ⟨.nil, List.not_mem_nil, .nil, fun _ h => nomatch h⟩

theorem accounted_stable (slot : Nat) : @Stable V (Accounted slot) where
  involveAll {a} rules h := by
    refine ⟨nodup_involved_involveAll rules h.involved_nodup, aloof_stable.involveAll rules h.aloof,
      ?_, ?_⟩
    · simpa using h.parents_nodup
    · simpa using h.parents_lt
  forget h := { h with parents_nodup := .nil, parents_lt := fun _ hparent => nomatch hparent }
  atStage _ h := { h with }
  hold _ h := { h with }
  clear h := { h with involved_nodup := .nil, aloof := List.not_mem_nil }

theorem Accounted.addParent (h : activation.Accounted slot) (hlt : parent < slot) :
    (activation.addParent parent).Accounted slot where
  involved_nodup := by simpa using h.involved_nodup
  aloof := h.aloof.addParent parent
  parents_nodup := nodup_parents_addParent h.parents_nodup parent
  parents_lt other hother := by
    rcases mem_parents_addParent.mp hother with hold | rfl
    · exact h.parents_lt other hold
    · exact hlt

/-- Whatever becomes of an activation otherwise, its parents are among those that it had. -/
theorem parents_stable (Q : Nat → Prop) :
    @Stable V fun activation => ∀ parent ∈ activation.parents, Q parent where
  involveAll rules h := by simpa using h
  forget _ _ hparent := nomatch hparent
  atStage _ h := h
  hold _ h := h
  clear h := h

end Activation

/-! ## Reports -/

namespace ActivationStack

open Activation

variable {stack : ActivationStack V} {head activation : Activation V} {slot i : Nat}

/-- Each parent is told once, and the head forgets its parents. -/
theorem onReport_eq (hnodup : head.parents.Nodup) :
    onReport head slot i activation =
      let own := if slot = i then { activation with parents := [] } else activation
      if i ∈ head.parents then own.involveAll head.involved else own := by
  have htold : ∀ (parents : List Nat) (own : Activation V), parents.Nodup →
      parents.foldl (fun activation parent => if parent = i then
        activation.involveAll head.involved else activation) own =
      if i ∈ parents then own.involveAll head.involved else own := by
    intro parents
    induction parents with
    | nil => exact fun _ _ => rfl
    | cons parent rest ih =>
      intro own hnodup
      obtain ⟨hnew, hrest⟩ := List.nodup_cons.mp hnodup
      rw [List.foldl_cons, ih _ hrest]
      by_cases hparent : parent = i
      · subst hparent
        rw [if_pos rfl, if_neg hnew, if_pos List.mem_cons_self]
      · have hmem : i ∈ parent :: rest ↔ i ∈ rest := by simp [Ne.symm hparent]
        simp only [if_neg hparent, hmem]
  exact htold head.parents _ hnodup

/-- What a report by the activation in the slot does: each of its parents knows of all rules
involved, it has no parents any longer, and nothing else has changed. -/
structure Reported (stack : ActivationStack V) (slot : Nat) (head : Activation V) : Prop where
  told : ∀ parent ∈ head.parents, ∃ before after, stack.get? parent = some before ∧
    (stack.report slot).get? parent = some after ∧ after = before.involveAll head.involved ∧
    ∀ rule ∈ head.involved, rule ∈ after.involved ∨ rule = after.rule
  forgotten : (stack.report slot).get? slot = some { head with parents := [] }
  others : ∀ other, other ≠ slot → other ∉ head.parents →
    (stack.report slot).get? other = stack.get? other

theorem reported_of_get? (hget : stack.get? slot = some head) (hhead : head.Accounted slot) :
    stack.Reported slot head where
  told parent hparent := by
    have hlt := hhead.parents_lt parent hparent
    obtain ⟨before, hbefore⟩ := get?_of_lt_depth (Nat.lt_trans hlt (lt_depth_of_get? hget))
    have hafter : (stack.report slot).get? parent = some (before.involveAll head.involved) := by
      rw [get?_report hget, hbefore, Option.map_some, onReport_eq hhead.parents_nodup,
        if_neg (Nat.ne_of_gt hlt), if_pos hparent]
    refine ⟨before, _, hbefore, hafter, rfl, fun rule hrule => ?_⟩
    -- A parent takes in every rule but its own.
    rw [mem_involved_involveAll, (sameCall_involveAll before _).rule_eq]
    by_cases hown : rule = before.rule
    · exact .inr hown
    · exact .inl (.inr ⟨hrule, hown⟩)
  forgotten := by
    have hown : slot ∉ head.parents := fun h => Nat.lt_irrefl _ (hhead.parents_lt slot h)
    rw [get?_report hget, hget, Option.map_some, onReport_eq hhead.parents_nodup, if_pos rfl,
      if_neg hown]
  others other hne hother := by
    rw [get?_report hget]
    cases stack.get? other with
    | none => rfl
    | some activation =>
      rw [Option.map_some, onReport_eq hhead.parents_nodup, if_neg (Ne.symm hne), if_neg hother]

end ActivationStack

/-! ## Steps -/

namespace Scan

variable {scan : Scan V M} {site : Site}

theorem keys_settle (scan : Scan V M) (site : Site) (attempt : Outcome V) :
    (scan.settle site attempt).2.stack.keys = scan.stack.keys :=
  settle_keeps_stack (·.keys = scan.stack.keys) rfl
    (fun _ _ _ hkey => (ActivationStack.keys_modify hkey).trans)
    (fun _ _ => ActivationStack.keys_report.trans)

theorem keys_reenter (scan : Scan V M) (site : Site) :
    (scan.reenter site).2.stack.keys = scan.stack.keys := by
  unfold reenter
  split
  · exact ActivationStack.keys_reenter
  · rfl

end Scan

namespace Engine

open Scan

variable {engine : Engine S V M} {room : Nat} {rule : RuleId} {scan scan' scan'' : Scan V M}
  {slot parent : Nat} {a : Activation V} {rule' : RuleId}

/-- An activation that is live before a step and after it is the same one, of the same key. -/
theorem Step.getElem?_keys (h : engine.Step room rule scan scan' scan'')
    (hbefore : slot < scan'.stack.depth) (hafter : slot < scan''.stack.depth) :
    scan''.stack.keys[slot]? = scan'.stack.keys[slot]? := by
  have hpop : ∀ scan : Scan V M, slot < scan.pop.2.stack.depth →
      scan.pop.2.stack.keys[slot]? = scan.stack.keys[slot]? := by
    intro scan hlive
    obtain ⟨a, ha⟩ := ActivationStack.get?_of_lt_depth hlive
    rw [ActivationStack.getElem?_keys, ActivationStack.getElem?_keys, ha, get?_of_pop ha]
  cases h with
  -- A new activation comes on top, and those that were live are below it.
  | start hcalls hfree hbody =>
    show (scan'.stack.push _ _).keys[slot]? = _
    rw [ActivationStack.keys_push, List.getElem?_append_left]
    rwa [ActivationStack.length_keys]
  | reenter hcalls hcell => rw [keys_reenter]
  | settle hcalls hopens hrun => rw [keys_settle]
  | unmark hcalls hfree hbody hgrown =>
    obtain ⟨memo, hdrop⟩ := exists_dropMarker scan' _
    rw [hdrop]
  | release hcalls hfree hbody hgrown => exact hpop _ hafter
  | abandon hcalls hfree hbody hgrown => exact hpop _ hafter
  | _ => rfl

/-- A parent was one before the step, unless the step comes back to it: then it is below. -/
theorem Step.parents (h : engine.Step room rule scan scan' scan'')
    (ha : scan''.stack.get? slot = some a) (hparent : parent ∈ a.parents) :
    (∃ b, scan'.stack.get? slot = some b ∧ parent ∈ b.parents) ∨
      ∃ room' rule', engine.Calls room rule scan room' rule' scan' ∧
        scan'.memo.find? rule' scan'.position = some (.inProgress parent) ∧ parent < slot ∧
        scan'' = (scan'.reenter ⟨rule', scan'.position, parent⟩).2 := by
  -- In all steps but the one that comes back, an activation keeps to the parents that it has.
  let Had (parent : Nat) : Prop := ∃ b, scan'.stack.get? slot = some b ∧ parent ∈ b.parents
  have hstable := @Activation.parents_stable V Had
  have hhas : scan'.Has (fun b => ∀ parent ∈ b.parents, Had parent) slot :=
    fun b hb parent hparent => ⟨b, hb, hparent⟩
  cases h with
  | reenter hcalls hcell =>
    rename_i room' other rule'
    unfold Scan.reenter at ha
    split at ha
    -- Those above the activation that the cycle came back to get it as a parent.
    · have hget : (scan'.stack.reenter other).get? slot = some a := ha
      rw [ActivationStack.get?_reenter] at hget
      obtain ⟨b, hb, rfl⟩ := Option.map_eq_some_iff.mp hget
      unfold ActivationStack.onReenter at hparent
      split at hparent
      · exact .inl ⟨b, hb, by simpa [Activation.atStage] using hparent⟩
      · split at hparent
        · rename_i hlt
          rcases Activation.mem_parents_addParent.mp hparent with hold | rfl
          · exact .inl ⟨b, hb, hold⟩
          · exact .inr ⟨room', rule', hcalls, hcell, hlt, rfl⟩
        · exact .inl ⟨b, hb, hparent⟩
    · exact .inl ⟨a, ha, hparent⟩
  | start hcalls hfree hbody =>
    have hnew : ∀ rule position, ∀ parent ∈ ({ rule, position } : Activation V).parents, Had parent :=
      fun _ _ _ hnone => absurd hnone List.not_mem_nil
    exact .inl (hhas.enter hnew _ a ha parent hparent)
  | settle hcalls hopens hrun => exact .inl (hhas.settle hstable _ _ a ha parent hparent)
  | release hcalls hfree hbody hgrown => exact .inl (hhas.pop a ha parent hparent)
  | unmark hcalls hfree hbody hgrown => exact .inl (hhas.dropMarker _ a ha parent hparent)
  | abandon hcalls hfree hbody hgrown => exact .inl (hhas.pop a ha parent hparent)
  | _ => exact .inl ⟨a, ha, hparent⟩

/-! ## Runs -/

/-- The run goes from the first scan on to the second one, and all the way the activation in the
slot is live. As activations are released one at a time and the last one first, it has not been
released on the way, nor has any below it. -/
def StaysLive (engine : Engine S V M) (room : Nat) (rule : RuleId) (scan : Scan V M) (slot : Nat) :
    Scan V M → Scan V M → Prop :=
  Relation.ReflTransGen fun before after =>
    engine.Step room rule scan before after ∧ slot < after.stack.depth

/-- The activations up to the one that stays live keep their keys. -/
theorem StaysLive.getElem?_keys (h : engine.StaysLive room rule scan slot scan' scan'')
    (hlive : slot < scan'.stack.depth) :
    slot < scan''.stack.depth ∧
      ∀ i ≤ slot, scan''.stack.keys[i]? = scan'.stack.keys[i]? := by
  induction h with
  | refl => exact ⟨hlive, fun _ _ => rfl⟩
  | tail hstays hstep ih =>
    refine ⟨hstep.2, fun i hi => ?_⟩
    have hsame := hstep.1.getElem?_keys (Nat.lt_of_le_of_lt hi ih.1)
      (Nat.lt_of_le_of_lt hi hstep.2)
    exact hsame.trans (ih.2 i hi)

/-- On the scan `back` an invocation came back to the activation in the slot `parent`, which became
a parent of the one in `slot` by that. From there to the scan `now`, both have been live. -/
structure Recorded (engine : Engine S V M) (room : Nat) (rule : RuleId) (scan : Scan V M)
    (slot parent : Nat) (rule' : RuleId) (back now : Scan V M) : Prop where
  leads : engine.Leads room rule scan scan back
  calls : ∃ room', engine.Calls room rule scan room' rule' back
  marker : back.memo.find? rule' back.position = some (.inProgress parent)
  parent_lt : parent < slot
  live : slot < back.stack.depth
  before : ∀ b, back.stack.get? slot = some b → parent ∉ b.parents
  after : ∃ b, (back.reenter ⟨rule', back.position, parent⟩).2.stack.get? slot = some b ∧
    parent ∈ b.parents
  stays : engine.StaysLive room rule scan slot
    (back.reenter ⟨rule', back.position, parent⟩).2 now

/-- They are the activations that they were, and so are all below them. -/
theorem Recorded.getElem?_keys {back now : Scan V M}
    (h : engine.Recorded room rule scan slot parent rule' back now) :
    ∀ i ≤ slot, now.stack.keys[i]? = back.stack.keys[i]? := by
  have hkeys := keys_reenter back ⟨rule', back.position, parent⟩
  have hlive : slot < (back.reenter ⟨rule', back.position, parent⟩).2.stack.depth := by
    rw [← ActivationStack.length_keys, hkeys, ActivationStack.length_keys]
    exact h.live
  intro i hi
  rw [(h.stays.getElem?_keys hlive).2 i hi, hkeys]

/-- Every parent in a run was recorded on the way, and has been live since. -/
theorem Leads.recorded (h : engine.Leads room rule scan scan scan') (hempty : scan.stack.depth = 0)
    (ha : scan'.stack.get? slot = some a) (hparent : parent ∈ a.parents) :
    ∃ rule' back, engine.Recorded room rule scan slot parent rule' back scan' := by
  induction h generalizing a with
  | refl =>
    have hlive := ActivationStack.lt_depth_of_get? ha
    omega
  | @tail before after hleads hstep ih =>
    have hlive := ActivationStack.lt_depth_of_get? ha
    by_cases hold : ∃ b, before.stack.get? slot = some b ∧ parent ∈ b.parents
    -- It was recorded earlier, and neither of the two has been released by this step.
    · obtain ⟨b, hb, hmem⟩ := hold
      obtain ⟨rule', back, hrecorded⟩ := ih hb hmem
      exact ⟨rule', back, { hrecorded with stays := .tail hrecorded.stays ⟨hstep, hlive⟩ }⟩
    · obtain ⟨room', rule', hcalls, hcell, hlt, rfl⟩ :=
        (hstep.parents ha hparent).resolve_left hold
      have hkeys := keys_reenter before ⟨rule', before.position, parent⟩
      refine ⟨rule', before, hleads, ⟨room', hcalls⟩, hcell, hlt, ?_, ?_, ⟨a, ha, hparent⟩, .refl⟩
      · rwa [← ActivationStack.length_keys, hkeys, ActivationStack.length_keys] at hlive
      · exact fun b hb hmem => hold ⟨b, hb, hmem⟩

/-- The account of every activation in a run is in order. -/
theorem Leads.accounted (h : engine.Leads room rule scan scan scan')
    (hempty : scan.stack.depth = 0) (ha : scan'.stack.get? slot = some a) : a.Accounted slot := by
  have hkept : Kept (fun scan : Scan V M => scan.Has (Activation.Accounted slot) slot) _ :=
    (Activation.accounted_stable slot).kept slot (Activation.accounted_new slot)
      fun _ _ hlt h => h.addParent hlt
  refine hkept.leads h (fun b hb => ?_) a ha
  have hlive := ActivationStack.lt_depth_of_get? hb
  omega

end Engine

namespace Parser

variable [DecidableEq S]

/-- Whatever the bodies do, in every scan of the run of a parse the account of a live activation is
in order: the rules involved are distinct and others than its own, and its parents are distinct
slots below it. Each of them is live, and was live, with this activation above it, from when it was
recorded. If the activation reports, each parent knows of all rules involved that are not its own,
the activation has the same rules involved and no parents any longer, and all other slots are as
they were. -/
theorem parse_parents (parser : Parser S M) (input : Array S) (rule : RuleId) (options : Options)
    (memory : M) (scan : Scan Tree M)
    (hleads : parser.Leads input rule options memory
      (parser.firstScan input.size rule (options.start?.getD 0) memory) scan) :
    ∀ slot head, scan.stack.get? slot = some head →
      head.involved.Nodup ∧ head.rule ∉ head.involved ∧ head.parents.Nodup ∧
      (∀ parent ∈ head.parents, parent < slot ∧ scan.stack.isLive parent = true ∧
        ∃ rule' back, (parser.engine input).Recorded parser.config.maxDepth rule
            (parser.firstScan input.size rule (options.start?.getD 0) memory) slot parent rule' back
            scan ∧
          ∀ i ≤ slot, scan.stack.keys[i]? = back.stack.keys[i]?) ∧
      (∀ parent ∈ head.parents, ∃ before after, scan.stack.get? parent = some before ∧
        (scan.stack.report slot).get? parent = some after ∧
        after = before.involveAll head.involved ∧
        ∀ rule' ∈ head.involved, rule' ∈ after.involved ∨ rule' = after.rule) ∧
      (scan.stack.report slot).get? slot = some { head with parents := [] } ∧
      ∀ other, other ≠ slot → other ∉ head.parents →
        (scan.stack.report slot).get? other = scan.stack.get? other := by
  intro slot head hget
  have haccounted : head.Accounted slot := Engine.Leads.accounted hleads rfl hget
  obtain ⟨htold, hforgotten, hothers⟩ := ActivationStack.reported_of_get? hget haccounted
  refine ⟨haccounted.involved_nodup, haccounted.aloof, haccounted.parents_nodup, ?_, htold,
    hforgotten, hothers⟩
  intro parent hparent
  have hlt := haccounted.parents_lt parent hparent
  obtain ⟨rule', back, hrecorded⟩ := Engine.Leads.recorded hleads rfl hget hparent
  refine ⟨hlt, ?_, rule', back, hrecorded, hrecorded.getElem?_keys⟩
  obtain ⟨b, hb⟩ := ActivationStack.get?_of_lt_depth
    (Nat.lt_trans hlt (ActivationStack.lt_depth_of_get? hget))
  rw [ActivationStack.isLive_iff, hb]
  rfl

end Parser

/-- A cycle within a cycle: the middle rule comes back to the outer one, and then the inner rule to
the middle one. -/
def Grammar.nested : Grammar Char Unit :=
  ⟨[⟨"outer", .procedure (Procedure.apply ⟨1⟩)⟩,
    ⟨"middle", .procedure do
      let _ ← Procedure.attempt ⟨0⟩
      Procedure.apply ⟨2⟩⟩,
    ⟨"inner", .procedure (Procedure.apply ⟨1⟩)⟩]⟩

/-- When the inner rule has come back, the middle one has the outer one as its parent, which does not
know of the inner rule until it is told. -/
theorem Parser.parse_parents_nested :
    let parser := new Grammar.nested { maxDepth := 3 }
    let engine := parser.engine #['x']
    let first := parser.firstScan 1 ⟨0⟩ 0 ()
    let outer := (first.enter ⟨⟨0⟩, 0, 0⟩).beginAttempt ⟨⟨0⟩, 0, 0⟩
    let middle := (outer.enter ⟨⟨1⟩, 0, 1⟩).beginAttempt ⟨⟨1⟩, 0, 1⟩
    let turned := (engine.invokeWithin 1 ⟨0⟩ middle).2
    let inner := (turned.enter ⟨⟨2⟩, 0, 2⟩).beginAttempt ⟨⟨2⟩, 0, 2⟩
    let last := (inner.reenter ⟨⟨1⟩, 0, 1⟩).2
    parser.Leads #['x'] ⟨0⟩ {} () first last ∧
    ∃ head, last.stack.get? 1 = some head ∧ head.parents = [0] ∧ head.involved = [⟨2⟩] ∧
      (∃ rule back, engine.Recorded 3 ⟨0⟩ first 1 0 rule back last ∧
        ∀ i ≤ 1, last.stack.keys[i]? = back.stack.keys[i]?) ∧
      ∃ before after, last.stack.get? 0 = some before ∧ ⟨2⟩ ∉ before.involved ∧
        (last.stack.report 1).get? 0 = some after ∧ ⟨2⟩ ∈ after.involved := by
  intro parser engine first outer middle turned inner last
  have houter : engine.Opens 2 ⟨0⟩ first (Procedure.apply ⟨1⟩) outer :=
    ⟨by decide +kernel, rfl, _, _, rfl, .refl⟩
  have hmiddle : engine.Opens 1 ⟨1⟩ outer _ middle := ⟨by decide +kernel, rfl, _, _, rfl, .refl⟩
  have hinner : engine.Opens 0 ⟨2⟩ turned (Procedure.apply ⟨1⟩) inner :=
    ⟨by decide +kernel, rfl, _, _, rfl, .refl⟩
  have hcalls : engine.Calls 3 ⟨0⟩ first 0 ⟨1⟩ inner :=
    ((Engine.Calls.here.inside houter .here).inside hmiddle (.later .here)).inside hinner .here
  have hleads : parser.Leads #['x'] ⟨0⟩ {} () first last :=
    .tail hcalls.leads.1 (.reenter hcalls rfl)
  have hmiddle? : (last.stack.get? 1).map (fun head => (head.parents, head.involved)) =
      some ([0], [⟨2⟩]) := by
    decide +kernel
  have houter? : (last.stack.get? 0).map Activation.involved = some [⟨1⟩] := by
    decide +kernel
  obtain ⟨head, hget, hhead⟩ := Option.map_eq_some_iff.mp hmiddle?
  obtain ⟨hparents, hinvolved⟩ := Prod.mk.inj hhead
  obtain ⟨-, -, -, hrecorded, htold, -⟩ := parse_parents parser #['x'] ⟨0⟩ {} () last hleads 1 head
    hget
  have hparent : 0 ∈ head.parents := by simp [hparents]
  obtain ⟨before, after, hbefore, hafter, rfl, hknows⟩ := htold 0 hparent
  refine ⟨hleads, head, hget, hparents, hinvolved, (hrecorded 0 hparent).2.2, before, _, hbefore, ?_,
    hafter, ?_⟩
  · rw [hbefore] at houter?
    simp [Option.some.inj houter?]
  · have hrule : (before.involveAll head.involved).rule = ⟨0⟩ := by
      have hkey : (last.stack.get? 0).map Activation.rule = some ⟨0⟩ := by decide +kernel
      rw [hbefore] at hkey
      exact (before.sameCall_involveAll _).rule_eq.trans (Option.some.inj hkey)
    refine (hknows ⟨2⟩ (by simp [hinvolved])).resolve_right fun hown => ?_
    cases hown.trans hrule

end LeftPeg
