import LeftPeg.Proofs.Forward
import LeftPeg.Proofs.Recursions
import LeftPeg.Proofs.Remembering
import LeftPeg.Proofs.Reports
import LeftPeg.Proofs.Stepwise

/-!
# Evaluated once

What a memo table is for: in a run that comes back to no activation and has no errors, each rule is
evaluated at most once at each position. Nothing else is assumed of the bodies, which may go anywhere
in the input and ask for any rule there.

Without a way back an activation stays plain, so that its first attempt is its answer
(`Engine.settle_of_flat`), and by then its marker still stands (`Engine.marked_of_flat`). That leaves
three things that a step can do to the table (`Scan.Proceeds`): nothing, write a marker into a cell
that is free, or write the answer in the place of its marker. What holds of the whole parse is read
off these three along its path (`Parser.parse_once`).
-/

namespace LeftPeg

variable {S V M : Type}

/-! ## Evaluations on record -/

/-- The event is an evaluation of the rule at the position. -/
def Event.evaluates (rule : RuleId) (position : Nat) : Event → Bool
  | .attempted rule' position' .. => rule' = rule ∧ position' = position
  | _ => false

namespace Scan

variable {scan scan' : Scan V M} {site : Site} {attempt : Outcome V}

/-- How often the rule has been evaluated at the position so far. -/
def evaluationsOf (scan : Scan V M) (rule : RuleId) (position : Nat) : Nat :=
  scan.history.countP (Event.evaluates rule position)

theorem evaluationsOf_record (scan : Scan V M) (event : Event) (rule : RuleId) (position : Nat) :
    (scan.record event).evaluationsOf rule position =
      scan.evaluationsOf rule position + if event.evaluates rule position then 1 else 0 :=
  List.countP_cons

/-! ## Plain activations -/

/-- An attempt of an activation that nothing has come back to is its answer. -/
theorem settle_plain {a : Activation V} (hget : scan.stack.get? site.slot = some a)
    (hplain : a.stage = .plain) :
    scan.settle site attempt =
      (scan.record (.attempted site.rule site.position site.slot .plain .accept attempt.stop?
        (scan.best? site))).accept site attempt := by
  rw [settle_eq hget, hplain, Verdict.of_plain]
  rfl

/-- As long as nothing has come back to an activation, all activations are plain. -/
def Plain (scan : Scan V M) : Prop :=
  scan.metrics.recursions = 0 → ∀ slot a, scan.stack.get? slot = some a → a.stage = .plain

theorem Plain.pop (h : scan.Plain) : scan.pop.2.Plain := by
  intro hflat slot a ha
  obtain ⟨stack, hpop⟩ := exists_pop scan
  rw [hpop] at hflat
  exact h hflat slot a (get?_of_pop ha)

theorem kept_plain : Kept (Plain : Scan V M → Prop) fun _ => True where
  moveTo _ := id
  miss _ h := h
  memorise _ := id
  hit _ h := h
  reenter {scan} site h := by
    unfold Scan.reenter
    split
    · exact fun hflat => (Nat.succ_ne_zero _ hflat).elim
    · exact h
  enter {scan} rule h _ := by
    refine ⟨trivial, fun hflat slot a ha => ?_⟩
    have hpush : (scan.stack.push rule scan.position).get? slot = some a := ha
    rw [ActivationStack.get?_push] at hpush
    split at hpush
    · cases hpush
      rfl
    · exact h hflat slot a hpush
  beginAttempt _ h := h
  settle {scan site} attempt _ h := by
    intro hflat slot a ha
    rw [metrics_settle] at hflat
    cases hget : scan.stack.get? site.slot with
    | none =>
      rw [settle_of_get?_eq_none hget] at ha
      exact h hflat slot a ha
    | some head =>
      rw [settle_plain hget (h hflat site.slot head hget)] at ha
      exact h hflat slot a ha
  countGrowth h := h
  dropMarker {scan site} _ h := by
    obtain ⟨memo, hdrop⟩ := exists_dropMarker scan site
    rw [hdrop]
    exact h
  pop h := h.pop

/-- The counts of recursions and of growth never go down. -/
theorem kept_counts (recursions growths : Nat) :
    Kept (fun scan : Scan V M => recursions ≤ scan.metrics.recursions ∧
      growths ≤ scan.metrics.growths) fun _ => True where
  moveTo _ := id
  miss _ h := h
  memorise _ := id
  hit _ h := h
  reenter site h := by
    unfold Scan.reenter
    split
    · exact ⟨Nat.le_succ_of_le h.1, h.2⟩
    · exact h
  enter _ h _ := ⟨trivial, h⟩
  beginAttempt _ h := h
  settle attempt _ h := by rwa [metrics_settle]
  countGrowth h := ⟨h.1, Nat.le_succ_of_le h.2⟩
  dropMarker {scan site} _ h := by
    obtain ⟨memo, hdrop⟩ := exists_dropMarker scan site
    rwa [hdrop]
  pop {scan} h := by
    obtain ⟨stack, hpop⟩ := exists_pop scan
    rwa [hpop]

/-! ## What a step does to the table -/

/-- What one step of a run can do that comes back to no activation and has no errors: it leaves the
table as it is, marks a cell that was free for one of the keys `called`, or puts an answer in the
place of a marker. -/
inductive Proceeds (called : RuleId → Nat → Prop) (scan scan' : Scan V M) : Prop where
  | stays (hmemo : scan'.memo = scan.memo)
      (hmetrics : scan'.metrics.evaluations = scan.metrics.evaluations)
      (hof : ∀ rule position, scan'.evaluationsOf rule position = scan.evaluationsOf rule position)
  | starts {rule : RuleId} {position slot : Nat} (hcalled : called rule position)
      (hfree : scan.memo.find? rule position = none)
      (hmemo : scan'.memo = scan.memo.put rule position (.inProgress slot))
      (hmetrics : scan'.metrics.evaluations = scan.metrics.evaluations + 1)
      (hof : ∀ rule' position',
        scan'.evaluationsOf rule' position' = scan.evaluationsOf rule' position')
  | answers {rule : RuleId} {position slot : Nat} {answer : Outcome V}
      (hmarker : scan.memo.find? rule position = some (.inProgress slot))
      (hmemo : scan'.memo = scan.memo.put rule position (.finished answer))
      (hmetrics : scan'.metrics.evaluations = scan.metrics.evaluations)
      (hof : ∀ rule' position', scan'.evaluationsOf rule' position' =
        scan.evaluationsOf rule' position' + if rule = rule' ∧ position = position' then 1 else 0)

variable {called : RuleId → Nat → Prop} {rule : RuleId} {position : Nat} {outcome : Outcome V}

/-- An outcome stays. -/
theorem Proceeds.find?_finished (h : Proceeds called scan scan')
    (hcell : scan.memo.find? rule position = some (.finished outcome)) :
    scan'.memo.find? rule position = some (.finished outcome) := by
  cases h with
  | stays hmemo hmetrics hof => rwa [hmemo]
  | starts hcalled hfree hmemo hmetrics hof =>
    rw [hmemo, MemoTable.find?_put, if_neg, hcell]
    rintro ⟨rfl, rfl⟩
    cases hfree.symm.trans hcell
  | answers hmarker hmemo hmetrics hof =>
    rw [hmemo, MemoTable.find?_put, if_neg, hcell]
    rintro ⟨rfl, rfl⟩
    cases hmarker.symm.trans hcell

/-- A new cell is for a key that has been called. -/
theorem Proceeds.called_of_cell (h : Proceeds called scan scan')
    (hcell : scan'.memo.find? rule position ≠ none) :
    scan.memo.find? rule position ≠ none ∨ called rule position := by
  cases h with
  | stays hmemo hmetrics hof =>
    rw [hmemo] at hcell
    exact .inl hcell
  | starts hcalled hfree hmemo hmetrics hof =>
    rw [hmemo, MemoTable.find?_put] at hcell
    split at hcell
    · rename_i hkey
      obtain ⟨rfl, rfl⟩ := hkey
      exact .inr hcalled
    · exact .inl hcell
  | answers hmarker hmemo hmetrics hof =>
    rw [hmemo, MemoTable.find?_put] at hcell
    split at hcell
    · rename_i hkey
      obtain ⟨rfl, rfl⟩ := hkey
      exact .inl (by rw [hmarker]; exact Option.some_ne_none _)
    · exact .inl hcell

/-- As many evaluations have begun as there are cells, and one has come to an answer for each
outcome in the table. -/
structure Single (scan : Scan V M) : Prop where
  evaluations_eq : scan.metrics.evaluations = scan.memo.size
  evaluationsOf_eq : ∀ rule position, scan.evaluationsOf rule position =
    if (scan.memo.outcome? rule position).isSome then 1 else 0

theorem Single.proceeds (h : scan.Single) (hproceeds : Proceeds called scan scan') :
    scan'.Single := by
  cases hproceeds with
  | stays hmemo hmetrics hof =>
    refine ⟨?_, fun rule position => ?_⟩
    · rw [hmetrics, hmemo, h.evaluations_eq]
    · rw [hof, hmemo, h.evaluationsOf_eq]
  | @starts rule position slot hcalled hfree hmemo hmetrics hof =>
    refine ⟨?_, fun rule' position' => ?_⟩
    · simp [hmetrics, hmemo, MemoTable.size_put, hfree, h.evaluations_eq]
    -- Neither a free cell nor one with a marker has an outcome.
    · rw [hof, hmemo, h.evaluationsOf_eq]
      by_cases hkey : rule = rule' ∧ position = position'
      · obtain ⟨rfl, rfl⟩ := hkey
        simp [MemoTable.outcome?, hfree, Entry.outcome?]
      · unfold MemoTable.outcome?
        rw [MemoTable.find?_put, if_neg hkey]
  | @answers rule position slot answer hmarker hmemo hmetrics hof =>
    refine ⟨?_, fun rule' position' => ?_⟩
    · simp [hmetrics, hmemo, MemoTable.size_put, hmarker, h.evaluations_eq]
    · rw [hof, hmemo, h.evaluationsOf_eq]
      by_cases hkey : rule = rule' ∧ position = position'
      · obtain ⟨rfl, rfl⟩ := hkey
        simp [MemoTable.outcome?, hmarker, Entry.outcome?]
      · unfold MemoTable.outcome?
        rw [MemoTable.find?_put, if_neg hkey, if_neg hkey, Nat.add_zero]

end Scan

/-! ## Runs without a way back -/

/-- The scan of a run that has yet to begin. -/
structure Scan.Fresh (scan : Scan V M) : Prop where
  memo_eq : scan.memo = .empty
  depth_eq : scan.stack.depth = 0
  metrics_eq : scan.metrics = {}
  unevaluated : ∀ rule position, scan.evaluationsOf rule position = 0

theorem Scan.Fresh.owned {scan : Scan V M} (h : scan.Fresh) : scan.Owned := by
  intro rule position slot hmarker
  rw [h.memo_eq, MemoTable.find?_empty] at hmarker
  cases hmarker

theorem Scan.Fresh.single {scan : Scan V M} (h : scan.Fresh) : scan.Single := by
  refine ⟨?_, fun rule position => ?_⟩
  · rw [h.memo_eq, h.metrics_eq, MemoTable.size_empty]
  · rw [h.unevaluated, h.memo_eq]
    simp [MemoTable.outcome?]

namespace Engine

open Scan

variable {engine : Engine S V M} {room room' : Nat} {rule rule' : RuleId}
  {scan scan' begun ended scan'' : Scan V M} {body : Procedure S V M (Outcome V)}
  {attempt : Outcome V}

/-- Each invocation in the run comes to an outcome. -/
def Untroubled (engine : Engine S V M) (room : Nat) (rule : RuleId) (scan : Scan V M) : Prop :=
  ∀ ⦃room' rule' scan'⦄, engine.Calls room rule scan room' rule' scan' →
    ∃ outcome, (engine.invokeWithin room' rule' scan').1 = .ok outcome

/-- The rule is invoked at the position in the run, with a body that can be evaluated. -/
def Called (engine : Engine S V M) (room : Nat) (rule : RuleId) (scan : Scan V M)
    (rule' : RuleId) (position : Nat) : Prop :=
  (engine.body? rule').isSome ∧ ∃ room' scan', engine.Calls room rule scan room' rule' scan' ∧
    scan'.position = position

/-- A run that starts with no activation live has plain activations only, as long as it has come
back to none of them. -/
theorem Leads.plain (h : engine.Leads room rule scan scan scan') (hfresh : scan.Fresh) :
    scan'.Plain := by
  refine kept_plain.leads h fun _ slot a ha => ?_
  have hslot := ActivationStack.lt_depth_of_get? ha
  rw [hfresh.depth_eq] at hslot
  omega

/-- The end of an attempt is on the way of the run. -/
theorem Opens.leads_ended (h : engine.Calls room rule scan (room' + 1) rule' scan')
    (hopens : engine.Opens room' rule' scan' body begun)
    (hrun : body.run engine.input (engine.invokeWithin room') begun = (.ok attempt, ended)) :
    engine.Leads room rule scan scan ended :=
  h.leads.1.trans (hopens.leads h (Procedure.passes_of_run hrun)).1

/-- The first attempt of an activation that nothing has come back to is its answer. -/
theorem settle_of_flat (h : engine.Calls room rule scan (room' + 1) rule' scan')
    (hopens : engine.Opens room' rule' scan' body begun)
    (hrun : body.run engine.input (engine.invokeWithin room') begun = (.ok attempt, ended))
    (hfresh : scan.Fresh) (hflat : ended.metrics.recursions = 0) :
    ended.settle (siteOf rule' scan') attempt =
      (ended.record (.attempted rule' scan'.position scan'.stack.depth .plain .accept
        attempt.stop? (ended.best? (siteOf rule' scan')))).accept (siteOf rule' scan') attempt := by
  have hbusy := hopens.balanced (h.owned hfresh.owned) (Procedure.passes_of_run hrun)
  obtain ⟨a, ha, -⟩ := hbusy.exists_get?
  exact settle_plain ha ((hopens.leads_ended h hrun).plain hfresh hflat _ a ha)

/-- So no attempt is followed by another one. -/
theorem settle_ne_none_of_flat (h : engine.Calls room rule scan (room' + 1) rule' scan')
    (hopens : engine.Opens room' rule' scan' body begun)
    (hrun : body.run engine.input (engine.invokeWithin room') begun = (.ok attempt, ended))
    (hfresh : scan.Fresh) (hflat : scan''.metrics.recursions = 0) :
    ended.settle (siteOf rule' scan') attempt ≠ (.ok none, scan'') := by
  intro hsettle
  have hmetrics := metrics_settle ended (siteOf rule' scan') attempt
  rw [hsettle] at hmetrics
  rw [settle_of_flat h hopens hrun hfresh (hmetrics ▸ hflat)] at hsettle
  cases hsettle

/-- Without a way back nothing grows. -/
theorem Step.growths_eq (h : engine.Step room rule scan scan' scan'') (hfresh : scan.Fresh)
    (hflat : scan''.metrics.recursions = 0) :
    scan''.metrics.growths = scan'.metrics.growths := by
  cases h with
  | hit hcalls hcell => rfl
  | reenter hcalls hcell =>
    unfold Scan.reenter
    split <;> rfl
  | start hcalls hfree hbody => rfl
  | moveTo hcalls hopens hreaches => rfl
  | miss hcalls hopens hreaches => rfl
  | memorise hcalls hopens hreaches => rfl
  | settle hcalls hopens hrun => rw [metrics_settle]
  | countGrowth hcalls hopens hrun hsettle =>
    exact absurd hsettle (settle_ne_none_of_flat hcalls hopens hrun hfresh hflat)
  | again hcalls hopens hrun hsettle hagain => rfl
  | release hcalls hfree hbody hgrown =>
    obtain ⟨stack, hpop⟩ := exists_pop scan'
    rw [hpop]
  | @unmark _ rule' called _ _ _ hcalls hfree hbody hgrown =>
    obtain ⟨memo, hdrop⟩ := exists_dropMarker scan' (siteOf rule' called)
    rw [hdrop]
  | @abandon _ rule' called ended _ _ hcalls hfree hbody hgrown =>
    obtain ⟨stack, hpop⟩ := exists_pop (ended.dropMarker (siteOf rule' called))
    rw [hpop]

/-- A scan that leads to one without recursions has none. -/
theorem Leads.recursions_eq (h : engine.Leads room rule scan scan' scan'')
    (hflat : scan''.metrics.recursions = 0) : scan'.metrics.recursions = 0 := by
  have hle := ((kept_counts scan'.metrics.recursions 0).leads h ⟨Nat.le_refl _, Nat.zero_le _⟩).1
  omega

theorem Leads.growths_eq (h : engine.Leads room rule scan scan' scan'') (hfresh : scan.Fresh)
    (hflat : scan''.metrics.recursions = 0) :
    scan''.metrics.growths = scan'.metrics.growths := by
  induction h with
  | refl => rfl
  | tail hleads hstep ih =>
    rw [hstep.growths_eq hfresh hflat]
    exact ih (hstep.leads.recursions_eq hflat)

/-- Growth that has not counted any round has not gone through any. -/
theorem Rounds.eq_of_growths_eq {attempts left : Nat} {site : Site}
    (h : Rounds (body.run engine.input (engine.invokeWithin room)) site attempts scan left scan')
    (hgrowths : scan'.metrics.growths = 0) : scan' = scan := by
  cases h with
  | refl => rfl
  | @next _ _ _ _ scan₂ _ attempt hrun hsettle hrest =>
    have hkept : Kept (fun scan : Scan V M => 0 ≤ scan.metrics.recursions ∧
      1 ≤ scan.metrics.growths) _ := kept_counts 0 1
    have hcounted := hkept.rounds (hkept.run engine room body) trivial hrest
      ⟨Nat.zero_le _, Nat.le_add_left _ _⟩
    omega

/-- When an activation that nothing has come back to has its answer, its marker still stands. -/
theorem marked_of_flat (h : engine.Calls room rule scan (room' + 1) rule' scan')
    (hopens : engine.Opens room' rule' scan' body begun)
    (hrun : body.run engine.input (engine.invokeWithin room') begun = (.ok attempt, ended))
    (hfresh : scan.Fresh) (hflat : ended.metrics.recursions = 0) :
    ended.Marked (siteOf rule' scan') := by
  have hended : ended.metrics.growths = 0 := by
    rw [(hopens.leads_ended h hrun).growths_eq hfresh hflat, hfresh.metrics_eq]
  have hbegun : begun.metrics.growths = 0 := by
    have hkept : Kept (fun scan : Scan V M => 0 ≤ scan.metrics.recursions ∧
      begun.metrics.growths ≤ scan.metrics.growths) _ := kept_counts 0 begun.metrics.growths
    have hcounted := hkept.run engine room' body begun ⟨Nat.zero_le _, Nat.le_refl _⟩
    rw [hrun] at hcounted
    exact Nat.le_zero.mp (hended ▸ hcounted.2)
  obtain ⟨left, last, rfl, hrounds⟩ := hopens.rounds
  -- So this is the first attempt, which began with the marker.
  obtain rfl := hrounds.eq_of_growths_eq hbegun
  have hmarked := (kept_marked (siteOf rule' scan') _).run engine room' body
    ((scan'.enter (siteOf rule' scan')).beginAttempt (siteOf rule' scan'))
    ⟨marked_enter scan' (siteOf rule' scan'), rfl⟩
  rw [hrun] at hmarked
  exact hmarked.1

/-- An invocation whose growth comes to an error comes to an error. -/
theorem Untroubled.grown_ne_error (hok : engine.Untroubled room rule scan)
    (h : engine.Calls room rule scan (room' + 1) rule' scan')
    (hfree : scan'.memo.find? rule' scan'.position = none)
    (hbody : engine.body? rule' = some body) {error : ParseError} :
    engine.grown room' rule' body scan' ≠ (.error error, scan'') := by
  intro hgrown
  obtain ⟨outcome, houtcome⟩ := hok h
  rw [invokeWithin_of_body hfree hbody, activate_eq, ← Engine.grown, hgrown] at houtcome
  cases houtcome

/-- What a step can do in a run without a way back and without errors. -/
theorem Step.proceeds (h : engine.Step room rule scan scan' scan'')
    (hok : engine.Untroubled room rule scan) (hfresh : scan.Fresh)
    (hflat : scan''.metrics.recursions = 0) :
    Scan.Proceeds (engine.Called room rule scan) scan' scan'' := by
  cases h with
  | hit hcalls hcell => exact .stays rfl rfl fun _ _ => rfl
  | reenter hcalls hcell =>
    unfold Scan.reenter at hflat ⊢
    split at hflat
    · cases hflat
    · rename_i hforeign
      rw [if_neg hforeign]
      exact .stays rfl rfl fun _ _ => rfl
  | start hcalls hfree hbody =>
    exact .starts ⟨Option.isSome_of_eq_some hbody, _, _, hcalls, rfl⟩ hfree rfl rfl
      fun _ _ => evaluationsOf_record _ _ _ _
  | moveTo hcalls hopens hreaches => exact .stays rfl rfl fun _ _ => rfl
  | miss hcalls hopens hreaches => exact .stays rfl rfl fun _ _ => evaluationsOf_record _ _ _ _
  | memorise hcalls hopens hreaches => exact .stays rfl rfl fun _ _ => rfl
  | settle hcalls hopens hrun =>
    rw [metrics_settle] at hflat
    have hmarked := marked_of_flat hcalls hopens hrun hfresh hflat
    rw [settle_of_flat hcalls hopens hrun hfresh hflat]
    refine .answers hmarked rfl rfl fun rule' position' => ?_
    refine (evaluationsOf_record _ _ _ _).trans ?_
    simp only [Event.evaluates, decide_eq_true_eq]
    rfl
  | countGrowth hcalls hopens hrun hsettle => exact .stays rfl rfl fun _ _ => rfl
  | again hcalls hopens hrun hsettle hagain =>
    exact absurd hsettle (settle_ne_none_of_flat hcalls hopens hrun hfresh hflat)
  | release hcalls hfree hbody hgrown =>
    obtain ⟨stack, hpop⟩ := exists_pop scan'
    rw [hpop]
    exact .stays rfl rfl fun _ _ => rfl
  | unmark hcalls hfree hbody hgrown => exact absurd hgrown (hok.grown_ne_error hcalls hfree hbody)
  | abandon hcalls hfree hbody hgrown =>
    exact absurd hgrown (hok.grown_ne_error hcalls hfree hbody)

/-- Every step of such a run is one of the three. -/
theorem Leads.proceeds (h : engine.Leads room rule scan scan' scan'')
    (hok : engine.Untroubled room rule scan) (hfresh : scan.Fresh)
    (hflat : scan''.metrics.recursions = 0) :
    Relation.ReflTransGen (Scan.Proceeds (engine.Called room rule scan)) scan' scan'' := by
  induction h with
  | refl => exact .refl
  | tail hleads hstep ih =>
    exact .tail (ih (hstep.leads.recursions_eq hflat)) (hstep.proceeds hok hfresh hflat)

/-- An outcome in the table stays there. -/
theorem Leads.find?_finished (h : engine.Leads room rule scan scan' scan'')
    (hok : engine.Untroubled room rule scan) (hfresh : scan.Fresh)
    (hflat : scan''.metrics.recursions = 0) {position : Nat} {outcome : Outcome V}
    (hcell : scan'.memo.find? rule' position = some (.finished outcome)) :
    scan''.memo.find? rule' position = some (.finished outcome) := by
  have hpath := h.proceeds hok hfresh hflat
  clear h hflat
  induction hpath with
  | refl => exact hcell
  | tail hleads hproceeds ih => exact hproceeds.find?_finished ih

/-- The run ends with as many evaluations as cells, one for each outcome in the table. -/
theorem Leads.single (h : engine.Leads room rule scan scan scan')
    (hok : engine.Untroubled room rule scan) (hfresh : scan.Fresh)
    (hflat : scan'.metrics.recursions = 0) : scan'.Single := by
  have hpath := h.proceeds hok hfresh hflat
  clear h hflat
  induction hpath with
  | refl => exact hfresh.single
  | tail hleads hproceeds ih => exact ih.proceeds hproceeds

/-- All cells are for rules that have been invoked at their positions. -/
theorem Leads.called (h : engine.Leads room rule scan scan scan')
    (hok : engine.Untroubled room rule scan) (hfresh : scan.Fresh)
    (hflat : scan'.metrics.recursions = 0) {position : Nat}
    (hcell : scan'.memo.find? rule' position ≠ none) :
    engine.Called room rule scan rule' position := by
  have hpath := h.proceeds hok hfresh hflat
  clear h hflat
  induction hpath with
  | refl =>
    rw [hfresh.memo_eq, MemoTable.find?_empty] at hcell
    exact absurd rfl hcell
  | tail hleads hproceeds ih => exact (hproceeds.called_of_cell hcell).elim ih id

/-- If an evaluation on the way ends with an error, the invocation that it is made for does. -/
theorem Opens.error_of_error (hopens : engine.Opens room rule scan body begun)
    {error : ParseError}
    (hrun : (body.run engine.input (engine.invokeWithin room) begun).1 = .error error) :
    (engine.invokeWithin (room + 1) rule scan).1 = .error error := by
  obtain ⟨left, last, rfl, hrounds⟩ := hopens.rounds
  rw [invokeWithin_of_body hopens.free hopens.body_eq, activate_eq, hrounds.growUpTo_eq, growUpTo]
  generalize body.run engine.input (engine.invokeWithin room)
    (last.beginAttempt (siteOf rule scan)) = answer at hrun ⊢
  obtain ⟨result, ended⟩ := answer
  obtain rfl : result = .error error := hrun
  rfl

end Engine

namespace Procedure

/-- An error of an invocation that a strict program makes ends the program. -/
theorem Strict.error_of_invokes {α : Type} {own : ParseError → Prop}
    {program : Procedure S V M α} {input : Array S} {invoke : Invoke V M} {rule : RuleId}
    {scan scan' : Scan V M} {error : ParseError} (h : program.Strict own)
    (hinvokes : program.Invokes input invoke scan rule scan')
    (herror : (invoke rule scan').1 = .error error) :
    (program.run input invoke scan).1 = .error error := by
  induction hinvokes with
  | @here rule next scan =>
    show ((next (invoke rule scan).1).run input invoke (invoke rule scan).2).1 = _
    rw [herror, h.1 error]
    rfl
  | @later rule _ next scan _ hinvokes ih =>
    cases hanswer : (invoke rule scan).1 with
    | error error' =>
      -- The program would have ended before.
      rw [hanswer, h.1 error'] at hinvokes
      cases hinvokes
    | ok outcome =>
      refine ih ?_ herror
      rw [hanswer]
      exact h.2 outcome
  | observe hinvokes ih => exact ih (h _) herror
  | moveTo hinvokes ih => exact ih h herror
  | mismatch hinvokes ih => exact ih h herror
  | consult hinvokes ih => exact ih (h _) herror
  | memorise hinvokes ih => exact ih h herror

end Procedure

/-! ## Parses -/

namespace Parser

variable [DecidableEq S] {parser : Parser S M} {input : Array S} {rule : RuleId}
  {options : Options} {memory : M}

/-- The run of the parse goes from the first scan on to the second one. -/
def Leads (parser : Parser S M) (input : Array S) (rule : RuleId) (options : Options) (memory : M) :
    Scan Tree M → Scan Tree M → Prop :=
  (parser.engine input).Leads parser.config.maxDepth rule
    (parser.firstScan input.size rule (options.start?.getD 0) memory)

/-- The scan that the run of the parse ends with. -/
def lastScan (parser : Parser S M) (input : Array S) (rule : RuleId) (options : Options)
    (memory : M) : Scan Tree M :=
  ((parser.engine input).invoke rule
    (parser.firstScan input.size rule (options.start?.getD 0) memory)).2

omit [DecidableEq S] in
theorem fresh_firstScan (inputLength : Nat) (rule : RuleId) (start : Nat) (memory : M) :
    (parser.firstScan inputLength rule start memory).Fresh where
  memo_eq := rfl
  depth_eq := rfl
  metrics_eq := rfl
  unevaluated _ _ := rfl

/-- What is left of a run that was made. -/
theorem parse_of_lastScan (memory : M) (hrule : rule.index < parser.grammar.size)
    (hstart : options.start?.getD 0 ≤ input.size) :
    let parse := parser.parse input rule options memory
    let scan := parser.lastScan input rule options memory
    parse.parser.ledger.memo = scan.memo ∧ parse.parser.ledger.metrics = scan.metrics ∧
      ∀ rule' position, parse.events.countP (Event.evaluates rule' position) =
        scan.evaluationsOf rule' position := by
  intro parse scan
  have hparse : parse = _ := parser.parse_eq_close input options memory hrule hstart
  rw [hparse]
  -- The last event of a run is no evaluation.
  have hclose : ∀ answer : Answer Tree M (Outcome Tree),
      let parse := parser.close options input.size answer
      parse.parser.ledger.memo = answer.2.memo ∧
        parse.parser.ledger.metrics = answer.2.metrics ∧
        ∀ rule' position, parse.events.countP (Event.evaluates rule' position) =
          answer.2.evaluationsOf rule' position := by
    rintro ⟨error | outcome, scan⟩
    · exact ⟨rfl, rfl, fun _ _ => (List.countP_reverse ..).trans
        (Scan.evaluationsOf_record _ _ _ _)⟩
    · exact ⟨rfl, rfl, fun _ _ => (List.countP_reverse ..).trans
        (Scan.evaluationsOf_record _ _ _ _)⟩
  exact hclose _

/-- In a grammar of expressions every cell is for a rule of the grammar, at a position from the start
of the parse on. -/
theorem within_of_called (hforms : parser.grammar.OfExpressions)
    (hstart : options.start?.getD 0 ≤ input.size) {rule' : RuleId} {position : Nat}
    (h : (parser.engine input).Called parser.config.maxDepth rule
      (parser.firstScan input.size rule (options.start?.getD 0) memory) rule' position) :
    rule'.index < parser.grammar.size ∧ options.start?.getD 0 ≤ position ∧
      position ≤ input.size := by
  obtain ⟨hbody, room, scan, hcalls, rfl⟩ := h
  obtain ⟨body, hbody⟩ := Option.isSome_iff_exists.mp hbody
  obtain ⟨form, hform, -⟩ := Option.map_eq_some_iff.mp hbody
  have hmarches : parser.Marches input (options.start?.getD 0) scan :=
    Calls.marches hforms hstart hcalls
  exact ⟨Grammar.index_lt_of_body? hform, hmarches.start_le, hmarches.orderly.position_le⟩

/-- In a parse that comes back to no activation, and in whose run every invocation comes to an
outcome, each rule is evaluated at most once at each position: once where the table has an outcome
in the end, and nowhere else. There are as many evaluations as cells, and none of them is for
growth. From when an outcome is in the table it stays there to the end of the run. If all bodies are
expressions, there are no more evaluations than rules and positions from the start of the parse on.
A call that is refused, since its start rule is not there, changes nothing. -/
theorem parse_once (parser : Parser S M) (input : Array S) (rule : RuleId) (options : Options)
    (memory : M)
    (hok : options.start?.getD 0 ≤ input.size → ∀ room rule' scan,
      parser.Calls input rule options memory room rule' scan →
      ∃ outcome, ((parser.engine input).invokeWithin room rule' scan).1 = .ok outcome)
    (hflat : (parser.parse input rule options memory).parser.ledger.metrics.recursions = 0) :
    let parse := parser.parse input rule options memory
    let ledger := parse.parser.ledger
    let start := options.start?.getD 0
    (rule.index < parser.grammar.size →
      (∀ rule' position, parse.events.countP (Event.evaluates rule' position) =
        if (ledger.memo.outcome? rule' position).isSome then 1 else 0) ∧
      ledger.metrics.evaluations = ledger.memo.size ∧ ledger.metrics.growths = 0 ∧
      (start ≤ input.size → ∀ earlier later,
        parser.Leads input rule options memory earlier later →
        parser.Leads input rule options memory later
          (parser.lastScan input rule options memory) →
        ∀ rule' position outcome,
          earlier.memo.find? rule' position = some (.finished outcome) →
          later.memo.find? rule' position = some (.finished outcome)) ∧
      (parser.grammar.OfExpressions →
        ledger.metrics.evaluations ≤ parser.grammar.size * (input.size - start + 1))) ∧
    (parser.grammar.size ≤ rule.index → parse.parser = parser ∧ parse.events = []) := by
  intro parse ledger start
  refine ⟨fun hrule => ?_, fun hrule => ?_⟩
  · by_cases hstart : start ≤ input.size
    · obtain ⟨hmemo, hmetrics, hevents⟩ :=
        parser.parse_of_lastScan memory hrule hstart
      have hfresh := parser.fresh_firstScan input.size rule start memory
      have huntroubled : (parser.engine input).Untroubled parser.config.maxDepth rule
          (parser.firstScan input.size rule start memory) :=
        fun room rule' scan => hok hstart room rule' scan
      have hlast : parser.Leads input rule options memory _
          (parser.lastScan input rule options memory) :=
        (parser.engine input).leads_invokeWithin parser.config.maxDepth rule _
      have hflat : (parser.lastScan input rule options memory).metrics.recursions = 0 := by
        rw [← hmetrics]
        exact hflat
      have hsingle := hlast.single huntroubled hfresh hflat
      have hevaluations : ledger.metrics.evaluations = ledger.memo.size := by
        rw [show ledger.metrics = _ from hmetrics, show ledger.memo = _ from hmemo]
        exact hsingle.evaluations_eq
      refine ⟨fun rule' position => ?_, hevaluations, ?_, ?_, fun hforms => ?_⟩
      · rw [hevents, show ledger.memo = _ from hmemo]
        exact hsingle.evaluationsOf_eq rule' position
      · rw [show ledger.metrics = _ from hmetrics, hlast.growths_eq hfresh hflat]
        rfl
      · intro _ earlier later hleads hrest rule' position outcome hcell
        exact hleads.find?_finished huntroubled hfresh (hrest.recursions_eq hflat) hcell
      · rw [hevaluations, show ledger.memo = _ from hmemo]
        refine MemoTable.size_le fun rule' position hcell => ?_
        exact within_of_called hforms hstart (hlast.called huntroubled hfresh hflat hcell)
    · have hparse : parse = _ := parser.parse_of_lt_start input options memory hrule (by omega)
      rw [show ledger = parse.parser.ledger from rfl, hparse]
      refine ⟨fun rule' position => ?_, MemoTable.size_empty.symm, rfl,
        fun hstart' => absurd hstart' hstart, fun _ => Nat.zero_le _⟩
      simp [Ledger.reset, MemoTable.outcome?]
  · have hparse : parse = _ := parser.parse_of_size_le input options memory hrule
    rw [hparse]
    exact ⟨rfl, rfl⟩

/-- In a grammar of expressions, the run of a parse whose start rule comes to an outcome is without
errors. -/
theorem untroubled_of_outcome? (hforms : parser.grammar.OfExpressions)
    (hanswers : (parser.outcome? input rule options memory).isSome) {room : Nat} {rule' : RuleId}
    {scan : Scan Tree M} (h : parser.Calls input rule options memory room rule' scan) :
    ∃ outcome, ((parser.engine input).invokeWithin room rule' scan).1 = .ok outcome := by
  unfold Parser.Calls at h
  induction h with
  | here =>
    obtain ⟨outcome, houtcome⟩ := Option.isSome_iff_exists.mp hanswers
    unfold outcome? at houtcome
    split at houtcome
    · refine ⟨outcome, ?_⟩
      cases hanswer : ((parser.engine input).invokeWithin parser.config.maxDepth rule
          (parser.firstScan input.size rule (options.start?.getD 0) memory)).1 with
      | error error =>
        rw [show ((parser.engine input).invoke rule _).1 = _ from hanswer] at houtcome
        cases houtcome
      | ok found =>
        rw [show ((parser.engine input).invoke rule _).1 = _ from hanswer] at houtcome
        exact congrArg _ (Option.some.inj houtcome)
    · cases houtcome
  | @inside room' rule' rule'' scan' begun scan'' body h hopens hinvokes ih =>
    cases hanswer : ((parser.engine input).invokeWithin room' rule'' scan'').1 with
    | ok outcome => exact ⟨outcome, rfl⟩
    | error error =>
      -- The error would have ended the body and with it the invocation.
      obtain ⟨form, rfl, -⟩ := body?_engine hforms hopens.body_eq
      have hended := form.strict_toProcedure.error_of_invokes hinvokes hanswer
      obtain ⟨outcome', houtcome⟩ := ih
      rw [hopens.error_of_error hended] at houtcome
      cases houtcome

end Parser

/-- A pair of letters, looked at before it is taken. -/
def Grammar.pair : Grammar Char Unit :=
  ⟨[⟨"pair", .expression (.sequence [.lookahead (.rule ⟨1⟩) true, .rule ⟨1⟩, .rule ⟨1⟩])⟩,
    ⟨"letter", .expression .any⟩]⟩

theorem Grammar.pair_ofExpressions : Grammar.pair.OfExpressions := by
  intro rule hrule
  simp only [pair, List.mem_cons, List.not_mem_nil, or_false] at hrule
  rcases hrule with rfl | rfl <;> exact ⟨_, rfl⟩

/-- The letter that has been looked at is not evaluated again, so there are three evaluations, where
two rules at three positions allow for six. -/
theorem Parser.parse_once_pair :
    ((Parser.new Grammar.pair {}).parse #['x', 'y'] ⟨0⟩ {}
      ()).parser.ledger.metrics.recursions = 0 ∧
    ((Parser.new Grammar.pair {}).parse #['x', 'y'] ⟨0⟩ {} ()).events.countP
      (Event.evaluates ⟨1⟩ 0) = 1 ∧
    ((Parser.new Grammar.pair {}).parse #['x', 'y'] ⟨0⟩ {}
      ()).parser.ledger.metrics.evaluations = 3 ∧
    ((Parser.new Grammar.pair {}).parse #['x', 'y'] ⟨0⟩ {}
      ()).parser.ledger.metrics.evaluations ≤ 6 := by
  have hanswers : ((Parser.new Grammar.pair {}).outcome? #['x', 'y'] ⟨0⟩ {} ()).isSome = true := by
    decide +kernel
  have hflat : ((Parser.new Grammar.pair {}).parse #['x', 'y'] ⟨0⟩ {}
      ()).parser.ledger.metrics.recursions = 0 := by
    decide +kernel
  have hsize : ((Parser.new Grammar.pair {}).parse #['x', 'y'] ⟨0⟩ {}
      ()).parser.ledger.memo.size = 3 := by
    decide +kernel
  have hletter : (((Parser.new Grammar.pair {}).parse #['x', 'y'] ⟨0⟩ {}
      ()).parser.ledger.memo.outcome? ⟨1⟩ 0).isSome = true := by
    decide +kernel
  have honce := (Parser.new Grammar.pair {}).parse_once #['x', 'y'] ⟨0⟩ {} ()
    (fun _ _ _ _ => Parser.untroubled_of_outcome? Grammar.pair_ofExpressions hanswers) hflat
  obtain ⟨hof, hevaluations, -, -, hbound⟩ := honce.1 (by decide)
  have hlooked := hof ⟨1⟩ 0
  rw [if_pos hletter] at hlooked
  exact ⟨hflat, hlooked, hevaluations.trans hsize, hbound Grammar.pair_ofExpressions⟩

end LeftPeg
