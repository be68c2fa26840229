import Mathlib.Logic.Relation
import LeftPeg.Proofs.Passing

/-!
# A run, step by step

`Engine.Occurs` says which scans a run comes to, and not in which order. Here a run is a path: each
of the things that happen in it leads from one scan to the next (`Engine.Step`), and the path goes
from the scan that an invocation is made on to the one that it leaves (`Engine.leads_invokeWithin`),
through all that the bodies evaluated on the way pass through (`Engine.Opens.leads`).

What is said of a run "from then on" is said along this path. A property of scans that every step
keeps, in the sense of `Kept`, is kept along it (`Kept.leads`).
-/

namespace LeftPeg

variable {S V M α : Type}

namespace Procedure

/-- Run from the first scan, the program comes to the second one, where `rest` is left of it. -/
inductive Reaches (input : Array S) (invoke : Invoke V M) (program : Procedure S V M α)
    (scan : Scan V M) : Procedure S V M α → Scan V M → Prop where
  | here : Reaches input invoke program scan program scan
  | invoke {rule : RuleId} {next : Except ParseError (Outcome V) → Procedure S V M α}
      {scan' : Scan V M} (h : Reaches input invoke program scan (.invoke rule next) scan') :
      Reaches input invoke program scan (next (invoke rule scan').1) (invoke rule scan').2
  | observe {next : View S → Procedure S V M α} {scan' : Scan V M}
      (h : Reaches input invoke program scan (.observe next) scan') :
      Reaches input invoke program scan (next (scan'.view input)) scan'
  | moveTo {position : Nat} {next : Procedure S V M α} {scan' : Scan V M}
      (h : Reaches input invoke program scan (.moveTo position next) scan') :
      Reaches input invoke program scan next { scan' with position }
  | mismatch {expected : String} {next : Procedure S V M α} {scan' : Scan V M}
      (h : Reaches input invoke program scan (.mismatch expected next) scan') :
      Reaches input invoke program scan next (scan'.miss expected)
  | consult {next : M → Procedure S V M α} {scan' : Scan V M}
      (h : Reaches input invoke program scan (.consult next) scan') :
      Reaches input invoke program scan (next scan'.memory) scan'
  | memorise {memory : M} {next : Procedure S V M α} {scan' : Scan V M}
      (h : Reaches input invoke program scan (.memorise memory next) scan') :
      Reaches input invoke program scan next { scan' with memory }

variable {input : Array S} {invoke : Invoke V M} {program program' rest : Procedure S V M α}
  {scan scan' scan'' : Scan V M} {rule : RuleId}

/-- What is left of a program comes to what the program comes to. -/
theorem Reaches.run_eq (h : Reaches input invoke program scan rest scan') :
    program.run input invoke scan = rest.run input invoke scan' := by
  induction h with
  | here => rfl
  | invoke h ih => exact ih
  | observe h ih => exact ih
  | moveTo h ih => exact ih
  | mismatch h ih => exact ih
  | consult h ih => exact ih
  | memorise h ih => exact ih

theorem Reaches.trans (h : Reaches input invoke program scan program' scan')
    (h' : Reaches input invoke program' scan' rest scan'') :
    Reaches input invoke program scan rest scan'' := by
  induction h' with
  | here => exact h
  | invoke h' ih => exact .invoke ih
  | observe h' ih => exact .observe ih
  | moveTo h' ih => exact .moveTo ih
  | mismatch h' ih => exact .mismatch ih
  | consult h' ih => exact .consult ih
  | memorise h' ih => exact .memorise ih

/-- An invocation made in what is left of a program is made in the program. -/
theorem Reaches.invokes_of_rest (h : Reaches input invoke program scan rest scan')
    (hrest : rest.Invokes input invoke scan' rule scan'') :
    program.Invokes input invoke scan rule scan'' := by
  induction h with
  | here => exact hrest
  | invoke h ih => exact ih (.later hrest)
  | observe h ih => exact ih (.observe hrest)
  | moveTo h ih => exact ih (.moveTo hrest)
  | mismatch h ih => exact ih (.mismatch hrest)
  | consult h ih => exact ih (.consult hrest)
  | memorise h ih => exact ih (.memorise hrest)

/-- The invocation that a program is about to make, it makes. -/
theorem Reaches.invokes {next : Except ParseError (Outcome V) → Procedure S V M α}
    (h : Reaches input invoke program scan (.invoke rule next) scan') :
    program.Invokes input invoke scan rule scan' :=
  h.invokes_of_rest .here

/-- Where a program makes an invocation, it has been about to. -/
theorem Invokes.reaches (h : program.Invokes input invoke scan rule scan') :
    ∃ next, Reaches input invoke program scan (.invoke rule next) scan' := by
  induction h with
  | @here rule next scan => exact ⟨next, .here⟩
  | later h ih => exact ih.imp fun _ h => (Reaches.invoke .here).trans h
  | observe h ih => exact ih.imp fun _ h => (Reaches.observe .here).trans h
  | moveTo h ih => exact ih.imp fun _ h => (Reaches.moveTo .here).trans h
  | mismatch h ih => exact ih.imp fun _ h => (Reaches.mismatch .here).trans h
  | consult h ih => exact ih.imp fun _ h => (Reaches.consult .here).trans h
  | memorise h ih => exact ih.imp fun _ h => (Reaches.memorise .here).trans h

/-- Whatever scan a program passes through, something is left of it there. -/
theorem Passes.reaches (h : program.Passes input invoke scan scan') :
    ∃ rest, Reaches input invoke program scan rest scan' := by
  induction h with
  | @here program scan => exact ⟨program, .here⟩
  | invoke h ih => exact ih.imp fun _ h => (Reaches.invoke .here).trans h
  | observe h ih => exact ih.imp fun _ h => (Reaches.observe .here).trans h
  | moveTo h ih => exact ih.imp fun _ h => (Reaches.moveTo .here).trans h
  | mismatch h ih => exact ih.imp fun _ h => (Reaches.mismatch .here).trans h
  | consult h ih => exact ih.imp fun _ h => (Reaches.consult .here).trans h
  | memorise h ih => exact ih.imp fun _ h => (Reaches.memorise .here).trans h

end Procedure

namespace Engine

/-! ## Growth from the middle -/

section

variable {evaluate : Scan V M → Answer V M (Outcome V)} {site : Site}
  {attempts left left' limit : Nat} {scan scan' scan'' : Scan V M}

theorem Rounds.trans (h : Rounds evaluate site attempts scan left scan')
    (h' : Rounds evaluate site left scan' left' scan'') :
    Rounds evaluate site attempts scan left' scan'' := by
  induction h with
  | refl => exact h'
  | next hrun hsettle hrest ih => exact .next hrun hsettle (ih h')

/-- Growth comes to what it comes to from any of its rounds on. -/
theorem Rounds.growUpTo_eq (h : Rounds evaluate site attempts scan left scan') :
    growUpTo evaluate site limit attempts scan = growUpTo evaluate site limit left scan' := by
  induction h with
  | refl => rfl
  | next hrun hsettle hrest ih =>
    rw [← ih, growUpTo, hrun]
    dsimp only
    rw [hsettle]

end

/-! ## Steps -/

/-- What growth of the activation comes to that the rule becomes when it is invoked on the scan. -/
def grown (engine : Engine S V M) (room : Nat) (rule : RuleId) (body : Procedure S V M (Outcome V))
    (scan : Scan V M) : Answer V M (Outcome V) :=
  growUpTo (body.run engine.input (engine.invokeWithin room)) (siteOf rule scan)
    (engine.attemptLimit scan.position) (engine.attemptLimit scan.position)
    (scan.enter (siteOf rule scan))

/-- One thing that happens in the run of an invocation, from the scan before it to the scan after
it. An activation starts together with its first attempt. -/
inductive Step (engine : Engine S V M) (room : Nat) (rule : RuleId) (scan : Scan V M) :
    Scan V M → Scan V M → Prop where
  -- An invocation finds a cell.
  | hit {room' : Nat} {rule' : RuleId} {scan' : Scan V M} {outcome : Outcome V}
      (h : Calls engine room rule scan room' rule' scan')
      (hcell : scan'.memo.find? rule' scan'.position = some (.finished outcome)) :
      Step engine room rule scan scan' (scan'.hit outcome)
  | reenter {room' slot : Nat} {rule' : RuleId} {scan' : Scan V M}
      (h : Calls engine room rule scan room' rule' scan')
      (hcell : scan'.memo.find? rule' scan'.position = some (.inProgress slot)) :
      Step engine room rule scan scan' (scan'.reenter ⟨rule', scan'.position, slot⟩).2
  -- Or it finds none, and the rule becomes an activation.
  | start {room' : Nat} {rule' : RuleId} {scan' : Scan V M} {body : Procedure S V M (Outcome V)}
      (h : Calls engine room rule scan (room' + 1) rule' scan')
      (hfree : scan'.memo.find? rule' scan'.position = none)
      (hbody : engine.body? rule' = some body) :
      Step engine room rule scan scan'
        ((scan'.enter (siteOf rule' scan')).beginAttempt (siteOf rule' scan'))
  -- The operations of a body; its invocations are runs of their own.
  | moveTo {room' position : Nat} {rule' : RuleId} {scan' begun scan'' : Scan V M}
      {body next : Procedure S V M (Outcome V)}
      (h : Calls engine room rule scan (room' + 1) rule' scan')
      (hopens : engine.Opens room' rule' scan' body begun)
      (hreaches : body.Reaches engine.input (engine.invokeWithin room') begun
        (.moveTo position next) scan'') :
      Step engine room rule scan scan'' { scan'' with position }
  | miss {room' : Nat} {expected : String} {rule' : RuleId} {scan' begun scan'' : Scan V M}
      {body next : Procedure S V M (Outcome V)}
      (h : Calls engine room rule scan (room' + 1) rule' scan')
      (hopens : engine.Opens room' rule' scan' body begun)
      (hreaches : body.Reaches engine.input (engine.invokeWithin room') begun
        (.mismatch expected next) scan'') :
      Step engine room rule scan scan'' (scan''.miss expected)
  | memorise {room' : Nat} {memory : M} {rule' : RuleId} {scan' begun scan'' : Scan V M}
      {body next : Procedure S V M (Outcome V)}
      (h : Calls engine room rule scan (room' + 1) rule' scan')
      (hopens : engine.Opens room' rule' scan' body begun)
      (hreaches : body.Reaches engine.input (engine.invokeWithin room') begun
        (.memorise memory next) scan'') :
      Step engine room rule scan scan'' { scan'' with memory }
  -- An attempt is decided. If it has extended the match, another one follows.
  | settle {room' : Nat} {rule' : RuleId} {scan' begun scan'' : Scan V M}
      {body : Procedure S V M (Outcome V)} {attempt : Outcome V}
      (h : Calls engine room rule scan (room' + 1) rule' scan')
      (hopens : engine.Opens room' rule' scan' body begun)
      (hrun : body.run engine.input (engine.invokeWithin room') begun = (.ok attempt, scan'')) :
      Step engine room rule scan scan'' (scan''.settle (siteOf rule' scan') attempt).2
  | countGrowth {room' : Nat} {rule' : RuleId} {scan' begun scan'' extended : Scan V M}
      {body : Procedure S V M (Outcome V)} {attempt : Outcome V}
      (h : Calls engine room rule scan (room' + 1) rule' scan')
      (hopens : engine.Opens room' rule' scan' body begun)
      (hrun : body.run engine.input (engine.invokeWithin room') begun = (.ok attempt, scan''))
      (hsettle : scan''.settle (siteOf rule' scan') attempt = (.ok none, extended)) :
      Step engine room rule scan extended extended.countGrowth
  | again {room' : Nat} {rule' : RuleId} {scan' begun scan'' extended : Scan V M}
      {body : Procedure S V M (Outcome V)} {attempt : Outcome V}
      (h : Calls engine room rule scan (room' + 1) rule' scan')
      (hopens : engine.Opens room' rule' scan' body begun)
      (hrun : body.run engine.input (engine.invokeWithin room') begun = (.ok attempt, scan''))
      (hsettle : scan''.settle (siteOf rule' scan') attempt = (.ok none, extended))
      (hagain : engine.Opens room' rule' scan' body
        (extended.countGrowth.beginAttempt (siteOf rule' scan'))) :
      Step engine room rule scan extended.countGrowth
        (extended.countGrowth.beginAttempt (siteOf rule' scan'))
  -- An activation is released; one that ends with an error loses its marker first.
  | release {room' : Nat} {rule' : RuleId} {scan' scan'' : Scan V M}
      {body : Procedure S V M (Outcome V)} {outcome : Outcome V}
      (h : Calls engine room rule scan (room' + 1) rule' scan')
      (hfree : scan'.memo.find? rule' scan'.position = none)
      (hbody : engine.body? rule' = some body)
      (hgrown : engine.grown room' rule' body scan' = (.ok outcome, scan'')) :
      Step engine room rule scan scan'' scan''.pop.2
  | unmark {room' : Nat} {rule' : RuleId} {scan' scan'' : Scan V M}
      {body : Procedure S V M (Outcome V)} {error : ParseError}
      (h : Calls engine room rule scan (room' + 1) rule' scan')
      (hfree : scan'.memo.find? rule' scan'.position = none)
      (hbody : engine.body? rule' = some body)
      (hgrown : engine.grown room' rule' body scan' = (.error error, scan'')) :
      Step engine room rule scan scan'' (scan''.dropMarker (siteOf rule' scan'))
  | abandon {room' : Nat} {rule' : RuleId} {scan' scan'' : Scan V M}
      {body : Procedure S V M (Outcome V)} {error : ParseError}
      (h : Calls engine room rule scan (room' + 1) rule' scan')
      (hfree : scan'.memo.find? rule' scan'.position = none)
      (hbody : engine.body? rule' = some body)
      (hgrown : engine.grown room' rule' body scan' = (.error error, scan'')) :
      Step engine room rule scan (scan''.dropMarker (siteOf rule' scan'))
        (scan''.dropMarker (siteOf rule' scan')).pop.2

/-- The run of an invocation goes from the first scan on to the second one. -/
def Leads (engine : Engine S V M) (room : Nat) (rule : RuleId) (scan : Scan V M) :
    Scan V M → Scan V M → Prop :=
  Relation.ReflTransGen (engine.Step room rule scan)

section

variable {engine : Engine S V M} {room room' : Nat} {rule rule' rule'' : RuleId}
  {scan scan' begun extended scan'' : Scan V M} {body rest : Procedure S V M (Outcome V)}

theorem Step.leads (h : engine.Step room rule scan scan' scan'') :
    engine.Leads room rule scan scan' scan'' :=
  .single h

theorem Leads.trans (h : engine.Leads room rule scan scan' begun)
    (h' : engine.Leads room rule scan begun scan'') : engine.Leads room rule scan scan' scan'' :=
  Relation.ReflTransGen.trans h h'

/-- Within the run, each invocation with so much room leads to its answer. -/
def LeadsOn (engine : Engine S V M) (room : Nat) (rule : RuleId) (scan : Scan V M)
    (room' : Nat) : Prop :=
  ∀ ⦃rule' scan'⦄, engine.Calls room rule scan room' rule' scan' →
    engine.Leads room rule scan scan' (engine.invokeWithin room' rule' scan').2

/-- An evaluation leads to every scan that it comes to. -/
theorem LeadsOn.reaches (hinvoke : engine.LeadsOn room rule scan room')
    (h : engine.Calls room rule scan (room' + 1) rule' scan')
    (hopens : engine.Opens room' rule' scan' body begun)
    (hreaches : body.Reaches engine.input (engine.invokeWithin room') begun rest scan'') :
    engine.Leads room rule scan begun scan'' := by
  induction hreaches with
  | here => exact .refl
  | invoke hreaches ih => exact ih.trans (hinvoke (h.inside hopens hreaches.invokes))
  | observe hreaches ih => exact ih
  | moveTo hreaches ih => exact .tail ih (.moveTo h hopens hreaches)
  | mismatch hreaches ih => exact .tail ih (.miss h hopens hreaches)
  | consult hreaches ih => exact ih
  | memorise hreaches ih => exact .tail ih (.memorise h hopens hreaches)

/-- From every scan that an evaluation comes to, it leads on to its end. -/
theorem LeadsOn.run (hinvoke : engine.LeadsOn room rule scan room')
    (h : engine.Calls room rule scan (room' + 1) rule' scan')
    (hopens : engine.Opens room' rule' scan' body begun)
    (hreaches : body.Reaches engine.input (engine.invokeWithin room') begun rest scan'') :
    engine.Leads room rule scan scan''
      (body.run engine.input (engine.invokeWithin room') begun).2 := by
  rw [hreaches.run_eq]
  induction rest generalizing scan'' with
  | done result => exact .refl
  | abort error => exact .refl
  | observe next ih => exact ih _ hreaches.observe
  | moveTo position next ih => exact .head (.moveTo h hopens hreaches) (ih hreaches.moveTo)
  | mismatch expected next ih => exact .head (.miss h hopens hreaches) (ih hreaches.mismatch)
  | invoke rule'' next ih =>
    exact (hinvoke (h.inside hopens hreaches.invokes)).trans (ih _ hreaches.invoke)
  | consult next ih => exact ih _ hreaches.consult
  | memorise memory next ih => exact .head (.memorise h hopens hreaches) (ih hreaches.memorise)

/-- The end of an attempt leads to what growth comes to, if what follows on an extension does. -/
theorem leads_attempt (h : engine.Calls room rule scan (room' + 1) rule' scan') {left limit : Nat}
    (hopens : engine.Opens room' rule' scan' body (scan''.beginAttempt (siteOf rule' scan')))
    (hrest : ∀ attempt ended extended,
      body.run engine.input (engine.invokeWithin room')
        (scan''.beginAttempt (siteOf rule' scan')) = (.ok attempt, ended) →
      ended.settle (siteOf rule' scan') attempt = (.ok none, extended) →
      engine.Leads room rule scan extended.countGrowth
        (growUpTo (body.run engine.input (engine.invokeWithin room')) (siteOf rule' scan') limit
          left extended.countGrowth).2) :
    engine.Leads room rule scan
      (body.run engine.input (engine.invokeWithin room')
        (scan''.beginAttempt (siteOf rule' scan'))).2
      (growUpTo (body.run engine.input (engine.invokeWithin room')) (siteOf rule' scan') limit
        (left + 1) scan'').2 := by
  unfold growUpTo
  rcases hrun : body.run engine.input (engine.invokeWithin room')
    (scan''.beginAttempt (siteOf rule' scan')) with ⟨error | attempt, ended⟩
  · exact .refl
  · refine .head (.settle h hopens hrun) ?_
    dsimp only
    rcases hsettle : ended.settle (siteOf rule' scan') attempt with ⟨error | _ | outcome, extended⟩
    · exact .refl
    · exact .head (.countGrowth h hopens hrun hsettle) (hrest attempt ended extended hrun hsettle)
    · exact .refl

/-- From the end of each attempt, growth leads on to what it comes to. -/
theorem LeadsOn.grown (hinvoke : engine.LeadsOn room rule scan room')
    (h : engine.Calls room rule scan (room' + 1) rule' scan')
    (hfree : scan'.memo.find? rule' scan'.position = none)
    (hbody : engine.body? rule' = some body) {left : Nat}
    (hrounds : Rounds (body.run engine.input (engine.invokeWithin room')) (siteOf rule' scan')
      (engine.attemptLimit scan'.position) (scan'.enter (siteOf rule' scan')) (left + 1) scan'') :
    engine.Leads room rule scan
      (body.run engine.input (engine.invokeWithin room')
        (scan''.beginAttempt (siteOf rule' scan'))).2
      (engine.grown room' rule' body scan').2 := by
  rw [Engine.grown, hrounds.growUpTo_eq]
  -- On the attempts left after this one.
  induction left generalizing scan'' with
  | zero => exact leads_attempt h ⟨hfree, hbody, 0, scan'', rfl, hrounds⟩ fun _ _ _ _ _ => .refl
  | succ left ih =>
    refine leads_attempt h ⟨hfree, hbody, left + 1, scan'', rfl, hrounds⟩ ?_
    intro attempt ended extended hrun hsettle
    have hrounds' := hrounds.trans (.next hrun hsettle .refl)
    have hagain : engine.Opens room' rule' scan' body _ := ⟨hfree, hbody, left, _, rfl, hrounds'⟩
    refine .head (.again h ⟨hfree, hbody, left + 1, scan'', rfl, hrounds⟩ hrun hsettle hagain) ?_
    exact (hinvoke.run h hagain .here).trans (ih hrounds')

/-- The first attempt of an activation leads to every later one. -/
theorem LeadsOn.opens (hinvoke : engine.LeadsOn room rule scan room')
    (h : engine.Calls room rule scan (room' + 1) rule' scan')
    (hopens : engine.Opens room' rule' scan' body begun) :
    engine.Leads room rule scan
      ((scan'.enter (siteOf rule' scan')).beginAttempt (siteOf rule' scan')) begun := by
  obtain ⟨left, last, rfl, hrounds⟩ := hopens.rounds
  have hfree := hopens.free
  have hbody := hopens.body_eq
  -- On the rounds before the attempt. Those before a round are a part of them.
  have hprefix : ∀ {attempts first}, Rounds (body.run engine.input (engine.invokeWithin room'))
      (siteOf rule' scan') (engine.attemptLimit scan'.position)
      (scan'.enter (siteOf rule' scan')) attempts first →
      ∀ {left' last'}, Rounds (body.run engine.input (engine.invokeWithin room'))
        (siteOf rule' scan') attempts first left' last' → ∀ left, left' = left + 1 →
      engine.Leads room rule scan (first.beginAttempt (siteOf rule' scan'))
        (last'.beginAttempt (siteOf rule' scan')) := by
    intro attempts first hbefore left' last' hrest
    induction hrest with
    | refl => exact fun _ _ => .refl
    | @next attempts _ scan₀ scan₁ scan₂ _ attempt hrun hsettle hrest ih =>
      rintro left rfl
      have hopens₀ : engine.Opens room' rule' scan' body _ :=
        ⟨hfree, hbody, attempts, scan₀, rfl, hbefore⟩
      have hbefore' := hbefore.trans (.next hrun hsettle .refl)
      obtain ⟨left', rfl⟩ : ∃ left', attempts = left' + 1 := by
        cases hrest with
        | refl => exact ⟨left, rfl⟩
        | next => exact ⟨_, rfl⟩
      have hended := hinvoke.run h hopens₀ .here
      rw [hrun] at hended
      have hsettled := Step.leads (.settle h hopens₀ hrun)
      rw [hsettle] at hsettled
      exact (hended.trans hsettled).trans (.head (.countGrowth h hopens₀ hrun hsettle) (.head
        (.again h hopens₀ hrun hsettle ⟨hfree, hbody, left', _, rfl, hbefore'⟩)
        (ih hbefore' left rfl)))
  exact hprefix .refl hrounds left rfl

/-- What growth comes to is released. -/
theorem leads_release (h : engine.Calls room rule scan (room' + 1) rule' scan')
    (hfree : scan'.memo.find? rule' scan'.position = none)
    (hbody : engine.body? rule' = some body) :
    engine.Leads room rule scan (engine.grown room' rule' body scan').2
      (engine.invokeWithin (room' + 1) rule' scan').2 := by
  rw [invokeWithin_of_body hfree hbody, activate_eq, ← Engine.grown]
  rcases hgrown : engine.grown room' rule' body scan' with ⟨error | outcome, scan''⟩
  · exact .head (.unmark h hfree hbody hgrown) (.single (.abandon h hfree hbody hgrown))
  · have hreleased : (Scan.release (siteOf rule' scan') (.ok outcome, scan'')).2 =
        scan''.pop.2 := by
      unfold Scan.release
      dsimp only
      split
      · rename_i hpop
        rw [hpop]
      · rename_i hpop
        rw [hpop]
        split <;> rfl
    rw [hreleased]
    exact .single (.release h hfree hbody hgrown)

/-- Every invocation in a run leads to its answer. -/
theorem leadsOn (engine : Engine S V M) (room : Nat) (rule : RuleId) (scan : Scan V M)
    (room' : Nat) : engine.LeadsOn room rule scan room' := by
  induction room' with
  | zero =>
    intro rule' scan' h
    rcases hcell : scan'.memo.find? rule' scan'.position with _ | ⟨outcome | slot⟩
    · have hstays : (engine.invokeWithin 0 rule' scan').2 = scan' := by
        simp only [invokeWithin, answer, hcell]
        split <;> rfl
      rw [hstays]
      exact .refl
    · rw [invokeWithin_of_finished hcell]
      exact .single (.hit h hcell)
    · rw [invokeWithin_of_inProgress hcell]
      exact .single (.reenter h hcell)
  | succ room' ih =>
    intro rule' scan' h
    rcases hcell : scan'.memo.find? rule' scan'.position with _ | ⟨outcome | slot⟩
    · cases hbody : engine.body? rule' with
      | none =>
        have hstays : (engine.invokeWithin (room' + 1) rule' scan').2 = scan' := by
          simp only [invokeWithin, answer, hcell, hbody]
        rw [hstays]
        exact .refl
      | some body =>
        have hopens : engine.Opens room' rule' scan' body _ :=
          ⟨hcell, hbody, _, _, rfl, .refl⟩
        refine .head (.start h hcell hbody) ?_
        exact ((ih.run h hopens .here).trans (ih.grown h hcell hbody .refl)).trans
          (leads_release h hcell hbody)
    · rw [invokeWithin_of_finished hcell]
      exact .single (.hit h hcell)
    · rw [invokeWithin_of_inProgress hcell]
      exact .single (.reenter h hcell)

/-- The run of an invocation leads from the scan that it is made on to the one that it leaves. -/
theorem leads_invokeWithin (engine : Engine S V M) (room : Nat) (rule : RuleId) (scan : Scan V M) :
    engine.Leads room rule scan scan (engine.invokeWithin room rule scan).2 :=
  engine.leadsOn room rule scan room .here

/-- Whatever scan an evaluation passes through, an activation at work leads to it and from there to
what its invocation leaves. -/
theorem Opens.leads (h : engine.Calls room rule scan (room' + 1) rule' scan')
    (hopens : engine.Opens room' rule' scan' body begun)
    (hpasses : body.Passes engine.input (engine.invokeWithin room') begun scan'') :
    engine.Leads room rule scan scan' scan'' ∧
      engine.Leads room rule scan scan'' (engine.invokeWithin (room' + 1) rule' scan').2 := by
  obtain ⟨rest, hreaches⟩ := hpasses.reaches
  have hinvoke := engine.leadsOn room rule scan room'
  have hgrown : engine.Leads room rule scan
      (body.run engine.input (engine.invokeWithin room') begun).2
      (engine.grown room' rule' body scan').2 := by
    obtain ⟨left, last, hbegun, hrounds⟩ := hopens.rounds
    have hgrown := hinvoke.grown h hopens.free hopens.body_eq hrounds
    rwa [← hbegun] at hgrown
  refine ⟨.head (.start h hopens.free hopens.body_eq)
    ((hinvoke.opens h hopens).trans (hinvoke.reaches h hopens hreaches)), ?_⟩
  exact ((hinvoke.run h hopens hreaches).trans hgrown).trans
    (leads_release h hopens.free hopens.body_eq)

/-- Every invocation in a run lies on its way. -/
theorem Calls.leads (h : engine.Calls room rule scan room' rule' scan') :
    engine.Leads room rule scan scan scan' ∧
      engine.Leads room rule scan (engine.invokeWithin room' rule' scan').2
        (engine.invokeWithin room rule scan).2 := by
  induction h with
  | here => exact ⟨.refl, .refl⟩
  | @inside room' rule' rule'' scan' begun scan'' body h hopens hinvokes ih =>
    obtain ⟨next, hreaches⟩ := hinvokes.reaches
    refine ⟨ih.1.trans (hopens.leads h hinvokes.passes).1, ?_⟩
    have hended := (engine.leadsOn room rule scan room').run h hopens hreaches.invoke
    exact (hended.trans (hopens.leads h (Procedure.passes_run _ _)).2).trans ih.2

end

end Engine

/-- What every step keeps, a run keeps from each of its scans on. -/
theorem Kept.leads {Keeps : Scan V M → Prop} (h : Kept Keeps fun _ => True)
    {engine : Engine S V M} {room : Nat} {rule : RuleId} {scan scan' scan'' : Scan V M}
    (hleads : engine.Leads room rule scan scan' scan'') (hkeeps : Keeps scan') : Keeps scan'' := by
  induction hleads with
  | refl => exact hkeeps
  | tail hleads hstep ih =>
    cases hstep with
    | hit hcalls hcell => exact h.hit _ ih
    | reenter hcalls hcell => exact h.reenter _ ih
    | start hcalls hfree hbody => exact h.beginAttempt trivial (h.enter _ ih hfree).2
    | moveTo hcalls hopens hreaches => exact h.moveTo _ ih
    | miss hcalls hopens hreaches => exact h.miss _ ih
    | memorise hcalls hopens hreaches => exact h.memorise _ ih
    | settle hcalls hopens hrun => exact h.settle _ trivial ih
    | countGrowth hcalls hopens hrun hsettle => exact h.countGrowth ih
    | again hcalls hopens hrun hsettle hagain => exact h.beginAttempt trivial ih
    | release hcalls hfree hbody hgrown => exact h.pop ih
    | unmark hcalls hfree hbody hgrown => exact h.dropMarker trivial ih
    | abandon hcalls hfree hbody hgrown => exact h.pop ih

end LeftPeg
