import LeftPeg.Proofs.Looping

/-!
# Attempts of a ring

The attempts of the entry of a ring settle as those of one rule would that comes back to itself
directly (`Engine.circled_growUpTo`): an attempt that is longer than the best match is the best
match of the next one, and the first that is not ends them.
-/

namespace LeftPeg

variable {S M : Type}

/-! ## Growth -/

namespace Lap

variable {lap : Lap} {head : Activation Tree} {memo : MemoTable Tree} {found : Match Tree}
  {rule : RuleId} {position : Nat}

/-- The memo table when the entry has grown: it has the new seed, and the outcomes of the rules that
the entry is involved with are gone. -/
def regrown (lap : Lap) (head : Activation Tree) (memo : MemoTable Tree) (found : Match Tree) :
    MemoTable Tree :=
  ((head.atStage .growing).setAside memo).2.put lap.key.rule lap.key.position
    (.finished (.success found))

theorem find?_regrown (hother : rule ≠ lap.key.rule) :
    (lap.regrown head memo found).find? rule position =
      if rule ∈ head.involved ∧ position = head.position ∧ (memo.outcome? rule position).isSome then
        none
      else memo.find? rule position := by
  have hkey : ¬ (lap.key.rule = rule ∧ lap.key.position = position) := fun h => hother h.1.symm
  exact MemoTable.find?_put.trans ((if_neg hkey).trans Activation.find?_setAside)

theorem find?_of_regrown {entry : Entry Tree} (hother : rule ≠ lap.key.rule)
    (h : (lap.regrown head memo found).find? rule position = some entry) :
    memo.find? rule position = some entry := by
  rw [find?_regrown hother] at h
  split at h
  · cases h
  · exact h

end Lap

namespace Scan

variable [DecidableEq S] {grammar : Grammar S M} {input : Array S} {Separate : RuleId → Prop}
  {lap : Lap} {others : List RuleId} {scan : Scan Tree M} {attempt : Outcome Tree}

/-- What settling an attempt of the entry comes to. -/
inductive Closing (grammar : Grammar S M) (input : Array S) (Separate : RuleId → Prop)
    (lap : Lap) (others : List RuleId) (attempt : Outcome Tree) :
    Answer Tree M (Option (Outcome Tree)) → Prop where
  | kept {scan' : Scan Tree M} (hshort : ¬ attempt.Extends lap.best) :
      Closing grammar input Separate lap others attempt (.ok (some lap.best), scan')
  | grown {scan' : Scan Tree M} (hlonger : attempt.Extends lap.best)
      (hlooping : scan'.Looping grammar input Separate { lap with best := attempt } [] others)
      (hclear : ∀ rule ∈ others, scan'.memo.find? rule lap.key.position = none) :
      Closing grammar input Separate lap others attempt (.ok none, scan')

namespace Looping

theorem live_entry (h : scan.Looping grammar input Separate lap [] others) :
    ∃ head, scan.stack.live = [head] ∧ head.Heads lap others := by
  obtain ⟨head, uppers, hlive, hhead, hkeys, -⟩ := h.live
  obtain rfl := List.map_eq_nil_iff.mp hkeys
  refine ⟨head, ?_, hhead⟩
  rw [← scan.stack.live.reverse_reverse]
  exact congrArg List.reverse hlive

theorem best?_eq (h : scan.Looping grammar input Separate lap [] others) :
    scan.best? lap.site = lap.best.stop? := by
  have hcell : scan.memo.find? lap.site.rule lap.site.position = some lap.cell := h.cell
  unfold Scan.best? MemoTable.outcome?
  rw [hcell]
  unfold Lap.cell
  cases lap.best <;> rfl

/-- The entry has no parents to tell of its cycle. -/
theorem live_judging {head : Activation Tree} (hlive : scan.stack.live = [head])
    (hparents : head.parents = []) (stage : Stage) (attempt : Outcome Tree) :
    (scan.judging lap.site stage attempt).stack.live = [head] := by
  unfold Scan.judging Scan.record
  dsimp only
  split
  · exact ActivationStack.live_report_top hlive rfl hparents
  · exact hlive

/-- No outcome of the other rules outlives the growth of the entry, which knows all of them. -/
theorem find?_regrown_of_mem (h : scan.Looping grammar input Separate lap [] others)
    (hentry : lap.key.rule ∉ others) {head : Activation Tree} (hhead : head.Heads lap others)
    (hreturned : head.stage ≠ .plain) {found : Match Tree} {rule : RuleId} (hmem : rule ∈ others) :
    (lap.regrown head scan.memo found).find? rule lap.key.position = none := by
  have hother : rule ≠ lap.key.rule := by
    rintro rfl
    exact hentry hmem
  rw [Lap.find?_regrown hother]
  split
  · rfl
  · rename_i hkept
    -- The rule is involved and under no evaluation, so it would have been set aside.
    cases hcell : scan.memo.find? rule lap.key.position with
    | none => rfl
    | some entry =>
      cases entry with
      | inProgress slot => exact absurd hcell (h.resting hmem)
      | finished outcome =>
        have hposition : head.position = lap.key.position := congrArg MemoKey.position hhead.key_eq
        refine absurd ⟨hhead.involved hreturned rule hmem, hposition.symm, ?_⟩ hkept
        rw [MemoTable.outcome?_eq_some_iff.mpr hcell]
        rfl

/-- An attempt that extends the best match is the next one. All outcomes of the ring depend on the
match before, and they are set aside. -/
theorem extend (h : scan.Looping grammar input Separate lap [] others)
    (hentry : lap.key.rule ∉ others) (hapart : ¬ Separate lap.key.rule)
    {head : Activation Tree} (hlive : scan.stack.live = [head]) (hhead : head.Heads lap others)
    (hreturned : head.stage ≠ .plain) {found : Match Tree} :
    ∃ scan', scan.extend lap.site (.success found) = (.ok none, scan') ∧
      scan'.Looping grammar input Separate { lap with best := .success found } [] others ∧
      ∀ rule ∈ others, scan'.memo.find? rule lap.key.position = none := by
  have hget : scan.stack.get? lap.site.slot = some head := ActivationStack.get?_top hlive rfl
  have hclear : ∀ rule ∈ others,
      (lap.regrown head scan.memo found).find? rule lap.key.position = none :=
    fun rule hmem => h.find?_regrown_of_mem hentry hhead hreturned hmem
  have hseparate : ∀ {rule position entry}, Separate rule →
      (lap.regrown head scan.memo found).find? rule position = some entry →
      scan.memo.find? rule position = some entry := by
    intro rule position entry hrule hsome
    refine Lap.find?_of_regrown ?_ hsome
    rintro rfl
    exact hapart hrule
  refine ⟨_, extend_eq hget _, ?_, hclear⟩
  constructor
  case live =>
    have hgrowing : (scan.atStage lap.site .growing).stack.live = [head.atStage .growing] :=
      ActivationStack.live_modify_top hlive rfl _
    have hset := ActivationStack.live_modify_top hgrowing rfl fun _ =>
      ((head.atStage .growing).setAside scan.memo).1
    refine ⟨_, [], congrArg List.reverse hset, ?_, rfl, fun _ hmem => by cases hmem⟩
    exact ⟨hhead.key_eq, hhead.parents_eq,
      by simp [Outcome.isSuccess, Activation.setAside, Activation.atStage],
      fun _ => hhead.involved hreturned⟩
  case cell => exact MemoTable.find?_put_self
  case resting =>
    intro rule slot hmem hmarker
    cases (hclear rule hmem).symm.trans hmarker
  case marked =>
    intro rule position slot hrule hmarker
    exact h.marked hrule (hseparate hrule hmarker)
  case finished =>
    intro rule position outcome hrule hfinished
    exact h.finished hrule (hseparate hrule hfinished)

/-- The entry decides on an attempt as a rule would that comes back to itself. -/
theorem settle (h : scan.Looping grammar input Separate lap [] others)
    (hentry : lap.key.rule ∉ others) (hapart : ¬ Separate lap.key.rule)
    (hreturned : scan.Returned) (attempt : Outcome Tree) :
    Closing grammar input Separate lap others attempt (scan.settle lap.site attempt) := by
  obtain ⟨head, hlive, hhead⟩ := h.live_entry
  have hget : scan.stack.get? lap.site.slot = some head := ActivationStack.get?_top hlive rfl
  have hrecursive : head.stage ≠ .plain :=
    (returned_iff (congrArg List.reverse hlive)).mp hreturned
  have hjudging : (scan.judging lap.site head.stage attempt).stack.live = [head] :=
    live_judging hlive hhead.parents_eq head.stage attempt
  have hlooping : (scan.judging lap.site head.stage attempt).Looping grammar input Separate lap []
      others :=
    { h with live := ⟨head, [], congrArg List.reverse hjudging, hhead, rfl, fun _ h => by cases h⟩ }
  rw [settle_eq hget, h.best?_eq]
  cases hverdict : Verdict.of head.stage attempt.stop? lap.best.stop? with
  | accept => exact absurd (Verdict.of_eq_accept_iff.mp hverdict) hrecursive
  | grow =>
    have hlonger : attempt.Extends lap.best := (Verdict.of_eq_grow_iff.mp hverdict).2
    cases attempt with
    | failure =>
      obtain ⟨stop, hstop, -⟩ := hlonger
      cases hstop
    | success found =>
      obtain ⟨scan', hextend, hlooping', hclear⟩ :=
        hlooping.extend hentry hapart hjudging hhead hrecursive
      dsimp only
      rw [hextend]
      exact .grown hlonger hlooping' hclear
  | finish =>
    have hshort : ¬ attempt.Extends lap.best := by
      intro hlonger
      cases (Verdict.of_eq_grow_iff.mpr ⟨hrecursive, hlonger⟩).symm.trans hverdict
    cases hbest : lap.best with
    | failure =>
      rw [hbest] at hverdict
      rcases Verdict.seed_of_finish hverdict with hgrowing | hseed
      · have hsuccess := hhead.growing_iff.mp hgrowing
        rw [hbest] at hsuccess
        cases hsuccess
      · cases hseed
    | success found =>
      have hcell := hlooping.cell
      rw [Lap.cell, hbest] at hcell
      have hget' : (scan.judging lap.site head.stage attempt).stack.get? lap.site.slot =
          some head := ActivationStack.get?_top hjudging rfl
      have hfinish := finish_eq hget' hcell
      dsimp only
      rw [hfinish, ← hbest]
      exact .kept hshort
  | fail =>
    obtain ⟨hseeding, hfailed⟩ := Verdict.of_eq_fail_iff.mp hverdict
    have hshort : ¬ attempt.Extends lap.best := by
      rintro ⟨stop, hstop, -⟩
      cases hfailed.symm.trans hstop
    have hbest : lap.best = .failure := by
      cases hbest : lap.best with
      | failure => rfl
      | success found =>
        have hgrowing := hhead.growing_iff.mpr (by rw [hbest]; rfl)
        cases hseeding.symm.trans hgrowing
    have hkept : Closing grammar input Separate lap others attempt
      (.ok (some lap.best), ((scan.judging lap.site head.stage attempt).failSeed lap.site).2) :=
      .kept hshort
    rw [hbest] at hkept
    exact hkept

end Looping

end Scan

namespace Engine

variable [DecidableEq S] {grammar : Grammar S M} {Separate : RuleId → Prop}
  {key : MemoKey} {best : Outcome Tree} {others : List RuleId} {scan : Scan Tree M}

/-- What comes of the attempts of the entry. -/
inductive Circled (attempt : Outcome Tree → Outcome Tree → List Remark → Prop)
    (best : Outcome Tree) : Except ParseError (Outcome Tree) → Prop where
  | settled {outcome : Outcome Tree} {remarks : List Remark}
      (hsettling : Settling attempt true best outcome remarks) :
      Circled attempt best (.ok outcome)
  | ended {error : ParseError} (hrun : error.OfRun) : Circled attempt best (.error error)
  | missing {name : String}
      (hnone : ∀ outcome remarks, ¬ Settling attempt true best outcome remarks) :
      Circled attempt best (.error (.unknownRule name))

end Engine

namespace Grammar

variable [DecidableEq S]

/-- What comes of an attempt of the entry of a ring: once around, and back at the entry. -/
def Rounds (grammar : Grammar S M) (input : Array S) (key : MemoKey) (others : List RuleId)
    (best outcome : Outcome Tree) (remarks : List Remark) : Prop :=
  grammar.Comes input ⟨key, best⟩ (key.rule :: others) outcome ∧ remarks = [.returned]

theorem rounds_unique {grammar : Grammar S M} {input : Array S} {key : MemoKey}
    {others : List RuleId} {best outcome outcome' : Outcome Tree} {remarks remarks' : List Remark}
    (h : grammar.Rounds input key others best outcome remarks)
    (h' : grammar.Rounds input key others best outcome' remarks') :
    outcome = outcome' ∧ remarks = remarks' :=
  ⟨comes_unique h.1 h'.1, h.2.trans h'.2.symm⟩

end Grammar

namespace Engine

/-- The attempts of the entry settle, whatever their number: each one goes once around. -/
theorem circled_growUpTo [DecidableEq S] {grammar : Grammar S M} {Separate : RuleId → Prop}
    {key : MemoKey} {best : Outcome Tree} {others : List RuleId} {scan : Scan Tree M}
    (engine : Engine S Tree M)
    (hengine : ∀ rule, engine.body? rule = (grammar.body? rule).map Body.toProcedure)
    (hground : ∀ room rule scan,
      GroundsAll grammar engine.input Separate rule scan (engine.invokeWithin room rule scan))
    {form : Expression S} (hbody : grammar.body? key.rule = some (.expression form))
    (hhands : form.HandsOn (grammar.Free engine.input Separate) (others.headD key.rule))
    (room limit attempts : Nat)
    (hcircle : grammar.Circle engine.input Separate ⟨key, best⟩ others)
    (hlooping : scan.Looping grammar engine.input Separate ⟨key, best⟩ [] others)
    (hclear : ∀ rule ∈ others, scan.memo.find? rule key.position = none) :
    Circled (grammar.Rounds engine.input key others) best
      (growUpTo (form.toProcedure.run engine.input (engine.invokeWithin room))
        ⟨key.rule, key.position, 0⟩ limit attempts scan).1 := by
  -- On the attempts that are left, over all best matches and all scans that may be reached by then.
  induction attempts generalizing best scan with
  | zero => exact .ended (.inr ⟨_, rfl⟩)
  | succ attempts ih =>
    let site : Site := ⟨key.rule, key.position, 0⟩
    have hbegun : (scan.beginAttempt site).Looping grammar engine.input Separate ⟨key, best⟩ []
      others := { hlooping with }
    have hlapped : Lapped grammar engine.input Separate ⟨key, best⟩ [] others key.rule form
        (form.toProcedure.run engine.input (engine.invokeWithin room) (scan.beginAttempt site)) :=
      lapped_toProcedure hcircle rfl hhands (hground room)
        (fun scan h hready hposition =>
          engine.turned_invokeWithin hengine hground hcircle room h hready hposition)
        hbegun (.inl hclear) rfl
    have hcomes : ∀ {found remarks}, Evaluates engine.input .missed
        (grammar.turns engine.input ⟨key, best⟩ others) (.one form) key.position found remarks →
        grammar.Rounds engine.input key others best (.ofFound key.rule key.position found)
          [.returned] := fun heval => ⟨⟨form, _, _, hbody, heval, rfl⟩, rfl⟩
    unfold growUpTo
    generalize form.toProcedure.run engine.input (engine.invokeWithin room)
      (scan.beginAttempt site) = answer at hlapped
    cases hlapped with
    | ended hrun => exact .ended hrun
    | missing hnone =>
      -- To settle, the entry would have to make the attempt that this one is stuck in.
      refine .missing fun outcome remarks hsettling => ?_
      obtain ⟨_, _, ⟨form', found, remarks, hbody', heval, -⟩, -⟩ := hsettling.exists_attempt
      rw [hbody] at hbody'
      cases hbody'
      exact hnone found remarks heval
    | @found found remarks scan₁ hlooping₁ hreturned heval =>
      have hattempt := hcomes heval
      have hfits := Grammar.comes_fits hcircle.position_le hcircle.fits hattempt.1
      have hclosing : Scan.Closing _ _ _ _ _ _
          (scan₁.settle site (.ofFound key.rule key.position found)) :=
        hlooping₁.settle (List.nodup_cons.mp hcircle.distinct).1
          (hcircle.apart _ List.mem_cons_self) hreturned _
      dsimp only
      generalize scan₁.settle site (.ofFound key.rule key.position found) = answer at hclosing
      generalize Outcome.ofFound key.rule key.position found = attempt at *
      cases hclosing with
      | kept hshort => exact .settled (.keep hattempt (.inl rfl) hshort)
      | @grown scan₂ hlonger hlooping₂ hclear₂ =>
        have hcounted : scan₂.countGrowth.Looping grammar engine.input Separate ⟨key, attempt⟩ []
            others := { hlooping₂ with }
        have hrest := ih (hcircle.next hfits) hcounted hclear₂
        dsimp only
        generalize (growUpTo (form.toProcedure.run engine.input (engine.invokeWithin room))
          site limit attempts scan₂.countGrowth).1 = result at hrest
        cases hrest with
        | settled hsettling => exact .settled (.grow hattempt (.inl rfl) hlonger hsettling)
        | ended hrun => exact .ended hrun
        | missing hnone =>
          refine .missing fun outcome remarks hsettling => ?_
          have hrest : ∃ remarks, Settling (grammar.Rounds engine.input key others) true attempt
              outcome remarks :=
            hsettling.rest Grammar.rounds_unique hattempt (.inl rfl) hlonger
          obtain ⟨remarks', hrest⟩ := hrest
          exact hnone outcome remarks' hrest

/-- Releasing the entry may go wrong, but its answer stays what it was. -/
theorem Circled.release {attempt : Outcome Tree → Outcome Tree → List Remark → Prop}
    {best : Outcome Tree} {answer : Answer Tree M (Outcome Tree)} (site : Site)
    (h : Circled attempt best answer.1) : Circled attempt best (Scan.release site answer).1 := by
  rcases answer with ⟨error | outcome, scan⟩
  · exact h
  · unfold Scan.release
    dsimp only
    split
    · exact .ended (.inr ⟨_, rfl⟩)
    · split
      · exact h
      · exact .ended (.inr ⟨_, rfl⟩)

end Engine

/-! ## Parses -/

namespace Parser

variable [DecidableEq S] {parser : Parser S M}

variable {input : Array S} {Separate : RuleId → Prop} {key : MemoKey} {others : List RuleId}

/-- The scan on which a parse makes its first attempt. -/
def firstEntered (parser : Parser S M) (input : Array S) (key : MemoKey) (memory : M) :
    Scan Tree M :=
  (parser.firstScan input.size key.rule key.position memory).enter ⟨key.rule, key.position, 0⟩

omit [DecidableEq S] in
/-- Nothing is in the table yet but the marker of the start rule. -/
theorem find?_firstEntered (parser : Parser S M) (input : Array S) (key : MemoKey) (memory : M)
    (rule : RuleId) (position : Nat) :
    (parser.firstEntered input key memory).memo.find? rule position =
      if key.rule = rule ∧ key.position = position then some (.inProgress 0) else none :=
  MemoTable.find?_put

omit [DecidableEq S] in
theorem find?_firstEntered_of_ne {rule : RuleId} (hne : rule ≠ key.rule) (memory : M)
    (position : Nat) : (parser.firstEntered input key memory).memo.find? rule position = none := by
  rw [find?_firstEntered, if_neg]
  exact fun h => hne h.1.symm

/-- A parse from a rule of a ring begins at the entry, with nobody else on the way around. -/
theorem looping_firstEntered
    (hcircle : parser.grammar.Circle input Separate ⟨key, .failure⟩ others) (memory : M) :
    (parser.firstEntered input key memory).Looping parser.grammar input Separate ⟨key, .failure⟩ []
      others := by
  have hseparate : ∀ {rule}, Separate rule → rule ≠ key.rule := by
    rintro rule hrule rfl
    exact hcircle.apart _ List.mem_cons_self hrule
  have hothers : ∀ {rule}, rule ∈ others → rule ≠ key.rule := by
    rintro rule hmem rfl
    exact (List.nodup_cons.mp hcircle.distinct).1 hmem
  constructor
  case live =>
    refine ⟨{ rule := key.rule, position := key.position }, [],
      congrArg List.reverse (Scan.live_enter _ _), ?_, rfl, fun _ h => by cases h⟩
    exact ⟨rfl, rfl, by simp [Outcome.isSuccess], fun h => absurd rfl h⟩
  case cell => exact (find?_firstEntered ..).trans (if_pos ⟨rfl, rfl⟩)
  case resting =>
    intro rule slot hmem
    rw [find?_firstEntered_of_ne (hothers hmem)]
    simp
  case marked =>
    intro rule position slot hrule
    rw [find?_firstEntered_of_ne (hseparate hrule)]
    simp
  case finished =>
    intro rule position outcome hrule hfinished
    cases (find?_firstEntered_of_ne (hseparate hrule) ..).symm.trans hfinished

/-- A parse from a rule of a ring settles as its attempts do. -/
theorem circled_firstScan (hforms : parser.grammar.OfExpressions)
    (hclosed : ∀ rule form, Separate rule → parser.grammar.body? rule = some (.expression form) →
      ∀ target ∈ form.targets, Separate target)
    (hcircle : parser.grammar.Circle input Separate ⟨key, .failure⟩ others) (memory : M) :
    Engine.Circled (parser.grammar.Rounds input key others) .failure
      ((parser.engine input).invoke key.rule
        (parser.firstScan input.size key.rule key.position memory)).1 := by
  let scan := parser.firstScan input.size key.rule key.position memory
  have hground : ∀ room rule scan, Engine.GroundsAll parser.grammar input Separate rule scan
      ((parser.engine input).invokeWithin room rule scan) :=
    (parser.engine input).grounds_invokeWithin (fun _ hnone => Option.map_eq_none_iff.mp hnone)
      (fun rule body hbody => body?_engine hforms hbody) hclosed
  have hclear : ∀ rule ∈ others,
      (parser.firstEntered input key memory).memo.find? rule key.position = none := by
    intro rule hmem
    refine find?_firstEntered_of_ne ?_ memory _
    rintro rfl
    exact (List.nodup_cons.mp hcircle.distinct).1 hmem
  cases hcircle.ring with
  | @cons _ _ form hbody hhands hrest =>
  have hbody' : (parser.engine input).body? key.rule = some form.toProcedure :=
    congrArg (Option.map Body.toProcedure) hbody
  -- The table is empty at first, so the entry is evaluated.
  have hanswer : ∀ evaluate, (parser.engine input).answer evaluate key.rule scan =
      evaluate key.rule form.toProcedure scan := by
    intro evaluate
    have hnone : scan.memo.find? key.rule scan.position = none := MemoTable.find?_empty
    unfold Engine.answer
    rw [hnone, hbody']
  unfold Engine.invoke
  cases (parser.engine input).maxDepth with
  | zero =>
    unfold Engine.invokeWithin
    rw [hanswer]
    exact .ended (.inl ⟨_, _, rfl⟩)
  | succ room =>
    unfold Engine.invokeWithin
    rw [hanswer]
    unfold Engine.activate
    refine Engine.Circled.release _ ?_
    exact (parser.engine input).circled_growUpTo (fun _ => rfl) hground hbody hhands room _ _
      hcircle (looping_firstEntered hcircle memory) hclear

end Parser

end LeftPeg
