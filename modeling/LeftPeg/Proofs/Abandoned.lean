import LeftPeg.Proofs.Forward

/-!
# Abandoned activations

An error ends every activation that it comes through. What is cleaned up then is the marker of the
activation (`Scan.dropMarker`), and nothing else. As long as no attempt has extended the match of
the activation its marker still stands, and its key is free again (`Engine.free_of_error`). Once one
has, the match found so far is in the place of the marker and stays there: in a grammar of
expressions an abandoned activation leaves its cell empty if and only if it has not grown
(`Parser.parse_abandoned`). What it leaves otherwise answers the next invocation, though growth had
not come to an end.
-/

namespace LeftPeg

variable {S V M : Type}

/-! ## Extensions -/

/-- The event is an attempt that has extended the match of the activation at the site. -/
def Event.extendsAt (site : Site) : Event → Bool
  | .attempted rule position slot _ .grow _ _ => site = ⟨rule, position, slot⟩
  | _ => false

namespace Scan

variable {scan scan' : Scan V M} {site other : Site} {attempt : Outcome V} {error : ParseError}

/-- How often the match of the activation at the site has been extended so far. -/
def extensions (scan : Scan V M) (site : Site) : Nat :=
  scan.history.countP (Event.extendsAt site)

theorem extensions_record (scan : Scan V M) (event : Event) (site : Site) :
    (scan.record event).extensions site =
      scan.extensions site + if event.extendsAt site then 1 else 0 :=
  List.countP_cons

@[simp] theorem memo_pop (scan : Scan V M) : scan.pop.2.memo = scan.memo := by
  obtain ⟨stack, hpop⟩ := exists_pop scan
  rw [hpop]

@[simp] theorem extensions_pop (scan : Scan V M) (site : Site) :
    scan.pop.2.extensions site = scan.extensions site := by
  obtain ⟨stack, hpop⟩ := exists_pop scan
  rw [hpop]
  rfl

@[simp] theorem extensions_dropMarker (scan : Scan V M) (site other : Site) :
    (scan.dropMarker site).extensions other = scan.extensions other := by
  obtain ⟨memo, hdrop⟩ := exists_dropMarker scan site
  rw [hdrop]
  rfl

@[simp] theorem extensions_reenter (scan : Scan V M) (site other : Site) :
    (scan.reenter site).2.extensions other = scan.extensions other := by
  unfold reenter
  split
  · exact extensions_record _ _ _
  · rfl

/-- Of what an attempt leads to, only its verdict counts as an extension. -/
theorem extensions_settle {a : Activation V} (hget : scan.stack.get? site.slot = some a) :
    (scan.settle site attempt).2.extensions other = scan.extensions other +
      if other = site ∧ Verdict.of a.stage attempt.stop? (scan.best? site) = .grow then 1
      else 0 := by
  have hjudging : (scan.judging site a.stage attempt).extensions other = scan.extensions other +
      if other = site ∧ Verdict.of a.stage attempt.stop? (scan.best? site) = .grow then 1
      else 0 := by
    unfold judging
    rw [extensions_record]
    congr 1
    cases Verdict.of a.stage attempt.stop? (scan.best? site) <;> simp [Event.extendsAt]
  refine settle_keeps (fun scan' => scan'.extensions other = _) (fun hnone => ?_)
    (fun b hb => ?_) (fun _ _ => id) (fun _ _ => id) (fun _ _ => id) (fun _ => id)
    (fun _ => id) (fun scan stop h => ?_) (fun scan h => ?_)
  · cases hget.symm.trans hnone
  · cases hget.symm.trans hb
    exact hjudging
  · exact (extensions_record _ _ _).trans h
  · exact (extensions_record _ _ _).trans h

theorem le_extensions_settle :
    scan.extensions other ≤ (scan.settle site attempt).2.extensions other := by
  cases hget : scan.stack.get? site.slot with
  | none => exact Nat.le_of_eq (by rw [settle_of_get?_eq_none hget])
  | some a =>
    rw [extensions_settle hget]
    omega

/-- An attempt extends no match but that of its own activation. -/
theorem extensions_settle_of_ne (hne : other ≠ site) :
    (scan.settle site attempt).2.extensions other = scan.extensions other := by
  cases hget : scan.stack.get? site.slot with
  | none => rw [settle_of_get?_eq_none hget]
  | some a => rw [extensions_settle hget, if_neg fun h => hne h.1, Nat.add_zero]

/-- The activation stays at work only if its match has been extended. -/
theorem extensions_settle_none (hsettle : scan.settle site attempt = (.ok none, scan')) :
    scan'.extensions site = scan.extensions site + 1 := by
  cases hget : scan.stack.get? site.slot with
  | none =>
    rw [settle_of_get?_eq_none hget] at hsettle
    cases hsettle
  | some a =>
    have hextensions : scan'.extensions site = _ := hsettle ▸ extensions_settle hget
    have hanswer := (settle_eq hget).symm.trans hsettle
    cases hverdict : Verdict.of a.stage attempt.stop? (scan.best? site) with
    | grow => rw [hextensions, if_pos ⟨rfl, hverdict⟩]
    | accept => simp [hverdict, accept] at hanswer
    | finish =>
      simp only [hverdict, finish] at hanswer
      split at hanswer <;> simp at hanswer
    | fail => simp [hverdict, failSeed] at hanswer

/-- An attempt on which nothing can be decided changes no cell and extends no match. -/
theorem settle_error (hsettle : scan.settle site attempt = (.error error, scan')) :
    scan'.memo = scan.memo ∧ scan'.extensions site = scan.extensions site := by
  cases hget : scan.stack.get? site.slot with
  | none =>
    rw [settle_of_get?_eq_none hget] at hsettle
    cases hsettle
    exact ⟨rfl, rfl⟩
  | some a =>
    have hextensions : scan'.extensions site = _ := hsettle ▸ extensions_settle hget
    have hanswer := (settle_eq hget).symm.trans hsettle
    cases hverdict : Verdict.of a.stage attempt.stop? (scan.best? site) with
    | finish =>
      rw [hextensions, hverdict]
      refine ⟨?_, by simp⟩
      simp only [hverdict, finish] at hanswer
      split at hanswer
      · obtain rfl : _ = scan' := congrArg Prod.snd hanswer
        rfl
      · simp at hanswer
    | accept => simp [hverdict, accept] at hanswer
    | grow => simp [hverdict, extend] at hanswer
    | fail => simp [hverdict, failSeed] at hanswer

/-! ## Markers that stand

The marker of an activation stands until the activation settles or is released.
-/

/-- The two sites have different cells. -/
def Apart (site other : Site) : Prop :=
  ¬ (other.rule = site.rule ∧ other.position = site.position)

theorem marked_enter (scan : Scan V M) (site : Site) : (scan.enter site).Marked site :=
  MemoTable.find?_put_self

theorem Marked.put (h : scan.Marked site) (hapart : Apart site other) (entry : Entry V) :
    Marked { scan with memo := scan.memo.put other.rule other.position entry } site := by
  unfold Marked
  dsimp only
  rw [MemoTable.find?_put, if_neg hapart]
  exact h

/-- What is set aside and what is put back are outcomes, not markers. -/
theorem Marked.setAside (h : scan.Marked site) (slot : Nat) :
    Marked { scan with toLedger := scan.toLedger.setAside slot } site := by
  unfold Marked Ledger.setAside at *
  split
  · exact h
  · dsimp only
    rw [Activation.find?_setAside, if_neg, h]
    simp [MemoTable.outcome?, h, Entry.outcome?]

theorem Marked.putBack (h : scan.Marked site) (slot : Nat) :
    Marked { scan with toLedger := scan.toLedger.putBack slot } site := by
  unfold Marked Ledger.putBack at *
  split
  · exact h
  · dsimp only
    rw [Activation.find?_putBack, if_neg, h]
    simp [h, Entry.isInProgress]

/-- An attempt writes into no cell that holds the marker of another activation. -/
theorem Marked.settle (h : scan.Marked site) (hapart : Apart site other) (attempt : Outcome V) :
    (scan.settle other attempt).2.Marked site :=
  settle_keeps (·.Marked site) (fun _ => h) (fun _ _ => h) (fun _ _ => id) (fun _ _ => id)
    (fun _ _ h => h.put hapart _) (fun _ h => h.setAside _) (fun _ h => h.putBack _)
    (fun _ _ => id) (fun _ => id)

/-- An outcome is left where it is, that of the activation itself included. -/
theorem find?_dropMarker {rule : RuleId} {position : Nat} {outcome : Outcome V} (site : Site)
    (h : scan.memo.find? rule position = some (.finished outcome)) :
    (scan.dropMarker site).memo.find? rule position = some (.finished outcome) := by
  by_cases hmarked : scan.Marked site
  · rw [hmarked.dropMarker_eq, MemoTable.find?_erase, if_neg, h]
    rintro ⟨rfl, rfl⟩
    exact nomatch hmarked.symm.trans h
  · rw [dropMarker_of_not_marked hmarked, h]

theorem Marked.dropMarker (h : scan.Marked site) (hapart : Apart site other) :
    (scan.dropMarker other).Marked site := by
  by_cases hother : scan.Marked other
  · rw [hother.dropMarker_eq]
    unfold Marked
    rw [MemoTable.find?_erase, if_neg hapart]
    exact h
  · rwa [dropMarker_of_not_marked hother]

/-! ## What the steps of a run keep -/

/-- No step takes an extension back. -/
theorem kept_extensions (site : Site) (count : Nat) :
    Kept (fun scan : Scan V M => count ≤ scan.extensions site) fun _ => True where
  moveTo _ := id
  miss _ hle := hle
  memorise _ := id
  hit _ := id
  reenter _ hle := by rwa [extensions_reenter]
  enter _ hle _ := ⟨trivial, hle⟩
  beginAttempt _ := id
  settle _ _ hle := Nat.le_trans hle le_extensions_settle
  countGrowth := id
  dropMarker _ hle := by rwa [extensions_dropMarker]
  pop hle := by rwa [extensions_pop]

/-- As long as the marker of an activation stands its match is not extended, and the steps of other
activations leave the marker alone. -/
theorem kept_marked (site : Site) (count : Nat) :
    Kept (fun scan : Scan V M => scan.Marked site ∧ scan.extensions site = count)
      (Apart site) where
  moveTo _ := id
  miss _ h := h
  memorise _ := id
  hit _ := id
  reenter other h := by
    refine ⟨?_, by rw [extensions_reenter, h.2]⟩
    unfold Scan.reenter
    split <;> exact h.1
  enter {scan} rule h hfree := by
    have hapart : Apart site (Engine.siteOf rule scan) := by
      rintro ⟨hrule, hposition⟩
      have hmarked := h.1
      unfold Marked at hmarked
      rw [← hrule, ← hposition] at hmarked
      exact nomatch hfree.symm.trans hmarked
    exact ⟨hapart, h.1.put hapart _, h.2⟩
  beginAttempt _ := id
  settle attempt hapart h := by
    refine ⟨h.1.settle hapart attempt, ?_⟩
    rw [extensions_settle_of_ne, h.2]
    rintro rfl
    exact hapart ⟨rfl, rfl⟩
  countGrowth := id
  dropMarker hapart h := ⟨h.1.dropMarker hapart, by rw [extensions_dropMarker, h.2]⟩
  pop h := by
    refine ⟨?_, by rw [extensions_pop, h.2]⟩
    unfold Marked
    rw [memo_pop]
    exact h.1

end Scan

/-! ## How an activation is abandoned -/

namespace Engine

open Scan

variable {engine : Engine S V M} {room : Nat} {rule : RuleId} {scan scan' ended : Scan V M}
  {body : Procedure S V M (Outcome V)} {site : Site} {error : ParseError}

/-- The rule, invoked on `scan` with room for its activation and `room` more, becomes an activation,
and its growth comes to the error in `ended`. -/
structure Abandons (engine : Engine S V M) (room : Nat) (rule : RuleId) (scan : Scan V M)
    (body : Procedure S V M (Outcome V)) (ended : Scan V M) (error : ParseError) : Prop where
  free : scan.memo.find? rule scan.position = none
  body_eq : engine.body? rule = some body
  growth : ∃ left last, Rounds (body.run engine.input (engine.invokeWithin room))
    (siteOf rule scan) (engine.attemptLimit scan.position) (scan.enter (siteOf rule scan)) left
    last ∧ Ends (body.run engine.input (engine.invokeWithin room)) (siteOf rule scan)
      (engine.attemptLimit scan.position) left last (.error error, ended)

/-- An invocation that finds a cell does not end with an error. -/
theorem find?_of_error (howned : scan.Owned)
    (haborts : (engine.invokeWithin room rule scan).1 = .error error) :
    scan.memo.find? rule scan.position = none := by
  have hcell : ∀ evaluate, (engine.answer evaluate rule scan).1 = .error error →
      scan.memo.find? rule scan.position = none := by
    intro evaluate haborts
    unfold answer at haborts
    split at haborts
    · cases haborts
    · rename_i slot hmarker
      rw [(reenter_owned howned hmarker).1] at haborts
      cases haborts
    · assumption
  cases room with
  | zero => exact hcell _ haborts
  | succ room => exact hcell _ haborts

/-- An invocation that ends with an error has not started an activation, or has abandoned it. -/
theorem abandons_of_error (howned : scan.Owned)
    (haborts : engine.invokeWithin room rule scan = (.error error, scan')) :
    scan' = scan ∨ ∃ room' body ended, room = room' + 1 ∧
      engine.Abandons room' rule scan body ended error ∧
      scan' = (ended.dropMarker (siteOf rule scan)).pop.2 := by
  have hfree := find?_of_error howned (congrArg Prod.fst haborts)
  cases room with
  | zero =>
    left
    simp only [invokeWithin, answer, hfree] at haborts
    split at haborts <;> exact (congrArg Prod.snd haborts).symm
  | succ room =>
    simp only [invokeWithin, answer, hfree] at haborts
    split at haborts
    · exact .inl (congrArg Prod.snd haborts).symm
    · rename_i body hbody
      right
      have hanswer : (engine.activate (engine.invokeWithin room) rule body scan).1 = _ :=
        (activate_balanced (engine.invokeWithin_balanced room) howned).2
      obtain ⟨left, last, hrounds, hends⟩ :=
        exists_ends (body.run engine.input (engine.invokeWithin room)) (siteOf rule scan)
          (engine.attemptLimit scan.position) (engine.attemptLimit scan.position)
          (scan.enter (siteOf rule scan))
      rw [haborts] at hanswer
      rw [activate_eq] at haborts
      -- The error of the invocation is the one that growth has come to.
      generalize growUpTo (body.run engine.input (engine.invokeWithin room)) (siteOf rule scan)
        (engine.attemptLimit scan.position) (engine.attemptLimit scan.position)
        (scan.enter (siteOf rule scan)) = grown at hanswer haborts hends
      obtain ⟨result, ended⟩ := grown
      obtain rfl : Except.error error = result := hanswer
      exact ⟨room, body, ended, rfl, ⟨hfree, hbody, left, last, hrounds, hends⟩,
        (congrArg Prod.snd haborts).symm⟩

/-- An attempt that comes to an error leaves a marker that stood when it began, and extends no
match. -/
theorem Ends.marked {limit left : Nat}
    (h : Ends (body.run engine.input (engine.invokeWithin room)) site limit left scan
      (.error error, ended)) (hmarked : scan.Marked site) :
    ended.Marked site ∧ ended.extensions site = scan.extensions site := by
  have hkept : Kept (fun other : Scan V M =>
    other.Marked site ∧ other.extensions site = scan.extensions site) _ := kept_marked site _
  have hattempt : ∀ {result scan₁},
      body.run engine.input (engine.invokeWithin room) (scan.beginAttempt site) =
        (result, scan₁) →
      scan₁.Marked site ∧ scan₁.extensions site = scan.extensions site := fun hrun =>
    hkept.passes (hkept.invokeWithin engine room) (Procedure.passes_of_run hrun) ⟨hmarked, rfl⟩
  cases h with
  | unsettled => exact ⟨hmarked, rfl⟩
  | aborted hrun => exact hattempt hrun
  | undecided hrun hsettle =>
    obtain ⟨hmarked₁, hsame⟩ := hattempt hrun
    obtain ⟨hmemo, hextensions⟩ := settle_error hsettle
    refine ⟨?_, hextensions.trans hsame⟩
    unfold Marked
    rw [hmemo]
    exact hmarked₁

/-- An attempt does not take back the extensions of the match. -/
theorem Ends.le_extensions {limit left : Nat} {answer : Answer V M (Outcome V)}
    (h : Ends (body.run engine.input (engine.invokeWithin room)) site limit left scan answer) :
    scan.extensions site ≤ answer.2.extensions site :=
  (kept_extensions site _).ends ((kept_extensions site _).run engine room body) trivial h
    (Nat.le_refl _)

/-- A round that is not the last one extends the match. -/
theorem Rounds.eq_or_lt_extensions {attempts left : Nat}
    (h : Rounds (body.run engine.input (engine.invokeWithin room)) site attempts scan left scan') :
    scan' = scan ∨ scan.extensions site < scan'.extensions site := by
  have hevaluate : ∀ count (scan : Scan V M), count ≤ scan.extensions site →
      count ≤ (body.run engine.input (engine.invokeWithin room) scan).2.extensions site :=
    fun count => (kept_extensions site count).run engine room body
  cases h with
  | refl => exact .inl rfl
  | @next attempts left scan scan₁ scan₂ scan' attempt hrun hsettle hrest =>
    right
    have hfirst := hevaluate _ (scan.beginAttempt site) (Nat.le_refl _)
    rw [hrun] at hfirst
    have hextended : scan.extensions site + 1 ≤ scan₂.countGrowth.extensions site := by
      show _ ≤ scan₂.extensions site
      rw [extensions_settle_none hsettle]
      exact Nat.succ_le_succ hfirst
    exact (kept_extensions site _).rounds (hevaluate _) trivial hrest hextended

/-- An invocation that ends with an error leaves the cell of its key empty, unless the match of its
activation has been extended. -/
theorem free_of_error (howned : scan.Owned)
    (haborts : engine.invokeWithin room rule scan = (.error error, scan'))
    (hsame : scan'.extensions (siteOf rule scan) = scan.extensions (siteOf rule scan)) :
    scan'.memo.find? rule scan.position = none := by
  rcases abandons_of_error howned haborts with rfl | ⟨room', body, ended, rfl, h, rfl⟩
  · exact find?_of_error howned (congrArg Prod.fst haborts)
  · obtain ⟨left, last, hrounds, hends⟩ := h.growth
    rw [memo_pop]
    rcases hrounds.eq_or_lt_extensions with rfl | hlt
    -- In its first attempt the activation has its marker to show.
    · rw [(hends.marked (marked_enter _ _)).1.dropMarker_eq]
      exact MemoTable.find?_erase_self
    · have hle := hends.le_extensions
      have hentered : (scan.enter (siteOf rule scan)).extensions (siteOf rule scan) =
        scan.extensions (siteOf rule scan) := rfl
      rw [extensions_pop, extensions_dropMarker] at hsame
      dsimp only at hle
      omega

end Engine

/-! ## Seeds that stay -/

/-- The matches that live activations have found so far are where they were. -/
def Scan.Spares (scan scan' : Scan V M) : Prop :=
  ∀ ⦃slot a⦄, scan.stack.get? slot = some a → a.stage = .growing →
    scan'.memo.find? a.rule a.position = scan.memo.find? a.rule a.position

theorem Scan.Undisturbed.spares {scan scan' scan'' : Scan V M}
    (h : scan.Undisturbed scan.stack.depth scan') (h' : scan'.Spares scan'') :
    scan.Spares scan'' := by
  intro slot a ha hgrowing
  obtain ⟨b, hb, hcall, hstage, hmemo⟩ := h slot a (ActivationStack.lt_depth_of_get? ha) ha
  have hspared := h' hb (hstage.mpr hgrowing)
  rw [hcall.rule_eq, hcall.position_eq] at hspared
  exact hspared.trans (hmemo hgrowing)

variable [DecidableEq S] {grammar : Grammar S M} {input : Array S}

/-- An expression that ends with an error has spared the matches found so far if its invocations
do. -/
theorem Course.spares {invoke : Invoke Tree M} {task : Task S} {trail : Expression.Trail}
    {scan scan' : Scan Tree M} {answer : Answer Tree M (Option Expression.Trail)}
    {error : ParseError} (hreliable : Reliable (Genuine grammar input) input.size invoke)
    (hspares : ∀ {rule} {scan scan' : Scan Tree M} {error},
      scan.Orderly (Genuine grammar input) input.size →
      invoke rule scan = (.error error, scan') → scan.Spares scan')
    (h : Course input invoke task trail scan answer)
    (horderly : scan.Orderly (Genuine grammar input) input.size)
    (hanswer : answer = (.error error, scan')) : scan.Spares scan' := by
  -- Going back after a group makes no difference to an error.
  have hrewind : ∀ {position : Nat} {answer : Answer Tree M (Option Expression.Trail)},
      LeftPeg.rewind position answer = (.error error, scan') → answer = (.error error, scan') := by
    intro position answer h
    rcases answer with ⟨error | _ | found, scan''⟩
    · exact h
    · cases h
    · exact h
  induction h with
  | unresolved =>
    cases hanswer
    exact fun _ _ _ _ => rfl
  | ruleAborts hinvoke =>
    cases hanswer
    exact hspares horderly hinvoke
  | sequence hitems ih => exact ih horderly (hrewind hanswer)
  | choice hitems ih => exact ih horderly (hrewind hanswer)
  | repetition hcopies ih => exact ih horderly (hrewind hanswer)
  | lookaheadAborts hitem ih => exact ih horderly hanswer
  | taggedAborts hitem ih => exact ih horderly hanswer
  | allCons hitem hrest ihitem ihrest =>
    have honward := hitem.onward hreliable horderly
    exact honward.undisturbed.spares (ihrest honward.orderly hanswer)
  | allAborts hitem ih => exact ih horderly hanswer
  | firstNext hitem hrest ihitem ihrest =>
    have honward := hitem.onward hreliable horderly
    exact honward.undisturbed.spares (ihrest honward.orderly hanswer)
  | firstAborts hitem ih => exact ih horderly hanswer
  | copiesNext hitem hmoved hrest ihitem ihrest =>
    have honward := hitem.onward hreliable horderly
    exact honward.undisturbed.spares (ihrest honward.orderly hanswer)
  | copiesAbort hitem ih => exact ih horderly hanswer
  -- All other courses come to an answer.
  | _ => cases hanswer

namespace Parser

variable {parser : Parser S M} {room : Nat} {rule : RuleId} {scan scan' : Scan Tree M}
  {error : ParseError}

/-- So has the last attempt of an activation, and releasing the activation changes no match. -/
theorem spares_of_ends {form : Expression S} {site : Site} {limit left : Nat}
    {last ended : Scan Tree M} {a : Activation Tree} (hforms : parser.grammar.OfExpressions)
    (hbody : parser.grammar.body? site.rule = some (.expression form))
    (hspares : ∀ {rule} {scan scan' : Scan Tree M} {error},
      scan.Orderly (Genuine parser.grammar input) input.size →
      (parser.engine input).invokeWithin room rule scan = (.error error, scan') →
      scan.Spares scan')
    (hends : Engine.Ends
      (form.toProcedure.run input ((parser.engine input).invokeWithin room)) site limit left last
      (.error error, ended))
    (hwork : Scan.Working site last a)
    (horderly : last.Orderly (Genuine parser.grammar input) input.size) :
    last.Spares (ended.dropMarker site).pop.2 := by
  have hreliable := engine_reliable hforms input room
  have hbegun := hwork.beginAttempt horderly
  have hended : last.Spares ended := by
    cases hends with
    | unsettled => exact fun _ _ _ _ => rfl
    | aborted hrun =>
      rw [run_toProcedure] at hrun
      have hcourse : Course input ((parser.engine input).invokeWithin room) (.one form) []
        (last.beginAttempt site) _ := course_recognise form [] _
      generalize (form.recognise []).run input _ _ = answer at hrun hcourse
      obtain ⟨error' | _ | found, scan''⟩ := answer <;> cases hrun
      have hspared : (last.beginAttempt site).Spares ended :=
        hcourse.spares hreliable hspares hbegun rfl
      exact hspared
    | undecided hrun hsettle =>
      -- In order, each attempt is decided.
      have hworking : Scan.Working site (last.beginAttempt site) a := { hwork with }
      have hcomes := dependable_toProcedure hbody hreliable _ hbegun hworking.currentRule
      rw [hrun] at hcomes
      obtain ⟨horderly₁, hkept, -, b, hwork₁, -⟩ := hwork.evaluated hcomes
      rcases Scan.settle_spec hwork₁ horderly₁ genuine_spanned hkept with
        ⟨_, _, hdecided, -⟩ | ⟨_, _, -, hdecided, -⟩
      · cases hsettle.symm.trans hdecided
      · cases hsettle.symm.trans hdecided
  intro slot b hb hgrowing
  obtain ⟨found, hfound⟩ := horderly.seeded hb hgrowing
  rw [Scan.memo_pop, hfound]
  exact Scan.find?_dropMarker site ((hended hb hgrowing).trans hfound)

/-- In a grammar of expressions, an error leaves the matches that live activations have found so
far where they are. -/
theorem spares_of_error (hforms : parser.grammar.OfExpressions)
    (horderly : scan.Orderly (Genuine parser.grammar input) input.size)
    (haborts : (parser.engine input).invokeWithin room rule scan = (.error error, scan')) :
    scan.Spares scan' := by
  induction room generalizing rule scan scan' error with
  | zero =>
    rcases Engine.abandons_of_error (fun _ _ _ => horderly.owned) haborts with
      rfl | ⟨room', body, ended, hroom, -⟩
    · exact fun _ _ _ _ => rfl
    · exact absurd hroom (Nat.succ_ne_zero room').symm
  | succ room ih =>
    rcases Engine.abandons_of_error (fun _ _ _ => horderly.owned) haborts with
      rfl | ⟨room', body, ended, hroom, h, rfl⟩
    · exact fun _ _ _ _ => rfl
    · obtain rfl : room = room' := Nat.succ.inj hroom
      obtain ⟨form, rfl, hform⟩ := body?_engine hforms h.body_eq
      obtain ⟨left, last, hrounds, hends⟩ := h.growth
      obtain ⟨hentered, hwork⟩ := Engine.working_enter horderly h.free
      obtain ⟨horderly', hbelow, a, hwork'⟩ := hrounds.working genuine_spanned
        (dependable_toProcedure hform (engine_reliable hforms input room)) hwork hentered
      have hundisturbed : scan.Undisturbed scan.stack.depth last :=
        LeftPeg.Undisturbed.trans (Orderly.undisturbed_enter horderly h.free) hbelow
      exact hundisturbed.spares (spares_of_ends hforms hform ih hends hwork' horderly')

/-- A match that has been extended outlives its activation. -/
theorem seed_of_error (hforms : parser.grammar.OfExpressions)
    (horderly : scan.Orderly (Genuine parser.grammar input) input.size)
    (haborts : (parser.engine input).invokeWithin room rule scan = (.error error, scan'))
    (hextended : scan'.extensions (Engine.siteOf rule scan) ≠
      scan.extensions (Engine.siteOf rule scan)) :
    ∃ found, scan'.memo.find? rule scan.position = some (.finished (.success found)) := by
  rcases Engine.abandons_of_error (fun _ _ _ => horderly.owned) haborts with
    rfl | ⟨room', body, ended, rfl, h, rfl⟩
  · exact absurd rfl hextended
  · obtain ⟨form, rfl, hform⟩ := body?_engine hforms h.body_eq
    obtain ⟨left, last, hrounds, hends⟩ := h.growth
    rw [Scan.extensions_pop, Scan.extensions_dropMarker] at hextended
    cases hrounds with
    | refl => exact absurd (hends.marked (Scan.marked_enter _ _)).2 hextended
    | next hrun hsettle hrest =>
      -- After its first round the activation has a match to lose, and the rounds that follow
      -- replace it by others.
      obtain ⟨hentered, hwork⟩ := Engine.working_enter horderly h.free
      have hdependable := dependable_toProcedure hform (engine_reliable hforms input room')
      obtain ⟨_, hgrown⟩ :=
        Engine.round_grown genuine_spanned hdependable hwork hentered hrun hsettle
      obtain ⟨found, hgrown⟩ := hrest.grown genuine_spanned hdependable hgrown
      obtain ⟨a, hwork', hgrowing⟩ := hgrown.growing
      have hspared := spares_of_ends hforms hform (spares_of_error hforms) hends hwork'
        hgrown.orderly hwork'.get?_eq hgrowing
      rw [hwork'.rule_eq, hwork'.position_eq, hgrown.find?_eq] at hspared
      exact ⟨found, hspared⟩

/-- An invocation that ends with an error has met no cell. If the match of its activation has not
been extended, it leaves none behind, so that the next invocation at the key evaluates the body,
whatever the bodies are and wherever in the run of a parse it is made. In a grammar of expressions
that is the only case: a match that has been extended stays, and the next invocation at the key is
answered with it. -/
theorem parse_abandoned (parser : Parser S M) (input : Array S) (rule : RuleId)
    (options : Options) (memory : M) :
    (∀ scan, parser.Occurs input rule options memory scan →
      ∀ room rule' position error scan',
        (parser.engine input).invokeWithin room rule' { scan with position } =
          (.error error, scan') →
        scan.memo.find? rule' position = none ∧
        (scan'.extensions ⟨rule', position, scan.stack.depth⟩ =
            scan.extensions ⟨rule', position, scan.stack.depth⟩ →
          scan'.memo.find? rule' position = none ∧
          ∀ room' body, (parser.engine input).body? rule' = some body →
            (parser.engine input).invokeWithin (room' + 1) rule' { scan' with position } =
              (parser.engine input).activate ((parser.engine input).invokeWithin room') rule' body
                { scan' with position })) ∧
    (parser.grammar.OfExpressions → options.start?.getD 0 ≤ input.size →
      ∀ room rule' scan, parser.Calls input rule options memory room rule' scan →
      ∀ error scan', (parser.engine input).invokeWithin room rule' scan = (.error error, scan') →
        scan'.extensions (Engine.siteOf rule' scan) ≠ scan.extensions (Engine.siteOf rule' scan) →
        ∃ found, scan'.memo.find? rule' scan.position = some (.finished (.success found)) ∧
          ∀ room', ((parser.engine input).invokeWithin room' rule'
            { scan' with position := scan.position }).1 = .ok (.success found)) := by
  constructor
  · intro scan hoccurs room rule' position error scan' haborts
    have howned : Scan.Owned { scan with position } :=
      hoccurs.owned (parser.owned_firstScan _ _ _ _)
    refine ⟨Engine.find?_of_error howned (congrArg Prod.fst haborts), fun hsame => ?_⟩
    have hfree : scan'.memo.find? rule' position = none :=
      Engine.free_of_error howned haborts hsame
    refine ⟨hfree, fun room' body hbody => ?_⟩
    simp only [Engine.invokeWithin, Engine.answer, hfree, hbody]
  · intro hforms hstart room rule' scan hcalls error scan' haborts hextended
    obtain ⟨found, hfound⟩ := seed_of_error hforms
      (Calls.marches hforms hstart hcalls).orderly haborts hextended
    refine ⟨found, hfound, fun room' => ?_⟩
    cases room' <;> simp only [Engine.invokeWithin, Engine.answer, hfound]

end Parser

/-- A train is an `x` with any number of `y` behind it, and a yard is where one stands. -/
def Grammar.train : Grammar Char Unit :=
  ⟨[⟨"train", .expression (.choice [.sequence [.rule ⟨0⟩, .rule ⟨1⟩], Expression.text "x"])⟩,
    ⟨"car", .expression (Expression.text "y")⟩,
    ⟨"yard", .expression (.rule ⟨0⟩)⟩]⟩

theorem Grammar.train_ofExpressions : Grammar.train.OfExpressions := by
  intro rule hrule
  simp only [train, List.mem_cons, List.not_mem_nil, or_false] at hrule
  rcases hrule with rfl | rfl | rfl <;> exact ⟨_, rfl⟩

namespace Parser

/-- Where a single activation is allowed for, a yard is abandoned before its train has been found,
and nothing remains of it; a train is abandoned at its first car, and its `x` remains. -/
theorem parse_abandoned_train :
    let parser := new Grammar.train { maxDepth := 1 }
    let engine := parser.engine #['x', 'y']
    let yard := engine.invokeWithin 1 ⟨2⟩ (parser.firstScan 2 ⟨2⟩ 0 ())
    let train := engine.invokeWithin 1 ⟨0⟩ (parser.firstScan 2 ⟨0⟩ 0 ())
    (yard.1 = .error (.tooDeep 1 0) ∧ yard.2.memo.find? ⟨2⟩ 0 = none) ∧
      train.1 = .error (.tooDeep 1 1) ∧
      ∃ found, train.2.memo.find? ⟨0⟩ 0 = some (.finished (.success found)) ∧
        ∀ room, (engine.invokeWithin room ⟨0⟩ { train.2 with position := 0 }).1 =
          .ok (.success found) := by
  intro parser engine yard train
  have herror : ∀ {answer : Answer Tree Unit (Outcome Tree)} {error : ParseError},
      answer.1.map (fun _ => ()) = .error error → answer = (.error error, answer.2) := by
    rintro ⟨result, scan⟩ error h
    cases result <;> cases h
    rfl
  have hyard : yard = (.error (.tooDeep 1 0), yard.2) := herror (by decide +kernel)
  have htrain : train = (.error (.tooDeep 1 1), train.2) := herror (by decide +kernel)
  have hsame : yard.2.extensions ⟨⟨2⟩, 0, 0⟩ = 0 := by decide +kernel
  have hextended : train.2.extensions ⟨⟨0⟩, 0, 0⟩ ≠ 0 := by decide +kernel
  refine ⟨⟨congrArg Prod.fst hyard, ?_⟩, congrArg Prod.fst htrain, ?_⟩
  · have habandoned := (parse_abandoned parser #['x', 'y'] ⟨2⟩ {} ()).1
      (parser.firstScan 2 ⟨2⟩ 0 ()) (.called .here) 1 ⟨2⟩ 0 _ _ hyard
    exact (habandoned.2 hsame).1
  · exact (parse_abandoned parser #['x', 'y'] ⟨0⟩ {} ()).2 Grammar.train_ofExpressions
      (by decide) 1 ⟨0⟩ (parser.firstScan 2 ⟨0⟩ 0 ()) .here _ _ htrain hextended

/-- The error of a train leaves a cell behind where there was none. -/
theorem parse_leftover :
    let parser := new Grammar.train { maxDepth := 1 }
    ¬ ∀ scan, parser.Occurs #['x', 'y'] ⟨0⟩ {} () scan →
      ∀ room rule position error scan',
        scan.memo.find? rule position = none →
        (parser.engine #['x', 'y']).invokeWithin room rule { scan with position } =
          (.error error, scan') →
        scan'.memo.find? rule position = none := by
  intro parser h
  let scan := parser.firstScan 2 ⟨0⟩ 0 ()
  let answer := (parser.engine #['x', 'y']).invokeWithin 1 ⟨0⟩ scan
  have haborts : answer.1.map (fun _ => ()) = .error (.tooDeep 1 1) := by decide +kernel
  have hleft : (answer.2.memo.find? ⟨0⟩ 0).isSome = true := by decide +kernel
  cases hanswer : answer with
  | mk result scan' =>
  rw [hanswer] at haborts hleft
  cases result with
  | ok outcome => cases haborts
  | error error =>
    have hgone := h scan (.called .here) 1 ⟨0⟩ 0 error scan' MemoTable.find?_empty hanswer
    rw [hgone] at hleft
    cases hleft

end Parser

end LeftPeg
