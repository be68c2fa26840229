import LeftPeg.Proofs.Orderly
import LeftPeg.Invocation

/-!
# One attempt

What becomes of an attempt of the activation on top: `Scan.settle_spec` says that it either answers
the activation (`Scan.Answered`) or gives it a longer seed (`Scan.Grown`), and that the activations
below are undisturbed either way.  There is no third case, so growth cannot miss its seed.
-/

namespace LeftPeg

namespace ActivationStack

variable {V : Type} {stack : ActivationStack V} {slot : Nat}

/-- While an activation is live, the one started last can be released. -/
theorem pop_of_depth (h : stack.depth = slot + 1) :
    ∃ rest, stack.pop = .ok (slot, rest) ∧ rest.depth = slot ∧
      ∀ i, rest.get? i = if i < slot then stack.get? i else none := by
  cases hpop : stack.pop with
  | error defect =>
    -- Only an empty stack has nothing to release.
    unfold pop at hpop
    split at hpop
    · rename_i hlive
      have hdepth := stack.depth_eq
      rw [hlive, List.length_nil] at hdepth
      omega
    · exact nomatch hpop
  | ok popped =>
    obtain ⟨released, rest⟩ := popped
    obtain ⟨rfl, -, top, htop⟩ := pop_eq_ok hpop
    have hlength : stack.depth = rest.depth + 1 := by
      rw [← length_toList, htop, List.length_append, length_toList, List.length_singleton]
    have hslot : rest.depth = slot := by omega
    subst hslot
    -- Bottom first, what was released stands at the end.
    refine ⟨rest, rfl, rfl, fun i => ?_⟩
    rw [get?_eq, get?_eq, htop, List.getElem?_append, length_toList]
    split
    · rfl
    · rw [List.getElem?_eq_none]
      rw [length_toList]
      omega

end ActivationStack

namespace Verdict

theorem of_eq_accept_iff {stage : Stage} {attempt? best? : Option Nat} :
    of stage attempt? best? = .accept ↔ stage = .plain := by
  cases stage <;> cases attempt? <;> cases best? <;> simp [of] <;> split <;> simp

/-- There is a match to finish with: the seed of a growing activation, or the best match that the
attempt was compared with. -/
theorem seed_of_finish {stage : Stage} {attempt? best? : Option Nat}
    (h : of stage attempt? best? = .finish) : stage = .growing ∨ best?.isSome := by
  cases stage <;> cases attempt? <;> cases best? <;> simp [of] at h ⊢

end Verdict

/-- A match that is kept begins where it was asked for and ends in the input. -/
def Spanned {V : Type} (kept : RuleId → Nat → Outcome V → Prop) (size : Nat) : Prop :=
  ∀ ⦃rule position found⦄, kept rule position (.success found) →
    position ≤ found.stop ∧ found.stop ≤ size

namespace Scan

variable {V M : Type} {kept : RuleId → Nat → Outcome V → Prop} {size : Nat}

/-- The state of the run is orderly. -/
def Orderly (kept : RuleId → Nat → Outcome V → Prop) (size : Nat) (scan : Scan V M) : Prop :=
  LeftPeg.Orderly kept size scan.memo scan.stack scan.position

/-- From one scan to the other, the first `depth` activations are undisturbed. -/
def Undisturbed (depth : Nat) (scan scan' : Scan V M) : Prop :=
  LeftPeg.Undisturbed depth scan.memo scan.stack scan'.memo scan'.stack

/-- The rule of the site is under evaluation in the slot started last. -/
structure Working (site : Site) (scan : Scan V M) (activation : Activation V) : Prop where
  depth_eq : scan.stack.depth = site.slot + 1
  get?_eq : scan.stack.get? site.slot = some activation
  rule_eq : activation.rule = site.rule
  position_eq : activation.position = site.position

/-- The activation of the site has its answer, and can be released from the stack. -/
structure Answered (kept : RuleId → Nat → Outcome V → Prop) (size : Nat) (site : Site)
    (scan scan' : Scan V M) (outcome : Outcome V) : Prop where
  answer_kept : kept site.rule site.position outcome
  position_eq : scan'.position = outcome.stop?.getD site.position
  find?_eq : scan'.memo.find? site.rule site.position = some (.finished outcome)
  depth_eq : scan'.stack.depth = site.slot + 1
  released : ∀ rest : ActivationStack V,
    (∀ i, rest.get? i = if i < site.slot then scan'.stack.get? i else none) →
      LeftPeg.Orderly kept size scan'.memo rest scan'.position ∧
        LeftPeg.Undisturbed site.slot scan.memo scan.stack scan'.memo rest

section

variable {site : Site} {scan scan' : Scan V M} {a : Activation V} {attempt outcome : Outcome V}

theorem Working.position_le (hwork : Working site scan a) (h : scan.Orderly kept size) :
    site.position ≤ size := by
  rw [← hwork.position_eq]
  exact Nat.le_trans (h.reached hwork.get?_eq) h.position_le

/-- An activation is answered when its cell holds the answer and no other cell of a live activation
has changed. -/
theorem Working.answered (hwork : Working site scan a) (h : scan.Orderly kept size)
    (hspan : Spanned kept size) (hkept : kept site.rule site.position outcome)
    (hposition : scan'.position = outcome.stop?.getD site.position)
    (hfind : scan'.memo.find? site.rule site.position = some (.finished outcome))
    (hdepth : scan'.stack.depth = site.slot + 1)
    (hstack : ∀ i, i < site.slot → scan'.stack.get? i = scan.stack.get? i)
    (hlive : ∀ i b, i < site.slot → scan.stack.get? i = some b →
      scan'.memo.find? b.rule b.position = scan.memo.find? b.rule b.position)
    (hmarkers : ∀ r p i, scan'.memo.find? r p = some (.inProgress i) →
      scan.memo.find? r p = some (.inProgress i))
    (hmemo : ∀ r p o, scan'.memo.find? r p = some (.finished o) → kept r p o) :
    Answered kept size site scan scan' outcome := by
  refine ⟨hkept, hposition, hfind, hdepth, fun rest hrest => ?_⟩
  -- Released, the stack is what it was below the slot before the answer was written.
  have hrest' : ∀ i, rest.get? i = if i < site.slot then scan.stack.get? i else none := by
    intro i
    rw [hrest]
    split
    · exact hstack i ‹_›
    · rfl
  have hpos : site.position ≤ scan'.position ∧ scan'.position ≤ size := by
    rw [hposition]
    cases outcome with
    | success found => exact hspan hkept
    | failure => exact ⟨Nat.le_refl _, hwork.position_le h⟩
  constructor
  -- Order is what a release leaves; below the slot neither stack nor cells have changed.
  · have hown : scan'.memo.find? a.rule a.position = some (.finished outcome) := by
      rw [hwork.rule_eq, hwork.position_eq, hfind]
    refine h.release hwork.depth_eq hwork.get?_eq hrest' hown hlive hmarkers hmemo ?_ hpos.2
    · rw [hwork.position_eq]
      exact hpos.1
  · intro slot b hslot hb
    refine ⟨b, ?_, .refl b, Iff.rfl, fun _ => hlive slot b hslot hb⟩
    rw [hrest', if_pos hslot, hb]

/-- No activation below the one at work has its key. -/
theorem Working.key_ne (hwork : Working site scan a) (h : scan.Orderly kept size) {i : Nat}
    {b : Activation V} (hlt : i < site.slot) (hb : scan.stack.get? i = some b) :
    ¬ (site.rule = b.rule ∧ site.position = b.position) := by
  rintro ⟨hrule, hposition⟩
  have hsame := h.distinct hb hwork.get?_eq (hrule.symm.trans hwork.rule_eq.symm)
    (hposition.symm.trans hwork.position_eq.symm)
  omega

/-- To write down the answer of the activation at work is to answer it. -/
theorem Working.answered_put (hwork : Working site scan a) (h : scan.Orderly kept size)
    (hspan : Spanned kept size) (hkept : kept site.rule site.position outcome)
    (hposition : scan'.position = outcome.stop?.getD site.position)
    (hmemo : scan'.memo = scan.memo.put site.rule site.position (.finished outcome))
    (hdepth : scan'.stack.depth = scan.stack.depth)
    (hstack : ∀ i, i < site.slot → scan'.stack.get? i = scan.stack.get? i) :
    Answered kept size site scan scan' outcome := by
  refine hwork.answered h hspan hkept hposition ?_ (hdepth.trans hwork.depth_eq) hstack ?_ ?_ ?_
  · rw [hmemo]
    exact MemoTable.find?_put_self
  · intro i b hlt hb
    rw [hmemo, MemoTable.find?_put, if_neg (hwork.key_ne h hlt hb)]
  · intro r p i hmarker
    rw [hmemo, MemoTable.find?_put] at hmarker
    split at hmarker
    · exact nomatch hmarker
    · exact hmarker
  · intro r p o hfind
    rw [hmemo, MemoTable.find?_put] at hfind
    split at hfind
    · rename_i hkey
      injection hfind with hfind
      injection hfind with hfind
      rw [← hkey.1, ← hkey.2, ← hfind]
      exact hkept
    · exact h.memo_kept hfind

theorem get?_atStage (scan : Scan V M) (site : Site) (stage : Stage) (i : Nat) :
    (scan.atStage site stage).stack.get? i =
      if site.slot = i then (scan.stack.get? i).map fun b => b.atStage stage
      else scan.stack.get? i :=
  ActivationStack.get?_modify _

theorem find?_of_match {best : Match V}
    (h : (scan.memo.outcome? site.rule site.position).bind Outcome.match? = some best) :
    scan.memo.find? site.rule site.position = some (.finished (.success best)) := by
  obtain ⟨outcome, houtcome, hmatch⟩ := Option.bind_eq_some_iff.mp h
  rw [MemoTable.outcome?_eq_some_iff.mp houtcome]
  cases outcome with
  | failure => cases hmatch
  | success found => rw [Option.some.inj hmatch]

/-- Without a match in the activation's cell, there is nothing to finish with. -/
theorem finish_of_none
    (h : (scan.memo.outcome? site.rule site.position).bind Outcome.match? = none) :
    scan.finish site =
      (.error (.defect (.missingSeed site.rule site.position)), scan.atStage site .plain) := by
  have hmemo : (scan.atStage site .plain).memo = scan.memo := rfl
  unfold finish
  simp only [hmemo, h]

/-- Finishing answers with the match in the activation's cell and puts back what had been set
aside. -/
theorem finish_eq {best : Match V} (hget : scan.stack.get? site.slot = some a)
    (hbest : scan.memo.find? site.rule site.position = some (.finished (.success best))) :
    scan.finish site =
      (.ok (some (.success best)),
        { scan with
          position := best.stop
          memo := ((a.atStage .plain).putBack scan.memo).2
          stack := (scan.atStage site .plain).stack.modify site.slot fun _ =>
            ((a.atStage .plain).putBack scan.memo).1
          history := .grown site.rule site.position best.stop :: scan.history }) := by
  have hplain : (scan.atStage site .plain).stack.get? site.slot = some (a.atStage .plain) := by
    rw [get?_atStage, if_pos rfl, hget]
    rfl
  have hmemo : (scan.atStage site .plain).memo = scan.memo := rfl
  have houtcome : scan.memo.outcome? site.rule site.position = some (.success best) :=
    MemoTable.outcome?_eq_some_iff.mpr hbest
  unfold finish
  simp only [hmemo, houtcome, Option.bind_some, Outcome.match?, Ledger.putBack, hplain]
  rfl

/-- Extending sets aside the outcomes of the rules involved and writes the attempt into the
activation's cell. -/
theorem extend_eq (hget : scan.stack.get? site.slot = some a) (attempt : Outcome V) :
    scan.extend site attempt =
      (.ok none,
        { scan with
          position := site.position
          memo := ((a.atStage .growing).setAside scan.memo).2.put site.rule site.position
            (.finished attempt)
          stack := (scan.atStage site .growing).stack.modify site.slot fun _ =>
            ((a.atStage .growing).setAside scan.memo).1 }) := by
  have hgrowing : (scan.atStage site .growing).stack.get? site.slot =
      some (a.atStage .growing) := by
    rw [get?_atStage, if_pos rfl, hget]
    rfl
  unfold extend
  simp only [Ledger.setAside, hgrowing]
  rfl

/-- Growth ends with the seed. The outcomes put back belong to rules that are not under evaluation
at the activation's position. -/
theorem finish_answered (hwork : Working site scan a) (h : scan.Orderly kept size)
    (hspan : Spanned kept size) {best : Match V}
    (hbest : scan.memo.find? site.rule site.position = some (.finished (.success best))) :
    ∃ scan', scan.finish site = (.ok (some (.success best)), scan') ∧
      Answered kept size site scan scan' (.success best) := by
  have hfind : ∀ r p, ((a.atStage .plain).putBack scan.memo).2.find? r p =
      if r ∈ a.involved ∧ p = a.position ∧ ¬ (scan.memo.find? r p).any Entry.isInProgress then
        (a.aside.lookup r).map .finished
      else scan.memo.find? r p := fun r p => Activation.find?_putBack
  refine ⟨_, finish_eq hwork.get?_eq hbest, ?_⟩
  refine hwork.answered h hspan (h.memo_kept hbest) rfl ?_ ?_ ?_ ?_ ?_ ?_
  -- A rule is not involved in its own cycle, so its cell keeps the seed.
  · dsimp only
    rw [hfind, if_neg, hbest]
    rintro ⟨hinvolved, -, -⟩
    exact h.apart hwork.get?_eq hinvolved (Nat.le_refl _) hwork.get?_eq rfl hwork.rule_eq
  · dsimp only
    rw [ActivationStack.depth_modify]
    exact (ActivationStack.depth_modify _).trans hwork.depth_eq
  · intro i hlt
    dsimp only
    rw [ActivationStack.get?_modify, if_neg (Nat.ne_of_gt hlt), get?_atStage,
      if_neg (Nat.ne_of_gt hlt)]
  -- Nor is the rule of any activation of this position below it.
  · intro i b hlt hb
    dsimp only
    rw [hfind, if_neg]
    rintro ⟨hinvolved, hposition, -⟩
    exact h.apart hwork.get?_eq hinvolved (Nat.le_of_lt hlt) hb hposition rfl
  · intro r p i hmarker
    dsimp only at hmarker
    rw [hfind] at hmarker
    split at hmarker
    · cases hlookup : a.aside.lookup r <;> simp [hlookup] at hmarker
    · exact hmarker
  · intro r p o hfinished
    dsimp only at hfinished
    rw [hfind] at hfinished
    split at hfinished
    · rename_i hput
      -- What is put back had been set aside by this activation, and was kept then.
      obtain ⟨-, rfl, -⟩ := hput
      cases hlookup : a.aside.lookup r with
      | none => simp [hlookup] at hfinished
      | some outcome =>
        rw [hlookup] at hfinished
        injection hfinished with hfinished
        injection hfinished with hfinished
        subst hfinished
        obtain ⟨before, after, haside, -⟩ := List.lookup_eq_some_iff.mp hlookup
        have hmem : (r, outcome) ∈ a.aside := by simp [haside]
        exact h.aside_kept hwork.get?_eq hmem
    · exact h.memo_kept hfinished

/-- The match found last is the seed of the activation at work. -/
structure Grown (kept : RuleId → Nat → Outcome V → Prop) (size : Nat) (site : Site)
    (scan scan' : Scan V M) (found : Match V) : Prop where
  orderly : scan'.Orderly kept size
  growing : ∃ a, Working site scan' a ∧ a.stage = .growing
  position_eq : scan'.position = site.position
  find?_eq : scan'.memo.find? site.rule site.position = some (.finished (.success found))
  undisturbed : scan.Undisturbed site.slot scan'

theorem extend_grown (hwork : Working site scan a) (h : scan.Orderly kept size)
    {found : Match V} (hfound : kept site.rule site.position (.success found)) :
    ∃ scan', scan.extend site (.success found) = (.ok none, scan') ∧
      Grown kept size site scan scan' found := by
  -- The stage is changed first and the account afterwards, both in the same slot.
  have hget : ∀ i, ((scan.atStage site .growing).stack.modify site.slot fun _ =>
      ((a.atStage .growing).setAside scan.memo).1).get? i =
      if site.slot = i then
        some { a with stage := .growing, aside := (a.setAside scan.memo).1.aside }
      else scan.stack.get? i := by
    intro i
    rw [ActivationStack.get?_modify, get?_atStage]
    split
    · rename_i heq
      subst heq
      rw [hwork.get?_eq]
      rfl
    · rfl
  refine ⟨_, extend_eq hwork.get?_eq _, ?_⟩
  constructor
  case orderly =>
    have hown : kept a.rule a.position (.success found) := by
      rw [hwork.rule_eq, hwork.position_eq]
      exact hfound
    have hgrow := Orderly.grow h hwork.depth_eq hwork.get?_eq hget hown
    rw [hwork.rule_eq, hwork.position_eq] at hgrow
    exact hgrow
  case growing =>
    refine ⟨_, ⟨?_, (hget site.slot).trans (if_pos rfl), hwork.rule_eq, hwork.position_eq⟩, rfl⟩
    dsimp only
    rw [ActivationStack.depth_modify]
    exact (ActivationStack.depth_modify _).trans hwork.depth_eq
  case position_eq => rfl
  case find?_eq => exact MemoTable.find?_put_self
  case undisturbed =>
    intro slot b hslot hb
    refine ⟨b, ?_, .refl b, Iff.rfl, fun _ => ?_⟩
    · dsimp only
      rw [hget, if_neg (Nat.ne_of_gt hslot), hb]
    · dsimp only
      rw [MemoTable.find?_put, if_neg (hwork.key_ne h hslot hb), Activation.find?_setAside, if_neg]
      rintro ⟨hinvolved, hposition, -⟩
      exact h.apart hwork.get?_eq hinvolved (Nat.le_of_lt hslot) hb hposition rfl

/-- The scan in which an attempt of the activation at work, at `stage`, is decided: its parents
know of its cycle. -/
def judging (scan : Scan V M) (site : Site) (stage : Stage) (attempt : Outcome V) : Scan V M :=
  { scan with
    stack := if stage.isRecursive then scan.stack.report site.slot else scan.stack }.record
    (.attempted site.rule site.position site.slot stage
      (Verdict.of stage attempt.stop? (scan.best? site)) attempt.stop? (scan.best? site))

theorem settle_eq (hget : scan.stack.get? site.slot = some a) :
    scan.settle site attempt =
      match Verdict.of a.stage attempt.stop? (scan.best? site) with
      | .accept => (scan.judging site a.stage attempt).accept site attempt
      | .grow => (scan.judging site a.stage attempt).extend site attempt
      | .finish => (scan.judging site a.stage attempt).finish site
      | .fail => (scan.judging site a.stage attempt).failSeed site := by
  unfold settle judging
  rw [hget]
  by_cases hrecursive : a.stage.isRecursive = true
  · simp only [hrecursive, if_true]
    rfl
  · simp only [hrecursive]
    rfl

theorem settle_of_get?_eq_none (hget : scan.stack.get? site.slot = none) :
    scan.settle site attempt = (.error (orphaned site), scan) := by
  simp only [settle, hget]

/-- What the steps keep that a decision may consist of, the decision keeps. -/
theorem settle_keeps (Keeps : Scan V M → Prop)
    (horphaned : scan.stack.get? site.slot = none → Keeps scan)
    (hjudging : ∀ a, scan.stack.get? site.slot = some a → Keeps (scan.judging site a.stage attempt))
    (hmove : ∀ (scan : Scan V M) position, Keeps scan → Keeps { scan with position })
    (hstage : ∀ (scan : Scan V M) stage, Keeps scan → Keeps (scan.atStage site stage))
    (hmemoise : ∀ (scan : Scan V M) outcome, Keeps scan → Keeps (scan.memoise site outcome))
    (hsetAside : ∀ scan : Scan V M, Keeps scan →
      Keeps { scan with toLedger := scan.toLedger.setAside site.slot })
    (hputBack : ∀ scan : Scan V M, Keeps scan →
      Keeps { scan with toLedger := scan.toLedger.putBack site.slot })
    (hgrown : ∀ (scan : Scan V M) stop, Keeps scan →
      Keeps (scan.record (.grown site.rule site.position stop)))
    (hfailed : ∀ scan : Scan V M, Keeps scan →
      Keeps (scan.record (.seedFailed site.rule site.position))) :
    Keeps (scan.settle site attempt).2 := by
  cases hget : scan.stack.get? site.slot with
  | none =>
    rw [settle_of_get?_eq_none hget]
    exact horphaned hget
  | some a =>
    have hjudged := hjudging a hget
    rw [settle_eq hget]
    cases Verdict.of a.stage attempt.stop? (scan.best? site) with
    | accept => exact hmemoise _ _ (hmove _ _ hjudged)
    | grow => exact hmemoise _ _ (hsetAside _ (hmove _ _ (hstage _ _ hjudged)))
    | finish =>
      unfold finish
      dsimp only
      split
      · exact hstage _ _ hjudged
      · rename_i best hbest
        have hplain := hmove _ best.stop (hstage _ .plain hjudged)
        exact hgrown _ _ (hputBack _ hplain)
    | fail => exact hfailed _ (hmemoise _ _ (hmove _ _ (hstage _ _ hjudged)))

/-- A decision changes the stack by reports, and by changes of one activation each that leave its key
to it. -/
theorem settle_keeps_stack (Keeps : ActivationStack V → Prop) (h : Keeps scan.stack)
    (hmodify : ∀ (stack : ActivationStack V) slot (f : Activation V → Activation V),
      (∀ a, stack.get? slot = some a → (f a).key = a.key) → Keeps stack →
      Keeps (stack.modify slot f))
    (hreport : ∀ (stack : ActivationStack V) slot, Keeps stack → Keeps (stack.report slot)) :
    Keeps (scan.settle site attempt).2.stack := by
  refine settle_keeps (fun scan => Keeps scan.stack) (fun _ => h) (fun a _ => ?_) (fun _ _ => id)
    (fun scan stage => hmodify _ _ _ fun _ _ => rfl) (fun _ _ => id) (fun scan hkept => ?_)
    (fun scan hkept => ?_) (fun _ _ => id) (fun _ => id)
  -- Only a recursive activation has a report to make.
  · unfold judging record
    dsimp only
    split
    · exact hreport _ _ h
    · exact h
  · show Keeps (scan.toLedger.setAside site.slot).stack
    unfold Ledger.setAside
    split
    · exact hkept
    · rename_i a ha
      refine hmodify _ _ _ (fun b hb => ?_) hkept
      obtain rfl := Option.some.inj (ha.symm.trans hb)
      rfl
  · show Keeps (scan.toLedger.putBack site.slot).stack
    unfold Ledger.putBack
    split
    · exact hkept
    · rename_i a ha
      refine hmodify _ _ _ (fun b hb => ?_) hkept
      obtain rfl := Option.some.inj (ha.symm.trans hb)
      rfl

/-- To drop a marker changes nothing but the table. -/
theorem exists_dropMarker (scan : Scan V M) (site : Site) :
    ∃ memo, scan.dropMarker site = { scan with memo } := by
  unfold dropMarker
  split
  · split <;> exact ⟨_, rfl⟩
  · exact ⟨_, rfl⟩

/-- To release an activation changes nothing but the stack. -/
theorem exists_pop (scan : Scan V M) : ∃ stack, scan.pop.2 = { scan with stack } := by
  unfold pop
  split <;> exact ⟨_, rfl⟩

/-- The activations that are left after a release were there before. -/
theorem get?_of_pop {slot : Nat} {left : Activation V}
    (h : scan.pop.2.stack.get? slot = some left) : scan.stack.get? slot = some left := by
  unfold pop at h
  split at h
  · rename_i released rest hpop
    obtain ⟨-, -, top, htop⟩ := ActivationStack.pop_eq_ok hpop
    rw [ActivationStack.get?_eq] at h ⊢
    rw [htop]
    exact (List.getElem?_append_left (List.getElem?_eq_some_iff.mp h).1).trans h
  · exact h

/-- What a decision starts from is as orderly as the scan of the attempt. -/
theorem Working.judging (hwork : Working site scan a) (attempt : Outcome V)
    (h : scan.Orderly kept size) :
    ∃ b, Working site (scan.judging site a.stage attempt) b ∧ b.stage = a.stage ∧
      (scan.judging site a.stage attempt).Orderly kept size ∧
      scan.Undisturbed site.slot (scan.judging site a.stage attempt) := by
  by_cases hrecursive : a.stage.isRecursive = true
  -- An activation on a cycle tells its parents first, which is a retelling.
  · have hstack : (scan.judging site a.stage attempt).stack = scan.stack.report site.slot := by
      simp [Scan.judging, record, hrecursive]
    have hretelling := retelling_report hwork.get?_eq
    have hspec := ActivationStack.onReport_spec a site.slot site.slot a
    refine ⟨ActivationStack.onReport a site.slot site.slot a, ⟨?_, ?_, ?_, ?_⟩, hspec.2.1, ?_, ?_⟩
    · rw [hstack, ActivationStack.depth_report, hwork.depth_eq]
    · rw [hstack, hretelling.get?_eq, hwork.get?_eq]
      rfl
    · rw [hspec.1.rule_eq, hwork.rule_eq]
    · rw [hspec.1.position_eq, hwork.position_eq]
    · unfold Orderly
      rw [hstack]
      exact Orderly.report h
    · unfold Undisturbed
      rw [hstack]
      exact hretelling.undisturbed
  · have hstack : (scan.judging site a.stage attempt).stack = scan.stack := by
      simp [Scan.judging, record, hrecursive]
    refine ⟨a, ⟨?_, ?_, hwork.rule_eq, hwork.position_eq⟩, rfl, ?_, ?_⟩
    · rw [hstack, hwork.depth_eq]
    · rw [hstack, hwork.get?_eq]
    · unfold Orderly
      rw [hstack]
      exact h
    · unfold Undisturbed
      rw [hstack]
      exact Undisturbed.refl

theorem Answered.of_undisturbed {scan₀ : Scan V M} (h : scan₀.Undisturbed site.slot scan)
    (hanswered : Answered kept size site scan scan' outcome) :
    Answered kept size site scan₀ scan' outcome :=
  { hanswered with
    released := fun rest hrest =>
      ⟨(hanswered.released rest hrest).1, h.trans (hanswered.released rest hrest).2⟩ }

/-- An attempt either answers its activation or gives it a longer seed. -/
theorem settle_spec (hwork : Working site scan a) (h : scan.Orderly kept size)
    (hspan : Spanned kept size) (hattempt : kept site.rule site.position attempt) :
    (∃ outcome scan', scan.settle site attempt = (.ok (some outcome), scan') ∧
      Answered kept size site scan scan' outcome) ∨
    (∃ found scan', attempt = .success found ∧ scan.settle site attempt = (.ok none, scan') ∧
      Grown kept size site scan scan' found ∧
      ∀ best, scan.memo.find? site.rule site.position = some (.finished (.success best)) →
        best.stop < found.stop) := by
  obtain ⟨b, hjudging, hstage, horderly, hundisturbed⟩ := hwork.judging attempt h
  rw [settle_eq hwork.get?_eq]
  cases hverdict : Verdict.of a.stage attempt.stop? (scan.best? site) with
  | accept =>
    left
    refine ⟨attempt, _, rfl, Answered.of_undisturbed hundisturbed ?_⟩
    exact hjudging.answered_put horderly hspan hattempt rfl rfl rfl fun _ _ => rfl
  | grow =>
    right
    obtain ⟨-, stop, hstop, hlonger⟩ := Verdict.of_eq_grow_iff.mp hverdict
    cases attempt with
    | failure => exact nomatch hstop
    | success found =>
      injection hstop with hstop
      obtain ⟨scan', hextend, hgrown⟩ := extend_grown hjudging horderly hattempt
      refine ⟨found, scan', rfl, hextend,
        { hgrown with undisturbed := hundisturbed.trans hgrown.undisturbed }, ?_⟩
      -- The verdict compares with the match in the cell, and so the seed has grown.
      intro best hbest
      rw [hstop]
      refine hlonger best.stop ?_
      rw [best?, MemoTable.outcome?_eq_some_iff.mpr hbest]
      rfl
  | finish =>
    left
    -- The verdict says that there is a match, and the state that it is in the activation's cell.
    have hseed : ∃ best,
        scan.memo.find? site.rule site.position = some (.finished (.success best)) := by
      rcases Verdict.seed_of_finish hverdict with hgrowing | hbest
      · have := h.seeded hwork.get?_eq hgrowing
        rwa [hwork.rule_eq, hwork.position_eq] at this
      · unfold best? at hbest
        cases houtcome : scan.memo.outcome? site.rule site.position with
        | none => simp [houtcome] at hbest
        | some outcome =>
          cases outcome with
          | failure => simp [houtcome] at hbest
          | success best => exact ⟨best, MemoTable.outcome?_eq_some_iff.mp houtcome⟩
    obtain ⟨best, hbest⟩ := hseed
    obtain ⟨scan', hfinish, hanswered⟩ := finish_answered hjudging horderly hspan hbest
    exact ⟨_, scan', hfinish, hanswered.of_undisturbed hundisturbed⟩
  | fail =>
    left
    obtain ⟨-, hfailed⟩ := Verdict.of_eq_fail_iff.mp hverdict
    cases attempt with
    | success found => exact nomatch hfailed
    | failure =>
      refine ⟨.failure, _, rfl, Answered.of_undisturbed hundisturbed ?_⟩
      refine hjudging.answered_put horderly hspan hattempt rfl rfl ?_ ?_
      · exact ActivationStack.depth_modify _
      · intro i hlt
        exact (get?_atStage _ _ _ i).trans (if_neg (Nat.ne_of_gt hlt))

end

end Scan

end LeftPeg
