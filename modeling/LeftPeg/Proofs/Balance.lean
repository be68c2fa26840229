import LeftPeg.Proofs.Passing
import LeftPeg.Proofs.Parse

/-!
# Markers and the stack

Whatever a body does, the table and the stack stay in step. It may move backwards, return a match
that it has not found, or go on after an error, so that a key can lose its cell while its activation
is live and start another activation further up. What still holds is that each marker names a live
activation of its key (`Scan.Owned`), and that an invocation leaves the keys under evaluation as it
found them (`Scan.Balanced`), which is enough to rule out the defects of the stack.

`Engine.invokeWithin_balanced` proves it of an invocation, by induction on the room left for
activations; `Engine.Occurs.owned` reads it for every scan of a run, and
`Engine.raised_of_imbalance` traces a defect of the stack to a body that made it up.
-/

namespace LeftPeg

variable {S V M α : Type}

/-! ## The keys under evaluation -/

namespace ActivationStack

variable {stack stack' rest : ActivationStack V} {slot : Nat}

/-- The keys under evaluation, bottom first. -/
def keys (stack : ActivationStack V) : List MemoKey :=
  stack.toList.map Activation.key

@[simp] theorem length_keys : stack.keys.length = stack.depth := by
  simp [keys]

theorem getElem?_keys : stack.keys[slot]? = (stack.get? slot).map Activation.key := by
  rw [keys, List.getElem?_map, get?_eq]

@[simp] theorem keys_push (rule : RuleId) (position : Nat) :
    (stack.push rule position).keys = stack.keys ++ [⟨rule, position⟩] := by
  simp [keys, Activation.key]

/-- Changes of activations that keep their keys keep the keys. -/
theorem keys_eq_of_get? {f : Nat → Activation V → Activation V}
    (hget : ∀ i, stack'.get? i = (stack.get? i).map (f i))
    (hkey : ∀ i a, stack.get? i = some a → (f i a).key = a.key) : stack'.keys = stack.keys := by
  apply List.ext_getElem?
  intro i
  rw [getElem?_keys, getElem?_keys, hget]
  cases ha : stack.get? i with
  | none => rfl
  | some a => simp [hkey i a ha]

theorem keys_modify {f : Activation V → Activation V}
    (hkey : ∀ a, stack.get? slot = some a → (f a).key = a.key) :
    (stack.modify slot f).keys = stack.keys := by
  apply keys_eq_of_get? (f := fun i a => if slot = i then f a else a)
  · intro i
    rw [get?_modify]
    split <;> simp
  · intro i a ha
    split
    · rename_i heq
      exact hkey a (heq ▸ ha)
    · rfl

theorem keys_reenter : (stack.reenter slot).keys = stack.keys := by
  apply keys_eq_of_get? (fun i => get?_reenter)
  intro i a _
  unfold onReenter
  split
  · simp [Activation.key, Activation.atStage, (a.sameCall_involveAll _).rule_eq,
      (a.sameCall_involveAll _).position_eq]
  · split
    · simp [Activation.key, (a.sameCall_addParent _).rule_eq,
        (a.sameCall_addParent _).position_eq]
    · rfl

theorem keys_report : (stack.report slot).keys = stack.keys := by
  cases hhead : stack.get? slot with
  | none => simp [report, hhead]
  | some head =>
    apply keys_eq_of_get? (fun i => get?_report hhead)
    intro i a _
    have hcall := (onReport_spec head slot i a).1
    simp [Activation.key, hcall.rule_eq, hcall.position_eq]

/-- What is released is the activation of the last key. -/
theorem pop_of_keys {below : List MemoKey} {key : MemoKey} (h : stack.keys = below ++ [key]) :
    ∃ rest, stack.pop = .ok (below.length, rest) ∧ rest.keys = below := by
  have hdepth : stack.depth = below.length + 1 := by
    rw [← length_keys, h, List.length_append, List.length_singleton]
  obtain ⟨rest, hpop, -, hrest⟩ := pop_of_depth hdepth
  refine ⟨rest, hpop, ?_⟩
  apply List.ext_getElem?
  intro i
  rw [getElem?_keys, hrest]
  split
  · rename_i hlt
    rw [← getElem?_keys, h, List.getElem?_append_left hlt]
  · rename_i hle
    rw [List.getElem?_eq_none (by omega)]
    rfl

end ActivationStack

/-! ## Owned markers -/

namespace Scan

variable {scan scan' scan'' : Scan V M} {site : Site} {below : List MemoKey}

/-- Each marker names a live activation, of the marker's rule and position. -/
def Owned (scan : Scan V M) : Prop :=
  ∀ ⦃rule position slot⦄, scan.memo.find? rule position = some (.inProgress slot) →
    ∃ a, scan.stack.get? slot = some a ∧ a.rule = rule ∧ a.position = position

/-- An owned marker stands for the key in its slot. -/
theorem owned_iff : scan.Owned ↔
    ∀ ⦃rule position slot⦄, scan.memo.find? rule position = some (.inProgress slot) →
      scan.stack.keys[slot]? = some ⟨rule, position⟩ := by
  simp only [Owned, ActivationStack.getElem?_keys, Option.map_eq_some_iff, Activation.key,
    MemoKey.mk.injEq]

/-- The second scan is as sound as a scan can be, and no activation has come or gone. -/
structure Balanced (scan scan' : Scan V M) : Prop where
  owned : scan'.Owned
  keys_eq : scan'.stack.keys = scan.stack.keys

theorem Owned.balanced (h : scan.Owned) : scan.Balanced scan :=
  ⟨h, rfl⟩

theorem Balanced.trans (h : scan.Balanced scan') (h' : scan'.Balanced scan'') :
    scan.Balanced scan'' :=
  ⟨h'.owned, h'.keys_eq.trans h.keys_eq⟩

theorem Balanced.depth_eq (h : scan.Balanced scan') : scan'.stack.depth = scan.stack.depth := by
  rw [← ActivationStack.length_keys, h.keys_eq, ActivationStack.length_keys]

/-- A step that writes no marker and keeps the keys keeps the balance. -/
theorem Owned.balanced_of (h : scan.Owned) (hkeys : scan'.stack.keys = scan.stack.keys)
    (hmarkers : ∀ rule position slot,
      scan'.memo.find? rule position = some (.inProgress slot) →
      scan.memo.find? rule position = some (.inProgress slot)) : scan.Balanced scan' := by
  refine ⟨owned_iff.mpr fun rule position slot hmarker => ?_, hkeys⟩
  rw [hkeys]
  exact owned_iff.mp h (hmarkers rule position slot hmarker)

/-! ## Settling an attempt -/

theorem keys_atStage (scan : Scan V M) (site : Site) (stage : Stage) :
    (scan.atStage site stage).stack.keys = scan.stack.keys :=
  ActivationStack.keys_modify fun _ _ => rfl

/-- To remember an outcome is to write no marker. -/
theorem marker_of_put {table : MemoTable V} {rule rule' : RuleId} {position position' slot : Nat}
    {outcome : Outcome V}
    (h : (table.put rule position (.finished outcome)).find? rule' position' =
      some (.inProgress slot)) :
    table.find? rule' position' = some (.inProgress slot) ∧
      ¬ (rule = rule' ∧ position = position') := by
  rw [MemoTable.find?_put] at h
  split at h
  · exact nomatch h
  · rename_i hother
    exact ⟨h, hother⟩

/-- What settling an attempt comes to, whatever the attempt. An answer takes the place of the
marker. -/
structure Settled (site : Site) (scan : Scan V M) (answer : Answer V M (Option (Outcome V))) :
    Prop where
  balanced : scan.Balanced answer.2
  unmarked : ∀ outcome, answer.1 = .ok (some outcome) →
    ∀ slot, answer.2.memo.find? site.rule site.position ≠ some (.inProgress slot)
  missing : ∀ error, answer.1 = .error error →
    error = .defect (.missingSeed site.rule site.position)

theorem Settled.of_balanced {answer : Answer V M (Option (Outcome V))}
    (h : scan.Balanced scan') (hsettled : Settled site scan' answer) :
    Settled site scan answer :=
  { hsettled with balanced := h.trans hsettled.balanced }

variable {attempt : Outcome V}

theorem Owned.accept (h : scan.Owned) : Settled site scan (scan.accept site attempt) where
  balanced := h.balanced_of rfl fun _ _ _ hmarker => (marker_of_put hmarker).1
  unmarked _ _ _ hmarker := (marker_of_put hmarker).2 ⟨rfl, rfl⟩
  missing _ herror := nomatch herror

theorem Owned.failSeed (h : scan.Owned) : Settled site scan (scan.failSeed site) where
  balanced := h.balanced_of (scan.keys_atStage site .plain) fun _ _ _ hmarker =>
    (marker_of_put hmarker).1
  unmarked _ _ _ hmarker := (marker_of_put hmarker).2 ⟨rfl, rfl⟩
  missing _ herror := nomatch herror

theorem Owned.extend (h : scan.Owned) : Settled site scan (scan.extend site attempt) := by
  cases ha : scan.stack.get? site.slot with
  | none =>
    have hget : (scan.atStage site .growing).stack.get? site.slot = none := by
      rw [get?_atStage, if_pos rfl, ha]
      rfl
    have hextend : scan.extend site attempt =
        (.ok none, ({ scan.atStage site .growing with position := site.position }).memoise site
          attempt) := by
      unfold Scan.extend
      simp only [Ledger.setAside, hget]
    rw [hextend]
    exact {
      balanced := h.balanced_of (scan.keys_atStage site .growing) fun _ _ _ hmarker =>
        (marker_of_put hmarker).1
      unmarked := fun _ hanswer => by cases hanswer
      missing := fun _ herror => by cases herror }
  | some a =>
    rw [extend_eq ha]
    refine ⟨h.balanced_of ?_ ?_, fun _ hanswer => (by cases hanswer), fun _ herror =>
      by cases herror⟩
    -- The account of the activation changes, and its key stays.
    · refine (ActivationStack.keys_modify fun b hb => ?_).trans (scan.keys_atStage site .growing)
      rw [get?_atStage, if_pos rfl, ha] at hb
      obtain rfl := Option.some.inj hb
      rfl
    · intro rule position slot hmarker
      have hmarker := (marker_of_put hmarker).1
      rw [Activation.find?_setAside] at hmarker
      split at hmarker
      · cases hmarker
      · exact hmarker

theorem Owned.finish (h : scan.Owned) (hlive : (scan.stack.get? site.slot).isSome) :
    Settled site scan (scan.finish site) := by
  obtain ⟨a, ha⟩ := Option.isSome_iff_exists.mp hlive
  cases hbest : (scan.memo.outcome? site.rule site.position).bind Outcome.match? with
  | none =>
    rw [finish_of_none hbest]
    refine ⟨h.balanced_of (scan.keys_atStage site .plain) fun _ _ _ => id, ?_, ?_⟩
    · exact fun _ hanswer => nomatch hanswer
    · exact fun _ herror => (Except.error.inj herror).symm
  | some best =>
    have hcell := find?_of_match hbest
    -- What is put back is outcomes, so the markers after it were there before.
    have hmarkers : ∀ {rule position slot},
        ((a.atStage .plain).putBack scan.memo).2.find? rule position = some (.inProgress slot) →
        scan.memo.find? rule position = some (.inProgress slot) := by
      intro rule position slot hmarker
      rw [Activation.find?_putBack] at hmarker
      split at hmarker
      · simp at hmarker
      · exact hmarker
    rw [finish_eq ha hcell]
    refine ⟨h.balanced_of ?_ fun _ _ _ => hmarkers, ?_, fun _ herror => nomatch herror⟩
    · refine (ActivationStack.keys_modify fun b hb => ?_).trans (scan.keys_atStage site .plain)
      rw [get?_atStage, if_pos rfl, ha] at hb
      obtain rfl := Option.some.inj hb
      rfl
    · intro outcome _ slot hmarker
      exact nomatch hcell.symm.trans (hmarkers hmarker)

/-- To settle an attempt of the activation on top keeps the balance, and the only defect it can
find is that there is no match to finish with. -/
theorem Owned.settle (h : scan.Owned) (hlive : (scan.stack.get? site.slot).isSome)
    (attempt : Outcome V) : Settled site scan (scan.settle site attempt) := by
  obtain ⟨a, ha⟩ := Option.isSome_iff_exists.mp hlive
  have hkeys : (scan.judging site a.stage attempt).stack.keys = scan.stack.keys := by
    unfold Scan.judging
    dsimp only [record]
    split
    · exact ActivationStack.keys_report
    · rfl
  have hjudging : scan.Balanced (scan.judging site a.stage attempt) :=
    h.balanced_of hkeys fun _ _ _ => id
  have hlive' : ((scan.judging site a.stage attempt).stack.get? site.slot).isSome := by
    rw [← ActivationStack.isLive_iff] at hlive ⊢
    unfold ActivationStack.isLive at hlive ⊢
    rw [hjudging.depth_eq]
    exact hlive
  rw [settle_eq ha]
  cases Verdict.of a.stage attempt.stop? (scan.best? site) with
  | accept => exact hjudging.owned.accept.of_balanced hjudging
  | grow => exact hjudging.owned.extend.of_balanced hjudging
  | finish => exact (hjudging.owned.finish hlive').of_balanced hjudging
  | fail => exact hjudging.owned.failSeed.of_balanced hjudging

/-! ## Starting and releasing an activation -/

/-- The scan of an activation at work: its key is the last of those under evaluation. -/
structure Busy (below : List MemoKey) (site : Site) (scan : Scan V M) : Prop where
  owned : scan.Owned
  keys_eq : scan.stack.keys = below ++ [⟨site.rule, site.position⟩]
  slot_eq : site.slot = below.length

theorem Busy.balanced (h : Busy below site scan) (hbalanced : scan.Balanced scan') :
    Busy below site scan' :=
  ⟨hbalanced.owned, hbalanced.keys_eq.trans h.keys_eq, h.slot_eq⟩

theorem Busy.beginAttempt (h : Busy below site scan) :
    Busy below site (scan.beginAttempt site) :=
  h.balanced (h.owned.balanced_of rfl fun _ _ _ => id)

/-- The activation at work is of the rule and position of its site. -/
theorem Busy.exists_get? (h : Busy below site scan) :
    ∃ a, scan.stack.get? site.slot = some a ∧ a.rule = site.rule ∧ a.position = site.position := by
  have hkey : scan.stack.keys[site.slot]? = some ⟨site.rule, site.position⟩ := by
    rw [h.keys_eq, h.slot_eq, List.getElem?_append_right (Nat.le_refl _), Nat.sub_self]
    rfl
  rw [ActivationStack.getElem?_keys] at hkey
  obtain ⟨a, ha, hkey⟩ := Option.map_eq_some_iff.mp hkey
  injection hkey with hrule hposition
  exact ⟨a, ha, hrule, hposition⟩

theorem Busy.live (h : Busy below site scan) : (scan.stack.get? site.slot).isSome := by
  obtain ⟨a, ha, -⟩ := h.exists_get?
  rw [ha]
  rfl

theorem Owned.enter (h : scan.Owned) (rule : RuleId) :
    Busy scan.stack.keys (Engine.siteOf rule scan) (scan.enter (Engine.siteOf rule scan)) where
  owned := by
    refine owned_iff.mpr fun rule' position slot hmarker => ?_
    show ((scan.stack.push rule scan.position).keys)[slot]? = some ⟨rule', position⟩
    have hfind : ((scan.memo.put rule scan.position (.inProgress scan.stack.depth)).find? rule'
      position) = some (.inProgress slot) := hmarker
    rw [MemoTable.find?_put] at hfind
    rw [ActivationStack.keys_push]
    split at hfind
    -- The new marker names the new slot.
    · rename_i hown
      obtain ⟨rfl, rfl⟩ := hown
      injection hfind with hfind
      injection hfind with hslot
      rw [← hslot, ← ActivationStack.length_keys,
        List.getElem?_append_right (Nat.le_refl _), Nat.sub_self]
      rfl
    · exact List.getElem?_append_left (List.getElem?_eq_some_iff.mp
        (owned_iff.mp h hfind)).1 |>.trans (owned_iff.mp h hfind)
  keys_eq := ActivationStack.keys_push rule scan.position
  slot_eq := ActivationStack.length_keys.symm

/-- An activation whose marker is gone can be released without leaving a marker behind that names
its slot. -/
theorem Busy.pop (h : Busy below site scan)
    (hgone : scan.memo.find? site.rule site.position ≠ some (.inProgress site.slot)) :
    ∃ scan', scan.pop = (.ok site.slot, scan') ∧ scan'.Owned ∧ scan'.stack.keys = below := by
  obtain ⟨rest, hpop, hrest⟩ := ActivationStack.pop_of_keys h.keys_eq
  refine ⟨{ scan with stack := rest }, by simp [Scan.pop, hpop, h.slot_eq], ?_, hrest⟩
  refine owned_iff.mpr fun rule position slot hmarker => ?_
  have hkey := owned_iff.mp h.owned hmarker
  show rest.keys[slot]? = _
  rw [h.keys_eq] at hkey
  rw [hrest]
  -- Only the marker of the site itself could name the slot that is released.
  by_cases hslot : slot < below.length
  · rwa [List.getElem?_append_left hslot] at hkey
  · have hlast : slot = below.length := by
      have := (List.getElem?_eq_some_iff.mp hkey).1
      simp only [List.length_append, List.length_singleton] at this
      omega
    subst hlast
    rw [List.getElem?_append_right (Nat.le_refl _), Nat.sub_self] at hkey
    injection hkey with hkey
    injection hkey with hrule hposition
    subst hrule hposition
    rw [← h.slot_eq] at hmarker
    exact absurd hmarker hgone

theorem Busy.dropMarker (h : Busy below site scan) :
    Busy below site (scan.dropMarker site) ∧ ¬ (scan.dropMarker site).Marked site := by
  by_cases hmarked : scan.Marked site
  · rw [hmarked.dropMarker_eq]
    refine ⟨h.balanced (h.owned.balanced_of rfl fun rule position slot hmarker => ?_), ?_⟩
    · dsimp only at hmarker
      rw [MemoTable.find?_erase] at hmarker
      split at hmarker
      · exact nomatch hmarker
      · exact hmarker
    · simp [Marked]
  · rw [dropMarker_of_not_marked hmarked]
    exact ⟨h, hmarked⟩

/-- An activation that has come to an answer is released, and its answer is what was found. -/
theorem Busy.release {answer : Answer V M (Outcome V)} (h : Busy below site answer.2)
    (hunmarked : ∀ outcome, answer.1 = .ok outcome →
      answer.2.memo.find? site.rule site.position ≠ some (.inProgress site.slot)) :
    (Scan.release site answer).1 = answer.1 ∧ (Scan.release site answer).2.Owned ∧
      (Scan.release site answer).2.stack.keys = below := by
  obtain ⟨error | outcome, scan⟩ := answer
  · obtain ⟨hbusy, hgone⟩ := h.dropMarker
    obtain ⟨scan', hpop, howned, hkeys⟩ := hbusy.pop hgone
    dsimp only at hpop
    simp [Scan.release, hpop, howned, hkeys]
  · obtain ⟨scan', hpop, howned, hkeys⟩ := h.pop (hunmarked outcome rfl)
    dsimp only at hpop
    simp [Scan.release, hpop, howned, hkeys]

end Scan

/-! ## Whole invocations -/

/-- A way to answer invocations that leaves no activation behind and takes none away. -/
def Balancing (invoke : Invoke V M) : Prop :=
  ∀ rule (scan : Scan V M), scan.Owned → scan.Balanced (invoke rule scan).2

/-- A program keeps the balance if its invocations do. -/
theorem Procedure.Passes.balanced {input : Array S} {invoke : Invoke V M}
    {program : Procedure S V M α} {scan scan' : Scan V M} (hinvoke : Balancing invoke)
    (h : program.Passes input invoke scan scan') (howned : scan.Owned) : scan.Balanced scan' := by
  refine h.keeps scan.Balanced ?_ ?_ ?_ ?_ howned.balanced
  · exact fun position hkeeps => ⟨hkeeps.owned, hkeeps.keys_eq⟩
  · exact fun expected hkeeps => ⟨hkeeps.owned, hkeeps.keys_eq⟩
  · exact fun memory hkeeps => ⟨hkeeps.owned, hkeeps.keys_eq⟩
  · exact fun rule hkeeps => hkeeps.trans (hinvoke rule _ hkeeps.owned)

namespace Engine

open Scan

variable {engine : Engine S V M} {room room' : Nat} {rule rule' : RuleId}
  {scan scan' scan'' begun : Scan V M} {below : List MemoKey} {site : Site}
  {body : Procedure S V M (Outcome V)} {invoke : Invoke V M} {input : Array S}
  {attempts left limit : Nat}

/-- A round of growth keeps the activation at work. -/
theorem busy_settle (hinvoke : Balancing invoke) (hbusy : Busy below site scan)
    {attempt : Outcome V}
    (hrun : body.run input invoke (scan.beginAttempt site) = (.ok attempt, scan')) :
    Settled site scan' (scan'.settle site attempt) ∧ Busy below site scan' := by
  have hbusy' := hbusy.beginAttempt.balanced
    ((Procedure.passes_of_run hrun).balanced hinvoke hbusy.beginAttempt.owned)
  exact ⟨hbusy'.owned.settle hbusy'.live attempt, hbusy'⟩

theorem Rounds.busy (hinvoke : Balancing invoke)
    (h : Rounds (body.run input invoke) site attempts scan left scan')
    (hbusy : Busy below site scan) : Busy below site scan' := by
  refine h.keeps (Busy below site) ?_ hbusy
  intro scan scan₁ scan₂ attempt hbusy hrun hsettle
  obtain ⟨hsettled, hbusy₁⟩ := busy_settle hinvoke hbusy hrun
  rw [hsettle] at hsettled
  exact hbusy₁.balanced ⟨hsettled.balanced.owned, hsettled.balanced.keys_eq⟩

/-- Growth ends with the activation still on top, and without its marker if there is an answer. -/
theorem busy_growUpTo (hinvoke : Balancing invoke) (hbusy : Busy below site scan)
    {answer : Answer V M (Outcome V)}
    (hgrow : growUpTo (body.run input invoke) site limit attempts scan = answer) :
    Busy below site answer.2 ∧ ∀ outcome, answer.1 = .ok outcome →
      answer.2.memo.find? site.rule site.position ≠ some (.inProgress site.slot) := by
  obtain ⟨left, scan', hrounds, hends⟩ :=
    exists_ends (body.run input invoke) site limit attempts scan
  have hbusy' := hrounds.busy hinvoke hbusy
  rw [hgrow] at hends
  cases hends with
  | unsettled => exact ⟨hbusy', fun _ hanswer => nomatch hanswer⟩
  | aborted hrun =>
    have hbalanced := (Procedure.passes_of_run hrun).balanced hinvoke hbusy'.beginAttempt.owned
    exact ⟨hbusy'.beginAttempt.balanced hbalanced, fun _ hanswer => nomatch hanswer⟩
  | undecided hrun hsettle =>
    obtain ⟨hsettled, hbusy₁⟩ := busy_settle hinvoke hbusy' hrun
    rw [hsettle] at hsettled
    exact ⟨hbusy₁.balanced hsettled.balanced, fun _ hanswer => nomatch hanswer⟩
  | settled hrun hsettle =>
    obtain ⟨hsettled, hbusy₁⟩ := busy_settle hinvoke hbusy' hrun
    rw [hsettle] at hsettled
    exact ⟨hbusy₁.balanced hsettled.balanced, fun _ _ => hsettled.unmarked _ rfl _⟩

/-- An activation is released by the invocation that started it, with the answer that growth has
come to. -/
theorem activate_balanced (hinvoke : Balancing invoke) (howned : scan.Owned) :
    scan.Balanced (engine.activate invoke rule body scan).2 ∧
      (engine.activate invoke rule body scan).1 =
        (growUpTo (body.run engine.input invoke) (siteOf rule scan)
          (engine.attemptLimit scan.position) (engine.attemptLimit scan.position)
          (scan.enter (siteOf rule scan))).1 := by
  cases hgrow : growUpTo (body.run engine.input invoke) (siteOf rule scan)
    (engine.attemptLimit scan.position) (engine.attemptLimit scan.position)
    (scan.enter (siteOf rule scan)) with
  | mk result scan' =>
  obtain ⟨hbusy, hunmarked⟩ := busy_growUpTo hinvoke (howned.enter rule) hgrow
  obtain ⟨hanswer, howned', hkeys⟩ := hbusy.release hunmarked
  rw [activate_eq, hgrow]
  exact ⟨⟨howned', hkeys⟩, hanswer⟩

/-- Something comes back to an activation that is there. -/
theorem reenter_owned (howned : scan.Owned) {slot : Nat}
    (hmarker : scan.memo.find? rule scan.position = some (.inProgress slot)) :
    (scan.reenter ⟨rule, scan.position, slot⟩).1 = .ok .failure ∧
      scan.Balanced (scan.reenter ⟨rule, scan.position, slot⟩).2 := by
  obtain ⟨a, ha, hrule, -⟩ := howned hmarker
  unfold Scan.reenter
  rw [if_pos (by rw [ha]; simpa using hrule)]
  exact ⟨rfl, howned.balanced_of ActivationStack.keys_reenter fun _ _ _ => id⟩

/-- Every invocation keeps the balance. -/
theorem invokeWithin_balanced (engine : Engine S V M) (room : Nat) :
    Balancing (engine.invokeWithin room) := by
  have hanswer : ∀ evaluate : RuleId → Procedure S V M (Outcome V) → Scan V M →
      Answer V M (Outcome V),
      (∀ rule body (scan : Scan V M), scan.Owned →
        scan.Balanced (evaluate rule body scan).2) →
      Balancing (engine.answer evaluate) := by
    intro evaluate hevaluate rule scan howned
    unfold answer
    split
    · exact howned.balanced_of rfl fun _ _ _ => id
    · rename_i slot hmarker
      exact (reenter_owned howned hmarker).2
    · split
      · exact howned.balanced
      · exact hevaluate _ _ _ howned
  induction room with
  | zero => exact hanswer _ fun _ _ _ howned => howned.balanced
  | succ room ih => exact hanswer _ fun _ _ _ howned => (activate_balanced ih howned).1

/-! ## All scans of a run -/

theorem Opens.busy (h : engine.Opens room rule scan body begun) (howned : scan.Owned) :
    Busy scan.stack.keys (siteOf rule scan) begun := by
  obtain ⟨left, scan', rfl, hrounds⟩ := h.rounds
  exact (hrounds.busy (engine.invokeWithin_balanced room) (howned.enter rule)).beginAttempt

theorem Opens.balanced (h : engine.Opens room rule scan body begun) (howned : scan.Owned)
    (hpasses : body.Passes engine.input (engine.invokeWithin room) begun scan') :
    Busy scan.stack.keys (siteOf rule scan) scan' :=
  (h.busy howned).balanced
    (hpasses.balanced (engine.invokeWithin_balanced room) (h.busy howned).owned)

theorem Calls.owned (h : engine.Calls room rule scan room' rule' scan') (howned : scan.Owned) :
    scan'.Owned := by
  induction h with
  | here => exact howned
  | inside h hopens hinvokes ih => exact (hopens.balanced ih hinvokes.passes).owned

/-- In every scan of a run, all markers are owned. -/
theorem Occurs.owned (h : engine.Occurs room rule scan scan') (howned : scan.Owned) :
    scan'.Owned := by
  cases h with
  | called h => exact h.owned howned
  | answered h => exact (engine.invokeWithin_balanced _ _ _ (h.owned howned)).owned
  | entered h hfree hbody => exact ((h.owned howned).enter _).owned
  | evaluating h hopens hpasses => exact (hopens.balanced (h.owned howned) hpasses).owned
  | settled h hopens hrun =>
    have hbusy := hopens.balanced (h.owned howned) (Procedure.passes_of_run hrun)
    exact (hbusy.owned.settle hbusy.live _).balanced.owned
  | unmarked h hfree hbody hgrow =>
    have hbusy := busy_growUpTo (engine.invokeWithin_balanced _) ((h.owned howned).enter _) hgrow
    exact hbusy.1.dropMarker.1.owned

end Engine

/-! ## Where an error comes from -/

/-- The defects of the stack and of its markers. -/
def Defect.isImbalance : Defect → Bool
  | .stackUnderflow | .unbalancedStack .. | .orphanedMarker .. => true
  | .unsettledGrowth .. | .missingSeed .. => false

/-- Run from the scan, the program ends with an error of its own: no invocation that it makes has
come to that error. -/
structure Procedure.Raises (input : Array S) (invoke : Invoke V M) (program : Procedure S V M α)
    (scan : Scan V M) (error : ParseError) : Prop where
  aborts : (program.run input invoke scan).1 = .error error
  own : ∀ rule scan', program.Invokes input invoke scan rule scan' →
    (invoke rule scan').1 ≠ .error error

namespace Engine

open Scan

/-- Why an invocation ends with an error. -/
inductive Fails (engine : Engine S V M) (rule : RuleId) (scan : Scan V M) :
    Nat → ParseError → Prop where
  | unknown {room : Nat} : Fails engine rule scan room (.unknownRule rule.display)
  | tooDeep (hfree : scan.memo.find? rule scan.position = none)
      (hbody : (engine.body? rule).isSome) :
      Fails engine rule scan 0 (.tooDeep engine.maxDepth scan.position)
  /-- Growth has not settled, or it has no match to finish with. -/
  | stuck {room : Nat} {cause : Defect} (hcause : cause.isImbalance = false) :
      Fails engine rule scan room (.defect cause)
  /-- The body has ended with the error. -/
  | aborted {room : Nat} {error : ParseError} {body : Procedure S V M (Outcome V)}
      {begun : Scan V M} (hopens : engine.Opens room rule scan body begun)
      (hrun : (body.run engine.input (engine.invokeWithin room) begun).1 = .error error) :
      Fails engine rule scan (room + 1) error

variable {engine : Engine S V M} {room : Nat} {rule : RuleId} {scan : Scan V M}

/-- An invocation that ends with an error has no body to evaluate or takes the error over from the
evaluation. -/
theorem answer_error (howned : scan.Owned)
    {evaluate : RuleId → Procedure S V M (Outcome V) → Scan V M → Answer V M (Outcome V)}
    {error : ParseError} (h : (engine.answer evaluate rule scan).1 = .error error) :
    error = .unknownRule rule.display ∨
      ∃ body, scan.memo.find? rule scan.position = none ∧ engine.body? rule = some body ∧
        (evaluate rule body scan).1 = .error error := by
  unfold answer at h
  split at h
  · exact nomatch h
  · rename_i slot hmarker
    rw [(reenter_owned howned hmarker).1] at h
    exact nomatch h
  · rename_i hfree
    split at h
    · exact .inl (Except.error.inj h).symm
    · rename_i body hbody
      exact .inr ⟨body, hfree, hbody, h⟩

theorem fails_of_error (howned : scan.Owned) {error : ParseError}
    (h : (engine.invokeWithin room rule scan).1 = .error error) :
    engine.Fails rule scan room error := by
  cases room with
  | zero =>
    rcases answer_error howned h with rfl | ⟨body, hfree, hbody, herror⟩
    · exact .unknown
    · rw [← Except.error.inj herror]
      exact .tooDeep hfree (by rw [hbody]; rfl)
  | succ room =>
    rcases answer_error howned h with rfl | ⟨body, hfree, hbody, herror⟩
    · exact .unknown
    have hbalancing := engine.invokeWithin_balanced room
    rw [(activate_balanced hbalancing howned).2] at herror
    obtain ⟨left, scan', hrounds, hends⟩ :=
      exists_ends (body.run engine.input (engine.invokeWithin room)) (siteOf rule scan)
        (engine.attemptLimit scan.position) (engine.attemptLimit scan.position)
        (scan.enter (siteOf rule scan))
    have hbusy := hrounds.busy hbalancing (howned.enter rule)
    generalize growUpTo (body.run engine.input (engine.invokeWithin room)) (siteOf rule scan)
      (engine.attemptLimit scan.position) (engine.attemptLimit scan.position)
      (scan.enter (siteOf rule scan)) = answer at herror hends
    cases hends with
    | unsettled =>
      rw [← Except.error.inj herror]
      exact .stuck rfl
    | undecided hrun hsettle =>
      rw [← Except.error.inj herror,
        (busy_settle hbalancing hbusy hrun).1.missing _ (congrArg Prod.fst hsettle)]
      exact .stuck rfl
    | settled hrun hsettle => exact nomatch herror
    | aborted hrun =>
      rw [Except.error.inj herror] at hrun
      exact .aborted ⟨hfree, hbody, _, scan', rfl, hrounds⟩ (congrArg Prod.fst hrun)

/-- In the run of an invocation, a body raises an error. -/
def Raised (engine : Engine S V M) (room : Nat) (rule : RuleId) (scan : Scan V M)
    (error : ParseError) : Prop :=
  ∃ room' rule' scan' body begun, engine.Calls room rule scan (room' + 1) rule' scan' ∧
    engine.Opens room' rule' scan' body begun ∧
    body.Raises engine.input (engine.invokeWithin room') begun error

/-- A defect of the stack can only come from a body that raises it. -/
theorem raised_of_imbalance (howned : scan.Owned) {cause : Defect}
    (h : (engine.invokeWithin room rule scan).1 = .error (.defect cause))
    (hcause : cause.isImbalance = true) : engine.Raised room rule scan (.defect cause) := by
  induction room generalizing rule scan with
  | zero =>
    cases fails_of_error howned h with
    | stuck hother => exact absurd hcause (by simp [hother])
  | succ room ih =>
    cases fails_of_error howned h with
    | stuck hother => exact absurd hcause (by simp [hother])
    | @aborted _ _ body begun hopens hrun =>
      by_cases htaken : ∃ rule' scan', body.Invokes engine.input (engine.invokeWithin room) begun
          rule' scan' ∧ (engine.invokeWithin room rule' scan').1 = .error (.defect cause)
      -- An invocation of the body has come to the error before.
      · obtain ⟨rule', scan', hinvokes, hinvoked⟩ := htaken
        obtain ⟨room₁, rule₁, scan₁, body₁, begun₁, hcalls, hopens₁, hraises⟩ :=
          ih (hopens.balanced howned hinvokes.passes).owned hinvoked
        exact ⟨room₁, rule₁, scan₁, body₁, begun₁,
          (Calls.here.inside hopens hinvokes).trans hcalls, hopens₁, hraises⟩
      · refine ⟨room, rule, scan, body, begun, .here, hopens, hrun, ?_⟩
        exact fun rule' scan' hinvokes hinvoked => htaken ⟨rule', scan', hinvokes, hinvoked⟩

end Engine

/-! ## Parses -/

namespace Parser

variable [DecidableEq S]

/-- The invocation is made in the run of the parse, with that much room left for activations. -/
def Calls (parser : Parser S M) (input : Array S) (rule : RuleId) (options : Options) (memory : M) :
    Nat → RuleId → Scan Tree M → Prop :=
  (parser.engine input).Calls parser.config.maxDepth rule
    (parser.firstScan input.size rule (options.start?.getD 0) memory)

/-- The scan occurs in the run of the parse. -/
def Occurs (parser : Parser S M) (input : Array S) (rule : RuleId) (options : Options)
    (memory : M) : Scan Tree M → Prop :=
  (parser.engine input).Occurs parser.config.maxDepth rule
    (parser.firstScan input.size rule (options.start?.getD 0) memory)

omit [DecidableEq S] in
theorem owned_firstScan (parser : Parser S M) (inputLength : Nat) (rule : RuleId) (start : Nat)
    (memory : M) : (parser.firstScan inputLength rule start memory).Owned := by
  intro rule' position slot hmarker
  exact nomatch MemoTable.find?_empty.symm.trans hmarker

/-- What a parse leaves behind has no live activation and no marker. -/
theorem parse_cleared (parser : Parser S M) (input : Array S) (rule : RuleId) (options : Options)
    (memory : M) (hrule : rule.index < parser.grammar.size) :
    (parser.parse input rule options memory).parser.ledger.stack.depth = 0 ∧
    ∀ rule' position slot,
      (parser.parse input rule options memory).parser.ledger.memo.find? rule' position ≠
        some (.inProgress slot) := by
  by_cases hstart : options.start?.getD 0 ≤ input.size
  · rw [parser.parse_eq_close input options memory hrule hstart]
    have hbalanced := (parser.engine input).invokeWithin_balanced parser.config.maxDepth rule _
      (parser.owned_firstScan input.size rule (options.start?.getD 0) memory)
    have hdepth := hbalanced.depth_eq
    -- The run ends with no activation live, so a marker would have nothing to name.
    have hnone : ∀ rule' position slot,
        ((parser.engine input).invoke rule
          (parser.firstScan input.size rule (options.start?.getD 0) memory)).2.memo.find? rule'
            position ≠ some (.inProgress slot) := by
      intro rule' position slot hmarker
      obtain ⟨a, ha, -⟩ := hbalanced.owned hmarker
      have hlt := ActivationStack.lt_depth_of_get? ha
      rw [hdepth] at hlt
      exact Nat.not_lt_zero _ hlt
    cases hrun : (parser.engine input).invoke rule
      (parser.firstScan input.size rule (options.start?.getD 0) memory) with
    | mk result scan =>
    rw [hrun] at hnone
    cases result with
    | error error => exact ⟨rfl, hnone⟩
    | ok outcome =>
      refine ⟨?_, hnone⟩
      rw [Engine.invoke] at hrun
      rw [show (parser.engine input).maxDepth = parser.config.maxDepth from rfl] at hrun
      rw [hrun] at hdepth
      exact hdepth
  · rw [parser.parse_of_lt_start input options memory hrule (by omega)]
    exact ⟨rfl, fun _ _ _ hmarker => nomatch MemoTable.find?_empty.symm.trans hmarker⟩

/-- Whatever the bodies do, in every scan of a parse each marker names a live activation of its
rule and position; every invocation returns at the depth that it was made at, and a defect of the
stack that it returns is one that a body has raised; and in the end no activation is live and no
marker is left. -/
theorem parse_balanced (parser : Parser S M) (input : Array S) (rule : RuleId) (options : Options)
    (memory : M) (hrule : rule.index < parser.grammar.size) :
    (∀ scan, parser.Occurs input rule options memory scan → scan.Owned) ∧
    (∀ room rule' scan, parser.Calls input rule options memory room rule' scan →
      ((parser.engine input).invokeWithin room rule' scan).2.stack.depth = scan.stack.depth ∧
      ∀ cause, ((parser.engine input).invokeWithin room rule' scan).1 = .error (.defect cause) →
        cause.isImbalance = true →
        (parser.engine input).Raised room rule' scan (.defect cause)) ∧
    (∀ cause, (parser.parse input rule options memory).result = .error (.defect cause) →
      cause.isImbalance = true →
      (parser.engine input).Raised parser.config.maxDepth rule
        (parser.firstScan input.size rule (options.start?.getD 0) memory) (.defect cause)) ∧
    (parser.parse input rule options memory).parser.ledger.stack.depth = 0 ∧
    ∀ rule' position slot,
      (parser.parse input rule options memory).parser.ledger.memo.find? rule' position ≠
        some (.inProgress slot) := by
  have howned := parser.owned_firstScan input.size rule (options.start?.getD 0) memory
  refine ⟨fun scan hoccurs => hoccurs.owned howned, ?_, ?_,
    parser.parse_cleared input rule options memory hrule⟩
  · intro room rule' scan hcalls
    have hbalanced := (parser.engine input).invokeWithin_balanced room rule' scan
      (hcalls.owned howned)
    exact ⟨hbalanced.depth_eq, fun cause => Engine.raised_of_imbalance (hcalls.owned howned)⟩
  · intro cause hresult hcause
    by_cases hstart : options.start?.getD 0 ≤ input.size
    · rw [parser.parse_eq_close input options memory hrule hstart] at hresult
      refine Engine.raised_of_imbalance howned ?_ hcause
      show ((parser.engine input).invoke rule _).1 = _
      generalize (parser.engine input).invoke rule
        (parser.firstScan input.size rule (options.start?.getD 0) memory) = answer at hresult
      obtain ⟨error | outcome, scan⟩ := answer
      · exact congrArg _ (Except.error.inj hresult)
      · exact nomatch isInputFault_of_conclude hresult
    · rw [parser.parse_of_lt_start input options memory hrule (by omega)] at hresult
      exact nomatch hresult

end Parser

/-! ## A grammar that meddles -/

/-- The first rule goes on after an error of the second and claims a match that it has not found;
the second invokes the first and then ends with a defect that it has made up. -/
def Grammar.meddling : Grammar Char Unit :=
  ⟨[⟨"first", .procedure do
      let _ ← Procedure.attempt ⟨1⟩
      Procedure.goTo 7
      return .success ⟨5, 3, .leaf 5 3⟩⟩,
    ⟨"second", .procedure do
      let _ ← Procedure.apply ⟨0⟩
      .abort (.defect .stackUnderflow)⟩]⟩

/-- The defect comes out as the result of the parse, since a body raises it, and the parse leaves
nothing behind. -/
theorem Parser.parse_balanced_meddling :
    1 < Grammar.meddling.size ∧
    ((Parser.new Grammar.meddling {}).parse #['l'] ⟨1⟩ {} ()).result =
      .error (.defect .stackUnderflow) ∧
    ((Parser.new Grammar.meddling {}).engine #['l']).Raised 1000 ⟨1⟩
      ((Parser.new Grammar.meddling {}).firstScan 1 ⟨1⟩ 0 ()) (.defect .stackUnderflow) ∧
    ((Parser.new Grammar.meddling {}).parse #['l'] ⟨1⟩ {} ()).parser.ledger.stack.depth = 0 := by
  have hresult : ((Parser.new Grammar.meddling {}).parse #['l'] ⟨1⟩ {} ()).result =
      .error (.defect .stackUnderflow) := by
    have herror : (match ((Parser.new Grammar.meddling {}).parse #['l'] ⟨1⟩ {} ()).result with
        | .error error => decide (error = .defect .stackUnderflow)
        | .ok _ => false) = true := by
      decide +kernel
    split at herror
    · rename_i error hresult
      rw [hresult, of_decide_eq_true herror]
    · exact nomatch herror
  have hbalanced := (Parser.new Grammar.meddling {}).parse_balanced #['l'] ⟨1⟩ {} ()
    (by decide)
  exact ⟨by decide, hresult, hbalanced.2.2.1 _ hresult rfl, hbalanced.2.2.2.1⟩

end LeftPeg
