import LeftPeg.Proofs.Passing
import LeftPeg.Proofs.Attempt

/-!
# What lasts of an activation

While it is live, an activation goes through a handful of changes: it learns of rules that are
involved in its cycle, it gets parents and forgets them, its stage and what it holds change, and in
the end the account is cleared. A property of activations that each of them keeps
(`Activation.Stable`) is kept by every step of a run, slot by slot (`Activation.Stable.kept`).
-/

namespace LeftPeg

variable {V M : Type}

namespace Activation

/-- A property of activations that lasts through all changes of an activation, but for a parent that
it gets. -/
structure Stable (P : Activation V → Prop) : Prop where
  involveAll {a : Activation V} (rules : List RuleId) : P a → P (a.involveAll rules)
  forget {a : Activation V} : P a → P { a with parents := [] }
  atStage {a : Activation V} (stage : Stage) : P a → P (a.atStage stage)
  hold {a : Activation V} (aside : List (RuleId × Outcome V)) : P a → P { a with aside }
  clear {a : Activation V} : P a → P { a with involved := [], aside := [] }

variable {P : Activation V → Prop} {activation : Activation V}

theorem Stable.onReport (h : Stable P) (head : Activation V) (slot i : Nat) (hP : P activation) :
    P (ActivationStack.onReport head slot i activation) := by
  -- The parents are told one after another.
  have htold : ∀ (parents : List Nat) (activation : Activation V), P activation →
      P (parents.foldl (fun activation parent => if parent = i then
        activation.involveAll head.involved else activation) activation) := by
    intro parents
    induction parents with
    | nil => exact fun _ hP => hP
    | cons parent rest ih =>
      intro activation hP
      apply ih
      dsimp only
      split
      · exact h.involveAll _ hP
      · exact hP
  unfold ActivationStack.onReport
  apply htold
  split
  · exact h.forget hP
  · exact hP

/-- When something has come back to an activation, those above it get it as a parent. -/
theorem Stable.onReenter (h : Stable P) (stack : ActivationStack V) {slot i : Nat}
    (hparent : slot < i → P activation → P (activation.addParent slot)) (hP : P activation) :
    P (stack.onReenter slot i activation) := by
  unfold ActivationStack.onReenter
  split
  · exact h.atStage _ (h.involveAll _ hP)
  · split
    · exact hparent ‹_› hP
    · exact hP

end Activation

namespace Scan

open Activation

variable {P : Activation V → Prop} {scan scan' : Scan V M} {site : Site} {slot : Nat}
  {a : Activation V}

/-- If the slot is in use, its activation has the property. -/
def Has (P : Activation V → Prop) (slot : Nat) (scan : Scan V M) : Prop :=
  ∀ a, scan.stack.get? slot = some a → P a

/-- A change of activations one by one keeps the property if it keeps it of each of them. -/
theorem Has.of_get? (h : scan.Has P slot) {f : Activation V → Activation V}
    (hget : scan'.stack.get? slot = (scan.stack.get? slot).map f)
    (hkeeps : ∀ a, P a → P (f a)) : scan'.Has P slot := by
  intro b hb
  rw [hget] at hb
  obtain ⟨a, ha, rfl⟩ := Option.map_eq_some_iff.mp hb
  exact hkeeps a (h a ha)

/-- So does a change of one of them. -/
theorem Has.modify (h : scan.Has P slot) {other : Nat} {f : Activation V → Activation V}
    (hstack : scan'.stack = scan.stack.modify other f)
    (hkeeps : ∀ a, scan.stack.get? other = some a → P a → P (f a)) : scan'.Has P slot := by
  intro b hb
  rw [hstack, ActivationStack.get?_modify] at hb
  split at hb
  · rename_i heq
    obtain ⟨a, ha, rfl⟩ := Option.map_eq_some_iff.mp hb
    exact hkeeps a (heq ▸ ha) (h a ha)
  · exact h b hb

/-- Before an attempt is decided, the parents of a recursive activation have been told. -/
theorem get?_judging (hget : scan.stack.get? site.slot = some a) (attempt : Outcome V) (i : Nat) :
    (scan.judging site a.stage attempt).stack.get? i = (scan.stack.get? i).map fun b =>
      if a.stage.isRecursive then ActivationStack.onReport a site.slot i b else b := by
  unfold judging record
  dsimp only
  split
  · exact ActivationStack.get?_report hget
  · exact Option.map_id'.symm

theorem Has.judging (h : scan.Has P slot) (hstable : Stable P)
    (hget : scan.stack.get? site.slot = some a) (attempt : Outcome V) :
    (scan.judging site a.stage attempt).Has P slot := by
  refine h.of_get? (get?_judging hget attempt slot) fun b hb => ?_
  split
  · exact hstable.onReport a site.slot slot hb
  · exact hb

theorem Has.atStage (h : scan.Has P slot) (hstable : Stable P) (site : Site) (stage : Stage) :
    (scan.atStage site stage).Has P slot :=
  h.modify rfl fun _ _ ha => hstable.atStage stage ha

theorem Has.setAside (h : scan.Has P slot) (hstable : Stable P) (other : Nat) :
    Has P slot { scan with toLedger := scan.toLedger.setAside other } := by
  unfold Ledger.setAside
  split
  · exact h
  · rename_i a ha
    refine h.modify rfl fun b hb hP => ?_
    obtain rfl := Option.some.inj (ha.symm.trans hb)
    exact hstable.hold _ hP

theorem Has.putBack (h : scan.Has P slot) (hstable : Stable P) (other : Nat) :
    Has P slot { scan with toLedger := scan.toLedger.putBack other } := by
  unfold Ledger.putBack
  split
  · exact h
  · rename_i a ha
    refine h.modify rfl fun b hb hP => ?_
    obtain rfl := Option.some.inj (ha.symm.trans hb)
    exact hstable.clear hP

/-- However an attempt is decided, no activation gets a parent by it. -/
theorem Has.settle (h : scan.Has P slot) (hstable : Stable P) (site : Site) (attempt : Outcome V) :
    (scan.settle site attempt).2.Has P slot :=
  settle_keeps (Has P slot) (fun _ => h) (fun _ hget => h.judging hstable hget attempt)
    (fun _ _ => id) (fun _ stage h => h.atStage hstable site stage) (fun _ _ => id)
    (fun _ h => h.setAside hstable _) (fun _ h => h.putBack hstable _) (fun _ _ => id)
    (fun _ => id)

theorem Has.pop (h : scan.Has P slot) : scan.pop.2.Has P slot :=
  fun a ha => h a (get?_of_pop ha)

theorem Has.dropMarker (h : scan.Has P slot) (site : Site) : (scan.dropMarker site).Has P slot := by
  obtain ⟨memo, hdrop⟩ := exists_dropMarker scan site
  rw [hdrop]
  exact h

theorem Has.enter (h : scan.Has P slot) (hnew : ∀ rule position, P { rule, position })
    (site : Site) : (scan.enter site).Has P slot := by
  intro a ha
  have hpush : (scan.stack.push site.rule site.position).get? slot = some a := ha
  rw [ActivationStack.get?_push] at hpush
  split at hpush
  · cases hpush
    exact hnew site.rule site.position
  · exact h a hpush

theorem Has.reenter (h : scan.Has P slot) (hstable : Stable P)
    (hparent : ∀ a parent, parent < slot → P a → P (a.addParent parent)) (site : Site) :
    (scan.reenter site).2.Has P slot := by
  unfold Scan.reenter
  split
  · refine h.of_get? ActivationStack.get?_reenter fun a ha => ?_
    exact hstable.onReenter scan.stack (hparent a site.slot) ha
  · exact h

end Scan

/-- What holds of a new activation, lasts, and is not lost with a parent from below, holds of the
activation in a slot throughout a run. -/
theorem Activation.Stable.kept {P : Activation V → Prop} (h : Stable P) (slot : Nat)
    (hnew : ∀ rule position, P { rule, position })
    (hparent : ∀ a parent, parent < slot → P a → P (a.addParent parent)) :
    Kept (fun scan : Scan V M => scan.Has P slot) fun _ => True where
  moveTo _ := id
  miss _ h := h
  memorise _ := id
  hit _ h := h
  reenter site hhas := hhas.reenter h hparent site
  enter _ hhas _ := ⟨trivial, hhas.enter hnew _⟩
  beginAttempt _ := id
  settle attempt _ hhas := hhas.settle h _ attempt
  countGrowth := id
  dropMarker _ hhas := hhas.dropMarker _
  pop hhas := hhas.pop

end LeftPeg
