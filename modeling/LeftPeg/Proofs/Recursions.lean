import LeftPeg.Proofs.Attempt
import LeftPeg.Proofs.Tracing

/-!
# Recursions are counted, never forgotten

Only an invocation that comes back to a live activation touches the count of recursions, and it adds
one to it. So a count that is zero at the end was zero all along.
-/

namespace LeftPeg

variable {S V M : Type}

namespace Scan

theorem metrics_setAside (ledger : Ledger V) (slot : Nat) :
    (ledger.setAside slot).metrics = ledger.metrics := by
  unfold Ledger.setAside
  split <;> rfl

theorem metrics_putBack (ledger : Ledger V) (slot : Nat) :
    (ledger.putBack slot).metrics = ledger.metrics := by
  unfold Ledger.putBack
  split <;> rfl

theorem metrics_settle (scan : Scan V M) (site : Site) (attempt : Outcome V) :
    (scan.settle site attempt).2.metrics = scan.metrics :=
  settle_keeps (·.metrics = scan.metrics) (fun _ => rfl) (fun _ _ => rfl) (fun _ _ => id)
    (fun _ _ => id) (fun _ _ => id) (fun _ => (metrics_setAside _ _).trans)
    (fun _ => (metrics_putBack _ _).trans) (fun _ _ => id) (fun _ => id)

@[simp] theorem metrics_pop (scan : Scan V M) : scan.pop.2.metrics = scan.metrics := by
  obtain ⟨stack, hpop⟩ := exists_pop scan
  rw [hpop]

theorem metrics_release (site : Site) (answer : Answer V M (Outcome V)) :
    (release site answer).2.metrics = answer.2.metrics := by
  rcases answer with ⟨error | outcome, scan⟩
  · obtain ⟨memo, hdrop⟩ := exists_dropMarker scan site
    refine (metrics_pop _).trans ?_
    rw [hdrop]
  · have hscan := metrics_pop scan
    unfold release
    dsimp only
    split
    · rename_i hrun
      rwa [hrun] at hscan
    · rename_i hrun
      rw [hrun] at hscan
      split <;> exact hscan

end Scan

namespace Engine

variable {evaluate : Scan V M → Answer V M (Outcome V)} {site : Site} {limit n : Nat}

/-- What an evaluation has counted is still there after the attempts that follow on it. -/
theorem recursions_growUpTo_succ {attempts : Nat} {scan : Scan V M}
    (hrest : ∀ scan : Scan V M, n ≤ scan.metrics.recursions →
      n ≤ (growUpTo evaluate site limit attempts scan).2.metrics.recursions)
    (h : n ≤ (evaluate (scan.beginAttempt site)).2.metrics.recursions) :
    n ≤ (growUpTo evaluate site limit (attempts + 1) scan).2.metrics.recursions := by
  unfold growUpTo
  generalize evaluate (scan.beginAttempt site) = answer at h ⊢
  rcases answer with ⟨error | attempt, scan₁⟩
  · exact h
  · have hsettled : n ≤ (scan₁.settle site attempt).2.metrics.recursions := by
      rw [scan₁.metrics_settle site attempt]
      exact h
    dsimp only
    rcases hsettle : scan₁.settle site attempt with ⟨error | _ | outcome, scan₂⟩
    · rw [hsettle] at hsettled
      exact hsettled
    · rw [hsettle] at hsettled
      exact hrest _ hsettled
    · rw [hsettle] at hsettled
      exact hsettled

theorem recursions_growUpTo
    (hevaluate : ∀ scan : Scan V M, n ≤ scan.metrics.recursions →
      n ≤ (evaluate scan).2.metrics.recursions)
    (attempts : Nat) (scan : Scan V M) (h : n ≤ scan.metrics.recursions) :
    n ≤ (growUpTo evaluate site limit attempts scan).2.metrics.recursions := by
  induction attempts generalizing scan with
  | zero => exact h
  | succ attempts ih =>
    apply recursions_growUpTo_succ ih
    exact hevaluate _ h

/-- The number of recursions detected never goes down. -/
theorem lasting_recursions [DecidableEq S] (engine : Engine S Tree M)
    (hbodies : ∀ rule body, engine.body? rule = some body →
      ∃ form : Expression S, body = form.toProcedure)
    (n room : Nat) :
    Lasting (engine.invokeWithin room) fun scan => n ≤ scan.metrics.recursions := by
  -- A cell leaves the count as it is or adds one to it; the rest is up to the evaluation.
  have hanswer : ∀ {evaluate : RuleId → Procedure S Tree M (Outcome Tree) → Scan Tree M →
      Answer Tree M (Outcome Tree)},
      (∀ rule body scan, engine.body? rule = some body → n ≤ scan.metrics.recursions →
        n ≤ (evaluate rule body scan).2.metrics.recursions) →
      Lasting (engine.answer evaluate) fun scan => n ≤ scan.metrics.recursions := by
    intro evaluate hevaluate
    refine ⟨fun _ h => h, fun _ h => h, fun rule h => ?_⟩
    unfold answer
    split
    · exact h
    · unfold Scan.reenter
      split
      · exact Nat.le_succ_of_le h
      · exact h
    · split
      · exact h
      · exact hevaluate _ _ _ ‹_› h
  induction room with
  | zero => exact hanswer fun _ _ _ _ h => h
  | succ room ih =>
    refine hanswer fun rule body scan hbody h => ?_
    obtain ⟨form, rfl⟩ := hbodies rule body hbody
    unfold activate
    rw [Scan.metrics_release]
    refine recursions_growUpTo (fun scan h => ?_) _ _ h
    exact lasts_toProcedure ih _ form h

end Engine

end LeftPeg
