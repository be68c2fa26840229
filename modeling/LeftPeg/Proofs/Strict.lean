import LeftPeg.Proofs.Passing
import LeftPeg.Expression.Recognition

/-!
# Programs that hand errors on

A program is strict if it ends as soon as one of its invocations ends with an error, and with that
error. The bodies made from expressions are (`Expression.strict_toProcedure`). Two things follow
for a strict program: an error that it ends with is its own or came from an invocation that it made
(`Strict.source`), and what must hold of a scan for an invocation to be sound can be checked before
each invocation, by one that ends with an error where it does not (`Strict.of_guarded`).
-/

namespace LeftPeg

variable {S V M α β : Type}

namespace Procedure

/-- The program hands on the errors of its invocations, and ends with no other error but those
of its own. -/
def Strict (own : ParseError → Prop) : Procedure S V M α → Prop
  | .done _ => True
  | .abort error => own error
  | .observe next => ∀ view, (next view).Strict own
  | .moveTo _ next => next.Strict own
  | .mismatch _ next => next.Strict own
  | .invoke _ next =>
    (∀ error, next (.error error) = .abort error) ∧ ∀ outcome, (next (.ok outcome)).Strict own
  | .consult next => ∀ memory, (next memory).Strict own
  | .memorise _ next => next.Strict own

section

variable {own : ParseError → Prop}

theorem Strict.bind {program : Procedure S V M α} {rest : α → Procedure S V M β}
    (h : program.Strict own) (hrest : ∀ result, (rest result).Strict own) :
    (program.bind rest).Strict own := by
  induction program with
  | done result => exact hrest result
  | abort error => exact h
  | observe next ih => exact fun view => ih view (h view)
  | moveTo position next ih => exact ih h
  | mismatch expected next ih => exact ih h
  | invoke rule next ih =>
    refine ⟨fun error => ?_, fun outcome => ih _ (h.2 outcome)⟩
    show (next (.error error)).bind rest = .abort error
    rw [h.1 error]
    rfl
  | consult next ih => exact fun memory => ih memory (h memory)
  | memorise memory next ih => exact ih h

theorem Strict.backtracking {program : Procedure S V M (Option α)} (h : program.Strict own) :
    program.backtracking.Strict own := by
  intro view
  apply h.bind
  intro result
  cases result <;> trivial

theorem strict_literal [DecidableEq S] (symbols : List S) (expected : String) :
    (literal symbols expected : Procedure S V M Bool).Strict own := by
  intro view
  dsimp only
  split <;> trivial

theorem strict_satisfying (test : S → Bool) (expected : String) :
    (satisfying test expected : Procedure S V M Bool).Strict own := by
  intro view
  dsimp only
  split <;> trivial

theorem strict_any : (any : Procedure S V M Bool).Strict own := by
  intro view
  dsimp only
  split <;> trivial

/-! ## Where errors come from -/

variable {input : Array S} {invoke : Invoke V M} {program : Procedure S V M α}
  {scan scan' : Scan V M} {rule : RuleId}

/-- An error of a strict program is its own or that of an invocation it has made. -/
theorem Strict.source (h : program.Strict own) {error : ParseError}
    (hrun : (program.run input invoke scan).1 = .error error) :
    own error ∨ ∃ rule scan', program.Invokes input invoke scan rule scan' ∧
      (invoke rule scan').1 = .error error := by
  induction program generalizing scan with
  | done result => exact nomatch hrun
  | abort error' =>
    left
    rw [← Except.error.inj hrun]
    exact h
  | observe next ih =>
    exact (ih _ (h _) hrun).imp_right fun ⟨rule, scan', hinvokes, herror⟩ =>
      ⟨rule, scan', .observe hinvokes, herror⟩
  | moveTo position next ih =>
    exact (ih h hrun).imp_right fun ⟨rule, scan', hinvokes, herror⟩ =>
      ⟨rule, scan', .moveTo hinvokes, herror⟩
  | mismatch expected next ih =>
    exact (ih h hrun).imp_right fun ⟨rule, scan', hinvokes, herror⟩ =>
      ⟨rule, scan', .mismatch hinvokes, herror⟩
  | invoke rule next ih =>
    have hnext : ((next (invoke rule scan).1).run input invoke (invoke rule scan).2).1 =
        .error error := hrun
    cases hanswer : (invoke rule scan).1 with
    | error error' =>
      right
      rw [hanswer, h.1 error'] at hnext
      have hsame : (.error error' : Except ParseError α) = .error error := hnext
      rw [Except.error.inj hsame] at hanswer
      exact ⟨rule, scan, .here, hanswer⟩
    | ok outcome =>
      rw [hanswer] at hnext
      refine (ih _ (h.2 outcome) hnext).imp_right fun ⟨rule', scan', hinvokes, herror⟩ =>
        ⟨rule', scan', .later ?_, herror⟩
      rw [hanswer]
      exact hinvokes
  | consult next ih =>
    exact (ih _ (h _) hrun).imp_right fun ⟨rule, scan', hinvokes, herror⟩ =>
      ⟨rule, scan', .consult hinvokes, herror⟩
  | memorise memory next ih =>
    exact (ih h hrun).imp_right fun ⟨rule, scan', hinvokes, herror⟩ =>
      ⟨rule, scan', .memorise hinvokes, herror⟩

open Classical in
/-- Answers invocations on scans that pass a check, and refuses all others with an error. -/
noncomputable def guarded (check : Scan V M → Prop) (refusal : ParseError)
    (invoke : Invoke V M) : Invoke V M := fun rule scan =>
  if check scan then invoke rule scan else (.error refusal, scan)

/-- Where no invocation of a strict program is refused, all the scans it invokes rules on pass the
check. -/
theorem Strict.of_guarded {check : Scan V M → Prop} (refusal : ParseError)
    (h : program.Strict own)
    (hrun : (program.run input (guarded check refusal invoke) scan).1 ≠ .error refusal)
    (hinvokes : program.Invokes input invoke scan rule scan') : check scan' := by
  induction hinvokes with
  | @here rule next scan =>
    by_cases hpasses : check scan
    · exact hpasses
    -- A refusal would be handed on, and so end the program.
    · exact absurd (by simp only [run, guarded, if_neg hpasses, h.1 refusal]) hrun
  | @later rule rule' next scan scan' hinvokes ih =>
    by_cases hpasses : check scan
    · have hnext : ((next (invoke rule scan).1).run input (guarded check refusal invoke)
          (invoke rule scan).2).1 ≠ .error refusal := by
        intro hrefused
        apply hrun
        simp only [run, guarded, if_pos hpasses]
        exact hrefused
      cases hanswer : (invoke rule scan).1 with
      | error error =>
        -- The program ends here, so there is no later invocation.
        rw [hanswer, h.1 error] at hinvokes
        cases hinvokes
      | ok outcome =>
        rw [hanswer] at hnext ih
        exact ih (h.2 outcome) hnext
    · exact absurd (by simp only [run, guarded, if_neg hpasses, h.1 refusal]) hrun
  | observe hinvokes ih => exact ih (h _) hrun
  | moveTo hinvokes ih => exact ih h hrun
  | mismatch hinvokes ih => exact ih h hrun
  | consult hinvokes ih => exact ih (h _) hrun
  | memorise hinvokes ih => exact ih h hrun

end

end Procedure

/-! ## Expressions -/

namespace Expression

/-- An expression ends with no error of its own but that of a name left unresolved. -/
def OwnError (error : ParseError) : Prop :=
  ∃ name, error = .unknownRule name

theorem strict_terminal {passes : Procedure S Tree M Bool} (h : passes.Strict OwnError)
    (trail : Trail) : (terminal passes trail).Strict OwnError := by
  intro view
  apply h.bind
  intro found
  cases found
  · trivial
  · exact fun view => trivial

theorem strict_ofRule (target : RuleId) (trail : Trail) :
    (ofRule target trail : Procedure S Tree M (Option Trail)).Strict OwnError := by
  refine ⟨fun error => rfl, fun outcome => ?_⟩
  cases outcome <;> trivial

section

variable {item : Recogniser S M} (hitem : ∀ trail, (item trail).Strict OwnError)

include hitem

theorem strict_copiesUpTo (copies count : Nat) (trail : Trail) :
    (copiesUpTo item copies count trail).Strict OwnError := by
  induction copies generalizing count trail with
  | zero => trivial
  | succ copies ih =>
    intro view
    apply (hitem trail).bind
    intro found
    cases found with
    | none => trivial
    | some trail' =>
      intro view'
      show (if view'.position = view.position then _ else _ :
        Procedure S Tree M (Nat × Trail)).Strict _
      split
      · trivial
      · exact ih _ _

theorem strict_repeated (atLeast : Nat) (atMost : Option Nat) (trail : Trail) :
    (repeated item atLeast atMost trail).Strict OwnError := by
  intro view
  apply (strict_copiesUpTo hitem _ _ _).bind
  intro result
  dsimp only
  split <;> trivial

theorem strict_peeked (positive : Bool) (trail : Trail) :
    (peeked item positive trail).Strict OwnError := by
  intro view
  apply (hitem []).bind
  intro found
  show (if found.isSome = positive then _ else _ : Procedure S Tree M (Option Trail)).Strict _
  split <;> trivial

theorem strict_gathered (tag : String) (trail : Trail) :
    (gathered tag item trail).Strict OwnError := by
  intro view
  apply (hitem []).bind
  intro found
  cases found with
  | none => trivial
  | some inner => exact fun view' => trivial

end

variable [DecidableEq S]

mutual

theorem strict_recognise (form : Expression S) (trail : Trail) :
    (form.recognise trail : Procedure S Tree M (Option Trail)).Strict OwnError := by
  cases form with
  | literal symbols description =>
    rw [recognise]
    exact (strict_terminal (Procedure.strict_literal _ _) trail).backtracking
  | satisfying test description =>
    rw [recognise]
    exact (strict_terminal (Procedure.strict_satisfying _ _) trail).backtracking
  | any =>
    rw [recognise]
    exact (strict_terminal Procedure.strict_any trail).backtracking
  | reference name =>
    rw [recognise]
    exact ⟨name, rfl⟩
  | rule target =>
    rw [recognise]
    exact (strict_ofRule target trail).backtracking
  | sequence items =>
    rw [recognise]
    exact (strict_recogniseAll items trail).backtracking
  | choice alternatives =>
    rw [recognise]
    exact (strict_recogniseFirst alternatives trail).backtracking
  | repetition item atLeast atMost =>
    rw [recognise]
    exact (strict_repeated (strict_recognise item) _ _ trail).backtracking
  | lookahead item positive =>
    rw [recognise]
    exact (strict_peeked (strict_recognise item) positive trail).backtracking
  | tagged tag item =>
    rw [recognise]
    exact (strict_gathered (strict_recognise item) tag trail).backtracking

theorem strict_recogniseAll (items : List (Expression S)) (trail : Trail) :
    (recogniseAll items trail : Procedure S Tree M (Option Trail)).Strict OwnError := by
  cases items with
  | nil =>
    rw [recogniseAll]
    trivial
  | cons item rest =>
    rw [recogniseAll]
    apply (strict_recognise item trail).bind
    intro found
    cases found with
    | none => trivial
    | some trail' => exact strict_recogniseAll rest trail'

theorem strict_recogniseFirst (items : List (Expression S)) (trail : Trail) :
    (recogniseFirst items trail : Procedure S Tree M (Option Trail)).Strict OwnError := by
  cases items with
  | nil =>
    rw [recogniseFirst]
    trivial
  | cons item rest =>
    rw [recogniseFirst]
    apply (strict_recognise item trail).bind
    intro found
    cases found with
    | none => exact strict_recogniseFirst rest trail
    | some trail' => trivial

end

/-- As the body of a rule, an expression hands errors on. -/
theorem strict_toProcedure (form : Expression S) :
    (form.toProcedure : Procedure S Tree M (Outcome Tree)).Strict OwnError := by
  intro view
  apply (strict_recognise form []).bind
  intro found
  cases found with
  | none => trivial
  | some trail => exact fun view' view'' => trivial

end Expression

end LeftPeg
