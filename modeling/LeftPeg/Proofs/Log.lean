import Mathlib.Data.List.Chain
import LeftPeg.Parser

/-!
# What the log says of growth

Each attempt to grow is a step in the log. When growth ends, or when there is no seed, the log says
so, and says it directly after the step that has decided it. So a reader of the log can put the two
together without looking at anything else.

`Event.Told` is the shape that the record of a run has then, and `Event.Told.log` reads it in the
log, where events that are not logged have been left out and a step is known by the texts of its
record.
-/

namespace LeftPeg

/-! ## What is on record -/

namespace Event

/-- An attempt with such a verdict. -/
def isAttempt (p : Verdict → Bool) : Event → Bool
  | .attempted _ _ _ _ verdict _ _ => p verdict
  | _ => false

def isReentry : Event → Bool
  | .reentered .. => true
  | _ => false

/-- An activation began. -/
def isStart : Event → Bool
  | .activated .. => true
  | _ => false

/-- An attempt that is to be followed by a word on what it means: the verdict, and the rule and the
position that it is for. -/
def announces? : Event → Option (Verdict × RuleId × Nat)
  | .attempted rule position _ _ .finish _ _ => some (.finish, rule, position)
  | .attempted rule position _ _ .fail _ _ => some (.fail, rule, position)
  | _ => none

/-- That word: growth has ended, or there is no seed. -/
def concludes? : Event → Option (Verdict × RuleId × Nat)
  | .grown rule position _ => some (.finish, rule, position)
  | .seedFailed rule position => some (.fail, rule, position)
  | _ => none

/-- A record, the latest event first, in which the end of growth and the want of a seed follow
directly on the attempts that they come from. -/
inductive Told : List Event → Prop where
  | nil : Told []
  | plain {event : Event} {rest : List Event} (hconcludes : event.concludes? = none)
      (hannounces : event.announces? = none) (hrest : Told rest) : Told (event :: rest)
  | concluded {conclusion attempt : Event} {rest : List Event}
      {about : Verdict × RuleId × Nat} (hconcludes : conclusion.concludes? = some about)
      (hannounces : attempt.announces? = some about) (hrest : Told rest) :
      Told (conclusion :: attempt :: rest)

theorem concludes?_of_announces {event : Event} {about : Verdict × RuleId × Nat}
    (h : event.announces? = some about) : event.concludes? = none := by
  cases event with
  | grown => cases h
  | seedFailed => cases h
  | _ => rfl

theorem announces?_of_concludes {event : Event} {about : Verdict × RuleId × Nat}
    (h : event.concludes? = some about) : event.announces? = none := by
  cases event with
  | attempted => cases h
  | _ => rfl

/-- Conclusions and announcements of each kind are equally many. -/
theorem Told.countP_eq {history : List Event} (h : Told history) (verdict : Verdict) :
    history.countP (·.concludes?.any (·.1 = verdict)) =
      history.countP (·.announces?.any (·.1 = verdict)) := by
  induction h with
  | nil => rfl
  | plain hconcludes hannounces hrest ih =>
    rw [List.countP_cons, List.countP_cons, ih, hconcludes, hannounces]
  | concluded hconcludes hannounces hrest ih =>
    simp only [List.countP_cons, ih, hconcludes, hannounces, announces?_of_concludes hconcludes,
      concludes?_of_announces hannounces, Nat.add_zero, Option.any_none, Bool.false_eq_true,
      if_false]

/-- Every attempt with one of these two verdicts is announced. -/
theorem any_announces? (event : Event) {verdict : Verdict}
    (hverdict : verdict = .finish ∨ verdict = .fail) :
    event.announces?.any (·.1 = verdict) = event.isAttempt (· = verdict) := by
  cases event with
  | attempted rule position slot stage given attempt? best? =>
    rcases hverdict with rfl | rfl <;> cases given <;> rfl
  | _ => rfl

/-- Attempts with one kind of verdict or another are counted together. -/
theorem countP_isAttempt_or {p q : Verdict → Bool} (hapart : ∀ verdict, p verdict → q verdict = false)
    (history : List Event) :
    history.countP (isAttempt fun verdict => p verdict || q verdict) =
      history.countP (isAttempt p) + history.countP (isAttempt q) := by
  induction history with
  | nil => rfl
  | cons event rest ih =>
    simp only [List.countP_cons, ih]
    cases event with
    | attempted rule position slot stage verdict attempt? best? =>
      have hapart := hapart verdict
      cases hp : p verdict <;> cases hq : q verdict <;> simp [isAttempt, hp, hq] at hapart ⊢ <;>
        omega
    | _ => rfl

/-- There are attempts that extend the match, and others. -/
theorem countP_isAttempt (history : List Event) :
    history.countP (isAttempt fun _ => true) =
      history.countP (isAttempt (· = .grow)) + history.countP (isAttempt (· ≠ .grow)) := by
  rw [← countP_isAttempt_or fun verdict => by cases verdict <;> simp]
  congr 2
  funext verdict
  cases verdict <;> rfl

/-- The others are of three kinds. -/
theorem countP_isAttempt_ne_grow (history : List Event) :
    history.countP (isAttempt (· ≠ .grow)) =
      history.countP (isAttempt (· = .accept)) + history.countP (isAttempt (· = .finish)) +
        history.countP (isAttempt (· = .fail)) := by
  rw [← countP_isAttempt_or fun verdict => by cases verdict <;> simp,
    ← countP_isAttempt_or fun verdict => by cases verdict <;> simp]
  congr 2
  funext verdict
  cases verdict <;> rfl

end Event

/-! ## The log -/

namespace LogRecord

/-- A step of growth with this verdict. -/
def isStep (verdict : Verdict) (record : LogRecord) : Bool :=
  record.message = "growth step" && record.fields.lookup "step" = some (.text verdict.label)

/-- The record of a step after which there is a word to be said about it. -/
def Announces (record : LogRecord) : Prop :=
  record.isStep .finish = true ∨ record.isStep .fail = true

/-- That word: growth has ended, or there is no seed. -/
def Concludes (record : LogRecord) : Prop :=
  record.message = "growth finished" ∨ record.message = "seed parse failed"

/-- The second record may stand directly behind the first one: it concludes something if and only if
the first one announces it, for the same rule at the same position. -/
structure Follows (earlier later : LogRecord) : Prop where
  grown : later.message = "growth finished" ↔ earlier.isStep .finish = true
  seedFailed : later.message = "seed parse failed" ↔ earlier.isStep .fail = true
  same : later.Concludes → ∀ name ∈ ["rule", "position"],
    later.fields.lookup name = earlier.fields.lookup name

theorem follows_of_plain {earlier later : LogRecord} (hearlier : ¬ earlier.Announces)
    (hlater : ¬ later.Concludes) : earlier.Follows later where
  grown := iff_of_false (fun h => hlater (.inl h)) fun h => hearlier (.inl h)
  seedFailed := iff_of_false (fun h => hlater (.inr h)) fun h => hearlier (.inr h)
  same h := absurd h hlater

end LogRecord

namespace Event

variable {label : RuleId → String} {event attempt conclusion : Event}
  {record earlier later : LogRecord}

theorem any_isStep (label : RuleId → String) (event : Event) (verdict : Verdict) :
    (event.record? label).any (LogRecord.isStep verdict) = event.isAttempt (· = verdict) := by
  cases event with
  | attempted rule position slot stage given attempt? best? => cases given <;> cases verdict <;> rfl
  | _ => rfl

theorem any_grown (label : RuleId → String) (event : Event) :
    (event.record? label).any (·.message = "growth finished") =
      event.concludes?.any (·.1 = .finish) := by
  cases event <;> rfl

theorem any_seedFailed (label : RuleId → String) (event : Event) :
    (event.record? label).any (·.message = "seed parse failed") =
      event.concludes?.any (·.1 = .fail) := by
  cases event <;> rfl

theorem isStep_iff (h : event.record? label = some record) {verdict : Verdict}
    (hverdict : verdict = .finish ∨ verdict = .fail) :
    record.isStep verdict = true ↔ event.announces?.any (·.1 = verdict) = true := by
  rw [any_announces? event hverdict, ← any_isStep label, h]
  rfl

theorem grown_iff (h : event.record? label = some record) :
    record.message = "growth finished" ↔ event.concludes?.any (·.1 = .finish) = true := by
  rw [← any_grown label, h]
  simp

theorem seedFailed_iff (h : event.record? label = some record) :
    record.message = "seed parse failed" ↔ event.concludes?.any (·.1 = .fail) = true := by
  rw [← any_seedFailed label, h]
  simp

theorem not_announces (h : event.record? label = some record) (hnone : event.announces? = none) :
    ¬ record.Announces := by
  rintro (hstep | hstep)
  · simp [isStep_iff h (.inl rfl), hnone] at hstep
  · simp [isStep_iff h (.inr rfl), hnone] at hstep

theorem not_concludes (h : event.record? label = some record) (hnone : event.concludes? = none) :
    ¬ record.Concludes := by
  rintro (hmessage | hmessage)
  · simp [grown_iff h, hnone] at hmessage
  · simp [seedFailed_iff h, hnone] at hmessage

/-- An attempt that is announced and what it comes to follow on each other in the log as well. -/
theorem follows_of_concludes {about : Verdict × RuleId × Nat}
    (hconcludes : conclusion.concludes? = some about) (hannounces : attempt.announces? = some about)
    (hearlier : attempt.record? label = some earlier)
    (hlater : conclusion.record? label = some later) : earlier.Follows later where
  grown := by rw [grown_iff hlater, isStep_iff hearlier (.inl rfl), hconcludes, hannounces]
  seedFailed := by rw [seedFailed_iff hlater, isStep_iff hearlier (.inr rfl), hconcludes, hannounces]
  same _ := by
    -- Both records begin with the rule and the position that they are for.
    have hfields : ∀ {event : Event} {record : LogRecord}, event.record? label = some record →
        event.concludes? = some about ∨ event.announces? = some about →
        ∃ rest, record.fields =
          ("rule", .text (label about.2.1)) :: ("position", .number about.2.2) :: rest := by
      rintro event record hrecord (habout | habout)
      · cases event <;> cases habout <;> cases hrecord <;> exact ⟨_, rfl⟩
      · cases event with
        | attempted rule position slot stage verdict attempt? best? =>
          cases verdict <;> cases habout <;> cases hrecord <;> exact ⟨_, rfl⟩
        | _ => cases habout
    obtain ⟨rest, hlater⟩ := hfields hlater (.inl hconcludes)
    obtain ⟨rest', hearlier⟩ := hfields hearlier (.inr hannounces)
    intro name hname
    rw [hlater, hearlier]
    simp only [List.mem_cons, List.not_mem_nil, or_false] at hname
    rcases hname with rfl | rfl <;> rfl

/-- What is announced has a record, and so has the conclusion. -/
theorem exists_record (label : RuleId → String)
    (h : event.announces? ≠ none ∨ event.concludes? ≠ none) :
    ∃ record, event.record? label = some record := by
  cases event with
  | mismatched => exact absurd rfl (h.elim id id)
  | activated => exact absurd rfl (h.elim id id)
  | _ => exact ⟨_, rfl⟩

/-- In the log too the end of growth and the want of a seed follow directly on the steps that they
come from, and on nothing else. -/
theorem Told.log {history : List Event} (h : Told history) (label : RuleId → String) :
    let log := history.filterMap (record? label)
    log.IsChain (fun later earlier => earlier.Follows later) ∧
      (∀ latest ∈ log.head?, ¬ latest.Announces) ∧ ∀ first ∈ log.getLast?, ¬ first.Concludes := by
  have hfirst : ∀ {record : LogRecord} {log : List LogRecord}, ¬ record.Concludes →
      (∀ first ∈ log.getLast?, ¬ first.Concludes) →
      ∀ first ∈ (record :: log).getLast?, ¬ first.Concludes := by
    intro record log hrecord hlog first hmem
    rw [List.getLast?_cons, Option.mem_some_iff] at hmem
    subst hmem
    cases hlast : log.getLast? with
    | none => exact hrecord
    | some last => exact hlog last hlast
  induction h with
  | nil => exact ⟨.nil, nofun, nofun⟩
  | @plain event rest hconcludes hannounces hrest ih =>
    obtain ⟨hchain, hlatest, hlog⟩ := ih
    intro log
    cases hrecord : event.record? label with
    -- What is not logged separates nothing: it neither announces nor concludes.
    | none =>
      have heq : log = rest.filterMap (record? label) := List.filterMap_cons_none hrecord
      rw [heq]
      exact ⟨hchain, hlatest, hlog⟩
    | some record =>
      have heq : log = record :: rest.filterMap (record? label) := List.filterMap_cons_some hrecord
      have hplain := not_concludes hrecord hconcludes
      rw [heq]
      refine ⟨List.isChain_cons.mpr ⟨fun earlier hearlier => ?_, hchain⟩, ?_, hfirst hplain hlog⟩
      · exact LogRecord.follows_of_plain (hlatest earlier hearlier) hplain
      · rintro latest ⟨⟩
        exact not_announces hrecord hannounces
  | @concluded conclusion attempt rest about hconcludes hannounces hrest ih =>
    obtain ⟨hchain, hlatest, hlog⟩ := ih
    obtain ⟨earlier, hearlier⟩ := exists_record label (.inl (by rw [hannounces]; nofun))
    obtain ⟨later, hlater⟩ := exists_record label (.inr (by rw [hconcludes]; nofun))
    have hattempt := not_concludes hearlier (concludes?_of_announces hannounces)
    have hfollows := follows_of_concludes hconcludes hannounces hearlier hlater
    intro log
    have heq : log = later :: earlier :: rest.filterMap (record? label) := by
      show (conclusion :: attempt :: rest).filterMap (record? label) = _
      rw [List.filterMap_cons_some hlater, List.filterMap_cons_some hearlier]
    rw [heq]
    refine ⟨List.isChain_cons_cons.mpr ⟨hfollows, List.isChain_cons.mpr ⟨?_, hchain⟩⟩, ?_, ?_⟩
    -- An attempt is not itself the conclusion of the one before.
    · exact fun before hbefore => LogRecord.follows_of_plain (hlatest before hbefore) hattempt
    · rintro latest ⟨⟩
      exact not_announces hlater (announces?_of_concludes hconcludes)
    · rw [List.getLast?_cons_cons]
      exact hfirst hattempt hlog

theorem countP_log (label : RuleId → String) {p : LogRecord → Bool} {q : Event → Bool}
    (h : ∀ event, (Event.record? label event).any p = q event) (history : List Event) :
    (history.filterMap (record? label)).countP p = history.countP q := by
  rw [List.countP_filterMap]
  congr 1
  funext event
  rw [← h event]
  cases event.record? label <;> rfl

end Event

/-- The log of a parse, with the rules by their names. -/
def Parse.log {S M : Type} (parse : Parse S M) : List LogRecord :=
  parse.events.filterMap (Event.record? parse.parser.grammar.label)

end LeftPeg
