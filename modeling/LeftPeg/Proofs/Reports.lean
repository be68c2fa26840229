import LeftPeg.Proofs.Evaluation
import LeftPeg.Proofs.Passing
import LeftPeg.Proofs.Parse

/-!
# What a parse reports

A run takes account of its failures while they arrive and forgets most of them again. Its history
has them all, in order, and this module reads the account off it: what is left is the rightmost
position of the log and what was expected there (`FailureLog.report`), in every scan that a run
comes to (`Scan.kept_reported`). The error of a parse is said in the same terms
(`Parser.parse_reports`).

What goes into the log is no choice of the bodies: a terminal is logged where it was tried, and only
if it did not match (`Procedure.Logs`).
-/

namespace LeftPeg

variable {S V M : Type}

/-! ## The report of a log -/

namespace FailureLog

variable {log : FailureLog} {index position : Nat} {description : String}

/-- The rightmost position in the log, `0` if nothing has failed. -/
def furthest (log : FailureLog) : Nat :=
  (log.map Prod.fst).max?.getD 0

/-- The distinct descriptions that failed at a position, in the order of their first failure. -/
def expectedAt (log : FailureLog) (position : Nat) : List String :=
  ((log.filter fun entry => entry.1 = position).map Prod.snd).eraseDups

/-- The rightmost position of a log, with what was expected there. -/
def report (log : FailureLog) : FurthestFailure :=
  ⟨furthest log, expectedAt log (furthest log)⟩

theorem furthest_append :
    furthest (log ++ [(position, description)]) = max (furthest log) position := by
  have hfold : ∀ positions : List Nat, positions.max?.getD 0 = positions.foldl max 0 := by
    intro positions
    rw [List.foldl_max, Nat.zero_max]
  simp [furthest, hfold]

theorem le_furthest {entry : Nat × String} (h : entry ∈ log) : entry.1 ≤ furthest log :=
  List.le_max?_getD_of_mem (List.mem_map_of_mem h)

theorem mem_expectedAt_iff : description ∈ expectedAt log index ↔ (index, description) ∈ log := by
  simp [expectedAt]

/-- Nothing was expected to the right of the rightmost position. -/
theorem expectedAt_of_furthest_lt (h : furthest log < index) : expectedAt log index = [] := by
  refine List.eq_nil_iff_forall_not_mem.mpr fun description hmem => ?_
  have hle : index ≤ furthest log := le_furthest (mem_expectedAt_iff.mp hmem)
  omega

/-- Something was expected at the rightmost position, unless nothing has failed. -/
theorem expectedAt_furthest_eq_nil_iff : expectedAt log (furthest log) = [] ↔ log = [] := by
  refine ⟨fun h => ?_, fun h => by rw [h]; rfl⟩
  cases hmax : (log.map Prod.fst).max? with
  | none => exact List.map_eq_nil_iff.mp (List.max?_eq_none_iff.mp hmax)
  | some position =>
    obtain ⟨⟨_, description⟩, hmem, rfl⟩ := List.mem_map.mp (List.max?_mem hmax)
    have hexpected := mem_expectedAt_iff.mpr hmem
    rw [show furthest log = _ from congrArg (·.getD 0) hmax, Option.getD_some] at h
    rw [h] at hexpected
    cases hexpected

theorem expectedAt_append_self :
    expectedAt (log ++ [(index, description)]) index =
      if description ∈ expectedAt log index then expectedAt log index
      else expectedAt log index ++ [description] := by
  have hnew : ∀ described : List String, ([description].removeAll described).eraseDups =
      if description ∈ described.eraseDups then [] else [description] := by
    intro described
    by_cases hmem : description ∈ described <;> simp [List.removeAll, List.eraseDups_cons, hmem]
  unfold expectedAt
  rw [List.filter_append, List.map_append, List.eraseDups_append]
  simp only [List.filter_cons, decide_true, if_true, List.filter_nil, List.map_cons, List.map_nil,
    hnew]
  split
  · exact List.append_nil _
  · rfl

theorem expectedAt_append_of_ne (h : position ≠ index) :
    expectedAt (log ++ [(position, description)]) index = expectedAt log index := by
  simp [expectedAt, h]

/-- To take account of one more failure is to report a log that is longer by it. -/
theorem note_report (log : FailureLog) (position : Nat) (description : String) :
    (report log).note position description = report (log ++ [(position, description)]) := by
  unfold report FurthestFailure.note
  rw [furthest_append]
  dsimp only
  rcases Nat.lt_trichotomy position (furthest log) with hlt | heq | hgt
  · rw [if_pos hlt, Nat.max_eq_left (Nat.le_of_lt hlt), expectedAt_append_of_ne (Nat.ne_of_lt hlt)]
  · subst heq
    rw [if_neg (Nat.lt_irrefl _), if_neg (Nat.lt_irrefl _), Nat.max_self, expectedAt_append_self]
    split <;> rfl
  -- Nothing has been expected that far to the right before.
  · rw [if_neg (by omega), if_pos hgt, Nat.max_eq_right (Nat.le_of_lt hgt), expectedAt_append_self,
      expectedAt_of_furthest_lt hgt]
    rfl

end FailureLog

/-! ## The log of a run -/

/-- What an event says of a terminal that failed. -/
def Event.failure? : Event → Option (Nat × String)
  | .mismatched position expected => some (position, expected)
  | _ => none

namespace Scan

variable {scan : Scan V M} {site : Site} {attempt : Outcome V}

/-- The failures of the run so far. -/
def failureLog (scan : Scan V M) : FailureLog :=
  scan.history.reverse.filterMap Event.failure?

theorem failureLog_record (scan : Scan V M) (event : Event) :
    (scan.record event).failureLog = scan.failureLog ++ event.failure?.toList := by
  unfold failureLog record
  rw [List.reverse_cons, List.filterMap_append]
  cases hfailure : event.failure? <;> simp [hfailure]

/-- All failures of the run are accounted for, and no others. -/
def Reported (scan : Scan V M) : Prop :=
  scan.failures = FailureLog.report scan.failureLog

theorem Reported.miss (h : scan.Reported) (expected : String) : (scan.miss expected).Reported := by
  unfold Reported Scan.miss
  rw [failureLog_record]
  show scan.failures.note scan.position expected =
    FailureLog.report (scan.failureLog ++ [(scan.position, expected)])
  rw [h, FailureLog.note_report]

/-- An event that is no failure leaves the account as it is. -/
theorem Reported.record (h : scan.Reported) {event : Event} (hother : event.failure? = none) :
    (scan.record event).Reported := by
  unfold Reported
  rw [failureLog_record, hother, Option.toList_none, List.append_nil]
  exact h

/-- So does setting outcomes aside, and putting them back. -/
theorem Reported.setAside (h : scan.Reported) (slot : Nat) :
    Reported { scan with toLedger := scan.toLedger.setAside slot } := by
  unfold Reported Ledger.setAside
  split <;> exact h

theorem Reported.putBack (h : scan.Reported) (slot : Nat) :
    Reported { scan with toLedger := scan.toLedger.putBack slot } := by
  unfold Reported Ledger.putBack
  split <;> exact h

theorem Reported.settle (h : scan.Reported) (site : Site) (attempt : Outcome V) :
    (scan.settle site attempt).2.Reported :=
  settle_keeps Reported (fun _ => h) (fun _ _ => Reported.record h rfl) (fun _ _ => id)
    (fun _ _ => id) (fun _ _ => id) (fun _ h => h.setAside _) (fun _ h => h.putBack _)
    (fun _ _ h => h.record rfl) (fun _ h => h.record rfl)

/-- Every step of a run keeps account of all its failures. -/
theorem kept_reported : Kept (Reported : Scan V M → Prop) fun _ => True where
  moveTo _ := id
  miss _ h := h.miss _
  memorise _ := id
  hit _ := id
  reenter site h := by
    unfold Scan.reenter
    split
    · exact Reported.record h rfl
    · exact h
  enter _ h _ := ⟨trivial, Reported.record h rfl⟩
  beginAttempt _ := id
  settle attempt _ h := h.settle _ attempt
  countGrowth := id
  dropMarker {scan site} _ h := by
    obtain ⟨memo, hdrop⟩ := exists_dropMarker scan site
    rw [hdrop]
    exact h
  pop {scan} h := by
    obtain ⟨stack, hpop⟩ := exists_pop scan
    rw [hpop]
    exact h

end Scan

/-! ## Terminals -/

namespace Procedure

/-- Run from any scan, the program looks for a terminal at the position of the scan: it either finds
it, or logs a failure there. -/
def Logs (program : Procedure S V M Bool) (expected : String) : Prop :=
  ∀ (input : Array S) (invoke : Invoke V M) (scan : Scan V M), ∃ found scan',
    program.run input invoke scan = (.ok found, scan') ∧
      scan'.failureLog = scan.failureLog ++ if found then [] else [(scan.position, expected)]

theorem logs_observe {next : View S → Procedure S V M Bool} {expected : String}
    (h : ∀ view, (∃ stop, next view = .moveTo stop (.done true)) ∨
      next view = .mismatch expected (.done false)) : (Procedure.observe next).Logs expected := by
  intro input invoke scan
  unfold run
  rcases h (scan.view input) with ⟨stop, hnext⟩ | hnext
  · rw [hnext]
    exact ⟨true, _, rfl, (List.append_nil _).symm⟩
  · rw [hnext]
    exact ⟨false, _, rfl, Scan.failureLog_record _ _⟩

theorem logs_literal [DecidableEq S] (symbols : List S) (expected : String) :
    (literal symbols expected : Procedure S V M Bool).Logs expected := by
  refine logs_observe fun view => ?_
  by_cases h : view.continuesWith symbols = true
  · exact .inl ⟨_, if_pos h⟩
  · exact .inr (if_neg h)

theorem logs_satisfying (test : S → Bool) (expected : String) :
    (satisfying test expected : Procedure S V M Bool).Logs expected := by
  refine logs_observe fun view => ?_
  by_cases h : view.symbol?.any test = true
  · exact .inl ⟨_, if_pos h⟩
  · exact .inr (if_neg h)

theorem logs_any : (any : Procedure S V M Bool).Logs anySymbol := by
  refine logs_observe fun view => ?_
  by_cases h : view.atEnd = true
  · exact .inr (if_pos h)
  · exact .inl ⟨_, if_neg h⟩

end Procedure

/-! ## Parses -/

/-- The failures of the run that the parse has made, none if it was refused. -/
def Parse.failureLog (parse : Parse S M) : FailureLog :=
  parse.events.filterMap Event.failure?

namespace Parser

variable [DecidableEq S] {parser : Parser S M} {input : Array S} {rule : RuleId}
  {options : Options} {memory : M}

/-- What the start rule comes to, if the parse gets as far as to invoke it and is not aborted. -/
def outcome? (parser : Parser S M) (input : Array S) (rule : RuleId) (options : Options)
    (memory : M) : Option (Outcome Tree) :=
  if rule.index < parser.grammar.size ∧ options.start?.getD 0 ≤ input.size then
    ((parser.engine input).invoke rule
      (parser.firstScan input.size rule (options.start?.getD 0) memory)).1.toOption
  else none

/-- A parse whose start rule is there leaves the report of its failures behind. -/
theorem failures_parse (hrule : rule.index < parser.grammar.size) :
    (parser.parse input rule options memory).parser.ledger.failures =
      FailureLog.report (parser.parse input rule options memory).failureLog := by
  by_cases hstart : options.start?.getD 0 ≤ input.size
  · have hreported := Scan.kept_reported.invokeWithin (parser.engine input) parser.config.maxDepth
      rule (parser.firstScan input.size rule (options.start?.getD 0) memory) rfl
    rw [parser.parse_eq_close input options memory hrule hstart]
    -- The last event of a run is no failure.
    generalize hanswer : (parser.engine input).invoke rule
      (parser.firstScan input.size rule (options.start?.getD 0) memory) = answer
    have hanswered : answer.2.Reported := hanswer ▸ hreported
    obtain ⟨error | outcome, scan⟩ := answer
    · exact Scan.Reported.record hanswered rfl
    · exact Scan.Reported.record hanswered rfl
  · rw [parser.parse_of_lt_start input options memory hrule (by omega)]
    rfl

/-- A parse concludes from the outcome of its start rule and the report of its failures. -/
theorem result_of_outcome? {outcome : Outcome Tree}
    (h : parser.outcome? input rule options memory = some outcome) :
    (parser.parse input rule options memory).result =
      conclude (FailureLog.report (parser.parse input rule options memory).failureLog) options
        input.size outcome := by
  unfold outcome? at h
  split at h
  · rename_i hruns
    rw [← failures_parse hruns.1, parser.parse_eq_close input options memory hruns.1 hruns.2]
    generalize (parser.engine input).invoke rule
      (parser.firstScan input.size rule (options.start?.getD 0) memory) = answer at h ⊢
    obtain ⟨error | outcome', scan⟩ := answer
    · cases h
    · obtain rfl : outcome' = outcome := Option.some.inj h
      rfl
  · cases h

omit [DecidableEq S] in
theorem noMatch_report (log : FailureLog) (inputLength : Nat) :
    noMatch log.report inputLength =
      if log ≠ [] ∧ inputLength ≤ log.furthest then
        .inputExhausted log.furthest (log.expectedAt log.furthest)
      else .noMatch log.furthest (log.expectedAt log.furthest) := by
  have hempty : ¬ log.report.isEmpty ↔ log ≠ [] := by
    rw [FurthestFailure.isEmpty, List.isEmpty_iff]
    exact not_congr FailureLog.expectedAt_furthest_eq_nil_iff
  unfold noMatch
  simp only [hempty]
  rfl

omit [DecidableEq S] in
/-- Failures to the left of what was consumed do not count, and none is logged between them and the
end of what was consumed. -/
theorem unconsumed_report (log : FailureLog) (consumed inputLength : Nat) :
    unconsumed log.report consumed inputLength =
      .unconsumed consumed inputLength (max consumed log.furthest)
        (log.expectedAt (max consumed log.furthest)) := by
  unfold unconsumed
  split
  · rename_i hle
    have hmax : max consumed log.furthest = log.furthest := Nat.max_eq_right hle
    rw [hmax]
    rfl
  · rename_i hlt
    have hlt : log.furthest < consumed := Nat.lt_of_not_le hlt
    rw [Nat.max_eq_left (Nat.le_of_lt hlt), FailureLog.expectedAt_of_furthest_lt hlt]

/-- A parse leaves the report of its failures behind: the rightmost position of its log, and what
was expected there. If the start rule fails, that is the error of the parse, for want of input if
the failures reach to the end of it; if its match stops short of the input, the error reports what
was expected where the match stops or to the right of it. The log has the failures of all terminals
that the bodies look for, each at its position. A call that is refused, since its start rule is not
there, has no log and leaves the account of the last parse. -/
theorem parse_reports (parser : Parser S M) (input : Array S) (rule : RuleId) (options : Options)
    (memory : M) :
    let parse := parser.parse input rule options memory
    let log := parse.failureLog
    let failures := parse.parser.ledger.failures
    (rule.index < parser.grammar.size →
      failures.index = log.furthest ∧ failures.expected = log.expectedAt log.furthest) ∧
    (parser.grammar.size ≤ rule.index → log = [] ∧ failures = parser.ledger.failures) ∧
    (parser.outcome? input rule options memory = some .failure →
      parse.result = .error
        (if log ≠ [] ∧ input.size ≤ log.furthest then
          .inputExhausted log.furthest (log.expectedAt log.furthest)
        else .noMatch log.furthest (log.expectedAt log.furthest))) ∧
    (∀ found, parser.outcome? input rule options memory = some (.success found) →
      options.wholeInput = true → found.stop ≠ input.size →
      parse.result = .error (.unconsumed found.stop input.size (max found.stop log.furthest)
        (log.expectedAt (max found.stop log.furthest)))) ∧
    (∀ symbols expected,
      (Procedure.literal symbols expected : Procedure S Tree M Bool).Logs expected) ∧
    (∀ test expected,
      (Procedure.satisfying test expected : Procedure S Tree M Bool).Logs expected) ∧
    (Procedure.any : Procedure S Tree M Bool).Logs Procedure.anySymbol ∧
    ∀ expected input invoke (scan : Scan Tree M),
      ((Procedure.miss expected : Procedure S Tree M Unit).run input invoke scan).2.failureLog =
        scan.failureLog ++ [(scan.position, expected)] := by
  intro parse log failures
  refine ⟨fun hrule => ?_, fun hrule => ?_, fun hfails => ?_, fun found hfound hwhole hshort => ?_,
    Procedure.logs_literal, Procedure.logs_satisfying, Procedure.logs_any,
    fun expected input invoke scan => Scan.failureLog_record _ _⟩
  · have hfailures : failures = log.report := failures_parse hrule
    rw [hfailures]
    exact ⟨rfl, rfl⟩
  · have hrefused : parse = _ := parser.parse_of_size_le input options memory hrule
    exact ⟨by rw [show log = parse.failureLog from rfl, hrefused]; rfl,
      by rw [show failures = parse.parser.ledger.failures from rfl, hrefused]⟩
  · rw [← noMatch_report]
    exact result_of_outcome? hfails
  · rw [← unconsumed_report]
    refine (result_of_outcome? hfound).trans ?_
    unfold conclude
    exact if_pos ⟨hwhole, hshort⟩

end Parser

/-- To grumble is to fail with many words, some of them repeated; a leap goes on after it and claims
a match to the right of the input. -/
def Grammar.grumbling : Grammar Char Unit :=
  ⟨[⟨"grumble", .procedure do
      Procedure.goTo 1
      Procedure.miss "b"
      Procedure.goTo 0
      Procedure.miss "a"
      Procedure.goTo 1
      Procedure.miss "c"
      Procedure.miss "b"
      return .failure⟩,
    ⟨"shrug", .procedure do
      let _ ← Procedure.apply ⟨0⟩
      return .success ⟨0, 0, .leaf 0 0⟩⟩,
    ⟨"leap", .procedure do
      let _ ← Procedure.apply ⟨0⟩
      return .success ⟨0, 7, .leaf 0 7⟩⟩]⟩

/-- Of all the words those count that were said furthest to the right, each of them once. They are
said for want of input if the input ends there, they are what is expected behind a shrug, and they
are of no account behind a leap. -/
theorem Parser.parse_reports_grumbling :
    let parse := fun input rule => (Parser.new Grammar.grumbling {}).parse input ⟨rule⟩ {} ()
    (parse #['x'] 0).result = .error (.inputExhausted 1 ["b", "c"]) ∧
    (parse #['x', 'y'] 0).result = .error (.noMatch 1 ["b", "c"]) ∧
    (parse #['x', 'y'] 1).result = .error (.unconsumed 0 2 1 ["b", "c"]) ∧
    (parse #['x', 'y'] 2).result = .error (.unconsumed 7 2 7 []) := by
  intro parse
  have hfails : ∀ {outcome? : Option (Outcome Tree)}, outcome?.map Outcome.stop? = some none →
      outcome? = some .failure := by
    rintro (_ | _ | _) h <;> cases h
    rfl
  have hfound : ∀ {outcome? : Option (Outcome Tree)} {stop : Nat},
      outcome?.map Outcome.stop? = some (some stop) →
      ∃ found, outcome? = some (.success found) ∧ found.stop = stop := by
    rintro (_ | found | _) stop h <;> cases h
    exact ⟨found, rfl, rfl⟩
  have hreports := fun input rule =>
    (Parser.new Grammar.grumbling {}).parse_reports input ⟨rule⟩ {} ()
  have hstops : ∀ rule stop : Nat,
      ((Parser.new Grammar.grumbling {}).outcome? #['x', 'y'] ⟨rule⟩ {} ()).map Outcome.stop? =
        some (some stop) → stop ≠ 2 →
      (parse #['x', 'y'] rule).result = .error (.unconsumed stop 2
        (max stop (parse #['x', 'y'] rule).failureLog.furthest)
        ((parse #['x', 'y'] rule).failureLog.expectedAt
          (max stop (parse #['x', 'y'] rule).failureLog.furthest))) := by
    intro rule _ hstop hshort
    obtain ⟨found, hsuccess, rfl⟩ := hfound hstop
    exact (hreports #['x', 'y'] rule).2.2.2.1 found hsuccess rfl hshort
  refine ⟨?_, ?_, ?_, ?_⟩
  · rw [(hreports #['x'] 0).2.2.1 (hfails (by decide +kernel))]
    exact congrArg Except.error (by decide +kernel)
  · rw [(hreports #['x', 'y'] 0).2.2.1 (hfails (by decide +kernel))]
    exact congrArg Except.error (by decide +kernel)
  · rw [hstops 1 0 (by decide +kernel) (by decide)]
    exact congrArg Except.error (by decide +kernel)
  · rw [hstops 2 7 (by decide +kernel) (by decide)]
    exact congrArg Except.error (by decide +kernel)

end LeftPeg
