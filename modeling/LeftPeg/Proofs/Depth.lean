import LeftPeg.Proofs.Recursions
import LeftPeg.Proofs.Termination

/-!
# The bound on depth

The bound on the number of live activations is a guard and nothing else. A run records the greatest
depth that it has come to. Under any other bound that allows this depth the run is the same, and
under one that does not it is given up when it gets to the first activation too many
(`Subject.Invokes.curbed`, and `Parser.parse_depth` for whole parses).
-/

namespace LeftPeg

open Expression (Trail)

variable {S M α β : Type}

/-- The run was given up for want of depth. -/
def TooDeep (answer : Answer Tree M α) : Prop :=
  ∃ limit index, answer.1 = .error (.tooDeep limit index)

/-- A step from what a part has come to, to what the whole comes to, that hands on errors and
records no depth. -/
structure Handing (step : Answer Tree M α → Answer Tree M β) : Prop where
  error {error : ParseError} {scan : Scan Tree M} : (step (.error error, scan)).1 = .error error
  metrics_eq (answer : Answer Tree M α) : (step answer).2.metrics = answer.2.metrics

theorem Handing.tooDeep {step : Answer Tree M α → Answer Tree M β} (hstep : Handing step)
    {answer : Answer Tree M α} (h : TooDeep answer) : TooDeep (step answer) := by
  obtain ⟨result, scan⟩ := answer
  obtain ⟨limit, index, rfl⟩ := h
  exact ⟨limit, index, hstep.error⟩

theorem Handing.comp {γ : Type} {step : Answer Tree M α → Answer Tree M β}
    {step' : Answer Tree M β → Answer Tree M γ} (hstep' : Handing step') (hstep : Handing step) :
    Handing fun answer => step' (step answer) where
  error {error scan} := by
    have hmiddle : step (.error error, scan) = (.error error, (step (.error error, scan)).2) :=
      Prod.ext hstep.error rfl
    rw [hmiddle]
    exact hstep'.error
  metrics_eq answer := (hstep'.metrics_eq _).trans (hstep.metrics_eq answer)

theorem handing_rewind (position : Nat) :
    Handing (rewind position : Answer Tree M (Option α) → Answer Tree M (Option α)) where
  error := rfl
  metrics_eq answer := by
    obtain ⟨error | _ | found, scan⟩ := answer <;> rfl

theorem handing_adopt (trail : Trail) : Handing (adopt trail (M := M)) where
  error := rfl
  metrics_eq answer := by
    obtain ⟨error | found | _, scan⟩ := answer <;> rfl

theorem handing_peek (positive : Bool) (position : Nat) (trail : Trail) :
    Handing (peek positive position trail (M := M)) where
  error := rfl
  metrics_eq answer := by
    obtain ⟨error | found, scan⟩ := answer <;> rfl

theorem handing_gather (tag : String) (start : Nat) (trail : Trail) :
    Handing (gather tag start trail (M := M)) where
  error := rfl
  metrics_eq answer := by
    obtain ⟨error | _ | inner, scan⟩ := answer <;> rfl

theorem handing_desist (owed : Nat) (trail : Trail) :
    Handing (desist owed trail (M := M)) where
  error := rfl
  metrics_eq answer := by
    obtain ⟨error | _ | found, scan⟩ := answer <;> rfl

theorem handing_judge (site : Site) (start : Nat) :
    Handing fun answer : Answer Tree M (Option Trail) => judge site (bodyAnswer start answer) where
  error := rfl
  metrics_eq answer := by
    obtain ⟨error | _ | trail, scan⟩ := answer
    · rfl
    · exact scan.metrics_settle site _
    · exact scan.metrics_settle site _

theorem handing_release (site : Site) :
    Handing (Scan.release site : Answer Tree M (Outcome Tree) → Answer Tree M (Outcome Tree)) where
  error := rfl
  metrics_eq := Scan.metrics_release site

theorem Scan.metrics_meet (scan : Scan Tree M) (expected : String) (trail : Trail)
    (stop? : Option Nat) : (scan.meet expected trail stop?).2.metrics = scan.metrics := by
  cases stop? <;> rfl

theorem Scan.maxDepth_reenter (scan : Scan Tree M) (site : Site) :
    (scan.reenter site).2.metrics.maxDepth = scan.metrics.maxDepth := by
  unfold Scan.reenter
  split <;> rfl

theorem metrics_of_judged {site : Site} {start : Nat} {answer : Answer Tree M (Option Trail)}
    {result : Except ParseError (Option (Outcome Tree))} {scan : Scan Tree M}
    (hjudged : judge site (bodyAnswer start answer) = (result, scan)) :
    scan.metrics = answer.2.metrics := by
  have hmetrics : (judge site (bodyAnswer start answer)).2.metrics = answer.2.metrics :=
    (handing_judge site start).metrics_eq answer
  rwa [hjudged] at hmetrics

theorem Scan.maxDepth_countGrowth (scan : Scan Tree M) :
    scan.countGrowth.metrics.maxDepth = scan.metrics.maxDepth := rfl

theorem tooDeep_of_judged {site : Site} {start : Nat} {answer : Answer Tree M (Option Trail)}
    {result : Except ParseError (Option (Outcome Tree))} {scan : Scan Tree M}
    (hjudged : judge site (bodyAnswer start answer) = (result, scan)) (h : TooDeep answer) :
    TooDeep (result, scan) := by
  have hended : TooDeep (judge site (bodyAnswer start answer)) := (handing_judge site start).tooDeep h
  rwa [hjudged] at hended

theorem TooDeep.of_error {error : ParseError} {scan : Scan Tree M}
    (h : TooDeep ((.error error, scan) : Answer Tree M α)) :
    TooDeep ((.error error, scan) : Answer Tree M β) := by
  obtain ⟨limit, index, hresult⟩ := h
  cases hresult
  exact ⟨limit, index, rfl⟩

theorem not_tooDeep_ok {result : α} {scan : Scan Tree M} : ¬ TooDeep (.ok result, scan) :=
  fun ⟨_, _, h⟩ => nomatch h

namespace Subject

variable [DecidableEq S] {subject : Subject S M}

/-! ## The greatest depth -/

mutual

theorem Looks.maxDepth_le {task : Task S} {trail : Trail} {scan : Scan Tree M}
    {answer : Answer Tree M (Option Trail)} :
    subject.Looks task trail scan answer → scan.metrics.maxDepth ≤ answer.2.metrics.maxDepth
  | .terminal _ => Nat.le_of_eq (by rw [Scan.metrics_meet])
  | .unresolved => Nat.le_refl _
  | .rule hinvokes => by
    rw [(handing_rewind _).metrics_eq, (handing_adopt _).metrics_eq]
    exact hinvokes.maxDepth_le
  | .sequence hitems => by
    rw [(handing_rewind _).metrics_eq]
    exact hitems.maxDepth_le
  | .choice hitems => by
    rw [(handing_rewind _).metrics_eq]
    exact hitems.maxDepth_le
  | .repetition hcopies => by
    rw [(handing_rewind _).metrics_eq]
    exact hcopies.maxDepth_le
  | .lookahead hitem => by
    rw [(handing_peek _ _ _).metrics_eq]
    exact hitem.maxDepth_le
  | .tagged hitem => by
    rw [(handing_gather _ _ _).metrics_eq]
    exact hitem.maxDepth_le
  | .allNil => Nat.le_refl _
  | .allCons hitem hrest => Nat.le_trans hitem.maxDepth_le hrest.maxDepth_le
  | .allStops hitem _ => hitem.maxDepth_le
  | .firstNil => Nat.le_refl _
  | .firstNext hitem hrest => Nat.le_trans hitem.maxDepth_le hrest.maxDepth_le
  | .firstStops hitem _ => hitem.maxDepth_le
  | .copiesEnd => Nat.le_refl _
  | .copiesStop _ hitem _ => by
    rw [(handing_desist _ _).metrics_eq]
    exact hitem.maxDepth_le
  | .copiesEmpty _ hitem _ => hitem.maxDepth_le
  | .copiesNext _ hitem _ hrest => Nat.le_trans hitem.maxDepth_le hrest.maxDepth_le

theorem Grows.maxDepth_le {form : Expression S} {site : Site} {scan : Scan Tree M}
    {answer : Answer Tree M (Outcome Tree)} :
    subject.Grows form site scan answer → scan.metrics.maxDepth ≤ answer.2.metrics.maxDepth
  | .failed hform hjudged => by
    rw [metrics_of_judged hjudged]
    exact hform.maxDepth_le
  | .settled hform hjudged => by
    rw [metrics_of_judged hjudged]
    exact hform.maxDepth_le
  | .extended hform hjudged hrest => by
    have hrest' := hrest.maxDepth_le
    rw [Scan.maxDepth_countGrowth, metrics_of_judged hjudged] at hrest'
    exact Nat.le_trans hform.maxDepth_le hrest'

theorem Invokes.maxDepth_le {rule : RuleId} {scan : Scan Tree M}
    {answer : Answer Tree M (Outcome Tree)} :
    subject.Invokes rule scan answer → scan.metrics.maxDepth ≤ answer.2.metrics.maxDepth
  | .remembered _ => Nat.le_refl _
  | .reentered _ => Nat.le_of_eq (by rw [Scan.maxDepth_reenter])
  | .unknown _ _ => Nat.le_refl _
  | .tooDeep _ _ _ => Nat.le_refl _
  | .activated _ _ _ hgrows => by
    rw [(handing_release _).metrics_eq]
    exact Nat.le_trans (Nat.le_max_left _ _) hgrows.maxDepth_le

end

/-! ## Under another bound -/

/-- The same run under another bound. -/
def within (subject : Subject S M) (limit : Nat) : Subject S M :=
  { subject with maxDepth := limit }

end Subject

/-- A bound that allows the depth of a run leaves its answer as it is, and one that does not ends
the run. -/
structure Curbed (limit : Nat) (Comes : Answer Tree M α → Prop) (answer : Answer Tree M α) :
    Prop where
  same : answer.2.metrics.maxDepth ≤ limit → Comes answer
  ends : limit < answer.2.metrics.maxDepth →
    ∃ index scan, Comes (.error (.tooDeep limit index), scan)

namespace Curbed

variable {limit : Nat} {Comes : Answer Tree M α → Prop} {answer : Answer Tree M α}

/-- Within the bound, the answer is all there is to say. -/
theorem of_le (hdepth : answer.2.metrics.maxDepth ≤ limit) (h : Comes answer) :
    Curbed limit Comes answer :=
  ⟨fun _ => h, fun hlimit => absurd hdepth (Nat.not_le.mpr hlimit)⟩

/-- What holds of a part holds of the whole, if the step between them hands on errors. -/
theorem step (h : Curbed limit Comes answer) {step : Answer Tree M α → Answer Tree M β}
    (hstep : Handing step) {Comes' : Answer Tree M β → Prop}
    (hcomes : ∀ answer, Comes answer → Comes' (step answer)) : Curbed limit Comes' (step answer) := by
  constructor
  · intro hdepth
    rw [hstep.metrics_eq] at hdepth
    exact hcomes _ (h.same hdepth)
  · intro hdepth
    rw [hstep.metrics_eq] at hdepth
    obtain ⟨index, scan, hended⟩ := h.ends hdepth
    have hwhole := hcomes _ hended
    rw [show step (.error (.tooDeep limit index), scan) =
      (.error (.tooDeep limit index), (step (.error (.tooDeep limit index), scan)).2) from
        Prod.ext hstep.error rfl] at hwhole
    exact ⟨index, _, hwhole⟩

/-- A run that goes on once a first part has come to something. Where that part is given up, so is
the whole; otherwise it goes on from the same scan as before. -/
theorem seq (h : Curbed limit Comes answer) {answer' : Answer Tree M β}
    {Comes' : Answer Tree M β → Prop}
    (hdepth : answer.2.metrics.maxDepth ≤ answer'.2.metrics.maxDepth)
    (hnext : Comes answer → answer.2.metrics.maxDepth ≤ limit → Curbed limit Comes' answer')
    (hended : ∀ index scan, Comes (.error (.tooDeep limit index), scan) →
      Comes' (.error (.tooDeep limit index), scan)) : Curbed limit Comes' answer' := by
  by_cases hlimit : answer.2.metrics.maxDepth ≤ limit
  · exact hnext (h.same hlimit) hlimit
  · obtain ⟨index, scan, hstop⟩ := h.ends (Nat.not_le.mp hlimit)
    exact ⟨fun hlimit' => absurd (Nat.le_trans hdepth hlimit') hlimit,
      fun _ => ⟨index, scan, hended index scan hstop⟩⟩

/-- What ends a run as its last part. -/
theorem mono (h : Curbed limit Comes answer) {Comes' : Answer Tree M α → Prop}
    (hcomes : ∀ answer, Comes answer → Comes' answer) : Curbed limit Comes' answer where
  same hdepth := hcomes _ (h.same hdepth)
  ends hdepth :=
    have ⟨index, scan, hended⟩ := h.ends hdepth
    ⟨index, scan, hcomes _ hended⟩

end Curbed

namespace Subject

variable [DecidableEq S] {subject : Subject S M} {limit : Nat}

mutual

-- By induction on the run. A run that is not given up has no part that is.

theorem Looks.curbed {task : Task S} {trail : Trail} {scan : Scan Tree M}
    {answer : Answer Tree M (Option Trail)} :
    subject.Looks task trail scan answer → ¬ TooDeep answer → scan.metrics.maxDepth ≤ limit →
      Curbed limit ((subject.within limit).Looks task trail scan) answer
  | .terminal hexpected, _, hscan => by
    refine .of_le ?_ (.terminal hexpected)
    rw [Scan.metrics_meet]
    exact hscan
  | .unresolved, _, hscan => .of_le hscan .unresolved
  | .rule hinvokes, hwithin, hscan =>
    have hhanding := (handing_rewind _).comp (handing_adopt _)
    (hinvokes.curbed (fun h => hwithin (hhanding.tooDeep h)) hscan).step hhanding fun _ => .rule
  | .sequence hitems, hwithin, hscan =>
    (hitems.curbed (fun h => hwithin ((handing_rewind _).tooDeep h)) hscan).step (handing_rewind _)
      fun _ => .sequence
  | .choice hitems, hwithin, hscan =>
    (hitems.curbed (fun h => hwithin ((handing_rewind _).tooDeep h)) hscan).step (handing_rewind _)
      fun _ => .choice
  | .repetition hcopies, hwithin, hscan =>
    (hcopies.curbed (fun h => hwithin ((handing_rewind _).tooDeep h)) hscan).step
      (handing_rewind _) fun _ => .repetition
  | .lookahead hitem, hwithin, hscan =>
    (hitem.curbed (fun h => hwithin ((handing_peek _ _ _).tooDeep h)) hscan).step
      (handing_peek _ _ _) fun _ => .lookahead
  | .tagged hitem, hwithin, hscan =>
    (hitem.curbed (fun h => hwithin ((handing_gather _ _ _).tooDeep h)) hscan).step
      (handing_gather _ _ _) fun _ => .tagged
  | .allNil, _, hscan => .of_le hscan .allNil
  | .allCons hitem hrest, hwithin, hscan =>
    (hitem.curbed not_tooDeep_ok hscan).seq hrest.maxDepth_le
      (fun hfirst hnext => (hrest.curbed hwithin hnext).mono fun _ => .allCons hfirst)
      (fun _ _ hended => .allStops hended fun ⟨_, h⟩ => nomatch h)
  | .allStops hitem hstops, hwithin, hscan =>
    (hitem.curbed hwithin hscan).seq (Nat.le_refl _)
      (fun hfirst hnext => .of_le hnext (.allStops hfirst hstops))
      (fun _ _ hended => .allStops hended fun ⟨_, h⟩ => nomatch h)
  | .firstNil, _, hscan => .of_le hscan .firstNil
  | .firstNext hitem hrest, hwithin, hscan =>
    (hitem.curbed not_tooDeep_ok hscan).seq hrest.maxDepth_le
      (fun hfirst hnext => (hrest.curbed hwithin hnext).mono fun _ => .firstNext hfirst)
      (fun _ _ hended => .firstStops hended fun h => nomatch h)
  | .firstStops hitem hstops, hwithin, hscan =>
    (hitem.curbed hwithin hscan).seq (Nat.le_refl _)
      (fun hfirst hnext => .of_le hnext (.firstStops hfirst hstops))
      (fun _ _ hended => .firstStops hended fun h => nomatch h)
  | .copiesEnd, _, hscan => .of_le hscan .copiesEnd
  | .copiesStop hlimit hitem hstops, hwithin, hscan =>
    have hmetrics := (handing_desist _ _).metrics_eq _
    (hitem.curbed (fun h => hwithin ((handing_desist _ _).tooDeep h)) hscan).seq
      (hmetrics ▸ Nat.le_refl _)
      (fun hfirst hnext => .of_le (hmetrics ▸ hnext) (.copiesStop hlimit hfirst hstops))
      (fun _ _ hended => .copiesStop hlimit hended fun ⟨_, h⟩ => nomatch h)
  | .copiesEmpty hlimit hitem hstill, _, hscan =>
    (hitem.curbed not_tooDeep_ok hscan).seq (Nat.le_refl _)
      (fun hfirst hnext => .of_le hnext (.copiesEmpty hlimit hfirst hstill))
      (fun _ _ hended => .copiesStop hlimit hended fun ⟨_, h⟩ => nomatch h)
  | .copiesNext hlimit hitem hmoved hrest, hwithin, hscan =>
    (hitem.curbed not_tooDeep_ok hscan).seq hrest.maxDepth_le
      (fun hfirst hnext =>
        (hrest.curbed hwithin hnext).mono fun _ => .copiesNext hlimit hfirst hmoved)
      (fun _ _ hended => .copiesStop hlimit hended fun ⟨_, h⟩ => nomatch h)

theorem Grows.curbed {form : Expression S} {site : Site} {scan : Scan Tree M}
    {answer : Answer Tree M (Outcome Tree)} :
    subject.Grows form site scan answer → ¬ TooDeep answer → scan.metrics.maxDepth ≤ limit →
      Curbed limit ((subject.within limit).Grows form site scan) answer
  | .failed hform hjudged, hwithin, hscan =>
    have hmetrics := metrics_of_judged hjudged
    (hform.curbed (fun h => hwithin (tooDeep_of_judged hjudged h).of_error) hscan).seq
      (hmetrics ▸ Nat.le_refl _)
      (fun hfirst hnext => .of_le (hmetrics ▸ hnext) (.failed hfirst hjudged))
      (fun _ _ hended => .failed hended rfl)
  | .settled hform hjudged, _, hscan =>
    have hmetrics := metrics_of_judged hjudged
    (hform.curbed (fun h => not_tooDeep_ok (tooDeep_of_judged hjudged h)) hscan).seq
      (hmetrics ▸ Nat.le_refl _)
      (fun hfirst hnext => .of_le (hmetrics ▸ hnext) (.settled hfirst hjudged))
      (fun _ _ hended => .failed hended rfl)
  | .extended hform hjudged hrest, hwithin, hscan => by
    have hrest' := hrest.maxDepth_le
    rw [Scan.maxDepth_countGrowth, metrics_of_judged hjudged] at hrest'
    refine (hform.curbed (fun h => not_tooDeep_ok (tooDeep_of_judged hjudged h)) hscan).seq
      hrest' (fun hfirst hnext => ?_) (fun _ _ hended => .failed hended rfl)
    refine (hrest.curbed hwithin ?_).mono fun _ => .extended hfirst hjudged
    rwa [Scan.maxDepth_countGrowth, metrics_of_judged hjudged]

theorem Invokes.curbed {rule : RuleId} {scan : Scan Tree M}
    {answer : Answer Tree M (Outcome Tree)} :
    subject.Invokes rule scan answer → ¬ TooDeep answer → scan.metrics.maxDepth ≤ limit →
      Curbed limit ((subject.within limit).Invokes rule scan) answer
  | .remembered hfind, _, hscan => .of_le hscan (.remembered hfind)
  | .reentered hfind, _, hscan => by
    refine .of_le ?_ (.reentered hfind)
    rw [Scan.maxDepth_reenter]
    exact hscan
  | .unknown hfree hbody, _, hscan => .of_le hscan (.unknown hfree hbody)
  | .tooDeep _ _ _, hwithin, _ => absurd ⟨_, _, rfl⟩ hwithin
  | .activated hfree hbody hdepth hgrows, hwithin, hscan => by
    by_cases hroom : scan.stack.depth < limit
    -- The activation is allowed, and its depth is not beyond the bound.
    · have hpart := hgrows.curbed (fun h => hwithin ((handing_release _).tooDeep h))
        (Nat.max_le.mpr ⟨hscan, hroom⟩)
      exact hpart.step (handing_release _) fun _ => .activated hfree hbody hroom
    -- It is the first one too many, and its depth has been recorded.
    · have hreached : scan.stack.depth + 1 ≤ _ :=
        Nat.le_trans (Nat.le_max_right _ _) hgrows.maxDepth_le
      rw [← (handing_release (Engine.siteOf rule scan)).metrics_eq] at hreached
      exact ⟨fun _ => by omega,
        fun _ => ⟨_, _, .tooDeep hfree hbody (Nat.not_lt.mp hroom)⟩⟩

end

end Subject

namespace Parser

/-! ## Whole parses -/

theorem metrics_close (parser : Parser S M) (options : Options) (inputLength : Nat)
    (answer : Answer Tree M (Outcome Tree)) :
    (parser.close options inputLength answer).parser.ledger.metrics = answer.2.metrics := by
  rcases answer with ⟨error | outcome, scan⟩ <;> rfl

/-- A parse whose run is given up for want of depth says so. -/
theorem tooDeep_of_close {parser : Parser S M} {options : Options} {inputLength : Nat}
    {answer : Answer Tree M (Outcome Tree)} (h : TooDeep answer) :
    ∃ limit index, (parser.close options inputLength answer).result =
      .error (.tooDeep limit index) := by
  obtain ⟨result, scan⟩ := answer
  obtain ⟨limit, index, rfl⟩ := h
  exact ⟨limit, index, rfl⟩

variable [DecidableEq S]

/-- The bound on depth is only a guard. Let a parse with a new parser not be given up for want of
depth, and let `depth` be the greatest depth that it has recorded. Then a new parser with a bound of
`depth` or more comes to the same result and leaves the same ledger behind, and with a bound below
`depth` the parse is given up for want of depth. -/
theorem parse_depth (grammar : Grammar S M) (hforms : grammar.OfExpressions) (config : Config)
    (input : Array S) (rule : RuleId) (options : Options) (memory : M)
    (hwithin : ∀ limit index, ((new grammar config).parse input rule options memory).result ≠
      .error (.tooDeep limit index)) (limit : Nat) :
    let parse := (new grammar config).parse input rule options memory
    let other := (new grammar { config with maxDepth := limit }).parse input rule options memory
    let depth := parse.parser.ledger.metrics.maxDepth
    (depth ≤ limit → other.result = parse.result ∧ other.parser.ledger = parse.parser.ledger ∧
      other.memory = parse.memory ∧ other.events = parse.events) ∧
    (limit < depth → ∃ index, other.result = .error (.tooDeep limit index)) := by
  dsimp only
  by_cases hrule : rule.index < grammar.size
  · by_cases hstart : options.start?.getD 0 ≤ input.size
    · rw [parse_eq_close _ input options memory hrule hstart] at hwithin ⊢
      rw [parse_eq_close _ input options memory hrule hstart, metrics_close]
      -- Both runs begin with the same scan, and each is what the run without counters comes to.
      have hother := invokes_iff (new grammar { config with maxDepth := limit }) hforms input rule
        hstart memory
      cases hanswer : (engine (new grammar config) input).invoke rule _ with
      | mk result scan =>
      have hinvokes := (invokes_iff (new grammar config) hforms input rule hstart memory _).mpr
        hanswer.symm
      rw [hanswer] at hwithin
      have hcurbed : Curbed limit _ (result, scan) := hinvokes.curbed
        (fun h => have ⟨_, _, hresult⟩ := tooDeep_of_close h; hwithin _ _ hresult) (Nat.zero_le _)
      constructor
      · intro hdepth
        rw [← (hother _).mp (hcurbed.same hdepth)]
        cases result <;> exact ⟨rfl, rfl, rfl, rfl⟩
      · intro hdepth
        obtain ⟨index, scan', hended⟩ := hcurbed.ends hdepth
        rw [← (hother _).mp hended]
        exact ⟨index, rfl⟩
    · rw [parse_of_lt_start _ input options memory hrule (by omega),
        parse_of_lt_start _ input options memory hrule (by omega)]
      exact ⟨fun _ => ⟨rfl, rfl, rfl, rfl⟩, fun hdepth => absurd hdepth (Nat.not_lt_zero _)⟩
  · rw [parse_of_size_le _ input options memory (Nat.not_lt.mp hrule),
      parse_of_size_le _ input options memory (Nat.not_lt.mp hrule)]
    exact ⟨fun _ => ⟨rfl, rfl, rfl, rfl⟩, fun hdepth => absurd hdepth (Nat.not_lt_zero _)⟩

end Parser

/-- Pairs of brackets in one another, around an `x`. -/
def Grammar.nest : Grammar Char Unit :=
  ⟨[⟨"nest", .expression (.choice [
    .sequence [Expression.text "[", .rule ⟨0⟩, Expression.text "]"], Expression.text "x"])⟩]⟩

theorem Grammar.nest_ofExpressions : Grammar.nest.OfExpressions := by
  intro rule hrule
  rw [List.mem_singleton.mp hrule]
  exact ⟨_, rfl⟩

/-- Two pairs need a depth of three, no less and no more. -/
theorem Parser.parse_depth_nest :
    let parse := (new Grammar.nest {}).parse #['[', '[', 'x', ']', ']'] ⟨0⟩ {} ()
    (∀ limit index, parse.result ≠ .error (.tooDeep limit index)) ∧
      ((new Grammar.nest { maxDepth := 3 }).parse #['[', '[', 'x', ']', ']'] ⟨0⟩ {} ()).result =
        parse.result ∧
      ∃ index, ((new Grammar.nest { maxDepth := 2 }).parse
        #['[', '[', 'x', ']', ']'] ⟨0⟩ {} ()).result = .error (.tooDeep 2 index) := by
  intro parse
  have hstop : parse.result.toOption.map Match.stop = some 5 := by decide +kernel
  have hdepth : parse.parser.ledger.metrics.maxDepth = 3 := by decide +kernel
  have hwithin : ∀ limit index, parse.result ≠ .error (.tooDeep limit index) := by
    intro limit index hresult
    rw [hresult] at hstop
    cases hstop
  have hguard := parse_depth Grammar.nest Grammar.nest_ofExpressions {}
    #['[', '[', 'x', ']', ']'] ⟨0⟩ {} () hwithin
  exact ⟨hwithin, ((hguard 3).1 (Nat.le_of_eq hdepth)).1,
    (hguard 2).2 (Nat.lt_of_lt_of_eq (by decide) hdepth.symm)⟩

end LeftPeg
