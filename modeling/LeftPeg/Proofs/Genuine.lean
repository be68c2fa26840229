import LeftPeg.Proofs.Derivation
import LeftPeg.Proofs.Reliance
import LeftPeg.Parser

/-!
# Genuine outcomes

A match in the memo table, or one set aside, is derived by its rule, however many attempts it was
grown in and whichever rules found it for each other.  `Genuine` is what a run keeps of outcomes,
in the sense of `Orderly`, when all bodies are expressions: `Course.recognised` shows it for what an
expression finds, and `Engine.invokeWithin_reliable` does the rest.
-/

namespace LeftPeg

open Expression (Trail)

variable {S M : Type}

/-- An outcome of a rule at a position is genuine if it is a failure, or a match whose tree the
rule derives there. -/
def Genuine (grammar : Grammar S M) (input : Array S) (rule : RuleId) (position : Nat) :
    Outcome Tree → Prop
  | .failure => True
  | .success found =>
    found.start = position ∧ position ≤ found.stop ∧ found.stop ≤ input.size ∧
      Derives grammar input (.rule rule) position found.stop [found.value]

/-- What it is to have found a task. -/
def Task.Derived (grammar : Grammar S M) (input : Array S) :
    Task S → Nat → Nat → List Tree → Prop
  | .one expression => Derives grammar input expression
  | .all items => DerivesAll grammar input items
  | .first alternatives => fun start stop trees =>
    ∃ alternative ∈ alternatives, Derives grammar input alternative start stop trees
  | .copies item limit owed => fun start stop trees =>
    ∃ copies, owed ≤ copies ∧ (∀ most ∈ limit, copies ≤ most) ∧
      DerivesAll grammar input (List.replicate copies item) start stop trees

variable {grammar : Grammar S M} {input : Array S}

theorem genuine_spanned : Spanned (Genuine grammar input) input.size :=
  fun _ _ _ h => ⟨h.2.1, h.2.2.1⟩

/-- A terminal that reaches from one position to another is a leaf between them. -/
theorem derives_of_reach? [DecidableEq S] {expression : Expression S} {start stop : Nat}
    (h : expression.reach? input start = some stop) :
    Derives grammar input expression start stop [.leaf start stop] := by
  cases expression with
  | literal symbols description =>
    simp only [Expression.reach?, Option.ite_none_right_eq_some] at h
    obtain ⟨⟨hsize, hsymbols⟩, hstop⟩ := h
    injection hstop with hstop
    subst hstop
    exact .literal hsize hsymbols
  | satisfying test description =>
    simp only [Expression.reach?, Option.ite_none_right_eq_some] at h
    obtain ⟨htest, hstop⟩ := h
    injection hstop with hstop
    subst hstop
    obtain ⟨symbol, hsymbol, htest⟩ := (Option.any_eq_true _ _).mp htest
    exact .satisfying hsymbol htest
  | any =>
    simp only [Expression.reach?, Option.ite_none_right_eq_some] at h
    obtain ⟨hlt, hstop⟩ := h
    injection hstop with hstop
    subst hstop
    exact .any (Array.getElem?_eq_getElem hlt)
  | reference _ => cases h
  | rule _ => cases h
  | sequence _ => cases h
  | choice _ => cases h
  | repetition _ _ _ => cases h
  | lookahead _ _ => cases h
  | tagged _ _ => cases h

namespace Scan

/-- The part of a run between two scans kept everything in order. -/
structure Onward (grammar : Grammar S M) (input : Array S) (scan scan' : Scan Tree M) : Prop where
  orderly : scan'.Orderly (Genuine grammar input) input.size
  depth_eq : scan'.stack.depth = scan.stack.depth
  undisturbed : scan.Undisturbed scan.stack.depth scan'

variable {scan scan' scan'' : Scan Tree M}

theorem Onward.refl (h : scan.Orderly (Genuine grammar input) input.size) :
    Onward grammar input scan scan :=
  ⟨h, rfl, LeftPeg.Undisturbed.refl⟩

theorem Onward.trans (h : Onward grammar input scan scan')
    (h' : Onward grammar input scan' scan'') : Onward grammar input scan scan'' where
  orderly := h'.orderly
  depth_eq := h'.depth_eq.trans h.depth_eq
  undisturbed := LeftPeg.Undisturbed.trans h.undisturbed (h.depth_eq ▸ h'.undisturbed)

/-- A run may go back to where it started: nothing that is live began to the right of that. -/
theorem Onward.rewind (h : Onward grammar input scan scan')
    (horderly : scan.Orderly (Genuine grammar input) input.size) :
    Onward grammar input scan { scan' with position := scan.position } where
  orderly := by
    refine Orderly.move h.orderly horderly.position_le fun slot a ha => ?_
    have hslot : slot < scan.stack.depth :=
      h.depth_eq ▸ ActivationStack.lt_depth_of_get? ha
    obtain ⟨b, hb⟩ := ActivationStack.get?_of_lt_depth hslot
    obtain ⟨c, hc, hcall, -⟩ := h.undisturbed slot b hslot hb
    rw [ha] at hc
    injection hc with hc
    rw [hc, hcall.position_eq]
    exact horderly.reached hb
  depth_eq := h.depth_eq
  undisturbed := h.undisturbed

/-- The activation on top is that of the same rule. -/
theorem Onward.currentRule_eq (h : Onward grammar input scan scan') :
    scan'.currentRule = scan.currentRule := by
  -- The top is the last slot; it is undisturbed if there is one.
  unfold Scan.currentRule
  rw [ActivationStack.top?_eq, ActivationStack.top?_eq, List.getLast?_eq_getElem?,
    List.getLast?_eq_getElem?, ActivationStack.length_toList, ActivationStack.length_toList,
    ← ActivationStack.get?_eq, ← ActivationStack.get?_eq, h.depth_eq]
  by_cases hslot : scan.stack.depth - 1 < scan.stack.depth
  · obtain ⟨a, ha⟩ := ActivationStack.get?_of_lt_depth hslot
    obtain ⟨b, hb, hcall, -⟩ := h.undisturbed _ a hslot ha
    rw [ha, hb]
    exact congrArg some hcall.rule_eq
  · rw [ActivationStack.get?_eq, ActivationStack.get?_eq, List.getElem?_eq_none,
      List.getElem?_eq_none]
    · rw [ActivationStack.length_toList]
      omega
    · rw [ActivationStack.length_toList, h.depth_eq]
      omega

end Scan

/-- What comes of looking for a task: an error that is no defect, nothing, or trees that the task
derives between the two positions. -/
inductive Recognised (grammar : Grammar S M) (input : Array S) (task : Task S) (trail : Trail)
    (scan : Scan Tree M) : Answer Tree M (Option Trail) → Prop where
  | error {error : ParseError} {scan' : Scan Tree M} (hsound : ∀ cause, error ≠ .defect cause)
      (hkeeps : scan'.Keeps (Genuine grammar input)) :
      Recognised grammar input task trail scan (.error error, scan')
  | nothing {scan' : Scan Tree M} (honward : Scan.Onward grammar input scan scan') :
      Recognised grammar input task trail scan (.ok none, scan')
  | found {scan' : Scan Tree M} (trees : List Tree)
      (honward : Scan.Onward grammar input scan scan')
      (hderived : task.Derived grammar input scan.position scan'.position trees) :
      Recognised grammar input task trail scan (.ok (some (trees.reverse ++ trail)), scan')

theorem Recognised.rewind {task task' : Task S} {trail : Trail} {scan : Scan Tree M}
    {answer : Answer Tree M (Option Trail)}
    (h : Recognised grammar input task trail scan answer)
    (horderly : scan.Orderly (Genuine grammar input) input.size)
    (htask : ∀ stop trees, task.Derived grammar input scan.position stop trees →
      task'.Derived grammar input scan.position stop trees) :
    Recognised grammar input task' trail scan (rewind scan.position answer) := by
  cases h with
  | error hsound hkeeps => exact .error hsound hkeeps
  | nothing honward => exact .nothing (honward.rewind horderly)
  | found trees honward hderived => exact .found _ honward (htask _ _ hderived)

/-- Looking for a task keeps order and finds nothing but what the task derives. -/
theorem Course.recognised [DecidableEq S] {invoke : Invoke Tree M} {task : Task S} {trail : Trail}
    {scan : Scan Tree M} {answer : Answer Tree M (Option Trail)}
    (hinvoke : Reliable (Genuine grammar input) input.size invoke)
    (h : Course input invoke task trail scan answer)
    (horderly : scan.Orderly (Genuine grammar input) input.size) :
    Recognised grammar input task trail scan answer := by
  -- On the course.  Each scan on the way is orderly, so the invocations made there are reliable.
  induction h with
  | @found expression trail scan stop hreach =>
    have hderives : Derives grammar input expression scan.position stop [.leaf _ stop] :=
      derives_of_reach? hreach
    have hspan := hderives.span horderly.position_le
    exact .found [_]
      ⟨Orderly.advance horderly hspan.1 hspan.2, rfl, LeftPeg.Undisturbed.refl⟩ hderives
  | missed hexpected hreach => exact .nothing ⟨horderly, rfl, LeftPeg.Undisturbed.refl⟩
  | unresolved => exact .error (fun cause hcause => nomatch hcause) horderly.keeps
  | @rule target trail scan scan' found hrun =>
    obtain ⟨hcomes, hposition⟩ := hinvoke target scan horderly
    rw [hrun] at hcomes
    cases hcomes with
    | ok horderly' hdepth hundisturbed hkept =>
      -- Seeds, outcomes from the table and new ones are all genuine.
      refine .found [found.value] ⟨horderly', hdepth, hundisturbed⟩ ?_
      have hstop : scan'.position = found.stop := hposition _ _ hrun
      rw [hstop]
      exact hkept.2.2.2
  | @ruleFails target trail scan scan' hrun =>
    obtain ⟨hcomes, -⟩ := hinvoke target scan horderly
    rw [hrun] at hcomes
    cases hcomes with
    | ok horderly' hdepth hundisturbed hkept =>
      exact .nothing (Scan.Onward.rewind ⟨horderly', hdepth, hundisturbed⟩ horderly)
  | @ruleAborts target trail scan scan' error hrun =>
    obtain ⟨hcomes, -⟩ := hinvoke target scan horderly
    rw [hrun] at hcomes
    cases hcomes with
    | error hsound hkeeps => exact .error hsound hkeeps
  | sequence hitems ih => exact (ih horderly).rewind horderly fun _ _ h => .sequence h
  | choice hitems ih =>
    refine (ih horderly).rewind horderly fun _ _ h => ?_
    obtain ⟨alternative, hmem, hderives⟩ := h
    exact .choice hmem hderives
  | @repetition item atLeast atMost trail scan answer hcopies ih =>
    refine (ih horderly).rewind horderly fun _ _ h => ?_
    obtain ⟨copies, hleast, hmost, hderives⟩ := h
    -- A repetition without a bound is run with one, which its derivation can do without.
    refine .repetition hleast (fun most hmem => ?_) hderives
    rw [Option.mem_def] at hmem
    simpa [hmem] using hmost
  | @lookahead item positive trail scan scan' found hitem ih =>
    have honward : Scan.Onward grammar input scan scan' := by
      cases ih horderly with
      | nothing honward => exact honward
      | found trees honward hderived => exact honward
    split
    · exact .found [] (honward.rewind horderly) .lookahead
    · exact .nothing (honward.rewind horderly)
  | lookaheadAborts hitem ih =>
    cases ih horderly with
    | error hsound hkeeps => exact .error hsound hkeeps
  | @tagged tag item trail inner scan scan' hitem ih =>
    cases ih horderly with
    | @found _ trees honward hderived =>
      -- The item began with an empty trail, so all of the trail is its children.
      refine .found [_] honward ?_
      rw [List.append_nil, List.reverse_reverse]
      exact .tagged hderived
  | taggedFails hitem ih =>
    cases ih horderly with
    | nothing honward => exact .nothing (honward.rewind horderly)
  | taggedAborts hitem ih =>
    cases ih horderly with
    | error hsound hkeeps => exact .error hsound hkeeps
  | allNil => exact .found [] (.refl horderly) .nil
  | allCons hitem hrest ihitem ihrest =>
    cases ihitem horderly with
    | @found _ trees honward hderived =>
      cases ihrest honward.orderly with
      | error hsound hkeeps => exact .error hsound hkeeps
      | nothing honward' => exact .nothing (honward.trans honward')
      | @found _ trees' honward' hderived' =>
        rw [← List.append_assoc, ← List.reverse_append]
        exact .found _ (honward.trans honward') (.cons hderived hderived')
  | allFails hitem ih =>
    cases ih horderly with
    | nothing honward => exact .nothing honward
  | allAborts hitem ih =>
    cases ih horderly with
    | error hsound hkeeps => exact .error hsound hkeeps
  | firstNil => exact .nothing (.refl horderly)
  | firstFound hitem ih =>
    cases ih horderly with
    | found trees honward hderived => exact .found _ honward ⟨_, List.mem_cons_self, hderived⟩
  | firstNext hitem hrest ihitem ihrest =>
    cases ihitem horderly with
    | nothing honward =>
      -- The next alternative begins where this one did.
      have hposition := hitem.position_of_none rfl
      cases ihrest honward.orderly with
      | error hsound hkeeps => exact .error hsound hkeeps
      | nothing honward' => exact .nothing (honward.trans honward')
      | found trees honward' hderived =>
        obtain ⟨alternative, hmem, hderives⟩ := hderived
        rw [hposition] at hderives
        exact .found _ (honward.trans honward')
          ⟨alternative, List.mem_cons_of_mem _ hmem, hderives⟩
  | firstAborts hitem ih =>
    cases ih horderly with
    | error hsound hkeeps => exact .error hsound hkeeps
  | @copiesEnd item owed trail scan =>
    split
    · rename_i howed
      exact .found [] (.refl horderly) ⟨0, by omega, by simp, .nil⟩
    · exact .nothing (.refl horderly)
  | @copiesStop item limit owed trail scan scan' hitem ih =>
    cases ih horderly with
    | nothing honward =>
      split
      · refine .found [] honward ⟨0, by omega, by simp, ?_⟩
        rw [hitem.position_of_none rfl]
        exact .nil
      · exact .nothing honward
  | @copiesEmpty item limit owed trail trail' scan scan' hitem hstill ih =>
    cases ih horderly with
    | @found _ trees honward hderived =>
      split
      · refine .found _ honward ⟨1, by omega, by simp, ?_⟩
        rw [← List.append_nil trees]
        exact .cons hderived .nil
      · exact .nothing honward
  | @copiesNext item limit owed trail trail' scan scan' answer hitem hmoved hrest ihitem ihrest =>
    cases ihitem horderly with
    | @found _ trees honward hderived =>
      cases ihrest honward.orderly with
      | error hsound hkeeps => exact .error hsound hkeeps
      | nothing honward' => exact .nothing (honward.trans honward')
      | @found _ trees' honward' hderived' =>
        obtain ⟨copies, hleast, hmost, hcopies⟩ := hderived'
        have hlimit : copies ≤ limit := hmost limit rfl
        rw [← List.append_assoc, ← List.reverse_append]
        exact .found _ (honward.trans honward')
          ⟨copies + 1, by omega, by simpa using hlimit, .cons hderived hcopies⟩
  | copiesAbort hitem ih =>
    cases ih horderly with
    | error hsound hkeeps => exact .error hsound hkeeps

/-- What follows on a task that has come to an answer begins in order. -/
theorem Course.onward [DecidableEq S] {invoke : Invoke Tree M} {task : Task S} {trail : Trail}
    {scan scan' : Scan Tree M} {found : Option Trail}
    (hinvoke : Reliable (Genuine grammar input) input.size invoke)
    (h : Course input invoke task trail scan (.ok found, scan'))
    (horderly : scan.Orderly (Genuine grammar input) input.size) :
    scan.Onward grammar input scan' := by
  cases h.recognised hinvoke horderly with
  | nothing honward => exact honward
  | found trees honward hderived => exact honward

/-- An expression is a dependable body. -/
theorem dependable_toProcedure [DecidableEq S] {rule : RuleId} {form : Expression S}
    (hbody : grammar.body? rule = some (.expression form)) {invoke : Invoke Tree M}
    (hinvoke : Reliable (Genuine grammar input) input.size invoke) :
    Dependable (Genuine grammar input) input.size rule (form.toProcedure.run input invoke) := by
  intro scan horderly hrule
  rw [run_toProcedure]
  have hrecognised := (course_recognise form [] scan).recognised hinvoke horderly
  generalize (form.recognise []).run input invoke scan = answer at hrecognised
  cases hrecognised with
  | error hsound hkeeps => exact .error hsound hkeeps
  | nothing honward => exact .ok honward.orderly honward.depth_eq honward.undisturbed trivial
  | @found scan' trees honward hderived =>
    refine .ok honward.orderly honward.depth_eq honward.undisturbed ?_
    have hspan := hderived.span horderly.position_le
    -- The node is named after the rule on top, which is the one being evaluated.
    refine ⟨rfl, hspan.1, hspan.2, ?_⟩
    rw [List.append_nil, List.reverse_reverse, honward.currentRule_eq, hrule]
    exact .rule hbody hderived

/-- All bodies are expressions. -/
def Grammar.OfExpressions (grammar : Grammar S M) : Prop :=
  ∀ rule ∈ grammar.rules, ∃ form, rule.body = .expression form

/-- Only the rules of a grammar have bodies. -/
theorem Grammar.index_lt_of_body? {grammar : Grammar S M} {rule : RuleId} {body : Body S M}
    (h : grammar.body? rule = some body) : rule.index < grammar.size := by
  obtain ⟨definition, hdefinition, -⟩ := Option.map_eq_some_iff.mp h
  exact (List.getElem?_eq_some_iff.mp hdefinition).1

namespace Parser

variable [DecidableEq S] {parser : Parser S M}

/-- The bodies of an engine are those of the grammar. -/
theorem body?_engine (hforms : parser.grammar.OfExpressions) {input : Array S} {rule : RuleId}
    {body : Procedure S Tree M (Outcome Tree)} (h : (parser.engine input).body? rule = some body) :
    ∃ form : Expression S, body = form.toProcedure ∧
      parser.grammar.body? rule = some (.expression form) := by
  obtain ⟨form, hform, rfl⟩ := Option.map_eq_some_iff.mp h
  obtain ⟨definition, hdefinition, rfl⟩ := Option.map_eq_some_iff.mp hform
  obtain ⟨expression, hexpression⟩ := hforms definition (List.mem_of_getElem? hdefinition)
  rw [hform, hexpression]
  exact ⟨expression, rfl, rfl⟩

theorem engine_reliable (hforms : parser.grammar.OfExpressions) (input : Array S) (room : Nat) :
    Reliable (Genuine parser.grammar input) input.size
      ((parser.engine input).invokeWithin room) := by
  refine (parser.engine input).invokeWithin_reliable genuine_spanned (fun _ _ => trivial) ?_ room
  intro invoke hinvoke rule body hbody
  obtain ⟨form, rfl, hform⟩ := body?_engine hforms hbody
  exact dependable_toProcedure hform hinvoke

end Parser

end LeftPeg
