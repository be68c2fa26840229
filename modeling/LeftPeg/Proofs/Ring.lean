import LeftPeg.Proofs.Grounded

/-!
# Rings of rules

A ring is a cycle of rules at one position: each rule hands on to the next one before it does
anything else, and the last one hands on to the rule at which the ring was entered. That one answers
with the best match so far, and each rule on the way makes of the answer of the next one what its
body makes of it (`Grammar.Comes`).
-/

namespace LeftPeg

variable {S M L : Type}

/-! ## Bodies that hand on -/

namespace Expression

/-- The `next` rule and then something else, one alternative for each of the tails, or else the
base. -/
def leftRecursive (next : RuleId) (tails : List (Expression S)) (base : Expression S) :
    Expression S :=
  .choice (tails.map (fun tail => .sequence [.rule next, tail]) ++ [base])

/-- The expression hands on to the `next` rule first of all, and mentions no other rules but free
ones. -/
inductive HandsOn (Free : RuleId → Prop) (next : RuleId) : Expression S → Prop where
  | rule : HandsOn Free next (.rule next)
  | leftRecursive {tail : Expression S} {tails : List (Expression S)} {base : Expression S}
      (hfree : ∀ target ∈ targetsOfAll (base :: tail :: tails), Free target) :
      HandsOn Free next (leftRecursive next (tail :: tails) base)

variable [DecidableEq S] {input : Array S} {fail : Nat → String → L} {answers : Answers L}
  {Free : RuleId → Prop} {next target : RuleId} {place start : Nat} {form : Expression S}

/-- The alternatives of a left recursive choice lead to the next rule where the choice begins, and
to the rules that the tails and the base mention. -/
theorem arrives_alternatives {tails : List (Expression S)} {base : Expression S}
    (h : Arrives input fail answers (.rule target) place
      (.first (tails.map (fun tail => .sequence [.rule next, tail]) ++ [base])) start) :
    (target = next ∧ place = start) ∨ target ∈ targetsOfAll (base :: tails) := by
  induction tails with
  | nil => exact .inr h.mem_targets
  | cons tail tails ih =>
    cases h with
    | firstItem hitem =>
      cases hitem with
      | sequence hitems =>
        cases hitems with
        | allItem hnext =>
          cases hnext with
          | here => exact .inl ⟨rfl, rfl⟩
        | allRest _ hrest =>
          refine .inr (List.mem_append_right _ (List.mem_append_left _ ?_))
          have hmem : target ∈ targetsOfAll [tail] := hrest.mem_targets
          simpa [targetsOfAll] using hmem
    | firstRest _ hrest =>
      refine (ih hrest).imp_right fun hmem => ?_
      rcases List.mem_append.mp hmem with hbase | htails
      · exact List.mem_append_left _ hbase
      · exact List.mem_append_right _ (List.mem_append_right _ htails)

namespace HandsOn

theorem arrives (h : form.HandsOn Free next)
    (harrives : Arrives input fail answers (.rule target) place (.one form) start) :
    (target = next ∧ place = start) ∨ Free target := by
  cases h with
  | rule =>
    cases harrives with
    | here => exact .inl ⟨rfl, rfl⟩
  | leftRecursive hfree =>
    cases harrives with
    | choice hitems => exact (arrives_alternatives hitems).imp_right (hfree target)

/-- An evaluation of a body that hands on comes back from the next rule. -/
theorem returned {answers : Answers (Nat × String)} {comes : Outcome Tree → Prop} {found : Found}
    {remarks : List Remark} (h : form.HandsOn Free next)
    (heval : Evaluates input .missed (answers.turning ⟨next, start⟩ comes) (.one form) start found
      remarks) : .returned ∈ remarks := by
  have hnext : ∀ {found remarks}, Evaluates input .missed (answers.turning ⟨next, start⟩ comes)
      (.one (.rule next)) start found remarks → .returned ∈ remarks := by
    intro found remarks heval
    obtain ⟨outcome, hanswer, -⟩ := Evaluates.rule_iff.mp heval
    rw [((Answers.turning_own rfl).mp hanswer).2]
    exact List.mem_singleton_self _
  -- The first alternative begins with the next rule, whatever comes of it.
  have hsequence : ∀ {tail : Expression S} {found remarks},
      Evaluates input .missed (answers.turning ⟨next, start⟩ comes)
        (.one (.sequence [.rule next, tail])) start found remarks → .returned ∈ remarks := by
    intro tail found remarks heval
    cases Evaluates.sequence_iff.mp heval with
    | allFails hitem => exact hnext hitem
    | allCons hitem => exact List.mem_append_left _ (hnext hitem)
  cases h with
  | rule => exact hnext heval
  | leftRecursive hfree =>
    cases Evaluates.choice_iff.mp heval with
    | firstFound hitem => exact hsequence hitem
    | firstNext hitem => exact List.mem_append_left _ (hsequence hitem)

end HandsOn

end Expression

/-! ## Once around -/

/-- One time around a ring: the rule at which the ring was entered and where, and its best match
so far. -/
structure Lap where
  key : MemoKey
  best : Outcome Tree

namespace Grammar

/-- Each of the rules hands on to the next one, and the last of them to the entry. -/
inductive Ring (grammar : Grammar S M) (Free : RuleId → Prop) (entry : RuleId) :
    List RuleId → Prop where
  | nil : Ring grammar Free entry []
  | cons {rule : RuleId} {rest : List RuleId} {form : Expression S}
      (hbody : grammar.body? rule = some (.expression form))
      (hhands : form.HandsOn Free (rest.headD entry)) (hrest : Ring grammar Free entry rest) :
      Ring grammar Free entry (rule :: rest)

variable [DecidableEq S]

/-- What the first of the rules comes to, each of them with the answer of the one after it, and the
last one with the best match so far. -/
def Comes (grammar : Grammar S M) (input : Array S) (lap : Lap) :
    List RuleId → Outcome Tree → Prop
  | [], outcome => outcome = lap.best
  | rule :: rest, outcome =>
    ∃ form found remarks, grammar.body? rule = some (.expression form) ∧
      Evaluates input .missed
        ((grammar.Plain input).turning ⟨rest.headD lap.key.rule, lap.key.position⟩
          (Comes grammar input lap rest))
        (.one form) lap.key.position found remarks ∧
      outcome = .ofFound rule lap.key.position found

/-- The answers for the body of the rule before these. -/
def turns (grammar : Grammar S M) (input : Array S) (lap : Lap) (rest : List RuleId) :
    Answers Remark :=
  (grammar.Plain input).turning ⟨rest.headD lap.key.rule, lap.key.position⟩
    (grammar.Comes input lap rest)

variable {grammar : Grammar S M} {input : Array S} {lap : Lap} {rest : List RuleId}
  {outcome outcome' : Outcome Tree}

theorem comes_unique (h : grammar.Comes input lap rest outcome)
    (h' : grammar.Comes input lap rest outcome') : outcome = outcome' := by
  induction rest generalizing outcome outcome' with
  | nil => exact h.trans h'.symm
  | cons rule rest ih =>
    obtain ⟨form, found, remarks, hbody, heval, rfl⟩ := h
    obtain ⟨form', found', remarks', hbody', heval', rfl⟩ := h'
    rw [hbody] at hbody'
    cases hbody'
    have hagree : (grammar.turns input lap rest).Agree (grammar.turns input lap rest) :=
      Answers.turning_agree plain_agree fun _ _ h h' => ih h h'
    rw [(heval.unique hagree heval').1]

theorem turns_agree : (grammar.turns input lap rest).Agree (grammar.turns input lap rest) :=
  Answers.turning_agree plain_agree fun _ _ => comes_unique

theorem comes_fits (hstart : lap.key.position ≤ input.size)
    (hbest : lap.best.Fits lap.key.position input.size)
    (h : grammar.Comes input lap rest outcome) : outcome.Fits lap.key.position input.size := by
  induction rest generalizing outcome with
  | nil => exact h ▸ hbest
  | cons rule rest ih =>
    obtain ⟨form, found, remarks, -, heval, rfl⟩ := h
    have hspan : (grammar.turns input lap rest).Span input.size :=
      Answers.turning_span plain_span fun _ h => ih h
    intro found' hfound'
    cases found with
    | none => exact nomatch hfound'
    | some found =>
      cases hfound'
      exact heval.span hspan hstart _ _ rfl

theorem turns_span (hstart : lap.key.position ≤ input.size)
    (hbest : lap.best.Fits lap.key.position input.size) :
    (grammar.turns input lap rest).Span input.size :=
  Answers.turning_span plain_span fun _ => comes_fits hstart hbest

/-! ## Rings among separate rules -/

/-- A separate rule that is grounded wherever it is asked for. -/
def Free (grammar : Grammar S M) (input : Array S) (Separate : RuleId → Prop) (rule : RuleId) :
    Prop :=
  Separate rule ∧ ∀ place ≤ input.size, grammar.Grounded input ⟨rule, place⟩

/-- The entry and the others are a ring of rules, none of which is separate. -/
structure Circle (grammar : Grammar S M) (input : Array S) (Separate : RuleId → Prop) (lap : Lap)
    (others : List RuleId) : Prop where
  ring : grammar.Ring (grammar.Free input Separate) lap.key.rule (lap.key.rule :: others)
  distinct : (lap.key.rule :: others).Nodup
  apart : ∀ rule ∈ lap.key.rule :: others, ¬ Separate rule
  position_le : lap.key.position ≤ input.size
  fits : lap.best.Fits lap.key.position input.size

omit [DecidableEq S] in
theorem Ring.of_append {grammar : Grammar S M} {Free : RuleId → Prop} {entry : RuleId}
    {path rest : List RuleId} (h : grammar.Ring Free entry (path ++ rest)) :
    grammar.Ring Free entry rest := by
  induction path with
  | nil => exact h
  | cons rule path ih =>
    cases h with
    | cons hbody hhands hrest => exact ih hrest

/-- The rest of a ring is apart from the separate rules, as is the entry. -/
theorem Circle.apart_rest {grammar : Grammar S M} {input : Array S} {Separate : RuleId → Prop}
    {lap : Lap} {path rest : List RuleId} (h : grammar.Circle input Separate lap (path ++ rest)) :
    ∀ rule ∈ lap.key.rule :: rest, ¬ Separate rule := by
  intro rule hmem
  refine h.apart rule ?_
  rcases List.mem_cons.mp hmem with rfl | hmem
  · exact List.mem_cons_self
  · exact List.mem_cons_of_mem _ (List.mem_append_right _ hmem)

theorem Circle.next {grammar : Grammar S M} {input : Array S} {Separate : RuleId → Prop}
    {key : MemoKey} {best best' : Outcome Tree} {others : List RuleId}
    (h : grammar.Circle input Separate ⟨key, best⟩ others)
    (hfits : best'.Fits key.position input.size) :
    grammar.Circle input Separate ⟨key, best'⟩ others :=
  { h with fits := hfits }

end Grammar

end LeftPeg
