import LeftPeg.Proofs.Evaluation
import LeftPeg.Grammar

/-!
# What attempts come to

The rules of a grammar without memory, as plain evaluation has them, but for rules that come back to
themselves: those are evaluated again and again, each time with the best match so far as their
answer to themselves, until an attempt does not extend it (`Settling`).

A rule that comes back to itself by way of another one has no answer here. So these are the answers
where left recursion is direct.
-/

namespace LeftPeg

variable {S M : Type}

/-! ## Remarks -/

/-- What is remarkable about an attempt: a terminal failed, or a rule came back to itself. -/
inductive Remark where
  | missed (position : Nat) (expected : String)
  | returned
deriving DecidableEq

namespace Remark

/-- The failures among the remarks. -/
def failures (remarks : List Remark) : FailureLog :=
  remarks.filterMap fun
    | missed position expected => some (position, expected)
    | returned => none

/-- The remarks that there are only failures. -/
def ofFailures (log : FailureLog) : List Remark :=
  log.map fun entry => missed entry.1 entry.2

@[simp] theorem failures_append (remarks remarks' : List Remark) :
    failures (remarks ++ remarks') = failures remarks ++ failures remarks' :=
  List.filterMap_append

@[simp] theorem failures_ofFailures (log : FailureLog) : failures (ofFailures log) = log := by
  induction log with
  | nil => rfl
  | cons entry rest ih => exact congrArg (entry :: ·) ih

theorem returned_not_mem_ofFailures (log : FailureLog) : returned ∉ ofFailures log := by
  intro hmem
  obtain ⟨entry, -, hentry⟩ := List.mem_map.mp hmem
  exact nomatch hentry

end Remark

/-! ## Attempts -/

/-- The outcome is a match that ends further right than the best one so far, if there is one. -/
def Outcome.Extends (outcome best : Outcome Tree) : Prop :=
  ∃ stop, outcome.stop? = some stop ∧ ∀ least ∈ best.stop?, least < stop

/-- A match lies to the right of where it was asked for, and in an input of that size. -/
def Outcome.Fits (outcome : Outcome Tree) (start size : Nat) : Prop :=
  ∀ found, outcome = .success found → start ≤ found.stop ∧ found.stop ≤ size

namespace Answers

/-- The answers while a rule is evaluated at a position, where it answers itself with the best match
so far. -/
def during (answers : Answers (Nat × String)) (key : MemoKey) (best : Outcome Tree) :
    Answers Remark := fun rule start outcome remarks =>
  if (⟨rule, start⟩ : MemoKey) = key then outcome = best ∧ remarks = [.returned]
  else ∃ log, answers rule start outcome log ∧ remarks = Remark.ofFailures log

/-- The answers while a rule that is under evaluation may come back with any of these outcomes. -/
def turning (answers : Answers (Nat × String)) (key : MemoKey) (comes : Outcome Tree → Prop) :
    Answers Remark := fun rule start outcome remarks =>
  if (⟨rule, start⟩ : MemoKey) = key then comes outcome ∧ remarks = [.returned]
  else ∃ log, answers rule start outcome log ∧ remarks = Remark.ofFailures log

variable {answers answers' : Answers (Nat × String)} {key : MemoKey} {best : Outcome Tree}
  {comes comes' : Outcome Tree → Prop} {rule : RuleId} {start : Nat} {outcome : Outcome Tree}
  {remarks : List Remark}

theorem turning_own (hkey : (⟨rule, start⟩ : MemoKey) = key) :
    answers.turning key comes rule start outcome remarks ↔
      comes outcome ∧ remarks = [.returned] := by
  unfold turning
  rw [if_pos hkey]

theorem turning_other (hkey : (⟨rule, start⟩ : MemoKey) ≠ key) :
    answers.turning key comes rule start outcome remarks ↔
      ∃ log, answers rule start outcome log ∧ remarks = Remark.ofFailures log := by
  unfold turning
  rw [if_neg hkey]

/-- It is enough that the rule comes back with one outcome at most. -/
theorem turning_agree (hagree : answers.Agree answers')
    (hcomes : ∀ outcome outcome', comes outcome → comes' outcome' → outcome = outcome') :
    (answers.turning key comes).Agree (answers'.turning key comes') := by
  intro rule start outcome remarks outcome' remarks' h h'
  by_cases hkey : (⟨rule, start⟩ : MemoKey) = key
  · obtain ⟨hcome, rfl⟩ := (turning_own hkey).mp h
    obtain ⟨hcome', rfl⟩ := (turning_own hkey).mp h'
    exact ⟨hcomes _ _ hcome hcome', rfl⟩
  · obtain ⟨log, hanswer, rfl⟩ := (turning_other hkey).mp h
    obtain ⟨log', hanswer', rfl⟩ := (turning_other hkey).mp h'
    obtain ⟨rfl, rfl⟩ := hagree hanswer hanswer'
    exact ⟨rfl, rfl⟩

/-- Matches stay in the input if those that the rule comes back with do. -/
theorem turning_span {size : Nat} (hspan : answers.Span size)
    (hcomes : ∀ outcome, comes outcome → outcome.Fits key.position size) :
    (answers.turning key comes).Span size := by
  intro rule start found remarks h hstart
  by_cases hkey : (⟨rule, start⟩ : MemoKey) = key
  -- What the rule comes back with was asked for where the rule is evaluated.
  · have hfits := hcomes _ ((turning_own hkey).mp h).1
    subst hkey
    exact hfits found rfl
  · obtain ⟨log, hanswer, -⟩ := (turning_other hkey).mp h
    exact hspan hanswer hstart

/-- During an attempt, a rule comes back with the best match so far. -/
theorem during_eq_turning : answers.during key best = answers.turning key (· = best) := rfl

theorem during_own (hkey : (⟨rule, start⟩ : MemoKey) = key) :
    answers.during key best rule start outcome remarks ↔
      outcome = best ∧ remarks = [.returned] := by
  rw [during_eq_turning]
  exact turning_own hkey

theorem during_other (hkey : (⟨rule, start⟩ : MemoKey) ≠ key) :
    answers.during key best rule start outcome remarks ↔
      ∃ log, answers rule start outcome log ∧ remarks = Remark.ofFailures log := by
  rw [during_eq_turning]
  exact turning_other hkey

theorem during_mono (hmono : ∀ rule start outcome log, answers rule start outcome log →
      answers' rule start outcome log)
    (h : answers.during key best rule start outcome remarks) :
    answers'.during key best rule start outcome remarks := by
  by_cases hkey : (⟨rule, start⟩ : MemoKey) = key
  · exact (during_own hkey).mpr ((during_own hkey).mp h)
  · obtain ⟨log, hanswer, hremarks⟩ := (during_other hkey).mp h
    exact (during_other hkey).mpr ⟨log, hmono _ _ _ _ hanswer, hremarks⟩

theorem during_agree (hagree : answers.Agree answers') :
    (answers.during key best).Agree (answers'.during key best) :=
  turning_agree hagree fun _ _ h h' => h.trans h'.symm

/-- One of the answers reached is reached at some depth. -/
theorem during_reached {step : Answers (Nat × String) → Answers (Nat × String)}
    (h : (reached step).during key best rule start outcome remarks) :
    ∃ depth, (within step depth).during key best rule start outcome remarks := by
  by_cases hkey : (⟨rule, start⟩ : MemoKey) = key
  · exact ⟨0, (during_own hkey).mpr ((during_own hkey).mp h)⟩
  · obtain ⟨log, ⟨depth, hanswer⟩, hremarks⟩ := (during_other hkey).mp h
    exact ⟨depth, (during_other hkey).mpr ⟨log, hanswer, hremarks⟩⟩

/-- Matches stay in the input if the best match so far does. -/
theorem during_span {size : Nat} (hspan : answers.Span size) (hbest : best.Fits key.position size) :
    (answers.during key best).Span size :=
  turning_span hspan fun _ h => h ▸ hbest

end Answers

/-- What comes of an attempt to extend the best match for a key by evaluating this body. -/
def Attempts [DecidableEq S] (input : Array S) (answers : Answers (Nat × String)) (key : MemoKey)
    (form : Expression S) (best outcome : Outcome Tree) (remarks : List Remark) : Prop :=
  ∃ found, Evaluates input .missed (answers.during key best) (.one form) key.position found
      remarks ∧
    outcome = .ofFound key.rule key.position found

namespace Attempts

variable [DecidableEq S] {input : Array S} {answers answers' : Answers (Nat × String)}
  {key : MemoKey} {form : Expression S} {best outcome outcome' : Outcome Tree}
  {remarks remarks' : List Remark}

theorem mono (hmono : ∀ rule start outcome log, answers rule start outcome log →
      answers' rule start outcome log)
    (h : Attempts input answers key form best outcome remarks) :
    Attempts input answers' key form best outcome remarks := by
  obtain ⟨found, hform, houtcome⟩ := h
  exact ⟨found, hform.mono fun _ _ _ _ => Answers.during_mono hmono, houtcome⟩

theorem unique (hagree : answers.Agree answers')
    (h : Attempts input answers key form best outcome remarks)
    (h' : Attempts input answers' key form best outcome' remarks') :
    outcome = outcome' ∧ remarks = remarks' := by
  obtain ⟨found, hform, rfl⟩ := h
  obtain ⟨found', hform', rfl⟩ := h'
  obtain ⟨rfl, rfl⟩ := hform.unique (Answers.during_agree hagree) hform'
  exact ⟨rfl, rfl⟩

theorem fits (hspan : answers.Span input.size) (hstart : key.position ≤ input.size)
    (hbest : best.Fits key.position input.size)
    (h : Attempts input answers key form best outcome remarks) :
    outcome.Fits key.position input.size := by
  obtain ⟨found, hform, rfl⟩ := h
  intro m hm
  cases found with
  | none => exact nomatch hm
  | some found =>
    cases hm
    exact hform.span (Answers.during_span hspan hbest) hstart _ _ rfl

end Attempts

/-! ## Settling -/

/-- How a rule settles on an outcome, from the best match so far. An attempt is accepted if the rule
has never come back to itself. Otherwise attempts go on for as long as they extend the best
match. -/
inductive Settling (attempt : Outcome Tree → Outcome Tree → List Remark → Prop) :
    Bool → Outcome Tree → Outcome Tree → List Remark → Prop where
  | accept {best outcome : Outcome Tree} {remarks : List Remark}
      (hattempt : attempt best outcome remarks) (hplain : .returned ∉ remarks) :
      Settling attempt false best outcome remarks
  | keep {recursive : Bool} {best outcome : Outcome Tree} {remarks : List Remark}
      (hattempt : attempt best outcome remarks)
      (hrecursive : recursive = true ∨ .returned ∈ remarks) (hshort : ¬ outcome.Extends best) :
      Settling attempt recursive best best remarks
  | grow {recursive : Bool} {best outcome final : Outcome Tree} {remarks remarks' : List Remark}
      (hattempt : attempt best outcome remarks)
      (hrecursive : recursive = true ∨ .returned ∈ remarks) (hlonger : outcome.Extends best)
      (hrest : Settling attempt true outcome final remarks') :
      Settling attempt recursive best final (remarks ++ remarks')

namespace Settling

variable {attempt attempt' : Outcome Tree → Outcome Tree → List Remark → Prop} {recursive : Bool}
  {best outcome outcome' : Outcome Tree} {remarks remarks' : List Remark}

theorem mono (hmono : ∀ best outcome remarks, attempt best outcome remarks →
      attempt' best outcome remarks)
    (h : Settling attempt recursive best outcome remarks) :
    Settling attempt' recursive best outcome remarks := by
  induction h with
  | accept hattempt hplain => exact .accept (hmono _ _ _ hattempt) hplain
  | keep hattempt hrecursive hshort => exact .keep (hmono _ _ _ hattempt) hrecursive hshort
  | grow hattempt hrecursive hlonger hrest ih =>
    exact .grow (hmono _ _ _ hattempt) hrecursive hlonger ih

/-- Finitely many attempts are made, so one of a growing family of attempts is enough for them. -/
theorem exists_of_family (family : Nat → Outcome Tree → Outcome Tree → List Remark → Prop)
    (hfamily : ∀ {n m best outcome remarks}, n ≤ m → family n best outcome remarks →
      family m best outcome remarks)
    (h : Settling (fun best outcome remarks => ∃ n, family n best outcome remarks) recursive best
      outcome remarks) :
    ∃ n, Settling (family n) recursive best outcome remarks := by
  -- The attempts are made one after another, and the family only grows.
  induction h with
  | accept hattempt hplain =>
    obtain ⟨n, hattempt⟩ := hattempt
    exact ⟨n, .accept hattempt hplain⟩
  | keep hattempt hrecursive hshort =>
    obtain ⟨n, hattempt⟩ := hattempt
    exact ⟨n, .keep hattempt hrecursive hshort⟩
  | grow hattempt hrecursive hlonger hrest ih =>
    obtain ⟨n, hattempt⟩ := hattempt
    obtain ⟨m, hrest⟩ := ih
    refine ⟨max n m, .grow (hfamily (Nat.le_max_left n m) hattempt) hrecursive hlonger ?_⟩
    exact hrest.mono fun _ _ _ => hfamily (Nat.le_max_right n m)

/-- At least one attempt is made. -/
theorem exists_attempt (h : Settling attempt recursive best outcome remarks) :
    ∃ outcome remarks, attempt best outcome remarks := by
  cases h with
  | accept hattempt | keep hattempt | grow hattempt => exact ⟨_, _, hattempt⟩

/-- What a rule settles on is determined by what its attempts come to. -/
theorem unique
    (hattempts : ∀ {best outcome outcome' remarks remarks'}, attempt best outcome remarks →
      attempt' best outcome' remarks' → outcome = outcome' ∧ remarks = remarks')
    (h : Settling attempt recursive best outcome remarks)
    (h' : Settling attempt' recursive best outcome' remarks') :
    outcome = outcome' ∧ remarks = remarks' := by
  -- The first attempts agree, and what they come to decides whether others follow.
  induction h generalizing outcome' remarks' with
  | accept hattempt hplain =>
    cases h' with
    | accept hattempt' hplain' => exact hattempts hattempt hattempt'
    | keep hattempt' hrecursive' | grow hattempt' hrecursive' =>
      obtain ⟨-, rfl⟩ := hattempts hattempt hattempt'
      rcases hrecursive' with h | h
      · exact nomatch h
      · exact absurd h hplain
  | keep hattempt hrecursive hshort =>
    cases h' with
    | accept hattempt' hplain' =>
      obtain ⟨-, rfl⟩ := hattempts hattempt hattempt'
      rcases hrecursive with h | h
      · exact nomatch h
      · exact absurd h hplain'
    | keep hattempt' => exact ⟨rfl, (hattempts hattempt hattempt').2⟩
    | grow hattempt' hrecursive' hlonger' =>
      obtain ⟨rfl, -⟩ := hattempts hattempt hattempt'
      exact absurd hlonger' hshort
  | grow hattempt hrecursive hlonger hrest ih =>
    cases h' with
    | accept hattempt' hplain' =>
      obtain ⟨-, rfl⟩ := hattempts hattempt hattempt'
      rcases hrecursive with h | h
      · exact nomatch h
      · exact absurd h hplain'
    | keep hattempt' hrecursive' hshort' =>
      obtain ⟨rfl, -⟩ := hattempts hattempt hattempt'
      exact absurd hlonger hshort'
    | grow hattempt' hrecursive' hlonger' hrest' =>
      obtain ⟨rfl, rfl⟩ := hattempts hattempt hattempt'
      obtain ⟨rfl, rfl⟩ := ih hrest'
      exact ⟨rfl, rfl⟩

/-- An attempt that extends the best match on a cycle is followed by others. -/
theorem rest {final : Outcome Tree}
    (hattempts : ∀ {best outcome outcome' remarks remarks'}, attempt best outcome remarks →
      attempt best outcome' remarks' → outcome = outcome' ∧ remarks = remarks')
    (hattempt : attempt best outcome remarks) (hrecursive : recursive = true ∨ .returned ∈ remarks)
    (hlonger : outcome.Extends best) (h : Settling attempt recursive best final remarks') :
    ∃ remarks, Settling attempt true outcome final remarks := by
  cases h with
  | accept hattempt' hplain =>
    obtain ⟨-, rfl⟩ := hattempts hattempt hattempt'
    rcases hrecursive with h | h
    · exact nomatch h
    · exact absurd h hplain
  | keep hattempt' _ hshort =>
    obtain ⟨rfl, -⟩ := hattempts hattempt hattempt'
    exact absurd hlonger hshort
  | grow hattempt' _ _ hrest =>
    obtain ⟨rfl, -⟩ := hattempts hattempt hattempt'
    exact ⟨_, hrest⟩

/-- What holds of the best match and of each attempt that follows on it holds of the outcome. -/
theorem preserves (Holds : Outcome Tree → Prop)
    (hattempts : ∀ {best outcome remarks}, Holds best → attempt best outcome remarks →
      Holds outcome)
    (hbest : Holds best) (h : Settling attempt recursive best outcome remarks) : Holds outcome := by
  induction h with
  | accept hattempt hplain => exact hattempts hbest hattempt
  | keep hattempt hrecursive hshort => exact hbest
  | grow hattempt hrecursive hlonger hrest ih => exact ih (hattempts hbest hattempt)

end Settling

/-! ## Rules -/

namespace Grammar

variable [DecidableEq S]

/-- What a rule settles on if the other rules in its body have these answers. -/
def settling (grammar : Grammar S M) (input : Array S) (answers : Answers (Nat × String)) :
    Answers (Nat × String) := fun rule start outcome log =>
  ∃ form remarks, grammar.body? rule = some (.expression form) ∧
    Settling (Attempts input answers ⟨rule, start⟩ form) false .failure outcome remarks ∧
    log = Remark.failures remarks

/-- What a rule settles on. -/
def Settled (grammar : Grammar S M) (input : Array S) : Answers (Nat × String) :=
  Answers.reached (grammar.settling input)

variable {grammar : Grammar S M} {input : Array S} {rule : RuleId} {start : Nat}
  {outcome : Outcome Tree} {log : FailureLog}

theorem settling_mono {answers answers' : Answers (Nat × String)}
    (hmono : ∀ rule start outcome log, answers rule start outcome log →
      answers' rule start outcome log)
    (h : grammar.settling input answers rule start outcome log) :
    grammar.settling input answers' rule start outcome log := by
  obtain ⟨form, remarks, hbody, hsettling, hlog⟩ := h
  exact ⟨form, remarks, hbody, hsettling.mono fun _ _ _ => .mono hmono, hlog⟩

/-- A rule settles on one outcome only, and on one account of failures. -/
theorem settled_agree : (grammar.Settled input).Agree (grammar.Settled input) := by
  apply Answers.reached_agree
  rintro answers answers' hagree rule start outcome log outcome' log'
    ⟨form, remarks, hbody, hsettling, rfl⟩ ⟨form', remarks', hbody', hsettling', rfl⟩
  rw [hbody] at hbody'
  cases hbody'
  obtain ⟨rfl, rfl⟩ := hsettling.unique (fun h h' => h.unique hagree h') hsettling'
  exact ⟨rfl, rfl⟩

theorem settled_span : (grammar.Settled input).Span input.size := by
  apply Answers.reached_span
  rintro answers hspan rule start found log ⟨form, remarks, -, hsettling, -⟩ hstart
  refine hsettling.preserves (Outcome.Fits · start input.size)
    (fun hbest h => h.fits hspan hstart hbest) ?_ found rfl
  exact fun _ h => nomatch h

/-- A rule settles on an outcome if its attempts do, with the other rules settled. -/
theorem settled_iff :
    grammar.Settled input rule start outcome log ↔
      grammar.settling input (grammar.Settled input) rule start outcome log := by
  constructor
  · rintro ⟨depth, h⟩
    cases depth with
    | zero => exact h.elim
    | succ depth => exact settling_mono (fun _ _ _ _ h => ⟨depth, h⟩) h
  · rintro ⟨form, remarks, hbody, hsettling, hlog⟩
    -- Each attempt is made at some depth, so all of them together are made at one.
    let family (depth : Nat) :=
      Attempts input (Answers.within (grammar.settling input) depth) ⟨rule, start⟩ form
    have hmono : ∀ {n m rule start outcome log}, n ≤ m →
        Answers.within (grammar.settling input) n rule start outcome log →
        Answers.within (grammar.settling input) m rule start outcome log := by
      intro n m rule start outcome log hle h
      refine Answers.within_mono ?_ hle h
      exact fun _ _ hmono _ _ _ _ => settling_mono hmono
    have hfamily : ∀ best outcome remarks,
        Attempts input (grammar.Settled input) ⟨rule, start⟩ form best outcome remarks →
        ∃ depth, family depth best outcome remarks := by
      rintro best outcome remarks ⟨found, hform, houtcome⟩
      obtain ⟨depth, hform⟩ := Evaluates.exists_of_family
        (fun depth => (Answers.within (grammar.settling input) depth).during ⟨rule, start⟩ best)
        (fun hle h => Answers.during_mono (fun _ _ _ _ => hmono hle) h)
        (hform.mono fun _ _ _ _ => Answers.during_reached)
      exact ⟨depth, found, hform, houtcome⟩
    obtain ⟨depth, hdepth⟩ := (hsettling.mono hfamily).exists_of_family family
      fun hle h => h.mono fun _ _ _ _ => hmono hle
    exact ⟨depth + 1, form, remarks, hbody, hdepth, hlog⟩

end Grammar

end LeftPeg
