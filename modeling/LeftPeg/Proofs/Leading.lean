import LeftPeg.Proofs.Settling
import LeftPeg.Proofs.Resolved

/-!
# Where rules lead to

The attempts of a rule lead to other rules, at the same position or further to the right. A rule
that leads back to itself at one position is left recursive there, and it is directly so if it meets
no other rule on the way (`Grammar.Direct`).

`Grammar.direct_of_targets` tells this from the bodies of the rules alone.
-/

namespace LeftPeg

variable {S M L : Type}

/-! ## What evaluations lead to -/

namespace Arrives

variable [DecidableEq S] {input : Array S} {fail : Nat → String → L} {answers : Answers L}
  {target : Expression S} {place : Nat} {task : Task S} {start : Nat}

/-- An evaluation leads to the right, and never out of the input. -/
theorem span (hspan : answers.Span input.size) (hstart : start ≤ input.size)
    (h : Arrives input fail answers target place task start) :
    start ≤ place ∧ place ≤ input.size := by
  -- Only what has been found before may move the position, and that lies to the right.
  induction h with
  | here => exact ⟨Nat.le_refl _, hstart⟩
  | sequence hitems ih => exact ih hstart
  | choice hitems ih => exact ih hstart
  | repetition hcopies ih => exact ih hstart
  | lookahead hitem ih => exact ih hstart
  | tagged hitem ih => exact ih hstart
  | allItem hitem ih => exact ih hstart
  | allRest hitem hrest ih | copiesRest hlimit hitem hmoved hrest ih =>
    obtain ⟨hle, hmiddle⟩ := hitem.span hspan hstart _ _ rfl
    exact ⟨Nat.le_trans hle (ih hmiddle).1, (ih hmiddle).2⟩
  | firstItem hitem ih => exact ih hstart
  | firstRest hitem hrest ih => exact ih hstart
  | copiesItem hlimit hitem ih => exact ih hstart

/-- An evaluation never leads to the left. -/
theorem le (hspan : answers.Span input.size) (hstart : start ≤ input.size)
    (h : Arrives input fail answers target place task start) : start ≤ place :=
  (h.span hspan hstart).1

/-- A task mentions the rules that it leads to. -/
theorem mem_targets {rule : RuleId} (h : Arrives input fail answers (.rule rule) place task start) :
    rule ∈ task.targets := by
  induction h with
  | here => exact List.mem_singleton_self _
  | sequence hitems ih => exact ih
  | choice hitems ih => exact ih
  | repetition hcopies ih => exact ih
  | lookahead hitem ih => exact ih
  | tagged hitem ih => exact ih
  | allItem hitem ih | firstItem hitem ih => exact List.mem_append_left _ ih
  | allRest hitem hrest ih | firstRest hitem hrest ih => exact List.mem_append_right _ ih
  | copiesItem hlimit hitem ih => exact ih
  | copiesRest hlimit hitem hmoved hrest ih => exact ih

end Arrives

namespace Grammar

variable [DecidableEq S]

/-! ## Direct left recursion -/

/-- The best matches that attempts for a key come by. The first of them is none at all. -/
inductive Bests (grammar : Grammar S M) (input : Array S) (key : MemoKey) (form : Expression S) :
    Outcome Tree → Prop where
  | first : Bests grammar input key form .failure
  | next {best outcome : Outcome Tree} {remarks : List Remark}
      (hbest : Bests grammar input key form best)
      (hattempt : Attempts input (grammar.Settled input) key form best outcome remarks)
      (hlonger : outcome.Extends best) : Bests grammar input key form outcome

/-- An attempt for a key leads to another key. -/
def Leads (grammar : Grammar S M) (input : Array S) (key key' : MemoKey) : Prop :=
  key.position ≤ input.size ∧ ∃ form best, grammar.body? key.rule = some (.expression form) ∧
    grammar.Bests input key form best ∧
    Arrives input .missed ((grammar.Settled input).during key best) (.rule key'.rule)
      key'.position (.one form) key.position

/-- The key is the first one, or the first one leads to it, directly or through others. -/
def Reaches (grammar : Grammar S M) (input : Array S) (root key : MemoKey) : Prop :=
  key = root ∨ Relation.TransGen (grammar.Leads input) root key

/-- Nothing that `root` leads to comes back to itself at one position by way of another rule. -/
def Direct (grammar : Grammar S M) (input : Array S) (root : MemoKey) : Prop :=
  ∀ key key', grammar.Reaches input root key → Relation.TransGen (grammar.Leads input) key key' →
    Relation.TransGen (grammar.Leads input) key' key → key = key'

variable {grammar : Grammar S M} {input : Array S} {root key key' : MemoKey}

theorem Reaches.step (h : grammar.Reaches input root key) (hleads : grammar.Leads input key key') :
    grammar.Reaches input root key' := by
  rcases h with rfl | h
  · exact .inr (.single hleads)
  · exact .inr (.tail h hleads)

theorem Bests.fits {form : Expression S} {best : Outcome Tree} (hstart : key.position ≤ input.size)
    (h : grammar.Bests input key form best) : best.Fits key.position input.size := by
  induction h with
  | first => exact fun _ hfound => nomatch hfound
  | next hbest hattempt hlonger ih => exact hattempt.fits settled_span hstart ih

theorem le_of_leads (h : grammar.Leads input key key') : key.position ≤ key'.position := by
  obtain ⟨hstart, form, best, -, hbest, harrives⟩ := h
  exact harrives.le (Answers.during_span settled_span (hbest.fits hstart)) hstart

/-- Left recursion is direct where a rule that leads to another one at the same position has the
higher rank of the two. -/
theorem direct_of_rank (rank : RuleId → Nat)
    (hrank : ∀ key key', grammar.Leads input key key' → key.position = key'.position →
      key = key' ∨ rank key'.rule < rank key.rule) :
    grammar.Direct input root := by
  -- Along any way positions do not go down, and where they stay the rank does not go up.
  have hlower : ∀ key key', Relation.TransGen (grammar.Leads input) key key' →
      key.position ≤ key'.position ∧
        (key.position = key'.position → key = key' ∨ rank key'.rule < rank key.rule) := by
    intro key key' h
    induction h with
    | single hlead => exact ⟨le_of_leads hlead, hrank _ _ hlead⟩
    | @tail middle last _ hlead ih =>
      have hle := le_of_leads hlead
      refine ⟨Nat.le_trans ih.1 hle, fun hposition => ?_⟩
      -- Positions never go back, so both parts of the way stay at this one.
      rcases ih.2 (by omega), hrank _ _ hlead (by omega) with ⟨rfl | hlt, rfl | hlt'⟩
      · exact .inl rfl
      · exact .inr hlt'
      · exact .inr hlt
      · exact .inr (Nat.lt_trans hlt' hlt)
  intro key key' _ h h'
  -- There and back again the position is the same, so the rank is the same too.
  obtain ⟨hle, hkey⟩ := hlower key key' h
  obtain ⟨hle', hkey'⟩ := hlower key' key h'
  rcases hkey (Nat.le_antisymm hle hle') with rfl | hlt
  · rfl
  · rcases hkey' (Nat.le_antisymm hle' hle) with rfl | hlt'
    · rfl
    · exact absurd (Nat.lt_trans hlt hlt') (Nat.lt_irrefl _)

/-- Left recursion is direct where each rule mentions no rules but itself and those of a lower
rank. -/
theorem direct_of_targets (rank : RuleId → Nat)
    (hrank : ∀ rule form, grammar.body? rule = some (.expression form) →
      ∀ target ∈ form.targets, target = rule ∨ rank target < rank rule) :
    grammar.Direct input root := by
  apply direct_of_rank rank
  rintro ⟨rule, start⟩ ⟨rule', start'⟩ ⟨-, form, best, hbody, -, harrives⟩ rfl
  rcases hrank rule form hbody rule' harrives.mem_targets with rfl | hlt
  · exact .inl rfl
  · exact .inr hlt

end Grammar

end LeftPeg
