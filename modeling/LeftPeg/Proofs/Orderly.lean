import LeftPeg.Proofs.Slots
import LeftPeg.Scan

/-!
# Orderly states

`Orderly` ties the table to the stack: each live activation has its marker or its seed in the
table, each marker names a live activation, and no activation has a rule in its cycle that is
under evaluation at its own position.  The rest of the file is one lemma for each operation that
changes the table or the stack.

`Undisturbed` is what an invocation owes to the activations below it: they are still there, at the
same stage, and the seeds of those that grow have not been touched.
-/

namespace LeftPeg

variable {V : Type}

/-- The state of a run whose bodies move forward only, over an input of `size` symbols. All
outcomes it holds on to satisfy `kept`. -/
structure Orderly (kept : RuleId → Nat → Outcome V → Prop) (size : Nat) (memo : MemoTable V)
    (stack : ActivationStack V) (position : Nat) : Prop where
  -- Positions rise from the bottom of the stack to the position of the run.
  position_le : position ≤ size
  reached {slot : Nat} {a : Activation V} : stack.get? slot = some a → a.position ≤ position
  forward {i j : Nat} {a b : Activation V} :
    i ≤ j → stack.get? i = some a → stack.get? j = some b → a.position ≤ b.position
  -- No rule is under evaluation twice at one position: the second time it meets its own cell.
  distinct {i j : Nat} {a b : Activation V} :
    stack.get? i = some a → stack.get? j = some b → a.rule = b.rule → a.position = b.position →
      i = j
  /-- An activation without a seed has its marker in the table. -/
  marked {slot : Nat} {a : Activation V} :
    stack.get? slot = some a → a.stage ≠ .growing →
      memo.find? a.rule a.position = some (.inProgress slot)
  /-- An activation with a seed has it in the table. -/
  seeded {slot : Nat} {a : Activation V} :
    stack.get? slot = some a → a.stage = .growing →
      ∃ found, memo.find? a.rule a.position = some (.finished (.success found))
  /-- A marker names the activation it stands for. -/
  owned {rule : RuleId} {start slot : Nat} :
    memo.find? rule start = some (.inProgress slot) →
      ∃ a, stack.get? slot = some a ∧ a.rule = rule ∧ a.position = start
  /-- The rules involved in a cycle have no activation of the head's position at the head or below
  it. -/
  apart {i slot : Nat} {a b : Activation V} {rule : RuleId} :
    stack.get? slot = some a → rule ∈ a.involved → i ≤ slot → stack.get? i = some b →
      b.position = a.position → b.rule ≠ rule
  -- A parent is a lower activation of the same position, so telling it keeps `apart`.
  parents_lt {slot parent : Nat} {a : Activation V} :
    stack.get? slot = some a → parent ∈ a.parents → parent < slot
  parents_here {slot parent : Nat} {a b : Activation V} :
    stack.get? slot = some a → parent ∈ a.parents → stack.get? parent = some b →
      b.position = a.position
  -- Outcomes set aside come back into the table, so they are answerable for as well.
  memo_kept {rule : RuleId} {start : Nat} {outcome : Outcome V} :
    memo.find? rule start = some (.finished outcome) → kept rule start outcome
  aside_kept {slot : Nat} {a : Activation V} {entry : RuleId × Outcome V} :
    stack.get? slot = some a → entry ∈ a.aside → kept entry.1 a.position entry.2

/-- The activations in the first `depth` slots are what they were, but for what is known of their
cycles, and so are the seeds of those that grow. -/
def Undisturbed (depth : Nat) (memo : MemoTable V) (stack : ActivationStack V)
    (memo' : MemoTable V) (stack' : ActivationStack V) : Prop :=
  ∀ slot a, slot < depth → stack.get? slot = some a →
    ∃ a', stack'.get? slot = some a' ∧ a.SameCall a' ∧ (a'.stage = .growing ↔ a.stage = .growing) ∧
      (a.stage = .growing → memo'.find? a.rule a.position = memo.find? a.rule a.position)

/-- The second stack differs from the first in what is known of cycles only: `f` says how, slot by
slot. -/
structure Retelling (stack stack' : ActivationStack V) (f : Nat → Activation V → Activation V) :
    Prop where
  get?_eq (i : Nat) : stack'.get? i = (stack.get? i).map (f i)
  sameCall (i : Nat) (a : Activation V) : a.SameCall (f i a)
  growing_iff {i : Nat} {a : Activation V} :
    stack.get? i = some a → ((f i a).stage = .growing ↔ a.stage = .growing)

section

variable {kept : RuleId → Nat → Outcome V → Prop} {size position position' depth : Nat}
  {memo memo' memo'' : MemoTable V} {stack stack' stack'' rest : ActivationStack V}

theorem Undisturbed.refl : Undisturbed depth memo stack memo stack :=
  fun _ a _ ha => ⟨a, ha, .refl a, Iff.rfl, fun _ => rfl⟩

theorem Undisturbed.trans (h : Undisturbed depth memo stack memo' stack')
    (h' : Undisturbed depth memo' stack' memo'' stack'') :
    Undisturbed depth memo stack memo'' stack'' := by
  intro slot a hslot ha
  obtain ⟨b, hb, hcall, hstage, hseed⟩ := h slot a hslot ha
  obtain ⟨c, hc, hcall', hstage', hseed'⟩ := h' slot b hslot hb
  refine ⟨c, hc, hcall.trans hcall', hstage'.trans hstage, fun hgrowing => ?_⟩
  have hmemo := hseed' (hstage.mpr hgrowing)
  -- The middle account speaks of the same cell.
  rw [hcall.rule_eq, hcall.position_eq] at hmemo
  exact hmemo.trans (hseed hgrowing)

theorem Undisturbed.mono {depth' : Nat} (hle : depth' ≤ depth)
    (h : Undisturbed depth memo stack memo' stack') :
    Undisturbed depth' memo stack memo' stack' :=
  fun slot a hslot => h slot a (Nat.lt_of_lt_of_le hslot hle)

theorem Retelling.undisturbed {f : Nat → Activation V → Activation V}
    (h : Retelling stack stack' f) : Undisturbed depth memo stack memo stack' := by
  intro slot a _ ha
  refine ⟨f slot a, ?_, h.sameCall slot a, h.growing_iff ha, fun _ => rfl⟩
  rw [h.get?_eq, ha]
  rfl

/-- Something comes back only to activations that have no seed yet. -/
theorem retelling_reenter {slot : Nat}
    (hseedless : ∀ a, stack.get? slot = some a → a.stage ≠ .growing) :
    Retelling stack (stack.reenter slot) (stack.onReenter slot) where
  get?_eq _ := ActivationStack.get?_reenter
  sameCall i a := by
    unfold ActivationStack.onReenter
    split
    · exact (Activation.sameCall_involveAll a _).trans ⟨rfl, rfl, rfl⟩
    · split
      · exact Activation.sameCall_addParent a slot
      · exact .refl a
  growing_iff {i a} ha := by
    unfold ActivationStack.onReenter
    split
    · rename_i heq
      subst heq
      simp [Activation.atStage, hseedless a ha]
    · split
      · rw [Activation.stage_addParent]
      · exact Iff.rfl

theorem retelling_report {slot : Nat} {head : Activation V}
    (hhead : stack.get? slot = some head) :
    Retelling stack (stack.report slot) (ActivationStack.onReport head slot) where
  get?_eq _ := ActivationStack.get?_report hhead
  sameCall i a := (ActivationStack.onReport_spec head slot i a).1
  growing_iff {i a} _ := by
    rw [(ActivationStack.onReport_spec head slot i a).2.1]

namespace Orderly

/-- The position may be any that all live activations have reached. -/
theorem move (h : Orderly kept size memo stack position) (hle : position' ≤ size)
    (hreached : ∀ slot a, stack.get? slot = some a → a.position ≤ position') :
    Orderly kept size memo stack position' :=
  { h with position_le := hle, reached := hreached _ _ }

theorem advance (h : Orderly kept size memo stack position) (hle : position ≤ position')
    (hsize : position' ≤ size) : Orderly kept size memo stack position' :=
  h.move hsize fun _ _ ha => Nat.le_trans (h.reached ha) hle

/-- The account of a cycle may grow by rules that are not under evaluation at the head's position,
at the head or below it. -/
theorem retell (h : Orderly kept size memo stack position)
    {f : Nat → Activation V → Activation V} (hretelling : Retelling stack stack' f)
    (hinvolved : ∀ i a rule, stack.get? i = some a → rule ∈ (f i a).involved →
      ∀ j b, j ≤ i → stack.get? j = some b → b.position = a.position → b.rule ≠ rule)
    (hparents : ∀ i a parent, stack.get? i = some a → parent ∈ (f i a).parents →
      parent < i ∧ ∀ b, stack.get? parent = some b → b.position = a.position) :
    Orderly kept size memo stack' position := by
  have hcall := hretelling.sameCall
  -- Every activation is a retold one, with the rule, the position and the outcomes set aside of
  -- the one it retells.  Only the last three facts about cycles need the hypotheses.
  have hold : ∀ {i a'}, stack'.get? i = some a' → ∃ a, stack.get? i = some a ∧ a' = f i a := by
    intro i a' ha'
    rw [hretelling.get?_eq] at ha'
    obtain ⟨a, ha, hfa⟩ := Option.map_eq_some_iff.mp ha'
    exact ⟨a, ha, hfa.symm⟩
  constructor
  case position_le => exact h.position_le
  case reached =>
    intro i a' ha'
    obtain ⟨a, ha, rfl⟩ := hold ha'
    rw [(hcall i a).position_eq]
    exact h.reached ha
  case forward =>
    intro i j a' b' hij ha' hb'
    obtain ⟨a, ha, rfl⟩ := hold ha'
    obtain ⟨b, hb, rfl⟩ := hold hb'
    rw [(hcall i a).position_eq, (hcall j b).position_eq]
    exact h.forward hij ha hb
  case distinct =>
    intro i j a' b' ha' hb' hrule hposition
    obtain ⟨a, ha, rfl⟩ := hold ha'
    obtain ⟨b, hb, rfl⟩ := hold hb'
    rw [(hcall i a).rule_eq, (hcall j b).rule_eq] at hrule
    rw [(hcall i a).position_eq, (hcall j b).position_eq] at hposition
    exact h.distinct ha hb hrule hposition
  case marked =>
    intro i a' ha' hgrowing
    obtain ⟨a, ha, rfl⟩ := hold ha'
    rw [(hcall i a).rule_eq, (hcall i a).position_eq]
    exact h.marked ha fun hgrows => hgrowing ((hretelling.growing_iff ha).mpr hgrows)
  case seeded =>
    intro i a' ha' hgrowing
    obtain ⟨a, ha, rfl⟩ := hold ha'
    rw [(hcall i a).rule_eq, (hcall i a).position_eq]
    exact h.seeded ha ((hretelling.growing_iff ha).mp hgrowing)
  case owned =>
    intro rule start slot hmarker
    obtain ⟨a, ha, hrule, hposition⟩ := h.owned hmarker
    refine ⟨f slot a, by rw [hretelling.get?_eq, ha]; rfl, ?_, ?_⟩
    · rw [(hcall slot a).rule_eq, hrule]
    · rw [(hcall slot a).position_eq, hposition]
  case apart =>
    intro i slot a' b' rule ha' hrule hle hb' hposition
    obtain ⟨a, ha, rfl⟩ := hold ha'
    obtain ⟨b, hb, rfl⟩ := hold hb'
    rw [(hcall slot a).position_eq, (hcall i b).position_eq] at hposition
    rw [(hcall i b).rule_eq]
    exact hinvolved slot a rule ha hrule i b hle hb hposition
  case parents_lt =>
    intro slot parent a' ha' hparent
    obtain ⟨a, ha, rfl⟩ := hold ha'
    exact (hparents slot a parent ha hparent).1
  case parents_here =>
    intro slot parent a' b' ha' hparent hb'
    obtain ⟨a, ha, rfl⟩ := hold ha'
    obtain ⟨b, hb, rfl⟩ := hold hb'
    rw [(hcall slot a).position_eq, (hcall parent b).position_eq]
    exact (hparents slot a parent ha hparent).2 b hb
  case memo_kept => exact h.memo_kept
  case aside_kept =>
    intro slot a' entry ha' hentry
    obtain ⟨a, ha, rfl⟩ := hold ha'
    rw [(hcall slot a).aside_eq] at hentry
    rw [(hcall slot a).position_eq]
    exact h.aside_kept ha hentry

theorem seedless (h : Orderly kept size memo stack position) {rule : RuleId} {start slot : Nat}
    (hmarker : memo.find? rule start = some (.inProgress slot)) (a : Activation V)
    (ha : stack.get? slot = some a) : a.stage ≠ .growing := by
  -- A cell holds a marker or a seed, not both.
  intro hgrowing
  obtain ⟨b, hb, hrule, hposition⟩ := h.owned hmarker
  rw [ha] at hb
  injection hb with hb
  subst hb
  obtain ⟨found, hfound⟩ := h.seeded ha hgrowing
  rw [hrule, hposition, hmarker] at hfound
  exact nomatch hfound

/-- A run that comes back to an activation without a seed learns of its cycle. All activations
above that one are of its position, since none of them began to the left of it and the run is
where it began. -/
theorem reenter (h : Orderly kept size memo stack position) {rule : RuleId} {slot : Nat}
    (hmarker : memo.find? rule position = some (.inProgress slot)) :
    Orderly kept size memo (stack.reenter slot) position := by
  obtain ⟨head, hhead, hrule, hposition⟩ := h.owned hmarker
  have habove : ∀ {i a}, slot ≤ i → stack.get? i = some a → a.position = position :=
    fun hle ha => Nat.le_antisymm (h.reached ha) (hposition ▸ h.forward hle hhead ha)
  refine h.retell (retelling_reenter (h.seedless hmarker)) ?_ ?_
  · intro i a r ha hr j b hle hb hb_position
    unfold ActivationStack.onReenter at hr
    split at hr
    · rename_i heq
      subst heq
      -- The head learns of the rules above it: each is the rule of an activation of this position.
      rcases Activation.mem_involved_involveAll.mp hr with hold | ⟨hnew, -⟩
      · exact h.apart ha hold hle hb hb_position
      · obtain ⟨c, hc, rfl⟩ := List.mem_map.mp hnew
        obtain ⟨k, hk, hck⟩ := ActivationStack.mem_above_iff.mp hc
        rintro hsame
        have hbk : b.position = c.position := by
          rw [hb_position, habove (Nat.le_refl _) ha, habove (Nat.le_of_lt hk) hck]
        have := h.distinct hb hck hsame hbk
        omega
    -- Above the head nothing is learnt but the new parent, and below it nothing at all.
    · split at hr
      · rw [Activation.involved_addParent] at hr
        exact h.apart ha hr hle hb hb_position
      · exact h.apart ha hr hle hb hb_position
  · intro i a parent ha hparent
    have hkeep : parent ∈ a.parents →
        parent < i ∧ ∀ b, stack.get? parent = some b → b.position = a.position :=
      fun hold => ⟨h.parents_lt ha hold, fun b hb => h.parents_here ha hold hb⟩
    unfold ActivationStack.onReenter at hparent
    split at hparent
    · rw [Activation.atStage, Activation.parents_involveAll] at hparent
      exact hkeep hparent
    · split at hparent
      · rename_i hlt
        rcases Activation.mem_parents_addParent.mp hparent with hold | rfl
        · exact hkeep hold
        · refine ⟨hlt, fun b hb => ?_⟩
          rw [habove (Nat.le_refl _) hb, habove (Nat.le_of_lt hlt) ha]
      · exact hkeep hparent

/-- Telling the parents of a cycle keeps order, since they are of the head's position. -/
theorem report (h : Orderly kept size memo stack position) {slot : Nat} :
    Orderly kept size memo (stack.report slot) position := by
  cases hhead : stack.get? slot with
  | none =>
    rw [ActivationStack.report, hhead]
    exact h
  | some head =>
    refine h.retell (retelling_report hhead) ?_ ?_
    · intro i a rule ha hrule j b hle hb hposition
      rcases (ActivationStack.onReport_spec head slot i a).2.2.2 rule hrule
        with hold | ⟨hparent, hinvolved⟩
      · exact h.apart ha hold hle hb hposition
      -- A rule told by the head is apart from all below the head, the parent among them.
      · have hlt := h.parents_lt hhead hparent
        have hhere := h.parents_here hhead hparent ha
        exact h.apart hhead hinvolved (by omega) hb (hposition.trans hhere)
    · intro i a parent ha hparent
      have hold := (ActivationStack.onReport_spec head slot i a).2.2.1 parent hparent
      exact ⟨h.parents_lt ha hold, fun b hb => h.parents_here ha hold hb⟩

/-- A rule that has no cell at the present position becomes an activation there. -/
theorem enter (h : Orderly kept size memo stack position) {rule : RuleId}
    (hfree : memo.find? rule position = none) :
    Orderly kept size (memo.put rule position (.inProgress stack.depth))
      (stack.push rule position) position := by
  -- No live activation has the new key, since each of them has a cell under its own.
  have hfresh : ∀ {i a}, stack.get? i = some a → ¬ (rule = a.rule ∧ position = a.position) := by
    rintro i a ha ⟨rfl, rfl⟩
    by_cases hstage : a.stage = .growing
    · obtain ⟨found, hfound⟩ := h.seeded ha hstage
      exact nomatch hfree.symm.trans hfound
    · exact nomatch hfree.symm.trans (h.marked ha hstage)
  -- An activation is the new one on top or one that was there.
  have hcases : ∀ {i a}, (stack.push rule position).get? i = some a →
      (i = stack.depth ∧ a = { rule, position }) ∨ (i < stack.depth ∧ stack.get? i = some a) := by
    intro i a ha
    rw [ActivationStack.get?_push] at ha
    split at ha
    · rename_i heq
      injection ha with ha
      exact .inl ⟨heq, ha.symm⟩
    · exact .inr ⟨ActivationStack.lt_depth_of_get? ha, ha⟩
  constructor
  case position_le => exact h.position_le
  case reached =>
    intro i a ha
    rcases hcases ha with ⟨-, rfl⟩ | ⟨-, ha⟩
    · exact Nat.le_refl _
    · exact h.reached ha
  case forward =>
    intro i j a b hij ha hb
    rcases hcases ha with ⟨rfl, rfl⟩ | ⟨-, ha⟩
    · rcases hcases hb with ⟨-, rfl⟩ | ⟨hlt, -⟩
      · exact Nat.le_refl _
      · omega
    · rcases hcases hb with ⟨-, rfl⟩ | ⟨-, hb⟩
      · exact h.reached ha
      · exact h.forward hij ha hb
  case distinct =>
    intro i j a b ha hb hrule hposition
    rcases hcases ha with ⟨rfl, rfl⟩ | ⟨-, ha⟩
    · rcases hcases hb with ⟨rfl, -⟩ | ⟨-, hb⟩
      · rfl
      · exact (hfresh hb ⟨hrule, hposition⟩).elim
    · rcases hcases hb with ⟨-, rfl⟩ | ⟨-, hb⟩
      · exact (hfresh ha ⟨hrule.symm, hposition.symm⟩).elim
      · exact h.distinct ha hb hrule hposition
  case marked =>
    intro i a ha hstage
    rcases hcases ha with ⟨rfl, rfl⟩ | ⟨-, ha⟩
    · exact MemoTable.find?_put_self
    · rw [MemoTable.find?_put, if_neg (hfresh ha)]
      exact h.marked ha hstage
  case seeded =>
    intro i a ha hstage
    rcases hcases ha with ⟨rfl, rfl⟩ | ⟨-, ha⟩
    · exact nomatch hstage
    · rw [MemoTable.find?_put, if_neg (hfresh ha)]
      exact h.seeded ha hstage
  case owned =>
    intro r start slot hmarker
    rw [MemoTable.find?_put] at hmarker
    rw [ActivationStack.get?_push]
    split at hmarker
    · rename_i heq
      -- The new marker names the slot that the push fills.
      injection hmarker with hmarker
      injection hmarker with hslot
      subst hslot
      rw [if_pos rfl]
      exact ⟨_, rfl, heq⟩
    · obtain ⟨a, ha, hkey⟩ := h.owned hmarker
      rw [if_neg (Nat.ne_of_lt (ActivationStack.lt_depth_of_get? ha))]
      exact ⟨a, ha, hkey⟩
  case apart =>
    intro i slot a b r ha hr hle hb hposition
    rcases hcases ha with ⟨rfl, rfl⟩ | ⟨hlt, ha⟩
    · exact nomatch hr
    · rcases hcases hb with ⟨rfl, -⟩ | ⟨-, hb⟩
      · omega
      · exact h.apart ha hr hle hb hposition
  case parents_lt =>
    intro slot parent a ha hparent
    rcases hcases ha with ⟨-, rfl⟩ | ⟨-, ha⟩
    · exact nomatch hparent
    · exact h.parents_lt ha hparent
  case parents_here =>
    intro slot parent a b ha hparent hb
    rcases hcases ha with ⟨-, rfl⟩ | ⟨hlt, ha⟩
    · exact nomatch hparent
    · have hbelow := h.parents_lt ha hparent
      rcases hcases hb with ⟨rfl, -⟩ | ⟨-, hb⟩
      · omega
      · exact h.parents_here ha hparent hb
  case memo_kept =>
    intro r start outcome hfind
    rw [MemoTable.find?_put] at hfind
    split at hfind
    · exact nomatch hfind
    · exact h.memo_kept hfind
  case aside_kept =>
    intro slot a entry ha hentry
    rcases hcases ha with ⟨-, rfl⟩ | ⟨-, ha⟩
    · exact nomatch hentry
    · exact h.aside_kept ha hentry

theorem undisturbed_enter (h : Orderly kept size memo stack position) {rule : RuleId}
    (hfree : memo.find? rule position = none) :
    Undisturbed stack.depth memo stack (memo.put rule position (.inProgress stack.depth))
      (stack.push rule position) := by
  intro slot a hslot ha
  refine ⟨a, ?_, .refl a, Iff.rfl, fun hgrowing => ?_⟩
  · rw [ActivationStack.get?_push, if_neg (by omega), ha]
  · obtain ⟨found, hfound⟩ := h.seeded ha hgrowing
    rw [MemoTable.find?_put, if_neg]
    rintro ⟨rfl, rfl⟩
    exact nomatch hfree.symm.trans hfound

/-- The activation started last ends with an answer. Of the rest of the table, only cells that no
live activation stands for may have changed. -/
theorem release (h : Orderly kept size memo stack position) {slot : Nat} {a : Activation V}
    {outcome : Outcome V} (hdepth : stack.depth = slot + 1) (ha : stack.get? slot = some a)
    (hrest : ∀ i, rest.get? i = if i < slot then stack.get? i else none)
    (hown : memo'.find? a.rule a.position = some (.finished outcome))
    (hlive : ∀ i b, i < slot → stack.get? i = some b →
      memo'.find? b.rule b.position = memo.find? b.rule b.position)
    (hmarkers : ∀ r p i, memo'.find? r p = some (.inProgress i) →
      memo.find? r p = some (.inProgress i))
    (hkept : ∀ r p o, memo'.find? r p = some (.finished o) → kept r p o)
    (hle : a.position ≤ position') (hsize : position' ≤ size) :
    Orderly kept size memo' rest position' := by
  -- What is left of the stack are the slots below the one released.
  have hold : ∀ {i b}, rest.get? i = some b → i < slot ∧ stack.get? i = some b := by
    intro i b hb
    rw [hrest] at hb
    split at hb
    · exact ⟨‹_›, hb⟩
    · exact nomatch hb
  constructor
  case position_le => exact hsize
  case reached =>
    intro i b hb
    obtain ⟨hlt, hb⟩ := hold hb
    exact Nat.le_trans (h.forward (Nat.le_of_lt hlt) hb ha) hle
  case forward =>
    intro i j b c hij hb hc
    exact h.forward hij (hold hb).2 (hold hc).2
  case distinct =>
    intro i j b c hb hc
    exact h.distinct (hold hb).2 (hold hc).2
  case marked =>
    intro i b hb hstage
    obtain ⟨hlt, hb⟩ := hold hb
    rw [hlive i b hlt hb]
    exact h.marked hb hstage
  case seeded =>
    intro i b hb hstage
    obtain ⟨hlt, hb⟩ := hold hb
    rw [hlive i b hlt hb]
    exact h.seeded hb hstage
  case owned =>
    intro r p i hmarker
    obtain ⟨b, hb, hrule, hposition⟩ := h.owned (hmarkers r p i hmarker)
    -- The marker is not that of the activation released: its cell holds the answer.
    have hne : i ≠ slot := by
      rintro rfl
      rw [ha] at hb
      injection hb with hb
      subst hb
      rw [← hrule, ← hposition, hown] at hmarker
      exact nomatch hmarker
    have hlt : i < slot := by
      have := ActivationStack.lt_depth_of_get? hb
      omega
    exact ⟨b, by rw [hrest, if_pos hlt, hb], hrule, hposition⟩
  case apart =>
    intro i j b c r hb hr hij hc
    exact h.apart (hold hb).2 hr hij (hold hc).2
  case parents_lt =>
    intro i parent b hb
    exact h.parents_lt (hold hb).2
  case parents_here =>
    intro i parent b c hb hparent hc
    exact h.parents_here (hold hb).2 hparent (hold hc).2
  case memo_kept => exact hkept _ _ _
  case aside_kept =>
    intro i b entry hb
    exact h.aside_kept (hold hb).2

/-- The activation started last takes its first match, or a longer one, as its seed. What it sets
aside are outcomes of rules that are not under evaluation at its position. -/
theorem grow (h : Orderly kept size memo stack position) {slot : Nat} {a : Activation V}
    {found : Match V} (hdepth : stack.depth = slot + 1) (ha : stack.get? slot = some a)
    (hget : ∀ i, stack'.get? i =
      if slot = i then some { a with stage := .growing, aside := (a.setAside memo).1.aside }
      else stack.get? i)
    (hfound : kept a.rule a.position (.success found)) :
    Orderly kept size ((a.setAside memo).2.put a.rule a.position (.finished (.success found)))
      stack' a.position := by
  -- An activation is the one that grows, on top, or one below it that has not changed.
  have hcases : ∀ {i b'}, stack'.get? i = some b' →
      (i = slot ∧ b' = { a with stage := .growing, aside := (a.setAside memo).1.aside }) ∨
        (i < slot ∧ stack.get? i = some b') := by
    intro i b' hb'
    rw [hget] at hb'
    split at hb'
    · rename_i heq
      injection hb' with hb'
      exact .inl ⟨heq.symm, hb'.symm⟩
    · have := ActivationStack.lt_depth_of_get? hb'
      exact .inr ⟨by omega, hb'⟩
  -- The cells of those below are untouched: they are neither the seed's nor set aside.
  have hother : ∀ {i b}, i < slot → stack.get? i = some b →
      ((a.setAside memo).2.put a.rule a.position (.finished (.success found))).find?
        b.rule b.position = memo.find? b.rule b.position := by
    intro i b hlt hb
    rw [MemoTable.find?_put, if_neg, Activation.find?_setAside, if_neg]
    · rintro ⟨hinvolved, hposition, -⟩
      exact h.apart ha hinvolved (Nat.le_of_lt hlt) hb hposition rfl
    · rintro ⟨hrule, hposition⟩
      exact Nat.ne_of_lt hlt (h.distinct hb ha hrule.symm hposition.symm)
  -- Setting aside only takes from the table.
  have hsub : ∀ {r p entry}, (a.setAside memo).2.find? r p = some entry →
      memo.find? r p = some entry := by
    intro r p entry hfind
    rw [Activation.find?_setAside] at hfind
    split at hfind
    · exact nomatch hfind
    · exact hfind
  constructor
  case position_le => exact Nat.le_trans (h.reached ha) h.position_le
  case reached =>
    intro i b hb
    rcases hcases hb with ⟨-, rfl⟩ | ⟨hlt, hb⟩
    · exact Nat.le_refl _
    · exact h.forward (Nat.le_of_lt hlt) hb ha
  case forward =>
    intro i j b c hij hb hc
    rcases hcases hb with ⟨rfl, rfl⟩ | ⟨-, hb⟩
    · rcases hcases hc with ⟨-, rfl⟩ | ⟨hlt, -⟩
      · exact Nat.le_refl _
      · omega
    · rcases hcases hc with ⟨rfl, rfl⟩ | ⟨-, hc⟩
      · have hle := h.forward hij hb ha
        exact hle
      · exact h.forward hij hb hc
  case distinct =>
    intro i j b c hb hc hrule hposition
    rcases hcases hb with ⟨rfl, rfl⟩ | ⟨-, hb⟩
    · rcases hcases hc with ⟨rfl, -⟩ | ⟨-, hc⟩
      · rfl
      · exact h.distinct ha hc hrule hposition
    · rcases hcases hc with ⟨rfl, rfl⟩ | ⟨-, hc⟩
      · exact h.distinct hb ha hrule hposition
      · exact h.distinct hb hc hrule hposition
  case marked =>
    intro i b hb hstage
    rcases hcases hb with ⟨-, rfl⟩ | ⟨hlt, hb⟩
    · exact (hstage rfl).elim
    · rw [hother hlt hb]
      exact h.marked hb hstage
  case seeded =>
    intro i b hb hstage
    rcases hcases hb with ⟨-, rfl⟩ | ⟨hlt, hb⟩
    · exact ⟨found, MemoTable.find?_put_self⟩
    · rw [hother hlt hb]
      exact h.seeded hb hstage
  case owned =>
    intro r p i hmarker
    rw [MemoTable.find?_put] at hmarker
    split at hmarker
    · exact nomatch hmarker
    · rename_i hkey
      obtain ⟨b, hb, hrule, hposition⟩ := h.owned (hsub hmarker)
      -- The marker of the activation itself has just been overwritten by its seed.
      have hne : slot ≠ i := by
        rintro rfl
        rw [ha] at hb
        injection hb with hb
        subst hb
        exact hkey ⟨hrule, hposition⟩
      exact ⟨b, by rw [hget, if_neg hne, hb], hrule, hposition⟩
  case apart =>
    intro i j b c r hb hr hij hc hposition
    rcases hcases hb with ⟨rfl, rfl⟩ | ⟨hlt, hb⟩
    · rcases hcases hc with ⟨-, rfl⟩ | ⟨-, hc⟩
      · have hown := h.apart ha hr (Nat.le_refl _) ha rfl
        exact hown
      · exact h.apart ha hr hij hc hposition
    · rcases hcases hc with ⟨rfl, -⟩ | ⟨-, hc⟩
      · omega
      · exact h.apart hb hr hij hc hposition
  case parents_lt =>
    intro i parent b hb hparent
    rcases hcases hb with ⟨rfl, rfl⟩ | ⟨-, hb⟩
    · exact h.parents_lt ha hparent
    · exact h.parents_lt hb hparent
  case parents_here =>
    intro i parent b c hb hparent hc
    rcases hcases hb with ⟨rfl, rfl⟩ | ⟨hlt, hb⟩
    · have hbelow := h.parents_lt ha hparent
      rcases hcases hc with ⟨rfl, -⟩ | ⟨-, hc⟩
      · omega
      · have hhere := h.parents_here ha hparent hc
        exact hhere
    · have hbelow := h.parents_lt hb hparent
      rcases hcases hc with ⟨rfl, -⟩ | ⟨-, hc⟩
      · omega
      · exact h.parents_here hb hparent hc
  case memo_kept =>
    intro r p outcome hfind
    rw [MemoTable.find?_put] at hfind
    split at hfind
    · rename_i hkey
      obtain ⟨rfl, rfl⟩ := hkey
      injection hfind with hfind
      injection hfind with hfind
      exact hfind ▸ hfound
    · exact h.memo_kept (hsub hfind)
  case aside_kept =>
    intro i b entry hb hentry
    rcases hcases hb with ⟨-, rfl⟩ | ⟨-, hb⟩
    · rcases Activation.mem_aside_setAside hentry with hold | hfind
      · have hkept := h.aside_kept ha hold
        exact hkept
      · exact h.memo_kept hfind
    · exact h.aside_kept hb hentry

end Orderly

end

end LeftPeg
